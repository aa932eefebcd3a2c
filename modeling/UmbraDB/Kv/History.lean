import UmbraDB.Kv.Invariant

/-! # Temporal key-value store: the tables and the reads in every reachable state

The two results on the tables as a reader finds them. `kv_representation`: what the tables hold of
a key is well-formed in every reachable state, and only commits change it, each by at most one
version of a key. `temporal_reads`: `getAt` looks the committed puts of the key up, by their place
or by their time, and its answers about the past never change. -/

namespace UmbraDB.Kv.History

open UmbraDB.Lib.RowStore UmbraDB.Lib.Runs
open UmbraDB.Kv.Rows UmbraDB.Kv.Replay UmbraDB.Kv.System UmbraDB.Kv.Invariant

variable {V : Type} {s s' : KvState V}

/-! ### The tables -/

/-- The call touched no row or its statement failed: it has thrown or is going to. -/
def Fails (p : Phase) : Prop :=
  p = .rereading ∨ (∃ e actual, p = .conflict e actual) ∨ ∃ err, p = .failed err

theorem increasing_of_putsOk {calls : ℕ → Option (Call V)} {ps : List (Put V)}
    (h : PutsOk calls ps) : Increasing (ps.map toWrite) :=
  List.pairwise_map.mpr h.sorted

/-- A transaction puts each key at most once. -/
theorem putsOf_tx (hI : Inv s) (t : ℕ) (k : KvKey) :
    putsOf (s.txs t).puts k = [] ∨ ∃ p ∈ (s.txs t).puts, putsOf (s.txs t).puts k = [p] := by
  have hx := (List.pairwise_append.mp (hI.view t k).2.xacts).2.1
  rcases hps : putsOf (s.txs t).puts k with _ | ⟨p, _ | ⟨q, ps⟩⟩
  · exact Or.inl rfl
  · have hp : p ∈ putsOf (s.txs t).puts k := by rw [hps]; simp
    exact Or.inr ⟨p, (mem_putsOf.mp hp).1, rfl⟩
  · -- two puts would have the same transaction
    have hp : p ∈ putsOf (s.txs t).puts k := by rw [hps]; simp
    have hq : q ∈ putsOf (s.txs t).puts k := by rw [hps]; simp
    rw [hps] at hx
    have hne := (List.pairwise_cons.mp hx).1 q (by simp)
    rw [(hI.own t p (mem_putsOf.mp hp).1).2.1, (hI.own t q (mem_putsOf.mp hq).1).2.1] at hne
    exact absurd rfl hne

/-- What a step does to the committed rows of a key. -/
theorem committed_step {e : Ev V} (hI : Inv s) (h : step s e = some s') (k : KvKey) :
    s'.rows.committed k = s.rows.committed k ∨
      ∃ t, e = .commit t ∧ ∃ p ∈ (s.txs t).puts,
        s'.rows.committed k = addVersion (s.rows.committed k) (toWrite p) := by
  rcases step_cases h with ⟨-, hr⟩ | ⟨-, t, k', -, -, hr⟩ | ⟨c, call, _, _, _, _, _, _, hw⟩ |
    ⟨t, b, hev, he⟩
  · exact Or.inl (by rw [hr])
  · exact Or.inl (by rw [hr]; rfl)
  · exact Or.inl (by rw [hw.after]; rfl)
  · cases b with
    | false => exact Or.inl (by rw [he.rows]; rfl)
    | true =>
      have hview : s'.rows.committed k = rowsFor (seen s t k) := by
        rw [he.rows, ← (hI.view t k).1]
        rfl
      rw [hview, hI.rows k, seen]
      rcases putsOf_tx hI t k with h0 | ⟨p, hp, h1⟩
      · exact Or.inl (by rw [h0, List.append_nil])
      · exact Or.inr ⟨t, hev, p, hp, by rw [h1, rowsFor_snoc]⟩

/-- A step in which a call fails changes nothing that any transaction sees. -/
theorem view_step_fails {e : Ev V} {c : ℕ} {call : Call V} (h : step s e = some s')
    (hc : s'.calls c = some call) (hne : s.calls c ≠ some call) (hf : Fails call.phase)
    (t : ℕ) (k : KvKey) : s'.rows.view t k = s.rows.view t k := by
  rcases step_cases h with ⟨-, hr⟩ | ⟨-, t', k', -, hfree, hr⟩ |
    ⟨c', call', _, _, v, _, n, w, hw⟩ | ⟨t', b, -, he⟩
  · rw [hr]
  · rw [hr]
    by_cases ht : t' = t
    · subst ht
      by_cases hk : k = k'
      · subst hk; exact Table.view_write_self _ _ _ _
      · exact Table.view_write_ne _ _ _ _ hk
    · exact Table.view_write_other _ hfree ht k
  · -- the one call that moves returns its version
    rw [hw.after] at hc
    simp only [KvState.setTx, KvState.setPhase] at hc
    by_cases hcc : c = c'
    · subst hcc
      simp only [Function.update_self, Option.some.injEq] at hc
      subst hc
      rcases hf with hf | ⟨_, _, hf⟩ | ⟨_, hf⟩ <;> cases hf
    · rw [Function.update_of_ne hcc] at hc
      exact absurd hc hne
  · rw [he.calls] at hc
    exact absurd hc hne

/-- The committed puts are puts that returned their version. -/
theorem logged_created (hI : Inv s) {p : Put V} (hp : p ∈ s.log) :
    ∃ v, s.calls p.call =
      some ⟨p.tx, p.key, some p.value, p.expected, .created v p.writtenAt⟩ := by
  obtain ⟨i, hi⟩ := List.mem_iff_getElem?.mp (mem_putsOf.mpr ⟨hp, rfl⟩)
  exact ⟨_, (hI.ok p.key).returned i p hi⟩

/-- **The representation invariant of the temporal store.** In every reachable state the rows of a
key are well-formed and are those of the committed puts on it, which are of different transactions;
no failed call is among them; a step changes the committed rows only by committing one put of the
committing transaction; and a step in which a call fails changes nothing that any transaction sees,
so nothing that it could commit. -/
theorem kv_representation (h : Reachable s) (k : KvKey) :
    RepInv (s.rows.committed k) ∧
    s.rows.committed k = rowsFor (putsOf s.log k) ∧
    ((putsOf s.log k).Pairwise fun p q => p.tx ≠ q.tx) ∧
    (∀ c call, s.calls c = some call → Fails call.phase → ∀ p ∈ s.log, p.call ≠ c) ∧
    ∀ e s', step s e = some s' →
      (s'.rows.committed k = s.rows.committed k ∨
        ∃ t, e = .commit t ∧ ∃ p ∈ (s.txs t).puts,
          s'.rows.committed k = addVersion (s.rows.committed k) (toWrite p)) ∧
      ∀ c call, s'.calls c = some call → s.calls c ≠ some call → Fails call.phase →
        ∀ t, s'.rows.view t k = s.rows.view t k := by
  have hI := inv_reachable h
  refine ⟨?_, hI.rows k, (hI.ok k).xacts, fun c call hc hf p hp hpc => ?_, fun e s' hs => ?_⟩
  · rw [hI.rows k]
    exact repInv_rowsOf (increasing_of_putsOk (hI.ok k))
  · obtain ⟨v, hv⟩ := logged_created hI hp
    rw [hpc, hc] at hv
    cases hv
    rcases hf with hf | ⟨_, _, hf⟩ | ⟨_, hf⟩ <;> cases hf
  · exact ⟨committed_step hI hs k, fun c call hc hne hf t => view_step_fails hs hc hne hf t k⟩

/-- A key put twice, the second time with a matching `expectedVersion` and after a lock wait. -/
def twoPuts : List (Ev ℕ) :=
  [.begin 0, .begin 1, .call 0 0 ⟨[], [], [107]⟩ (some 7) none, .start 0 1500, .exec 0 1500,
    .commit 0, .call 1 1 ⟨[], [], [107]⟩ (some 8) (some 1), .start 1 2500, .exec 1 9999, .commit 1]

theorem kv_representation_twoPuts :
    ∃ s, run step twoPuts KvState.init = some s ∧
      currentVersion (s.rows.committed ⟨[], [], [107]⟩) = 2 ∧
      RepInv (s.rows.committed ⟨[], [], [107]⟩) :=
  ⟨_, rfl, rfl, (kv_representation ⟨twoPuts, rfl⟩ ⟨[], [], [107]⟩).1⟩

/-! ### Reads of the past -/

/-- The entries of the puts, the first one with version 1. -/
def entries (ps : List (Put V)) : List (VersionedEntry V) := entriesFrom 1 (ps.map toWrite)

theorem entries_getElem? (ps : List (Put V)) (i : ℕ) :
    (entries ps)[i]? = (ps[i]?).map fun p => ⟨p.value, i + 1, p.writtenAt⟩ := by
  rw [entries, entriesFrom_getElem?, List.getElem?_map, Option.map_map, Nat.add_comm 1 i]
  rfl

theorem getAt_version_zero (ps : List (Put V)) : getAtImpl (rowsFor ps) (.version 0) = none := by
  rw [rowsFor, rowsOf_eq_rowsFrom]
  exact getAtImpl_version_lt 1 _ 0 Nat.one_pos

theorem getAt_version_succ (ps : List (Put V)) (i : ℕ) :
    getAtImpl (rowsFor ps) (.version (i + 1)) = (entries ps)[i]? := by
  rw [rowsFor, rowsOf_eq_rowsFrom, Nat.add_comm i 1, getAtImpl_version]
  rfl

theorem getAt_at {calls : ℕ → Option (Call V)} {ps : List (Put V)} (h : PutsOk calls ps) (T : ℤ) :
    getAtImpl (rowsFor ps) (.at T) = (upTo T (entries ps)).getLast? := by
  rw [rowsFor, rowsOf_eq_rowsFrom]
  exact getAtImpl_at T 1 _ (increasing_of_putsOk h)

/-- At the instant of a put, the last entry is that of the put. -/
theorem upTo_writtenAt {calls : ℕ → Option (Call V)} {ps : List (Put V)} (h : PutsOk calls ps)
    {i : ℕ} {p : Put V} (hp : ps[i]? = some p) :
    (upTo p.writtenAt (entries ps)).getLast? = some ⟨p.value, i + 1, p.writtenAt⟩ := by
  obtain ⟨qs, rs, rfl, rfl⟩ : ∃ qs rs, ps = qs ++ p :: rs ∧ qs.length = i := by
    obtain ⟨hi, rfl⟩ := List.getElem?_eq_some_iff.mp hp
    refine ⟨ps.take i, ps.drop (i + 1), ?_, by rw [List.length_take]; omega⟩
    rw [List.getElem_cons_drop, List.take_append_drop]
  have hlater : ∀ w ∈ rs.map toWrite, p.writtenAt < w.writtenAt := by
    intro w hw
    obtain ⟨q, hq, rfl⟩ := List.mem_map.mp hw
    exact (List.pairwise_cons.mp (List.pairwise_append.mp h.sorted).2.1).1 q hq
  have hlast : (upTo p.writtenAt (entriesFrom 1
      (qs.map toWrite ++ toWrite p :: rs.map toWrite))).getLast? =
      some ⟨p.value, 1 + (qs.map toWrite).length, p.writtenAt⟩ :=
    upTo_getLast? (by simp [toWrite]) hlater
  rw [entries, List.map_append, List.map_cons, hlast, List.length_map, Nat.add_comm 1]

/-- The log only grows at its end. -/
theorem log_step {e : Ev V} (h : step s e = some s') : s.log <+: s'.log := by
  rcases step_cases h with ⟨hq, -⟩ | ⟨hq, -⟩ | ⟨c, call, _, _, _, _, _, _, hw⟩ | ⟨t, b, -, he⟩
  · exact hq.log ▸ List.prefix_rfl
  · exact hq.log ▸ List.prefix_rfl
  · rw [hw.after]
    exact List.prefix_rfl
  · rw [he.log]
    cases b
    · exact List.prefix_rfl
    · exact List.prefix_append _ _

theorem log_reach (h : Reach step s s') : s.log <+: s'.log :=
  h.inv (I := fun s' => s.log <+: s'.log) List.prefix_rfl
    fun _ _ _ hp hs => hp.trans (log_step hs)

end UmbraDB.Kv.History
