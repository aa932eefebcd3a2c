import UmbraDB.Kv.Replay
import UmbraDB.Kv.System

/-! # Temporal key-value store: the invariant of all interleavings

In every reachable state the committed rows of a key are the rows of the committed puts on it, and
the rows a transaction holds are those of the committed puts followed by its own (`Inv`). A step
does one of five things (`step_cases`); most do not touch the tables (`Quiet`). -/

namespace UmbraDB.Kv.Invariant

open UmbraDB.Lib.RowStore UmbraDB.Lib.Runs
open UmbraDB.Kv.Rows UmbraDB.Kv.Replay UmbraDB.Kv.System

variable {V : Type} {s s' : KvState V}

/-! ### What a step does -/

/-- The transaction has begun and has not ended. -/
def Open (x : Tx V) : Prop := x.status = .active ∨ x.status = .failed

/-- A step that commits nothing and adds no version. -/
structure Quiet (s s' : KvState V) : Prop where
  log : s'.log = s.log
  puts : ∀ t, (s'.txs t).puts = (s.txs t).puts
  opened : ∀ t, Open (s.txs t) → Open (s'.txs t)
  committed : ∀ t, (s.txs t).status = .committed → (s'.txs t).status = .committed
  rolledBack : ∀ t, (s.txs t).status = .rolledBack → (s'.txs t).status = .rolledBack
  kept : ∀ c call v w, s.calls c = some call → call.phase = .created v w → s'.calls c = some call
  back : ∀ c call v w, s'.calls c = some call → call.phase = .created v w → s.calls c = some call

/-- The call `c` moves on, and nothing else of the calls changes. -/
theorem setPhase_kept {c : ℕ} {call : Call V} {p : Phase}
    (hc : ∀ call', s.calls c = some call' → ∀ v w, call'.phase ≠ .created v w)
    (hp : ∀ v w, p ≠ .created v w) :
    (∀ c' call' v w, s.calls c' = some call' → call'.phase = .created v w →
      (s.setPhase c call p).calls c' = some call') ∧
    ∀ c' call' v w, (s.setPhase c call p).calls c' = some call' → call'.phase = .created v w →
      s.calls c' = some call' := by
  constructor
  · intro c' call' v w h hph
    have hne : c' ≠ c := by
      rintro rfl
      exact hc call' h v w hph
    simpa [KvState.setPhase, hne] using h
  · intro c' call' v w h hph
    by_cases hne : c' = c
    · subst hne
      simp only [KvState.setPhase, Function.update_self, Option.some.injEq] at h
      subst h
      exact absurd hph (hp v w)
    · simpa [KvState.setPhase, hne] using h

theorem quiet_setPhase {c : ℕ} {call : Call V} {p : Phase}
    (hc : ∀ call', s.calls c = some call' → ∀ v w, call'.phase ≠ .created v w)
    (hp : ∀ v w, p ≠ .created v w) : Quiet s (s.setPhase c call p) :=
  ⟨rfl, fun _ => rfl, fun _ h => h, fun _ h => h, fun _ h => h,
    (setPhase_kept hc hp).1, (setPhase_kept hc hp).2⟩

/-- Changing the status of an open transaction to an open one, or what it is busy with. -/
theorem Quiet.setTx {t : ℕ} {x : Tx V} (h : Quiet s s') (ht : s'.txs t = s.txs t)
    (hputs : x.puts = (s.txs t).puts) (hx : Open x)
    (hs : (s.txs t).status ≠ .committed ∧ (s.txs t).status ≠ .rolledBack) :
    Quiet s (s'.setTx t x) := by
  refine ⟨h.log, fun t' => ?_, fun t' ho => ?_, fun t' hc => ?_, fun t' hr => ?_, h.kept, h.back⟩
  · by_cases he : t' = t
    · subst he; simpa [KvState.setTx] using hputs
    · simpa [KvState.setTx, he] using h.puts t'
  · by_cases he : t' = t
    · subst he; simpa [KvState.setTx] using hx
    · simpa [KvState.setTx, he] using h.opened t' ho
  · by_cases he : t' = t
    · subst he; exact absurd hc hs.1
    · simpa [KvState.setTx, he] using h.committed t' hc
  · by_cases he : t' = t
    · subst he; exact absurd hr hs.2
    · simpa [KvState.setTx, he] using h.rolledBack t' hr

theorem Quiet.setRows (h : Quiet s s') (r : Table ℕ KvKey (KvRows V)) :
    Quiet s { s' with rows := r } :=
  ⟨h.log, h.puts, h.opened, h.committed, h.rolledBack, h.kept, h.back⟩

theorem active_ne {x : Tx V} (h : x.status = .active) :
    x.status ≠ .committed ∧ x.status ≠ .rolledBack := by
  rw [h]; exact ⟨by decide, by decide⟩

/-- The call `c` of the open transaction writes its version. -/
structure Wrote (s s' : KvState V) (c : ℕ) (call : Call V) (clock defaultAt : ℤ) (v : V)
    (rows : KvRows V) (version : ℕ) (writtenAt : ℤ) : Prop where
  calls : s.calls c = some call
  phase : call.phase = .executing defaultAt
  active : (s.txs call.tx).status = .active
  free : s.rows.free call.tx call.key = true
  value : call.value = some v
  stmt : putRow call.tx defaultAt clock call.expected call.value (s.rows.view call.tx call.key) =
    .wrote rows version writtenAt
  after : s' =
    { (s.setPhase c call (.created version writtenAt)).setTx call.tx
        { s.txs call.tx with
          busy := none
          puts := (s.txs call.tx).puts ++
            [⟨c, call.tx, call.key, v, call.expected, writtenAt⟩] } with
      rows := s.rows.write call.tx call.key rows }

/-- The transaction `t` ends, by a commit or without one. -/
structure Ended (s s' : KvState V) (t : ℕ) (committed : Bool) : Prop where
  opened : Open (s.txs t)
  txs : s'.txs = Function.update s.txs t ⟨if committed then .committed else .rolledBack, none, []⟩
  calls : s'.calls = s.calls
  log : s'.log = if committed then s.log ++ (s.txs t).puts else s.log
  rows : s'.rows = if committed then s.rows.commit t else s.rows.rollback t

theorem not_created {c : ℕ} {call : Call V} (hc : s.calls c = some call)
    (hp : ∀ v w, call.phase ≠ .created v w) :
    ∀ call', s.calls c = some call' → ∀ v w, call'.phase ≠ .created v w := by
  intro call' hc' v w
  rw [hc, Option.some.injEq] at hc'
  subst hc'
  exact hp v w

theorem quiet_startStep {c : ℕ} {clock : ℤ} {call : Call V} (hc : s.calls c = some call)
    (h : startStep s c clock call = some s') : Quiet s s' ∧ s'.rows = s.rows := by
  simp only [startStep] at h
  by_cases hp : call.phase = .called ∧ (s.txs call.tx).busy = none
  · rw [if_pos hp] at h
    have hcr := not_created hc fun v w => by rw [hp.1]; simp
    split at h
    · next ha =>
      split at h
      · cases h
        refine ⟨(quiet_setPhase hcr ?_).setTx rfl rfl (Or.inl ha) (active_ne ha), rfl⟩
        simp
      · cases h
        exact ⟨quiet_setPhase hcr (by simp), rfl⟩
    · cases h
      exact ⟨quiet_setPhase hcr (by simp), rfl⟩
    · cases h
  · rw [if_neg hp] at h
    cases h

theorem execStep_cases {c : ℕ} {clock : ℤ} {call : Call V} (hc : s.calls c = some call)
    (h : execStep s c clock call = some s') :
    (Quiet s s' ∧ s'.rows = s.rows) ∨
    (Quiet s s' ∧ ∃ t k, Open (s.txs t) ∧ s.rows.free t k = true ∧
      s'.rows = s.rows.write t k (s.rows.view t k)) ∨
    ∃ defaultAt v rows version writtenAt,
      Wrote s s' c call clock defaultAt v rows version writtenAt := by
  unfold execStep at h
  split at h
  · next defaultAt hp =>
    simp only at h
    split_ifs at h with hx
    obtain ⟨ha, -, hf⟩ := hx
    have hcr := not_created hc fun v w => by rw [hp]; simp
    split at h
    · next rows version writtenAt v hst hv =>
      cases h
      exact Or.inr (Or.inr ⟨defaultAt, v, rows, version, writtenAt, hc, hp, ha, hf, hv, hst, rfl⟩)
    · -- no row: a guarded `UPDATE` may have locked one
      cases h
      have hq : Quiet s { (s.setPhase c call .rereading).setTx call.tx
          { s.txs call.tx with busy := none } with rows := lockSkipped s call } :=
        ((quiet_setPhase hcr (by simp)).setTx (x := { s.txs call.tx with busy := none }) rfl rfl
          (Or.inl ha) (active_ne ha)).setRows _
      unfold lockSkipped at hq ⊢
      split at hq
      · exact Or.inr (Or.inl ⟨hq, call.tx, call.key, Or.inl ha, hf, rfl⟩)
      · exact Or.inl ⟨hq, rfl⟩
    · cases h
      refine Or.inl ⟨(quiet_setPhase hcr ?_).setTx rfl rfl (Or.inr rfl) (active_ne ha), rfl⟩
      simp
    · cases h
  · cases h

theorem quiet_rereadStep {c : ℕ} {call : Call V} (hc : s.calls c = some call)
    (h : rereadStep s c call = some s') : Quiet s s' ∧ s'.rows = s.rows := by
  unfold rereadStep at h
  simp only at h
  split_ifs at h with hp hfail
  all_goals
    cases h
    refine ⟨quiet_setPhase (not_created hc fun v w => ?_) (by simp), rfl⟩
    rw [hp.1]
    simp

/-- **What a step can do**: nothing to the tables; lock a row and leave it as it is; write a
version; end a transaction. -/
theorem step_cases {e : Ev V} (h : step s e = some s') :
    (Quiet s s' ∧ s'.rows = s.rows) ∨
    (Quiet s s' ∧ ∃ t k, Open (s.txs t) ∧ s.rows.free t k = true ∧
      s'.rows = s.rows.write t k (s.rows.view t k)) ∨
    (∃ c call clock defaultAt v rows version writtenAt,
      Wrote s s' c call clock defaultAt v rows version writtenAt) ∨
    ∃ t committed, e = (if committed then .commit t else .rollback t) ∧ Ended s s' t committed := by
  cases e with
  | begin t =>
    simp only [step] at h
    split_ifs at h with hi
    cases h
    have hq : Quiet s s := ⟨rfl, fun _ => rfl, fun _ h => h, fun _ h => h, fun _ h => h,
      fun _ _ _ _ h _ => h, fun _ _ _ _ h _ => h⟩
    refine Or.inl ⟨hq.setTx rfl rfl (Or.inl rfl) ?_, rfl⟩
    rw [hi]; exact ⟨by decide, by decide⟩
  | call c t key value expected =>
    simp only [step] at h
    cases hn : s.calls c with
    | some call => rw [hn] at h; cases h
    | none =>
      rw [hn] at h
      simp only at h
      split_ifs at h with ho
      cases h
      exact Or.inl ⟨quiet_setPhase (fun call' hc => by rw [hn] at hc; cases hc)
        (fun v w => by simp), rfl⟩
  | start c clock =>
    simp only [step, Option.bind_eq_some_iff] at h
    obtain ⟨call, hc, h⟩ := h
    exact Or.inl (quiet_startStep hc h)
  | exec c clock =>
    simp only [step, Option.bind_eq_some_iff] at h
    obtain ⟨call, hc, h⟩ := h
    rcases execStep_cases hc h with h | h | ⟨defaultAt, v, rows, version, writtenAt, h⟩
    · exact Or.inl h
    · exact Or.inr (Or.inl h)
    · exact Or.inr (Or.inr (Or.inl ⟨c, call, clock, defaultAt, v, rows, version, writtenAt, h⟩))
  | reread c =>
    simp only [step, Option.bind_eq_some_iff] at h
    obtain ⟨call, hc, h⟩ := h
    exact Or.inl (quiet_rereadStep hc h)
  | commit t =>
    simp only [step] at h
    split_ifs at h with ha
    cases h
    exact Or.inr (Or.inr (Or.inr ⟨t, true, rfl, Or.inl ha.1, rfl, rfl, rfl, rfl⟩))
  | rollback t =>
    simp only [step] at h
    split_ifs at h with ha
    cases h
    exact Or.inr (Or.inr (Or.inr ⟨t, false, rfl, ha, rfl, rfl, rfl, rfl⟩))

/-! ### The invariant -/

/-- The puts on the key. -/
def putsOf (ps : List (Put V)) (k : KvKey) : List (Put V) := ps.filter fun p => decide (p.key = k)

def toWrite (p : Put V) : Write V := ⟨p.value, p.writtenAt, p.tx⟩

/-- The rows of a list of puts on one key. -/
def rowsFor (ps : List (Put V)) : KvRows V := rowsOf (ps.map toWrite)

/-- The puts on the key that the transaction sees: the committed ones, then its own. -/
def seen (s : KvState V) (t : ℕ) (k : KvKey) : List (Put V) :=
  putsOf s.log k ++ putsOf (s.txs t).puts k

/-- A list of puts on one key in which the `i`-th made version `i + 1`: later puts have later times
and other transactions, each call returned that version, and each that expected a version expected
`i`. -/
structure PutsOk (calls : ℕ → Option (Call V)) (ps : List (Put V)) : Prop where
  sorted : ps.Pairwise fun p q => p.writtenAt < q.writtenAt
  xacts : ps.Pairwise fun p q => p.tx ≠ q.tx
  expected : ∀ (i : ℕ) (p : Put V) (e : ℕ), ps[i]? = some p → p.expected = some e → e = i
  returned : ∀ (i : ℕ) (p : Put V), ps[i]? = some p →
    calls p.call = some ⟨p.tx, p.key, some p.value, p.expected, .created (i + 1) p.writtenAt⟩

/-- **The invariant.** -/
structure Inv (s : KvState V) : Prop where
  rows : ∀ k, s.rows.committed k = rowsFor (putsOf s.log k)
  ok : ∀ k, PutsOk s.calls (putsOf s.log k)
  held : ∀ k t r, s.rows.held k = some (t, r) →
    Open (s.txs t) ∧ r = rowsFor (seen s t k) ∧ PutsOk s.calls (seen s t k)
  own : ∀ t, ∀ p ∈ (s.txs t).puts, Open (s.txs t) ∧ p.tx = t ∧ ∃ r, s.rows.held p.key = some (t, r)
  logged : ∀ p ∈ s.log, (s.txs p.tx).status = .committed
  created : ∀ c call v w, s.calls c = some call → call.phase = .created v w →
    (∃ p ∈ s.log ++ (s.txs call.tx).puts, p.call = c) ∨ (s.txs call.tx).status = .rolledBack

theorem mem_putsOf {ps : List (Put V)} {k : KvKey} {p : Put V} :
    p ∈ putsOf ps k ↔ p ∈ ps ∧ p.key = k := by
  simp [putsOf]

theorem putsOf_append (ps qs : List (Put V)) (k : KvKey) :
    putsOf (ps ++ qs) k = putsOf ps k ++ putsOf qs k := by
  simp [putsOf]

theorem putsOf_eq_nil {ps : List (Put V)} {k : KvKey} (h : ∀ p ∈ ps, p.key ≠ k) :
    putsOf ps k = [] := by
  simpa [putsOf] using h

theorem PutsOk.nil (calls : ℕ → Option (Call V)) : PutsOk calls [] :=
  ⟨.nil, .nil, by simp, by simp⟩

/-- Only the calls that returned a version matter. -/
theorem PutsOk.mono {calls calls' : ℕ → Option (Call V)} {ps : List (Put V)} (h : PutsOk calls ps)
    (hk : ∀ c call v w, calls c = some call → call.phase = .created v w → calls' c = some call) :
    PutsOk calls' ps :=
  ⟨h.sorted, h.xacts, h.expected, fun i p hp => hk _ _ _ _ (h.returned i p hp) rfl⟩

theorem PutsOk.snoc {calls : ℕ → Option (Call V)} {ps : List (Put V)} {p : Put V}
    (h : PutsOk calls ps) (hs : ∀ q ∈ ps, q.writtenAt < p.writtenAt) (hx : ∀ q ∈ ps, q.tx ≠ p.tx)
    (he : ∀ e, p.expected = some e → e = ps.length)
    (hr : calls p.call =
      some ⟨p.tx, p.key, some p.value, p.expected, .created (ps.length + 1) p.writtenAt⟩) :
    PutsOk calls (ps ++ [p]) := by
  have hget : ∀ i q, (ps ++ [p])[i]? = some q → ps[i]? = some q ∨ i = ps.length ∧ q = p := by
    intro i q hq
    rcases lt_or_ge i ps.length with hi | hi
    · exact Or.inl (by rwa [List.getElem?_append_left hi] at hq)
    · rw [List.getElem?_append_right hi] at hq
      have h0 : i - ps.length = 0 := by
        by_contra hne
        rw [List.getElem?_eq_none (by simp; omega)] at hq
        cases hq
      rw [h0] at hq
      exact Or.inr ⟨by omega, by simpa using hq.symm⟩
  refine ⟨?_, ?_, fun i q e hq hqe => ?_, fun i q hq => ?_⟩
  · exact List.pairwise_append.mpr ⟨h.sorted, by simp, fun q hq q' hq' => by
      rw [List.mem_singleton.mp hq']; exact hs q hq⟩
  · exact List.pairwise_append.mpr ⟨h.xacts, by simp, fun q hq q' hq' => by
      rw [List.mem_singleton.mp hq']; exact hx q hq⟩
  · rcases hget i q hq with hq | ⟨rfl, rfl⟩
    · exact h.expected i q e hq hqe
    · exact he e hqe
  · rcases hget i q hq with hq | ⟨rfl, rfl⟩
    · exact h.returned i q hq
    · exact hr

theorem rowsFor_snoc (ps : List (Put V)) (p : Put V) :
    rowsFor (ps ++ [p]) = addVersion (rowsFor ps) (toWrite p) := by
  simp [rowsFor, rowsOf_snoc]

theorem currentVersion_rowsFor (ps : List (Put V)) : currentVersion (rowsFor ps) = ps.length := by
  simp [rowsFor, currentVersion_rowsOf]

/-- The last put is the row of `kv_current`. -/
theorem rowsFor_last {ps : List (Put V)} {p : Put V} (h : ps.getLast? = some p) :
    (rowsFor ps).current = some ⟨p.value, ps.length, p.writtenAt, p.tx⟩ := by
  rw [rowsFor, rowsOf_current, List.getLast?_map, h]
  simp [toWrite]

/-- In a list of puts with increasing times, no time is after the last. -/
theorem PutsOk.le_last {calls : ℕ → Option (Call V)} {ps : List (Put V)} {p q : Put V}
    (h : PutsOk calls ps) (hl : ps.getLast? = some p) (hq : q ∈ ps) :
    q.writtenAt ≤ p.writtenAt := by
  obtain ⟨qs, rfl⟩ := List.getLast?_eq_some_iff.mp hl
  rcases List.mem_append.mp hq with hq | hq
  · have hlt := (List.pairwise_append.mp h.sorted).2.2 q hq p (by simp)
    omega
  · have he : q = p := List.mem_singleton.mp hq
    subst he
    omega

/-! ### Every step keeps it -/

theorem inv_init : Inv (KvState.init : KvState V) := by
  refine ⟨fun k => rfl, fun k => PutsOk.nil _, fun k t r h => ?_, fun t p hp => ?_, fun p hp => ?_,
    fun c call v w h => ?_⟩
  · simp [KvState.init, Table.fresh] at h
  · simp [KvState.init, Tx.idle] at hp
  · simp [KvState.init] at hp
  · simp [KvState.init] at h

/-- A transaction that holds no lock on the key has no put on it. -/
theorem Inv.own_nil (hI : Inv s) {t : ℕ} {k : KvKey} (h : ∀ r, s.rows.held k ≠ some (t, r)) :
    putsOf (s.txs t).puts k = [] := by
  refine putsOf_eq_nil fun p hp hk => ?_
  obtain ⟨-, -, r, hr⟩ := hI.own t p hp
  exact h r (hk ▸ hr)

/-- What a transaction sees of a key: the rows of the puts it sees. -/
theorem Inv.view (hI : Inv s) (t : ℕ) (k : KvKey) :
    s.rows.view t k = rowsFor (seen s t k) ∧ PutsOk s.calls (seen s t k) := by
  by_cases h : ∃ r, s.rows.held k = some (t, r)
  · obtain ⟨r, hr⟩ := h
    obtain ⟨-, h1, h2⟩ := hI.held k t r hr
    exact ⟨by rw [Table.view_of_held hr, h1], h2⟩
  · have hn : ∀ r, s.rows.held k ≠ some (t, r) := fun r hr => h ⟨r, hr⟩
    rw [seen, hI.own_nil hn, List.append_nil, Table.view_eq_committed hn]
    exact ⟨hI.rows k, hI.ok k⟩

theorem Quiet.seen (hq : Quiet s s') (t : ℕ) (k : KvKey) :
    Invariant.seen s' t k = Invariant.seen s t k := by
  simp [Invariant.seen, hq.log, hq.puts]

/-- A quiet step keeps the invariant if the rows it holds afterwards are right. -/
theorem Inv.quiet (hI : Inv s) (hq : Quiet s s') (hc : s'.rows.committed = s.rows.committed)
    (hh : ∀ k t r, s'.rows.held k = some (t, r) → s.rows.held k = some (t, r) ∨
      Open (s.txs t) ∧ r = s.rows.view t k)
    (hk : ∀ k t r, s.rows.held k = some (t, r) → ∃ r', s'.rows.held k = some (t, r')) :
    Inv s' := by
  refine ⟨fun k => ?_, fun k => ?_, fun k t r hr => ?_, fun t p hp => ?_, fun p hp => ?_,
    fun c call v w hcall hph => ?_⟩
  · rw [hc, hq.log]; exact hI.rows k
  · rw [hq.log]; exact (hI.ok k).mono hq.kept
  · rw [hq.seen t k]
    rcases hh k t r hr with hr | ⟨ho, rfl⟩
    · obtain ⟨h1, h2, h3⟩ := hI.held k t r hr
      exact ⟨hq.opened t h1, h2, h3.mono hq.kept⟩
    · obtain ⟨h2, h3⟩ := hI.view t k
      exact ⟨hq.opened t ho, h2, h3.mono hq.kept⟩
  · rw [hq.puts] at hp
    obtain ⟨h1, h2, r, h3⟩ := hI.own t p hp
    exact ⟨hq.opened t h1, h2, hk _ _ _ h3⟩
  · rw [hq.log] at hp
    exact hq.committed _ (hI.logged p hp)
  · rw [hq.log, hq.puts]
    rcases hI.created c call v w (hq.back c call v w hcall hph) hph with h | h
    · exact Or.inl h
    · exact Or.inr (hq.rolledBack _ h)

/-- A put that goes through the check of the trigger is later than all puts its transaction sees,
and none of these is its own. -/
theorem Inv.seen_lt (hI : Inv s) {t : ℕ} {k : KvKey} {writtenAt : ℤ}
    (ha : (s.txs t).status = .active)
    (hold : ∀ old, (rowsFor (seen s t k)).current = some old →
      old.updatedXact ≠ t ∧ old.updatedAt < writtenAt) :
    ∀ q ∈ seen s t k, q.writtenAt < writtenAt ∧ q.tx ≠ t := by
  intro q hq
  obtain ⟨l, hl⟩ : ∃ l, (seen s t k).getLast? = some l := by
    rcases List.eq_nil_or_concat (seen s t k) with h0 | ⟨qs, l, h0⟩
    · rw [h0] at hq
      simp at hq
    · exact ⟨l, by rw [h0]; simp⟩
  obtain ⟨hx, hts⟩ := hold _ (rowsFor_last hl)
  have hle := (hI.view t k).2.le_last hl hq
  refine ⟨by simp only at hts; omega, fun hqt => ?_⟩
  rcases List.mem_append.mp hq with hq | hq
  · have hcommitted := hI.logged q (mem_putsOf.mp hq).1
    rw [hqt, ha] at hcommitted
    cases hcommitted
  · -- an own put on the key would be the last one the transaction sees
    have hlast : (putsOf (s.txs t).puts k).getLast? = some l := by
      rw [seen, List.getLast?_append] at hl
      rcases h2 : (putsOf (s.txs t).puts k).getLast? with _ | l'
      · rw [List.getLast?_eq_none_iff.mp h2] at hq
        simp at hq
      · rw [h2] at hl
        simpa using hl
    have hmem := (mem_putsOf.mp (List.mem_of_getLast? hlast)).1
    exact hx (hI.own t l hmem).2.1

section Wrote

variable {c : ℕ} {call : Call V} {clock defaultAt : ℤ} {v : V} {rows : KvRows V} {version : ℕ}
  {writtenAt : ℤ}

/-- The put that the call makes. -/
def newPut (c : ℕ) (call : Call V) (v : V) (writtenAt : ℤ) : Put V :=
  ⟨c, call.tx, call.key, v, call.expected, writtenAt⟩

/-- The calls that had returned a version have not moved. -/
theorem Wrote.kept (hw : Wrote s s' c call clock defaultAt v rows version writtenAt) :
    ∀ c' call' v w, s.calls c' = some call' → call'.phase = .created v w →
      s'.calls c' = some call' := by
  intro c' call' v w h hph
  have hne : c' ≠ c := by
    rintro rfl
    rw [hw.calls, Option.some.injEq] at h
    subst h
    rw [hw.phase] at hph
    cases hph
  rw [hw.after]
  simpa [KvState.setPhase, KvState.setTx, hne] using h

theorem Wrote.txs_self (hw : Wrote s s' c call clock defaultAt v rows version writtenAt) :
    s'.txs call.tx = { s.txs call.tx with
      busy := none, puts := (s.txs call.tx).puts ++ [newPut c call v writtenAt] } := by
  rw [hw.after]
  simp [KvState.setTx, newPut]

theorem Wrote.txs_of_ne (hw : Wrote s s' c call clock defaultAt v rows version writtenAt) {t : ℕ}
    (ht : t ≠ call.tx) : s'.txs t = s.txs t := by
  rw [hw.after]
  simp [KvState.setTx, KvState.setPhase, ht]

theorem Wrote.log (hw : Wrote s s' c call clock defaultAt v rows version writtenAt) :
    s'.log = s.log := by
  rw [hw.after]
  rfl

/-- The new put goes to the end of those the transaction sees of the key. -/
theorem Wrote.seen_key (hw : Wrote s s' c call clock defaultAt v rows version writtenAt) :
    seen s' call.tx call.key = seen s call.tx call.key ++ [newPut c call v writtenAt] := by
  unfold seen
  rw [hw.log, hw.txs_self, putsOf_append, ← List.append_assoc]
  simp [putsOf, newPut]

theorem Wrote.seen_of_ne (hw : Wrote s s' c call clock defaultAt v rows version writtenAt) {t : ℕ}
    {k : KvKey} (hk : k ≠ call.key) : seen s' t k = seen s t k := by
  unfold seen
  rw [hw.log]
  by_cases ht : t = call.tx
  · subst ht
    rw [hw.txs_self, putsOf_append]
    simp [putsOf, newPut, Ne.symm hk]
  · rw [hw.txs_of_ne ht]

theorem Wrote.held_key (hw : Wrote s s' c call clock defaultAt v rows version writtenAt) :
    s'.rows.held call.key = some (call.tx, rows) := by
  rw [hw.after]
  exact Table.write_held_self _ _ _ _

theorem Wrote.held_of_ne (hw : Wrote s s' c call clock defaultAt v rows version writtenAt)
    {k : KvKey} (hk : k ≠ call.key) : s'.rows.held k = s.rows.held k := by
  rw [hw.after]
  exact Table.write_held_ne _ _ _ hk

/-- The row the statement leaves is that of the puts the transaction then sees. -/
theorem Inv.wrote_key (hI : Inv s)
    (hw : Wrote s s' c call clock defaultAt v rows version writtenAt) :
    rows = rowsFor (seen s' call.tx call.key) ∧ PutsOk s'.calls (seen s' call.tx call.key) := by
  obtain ⟨v', hv', hrows, hver, hexp, hold⟩ := putRow_wrote hw.stmt
  rw [hw.value, Option.some.injEq] at hv'
  subst hv'
  obtain ⟨hview, hok⟩ := hI.view call.tx call.key
  rw [hview] at hrows hver hexp hold
  rw [currentVersion_rowsFor] at hver hexp
  have hlt := hI.seen_lt hw.active hold
  rw [hw.seen_key]
  constructor
  · rw [rowsFor_snoc, hrows]
    rfl
  · refine (hok.mono hw.kept).snoc (fun q hq => (hlt q hq).1) (fun q hq => (hlt q hq).2) hexp ?_
    rw [hw.after]
    simp [KvState.setPhase, KvState.setTx, newPut, hver, hw.value]

/-- A row of another transaction is not the one that is written. -/
theorem Wrote.ne_key (hw : Wrote s s' c call clock defaultAt v rows version writtenAt) {t : ℕ}
    {k : KvKey} {r : KvRows V} (ht : t ≠ call.tx) (hr : s.rows.held k = some (t, r)) :
    k ≠ call.key := by
  rintro rfl
  rcases Table.free_iff.mp hw.free with h | ⟨r', h⟩
  · rw [h] at hr
    cases hr
  · rw [h] at hr
    cases hr
    exact ht rfl

theorem Inv.wrote (hI : Inv s)
    (hw : Wrote s s' c call clock defaultAt v rows version writtenAt) : Inv s' := by
  have ha := hw.active
  have hopen : ∀ t, Open (s.txs t) → Open (s'.txs t) := by
    intro t ho
    by_cases ht : t = call.tx
    · subst ht
      rw [hw.txs_self]
      exact Or.inl ha
    · rw [hw.txs_of_ne ht]
      exact ho
  have hstatus : ∀ t, (s'.txs t).status = (s.txs t).status := by
    intro t
    by_cases ht : t = call.tx
    · subst ht
      rw [hw.txs_self]
    · rw [hw.txs_of_ne ht]
  have hputs : ∀ t, (s.txs t).puts ⊆ (s'.txs t).puts := by
    intro t
    by_cases ht : t = call.tx
    · subst ht
      rw [hw.txs_self]
      exact List.subset_append_left _ _
    · rw [hw.txs_of_ne ht]
      exact List.Subset.refl _
  refine ⟨fun k => ?_, fun k => ?_, fun k t r hr => ?_, fun t q hq => ?_, fun q hq => ?_,
    fun c' call' v' w' hcall hph => ?_⟩
  · rw [hw.log, hw.after]
    exact hI.rows k
  · rw [hw.log]
    exact (hI.ok k).mono hw.kept
  · by_cases hk : k = call.key
    · subst hk
      rw [hw.held_key] at hr
      cases hr
      exact ⟨hopen _ (Or.inl ha), hI.wrote_key hw⟩
    · rw [hw.held_of_ne hk] at hr
      obtain ⟨h1, h2, h3⟩ := hI.held k t r hr
      rw [hw.seen_of_ne hk]
      exact ⟨hopen t h1, h2, h3.mono hw.kept⟩
  · by_cases ht : t = call.tx
    · subst ht
      refine ⟨hopen _ (Or.inl ha), ?_⟩
      rw [hw.txs_self, List.mem_append, List.mem_singleton] at hq
      rcases hq with hq | rfl
      · obtain ⟨-, h2, r, h3⟩ := hI.own call.tx q hq
        refine ⟨h2, ?_⟩
        by_cases hk : q.key = call.key
        · exact ⟨rows, by rw [hk]; exact hw.held_key⟩
        · exact ⟨r, by rw [hw.held_of_ne hk]; exact h3⟩
      · exact ⟨rfl, rows, hw.held_key⟩
    · rw [hw.txs_of_ne ht] at hq
      obtain ⟨h1, h2, r, h3⟩ := hI.own t q hq
      exact ⟨hopen t h1, h2, r, by rw [hw.held_of_ne (hw.ne_key ht h3)]; exact h3⟩
  · rw [hw.log] at hq
    rw [hstatus]
    exact hI.logged q hq
  · by_cases hcc : c' = c
    · subst hcc
      rw [hw.after] at hcall
      simp only [KvState.setTx, KvState.setPhase, Function.update_self, Option.some.injEq] at hcall
      subst hcall
      refine Or.inl ⟨newPut c' call v writtenAt, List.mem_append_right _ ?_, rfl⟩
      rw [hw.txs_self]
      exact List.mem_append_right _ (List.mem_singleton.mpr rfl)
    · rw [hw.after] at hcall
      simp only [KvState.setTx, KvState.setPhase, Function.update_of_ne hcc] at hcall
      rw [hw.log, hstatus]
      rcases hI.created c' call' v' w' hcall hph with ⟨q, hq, hqc⟩ | h
      · refine Or.inl ⟨q, ?_, hqc⟩
        rcases List.mem_append.mp hq with hq | hq
        · exact List.mem_append_left _ hq
        · exact List.mem_append_right _ (hputs _ hq)
      · exact Or.inr h

end Wrote

section Ended

variable {t : ℕ} {b : Bool}

theorem Ended.txs_of_ne (he : Ended s s' t b) {t' : ℕ} (hne : t' ≠ t) : s'.txs t' = s.txs t' := by
  rw [he.txs, Function.update_of_ne hne]

/-- A transaction that had ended before is another one. -/
theorem Ended.ne (he : Ended s s' t b) {t' : ℕ}
    (h : (s.txs t').status = .committed ∨ (s.txs t').status = .rolledBack) : t' ≠ t := by
  rintro rfl
  rcases he.opened with ho | ho <;> rcases h with h | h <;> rw [ho] at h <;> cases h

theorem Ended.held_iff (he : Ended s s' t b) {k : KvKey} {t' : ℕ} {r : KvRows V} :
    s'.rows.held k = some (t', r) ↔ s.rows.held k = some (t', r) ∧ t' ≠ t := by
  rw [he.rows]
  cases b <;> exact Table.unlock_eq_some

/-- The log of a key grows by the puts of the transaction, or not at all. -/
theorem Ended.putsOf_log (he : Ended s s' t b) (k : KvKey) :
    putsOf s'.log k = if b then seen s t k else putsOf s.log k := by
  rw [he.log]
  cases b
  · rfl
  · simp [seen, putsOf_append]

/-- The end of a transaction is nothing to the rows that others hold. -/
theorem Inv.ended_seen (hI : Inv s) (he : Ended s s' t b) {k : KvKey} {t' : ℕ} {r : KvRows V}
    (hr : s.rows.held k = some (t', r)) (hne : t' ≠ t) : seen s' t' k = seen s t' k := by
  have h0 : putsOf (s.txs t).puts k = [] := by
    refine hI.own_nil fun r' hr' => ?_
    rw [hr] at hr'
    cases hr'
    exact hne rfl
  have hlog : putsOf s'.log k = putsOf s.log k := by
    rw [he.putsOf_log, seen, h0, List.append_nil]
    simp
  rw [seen, hlog, he.txs_of_ne hne, seen]

theorem Inv.ended_logged (hI : Inv s) (he : Ended s s' t b) :
    ∀ p ∈ s'.log, (s'.txs p.tx).status = .committed := by
  have hold : ∀ p ∈ s.log, (s'.txs p.tx).status = .committed := by
    intro p hp
    have hst := hI.logged p hp
    rw [he.txs_of_ne (he.ne (Or.inl hst))]
    exact hst
  intro p hp
  rw [he.log] at hp
  cases b
  · exact hold p hp
  · rcases List.mem_append.mp hp with hp | hp
    · exact hold p hp
    · rw [(hI.own t p hp).2.1, he.txs, Function.update_self]
      rfl

theorem Inv.ended_created (hI : Inv s) (he : Ended s s' t b) {c : ℕ} {call : Call V} {v : ℕ}
    {w : ℤ} (hcall : s.calls c = some call) (hph : call.phase = .created v w) :
    (∃ p ∈ s'.log ++ (s'.txs call.tx).puts, p.call = c) ∨
      (s'.txs call.tx).status = .rolledBack := by
  rcases hI.created c call v w hcall hph with ⟨p, hp, hpc⟩ | h
  · by_cases hne : call.tx = t
    · -- a put of the transaction itself is committed with it or rolled back with it
      cases b
      · refine Or.inr ?_
        rw [hne, he.txs, Function.update_self]
        rfl
      · refine Or.inl ⟨p, List.mem_append_left _ ?_, hpc⟩
        rw [he.log, ← hne]
        exact hp
    · refine Or.inl ⟨p, ?_, hpc⟩
      rw [he.txs_of_ne hne, he.log]
      rcases List.mem_append.mp hp with hp | hp
      · refine List.mem_append_left _ ?_
        cases b
        · exact hp
        · exact List.mem_append_left _ hp
      · exact List.mem_append_right _ hp
  · refine Or.inr ?_
    rw [he.txs_of_ne (he.ne (Or.inr h))]
    exact h

theorem Inv.ended (hI : Inv s) (he : Ended s s' t b) : Inv s' := by
  refine ⟨fun k => ?_, fun k => ?_, fun k t' r hr => ?_, fun t' p hp => ?_, hI.ended_logged he,
    fun c call v w hcall hph => ?_⟩
  · rw [he.putsOf_log, he.rows]
    cases b
    · exact hI.rows k
    · exact (hI.view t k).1
  · rw [he.putsOf_log, he.calls]
    cases b
    · exact hI.ok k
    · exact (hI.view t k).2
  · obtain ⟨hr, hne⟩ := he.held_iff.mp hr
    rw [hI.ended_seen he hr hne, he.txs_of_ne hne, he.calls]
    exact hI.held k t' r hr
  · by_cases hne : t' = t
    · subst hne
      rw [he.txs, Function.update_self] at hp
      cases hp
    · rw [he.txs_of_ne hne] at hp ⊢
      obtain ⟨h1, h2, r, h3⟩ := hI.own t' p hp
      exact ⟨h1, h2, r, he.held_iff.mpr ⟨h3, hne⟩⟩
  · rw [he.calls] at hcall
    exact hI.ended_created he hcall hph

end Ended

/-- One step keeps the invariant. -/
theorem inv_step {e : Ev V} (hI : Inv s) (h : step s e = some s') : Inv s' := by
  rcases step_cases h with ⟨hq, hr⟩ | ⟨hq, t, k, ho, hf, hr⟩ |
    ⟨c, call, clock, at', v, rows, n, w, hw⟩ | ⟨t, b, -, he⟩
  · exact hI.quiet hq (by rw [hr]) (fun k t r h => Or.inl (hr ▸ h)) fun k t r h => ⟨r, hr ▸ h⟩
  · -- a row that is only locked is held with the version it had
    refine hI.quiet hq (by rw [hr]; rfl) (fun k' t' r h => ?_) fun k' t' r h => ?_
    · rw [hr] at h
      by_cases hk : k' = k
      · subst hk
        rw [Table.write_held_self] at h
        cases h
        exact Or.inr ⟨ho, rfl⟩
      · rw [Table.write_held_ne _ _ _ hk] at h
        exact Or.inl h
    · rw [hr]
      by_cases hk : k' = k
      · subst hk
        rcases Table.free_iff.mp hf with h' | ⟨r', h'⟩
        · rw [h'] at h; cases h
        · rw [h'] at h; cases h
          exact ⟨_, Table.write_held_self _ _ _ _⟩
      · exact ⟨r, by rw [Table.write_held_ne _ _ _ hk]; exact h⟩
  · exact hI.wrote hw
  · exact hI.ended he

/-- **The invariant holds in every reachable state.** -/
theorem inv_reachable (h : Reachable s) : Inv s :=
  h.inv inv_init fun _ _ _ => inv_step

end UmbraDB.Kv.Invariant
