import UmbraDB.Kv.History

/-! # Temporal key-value store: compare-and-set is linearizable

The order of the puts of a key is the order of `log`, that of the commits. `Invariant` says that
the `i`-th put of this order made version `i + 1` and that it expected version `i`, if any. Here are
the two facts about calls that do not show in the tables: what a call returned that is not yet, or
never, committed (`CasOk`), and that a call which threw `VersionConflictError` had, at some moment
while it ran, a visible version other than the one it expected (`conflict_moment`). -/

namespace UmbraDB.Kv.Linear

open UmbraDB.Lib.RowStore UmbraDB.Lib.Runs
open UmbraDB.Kv.Rows UmbraDB.Kv.Replay UmbraDB.Kv.System UmbraDB.Kv.Invariant UmbraDB.Kv.History

variable {V : Type} {s s' : KvState V}

/-- The call was made and has not returned. -/
def InFlight (p : Phase) : Prop := p = .called ∨ (∃ t, p = .executing t) ∨ p = .rereading

/-- A put that returned a version and expected one returned the next. -/
def CasOk (s : KvState V) : Prop :=
  ∀ c call v w e, s.calls c = some call → call.phase = .created v w → call.expected = some e →
    v = e + 1

theorem casOk_step {ev : Ev V} (hI : CasOk s) (h : step s ev = some s') : CasOk s' := by
  intro c call v w e hc hp he
  rcases step_cases h with ⟨hq, -⟩ | ⟨hq, -⟩ | ⟨c', call', _, _, _, _, n, w', hw⟩ | ⟨t, b, -, hend⟩
  · exact hI c call v w e (hq.back c call v w hc hp) hp he
  · exact hI c call v w e (hq.back c call v w hc hp) hp he
  · obtain ⟨_, _, _, hver, hexp, _⟩ := putRow_wrote hw.stmt
    rw [hw.after] at hc
    simp only [KvState.setTx, KvState.setPhase] at hc
    by_cases hcc : c = c'
    · subst hcc
      simp only [Function.update_self, Option.some.injEq] at hc
      subst hc
      cases hp
      rw [hver, ← hexp e he]
    · rw [Function.update_of_ne hcc] at hc
      exact hI c call v w e hc hp he
  · rw [hend.calls] at hc
    exact hI c call v w e hc hp he

theorem casOk_reachable (h : Reachable s) : CasOk s :=
  h.inv (fun c call v w e hc => by simp [KvState.init] at hc) fun _ _ _ => casOk_step

/-! ### The moment of a conflict -/

/-- The versions in `kv_current` are positive. -/
theorem version_pos (hI : Inv s) {t : ℕ} {k : KvKey} {old : KvCurrent V}
    (h : (s.rows.view t k).current = some old) : 0 < old.version := by
  rw [(hI.view t k).1, rowsFor, rowsOf_current] at h
  obtain ⟨w, hw, rfl⟩ := Option.map_eq_some_iff.mp h
  exact List.length_pos_of_mem (List.mem_of_getLast? hw)

theorem inSnapshot_false {expected : Option ℕ} {rows : KvRows V}
    (h : inSnapshot expected rows = false) :
    ∃ e, expected = some e ∧ currentVersion rows ≠ e := by
  unfold inSnapshot at h
  split at h
  · next e =>
    refine ⟨e + 1, rfl, ?_⟩
    unfold versionMatches at h
    unfold currentVersion
    rcases hc : rows.current with _ | old
    · simp
    · rw [hc] at h
      simpa using h
  · cases h

/-- The run passed a state in which the call was running and did not see the version `e`. -/
def Mismatch (es : List (Ev V)) (c t : ℕ) (k : KvKey) (e : ℕ) : Prop :=
  ∃ es₁ es₂ s₁ call₁, es = es₁ ++ es₂ ∧ run step es₁ KvState.init = some s₁ ∧
    s₁.calls c = some call₁ ∧ InFlight call₁.phase ∧ s₁.visibleVersion t k ≠ e

theorem Mismatch.snoc {es : List (Ev V)} {c t : ℕ} {k : KvKey} {e : ℕ} (h : Mismatch es c t k e)
    (ev : Ev V) : Mismatch (es ++ [ev]) c t k e := by
  obtain ⟨es₁, es₂, s₁, call₁, rfl, h⟩ := h
  exact ⟨es₁, es₂ ++ [ev], s₁, call₁, by simp, h⟩

theorem setPhase_calls {c c' : ℕ} {call call' : Call V} {p : Phase}
    (h : (s.setPhase c call p).calls c' = some call') :
    s.calls c' = some call' ∨ c' = c ∧ call' = { call with phase := p } := by
  by_cases hc : c' = c
  · subst hc
    simp only [KvState.setPhase, Function.update_self, Option.some.injEq] at h
    exact Or.inr ⟨rfl, h.symm⟩
  · simp only [KvState.setPhase, Function.update_of_ne hc] at h
    exact Or.inl h

/-- The call moves on to the phase `p`; what it means that it touched no row, and when it throws. -/
structure Moved (s : KvState V) (call : Call V) (p : Phase) : Prop where
  inFlight : InFlight call.phase
  refused : p = .rereading → inSnapshot call.expected (s.rows.view call.tx call.key) = false ∨
    ∃ defaultAt clock, putRow call.tx defaultAt clock call.expected call.value
      (s.rows.view call.tx call.key) = .noRows
  once : p = .rereading → call.phase ≠ .rereading
  thrown : ∀ e a, p = .conflict e a → call.phase = .rereading ∧ e = call.expected.getD 0 ∧
    a = (s.rows.view call.tx call.key).current.map (·.version)

theorem startStep_moved {c : ℕ} {clock : ℤ} {call : Call V}
    (h : startStep s c clock call = some s') :
    ∃ p, s'.calls = (s.setPhase c call p).calls ∧ Moved s call p := by
  simp only [startStep] at h
  by_cases hp : call.phase = .called ∧ (s.txs call.tx).busy = none
  · rw [if_pos hp] at h
    have hfl : InFlight call.phase := Or.inl hp.1
    split at h
    · by_cases hs : inSnapshot call.expected (s.rows.view call.tx call.key) = true
      · rw [if_pos hs] at h
        cases h
        exact ⟨_, rfl, hfl, by simp, by simp, by simp⟩
      · rw [if_neg hs] at h
        cases h
        exact ⟨_, rfl, hfl, fun _ => Or.inl (by simpa using hs), by simp [hp.1], by simp⟩
    · cases h
      exact ⟨_, rfl, hfl, by simp, by simp, by simp⟩
    · cases h
  · rw [if_neg hp] at h
    cases h

theorem execStep_moved {c : ℕ} {clock : ℤ} {call : Call V}
    (h : execStep s c clock call = some s') :
    ∃ p, s'.calls = (s.setPhase c call p).calls ∧ Moved s call p := by
  unfold execStep at h
  split at h
  · next defaultAt hp =>
    have hfl : InFlight call.phase := Or.inr (Or.inl ⟨defaultAt, hp⟩)
    simp only at h
    split_ifs at h
    split at h
    · cases h
      exact ⟨_, rfl, hfl, by simp, by simp, by simp⟩
    · next hst =>
      cases h
      exact ⟨_, rfl, hfl, fun _ => Or.inr ⟨defaultAt, clock, hst⟩, by simp [hp], by simp⟩
    · cases h
      exact ⟨_, rfl, hfl, by simp, by simp, by simp⟩
    · cases h
  · cases h

theorem rereadStep_moved {c : ℕ} {call : Call V} (h : rereadStep s c call = some s') :
    ∃ p, s'.calls = (s.setPhase c call p).calls ∧ Moved s call p := by
  unfold rereadStep at h
  simp only at h
  split_ifs at h with hp hfail
  · cases h
    exact ⟨_, rfl, Or.inr (Or.inr hp.1), by simp, by simp, by simp⟩
  · cases h
    refine ⟨_, rfl, Or.inr (Or.inr hp.1), by simp, by simp, fun e a he => ?_⟩
    cases he
    exact ⟨hp.1, rfl, rfl⟩

/-- What a step does to the calls: it makes a new one, or moves one on. -/
theorem call_step {ev : Ev V} {c : ℕ} {call' : Call V} (h : step s ev = some s')
    (hc : s'.calls c = some call') :
    s.calls c = some call' ∨ call'.phase = .called ∨
      ∃ call p, s.calls c = some call ∧ call' = { call with phase := p } ∧ Moved s call p := by
  -- a call is updated by `setPhase` only, after which the other fields are as before
  have hmove : ∀ {c₀ call}, s.calls c₀ = some call →
      (∃ p, s'.calls = (s.setPhase c₀ call p).calls ∧ Moved s call p) →
      s.calls c = some call' ∨ call'.phase = .called ∨
        ∃ call p, s.calls c = some call ∧ call' = { call with phase := p } ∧ Moved s call p := by
    rintro c₀ call h₀ ⟨p, hcalls, hm⟩
    rw [hcalls] at hc
    rcases setPhase_calls hc with h' | ⟨rfl, rfl⟩
    · exact Or.inl h'
    · exact Or.inr (Or.inr ⟨call, p, h₀, rfl, hm⟩)
  cases ev with
  | begin t =>
    simp only [step] at h
    split_ifs at h
    cases h
    exact Or.inl hc
  | call c₀ t key value expected =>
    simp only [step] at h
    split at h
    · split_ifs at h
      cases h
      rcases setPhase_calls hc with h' | ⟨-, rfl⟩
      · exact Or.inl h'
      · exact Or.inr (Or.inl rfl)
    · cases h
  | start c₀ clock =>
    simp only [step, Option.bind_eq_some_iff] at h
    obtain ⟨call, h₀, h⟩ := h
    exact hmove h₀ (startStep_moved h)
  | exec c₀ clock =>
    simp only [step, Option.bind_eq_some_iff] at h
    obtain ⟨call, h₀, h⟩ := h
    exact hmove h₀ (execStep_moved h)
  | reread c₀ =>
    simp only [step, Option.bind_eq_some_iff] at h
    obtain ⟨call, h₀, h⟩ := h
    exact hmove h₀ (rereadStep_moved h)
  | commit t =>
    simp only [step] at h
    split_ifs at h
    cases h
    exact Or.inl hc
  | rollback t =>
    simp only [step] at h
    split_ifs at h
    cases h
    exact Or.inl hc

/-- A call whose statement touched no row did not see the version it expected. -/
theorem Moved.mismatch {call : Call V} (hm : Moved s call .rereading) (hI : Inv s) :
    ∃ e, call.expected = some e ∧ s.visibleVersion call.tx call.key ≠ e := by
  rcases hm.refused rfl with h | ⟨defaultAt, clock, h⟩
  · exact inSnapshot_false h
  · exact putRow_noRows (fun old ho => version_pos hI ho) h

/-- The calls that touched no row, thrown or not: each expected a version, and the run passed a
state where it did not see it. -/
def RefusedOk (es : List (Ev V)) (s : KvState V) : Prop :=
  ∀ c call, s.calls c = some call →
    (call.phase = .rereading → ∃ e, call.expected = some e ∧ Mismatch es c call.tx call.key e) ∧
    ∀ e a, call.phase = .conflict e a →
      call.expected = some e ∧ Mismatch es c call.tx call.key e

theorem refusedOk_step {es : List (Ev V)} {ev : Ev V} (hrun : run step es KvState.init = some s)
    (hI : RefusedOk es s) (h : step s ev = some s') : RefusedOk (es ++ [ev]) s' := by
  intro c call' hc
  rcases call_step h hc with h' | hp | ⟨call, p, h₀, rfl, hm⟩
  · obtain ⟨h1, h2⟩ := hI c call' h'
    refine ⟨fun hp => ?_, fun e a hp => ?_⟩
    · obtain ⟨e, he, hmis⟩ := h1 hp
      exact ⟨e, he, hmis.snoc ev⟩
    · obtain ⟨he, hmis⟩ := h2 e a hp
      exact ⟨he, hmis.snoc ev⟩
  · rw [hp]
    simp
  · refine ⟨fun hp => ?_, fun e a hp => ?_⟩
    · -- the state before this step is the moment
      cases hp
      obtain ⟨e, he, hne⟩ := hm.mismatch (inv_reachable ⟨es, hrun⟩)
      exact ⟨e, he, es, [ev], s, call, rfl, hrun, h₀, hm.inFlight, hne⟩
    · obtain ⟨hph, rfl, -⟩ := hm.thrown e a hp
      obtain ⟨e', he, hmis⟩ := (hI c call h₀).1 hph
      simp only [he, Option.getD_some]
      exact ⟨trivial, hmis.snoc ev⟩

theorem refusedOk_run : ∀ (es : List (Ev V)) (s : KvState V),
    run step es KvState.init = some s → RefusedOk es s := by
  intro es
  induction es using List.reverseRecOn with
  | nil =>
    intro s h c call hc
    cases h
    simp [KvState.init] at hc
  | append_singleton es ev ih =>
    intro s h
    obtain ⟨s₁, h₁, h₂⟩ := run_snoc.mp h
    exact refusedOk_step h₁ (ih s₁ h₁) h₂

/-! ### The order of the puts -/

/-- A call is in the log if and only if it returned a version and its transaction committed. -/
theorem mem_log_iff (hI : Inv s) (c : ℕ) :
    (∃ p ∈ s.log, p.call = c) ↔ ∃ call v w, s.calls c = some call ∧
      call.phase = .created v w ∧ (s.txs call.tx).status = .committed := by
  constructor
  · rintro ⟨p, hp, rfl⟩
    obtain ⟨v, hv⟩ := logged_created hI hp
    exact ⟨_, v, p.writtenAt, hv, rfl, hI.logged p hp⟩
  · rintro ⟨call, v, w, hc, hp, hst⟩
    rcases hI.created c call v w hc hp with ⟨p, hmem, hpc⟩ | hr
    · rcases List.mem_append.mp hmem with hmem | hmem
      · exact ⟨p, hmem, hpc⟩
      · rcases (hI.own _ p hmem).1 with ho | ho <;> rw [hst] at ho <;> cases ho
    · rw [hst] at hr
      cases hr

/-- **Compare-and-set puts are linearizable.** After any run: the log holds the puts that returned a
version in a committed transaction, and extends the log of every earlier state; per key, the `i`-th
of them returned version `i + 1` and, if it expected a version, expected `i`, so no two of them
expected the same one; the tables are what these puts make in this order; a put that expected `e`
and returned a version, committed or not, returned `e + 1`; and a put that threw
`VersionConflictError` ran in some state of the run in which the version its transaction saw was not
`e`. -/
theorem puts_linearizable {es : List (Ev V)} (h : run step es KvState.init = some s) :
    (∀ c, (∃ p ∈ s.log, p.call = c) ↔ ∃ call v w, s.calls c = some call ∧
      call.phase = .created v w ∧ (s.txs call.tx).status = .committed) ∧
    (∀ es₁ es₂ s₁, es = es₁ ++ es₂ → run step es₁ KvState.init = some s₁ → s₁.log <+: s.log) ∧
    (∀ (k : KvKey) (i : ℕ) (p : Put V), (putsOf s.log k)[i]? = some p →
      s.calls p.call =
        some ⟨p.tx, k, some p.value, p.expected, .created (i + 1) p.writtenAt⟩ ∧
      ∀ e, p.expected = some e → e = i) ∧
    (∀ (k : KvKey) (i j : ℕ) (p q : Put V) (e : ℕ), (putsOf s.log k)[i]? = some p →
      (putsOf s.log k)[j]? = some q → p.expected = some e → q.expected = some e → i = j) ∧
    (∀ k, s.rows.committed k = rowsFor (putsOf s.log k)) ∧
    (∀ c call v w e, s.calls c = some call → call.phase = .created v w →
      call.expected = some e → v = e + 1) ∧
    ∀ c call e a, s.calls c = some call → call.phase = .conflict e a →
      call.expected = some e ∧ Mismatch es c call.tx call.key e := by
  have hI := inv_reachable ⟨es, h⟩
  refine ⟨mem_log_iff hI, fun es₁ es₂ s₁ hes h₁ => ?_, fun k i p hp => ?_,
    fun k i j p q e hp hq hpe hqe => ?_, hI.rows, casOk_reachable ⟨es, h⟩,
    fun c call e a hc hp => (refusedOk_run es s h c call hc).2 e a hp⟩
  · rw [hes, run_append, h₁] at h
    exact log_reach ⟨es₂, h⟩
  · have hk : p.key = k := (mem_putsOf.mp (List.mem_of_getElem? hp)).2
    have hr := (hI.ok k).returned i p hp
    rw [hk] at hr
    exact ⟨hr, fun e he => (hI.ok k).expected i p e hp he⟩
  · rw [← (hI.ok k).expected i p e hp hpe, ← (hI.ok k).expected j q e hq hqe]

/-- Two puts that both expect version 1, the second of which waits for the first to commit. -/
def lostRace : List (Ev ℕ) :=
  [.begin 0, .call 0 0 ⟨[], [], [107]⟩ (some 7) (some 0), .start 0 1500, .exec 0 1500, .commit 0,
    .begin 1, .begin 2, .call 1 1 ⟨[], [], [107]⟩ (some 8) (some 1),
    .call 2 2 ⟨[], [], [107]⟩ (some 9) (some 1), .start 1 2500, .start 2 2500, .exec 1 2500,
    .commit 1, .exec 2 3500, .reread 2, .commit 2]

theorem puts_linearizable_lostRace :
    ∃ s, run step lostRace KvState.init = some s ∧ (putsOf s.log ⟨[], [], [107]⟩).length = 2 ∧
      Mismatch lostRace 2 2 ⟨[], [], [107]⟩ 1 := by
  obtain ⟨-, -, -, -, -, -, hconf⟩ := @puts_linearizable ℕ _ lostRace rfl
  exact ⟨_, rfl, rfl, (hconf 2 _ 1 (some 2) rfl rfl).2⟩

end UmbraDB.Kv.Linear
