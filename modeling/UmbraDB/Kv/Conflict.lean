import UmbraDB.Kv.Linear

/-! # Temporal key-value store: what `VersionConflictError` reports

A put that fails its compare-and-set learns the version it reports from a second statement, which
has a snapshot of its own. `FailedIn` is the moment of the failure. What the error says of that
moment is true as long as, up to the re-read, no step brings the version that the call sees to the
one it expected and none takes the key away (`Unmatched`). -/

namespace UmbraDB.Kv.Conflict

open UmbraDB.Lib.RowStore UmbraDB.Lib.Runs
open UmbraDB.Kv.Rows UmbraDB.Kv.System UmbraDB.Kv.Invariant UmbraDB.Kv.Linear

variable {V : Type} {s s' : KvState V}

/-- The statement of the call touched no row, and the call has not read the key again yet. -/
def Waits (s : KvState V) (c : ℕ) : Prop :=
  ∃ call, s.calls c = some call ∧ call.phase = .rereading

/-- The compare-and-set of the call `c` failed in this run, on what it saw in the state `s₀`. -/
def FailedIn (es : List (Ev V)) (c : ℕ) (s₀ : KvState V) : Prop :=
  ∃ es₁ ev es₂ s₁, es = es₁ ++ ev :: es₂ ∧ run step es₁ KvState.init = some s₀ ∧
    step s₀ ev = some s₁ ∧ ¬ Waits s₀ c ∧ Waits s₁ c

/-- While the call `c` waits for its re-read, the step `ev` neither brings the version it sees to
the one it expected nor takes the key away. -/
def Unmatched (c : ℕ) (s : KvState V) (ev : Ev V) : Prop :=
  match s.calls c, step s ev with
  | some call, some s' => call.phase = .rereading →
    (s'.visibleVersion call.tx call.key = call.expected.getD 0 →
      s.visibleVersion call.tx call.key = call.expected.getD 0) ∧
    ((s'.rows.view call.tx call.key).current = none →
      (s.rows.view call.tx call.key).current = none)
  | _, _ => True

instance [DecidableEq V] (c : ℕ) (s : KvState V) (ev : Ev V) : Decidable (Unmatched c s ev) :=
  match h : s.calls c, h' : step s ev with
  | some call, some s' => decidable_of_iff (call.phase = .rereading →
      (s'.visibleVersion call.tx call.key = call.expected.getD 0 →
        s.visibleVersion call.tx call.key = call.expected.getD 0) ∧
      ((s'.rows.view call.tx call.key).current = none →
        (s.rows.view call.tx call.key).current = none)) (by simp only [Unmatched, h, h'])
  | none, _ => .isTrue (by simp only [Unmatched, h])
  | some _, none => .isTrue (by simp only [Unmatched, h, h'])

theorem FailedIn.snoc {es : List (Ev V)} {c : ℕ} {s₀ : KvState V} (h : FailedIn es c s₀)
    (ev : Ev V) : FailedIn (es ++ [ev]) c s₀ := by
  obtain ⟨es₁, ev₁, es₂, s₁, rfl, h⟩ := h
  exact ⟨es₁, ev₁, es₂ ++ [ev], s₁, by simp, h⟩

/-- Locking a row without changing it changes nobody's view. -/
theorem view_relock {t : ℕ} {k : KvKey} (hf : s.rows.free t k = true) (t' : ℕ) (k' : KvKey) :
    (s.rows.write t k (s.rows.view t k)).view t' k' = s.rows.view t' k' := by
  by_cases ht : t = t'
  · subst ht
    by_cases hk : k' = k
    · subst hk
      exact Table.view_write_self _ _ _ _
    · exact Table.view_write_ne _ _ _ _ hk
  · exact Table.view_write_other _ hf ht k'

/-- The step in which a compare-and-set fails changes nobody's view. -/
theorem view_of_failed {ev : Ev V} {c : ℕ} (h : step s ev = some s') (hn : ¬ Waits s c)
    (hw : Waits s' c) (t : ℕ) (k : KvKey) : s'.rows.view t k = s.rows.view t k := by
  obtain ⟨call, hc, hp⟩ := hw
  rcases step_cases h with ⟨-, hr⟩ | ⟨-, t', k', -, hf, hr⟩ | ⟨c', call', _, _, _, _, _, _, hwr⟩ |
    ⟨_, _, -, hend⟩
  · rw [hr]
  · rw [hr]
    exact view_relock hf t k
  · -- the step that writes a version sets one call to `created`
    rw [hwr.after] at hc
    rcases setPhase_calls (s := s) hc with h' | ⟨-, rfl⟩
    · exact absurd ⟨call, h', hp⟩ hn
    · cases hp
  · rw [hend.calls] at hc
    exact absurd ⟨call, hc, hp⟩ hn

/-- What a waiting call still sees, and what a thrown error reports. -/
structure Truthful (es : List (Ev V)) (c : ℕ) (s : KvState V) (call : Call V) : Prop where
  waiting : call.phase = .rereading → ∃ e, call.expected = some e ∧
    s.visibleVersion call.tx call.key ≠ e ∧
    ∃ s₀, FailedIn es c s₀ ∧ ((s.rows.view call.tx call.key).current = none →
      (s₀.rows.view call.tx call.key).current = none)
  thrown : ∀ e actual, call.phase = .conflict e actual → call.expected = some e ∧
    actual ≠ some e ∧ ∃ s₀, FailedIn es c s₀ ∧ (actual = none →
      (s₀.rows.view call.tx call.key).current = none)

/-- The call waits on: the condition says what it still sees. -/
theorem Truthful.wait {es : List (Ev V)} {ev : Ev V} {c : ℕ} {call : Call V}
    (hT : Truthful es c s call) (hc : s.calls c = some call) (hok : Unmatched c s ev)
    (h : step s ev = some s') : Truthful (es ++ [ev]) c s' call := by
  refine ⟨fun hp => ?_, fun e actual hp => ?_⟩
  · obtain ⟨e, he, hne, s₀, hfail, hnone⟩ := hT.waiting hp
    simp only [Unmatched, hc, h, he, Option.getD_some] at hok
    obtain ⟨hver, hcur⟩ := hok hp
    exact ⟨e, he, fun h' => hne (hver h'), s₀, hfail.snoc ev, fun h' => hnone (hcur h')⟩
  · obtain ⟨he, hne, s₀, hfail, hnone⟩ := hT.thrown e actual hp
    exact ⟨he, hne, s₀, hfail.snoc ev, hnone⟩

/-- The compare-and-set fails in this step. -/
theorem truthful_failed {es : List (Ev V)} {ev : Ev V} {c : ℕ} {call : Call V}
    (hrun : run step es KvState.init = some s) (h : step s ev = some s')
    (hc : s.calls c = some call) (hc' : s'.calls c = some { call with phase := .rereading })
    (hm : Moved s call .rereading) :
    Truthful (es ++ [ev]) c s' { call with phase := .rereading } := by
  have hn : ¬ Waits s c := by
    rintro ⟨call', h', hp⟩
    rw [hc, Option.some.injEq] at h'
    subst h'
    exact hm.once rfl hp
  have hw : Waits s' c := ⟨_, hc', rfl⟩
  have hview := view_of_failed h hn hw call.tx call.key
  obtain ⟨e, he, hne⟩ := hm.mismatch (inv_reachable ⟨es, hrun⟩)
  refine ⟨fun _ => ⟨e, he, ?_, s, ⟨es, ev, [], s', rfl, hrun, h, hn, hw⟩, ?_⟩, by simp⟩
  · show currentVersion (s'.rows.view call.tx call.key) ≠ e
    rw [hview]
    exact hne
  · intro h'
    rwa [← hview]

/-- The re-read: the error reports the version the call sees. -/
theorem Truthful.throw {es : List (Ev V)} {c : ℕ} {call : Call V} {e : ℕ} {actual : Option ℕ}
    (hT : Truthful es c s call) (ev : Ev V) (hm : Moved s call (.conflict e actual)) :
    Truthful (es ++ [ev]) c s' { call with phase := .conflict e actual } := by
  obtain ⟨hp, he, ha⟩ := hm.thrown e actual rfl
  obtain ⟨e', he', hne, s₀, hfail, hnone⟩ := hT.waiting hp
  rw [he', Option.getD_some] at he
  subst he
  refine ⟨by simp, fun e₁ a₁ h₁ => ?_⟩
  cases h₁
  refine ⟨he', fun h' => hne ?_, s₀, hfail.snoc ev, fun h' => hnone ?_⟩
  · show currentVersion (s.rows.view call.tx call.key) = e
    rw [currentVersion, ← ha, h', Option.getD_some]
  · rw [h'] at ha
    exact Option.map_eq_none_iff.mp ha.symm

theorem truthful_step {es : List (Ev V)} {ev : Ev V} {c : ℕ} {call' : Call V}
    (hrun : run step es KvState.init = some s)
    (hT : ∀ call, s.calls c = some call → Truthful es c s call) (hok : Unmatched c s ev)
    (h : step s ev = some s') (hc : s'.calls c = some call') :
    Truthful (es ++ [ev]) c s' call' := by
  rcases call_step h hc with h' | hp | ⟨call, p, h₀, rfl, hm⟩
  · exact (hT call' h').wait h' hok h
  · exact ⟨by simp [hp], by simp [hp]⟩
  · by_cases hre : p = .rereading
    · subst hre
      exact truthful_failed hrun h h₀ hc hm
    · refine ⟨fun hp => absurd hp hre, fun e actual hp => ?_⟩
      obtain rfl : p = .conflict e actual := hp
      have ht : Truthful (es ++ [ev]) c s' { call with phase := .conflict e actual } :=
        (hT call h₀).throw ev hm
      exact ht.thrown e actual rfl

theorem truthful_run {c : ℕ} : ∀ (es : List (Ev V)) (s : KvState V),
    run step es KvState.init = some s → Along step (Unmatched c) es KvState.init →
      ∀ call, s.calls c = some call → Truthful es c s call := by
  intro es
  induction es using List.reverseRecOn with
  | nil =>
    intro s h _ call hc
    cases h
    simp [KvState.init] at hc
  | append_singleton es ev ih =>
    intro s h hok call hc
    obtain ⟨s₁, h₁, h₂⟩ := run_snoc.mp h
    obtain ⟨hok₁, hok₂⟩ := hok.of_append h₁
    exact truthful_step h₁ (ih s₁ h₁ hok₁) hok₂.1 h₂ hc

/-- **What a conflict says is true**, in every run in which no step between the failed
compare-and-set and the re-read brings the version seen to the expected one or takes the key away:
the reported version is not the expected one, and none is reported only if the key did not exist
for the statement that failed. -/
theorem conflict_truthful {es : List (Ev V)} {c : ℕ} {call : Call V} {e : ℕ} {actual : Option ℕ}
    (hrun : run step es KvState.init = some s)
    (hok : Along step (Unmatched c) es KvState.init)
    (hc : s.calls c = some call) (hp : call.phase = .conflict e actual) :
    call.expected = some e ∧ actual ≠ some e ∧ ∃ s₀, FailedIn es c s₀ ∧
      (actual = none → (s₀.rows.view call.tx call.key).current = none) :=
  (truthful_run es s hrun hok call hc).thrown e actual hp

/-- A put that expects version 1 of a missing key, and one that creates the key and commits after
the re-read. -/
def lateCreate : List (Ev ℕ) :=
  [.begin 0, .begin 1, .call 0 0 ⟨[], [], [107]⟩ (some 7) (some 1),
    .call 1 1 ⟨[], [], [107]⟩ (some 8) none, .start 0 1500, .start 1 1500, .exec 1 1500,
    .reread 0, .commit 1, .commit 0]

theorem conflict_truthful_lateCreate :
    ∃ s : KvState ℕ, run step lateCreate KvState.init = some s ∧
      ∃ call, s.calls 0 = some call ∧ call.phase = .conflict 1 none ∧
        ∃ s₀, FailedIn lateCreate 0 s₀ ∧
          (s₀.rows.view 0 ⟨[], [], [107]⟩).current = none := by
  obtain ⟨-, -, s₀, hf, hn⟩ := @conflict_truthful ℕ _ lateCreate 0 _ 1 none rfl
    (by decide +kernel) rfl rfl
  exact ⟨_, rfl, _, rfl, rfl, s₀, hf, hn rfl⟩

/-- The same two puts, with the commit before the re-read: the put that expected version 1 throws
`VersionConflictError(1, 1)`. -/
def earlyCreate : List (Ev ℕ) :=
  [.begin 0, .begin 1, .call 0 0 ⟨[], [], [107]⟩ (some 7) (some 1),
    .call 1 1 ⟨[], [], [107]⟩ (some 8) none, .start 0 1500, .start 1 1500, .exec 1 1500,
    .commit 1, .reread 0, .commit 0]

theorem earlyCreate_reports_expected :
    ¬ ∀ (es : List (Ev ℕ)) (s : KvState ℕ) (c : ℕ) (call : Call ℕ) (e : ℕ) (actual : Option ℕ),
      run step es KvState.init = some s → s.calls c = some call →
      call.phase = .conflict e actual → actual ≠ some e := by
  intro h
  exact h earlyCreate _ 0 _ 1 (some 1) rfl rfl rfl rfl

end UmbraDB.Kv.Conflict
