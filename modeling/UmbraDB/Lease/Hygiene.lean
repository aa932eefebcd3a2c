import UmbraDB.Lease.Exclusion

/-! # Connections that go back to the pool

The leases of `Lease.System` with what their statements leave on a session: its `statement_timeout`
and the cancel requests that are on their way to it.

* A `set statement_timeout` stays in force for the session until its `reset`, also for the clean-up
  statements (`pg_advisory_unlock`, `reset`) of the call.
* `query.cancel()` sends a cancel request on a connection of its own. It cancels whatever statement
  the session is running when it arrives.
* A clean-up statement that fails is not repeated; its error is swallowed.

* `pool_clean` : in every run in which no clean-up statement fails while there is something to clean
  up, and no signal is aborted between the fulfilment of a `reserve()` and its callbacks, every
  connection in the pool is without locks and with the default timeout. A clean-up statement that
  does fail leads to a connection in the pool that is not.
* `lateCancel_leaks` : a late cancel request leaves a lock on a connection in the pool. -/

namespace UmbraDB.Lease.Hygiene

open UmbraDB.Js.Text UmbraDB.Lib.Runs UmbraDB.Lease.System UmbraDB.Lease.Exclusion

structure PoolState where
  leases : LeaseState
  /-- The sessions whose `statement_timeout` is not the default. -/
  timeouts : ℕ → Bool
  /-- The cancel requests on their way to the session. -/
  cancels : ℕ → ℕ
  /-- The calls whose `reset statement_timeout` has ended. -/
  resets : ℕ → Bool

def PoolState.init : PoolState := ⟨.init, fun _ => false, fun _ => 0, fun _ => false⟩

/-- Why a statement fails. -/
inductive Cause
  /-- A cancel request arrives while it runs. -/
  | cancel
  /-- `statement_timeout` is over. -/
  | timeout
  /-- Any other error, or the connection is lost. -/
  | error
  deriving DecidableEq

inductive PoolEv
  /-- A step of the leases without a failed statement. -/
  | lease (e : Ev)
  /-- The `set`, the lock query or the unlock of the call fails. -/
  | fail (o : ℕ) (cause : Cause)
  | reset (o : ℕ)
  | resetFailed (o : ℕ) (cause : Cause)
  /-- A cancel request arrives while no statement runs. -/
  | cancelLost (c : ℕ)

/-- A statement on the session can fail for this cause. -/
def PoolState.canFail (s : PoolState) (c : ℕ) : Cause → Bool
  | .cancel => decide (0 < s.cancels c)
  | .timeout => s.timeouts c
  | .error => true

/-- A cancel request that arrived is gone. -/
def PoolState.arrive (s : PoolState) (c : ℕ) : Cause → PoolState
  | .cancel => { s with cancels := Function.update s.cancels c (s.cancels c - 1) }
  | _ => s

/-- The session to which an abort sends a cancel request: the lock query has been sent by
`raceAgainstAbort`, and its answer has not arrived. -/
def cancelled (call : Call) : Option ℕ :=
  if call.hasSignal ∧ call.aborted = false ∧ call.nonBlocking = false then
    match call.stage with
    | .waiting c => some c
    | .granted c => some c
    | _ => none
  else none

/-- What a step of the leases does to the sessions. -/
def PoolState.sessions (s : PoolState) : Ev → PoolState
  | .abort o =>
    match (s.leases.calls o).bind cancelled with
    | some c => { s with cancels := Function.update s.cancels c (s.cancels c + 1) }
    | none => s
  | .setTimeout o =>
    match (s.leases.calls o).bind fun call => conn call.stage with
    | some c => { s with timeouts := Function.update s.timeouts c true }
    | none => s
  | _ => s

/-- `release()` comes after the `reset`, which is not sent when there was no timeout. -/
def PoolState.allows (s : PoolState) : Ev → Bool
  | .failed _ => false
  | .unlockFailed _ => false
  | .release o => (s.leases.calls o).all fun call => !call.hadTimeout || s.resets o
  | _ => true

/-- The failure of the statement that the call has sent, and its session. -/
def failure (o : ℕ) (call : Call) : Option (Ev × ℕ) :=
  match call.stage with
  | .settingTimeout c => some (.failed o, c)
  | .waiting c => some (.failed o, c)
  | .granted c => some (.failed o, c)
  | .cleanup c true => some (.failed o, c)
  | .cleanup c false => some (.unlockFailed o, c)
  | .releasing c => some (.unlockFailed o, c)
  | _ => none

/-- The session on which the call sends its `reset`. -/
def PoolState.resetting (s : PoolState) (o : ℕ) : Option ℕ :=
  (s.leases.calls o).bind fun call =>
    match call.stage with
    | .resetting c => if call.hadTimeout && !s.resets o then some c else none
    | _ => none

def poolStep (hashtext : JsString → ℤ) (s : PoolState) : PoolEv → Option PoolState
  | .lease e =>
    if s.allows e then
      (step hashtext s.leases e).map fun leases => { s.sessions e with leases := leases }
    else none
  | .fail o cause =>
    ((s.leases.calls o).bind (failure o)).bind fun p =>
      if s.canFail p.2 cause then
        (step hashtext s.leases p.1).map fun leases => { s.arrive p.2 cause with leases := leases }
      else none
  | .reset o =>
    (s.resetting o).bind fun c =>
      if s.leases.alive c then
        some { s with
          resets := Function.update s.resets o true
          timeouts := Function.update s.timeouts c false }
      else none
  | .resetFailed o cause =>
    (s.resetting o).bind fun c =>
      if s.canFail c cause then
        some { s.arrive c cause with resets := Function.update s.resets o true }
      else none
  | .cancelLost c => if 0 < s.cancels c then some (s.arrive c .cancel) else none

/-- What a step of the pool does. -/
inductive PoolStepped (hashtext : JsString → ℤ) (s : PoolState) : PoolEv → PoolState → Prop
  | lease {e : Ev} {leases : LeaseState} (hallow : s.allows e = true)
      (hs : step hashtext s.leases e = some leases) :
      PoolStepped hashtext s (.lease e) { s.sessions e with leases := leases }
  | fail {o c : ℕ} {cause : Cause} {call : Call} {e : Ev} {leases : LeaseState}
      (hcall : s.leases.calls o = some call) (hf : failure o call = some (e, c))
      (hs : step hashtext s.leases e = some leases) :
      PoolStepped hashtext s (.fail o cause) { s.arrive c cause with leases := leases }
  | reset {o c : ℕ} (hc : s.resetting o = some c) :
      PoolStepped hashtext s (.reset o) { s with
        resets := Function.update s.resets o true
        timeouts := Function.update s.timeouts c false }
  | resetFailed {o c : ℕ} {cause : Cause} (hc : s.resetting o = some c) :
      PoolStepped hashtext s (.resetFailed o cause)
        { s.arrive c cause with resets := Function.update s.resets o true }
  | cancelLost {c : ℕ} (hpos : 0 < s.cancels c) :
      PoolStepped hashtext s (.cancelLost c) (s.arrive c .cancel)

theorem poolStepped_of_step {hashtext : JsString → ℤ} {s s' : PoolState} {e : PoolEv}
    (h : poolStep hashtext s e = some s') : PoolStepped hashtext s e s' := by
  cases e with
  | lease e =>
    simp only [poolStep] at h
    split_ifs at h with hallow
    obtain ⟨leases, hs, rfl⟩ := Option.map_eq_some_iff.mp h
    exact .lease hallow hs
  | fail o cause =>
    simp only [poolStep] at h
    obtain ⟨⟨e, c⟩, hf, h⟩ := Option.bind_eq_some_iff.mp h
    obtain ⟨call, hcall, hf⟩ := Option.bind_eq_some_iff.mp hf
    split_ifs at h
    obtain ⟨leases, hs, rfl⟩ := Option.map_eq_some_iff.mp h
    exact .fail hcall hf hs
  | reset o =>
    simp only [poolStep] at h
    obtain ⟨c, hc, h⟩ := Option.bind_eq_some_iff.mp h
    split_ifs at h
    cases h
    exact .reset hc
  | resetFailed o cause =>
    simp only [poolStep] at h
    obtain ⟨c, hc, h⟩ := Option.bind_eq_some_iff.mp h
    split_ifs at h
    cases h
    exact .resetFailed hc
  | cancelLost c =>
    simp only [poolStep] at h
    split_ifs at h with hpos
    cases h
    exact .cancelLost hpos

/-- Every connection in the pool is without locks and with the default timeout. -/
def PoolClean (s : PoolState) : Prop :=
  ∀ c, s.leases.alive c = true → s.leases.idle c = true →
    (∀ l n, s.leases.locks l ≠ some (c, n)) ∧ s.timeouts c = false

/-- No clean-up statement fails on a live connection while there is something to clean up, and no
signal is aborted between the fulfilment of a `reserve()` and its callbacks. -/
def CleanupsWork (hashtext : JsString → ℤ) (s : PoolState) : PoolEv → Prop
  | .lease e => AbortsOutside s.leases e
  | .fail o _ => ∀ call c, s.leases.calls o = some call → call.stage.unlocking = some c →
      s.leases.alive c = true → ∀ n, s.leases.locks (hashtext call.key) ≠ some (c, n)
  | .resetFailed o _ => ∀ c, s.resetting o = some c → s.leases.alive c = true →
      s.timeouts c = false
  | _ => True

variable {hashtext : JsString → ℤ} {s s' : PoolState}

/-! ### The invariant -/

/-- The connection on which the call may have its lock. -/
def holding : Stage → Option ℕ
  | .granted c => some c
  | .cleanup c false => some c
  | .held c => some c
  | .releasing c => some c
  | _ => none

/-- The connection on which the timeout of the call may be set. -/
def timed : Stage → Option ℕ
  | .locking c => some c
  | .waiting c => some c
  | .granted c => some c
  | .cleanup c _ => some c
  | .held c => some c
  | .releasing c => some c
  | .resetting c => some c
  | _ => none

theorem conn_of_holding {stage : Stage} {c : ℕ} (h : holding stage = some c) :
    conn stage = some c := by
  unfold holding at h
  split at h <;> first | exact h | cases h

theorem conn_of_timed {stage : Stage} {c : ℕ} (h : timed stage = some c) :
    conn stage = some c := by
  unfold timed at h
  split at h <;> first | exact h | cases h

/-- The call may have set the timeout of the session, and has not reset it. -/
def Times (s : PoolState) (o : ℕ) (call : Call) (c : ℕ) : Prop :=
  timed call.stage = some c ∧ call.hadTimeout = true ∧ s.resets o = false

structure PoolInv (hashtext : JsString → ℤ) (s : PoolState) : Prop where
  leases : Inv hashtext s.leases
  locks : ∀ l c n, s.leases.locks l = some (c, n) → s.leases.alive c = true ∧ n = 1 ∧
    ∃ o call, s.leases.calls o = some call ∧ l = hashtext call.key ∧ holding call.stage = some c
  timeouts : ∀ c, s.leases.alive c = true → s.timeouts c = true →
    ∃ o call, s.leases.calls o = some call ∧ Times s o call c
  setting : ∀ o call c, s.leases.calls o = some call → call.stage = .settingTimeout c →
    call.hadTimeout = true
  resets : ∀ o, s.resets o = true →
    ∃ call, s.leases.calls o = some call ∧ ((∃ c, call.stage = .resetting c) ∨ call.stage = .done)

theorem poolInv_init : PoolInv hashtext .init :=
  ⟨inv_init, nofun, nofun, nofun, nofun⟩

/-- A connection in the pool is used by no call, so nobody has left anything on it. -/
theorem PoolInv.clean (hI : PoolInv hashtext s) : PoolClean s := by
  intro c ha hidle
  have hunused : ∀ o call, s.leases.calls o = some call → conn call.stage ≠ some c := by
    intro o call h hc
    have := hI.leases.idle o call c h hc
    rw [hidle] at this
    cases this
  constructor
  · intro l n hl
    obtain ⟨-, -, o, call, h, -, hh⟩ := hI.locks l c n hl
    exact hunused o call h (conn_of_holding hh)
  · by_contra ht
    obtain ⟨o, call, h, htimes⟩ := hI.timeouts c ha (by simpa using ht)
    exact hunused o call h (conn_of_timed htimes.1)

/-! ### What one step keeps -/

/-- The record of the call `o` becomes `new`. -/
theorem PoolInv.update (hI : PoolInv hashtext s) {o : ℕ} (new : Call)
    (hleases : Inv hashtext s'.leases)
    (hcalls : s'.leases.calls = Function.update s.leases.calls o (some new))
    (halive : s'.leases.alive = s.leases.alive)
    (hlocks : ∀ l c n, s'.leases.locks l = some (c, n) → s.leases.locks l = some (c, n) ∨
      s.leases.alive c = true ∧ n = 1 ∧ l = hashtext new.key ∧ holding new.stage = some c)
    (hheld : ∀ call c n, s.leases.calls o = some call → holding call.stage = some c →
      s'.leases.locks (hashtext call.key) = some (c, n) →
      hashtext call.key = hashtext new.key ∧ holding new.stage = some c)
    (htimes : ∀ c, s'.timeouts c = true → s.timeouts c = true ∨ Times s' o new c)
    (hkept : ∀ call c, s.leases.calls o = some call → Times s o call c → s'.timeouts c = true →
      Times s' o new c)
    (hsetting : ∀ c, new.stage = .settingTimeout c → new.hadTimeout = true)
    (hresets : ∀ o', o' ≠ o → s'.resets o' = s.resets o')
    (hreset : s'.resets o = true → (∃ c, new.stage = .resetting c) ∨ new.stage = .done) :
    PoolInv hashtext s' := by
  have hself : s'.leases.calls o = some new := by rw [hcalls, Function.update_self]
  have hother : ∀ o', o' ≠ o → s'.leases.calls o' = s.leases.calls o' := by
    intro o' ho
    rw [hcalls, Function.update_of_ne ho]
  refine ⟨hleases, ?_, ?_, ?_, ?_⟩
  · intro l c n hl
    rw [halive]
    rcases hlocks l c n hl with h | ⟨ha, rfl, rfl, hh⟩
    · obtain ⟨ha, rfl, o', call, h', rfl, hh⟩ := hI.locks l c n h
      refine ⟨ha, rfl, ?_⟩
      by_cases ho : o' = o
      · subst ho
        obtain ⟨hkey, hnew⟩ := hheld call c 1 h' hh hl
        exact ⟨o', new, hself, hkey, hnew⟩
      · exact ⟨o', call, by rw [hother o' ho]; exact h', rfl, hh⟩
    · exact ⟨ha, rfl, o, new, hself, rfl, hh⟩
  · intro c ha ht
    rw [halive] at ha
    rcases htimes c ht with h | h
    · obtain ⟨o', call, h', hc⟩ := hI.timeouts c ha h
      by_cases ho : o' = o
      · subst ho
        exact ⟨o', new, hself, hkept call c h' hc ht⟩
      · refine ⟨o', call, by rw [hother o' ho]; exact h', hc.1, hc.2.1, ?_⟩
        rw [hresets o' ho]
        exact hc.2.2
    · exact ⟨o, new, hself, h⟩
  · intro o' call c h' hst
    by_cases ho : o' = o
    · subst ho
      rw [hself, Option.some.injEq] at h'
      subst h'
      exact hsetting c hst
    · rw [hother o' ho] at h'
      exact hI.setting o' call c h' hst
  · intro o' hr
    by_cases ho : o' = o
    · subst ho
      exact ⟨new, hself, hreset hr⟩
    · rw [hresets o' ho] at hr
      rw [hother o' ho]
      exact hI.resets o' hr

/-- A call that is not at its end has not sent its `reset`. -/
theorem PoolInv.not_reset (hI : PoolInv hashtext s) {o : ℕ} {call : Call}
    (h : s.leases.calls o = some call) (hr : ∀ c, call.stage ≠ .resetting c)
    (hd : call.stage ≠ .done) : s.resets o = false := by
  by_contra hne
  obtain ⟨call', h', hst⟩ := hI.resets o (by simpa using hne)
  rw [h, Option.some.injEq] at h'
  subst h'
  rcases hst with ⟨c, hc⟩ | hc
  · exact hr c hc
  · exact hd hc

/-- The call goes on, and the sessions stay as they are. -/
theorem PoolInv.setStage (hI : PoolInv hashtext s) {o : ℕ} {call : Call} {aborted : Bool}
    {stage : Stage} (h : s.leases.calls o = some call) (hleases : Inv hashtext s'.leases)
    (hcalls : s'.leases.calls =
      Function.update s.leases.calls o (some { call with aborted := aborted, stage := stage }))
    (halive : s'.leases.alive = s.leases.alive) (hlocks : s'.leases.locks = s.leases.locks)
    (htimeouts : s'.timeouts = s.timeouts) (hresets : s'.resets = s.resets)
    (hheld : ∀ c, holding call.stage = some c →
      holding stage = some c ∨ ∀ n, s.leases.locks (hashtext call.key) ≠ some (c, n))
    (htimed : ∀ c, Times s o call c → timed stage = some c)
    (hsetting : ∀ c, stage = .settingTimeout c → call.hadTimeout = true)
    (hreset : s.resets o = true → (∃ c, stage = .resetting c) ∨ stage = .done) :
    PoolInv hashtext s' := by
  refine hI.update _ hleases hcalls halive ?_ ?_ ?_ ?_ hsetting ?_ ?_
  · intro l c n hl
    rw [hlocks] at hl
    exact Or.inl hl
  · intro call' c n h' hh hl
    rw [h, Option.some.injEq] at h'
    subst h'
    rw [hlocks] at hl
    rcases hheld c hh with hh | hn
    · exact ⟨rfl, hh⟩
    · exact absurd hl (hn n)
  · intro c ht
    rw [htimeouts] at ht
    exact Or.inl ht
  · intro call' c h' htimes _
    rw [h, Option.some.injEq] at h'
    subst h'
    refine ⟨htimed c htimes, htimes.2.1, ?_⟩
    rw [hresets]
    exact htimes.2.2
  · intro o' _
    rw [hresets]
  · intro hr
    rw [hresets] at hr
    exact hreset hr

/-- The same for a call that is not at its end. -/
theorem PoolInv.move (hI : PoolInv hashtext s) {o : ℕ} {call : Call} {aborted : Bool}
    {stage : Stage} (h : s.leases.calls o = some call) (hleases : Inv hashtext s'.leases)
    (hcalls : s'.leases.calls =
      Function.update s.leases.calls o (some { call with aborted := aborted, stage := stage }))
    (halive : s'.leases.alive = s.leases.alive) (hlocks : s'.leases.locks = s.leases.locks)
    (htimeouts : s'.timeouts = s.timeouts) (hresets : s'.resets = s.resets)
    (hr : ∀ c, call.stage ≠ .resetting c) (hd : call.stage ≠ .done)
    (hheld : ∀ c, holding call.stage = some c → holding stage = some c)
    (htimed : ∀ c, timed call.stage = some c → timed stage = some c)
    (hsetting : ∀ c, stage ≠ .settingTimeout c) : PoolInv hashtext s' :=
  hI.setStage h hleases hcalls halive hlocks htimeouts hresets (fun c hc => Or.inl (hheld c hc))
    (fun c hc => htimed c hc.1) (fun c hc => absurd hc (hsetting c))
    (fun hres => by rw [hI.not_reset h hr hd] at hres; cases hres)

/-- A step that changes nothing but the record of the call keeps what the call may have left on its
session, unless the step is the failure of an unlock. -/
theorem kept_of_goes {o : ℕ} {call : Call} {e : Ev} {aborted : Bool} {stage : Stage}
    (h : Goes call o e aborted stage) (he : e ≠ .unlockFailed o) : stage = call.stage ∨
      (∀ c, call.stage ≠ .resetting c) ∧ call.stage ≠ .done ∧
      (∀ c, holding call.stage = some c → holding stage = some c) ∧
      (∀ c, timed call.stage = some c → timed stage = some c) ∧
      ∀ c, stage ≠ .settingTimeout c := by
  cases h with
  | note => exact Or.inl rfl
  | unlockFailed => exact absurd rfl he
  | reserveFailed hst => rcases hst with hst | hst <;> simp [hst, holding, timed]
  | failed hst => rcases hst with hst | hst | hst | hst <;> simp [hst, holding, timed]
  | abandon hst => simp [hst, holding, timed]
  | giveUp hst => simp [hst, holding, timed]
  | cancel hst => simp [hst, holding, timed]
  | reserveTimeout hst => simp [hst, holding, timed]
  | orphan hst => simp [hst, holding, timed]
  | setTimeout hst => simp [hst, holding, timed]
  | sendAborted hst => simp [hst, holding, timed]
  | send hst => simp [hst, holding, timed]
  | settleAborted hst => simp [hst, holding, timed]
  | settle hst => simp [hst, holding, timed]
  | releaseLease hst => simp [hst, holding, timed]

theorem PoolInv.goes (hI : PoolInv hashtext s) {o : ℕ} {call : Call} {e : Ev} {aborted : Bool}
    {stage : Stage} (hcall : s.leases.calls o = some call) (h : Goes call o e aborted stage)
    (he : e ≠ .unlockFailed o)
    (hleases : Inv hashtext (s.leases.setStage o { call with aborted := aborted } stage))
    (hs : s'.leases = s.leases.setStage o { call with aborted := aborted } stage)
    (htimeouts : s'.timeouts = s.timeouts) (hresets : s'.resets = s.resets) :
    PoolInv hashtext s' := by
  have hcalls : s'.leases.calls = Function.update s.leases.calls o
      (some { call with aborted := aborted, stage := stage }) := by rw [hs]; rfl
  have hlocks : s'.leases.locks = s.leases.locks := by rw [hs]; rfl
  have halive : s'.leases.alive = s.leases.alive := by rw [hs]; rfl
  rw [← hs] at hleases
  rcases kept_of_goes h he with rfl | ⟨hr, hd, hheld, htimed, hsetting⟩
  · refine hI.setStage hcall hleases hcalls halive hlocks htimeouts hresets
      (fun c hc => Or.inl hc) (fun c hc => hc.1) (fun c hc => hI.setting o call c hcall hc)
      fun hr => ?_
    obtain ⟨call', hcall', hst⟩ := hI.resets o hr
    rw [hcall, Option.some.injEq] at hcall'
    subst hcall'
    exact hst
  · exact hI.move hcall hleases hcalls halive hlocks htimeouts hresets hr hd hheld htimed hsetting

theorem PoolInv.callbacks (hI : PoolInv hashtext s) {o c : ℕ} {call : Call}
    (hcall : s.leases.calls o = some call) (hst : call.stage = .fulfilled c false)
    (hleases : Inv hashtext (s.leases.setStage o call (enter call c))) :
    PoolInv hashtext { s with leases := s.leases.setStage o call (enter call c) } := by
  refine hI.setStage hcall hleases rfl rfl rfl rfl rfl (by simp [holding, hst])
    (fun c' hc' => ?_) (fun c' hc' => ?_) fun hr => ?_
  · have := hc'.1
    rw [hst] at this
    cases this
  · unfold enter at hc'
    by_contra ht
    rw [if_neg ht] at hc'
    cases hc'
  · rw [hI.not_reset hcall (by simp [hst]) (by simp [hst])] at hr
    cases hr

theorem PoolInv.setTimeout (hI : PoolInv hashtext s) {o c : ℕ} {call : Call}
    (hcall : s.leases.calls o = some call) (hst : call.stage = .settingTimeout c)
    (hleases : Inv hashtext (s.leases.setStage o call (.locking c))) :
    PoolInv hashtext { s with
      leases := s.leases.setStage o call (.locking c)
      timeouts := Function.update s.timeouts c true } := by
  have hr := hI.not_reset hcall (by simp [hst]) (by simp [hst])
  have hnew : ∀ c', c' = c → Times { s with
      leases := s.leases.setStage o call (.locking c)
      timeouts := Function.update s.timeouts c true } o { call with stage := .locking c } c' := by
    rintro c' rfl
    exact ⟨rfl, hI.setting o call c' hcall hst, hr⟩
  refine hI.update { call with stage := .locking c } hleases rfl rfl
    (fun l c n hl => Or.inl hl) ?_ ?_ ?_ (by simp) (fun _ _ => rfl) ?_
  · intro call' c' n h' hh
    rw [hcall, Option.some.injEq] at h'
    subst h'
    rw [hst] at hh
    cases hh
  · intro c' ht
    by_cases hc : c' = c
    · exact Or.inr (hnew c' hc)
    · change Function.update s.timeouts c true c' = true at ht
      rw [Function.update_of_ne hc] at ht
      exact Or.inl ht
  · intro call' c' h' htimes
    rw [hcall, Option.some.injEq] at h'
    subst h'
    have := htimes.1
    rw [hst] at this
    cases this
  · intro hr'
    rw [hr] at hr'
    cases hr'

/-- A session without a call at its lock has no lock. -/
theorem PoolInv.no_lock (hI : PoolInv hashtext s) {o c : ℕ} {call : Call}
    (hcall : s.leases.calls o = some call) (hc : conn call.stage = some c)
    (hh : holding call.stage = none) (l : ℤ) (n : ℕ) : s.leases.locks l ≠ some (c, n) := by
  intro hl
  obtain ⟨-, -, o', call', h', -, hh'⟩ := hI.locks l c n hl
  have ho := hI.leases.uses o' o call' call c h' hcall (conn_of_holding hh') hc
  subst ho
  rw [hcall, Option.some.injEq] at h'
  subst h'
  rw [hh] at hh'
  cases hh'

/-- The lock of the call is granted to its session, which has no lock yet. -/
theorem PoolInv.lock (hI : PoolInv hashtext s) {o c : ℕ} {call : Call} {owner : ℕ × ℕ}
    {stage : Stage} (hcall : s.leases.calls o = some call) (ha : s.leases.alive c = true)
    (hc : conn call.stage = some c) (hh : holding call.stage = none)
    (hl : lockBy c (s.leases.locks (hashtext call.key)) = some owner)
    (hholding : holding stage = some c) (htimed : timed stage = some c)
    (hsetting : ∀ c, stage ≠ .settingTimeout c)
    (hr : ∀ c, call.stage ≠ .resetting c) (hd : call.stage ≠ .done)
    (hleases : Inv hashtext { s.leases.setStage o call stage with
      locks := Function.update s.leases.locks (hashtext call.key) (some owner) }) :
    PoolInv hashtext { s with leases := { s.leases.setStage o call stage with
      locks := Function.update s.leases.locks (hashtext call.key) (some owner) } } := by
  have howner : owner = (c, 1) := by
    unfold lockBy at hl
    split at hl
    · cases hl
      rfl
    · next c' n hlock =>
      split_ifs at hl with hcc
      subst hcc
      exact absurd hlock (hI.no_lock hcall hc hh _ n)
  subst howner
  refine hI.update { call with stage := stage } hleases rfl rfl ?_ ?_ (fun c ht => Or.inl ht) ?_
    (fun c' hc' => absurd hc' (hsetting c')) (fun _ _ => rfl) ?_
  · intro l c' n hl'
    change Function.update s.leases.locks (hashtext call.key) (some (c, 1)) l = some (c', n) at hl'
    by_cases hk : l = hashtext call.key
    · subst hk
      rw [Function.update_self] at hl'
      cases hl'
      exact Or.inr ⟨ha, rfl, rfl, hholding⟩
    · rw [Function.update_of_ne hk] at hl'
      exact Or.inl hl'
  · intro call' c' n h' hh'
    rw [hcall, Option.some.injEq] at h'
    subst h'
    rw [hh] at hh'
    cases hh'
  · intro call' c' h' htimes _
    rw [hcall, Option.some.injEq] at h'
    subst h'
    have hcc : c' = c := Option.some.inj ((conn_of_timed htimes.1).symm.trans hc)
    subst hcc
    exact ⟨htimed, htimes.2.1, htimes.2.2⟩
  · intro hres
    rw [hI.not_reset hcall hr hd] at hres
    cases hres

/-- The answer is `false`; there was no timeout to reset. -/
theorem PoolInv.refuse (hI : PoolInv hashtext s) {o c : ℕ} {call : Call}
    (hcall : s.leases.calls o = some call) (hst : call.stage = .waiting c)
    (hnb : call.nonBlocking = true)
    (hleases : Inv hashtext ((s.leases.setStage o call .done).giveBack c)) :
    PoolInv hashtext { s with leases := (s.leases.setStage o call .done).giveBack c } := by
  refine hI.setStage hcall hleases rfl rfl rfl rfl rfl
    (by simp [holding, hst]) (fun c' hc' => ?_) (by simp) (fun _ => Or.inr rfl)
  have hto := hc'.2.1
  unfold Call.nonBlocking at hnb
  rw [hto] at hnb
  simp at hnb

theorem unlocking_ne {stage : Stage} {c : ℕ} (h : stage.unlocking = some c) :
    (∀ c', stage ≠ .resetting c') ∧ stage ≠ .done ∧ timed stage = some c := by
  unfold Stage.unlocking at h
  split at h
  · cases h
    exact ⟨by simp, by simp, rfl⟩
  · cases h
    exact ⟨by simp, by simp, rfl⟩
  · cases h

/-- The unlock is over: the session of the call has no lock, and the `reset` is next. -/
theorem PoolInv.unlocked (hI : PoolInv hashtext s) {o c : ℕ} {call : Call} {leases : LeaseState}
    (hcall : s.leases.calls o = some call) (hc : call.stage.unlocking = some c)
    (hleases : Inv hashtext leases)
    (hcalls : leases.calls =
      Function.update s.leases.calls o (some { call with stage := .resetting c }))
    (halive : leases.alive = s.leases.alive)
    (hlocks : ∀ l c' n, leases.locks l = some (c', n) → s.leases.locks l = some (c', n))
    (hfree : ∀ n, leases.locks (hashtext call.key) ≠ some (c, n)) {cancels : ℕ → ℕ} :
    PoolInv hashtext { s with leases := leases, cancels := cancels } := by
  obtain ⟨hr, hd, ht⟩ := unlocking_ne hc
  refine hI.update { call with stage := .resetting c } hleases hcalls halive
    (fun l c' n hl => Or.inl (hlocks l c' n hl)) ?_ (fun c ht => Or.inl ht) ?_ (by simp)
    (fun _ _ => rfl) (fun _ => Or.inl ⟨c, rfl⟩)
  · intro call' c' n h' hh hl
    rw [hcall, Option.some.injEq] at h'
    subst h'
    have hcc : c' = c := Option.some.inj ((conn_of_holding hh).symm.trans (conn_of_unlocking hc))
    subst hcc
    exact absurd hl (hfree n)
  · intro call' c' h' htimes _
    rw [hcall, Option.some.injEq] at h'
    subst h'
    have hcc : c' = c := Option.some.inj (htimes.1.symm.trans ht)
    subst hcc
    exact ⟨rfl, htimes.2.1, htimes.2.2⟩

theorem unlockBy_eq_some {c : ℕ} {owner : Option (ℕ × ℕ)} {p : ℕ × ℕ}
    (h : unlockBy c owner = some p) (h1 : ∀ n, owner = some (c, n) → n = 1) :
    owner = some p ∧ p.1 ≠ c := by
  unfold unlockBy at h
  split at h
  · cases h
  · next c' n =>
    split_ifs at h with hc hn
    · subst hc
      exact absurd (h1 n rfl) (by omega)
    · cases h
      exact ⟨rfl, hc⟩

theorem PoolInv.unlock (hI : PoolInv hashtext s) {o c : ℕ} {call : Call}
    (hcall : s.leases.calls o = some call) (hc : call.stage.unlocking = some c)
    (hleases : Inv hashtext { s.leases.setStage o call (.resetting c) with
      locks := Function.update s.leases.locks (hashtext call.key)
        (unlockBy c (s.leases.locks (hashtext call.key))) }) :
    PoolInv hashtext { s with leases := { s.leases.setStage o call (.resetting c) with
      locks := Function.update s.leases.locks (hashtext call.key)
        (unlockBy c (s.leases.locks (hashtext call.key))) } } := by
  have h1 : ∀ n, s.leases.locks (hashtext call.key) = some (c, n) → n = 1 :=
    fun n hn => (hI.locks _ c n hn).2.1
  refine hI.unlocked hcall hc hleases rfl rfl ?_ ?_
  · intro l c' n hl
    change Function.update s.leases.locks (hashtext call.key) _ l = some (c', n) at hl
    by_cases hk : l = hashtext call.key
    · subst hk
      rw [Function.update_self] at hl
      exact (unlockBy_eq_some hl h1).1
    · rw [Function.update_of_ne hk] at hl
      exact hl
  · intro n hl
    change Function.update s.leases.locks (hashtext call.key) _ _ = some (c, n) at hl
    rw [Function.update_self] at hl
    exact (unlockBy_eq_some hl h1).2 rfl

theorem PoolInv.release (hI : PoolInv hashtext s) {o c : ℕ} {call : Call}
    (hcall : s.leases.calls o = some call) (hst : call.stage = .resetting c)
    (hallow : s.allows (.release o) = true)
    (hleases : Inv hashtext ((s.leases.setStage o call .done).giveBack c)) :
    PoolInv hashtext { s with leases := (s.leases.setStage o call .done).giveBack c } := by
  refine hI.setStage hcall hleases rfl rfl rfl rfl rfl (by simp [holding, hst])
    (fun c' hc' => ?_) (by simp) (fun _ => Or.inr rfl)
  simp [PoolState.allows, hcall, hc'.2.1, hc'.2.2] at hallow

theorem PoolInv.die (hI : PoolInv hashtext s) (c : ℕ) :
    PoolInv hashtext { s with leases := dieStep s.leases c } := by
  have halive : ∀ c', Function.update s.leases.alive c false c' = true →
      s.leases.alive c' = true := by
    intro c' ha
    by_cases hc : c' = c
    · rw [hc, Function.update_self] at ha
      cases ha
    · rwa [Function.update_of_ne hc] at ha
  refine ⟨hI.leases.die c, ?_, fun c' ha ht => hI.timeouts c' (halive c' ha) ht, hI.setting,
    hI.resets⟩
  intro l c' n hl
  change (s.leases.locks l).filter _ = some (c', n) at hl
  obtain ⟨hl, hne⟩ := Option.filter_eq_some_iff.mp hl
  obtain ⟨ha, hrest⟩ := hI.locks l c' n hl
  refine ⟨?_, hrest⟩
  show Function.update s.leases.alive c false c' = true
  rw [Function.update_of_ne (by simpa using hne)]
  exact ha

theorem sessions_resets (s : PoolState) (e : Ev) : (s.sessions e).resets = s.resets := by
  unfold PoolState.sessions
  split
  · split <;> rfl
  · split <;> rfl
  · rfl

theorem sessions_timeouts {e : Ev} (he : ∀ o, e ≠ .setTimeout o) :
    (s.sessions e).timeouts = s.timeouts := by
  unfold PoolState.sessions
  split
  · split <;> rfl
  · exact absurd rfl (he _)
  · rfl

/-- A step of the leases without a failed statement. -/
theorem PoolInv.lease (hI : PoolInv hashtext s) {e : Ev} {leases : LeaseState}
    (hallow : s.allows e = true) (hP : AbortsOutside s.leases e)
    (h : step hashtext s.leases e = some leases) :
    PoolInv hashtext { s.sessions e with leases := leases } := by
  have hbase := inv_step hI.leases hP h
  cases stepped_of_step h with
  | @acquire o layer key isTry hadTimeout hasSignal hnone =>
    refine hI.update ⟨layer, key, isTry, hadTimeout, hasSignal, false, .reserving⟩ hbase rfl rfl
      (fun l c n hl => Or.inl hl) ?_ (fun c ht => Or.inl ht) ?_ (by simp) (fun _ _ => rfl) ?_
    · intro call c n h'
      rw [hnone] at h'
      cases h'
    · intro call c h'
      rw [hnone] at h'
      cases h'
    · intro hr
      obtain ⟨call, h', -⟩ := hI.resets o hr
      rw [hnone] at h'
      cases h'
  | @goes o call _ aborted stage hcall hg =>
    by_cases hset : ∃ o, e = .setTimeout o
    · obtain ⟨o, rfl⟩ := hset
      cases hg with
      | @setTimeout c hst =>
        have hs : s.sessions (.setTimeout o) =
            { s with timeouts := Function.update s.timeouts c true } := by
          simp only [PoolState.sessions, hcall, Option.bind_some, hst, conn]
        rw [hs]
        exact hI.setTimeout hcall hst hbase
    · refine hI.goes hcall hg ?_ hbase rfl (sessions_timeouts fun o he => hset ⟨o, he⟩)
        (sessions_resets s e)
      rintro rfl
      cases hallow
  | notHeld => exact hI
  | reserve hcall hst =>
    exact hI.move hcall hbase rfl rfl rfl rfl rfl (by simp [hst]) (by simp [hst])
      (by simp [holding, hst]) (by simp [timed, hst]) (by simp)
  | callbacks hcall hst =>
    obtain rfl := hI.leases.not_gaveUp hcall hst
    exact hI.callbacks hcall hst hbase
  | grant hcall hst ha hl =>
    rcases hst with ⟨hst, rfl⟩ | ⟨hst, rfl⟩
    · exact hI.lock hcall ha (by rw [hst]; rfl) (by simp [holding, hst]) hl rfl rfl (by simp)
        (by simp [hst]) (by simp [hst]) hbase
    · exact hI.lock hcall ha (by rw [hst]; rfl) (by simp [holding, hst]) hl rfl rfl (by simp)
        (by simp [hst]) (by simp [hst]) hbase
  | refuse hcall hst hnb => exact hI.refuse hcall hst hnb hbase
  | unlock hcall hc => exact hI.unlock hcall hc hbase
  | release hcall hst => exact hI.release hcall hst hallow hbase
  | die => exact hI.die _

theorem arrive_eq (s : PoolState) (c : ℕ) (cause : Cause) :
    ∃ cancels, s.arrive c cause = { s with cancels := cancels } := by
  unfold PoolState.arrive
  split
  · exact ⟨_, rfl⟩
  · exact ⟨s.cancels, rfl⟩

theorem failure_eq_some {o c : ℕ} {call : Call} {e : Ev} (h : failure o call = some (e, c)) :
    e = .failed o ∨ e = .unlockFailed o := by
  unfold failure at h
  split at h
  all_goals first | cases h
  · exact Or.inl rfl
  · exact Or.inl rfl
  · exact Or.inl rfl
  · exact Or.inl rfl
  · exact Or.inr rfl
  · exact Or.inr rfl

theorem PoolInv.fail (hI : PoolInv hashtext s) {o : ℕ} {cause : Cause}
    (hP : CleanupsWork hashtext s (.fail o cause))
    (h : poolStep hashtext s (.fail o cause) = some s') : PoolInv hashtext s' := by
  cases poolStepped_of_step h with
  | @fail _ c _ call e leases hcall hf hstep =>
    obtain ⟨cancels, harrive⟩ := arrive_eq s c cause
    rw [harrive]
    have hout : AbortsOutside s.leases e := by
      rcases failure_eq_some hf with rfl | rfl
      · trivial
      · trivial
    have hbase := inv_step hI.leases hout hstep
    rcases failure_eq_some hf with rfl | rfl
    · cases stepped_of_step hstep with
      | goes hcall' hg => exact hI.goes hcall' hg (by simp) hbase rfl rfl rfl
    · cases stepped_of_step hstep with
      | goes hcall' hg =>
        cases hg with
        | unlockFailed hc =>
          refine hI.unlocked hcall' hc hbase rfl rfl (fun _ _ _ hl => hl) fun n hl => ?_
          exact hP _ _ hcall' hc (hI.locks _ _ n hl).1 n hl

theorem resetting_eq_some {o c : ℕ} (h : s.resetting o = some c) :
    ∃ call, s.leases.calls o = some call ∧ call.stage = .resetting c ∧
      call.hadTimeout = true ∧ s.resets o = false := by
  obtain ⟨call, hcall, h⟩ := Option.bind_eq_some_iff.mp h
  split at h
  · next c' hst =>
    split_ifs at h with hr
    cases h
    rw [Bool.and_eq_true, Bool.not_eq_true'] at hr
    exact ⟨call, hcall, hst, hr⟩
  · cases h

/-- The `reset` has ended, and the timeout of the session is the default. -/
theorem PoolInv.reset (hI : PoolInv hashtext s) {o c : ℕ} (hc : s.resetting o = some c)
    {timeouts : ℕ → Bool} {cancels : ℕ → ℕ}
    (htimeouts : ∀ c', timeouts c' = true → s.timeouts c' = true)
    (hreset : s.leases.alive c = true → timeouts c = false) :
    PoolInv hashtext { s with
      resets := Function.update s.resets o true, timeouts := timeouts, cancels := cancels } := by
  obtain ⟨call, hcall, hst, hto, hr⟩ := resetting_eq_some hc
  refine ⟨hI.leases, hI.locks, ?_, hI.setting, ?_⟩
  · intro c' ha ht
    obtain ⟨o', call', h', htimes⟩ := hI.timeouts c' ha (htimeouts c' ht)
    have ho : o' ≠ o := by
      rintro rfl
      rw [hcall, Option.some.injEq] at h'
      subst h'
      have hcc : c = c' := by
        have := htimes.1
        rw [hst] at this
        exact Option.some.inj this
      subst hcc
      exact Bool.false_ne_true ((hreset ha).symm.trans ht)
    refine ⟨o', call', h', htimes.1, htimes.2.1, ?_⟩
    show Function.update s.resets o true o' = false
    rw [Function.update_of_ne ho]
    exact htimes.2.2
  · intro o' hr'
    change Function.update s.resets o true o' = true at hr'
    by_cases ho : o' = o
    · subst ho
      exact ⟨call, hcall, Or.inl ⟨c, hst⟩⟩
    · rw [Function.update_of_ne ho] at hr'
      exact hI.resets o' hr'

/-- One step keeps the invariant, if clean-up statements work. -/
theorem poolInv_step {ev : PoolEv} (hI : PoolInv hashtext s) (hP : CleanupsWork hashtext s ev)
    (h : poolStep hashtext s ev = some s') : PoolInv hashtext s' := by
  cases poolStepped_of_step h with
  | lease hallow hs => exact hI.lease hallow hP hs
  | fail hcall hf hs => exact hI.fail hP h
  | @reset o c hc =>
    refine hI.reset hc (fun c' ht => ?_) fun _ => Function.update_self ..
    by_cases hcc : c' = c
    · rw [hcc, Function.update_self] at ht
      cases ht
    · rwa [Function.update_of_ne hcc] at ht
  | @resetFailed o c cause hc =>
    obtain ⟨cancels, harrive⟩ := arrive_eq s c cause
    rw [harrive]
    exact hI.reset hc (fun _ ht => ht) (hP c hc)
  | cancelLost => exact ⟨hI.leases, hI.locks, hI.timeouts, hI.setting, hI.resets⟩

/-! ### Runs -/

/-- Something is left on the session. -/
def Dirty (s : PoolState) (c : ℕ) : Prop :=
  (∃ l n, s.leases.locks l = some (c, n)) ∨ s.timeouts c = true

/-- A call at its end gives back its connection as it is. -/
theorem release_dirty (hashtext : JsString → ℤ) {o c : ℕ} {call : Call}
    (hcall : s.leases.calls o = some call)
    (hst : call.stage = .resetting c) (hr : call.hadTimeout = true → s.resets o = true)
    (ha : s.leases.alive c = true) (hd : Dirty s c) :
    ∃ s', poolStep hashtext s (.lease (.release o)) = some s' ∧ ¬ PoolClean s' := by
  have hallow : s.allows (.release o) = true := by
    rcases hto : call.hadTimeout with _ | _
    · simp [PoolState.allows, hcall, hto]
    · simp [PoolState.allows, hcall, hr hto]
  refine ⟨{ s with leases := (s.leases.setStage o call .done).giveBack c }, ?_, fun hclean => ?_⟩
  · simp only [poolStep, hallow, if_true, step, hcall, Option.bind_some, releaseStep, hst,
      Option.map_some, PoolState.sessions]
  · have hidle : ((s.leases.setStage o call .done).giveBack c).idle c = true := by
      simp [LeaseState.giveBack, LeaseState.setStage, ha]
    obtain ⟨hlocks, htimeout⟩ := hclean c ha hidle
    rcases hd with ⟨l, n, hl⟩ | ht
    · exact hlocks l n hl
    · exact Bool.false_ne_true (htimeout.symm.trans ht)

/-- A call at its end can give back its connection without another change to the session. -/
theorem end_dirty {o c : ℕ} {call : Call} (hcall : s.leases.calls o = some call)
    (hst : call.stage = .resetting c) (ha : s.leases.alive c = true) (hd : Dirty s c) :
    ∃ es s', run (poolStep hashtext) es s = some s' ∧ ¬ PoolClean s' := by
  by_cases hr : call.hadTimeout = true ∧ s.resets o = false
  · have hfailed : poolStep hashtext s (.resetFailed o .error) =
        some { s with resets := Function.update s.resets o true } := by
      simp [poolStep, PoolState.resetting, hcall, hst, hr.1, hr.2, PoolState.canFail,
        PoolState.arrive]
    obtain ⟨s', hs, hn⟩ := release_dirty hashtext
      (s := { s with resets := Function.update s.resets o true }) hcall hst (by simp) ha hd
    refine ⟨[.resetFailed o .error, .lease (.release o)], s', ?_, hn⟩
    rw [run_cons, hfailed, Option.bind_some, run_cons, hs]
    rfl
  · obtain ⟨s', hs, hn⟩ := release_dirty hashtext hcall hst
      (fun hto => by simpa [hto] using hr) ha hd
    refine ⟨[.lease (.release o)], s', ?_, hn⟩
    rw [run_cons, hs]
    rfl

/-- A failed unlock leaves the lock on a connection in the pool. -/
theorem fail_leaks {o c n : ℕ} {call : Call} {cause : Cause}
    (hcall : s.leases.calls o = some call) (hc : call.stage.unlocking = some c)
    (ha : s.leases.alive c = true) (hl : s.leases.locks (hashtext call.key) = some (c, n))
    (h : poolStep hashtext s (.fail o cause) = some s') :
    ∃ es s'', run (poolStep hashtext) es s' = some s'' ∧ ¬ PoolClean s'' := by
  cases poolStepped_of_step h with
  | @fail _ c' _ call' e leases hcall' hf hs =>
    rw [hcall, Option.some.injEq] at hcall'
    subst hcall'
    have he : e = .unlockFailed o := by
      unfold Stage.unlocking at hc
      unfold failure at hf
      split at hc
      · next hst =>
        rw [hst] at hf
        cases hf
        rfl
      · next hst =>
        rw [hst] at hf
        cases hf
        rfl
      · cases hc
    subst he
    simp only [step, hcall, Option.bind_some, unlockFailedStep, hc, Option.map_some,
      Option.some.injEq] at hs
    subst hs
    have hresetting : (s.leases.setStage o call (.resetting c)).calls o =
        some { call with stage := .resetting c } := by simp [LeaseState.setStage]
    exact end_dirty hresetting rfl ha (Or.inl ⟨_, n, hl⟩)

/-- A failed `reset` leaves the timeout on a connection in the pool. -/
theorem resetFailed_leaks {o c : ℕ} {cause : Cause} (hc : s.resetting o = some c)
    (ha : s.leases.alive c = true) (ht : s.timeouts c = true)
    (h : poolStep hashtext s (.resetFailed o cause) = some s') :
    ∃ es s'', run (poolStep hashtext) es s' = some s'' ∧ ¬ PoolClean s'' := by
  obtain ⟨call, hcall, hst, -, -⟩ := resetting_eq_some hc
  cases poolStepped_of_step h with
  | @resetFailed _ c' _ hc' =>
    rw [hc, Option.some.injEq] at hc'
    subst hc'
    obtain ⟨cancels, harrive⟩ := arrive_eq s c cause
    rw [harrive]
    exact end_dirty hcall hst ha (Or.inr ht)

/-- **The pool stays clean** in every run in which no clean-up statement fails while there is
something to clean up, and no signal is aborted between the fulfilment of a `reserve()` and its
callbacks. From any state of such a run, a clean-up statement that fails leads to a connection in
the pool that is not clean. -/
theorem pool_clean {es : List PoolEv}
    (ha : Along (poolStep hashtext) (CleanupsWork hashtext) es .init)
    (h : run (poolStep hashtext) es .init = some s) :
    PoolClean s ∧
    (∀ o cause call c n s', s.leases.calls o = some call → call.stage.unlocking = some c →
      s.leases.alive c = true → s.leases.locks (hashtext call.key) = some (c, n) →
      poolStep hashtext s (.fail o cause) = some s' →
      ∃ es' s'', run (poolStep hashtext) es' s' = some s'' ∧ ¬ PoolClean s'') ∧
    ∀ o cause c s', s.resetting o = some c → s.leases.alive c = true → s.timeouts c = true →
      poolStep hashtext s (.resetFailed o cause) = some s' →
      ∃ es' s'', run (poolStep hashtext) es' s' = some s'' ∧ ¬ PoolClean s'' :=
  ⟨(run_inv_along (fun _ _ _ hI hP h => poolInv_step hI hP h) es .init s poolInv_init ha h).clean,
    fun _ _ _ _ _ _ hcall hc halive hl hf => fail_leaks hcall hc halive hl hf,
    fun _ _ _ _ hc halive ht hf => resetFailed_leaks hc halive ht hf⟩

/-- The first call has the lock. The second has a timeout, which ends its lock query; the third is
aborted while it waits, and its cancel request arrives when its connection is in the pool. -/
def timeoutAndAbort : List PoolEv :=
  [.lease (.acquire 0 0 [107] false false false), .lease (.reserve 0 0), .lease (.callbacks 0),
    .lease (.sendLock 0), .lease (.grant 0), .lease (.settle 0),
    .lease (.acquire 1 0 [107] false true false), .lease (.reserve 1 1), .lease (.callbacks 1),
    .lease (.setTimeout 1), .lease (.sendLock 1), .fail 1 .timeout, .lease (.unlock 1), .reset 1,
    .lease (.release 1),
    .lease (.acquire 2 0 [107] false false true), .lease (.reserve 2 2), .lease (.callbacks 2),
    .lease (.sendLock 2), .lease (.releaseLease 0 0), .lease (.unlock 0), .lease (.release 0),
    .lease (.grant 2), .lease (.abort 2), .lease (.settle 2), .lease (.unlock 2),
    .lease (.release 2), .cancelLost 2]

theorem pool_clean_timeoutAndAbort :
    ∃ s, run (poolStep hashtextOfK) timeoutAndAbort .init = some s ∧
      (∀ c < 3, s.leases.idle c = true) ∧ PoolClean s := by
  have ha : Along (poolStep hashtextOfK) (CleanupsWork hashtextOfK) timeoutAndAbort .init := by
    iterate 11 refine (along_cons_of_some rfl).mp ⟨trivial, ?_⟩
    refine (along_cons_of_some rfl).mp ⟨fun call c hcall hc => ?_, ?_⟩
    · cases hcall
      cases hc
    · iterate 11 refine (along_cons_of_some rfl).mp ⟨trivial, ?_⟩
      refine (along_cons_of_some rfl).mp ⟨fun call c gaveUp hcall hst => ?_, ?_⟩
      · cases hcall
        cases hst
      · iterate 4 refine (along_cons_of_some rfl).mp ⟨trivial, ?_⟩
        trivial
  exact ⟨_, rfl, by decide, (pool_clean ha rfl).1⟩

/-- The signal is aborted when the lock is granted and the answer has not arrived; the cancel
request arrives while the `pg_advisory_unlock` of the `catch` block runs. -/
def lateCancel : List PoolEv :=
  [.lease (.acquire 0 0 [107] false false true), .lease (.reserve 0 0), .lease (.callbacks 0),
    .lease (.sendLock 0), .lease (.grant 0), .lease (.abort 0), .lease (.settle 0), .fail 0 .cancel,
    .lease (.release 0)]

theorem lateCancel_leaks :
    ∃ s, run (poolStep hashtextOfK) lateCancel .init = some s ∧ ¬ PoolClean s := by
  refine ⟨_, rfl, fun hclean => ?_⟩
  exact (hclean 0 rfl rfl).1 (-153401555) 1 rfl

end UmbraDB.Lease.Hygiene
