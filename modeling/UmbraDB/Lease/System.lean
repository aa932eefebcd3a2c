import UmbraDB.Js.Text
import UmbraDB.Lib.Runs
import Mathlib.Data.Int.Notation
import Mathlib.Logic.Function.Basic

/-! # Leases: `acquireLease`, `tryAcquireLease`, `releaseLease`

Any number of calls on any number of `PgTransactionLeaseLayer` instances, in any interleaving, over
the connections of the pool. `withLease` is an `acquireLease`, the function, and a `releaseLease`.

* **Connections.** `reserve()` takes an idle connection and gives it to one caller; `release()`
  makes it idle again. Nothing stops the holder of an old reference from sending statements on the
  connection, or from releasing it a second time. A connection is one session; once lost it does
  not come back.
* **Advisory locks** are exclusive between sessions and counted within one, and die with the
  session. `hashtext` maps a key to its lock.
* **`reserveBounded`.** The promise of `reserve()` is fulfilled (`fulfilled`) before its callbacks
  run (`callbacks`). The first callback releases the connection if `gaveUp` is set; the second is
  that of `Promise.race`, which goes on with the connection all the same: it was settled before
  `bail` was. An abort can come in between, for example synchronously after the call; a timer
  cannot, since it is a task of its own.
* **The lock query.** `raceAgainstAbort` does not send it when the signal is aborted already. After
  an abort the query is cancelled, but it may still be granted before the cancellation arrives, so
  the `pg_advisory_unlock` behind it has to wait for its end.

A statement that fails is an event of its own, which covers a statement timeout, a cancellation and
a lost connection. -/

namespace UmbraDB.Lease.System

open UmbraDB.Js.Text UmbraDB.Lib.Runs

/-- Where a call is, and the connection it uses. -/
inductive Stage
  /-- `reserve()` is pending. -/
  | reserving
  /-- The caller was told that it timed out or was aborted, and `reserve()` is still pending. -/
  | abandoned
  /-- `reserve()` is fulfilled, and its callbacks have not run. -/
  | fulfilled (c : ℕ) (gaveUp : Bool)
  /-- `set statement_timeout` is sent. -/
  | settingTimeout (c : ℕ)
  | locking (c : ℕ)
  /-- The lock query is sent. -/
  | waiting (c : ℕ)
  /-- The lock query has succeeded. -/
  | granted (c : ℕ)
  /-- The `catch` block; `pending` while the lock query has not ended on the server. -/
  | cleanup (c : ℕ) (pending : Bool)
  /-- The lease is returned: it is an entry of `heldLeases`. -/
  | held (c : ℕ)
  /-- `releaseLease` was called. -/
  | releasing (c : ℕ)
  /-- The unlock is done; `reset statement_timeout` and `release()` are left. -/
  | resetting (c : ℕ)
  | done
  deriving DecidableEq

/-- A call of `acquireLease`, or of `tryAcquireLease` (`isTry`). Its number is the token of the
lease it returns. -/
structure Call where
  layer : ℕ
  key : JsString
  isTry : Bool
  hadTimeout : Bool
  hasSignal : Bool
  aborted : Bool
  stage : Stage
  deriving DecidableEq

structure LeaseState where
  alive : ℕ → Bool
  idle : ℕ → Bool
  /-- The session that holds the lock, and how many times. -/
  locks : ℤ → Option (ℕ × ℕ)
  calls : ℕ → Option Call

def LeaseState.init : LeaseState := ⟨fun _ => true, fun _ => true, fun _ => none, fun _ => none⟩

inductive Ev
  | acquire (o layer : ℕ) (key : JsString) (isTry hadTimeout hasSignal : Bool)
  /-- The signal of the call is aborted. -/
  | abort (o : ℕ)
  /-- The timer of `reserveBounded` fires. -/
  | reserveTimeout (o : ℕ)
  /-- `reserve()` is fulfilled with the connection. -/
  | reserve (o c : ℕ)
  | reserveFailed (o : ℕ)
  /-- The callbacks on the promise of `reserve()` run. -/
  | callbacks (o : ℕ)
  | setTimeout (o : ℕ)
  | sendLock (o : ℕ)
  /-- The server grants the lock. -/
  | grant (o : ℕ)
  /-- The `set` or the lock query fails. -/
  | failed (o : ℕ)
  /-- The answer to the lock query arrives. -/
  | settle (o : ℕ)
  | releaseLease (layer o : ℕ)
  | unlock (o : ℕ)
  | unlockFailed (o : ℕ)
  | release (o : ℕ)
  | die (c : ℕ)

def LeaseState.setStage (s : LeaseState) (o : ℕ) (call : Call) (stage : Stage) : LeaseState :=
  { s with calls := Function.update s.calls o (some { call with stage := stage }) }

/-- `release()`; a lost connection does not go back to the pool. -/
def LeaseState.giveBack (s : LeaseState) (c : ℕ) : LeaseState :=
  { s with idle := Function.update s.idle c (s.alive c) }

/-- `pg_advisory_lock`, if it need not wait. -/
def lockBy (c : ℕ) : Option (ℕ × ℕ) → Option (ℕ × ℕ)
  | none => some (c, 1)
  | some (c', n) => if c' = c then some (c, n + 1) else none

/-- `pg_advisory_unlock`. -/
def unlockBy (c : ℕ) : Option (ℕ × ℕ) → Option (ℕ × ℕ)
  | none => none
  | some (c', n) => if c' = c then (if n ≤ 1 then none else some (c, n - 1)) else some (c', n)

/-- What comes after `reserveBounded`. -/
def enter (call : Call) (c : ℕ) : Stage :=
  if call.hadTimeout then .settingTimeout c else .locking c

/-- `tryAcquireLease` without a timeout asks with `pg_try_advisory_lock`. -/
def Call.nonBlocking (call : Call) : Bool := call.isTry && !call.hadTimeout

def abortStep (s : LeaseState) (o : ℕ) (call : Call) : Option LeaseState :=
  if call.hasSignal ∧ call.aborted = false then
    let call' := { call with aborted := true }
    match call.stage with
    | .reserving => some (s.setStage o call' .abandoned)
    | .fulfilled c _ => some (s.setStage o call' (.fulfilled c true))
    -- the listener of `raceAgainstAbort` cancels the query; `pg_try_advisory_lock` has none
    | .waiting c =>
      if call.nonBlocking then some (s.setStage o call' (.waiting c))
      else some (s.setStage o call' (.cleanup c true))
    | stage => some (s.setStage o call' stage)
  else none

def reserveStep (s : LeaseState) (o c : ℕ) (call : Call) : Option LeaseState :=
  if s.alive c = true ∧ s.idle c = true then
    let s' := { s with idle := Function.update s.idle c false }
    match call.stage with
    | .reserving => some (s'.setStage o call (.fulfilled c false))
    -- the orphaned connection is released at once
    | .abandoned => some (s.setStage o call .done)
    | _ => none
  else none

def callbacksStep (s : LeaseState) (o : ℕ) (call : Call) : Option LeaseState :=
  match call.stage with
  | .fulfilled c gaveUp =>
    let s' := s.setStage o call (enter call c)
    some (if gaveUp then s'.giveBack c else s')
  | _ => none

def sendLockStep (s : LeaseState) (o : ℕ) (call : Call) : Option LeaseState :=
  match call.stage with
  | .locking c =>
    -- the entry check of `raceAgainstAbort`
    if call.aborted && !call.nonBlocking then some (s.setStage o call (.cleanup c false))
    else some (s.setStage o call (.waiting c))
  | _ => none

/-- The lock query runs on the server. -/
def grantStep (hashtext : JsString → ℤ) (s : LeaseState) (o : ℕ) (call : Call) :
    Option LeaseState :=
  let l := hashtext call.key
  match call.stage with
  | .waiting c =>
    if s.alive c then
      match lockBy c (s.locks l) with
      | some owner =>
        some { s.setStage o call (.granted c) with
          locks := Function.update s.locks l (some owner) }
      | none =>
        -- `pg_try_advisory_lock` answers `false`: the connection is released, the result is `null`
        if call.nonBlocking then some ((s.setStage o call .done).giveBack c) else none
    else none
  | .cleanup c true =>
    if s.alive c then
      (lockBy c (s.locks l)).map fun owner =>
        { s.setStage o call (.cleanup c false) with
          locks := Function.update s.locks l (some owner) }
    else none
  | _ => none

def failedStep (s : LeaseState) (o : ℕ) (call : Call) : Option LeaseState :=
  match call.stage with
  | .settingTimeout c => some (s.setStage o call (.cleanup c false))
  | .waiting c => some (s.setStage o call (.cleanup c false))
  -- after the grant: a session lock is not given up by an error
  | .granted c => some (s.setStage o call (.cleanup c false))
  | .cleanup c true => some (s.setStage o call (.cleanup c false))
  | _ => none

/-- The signal is checked again before the lease is returned. -/
def settleStep (s : LeaseState) (o : ℕ) (call : Call) : Option LeaseState :=
  match call.stage with
  | .granted c =>
    if call.aborted then some (s.setStage o call (.cleanup c false))
    else some (s.setStage o call (.held c))
  | _ => none

/-- `releaseLease` on the instance `layer`; `LeaseNotHeldError` when it does not have the token. -/
def releaseLeaseStep (s : LeaseState) (layer o : ℕ) (call : Call) : Option LeaseState :=
  match call.stage with
  | .held c => if call.layer = layer then some (s.setStage o call (.releasing c)) else some s
  | _ => some s

/-- The connection on which a `pg_advisory_unlock` of the call runs next. -/
def Stage.unlocking : Stage → Option ℕ
  | .cleanup c false => some c
  | .releasing c => some c
  | _ => none

def unlockStep (hashtext : JsString → ℤ) (s : LeaseState) (o : ℕ) (call : Call) :
    Option LeaseState :=
  let l := hashtext call.key
  match call.stage.unlocking with
  | some c =>
    if s.alive c then
      some { s.setStage o call (.resetting c) with
        locks := Function.update s.locks l (unlockBy c (s.locks l)) }
    else none
  | none => none

def unlockFailedStep (s : LeaseState) (o : ℕ) (call : Call) : Option LeaseState :=
  call.stage.unlocking.map fun c => s.setStage o call (.resetting c)

def releaseStep (s : LeaseState) (o : ℕ) (call : Call) : Option LeaseState :=
  match call.stage with
  | .resetting c => some ((s.setStage o call .done).giveBack c)
  | _ => none

/-- The session ends, and its locks with it. -/
def dieStep (s : LeaseState) (c : ℕ) : LeaseState :=
  { s with
    alive := Function.update s.alive c false
    idle := Function.update s.idle c false
    locks := fun l => (s.locks l).filter fun owner => owner.1 != c }

def step (hashtext : JsString → ℤ) (s : LeaseState) : Ev → Option LeaseState
  | .acquire o layer key isTry hadTimeout hasSignal =>
    match s.calls o with
    | none =>
      some (s.setStage o ⟨layer, key, isTry, hadTimeout, hasSignal, false, .reserving⟩ .reserving)
    | some _ => none
  | .abort o => (s.calls o).bind (abortStep s o)
  | .reserveTimeout o => (s.calls o).bind fun call =>
      if call.stage = .reserving ∧ call.hadTimeout = true then
        some (s.setStage o call .abandoned)
      else none
  | .reserve o c => (s.calls o).bind (reserveStep s o c)
  | .reserveFailed o => (s.calls o).bind fun call =>
      if call.stage = .reserving ∨ call.stage = .abandoned then some (s.setStage o call .done)
      else none
  | .callbacks o => (s.calls o).bind (callbacksStep s o)
  | .setTimeout o => (s.calls o).bind fun call =>
      match call.stage with
      | .settingTimeout c => some (s.setStage o call (.locking c))
      | _ => none
  | .sendLock o => (s.calls o).bind (sendLockStep s o)
  | .grant o => (s.calls o).bind (grantStep hashtext s o)
  | .failed o => (s.calls o).bind (failedStep s o)
  | .settle o => (s.calls o).bind (settleStep s o)
  | .releaseLease layer o => (s.calls o).bind (releaseLeaseStep s layer o)
  | .unlock o => (s.calls o).bind (unlockStep hashtext s o)
  | .unlockFailed o => (s.calls o).bind (unlockFailedStep s o)
  | .release o => (s.calls o).bind (releaseStep s o)
  | .die c => some (dieStep s c)

/-! ### What a step does -/

/-- The steps that change nothing but the record of the call `o`, with its `aborted` and its `stage`
after them. -/
inductive Goes (call : Call) (o : ℕ) : Ev → Bool → Stage → Prop
  | abandon (hst : call.stage = .reserving) : Goes call o (.abort o) true .abandoned
  | giveUp {c : ℕ} {gaveUp : Bool} (hst : call.stage = .fulfilled c gaveUp) :
      Goes call o (.abort o) true (.fulfilled c true)
  | cancel {c : ℕ} (hst : call.stage = .waiting c) : Goes call o (.abort o) true (.cleanup c true)
  | note (hst : ∀ c gaveUp, call.stage ≠ .fulfilled c gaveUp) :
      Goes call o (.abort o) true call.stage
  | reserveTimeout (hst : call.stage = .reserving) :
      Goes call o (.reserveTimeout o) call.aborted .abandoned
  | orphan {c : ℕ} (hst : call.stage = .abandoned) : Goes call o (.reserve o c) call.aborted .done
  | reserveFailed (hst : call.stage = .reserving ∨ call.stage = .abandoned) :
      Goes call o (.reserveFailed o) call.aborted .done
  | setTimeout {c : ℕ} (hst : call.stage = .settingTimeout c) :
      Goes call o (.setTimeout o) call.aborted (.locking c)
  | sendAborted {c : ℕ} (hst : call.stage = .locking c) :
      Goes call o (.sendLock o) call.aborted (.cleanup c false)
  | send {c : ℕ} (hst : call.stage = .locking c) :
      Goes call o (.sendLock o) call.aborted (.waiting c)
  | failed {c : ℕ} (hst : call.stage = .settingTimeout c ∨ call.stage = .waiting c ∨
        call.stage = .granted c ∨ call.stage = .cleanup c true) :
      Goes call o (.failed o) call.aborted (.cleanup c false)
  | settleAborted {c : ℕ} (hst : call.stage = .granted c) :
      Goes call o (.settle o) call.aborted (.cleanup c false)
  | settle {c : ℕ} (hst : call.stage = .granted c) : Goes call o (.settle o) call.aborted (.held c)
  | releaseLease {layer c : ℕ} (hst : call.stage = .held c) :
      Goes call o (.releaseLease layer o) call.aborted (.releasing c)
  | unlockFailed {c : ℕ} (hc : call.stage.unlocking = some c) :
      Goes call o (.unlockFailed o) call.aborted (.resetting c)

/-- **What a step does.** -/
inductive Stepped (hashtext : JsString → ℤ) (s : LeaseState) : Ev → LeaseState → Prop
  | acquire {o layer : ℕ} {key : JsString} {isTry hadTimeout hasSignal : Bool}
      (hnone : s.calls o = none) :
      Stepped hashtext s (.acquire o layer key isTry hadTimeout hasSignal)
        (s.setStage o ⟨layer, key, isTry, hadTimeout, hasSignal, false, .reserving⟩ .reserving)
  | goes {o : ℕ} {call : Call} {e : Ev} {aborted : Bool} {stage : Stage}
      (hcall : s.calls o = some call) (h : Goes call o e aborted stage) :
      Stepped hashtext s e (s.setStage o { call with aborted := aborted } stage)
  | notHeld {layer o : ℕ} : Stepped hashtext s (.releaseLease layer o) s
  | reserve {o c : ℕ} {call : Call} (hcall : s.calls o = some call)
      (hst : call.stage = .reserving) (hidle : s.idle c = true) :
      Stepped hashtext s (.reserve o c) (({ s with
        idle := Function.update s.idle c false } : LeaseState).setStage o call (.fulfilled c false))
  | callbacks {o c : ℕ} {gaveUp : Bool} {call : Call} (hcall : s.calls o = some call)
      (hst : call.stage = .fulfilled c gaveUp) :
      Stepped hashtext s (.callbacks o) (if gaveUp then
        (s.setStage o call (enter call c)).giveBack c else s.setStage o call (enter call c))
  | grant {o c : ℕ} {call : Call} {owner : ℕ × ℕ} {stage : Stage} (hcall : s.calls o = some call)
      (hst : call.stage = .waiting c ∧ stage = .granted c ∨
        call.stage = .cleanup c true ∧ stage = .cleanup c false)
      (ha : s.alive c = true) (hl : lockBy c (s.locks (hashtext call.key)) = some owner) :
      Stepped hashtext s (.grant o) { s.setStage o call stage with
        locks := Function.update s.locks (hashtext call.key) (some owner) }
  | refuse {o c : ℕ} {call : Call} (hcall : s.calls o = some call) (hst : call.stage = .waiting c)
      (hnb : call.nonBlocking = true) :
      Stepped hashtext s (.grant o) ((s.setStage o call .done).giveBack c)
  | unlock {o c : ℕ} {call : Call} (hcall : s.calls o = some call)
      (hc : call.stage.unlocking = some c) :
      Stepped hashtext s (.unlock o) { s.setStage o call (.resetting c) with
        locks := Function.update s.locks (hashtext call.key)
          (unlockBy c (s.locks (hashtext call.key))) }
  | release {o c : ℕ} {call : Call} (hcall : s.calls o = some call)
      (hst : call.stage = .resetting c) :
      Stepped hashtext s (.release o) ((s.setStage o call .done).giveBack c)
  | die {c : ℕ} : Stepped hashtext s (.die c) (dieStep s c)

variable {hashtext : JsString → ℤ} {s s' : LeaseState}

theorem stepped_of_abort {o : ℕ} {call : Call} (hcall : s.calls o = some call)
    (h : abortStep s o call = some s') : Stepped hashtext s (.abort o) s' := by
  unfold abortStep at h
  by_cases hs : call.hasSignal = true ∧ call.aborted = false
  · rw [if_pos hs] at h
    dsimp only at h
    split at h
    · next hst =>
      obtain rfl := Option.some.inj h
      exact .goes hcall (.abandon hst)
    · next c gaveUp hst =>
      obtain rfl := Option.some.inj h
      exact .goes hcall (.giveUp hst)
    · next c hst =>
      split_ifs at h
      · obtain rfl := Option.some.inj h
        rw [← hst]
        exact .goes hcall (.note fun c' gaveUp => by rw [hst]; simp)
      · obtain rfl := Option.some.inj h
        exact .goes hcall (.cancel hst)
    · next hne _ =>
      obtain rfl := Option.some.inj h
      exact .goes hcall (.note hne)
  · rw [if_neg hs] at h
    cases h

theorem stepped_of_reserve {o c : ℕ} {call : Call} (hcall : s.calls o = some call)
    (h : reserveStep s o c call = some s') : Stepped hashtext s (.reserve o c) s' := by
  unfold reserveStep at h
  split_ifs at h with hc
  dsimp only at h
  split at h
  · next hst =>
    obtain rfl := Option.some.inj h
    exact .reserve hcall hst hc.2
  · next hst =>
    obtain rfl := Option.some.inj h
    exact .goes hcall (.orphan hst)
  · cases h

theorem stepped_of_grant {o : ℕ} {call : Call} (hcall : s.calls o = some call)
    (h : grantStep hashtext s o call = some s') : Stepped hashtext s (.grant o) s' := by
  unfold grantStep at h
  dsimp only at h
  split at h
  · next c hst =>
    by_cases ha : s.alive c = true
    · rw [if_pos ha] at h
      split at h
      · next owner hl =>
        obtain rfl := Option.some.inj h
        exact .grant hcall (Or.inl ⟨hst, rfl⟩) ha hl
      · split_ifs at h with hnb
        obtain rfl := Option.some.inj h
        exact .refuse hcall hst hnb
    · rw [if_neg ha] at h
      cases h
  · next c hst =>
    split_ifs at h with ha
    obtain ⟨owner, hl, rfl⟩ := Option.map_eq_some_iff.mp h
    exact .grant hcall (Or.inr ⟨hst, rfl⟩) ha hl
  · cases h

theorem stepped_of_failed {o : ℕ} {call : Call} (hcall : s.calls o = some call)
    (h : failedStep s o call = some s') : Stepped hashtext s (.failed o) s' := by
  unfold failedStep at h
  split at h
  · next c hst =>
    obtain rfl := Option.some.inj h
    exact .goes hcall (.failed (Or.inl hst))
  · next c hst =>
    obtain rfl := Option.some.inj h
    exact .goes hcall (.failed (Or.inr (Or.inl hst)))
  · next c hst =>
    obtain rfl := Option.some.inj h
    exact .goes hcall (.failed (Or.inr (Or.inr (Or.inl hst))))
  · next c hst =>
    obtain rfl := Option.some.inj h
    exact .goes hcall (.failed (Or.inr (Or.inr (Or.inr hst))))
  · cases h

theorem stepped_of_step {e : Ev} (h : step hashtext s e = some s') : Stepped hashtext s e s' := by
  unfold step at h
  split at h
  · split at h
    · next hnone =>
      obtain rfl := Option.some.inj h
      exact .acquire hnone
    · cases h
  on_goal 15 =>
    obtain rfl := Option.some.inj h
    exact .die
  all_goals obtain ⟨call, hcall, h⟩ := Option.bind_eq_some_iff.mp h
  · exact stepped_of_abort hcall h
  · split_ifs at h with hst
    obtain rfl := Option.some.inj h
    exact .goes hcall (.reserveTimeout hst.1)
  · exact stepped_of_reserve hcall h
  · split_ifs at h with hst
    obtain rfl := Option.some.inj h
    exact .goes hcall (.reserveFailed hst)
  · unfold callbacksStep at h
    split at h
    · next c gaveUp hst =>
      obtain rfl := Option.some.inj h
      exact .callbacks hcall hst
    · cases h
  · split at h
    · next c hst =>
      obtain rfl := Option.some.inj h
      exact .goes hcall (.setTimeout hst)
    · cases h
  · unfold sendLockStep at h
    split at h
    · next c hst =>
      split_ifs at h
      · obtain rfl := Option.some.inj h
        exact .goes hcall (.sendAborted hst)
      · obtain rfl := Option.some.inj h
        exact .goes hcall (.send hst)
    · cases h
  · exact stepped_of_grant hcall h
  · exact stepped_of_failed hcall h
  · unfold settleStep at h
    split at h
    · next c hst =>
      split_ifs at h
      · obtain rfl := Option.some.inj h
        exact .goes hcall (.settleAborted hst)
      · obtain rfl := Option.some.inj h
        exact .goes hcall (.settle hst)
    · cases h
  · unfold releaseLeaseStep at h
    split at h
    · next c hst =>
      split_ifs at h
      · obtain rfl := Option.some.inj h
        exact .goes hcall (.releaseLease hst)
      · obtain rfl := Option.some.inj h
        exact .notHeld
    · obtain rfl := Option.some.inj h
      exact .notHeld
  · unfold unlockStep at h
    dsimp only at h
    split at h
    · next c hc =>
      split_ifs at h
      obtain rfl := Option.some.inj h
      exact .unlock hcall hc
    · cases h
  · obtain ⟨c, hc, rfl⟩ := Option.map_eq_some_iff.mp h
    exact .goes hcall (.unlockFailed hc)
  · unfold releaseStep at h
    split at h
    · next c hst =>
      obtain rfl := Option.some.inj h
      exact .release hcall hst
    · cases h

end UmbraDB.Lease.System
