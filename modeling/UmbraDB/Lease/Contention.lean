import UmbraDB.Js.Number
import UmbraDB.Tx.Errors

/-! # Leases: how a wait for the lock ends

One call of `acquireLease` or `tryAcquireLease`, without a signal, on a connection that is not lost,
while another session holds the lock for some time or for ever. Three timers can end the wait: the
`statement_timeout` of the session, which is the client's default unless the call has set it to its
`timeoutMs`, the client's `lock_timeout`, and the timer of `reserveBounded`. Times are in
microseconds, the settings in milliseconds.

The server counts `statement_timeout` from the start of the statement and `lock_timeout` from the
start of the wait, which comes after it; so of two equal settings `statement_timeout` runs out
first. It cancels the wait with `57014`, `lock_timeout` with `55P03`.

The two functions recognise `57014` only, and only if they have set the timeout themselves. So
contention is reported as a fault whenever the client's own timeouts end the wait. -/

namespace UmbraDB.Lease.Contention

open UmbraDB.Js.Number UmbraDB.Tx.Errors

/-! ### The client -/

/-- The largest `int4`. -/
def int4Max : ℕ := 2147483647

/-- A setting in milliseconds that `createClient` and the option schemas accept. -/
structure Millis where
  ms : ℕ
  pos : 0 < ms
  le : ms ≤ int4Max

/-- The check of `createClient` on a timeout, with its default. -/
def timeoutSetting (default : Millis) : Option JsNumber → Option Millis
  | none => some default
  | some value =>
    match value.integer with
    | none => none
    | some i => if h : 0 < i.toNat ∧ i.toNat ≤ int4Max then some ⟨i.toNat, h.1, h.2⟩ else none

/-- `DEFAULT_STATEMENT_TIMEOUT_MS`. -/
def defaultStatementTimeoutMs : Millis := ⟨120000, by decide, by decide⟩

/-- `DEFAULT_LOCK_TIMEOUT_MS`. -/
def defaultLockTimeoutMs : Millis := ⟨30000, by decide, by decide⟩

/-- The startup parameters of the connections. -/
structure Client where
  statementTimeout : Millis
  lockTimeout : Millis

/-- `createClient`; `none` when it throws. -/
def createClient (statementTimeoutMs lockTimeoutMs : Option JsNumber) : Option Client :=
  (timeoutSetting defaultStatementTimeoutMs statementTimeoutMs).bind fun statementTimeout =>
    (timeoutSetting defaultLockTimeoutMs lockTimeoutMs).map fun lockTimeout =>
      ⟨statementTimeout, lockTimeout⟩

/-! ### What the call meets -/

/-- How the promise of `reserve()` settles, and when. -/
inductive Reservation
  | fulfilled (t : ℕ)
  | rejected (err : Thrown) (t : ℕ)
  | pending

/-- When it settles, if it does. -/
def Reservation.time : Reservation → Option ℕ
  | .fulfilled t => some t
  | .rejected _ t => some t
  | .pending => none

/-- What the call meets: the reservation, the time that `set statement_timeout` takes, and for how
long after the start of the lock query another live session holds the lock: `some 0` if it is free,
`none` if it is never let go. -/
structure Scene where
  reservation : Reservation
  setTime : ℕ
  hold : Option ℕ

inductive LeaseFaultKind
  | connectionLost
  | reserveFailed
  | unknown
  deriving DecidableEq

/-- What the call returns or rejects with. -/
inductive LeaseResult
  | lease
  | null
  | leaseTimeoutError (waitedMs : ℕ)
  | leaseFaultError (message : String) (faultKind : LeaseFaultKind) (cause : Thrown)
  | abortError (err : Thrown)

/-- `acquireLease` or `tryAcquireLease`. -/
inductive Kind
  | acquire
  | tryAcquire
  deriving DecidableEq

/-! ### The two functions -/

/-- `err.name === "AbortError"`. -/
def isAbortError : Thrown → Bool
  | .error e => e.name == "AbortError"
  | .storage (.other e) => e.name == "AbortError"
  | _ => false

/-- `reserveBounded` is fulfilled at `t`: the timer has not run out. -/
def Reserved (timeoutMs : Option Millis) (scene : Scene) (t : ℕ) : Prop :=
  scene.reservation = .fulfilled t ∧ ∀ n, timeoutMs = some n → t ≤ 1000 * n.ms

/-- `reserveBounded` is rejected at `t` with the error of `reserve()`. -/
def ReserveFailed (timeoutMs : Option Millis) (scene : Scene) (err : Thrown) (t : ℕ) : Prop :=
  scene.reservation = .rejected err t ∧ ∀ n, timeoutMs = some n → t ≤ 1000 * n.ms

/-- `reserveBounded` is rejected with `RESERVE_TIMED_OUT`. -/
def ReserveTimedOut (timeoutMs : Millis) (scene : Scene) : Prop :=
  ∀ t, scene.reservation.time = some t → 1000 * timeoutMs.ms ≤ t

/-- The catch block of `reserveBounded`, on an error of `reserve()`. -/
def reserveCatch (err : Thrown) : LeaseResult :=
  if isAbortError err then .abortError err
  else .leaseFaultError "failed to reserve a connection" .reserveFailed err

/-- What a timeout gives. -/
def timedOut (kind : Kind) (timeoutMs : Millis) : LeaseResult :=
  match kind with
  | .acquire => .leaseTimeoutError timeoutMs.ms
  | .tryAcquire => .null

/-- An error of the server. -/
def serverError (code message : String) : Thrown :=
  .error ⟨"PostgresError", message, some code, some "ERROR", none⟩

/-- The timer of the server that runs out first, and the error with which it cancels a wait. -/
def waitLimit (statementTimeout lockTimeout : Millis) : ℕ × Thrown :=
  if statementTimeout.ms ≤ lockTimeout.ms then
    (1000 * statementTimeout.ms,
      serverError "57014" "canceling statement due to statement timeout")
  else (1000 * lockTimeout.ms, serverError "55P03" "canceling statement due to lock timeout")

/-- `pg_advisory_lock` ends after `t`. -/
def LockQueryEnds (limit : ℕ × Thrown) (hold : Option ℕ) (outcome : Except Thrown Unit) (t : ℕ) :
    Prop :=
  match outcome with
  | .ok () => hold = some t ∧ t ≤ limit.1
  | .error err => err = limit.2 ∧ t = limit.1 ∧ ∀ h, hold = some h → limit.1 ≤ h

/-- The catch blocks of the lock query. -/
def lockCatch (kind : Kind) (timeoutMs : Option Millis) (err : Thrown) : LeaseResult :=
  match isStatementTimeout err, timeoutMs with
  | true, some n => timedOut kind n
  | _, _ =>
    if isAbortError err then .abortError err
    else .leaseFaultError "failed to acquire lease" .connectionLost err

/-- The session's `statement_timeout` during the lock query. -/
def sessionTimeout (client : Client) (timeoutMs : Option Millis) : Millis :=
  timeoutMs.getD client.statementTimeout

/-- The call, from the lock query on, ends after `t`. `tryAcquireLease` without a timeout asks with
`pg_try_advisory_lock`, which does not wait. -/
def LockSettles (kind : Kind) (client : Client) (timeoutMs : Option Millis) (scene : Scene)
    (result : LeaseResult) (t : ℕ) : Prop :=
  match kind, timeoutMs with
  | .tryAcquire, none => t = 0 ∧ result = if scene.hold = some 0 then .lease else .null
  | kind, timeoutMs =>
    ∃ outcome, LockQueryEnds (waitLimit (sessionTimeout client timeoutMs) client.lockTimeout)
        scene.hold outcome t ∧
      result = match outcome with
        | .ok () => .lease
        | .error err => lockCatch kind timeoutMs err

/-- **The call** ends with this result, at the time `t` after it was made. -/
inductive Settles (kind : Kind) (client : Client) (timeoutMs : Option Millis) (scene : Scene) :
    LeaseResult → ℕ → Prop
  | reserveTimedOut {n : Millis} (hn : timeoutMs = some n) (h : ReserveTimedOut n scene) :
      Settles kind client timeoutMs scene (timedOut kind n) (1000 * n.ms)
  | reserveFailed {err : Thrown} {t : ℕ} (h : ReserveFailed timeoutMs scene err t) :
      Settles kind client timeoutMs scene (reserveCatch err) t
  | locked {result : LeaseResult} {t₁ t₂ : ℕ} (h : Reserved timeoutMs scene t₁)
      (hl : LockSettles kind client timeoutMs scene result t₂) :
      Settles kind client timeoutMs scene result (t₁ + scene.setTime + t₂)

/-! ### The contract -/

/-- What the contract allows as the end of a call: a lease; a timeout that was asked for, after it
has elapsed, as `LeaseTimeoutError` or as `null`; `null` at once; a fault, if the reservation
failed. -/
def Allowed (kind : Kind) (timeoutMs : Option Millis) (scene : Scene) (result : LeaseResult)
    (t : ℕ) : Prop :=
  result = .lease ∨
  (kind = .acquire ∧ ∃ n, timeoutMs = some n ∧ result = .leaseTimeoutError n.ms ∧
    1000 * n.ms ≤ t) ∨
  (kind = .tryAcquire ∧ result = .null) ∨
  ∃ err t', scene.reservation = .rejected err t' ∧ result = reserveCatch err

/-- The wait, if there is one, is not ended by a timeout of the client. -/
def Unharmed (kind : Kind) (client : Client) (timeoutMs : Option Millis) (scene : Scene) : Prop :=
  (∃ t, Reserved timeoutMs scene t) →
    match timeoutMs, kind with
    | none, .tryAcquire => True
    | none, .acquire => ∃ h, scene.hold = some h ∧
        h < 1000 * min client.statementTimeout.ms client.lockTimeout.ms
    | some n, _ => n.ms ≤ client.lockTimeout.ms ∨
        ∃ h, scene.hold = some h ∧ h < 1000 * client.lockTimeout.ms

variable {kind : Kind} {client : Client} {timeoutMs : Option Millis} {scene : Scene}

theorem waitLimit_time (statementTimeout lockTimeout : Millis) :
    (waitLimit statementTimeout lockTimeout).1 = 1000 * min statementTimeout.ms lockTimeout.ms := by
  unfold waitLimit
  split_ifs with h
  · rw [Nat.min_eq_left h]
  · rw [Nat.min_eq_right (by omega)]

/-- The fault that reports a cancelled wait. -/
def waitFault (err : Thrown) : LeaseResult :=
  .leaseFaultError "failed to acquire lease" .connectionLost err

theorem lockCatch_lockTimeout (kind : Kind) (timeoutMs : Option Millis) (message : String) :
    lockCatch kind timeoutMs (serverError "55P03" message) =
      waitFault (serverError "55P03" message) := by
  have hs : isStatementTimeout (serverError "55P03" message) = false := rfl
  have ha : isAbortError (serverError "55P03" message) = false := rfl
  simp only [lockCatch, hs, ha, Bool.false_eq_true, if_false, waitFault]

theorem lockCatch_statementTimeout (kind : Kind) (n : Millis) (message : String) :
    lockCatch kind (some n) (serverError "57014" message) = timedOut kind n := by
  have hs : isStatementTimeout (serverError "57014" message) = true := rfl
  simp only [lockCatch, hs]

theorem lockCatch_noTimeout (kind : Kind) (code message : String) :
    lockCatch kind none (serverError code message) = waitFault (serverError code message) := by
  simp [lockCatch, isAbortError, serverError, waitFault]

/-- A fault on a reserved connection is never allowed. -/
theorem not_allowed_waitFault {t t' : ℕ} {err : Thrown} (h : Reserved timeoutMs scene t') :
    ¬ Allowed kind timeoutMs scene (waitFault err) t := by
  rintro (h' | ⟨-, n, -, h', -⟩ | ⟨-, h'⟩ | ⟨err', t', h', -⟩)
  · cases h'
  · cases h'
  · cases h'
  · rw [h.1] at h'
    cases h'

theorem allowed_timedOut {n : Millis} {t : ℕ} (hn : timeoutMs = some n) (ht : 1000 * n.ms ≤ t) :
    Allowed kind timeoutMs scene (timedOut kind n) t := by
  rcases kind with _ | _
  · exact Or.inr (Or.inl ⟨rfl, n, hn, rfl, ht⟩)
  · exact Or.inr (Or.inr (Or.inl ⟨rfl, rfl⟩))

/-- The wait has an end. -/
theorem lockQueryEnds_exists (limit : ℕ × Thrown) (hold : Option ℕ) :
    ∃ outcome t, LockQueryEnds limit hold outcome t := by
  by_cases h : ∃ t, hold = some t ∧ t ≤ limit.1
  · obtain ⟨t, ht, hle⟩ := h
    exact ⟨.ok (), t, ht, hle⟩
  · refine ⟨.error limit.2, limit.1, rfl, rfl, fun t ht => ?_⟩
    by_contra hlt
    exact h ⟨t, ht, by omega⟩

/-- Every call ends, unless it waits for a connection without a timeout and none comes. -/
theorem settles_exists (h : timeoutMs ≠ none ∨ scene.reservation.time ≠ none) :
    ∃ result t, Settles kind client timeoutMs scene result t := by
  by_cases hto : ∃ n, timeoutMs = some n ∧ ReserveTimedOut n scene
  · obtain ⟨n, hn, hr⟩ := hto
    exact ⟨_, _, .reserveTimedOut hn hr⟩
  have hbound : ∀ t, scene.reservation.time = some t → ∀ n, timeoutMs = some n →
      t ≤ 1000 * n.ms := by
    intro t ht n hn
    by_contra hlt
    refine hto ⟨n, hn, fun t' ht' => ?_⟩
    rw [ht, Option.some.injEq] at ht'
    omega
  rcases hr : scene.reservation with t | ⟨err, t⟩ | _
  · obtain ⟨result, t₂, hl⟩ : ∃ result t₂, LockSettles kind client timeoutMs scene result t₂ := by
      unfold LockSettles
      split
      · exact ⟨_, _, rfl, rfl⟩
      · obtain ⟨outcome, t₂, ho⟩ := lockQueryEnds_exists
          (waitLimit (sessionTimeout client timeoutMs) client.lockTimeout) scene.hold
        exact ⟨_, t₂, outcome, ho, rfl⟩
    exact ⟨result, _, .locked ⟨hr, hbound t (by rw [hr]; rfl)⟩ hl⟩
  · exact ⟨_, t, .reserveFailed ⟨hr, hbound t (by rw [hr]; rfl)⟩⟩
  · -- nothing settles the reservation, so the timer does
    exfalso
    rw [hr] at h
    obtain ⟨n, hn⟩ := Option.ne_none_iff_exists'.mp (h.resolve_right fun h' => h' rfl)
    refine hto ⟨n, hn, fun t ht => ?_⟩
    rw [hr] at ht
    cases ht

/-- A wait that the client's `lock_timeout` can end, or, without a timeout of the call, its
`statement_timeout`. -/
theorem lockSettles_fault (hk : ¬ (kind = .tryAcquire ∧ timeoutMs = none))
    (hlimit : timeoutMs = none ∨ ∃ n, timeoutMs = some n ∧ client.lockTimeout.ms < n.ms)
    (hhold : ∀ h, scene.hold = some h →
      (waitLimit (sessionTimeout client timeoutMs) client.lockTimeout).1 ≤ h) :
    ∃ err t, LockSettles kind client timeoutMs scene (waitFault err) t := by
  have hends : ∀ {err t}, LockQueryEnds
      (waitLimit (sessionTimeout client timeoutMs) client.lockTimeout) scene.hold (.error err) t →
      lockCatch kind timeoutMs err = waitFault err →
      LockSettles kind client timeoutMs scene (waitFault err) t := by
    intro err t he hc
    unfold LockSettles
    split
    · exact absurd ⟨rfl, rfl⟩ hk
    · exact ⟨.error err, he, hc.symm⟩
  refine ⟨_, _, hends ⟨rfl, rfl, hhold⟩ ?_⟩
  rcases hlimit with rfl | ⟨n, rfl, hlt⟩
  · unfold waitLimit
    split_ifs
    · exact lockCatch_noTimeout _ _ _
    · exact lockCatch_noTimeout _ _ _
  · rw [waitLimit, if_neg (by simpa [sessionTimeout] using hlt)]
    exact lockCatch_lockTimeout _ _ _

/-- What follows from the condition for the wait. -/
theorem allowed_lockSettles {result : LeaseResult} {t₁ t₂ : ℕ} (hr : Reserved timeoutMs scene t₁)
    (hu : Unharmed kind client timeoutMs scene)
    (hl : LockSettles kind client timeoutMs scene result t₂) :
    Allowed kind timeoutMs scene result (t₁ + scene.setTime + t₂) := by
  have hu := hu ⟨t₁, hr⟩
  unfold LockSettles at hl
  split at hl
  · obtain ⟨-, rfl⟩ := hl
    split_ifs
    · exact Or.inl rfl
    · exact Or.inr (Or.inr (Or.inl ⟨rfl, rfl⟩))
  · next hk =>
    obtain ⟨outcome, hends, rfl⟩ := hl
    rcases outcome with err | _
    · obtain ⟨rfl, rfl, hhold⟩ := hends
      rcases timeoutMs with _ | n
      · -- without a timeout the lock is free before the client's timeouts run out
        rcases kind with _ | _
        · obtain ⟨h, hh, hlt⟩ := hu
          have hle := hhold h hh
          rw [waitLimit_time, sessionTimeout, Option.getD_none] at hle
          omega
        · exact absurd rfl (hk rfl)
      · simp only [sessionTimeout, Option.getD_some]
        by_cases hle : n.ms ≤ client.lockTimeout.ms
        · simp only [waitLimit, if_pos hle, lockCatch_statementTimeout]
          exact allowed_timedOut rfl (by omega)
        · obtain ⟨h, hh, hlt⟩ := Or.resolve_left hu hle
          have hle' := hhold h hh
          rw [waitLimit_time, sessionTimeout, Option.getD_some] at hle'
          omega
    · exact Or.inl rfl

/-- **When contention is never reported as a fault**: exactly when the wait cannot be ended by a
timeout of the client. Apart from that, every call ends, unless it waits for a connection without a
timeout and none comes. -/
theorem contention_iff (kind : Kind) (client : Client) (timeoutMs : Option Millis)
    (scene : Scene) :
    ((∀ result t, Settles kind client timeoutMs scene result t →
        Allowed kind timeoutMs scene result t) ↔ Unharmed kind client timeoutMs scene) ∧
    ((timeoutMs ≠ none ∨ scene.reservation.time ≠ none) →
      ∃ result t, Settles kind client timeoutMs scene result t) := by
  refine ⟨⟨fun hall => ?_, fun hu result t hs => ?_⟩, settles_exists⟩
  · rintro ⟨t₁, hr⟩
    have hfault : ∀ err t, ¬ LockSettles kind client timeoutMs scene (waitFault err) t :=
      fun err t hl => not_allowed_waitFault hr (hall _ _ (.locked hr hl))
    rcases timeoutMs with _ | n
    · rcases kind with _ | _
      · by_contra hn
        have hhold : ∀ h, scene.hold = some h →
            (waitLimit (sessionTimeout client none) client.lockTimeout).1 ≤ h := by
          intro h hh
          rw [waitLimit_time, sessionTimeout, Option.getD_none]
          by_contra hlt
          exact hn ⟨h, hh, by omega⟩
        have hk : ¬ (Kind.acquire = .tryAcquire ∧ (none : Option Millis) = none) := by simp
        obtain ⟨err, t, hl⟩ := lockSettles_fault hk (Or.inl rfl) hhold
        exact hfault err t hl
      · trivial
    · by_contra hn
      obtain ⟨hlt, hfree⟩ := not_or.mp hn
      have hhold : ∀ h, scene.hold = some h →
          (waitLimit (sessionTimeout client (some n)) client.lockTimeout).1 ≤ h := by
        intro h hh
        rw [waitLimit_time, sessionTimeout, Option.getD_some]
        by_contra hlt'
        exact hfree ⟨h, hh, by omega⟩
      have hk : ¬ (kind = .tryAcquire ∧ some n = none) := by simp
      obtain ⟨err, t, hl⟩ := lockSettles_fault hk (Or.inr ⟨n, rfl, by omega⟩) hhold
      exact hfault err t hl
  · rcases hs with ⟨hn, -⟩ | ⟨h, -⟩ | ⟨hr, hl⟩
    · exact allowed_timedOut hn le_rfl
    · exact Or.inr (Or.inr (Or.inr ⟨_, _, h, rfl⟩))
    · exact allowed_lockSettles hr hu hl

/-- The defaults of `createClient`. -/
def defaultClient : Client := ⟨defaultStatementTimeoutMs, defaultLockTimeoutMs⟩

example : createClient none none = some defaultClient := rfl

/-- With the defaults, `acquireLease` without a timeout gives up after 30 seconds, while the other
session holds the lock for 31: `LeaseFaultError`. -/
theorem acquire_gives_up :
    ¬ ∀ (kind : Kind) (client : Client) (timeoutMs : Option Millis) (scene : Scene)
      (result : LeaseResult) (t : ℕ), Settles kind client timeoutMs scene result t →
      Allowed kind timeoutMs scene result t := by
  intro hall
  have hr : Reserved none ⟨.fulfilled 0, 0, some 31000000⟩ 0 := ⟨rfl, fun n hn => by cases hn⟩
  have hl : LockSettles .acquire defaultClient none ⟨.fulfilled 0, 0, some 31000000⟩
      (waitFault (serverError "55P03" "canceling statement due to lock timeout")) 30000000 := by
    refine ⟨.error (serverError "55P03" "canceling statement due to lock timeout"), ?_, rfl⟩
    refine ⟨rfl, rfl, fun h hh => ?_⟩
    cases hh
    decide
  rcases hall _ _ _ _ _ _ (.locked hr hl) with h | ⟨-, n, -, h, -⟩ | ⟨-, h⟩ | ⟨_, _, h, -⟩
  all_goals cases h

end UmbraDB.Lease.Contention
