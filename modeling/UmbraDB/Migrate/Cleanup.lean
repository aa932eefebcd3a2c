import UmbraDB.Lease.Contention
import UmbraDB.Lib.Triples
import UmbraDB.Migrate.Runner

/-! # Migrations: the connection that is given back

One call of `runMigrationsImpl`, with any outcome of each of its statements, and the session on which
it sends them. Its connection is not lost.

* **The session.** An error aborts an open transaction, after which only `COMMIT` and `ROLLBACK` go
  through. The end of a transaction takes back `SET LOCAL`, and without a commit `SET` too; the
  advisory lock stays.
* **Errors.** A statement that fails can have had an effect that is not undone: the lock was granted
  or given back, or the transaction was ended. Otherwise it has had none, also when it is cancelled.

The code unlocks if `lockHeld` was set, which happens when the answer to `pg_advisory_lock` arrives.
So a grant whose answer is an error is not given back. The other leaks are clean-up statements that
fail themselves.

* `clean_iff` : when the connection is clean after the call. -/

namespace UmbraDB.Migrate.Cleanup

open UmbraDB.Js.Text UmbraDB.Js.Number UmbraDB.Lib.Triples UmbraDB.Tx.Errors
open UmbraDB.Lease.Contention (Millis timeoutSetting defaultLockTimeoutMs)
open UmbraDB.Migrate.Runner (Ddl Migration tier1WalletMigrations)

variable {Ω : Type}

/-! ### The session -/

/-- With the search path that was set before the transaction. -/
inductive TxState
  | idle
  | active (before : List JsString)
  | failed (before : List JsString)
  deriving DecidableEq

/-- `locks` counts the migration lock of the schema; `localLockTimeout` is what `SET LOCAL` has set.
-/
structure Session where
  tx : TxState
  locks : ℕ
  searchPath : List JsString
  defaultSearchPath : List JsString
  lockTimeout : ℕ
  localLockTimeout : Option ℕ
  deriving DecidableEq

inductive Query (Ω : Type)
  | begin
  | commit
  | rollback
  /-- `select set_config('lock_timeout', …, true)`. -/
  | setLockTimeout (ms : ℕ)
  /-- `select pg_advisory_lock(1, hashtext(schema))`. -/
  | lock
  | unlock
  | setSearchPath (path : List JsString)
  | resetSearchPath
  /-- `select to_regclass('<schema>._migrations') is not null`. -/
  | regclass
  /-- `select 1 from _migrations where name = …`. -/
  | applied (name : JsString)
  | ddl (q : Ddl Ω)

namespace Session

/-- A session of the pool that is not in use. -/
def pooled (searchPath : List JsString) (lockTimeout : ℕ) : Session :=
  ⟨.idle, 0, searchPath, searchPath, lockTimeout, none⟩

/-- The search path after a rollback. -/
def before (s : Session) : List JsString :=
  match s.tx with
  | .idle => s.searchPath
  | .active path => path
  | .failed path => path

def currentLockTimeout (s : Session) : ℕ := s.localLockTimeout.getD s.lockTimeout

def endTx (s : Session) (path : List JsString) : Session :=
  { s with tx := .idle, searchPath := path, localLockTimeout := none }

/-- An error in a transaction. -/
def abort (s : Session) : Session :=
  match s.tx with
  | .active path => { s with tx := .failed path }
  | _ => s

/-- A statement other than `COMMIT` and `ROLLBACK`. -/
def apply (s : Session) : Query Ω → Session
  | .begin =>
    match s.tx with
    | .idle => { s with tx := .active s.searchPath }
    | _ => s
  | .setLockTimeout ms =>
    match s.tx with
    | .idle => s
    | _ => { s with localLockTimeout := some ms }
  | .lock => { s with locks := s.locks + 1 }
  | .unlock => { s with locks := s.locks - 1 }
  | .setSearchPath path => { s with searchPath := path }
  | .resetSearchPath => { s with searchPath := s.defaultSearchPath }
  | _ => s

/-- The statement succeeds. -/
def serve (s : Session) : Query Ω → Option Session
  | .commit =>
    match s.tx with
    | .failed path => some (s.endTx path)
    | _ => some (s.endTx s.searchPath)
  | .rollback => some (s.endTx s.before)
  | q =>
    match s.tx with
    | .failed _ => none
    | _ => some (s.apply q)

/-- The statement fails; `late`: what is not undone has been done. -/
def fail (s : Session) (late : Bool) : Query Ω → Session
  | .commit => if late then s.endTx s.before else s.abort
  | .rollback => if late then s.endTx s.before else s.abort
  | .lock =>
    match s.tx with
    | .failed _ => s
    | _ => if late then (s.apply (.lock : Query Ω)).abort else s.abort
  | .unlock =>
    match s.tx with
    | .failed _ => s
    | _ => if late then (s.apply (.unlock : Query Ω)).abort else s.abort
  | _ => s.abort

@[simp]
theorem abort_locks (s : Session) : s.abort.locks = s.locks := by
  unfold abort
  split <;> rfl

@[simp]
theorem abort_searchPath (s : Session) : s.abort.searchPath = s.searchPath := by
  unfold abort
  split <;> rfl

theorem abort_failed {s : Session} {path : List JsString} (h : s.tx = .failed path) :
    s.abort = s := by
  unfold abort
  rw [h]

theorem fail_resetSearchPath (s : Session) (late : Bool) :
    s.fail late (.resetSearchPath : Query Ω) = s.abort := rfl

theorem fail_unlock_failed {s : Session} {path : List JsString} (h : s.tx = .failed path)
    (late : Bool) : s.fail late (.unlock : Query Ω) = s := by
  simp only [fail, h]

theorem fail_unlock_searchPath (s : Session) (late : Bool) :
    (s.fail late (.unlock : Query Ω)).searchPath = s.searchPath := by
  rcases htx : s.tx with _ | path | path <;> simp only [fail, htx]
  · rcases late with _ | _
    · exact s.abort_searchPath
    · exact (s.apply (.unlock : Query Ω)).abort_searchPath
  · rcases late with _ | _
    · exact s.abort_searchPath
    · exact (s.apply (.unlock : Query Ω)).abort_searchPath

/-- What a clean-up statement outside of `ROLLBACK` can do. -/
theorem serve_cleanup {s s' : Session} {q : Query Ω} (hq : q = .resetSearchPath ∨ q = .unlock)
    (h : s.serve q = some s') : s' = s.apply q ∧ ∀ path, s.tx ≠ .failed path := by
  rcases hq with rfl | rfl
  all_goals
    rw [serve] at h
    · rcases htx : s.tx with _ | path | path <;> rw [htx] at h
      · exact ⟨(Option.some.inj h).symm, by rintro path ⟨⟩⟩
      · exact ⟨(Option.some.inj h).symm, by rintro path ⟨⟩⟩
      · cases h
    · rintro ⟨⟩
    · rintro ⟨⟩

/-- Nothing of the call is left. -/
structure Clean (original s : Session) : Prop where
  unlocked : s.locks = 0
  idle : s.tx = .idle
  searchPath : s.searchPath = original.searchPath
  lockTimeout : s.currentLockTimeout = original.currentLockTimeout

end Session

/-! ### The call -/

/-- How a statement settles. -/
inductive Outcome
  | done (answer : Bool)
  | fails (err : Thrown) (late : Bool)

/-- A statement that was sent, with the session before it; `failure` says whether it was late. -/
structure Sent (Ω : Type) where
  query : Query Ω
  before : Session
  failure : Option Bool

structure Call (Ω : Type) where
  session : Session
  lockHeld : Bool
  sent : List (Sent Ω)

/-- The call has reserved the session. -/
def Call.reserve (s : Session) : Call Ω := ⟨s, false, []⟩

inductive MigrationError
  | validation (migrationLockTimeoutMs : Option JsNumber)
  /-- `MigrationLockTimeoutError`. -/
  | lockTimeout (schema : JsString) (acquireBoundMs : ℕ) (cause : Thrown)
  | thrown (err : Thrown)

/-- `current transaction is aborted`. -/
def abortedError : Thrown :=
  .error ⟨"PostgresError", "current transaction is aborted", some "25P02", some "ERROR", none⟩

/-- `lineage[0]!.up` of an empty lineage. -/
def noBootstrap : Thrown :=
  .error ⟨"TypeError", "Cannot read properties of undefined (reading 'up')", none, none, none⟩

abbrev M (Ω α : Type) := Prog (Call Ω) MigrationError α

/-- `RunMigrationsOptions`, with the lineage that is applied. -/
structure RunMigrationsOptions (Ω : Type) where
  schema : JsString
  migrations : List (Migration Ω)
  migrationLockTimeoutMs : Option JsNumber

/-- `DEFAULT_MIGRATION_LOCK_TIMEOUT_MS`. -/
def defaultMigrationLockTimeoutMs : Millis :=
  ⟨30000, defaultLockTimeoutMs.pos, defaultLockTimeoutMs.le⟩

section Function

-- the outcomes of the statements, in the order in which they are sent
variable (script : ℕ → Outcome)

/-- Sends a statement and waits for its answer. -/
def send (q : Query Ω) : M Ω Bool := fun c =>
  match script c.sent.length, c.session.serve q with
  | .done answer, some s =>
    (.ok answer, { c with session := s, sent := c.sent ++ [⟨q, c.session, none⟩] })
  | .done _, none => (.error (.thrown abortedError),
      { c with session := c.session.fail false q, sent := c.sent ++ [⟨q, c.session, some false⟩] })
  | .fails err late, _ => (.error (.thrown err),
      { c with session := c.session.fail late q, sent := c.sent ++ [⟨q, c.session, some late⟩] })

def withReservedTransaction (fn : M Ω Unit) : M Ω Unit := do
  let _ ← send script .begin
  Prog.tryCatch
    (do
      fn
      let _ ← send script .commit)
    fun err => do
      let _ ← send script .rollback
      Prog.throw err

/-- What is thrown for an error of the acquisition. -/
def translateAcquire (schema : JsString) (acquireBoundMs : ℕ) : MigrationError → MigrationError
  | .thrown err =>
    if isLockTimeout err || isStatementTimeout err then .lockTimeout schema acquireBoundMs err
    else .thrown err
  | err => err

def acquire (schema : JsString) (acquireBoundMs : ℕ) : M Ω Unit :=
  Prog.tryCatch
    (withReservedTransaction script do
      let _ ← send script (.setLockTimeout acquireBoundMs)
      let _ ← send script .lock
      Prog.modify fun c => { c with lockHeld := true })
    fun err => Prog.throw (translateAcquire schema acquireBoundMs err)

/-- The transaction of a migration, with its record. -/
def migrate (m : Migration Ω) : M Ω Unit :=
  withReservedTransaction script
    (Prog.forEach (fun q => do let _ ← send script (.ddl q)) m.body)

def bootstrap : List (Migration Ω) → M Ω Unit
  | m :: _ => migrate script m
  | [] => withReservedTransaction script (Prog.throw (.thrown noBootstrap))

def applyMigration (m : Migration Ω) : M Ω Unit := do
  let applied ← send script (.applied m.name)
  if applied then pure () else migrate script m

def applyLineage (lineage : List (Migration Ω)) : M Ω Unit := do
  let bootstrapped ← send script .regclass
  if bootstrapped then pure () else bootstrap script lineage
  Prog.forEach (applyMigration script) lineage.tail

/-- `if (lockHeld) { … }`. -/
def unlockIfHeld : M Ω Unit := fun c =>
  if c.lockHeld then (do let _ ← send script .unlock : M Ω Unit) c else (.ok (), c)

/-- The outer `try` block. -/
def migrateReserved (opts : RunMigrationsOptions Ω) : M Ω Unit :=
  match timeoutSetting defaultMigrationLockTimeoutMs opts.migrationLockTimeoutMs with
  | none => Prog.throw (.validation opts.migrationLockTimeoutMs)
  | some acquireBound => do
    acquire script opts.schema acquireBound.ms
    let _ ← send script (.setSearchPath [opts.schema, ascii "public"])
    Prog.tryFinally (applyLineage script opts.migrations)
      (do let _ ← send script .resetSearchPath)

/-- After it the connection is released, with or without an error. -/
def runMigrationsImpl (opts : RunMigrationsOptions Ω) : M Ω Unit :=
  Prog.tryFinally (migrateReserved script opts) (unlockIfHeld script)

end Function

/-! ### What a statement leaves behind -/

/-- The statement has failed and left something behind: the lock was granted, or a clean-up statement
has not cleaned what there was. -/
def Leaks (step : Sent Ω) : Prop :=
  match step.query with
  | .lock => step.failure = some true
  | .rollback => step.failure = some false ∧ step.before.tx ≠ .idle
  | .resetSearchPath =>
    step.failure.isSome ∧ step.before.searchPath ≠ step.before.defaultSearchPath
  | .unlock => step.failure = some false
  | _ => False

def Leaked (c : Call Ω) : Prop := ∃ step ∈ c.sent, Leaks step

theorem leaked_append {s : Session} {held : Bool} {c : Call Ω} {step : Sent Ω} :
    Leaked ⟨s, held, c.sent ++ [step]⟩ ↔ Leaked c ∨ Leaks step := by
  simp only [Leaked, List.mem_append, List.mem_singleton]
  constructor
  · rintro ⟨step', hmem | rfl, h⟩
    · exact Or.inl ⟨step', hmem, h⟩
    · exact Or.inr h
  · rintro (⟨step', hmem, h⟩ | h)
    · exact ⟨step', Or.inl hmem, h⟩
    · exact ⟨step, Or.inr rfl, h⟩

theorem kept_append {s : Session} {held : Bool} {c : Call Ω} {step : Sent Ω} (hkept : ¬Leaked c)
    (hstep : ¬Leaks step) : ¬Leaked ⟨s, held, c.sent ++ [step]⟩ :=
  fun h => (leaked_append.mp h).elim hkept hstep

variable {script : ℕ → Outcome}

/-- What a statement does: all that its outcome leaves open. -/
theorem send_triple {P : Call Ω → Prop} {Q : Bool → Call Ω → Prop}
    {E : MigrationError → Call Ω → Prop} {q : Query Ω}
    (hdone : ∀ c s answer, P c → c.session.serve q = some s →
      Q answer ⟨s, c.lockHeld, c.sent ++ [⟨q, c.session, none⟩]⟩)
    (hfails : ∀ c e late, P c →
      E e ⟨c.session.fail late q, c.lockHeld, c.sent ++ [⟨q, c.session, some late⟩]⟩) :
    Triple P (send script q) Q E := by
  intro c hc
  unfold send
  rcases script c.sent.length with answer | ⟨err, late⟩
  · rcases hs : c.session.serve q with _ | s
    · exact hfails c _ false hc
    · exact hdone c s answer hc hs
  · exact hfails c _ late hc

/-! ### What holds between the statements -/

section Specs

-- the search path and the timeout of the pool
variable (original : List JsString) (timeout : ℕ)

/-- The session of a call that has left nothing behind so far. -/
def sessionAt (tx : TxState) (held : Bool) (path : List JsString) (ms : Option ℕ) : Session :=
  ⟨tx, held.toNat, path, original, timeout, ms⟩

structure Idle (path : List JsString) (held : Bool) (c : Call Ω) : Prop where
  kept : ¬Leaked c
  lockHeld : c.lockHeld = held
  session : c.session = sessionAt original timeout .idle held path none

structure Active (path : List JsString) (held : Bool) (c : Call Ω) : Prop where
  kept : ¬Leaked c
  lockHeld : c.lockHeld = held
  session : ∃ ms, c.session = sessionAt original timeout (.active path) held path ms

/-- In a transaction that may be aborted. -/
structure Broken (path : List JsString) (held : Bool) (c : Call Ω) : Prop where
  kept : ¬Leaked c
  lockHeld : c.lockHeld = held
  session : ∃ tx ms, (tx = .active path ∨ tx = .failed path) ∧
    c.session = sessionAt original timeout tx held path ms

/-- The lock was granted, and the call does not know it. -/
structure Granted (c : Call Ω) : Prop where
  leaked : Leaked c
  lockHeld : c.lockHeld = false
  locked : 0 < c.session.locks

/-- The transaction stays open, or the lock is not known: no later statement of the call helps. -/
structure Lost (c : Call Ω) : Prop where
  leaked : Leaked c
  stuck : (∃ path, c.session.tx = .failed path) ∨ c.lockHeld = false ∧ 0 < c.session.locks

/-- The search path was not put back. -/
structure Moved (c : Call Ω) : Prop where
  leaked : Leaked c
  searchPath : c.session.searchPath ≠ original

variable {original timeout} {path : List JsString} {held held' : Bool}

theorem Granted.lost {c : Call Ω} (h : Granted c) : Lost c :=
  ⟨h.leaked, Or.inr ⟨h.lockHeld, h.locked⟩⟩

theorem Active.broken {c : Call Ω} (h : Active original timeout path held c) :
    Broken original timeout path held c := by
  obtain ⟨ms, hsession⟩ := h.session
  exact ⟨h.kept, h.lockHeld, _, ms, Or.inl rfl, hsession⟩

/-- A statement that leaves nothing behind, sent in the session `s`. -/
theorem kept_triple {s : Session} {q : Query Ω} {Q E : Call Ω → Prop}
    (hleaks : ∀ failure, ¬Leaks ⟨q, s, failure⟩)
    (hdone : ∀ c, ¬Leaked c → c.lockHeld = held → s.serve q = some c.session → Q c)
    (hfails : ∀ c late, ¬Leaked c → c.lockHeld = held → c.session = s.fail late q → E c) :
    Triple (fun c => ¬Leaked c ∧ c.lockHeld = held ∧ c.session = s) (send script q)
      (fun _ => Q) (fun _ => E) := by
  refine send_triple ?_ ?_
  · rintro c s' answer ⟨hkept, hheld, rfl⟩ hs
    exact hdone _ (kept_append hkept (hleaks _)) hheld hs
  · rintro c e late ⟨hkept, hheld, rfl⟩
    exact hfails _ late (kept_append hkept (hleaks _)) hheld rfl

theorem begin_spec : Triple (Idle original timeout path held) (send script (.begin : Query Ω))
    (fun _ => Active original timeout path held) (fun _ => Idle original timeout path held) := by
  rintro c ⟨hkept, hheld, hsession⟩
  refine kept_triple (fun _ => id) ?_ ?_ c ⟨hkept, hheld, hsession⟩
  · intro c hkept hheld hs
    exact ⟨hkept, hheld, none, (Option.some.inj hs).symm⟩
  · intro c late hkept hheld hs
    exact ⟨hkept, hheld, hs⟩

/-- A statement between transactions that changes nothing. -/
theorem idle_spec {q : Query Ω}
    (hserve : (sessionAt original timeout .idle held path none).serve q =
      some (sessionAt original timeout .idle held path none))
    (hfail : ∀ late, (sessionAt original timeout .idle held path none).fail late q =
      sessionAt original timeout .idle held path none)
    (hleaks : ∀ s failure, s.tx = .idle → ¬Leaks ⟨q, s, failure⟩) :
    Triple (Idle original timeout path held) (send script q)
      (fun _ => Idle original timeout path held) (fun _ => Idle original timeout path held) := by
  rintro c ⟨hkept, hheld, hsession⟩
  refine kept_triple (fun _ => hleaks _ _ rfl) ?_ ?_ c ⟨hkept, hheld, hsession⟩
  · intro c hkept hheld hs
    exact ⟨hkept, hheld, Option.some.inj (hs.symm.trans hserve)⟩
  · intro c late hkept hheld hs
    exact ⟨hkept, hheld, hs.trans (hfail late)⟩

/-- A statement in a transaction. -/
theorem active_spec {q : Query Ω}
    (hserve : ∀ ms, ∃ ms', (sessionAt original timeout (.active path) held path ms).serve q =
      some (sessionAt original timeout (.active path) held path ms'))
    (hfail : ∀ ms late, (sessionAt original timeout (.active path) held path ms).fail late q =
      sessionAt original timeout (.failed path) held path ms)
    (hleaks : ∀ s failure, ¬Leaks ⟨q, s, failure⟩) :
    Triple (Active original timeout path held) (send script q)
      (fun _ => Active original timeout path held)
      (fun _ => Broken original timeout path held) := by
  rintro c ⟨hkept, hheld, ms, hsession⟩
  refine kept_triple (hleaks _) ?_ ?_ c ⟨hkept, hheld, hsession⟩
  · intro c hkept hheld hs
    obtain ⟨ms', hms⟩ := hserve ms
    exact ⟨hkept, hheld, ms', Option.some.inj (hs.symm.trans hms)⟩
  · intro c late hkept hheld hs
    exact ⟨hkept, hheld, _, ms, Or.inr rfl, hs.trans (hfail ms late)⟩

theorem commit_spec : Triple (Active original timeout path held) (send script (.commit : Query Ω))
    (fun _ => Idle original timeout path held)
    (fun _ c => Broken original timeout path held c ∨ Idle original timeout path held c) := by
  rintro c ⟨hkept, hheld, ms, hsession⟩
  refine kept_triple (fun _ => id) ?_ ?_ c ⟨hkept, hheld, hsession⟩
  · intro c hkept hheld hs
    exact ⟨hkept, hheld, (Option.some.inj hs).symm⟩
  · intro c late hkept hheld hs
    -- a late failure comes after the commit
    rcases late with _ | _
    · exact Or.inl ⟨hkept, hheld, _, ms, Or.inr rfl, hs⟩
    · exact Or.inr ⟨hkept, hheld, hs⟩

/-- `ROLLBACK` ends the transaction, or leaves it open. -/
theorem rollback_spec : Triple (Broken original timeout path held)
    (send script (.rollback : Query Ω)) (fun _ => Idle original timeout path held)
    (fun _ c => Idle original timeout path held c ∨ Lost c) := by
  refine send_triple ?_ ?_
  · rintro c s answer ⟨hkept, hheld, tx, ms, htx, hsession⟩ hs
    rw [hsession] at hs
    obtain rfl := Option.some.inj hs
    refine ⟨kept_append hkept ?_, hheld, ?_⟩
    · rintro ⟨h, -⟩
      cases h
    · rcases htx with rfl | rfl <;> rfl
  · rintro c e late ⟨hkept, hheld, tx, ms, htx, hsession⟩
    rw [hsession]
    rcases late with _ | _
    · refine Or.inr ⟨leaked_append.mpr (Or.inr ⟨rfl, ?_⟩), Or.inl ⟨path, ?_⟩⟩
      · rcases htx with rfl | rfl <;> rintro ⟨⟩
      · rcases htx with rfl | rfl <;> rfl
    · refine Or.inl ⟨kept_append hkept ?_, hheld, ?_⟩
      · rintro ⟨h, -⟩
        cases h
      · rcases htx with rfl | rfl <;> rfl

theorem rollback_idle_spec : Triple (Idle original timeout path held)
    (send script (.rollback : Query Ω)) (fun _ => Idle original timeout path held)
    (fun _ => Idle original timeout path held) := by
  refine idle_spec rfl (fun late => ?_) fun s failure htx => ?_
  · rcases late with _ | _ <;> rfl
  · rintro ⟨-, h⟩
    exact h htx

/-- The lock stays. -/
theorem rollback_granted_spec : Triple Granted (send script (.rollback : Query Ω))
    (fun _ => Granted) (fun _ => Granted) := by
  refine send_triple ?_ ?_
  · rintro c s answer ⟨hleaked, hheld, hlocked⟩ hs
    obtain rfl := Option.some.inj hs
    exact ⟨leaked_append.mpr (Or.inl hleaked), hheld, hlocked⟩
  · rintro c e late ⟨hleaked, hheld, hlocked⟩
    refine ⟨leaked_append.mpr (Or.inl hleaked), hheld, ?_⟩
    rcases late with _ | _
    · rw [Session.fail, if_neg Bool.false_ne_true, Session.abort_locks]
      exact hlocked
    · exact hlocked

/-- The handler of `withReservedTransaction`. -/
theorem rethrow_spec {P R : Call Ω → Prop} {Q : Unit → Call Ω → Prop} {e : MigrationError}
    (h : Triple P (send script (.rollback : Query Ω)) (fun _ => R) (fun _ => R)) :
    Triple P (do
      let _ ← send script (.rollback : Query Ω)
      Prog.throw e) Q (fun _ => R) :=
  h.bind fun _ => Triple.throw fun _ hR => hR

/-- A transaction whose statements keep the session in it. -/
theorem withReservedTransaction_spec {fn : M Ω Unit}
    (hfn : Triple (Active original timeout path held) fn
      (fun _ => Active original timeout path held')
      (fun _ c => Broken original timeout path held c ∨ Granted c)) :
    Triple (Idle original timeout path held) (withReservedTransaction script fn)
      (fun _ => Idle original timeout path held')
      (fun _ c => Idle original timeout path held c ∨ Idle original timeout path held' c ∨
        Lost c) := by
  refine (begin_spec.imp_error fun _ _ h => Or.inl h).bind fun _ => ?_
  -- the errors of the statements, and of `COMMIT`
  have htry : Triple (Active original timeout path held)
      (do
        fn
        let _ ← send script (.commit : Query Ω))
      (fun _ => Idle original timeout path held')
      (fun _ c => (Broken original timeout path held c ∨ Broken original timeout path held' c) ∨
        Idle original timeout path held' c ∨ Granted c) := by
    refine (hfn.imp_error ?_).bind fun _ => ?_
    · rintro _ c (h | h)
      · exact Or.inl (Or.inl h)
      · exact Or.inr (Or.inr h)
    · refine (commit_spec.imp_error ?_).bind fun _ =>
        Triple.ret fun _ h => h
      rintro _ c (h | h)
      · exact Or.inl (Or.inr h)
      · exact Or.inr (Or.inl h)
  refine htry.tryCatch fun e => ((Triple.or ?_ ?_).or ((Triple.or ?_ ?_)))
  · refine rethrow_spec (rollback_spec.imp ?_ ?_)
    · exact fun _ _ h => Or.inl h
    · exact fun _ _ h => h.imp_right Or.inr
  · refine rethrow_spec (rollback_spec.imp ?_ ?_)
    · exact fun _ _ h => Or.inr (Or.inl h)
    · exact fun _ _ h => Or.inr h
  · refine rethrow_spec (rollback_idle_spec.imp ?_ ?_)
    · exact fun _ _ h => Or.inr (Or.inl h)
    · exact fun _ _ h => Or.inr (Or.inl h)
  · refine rethrow_spec (rollback_granted_spec.imp ?_ ?_)
    · exact fun _ _ h => Or.inr (Or.inr h.lost)
    · exact fun _ _ h => Or.inr (Or.inr h.lost)

/-! ### The parts of the call -/

/-- `pg_advisory_lock`, and the flag after it. -/
theorem lock_spec : Triple (Active original timeout path false)
    (do
      let _ ← send script (.lock : Query Ω)
      Prog.modify fun c => { c with lockHeld := true })
    (fun _ => Active original timeout path true)
    (fun _ c => Broken original timeout path false c ∨ Granted c) := by
  refine Triple.bind (Q := fun _ c => ¬Leaked c ∧ ∃ ms, c.session =
    sessionAt original timeout (.active path) true path ms) (send_triple ?_ ?_) fun _ => ?_
  · rintro c s answer ⟨hkept, -, ms, hsession⟩ hs
    rw [hsession] at hs
    obtain rfl := Option.some.inj hs
    exact ⟨kept_append hkept (by rintro ⟨⟩), ms, rfl⟩
  · rintro c e late ⟨hkept, hheld, ms, hsession⟩
    rw [hsession]
    rcases late with _ | _
    · exact Or.inl ⟨kept_append hkept (by rintro ⟨⟩), hheld, _, ms, Or.inr rfl, rfl⟩
    · exact Or.inr ⟨leaked_append.mpr (Or.inr rfl), hheld, Nat.one_pos⟩
  · refine Triple.modify fun c hc => ?_
    obtain ⟨hkept, hsession⟩ := hc
    exact ⟨hkept, rfl, hsession⟩

theorem acquire_spec {schema : JsString} {ms : ℕ} :
    Triple (Idle original timeout path false) (acquire script schema ms : M Ω Unit)
      (fun _ => Idle original timeout path true)
      (fun _ c => Idle original timeout path false c ∨ Idle original timeout path true c ∨
        Lost c) := by
  refine Triple.tryCatch ?_ fun e => Triple.throw fun _ h => h
  refine withReservedTransaction_spec (Triple.bind ?_ fun _ => lock_spec)
  have hset : Triple (Active original timeout path false)
      (send script (.setLockTimeout ms : Query Ω)) (fun _ => Active original timeout path false)
      (fun _ => Broken original timeout path false) :=
    active_spec (fun _ => ⟨some ms, rfl⟩) (fun _ _ => rfl) fun _ _ => id
  exact hset.imp_error fun _ _ h => Or.inl h

/-- A transaction of statements that do not touch the lock. -/
theorem statements_spec {fn : M Ω Unit}
    (hfn : Triple (Active original timeout path true) fn
      (fun _ => Active original timeout path true)
      (fun _ c => Broken original timeout path true c ∨ Granted c)) :
    Triple (Idle original timeout path true) (withReservedTransaction script fn)
      (fun _ => Idle original timeout path true)
      (fun _ c => Idle original timeout path true c ∨ Lost c) := by
  refine (withReservedTransaction_spec hfn).imp_error ?_
  rintro _ c (h | h | h)
  · exact Or.inl h
  · exact Or.inl h
  · exact Or.inr h

theorem migrate_spec (m : Migration Ω) : Triple (Idle original timeout path true) (migrate script m)
    (fun _ => Idle original timeout path true)
    (fun _ c => Idle original timeout path true c ∨ Lost c) := by
  have hbody : Triple (Active original timeout path true)
      (Prog.forEach (fun q => do let _ ← send script (.ddl q)) m.body)
      (fun _ => Active original timeout path true)
      (fun _ c => Broken original timeout path true c ∨ Granted c) := by
    refine Triple.forEach fun q _ => Triple.bind ?_ fun _ => Triple.ret fun _ h => h
    have hddl : Triple (Active original timeout path true) (send script (.ddl q))
        (fun _ => Active original timeout path true)
        (fun _ => Broken original timeout path true) :=
      active_spec (fun ms => ⟨ms, rfl⟩) (fun _ _ => rfl) fun _ _ => id
    exact hddl.imp_error fun _ _ h => Or.inl h
  exact statements_spec hbody

theorem bootstrap_spec : ∀ lineage : List (Migration Ω),
    Triple (Idle original timeout path true) (bootstrap script lineage)
      (fun _ => Idle original timeout path true)
      (fun _ c => Idle original timeout path true c ∨ Lost c)
  | m :: _ => migrate_spec m
  | [] => by
    have hthrow : Triple (Active original timeout path true)
        (Prog.throw (.thrown noBootstrap) : M Ω Unit) (fun _ => Active original timeout path true)
        (fun _ c => Broken original timeout path true c ∨ Granted c) :=
      Triple.throw fun _ h => Or.inl h.broken
    exact statements_spec hthrow

/-- A query between the transactions. -/
theorem query_spec {q : Query Ω} (hq : q = .regclass ∨ ∃ name, q = .applied name) :
    Triple (Idle original timeout path true) (send script q)
      (fun _ => Idle original timeout path true)
      (fun _ c => Idle original timeout path true c ∨ Lost c) := by
  have hidle : Triple (Idle original timeout path true) (send script q)
      (fun _ => Idle original timeout path true) (fun _ => Idle original timeout path true) := by
    rcases hq with rfl | ⟨name, rfl⟩
    · exact idle_spec rfl (fun _ => rfl) fun _ _ _ => id
    · exact idle_spec rfl (fun _ => rfl) fun _ _ _ => id
  exact hidle.imp_error fun _ _ h => Or.inl h

theorem applyLineage_spec (lineage : List (Migration Ω)) :
    Triple (Idle original timeout path true) (applyLineage script lineage)
      (fun _ => Idle original timeout path true)
      (fun _ c => Idle original timeout path true c ∨ Lost c) := by
  have hloop : Triple (Idle original timeout path true)
      (Prog.forEach (applyMigration script) lineage.tail)
      (fun _ => Idle original timeout path true)
      (fun _ c => Idle original timeout path true c ∨ Lost c) := by
    refine Triple.forEach fun m _ => ?_
    refine (query_spec (Or.inr ⟨m.name, rfl⟩)).bind fun applied => ?_
    rcases applied with _ | _
    · exact migrate_spec m
    · exact Triple.ret fun _ h => h
  refine (query_spec (Or.inl rfl)).bind fun bootstrapped => ?_
  rcases bootstrapped with _ | _
  · exact (bootstrap_spec lineage).bind fun _ => hloop
  · exact hloop

theorem setPath_spec {path' : List JsString} : Triple (Idle original timeout path held)
    (send script (.setSearchPath path' : Query Ω)) (fun _ => Idle original timeout path' held)
    (fun _ => Idle original timeout path held) := by
  rintro c ⟨hkept, hheld, hsession⟩
  refine kept_triple (fun _ => id) ?_ ?_ c ⟨hkept, hheld, hsession⟩
  · intro c hkept hheld hs
    exact ⟨hkept, hheld, (Option.some.inj hs).symm⟩
  · intro c late hkept hheld hs
    exact ⟨hkept, hheld, hs⟩

/-- `RESET search_path` puts back the search path of the pool, or leaves another one. -/
theorem reset_spec : Triple (Idle original timeout path true)
    (do let _ ← send script (.resetSearchPath : Query Ω))
    (fun _ => Idle original timeout original true)
    (fun _ c => Idle original timeout original true c ∨ Moved original c) := by
  refine Triple.bind (send_triple ?_ ?_) fun _ => Triple.ret fun _ h => h
  · rintro c s answer ⟨hkept, hheld, hsession⟩ hs
    rw [hsession] at hs
    obtain rfl := Option.some.inj hs
    refine ⟨kept_append hkept ?_, hheld, rfl⟩
    rintro ⟨h, -⟩
    cases h
  · rintro c e late ⟨hkept, hheld, hsession⟩
    rw [hsession]
    by_cases hpath : path = original
    · subst hpath
      exact Or.inl ⟨kept_append hkept fun h => h.2 rfl, hheld, rfl⟩
    · exact Or.inr ⟨leaked_append.mpr (Or.inr ⟨rfl, hpath⟩), hpath⟩

/-- In an aborted transaction it fails too, and it does not touch the lock. -/
theorem reset_lost_spec : Triple Lost (do let _ ← send script (.resetSearchPath : Query Ω))
    (fun _ => Lost) (fun _ => Lost) := by
  refine Triple.bind (send_triple ?_ ?_) fun _ => Triple.ret fun _ h => h
  · rintro c s answer ⟨hleaked, ⟨path, hfailed⟩ | hgranted⟩ hs
    · exact absurd hfailed ((Session.serve_cleanup (Or.inl rfl) hs).2 path)
    · obtain ⟨rfl, -⟩ := Session.serve_cleanup (Or.inl rfl) hs
      exact ⟨leaked_append.mpr (Or.inl hleaked), Or.inr hgranted⟩
  · rintro c e late ⟨hleaked, ⟨path, hfailed⟩ | ⟨hheld, hlocked⟩⟩
    · refine ⟨leaked_append.mpr (Or.inl hleaked), Or.inl ⟨path, ?_⟩⟩
      rw [Session.fail_resetSearchPath, Session.abort_failed hfailed]
      exact hfailed
    · refine ⟨leaked_append.mpr (Or.inl hleaked), Or.inr ⟨hheld, ?_⟩⟩
      rw [Session.fail_resetSearchPath, Session.abort_locks]
      exact hlocked

/-! ### The release -/

variable (original timeout) in
/-- When the connection is released. -/
def Final (c : Call Ω) : Prop :=
  Session.Clean (.pooled original timeout) c.session ↔ ¬Leaked c

theorem unlockIfHeld_spec {P R : Call Ω → Prop}
    (hheld : Triple (fun c => P c ∧ c.lockHeld = true) (send script (.unlock : Query Ω))
      (fun _ => R) (fun _ => R)) (hfree : ∀ c, P c → c.lockHeld = false → R c) :
    Triple P (unlockIfHeld script) (fun _ => R) (fun _ => R) := by
  intro c hc
  unfold unlockIfHeld
  rcases hl : c.lockHeld with _ | _
  · rw [if_neg Bool.false_ne_true]
    exact hfree c hc hl
  · rw [if_pos rfl]
    exact hheld.bind (fun _ => Triple.ret fun _ h => h) c ⟨hc, hl⟩

theorem unlock_spec : Triple (Idle original timeout original held) (unlockIfHeld script : M Ω Unit)
    (fun _ => Final original timeout) (fun _ => Final original timeout) := by
  refine unlockIfHeld_spec (send_triple ?_ ?_) ?_
  · rintro c s answer ⟨⟨hkept, hheld, hsession⟩, hl⟩ hs
    obtain rfl := hheld.symm.trans hl
    rw [hsession] at hs
    obtain rfl := Option.some.inj hs
    exact iff_of_true ⟨rfl, rfl, rfl, rfl⟩ (kept_append hkept (by rintro ⟨⟩))
  · rintro c e late ⟨⟨hkept, hheld, hsession⟩, hl⟩
    obtain rfl := hheld.symm.trans hl
    rw [hsession]
    rcases late with _ | _
    · refine iff_of_false ?_ (not_not.mpr (leaked_append.mpr (Or.inr rfl)))
      rintro ⟨hlocks, -⟩
      exact Nat.one_ne_zero hlocks
    · exact iff_of_true ⟨rfl, rfl, rfl, rfl⟩ (kept_append hkept (by rintro ⟨⟩))
  · rintro c ⟨hkept, hheld, hsession⟩ hl
    obtain rfl := hheld.symm.trans hl
    rw [Final, hsession]
    exact iff_of_true ⟨rfl, rfl, rfl, rfl⟩ hkept

theorem Lost.final {c : Call Ω} (h : Lost c) : Final original timeout c := by
  refine iff_of_false (fun hclean => ?_) (not_not.mpr h.leaked)
  rcases h.stuck with ⟨path, hfailed⟩ | ⟨-, hlocked⟩
  · rw [hclean.idle] at hfailed
    cases hfailed
  · rw [hclean.unlocked] at hlocked
    exact Nat.lt_irrefl 0 hlocked

theorem Moved.final {c : Call Ω} (h : Moved original c) : Final original timeout c :=
  iff_of_false (fun hclean => h.searchPath hclean.searchPath) (not_not.mpr h.leaked)

theorem unlock_lost_spec : Triple Lost (unlockIfHeld script : M Ω Unit)
    (fun _ => Final original timeout) (fun _ => Final original timeout) := by
  refine unlockIfHeld_spec (send_triple ?_ ?_) fun _ h _ => h.final
  · rintro c s answer ⟨⟨-, ⟨path, hfailed⟩ | ⟨hheld, -⟩⟩, hl⟩ hs
    · exact absurd hfailed ((Session.serve_cleanup (Or.inr rfl) hs).2 path)
    · rw [hheld] at hl
      cases hl
  · rintro c e late ⟨⟨hleaked, ⟨path, hfailed⟩ | ⟨hheld, -⟩⟩, hl⟩
    · rw [Session.fail_unlock_failed hfailed]
      exact Lost.final ⟨leaked_append.mpr (Or.inl hleaked), Or.inl ⟨path, hfailed⟩⟩
    · rw [hheld] at hl
      cases hl

theorem unlock_moved_spec : Triple (Moved original) (unlockIfHeld script : M Ω Unit)
    (fun _ => Final original timeout) (fun _ => Final original timeout) := by
  refine unlockIfHeld_spec (send_triple ?_ ?_) fun _ h _ => h.final
  · rintro c s answer ⟨⟨hleaked, hpath⟩, -⟩ hs
    obtain ⟨rfl, -⟩ := Session.serve_cleanup (Or.inr rfl) hs
    exact Moved.final ⟨leaked_append.mpr (Or.inl hleaked), hpath⟩
  · rintro c e late ⟨⟨hleaked, hpath⟩, -⟩
    refine Moved.final ⟨leaked_append.mpr (Or.inl hleaked), ?_⟩
    rw [Session.fail_unlock_searchPath]
    exact hpath

/-- Setting the search path, the lineage, and the first clean-up. -/
theorem applyWithPath_spec (opts : RunMigrationsOptions Ω) :
    Triple (Idle original timeout original true)
      (do
        let _ ← send script (.setSearchPath [opts.schema, ascii "public"])
        Prog.tryFinally (applyLineage script opts.migrations)
          (do let _ ← send script .resetSearchPath))
      (fun _ => Idle original timeout original true)
      (fun _ c => Idle original timeout original true c ∨ Lost c ∨ Moved original c) := by
  refine Triple.bind (setPath_spec.imp_error fun _ _ h => Or.inl h)
    fun _ => (applyLineage_spec opts.migrations).tryFinally (fun _ => ?_) fun _ => Triple.or ?_ ?_
  · exact reset_spec.imp_error fun _ _ h => h.imp_right Or.inr
  · exact reset_spec.imp (fun _ _ h => Or.inl h) fun _ _ h => h.imp_right Or.inr
  · exact reset_lost_spec.imp (fun _ _ h => Or.inr (Or.inl h))
      fun _ _ h => Or.inr (Or.inl h)

theorem runMigrationsImpl_spec (opts : RunMigrationsOptions Ω) :
    Triple (Idle original timeout original false) (runMigrationsImpl script opts)
      (fun _ => Final original timeout) (fun _ => Final original timeout) := by
  have hcall : Triple (Idle original timeout original false) (migrateReserved script opts)
      (fun _ => Idle original timeout original true)
      (fun _ c => (Idle original timeout original false c ∨ Idle original timeout original true c) ∨
        Lost c ∨ Moved original c) := by
    unfold migrateReserved
    rcases timeoutSetting defaultMigrationLockTimeoutMs opts.migrationLockTimeoutMs with _ | bound
    · exact Triple.throw fun _ h => Or.inl (Or.inl h)
    · refine Triple.bind (acquire_spec.imp_error ?_) fun _ =>
        (applyWithPath_spec opts).imp_error ?_
      · rintro _ c (h | h | h)
        · exact Or.inl (Or.inl h)
        · exact Or.inl (Or.inr h)
        · exact Or.inr (Or.inl h)
      · rintro _ c (h | h)
        · exact Or.inl (Or.inr h)
        · exact Or.inr h
  exact hcall.tryFinally (fun _ => unlock_spec) fun _ =>
    (unlock_spec.or unlock_spec).or (unlock_lost_spec.or unlock_moved_spec)

end Specs

/-- **When the connection is clean after the call.** -/
theorem clean_iff (script : ℕ → Outcome) (opts : RunMigrationsOptions Ω) (searchPath : List JsString)
    (lockTimeout : ℕ) :
    (Session.pooled searchPath lockTimeout).Clean
        (runMigrationsImpl script opts (.reserve (.pooled searchPath lockTimeout))).2.session ↔
      ∀ step ∈ (runMigrationsImpl script opts (.reserve (.pooled searchPath lockTimeout))).2.sent,
        ¬Leaks step := by
  have hstart : Idle searchPath lockTimeout searchPath false
      (Call.reserve (.pooled searchPath lockTimeout) : Call Ω) := by
    refine ⟨?_, rfl, rfl⟩
    rintro ⟨step, hstep, -⟩
    exact List.not_mem_nil hstep
  have hfinal := (@runMigrationsImpl_spec Ω script searchPath lockTimeout opts _ hstart).snd
  rw [Final] at hfinal
  rw [hfinal, Leaked]
  simp only [not_exists, not_and]

/-! ### A grant that is not answered -/

/-- The third statement, `pg_advisory_lock`, is cancelled after the grant. -/
def cancelledGrant (i : ℕ) : Outcome :=
  if i = 2 then .fails (.error ⟨"PostgresError", "canceling statement due to user request",
    some "57014", some "ERROR", none⟩) true
  else .done true

/-- The migrations of a wallet, without their statements. -/
def walletOptions : RunMigrationsOptions Unit where
  schema := ascii "umbradb"
  migrations := (tier1WalletMigrations [] [] [] [] [] []).all
  migrationLockTimeoutMs := none

/-- The connection goes back to the pool with the lock. -/
theorem lock_not_released :
    (runMigrationsImpl cancelledGrant walletOptions
        (.reserve (.pooled [ascii "umbradb"] 30000))).2.session =
      { Session.pooled [ascii "umbradb"] 30000 with locks := 1 } ∧
    ¬(Session.pooled [ascii "umbradb"] 30000).Clean
      (runMigrationsImpl cancelledGrant walletOptions
        (.reserve (.pooled [ascii "umbradb"] 30000))).2.session := by
  have hsession : (runMigrationsImpl cancelledGrant walletOptions
      (.reserve (.pooled [ascii "umbradb"] 30000))).2.session =
      { Session.pooled [ascii "umbradb"] 30000 with locks := 1 } := by
    decide +kernel
  refine ⟨hsession, fun hclean => ?_⟩
  have hunlocked := hclean.unlocked
  rw [hsession] at hunlocked
  exact Nat.one_ne_zero hunlocked

end UmbraDB.Migrate.Cleanup
