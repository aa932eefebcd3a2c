import UmbraDB.Kv.Rows

/-! # The errors of the adapters, and their translation

What client code can throw (`Thrown`), the predicates by which the layer tells errors of the driver
from others, and `translatePostgresError`, through which every adapter passes what its statements
reject with. An `Error` is given by its class, if that is one the code looks for, and by the
properties it reads. -/

namespace UmbraDB.Tx.Errors

open UmbraDB.Kv.Rows

/-- The properties of an `Error`; `code`, `severity` and `constraintName` only when they are
strings. -/
structure ErrorObject where
  name : String
  message : String
  code : Option String
  severity : Option String
  constraintName : Option String
  deriving DecidableEq

inductive FaultKind
  | connectionLost
  | serializationFailure
  | deadlock
  | timeout
  | unknown
  deriving DecidableEq

inductive TransactionRollbackCause
  | callbackRequested (reason : Option String)
  | constraintViolation (code : String) (detail : Option String)
  deriving DecidableEq

mutual

/-- The subclasses of `StorageError` that `translatePostgresError` and `withTransaction` construct,
and any other. -/
inductive StorageError
  | connection (message : String) (cause : ErrorObject)
  | transactionFault (message : String) (faultKind : FaultKind) (cause : Thrown)
  | transactionRolledBack (rollbackCause : TransactionRollbackCause)
  | transactionKeyReuse (context : KvKey)
  | exclusionViolation (message : String) (cause : ErrorObject)
  | clockRegression (message : String) (cause : ErrorObject)
  | chainArchiveInvariant (message constraintName : String) (cause : ErrorObject)
  | chainArchiveCheckViolation (message constraintName : String) (cause : ErrorObject)
  | unrecognizedPostgres (message : String) (cause : ErrorObject)
  | other (error : ErrorObject)

/-- What a `throw` can throw. -/
inductive Thrown
  /-- A `Rollback`. -/
  | rollback (rollbackCause : TransactionRollbackCause)
  | storage (error : StorageError)
  /-- Any other `Error`, those of the driver among them. -/
  | error (error : ErrorObject)
  /-- No `Error` at all, given by its `String(…)`. -/
  | value (text : String)

end

/-- The `code` of the class. -/
def StorageError.code : StorageError → Option String
  | .connection _ _ => some "CONNECTION_ERROR"
  | .transactionFault _ _ _ => some "TRANSACTION_FAULT"
  | .transactionRolledBack _ => some "TRANSACTION_ROLLED_BACK"
  | .transactionKeyReuse _ => some "TRANSACTION_KEY_REUSE"
  | .exclusionViolation _ _ => some "EXCLUSION_VIOLATION"
  | .clockRegression _ _ => some "CLOCK_REGRESSION"
  | .chainArchiveInvariant _ _ _ => some "CHAIN_ARCHIVE_INVARIANT_VIOLATION"
  | .chainArchiveCheckViolation _ _ _ => some "CHAIN_ARCHIVE_CHECK_VIOLATION"
  | .unrecognizedPostgres _ _ => some "UNRECOGNIZED_POSTGRES_ERROR"
  | .other e => e.code

/-- None of the classes has a `severity`. -/
def StorageError.severity : StorageError → Option String
  | .other e => e.severity
  | _ => none

def Thrown.code : Thrown → Option String
  | .storage e => e.code
  | .error e => e.code
  | .rollback _ => none
  | .value _ => none

def Thrown.severity : Thrown → Option String
  | .storage e => e.severity
  | .error e => e.severity
  | .rollback _ => none
  | .value _ => none

/-- `CONNECTION_FAILURE_CODES`. -/
def connectionFailureCodes : List String :=
  ["ECONNREFUSED", "ENOTFOUND", "ETIMEDOUT", "ECONNRESET", "CONNECTION_CLOSED", "CONNECT_TIMEOUT",
    "CONNECTION_ENDED", "CONNECTION_DESTROYED", "08000", "08001", "08003", "08004", "08006",
    "08007", "08P01", "28000", "28P01", "57P01", "57P02", "57P03"]

/-- The code of a connection failure. -/
def isConnectionCode : Option String → Bool
  | some code => connectionFailureCodes.contains code
  | none => false

def isPgDriverError (err : Thrown) : Bool :=
  err.code.isSome && (err.severity.isSome || isConnectionCode err.code)

def isConnectionFailure (err : Thrown) : Bool := isPgDriverError err && isConnectionCode err.code

def isStatementTimeout (err : Thrown) : Bool := isPgDriverError err && err.code == some "57014"

def isLockTimeout (err : Thrown) : Bool := isPgDriverError err && err.code == some "55P03"

/-- `CHAIN_ARCHIVE_INVARIANT_CONSTRAINT_NAMES`. -/
def chainArchiveInvariantConstraintNames : List String :=
  ["chain_blob_roles_completeness", "blocks_finalized_monotonic", "chain_blob_roles_removal_guard"]

/-- `CHAIN_ARCHIVE_CHECK_TABLE_PREFIXES`. -/
def chainArchiveCheckTablePrefixes : List String :=
  ["blocks_", "transactions_", "bridge_observations_", "chain_blobs_", "chain_blob_roles_",
    "verifier_key_observations_"]

def isChainArchiveCheckConstraintName (constraintName : String) : Bool :=
  chainArchiveCheckTablePrefixes.any fun p => p.toList.isPrefixOf constraintName.toList

/-- The `23514` branch of the translation. -/
def translateCheckViolation (e : ErrorObject) : StorageError :=
  match e.constraintName with
  | none => .clockRegression e.message e
  | some constraintName =>
    if chainArchiveInvariantConstraintNames.contains constraintName then
      .chainArchiveInvariant e.message constraintName e
    else if isChainArchiveCheckConstraintName constraintName then
      .chainArchiveCheckViolation e.message constraintName e
    else .clockRegression e.message e

/-- The translation of an error of the driver, by its code. -/
def translateDriverError (e : ErrorObject) (keyContext : Option KvKey) : StorageError :=
  if isConnectionCode e.code then .connection e.message e
  else if e.code = some "UB001" then
    match keyContext with
    | some context => .transactionKeyReuse context
    | none =>
      .exclusionViolation ("transaction key reuse (UB001) with no key context: " ++ e.message) e
  else if e.code = some "23P01" then .exclusionViolation e.message e
  else if e.code = some "23514" then translateCheckViolation e
  else if e.code = some "40001" then
    .transactionFault ("serialization failure: " ++ e.message) .serializationFailure (.error e)
  else if e.code = some "40P01" then
    .transactionFault ("deadlock detected: " ++ e.message) .deadlock (.error e)
  else .unrecognizedPostgres e.message e

def translatePostgresError (err : Thrown) (keyContext : Option KvKey) : Thrown :=
  match err with
  | .storage e => .storage e
  | .rollback c => .rollback c
  | .error e =>
    if isPgDriverError (.error e) then .storage (translateDriverError e keyContext) else .error e
  | .value text => .error ⟨"Error", text, none, none, none⟩

/-! ### The classes of the layer itself -/

/-- A class of the layer: its code is one of its own, and it has no severity. -/
def StorageError.Own (e : StorageError) : Prop := ∀ x, e ≠ .other x

/-- **The layer's own errors are never taken for errors of the driver.** -/
theorem isPgDriverError_own {e : StorageError} (h : e.Own) :
    isPgDriverError (.storage e) = false := by
  cases e with
  | other x => exact absurd rfl (h x)
  | _ => rfl

/-- A translated error is one of the layer's own. -/
theorem translateDriverError_own (e : ErrorObject) (keyContext : Option KvKey) :
    (translateDriverError e keyContext).Own := by
  intro x
  unfold translateDriverError translateCheckViolation
  repeat' split
  all_goals simp

theorem isStatementTimeout_own {e : StorageError} (h : e.Own) :
    isStatementTimeout (.storage e) = false := by
  rw [isStatementTimeout, isPgDriverError_own h, Bool.false_and]

theorem isConnectionFailure_own {e : StorageError} (h : e.Own) :
    isConnectionFailure (.storage e) = false := by
  rw [isConnectionFailure, isPgDriverError_own h, Bool.false_and]

end UmbraDB.Tx.Errors
