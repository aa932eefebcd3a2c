import UmbraDB.Tx.Errors

/-! # How `withTransaction` classifies faults

`fn` awaits statements on its handle and calls of adapters, which await statements of their own and
pass what they catch through `translatePostgresError`. The first rejection ends `fn`, so it rejects
with an error of the driver, with what an adapter made of one, or with something that was thrown
(`Origin`). The catch block of `withTransaction` sees only the value (`catchBlock`).

The driver's `begin` is a parameter: the outcome of its callback goes in, the outcome of the promise
comes out. It is used for one thing, that a rejection of the callback is the rejection of the
promise.

`Classified` is the contract of the interface. An error of a statement awaited in `fn` itself meets
it if it is one of the four kinds of fault. One that an adapter has translated meets it unless it
was a timeout or a connection failure, which are recognised by their codes only, and the translated
error has another. -/

namespace UmbraDB.Tx.Faults

open UmbraDB.Kv.Rows UmbraDB.Tx.Errors

variable {R B A : Type}

/-! ### `fn` and what it rejects with -/

/-- An error that a statement is rejected with. The server sends a severity with each of its errors;
only the driver's own have none, and their codes are no SQLSTATE. -/
structure DriverError where
  error : ErrorObject
  severity : error.code = some "57014" ∨ error.code = some "40001" ∨ error.code = some "40P01" →
    error.severity.isSome = true

/-- The adapter calls that take a handle. -/
inductive Adapter
  /-- `put`, `get` and `getAt` of the key-value store. -/
  | kv (key : KvKey)
  | listKeys
  /-- `set` and `get` of the watermarks. -/
  | watermarks
  /-- `getAll`, `get` and `got*` of the transaction history. -/
  | history
  /-- `save` of the checkpoint store. -/
  | save

/-- The context that the catch block of the adapter passes to the translation. -/
def Adapter.keyContext : Adapter → Option KvKey
  | .kv key => some key
  | _ => none

/-- The body of an adapter call: it awaits statements one after the other, and returns or throws. -/
inductive Body (R B : Type)
  | done (result : B)
  | throw (err : Thrown)
  | send (next : R → Body R B)

/-- A callback `fn` whose rejections propagate. -/
inductive Fn (R B A : Type)
  | done (result : A)
  | throw (err : Thrown)
  /-- A statement on the handle. -/
  | statement (next : R → Fn R B A)
  | call (a : Adapter) (body : Body R B) (next : B → Fn R B A)

/-- Where a rejection of `fn` comes from. -/
inductive Origin
  | raw (e : DriverError)
  | adapter (a : Adapter) (e : DriverError)
  | thrown (err : Thrown)

/-- What `fn` rejects with. -/
def Origin.value : Origin → Thrown
  | .raw e => .error e.error
  | .adapter a e => translatePostgresError (.error e.error) a.keyContext
  | .thrown err => err

/-- The body with the answers to the statements from the `n`-th on; the number of the next one is
returned with the result. -/
def Body.run (answer : ℕ → Except DriverError R) :
    Body R B → ℕ → Except (DriverError ⊕ Thrown) (B × ℕ)
  | .done result, n => .ok (result, n)
  | .throw err, _ => .error (.inr err)
  | .send next, n =>
    match answer n with
    | .ok r => (next r).run answer (n + 1)
    | .error e => .error (.inl e)

def Fn.run (answer : ℕ → Except DriverError R) : Fn R B A → ℕ → Except Origin A
  | .done result, _ => .ok result
  | .throw err, _ => .error (.thrown err)
  | .statement next, n =>
    match answer n with
    | .ok r => (next r).run answer (n + 1)
    | .error e => .error (.raw e)
  | .call a body next, n =>
    match body.run answer n with
    | .ok (b, n') => (next b).run answer n'
    | .error (.inl e) => .error (.adapter a e)
    | .error (.inr err) => .error (.thrown (translatePostgresError err a.keyContext))

/-! ### `withTransaction` -/

inductive Isolation
  | readCommitted
  | repeatableRead
  | serializable

/-- Options that passed `TransactionOptionsSchema`, and whether the signal is aborted. -/
structure TransactionOptions where
  isolation : Option Isolation
  timeoutMs : Option ℕ
  aborted : Bool
  valid : ∀ n, timeoutMs = some n → 0 < n ∧ n ≤ 2147483647

/-- `abortError`. -/
def abortError : Thrown :=
  .error ⟨"AbortError", "The operation was aborted", none, none, none⟩

/-- The callback of `begin`. The first statement of a transaction with a timeout sets it. -/
def txCallback (opts : TransactionOptions) (fn : Fn R B A) (answer : ℕ → Except DriverError R) :
    Except Origin A :=
  match opts.timeoutMs with
  | none => fn.run answer 0
  | some _ =>
    match answer 0 with
    | .ok _ => fn.run answer 1
    | .error e => .error (.raw e)

/-- Where the rejection comes from, if a transaction is begun and its callback rejects. -/
def rejection (opts : TransactionOptions) (fn : Fn R B A) (answer : ℕ → Except DriverError R) :
    Option Origin :=
  if opts.aborted then none
  else
    match txCallback opts fn answer with
    | .ok _ => none
    | .error origin => some origin

/-- The catch block. -/
def catchBlock (opts : TransactionOptions) (err : Thrown) : Thrown :=
  match err with
  | .rollback rollbackCause => .storage (.transactionRolledBack rollbackCause)
  | err =>
    match isStatementTimeout err, opts.timeoutMs with
    | true, some timeoutMs =>
      .storage (.transactionFault
        ("transaction exceeded its " ++ toString timeoutMs ++ "ms timeout") .timeout err)
    | _, _ =>
      if isConnectionFailure err then
        .storage (.transactionFault "connection lost during transaction" .connectionLost err)
      else translatePostgresError err none

def withTransaction (begin : Option Isolation → Except Thrown A → Except Thrown A)
    (opts : TransactionOptions) (fn : Fn R B A) (answer : ℕ → Except DriverError R) :
    Except Thrown A :=
  let outcome :=
    if opts.aborted then .error abortError
    else begin opts.isolation ((txCallback opts fn answer).mapError Origin.value)
  outcome.mapError (catchBlock opts)

/-! ### The contract -/

/-- The kind of fault that the contract names for an error of a statement. -/
def contractFault (opts : TransactionOptions) (e : DriverError) : Option FaultKind :=
  if e.error.code = some "57014" ∧ opts.timeoutMs.isSome = true then some .timeout
  else if isConnectionCode e.error.code = true then some .connectionLost
  else if e.error.code = some "40001" then some .serializationFailure
  else if e.error.code = some "40P01" then some .deadlock
  else none

/-- What the contract says of an error of a statement: a `TransactionFaultError` of its kind, and
otherwise what `fn` rejected with. -/
def FaultOf (opts : TransactionOptions) (e : DriverError) (value out : Thrown) : Prop :=
  match contractFault opts e with
  | some kind => ∃ message cause, out = .storage (.transactionFault message kind cause)
  | none => out = value

/-- The contract: what `withTransaction` rejects with when `fn` rejects. -/
def Classified (opts : TransactionOptions) (origin : Origin) (out : Thrown) : Prop :=
  match origin with
  | .raw e => FaultOf opts e origin.value out
  | .adapter _ e => FaultOf opts e origin.value out
  | .thrown (.rollback rollbackCause) => out = .storage (.transactionRolledBack rollbackCause)
  | .thrown err => out = err

/-- The rejections of `fn` for which the contract is met. -/
def Recognised (opts : TransactionOptions) : Origin → Prop
  | .raw e => (contractFault opts e).isSome = true ∨ isPgDriverError (.error e.error) = false
  | .adapter _ e => ¬ (e.error.code = some "57014" ∧ opts.timeoutMs.isSome = true) ∧
      isConnectionCode e.error.code = false
  | .thrown (.rollback _) => True
  | .thrown (.storage e) => isConnectionFailure (.storage e) = false ∧
      (opts.timeoutMs.isSome = true → isStatementTimeout (.storage e) = false)
  | .thrown (.error e) => isPgDriverError (.error e) = false
  | .thrown (.value _) => False

/-! ### The catch block -/

variable {opts : TransactionOptions}

/-- What is no error of the driver leaves the catch block as it came. -/
theorem catchBlock_other {e : ErrorObject} (h : isPgDriverError (.error e) = false) :
    catchBlock opts (.error e) = .error e := by
  have ht : isStatementTimeout (.error e) = false := by rw [isStatementTimeout, h, Bool.false_and]
  have hc : isConnectionFailure (.error e) = false := by rw [isConnectionFailure, h, Bool.false_and]
  simp only [catchBlock, ht, hc, translatePostgresError, h, Bool.false_eq_true, if_false]

/-- A storage error leaves the catch block as it came, unless it is taken for a timeout or a
connection failure. -/
theorem catchBlock_storage {e : StorageError} (hc : isConnectionFailure (.storage e) = false)
    (ht : opts.timeoutMs.isSome = true → isStatementTimeout (.storage e) = false) :
    catchBlock opts (.storage e) = .storage e := by
  unfold catchBlock
  simp only
  split
  · next timeoutMs ht' hs =>
    rw [ht (by rw [hs]; rfl)] at ht'
    cases ht'
  · simp only [hc, Bool.false_eq_true, if_false, translatePostgresError]

theorem catchBlock_own {e : StorageError} (h : e.Own) : catchBlock opts (.storage e) = .storage e :=
  catchBlock_storage (isConnectionFailure_own h) fun _ => isStatementTimeout_own h

/-- An error of the driver never leaves the catch block as it came. -/
theorem catchBlock_driver {e : ErrorObject} (h : isPgDriverError (.error e) = true) :
    ∃ e', catchBlock opts (.error e) = .storage e' := by
  unfold catchBlock
  simp only [translatePostgresError, h, if_true]
  split
  · exact ⟨_, rfl⟩
  · split_ifs <;> exact ⟨_, rfl⟩

/-- The code of a timeout or of the two faults of the shared table is no connection code, and comes
from the server. -/
theorem DriverError.isPgDriverError (e : DriverError)
    (h : e.error.code = some "57014" ∨ e.error.code = some "40001" ∨ e.error.code = some "40P01") :
    isPgDriverError (.error e.error) = true := by
  have hs := e.severity h
  have hc : e.error.code.isSome = true := by rcases h with h | h | h <;> rw [h] <;> rfl
  simp only [Errors.isPgDriverError, Thrown.code, Thrown.severity, hs, hc, Bool.true_or,
    Bool.and_true]

theorem isPgDriverError_connection {e : ErrorObject} (h : isConnectionCode e.code = true) :
    isPgDriverError (.error e) = true := by
  have hc : e.code.isSome = true := by
    rcases hcode : e.code with _ | code
    · rw [hcode] at h
      cases h
    · rfl
  simp only [Errors.isPgDriverError, Thrown.code, Thrown.severity, h, hc, Bool.or_true,
    Bool.and_true]

/-- The four kinds of fault, and what is known of the error of each. -/
theorem contractFault_cases (opts : TransactionOptions) (e : DriverError) :
    ((∃ n, opts.timeoutMs = some n) ∧ e.error.code = some "57014" ∧
      contractFault opts e = some .timeout) ∨
    (isConnectionCode e.error.code = true ∧ contractFault opts e = some .connectionLost) ∨
    (e.error.code = some "40001" ∧ contractFault opts e = some .serializationFailure) ∨
    (e.error.code = some "40P01" ∧ contractFault opts e = some .deadlock) ∨
    (¬ (e.error.code = some "57014" ∧ opts.timeoutMs.isSome = true) ∧
      isConnectionCode e.error.code = false ∧ contractFault opts e = none) := by
  unfold contractFault
  by_cases ht : e.error.code = some "57014" ∧ opts.timeoutMs.isSome = true
  · rw [if_pos ht]
    exact Or.inl ⟨Option.isSome_iff_exists.mp ht.2, ht.1, rfl⟩
  by_cases hc : isConnectionCode e.error.code = true
  · rw [if_neg ht, if_pos hc]
    exact Or.inr (Or.inl ⟨hc, rfl⟩)
  by_cases hs : e.error.code = some "40001"
  · rw [if_neg ht, if_neg hc, if_pos hs]
    exact Or.inr (Or.inr (Or.inl ⟨hs, rfl⟩))
  by_cases hd : e.error.code = some "40P01"
  · rw [if_neg ht, if_neg hc, if_neg hs, if_pos hd]
    exact Or.inr (Or.inr (Or.inr (Or.inl ⟨hd, rfl⟩)))
  rw [if_neg ht, if_neg hc, if_neg hs, if_neg hd]
  exact Or.inr (Or.inr (Or.inr (Or.inr ⟨ht, by simpa using hc, rfl⟩)))

/-- The two faults of the shared table are translated alike at both levels. -/
theorem translate_table {e : DriverError} (keyContext : Option KvKey) {kind : FaultKind}
    (h : e.error.code = some "40001" ∧ kind = .serializationFailure ∨
      e.error.code = some "40P01" ∧ kind = .deadlock) :
    ∃ message, translatePostgresError (.error e.error) keyContext =
      .storage (.transactionFault message kind (.error e.error)) := by
  have hd : isPgDriverError (.error e.error) = true :=
    e.isPgDriverError (Or.inr (h.imp And.left And.left))
  simp only [translatePostgresError, hd, if_true, translateDriverError]
  rcases h with ⟨hcode, rfl⟩ | ⟨hcode, rfl⟩
  · exact ⟨_, by simp only [hcode]; rfl⟩
  · exact ⟨_, by simp only [hcode]; rfl⟩

/-- An error of a statement awaited in `fn` itself, one of the four faults. -/
theorem catchBlock_fault {e : DriverError} {kind : FaultKind}
    (h : contractFault opts e = some kind) :
    ∃ message cause, catchBlock opts (.error e.error) =
      .storage (.transactionFault message kind cause) := by
  rcases contractFault_cases opts e with ⟨⟨n, hn⟩, hcode, hk⟩ | ⟨hcode, hk⟩ | ⟨hcode, hk⟩ |
    ⟨hcode, hk⟩ | ⟨-, -, hk⟩
  all_goals
    rw [hk] at h
    cases h
  · have ht : isStatementTimeout (.error e.error) = true := by
      rw [isStatementTimeout, e.isPgDriverError (Or.inl hcode), Thrown.code, hcode]
      rfl
    simp only [catchBlock, ht, hn]
    exact ⟨_, _, rfl⟩
  · have ht : isStatementTimeout (.error e.error) = false := by
      rw [isStatementTimeout, Thrown.code, Bool.and_eq_false_iff, beq_eq_false_iff_ne]
      refine Or.inr fun h' => ?_
      rw [h'] at hcode
      revert hcode
      decide
    have hc : isConnectionFailure (.error e.error) = true := by
      rw [isConnectionFailure, isPgDriverError_connection hcode, Thrown.code, hcode]
      rfl
    simp only [catchBlock, ht, hc, if_true]
    exact ⟨_, _, rfl⟩
  all_goals
    have ht : isStatementTimeout (.error e.error) = false := by
      rw [isStatementTimeout, Thrown.code, hcode, Bool.and_eq_false_iff]
      exact Or.inr (by decide)
    have hc : isConnectionFailure (.error e.error) = false := by
      rw [isConnectionFailure, Thrown.code, hcode, Bool.and_eq_false_iff]
      exact Or.inr (by decide)
    simp only [catchBlock, ht, hc, Bool.false_eq_true, if_false]
  · obtain ⟨message, hm⟩ := @translate_table e none _ (Or.inl ⟨hcode, rfl⟩)
    exact ⟨message, _, hm⟩
  · obtain ⟨message, hm⟩ := @translate_table e none _ (Or.inr ⟨hcode, rfl⟩)
    exact ⟨message, _, hm⟩

/-! ### Where the contract is met -/

/-- An error of a statement awaited in `fn` itself. -/
theorem classified_raw (e : DriverError) :
    Classified opts (.raw e) (catchBlock opts (.error e.error)) ↔ Recognised opts (.raw e) := by
  simp only [Classified, FaultOf, Recognised]
  rcases hk : contractFault opts e with _ | kind
  · simp only [Origin.value, Option.isSome_none, Bool.false_eq_true, false_or]
    constructor
    · intro h
      by_contra hd
      obtain ⟨e', he'⟩ := @catchBlock_driver opts _ (by simpa using hd)
      rw [he'] at h
      cases h
    · exact catchBlock_other
  · simp only [Option.isSome_some, true_or, iff_true]
    exact catchBlock_fault hk

/-- What an adapter made of an error of a statement goes through unchanged. -/
theorem catchBlock_translated (e : ErrorObject) (keyContext : Option KvKey) :
    catchBlock opts (translatePostgresError (.error e) keyContext) =
      translatePostgresError (.error e) keyContext := by
  rcases hd : isPgDriverError (.error e) with _ | _
  · simp only [translatePostgresError, hd, Bool.false_eq_true, if_false]
    exact catchBlock_other hd
  · simp only [translatePostgresError, hd, if_true]
    exact catchBlock_own (translateDriverError_own e keyContext)

/-- A timeout or a connection failure that an adapter has translated is no transaction fault. -/
theorem translated_not_fault {e : DriverError} {keyContext : Option KvKey} {message : String}
    {kind : FaultKind} {cause : Thrown}
    (h : e.error.code = some "57014" ∨ isConnectionCode e.error.code = true) :
    translatePostgresError (.error e.error) keyContext ≠
      .storage (.transactionFault message kind cause) := by
  have hd : isPgDriverError (.error e.error) = true :=
    h.elim (fun h => e.isPgDriverError (Or.inl h)) isPgDriverError_connection
  simp only [translatePostgresError, hd, if_true, translateDriverError]
  by_cases hc : isConnectionCode e.error.code = true
  · simp [hc]
  · have hcode : e.error.code = some "57014" := h.resolve_right hc
    simp [hcode, show isConnectionCode (some "57014") = false from by decide]

/-- An error of a statement that an adapter awaited. -/
theorem classified_adapter (a : Adapter) (e : DriverError) :
    Classified opts (.adapter a e) (catchBlock opts (Origin.adapter a e).value) ↔
      Recognised opts (.adapter a e) := by
  simp only [Classified, FaultOf, Recognised, Origin.value, catchBlock_translated]
  rcases contractFault_cases opts e with ⟨⟨n, hn⟩, hcode, hk⟩ | ⟨hcode, hk⟩ | ⟨hcode, hk⟩ |
    ⟨hcode, hk⟩ | ⟨hcode, hc, hk⟩
  · rw [hk]
    refine iff_of_false ?_ fun h => h.1 ⟨hcode, by rw [hn]; rfl⟩
    rintro ⟨message, cause, h⟩
    exact translated_not_fault (Or.inl hcode) h
  · rw [hk]
    refine iff_of_false ?_ fun h => by simp [hcode] at h
    rintro ⟨message, cause, h⟩
    exact translated_not_fault (Or.inr hcode) h
  · rw [hk, hcode]
    obtain ⟨message, hm⟩ := @translate_table e a.keyContext _ (Or.inl ⟨hcode, rfl⟩)
    exact iff_of_true ⟨message, _, hm⟩ ⟨by simp, by decide⟩
  · rw [hk, hcode]
    obtain ⟨message, hm⟩ := @translate_table e a.keyContext _ (Or.inr ⟨hcode, rfl⟩)
    exact iff_of_true ⟨message, _, hm⟩ ⟨by simp, by decide⟩
  · rw [hk]
    exact iff_of_true trivial ⟨hcode, hc⟩

/-- What `fn` threw itself. -/
theorem classified_thrown (err : Thrown) :
    Classified opts (.thrown err) (catchBlock opts err) ↔ Recognised opts (.thrown err) := by
  rcases err with c | e | e | text
  · exact iff_of_true rfl trivial
  · simp only [Classified, Recognised]
    constructor
    · -- the two branches before the translation construct an error of another class
      intro h
      by_cases ho : e.Own
      · exact ⟨isConnectionFailure_own ho, fun _ => isStatementTimeout_own ho⟩
      · obtain ⟨x, rfl⟩ : ∃ x, e = .other x := by simpa [StorageError.Own] using ho
        unfold catchBlock at h
        simp only at h
        split at h
        · cases h
        · next ht =>
          split_ifs at h with hc
          · cases h
          refine ⟨by simpa using hc, fun hs => ?_⟩
          obtain ⟨n, hn⟩ := Option.isSome_iff_exists.mp hs
          by_contra hst
          exact ht n (by simpa using hst) hn
    · rintro ⟨hc, ht⟩
      exact catchBlock_storage hc ht
  · simp only [Classified, Recognised]
    constructor
    · intro h
      by_contra hd
      obtain ⟨e', he'⟩ := @catchBlock_driver opts _ (by simpa using hd)
      rw [he'] at h
      cases h
    · exact catchBlock_other
  · refine iff_of_false ?_ not_false
    simp [Classified, catchBlock, isStatementTimeout, isConnectionFailure, isPgDriverError,
      Thrown.code, translatePostgresError]

/-- A cancelled statement. -/
def canceled : DriverError :=
  ⟨⟨"PostgresError", "canceling statement due to statement timeout", some "57014", some "ERROR",
    none⟩, fun _ => rfl⟩

/-- `timeoutMs: 1000`. -/
def oneSecond : TransactionOptions :=
  ⟨none, some 1000, false, by
    intro n hn
    cases hn
    decide⟩

/-- The timeout is set, and the next statement is cancelled. -/
def secondCanceled : ℕ → Except DriverError Unit
  | 0 => .ok ()
  | _ => .error canceled

end UmbraDB.Tx.Faults
