import UmbraDB.Kv.Rows
import UmbraDB.Lib.RowStore
import UmbraDB.Lib.Runs

/-! # Temporal key-value store: interleaved puts

Any number of transactions, each with any number of `put` calls whose statements are interleaved in
any way. A transaction has one connection, which runs one statement at a time (`busy`). A put that
is called without a transaction is one in a transaction of its own.

A call sends its statement (`start`: the statement snapshot is taken and the column default is
computed), the statement gets the row lock and runs (`exec`), and if it touched no row the call
reads the key again (`reread`) and throws `VersionConflictError`. Where PostgreSQL does not wait,
`start` already decides: a guarded `UPDATE` that does not find its version in the snapshot touches
no row. When it does find it and has to wait, the predicate is evaluated again on the newest
version, and the row stays locked even if it then fails. An error of a statement leaves the
transaction `failed`: it can only be rolled back.

`log` is the list of the puts of the committed transactions, in the order of the commits; no
definition of the store reads it. -/

namespace UmbraDB.Kv.System

open UmbraDB.Lib.RowStore UmbraDB.Lib.Runs UmbraDB.Kv.Rows

variable {V : Type}

/-- A put that wrote its version: the call, its transaction, what it was given and the `writtenAt`
it returned. -/
structure Put (V : Type) where
  call : ℕ
  tx : ℕ
  key : KvKey
  value : V
  expected : Option ℕ
  writtenAt : ℤ
  deriving DecidableEq

inductive Status
  | idle
  | active
  | failed
  | committed
  | rolledBack
  deriving DecidableEq

/-- A transaction: the call whose statement its connection is running, and the puts that wrote. -/
structure Tx (V : Type) where
  status : Status
  busy : Option ℕ
  puts : List (Put V)

def Tx.idle : Tx V := ⟨.idle, none, []⟩

/-- How far a call is. `created`, `conflict` and `failed` are its results: the entry returned, a
`VersionConflictError(expected, actual)`, or a translated error of the server. -/
inductive Phase
  | called
  | executing (defaultAt : ℤ)
  | rereading
  | created (version : ℕ) (writtenAt : ℤ)
  | conflict (expected : ℕ) (actual : Option ℕ)
  | failed (err : PgError)
  deriving DecidableEq

/-- A `put` call. -/
structure Call (V : Type) where
  tx : ℕ
  key : KvKey
  value : Option V
  expected : Option ℕ
  phase : Phase

structure KvState (V : Type) where
  rows : Table ℕ KvKey (KvRows V)
  txs : ℕ → Tx V
  calls : ℕ → Option (Call V)
  log : List (Put V)

/-- Empty tables, no transaction, no call. -/
def KvState.init : KvState V := ⟨Table.fresh fun _ => .empty, fun _ => .idle, fun _ => none, []⟩

inductive Ev (V : Type)
  | begin (t : ℕ)
  | call (c t : ℕ) (key : KvKey) (value : Option V) (expected : Option ℕ)
  | start (c : ℕ) (clock : ℤ)
  | exec (c : ℕ) (clock : ℤ)
  | reread (c : ℕ)
  | commit (t : ℕ)
  | rollback (t : ℕ)

def KvState.setTx (s : KvState V) (t : ℕ) (x : Tx V) : KvState V :=
  { s with txs := Function.update s.txs t x }

def KvState.setPhase (s : KvState V) (c : ℕ) (call : Call V) (p : Phase) : KvState V :=
  { s with calls := Function.update s.calls c (some { call with phase := p }) }

/-- The version of the key that the statements of `t` see, `0` when they see none. -/
def KvState.visibleVersion (s : KvState V) (t : ℕ) (k : KvKey) : ℕ :=
  currentVersion (s.rows.view t k)

/-- The guarded `UPDATE` finds its row in the statement snapshot; the two inserts need none. -/
def inSnapshot (expected : Option ℕ) (rows : KvRows V) : Bool :=
  match expected with
  | some (e + 1) => versionMatches (e + 1) rows
  | _ => true

/-- The statement of the call is sent. -/
def startStep (s : KvState V) (c : ℕ) (clock : ℤ) (call : Call V) : Option (KvState V) :=
  let x := s.txs call.tx
  if call.phase = .called ∧ x.busy = none then
    match x.status with
    | .active =>
      if inSnapshot call.expected (s.rows.view call.tx call.key) then
        some ((s.setPhase c call (.executing clock)).setTx call.tx { x with busy := some c })
      else some (s.setPhase c call .rereading)
    | .failed => some (s.setPhase c call (.failed .inFailedTransaction))
    | _ => none
  else none

/-- A guarded `UPDATE` keeps the lock of a row it waited for; a skipped insert takes none. -/
def lockSkipped (s : KvState V) (call : Call V) : Table ℕ KvKey (KvRows V) :=
  match call.expected with
  | some (_ + 1) => s.rows.write call.tx call.key (s.rows.view call.tx call.key)
  | _ => s.rows

/-- The statement of the call has the row lock and runs. -/
def execStep (s : KvState V) (c : ℕ) (clock : ℤ) (call : Call V) : Option (KvState V) :=
  let x := s.txs call.tx
  match call.phase with
  | .executing defaultAt =>
    if x.status = .active ∧ x.busy = some c ∧ s.rows.free call.tx call.key = true then
      match putRow call.tx defaultAt clock call.expected call.value
          (s.rows.view call.tx call.key), call.value with
      | .wrote rows version writtenAt, some v =>
        some { (s.setPhase c call (.created version writtenAt)).setTx call.tx
            { x with busy := none,
                     puts := x.puts ++ [⟨c, call.tx, call.key, v, call.expected, writtenAt⟩] } with
          rows := s.rows.write call.tx call.key rows }
      | .noRows, _ =>
        some { (s.setPhase c call .rereading).setTx call.tx { x with busy := none } with
          rows := lockSkipped s call }
      | .raised e, _ =>
        some ((s.setPhase c call (.failed e)).setTx call.tx
          { x with busy := none, status := .failed })
      -- no statement writes a top-level null
      | .wrote _ _ _, none => none
    else none
  | _ => none

/-- The re-read of a call that touched no row. It may run after the transaction has ended. -/
def rereadStep (s : KvState V) (c : ℕ) (call : Call V) : Option (KvState V) :=
  let x := s.txs call.tx
  if call.phase = .rereading ∧ x.busy = none then
    if x.status = .failed then some (s.setPhase c call (.failed .inFailedTransaction))
    else
      some (s.setPhase c call (.conflict (call.expected.getD 0)
        ((s.rows.view call.tx call.key).current.map (·.version))))
  else none

def step (s : KvState V) : Ev V → Option (KvState V)
  | .begin t =>
    if (s.txs t).status = .idle then some (s.setTx t { s.txs t with status := .active })
    else none
  | .call c t key value expected =>
    match s.calls c with
    | none =>
      if (s.txs t).status = .active ∨ (s.txs t).status = .failed then
        some (s.setPhase c ⟨t, key, value, expected, .called⟩ .called)
      else none
    | some _ => none
  | .start c clock => (s.calls c).bind (startStep s c clock)
  | .exec c clock => (s.calls c).bind (execStep s c clock)
  | .reread c => (s.calls c).bind (rereadStep s c)
  | .commit t =>
    if (s.txs t).status = .active ∧ (s.txs t).busy = none then
      some { s.setTx t ⟨.committed, none, []⟩ with
        rows := s.rows.commit t, log := s.log ++ (s.txs t).puts }
    else none
  | .rollback t =>
    if (s.txs t).status = .active ∨ (s.txs t).status = .failed then
      some { s.setTx t ⟨.rolledBack, none, []⟩ with rows := s.rows.rollback t }
    else none

/-- The states reached by some interleaving. -/
abbrev Reachable (s : KvState V) : Prop := Reach step KvState.init s

end UmbraDB.Kv.System
