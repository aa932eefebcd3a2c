import UmbraDB.Lib.RowStore
import UmbraDB.Lib.Runs
import UmbraDB.Ths.Entry
import Mathlib.Data.Int.Notation

/-! # Transaction history: interleaved `got*` calls

Any number of calls of `writeOwnTransaction`, each in a transaction of its own at READ COMMITTED,
whose statements are interleaved in any way. A step is a statement of `writeRows`, or one row of its
`DELETE`.

* The advisory lock of `(walletId, hash)` is held to the end of the transaction. Two pairs may have
  the same lock.
* `SELECT … FOR UPDATE` waits for the row and reads its newest version. Nobody else can insert the
  row meanwhile, since the advisory lock is held, so where it does not wait it reads what is
  committed.
* The upsert keeps the row if there is one (`insertedBy`), else it inserts a new one.
* The pending-clear `DELETE` chooses its rows on the snapshot of the statement. It waits for each of
  them and evaluates the predicate again on the newest version; a row that fails it stays locked, a
  row that was deleted is skipped, also when a new one has its key.
* A rollback is possible at any moment. This covers the victim of a deadlock and every error; a
  merge that throws can do nothing else.

`log` is the list of the committed calls, in the order of the commits; no definition reads it. -/

namespace UmbraDB.Ths.Concurrent

open UmbraDB.Js.Text UmbraDB.Lib.RowStore UmbraDB.Lib.Runs UmbraDB.Ths.Entry

/-- `(wallet_id, tx_hash)`. -/
abbrev Key := JsString × JsString

/-- A row of `transaction_history`, without its key; the transaction that inserted it tells it from
an earlier or later row with the same key, and is `none` for a row of the initial table. -/
structure Row (C : Type) where
  entry : HistoryEntry C
  insertedBy : Option ℕ

/-- A call of `got*` on an instance with the wallet id; the entry has its lifecycle. -/
structure Call (C : Type) where
  walletId : JsString
  entry : HistoryEntry C
  deriving DecidableEq

variable {C : Type}

def Call.key (call : Call C) : Key := (call.walletId, call.entry.hash)

/-- Where `writeRows` is. -/
inductive Stage (C : Type)
  | begun
  /-- It has the advisory lock. -/
  | locked
  | selected (existing : Option (Row C))
  /-- The pending-clear `DELETE` is next. -/
  | upserted (result : HistoryEntry C)
  /-- The rows chosen by the `DELETE` and not yet looked at. -/
  | deleting (result : HistoryEntry C) (todo : List (Key × Option ℕ))
  | done (result : HistoryEntry C)

inductive Status
  | idle
  | running
  | committed
  | rolledBack
  deriving DecidableEq

structure Tx (C : Type) where
  status : Status
  call : Call C
  stage : Stage C

structure ThsState (C : Type) where
  rows : Table ℕ Key (Option (Row C))
  /-- The keys that ever had a row. -/
  keys : List Key
  /-- The holder of an advisory lock. -/
  locks : ℤ → Option ℕ
  txs : ℕ → Option (Tx C)
  log : List (Call C)

/-- The table before the calls. -/
structure InitialTable (C : Type) where
  rows : Key → Option (HistoryEntry C)
  keys : List Key
  complete : ∀ k e, rows k = some e → k ∈ keys

def ThsState.init (T : InitialTable C) : ThsState C :=
  ⟨.fresh fun k => (T.rows k).map fun e => ⟨e, none⟩, T.keys, fun _ => none, fun _ => none, []⟩

/-- What the calls run with: the schema of a merge result, the merge function, and `hashtext`. -/
structure Config (C : Type) where
  valid : HistoryEntry C → Bool
  mergeFn : MergeEntriesFn C
  hashtext : JsString → ℤ

/-- `hashtext(walletId || ':' || hash)`. -/
def lockOf (cfg : Config C) (k : Key) : ℤ := cfg.hashtext (k.1 ++ 58 :: k.2)

/-- The pending-clear predicate of a call with the result, on a row. -/
def clears (call : Call C) (result : HistoryEntry C) (k : Key) (e : HistoryEntry C) : Bool :=
  k.1 == call.walletId &&
    superseded result.hash result.identifiers k.2 e.lifecycle e.identifiers

def ThsState.setTx (s : ThsState C) (t : ℕ) (x : Tx C) : ThsState C :=
  { s with txs := Function.update s.txs t (some x) }

def noteKey (keys : List Key) (k : Key) : List Key := if keys.contains k then keys else keys ++ [k]

/-- `pg_advisory_xact_lock`. -/
def lockStep (cfg : Config C) (s : ThsState C) (t : ℕ) (x : Tx C) : Option (ThsState C) :=
  match x.stage, s.locks (lockOf cfg x.call.key) with
  | .begun, none =>
    some { s.setTx t { x with stage := .locked } with
      locks := Function.update s.locks (lockOf cfg x.call.key) (some t) }
  | _, _ => none

def selectStep (s : ThsState C) (t : ℕ) (x : Tx C) : Option (ThsState C) :=
  match x.stage with
  | .locked =>
    if s.rows.free t x.call.key then
      match s.rows.view t x.call.key with
      | none => some (s.setTx t { x with stage := .selected none })
      | some row =>
        some { s.setTx t { x with stage := .selected (some row) } with
          rows := s.rows.write t x.call.key (some row) }
    else none
  | _ => none

def upsertStep (cfg : Config C) (s : ThsState C) (t : ℕ) (x : Tx C) : Option (ThsState C) :=
  match x.stage with
  | .selected existing =>
    match mergeResult cfg.valid cfg.mergeFn (existing.map (·.entry)) x.call.entry with
    | .error _ => none
    | .ok result =>
      if s.rows.free t x.call.key then
        let insertedBy := ((s.rows.view t x.call.key).map (·.insertedBy)).getD (some t)
        let stage := if clearsPending result then .upserted result else .done result
        some { s.setTx t { x with stage := stage } with
          rows := s.rows.write t x.call.key (some ⟨result, insertedBy⟩)
          keys := noteKey s.keys x.call.key }
      else none
  | _ => none

/-- The rows the `DELETE` chooses. -/
def candidates (s : ThsState C) (t : ℕ) (call : Call C) (result : HistoryEntry C) :
    List (Key × Option ℕ) :=
  s.keys.filterMap fun k =>
    (s.rows.view t k).bind fun row =>
      if clears call result k row.entry then some (k, row.insertedBy) else none

/-- The `DELETE` comes to the row `k` that `row` inserted. -/
def deleteStep (s : ThsState C) (t : ℕ) (k : Key) (insertedBy : Option ℕ) (x : Tx C) :
    Option (ThsState C) :=
  match x.stage with
  | .deleting result todo =>
    if (todo.contains (k, insertedBy) && s.rows.free t k) = true then
      let s' := s.setTx t { x with stage := .deleting result (todo.erase (k, insertedBy)) }
      match s.rows.view t k with
      | none => some s'
      | some row =>
        if row.insertedBy ≠ insertedBy then some s'
        else if clears x.call result k row.entry then some { s' with rows := s.rows.write t k none }
        -- the newest version does not match any more; it stays locked
        else some { s' with rows := s.rows.write t k (some row) }
    else none
  | _ => none

/-- The advisory locks of the others. -/
def unlock (s : ThsState C) (t : ℕ) (l : ℤ) : Option ℕ :=
  if s.locks l = some t then none else s.locks l

inductive Ev (C : Type)
  | begin (t : ℕ) (call : Call C)
  | lock (t : ℕ)
  | select (t : ℕ)
  | upsert (t : ℕ)
  /-- The `DELETE` starts, with its snapshot. -/
  | startDelete (t : ℕ)
  | delete (t : ℕ) (k : Key) (insertedBy : Option ℕ)
  | endDelete (t : ℕ)
  | commit (t : ℕ)
  | rollback (t : ℕ)

/-- The transaction, if it is running. -/
def running (s : ThsState C) (t : ℕ) : Option (Tx C) :=
  (s.txs t).filter fun x => x.status == .running

def step (cfg : Config C) (s : ThsState C) : Ev C → Option (ThsState C)
  | .begin t call =>
    match s.txs t with
    | none => some (s.setTx t ⟨.running, call, .begun⟩)
    | some _ => none
  | .lock t => (running s t).bind (lockStep cfg s t)
  | .select t => (running s t).bind (selectStep s t)
  | .upsert t => (running s t).bind (upsertStep cfg s t)
  | .startDelete t => (running s t).bind fun x =>
      match x.stage with
      | .upserted result =>
        some (s.setTx t { x with stage := .deleting result (candidates s t x.call result) })
      | _ => none
  | .delete t k insertedBy => (running s t).bind (deleteStep s t k insertedBy)
  | .endDelete t => (running s t).bind fun x =>
      match x.stage with
      | .deleting result [] => some (s.setTx t { x with stage := .done result })
      | _ => none
  | .commit t => (running s t).bind fun x =>
      match x.stage with
      | .done _ =>
        some { s.setTx t { x with status := .committed } with
          rows := s.rows.commit t, locks := unlock s t, log := s.log ++ [x.call] }
      | _ => none
  | .rollback t => (running s t).bind fun x =>
      some { s.setTx t { x with status := .rolledBack } with
        rows := s.rows.rollback t, locks := unlock s t }

end UmbraDB.Ths.Concurrent
