import UmbraDB.Js.Text
import UmbraDB.Lib.Runs
import Mathlib.Logic.Function.Basic

/-! # Migrations: `runMigrations`

Any number of calls on one schema with one lineage, in any interleaving. A call reserves a session
of the pool and sends one statement after the other on it; the statement it sends next, and where it
goes on after the answer or after an error, are functions of its program counter.

* **Transactions.** A statement of a transaction reads the committed database with what the
  transaction has done. An error aborts the transaction, and only `ROLLBACK` and `COMMIT` go through
  after it, both without effect. Without a transaction a statement commits on its own.
* **The migration lock** is an advisory lock of the session: it is counted, is not undone by a
  rollback, and dies with the session. A session that is released keeps it, and keeps a transaction
  that was not ended.
* **Errors.** Any statement can fail on a live session, `pg_advisory_lock` also after the grant
  and `COMMIT` also with the transaction ended. A lost connection or a dead process ends the session
  and the call.

The statements of a migration other than `000_schema` act on the objects of the schema, and never on
`_migrations`. What comes before `sql.reserve()` has no effect on the schema and is left out. -/

namespace UmbraDB.Migrate.Runner

open UmbraDB.Js.Text UmbraDB.Lib.Runs

variable {Ω : Type}

/-! ### The schema and its migrations -/

/-- The schema: whether it exists, the names in `_migrations` if there is such a table, and all its
other objects. -/
structure Db (Ω : Type) where
  schemaExists : Bool
  migrations : Option (List JsString)
  objects : Ω
  deriving DecidableEq

/-- The statements of the migrations and of their records. -/
inductive Ddl (Ω : Type)
  /-- `CREATE SCHEMA IF NOT EXISTS`. -/
  | createSchema
  /-- `CREATE TABLE _migrations`. -/
  | createMigrations
  | other (f : Ω → Option Ω)
  /-- `insert into _migrations (name)`. -/
  | record (name : JsString)

/-- A statement on the database, unless it fails there. -/
def Ddl.exec (db : Db Ω) : Ddl Ω → Option (Db Ω)
  | .createSchema => some { db with schemaExists := true }
  | .createMigrations =>
    if db.schemaExists = true ∧ db.migrations = none then some { db with migrations := some [] }
    else none
  | .other f => (f db.objects).map fun objects => { db with objects := objects }
  | .record name =>
    match db.migrations with
    | none => none
    | some names =>
      if name ∈ names then none else some { db with migrations := some (names ++ [name]) }

structure Migration (Ω : Type) where
  name : JsString
  up : List (Ddl Ω)

/-- What the transaction of a migration does: `up` and its record. -/
def Migration.body (m : Migration Ω) : List (Ddl Ω) := m.up ++ [.record m.name]

def migration000 : Migration Ω := ⟨ascii "000_schema", [.createSchema, .createMigrations]⟩

/-- A lineage: `000_schema` and migrations of other names. -/
structure Lineage (Ω : Type) where
  rest : List (JsString × List (Ω → Option Ω))
  nodup : (ascii "000_schema" :: rest.map Prod.fst).Nodup

/-- `lineage.slice(1)`. -/
def Lineage.tail (L : Lineage Ω) : List (Migration Ω) :=
  L.rest.map fun r => ⟨r.1, r.2.map .other⟩

/-- The migrations, in order. -/
def Lineage.all (L : Lineage Ω) : List (Migration Ω) := migration000 :: L.tail

/-- `tier1WalletMigrations`, for the statements of each `up`. -/
def tier1WalletMigrations (up001 up002 up003 up004 up005 up006 : List (Ω → Option Ω)) :
    Lineage Ω where
  rest := [(ascii "001_temporal_kv", up001), (ascii "002_checkpoint_store", up002),
    (ascii "003_watermarks", up003), (ascii "004_transaction_history", up004),
    (ascii "005_kv_current_fillfactor", up005), (ascii "006_ckpt_chunks_size_bytes", up006)]
  nodup := by
    simp only [List.map_cons, List.map_nil]
    decide

/-- `chainArchiveMigrations`. -/
def chainArchiveMigrations (up001 : List (Ω → Option Ω)) : Lineage Ω where
  rest := [(ascii "001_chain_archive_core", up001)]
  nodup := by
    simp only [List.map_cons, List.map_nil]
    decide

/-! ### The server -/

inductive TxStatus (Ω : Type)
  | idle
  /-- In a transaction that has done these statements. -/
  | active (done : List (Ddl Ω))
  /-- In a transaction that is aborted. -/
  | failed

/-- The committed database, the statements it has committed so far, the transactions of the sessions
and the session that has the migration lock, with its count. -/
structure Server (Ω : Type) where
  db : Db Ω
  history : List (Ddl Ω)
  tx : ℕ → TxStatus Ω
  owner : Option (ℕ × ℕ)

inductive Sql (Ω : Type)
  | begin
  | commit
  | rollback
  /-- `select set_config('lock_timeout', …, true)`. -/
  | setLockTimeout
  /-- `select pg_advisory_lock(1, hashtext(schema))`. -/
  | lock
  | unlock
  | setSearchPath
  | resetSearchPath
  /-- `select to_regclass('<schema>._migrations') is not null`. -/
  | regclass
  /-- `select 1 from _migrations where name = …`. -/
  | applied (name : JsString)
  | ddl (q : Ddl Ω)

namespace Server

def setTx (v : Server Ω) (σ : ℕ) (tx : TxStatus Ω) : Server Ω :=
  { v with tx := Function.update v.tx σ tx }

/-- What the session sees. -/
def view (v : Server Ω) (σ : ℕ) : Option (Db Ω) :=
  match v.tx σ with
  | .active done => run Ddl.exec done v.db
  | _ => some v.db

/-- The lock after the session has got it once more; `none`: it has to wait. -/
def lock (owner : Option (ℕ × ℕ)) (σ : ℕ) : Option (ℕ × ℕ) :=
  match owner with
  | none => some (σ, 1)
  | some (σ', k) => if σ' = σ then some (σ, k + 1) else none

/-- The lock after the session has given it back once, if it had it. -/
def unlock (owner : Option (ℕ × ℕ)) (σ : ℕ) : Option (ℕ × ℕ) :=
  match owner with
  | none => none
  | some (σ', k) =>
    if σ' = σ then if k ≤ 1 then none else some (σ, k - 1) else some (σ', k)

/-- The statement succeeds on the session, with an answer for the two queries. -/
def serve (v : Server Ω) (σ : ℕ) (q : Sql Ω) : Option (Server Ω × Bool) :=
  match v.tx σ, q with
  | .failed, .commit | .failed, .rollback => some (v.setTx σ .idle, true)
  | .failed, _ => none
  | .idle, .begin => some (v.setTx σ (.active []), true)
  | .active _, .begin => some (v, true)
  | .idle, .commit | .idle, .rollback => some (v, true)
  | .active done, .commit => do
    let db ← run Ddl.exec done v.db
    return ({ v with db := db, history := v.history ++ done }.setTx σ .idle, true)
  | .active _, .rollback => some (v.setTx σ .idle, true)
  | _, .setLockTimeout | _, .setSearchPath | _, .resetSearchPath => some (v, true)
  | _, .lock => do
    let owner ← lock v.owner σ
    return ({ v with owner := some owner }, true)
  | _, .unlock => some ({ v with owner := unlock v.owner σ }, true)
  | _, .regclass => do
    let db ← v.view σ
    return (v, db.migrations.isSome)
  | _, .applied name => do
    let db ← v.view σ
    let names ← db.migrations
    return (v, decide (name ∈ names))
  | .idle, .ddl q => do
    let db ← q.exec v.db
    return ({ v with db := db, history := v.history ++ [q] }, true)
  | .active done, .ddl q => do
    let db ← v.view σ
    let _ ← q.exec db
    return (v.setTx σ (.active (done ++ [q])), true)

/-- The error aborts the transaction; `ended`: it was `COMMIT` that rolled back. -/
def abort (v : Server Ω) (σ : ℕ) (ended : Bool) : Server Ω :=
  match v.tx σ with
  | .active _ => v.setTx σ (if ended then .idle else .failed)
  | _ => v

/-- The statement fails on a live session; `late`: what is not undone has been done. -/
def error (v : Server Ω) (σ : ℕ) (q : Sql Ω) (late : Bool) : Server Ω :=
  match q, late with
  | .lock, true =>
    match v.tx σ, lock v.owner σ with
    | .failed, _ | _, none => v.abort σ false
    | _, some owner => { v with owner := some owner }.abort σ false
  | .unlock, true =>
    match v.tx σ with
    | .failed => v
    | _ => { v with owner := unlock v.owner σ }.abort σ false
  | .commit, true => v.abort σ true
  | _, _ => v.abort σ false

/-- The session ends. -/
def close (v : Server Ω) (σ : ℕ) : Server Ω :=
  { v with
    tx := Function.update v.tx σ .idle
    owner := match v.owner with
      | none => none
      | some (σ', k) => if σ' = σ then none else some (σ', k) }

end Server

/-! ### The call -/

/-- Where a call is: the statement it sends next. -/
inductive Pc (Ω : Type)
  | beginLock
  | setTimeout
  | lock
  | commitLock
  | rollbackLock
  | setPath
  | regclass
  /-- The head of the loop, for the migration and those behind it. -/
  | select (m : Migration Ω) (todo : List (Migration Ω))
  | begin (m : Migration Ω) (todo : List (Migration Ω))
  /-- Statements of the transaction are left, then comes `COMMIT`. -/
  | body (m : Migration Ω) (left : List (Ddl Ω)) (todo : List (Migration Ω))
  | rollback
  /-- The two `finally` blocks; `ok`: no error was thrown. -/
  | resetPath (ok : Bool)
  | unlock (ok : Bool)
  | release (ok : Bool)
  | ended (ok : Bool)

structure Call (Ω : Type) where
  session : ℕ
  lockHeld : Bool
  pc : Pc Ω

namespace Pc

def sql : Pc Ω → Option (Sql Ω)
  | .beginLock => some .begin
  | .setTimeout => some .setLockTimeout
  | .lock => some .lock
  | .commitLock => some .commit
  | .rollbackLock => some .rollback
  | .setPath => some .setSearchPath
  | .regclass => some .regclass
  | .select m _ => some (.applied m.name)
  | .begin _ _ => some .begin
  | .body _ (q :: _) _ => some (.ddl q)
  | .body _ [] _ => some .commit
  | .rollback => some .rollback
  | .resetPath _ => some .resetSearchPath
  | .unlock _ => some .unlock
  | .release _ | .ended _ => none

/-- The head of the loop. -/
def loop : List (Migration Ω) → Pc Ω
  | [] => .resetPath true
  | m :: todo => .select m todo

/-- The outer `finally`. -/
def cleanup (lockHeld ok : Bool) : Pc Ω := if lockHeld then .unlock ok else .release ok

/-- Where the call goes on after the answer. -/
def next (L : Lineage Ω) (lockHeld : Bool) : Pc Ω → Bool → Pc Ω
  | .beginLock, _ => .setTimeout
  | .setTimeout, _ => .lock
  | .lock, _ => .commitLock
  | .commitLock, _ => .setPath
  | .rollbackLock, _ => cleanup lockHeld false
  | .setPath, _ => .regclass
  | .regclass, true => loop L.tail
  | .regclass, false => .begin migration000 L.tail
  | .select _ todo, true => loop todo
  | .select m todo, false => .begin m todo
  | .begin m todo, _ => .body m m.body todo
  | .body m (_ :: left) todo, _ => .body m left todo
  | .body _ [] todo, _ => loop todo
  | .rollback, _ => .resetPath false
  | .resetPath ok, _ => cleanup lockHeld ok
  | .unlock ok, _ => .release ok
  | .release ok, _ => .release ok
  | .ended ok, _ => .ended ok

/-- Where the call goes on after an error. -/
def thrown (lockHeld : Bool) : Pc Ω → Pc Ω
  | .beginLock => cleanup lockHeld false
  | .setTimeout | .lock | .commitLock => .rollbackLock
  | .rollbackLock | .setPath => cleanup lockHeld false
  | .regclass | .select _ _ | .begin _ _ => .resetPath false
  | .body _ _ _ => .rollback
  | .rollback => .resetPath false
  | .resetPath _ => cleanup lockHeld false
  | .unlock _ => .release false
  | .release ok => .release ok
  | .ended ok => .ended ok

/-- `lockHeld = true` stands behind `pg_advisory_lock`. -/
def setsLockHeld : Pc Ω → Bool
  | .lock => true
  | _ => false

end Pc

/-! ### The system -/

/-- `user`: the call that has reserved the session. -/
structure State (Ω : Type) where
  server : Server Ω
  calls : ℕ → Option (Call Ω)
  user : ℕ → Option ℕ

def State.init (cold : Db Ω) : State Ω :=
  ⟨⟨cold, [], fun _ => .idle, none⟩, fun _ => none, fun _ => none⟩

inductive Ev
  /-- A new call reserves the session. -/
  | reserve (c σ : ℕ)
  /-- The next statement succeeds. -/
  | exec (c : ℕ)
  /-- The next statement fails on the live session. -/
  | fail (c : ℕ) (late : Bool)
  | release (c : ℕ)
  /-- The connection of the call is lost, or its process dies. -/
  | drop (c : ℕ)
  /-- The pool or the server ends a session that nobody uses. -/
  | close (σ : ℕ)

def State.setCall (s : State Ω) (v : Server Ω) (c : ℕ) (x : Call Ω) : State Ω :=
  { s with server := v, calls := Function.update s.calls c (some x) }

/-- The call ends, and the session has no user any more. -/
def State.finish (s : State Ω) (v : Server Ω) (c : ℕ) (x : Call Ω) (ok : Bool) : State Ω :=
  { server := v
    calls := Function.update s.calls c (some { x with pc := .ended ok })
    user := Function.update s.user x.session none }

def step (L : Lineage Ω) (s : State Ω) : Ev → Option (State Ω)
  | .reserve c σ =>
    if (s.calls c).isNone ∧ s.user σ = none then
      some { s with
        calls := Function.update s.calls c (some ⟨σ, false, .beginLock⟩)
        user := Function.update s.user σ (some c) }
    else none
  | .exec c => do
    let x ← s.calls c
    let q ← x.pc.sql
    let (v, answer) ← s.server.serve x.session q
    return s.setCall v c
      { x with pc := x.pc.next L x.lockHeld answer, lockHeld := x.lockHeld || x.pc.setsLockHeld }
  | .fail c late => do
    let x ← s.calls c
    let q ← x.pc.sql
    return s.setCall (s.server.error x.session q late) c { x with pc := x.pc.thrown x.lockHeld }
  | .release c => do
    let x ← s.calls c
    match x.pc with
    | .release ok => return s.finish s.server c x ok
    | _ => none
  | .drop c => do
    let x ← s.calls c
    match x.pc with
    | .ended _ => none
    | _ => return s.finish (s.server.close x.session) c x false
  | .close σ =>
    if s.user σ = none then some { s with server := s.server.close σ } else none

end UmbraDB.Migrate.Runner
