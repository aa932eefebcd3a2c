import UmbraDB.Archive.Blocks
import UmbraDB.Js.Number
import UmbraDB.Lib.Runs

/-! # Chain archive: `rolloverDefaultPartition`

The partitions of `blocks`, `transactions` and `bridge_observations`, and the statements that retire
their `DEFAULT` partitions into a new bounded one. A row is the key of its block and the rest.

* **Catalog.** A partition has a name, its place under a parent, the mark of a foreign key to
  `blocks`, and its rows. `others` are the names that other relations of the schema have. Renaming
  and detaching leave a table where it is in the list.
* **Checks of the server.** `DETACH` of a partition of `blocks` fails if a row that is bound by a
  foreign key refers into it. `ATTACH` fails if the range overlaps another one, if a row is outside
  of it, if the `DEFAULT` has rows in it, or if a row of a child refers to no block.
* **The connection** has the committed catalog and that of its transaction. A query can also fail
  for a reason of its own (`fails`), and then has had no effect but to abort the transaction. -/

namespace UmbraDB.Archive.Rollover

open UmbraDB.Js.Text UmbraDB.Js.Numerals UmbraDB.Js.Number UmbraDB.Lib.Runs
open UmbraDB.Archive.Blocks (BlockKey)

variable {δ : Type}

/-- `ROLLOVER_TABLES`. -/
inductive RolloverTable
  | blocks
  | transactions
  | bridgeObservations
  deriving DecidableEq

def rolloverTables : List RolloverTable := [.blocks, .transactions, .bridgeObservations]

def RolloverTable.name : RolloverTable → JsString
  | .blocks => ascii "blocks"
  | .transactions => ascii "transactions"
  | .bridgeObservations => ascii "bridge_observations"

/-! ### The catalog -/

/-- The values for which a partition is. -/
inductive Bound
  | default
  | range (lo hi : ℕ)
  deriving DecidableEq

/-- `pg_get_expr` of the bound. -/
def Bound.expr : Bound → JsString
  | .default => ascii "DEFAULT"
  | .range lo hi =>
    ascii "FOR VALUES FROM ('" ++ natText lo ++ ascii "') TO ('" ++ natText hi ++ ascii "')"

/-- The height is in the range; `DEFAULT` has none. -/
def Bound.covers (height : ℕ) : Bound → Bool
  | .default => false
  | .range lo hi => decide (lo ≤ height) && decide (height < hi)

structure Row (δ : Type) where
  key : BlockKey
  data : δ

structure Table (δ : Type) where
  name : JsString
  /-- Where it is attached. -/
  place : Option (RolloverTable × Bound)
  /-- It has a foreign key to `blocks`. -/
  hasFk : Bool
  rows : List (Row δ)

structure Schema (δ : Type) where
  tables : List (Table δ)
  others : List JsString

namespace Schema

def find (s : Schema δ) (name : JsString) : Option (Table δ) :=
  s.tables.find? fun x => x.name = name

/-- A statement changes the table of that name. -/
def modify (s : Schema δ) (name : JsString) (f : Table δ → Table δ) : Schema δ :=
  { s with tables := s.tables.map fun x => if x.name = name then f x else x }

/-- The partitions of the table. -/
def partitions (s : Schema δ) (t : RolloverTable) : List (Table δ) :=
  s.tables.filter fun x => x.place.any fun p => p.1 = t

/-- The rows of the partitioned table. -/
def rows (s : Schema δ) (t : RolloverTable) : List (Row δ) :=
  (s.partitions t).flatMap (·.rows)

def nameTaken (s : Schema δ) (name : JsString) : Bool :=
  (s.tables.any fun x => x.name = name) || s.others.contains name

/-- The partition to which a row of that height goes. -/
def route (s : Schema δ) (t : RolloverTable) (height : ℕ) : Option (Table δ) :=
  ((s.partitions t).find? fun x => x.place.any fun p => p.2.covers height).or
    ((s.partitions t).find? fun x => x.place = some (t, .default))

end Schema

/-- `<table>_<suffix>`. -/
def partitionName (t : RolloverTable) (suffix : JsString) : JsString :=
  t.name ++ ascii "_" ++ suffix

def defaultName (t : RolloverTable) : JsString := partitionName t (ascii "default")

def stagingName (t : RolloverTable) : JsString := partitionName t (ascii "default_staging")

/-- `createHeightPartitions` for the three tables, next to the other relations. -/
def migrated (others : List JsString) : Schema δ where
  tables := rolloverTables.flatMap fun t =>
    (List.range 5).map (fun i => ⟨partitionName t (ascii "p" ++ natText i),
      some (t, .range (i * 1000000) ((i + 1) * 1000000)), t ≠ .blocks, []⟩) ++
    [⟨defaultName t, some (t, .default), t ≠ .blocks, []⟩]
  others := others

/-! ### The statements -/

inductive Ddl
  /-- `ALTER TABLE <t> DETACH PARTITION <t>_default`. -/
  | detach (t : RolloverTable)
  /-- `ALTER TABLE <t>_default DROP CONSTRAINT`, of the foreign key to `blocks`. -/
  | dropFk (t : RolloverTable)
  | rename (old new : JsString)
  | attach (t : RolloverTable) (name : JsString) (lo hi : ℕ)
  /-- `CREATE TABLE <t>_default PARTITION OF <t> DEFAULT`. -/
  | createDefault (t : RolloverTable)

/-- No row that is bound by a foreign key refers to one of these blocks. -/
def unreferenced (s : Schema δ) (blocks : List (Row δ)) : Bool :=
  s.tables.all fun y => !y.hasFk || y.rows.all fun r => blocks.all fun b => b.key ≠ r.key

/-- The row's block exists. -/
def hasBlock (s : Schema δ) (r : Row δ) : Bool := (s.rows .blocks).any fun b => b.key = r.key

/-- The table may be attached for the range. -/
def attachable (s : Schema δ) (t : RolloverTable) (x : Table δ) (lo hi : ℕ) : Bool :=
  x.place.isNone && decide (lo < hi) &&
  ((s.partitions t).all fun y => y.place.all fun p =>
    match p.2 with
    | .default => y.rows.all fun r => !(Bound.range lo hi).covers r.key.height
    | .range lo' hi' => decide (hi ≤ lo') || decide (hi' ≤ lo)) &&
  (x.rows.all fun r => (Bound.range lo hi).covers r.key.height) &&
  (decide (t = .blocks) || x.rows.all (hasBlock s))

def Ddl.exec (s : Schema δ) : Ddl → Option (Schema δ)
  | .detach t => do
    let x ← s.find (defaultName t)
    if x.place.map Prod.fst = some t ∧ (t = .blocks → unreferenced s x.rows = true) then
      some (s.modify (defaultName t) fun x => { x with place := none })
    else none
  | .dropFk t => do
    let x ← s.find (defaultName t)
    if x.place = none then some (s.modify (defaultName t) fun x => { x with hasFk := false })
    else none
  | .rename old new => do
    let _ ← s.find old
    if s.nameTaken new = true then none
    else some (s.modify old fun x => { x with name := new })
  | .attach t name lo hi => do
    let x ← s.find name
    if attachable s t x lo hi = true then
      some (s.modify name fun x =>
        { x with place := some (t, .range lo hi), hasFk := decide (t ≠ .blocks) })
    else none
  | .createDefault t =>
    if s.nameTaken (defaultName t) = true ∨
        ((s.partitions t).any fun x => x.place = some (t, .default)) = true then none
    else some { s with
      tables := s.tables ++ [⟨defaultName t, some (t, .default), decide (t ≠ .blocks), []⟩] }

/-! ### The connection -/

/-- What the function sends on the connection. -/
inductive Query
  | reserve
  | bound (t : RolloverTable)
  | span (t : RolloverTable)
  | begin
  | detach (t : RolloverTable)
  | lookupFk (t : RolloverTable)
  | dropFk (t : RolloverTable)
  | toStaging (t : RolloverTable)
  | fromStaging (t : RolloverTable)
  | attach (t : RolloverTable)
  | createDefault (t : RolloverTable)
  | commit
  deriving DecidableEq

inductive RolloverError
  | invalidSchemaName
  | invalidSuffix
  | suffixTooLong
  /-- `name` is `lo` or `hi`. -/
  | invalidBound (name : JsString)
  | emptyRange
  | partiallyApplied (attached missing : List RolloverTable)
  | differentBounds (t : RolloverTable) (bound : JsString)
  | outsideBucket (t : RolloverTable)
  /-- A query failed. -/
  | server
  deriving DecidableEq

inductive TxStatus (δ : Type)
  | idle
  | active (work : Schema δ)
  | failed

structure Conn (δ : Type) where
  committed : Schema δ
  tx : TxStatus δ

/-- Code that uses the connection; after an error the connection is as the code has left it. -/
abbrev M (δ α : Type) := Conn δ → Except RolloverError α × Conn δ

namespace M

def pure {α : Type} (a : α) : M δ α := fun c => (.ok a, c)

def throw {α : Type} (e : RolloverError) : M δ α := fun c => (.error e, c)

def bind {α β : Type} (x : M δ α) (f : α → M δ β) : M δ β := fun c =>
  match x c with
  | (.ok a, c') => f a c'
  | (.error e, c') => (.error e, c')

/-- `try { x } catch (err) { handler; throw err }`. -/
def onError {α : Type} (x : M δ α) (handler : M δ Unit) : M δ α := fun c =>
  match x c with
  | (.ok a, c') => (.ok a, c')
  | (.error e, c') => (.error e, (handler c').2)

instance : Monad (M δ) where
  pure := pure
  bind := bind

end M

section Queries

variable (fails : Query → Bool)

/-- A query fails: its transaction is aborted. -/
def queryFailed {α : Type} : M δ α := fun c =>
  match c.tx with
  | .idle => (.error .server, c)
  | _ => (.error .server, { c with tx := .failed })

/-- A query that reads the catalog the connection sees. -/
def select {α : Type} (q : Query) (f : Schema δ → Option α) : M δ α := fun c =>
  match c.tx, fails q with
  | .idle, false =>
    match f c.committed with
    | some a => (.ok a, c)
    | none => queryFailed c
  | .active work, false =>
    match f work with
    | some a => (.ok a, c)
    | none => queryFailed c
  | _, _ => queryFailed c

/-- A statement that changes the catalog; outside of a transaction it commits. -/
def alter (q : Query) (d : Ddl) : M δ Unit := fun c =>
  match c.tx, fails q with
  | .idle, false =>
    match d.exec c.committed with
    | some s => (.ok (), { c with committed := s })
    | none => queryFailed c
  | .active work, false =>
    match d.exec work with
    | some s => (.ok (), { c with tx := .active s })
    | none => queryFailed c
  | _, _ => queryFailed c

def begin : M δ Unit := fun c =>
  match c.tx, fails .begin with
  | .idle, false => (.ok (), { c with tx := .active c.committed })
  | .active _, false => (.ok (), c)
  | _, _ => queryFailed c

def commit : M δ Unit := fun c =>
  match c.tx, fails .commit with
  | .idle, false => (.ok (), c)
  | .active work, false => (.ok (), ⟨work, .idle⟩)
  | .failed, false => (.ok (), { c with tx := .idle })
  | _, true => queryFailed c

/-- `ROLLBACK`, whose own failure is caught; `lost`: it fails. -/
def rollback (lost : Bool) : M δ Unit := fun c =>
  if lost then (.ok (), c) else (.ok (), { c with tx := .idle })

end Queries

/-! ### The function -/

structure RolloverBucket where
  lo : JsNumber
  hi : JsNumber
  suffix : JsString

def isLower (u : UInt16) : Bool := decide (97 ≤ u.toNat) && decide (u.toNat ≤ 122)

def isUnderscore (u : UInt16) : Bool := decide (u.toNat = 95)

/-- `/^[a-z][a-z0-9_]*$/`; with `allowUnderscore` the first may be an underscore. -/
def isIdentifier (allowUnderscore : Bool) : JsString → Bool
  | [] => false
  | u :: s => (isLower u || allowUnderscore && isUnderscore u) &&
    s.all fun v => isLower v || isDigit v || isUnderscore v

def assertValidSchemaName (schema : JsString) : Except RolloverError Unit :=
  if isIdentifier true schema = false ∨ 63 < schema.length then .error .invalidSchemaName
  else .ok ()

def assertValidPartitionSuffix (suffix : JsString) : Except RolloverError Unit :=
  if isIdentifier false suffix = false then .error .invalidSuffix
  else if 63 < (ascii "bridge_observations_").length + suffix.length then .error .suffixTooLong
  else .ok ()

/-- The bounds as integers. -/
def assertValidBucketBounds (bucket : RolloverBucket) : Except RolloverError (ℕ × ℕ) :=
  match bucket.lo.safeNat, bucket.hi.safeNat with
  | none, _ => .error (.invalidBound (ascii "lo"))
  | some _, none => .error (.invalidBound (ascii "hi"))
  | some lo, some hi => if hi ≤ lo then .error .emptyRange else .ok (lo, hi)

/-- The checks that come before any query. -/
def validate (schema : JsString) (bucket : RolloverBucket) : Except RolloverError (ℕ × ℕ) := do
  assertValidSchemaName schema
  assertValidPartitionSuffix bucket.suffix
  assertValidBucketBounds bucket

section Function

variable (fails : Query → Bool)

/-- The bound of the table of that name, if it is a partition of `t`. -/
def boundOf (s : Schema δ) (t : RolloverTable) (name : JsString) : Option JsString :=
  match (s.find name).bind (·.place) with
  | some (t', b) => if t' = t then some b.expr else none
  | none => none

def attachedPartitionBound (t : RolloverTable) (suffix : JsString) : M δ (Option JsString) :=
  select fails (.bound t) fun s => some (boundOf s t (partitionName t suffix))

/-- What `rolloverAlreadyApplied` makes of the three bounds. -/
def alreadyApplied (bound : RolloverTable → Option JsString) (expectedBound : JsString) :
    Except RolloverError Bool :=
  let attached := rolloverTables.filter fun t => (bound t).isSome
  if attached = [] then .ok false
  else if attached.length < rolloverTables.length then
    .error (.partiallyApplied attached (rolloverTables.filter fun t => (bound t).isNone))
  else
    match attached.find? fun t => bound t ≠ some expectedBound with
    | some t => .error (.differentBounds t ((bound t).getD []))
    | none => .ok true

def settle {α : Type} : Except RolloverError α → M δ α
  | .ok a => M.pure a
  | .error e => M.throw e

/-- The answers of the three queries. -/
def byTable (b x o : Option JsString) : RolloverTable → Option JsString
  | .blocks => b
  | .transactions => x
  | .bridgeObservations => o

def rolloverAlreadyApplied (suffix : JsString) (lo hi : ℕ) : M δ Bool := do
  let b ← attachedPartitionBound fails .blocks suffix
  let x ← attachedPartitionBound fails .transactions suffix
  let o ← attachedPartitionBound fails .bridgeObservations suffix
  settle (alreadyApplied (byTable b x o) (Bound.range lo hi).expr)

/-- `min` and `max` of the heights in the table. -/
def heightSpan (s : Schema δ) (name : JsString) : Option (Option (ℕ × ℕ)) :=
  (s.find name).map fun x =>
    match x.rows.map (·.key.height) with
    | [] => none
    | h :: hs => some (hs.foldl min h, hs.foldl max h)

def assertDefaultSpanFitsOneBucket (t : RolloverTable) (lo hi : ℕ) : M δ Unit := do
  let span ← select fails (.span t) fun s => heightSpan s (defaultName t)
  match span with
  | none => M.pure ()
  | some (minH, maxH) =>
    if numberOfNat minH < lo ∨ hi ≤ numberOfNat maxH then M.throw (.outsideBucket t)
    else M.pure ()

/-- `getFkConstraintName`, and `DROP CONSTRAINT` if there is one. -/
def dropFkIfAny (t : RolloverTable) : M δ Unit := do
  let hasFk ← select fails (.lookupFk t) fun s => some ((s.find (defaultName t)).any (·.hasFk))
  if hasFk then alter fails (.dropFk t) (.dropFk t) else M.pure ()

/-- A staging table gets its new name and place. -/
def attachStaging (t : RolloverTable) (suffix : JsString) (lo hi : ℕ) : M δ Unit := do
  alter fails (.fromStaging t) (.rename (stagingName t) (partitionName t suffix))
  alter fails (.attach t) (.attach t (partitionName t suffix) lo hi)

/-- The steps (a) to (f). -/
def rolloverSteps (suffix : JsString) (lo hi : ℕ) : M δ Unit := do
  alter fails (.detach .transactions) (.detach .transactions)
  alter fails (.detach .bridgeObservations) (.detach .bridgeObservations)
  dropFkIfAny fails .transactions
  dropFkIfAny fails .bridgeObservations
  alter fails (.detach .blocks) (.detach .blocks)
  alter fails (.toStaging .blocks) (.rename (defaultName .blocks) (stagingName .blocks))
  alter fails (.toStaging .transactions)
    (.rename (defaultName .transactions) (stagingName .transactions))
  alter fails (.toStaging .bridgeObservations)
    (.rename (defaultName .bridgeObservations) (stagingName .bridgeObservations))
  attachStaging fails .blocks suffix lo hi
  attachStaging fails .transactions suffix lo hi
  attachStaging fails .bridgeObservations suffix lo hi
  alter fails (.createDefault .blocks) (.createDefault .blocks)
  alter fails (.createDefault .transactions) (.createDefault .transactions)
  alter fails (.createDefault .bridgeObservations) (.createDefault .bridgeObservations)

/-- The body, on the reserved connection; `lost`: `ROLLBACK` fails. -/
def onReserved (lost : Bool) (suffix : JsString) (lo hi : ℕ) : M δ Unit := do
  if ← rolloverAlreadyApplied fails suffix lo hi then M.pure ()
  else
    assertDefaultSpanFitsOneBucket fails .blocks lo hi
    assertDefaultSpanFitsOneBucket fails .transactions lo hi
    assertDefaultSpanFitsOneBucket fails .bridgeObservations lo hi
    begin fails
    M.onError (do rolloverSteps fails suffix lo hi; commit fails) (rollback lost)

/-- The result, and the catalog that is committed then. -/
def rolloverDefaultPartition (lost : Bool) (schema : JsString) (bucket : RolloverBucket)
    (s : Schema δ) : Except RolloverError Unit × Schema δ :=
  match validate schema bucket with
  | .error e => (.error e, s)
  | .ok (lo, hi) =>
    if fails .reserve then (.error .server, s)
    else
      let out := onReserved fails lost bucket.suffix lo hi ⟨s, .idle⟩
      (out.1, out.2.committed)

end Function

/-! ### Runs -/

inductive Ev (δ : Type)
  /-- A row is inserted into the partitioned table. -/
  | insert (t : RolloverTable) (r : Row δ)
  | rollover (fails : Query → Bool) (lost : Bool) (schema : JsString) (bucket : RolloverBucket)

def step (s : Schema δ) : Ev δ → Option (Schema δ)
  | .insert t r => do
    let x ← s.route t r.key.height
    if t = .blocks ∨ hasBlock s r = true then
      some (s.modify x.name fun x => { x with rows := x.rows ++ [r] })
    else none
  | .rollover fails lost schema bucket =>
    some (rolloverDefaultPartition fails lost schema bucket s).2

end UmbraDB.Archive.Rollover
