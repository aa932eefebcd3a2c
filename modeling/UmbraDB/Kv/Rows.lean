import UmbraDB.Js.Text
import Mathlib.Data.Int.Notation

/-! # Temporal key-value store: the rows of a key and the three statements of `put`

`kv_current` has at most one row for each `(ns, scope, key)` (its primary key), `kv_history` any
number, and every statement of the adapter names one such triple; so the two tables are given by
the rows of each key, `KvRows`. Both tables are created by `migrations/001_temporal_kv.ts`.

`putImpl` sends one of three statements, by `expectedVersion`: an upsert, an insert that does
nothing on conflict, or an update guarded by the version. `putRow` is what such a statement does to
the newest version of the rows once it has their lock. Every update of a `kv_current` row goes
through `historyTrigger`, the `BEFORE UPDATE` trigger. Clock readings are arguments, in
microseconds; nothing is assumed about them.

The value of a put is `none` for a top-level JSON `null`, which the driver binds as SQL `NULL`. -/

namespace UmbraDB.Kv.Rows

open UmbraDB.Js.Text

/-- The addressing triple, the primary key of `kv_current`. -/
structure KvKey where
  ns : JsString
  scope : JsString
  key : JsString
  deriving DecidableEq

/-- A row of `kv_current`, without its key columns. -/
structure KvCurrent (V : Type) where
  value : V
  version : ℕ
  updatedAt : ℤ
  updatedXact : ℕ
  deriving DecidableEq

/-- A row of `kv_history`, without its key columns and its serial `id`; `validity` is the half-open
range of the last two. -/
structure KvHistory (V : Type) where
  value : V
  version : ℕ
  validFrom : ℤ
  validTo : ℤ
  deriving DecidableEq

/-- The rows of one key in the two tables. -/
structure KvRows (V : Type) where
  current : Option (KvCurrent V)
  history : List (KvHistory V)
  deriving DecidableEq

/-- A key that was never written. -/
def KvRows.empty {V : Type} : KvRows V := ⟨none, []⟩

/-- The errors the server raises on these statements, by SQLSTATE. -/
inductive PgError
  /-- `UB001`, raised by the trigger. -/
  | transactionKeyReuse
  /-- `22000`: the generated column `validity` has its bounds in the wrong order. -/
  | rangeBounds
  /-- `23514` on `kv_history_range`. -/
  | kvHistoryRange
  /-- `23P01` on `kv_history_no_overlap`. -/
  | kvHistoryNoOverlap
  /-- `23502` on `value`. -/
  | valueNotNull
  /-- `22003`: `version + 1` does not fit the column. -/
  | bigintOutOfRange
  /-- `25P02`: an earlier statement of the transaction failed. -/
  | inFailedTransaction
  deriving DecidableEq

/-- `POSTGRES_BIGINT_MAX`. -/
def bigintMax : ℕ := 9223372036854775807

/-- `date_trunc('milliseconds', …)` on a timestamp in microseconds. -/
def dateTruncMs (us : ℤ) : ℤ := us / 1000 * 1000

/-- `validity && validity`, on two non-empty half-open ranges. -/
def overlaps {V : Type} (a b : KvHistory V) : Bool :=
  decide (a.validFrom < b.validTo) && decide (b.validFrom < a.validTo)

variable {V : Type}

/-- `INSERT INTO kv_history`: the generated column is computed first, then the check, then the
exclusion constraint. -/
def insertHistory (row : KvHistory V) (history : List (KvHistory V)) :
    Except PgError (List (KvHistory V)) :=
  if row.validTo < row.validFrom then .error .rangeBounds
  else if ¬ row.validFrom < row.validTo then .error .kvHistoryRange
  else if history.any (overlaps row) then .error .kvHistoryNoOverlap
  else .ok (history ++ [row])

/-- `kv_current_history_trigger`: files the old row under the interval that ends now. -/
def historyTrigger (nowXact : ℕ) (nowTs : ℤ) (old : KvCurrent V) (history : List (KvHistory V)) :
    Except PgError (List (KvHistory V)) :=
  if old.updatedXact = nowXact then .error .transactionKeyReuse
  else insertHistory ⟨old.value, old.version, old.updatedAt, nowTs⟩ history

/-- What a statement did to the rows of its key. `wrote` carries the new rows and the columns
`version` and `updated_at` of `RETURNING`. -/
inductive StmtResult (V : Type)
  | wrote (rows : KvRows V) (version : ℕ) (writtenAt : ℤ)
  | noRows
  | raised (err : PgError)

/-- The update of the row `old`: the new tuple is computed, the trigger fires on it, and last the
`NOT NULL` constraint is checked. -/
def updateRow (xact : ℕ) (clock : ℤ) (value : Option V) (old : KvCurrent V)
    (history : List (KvHistory V)) : StmtResult V :=
  if bigintMax < old.version + 1 then .raised .bigintOutOfRange
  else
    let nowTs := dateTruncMs clock
    match historyTrigger xact nowTs old history with
    | .error e => .raised e
    | .ok history' =>
      match value with
      | none => .raised .valueNotNull
      | some v =>
        .wrote ⟨some ⟨v, old.version + 1, nowTs, xact⟩, history'⟩ (old.version + 1) nowTs

/-- The insert of version 1; `defaultAt` is the clock reading of the column default, taken when the
statement built its tuple, before any wait. -/
def insertRow (xact : ℕ) (defaultAt : ℤ) (v : V) (history : List (KvHistory V)) : StmtResult V :=
  .wrote ⟨some ⟨v, 1, dateTruncMs defaultAt, xact⟩, history⟩ 1 (dateTruncMs defaultAt)

/-- Case 1, `INSERT … ON CONFLICT DO UPDATE`. The `NOT NULL` constraint is checked on the tuple to
insert, before the conflict is looked for. -/
def upsertStmt (xact : ℕ) (defaultAt clock : ℤ) (value : Option V) (rows : KvRows V) :
    StmtResult V :=
  match value with
  | none => .raised .valueNotNull
  | some v =>
    match rows.current with
    | none => insertRow xact defaultAt v rows.history
    | some old => updateRow xact clock (some v) old rows.history

/-- Case 2, `INSERT … ON CONFLICT DO NOTHING`. -/
def insertStmt (xact : ℕ) (defaultAt : ℤ) (value : Option V) (rows : KvRows V) : StmtResult V :=
  match value with
  | none => .raised .valueNotNull
  | some v =>
    match rows.current with
    | none => insertRow xact defaultAt v rows.history
    | some _ => .noRows

/-- The `WHERE … version = ${expectedVersion}` of case 3. -/
def versionMatches (expected : ℕ) (rows : KvRows V) : Bool :=
  rows.current.any fun old => old.version == expected

/-- Case 3, the guarded `UPDATE`. -/
def updateStmt (xact : ℕ) (clock : ℤ) (expected : ℕ) (value : Option V) (rows : KvRows V) :
    StmtResult V :=
  match rows.current with
  | none => .noRows
  | some old =>
    if old.version = expected then updateRow xact clock value old rows.history else .noRows

/-- The statement `putImpl` sends, applied to the newest version of the rows. -/
def putRow (xact : ℕ) (defaultAt clock : ℤ) (expected : Option ℕ) (value : Option V)
    (rows : KvRows V) : StmtResult V :=
  match expected with
  | none => upsertStmt xact defaultAt clock value rows
  | some 0 => insertStmt xact defaultAt value rows
  | some (e + 1) => updateStmt xact clock (e + 1) value rows

/-! ### Reading -/

/-- What `toEntry` returns, without the addressing triple the caller gave. -/
structure VersionedEntry (V : Type) where
  value : V
  version : ℕ
  writtenAt : ℤ
  deriving DecidableEq

/-- The version a reader of the rows finds in `kv_current`, `0` when there is none. -/
def currentVersion (rows : KvRows V) : ℕ := (rows.current.map (·.version)).getD 0

/-- `get`. -/
def getImpl (rows : KvRows V) : Option (VersionedEntry V) :=
  rows.current.map fun c => ⟨c.value, c.version, c.updatedAt⟩

/-- `AsOf`; the instant is in microseconds, like the columns. -/
inductive AsOf
  | version (v : ℕ)
  | at (t : ℤ)

/-- The `kv_history` half of the query of `getAt`. -/
def historyMatches (asOf : AsOf) (h : KvHistory V) : Bool :=
  match asOf with
  | .version v => h.version == v
  | .at t => decide (h.validFrom ≤ t) && decide (t < h.validTo)

/-- The `kv_current` half. -/
def currentMatches (asOf : AsOf) (c : KvCurrent V) : Bool :=
  match asOf with
  | .version v => c.version == v
  | .at t => decide (c.updatedAt ≤ t)

/-- The rows of the `UNION ALL`, in the order of `priority`. -/
def getAtRows (rows : KvRows V) (asOf : AsOf) : List (VersionedEntry V) :=
  ((rows.history.filter (historyMatches asOf)).map fun h => ⟨h.value, h.version, h.validFrom⟩) ++
    ((rows.current.toList.filter (currentMatches asOf)).map fun c =>
      ⟨c.value, c.version, c.updatedAt⟩)

/-- `getAt`: the first row, if any. -/
def getAtImpl (rows : KvRows V) (asOf : AsOf) : Option (VersionedEntry V) :=
  (getAtRows rows asOf).head?

end UmbraDB.Kv.Rows
