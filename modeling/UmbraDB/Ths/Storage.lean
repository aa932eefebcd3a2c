import UmbraDB.Lib.Keyed
import UmbraDB.Lib.Runs
import UmbraDB.Ths.Content
import Mathlib.Data.List.Sort

/-! # Transaction history: the Postgres storage and the in-memory one

`PgTransactionHistoryStorage` over the rows of the table `transaction_history`, one transaction
after the other, and `InMemoryTransactionHistoryStorage`, the reference that the tests run beside
it. `TwoStorages` has the table and one in-memory storage for each wallet id, and a step gives one
`got*` command to both.

Of PostgreSQL the model takes (`Server`): the order in which `jsonb` keeps keys, the collation of
`ORDER BY tx_hash`, and which rows are within its limits (the size of an index row of
`(wallet_id, tx_hash)` and of a GIN key, and the size of a `jsonb` value). The stored JSON is a
record with the keys of `StoredEntryJson`, since only `writeRows` writes the column; `updated_at` is
left out. -/

namespace UmbraDB.Ths.Storage

open UmbraDB.Js.Json (JsonLeaf)
open UmbraDB.Js.Text UmbraDB.Js.Numerals UmbraDB.Js.Number UmbraDB.Js.Date UmbraDB.Lib.Trees
open UmbraDB.Lib.Runs UmbraDB.Lib UmbraDB.Ths.Entry UmbraDB.Ths.Content

/-! ### Equality up to the order of keys -/

/-- The fields of an entry, with the sections up to the order of keys. -/
structure EntryView where
  protocolVersion : Option JsNumber
  status : Option HistoryStatus
  timestamp : Option JsDate
  fees : Option (Option ℤ)
  sections : JsString → Option (Value JsString Leaf)

def view (e : TransactionHistoryEntry) : HistoryEntry EntryView :=
  ⟨e.hash, e.identifiers, e.lifecycle, ⟨e.content.protocolVersion, e.content.status,
    e.content.timestamp, e.content.fees, e.content.sections.denote⟩⟩

/-- The same entry up to the order of the keys of its objects. -/
def SameEntry (a b : TransactionHistoryEntry) : Prop := view a = view b

/-! ### The Postgres storage -/

structure Server where
  keyOrder : JsString → JsString → Bool
  collation : JsString → JsString → Bool
  /-- The row of the entry, for the wallet, is within the limits. -/
  fits : JsString → TransactionHistoryEntry → Bool
  fits_same : ∀ w a b, SameEntry a b → fits w a = fits w b

/-- The shape of the column `entry`. -/
structure StoredEntryJson where
  hash : JsString
  identifiers : List JsString
  protocolVersion : Option JsNumber
  status : Option HistoryStatus
  timestamp : Option JsString
  fees : Option (Option JsString)
  lifecycle : LifecycleStatus
  sections : Fields JsString JsonLeaf

structure TxHistoryRow where
  walletId : JsString
  txHash : JsString
  entry : StoredEntryJson
  identifiers : List JsString
  lifecycle : LifecycleStatus

def encodeStoredEntry (e : TransactionHistoryEntry) : StoredEntryJson where
  hash := e.hash
  identifiers := e.identifiers
  protocolVersion := e.content.protocolVersion
  status := e.content.status
  -- an invalid date does not pass the schema
  timestamp := e.content.timestamp.bind fun d => d.map toISOString
  fees := e.content.fees.map fun i => i.map bigintText
  lifecycle := e.lifecycle
  sections := encodeSections e.content.sections

/-- What is read of the column. -/
def StoredEntryJson.throughJsonb (server : Server) (x : StoredEntryJson) : StoredEntryJson :=
  { x with
    protocolVersion := x.protocolVersion.map jsonNumber
    sections := Content.throughJsonb server.keyOrder x.sections }

/-- A field that is parsed if it is there. -/
def parseField {A B : Type} (parse : A → Option B) : Option A → Except ThsError (Option B)
  | none => .ok none
  | some raw =>
    match parse raw with
    | none => .error .serialization
    | some b => .ok (some b)

/-- `null`, or the text of a bigint. -/
def parseFees : Option JsString → Option (Option ℤ)
  | none => some none
  | some raw => (parseStoredBigint raw).map some

def rowToEntry (row : TxHistoryRow) : Except ThsError TransactionHistoryEntry := do
  let timestamp ← parseField (fun raw => (parseStoredDate raw).map some) row.entry.timestamp
  let fees ← parseField parseFees row.entry.fees
  match decodeSections row.entry.sections with
  | none => .error .serialization
  | some sections =>
    let candidate : TransactionHistoryEntry := ⟨row.txHash, row.identifiers, row.entry.lifecycle,
      ⟨row.entry.protocolVersion, row.entry.status, timestamp, fees, sections⟩⟩
    if entryOk candidate then .ok candidate else .error .serialization

/-- The primary key. -/
def rowKey (row : TxHistoryRow) : JsString × JsString := (row.walletId, row.txHash)

/-- The row of the upsert. -/
def rowOf (server : Server) (w : JsString) (e : TransactionHistoryEntry) : TxHistoryRow :=
  ⟨w, e.hash, (encodeStoredEntry e).throughJsonb server, e.identifiers, e.lifecycle⟩

/-- The pending-clear `DELETE`. -/
def clearRows (w : JsString) (result : TransactionHistoryEntry) (rows : List TxHistoryRow) :
    List TxHistoryRow :=
  rows.filter fun row => !(row.walletId == w &&
    superseded result.hash result.identifiers row.txHash row.lifecycle row.identifiers)

/-- The row of the hash, if there is one, decoded. -/
def existingEntry (w hash : JsString) (rows : List TxHistoryRow) :
    Except ThsError (Option TransactionHistoryEntry) :=
  match Keyed.get rowKey (w, hash) rows with
  | none => .ok none
  | some row => (rowToEntry row).map some

/-- `writeRows` on the table. -/
def writeRows (server : Server) (mergeFn : MergeEntriesFn EntryFields) (w : JsString)
    (entry : TransactionHistoryEntry) (rows : List TxHistoryRow) :
    Except ThsError (List TxHistoryRow) := do
  let existing ← existingEntry w entry.hash rows
  let result ← mergeResult entryOk mergeFn existing entry
  if server.fits w result then
    let rows := Keyed.put rowKey (rowOf server w result) rows
    .ok (if clearsPending result then clearRows w result rows else rows)
  else .error .postgres

/-- `write`, for an instance with the wallet id. An error rolls its transaction back. -/
def writePg (server : Server) (mergeFn : MergeEntriesFn EntryFields) (walletId : JsString)
    (entry : TransactionHistoryEntry) (rows : List TxHistoryRow) :
    Except ThsError (List TxHistoryRow) :=
  if entryOk entry then
    match pgText walletId with
    | none => .error .postgres
    | some w => writeRows server mergeFn w entry rows
  else .error .validation

def getAllPg (server : Server) (walletId : JsString) (rows : List TxHistoryRow) :
    Except ThsError (List TransactionHistoryEntry) :=
  match pgText walletId with
  | none => .error .postgres
  | some w =>
    ((rows.filter fun row => row.walletId == w).insertionSort fun a b =>
      server.collation a.txHash b.txHash = true).mapM rowToEntry

/-! ### The in-memory storage -/

/-- The `Map`, in the order of insertion. -/
abbrev Entries := List (JsString × TransactionHistoryEntry)

def Entries.lookup (m : Entries) (hash : JsString) : Option TransactionHistoryEntry :=
  (Keyed.get Prod.fst hash m).map (·.2)

def clearPendingByIdentifiers (exceptHash : JsString) (identifiers : List JsString) (m : Entries) :
    Entries :=
  m.filter fun x => x.1 == exceptHash || x.2.lifecycle != .pending ||
    decide (x.2.identifiers.length = 0) || !x.2.identifiers.all fun id => identifiers.contains id

/-- `write`; the merge result is not validated here. -/
def writeMem (mergeFn : MergeEntriesFn EntryFields) (entry : TransactionHistoryEntry)
    (m : Entries) : Except ThsError Entries := do
  if entryOk entry then
    let merged ← mergeResult (fun _ => true) mergeFn (m.lookup entry.hash) entry
    let m := Keyed.put Prod.fst (merged.hash, merged) m
    .ok (if clearsPending merged then clearPendingByIdentifiers merged.hash merged.identifiers m
      else m)
  else .error .validation

/-! ### Both, command by command -/

/-- A call of `gotPending`, `gotFinalized` or `gotRejected`, by the status it attaches. The entry is
a value of the host language: the keys of its objects are distinct. -/
structure Command where
  walletId : JsString
  status : LifecycleStatus
  entry : TransactionHistoryEntry
  distinct : entry.content.sections.distinct = true

/-- The entry with its lifecycle. -/
def Command.full (cmd : Command) : TransactionHistoryEntry :=
  { cmd.entry with lifecycle := cmd.status }

/-- The table, an in-memory storage for each wallet id, and for each command how it was rejected by
the one and the other, `none` if it was accepted. -/
structure TwoStorages where
  rows : List TxHistoryRow
  mem : JsString → Entries
  outcomes : List (Option ThsError × Option ThsError)

def TwoStorages.init : TwoStorages := ⟨[], fun _ => [], []⟩

/-- The state after a call that may throw, and what it threw. -/
def settle {A : Type} (old : A) : Except ThsError A → A × Option ThsError
  | .ok new => (new, none)
  | .error e => (old, some e)

/-- One command to both storages. The constructor refuses an empty wallet id. -/
def step (server : Server) (mergeFn : MergeEntriesFn EntryFields) (s : TwoStorages)
    (cmd : Command) : Option TwoStorages :=
  if cmd.walletId.length = 0 then none
  else
    let pg := settle s.rows (writePg server mergeFn cmd.walletId cmd.full s.rows)
    let mem := settle (s.mem cmd.walletId) (writeMem mergeFn cmd.full (s.mem cmd.walletId))
    some ⟨pg.1, Function.update s.mem cmd.walletId mem.1, s.outcomes ++ [(pg.2, mem.2)]⟩

end UmbraDB.Ths.Storage
