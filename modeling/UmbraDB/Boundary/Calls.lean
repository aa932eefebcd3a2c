import UmbraDB.Tx.Statements
import UmbraDB.Ths.Codec

/-! # The boundary: what a call checks and what it binds

The public operations of `PgTemporalKV`, `PgCheckpointStore`, `PgWatermarks` and
`PgTransactionHistoryStorage`, on arguments of their declared types. A call is rejected with a
`ValidationError`, or it is the tree of the statements that it sends; each statement has the list of
the parameters it binds, in the order of its text, with the type the server gives them.

The four writers send the statements of `Tx.Statements`. `opts.tx` and `opts.signal` are left out: a
handle that is not live and a signal that is aborted send nothing. So are `BEGIN`, `COMMIT` and the
settings of `withTransaction`, which bind no argument. -/

namespace UmbraDB.Boundary.Calls

open UmbraDB.Js.Text UmbraDB.Js.Number UmbraDB.Js.Json UmbraDB.Js.Date UmbraDB.Lib.Trees
open UmbraDB.Ckpt.Rows (Bytes checkpointIdOk SaveOptions)
open UmbraDB.Ckpt.System (WatermarkKey)
open UmbraDB.Kv.Rows (KvKey)
open UmbraDB.Ths.Entry UmbraDB.Ths.Content UmbraDB.Ths.Codec
open UmbraDB.Tx.Statements

/-! ### Parameters -/

/-- The integer types of the server. -/
inductive IntType
  | int4
  | int8
  deriving DecidableEq

def IntType.bits : IntType → ℕ
  | .int4 => 31
  | .int8 => 63

def IntType.contains (type : IntType) (i : ℤ) : Bool :=
  decide (-2 ^ type.bits ≤ i) && decide (i < 2 ^ type.bits)

/-- A bound parameter. -/
inductive Param
  /-- `NULL`, where it is allowed. -/
  | null
  | text (s : JsString)
  | textArray (ss : List JsString)
  /-- `sql.json` for a `jsonb NOT NULL` column; `none` is a top-level `null`, bound as `NULL`. -/
  | jsonb (value : Option JsonValue)
  /-- A number for an integer. -/
  | number (type : IntType) (n : JsNumber)
  /-- A bigint for an `int8`. -/
  | bigint (i : ℤ)
  | bigintArray (is : List ℤ)
  | bytea (bytes : Bytes)
  | timestamptz (t : TimeValue)

/-- No NUL and no unpaired surrogate. -/
def safeText (s : JsString) : Bool := !hasPostgresUnsafeText s

def safeLeaf : JsonLeaf → Bool
  | .string s => safeText s
  | _ => true

/-- Every string of the value, the keys of its objects among them. -/
def safeJson (v : JsonValue) : Bool := v.all safeLeaf safeText

/-- What the server accepts. -/
def Param.ok : Param → Bool
  | .null => true
  | .text s => safeText s
  | .textArray ss => ss.all safeText
  | .jsonb value => value.any safeJson
  | .number type n => n.integer.any type.contains
  | .bigint i => IntType.int8.contains i
  | .bigintArray is => is.all IntType.int8.contains
  | .bytea _ => true
  | .timestamptz _ => true

/-- `${n ?? null}` for a `bigint`. -/
def optionalNumber : Option JsNumber → Param
  | none => .null
  | some n => .number .int8 n

/-! ### Statements -/

/-- The statements of the writers, and those of the readers. -/
inductive Query
  | stmt (q : Stmt JsonValue EntryFields)
  | kvAtVersion (key : KvKey) (version : ℤ)
  | kvAtTime (key : KvKey) (at_ : TimeValue)
  | kvListKeys (ns scope pattern : JsString)
  | selectManifest (w net : JsString) (sequence : Option JsNumber)
  | selectChunks (manifestId : ℕ)
  | selectManifests (w net : JsString) (before : Option JsNumber) (limit : JsNumber)
  | aggregate (manifestIds : List ℕ)
  | deleteManifests (w net : JsString) (offset : JsNumber)
  | deleteChunks
  | getWatermark (key : WatermarkKey)
  | selectEntry (walletId hash : JsString)

def keyParams (key : KvKey) : List Param := [.text key.ns, .text key.scope, .text key.key]

/-- The parameters of the statements of the writers. -/
def stmtParams : Stmt JsonValue EntryFields → List Param
  | .kvUpsert key value => keyParams key ++ [.jsonb value]
  | .kvInsert key value => keyParams key ++ [.jsonb value]
  | .kvUpdate key value expected => .jsonb value :: keyParams key ++ [.bigint expected]
  | .kvSelect key => keyParams key
  | .upsertChunks batch => batch.flatMap fun row => [.bytea row.1, .bytea row.2]
  | .claimSeq w net => [.text w, .text net]
  | .insertManifest w net seq manifestHash label =>
    [.text w, .text net, .bigint seq, .bytea manifestHash, (label.map .text).getD .null]
  | .insertJunction batch => batch.flatMap fun row =>
      [.bigint row.manifestId, .number .int4 (.finite row.position), .bytea row.chunkHash]
  | .setWatermark key value => [.text key.kind, .text key.key, .jsonb (some value)]
  | .advisoryLock walletId hash => [.number .int4 (.finite 4), .text walletId, .text hash]
  | .selectForUpdate walletId hash => [.text walletId, .text hash]
  | .upsertEntry walletId result =>
    [.text walletId, .text result.hash, .jsonb (some (storedJson result)),
      .textArray result.identifiers, .text (lifecycleText result.lifecycle)]
  | .clearPending walletId hash identifiers =>
    [.text walletId, .text hash, .textArray identifiers]

def Query.params : Query → List Param
  | .stmt q => stmtParams q
  | .kvAtVersion key version =>
    keyParams key ++ .bigint version :: keyParams key ++ [.bigint version]
  | .kvAtTime key t => keyParams key ++ .timestamptz t :: keyParams key ++ [.timestamptz t]
  | .kvListKeys ns scope pattern => [.text ns, .text scope, .text pattern]
  | .selectManifest w net sequence =>
    [.text w, .text net, optionalNumber sequence, optionalNumber sequence]
  | .selectChunks manifestId => [.bigint manifestId]
  | .selectManifests w net before limit =>
    [.text w, .text net, optionalNumber before, optionalNumber before, .number .int8 limit]
  | .aggregate manifestIds => [.bigintArray (manifestIds.map fun (id : ℕ) => (id : ℤ))]
  | .deleteManifests w net offset =>
    [.text w, .text net, .text w, .text net, .number .int8 offset]
  | .deleteChunks => []
  | .getWatermark key => [.text key.kind, .text key.key]
  | .selectEntry walletId hash => [.text walletId, .text hash]

/-- A value of a `bigint` column that is an identity or a sequence number. -/
abbrev Int8Id := { n : ℕ // n ≤ Kv.Rows.bigintMax }

/-- The answer of the server. Its numbers come from `bigint` columns. -/
structure ServerAnswer where
  rows : ℕ
  seq : Int8Id
  id : Int8Id
  /-- The ids of several manifests. -/
  ids : List Int8Id
  entry : Except ThsError (Option TransactionHistoryEntry)

/-- The part of it that the writers read. -/
def ServerAnswer.answer (a : ServerAnswer) : Answer EntryFields :=
  ⟨a.rows, a.seq, a.id, a.entry⟩

/-- The program of a writer, among the others. -/
def lift : Prog (Stmt JsonValue EntryFields) (Answer EntryFields) → Prog Query ServerAnswer
  | .done => .done
  | .send q next => .send (.stmt q) fun a => lift (next a.answer)

/-- A single statement. -/
def once (q : Query) : Prog Query ServerAnswer := .send q fun _ => .done

/-! ### Schemas -/

/-- `ValidationError`, with the context it names. -/
structure ValidationError where
  context : String
  deriving DecidableEq

def require (b : Bool) (context : String) : Except ValidationError Unit :=
  if b then .ok () else .error ⟨context⟩

/-- `NamespaceSchema` and `ScopeSchema`. -/
def namespaceOk (s : JsString) : Bool :=
  decide (1 ≤ s.length) && decide (s.length ≤ 63) && safeText s

/-- `KeySchema`. -/
def keySchemaOk (s : JsString) : Bool := decide (1 ≤ s.length) && safeText s

/-- The leaves of `z.json()`, with the text check of `jsonValueHasUnsafeText`. -/
def jsonLeafOk : JsonLeaf → Bool
  | .string s => safeText s
  | .number n => n != .nonFinite
  | .boolean _ => true
  | .null => true

/-- `MAX_JSON_DEPTH`. -/
def maxJsonDepth : ℕ := 64

/-- `JsonValueSchema`. -/
def jsonValueOk (v : JsonValue) : Bool := !v.exceeds maxJsonDepth 0 && v.all jsonLeafOk safeText

/-- `ExpectedVersionSchema`. -/
def expectedVersionOk (v : ℤ) : Bool := decide (0 ≤ v) && decide (v ≤ Kv.Rows.bigintMax)

/-- `StoredVersionSchema`. -/
def storedVersionOk (v : ℤ) : Bool := decide (1 ≤ v) && decide (v ≤ Kv.Rows.bigintMax)

/-- `z.number().int().positive()`, up to `max`. -/
def positiveIntOk (max : ℕ) (n : JsNumber) : Bool :=
  n.safeNat.any fun i => decide (1 ≤ i) && decide (i ≤ max)

/-! ### The calls -/

/-- `AsOf`. -/
inductive AsOf
  | version (v : ℤ)
  | at_ (d : JsDate)

/-- A `PgTransactionHistoryStorage` that was constructed. -/
structure HistoryStorage where
  walletId : JsString
  nonempty : walletId ≠ []

inductive Call
  | put (key : KvKey) (value : JsonValue) (expectedVersion : Option ℤ)
  | get (key : KvKey)
  | getAt (key : KvKey) (asOf : AsOf)
  | listKeys (ns scope start : JsString)
  | save (w net : JsString) (data : Bytes) (chunkSize : Option JsNumber) (label : Option JsString)
  | load (w net : JsString) (sequence : Option JsNumber)
  | history (w net : JsString) (limit before : Option JsNumber)
  | prune (w net : JsString) (retainCount : JsNumber)
  | setWatermark (key : WatermarkKey) (value : JsonValue)
  | getWatermark (key : WatermarkKey)
  /-- The constructor of `PgTransactionHistoryStorage`. -/
  | construct (walletId : JsString)
  | getEntry (storage : HistoryStorage) (hash : JsString)
  /-- `gotPending`, `gotFinalized` and `gotRejected`, by the lifecycle of the entry. -/
  | got (storage : HistoryStorage) (entry : TransactionHistoryEntry)

def validateNamespaceScope (ns scope : JsString) : Except ValidationError Unit := do
  require (namespaceOk ns) "PgTemporalKV namespace"
  require (namespaceOk scope) "PgTemporalKV scope"

def validateKey (key : KvKey) : Except ValidationError Unit := do
  validateNamespaceScope key.ns key.scope
  require (keySchemaOk key.key) "PgTemporalKV key"

def assertValidCheckpointIds (w net : JsString) : Except ValidationError Unit := do
  require (checkpointIdOk w) "PgCheckpointStore walletId"
  require (checkpointIdOk net) "PgCheckpointStore networkId"

/-- `sql.json(value)`. -/
def bindJson : JsonValue → Option JsonValue
  | .leaf .null => none
  | v => some v

/-- `prefix.replace(/[\\%_]/g, "\\$&")`. -/
def escapeLikePrefix : JsString → JsString
  | [] => []
  | u :: s =>
    if u = 0x5C ∨ u = 0x25 ∨ u = 0x5F then 0x5C :: u :: escapeLikePrefix s
    else u :: escapeLikePrefix s

/-- `PgTransactionHistoryStorage.got${capitalize(entry.lifecycle.status)}`. -/
def gotContext : LifecycleStatus → String
  | .pending => "PgTransactionHistoryStorage.gotPending"
  | .finalized => "PgTransactionHistoryStorage.gotFinalized"
  | .rejected => "PgTransactionHistoryStorage.gotRejected"

variable (sha256 : Bytes → Bytes) (mergeFn : MergeEntriesFn EntryFields)

/-- The call up to its first statement, and the statements. -/
def Call.run : Call → Except ValidationError (Prog Query ServerAnswer)
  | .put key value expectedVersion => do
    validateKey key
    require (jsonValueOk value) "PgTemporalKV value"
    require (expectedVersion.all expectedVersionOk) "PgTemporalKV expectedVersion"
    return lift (putImpl key (bindJson value) (expectedVersion.map Int.toNat))
  | .get key => do
    validateKey key
    return once (.stmt (.kvSelect key))
  | .getAt key asOf => do
    validateKey key
    match asOf with
    | .version v =>
      require (storedVersionOk v) "PgTemporalKV getAt asOf.version"
      return once (.kvAtVersion key v)
    | .at_ none => throw ⟨"PgTemporalKV getAt: asOf.at must be a valid Date"⟩
    | .at_ (some t) => return once (.kvAtTime key t)
  | .listKeys ns scope start => do
    validateNamespaceScope ns scope
    require (safeText start) ("PgTemporalKV listKeys: prefix must not contain a NUL byte " ++
      "or an unpaired UTF-16 surrogate")
    return once (.kvListKeys ns scope (escapeLikePrefix start ++ [0x25]))
  | .save w net data chunkSize label => do
    assertValidCheckpointIds w net
    require (chunkSize.all (positiveIntOk (16 * 1024 * 1024)) &&
      label.all fun l => decide (l.length ≤ 200)) "PgCheckpointStore.save opts"
    return lift (runOnTx sha256 w net data ⟨chunkSize.bind JsNumber.safeNat, label⟩)
  | .load w net sequence => do
    assertValidCheckpointIds w net
    return .send (.selectManifest w net sequence) fun a =>
      if a.rows = 0 then .done else once (.selectChunks a.id)
  | .history w net limit before => do
    assertValidCheckpointIds w net
    require (limit.all (positiveIntOk 1000) && before.all (positiveIntOk maxSafeInteger))
      "PgCheckpointStore.history opts"
    return .send (.selectManifests w net before (limit.getD (.finite 50))) fun a =>
      if a.ids.isEmpty then .done else once (.aggregate (a.ids.map (·.1)))
  | .prune w net retainCount => do
    assertValidCheckpointIds w net
    match retainCount.safeNat with
    | some (n + 1) =>
      return .send (.deleteManifests w net (.finite n)) fun _ => once .deleteChunks
    | _ => throw ⟨"prune retainCount must be a safe integer >= 1"⟩
  | .setWatermark key value => do
    require (bindJson value).isSome "PgWatermarks.set value must not be a top-level null"
    require (jsonValueOk value) "PgWatermarks.set value"
    return lift (setImpl key value)
  | .getWatermark key => return once (.getWatermark key)
  | .construct walletId => do
    require (decide (walletId ≠ []))
      "PgTransactionHistoryStorage: walletId must be a non-empty string"
    return .done
  | .getEntry storage hash => do
    require (safeText hash) ("PgTransactionHistoryStorage.get hash must not contain a NUL byte " ++
      "or an unpaired UTF-16 surrogate")
    return once (.selectEntry storage.walletId hash)
  | .got storage entry => do
    require (entryOk entry) (gotContext entry.lifecycle)
    return lift (writeRows entryOk mergeFn storage.walletId entry)

end UmbraDB.Boundary.Calls
