import UmbraDB.Archive.Blocks
import UmbraDB.Js.Numerals
import UmbraDB.Lib.InsertOnly
import UmbraDB.Lib.Runs

/-! # Chain archive: `syncOnce`

Any number of instances of `ChainArchiveSyncService` for one network and any number of calls of
`syncOnce` on each of them, whose steps are interleaved in any way. A step is an answer of the node
or of the indexer, a statement, or what the service does when a promise resolves.

The node and the indexer answer every query about a finalized height alike (`Chain`); which height
is the finalized head is left open for every call. `putBlockBundle` is a transaction: its `INSERT`s
do nothing when the row is there, wait for another transaction that has inserted it, and else insert
it. Rows of one height have one block hash, so the index `blocks_one_canonical_per_height` has
nothing to compare; the blobs a row refers to are written before it and are left out, and an
observation is kept with the bytes of its blob. `setWatermark` is a statement of its own.

A call can end at any step: by an error, or because its instance dies. A `COMMIT` may have been
executed when it does. A new instance has a new number and remembers nothing. -/

namespace UmbraDB.Archive.Sync

open UmbraDB.Js.Text UmbraDB.Js.Numerals UmbraDB.Lib.RowStore UmbraDB.Lib.InsertOnly
open UmbraDB.Ckpt.Rows UmbraDB.Archive.Blocks

/-! ### What the node and the indexer report -/

structure NodeBlock where
  blockHash : JsString
  parentHash : JsString
  stateRoot : JsString
  extrinsicsRoot : JsString
  /-- `headerBytes` of the header, its canonical JSON. -/
  headerBytes : Bytes
  extrinsics : List JsString
  /-- `extrinsicsBytes` of the extrinsics, their canonical JSON. -/
  bodyBytes : Bytes

structure IndexerTransaction where
  hash : JsString
  protocolVersion : ℕ
  raw : JsString

structure DParameter where
  numPermissionedCandidates : ℕ
  numRegisteredCandidates : ℕ
  deriving DecidableEq

structure IndexerBlock where
  hash : JsString
  transactions : List IndexerTransaction
  dParameter : DParameter

/-- The answers of the node and of the indexer, by height. -/
structure Chain where
  node : ℕ → NodeBlock
  indexer : ℕ → IndexerBlock

def hexNoPrefix (hex : JsString) : JsString :=
  if (ascii "0x").isPrefixOf hex then hex.drop 2 else hex

/-- The value of a hexadecimal digit. -/
def hexDigit (u : UInt16) : Option ℕ :=
  if isDigit u then some (digitValue u)
  else if 97 ≤ u.toNat ∧ u.toNat ≤ 102 then some (u.toNat - 87)
  else if 65 ≤ u.toNat ∧ u.toNat ≤ 70 then some (u.toNat - 55)
  else none

/-- `Buffer.from(hex, "hex")`: it stops at the first pair that is not hexadecimal. -/
def hexToBuf : JsString → Bytes
  | a :: b :: hex =>
    match hexDigit a, hexDigit b with
    | some x, some y => UInt8.ofNat (16 * x + y) :: hexToBuf hex
    | _, _ => []
  | _ => []

/-- `Hex32Schema`. -/
def isHex32 (hex : JsString) : Bool :=
  hex.length == 64 && hex.all fun u => isDigit u || (decide (97 ≤ u) && decide (u ≤ 102))

/-! ### The records of a block -/

inductive SyncError
  | blockHashMismatch (height : ℕ)
  | rawNotInBody (height : ℕ) (hash : JsString)
  /-- `ValidationError` of `putBlockBundle`. -/
  | validation (field : String)
  deriving DecidableEq

inductive TxKind
  | regular
  | system
  deriving DecidableEq

/-- The argument of `putTransactions`; `result` is not reported. -/
structure TransactionRecord where
  net : JsString
  txHash : JsString
  blockHeight : ℕ
  blockHash : JsString
  position : ℕ
  kind : TxKind
  protocolVersion : ℕ
  rawBytes : Bytes
  deriving DecidableEq

/-- The primary key of `transactions`. -/
structure TxKey where
  block : BlockKey
  txHash : Bytes
  deriving DecidableEq

/-- A row of `transactions` without its key and `synced_at`. -/
structure TxRow where
  position : ℕ
  kind : TxKind
  protocolVersion : ℕ
  rawBlobHash : Bytes
  deriving DecidableEq

def TransactionRecord.block (t : TransactionRecord) : BlockKey :=
  ⟨t.net, t.blockHeight, hexToBuf t.blockHash⟩

def TransactionRecord.key (t : TransactionRecord) : TxKey := ⟨t.block, hexToBuf t.txHash⟩

def TransactionRecord.row (sha256 : Bytes → Bytes) (t : TransactionRecord) : TxRow :=
  ⟨t.position, t.kind, t.protocolVersion, sha256 t.rawBytes⟩

/-- A `system_parameters_d` observation; its `observation_index` is 0. -/
structure ObservationRecord where
  block : BlockKey
  rawBytes : Bytes
  deriving DecidableEq

/-- `SYSTEM_TX_TAG`. -/
def systemTxTag : JsString := ascii "midnight:system-transaction"

/-- `tx_raw` begins with the tag of a system transaction. -/
def txKind (rawBytes : Bytes) : TxKind :=
  if (systemTxTag.map fun u => UInt8.ofNat u.toNat).isPrefixOf rawBytes then .system else .regular

/-- `s.includes(t)`. -/
def includes (s t : JsString) : Bool := s.tails.any fun u => t.isPrefixOf u

/-- The `map` of `buildTransactionRecords`, from a position on. -/
def buildTransactionRecords (net : JsString) (height : ℕ) (blockHash : JsString)
    (nodeExtrinsics : List JsString) :
    List IndexerTransaction → ℕ → Except SyncError (List TransactionRecord)
  | [], _ => .ok []
  | tx :: txs, position => do
    let rawHex := hexNoPrefix tx.raw
    let rawBytes := hexToBuf rawHex
    let kind := txKind rawBytes
    if kind = .regular ∧ ¬ (nodeExtrinsics.map hexNoPrefix).any (includes · rawHex) then
      .error (.rawNotInBody height (hexNoPrefix tx.hash))
    let ts ← buildTransactionRecords net height blockHash nodeExtrinsics txs (position + 1)
    return ⟨net, hexNoPrefix tx.hash, height, blockHash, position, kind, tx.protocolVersion,
      rawBytes⟩ :: ts

/-- `assertHex32`. -/
def assertHex32 (value : JsString) (field : String) : Except SyncError Unit :=
  if isHex32 value then .ok () else .error (.validation field)

/-- What `ingestOneBlock` gives to `putBlockBundle`, without the observations. -/
structure Bundle where
  block : BlockRecord
  transactions : List TransactionRecord
  deriving DecidableEq

/-- The records of a height. Everything is built, and validated by `putBlockBundle`, before its first
statement. -/
def bundleOf (chain : Chain) (net : JsString) (height : ℕ) : Except SyncError Bundle := do
  let node := chain.node height
  let indexer := chain.indexer height
  let blockHash := hexNoPrefix node.blockHash
  let parentHash := hexNoPrefix node.parentHash
  let stateRoot := hexNoPrefix node.stateRoot
  let extrinsicsRoot := hexNoPrefix node.extrinsicsRoot
  if hexNoPrefix indexer.hash ≠ blockHash then .error (.blockHashMismatch height)
  let txs ← buildTransactionRecords net height blockHash node.extrinsics indexer.transactions 0
  assertHex32 blockHash "putBlockBundle.blockHash"
  assertHex32 parentHash "putBlockBundle.parentHash"
  assertHex32 stateRoot "putBlockBundle.stateRoot"
  assertHex32 extrinsicsRoot "putBlockBundle.extrinsicsRoot"
  txs.forM fun t => do
    assertHex32 t.txHash "putBlockBundle.transactions.txHash"
    assertHex32 t.blockHash "putBlockBundle.transactions.blockHash"
  return ⟨⟨net, hexToBuf blockHash, height, hexToBuf parentHash, hexToBuf stateRoot,
    hexToBuf extrinsicsRoot, none, node.headerBytes, some node.bodyBytes, true, .canonical, true⟩,
    txs⟩

/-- The JSON text of a D-parameter. -/
def dParameterJson (d : DParameter) : JsString :=
  ascii "\x7b\"numPermissionedCandidates\":" ++ natText d.numPermissionedCandidates ++
    ascii ",\"numRegisteredCandidates\":" ++ natText d.numRegisteredCandidates ++ ascii "\x7d"

/-- The bytes of a text of ASCII characters. -/
def encodeAscii (s : JsString) : Bytes := s.map fun u => UInt8.ofNat u.toNat

/-- `buildBridgeObservationRecords`: the observation, unless the instance remembers its value, and
the value to remember. -/
def buildBridgeObservationRecords (block : BlockKey) (d : DParameter)
    (lastDParameterJson : Option JsString) : List ObservationRecord × Option JsString :=
  let json := dParameterJson d
  if lastDParameterJson = some json then ([], none)
  else ([⟨block, encodeAscii json⟩], some json)

/-! ### The system -/

/-- The `INSERT`s of a bundle. -/
inductive Insert
  | block (b : BlockRecord)
  | transaction (t : TransactionRecord)
  | observation (o : ObservationRecord)
  deriving DecidableEq

def Bundle.inserts (b : Bundle) (obs : List ObservationRecord) : List Insert :=
  .block b.block :: (b.transactions.map .transaction ++ obs.map .observation)

/-- Where a call of `syncOnce` is. -/
inductive Stage
  | called
  /-- `targetTipHeight` is known. -/
  | targeted (targetTipHeight : ℕ)
  /-- At the top of the loop, with the last height to ingest. -/
  | loop (height endHeight : ℕ)
  /-- In `putBlockBundle`, with the `INSERT`s that are left. -/
  | writing (height endHeight : ℕ) (newDParameterJson : Option JsString) (todo : List Insert)
  /-- The transaction is committed, and the service has not heard of it yet. -/
  | written (height endHeight : ℕ) (newDParameterJson : Option JsString)
  /-- `ingestOneBlock` has returned. -/
  | ingested (height endHeight : ℕ)
  | ended

/-- A call of `syncOnce` on an instance. A `maxBlocks` that is not a whole number acts as one. -/
structure Call where
  service : ℕ
  maxBlocks : ℤ
  stage : Stage

/-- `UNIQUE (net, block_height, block_hash, position)`. -/
structure PositionKey where
  block : BlockKey
  position : ℕ
  deriving DecidableEq

def TransactionRecord.positionKey (t : TransactionRecord) : PositionKey := ⟨t.block, t.position⟩

/-- The archive, the instances and the calls. A transaction is given by its call and its height. -/
structure SyncState where
  blocks : Table (ℕ × ℕ) BlockKey (Option BlockRow)
  transactions : Table (ℕ × ℕ) TxKey (Option TxRow)
  positions : Table (ℕ × ℕ) PositionKey (Option Bytes)
  /-- The `system_parameters_d` observations with `observation_index` 0. -/
  observations : Table (ℕ × ℕ) BlockKey (Option Bytes)
  /-- `height` of the sync cursor. -/
  watermark : Option ℕ
  lastDParameterJson : ℕ → Option JsString
  calls : ℕ → Option Call

def SyncState.init : SyncState :=
  ⟨.fresh fun _ => none, .fresh fun _ => none, .fresh fun _ => none, .fresh fun _ => none, none,
    fun _ => none, fun _ => none⟩

def SyncState.setStage (s : SyncState) (c : ℕ) (x : Call) (stage : Stage) : SyncState :=
  { s with calls := Function.update s.calls c (some { x with stage := stage }) }

/-- A statement of a bundle. A transaction or an observation needs its block (the foreign key). -/
def insertStmt (sha256 : Bytes → Bytes) (s : SyncState) (t : ℕ × ℕ) : Insert → Option SyncState
  | .block b => do
    let blocks ← insertRow s.blocks t b.key (b.row sha256)
    return { s with blocks := blocks }
  | .transaction x =>
    if (s.blocks.view t x.block).isNone then none
    else if (s.transactions.view t x.key).isSome ∨ (s.positions.view t x.positionKey).isSome then
      some s
    else if s.transactions.free t x.key = true ∧ s.positions.free t x.positionKey = true then
      some { s with
        transactions := s.transactions.write t x.key (some (x.row sha256))
        positions := s.positions.write t x.positionKey (some x.key.txHash) }
    else none
  | .observation o =>
    if (s.blocks.view t o.block).isNone then none
    else do
      let observations ← insertRow s.observations t o.block o.rawBytes
      return { s with observations := observations }

/-- `setWatermark` with `{ height }`: the value is replaced only by a greater one. -/
def setWatermark (stored : Option ℕ) (height : ℕ) : Option ℕ :=
  match stored with
  | none => some height
  | some h => if h < height then some height else some h

/-- The end of `ingestOneBlock`: the value is remembered after the durable write. -/
def remember (last : ℕ → Option JsString) (service : ℕ) :
    Option JsString → ℕ → Option JsString
  | none => last
  | some json => Function.update last service (some json)

inductive Ev
  | call (c service : ℕ) (maxBlocks : ℤ)
  /-- `getFinalizedHead` and `getHeightOf`. -/
  | target (c targetTipHeight : ℕ)
  /-- `getSyncedHeight`. -/
  | readCursor (c : ℕ)
  /-- The node and the indexer have answered. -/
  | build (c : ℕ)
  | insert (c : ℕ)
  | commit (c : ℕ)
  /-- `putBlockBundle` resolves. -/
  | resolve (c : ℕ)
  | mark (c : ℕ)
  /-- The call throws, or its instance dies. -/
  | fail (c : ℕ)

/-- The loop bounds of `syncOnce`. -/
def loopFrom (watermark : Option ℕ) (maxBlocks : ℤ) (targetTipHeight : ℕ) : Stage :=
  let startHeight := watermark.elim 0 (· + 1)
  let endHeight := min (targetTipHeight : ℤ) (startHeight + maxBlocks - 1)
  if targetTipHeight < startHeight then .ended
  else if (startHeight : ℤ) ≤ endHeight then .loop startHeight endHeight.toNat
  else .ended

def SyncState.rollback (s : SyncState) (t : ℕ × ℕ) : SyncState :=
  { s with
    blocks := s.blocks.rollback t
    transactions := s.transactions.rollback t
    positions := s.positions.rollback t
    observations := s.observations.rollback t }

def SyncState.commit (s : SyncState) (t : ℕ × ℕ) : SyncState :=
  { s with
    blocks := s.blocks.commit t
    transactions := s.transactions.commit t
    positions := s.positions.commit t
    observations := s.observations.commit t }

/-- A step of the call `x` with number `c`. -/
def callStep (sha256 : Bytes → Bytes) (chain : Chain) (net : JsString) (s : SyncState) (c : ℕ)
    (x : Call) : Ev → Stage → Option SyncState
  | .target _ tip, .called => some (s.setStage c x (.targeted tip))
  | .readCursor _, .targeted tip =>
    some (s.setStage c x (loopFrom s.watermark x.maxBlocks tip))
  | .build _, .loop height endHeight =>
    match bundleOf chain net height with
    | .error _ => some (s.setStage c x .ended)
    | .ok b =>
      let r := buildBridgeObservationRecords b.block.key (chain.indexer height).dParameter
        (s.lastDParameterJson x.service)
      some (s.setStage c x (.writing height endHeight r.2 (b.inserts r.1)))
  | .insert _, .writing height endHeight newJson (q :: todo) =>
    (insertStmt sha256 s (c, height) q).map fun s' =>
      s'.setStage c x (.writing height endHeight newJson todo)
  | .commit _, .writing height endHeight newJson [] =>
    some ((s.commit (c, height)).setStage c x (.written height endHeight newJson))
  | .resolve _, .written height endHeight newJson =>
    some { s.setStage c x (.ingested height endHeight) with
      lastDParameterJson := remember s.lastDParameterJson x.service newJson }
  | .mark _, .ingested height endHeight =>
    some { s.setStage c x (if height < endHeight then .loop (height + 1) endHeight else .ended) with
      watermark := setWatermark s.watermark height }
  | .fail _, .writing height _ _ _ => some ((s.rollback (c, height)).setStage c x .ended)
  | .fail _, _ => some (s.setStage c x .ended)
  | _, _ => none

/-- The call of an event. -/
def Ev.id : Ev → ℕ
  | .call c _ _ => c
  | .target c _ => c
  | .readCursor c => c
  | .build c => c
  | .insert c => c
  | .commit c => c
  | .resolve c => c
  | .mark c => c
  | .fail c => c

def step (sha256 : Bytes → Bytes) (chain : Chain) (net : JsString) (s : SyncState) (e : Ev) :
    Option SyncState :=
  match e, s.calls e.id with
  | .call c service maxBlocks, none =>
    some { s with calls := Function.update s.calls c (some ⟨service, maxBlocks, .called⟩) }
  | .call _ _ _, some _ => none
  | _, none => none
  | e, some x => callStep sha256 chain net s e.id x e x.stage

/-! ### What a step can do -/

section Moves

variable (sha256 : Bytes → Bytes) (chain : Chain) (net : JsString)

/-- The steps of the call `x` with number `c`, one for each way the code goes on. -/
inductive Move (s : SyncState) (c : ℕ) (x : Call) : Ev → SyncState → Prop
  | target {tip : ℕ} (h : x.stage = .called) : Move s c x (.target c tip)
      (s.setStage c x (.targeted tip))
  | readCursor {tip : ℕ} (h : x.stage = .targeted tip) : Move s c x (.readCursor c)
      (s.setStage c x (loopFrom s.watermark x.maxBlocks tip))
  | reject {height e : ℕ} {err : SyncError} (h : x.stage = .loop height e)
      (hb : bundleOf chain net height = .error err) : Move s c x (.build c) (s.setStage c x .ended)
  | build {height e : ℕ} {b : Bundle} {r : List ObservationRecord × Option JsString}
      (h : x.stage = .loop height e) (hb : bundleOf chain net height = .ok b)
      (hr : r = buildBridgeObservationRecords b.block.key (chain.indexer height).dParameter
        (s.lastDParameterJson x.service)) :
      Move s c x (.build c) (s.setStage c x (.writing height e r.2 (b.inserts r.1)))
  | insert {height e : ℕ} {json : Option JsString} {q : Insert} {todo : List Insert}
      {s' : SyncState} (h : x.stage = .writing height e json (q :: todo))
      (hi : insertStmt sha256 s (c, height) q = some s') :
      Move s c x (.insert c) (s'.setStage c x (.writing height e json todo))
  | commit {height e : ℕ} {json : Option JsString} (h : x.stage = .writing height e json []) :
      Move s c x (.commit c) ((s.commit (c, height)).setStage c x (.written height e json))
  | resolve {height e : ℕ} {json : Option JsString} (h : x.stage = .written height e json) :
      Move s c x (.resolve c) { s.setStage c x (.ingested height e) with
        lastDParameterJson := remember s.lastDParameterJson x.service json }
  | mark {height e : ℕ} (h : x.stage = .ingested height e) :
      Move s c x (.mark c) { s.setStage c x (if height < e then .loop (height + 1) e else .ended) with
        watermark := setWatermark s.watermark height }
  | abort {height e : ℕ} {json : Option JsString} {todo : List Insert}
      (h : x.stage = .writing height e json todo) :
      Move s c x (.fail c) ((s.rollback (c, height)).setStage c x .ended)
  | fail (h : ∀ height e json todo, x.stage ≠ .writing height e json todo) :
      Move s c x (.fail c) (s.setStage c x .ended)

variable {sha256 chain net}

theorem move_of_callStep {s s' : SyncState} {x : Call} {e : Ev}
    (h : callStep sha256 chain net s e.id x e x.stage = some s') :
    Move sha256 chain net s e.id x e s' := by
  generalize hst : x.stage = stage at h
  unfold callStep at h
  split at h
  · cases h
    exact .target hst
  · cases h
    exact .readCursor hst
  · split at h
    · rename_i hb
      cases h
      exact .reject hst hb
    · rename_i b hb
      cases h
      exact .build hst hb rfl
  · rw [Option.map_eq_some_iff] at h
    obtain ⟨s₁, hi, rfl⟩ := h
    exact .insert hst hi
  · cases h
    exact .commit hst
  · cases h
    exact .resolve hst
  · cases h
    exact .mark hst
  · cases h
    exact .abort hst
  · rename_i hne
    cases h
    exact .fail fun height e json todo hw => hne height e json todo (hst.symm.trans hw)
  · cases h

/-- **What a step does**: a new call, or a move of one that is there. -/
theorem step_cases {s s' : SyncState} {e : Ev} (h : step sha256 chain net s e = some s') :
    (∃ c service maxBlocks, e = .call c service maxBlocks ∧ s.calls c = none ∧
      s' = { s with calls := Function.update s.calls c (some ⟨service, maxBlocks, .called⟩) }) ∨
    ∃ x, s.calls e.id = some x ∧ Move sha256 chain net s e.id x e s' := by
  unfold step at h
  split at h
  · rename_i c service maxBlocks hc
    cases h
    exact Or.inl ⟨c, service, maxBlocks, rfl, hc, rfl⟩
  · cases h
  · cases h
  · rename_i x _ hx
    exact Or.inr ⟨x, hx, move_of_callStep h⟩

end Moves

end UmbraDB.Archive.Sync
