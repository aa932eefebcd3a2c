import UmbraDB.Archive.Blocks
import UmbraDB.Lib.OnConflict

/-! # Chain archive: the tables and `putBlockBundle`

The tables of the archive as lists of rows, and the writers of `PgChainArchiveStore` as functions of
them. Each is one transaction: an error leaves the tables as they were. Here an operation runs
alone; the interleavings of those that write `blocks` are in `Archive.Blocks`.

Every `INSERT` ends in `ON CONFLICT … DO NOTHING`. That of `transactions` names no target, so a row
is dropped if another has its key or its position. The `BEFORE` triggers and the `CHECK`s come
before the conflict is looked for, the foreign key and the other unique index of `blocks` after it.

Numbers are non-negative integers; the server rejects all others. `net` is the text as the driver
sends it, and the hashes are given by their bytes: a text that is not 64 hexadecimal digits is one
of another length. -/

namespace UmbraDB.Archive.Bundle

open UmbraDB.Js.Text UmbraDB.Ckpt.Rows UmbraDB.Archive.Blocks UmbraDB.Lib

/-! ### Records and rows -/

inductive BlobRole
  | blockHeader
  | blockBody
  | txRaw
  | proof
  | verifierKey
  | bridgeObservation
  deriving DecidableEq

inductive TransactionKind
  | regular
  | system
  deriving DecidableEq

inductive TransactionResult
  | success
  | partialSuccess
  | failure
  deriving DecidableEq

inductive BridgeObservationKind
  | cnightRegistration
  | systemParametersD
  | spoRegistration
  | other
  deriving DecidableEq

/-- `block` is `net`, `blockHeight` and `blockHash`. -/
structure TransactionRecord where
  block : BlockKey
  txHash : Bytes
  position : ℕ
  kind : TransactionKind
  protocolVersion : ℕ
  result : Option TransactionResult
  rawBytes : Bytes
  deriving DecidableEq

structure BridgeObservationRecord where
  block : BlockKey
  observationIndex : ℕ
  kind : BridgeObservationKind
  rawBytes : Bytes
  deriving DecidableEq

structure BlockBundle where
  block : BlockRecord
  transactions : List TransactionRecord
  bridgeObservations : List BridgeObservationRecord

/-- A row of `chain_blobs`. -/
structure BlobRow where
  hash : Bytes
  data : Bytes
  deriving DecidableEq

/-- A row of `chain_blob_roles`. -/
structure RoleRow where
  blobHash : Bytes
  role : BlobRole
  deriving DecidableEq

/-- A row of `blocks` with its key. -/
structure StoredBlock where
  key : BlockKey
  row : BlockRow
  deriving DecidableEq

/-- A row of `transactions`. -/
structure TxRow where
  block : BlockKey
  txHash : Bytes
  position : ℕ
  kind : TransactionKind
  protocolVersion : ℕ
  result : Option TransactionResult
  rawBlobHash : Bytes
  deriving DecidableEq

/-- A row of `bridge_observations`. -/
structure ObservationRow where
  block : BlockKey
  observationIndex : ℕ
  kind : BridgeObservationKind
  rawBlobHash : Bytes
  deriving DecidableEq

structure Tables where
  blobs : List BlobRow
  roles : List RoleRow
  blocks : List StoredBlock
  transactions : List TxRow
  observations : List ObservationRow

def Tables.empty : Tables := ⟨[], [], [], [], []⟩

inductive BundleError
  /-- `ValidationError` of `assertHex32`. -/
  | validation
  /-- A `CHECK`, or a number outside the type of its column. -/
  | checkViolation
  /-- `chain_blob_roles_completeness`. -/
  | roleMissing
  /-- `blocks_one_canonical_per_height`. -/
  | uniqueViolation
  | foreignKeyViolation
  | finalizedMonotonic
  | blockNotFound
  deriving DecidableEq

/-! ### Conflicts -/

/-- `PRIMARY KEY (hash)`. -/
def blobConflict (x r : BlobRow) : Bool := x.hash == r.hash

/-- `PRIMARY KEY (blob_hash, role)`. -/
def roleConflict (x r : RoleRow) : Bool := x == r

/-- `PRIMARY KEY (net, height, block_hash)`. -/
def blockConflict (x r : StoredBlock) : Bool := x.key == r.key

/-- `PRIMARY KEY (net, block_height, block_hash, tx_hash)` and
`UNIQUE (net, block_height, block_hash, position)`. -/
def txConflict (x r : TxRow) : Bool :=
  x.block == r.block && (x.txHash == r.txHash || x.position == r.position)

/-- `PRIMARY KEY (net, block_height, block_hash, observation_index)`. -/
def observationConflict (x r : ObservationRow) : Bool :=
  x.block == r.block && x.observationIndex == r.observationIndex

/-! ### The statements -/

variable (sha256 : Bytes → Bytes)

def blobRow (data : Bytes) : BlobRow := ⟨sha256 data, data⟩

def TransactionRecord.row (t : TransactionRecord) : TxRow :=
  ⟨t.block, t.txHash, t.position, t.kind, t.protocolVersion, t.result, sha256 t.rawBytes⟩

def BridgeObservationRecord.row (o : BridgeObservationRecord) : ObservationRow :=
  ⟨o.block, o.observationIndex, o.kind, sha256 o.rawBytes⟩

/-- `BlockRecord.row` with the key. -/
def storedBlock (b : BlockRecord) : StoredBlock := ⟨b.key, b.row sha256⟩

/-- The largest `bigint`. -/
def bigintMax : ℕ := 9223372036854775807

/-- The largest `integer`. -/
def int4Max : ℕ := 2147483647

/-- The two `INSERT`s of a blob and its role. -/
def putBlob (s : Tables) (data : Bytes) (role : BlobRole) : Tables :=
  { s with
    blobs := OnConflict.insert blobConflict s.blobs (blobRow sha256 data)
    roles := OnConflict.insert roleConflict s.roles ⟨sha256 data, role⟩ }

/-- `chain_archive_assert_blob_role`. -/
def hasRole (s : Tables) (hash : Bytes) (role : BlobRole) : Bool := s.roles.contains ⟨hash, role⟩

/-- `blocks_one_canonical_per_height`: another block of the height is canonical. -/
def canonicalTaken (s : Tables) (r : StoredBlock) : Bool :=
  r.row.isCanonical && s.blocks.any fun x =>
    decide (x.key.sameHeight r.key) && x.key != r.key && x.row.isCanonical

/-- `blocks_check_blob_roles`. -/
def blockRoles (s : Tables) (r : StoredBlock) : Bool :=
  hasRole s r.row.headerBlobHash .blockHeader &&
    r.row.bodyBlobHash.all fun h => hasRole s h .blockBody

/-- The `CHECK`s and the types of the columns. -/
def blockChecks (r : StoredBlock) : Bool := r.row.checksOk && decide (r.key.height ≤ bigintMax)

def txChecks (r : TxRow) : Bool :=
  hex32Ok r.txHash && hex32Ok r.block.blockHash && decide (r.block.height ≤ bigintMax) &&
    decide (r.position ≤ int4Max) && decide (r.protocolVersion ≤ int4Max)

def observationChecks (r : ObservationRow) : Bool :=
  hex32Ok r.block.blockHash && decide (r.block.height ≤ bigintMax) &&
    decide (r.observationIndex ≤ int4Max)

/-- The `INSERT` into `blocks`. -/
def insertBlock (s : Tables) (r : StoredBlock) : Except BundleError Tables :=
  if blockRoles s r = false then .error .roleMissing
  else if blockChecks r = false then .error .checkViolation
  else if s.blocks.any fun x => blockConflict x r then .ok s
  else if canonicalTaken s r then .error .uniqueViolation
  else .ok { s with blocks := s.blocks ++ [r] }

/-- The referenced row of `blocks` is there. -/
def hasBlock (s : Tables) (k : BlockKey) : Bool := s.blocks.any fun x => x.key == k

/-- The `INSERT` into `transactions`. -/
def insertTx (s : Tables) (r : TxRow) : Except BundleError Tables :=
  if hasRole s r.rawBlobHash .txRaw = false then .error .roleMissing
  else if txChecks r = false then .error .checkViolation
  else if s.transactions.any fun x => txConflict x r then .ok s
  else if hasBlock s r.block = false then .error .foreignKeyViolation
  else .ok { s with transactions := s.transactions ++ [r] }

/-- The `INSERT` into `bridge_observations`. -/
def insertObservation (s : Tables) (r : ObservationRow) : Except BundleError Tables :=
  if hasRole s r.rawBlobHash .bridgeObservation = false then .error .roleMissing
  else if observationChecks r = false then .error .checkViolation
  else if s.observations.any fun x => observationConflict x r then .ok s
  else if hasBlock s r.block = false then .error .foreignKeyViolation
  else .ok { s with observations := s.observations ++ [r] }

/-! ### The writers -/

/-- What `putBlock` and `putBlockBundle` return. -/
structure BlobHashes where
  headerBlobHash : Bytes
  bodyBlobHash : Option Bytes
  deriving DecidableEq

def insertBlockRow (s : Tables) (block : BlockRecord) : Except BundleError (Tables × BlobHashes) :=
  let s₁ := putBlob sha256 s block.headerBytes .blockHeader
  let s₂ := match block.bodyBytes with
    | none => s₁
    | some body => putBlob sha256 s₁ body .blockBody
  (insertBlock s₂ (storedBlock sha256 block)).map fun s' =>
    (s', ⟨sha256 block.headerBytes, block.bodyBytes.map sha256⟩)

def insertTransactionRow (s : Tables) (t : TransactionRecord) : Except BundleError Tables :=
  insertTx (putBlob sha256 s t.rawBytes .txRaw) (t.row sha256)

def insertTransactionRows (s : Tables) : List TransactionRecord → Except BundleError Tables
  | [] => .ok s
  | t :: txs => (insertTransactionRow sha256 s t).bind fun s' => insertTransactionRows s' txs

def insertBridgeObservationRow (s : Tables) (o : BridgeObservationRecord) :
    Except BundleError Tables :=
  insertObservation (putBlob sha256 s o.rawBytes .bridgeObservation) (o.row sha256)

def insertBridgeObservationRows (s : Tables) :
    List BridgeObservationRecord → Except BundleError Tables
  | [] => .ok s
  | o :: obs => (insertBridgeObservationRow sha256 s o).bind fun s' =>
      insertBridgeObservationRows s' obs

/-- `sql.begin`: an error rolls the tables back. -/
def inTransaction {A : Type} (s : Tables) (body : Tables → Except BundleError (Tables × A)) :
    Except BundleError A × Tables :=
  match body s with
  | .ok (s', a) => (.ok a, s')
  | .error e => (.error e, s)

/-- `assertHex32` of the hashes of a transaction. -/
def TransactionRecord.valid (t : TransactionRecord) : Bool :=
  hex32Ok t.txHash && hex32Ok t.block.blockHash

def putBlock (s : Tables) (block : BlockRecord) : Except BundleError BlobHashes × Tables :=
  if block.valid then inTransaction s fun s => insertBlockRow sha256 s block
  else (.error .validation, s)

def putTransactions (s : Tables) (txs : List TransactionRecord) :
    Except BundleError Unit × Tables :=
  if txs.all (·.valid) then
    inTransaction s fun s => (insertTransactionRows sha256 s txs).map fun s' => (s', ())
  else (.error .validation, s)

def putBridgeObservations (s : Tables) (obs : List BridgeObservationRecord) :
    Except BundleError Unit × Tables :=
  inTransaction s fun s => (insertBridgeObservationRows sha256 s obs).map fun s' => (s', ())

/-- The callback of `putBlockBundle`. -/
def bundleRows (s : Tables) (b : BlockBundle) : Except BundleError (Tables × BlobHashes) :=
  (insertBlockRow sha256 s b.block).bind fun (s₁, result) =>
    (insertTransactionRows sha256 s₁ b.transactions).bind fun s₂ =>
      (insertBridgeObservationRows sha256 s₂ b.bridgeObservations).map fun s₃ => (s₃, result)

def putBlockBundle (s : Tables) (b : BlockBundle) : Except BundleError BlobHashes × Tables :=
  if b.block.valid && b.transactions.all (·.valid) then
    inTransaction s fun s => bundleRows sha256 s b
  else (.error .validation, s)

/-- `setCanonical`: the two `UPDATE`s. -/
def setCanonicalRows (s : Tables) (key : BlockKey) (finalized : Option Bool) :
    Except BundleError (Tables × Unit) :=
  let demotes (x : StoredBlock) : Bool :=
    decide (x.key.sameHeight key) && x.row.isCanonical && x.key != key
  if s.blocks.any fun x => demotes x && !x.row.demoted.checksOk then .error .checkViolation
  else
    let blocks := s.blocks.map fun x => if demotes x then ⟨x.key, x.row.demoted⟩ else x
    let unfinalizes (x : StoredBlock) : Bool :=
      x.key == key && x.row.finalized && !(x.row.promoted finalized).finalized
    if (blocks.any fun x => x.key == key) = false then .error .blockNotFound
    else if blocks.any unfinalizes then .error .finalizedMonotonic
    else .ok ({ s with blocks := blocks.map fun x =>
      if x.key = key then ⟨x.key, x.row.promoted finalized⟩ else x }, ())

def setCanonical (s : Tables) (key : BlockKey) (finalized : Option Bool) :
    Except BundleError Unit × Tables :=
  if hex32Ok key.blockHash then inTransaction s fun s => setCanonicalRows s key finalized
  else (.error .validation, s)

/-- A call of the store. `putBlobWithRole` stands for the blob of `putVerifierKeyObservation` as
well; its table is not read here. -/
inductive Op
  | putBlobWithRole (data : Bytes) (role : BlobRole)
  | putBlock (block : BlockRecord)
  | putTransactions (txs : List TransactionRecord)
  | putBridgeObservations (obs : List BridgeObservationRecord)
  | putBlockBundle (b : BlockBundle)
  | setCanonical (key : BlockKey) (finalized : Option Bool)

def applyOp (s : Tables) : Op → Tables
  | .putBlobWithRole data role => putBlob sha256 s data role
  | .putBlock block => (putBlock sha256 s block).2
  | .putTransactions txs => (putTransactions sha256 s txs).2
  | .putBridgeObservations obs => (putBridgeObservations sha256 s obs).2
  | .putBlockBundle b => (putBlockBundle sha256 s b).2
  | .setCanonical key finalized => (setCanonical s key finalized).2

/-- The calls, one after the other. -/
def runOps (ops : List Op) (s : Tables) : Tables := ops.foldl (applyOp sha256) s

/-- The states of the archive. -/
def Reachable (s : Tables) : Prop := ∃ ops, s = runOps sha256 ops .empty

/-- `getBlob`; `none` when it throws. -/
def getBlob (s : Tables) (hash : Bytes) : Option Bytes :=
  if hex32Ok hash then
    (s.blobs.find? fun x => x.hash == hash).bind fun x =>
      if sha256 x.data = hash then some x.data else none
  else none

end UmbraDB.Archive.Bundle
