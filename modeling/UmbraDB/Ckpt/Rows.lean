import UmbraDB.Js.Text
import UmbraDB.Lib.Batches
import Mathlib.Algebra.GroupWithZero.Nat
import Mathlib.Data.Int.Notation
import Mathlib.Data.List.Sort

/-! # Checkpoint store: the tables and `save`, `load`, `prune`

The tables of `migrations/002_checkpoint_store.ts` as lists of rows in the order of insertion, and
the operations of `PgCheckpointStore` as functions of them. Each operation is one transaction: an
error of any of its statements leaves the tables as they were (a failed `save` may leave a gap in
the manifest ids, which no reader sees). Here an operation runs alone; the interleavings of their
statements are in `Ckpt.System`.

SHA-256 is a parameter, `sha256`, about which nothing is assumed here. `now` is `now()`, the start
of the transaction, in microseconds. -/

namespace UmbraDB.Ckpt.Rows

open UmbraDB.Js.Text UmbraDB.Lib.Batches

abbrev Bytes := List UInt8

structure ChunkRow where
  hash : Bytes
  data : Bytes
  createdAt : ℤ
  deriving DecidableEq

structure ManifestRow where
  id : ℕ
  w : JsString
  net : JsString
  seq : ℕ
  complete : Bool
  manifestHash : Bytes
  label : Option JsString
  createdAt : ℤ
  deriving DecidableEq

/-- A row of `ckpt_manifest_chunks`. -/
structure JunctionRow where
  manifestId : ℕ
  position : ℕ
  chunkHash : Bytes
  deriving DecidableEq

/-- A row of `ckpt_sequence_counters`. -/
structure CounterRow where
  w : JsString
  net : JsString
  nextSeq : ℕ
  deriving DecidableEq

/-- The four tables, and the next value of the sequence behind `ckpt_manifests.id`. -/
structure CkptDb where
  chunks : List ChunkRow
  manifests : List ManifestRow
  junction : List JunctionRow
  counters : List CounterRow
  nextId : ℕ
  deriving DecidableEq

def CkptDb.empty : CkptDb := ⟨[], [], [], [], 1⟩

inductive CkptError
  | validation (context : String)
  | checkpointNotFound (w net : JsString) (sequence : Option ℕ)
  | chunkMissing (chunkHash : Bytes)
  | chunkIntegrity (actualHash chunkHash : Bytes)
  | manifestCorrupt (manifestHash : Bytes) (reason : String)
  /-- `coerceToSafeNumber`. -/
  | unsafeInteger (context : String) (value : ℕ)
  /-- An error of the driver or the server, by SQLSTATE. -/
  | postgres (code : String)
  deriving DecidableEq

/-! ### Validation -/

/-- `CheckpointIdSchema`; the length is counted in code units. -/
def checkpointIdOk (id : JsString) : Bool :=
  decide (1 ≤ id.length) && decide (id.length ≤ 512) && !hasPostgresUnsafeText id

def assertValidCheckpointIds (w net : JsString) : Except CkptError Unit :=
  if !checkpointIdOk w then .error (.validation "PgCheckpointStore walletId")
  else if !checkpointIdOk net then .error (.validation "PgCheckpointStore networkId")
  else .ok ()

structure SaveOptions where
  chunkSize : Option ℕ
  label : Option JsString
  deriving DecidableEq

/-- `SaveCheckpointOptionsSchema`. -/
def validateSaveOptions (opts : SaveOptions) : Except CkptError SaveOptions :=
  if opts.chunkSize.all (fun n => decide (1 ≤ n) && decide (n ≤ 16 * 1024 * 1024)) &&
      opts.label.all (fun l => decide (l.length ≤ 200)) then .ok opts
  else .error (.validation "PgCheckpointStore.save opts")

def maxSafeInteger : ℕ := 9007199254740991

def coerceToSafeNumber (value : ℕ) (context : String) : Except CkptError ℕ :=
  if maxSafeInteger < value then .error (.unsafeInteger context value) else .ok value

/-! ### `save` -/

/-- `DEFAULT_CHUNK_SIZE`. -/
def defaultChunkSize : ℕ := 4 * 1024 * 1024

/-- `CHUNK_INSERT_MAX_ROWS`. -/
def chunkInsertMaxRows : ℕ := 30000

/-- `JUNCTION_INSERT_MAX_ROWS`. -/
def junctionInsertMaxRows : ℕ := 20000

/-- The driver rejects a statement with this many bind parameters. -/
def maxBindParams : ℕ := 65534

def splitChunks (data : Bytes) (chunkSize : ℕ) : List Bytes := batches chunkSize data

/-- The loop over `seenChunkHashes`: the rows of the chunk upsert, one for each hash. -/
def chunkRowsOf (sha256 : Bytes → Bytes) : List Bytes → List Bytes → List (Bytes × Bytes)
  | _, [] => []
  | seen, chunk :: chunks =>
    if seen.contains (sha256 chunk) then chunkRowsOf sha256 seen chunks
    else (sha256 chunk, chunk) :: chunkRowsOf sha256 (sha256 chunk :: seen) chunks

/-- One row of the upsert: `ON CONFLICT (hash) DO UPDATE SET created_at = now()`. -/
def upsertChunk (now : ℤ) (chunks : List ChunkRow) (row : Bytes × Bytes) : List ChunkRow :=
  if chunks.any (fun c => c.hash == row.1) then
    chunks.map fun c => if c.hash = row.1 then { c with createdAt := now } else c
  else chunks ++ [⟨row.1, row.2, now⟩]

/-- The multi-row upsert. It cannot touch a row twice (`21000`). -/
def upsertChunksStmt (now : ℤ) (chunks : List ChunkRow) (batch : List (Bytes × Bytes)) :
    Except CkptError (List ChunkRow) :=
  if maxBindParams ≤ 2 * batch.length then .error (.postgres "MAX_PARAMETERS_EXCEEDED")
  else if ¬ (batch.map (·.1)).Nodup then .error (.postgres "21000")
  else .ok (batch.foldl (upsertChunk now) chunks)

/-- `next_seq` of the counter row, if there is one. -/
def nextSeq (counters : List CounterRow) (w net : JsString) : Option ℕ :=
  (counters.find? fun c => c.w == w && c.net == net).map (·.nextSeq)

/-- The upsert-increment of the counter; `DEFAULT 2`, and `RETURNING next_seq - 1`. -/
def claimSeq (counters : List CounterRow) (w net : JsString) : List CounterRow × ℕ :=
  match nextSeq counters w net with
  | none => (counters ++ [⟨w, net, 2⟩], 1)
  | some n =>
    (counters.map fun c => if c.w = w ∧ c.net = net then { c with nextSeq := n + 1 } else c, n)

/-- The two foreign keys of a junction row. -/
def referencesOk (db : CkptDb) (row : JunctionRow) : Bool :=
  db.chunks.any (fun c => c.hash == row.chunkHash) &&
    db.manifests.any (fun m => m.id == row.manifestId)

/-- The multi-row insert: `position` is an `integer`, `(manifest_id, position)` the primary key. -/
def insertJunctionStmt (db : CkptDb) (batch : List JunctionRow) : Except CkptError CkptDb :=
  if maxBindParams ≤ 3 * batch.length then .error (.postgres "MAX_PARAMETERS_EXCEEDED")
  else if batch.any (fun row => decide (2147483647 < row.position)) then .error (.postgres "22003")
  else if ¬ ((db.junction ++ batch).map fun j => (j.manifestId, j.position)).Nodup then
    .error (.postgres "23505")
  else if ¬ batch.all (referencesOk db) then .error (.postgres "23503")
  else .ok { db with junction := db.junction ++ batch }

structure CheckpointSummary where
  sequence : ℕ
  manifestHash : Bytes
  byteLength : ℕ
  chunkCount : ℕ
  label : Option JsString
  createdAt : ℤ
  deriving DecidableEq

def toSummary (row : ManifestRow) (byteLength chunkCount : ℕ) :
    Except CkptError CheckpointSummary := do
  let sequence ← coerceToSafeNumber row.seq "CheckpointSummary.sequence"
  return ⟨sequence, row.manifestHash, byteLength, chunkCount, row.label, row.createdAt⟩

/-- A label as the column stores it. -/
def bindLabel : Option JsString → Except CkptError (Option JsString)
  | none => .ok none
  | some l =>
    match pgText l with
    | none => .error (.postgres "22021")
    | some l' => .ok (some l')

/-- One junction row for each position from `i` on. -/
def junctionRowsOf (manifestId : ℕ) : ℕ → List Bytes → List JunctionRow
  | _, [] => []
  | i, chunkHash :: hashes => ⟨manifestId, i, chunkHash⟩ :: junctionRowsOf manifestId (i + 1) hashes

/-- `runOnTx`: the chunk upsert, the sequence number, the manifest row with `complete = true`, and
one junction row for each position. -/
def saveImpl (sha256 : Bytes → Bytes) (now : ℤ) (w net : JsString) (data : Bytes)
    (opts : SaveOptions) (db : CkptDb) : Except CkptError (CkptDb × CheckpointSummary) := do
  let chunks := splitChunks data (opts.chunkSize.getD defaultChunkSize)
  let chunkHashes := chunks.map sha256
  let manifestHash := sha256 chunkHashes.flatten
  let stored ← (batches chunkInsertMaxRows (chunkRowsOf sha256 [] chunks)).foldlM
    (upsertChunksStmt now) db.chunks
  let (counters, seq) := claimSeq db.counters w net
  let label ← bindLabel opts.label
  let manifest : ManifestRow := ⟨db.nextId, w, net, seq, true, manifestHash, label, now⟩
  let junctionRows := junctionRowsOf manifest.id 0 chunkHashes
  let db' ← (batches junctionInsertMaxRows junctionRows).foldlM insertJunctionStmt
    ⟨stored, db.manifests ++ [manifest], db.junction, counters, db.nextId + 1⟩
  let summary ← toSummary manifest data.length chunks.length
  return (db', summary)

def save (sha256 : Bytes → Bytes) (now : ℤ) (w net : JsString) (data : Bytes)
    (opts : SaveOptions) (db : CkptDb) : Except CkptError (CkptDb × CheckpointSummary) := do
  assertValidCheckpointIds w net
  let opts ← validateSaveOptions opts
  saveImpl sha256 now w net data opts db

/-! ### `load` -/

/-- The complete manifests of the wallet and network. -/
def manifestsOf (db : CkptDb) (w net : JsString) : List ManifestRow :=
  db.manifests.filter fun m => m.w == w && m.net == net && m.complete

/-- `ORDER BY seq DESC`. -/
def bySeqDesc (ms : List ManifestRow) : List ManifestRow :=
  ms.insertionSort fun a b => b.seq ≤ a.seq

/-- `ORDER BY mc.position`. -/
def byPosition (js : List JunctionRow) : List JunctionRow :=
  js.insertionSort fun a b => a.position ≤ b.position

/-- The loop over the joined rows, from position `i` on: it checks each row and collects the data
and the hashes. -/
def checkRows (sha256 : Bytes → Bytes) (chunks : List ChunkRow) (manifestHash : Bytes) :
    ℕ → List JunctionRow → Except CkptError (List Bytes × List Bytes)
  | _, [] => .ok ([], [])
  | i, row :: rows =>
    if row.position ≠ i then
      .error (.manifestCorrupt manifestHash
        s!"position gap: expected {i}, got {row.position}")
    else
      match chunks.find? fun c => c.hash == row.chunkHash with
      | none => .error (.chunkMissing row.chunkHash)
      | some c =>
        if sha256 c.data ≠ row.chunkHash then
          .error (.chunkIntegrity (sha256 c.data) row.chunkHash)
        else do
          let (parts, hashes) ← checkRows sha256 chunks manifestHash (i + 1) rows
          return (c.data :: parts, row.chunkHash :: hashes)

structure CheckpointRecord where
  summary : CheckpointSummary
  data : Bytes
  deriving DecidableEq

def loadImpl (sha256 : Bytes → Bytes) (w net : JsString) (sequence : Option ℕ) (db : CkptDb) :
    Except CkptError CheckpointRecord := do
  match (bySeqDesc ((manifestsOf db w net).filter fun m => sequence.all (m.seq == ·))).head? with
  | none => .error (.checkpointNotFound w net sequence)
  | some manifest =>
    let chunkRows := byPosition (db.junction.filter fun j => j.manifestId == manifest.id)
    let (parts, hashes) ← checkRows sha256 db.chunks manifest.manifestHash 0 chunkRows
    if sha256 hashes.flatten ≠ manifest.manifestHash then
      .error (.manifestCorrupt manifest.manifestHash
        "recomputed manifest hash does not match the stored value")
    else
      let data := parts.flatten
      let summary ← toSummary manifest data.length chunkRows.length
      return ⟨summary, data⟩

def load (sha256 : Bytes → Bytes) (w net : JsString) (sequence : Option ℕ) (db : CkptDb) :
    Except CkptError CheckpointRecord := do
  assertValidCheckpointIds w net
  loadImpl sha256 w net sequence db

/-! ### `prune` -/

structure PruneResult where
  prunedSequences : List ℕ
  reclaimedChunks : ℕ
  reclaimedBytes : ℕ
  deriving DecidableEq

/-- `interval '15 minutes'`. -/
def graceWindow : ℤ := 15 * 60 * 1000000

/-- The subquery of the manifest delete: the sequence of the last checkpoint to keep, if there are
more than `retainCount`. -/
def keepFrom (db : CkptDb) (w net : JsString) (retainCount : ℕ) : Option ℕ :=
  ((bySeqDesc (manifestsOf db w net))[retainCount - 1]?).map (·.seq)

/-- The `WHERE` of the manifest delete. -/
def prunable (db : CkptDb) (w net : JsString) (retainCount : ℕ) (m : ManifestRow) : Bool :=
  m.w == w && m.net == net && m.complete &&
    (keepFrom db w net retainCount).any fun n => decide (m.seq < n)

/-- The manifest delete, with the junction rows it cascades to. -/
def deleteManifests (db : CkptDb) (w net : JsString) (retainCount : ℕ) : CkptDb :=
  let gone := db.manifests.filter (prunable db w net retainCount)
  { db with
    manifests := db.manifests.filter fun m => !prunable db w net retainCount m
    junction := db.junction.filter fun j => !gone.any fun m => m.id == j.manifestId }

/-- The `WHERE` of the chunk delete. -/
def reclaimable (now : ℤ) (junction : List JunctionRow) (c : ChunkRow) : Bool :=
  decide (c.createdAt < now - graceWindow) && !junction.any fun j => j.chunkHash == c.hash

def pruneImpl (now : ℤ) (w net : JsString) (retainCount : ℕ) (db : CkptDb) :
    Except CkptError (CkptDb × PruneResult) := do
  let pruned := db.manifests.filter (prunable db w net retainCount)
  let db₁ := deleteManifests db w net retainCount
  let reclaimed := db₁.chunks.filter (reclaimable now db₁.junction)
  let db₂ := { db₁ with chunks := db₁.chunks.filter fun c => !reclaimable now db₁.junction c }
  let prunedSequences ← pruned.mapM fun m =>
    coerceToSafeNumber m.seq "PruneResult.prunedSequences"
  return (db₂, ⟨prunedSequences, reclaimed.length, (reclaimed.map (·.data.length)).sum⟩)

def prune (now : ℤ) (w net : JsString) (retainCount : ℤ) (db : CkptDb) :
    Except CkptError (CkptDb × PruneResult) := do
  assertValidCheckpointIds w net
  if retainCount < 1 ∨ (maxSafeInteger : ℤ) < retainCount then
    .error (.validation "prune retainCount must be a safe integer >= 1")
  else pruneImpl now w net retainCount.toNat db

end UmbraDB.Ckpt.Rows
