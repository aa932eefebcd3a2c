import UmbraDB.Ckpt.Rows
import UmbraDB.Lib.RowStore
import UmbraDB.Lib.Runs

/-! # Chain archive: the writers of `blocks`

`putBlock`, `putBlockBundle` and `setCanonical`, each in its own transaction, and the table `blocks`
with its constraints: the two `CHECK`s on the flags, the partial unique index
`blocks_one_canonical_per_height` and the trigger `blocks_finalized_monotonic_trigger`. Any number of
transactions, on any networks, interleave their statements at READ COMMITTED.

* The `INSERT` of a block does nothing when its key has a row, waits for another transaction that
  has inserted the key, and else is subject to the `CHECK`s and the index.
* The first `UPDATE` of `setCanonical` chooses its rows on the snapshot of the statement. When it
  comes to a row it waits for its lock and evaluates `is_canonical` again on the newest version.
* The second one changes the row of the block in its newest version, or finds no row.
* A statement that makes a row canonical waits while another transaction holds a row of that height
  that is canonical, or was before it; it fails when a row that it sees there is canonical.

A transaction whose statement fails, or whose `fn` throws, is rolled back; a rollback is possible at
any moment, so crashes, deadlocks and the failures of statements on other tables are covered. What a
bundle writes into other tables does not change `blocks` and is left out. Rows of `blocks` are never
deleted. -/

namespace UmbraDB.Archive.Blocks

open UmbraDB.Js.Text UmbraDB.Lib.RowStore UmbraDB.Ckpt.Rows

/-! ### Rows -/

inductive BlockStatus
  | seen
  | canonical
  | orphaned
  | pruned
  deriving DecidableEq

/-- The primary key of `blocks`. -/
structure BlockKey where
  net : JsString
  height : ℕ
  blockHash : Bytes
  deriving DecidableEq

/-- A row of `blocks` without its key and `synced_at`. -/
structure BlockRow where
  parentHash : Bytes
  stateRoot : Bytes
  extrinsicsRoot : Bytes
  author : Option Bytes
  headerBlobHash : Bytes
  bodyBlobHash : Option Bytes
  isCanonical : Bool
  status : BlockStatus
  finalized : Bool
  deriving DecidableEq

/-- The argument of `putBlock`. -/
structure BlockRecord where
  net : JsString
  blockHash : Bytes
  height : ℕ
  parentHash : Bytes
  stateRoot : Bytes
  extrinsicsRoot : Bytes
  author : Option Bytes
  headerBytes : Bytes
  bodyBytes : Option Bytes
  isCanonical : Bool
  status : BlockStatus
  finalized : Bool
  deriving DecidableEq

def BlockRecord.key (b : BlockRecord) : BlockKey := ⟨b.net, b.height, b.blockHash⟩

/-- The row `insertBlockRow` inserts. -/
def BlockRecord.row (sha256 : Bytes → Bytes) (b : BlockRecord) : BlockRow :=
  ⟨b.parentHash, b.stateRoot, b.extrinsicsRoot, b.author, sha256 b.headerBytes,
    b.bodyBytes.map sha256, b.isCanonical, b.status, b.finalized⟩

/-- `assertHex32`. -/
def hex32Ok (hash : Bytes) : Bool := hash.length == 32

/-- The validation of `putBlock` and, for its block, of `putBlockBundle`. -/
def BlockRecord.valid (b : BlockRecord) : Bool :=
  hex32Ok b.blockHash && hex32Ok b.parentHash && hex32Ok b.stateRoot && hex32Ok b.extrinsicsRoot &&
    b.author.all hex32Ok

/-- `CHECK ((status = 'canonical') = is_canonical)` and `CHECK (NOT finalized OR is_canonical)`. -/
def BlockRow.checksOk (r : BlockRow) : Bool :=
  (decide (r.status = .canonical) == r.isCanonical) && (!r.finalized || r.isCanonical)

/-- The flags as the first `UPDATE` of `setCanonical` leaves them. -/
def BlockRow.demoted (r : BlockRow) : BlockRow :=
  { r with isCanonical := false, status := .orphaned }

/-- The flags as the second `UPDATE` of `setCanonical` leaves them. -/
def BlockRow.promoted (r : BlockRow) (finalized : Option Bool) : BlockRow :=
  { r with isCanonical := true, status := .canonical, finalized := finalized.getD r.finalized }

/-! ### Transactions -/

/-- Why a call rejects. -/
inductive ArchiveError
  | blockNotFound (key : BlockKey)
  /-- A `CHECK` of `blocks`. -/
  | checkViolation
  /-- `blocks_finalized_monotonic`. -/
  | finalizedMonotonic
  /-- `blocks_one_canonical_per_height`. -/
  | uniqueViolation
  deriving DecidableEq

/-- Where a `setCanonical` is. -/
inductive SetStage
  | begun
  /-- The rows chosen by the first `UPDATE` and not yet looked at. -/
  | demoting (todo : List BlockKey)
  | done
  | failed (error : ArchiveError)
  deriving DecidableEq

/-- Where a `putBlock` is. -/
inductive PutStage
  | begun
  | done
  | failed (error : ArchiveError)
  deriving DecidableEq

inductive Work
  | put (block : BlockRecord) (stage : PutStage)
  | set (key : BlockKey) (finalized : Option Bool) (stage : SetStage)
  deriving DecidableEq

inductive Status
  | idle
  | running
  | committed
  | rolledBack
  deriving DecidableEq

structure Tx where
  status : Status
  work : Work
  deriving DecidableEq

structure ArchiveState where
  blocks : Table ℕ BlockKey (Option BlockRow)
  /-- The keys for which a row was ever inserted. -/
  keys : List BlockKey
  txs : ℕ → Tx

def ArchiveState.init : ArchiveState :=
  ⟨.fresh fun _ => none, [], fun _ => ⟨.idle, .set ⟨[], 0, []⟩ none .begun⟩⟩

def ArchiveState.setWork (s : ArchiveState) (t : ℕ) (work : Work) : ArchiveState :=
  { s with txs := Function.update s.txs t { s.txs t with work := work } }

def ArchiveState.setStatus (s : ArchiveState) (t : ℕ) (status : Status) : ArchiveState :=
  { s with txs := Function.update s.txs t { s.txs t with status := status } }

@[simp] theorem ArchiveState.setWork_status (s : ArchiveState) (t t' : ℕ) (work : Work) :
    ((s.setWork t work).txs t').status = (s.txs t').status := by
  by_cases ht : t' = t
  · subst ht
    simp [setWork]
  · simp [setWork, ht]

@[simp] theorem ArchiveState.setWork_work_self (s : ArchiveState) (t : ℕ) (work : Work) :
    ((s.setWork t work).txs t).work = work := by
  simp [setWork]

theorem ArchiveState.setWork_ne (s : ArchiveState) {t t' : ℕ} (work : Work) (h : t' ≠ t) :
    (s.setWork t work).txs t' = s.txs t' :=
  Function.update_of_ne h _ _

@[simp] theorem ArchiveState.setStatus_self (s : ArchiveState) (t : ℕ) (status : Status) :
    (s.setStatus t status).txs t = ⟨status, (s.txs t).work⟩ :=
  Function.update_self _ _ _

theorem ArchiveState.setStatus_ne (s : ArchiveState) {t t' : ℕ} (status : Status) (h : t' ≠ t) :
    (s.setStatus t status).txs t' = s.txs t' :=
  Function.update_of_ne h _ _

/-- Two blocks of one network and height. -/
def BlockKey.sameHeight (k k' : BlockKey) : Prop := k.net = k'.net ∧ k.height = k'.height

instance (k k' : BlockKey) : Decidable (k.sameHeight k') :=
  inferInstanceAs (Decidable (_ ∧ _))

/-- The version is there and canonical. -/
def isCanonical (r : Option BlockRow) : Bool := r.any (·.isCanonical)

/-- The other blocks of the height that were ever inserted. -/
def ArchiveState.rivals (s : ArchiveState) (k : BlockKey) : List BlockKey :=
  s.keys.filter fun k' => decide (k'.sameHeight k) && decide (k' ≠ k)

/-- The unique index has an entry for the height whose transaction has not ended. -/
def ArchiveState.indexWaits (s : ArchiveState) (t : ℕ) (k : BlockKey) : Bool :=
  (s.rivals k).any fun k' => !s.blocks.free t k' &&
    (isCanonical (s.blocks.committed k') || (s.blocks.held k').any fun h => isCanonical h.2)

/-- The unique index has an entry for the height. -/
def ArchiveState.indexTaken (s : ArchiveState) (t : ℕ) (k : BlockKey) : Bool :=
  (s.rivals k).any fun k' => isCanonical (s.blocks.view t k')

/-! ### Steps -/

def noteKey (keys : List BlockKey) (k : BlockKey) : List BlockKey :=
  if keys.contains k then keys else keys ++ [k]

/-- The terminal `INSERT` of `insertBlockRow`. -/
def insertStep (sha256 : Bytes → Bytes) (s : ArchiveState) (t : ℕ) (b : BlockRecord) :
    Option ArchiveState :=
  let row := b.row sha256
  let next stage := s.setWork t (.put b stage)
  if row.checksOk = false then some (next (.failed .checkViolation))
  else if (s.blocks.view t b.key).isSome then some (next .done)
  else if s.blocks.free t b.key = false then none
  else if row.isCanonical && s.indexWaits t b.key then none
  else if row.isCanonical && s.indexTaken t b.key then some (next (.failed .uniqueViolation))
  else
    some { next .done with
      blocks := s.blocks.write t b.key (some row)
      keys := noteKey s.keys b.key }

/-- The first `UPDATE` of `setCanonical` starts, with its snapshot. -/
def demoteStep (s : ArchiveState) (t : ℕ) (k : BlockKey) (finalized : Option Bool) : ArchiveState :=
  s.setWork t (.set k finalized
    (.demoting ((s.rivals k).filter fun k' => isCanonical (s.blocks.view t k'))))

/-- The first `UPDATE` of `setCanonical` comes to the row `k'`. -/
def demoteRowStep (s : ArchiveState) (t : ℕ) (k : BlockKey) (finalized : Option Bool)
    (todo : List BlockKey) (k' : BlockKey) : Option ArchiveState :=
  let next stage := s.setWork t (.set k finalized stage)
  if todo.contains k' ∧ s.blocks.free t k' = true then
    match s.blocks.view t k' with
    | none => some (next (.demoting (todo.erase k')))
    | some r =>
      if r.isCanonical then
        if r.demoted.checksOk then
          some { next (.demoting (todo.erase k')) with
            blocks := s.blocks.write t k' (some r.demoted) }
        else some (next (.failed .checkViolation))
      -- the newest version does not match any more; it stays locked
      else
        some { next (.demoting (todo.erase k')) with blocks := s.blocks.write t k' (some r) }
  else none

/-- The second `UPDATE` of `setCanonical`. -/
def promoteStep (s : ArchiveState) (t : ℕ) (k : BlockKey) (finalized : Option Bool) :
    Option ArchiveState :=
  let next stage := s.setWork t (.set k finalized stage)
  match s.blocks.view t k with
  | none => some (next (.failed (.blockNotFound k)))
  | some r =>
    let row := r.promoted finalized
    if s.blocks.free t k = false then none
    else if r.finalized && !row.finalized then some (next (.failed .finalizedMonotonic))
    else if row.checksOk = false then some (next (.failed .checkViolation))
    else if s.indexWaits t k then none
    else if s.indexTaken t k then some (next (.failed .uniqueViolation))
    else some { next .done with blocks := s.blocks.write t k (some row) }

inductive Ev
  | beginPut (t : ℕ) (block : BlockRecord)
  | beginSet (t : ℕ) (key : BlockKey) (finalized : Option Bool)
  /-- The next statement. -/
  | exec (t : ℕ)
  | demoteRow (t : ℕ) (key : BlockKey)
  | commit (t : ℕ)
  | rollback (t : ℕ)

def execStep (sha256 : Bytes → Bytes) (s : ArchiveState) (t : ℕ) : Option ArchiveState :=
  match (s.txs t).work with
  | .put b .begun => insertStep sha256 s t b
  | .set k finalized .begun => some (demoteStep s t k finalized)
  | .set k finalized (.demoting []) => promoteStep s t k finalized
  | _ => none

/-- The transaction of an event. -/
def Ev.tx : Ev → ℕ
  | .beginPut t _ => t
  | .beginSet t _ _ => t
  | .exec t => t
  | .demoteRow t _ => t
  | .commit t => t
  | .rollback t => t

/-- A statement has failed, or `fn` has thrown. -/
def Work.failed : Work → Bool
  | .put _ (.failed _) => true
  | .set _ _ (.failed _) => true
  | _ => false

/-- `fn` has resolved. -/
def Work.finished : Work → Bool
  | .put _ .done => true
  | .set _ _ .done => true
  | _ => false

def step (sha256 : Bytes → Bytes) (s : ArchiveState) : Ev → Option ArchiveState
  | .beginPut t b =>
    if (s.txs t).status = .idle ∧ b.valid = true then
      some { s with txs := Function.update s.txs t ⟨.running, .put b .begun⟩ }
    else none
  | .beginSet t k finalized =>
    if (s.txs t).status = .idle ∧ hex32Ok k.blockHash = true then
      some { s with txs := Function.update s.txs t ⟨.running, .set k finalized .begun⟩ }
    else none
  | .exec t => if (s.txs t).status = .running then execStep sha256 s t else none
  | .demoteRow t k' =>
    if (s.txs t).status = .running then
      match (s.txs t).work with
      | .set k finalized (.demoting todo) => demoteRowStep s t k finalized todo k'
      | _ => none
    else none
  | .commit t =>
    if (s.txs t).status = .running ∧ (s.txs t).work.finished = true then
      some { s.setStatus t .committed with blocks := s.blocks.commit t }
    else none
  | .rollback t =>
    if (s.txs t).status = .running then
      some { s.setStatus t .rolledBack with blocks := s.blocks.rollback t }
    else none

end UmbraDB.Archive.Blocks
