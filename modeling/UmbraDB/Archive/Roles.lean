import UmbraDB.Archive.Bundle
import UmbraDB.Lib.Referential
import UmbraDB.Lib.Runs

/-! # Chain archive: blobs and their roles

The triggers of `001_chain_archive_core` that tie the rows with a blob hash to `chain_blob_roles`,
under transactions at READ COMMITTED in any order. A statement is cut where another transaction can
come in between: after each `chain_archive_assert_blob_role`, between the lock of a row that is
deleted or updated and its trigger, between the trigger and the change. A step that would have to
wait for a lock is not enabled; a failed statement leaves its transaction to be rolled back.

Of the rows only the blob hashes are kept. A row is named by a number that no other row ever has,
not by its key, so that an `UPDATE` may change the key; what the unique indexes and the other
constraints make of an `INSERT` is part of the event (`Outcome`). A row that moves to another
partition is deleted and inserted. `blocks_check_blob_roles` and its three siblings fire for an
`INSERT` and for an `UPDATE` that names a blob hash. -/

namespace UmbraDB.Archive.Roles

open UmbraDB.Ckpt.Rows UmbraDB.Lib.RowStore UmbraDB.Lib.Referential
open UmbraDB.Archive.Bundle (BlobRole RoleRow)

/-- A row of `blocks`, `transactions`, `bridge_observations` or `verifier_key_observations`. -/
inductive RefRow
  | block (headerBlobHash : Bytes) (bodyBlobHash : Option Bytes)
  | transaction (rawBlobHash : Bytes)
  | bridgeObservation (rawBlobHash : Bytes)
  | verifierKeyObservation (vkHash : Bytes)
  deriving DecidableEq

/-- Rows of the same table. -/
def RefRow.sameTable : RefRow → RefRow → Bool
  | .block .., .block .. => true
  | .transaction _, .transaction _ => true
  | .bridgeObservation _, .bridgeObservation _ => true
  | .verifierKeyObservation _, .verifierKeyObservation _ => true
  | _, _ => false

/-- `blocks_check_blob_roles`, `transactions_check_blob_roles`,
`bridge_observations_check_blob_roles`, `verifier_key_observations_check_blob_roles`: the arguments
of their calls of `chain_archive_assert_blob_role`, in order. -/
def RefRow.checkBlobRoles : RefRow → List (Option Bytes × BlobRole)
  | .block header body => [(some header, .blockHeader), (body, .blockBody)]
  | .transaction raw => [(some raw, .txRaw)]
  | .bridgeObservation raw => [(some raw, .bridgeObservation)]
  | .verifierKeyObservation vk => [(some vk, .verifierKey)]

/-- The `WHERE` of the `EXISTS` in `chain_archive_assert_role_removable`. -/
def RefRow.matches (p : RoleRow) (r : RefRow) : Bool :=
  match p.role, r with
  | .blockHeader, .block header _ => header == p.blobHash
  | .blockBody, .block _ body => body == some p.blobHash
  | .txRaw, .transaction raw => raw == p.blobHash
  | .bridgeObservation, .bridgeObservation raw => raw == p.blobHash
  | .verifierKey, .verifierKeyObservation vk => vk == p.blobHash
  | _, _ => false

/-- Where a transaction is. -/
inductive Stage
  | idle
  | ready
  /-- In the trigger of an `INSERT` (`none`) or of an `UPDATE` of a row, with the calls to come. -/
  | checking (id : Option ℕ) (row : RefRow) (todo : List (Option Bytes × BlobRole))
  /-- The row of `chain_blob_roles` is locked, its trigger comes next. A `DELETE` has no `new`. -/
  | locked (old : RoleRow) (new : Option RoleRow)
  /-- The trigger has passed. -/
  | guarded (old : RoleRow) (new : Option RoleRow)
  /-- The old version of an updated row of `chain_blob_roles` is gone. -/
  | placing (new : RoleRow)
  | failed

structure State where
  store : Store ℕ RoleRow ℕ RefRow
  /-- The number of the next row. -/
  next : ℕ
  txs : ℕ → Stage

def State.init : State := ⟨⟨.fresh fun _ => false, fun _ => [], .fresh fun _ => none⟩, 0, fun _ => .idle⟩

/-- What comes of an `INSERT` whose trigger has passed. -/
inductive Outcome
  | inserted
  /-- `ON CONFLICT DO NOTHING`. -/
  | nothing
  /-- `ON CONFLICT DO UPDATE` of columns other than the blob hash. -/
  | updated (id : ℕ)
  /-- A constraint is violated. -/
  | rejected

inductive Ev
  | begin (t : ℕ)
  | insertRef (t : ℕ) (row : RefRow)
  /-- `UPDATE` that names a blob hash; `set` gives the new version. -/
  | updateRef (t : ℕ) (id : ℕ) (set : RefRow → RefRow)
  /-- `UPDATE` of other columns. -/
  | touchRef (t : ℕ) (id : ℕ)
  | deleteRef (t : ℕ) (id : ℕ)
  /-- The next `chain_archive_assert_blob_role`. -/
  | assertBlobRole (t : ℕ)
  | writeRef (t : ℕ) (outcome : Outcome)
  | insertRole (t : ℕ) (p : RoleRow) (doNothing : Bool)
  /-- `DELETE` or `UPDATE` of a row of `chain_blob_roles`, up to the lock. -/
  | lockRole (t : ℕ) (old : RoleRow) (new : Option RoleRow)
  /-- `chain_blob_roles_guard_removal`. -/
  | guardRemoval (t : ℕ)
  | removeRole (t : ℕ)
  | placeRole (t : ℕ)
  | commit (t : ℕ)
  | rollback (t : ℕ)

def State.goto (s : State) (t : ℕ) (stage : Stage) : State :=
  { s with txs := Function.update s.txs t stage }

def State.writeRow (s : State) (t id : ℕ) (row : Option RefRow) : State :=
  { s with store := { s.store with children := s.store.children.write t id row } }

def State.writeRole (s : State) (t : ℕ) (p : RoleRow) (b : Bool) : State :=
  { s with store := { s.store with parents := s.store.parents.write t p b } }

/-- The row that a statement finds under the number, when it is free. -/
def State.lockable (s : State) (t id : ℕ) : Option RefRow :=
  if s.store.children.free t id then s.store.children.view t id else none

/-- `chain_archive_assert_blob_role`: the `EXISTS … FOR SHARE`. -/
def assertBlobRole (s : State) (t : ℕ) (id : Option ℕ) (row : RefRow)
    (todo : List (Option Bytes × BlobRole)) : Option Bytes × BlobRole → Option State
  | (none, _) => some (s.goto t (.checking id row todo))
  | (some hash, role) =>
    if s.store.parents.view t ⟨hash, role⟩ = false then some (s.goto t .failed)
    else if s.store.parents.free t ⟨hash, role⟩ = false then none
    else some ({ s with store := s.store.share t ⟨hash, role⟩ }.goto t (.checking id row todo))

/-- The row of an `INSERT` or an `UPDATE` after its trigger. -/
def writeRef (s : State) (t : ℕ) (id : Option ℕ) (row : RefRow) : Outcome → Option State
  | .inserted =>
    match id with
    | none => some ({ s with next := s.next + 1 }.writeRow t s.next (some row) |>.goto t .ready)
    | some id => some ((s.writeRow t id (some row)).goto t .ready)
  | .nothing => if id = none then some (s.goto t .ready) else none
  | .updated id' =>
    if id = none then (s.lockable t id').map fun r => (s.writeRow t id' (some r)).goto t .ready
    else none
  | .rejected => some (s.goto t .failed)

/-- An `INSERT` into `chain_blob_roles`. A row of others that is only locked is a conflict at once;
one that is being inserted or deleted is waited for. -/
def insertRole (s : State) (t : ℕ) (p : RoleRow) (doNothing : Bool) : Option State :=
  let conflict := some (s.goto t (if doNothing then .ready else .failed))
  if s.store.parents.free t p then
    if s.store.parents.view t p then conflict else some ((s.writeRole t p true).goto t .ready)
  else if s.store.parents.committed p && (s.store.parents.held p).all (·.2) then conflict
  else none

/-- The `CASE` of `chain_archive_assert_role_removable`. -/
def inUse (s : State) (t : ℕ) (p : RoleRow) : Bool :=
  (List.range s.next).any fun id => (s.store.children.view t id).any (·.matches p)

/-- `chain_blob_roles_guard_removal`. -/
def guardRemoval (s : State) (t : ℕ) (old : RoleRow) (new : Option RoleRow) : State :=
  if new = some old then s.goto t .ready
  else if inUse s t old then s.goto t .failed
  else s.goto t (.guarded old new)

/-- A statement of a transaction that is between two. -/
def startStmt (s : State) : Ev → Option State
  | .insertRef t row => some (s.goto t (.checking none row row.checkBlobRoles))
  | .updateRef t id set =>
    (s.lockable t id).bind fun r =>
      if (set r).sameTable r then
        some ((s.writeRow t id (some r)).goto t (.checking (some id) (set r) (set r).checkBlobRoles))
      else none
  | .touchRef t id => (s.lockable t id).map fun r => s.writeRow t id (some r)
  | .deleteRef t id => (s.lockable t id).map fun _ => s.writeRow t id none
  | .insertRole t p doNothing => insertRole s t p doNothing
  | .lockRole t old new =>
    if s.store.parents.view t old && s.store.parents.free t old &&
        (s.store.sharers old).all (· == t) then
      some ((s.writeRole t old true).goto t (.locked old new))
    else none
  | _ => none

def Ev.tx : Ev → ℕ
  | .begin t | .insertRef t _ | .updateRef t _ _ | .touchRef t _ | .deleteRef t _
  | .assertBlobRole t | .writeRef t _ | .insertRole t _ _ | .lockRole t _ _ | .guardRemoval t
  | .removeRole t | .placeRole t | .commit t | .rollback t => t

/-- The statement of the transaction goes on. -/
def goOn (s : State) (t : ℕ) : Stage → Ev → Option State
  | .checking id row (call :: todo), .assertBlobRole _ => assertBlobRole s t id row todo call
  | .checking id row [], .writeRef _ outcome => writeRef s t id row outcome
  | .locked old new, .guardRemoval _ => some (guardRemoval s t old new)
  | .guarded old none, .removeRole _ => some ((s.writeRole t old false).goto t .ready)
  | .guarded old (some new), .removeRole _ =>
    some ((s.writeRole t old false).goto t (.placing new))
  | .placing new, .placeRole _ => insertRole s t new false
  | _, _ => none

def step (s : State) (ev : Ev) : Option State :=
  let t := ev.tx
  match ev, s.txs t with
  | .begin _, .idle => some (s.goto t .ready)
  | .commit _, .ready => some ({ s with store := s.store.commit t }.goto t .idle)
  | .rollback _, .idle => none
  | .rollback _, _ => some ({ s with store := s.store.rollback t }.goto t .idle)
  | ev, .ready => startStmt s ev
  | ev, stage => goOn s t stage ev

end UmbraDB.Archive.Roles
