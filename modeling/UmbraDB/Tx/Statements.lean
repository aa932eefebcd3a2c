import UmbraDB.Kv.Rows
import UmbraDB.Ckpt.System
import UmbraDB.Ths.Entry

/-! # The statements an adapter operation sends

`put`, `save`, `set` and `got*`, each as the tree of the statements it sends: the next statement
depends on the answer to the one before, and a rejected statement ends the operation, since every
one of them only translates the error and throws it again. A call whose arguments fail their
validation, or whose signal is already aborted, sends nothing and does not appear. -/

namespace UmbraDB.Tx.Statements

open UmbraDB.Js.Text UmbraDB.Lib.Batches UmbraDB.Kv.Rows UmbraDB.Ckpt.Rows UmbraDB.Ckpt.System
open UmbraDB.Ths.Entry

/-- A client that sends statements `Q` one after the other and reads their answers `R`. -/
inductive Prog (Q R : Type)
  | done
  | send (q : Q) (next : R → Prog Q R)

variable {Q R V C : Type}

def Prog.isDone : Prog Q R → Bool
  | .done => true
  | .send _ _ => false

/-- The statements, whatever their answers, and then the rest. -/
def sendAll : List Q → Prog Q R → Prog Q R
  | [], p => p
  | q :: qs, p => .send q fun _ => sendAll qs p

/-- The statements of the four adapters. -/
inductive Stmt (V C : Type)
  | kvUpsert (key : KvKey) (value : Option V)
  | kvInsert (key : KvKey) (value : Option V)
  | kvUpdate (key : KvKey) (value : Option V) (expected : ℕ)
  | kvSelect (key : KvKey)
  | upsertChunks (batch : List (Bytes × Bytes))
  | claimSeq (w net : JsString)
  | insertManifest (w net : JsString) (seq : ℕ) (manifestHash : Bytes) (label : Option JsString)
  | insertJunction (batch : List JunctionRow)
  | setWatermark (key : WatermarkKey) (value : V)
  | advisoryLock (walletId hash : JsString)
  | selectForUpdate (walletId hash : JsString)
  | upsertEntry (walletId : JsString) (result : HistoryEntry C)
  | clearPending (walletId hash : JsString) (identifiers : List JsString)

/-- The answer to a statement. An operation reads only the columns its statement returns. -/
structure Answer (C : Type) where
  /-- The number of rows. -/
  rows : ℕ
  /-- `claimed_seq`. -/
  seq : ℕ
  /-- `id` of the manifest. -/
  id : ℕ
  /-- `rowToEntry` of the row, if there is one. -/
  entry : Except ThsError (Option (HistoryEntry C))

/-- `putImpl`. -/
def putImpl (key : KvKey) (value : Option V) : Option ℕ → Prog (Stmt V C) (Answer C)
  | none => .send (.kvUpsert key value) fun _ => .done
  | some 0 => .send (.kvInsert key value) fun a =>
      if 0 < a.rows then .done else .send (.kvSelect key) fun _ => .done
  | some (e + 1) => .send (.kvUpdate key value (e + 1)) fun a =>
      if 0 < a.rows then .done else .send (.kvSelect key) fun _ => .done

/-- `runOnTx` of `saveImpl`. -/
def runOnTx (sha256 : Bytes → Bytes) (w net : JsString) (data : Bytes) (opts : SaveOptions) :
    Prog (Stmt V C) (Answer C) :=
  let chunks := splitChunks data (opts.chunkSize.getD defaultChunkSize)
  let chunkHashes := chunks.map sha256
  let manifestHash := sha256 chunkHashes.flatten
  let upserts := (batches chunkInsertMaxRows (chunkRowsOf sha256 [] chunks)).map .upsertChunks
  sendAll upserts (.send (.claimSeq w net) fun claimed =>
    .send (.insertManifest w net claimed.seq manifestHash opts.label) fun manifest =>
      let junctionRows := junctionRowsOf manifest.id 0 chunkHashes
      sendAll ((batches junctionInsertMaxRows junctionRows).map .insertJunction) .done)

/-- `setImpl`. -/
def setImpl (key : WatermarkKey) (value : V) : Prog (Stmt V C) (Answer C) :=
  .send (.setWatermark key value) fun _ => .done

/-- `writeRows`. -/
def writeRows (valid : HistoryEntry C → Bool) (mergeFn : MergeEntriesFn C) (walletId : JsString)
    (entry : HistoryEntry C) : Prog (Stmt V C) (Answer C) :=
  .send (.advisoryLock walletId entry.hash) fun _ =>
    .send (.selectForUpdate walletId entry.hash) fun a =>
      match a.entry with
      | .error _ => .done
      | .ok existing =>
        match mergeResult valid mergeFn existing entry with
        | .error _ => .done
        | .ok result =>
          .send (.upsertEntry walletId result) fun _ =>
            if clearsPending result then
              .send (.clearPending walletId result.hash result.identifiers) fun _ => .done
            else .done

/-- A call of an adapter operation with `opts.tx`. -/
inductive Op (V C : Type)
  | put (key : KvKey) (value : Option V) (expected : Option ℕ)
  | save (w net : JsString) (data : Bytes) (opts : SaveOptions)
  | set (key : WatermarkKey) (value : V)
  | got (walletId : JsString) (entry : HistoryEntry C)

/-- What the operations are built with: the hash function, and the merge function of the history
storage with the schema of its entries. -/
structure Adapters (C : Type) where
  sha256 : Bytes → Bytes
  valid : HistoryEntry C → Bool
  mergeFn : MergeEntriesFn C

/-- The statements of the call. -/
def Op.program (A : Adapters C) : Op V C → Prog (Stmt V C) (Answer C)
  | .put key value expected => putImpl key value expected
  | .save w net data opts => runOnTx A.sha256 w net data opts
  | .set key value => setImpl key value
  | .got walletId entry => writeRows A.valid A.mergeFn walletId entry

end UmbraDB.Tx.Statements
