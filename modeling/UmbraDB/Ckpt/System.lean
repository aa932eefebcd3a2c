import UmbraDB.Ckpt.Rows
import UmbraDB.Lib.RowStore
import UmbraDB.Lib.Runs

/-! # Checkpoint store: interleaved `save`, `saveAndAdvance` and `prune`

Any number of transactions whose statements are interleaved in any way, at READ COMMITTED. A save
transaction runs one or more calls of `save` one after the other, each with a watermark to set
after it (`saveAndAdvance`) or without. A step is a row of a statement: a multi-row upsert and a
`DELETE` take their row locks one at a time, and other transactions run in between.

* The chunk upsert waits for the lock of its row and sets `created_at` to the start of its
  transaction. A row that was deleted in the meantime is inserted again.
* A `DELETE` chooses its rows on the snapshot of the statement. When it comes to a row that has
  changed since, it waits for the lock and evaluates `created_at` again on the newest version; the
  subquery keeps its snapshot. A row that was deleted is skipped, also when a new one has its key.
* With the foreign key (`fk`), a junction row needs its chunk, and after the chunk `DELETE` the
  server looks, on a new snapshot, for junction rows that still refer to a deleted chunk.

The junction rows of a manifest are kept with it, in the order of their positions: only the
transaction that inserts the manifest inserts them, and the cascade deletes them with it. A
statement that fails leaves its transaction where it is, so that it can only be rolled back; a
rollback is possible at any moment, which covers every failure and crash. -/

namespace UmbraDB.Ckpt.System

open UmbraDB.Js.Text UmbraDB.Lib.RowStore UmbraDB.Lib.Runs UmbraDB.Ckpt.Rows

/-- A version of a row of `ckpt_chunks`; the transaction that inserted the row tells it from an
earlier or later row with the same key. -/
structure ChunkVersion where
  data : Bytes
  createdAt : ℤ
  insertedBy : ℕ
  deriving DecidableEq

/-- A row of `ckpt_manifests` with the `chunk_hash` of its junction rows, and the transaction that
inserted it. -/
structure Manifest where
  w : JsString
  net : JsString
  seq : ℕ
  complete : Bool
  manifestHash : Bytes
  label : Option JsString
  createdAt : ℤ
  refs : List Bytes
  insertedBy : ℕ
  deriving DecidableEq

/-- The primary key of `watermarks`. -/
structure WatermarkKey where
  kind : JsString
  key : JsString
  deriving DecidableEq

/-- A call of `save`, or of `saveAndAdvance` with the cursor to set. -/
structure SaveCall (V : Type) where
  w : JsString
  net : JsString
  data : Bytes
  chunkSize : ℕ
  label : Option JsString
  cursor : Option (WatermarkKey × V)

/-- Where a call of `save` is. -/
inductive SaveStage
  | called
  /-- The rows of the chunk upsert that are left. -/
  | upserting (rows : List (Bytes × Bytes))
  | claiming
  | inserting (seq : ℕ)
  /-- The hashes of the junction rows that are left, for the manifest `id`. -/
  | joining (id seq : ℕ) (rest : List Bytes)
  | marking
  | done
  deriving DecidableEq

/-- Where a `prune` is. -/
inductive PruneStage
  | begun
  /-- The manifests chosen by the first `DELETE` and not yet looked at. -/
  | manifests (todo : List ℕ)
  /-- The chunk rows chosen by the second `DELETE` and not yet looked at, and those deleted. -/
  | chunks (todo : List (Bytes × ℕ)) (deleted : List Bytes)
  | done
  deriving DecidableEq

/-- The program of a transaction. -/
inductive Work (V : Type)
  | save (call : SaveCall V) (stage : SaveStage) (queue : List (SaveCall V))
  | prune (w net : JsString) (retainCount : ℕ) (stage : PruneStage)

inductive Status
  | idle
  | running
  | committed
  | rolledBack
  deriving DecidableEq

/-- A transaction: `start` is what `now()` returns in it, and `touched` lists the hashes it has
upserted so far. -/
structure Tx (V : Type) where
  status : Status
  start : ℤ
  work : Work V
  touched : List Bytes

structure CkptState (V : Type) where
  chunks : Table ℕ Bytes (Option ChunkVersion)
  manifests : Table ℕ ℕ (Option Manifest)
  counters : Table ℕ (JsString × JsString) (Option ℕ)
  marks : Table ℕ WatermarkKey (Option V)
  /-- The hashes that ever had a row. -/
  hashes : List Bytes
  nextId : ℕ
  clock : ℤ
  txs : ℕ → Tx V

def CkptState.init {V : Type} : CkptState V :=
  ⟨.fresh fun _ => none, .fresh fun _ => none, .fresh fun _ => none, .fresh fun _ => none, [], 1, 0,
    fun _ => ⟨.idle, 0, .prune [] [] 0 .begun, []⟩⟩

variable {V : Type}

/-! ### What a statement sees -/

def toRow (id : ℕ) (m : Manifest) : ManifestRow :=
  ⟨id, m.w, m.net, m.seq, m.complete, m.manifestHash, m.label, m.createdAt⟩

/-- The junction rows of the manifests, given by their ids. -/
def junctionRows (manifests : ℕ → Option Manifest) (ids : List ℕ) : List JunctionRow :=
  ids.flatMap fun id => (manifests id).elim [] fun m => junctionRowsOf id 0 m.refs

/-- The tables that `load` and `prune` read, from the visible versions of the rows. -/
def CkptState.tables (s : CkptState V) (chunks : Bytes → Option ChunkVersion)
    (manifests : ℕ → Option Manifest) : CkptDb where
  chunks := s.hashes.filterMap fun h => (chunks h).map fun c => ⟨h, c.data, c.createdAt⟩
  manifests := (List.range s.nextId).filterMap fun id => (manifests id).map (toRow id)
  junction := junctionRows manifests (List.range s.nextId)
  counters := []
  nextId := s.nextId

/-- What a statement of the transaction `t` sees. -/
def CkptState.db (s : CkptState V) (t : ℕ) : CkptDb :=
  s.tables (s.chunks.view t) (s.manifests.view t)

/-- What is committed; the snapshot of a `load`. -/
def CkptState.durable (s : CkptState V) : CkptDb :=
  s.tables s.chunks.committed s.manifests.committed

/-! ### Steps -/

def CkptState.setTx (s : CkptState V) (t : ℕ) (x : Tx V) : CkptState V :=
  { s with txs := Function.update s.txs t x }

def CkptState.setWork (s : CkptState V) (t : ℕ) (work : Work V) : CkptState V :=
  s.setTx t { s.txs t with work := work }

def SaveCall.chunks (call : SaveCall V) : List Bytes := splitChunks call.data call.chunkSize

/-- The validation of `save`, before its first statement. -/
def SaveCall.valid (call : SaveCall V) : Bool :=
  checkpointIdOk call.w && checkpointIdOk call.net &&
    decide (1 ≤ call.chunkSize) && decide (call.chunkSize ≤ 16 * 1024 * 1024) &&
    call.label.all fun l => decide (l.length ≤ 200)

/-- One row of the chunk upsert. -/
def upsertVersion (t : ℕ) (now : ℤ) (data : Bytes) : Option ChunkVersion → ChunkVersion
  | none => ⟨data, now, t⟩
  | some old => { old with createdAt := now }

def noteHash (hashes : List Bytes) (hash : Bytes) : List Bytes :=
  if hashes.contains hash then hashes else hashes ++ [hash]

/-- The next row, or the next statement, of a call of `save`. -/
def saveStep (sha256 : Bytes → Bytes) (fk : Bool) (s : CkptState V) (t : ℕ) (call : SaveCall V)
    (queue : List (SaveCall V)) : SaveStage → Option (CkptState V)
  | .called =>
    if call.valid then
      some (s.setWork t (.save call (.upserting (chunkRowsOf sha256 [] call.chunks)) queue))
    else none
  | .upserting [] => some (s.setWork t (.save call .claiming queue))
  | .upserting ((hash, data) :: rows) =>
    let x := s.txs t
    if s.chunks.free t hash then
      some { s.setTx t { x with work := .save call (.upserting rows) queue,
                                touched := hash :: x.touched } with
        chunks := s.chunks.write t hash
          (some (upsertVersion t x.start data (s.chunks.view t hash)))
        hashes := noteHash s.hashes hash }
    else none
  | .claiming =>
    if s.counters.free t (call.w, call.net) then
      let next := (s.counters.view t (call.w, call.net)).getD 1
      some { s.setWork t (.save call (.inserting next) queue) with
        counters := s.counters.write t (call.w, call.net) (some (next + 1)) }
    else none
  | .inserting seq =>
    match bindLabel call.label with
    | .error _ => none
    | .ok label =>
      let hashes := call.chunks.map sha256
      some { s.setWork t (.save call (.joining s.nextId seq hashes) queue) with
        manifests := s.manifests.write t s.nextId (some ⟨call.w, call.net, seq, true,
          sha256 hashes.flatten, label, (s.txs t).start, [], t⟩)
        nextId := s.nextId + 1 }
  | .joining id seq (hash :: rest) =>
    match s.manifests.view t id with
    | none => none
    | some m =>
      if fk && (s.chunks.view t hash).isNone then none
      else
        some { s.setWork t (.save call (.joining id seq rest) queue) with
          manifests := s.manifests.write t id (some { m with refs := m.refs ++ [hash] }) }
  -- `toSummary` throws on a sequence that is not a safe integer
  | .joining _ seq [] =>
    if maxSafeInteger < seq then none else some (s.setWork t (.save call .marking queue))
  | .marking =>
    match call.cursor with
    | none => some (s.setWork t (.save call .done queue))
    | some (key, value) =>
      if s.marks.free t key then
        some { s.setWork t (.save call .done queue) with
          marks := s.marks.write t key (some value) }
      else none
  | .done =>
    match queue with
    | [] => none
    | call' :: queue' => some (s.setWork t (.save call' .called queue'))

/-- The rows the chunk `DELETE` of `p` chooses. -/
def reclaimed (s : CkptState V) (p : ℕ) : List (Bytes × ℕ) :=
  s.hashes.filterMap fun h =>
    (s.chunks.view p h).bind fun c =>
      if reclaimable (s.txs p).start (s.db p).junction ⟨h, c.data, c.createdAt⟩ then
        some (h, c.insertedBy)
      else none

/-- A statement of `prune` starts, with its snapshot, or the last one ends. -/
def pruneStep (fk : Bool) (s : CkptState V) (p : ℕ) (w net : JsString) (retainCount : ℕ) :
    PruneStage → Option (CkptState V)
  | .begun =>
    let db := s.db p
    let todo := (db.manifests.filter (prunable db w net retainCount)).map (·.id)
    some (s.setWork p (.prune w net retainCount (.manifests todo)))
  | .manifests [] => some (s.setWork p (.prune w net retainCount (.chunks (reclaimed s p) [])))
  | .chunks [] deleted =>
    if fk && deleted.any (fun h => (s.db p).junction.any fun j => j.chunkHash == h) then none
    else some (s.setWork p (.prune w net retainCount .done))
  | _ => none

/-- The manifest `DELETE` of `p` comes to the manifest `id`. -/
def deleteManifestStep (s : CkptState V) (p id : ℕ) : Option (CkptState V) :=
  match (s.txs p).work with
  | .prune w net retainCount (.manifests todo) =>
    if todo.contains id ∧ s.manifests.free p id = true then
      let s' := s.setWork p (.prune w net retainCount (.manifests (todo.erase id)))
      match s.manifests.view p id with
      | none => some s'
      | some _ => some { s' with manifests := s.manifests.write p id none }
    else none
  | _ => none

/-- The chunk `DELETE` of `p` comes to the row of the hash that `row` inserted. -/
def deleteChunkStep (s : CkptState V) (p : ℕ) (hash : Bytes) (row : ℕ) : Option (CkptState V) :=
  match (s.txs p).work with
  | .prune w net retainCount (.chunks todo deleted) =>
    if todo.contains (hash, row) ∧ s.chunks.free p hash = true then
      let s' := s.setWork p (.prune w net retainCount (.chunks (todo.erase (hash, row)) deleted))
      match s.chunks.view p hash with
      | none => some s'
      | some c =>
        if c.insertedBy ≠ row then some s'
        else if c.createdAt < (s.txs p).start - graceWindow then
          some { s.setWork p (.prune w net retainCount
              (.chunks (todo.erase (hash, row)) (hash :: deleted))) with
            chunks := s.chunks.write p hash none }
        -- the newest version does not match any more; it stays locked
        else some { s' with chunks := s.chunks.write p hash (some c) }
    else none
  | _ => none

inductive Ev (V : Type)
  | beginSave (t : ℕ) (clock : ℤ) (call : SaveCall V) (queue : List (SaveCall V))
  | beginPrune (p : ℕ) (clock : ℤ) (w net : JsString) (retainCount : ℕ)
  | advance (t : ℕ)
  | deleteManifest (p id : ℕ)
  | deleteChunk (p : ℕ) (hash : Bytes) (row : ℕ)
  | commit (t : ℕ) (clock : ℤ)
  | rollback (t : ℕ)

/-- The program has run to its end. -/
def Work.finished : Work V → Bool
  | .save _ .done [] => true
  | .prune _ _ _ .done => true
  | _ => false

/-- `BEGIN`, at the given time. -/
def beginStep (s : CkptState V) (t : ℕ) (clock : ℤ) (work : Work V) : Option (CkptState V) :=
  if (s.txs t).status = .idle ∧ s.clock ≤ clock then
    some { s.setTx t ⟨.running, clock, work, []⟩ with clock := clock }
  else none

/-- `COMMIT`, at the given time. -/
def CkptState.commit (s : CkptState V) (t : ℕ) (clock : ℤ) : CkptState V :=
  { s.setTx t { s.txs t with status := .committed } with
    chunks := s.chunks.commit t
    manifests := s.manifests.commit t
    counters := s.counters.commit t
    marks := s.marks.commit t
    clock := clock }

/-- `ROLLBACK`, or the death of the connection. -/
def CkptState.rollback (s : CkptState V) (t : ℕ) : CkptState V :=
  { s.setTx t { s.txs t with status := .rolledBack } with
    chunks := s.chunks.rollback t
    manifests := s.manifests.rollback t
    counters := s.counters.rollback t
    marks := s.marks.rollback t }

def step (sha256 : Bytes → Bytes) (fk : Bool) (s : CkptState V) : Ev V → Option (CkptState V)
  | .beginSave t clock call queue =>
    beginStep s t clock (.save call .called queue)
  | .beginPrune p clock w net retainCount => beginStep s p clock (.prune w net retainCount .begun)
  | .advance t =>
    if (s.txs t).status = .running then
      match (s.txs t).work with
      | .save call stage queue => saveStep sha256 fk s t call queue stage
      | .prune w net retainCount stage => pruneStep fk s t w net retainCount stage
    else none
  | .deleteManifest p id =>
    if (s.txs p).status = .running then deleteManifestStep s p id else none
  | .deleteChunk p hash row =>
    if (s.txs p).status = .running then deleteChunkStep s p hash row else none
  | .commit t clock =>
    if (s.txs t).status = .running ∧ (s.txs t).work.finished = true ∧ s.clock ≤ clock then
      some (s.commit t clock)
    else none
  | .rollback t =>
    if (s.txs t).status = .running then some (s.rollback t) else none

/-! ### What a step does -/

/-- The next row, or the next statement, of a call of `save`, one case for each way the code goes
on. -/
inductive SaveMove (sha256 : Bytes → Bytes) (fk : Bool) (s : CkptState V) (t : ℕ)
    (call : SaveCall V) (queue : List (SaveCall V)) : SaveStage → CkptState V → Prop
  | start (hvalid : call.valid = true) : SaveMove sha256 fk s t call queue .called
      (s.setWork t (.save call (.upserting (chunkRowsOf sha256 [] call.chunks)) queue))
  | upsert {hash data : Bytes} {rows : List (Bytes × Bytes)} (hf : s.chunks.free t hash = true) :
      SaveMove sha256 fk s t call queue (.upserting ((hash, data) :: rows))
        { s.setTx t { s.txs t with work := .save call (.upserting rows) queue,
                                   touched := hash :: (s.txs t).touched } with
          chunks := s.chunks.write t hash
            (some (upsertVersion t (s.txs t).start data (s.chunks.view t hash)))
          hashes := noteHash s.hashes hash }
  | upserted : SaveMove sha256 fk s t call queue (.upserting [])
      (s.setWork t (.save call .claiming queue))
  | claim (hf : s.counters.free t (call.w, call.net) = true) :
      SaveMove sha256 fk s t call queue .claiming
        { s.setWork t (.save call
            (.inserting ((s.counters.view t (call.w, call.net)).getD 1)) queue) with
          counters := s.counters.write t (call.w, call.net)
            (some ((s.counters.view t (call.w, call.net)).getD 1 + 1)) }
  | insert {seq : ℕ} {label : Option JsString} (hl : bindLabel call.label = .ok label) :
      SaveMove sha256 fk s t call queue (.inserting seq)
        { s.setWork t (.save call
            (.joining s.nextId seq (call.chunks.map sha256)) queue) with
          manifests := s.manifests.write t s.nextId (some ⟨call.w, call.net, seq, true,
            sha256 (call.chunks.map sha256).flatten, label, (s.txs t).start, [], t⟩)
          nextId := s.nextId + 1 }
  | join {id seq : ℕ} {hash : Bytes} {rest : List Bytes} {m : Manifest}
      (hv : s.manifests.view t id = some m)
      (hfk : ¬ (fk && (s.chunks.view t hash).isNone) = true) :
      SaveMove sha256 fk s t call queue (.joining id seq (hash :: rest))
        { s.setWork t (.save call (.joining id seq rest) queue) with
          manifests := s.manifests.write t id (some { m with refs := m.refs ++ [hash] }) }
  | joined {id seq : ℕ} (hsafe : seq ≤ maxSafeInteger) :
      SaveMove sha256 fk s t call queue (.joining id seq [])
        (s.setWork t (.save call .marking queue))
  | skip (hcur : call.cursor = none) : SaveMove sha256 fk s t call queue .marking
      (s.setWork t (.save call .done queue))
  | mark {key : WatermarkKey} {value : V} (hcur : call.cursor = some (key, value))
      (hf : s.marks.free t key = true) : SaveMove sha256 fk s t call queue .marking
        { s.setWork t (.save call .done queue) with
          marks := s.marks.write t key (some value) }
  | next {call' : SaveCall V} {queue' : List (SaveCall V)} (hq : queue = call' :: queue') :
      SaveMove sha256 fk s t call queue .done (s.setWork t (.save call' .called queue'))

variable {sha256 : Bytes → Bytes} {fk : Bool} {s s' : CkptState V}

theorem saveMove_of_saveStep {t : ℕ} {call : SaveCall V} {queue : List (SaveCall V)}
    {stage : SaveStage} (h : saveStep sha256 fk s t call queue stage = some s') :
    SaveMove sha256 fk s t call queue stage s' := by
  unfold saveStep at h
  split at h
  · split_ifs at h with hvalid
    obtain rfl := Option.some.inj h
    exact .start hvalid
  · obtain rfl := Option.some.inj h
    exact .upserted
  · dsimp only at h
    split_ifs at h with hf
    obtain rfl := Option.some.inj h
    exact .upsert hf
  · split_ifs at h with hf
    obtain rfl := Option.some.inj h
    exact .claim hf
  · split at h
    · cases h
    · next label hl =>
      obtain rfl := Option.some.inj h
      exact .insert hl
  · split at h
    · cases h
    · next m hv =>
      split_ifs at h with hfk
      obtain rfl := Option.some.inj h
      exact .join hv hfk
  · split_ifs at h with hsafe
    obtain rfl := Option.some.inj h
    exact .joined (Nat.le_of_not_lt hsafe)
  · split at h
    · next hcur =>
      obtain rfl := Option.some.inj h
      exact .skip hcur
    · next key value hcur =>
      split_ifs at h with hf
      obtain rfl := Option.some.inj h
      exact .mark hcur hf
  · split at h
    · cases h
    · next call' queue' =>
      obtain rfl := Option.some.inj h
      exact .next rfl

/-- A statement of `prune` starts, or the last one ends. -/
inductive PruneMove (fk : Bool) (s : CkptState V) (p : ℕ) (w net : JsString) (retainCount : ℕ) :
    PruneStage → CkptState V → Prop
  | choose : PruneMove fk s p w net retainCount .begun (s.setWork p (.prune w net retainCount
      (.manifests (((s.db p).manifests.filter (prunable (s.db p) w net retainCount)).map (·.id)))))
  | reclaim : PruneMove fk s p w net retainCount (.manifests [])
      (s.setWork p (.prune w net retainCount (.chunks (reclaimed s p) [])))
  | check {deleted : List Bytes} (hfk : ¬ (fk && deleted.any fun h =>
        (s.db p).junction.any fun j => j.chunkHash == h) = true) :
      PruneMove fk s p w net retainCount (.chunks [] deleted)
        (s.setWork p (.prune w net retainCount .done))

theorem pruneMove_of_pruneStep {p : ℕ} {w net : JsString} {retainCount : ℕ} {stage : PruneStage}
    (h : pruneStep fk s p w net retainCount stage = some s') :
    PruneMove fk s p w net retainCount stage s' := by
  unfold pruneStep at h
  split at h
  · obtain rfl := Option.some.inj h
    exact .choose
  · obtain rfl := Option.some.inj h
    exact .reclaim
  · next deleted =>
    by_cases hfk : (fk && deleted.any fun h => (s.db p).junction.any fun j => j.chunkHash == h) =
        true
    · rw [if_pos hfk] at h
      cases h
    · rw [if_neg hfk] at h
      obtain rfl := Option.some.inj h
      exact .check hfk
  · cases h

/-- The manifest `DELETE` finds its row deleted, or deletes it. -/
theorem deleteManifestStep_cases {p id : ℕ} (h : deleteManifestStep s p id = some s') :
    ∃ w net n todo, (s.txs p).work = .prune w net n (.manifests todo) ∧ id ∈ todo ∧
      s.manifests.free p id = true ∧
      (s' = s.setWork p (.prune w net n (.manifests (todo.erase id))) ∨
        ∃ m, s.manifests.view p id = some m ∧
          s' = { s.setWork p (.prune w net n (.manifests (todo.erase id))) with
            manifests := s.manifests.write p id none }) := by
  unfold deleteManifestStep at h
  split at h
  · next w net n todo hw =>
    split_ifs at h with hc
    refine ⟨w, net, n, todo, hw, by simpa using hc.1, hc.2, ?_⟩
    dsimp only at h
    split at h
    · exact Or.inl (Option.some.inj h).symm
    · next m hv => exact Or.inr ⟨m, hv, (Option.some.inj h).symm⟩
  · cases h

/-- What the chunk `DELETE` does with a row. -/
theorem deleteChunkStep_cases {p row : ℕ} {hash : Bytes}
    (h : deleteChunkStep s p hash row = some s') :
    ∃ w net n todo hs, (s.txs p).work = .prune w net n (.chunks todo hs) ∧ (hash, row) ∈ todo ∧
      s.chunks.free p hash = true ∧
      (s' = s.setWork p (.prune w net n (.chunks (todo.erase (hash, row)) hs)) ∨
        ∃ c, s.chunks.view p hash = some c ∧
          ((c.insertedBy = row ∧ c.createdAt < (s.txs p).start - graceWindow ∧
            s' = { s.setWork p (.prune w net n
                (.chunks (todo.erase (hash, row)) (hash :: hs))) with
              chunks := s.chunks.write p hash none }) ∨
          s' = { s.setWork p (.prune w net n (.chunks (todo.erase (hash, row)) hs)) with
            chunks := s.chunks.write p hash (some c) })) := by
  unfold deleteChunkStep at h
  split at h
  · next w net n todo hs hw =>
    split_ifs at h with hc
    refine ⟨w, net, n, todo, hs, hw, by simpa using hc.1, hc.2, ?_⟩
    simp only at h
    split at h
    · cases h
      exact Or.inl rfl
    · next c hv =>
      split_ifs at h with hrow hold
      · cases h
        exact Or.inl rfl
      · cases h
        exact Or.inr ⟨c, hv, Or.inl ⟨not_not.mp hrow, hold, rfl⟩⟩
      · cases h
        exact Or.inr ⟨c, hv, Or.inr rfl⟩
  · cases h

/-- **What a step does.** -/
inductive Stepped (sha256 : Bytes → Bytes) (fk : Bool) (s : CkptState V) :
    Ev V → CkptState V → Prop
  | beginSave {t : ℕ} {clock : ℤ} {call : SaveCall V} {queue : List (SaveCall V)}
      (hidle : (s.txs t).status = .idle) (hclock : s.clock ≤ clock) :
      Stepped sha256 fk s (.beginSave t clock call queue)
        { s.setTx t ⟨.running, clock, .save call .called queue, []⟩ with clock := clock }
  | beginPrune {p : ℕ} {clock : ℤ} {w net : JsString} {n : ℕ}
      (hidle : (s.txs p).status = .idle) (hclock : s.clock ≤ clock) :
      Stepped sha256 fk s (.beginPrune p clock w net n)
        { s.setTx p ⟨.running, clock, .prune w net n .begun, []⟩ with clock := clock }
  | save {t : ℕ} {call : SaveCall V} {stage : SaveStage} {queue : List (SaveCall V)}
      {s' : CkptState V} (hrun : (s.txs t).status = .running)
      (hw : (s.txs t).work = .save call stage queue)
      (h : SaveMove sha256 fk s t call queue stage s') : Stepped sha256 fk s (.advance t) s'
  | prune {p : ℕ} {w net : JsString} {n : ℕ} {stage : PruneStage} {s' : CkptState V}
      (hrun : (s.txs p).status = .running) (hw : (s.txs p).work = .prune w net n stage)
      (h : PruneMove fk s p w net n stage s') : Stepped sha256 fk s (.advance p) s'
  | deleteManifest {p id : ℕ} {s' : CkptState V} (hrun : (s.txs p).status = .running)
      (h : deleteManifestStep s p id = some s') : Stepped sha256 fk s (.deleteManifest p id) s'
  | deleteChunk {p row : ℕ} {hash : Bytes} {s' : CkptState V}
      (hrun : (s.txs p).status = .running) (h : deleteChunkStep s p hash row = some s') :
      Stepped sha256 fk s (.deleteChunk p hash row) s'
  | commit {t : ℕ} {clock : ℤ} (hrun : (s.txs t).status = .running)
      (hfin : (s.txs t).work.finished = true) (hclock : s.clock ≤ clock) :
      Stepped sha256 fk s (.commit t clock) (s.commit t clock)
  | rollback {t : ℕ} (hrun : (s.txs t).status = .running) :
      Stepped sha256 fk s (.rollback t) (s.rollback t)

theorem stepped_of_step {e : Ev V} (h : step sha256 fk s e = some s') :
    Stepped sha256 fk s e s' := by
  cases e with
  | beginSave t clock call queue =>
    simp only [step, beginStep] at h
    split_ifs at h with hc
    obtain rfl := Option.some.inj h
    exact .beginSave hc.1 hc.2
  | beginPrune p clock w net n =>
    simp only [step, beginStep] at h
    split_ifs at h with hc
    obtain rfl := Option.some.inj h
    exact .beginPrune hc.1 hc.2
  | advance t =>
    simp only [step] at h
    split_ifs at h with hrun
    split at h
    · next call stage queue hw => exact .save hrun hw (saveMove_of_saveStep h)
    · next w net n stage hw => exact .prune hrun hw (pruneMove_of_pruneStep h)
  | deleteManifest p id =>
    simp only [step] at h
    split_ifs at h with hrun
    exact .deleteManifest hrun h
  | deleteChunk p hash row =>
    simp only [step] at h
    split_ifs at h with hrun
    exact .deleteChunk hrun h
  | commit t clock =>
    simp only [step] at h
    split_ifs at h with hc
    obtain rfl := Option.some.inj h
    exact .commit hc.1 hc.2.1 hc.2.2
  | rollback t =>
    simp only [step] at h
    split_ifs at h with hrun
    obtain rfl := Option.some.inj h
    exact .rollback hrun

end UmbraDB.Ckpt.System
