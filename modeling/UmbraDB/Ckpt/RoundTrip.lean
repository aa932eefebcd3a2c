import UmbraDB.Ckpt.Rows
import UmbraDB.Lib.Runs
import UmbraDB.Lib.Fallible
import Mathlib.Data.List.Pairwise
import Mathlib.Data.Set.Function

/-! # Checkpoint store: what was saved is what is loaded

Runs of `save` and `prune` by any wallets, one operation after the other. Next to the tables the
state keeps, from what the operations returned, the checkpoints saved and not yet pruned
(`retained`). `Inv` relates the two: each retained checkpoint has its manifest and its junction
rows, each junction row its chunk, and each chunk row the data that hashes to its key. -/

namespace UmbraDB.Ckpt.RoundTrip

open UmbraDB.Js.Text UmbraDB.Lib.Batches UmbraDB.Lib.Runs UmbraDB.Lib.Fallible UmbraDB.Ckpt.Rows

/-! ### What the statements do to the tables -/

theorem upsertChunksStmt_ok {now : ℤ} {chunks chunks' : List ChunkRow}
    {batch : List (Bytes × Bytes)} (h : upsertChunksStmt now chunks batch = .ok chunks') :
    chunks' = batch.foldl (upsertChunk now) chunks := by
  unfold upsertChunksStmt at h
  split_ifs at h
  cases h
  rfl

/-- The batched upsert is the upsert row by row. -/
theorem upsertBatches_ok {now : ℤ} : ∀ (bs : List (List (Bytes × Bytes)))
    {chunks chunks' : List ChunkRow}, bs.foldlM (upsertChunksStmt now) chunks = .ok chunks' →
    chunks' = bs.flatten.foldl (upsertChunk now) chunks
  | [], _, _, h => by cases h; rfl
  | b :: bs, _, _, h => by
    rw [List.foldlM_cons] at h
    obtain ⟨chunks₁, h₁, h₂⟩ := bind_ok.mp h
    rw [List.flatten_cons, List.foldl_append, ← upsertChunksStmt_ok h₁]
    exact upsertBatches_ok bs h₂

theorem insertJunctionStmt_ok {db db' : CkptDb} {batch : List JunctionRow}
    (h : insertJunctionStmt db batch = .ok db') :
    db' = { db with junction := db.junction ++ batch } ∧
      ∀ j ∈ batch, referencesOk db j = true := by
  unfold insertJunctionStmt at h
  split_ifs at h with h1 h2 h3 h4
  cases h
  refine ⟨rfl, fun j hj => ?_⟩
  have h4' : batch.all (referencesOk db) = true := by simpa using h4
  exact List.all_eq_true.mp h4' j hj

theorem insertBatches_ok : ∀ (bs : List (List JunctionRow)) {db db' : CkptDb},
    bs.foldlM insertJunctionStmt db = .ok db' →
    db' = { db with junction := db.junction ++ bs.flatten } ∧
      ∀ j ∈ bs.flatten, referencesOk db j = true
  | [], db, _, h => by
    cases h
    simp
  | b :: bs, db, db', h => by
    rw [List.foldlM_cons] at h
    obtain ⟨db₁, h₁, h₂⟩ := bind_ok.mp h
    obtain ⟨rfl, hb⟩ := insertJunctionStmt_ok h₁
    obtain ⟨rfl, hbs⟩ := insertBatches_ok bs h₂
    refine ⟨by simp, fun j hj => ?_⟩
    rw [List.flatten_cons, List.mem_append] at hj
    rcases hj with hj | hj
    · exact hb j hj
    · exact hbs j hj

theorem coerceToSafeNumber_ok {n m : ℕ} {context : String}
    (h : coerceToSafeNumber n context = .ok m) : m = n ∧ n ≤ maxSafeInteger := by
  unfold coerceToSafeNumber at h
  split_ifs at h with hn
  cases h
  exact ⟨rfl, by omega⟩

/-- **What a successful `save` leaves in the tables and returns.** -/
theorem saveImpl_ok {sha256 : Bytes → Bytes} {now : ℤ} {w net : JsString} {data : Bytes}
    {opts : SaveOptions} {db db' : CkptDb} {summary : CheckpointSummary}
    (h : saveImpl sha256 now w net data opts db = .ok (db', summary)) :
    ∃ label stored manifest, bindLabel opts.label = .ok label ∧
      stored = (chunkRowsOf sha256 []
        (splitChunks data (opts.chunkSize.getD defaultChunkSize))).foldl
          (upsertChunk now) db.chunks ∧
      manifest = ⟨db.nextId, w, net, (claimSeq db.counters w net).2, true,
        sha256 ((splitChunks data (opts.chunkSize.getD defaultChunkSize)).map sha256).flatten,
        label, now⟩ ∧
      db' = ⟨stored, db.manifests ++ [manifest], db.junction ++ junctionRowsOf db.nextId 0
        ((splitChunks data (opts.chunkSize.getD defaultChunkSize)).map sha256),
        (claimSeq db.counters w net).1, db.nextId + 1⟩ ∧
      summary = ⟨manifest.seq, manifest.manifestHash, data.length,
        (splitChunks data (opts.chunkSize.getD defaultChunkSize)).length, manifest.label,
        manifest.createdAt⟩ ∧ manifest.seq ≤ maxSafeInteger := by
  unfold saveImpl at h
  simp only [bind_ok] at h
  obtain ⟨stored, h₁, label, h₂, db₁, h₃, summary', h₄, h₅⟩ := h
  have hst := upsertBatches_ok _ h₁
  obtain ⟨hdb, -⟩ := insertBatches_ok _ h₃
  rw [flatten_batches (by decide)] at hst hdb
  unfold toSummary at h₄
  obtain ⟨sequence, h₆, h₇⟩ := bind_ok.mp h₄
  obtain ⟨rfl, hle⟩ := coerceToSafeNumber_ok h₆
  cases h₅
  cases h₇
  exact ⟨label, stored, _, h₂, hst, rfl, hdb, rfl, hle⟩

/-! ### The chunk table -/

/-- The upsert of a chunk keeps the keys and the data of the rows there are, and adds its own. -/
theorem mem_upsertChunk {now : ℤ} {chunks : List ChunkRow} {row : Bytes × Bytes} {c : ChunkRow}
    (h : c ∈ upsertChunk now chunks row) :
    (∃ c₀ ∈ chunks, c.hash = c₀.hash ∧ c.data = c₀.data) ∨ c.hash = row.1 ∧ c.data = row.2 := by
  unfold upsertChunk at h
  split_ifs at h
  · obtain ⟨c₀, hc₀, rfl⟩ := List.mem_map.mp h
    refine Or.inl ⟨c₀, hc₀, ?_⟩
    split_ifs <;> exact ⟨rfl, rfl⟩
  · rcases List.mem_append.mp h with h | h
    · exact Or.inl ⟨c, h, rfl, rfl⟩
    · rw [List.mem_singleton.mp h]
      exact Or.inr ⟨rfl, rfl⟩

/-- The hashes the table has a row for. -/
def Stored (chunks : List ChunkRow) (hash : Bytes) : Prop := ∃ c ∈ chunks, c.hash = hash

theorem Stored.upsertChunk {now : ℤ} {chunks : List ChunkRow} {hash : Bytes}
    (h : Stored chunks hash) (row : Bytes × Bytes) : Stored (upsertChunk now chunks row) hash := by
  obtain ⟨c, hc, rfl⟩ := h
  unfold Rows.upsertChunk
  split_ifs
  · refine ⟨_, List.mem_map_of_mem hc, ?_⟩
    split_ifs <;> rfl
  · exact ⟨c, List.mem_append_left _ hc, rfl⟩

theorem stored_upsertChunk (now : ℤ) (chunks : List ChunkRow) (row : Bytes × Bytes) :
    Stored (upsertChunk now chunks row) row.1 := by
  by_cases h : chunks.any (fun c => c.hash == row.1) = true
  · obtain ⟨c, hc, he⟩ := List.any_eq_true.mp h
    exact Stored.upsertChunk ⟨c, hc, by simpa using he⟩ row
  · rw [upsertChunk, if_neg h]
    exact ⟨⟨row.1, row.2, now⟩, by simp, rfl⟩

theorem mem_upsertChunks {now : ℤ} : ∀ (rows : List (Bytes × Bytes)) {chunks : List ChunkRow}
    {c : ChunkRow}, c ∈ rows.foldl (upsertChunk now) chunks →
    (∃ c₀ ∈ chunks, c.hash = c₀.hash ∧ c.data = c₀.data) ∨
      ∃ row ∈ rows, c.hash = row.1 ∧ c.data = row.2
  | [], _, c, h => Or.inl ⟨c, h, rfl, rfl⟩
  | row :: rows, chunks, c, h => by
    rw [List.foldl_cons] at h
    rcases mem_upsertChunks rows h with ⟨c₁, h₁, hh, hd⟩ | ⟨row', h', hh⟩
    · rcases mem_upsertChunk h₁ with ⟨c₀, h₀, hh₀, hd₀⟩ | ⟨hh₀, hd₀⟩
      · exact Or.inl ⟨c₀, h₀, hh.trans hh₀, hd.trans hd₀⟩
      · exact Or.inr ⟨row, by simp, hh.trans hh₀, hd.trans hd₀⟩
    · exact Or.inr ⟨row', by simp [h'], hh⟩

theorem stored_upsertChunks {now : ℤ} : ∀ (rows : List (Bytes × Bytes)) {chunks : List ChunkRow}
    {hash : Bytes}, Stored chunks hash ∨ (∃ row ∈ rows, row.1 = hash) →
    Stored (rows.foldl (upsertChunk now) chunks) hash
  | [], _, _, h => by simpa using h
  | row :: rows, chunks, hash, h => by
    rw [List.foldl_cons]
    refine stored_upsertChunks rows ?_
    rcases h with h | ⟨row', hr, rfl⟩
    · exact Or.inl (h.upsertChunk row)
    · rcases List.mem_cons.mp hr with rfl | hr
      · exact Or.inl (stored_upsertChunk now chunks row')
      · exact Or.inr ⟨row', hr, rfl⟩

/-- The rows of the upsert are the chunks under their hashes. -/
theorem mem_chunkRowsOf {sha256 : Bytes → Bytes} : ∀ (seen chunks : List Bytes)
    {row : Bytes × Bytes}, row ∈ chunkRowsOf sha256 seen chunks →
    row.2 ∈ chunks ∧ row.1 = sha256 row.2
  | _, [], _, h => by simp [chunkRowsOf] at h
  | seen, chunk :: chunks, row, h => by
    unfold chunkRowsOf at h
    split_ifs at h
    · obtain ⟨h1, h2⟩ := mem_chunkRowsOf seen chunks h
      exact ⟨by simp [h1], h2⟩
    · rcases List.mem_cons.mp h with rfl | h
      · exact ⟨by simp, rfl⟩
      · obtain ⟨h1, h2⟩ := mem_chunkRowsOf _ chunks h
        exact ⟨by simp [h1], h2⟩

theorem exists_chunkRowsOf {sha256 : Bytes → Bytes} : ∀ (seen chunks : List Bytes) {chunk : Bytes},
    chunk ∈ chunks →
    sha256 chunk ∈ seen ∨ ∃ row ∈ chunkRowsOf sha256 seen chunks, row.1 = sha256 chunk
  | _, [], _, h => by simp at h
  | seen, c :: chunks, chunk, h => by
    unfold chunkRowsOf
    by_cases hs : seen.contains (sha256 c) = true
    · rw [if_pos hs]
      rcases List.mem_cons.mp h with rfl | h
      · exact Or.inl (by simpa using hs)
      · exact exists_chunkRowsOf seen chunks h
    · rw [if_neg hs]
      rcases List.mem_cons.mp h with rfl | h
      · exact Or.inr ⟨_, List.mem_cons_self, rfl⟩
      · rcases exists_chunkRowsOf (sha256 c :: seen) chunks h with hm | ⟨row, hr, he⟩
        · rcases List.mem_cons.mp hm with he | hm
          · exact Or.inr ⟨_, List.mem_cons_self, he.symm⟩
          · exact Or.inl hm
        · exact Or.inr ⟨row, List.mem_cons_of_mem _ hr, he⟩

/-! ### The counters and the junction rows -/

theorem nextSeq_append (counters : List CounterRow) (row : CounterRow) (w net : JsString) :
    nextSeq (counters ++ [row]) w net =
      (nextSeq counters w net).or
        (if row.w = w ∧ row.net = net then some row.nextSeq else none) := by
  unfold nextSeq
  rw [List.find?_append, Option.map_or]
  by_cases h : row.w = w ∧ row.net = net
  · rw [if_pos h]
    simp [h.1, h.2]
  · rw [if_neg h]
    have : (row.w == w && row.net == net) = false := by
      simpa [Bool.and_eq_false_iff, not_and_or] using h
    simp [this]

/-- Setting the counter of one wallet and network. -/
theorem nextSeq_set (counters : List CounterRow) (w net : JsString) (n : ℕ) (w' net' : JsString) :
    nextSeq (counters.map fun c => if c.w = w ∧ c.net = net then { c with nextSeq := n } else c)
        w' net' =
      if w = w' ∧ net = net' then (nextSeq counters w' net').map fun _ => n
      else nextSeq counters w' net' := by
  unfold nextSeq
  rw [List.find?_map, Option.map_map]
  have hkey : ((fun c : CounterRow => c.w == w' && c.net == net') ∘ fun c =>
      if c.w = w ∧ c.net = net then { c with nextSeq := n } else c) =
        fun c : CounterRow => c.w == w' && c.net == net' := by
    funext c
    simp only [Function.comp]
    split_ifs <;> rfl
  rw [hkey]
  rcases hf : counters.find? fun c => c.w == w' && c.net == net' with _ | c
  · rw [hf]
    simp
  · have hc := List.find?_some hf
    simp only [Bool.and_eq_true, beq_iff_eq] at hc
    rw [hf]
    simp only [Option.map_some, Function.comp, hc.1, hc.2, @eq_comm _ w', @eq_comm _ net']
    split_ifs <;> rfl

/-- The claim takes the number of its counter, and moves that counter past it and no other. -/
theorem nextSeq_claimSeq (counters : List CounterRow) (w net w' net' : JsString) :
    nextSeq (claimSeq counters w net).1 w' net' =
      if w = w' ∧ net = net' then some ((claimSeq counters w net).2 + 1)
      else nextSeq counters w' net' := by
  unfold claimSeq
  rcases hn : nextSeq counters w net with _ | n
  · rw [nextSeq_append]
    by_cases h : w = w' ∧ net = net'
    · obtain ⟨rfl, rfl⟩ := h
      simp [hn]
    · simp [h]
  · simp only
    rw [nextSeq_set]
    by_cases h : w = w' ∧ net = net'
    · obtain ⟨rfl, rfl⟩ := h
      simp [hn]
    · simp [h]

theorem claimSeq_eq {counters : List CounterRow} {w net : JsString} {n : ℕ}
    (h : nextSeq counters w net = some n) : (claimSeq counters w net).2 = n := by
  simp [claimSeq, h]

theorem mem_junctionRowsOf {id : ℕ} : ∀ {i : ℕ} {hashes : List Bytes} {j : JunctionRow},
    j ∈ junctionRowsOf id i hashes → j.manifestId = id ∧ j.chunkHash ∈ hashes ∧ i ≤ j.position
  | _, [], _, h => by simp [junctionRowsOf] at h
  | i, hash :: hashes, j, h => by
    rw [junctionRowsOf] at h
    rcases List.mem_cons.mp h with rfl | h
    · exact ⟨rfl, by simp, le_refl i⟩
    · obtain ⟨h1, h2, h3⟩ := mem_junctionRowsOf h
      exact ⟨h1, by simp [h2], by omega⟩

theorem exists_junctionRowsOf (id : ℕ) {hash : Bytes} : ∀ (i : ℕ) {hashes : List Bytes},
    hash ∈ hashes → ∃ j ∈ junctionRowsOf id i hashes, j.chunkHash = hash
  | _, [], h => by simp at h
  | i, _ :: hashes, h => by
    rcases List.mem_cons.mp h with rfl | h
    · exact ⟨_, List.mem_cons_self, rfl⟩
    · obtain ⟨j, hj, he⟩ := exists_junctionRowsOf id (i + 1) h
      exact ⟨j, List.mem_cons_of_mem _ hj, he⟩

theorem length_junctionRowsOf {id : ℕ} : ∀ (i : ℕ) (hashes : List Bytes),
    (junctionRowsOf id i hashes).length = hashes.length
  | _, [] => rfl
  | i, _ :: hashes => by rw [junctionRowsOf, List.length_cons, length_junctionRowsOf (i + 1)]; rfl

theorem junctionRowsOf_positions (id : ℕ) (hashes : List Bytes) (i : ℕ) :
    (junctionRowsOf id i hashes).map (·.position) = List.range' i hashes.length := by
  induction hashes generalizing i with
  | nil => rfl
  | cons hash hashes ih =>
    show i :: (junctionRowsOf id (i + 1) hashes).map (·.position) = _
    rw [ih, List.length_cons, List.range'_succ]

theorem junctionRowsOf_sorted {id : ℕ} : ∀ (i : ℕ) (hashes : List Bytes),
    (junctionRowsOf id i hashes).Pairwise fun a b => a.position ≤ b.position
  | _, [] => .nil
  | i, hash :: hashes => by
    refine List.pairwise_cons.mpr ⟨fun j hj => ?_, junctionRowsOf_sorted (i + 1) hashes⟩
    have := (mem_junctionRowsOf hj).2.2
    change i ≤ j.position
    omega

/-! ### Runs -/

/-- A checkpoint as its caller saved it, with the sequence number `save` returned. -/
structure Saved where
  w : JsString
  net : JsString
  seq : ℕ
  data : Bytes
  chunkSize : ℕ
  label : Option JsString
  deriving DecidableEq

structure StoreState where
  db : CkptDb
  retained : List Saved
  deriving DecidableEq

def StoreState.init : StoreState := ⟨.empty, []⟩

inductive Op
  | save (now : ℤ) (w net : JsString) (data : Bytes) (opts : SaveOptions)
  | prune (now : ℤ) (w net : JsString) (retainCount : ℤ)

/-- `prune` reported the checkpoint as pruned. -/
def reported (w net : JsString) (result : PruneResult) (r : Saved) : Bool :=
  r.w == w && r.net == net && result.prunedSequences.contains r.seq

/-- One operation. One that rejects changes nothing. -/
def step (sha256 : Bytes → Bytes) (s : StoreState) : Op → Option StoreState
  | .save now w net data opts =>
    match save sha256 now w net data opts s.db with
    | .ok (db, summary) =>
      some ⟨db, s.retained ++ [⟨w, net, summary.sequence, data,
        opts.chunkSize.getD defaultChunkSize, opts.label⟩]⟩
    | .error _ => some s
  | .prune now w net retainCount =>
    match prune now w net retainCount s.db with
    | .ok (db, result) => some ⟨db, s.retained.filter fun r => !reported w net result r⟩
    | .error _ => some s

/-- The chunks of the checkpoint. -/
def Saved.chunks (r : Saved) : List Bytes := splitChunks r.data r.chunkSize

/-- The manifest row and the junction rows of a retained checkpoint. -/
structure Holds (sha256 : Bytes → Bytes) (db : CkptDb) (r : Saved) (m : ManifestRow) : Prop where
  w : m.w = r.w
  net : m.net = r.net
  seq : m.seq = r.seq
  complete : m.complete = true
  label : m.label = r.label
  manifestHash : m.manifestHash = sha256 (r.chunks.map sha256).flatten
  junction : (db.junction.filter fun j => j.manifestId == m.id) =
    junctionRowsOf m.id 0 (r.chunks.map sha256)
  chunkSize : 0 < r.chunkSize
  ids : checkpointIdOk r.w = true ∧ checkpointIdOk r.net = true

/-- The invariant; `U` is the set of the chunks used. -/
structure Inv (sha256 : Bytes → Bytes) (U : Set Bytes) (s : StoreState) : Prop where
  chunk : ∀ c ∈ s.db.chunks, c.hash = sha256 c.data ∧ c.data ∈ U
  stored : ∀ j ∈ s.db.junction, Stored s.db.chunks j.chunkHash
  ids : s.db.manifests.Pairwise fun a b => a.id ≠ b.id
  newId : ∀ m ∈ s.db.manifests, m.id < s.db.nextId
  junctionId : ∀ j ∈ s.db.junction, j.manifestId < s.db.nextId
  seqs : s.db.manifests.Pairwise fun a b => a.w = b.w → a.net = b.net → a.seq ≠ b.seq
  counter : ∀ m ∈ s.db.manifests, ∃ n, nextSeq s.db.counters m.w m.net = some n ∧ m.seq < n
  safe : ∀ m ∈ s.db.manifests, m.seq ≤ maxSafeInteger
  manifest : ∀ r ∈ s.retained, ∃ m ∈ s.db.manifests, Holds sha256 s.db r m
  saved : ∀ m ∈ s.db.manifests, ∃ r ∈ s.retained, Holds sha256 s.db r m
  used : ∀ r ∈ s.retained, ∀ c ∈ r.chunks, c ∈ U

/-- A `save` uses chunks of `U`, and its label has no unpaired surrogate. -/
def OpOk (U : Set Bytes) : Op → Prop
  | .save _ _ _ data opts =>
    (∀ c ∈ splitChunks data (opts.chunkSize.getD defaultChunkSize), c ∈ U) ∧
      ∀ l, opts.label = some l → hasLoneSurrogate l = false
  | .prune .. => True

variable {sha256 : Bytes → Bytes} {U : Set Bytes} {s s' : StoreState}

theorem inv_init : Inv sha256 U .init := by
  refine ⟨?_, ?_, ?_, ?_, ?_, ?_, ?_, ?_, ?_, ?_, ?_⟩ <;> simp [StoreState.init, CkptDb.empty]

/-! ### `save` keeps the invariant -/

theorem assertValidCheckpointIds_ok {w net : JsString}
    (h : assertValidCheckpointIds w net = .ok ()) :
    checkpointIdOk w = true ∧ checkpointIdOk net = true := by
  unfold assertValidCheckpointIds at h
  split_ifs at h with h1 h2
  exact ⟨by simpa using h1, by simpa using h2⟩

theorem validateSaveOptions_ok {opts opts' : SaveOptions}
    (h : validateSaveOptions opts = .ok opts') :
    opts' = opts ∧ 0 < opts.chunkSize.getD defaultChunkSize := by
  unfold validateSaveOptions at h
  split_ifs at h with hv
  cases h
  refine ⟨rfl, ?_⟩
  simp only [Bool.and_eq_true] at hv
  rcases hc : opts.chunkSize with _ | n
  · decide
  · rw [hc] at hv
    simp only [Option.all_some, Bool.and_eq_true, decide_eq_true_eq] at hv
    exact hv.1.1

theorem save_ok {now : ℤ} {w net : JsString} {data : Bytes} {opts : SaveOptions}
    {db db' : CkptDb} {summary : CheckpointSummary}
    (h : save sha256 now w net data opts db = .ok (db', summary)) :
    (checkpointIdOk w = true ∧ checkpointIdOk net = true) ∧
      0 < opts.chunkSize.getD defaultChunkSize ∧
      saveImpl sha256 now w net data opts db = .ok (db', summary) := by
  unfold save at h
  obtain ⟨_, h₁, h₂⟩ := bind_ok.mp h
  obtain ⟨opts', h₃, h₄⟩ := bind_ok.mp h₂
  obtain ⟨rfl, hpos⟩ := validateSaveOptions_ok h₃
  exact ⟨assertValidCheckpointIds_ok h₁, hpos, h₄⟩

/-- A label without unpaired surrogates is stored as it is. -/
theorem bindLabel_ok {label label' : Option JsString} (h : bindLabel label = .ok label')
    (hl : ∀ l, label = some l → hasLoneSurrogate l = false) : label' = label := by
  rcases label with _ | l
  · cases h; rfl
  · simp only [bindLabel] at h
    split at h
    · cases h
    · next l' hl' =>
      cases h
      unfold pgText at hl'
      split_ifs at hl'
      cases hl'
      rw [toWellFormed_eq_self (hl l rfl)]

theorem filter_junctionRowsOf (id i : ℕ) (hashes : List Bytes) :
    (junctionRowsOf id i hashes).filter (fun j => j.manifestId == id) =
      junctionRowsOf id i hashes :=
  List.filter_eq_self.mpr fun _ hj => by simpa using (mem_junctionRowsOf hj).1

/-- The junction rows of the other manifests do not change. -/
theorem Holds.save {db : CkptDb} {r : Saved} {m m' : ManifestRow} {chunks : List ChunkRow}
    {hashes : List Bytes} {counters : List CounterRow} (h : Holds sha256 db r m)
    (hm : m.id < db.nextId) :
    Holds sha256 ⟨chunks, db.manifests ++ [m'], db.junction ++ junctionRowsOf db.nextId 0 hashes,
      counters, db.nextId + 1⟩ r m := by
  refine { h with junction := ?_ }
  have hnil : (junctionRowsOf db.nextId 0 hashes).filter (fun j => j.manifestId == m.id) = [] := by
    refine List.filter_eq_nil_iff.mpr fun j hj => ?_
    have := (mem_junctionRowsOf hj).1
    simp only [beq_iff_eq]
    omega
  rw [List.filter_append, hnil, List.append_nil]
  exact h.junction

/-- The chunk rows are still the chunks they are named after. -/
theorem Inv.save_chunk (hI : Inv sha256 U s) {chunks : List Bytes} (now : ℤ)
    (hused : ∀ c ∈ chunks, c ∈ U) :
    ∀ c ∈ (chunkRowsOf sha256 [] chunks).foldl (upsertChunk now) s.db.chunks,
      c.hash = sha256 c.data ∧ c.data ∈ U := by
  intro c hc
  rcases mem_upsertChunks _ hc with ⟨c₀, hc₀, hh, hd⟩ | ⟨row, hrow, hh, hd⟩
  · rw [hh, hd]
    exact hI.chunk c₀ hc₀
  · obtain ⟨h1, h2⟩ := mem_chunkRowsOf _ _ hrow
    rw [hh, hd]
    exact ⟨h2, hused _ h1⟩

/-- The chunks of the old manifests and of the new one are stored. -/
theorem Inv.save_stored (hI : Inv sha256 U s) (chunks : List Bytes) (now : ℤ) :
    ∀ j ∈ s.db.junction ++ junctionRowsOf s.db.nextId 0 (chunks.map sha256),
      Stored ((chunkRowsOf sha256 [] chunks).foldl (upsertChunk now) s.db.chunks) j.chunkHash := by
  intro j hj
  refine stored_upsertChunks _ ?_
  rcases List.mem_append.mp hj with hj | hj
  · exact Or.inl (hI.stored j hj)
  · obtain ⟨chunk, hchunk, he⟩ := List.mem_map.mp (mem_junctionRowsOf hj).2.1
    rcases exists_chunkRowsOf [] _ hchunk with h0 | ⟨row, hrow, hh⟩
    · simp at h0
    · exact Or.inr ⟨row, hrow, hh.trans he⟩

/-- The claimed sequence is new for its wallet and network. -/
theorem Inv.claimSeq_fresh (hI : Inv sha256 U s) {m : ManifestRow} (hm : m ∈ s.db.manifests) :
    m.seq < (claimSeq s.db.counters m.w m.net).2 := by
  obtain ⟨n, hn, hlt⟩ := hI.counter m hm
  rw [claimSeq_eq hn]
  exact hlt

theorem Inv.save_counter (hI : Inv sha256 U s) (w net : JsString) {m : ManifestRow}
    (hm : m ∈ s.db.manifests) :
    ∃ n, nextSeq (claimSeq s.db.counters w net).1 m.w m.net = some n ∧ m.seq < n := by
  rw [nextSeq_claimSeq]
  split_ifs with hk
  · have hlt := hI.claimSeq_fresh hm
    rw [hk.1, hk.2]
    exact ⟨_, rfl, by omega⟩
  · exact hI.counter m hm

/-- The junction rows of the new manifest are those of its chunks. -/
theorem Inv.junction_new (hI : Inv sha256 U s) (hashes : List Bytes) :
    (s.db.junction ++ junctionRowsOf s.db.nextId 0 hashes).filter
      (fun j => j.manifestId == s.db.nextId) = junctionRowsOf s.db.nextId 0 hashes := by
  have hnil : s.db.junction.filter (fun j => j.manifestId == s.db.nextId) = [] := by
    refine List.filter_eq_nil_iff.mpr fun j hj => ?_
    have := hI.junctionId j hj
    simp only [beq_iff_eq]
    omega
  rw [List.filter_append, hnil, List.nil_append, filter_junctionRowsOf]

theorem inv_save {now : ℤ} {w net : JsString} {data : Bytes} {opts : SaveOptions} {db : CkptDb}
    {summary : CheckpointSummary} (hI : Inv sha256 U s)
    (hop : OpOk U (.save now w net data opts))
    (h : save sha256 now w net data opts s.db = .ok (db, summary)) :
    Inv sha256 U ⟨db, s.retained ++ [⟨w, net, summary.sequence, data,
      opts.chunkSize.getD defaultChunkSize, opts.label⟩]⟩ := by
  obtain ⟨hids, hpos, h⟩ := save_ok h
  obtain ⟨label, stored, m, hlabel, rfl, hm, rfl, hsummary, hsafe⟩ := saveImpl_ok h
  have hseq : summary.sequence = m.seq := by rw [hsummary]
  obtain ⟨hused, hlone⟩ := hop
  obtain rfl := bindLabel_ok hlabel hlone
  set r : Saved := ⟨w, net, summary.sequence, data, opts.chunkSize.getD defaultChunkSize,
    opts.label⟩ with hr
  have hchunks : splitChunks data (opts.chunkSize.getD defaultChunkSize) = r.chunks := rfl
  rw [hchunks] at hused hm ⊢
  have hmid : m.id = s.db.nextId := by rw [hm]
  have hmseq : m.seq = (claimSeq s.db.counters w net).2 := by rw [hm]
  have hnew : Holds sha256 ⟨(chunkRowsOf sha256 [] r.chunks).foldl (upsertChunk now) s.db.chunks,
      s.db.manifests ++ [m], s.db.junction ++
      junctionRowsOf s.db.nextId 0 (r.chunks.map sha256), (claimSeq s.db.counters w net).1,
      s.db.nextId + 1⟩ r m := by
    refine ⟨by rw [hm], by rw [hm], hseq.symm, by rw [hm], by rw [hm], by rw [hm], ?_, hpos, hids⟩
    rw [hmid]
    exact hI.junction_new _
  refine ⟨hI.save_chunk now hused, hI.save_stored _ now, ?_, ?_, ?_, ?_, ?_, ?_, ?_, ?_, ?_⟩
  · refine List.pairwise_append.mpr ⟨hI.ids, by simp, fun a ha b hb => ?_⟩
    have hlt := hI.newId a ha
    rw [List.mem_singleton.mp hb, hmid]
    omega
  · intro a ha
    show a.id < s.db.nextId + 1
    rcases List.mem_append.mp ha with ha | ha
    · have := hI.newId a ha
      omega
    · rw [List.mem_singleton.mp ha, hmid]
      omega
  · intro j hj
    show j.manifestId < s.db.nextId + 1
    rcases List.mem_append.mp hj with hj | hj
    · have := hI.junctionId j hj
      omega
    · rw [(mem_junctionRowsOf hj).1]
      omega
  · refine List.pairwise_append.mpr ⟨hI.seqs, by simp, fun a ha b hb hw hnet => ?_⟩
    rw [List.mem_singleton.mp hb] at hw hnet ⊢
    have hlt := hI.claimSeq_fresh ha
    rw [hw, hnet, hnew.w, hnew.net] at hlt
    change a.seq < (claimSeq s.db.counters w net).2 at hlt
    omega
  · intro a ha
    rcases List.mem_append.mp ha with ha | ha
    · exact hI.save_counter w net ha
    · rw [List.mem_singleton.mp ha, hm]
      simp [nextSeq_claimSeq]
  · intro a ha
    rcases List.mem_append.mp ha with ha | ha
    · exact hI.safe a ha
    · rw [List.mem_singleton.mp ha]
      exact hsafe
  · intro r' hr'
    rcases List.mem_append.mp hr' with hr' | hr'
    · obtain ⟨m', hm', hh⟩ := hI.manifest r' hr'
      exact ⟨m', List.mem_append_left _ hm', hh.save (hI.newId m' hm')⟩
    · rw [List.mem_singleton.mp hr']
      exact ⟨m, by simp, hnew⟩
  · intro a ha
    rcases List.mem_append.mp ha with ha | ha
    · obtain ⟨r', hr', hh⟩ := hI.saved a ha
      exact ⟨r', List.mem_append_left _ hr', hh.save (hI.newId a ha)⟩
    · rw [List.mem_singleton.mp ha]
      exact ⟨r, by simp, hnew⟩
  · intro r' hr'
    rcases List.mem_append.mp hr' with hr' | hr'
    · exact hI.used r' hr'
    · rw [List.mem_singleton.mp hr']
      exact hused

/-! ### `prune` keeps the invariant -/

theorem mapM_coerce_ok {context : String} {ms : List ManifestRow} {ns : List ℕ}
    (h : ms.mapM (fun m => coerceToSafeNumber m.seq context) = .ok ns) : ns = ms.map (·.seq) := by
  have hmap : ns.map id = ms.map (·.seq) :=
    map_eq_of_mapM (fun m n hn => (coerceToSafeNumber_ok hn).1) h
  rwa [List.map_id] at hmap

/-- **What a successful `prune` leaves in the tables and returns.** -/
theorem prune_ok {now : ℤ} {w net : JsString} {retainCount : ℤ} {db db' : CkptDb}
    {result : PruneResult} (h : prune now w net retainCount db = .ok (db', result)) :
    ∃ n db₁, db₁ = deleteManifests db w net n ∧
      db' = { db₁ with chunks := db₁.chunks.filter fun c => !reclaimable now db₁.junction c } ∧
      result.prunedSequences = (db.manifests.filter (prunable db w net n)).map (·.seq) := by
  unfold prune at h
  obtain ⟨_, -, h⟩ := bind_ok.mp h
  split_ifs at h
  unfold pruneImpl at h
  simp only [bind_ok] at h
  obtain ⟨ns, h₁, h₂⟩ := h
  cases h₂
  exact ⟨_, _, rfl, rfl, mapM_coerce_ok h₁⟩

/-- Two manifests with the same id are the same. -/
theorem Inv.id_inj (hI : Inv sha256 U s) {a b : ManifestRow} (ha : a ∈ s.db.manifests)
    (hb : b ∈ s.db.manifests) (h : a.id = b.id) : a = b := by
  by_contra hne
  have : Std.Symm fun a b : ManifestRow => a.id ≠ b.id := ⟨fun _ _ h => h.symm⟩
  exact hI.ids.forall ha hb hne h

/-- And so are two of one wallet and network with the same sequence. -/
theorem Inv.seq_inj (hI : Inv sha256 U s) {a b : ManifestRow} (ha : a ∈ s.db.manifests)
    (hb : b ∈ s.db.manifests) (hw : a.w = b.w) (hnet : a.net = b.net) (h : a.seq = b.seq) :
    a = b := by
  by_contra hne
  have : Std.Symm fun a b : ManifestRow => a.w = b.w → a.net = b.net → a.seq ≠ b.seq :=
    ⟨fun _ _ h hw hn => (h hw.symm hn.symm).symm⟩
  exact hI.seqs.forall ha hb hne hw hnet h

theorem prunable_key {db : CkptDb} {w net : JsString} {n : ℕ} {m : ManifestRow}
    (h : prunable db w net n m = true) : m.w = w ∧ m.net = net := by
  simp only [prunable, Bool.and_eq_true, beq_iff_eq] at h
  exact h.1.1

/-- The manifests deleted are those whose checkpoints are reported. -/
theorem Inv.reported_iff (hI : Inv sha256 U s) {w net : JsString} {n : ℕ} {result : PruneResult}
    (hres : result.prunedSequences = (s.db.manifests.filter (prunable s.db w net n)).map (·.seq))
    {r : Saved} {m : ManifestRow} (hm : m ∈ s.db.manifests) (hh : Holds sha256 s.db r m) :
    reported w net result r = true ↔ prunable s.db w net n m = true := by
  have hrep : reported w net result r = true ↔
      (m.w = w ∧ m.net = net) ∧ ∃ m' ∈ s.db.manifests, prunable s.db w net n m' = true ∧
        m'.seq = m.seq := by
    simp [reported, hres, hh.w, hh.net, hh.seq, and_assoc]
  rw [hrep]
  constructor
  · rintro ⟨⟨hw, hnet⟩, m', hm', hp, he⟩
    obtain ⟨hw', hnet'⟩ := prunable_key hp
    rw [← hI.seq_inj hm' hm (hw'.trans hw.symm) (hnet'.trans hnet.symm) he]
    exact hp
  · intro hp
    exact ⟨prunable_key hp, m, hm, hp, rfl⟩

/-- The junction rows of a manifest that is not deleted do not change. -/
theorem Inv.holds_prune (hI : Inv sha256 U s) {w net : JsString} {n : ℕ} {r : Saved}
    {m : ManifestRow} {chunks : List ChunkRow} (hm : m ∈ s.db.manifests)
    (hp : prunable s.db w net n m = false) (hh : Holds sha256 s.db r m) :
    Holds sha256 { deleteManifests s.db w net n with chunks := chunks } r m := by
  refine { hh with junction := ?_ }
  rw [← hh.junction]
  simp only [deleteManifests]
  rw [List.filter_filter]
  refine List.filter_congr fun j hj => ?_
  by_cases hid : j.manifestId = m.id
  · -- a deleted manifest with this id would be `m`
    have : (s.db.manifests.filter (prunable s.db w net n)).any (fun m' => m'.id == j.manifestId) =
        false := by
      refine List.any_eq_false.mpr fun m' hm' => ?_
      obtain ⟨hm', hp'⟩ := List.mem_filter.mp hm'
      simp only [beq_iff_eq, hid]
      intro he
      rw [hI.id_inj hm' hm he, hp] at hp'
      cases hp'
    simp [this]
  · simp [hid]

theorem inv_prune {now : ℤ} {w net : JsString} {retainCount : ℤ} {db : CkptDb}
    {result : PruneResult} (hI : Inv sha256 U s)
    (h : prune now w net retainCount s.db = .ok (db, result)) :
    Inv sha256 U ⟨db, s.retained.filter fun r => !reported w net result r⟩ := by
  obtain ⟨n, db₁, rfl, rfl, hres⟩ := prune_ok h
  have hman : ∀ {m}, m ∈ (deleteManifests s.db w net n).manifests ↔
      m ∈ s.db.manifests ∧ prunable s.db w net n m = false := by
    intro m
    simp [deleteManifests]
  have hjun : ∀ {j}, j ∈ (deleteManifests s.db w net n).junction → j ∈ s.db.junction := by
    intro j hj
    exact (List.mem_filter.mp hj).1
  refine ⟨?_, ?_, ?_, ?_, ?_, ?_, ?_, ?_, ?_, ?_, ?_⟩
  · intro c hc
    exact hI.chunk c (List.mem_filter.mp hc).1
  · -- a chunk with a junction row left is not deleted
    intro j hj
    obtain ⟨c, hc, he⟩ := hI.stored j (hjun hj)
    refine ⟨c, List.mem_filter.mpr ⟨hc, ?_⟩, he⟩
    have hany : (deleteManifests s.db w net n).junction.any (fun j => j.chunkHash == c.hash) =
        true := List.any_eq_true.mpr ⟨j, hj, by simp [he]⟩
    simp [reclaimable, hany]
  · exact hI.ids.filter _
  · intro m hm
    exact hI.newId m (hman.mp hm).1
  · intro j hj
    exact hI.junctionId j (hjun hj)
  · exact hI.seqs.filter _
  · intro m hm
    exact hI.counter m (hman.mp hm).1
  · intro m hm
    exact hI.safe m (hman.mp hm).1
  · intro r hr
    obtain ⟨hr, hnr⟩ := List.mem_filter.mp hr
    obtain ⟨m, hm, hh⟩ := hI.manifest r hr
    have hp : prunable s.db w net n m = false := by
      by_contra hne
      rw [(hI.reported_iff hres hm hh).mpr (by simpa using hne)] at hnr
      cases hnr
    exact ⟨m, hman.mpr ⟨hm, hp⟩, hI.holds_prune hm hp hh⟩
  · intro m hm
    obtain ⟨hm, hp⟩ := hman.mp hm
    obtain ⟨r, hr, hh⟩ := hI.saved m hm
    refine ⟨r, List.mem_filter.mpr ⟨hr, ?_⟩, hI.holds_prune hm hp hh⟩
    by_contra hne
    rw [(hI.reported_iff hres hm hh).mp (by simpa using hne)] at hp
    cases hp
  · intro r hr
    exact hI.used r (List.mem_filter.mp hr).1

/-- An operation that fails changes nothing; one that succeeds leaves what it returned. -/
theorem step_cases {op : Op} (h : step sha256 s op = some s') :
    s' = s ∨
    (∃ now w net data opts summary, op = .save now w net data opts ∧
      save sha256 now w net data opts s.db = .ok (s'.db, summary) ∧
      s'.retained = s.retained ++ [⟨w, net, summary.sequence, data,
        opts.chunkSize.getD defaultChunkSize, opts.label⟩]) ∨
    ∃ now w net retainCount result, op = .prune now w net retainCount ∧
      prune now w net retainCount s.db = .ok (s'.db, result) ∧
      s'.retained = s.retained.filter fun r => !reported w net result r := by
  cases op with
  | save now w net data opts =>
    simp only [step] at h
    split at h
    · next db summary hs =>
      obtain rfl := Option.some.inj h
      exact Or.inr (Or.inl ⟨now, w, net, data, opts, summary, rfl, hs, rfl⟩)
    · exact Or.inl (Option.some.inj h).symm
  | prune now w net retainCount =>
    simp only [step] at h
    split at h
    · next db result hs =>
      obtain rfl := Option.some.inj h
      exact Or.inr (Or.inr ⟨now, w, net, retainCount, result, rfl, hs, rfl⟩)
    · exact Or.inl (Option.some.inj h).symm

theorem inv_step {op : Op} (hI : Inv sha256 U s) (hop : OpOk U op)
    (h : step sha256 s op = some s') : Inv sha256 U s' := by
  obtain ⟨db', retained'⟩ := s'
  rcases step_cases h with rfl | ⟨now, w, net, data, opts, summary, rfl, hs, rfl⟩ |
    ⟨now, w, net, retainCount, result, rfl, hs, rfl⟩
  · exact hI
  · exact inv_save hI hop hs
  · exact inv_prune hI hs

/-! ### `load` -/

theorem bySeqDesc_head {ms : List ManifestRow} {m : ManifestRow}
    (h : (bySeqDesc ms).head? = some m) : m ∈ ms ∧ ∀ m' ∈ ms, m'.seq ≤ m.seq := by
  have : Std.Total fun a b : ManifestRow => b.seq ≤ a.seq := ⟨fun a b => Nat.le_total _ _⟩
  have : IsTrans ManifestRow fun a b => b.seq ≤ a.seq := ⟨fun _ _ _ h h' => h'.trans h⟩
  have hs := ms.pairwise_insertionSort fun a b : ManifestRow => b.seq ≤ a.seq
  unfold bySeqDesc at h
  rcases hl : ms.insertionSort (fun a b : ManifestRow => b.seq ≤ a.seq) with _ | ⟨m₀, rest⟩
  · rw [hl] at h; cases h
  · rw [hl] at h hs
    cases h
    have hmem : ∀ {x}, x ∈ ms ↔ x ∈ m :: rest := by
      intro x
      rw [← hl, List.mem_insertionSort]
    refine ⟨hmem.mpr List.mem_cons_self, fun m' hm' => ?_⟩
    rcases List.mem_cons.mp (hmem.mp hm') with rfl | hm'
    · exact le_refl _
    · exact (List.pairwise_cons.mp hs).1 m' hm'

theorem bySeqDesc_head_ne {ms : List ManifestRow} {m : ManifestRow} (h : m ∈ ms) :
    ∃ m', (bySeqDesc ms).head? = some m' := by
  rcases hl : bySeqDesc ms with _ | ⟨m', rest⟩
  · rw [← List.mem_insertionSort fun a b : ManifestRow => b.seq ≤ a.seq] at h
    rw [bySeqDesc] at hl
    rw [hl] at h
    simp at h
  · exact ⟨m', rfl⟩

/-- The row of a chunk that is stored holds its bytes. -/
theorem find_chunk {chunks : List ChunkRow} (hinj : Set.InjOn sha256 U)
    (hc : ∀ c ∈ chunks, c.hash = sha256 c.data ∧ c.data ∈ U) {p : Bytes} (hp : p ∈ U)
    (hst : Stored chunks (sha256 p)) :
    ∃ c, (chunks.find? fun c => c.hash == sha256 p) = some c ∧ c.data = p := by
  obtain ⟨c₀, hc₀, hhash⟩ := hst
  rcases hf : chunks.find? fun c => c.hash == sha256 p with _ | c
  · have := List.find?_eq_none.mp hf c₀ hc₀
    simp [hhash] at this
  · have hcp : c.hash = sha256 p := by simpa using List.find?_some hf
    obtain ⟨h1, h2⟩ := hc c (List.mem_of_find?_eq_some hf)
    exact ⟨c, hf, hinj h2 hp (h1.symm.trans hcp)⟩

/-- The loop of `load` finds all chunks, each with the bytes that were saved. -/
theorem checkRows_ok {chunks : List ChunkRow} (id : ℕ) (manifestHash : Bytes)
    (hinj : Set.InjOn sha256 U) (hc : ∀ c ∈ chunks, c.hash = sha256 c.data ∧ c.data ∈ U) :
    ∀ (i : ℕ) (parts : List Bytes), (∀ p ∈ parts, p ∈ U ∧ Stored chunks (sha256 p)) →
      checkRows sha256 chunks manifestHash i (junctionRowsOf id i (parts.map sha256)) =
        .ok (parts, parts.map sha256)
  | _, [], _ => rfl
  | i, p :: parts, hp => by
    obtain ⟨hpU, hst⟩ := hp p (by simp)
    have ih := checkRows_ok id manifestHash hinj hc (i + 1) parts
      fun q hq => hp q (by simp [hq])
    obtain ⟨c, hf, hd⟩ := find_chunk hinj hc hpU hst
    simp only [List.map_cons, junctionRowsOf, checkRows]
    rw [if_neg (by simp), hf]
    simp only [hd, ih]
    simp [bind, Except.bind, pure, Except.pure]

/-- A checkpoint is loaded from its manifest row, if its chunks are there. -/
theorem load_manifest {db : CkptDb} {r : Saved} {m : ManifestRow} {sequence : Option ℕ}
    (hinj : Set.InjOn sha256 U) (hchunk : ∀ c ∈ db.chunks, c.hash = sha256 c.data ∧ c.data ∈ U)
    (hstored : ∀ p ∈ r.chunks, p ∈ U ∧ Stored db.chunks (sha256 p)) (hle : m.seq ≤ maxSafeInteger)
    (hh : Holds sha256 db r m)
    (hhead : (bySeqDesc ((manifestsOf db r.w r.net).filter fun m =>
      sequence.all (m.seq == ·))).head? = some m) :
    load sha256 r.w r.net sequence db = .ok ⟨⟨r.seq, m.manifestHash, r.data.length,
      r.chunks.length, r.label, m.createdAt⟩, r.data⟩ := by
  have hrows := hh.junction
  have hsorted : byPosition (junctionRowsOf m.id 0 (r.chunks.map sha256)) =
      junctionRowsOf m.id 0 (r.chunks.map sha256) :=
    List.Pairwise.insertionSort_eq (junctionRowsOf_sorted 0 _)
  have hcheck := checkRows_ok m.id m.manifestHash hinj hchunk 0 r.chunks
    hstored
  have hdata : r.chunks.flatten = r.data := flatten_batches hh.chunkSize r.data
  have hids : assertValidCheckpointIds r.w r.net = .ok () := by
    simp [assertValidCheckpointIds, hh.ids.1, hh.ids.2]
  have hsafe : coerceToSafeNumber m.seq "CheckpointSummary.sequence" = .ok r.seq := by
    rw [coerceToSafeNumber, if_neg (by omega), hh.seq]
  simp only [load, loadImpl, hids, hhead, hrows, hsorted, hcheck, hdata, ← hh.manifestHash,
    toSummary, hsafe, hh.label, length_junctionRowsOf, List.length_map, bind, Except.bind, pure,
    Except.pure]
  simp

/-- A retained checkpoint has its chunks. -/
theorem Inv.chunks_stored (hI : Inv sha256 U s) {r : Saved} {m : ManifestRow} (hr : r ∈ s.retained)
    (hh : Holds sha256 s.db r m) : ∀ p ∈ r.chunks, p ∈ U ∧ Stored s.db.chunks (sha256 p) := by
  intro p hp
  obtain ⟨j, hj, he⟩ := exists_junctionRowsOf m.id 0
    (List.mem_map_of_mem (f := sha256) hp)
  rw [← hh.junction] at hj
  exact ⟨hI.used r hr p hp, he ▸ hI.stored j (List.mem_filter.mp hj).1⟩

theorem Inv.load_manifest (hI : Inv sha256 U s) (hinj : Set.InjOn sha256 U) {r : Saved}
    {m : ManifestRow} {sequence : Option ℕ} (hr : r ∈ s.retained) (hm : m ∈ s.db.manifests)
    (hh : Holds sha256 s.db r m)
    (hhead : (bySeqDesc ((manifestsOf s.db r.w r.net).filter fun m =>
      sequence.all (m.seq == ·))).head? = some m) :
    load sha256 r.w r.net sequence s.db = .ok ⟨⟨r.seq, m.manifestHash, r.data.length,
      r.chunks.length, r.label, m.createdAt⟩, r.data⟩ :=
  RoundTrip.load_manifest hinj hI.chunk (hI.chunks_stored hr hh) (hI.safe m hm) hh hhead

/-- Every manifest of the wallet and network is complete. -/
theorem Inv.mem_manifestsOf (hI : Inv sha256 U s) {w net : JsString} {m : ManifestRow} :
    m ∈ manifestsOf s.db w net ↔ m ∈ s.db.manifests ∧ m.w = w ∧ m.net = net := by
  simp only [manifestsOf, List.mem_filter, Bool.and_eq_true, beq_iff_eq]
  constructor
  · rintro ⟨h, ⟨hw, hn⟩, -⟩
    exact ⟨h, hw, hn⟩
  · rintro ⟨h, hw, hn⟩
    obtain ⟨r, -, hh⟩ := hI.saved m h
    exact ⟨h, ⟨hw, hn⟩, hh.complete⟩

/-- The row that `load` selects for a sequence number. -/
theorem Inv.head_seq (hI : Inv sha256 U s) {r : Saved} (hr : r ∈ s.retained) :
    ∃ m ∈ s.db.manifests, Holds sha256 s.db r m ∧
      (bySeqDesc ((manifestsOf s.db r.w r.net).filter fun m =>
        (some r.seq).all (m.seq == ·))).head? = some m := by
  obtain ⟨m, hm, hh⟩ := hI.manifest r hr
  have hmem : m ∈ (manifestsOf s.db r.w r.net).filter fun m => (some r.seq).all (m.seq == ·) := by
    refine List.mem_filter.mpr ⟨hI.mem_manifestsOf.mpr ⟨hm, hh.w, hh.net⟩, ?_⟩
    simp [hh.seq]
  obtain ⟨m', hhead⟩ := bySeqDesc_head_ne hmem
  obtain ⟨hm', -⟩ := bySeqDesc_head hhead
  obtain ⟨h1, h2⟩ := List.mem_filter.mp hm'
  obtain ⟨h3, hw, hnet⟩ := hI.mem_manifestsOf.mp h1
  have he : m' = m := hI.seq_inj h3 hm (hw.trans hh.w.symm) (hnet.trans hh.net.symm)
    (by rw [hh.seq]; simpa using h2)
  rw [he] at hhead
  exact ⟨m, hm, hh, hhead⟩

/-- The row that `load` selects without one. -/
theorem Inv.head_latest (hI : Inv sha256 U s) {r : Saved} (hr : r ∈ s.retained)
    (hmax : ∀ r' ∈ s.retained, r'.w = r.w → r'.net = r.net → r'.seq ≤ r.seq) :
    ∃ m ∈ s.db.manifests, Holds sha256 s.db r m ∧
      (bySeqDesc ((manifestsOf s.db r.w r.net).filter fun m =>
        (none : Option ℕ).all (m.seq == ·))).head? = some m := by
  obtain ⟨m, hm, hh⟩ := hI.manifest r hr
  have hmem : m ∈ (manifestsOf s.db r.w r.net).filter fun m =>
      (none : Option ℕ).all (m.seq == ·) :=
    List.mem_filter.mpr ⟨hI.mem_manifestsOf.mpr ⟨hm, hh.w, hh.net⟩, rfl⟩
  obtain ⟨m', hhead⟩ := bySeqDesc_head_ne hmem
  obtain ⟨hm', hle⟩ := bySeqDesc_head hhead
  obtain ⟨h3, hw, hnet⟩ := hI.mem_manifestsOf.mp (List.mem_filter.mp hm').1
  obtain ⟨r', hr', hh'⟩ := hI.saved m' h3
  have hge := hle m hmem
  have hlt := hmax r' hr' (hh'.w.symm.trans hw) (hh'.net.symm.trans hnet)
  have he : m' = m := hI.seq_inj h3 hm (hw.trans hh.w.symm) (hnet.trans hh.net.symm) (by
    rw [hh.seq] at hge ⊢
    rw [hh'.seq] at hge ⊢
    omega)
  rw [he] at hhead
  exact ⟨m, hm, hh, hhead⟩

theorem Inv.load_seq (hI : Inv sha256 U s) (hinj : Set.InjOn sha256 U) {r : Saved}
    (hr : r ∈ s.retained) : ∃ rec, load sha256 r.w r.net (some r.seq) s.db = .ok rec ∧
      rec.data = r.data ∧ rec.summary.label = r.label ∧ rec.summary.sequence = r.seq := by
  obtain ⟨m, hm, hh, hhead⟩ := hI.head_seq hr
  exact ⟨_, hI.load_manifest hinj hr hm hh hhead, rfl, rfl, rfl⟩

theorem Inv.load_latest (hI : Inv sha256 U s) (hinj : Set.InjOn sha256 U) {r : Saved}
    (hr : r ∈ s.retained)
    (hmax : ∀ r' ∈ s.retained, r'.w = r.w → r'.net = r.net → r'.seq ≤ r.seq) :
    ∃ rec, load sha256 r.w r.net none s.db = .ok rec ∧
      rec.data = r.data ∧ rec.summary.label = r.label ∧ rec.summary.sequence = r.seq := by
  obtain ⟨m, hm, hh, hhead⟩ := hI.head_latest hr hmax
  exact ⟨_, hI.load_manifest hinj hr hm hh hhead, rfl, rfl, rfl⟩

/-- `load` fails only on invalid ids or when there is no such checkpoint. -/
theorem Inv.load_error (hI : Inv sha256 U s) (hinj : Set.InjOn sha256 U) {w net : JsString}
    {sequence : Option ℕ} {e : CkptError} (h : load sha256 w net sequence s.db = .error e) :
    (∃ context, e = .validation context) ∨ e = .checkpointNotFound w net sequence := by
  by_cases hv : assertValidCheckpointIds w net = .ok ()
  · rcases hhead : (bySeqDesc ((manifestsOf s.db w net).filter fun m =>
        sequence.all (m.seq == ·))).head? with _ | m
    · simp only [load, loadImpl, hv, hhead, bind, Except.bind] at h
      cases h
      exact Or.inr rfl
    · obtain ⟨hm, -⟩ := bySeqDesc_head hhead
      obtain ⟨h3, rfl, rfl⟩ := hI.mem_manifestsOf.mp (List.mem_filter.mp hm).1
      obtain ⟨r, hr, hh⟩ := hI.saved m h3
      rw [hh.w, hh.net] at h hhead
      rw [hI.load_manifest hinj hr h3 hh hhead] at h
      cases h
  · have hctx : ∃ context, assertValidCheckpointIds w net = .error (.validation context) := by
      unfold assertValidCheckpointIds at hv ⊢
      split_ifs at hv ⊢
      · exact ⟨_, rfl⟩
      · exact ⟨_, rfl⟩
      · exact absurd rfl hv
    obtain ⟨context, hctx⟩ := hctx
    simp only [load, hctx, bind, Except.bind] at h
    cases h
    exact Or.inl ⟨context, rfl⟩

/-! ### The round trip -/

/-- The chunks of the payloads of a run. -/
def usedChunks (ops : List Op) : Set Bytes :=
  { c | ∃ now w net data opts, Op.save now w net data opts ∈ ops ∧
    c ∈ splitChunks data (opts.chunkSize.getD defaultChunkSize) }

/-- No saved label has an unpaired surrogate. -/
def labelsOk (ops : List Op) : Prop :=
  ∀ now w net data opts l, Op.save now w net data opts ∈ ops → opts.label = some l →
    hasLoneSurrogate l = false

theorem inv_run {ops : List Op} (hl : labelsOk ops) (h : run (step sha256) ops .init = some s) :
    Inv sha256 (usedChunks ops) s := by
  have hops : ∀ op ∈ ops, OpOk (usedChunks ops) op := by
    intro op hop
    cases op with
    | save now w net data opts =>
      exact ⟨fun c hc => ⟨now, w, net, data, opts, hop, hc⟩,
        fun l hlab => hl now w net data opts l hop hlab⟩
    | prune => trivial
  exact run_inv_along (P := fun _ op => OpOk (usedChunks ops) op)
    (fun _ _ _ hI hP hs => inv_step hI hP hs) ops StoreState.init s inv_init
    (along_of_forall ops _ hops) h

/-! ### Whatever the labels

The tables after a run are those after the same run with U+FFFD for the unpaired surrogates of the
labels. So the bytes come back even where a label does not. -/

def wellFormedLabel (opts : SaveOptions) : SaveOptions :=
  { opts with label := opts.label.map toWellFormed }

def Op.wellFormed : Op → Op
  | .save now w net data opts => .save now w net data (wellFormedLabel opts)
  | .prune now w net retainCount => .prune now w net retainCount

def Saved.wellFormed (r : Saved) : Saved := { r with label := r.label.map toWellFormed }

def StoreState.wellFormed (s : StoreState) : StoreState :=
  ⟨s.db, s.retained.map Saved.wellFormed⟩

theorem bindLabel_wellFormed (label : Option JsString) :
    bindLabel (label.map toWellFormed) = bindLabel label := by
  rcases label with _ | l
  · rfl
  · simp only [Option.map_some, bindLabel, pgText, contains_zero_toWellFormed,
      toWellFormed_toWellFormed]

theorem save_wellFormed {now : ℤ} {w net : JsString} {data : Bytes} {opts : SaveOptions}
    {db : CkptDb} :
    save sha256 now w net data (wellFormedLabel opts) db = save sha256 now w net data opts db := by
  have hlen : (opts.label.map toWellFormed).all (fun l => decide (l.length ≤ 200)) =
      opts.label.all fun l => decide (l.length ≤ 200) := by
    cases opts.label with
    | none => rfl
    | some l => simp [length_toWellFormed]
  have himpl : saveImpl sha256 now w net data (wellFormedLabel opts) db =
      saveImpl sha256 now w net data opts db := by
    unfold saveImpl wellFormedLabel
    simp only [bindLabel_wellFormed]
  unfold save validateSaveOptions
  simp only [wellFormedLabel, hlen] at himpl ⊢
  split_ifs
  · simp only [bind, Except.bind]
    rw [himpl]
  · rfl

theorem step_wellFormed (s : StoreState) (op : Op) :
    step sha256 s.wellFormed op.wellFormed = (step sha256 s op).map StoreState.wellFormed := by
  cases op with
  | save now w net data opts =>
    simp only [step, Op.wellFormed, StoreState.wellFormed, save_wellFormed]
    split
    · simp [StoreState.wellFormed, Saved.wellFormed, wellFormedLabel]
    · rfl
  | prune now w net retainCount =>
    simp only [step, Op.wellFormed, StoreState.wellFormed]
    split
    · simp only [Option.map_some, StoreState.wellFormed, List.filter_map]
      rfl
    · rfl

theorem labelsOk_wellFormed (ops : List Op) : labelsOk (ops.map Op.wellFormed) := by
  intro now w net data opts l hop hlabel
  obtain ⟨op, -, he⟩ := List.mem_map.mp hop
  cases op with
  | save now' w' net' data' opts' =>
    cases he
    obtain ⟨l', -, rfl⟩ := Option.map_eq_some_iff.mp hlabel
    exact hasLoneSurrogate_toWellFormed l'
  | prune => cases he

theorem usedChunks_wellFormed (ops : List Op) :
    usedChunks (ops.map Op.wellFormed) ⊆ usedChunks ops := by
  rintro c ⟨now, w, net, data, opts, hop, hc⟩
  obtain ⟨op, hmem, he⟩ := List.mem_map.mp hop
  cases op with
  | save now' w' net' data' opts' =>
    cases he
    exact ⟨_, _, _, _, _, hmem, hc⟩
  | prune => cases he

/-- The invariant, up to the labels. -/
theorem inv_run_wellFormed {ops : List Op} (h : run (step sha256) ops .init = some s) :
    Inv sha256 (usedChunks (ops.map Op.wellFormed)) s.wellFormed := by
  have hmap := run_map (@step_wellFormed sha256) ops .init
  rw [h] at hmap
  exact inv_run (labelsOk_wellFormed ops) hmap

/-- **The bytes come back**, after every run. -/
theorem load_retained {ops : List Op} (hinj : Set.InjOn sha256 (usedChunks ops))
    (h : run (step sha256) ops .init = some s) {r : Saved} (hr : r ∈ s.retained) :
    ∃ rec, load sha256 r.w r.net (some r.seq) s.db = .ok rec ∧ rec.data = r.data := by
  have hI := inv_run_wellFormed h
  obtain ⟨rec, hload, hdata, -⟩ := hI.load_seq (hinj.mono (usedChunks_wellFormed ops))
    (r := r.wellFormed) (List.mem_map_of_mem hr)
  exact ⟨rec, hload, hdata⟩

/-- **The round trip.** After every run in which no label has an unpaired surrogate: each retained
checkpoint is loaded with its bytes and its label, by its sequence number and, if that is the
highest of its wallet and network, without one; and no `load` at all reports a missing or a wrong
chunk or a corrupt manifest. -/
theorem save_load_roundtrip {ops : List Op} (hl : labelsOk ops)
    (hinj : Set.InjOn sha256 (usedChunks ops)) (h : run (step sha256) ops .init = some s) :
    (∀ r ∈ s.retained, ∃ rec, load sha256 r.w r.net (some r.seq) s.db = .ok rec ∧
      rec.data = r.data ∧ rec.summary.label = r.label ∧ rec.summary.sequence = r.seq) ∧
    (∀ r ∈ s.retained, (∀ r' ∈ s.retained, r'.w = r.w → r'.net = r.net → r'.seq ≤ r.seq) →
      ∃ rec, load sha256 r.w r.net none s.db = .ok rec ∧
        rec.data = r.data ∧ rec.summary.label = r.label ∧ rec.summary.sequence = r.seq) ∧
    ∀ w net sequence e, load sha256 w net sequence s.db = .error e →
      (∃ context, e = .validation context) ∨ e = .checkpointNotFound w net sequence := by
  have hI := inv_run hl h
  exact ⟨fun r hr => hI.load_seq hinj hr, fun r hr hmax => hI.load_latest hinj hr hmax,
    fun w net sequence e he => hI.load_error hinj he⟩

/-- SHA-256 on the inputs of the two runs below: the byte `01`, the digest of it, and no bytes. -/
def sha256OfByte : Bytes → Bytes := fun b =>
  if b = [1] then
    [75, 245, 18, 47, 52, 69, 84, 197, 59, 222, 46, 187, 140, 210, 183, 227, 209, 96, 10, 214,
     49, 195, 133, 165, 215, 204, 226, 60, 119, 133, 69, 154]
  else if b = [] then
    [227, 176, 196, 66, 152, 252, 28, 20, 154, 251, 244, 200, 153, 111, 185, 36, 39, 174, 65,
     228, 100, 155, 147, 76, 164, 149, 153, 27, 120, 82, 184, 85]
  else
    [156, 18, 207, 220, 4, 199, 69, 132, 215, 135, 172, 61, 35, 119, 33, 50, 193, 133, 36, 188,
     122, 178, 141, 236, 66, 25, 184, 252, 91, 66, 95, 112]

/-- Two wallets save the same byte, and the first one prunes. -/
def sharedByte : List Op :=
  [.save 0 [97] [109] [1] ⟨none, some [120]⟩, .save 5 [98] [109] [1] ⟨some 1, none⟩,
    .save 6 [97] [109] [1] ⟨none, none⟩, .prune 2000000000 [97] [109] 1]

theorem save_load_roundtrip_sharedByte :
    ∃ s, run (step sha256OfByte) sharedByte .init = some s ∧ s.retained.length = 2 ∧
      ∃ rec, load sha256OfByte [98] [109] (some 1) s.db = .ok rec ∧ rec.data = [1] := by
  have hinj : Set.InjOn sha256OfByte (usedChunks sharedByte) := by
    rintro a ⟨_, _, _, _, _, ha, ha'⟩ b ⟨_, _, _, _, _, hb, hb'⟩ -
    have hone : ∀ {now w net data opts c}, Op.save now w net data opts ∈ sharedByte →
        c ∈ splitChunks data (opts.chunkSize.getD defaultChunkSize) → c = [1] := by
      intro now w net data opts c hop hc
      simp only [sharedByte, List.mem_cons, Op.save.injEq, reduceCtorEq, List.not_mem_nil,
        or_false] at hop
      rcases hop with ⟨-, -, -, rfl, rfl⟩ | ⟨-, -, -, rfl, rfl⟩ | ⟨-, -, -, rfl, rfl⟩ <;>
        exact List.mem_singleton.mp hc
    rw [hone ha ha', hone hb hb']
  have hl : labelsOk sharedByte := by
    intro now w net data opts l hop hlab
    simp only [sharedByte, List.mem_cons, Op.save.injEq, reduceCtorEq, List.not_mem_nil,
      or_false] at hop
    rcases hop with ⟨-, -, -, -, rfl⟩ | ⟨-, -, -, -, rfl⟩ | ⟨-, -, -, -, rfl⟩
    · cases hlab; decide
    · cases hlab
    · cases hlab
  obtain ⟨hload, -, -⟩ := save_load_roundtrip hl hinj (h := rfl)
  obtain ⟨rec, hrec, hdata, -⟩ := hload ⟨[98], [109], 1, [1], 1, none⟩ (by decide)
  exact ⟨_, rfl, rfl, rec, hrec, hdata⟩

/-- A label that is one unpaired surrogate, on an empty payload. -/
def loneLabel : List Op := [.save 0 [97] [109] [] ⟨none, some [0xD800]⟩]

/-- It is saved, and comes back as U+FFFD. -/
theorem loneLabel_changed :
    ∃ s, run (step sha256OfByte) loneLabel .init = some s ∧
      Set.InjOn sha256OfByte (usedChunks loneLabel) ∧
      (⟨[97], [109], 1, [], defaultChunkSize, some [0xD800]⟩ : Saved) ∈ s.retained ∧
      ∃ rec, load sha256OfByte [97] [109] (some 1) s.db = .ok rec ∧
        rec.summary.label = some [0xFFFD] := by
  refine ⟨_, rfl, ?_, by decide, _, rfl, rfl⟩
  rintro a ⟨_, _, _, _, _, ha, ha'⟩
  simp only [loneLabel, List.mem_cons, Op.save.injEq, List.not_mem_nil, or_false] at ha
  obtain ⟨-, -, -, rfl, rfl⟩ := ha
  simp [splitChunks, batches, batchesFrom] at ha'

end UmbraDB.Ckpt.RoundTrip
