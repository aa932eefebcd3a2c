import UmbraDB.Ckpt.RoundTrip

/-! # Checkpoint store: the batched inserts

`saveImpl` writes the chunks, one row for each hash, and the junction rows, one for each position,
in statements of many rows (`src/postgres/checkpoint-store.ts`). The loops they replaced sent one
statement for each position: `upsertEach` and `insertEach`.

* `upsertBatches_eq` : the chunk batches are the loop over all positions, repeated contents
  included.
* `insertBatches_eq` : the junction batches are the loop over all positions, and fail when it does.
* `batched_inserts` : so are both, on any tables, with what the batches hold.
* `saveImpl_eq` : a `save` with the batches is a `save` with the loops. -/

namespace UmbraDB.Ckpt.Batching

open UmbraDB.Js.Text UmbraDB.Lib.Batches UmbraDB.Lib.Fallible UmbraDB.Ckpt.Rows
open UmbraDB.Ckpt.RoundTrip

/-- One upsert for each chunk. -/
def upsertEach (sha256 : Bytes → Bytes) (now : ℤ) (chunks : List Bytes) (table : List ChunkRow) :
    Except CkptError (List ChunkRow) :=
  chunks.foldlM (fun table chunk => upsertChunksStmt now table [(sha256 chunk, chunk)]) table

/-- One insert for each position. -/
def insertEach (rows : List JunctionRow) (db : CkptDb) : Except CkptError CkptDb :=
  rows.foldlM (fun db row => insertJunctionStmt db [row]) db

/-! ### Chunks -/

theorem upsertChunksStmt_eq {now : ℤ} {table : List ChunkRow} {batch : List (Bytes × Bytes)}
    (hlen : 2 * batch.length < maxBindParams) (hnodup : (batch.map (·.1)).Nodup) :
    upsertChunksStmt now table batch = .ok (batch.foldl (upsertChunk now) table) := by
  rw [upsertChunksStmt, if_neg (by omega), if_neg (by simpa using hnodup)]

/-- Batches without a hash in common are one upsert after the other. -/
theorem upsertBatches_foldl {now : ℤ} : ∀ (bs : List (List (Bytes × Bytes)))
    (table : List ChunkRow), (∀ b ∈ bs, 2 * b.length < maxBindParams) →
    (bs.flatten.map (·.1)).Nodup →
    bs.foldlM (upsertChunksStmt now) table = .ok (bs.flatten.foldl (upsertChunk now) table)
  | [], _, _, _ => rfl
  | b :: bs, table, hlen, hnodup => by
    rw [List.flatten_cons, List.map_append, List.nodup_append] at hnodup
    rw [List.foldlM_cons, upsertChunksStmt_eq (hlen b List.mem_cons_self) hnodup.1,
      List.flatten_cons, List.foldl_append]
    exact upsertBatches_foldl bs _ (fun b' hb' => hlen b' (List.mem_cons_of_mem _ hb')) hnodup.2.1

/-- The hash has a row, and was refreshed in this transaction. -/
def Refreshed (now : ℤ) (table : List ChunkRow) (hash : Bytes) : Prop :=
  Stored table hash ∧ ∀ c ∈ table, c.hash = hash → c.createdAt = now

theorem Refreshed.upsertChunk {now : ℤ} {table : List ChunkRow} {hash : Bytes}
    (h : Refreshed now table hash) (row : Bytes × Bytes) :
    Refreshed now (upsertChunk now table row) hash := by
  refine ⟨h.1.upsertChunk row, fun c hc he => ?_⟩
  unfold Rows.upsertChunk at hc
  split_ifs at hc
  · obtain ⟨c₀, hc₀, rfl⟩ := List.mem_map.mp hc
    split_ifs at he ⊢
    · rfl
    · exact h.2 c₀ hc₀ he
  · rcases List.mem_append.mp hc with hc | hc
    · exact h.2 c hc he
    · rw [List.mem_singleton.mp hc]

theorem refreshed_upsertChunk (now : ℤ) (table : List ChunkRow) (row : Bytes × Bytes) :
    Refreshed now (upsertChunk now table row) row.1 := by
  refine ⟨stored_upsertChunk now table row, fun c hc he => ?_⟩
  unfold Rows.upsertChunk at hc
  split_ifs at hc with hany
  · obtain ⟨c₀, -, rfl⟩ := List.mem_map.mp hc
    split_ifs at he ⊢ with hhash
    · rfl
    · exact absurd he hhash
  · rcases List.mem_append.mp hc with hc | hc
    · exact absurd (List.any_eq_true.mpr ⟨c, hc, by simp [he]⟩) hany
    · rw [List.mem_singleton.mp hc]

/-- The upsert of a hash that was refreshed changes nothing. -/
theorem upsertChunk_of_refreshed {now : ℤ} {table : List ChunkRow} {row : Bytes × Bytes}
    (h : Refreshed now table row.1) : upsertChunk now table row = table := by
  obtain ⟨⟨c, hc, he⟩, hall⟩ := h
  have hany : table.any (fun c => c.hash == row.1) = true :=
    List.any_eq_true.mpr ⟨c, hc, by simp [he]⟩
  have hmap : ∀ c ∈ table, (if c.hash = row.1 then { c with createdAt := now } else c) = c := by
    intro c hc
    split_ifs with hhash
    · rw [← hall c hc hhash]
    · rfl
  rw [upsertChunk, if_pos hany, List.map_congr_left hmap, List.map_id']

/-- The rows that were left out change nothing where they stood. -/
theorem foldl_chunkRowsOf {sha256 : Bytes → Bytes} {now : ℤ} : ∀ (chunks seen : List Bytes)
    (table : List ChunkRow), (∀ hash ∈ seen, Refreshed now table hash) →
    (chunkRowsOf sha256 seen chunks).foldl (upsertChunk now) table =
      chunks.foldl (fun table chunk => upsertChunk now table (sha256 chunk, chunk)) table
  | [], _, _, _ => rfl
  | chunk :: chunks, seen, table, hseen => by
    rw [chunkRowsOf, List.foldl_cons]
    split_ifs with h
    · have hmem : sha256 chunk ∈ seen := by simpa using h
      rw [@upsertChunk_of_refreshed now table (sha256 chunk, chunk) (hseen _ hmem)]
      exact foldl_chunkRowsOf chunks seen table hseen
    · rw [List.foldl_cons]
      refine foldl_chunkRowsOf chunks _ _ fun hash hmem => ?_
      rcases List.mem_cons.mp hmem with rfl | hmem
      · exact refreshed_upsertChunk now table (sha256 chunk, chunk)
      · exact (hseen hash hmem).upsertChunk _

theorem upsertEach_eq {sha256 : Bytes → Bytes} {now : ℤ} : ∀ (chunks : List Bytes)
    (table : List ChunkRow), upsertEach sha256 now chunks table =
      .ok (chunks.foldl (fun table chunk => upsertChunk now table (sha256 chunk, chunk)) table)
  | [], _ => rfl
  | chunk :: chunks, table => by
    have hlen : 2 * [(sha256 chunk, chunk)].length < maxBindParams := by
      rw [List.length_singleton]
      decide
    rw [upsertEach, List.foldlM_cons, upsertChunksStmt_eq hlen (by simp)]
    exact upsertEach_eq chunks (upsertChunk now table (sha256 chunk, chunk))

/-- No hash comes twice, and none that was seen before. -/
theorem nodup_chunkRowsOf (sha256 : Bytes → Bytes) : ∀ (chunks seen : List Bytes),
    ((chunkRowsOf sha256 seen chunks).map (·.1)).Nodup ∧
      ∀ row ∈ chunkRowsOf sha256 seen chunks, row.1 ∉ seen
  | [], _ => ⟨List.nodup_nil, fun _ h => absurd h List.not_mem_nil⟩
  | chunk :: chunks, seen => by
    rw [chunkRowsOf]
    split_ifs with h
    · exact nodup_chunkRowsOf sha256 chunks seen
    · obtain ⟨ih, hnew⟩ := nodup_chunkRowsOf sha256 chunks (sha256 chunk :: seen)
      refine ⟨?_, fun row hrow => ?_⟩
      · rw [List.map_cons, List.nodup_cons]
        refine ⟨fun hmem => ?_, ih⟩
        obtain ⟨row, hrow, he⟩ := List.mem_map.mp hmem
        exact hnew row hrow (he ▸ List.mem_cons_self)
      · rcases List.mem_cons.mp hrow with rfl | hrow
        · simpa using h
        · exact fun hmem => hnew row hrow (List.mem_cons_of_mem _ hmem)

theorem chunkBatch_params {rows b : List (Bytes × Bytes)}
    (h : b ∈ batches chunkInsertMaxRows rows) : b ≠ [] ∧ 2 * b.length < maxBindParams := by
  obtain ⟨hne, hlen⟩ := mem_batches (by decide) h
  have hcap : 2 * chunkInsertMaxRows < maxBindParams := by decide
  exact ⟨hne, by omega⟩

/-- **The chunk batches are the loop over all positions.** -/
theorem upsertBatches_eq (sha256 : Bytes → Bytes) (now : ℤ) (chunks : List Bytes)
    (table : List ChunkRow) :
    (batches chunkInsertMaxRows (chunkRowsOf sha256 [] chunks)).foldlM (upsertChunksStmt now) table
      = upsertEach sha256 now chunks table := by
  have hflat := flatten_batches (show 0 < chunkInsertMaxRows by decide)
    (chunkRowsOf sha256 [] chunks)
  have hnodup := (nodup_chunkRowsOf sha256 chunks []).1
  rw [upsertBatches_foldl _ table (fun b hb => (chunkBatch_params hb).2) (by rwa [hflat]), hflat,
    upsertEach_eq, foldl_chunkRowsOf chunks [] table fun hash h => absurd h List.not_mem_nil]

/-! ### Junction rows -/

/-- What a junction insert needs, apart from the number of its parameters. -/
def Insertable (db : CkptDb) (rows : List JunctionRow) : Prop :=
  (∀ row ∈ rows, row.position ≤ 2147483647) ∧
    ((db.junction ++ rows).map fun j => (j.manifestId, j.position)).Nodup ∧
    ∀ row ∈ rows, referencesOk db row = true

theorem insertJunctionStmt_iff {db db' : CkptDb} {batch : List JunctionRow}
    (hlen : 3 * batch.length < maxBindParams) :
    insertJunctionStmt db batch = .ok db' ↔
      Insertable db batch ∧ db' = { db with junction := db.junction ++ batch } := by
  unfold insertJunctionStmt Insertable
  rw [if_neg (by omega)]
  split_ifs with hpos hkey hrefs
  · obtain ⟨row, hrow, hlt⟩ := List.any_eq_true.mp hpos
    have hlt := of_decide_eq_true hlt
    refine ⟨fun h => (by cases h), fun h => ?_⟩
    have hle := h.1.1 row hrow
    omega
  · have hpos' : ∀ row ∈ batch, row.position ≤ 2147483647 := fun row hrow => by
      by_contra hlt
      exact hpos (List.any_eq_true.mpr ⟨row, hrow, decide_eq_true (by omega)⟩)
    exact ⟨fun h => ⟨⟨hpos', hkey, List.all_eq_true.mp hrefs⟩, (Except.ok.inj h).symm⟩,
      fun h => by rw [h.2]⟩
  · exact ⟨fun h => (by cases h), fun h => absurd (List.all_eq_true.mpr h.1.2.2) hrefs⟩
  · exact ⟨fun h => (by cases h), fun h => absurd h.1.2.1 hkey⟩

/-- A row and the rows after it are inserted together exactly if they are one after the other. -/
theorem insertable_cons {db : CkptDb} {row : JunctionRow} {rows : List JunctionRow} :
    Insertable db (row :: rows) ↔
      Insertable db [row] ∧ Insertable { db with junction := db.junction ++ [row] } rows := by
  have hassoc : db.junction ++ row :: rows = db.junction ++ [row] ++ rows := by simp
  unfold Insertable
  rw [hassoc]
  simp only [List.forall_mem_cons, List.not_mem_nil, false_implies, implies_true, and_true]
  constructor
  · rintro ⟨⟨hp, hps⟩, hn, hr, hrs⟩
    refine ⟨⟨hp, ?_, hr⟩, hps, hn, hrs⟩
    rw [List.map_append] at hn
    exact (List.nodup_append.mp hn).1
  · rintro ⟨⟨hp, -, hr⟩, hps, hn, hrs⟩
    exact ⟨⟨hp, hps⟩, hn, hr, hrs⟩

theorem insertEach_cons {db db' : CkptDb} {row : JunctionRow} {rows : List JunctionRow} :
    insertEach (row :: rows) db = .ok db' ↔ Insertable db [row] ∧
      insertEach rows { db with junction := db.junction ++ [row] } = .ok db' := by
  have hlen : 3 * [row].length < maxBindParams := by
    rw [List.length_singleton]
    decide
  rw [insertEach, List.foldlM_cons, bind_ok]
  constructor
  · rintro ⟨db₁, h₁, h₂⟩
    obtain ⟨hi, rfl⟩ := (insertJunctionStmt_iff hlen).mp h₁
    exact ⟨hi, h₂⟩
  · rintro ⟨hi, h⟩
    exact ⟨_, (insertJunctionStmt_iff hlen).mpr ⟨hi, rfl⟩, h⟩

/-- Rows that come one after the other are inserted together. -/
theorem insertEach_iff {db' : CkptDb} : ∀ (rows : List JunctionRow) {db : CkptDb}, rows ≠ [] →
    (insertEach rows db = .ok db' ↔
      Insertable db rows ∧ db' = { db with junction := db.junction ++ rows })
  | [], _, h => absurd rfl h
  | [row], db, _ => by
    rw [insertEach_cons]
    refine and_congr_right fun _ => ⟨fun h => (Except.ok.inj h).symm, fun h => by rw [h]; rfl⟩
  | row :: row' :: rows, db, _ => by
    rw [insertEach_cons, insertEach_iff (row' :: rows) (List.cons_ne_nil _ _),
      @insertable_cons db row (row' :: rows), and_assoc]
    simp only [List.append_assoc, List.singleton_append]

/-- Batches that are not empty and bind few enough parameters. -/
theorem insertBatches_iff {db' : CkptDb} : ∀ (bs : List (List JunctionRow)) {db : CkptDb},
    (∀ b ∈ bs, b ≠ [] ∧ 3 * b.length < maxBindParams) →
    (bs.foldlM insertJunctionStmt db = .ok db' ↔ insertEach bs.flatten db = .ok db')
  | [], _, _ => Iff.rfl
  | b :: bs, db, h => by
    obtain ⟨hne, hlen⟩ := h b List.mem_cons_self
    have hstmt : ∀ db₁, insertJunctionStmt db b = .ok db₁ ↔ insertEach b db = .ok db₁ :=
      fun db₁ => by rw [insertJunctionStmt_iff hlen, insertEach_iff b hne]
    have ih : ∀ db₁, bs.foldlM insertJunctionStmt db₁ = .ok db' ↔
        insertEach bs.flatten db₁ = .ok db' :=
      fun db₁ => insertBatches_iff bs fun b' hb' => h b' (List.mem_cons_of_mem _ hb')
    rw [List.foldlM_cons, bind_ok, List.flatten_cons, insertEach, List.foldlM_append, bind_ok]
    simp only [hstmt, ih, insertEach]

theorem junctionBatch_params {rows b : List JunctionRow}
    (h : b ∈ batches junctionInsertMaxRows rows) : b ≠ [] ∧ 3 * b.length < maxBindParams := by
  obtain ⟨hne, hlen⟩ := mem_batches (by decide) h
  have hcap : 3 * junctionInsertMaxRows < maxBindParams := by decide
  exact ⟨hne, by omega⟩

theorem insertBatches_ok_iff {rows : List JunctionRow} {db db' : CkptDb} :
    (batches junctionInsertMaxRows rows).foldlM insertJunctionStmt db = .ok db' ↔
      insertEach rows db = .ok db' := by
  rw [insertBatches_iff _ fun b hb => junctionBatch_params hb, flatten_batches (by decide)]

/-- Computations that succeed with the same values. -/
theorem toOption_congr {α : Type} {x y : Except CkptError α}
    (h : ∀ a, x = .ok a ↔ y = .ok a) : x.toOption = y.toOption := by
  rcases y with e | a
  · rcases x with e' | a
    · rfl
    · have hy := (h a).mp rfl
      cases hy
  · rw [(h a).mpr rfl]

/-- **The junction batches are the loop over all positions.** -/
theorem insertBatches_eq (rows : List JunctionRow) (db : CkptDb) :
    ((batches junctionInsertMaxRows rows).foldlM insertJunctionStmt db).toOption =
      (insertEach rows db).toOption :=
  toOption_congr fun _ => insertBatches_ok_iff

/-! ### The two loops -/

/-- **The batched inserts are the loops over all positions**: they leave the same rows, and the
junction rows fail to be inserted in both or in neither. -/
theorem batched_inserts (sha256 : Bytes → Bytes) (now : ℤ) (chunks : List Bytes) (db : CkptDb)
    (manifestId : ℕ) :
    let chunkBatches := batches chunkInsertMaxRows (chunkRowsOf sha256 [] chunks)
    let junctionRows := junctionRowsOf manifestId 0 (chunks.map sha256)
    let junctionBatches := batches junctionInsertMaxRows junctionRows
    (∃ table, chunkBatches.foldlM (upsertChunksStmt now) db.chunks = .ok table ∧
        upsertEach sha256 now chunks db.chunks = .ok table) ∧
      (junctionBatches.foldlM insertJunctionStmt db).toOption =
        (insertEach junctionRows db).toOption ∧
      (chunkBatches.flatten.map (·.1)).Nodup ∧
      junctionBatches.flatten.map (·.position) = List.range chunks.length ∧
      (∀ b ∈ chunkBatches, b ≠ [] ∧ 2 * b.length < maxBindParams) ∧
      ∀ b ∈ junctionBatches, b ≠ [] ∧ 3 * b.length < maxBindParams := by
  intro chunkBatches junctionRows junctionBatches
  have hbatched := upsertBatches_eq sha256 now chunks db.chunks
  have hflat := flatten_batches (show 0 < chunkInsertMaxRows by decide)
    (chunkRowsOf sha256 [] chunks)
  have hflat' := flatten_batches (show 0 < junctionInsertMaxRows by decide) junctionRows
  refine ⟨⟨_, hbatched.trans (upsertEach_eq chunks db.chunks), upsertEach_eq chunks db.chunks⟩,
    insertBatches_eq junctionRows db, ?_, ?_, fun b hb => chunkBatch_params hb,
    fun b hb => junctionBatch_params hb⟩
  · rw [hflat]
    exact (nodup_chunkRowsOf sha256 chunks []).1
  · rw [hflat', junctionRowsOf_positions, List.length_map, List.range_eq_range']

/-- `runOnTx` with one statement for each position. -/
def saveEach (sha256 : Bytes → Bytes) (now : ℤ) (w net : JsString) (data : Bytes)
    (opts : SaveOptions) (db : CkptDb) : Except CkptError (CkptDb × CheckpointSummary) := do
  let chunks := splitChunks data (opts.chunkSize.getD defaultChunkSize)
  let chunkHashes := chunks.map sha256
  let manifestHash := sha256 chunkHashes.flatten
  let stored ← upsertEach sha256 now chunks db.chunks
  let (counters, seq) := claimSeq db.counters w net
  let label ← bindLabel opts.label
  let manifest : ManifestRow := ⟨db.nextId, w, net, seq, true, manifestHash, label, now⟩
  let db' ← insertEach (junctionRowsOf manifest.id 0 chunkHashes)
    ⟨stored, db.manifests ++ [manifest], db.junction, counters, db.nextId + 1⟩
  let summary ← toSummary manifest data.length chunks.length
  return (db', summary)

/-- So a `save` leaves all tables as if it sent one statement for each position. -/
theorem saveImpl_eq (sha256 : Bytes → Bytes) (now : ℤ) (w net : JsString) (data : Bytes)
    (opts : SaveOptions) (db : CkptDb) :
    (saveImpl sha256 now w net data opts db).toOption =
      (saveEach sha256 now w net data opts db).toOption := by
  refine toOption_congr fun r => ?_
  unfold saveImpl saveEach
  simp only [bind_ok, upsertBatches_eq, insertBatches_ok_iff]

end UmbraDB.Ckpt.Batching
