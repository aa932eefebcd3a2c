import UmbraDB.Ckpt.RoundTrip

/-! # Checkpoint store: changes of the chunks and of the junction rows are detected

`loadTables` is `load` on tables whose rows of `ckpt_chunks` and `ckpt_manifest_chunks` are any
whatever: a junction row has any position and any hash, a hash may have no chunk row or several, and
a chunk row holds any bytes. The manifest rows are those of a run. On the tables of a run themselves
it is `load` (`loadTables_run`).

What `load` returns has passed three checks. The hashes of the junction rows are those of the data;
digests have a fixed length, so equal concatenations of them are equal lists; and SHA-256 is injective
on what is hashed. -/

namespace UmbraDB.Ckpt.Tamper

open UmbraDB.Js.Text UmbraDB.Lib.Runs UmbraDB.Lib.Batches UmbraDB.Ckpt.Rows UmbraDB.Ckpt.RoundTrip

/-! ### `load` on any rows -/

/-- A row of `ckpt_manifest_chunks`; `position` is any `integer`. -/
structure LinkRow where
  manifestId : ℕ
  position : ℤ
  chunkHash : Bytes
  deriving DecidableEq

/-- A row of the `LEFT JOIN`, with the chunk row if there is one. -/
structure ChunkJoinRow where
  position : ℤ
  chunkHash : Bytes
  chunk : Option ChunkRow
  deriving DecidableEq

def leftJoin (chunks : List ChunkRow) (links : List LinkRow) : List ChunkJoinRow :=
  links.flatMap fun j =>
    match chunks.filter fun c => c.hash == j.chunkHash with
    | [] => [⟨j.position, j.chunkHash, none⟩]
    | found => found.map fun c => ⟨j.position, j.chunkHash, some c⟩

/-- The second query: the joined rows of the manifest, `ORDER BY mc.position`. -/
def joinedRows (chunks : List ChunkRow) (links : List LinkRow) (id : ℕ) : List ChunkJoinRow :=
  (leftJoin chunks (links.filter fun j => j.manifestId == id)).insertionSort
    fun a b => a.position ≤ b.position

/-- The loop over the joined rows, from index `i` on. -/
def checkJoined (sha256 : Bytes → Bytes) (manifestHash : Bytes) :
    ℕ → List ChunkJoinRow → Except CkptError (List Bytes × List Bytes)
  | _, [] => .ok ([], [])
  | i, row :: rows =>
    if row.position ≠ i then
      .error (.manifestCorrupt manifestHash
        s!"position gap: expected {i}, got {row.position}")
    else
      match row.chunk with
      | none => .error (.chunkMissing row.chunkHash)
      | some c =>
        if sha256 c.data ≠ row.chunkHash then
          .error (.chunkIntegrity (sha256 c.data) row.chunkHash)
        else do
          let (parts, hashes) ← checkJoined sha256 manifestHash (i + 1) rows
          return (c.data :: parts, row.chunkHash :: hashes)

/-- `load`, with the manifests of `db` and the given rows of the two other tables. -/
def loadTables (sha256 : Bytes → Bytes) (w net : JsString) (sequence : Option ℕ) (db : CkptDb)
    (chunks : List ChunkRow) (links : List LinkRow) : Except CkptError CheckpointRecord := do
  assertValidCheckpointIds w net
  match (bySeqDesc ((manifestsOf db w net).filter fun m => sequence.all (m.seq == ·))).head? with
  | none => .error (.checkpointNotFound w net sequence)
  | some manifest =>
    let chunkRows := joinedRows chunks links manifest.id
    let (parts, hashes) ← checkJoined sha256 manifest.manifestHash 0 chunkRows
    if sha256 hashes.flatten ≠ manifest.manifestHash then
      .error (.manifestCorrupt manifest.manifestHash
        "recomputed manifest hash does not match the stored value")
    else
      let data := parts.flatten
      let summary ← toSummary manifest data.length chunkRows.length
      return ⟨summary, data⟩

/-! ### On the tables of a run it is `load` -/

def linkOf (j : JunctionRow) : LinkRow := ⟨j.manifestId, j.position, j.chunkHash⟩

/-- The joined row, if hashes are keys. -/
def joinRow (chunks : List ChunkRow) (j : JunctionRow) : ChunkJoinRow :=
  ⟨j.position, j.chunkHash, chunks.find? fun c => c.hash == j.chunkHash⟩

theorem filter_hash {chunks : List ChunkRow} (hk : (chunks.map (·.hash)).Nodup) (hash : Bytes) :
    (chunks.filter fun c => c.hash == hash) = (chunks.find? fun c => c.hash == hash).toList := by
  induction chunks with
  | nil => rfl
  | cons c chunks ih =>
    rw [List.map_cons, List.nodup_cons] at hk
    by_cases hc : c.hash = hash
    · have hnone : (chunks.filter fun c => c.hash == hash) = [] := by
        refine List.filter_eq_nil_iff.mpr fun c' hc' he => hk.1 ?_
        rw [hc, ← eq_of_beq he]
        exact List.mem_map_of_mem hc'
      rw [List.filter_cons_of_pos (by simp [hc]), List.find?_cons_of_pos (by simp [hc]), hnone]
      rfl
    · rw [List.filter_cons_of_neg (by simp [hc]), List.find?_cons_of_neg (by simp [hc]), ih hk.2]

theorem leftJoin_linkOf {chunks : List ChunkRow} (hk : (chunks.map (·.hash)).Nodup)
    (js : List JunctionRow) : leftJoin chunks (js.map linkOf) = js.map (joinRow chunks) := by
  induction js with
  | nil => rfl
  | cons j js ih =>
    have hcons : leftJoin chunks ((j :: js).map linkOf) =
        leftJoin chunks [linkOf j] ++ leftJoin chunks (js.map linkOf) := by
      rw [List.map_cons, ← List.singleton_append, leftJoin, List.flatMap_append]
      rfl
    rw [hcons, ih, List.map_cons, ← List.singleton_append]
    have hf := filter_hash hk j.chunkHash
    have hlink : (linkOf j).chunkHash = j.chunkHash := rfl
    simp only [leftJoin, List.flatMap_cons, List.flatMap_nil, List.append_nil, hlink, hf]
    rcases hfind : chunks.find? fun c => c.hash == j.chunkHash with _ | c
    · simp [joinRow, hfind, linkOf]
    · simp [joinRow, hfind, linkOf]

theorem checkJoined_joinRow {sha256 : Bytes → Bytes} (chunks : List ChunkRow)
    (manifestHash : Bytes) : ∀ (i : ℕ) (js : List JunctionRow),
    checkJoined sha256 manifestHash i (js.map (joinRow chunks)) =
      checkRows sha256 chunks manifestHash i js
  | _, [] => rfl
  | i, j :: js => by
    rw [List.map_cons, checkJoined, checkRows, checkJoined_joinRow chunks manifestHash (i + 1) js]
    have hpos : (joinRow chunks j).position = (j.position : ℤ) := rfl
    rw [hpos]
    by_cases hi : j.position = i
    · rw [if_neg (by omega), if_neg (by omega)]
      rfl
    · rw [if_pos (by omega), if_pos hi]
      rfl

/-- On tables with hashes as keys. -/
theorem loadTables_eq_load {sha256 : Bytes → Bytes} {w net : JsString} {sequence : Option ℕ}
    {db : CkptDb} (hk : (db.chunks.map (·.hash)).Nodup) :
    loadTables sha256 w net sequence db db.chunks (db.junction.map linkOf) =
      load sha256 w net sequence db := by
  have hrows : ∀ id, joinedRows db.chunks (db.junction.map linkOf) id =
      (byPosition (db.junction.filter fun j => j.manifestId == id)).map (joinRow db.chunks) := by
    intro id
    have hfilter : (db.junction.map linkOf).filter (fun j => j.manifestId == id) =
        (db.junction.filter fun j => j.manifestId == id).map linkOf := by
      rw [List.filter_map]
      rfl
    rw [joinedRows, hfilter, leftJoin_linkOf hk, byPosition]
    refine (List.map_insertionSort _ _ _ _ fun a _ b _ => ?_).symm
    exact Int.ofNat_le.symm
  unfold loadTables load loadImpl
  rcases (bySeqDesc ((manifestsOf db w net).filter fun m =>
      sequence.all (m.seq == ·))).head? with _ | manifest
  · rfl
  · simp only [hrows, checkJoined_joinRow, List.length_map]

/-! ### Hashes are keys, after every run -/

theorem nodup_upsertChunk {now : ℤ} {chunks : List ChunkRow} {row : Bytes × Bytes}
    (h : (chunks.map (·.hash)).Nodup) : ((upsertChunk now chunks row).map (·.hash)).Nodup := by
  unfold upsertChunk
  split_ifs with hany
  · have hmap : (chunks.map fun c => if c.hash = row.1 then { c with createdAt := now } else c).map
        (·.hash) = chunks.map (·.hash) := by
      rw [List.map_map]
      refine List.map_congr_left fun c _ => ?_
      simp only [Function.comp_apply]
      split_ifs <;> rfl
    rwa [hmap]
  · rw [List.map_append, List.nodup_append]
    refine ⟨h, List.nodup_singleton _, fun a ha b hb he => hany ?_⟩
    obtain ⟨c, hc, rfl⟩ := List.mem_map.mp ha
    obtain rfl := List.mem_singleton.mp hb
    exact List.any_eq_true.mpr ⟨c, hc, beq_iff_eq.mpr he⟩

theorem nodup_upsertChunks {now : ℤ} : ∀ (rows : List (Bytes × Bytes)) {chunks : List ChunkRow},
    (chunks.map (·.hash)).Nodup → ((rows.foldl (upsertChunk now) chunks).map (·.hash)).Nodup
  | [], _, h => h
  | row :: rows, chunks, h => by
    rw [List.foldl_cons]
    exact nodup_upsertChunks rows (nodup_upsertChunk h)

variable {sha256 : Bytes → Bytes} {s s' : StoreState}

theorem nodup_step {op : Op} (h : (s.db.chunks.map (·.hash)).Nodup)
    (hstep : step sha256 s op = some s') : (s'.db.chunks.map (·.hash)).Nodup := by
  rcases step_cases hstep with rfl | ⟨now, w, net, data, opts, summary, -, hsave, -⟩ |
    ⟨now, w, net, retainCount, result, -, hprune, -⟩
  · exact h
  · obtain ⟨-, -, himpl⟩ := save_ok hsave
    obtain ⟨label, stored, manifest, -, rfl, -, hdb, -⟩ := saveImpl_ok himpl
    rw [hdb]
    exact nodup_upsertChunks _ h
  · obtain ⟨n, db₁, rfl, hdb, -⟩ := prune_ok hprune
    rw [hdb]
    exact (List.filter_sublist.map _).nodup h

theorem nodup_run {ops : List Op} (h : run (step sha256) ops .init = some s) :
    (s.db.chunks.map (·.hash)).Nodup :=
  run_inv (fun _ _ _ => nodup_step) ops .init s List.nodup_nil h

/-- On the tables of a run, `loadTables` is `load`. -/
theorem loadTables_run {ops : List Op} (h : run (step sha256) ops .init = some s) (w net : JsString)
    (sequence : Option ℕ) :
    loadTables sha256 w net sequence s.db s.db.chunks (s.db.junction.map linkOf) =
      load sha256 w net sequence s.db :=
  loadTables_eq_load (nodup_run h)

/-! ### What the checks let through -/

/-- The error reports a corruption. -/
def Detected (e : CkptError) : Prop :=
  (∃ chunkHash, e = .chunkMissing chunkHash) ∨
    (∃ actualHash chunkHash, e = .chunkIntegrity actualHash chunkHash) ∨
    ∃ manifestHash reason, e = .manifestCorrupt manifestHash reason

/-- The loop collects the data that the rows hold, under the hashes they are linked by. -/
theorem checkJoined_ok {manifestHash : Bytes} : ∀ {i : ℕ} {rows : List ChunkJoinRow}
    {parts hashes : List Bytes}, checkJoined sha256 manifestHash i rows = .ok (parts, hashes) →
      hashes = rows.map (·.chunkHash) ∧ parts.map sha256 = hashes ∧
        ∀ p ∈ parts, ∃ row ∈ rows, ∃ c, row.chunk = some c ∧ c.data = p
  | _, [], _, _, h => by
    cases h
    exact ⟨rfl, rfl, fun p hp => (by cases hp)⟩
  | i, row :: rows, _, _, h => by
    rw [checkJoined] at h
    split_ifs at h
    split at h
    · cases h
    · next c hc =>
      split_ifs at h with hhash
      obtain ⟨⟨parts, hashes⟩, hrest, h⟩ := Lib.Fallible.bind_ok.mp h
      cases h
      obtain ⟨h1, h2, h3⟩ := checkJoined_ok hrest
      rw [not_not] at hhash
      refine ⟨by rw [List.map_cons, h1], by rw [List.map_cons, h2, hhash], fun p hp => ?_⟩
      rcases List.mem_cons.mp hp with rfl | hp
      · exact ⟨row, List.mem_cons_self, c, hc, rfl⟩
      · obtain ⟨row', hrow', hc'⟩ := h3 p hp
        exact ⟨row', List.mem_cons_of_mem _ hrow', hc'⟩

theorem checkJoined_error {manifestHash : Bytes} : ∀ {i : ℕ} {rows : List ChunkJoinRow}
    {e : CkptError}, checkJoined sha256 manifestHash i rows = .error e → Detected e
  | _, [], _, h => by cases h
  | i, row :: rows, e, h => by
    rw [checkJoined] at h
    split_ifs at h
    · cases h
      exact .inr (.inr ⟨_, _, rfl⟩)
    · split at h
      · cases h
        exact .inl ⟨_, rfl⟩
      · split_ifs at h
        · cases h
          exact .inr (.inl ⟨_, _, rfl⟩)
        · rcases hrest : checkJoined sha256 manifestHash (i + 1) rows with e' | x
          · rw [hrest] at h
            cases h
            exact checkJoined_error hrest
          · rw [hrest] at h
            cases h

/-- The chunk row of a joined row is one of the table. -/
theorem mem_chunks_of_joined {chunks : List ChunkRow} {links : List LinkRow} {id : ℕ}
    {row : ChunkJoinRow} {c : ChunkRow} (hrow : row ∈ joinedRows chunks links id)
    (hc : row.chunk = some c) : c ∈ chunks := by
  rw [joinedRows, List.mem_insertionSort, leftJoin, List.mem_flatMap] at hrow
  obtain ⟨j, -, hrow⟩ := hrow
  split at hrow
  · obtain rfl := List.mem_singleton.mp hrow
    cases hc
  · obtain ⟨c', hc', rfl⟩ := List.mem_map.mp hrow
    cases hc
    exact (List.mem_filter.mp hc').1

/-- What `save` and `load` hash: the chunks that were saved, the data of the chunk rows, and the
hashes, one after the other, of the saved chunks and of the joined rows. -/
def hashed (sha256 : Bytes → Bytes) (r : Saved) (chunks : List ChunkRow) (links : List LinkRow) :
    Set Bytes :=
  { b | b ∈ r.chunks ∨ (∃ c ∈ chunks, c.data = b) ∨ b = (r.chunks.map sha256).flatten ∨
    ∃ id, b = ((joinedRows chunks links id).map (·.chunkHash)).flatten }

theorem eq_of_map_eq {U : Set Bytes} (hinj : Set.InjOn sha256 U) : ∀ {xs ys : List Bytes},
    (∀ x ∈ xs, x ∈ U) → (∀ y ∈ ys, y ∈ U) → xs.map sha256 = ys.map sha256 → xs = ys
  | [], [], _, _, _ => rfl
  | [], _ :: _, _, _, h => by cases h
  | _ :: _, [], _, _, h => by cases h
  | x :: xs, y :: ys, hx, hy, h => by
    rw [List.map_cons, List.map_cons, List.cons.injEq] at h
    rw [hinj (hx x List.mem_cons_self) (hy y List.mem_cons_self) h.1,
      eq_of_map_eq hinj (fun x hx' => hx x (List.mem_cons_of_mem _ hx'))
        (fun y hy' => hy y (List.mem_cons_of_mem _ hy')) h.2]

/-- What has passed the three checks is what was saved. -/
theorem parts_eq {r : Saved} {chunks : List ChunkRow} {links : List LinkRow} {id : ℕ}
    {manifestHash : Bytes} {parts hashes : List Bytes} (hlen : ∀ b, (sha256 b).length = 32)
    (hinj : Set.InjOn sha256 (hashed sha256 r chunks links))
    (hcheck : checkJoined sha256 manifestHash 0 (joinedRows chunks links id) = .ok (parts, hashes))
    (hhash : sha256 hashes.flatten = sha256 (r.chunks.map sha256).flatten) : parts = r.chunks := by
  obtain ⟨hrows, hmap, hdata⟩ := checkJoined_ok hcheck
  have hflat : hashes.flatten = (r.chunks.map sha256).flatten := by
    refine hinj (.inr (.inr (.inr ⟨id, by rw [hrows]⟩))) (.inr (.inr (.inl rfl))) hhash
  have hblock : ∀ (xs : List Bytes), ∀ h ∈ xs.map sha256, h.length = 32 := by
    intro xs h hh
    obtain ⟨x, -, rfl⟩ := List.mem_map.mp hh
    exact hlen x
  rw [← hmap] at hflat
  have hlists := flatten_blocks_inj (by decide) (hblock parts) (hblock r.chunks) hflat
  refine eq_of_map_eq hinj (fun p hp => ?_) (fun p hp => .inl hp) hlists
  obtain ⟨row, hrow, c, hc, rfl⟩ := hdata p hp
  exact .inr (.inl ⟨c, mem_chunks_of_joined hrow hc, rfl⟩)

/-- `load` from the manifest row of a checkpoint, whatever the other tables hold. -/
theorem loadTables_holds {db : CkptDb} {r : Saved} {m : ManifestRow} {chunks : List ChunkRow}
    {links : List LinkRow} {sequence : Option ℕ} (hlen : ∀ b, (sha256 b).length = 32)
    (hinj : Set.InjOn sha256 (hashed sha256 r chunks links)) (hh : Holds sha256 db r m)
    (hle : m.seq ≤ maxSafeInteger)
    (hhead : (bySeqDesc ((manifestsOf db r.w r.net).filter fun m =>
      sequence.all (m.seq == ·))).head? = some m) :
    (∃ rec, loadTables sha256 r.w r.net sequence db chunks links = .ok rec ∧ rec.data = r.data) ∨
      ∃ e, loadTables sha256 r.w r.net sequence db chunks links = .error e ∧ Detected e := by
  have hids : assertValidCheckpointIds r.w r.net = .ok () := by
    simp [assertValidCheckpointIds, hh.ids.1, hh.ids.2]
  have hsafe : coerceToSafeNumber m.seq "CheckpointSummary.sequence" = .ok m.seq := by
    rw [coerceToSafeNumber, if_neg (by omega)]
  simp only [loadTables, hids, hhead, bind, Except.bind]
  rcases hcheck : checkJoined sha256 m.manifestHash 0 (joinedRows chunks links m.id)
    with e | ⟨parts, hashes⟩
  · exact .inr ⟨e, rfl, checkJoined_error hcheck⟩
  · by_cases hhash : sha256 hashes.flatten = m.manifestHash
    · have hparts := parts_eq hlen hinj hcheck (hhash.trans hh.manifestHash)
      have hdata : parts.flatten = r.data := by
        rw [hparts]
        exact flatten_batches hh.chunkSize r.data
      simp only [hhash, ne_eq, not_true_eq_false, if_false, toSummary, hsafe, bind, Except.bind,
        pure, Except.pure]
      exact .inl ⟨_, rfl, hdata⟩
    · exact .inr ⟨_, if_pos hhash, .inr (.inr ⟨_, _, rfl⟩)⟩

/-- **Corruption is detected.** After every run, for every checkpoint that is retained and whatever
the rows of chunks and junctions have become, `load` by the sequence number, or without one if it is
the highest, returns the saved bytes or reports the corruption. -/
theorem corruption_detected {ops : List Op} (h : run (step sha256) ops .init = some s) {r : Saved}
    (hr : r ∈ s.retained) (chunks : List ChunkRow) (links : List LinkRow)
    (hlen : ∀ b, (sha256 b).length = 32)
    (hinj : Set.InjOn sha256 (hashed sha256 r chunks links)) {sequence : Option ℕ}
    (hseq : sequence = some r.seq ∨ sequence = none ∧
      ∀ r' ∈ s.retained, r'.w = r.w → r'.net = r.net → r'.seq ≤ r.seq) :
    (∃ rec, loadTables sha256 r.w r.net sequence s.db chunks links = .ok rec ∧
      rec.data = r.data) ∨
    ∃ e, loadTables sha256 r.w r.net sequence s.db chunks links = .error e ∧ Detected e := by
  have hI := inv_run_wellFormed h
  have hr' : r.wellFormed ∈ s.wellFormed.retained := List.mem_map_of_mem hr
  rcases hseq with rfl | ⟨rfl, hmax⟩
  · obtain ⟨m, hm, hh, hhead⟩ := hI.head_seq hr'
    exact loadTables_holds (r := r.wellFormed) hlen hinj hh (hI.safe m hm) hhead
  · have hmax' : ∀ r' ∈ s.wellFormed.retained, r'.w = r.wellFormed.w →
        r'.net = r.wellFormed.net → r'.seq ≤ r.wellFormed.seq := by
      intro r' hmem
      obtain ⟨r₀, hr₀, rfl⟩ := List.mem_map.mp hmem
      exact hmax r₀ hr₀
    obtain ⟨m, hm, hh, hhead⟩ := hI.head_latest hr' hmax'
    exact loadTables_holds (r := r.wellFormed) hlen hinj hh (hI.safe m hm) hhead

/-- The tables of the run with the junction rows taken away. -/
theorem corruption_detected_noLinks :
    ∃ s, run (step sha256OfByte) [.save 0 [97] [109] [1] ⟨none, none⟩] .init = some s ∧
      loadTables sha256OfByte [97] [109] none s.db s.db.chunks (s.db.junction.map linkOf) =
        load sha256OfByte [97] [109] none s.db ∧
      ∃ e, loadTables sha256OfByte [97] [109] none s.db s.db.chunks [] = .error e ∧ Detected e := by
  have hlen : ∀ b, (sha256OfByte b).length = 32 := by
    intro b
    unfold sha256OfByte
    split_ifs <;> rfl
  -- the byte, its digest and no bytes have three digests
  have hthree : ∀ b, b ∈ hashed sha256OfByte ⟨[97], [109], 1, [1], defaultChunkSize, none⟩
      [⟨sha256OfByte [1], [1], 0⟩] [] → b = [1] ∨ b = sha256OfByte [1] ∨ b = [] := by
    rintro b (hb | ⟨c, hc, rfl⟩ | rfl | ⟨id, rfl⟩)
    · exact .inl (List.mem_singleton.mp hb)
    · rw [List.mem_singleton.mp hc]
      exact .inl rfl
    · exact .inr (.inl (by decide))
    · exact .inr (.inr rfl)
  have hinj : Set.InjOn sha256OfByte (hashed sha256OfByte
      ⟨[97], [109], 1, [1], defaultChunkSize, none⟩ [⟨sha256OfByte [1], [1], 0⟩] []) := by
    intro a ha b hb hab
    have hab' : sha256OfByte a = sha256OfByte b := hab
    rcases hthree a ha with rfl | rfl | rfl <;> rcases hthree b hb with rfl | rfl | rfl <;>
      first | rfl | exact absurd hab' (by decide)
  have hrun : run (step sha256OfByte) [.save 0 [97] [109] [1] ⟨none, none⟩] .init = some _ := rfl
  refine ⟨_, hrun, loadTables_run hrun [97] [109] none, ?_⟩
  rcases corruption_detected hrun (by decide) _ [] hlen hinj
    (.inr ⟨rfl, by decide⟩) with ⟨rec, hrec, -⟩ | hdetected
  · cases hrec
  · exact hdetected

end UmbraDB.Ckpt.Tamper
