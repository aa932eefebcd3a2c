import UmbraDB.Ckpt.RoundTrip

/-! # Checkpoint store: what `prune` deletes and reports

The specification does not mention the statements. A complete manifest of the wallet and network is
`gone` if at least `retainCount` of them have a higher sequence; a chunk is `dead` if it is older than
the grace window and no manifest that is left refers to it. The subquery of the first statement, with
its `OFFSET` and its `NULL`, selects the first (`prunable_eq_gone`); the second statement looks at the
junction rows that the cascade has left, and these are the ones of the manifests that are left
(`reclaimable_eq_dead`), since every junction row has its manifest (`linked_run`). -/

namespace UmbraDB.Ckpt.Prune

open UmbraDB.Js.Text UmbraDB.Lib.Runs UmbraDB.Lib.Fallible UmbraDB.Ckpt.Rows UmbraDB.Ckpt.RoundTrip

/-! ### The specification -/

/-- The number of complete checkpoints of the wallet and network above a sequence. -/
def countAbove (db : CkptDb) (w net : JsString) (seq : ℕ) : ℕ :=
  (manifestsOf db w net).countP fun m => decide (seq < m.seq)

/-- A complete manifest of the wallet and network that is not among its `retainCount` highest. -/
def gone (db : CkptDb) (w net : JsString) (retainCount : ℕ) (m : ManifestRow) : Bool :=
  m.w == w && m.net == net && m.complete && decide (retainCount ≤ countAbove db w net m.seq)

/-- A chunk that is older than the grace window and that none of the manifests refers to. -/
def dead (now : ℤ) (manifests : List ManifestRow) (junction : List JunctionRow) (c : ChunkRow) :
    Bool :=
  decide (c.createdAt < now - graceWindow) &&
    !manifests.any fun m => junction.any fun j => j.manifestId == m.id && j.chunkHash == c.hash

/-- Exactly what is to be deleted was, and is reported. -/
structure PrunedExactly (now : ℤ) (w net : JsString) (retainCount : ℕ) (db db' : CkptDb)
    (result : PruneResult) : Prop where
  manifests : db'.manifests = db.manifests.filter fun m => !gone db w net retainCount m
  junction : db'.junction = db.junction.filter fun j =>
    !db.manifests.any fun m => gone db w net retainCount m && m.id == j.manifestId
  chunks : db'.chunks = db.chunks.filter fun c => !dead now db'.manifests db.junction c
  counters : db'.counters = db.counters ∧ db'.nextId = db.nextId
  prunedSequences :
    result.prunedSequences = (db.manifests.filter (gone db w net retainCount)).map (·.seq)
  reclaimedChunks :
    result.reclaimedChunks = (db.chunks.filter (dead now db'.manifests db.junction)).length
  reclaimedBytes : result.reclaimedBytes =
    ((db.chunks.filter (dead now db'.manifests db.junction)).map (·.data.length)).sum

/-! ### The manifests -/

/-- The element at a place of a descending list is above `v`, if more than that many are. -/
theorem getElem?_above {A : Type} (f : A → ℕ) (v : ℕ) : ∀ (l : List A) (k : ℕ),
    l.Pairwise (fun a b => f b ≤ f a) →
      (l[k]?.any (fun a => decide (v < f a)) = true ↔ k < l.countP fun a => decide (v < f a))
  | [], k, _ => by simp
  | a :: l, k, h => by
    obtain ⟨hle, hrest⟩ := List.pairwise_cons.mp h
    rw [List.countP_cons]
    by_cases ha : v < f a
    · rcases k with _ | k
      · simp [ha]
      · rw [List.getElem?_cons_succ, getElem?_above f v l k hrest]
        simp [ha]
    · -- nothing after it is above `v` either
      have hnone : (l.countP fun a => decide (v < f a)) = 0 := by
        refine List.countP_eq_zero.mpr fun b hb => ?_
        have := hle b hb
        simp only [decide_eq_true_eq]
        omega
      rcases k with _ | k
      · simp [ha, hnone]
      · rw [List.getElem?_cons_succ, getElem?_above f v l k hrest, hnone]
        simp [ha]

theorem bySeqDesc_pairwise (ms : List ManifestRow) :
    (bySeqDesc ms).Pairwise fun a b => b.seq ≤ a.seq := by
  have : Std.Total fun a b : ManifestRow => b.seq ≤ a.seq := ⟨fun a b => Nat.le_total _ _⟩
  have : IsTrans ManifestRow fun a b => b.seq ≤ a.seq := ⟨fun _ _ _ h h' => h'.trans h⟩
  exact ms.pairwise_insertionSort fun a b : ManifestRow => b.seq ≤ a.seq

/-- The `WHERE` of the first statement. -/
theorem prunable_eq_gone {db : CkptDb} {w net : JsString} {n : ℕ} (hn : 1 ≤ n) (m : ManifestRow) :
    prunable db w net n m = gone db w net n m := by
  have hcount : ((bySeqDesc (manifestsOf db w net)).countP fun x => decide (m.seq < x.seq)) =
      countAbove db w net m.seq :=
    (List.perm_insertionSort _ (manifestsOf db w net)).countP_eq _
  have hkeep : (keepFrom db w net n).any (fun k => decide (m.seq < k)) =
      decide (n ≤ countAbove db w net m.seq) := by
    have hplace := getElem?_above (·.seq) m.seq (bySeqDesc (manifestsOf db w net)) (n - 1)
      (bySeqDesc_pairwise _)
    rw [hcount] at hplace
    rw [keepFrom, Option.any_map, Bool.eq_iff_iff, decide_eq_true_eq]
    refine hplace.trans ?_
    omega
  rw [prunable, gone, hkeep]

/-! ### The junction rows -/

/-- Every junction row has its manifest. -/
def Linked (db : CkptDb) : Prop := ∀ j ∈ db.junction, ∃ m ∈ db.manifests, m.id = j.manifestId

variable {sha256 : Bytes → Bytes} {s s' : StoreState}

theorem linked_step {op : Op} (h : Linked s.db) (hstep : step sha256 s op = some s') :
    Linked s'.db := by
  rcases step_cases hstep with rfl | ⟨now, w, net, data, opts, summary, -, hsave, -⟩ |
    ⟨now, w, net, retainCount, result, -, hprune, -⟩
  · exact h
  · obtain ⟨-, -, himpl⟩ := save_ok hsave
    obtain ⟨label, stored, manifest, -, -, hmanifest, hdb, -⟩ := saveImpl_ok himpl
    rw [hdb]
    subst hmanifest
    intro j hj
    rcases List.mem_append.mp hj with hj | hj
    · obtain ⟨m, hm, hid⟩ := h j hj
      exact ⟨m, List.mem_append_left _ hm, hid⟩
    · exact ⟨_, List.mem_append_right _ List.mem_cons_self, (mem_junctionRowsOf hj).1.symm⟩
  · obtain ⟨n, db₁, rfl, hdb, -⟩ := prune_ok hprune
    rw [hdb]
    intro j hj
    obtain ⟨hj, hkept⟩ := List.mem_filter.mp hj
    obtain ⟨m, hm, hid⟩ := h j hj
    refine ⟨m, List.mem_filter.mpr ⟨hm, ?_⟩, hid⟩
    -- a manifest that is deleted takes its junction rows with it
    rw [Bool.not_eq_true', Bool.eq_false_iff]
    intro hp
    rw [Bool.not_eq_true', List.any_eq_false] at hkept
    exact hkept m (List.mem_filter.mpr ⟨hm, hp⟩) (by simp [hid])

theorem linked_run {ops : List Op} (h : run (step sha256) ops .init = some s) : Linked s.db :=
  run_inv (fun _ _ _ => linked_step) ops .init s (fun j hj => by cases hj) h

/-- The `WHERE` of the second statement, which sees the cascade of the first. -/
theorem reclaimable_eq_dead {db : CkptDb} {w net : JsString} {n : ℕ} (hlinked : Linked db)
    (hids : ∀ a ∈ db.manifests, ∀ b ∈ db.manifests, a.id = b.id → a = b) (now : ℤ) (c : ChunkRow) :
    reclaimable now (deleteManifests db w net n).junction c =
      dead now (deleteManifests db w net n).manifests db.junction c := by
  have hany : ((deleteManifests db w net n).junction.any fun j => j.chunkHash == c.hash) =
      (deleteManifests db w net n).manifests.any fun m =>
        db.junction.any fun j => j.manifestId == m.id && j.chunkHash == c.hash := by
    rw [Bool.eq_iff_iff]
    simp only [List.any_eq_true, deleteManifests, List.mem_filter, Bool.not_eq_true',
      List.any_eq_false, Bool.and_eq_true, beq_iff_eq]
    constructor
    · rintro ⟨j, ⟨hj, hkept⟩, hhash⟩
      obtain ⟨m, hm, hid⟩ := hlinked j hj
      refine ⟨m, ⟨hm, ?_⟩, j, hj, hid.symm, hhash⟩
      by_contra hp
      exact hkept m ⟨hm, by simpa using hp⟩ hid
    · rintro ⟨m, ⟨hm, hp⟩, j, hj, hid, hhash⟩
      refine ⟨j, ⟨hj, fun m' hm' hid' => ?_⟩, hhash⟩
      rw [hids m' hm'.1 m hm (hid'.trans hid), hp] at hm'
      cases hm'.2
  rw [reclaimable, dead, hany]

/-! ### `prune` -/

theorem mapM_coerce {context : String} {ms : List ManifestRow}
    (h : ∀ m ∈ ms, m.seq ≤ maxSafeInteger) :
    ms.mapM (fun m => coerceToSafeNumber m.seq context) = .ok (ms.map (·.seq)) := by
  refine mapM_eq_map fun m hm => ?_
  have hle := h m hm
  rw [coerceToSafeNumber, if_neg (by omega)]

/-- What `prune` does to tables that keep the keys. -/
theorem prune_spec {db : CkptDb} {w net : JsString} {retainCount : ℤ} (hlinked : Linked db)
    (hids : ∀ a ∈ db.manifests, ∀ b ∈ db.manifests, a.id = b.id → a = b)
    (hsafe : ∀ m ∈ db.manifests, m.seq ≤ maxSafeInteger)
    (hw : checkpointIdOk w = true) (hnet : checkpointIdOk net = true) (h1 : 1 ≤ retainCount)
    (hmax : retainCount ≤ maxSafeInteger) (now : ℤ) :
    ∃ db' result, prune now w net retainCount db = .ok (db', result) ∧
      PrunedExactly now w net retainCount.toNat db db' result := by
  have hvalid : assertValidCheckpointIds w net = .ok () := by
    simp [assertValidCheckpointIds, hw, hnet]
  have hcount : ¬ (retainCount < 1 ∨ (maxSafeInteger : ℤ) < retainCount) := by omega
  have hgone : prunable db w net retainCount.toNat = gone db w net retainCount.toNat :=
    funext fun m => prunable_eq_gone (by omega) m
  have hdead : reclaimable now (deleteManifests db w net retainCount.toNat).junction =
      dead now (deleteManifests db w net retainCount.toNat).manifests db.junction :=
    funext fun c => reclaimable_eq_dead hlinked hids now c
  have hseqs : (db.manifests.filter (prunable db w net retainCount.toNat)).mapM
      (fun m => coerceToSafeNumber m.seq "PruneResult.prunedSequences") =
      .ok ((db.manifests.filter (prunable db w net retainCount.toNat)).map (·.seq)) :=
    mapM_coerce fun m hm => hsafe m (List.mem_filter.mp hm).1
  have hprune : prune now w net retainCount db = .ok
      ({ deleteManifests db w net retainCount.toNat with
        chunks := db.chunks.filter fun c =>
          !reclaimable now (deleteManifests db w net retainCount.toNat).junction c },
      ⟨(db.manifests.filter (prunable db w net retainCount.toNat)).map (·.seq),
        (db.chunks.filter
          (reclaimable now (deleteManifests db w net retainCount.toNat).junction)).length,
        ((db.chunks.filter (reclaimable now
          (deleteManifests db w net retainCount.toNat).junction)).map (·.data.length)).sum⟩) := by
    simp only [prune, hvalid, bind, Except.bind, if_neg hcount, pruneImpl, hseqs]
    rfl
  refine ⟨_, _, hprune, ?_⟩
  rw [hdead]
  refine ⟨?_, ?_, rfl, ⟨rfl, rfl⟩, ?_, rfl, rfl⟩
  · simp only [deleteManifests, hgone]
  · simp only [deleteManifests, hgone, List.any_filter]
  · simp only [hgone]

/-- What is left is not pruned again. -/
theorem PrunedExactly.again {now : ℤ} {w net : JsString} {n : ℕ} {db db' db'' : CkptDb}
    {result result' : PruneResult}
    (hids : ∀ a ∈ db.manifests, ∀ b ∈ db.manifests, a.id = b.id → a = b)
    (h : PrunedExactly now w net n db db' result)
    (h' : PrunedExactly now w net n db' db'' result') : db'' = db' ∧ result' = ⟨[], 0, 0⟩ := by
  have hstays : ∀ m ∈ db'.manifests, gone db' w net n m = false := by
    intro m hm
    rw [h.manifests] at hm
    obtain ⟨hm, hkept⟩ := List.mem_filter.mp hm
    have hsub : (manifestsOf db' w net).Sublist (manifestsOf db w net) := by
      rw [manifestsOf, manifestsOf, h.manifests]
      exact List.filter_sublist.filter _
    have hle : countAbove db' w net m.seq ≤ countAbove db w net m.seq := hsub.countP_le
    by_contra hgone
    rw [Bool.not_eq_false, gone, Bool.and_eq_true, decide_eq_true_eq] at hgone
    rw [Bool.not_eq_true', gone, hgone.1, Bool.true_and, decide_eq_false_iff_not] at hkept
    omega
  have hnone : db'.manifests.filter (gone db' w net n) = [] :=
    List.filter_eq_nil_iff.mpr fun m hm => by simp [hstays m hm]
  have hman : db''.manifests = db'.manifests := by
    rw [h'.manifests]
    exact List.filter_eq_self.mpr fun m hm => by simp [hstays m hm]
  have hjun : db''.junction = db'.junction := by
    rw [h'.junction]
    refine List.filter_eq_self.mpr fun j _ => ?_
    have hany : (db'.manifests.any fun m => gone db' w net n m && m.id == j.manifestId) = false :=
      List.any_eq_false.mpr fun m hm => by simp [hstays m hm]
    rw [hany]
    rfl
  -- a chunk that is left is young, or a manifest that is left refers to it
  have halive : ∀ c ∈ db'.chunks, dead now db''.manifests db'.junction c = false := by
    intro c hc
    rw [h.chunks] at hc
    obtain ⟨-, hkept⟩ := List.mem_filter.mp hc
    rw [Bool.not_eq_true'] at hkept
    rw [dead, Bool.and_eq_false_iff] at hkept ⊢
    rw [hman]
    rcases hkept with hyoung | hreferred
    · exact .inl hyoung
    · refine .inr ?_
      rw [Bool.not_eq_false', List.any_eq_true] at hreferred ⊢
      obtain ⟨m, hm, hj⟩ := hreferred
      refine ⟨m, hm, ?_⟩
      rw [List.any_eq_true] at hj ⊢
      obtain ⟨j, hj, href⟩ := hj
      refine ⟨j, ?_, href⟩
      rw [Bool.and_eq_true, beq_iff_eq, beq_iff_eq] at href
      rw [h.manifests] at hm
      obtain ⟨hm, hstay⟩ := List.mem_filter.mp hm
      rw [h.junction]
      refine List.mem_filter.mpr ⟨hj, ?_⟩
      rw [Bool.not_eq_true', List.any_eq_false]
      intro m' hm' hgone
      rw [Bool.and_eq_true, beq_iff_eq] at hgone
      rw [← hids m' hm' m hm (hgone.2.trans href.1), hgone.1] at hstay
      cases hstay
  have hdead : db'.chunks.filter (dead now db''.manifests db'.junction) = [] :=
    List.filter_eq_nil_iff.mpr fun c hc => by simp [halive c hc]
  have hchunks : db''.chunks = db'.chunks := by
    rw [h'.chunks]
    exact List.filter_eq_self.mpr fun c hc => by simp [halive c hc]
  refine ⟨?_, ?_⟩
  · rcases db'' with ⟨c, m, j, k, i⟩
    rcases db' with ⟨c', m', j', k', i'⟩
    simp only at hman hjun hchunks
    obtain ⟨hk, hi⟩ := h'.counters
    simp only at hk hi
    rw [hman, hjun, hchunks, hk, hi]
  · rcases result' with ⟨a, b, c⟩
    have ha := h'.prunedSequences
    have hb := h'.reclaimedChunks
    have hc := h'.reclaimedBytes
    rw [hnone] at ha
    rw [hdead] at hb hc
    simp only [List.map_nil, List.length_nil, List.sum_nil] at ha hb hc
    rw [ha, hb, hc]

/-- **Prune is exact.** After every run, for every wallet, network and number of checkpoints to
keep: ids that are not valid are rejected; else `prune` deletes and reports exactly what is to be
deleted, and when it is run again at the same time it changes and reports nothing. -/
theorem prune_exact {ops : List Op} (h : run (step sha256) ops .init = some s) (w net : JsString)
    {retainCount : ℤ} (h1 : 1 ≤ retainCount) (hmax : retainCount ≤ maxSafeInteger) (now : ℤ) :
    ((checkpointIdOk w && checkpointIdOk net) = false →
      (∃ context, prune now w net retainCount s.db = .error (.validation context)) ∧
        manifestsOf s.db w net = []) ∧
    ((checkpointIdOk w && checkpointIdOk net) = true →
      ∃ db' result, prune now w net retainCount s.db = .ok (db', result) ∧
        PrunedExactly now w net retainCount.toNat s.db db' result ∧
        prune now w net retainCount db' = .ok (db', ⟨[], 0, 0⟩)) := by
  have hI := inv_run_wellFormed h
  have hids : ∀ a ∈ s.db.manifests, ∀ b ∈ s.db.manifests, a.id = b.id → a = b :=
    fun a ha b hb => hI.id_inj ha hb
  constructor
  · intro hno
    constructor
    · have hctx : ∃ context, assertValidCheckpointIds w net = .error (.validation context) := by
        unfold assertValidCheckpointIds
        split_ifs with hw hnet
        · exact ⟨_, rfl⟩
        · exact ⟨_, rfl⟩
        · simp_all
      obtain ⟨context, hctx⟩ := hctx
      exact ⟨context, by simp only [prune, hctx, bind, Except.bind]⟩
    · refine List.eq_nil_iff_forall_not_mem.mpr fun m hm => ?_
      obtain ⟨hmem, rfl, rfl⟩ := hI.mem_manifestsOf.mp hm
      obtain ⟨r, -, hh⟩ := hI.saved m hmem
      rw [hh.w, hh.net, hh.ids.1, hh.ids.2] at hno
      cases hno
  · intro hok
    rw [Bool.and_eq_true] at hok
    obtain ⟨db', result, hprune, hexact⟩ :=
      prune_spec (linked_run h) hids hI.safe hok.1 hok.2 h1 hmax now
    have hsub : ∀ m ∈ db'.manifests, m ∈ s.db.manifests := by
      intro m hm
      rw [hexact.manifests] at hm
      exact (List.mem_filter.mp hm).1
    have hlinked : Linked db' := by
      have hstep : step sha256 s (.prune now w net retainCount) =
          some ⟨db', s.retained.filter fun r => !reported w net result r⟩ := by
        rw [step, hprune]
      exact linked_step (linked_run h) hstep
    obtain ⟨db'', result', hagain, hexact'⟩ :=
      prune_spec hlinked (fun a ha b hb => hids a (hsub a ha) b (hsub b hb))
        (fun m hm => hI.safe m (hsub m hm)) hok.1 hok.2 h1 hmax now
    obtain ⟨rfl, rfl⟩ := hexact.again hids hexact'
    exact ⟨_, result, hprune, hexact, hagain⟩

/-- A wallet saves a byte and then no bytes, and keeps one checkpoint; the byte is reclaimed. -/
theorem prune_exact_sharedByte :
    ∃ s db' result, run (step sha256OfByte)
        [.save 0 [97] [109] [1] ⟨none, none⟩, .save 1 [97] [109] [] ⟨none, none⟩,
          .save 2 [98] [109] [] ⟨none, none⟩] .init = some s ∧
      prune 2000000000 [97] [109] 1 s.db = .ok (db', result) ∧ result = ⟨[1], 1, 1⟩ ∧
      db'.manifests.length = 2 ∧ PrunedExactly 2000000000 [97] [109] 1 s.db db' result := by
  have hrun : run (step sha256OfByte)
      [.save 0 [97] [109] [1] ⟨none, none⟩, .save 1 [97] [109] [] ⟨none, none⟩,
        .save 2 [98] [109] [] ⟨none, none⟩] .init = some _ := rfl
  obtain ⟨db', result, hprune, hexact, -⟩ :=
    (prune_exact hrun [97] [109] (le_refl 1) (by decide) 2000000000).2 (by decide)
  have heval := hprune
  cases heval
  exact ⟨_, _, _, hrun, hprune, rfl, rfl, hexact⟩

end UmbraDB.Ckpt.Prune
