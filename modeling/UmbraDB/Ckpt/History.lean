import UmbraDB.Ckpt.Tamper
import UmbraDB.Ckpt.Prune
import UmbraDB.Lib.Paging
import Mathlib.Algebra.BigOperators.Group.List.Basic
import Mathlib.Data.List.Dedup

/-! # Checkpoint store: `history`, and the three summaries of a checkpoint

`save` takes the summary from the payload in memory, `load` from the bytes it has put together, and
`history` from a grouped join over `size_bytes`, matched to the page by manifest id. Next to the
tables the state keeps what `save` returned (`KeptState`); without these it is the state of
`Ckpt.RoundTrip`.

* `summaryOf_holds` : the aggregate of a retained checkpoint counts its chunks and their bytes.
* `historyImpl_page` : a page of `history`, on the tables of any run.
* `summaries_agree` : the three summaries of a retained checkpoint are one. -/

namespace UmbraDB.Ckpt.History

open UmbraDB.Js.Text UmbraDB.Lib.Runs UmbraDB.Lib.Batches UmbraDB.Lib.Fallible UmbraDB.Lib.Paging
open UmbraDB.Ckpt.Rows UmbraDB.Ckpt.RoundTrip

/-! ### The code -/

/-- `HistoryOptions`. -/
structure HistoryOptions where
  limit : Option ℕ
  before : Option ℕ
  deriving DecidableEq

/-- `HistoryOptionsSchema`: `limit` and `before`. -/
def validateHistoryOptions (opts : HistoryOptions) : Except CkptError (ℕ × Option ℕ) :=
  if opts.limit.all (fun n => decide (1 ≤ n) && decide (n ≤ 1000)) &&
      opts.before.all (fun n => decide (1 ≤ n) && decide (n ≤ maxSafeInteger)) then
    .ok (opts.limit.getD 50, opts.before)
  else .error (.validation "PgCheckpointStore.history opts")

/-- `size_bytes integer GENERATED ALWAYS AS (octet_length(data)) STORED`. -/
def sizeBytes (c : ChunkRow) : ℕ := c.data.length

/-- The first statement: `ORDER BY seq DESC LIMIT`. -/
def pageRows (w net : JsString) (limit : ℕ) (before : Option ℕ) (db : CkptDb) : List ManifestRow :=
  (bySeqDesc ((manifestsOf db w net).filter fun m =>
    before.all fun b => decide (m.seq < b))).take limit

structure AggregateRow where
  manifestId : ℕ
  chunkCount : ℕ
  byteLength : ℕ
  deriving DecidableEq

/-- `ckpt_manifest_chunks mc JOIN ckpt_chunks c ON c.hash = mc.chunk_hash`. -/
def joinChunks (chunks : List ChunkRow) (junction : List JunctionRow) :
    List (JunctionRow × ChunkRow) :=
  junction.flatMap fun j => (chunks.filter fun c => c.hash == j.chunkHash).map fun c => (j, c)

/-- The row of a group. -/
def aggregateRow (rows : List (JunctionRow × ChunkRow)) (id : ℕ) : AggregateRow :=
  let group := rows.filter fun row => row.1.manifestId == id
  ⟨id, group.length, (group.map fun row => sizeBytes row.2).sum⟩

/-- The second statement: `WHERE mc.manifest_id = ANY(…) GROUP BY mc.manifest_id`. -/
def aggregateRows (ids : List ℕ) (db : CkptDb) : List AggregateRow :=
  let rows := (joinChunks db.chunks db.junction).filter fun row => ids.contains row.1.manifestId
  ((rows.map fun row => row.1.manifestId).dedup).map (aggregateRow rows)

/-- `aggById`; of two rows with one id the later one counts. -/
def aggById (aggRows : List AggregateRow) (id : ℕ) : Option AggregateRow :=
  aggRows.reverse.find? fun a => a.manifestId == id

/-- The summary of a row of the page. -/
def summaryOf (aggRows : List AggregateRow) (manifest : ManifestRow) :
    Except CkptError CheckpointSummary := do
  let agg := aggById aggRows manifest.id
  let byteLength ← coerceToSafeNumber ((agg.map (·.byteLength)).getD 0)
    "CheckpointSummary.byteLength"
  let chunkCount ← coerceToSafeNumber ((agg.map (·.chunkCount)).getD 0)
    "CheckpointSummary.chunkCount"
  toSummary manifest byteLength chunkCount

def historyImpl (w net : JsString) (limit : ℕ) (before : Option ℕ) (db : CkptDb) :
    Except CkptError (List CheckpointSummary) :=
  let manifestRows := pageRows w net limit before db
  let manifestIds := manifestRows.map (·.id)
  let aggRows := if manifestIds.isEmpty then [] else aggregateRows manifestIds db
  manifestRows.mapM (summaryOf aggRows)

def history (w net : JsString) (opts : HistoryOptions) (db : CkptDb) :
    Except CkptError (List CheckpointSummary) := do
  assertValidCheckpointIds w net
  let (limit, before) ← validateHistoryOptions opts
  historyImpl w net limit before db

/-! ### The aggregate -/

/-- The rows of the join for one manifest. -/
def groupOf (db : CkptDb) (id : ℕ) : List (JunctionRow × ChunkRow) :=
  joinChunks db.chunks (db.junction.filter fun j => j.manifestId == id)

theorem joinChunks_filter (chunks : List ChunkRow) (p : JunctionRow → Bool) :
    ∀ js : List JunctionRow,
      (joinChunks chunks js).filter (fun row => p row.1) = joinChunks chunks (js.filter p)
  | [] => rfl
  | j :: js => by
    have hcons : ∀ js', joinChunks chunks (j :: js') =
        (chunks.filter fun c => c.hash == j.chunkHash).map (fun c => (j, c)) ++
          joinChunks chunks js' := fun js' => List.flatMap_cons
    rw [hcons, List.filter_append, joinChunks_filter chunks p js, List.filter_map]
    by_cases hj : p j = true
    · rw [List.filter_cons_of_pos hj, hcons]
      simp [Function.comp_def, hj]
    · rw [List.filter_cons_of_neg hj]
      simp [Function.comp_def, hj]

/-- The group of a manifest of the page has all its rows. -/
theorem aggregateRow_eq {ids : List ℕ} {id : ℕ} (hid : id ∈ ids) (db : CkptDb) :
    aggregateRow ((joinChunks db.chunks db.junction).filter fun row =>
        ids.contains row.1.manifestId) id =
      ⟨id, (groupOf db id).length, ((groupOf db id).map fun row => sizeBytes row.2).sum⟩ := by
  have hgroup : ((joinChunks db.chunks db.junction).filter fun row =>
      ids.contains row.1.manifestId).filter (fun row => row.1.manifestId == id) =
        groupOf db id := by
    rw [List.filter_filter, groupOf, ← joinChunks_filter]
    refine List.filter_congr fun row _ => ?_
    by_cases hr : row.1.manifestId = id
    · simp [hr, hid]
    · simp [hr]
  rw [aggregateRow, hgroup]

theorem aggById_map (rows : List (JunctionRow × ChunkRow)) (ids : List ℕ) (id : ℕ) :
    aggById (ids.map (aggregateRow rows)) id =
      if id ∈ ids then some (aggregateRow rows id) else none := by
  unfold aggById
  rcases hf : (ids.map (aggregateRow rows)).reverse.find? fun a => a.manifestId == id with _ | a
  · rw [hf, if_neg]
    intro hid
    have hnone := List.find?_eq_none.mp hf (aggregateRow rows id)
      (List.mem_reverse.mpr (List.mem_map_of_mem hid))
    exact hnone (beq_self_eq_true id)
  · obtain ⟨id', hid', rfl⟩ := List.mem_map.mp (List.mem_reverse.mp (List.mem_of_find?_eq_some hf))
    have hkey := List.find?_some hf
    obtain rfl : id' = id := eq_of_beq hkey
    rw [hf, if_pos hid']

/-- **What the aggregate says of a manifest of the page**, with the fallback of no group row. -/
theorem aggById_counts {ids : List ℕ} {id : ℕ} (hid : id ∈ ids) (db : CkptDb) :
    ((aggById (aggregateRows ids db) id).map (·.chunkCount)).getD 0 = (groupOf db id).length ∧
      ((aggById (aggregateRows ids db) id).map (·.byteLength)).getD 0 =
        ((groupOf db id).map fun row => sizeBytes row.2).sum := by
  unfold aggregateRows
  rw [aggById_map]
  split_ifs with hmem
  · rw [aggregateRow_eq hid]
    exact ⟨rfl, rfl⟩
  · -- a manifest without rows
    have hnil : groupOf db id = [] := by
      rw [groupOf, ← joinChunks_filter]
      refine List.filter_eq_nil_iff.mpr fun row hrow he => hmem ?_
      have hrid : row.1.manifestId = id := eq_of_beq he
      refine List.mem_dedup.mpr (List.mem_map.mpr ⟨row, List.mem_filter.mpr ⟨hrow, ?_⟩, hrid⟩)
      simp [hrid, hid]
    rw [hnil]
    exact ⟨rfl, rfl⟩

variable {sha256 : Bytes → Bytes} {U : Set Bytes}

/-- The join finds one row for each position, with the bytes of the chunk. -/
theorem joinChunks_stored {chunks : List ChunkRow} (hinj : Set.InjOn sha256 U)
    (hk : (chunks.map (·.hash)).Nodup)
    (hc : ∀ c ∈ chunks, c.hash = sha256 c.data ∧ c.data ∈ U) (id : ℕ) :
    ∀ (i : ℕ) (parts : List Bytes), (∀ p ∈ parts, p ∈ U ∧ Stored chunks (sha256 p)) →
      (joinChunks chunks (junctionRowsOf id i (parts.map sha256))).map (fun row => row.2.data) =
        parts
  | _, [], _ => rfl
  | i, p :: parts, hp => by
    obtain ⟨hpU, hst⟩ := hp p List.mem_cons_self
    have ih := joinChunks_stored hinj hk hc id (i + 1) parts
      fun q hq => hp q (List.mem_cons_of_mem _ hq)
    obtain ⟨c, hf, hd⟩ := find_chunk hinj hc hpU hst
    have hcons : joinChunks chunks (junctionRowsOf id i ((p :: parts).map sha256)) =
        (chunks.filter fun c => c.hash == sha256 p).map (fun c => (⟨id, i, sha256 p⟩, c)) ++
          joinChunks chunks (junctionRowsOf id (i + 1) (parts.map sha256)) := List.flatMap_cons
    rw [hcons, List.map_append, ih, Tamper.filter_hash hk, hf]
    simp [hd]

/-- What the tables say of the chunks of a checkpoint. -/
structure Sound (sha256 : Bytes → Bytes) (U : Set Bytes) (db : CkptDb) : Prop where
  injective : Set.InjOn sha256 U
  hashes : (db.chunks.map (·.hash)).Nodup
  chunk : ∀ c ∈ db.chunks, c.hash = sha256 c.data ∧ c.data ∈ U

/-- The chunks of a checkpoint are not empty, so there are no more of them than bytes. -/
theorem length_chunks_le {r : Saved} (hpos : 0 < r.chunkSize) :
    r.chunks.length ≤ r.data.length := by
  have hdata : r.chunks.flatten = r.data := flatten_batches hpos r.data
  rw [← hdata, List.length_flatten]
  have hone : ∀ n ∈ r.chunks.map List.length, 1 ≤ n := by
    intro n hn
    obtain ⟨c, hc, rfl⟩ := List.mem_map.mp hn
    exact List.length_pos_of_ne_nil (mem_batches hpos hc).1
  have hle := List.length_le_sum_of_one_le _ hone
  rwa [List.length_map] at hle

/-- The summary of a manifest row, if it is counted from the tables. -/
def tableSummary (db : CkptDb) (m : ManifestRow) : CheckpointSummary :=
  ⟨m.seq, m.manifestHash, ((groupOf db m.id).map fun row => sizeBytes row.2).sum,
    (groupOf db m.id).length, m.label, m.createdAt⟩

/-- All its numbers are safe integers. -/
def SafeSummary (summary : CheckpointSummary) : Prop :=
  summary.sequence ≤ maxSafeInteger ∧ summary.byteLength ≤ maxSafeInteger ∧
    summary.chunkCount ≤ maxSafeInteger

theorem coerceToSafeNumber_eq {n : ℕ} (h : n ≤ maxSafeInteger) (context : String) :
    coerceToSafeNumber n context = .ok n := by
  rw [coerceToSafeNumber, if_neg (by omega)]

theorem summaryOf_eq {db : CkptDb} {m : ManifestRow} {ids : List ℕ} (hid : m.id ∈ ids)
    (hsafe : SafeSummary (tableSummary db m)) :
    summaryOf (aggregateRows ids db) m = .ok (tableSummary db m) := by
  obtain ⟨hcount, hbytes⟩ := aggById_counts hid db
  simp only [SafeSummary, tableSummary] at hsafe
  obtain ⟨hseq, hlen, hcnt⟩ := hsafe
  unfold summaryOf
  simp only [hcount, hbytes, toSummary]
  rw [coerceToSafeNumber_eq hlen, coerceToSafeNumber_eq hcnt, coerceToSafeNumber_eq hseq]
  rfl

/-- A page is made row by row. -/
theorem historyImpl_eq {w net : JsString} {limit : ℕ} {before : Option ℕ} {db : CkptDb}
    (hsafe : ∀ m ∈ pageRows w net limit before db, SafeSummary (tableSummary db m)) :
    historyImpl w net limit before db =
      .ok ((pageRows w net limit before db).map (tableSummary db)) := by
  unfold historyImpl
  refine mapM_eq_map fun m hm => ?_
  have hid : m.id ∈ (pageRows w net limit before db).map (·.id) := List.mem_map_of_mem hm
  have hne : ((pageRows w net limit before db).map (·.id)).isEmpty = false := by
    rw [List.isEmpty_eq_false_iff_exists_mem]
    exact ⟨m.id, hid⟩
  rw [hne]
  exact summaryOf_eq hid (hsafe m hm)

/-- **The summary of the manifest row of a retained checkpoint.** -/
theorem tableSummary_holds {db : CkptDb} {r : Saved} {m : ManifestRow} (hs : Sound sha256 U db)
    (hh : Holds sha256 db r m) (hstored : ∀ p ∈ r.chunks, p ∈ U ∧ Stored db.chunks (sha256 p)) :
    tableSummary db m =
      ⟨m.seq, m.manifestHash, r.data.length, r.chunks.length, m.label, m.createdAt⟩ := by
  have hgroup : (groupOf db m.id).map (fun row => row.2.data) = r.chunks := by
    rw [groupOf, hh.junction]
    exact joinChunks_stored hs.injective hs.hashes hs.chunk m.id 0 r.chunks hstored
  have hcount : (groupOf db m.id).length = r.chunks.length := by rw [← hgroup, List.length_map]
  have hbytes : ((groupOf db m.id).map fun row => sizeBytes row.2).sum = r.data.length := by
    have hdata : r.chunks.flatten = r.data := flatten_batches hh.chunkSize r.data
    rw [← hdata, List.length_flatten, ← hgroup, List.map_map]
    rfl
  rw [tableSummary, hcount, hbytes]

/-! ### The page -/

/-- The sequence numbers of the complete manifests of the wallet and network. -/
def sequencesOf (db : CkptDb) (w net : JsString) : Set ℕ :=
  { n | ∃ m ∈ manifestsOf db w net, m.seq = n }

theorem mem_pageRows {w net : JsString} {limit : ℕ} {before : Option ℕ} {db : CkptDb}
    {m : ManifestRow} (h : m ∈ pageRows w net limit before db) : m ∈ manifestsOf db w net := by
  have hmem := List.mem_of_mem_take h
  rw [bySeqDesc, List.mem_insertionSort] at hmem
  exact (List.mem_filter.mp hmem).1

theorem manifestsOf_key {db : CkptDb} {w net : JsString} {m : ManifestRow}
    (h : m ∈ manifestsOf db w net) : m ∈ db.manifests ∧ m.w = w ∧ m.net = net := by
  obtain ⟨hm, hp⟩ := List.mem_filter.mp h
  simp only [Bool.and_eq_true, beq_iff_eq] at hp
  exact ⟨hm, hp.1⟩

/-- **The rows of a page**, if no two manifests have the same sequence. -/
theorem pageRows_isPage {db : CkptDb} {w net : JsString} {limit : ℕ} {before : Option ℕ}
    (hseqs : db.manifests.Pairwise fun a b => a.w = b.w → a.net = b.net → a.seq ≠ b.seq) :
    IsPage limit (sequencesOf db w net) before ((pageRows w net limit before db).map (·.seq)) := by
  set rows := (manifestsOf db w net).filter fun m => before.all fun b => decide (m.seq < b)
  have hnodup : (rows.map (·.seq)).Nodup := by
    rw [List.Nodup, List.pairwise_map]
    refine ((hseqs.filter _).filter _).imp_of_mem fun ha hb hne => ?_
    obtain ⟨-, haw, han⟩ := manifestsOf_key (List.mem_filter.mp ha).1
    obtain ⟨-, hbw, hbn⟩ := manifestsOf_key (List.mem_filter.mp hb).1
    exact hne (haw.trans hbw.symm) (han.trans hbn.symm)
  have hperm : (bySeqDesc rows).Perm rows := List.perm_insertionSort _ rows
  have hdesc : ((bySeqDesc rows).map (·.seq)).Pairwise (· > ·) := by
    have hne := (hperm.map (·.seq)).nodup_iff.mpr hnodup
    have hle := Prune.bySeqDesc_pairwise rows
    rw [List.Nodup, List.pairwise_map] at hne
    rw [List.pairwise_map]
    exact (hle.and hne).imp fun h => by omega
  rw [pageRows, List.map_take]
  refine isPage_take hdesc fun n => ?_
  simp only [List.mem_map, hperm.mem_iff, rows, List.mem_filter, Option.all_eq_true,
    decide_eq_true_eq]
  constructor
  · rintro ⟨m, ⟨hm, hb⟩, rfl⟩
    exact ⟨⟨m, hm, rfl⟩, hb⟩
  · rintro ⟨⟨m, hm, rfl⟩, hb⟩
    exact ⟨m, ⟨hm, hb⟩, rfl⟩

/-! ### What `save` returned -/

/-- A retained checkpoint with the summary that its `save` returned. -/
structure Kept where
  saved : Saved
  summary : CheckpointSummary
  deriving DecidableEq

structure KeptState where
  db : CkptDb
  kept : List Kept
  deriving DecidableEq

def KeptState.init : KeptState := ⟨.empty, []⟩

def KeptState.forget (s : KeptState) : StoreState := ⟨s.db, s.kept.map (·.saved)⟩

/-- `RoundTrip.step`, with the summaries. -/
def keptStep (sha256 : Bytes → Bytes) (s : KeptState) : Op → Option KeptState
  | .save now w net data opts =>
    match save sha256 now w net data opts s.db with
    | .ok (db, summary) =>
      some ⟨db, s.kept ++ [⟨⟨w, net, summary.sequence, data,
        opts.chunkSize.getD defaultChunkSize, opts.label⟩, summary⟩]⟩
    | .error _ => some s
  | .prune now w net retainCount =>
    match prune now w net retainCount s.db with
    | .ok (db, result) => some ⟨db, s.kept.filter fun k => !reported w net result k.saved⟩
    | .error _ => some s

variable {s s' : KeptState}

theorem step_forget (s : KeptState) (op : Op) :
    step sha256 s.forget op = (keptStep sha256 s op).map KeptState.forget := by
  cases op with
  | save now w net data opts =>
    simp only [step, keptStep, KeptState.forget]
    rcases save sha256 now w net data opts s.db with e | ⟨db, summary⟩
    · rfl
    · simp [KeptState.forget]
  | prune now w net retainCount =>
    simp only [step, keptStep, KeptState.forget]
    rcases prune now w net retainCount s.db with e | ⟨db, result⟩
    · rfl
    · simp [KeptState.forget, List.filter_map, Function.comp_def]

theorem run_forget {ops : List Op} (h : run (keptStep sha256) ops .init = some s) :
    run (step sha256) ops .init = some s.forget := by
  have hmap := run_map (g := id) (@step_forget sha256) ops .init
  rw [List.map_id, h] at hmap
  exact hmap

/-- The returned summary is the one of a manifest row that is there. -/
def Matches (db : CkptDb) (k : Kept) : Prop :=
  ∃ m ∈ db.manifests, m.w = k.saved.w ∧ m.net = k.saved.net ∧ m.seq = k.saved.seq ∧
    k.summary = ⟨m.seq, m.manifestHash, k.saved.data.length, k.saved.chunks.length, m.label,
      m.createdAt⟩

theorem matches_step {op : Op} (h : ∀ k ∈ s.kept, Matches s.db k)
    (hs : keptStep sha256 s op = some s') : ∀ k ∈ s'.kept, Matches s'.db k := by
  cases op with
  | save now w net data opts =>
    simp only [keptStep] at hs
    split at hs
    · next db summary hsave =>
      obtain rfl := Option.some.inj hs
      obtain ⟨-, -, himpl⟩ := save_ok hsave
      obtain ⟨label, stored, m, -, -, hm, rfl, hsummary, -⟩ := saveImpl_ok himpl
      intro k hk
      rcases List.mem_append.mp hk with hk | hk
      · obtain ⟨m', hm', hrest⟩ := h k hk
        exact ⟨m', List.mem_append_left _ hm', hrest⟩
      · rw [List.mem_singleton.mp hk]
        refine ⟨m, List.mem_append_right _ List.mem_cons_self, by rw [hm], by rw [hm], ?_, hsummary⟩
        rw [hsummary]
    · obtain rfl := Option.some.inj hs
      exact h
  | prune now w net retainCount =>
    simp only [keptStep] at hs
    split at hs
    · next db result hprune =>
      obtain rfl := Option.some.inj hs
      obtain ⟨n, db₁, rfl, rfl, hres⟩ := prune_ok hprune
      intro k hk
      obtain ⟨hk, hnr⟩ := List.mem_filter.mp hk
      obtain ⟨m, hm, hw, hnet, hseq, hsummary⟩ := h k hk
      refine ⟨m, List.mem_filter.mpr ⟨hm, ?_⟩, hw, hnet, hseq, hsummary⟩
      -- a manifest that is deleted is reported
      rw [Bool.not_eq_true', Bool.eq_false_iff]
      intro hp
      obtain ⟨hpw, hpnet⟩ := prunable_key hp
      have hmem : k.saved.seq ∈ result.prunedSequences := by
        rw [hres, ← hseq]
        exact List.mem_map_of_mem (List.mem_filter.mpr ⟨hm, hp⟩)
      have hrep : reported w net result k.saved = true := by
        simp [reported, ← hw, ← hnet, hpw, hpnet, hmem]
      rw [hrep] at hnr
      cases hnr
    · obtain rfl := Option.some.inj hs
      exact h

theorem matches_run {ops : List Op} (h : run (keptStep sha256) ops .init = some s) :
    ∀ k ∈ s.kept, Matches s.db k :=
  run_inv (fun _ _ _ => matches_step) ops .init s (fun _ hk => absurd hk List.not_mem_nil) h

/-- The payload of a `save` is a `Uint8Array`, so its length is a safe integer. -/
def payloadsOk (ops : List Op) : Prop :=
  ∀ now w net data opts, Op.save now w net data opts ∈ ops → data.length ≤ maxSafeInteger

theorem length_step {s s' : StoreState} {op : Op}
    (hop : ∀ now w net data opts, op = .save now w net data opts → data.length ≤ maxSafeInteger)
    (h : ∀ r ∈ s.retained, r.data.length ≤ maxSafeInteger) (hs : step sha256 s op = some s') :
    ∀ r ∈ s'.retained, r.data.length ≤ maxSafeInteger := by
  rcases step_cases hs with rfl | ⟨now, w, net, data, opts, summary, rfl, -, hret⟩ |
    ⟨now, w, net, retainCount, result, -, -, hret⟩
  · exact h
  · rw [hret]
    intro r hr
    rcases List.mem_append.mp hr with hr | hr
    · exact h r hr
    · rw [List.mem_singleton.mp hr]
      exact hop now w net data opts rfl
  · rw [hret]
    exact fun r hr => h r (List.mem_filter.mp hr).1

theorem length_run {s : StoreState} {ops : List Op} (hlen : payloadsOk ops)
    (h : run (step sha256) ops .init = some s) :
    ∀ r ∈ s.retained, r.data.length ≤ maxSafeInteger := by
  have hops : ∀ op ∈ ops, ∀ now w net data opts, op = .save now w net data opts →
      data.length ≤ maxSafeInteger := by
    rintro op hop now w net data opts rfl
    exact hlen now w net data opts hop
  exact run_inv_along
    (P := fun _ op => ∀ now w net data opts, op = .save now w net data opts →
      data.length ≤ maxSafeInteger)
    (fun _ _ _ hI hop hs => length_step hop hI hs) ops .init s
    (fun _ hr => absurd hr List.not_mem_nil) (along_of_forall ops _ hops) h

/-! ### The three summaries -/

/-- What holds after every run, up to the unpaired surrogates of the labels. -/
structure KeptInv (sha256 : Bytes → Bytes) (U : Set Bytes) (s : KeptState) : Prop where
  inv : Inv sha256 U s.forget.wellFormed
  sound : Sound sha256 U s.db
  matching : ∀ k ∈ s.kept, Matches s.db k
  lengths : ∀ k ∈ s.kept, k.saved.data.length ≤ maxSafeInteger

theorem keptInv_run {ops : List Op} (hinj : Set.InjOn sha256 (usedChunks ops))
    (hlen : payloadsOk ops) (h : run (keptStep sha256) ops .init = some s) :
    KeptInv sha256 (usedChunks (ops.map Op.wellFormed)) s := by
  have hrun := run_forget h
  have hI := inv_run_wellFormed hrun
  refine ⟨hI, ⟨hinj.mono (usedChunks_wellFormed ops), Tamper.nodup_run hrun, hI.chunk⟩,
    matches_run h, fun k hk => ?_⟩
  exact length_run hlen hrun k.saved (List.mem_map_of_mem hk)

theorem mem_wellFormed {k : Kept} (hk : k ∈ s.kept) :
    k.saved.wellFormed ∈ s.forget.wellFormed.retained :=
  List.mem_map_of_mem (List.mem_map_of_mem hk)

/-- Whatever manifest row stands for a retained checkpoint has its summary. -/
theorem KeptInv.summary_eq (hK : KeptInv sha256 U s) {k : Kept} (hk : k ∈ s.kept) {m : ManifestRow}
    (hm : m ∈ s.db.manifests) (hh : Holds sha256 s.db k.saved.wellFormed m) :
    k.summary = ⟨m.seq, m.manifestHash, k.saved.data.length, k.saved.chunks.length, m.label,
      m.createdAt⟩ := by
  obtain ⟨m', hm', hw, hnet, hseq, hsummary⟩ := hK.matching k hk
  have he : m' = m := hK.inv.seq_inj hm' hm (hw.trans hh.w.symm) (hnet.trans hh.net.symm)
    (hseq.trans hh.seq.symm)
  rw [hsummary, he]

/-- Every manifest row stands for a retained checkpoint. -/
theorem KeptInv.exists_kept (hK : KeptInv sha256 U s) {m : ManifestRow}
    (hm : m ∈ s.db.manifests) : ∃ k ∈ s.kept, Holds sha256 s.db k.saved.wellFormed m := by
  obtain ⟨r, hr, hh⟩ := hK.inv.saved m hm
  obtain ⟨r', hr', rfl⟩ := List.mem_map.mp hr
  obtain ⟨k, hk, rfl⟩ := List.mem_map.mp hr'
  exact ⟨k, hk, hh⟩

/-- `load` returns the summary of its row. -/
theorem KeptInv.load_head (hK : KeptInv sha256 U s) {k : Kept} (hk : k ∈ s.kept) {m : ManifestRow}
    {sequence : Option ℕ} (hm : m ∈ s.db.manifests)
    (hh : Holds sha256 s.db k.saved.wellFormed m)
    (hhead : (bySeqDesc ((manifestsOf s.db k.saved.w k.saved.net).filter fun m =>
      sequence.all (m.seq == ·))).head? = some m) :
    load sha256 k.saved.w k.saved.net sequence s.db = .ok ⟨k.summary, k.saved.data⟩ := by
  have hload := hK.inv.load_manifest hK.sound.injective (mem_wellFormed hk) hm hh hhead
  have hsummary := hK.summary_eq hk hm hh
  rw [hh.seq, hh.label] at hsummary
  rw [hsummary]
  exact hload

theorem KeptInv.load_kept (hK : KeptInv sha256 U s) {k : Kept} (hk : k ∈ s.kept) :
    load sha256 k.saved.w k.saved.net (some k.saved.seq) s.db =
      .ok ⟨k.summary, k.saved.data⟩ := by
  obtain ⟨m, hm, hh, hhead⟩ := hK.inv.head_seq (mem_wellFormed hk)
  exact hK.load_head hk hm hh hhead

/-- Two retained checkpoints of one wallet and network with the same sequence have one summary. -/
theorem KeptInv.summary_unique (hK : KeptInv sha256 U s) {k k' : Kept} (hk : k ∈ s.kept)
    (hk' : k' ∈ s.kept) (hw : k'.saved.w = k.saved.w) (hnet : k'.saved.net = k.saved.net)
    (hseq : k'.saved.seq = k.saved.seq) : k'.summary = k.summary := by
  have h := hK.load_kept hk
  have h' := hK.load_kept hk'
  rw [hw, hnet, hseq, h] at h'
  exact (congrArg CheckpointRecord.summary (Except.ok.inj h')).symm

theorem KeptInv.load_ok (hK : KeptInv sha256 U s) {w net : JsString} {sequence : Option ℕ}
    {rec : CheckpointRecord} (h : load sha256 w net sequence s.db = .ok rec) :
    ∃ k ∈ s.kept, k.saved.w = w ∧ k.saved.net = net ∧ rec = ⟨k.summary, k.saved.data⟩ := by
  obtain ⟨_, -, himpl⟩ := bind_ok.mp h
  rcases hhead : (bySeqDesc ((manifestsOf s.db w net).filter fun m =>
      sequence.all (m.seq == ·))).head? with _ | m
  · simp only [loadImpl, hhead] at himpl
    cases himpl
  · obtain ⟨hsel, -⟩ := bySeqDesc_head hhead
    obtain ⟨hm, rfl, rfl⟩ := manifestsOf_key (List.mem_filter.mp hsel).1
    obtain ⟨k, hk, hh⟩ := hK.exists_kept hm
    have hw : m.w = k.saved.w := hh.w
    have hnet : m.net = k.saved.net := hh.net
    rw [hw, hnet] at h hhead
    rw [hK.load_head hk hm hh hhead] at h
    exact ⟨k, hk, hw.symm, hnet.symm, (Except.ok.inj h).symm⟩

/-- The sequences of the retained checkpoints of a wallet and network. -/
def keptSequences (s : KeptState) (w net : JsString) : Set ℕ :=
  { n | ∃ k ∈ s.kept, k.saved.w = w ∧ k.saved.net = net ∧ k.saved.seq = n }

theorem KeptInv.sequencesOf_eq (hK : KeptInv sha256 U s) (w net : JsString) :
    sequencesOf s.db w net = keptSequences s w net := by
  ext n
  constructor
  · rintro ⟨m, hsel, rfl⟩
    obtain ⟨hm, rfl, rfl⟩ := manifestsOf_key hsel
    obtain ⟨k, hk, hh⟩ := hK.exists_kept hm
    exact ⟨k, hk, hh.w.symm, hh.net.symm, hh.seq.symm⟩
  · rintro ⟨k, hk, rfl, rfl, rfl⟩
    obtain ⟨m, hm, hw, hnet, hseq, -⟩ := hK.matching k hk
    exact ⟨m, hK.inv.mem_manifestsOf.mpr ⟨hm, hw, hnet⟩, hseq⟩

/-- The summary that the tables give for the row of a retained checkpoint. -/
theorem KeptInv.tableSummary_eq (hK : KeptInv sha256 U s) {k : Kept} (hk : k ∈ s.kept)
    {m : ManifestRow} (hm : m ∈ s.db.manifests) (hh : Holds sha256 s.db k.saved.wellFormed m) :
    tableSummary s.db m = k.summary ∧ SafeSummary k.summary := by
  have htable := tableSummary_holds hK.sound hh (hK.inv.chunks_stored (mem_wellFormed hk) hh)
  have hsummary := hK.summary_eq hk hm hh
  have hlen := hK.lengths k hk
  have hcount : k.saved.chunks.length ≤ k.saved.data.length := length_chunks_le hh.chunkSize
  refine ⟨htable.trans hsummary.symm, ?_⟩
  rw [hsummary]
  exact ⟨hK.inv.safe m hm, hlen, hcount.trans hlen⟩

/-- **A page of `history`**, on the tables of any run. -/
theorem KeptInv.history_ok (hK : KeptInv sha256 U s) {w net : JsString} {opts : HistoryOptions}
    {limit : ℕ} {before : Option ℕ} (hids : assertValidCheckpointIds w net = .ok ())
    (hopts : validateHistoryOptions opts = .ok (limit, before)) :
    ∃ page, history w net opts s.db = .ok page ∧
      IsPage limit (keptSequences s w net) before (page.map (·.sequence)) ∧
      ∀ e ∈ page, ∃ k ∈ s.kept, k.saved.w = w ∧ k.saved.net = net ∧ e = k.summary := by
  have hrow : ∀ m ∈ pageRows w net limit before s.db, ∃ k ∈ s.kept, k.saved.w = w ∧
      k.saved.net = net ∧ tableSummary s.db m = k.summary ∧ SafeSummary k.summary := by
    intro m hsel
    obtain ⟨hm, rfl, rfl⟩ := manifestsOf_key (mem_pageRows hsel)
    obtain ⟨k, hk, hh⟩ := hK.exists_kept hm
    exact ⟨k, hk, hh.w.symm, hh.net.symm, hK.tableSummary_eq hk hm hh⟩
  have hsafe : ∀ m ∈ pageRows w net limit before s.db, SafeSummary (tableSummary s.db m) := by
    intro m hm
    obtain ⟨k, -, -, -, he, hs⟩ := hrow m hm
    rwa [he]
  have hpage : IsPage limit (sequencesOf s.db w net) before
      ((pageRows w net limit before s.db).map (·.seq)) := pageRows_isPage hK.inv.seqs
  rw [hK.sequencesOf_eq] at hpage
  refine ⟨(pageRows w net limit before s.db).map (tableSummary s.db), ?_, ?_, ?_⟩
  · rw [history, hids, hopts]
    exact historyImpl_eq hsafe
  · rw [List.map_map]
    exact hpage
  · intro e he
    obtain ⟨m, hm, rfl⟩ := List.mem_map.mp he
    obtain ⟨k, hk, hw, hnet, he, -⟩ := hrow m hm
    exact ⟨k, hk, hw, hnet, he⟩

/-- **The three summaries of a checkpoint are one.** For every retained checkpoint, `load` returns
the summary that `save` returned, and so does every page of `history` that has its sequence; and a
page has the sequences it should. -/
theorem summaries_agree {ops : List Op} (hinj : Set.InjOn sha256 (usedChunks ops))
    (hlen : payloadsOk ops) (h : run (keptStep sha256) ops .init = some s) :
    (∀ k ∈ s.kept, load sha256 k.saved.w k.saved.net (some k.saved.seq) s.db =
      .ok ⟨k.summary, k.saved.data⟩) ∧
    (∀ k ∈ s.kept, ∀ sequence rec,
      load sha256 k.saved.w k.saved.net sequence s.db = .ok rec →
        rec.summary.sequence = k.saved.seq → rec.summary = k.summary) ∧
    ∀ w net opts limit before, assertValidCheckpointIds w net = .ok () →
      validateHistoryOptions opts = .ok (limit, before) →
      ∃ page, history w net opts s.db = .ok page ∧
        IsPage limit (keptSequences s w net) before (page.map (·.sequence)) ∧
        ∀ k ∈ s.kept, k.saved.w = w → k.saved.net = net →
          ∀ e ∈ page, e.sequence = k.saved.seq → e = k.summary := by
  have hK := keptInv_run hinj hlen h
  have hnumber : ∀ k ∈ s.kept, k.summary.sequence = k.saved.seq := by
    intro k hk
    obtain ⟨m, -, -, -, hseq, hsummary⟩ := hK.matching k hk
    rw [hsummary, hseq]
  refine ⟨fun k hk => hK.load_kept hk, fun k hk sequence rec hload hseq => ?_,
    fun w net opts limit before hids hopts => ?_⟩
  · obtain ⟨k', hk', hw, hnet, rfl⟩ := hK.load_ok hload
    exact hK.summary_unique hk hk' hw hnet ((hnumber k' hk').symm.trans hseq)
  · obtain ⟨page, hpage, hisPage, hmem⟩ := hK.history_ok hids hopts
    refine ⟨page, hpage, hisPage, fun k hk hw hnet e he hseq => ?_⟩
    obtain ⟨k', hk', hw', hnet', rfl⟩ := hmem e he
    exact hK.summary_unique hk hk' (hw'.trans hw.symm) (hnet'.trans hnet.symm)
      ((hnumber k' hk').symm.trans hseq)

/-- SHA-256 on the inputs of the run below: those of `sha256OfByte`, and the digest of the byte `01`
twice. -/
def sha256OfBytes : Bytes → Bytes := fun b =>
  if b = sha256OfByte [1] ++ sha256OfByte [1] then
    [226, 140, 139, 38, 185, 54, 226, 70, 50, 70, 157, 70, 128, 121, 162, 159, 0, 163, 50, 90,
     16, 74, 1, 58, 33, 220, 116, 77, 46, 195, 81, 41]
  else sha256OfByte b

/-- A payload with a repeated chunk, an empty payload, and the same chunk from another wallet. -/
def repeatedChunk : List Op :=
  [.save 0 [97] [109] [1, 1] ⟨some 1, some [120]⟩, .save 5 [97] [109] [] ⟨none, none⟩,
    .save 6 [98] [109] [1] ⟨some 1, none⟩]

theorem summaries_agree_repeatedChunk :
    ∃ s, run (keptStep sha256OfBytes) repeatedChunk .init = some s ∧ s.kept.length = 3 ∧
      ∃ page, history [97] [109] ⟨none, none⟩ s.db = .ok page ∧
        ∀ e ∈ page, e.sequence = 1 → e.byteLength = 2 ∧ e.chunkCount = 2 := by
  have hinj : Set.InjOn sha256OfBytes (usedChunks repeatedChunk) := by
    rintro a ⟨_, _, _, _, _, ha, ha'⟩ b ⟨_, _, _, _, _, hb, hb'⟩ -
    have hone : ∀ {now w net data opts c}, Op.save now w net data opts ∈ repeatedChunk →
        c ∈ splitChunks data (opts.chunkSize.getD defaultChunkSize) → c = [1] := by
      intro now w net data opts c hop hc
      simp only [repeatedChunk, List.mem_cons, Op.save.injEq, List.not_mem_nil, or_false] at hop
      rcases hop with ⟨-, -, -, rfl, rfl⟩ | ⟨-, -, -, rfl, rfl⟩ | ⟨-, -, -, rfl, rfl⟩
      · rcases List.mem_cons.mp hc with h | h
        · exact h
        · exact List.mem_singleton.mp h
      · exact absurd hc List.not_mem_nil
      · exact List.mem_singleton.mp hc
    rw [hone ha ha', hone hb hb']
  have hlen : payloadsOk repeatedChunk := by
    intro now w net data opts hop
    simp only [repeatedChunk, List.mem_cons, Op.save.injEq, List.not_mem_nil, or_false] at hop
    rcases hop with ⟨-, -, -, rfl, -⟩ | ⟨-, -, -, rfl, -⟩ | ⟨-, -, -, rfl, -⟩ <;> decide
  obtain ⟨-, -, hhistory⟩ := summaries_agree hinj hlen (h := rfl)
  obtain ⟨page, hpage, -, hmem⟩ := hhistory [97] [109] ⟨none, none⟩ 50 none (by decide) rfl
  refine ⟨_, rfl, rfl, page, hpage, fun e he hseq => ?_⟩
  have hk := hmem ⟨⟨[97], [109], 1, [1, 1], 1, some [120]⟩, ⟨1, _, 2, 2, some [120], 0⟩⟩
    List.mem_cons_self rfl rfl e he hseq
  rw [hk]
  exact ⟨rfl, rfl⟩

end UmbraDB.Ckpt.History
