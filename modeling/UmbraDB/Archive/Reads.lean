import UmbraDB.Archive.Canonical
import UmbraDB.Lib.RangeScan
import Mathlib.Data.List.Lex

/-! # Chain archive: reading blocks

`getBlocksAtHeight`, `getCanonicalBlockAtHeight` and `getCanonicalChainRange`, between the steps of
any number of writers of `blocks`. Each is one statement outside of a transaction, so it sees the
committed rows, in any order (`Lists`). Hashes are bytes, as in `Blocks`; a height that is no
`bigint` is an error of the server and left out.

* `Recorded` : a row has the columns of the record that a committed call put.
* `blocks_immutable` : what `getBlocksAtHeight` returns, now and later.
* `canonical_range` : what the reads of the canonical chain return, now and later. -/

namespace UmbraDB.Archive.Reads

open UmbraDB.Js.Text UmbraDB.Lib.Runs UmbraDB.Lib.RowStore UmbraDB.Lib.RangeScan
open UmbraDB.Ckpt.Rows UmbraDB.Archive.Blocks UmbraDB.Archive.Canonical
open UmbraDB.Ckpt.RoundTrip (sha256OfByte)

/-! ### The reads -/

structure BlockMeta where
  net : JsString
  blockHash : Bytes
  height : ℕ
  parentHash : Bytes
  stateRoot : Bytes
  extrinsicsRoot : Bytes
  author : Option Bytes
  headerBlobHash : Bytes
  bodyBlobHash : Option Bytes
  isCanonical : Bool
  status : BlockStatus
  finalized : Bool
  deriving DecidableEq

def toBlockMeta (x : BlockKey × BlockRow) : BlockMeta :=
  ⟨x.1.net, x.1.blockHash, x.1.height, x.2.parentHash, x.2.stateRoot, x.2.extrinsicsRoot,
    x.2.author, x.2.headerBlobHash, x.2.bodyBlobHash, x.2.isCanonical, x.2.status, x.2.finalized⟩

/-- The rows of `blocks` that a statement outside of a transaction sees. -/
def committedBlocks (s : ArchiveState) : List (BlockKey × BlockRow) :=
  s.keys.filterMap fun k => (s.blocks.committed k).map fun r => (k, r)

def inNet (net : JsString) (x : BlockKey × BlockRow) : Bool := x.1.net == net

def canonicalIn (net : JsString) (x : BlockKey × BlockRow) : Bool :=
  inNet net x && x.2.isCanonical

def height (x : BlockKey × BlockRow) : ℕ := x.1.height

/-- `ORDER BY block_hash`. -/
def blockHash (x : BlockKey × BlockRow) : List ℕ := x.1.blockHash.map UInt8.toNat

def getBlocksAtHeight (rows : List (BlockKey × BlockRow)) (net : JsString) (h : ℤ) :
    List BlockMeta :=
  (scan blockHash (fun x => inNet net x && decide ((height x : ℤ) = h)) rows).map toBlockMeta

def getCanonicalBlockAtHeight (rows : List (BlockKey × BlockRow)) (net : JsString) (h : ℤ) :
    Option BlockMeta :=
  (rows.find? fun x => canonicalIn net x && decide ((height x : ℤ) = h)).map toBlockMeta

def between (fromHeight toHeight : ℤ) (h : ℕ) : Bool :=
  decide (fromHeight ≤ h) && decide ((h : ℤ) ≤ toHeight)

def getCanonicalChainRange (rows : List (BlockKey × BlockRow)) (net : JsString)
    (fromHeight toHeight : ℤ) : List BlockMeta :=
  (scan height (fun x => canonicalIn net x && between fromHeight toHeight (height x)) rows).map
    toBlockMeta

/-! ### Reads of a table -/

section Reads
variable {table : BlockKey → Option BlockRow} {rows : List (BlockKey × BlockRow)}

theorem uniqueKey_height (hl : Lists table rows) (net : JsString) (h : ℤ) :
    UniqueKey blockHash (fun x => inNet net x && decide ((height x : ℤ) = h)) rows := by
  refine hl.uniqueKey fun x y _ _ hpx hpy he => ?_
  simp only [inNet, Bool.and_eq_true, beq_iff_eq, decide_eq_true_eq] at hpx hpy
  have hheight : x.1.height = y.1.height := by
    have := hpx.2.trans hpy.2.symm
    exact_mod_cast this
  have hhash : x.1.blockHash = y.1.blockHash :=
    List.map_injective_iff.mpr (fun _ _ h => UInt8.toNat_inj.mp h) he
  obtain ⟨⟨net₁, h₁, b₁⟩, r₁⟩ := x
  obtain ⟨⟨net₂, h₂, b₂⟩, r₂⟩ := y
  obtain rfl : net₁ = net₂ := hpx.1.trans hpy.1.symm
  obtain rfl : h₁ = h₂ := hheight
  obtain rfl : b₁ = b₂ := hhash
  rfl

theorem mem_getBlocksAtHeight (hl : Lists table rows) {net : JsString} {h : ℤ} {x : BlockMeta} :
    x ∈ getBlocksAtHeight rows net h ↔ ∃ k r, table k = some r ∧ k.net = net ∧
      (k.height : ℤ) = h ∧ x = toBlockMeta (k, r) := by
  rw [getBlocksAtHeight, List.mem_map]
  constructor
  · rintro ⟨⟨k, r⟩, hy, rfl⟩
    rw [mem_scan, hl.mem] at hy
    simp only [inNet, Bool.and_eq_true, beq_iff_eq, decide_eq_true_eq] at hy
    exact ⟨k, r, hy.1, hy.2.1, hy.2.2, rfl⟩
  · rintro ⟨k, r, hr, rfl, rfl, rfl⟩
    refine ⟨(k, r), ?_, rfl⟩
    rw [mem_scan, hl.mem]
    simp [hr, inNet, height]

theorem mem_getCanonicalChainRange (hl : Lists table rows) {net : JsString} {a b : ℤ}
    {x : BlockMeta} : x ∈ getCanonicalChainRange rows net a b ↔ ∃ k r, table k = some r ∧
      k.net = net ∧ r.isCanonical = true ∧ between a b k.height = true ∧
      x = toBlockMeta (k, r) := by
  rw [getCanonicalChainRange, List.mem_map]
  constructor
  · rintro ⟨⟨k, r⟩, hy, rfl⟩
    rw [mem_scan, hl.mem] at hy
    simp only [canonicalIn, inNet, Bool.and_eq_true, beq_iff_eq] at hy
    exact ⟨k, r, hy.1, hy.2.1.1, hy.2.1.2, hy.2.2, rfl⟩
  · rintro ⟨k, r, hr, rfl, hc, hb, rfl⟩
    refine ⟨(k, r), ?_, rfl⟩
    rw [mem_scan, hl.mem]
    simp [hr, canonicalIn, inNet, hc, height, hb]

theorem getCanonicalBlockAtHeight_eq (net : JsString) (h : ℕ) :
    getCanonicalBlockAtHeight rows net h =
      (point height (canonicalIn net) rows h).map toBlockMeta := by
  simp only [getCanonicalBlockAtHeight, point, Int.natCast_inj]

/-- The range read is the list of the blocks read height by height. -/
theorem getCanonicalChainRange_eq {net : JsString} (hu : UniqueKey height (canonicalIn net) rows)
    (a b : ℤ) : getCanonicalChainRange rows net a b =
      ((List.range (b + 1).toNat).filter fun n : ℕ => decide (a ≤ n)).filterMap
        (fun n : ℕ => getCanonicalBlockAtHeight rows net n) := by
  have hpoints : scan height (fun x => canonicalIn net x && between a b (height x)) rows =
      ((List.range (b + 1).toNat).filter fun n : ℕ => decide (a ≤ n)).filterMap
        (point height (canonicalIn net) rows) := by
    refine scan_points hu (List.pairwise_lt_range.sublist List.filter_sublist) fun x _ _ => ?_
    simp only [between, Bool.and_eq_true, decide_eq_true_eq, List.mem_filter, List.mem_range]
    omega
  rw [getCanonicalChainRange, hpoints, List.map_filterMap]
  simp only [getCanonicalBlockAtHeight_eq]

end Reads

/-! ### Columns -/

/-- The columns that no `UPDATE` sets. -/
structure Columns where
  parentHash : Bytes
  stateRoot : Bytes
  extrinsicsRoot : Bytes
  author : Option Bytes
  headerBlobHash : Bytes
  bodyBlobHash : Option Bytes

def columns (r : BlockRow) : Columns :=
  ⟨r.parentHash, r.stateRoot, r.extrinsicsRoot, r.author, r.headerBlobHash, r.bodyBlobHash⟩

/-- The row has the columns of the record. -/
def RowOf (sha256 : Bytes → Bytes) (b : BlockRecord) (k : BlockKey) (r : BlockRow) : Prop :=
  b.key = k ∧ columns r = columns (b.row sha256)

/-- What a statement of `t` does to `blocks`. -/
inductive Change (sha256 : Bytes → Bytes) (s : ArchiveState) (t : ℕ) : ArchiveState → Prop
  | none {s' : ArchiveState} {work : Work} : s' = s.setWork t work →
    (∀ b, work = .put b .done → (s.blocks.view t b.key).isSome = true) → Change sha256 s t s'
  /-- An `UPDATE`. -/
  | updated {s' : ArchiveState} {k : BlockKey} {r row : BlockRow} {work : Work} :
    (∀ b, work ≠ .put b .done) →
    s' = { s.setWork t work with blocks := s.blocks.write t k (some row) } →
    s.blocks.free t k = true → s.blocks.view t k = some r → columns row = columns r →
    Change sha256 s t s'
  | inserted {s' : ArchiveState} {b : BlockRecord} :
    s' = { s.setWork t (.put b .done) with
      blocks := s.blocks.write t b.key (some (b.row sha256)), keys := noteKey s.keys b.key } →
    s.blocks.free t b.key = true → s.blocks.view t b.key = .none → Change sha256 s t s'

theorem change_of_demoteRow {sha256 : Bytes → Bytes} {s s' : ArchiveState} {t : ℕ} {k k' : BlockKey}
    {fin : Option Bool} {todo : List BlockKey} (h : demoteRowStep s t k fin todo k' = some s') :
    Change sha256 s t s' := by
  unfold demoteRowStep at h
  simp only at h
  split_ifs at h with hc
  split at h
  · cases h
    exact .none rfl fun b hb => by cases hb
  · rename_i r hr
    split_ifs at h
    · cases h
      exact .updated (by simp) rfl hc.2 hr rfl
    · cases h
      exact .none rfl fun b hb => by cases hb
    · cases h
      exact .updated (by simp) rfl hc.2 hr rfl

theorem change_of_promote {sha256 : Bytes → Bytes} {s s' : ArchiveState} {t : ℕ} {k : BlockKey}
    {fin : Option Bool} (h : promoteStep s t k fin = some s') : Change sha256 s t s' := by
  unfold promoteStep at h
  simp only at h
  split at h
  · cases h
    exact .none rfl fun b hb => by cases hb
  · rename_i r hr
    split_ifs at h with hf
    · cases h
      exact .none rfl fun b hb => by cases hb
    · cases h
      exact .none rfl fun b hb => by cases hb
    · cases h
      exact .none rfl fun b hb => by cases hb
    · cases h
      exact .updated (by simp) rfl (by simpa using hf) hr rfl

theorem change_of_insert {sha256 : Bytes → Bytes} {s s' : ArchiveState} {t : ℕ} {b : BlockRecord}
    (h : insertStep sha256 s t b = some s') : Change sha256 s t s' := by
  unfold insertStep at h
  simp only at h
  split_ifs at h with hc hv hf
  · cases h
    exact .none rfl fun b hb => by cases hb
  · cases h
    exact .none rfl fun b hb => by cases hb; exact hv
  · cases h
    exact .none rfl fun b hb => by cases hb
  · cases h
    exact .inserted rfl (by simpa using hf) (by simpa using hv)

/-- A statement, in a transaction whose call has not written its row yet. -/
theorem change_of_statement {sha256 : Bytes → Bytes} {s s' : ArchiveState} {t : ℕ} {e : Ev}
    (he : e = .exec t ∨ ∃ k, e = .demoteRow t k) (h : step sha256 s e = some s') :
    (s.txs t).status = .running ∧ (∀ b, (s.txs t).work ≠ .put b .done) ∧ Change sha256 s t s' := by
  rcases he with rfl | ⟨k', rfl⟩
  · simp only [step] at h
    split_ifs at h with hrun
    unfold execStep at h
    split at h
    · rename_i b hw
      exact ⟨hrun, by rw [hw]; simp, change_of_insert h⟩
    · rename_i k fin hw
      cases h
      exact ⟨hrun, by rw [hw]; simp, .none rfl fun b hb => by cases hb⟩
    · rename_i k fin hw
      exact ⟨hrun, by rw [hw]; simp, change_of_promote h⟩
    · cases h
  · simp only [step] at h
    split_ifs at h with hrun
    split at h
    · rename_i k fin todo hw
      exact ⟨hrun, by rw [hw]; simp, change_of_demoteRow h⟩
    · cases h

/-- Where the rows come from. -/
structure Recorded (sha256 : Bytes → Bytes) (s : ArchiveState) : Prop where
  keys : s.keys.Nodup
  committed : ∀ k r, s.blocks.committed k = some r →
    ∃ t b, s.txs t = ⟨.committed, .put b .done⟩ ∧ RowOf sha256 b k r
  /-- A row that a transaction holds is a version of the committed one, or the one it has put. -/
  held : ∀ k t r, s.blocks.held k = some (t, some r) →
    (∃ r₀, s.blocks.committed k = some r₀ ∧ columns r = columns r₀) ∨
      s.blocks.committed k = none ∧ ∃ b, (s.txs t).work = .put b .done ∧ RowOf sha256 b k r

namespace Recorded

variable {sha256 : Bytes → Bytes} {s s' : ArchiveState}

theorem init : Recorded sha256 .init :=
  ⟨List.nodup_nil, fun _ _ h => (by cases h), fun _ _ _ h => (by cases h)⟩

theorem nodup_noteKey {keys : List BlockKey} (h : keys.Nodup) (k : BlockKey) :
    (noteKey keys k).Nodup := by
  unfold noteKey
  split
  · exact h
  · rename_i hk
    rw [List.contains_iff_mem] at hk
    exact List.nodup_append.mpr ⟨h, List.nodup_singleton k, fun a ha b hb hab =>
      hk (by rw [List.mem_singleton] at hb; rwa [← hb, ← hab])⟩

/-- The version of a row that a transaction sees has the columns of the committed one. -/
theorem view_columns (hr : Recorded sha256 s) {t : ℕ} {k : BlockKey} {r r₀ : BlockRow}
    (hv : s.blocks.view t k = some r) (hc : s.blocks.committed k = some r₀) :
    columns r = columns r₀ := by
  rcases s.blocks.view_cases t k with hh | ⟨-, he⟩
  · rw [hv] at hh
    rcases hr.held k t r hh with ⟨r₁, h₁, heq⟩ | ⟨hn, -⟩
    · cases hc.symm.trans h₁
      exact heq
    · cases hc.symm.trans hn
  · cases (hv.symm.trans he).trans hc
    rfl

/-- A step in a transaction that runs, or has not begun, and that changes no row. -/
theorem of_txs (hr : Recorded sha256 s) (hs : Inv s) {t : ℕ} {x : Tx}
    (hst : (s.txs t).status ≠ .committed) (hwork : ∀ b, (s.txs t).work ≠ .put b .done ∨
      (s.txs t).status = .idle) :
    Recorded sha256 { s with txs := Function.update s.txs t x } := by
  refine ⟨hr.keys, fun k r hk => ?_, fun k t' r hh => ?_⟩
  · obtain ⟨t', b, ht', hrow⟩ := hr.committed k r hk
    have hne : t' ≠ t := by
      rintro rfl
      rw [ht'] at hst
      exact hst rfl
    exact ⟨t', b, (Function.update_of_ne hne _ _).trans ht', hrow⟩
  · rcases hr.held k t' r hh with h | ⟨hn, b, hw, hrow⟩
    · exact Or.inl h
    · refine Or.inr ⟨hn, b, ?_, hrow⟩
      have hne : t' ≠ t := by
        rintro rfl
        rcases hwork b with h | h
        · exact h hw
        · rw [hs.running k t' (some r) hh] at h
          cases h
      show (Function.update s.txs t x t').work = _
      rw [Function.update_of_ne hne, hw]

theorem change (hr : Recorded sha256 s) (hs : Inv s) {t : ℕ}
    (hrun : (s.txs t).status = .running) (hwork : ∀ b, (s.txs t).work ≠ .put b .done)
    (h : Change sha256 s t s') : Recorded sha256 s' := by
  have hquiet : ∀ work, Recorded sha256 (s.setWork t work) := fun work =>
    hr.of_txs hs (by rw [hrun]; simp) fun b => Or.inl (hwork b)
  cases h with
  | none he =>
    rw [he]
    exact hquiet _
  | @updated k r row work _ he hf hv hcol =>
    subst he
    have hq := hquiet work
    refine ⟨hq.keys, hq.committed, fun k' t' r' hh => ?_⟩
    change (s.blocks.write t k (some row)).held k' = some (t', some r') at hh
    by_cases hk : k' = k
    · subst hk
      rw [Table.write_held_self] at hh
      cases hh
      -- the new version is one of the row that `t` saw
      rcases s.blocks.view_cases t k' with h' | ⟨-, h'⟩
      · rw [hv] at h'
        rcases hr.held k' t r h' with ⟨r₀, h₀, heq⟩ | ⟨-, b, hw, -⟩
        · exact Or.inl ⟨r₀, h₀, hcol.trans heq⟩
        · exact absurd hw (hwork b)
      · exact Or.inl ⟨r, h'.symm.trans hv, hcol⟩
    · rw [Table.write_held_ne _ _ _ hk] at hh
      exact hq.held k' t' r' hh
  | @inserted b he hf hv =>
    subst he
    have hq := hquiet (.put b .done)
    refine ⟨nodup_noteKey hr.keys b.key, hq.committed, fun k' t' r' hh => ?_⟩
    change (s.blocks.write t b.key (some (b.row sha256))).held k' = some (t', some r') at hh
    by_cases hk : k' = b.key
    · subst hk
      rw [Table.write_held_self] at hh
      cases hh
      have hnone : s.blocks.committed b.key = none := by
        rcases s.blocks.view_cases t b.key with h' | ⟨-, h'⟩
        · rw [hv] at h'
          have := hs.some_row b.key t none h'
          cases this
        · rw [← h', hv]
      refine Or.inr ⟨hnone, b, ?_, rfl, rfl⟩
      exact ArchiveState.setWork_work_self s t _
    · rw [Table.write_held_ne _ _ _ hk] at hh
      exact hq.held k' t' r' hh

theorem commit (hr : Recorded sha256 s) {t : ℕ}
    (hrun : (s.txs t).status = .running) :
    Recorded sha256 { s.setStatus t .committed with blocks := s.blocks.commit t } := by
  have hrecord : ∀ {t' b}, s.txs t' = ⟨.committed, .put b .done⟩ →
      (s.setStatus t .committed).txs t' = ⟨.committed, .put b .done⟩ := by
    intro t' b ht'
    have hne : t' ≠ t := by
      rintro rfl
      rw [ht'] at hrun
      cases hrun
    rw [ArchiveState.setStatus_ne s _ hne, ht']
  refine ⟨hr.keys, fun k r hk => ?_, fun k t' r hh => ?_⟩
  · change s.blocks.view t k = some r at hk
    rcases s.blocks.view_cases t k with hh | ⟨-, hv⟩
    · rw [hk] at hh
      rcases hr.held k t r hh with ⟨r₀, h₀, heq⟩ | ⟨-, b, hw, hrow⟩
      · obtain ⟨t', b, ht', hkey, hcol⟩ := hr.committed k r₀ h₀
        exact ⟨t', b, hrecord ht', hkey, heq.trans hcol⟩
      · refine ⟨t, b, ?_, hrow⟩
        change (s.setStatus t .committed).txs t = _
        rw [ArchiveState.setStatus_self, hw]
    · obtain ⟨t', b, ht', hrow⟩ := hr.committed k r (by rw [← hv, hk])
      exact ⟨t', b, hrecord ht', hrow⟩
  · obtain ⟨hh, hne⟩ := Table.unlock_eq_some.mp hh
    have hv : s.blocks.view t k = s.blocks.committed k := Table.view_of_other hh hne
    rcases hr.held k t' r hh with ⟨r₀, h₀, heq⟩ | ⟨hn, b, hw, hrow⟩
    · exact Or.inl ⟨r₀, hv.trans h₀, heq⟩
    · refine Or.inr ⟨hv.trans hn, b, ?_, hrow⟩
      change ((s.setStatus t .committed).txs t').work = _
      rw [ArchiveState.setStatus_ne s _ hne, hw]

theorem rollback (hr : Recorded sha256 s) {t : ℕ} (hrun : (s.txs t).status = .running) :
    Recorded sha256 { s.setStatus t .rolledBack with blocks := s.blocks.rollback t } := by
  refine ⟨hr.keys, fun k r hk => ?_, fun k t' r hh => ?_⟩
  · obtain ⟨t', b, ht', hrow⟩ := hr.committed k r hk
    have hne : t' ≠ t := by
      rintro rfl
      rw [ht'] at hrun
      cases hrun
    exact ⟨t', b, (ArchiveState.setStatus_ne s _ hne).trans ht', hrow⟩
  · obtain ⟨hh, hne⟩ := Table.unlock_eq_some.mp hh
    rcases hr.held k t' r hh with h | ⟨hn, b, hw, hrow⟩
    · exact Or.inl h
    · refine Or.inr ⟨hn, b, ?_, hrow⟩
      change ((s.setStatus t .rolledBack).txs t').work = _
      rw [ArchiveState.setStatus_ne s _ hne, hw]

theorem step (hr : Recorded sha256 s) (hs : Inv s) {e : Ev} (h : step sha256 s e = some s') :
    Recorded sha256 s' := by
  have hidle : ∀ {t x}, (s.txs t).status = .idle →
      Recorded sha256 { s with txs := Function.update s.txs t x } := fun hi =>
    hr.of_txs hs (by rw [hi]; simp) fun _ => Or.inr hi
  cases e with
  | beginPut t b =>
    obtain ⟨hc, h⟩ := Option.ite_none_right_eq_some.mp h
    cases h
    exact hidle hc.1
  | beginSet t k fin =>
    obtain ⟨hc, h⟩ := Option.ite_none_right_eq_some.mp h
    cases h
    exact hidle hc.1
  | exec t =>
    obtain ⟨hrun, hwork, hch⟩ := change_of_statement (Or.inl rfl) h
    exact hr.change hs hrun hwork hch
  | demoteRow t k =>
    obtain ⟨hrun, hwork, hch⟩ := change_of_statement (Or.inr ⟨k, rfl⟩) h
    exact hr.change hs hrun hwork hch
  | commit t =>
    obtain ⟨hc, h⟩ := Option.ite_none_right_eq_some.mp h
    cases h
    exact hr.commit hc.1
  | rollback t =>
    obtain ⟨hrun, h⟩ := Option.ite_none_right_eq_some.mp h
    cases h
    exact hr.rollback hrun

/-- The committed rows stay, with their columns. -/
theorem columns_step (hr : Recorded sha256 s) (hs : Inv s) {e : Ev}
    (h : Blocks.step sha256 s e = some s') {k : BlockKey} {r : BlockRow}
    (hk : s.blocks.committed k = some r) :
    ∃ r', s'.blocks.committed k = some r' ∧ columns r' = columns r := by
  by_cases he : ∃ t, e = .commit t
  · obtain ⟨t, rfl⟩ := he
    obtain ⟨-, h⟩ := Option.ite_none_right_eq_some.mp h
    cases h
    change ∃ r', s.blocks.view t k = some r' ∧ columns r' = columns r
    rcases s.blocks.view_cases t k with hh | ⟨-, hv⟩
    · obtain ⟨r', hr'⟩ := Option.isSome_iff_exists.mp (hs.some_row k t _ hh)
      exact ⟨r', hr', hr.view_columns hr' hk⟩
    · exact ⟨r, hv.trans hk, rfl⟩
  · exact ⟨r, by rw [committed_step hs h fun t ht => he ⟨t, ht⟩, hk], rfl⟩

end Recorded

/-! ### What has been put -/

/-- A call that has put its record finds a row with its key. -/
def Stored (s : ArchiveState) : Prop :=
  ∀ t b, (s.txs t).work = .put b .done →
    (s.txs t).status = .running ∨ (s.txs t).status = .committed →
    (s.blocks.view t b.key).isSome = true

section Stored
variable {sha256 : Bytes → Bytes} {s s' : ArchiveState}

theorem view_isSome_commit (hs : Inv s) {t t' : ℕ} {k : BlockKey}
    (h : (s.blocks.view t' k).isSome = true) : ((s.blocks.commit t).view t' k).isSome = true := by
  have hcommitted : (s.blocks.committed k).isSome = true → (s.blocks.view t k).isSome = true := by
    intro hc
    rcases s.blocks.view_cases t k with hh | ⟨-, hv⟩
    · exact hs.some_row k t _ hh
    · rw [hv, hc]
  by_cases ht : t' = t
  · subst ht
    have hnone : ∀ r, (s.blocks.commit t').held k ≠ some (t', r) := fun r hr =>
      (Table.unlock_eq_some.mp hr).2 rfl
    rw [Table.view_eq_committed hnone, Table.commit_committed, h]
  · rcases s.blocks.view_cases t' k with hh | ⟨hn, hv⟩
    · rw [Table.view_of_held (Table.unlock_eq_some.mpr ⟨hh, ht⟩), h]
    · have hnone : ∀ r, (s.blocks.commit t).held k ≠ some (t', r) := fun r hr =>
        hn r (Table.unlock_eq_some.mp hr).1
      rw [Table.view_eq_committed hnone, Table.commit_committed]
      exact hcommitted (by rw [← hv, h])

theorem view_isSome_write {t t' : ℕ} {k k' : BlockKey} {row : BlockRow}
    (hf : s.blocks.free t k = true) (h : (s.blocks.view t' k').isSome = true) :
    ((s.blocks.write t k (some row)).view t' k').isSome = true := by
  by_cases ht : t = t'
  · subst ht
    by_cases hk : k' = k
    · subst hk
      rw [Table.view_write_self]
      rfl
    · rw [Table.view_write_ne _ _ _ _ hk, h]
  · rw [Table.view_write_other _ hf ht, h]

theorem stored_begin (h : Stored s) {t : ℕ} {work : Work} (hwork : ∀ b, work ≠ .put b .done) :
    Stored { s with txs := Function.update s.txs t ⟨.running, work⟩ } := by
  intro t' b hw hst
  by_cases ht : t' = t
  · subst ht
    exact absurd (by simpa using hw) (hwork b)
  · exact h t' b (by simpa [ht] using hw) (by simpa [ht] using hst)

theorem stored_change (h : Stored s) {t : ℕ} (hch : Change sha256 s t s') : Stored s' := by
  have hwork : ∀ {t' work b}, ((s.setWork t work).txs t').work = .put b .done →
      t' = t ∧ work = .put b .done ∨ t' ≠ t ∧ (s.txs t').work = .put b .done := by
    intro t' work b hw
    by_cases ht : t' = t
    · subst ht
      exact Or.inl ⟨rfl, by simpa using hw⟩
    · rw [ArchiveState.setWork_ne s work ht] at hw
      exact Or.inr ⟨ht, hw⟩
  intro t' b hw hst
  cases hch with
  | none he hsee =>
    subst he
    rw [ArchiveState.setWork_status] at hst
    rcases hwork hw with ⟨rfl, hw'⟩ | ⟨-, hw'⟩
    · exact hsee b hw'
    · exact h t' b hw' hst
  | @updated k r row work hput he hf hv hcol =>
    subst he
    rcases hwork hw with ⟨rfl, hw'⟩ | ⟨-, hw'⟩
    · exact absurd hw' (hput b)
    · exact view_isSome_write hf (h t' b hw' (by rwa [← ArchiveState.setWork_status s t t' work]))
  | @inserted b' he hf hv =>
    subst he
    change ((s.blocks.write t b'.key (some (b'.row sha256))).view t' b.key).isSome = true
    rcases hwork hw with ⟨rfl, hb⟩ | ⟨-, hw'⟩
    · cases hb
      rw [Table.view_write_self]
      rfl
    · exact view_isSome_write hf
        (h t' b hw' (by rwa [← ArchiveState.setWork_status s t t' (.put b' .done)]))

theorem stored_end (h : Stored s) {t : ℕ} {status : Status}
    {blocks : Table ℕ BlockKey (Option BlockRow)}
    (hrun : (s.txs t).status = .running) (hblocks : ∀ t' k, (status = .committed ∨ t' ≠ t) →
      (s.blocks.view t' k).isSome = true → (blocks.view t' k).isSome = true)
    (hstatus : status ≠ .running) : Stored { s.setStatus t status with blocks } := by
  intro t' b hw hst
  change ((s.setStatus t status).txs t').work = _ at hw
  change ((s.setStatus t status).txs t').status = _ ∨
    ((s.setStatus t status).txs t').status = _ at hst
  by_cases ht : t' = t
  · subst ht
    rw [ArchiveState.setStatus_self] at hw hst
    have hcom : status = .committed := hst.resolve_left hstatus
    exact hblocks t' _ (Or.inl hcom) (h t' b hw (Or.inl hrun))
  · rw [ArchiveState.setStatus_ne s _ ht] at hw hst
    exact hblocks t' _ (Or.inr ht) (h t' b hw hst)

theorem stored_step (h : Stored s) (hs : Inv s) {e : Ev} (hst : step sha256 s e = some s') :
    Stored s' := by
  cases e with
  | beginPut t b =>
    obtain ⟨-, hst⟩ := Option.ite_none_right_eq_some.mp hst
    cases hst
    exact stored_begin h (by simp)
  | beginSet t k fin =>
    obtain ⟨-, hst⟩ := Option.ite_none_right_eq_some.mp hst
    cases hst
    exact stored_begin h (by simp)
  | exec t => exact stored_change h (change_of_statement (Or.inl rfl) hst).2.2
  | demoteRow t k => exact stored_change h (change_of_statement (Or.inr ⟨k, rfl⟩) hst).2.2
  | commit t =>
    obtain ⟨hc, hst⟩ := Option.ite_none_right_eq_some.mp hst
    cases hst
    exact stored_end h hc.1 (fun _ _ _ hv => view_isSome_commit hs hv) (by simp)
  | rollback t =>
    obtain ⟨hrun, hst⟩ := Option.ite_none_right_eq_some.mp hst
    cases hst
    refine stored_end h hrun (fun t' k ht hv => ?_) (by simp)
    have hne : t' ≠ t := ht.resolve_left (by simp)
    rw [(Table.sameFor_rollback hne).view rfl]
    exact hv

/-- The row of a committed call is committed. -/
theorem Stored.committed (h : Stored s) (hs : Inv s) {t : ℕ} {b : BlockRecord}
    (ht : s.txs t = ⟨.committed, .put b .done⟩) : (s.blocks.committed b.key).isSome = true := by
  have hnone : ∀ r, s.blocks.held b.key ≠ some (t, r) := by
    intro r hr
    have := hs.running b.key t r hr
    rw [ht] at this
    cases this
  rw [← Table.view_eq_committed hnone]
  exact h t b (by rw [ht]) (Or.inr (by rw [ht]))

end Stored

/-! ### What is read -/

structure ReadInv (sha256 : Bytes → Bytes) (s : ArchiveState) : Prop where
  inv : Inv s
  recorded : Recorded sha256 s
  stored : Stored s

namespace ReadInv

variable {sha256 : Bytes → Bytes} {s s' : ArchiveState}

theorem init : ReadInv sha256 .init :=
  ⟨.init, .init, fun _ _ h _ => (by cases h)⟩

theorem step (hs : ReadInv sha256 s) {e : Ev} (h : step sha256 s e = some s') :
    ReadInv sha256 s' :=
  ⟨hs.inv.step h, hs.recorded.step hs.inv h, stored_step hs.stored hs.inv h⟩

theorem lists (hs : ReadInv sha256 s) : Lists s.blocks.committed (committedBlocks s) := by
  refine ⟨?_, fun k r => ?_⟩
  · refine List.pairwise_filterMap.mpr (hs.recorded.keys.imp fun {k k'} hne x hx y hy => ?_)
    obtain ⟨r, -, rfl⟩ := Option.map_eq_some_iff.mp hx
    obtain ⟨r', -, rfl⟩ := Option.map_eq_some_iff.mp hy
    exact fun he => hne (congrArg Prod.fst he)
  · rw [committedBlocks, List.mem_filterMap]
    constructor
    · rintro ⟨k', -, hk⟩
      obtain ⟨r', hr, he⟩ := Option.map_eq_some_iff.mp hk
      cases he
      exact hr
    · intro h
      exact ⟨k, hs.inv.keyed k (by rw [h]; rfl), by rw [h]; rfl⟩

theorem uniqueKey_canonical (hs : ReadInv sha256 s) {rows : List (BlockKey × BlockRow)}
    (hl : Lists s.blocks.committed rows) (net : JsString) :
    UniqueKey height (canonicalIn net) rows := by
  refine hl.uniqueKey fun x y hx hy hpx hpy he => ?_
  simp only [canonicalIn, inNet, Bool.and_eq_true, beq_iff_eq] at hpx hpy
  refine hs.inv.wellFormed.unique x.1 y.1 ⟨hpx.1.trans hpy.1.symm, he⟩ ?_ ?_
  · rw [hx]
    exact hpx.2
  · rw [hy]
    exact hpy.2

end ReadInv

/-- What the reads of two states have in common, the second one later. -/
structure LaterRows (s s' : ArchiveState) : Prop where
  later : Later s s'
  columns : ∀ k r, s.blocks.committed k = some r →
    ∃ r', s'.blocks.committed k = some r' ∧ columns r' = columns r

theorem laterRows_run {sha256 : Bytes → Bytes} {es : List Ev} {s s' : ArchiveState}
    (hs : ReadInv sha256 s) (h : run (step sha256) es s = some s') :
    ReadInv sha256 s' ∧ LaterRows s s' := by
  refine run_inv (I := fun s' => ReadInv sha256 s' ∧ LaterRows s s') (fun s₁ e s₂ hI hst => ?_) es s
    s' ⟨hs, .of_eq rfl, fun k r hr => ⟨r, hr, rfl⟩⟩ h
  refine ⟨hI.1.step hst, hI.2.later.trans (later_step hI.1.inv hst), fun k r hr => ?_⟩
  obtain ⟨r₁, h₁, hc₁⟩ := hI.2.columns k r hr
  obtain ⟨r₂, h₂, hc₂⟩ := hI.1.recorded.columns_step hI.1.inv hst h₁
  exact ⟨r₂, h₂, hc₂.trans hc₁⟩

theorem readInv_run {sha256 : Bytes → Bytes} {es : List Ev} {s : ArchiveState}
    (h : run (step sha256) es .init = some s) : ReadInv sha256 s :=
  run_inv (fun _ _ _ hI hst => hI.step hst) es _ _ .init h

/-- The block that is read is that of the record, up to its flags. -/
def MetaOf (sha256 : Bytes → Bytes) (b : BlockRecord) (x : BlockMeta) : Prop :=
  x = ⟨b.net, b.blockHash, b.height, b.parentHash, b.stateRoot, b.extrinsicsRoot, b.author,
    sha256 b.headerBytes, b.bodyBytes.map sha256, x.isCanonical, x.status, x.finalized⟩

/-- The same block, up to its flags. -/
def SameBlock (x y : BlockMeta) : Prop :=
  y = { x with isCanonical := y.isCanonical, status := y.status, finalized := y.finalized }

theorem sameBlock_of_columns {k : BlockKey} {r r' : BlockRow} (h : columns r' = columns r) :
    SameBlock (toBlockMeta (k, r)) (toBlockMeta (k, r')) := by
  unfold columns at h
  rw [Columns.mk.injEq] at h
  obtain ⟨h1, h2, h3, h4, h5, h6⟩ := h
  simp only [SameBlock, toBlockMeta, h1, h2, h3, h4, h5, h6]

theorem metaOf_of_rowOf {sha256 : Bytes → Bytes} {b : BlockRecord} {k : BlockKey} {r : BlockRow}
    (h : RowOf sha256 b k r) : MetaOf sha256 b (toBlockMeta (k, r)) := by
  obtain ⟨rfl, h⟩ := h
  unfold columns at h
  rw [Columns.mk.injEq] at h
  obtain ⟨h1, h2, h3, h4, h5, h6⟩ := h
  simp only [MetaOf, toBlockMeta, h1, h2, h3, h4, h5, h6]
  rfl

/-- **Blocks are what was put, and stay.** In every state reached by any interleaving of the
writers, the blocks read at a height are those of the records that committed calls have put there,
each hash once and in the order of the hashes, and in every later state the same blocks are read,
up to their flags. -/
theorem blocks_immutable (sha256 : Bytes → Bytes) {es es' : List Ev} {s s' : ArchiveState}
    (h : run (step sha256) es .init = some s) (h' : run (step sha256) es' s = some s')
    {rows rows' : List (BlockKey × BlockRow)} (hl : Lists s.blocks.committed rows)
    (hl' : Lists s'.blocks.committed rows') :
    (∀ net height, (getBlocksAtHeight rows net height).Pairwise fun x y =>
      x.blockHash.map UInt8.toNat < y.blockHash.map UInt8.toNat) ∧
    (∀ net height, ∀ x ∈ getBlocksAtHeight rows net height, x.net = net ∧ (x.height : ℤ) = height ∧
      ∃ t b, s.txs t = ⟨.committed, .put b .done⟩ ∧ MetaOf sha256 b x) ∧
    (∀ t b, s.txs t = ⟨.committed, .put b .done⟩ →
      ∃ x ∈ getBlocksAtHeight rows b.net b.height, x.blockHash = b.blockHash) ∧
    ∀ net height, ∀ x ∈ getBlocksAtHeight rows net height,
      ∃ y ∈ getBlocksAtHeight rows' net height, SameBlock x y := by
  have hs : ReadInv sha256 s := readInv_run h
  obtain ⟨hs', hlater⟩ := laterRows_run hs h'
  refine ⟨fun net height => ?_, fun net height x hx => ?_, fun t b ht => ?_,
    fun net height x hx => ?_⟩
  · exact List.pairwise_map.mpr (scan_ascending (uniqueKey_height hl net height))
  · obtain ⟨k, r, hr, rfl, rfl, rfl⟩ := (mem_getBlocksAtHeight hl).mp hx
    obtain ⟨t, b, ht, hrow⟩ := hs.recorded.committed k r hr
    exact ⟨rfl, rfl, t, b, ht, metaOf_of_rowOf hrow⟩
  · obtain ⟨r, hr⟩ := Option.isSome_iff_exists.mp (hs.stored.committed hs.inv ht)
    exact ⟨toBlockMeta (b.key, r),
      (mem_getBlocksAtHeight hl).mpr ⟨b.key, r, hr, rfl, rfl, rfl⟩, rfl⟩
  · obtain ⟨k, r, hr, rfl, rfl, rfl⟩ := (mem_getBlocksAtHeight hl).mp hx
    obtain ⟨r', hr', hc⟩ := hlater.columns k r hr
    exact ⟨toBlockMeta (k, r'), (mem_getBlocksAtHeight hl').mpr ⟨k, r', hr', rfl, rfl, rfl⟩,
      sameBlock_of_columns hc⟩

/-- **The canonical chain.** In every state reached by any interleaving of the writers, the range
read has strictly ascending heights and is the list of the blocks read height by height, so ranges
can be read in parts. Each of its blocks is canonical and one that a committed call has put. In
every later state each height of the range still has a canonical block, and the finalized blocks of
the range are read unchanged. -/
theorem canonical_range (sha256 : Bytes → Bytes) {es es' : List Ev} {s s' : ArchiveState}
    (h : run (step sha256) es .init = some s) (h' : run (step sha256) es' s = some s')
    {rows rows' : List (BlockKey × BlockRow)} (hl : Lists s.blocks.committed rows)
    (hl' : Lists s'.blocks.committed rows') (net : JsString) (a b : ℤ) :
    (getCanonicalChainRange rows net a b).Pairwise (fun x y => x.height < y.height) ∧
    getCanonicalChainRange rows net a b =
      ((List.range (b + 1).toNat).filter fun n : ℕ => decide (a ≤ n)).filterMap
        (fun n : ℕ => getCanonicalBlockAtHeight rows net n) ∧
    (∀ m, a ≤ m + 1 → m ≤ b → getCanonicalChainRange rows net a b =
      getCanonicalChainRange rows net a m ++ getCanonicalChainRange rows net (m + 1) b) ∧
    (∀ x ∈ getCanonicalChainRange rows net a b, x.net = net ∧ x.isCanonical = true ∧
      x.status = .canonical ∧ ∃ t b, s.txs t = ⟨.committed, .put b .done⟩ ∧ MetaOf sha256 b x) ∧
    ∀ x ∈ getCanonicalChainRange rows net a b,
      (∃ y ∈ getCanonicalChainRange rows' net a b, y.height = x.height) ∧
      (x.finalized = true → x ∈ getCanonicalChainRange rows' net a b) := by
  have hs : ReadInv sha256 s := readInv_run h
  obtain ⟨hs', hlater⟩ := laterRows_run hs h'
  have hu := hs.uniqueKey_canonical hl net
  refine ⟨?_, ?_, fun m ham hmb => ?_, fun x hx => ?_, fun x hx => ?_⟩
  · exact List.pairwise_map.mpr (scan_ascending (hu.mono fun r h => (Bool.and_eq_true _ _ ▸ h).1))
  · exact getCanonicalChainRange_eq hu a b
  · rw [getCanonicalChainRange, getCanonicalChainRange, getCanonicalChainRange, ← List.map_append]
    congr 1
    refine scan_append hu (fun k => ?_) fun k k' hk hk' => ?_
    · rw [Bool.eq_iff_iff]
      simp only [between, Bool.and_eq_true, Bool.or_eq_true, decide_eq_true_eq]
      omega
    · simp only [between, Bool.and_eq_true, decide_eq_true_eq] at hk hk'
      omega
  · obtain ⟨k, r, hr, rfl, hc, -, rfl⟩ := (mem_getCanonicalChainRange hl).mp hx
    obtain ⟨t, b, ht, hrow⟩ := hs.recorded.committed k r hr
    exact ⟨rfl, hc, (hs.inv.wellFormed.status k r hr).mpr hc, t, b, ht, metaOf_of_rowOf hrow⟩
  · obtain ⟨k, r, hr, rfl, hc, hb, rfl⟩ := (mem_getCanonicalChainRange hl).mp hx
    constructor
    · obtain ⟨k', hk', hcan⟩ := hlater.later.canonical k (by rw [hr]; exact hc)
      obtain ⟨r', hr', hc'⟩ := (Option.any_eq_true _ _).mp hcan
      obtain ⟨hnet, hheight⟩ := Prod.mk.inj hk'
      refine ⟨toBlockMeta (k', r'), (mem_getCanonicalChainRange hl').mpr
        ⟨k', r', hr', hnet, hc', by rw [hheight]; exact hb, rfl⟩, hheight⟩
    · intro hfin
      obtain ⟨r', hr', hfin'⟩ := hlater.later.finalized k r hr hfin
      obtain ⟨r₁, hr₁, hcol⟩ := hlater.columns k r hr
      obtain rfl : r' = r₁ := Option.some.inj (hr'.symm.trans hr₁)
      have hcan' : r'.isCanonical = true := hs'.inv.wellFormed.finalized k r' hr' hfin'
      have hstatus : r'.status = r.status :=
        ((hs'.inv.wellFormed.status k r' hr').mpr hcan').trans
          ((hs.inv.wellFormed.status k r hr).mpr hc).symm
      have heq : toBlockMeta (k, r') = toBlockMeta (k, r) := by
        have hsame := sameBlock_of_columns (k := k) hcol
        rw [hsame]
        have hfin : r.finalized = true := hfin
        simp only [toBlockMeta, hcan', hc, hstatus, hfin', hfin]
      rw [← heq]
      exact (mem_getCanonicalChainRange hl').mpr ⟨k, r', hr', rfl, hcan', hb, rfl⟩

/-- The run of `concurrentFlips` up to the finalized block 2, and the rest of it. -/
theorem canonical_range_concurrentFlips : ∃ s s',
    run (step sha256OfByte) (concurrentFlips.take 23) .init = some s ∧
    run (step sha256OfByte) (concurrentFlips.drop 23) s = some s' ∧
    (getCanonicalChainRange (committedBlocks s) [109] 0 9).map (fun x => (x.height, x.finalized)) =
      [(7, true)] ∧
    getCanonicalChainRange (committedBlocks s) [109] 0 9 =
      getCanonicalChainRange (committedBlocks s) [109] 0 6 ++
        getCanonicalChainRange (committedBlocks s) [109] 7 9 := by
  have hr : ∃ s s', run (step sha256OfByte) (concurrentFlips.take 23) .init = some s ∧
      run (step sha256OfByte) (concurrentFlips.drop 23) s = some s' := ⟨_, _, rfl, rfl⟩
  obtain ⟨s, s', hs, hs'⟩ := hr
  refine ⟨s, s', hs, hs', ?_,
    (canonical_range sha256OfByte hs hs' (readInv_run hs).lists
      (laterRows_run (readInv_run hs) hs').1.lists [109] 0 9).2.2.1 6 (by decide) (by decide)⟩
  cases hs
  rfl

theorem blocks_immutable_concurrentFlips : ∃ s s',
    run (step sha256OfByte) (concurrentFlips.take 6) .init = some s ∧
    run (step sha256OfByte) (concurrentFlips.drop 6) s = some s' ∧
    (getBlocksAtHeight (committedBlocks s) [109] 7).map (·.isCanonical) = [true, false] ∧
    (getBlocksAtHeight (committedBlocks s') [109] 7).map (·.isCanonical) = [false, true, false] ∧
    (getBlocksAtHeight (committedBlocks s) [109] 7).Pairwise fun x y =>
      x.blockHash.map UInt8.toNat < y.blockHash.map UInt8.toNat := by
  have hr : ∃ s s', run (step sha256OfByte) (concurrentFlips.take 6) .init = some s ∧
      run (step sha256OfByte) (concurrentFlips.drop 6) s = some s' := ⟨_, _, rfl, rfl⟩
  obtain ⟨s, s', hs, hs'⟩ := hr
  refine ⟨s, s', hs, hs', ?_, ?_, (blocks_immutable sha256OfByte hs hs' (readInv_run hs).lists
    (laterRows_run (readInv_run hs) hs').1.lists).1 [109] 7⟩
  · cases hs
    rfl
  · cases hs
    cases hs'
    rfl

end UmbraDB.Archive.Reads
