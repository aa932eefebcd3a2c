import UmbraDB.Archive.Cursor
import UmbraDB.Archive.Reads

/-! # Chain archive: what is read is what was reported

The reads of blocks and transactions, between the steps of any number of `syncOnce` calls. A bundle
is committed at once, so for each height the archive has nothing or all of it (`Whole`), and a read
returns the answers of the node and of the indexer (`reportedBlock`, `reportedTransactions`) for the
heights it has: those up to the sync cursor, and perhaps more.

`result` of a transaction is not reported and left out. Of the reads by hash, the check of the hash
is modelled; the hashes that are returned are bytes.

* `archive_mirrors_chain` : every read, in every reachable state. -/

namespace UmbraDB.Archive.Mirror

open UmbraDB.Js.Text UmbraDB.Lib.Runs UmbraDB.Lib.RowStore UmbraDB.Lib.InsertOnly
open UmbraDB.Lib.Fallible UmbraDB.Lib.RangeScan UmbraDB.Ckpt.Rows
open UmbraDB.Archive.Blocks (BlockKey BlockRow BlockRecord)
open UmbraDB.Archive.Sync UmbraDB.Archive.Cursor UmbraDB.Archive.Reads
open UmbraDB.Ckpt.RoundTrip (sha256OfByte)

/-! ### The reads of transactions -/

structure TransactionMeta where
  net : JsString
  txHash : Bytes
  blockHeight : ℕ
  blockHash : Bytes
  position : ℕ
  kind : TxKind
  protocolVersion : ℕ
  rawBlobHash : Bytes
  deriving DecidableEq

def toTxMeta (x : TxKey × TxRow) : TransactionMeta :=
  ⟨x.1.block.net, x.1.txHash, x.1.block.height, x.1.block.blockHash, x.2.position, x.2.kind,
    x.2.protocolVersion, x.2.rawBlobHash⟩

def position (x : TxKey × TxRow) : ℕ := x.2.position

/-- `ORDER BY block_hash`. -/
def txBlockHash (x : TxKey × TxRow) : List ℕ := x.1.block.blockHash.map UInt8.toNat

def getTransactionsForBlock (rows : List (TxKey × TxRow)) (net blockHash : JsString) :
    Except SyncError (List TransactionMeta) := do
  assertHex32 blockHash "getTransactionsForBlock.blockHash"
  return (scan position (fun x => x.1.block.net == net &&
    x.1.block.blockHash == hexToBuf blockHash) rows).map toTxMeta

def getTransactionsByHash (rows : List (TxKey × TxRow)) (net txHash : JsString) :
    Except SyncError (List TransactionMeta) := do
  assertHex32 txHash "getTransactionsByHash.txHash"
  return (scan txBlockHash (fun x => x.1.block.net == net &&
    x.1.txHash == hexToBuf txHash) rows).map toTxMeta

/-! ### What was reported -/

section Reported

variable (sha256 : Bytes → Bytes) (chain : Chain) (net : JsString)

/-- The block that the node reports at a height. -/
def reportedBlock (height : ℕ) : BlockMeta :=
  let node := chain.node height
  ⟨net, hexToBuf (hexNoPrefix node.blockHash), height, hexToBuf (hexNoPrefix node.parentHash),
    hexToBuf (hexNoPrefix node.stateRoot), hexToBuf (hexNoPrefix node.extrinsicsRoot), none,
    sha256 node.headerBytes, some (sha256 node.bodyBytes), true, .canonical, true⟩

/-- The transaction that the indexer reports at a position. -/
def reportedTransaction (height : ℕ) (tx : IndexerTransaction) (position : ℕ) : TransactionMeta :=
  let rawBytes := hexToBuf (hexNoPrefix tx.raw)
  ⟨net, hexToBuf (hexNoPrefix tx.hash), height,
    hexToBuf (hexNoPrefix (chain.node height).blockHash), position, txKind rawBytes,
    tx.protocolVersion, sha256 rawBytes⟩

def reportedTransactions (height : ℕ) : List TransactionMeta :=
  (chain.indexer height).transactions.zipIdx.map fun x =>
    reportedTransaction sha256 chain net height x.1 x.2

end Reported

variable {sha256 : Bytes → Bytes} {chain : Chain} {net : JsString}

theorem buildTransactionRecords_meta {height : ℕ} {extrinsics : List JsString} :
    ∀ {txs : List IndexerTransaction} {position : ℕ} {ts : List TransactionRecord},
    buildTransactionRecords net height (hexNoPrefix (chain.node height).blockHash) extrinsics txs
      position = .ok ts →
    ts.map (fun t => toTxMeta (t.key, t.row sha256)) =
      (txs.zipIdx position).map fun x => reportedTransaction sha256 chain net height x.1 x.2
  | [], position, ts, h => by
    cases h
    rfl
  | tx :: txs, position, ts, h => by
    unfold buildTransactionRecords at h
    dsimp only at h
    split_ifs at h
    · obtain ⟨-, h, -⟩ := bind_ok.mp h
      cases h
    obtain ⟨ts', hts', h⟩ := bind_ok.mp h
    cases h
    rw [List.map_cons, buildTransactionRecords_meta hts', List.zipIdx_cons, List.map_cons]
    rfl

/-- The records of a bundle, as the archive returns them. -/
theorem bundleOf_meta (sha256 : Bytes → Bytes) {height : ℕ} {b : Bundle}
    (h : bundleOf chain net height = .ok b) :
    toBlockMeta (b.block.key, b.block.row sha256) = reportedBlock sha256 chain net height ∧
      b.transactions.map (fun t => toTxMeta (t.key, t.row sha256)) =
        reportedTransactions sha256 chain net height ∧
      isHex32 (hexNoPrefix (chain.node height).blockHash) = true := by
  unfold bundleOf at h
  dsimp only at h
  split_ifs at h
  · obtain ⟨-, h, -⟩ := bind_ok.mp h
    cases h
  obtain ⟨ts, hts, h⟩ := bind_ok.mp h
  obtain ⟨⟨⟩, hhash, h⟩ := bind_ok.mp h
  obtain ⟨-, -, h⟩ := bind_ok.mp h
  obtain ⟨-, -, h⟩ := bind_ok.mp h
  obtain ⟨-, -, h⟩ := bind_ok.mp h
  obtain ⟨-, -, h⟩ := bind_ok.mp h
  cases h
  refine ⟨rfl, buildTransactionRecords_meta hts, ?_⟩
  unfold assertHex32 at hhash
  split_ifs at hhash with hx
  exact hx

theorem row_of_mem {height : ℕ} {b : Bundle} (h : bundleOf chain net height = .ok b)
    {t : TransactionRecord} (ht : t ∈ b.transactions) : t.key.block = b.block.key :=
  (bundleOf_ok h).2.1 t ht

/-! ### Whole bundles -/

/-- For each height the archive has nothing or all of it, and it is finite. -/
structure Whole (sha256 : Bytes → Bytes) (chain : Chain) (net : JsString) (s : SyncState) :
    Prop where
  inv : Inv sha256 chain net s
  blockLocks : Owned (fun t k => k.height = t.2) s.blocks
  txLocks : Owned (fun t k => k.block.height = t.2) s.transactions
  blocks : ∀ k r, s.blocks.committed k = some r → Archived sha256 chain net s k.height
  transactions : ∀ k r, s.transactions.committed k = some r →
    Archived sha256 chain net s k.block.height
  finiteBlocks : FiniteRows s.blocks
  finiteTxs : FiniteRows s.transactions

namespace Whole

variable {s s' : SyncState}

theorem init : Whole sha256 chain net .init :=
  ⟨inv_init, .fresh, .fresh, fun _ _ h => (by cases h), fun _ _ h => (by cases h), .fresh, .fresh⟩

theorem archived (hn : Next sha256 chain net s s') {j : ℕ} (h : Archived sha256 chain net s j) :
    Archived sha256 chain net s' j := by
  obtain ⟨b, hb, hk, ht⟩ := h
  exact ⟨b, hb, hn.blocks _ _ hk, fun t ht' => hn.transactions _ _ (ht t ht')⟩

/-- A step that leaves the two tables. -/
theorem quiet (hs : Whole sha256 chain net s) (hn : Next sha256 chain net s s')
    (hb : s'.blocks = s.blocks) (ht : s'.transactions = s.transactions) :
    Whole sha256 chain net s' := by
  refine ⟨hn.inv, hb ▸ hs.blockLocks, ht ▸ hs.txLocks, fun k r hk => ?_, fun k r hk => ?_,
    hb ▸ hs.finiteBlocks, ht ▸ hs.finiteTxs⟩
  · exact archived hn (hs.blocks k r (hb ▸ hk))
  · exact archived hn (hs.transactions k r (ht ▸ hk))

/-- A statement of a bundle. -/
theorem insert (hs : Whole sha256 chain net s) {c height : ℕ} {b : Bundle}
    {obs : List ObservationRecord} {s₁ : SyncState} (hb : bundleOf chain net height = .ok b)
    {q : Insert} (hq : q ∈ b.inserts obs) (hi : insertStmt sha256 s (c, height) q = some s₁)
    (hn : Next sha256 chain net s s') (hblocks : s'.blocks = s₁.blocks)
    (htxs : s'.transactions = s₁.transactions) : Whole sha256 chain net s' := by
  have hheight := (bundleOf_ok hb).1
  rcases mem_inserts.mp hq with rfl | ⟨x, hx, rfl⟩ | ⟨o, -, rfl⟩
  · simp only [insertStmt, Option.bind_eq_bind, Option.bind_eq_some_iff] at hi
    obtain ⟨tbl, hi, h⟩ := hi
    cases h
    refine ⟨hn.inv, ?_, ?_, fun k r hk => ?_, fun k r hk => ?_, ?_, ?_⟩
    · rw [hblocks]
      exact hs.blockLocks.insertRow hheight hi
    · rw [htxs]
      exact hs.txLocks
    · rw [hblocks, insertRow_committed hi] at hk
      exact archived hn (hs.blocks k r hk)
    · rw [htxs] at hk
      exact archived hn (hs.transactions k r hk)
    · rw [hblocks]
      exact hs.finiteBlocks.insertRow hi
    · rw [htxs]
      exact hs.finiteTxs
  · simp only [insertStmt] at hi
    split_ifs at hi
    · cases hi
      exact hs.quiet hn hblocks htxs
    · cases hi
      refine ⟨hn.inv, ?_, ?_, fun k r hk => ?_, fun k r hk => ?_, ?_, ?_⟩
      · rw [hblocks]
        exact hs.blockLocks
      · rw [htxs]
        refine hs.txLocks.write ?_ _
        rw [row_of_mem hb hx, hheight]
      · rw [hblocks] at hk
        exact archived hn (hs.blocks k r hk)
      · rw [htxs] at hk
        exact archived hn (hs.transactions k r hk)
      · rw [hblocks]
        exact hs.finiteBlocks
      · rw [htxs]
        exact hs.finiteTxs.write _ _ _
  · simp only [insertStmt] at hi
    split_ifs at hi
    simp only [Option.bind_eq_bind, Option.bind_eq_some_iff] at hi
    obtain ⟨tbl, -, h⟩ := hi
    cases h
    exact hs.quiet hn hblocks htxs

/-- **A commit archives its height**, and no other. -/
theorem commit (hd : DistinctHashes chain net) (hs : Whole sha256 chain net s) {c height e : ℕ}
    {x : Call} {json : Option JsString} (hx : s.calls c = some x)
    (hst : x.stage = .writing height e json [])
    (hn : Next sha256 chain net s ((s.commit (c, height)).setStage c x (.written height e json))) :
    Whole sha256 chain net ((s.commit (c, height)).setStage c x (.written height e json)) := by
  have hok := hs.inv.calls c x hx
  rw [hst] at hok
  obtain ⟨-, b, obs, done, hb, -, hins, hdone⟩ := hok
  rw [List.append_nil] at hins
  have harch : Archived sha256 chain net (s.commit (c, height)) height :=
    archived_commit hd hs.inv.content hb (hins ▸ hdone)
  refine ⟨hn.inv, hs.blockLocks.commit _, hs.txLocks.commit _, fun k r hk => ?_, fun k r hk => ?_,
    hs.finiteBlocks.commit _, hs.finiteTxs.commit _⟩
  · rcases hs.blockLocks.committed_commit hk with h | h
    · exact h ▸ harch
    · exact archived hn (hs.blocks k r h)
  · rcases hs.txLocks.committed_commit hk with h | h
    · exact h ▸ harch
    · exact archived hn (hs.transactions k r h)

theorem move (hd : DistinctHashes chain net) (hs : Whole sha256 chain net s) {c : ℕ} {x : Call}
    (hx : s.calls c = some x) {ev : Ev} (h : Move sha256 chain net s c x ev s') :
    Whole sha256 chain net s' := by
  have hn := next_move hd hs.inv hx h
  have hok := hs.inv.calls c x hx
  cases h with
  | target _ => exact hs.quiet hn rfl rfl
  | readCursor _ => exact hs.quiet hn rfl rfl
  | reject _ _ => exact hs.quiet hn rfl rfl
  | build _ _ _ => exact hs.quiet hn rfl rfl
  | insert hst hi =>
    rw [hst] at hok
    obtain ⟨-, b, obs, done, hb, -, hins, -⟩ := hok
    exact hs.insert hb (by rw [hins]; simp) hi hn rfl rfl
  | commit hst => exact hs.commit hd hx hst hn
  | resolve _ => exact hs.quiet hn rfl rfl
  | mark _ => exact hs.quiet hn rfl rfl
  | abort _ =>
    refine ⟨hn.inv, hs.blockLocks.rollback _, hs.txLocks.rollback _, fun k r hk => ?_,
      fun k r hk => ?_, hs.finiteBlocks.rollback _, hs.finiteTxs.rollback _⟩
    · exact archived hn (hs.blocks k r hk)
    · exact archived hn (hs.transactions k r hk)
  | fail _ => exact hs.quiet hn rfl rfl

theorem step (hd : DistinctHashes chain net) (hs : Whole sha256 chain net s) {ev : Ev}
    (h : step sha256 chain net s ev = some s') : Whole sha256 chain net s' := by
  rcases step_cases h with ⟨c, service, maxBlocks, -, -, rfl⟩ | ⟨x, hx, hm⟩
  · exact hs.quiet (next_step hd hs.inv h) rfl rfl
  · exact hs.move hd hx hm

/-! ### The rows of a height -/

theorem block (hs : Whole sha256 chain net s) {k : BlockKey} {r : BlockRow}
    (h : s.blocks.committed k = some r) : Archived sha256 chain net s k.height ∧ k.net = net ∧
      toBlockMeta (k, r) = reportedBlock sha256 chain net k.height := by
  obtain ⟨b, hb, rfl, rfl⟩ := hs.inv.content.blocks.committed k r h
  have hmeta := (bundleOf_meta sha256 hb).1
  exact ⟨hs.blocks _ _ h, congrArg BlockMeta.net hmeta, hmeta⟩

/-- The row of an archived height. -/
theorem exists_block {j : ℕ} (h : Archived sha256 chain net s j) :
    ∃ k r, s.blocks.committed k = some r ∧ k.net = net ∧ k.height = j ∧ r.isCanonical = true ∧
      toBlockMeta (k, r) = reportedBlock sha256 chain net j := by
  obtain ⟨b, hb, hk, -⟩ := h
  have hmeta := (bundleOf_meta sha256 hb).1
  exact ⟨b.block.key, b.block.row sha256, hk, congrArg BlockMeta.net hmeta,
    congrArg BlockMeta.height hmeta, congrArg BlockMeta.isCanonical hmeta, hmeta⟩

theorem transaction (hs : Whole sha256 chain net s) {k : TxKey} {r : TxRow}
    (h : s.transactions.committed k = some r) :
    Archived sha256 chain net s k.block.height ∧ k.block.net = net ∧
      k.block.blockHash = (reportedBlock sha256 chain net k.block.height).blockHash ∧
      toTxMeta (k, r) ∈ reportedTransactions sha256 chain net k.block.height := by
  obtain ⟨b, hb, t, ht, rfl, rfl⟩ := hs.inv.content.transactions.committed k r h
  obtain ⟨hblock, htxs, -⟩ := bundleOf_meta sha256 hb
  have hk : t.key.block = b.block.key := row_of_mem hb ht
  refine ⟨hs.transactions _ _ h, ?_, ?_, ?_⟩
  · rw [hk]
    exact congrArg BlockMeta.net hblock
  · exact (congrArg BlockKey.blockHash hk).trans (congrArg BlockMeta.blockHash hblock)
  · rw [← htxs]
    exact List.mem_map.mpr ⟨t, ht, rfl⟩

/-- The rows of the transactions of an archived height, in the order of their positions. -/
theorem exists_transactions (hs : Whole sha256 chain net s) {j : ℕ}
    (h : Archived sha256 chain net s j) : ∃ xs : List (TxKey × TxRow),
      xs.map toTxMeta = reportedTransactions sha256 chain net j ∧ Ascending position xs ∧
      ∀ x, x ∈ xs ↔ s.transactions.committed x.1 = some x.2 ∧ x.1.block.height = j := by
  obtain ⟨b, hb, -, ht⟩ := h
  refine ⟨b.transactions.map fun t => (t.key, t.row sha256), ?_, ?_, fun x => ?_⟩
  · rw [List.map_map]
    exact (bundleOf_meta sha256 hb).2.1
  · have hpos : (b.transactions.map (·.position)).Pairwise (· < ·) := by
      rw [(bundleOf_ok hb).2.2]
      exact List.pairwise_lt_range'
    exact List.pairwise_map.mpr (List.pairwise_map.mp hpos)
  · rw [List.mem_map]
    constructor
    · rintro ⟨t, hmem, rfl⟩
      refine ⟨ht t hmem, ?_⟩
      rw [← (bundleOf_ok hb).1, ← row_of_mem hb hmem]
    · rintro ⟨hr, rfl⟩
      obtain ⟨b', hb', t, hmem, hk, hrow⟩ := hs.inv.content.transactions.committed _ _ hr
      cases hb.symm.trans hb'
      exact ⟨t, hmem, Prod.ext hk hrow.symm⟩

end Whole

/-! ### What is read -/

theorem toBlockMeta_injective : Function.Injective toBlockMeta := by
  rintro ⟨⟨net, h, hash⟩, r⟩ ⟨⟨net', h', hash'⟩, r'⟩ he
  cases r
  cases r'
  simp only [toBlockMeta, BlockMeta.mk.injEq] at he
  simp [he]

theorem toTxMeta_injective : Function.Injective toTxMeta := by
  rintro ⟨⟨⟨net, h, hash⟩, tx⟩, r⟩ ⟨⟨⟨net', h', hash'⟩, tx'⟩, r'⟩ he
  cases r
  cases r'
  simp only [toTxMeta, TransactionMeta.mk.injEq] at he
  simp [he]

section Reads

variable {s : SyncState} {blocks : List (BlockKey × BlockRow)} {txs : List (TxKey × TxRow)}

/-- Two blocks of one height are the same row. -/
theorem block_unique (hs : Whole sha256 chain net s) {x y : BlockKey × BlockRow}
    (hx : s.blocks.committed x.1 = some x.2) (hy : s.blocks.committed y.1 = some y.2)
    (h : x.1.height = y.1.height) : x = y := by
  refine toBlockMeta_injective ?_
  rw [(hs.block hx).2.2, (hs.block hy).2.2, h]

theorem uniqueKey_canonical (hs : Whole sha256 chain net s)
    (hl : Lists s.blocks.committed blocks) : UniqueKey height (canonicalIn net) blocks :=
  hl.uniqueKey fun _ _ hx hy _ _ he => congrArg Prod.fst (block_unique hs hx hy he)

open Classical in
theorem getCanonicalBlockAtHeight_mirror (hs : Whole sha256 chain net s)
    (hl : Lists s.blocks.committed blocks) (j : ℕ) : getCanonicalBlockAtHeight blocks net j =
      if Archived sha256 chain net s j then some (reportedBlock sha256 chain net j) else none := by
  rw [getCanonicalBlockAtHeight_eq]
  split_ifs with h
  · obtain ⟨k, r, hk, hnet, hj, hc, hmeta⟩ := Whole.exists_block h
    have hp : point height (canonicalIn net) blocks j = some (k, r) := by
      refine (point_eq_some (uniqueKey_canonical hs hl)).mpr ⟨(hl.mem k r).mpr hk, ?_, hj⟩
      simp [canonicalIn, inNet, hnet, hc]
    rw [hp, Option.map_some, hmeta]
  · rcases hp : point height (canonicalIn net) blocks j with _ | ⟨k, r⟩
    · rfl
    · obtain ⟨hmem, -, rfl⟩ := (point_eq_some (uniqueKey_canonical hs hl)).mp hp
      exact absurd (hs.block ((hl.mem k r).mp hmem)).1 h

open Classical in
theorem getBlocksAtHeight_mirror (hs : Whole sha256 chain net s)
    (hl : Lists s.blocks.committed blocks) (j : ℕ) : getBlocksAtHeight blocks net j =
      if Archived sha256 chain net s j then [reportedBlock sha256 chain net j] else [] := by
  have hu := uniqueKey_height hl net j
  rw [getBlocksAtHeight]
  split_ifs with h
  · obtain ⟨k, r, hk, hnet, rfl, -, hmeta⟩ := Whole.exists_block h
    have hrow : ∀ x, x ∈ [(k, r)] ↔
        x ∈ blocks ∧ (inNet net x && decide ((height x : ℤ) = k.height)) = true := by
      intro x
      rw [List.mem_singleton]
      constructor
      · rintro rfl
        exact ⟨(hl.mem k r).mpr hk, by simp [inNet, hnet, height]⟩
      · rintro ⟨hmem, hp⟩
        simp only [Bool.and_eq_true, decide_eq_true_eq, Int.natCast_inj] at hp
        exact block_unique hs ((hl.mem x.1 x.2).mp hmem) hk hp.2
    rw [scan_eq hu (List.pairwise_singleton _ _) hrow, List.map_singleton, hmeta]
  · refine List.map_eq_nil_iff.mpr (List.eq_nil_iff_forall_not_mem.mpr fun x hx => ?_)
    rw [mem_scan, Bool.and_eq_true, decide_eq_true_eq, height, Int.natCast_inj] at hx
    obtain ⟨hmem, -, rfl⟩ := hx
    exact h (hs.block ((hl.mem x.1 x.2).mp hmem)).1

open Classical in
theorem getCanonicalChainRange_mirror (hs : Whole sha256 chain net s)
    (hl : Lists s.blocks.committed blocks) (a b : ℤ) : getCanonicalChainRange blocks net a b =
      ((List.range (b + 1).toNat).filter fun j : ℕ =>
        decide (Archived sha256 chain net s j) && decide (a ≤ j)).map
          (reportedBlock sha256 chain net) := by
  rw [getCanonicalChainRange_eq (uniqueKey_canonical hs hl), ← List.filter_filter,
    ← List.filterMap_eq_map, List.filterMap_filter (l := List.filter _ _)]
  congr 1
  funext j
  rw [getCanonicalBlockAtHeight_mirror hs hl]
  simp only [decide_eq_true_eq, Function.comp_apply]

/-- The transactions of an archived block, unless another one has its hash. -/
theorem getTransactionsForBlock_mirror (hs : Whole sha256 chain net s)
    (hl : Lists s.transactions.committed txs) {j : ℕ} (h : Archived sha256 chain net s j)
    (hone : ∀ i, Archived sha256 chain net s i →
      (reportedBlock sha256 chain net i).blockHash = (reportedBlock sha256 chain net j).blockHash →
      i = j) :
    getTransactionsForBlock txs net (hexNoPrefix (chain.node j).blockHash) =
      .ok (reportedTransactions sha256 chain net j) := by
  obtain ⟨xs, hxs, hasc, hmem⟩ := hs.exists_transactions h
  obtain ⟨b, hb, -, -⟩ := h
  obtain ⟨-, -, hhex⟩ := bundleOf_meta sha256 hb
  have hsel : ∀ x, x ∈ xs ↔ x ∈ txs ∧ (x.1.block.net == net &&
      x.1.block.blockHash == hexToBuf (hexNoPrefix (chain.node j).blockHash)) = true := by
    intro x
    rw [hmem, ← hl.mem x.1 x.2, Bool.and_eq_true, beq_iff_eq, beq_iff_eq]
    constructor
    · rintro ⟨hx, rfl⟩
      obtain ⟨-, hnet, hhash, -⟩ := hs.transaction ((hl.mem _ _).mp hx)
      exact ⟨hx, hnet, hhash⟩
    · rintro ⟨hx, -, hhash⟩
      obtain ⟨ha, -, hhash', -⟩ := hs.transaction ((hl.mem _ _).mp hx)
      exact ⟨hx, hone _ ha (hhash'.symm.trans hhash)⟩
  have hu : UniqueKey position (fun x => x.1.block.net == net &&
      x.1.block.blockHash == hexToBuf (hexNoPrefix (chain.node j).blockHash)) txs := by
    refine hl.uniqueKey fun x y hx hy hpx hpy he => ?_
    have hx' := (hsel x).mpr ⟨(hl.mem x.1 x.2).mpr hx, hpx⟩
    have hy' := (hsel y).mpr ⟨(hl.mem y.1 y.2).mpr hy, hpy⟩
    have hnd : (xs.map position).Nodup :=
      List.pairwise_map.mpr (hasc.imp fun hlt => (ne_of_lt hlt))
    rw [List.inj_on_of_nodup_map hnd hx' hy' he]
  unfold getTransactionsForBlock assertHex32
  rw [if_pos hhex, scan_eq hu hasc hsel, hxs]
  rfl

theorem getTransactionsForBlock_unknown (hs : Whole sha256 chain net s)
    (hl : Lists s.transactions.committed txs) {blockHash : JsString}
    (hhex : isHex32 blockHash = true) (hnone : ∀ j, Archived sha256 chain net s j →
      (reportedBlock sha256 chain net j).blockHash ≠ hexToBuf blockHash) :
    getTransactionsForBlock txs net blockHash = .ok [] := by
  have hempty : scan position (fun x => x.1.block.net == net &&
      x.1.block.blockHash == hexToBuf blockHash) txs = [] := by
    refine List.eq_nil_iff_forall_not_mem.mpr fun x hx => ?_
    rw [mem_scan, Bool.and_eq_true, beq_iff_eq, beq_iff_eq] at hx
    obtain ⟨ha, -, hhash, -⟩ := hs.transaction ((hl.mem x.1 x.2).mp hx.1)
    exact hnone _ ha (hhash.symm.trans hx.2.2)
  unfold getTransactionsForBlock assertHex32
  rw [if_pos hhex, hempty]
  rfl

/-- Every transaction with the hash, once, in the order of the hashes of the blocks. -/
theorem getTransactionsByHash_mirror (hs : Whole sha256 chain net s)
    (hl : Lists s.transactions.committed txs) {txHash : JsString} (hhex : isHex32 txHash = true) :
    ∃ l, getTransactionsByHash txs net txHash = .ok l ∧ l.Nodup ∧
      (l.Pairwise fun x y => x.blockHash.map UInt8.toNat ≤ y.blockHash.map UInt8.toNat) ∧
      ∀ x, x ∈ l ↔ ∃ j, Archived sha256 chain net s j ∧
        x ∈ reportedTransactions sha256 chain net j ∧ x.txHash = hexToBuf txHash := by
  refine ⟨(scan txBlockHash (fun x => x.1.block.net == net && x.1.txHash == hexToBuf txHash)
    txs).map toTxMeta, ?_, ?_, ?_, fun x => ?_⟩
  · unfold getTransactionsByHash assertHex32
    rw [if_pos hhex]
    rfl
  · refine List.Nodup.map toTxMeta_injective ?_
    exact (List.perm_insertionSort _ _).nodup_iff.mpr (hl.nodup.sublist List.filter_sublist)
  · exact List.pairwise_map.mpr (List.pairwise_insertionSort _ _)
  · rw [List.mem_map]
    constructor
    · rintro ⟨y, hy, rfl⟩
      rw [mem_scan, Bool.and_eq_true, beq_iff_eq, beq_iff_eq] at hy
      obtain ⟨ha, -, -, hmem⟩ := hs.transaction ((hl.mem y.1 y.2).mp hy.1)
      exact ⟨y.1.block.height, ha, hmem, hy.2.2⟩
    · rintro ⟨j, ha, hmem, hhash⟩
      obtain ⟨xs, hxs, -, hrows⟩ := hs.exists_transactions ha
      rw [← hxs, List.mem_map] at hmem
      obtain ⟨y, hy, rfl⟩ := hmem
      refine ⟨y, ?_, rfl⟩
      rw [mem_scan, Bool.and_eq_true, beq_iff_eq, beq_iff_eq, hl.mem]
      exact ⟨((hrows y).mp hy).1, (hs.transaction ((hrows y).mp hy).1).2.1, hhash⟩

end Reads

end UmbraDB.Archive.Mirror
