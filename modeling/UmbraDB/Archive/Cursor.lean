import UmbraDB.Archive.Sync
import UmbraDB.Ckpt.RoundTrip
import UmbraDB.Lib.Fallible

/-! # Chain archive: the sync cursor never passes missing data

Every row of the archive is the one the chain has for its key (`Content`), so an `INSERT` that finds
a row finds the right one. A call that is at a height has the heights below it in the archive
(`StageOk`): it starts right above the watermark and moves on only after its bundle is committed.

* `cursor_no_gap` : a watermark of `h` means that the heights up to `h` are archived; it never
  decreases, and archived rows are never changed, also not by a later bundle for their height. -/

namespace UmbraDB.Archive.Cursor

open UmbraDB.Js.Text UmbraDB.Lib.Runs UmbraDB.Lib.RowStore UmbraDB.Lib.InsertOnly
open UmbraDB.Lib.Fallible UmbraDB.Ckpt.Rows UmbraDB.Archive.Sync
open UmbraDB.Archive.Blocks (BlockKey BlockRow BlockRecord)
open UmbraDB.Ckpt.RoundTrip (sha256OfByte)

/-! ### The records of a block -/

theorem buildTransactionRecords_ok {net : JsString} {height : ℕ} {blockHash : JsString}
    {extrinsics : List JsString} : ∀ {txs : List IndexerTransaction} {position : ℕ}
    {ts : List TransactionRecord},
    buildTransactionRecords net height blockHash extrinsics txs position = .ok ts →
    (∀ t ∈ ts, t.block = ⟨net, height, hexToBuf blockHash⟩) ∧
      ts.map (·.position) = List.range' position txs.length
  | [], position, ts, h => by
    cases h
    exact ⟨fun t ht => (by cases ht), rfl⟩
  | tx :: txs, position, ts, h => by
    unfold buildTransactionRecords at h
    dsimp only at h
    split_ifs at h
    · obtain ⟨-, h, -⟩ := bind_ok.mp h
      cases h
    obtain ⟨ts', hts', h⟩ := bind_ok.mp h
    cases h
    obtain ⟨hb, hp⟩ := buildTransactionRecords_ok hts'
    refine ⟨fun t ht => ?_, ?_⟩
    · rcases List.mem_cons.mp ht with rfl | ht
      · rfl
      · exact hb t ht
    · rw [List.map_cons, hp, List.length_cons, List.range'_succ]

theorem bundleOf_ok {chain : Chain} {net : JsString} {height : ℕ} {b : Bundle}
    (h : bundleOf chain net height = .ok b) :
    b.block.key.height = height ∧ (∀ t ∈ b.transactions, t.block = b.block.key) ∧
      b.transactions.map (·.position) =
        List.range' 0 (chain.indexer height).transactions.length := by
  unfold bundleOf at h
  dsimp only at h
  split_ifs at h
  · obtain ⟨-, h, -⟩ := bind_ok.mp h
    cases h
  obtain ⟨ts, hts, h⟩ := bind_ok.mp h
  obtain ⟨-, -, h⟩ := bind_ok.mp h
  obtain ⟨-, -, h⟩ := bind_ok.mp h
  obtain ⟨-, -, h⟩ := bind_ok.mp h
  obtain ⟨-, -, h⟩ := bind_ok.mp h
  obtain ⟨-, -, h⟩ := bind_ok.mp h
  cases h
  obtain ⟨hb, hp⟩ := buildTransactionRecords_ok hts
  exact ⟨rfl, hb, hp⟩

/-- The transactions of every block have distinct hashes. -/
def DistinctHashes (chain : Chain) (net : JsString) : Prop :=
  ∀ height b, bundleOf chain net height = .ok b → (b.transactions.map (·.key)).Nodup

/-! ### The rows of the archive -/

section Rows

variable (sha256 : Bytes → Bytes) (chain : Chain) (net : JsString)

/-- The row of a block. -/
def BlockOf (k : BlockKey) (r : BlockRow) : Prop :=
  ∃ b, bundleOf chain net k.height = .ok b ∧ b.block.key = k ∧ r = b.block.row sha256

/-- The row of a transaction. -/
def TxOf (k : TxKey) (r : TxRow) : Prop :=
  ∃ b, bundleOf chain net k.block.height = .ok b ∧
    ∃ t ∈ b.transactions, t.key = k ∧ r = t.row sha256

/-- The hash of the transaction at a position. -/
def PositionOf (p : PositionKey) (hash : Bytes) : Prop :=
  ∃ b, bundleOf chain net p.block.height = .ok b ∧
    ∃ t ∈ b.transactions, t.positionKey = p ∧ hash = t.key.txHash

/-- The observation of a height. -/
def ObservationOf (k : BlockKey) (raw : Bytes) : Prop :=
  ∃ b, bundleOf chain net k.height = .ok b ∧ b.block.key = k ∧
    raw = encodeAscii (dParameterJson (chain.indexer k.height).dParameter)

/-- Block and transactions of the height are committed. -/
def Archived (s : SyncState) (height : ℕ) : Prop :=
  ∃ b, bundleOf chain net height = .ok b ∧
    s.blocks.committed b.block.key = some (b.block.row sha256) ∧
    ∀ t ∈ b.transactions, s.transactions.committed t.key = some (t.row sha256)

/-- Every row is the one the chain has for its key, and a position goes with its transaction. -/
structure Content (s : SyncState) : Prop where
  blocks : RowsOf (BlockOf sha256 chain net) s.blocks
  transactions : RowsOf (TxOf sha256 chain net) s.transactions
  positions : RowsOf (PositionOf chain net) s.positions
  observations : RowsOf (ObservationOf chain net) s.observations
  linked : ∀ p hash, s.positions.committed p = some hash →
    (s.transactions.committed ⟨p.block, hash⟩).isSome = true
  held_linked : ∀ p t hash, s.positions.held p = some (t, some hash) →
    ∃ r, s.transactions.held ⟨p.block, hash⟩ = some (t, r)

end Rows

variable {sha256 : Bytes → Bytes} {chain : Chain} {net : JsString}

theorem blockOf_functional (k : BlockKey) (r r' : BlockRow) (h : BlockOf sha256 chain net k r)
    (h' : BlockOf sha256 chain net k r') : r = r' := by
  obtain ⟨b, hb, -, rfl⟩ := h
  obtain ⟨b', hb', -, rfl⟩ := h'
  cases hb.symm.trans hb'
  rfl

theorem txOf_functional (hd : DistinctHashes chain net) (k : TxKey) (r r' : TxRow)
    (h : TxOf sha256 chain net k r) (h' : TxOf sha256 chain net k r') : r = r' := by
  obtain ⟨b, hb, t, ht, hk, rfl⟩ := h
  obtain ⟨b', hb', t', ht', hk', rfl⟩ := h'
  cases hb.symm.trans hb'
  rw [List.inj_on_of_nodup_map (hd _ _ hb) ht ht' (hk.trans hk'.symm)]

theorem positionOf_functional (p : PositionKey) (hash hash' : Bytes)
    (h : PositionOf chain net p hash) (h' : PositionOf chain net p hash') : hash = hash' := by
  obtain ⟨b, hb, t, ht, hp, rfl⟩ := h
  obtain ⟨b', hb', t', ht', hp', rfl⟩ := h'
  cases hb.symm.trans hb'
  have hpos : t.position = t'.position := congrArg PositionKey.position (hp.trans hp'.symm)
  have hnd : (b.transactions.map (·.position)).Nodup := by
    rw [(bundleOf_ok hb).2.2]
    exact List.nodup_range'
  rw [List.inj_on_of_nodup_map hnd ht ht' hpos]

theorem observationOf_functional (k : BlockKey) (raw raw' : Bytes)
    (h : ObservationOf chain net k raw) (h' : ObservationOf chain net k raw') : raw = raw' := by
  obtain ⟨-, -, -, rfl⟩ := h
  obtain ⟨-, -, -, rfl⟩ := h'
  rfl

/-- The record at a taken position is the transaction itself. -/
theorem Content.seen_of_position {s : SyncState} (hs : Content sha256 chain net s) {t : ℕ × ℕ}
    {height : ℕ} {b : Bundle} (hb : bundleOf chain net height = .ok b) {x : TransactionRecord}
    (hx : x ∈ b.transactions) (h : (s.positions.view t x.positionKey).isSome = true) :
    Seen s.transactions t x.key := by
  obtain ⟨hash, hv⟩ := Option.isSome_iff_exists.mp h
  have hblock : x.positionKey.block.height = height := by
    rw [← (bundleOf_ok hb).1]
    exact congrArg BlockKey.height ((bundleOf_ok hb).2.1 x hx)
  have hhash : hash = x.key.txHash :=
    positionOf_functional x.positionKey hash x.key.txHash (hs.positions.view hv)
      ⟨b, by rw [hblock, hb], x, hx, rfl, rfl⟩
  subst hhash
  rcases s.positions.view_cases t x.positionKey with hh | ⟨-, hc⟩
  · rw [hv] at hh
    obtain ⟨r, hr⟩ := hs.held_linked _ _ _ hh
    obtain ⟨r', hr', -⟩ := hs.transactions.held _ _ _ hr
    have hview : s.transactions.view t x.key = r := Table.view_of_held hr
    rw [Seen, hview, hr']
    rfl
  · rw [hv] at hc
    exact seen_of_committed hs.transactions (hs.linked _ _ hc.symm)

/-! ### A bundle and the archive -/

/-- The bundle of `t` has its row, or found it. -/
def Inserted (s : SyncState) (t : ℕ × ℕ) : Insert → Prop
  | .block b => Seen s.blocks t b.key
  | .transaction x => Seen s.transactions t x.key
  | .observation o => Seen s.observations t o.block

/-- The observations a bundle can have. -/
def ObsOk (chain : Chain) (net : JsString) (b : Bundle) (obs : List ObservationRecord) : Prop :=
  ∀ o ∈ obs, o.block = b.block.key ∧ ObservationOf chain net o.block o.rawBytes

theorem mem_inserts {b : Bundle} {obs : List ObservationRecord} {q : Insert} :
    q ∈ b.inserts obs ↔ q = .block b.block ∨ (∃ x ∈ b.transactions, q = .transaction x) ∨
      ∃ o ∈ obs, q = .observation o := by
  simp [Bundle.inserts, eq_comm]

/-- What a transaction does to the tables, for the archive and for the other transactions. -/
structure Kept (sha256 : Bytes → Bytes) (chain : Chain) (net : JsString) (s s' : SyncState)
    (t : ℕ × ℕ) : Prop where
  content : Content sha256 chain net s'
  blocks : ∀ k r, s.blocks.committed k = some r → s'.blocks.committed k = some r
  transactions : ∀ k r, s.transactions.committed k = some r → s'.transactions.committed k = some r
  observations : ∀ k r, s.observations.committed k = some r → s'.observations.committed k = some r
  inserted : ∀ t' q, t' ≠ t → Inserted s t' q → Inserted s' t' q

theorem Kept.archived {s s' : SyncState} {t : ℕ × ℕ} (h : Kept sha256 chain net s s' t) {j : ℕ}
    (hj : Archived sha256 chain net s j) : Archived sha256 chain net s' j := by
  obtain ⟨b, hb, hk, ht⟩ := hj
  exact ⟨b, hb, h.blocks _ _ hk, fun t' ht' => h.transactions _ _ (ht t' ht')⟩

theorem kept_rollback {s : SyncState} (hs : Content sha256 chain net s) (t : ℕ × ℕ) :
    Kept sha256 chain net s (s.rollback t) t := by
  refine ⟨⟨hs.blocks.rollback t, hs.transactions.rollback t, hs.positions.rollback t,
    hs.observations.rollback t, hs.linked, fun p t' hash h => ?_⟩, fun _ _ h => h, fun _ _ h => h,
    fun _ _ h => h, fun t' q hne h => ?_⟩
  · obtain ⟨h, hne⟩ := Table.unlock_eq_some.mp h
    obtain ⟨r, hr⟩ := hs.held_linked p t' hash h
    exact ⟨r, Table.unlock_eq_some.mpr ⟨hr, hne⟩⟩
  · rcases q with b | x | o
    · exact seen_rollback hne h
    · exact seen_rollback hne h
    · exact seen_rollback hne h

theorem kept_commit (hd : DistinctHashes chain net) {s : SyncState}
    (hs : Content sha256 chain net s) (t : ℕ × ℕ) : Kept sha256 chain net s (s.commit t) t := by
  refine ⟨⟨hs.blocks.commit t, hs.transactions.commit t, hs.positions.commit t,
    hs.observations.commit t, fun p hash h => ?_, fun p t' hash h => ?_⟩,
    fun _ _ h => hs.blocks.committed_commit blockOf_functional t h,
    fun _ _ h => hs.transactions.committed_commit (txOf_functional hd) t h,
    fun _ _ h => hs.observations.committed_commit observationOf_functional t h,
    fun t' q hne h => ?_⟩
  · show (s.transactions.view t ⟨p.block, hash⟩).isSome = true
    have hv : s.positions.view t p = some hash := h
    rcases s.positions.view_cases t p with hh | ⟨-, hc⟩
    · rw [hv] at hh
      obtain ⟨r, hr⟩ := hs.held_linked p t hash hh
      obtain ⟨r', rfl, -⟩ := hs.transactions.held _ _ _ hr
      rw [Table.view_of_held hr]
      rfl
    · exact seen_of_committed hs.transactions (hs.linked p hash (by rw [← hc, hv]))
  · obtain ⟨h, hne⟩ := Table.unlock_eq_some.mp h
    obtain ⟨r, hr⟩ := hs.held_linked p t' hash h
    exact ⟨r, Table.unlock_eq_some.mpr ⟨hr, hne⟩⟩
  · rcases q with b | x | o
    · exact seen_commit hs.blocks hne h
    · exact seen_commit hs.transactions hne h
    · exact seen_commit hs.observations hne h

/-- A transaction and its position are inserted together. -/
theorem Content.held_linked_write {s : SyncState} (hs : Content sha256 chain net s) {t t' : ℕ × ℕ}
    {x : TransactionRecord} {p : PositionKey} {hash : Bytes} {r : Option TxRow}
    (hf : s.transactions.free t x.key = true)
    (h : (s.positions.write t x.positionKey (some x.key.txHash)).held p = some (t', some hash)) :
    ∃ r', (s.transactions.write t x.key r).held ⟨p.block, hash⟩ = some (t', r') := by
  by_cases hp : p = x.positionKey
  · subst hp
    rw [Table.write_held_self] at h
    cases h
    exact ⟨r, Table.write_held_self _ _ _ _⟩
  · rw [Table.write_held_ne _ _ _ hp] at h
    obtain ⟨r', hr'⟩ := hs.held_linked p t' hash h
    by_cases hk : (⟨p.block, hash⟩ : TxKey) = x.key
    · rw [hk] at hr' ⊢
      rcases Table.free_iff.mp hf with hn | ⟨v, hv⟩
      · rw [hn] at hr'
        cases hr'
      · rw [hv] at hr'
        cases hr'
        exact ⟨r, Table.write_held_self _ _ _ _⟩
    · exact ⟨r', by rw [Table.write_held_ne _ _ _ hk, hr']⟩

/-- **A statement of a bundle**: afterwards its row is there, and nothing else has changed for
anybody. -/
theorem kept_insert {s s' : SyncState} (hs : Content sha256 chain net s) {t : ℕ × ℕ} {height : ℕ}
    {b : Bundle} {obs : List ObservationRecord} (hb : bundleOf chain net height = .ok b)
    (ho : ObsOk chain net b obs) {q : Insert} (hq : q ∈ b.inserts obs)
    (h : insertStmt sha256 s t q = some s') :
    Kept sha256 chain net s s' t ∧ Inserted s' t q ∧ ∀ q', Inserted s t q' → Inserted s' t q' := by
  have hheight := (bundleOf_ok hb).1
  rcases mem_inserts.mp hq with rfl | ⟨x, hx, rfl⟩ | ⟨o, hmem, rfl⟩
  · simp only [insertStmt, Option.bind_eq_bind, Option.bind_eq_some_iff] at h
    obtain ⟨tbl, hi, h⟩ := h
    cases h
    have hP : BlockOf sha256 chain net b.block.key (b.block.row sha256) :=
      ⟨b, by rw [hheight, hb], rfl, rfl⟩
    have hcom := insertRow_committed hi
    refine ⟨⟨⟨hs.blocks.insertRow hP hi, hs.transactions, hs.positions, hs.observations, hs.linked,
      hs.held_linked⟩, fun k r hr => by rw [hcom]; exact hr, fun _ _ h => h, fun _ _ h => h,
      fun t' q _ h => ?_⟩, seen_insertRow_self hi, fun q h => ?_⟩
    all_goals
      rcases q with b' | x | o
      · exact seen_insertRow hi h
      · exact h
      · exact h
  · simp only [insertStmt] at h
    split_ifs at h with hfk hdone hf
    · cases h
      refine ⟨⟨hs, fun _ _ h => h, fun _ _ h => h, fun _ _ h => h, fun _ _ _ h => h⟩, ?_,
        fun _ h => h⟩
      rcases hdone with h | h
      · exact h
      · exact hs.seen_of_position hb hx h
    · cases h
      have hblock : x.block.height = height := by
        rw [(bundleOf_ok hb).2.1 x hx, hheight]
      have hP : TxOf sha256 chain net x.key (x.row sha256) :=
        ⟨b, hblock ▸ hb, x, hx, rfl, rfl⟩
      have hPos : PositionOf chain net x.positionKey x.key.txHash :=
        ⟨b, hblock ▸ hb, x, hx, rfl, rfl⟩
      refine ⟨⟨⟨hs.blocks, hs.transactions.write hP, hs.positions.write hPos, hs.observations,
        hs.linked, fun p t' hash hh => hs.held_linked_write hf.1 hh⟩, fun _ _ h => h, fun _ _ h => h,
        fun _ _ h => h, fun t' q _ h => ?_⟩, seen_write_self t x.key _, fun q h => ?_⟩
      all_goals
        rcases q with b' | x' | o
        · exact h
        · exact seen_write hf.1 h
        · exact h
  · simp only [insertStmt] at h
    split_ifs at h with hfk
    simp only [Option.bind_eq_bind, Option.bind_eq_some_iff] at h
    obtain ⟨tbl, hi, h⟩ := h
    cases h
    have hcom := insertRow_committed hi
    refine ⟨⟨⟨hs.blocks, hs.transactions, hs.positions,
      hs.observations.insertRow (ho o hmem).2 hi, hs.linked, hs.held_linked⟩, fun _ _ h => h,
      fun _ _ h => h, fun k r hr => by rw [hcom]; exact hr, fun t' q _ h => ?_⟩,
      seen_insertRow_self hi, fun q h => ?_⟩
    all_goals
      rcases q with b' | x | o'
      · exact h
      · exact h
      · exact seen_insertRow hi h

/-! ### The invariant -/

/-- A call that is at a height has those below it in the archive; in `putBlockBundle` it has done a
part of the bundle. -/
def StageOk (sha256 : Bytes → Bytes) (chain : Chain) (net : JsString) (s : SyncState) (c : ℕ) :
    Stage → Prop
  | .loop height _ => ∀ j < height, Archived sha256 chain net s j
  | .writing height _ _ todo => (∀ j < height, Archived sha256 chain net s j) ∧
      ∃ b obs done, bundleOf chain net height = .ok b ∧ ObsOk chain net b obs ∧
        b.inserts obs = done ++ todo ∧ ∀ q ∈ done, Inserted s (c, height) q
  | .written height _ _ => ∀ j ≤ height, Archived sha256 chain net s j
  | .ingested height _ => ∀ j ≤ height, Archived sha256 chain net s j
  | _ => True

structure Inv (sha256 : Bytes → Bytes) (chain : Chain) (net : JsString) (s : SyncState) : Prop where
  content : Content sha256 chain net s
  watermark : ∀ w, s.watermark = some w → ∀ j ≤ w, Archived sha256 chain net s j
  calls : ∀ c x, s.calls c = some x → StageOk sha256 chain net s c x.stage

theorem inv_init : Inv sha256 chain net .init where
  content := ⟨.fresh, .fresh, .fresh, .fresh, fun _ _ h => (by cases h), fun _ _ _ h => (by cases h)⟩
  watermark _ h := by cases h
  calls _ _ h := by cases h

/-- The other calls are where they were. -/
theorem Kept.stageOk {s s' : SyncState} {c c' h : ℕ} (hk : Kept sha256 chain net s s' (c, h))
    (hne : c' ≠ c) {stage : Stage} (hst : StageOk sha256 chain net s c' stage) :
    StageOk sha256 chain net s' c' stage := by
  rcases stage with _ | tip | ⟨height, e⟩ | ⟨height, e, json, todo⟩ | ⟨height, e, json⟩ |
    ⟨height, e⟩ | _
  · trivial
  · trivial
  · exact fun j hj => hk.archived (hst j hj)
  · obtain ⟨hlt, b, obs, done, hb, ho, hins, hdone⟩ := hst
    refine ⟨fun j hj => hk.archived (hlt j hj), b, obs, done, hb, ho, hins, fun q hq => ?_⟩
    exact hk.inserted (c', height) q (fun he => hne (congrArg Prod.fst he)) (hdone q hq)
  · exact fun j hj => hk.archived (hst j hj)
  · exact fun j hj => hk.archived (hst j hj)
  · trivial

theorem Kept.refl {s s' : SyncState} (hs : Content sha256 chain net s) (hb : s'.blocks = s.blocks)
    (ht : s'.transactions = s.transactions) (hp : s'.positions = s.positions)
    (ho : s'.observations = s.observations) (t : ℕ × ℕ) : Kept sha256 chain net s s' t := by
  obtain ⟨b, t, p, o, _, _, _⟩ := s'
  subst hb ht hp ho
  exact ⟨⟨hs.blocks, hs.transactions, hs.positions, hs.observations, hs.linked, hs.held_linked⟩,
    fun _ _ h => h, fun _ _ h => h, fun _ _ h => h, fun t' q _ h => by rcases q <;> exact h⟩

/-- The stage of a call is no part of the tables. -/
theorem inserted_setStage {s : SyncState} {t : ℕ × ℕ} {q : Insert} {c : ℕ} {x : Call}
    {stage : Stage} (h : Inserted s t q) : Inserted (s.setStage c x stage) t q := by
  rcases q with b | y | o
  · exact h
  · exact h
  · exact h

theorem Kept.setStage {s s' : SyncState} {t : ℕ × ℕ} (h : Kept sha256 chain net s s' t) (c : ℕ)
    (x : Call) (stage : Stage) : Kept sha256 chain net s (s'.setStage c x stage) t :=
  ⟨⟨h.content.blocks, h.content.transactions, h.content.positions, h.content.observations,
    h.content.linked, h.content.held_linked⟩, h.blocks, h.transactions, h.observations,
    fun t' q hne hq => inserted_setStage (h.inserted t' q hne hq)⟩

/-- A step of the call `c`: its tables, the watermark and its stage after it. -/
theorem Inv.of_kept {s s' : SyncState} (hs : Inv sha256 chain net s) {c h : ℕ} {x : Call}
    {stage : Stage} (hk : Kept sha256 chain net s s' (c, h))
    (hw : ∀ w, s'.watermark = some w → ∀ j ≤ w, Archived sha256 chain net s' j)
    (hc : s'.calls = Function.update s.calls c (some { x with stage := stage }))
    (hst : StageOk sha256 chain net s' c stage) : Inv sha256 chain net s' := by
  refine ⟨hk.content, hw, fun c' y hy => ?_⟩
  rw [hc] at hy
  by_cases hcc : c' = c
  · subst hcc
    rw [Function.update_self] at hy
    cases hy
    exact hst
  · rw [Function.update_of_ne hcc] at hy
    exact hk.stageOk hcc (hs.calls c' y hy)

/-- A step that changes neither the tables nor the watermark. -/
theorem Inv.quiet {s : SyncState} (hs : Inv sha256 chain net s) {c : ℕ} {x : Call} {stage : Stage}
    (hst : StageOk sha256 chain net s c stage) : Inv sha256 chain net (s.setStage c x stage) := by
  have hk : Kept sha256 chain net s (s.setStage c x stage) (c, 0) := by
    refine Kept.refl hs.content ?_ ?_ ?_ ?_ _ <;> rfl
  refine hs.of_kept hk (fun w hw j hj => hk.archived (hs.watermark w hw j hj)) rfl ?_
  rcases stage with _ | tip | ⟨height, e⟩ | ⟨height, e, json, todo⟩ | ⟨height, e, json⟩ |
    ⟨height, e⟩ | _
  all_goals exact hst

/-! ### Steps -/

/-- The loop starts right above the watermark. -/
theorem stageOk_loopFrom {s : SyncState} (hs : Inv sha256 chain net s) (c : ℕ) (maxBlocks : ℤ)
    (tip : ℕ) : StageOk sha256 chain net s c (loopFrom s.watermark maxBlocks tip) := by
  unfold loopFrom
  dsimp only
  split_ifs
  · trivial
  · intro j hj
    rcases hw : s.watermark with _ | w
    · rw [hw] at hj
      exact absurd hj (Nat.not_lt_zero j)
    · rw [hw] at hj
      exact hs.watermark w hw j (Nat.lt_succ_iff.mp hj)
  · trivial

theorem obsOk_build {height : ℕ} {b : Bundle} (hb : bundleOf chain net height = .ok b)
    (last : Option JsString) :
    ObsOk chain net b
      (buildBridgeObservationRecords b.block.key (chain.indexer height).dParameter last).1 := by
  unfold buildBridgeObservationRecords
  dsimp only
  split_ifs
  · intro o ho
    cases ho
  · intro o ho
    obtain rfl := List.mem_singleton.mp ho
    have hheight := (bundleOf_ok hb).1
    exact ⟨rfl, b, hheight.symm ▸ hb, rfl, by rw [hheight]⟩

/-- A statement on the tables changes nothing else. -/
theorem insertStmt_rest {s s' : SyncState} {t : ℕ × ℕ} {q : Insert}
    (h : insertStmt sha256 s t q = some s') :
    s'.watermark = s.watermark ∧ s'.calls = s.calls ∧
      s'.lastDParameterJson = s.lastDParameterJson := by
  rcases q with b | x | o
  · simp only [insertStmt, Option.bind_eq_bind, Option.bind_eq_some_iff] at h
    obtain ⟨tbl, -, h⟩ := h
    cases h
    exact ⟨rfl, rfl, rfl⟩
  · simp only [insertStmt] at h
    split_ifs at h
    · cases h
      exact ⟨rfl, rfl, rfl⟩
    · cases h
      exact ⟨rfl, rfl, rfl⟩
  · simp only [insertStmt] at h
    split_ifs at h
    simp only [Option.bind_eq_bind, Option.bind_eq_some_iff] at h
    obtain ⟨tbl, -, h⟩ := h
    cases h
    exact ⟨rfl, rfl, rfl⟩

theorem Inv.insert {s s₁ : SyncState} (hs : Inv sha256 chain net s) {c height e : ℕ} {x : Call}
    {json : Option JsString} {q : Insert} {todo : List Insert}
    (hst : StageOk sha256 chain net s c (.writing height e json (q :: todo)))
    (hi : insertStmt sha256 s (c, height) q = some s₁) :
    Inv sha256 chain net (s₁.setStage c x (.writing height e json todo)) := by
  obtain ⟨hlt, b, obs, done, hb, ho, hins, hdone⟩ := hst
  have hq : q ∈ b.inserts obs := by rw [hins]; simp
  obtain ⟨hk, hself, hkeep⟩ := kept_insert hs.content hb ho hq hi
  obtain ⟨hw, hc, -⟩ := insertStmt_rest hi
  have hk' := hk.setStage c x (.writing height e json todo)
  have hcalls : (s₁.setStage c x (.writing height e json todo)).calls =
      Function.update s.calls c (some { x with stage := .writing height e json todo }) := by
    rw [← hc]
    rfl
  refine hs.of_kept hk' (fun w h j hj => hk'.archived (hs.watermark w (hw ▸ h) j hj)) hcalls
    ⟨fun j hj => hk'.archived (hlt j hj), b, obs, done ++ [q], hb, ho, ?_, fun q' hq' => ?_⟩
  · rw [hins, List.append_assoc]
    rfl
  · rcases List.mem_append.mp hq' with h | h
    · exact inserted_setStage (hkeep q' (hdone q' h))
    · obtain rfl := List.mem_singleton.mp h
      exact inserted_setStage hself

/-- **A commit of the whole bundle archives its height.** -/
theorem archived_commit (hd : DistinctHashes chain net) {s : SyncState}
    (hs : Content sha256 chain net s) {t : ℕ × ℕ} {height : ℕ} {b : Bundle}
    {obs : List ObservationRecord} (hb : bundleOf chain net height = .ok b)
    (hall : ∀ q ∈ b.inserts obs, Inserted s t q) : Archived sha256 chain net (s.commit t) height := by
  have hs' := (kept_commit hd hs t).content
  refine ⟨b, hb, ?_, fun x hx => ?_⟩
  · have hseen : (s.blocks.view t b.block.key).isSome = true :=
      hall (.block b.block) (mem_inserts.mpr (Or.inl rfl))
    obtain ⟨r, hr⟩ := Option.isSome_iff_exists.mp hseen
    have hP : BlockOf sha256 chain net b.block.key (b.block.row sha256) :=
      ⟨b, by rw [(bundleOf_ok hb).1, hb], rfl, rfl⟩
    have hc : (s.commit t).blocks.committed b.block.key = some r := hr
    rw [hc, blockOf_functional _ _ _ (hs'.blocks.committed _ _ hc) hP]
  · have hseen : (s.transactions.view t x.key).isSome = true :=
      hall (.transaction x) (mem_inserts.mpr (Or.inr (Or.inl ⟨x, hx, rfl⟩)))
    obtain ⟨r, hr⟩ := Option.isSome_iff_exists.mp hseen
    have hblock : x.block.height = height := by
      rw [(bundleOf_ok hb).2.1 x hx, (bundleOf_ok hb).1]
    have hP : TxOf sha256 chain net x.key (x.row sha256) := ⟨b, hblock ▸ hb, x, hx, rfl, rfl⟩
    have hc : (s.commit t).transactions.committed x.key = some r := hr
    rw [hc, txOf_functional hd _ _ _ (hs'.transactions.committed _ _ hc) hP]

theorem Inv.commit (hd : DistinctHashes chain net) {s : SyncState} (hs : Inv sha256 chain net s)
    {c height e : ℕ} {x : Call} {json : Option JsString}
    (hst : StageOk sha256 chain net s c (.writing height e json [])) :
    Inv sha256 chain net ((s.commit (c, height)).setStage c x (.written height e json)) := by
  obtain ⟨hlt, b, obs, done, hb, -, hins, hdone⟩ := hst
  rw [List.append_nil] at hins
  have hk := kept_commit hd hs.content (c, height)
  have hk' := hk.setStage c x (.written height e json)
  have harch : Archived sha256 chain net (s.commit (c, height)) height :=
    archived_commit hd hs.content hb (hins ▸ hdone)
  refine hs.of_kept hk' (fun w h j hj => hk'.archived (hs.watermark w h j hj)) rfl fun j hj => ?_
  rcases Nat.lt_or_eq_of_le hj with hlt' | rfl
  · exact hk'.archived (hlt j hlt')
  · exact harch

theorem Inv.resolve {s : SyncState} (hs : Inv sha256 chain net s) {c height e : ℕ} {x : Call}
    {json : Option JsString} (hst : StageOk sha256 chain net s c (.written height e json)) :
    Inv sha256 chain net { s.setStage c x (.ingested height e) with
      lastDParameterJson := remember s.lastDParameterJson x.service json } := by
  have hk : Kept sha256 chain net s { s.setStage c x (.ingested height e) with
      lastDParameterJson := remember s.lastDParameterJson x.service json } (c, 0) := by
    refine Kept.refl hs.content ?_ ?_ ?_ ?_ _ <;> rfl
  exact hs.of_kept hk (fun w h j hj => hk.archived (hs.watermark w h j hj)) rfl
    fun j hj => hk.archived (hst j hj)

theorem Inv.mark {s : SyncState} (hs : Inv sha256 chain net s) {c height e : ℕ} {x : Call}
    (hst : StageOk sha256 chain net s c (.ingested height e)) :
    Inv sha256 chain net { s.setStage c x
      (if height < e then .loop (height + 1) e else .ended) with
        watermark := setWatermark s.watermark height } := by
  have hk : Kept sha256 chain net s { s.setStage c x
      (if height < e then .loop (height + 1) e else .ended) with
        watermark := setWatermark s.watermark height } (c, 0) := by
    refine Kept.refl hs.content ?_ ?_ ?_ ?_ _ <;> rfl
  refine hs.of_kept hk (fun w hw j hj => ?_) rfl ?_
  · have hw' : setWatermark s.watermark height = some w := hw
    rcases hsw : s.watermark with _ | w₀
    · rw [hsw] at hw'
      cases hw'
      exact hk.archived (hst j hj)
    · rw [hsw] at hw'
      simp only [setWatermark] at hw'
      split_ifs at hw'
      · cases hw'
        exact hk.archived (hst j hj)
      · cases hw'
        exact hk.archived (hs.watermark w hsw j hj)
  · split_ifs
    · exact fun j hj => hk.archived (hst j (Nat.lt_succ_iff.mp hj))
    · trivial

/-- The tables and the watermark of the next state. -/
structure Next (sha256 : Bytes → Bytes) (chain : Chain) (net : JsString) (s s' : SyncState) :
    Prop where
  inv : Inv sha256 chain net s'
  blocks : ∀ k r, s.blocks.committed k = some r → s'.blocks.committed k = some r
  transactions : ∀ k r, s.transactions.committed k = some r → s'.transactions.committed k = some r
  watermark : ∀ w, s.watermark = some w → ∃ w', s'.watermark = some w' ∧ w ≤ w'

theorem Next.of_kept {s s' : SyncState} {t : ℕ × ℕ} (hi : Inv sha256 chain net s')
    (hk : Kept sha256 chain net s s' t) (hw : s'.watermark = s.watermark) :
    Next sha256 chain net s s' :=
  ⟨hi, hk.blocks, hk.transactions, fun w h => ⟨w, hw.trans h, le_rfl⟩⟩

theorem Next.trans {s₁ s₂ s₃ : SyncState} (h : Next sha256 chain net s₁ s₂)
    (h' : Next sha256 chain net s₂ s₃) : Next sha256 chain net s₁ s₃ := by
  refine ⟨h'.inv, fun k r hr => h'.blocks k r (h.blocks k r hr),
    fun k r hr => h'.transactions k r (h.transactions k r hr), fun w hw => ?_⟩
  obtain ⟨w₂, hw₂, hle⟩ := h.watermark w hw
  obtain ⟨w₃, hw₃, hle'⟩ := h'.watermark w₂ hw₂
  exact ⟨w₃, hw₃, hle.trans hle'⟩

/-- A step that leaves the tables and the watermark. -/
theorem Next.quiet {s : SyncState} (hs : Inv sha256 chain net s) {c : ℕ} {x : Call} {stage : Stage}
    (hst : StageOk sha256 chain net s c stage) : Next sha256 chain net s (s.setStage c x stage) :=
  ⟨hs.quiet hst, fun _ _ h => h, fun _ _ h => h, fun w h => ⟨w, h, le_rfl⟩⟩

theorem setWatermark_le {stored : Option ℕ} {w height : ℕ} (h : stored = some w) :
    ∃ w', setWatermark stored height = some w' ∧ w ≤ w' := by
  subst h
  unfold setWatermark
  dsimp only
  split_ifs with hlt
  · exact ⟨height, rfl, hlt.le⟩
  · exact ⟨w, rfl, le_rfl⟩

theorem next_move (hd : DistinctHashes chain net) {s s' : SyncState} (hs : Inv sha256 chain net s)
    {c : ℕ} {x : Call} (hx : s.calls c = some x) {ev : Ev}
    (h : Move sha256 chain net s c x ev s') : Next sha256 chain net s s' := by
  have hst := hs.calls c x hx
  rcases h with hx | hx | ⟨hx, hb⟩ | ⟨hx, hb, hr⟩ | ⟨hx, hi⟩ | hx | hx | hx | hx | _
  · exact .quiet hs trivial
  · exact .quiet hs (stageOk_loopFrom hs c x.maxBlocks _)
  · exact .quiet hs trivial
  · rw [hx] at hst
    subst hr
    exact .quiet hs ⟨hst, _, _, [], hb, obsOk_build hb _, rfl, fun q hq => (by cases hq)⟩
  · rw [hx] at hst
    obtain ⟨-, b, obs, done, hb, ho, hins, -⟩ := hst
    have hk := (kept_insert hs.content hb ho (by rw [hins]; simp) hi).1
    exact .of_kept (hs.insert (hx ▸ hs.calls c x ‹_›) hi) (hk.setStage c x _)
      (insertStmt_rest hi).1
  · rw [hx] at hst
    exact .of_kept (hs.commit hd hst) ((kept_commit hd hs.content _).setStage c x _) rfl
  · rw [hx] at hst
    exact ⟨hs.resolve hst, fun _ _ h => h, fun _ _ h => h, fun w h => ⟨w, h, le_rfl⟩⟩
  · rw [hx] at hst
    exact ⟨hs.mark hst, fun _ _ h => h, fun _ _ h => h, fun w h => setWatermark_le h⟩
  · rename_i height _ _ _
    have hk := (kept_rollback hs.content (c, height)).setStage c x .ended
    exact .of_kept (hs.of_kept hk (fun w h j hj => hk.archived (hs.watermark w h j hj)) rfl trivial)
      hk rfl
  · exact .quiet hs trivial

theorem next_step (hd : DistinctHashes chain net) {s s' : SyncState} (hs : Inv sha256 chain net s)
    {ev : Ev} (h : step sha256 chain net s ev = some s') : Next sha256 chain net s s' := by
  rcases step_cases h with ⟨c, service, maxBlocks, -, -, rfl⟩ | ⟨x, hx, hm⟩
  · exact .quiet hs (c := c) (x := ⟨service, maxBlocks, .called⟩) trivial
  · exact next_move hd hs hx hm

/-! ### Every run -/

/-- A row of the height that is archived is found by every transaction. -/
theorem seen_of_archived {s : SyncState} (hs : Content sha256 chain net s) {t : ℕ × ℕ} {height : ℕ}
    (ha : Archived sha256 chain net s height) {b : Bundle} (hb : bundleOf chain net height = .ok b) :
    Seen s.blocks t b.block.key ∧ ∀ x ∈ b.transactions, Seen s.transactions t x.key := by
  obtain ⟨b', hb', hk, ht⟩ := ha
  cases hb.symm.trans hb'
  refine ⟨seen_of_committed hs.blocks (by rw [hk]; rfl), fun x hx => ?_⟩
  exact seen_of_committed hs.transactions (by rw [ht x hx]; rfl)

/-- **A bundle for a height that is archived**: a statement of it can be executed, unless it waits
for the observation of another transaction, and leaves the rows as they are. -/
theorem reingest {s : SyncState} (hs : Inv sha256 chain net s) {c height e : ℕ} {x : Call}
    {json : Option JsString} {q : Insert} {todo : List Insert} (hx : s.calls c = some x)
    (hst : x.stage = .writing height e json (q :: todo)) (ha : Archived sha256 chain net s height) :
    ((∃ s', step sha256 chain net s (.insert c) = some s') ∨
        ∃ o, q = .observation o ∧ s.observations.free (c, height) o.block = false) ∧
      ∀ s', step sha256 chain net s (.insert c) = some s' →
        s'.blocks = s.blocks ∧ s'.transactions = s.transactions := by
  have hok := hs.calls c x hx
  rw [hst] at hok
  obtain ⟨-, b, obs, done, hb, ho, hins, -⟩ := hok
  have hq : q ∈ b.inserts obs := by rw [hins]; simp
  obtain ⟨hblock, htxs⟩ := seen_of_archived (t := (c, height)) hs.content ha hb
  have hstep : step sha256 chain net s (.insert c) =
      (insertStmt sha256 s (c, height) q).map fun s' =>
        s'.setStage c x (.writing height e json todo) := by
    simp only [step, Ev.id, hx, hst, callStep]
  have hfound : ∀ k, k = b.block.key → (s.blocks.view (c, height) k).isNone = false := by
    rintro k rfl
    rw [Option.isNone_eq_false_iff]
    exact hblock
  rw [hstep]
  rcases mem_inserts.mp hq with rfl | ⟨y, hy, rfl⟩ | ⟨o, hmem, rfl⟩
  · have hi : insertStmt sha256 s (c, height) (.block b.block) = some s := by
      simp only [insertStmt, insertRow_of_seen hblock]
      rfl
    rw [hi]
    exact ⟨Or.inl ⟨_, rfl⟩, fun s' h => by cases h; exact ⟨rfl, rfl⟩⟩
  · have hi : insertStmt sha256 s (c, height) (.transaction y) = some s := by
      have hseen : (s.transactions.view (c, height) y.key).isSome = true := htxs y hy
      simp only [insertStmt]
      rw [if_neg (by rw [hfound _ ((bundleOf_ok hb).2.1 y hy)]; simp), if_pos (Or.inl hseen)]
    rw [hi]
    exact ⟨Or.inl ⟨_, rfl⟩, fun s' h => by cases h; exact ⟨rfl, rfl⟩⟩
  · have hi : insertStmt sha256 s (c, height) (.observation o) =
        (insertRow s.observations (c, height) o.block o.rawBytes).map fun tbl =>
          { s with observations := tbl } := by
      simp only [insertStmt]
      rw [if_neg (by rw [hfound _ (ho o hmem).1]; simp)]
      rcases insertRow s.observations (c, height) o.block o.rawBytes with _ | tbl
      · rfl
      · rfl
    rw [hi]
    rcases hr : insertRow s.observations (c, height) o.block o.rawBytes with _ | tbl
    · refine ⟨Or.inr ⟨o, rfl, ?_⟩, fun s' h => by cases h⟩
      unfold insertRow at hr
      split_ifs at hr with hv hf
      simpa using hf
    · exact ⟨Or.inl ⟨_, rfl⟩, fun s' h => by cases h; exact ⟨rfl, rfl⟩⟩

/-- **The sync cursor never passes missing data.** In every state reached by any interleaving of
`syncOnce` calls, with failures anywhere, a watermark of `w` means that the block and the
transactions of every height up to `w` are committed. In every later state the watermark is not
smaller and the rows are as they were. A bundle for a height that is archived does not fail on the
rows that are there, and does not touch them. -/
theorem cursor_no_gap (sha256 : Bytes → Bytes) {chain : Chain} {net : JsString}
    (hd : DistinctHashes chain net) {es : List Ev} {s : SyncState}
    (h : run (step sha256 chain net) es .init = some s) :
    (∀ w, s.watermark = some w → ∀ j ≤ w, Archived sha256 chain net s j) ∧
    (∀ es' s', run (step sha256 chain net) es' s = some s' →
      (∀ w, s.watermark = some w → ∃ w', s'.watermark = some w' ∧ w ≤ w') ∧
      (∀ k r, s.blocks.committed k = some r → s'.blocks.committed k = some r) ∧
      (∀ k r, s.transactions.committed k = some r → s'.transactions.committed k = some r)) ∧
    (∀ c x height e json q todo, s.calls c = some x →
      x.stage = .writing height e json (q :: todo) → Archived sha256 chain net s height →
      ((∃ s', step sha256 chain net s (.insert c) = some s') ∨
        ∃ o, q = .observation o ∧ s.observations.free (c, height) o.block = false) ∧
      ∀ s', step sha256 chain net s (.insert c) = some s' →
        s'.blocks = s.blocks ∧ s'.transactions = s.transactions) := by
  have hs : Inv sha256 chain net s :=
    run_inv (fun _ _ _ hI hst => (next_step hd hI hst).inv) es _ s inv_init h
  refine ⟨hs.watermark, fun es' s' h' => ?_, fun c x height e json q todo hx hst ha =>
    reingest hs hx hst ha⟩
  have hn : Next sha256 chain net s s' :=
    run_inv (I := fun s' => Next sha256 chain net s s')
      (fun _ _ _ hI hst => hI.trans (next_step hd hI.inv hst)) es' s s'
      ⟨hs, fun _ _ h => h, fun _ _ h => h, fun w h => ⟨w, h, le_rfl⟩⟩ h'
  exact ⟨hn.watermark, hn.blocks, hn.transactions⟩

/-- A hash that repeats one digit. -/
def digitHash (d : ℕ) : JsString := ascii "0x" ++ List.replicate 64 (Js.Numerals.digit d)

/-- Blocks with one transaction each, and the D-parameters `d`. -/
def smallChain (d : ℕ → DParameter) : Chain where
  node h := ⟨digitHash h, digitHash (h - 1), digitHash h, digitHash h, [1], [ascii "0x0401"], []⟩
  indexer h := ⟨digitHash h, [⟨digitHash h, 1, ascii "01"⟩], d h⟩

theorem distinctHashes_smallChain (d : ℕ → DParameter) (net : JsString) :
    DistinctHashes (smallChain d) net := by
  intro height b hb
  have hlen := congrArg List.length (bundleOf_ok hb).2.2
  rw [List.length_map, List.length_range'] at hlen
  obtain ⟨t, ht⟩ := List.length_eq_one_iff.mp hlen
  rw [ht]
  exact List.nodup_singleton _

/-- Two instances ingest the height 0; the second waits for the first to commit. The first dies
before it sets the watermark, which the second does; a third call ingests the height 1, and a stale
one, whose cursor was read before, the height 1 again. -/
def overlappingSyncs : List Ev :=
  [.call 0 0 100, .target 0 1, .readCursor 0, .build 0, .insert 0, .insert 0, .insert 0,
    .call 1 1 1, .target 1 1, .readCursor 1, .build 1, .commit 0, .fail 0,
    .insert 1, .insert 1, .insert 1, .commit 1, .resolve 1, .mark 1,
    .call 2 1 100, .target 2 1, .readCursor 2, .call 3 2 5, .target 3 1, .readCursor 3,
    .build 2, .insert 2, .insert 2, .commit 2, .resolve 2, .mark 2, .build 3, .insert 3, .insert 3,
    .insert 3, .commit 3, .resolve 3, .mark 3]

/-- A chain whose D-parameter never changes. -/
def quietChain : Chain := smallChain fun _ => ⟨5, 0⟩

theorem cursor_no_gap_overlappingSyncs :
    ∃ s, run (step sha256OfByte quietChain [109]) overlappingSyncs .init = some s ∧
      s.watermark = some 1 ∧ Archived sha256OfByte quietChain [109] s 0 ∧
      Archived sha256OfByte quietChain [109] s 1 := by
  have hr : (run (step sha256OfByte quietChain [109]) overlappingSyncs .init).map
      (fun s => s.watermark) = some (some 1) := by
    decide +kernel
  obtain ⟨s, hs, hw⟩ := Option.map_eq_some_iff.mp hr
  have ha := (cursor_no_gap sha256OfByte (distinctHashes_smallChain _ _) hs).1 1 hw
  exact ⟨s, hs, hw, ha 0 (by omega), ha 1 le_rfl⟩

end UmbraDB.Archive.Cursor
