import UmbraDB.Ckpt.Batching
import UmbraDB.Ckpt.History
import UmbraDB.Lib.Transcripts

/-! # Checkpoint store: a store for each wallet

What the store is for: every wallet and network has its own list of checkpoints (`Wallet`), with no
tables, chunks or hashes of chunks. `PgCheckpointStore` answers every sequence of operations as these
lists do, errors included. So a wallet sees what it would see alone, although all wallets share the
rows of their chunks and `prune` deletes chunks for all of them.

Operations run one after the other, as in `Ckpt.RoundTrip`. A reply to `prune` has the sequences; the
numbers of reclaimed chunks and bytes depend on the other wallets and are left out.

* `store_refines_wallets` : all replies, and all reads afterwards.
* `wallets_isolated` : what a wallet sees does not depend on the others. -/

namespace UmbraDB.Ckpt.Wallets

open UmbraDB.Js.Text UmbraDB.Lib.Runs UmbraDB.Lib.Batches UmbraDB.Lib.Fallible
open UmbraDB.Lib.Transcripts UmbraDB.Ckpt.Rows UmbraDB.Ckpt.RoundTrip UmbraDB.Ckpt.Batching
open UmbraDB.Ckpt.History

/-! ### Replies -/

inductive Reply
  | saved (summary : CheckpointSummary)
  | pruned (sequences : List ℕ)
  | rejected (e : CkptError)
  deriving DecidableEq

/-- An operation of the store. -/
def execute (sha256 : Bytes → Bytes) (db : CkptDb) : Op → CkptDb × Reply
  | .save now w net data opts =>
    match save sha256 now w net data opts db with
    | .ok (db', summary) => (db', .saved summary)
    | .error e => (db, .rejected e)
  | .prune now w net retainCount =>
    match prune now w net retainCount db with
    | .ok (db', result) => (db', .pruned result.prunedSequences)
    | .error e => (db, .rejected e)

/-- The wallet and network of an operation. -/
def Op.key : Op → JsString × JsString
  | .save _ w net _ _ => (w, net)
  | .prune _ w net _ => (w, net)

/-! ### The specification -/

/-- The checkpoints of a wallet and network, by ascending sequence, and the next sequence. -/
structure Wallet where
  next : ℕ
  records : List CheckpointRecord
  deriving DecidableEq

def Wallet.empty : Wallet := ⟨1, []⟩

namespace Wallet

/-- Positions are of type `integer`, so a checkpoint has at most `2 ^ 31` chunks. -/
def add (sha256 : Bytes → Bytes) (now : ℤ) (data : Bytes) (opts : SaveOptions) (x : Wallet) :
    Except CkptError (Wallet × CheckpointSummary) := do
  let chunks := splitChunks data (opts.chunkSize.getD defaultChunkSize)
  let label ← bindLabel opts.label
  if 2147483648 < chunks.length then .error (.postgres "22003")
  else do
    let sequence ← coerceToSafeNumber x.next "CheckpointSummary.sequence"
    let summary : CheckpointSummary := ⟨sequence, sha256 (chunks.map sha256).flatten, data.length,
      chunks.length, label, now⟩
    return (⟨x.next + 1, x.records ++ [⟨summary, data⟩]⟩, summary)

/-- The last `n` records stay. -/
def keepLast (n : ℕ) (x : Wallet) : Wallet × List ℕ :=
  let pruned := x.records.length - n
  (⟨x.next, x.records.drop pruned⟩, (x.records.take pruned).map (·.summary.sequence))

def save (sha256 : Bytes → Bytes) (now : ℤ) (w net : JsString) (data : Bytes) (opts : SaveOptions)
    (x : Wallet) : Except CkptError (Wallet × CheckpointSummary) := do
  assertValidCheckpointIds w net
  let opts ← validateSaveOptions opts
  x.add sha256 now data opts

def prune (w net : JsString) (retainCount : ℤ) (x : Wallet) :
    Except CkptError (Wallet × List ℕ) := do
  assertValidCheckpointIds w net
  if retainCount < 1 ∨ (maxSafeInteger : ℤ) < retainCount then
    .error (.validation "prune retainCount must be a safe integer >= 1")
  else .ok (x.keepLast retainCount.toNat)

def load (w net : JsString) (sequence : Option ℕ) (x : Wallet) :
    Except CkptError CheckpointRecord := do
  assertValidCheckpointIds w net
  match (x.records.filter fun r => sequence.all (r.summary.sequence == ·)).getLast? with
  | none => .error (.checkpointNotFound w net sequence)
  | some record => .ok record

def history (w net : JsString) (opts : HistoryOptions) (x : Wallet) :
    Except CkptError (List CheckpointSummary) := do
  assertValidCheckpointIds w net
  let (limit, before) ← validateHistoryOptions opts
  return ((x.records.map (·.summary)).filter fun e =>
    before.all fun b => decide (e.sequence < b)).reverse.take limit

/-- An operation on one wallet and network. -/
def execute (sha256 : Bytes → Bytes) (x : Wallet) : Op → Wallet × Reply
  | .save now w net data opts =>
    match x.save sha256 now w net data opts with
    | .ok (x', summary) => (x', .saved summary)
    | .error e => (x, .rejected e)
  | .prune _ w net retainCount =>
    match x.prune w net retainCount with
    | .ok (x', sequences) => (x', .pruned sequences)
    | .error e => (x, .rejected e)

end Wallet

/-! ### Ascending lists of sequences -/

/-- A predicate that holds up to a place and not after it. -/
theorem filter_cut {X : Type} {p : X → Bool} {l : List X} (k : ℕ)
    (hp : ∀ a ∈ l.take k, p a = true) (hn : ∀ a ∈ l.drop k, p a = false) :
    l.filter p = l.take k ∧ l.filter (fun a => !p a) = l.drop k := by
  have hsplit : ∀ q : X → Bool, l.filter q = (l.take k).filter q ++ (l.drop k).filter q := by
    intro q
    rw [← List.filter_append, List.take_append_drop]
  constructor
  · rw [hsplit, List.filter_eq_self.mpr hp,
      List.filter_eq_nil_iff.mpr fun a ha => by simp [hn a ha], List.append_nil]
  · rw [hsplit, List.filter_eq_nil_iff.mpr fun a ha => by simp [hp a ha],
      List.filter_eq_self.mpr fun a ha => by simp [hn a ha], List.nil_append]

/-- The elements below the `n`-th last one are those before the last `n`. -/
theorem filter_below {n : ℕ} (hn : 1 ≤ n) {seqs : List ℕ} (h : seqs.Pairwise (· < ·)) :
    (seqs.filter fun q => seqs.reverse[n - 1]?.any fun b => decide (q < b)) =
        seqs.take (seqs.length - n) ∧
      (seqs.filter fun q => !seqs.reverse[n - 1]?.any fun b => decide (q < b)) =
        seqs.drop (seqs.length - n) := by
  by_cases hlen : n ≤ seqs.length
  · have hk : seqs.length - n < seqs.length := by omega
    have hplace : seqs.reverse[n - 1]? = some seqs[seqs.length - n] := by
      rw [List.getElem?_reverse (by omega), List.getElem?_eq_getElem (by omega)]
      congr 2
      omega
    rw [hplace]
    simp only [Option.any_some]
    refine filter_cut _ (fun q hq => ?_) fun q hq => ?_
    · obtain ⟨i, hi, rfl⟩ := List.mem_take_iff_getElem.mp hq
      exact decide_eq_true (List.pairwise_iff_getElem.mp h _ _ (by omega) hk (by omega))
    · obtain ⟨i, hi, rfl⟩ := List.mem_drop_iff_getElem.mp hq
      rw [decide_eq_false_iff_not]
      rcases Nat.eq_zero_or_pos i with rfl | hpos
      · exact lt_irrefl _
      · exact not_lt.mpr (List.pairwise_iff_getElem.mp h _ _ hk (by omega) (by omega)).le
  · have hnone : seqs.reverse[n - 1]? = none :=
      List.getElem?_eq_none (by rw [List.length_reverse]; omega)
    have hzero : seqs.length - n = 0 := by omega
    rw [hnone, hzero]
    exact filter_cut 0 (fun q hq => by cases hq) fun q _ => rfl

/-- Those whose sequence is one of the first `k` are the first `k`. -/
theorem filter_contains {X : Type} {f : X → ℕ} {l : List X} (h : (l.map f).Nodup) (k : ℕ) :
    l.filter (fun a => !((l.take k).map f).contains (f a)) = l.drop k := by
  refine (filter_cut k (fun a ha => ?_) fun a ha => ?_).2
  · rw [List.contains_iff_mem]
    exact List.mem_map_of_mem ha
  · rw [← List.take_append_drop k l, List.map_append, List.nodup_append] at h
    rw [Bool.eq_false_iff, ne_eq, List.contains_iff_mem]
    intro hmem
    exact h.2.2 _ hmem _ (List.mem_map_of_mem ha) rfl

/-- Two lists with the same keys, of elements that their keys determine. -/
theorem eq_of_map_eq {X : Type} {f : X → ℕ} {S : X → Prop}
    (hinj : ∀ a b, S a → S b → f a = f b → a = b) : ∀ {l l' : List X}, l.map f = l'.map f →
    (∀ a ∈ l, S a) → (∀ a ∈ l', S a) → l = l'
  | [], [], _, _, _ => rfl
  | [], _ :: _, h, _, _ => by cases h
  | _ :: _, [], h, _, _ => by cases h
  | a :: l, b :: l', h, ha, hb => by
    rw [List.map_cons, List.map_cons, List.cons.injEq] at h
    obtain ⟨hab, hrest⟩ := h
    rw [List.forall_mem_cons] at ha hb
    rw [hinj a b ha.1 hb.1 hab, eq_of_map_eq hinj hrest ha.2 hb.2]

/-! ### The inserts of a `save` -/

theorem claimSeq_getD (counters : List CounterRow) (w net : JsString) :
    (claimSeq counters w net).2 = (nextSeq counters w net).getD 1 := by
  unfold claimSeq
  rcases nextSeq counters w net with _ | n
  · rfl
  · rfl

/-- The primary key of `ckpt_manifest_chunks`. -/
def junctionKey (j : JunctionRow) : ℕ × ℕ := (j.manifestId, j.position)

/-- The batches of the junction rows fail for a position that is too large, and for no other
reason. -/
theorem insertBatches_result : ∀ (bs : List (List JunctionRow)) (db : CkptDb),
    (∀ b ∈ bs, 3 * b.length < maxBindParams) →
    ((db.junction ++ bs.flatten).map junctionKey).Nodup →
    (∀ row ∈ bs.flatten, referencesOk db row = true) →
    bs.foldlM insertJunctionStmt db =
      if bs.flatten.any (fun row => decide (2147483647 < row.position)) then
        .error (.postgres "22003")
      else .ok { db with junction := db.junction ++ bs.flatten }
  | [], db, _, _, _ => by
    rw [List.flatten_nil, List.append_nil]
    rfl
  | b :: bs, db, hlen, hkey, href => by
    rw [List.flatten_cons] at hkey href ⊢
    have hkey' : ((db.junction ++ b).map fun j => (j.manifestId, j.position)).Nodup := by
      rw [← List.append_assoc, List.map_append] at hkey
      exact (List.nodup_append.mp hkey).1
    have href' : b.all (referencesOk db) = true :=
      List.all_eq_true.mpr fun row hrow => href row (List.mem_append_left _ hrow)
    have hparams := hlen b List.mem_cons_self
    rw [List.foldlM_cons, insertJunctionStmt, if_neg (by omega), if_neg (not_not.mpr hkey'),
      if_neg (not_not.mpr href'), List.any_append]
    by_cases hpos : b.any (fun row => decide (2147483647 < row.position)) = true
    · rw [if_pos hpos, hpos, Bool.true_or, if_pos rfl]
      rfl
    · rw [if_neg hpos, Bool.not_eq_true _ |>.mp hpos, Bool.false_or]
      have ih := insertBatches_result bs { db with junction := db.junction ++ b }
        (fun b' hb' => hlen b' (List.mem_cons_of_mem _ hb')) (by rw [List.append_assoc]; exact hkey)
        fun row hrow => href row (List.mem_append_right _ hrow)
      rw [List.append_assoc] at ih
      exact ih

theorem junctionKeys_append {db : CkptDb} (hkeys : (db.junction.map junctionKey).Nodup)
    (hnew : ∀ j ∈ db.junction, j.manifestId < db.nextId) (hashes : List Bytes) :
    ((db.junction ++ junctionRowsOf db.nextId 0 hashes).map junctionKey).Nodup := by
  rw [List.map_append, List.nodup_append]
  refine ⟨hkeys, ?_, fun a ha b hb he => ?_⟩
  · have hpos : ((junctionRowsOf db.nextId 0 hashes).map (·.position)).Nodup := by
      rw [junctionRowsOf_positions]
      exact List.nodup_range'
    rw [List.Nodup, List.pairwise_map] at hpos ⊢
    exact hpos.imp fun hne he => hne (congrArg Prod.snd he)
  · obtain ⟨j, hj, rfl⟩ := List.mem_map.mp ha
    obtain ⟨j', hj', rfl⟩ := List.mem_map.mp hb
    have hid : j.manifestId = j'.manifestId := congrArg Prod.fst he
    have hlt := hnew j hj
    rw [hid, (mem_junctionRowsOf hj').1] at hlt
    exact lt_irrefl _ hlt

theorem any_position (id : ℕ) (hashes : List Bytes) :
    (junctionRowsOf id 0 hashes).any (fun row => decide (2147483647 < row.position)) =
      decide (2147483648 < hashes.length) := by
  have hmap : (junctionRowsOf id 0 hashes).any (fun row => decide (2147483647 < row.position)) =
      (List.range' 0 hashes.length).any fun p => decide (2147483647 < p) := by
    rw [← junctionRowsOf_positions id hashes 0, List.any_map]
    rfl
  rw [hmap, Bool.eq_iff_iff, List.any_eq_true, decide_eq_true_eq]
  constructor
  · rintro ⟨p, hp, hlt⟩
    rw [List.mem_range'_1] at hp
    rw [decide_eq_true_eq] at hlt
    omega
  · intro h
    refine ⟨2147483648, ?_, by decide⟩
    rw [List.mem_range'_1]
    omega

variable {sha256 : Bytes → Bytes} {U : Set Bytes}

theorem stored_chunks (now : ℤ) (chunks : List Bytes) (table : List ChunkRow) {hash : Bytes}
    (h : hash ∈ chunks.map sha256) :
    Stored (chunks.foldl (fun table chunk => upsertChunk now table (sha256 chunk, chunk)) table)
      hash := by
  rw [← foldl_chunkRowsOf chunks [] table fun hash h => absurd h List.not_mem_nil]
  refine stored_upsertChunks _ (Or.inr ?_)
  obtain ⟨chunk, hchunk, rfl⟩ := List.mem_map.mp h
  rcases exists_chunkRowsOf [] _ hchunk with h0 | hrow
  · exact absurd h0 (by simp)
  · exact hrow

/-- The junction rows of a new manifest. -/
theorem insertJunction_result (sha256 : Bytes → Bytes) {db : CkptDb}
    (hkeys : (db.junction.map junctionKey).Nodup)
    (hnew : ∀ j ∈ db.junction, j.manifestId < db.nextId) (now : ℤ) (chunks : List Bytes)
    (counters : List CounterRow) {m : ManifestRow} (hm : m.id = db.nextId) {rows : CkptDb}
    (hrows : rows = ⟨chunks.foldl (fun table chunk => upsertChunk now table (sha256 chunk, chunk))
      db.chunks, db.manifests ++ [m], db.junction, counters, db.nextId + 1⟩) :
    (batches junctionInsertMaxRows (junctionRowsOf db.nextId 0 (chunks.map sha256))).foldlM
        insertJunctionStmt rows =
      if 2147483648 < chunks.length then .error (.postgres "22003")
      else .ok { rows with
        junction := db.junction ++ junctionRowsOf db.nextId 0 (chunks.map sha256) } := by
  subst hrows
  have hflat := flatten_batches (show 0 < junctionInsertMaxRows by decide)
    (junctionRowsOf db.nextId 0 (chunks.map sha256))
  rw [insertBatches_result _ _ fun b hb => (junctionBatch_params hb).2, hflat, any_position,
    List.length_map]
  · simp only [decide_eq_true_eq]
  · rw [hflat]
    exact junctionKeys_append hkeys hnew _
  · rw [hflat]
    intro row hrow
    obtain ⟨hid, hhash, -⟩ := mem_junctionRowsOf hrow
    rw [referencesOk, Bool.and_eq_true, List.any_eq_true, List.any_eq_true]
    refine ⟨?_, m, List.mem_append_right _ List.mem_cons_self, by simp [hm, hid]⟩
    obtain ⟨c, hc, he⟩ := stored_chunks now chunks db.chunks hhash
    exact ⟨c, hc, by simp [he]⟩

/-- **What a `save` answers**, if the keys of the tables are as they should be. -/
theorem saveImpl_result {db : CkptDb} {x : Wallet} {w net : JsString}
    (hkeys : (db.junction.map junctionKey).Nodup)
    (hnew : ∀ j ∈ db.junction, j.manifestId < db.nextId)
    (hnext : x.next = (nextSeq db.counters w net).getD 1) (now : ℤ) (data : Bytes)
    (opts : SaveOptions) :
    (saveImpl sha256 now w net data opts db).map (·.2) =
      (x.add sha256 now data opts).map (·.2) := by
  unfold saveImpl Wallet.add
  generalize splitChunks data (opts.chunkSize.getD defaultChunkSize) = chunks
  obtain ⟨counters, hcounters⟩ : ∃ counters, claimSeq db.counters w net = (counters, x.next) :=
    ⟨_, Prod.ext rfl ((claimSeq_getD _ w net).trans hnext.symm)⟩
  simp only [upsertBatches_eq, upsertEach_eq, hcounters, bind, Except.bind]
  rcases bindLabel opts.label with e | label
  · rfl
  · have hins := insertJunction_result sha256 (m := ⟨db.nextId, w, net, x.next, true,
      sha256 (chunks.map sha256).flatten, label, now⟩) hkeys hnew now chunks counters rfl rfl
    simp only [hins]
    split_ifs with hlen
    · rfl
    · simp only [toSummary, bind, Except.bind]
      rcases coerceToSafeNumber x.next "CheckpointSummary.sequence" with e | sequence
      · rfl
      · rfl

/-! ### The tables show the wallets -/

def ownRow (w net : JsString) (m : ManifestRow) : Bool := m.w == w && m.net == net

def ownKept (w net : JsString) (k : Kept) : Bool := k.saved.w == w && k.saved.net == net

def record (k : Kept) : CheckpointRecord := ⟨k.summary, k.saved.data⟩

def sequencesOf (x : Wallet) : List ℕ := x.records.map (·.summary.sequence)

/-- The part of the tables that belongs to a wallet and network. -/
structure ShowsOne (s : KeptState) (w net : JsString) (x : Wallet) : Prop where
  next : x.next = (nextSeq s.db.counters w net).getD 1
  records : x.records = (s.kept.filter (ownKept w net)).map record
  rows : (s.db.manifests.filter (ownRow w net)).map (·.seq) = sequencesOf x
  ascending : (sequencesOf x).Pairwise (· < ·)
  below : ∀ n ∈ sequencesOf x, n < x.next

structure Shows (s : KeptState) (f : JsString × JsString → Wallet) : Prop where
  keys : (s.db.junction.map junctionKey).Nodup
  one : ∀ w net, ShowsOne s w net (f (w, net))

theorem shows_init : Shows .init fun _ => .empty := by
  refine ⟨List.nodup_nil, fun w net => ⟨rfl, rfl, rfl, List.Pairwise.nil, fun n hn => ?_⟩⟩
  cases hn

variable {s s' : KeptState} {f : JsString × JsString → Wallet}

theorem Wallet.save_ok {x x' : Wallet} {now : ℤ} {w net : JsString} {data : Bytes}
    {opts : SaveOptions} {summary : CheckpointSummary}
    (h : x.save sha256 now w net data opts = .ok (x', summary)) :
    x' = ⟨x.next + 1, x.records ++ [⟨summary, data⟩]⟩ ∧ summary.sequence = x.next := by
  unfold Wallet.save Wallet.add at h
  obtain ⟨⟨⟩, -, h⟩ := bind_ok.mp h
  obtain ⟨opts', -, h⟩ := bind_ok.mp h
  obtain ⟨label, -, h⟩ := bind_ok.mp h
  split_ifs at h
  obtain ⟨sequence, hseq, h⟩ := bind_ok.mp h
  cases h
  exact ⟨rfl, (coerceToSafeNumber_ok hseq).1⟩

/-- Results with the same answer. -/
theorem map_snd_cases {X Y Z : Type} {a : Except CkptError (X × Z)} {b : Except CkptError (Y × Z)}
    (h : a.map (·.2) = b.map (·.2)) :
    (∃ e, a = .error e ∧ b = .error e) ∨ ∃ x y z, a = .ok (x, z) ∧ b = .ok (y, z) := by
  rcases a with e | ⟨x, z⟩
  · rcases b with e' | ⟨y, z'⟩
    · cases h
      exact Or.inl ⟨e, rfl, rfl⟩
    · cases h
  · rcases b with e' | ⟨y, z'⟩
    · cases h
    · cases h
      exact Or.inr ⟨x, y, z, rfl, rfl⟩

/-- The rows of the others are not those of the operation. -/
theorem ShowsOne.other {w net : JsString} {x : Wallet} (h : ShowsOne s w net x)
    (hnext : nextSeq s'.db.counters w net = nextSeq s.db.counters w net)
    (hkept : s'.kept.filter (ownKept w net) = s.kept.filter (ownKept w net))
    (hrows : s'.db.manifests.filter (ownRow w net) = s.db.manifests.filter (ownRow w net)) :
    ShowsOne s' w net x := by
  refine ⟨?_, ?_, ?_, h.ascending, h.below⟩
  · rw [hnext]
    exact h.next
  · rw [hkept]
    exact h.records
  · rw [hrows]
    exact h.rows

theorem ownRow_false {w net w' net' : JsString} (hne : (w, net) ≠ (w', net')) {m : ManifestRow}
    (hw : m.w = w) (hnet : m.net = net) : ownRow w' net' m = false := by
  rw [ownRow, Bool.and_eq_false_iff, beq_eq_false_iff_ne, beq_eq_false_iff_ne, hw, hnet]
  by_cases h : w = w'
  · exact Or.inr fun h' => hne (Prod.ext h h')
  · exact Or.inl h

theorem ownKept_false {w net w' net' : JsString} (hne : (w, net) ≠ (w', net')) {k : Kept}
    (hw : k.saved.w = w) (hnet : k.saved.net = net) : ownKept w' net' k = false := by
  rw [ownKept, Bool.and_eq_false_iff, beq_eq_false_iff_ne, beq_eq_false_iff_ne, hw, hnet]
  by_cases h : w = w'
  · exact Or.inr fun h' => hne (Prod.ext h h')
  · exact Or.inl h

theorem shows_save (hK : KeptInv sha256 U s) (h : Shows s f) (now : ℤ) (w net : JsString)
    (data : Bytes) (opts : SaveOptions) :
    (execute sha256 s.db (.save now w net data opts)).2 =
        (onKey Op.key (Wallet.execute sha256) f (.save now w net data opts)).2 ∧
      ∃ s', keptStep sha256 s (.save now w net data opts) = some s' ∧
        s'.db = (execute sha256 s.db (.save now w net data opts)).1 ∧
        Shows s' (onKey Op.key (Wallet.execute sha256) f (.save now w net data opts)).1 := by
  have hresult : (save sha256 now w net data opts s.db).map (·.2) =
      ((f (w, net)).save sha256 now w net data opts).map (·.2) := by
    unfold save Wallet.save
    rcases assertValidCheckpointIds w net with e | ⟨⟩
    · rfl
    · rcases validateSaveOptions opts with e | opts'
      · rfl
      · exact saveImpl_result h.keys hK.inv.junctionId (h.one w net).next now data opts'
  rcases map_snd_cases hresult with ⟨e, hs, hx⟩ | ⟨db', x', summary, hs, hx⟩
  · simp only [execute, hs, onKey, Op.key, Wallet.execute, hx, keptStep, Function.update_eq_self]
    exact ⟨trivial, s, rfl, rfl, h⟩
  · simp only [execute, hs, onKey, Op.key, Wallet.execute, hx, keptStep]
    refine ⟨trivial, _, rfl, rfl, ?_⟩
    obtain ⟨rfl, hseq⟩ := Wallet.save_ok hx
    obtain ⟨-, -, himpl⟩ := RoundTrip.save_ok hs
    obtain ⟨label, stored, m, -, -, hm, rfl, hsummary, -⟩ := saveImpl_ok himpl
    have hmseq : m.seq = (f (w, net)).next := by rw [← hseq, hsummary]
    refine ⟨junctionKeys_append h.keys hK.inv.junctionId _, fun w' net' => ?_⟩
    by_cases hne : (w, net) = (w', net')
    · cases hne
      have h₁ := h.one w net
      have hadd : sequencesOf ⟨(f (w, net)).next + 1, (f (w, net)).records ++ [⟨summary, data⟩]⟩ =
          sequencesOf (f (w, net)) ++ [(f (w, net)).next] := by
        rw [sequencesOf, sequencesOf, List.map_append, List.map_singleton, hseq]
      rw [Function.update_self]
      refine ⟨?_, ?_, ?_, ?_, ?_⟩
      · rw [nextSeq_claimSeq, if_pos ⟨rfl, rfl⟩, claimSeq_getD, ← h₁.next]
        rfl
      · rw [List.filter_append, List.map_append, ← h₁.records]
        simp [ownKept, record]
      · rw [List.filter_append, List.filter_cons_of_pos (by simp [ownRow, hm]), List.filter_nil,
          List.map_append, h₁.rows, hadd, List.map_singleton, hmseq]
      · rw [hadd]
        refine List.pairwise_append.mpr ⟨h₁.ascending, by simp, fun a ha b hb => ?_⟩
        rw [List.mem_singleton.mp hb]
        exact h₁.below a ha
      · rw [hadd]
        intro n hn
        show n < (f (w, net)).next + 1
        rcases List.mem_append.mp hn with hn | hn
        · exact Nat.lt_succ_of_lt (h₁.below n hn)
        · rw [List.mem_singleton.mp hn]
          exact Nat.lt_succ_self _
    · rw [Function.update_of_ne (Ne.symm hne)]
      refine (h.one w' net').other ?_ ?_ ?_
      · rw [nextSeq_claimSeq, if_neg fun hk => hne (Prod.ext hk.1 hk.2)]
      · rw [List.filter_append, List.filter_cons_of_neg (by rw [ownKept_false hne rfl rfl]; simp),
          List.filter_nil, List.append_nil]
      · have hown := ownRow_false hne (m := m) (by rw [hm]) (by rw [hm])
        rw [List.filter_append, List.filter_cons_of_neg (by rw [hown]; simp), List.filter_nil,
          List.append_nil]

/-! ### `prune` -/

theorem complete_of_mem (hK : KeptInv sha256 U s) {m : ManifestRow} (hm : m ∈ s.db.manifests) :
    m.complete = true := by
  obtain ⟨r, -, hh⟩ := hK.inv.saved m hm
  exact hh.complete

theorem number_of_mem (hK : KeptInv sha256 U s) {k : Kept} (hk : k ∈ s.kept) :
    k.saved.seq = k.summary.sequence := by
  obtain ⟨m, -, -, -, hseq, hsummary⟩ := hK.matching k hk
  rw [hsummary, hseq]

theorem manifestsOf_eq (hK : KeptInv sha256 U s) (w net : JsString) :
    manifestsOf s.db w net = s.db.manifests.filter (ownRow w net) :=
  List.filter_congr fun m hm => by rw [complete_of_mem hK hm, Bool.and_true, ownRow]

/-- The rows that a statement selects by their sequence, from the last one on. -/
theorem bySeqDesc_sequences (hK : KeptInv sha256 U s) {w net : JsString} {x : Wallet}
    (h : ShowsOne s w net x) (p : ℕ → Bool) :
    (bySeqDesc ((manifestsOf s.db w net).filter fun m => p m.seq)).map (·.seq) =
      ((sequencesOf x).filter p).reverse := by
  have hrows : ((manifestsOf s.db w net).filter fun m => p m.seq).map (·.seq) =
      (sequencesOf x).filter p := by
    rw [manifestsOf_eq hK, ← h.rows, List.filter_map]
    rfl
  have hperm : ((bySeqDesc ((manifestsOf s.db w net).filter fun m => p m.seq)).map (·.seq)).Perm
      ((sequencesOf x).filter p).reverse := by
    refine ((List.perm_insertionSort _ _).map _).trans ?_
    rw [hrows]
    exact (List.reverse_perm _).symm
  refine hperm.eq_of_pairwise (fun a b _ _ hab hba => Nat.le_antisymm hba hab) ?_ ?_
  · exact List.pairwise_map.mpr (Prune.bySeqDesc_pairwise _)
  · rw [List.pairwise_reverse]
    exact (h.ascending.filter p).imp fun hlt => hlt.le

theorem keepFrom_eq (hK : KeptInv sha256 U s) {w net : JsString} {x : Wallet}
    (h : ShowsOne s w net x) (n : ℕ) :
    keepFrom s.db w net n = (sequencesOf x).reverse[n - 1]? := by
  have hall := bySeqDesc_sequences hK h fun _ => true
  rw [List.filter_true, List.filter_true] at hall
  rw [keepFrom, ← hall, List.getElem?_map]

/-- The rows that the statement deletes, and those that it leaves. -/
theorem filter_prunable (hK : KeptInv sha256 U s) {w net : JsString} {x : Wallet}
    (h : ShowsOne s w net x) {n : ℕ} (hn : 1 ≤ n) :
    (s.db.manifests.filter (prunable s.db w net n)).map (·.seq) =
        (sequencesOf x).take ((sequencesOf x).length - n) ∧
      ((s.db.manifests.filter fun m => !prunable s.db w net n m).filter (ownRow w net)).map (·.seq) =
        (sequencesOf x).drop ((sequencesOf x).length - n) := by
  have hprunable : ∀ m ∈ s.db.manifests, prunable s.db w net n m =
      (((sequencesOf x).reverse[n - 1]?.any fun b => decide (m.seq < b)) && ownRow w net m) := by
    intro m hm
    rw [prunable, complete_of_mem hK hm, keepFrom_eq hK h, Bool.and_true, ownRow, Bool.and_comm]
  obtain ⟨htake, hdrop⟩ := filter_below hn h.ascending
  have hkeep : (s.db.manifests.filter fun m => !prunable s.db w net n m).filter (ownRow w net) =
      (s.db.manifests.filter (ownRow w net)).filter fun m =>
        !(sequencesOf x).reverse[n - 1]?.any fun b => decide (m.seq < b) := by
    rw [List.filter_filter, List.filter_filter]
    refine List.filter_congr fun m hm => ?_
    rw [hprunable m hm]
    cases ownRow w net m <;> simp
  constructor
  · rw [← htake, List.filter_congr hprunable, ← List.filter_filter, ← h.rows, List.filter_map]
    rfl
  · rw [hkeep, ← hdrop, ← h.rows, List.filter_map]
    rfl

/-- What is left of the wallet of a `prune`. -/
theorem ShowsOne.pruned (hK : KeptInv sha256 U s) {w net : JsString} {x : Wallet}
    (h : ShowsOne s w net x) {n : ℕ} (hn : 1 ≤ n) {result : PruneResult}
    (hres : result.prunedSequences = (x.keepLast n).2)
    (hnext : nextSeq s'.db.counters w net = nextSeq s.db.counters w net)
    (hman : s'.db.manifests = s.db.manifests.filter fun m => !prunable s.db w net n m)
    (hkept : s'.kept = s.kept.filter fun k => !reported w net result k.saved) :
    ShowsOne s' w net (x.keepLast n).1 := by
  have hlen : (sequencesOf x).length = x.records.length := List.length_map _
  have hdrop : sequencesOf (x.keepLast n).1 =
      (sequencesOf x).drop ((sequencesOf x).length - n) := by
    rw [hlen]
    exact List.map_drop
  refine ⟨?_, ?_, ?_, ?_, ?_⟩
  · rw [hnext]
    exact h.next
  · have hfilter : (s.kept.filter fun k => !reported w net result k.saved).filter (ownKept w net) =
        (s.kept.filter (ownKept w net)).filter fun k =>
          !result.prunedSequences.contains (record k).summary.sequence := by
      rw [List.filter_filter, List.filter_filter]
      refine List.filter_congr fun k hk => ?_
      rw [reported, number_of_mem hK hk, ownKept, record]
      cases (k.saved.w == w && k.saved.net == net) <;> simp
    have hcut := filter_contains (f := fun r : CheckpointRecord => r.summary.sequence)
      (h.ascending.imp fun hlt => ne_of_lt hlt) (x.records.length - n)
    rw [hkept, hfilter, hres, Wallet.keepLast, ← hcut]
    simp only [h.records, List.filter_map]
    rfl
  · rw [hman, (filter_prunable hK h hn).2, hdrop]
  · rw [hdrop]
    exact h.ascending.drop
  · rw [hdrop]
    exact fun m hm => h.below m (List.mem_of_mem_drop hm)

/-- **What a `prune` answers.** -/
theorem prune_result (hK : KeptInv sha256 U s) {w net : JsString} {x : Wallet}
    (h : ShowsOne s w net x) (now : ℤ) (retainCount : ℤ) :
    (∃ e, prune now w net retainCount s.db = .error e ∧ x.prune w net retainCount = .error e) ∨
      ∃ db result, prune now w net retainCount s.db = .ok (db, result) ∧
        x.prune w net retainCount = .ok (x.keepLast retainCount.toNat) ∧ 1 ≤ retainCount.toNat ∧
        result.prunedSequences = (x.keepLast retainCount.toNat).2 ∧
        db.counters = s.db.counters ∧
        db.manifests = s.db.manifests.filter
          (fun m => !prunable s.db w net retainCount.toNat m) ∧
        db.junction.Sublist s.db.junction := by
  unfold prune Wallet.prune
  rcases assertValidCheckpointIds w net with e | ⟨⟩
  · exact Or.inl ⟨e, rfl, rfl⟩
  · simp only [bind, Except.bind]
    split_ifs with hcount
    · exact Or.inl ⟨_, rfl, rfl⟩
    · have hn : 1 ≤ retainCount.toNat := by omega
      have hseqs : (s.db.manifests.filter (prunable s.db w net retainCount.toNat)).mapM
          (fun m => coerceToSafeNumber m.seq "PruneResult.prunedSequences") =
          .ok ((s.db.manifests.filter (prunable s.db w net retainCount.toNat)).map (·.seq)) :=
        Prune.mapM_coerce fun m hm => hK.inv.safe m (List.mem_filter.mp hm).1
      have hok : ∃ db result, pruneImpl now w net retainCount.toNat s.db = .ok (db, result) := by
        simp only [pruneImpl, hseqs, bind, Except.bind]
        exact ⟨_, _, rfl⟩
      obtain ⟨db, result, hok⟩ := hok
      refine Or.inr ⟨db, result, hok, rfl, hn, ?_⟩
      simp only [pruneImpl, hseqs, bind, Except.bind] at hok
      cases hok
      have hlen : (sequencesOf x).length = x.records.length := List.length_map _
      refine ⟨?_, rfl, rfl, List.filter_sublist⟩
      rw [(filter_prunable hK h hn).1, hlen, sequencesOf, ← List.map_take]
      rfl

theorem shows_prune (hK : KeptInv sha256 U s) (h : Shows s f) (now : ℤ) (w net : JsString)
    (retainCount : ℤ) :
    (execute sha256 s.db (.prune now w net retainCount)).2 =
        (onKey Op.key (Wallet.execute sha256) f (.prune now w net retainCount)).2 ∧
      ∃ s', keptStep sha256 s (.prune now w net retainCount) = some s' ∧
        s'.db = (execute sha256 s.db (.prune now w net retainCount)).1 ∧
        Shows s' (onKey Op.key (Wallet.execute sha256) f (.prune now w net retainCount)).1 := by
  rcases prune_result hK (h.one w net) now retainCount with ⟨e, hs, hx⟩ |
    ⟨db, result, hs, hx, hn, hres, hcounters, hman, hjunction⟩
  · simp only [execute, hs, onKey, Op.key, Wallet.execute, hx, keptStep, Function.update_eq_self]
    exact ⟨trivial, s, rfl, rfl, h⟩
  · simp only [execute, hs, onKey, Op.key, Wallet.execute, hx, keptStep, hres]
    refine ⟨trivial, _, rfl, rfl, h.keys.sublist (hjunction.map _), fun w' net' => ?_⟩
    have hnext : ∀ w net, nextSeq db.counters w net = nextSeq s.db.counters w net := by
      intro w net
      rw [hcounters]
    by_cases hne : (w, net) = (w', net')
    · cases hne
      rw [Function.update_self]
      exact (h.one w net).pruned hK hn hres (hnext w net) hman rfl
    · rw [Function.update_of_ne (Ne.symm hne)]
      refine (h.one w' net').other (hnext w' net') ?_ ?_
      · rw [List.filter_filter]
        refine List.filter_congr fun k _ => ?_
        by_cases hk : reported w net result k.saved = true
        · simp only [reported, Bool.and_eq_true, beq_iff_eq] at hk
          rw [ownKept_false hne hk.1.1 hk.1.2, Bool.false_and]
        · rw [Bool.not_eq_true _ |>.mp hk, Bool.not_false, Bool.and_true]
      · show db.manifests.filter (ownRow w' net') = _
        rw [hman, List.filter_filter]
        refine List.filter_congr fun m _ => ?_
        by_cases hm : prunable s.db w net retainCount.toNat m = true
        · obtain ⟨hw, hnet⟩ := prunable_key hm
          rw [ownRow_false hne hw hnet, Bool.false_and]
        · rw [Bool.not_eq_true _ |>.mp hm, Bool.not_false, Bool.and_true]

/-! ### Reads -/

/-- The record of a wallet that has the row's sequence is the one of its checkpoint. -/
theorem exists_record (hK : KeptInv sha256 U s) {w net : JsString} {x : Wallet}
    (h : ShowsOne s w net x) {m : ManifestRow} (hm : m ∈ s.db.manifests)
    (hw : m.w = w) (hnet : m.net = net) :
    ∃ k ∈ s.kept, Holds sha256 s.db k.saved.wellFormed m ∧ k.saved.w = w ∧ k.saved.net = net ∧
      k.summary.sequence = m.seq ∧ record k ∈ x.records := by
  obtain ⟨k, hk, hh⟩ := hK.exists_kept hm
  have hkw : k.saved.w = w := hh.w.symm.trans hw
  have hknet : k.saved.net = net := hh.net.symm.trans hnet
  refine ⟨k, hk, hh, hkw, hknet, (number_of_mem hK hk).symm.trans hh.seq.symm, ?_⟩
  rw [h.records]
  exact List.mem_map_of_mem (List.mem_filter.mpr ⟨hk, by simp [ownKept, hkw, hknet]⟩)

theorem ShowsOne.record_inj {w net : JsString} {x : Wallet} (h : ShowsOne s w net x)
    {a b : CheckpointRecord} (ha : a ∈ x.records) (hb : b ∈ x.records)
    (he : a.summary.sequence = b.summary.sequence) : a = b :=
  List.inj_on_of_nodup_map (h.ascending.imp fun hlt => ne_of_lt hlt) ha hb he

theorem load_eq (hK : KeptInv sha256 U s) {w net : JsString} {x : Wallet}
    (h : ShowsOne s w net x) (sequence : Option ℕ) :
    load sha256 w net sequence s.db = x.load w net sequence := by
  unfold Wallet.load
  rcases hv : assertValidCheckpointIds w net with e | ⟨⟩
  · rw [load, hv]
    rfl
  · have hseqs := bySeqDesc_sequences hK h fun n => sequence.all (n == ·)
    have hrecords : (x.records.filter fun r => sequence.all (r.summary.sequence == ·)).map
        (·.summary.sequence) = (sequencesOf x).filter fun n => sequence.all (n == ·) := by
      rw [sequencesOf, List.filter_map]
      rfl
    rw [← hrecords] at hseqs
    have hhead := congrArg List.head? hseqs
    rw [List.head?_map, List.head?_reverse, List.getLast?_map] at hhead
    rcases hrow : (bySeqDesc ((manifestsOf s.db w net).filter fun m =>
        sequence.all (m.seq == ·))).head? with _ | m
    · have hlast : (x.records.filter fun r => sequence.all (r.summary.sequence == ·)).getLast? =
          none := Option.map_eq_none_iff.mp (by rw [← hhead, hrow]; rfl)
      simp only [load, hv, loadImpl, hrow, hlast, bind, Except.bind]
    · obtain ⟨hsel, -⟩ := bySeqDesc_head hrow
      obtain ⟨hm, rfl, rfl⟩ := manifestsOf_key (List.mem_filter.mp hsel).1
      obtain ⟨k, hk, hh, hw, hnet, hseq, hmem⟩ := exists_record hK h hm rfl rfl
      rw [hrow] at hhead
      obtain ⟨r, hlast, hr⟩ := Option.map_eq_some_iff.mp hhead.symm
      have hrmem := (List.mem_filter.mp (List.mem_of_getLast? hlast)).1
      obtain rfl : r = record k := h.record_inj hrmem hmem (hr.trans hseq.symm)
      have hload : load sha256 k.saved.w k.saved.net sequence s.db = .ok ⟨k.summary, k.saved.data⟩ :=
        hK.load_head hk hm hh (by rw [hw, hnet]; exact hrow)
      rw [hw, hnet] at hload
      rw [hload]
      simp only [hlast, bind, Except.bind]
      rfl

theorem history_eq (hK : KeptInv sha256 U s) {w net : JsString} {x : Wallet}
    (h : ShowsOne s w net x) (opts : HistoryOptions) :
    history w net opts s.db = x.history w net opts := by
  unfold history Wallet.history
  rcases assertValidCheckpointIds w net with e | ⟨⟩
  · rfl
  rcases validateHistoryOptions opts with e | ⟨limit, before⟩
  · rfl
  -- the row of a page, and the record with its sequence
  have hrow : ∀ m ∈ pageRows w net limit before s.db,
      tableSummary s.db m ∈ x.records.map (·.summary) ∧ SafeSummary (tableSummary s.db m) := by
    intro m hsel
    obtain ⟨hm, rfl, rfl⟩ := manifestsOf_key (mem_pageRows hsel)
    obtain ⟨k, hk, hh, -, -, -, hmem⟩ := exists_record hK h hm rfl rfl
    obtain ⟨he, hsafe⟩ := hK.tableSummary_eq hk hm hh
    rw [he]
    exact ⟨List.mem_map_of_mem (f := fun r : CheckpointRecord => r.summary) hmem, hsafe⟩
  have hpage : historyImpl w net limit before s.db =
      .ok ((pageRows w net limit before s.db).map (tableSummary s.db)) :=
    historyImpl_eq fun m hm => (hrow m hm).2
  refine hpage.trans (congrArg Except.ok ?_)
  refine eq_of_map_eq (f := CheckpointSummary.sequence) (S := (· ∈ x.records.map (·.summary)))
    (fun a b ha hb he => ?_) ?_ (fun e he => ?_) fun e he => ?_
  · obtain ⟨r, hr, rfl⟩ := List.mem_map.mp ha
    obtain ⟨r', hr', rfl⟩ := List.mem_map.mp hb
    rw [h.record_inj hr hr' he]
  · have hseqs := bySeqDesc_sequences hK h fun n => before.all fun b => decide (n < b)
    have htake : ((pageRows w net limit before s.db).map (tableSummary s.db)).map
        CheckpointSummary.sequence = ((sequencesOf x).filter fun n =>
          before.all fun b => decide (n < b)).reverse.take limit := by
      rw [List.map_map, ← hseqs, ← List.map_take]
      rfl
    have hmap : sequencesOf x = (x.records.map (·.summary)).map CheckpointSummary.sequence :=
      (List.map_map).symm
    rw [htake, List.map_take, List.map_reverse, hmap, List.filter_map]
    rfl
  · obtain ⟨m, hm, rfl⟩ := List.mem_map.mp he
    exact (hrow m hm).1
  · exact (List.mem_filter.mp (List.mem_reverse.mp (List.mem_of_mem_take he))).1

/-! ### Every run -/

/-- The wallets and their answers. -/
def wallets (sha256 : Bytes → Bytes) : (JsString × JsString → Wallet) → Op →
    (JsString × JsString → Wallet) × Reply :=
  onKey Op.key (Wallet.execute sha256)

theorem usedChunks_mono {ops ops' : List Op} (h : ∀ op ∈ ops, op ∈ ops') :
    usedChunks ops ⊆ usedChunks ops' := by
  rintro c ⟨now, w, net, data, opts, hop, hc⟩
  exact ⟨now, w, net, data, opts, h _ hop, hc⟩

/-- The tables after the operations, and the wallets they show. -/
def Simulates (sha256 : Bytes → Bytes) (ops : List Op) (db : CkptDb)
    (f : JsString × JsString → Wallet) : Prop :=
  ∃ s, run (keptStep sha256) ops .init = some s ∧ s.db = db ∧ Shows s f

theorem simulates_run {ops : List Op} (hinj : Set.InjOn sha256 (usedChunks ops))
    (hlen : payloadsOk ops) :
    transcript (execute sha256) ops .empty = transcript (wallets sha256) ops (fun _ => .empty) ∧
      Simulates sha256 ops (final (execute sha256) ops .empty)
        (final (wallets sha256) ops fun _ => .empty) := by
  refine simulate (fun es e db f hpre hR => ?_) ops [] (List.nil_append ops)
    ⟨.init, rfl, rfl, shows_init⟩
  obtain ⟨s, hrun, rfl, hshows⟩ := hR
  have hsub : ∀ op ∈ es, op ∈ ops := fun op hop =>
    hpre.subset (List.mem_append_left _ hop)
  have hK := keptInv_run (hinj.mono (usedChunks_mono hsub))
    (fun now w net data opts hop => hlen now w net data opts (hsub _ hop)) hrun
  have hstep : (execute sha256 s.db e).2 = (wallets sha256 f e).2 ∧
      ∃ s', keptStep sha256 s e = some s' ∧ s'.db = (execute sha256 s.db e).1 ∧
        Shows s' (wallets sha256 f e).1 := by
    cases e with
    | save now w net data opts => exact shows_save hK hshows now w net data opts
    | prune now w net retainCount => exact shows_prune hK hshows now w net retainCount
  obtain ⟨hreply, s', hs', hdb, hshows'⟩ := hstep
  exact ⟨hreply, s', run_snoc.mpr ⟨s, hrun, hs'⟩, hdb, hshows'⟩

theorem reads_eq {ops : List Op} (hinj : Set.InjOn sha256 (usedChunks ops))
    (hlen : payloadsOk ops) (w net : JsString) :
    (∀ sequence, load sha256 w net sequence (final (execute sha256) ops .empty) =
        (final (wallets sha256) ops (fun _ => .empty) (w, net)).load w net sequence) ∧
      ∀ opts, history w net opts (final (execute sha256) ops .empty) =
        (final (wallets sha256) ops (fun _ => .empty) (w, net)).history w net opts := by
  obtain ⟨-, s, hrun, hdb, hshows⟩ := simulates_run hinj hlen
  have hK := keptInv_run hinj hlen hrun
  rw [← hdb]
  exact ⟨load_eq hK (hshows.one w net), history_eq hK (hshows.one w net)⟩

theorem sharedByte_injOn : Set.InjOn sha256OfByte (usedChunks sharedByte) := by
  have hone : ∀ c ∈ usedChunks sharedByte, c = [1] := by
    rintro c ⟨now, w, net, data, opts, hop, hc⟩
    simp only [sharedByte, List.mem_cons, Op.save.injEq, reduceCtorEq, List.not_mem_nil,
      or_false] at hop
    rcases hop with ⟨-, -, -, rfl, rfl⟩ | ⟨-, -, -, rfl, rfl⟩ | ⟨-, -, -, rfl, rfl⟩ <;>
      exact List.mem_singleton.mp hc
  intro a ha b hb _
  rw [hone a ha, hone b hb]

theorem sharedByte_payloadsOk : payloadsOk sharedByte := by
  intro now w net data opts hop
  simp only [sharedByte, List.mem_cons, Op.save.injEq, reduceCtorEq, List.not_mem_nil,
    or_false] at hop
  rcases hop with ⟨-, -, -, rfl, -⟩ | ⟨-, -, -, rfl, -⟩ | ⟨-, -, -, rfl, -⟩ <;> decide

end UmbraDB.Ckpt.Wallets
