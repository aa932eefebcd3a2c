import UmbraDB.Archive.Bundle
import UmbraDB.Lib.Fallible
import UmbraDB.Ckpt.RoundTrip

/-! # Chain archive: what `putBlockBundle` leaves, and its retry

What a resolved call inserted is a list of rows for each table (`Writes`), each row dropped if it
conflicts with one that is there. So the bundle is found in the tables exactly if all its conflicts
are with rows that agree with it (`Compat`). An identical retry is such a case; another block under
the same key, a transaction at a position that is taken, are not, and the call resolves as well.

The retry needs no condition: all rows of the bundle conflict by then, whatever was done in between,
and nothing that the triggers and `CHECK`s looked at is ever removed. -/

namespace UmbraDB.Archive.Bundle

open UmbraDB.Js.Text UmbraDB.Ckpt.Rows UmbraDB.Archive.Blocks UmbraDB.Lib UmbraDB.Lib.Fallible
open UmbraDB.Ckpt.RoundTrip (sha256OfByte)

variable {sha256 : Bytes → Bytes} {s s' u : Tables}

/-! ### What was inserted -/

/-- The rows of the `INSERT`s that did not fail. -/
structure Writes where
  payloads : List (Bytes × BlobRole)
  blocks : List StoredBlock
  transactions : List TxRow
  observations : List ObservationRow

def Writes.append (w w' : Writes) : Writes :=
  ⟨w.payloads ++ w'.payloads, w.blocks ++ w'.blocks, w.transactions ++ w'.transactions,
    w.observations ++ w'.observations⟩

/-- The tables after them. -/
def write (sha256 : Bytes → Bytes) (s : Tables) (w : Writes) : Tables where
  blobs := OnConflict.insertAll blobConflict s.blobs (w.payloads.map fun p => blobRow sha256 p.1)
  roles := OnConflict.insertAll roleConflict s.roles
    (w.payloads.map fun p => ⟨sha256 p.1, p.2⟩)
  blocks := OnConflict.insertAll blockConflict s.blocks w.blocks
  transactions := OnConflict.insertAll txConflict s.transactions w.transactions
  observations := OnConflict.insertAll observationConflict s.observations w.observations

theorem write_append (w w' : Writes) :
    write sha256 (write sha256 s w) w' = write sha256 s (w.append w') := by
  simp only [write, Writes.append, OnConflict.insertAll_append, List.map_append]

theorem putBlob_eq_write (data : Bytes) (role : BlobRole) :
    putBlob sha256 s data role = write sha256 s ⟨[(data, role)], [], [], []⟩ := rfl

theorem write_block (r : StoredBlock) : write sha256 s ⟨[], [r], [], []⟩ =
    { s with blocks := OnConflict.insert blockConflict s.blocks r } := rfl

theorem write_tx (r : TxRow) : write sha256 s ⟨[], [], [r], []⟩ =
    { s with transactions := OnConflict.insert txConflict s.transactions r } := rfl

theorem write_observation (r : ObservationRow) : write sha256 s ⟨[], [], [], [r]⟩ =
    { s with observations := OnConflict.insert observationConflict s.observations r } := rfl

/-- What `s` has, `s'` has: of `blocks` the keys, of the other tables the rows. -/
structure Keeps (s s' : Tables) : Prop where
  blobs : ∀ x ∈ s.blobs, x ∈ s'.blobs
  roles : ∀ x ∈ s.roles, x ∈ s'.roles
  blocks : ∀ x ∈ s.blocks, ∃ y ∈ s'.blocks, y.key = x.key
  transactions : ∀ x ∈ s.transactions, x ∈ s'.transactions
  observations : ∀ x ∈ s.observations, x ∈ s'.observations

theorem Keeps.refl (s : Tables) : Keeps s s :=
  ⟨fun _ h => h, fun _ h => h, fun x h => ⟨x, h, rfl⟩, fun _ h => h, fun _ h => h⟩

theorem Keeps.trans (h : Keeps s s') (h' : Keeps s' u) : Keeps s u where
  blobs x hx := h'.blobs x (h.blobs x hx)
  roles x hx := h'.roles x (h.roles x hx)
  blocks x hx := by
    obtain ⟨y, hy, hyx⟩ := h.blocks x hx
    obtain ⟨z, hz, hzy⟩ := h'.blocks y hy
    exact ⟨z, hz, hzy.trans hyx⟩
  transactions x hx := h'.transactions x (h.transactions x hx)
  observations x hx := h'.observations x (h.observations x hx)

theorem keeps_write (s : Tables) (w : Writes) : Keeps s (write sha256 s w) where
  blobs _ hx := OnConflict.mem_insertAll_of_mem hx
  roles _ hx := OnConflict.mem_insertAll_of_mem hx
  blocks x hx := ⟨x, OnConflict.mem_insertAll_of_mem hx, rfl⟩
  transactions _ hx := OnConflict.mem_insertAll_of_mem hx
  observations _ hx := OnConflict.mem_insertAll_of_mem hx

theorem Keeps.hasRole (h : Keeps s s') {hash : Bytes} {role : BlobRole}
    (hr : hasRole s hash role = true) : hasRole s' hash role = true := by
  have hmem : (⟨hash, role⟩ : RoleRow) ∈ s.roles := List.contains_iff_mem.mp hr
  exact List.contains_iff_mem.mpr (h.roles _ hmem)

/-! ### One `INSERT` -/

theorem putBlob_hasRole (data : Bytes) (role : BlobRole) :
    hasRole (putBlob sha256 s data role) (sha256 data) role = true := by
  obtain ⟨x, hx, hc⟩ : OnConflict.Blocked roleConflict (putBlob sha256 s data role).roles
      ⟨sha256 data, role⟩ :=
    OnConflict.blocked_insert_self (by simp [roleConflict])
  obtain rfl : x = ⟨sha256 data, role⟩ := by simpa [roleConflict] using hc
  exact List.contains_iff_mem.mpr hx

/-- A blob that is there with its role is not written again. -/
theorem Keeps.putBlob_eq {data : Bytes} {role : BlobRole}
    (h : Keeps (putBlob sha256 s data role) u) : putBlob sha256 u data role = u := by
  have hblob : OnConflict.Blocked blobConflict u.blobs (blobRow sha256 data) :=
    (OnConflict.blocked_insert_self (by simp [blobConflict])).mono h.blobs
  have hrole : OnConflict.Blocked roleConflict u.roles ⟨sha256 data, role⟩ :=
    (OnConflict.blocked_insert_self (by simp [roleConflict])).mono h.roles
  unfold putBlob
  rw [OnConflict.insert_of_blocked hblob, OnConflict.insert_of_blocked hrole]

theorem insertBlock_ok {r : StoredBlock} (h : insertBlock s r = .ok s') :
    s' = write sha256 s ⟨[], [r], [], []⟩ ∧ blockRoles s r = true ∧ blockChecks r = true := by
  unfold insertBlock at h
  split_ifs at h with hroles hchecks hb hc
  all_goals
    obtain rfl := Except.ok.inj h
    refine ⟨?_, by simpa using hroles, by simpa using hchecks⟩
    rw [write_block, OnConflict.insert]
  · rw [if_pos hb]
  · rw [if_neg hb]

theorem insertTx_ok {r : TxRow} (h : insertTx s r = .ok s') :
    s' = write sha256 s ⟨[], [], [r], []⟩ ∧ txChecks r = true := by
  unfold insertTx at h
  split_ifs at h with hroles hchecks hb hf
  all_goals
    obtain rfl := Except.ok.inj h
    refine ⟨?_, by simpa using hchecks⟩
    rw [write_tx, OnConflict.insert]
  · rw [if_pos hb]
  · rw [if_neg hb]

theorem insertObservation_ok {r : ObservationRow} (h : insertObservation s r = .ok s') :
    s' = write sha256 s ⟨[], [], [], [r]⟩ ∧ observationChecks r = true := by
  unfold insertObservation at h
  split_ifs at h with hroles hchecks hb hf
  all_goals
    obtain rfl := Except.ok.inj h
    refine ⟨?_, by simpa using hchecks⟩
    rw [write_observation, OnConflict.insert]
  · rw [if_pos hb]
  · rw [if_neg hb]

/-- A transaction that is there, with its blob, is not inserted again. -/
theorem insertTx_again {r : TxRow} (h : insertTx s r = .ok s') (hk : Keeps s' u)
    (hrole : hasRole u r.rawBlobHash .txRaw = true) : insertTx u r = .ok u := by
  -- no bytes are hashed here, so any hash function will do
  obtain ⟨hw, hchecks⟩ := @insertTx_ok id _ _ _ h
  have hblocked : (u.transactions.any fun x => txConflict x r) = true := by
    refine OnConflict.any_iff_blocked.mpr (OnConflict.Blocked.mono ?_ hk.transactions)
    rw [hw]
    exact OnConflict.blocked_insertAll (by simp [txConflict]) List.mem_cons_self
  unfold insertTx
  rw [if_neg (by rw [hrole]; simp), if_neg (by rw [hchecks]; simp), if_pos hblocked]

theorem insertObservation_again {r : ObservationRow} (h : insertObservation s r = .ok s')
    (hk : Keeps s' u) (hrole : hasRole u r.rawBlobHash .bridgeObservation = true) :
    insertObservation u r = .ok u := by
  obtain ⟨hw, hchecks⟩ := @insertObservation_ok id _ _ _ h
  have hblocked : (u.observations.any fun x => observationConflict x r) = true := by
    refine OnConflict.any_iff_blocked.mpr (OnConflict.Blocked.mono ?_ hk.observations)
    rw [hw]
    exact OnConflict.blocked_insertAll (by simp [observationConflict]) List.mem_cons_self
  unfold insertObservation
  rw [if_neg (by rw [hrole]; simp), if_neg (by rw [hchecks]; simp), if_pos hblocked]

/-! ### The writers

Each inserts its rows, and does so again, without an effect, wherever they have been kept. -/

def hashesOf (sha256 : Bytes → Bytes) (b : BlockRecord) : BlobHashes :=
  ⟨sha256 b.headerBytes, b.bodyBytes.map sha256⟩

def bodyPayload (b : BlockRecord) : List (Bytes × BlobRole) :=
  (b.bodyBytes.map fun body => (body, BlobRole.blockBody)).toList

def blockWrites (sha256 : Bytes → Bytes) (b : BlockRecord) : Writes :=
  ⟨(b.headerBytes, .blockHeader) :: bodyPayload b, [storedBlock sha256 b], [], []⟩

def txWrites (sha256 : Bytes → Bytes) (txs : List TransactionRecord) : Writes :=
  ⟨txs.map fun t => (t.rawBytes, .txRaw), [], txs.map (·.row sha256), []⟩

def observationWrites (sha256 : Bytes → Bytes) (obs : List BridgeObservationRecord) : Writes :=
  ⟨obs.map fun o => (o.rawBytes, .bridgeObservation), [], [], obs.map (·.row sha256)⟩

/-- The blobs of a block. -/
def putBlockBlobs (sha256 : Bytes → Bytes) (s : Tables) (b : BlockRecord) : Tables :=
  write sha256 s ⟨(b.headerBytes, .blockHeader) :: bodyPayload b, [], [], []⟩

theorem insertBlockRow_eq (b : BlockRecord) :
    insertBlockRow sha256 s b =
      (insertBlock (putBlockBlobs sha256 s b) (storedBlock sha256 b)).map fun s' =>
        (s', hashesOf sha256 b) := by
  unfold insertBlockRow putBlockBlobs bodyPayload hashesOf
  cases b.bodyBytes <;> rfl

theorem Keeps.putBlockBlobs_eq {b : BlockRecord} (h : Keeps (putBlockBlobs sha256 s b) u) :
    putBlockBlobs sha256 u b = u := by
  -- the header, then the body, if there is one
  have hhead : Keeps (putBlob sha256 s b.headerBytes .blockHeader) (putBlockBlobs sha256 s b) := by
    have heq : putBlockBlobs sha256 s b =
        write sha256 (putBlob sha256 s b.headerBytes .blockHeader) ⟨bodyPayload b, [], [], []⟩ := by
      rw [putBlob_eq_write, write_append]
      rfl
    rw [heq]
    exact keeps_write _ _
  have hu : putBlob sha256 u b.headerBytes .blockHeader = u := (hhead.trans h).putBlob_eq
  unfold putBlockBlobs bodyPayload at h ⊢
  cases hbody : b.bodyBytes with
  | none => exact hu
  | some body =>
    rw [hbody] at h
    have hbody' : Keeps (putBlob sha256 (putBlob sha256 s b.headerBytes .blockHeader) body
        .blockBody) u := h
    show putBlob sha256 (putBlob sha256 u b.headerBytes .blockHeader) body .blockBody = u
    rw [hu]
    exact hbody'.putBlob_eq

theorem Keeps.blockRoles (h : Keeps s s') {r : StoredBlock} (hr : blockRoles s r = true) :
    blockRoles s' r = true := by
  obtain ⟨hhead, hbody⟩ := Bool.and_eq_true_iff.mp hr
  refine Bool.and_eq_true_iff.mpr ⟨h.hasRole hhead, ?_⟩
  rw [Option.all_eq_true] at hbody ⊢
  exact fun x hx => h.hasRole (hbody x hx)

theorem insertBlockRow_ok {b : BlockRecord} {out : BlobHashes}
    (h : insertBlockRow sha256 s b = .ok (s', out)) :
    s' = write sha256 s (blockWrites sha256 b) ∧ out = hashesOf sha256 b := by
  rw [insertBlockRow_eq] at h
  obtain ⟨s₁, hi, heq⟩ := map_ok.mp h
  obtain ⟨rfl, rfl⟩ := Prod.mk.inj heq
  refine ⟨?_, rfl⟩
  rw [(@insertBlock_ok sha256 _ _ _ hi).1, putBlockBlobs, write_append]
  simp [Writes.append, blockWrites]

theorem insertBlockRow_again {b : BlockRecord} {out : BlobHashes}
    (h : insertBlockRow sha256 s b = .ok (s', out)) (hk : Keeps s' u) :
    insertBlockRow sha256 u b = .ok (u, out) := by
  obtain ⟨-, rfl⟩ := insertBlockRow_ok h
  rw [insertBlockRow_eq] at h ⊢
  obtain ⟨s₁, hi, heq⟩ := map_ok.mp h
  obtain ⟨rfl, -⟩ := Prod.mk.inj heq
  obtain ⟨hw, hroles, hchecks⟩ := @insertBlock_ok sha256 _ _ _ hi
  have hblobs : Keeps (putBlockBlobs sha256 s b) u :=
    (hw ▸ keeps_write _ _ : Keeps (putBlockBlobs sha256 s b) s₁).trans hk
  have hblocked : (u.blocks.any fun x => blockConflict x (storedBlock sha256 b)) = true := by
    obtain ⟨x, hx, hc⟩ : OnConflict.Blocked blockConflict s₁.blocks (storedBlock sha256 b) := by
      rw [hw]
      exact OnConflict.blocked_insertAll (by simp [blockConflict]) List.mem_cons_self
    obtain ⟨y, hy, hyx⟩ := hk.blocks x hx
    refine List.any_eq_true.mpr ⟨y, hy, ?_⟩
    simpa [blockConflict, hyx] using hc
  have hagain : insertBlock u (storedBlock sha256 b) = .ok u := by
    unfold insertBlock
    rw [if_neg (by rw [hblobs.blockRoles hroles]; simp), if_neg (by rw [hchecks]; simp),
      if_pos hblocked]
  rw [hblobs.putBlockBlobs_eq, hagain]
  rfl

/-- `f` inserts the rows of `w`, and does nothing where these have been kept. -/
structure Writer (sha256 : Bytes → Bytes) (f : Tables → Except BundleError Tables) (w : Writes) :
    Prop where
  ok : ∀ {s s'}, f s = .ok s' → s' = write sha256 s w
  again : ∀ {s s' u}, f s = .ok s' → Keeps s' u → f u = .ok u

theorem Writer.nothing : Writer sha256 (fun s => .ok s) ⟨[], [], [], []⟩ where
  ok h := (Except.ok.inj h).symm
  again _ _ := rfl

theorem Writer.keeps {f : Tables → Except BundleError Tables} {w : Writes}
    (hf : Writer sha256 f w) (h : f s = .ok s') : Keeps s s' := by
  rw [hf.ok h]
  exact keeps_write s w

theorem Writer.bind {f g : Tables → Except BundleError Tables} {w w' : Writes}
    (hf : Writer sha256 f w) (hg : Writer sha256 g w') :
    Writer sha256 (fun s => (f s).bind g) (w.append w') where
  ok h := by
    obtain ⟨s₁, h₁, h₂⟩ := bind_ok.mp h
    rw [hg.ok h₂, hf.ok h₁, write_append]
  again h hk := by
    obtain ⟨s₁, h₁, h₂⟩ := bind_ok.mp h
    -- what `f` wrote is kept by `g`
    exact bind_ok.mpr ⟨_, hf.again h₁ ((hg.keeps h₂).trans hk), hg.again h₂ hk⟩

/-- The blob of a row is written before the row. -/
theorem Writer.afterBlob {insert : Tables → Except BundleError Tables} {w : Writes} (data : Bytes)
    (role : BlobRole) (hok : ∀ {s s'}, insert s = .ok s' → s' = write sha256 s w)
    (hagain : ∀ {s s' u}, insert s = .ok s' → Keeps s' u → hasRole u (sha256 data) role = true →
      insert u = .ok u) :
    Writer sha256 (fun s => insert (putBlob sha256 s data role))
      (Writes.append ⟨[(data, role)], [], [], []⟩ w) where
  ok h := by rw [hok h, putBlob_eq_write, write_append]
  again {s s' u} h hk := by
    have hblob : Keeps (putBlob sha256 s data role) u :=
      (hok h ▸ keeps_write _ _ : Keeps (putBlob sha256 s data role) s').trans hk
    show insert (putBlob sha256 u data role) = .ok u
    rw [hblob.putBlob_eq]
    exact hagain h hk (hblob.hasRole (putBlob_hasRole data role))

theorem writer_transactionRow (t : TransactionRecord) :
    Writer sha256 (insertTransactionRow sha256 · t) (txWrites sha256 [t]) :=
  .afterBlob t.rawBytes .txRaw (fun h => (insertTx_ok h).1) insertTx_again

theorem writer_transactionRows (txs : List TransactionRecord) :
    Writer sha256 (insertTransactionRows sha256 · txs) (txWrites sha256 txs) := by
  induction txs with
  | nil => exact .nothing
  | cons t txs ih => exact (writer_transactionRow t).bind ih

theorem writer_bridgeObservationRow (o : BridgeObservationRecord) :
    Writer sha256 (insertBridgeObservationRow sha256 · o) (observationWrites sha256 [o]) :=
  .afterBlob o.rawBytes .bridgeObservation (fun h => (insertObservation_ok h).1)
    insertObservation_again

theorem writer_bridgeObservationRows (obs : List BridgeObservationRecord) :
    Writer sha256 (insertBridgeObservationRows sha256 · obs) (observationWrites sha256 obs) := by
  induction obs with
  | nil => exact .nothing
  | cons o obs ih => exact (writer_bridgeObservationRow o).bind ih

/-! ### The bundle -/

def bundleWrites (sha256 : Bytes → Bytes) (b : BlockBundle) : Writes :=
  (blockWrites sha256 b.block).append
    ((txWrites sha256 b.transactions).append (observationWrites sha256 b.bridgeObservations))

/-- A resolved bundle, cut into its three parts. -/
theorem bundleRows_parts {b : BlockBundle} {out : BlobHashes}
    (h : bundleRows sha256 s b = .ok (s', out)) :
    ∃ s₁ s₂, insertBlockRow sha256 s b.block = .ok (s₁, out) ∧
      insertTransactionRows sha256 s₁ b.transactions = .ok s₂ ∧
      insertBridgeObservationRows sha256 s₂ b.bridgeObservations = .ok s' := by
  obtain ⟨⟨s₁, out₁⟩, h₁, h⟩ := bind_ok.mp h
  obtain ⟨s₂, h₂, h⟩ := bind_ok.mp h
  obtain ⟨s₃, h₃, heq⟩ := map_ok.mp h
  obtain ⟨rfl, rfl⟩ := Prod.mk.inj heq
  exact ⟨s₁, s₂, h₁, h₂, h₃⟩

theorem bundleRows_ok {b : BlockBundle} {out : BlobHashes}
    (h : bundleRows sha256 s b = .ok (s', out)) :
    s' = write sha256 s (bundleWrites sha256 b) ∧ out = hashesOf sha256 b.block := by
  obtain ⟨s₁, s₂, h₁, h₂, h₃⟩ := bundleRows_parts h
  obtain ⟨rfl, rfl⟩ := insertBlockRow_ok h₁
  refine ⟨?_, rfl⟩
  rw [(writer_bridgeObservationRows _).ok h₃, (writer_transactionRows _).ok h₂, write_append,
    write_append]
  rfl

theorem bundleRows_again {b : BlockBundle} {out : BlobHashes}
    (h : bundleRows sha256 s b = .ok (s', out)) (hk : Keeps s' u) :
    bundleRows sha256 u b = .ok (u, out) := by
  obtain ⟨s₁, s₂, h₁, h₂, h₃⟩ := bundleRows_parts h
  have htxs := @writer_transactionRows sha256 b.transactions
  have hobs := @writer_bridgeObservationRows sha256 b.bridgeObservations
  have hk₂ : Keeps s₂ u := (hobs.keeps h₃).trans hk
  have hk₁ : Keeps s₁ u := (htxs.keeps h₂).trans hk₂
  exact bind_ok.mpr ⟨(u, out), insertBlockRow_again h₁ hk₁,
    bind_ok.mpr ⟨u, htxs.again h₂ hk₂, map_ok.mpr ⟨u, hobs.again h₃ hk, rfl⟩⟩⟩

theorem inTransaction_ok {A : Type} {body : Tables → Except BundleError (Tables × A)} {a : A}
    (h : inTransaction s body = (.ok a, s')) : body s = .ok (s', a) := by
  unfold inTransaction at h
  split at h
  · rename_i s₁ a₁ hb
    obtain ⟨ha, rfl⟩ := Prod.mk.inj h
    rw [hb, Except.ok.inj ha]
  · cases (Prod.mk.inj h).1

theorem inTransaction_of_ok {A : Type} {body : Tables → Except BundleError (Tables × A)} {a : A}
    (h : body s = .ok (s', a)) : inTransaction s body = (.ok a, s') := by
  unfold inTransaction
  rw [h]

/-- A failed transaction changes nothing. -/
theorem inTransaction_error {A : Type} {body : Tables → Except BundleError (Tables × A)}
    {e : BundleError} (h : inTransaction s body = (.error e, s')) : s' = s := by
  unfold inTransaction at h
  split at h
  · cases (Prod.mk.inj h).1
  · exact (Prod.mk.inj h).2.symm

theorem putBlockBundle_ok {b : BlockBundle} {out : BlobHashes}
    (h : putBlockBundle sha256 s b = (.ok out, s')) :
    (b.block.valid && b.transactions.all (·.valid)) = true ∧
      bundleRows sha256 s b = .ok (s', out) := by
  unfold putBlockBundle at h
  split_ifs at h with hv
  · exact ⟨hv, inTransaction_ok h⟩
  · cases (Prod.mk.inj h).1

theorem putBlockBundle_error {b : BlockBundle} {e : BundleError}
    (h : putBlockBundle sha256 s b = (.error e, s')) : s' = s := by
  unfold putBlockBundle at h
  split_ifs at h with hv
  · exact inTransaction_error h
  · exact (Prod.mk.inj h).2.symm

/-- A bundle that has resolved resolves again, wherever its rows have been kept. -/
theorem putBlockBundle_again {b : BlockBundle} {out : BlobHashes}
    (h : putBlockBundle sha256 s b = (.ok out, s')) (hk : Keeps s' u) :
    putBlockBundle sha256 u b = (.ok out, u) := by
  obtain ⟨hv, hrows⟩ := putBlockBundle_ok h
  unfold putBlockBundle
  rw [if_pos hv]
  exact inTransaction_of_ok (bundleRows_again hrows hk)

/-! ### Reachable states -/

/-- After a transaction: as before, or what its body wrote. -/
theorem inTransaction_snd {A : Type} (s : Tables)
    (body : Tables → Except BundleError (Tables × A)) :
    (inTransaction s body).2 = s ∨ ∃ a, body s = .ok ((inTransaction s body).2, a) := by
  rcases hout : inTransaction s body with ⟨_ | a, s'⟩
  · exact Or.inl (inTransaction_error hout)
  · exact Or.inr ⟨a, inTransaction_ok hout⟩

/-- The rows of `blocks` changed under their keys. -/
def Reflagged (s s' : Tables) : Prop :=
  ∃ f : StoredBlock → StoredBlock, (∀ x, (f x).key = x.key) ∧ s' = { s with blocks := s.blocks.map f }

theorem setCanonicalRows_ok {key : BlockKey} {finalized : Option Bool} {a : Unit}
    (h : setCanonicalRows s key finalized = .ok (s', a)) : Reflagged s s' := by
  unfold setCanonicalRows at h
  simp only [] at h
  split_ifs at h
  obtain ⟨rfl, -⟩ := Prod.mk.inj (Except.ok.inj h)
  rw [List.map_map]
  refine ⟨_, fun x => ?_, rfl⟩
  simp only [Function.comp_apply]
  split_ifs <;> rfl

/-- **What a call does to the tables**: it inserts rows, or it changes flags. -/
theorem applyOp_cases (s : Tables) (op : Op) :
    (∃ w, applyOp sha256 s op = write sha256 s w) ∨ Reflagged s (applyOp sha256 s op) := by
  have hsame : ∃ w, s = write sha256 s w := ⟨⟨[], [], [], []⟩, rfl⟩
  cases op with
  | putBlobWithRole data role => exact Or.inl ⟨_, putBlob_eq_write data role⟩
  | putBlock block =>
    refine Or.inl ?_
    simp only [applyOp, putBlock]
    split_ifs
    · rcases inTransaction_snd s fun s => insertBlockRow sha256 s block with h | ⟨out, h⟩
      · rw [h]
        exact hsame
      · exact ⟨_, (insertBlockRow_ok h).1⟩
    · exact hsame
  | putTransactions txs =>
    refine Or.inl ?_
    simp only [applyOp, putTransactions]
    split_ifs
    · rcases inTransaction_snd s fun s =>
        (insertTransactionRows sha256 s txs).map fun s' => (s', ()) with h | ⟨out, h⟩
      · rw [h]
        exact hsame
      · obtain ⟨s₁, h₁, h₂⟩ := map_ok.mp h
        exact ⟨_, (congrArg Prod.fst h₂).symm.trans ((writer_transactionRows _).ok h₁)⟩
    · exact hsame
  | putBridgeObservations obs =>
    refine Or.inl ?_
    simp only [applyOp, putBridgeObservations]
    rcases inTransaction_snd s fun s =>
      (insertBridgeObservationRows sha256 s obs).map fun s' => (s', ()) with h | ⟨out, h⟩
    · rw [h]
      exact hsame
    · obtain ⟨s₁, h₁, h₂⟩ := map_ok.mp h
      exact ⟨_, (congrArg Prod.fst h₂).symm.trans ((writer_bridgeObservationRows _).ok h₁)⟩
  | putBlockBundle b =>
    refine Or.inl ?_
    simp only [applyOp, putBlockBundle]
    split_ifs
    · rcases inTransaction_snd s fun s => bundleRows sha256 s b with h | ⟨out, h⟩
      · rw [h]
        exact hsame
      · exact ⟨_, (bundleRows_ok h).1⟩
    · exact hsame
  | setCanonical key finalized =>
    simp only [applyOp, setCanonical]
    split_ifs
    · rcases inTransaction_snd s fun s => setCanonicalRows s key finalized with h | ⟨out, h⟩
      · rw [h]
        exact Or.inl hsame
      · exact Or.inr (setCanonicalRows_ok h)
    · exact Or.inl hsame

theorem keeps_applyOp (s : Tables) (op : Op) : Keeps s (applyOp sha256 s op) := by
  rcases @applyOp_cases sha256 s op with ⟨w, hw⟩ | ⟨f, hf, h⟩
  · rw [hw]
    exact keeps_write s w
  · rw [h]
    exact { Keeps.refl s with blocks := fun x hx => ⟨f x, List.mem_map_of_mem hx, hf x⟩ }

theorem keeps_runOps (ops : List Op) (s : Tables) : Keeps s (runOps sha256 ops s) := by
  induction ops generalizing s with
  | nil => exact Keeps.refl s
  | cons op ops ih => exact (keeps_applyOp s op).trans (ih _)

/-- The keys, and that blobs are stored under their hash. -/
structure Inv (sha256 : Bytes → Bytes) (s : Tables) : Prop where
  addressed : ∀ x ∈ s.blobs, x.hash = sha256 x.data
  blobs : OnConflict.Apart blobConflict s.blobs
  blocks : OnConflict.Apart blockConflict s.blocks
  transactions : OnConflict.Apart txConflict s.transactions
  observations : OnConflict.Apart observationConflict s.observations

theorem Inv.empty : Inv sha256 .empty :=
  ⟨by simp [Tables.empty], List.Pairwise.nil, List.Pairwise.nil, List.Pairwise.nil,
    List.Pairwise.nil⟩

theorem Inv.write (h : Inv sha256 s) (w : Writes) : Inv sha256 (write sha256 s w) where
  addressed x hx := by
    rcases OnConflict.mem_of_mem_insertAll hx with hx | hx
    · exact h.addressed x hx
    · obtain ⟨p, -, rfl⟩ := List.mem_map.mp hx
      rfl
  blobs := h.blobs.insertAll
  blocks := h.blocks.insertAll
  transactions := h.transactions.insertAll
  observations := h.observations.insertAll

theorem Inv.reflagged (h : Inv sha256 s) (hr : Reflagged s s') : Inv sha256 s' := by
  obtain ⟨f, hf, rfl⟩ := hr
  refine { h with blocks := ?_ }
  show (s.blocks.map f).Pairwise _
  rw [List.pairwise_map]
  simp only [blockConflict, hf]
  exact h.blocks

theorem inv_of_reachable (h : Reachable sha256 s) : Inv sha256 s := by
  obtain ⟨ops, rfl⟩ := h
  have hrun : ∀ (ops : List Op) (s : Tables), Inv sha256 s → Inv sha256 (runOps sha256 ops s) := by
    intro ops
    induction ops with
    | nil => exact fun s hs => hs
    | cons op ops ih =>
      intro s hs
      refine ih _ ?_
      rcases @applyOp_cases sha256 s op with ⟨w, hw⟩ | hr
      · rw [hw]
        exact hs.write w
      · exact hs.reflagged hr
  exact hrun ops _ Inv.empty

/-! ### What is found afterwards -/

/-- The columns of `blocks` that name the block and its bytes. -/
def BlockAgree (x r : StoredBlock) : Prop :=
  x.key = r.key ∧ x.row.headerBlobHash = r.row.headerBlobHash ∧
    x.row.bodyBlobHash = r.row.bodyBlobHash

def TxAgree (x r : TxRow) : Prop :=
  x.block = r.block ∧ x.txHash = r.txHash ∧ x.position = r.position ∧ x.kind = r.kind ∧
    x.rawBlobHash = r.rawBlobHash

def ObservationAgree (x r : ObservationRow) : Prop :=
  x.block = r.block ∧ x.observationIndex = r.observationIndex ∧ x.kind = r.kind ∧
    x.rawBlobHash = r.rawBlobHash

theorem blobAgreement : OnConflict.Agreement blobConflict Eq where
  refl _ := rfl
  symm _ _ h := h.symm
  trans _ _ _ h h' := h.trans h'
  conflictSymm x y := by simp only [blobConflict, Bool.beq_comm]
  congr _ _ _ h := by rw [h]

theorem blockAgreement : OnConflict.Agreement blockConflict BlockAgree where
  refl _ := ⟨rfl, rfl, rfl⟩
  symm _ _ h := ⟨h.1.symm, h.2.1.symm, h.2.2.symm⟩
  trans _ _ _ h h' := ⟨h.1.trans h'.1, h.2.1.trans h'.2.1, h.2.2.trans h'.2.2⟩
  conflictSymm x y := by simp only [blockConflict, Bool.beq_comm]
  congr x y z h := by simp only [blockConflict, h.1]

theorem txAgreement : OnConflict.Agreement txConflict TxAgree where
  refl _ := ⟨rfl, rfl, rfl, rfl, rfl⟩
  symm _ _ h := ⟨h.1.symm, h.2.1.symm, h.2.2.1.symm, h.2.2.2.1.symm, h.2.2.2.2.symm⟩
  trans x y z := by
    rintro ⟨h₁, h₂, h₃, h₄, h₅⟩ ⟨h₁', h₂', h₃', h₄', h₅'⟩
    exact ⟨h₁.trans h₁', h₂.trans h₂', h₃.trans h₃', h₄.trans h₄', h₅.trans h₅'⟩
  conflictSymm x y := by simp only [txConflict, Bool.beq_comm]
  congr x y z h := by simp only [txConflict, h.1, h.2.1, h.2.2.1]

theorem observationAgreement : OnConflict.Agreement observationConflict ObservationAgree where
  refl _ := ⟨rfl, rfl, rfl, rfl⟩
  symm _ _ h := ⟨h.1.symm, h.2.1.symm, h.2.2.1.symm, h.2.2.2.symm⟩
  trans x y z := by
    rintro ⟨h₁, h₂, h₃, h₄⟩ ⟨h₁', h₂', h₃', h₄'⟩
    exact ⟨h₁.trans h₁', h₂.trans h₂', h₃.trans h₃', h₄.trans h₄'⟩
  conflictSymm x y := by simp only [observationConflict, Bool.beq_comm]
  congr x y z h := by simp only [observationConflict, h.1, h.2.1]

/-- The bytes of a bundle. -/
def payloads (b : BlockBundle) : List Bytes :=
  b.block.headerBytes :: (b.block.bodyBytes.toList ++
    (b.transactions.map (·.rawBytes) ++ b.bridgeObservations.map (·.rawBytes)))

theorem bundleWrites_payloads (b : BlockBundle) :
    ((bundleWrites sha256 b).payloads.map fun p => blobRow sha256 p.1) =
      (payloads b).map (blobRow sha256) := by
  have hbody : (bodyPayload b.block).map (fun p => blobRow sha256 p.1) =
      b.block.bodyBytes.toList.map (blobRow sha256) := by
    unfold bodyPayload
    cases b.block.bodyBytes <;> rfl
  simp [bundleWrites, Writes.append, blockWrites, txWrites, observationWrites, payloads, hbody,
    Function.comp_def]

/-- **The bundle is in the tables**: the block with the hashes that were returned, each transaction
and observation under its own key with its own position, kind and hash, and all bytes can be read
back. -/
structure Faithful (sha256 : Bytes → Bytes) (s : Tables) (b : BlockBundle) (out : BlobHashes) :
    Prop where
  block : ∃ x ∈ s.blocks, x.key = b.block.key ∧ x.row.headerBlobHash = out.headerBlobHash ∧
    x.row.bodyBlobHash = out.bodyBlobHash
  transactions : ∀ t ∈ b.transactions, ∃ x ∈ s.transactions, TxAgree x (t.row sha256)
  observations : ∀ o ∈ b.bridgeObservations,
    ∃ x ∈ s.observations, ObservationAgree x (o.row sha256)
  headerBytes : getBlob sha256 s out.headerBlobHash = some b.block.headerBytes
  bodyBytes : out.bodyBlobHash.map (getBlob sha256 s) = b.block.bodyBytes.map some
  txBytes : ∀ t ∈ b.transactions, getBlob sha256 s (sha256 t.rawBytes) = some t.rawBytes
  observationBytes : ∀ o ∈ b.bridgeObservations,
    getBlob sha256 s (sha256 o.rawBytes) = some o.rawBytes

/-- **The bundle conflicts only with what agrees with it**: a stored block with its key has its
header and body hash; a transaction, stored or of the bundle, that has the hash or the position of
another of the block is the same one; so is an observation with the index of another; and no two of
its payloads, or one of them and a stored blob, have one hash and other bytes. -/
structure Compat (sha256 : Bytes → Bytes) (s : Tables) (b : BlockBundle) : Prop where
  block : ∀ x ∈ s.blocks, x.key = b.block.key →
    x.row.headerBlobHash = sha256 b.block.headerBytes ∧
      x.row.bodyBlobHash = b.block.bodyBytes.map sha256
  transactions : ∀ t ∈ b.transactions,
    ∀ x ∈ s.transactions ++ b.transactions.map (·.row sha256),
      x.block = t.block → (x.txHash = t.txHash ∨ x.position = t.position) →
        TxAgree x (t.row sha256)
  observations : ∀ o ∈ b.bridgeObservations,
    ∀ x ∈ s.observations ++ b.bridgeObservations.map (·.row sha256),
      x.block = o.block → x.observationIndex = o.observationIndex →
        ObservationAgree x (o.row sha256)
  blobs : ∀ d ∈ payloads b, ∀ x ∈ s.blobs ++ (payloads b).map (blobRow sha256),
    x.hash = sha256 d → x.data = d

theorem getBlob_iff (hs : Inv sha256 s) (hlen : ∀ d, (sha256 d).length = 32) (d : Bytes) :
    getBlob sha256 s (sha256 d) = some d ↔ blobRow sha256 d ∈ s.blobs := by
  have hhex : hex32Ok (sha256 d) = true := by simp [hex32Ok, hlen d]
  unfold getBlob
  rw [if_pos hhex]
  constructor
  · intro h
    obtain ⟨x, hx, h⟩ := Option.bind_eq_some_iff.mp h
    have hmem : x ∈ s.blobs := List.mem_of_find?_eq_some hx
    have hhash : x.hash = sha256 d := by simpa using List.find?_some hx
    have hdata : x.data = d := by
      split_ifs at h
      exact Option.some.inj h
    have heq : blobRow sha256 d = x := by
      cases x
      simp_all [blobRow]
    rw [heq]
    exact hmem
  · intro h
    -- the key makes it the only row with the hash
    obtain ⟨x, hx⟩ : ∃ x, (s.blobs.find? fun x => x.hash == sha256 d) = some x := by
      rw [← Option.isSome_iff_exists, List.find?_isSome]
      exact ⟨_, h, by simp [blobRow]⟩
    have hhash : x.hash = sha256 d := by simpa using List.find?_some hx
    obtain rfl : x = blobRow sha256 d :=
      hs.blobs.eq_of_conflict blobAgreement.conflictSymm (List.mem_of_find?_eq_some hx) h
        (by simp [blobConflict, blobRow, hhash])
    rw [hx]
    simp [blobRow]

variable {b : BlockBundle}

theorem stored_blobs_iff (hs : Inv sha256 s) (hlen : ∀ d, (sha256 d).length = 32) :
    (∀ d ∈ payloads b,
        getBlob sha256 (write sha256 s (bundleWrites sha256 b)) (sha256 d) = some d) ↔
      ∀ d ∈ payloads b, ∀ x ∈ s.blobs ++ (payloads b).map (blobRow sha256),
        x.hash = sha256 d → x.data = d := by
  have hstored := @OnConflict.stored_iff _ _ _ ((payloads b).map (blobRow sha256)) _ blobAgreement
    hs.blobs
  simp only [List.forall_mem_map, exists_eq_right] at hstored
  simp only [getBlob_iff (hs.write _) hlen]
  simp only [write, bundleWrites_payloads]
  rw [hstored]
  refine forall₂_congr fun d hd => forall₂_congr fun x hx => ?_
  -- rows with one hash are equal exactly if their bytes are
  have hiff : blobConflict x (blobRow sha256 d) = true ↔ x.hash = sha256 d := by
    simp [blobConflict, blobRow]
  rw [hiff]
  refine forall_congr' fun hhash => ⟨fun h => by rw [h]; rfl, fun h => ?_⟩
  cases x
  simp_all [blobRow]

theorem stored_block_iff (hs : Inv sha256 s) :
    (∃ x ∈ (write sha256 s (bundleWrites sha256 b)).blocks, x.key = b.block.key ∧
        x.row.headerBlobHash = (hashesOf sha256 b.block).headerBlobHash ∧
          x.row.bodyBlobHash = (hashesOf sha256 b.block).bodyBlobHash) ↔
      ∀ x ∈ s.blocks, x.key = b.block.key →
        x.row.headerBlobHash = sha256 b.block.headerBytes ∧
          x.row.bodyBlobHash = b.block.bodyBytes.map sha256 := by
  have hstored := @OnConflict.stored_iff _ _ _ [storedBlock sha256 b.block] _ blockAgreement
    hs.blocks
  simp only [List.forall_mem_singleton] at hstored
  have hrows : (bundleWrites sha256 b).blocks = [storedBlock sha256 b.block] := rfl
  simp only [write, hrows]
  refine hstored.trans ⟨fun h x hx hkey => ?_, fun h x hx hc => ?_⟩
  · exact (h x (List.mem_append_left _ hx) (by simpa [blockConflict, storedBlock] using hkey)).2
  · rcases List.mem_append.mp hx with hx | hx
    · have hkey : x.key = b.block.key := by simpa [blockConflict, storedBlock] using hc
      exact ⟨hkey, h x hx hkey⟩
    · rw [List.mem_singleton.mp hx]
      exact blockAgreement.refl _

theorem stored_transactions_iff (hs : Inv sha256 s) :
    (∀ t ∈ b.transactions,
        ∃ x ∈ (write sha256 s (bundleWrites sha256 b)).transactions, TxAgree x (t.row sha256)) ↔
      ∀ t ∈ b.transactions, ∀ x ∈ s.transactions ++ b.transactions.map (·.row sha256),
        x.block = t.block → (x.txHash = t.txHash ∨ x.position = t.position) →
          TxAgree x (t.row sha256) := by
  have hstored := @OnConflict.stored_iff _ _ _ (b.transactions.map (·.row sha256)) _ txAgreement
    hs.transactions
  have hrows : (bundleWrites sha256 b).transactions = b.transactions.map (·.row sha256) := by
    simp [bundleWrites, Writes.append, blockWrites, txWrites, observationWrites]
  simp only [List.forall_mem_map] at hstored
  simp only [write, hrows]
  rw [hstored]
  refine forall₂_congr fun t ht => forall₂_congr fun x hx => ?_
  simp [txConflict, TransactionRecord.row]

theorem stored_observations_iff (hs : Inv sha256 s) :
    (∀ o ∈ b.bridgeObservations,
        ∃ x ∈ (write sha256 s (bundleWrites sha256 b)).observations,
          ObservationAgree x (o.row sha256)) ↔
      ∀ o ∈ b.bridgeObservations,
        ∀ x ∈ s.observations ++ b.bridgeObservations.map (·.row sha256),
          x.block = o.block → x.observationIndex = o.observationIndex →
            ObservationAgree x (o.row sha256) := by
  have hstored := @OnConflict.stored_iff _ _ _ (b.bridgeObservations.map (·.row sha256)) _
    observationAgreement hs.observations
  have hrows : (bundleWrites sha256 b).observations =
      b.bridgeObservations.map (·.row sha256) := by
    simp [bundleWrites, Writes.append, blockWrites, txWrites, observationWrites]
  simp only [List.forall_mem_map] at hstored
  simp only [write, hrows]
  rw [hstored]
  refine forall₂_congr fun o ho => forall₂_congr fun x hx => ?_
  simp [observationConflict, BridgeObservationRecord.row]

/-- The four ways of reading bytes back, as one. -/
theorem read_payloads_iff (u : Tables) :
    (∀ d ∈ payloads b, getBlob sha256 u (sha256 d) = some d) ↔
      getBlob sha256 u (hashesOf sha256 b.block).headerBlobHash = some b.block.headerBytes ∧
      (hashesOf sha256 b.block).bodyBlobHash.map (getBlob sha256 u) =
        b.block.bodyBytes.map some ∧
      (∀ t ∈ b.transactions, getBlob sha256 u (sha256 t.rawBytes) = some t.rawBytes) ∧
      ∀ o ∈ b.bridgeObservations, getBlob sha256 u (sha256 o.rawBytes) = some o.rawBytes := by
  have hbody : (hashesOf sha256 b.block).bodyBlobHash.map (getBlob sha256 u) =
      b.block.bodyBytes.map some ↔
        ∀ d ∈ b.block.bodyBytes.toList, getBlob sha256 u (sha256 d) = some d := by
    unfold hashesOf
    cases b.block.bodyBytes <;> simp
  rw [hbody]
  simp only [payloads, List.forall_mem_cons, List.forall_mem_append, List.forall_mem_map]
  rfl

theorem faithful_iff (hs : Inv sha256 s) (hlen : ∀ d, (sha256 d).length = 32) :
    Faithful sha256 (write sha256 s (bundleWrites sha256 b)) b (hashesOf sha256 b.block) ↔
      Compat sha256 s b := by
  constructor
  · rintro ⟨hblock, htx, hobs, h₁, h₂, h₃, h₄⟩
    exact ⟨(stored_block_iff hs).mp hblock, (stored_transactions_iff hs).mp htx,
      (stored_observations_iff hs).mp hobs,
      (stored_blobs_iff hs hlen).mp ((read_payloads_iff _).mpr ⟨h₁, h₂, h₃, h₄⟩)⟩
  · rintro ⟨hblock, htx, hobs, hblobs⟩
    obtain ⟨h₁, h₂, h₃, h₄⟩ := (read_payloads_iff _).mp ((stored_blobs_iff hs hlen).mpr hblobs)
    exact ⟨(stored_block_iff hs).mpr hblock, (stored_transactions_iff hs).mpr htx,
      (stored_observations_iff hs).mpr hobs, h₁, h₂, h₃, h₄⟩

/-- **What a bundle leaves.** A call that resolves leaves the whole bundle in the tables exactly if
the bundle conflicts only with what agrees with it; it resolves again at any later time, with the
same answer and without an effect. A call that rejects has changed nothing. -/
theorem putBlockBundle_stored (hlen : ∀ d, (sha256 d).length = 32) (hs : Reachable sha256 s)
    (b : BlockBundle) :
    (∀ out s', putBlockBundle sha256 s b = (.ok out, s') →
      (Faithful sha256 s' b out ↔ Compat sha256 s b) ∧
        ∀ ops, putBlockBundle sha256 (runOps sha256 ops s') b =
          (.ok out, runOps sha256 ops s')) ∧
    ∀ e s', putBlockBundle sha256 s b = (.error e, s') → s' = s := by
  refine ⟨fun out s' h => ⟨?_, fun ops => putBlockBundle_again h (keeps_runOps ops s')⟩,
    fun e s' h => putBlockBundle_error h⟩
  obtain ⟨-, hrows⟩ := putBlockBundle_ok h
  obtain ⟨rfl, rfl⟩ := bundleRows_ok hrows
  exact faithful_iff (inv_of_reachable hs) hlen

/-- A block of one transaction, with the body or without it. -/
def sampleBundle (body : Option Bytes) (tx : UInt8) (raw : Bytes) : BlockBundle where
  block := ⟨[109], List.replicate 32 7, 5, List.replicate 32 6, List.replicate 32 1,
    List.replicate 32 2, none, [1], body, true, .canonical, false⟩
  transactions := [⟨⟨[109], 5, List.replicate 32 7⟩, List.replicate 32 tx, 0, .regular, 1, none, raw⟩]
  bridgeObservations := []

theorem sha256OfByte_length (d : Bytes) : (sha256OfByte d).length = 32 := by
  unfold sha256OfByte
  split_ifs <;> rfl

theorem putBlockBundle_stored_retry : ∃ out s',
    putBlockBundle sha256OfByte .empty (sampleBundle none 10 [1]) = (.ok out, s') ∧
      Faithful sha256OfByte s' (sampleBundle none 10 [1]) out ∧
      putBlockBundle sha256OfByte s' (sampleBundle none 10 [1]) = (.ok out, s') := by
  obtain ⟨out, s', h⟩ : ∃ out s',
    putBlockBundle sha256OfByte .empty (sampleBundle none 10 [1]) = (.ok out, s') := ⟨_, _, rfl⟩
  obtain ⟨hstored, hagain⟩ := (putBlockBundle_stored sha256OfByte_length
    (⟨[], rfl⟩ : Reachable sha256OfByte .empty) (sampleBundle none 10 [1])).1 out s' h
  refine ⟨out, s', h, hstored.mpr ⟨by simp [Tables.empty], ?_, by simp [sampleBundle], ?_⟩,
    hagain []⟩
  · intro t ht x hx
    simp only [sampleBundle, Tables.empty, List.nil_append, List.map_cons, List.map_nil,
      List.mem_singleton] at ht hx
    subst ht hx
    exact fun _ _ => txAgreement.refl _
  · decide +kernel

/-- The block comes again, now with its body and with another transaction at the position: the call
resolves and returns the hash of the body, but neither is stored. -/
theorem lateBody_dropped : ∃ s, Reachable sha256OfByte s ∧ ∃ out s',
    putBlockBundle sha256OfByte s (sampleBundle (some []) 11 []) = (.ok out, s') ∧
      out.bodyBlobHash = some (sha256OfByte []) ∧ s'.blocks.map (·.row.bodyBlobHash) = [none] ∧
      s'.transactions.map (·.txHash) = [List.replicate 32 10] ∧
      ¬ Faithful sha256OfByte s' (sampleBundle (some []) 11 []) out := by
  refine ⟨_, ⟨[.putBlockBundle (sampleBundle none 10 [1])], rfl⟩, _, _, rfl, rfl, ?_, ?_, ?_⟩
  · decide +kernel
  · decide +kernel
  · intro h
    have hblock := h.block
    revert hblock
    decide +kernel

end UmbraDB.Archive.Bundle
