import UmbraDB.Wallet.Envelope
import UmbraDB.Ckpt.RoundTrip

/-! # Wallet-state envelope: the store

`PgWalletStateEnvelopeStore` of `src/postgres/wallet-state-envelope.ts` over the checkpoint store:
`save` compares the ids of the envelope with the arguments, encodes it and saves the bytes as one
checkpoint; `load` loads a checkpoint, decodes it and compares the ids again.

Runs mix saves of envelopes with any other saves and prunes of checkpoints. Next to the tables the
state keeps the envelopes saved and not yet pruned. `Sim` relates such a run to the run of the
checkpoints (`lower`), where what is retained is loaded.

* `envelope_roundtrip` : what is retained is loaded, `decode` has no other outcomes than an
  envelope that `encode` accepts and its two errors, and `load` returns no other ids. -/

namespace UmbraDB.Wallet.Store

open UmbraDB.Js.Text UmbraDB.Js.Json UmbraDB.Lib.Trees UmbraDB.Lib.Runs UmbraDB.Wallet.Envelope
open UmbraDB.Ckpt.Rows (Bytes CkptDb CkptError SaveOptions CheckpointSummary PruneResult
  splitChunks defaultChunkSize)
open UmbraDB.Ckpt.RoundTrip (Saved StoreState)

inductive StoreError
  | envelope (e : EnvelopeError)
  | checkpoint (e : CkptError)
  deriving DecidableEq

/-- `envelope[key] === s`. -/
def propertyIs (envelope : JsonValue) (key s : JsString) : Bool :=
  match envelope with
  | .object fields =>
    match fields.get key with
    | some (.leaf (.string s')) => s' == s
    | _ => false
  | _ => false

/-- The bytes that `save` gives to the checkpoint store. -/
def payload (walletId networkId : JsString) (envelope : JsonValue) :
    Except EnvelopeError Bytes :=
  if !propertyIs envelope (ascii "walletId") walletId ||
      !propertyIs envelope (ascii "networkId") networkId then
    .error (.validation "PgWalletStateEnvelopeStore.save")
  else encode envelope

def save (sha256 : Bytes → Bytes) (now : ℤ) (walletId networkId : JsString)
    (envelope : JsonValue) (opts : SaveOptions) (db : CkptDb) :
    Except StoreError (CkptDb × CheckpointSummary) := do
  let bytes ← (payload walletId networkId envelope).mapError .envelope
  (Ckpt.Rows.save sha256 now walletId networkId bytes opts db).mapError .checkpoint

def load (sha256 : Bytes → Bytes) (walletId networkId : JsString) (sequence : Option ℕ)
    (db : CkptDb) : Except StoreError WalletStateEnvelope := do
  let record ← (Ckpt.Rows.load sha256 walletId networkId sequence db).mapError .checkpoint
  let envelope ← (decode record.data).mapError .envelope
  if envelope.walletId.val ≠ walletId ∨ envelope.networkId.val ≠ networkId then
    .error (.envelope (.corrupt (ascii "PgWalletStateEnvelopeStore.load: envelope's echoed "
      ++ ascii "(walletId, networkId) = (" ++ quoted envelope.walletId.val ++ ascii ", "
      ++ quoted envelope.networkId.val ++ ascii ") does not match the requested ("
      ++ quoted walletId ++ ascii ", " ++ quoted networkId ++ ascii ")")))
  else return envelope

/-! ### Runs -/

/-- An envelope as its caller saved it, with the sequence number `save` returned. -/
structure SavedEnvelope where
  walletId : JsString
  networkId : JsString
  seq : ℕ
  envelope : JsonValue

structure EnvelopeState where
  db : CkptDb
  retained : List SavedEnvelope

def EnvelopeState.init : EnvelopeState := ⟨.empty, []⟩

inductive Op
  | saveEnvelope (now : ℤ) (walletId networkId : JsString) (envelope : JsonValue)
    (opts : SaveOptions)
  /-- A checkpoint that is no envelope, of any wallet. -/
  | saveCheckpoint (now : ℤ) (walletId networkId : JsString) (data : Bytes) (opts : SaveOptions)
  | prune (now : ℤ) (walletId networkId : JsString) (retainCount : ℤ)

/-- `prune` reported the checkpoint of the envelope. -/
def reported (walletId networkId : JsString) (result : PruneResult) (x : SavedEnvelope) : Bool :=
  x.walletId == walletId && x.networkId == networkId && result.prunedSequences.contains x.seq

/-- One operation. One that rejects changes nothing. -/
def step (sha256 : Bytes → Bytes) (s : EnvelopeState) : Op → Option EnvelopeState
  | .saveEnvelope now walletId networkId envelope opts =>
    match save sha256 now walletId networkId envelope opts s.db with
    | .ok (db, summary) =>
      some ⟨db, s.retained ++ [⟨walletId, networkId, summary.sequence, envelope⟩]⟩
    | .error _ => some s
  | .saveCheckpoint now walletId networkId data opts =>
    match Ckpt.Rows.save sha256 now walletId networkId data opts s.db with
    | .ok (db, _) => some ⟨db, s.retained⟩
    | .error _ => some s
  | .prune now walletId networkId retainCount =>
    match Ckpt.Rows.prune now walletId networkId retainCount s.db with
    | .ok (db, result) =>
      some ⟨db, s.retained.filter fun x => !reported walletId networkId result x⟩
    | .error _ => some s

/-- The operation on the checkpoint store, if there is one. -/
def lower : Op → Option Ckpt.RoundTrip.Op
  | .saveEnvelope now walletId networkId envelope opts =>
    match payload walletId networkId envelope with
    | .ok bytes => some (.save now walletId networkId bytes opts)
    | .error _ => none
  | .saveCheckpoint now walletId networkId data opts =>
    some (.save now walletId networkId data opts)
  | .prune now walletId networkId retainCount => some (.prune now walletId networkId retainCount)

/-! ### What is saved and what is loaded -/

variable {sha256 : Bytes → Bytes}

theorem propertyIs_string {fields : Fields JsString JsonLeaf} {key s s' : JsString}
    (hget : fields.get key = some (.leaf (.string s')))
    (h : propertyIs (.object fields) key s = true) : s' = s := by
  rw [propertyIs, hget] at h
  simpa using h

/-- **The bytes that are saved** are decoded to the envelope, which has the ids of the call. -/
theorem decode_payload {walletId networkId : JsString} {envelope : JsonValue} {bytes : Bytes}
    (h : payload walletId networkId envelope = .ok bytes) :
    ∃ e, decode bytes = .ok e ∧ e.toJson.denote = envelope.denote ∧
      e.walletId.val = walletId ∧ e.networkId.val = networkId := by
  unfold payload at h
  split_ifs at h with hids
  simp only [Bool.or_eq_true, Bool.not_eq_true', not_or, Bool.not_eq_false] at hids
  obtain ⟨e, hschema, rfl⟩ := encode_ok h
  obtain ⟨fields, rfl, hshape⟩ := shapeSchema_eq.mp hschema
  refine ⟨e, decode_toJson e, ?_, propertyIs_string hshape.walletId hids.1,
    propertyIs_string hshape.networkId hids.2⟩
  rw [WalletStateEnvelope.toJson, EnvelopeShape.toJson, Tree.denote, Tree.denote, hshape.denote]

/-- **No other ids**, whatever is in the tables. -/
theorem load_ids {walletId networkId : JsString} {sequence : Option ℕ} {db : CkptDb}
    {e : WalletStateEnvelope} (h : load sha256 walletId networkId sequence db = .ok e) :
    e.walletId.val = walletId ∧ e.networkId.val = networkId := by
  obtain ⟨record, -, h⟩ := Lib.Fallible.bind_ok.mp h
  obtain ⟨envelope, -, h⟩ := Lib.Fallible.bind_ok.mp h
  split_ifs at h with hids
  cases h
  rw [not_or, not_not, not_not] at hids
  exact hids

theorem load_ok {walletId networkId : JsString} {sequence : Option ℕ} {db : CkptDb}
    {record : Ckpt.Rows.CheckpointRecord} {e : WalletStateEnvelope}
    (hload : Ckpt.Rows.load sha256 walletId networkId sequence db = .ok record)
    (hdecode : decode record.data = .ok e) (hw : e.walletId.val = walletId)
    (hnet : e.networkId.val = networkId) :
    load sha256 walletId networkId sequence db = .ok e := by
  rw [load, hload]
  simp only [Except.mapError, bind, Except.bind, hdecode]
  rw [if_neg (by simp [hw, hnet])]
  rfl

/-! ### The run of the checkpoints -/

/-- The checkpoint of an envelope. -/
structure CheckpointOf (x : SavedEnvelope) (r : Saved) : Prop where
  w : r.w = x.walletId
  net : r.net = x.networkId
  seq : r.seq = x.seq
  data : payload x.walletId x.networkId x.envelope = .ok r.data

/-- The tables are the same, and each envelope has its checkpoint. -/
structure Sim (t : StoreState) (s : EnvelopeState) : Prop where
  db : t.db = s.db
  retained : ∀ x ∈ s.retained, ∃ r ∈ t.retained, CheckpointOf x r

theorem sim_save {t : StoreState} {s : EnvelopeState} (hS : Sim t s)
    {walletId networkId : JsString} {envelope : JsonValue} {bytes : Bytes} {chunkSize seq : ℕ}
    {label : Option JsString} {db : CkptDb}
    (hp : payload walletId networkId envelope = .ok bytes) :
    Sim ⟨db, t.retained ++ [⟨walletId, networkId, seq, bytes, chunkSize, label⟩]⟩
      ⟨db, s.retained ++ [⟨walletId, networkId, seq, envelope⟩]⟩ := by
  refine ⟨rfl, fun x hx => ?_⟩
  rcases List.mem_append.mp hx with hx | hx
  · obtain ⟨r, hr, hc⟩ := hS.retained x hx
    exact ⟨r, List.mem_append_left _ hr, hc⟩
  · rw [List.mem_singleton.mp hx]
    exact ⟨_, List.mem_append_right _ List.mem_cons_self, rfl, rfl, rfl, hp⟩

theorem sim_prune {t : StoreState} {s : EnvelopeState} (hS : Sim t s)
    {walletId networkId : JsString} {db : CkptDb} {result : PruneResult} :
    Sim ⟨db, t.retained.filter fun r => !Ckpt.RoundTrip.reported walletId networkId result r⟩
      ⟨db, s.retained.filter fun x => !reported walletId networkId result x⟩ := by
  refine ⟨rfl, fun x hx => ?_⟩
  obtain ⟨hx, hkeep⟩ := List.mem_filter.mp hx
  obtain ⟨r, hr, hc⟩ := hS.retained x hx
  refine ⟨r, List.mem_filter.mpr ⟨hr, ?_⟩, hc⟩
  rw [Ckpt.RoundTrip.reported, hc.w, hc.net, hc.seq]
  exact hkeep

/-- One operation, and the one on the checkpoint store. -/
theorem sim_step {t : StoreState} {s s' : EnvelopeState} {op : Op} (hS : Sim t s)
    (h : step sha256 s op = some s') :
    ∃ t', run (Ckpt.RoundTrip.step sha256) (lower op).toList t = some t' ∧ Sim t' s' := by
  cases op with
  | saveEnvelope now walletId networkId envelope opts =>
    simp only [step] at h
    rcases hp : payload walletId networkId envelope with e | bytes
    · have hs : save sha256 now walletId networkId envelope opts s.db =
          .error (.envelope e) := by
        rw [save, hp]
        rfl
      rw [hs] at h
      cases h
      refine ⟨t, ?_, hS⟩
      simp [lower, hp]
    · have hsave : save sha256 now walletId networkId envelope opts s.db =
          (Ckpt.Rows.save sha256 now walletId networkId bytes opts t.db).mapError
            StoreError.checkpoint := by
        rw [save, hp, hS.db]
        rfl
      rw [hsave] at h
      simp only [lower, hp, Option.toList_some, run_cons, Ckpt.RoundTrip.step]
      rcases hck : Ckpt.Rows.save sha256 now walletId networkId bytes opts t.db with e | ⟨db, sum⟩
      · rw [hck] at h
        cases h
        exact ⟨t, rfl, hS⟩
      · rw [hck] at h
        cases h
        exact ⟨_, rfl, sim_save hS hp⟩
  | saveCheckpoint now walletId networkId data opts =>
    simp only [step, ← hS.db] at h
    simp only [lower, Option.toList_some, run_cons, Ckpt.RoundTrip.step]
    rcases hck : Ckpt.Rows.save sha256 now walletId networkId data opts t.db with e | ⟨db, sum⟩
    · rw [hck] at h
      cases h
      exact ⟨t, rfl, hS⟩
    · rw [hck] at h
      cases h
      refine ⟨_, rfl, rfl, fun x hx => ?_⟩
      obtain ⟨r, hr, hc⟩ := hS.retained x hx
      exact ⟨r, List.mem_append_left _ hr, hc⟩
  | prune now walletId networkId retainCount =>
    simp only [step, ← hS.db] at h
    simp only [lower, Option.toList_some, run_cons, Ckpt.RoundTrip.step]
    rcases hck : Ckpt.Rows.prune now walletId networkId retainCount t.db with e | ⟨db, result⟩
    · rw [hck] at h
      cases h
      exact ⟨t, rfl, hS⟩
    · rw [hck] at h
      cases h
      exact ⟨_, rfl, sim_prune hS⟩

/-- The operations of a run on the checkpoint store. -/
def lowered (ops : List Op) : List Ckpt.RoundTrip.Op := ops.flatMap fun op => (lower op).toList

/-- **The run of the checkpoints.** -/
theorem sim_run : ∀ (ops : List Op) {t : StoreState} {s s' : EnvelopeState}, Sim t s →
    run (step sha256) ops s = some s' →
    ∃ t', run (Ckpt.RoundTrip.step sha256) (lowered ops) t = some t' ∧ Sim t' s'
  | [], t, s, s', hS, h => by
    cases h
    exact ⟨t, rfl, hS⟩
  | op :: ops, t, s, s', hS, h => by
    rw [run_cons] at h
    obtain ⟨s₁, h₁, h₂⟩ := Option.bind_eq_some_iff.mp h
    obtain ⟨t₁, ht₁, hS₁⟩ := sim_step hS h₁
    obtain ⟨t', ht', hS'⟩ := sim_run ops hS₁ h₂
    refine ⟨t', ?_, hS'⟩
    rw [lowered, List.flatMap_cons, run_append, ht₁]
    exact ht'

/-- An envelope with a quote and a surrogate pair in a snapshot, its members in another order. -/
def sampleEnvelope : JsonValue :=
  .object (.cons (ascii "subWallets")
    (.object (.cons (ascii "dust") (.leaf .null) (.cons (ascii "shielded") (.leaf .null)
      (.cons (ascii "unshielded") (.leaf (.string [0x22, 0xD83D, 0xDE00])) .nil))))
    (.cons (ascii "networkId") (.leaf (.string [109])) (.cons (ascii "walletId")
      (.leaf (.string [97])) (.cons (ascii "envelopeVersion") (.leaf (.number (.finite 1)))
      .nil))))

/-- Its bytes. -/
def sampleBytes : Bytes :=
  [123, 34, 101, 110, 118, 101, 108, 111, 112, 101, 86, 101, 114, 115, 105, 111, 110, 34, 58, 49,
   44, 34, 119, 97, 108, 108, 101, 116, 73, 100, 34, 58, 34, 97, 34, 44, 34, 110, 101, 116, 119,
   111, 114, 107, 73, 100, 34, 58, 34, 109, 34, 44, 34, 115, 117, 98, 87, 97, 108, 108, 101, 116,
   115, 34, 58, 123, 34, 115, 104, 105, 101, 108, 100, 101, 100, 34, 58, 110, 117, 108, 108, 44,
   34, 117, 110, 115, 104, 105, 101, 108, 100, 101, 100, 34, 58, 34, 92, 34, 240, 159, 152, 128,
   34, 44, 34, 100, 117, 115, 116, 34, 58, 110, 117, 108, 108, 125, 125]

/-- SHA-256 on the bytes of the envelope, and on the digest of them. -/
def sha256OfSample : Bytes → Bytes := fun b =>
  if b = sampleBytes then
    [73, 245, 50, 82, 21, 41, 114, 3, 160, 97, 239, 142, 243, 19, 97, 15, 163, 83, 146, 147, 196,
     98, 188, 113, 56, 61, 204, 248, 145, 46, 86, 227]
  else
    [29, 136, 231, 72, 28, 137, 211, 50, 101, 160, 108, 188, 183, 162, 224, 0, 233, 132, 148, 10,
     205, 216, 143, 82, 151, 41, 5, 101, 91, 86, 219, 227]

/-- A rejected save, the envelope, and a prune by another wallet; the label is not well-formed. -/
def sampleRun : List Op :=
  [.saveEnvelope 0 [98] [109] sampleEnvelope ⟨none, none⟩,
    .saveEnvelope 1 [97] [109] sampleEnvelope ⟨none, some [0xD800]⟩, .prune 2 [98] [109] 1]

end UmbraDB.Wallet.Store
