import UmbraDB.Archive.Bundle
import UmbraDB.Archive.Mirror
import UmbraDB.Js.Json
import UmbraDB.Lib.Groups

/-! # Chain archive: decoding archived transactions

`decodeArchivedTransaction` (`chain-archive-sync/tx-replay-decoder.ts`) gives the parts of a
transaction that the archive has no tables for. `ledger` is the module `ledger-v8`, which is not
part of the repository: it deserializes bytes to the objects that the decoder reads, and may reject
them. A `Map` is the list of its entries, whose keys are distinct (`SegmentMap`).

* `decode_lossless` : everything that the decoder reads of a transaction can be read off its result
  again, in order, and an output is identified by its segment and its index.
* `replay_matches_chain` : decoded from the archive, a transaction is what the indexer reported. -/

namespace UmbraDB.Archive.Replay

open UmbraDB.Js.Text UmbraDB.Js.Json UmbraDB.Lib.Keyed UmbraDB.Lib.Groups UmbraDB.Lib.Runs
open UmbraDB.Lib.RangeScan UmbraDB.Ckpt.Rows UmbraDB.Archive.Sync UmbraDB.Archive.Cursor
open UmbraDB.Archive.Mirror
open UmbraDB.Ckpt.RoundTrip (sha256OfByte)

/-! ### What the ledger gives -/

structure ZswapOutput where
  commitment : JsString
  contractAddress : Option JsString
  deriving DecidableEq

structure ZswapInput where
  nullifier : JsString
  contractAddress : Option JsString
  deriving DecidableEq

structure ZswapOffer where
  outputs : List ZswapOutput
  inputs : List ZswapInput
  deriving DecidableEq

structure UnshieldedOutput where
  owner : JsString
  tokenType : JsString
  value : ℤ
  deriving DecidableEq

structure DustSpend where
  vFee : ℤ
  oldNullifier : JsString
  newCommitment : JsString
  deriving DecidableEq

structure DustRegistration where
  nightKey : JsString
  dustAddress : Option JsString
  allowFeePayment : ℤ
  deriving DecidableEq

structure DustActions where
  spends : List DustSpend
  registrations : List DustRegistration

structure Intent where
  intentHash : ℕ → JsString
  guaranteedUnshieldedOffer : Option (List UnshieldedOutput)
  fallibleUnshieldedOffer : Option (List UnshieldedOutput)
  dustActions : Option DustActions

/-- A `Map` from the segments. -/
structure SegmentMap (A : Type) where
  entries : List (ℕ × A)
  distinct : Distinct Prod.fst entries

structure Transaction where
  transactionHash : JsString
  guaranteedOffer : Option ZswapOffer
  fallibleOffer : Option (SegmentMap (Option ZswapOffer))
  intents : Option (SegmentMap Intent)

/-- The module `ledger-v8`; a system transaction is given by its `toString()`. -/
structure Ledger (E : Type) where
  systemTransaction : Bytes → Except E JsString
  transaction : Bytes → Except E Transaction

/-! ### The decoder -/

inductive OfferSection
  | guaranteed
  | fallible
  deriving DecidableEq

structure DecodedZswapOutput where
  offerSection : OfferSection
  segmentId : Option ℕ
  output : ZswapOutput

structure DecodedZswapInput where
  offerSection : OfferSection
  segmentId : Option ℕ
  input : ZswapInput

structure DecodedUnshieldedOutput where
  segmentId : ℕ
  intentHash : JsString
  outputIndex : ℕ
  offerSection : OfferSection
  output : UnshieldedOutput

structure DecodedDustSpend where
  segmentId : ℕ
  spend : DustSpend

structure DecodedDustRegistration where
  segmentId : ℕ
  registration : DustRegistration

inductive DecodedKind
  | system
  | standard
  deriving DecidableEq

structure DecodedArchivedTransaction where
  kind : DecodedKind
  transactionHash : Option JsString
  systemDescription : Option JsString
  zswapOutputs : List DecodedZswapOutput
  zswapInputs : List DecodedZswapInput
  unshieldedOutputs : List DecodedUnshieldedOutput
  dustSpends : List DecodedDustSpend
  dustRegistrations : List DecodedDustRegistration

inductive DecodeError (E : Type)
  /-- The bytes have neither tag. -/
  | noTag (message : JsString)
  | ledger (err : E)

/-- `SYSTEM_TX_TAG_PREFIX`. -/
def systemTxTagPrefix : JsString := ascii "midnight:system-transaction"

/-- `STANDARD_TX_TAG_PREFIX`. -/
def standardTxTagPrefix : JsString := ascii "midnight:transaction"

def noTagMessage (tag : JsString) : JsString :=
  ascii "decodeArchivedTransaction: bytes carry neither the \"" ++ systemTxTagPrefix ++
    ascii "\" nor the \"" ++ standardTxTagPrefix ++ ascii "\" self-tag (got: " ++ quoted tag ++
    ascii ") -- not an archived pallet_midnight transaction payload"

/-- `toString("latin1")`. -/
def latin1 (bytes : Bytes) : JsString := bytes.map fun b => UInt16.ofNat b.toNat

def tagOf (rawBytes : Bytes) : JsString := latin1 (rawBytes.take (standardTxTagPrefix.length + 8))

def isSystemTransaction (rawBytes : Bytes) : Bool := systemTxTagPrefix.isPrefixOf (tagOf rawBytes)

def isStandardTransaction (rawBytes : Bytes) : Bool :=
  standardTxTagPrefix.isPrefixOf (tagOf rawBytes) && !systemTxTagPrefix.isPrefixOf (tagOf rawBytes)

/-- The loops of `collectOffer`. -/
def collectOffer (acc : List DecodedZswapOutput × List DecodedZswapInput)
    (x : (OfferSection × Option ℕ) × Option ZswapOffer) :
    List DecodedZswapOutput × List DecodedZswapInput :=
  match x.2 with
  | none => acc
  | some offer =>
    (offer.outputs.foldl (fun outputs out => outputs ++ [⟨x.1.1, x.1.2, out⟩]) acc.1,
      offer.inputs.foldl (fun inputs inp => inputs ++ [⟨x.1.1, x.1.2, inp⟩]) acc.2)

/-- The offers in the order in which they are collected. -/
def Transaction.offers (tx : Transaction) : List ((OfferSection × Option ℕ) × Option ZswapOffer) :=
  ((.guaranteed, none), tx.guaranteedOffer) ::
    ((tx.fallibleOffer.map SegmentMap.entries).getD []).map fun e => ((.fallible, some e.1), e.2)

/-- The loop over the outputs of an unshielded offer, with `outputIndex`. -/
def collectUnshielded (segmentId : ℕ) (intentHash : JsString)
    (acc : ℕ × List DecodedUnshieldedOutput)
    (x : OfferSection × Option (List UnshieldedOutput)) : ℕ × List DecodedUnshieldedOutput :=
  match x.2 with
  | none => acc
  | some outputs =>
    outputs.foldl (fun acc out =>
      (acc.1 + 1, acc.2 ++ [⟨segmentId, intentHash, acc.1, x.1, out⟩])) acc

structure Collected where
  unshieldedOutputs : List DecodedUnshieldedOutput
  dustSpends : List DecodedDustSpend
  dustRegistrations : List DecodedDustRegistration

/-- The body of the loop over the intents. -/
def collectIntent (acc : Collected) (e : ℕ × Intent) : Collected :=
  let segmentId := e.1
  let intent := e.2
  let intentHash := intent.intentHash segmentId
  let offers := [(OfferSection.guaranteed, intent.guaranteedUnshieldedOffer),
    (OfferSection.fallible, intent.fallibleUnshieldedOffer)]
  let unshieldedOutputs :=
    (offers.foldl (collectUnshielded segmentId intentHash) (0, acc.unshieldedOutputs)).2
  match intent.dustActions with
  | none => { acc with unshieldedOutputs := unshieldedOutputs }
  | some dust =>
    ⟨unshieldedOutputs,
      dust.spends.foldl (fun spends spend => spends ++ [⟨segmentId, spend⟩]) acc.dustSpends,
      dust.registrations.foldl (fun registrations reg => registrations ++ [⟨segmentId, reg⟩])
        acc.dustRegistrations⟩

def Transaction.entries (tx : Transaction) : List (ℕ × Intent) :=
  (tx.intents.map SegmentMap.entries).getD []

/-- What is returned for a standard transaction. -/
def decodeStandard (tx : Transaction) : DecodedArchivedTransaction :=
  let zswap := tx.offers.foldl collectOffer ([], [])
  let collected := tx.entries.foldl collectIntent ⟨[], [], []⟩
  ⟨.standard, some tx.transactionHash, none, zswap.1, zswap.2, collected.unshieldedOutputs,
    collected.dustSpends, collected.dustRegistrations⟩

def decodeArchivedTransaction {E : Type} (ledger : Ledger E) (rawBytes : Bytes) :
    Except (DecodeError E) DecodedArchivedTransaction :=
  if isSystemTransaction rawBytes then
    match ledger.systemTransaction rawBytes with
    | .ok description => .ok ⟨.system, none, some description, [], [], [], [], []⟩
    | .error err => .error (.ledger err)
  else if isStandardTransaction rawBytes then
    match ledger.transaction rawBytes with
    | .ok tx => .ok (decodeStandard tx)
    | .error err => .error (.ledger err)
  else .error (.noTag (noTagMessage (tagOf rawBytes)))

/-! ### The tags -/

section Tags
variable {t : JsString} {n : ℕ} {rawBytes : Bytes}

theorem isPrefixOf_latin1 (hlen : t.length ≤ n) (ht : ∀ u ∈ t, u.toNat < 256) (rawBytes : Bytes) :
    t.isPrefixOf (latin1 (rawBytes.take n)) =
      (t.map fun u => UInt8.ofNat u.toNat).isPrefixOf rawBytes := by
  have hbytes : ∀ bytes : Bytes, (latin1 bytes).map (fun u => UInt8.ofNat u.toNat) = bytes := by
    intro bytes
    rw [latin1, List.map_map]
    refine (List.map_congr_left fun b _ => ?_).trans (List.map_id _)
    have hlt : b.toNat < UInt16.size := b.toNat_lt.trans (by decide)
    rw [Function.comp_apply, UInt16.toNat_ofNat_of_lt' hlt, UInt8.ofNat_toNat, id]
  have hunits : latin1 (t.map fun u => UInt8.ofNat u.toNat) = t := by
    rw [latin1, List.map_map]
    refine (List.map_congr_left fun u hu => ?_).trans (List.map_id _)
    rw [Function.comp_apply, UInt8.toNat_ofNat_of_lt' (ht u hu), UInt16.ofNat_toNat, id]
  rw [Bool.eq_iff_iff, List.isPrefixOf_iff_prefix, List.isPrefixOf_iff_prefix]
  constructor
  · intro h
    have hmap := h.map fun u => UInt8.ofNat u.toNat
    rw [hbytes] at hmap
    exact hmap.trans (List.take_prefix n rawBytes)
  · intro h
    have htake : (t.map fun u => UInt8.ofNat u.toNat) <+: rawBytes.take n :=
      List.prefix_take_iff.mpr ⟨h, by rwa [List.length_map]⟩
    have hmap := htake.map fun b => UInt16.ofNat b.toNat
    rwa [show (t.map fun u => UInt8.ofNat u.toNat).map (fun b => UInt16.ofNat b.toNat) = t from
      hunits] at hmap

/-- The decoder and the archive take the same transactions for system transactions. -/
theorem isSystemTransaction_iff (rawBytes : Bytes) :
    isSystemTransaction rawBytes = true ↔ txKind rawBytes = .system := by
  have hlen : systemTxTagPrefix.length ≤ standardTxTagPrefix.length + 8 := by decide
  have hall : systemTxTagPrefix.all (fun u => decide (u.toNat < 256)) = true := by decide
  have hlow : ∀ u ∈ systemTxTagPrefix, u.toNat < 256 := fun u hu =>
    of_decide_eq_true (List.all_eq_true.mp hall u hu)
  rw [isSystemTransaction, tagOf, isPrefixOf_latin1 hlen hlow, txKind]
  show (systemTxTag.map fun u => UInt8.ofNat u.toNat).isPrefixOf rawBytes = true ↔ _
  split_ifs with h
  · exact iff_of_true h rfl
  · exact iff_of_false h fun he => by cases he

end Tags

/-! ### What the loops collect -/

section Loops

def outputsOf (x : (OfferSection × Option ℕ) × Option ZswapOffer) : List DecodedZswapOutput :=
  ((x.2.map ZswapOffer.outputs).getD []).map fun out => ⟨x.1.1, x.1.2, out⟩

def inputsOf (x : (OfferSection × Option ℕ) × Option ZswapOffer) : List DecodedZswapInput :=
  ((x.2.map ZswapOffer.inputs).getD []).map fun inp => ⟨x.1.1, x.1.2, inp⟩

theorem collectOffer_eq (acc : List DecodedZswapOutput × List DecodedZswapInput)
    (x : (OfferSection × Option ℕ) × Option ZswapOffer) :
    collectOffer acc x = (acc.1 ++ outputsOf x, acc.2 ++ inputsOf x) := by
  obtain ⟨k, _ | offer⟩ := x
  · exact Prod.ext (List.append_nil _).symm (List.append_nil _).symm
  · exact Prod.ext (foldl_push _ _ _) (foldl_push _ _ _)

theorem collectOffers_eq (xs : List ((OfferSection × Option ℕ) × Option ZswapOffer))
    (acc : List DecodedZswapOutput × List DecodedZswapInput) :
    xs.foldl collectOffer acc = (acc.1 ++ xs.flatMap outputsOf, acc.2 ++ xs.flatMap inputsOf) := by
  induction xs generalizing acc with
  | nil => exact Prod.ext (List.append_nil _).symm (List.append_nil _).symm
  | cons x xs ih =>
    rw [List.foldl_cons, ih, collectOffer_eq, List.flatMap_cons, List.flatMap_cons,
      List.append_assoc, List.append_assoc]

/-- What the decoder reads of an intent: the outputs with their section, and the dust actions. -/
structure IntentContent where
  outputs : List (OfferSection × UnshieldedOutput)
  spends : List DustSpend
  registrations : List DustRegistration

/-- The outputs of an intent, the guaranteed ones first. -/
def Intent.content (i : Intent) : IntentContent :=
  ⟨(i.guaranteedUnshieldedOffer.getD []).map (Prod.mk .guaranteed) ++
      (i.fallibleUnshieldedOffer.getD []).map (Prod.mk .fallible),
    (i.dustActions.map DustActions.spends).getD [],
    (i.dustActions.map DustActions.registrations).getD []⟩

def unshieldedOf (e : ℕ × Intent) : List DecodedUnshieldedOutput :=
  e.2.content.outputs.zipIdx.map fun p => ⟨e.1, e.2.intentHash e.1, p.2, p.1.1, p.1.2⟩

def spendsOf (e : ℕ × Intent) : List DecodedDustSpend :=
  e.2.content.spends.map fun spend => ⟨e.1, spend⟩

def registrationsOf (e : ℕ × Intent) : List DecodedDustRegistration :=
  e.2.content.registrations.map fun reg => ⟨e.1, reg⟩

theorem collectUnshielded_eq (segmentId : ℕ) (intentHash : JsString)
    (x : OfferSection × Option (List UnshieldedOutput)) (n : ℕ)
    (outputs : List DecodedUnshieldedOutput) :
    collectUnshielded segmentId intentHash (n, outputs) x =
      (n + (x.2.getD []).length, outputs ++ (((x.2.getD []).map (Prod.mk x.1)).zipIdx n).map
        fun p => ⟨segmentId, intentHash, p.2, p.1.1, p.1.2⟩) := by
  obtain ⟨sec, _ | outs⟩ := x
  · exact Prod.ext rfl (List.append_nil _).symm
  · have hloop := foldl_enumerate (fun i out =>
      (⟨segmentId, intentHash, i, sec, out⟩ : DecodedUnshieldedOutput)) outs n outputs
    refine hloop.trans (Prod.ext rfl ?_)
    rw [Option.getD_some, List.zipIdx_map, List.map_map]
    rfl

theorem collectIntent_eq (acc : Collected) (e : ℕ × Intent) :
    collectIntent acc e = ⟨acc.unshieldedOutputs ++ unshieldedOf e, acc.dustSpends ++ spendsOf e,
      acc.dustRegistrations ++ registrationsOf e⟩ := by
  have hunshielded : ([(OfferSection.guaranteed, e.2.guaranteedUnshieldedOffer),
      (OfferSection.fallible, e.2.fallibleUnshieldedOffer)].foldl
        (collectUnshielded e.1 (e.2.intentHash e.1)) (0, acc.unshieldedOutputs)).2 =
      acc.unshieldedOutputs ++ unshieldedOf e := by
    rw [List.foldl_cons, List.foldl_cons, List.foldl_nil, collectUnshielded_eq,
      collectUnshielded_eq, unshieldedOf, Intent.content, List.zipIdx_append, List.map_append,
      List.append_assoc, List.length_map]
  unfold collectIntent
  dsimp only
  rw [hunshielded]
  obtain ⟨segmentId, intentHash, guaranteed, fallible, _ | dust⟩ := e
  · show Collected.mk _ _ _ = Collected.mk _ (_ ++ []) (_ ++ [])
    rw [List.append_nil, List.append_nil]
  · show Collected.mk _ _ _ = Collected.mk _ _ _
    rw [foldl_push, foldl_push]
    rfl

theorem collectIntents_eq (es : List (ℕ × Intent)) (acc : Collected) :
    es.foldl collectIntent acc = ⟨acc.unshieldedOutputs ++ es.flatMap unshieldedOf,
      acc.dustSpends ++ es.flatMap spendsOf,
      acc.dustRegistrations ++ es.flatMap registrationsOf⟩ := by
  induction es generalizing acc with
  | nil => rw [List.foldl_nil, List.flatMap_nil, List.flatMap_nil, List.flatMap_nil,
      List.append_nil, List.append_nil, List.append_nil]
  | cons e es ih =>
    rw [List.foldl_cons, ih, collectIntent_eq, List.flatMap_cons, List.flatMap_cons,
      List.flatMap_cons, List.append_assoc, List.append_assoc, List.append_assoc]

end Loops

/-! ### What can be read off again -/

section Content
variable (d : DecodedArchivedTransaction) (tx : Transaction)

/-- The offer of a section and a segment, off the decoded transaction. -/
def DecodedArchivedTransaction.zswapOffer (k : OfferSection × Option ℕ) : ZswapOffer :=
  ⟨(d.zswapOutputs.filter fun o => (o.offerSection, o.segmentId) = k).map (·.output),
    (d.zswapInputs.filter fun o => (o.offerSection, o.segmentId) = k).map (·.input)⟩

/-- The offer of the transaction itself, empty if there is none. -/
def Transaction.zswapOffer (k : OfferSection × Option ℕ) : ZswapOffer :=
  ((get Prod.fst k tx.offers).bind Prod.snd).getD ⟨[], []⟩

/-- The intent of a segment, off the decoded transaction. -/
def DecodedArchivedTransaction.intent (segmentId : ℕ) : IntentContent :=
  ⟨(d.unshieldedOutputs.filter (·.segmentId = segmentId)).map fun o => (o.offerSection, o.output),
    (d.dustSpends.filter (·.segmentId = segmentId)).map (·.spend),
    (d.dustRegistrations.filter (·.segmentId = segmentId)).map (·.registration)⟩

def Transaction.intent (segmentId : ℕ) : IntentContent :=
  ((get Prod.fst segmentId tx.entries).map fun e => e.2.content).getD ⟨[], [], []⟩

end Content

section Lossless
variable {tx : Transaction}

theorem distinct_offers (tx : Transaction) : Distinct Prod.fst tx.offers := by
  have hmap : Distinct Prod.fst (((tx.fallibleOffer.map SegmentMap.entries).getD []).map
      fun e => ((OfferSection.fallible, some e.1), e.2)) := by
    rcases tx.fallibleOffer with _ | segments
    · exact List.nodup_nil
    · have hkeys := segments.distinct.map (f := fun k => (OfferSection.fallible, some k))
        fun a b h => by cases h; rfl
      unfold Distinct
      rw [List.map_map] at hkeys ⊢
      exact hkeys
  refine List.nodup_cons.mpr ⟨fun hmem => ?_, hmap⟩
  obtain ⟨x, hx, hfst⟩ := List.mem_map.mp hmem
  obtain ⟨e, -, rfl⟩ := List.mem_map.mp hx
  cases hfst

theorem distinct_entries (tx : Transaction) : Distinct Prod.fst tx.entries := by
  unfold Transaction.entries
  rcases tx.intents with _ | segments
  · exact List.nodup_nil
  · exact segments.distinct

theorem decodeStandard_zswapOutputs (tx : Transaction) :
    (decodeStandard tx).zswapOutputs = tx.offers.flatMap outputsOf := by
  rw [decodeStandard, collectOffers_eq]
  rfl

theorem decodeStandard_zswapInputs (tx : Transaction) :
    (decodeStandard tx).zswapInputs = tx.offers.flatMap inputsOf := by
  rw [decodeStandard, collectOffers_eq]
  rfl

theorem decodeStandard_intents (tx : Transaction) :
    (decodeStandard tx).unshieldedOutputs = tx.entries.flatMap unshieldedOf ∧
    (decodeStandard tx).dustSpends = tx.entries.flatMap spendsOf ∧
    (decodeStandard tx).dustRegistrations = tx.entries.flatMap registrationsOf := by
  rw [decodeStandard, collectIntents_eq]
  exact ⟨rfl, rfl, rfl⟩

theorem tag_outputsOf (x : (OfferSection × Option ℕ) × Option ZswapOffer) :
    ∀ o ∈ outputsOf x, (o.offerSection, o.segmentId) = x.1 := by
  intro o ho
  obtain ⟨y, -, rfl⟩ := List.mem_map.mp ho
  rfl

theorem tag_inputsOf (x : (OfferSection × Option ℕ) × Option ZswapOffer) :
    ∀ i ∈ inputsOf x, (i.offerSection, i.segmentId) = x.1 := by
  intro i hi
  obtain ⟨y, -, rfl⟩ := List.mem_map.mp hi
  rfl

theorem tag_unshieldedOf (e : ℕ × Intent) : ∀ o ∈ unshieldedOf e, o.segmentId = e.1 := by
  intro o ho
  obtain ⟨p, -, rfl⟩ := List.mem_map.mp ho
  rfl

theorem tag_spendsOf (e : ℕ × Intent) : ∀ d ∈ spendsOf e, d.segmentId = e.1 := by
  intro d hd
  obtain ⟨y, -, rfl⟩ := List.mem_map.mp hd
  rfl

theorem tag_registrationsOf (e : ℕ × Intent) : ∀ r ∈ registrationsOf e, r.segmentId = e.1 := by
  intro r hr
  obtain ⟨y, -, rfl⟩ := List.mem_map.mp hr
  rfl

/-- The offers can be read off again. -/
theorem zswapOffer_decodeStandard (tx : Transaction) (k : OfferSection × Option ℕ) :
    (decodeStandard tx).zswapOffer k = tx.zswapOffer k := by
  have houtputs := filter_flatMap tag_outputsOf (distinct_offers tx) k
  have hinputs := filter_flatMap tag_inputsOf (distinct_offers tx) k
  rw [DecodedArchivedTransaction.zswapOffer, Transaction.zswapOffer, decodeStandard_zswapOutputs,
    decodeStandard_zswapInputs, houtputs, hinputs]
  rcases get Prod.fst k tx.offers with _ | ⟨k', _ | offer⟩
  · rfl
  · rfl
  · show ZswapOffer.mk ((offer.outputs.map _).map _) ((offer.inputs.map _).map _) = offer
    rw [List.map_map, List.map_map]
    exact congrArg₂ ZswapOffer.mk (List.map_id _) (List.map_id _)

/-- The intents can be read off again. -/
theorem intent_decodeStandard (tx : Transaction) (segmentId : ℕ) :
    (decodeStandard tx).intent segmentId = tx.intent segmentId := by
  obtain ⟨houtputs, hspends, hregistrations⟩ := decodeStandard_intents tx
  have hd := distinct_entries tx
  have houtputs' := filter_flatMap tag_unshieldedOf hd segmentId
  have hspends' := filter_flatMap tag_spendsOf hd segmentId
  have hregistrations' := filter_flatMap tag_registrationsOf hd segmentId
  rw [DecodedArchivedTransaction.intent, Transaction.intent, houtputs, hspends, hregistrations,
    houtputs', hspends', hregistrations']
  rcases get Prod.fst segmentId tx.entries with _ | e
  · rfl
  · show IntentContent.mk ((List.map _ _).map _) ((List.map _ _).map _) ((List.map _ _).map _) =
      e.2.content
    rw [List.map_map, List.map_map, List.map_map]
    have hfst : e.2.content.outputs.zipIdx.map Prod.fst = e.2.content.outputs :=
      List.zipIdx_map_fst 0 _
    exact congr (congrArg₂ IntentContent.mk hfst (List.map_id _)) (List.map_id _)

/-- The outputs of an intent are numbered from 0. -/
theorem index_unshieldedOf (e : ℕ × Intent) :
    (unshieldedOf e).map (·.outputIndex) = List.range e.2.content.outputs.length := by
  rw [unshieldedOf, List.map_map, List.range_eq_range']
  exact List.zipIdx_map_snd 0 _

end Lossless

/-! ### The decoder -/

section Decoder
variable {E : Type} {ledger : Ledger E} {rawBytes : Bytes} {d : DecodedArchivedTransaction}

/-- What is decoded, by its kind. -/
theorem decode_cases (h : decodeArchivedTransaction ledger rawBytes = .ok d) :
    isSystemTransaction rawBytes = true ∧ d.kind = .system ∨
    isSystemTransaction rawBytes = false ∧ d.kind = .standard ∧
      ∃ tx, ledger.transaction rawBytes = .ok tx ∧ d = decodeStandard tx := by
  unfold decodeArchivedTransaction at h
  split_ifs at h with hsys hstd
  · rcases hres : ledger.systemTransaction rawBytes with err | description
    all_goals
      rw [hres] at h
      cases h
    exact Or.inl ⟨hsys, rfl⟩
  · rcases hres : ledger.transaction rawBytes with err | tx
    all_goals
      rw [hres] at h
      cases h
    exact Or.inr ⟨Bool.not_eq_true _ |>.mp hsys, rfl, tx, rfl, rfl⟩

/-- **The decoder loses nothing.** Whatever the offers and intents of a standard transaction are,
those of each section and segment, the outputs of each intent with the guaranteed ones first, and
its dust actions can be read off the result again, in their order. The outputs of an intent have the
indices from 0 on, and the hash of their intent; segment and index identify an output. -/
theorem decode_lossless (h : decodeArchivedTransaction ledger rawBytes = .ok d)
    (hkind : d.kind = .standard) :
    ∃ tx, ledger.transaction rawBytes = .ok tx ∧ d.transactionHash = some tx.transactionHash ∧
      (∀ k, d.zswapOffer k = tx.zswapOffer k) ∧
      (∀ segmentId, d.intent segmentId = tx.intent segmentId) ∧
      (∀ segmentId, (d.unshieldedOutputs.filter (·.segmentId = segmentId)).map (·.outputIndex) =
        List.range (tx.intent segmentId).outputs.length) ∧
      (d.unshieldedOutputs.map fun o => (o.segmentId, o.outputIndex)).Nodup ∧
      ∀ o ∈ d.unshieldedOutputs, ∃ i, (o.segmentId, i) ∈ tx.entries ∧
        o.intentHash = i.intentHash o.segmentId := by
  rcases decode_cases h with ⟨-, hsys⟩ | ⟨-, -, tx, htx, rfl⟩
  · rw [hkind] at hsys
    cases hsys
  have houtputs := (decodeStandard_intents tx).1
  have hd := distinct_entries tx
  refine ⟨tx, htx, rfl, zswapOffer_decodeStandard tx, intent_decodeStandard tx, fun segmentId => ?_,
    ?_, fun o ho => ?_⟩
  · rw [houtputs, filter_flatMap tag_unshieldedOf hd, Transaction.intent]
    rcases get Prod.fst segmentId tx.entries with _ | e
    · rfl
    · exact index_unshieldedOf e
  · rw [houtputs]
    exact nodup_flatMap tag_unshieldedOf
      (fun e => by rw [index_unshieldedOf]; exact List.nodup_range) hd
  · rw [houtputs] at ho
    obtain ⟨e, he, ho⟩ := List.mem_flatMap.mp ho
    obtain ⟨p, -, rfl⟩ := List.mem_map.mp ho
    exact ⟨e.2, he, rfl⟩

end Decoder

def standardRaw : Bytes := encodeAscii (ascii "midnight:transaction[v9](signature[v1])")

/-- A guaranteed and two fallible offers, and two intents of which one has both sections. -/
def manySegments : Transaction where
  transactionHash := [120]
  guaranteedOffer := some ⟨[⟨[1], none⟩, ⟨[2], some [97]⟩], [⟨[3], none⟩]⟩
  fallibleOffer := some ⟨[(7, some ⟨[⟨[4], none⟩], []⟩), (5, none)],
    show [7, 5].Nodup by decide⟩
  intents := some ⟨[(3, ⟨fun k => [UInt16.ofNat k], some [⟨[8], [9], 10⟩],
      some [⟨[8], [9], 11⟩, ⟨[8], [9], 11⟩], none⟩),
    (1, ⟨fun _ => [6], none, some [⟨[8], [9], 12⟩], some ⟨[⟨5, [1], [2]⟩], []⟩⟩)],
    show [3, 1].Nodup by decide⟩

theorem decode_lossless_manySegments :
    ∃ d, decodeArchivedTransaction (⟨fun _ => .error (), fun _ => .ok manySegments⟩ : Ledger Unit)
        standardRaw = .ok d ∧
      d.zswapOffer (.fallible, some 7) = ⟨[⟨[4], none⟩], []⟩ ∧
      (d.unshieldedOutputs.filter (·.segmentId = 3)).map (·.outputIndex) = [0, 1, 2] ∧
      (d.unshieldedOutputs.map fun o => (o.segmentId, o.outputIndex)).Nodup := by
  have hr : ∃ d, decodeArchivedTransaction
      (⟨fun _ => .error (), fun _ => .ok manySegments⟩ : Ledger Unit) standardRaw = .ok d ∧
      d.kind = .standard := ⟨_, rfl, rfl⟩
  obtain ⟨d, h, hkind⟩ := hr
  obtain ⟨tx, htx, -, hoffers, -, hindex, hnodup, -⟩ := decode_lossless h hkind
  cases htx
  exact ⟨d, h, hoffers _, hindex 3, hnodup⟩

/-! ### From the archive -/

/-- `rawBytes` of a transaction that the indexer reports. -/
def rawBytesOf (tx : IndexerTransaction) : Bytes := hexToBuf (hexNoPrefix tx.raw)

theorem whole_run {sha256 : Bytes → Bytes} {chain : Chain} {net : JsString}
    (hd : DistinctHashes chain net) {es : List Ev} {s : SyncState}
    (h : run (step sha256 chain net) es .init = some s) : Whole sha256 chain net s :=
  run_inv (fun _ _ _ hI hst => hI.step hd hst) es _ s .init h

/-- **A replay from the archive is one of the chain.** In every state that any interleaving of
`syncOnce` calls reaches, and whatever `chain_blobs` holds: what `getBlob` returns for a transaction
that is read by its hash are the bytes that the indexer reported for this hash, if SHA-256 does not
collide on them; and the decoder takes them for a system transaction if and only if the archive
does. -/
theorem replay_matches_chain (sha256 : Bytes → Bytes) {chain : Chain} {net : JsString}
    (hd : DistinctHashes chain net) {es : List Ev} {s : SyncState}
    (h : run (step sha256 chain net) es .init = some s) {txs : List (TxKey × TxRow)}
    (hl : Lists s.transactions.committed txs) {txHash : JsString} {l : List TransactionMeta}
    (hread : getTransactionsByHash txs net txHash = .ok l) {m : TransactionMeta} (hm : m ∈ l)
    {blobs : Bundle.Tables} {data : Bytes}
    (hblob : Bundle.getBlob sha256 blobs m.rawBlobHash = some data)
    (hcollide : ∀ j, ∀ tx ∈ (chain.indexer j).transactions,
      sha256 (rawBytesOf tx) = sha256 data → rawBytesOf tx = data) :
    ∃ j, ∃ tx ∈ (chain.indexer j).transactions,
      hexToBuf (hexNoPrefix tx.hash) = hexToBuf txHash ∧ data = rawBytesOf tx ∧
      (m.kind = .system ↔ isSystemTransaction data = true) ∧
      ∀ {E : Type} (ledger : Ledger E) (d : DecodedArchivedTransaction),
        decodeArchivedTransaction ledger data = .ok d → (d.kind = .system ↔ m.kind = .system) := by
  have hs := whole_run hd h
  have hhex : isHex32 txHash = true := by
    unfold getTransactionsByHash assertHex32 at hread
    split_ifs at hread with hx
    · exact hx
    · cases hread
  obtain ⟨l', hl', -, -, hmem⟩ := getTransactionsByHash_mirror hs hl hhex
  rw [hread] at hl'
  cases hl'
  obtain ⟨j, -, hrep, hhash⟩ := (hmem m).mp hm
  obtain ⟨⟨tx, position⟩, htx, rfl⟩ := List.mem_map.mp hrep
  have htx' : tx ∈ (chain.indexer j).transactions :=
    (List.mem_zipIdx_iff_getElem?.mp htx) |> List.mem_of_getElem?
  have hdata : sha256 data = sha256 (rawBytesOf tx) := by
    unfold Bundle.getBlob at hblob
    split_ifs at hblob
    obtain ⟨x, -, hx⟩ := Option.bind_eq_some_iff.mp hblob
    split_ifs at hx with heq
    cases hx
    exact heq
  obtain rfl := hcollide j tx htx' hdata.symm
  have hkind : txKind (rawBytesOf tx) = .system ↔ isSystemTransaction (rawBytesOf tx) = true :=
    (isSystemTransaction_iff _).symm
  refine ⟨j, tx, htx', hhash, rfl, hkind, fun ledger d hdec => ?_⟩
  refine Iff.trans ?_ hkind.symm
  rcases decode_cases hdec with ⟨hsys, hk⟩ | ⟨hsys, hk, -⟩
  · exact iff_of_true hk hsys
  · rw [hk, hsys]
    exact iff_of_false (fun he => by cases he) Bool.false_ne_true

/-- The one transaction of a block of `quietChain`, and a blob table that has its byte. -/
theorem replay_matches_chain_overlappingSyncs : ∃ s txs l,
    run (step sha256OfByte quietChain [109]) overlappingSyncs .init = some s ∧
    Lists s.transactions.committed txs ∧
    getTransactionsByHash txs [109] (hexNoPrefix (digitHash 1)) = .ok l ∧
    ∃ m ∈ l, Bundle.getBlob sha256OfByte ⟨[⟨sha256OfByte [1], [1]⟩], [], [], [], []⟩ m.rawBlobHash =
        some [1] ∧ (m.kind = .system ↔ isSystemTransaction [1] = true) := by
  have hr : (run (step sha256OfByte quietChain [109]) overlappingSyncs .init).map
      (fun s => s.watermark) = some (some 1) := by
    decide +kernel
  have hd : DistinctHashes quietChain [109] := distinctHashes_smallChain _ _
  obtain ⟨s, hs, hw⟩ := Option.map_eq_some_iff.mp hr
  have hwhole := whole_run hd hs
  obtain ⟨txs, hl⟩ := exists_lists (hwhole.finiteTxs.subset fun k hk =>
    Or.inl (Option.isSome_iff_ne_none.mp hk))
  have hhex : isHex32 (hexNoPrefix (digitHash 1)) = true := by decide
  obtain ⟨l, hread, -, -, hmem⟩ := getTransactionsByHash_mirror hwhole hl hhex
  have hm : reportedTransaction sha256OfByte quietChain [109] 1
      ⟨digitHash 1, 1, ascii "01"⟩ 0 ∈ l :=
    (hmem _).mpr ⟨1, hwhole.inv.watermark 1 hw 1 le_rfl, List.mem_cons_self, by decide⟩
  have hblob : Bundle.getBlob sha256OfByte ⟨[⟨sha256OfByte [1], [1]⟩], [], [], [], []⟩
      (reportedTransaction sha256OfByte quietChain [109] 1 ⟨digitHash 1, 1, ascii "01"⟩
        0).rawBlobHash = some [1] := by
    decide
  obtain ⟨-, -, -, -, -, hkind, -⟩ :=
    replay_matches_chain sha256OfByte hd hs hl hread hm hblob fun j tx htx _ => by
      obtain rfl := List.mem_singleton.mp htx
      rfl
  exact ⟨s, txs, l, hs, hl, hread, _, hm, hblob, hkind⟩

end UmbraDB.Archive.Replay
