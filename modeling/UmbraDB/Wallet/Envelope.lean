import UmbraDB.Js.Json
import UmbraDB.Js.Utf8

/-! # Wallet-state envelope: `encode` and `decode`

The codec of `src/interfaces/wallet-state-envelope.ts`. One schema checks what is encoded and what
was decoded; both object levels are strict. The version is looked at before the schema, so that an
envelope of another version is told from a corrupt one.

A value that passed the schema has its checks in its type, so that `decode` cannot return an
envelope that `encode` rejects. The texts of the schema library are left out of the messages.

* `decode_encode` : an encoded envelope is decoded to an equal one.
* `encode_toJson` : what the type holds is accepted.
* `decode_error`, `decode_versionUnsupported` : which errors `decode` has, and when. -/

namespace UmbraDB.Wallet.Envelope

open UmbraDB.Js.Text UmbraDB.Js.Number UmbraDB.Js.Json UmbraDB.Js.Utf8 UmbraDB.Lib.Trees

/-! ### The schema -/

/-- `ENVELOPE_VERSION`. -/
def supportedVersion : ℕ := 1

/-- `z.number().int().positive()`; integers are safe ones. -/
abbrev EnvelopeVersion := { n : ℕ // 0 < n ∧ n ≤ maxSafeInteger }

/-- `walletId` and `networkId`. -/
def idOk (s : JsString) : Bool := decide (1 ≤ s.length) && !hasPostgresUnsafeText s

abbrev EnvelopeId := { s : JsString // idOk s = true }

/-- `SubWalletSlotSchema`; `none` is `null`. -/
def slotOk (s : Option JsString) : Bool := s.all fun s => !hasPostgresUnsafeText s

abbrev SubWalletSlot := { s : Option JsString // slotOk s = true }

structure SubWallets where
  shielded : SubWalletSlot
  unshielded : SubWalletSlot
  dust : SubWalletSlot
  deriving DecidableEq

/-- What `WalletStateEnvelopeShapeSchema` parses to. -/
structure EnvelopeShape where
  envelopeVersion : EnvelopeVersion
  walletId : EnvelopeId
  networkId : EnvelopeId
  subWallets : SubWallets
  deriving DecidableEq

def parseVersion : Option JsonValue → Option EnvelopeVersion
  | some (.leaf (.number n)) =>
    n.safeNat.bind fun i => if h : 0 < i ∧ i ≤ maxSafeInteger then some ⟨i, h⟩ else none
  | _ => none

def parseId : Option JsonValue → Option EnvelopeId
  | some (.leaf (.string s)) => if h : idOk s = true then some ⟨s, h⟩ else none
  | _ => none

def parseSlot : Option JsonValue → Option SubWalletSlot
  | some (.leaf (.string s)) => if h : slotOk (some s) = true then some ⟨some s, h⟩ else none
  | some (.leaf .null) => some ⟨none, rfl⟩
  | _ => none

def subWalletKeys : List JsString := [ascii "shielded", ascii "unshielded", ascii "dust"]

def parseSubWallets : Option JsonValue → Option SubWallets
  | some (.object fields) =>
    if fields.keys.all subWalletKeys.contains then do
      let shielded ← parseSlot (fields.get (ascii "shielded"))
      let unshielded ← parseSlot (fields.get (ascii "unshielded"))
      let dust ← parseSlot (fields.get (ascii "dust"))
      return ⟨shielded, unshielded, dust⟩
    else none
  | _ => none

def envelopeKeys : List JsString :=
  [ascii "envelopeVersion", ascii "walletId", ascii "networkId", ascii "subWallets"]

/-- `WalletStateEnvelopeShapeSchema.safeParse`. -/
def shapeSchema : JsonValue → Option EnvelopeShape
  | .object fields =>
    if fields.keys.all envelopeKeys.contains then do
      let version ← parseVersion (fields.get (ascii "envelopeVersion"))
      let walletId ← parseId (fields.get (ascii "walletId"))
      let networkId ← parseId (fields.get (ascii "networkId"))
      let subWallets ← parseSubWallets (fields.get (ascii "subWallets"))
      return ⟨version, walletId, networkId, subWallets⟩
    else none
  | _ => none

def slotJson (s : SubWalletSlot) : JsonValue :=
  match s.val with
  | some text => .leaf (.string text)
  | none => .leaf .null

def SubWallets.fields (w : SubWallets) : Fields JsString JsonLeaf :=
  .cons (ascii "shielded") (slotJson w.shielded)
    (.cons (ascii "unshielded") (slotJson w.unshielded)
      (.cons (ascii "dust") (slotJson w.dust) .nil))

/-- The object that the schema parses to. -/
def EnvelopeShape.fields (d : EnvelopeShape) : Fields JsString JsonLeaf :=
  .cons (ascii "envelopeVersion") (.leaf (.number (.finite d.envelopeVersion.val)))
    (.cons (ascii "walletId") (.leaf (.string d.walletId.val))
      (.cons (ascii "networkId") (.leaf (.string d.networkId.val))
        (.cons (ascii "subWallets") (.object d.subWallets.fields) .nil)))

def EnvelopeShape.toJson (d : EnvelopeShape) : JsonValue := .object d.fields

/-! ### The codec -/

/-- `WalletStateEnvelope`; the type of its version has one value. -/
structure WalletStateEnvelope where
  walletId : EnvelopeId
  networkId : EnvelopeId
  subWallets : SubWallets
  deriving DecidableEq

def WalletStateEnvelope.toShape (e : WalletStateEnvelope) : EnvelopeShape :=
  ⟨⟨supportedVersion, by decide⟩, e.walletId, e.networkId, e.subWallets⟩

def WalletStateEnvelope.toJson (e : WalletStateEnvelope) : JsonValue := e.toShape.toJson

inductive EnvelopeError
  /-- `ValidationError`. -/
  | validation (context : String)
  /-- `EnvelopeVersionUnsupportedError`. -/
  | versionUnsupported (foundVersion : ℕ)
  /-- `EnvelopeCorruptError`. -/
  | corrupt (message : JsString)
  deriving DecidableEq

/-- The argument is any value of the host language that JSON can hold. -/
def encode (envelope : JsonValue) : Except EnvelopeError (List UInt8) :=
  match shapeSchema envelope with
  | none => .error (.validation "WalletStateEnvelope.encode")
  | some data =>
    if data.envelopeVersion.val ≠ supportedVersion then
      .error (.validation
        "WalletStateEnvelope.encode: envelopeVersion does not match this build's ENVELOPE_VERSION")
    else .ok (textEncode (stringify data.toJson))

/-- The positive integer that the member `envelopeVersion` is. -/
def positiveInteger : Option JsonValue → Option ℕ
  | some (.leaf (.number n)) => n.integer.bind fun i => if 0 < i then some i.toNat else none
  | _ => none

/-- `JSON.stringify(versionRaw)` in a template. -/
def foundText : Option JsonValue → JsString
  | some v => stringify v
  | none => ascii "undefined"

def decodeObject (fields : Fields JsString JsonLeaf) : Except EnvelopeError WalletStateEnvelope :=
  let versionRaw := fields.get (ascii "envelopeVersion")
  match positiveInteger versionRaw with
  | none =>
    .error (.corrupt (ascii
      "WalletStateEnvelope.decode: envelopeVersion is missing or not a positive integer (found "
      ++ foundText versionRaw ++ ascii ")"))
  | some n =>
    if n ≠ supportedVersion then .error (.versionUnsupported n)
    else
      match shapeSchema (.object fields) with
      | none => .error (.corrupt (ascii
          "WalletStateEnvelope.decode: payload does not satisfy the envelope schema: "))
      | some data => .ok ⟨data.walletId, data.networkId, data.subWallets⟩

def decode (bytes : List UInt8) : Except EnvelopeError WalletStateEnvelope :=
  match textDecode bytes with
  | none => .error (.corrupt (ascii "WalletStateEnvelope.decode: payload is not valid UTF-8"))
  | some text =>
    match parse text with
    | none => .error (.corrupt (ascii "WalletStateEnvelope.decode: payload is not valid JSON"))
    | some (.object fields) => decodeObject fields
    | some _ =>
      .error (.corrupt (ascii "WalletStateEnvelope.decode: payload is not a JSON object"))

/-! ### The schema and the object it parses to -/

theorem safeNat_finite {n : ℕ} (h : n ≤ maxSafeInteger) :
    (JsNumber.finite n).safeNat = some n := by
  simp [JsNumber.safeNat, JsNumber.integer, h]

theorem safeNat_pos {x : JsNumber} {n : ℕ} (h : x.safeNat = some n) (hn : 0 < n) :
    x = .finite n := by
  unfold JsNumber.safeNat JsNumber.integer at h
  rcases x with q | _ | _
  · simp only at h
    split_ifs at h with hden
    · simp only [Option.bind_some] at h
      split_ifs at h with hle
      cases h
      have hq : ((q.num.toNat : ℕ) : ℚ) = q := by
        have hnum : ((q.num.toNat : ℕ) : ℤ) = q.num := Int.toNat_of_nonneg hle.1
        rw [← Int.cast_natCast, hnum]
        exact Rat.coe_int_num_of_den_eq_one hden
      rw [hq]
    · cases h
  · simp only [Option.bind_some] at h
    split_ifs at h
    cases h
    exact absurd hn (by decide)
  · cases h

theorem parseVersion_eq {v : Option JsonValue} {n : EnvelopeVersion} :
    parseVersion v = some n ↔ v = some (.leaf (.number (.finite n.val))) := by
  constructor
  · intro h
    unfold parseVersion at h
    split at h
    · next x =>
      obtain ⟨i, hi, h⟩ := Option.bind_eq_some_iff.mp h
      split_ifs at h with hpos
      cases h
      rw [safeNat_pos hi hpos.1]
    · cases h
  · rintro rfl
    rw [parseVersion, safeNat_finite n.2.2, Option.bind_some, dif_pos n.2]

theorem parseId_eq {v : Option JsonValue} {s : EnvelopeId} :
    parseId v = some s ↔ v = some (.leaf (.string s.val)) := by
  constructor
  · intro h
    unfold parseId at h
    split at h
    · split_ifs at h
      cases h
      rfl
    · cases h
  · rintro rfl
    rw [parseId, dif_pos s.2]

theorem parseSlot_eq {v : Option JsonValue} {s : SubWalletSlot} :
    parseSlot v = some s ↔ v = some (slotJson s) := by
  constructor
  · intro h
    unfold parseSlot at h
    split at h
    · split_ifs at h
      cases h
      rfl
    · cases h
      rfl
    · cases h
  · rintro rfl
    obtain ⟨s, hs⟩ := s
    rcases s with _ | s
    · rfl
    · exact dif_pos hs

/-- The members of an object that the inner schema accepts. -/
structure HasSubWallets (fields : Fields JsString JsonLeaf) (w : SubWallets) : Prop where
  keys : ∀ k ∈ fields.keys, k ∈ subWalletKeys
  shielded : fields.get (ascii "shielded") = some (slotJson w.shielded)
  unshielded : fields.get (ascii "unshielded") = some (slotJson w.unshielded)
  dust : fields.get (ascii "dust") = some (slotJson w.dust)

/-- `.strict()`: there are no other keys. -/
theorem strict_iff {keys allowed : List JsString} :
    keys.all allowed.contains = true ↔ ∀ k ∈ keys, k ∈ allowed := by
  rw [List.all_eq_true]
  exact forall₂_congr fun _ _ => List.contains_iff_mem

theorem parseSubWallets_eq {v : Option JsonValue} {w : SubWallets} :
    parseSubWallets v = some w ↔ ∃ fields, v = some (.object fields) ∧ HasSubWallets fields w := by
  constructor
  · intro h
    unfold parseSubWallets at h
    split at h
    · next fields =>
      split_ifs at h with hkeys
      obtain ⟨shielded, h₁, h⟩ := Option.bind_eq_some_iff.mp h
      obtain ⟨unshielded, h₂, h⟩ := Option.bind_eq_some_iff.mp h
      obtain ⟨dust, h₃, h⟩ := Option.bind_eq_some_iff.mp h
      cases h
      exact ⟨fields, rfl, strict_iff.mp hkeys, parseSlot_eq.mp h₁, parseSlot_eq.mp h₂,
        parseSlot_eq.mp h₃⟩
    · cases h
  · rintro ⟨fields, rfl, h⟩
    rw [parseSubWallets, if_pos (strict_iff.mpr h.keys), parseSlot_eq.mpr h.shielded,
      parseSlot_eq.mpr h.unshielded, parseSlot_eq.mpr h.dust]
    rfl

theorem hasSubWallets_fields (w : SubWallets) : HasSubWallets w.fields w :=
  ⟨fun _ hk => hk, rfl, rfl, rfl⟩

theorem HasSubWallets.denote {fields : Fields JsString JsonLeaf} {w : SubWallets}
    (h : HasSubWallets fields w) : fields.denote = w.fields.denote := by
  have h' := hasSubWallets_fields w
  refine Fields.denote_congr h.keys h'.keys fun k hk => ?_
  simp only [subWalletKeys, List.mem_cons, List.not_mem_nil, or_false] at hk
  rcases hk with rfl | rfl | rfl
  · rw [h.shielded, h'.shielded]
  · rw [h.unshielded, h'.unshielded]
  · rw [h.dust, h'.dust]

/-- The members of an object that the schema accepts. -/
structure HasShape (fields : Fields JsString JsonLeaf) (d : EnvelopeShape) : Prop where
  keys : ∀ k ∈ fields.keys, k ∈ envelopeKeys
  version : fields.get (ascii "envelopeVersion") =
    some (.leaf (.number (.finite d.envelopeVersion.val)))
  walletId : fields.get (ascii "walletId") = some (.leaf (.string d.walletId.val))
  networkId : fields.get (ascii "networkId") = some (.leaf (.string d.networkId.val))
  subWallets : ∃ inner, fields.get (ascii "subWallets") = some (.object inner) ∧
    HasSubWallets inner d.subWallets

/-- **What the schema accepts.** -/
theorem shapeSchema_eq {v : JsonValue} {d : EnvelopeShape} :
    shapeSchema v = some d ↔ ∃ fields, v = .object fields ∧ HasShape fields d := by
  constructor
  · intro h
    unfold shapeSchema at h
    split at h
    · next fields =>
      split_ifs at h with hkeys
      obtain ⟨version, h₁, h⟩ := Option.bind_eq_some_iff.mp h
      obtain ⟨walletId, h₂, h⟩ := Option.bind_eq_some_iff.mp h
      obtain ⟨networkId, h₃, h⟩ := Option.bind_eq_some_iff.mp h
      obtain ⟨subWallets, h₄, h⟩ := Option.bind_eq_some_iff.mp h
      cases h
      exact ⟨fields, rfl, strict_iff.mp hkeys, parseVersion_eq.mp h₁, parseId_eq.mp h₂,
        parseId_eq.mp h₃, parseSubWallets_eq.mp h₄⟩
    · cases h
  · rintro ⟨fields, rfl, h⟩
    rw [shapeSchema, if_pos (strict_iff.mpr h.keys), parseVersion_eq.mpr h.version,
      parseId_eq.mpr h.walletId, parseId_eq.mpr h.networkId, parseSubWallets_eq.mpr h.subWallets]
    rfl

theorem hasShape_fields (d : EnvelopeShape) : HasShape d.fields d :=
  ⟨fun _ hk => hk, rfl, rfl, rfl, d.subWallets.fields, rfl, hasSubWallets_fields d.subWallets⟩

/-- What the schema accepts is what it parses to, up to the order of the members. -/
theorem HasShape.denote {fields : Fields JsString JsonLeaf} {d : EnvelopeShape}
    (h : HasShape fields d) : fields.denote = d.fields.denote := by
  have h' := hasShape_fields d
  obtain ⟨inner, hget, hinner⟩ := h.subWallets
  have hget' : d.fields.get (ascii "subWallets") = some (.object d.subWallets.fields) := rfl
  refine Fields.denote_congr h.keys h'.keys fun k hk => ?_
  simp only [envelopeKeys, List.mem_cons, List.not_mem_nil, or_false] at hk
  rcases hk with rfl | rfl | rfl | rfl
  · rw [h.version, h'.version]
  · rw [h.walletId, h'.walletId]
  · rw [h.networkId, h'.networkId]
  · rw [hget, hget', Option.map_some, Option.map_some, Tree.denote, Tree.denote, hinner.denote]

/-! ### Encoding and decoding -/

theorem encode_ok {v : JsonValue} {bytes : List UInt8} (h : encode v = .ok bytes) :
    ∃ e : WalletStateEnvelope, shapeSchema v = some e.toShape ∧
      bytes = textEncode (stringify e.toJson) := by
  unfold encode at h
  split at h
  · cases h
  · next data hdata =>
    split_ifs at h with hv
    cases h
    have he : data = WalletStateEnvelope.toShape ⟨data.walletId, data.networkId,
        data.subWallets⟩ := by
      obtain ⟨⟨n, hn⟩, walletId, networkId, subWallets⟩ := data
      have hn' : n = supportedVersion := by simpa using hv
      subst hn'
      rfl
    exact ⟨_, by rw [← he]; exact hdata, by rw [WalletStateEnvelope.toJson, ← he]⟩

/-- **An envelope of the type is accepted.** -/
theorem encode_toJson (e : WalletStateEnvelope) :
    encode e.toJson = .ok (textEncode (stringify e.toJson)) := by
  have h : shapeSchema e.toJson = some e.toShape :=
    shapeSchema_eq.mpr ⟨_, rfl, hasShape_fields e.toShape⟩
  rw [encode, h]
  rfl

theorem toJson_distinct (e : WalletStateEnvelope) : e.toJson.distinct = true := by
  have hslot : ∀ s, (slotJson s).distinct = true := by
    rintro ⟨_ | s, _⟩ <;> rfl
  have hinner : e.subWallets.fields.distinct = true := by
    simp only [SubWallets.fields, Fields.distinct, hslot, Fields.keys, Bool.and_true]
    decide
  simp only [WalletStateEnvelope.toJson, EnvelopeShape.toJson, EnvelopeShape.fields,
    WalletStateEnvelope.toShape, Tree.distinct, Fields.distinct, hinner, Fields.keys, Bool.and_true]
  decide

theorem toJson_readsBack (e : WalletStateEnvelope) :
    e.toJson.all leafReadsBack (fun _ => true) = true := by
  have hslot : ∀ s, (slotJson s).all leafReadsBack (fun _ => true) = true := by
    rintro ⟨_ | s, _⟩
    · show leafReadsBack .null = true
      decide +kernel
    · rfl
  have hversion : leafReadsBack (.number (.finite supportedVersion)) = true := by decide +kernel
  simp only [WalletStateEnvelope.toJson, EnvelopeShape.toJson, EnvelopeShape.fields,
    WalletStateEnvelope.toShape, SubWallets.fields, Tree.all, Fields.all, hslot, hversion]
  rfl

/-- The text of an envelope is parsed to the envelope. -/
theorem parse_toJson (e : WalletStateEnvelope) : parse (stringify e.toJson) = some e.toJson :=
  parse_stringify (toJson_distinct e) (toJson_readsBack e)

theorem textDecode_toJson (e : WalletStateEnvelope) :
    textDecode (textEncode (stringify e.toJson)) = some (stringify e.toJson) := by
  refine textDecode_textEncode (stringify_wellFormed _) ?_
  rw [WalletStateEnvelope.toJson, EnvelopeShape.toJson, EnvelopeShape.fields, stringify,
    List.head?_cons]
  exact fun h => absurd (Option.some.inj h) (by decide)

/-- **What `decode` makes of an encoded envelope.** -/
theorem decode_toJson (e : WalletStateEnvelope) :
    decode (textEncode (stringify e.toJson)) = .ok e := by
  have hshape := hasShape_fields e.toShape
  have hschema : shapeSchema (.object e.toShape.fields) = some e.toShape :=
    shapeSchema_eq.mpr ⟨_, rfl, hshape⟩
  have hone : positiveInteger (some (.leaf (.number (.finite supportedVersion)))) =
      some supportedVersion := by decide +kernel
  have hversion : positiveInteger (e.toShape.fields.get (ascii "envelopeVersion")) =
      some supportedVersion := by
    rw [hshape.version]
    exact hone
  rw [decode, textDecode_toJson]
  simp only [parse_toJson]
  rw [WalletStateEnvelope.toJson, EnvelopeShape.toJson]
  simp only [decodeObject, hversion, hschema]
  rfl

/-- **Decoding inverts encoding**, up to the order of the members. -/
theorem decode_encode {v : JsonValue} {bytes : List UInt8} (h : encode v = .ok bytes) :
    ∃ e, decode bytes = .ok e ∧ e.toJson.denote = v.denote := by
  obtain ⟨e, hschema, rfl⟩ := encode_ok h
  obtain ⟨fields, rfl, hshape⟩ := shapeSchema_eq.mp hschema
  refine ⟨e, decode_toJson e, ?_⟩
  rw [WalletStateEnvelope.toJson, EnvelopeShape.toJson, Tree.denote, Tree.denote, hshape.denote]

/-- The bytes are a JSON object whose version is a positive integer that is not supported. -/
def OtherVersion (bytes : List UInt8) : Prop :=
  ∃ text fields n, textDecode bytes = some text ∧ parse text = some (.object fields) ∧
    positiveInteger (fields.get (ascii "envelopeVersion")) = some n ∧ n ≠ supportedVersion

/-- The errors of `decode`. -/
theorem decode_error {bytes : List UInt8} {err : EnvelopeError} (h : decode bytes = .error err) :
    (∃ message, err = .corrupt message) ∨ ∃ n, err = .versionUnsupported n := by
  unfold decode decodeObject at h
  simp only at h
  split at h
  · cases h; exact Or.inl ⟨_, rfl⟩
  · split at h
    · cases h; exact Or.inl ⟨_, rfl⟩
    · split at h
      · cases h; exact Or.inl ⟨_, rfl⟩
      · split_ifs at h
        · cases h; exact Or.inr ⟨_, rfl⟩
        · split at h
          · cases h; exact Or.inl ⟨_, rfl⟩
          · cases h
    · cases h; exact Or.inl ⟨_, rfl⟩

/-- **When the version is reported.** -/
theorem decode_versionUnsupported {bytes : List UInt8} :
    (∃ n, decode bytes = .error (.versionUnsupported n)) ↔ OtherVersion bytes := by
  constructor
  · rintro ⟨n, h⟩
    unfold decode decodeObject at h
    simp only at h
    split at h
    · cases h
    · next text htext =>
      split at h
      · cases h
      · next fields hfields =>
        split at h
        · cases h
        · next n' hn' =>
          split_ifs at h with hne
          · exact ⟨text, fields, n', htext, hfields, hn', hne⟩
          · split at h <;> cases h
      · cases h
  · rintro ⟨text, fields, n, htext, hfields, hn, hne⟩
    refine ⟨n, ?_⟩
    rw [decode, htext]
    simp only [hfields, decodeObject, hn]
    exact if_pos hne

end UmbraDB.Wallet.Envelope
