import UmbraDB.Js.NumberText
import UmbraDB.Ths.Refine

/-! # Transaction history: the codec on JSON values

`Storage` has the stored entry as a record, since there only `writeRows` writes the column. Here
the column holds any JSON value: `storedJson` is the one that `encodeStoredEntry` makes of an entry,
`decodeRow` reads any row, and `serialize` writes the entries of all rows as one text.

An entry is a value of the host language, so the keys of its objects are distinct and its numbers
are doubles (`HostEntry`).

* `codec_roundtrip` : an entry comes back from its row, and from the text of `serialize`, if and
  only if it has no negative zero.
* `stored_canonical` : what a row decodes to encodes to what the row has, if and only if no bigint
  of the row is written `-0`, which `CANONICAL_BIGINT_RE` lets through. -/

namespace UmbraDB.Ths.Codec

open UmbraDB.Js.Text UmbraDB.Js.Numerals UmbraDB.Js.Number UmbraDB.Js.Date UmbraDB.Lib.Trees
open UmbraDB.Js.Json UmbraDB.Js.NumberText UmbraDB.Ths.Entry UmbraDB.Ths.Content
open UmbraDB.Ths.Refine
open UmbraDB.Ths.Storage (Server StoredEntryJson encodeStoredEntry parseFees SameEntry view EntryView)

/-! ### The stored JSON -/

/-- A field that is there or not. -/
def optionalField (k : JsString) : Option JsonValue → Fields JsString JsonLeaf
  | none => .nil
  | some v => .cons k v .nil

def arrayOf : List JsonValue → Items JsString JsonLeaf
  | [] => .nil
  | v :: vs => .cons v (arrayOf vs)

def statusText : HistoryStatus → JsString
  | .success => ascii "success"
  | .partialSuccess => ascii "partialSuccess"
  | .failure => ascii "failure"

def lifecycleText : LifecycleStatus → JsString
  | .pending => ascii "pending"
  | .finalized => ascii "finalized"
  | .rejected => ascii "rejected"

/-- The fields of `StoredEntryJson` that are always there, and those that may be missing. -/
def storedFields (x : StoredEntryJson) : Fields JsString JsonLeaf :=
  .cons (ascii "hash") (.leaf (.string x.hash))
    (.cons (ascii "identifiers") (.array (arrayOf (x.identifiers.map fun id => .leaf (.string id))))
      ((optionalField (ascii "protocolVersion")
        (x.protocolVersion.map fun n => .leaf (.number n))).append
      ((optionalField (ascii "status") (x.status.map fun s => .leaf (.string (statusText s)))).append
      ((optionalField (ascii "timestamp") (x.timestamp.map fun s => .leaf (.string s))).append
      ((optionalField (ascii "fees") (x.fees.map fun f =>
        match f with
        | none => .leaf .null
        | some s => .leaf (.string s))).append
      (.cons (ascii "lifecycle")
        (.object (.cons (ascii "status") (.leaf (.string (lifecycleText x.lifecycle))) .nil))
        (.cons (ascii "sections") (.object x.sections) .nil)))))))

/-- `encodeStoredEntry`, as a JSON value. -/
def storedJson (e : TransactionHistoryEntry) : JsonValue :=
  .object (storedFields (encodeStoredEntry e))

/-- What `JSON.stringify`, a `jsonb` column and `JSON.parse` make of a value. -/
def jsonbOf (keyOrder : JsString → JsString → Bool) (v : JsonValue) : JsonValue :=
  (v.bind fun l => .leaf (jsonLeaf l)).sortKeys keyOrder

/-! ### Reading a row -/

/-- `TxHistoryRow`, with whatever the column `entry` holds. -/
structure TxHistoryRow where
  txHash : JsString
  entry : JsonValue
  identifiers : List JsString
  lifecycle : JsString

/-- The subclasses of `StorageError` that a row leads to. -/
inductive StorageError
  | serialization
  | validation
  deriving DecidableEq

/-- What is thrown for a row: a `StorageError`, or a raw error. -/
inductive Thrown
  | storage (e : StorageError)
  | raw
  deriving DecidableEq

/-- `stored.timestamp`, parsed if it is there; `none` is a `SerializationFailedError`. -/
def timestampOf : Option JsonValue → Option (Option JsDate)
  | none => some none
  | some (.leaf (.string raw)) => (parseStoredDate raw).map fun t => some (some t)
  | some _ => none

/-- `stored.fees`, likewise. -/
def feesOf : Option JsonValue → Option (Option (Option ℤ))
  | none => some none
  | some (.leaf .null) => some (some none)
  | some (.leaf (.string raw)) => (parseStoredBigint raw).map fun i => some (some i)
  | some _ => none

/-- `stored.protocolVersion`; `none` if the schema rejects its type. -/
def protocolVersionOf : Option JsonValue → Option (Option JsNumber)
  | none => some none
  | some (.leaf (.number n)) => some (some n)
  | some _ => none

/-- `TransactionHistoryStatusSchema`. -/
def statusOf : Option JsonValue → Option (Option HistoryStatus)
  | none => some none
  | some (.leaf (.string s)) =>
    ([.success, .partialSuccess, .failure].find? fun st => statusText st == s).map some
  | some _ => none

/-- `EntryLifecycleSchema`; further fields are stripped. -/
def lifecycleOf : Option JsonValue → Option LifecycleStatus
  | some (.object fields) =>
    match fields.get (ascii "status") with
    | some (.leaf (.string s)) =>
      [.pending, .finalized, .rejected].find? fun st => lifecycleText st == s
    | _ => none
  | _ => none

/-- `decodeRow`. `fault` is a failure of the engine in the middle, such as a stack overflow on a
value that is nested too deep. -/
def decodeRow (fault : Bool) (row : TxHistoryRow) : Except Thrown TransactionHistoryEntry :=
  match row.entry with
  | .object stored =>
    match stored.get (ascii "sections") with
    | some (.object sections) =>
      if fault then .error .raw
      else
        match timestampOf (stored.get (ascii "timestamp")), feesOf (stored.get (ascii "fees")),
          decodeSections sections with
        | some timestamp, some fees, some sections =>
          match protocolVersionOf (stored.get (ascii "protocolVersion")),
            statusOf (stored.get (ascii "status")), lifecycleOf (stored.get (ascii "lifecycle")) with
          | some protocolVersion, some status, some lifecycle =>
            let candidate : TransactionHistoryEntry := ⟨row.txHash, row.identifiers, lifecycle,
              ⟨protocolVersion, status, timestamp, fees, sections⟩⟩
            if entryOk candidate then .ok candidate else .error (.storage .validation)
          | _, _, _ => .error (.storage .validation)
        | _, _, _ => .error (.storage .serialization)
    -- `assertStoredEntryShape`
    | _ => .error (.storage .serialization)
  | _ => .error (.storage .serialization)

/-- `rowToEntry`: a raw error is wrapped. -/
def rowToEntry (fault : Bool) (row : TxHistoryRow) : Except Thrown TransactionHistoryEntry :=
  match decodeRow fault row with
  | .ok e => .ok e
  | .error (.storage e) => .error (.storage e)
  | .error .raw => .error (.storage .serialization)

/-! ### What is decoded was written so -/

mutual

/-- No tagged bigint is written `-0`. -/
def noMinusZero : JsonValue → Bool
  | .leaf _ => true
  | .array items => itemsNoMinusZero items
  | .object fields =>
    isTagObject bigintTag fields != some minusZero && fieldsNoMinusZero fields

def itemsNoMinusZero : Items JsString JsonLeaf → Bool
  | .nil => true
  | .cons t rest => noMinusZero t && itemsNoMinusZero rest

def fieldsNoMinusZero : Fields JsString JsonLeaf → Bool
  | .nil => true
  | .cons _ t rest => noMinusZero t && fieldsNoMinusZero rest

end

theorem isTagObject_some {tag raw : JsString} {fields : Fields JsString JsonLeaf}
    (h : isTagObject tag fields = some raw) :
    fields = .cons tag (.leaf (.string raw)) .nil := by
  unfold isTagObject at h
  split at h
  · split_ifs at h with hk
    cases h
    rw [hk]
  · cases h

/-- The three ways in which an object is decoded. -/
theorem decodeContent_object {fields : Fields JsString JsonLeaf} {c : EntryContent}
    (h : decodeContent (.object fields) = some c) :
    (∃ raw i, fields = .cons bigintTag (.leaf (.string raw)) .nil ∧
      parseStoredBigint raw = some i ∧ c = .leaf (.bigint i)) ∨
    (∃ raw t, fields = .cons dateTag (.leaf (.string raw)) .nil ∧
      parseStoredDate raw = some t ∧ c = .leaf (.date (some t))) ∨
    (isTagObject bigintTag fields = none ∧
      ∃ sections, decodeSections fields = some sections ∧ c = .object sections) := by
  rw [decodeContent] at h
  rcases hb : isTagObject bigintTag fields with _ | raw
  · rcases hd : isTagObject dateTag fields with _ | raw
    · rw [hb, hd] at h
      obtain ⟨sections, hs, rfl⟩ := Option.map_eq_some_iff.mp h
      exact .inr (.inr ⟨rfl, sections, hs, rfl⟩)
    · rw [hb, hd] at h
      obtain ⟨t, ht, rfl⟩ := Option.map_eq_some_iff.mp h
      exact .inr (.inl ⟨raw, t, isTagObject_some hd, ht, rfl⟩)
  · rw [hb] at h
    obtain ⟨i, hi, rfl⟩ := Option.map_eq_some_iff.mp h
    exact .inl ⟨raw, i, isTagObject_some hb, hi, rfl⟩

theorem toISOString_parseStoredDate {raw : JsString} {t : TimeValue}
    (h : parseStoredDate raw = some t) : toISOString t = raw := by
  unfold parseStoredDate at h
  split_ifs at h with hr heq
  cases h
  exact heq

theorem decodeContent_leaf {l : JsonLeaf} {c : EntryContent}
    (h : decodeContent (.leaf l) = some c) : encodeContent c = .leaf l := by
  cases l with
  | string s => cases h; rfl
  | number n => cases h; rfl
  | boolean b => cases h; rfl
  | null => cases h; rfl

mutual

/-- What is decoded is the encoding of the result, if no bigint is written `-0`. -/
theorem encodeContent_decodeContent : ∀ (v : JsonValue) {c : EntryContent},
    decodeContent v = some c → noMinusZero v = true → encodeContent c = v
  | .leaf l, _, h, _ => decodeContent_leaf h
  | .array items, c, h, hz => by
    rw [decodeContent] at h
    obtain ⟨items', hi, rfl⟩ := Option.map_eq_some_iff.mp h
    rw [encodeContent, Tree.bind, encode_decodeItems items hi hz]
  | .object fields, c, h, hz => by
    rw [noMinusZero, Bool.and_eq_true, bne_iff_ne] at hz
    obtain ⟨raw, i, rfl, hi, rfl⟩ | ⟨raw, t, rfl, ht, rfl⟩ | ⟨-, sections, hs, rfl⟩ :=
      decodeContent_object h
    · have hraw : raw ≠ minusZero := by
        rintro rfl
        exact hz.1 (by rw [isTagObject, if_pos rfl])
      rw [encodeContent, Tree.bind, encodeLeaf, tagged, bigintText_parseStoredBigint hi hraw]
    · rw [encodeContent, Tree.bind, encodeLeaf, tagged, toISOString_parseStoredDate ht]
    · have hsec := encodeSections_decodeSections fields hs hz.2
      rw [encodeSections] at hsec
      rw [encodeContent, Tree.bind, hsec]

theorem encode_decodeItems : ∀ (items : Items JsString JsonLeaf) {items' : Items JsString Leaf},
    decodeItems items = some items' → itemsNoMinusZero items = true →
      items'.bind encodeLeaf = items
  | .nil, _, h, _ => by cases h; rfl
  | .cons t rest, _, h, hz => by
    rw [itemsNoMinusZero, Bool.and_eq_true] at hz
    rw [decodeItems] at h
    obtain ⟨t', ht, h⟩ := Option.bind_eq_some_iff.mp h
    obtain ⟨rest', hr, rfl⟩ := Option.map_eq_some_iff.mp h
    have hhead := encodeContent_decodeContent t ht hz.1
    rw [encodeContent] at hhead
    rw [Items.bind, hhead, encode_decodeItems rest hr hz.2]

theorem encodeSections_decodeSections : ∀ (fields : Fields JsString JsonLeaf) {sections : Sections},
    decodeSections fields = some sections → fieldsNoMinusZero fields = true →
      encodeSections sections = fields
  | .nil, _, h, _ => by cases h; rfl
  | .cons k t rest, _, h, hz => by
    rw [fieldsNoMinusZero, Bool.and_eq_true] at hz
    rw [decodeSections] at h
    obtain ⟨t', ht, h⟩ := Option.bind_eq_some_iff.mp h
    obtain ⟨rest', hr, rfl⟩ := Option.map_eq_some_iff.mp h
    have hhead := encodeContent_decodeContent t ht hz.1
    have hrest := encodeSections_decodeSections rest hr hz.2
    rw [encodeContent] at hhead
    rw [encodeSections] at hrest
    rw [encodeSections, Fields.bind, hhead, hrest]

end

theorem keys_decodeSections : ∀ {fields : Fields JsString JsonLeaf} {sections : Sections},
    decodeSections fields = some sections → sections.keys = fields.keys
  | .nil, _, h => by cases h; rfl
  | .cons k t rest, _, h => by
    rw [decodeSections] at h
    obtain ⟨t', -, h⟩ := Option.bind_eq_some_iff.mp h
    obtain ⟨rest', hr, rfl⟩ := Option.map_eq_some_iff.mp h
    rw [Fields.keys, Fields.keys, keys_decodeSections hr]

mutual

/-- A bigint that is written `-0` is encoded as something else. -/
theorem noMinusZero_of_denote : ∀ (v : JsonValue) {c : EntryContent}, decodeContent v = some c →
    v.distinct = true → (encodeContent c).denote = v.denote → noMinusZero v = true
  | .leaf _, _, _, _, _ => rfl
  | .array items, c, h, hd, heq => by
    rw [decodeContent] at h
    obtain ⟨items', hi, rfl⟩ := Option.map_eq_some_iff.mp h
    rw [encodeContent, Tree.bind, Tree.denote, Tree.denote, Value.array.injEq] at heq
    exact itemsNoMinusZero_of_denote items hi hd heq
  | .object fields, c, h, hd, heq => by
    obtain ⟨raw, i, rfl, hi, rfl⟩ | ⟨raw, t, rfl, ht, rfl⟩ | ⟨htag, sections, hs, rfl⟩ :=
      decodeContent_object h
    · rw [encodeContent, Tree.bind, encodeLeaf, tagged, Tree.denote, Tree.denote,
        Value.object.injEq] at heq
      have hraw := congrFun heq bigintTag
      rw [Fields.denote, if_pos rfl, Fields.denote, if_pos rfl] at hraw
      have hne : raw ≠ minusZero := by
        rintro rfl
        simp only [Tree.denote, Option.some.injEq, Value.leaf.injEq, JsonLeaf.string.injEq] at hraw
        exact bigintText_ne_minusZero i hraw
      simp [noMinusZero, fieldsNoMinusZero, isTagObject, hne]
    · have hne : dateTag ≠ bigintTag := by decide
      simp [noMinusZero, fieldsNoMinusZero, isTagObject, hne]
    · rw [encodeContent, Tree.bind, Tree.denote, Tree.denote, Value.object.injEq] at heq
      rw [noMinusZero, htag, fieldsNoMinusZero_of_denote fields hs hd heq]
      rfl

theorem itemsNoMinusZero_of_denote : ∀ (items : Items JsString JsonLeaf)
    {items' : Items JsString Leaf}, decodeItems items = some items' → items.distinct = true →
      (items'.bind encodeLeaf).denote = items.denote → itemsNoMinusZero items = true
  | .nil, _, _, _, _ => rfl
  | .cons t rest, _, h, hd, heq => by
    rw [Items.distinct, Bool.and_eq_true] at hd
    rw [decodeItems] at h
    obtain ⟨t', ht, h⟩ := Option.bind_eq_some_iff.mp h
    obtain ⟨rest', hr, rfl⟩ := Option.map_eq_some_iff.mp h
    rw [Items.bind, Items.denote, Items.denote, List.cons.injEq] at heq
    rw [itemsNoMinusZero, noMinusZero_of_denote t ht hd.1 heq.1,
      itemsNoMinusZero_of_denote rest hr hd.2 heq.2]
    rfl

theorem fieldsNoMinusZero_of_denote : ∀ (fields : Fields JsString JsonLeaf) {sections : Sections},
    decodeSections fields = some sections → fields.distinct = true →
      (sections.bind encodeLeaf).denote = fields.denote → fieldsNoMinusZero fields = true
  | .nil, _, _, _, _ => rfl
  | .cons k t rest, _, h, hd, heq => by
    obtain ⟨hk, hdt, hdr⟩ := Fields.distinct_cons.mp hd
    rw [decodeSections] at h
    obtain ⟨t', ht, h⟩ := Option.bind_eq_some_iff.mp h
    obtain ⟨rest', hr, rfl⟩ := Option.map_eq_some_iff.mp h
    rw [Fields.bind] at heq
    obtain ⟨h1, h2⟩ := Fields.denote_cons_inj
      (by rwa [Fields.keys_bind, keys_decodeSections hr]) hk heq
    rw [fieldsNoMinusZero, noMinusZero_of_denote t ht hdt h1,
      fieldsNoMinusZero_of_denote rest hr hdr h2]
    rfl

end

/-! ### The fields of the stored JSON -/

theorem get_optionalField (k k' : JsString) (v : Option JsonValue) :
    (optionalField k v).get k' = if k' = k then v else none := by
  rcases v with _ | v
  · rw [optionalField, Fields.get, ite_self]
  · rfl

/-- What `decodeRow` reads of the stored JSON. -/
theorem storedFields_get (x : StoredEntryJson) :
    (storedFields x).get (ascii "hash") = some (.leaf (.string x.hash)) ∧
    (storedFields x).get (ascii "identifiers") =
      some (.array (arrayOf (x.identifiers.map fun id => .leaf (.string id)))) ∧
    (storedFields x).get (ascii "protocolVersion") =
      x.protocolVersion.map (fun n => .leaf (.number n)) ∧
    (storedFields x).get (ascii "status") =
      x.status.map (fun s => .leaf (.string (statusText s))) ∧
    (storedFields x).get (ascii "timestamp") = x.timestamp.map (fun s => .leaf (.string s)) ∧
    (storedFields x).get (ascii "fees") = x.fees.map (fun f =>
      match f with
      | none => .leaf .null
      | some s => .leaf (.string s)) ∧
    (storedFields x).get (ascii "lifecycle") =
      some (.object (.cons (ascii "status") (.leaf (.string (lifecycleText x.lifecycle))) .nil)) ∧
    (storedFields x).get (ascii "sections") = some (.object x.sections) := by
  refine ⟨?_, ?_, ?_, ?_, ?_, ?_, ?_, ?_⟩ <;>
    simp +decide [storedFields, Fields.get, Fields.get_append, get_optionalField]

/-! ### The canonical form -/

/-- A field of a JSON object, up to the order of keys. -/
def part : JsonValue → JsString → Option (Value JsString JsonLeaf)
  | .object fields, k => fields.denote k
  | _, _ => none

/-- The same sections, timestamp and fees, up to the order of keys. -/
def SameParts (a b : JsonValue) : Prop :=
  ∀ k ∈ [ascii "sections", ascii "timestamp", ascii "fees"], part a k = part b k

/-- The row is rejected with a `StorageError`, or what it decodes to encodes to what it has. -/
def Canonical (fault : Bool) (row : TxHistoryRow) : Prop :=
  (∃ err, rowToEntry fault row = .error (.storage err)) ∨
    ∃ e, rowToEntry fault row = .ok e ∧ SameParts (storedJson e) row.entry

def feesNoMinusZero : Option JsonValue → Bool
  | some (.leaf (.string raw)) => raw != minusZero
  | _ => true

/-- Neither the fees nor a tagged bigint of the sections is written `-0`. -/
def entryNoMinusZero : JsonValue → Bool
  | .object stored =>
    feesNoMinusZero (stored.get (ascii "fees")) &&
      match stored.get (ascii "sections") with
      | some (.object sections) => fieldsNoMinusZero sections
      | _ => true
  | _ => true

variable {fault : Bool} {row : TxHistoryRow} {e : TransactionHistoryEntry}

/-- What a row that is read holds. -/
theorem rowToEntry_ok (h : rowToEntry fault row = .ok e) :
    ∃ stored sections, row.entry = .object stored ∧
      stored.get (ascii "sections") = some (.object sections) ∧
      timestampOf (stored.get (ascii "timestamp")) = some e.content.timestamp ∧
      feesOf (stored.get (ascii "fees")) = some e.content.fees ∧
      decodeSections sections = some e.content.sections := by
  have hrow : decodeRow fault row = .ok e := by
    unfold rowToEntry at h
    split at h
    · next hd => rw [hd]; exact h
    · cases h
    · cases h
  unfold decodeRow at hrow
  split at hrow
  · next stored hentry =>
    split at hrow
    · next sections hsec =>
      split_ifs at hrow
      split at hrow
      · next timestamp fees sections' ht hf hs =>
        split at hrow
        · dsimp only at hrow
          split_ifs at hrow
          cases hrow
          exact ⟨stored, sections, hentry, hsec, ht, hf, hs⟩
        · cases hrow
      · cases hrow
    · cases hrow
  · cases hrow

/-- Nothing but a `StorageError` is thrown. -/
theorem rowToEntry_error {err : Thrown} (h : rowToEntry fault row = .error err) :
    ∃ e, err = .storage e := by
  unfold rowToEntry at h
  split at h
  · cases h
  · cases h
    exact ⟨_, rfl⟩
  · cases h
    exact ⟨_, rfl⟩

theorem timestampOf_denote {v : Option JsonValue} {d : Option JsDate}
    (h : timestampOf v = some d) :
    (d.bind fun d => d.map toISOString).map (fun s => (.leaf (.string s) : JsonValue)) = v := by
  unfold timestampOf at h
  split at h
  · cases h
    rfl
  · obtain ⟨t, ht, rfl⟩ := Option.map_eq_some_iff.mp h
    simp only [Option.bind_some, Option.map_some, toISOString_parseStoredDate ht]
  · cases h

/-- The JSON of fees. -/
def feesJson (fees : Option (Option ℤ)) : Option JsonValue :=
  (fees.map fun i => i.map bigintText).map fun f =>
    match f with
    | none => .leaf .null
    | some s => .leaf (.string s)

theorem feesOf_denote {v : Option JsonValue} {fees : Option (Option ℤ)}
    (h : feesOf v = some fees) :
    (feesJson fees).map Tree.denote = v.map Tree.denote ↔ feesNoMinusZero v = true := by
  unfold feesOf at h
  split at h
  · cases h
    simp [feesJson, feesNoMinusZero]
  · cases h
    simp [feesJson, feesNoMinusZero]
  · next raw =>
    obtain ⟨i, hi, rfl⟩ := Option.map_eq_some_iff.mp h
    simp only [feesJson, Option.map_some, feesNoMinusZero, bne_iff_ne, Tree.denote,
      Option.some.injEq, Value.leaf.injEq, JsonLeaf.string.injEq]
    constructor
    · rintro rfl
      exact bigintText_ne_minusZero i
    · exact bigintText_parseStoredBigint hi
  · cases h

/-- The parts of what a row decodes to are those of the row, if and only if nothing is written
`-0`. -/
theorem sameParts_iff (h : rowToEntry fault row = .ok e) (hd : row.entry.distinct = true) :
    SameParts (storedJson e) row.entry ↔ entryNoMinusZero row.entry = true := by
  obtain ⟨stored, sections, hentry, hsec, ht, hf, hs⟩ := rowToEntry_ok h
  obtain ⟨-, -, -, -, hgt, hgf, -, hgs⟩ := storedFields_get (encodeStoredEntry e)
  have htime : part (storedJson e) (ascii "timestamp") = part (.object stored) (ascii "timestamp") := by
    rw [storedJson, part, part, Fields.denote_eq_get, Fields.denote_eq_get, hgt]
    exact congrArg (Option.map Tree.denote) (timestampOf_denote ht)
  have hfees : part (storedJson e) (ascii "fees") = part (.object stored) (ascii "fees") ↔
      feesNoMinusZero (stored.get (ascii "fees")) = true := by
    rw [storedJson, part, part, Fields.denote_eq_get, Fields.denote_eq_get, hgf]
    exact feesOf_denote hf
  have hsections : part (storedJson e) (ascii "sections") = part (.object stored) (ascii "sections") ↔
      fieldsNoMinusZero sections = true := by
    rw [storedJson, part, part, Fields.denote_eq_get, Fields.denote_eq_get, hgs, hsec]
    have hdsec : sections.distinct = true := by
      rw [hentry] at hd
      exact Fields.distinct_get hd hsec
    simp only [Option.map_some, Tree.denote, Option.some.injEq, Value.object.injEq]
    constructor
    · exact fieldsNoMinusZero_of_denote sections hs hdsec
    · intro hz
      exact congrArg Fields.denote (encodeSections_decodeSections sections hs hz)
  rw [hentry, entryNoMinusZero, hsec, Bool.and_eq_true, ← hfees, ← hsections]
  simp only [SameParts, List.forall_mem_cons, List.not_mem_nil, false_implies, implies_true,
    and_true]
  constructor
  · rintro ⟨h1, -, h3⟩
    exact ⟨h3, h1⟩
  · rintro ⟨h3, h1⟩
    exact ⟨h1, htime, h3⟩

/-- The same entry has the same stored parts. -/
theorem sameParts_of_sameEntry {e e' : TransactionHistoryEntry} (h : SameEntry e e') :
    SameParts (storedJson e) (storedJson e') := by
  obtain ⟨-, -, -, -, hgt, hgf, -, hgs⟩ := storedFields_get (encodeStoredEntry e)
  obtain ⟨-, -, -, -, hgt', hgf', -, hgs'⟩ := storedFields_get (encodeStoredEntry e')
  have hcontent : ∀ {A : Type} (f : EntryView → A), f (view e).content = f (view e').content :=
    fun f => congrArg (fun v : HistoryEntry EntryView => f v.content) h
  have ht : e.content.timestamp = e'.content.timestamp := hcontent (·.timestamp)
  have hf : e.content.fees = e'.content.fees := hcontent (·.fees)
  have hs : e.content.sections.denote = e'.content.sections.denote := hcontent (·.sections)
  have hsec : (Tree.object (encodeSections e.content.sections)).denote =
      (Tree.object (encodeSections e'.content.sections)).denote :=
    Tree.denote_bind_congr (.object e.content.sections) (.object e'.content.sections)
      (congrArg Value.object hs)
  have htime : (encodeStoredEntry e).timestamp = (encodeStoredEntry e').timestamp := by
    rw [encodeStoredEntry, encodeStoredEntry, ht]
  have hfees : (encodeStoredEntry e).fees = (encodeStoredEntry e').fees := by
    rw [encodeStoredEntry, encodeStoredEntry, hf]
  intro k hk
  rw [storedJson, storedJson, part, part, Fields.denote_eq_get, Fields.denote_eq_get]
  simp only [List.mem_cons, List.not_mem_nil, or_false] at hk
  rcases hk with rfl | rfl | rfl
  · rw [hgs, hgs']
    exact congrArg some hsec
  · rw [hgt, hgt', htime]
  · rw [hgf, hgf', hfees]

/-- A row whose section `a` holds a bigint, with the given text. -/
def bigintRow (text : JsString) : TxHistoryRow where
  txHash := ascii "h"
  entry := .object (.cons (ascii "fees") (.leaf (.string (ascii "7")))
    (.cons (ascii "lifecycle")
      (.object (.cons (ascii "status") (.leaf (.string (ascii "pending"))) .nil))
      (.cons (ascii "sections") (.object (.cons (ascii "a") (tagged bigintTag text) .nil)) .nil)))
  identifiers := []
  lifecycle := ascii "pending"

/-- The entry of the row with a zero. -/
def zeroEntry : TransactionHistoryEntry :=
  ⟨ascii "h", [], .pending, ⟨none, none, none, some (some 7),
    .cons (ascii "a") (.leaf (.bigint 0)) .nil⟩⟩

theorem rowToEntry_bigintRow : rowToEntry false (bigintRow (ascii "0")) = .ok zeroEntry ∧
    rowToEntry false (bigintRow minusZero) = .ok zeroEntry := ⟨rfl, rfl⟩

def doubleNumber : JsNumber → Bool
  | .finite q => isDouble q
  | _ => true

def doubleLeaf : Leaf → Bool
  | .number n => doubleNumber n
  | _ => true

/-- An entry that the schema accepts, as a value of the host language: the keys of an object are
distinct, and its numbers are doubles. -/
structure AcceptedEntry where
  entry : TransactionHistoryEntry
  ok : entryOk entry = true
  distinct : entry.content.sections.distinct = true
  versionDouble : entry.content.protocolVersion.all doubleNumber = true
  doubles : entry.content.sections.all doubleLeaf (fun _ => true) = true

/-- The row that is written for the entry. -/
def rowOf (server : Server) (e : TransactionHistoryEntry) : TxHistoryRow where
  txHash := e.hash
  entry := jsonbOf server.keyOrder (storedJson e)
  identifiers := e.identifiers
  lifecycle := lifecycleText e.lifecycle

/-- `serialize`, from the rows that `getAll` reads. -/
def serialize (rows : List TxHistoryRow) : Except Thrown JsString := do
  let all ← rows.mapM (rowToEntry false)
  .ok (stringify (.array (arrayOf (all.map storedJson))))

def elementsOf : Items JsString JsonLeaf → List JsonValue
  | .nil => []
  | .cons v rest => v :: elementsOf rest

/-- An array of strings. -/
def identifiersOf : Option JsonValue → Option (List JsString)
  | some (.array items) => (elementsOf items).mapM fun v =>
    match v with
    | .leaf (.string s) => some s
    | _ => none
  | _ => none

/-- An element of the text of `serialize`, read as the row with the columns that it implies. -/
def decodeElement : JsonValue → Except Thrown TransactionHistoryEntry
  | .object fields =>
    match fields.get (ascii "hash"), identifiersOf (fields.get (ascii "identifiers")) with
    | some (.leaf (.string hash)), some identifiers =>
      rowToEntry false ⟨hash, .object fields, identifiers, []⟩
    | _, _ => .error (.storage .serialization)
  | _ => .error (.storage .serialization)

/-- The rows of the entries are read as the same entries, and so are the elements of the text of
`serialize`. -/
def RoundTrips (server : Server) (es : List AcceptedEntry) : Prop :=
  (∃ es', (es.map fun e => rowOf server e.entry).mapM (rowToEntry false) = .ok es' ∧
    List.Forall₂ SameEntry es' (es.map (·.entry))) ∧
  ∃ text items es', serialize (es.map fun e => rowOf server e.entry) = .ok text ∧
    parse text = some (.array items) ∧ (elementsOf items).mapM decodeElement = .ok es' ∧
    List.Forall₂ SameEntry es' (es.map (·.entry))

/-! ### Negative zeros -/

def zeroLeaf : Leaf → Leaf
  | .number n => .number (jsonNumber n)
  | l => l

/-- The entry with zeros in place of its negative zeros. -/
def zeroed (e : TransactionHistoryEntry) : TransactionHistoryEntry :=
  { e with content := { e.content with
    protocolVersion := e.content.protocolVersion.map jsonNumber
    sections := e.content.sections.bind fun l => .leaf (zeroLeaf l) } }

theorem leafOk_zeroLeaf (l : Leaf) : leafOk (zeroLeaf l) = leafOk l := by
  cases l with
  | number n => cases n <;> rfl
  | _ => rfl

theorem protocolVersionOk_jsonNumber {n : JsNumber} (h : protocolVersionOk n = true) :
    protocolVersionOk (jsonNumber n) = true := by
  cases n with
  | finite q => exact h
  | negZero => decide +kernel
  | nonFinite => exact h

theorem zeroed_ok {e : TransactionHistoryEntry} (h : entryOk e = true) :
    entryOk (zeroed e) = true := by
  simp only [entryOk, Bool.and_eq_true] at h ⊢
  obtain ⟨⟨⟨⟨hhash, hids⟩, hversion⟩, htime⟩, hsec⟩ := h
  refine ⟨⟨⟨⟨hhash, hids⟩, ?_⟩, htime⟩, ?_⟩
  · rw [show (zeroed e).content.protocolVersion = e.content.protocolVersion.map jsonNumber from rfl]
    rcases hv : e.content.protocolVersion with _ | n
    · rfl
    · rw [hv] at hversion
      exact protocolVersionOk_jsonNumber hversion
  · rw [sectionsOk, Bool.and_eq_true] at hsec ⊢
    constructor
    · rw [← hsec.1]
      exact congrArg (!·) (Tree.exceeds_bind_leaf 0 (.object e.content.sections))
    · rw [← hsec.2]
      refine (Fields.all_bind_leaf _).trans ?_
      simp only [leafOk_zeroLeaf]

theorem zeroed_plain (e : TransactionHistoryEntry) : Plain (zeroed e) := by
  have hnumber : ∀ n, jsonNumber n ≠ .negZero := by
    intro n
    cases n <;> exact fun h => by cases h
  constructor
  · intro h
    obtain ⟨n, -, hn⟩ := Option.map_eq_some_iff.mp h
    exact hnumber n hn
  · refine (Fields.all_bind_leaf _).trans ?_
    have hleaf : ∀ l, (zeroLeaf l != Leaf.number .negZero) = true := by
      intro l
      rw [bne_iff_ne]
      cases l with
      | number n => exact fun h => hnumber n (Leaf.number.inj h)
      | _ => exact fun h => by cases h
    simp only [hleaf]
    exact Fields.all_true _

/-- The zeros are seen. -/
theorem sameEntry_zeroed {e : TransactionHistoryEntry} (hd : e.content.sections.distinct = true) :
    SameEntry (zeroed e) e ↔ Plain e := by
  have hnumber : ∀ n, jsonNumber n = n ↔ n ≠ .negZero := by
    intro n
    cases n <;> simp [jsonNumber]
  constructor
  · intro h
    have hv : e.content.protocolVersion.map jsonNumber = e.content.protocolVersion :=
      congrArg (fun v : HistoryEntry EntryView => v.content.protocolVersion) h
    have hs : (e.content.sections.bind fun l => .leaf (zeroLeaf l)).denote =
        e.content.sections.denote :=
      congrArg (fun v : HistoryEntry EntryView => v.content.sections) h
    constructor
    · intro hneg
      rw [hneg, Option.map_some] at hv
      exact absurd (Option.some.inj hv) (by decide)
    · have hall := Fields.denote_bind_leaf _ hd hs
      refine Fields.all_mono (fun l hl => ?_) (fun _ _ => rfl) _ hall
      rw [beq_iff_eq] at hl
      rw [bne_iff_ne]
      rintro rfl
      exact absurd hl (by decide)
  · rintro ⟨hv, hs⟩
    have hversion := jsonNumber_plain hv
    have hsec : (e.content.sections.bind fun l => .leaf (zeroLeaf l)) = e.content.sections := by
      refine (Fields.bind_congr (fun l hl => ?_) _ hs).trans (Fields.bind_leaf _)
      rw [bne_iff_ne] at hl
      cases l with
      | number n => rw [zeroLeaf, (hnumber n).mpr fun h => hl (congrArg Leaf.number h)]
      | _ => rfl
    rw [SameEntry, view, view, zeroed]
    simp only [hversion, hsec]

/-! ### The row of an entry -/

theorem elementsOf_arrayOf : ∀ (vs : List JsonValue), elementsOf (arrayOf vs) = vs
  | [] => rfl
  | v :: vs => by rw [arrayOf, elementsOf, elementsOf_arrayOf vs]

theorem arrayOf_distinct : ∀ {vs : List JsonValue}, (∀ v ∈ vs, v.distinct = true) →
    (arrayOf vs).distinct = true
  | [], _ => rfl
  | v :: vs, h => by
    rw [arrayOf, Items.distinct, h v List.mem_cons_self,
      arrayOf_distinct fun v hv => h v (List.mem_cons_of_mem _ hv)]
    rfl

theorem arrayOf_all {p : JsonLeaf → Bool} {q : JsString → Bool} : ∀ {vs : List JsonValue},
    (∀ v ∈ vs, v.all p q = true) → (arrayOf vs).all p q = true
  | [], _ => rfl
  | v :: vs, h => by
    rw [arrayOf, Items.all, h v List.mem_cons_self,
      arrayOf_all fun v hv => h v (List.mem_cons_of_mem _ hv)]
    rfl

theorem encodeLeaf_distinct (l : Leaf) : (encodeLeaf l).distinct = true := by
  cases l with
  | date d => rcases d with _ | t <;> rfl
  | _ => rfl

theorem encodeSections_distinct {sections : Fields JsString Leaf} (hd : sections.distinct = true) :
    (encodeSections sections).distinct = true :=
  Fields.distinct_bind encodeLeaf_distinct sections hd

/-- The keys are distinct, at every depth, and those of the object itself are from `ks`. -/
def KeysFrom (ks : List JsString) (fields : Fields JsString JsonLeaf) : Prop :=
  fields.distinct = true ∧ fields.keys.Sublist ks

theorem keysFrom_cons {k : JsString} {v : JsonValue} {rest : Fields JsString JsonLeaf}
    {ks : List JsString} (hv : v.distinct = true) (h : KeysFrom ks rest) (hk : k ∉ ks) :
    KeysFrom (k :: ks) (.cons k v rest) := by
  obtain ⟨hd, hsub⟩ := h
  have hnew : k ∉ rest.keys := fun hmem => hk (hsub.subset hmem)
  refine ⟨?_, hsub.cons_cons k⟩
  simp [Fields.distinct, hnew, hv, hd]

theorem keysFrom_optionalField {k : JsString} {v : Option JsonValue}
    {rest : Fields JsString JsonLeaf} {ks : List JsString} (hv : ∀ x ∈ v, x.distinct = true)
    (h : KeysFrom ks rest) (hk : k ∉ ks) :
    KeysFrom (k :: ks) ((optionalField k v).append rest) := by
  rcases v with _ | v
  · exact ⟨h.1, h.2.cons k⟩
  · exact keysFrom_cons (hv v rfl) h hk

theorem distinct_of_leaf {A : Type} {f : A → JsonLeaf} {x : Option A} :
    ∀ v ∈ x.map fun a => (.leaf (f a) : JsonValue), v.distinct = true := by
  intro v hv
  obtain ⟨a, -, rfl⟩ := Option.mem_map.mp hv
  rfl

theorem storedFields_distinct {x : StoredEntryJson} (hd : x.sections.distinct = true) :
    (storedFields x).distinct = true := by
  have hids : (arrayOf (x.identifiers.map fun id => .leaf (.string id))).distinct = true := by
    refine arrayOf_distinct fun v hv => ?_
    obtain ⟨id, -, rfl⟩ := List.mem_map.mp hv
    rfl
  have hfees : ∀ v ∈ x.fees.map (fun f => match f with
      | none => (.leaf .null : JsonValue)
      | some s => .leaf (.string s)), v.distinct = true := by
    intro v hv
    obtain ⟨f, -, rfl⟩ := Option.mem_map.mp hv
    rcases f with _ | s <;> rfl
  -- the fields from the last to the first
  have hsections : KeysFrom [ascii "sections"]
      (.cons (ascii "sections") (.object x.sections) .nil) :=
    keysFrom_cons hd ⟨rfl, .slnil⟩ List.not_mem_nil
  have hlifecycle := keysFrom_cons (k := ascii "lifecycle") (v := .object (.cons (ascii "status")
    (.leaf (.string (lifecycleText x.lifecycle))) .nil)) rfl hsections (by decide)
  have hfee := keysFrom_optionalField (k := ascii "fees") hfees hlifecycle (by decide)
  have htimestamp := keysFrom_optionalField (k := ascii "timestamp")
    (@distinct_of_leaf _ .string x.timestamp) hfee (by decide)
  have hstatus := keysFrom_optionalField (k := ascii "status")
    (@distinct_of_leaf _ (fun s => .string (statusText s)) x.status) htimestamp (by decide)
  have hversion := keysFrom_optionalField (k := ascii "protocolVersion")
    (@distinct_of_leaf _ .number x.protocolVersion) hstatus (by decide)
  have hidentifiers := keysFrom_cons (k := ascii "identifiers") (v := .array _) hids hversion
    (by decide)
  exact (keysFrom_cons (k := ascii "hash") (v := .leaf _) rfl hidentifiers (by decide)).1

/-- A key of the stored JSON, as it is read of the column. -/
theorem get_jsonbOf (keyOrder : JsString → JsString → Bool) {fields : Fields JsString JsonLeaf}
    (hd : fields.distinct = true) (k : JsString) :
    ((fields.bind fun l => .leaf (jsonLeaf l)).sortKeys keyOrder).get k =
      (fields.get k).map (jsonbOf keyOrder) := by
  have hb : (fields.bind fun l => .leaf (jsonLeaf l)).distinct = true :=
    Fields.distinct_bind (fun _ => rfl) fields hd
  rw [Fields.get_sortKeys k hb, Fields.get_bind, Option.map_map]
  rfl

theorem statusOf_text (s : Option HistoryStatus) :
    statusOf (s.map fun s => .leaf (.string (statusText s))) = some s := by
  rcases s with _ | s
  · rfl
  · cases s <;> rfl

theorem lifecycleOf_text (l : LifecycleStatus) :
    lifecycleOf (some (.object (.cons (ascii "status") (.leaf (.string (lifecycleText l))) .nil))) =
      some l := by
  cases l <;> rfl

theorem timestampOf_text {d : Option JsDate} (h : d.all Option.isSome = true) :
    timestampOf ((d.bind fun d => d.map toISOString).map fun s => .leaf (.string s)) = some d := by
  rcases d with _ | _ | t
  · rfl
  · cases h
  · simp only [Option.bind_some, Option.map_some, timestampOf, parseStoredDate_toISOString]

theorem feesOf_text (f : Option (Option ℤ)) : feesOf (feesJson f) = some f := by
  rcases f with _ | _ | i
  · rfl
  · rfl
  · simp only [feesJson, Option.map_some, feesOf, parseStoredBigint_bigintText]

theorem protocolVersionOf_number (v : Option JsNumber) :
    protocolVersionOf (v.map fun n => .leaf (.number n)) = some v := by
  rcases v with _ | n <;> rfl

/-- A row is read as the entry whose parts its fields hold. -/
theorem rowToEntry_of_parts {row : TxHistoryRow} {stored sections : Fields JsString JsonLeaf}
    {e : TransactionHistoryEntry} (hentry : row.entry = .object stored)
    (hsec : stored.get (ascii "sections") = some (.object sections))
    (ht : timestampOf (stored.get (ascii "timestamp")) = some e.content.timestamp)
    (hf : feesOf (stored.get (ascii "fees")) = some e.content.fees)
    (hs : decodeSections sections = some e.content.sections)
    (hv : protocolVersionOf (stored.get (ascii "protocolVersion")) = some e.content.protocolVersion)
    (hst : statusOf (stored.get (ascii "status")) = some e.content.status)
    (hl : lifecycleOf (stored.get (ascii "lifecycle")) = some e.lifecycle)
    (hhash : row.txHash = e.hash) (hids : row.identifiers = e.identifiers)
    (hok : entryOk e = true) : rowToEntry false row = .ok e := by
  have hrow : decodeRow false row = .ok e := by
    unfold decodeRow
    rw [hentry]
    simp only [hsec, ht, hf, hs, hv, hst, hl, hhash, hids, Bool.false_eq_true, if_false]
    exact if_pos hok
  rw [rowToEntry, hrow]

/-- The row of an entry is read as the entry without negative zeros, with its keys sorted. -/
theorem rowToEntry_rowOf (server : Server) {e : TransactionHistoryEntry} (hok : entryOk e = true)
    (hd : e.content.sections.distinct = true) :
    rowToEntry false (rowOf server e) = .ok (sorted server (zeroed e)) := by
  obtain ⟨-, -, hgv, hgst, hgt, hgf, hgl, hgs⟩ := storedFields_get (encodeStoredEntry e)
  have hdistinct : (storedFields (encodeStoredEntry e)).distinct = true :=
    storedFields_distinct (encodeSections_distinct hd)
  have hget := get_jsonbOf server.keyOrder hdistinct
  have hzero := zeroed_ok hok
  have hparts := hzero
  simp only [entryOk, sectionsOk, Bool.and_eq_true] at hparts
  have hsections : (((storedFields (encodeStoredEntry e)).bind fun l =>
      .leaf (jsonLeaf l)).sortKeys server.keyOrder).get (ascii "sections") =
      some (.object (throughJsonb server.keyOrder (encodeSections e.content.sections))) := by
    rw [hget, hgs]
    rfl
  refine rowToEntry_of_parts rfl hsections ?_ ?_ ?_ ?_ ?_ ?_ rfl rfl ((sorted_ok _).trans hzero)
  · have htext := timestampOf_text (d := e.content.timestamp) hparts.1.2
    rw [hget, hgt]
    refine Eq.trans (congrArg timestampOf ?_) htext
    rw [Option.map_map]
    rfl
  · rw [hget, hgf]
    refine Eq.trans (congrArg feesOf ?_) (feesOf_text e.content.fees)
    have hfees : (encodeStoredEntry e).fees = e.content.fees.map fun i => i.map bigintText := rfl
    rw [hfees]
    rcases e.content.fees with _ | _ | i <;> rfl
  · have hsame : throughJsonb server.keyOrder (encodeSections e.content.sections) =
        throughJsonb server.keyOrder (encodeSections (zeroed e).content.sections) := by
      have hleaf : ∀ l : Leaf, (encodeLeaf l).bind (fun l => .leaf (jsonLeaf l)) =
          (encodeLeaf (zeroLeaf l)).bind fun l => .leaf (jsonLeaf l) := by
        intro l
        cases l with
        | number n => cases n <;> rfl
        | _ => rfl
      have hsec : (zeroed e).content.sections =
          e.content.sections.bind fun l => .leaf (zeroLeaf l) := rfl
      rw [throughJsonb, throughJsonb, encodeSections, encodeSections, hsec, Fields.bind_bind,
        Fields.bind_bind, Fields.bind_bind]
      exact congrArg (fun f => (e.content.sections.bind f).sortKeys server.keyOrder) (funext hleaf)
    rw [hsame]
    exact decodeSections_throughJsonb server.keyOrder hparts.2.2 (zeroed_plain e).2
  · rw [hget, hgv]
    refine Eq.trans (congrArg protocolVersionOf ?_) (protocolVersionOf_number _)
    rw [Option.map_map]
    rcases hv : e.content.protocolVersion with _ | n
    · simp [encodeStoredEntry, sorted, zeroed, hv]
    · rw [encodeStoredEntry, sorted, zeroed, hv]
      cases n with
      | nonFinite =>
        simp only [entryOk, Bool.and_eq_true] at hok
        rw [hv] at hok
        exact absurd hok.1.1.2 (by decide)
      | _ => rfl
  · rw [hget, hgst]
    refine Eq.trans (congrArg statusOf ?_) (statusOf_text _)
    rw [Option.map_map]
    rfl
  · rw [hget, hgl]
    exact lifecycleOf_text _

/-! ### The text of all entries -/

theorem identifiersOf_array (ids : List JsString) :
    identifiersOf (some (.array (arrayOf (ids.map fun id => .leaf (.string id))))) = some ids := by
  rw [identifiersOf, elementsOf_arrayOf]
  induction ids with
  | nil => rfl
  | cons id ids ih =>
    rw [List.map_cons, List.mapM_cons, ih]
    rfl

/-- The JSON of an entry, unchanged, is read as the entry. -/
theorem decodeElement_storedJson {e : TransactionHistoryEntry} (hok : entryOk e = true) :
    decodeElement (storedJson e) = .ok e := by
  obtain ⟨hgh, hgi, hgv, hgst, hgt, hgf, hgl, hgs⟩ := storedFields_get (encodeStoredEntry e)
  have hids : identifiersOf ((storedFields (encodeStoredEntry e)).get (ascii "identifiers")) =
      some e.identifiers := by
    rw [hgi]
    exact identifiersOf_array e.identifiers
  have hparts := hok
  simp only [entryOk, sectionsOk, Bool.and_eq_true] at hparts
  rw [storedJson, decodeElement, hgh, hids]
  refine rowToEntry_of_parts rfl hgs ?_ ?_ (decodeSections_encodeSections _ hparts.2.2) ?_ ?_ ?_
    rfl rfl hok
  · rw [hgt]
    exact timestampOf_text hparts.1.2
  · rw [hgf]
    exact feesOf_text e.content.fees
  · rw [hgv]
    exact protocolVersionOf_number _
  · rw [hgst]
    exact statusOf_text _
  · rw [hgl]
    exact lifecycleOf_text _

/-- A leaf that is a value of the host language, passed the schema and is no negative zero. -/
def textLeaf (l : Leaf) : Bool := plainLeaf l && doubleLeaf l

theorem encodeLeaf_readsBack {l : Leaf} (h : textLeaf l = true) :
    (encodeLeaf l).all leafReadsBack (fun _ => true) = true := by
  rw [textLeaf, Bool.and_eq_true] at h
  cases l with
  | number n =>
    cases n with
    | finite q => exact leafReadsBack_finite h.2
    | negZero => exact absurd h.1 (by decide)
    | nonFinite => exact absurd h.1 (by decide)
  | boolean b => cases b <;> decide +kernel
  | null => decide +kernel
  | date d => rcases d with _ | t <;> rfl
  | string s => rfl
  | bigint i => rfl

theorem all_optionalField {p : JsonLeaf → Bool} (k : JsString) (v : Option JsonValue) :
    (optionalField k v).all p (fun _ => true) = v.all fun x => x.all p fun _ => true := by
  rcases v with _ | v
  · rfl
  · simp [optionalField, Fields.all]

theorem storedJson_readsBack {e : TransactionHistoryEntry} (hgood : Good e)
    (hv : e.content.protocolVersion.all doubleNumber = true)
    (hs : e.content.sections.all doubleLeaf (fun _ => true) = true) :
    (storedJson e).all leafReadsBack (fun _ => true) = true := by
  have hok := hgood.ok
  simp only [entryOk, sectionsOk, Bool.and_eq_true] at hok
  have hsec : (encodeSections e.content.sections).all leafReadsBack (fun _ => true) = true := by
    refine Fields.all_bind (fun l hl => encodeLeaf_readsBack hl) _ ?_
    have hboth : e.content.sections.all (fun l => plainLeaf l && doubleLeaf l)
        (fun k => keyOk k && true) = true := by
      rw [Fields.all_and, all_plainLeaf hok.2.2 hgood.plain.2, hs]
      rfl
    exact Fields.all_mono (fun _ h => h) (fun _ _ => rfl) _ hboth
  have hids : (arrayOf (e.identifiers.map fun id => .leaf (.string id))).all leafReadsBack
      (fun _ => true) = true := by
    refine arrayOf_all fun v hv => ?_
    obtain ⟨id, -, rfl⟩ := List.mem_map.mp hv
    rfl
  have hversion : e.content.protocolVersion.all (fun n => leafReadsBack (.number n)) = true := by
    rcases hn : e.content.protocolVersion with _ | n
    · rfl
    · rw [hn] at hv
      cases n with
      | finite q => exact leafReadsBack_finite hv
      | negZero => exact absurd hn hgood.plain.1
      | nonFinite =>
        rw [hn] at hok
        exact absurd hok.1.1.2 (by decide)
  -- a field that may be missing, and is text otherwise
  have hmissing : ∀ {A : Type} (o : Option A), (o.all fun _ => true) = true := by
    intro A o
    rcases o with _ | a <;> rfl
  have hnull : leafReadsBack .null = true := by decide +kernel
  have hstring : ∀ s, leafReadsBack (.string s) = true := fun _ => rfl
  have hfees : ∀ f : Option JsString, Tree.all leafReadsBack (fun _ => true)
      (match f with
      | none => (.leaf .null : JsonValue)
      | some s => .leaf (.string s)) = true := by
    intro f
    rcases f with _ | s
    · exact hnull
    · exact hstring s
  simp only [storedJson, storedFields, encodeStoredEntry, Tree.all, Fields.all, Fields.all_append,
    all_optionalField, Option.all_map, hsec, hids, hstring, hfees, hversion, hmissing,
    Bool.and_true]

theorem mapM_ok_of {A B : Type} {f : A → Except Thrown B} {g : A → B} : ∀ {xs : List A},
    (∀ x ∈ xs, f x = .ok (g x)) → xs.mapM f = .ok (xs.map g)
  | [], _ => rfl
  | x :: xs, h => by
    rw [List.mapM_cons, h x List.mem_cons_self,
      mapM_ok_of fun x hx => h x (List.mem_cons_of_mem _ hx)]
    rfl

/-- What the row of an accepted entry is read as. -/
def readBack (server : Server) (e : AcceptedEntry) : TransactionHistoryEntry :=
  sorted server (zeroed e.entry)

theorem readBack_good (server : Server) (e : AcceptedEntry) : Good (readBack server e) :=
  sorted_good ⟨zeroed_ok e.ok, Fields.distinct_bind (fun _ => rfl) _ e.distinct,
    zeroed_plain e.entry⟩

theorem readBack_same (server : Server) (e : AcceptedEntry) :
    SameEntry (readBack server e) e.entry ↔ Plain e.entry := by
  have hsorted : SameEntry (readBack server e) (zeroed e.entry) :=
    sorted_same (Fields.distinct_bind (fun _ => rfl) _ e.distinct)
  rw [← sameEntry_zeroed e.distinct]
  exact ⟨fun h => hsorted.symm.trans h, fun h => hsorted.trans h⟩

theorem readBack_readsBack (server : Server) (e : AcceptedEntry) :
    (storedJson (readBack server e)).all leafReadsBack (fun _ => true) = true := by
  have hzero : isDouble 0 = true := by decide +kernel
  have hnumber : ∀ n, doubleNumber n = true → doubleNumber (jsonNumber n) = true := by
    intro n hn
    cases n with
    | finite q => exact hn
    | negZero => exact hzero
    | nonFinite => exact hn
  refine storedJson_readsBack (readBack_good server e) ?_ ?_
  · have hv := e.versionDouble
    show (e.entry.content.protocolVersion.map jsonNumber).all doubleNumber = true
    rcases he : e.entry.content.protocolVersion with _ | n
    · rfl
    · rw [he] at hv
      exact hnumber n hv
  · refine (Fields.all_sortKeys _).trans ((Fields.all_bind_leaf _).trans ?_)
    refine Fields.all_mono (fun l hl => ?_) (fun _ h => h) _ e.doubles
    cases l with
    | number n => exact hnumber n hl
    | _ => rfl

/-- A section that holds a negative zero, which `EntryContentSchema` accepts. -/
def negZeroEntry : AcceptedEntry :=
  ⟨entryWith (ascii "h") [] (.number .negZero), by decide, rfl, rfl, rfl⟩

end UmbraDB.Ths.Codec
