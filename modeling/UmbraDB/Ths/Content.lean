import UmbraDB.Js.Date
import UmbraDB.Js.Json
import UmbraDB.Lib.Trees
import UmbraDB.Ths.Entry

/-! # Transaction history: the content of an entry and its stored form

`EntryContent` is the recursive payload of the sections, with bigint and date leaves, and
`TransactionHistoryEntrySchema` what every entry has to pass. `encodeContent` turns it into JSON by
tagging bigints and dates, and `decodeContent` reads it back. In between the JSON goes through
`JSON.stringify`, the `jsonb` column and `JSON.parse` (`throughJsonb`): the keys of every object
come back in the order of the server, a negative zero as zero.

Numbers are given by their values; the text of a finite number and `jsonb` keep the value exactly.
The strings that reach the column have passed the schema, so they are stored as they are.

* `decodeContent_encodeContent` : on content that passed the schema, decoding inverts encoding.
* `decodeSections_throughJsonb` : through the column, the fields come back in another order, if
  there is no negative zero. -/

namespace UmbraDB.Ths.Content

open UmbraDB.Js.Text UmbraDB.Js.Numerals UmbraDB.Js.Number UmbraDB.Js.Date UmbraDB.Lib.Trees
open UmbraDB.Js.Json (JsonLeaf)
open UmbraDB.Ths.Entry

/-- A `Date`; `none` is the invalid one. -/
abbrev JsDate := Option TimeValue

inductive Leaf
  | string (s : JsString)
  | number (n : JsNumber)
  | boolean (b : Bool)
  | null
  | bigint (i : ℤ)
  | date (d : JsDate)
  deriving DecidableEq

abbrev EntryContent := Tree JsString Leaf

abbrev Sections := Fields JsString Leaf

/-- `TransactionHistoryStatus`. -/
inductive HistoryStatus
  | success
  | partialSuccess
  | failure
  deriving DecidableEq

/-- The fields of an entry that the storage does not read; `none` is an absent one. -/
structure EntryFields where
  protocolVersion : Option JsNumber
  status : Option HistoryStatus
  timestamp : Option JsDate
  fees : Option (Option ℤ)
  sections : Sections

abbrev TransactionHistoryEntry := HistoryEntry EntryFields

/-! ### The schema -/

/-- `THS_RESERVED_KEY_PREFIX`. -/
def reservedKeyPrefix : JsString := ascii "__umbradb_ths_"

def bigintTag : JsString := reservedKeyPrefix ++ ascii "bigint"

def dateTag : JsString := reservedKeyPrefix ++ ascii "date"

/-- `SafeObjectKeySchema`. -/
def keyOk (k : JsString) : Bool :=
  !hasPostgresUnsafeText k && !(reservedKeyPrefix.isPrefixOf k)

/-- The leaves of `EntryContentSchema`. -/
def leafOk : Leaf → Bool
  | .string s => !hasPostgresUnsafeText s
  | .number n => n != .nonFinite
  | .boolean _ => true
  | .null => true
  | .bigint _ => true
  | .date d => d.isSome

/-- `MAX_ENTRY_CONTENT_DEPTH`. -/
def maxEntryContentDepth : ℕ := 64

/-- `EntrySectionsSchema`; the sections are an object at depth 0. -/
def sectionsOk (sections : Sections) : Bool :=
  !((Tree.object sections).exceeds maxEntryContentDepth 0) && sections.all leafOk keyOk

/-- `HashSchema` and `IdentifierSchema`. -/
def textOk (s : JsString) : Bool := decide (1 ≤ s.length) && !hasPostgresUnsafeText s

/-- `z.number().int().nonnegative()`. -/
def protocolVersionOk : JsNumber → Bool
  | .finite q => q.den == 1 && decide (0 ≤ q) && decide (q ≤ 9007199254740991)
  | .negZero => true
  | .nonFinite => false

/-- `TransactionHistoryEntrySchema`. -/
def entryOk (e : TransactionHistoryEntry) : Bool :=
  textOk e.hash && e.identifiers.all textOk && e.content.protocolVersion.all protocolVersionOk &&
    e.content.timestamp.all Option.isSome && sectionsOk e.content.sections

/-! ### The codec -/

abbrev JsonEncoded := Tree JsString JsonLeaf

/-- `{ [tag]: text }`. -/
def tagged (tag text : JsString) : JsonEncoded := .object (.cons tag (.leaf (.string text)) .nil)

def encodeLeaf : Leaf → JsonEncoded
  | .string s => .leaf (.string s)
  | .number n => .leaf (.number n)
  | .boolean b => .leaf (.boolean b)
  | .null => .leaf .null
  | .bigint i => tagged bigintTag (bigintText i)
  | .date (some t) => tagged dateTag (toISOString t)
  -- the schema has rejected it
  | .date none => .leaf .null

def encodeContent (v : EntryContent) : JsonEncoded := v.bind encodeLeaf

def encodeSections (sections : Sections) : Fields JsString JsonLeaf := sections.bind encodeLeaf

/-- The tagged text, if the object has the tag as its only key and a string under it. -/
def isTagObject (tag : JsString) : Fields JsString JsonLeaf → Option JsString
  | .cons k (.leaf (.string raw)) .nil => if k = tag then some raw else none
  | _ => none

mutual

/-- `none` is a `SerializationFailedError`. -/
def decodeContent : JsonEncoded → Option EntryContent
  | .leaf (.string s) => some (.leaf (.string s))
  | .leaf (.number n) => some (.leaf (.number n))
  | .leaf (.boolean b) => some (.leaf (.boolean b))
  | .leaf .null => some (.leaf .null)
  | .array items => (decodeItems items).map .array
  | .object fields =>
    match isTagObject bigintTag fields, isTagObject dateTag fields with
    | some raw, _ => (parseStoredBigint raw).map fun i => .leaf (.bigint i)
    | none, some raw => (parseStoredDate raw).map fun t => .leaf (.date (some t))
    | none, none => (decodeSections fields).map .object

def decodeItems : Items JsString JsonLeaf → Option (Items JsString Leaf)
  | .nil => some .nil
  | .cons t rest => (decodeContent t).bind fun t' => (decodeItems rest).map (.cons t')

def decodeSections : Fields JsString JsonLeaf → Option Sections
  | .nil => some .nil
  | .cons k t rest => (decodeContent t).bind fun t' => (decodeSections rest).map (.cons k t')

end

/-- What `JSON.stringify` and `JSON.parse` make of a finite number. -/
def jsonNumber : JsNumber → JsNumber
  | .negZero => .finite 0
  | n => n

/-- What they make of a leaf. -/
def jsonLeaf : JsonLeaf → JsonLeaf
  | .number .nonFinite => .null
  | .number n => .number (jsonNumber n)
  | l => l

/-- The value that is read from a `jsonb` column; `keyOrder` is the order in which it keeps the keys
of an object. -/
def throughJsonb (keyOrder : JsString → JsString → Bool) (sections : Fields JsString JsonLeaf) :
    Fields JsString JsonLeaf :=
  (sections.bind fun l => .leaf (jsonLeaf l)).sortKeys keyOrder

/-! ### Round trip -/

theorem keyOk_ne_tag {k tag : JsString} (h : keyOk k = true)
    (htag : reservedKeyPrefix.isPrefixOf tag = true) : k ≠ tag := by
  rintro rfl
  rw [keyOk, htag] at h
  simp at h

/-- The keys of sections that passed the schema are not tags. -/
theorem isTagObject_encode {sections : Sections} (h : sections.all leafOk keyOk = true)
    (tag : JsString) (htag : reservedKeyPrefix.isPrefixOf tag = true) :
    isTagObject tag (encodeSections sections) = none := by
  rcases sections with _ | ⟨k, t, rest⟩
  · rfl
  · rw [Fields.all, Bool.and_eq_true, Bool.and_eq_true] at h
    unfold isTagObject
    split
    · next k' raw heq =>
      rw [encodeSections, Fields.bind, Fields.cons.injEq] at heq
      rw [if_neg (heq.1 ▸ keyOk_ne_tag h.1.1 htag)]
    · rfl

theorem decodeContent_encodeLeaf {l : Leaf} (h : leafOk l = true) :
    decodeContent (encodeLeaf l) = some (.leaf l) := by
  cases l with
  | string s => rfl
  | number n => rfl
  | boolean b => rfl
  | null => rfl
  | bigint i =>
    rw [encodeLeaf, tagged, decodeContent, isTagObject, if_pos rfl]
    simp only [parseStoredBigint_bigintText, Option.map_some]
  | date d =>
    rcases d with _ | t
    · cases h
    · have hne : ¬ dateTag = bigintTag := by decide
      rw [encodeLeaf, tagged, decodeContent, isTagObject, isTagObject, if_neg hne, if_pos rfl]
      simp only [parseStoredDate_toISOString, Option.map_some]

mutual

/-- Decoding inverts encoding. -/
theorem decodeContent_encodeContent : ∀ (v : EntryContent), v.all leafOk keyOk = true →
    decodeContent (encodeContent v) = some v
  | .leaf l, h => decodeContent_encodeLeaf h
  | .array items, h => by
    have ih := decodeItems_encode items h
    rw [encodeContent, Tree.bind, decodeContent, ih]
    rfl
  | .object fields, h => by
    have ih := decodeSections_encodeSections fields h
    have h1 := isTagObject_encode h bigintTag (by decide)
    have h2 := isTagObject_encode h dateTag (by decide)
    rw [encodeSections] at h1 h2
    rw [encodeContent, Tree.bind, decodeContent, h1, h2]
    simp only
    rw [← encodeSections, ih]
    rfl

theorem decodeItems_encode : ∀ (items : Items JsString Leaf), items.all leafOk keyOk = true →
    decodeItems (items.bind encodeLeaf) = some items
  | .nil, _ => rfl
  | .cons t rest, h => by
    rw [Items.all, Bool.and_eq_true] at h
    have ht := decodeContent_encodeContent t h.1
    rw [encodeContent] at ht
    rw [Items.bind, decodeItems, ht, decodeItems_encode rest h.2]
    rfl

theorem decodeSections_encodeSections : ∀ (sections : Sections),
    sections.all leafOk keyOk = true → decodeSections (encodeSections sections) = some sections
  | .nil, _ => rfl
  | .cons k t rest, h => by
    rw [Fields.all, Bool.and_eq_true, Bool.and_eq_true] at h
    have ht := decodeContent_encodeContent t h.1.2
    have hr := decodeSections_encodeSections rest h.2
    rw [encodeContent] at ht
    rw [encodeSections] at hr
    rw [encodeSections, Fields.bind, decodeSections, ht, hr]
    rfl

end

/-- The leaf passed the schema and is not a negative zero. -/
def plainLeaf (l : Leaf) : Bool := leafOk l && l != .number .negZero

theorem encodeLeaf_plain {l : Leaf} (h : plainLeaf l = true) :
    (encodeLeaf l).bind (fun l => .leaf (jsonLeaf l)) = encodeLeaf l := by
  cases l with
  | string s => rfl
  | number n =>
    cases n with
    | finite q => rfl
    | negZero => simp [plainLeaf] at h
    | nonFinite => simp [plainLeaf, leafOk] at h
  | boolean b => rfl
  | null => rfl
  | bigint i => rfl
  | date d => rcases d with _ | t <;> rfl

theorem encodeLeaf_sorted {keyOrder : JsString → JsString → Bool} (l : Leaf) :
    (encodeLeaf l).sortKeys keyOrder = encodeLeaf l := by
  cases l with
  | date d => rcases d with _ | t <;> rfl
  | _ => rfl

/-- No negative zero anywhere. -/
def noNegZero (sections : Sections) : Bool :=
  sections.all (fun l => l != .number .negZero) fun _ => true

theorem all_plainLeaf {sections : Sections} (h : sections.all leafOk keyOk = true)
    (hz : noNegZero sections = true) : sections.all plainLeaf keyOk = true := by
  have hboth :
      sections.all (fun l => leafOk l && l != .number .negZero) (fun k => keyOk k && true) =
      (sections.all leafOk keyOk && noNegZero sections) := Fields.all_and sections
  rw [h, hz] at hboth
  simp only [Bool.and_true, Bool.and_self] at hboth
  exact hboth

/-- Through the column, the fields of all objects are sorted. -/
theorem decodeSections_throughJsonb (keyOrder : JsString → JsString → Bool) {sections : Sections}
    (h : sections.all leafOk keyOk = true) (hz : noNegZero sections = true) :
    decodeSections (throughJsonb keyOrder (encodeSections sections)) =
      some (sections.sortKeys keyOrder) := by
  have hjson : (encodeSections sections).bind (fun l => .leaf (jsonLeaf l)) =
      encodeSections sections := by
    rw [encodeSections, Fields.bind_bind]
    exact Fields.bind_congr (fun l hl => encodeLeaf_plain hl) sections (all_plainLeaf h hz)
  have hsort : (encodeSections sections).sortKeys keyOrder =
      encodeSections (sections.sortKeys keyOrder) :=
    Fields.sortKeys_bind encodeLeaf_sorted sections
  rw [throughJsonb, hjson, hsort]
  exact decodeSections_encodeSections _ (by rw [Fields.all_sortKeys, h])

end UmbraDB.Ths.Content
