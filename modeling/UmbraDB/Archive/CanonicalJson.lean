import UmbraDB.Js.NumberText
import UmbraDB.Js.Utf8
import UmbraDB.Lib.SortedTrees
import Mathlib.Data.List.Sort

/-! # Chain archive: canonical JSON

`stableStringify` prints an object with its keys in the order of their code units, at every depth. So
it prints the sorted form of a value, and values that differ in the order of keys only have the same
text.

* `stableStringify_eq` : it is `JSON.stringify` of the sorted value.
* `stableStringify_faithful` : the text is read back, and determines the value. -/

namespace UmbraDB.Archive.CanonicalJson

open UmbraDB.Js.Text UmbraDB.Js.Utf8 UmbraDB.Js.Number UmbraDB.Js.Decimal UmbraDB.Js.Json
open UmbraDB.Js.NumberText UmbraDB.Lib.Trees

/-! ### The printer -/

/-- Keys in the order of `Array.prototype.sort`. -/
def keyLe (k k' : JsString) : Bool := decide (k ≤ k')

/-- `texts.join(",")`. -/
def joined : List JsString → JsString
  | [] => []
  | text :: texts => text ++ texts.flatMap (0x2C :: ·)

/-- A key and its value, which is printed. -/
def memberText (member : JsString × JsString) : JsString := quoted member.1 ++ 0x3A :: member.2

mutual

def stableStringify : JsonValue → JsString
  | .leaf l => leafText l
  | .array items => 0x5B :: (joined (itemTexts items) ++ [0x5D])
  | .object fields =>
    let sorted := (memberTexts fields).insertionSort fun a b => keyLe a.1 b.1
    0x7B :: (joined (sorted.map memberText) ++ [0x7D])

def itemTexts : Items JsString JsonLeaf → List JsString
  | .nil => []
  | .cons t rest => stableStringify t :: itemTexts rest

def memberTexts : Fields JsString JsonLeaf → List (JsString × JsString)
  | .nil => []
  | .cons k t rest => (k, stableStringify t) :: memberTexts rest

end

def headerBytes (header : JsonValue) : List UInt8 := textEncode (stableStringify header)

def extrinsicsItems : List JsString → Items JsString JsonLeaf
  | [] => .nil
  | extrinsic :: extrinsics => .cons (.leaf (.string extrinsic)) (extrinsicsItems extrinsics)

def extrinsicsBytes (extrinsics : List JsString) : List UInt8 :=
  textEncode (stableStringify (.array (extrinsicsItems extrinsics)))

/-! ### JSON values -/

/-- A leaf that `JSON.parse` can return. -/
def isJson : JsonLeaf → Bool
  | .number (.finite q) => isDouble q
  | .number .nonFinite => false
  | _ => true

/-- A JSON value. -/
structure Json where
  value : JsonValue
  distinct : value.distinct = true
  leaves : value.all isJson (fun _ => true) = true

/-- Numbers by their values: `-0` is `0`. -/
def byValue : JsonLeaf → JsonLeaf
  | .number .negZero => .number (.finite 0)
  | l => l

def normal (v : JsonValue) : JsonValue := v.bind fun l => .leaf (byValue l)

/-- The values are equal up to the order of keys. -/
def SameJson (v w : JsonValue) : Prop := (normal v).denote = (normal w).denote

/-! ### The sorted form -/

theorem keyOrder : KeyOrder keyLe where
  total a b := by
    simp only [keyLe, decide_eq_true_eq]
    exact List.le_total a b
  trans a b c := by
    simp only [keyLe, decide_eq_true_eq]
    exact List.le_trans
  antisymm a b := by
    simp only [keyLe, decide_eq_true_eq]
    exact List.le_antisymm

/-- The texts of the items, and of the members with their keys. -/
def plainItems : Items JsString JsonLeaf → List JsString
  | .nil => []
  | .cons t rest => stringify t :: plainItems rest

def plainMembers : Fields JsString JsonLeaf → List (JsString × JsString)
  | .nil => []
  | .cons k t rest => (k, stringify t) :: plainMembers rest

theorem moreItems_eq (items : Items JsString JsonLeaf) :
    moreItems items = (plainItems items).flatMap (0x2C :: ·) := by
  rcases items with _ | ⟨t, rest⟩
  · rfl
  · rw [moreItems, plainItems, List.flatMap_cons, moreItems_eq rest]
    rfl

theorem moreMembers_eq (members : Fields JsString JsonLeaf) :
    moreMembers members = ((plainMembers members).map memberText).flatMap (0x2C :: ·) := by
  rcases members with _ | ⟨k, t, rest⟩
  · rfl
  · rw [moreMembers, plainMembers, List.map_cons, List.flatMap_cons, moreMembers_eq rest]
    simp [memberText]

theorem stringify_array (items : Items JsString JsonLeaf) :
    stringify (.array items) = 0x5B :: (joined (plainItems items) ++ [0x5D]) := by
  rcases items with _ | ⟨t, rest⟩
  · rfl
  · rw [stringify, plainItems, joined, moreItems_eq, List.append_assoc]

theorem stringify_object (members : Fields JsString JsonLeaf) :
    stringify (.object members) =
      0x7B :: (joined ((plainMembers members).map memberText) ++ [0x7D]) := by
  rcases members with _ | ⟨k, t, rest⟩
  · rfl
  · rw [stringify, plainMembers, List.map_cons, joined, moreMembers_eq]
    simp [memberText]

/-- A member is put in its place. -/
theorem plainMembers_insert {k : JsString} {t : JsonValue} (members : Fields JsString JsonLeaf) :
    plainMembers (members.insert keyLe k t) =
      (plainMembers members).orderedInsert (fun a b => keyLe a.1 b.1) (k, stringify t) := by
  rcases members with _ | ⟨k', t', rest⟩
  · rfl
  · rw [Fields.insert, plainMembers, List.orderedInsert_cons]
    split_ifs
    · rfl
    · rw [plainMembers, plainMembers_insert rest]

mutual

/-- **`stableStringify` prints the sorted value.** -/
theorem stableStringify_eq : ∀ v : JsonValue, stableStringify v = stringify (v.sortKeys keyLe)
  | .leaf _ => rfl
  | .array items => by
    rw [stableStringify, itemTexts_eq items, Tree.sortKeys, stringify_array]
  | .object fields => by
    rw [stableStringify, Tree.sortKeys, stringify_object, ← memberTexts_eq fields]

theorem itemTexts_eq : ∀ items : Items JsString JsonLeaf,
    itemTexts items = plainItems (items.sortKeys keyLe)
  | .nil => rfl
  | .cons t rest => by
    rw [itemTexts, Items.sortKeys, plainItems, stableStringify_eq t, itemTexts_eq rest]

theorem memberTexts_eq : ∀ fields : Fields JsString JsonLeaf,
    (memberTexts fields).insertionSort (fun a b => keyLe a.1 b.1) =
      plainMembers (fields.sortKeys keyLe)
  | .nil => rfl
  | .cons k t rest => by
    rw [memberTexts, List.insertionSort_cons, memberTexts_eq rest, Fields.sortKeys,
      plainMembers_insert, stableStringify_eq t]

end

/-! ### Numbers by their values -/

theorem leafText_byValue (l : JsonLeaf) : leafText (byValue l) = leafText l := by
  unfold byValue
  split
  · decide +kernel
  · rfl

theorem byValue_byValue (l : JsonLeaf) : byValue (byValue l) = byValue l := by
  rcases l with s | n | b | _
  · rfl
  · rcases n with q | _ | _ <;> rfl
  · rfl
  · rfl

mutual

theorem stringify_normal : ∀ v : JsonValue,
    stringify (v.bind fun l => .leaf (byValue l)) = stringify v
  | .leaf l => leafText_byValue l
  | .array items => by
    rw [Tree.bind, stringify_array, stringify_array, plainItems_normal items]
  | .object fields => by
    rw [Tree.bind, stringify_object, stringify_object, plainMembers_normal fields]

theorem plainItems_normal : ∀ items : Items JsString JsonLeaf,
    plainItems (items.bind fun l => .leaf (byValue l)) = plainItems items
  | .nil => rfl
  | .cons t rest => by
    rw [Items.bind, plainItems, plainItems, stringify_normal t, plainItems_normal rest]

theorem plainMembers_normal : ∀ fields : Fields JsString JsonLeaf,
    plainMembers (fields.bind fun l => .leaf (byValue l)) = plainMembers fields
  | .nil => rfl
  | .cons k t rest => by
    rw [Fields.bind, plainMembers, plainMembers, stringify_normal t, plainMembers_normal rest]

end

theorem normal_normal (v : JsonValue) : normal (normal v) = normal v := by
  rw [normal, normal, Tree.bind_bind]
  simp only [Tree.bind, byValue_byValue]

theorem normal_sortKeys (v : JsonValue) : (normal v).sortKeys keyLe = normal (v.sortKeys keyLe) :=
  Tree.sortKeys_bind (fun _ => rfl) v

theorem distinct_normal {v : JsonValue} (h : v.distinct = true) : (normal v).distinct = true :=
  Tree.distinct_bind (fun _ => rfl) v h

/-- `stableStringify` prints the normal form. -/
theorem stableStringify_normal (v : JsonValue) :
    stableStringify v = stringify ((normal v).sortKeys keyLe) := by
  rw [normal_sortKeys, stableStringify_eq]
  exact (stringify_normal _).symm

theorem leafReadsBack_byValue {l : JsonLeaf} (h : isJson l = true) :
    leafReadsBack (byValue l) = true := by
  rcases l with s | n | b | _
  · rfl
  · rcases n with q | _ | _
    · exact leafReadsBack_finite h
    · exact leafReadsBack_finite (by decide +kernel)
    · cases h
  · rcases b with _ | _ <;> decide +kernel
  · decide +kernel

/-- The text is read back as the normal form. -/
theorem parse_stableStringify (v : Json) :
    parse (stableStringify v.value) = some ((normal v.value).sortKeys keyLe) := by
  rw [stableStringify_normal]
  refine parse_stringify (Tree.distinct_sortKeys _ (distinct_normal v.distinct)) ?_
  rw [Tree.all_sortKeys, normal, Tree.all_bind_leaf]
  exact Tree.all_mono (fun _ => leafReadsBack_byValue) (fun _ h => h) v.value v.leaves

/-! ### Bytes -/

theorem stableStringify_wellFormed (v : JsonValue) :
    toWellFormed (stableStringify v) = stableStringify v := by
  rw [stableStringify_eq]
  exact stringify_wellFormed _

theorem headerBytes_eq_iff {v w : JsonValue} :
    headerBytes v = headerBytes w ↔ stableStringify v = stableStringify w := by
  constructor
  · intro h
    have hdecode := congrArg (utf8Decoder.run .start) h
    rw [headerBytes, headerBytes, utf8Decoder_encode, utf8Decoder_encode,
      stableStringify_wellFormed, stableStringify_wellFormed] at hdecode
    exact Option.some.inj hdecode
  · exact fun h => congrArg textEncode h

theorem sameJson_iff (v w : Json) :
    stableStringify v.value = stableStringify w.value ↔ SameJson v.value w.value := by
  rw [SameJson, ← Tree.sortKeys_eq_iff keyOrder (distinct_normal v.distinct)
    (distinct_normal w.distinct)]
  constructor
  · intro h
    have hparse := parse_stableStringify v
    rw [h, parse_stableStringify w] at hparse
    exact (Option.some.inj hparse).symm
  · intro h
    rw [stableStringify_normal, stableStringify_normal, h]

/-- The JSON value of a list of extrinsics. -/
def extrinsicsJson (extrinsics : List JsString) : Json where
  value := .array (extrinsicsItems extrinsics)
  distinct := by
    induction extrinsics with
    | nil => rfl
    | cons extrinsic extrinsics ih => exact ih
  leaves := by
    induction extrinsics with
    | nil => rfl
    | cons extrinsic extrinsics ih => exact ih

theorem denote_extrinsicsItems : ∀ extrinsics : List JsString,
    ((extrinsicsItems extrinsics).bind fun l => .leaf (byValue l)).denote =
      extrinsics.map fun extrinsic => .leaf (.string extrinsic)
  | [] => rfl
  | extrinsic :: extrinsics => by
    rw [extrinsicsItems, Items.bind, Items.denote, denote_extrinsicsItems extrinsics]
    rfl

theorem sameJson_extrinsics {xs ys : List JsString} :
    SameJson (extrinsicsJson xs).value (extrinsicsJson ys).value ↔ xs = ys := by
  have hinjective : Function.Injective
      fun extrinsic : JsString => (Value.leaf (.string extrinsic) : Value JsString JsonLeaf) :=
    fun _ _ h => JsonLeaf.string.inj (Value.leaf.inj h)
  have hdenote : ∀ zs : List JsString, (normal (extrinsicsJson zs).value).denote =
      .array (zs.map fun extrinsic => .leaf (.string extrinsic)) := by
    intro zs
    rw [normal, extrinsicsJson, Tree.bind, Tree.denote, denote_extrinsicsItems]
  rw [SameJson, hdenote, hdenote, Value.array.injEq]
  exact (List.map_injective_iff.mpr hinjective).eq_iff

end UmbraDB.Archive.CanonicalJson
