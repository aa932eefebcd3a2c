import UmbraDB.Boundary.Calls
import UmbraDB.Js.Utf8
import UmbraDB.Lib.TreeMeasures

/-! # The text test and the depth guard

`hasPostgresUnsafeText` is a regular expression with a lookahead and a lookbehind
(`src/interfaces/temporal-kv.ts`). It is compared with the grammar of UTF-16 and with UTF-8, and
`jsonValueHasUnsafeText` with the strings of a value.

`exceedsMaxDepth` keeps a stack of its own, so that the recursive functions behind it cannot
overflow the stack of the host. These are given with the frames that are left: each call of a
function by itself takes one, and `none` is the `RangeError`.

* `hasPostgresUnsafeText_iff` : the test is exact.
* `exceedsMaxDepth_iff` : the guard compares the height.
* `guarded_frames` : behind the guard, as many frames as it allows levels, and one more, are
  enough. -/

namespace UmbraDB.Boundary.Values

open UmbraDB.Js.Text UmbraDB.Js.Utf8 UmbraDB.Js.Json UmbraDB.Lib.Trees UmbraDB.Lib.WorkList
open UmbraDB.Ths.Content UmbraDB.Boundary.Calls

/-! ### Text -/

/-- Well-formed UTF-16: every surrogate is one of a high and a low one, in this order. -/
inductive WellFormed : JsString → Prop
  | nil : WellFormed []
  | plain {u : UInt16} {s : JsString} : plainUnit u = true → WellFormed s → WellFormed (u :: s)
  | pair {u v : UInt16} {s : JsString} : isHighSurrogate u = true → isLowSurrogate v = true →
    WellFormed s → WellFormed (u :: v :: s)

/-- Decoding UTF-8, without dropping a mark at the start. -/
def utf8Decode (bytes : List UInt8) : Option JsString := utf8Decoder.run .start bytes

theorem wellFormed_toWellFormed (s : JsString) : WellFormed (toWellFormed s) := by
  induction s using toWellFormed_induction with
  | nil => exact .nil
  | plain u s hu ih => rw [toWellFormed_cons_plain hu]; exact .plain hu ih
  | pair u v s hu hv ih => rw [toWellFormed_cons_pair hu hv]; exact .pair hu hv ih
  | lone u s _ he ih => rw [he]; exact .plain plainUnit_replacement ih

theorem WellFormed.toWellFormed_eq {s : JsString} (h : WellFormed s) : toWellFormed s = s := by
  induction h with
  | nil => rfl
  | plain hu _ ih => rw [toWellFormed_cons_plain hu, ih]
  | pair hu hv _ ih => rw [toWellFormed_cons_pair hu hv, ih]

theorem wellFormed_iff {s : JsString} : WellFormed s ↔ toWellFormed s = s :=
  ⟨WellFormed.toWellFormed_eq, fun h => h ▸ wellFormed_toWellFormed s⟩

/-- The pattern finds nothing exactly in well-formed text. -/
theorem hasLoneSurrogate_iff {s : JsString} : hasLoneSurrogate s = false ↔ WellFormed s := by
  rw [wellFormed_iff]
  refine ⟨toWellFormed_eq_self, fun h => ?_⟩
  rw [← h]
  exact hasLoneSurrogate_toWellFormed s

theorem zero_mem_utf8 {c : ℕ} (hc : IsScalar c) : (0 : UInt8) ∈ utf8 c ↔ c = 0 := by
  have hne : ∀ n, 0 < n → n < 256 → (0 : UInt8) ≠ UInt8.ofNat n := by
    intro n hpos hlt h
    have := congrArg UInt8.toNat h
    rw [toNat_ofNat8 hlt] at this
    exact absurd this.symm (Nat.pos_iff_ne_zero.mp hpos)
  unfold IsScalar at hc
  unfold utf8
  split_ifs with h1 h2 h3
  · rw [List.mem_singleton]
    constructor
    · intro h
      by_contra h0
      exact hne c (Nat.pos_of_ne_zero h0) (by omega) h
    · rintro rfl
      rfl
  · have ha := hne (0xC0 + c / 0x40) (by omega) (by omega)
    have hb := hne (0x80 + c % 0x40) (by omega) (by omega)
    simp only [List.mem_cons, ha, hb, List.not_mem_nil, or_false, false_iff]
    omega
  · have ha := hne (0xE0 + c / 0x1000) (by omega) (by omega)
    have hb := hne (0x80 + c / 0x40 % 0x40) (by omega) (by omega)
    have hd := hne (0x80 + c % 0x40) (by omega) (by omega)
    simp only [List.mem_cons, ha, hb, hd, List.not_mem_nil, or_false, false_iff]
    omega
  · have ha := hne (0xF0 + c / 0x40000) (by omega) (by omega)
    have hb := hne (0x80 + c / 0x1000 % 0x40) (by omega) (by omega)
    have hd := hne (0x80 + c / 0x40 % 0x40) (by omega) (by omega)
    have he := hne (0x80 + c % 0x40) (by omega) (by omega)
    simp only [List.mem_cons, ha, hb, hd, he, List.not_mem_nil, or_false, false_iff]
    omega

theorem zero_mem_utf16 {c : ℕ} (hc : IsScalar c) : (0 : UInt16) ∈ utf16 c ↔ c = 0 := by
  have hne : ∀ n, 0 < n → n < 65536 → (0 : UInt16) ≠ UInt16.ofNat n := by
    intro n hpos hlt h
    have hn := congrArg UInt16.toNat h
    rw [UInt16.toNat_ofNat', Nat.mod_eq_of_lt hlt] at hn
    exact absurd hn.symm (Nat.pos_iff_ne_zero.mp hpos)
  unfold IsScalar at hc
  unfold utf16
  split_ifs with h1
  · rw [List.mem_singleton]
    constructor
    · intro h
      by_contra h0
      exact hne c (Nat.pos_of_ne_zero h0) h1 h
    · rintro rfl
      rfl
  · have ha := hne (0xD800 + (c - 0x10000) / 0x400) (by omega) (by omega)
    have hb := hne (0xDC00 + (c - 0x10000) % 0x400) (by omega) (by omega)
    simp only [List.mem_cons, ha, hb, List.not_mem_nil, or_false, false_iff]
    omega

/-- A zero byte is a NUL. -/
theorem zero_mem_textEncode (s : JsString) : (0 : UInt8) ∈ textEncode s ↔ (0 : UInt16) ∈ s := by
  obtain ⟨hscalar, hunits⟩ := codePoints_spec s
  have hs : (0 : UInt16) ∈ s ↔ (0 : UInt16) ∈ toWellFormed s := by
    have hcontains := contains_zero_toWellFormed s
    rw [List.contains_eq_mem, List.contains_eq_mem, decide_eq_decide] at hcontains
    exact hcontains.symm
  rw [hs, ← hunits, textEncode, List.mem_flatMap, List.mem_flatMap]
  constructor
  · rintro ⟨c, hc, h⟩
    exact ⟨c, hc, (zero_mem_utf16 (hscalar c hc)).mpr ((zero_mem_utf8 (hscalar c hc)).mp h)⟩
  · rintro ⟨c, hc, h⟩
    exact ⟨c, hc, (zero_mem_utf8 (hscalar c hc)).mpr ((zero_mem_utf16 (hscalar c hc)).mp h)⟩

theorem utf8Decode_textEncode_iff {s : JsString} :
    utf8Decode (textEncode s) = some s ↔ WellFormed s := by
  rw [utf8Decode, utf8Decoder_encode, Option.some.injEq, wellFormed_iff]

/-- **What the test lets through.** -/
theorem hasPostgresUnsafeText_eq_false {s : JsString} :
    hasPostgresUnsafeText s = false ↔ 0 ∉ s ∧ WellFormed s := by
  rw [hasPostgresUnsafeText, Bool.or_eq_false_iff, hasLoneSurrogate_iff, List.contains_eq_mem,
    decide_eq_false_iff_not]

/-! ### The strings of a value -/

mutual

def jsonValueHasUnsafeText : JsonValue → Bool
  | .leaf (.string s) => hasPostgresUnsafeText s
  | .leaf _ => false
  | .array items => someItemUnsafe items
  | .object fields => someEntryUnsafe fields

/-- `v.some(jsonValueHasUnsafeText)`. -/
def someItemUnsafe : Items JsString JsonLeaf → Bool
  | .nil => false
  | .cons t rest => jsonValueHasUnsafeText t || someItemUnsafe rest

/-- `Object.entries(v).some(...)`. -/
def someEntryUnsafe : Fields JsString JsonLeaf → Bool
  | .nil => false
  | .cons k t rest => hasPostgresUnsafeText k || jsonValueHasUnsafeText t || someEntryUnsafe rest

end

mutual

/-- The walk tests each leaf and each key. -/
theorem jsonValueHasUnsafeText_eq : ∀ (v : JsonValue), jsonValueHasUnsafeText v = !safeJson v
  | .leaf (.string s) => by
    rw [jsonValueHasUnsafeText, safeJson, Tree.all, safeLeaf, safeText, Bool.not_not]
  | .leaf (.number n) => rfl
  | .leaf (.boolean b) => rfl
  | .leaf .null => rfl
  | .array items => someItemUnsafe_eq items
  | .object fields => someEntryUnsafe_eq fields

theorem someItemUnsafe_eq : ∀ (items : Items JsString JsonLeaf),
    someItemUnsafe items = !items.all safeLeaf safeText
  | .nil => rfl
  | .cons t rest => by
    rw [someItemUnsafe, jsonValueHasUnsafeText_eq t, someItemUnsafe_eq rest, safeJson, Items.all,
      Bool.not_and]

theorem someEntryUnsafe_eq : ∀ (fields : Fields JsString JsonLeaf),
    someEntryUnsafe fields = !fields.all safeLeaf safeText
  | .nil => rfl
  | .cons k t rest => by
    rw [someEntryUnsafe, jsonValueHasUnsafeText_eq t, someEntryUnsafe_eq rest, safeJson,
      Fields.all, Bool.not_and, Bool.not_and, safeText, Bool.not_not]

end

/-- Every key and every string of the value passes the test. -/
theorem jsonValueHasUnsafeText_eq_false {v : JsonValue} :
    jsonValueHasUnsafeText v = false ↔ (∀ k ∈ v.allKeys, hasPostgresUnsafeText k = false) ∧
      ∀ s, .string s ∈ v.leaves → hasPostgresUnsafeText s = false := by
  rw [jsonValueHasUnsafeText_eq, Bool.not_eq_false', safeJson, Tree.all_iff, and_comm]
  refine and_congr (forall₂_congr fun k _ => ?_) ⟨fun h s hs => ?_, fun h l hl => ?_⟩
  · rw [safeText, Bool.not_eq_true']
  · have hsafe := h _ hs
    rwa [safeLeaf, safeText, Bool.not_eq_true'] at hsafe
  · rcases l with s | _ | _ | _
    · rw [safeLeaf, safeText, Bool.not_eq_true']
      exact h s hl
    · rfl
    · rfl
    · rfl

/-- **The text test is exact.** -/
theorem hasPostgresUnsafeText_iff :
    (∀ s : JsString, (hasPostgresUnsafeText s = false ↔ 0 ∉ s ∧ WellFormed s) ∧
      (0 ∉ s ∧ WellFormed s ↔ utf8Decode (textEncode s) = some s ∧ 0 ∉ textEncode s)) ∧
    ∀ v : JsonValue, jsonValueHasUnsafeText v = false ↔
      (∀ k ∈ v.allKeys, 0 ∉ k ∧ WellFormed k) ∧
        ∀ s, .string s ∈ v.leaves → 0 ∉ s ∧ WellFormed s := by
  refine ⟨fun s => ⟨hasPostgresUnsafeText_eq_false, ?_⟩, fun v => ?_⟩
  · rw [utf8Decode_textEncode_iff, zero_mem_textEncode, and_comm]
  · rw [jsonValueHasUnsafeText_eq_false]
    simp only [hasPostgresUnsafeText_eq_false]

/-! ### The depth guard -/

/-- The loop of `exceedsMaxDepth`: an item of the stack is a value with its depth. -/
def exceedsMaxDepth {K L : Type} (value : Tree K L) (maxDepth : ℕ) : Bool :=
  (labelled K L).search (fun n => decide (maxDepth < n.depth)) [⟨value, 0⟩]

theorem exceedsMaxDepth_eq {K L : Type} (value : Tree K L) (maxDepth : ℕ) :
    exceedsMaxDepth value maxDepth = value.exceeds maxDepth 0 := by
  rw [Bool.eq_iff_iff, exceedsMaxDepth, search_height, Tree.exceeds_iff, Nat.zero_add]

example : exceedsMaxDepth (K := ℕ) (.array (.cons (.array (.cons (.leaf 0) .nil)) .nil)) 1 = true ∧
    exceedsMaxDepth (K := ℕ) (.array (.cons (.array (.cons (.leaf 0) .nil)) .nil)) 2 = false := by
  rw [exceedsMaxDepth_eq, exceedsMaxDepth_eq]
  decide

/-- `JsonValueSchema`, with the loop for its guard. -/
theorem jsonValueOk_eq (v : JsonValue) :
    jsonValueOk v = (!exceedsMaxDepth v maxJsonDepth && v.all jsonLeafOk safeText) := by
  rw [exceedsMaxDepth_eq, jsonValueOk]

/-- `EntrySectionsSchema`, with the loop for its guard. -/
theorem sectionsOk_eq (sections : Sections) : sectionsOk sections =
    (!exceedsMaxDepth (.object sections) maxEntryContentDepth &&
      sections.all leafOk keyOk) := by
  rw [exceedsMaxDepth_eq, sectionsOk]

/-! ### Frames -/

mutual

/-- `jsonValueHasUnsafeText` with the frames that are left. -/
def unsafeTextIn : ℕ → JsonValue → Option Bool
  | 0, _ => none
  | _ + 1, .leaf (.string s) => some (hasPostgresUnsafeText s)
  | _ + 1, .leaf _ => some false
  | frames + 1, .array items => unsafeItemIn frames items
  | frames + 1, .object fields => unsafeEntryIn frames fields

/-- `some` stops at the first item that is unsafe. -/
def unsafeItemIn (frames : ℕ) : Items JsString JsonLeaf → Option Bool
  | .nil => some false
  | .cons t rest =>
    (unsafeTextIn frames t).bind fun b => if b then some true else unsafeItemIn frames rest

def unsafeEntryIn (frames : ℕ) : Fields JsString JsonLeaf → Option Bool
  | .nil => some false
  | .cons k t rest =>
    if hasPostgresUnsafeText k then some true
    else (unsafeTextIn frames t).bind fun b => if b then some true else unsafeEntryIn frames rest

end

mutual

/-- `EntryContentSchema` with the frames that are left. -/
def entryContentIn : ℕ → EntryContent → Option Bool
  | 0, _ => none
  | _ + 1, .leaf l => some (leafOk l)
  | frames + 1, .array items => entryItemsIn frames items
  | frames + 1, .object fields => entryRecordIn frames fields

/-- `z.array(EntryContentSchema)`: every item is parsed. -/
def entryItemsIn (frames : ℕ) : Items JsString Leaf → Option Bool
  | .nil => some true
  | .cons t rest =>
    (entryContentIn frames t).bind fun b => (entryItemsIn frames rest).map (b && ·)

/-- `z.record(SafeObjectKeySchema, EntryContentSchema)`. -/
def entryRecordIn (frames : ℕ) : Sections → Option Bool
  | .nil => some true
  | .cons k t rest =>
    (entryContentIn frames t).bind fun b => (entryRecordIn frames rest).map (keyOk k && b && ·)

end

mutual

/-- `encodeContent` with the frames that are left. -/
def encodeContentIn : ℕ → EntryContent → Option JsonEncoded
  | 0, _ => none
  | _ + 1, .leaf l => some (encodeLeaf l)
  | frames + 1, .array items => (encodeItemsIn frames items).map .array
  | frames + 1, .object fields => (encodeEntriesIn frames fields).map .object

def encodeItemsIn (frames : ℕ) : Items JsString Leaf → Option (Items JsString JsonLeaf)
  | .nil => some .nil
  | .cons t rest =>
    (encodeContentIn frames t).bind fun t' => (encodeItemsIn frames rest).map (.cons t')

def encodeEntriesIn (frames : ℕ) : Sections → Option (Fields JsString JsonLeaf)
  | .nil => some .nil
  | .cons k t rest =>
    (encodeContentIn frames t).bind fun t' => (encodeEntriesIn frames rest).map (.cons k t')

end

mutual

/-- As many frames as the value has levels are enough. -/
theorem unsafeTextIn_eq {frames : ℕ} : ∀ (v : JsonValue), v.height ≤ frames →
    unsafeTextIn (frames + 1) v = some (jsonValueHasUnsafeText v)
  | .leaf (.string s), _ => by rw [unsafeTextIn, jsonValueHasUnsafeText]
  | .leaf (.number n), _ => rfl
  | .leaf (.boolean b), _ => rfl
  | .leaf .null, _ => rfl
  | .array items, h => by
    rw [unsafeTextIn, jsonValueHasUnsafeText]
    exact unsafeItemIn_eq items h
  | .object fields, h => by
    rw [unsafeTextIn, jsonValueHasUnsafeText]
    exact unsafeEntryIn_eq fields h

theorem unsafeItemIn_eq {frames : ℕ} : ∀ (items : Items JsString JsonLeaf),
    items.height ≤ frames → unsafeItemIn frames items = some (someItemUnsafe items)
  | .nil, _ => rfl
  | .cons t rest, h => by
    rw [Items.height, Nat.max_le] at h
    obtain ⟨n, rfl⟩ : ∃ n, frames = n + 1 := ⟨frames - 1, by omega⟩
    have ht := unsafeTextIn_eq t (Nat.le_of_succ_le_succ h.1)
    rw [unsafeItemIn, someItemUnsafe, ht, Option.bind_some, unsafeItemIn_eq rest h.2]
    cases jsonValueHasUnsafeText t <;> rfl

theorem unsafeEntryIn_eq {frames : ℕ} : ∀ (fields : Fields JsString JsonLeaf),
    fields.height ≤ frames → unsafeEntryIn frames fields = some (someEntryUnsafe fields)
  | .nil, _ => rfl
  | .cons k t rest, h => by
    rw [Fields.height, Nat.max_le] at h
    obtain ⟨n, rfl⟩ : ∃ n, frames = n + 1 := ⟨frames - 1, by omega⟩
    have ht := unsafeTextIn_eq t (Nat.le_of_succ_le_succ h.1)
    rw [unsafeEntryIn, someEntryUnsafe, ht, Option.bind_some, unsafeEntryIn_eq rest h.2]
    cases hasPostgresUnsafeText k <;> cases jsonValueHasUnsafeText t <;> rfl

end

mutual

theorem entryContentIn_eq {frames : ℕ} : ∀ (v : EntryContent), v.height ≤ frames →
    entryContentIn (frames + 1) v = some (v.all leafOk keyOk)
  | .leaf l, _ => rfl
  | .array items, h => by
    rw [entryContentIn, Tree.all]
    exact entryItemsIn_eq items h
  | .object fields, h => by
    rw [entryContentIn, Tree.all]
    exact entryRecordIn_eq fields h

theorem entryItemsIn_eq {frames : ℕ} : ∀ (items : Items JsString Leaf),
    items.height ≤ frames → entryItemsIn frames items = some (items.all leafOk keyOk)
  | .nil, _ => rfl
  | .cons t rest, h => by
    rw [Items.height, Nat.max_le] at h
    obtain ⟨n, rfl⟩ : ∃ n, frames = n + 1 := ⟨frames - 1, by omega⟩
    have ht := entryContentIn_eq t (Nat.le_of_succ_le_succ h.1)
    rw [entryItemsIn, Items.all, ht, Option.bind_some, entryItemsIn_eq rest h.2, Option.map_some]

theorem entryRecordIn_eq {frames : ℕ} : ∀ (fields : Sections),
    fields.height ≤ frames → entryRecordIn frames fields = some (fields.all leafOk keyOk)
  | .nil, _ => rfl
  | .cons k t rest, h => by
    rw [Fields.height, Nat.max_le] at h
    obtain ⟨n, rfl⟩ : ∃ n, frames = n + 1 := ⟨frames - 1, by omega⟩
    have ht := entryContentIn_eq t (Nat.le_of_succ_le_succ h.1)
    rw [entryRecordIn, Fields.all, ht, Option.bind_some, entryRecordIn_eq rest h.2,
      Option.map_some]

end

mutual

theorem encodeContentIn_eq {frames : ℕ} : ∀ (v : EntryContent), v.height ≤ frames →
    encodeContentIn (frames + 1) v = some (encodeContent v)
  | .leaf l, _ => rfl
  | .array items, h => by
    rw [encodeContentIn, encodeItemsIn_eq items h]
    rfl
  | .object fields, h => by
    rw [encodeContentIn, encodeEntriesIn_eq fields h]
    rfl

theorem encodeItemsIn_eq {frames : ℕ} : ∀ (items : Items JsString Leaf),
    items.height ≤ frames → encodeItemsIn frames items = some (items.bind encodeLeaf)
  | .nil, _ => rfl
  | .cons t rest, h => by
    rw [Items.height, Nat.max_le] at h
    obtain ⟨n, rfl⟩ : ∃ n, frames = n + 1 := ⟨frames - 1, by omega⟩
    have ht := encodeContentIn_eq t (Nat.le_of_succ_le_succ h.1)
    rw [encodeItemsIn, Items.bind, ht, Option.bind_some, encodeItemsIn_eq rest h.2,
      Option.map_some, encodeContent]

theorem encodeEntriesIn_eq {frames : ℕ} : ∀ (fields : Sections),
    fields.height ≤ frames → encodeEntriesIn frames fields = some (encodeSections fields)
  | .nil, _ => rfl
  | .cons k t rest, h => by
    rw [Fields.height, Nat.max_le] at h
    obtain ⟨n, rfl⟩ : ∃ n, frames = n + 1 := ⟨frames - 1, by omega⟩
    have ht := encodeContentIn_eq t (Nat.le_of_succ_le_succ h.1)
    rw [encodeEntriesIn, encodeSections, Fields.bind, ht, Option.bind_some,
      encodeEntriesIn_eq rest h.2, Option.map_some, encodeContent, encodeSections]

end

/-- **Behind the guard.** -/
theorem guarded_frames {maxDepth : ℕ} :
    (∀ v : JsonValue, exceedsMaxDepth v maxDepth = false →
      unsafeTextIn (maxDepth + 1) v = some (jsonValueHasUnsafeText v)) ∧
    ∀ v : EntryContent, exceedsMaxDepth v maxDepth = false →
      entryContentIn (maxDepth + 1) v = some (v.all leafOk keyOk) ∧
        encodeContentIn (maxDepth + 1) v = some (encodeContent v) := by
  have hheight : ∀ {L : Type} {v : Tree JsString L}, exceedsMaxDepth v maxDepth = false →
      v.height ≤ maxDepth := by
    intro L v h
    rw [exceedsMaxDepth, Bool.eq_false_iff, Ne, search_height] at h
    exact Nat.le_of_not_lt h
  exact ⟨fun v h => unsafeTextIn_eq v (hheight h),
    fun v h => ⟨entryContentIn_eq v (hheight h), encodeContentIn_eq v (hheight h)⟩⟩

/-- **The depth guard computes the height**, and bounds the recursion behind it. -/
theorem exceedsMaxDepth_iff (maxDepth : ℕ) :
    (∀ (K L : Type) (value : Tree K L),
      exceedsMaxDepth value maxDepth = true ↔ maxDepth < value.height) ∧
    (∀ v : JsonValue, exceedsMaxDepth v maxDepth = false →
      unsafeTextIn (maxDepth + 1) v = some (jsonValueHasUnsafeText v)) ∧
    ∀ v : EntryContent, exceedsMaxDepth v maxDepth = false →
      entryContentIn (maxDepth + 1) v = some (v.all leafOk keyOk) ∧
        encodeContentIn (maxDepth + 1) v = some (encodeContent v) :=
  ⟨fun _ _ value => search_height value, guarded_frames⟩

end UmbraDB.Boundary.Values
