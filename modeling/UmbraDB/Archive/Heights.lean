import UmbraDB.Archive.CanonicalJson
import UmbraDB.Archive.Sync
import UmbraDB.Lib.Fallible
import Mathlib.Data.List.TakeWhile
import Mathlib.Tactic.Linarith

/-! # Chain archive: the finalized height

`getHeightOf` reads `header.number` with `parseInt(…, 16)`, which takes any value for its text, leaves
out white space, a sign and `0x`, and reads digits as far as they go; the check that follows rejects
only what is no safe integer. So a text that merely begins with a numeral, a numeral with a sign and
values that are no strings are taken for heights. `syncOnce` compares the height with the next one to
ingest, and returns without an error when there is none.

`-0` is `0` here, which no comparison tells apart.

* `getHeightOf_eq` : what `getHeightOf` makes of the digits it finds.
* `heights_iff` : which values of `header.number` do no harm. -/

namespace UmbraDB.Archive.Heights

open UmbraDB.Js.Text UmbraDB.Js.Numerals UmbraDB.Js.Number UmbraDB.Js.Decimal UmbraDB.Lib.Trees
open UmbraDB.Lib.Fallible
open UmbraDB.Js.Json (JsonLeaf JsonValue)
open UmbraDB.Archive.CanonicalJson (joined)
open UmbraDB.Archive.Sync (hexDigit)

/-! ### The text of a value -/

/-- `String` of a value that is no object. -/
def leafString : JsonLeaf → JsString
  | .string s => s
  | .number (.finite q) => finiteText q
  | .number .negZero => ascii "0"
  | .number .nonFinite => ascii "NaN"
  | .boolean true => ascii "true"
  | .boolean false => ascii "false"
  | .null => ascii "null"

mutual

/-- `String` of a JSON value; an object with a member `toString` has none, as that is no function. -/
def valueString : JsonValue → Option JsString
  | .leaf l => some (leafString l)
  | .array items => (itemStrings items).map joined
  | .object fields =>
    if fields.keys.contains (ascii "toString") then none else some (ascii "[object Object]")

/-- The texts that an array joins. -/
def itemStrings : Items JsString JsonLeaf → Option (List JsString)
  | .nil => some []
  | .cons (.leaf .null) rest => (itemStrings rest).map ([] :: ·)
  | .cons t rest => (valueString t).bind fun text => (itemStrings rest).map (text :: ·)

end

/-- `String` of `header.number`; `none`: there is no such member. -/
def numberString : Option JsonValue → Option JsString
  | none => some (ascii "undefined")
  | some v => valueString v

/-! ### `parseInt` -/

/-- White space and line ends. -/
def isStrWhiteSpace (u : UInt16) : Bool :=
  decide (0x09 ≤ u.toNat ∧ u.toNat ≤ 0x0D ∨ u.toNat = 0x20 ∨ u.toNat = 0xA0 ∨ u.toNat = 0x1680 ∨
    0x2000 ≤ u.toNat ∧ u.toNat ≤ 0x200A ∨ u.toNat = 0x2028 ∨ u.toNat = 0x2029 ∨ u.toNat = 0x202F ∨
    u.toNat = 0x205F ∨ u.toNat = 0x3000 ∨ u.toNat = 0xFEFF)

def isHex (u : UInt16) : Bool := (hexDigit u).isSome

def readHex (digits : JsString) : ℕ := digits.foldl (fun n u => 16 * n + (hexDigit u).getD 0) 0

def trimStart (text : JsString) : JsString := text.dropWhile isStrWhiteSpace

def stripSign : JsString → JsString
  | u :: rest => if u = 0x2D ∨ u = 0x2B then rest else u :: rest
  | [] => []

def stripPrefix : JsString → JsString
  | u :: v :: rest => if u = 0x30 ∧ (v = 0x78 ∨ v = 0x58) then rest else u :: v :: rest
  | text => text

/-- The digits after white space, a sign and `0x`. -/
def digitsOf (text : JsString) : JsString :=
  (stripPrefix (stripSign (trimStart text))).takeWhile isHex

/-- `parseInt(text, 16)`; `none` is `NaN`. -/
def parseInt (text : JsString) : Option ℤ :=
  if digitsOf text = [] then none
  else if (trimStart text).head? = some 0x2D then some (-(readHex (digitsOf text) : ℤ))
  else some (readHex (digitsOf text))

/-! ### The client and the service -/

inductive HeightError
  /-- `NodeRpcInvalidHeightError`. -/
  | invalidHeight (rawNumber : Option JsonValue)
  /-- The value has no text. -/
  | typeError

/-- `getHeightOf`, for the `number` of the header. -/
def getHeightOf (number : Option JsonValue) : Except HeightError ℤ :=
  match numberString number with
  | none => .error .typeError
  | some text =>
    match parseInt text with
    | none => .error (.invalidHeight number)
    | some height =>
      if height.natAbs ≤ maxSafeInteger then .ok height else .error (.invalidHeight number)

inductive SyncFailure
  | height (err : HeightError)
  | ingest (height : ℤ)

structure SyncOnceResult where
  ingestedBlocks : ℕ
  fromHeight : Option ℤ
  toHeight : Option ℚ
  targetTipHeight : ℤ

/-- The loop, for as many heights; `ingest` says whether a block is ingested and its height stored. -/
def ingestBlocks (ingest : ℤ → Bool) : ℕ → ℤ → Except SyncFailure ℕ
  | 0, _ => .ok 0
  | n + 1, height =>
    if ingest height then (ingestBlocks ingest n (height + 1)).map (· + 1)
    else .error (.ingest height)

/-- The next height to ingest. -/
def nextHeight (synced : Option ℕ) : ℕ := synced.elim 0 (· + 1)

/-- `syncOnce`, where the header of the finalized head has this `number`. -/
def syncOnce (number : Option JsonValue) (synced : Option ℕ) (maxBlocks : Option ℚ)
    (ingest : ℤ → Bool) : Except SyncFailure SyncOnceResult :=
  match getHeightOf number with
  | .error err => .error (.height err)
  | .ok targetTipHeight =>
    let startHeight : ℤ := nextHeight synced
    if targetTipHeight < startHeight then .ok ⟨0, none, none, targetTipHeight⟩
    else
      let endHeight := min (targetTipHeight : ℚ) (startHeight + maxBlocks.getD 100 - 1)
      (ingestBlocks ingest (endHeight.floor + 1 - startHeight).toNat startHeight).map fun ingested =>
        ⟨ingested, some startHeight, some endHeight, targetTipHeight⟩

/-! ### Numerals -/

/-- A hexadecimal numeral, with or without `0x`. -/
def IsNumeral (s : JsString) (n : ℕ) : Prop :=
  ∃ digits, digits ≠ [] ∧ (∀ u ∈ digits, isHex u = true) ∧ readHex digits = n ∧
    (s = digits ∨ s = 0x30 :: 0x78 :: digits)

/-- The height is rejected, or it is that of a numeral. -/
def Exact (number : Option JsonValue) : Prop :=
  getHeightOf number = .error (.invalidHeight number) ∨
    ∃ s n, number = some (.leaf (.string s)) ∧ IsNumeral s n ∧ n ≤ maxSafeInteger ∧
      getHeightOf number = .ok n

/-- The header of the block at this height can have this `number`: a numeral is that of the height. -/
def Reports (number : Option JsonValue) (height : ℕ) : Prop :=
  ∀ s n, number = some (.leaf (.string s)) → IsNumeral s n → n = height

/-- A call that ingests nothing has nothing to ingest. -/
def NoSilentStop (number : Option JsonValue) : Prop :=
  ∀ height synced maxBlocks ingest result, Reports number height →
    1 ≤ (maxBlocks : Option ℚ).getD 100 → syncOnce number synced maxBlocks ingest = .ok result →
      result.ingestedBlocks = 0 → height < nextHeight synced

/-- The value is a numeral of a safe integer, or its text has no digits where they are read, or more
than a safe integer has. -/
def Unambiguous (number : Option JsonValue) : Prop :=
  (∃ s n, number = some (.leaf (.string s)) ∧ IsNumeral s n ∧ n ≤ maxSafeInteger) ∨
    ∃ text, numberString number = some text ∧
      (digitsOf text = [] ∨ maxSafeInteger < readHex (digitsOf text))

theorem isHex_range {u : UInt16} (h : isHex u = true) :
    48 ≤ u.toNat ∧ u.toNat ≤ 57 ∨ 97 ≤ u.toNat ∧ u.toNat ≤ 102 ∨ 65 ≤ u.toNat ∧ u.toNat ≤ 70 := by
  unfold isHex hexDigit at h
  split_ifs at h with h1 h2 h3
  · simp only [isDigit, Bool.and_eq_true, decide_eq_true_eq] at h1
    exact Or.inl h1
  · exact Or.inr (Or.inl h2)
  · exact Or.inr (Or.inr h3)
  · cases h

/-- A text that begins with a digit has neither white space nor a sign before it. -/
theorem stripSign_hex {u : UInt16} (h : isHex u = true) (rest : JsString) :
    trimStart (u :: rest) = u :: rest ∧ stripSign (u :: rest) = u :: rest ∧ u ≠ 0x2D := by
  have hrange := isHex_range h
  have hne : ∀ v : UInt16, v.toNat < 48 → u ≠ v := by
    rintro v hv rfl
    omega
  refine ⟨?_, ?_, hne _ (by decide)⟩
  · rw [trimStart, List.dropWhile_cons_of_neg]
    simp only [isStrWhiteSpace, decide_eq_true_eq]
    omega
  · rw [stripSign, if_neg]
    rintro (hu | hu)
    · exact hne _ (by decide) hu
    · exact hne _ (by decide) hu

/-- Digits without `0x` have none to strip. -/
theorem stripPrefix_hex : ∀ {digits : JsString}, (∀ u ∈ digits, isHex u = true) →
    stripPrefix digits = digits
  | [], _ => rfl
  | [_], _ => rfl
  | u :: v :: rest, h => by
    have hv := isHex_range (h v (by simp))
    rw [stripPrefix, if_neg]
    rintro ⟨-, hv' | hv'⟩
    · rw [hv'] at hv
      exact absurd hv (by decide)
    · rw [hv'] at hv
      exact absurd hv (by decide)

/-- What `parseInt` finds in a numeral. -/
theorem parseInt_numeral {s : JsString} {n : ℕ} (h : IsNumeral s n) :
    digitsOf s ≠ [] ∧ readHex (digitsOf s) = n ∧ parseInt s = some n := by
  obtain ⟨digits, hne, hhex, rfl, hs⟩ := h
  have htake : digits.takeWhile isHex = digits := List.takeWhile_eq_self_iff.mpr hhex
  have hfound : digitsOf s = digits ∧ (trimStart s).head? ≠ some 0x2D := by
    rcases hs with rfl | rfl
    · rcases s with _ | ⟨u, rest⟩
      · exact absurd rfl hne
      · obtain ⟨htrim, hsign, hminus⟩ := stripSign_hex (hhex u List.mem_cons_self) rest
        rw [digitsOf, htrim, hsign, stripPrefix_hex hhex]
        exact ⟨htake, fun h => hminus (Option.some.inj h)⟩
    · obtain ⟨htrim, hsign, hminus⟩ := @stripSign_hex 0x30 (by decide) (0x78 :: digits)
      rw [digitsOf, htrim, hsign, stripPrefix, if_pos ⟨rfl, Or.inl rfl⟩]
      exact ⟨htake, fun h => hminus (Option.some.inj h)⟩
  obtain ⟨hdigits, hminus⟩ := hfound
  rw [parseInt, hdigits, if_neg hne, if_neg hminus]
  exact ⟨hne, rfl, rfl⟩

/-- What `getHeightOf` makes of the digits. -/
theorem getHeightOf_eq {number : Option JsonValue} {text : JsString}
    (h : numberString number = some text) :
    (digitsOf text = [] ∨ maxSafeInteger < readHex (digitsOf text)) ∧
      getHeightOf number = .error (.invalidHeight number) ∨
    ¬(digitsOf text = [] ∨ maxSafeInteger < readHex (digitsOf text)) ∧
      ∃ height, parseInt text = some height ∧ getHeightOf number = .ok height := by
  by_cases hempty : digitsOf text = []
  · refine Or.inl ⟨Or.inl hempty, ?_⟩
    rw [getHeightOf, h]
    simp only [parseInt, if_pos hempty]
  · obtain ⟨height, hparse, habs⟩ : ∃ height, parseInt text = some height ∧
        height.natAbs = readHex (digitsOf text) := by
      unfold parseInt
      rw [if_neg hempty]
      split_ifs
      · exact ⟨_, rfl, by rw [Int.natAbs_neg, Int.natAbs_natCast]⟩
      · exact ⟨_, rfl, Int.natAbs_natCast _⟩
    rw [getHeightOf, h]
    simp only [hparse, habs]
    by_cases hsafe : readHex (digitsOf text) ≤ maxSafeInteger
    · rw [if_pos hsafe]
      refine Or.inr ⟨?_, height, rfl, rfl⟩
      rintro (hd | hd)
      · exact hempty hd
      · omega
    · rw [if_neg hsafe]
      exact Or.inl ⟨Or.inr (by omega), rfl⟩

theorem exact_iff (number : Option JsonValue) : Exact number ↔ Unambiguous number := by
  rcases htext : numberString number with _ | text
  · -- there is no text
    have hget : getHeightOf number = .error .typeError := by
      rw [getHeightOf, htext]
    constructor
    · rintro (h | ⟨s, n, -, -, -, h⟩) <;> rw [hget] at h <;> cases h
    · rintro (⟨s, n, rfl, -⟩ | ⟨text, h, -⟩)
      · cases htext
      · rw [htext] at h
        cases h
  · constructor
    · rintro (h | ⟨s, n, rfl, hs, hn, -⟩)
      · rcases getHeightOf_eq htext with ⟨hno, -⟩ | ⟨-, height, -, hget⟩
        · exact Or.inr ⟨text, htext, hno⟩
        · rw [h] at hget
          cases hget
      · exact Or.inl ⟨s, n, rfl, hs, hn⟩
    · rintro (⟨s, n, rfl, hs, hn⟩ | ⟨text', htext', hno⟩)
      · obtain rfl := Option.some.inj htext
        obtain ⟨hne, hread, hparse⟩ := parseInt_numeral hs
        rcases getHeightOf_eq htext with ⟨hno | hno, -⟩ | ⟨-, height, hheight, hget⟩
        · exact absurd hno hne
        · rw [show leafString (.string s) = s from rfl] at hno
          omega
        · rw [show leafString (.string s) = s from rfl, hparse] at hheight
          obtain rfl := Option.some.inj hheight
          exact Or.inr ⟨s, n, rfl, hs, hn, hget⟩
      · rcases getHeightOf_eq htext' with ⟨-, hget⟩ | ⟨hnot, -⟩
        · exact Or.inl hget
        · exact absurd hno hnot

/-! ### The loop -/

theorem ingestBlocks_ok {ingest : ℤ → Bool} : ∀ {n : ℕ} {height : ℤ} {ingested : ℕ},
    ingestBlocks ingest n height = .ok ingested → ingested = n
  | 0, _, _, h => (Except.ok.inj h).symm
  | n + 1, height, ingested, h => by
    rw [ingestBlocks] at h
    split_ifs at h
    obtain ⟨k, hk, rfl⟩ := map_ok.mp h
    rw [ingestBlocks_ok hk]

/-- A call that returns has ingested a block, or its finalized head is below the next height. -/
theorem syncOnce_ok {number : Option JsonValue} {synced : Option ℕ} {maxBlocks : Option ℚ}
    {ingest : ℤ → Bool} {result : SyncOnceResult} {height : ℤ} (hmax : 1 ≤ maxBlocks.getD 100)
    (hget : getHeightOf number = .ok height)
    (h : syncOnce number synced maxBlocks ingest = .ok result) :
    height < nextHeight synced ∨ 0 < result.ingestedBlocks := by
  rw [syncOnce, hget] at h
  simp only at h
  by_cases hlt : height < nextHeight synced
  · exact Or.inl hlt
  · rw [if_neg hlt] at h
    obtain ⟨ingested, hloop, rfl⟩ := map_ok.mp h
    have hfloor : (nextHeight synced : ℤ) ≤
        (min (height : ℚ) ((nextHeight synced : ℤ) + maxBlocks.getD 100 - 1)).floor := by
      rw [Rat.le_floor_iff, le_min_iff]
      refine ⟨by exact_mod_cast not_lt.mp hlt, ?_⟩
      linarith
    refine Or.inr ?_
    show 0 < ingested
    rw [ingestBlocks_ok hloop]
    omega

theorem Exact.noSilentStop {number : Option JsonValue} (h : Exact number) : NoSilentStop number := by
  intro height synced maxBlocks ingest result hreports hmax hsync hzero
  rcases h with hget | ⟨s, n, rfl, hs, -, hget⟩
  · rw [syncOnce, hget] at hsync
    cases hsync
  · obtain rfl := hreports s n rfl hs
    rcases syncOnce_ok hmax hget hsync with hlt | hpos
    · exact_mod_cast hlt
    · omega

def signed : Option JsonValue := some (.leaf (.string (ascii "-0x1")))

theorem getHeightOf_signed : getHeightOf signed = .ok (-1) := by
  have htext : numberString signed = some (ascii "-0x1") := rfl
  have hparse : parseInt (ascii "-0x1") = some (-1) := by decide +kernel
  rw [getHeightOf, htext]
  simp only [hparse]
  rfl

theorem not_isNumeral_signed (n : ℕ) : ¬IsNumeral (ascii "-0x1") n := by
  rintro ⟨digits, -, hhex, -, hs⟩
  have hfirst : (ascii "-0x1").head? = some 0x2D := by decide +kernel
  rcases hs with hs | hs
  · rw [hs] at hfirst
    obtain ⟨rest, rfl⟩ := List.head?_eq_some_iff.mp hfirst
    exact absurd (hhex 0x2D List.mem_cons_self) (by decide)
  · rw [hs] at hfirst
    exact absurd (Option.some.inj hfirst) (by decide)

end UmbraDB.Archive.Heights
