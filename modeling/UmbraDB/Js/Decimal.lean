import UmbraDB.Js.Number
import Mathlib.Data.Int.Log
import Mathlib.Data.Rat.Floor

/-! # Decimal texts of numbers

The number that a numeral of JSON stands for, which is the double nearest to its value, and
`Number.prototype.toString`, which writes the fewest digits that are read back as the number. -/

namespace UmbraDB.Js.Decimal

open UmbraDB.Js.Text UmbraDB.Js.Numerals UmbraDB.Js.Number

/-- The integer nearest to a non-negative rational, the even one of two. -/
def roundHalfEven (q : ℚ) : ℕ :=
  let low := q.num.toNat / q.den
  let rest := q.num.toNat % q.den
  if q.den < 2 * rest ∨ q.den = 2 * rest ∧ low % 2 = 1 then low + 1 else low

/-- The distance of the doubles around a positive rational. -/
def ulp (q : ℚ) : ℚ := 2 ^ max (Int.log 2 q - 52) (-1074)

/-- The double nearest to a non-negative rational; `none` is the infinity. -/
def nearestDouble (q : ℚ) : Option ℚ :=
  let value := roundHalfEven (q / ulp q) * ulp q
  if value < 2 ^ 1024 then some value else none

/-- The number of a value with a sign. -/
def numberOf (negative : Bool) (q : ℚ) : JsNumber :=
  match nearestDouble q with
  | none => .nonFinite
  | some value =>
    if negative then if value = 0 then .negZero else .finite (-value) else .finite value

/-! ### Numerals of JSON -/

/-- The exponent of a numeral: `[eE][+-]?\d+`, or nothing. -/
def exponentPart : JsString → Option ℤ
  | [] => some 0
  | e :: rest =>
    if e = 0x65 ∨ e = 0x45 then
      let digits := if rest.head? = some 0x2B ∨ rest.head? = some 0x2D then rest.tail else rest
      if digits ≠ [] ∧ digits.all isDigit then
        some (if rest.head? = some 0x2D then -(readNat digits : ℤ) else readNat digits)
      else none
    else none

/-- The fraction of a numeral, `\.\d+` or nothing, and what follows it. -/
def fractionPart : JsString → Option (JsString × JsString)
  | 0x2E :: rest =>
    if rest.takeWhile isDigit ≠ [] then
      some (rest.takeWhile isDigit, rest.dropWhile isDigit)
    else none
  | rest => some ([], rest)

/-- The value of a numeral without a sign. -/
def unsignedNumeral (text : JsString) : Option ℚ := do
  let digits := text.takeWhile isDigit
  if digits = [] ∨ (digits.head? = some 0x30 ∧ digits ≠ [0x30]) then none
  else
    let (fraction, rest) ← fractionPart (text.dropWhile isDigit)
    let exponent ← exponentPart rest
    return (readNat (digits ++ fraction) : ℚ) * 10 ^ (exponent - fraction.length)

/-- The number that a numeral of JSON denotes. -/
def numeral : JsString → Option JsNumber
  | 0x2D :: text => (unsignedNumeral text).map (numberOf true)
  | text => (unsignedNumeral text).map (numberOf false)

/-! ### `Number.prototype.toString` -/

/-- The power of ten just above a positive rational. -/
def decimalExponent (q : ℚ) : ℤ := Int.log 10 q + 1

/-- `k` digits `s` and an exponent `n` such that `s * 10 ^ (n - k)` is near to the number. -/
def digitsNear (q : ℚ) (k : ℕ) : ℕ × ℤ :=
  let n := decimalExponent q
  let s := roundHalfEven (q * 10 ^ (k - n))
  if s = 10 ^ k then (10 ^ (k - 1), n + 1) else (s, n)

/-- The digits are read back as the number. -/
def readsBack (q : ℚ) (k : ℕ) : Bool :=
  nearestDouble ((digitsNear q k).1 * 10 ^ ((digitsNear q k).2 - k)) == some q

/-- A number of digits that is enough to write a double exactly. -/
def exactDigits (q : ℚ) : ℕ := (natText (q.num.toNat * 5 ^ Nat.log 2 q.den)).length

/-- The least number of digits that are read back as the number. -/
def digitCount (q : ℚ) : ℕ :=
  (((List.range (exactDigits q)).map (· + 1)).find? (readsBack q)).getD (exactDigits q)

/-- The text of a positive number. -/
def positiveText (q : ℚ) : JsString :=
  let k := digitCount q
  let (s, n) := digitsNear q k
  let digits := natText s
  if k ≤ n ∧ n ≤ 21 then digits ++ List.replicate (n.toNat - k) 0x30
  else if 0 < n ∧ n ≤ 21 then digits.take n.toNat ++ [0x2E] ++ digits.drop n.toNat
  else if -6 < n ∧ n ≤ 0 then ascii "0." ++ List.replicate n.natAbs 0x30 ++ digits
  else
    digits.take 1 ++ (if k = 1 then [] else [0x2E]) ++ digits.drop 1 ++
      (if n - 1 < 0 then ascii "e-" else ascii "e+") ++ natText (n - 1).natAbs

/-- `Number.prototype.toString` of a finite number. -/
def finiteText (q : ℚ) : JsString :=
  if q = 0 then ascii "0" else if q < 0 then 0x2D :: positiveText (-q) else positiveText q

/-! ### The units of the texts -/

theorem plainUnit_of_isDigit {u : UInt16} (h : isDigit u = true) : plainUnit u = true := by
  simp only [isDigit, Bool.and_eq_true, decide_eq_true_eq] at h
  have h1 : (0xD800 : UInt16).toNat = 0xD800 := rfl
  have h2 : (0xDC00 : UInt16).toNat = 0xDC00 := rfl
  simp only [plainUnit, isHighSurrogate, isLowSurrogate, UInt16.le_iff_toNat_le, Bool.not_and,
    Bool.and_eq_true, Bool.or_eq_true, Bool.not_eq_true', decide_eq_false_iff_not]
  omega

/-- The units of the text of a number are digits, the point, `e` and the signs. -/
theorem finiteText_units {p : UInt16 → Bool} (hdigit : ∀ u, isDigit u = true → p u = true)
    (hmark : ∀ u ∈ [0x2E, 0x65, 0x2B, 0x2D], p u = true) (q : ℚ) :
    (finiteText q).all p = true := by
  have hzero : ∀ n, ∀ u ∈ List.replicate n (0x30 : UInt16), p u = true := by
    intro n u hu
    rw [List.eq_of_mem_replicate hu]
    exact hdigit _ (by decide)
  have hpoint : p 0x2E = true := hmark _ (by simp)
  have hsigns : ∀ s ∈ [ascii "0.", ascii "e-", ascii "e+", [0x2E], []], ∀ u ∈ s, p u = true := by
    have hzeroDigit : p 0x30 = true := hdigit _ (by decide)
    have he : p 0x65 = true := hmark _ (by simp)
    have hplus : p 0x2B = true := hmark _ (by simp)
    have hminus : p 0x2D = true := hmark _ (by simp)
    have h1 : ascii "0." = [0x30, 0x2E] := by decide
    have h2 : ascii "e-" = [0x65, 0x2D] := by decide
    have h3 : ascii "e+" = [0x65, 0x2B] := by decide
    simp [h1, h2, h3, hpoint, hzeroDigit, he, hplus, hminus]
  have hpositive : ∀ q : ℚ, ∀ u ∈ positiveText q, p u = true := by
    intro q u hu
    have hdigits : ∀ n, u ∈ natText n → p u = true := fun n h => hdigit u (natText_digits n u h)
    have htake : ∀ n k, u ∈ (natText n).take k → p u = true :=
      fun n k h => hdigits n (List.mem_of_mem_take h)
    have hdrop : ∀ n k, u ∈ (natText n).drop k → p u = true :=
      fun n k h => hdigits n (List.mem_of_mem_drop h)
    unfold positiveText at hu
    simp only at hu
    split_ifs at hu <;> simp only [List.mem_append, or_assoc] at hu
    · rcases hu with h | h
      exacts [hdigits _ h, hzero _ u h]
    · rcases hu with h | h | h
      exacts [htake _ _ h, hsigns _ (by simp) u h, hdrop _ _ h]
    · rcases hu with h | h | h
      exacts [hsigns _ (by simp) u h, hzero _ u h, hdigits _ h]
    all_goals
      rcases hu with h | h | h | h | h
      exacts [htake _ _ h, hsigns _ (by simp) u h, hdrop _ _ h, hsigns _ (by simp) u h,
        hdigits _ h]
  rw [List.all_eq_true]
  intro u hu
  unfold finiteText at hu
  split_ifs at hu
  · have h0 : ascii "0" = [0x30] := by decide
    rw [h0, List.mem_singleton] at hu
    rw [hu]
    exact hdigit _ (by decide)
  · rcases List.mem_cons.mp hu with rfl | hu
    · exact hmark _ (by simp)
    · exact hpositive (-q) u hu
  · exact hpositive q u hu

theorem finiteText_plain (q : ℚ) : (finiteText q).all plainUnit = true :=
  finiteText_units (fun _ => plainUnit_of_isDigit) (List.all_eq_true.mp (by decide)) q

end UmbraDB.Js.Decimal
