import UmbraDB.Js.Numerals
import Mathlib.Algebra.Order.Ring.Rat
import Mathlib.Data.Nat.Log

/-! # Numbers

A number is its value; the texts that the code makes of numbers are those of integers. -/

namespace UmbraDB.Js.Number

/-- A number of the host language. -/
inductive JsNumber
  | finite (value : ℚ)
  | negZero
  /-- `NaN` and the infinities. -/
  | nonFinite
  deriving DecidableEq

/-- The integer that the number is (`Number.isInteger`). -/
def JsNumber.integer : JsNumber → Option ℤ
  | .finite q => if q.den = 1 then some q.num else none
  | .negZero => some 0
  | .nonFinite => none

/-- `Number.MAX_SAFE_INTEGER`. -/
def maxSafeInteger : ℕ := 9007199254740991

/-- The number that is a non-negative safe integer. -/
def JsNumber.safeNat (n : JsNumber) : Option ℕ :=
  n.integer.bind fun i => if 0 ≤ i ∧ i ≤ maxSafeInteger then some i.toNat else none

/-- `Number` of the decimal text of `n`: the nearest number, the even one of two. -/
def numberOfNat (n : ℕ) : ℕ :=
  if n ≤ 2 ^ 53 then n
  else
    let unit := 2 ^ (Nat.log 2 n - 52)
    let low := n / unit
    let rest := n % unit
    if unit < 2 * rest ∨ unit = 2 * rest ∧ low % 2 = 1 then (low + 1) * unit else low * unit

end UmbraDB.Js.Number
