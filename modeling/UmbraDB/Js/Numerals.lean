import UmbraDB.Js.Text
import Mathlib.Data.Nat.Digits.Lemmas
import Mathlib.Tactic.Ring

/-! # Decimal numerals

`BigInt.prototype.toString` with the strict parser of the history storage, and the zero-padded
numerals of `Date.prototype.toISOString`. -/

namespace UmbraDB.Js.Numerals

open UmbraDB.Js.Text

/-- The code unit of a decimal digit. -/
def digit (d : ℕ) : UInt16 := UInt16.ofNat (48 + d)

def digitValue (u : UInt16) : ℕ := u.toNat - 48

/-- `\d`. -/
def isDigit (u : UInt16) : Bool := decide (48 ≤ u.toNat) && decide (u.toNat ≤ 57)

/-- The number that the digits stand for, the most significant first. -/
def readNat (s : JsString) : ℕ := s.foldl (fun n u => 10 * n + digitValue u) 0

theorem toNat_digit {d : ℕ} (h : d < 10) : (digit d).toNat = 48 + d := by
  have hsize : UInt16.size = 65536 := rfl
  rw [digit, UInt16.toNat_ofNat_of_lt' (by omega)]

theorem digitValue_digit {d : ℕ} (h : d < 10) : digitValue (digit d) = d := by
  rw [digitValue, toNat_digit h]
  omega

theorem isDigit_digit {d : ℕ} (h : d < 10) : isDigit (digit d) = true := by
  rw [isDigit, toNat_digit h]
  simp only [Bool.and_eq_true, decide_eq_true_eq]
  omega

theorem readNat_concat (s : JsString) (u : UInt16) :
    readNat (s ++ [u]) = 10 * readNat s + digitValue u := by
  rw [readNat, List.foldl_append]
  rfl

/-! ### Numerals of a fixed width -/

/-- The last `w` digits of the number. -/
def pad : ℕ → ℕ → JsString
  | 0, _ => []
  | w + 1, n => pad w (n / 10) ++ [digit (n % 10)]

theorem length_pad : ∀ (w n : ℕ), (pad w n).length = w
  | 0, _ => rfl
  | w + 1, n => by rw [pad, List.length_append, length_pad w]; rfl

theorem readNat_pad : ∀ (w n : ℕ), n < 10 ^ w → readNat (pad w n) = n
  | 0, n, h => by
    have : n = 0 := by simpa using h
    rw [this]
    rfl
  | w + 1, n, h => by
    have hlt : n / 10 < 10 ^ w := by
      rw [pow_succ] at h
      omega
    rw [pad, readNat_concat, readNat_pad w _ hlt, digitValue_digit (by omega)]
    omega

/-! ### Integers -/

/-- The digits without leading zeros. -/
def natText (n : ℕ) : JsString :=
  if n = 0 then [digit 0] else ((Nat.digits 10 n).map digit).reverse

/-- `BigInt.prototype.toString`. -/
def bigintText (i : ℤ) : JsString :=
  if i < 0 then 45 :: natText i.natAbs else natText i.natAbs

/-- `(0|[1-9]\d*)` and the number it stands for. -/
def readCanonicalNat (s : JsString) : Option ℕ :=
  match s with
  | [] => none
  | u :: rest =>
    if isDigit u && rest.all isDigit && (u != digit 0 || rest.isEmpty) then some (readNat s)
    else none

/-- `CANONICAL_BIGINT_RE.test(raw)`, and then `BigInt(raw)`. -/
def parseStoredBigint (raw : JsString) : Option ℤ :=
  if raw.head? = some 45 then (readCanonicalNat raw.tail).map fun n : ℕ => -(n : ℤ)
  else (readCanonicalNat raw).map fun n : ℕ => (n : ℤ)

theorem readNat_reverse_digits : ∀ (ds : List ℕ), (∀ d ∈ ds, d < 10) →
    readNat (ds.map digit).reverse = Nat.ofDigits 10 ds
  | [], _ => rfl
  | d :: ds, h => by
    rw [List.map_cons, List.reverse_cons, readNat_concat, readNat_reverse_digits ds
      fun d' hd' => h d' (by simp [hd']), digitValue_digit (h d (by simp)), Nat.ofDigits_cons]
    omega

theorem readNat_natText (n : ℕ) : readNat (natText n) = n := by
  unfold natText
  split
  · next h => rw [h]; decide
  · rw [readNat_reverse_digits _ fun d hd => Nat.digits_lt_base (by omega) hd, Nat.ofDigits_digits]

theorem natText_digits (n : ℕ) : ∀ u ∈ natText n, isDigit u = true := by
  intro u hu
  unfold natText at hu
  split at hu
  · obtain rfl := List.mem_singleton.mp hu
    decide
  · obtain ⟨d, hd, rfl⟩ := List.mem_map.mp (List.mem_reverse.mp hu)
    exact isDigit_digit (Nat.digits_lt_base (by omega) hd)

theorem natText_injective {m n : ℕ} (h : natText m = natText n) : m = n := by
  rw [← readNat_natText m, h, readNat_natText]

/-- Digits end where something else comes. -/
theorem digits_append_inj {v : UInt16} (hv : isDigit v = false) {x y : JsString} :
    ∀ {a b : JsString}, (∀ u ∈ a, isDigit u = true) → (∀ u ∈ b, isDigit u = true) →
      a ++ v :: x = b ++ v :: y → a = b ∧ x = y
  | [], [], _, _, h => ⟨rfl, (List.cons.inj h).2⟩
  | [], u :: b, _, hb, h => by
    have hu := hb u List.mem_cons_self
    rw [← (List.cons.inj h).1, hv] at hu
    cases hu
  | u :: a, [], ha, _, h => by
    have hu := ha u List.mem_cons_self
    rw [(List.cons.inj h).1, hv] at hu
    cases hu
  | u :: a, w :: b, ha, hb, h => by
    obtain ⟨rfl, htail⟩ := List.cons.inj h
    obtain ⟨rfl, hxy⟩ := digits_append_inj hv (fun u hu => ha u (List.mem_cons_of_mem _ hu))
      (fun u hu => hb u (List.mem_cons_of_mem _ hu)) htail
    exact ⟨rfl, hxy⟩

theorem digit_ne_zero {d : ℕ} (h : d < 10) (h0 : d ≠ 0) : digit d ≠ digit 0 := by
  intro e
  have := congrArg UInt16.toNat e
  rw [toNat_digit h, toNat_digit (by omega)] at this
  omega

theorem readCanonicalNat_natText (n : ℕ) : readCanonicalNat (natText n) = some n := by
  have hread := readNat_natText n
  have hdigits : (natText n).all isDigit = true := List.all_eq_true.mpr (natText_digits n)
  rcases hs : natText n with _ | ⟨u, rest⟩
  · -- the text is not empty
    unfold natText at hs
    split at hs
    · cases hs
    · next h => exact absurd (by simpa using hs) (Nat.digits_ne_nil_iff_ne_zero.mpr h)
  · have hlead : (u != digit 0 || rest.isEmpty) = true := by
      unfold natText at hs
      split at hs
      · cases hs
        rfl
      · next h =>
        have hne : (Nat.digits 10 n) ≠ [] := Nat.digits_ne_nil_iff_ne_zero.mpr h
        have hhead : u = digit ((Nat.digits 10 n).getLast hne) := by
          have := congrArg List.head? hs
          rw [List.head?_reverse, List.getLast?_map, List.getLast?_eq_getLast_of_ne_nil hne] at this
          simpa using this.symm
        have hlt : (Nat.digits 10 n).getLast hne < 10 :=
          Nat.digits_lt_base (by omega) (List.getLast_mem hne)
        rw [hhead, bne_iff_ne.mpr (digit_ne_zero hlt (Nat.getLast_digit_ne_zero 10 h))]
        rfl
    rw [hs] at hread hdigits
    rw [List.all_cons] at hdigits
    rw [readCanonicalNat, hdigits, hlead, hread]
    rfl

/-- What `toString` writes is read back. -/
theorem parseStoredBigint_bigintText (i : ℤ) : parseStoredBigint (bigintText i) = some i := by
  have hcanon := readCanonicalNat_natText i.natAbs
  unfold bigintText
  split
  · rw [parseStoredBigint, List.head?_cons, if_pos rfl, List.tail_cons, hcanon]
    simp only [Option.map_some, Option.some.injEq]
    omega
  · have hhead : (natText i.natAbs).head? ≠ some 45 := by
      intro h
      rcases hs : natText i.natAbs with _ | ⟨u, rest⟩
      · rw [hs] at h
        cases h
      · rw [hs] at h hcanon
        cases h
        have hno : isDigit 45 = false := by decide
        rw [readCanonicalNat, hno] at hcanon
        cases hcanon
    rw [parseStoredBigint, if_neg hhead, hcanon]
    simp only [Option.map_some, Option.some.injEq]
    omega

/-- Canonical digits are those that `toString` writes. -/
theorem natText_readCanonicalNat {s : JsString} {n : ℕ} (h : readCanonicalNat s = some n) :
    natText n = s := by
  rcases s with _ | ⟨u, rest⟩
  · cases h
  rw [readCanonicalNat] at h
  split_ifs at h with hc
  simp only [Bool.and_eq_true, Bool.or_eq_true, bne_iff_ne, List.isEmpty_iff] at hc
  obtain ⟨⟨hu, hrest⟩, hlead⟩ := hc
  cases h
  have hall : ∀ v ∈ u :: rest, isDigit v = true := by
    intro v hv
    rcases List.mem_cons.mp hv with rfl | hv
    · exact hu
    · exact List.all_eq_true.mp hrest v hv
  have hdigit : ∀ v ∈ u :: rest, digit (digitValue v) = v := by
    intro v hv
    have hd := hall v hv
    simp only [isDigit, Bool.and_eq_true, decide_eq_true_eq] at hd
    apply UInt16.toNat_inj.mp
    rw [toNat_digit (by unfold digitValue; omega), digitValue]
    omega
  have hlt : ∀ d ∈ ((u :: rest).map digitValue).reverse, d < 10 := by
    intro d hd
    obtain ⟨v, hv, rfl⟩ := List.mem_map.mp (List.mem_reverse.mp hd)
    have hdv := hall v hv
    simp only [isDigit, Bool.and_eq_true, decide_eq_true_eq] at hdv
    unfold digitValue
    omega
  have hback : ((((u :: rest).map digitValue).reverse).map digit).reverse = u :: rest := by
    rw [List.map_reverse, List.reverse_reverse, List.map_map]
    exact (List.map_congr_left hdigit).trans (List.map_id _)
  have hread : readNat (u :: rest) = Nat.ofDigits 10 ((u :: rest).map digitValue).reverse := by
    rw [← readNat_reverse_digits _ hlt, hback]
  by_cases hzero : u = digit 0
  · -- only the text `0` starts with a zero
    rcases hlead with hne | rfl
    · exact absurd hzero hne
    · subst hzero
      decide
  · have hfirst : digitValue u ≠ 0 := by
      intro h0
      apply hzero
      rw [← hdigit u List.mem_cons_self, h0]
    have hpos : readNat (u :: rest) ≠ 0 := by
      intro h0
      rw [hread] at h0
      have hall0 := Nat.digits_zero_of_eq_zero (by norm_num) h0 (digitValue u) (by simp)
      exact hfirst hall0
    have hdigits : Nat.digits 10 (readNat (u :: rest)) =
        ((u :: rest).map digitValue).reverse := by
      rw [hread]
      refine Nat.digits_ofDigits 10 (by norm_num) _ hlt fun hne => ?_
      simpa using hfirst
    rw [natText, if_neg hpos, hdigits, hback]

/-- `-0`, which `CANONICAL_BIGINT_RE` matches and `toString` does not write. -/
def minusZero : JsString := [45, digit 0]

/-- What is read as a bigint, and is not `-0`, is its text. -/
theorem bigintText_parseStoredBigint {raw : JsString} {i : ℤ} (h : parseStoredBigint raw = some i)
    (hz : raw ≠ minusZero) : bigintText i = raw := by
  rw [parseStoredBigint] at h
  split_ifs at h with hsign
  · obtain ⟨n, hn, rfl⟩ := Option.map_eq_some_iff.mp h
    have htext := natText_readCanonicalNat hn
    rcases raw with _ | ⟨u, rest⟩
    · cases hsign
    obtain rfl := Option.some.inj hsign
    rw [List.tail_cons] at htext
    have hn0 : n ≠ 0 := by
      rintro rfl
      exact hz (by rw [← htext]; rfl)
    rw [bigintText, if_pos (by omega), Int.natAbs_neg, Int.natAbs_natCast, htext]
  · obtain ⟨n, hn, rfl⟩ := Option.map_eq_some_iff.mp h
    rw [bigintText, if_neg (by omega), Int.natAbs_natCast, natText_readCanonicalNat hn]

/-- No bigint has the text `-0`. -/
theorem bigintText_ne_minusZero (i : ℤ) : bigintText i ≠ minusZero := by
  intro h
  have hread := parseStoredBigint_bigintText i
  rw [h, show parseStoredBigint minusZero = some 0 by decide] at hread
  obtain rfl := Option.some.inj hread
  exact absurd h (by decide)

end UmbraDB.Js.Numerals
