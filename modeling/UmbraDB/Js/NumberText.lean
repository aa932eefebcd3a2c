import UmbraDB.Js.Json
import Mathlib.Algebra.Order.Field.Power
import Mathlib.Data.Nat.Prime.Basic
import Mathlib.Tactic.FieldSimp
import Mathlib.Tactic.Linarith

/-! # A number is read back from its text

`numeral_finiteText` : the text of a double denotes it. The search for the fewest digits ends, at
the latest, at the digits of the exact decimal expansion, and each form of the text (with zeros, a
point, leading zeros or an exponent) has the value of its digits.

`leafReadsBack_finite` : so the leaf of a JSON value that is a double comes back from its text. -/

namespace UmbraDB.Js.NumberText

open UmbraDB.Js.Text UmbraDB.Js.Numerals UmbraDB.Js.Number UmbraDB.Js.Decimal UmbraDB.Js.Json

/-- The rational is the value of a number of the host language. -/
def isDouble (q : ℚ) : Bool := nearestDouble |q| == some |q|

/-! ### Rounding -/

theorem roundHalfEven_natCast (n : ℕ) : roundHalfEven (n : ℚ) = n := by
  have hmod : n % 1 = 0 := Nat.mod_one n
  simp [roundHalfEven, hmod]

theorem natCast_le_iff {q : ℚ} (n : ℕ) : (n : ℚ) ≤ q ↔ (n * q.den : ℤ) ≤ q.num := by
  have hden : (0 : ℚ) < q.den := by exact_mod_cast q.den_pos
  have hq : q = q.num / q.den := (Rat.num_div_den q).symm
  constructor
  · intro h
    rw [hq, le_div_iff₀ hden] at h
    exact_mod_cast h
  · intro h
    rw [hq, le_div_iff₀ hden]
    exact_mod_cast h

theorem le_roundHalfEven {q : ℚ} {n : ℕ} (h : (n : ℚ) ≤ q) : n ≤ roundHalfEven q := by
  have hn := (natCast_le_iff n).mp h
  have hlow : n ≤ q.num.toNat / q.den := by
    rw [Nat.le_div_iff_mul_le q.den_pos]
    omega
  unfold roundHalfEven
  dsimp only
  split_ifs <;> omega

theorem roundHalfEven_le {q : ℚ} {n : ℕ} (h0 : 0 ≤ q) (h : q < n) : roundHalfEven q ≤ n := by
  have hn : ¬ ((n * q.den : ℤ) ≤ q.num) :=
    fun hle => absurd ((natCast_le_iff n).mpr hle) (by linarith)
  have hnum : 0 ≤ q.num := Rat.num_nonneg.mpr h0
  have hlow : q.num.toNat / q.den < n := by
    rw [Nat.div_lt_iff_lt_mul q.den_pos]
    have : ((n * q.den : ℕ) : ℤ) = (n * q.den : ℤ) := by push_cast; rfl
    omega
  unfold roundHalfEven
  dsimp only
  split_ifs <;> omega

/-! ### The digits -/

theorem exponent_bounds {q : ℚ} (hq : 0 < q) :
    (10 : ℚ) ^ (decimalExponent q - 1) ≤ q ∧ q < 10 ^ decimalExponent q := by
  have h1 := Int.zpow_log_le_self (b := 10) (by norm_num) hq
  have h2 := Int.lt_zpow_succ_log_self (b := 10) (by norm_num) q
  rw [decimalExponent, add_sub_cancel_right]
  exact ⟨by exact_mod_cast h1, by exact_mod_cast h2⟩

/-- There are `k` digits. -/
theorem digitsNear_bounds {q : ℚ} {k : ℕ} (hq : 0 < q) (hk : 0 < k) :
    10 ^ (k - 1) ≤ (digitsNear q k).1 ∧ (digitsNear q k).1 < 10 ^ k := by
  obtain ⟨h1, h2⟩ := exponent_bounds hq
  have hscale : (0 : ℚ) < 10 ^ ((k : ℤ) - decimalExponent q) := by positivity
  have hlow : ((10 ^ (k - 1) : ℕ) : ℚ) ≤ q * 10 ^ ((k : ℤ) - decimalExponent q) := by
    have heq : ((10 ^ (k - 1) : ℕ) : ℚ) =
        10 ^ (decimalExponent q - 1) * 10 ^ ((k : ℤ) - decimalExponent q) := by
      rw [← zpow_add₀ (by norm_num), Nat.cast_pow, ← zpow_natCast]
      congr 1
      rw [Nat.cast_sub hk]
      push_cast
      ring
    rw [heq]
    exact mul_le_mul_of_nonneg_right h1 hscale.le
  have hhigh : q * 10 ^ ((k : ℤ) - decimalExponent q) < ((10 ^ k : ℕ) : ℚ) := by
    have heq : ((10 ^ k : ℕ) : ℚ) =
        10 ^ decimalExponent q * 10 ^ ((k : ℤ) - decimalExponent q) := by
      rw [← zpow_add₀ (by norm_num), Nat.cast_pow, ← zpow_natCast]
      congr 1
      ring
    rw [heq]
    exact mul_lt_mul_of_pos_right h2 hscale
  have hlow' := le_roundHalfEven hlow
  have hhigh' := roundHalfEven_le (mul_pos hq hscale).le hhigh
  have hpow : 10 ^ (k - 1) < 10 ^ k := Nat.pow_lt_pow_right (by norm_num) (by omega)
  unfold digitsNear
  dsimp only
  split_ifs with h
  · exact ⟨le_refl _, hpow⟩
  · exact ⟨hlow', lt_of_le_of_ne hhigh' h⟩

theorem exists_den_eq_two_pow {q : ℚ} {m : ℕ} {e : ℤ} (h : q = m * 2 ^ e) :
    ∃ j, q.den = 2 ^ j := by
  rcases e with e | e
  · have hq : q = ((m * 2 ^ e : ℕ) : ℚ) := by
      rw [h, Int.ofNat_eq_natCast, zpow_natCast]
      push_cast
      rfl
    exact ⟨0, by rw [hq, Rat.den_natCast, pow_zero]⟩
  · have hq : q = ((m : ℤ) : ℚ) / ((2 ^ (e + 1) : ℤ) : ℚ) := by
      rw [h, zpow_negSucc]
      push_cast
      rfl
    have hdvd : (q.den : ℤ) ∣ 2 ^ (e + 1) := by
      rw [hq, ← Rat.divInt_eq_div]
      exact Rat.den_dvd _ _
    have hdvd' : q.den ∣ 2 ^ (e + 1) := by exact_mod_cast hdvd
    obtain ⟨j, -, hj⟩ := (Nat.dvd_prime_pow Nat.prime_two).mp hdvd'
    exact ⟨j, hj⟩

theorem nearestDouble_self {q : ℚ} (h : nearestDouble q = some q) : ∃ j, q.den = 2 ^ j := by
  unfold nearestDouble ulp at h
  dsimp only at h
  split_ifs at h
  exact exists_den_eq_two_pow (Option.some.inj h).symm

/-- The digits of the exact decimal expansion. -/
def exactNumerator (q : ℚ) : ℕ := q.num.toNat * 5 ^ Nat.log 2 q.den

theorem exact_expansion {q : ℚ} (hq : 0 < q) (h : nearestDouble q = some q) :
    q = exactNumerator q * 10 ^ (-(Nat.log 2 q.den : ℤ)) := by
  obtain ⟨j, hj⟩ := nearestDouble_self h
  have hlog : Nat.log 2 q.den = j := by rw [hj, Nat.log_pow (by norm_num)]
  have hnum : ((q.num.toNat : ℕ) : ℚ) = q.num := by
    have hz : ((q.num.toNat : ℕ) : ℤ) = q.num := Int.toNat_of_nonneg (Rat.num_nonneg.mpr hq.le)
    exact_mod_cast hz
  have hten : (10 : ℚ) ^ j = 2 ^ j * 5 ^ j := by rw [← mul_pow]; norm_num
  have hden : (q.den : ℚ) = 2 ^ j := by rw [hj]; push_cast; rfl
  rw [exactNumerator, hlog, zpow_neg, zpow_natCast, hten]
  push_cast
  rw [hnum]
  calc q = q.num / q.den := (Rat.num_div_den q).symm
    _ = q.num / 2 ^ j := by rw [hden]
    _ = q.num * 5 ^ j * (2 ^ j * 5 ^ j)⁻¹ := by field_simp

theorem natText_length {s k : ℕ} (hk : 0 < k) (h : 10 ^ (k - 1) ≤ s) (h' : s < 10 ^ k) :
    (natText s).length = k := by
  have hs : s ≠ 0 := by
    have : 0 < 10 ^ (k - 1) := by positivity
    omega
  have hlog : Nat.log 10 s = k - 1 := by
    rw [Nat.log_eq_iff (by omega)]
    exact ⟨h, by rwa [Nat.sub_add_cancel hk]⟩
  rw [natText, if_neg hs, List.length_reverse, List.length_map,
    Nat.length_digits 10 s (by norm_num) hs, hlog]
  omega

theorem natText_length_bounds {s : ℕ} (hs : s ≠ 0) :
    0 < (natText s).length ∧ 10 ^ ((natText s).length - 1) ≤ s ∧ s < 10 ^ (natText s).length := by
  have hlen : (natText s).length = Nat.log 10 s + 1 := by
    rw [natText, if_neg hs, List.length_reverse, List.length_map,
      Nat.length_digits 10 s (by norm_num) hs]
  rw [hlen]
  exact ⟨by omega, Nat.pow_log_le_self 10 hs, Nat.lt_pow_succ_log_self (by norm_num) s⟩

/-- The digits of the exact expansion are read back. -/
theorem readsBack_exact {q : ℚ} (hq : 0 < q) (h : nearestDouble q = some q) :
    0 < exactDigits q ∧ readsBack q (exactDigits q) = true := by
  have hexact := exact_expansion hq h
  have hN : exactNumerator q ≠ 0 := by
    intro h0
    rw [h0] at hexact
    simp at hexact
    linarith
  obtain ⟨hpos, hlow, hhigh⟩ := natText_length_bounds hN
  have hk : exactDigits q = (natText (exactNumerator q)).length := rfl
  rw [← hk] at hpos hlow hhigh
  set k := exactDigits q with hkdef
  set N := exactNumerator q
  set j : ℤ := (Nat.log 2 q.den : ℤ)
  have hexp : decimalExponent q = k - j := by
    obtain ⟨h1, h2⟩ := exponent_bounds hq
    have hl : (10 : ℚ) ^ ((k : ℤ) - 1 - j) ≤ q := by
      have hl' : ((10 ^ (k - 1) : ℕ) : ℚ) ≤ N := by exact_mod_cast hlow
      have hz : (10 : ℚ) ^ ((k : ℤ) - 1 - j) = ((10 ^ (k - 1) : ℕ) : ℚ) * 10 ^ (-j) := by
        rw [sub_eq_add_neg _ j, zpow_add₀ (by norm_num), Nat.cast_pow, ← zpow_natCast,
          Nat.cast_sub hpos]
        norm_num
      rw [hz, hexact]
      exact mul_le_mul_of_nonneg_right hl' (by positivity)
    have hu : q < (10 : ℚ) ^ ((k : ℤ) - j) := by
      have hu' : (N : ℚ) < ((10 ^ k : ℕ) : ℚ) := by exact_mod_cast hhigh
      have hz : (10 : ℚ) ^ ((k : ℤ) - j) = ((10 ^ k : ℕ) : ℚ) * 10 ^ (-j) := by
        rw [sub_eq_add_neg _ j, zpow_add₀ (by norm_num), Nat.cast_pow, ← zpow_natCast]
        norm_num
      rw [hz, hexact]
      exact mul_lt_mul_of_pos_right hu' (by positivity)
    have ha := (zpow_lt_zpow_iff_right₀ (by norm_num : (1 : ℚ) < 10)).mp (lt_of_le_of_lt hl h2)
    have hb := (zpow_lt_zpow_iff_right₀ (by norm_num : (1 : ℚ) < 10)).mp (lt_of_le_of_lt h1 hu)
    omega
  have hscaled : q * 10 ^ ((k : ℤ) - decimalExponent q) = N := by
    rw [hexp, sub_sub_cancel]
    nth_rewrite 1 [hexact]
    rw [mul_assoc, ← zpow_add₀ (by norm_num), neg_add_cancel, zpow_zero, mul_one]
  have hnear : digitsNear q k = (N, decimalExponent q) := by
    unfold digitsNear
    dsimp only
    rw [hscaled, roundHalfEven_natCast, if_neg (by omega)]
  refine ⟨hpos, ?_⟩
  rw [readsBack, hnear]
  have hvalue : (N : ℚ) * 10 ^ (decimalExponent q - k) = q := by
    rw [hexp, show (k : ℤ) - j - k = -j by ring]
    exact hexact.symm
  simp [hvalue, h]

/-- **The digits that are written are read back.** -/
theorem readsBack_digitCount {q : ℚ} (hq : 0 < q) (h : nearestDouble q = some q) :
    0 < digitCount q ∧ readsBack q (digitCount q) = true := by
  obtain ⟨hpos, hexact⟩ := readsBack_exact hq h
  unfold digitCount
  rcases hf : ((List.range (exactDigits q)).map (· + 1)).find? (readsBack q) with _ | k
  · exact ⟨hpos, hexact⟩
  · have hmem := List.mem_of_find?_eq_some hf
    obtain ⟨i, -, rfl⟩ := List.mem_map.mp hmem
    exact ⟨by simp, by simpa using List.find?_some hf⟩

/-! ### The value of a text -/

theorem foldl_readNat : ∀ (s : JsString) (n : ℕ),
    s.foldl (fun n u => 10 * n + digitValue u) n = n * 10 ^ s.length + readNat s
  | [], n => by simp [readNat]
  | u :: s, n => by
    have h := foldl_readNat s (10 * n + digitValue u)
    have h' := foldl_readNat s (10 * 0 + digitValue u)
    have hcons : readNat (u :: s) = (10 * 0 + digitValue u) * 10 ^ s.length + readNat s := h'
    rw [List.foldl_cons, h, hcons, List.length_cons, pow_succ]
    ring

theorem readNat_append (a b : JsString) :
    readNat (a ++ b) = readNat a * 10 ^ b.length + readNat b := by
  rw [readNat, List.foldl_append, foldl_readNat]
  rfl

theorem readNat_zeros : ∀ n : ℕ, readNat (List.replicate n 0x30) = 0
  | 0 => rfl
  | n + 1 => by
    rw [List.replicate_succ, ← List.singleton_append, readNat_append, readNat_zeros n]
    have h : readNat [0x30] = 0 := by decide
    rw [h]
    simp

theorem zeros_digits (n : ℕ) : ∀ u ∈ List.replicate n (0x30 : UInt16), isDigit u = true := by
  intro u hu
  rw [List.eq_of_mem_replicate hu]
  decide

/-- No digit comes first. -/
def NoDigit (s : JsString) : Prop := ∀ u ∈ s.head?, isDigit u = false

theorem takeWhile_digits {d s : JsString} (hd : ∀ u ∈ d, isDigit u = true) (hs : NoDigit s) :
    (d ++ s).takeWhile isDigit = d ∧ (d ++ s).dropWhile isDigit = s := by
  rw [List.takeWhile_append_of_pos hd, List.dropWhile_append_of_pos hd]
  rcases s with _ | ⟨u, s⟩
  · simp
  · simp [hs u rfl]

theorem fractionPart_none {s : JsString} (h : s.head? ≠ some 0x2E) :
    fractionPart s = some ([], s) := by
  unfold fractionPart
  split
  · exact absurd rfl h
  · rfl

theorem fractionPart_point {f s : JsString} (hf : ∀ u ∈ f, isDigit u = true) (hne : f ≠ [])
    (hs : NoDigit s) : fractionPart (0x2E :: (f ++ s)) = some (f, s) := by
  obtain ⟨h1, h2⟩ := takeWhile_digits hf hs
  rw [fractionPart, h1, h2, if_pos hne]

/-- The value of the digits, the fraction and the exponent. -/
theorem unsignedNumeral_eq {digits tail fraction rest : JsString} {e : ℤ}
    (hd : ∀ u ∈ digits, isDigit u = true) (hne : digits ≠ [])
    (hzero : digits.head? ≠ some 0x30 ∨ digits = [0x30]) (ht : NoDigit tail)
    (hf : fractionPart tail = some (fraction, rest)) (he : exponentPart rest = some e) :
    unsignedNumeral (digits ++ tail) =
      some ((readNat (digits ++ fraction) : ℚ) * 10 ^ (e - fraction.length)) := by
  obtain ⟨h1, h2⟩ := takeWhile_digits hd ht
  have hno : ¬ (digits = [] ∨ (digits.head? = some 0x30 ∧ digits ≠ [0x30])) := by
    rintro (h | ⟨h, h'⟩)
    · exact hne h
    · rcases hzero with h0 | h0
      · exact h0 h
      · exact h' h0
  unfold unsignedNumeral
  dsimp only
  rw [h1, h2, if_neg hno, hf]
  simp only [Option.bind_eq_bind, Option.bind_some, he]
  rfl

theorem natText_head {s : ℕ} (hs : s ≠ 0) :
    ∃ u rest, natText s = u :: rest ∧ isDigit u = true ∧ u ≠ 0x30 := by
  have hcanon := readCanonicalNat_natText s
  rcases ht : natText s with _ | ⟨u, rest⟩
  · rw [ht] at hcanon
    cases hcanon
  · have hu : isDigit u = true := natText_digits s u (by rw [ht]; simp)
    refine ⟨u, rest, rfl, hu, ?_⟩
    rintro rfl
    rw [ht, readCanonicalNat] at hcanon
    split_ifs at hcanon with hc
    simp only [Bool.and_eq_true, Bool.or_eq_true] at hc
    rcases hc.2 with h0 | h0
    · exact absurd h0 (by decide)
    · rw [List.isEmpty_iff] at h0
      have hread := readNat_natText s
      rw [ht, h0] at hread
      exact hs (hread.symm.trans (by decide))

theorem exponentPart_text {m : ℕ} (negative : Bool) :
    exponentPart ((if negative then ascii "e-" else ascii "e+") ++ natText m) =
      some (if negative then -(m : ℤ) else m) := by
  have hall : (natText m).all isDigit = true := List.all_eq_true.mpr (natText_digits m)
  have hne : natText m ≠ [] := by
    intro h
    have := readCanonicalNat_natText m
    rw [h] at this
    cases this
  have hsplus : ascii "e+" = [0x65, 0x2B] := by decide
  have hsminus : ascii "e-" = [0x65, 0x2D] := by decide
  rcases negative with _ | _
  · simp [hsplus, exponentPart, hall, hne, readNat_natText]
  · simp [hsminus, exponentPart, hall, hne, readNat_natText]

/-- The digits of a number, their count and their value. -/
structure Digits (s k : ℕ) : Prop where
  pos : 0 < k
  low : 10 ^ (k - 1) ≤ s
  high : s < 10 ^ k

variable {s k : ℕ}

theorem Digits.ne_zero (h : Digits s k) : s ≠ 0 := by
  have : 0 < 10 ^ (k - 1) := by positivity
  have := h.low
  omega

theorem Digits.length (h : Digits s k) : (natText s).length = k :=
  natText_length h.pos h.low h.high

/-- The digits up to some place, and those after it. -/
theorem Digits.take (h : Digits s k) {i : ℕ} (hi : 0 < i) :
    ((natText s).take i) ≠ [] ∧ (∀ u ∈ (natText s).take i, isDigit u = true) ∧
      ((natText s).take i).head? ≠ some 0x30 := by
  obtain ⟨u, rest, ht, hu, hu0⟩ := natText_head h.ne_zero
  obtain ⟨i, rfl⟩ : ∃ i', i = i' + 1 := ⟨i - 1, by omega⟩
  refine ⟨by simp [ht], fun v hv => natText_digits s v (List.mem_of_mem_take hv), ?_⟩
  rw [ht, List.take_succ_cons, List.head?_cons]
  exact fun h => hu0 (Option.some.inj h)

theorem noDigit_nil : NoDigit [] := fun _ h => by cases h

theorem noDigit_point (t : JsString) : NoDigit (0x2E :: t) := by
  intro u hu
  cases hu
  decide

theorem noDigit_exponent (negative : Bool) (t : JsString) :
    NoDigit ((if negative then ascii "e-" else ascii "e+") ++ t) := by
  have hsplus : ascii "e+" = [0x65, 0x2B] := by decide
  have hsminus : ascii "e-" = [0x65, 0x2D] := by decide
  rcases negative with _ | _
  · intro u hu
    simp only [hsplus] at hu
    cases hu
    decide
  · intro u hu
    simp only [hsminus] at hu
    cases hu
    decide

theorem value_zeros (h : Digits s k) {n : ℤ} (hn : (k : ℤ) ≤ n) :
    unsignedNumeral (natText s ++ List.replicate (n.toNat - k) 0x30) =
      some ((s : ℚ) * 10 ^ (n - k)) := by
  obtain ⟨hne, -, hhead⟩ := h.take h.pos
  rw [List.take_of_length_le (by rw [h.length])] at hne hhead
  have hd : ∀ u ∈ natText s ++ List.replicate (n.toNat - k) 0x30, isDigit u = true := by
    intro u hu
    rcases List.mem_append.mp hu with hu | hu
    · exact natText_digits s u hu
    · exact zeros_digits _ u hu
  have hhead' : (natText s ++ List.replicate (n.toNat - k) 0x30).head? ≠ some 0x30 := by
    rcases ht : natText s with _ | ⟨u, rest⟩
    · exact absurd ht hne
    · rw [ht] at hhead
      exact hhead
  have hv := unsignedNumeral_eq hd (by simp [hne]) (Or.inl hhead') noDigit_nil
    (fractionPart_none (by simp)) rfl
  rw [List.append_nil] at hv
  rw [hv, readNat_append, readNat_natText, readNat_zeros, List.length_replicate]
  congr 1
  push_cast
  rw [add_zero, List.length_nil, Nat.cast_zero, sub_zero, zpow_zero, mul_one, ← zpow_natCast]
  congr 2
  omega

theorem value_point (h : Digits s k) {n : ℤ} (hn : 0 < n) (hnk : n < k) :
    unsignedNumeral ((natText s).take n.toNat ++ [0x2E] ++ (natText s).drop n.toNat) =
      some ((s : ℚ) * 10 ^ (n - k)) := by
  obtain ⟨hne, hd, hhead⟩ := h.take (i := n.toNat) (by omega)
  have hlen : ((natText s).drop n.toNat).length = k - n.toNat := by
    rw [List.length_drop, h.length]
  have hdrop : (natText s).drop n.toNat ≠ [] := by
    intro h0
    rw [h0] at hlen
    simp at hlen
    omega
  have hf := fractionPart_point (fun u hu => natText_digits s u (List.mem_of_mem_drop hu)) hdrop
    noDigit_nil
  rw [List.append_nil] at hf
  have hv := unsignedNumeral_eq hd hne (Or.inl hhead) (noDigit_point _) hf rfl
  rw [List.append_assoc, List.singleton_append, hv, List.take_append_drop, readNat_natText, hlen]
  congr 3
  omega

theorem value_leadingZeros (h : Digits s k) {n : ℤ} (hn : n ≤ 0) :
    unsignedNumeral (ascii "0." ++ List.replicate n.natAbs 0x30 ++ natText s) =
      some ((s : ℚ) * 10 ^ (n - k)) := by
  have hstart : ascii "0." = [0x30] ++ [0x2E] := by decide
  have hdigits : ∀ u ∈ List.replicate n.natAbs 0x30 ++ natText s, isDigit u = true := by
    intro u hu
    rcases List.mem_append.mp hu with hu | hu
    · exact zeros_digits _ u hu
    · exact natText_digits s u hu
  have hne : List.replicate n.natAbs 0x30 ++ natText s ≠ [] := by
    obtain ⟨u, rest, ht, -, -⟩ := natText_head h.ne_zero
    simp [ht]
  have hf := fractionPart_point hdigits hne noDigit_nil
  rw [List.append_nil] at hf
  have hzeroDigit : ∀ u ∈ ([0x30] : JsString), isDigit u = true :=
    List.all_eq_true.mp (by decide)
  have hv := unsignedNumeral_eq hzeroDigit (by decide) (Or.inr rfl) (noDigit_point _) hf rfl
  have hzero : readNat [0x30] = 0 := by decide
  rw [hstart, List.append_assoc, List.append_assoc, List.singleton_append (x := 0x2E), hv]
  rw [readNat_append, hzero, readNat_append, readNat_zeros, readNat_natText, List.length_append,
    List.length_replicate, h.length]
  have hcast : (0 : ℤ) - ((n.natAbs + k : ℕ) : ℤ) = n - k := by omega
  rw [hcast, zero_mul, zero_mul, zero_add, zero_add]

theorem value_exponent (h : Digits s k) (n : ℤ) :
    unsignedNumeral ((natText s).take 1 ++ (if k = 1 then [] else [0x2E]) ++ (natText s).drop 1 ++
      (if n - 1 < 0 then ascii "e-" else ascii "e+") ++ natText (n - 1).natAbs) =
      some ((s : ℚ) * 10 ^ (n - k)) := by
  obtain ⟨hne, hd, hhead⟩ := h.take (i := 1) (by omega)
  have hexp := exponentPart_text (m := (n - 1).natAbs) (decide (n - 1 < 0))
  simp only [decide_eq_true_eq] at hexp
  have hno := noDigit_exponent (decide (n - 1 < 0)) (natText (n - 1).natAbs)
  simp only [decide_eq_true_eq] at hno
  have hval : (if n - 1 < 0 then -(((n - 1).natAbs : ℕ) : ℤ) else ((n - 1).natAbs : ℕ)) = n - 1 := by
    split_ifs <;> omega
  rw [hval] at hexp
  set tail := (if n - 1 < 0 then ascii "e-" else ascii "e+") ++ natText (n - 1).natAbs with htail
  have hdot : tail.head? ≠ some 0x2E := by
    rw [htail]
    split_ifs
    · exact fun h => absurd (Option.some.inj h) (by decide)
    · exact fun h => absurd (Option.some.inj h) (by decide)
  have hlen : ((natText s).drop 1).length = k - 1 := by rw [List.length_drop, h.length]
  rw [List.append_assoc, List.append_assoc, List.append_assoc, ← htail]
  by_cases hk : k = 1
  · have hnil : (natText s).drop 1 = [] := List.length_eq_zero_iff.mp (by rw [hlen, hk])
    have hall : (natText s).take 1 = natText s := by
      rw [List.take_of_length_le (by rw [h.length, hk])]
    have hv := unsignedNumeral_eq hd hne (Or.inl hhead) hno (fractionPart_none hdot) hexp
    rw [if_pos hk, hnil, List.nil_append, List.nil_append, hv, List.append_nil, hall,
      readNat_natText, hk]
    simp
  · have hdrop : (natText s).drop 1 ≠ [] := by
      intro h0
      rw [h0] at hlen
      simp at hlen
      have := h.pos
      omega
    have hf := fractionPart_point (fun u hu => natText_digits s u (List.mem_of_mem_drop hu)) hdrop
      hno
    have hv := unsignedNumeral_eq hd hne (Or.inl hhead) (noDigit_point _) hf hexp
    rw [if_neg hk, List.singleton_append, hv, List.take_append_drop, readNat_natText, hlen]
    congr 3
    have := h.pos
    omega

/-! ### The round trip -/

/-- The text of a positive double has the value of its digits. -/
theorem unsignedNumeral_positiveText {q : ℚ} (hq : 0 < q) (h : nearestDouble q = some q) :
    unsignedNumeral (positiveText q) =
      some (((digitsNear q (digitCount q)).1 : ℚ) *
        10 ^ ((digitsNear q (digitCount q)).2 - digitCount q)) := by
  obtain ⟨hpos, -⟩ := readsBack_digitCount hq h
  obtain ⟨hlow, hhigh⟩ := digitsNear_bounds hq hpos
  have hD : Digits (digitsNear q (digitCount q)).1 (digitCount q) := ⟨hpos, hlow, hhigh⟩
  unfold positiveText
  dsimp only
  by_cases h1 : (digitCount q : ℤ) ≤ (digitsNear q (digitCount q)).2 ∧
      (digitsNear q (digitCount q)).2 ≤ 21
  · rw [if_pos h1]
    exact value_zeros hD h1.1
  rw [if_neg h1]
  by_cases h2 : 0 < (digitsNear q (digitCount q)).2 ∧ (digitsNear q (digitCount q)).2 ≤ 21
  · rw [if_pos h2]
    exact value_point hD h2.1 (by omega)
  rw [if_neg h2]
  by_cases h3 : -6 < (digitsNear q (digitCount q)).2 ∧ (digitsNear q (digitCount q)).2 ≤ 0
  · rw [if_pos h3]
    exact value_leadingZeros hD h3.2
  rw [if_neg h3]
  exact value_exponent hD _

theorem numberOf_false {v q : ℚ} (h : nearestDouble v = some q) :
    numberOf false v = .finite q := by
  simp [numberOf, h]

theorem positiveText_head {q : ℚ} (hq : 0 < q) (h : nearestDouble q = some q) :
    (positiveText q).head? ≠ some 0x2D := by
  intro hhead
  have hv := unsignedNumeral_positiveText hq h
  rcases ht : positiveText q with _ | ⟨u, rest⟩
  · rw [ht] at hhead
    cases hhead
  · rw [ht] at hhead hv
    cases hhead
    cases hv

/-- **A number is read back from its text.** -/
theorem numeral_finiteText {q : ℚ} (h : isDouble q = true) :
    numeral (finiteText q) = some (.finite q) := by
  rw [isDouble, beq_iff_eq] at h
  have hread : ∀ {x : ℚ}, 0 < x → nearestDouble x = some x →
      ∃ v, unsignedNumeral (positiveText x) = some v ∧ nearestDouble v = some x := by
    intro x hx hxd
    obtain ⟨-, hback⟩ := readsBack_digitCount hx hxd
    refine ⟨_, unsignedNumeral_positiveText hx hxd, ?_⟩
    simpa [readsBack] using hback
  unfold finiteText
  split_ifs with h0 hneg
  · subst h0
    decide +kernel
  · rw [abs_of_neg hneg] at h
    obtain ⟨v, hv, hd⟩ := hread (neg_pos.mpr hneg) h
    have hne : ¬ (-q = 0) := by linarith
    rw [numeral, hv, Option.map_some]
    simp [numberOf, hd, hne]
  · have hq : 0 < q := lt_of_le_of_ne (not_lt.mp hneg) (Ne.symm h0)
    rw [abs_of_pos hq] at h
    obtain ⟨v, hv, hd⟩ := hread hq h
    have hhead := positiveText_head hq h
    unfold numeral
    split
    · next text htext => rw [htext] at hhead; exact absurd rfl hhead
    · rw [hv, Option.map_some, numberOf_false hd]

theorem isBare_of_isDigit {u : UInt16} (h : isDigit u = true) : isBare u = true := by
  simp only [isDigit, Bool.and_eq_true, decide_eq_true_eq] at h
  have hne : ∀ v : UInt16, (v.toNat < 48 ∨ 57 < v.toNat) → u ≠ v := by
    rintro v hv rfl
    omega
  have hpunct : punctuation u = none := by
    simp only [punctuation, if_neg (hne 0x7B (by decide)), if_neg (hne 0x7D (by decide)),
      if_neg (hne 0x5B (by decide)), if_neg (hne 0x5D (by decide)), if_neg (hne 0x3A (by decide)),
      if_neg (hne 0x2C (by decide))]
  have h1 := hne 0x09 (by decide)
  have h2 := hne 0x0A (by decide)
  have h3 := hne 0x0D (by decide)
  have h4 := hne 0x20 (by decide)
  have h5 := hne 0x22 (by decide)
  simp [isBare, isSpace, hpunct, h1, h2, h3, h4, h5]

theorem leafReadsBack_finite {q : ℚ} (h : isDouble q = true) :
    leafReadsBack (.number (.finite q)) = true := by
  have hread := numeral_finiteText h
  have hbare : (finiteText q).all isBare = true :=
    finiteText_units (fun _ => isBare_of_isDigit) (List.all_eq_true.mp (by decide)) q
  have hne : ∀ s : JsString, numeral s = none → finiteText q ≠ s := by
    rintro s hs rfl
    rw [hs] at hread
    cases hread
  have htoken : bareToken (finiteText q) = some (.leaf (.number (.finite q))) := by
    rw [bareToken, if_neg (hne _ (by decide +kernel)), if_neg (hne _ (by decide +kernel)),
      if_neg (hne _ (by decide +kernel)), hread]
    rfl
  have hnonempty : finiteText q ≠ [] := hne _ (by decide +kernel)
  simp [leafReadsBack, leafText, hbare, htoken, hnonempty]

end UmbraDB.Js.NumberText
