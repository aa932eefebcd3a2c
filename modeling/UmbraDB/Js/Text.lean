import Mathlib.Data.List.Basic

/-! # Strings of the host language

A string is its list of UTF-16 code units (`src/interfaces/temporal-kv.ts`). Nothing makes the list
well-formed: a surrogate may stand alone. `hasPostgresUnsafeText` is the test every schema of the
storage layer runs on the strings it lets through. -/

namespace UmbraDB.Js.Text

/-- A string: UTF-16 code units, not necessarily well-formed. -/
abbrev JsString := List UInt16

/-- The code units of an ASCII text. -/
def ascii (s : String) : JsString := s.toList.map fun c => UInt16.ofNat c.toNat

/-- `[\uD800-\uDBFF]`. -/
def isHighSurrogate (u : UInt16) : Bool := decide (0xD800 ≤ u) && decide (u ≤ 0xDBFF)

/-- `[\uDC00-\uDFFF]`. -/
def isLowSurrogate (u : UInt16) : Bool := decide (0xDC00 ≤ u) && decide (u ≤ 0xDFFF)

/-- `LONE_SURROGATE_PATTERN` matches at position `i`: a high surrogate not followed by a low one
(the lookahead), or a low one not preceded by a high one (the lookbehind). -/
def loneSurrogateAt (s : JsString) (i : ℕ) : Bool :=
  match s[i]? with
  | none => false
  | some u =>
    (isHighSurrogate u && !(s[i + 1]?.any isLowSurrogate)) ||
      (isLowSurrogate u && !(decide (0 < i) && s[i - 1]?.any isHighSurrogate))

/-- `LONE_SURROGATE_PATTERN.test`: the pattern is not anchored. -/
def hasLoneSurrogate (s : JsString) : Bool := (List.range s.length).any (loneSurrogateAt s)

/-- A NUL, or an unpaired surrogate. -/
def hasPostgresUnsafeText (s : JsString) : Bool := s.contains 0 || hasLoneSurrogate s

/-! ### Across the wire

The driver encodes a string parameter in UTF-8. That encoding has no unpaired surrogates, and the
encoder of the host writes U+FFFD in their place; so this is what a later read decodes. A NUL is
refused by the server. -/

/-- The string with U+FFFD for every unpaired surrogate. -/
def toWellFormed : JsString → JsString
  | [] => []
  | [u] => [if isHighSurrogate u || isLowSurrogate u then 0xFFFD else u]
  | u :: v :: s =>
    if isHighSurrogate u then
      if isLowSurrogate v then u :: v :: toWellFormed s else 0xFFFD :: toWellFormed (v :: s)
    else (if isLowSurrogate u then 0xFFFD else u) :: toWellFormed (v :: s)

/-- What is read back of a `text` parameter; `none` is the server's error `22021`. -/
def pgText (s : JsString) : Option JsString := if s.contains 0 then none else some (toWellFormed s)

theorem isLowSurrogate_eq_false {u : UInt16} (h : isHighSurrogate u = true) :
    isLowSurrogate u = false := by
  simp only [isHighSurrogate, isLowSurrogate, Bool.and_eq_true, decide_eq_true_eq,
    UInt16.le_iff_toNat_le] at h ⊢
  simp only [Bool.and_eq_false_iff, decide_eq_false_iff_not]
  have : (0xDBFF : UInt16).toNat < (0xDC00 : UInt16).toNat := by decide
  omega

/-- The lookbehind only sees the unit before. -/
theorem loneSurrogateAt_cons {u : UInt16} {s : JsString} {i : ℕ}
    (h : isHighSurrogate u = false ∨ 0 < i) :
    loneSurrogateAt (u :: s) (i + 1) = loneSurrogateAt s i := by
  unfold loneSurrogateAt
  rw [List.getElem?_cons_succ]
  rcases i with _ | i
  · rcases h with h | h
    · cases s[0]? <;> simp [h]
    · omega
  · simp

theorem toWellFormed_of_forall : ∀ (s : JsString), (∀ i, loneSurrogateAt s i = false) →
    toWellFormed s = s
  | [], _ => rfl
  | [u], h => by
    have h0 := h 0
    simp only [loneSurrogateAt, List.getElem?_cons_zero, List.getElem?_cons_succ,
      List.getElem?_nil, Option.any_none] at h0
    simp only [toWellFormed]
    rw [if_neg]
    simpa using h0
  | u :: v :: s, h => by
    have h0 := h 0
    simp only [loneSurrogateAt, List.getElem?_cons_zero, List.getElem?_cons_succ] at h0
    by_cases hu : isHighSurrogate u = true
    · have hv : isLowSurrogate v = true := by simpa [hu, isLowSurrogate_eq_false hu] using h0
      have hv' : isHighSurrogate v = false := by
        by_contra hne
        rw [isLowSurrogate_eq_false (by simpa using hne)] at hv
        cases hv
      have ih := toWellFormed_of_forall s fun i => by
        rw [← loneSurrogateAt_cons (Or.inl hv') (i := i), ← h (i + 2)]
        exact (loneSurrogateAt_cons (Or.inr (by omega))).symm
      simp only [toWellFormed, hu, hv, if_true, ih]
    · have hlow : isLowSurrogate u = false := by simpa [hu] using h0
      have hu' : isHighSurrogate u = false := by simpa using hu
      have ih := toWellFormed_of_forall (v :: s) fun i => by
        rw [← loneSurrogateAt_cons (Or.inl hu') (i := i)]
        exact h (i + 1)
      simp only [toWellFormed, hu', hlow, ih]
      simp

/-- A string without unpaired surrogates is not changed. -/
theorem toWellFormed_eq_self {s : JsString} (h : hasLoneSurrogate s = false) :
    toWellFormed s = s := by
  refine toWellFormed_of_forall s fun i => ?_
  by_cases hi : i < s.length
  · simp only [hasLoneSurrogate, List.any_eq_false, List.mem_range] at h
    simpa using h i hi
  · have hn : s[i]? = none := List.getElem?_eq_none (by omega)
    simp [loneSurrogateAt, hn]

/-! ### Well-formed strings -/

/-- A unit outside of the surrogates. -/
def plainUnit (u : UInt16) : Bool := !isHighSurrogate u && !isLowSurrogate u

theorem toWellFormed_cons_plain {u : UInt16} (hu : plainUnit u = true) (s : JsString) :
    toWellFormed (u :: s) = u :: toWellFormed s := by
  simp only [plainUnit, Bool.and_eq_true, Bool.not_eq_true'] at hu
  rcases s with _ | ⟨v, s⟩ <;> simp [toWellFormed, hu.1, hu.2]

theorem toWellFormed_cons_pair {u v : UInt16} (hu : isHighSurrogate u = true)
    (hv : isLowSurrogate v = true) (s : JsString) :
    toWellFormed (u :: v :: s) = u :: v :: toWellFormed s := by
  simp [toWellFormed, hu, hv]

/-- How `toWellFormed` takes the string apart: units outside of the surrogates, pairs, and
unpaired surrogates. -/
theorem toWellFormed_induction {P : JsString → Prop} (nil : P [])
    (plain : ∀ u s, plainUnit u = true → P s → P (u :: s))
    (pair : ∀ u v s, isHighSurrogate u = true → isLowSurrogate v = true → P s → P (u :: v :: s))
    (lone : ∀ u s, plainUnit u = false → toWellFormed (u :: s) = 0xFFFD :: toWellFormed s →
      P s → P (u :: s)) : ∀ s, P s
  | [] => nil
  | [u] => by
    rcases hu : plainUnit u
    · refine lone u [] hu ?_ nil
      have h : (isHighSurrogate u || isLowSurrogate u) = true := by
        rw [← Bool.not_eq_false', Bool.not_or]
        exact hu
      simp [toWellFormed, h]
    · exact plain u [] hu nil
  | u :: v :: s => by
    have ih := toWellFormed_induction nil plain pair lone (v :: s)
    rcases hu : plainUnit u
    · rcases hh : isHighSurrogate u
      · have hl : isLowSurrogate u = true := by simpa [plainUnit, hh] using hu
        refine lone u (v :: s) hu ?_ ih
        simp [toWellFormed, hh, hl]
      · rcases hv : isLowSurrogate v
        · refine lone u (v :: s) hu ?_ ih
          simp [toWellFormed, hh, hv]
        · exact pair u v s hh hv (toWellFormed_induction nil plain pair lone s)
    · exact plain u (v :: s) hu ih

theorem plainUnit_replacement : plainUnit 0xFFFD = true := by decide

theorem length_toWellFormed (s : JsString) : (toWellFormed s).length = s.length := by
  induction s using toWellFormed_induction with
  | nil => rfl
  | plain u s hu ih => rw [toWellFormed_cons_plain hu, List.length_cons, List.length_cons, ih]
  | pair u v s hu hv ih => simp [toWellFormed_cons_pair hu hv, ih]
  | lone u s _ he ih => rw [he, List.length_cons, List.length_cons, ih]

theorem toWellFormed_toWellFormed (s : JsString) :
    toWellFormed (toWellFormed s) = toWellFormed s := by
  induction s using toWellFormed_induction with
  | nil => rfl
  | plain u s hu ih => rw [toWellFormed_cons_plain hu, toWellFormed_cons_plain hu, ih]
  | pair u v s hu hv ih => rw [toWellFormed_cons_pair hu hv, toWellFormed_cons_pair hu hv, ih]
  | lone u s _ he ih => rw [he, toWellFormed_cons_plain plainUnit_replacement, ih]

theorem contains_zero_toWellFormed (s : JsString) :
    (toWellFormed s).contains 0 = s.contains 0 := by
  have hzero : plainUnit 0 = true := by decide
  have hne : ∀ {u}, plainUnit u = false → (0 == u) = false := by
    rintro u hu
    refine beq_eq_false_iff_ne.mpr ?_
    rintro rfl
    rw [hzero] at hu
    cases hu
  induction s using toWellFormed_induction with
  | nil => rfl
  | plain u s hu ih => rw [toWellFormed_cons_plain hu, List.contains_cons, List.contains_cons, ih]
  | pair u v s hu hv ih =>
    rw [toWellFormed_cons_pair hu hv]
    simp only [List.contains_cons, ih]
  | lone u s hu he ih =>
    rw [he, List.contains_cons, List.contains_cons, ih, hne hu]
    rfl

theorem loneSurrogateAt_cons_plain {u : UInt16} (hu : plainUnit u = true) (s : JsString) :
    loneSurrogateAt (u :: s) 0 = false := by
  simp only [plainUnit, Bool.and_eq_true, Bool.not_eq_true'] at hu
  simp [loneSurrogateAt, hu.1, hu.2]

theorem isHighSurrogate_of_plain {u : UInt16} (hu : plainUnit u = true) :
    isHighSurrogate u = false := by
  simp only [plainUnit, Bool.and_eq_true, Bool.not_eq_true'] at hu
  exact hu.1

theorem loneSurrogateAt_toWellFormed (s : JsString) :
    ∀ i, loneSurrogateAt (toWellFormed s) i = false := by
  have hplain : ∀ {u : UInt16} {t : JsString}, plainUnit u = true →
      (∀ i, loneSurrogateAt t i = false) → ∀ i, loneSurrogateAt (u :: t) i = false := by
    intro u t hu ht i
    rcases i with _ | i
    · exact loneSurrogateAt_cons_plain hu t
    · rw [loneSurrogateAt_cons (Or.inl (isHighSurrogate_of_plain hu)), ht i]
  induction s using toWellFormed_induction with
  | nil => exact fun i => rfl
  | plain u s hu ih => rw [toWellFormed_cons_plain hu]; exact hplain hu ih
  | pair u v s hu hv ih =>
    have hv' : isHighSurrogate v = false := by
      by_contra hne
      rw [isLowSurrogate_eq_false (by simpa using hne)] at hv
      cases hv
    rw [toWellFormed_cons_pair hu hv]
    rintro (_ | _ | i)
    · simp [loneSurrogateAt, hv, isLowSurrogate_eq_false hu]
    · simp [loneSurrogateAt, hu, hv']
    · rw [loneSurrogateAt_cons (Or.inr (by omega)), loneSurrogateAt_cons (Or.inl hv'), ih i]
  | lone u s _ he ih => rw [he]; exact hplain plainUnit_replacement ih

theorem hasLoneSurrogate_toWellFormed (s : JsString) :
    hasLoneSurrogate (toWellFormed s) = false := by
  rw [hasLoneSurrogate, List.any_eq_false]
  intro i _
  rw [loneSurrogateAt_toWellFormed]
  simp

/-- What follows a well-formed string does not change it. -/
theorem toWellFormed_append {a : JsString} (ha : toWellFormed a = a) (b : JsString) :
    toWellFormed (a ++ b) = a ++ toWellFormed b := by
  induction a using toWellFormed_induction with
  | nil => rfl
  | plain u s hu ih =>
    rw [toWellFormed_cons_plain hu, List.cons.injEq] at ha
    rw [List.cons_append, toWellFormed_cons_plain hu, ih ha.2, List.cons_append]
  | pair u v s hu hv ih =>
    rw [toWellFormed_cons_pair hu hv, List.cons.injEq, List.cons.injEq] at ha
    rw [List.cons_append, List.cons_append, toWellFormed_cons_pair hu hv, ih ha.2.2]
    rfl
  | lone u s hu he ih =>
    rw [he, List.cons.injEq] at ha
    rw [← ha.1, plainUnit_replacement] at hu
    cases hu

theorem toWellFormed_of_plain : ∀ {s : JsString}, s.all plainUnit = true → toWellFormed s = s
  | [], _ => rfl
  | u :: s, h => by
    rw [List.all_cons, Bool.and_eq_true] at h
    rw [toWellFormed_cons_plain h.1, toWellFormed_of_plain h.2]

theorem pgText_of_safe {s : JsString} (h : hasPostgresUnsafeText s = false) :
    pgText s = some s := by
  obtain ⟨h0, h1⟩ := Bool.or_eq_false_iff.mp h
  rw [pgText, h0, toWellFormed_eq_self h1]
  rfl

end UmbraDB.Js.Text
