import UmbraDB.Js.Text
import UmbraDB.Lib.Transducers
import Mathlib.Tactic.Basic

/-! # UTF-8

`TextEncoder`, which writes U+FFFD for an unpaired surrogate, and `TextDecoder` with `fatal`, which
rejects what is not UTF-8 and drops a byte order mark at the start. The decoder is the machine of
the encoding standard: it keeps the code point it is in, how many bytes are still to come, and the
range of the next one.

* `utf8Decoder_encode` : decoding what was encoded gives the string with U+FFFD for its unpaired
  surrogates.
* `textDecode_textEncode` : a string without them, and without a mark at its start, comes back. -/

namespace UmbraDB.Js.Utf8

open UmbraDB.Js.Text UmbraDB.Lib.Transducers

/-- The code point of a surrogate pair. -/
def pairCodePoint (high low : UInt16) : ℕ :=
  0x10000 + 0x400 * (high.toNat - 0xD800) + (low.toNat - 0xDC00)

/-- The code points of a string, with U+FFFD for every unpaired surrogate. -/
def codePoints : JsString → List ℕ
  | [] => []
  | [u] => [if isHighSurrogate u || isLowSurrogate u then 0xFFFD else u.toNat]
  | u :: v :: s =>
    if isHighSurrogate u then
      if isLowSurrogate v then pairCodePoint u v :: codePoints s
      else 0xFFFD :: codePoints (v :: s)
    else (if isLowSurrogate u then 0xFFFD else u.toNat) :: codePoints (v :: s)

theorem codePoints_cons_plain {u : UInt16} (hu : plainUnit u = true) (s : JsString) :
    codePoints (u :: s) = u.toNat :: codePoints s := by
  simp only [plainUnit, Bool.and_eq_true, Bool.not_eq_true'] at hu
  rcases s with _ | ⟨v, s⟩ <;> simp [codePoints, hu.1, hu.2]

theorem codePoints_cons_pair {u v : UInt16} (hu : isHighSurrogate u = true)
    (hv : isLowSurrogate v = true) (s : JsString) :
    codePoints (u :: v :: s) = pairCodePoint u v :: codePoints s := by
  simp [codePoints, hu, hv]

/-- The code units of a code point. -/
def utf16 (c : ℕ) : JsString :=
  if c < 0x10000 then [UInt16.ofNat c]
  else [UInt16.ofNat (0xD800 + (c - 0x10000) / 0x400),
    UInt16.ofNat (0xDC00 + (c - 0x10000) % 0x400)]

/-- The bytes of a code point. -/
def utf8 (c : ℕ) : List UInt8 :=
  if c < 0x80 then [UInt8.ofNat c]
  else if c < 0x800 then [UInt8.ofNat (0xC0 + c / 0x40), UInt8.ofNat (0x80 + c % 0x40)]
  else if c < 0x10000 then
    [UInt8.ofNat (0xE0 + c / 0x1000), UInt8.ofNat (0x80 + c / 0x40 % 0x40),
      UInt8.ofNat (0x80 + c % 0x40)]
  else
    [UInt8.ofNat (0xF0 + c / 0x40000), UInt8.ofNat (0x80 + c / 0x1000 % 0x40),
      UInt8.ofNat (0x80 + c / 0x40 % 0x40), UInt8.ofNat (0x80 + c % 0x40)]

/-- `new TextEncoder().encode`. -/
def textEncode (s : JsString) : List UInt8 := (codePoints s).flatMap utf8

/-! ### The decoder -/

/-- The code point so far, the bytes it still needs, and the range of the next of them. -/
structure DecoderState where
  codePoint : ℕ
  needed : ℕ
  lower : ℕ
  upper : ℕ
  deriving DecidableEq

/-- Between two code points. -/
def DecoderState.start : DecoderState := ⟨0, 0, 0x80, 0xBF⟩

/-- The first byte of a code point. -/
def firstByte (b : ℕ) : Option (DecoderState × JsString) :=
  if b ≤ 0x7F then some (.start, utf16 b)
  else if 0xC2 ≤ b ∧ b ≤ 0xDF then some (⟨b - 0xC0, 1, 0x80, 0xBF⟩, [])
  else if 0xE0 ≤ b ∧ b ≤ 0xEF then
    some (⟨b - 0xE0, 2, if b = 0xE0 then 0xA0 else 0x80, if b = 0xED then 0x9F else 0xBF⟩, [])
  else if 0xF0 ≤ b ∧ b ≤ 0xF4 then
    some (⟨b - 0xF0, 3, if b = 0xF0 then 0x90 else 0x80, if b = 0xF4 then 0x8F else 0xBF⟩, [])
  else none

def decodeByte (d : DecoderState) (b : UInt8) : Option (DecoderState × JsString) :=
  if d.needed = 0 then firstByte b.toNat
  else if d.lower ≤ b.toNat ∧ b.toNat ≤ d.upper then
    let c := d.codePoint * 0x40 + (b.toNat - 0x80)
    if d.needed = 1 then some (.start, utf16 c)
    else some (⟨c, d.needed - 1, 0x80, 0xBF⟩, [])
  else none

def utf8Decoder : Machine DecoderState UInt8 UInt16 where
  step := decodeByte
  -- the end of the bytes inside a code point
  finish d := if d.needed = 0 then some [] else none

/-- `new TextDecoder("utf-8", { fatal: true }).decode`; `none` is its `TypeError`. -/
def textDecode (bytes : List UInt8) : Option JsString :=
  (utf8Decoder.run .start bytes).map fun s =>
    match s with
    | 0xFEFF :: rest => rest
    | s => s

/-! ### Round trip -/

/-- A code point that is not a surrogate. -/
def IsScalar (c : ℕ) : Prop := c < 0xD800 ∨ 0xE000 ≤ c ∧ c < 0x110000

theorem toNat_ofNat8 {n : ℕ} (h : n < 256) : (UInt8.ofNat n).toNat = n := by
  rw [UInt8.toNat_ofNat']
  omega

/-- A byte that continues a code point. -/
theorem decodeByte_next {c needed lower upper b : ℕ} (hl : lower ≤ b) (hu : b ≤ upper)
    (hb : b < 256) :
    decodeByte ⟨c, needed + 2, lower, upper⟩ (UInt8.ofNat b) =
      some (⟨c * 0x40 + (b - 0x80), needed + 1, 0x80, 0xBF⟩, []) := by
  simp [decodeByte, toNat_ofNat8 hb, hl, hu]

/-- The last byte of a code point. -/
theorem decodeByte_last {c lower upper b : ℕ} (hl : lower ≤ b) (hu : b ≤ upper) (hb : b < 256) :
    decodeByte ⟨c, 1, lower, upper⟩ (UInt8.ofNat b) =
      some (.start, utf16 (c * 0x40 + (b - 0x80))) := by
  simp [decodeByte, toNat_ofNat8 hb, hl, hu]

theorem decodeByte_first {b : ℕ} (hb : b < 256) :
    decodeByte .start (UInt8.ofNat b) = firstByte b := by
  simp [decodeByte, DecoderState.start, toNat_ofNat8 hb]

/-- **The bytes of a code point are decoded to its code units.** -/
theorem read_utf8 {c : ℕ} (hc : IsScalar c) :
    utf8Decoder.read .start (utf8 c) = some (.start, utf16 c) := by
  unfold IsScalar at hc
  unfold utf8
  split_ifs with h1 h2 h3
  · have hfirst : firstByte c = some (.start, utf16 c) := by rw [firstByte, if_pos (by omega)]
    refine read_cons ((decodeByte_first (by omega)).trans hfirst) rfl |>.trans ?_
    rw [List.append_nil]
  · have hfirst : firstByte (0xC0 + c / 0x40) = some (⟨c / 0x40, 1, 0x80, 0xBF⟩, []) := by
      rw [firstByte, if_neg (by omega), if_pos (by omega), Nat.add_sub_cancel_left]
    have hlast : c / 0x40 * 0x40 + (0x80 + c % 0x40 - 0x80) = c := by omega
    refine read_cons ((decodeByte_first (by omega)).trans hfirst) (read_cons
      (decodeByte_last (by omega) (by omega) (by omega)) rfl) |>.trans ?_
    rw [hlast, List.append_nil]
    rfl
  · have hfirst : firstByte (0xE0 + c / 0x1000) = some (⟨c / 0x1000, 2,
        if 0xE0 + c / 0x1000 = 0xE0 then 0xA0 else 0x80,
        if 0xE0 + c / 0x1000 = 0xED then 0x9F else 0xBF⟩, []) := by
      rw [firstByte, if_neg (by omega), if_neg (by omega), if_pos (by omega),
        Nat.add_sub_cancel_left]
    have hlast : (c / 0x1000 * 0x40 + (0x80 + c / 0x40 % 0x40 - 0x80)) * 0x40 +
        (0x80 + c % 0x40 - 0x80) = c := by omega
    refine read_cons ((decodeByte_first (by omega)).trans hfirst) (read_cons
      (decodeByte_next (by split_ifs <;> omega) (by split_ifs <;> omega) (by omega)) (read_cons
      (decodeByte_last (by omega) (by omega) (by omega)) rfl)) |>.trans ?_
    rw [hlast, List.append_nil]
    rfl
  · have hfirst : firstByte (0xF0 + c / 0x40000) = some (⟨c / 0x40000, 3,
        if 0xF0 + c / 0x40000 = 0xF0 then 0x90 else 0x80,
        if 0xF0 + c / 0x40000 = 0xF4 then 0x8F else 0xBF⟩, []) := by
      rw [firstByte, if_neg (by omega), if_neg (by omega), if_neg (by omega), if_pos (by omega),
        Nat.add_sub_cancel_left]
    have hlast : ((c / 0x40000 * 0x40 + (0x80 + c / 0x1000 % 0x40 - 0x80)) * 0x40 +
        (0x80 + c / 0x40 % 0x40 - 0x80)) * 0x40 + (0x80 + c % 0x40 - 0x80) = c := by omega
    refine read_cons ((decodeByte_first (by omega)).trans hfirst) (read_cons
      (decodeByte_next (by split_ifs <;> omega) (by split_ifs <;> omega) (by omega)) (read_cons
      (decodeByte_next (by omega) (by omega) (by omega)) (read_cons
      (decodeByte_last (by omega) (by omega) (by omega)) rfl))) |>.trans ?_
    rw [hlast, List.append_nil]
    rfl

theorem surrogate_iff (u : UInt16) :
    (isHighSurrogate u = true ↔ 0xD800 ≤ u.toNat ∧ u.toNat ≤ 0xDBFF) ∧
      (isLowSurrogate u = true ↔ 0xDC00 ≤ u.toNat ∧ u.toNat ≤ 0xDFFF) := by
  simp [isHighSurrogate, isLowSurrogate, UInt16.le_iff_toNat_le]

/-- A unit that is not a surrogate is its own code point. -/
theorem isScalar_toNat {u : UInt16} (hh : isHighSurrogate u = false)
    (hl : isLowSurrogate u = false) : IsScalar u.toNat ∧ utf16 u.toNat = [u] := by
  have hlt := u.toNat_lt
  have h1 := (surrogate_iff u).1.not.mp (by simp [hh])
  have h2 := (surrogate_iff u).2.not.mp (by simp [hl])
  refine ⟨by unfold IsScalar; omega, ?_⟩
  rw [utf16, if_pos (by omega), UInt16.ofNat_toNat]

/-- A pair is the code units of its code point. -/
theorem isScalar_pair {u v : UInt16} (hu : isHighSurrogate u = true)
    (hv : isLowSurrogate v = true) :
    IsScalar (pairCodePoint u v) ∧ utf16 (pairCodePoint u v) = [u, v] := by
  have h1 := (surrogate_iff u).1.mp hu
  have h2 := (surrogate_iff v).2.mp hv
  unfold IsScalar pairCodePoint
  refine ⟨by omega, ?_⟩
  have hhigh : 0xD800 + (0x10000 + 0x400 * (u.toNat - 0xD800) + (v.toNat - 0xDC00) - 0x10000) /
      0x400 = u.toNat := by omega
  have hlow : 0xDC00 + (0x10000 + 0x400 * (u.toNat - 0xD800) + (v.toNat - 0xDC00) - 0x10000) %
      0x400 = v.toNat := by omega
  rw [utf16, if_neg (by omega), hhigh, hlow, UInt16.ofNat_toNat, UInt16.ofNat_toNat]

theorem isScalar_replacement : IsScalar 0xFFFD ∧ utf16 0xFFFD = [0xFFFD] := by
  refine ⟨by unfold IsScalar; omega, by decide⟩

/-- The code points of a string are scalar, and make up the string with its unpaired surrogates
replaced. -/
theorem codePoints_spec : ∀ (s : JsString),
    (∀ c ∈ codePoints s, IsScalar c) ∧ (codePoints s).flatMap utf16 = toWellFormed s
  | [] => by simp [codePoints, toWellFormed]
  | [u] => by
    rw [codePoints, toWellFormed]
    rcases hu : isHighSurrogate u || isLowSurrogate u
    · obtain ⟨hh, hl⟩ := Bool.or_eq_false_iff.mp hu
      simpa using isScalar_toNat hh hl
    · simpa using isScalar_replacement
  | u :: v :: s => by
    rw [codePoints, toWellFormed]
    rcases hu : isHighSurrogate u
    · obtain ⟨ih, ih'⟩ := codePoints_spec (v :: s)
      rcases hl : isLowSurrogate u
      · obtain ⟨hs, he⟩ := isScalar_toNat hu hl
        simpa [hs, he, ih'] using ih
      · obtain ⟨hs, he⟩ := isScalar_replacement
        simpa [hs, he, ih'] using ih
    · rcases hv : isLowSurrogate v
      · obtain ⟨ih, ih'⟩ := codePoints_spec (v :: s)
        obtain ⟨hs, he⟩ := isScalar_replacement
        simpa [hs, he, ih'] using ih
      · obtain ⟨ih, ih'⟩ := codePoints_spec s
        obtain ⟨hs, he⟩ := isScalar_pair hu hv
        simpa [hs, he, ih'] using ih

/-- **Decoding what was encoded.** -/
theorem utf8Decoder_encode (s : JsString) :
    utf8Decoder.run .start (textEncode s) = some (toWellFormed s) := by
  obtain ⟨hscalar, hunits⟩ := codePoints_spec s
  have hread := read_flatMap (codePoints s) fun c hc => read_utf8 (hscalar c hc)
  have hrun := run_append _ [] hread
  rw [List.append_nil] at hrun
  rw [textEncode, hrun, hunits]
  simp [Machine.run, utf8Decoder, DecoderState.start]

/-- **The round trip.** -/
theorem textDecode_textEncode {s : JsString} (hs : toWellFormed s = s)
    (hbom : s.head? ≠ some 0xFEFF) : textDecode (textEncode s) = some s := by
  rw [textDecode, utf8Decoder_encode, hs, Option.map_some]
  split
  · next rest => exact absurd rfl hbom
  · rfl

end UmbraDB.Js.Utf8
