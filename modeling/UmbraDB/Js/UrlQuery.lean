import UmbraDB.Js.Utf8
import UmbraDB.Lib.Pieces

/-! # The query of a URL

How a URL parser reads the parameters of a query. It leaves out control characters and spaces at
the ends of its input, and tabs and line breaks everywhere. The query goes from the first `?` to the
first `#`. A parameter goes from a separator `&` to the next one, its name up to the first `=`. In
names and values `+` is a space, and `%` with two hexadecimal digits is a byte; the bytes are
decoded as UTF-8, with U+FFFD for what is not. Characters that the parser writes with `%` are read
back by the decoding, so this step is left out.

* `mem_names` and `nameAt_filter` : where in the input the name of a parameter stands.
* `decodeComponent_iff` : which texts are decoded to an ASCII name, up to case. -/

namespace UmbraDB.Js.UrlQuery

open UmbraDB.Js.Text UmbraDB.Js.Utf8 UmbraDB.Lib.Pieces

/-! ### Decoding -/

/-- The value of a hexadecimal digit. -/
def hexValue (c : ℕ) : Option ℕ :=
  if 0x30 ≤ c ∧ c ≤ 0x39 then some (c - 0x30)
  else if 0x41 ≤ c ∧ c ≤ 0x46 then some (c - 0x37)
  else if 0x61 ≤ c ∧ c ≤ 0x66 then some (c - 0x57)
  else none

/-- The byte of two digits. -/
def hexByte (c d : ℕ) : Option ℕ :=
  (hexValue c).bind fun x => (hexValue d).map fun y => 16 * x + y

/-- Percent-decoding; a `%` that is not followed by two digits stays. -/
def percentDecode : List UInt8 → List UInt8
  | b :: c :: d :: rest =>
    if b = 0x25 then
      match hexByte c.toNat d.toNat with
      | some e => UInt8.ofNat e :: percentDecode rest
      | none => b :: percentDecode (c :: d :: rest)
    else b :: percentDecode (c :: d :: rest)
  | bytes => bytes

def plusToSpace (b : UInt8) : UInt8 := if b = 0x2B then 0x20 else b

/-- `new TextDecoder().decode` without dropping a mark: U+FFFD for what is not UTF-8, and a byte that
cannot continue a code point begins a new one. -/
def decodeLossy : DecoderState → List UInt8 → JsString
  | d, [] => if d.needed = 0 then [] else [0xFFFD]
  | d, b :: rest =>
    match decodeByte d b with
    | some (d', out) => out ++ decodeLossy d' rest
    | none =>
      if d.needed = 0 then 0xFFFD :: decodeLossy .start rest
      else
        match decodeByte .start b with
        | some (d', out) => 0xFFFD :: (out ++ decodeLossy d' rest)
        | none => 0xFFFD :: 0xFFFD :: decodeLossy .start rest

/-- A name or a value. -/
def decodeComponent (text : JsString) : JsString :=
  decodeLossy .start (percentDecode ((textEncode text).map plusToSpace))

/-! ### Parsing -/

def isTabOrNewline (u : UInt16) : Bool := u == 0x09 || u == 0x0A || u == 0x0D

def isC0OrSpace (u : UInt16) : Bool := decide (u ≤ 0x20)

/-- The input without control characters and spaces at its ends. -/
def trimInput (input : JsString) : JsString :=
  ((input.dropWhile isC0OrSpace).reverse.dropWhile isC0OrSpace).reverse

/-- The input of the URL parser. -/
def cleanInput (input : JsString) : JsString := (trimInput input).filter fun u => !isTabOrNewline u

theorem trimInput_infix (input : JsString) :
    ∃ before after, input = before ++ (trimInput input ++ after) := by
  have hstart := List.takeWhile_append_dropWhile (p := isC0OrSpace) (l := input)
  have hend := congrArg List.reverse
    (List.takeWhile_append_dropWhile (p := isC0OrSpace) (l := (input.dropWhile isC0OrSpace).reverse))
  rw [List.reverse_append, List.reverse_reverse] at hend
  exact ⟨_, _, by rw [trimInput, hend, hstart]⟩

/-- The text between the first `?` and the first `#` (`0x3F` and `0x23`). -/
def queryOf (input : JsString) : JsString :=
  ((input.takeWhile (· != 0x23)).dropWhile (· != 0x3F)).tail

/-- The text of a name goes to the first `=`. -/
def nameText (piece : JsString) : JsString := piece.takeWhile (· != 0x3D)

def valueText (piece : JsString) : JsString := (piece.dropWhile (· != 0x3D)).tail

/-- The parameters of a URL, in their order. -/
def searchParams (input : JsString) : List (JsString × JsString) :=
  (((queryOf (cleanInput input)).splitOn 0x26).filter (· != [])).map fun piece =>
    (decodeComponent (nameText piece), decodeComponent (valueText piece))

/-! ### Where the names stand -/

/-- `text` ends at `=`, `&`, `#` or the end of the input. -/
def Ends (after : JsString) : Prop :=
  after = [] ∨ ∃ u a, after = u :: a ∧ (u = 0x3D ∨ u = 0x26 ∨ u = 0x23)

/-- `text` is the name of a parameter of the input, and `after` what follows it: before it stands the
first `?`, or an `&` after that, and no `#`. -/
structure NameAt (input text after : JsString) : Prop where
  place : ∃ before sep, input = before ++ sep :: (text ++ after) ∧ 0x23 ∉ before ∧
    (sep = 0x3F ∧ 0x3F ∉ before ∨ sep = 0x26 ∧ 0x3F ∈ before)
  plain : ∀ u ∈ text, u ≠ 0x3D ∧ u ≠ 0x26 ∧ u ≠ 0x23
  ends : Ends after

/-- A text up to the first `sep`, and from it on. -/
theorem takeWhile_ne_cases (sep : UInt16) : ∀ l : JsString,
    sep ∉ l.takeWhile (· != sep) ∧ ∃ rest, l = l.takeWhile (· != sep) ++ rest ∧
      l.dropWhile (· != sep) = rest ∧ (rest = [] ∨ ∃ r, rest = sep :: r)
  | [] => ⟨List.not_mem_nil, [], rfl, rfl, Or.inl rfl⟩
  | u :: l => by
    by_cases hu : u = sep
    · subst hu
      rw [List.takeWhile_cons_of_neg (by simp), List.dropWhile_cons_of_neg (by simp)]
      exact ⟨List.not_mem_nil, u :: l, rfl, rfl, Or.inr ⟨l, rfl⟩⟩
    · obtain ⟨hn, rest, hl, hd, hr⟩ := takeWhile_ne_cases sep l
      rw [List.takeWhile_cons_of_pos (by simpa using hu),
        List.dropWhile_cons_of_pos (by simpa using hu)]
      refine ⟨fun h => ?_, rest, congrArg (u :: ·) hl, hd, hr⟩
      rcases List.mem_cons.mp h with h | h
      · exact hu h.symm
      · exact hn h

theorem takeWhile_ne_append {sep : UInt16} {a b : JsString} (ha : sep ∉ a) :
    (a ++ b).takeWhile (· != sep) = a ++ b.takeWhile (· != sep) := by
  refine List.takeWhile_append_of_pos fun u hu => ?_
  simp only [bne_iff_ne]
  rintro rfl
  exact ha hu

theorem dropWhile_ne_append {sep : UInt16} {a b : JsString} (ha : sep ∉ a) :
    (a ++ sep :: b).dropWhile (· != sep) = sep :: b := by
  rw [List.dropWhile_append_of_pos, List.dropWhile_cons_of_neg (by simp)]
  intro u hu
  simp only [bne_iff_ne]
  rintro rfl
  exact ha hu

/-- The fragment, from the first `#` on. -/
def Fragment (frag : JsString) : Prop := frag = [] ∨ ∃ r, frag = 0x23 :: r

theorem takeWhile_ne_of_first {sep : UInt16} {rest : JsString}
    (h : rest = [] ∨ ∃ r, rest = sep :: r) : rest.takeWhile (· != sep) = [] := by
  rcases h with rfl | ⟨r, rfl⟩
  · rfl
  · rw [List.takeWhile_cons_of_neg (by simp)]

theorem queryOf_eq {start q frag : JsString} (hhash : ∀ u ∈ start ++ 0x3F :: q, u ≠ 0x23)
    (hquest : 0x3F ∉ start) (hfrag : Fragment frag) :
    queryOf (start ++ 0x3F :: q ++ frag) = q := by
  rw [queryOf, takeWhile_ne_append fun h => hhash _ h rfl, takeWhile_ne_of_first hfrag,
    List.append_nil, dropWhile_ne_append hquest, List.tail_cons]

/-- The query in its input. -/
theorem queryOf_cases (input : JsString) : queryOf input = [] ∨
    ∃ start frag, input = start ++ 0x3F :: queryOf input ++ frag ∧
      (∀ u ∈ start ++ 0x3F :: queryOf input, u ≠ 0x23) ∧ 0x3F ∉ start ∧ Fragment frag := by
  obtain ⟨hhash, frag, hin, -, hfrag⟩ := takeWhile_ne_cases 0x23 input
  obtain ⟨hquest, query, hhead, hdrop, hquery⟩ :=
    takeWhile_ne_cases 0x3F (input.takeWhile (· != 0x23))
  rcases hquery with rfl | ⟨q, rfl⟩
  · exact Or.inl (by rw [queryOf, hdrop, List.tail_nil])
  · have hq : queryOf input = q := by rw [queryOf, hdrop, List.tail_cons]
    rw [hq]
    refine Or.inr ⟨_, frag, ?_, ?_, hquest, hfrag⟩
    · rw [← hhead]
      exact hin
    · rw [← hhead]
      rintro u hu rfl
      exact hhash hu

/-- **The names of the parameters of a query.** -/
theorem mem_names {input text : JsString} (hne : text ≠ []) :
    (∃ piece ∈ (queryOf input).splitOn 0x26, nameText piece = text) ↔
      ∃ after, NameAt input text after := by
  constructor
  · rintro ⟨piece, hpiece, rfl⟩
    obtain ⟨hamp, before, after, hq, hstart, hend⟩ := mem_splitOn.mp hpiece
    obtain ⟨heq, value, hname, -, hvalue⟩ := takeWhile_ne_cases 0x3D piece
    change piece = nameText piece ++ value at hname
    rcases queryOf_cases input with hnil | ⟨start, frag, hin, hhash, hquest, hfrag⟩
    · -- without a query the only piece is empty
      rw [hnil] at hq
      have hp := (List.append_eq_nil_iff.mp (List.append_eq_nil_iff.mp hq.symm).2).1
      rw [hp] at hne
      exact absurd rfl hne
    · have hq' : queryOf input = before ++ (nameText piece ++ (value ++ after)) := by
        rw [← List.append_assoc (nameText piece), ← hname]
        exact hq
      rw [hq'] at hin hhash
      have hplain : ∀ u ∈ nameText piece, u ≠ 0x3D ∧ u ≠ 0x26 ∧ u ≠ 0x23 := by
        intro u hu
        refine ⟨?_, ?_, hhash u (by simp [hu])⟩
        · rintro rfl
          exact heq hu
        · rintro rfl
          rw [hname] at hamp
          exact hamp (List.mem_append_left _ hu)
      have hends : Ends (value ++ after ++ frag) := by
        rcases hvalue with rfl | ⟨v, rfl⟩
        · rcases hend with rfl | ⟨a, rfl⟩
          · rcases hfrag with rfl | ⟨r, rfl⟩
            · exact Or.inl rfl
            · exact Or.inr ⟨_, r, rfl, Or.inr (Or.inr rfl)⟩
          · exact Or.inr ⟨_, _, rfl, Or.inr (Or.inl rfl)⟩
        · exact Or.inr ⟨_, _, rfl, Or.inl rfl⟩
      rcases hstart with rfl | ⟨b, rfl⟩
      · exact ⟨_, ⟨start, 0x3F, by rw [hin]; simp, fun h => hhash _ (by simp [h]) rfl,
          Or.inl ⟨rfl, hquest⟩⟩, hplain, hends⟩
      · have hsub : ∀ u ∈ start ++ 0x3F :: b, u ≠ 0x23 := by
          intro u hu
          refine hhash u ?_
          rcases List.mem_append.mp hu with hu | hu
          · exact List.mem_append_left _ hu
          · rcases List.mem_cons.mp hu with rfl | hu
            · exact List.mem_append_right _ List.mem_cons_self
            · simp [hu]
        exact ⟨_, ⟨start ++ 0x3F :: b, 0x26, by rw [hin]; simp, fun h => hsub _ h rfl,
          Or.inr ⟨rfl, by simp⟩⟩, hplain, hends⟩
  · rintro ⟨after, ⟨before, sep, hin, hhash, hsep⟩, hplain, hends⟩
    obtain ⟨hnhash, frag, hafter, -, hfrag⟩ := takeWhile_ne_cases 0x23 after
    obtain ⟨hnamp, rest, hhead, -, hrest⟩ :=
      takeWhile_ne_cases 0x26 (after.takeWhile (· != 0x23))
    set value := (after.takeWhile (· != 0x23)).takeWhile (· != 0x26)
    -- what follows the name in its piece begins with `=`
    have hvalue : value.takeWhile (· != 0x3D) = [] := by
      rcases hends with rfl | ⟨u, a, rfl, rfl | rfl | rfl⟩ <;> simp [value]
    have hpiece : nameText (text ++ value) = text := by
      rw [nameText, takeWhile_ne_append fun h => (hplain _ h).1 rfl, hvalue, List.append_nil]
    have hamp : 0x26 ∉ text ++ value := by
      rw [List.mem_append]
      rintro (h | h)
      · exact (hplain _ h).2.1 rfl
      · exact hnamp h
    have htail : text ++ after = text ++ value ++ rest ++ frag := by
      rw [hafter, hhead]
      simp [value]
    have hplain' : ∀ u ∈ text ++ value ++ rest, u ≠ 0x23 := by
      rintro u hu rfl
      rw [List.append_assoc, ← hhead] at hu
      rcases List.mem_append.mp hu with hu | hu
      · exact (hplain _ hu).2.2 rfl
      · exact hnhash hu
    refine ⟨text ++ value, mem_splitOn.mpr ⟨hamp, ?_⟩, hpiece⟩
    rcases hsep with ⟨rfl, hquest⟩ | ⟨rfl, hquest⟩
    · refine ⟨[], rest, ?_, Or.inl rfl, hrest⟩
      rw [hin, htail]
      have hq := @queryOf_eq before (text ++ value ++ rest) frag (fun u hu => ?_) hquest hfrag
      · simpa using hq
      · rcases List.mem_append.mp hu with hu | hu
        · rintro rfl
          exact hhash hu
        · rcases List.mem_cons.mp hu with rfl | hu
          · decide
          · exact hplain' u hu
    · obtain ⟨start, b, rfl, hstart⟩ := List.eq_append_cons_of_mem hquest
      refine ⟨b ++ [0x26], rest, ?_, Or.inr ⟨b, rfl⟩, hrest⟩
      rw [hin, htail]
      have hq := @queryOf_eq start (b ++ 0x26 :: (text ++ value ++ rest)) frag (fun u hu => ?_)
        hstart hfrag
      · simpa using hq
      · rw [← List.cons_append, ← List.append_assoc] at hu
        rcases List.mem_append.mp hu with hu | hu
        · rintro rfl
          exact hhash hu
        · rcases List.mem_cons.mp hu with rfl | hu
          · decide
          · exact hplain' u hu

/-! ### Characters that are left out -/

theorem tab_cases {u : UInt16} (h : isTabOrNewline u = true) : u = 0x09 ∨ u = 0x0A ∨ u = 0x0D := by
  simp only [isTabOrNewline, Bool.or_eq_true, beq_iff_eq] at h
  tauto

theorem Ends.of_head {after after' : JsString} (h : Ends after) (hhead : after'.head? = after.head?) :
    Ends after' := by
  rcases h with rfl | ⟨u, a, rfl, hu⟩
  · rw [List.head?_nil, List.head?_eq_none_iff] at hhead
    exact Or.inl hhead
  · rw [List.head?_cons, List.head?_eq_some_iff] at hhead
    obtain ⟨a', rfl⟩ := hhead
    exact Or.inr ⟨u, a', rfl, hu⟩

/-- The units of a list that stay, split where they are split. -/
theorem filter_eq_append_head {p : UInt16 → Bool} {l text after : JsString}
    (h : l.filter p = text ++ after) : ∃ text₀ after₀, l = text₀ ++ after₀ ∧
      text₀.filter p = text ∧ after₀.head? = after.head? ∧ after₀.filter p = after := by
  obtain ⟨l₁, l₂, rfl, rfl, hafter⟩ := List.filter_eq_append_iff.mp h
  rcases after with _ | ⟨u, a⟩
  · exact ⟨l₁ ++ l₂, [], by simp, by rw [List.filter_append, hafter, List.append_nil], rfl, rfl⟩
  · obtain ⟨skipped, a₀, rfl, hskipped, hu, ha⟩ := List.filter_eq_cons_iff.mp hafter
    refine ⟨l₁ ++ skipped, u :: a₀, by simp, ?_, rfl, by rw [List.filter_cons_of_pos hu, ha]⟩
    rw [List.filter_append, List.filter_eq_nil_iff.mpr hskipped, List.append_nil]

/-- **The names in an input whose tabs and line breaks are left out.** -/
theorem nameAt_filter {input text : JsString} :
    (∃ after, NameAt (input.filter fun u => !isTabOrNewline u) text after) ↔
      ∃ text₀ after, NameAt input text₀ after ∧ text₀.filter (fun u => !isTabOrNewline u) = text := by
  have hstays : ∀ {u : UInt16}, ¬isTabOrNewline u → (!isTabOrNewline u) = true := by
    intro u hu
    simpa using hu
  have hmem : ∀ {u : UInt16} {l : JsString}, ¬isTabOrNewline u →
      (u ∈ l.filter (fun u => !isTabOrNewline u) ↔ u ∈ l) := by
    intro u l hu
    rw [List.mem_filter]
    exact and_iff_left (hstays hu)
  constructor
  · rintro ⟨after, ⟨before, sep, hin, hhash, hsep⟩, hplain, hends⟩
    obtain ⟨before₀, l, rfl, rfl, hl⟩ := List.filter_eq_append_iff.mp hin
    obtain ⟨skipped, l, rfl, hskipped, -, hl⟩ := List.filter_eq_cons_iff.mp hl
    obtain ⟨text₀, after₀, rfl, rfl, hhead, -⟩ := filter_eq_append_head hl
    have hno : ∀ {u : UInt16}, ¬isTabOrNewline u → u ∉ skipped := by
      intro u hu h
      exact hskipped u h (hstays hu)
    have hbefore : ∀ {u : UInt16}, ¬isTabOrNewline u → (u ∈ before₀ ++ skipped ↔
        u ∈ before₀.filter fun u => !isTabOrNewline u) := by
      intro u hu
      rw [List.mem_append, or_iff_left (hno hu), hmem hu]
    refine ⟨text₀, after₀, ⟨⟨before₀ ++ skipped, sep, by simp, ?_, ?_⟩, ?_, hends.of_head hhead⟩, rfl⟩
    · rw [hbefore (by decide)]
      exact hhash
    · rw [hbefore (by decide)]
      exact hsep
    · intro u hu
      by_cases htab : isTabOrNewline u
      · rcases tab_cases htab with rfl | rfl | rfl <;> decide
      · exact hplain u ((hmem htab).mpr hu)
  · rintro ⟨text₀, after, ⟨⟨before, sep, rfl, hhash, hsep⟩, hplain, hends⟩, rfl⟩
    have hsep' : (!isTabOrNewline sep) = true := by
      rcases hsep with ⟨rfl, -⟩ | ⟨rfl, -⟩ <;> decide
    refine ⟨after.filter fun u => !isTabOrNewline u,
      ⟨before.filter fun u => !isTabOrNewline u, sep, ?_, ?_, ?_⟩, ?_, ?_⟩
    · rw [List.filter_append, List.filter_cons, if_pos hsep', List.filter_append]
    · rw [hmem (by decide)]
      exact hhash
    · rw [hmem (by decide)]
      exact hsep
    · intro u hu
      exact hplain u (List.mem_of_mem_filter hu)
    · rcases hends with rfl | ⟨u, a, rfl, hu⟩
      · exact Or.inl rfl
      · refine Or.inr ⟨u, a.filter fun u => !isTabOrNewline u, ?_, hu⟩
        rw [List.filter_cons_of_pos]
        rcases hu with rfl | rfl | rfl <;> decide

/-! ### ASCII texts -/

/-- Lower case for `A`–`Z`, as case is ignored in names of settings. -/
def foldAscii (u : UInt16) : UInt16 :=
  if 0x41 ≤ u.toNat ∧ u.toNat ≤ 0x5A then UInt16.ofNat (u.toNat + 0x20) else u

theorem foldAscii_lt {u : UInt16} : (foldAscii u).toNat < 0x80 ↔ u.toNat < 0x80 := by
  unfold foldAscii
  split_ifs with h
  · rw [UInt16.toNat_ofNat']
    omega
  · rfl

/-- `=` is its own lower case, and of nothing else. -/
theorem foldAscii_eq_sign {u : UInt16} : foldAscii u = 0x3D ↔ u = 0x3D := by
  unfold foldAscii
  split_ifs with h
  · constructor
    · intro he
      have hnat := congrArg UInt16.toNat he
      rw [UInt16.toNat_ofNat', show (0x3D : UInt16).toNat = 0x3D from rfl] at hnat
      omega
    · rintro rfl
      exact absurd h (by decide)
  · rfl

/-- A code point that is not finished, and does not become ASCII. -/
structure Unfinished (d : DecoderState) : Prop where
  needed : d.needed ≠ 0
  lower : 0x80 ≤ d.lower
  large : 2 ≤ d.codePoint * 0x40 + (d.lower - 0x80)
  last : d.needed = 1 → 2 ≤ d.codePoint

/-- The first byte of a code point is the code unit, or begins a code point that is not ASCII. -/
theorem firstByte_cases {b : ℕ} {d' : DecoderState} {out : JsString}
    (h : firstByte b = some (d', out)) :
    b < 0x80 ∧ d' = .start ∧ out = [UInt16.ofNat b] ∨ 0x80 ≤ b ∧ Unfinished d' := by
  unfold firstByte at h
  by_cases h1 : b ≤ 0x7F
  · rw [if_pos h1] at h
    obtain ⟨rfl, rfl⟩ := Prod.mk.inj (Option.some.inj h)
    refine Or.inl ⟨by omega, rfl, ?_⟩
    rw [utf16, if_pos (by omega)]
  refine Or.inr ⟨by omega, ?_⟩
  rw [if_neg h1] at h
  by_cases h2 : 0xC2 ≤ b ∧ b ≤ 0xDF
  · rw [if_pos h2] at h
    obtain ⟨rfl, rfl⟩ := Prod.mk.inj (Option.some.inj h)
    exact ⟨Nat.one_ne_zero, Nat.le_refl _, by show 2 ≤ (b - 0xC0) * 0x40 + _; omega,
      fun _ => by show 2 ≤ b - 0xC0; omega⟩
  rw [if_neg h2] at h
  by_cases h3 : 0xE0 ≤ b ∧ b ≤ 0xEF
  · rw [if_pos h3] at h
    obtain ⟨rfl, rfl⟩ := Prod.mk.inj (Option.some.inj h)
    refine ⟨Nat.succ_ne_zero 1, ?_, ?_, fun (he : 2 = 1) => absurd he (by decide)⟩
    · show 0x80 ≤ if b = 0xE0 then 0xA0 else 0x80
      split_ifs <;> omega
    · show 2 ≤ (b - 0xE0) * 0x40 + ((if b = 0xE0 then 0xA0 else 0x80) - 0x80)
      split_ifs <;> omega
  rw [if_neg h3] at h
  by_cases h4 : 0xF0 ≤ b ∧ b ≤ 0xF4
  · rw [if_pos h4] at h
    obtain ⟨rfl, rfl⟩ := Prod.mk.inj (Option.some.inj h)
    refine ⟨Nat.succ_ne_zero 2, ?_, ?_, fun (he : 3 = 1) => absurd he (by decide)⟩
    · show 0x80 ≤ if b = 0xF0 then 0x90 else 0x80
      split_ifs <;> omega
    · show 2 ≤ (b - 0xF0) * 0x40 + ((if b = 0xF0 then 0x90 else 0x80) - 0x80)
      split_ifs <;> omega
  · rw [if_neg h4] at h
    cases h

theorem exists_large_utf16 {c : ℕ} (hc : 0x80 ≤ c) : ∃ u ∈ utf16 c, 0x80 ≤ u.toNat := by
  unfold utf16
  split_ifs with h
  · refine ⟨_, List.mem_singleton_self _, ?_⟩
    rw [UInt16.toNat_ofNat']
    omega
  · refine ⟨_, List.mem_cons_of_mem _ (List.mem_singleton_self _), ?_⟩
    rw [UInt16.toNat_ofNat']
    omega

/-- A byte inside a code point leaves the decoder inside it, or ends it. -/
theorem decodeByte_unfinished {d d' : DecoderState} {b : UInt8} {out : JsString}
    (hd : Unfinished d) (h : decodeByte d b = some (d', out)) :
    Unfinished d' ∨ ∃ u ∈ out, 0x80 ≤ u.toNat := by
  unfold decodeByte at h
  rw [if_neg hd.needed] at h
  by_cases hb : d.lower ≤ b.toNat ∧ b.toNat ≤ d.upper
  · rw [if_pos hb] at h
    have hlower := hd.lower
    have hlarge := hd.large
    simp only at h
    by_cases h1 : d.needed = 1
    · rw [if_pos h1] at h
      obtain ⟨rfl, rfl⟩ := Prod.mk.inj (Option.some.inj h)
      have hlast := hd.last h1
      exact Or.inr (exists_large_utf16 (by omega))
    · rw [if_neg h1] at h
      obtain ⟨rfl, rfl⟩ := Prod.mk.inj (Option.some.inj h)
      have hneeded := hd.needed
      refine Or.inl ⟨?_, Nat.le_refl _, ?_, fun _ => ?_⟩
      · show d.needed - 1 ≠ 0
        omega
      · show 2 ≤ (d.codePoint * 0x40 + (b.toNat - 0x80)) * 0x40 + _
        omega
      · show 2 ≤ d.codePoint * 0x40 + (b.toNat - 0x80)
        omega
  · rw [if_neg hb] at h
    cases h

/-- Inside a code point, what is decoded is not all ASCII. -/
theorem decodeLossy_unfinished : ∀ (bytes : List UInt8) {d : DecoderState}, Unfinished d →
    ∃ u ∈ decodeLossy d bytes, 0x80 ≤ u.toNat
  | [], d, hd => by
    rw [decodeLossy, if_neg hd.needed]
    exact ⟨0xFFFD, List.mem_singleton_self _, by decide⟩
  | b :: rest, d, hd => by
    rw [decodeLossy]
    rcases hdec : decodeByte d b with _ | ⟨d', out⟩
    · simp only
      rw [if_neg hd.needed]
      rcases decodeByte .start b with _ | ⟨d', out⟩
      · exact ⟨0xFFFD, List.mem_cons_self, by decide⟩
      · exact ⟨0xFFFD, List.mem_cons_self, by decide⟩
    · rcases decodeByte_unfinished hd hdec with hd' | ⟨u, hu, hle⟩
      · obtain ⟨u, hu, hle⟩ := decodeLossy_unfinished rest hd'
        exact ⟨u, List.mem_append_right _ hu, hle⟩
      · exact ⟨u, List.mem_append_left _ hu, hle⟩

/-- A unit that is not ASCII is in no ASCII name. -/
theorem map_foldAscii_ne {units name : JsString} (hname : ∀ u ∈ name, u.toNat < 0x80)
    {u : UInt16} (hu : u ∈ units) (hle : 0x80 ≤ u.toNat) : units.map foldAscii ≠ name := by
  rintro rfl
  have hlt := foldAscii_lt.mp (hname _ (List.mem_map_of_mem hu))
  omega

/-- **An ASCII name is decoded from its own bytes only**, up to case. -/
theorem decodeLossy_iff : ∀ (bytes : List UInt8) {name : JsString},
    (∀ u ∈ name, u.toNat < 0x80) → ((decodeLossy .start bytes).map foldAscii = name ↔
      (bytes.map fun b => UInt16.ofNat b.toNat).map foldAscii = name)
  | [], _, _ => Iff.rfl
  | b :: rest, name, hname => by
    have hlt := b.toNat_lt
    have hmem : UInt16.ofNat b.toNat ∈ (b :: rest).map fun b => UInt16.ofNat b.toNat :=
      List.mem_cons_self
    have hnat : (UInt16.ofNat b.toNat).toNat = b.toNat := by
      rw [UInt16.toNat_ofNat']
      omega
    have hstart : decodeByte .start b = firstByte b.toNat := by
      rw [decodeByte, if_pos (show DecoderState.start.needed = 0 from rfl)]
    rw [decodeLossy, hstart]
    rcases hf : firstByte b.toNat with _ | ⟨d', out⟩
    · -- a byte that begins no code point is not ASCII
      have hb : 0x80 ≤ b.toNat := by
        by_contra hlt
        rw [firstByte, if_pos (by omega)] at hf
        cases hf
      exact iff_of_false (map_foldAscii_ne hname List.mem_cons_self (by decide))
        (map_foldAscii_ne hname hmem (by omega))
    · rcases firstByte_cases hf with ⟨hb, rfl, rfl⟩ | ⟨hb, hd'⟩
      · rw [List.map_append, List.map_cons, List.map_cons, List.map_nil, List.map_cons,
          List.singleton_append]
        rcases name with _ | ⟨u, name⟩
        · exact iff_of_false (List.cons_ne_nil _ _) (List.cons_ne_nil _ _)
        · rw [List.cons.injEq, List.cons.injEq,
            decodeLossy_iff rest fun u hu => hname u (List.mem_cons_of_mem _ hu)]
      · obtain ⟨u, hu, hle⟩ := decodeLossy_unfinished rest hd'
        exact iff_of_false (map_foldAscii_ne hname (List.mem_append_right out hu) hle)
          (map_foldAscii_ne hname hmem (by omega))

/-! ### Percent-encoded names -/

/-- The text spells the name up to case: character by character, or with `%` and two digits. -/
inductive Spells : JsString → JsString → Prop
  | nil : Spells [] []
  | plain {u : UInt16} {text name : JsString} : u ≠ 0x25 → Spells text name →
    Spells (u :: text) (foldAscii u :: name)
  | escaped {a b : UInt16} {e : ℕ} {text name : JsString} : hexByte a.toNat b.toNat = some e →
    Spells text name → Spells (0x25 :: a :: b :: text) (foldAscii (UInt16.ofNat e) :: name)

/-- A name without `%` is spelled by itself, up to case. -/
theorem Spells.map_foldAscii {text name : JsString} (h : Spells text name) (hp : 0x25 ∉ text) :
    text.map foldAscii = name := by
  induction h with
  | nil => rfl
  | plain _ _ ih => rw [List.map_cons, ih fun h => hp (List.mem_cons_of_mem _ h)]
  | escaped => exact absurd List.mem_cons_self hp

/-- The characters of a name that are not changed by the decoding. -/
def plainName (name : JsString) : Prop :=
  ∀ u ∈ name, u.toNat < 0x80 ∧ u ≠ 0x20 ∧ u ≠ 0x25 ∧ u ≠ 0x2B

theorem hexValue_lt {c x : ℕ} (h : hexValue c = some x) : x < 16 ∧ c < 0x80 := by
  unfold hexValue at h
  split_ifs at h <;> simp only [Option.some.injEq] at h <;> omega

theorem hexByte_lt {c d e : ℕ} (h : hexByte c d = some e) : e < 256 ∧ c < 0x80 ∧ d < 0x80 := by
  unfold hexByte at h
  simp only [Option.bind_eq_some_iff, Option.map_eq_some_iff] at h
  obtain ⟨x, hx, y, hy, rfl⟩ := h
  have hx' := hexValue_lt hx
  have hy' := hexValue_lt hy
  omega

theorem percentDecode_plain {b : UInt8} (hb : b ≠ 0x25) (rest : List UInt8) :
    percentDecode (b :: rest) = b :: percentDecode rest := by
  rcases rest with _ | ⟨c, _ | ⟨d, rest⟩⟩
  · rfl
  · rfl
  · rw [percentDecode, if_neg hb]

theorem percentDecode_escaped {c d : UInt8} {e : ℕ} (h : hexByte c.toNat d.toNat = some e)
    (rest : List UInt8) :
    percentDecode (0x25 :: c :: d :: rest) = UInt8.ofNat e :: percentDecode rest := by
  rw [percentDecode, if_pos rfl, h]

/-- A byte that is not ASCII stays. -/
theorem mem_percentDecode {b : UInt8} (hb : 0x80 ≤ b.toNat) : ∀ {bytes : List UInt8},
    b ∈ bytes → b ∈ percentDecode bytes
  | [], h => h
  | [_], h => h
  | [_, _], h => h
  | x :: c :: d :: rest, h => by
    rw [percentDecode]
    split_ifs with hx
    · rcases he : hexByte c.toNat d.toNat with _ | e
      · simp only
        rcases List.mem_cons.mp h with rfl | h
        · exact List.mem_cons_self
        · exact List.mem_cons_of_mem _ (mem_percentDecode hb h)
      · have hlt := hexByte_lt he
        simp only
        rcases List.mem_cons.mp h with rfl | h
        · rw [hx] at hb
          exact absurd hb (by decide)
        · rcases List.mem_cons.mp h with rfl | h
          · omega
          · rcases List.mem_cons.mp h with rfl | h
            · omega
            · exact List.mem_cons_of_mem _ (mem_percentDecode hb h)
    · rcases List.mem_cons.mp h with rfl | h
      · exact List.mem_cons_self
      · exact List.mem_cons_of_mem _ (mem_percentDecode hb h)

theorem percentDecode_literal {bytes : List UInt8}
    (h : ∀ c d rest, bytes = c :: d :: rest → hexByte c.toNat d.toNat = none) :
    percentDecode (0x25 :: bytes) = 0x25 :: percentDecode bytes := by
  rcases bytes with _ | ⟨c, _ | ⟨d, rest⟩⟩
  · rfl
  · rfl
  · rw [percentDecode, if_pos rfl, h c d rest rfl]

theorem textEncode_cons_ascii {u : UInt16} (hu : u.toNat < 0x80) (text : JsString) :
    textEncode (u :: text) = UInt8.ofNat u.toNat :: textEncode text := by
  have hplain : plainUnit u = true := by
    simp only [plainUnit, Bool.and_eq_true, Bool.not_eq_true', Bool.eq_false_iff]
    rw [Ne, Ne, (surrogate_iff u).1, (surrogate_iff u).2]
    omega
  rw [textEncode, codePoints_cons_plain hplain, List.flatMap_cons, utf8, if_pos hu]
  rfl

/-- The first byte of a text that begins with another unit. -/
theorem textEncode_cons_large {u : UInt16} (hu : 0x80 ≤ u.toNat) (text : JsString) :
    ∃ b rest, textEncode (u :: text) = b :: rest ∧ 0x80 ≤ b.toNat := by
  have hfirst : ∃ c cs, codePoints (u :: text) = c :: cs ∧ 0x80 ≤ c := by
    rcases text with _ | ⟨v, text⟩
    · rw [codePoints]
      split_ifs
      · exact ⟨_, _, rfl, by decide⟩
      · exact ⟨_, _, rfl, hu⟩
    · rw [codePoints]
      split_ifs
      · exact ⟨_, _, rfl, by unfold pairCodePoint; omega⟩
      · exact ⟨_, _, rfl, by decide⟩
      · exact ⟨_, _, rfl, by decide⟩
      · exact ⟨_, _, rfl, hu⟩
  obtain ⟨c, cs, hc, hle⟩ := hfirst
  have hscalar := (codePoints_spec (u :: text)).1 c (by rw [hc]; exact List.mem_cons_self)
  unfold IsScalar at hscalar
  rw [textEncode, hc, List.flatMap_cons, utf8, if_neg (by omega)]
  split_ifs
  all_goals
    refine ⟨_, _, rfl, ?_⟩
    rw [toNat_ofNat8 (by omega)]
    omega

theorem plusToSpace_of_ne {b : UInt8} (hb : b ≠ 0x2B) : plusToSpace b = b := if_neg hb

/-- The bytes of a text before they are percent-decoded. -/
def formBytes (text : JsString) : List UInt8 := (textEncode text).map plusToSpace

theorem formBytes_cons_ascii {u : UInt16} (hu : u.toNat < 0x80) (text : JsString) :
    formBytes (u :: text) = plusToSpace (UInt8.ofNat u.toNat) :: formBytes text := by
  rw [formBytes, textEncode_cons_ascii hu, List.map_cons]
  rfl

theorem toNat_ascii {u : UInt16} (hu : u.toNat < 0x80) : (UInt8.ofNat u.toNat).toNat = u.toNat :=
  toNat_ofNat8 (by omega)

/-- An ASCII unit is the byte that is its code. -/
theorem ofNat_eq_iff {u v : UInt16} (hu : u.toNat < 0x80) (hv : v.toNat < 0x80) :
    UInt8.ofNat u.toNat = UInt8.ofNat v.toNat ↔ u = v := by
  constructor
  · intro h
    have hnat := congrArg UInt8.toNat h
    rw [toNat_ascii hu, toNat_ascii hv] at hnat
    exact UInt16.toNat_inj.mp hnat
  · rintro rfl
    rfl

/-- The first unit of a text whose first byte is a digit. -/
theorem formBytes_eq_cons {text : JsString} {c : UInt8} {rest : List UInt8}
    (h : formBytes text = c :: rest) {d e : ℕ} (hhex : hexByte c.toNat d = some e ∨
      hexByte d c.toNat = some e) :
    ∃ u text', text = u :: text' ∧ u.toNat = c.toNat ∧ formBytes text' = rest := by
  have hc : c.toNat < 0x80 ∧ c ≠ 0x20 := by
    refine ⟨?_, ?_⟩
    · rcases hhex with hhex | hhex
      · exact (hexByte_lt hhex).2.1
      · exact (hexByte_lt hhex).2.2
    · rintro rfl
      rcases hhex with hhex | hhex
      · cases hhex
      · unfold hexByte at hhex
        rw [show hexValue (UInt8.toNat 0x20) = none from rfl] at hhex
        simp at hhex
  rcases text with _ | ⟨u, text'⟩
  · cases h
  · by_cases hu : u.toNat < 0x80
    · rw [formBytes_cons_ascii hu] at h
      obtain ⟨h1, h2⟩ := List.cons.inj h
      refine ⟨u, text', rfl, ?_, h2⟩
      unfold plusToSpace at h1
      split_ifs at h1
      · exact absurd h1.symm hc.2
      · rw [← h1, toNat_ascii hu]
    · obtain ⟨b, bs, hb, hle⟩ := textEncode_cons_large (Nat.le_of_not_lt hu) text'
      rw [formBytes, hb, List.map_cons, plusToSpace_of_ne] at h
      · rw [(List.cons.inj h).1] at hle
        omega
      · rintro rfl
        exact absurd hle (by decide)

theorem plainName.tail {u : UInt16} {name : JsString} (h : plainName (u :: name)) :
    plainName name := fun v hv => h v (List.mem_cons_of_mem _ hv)

theorem plainName.ascii {name : JsString} (h : plainName name) : ∀ u ∈ name, u.toNat < 0x80 :=
  fun u hu => (h u hu).1

/-- The characters of percent-decoded bytes, up to case. -/
def decodedName (bytes : List UInt8) : JsString :=
  ((percentDecode bytes).map fun b => UInt16.ofNat b.toNat).map foldAscii

/-- A character that is not `%`. -/
theorem decodedName_plain_iff {u : UInt16} {text name : JsString} (hu : u.toNat < 0x80)
    (hne : u ≠ 0x25) (hname : plainName name)
    (ih : ∀ name, plainName name → (decodedName (formBytes text) = name ↔ Spells text name)) :
    decodedName (formBytes (u :: text)) = name ↔ Spells (u :: text) name := by
  have hunit : UInt8.ofNat u.toNat = 0x2B ↔ u = 0x2B :=
    ofNat_eq_iff hu (show (0x2B : UInt16).toNat < 0x80 by decide)
  have hbyte : plusToSpace (UInt8.ofNat u.toNat) ≠ 0x25 := by
    unfold plusToSpace
    split_ifs
    · decide
    · exact fun h => hne ((ofNat_eq_iff hu (show (0x25 : UInt16).toNat < 0x80 by decide)).mp h)
  rw [decodedName, formBytes_cons_ascii hu, percentDecode_plain hbyte, List.map_cons, List.map_cons]
  rcases name with _ | ⟨c, name⟩
  · refine iff_of_false (List.cons_ne_nil _ _) ?_
    rintro ⟨⟩
  · rw [List.cons.injEq]
    change _ ∧ decodedName (formBytes text) = name ↔ _
    rw [ih name hname.tail]
    by_cases hplus : u = 0x2B
    · -- `+` is decoded to a space, and the name has neither
      have hc := hname c List.mem_cons_self
      rw [plusToSpace, if_pos (hunit.mpr hplus)]
      refine iff_of_false (fun h => hc.2.1 h.1.symm) fun h => ?_
      rw [hplus] at h
      rcases h with _ | ⟨-, -⟩
      exact hc.2.2.2 rfl
    · rw [plusToSpace, if_neg (mt hunit.mp hplus), toNat_ascii hu, UInt16.ofNat_toNat]
      constructor
      · rintro ⟨rfl, h⟩
        exact .plain hne h
      · intro h
        rcases h with _ | ⟨-, h⟩
        · exact ⟨rfl, h⟩
        · exact absurd rfl hne

theorem hexValue_plus : hexValue 0x2B = none := rfl

/-- A digit of a byte is not `+`. -/
theorem ne_plus_of_hexByte {a b e : ℕ} (h : hexByte a b = some e) : a ≠ 0x2B ∧ b ≠ 0x2B := by
  unfold hexByte at h
  constructor
  · rintro rfl
    rw [hexValue_plus] at h
    cases h
  · rintro rfl
    simp only [hexValue_plus, Option.map_none, Option.bind_fun_none] at h
    cases h

/-- A character that is `%`. -/
theorem decodedName_percent_iff {text name : JsString} (hname : plainName name)
    (ih : ∀ rest name, rest.length < text.length → plainName name →
      (decodedName (formBytes rest) = name ↔ Spells rest name)) :
    decodedName (formBytes (0x25 :: text)) = name ↔ Spells (0x25 :: text) name := by
  have hpercent : (0x25 : UInt16).toNat < 0x80 := by decide
  have hcons : formBytes (0x25 :: text) = 0x25 :: formBytes text :=
    (formBytes_cons_ascii hpercent text).trans rfl
  by_cases hescaped : ∃ a b rest e, text = a :: b :: rest ∧ hexByte a.toNat b.toNat = some e
  · obtain ⟨a, b, rest, e, rfl, he⟩ := hescaped
    obtain ⟨hlt, ha, hb⟩ := hexByte_lt he
    obtain ⟨hane, hbne⟩ := ne_plus_of_hexByte he
    have hdigit : ∀ {u : UInt16}, u.toNat < 0x80 → u.toNat ≠ 0x2B →
        plusToSpace (UInt8.ofNat u.toNat) = UInt8.ofNat u.toNat := by
      intro u hu hne
      refine plusToSpace_of_ne fun h => hne ?_
      rw [← toNat_ascii hu, h]
      rfl
    rw [hcons, formBytes_cons_ascii ha, formBytes_cons_ascii hb, hdigit ha hane, hdigit hb hbne,
      decodedName, percentDecode_escaped (by rw [toNat_ascii ha, toNat_ascii hb]; exact he),
      List.map_cons, List.map_cons, toNat_ofNat8 hlt]
    change _ :: decodedName (formBytes rest) = name ↔ _
    constructor
    · rintro rfl
      refine .escaped he ((ih rest _ ?_ hname.tail).mp rfl)
      simp only [List.length_cons]
      omega
    · intro h
      rcases h with _ | ⟨hne, -⟩ | ⟨he', h⟩
      · exact absurd rfl hne
      · rw [he] at he'
        obtain rfl := Option.some.inj he'
        rw [(ih rest _ ?_ hname.tail).mpr h]
        simp only [List.length_cons]
        omega
  · have hliteral : ∀ c d rest, formBytes text = c :: d :: rest →
        hexByte c.toNat d.toNat = none := by
      intro c d rest h
      by_contra hsome
      obtain ⟨e, he⟩ := Option.ne_none_iff_exists'.mp hsome
      obtain ⟨a, text₁, rfl, ha, h₁⟩ := formBytes_eq_cons h (Or.inl he)
      obtain ⟨b, text₂, rfl, hb, -⟩ := formBytes_eq_cons h₁ (Or.inr he)
      exact hescaped ⟨a, b, text₂, e, rfl, by rw [ha, hb]; exact he⟩
    rw [hcons, decodedName, percentDecode_literal hliteral, List.map_cons, List.map_cons]
    refine iff_of_false ?_ fun h => ?_
    · -- a name has no `%`
      rintro rfl
      exact (hname _ List.mem_cons_self).2.2.1 rfl
    · rcases h with _ | ⟨hne, -⟩ | ⟨he, -⟩
      · exact hne rfl
      · exact hescaped ⟨_, _, _, _, rfl, he⟩

/-- **What is percent-decoded to a name.** -/
theorem decodedName_iff {text : JsString} {name : JsString} (hname : plainName name) :
    decodedName (formBytes text) = name ↔ Spells text name := by
  induction hn : text.length using Nat.strongRecOn generalizing text name with
  | ind n ih =>
    rcases text with _ | ⟨u, text⟩
    · constructor
      · rintro rfl
        exact .nil
      · rintro ⟨⟩
        rfl
    have hlen : text.length < n := by
      rw [← hn, List.length_cons]
      omega
    by_cases hu : u.toNat < 0x80
    · by_cases hpercent : u = 0x25
      · subst hpercent
        exact decodedName_percent_iff hname fun rest name hrest hname =>
          ih _ (by omega) hname rfl
      · exact decodedName_plain_iff hu hpercent hname fun name hname => ih _ hlen hname rfl
    · obtain ⟨b, bs, hb, hle⟩ := textEncode_cons_large (Nat.le_of_not_lt hu) text
      have hmem : b ∈ percentDecode (formBytes (u :: text)) := by
        refine mem_percentDecode hle ?_
        rw [formBytes, hb, List.map_cons, plusToSpace_of_ne]
        · exact List.mem_cons_self
        · rintro rfl
          exact absurd hle (by decide)
      refine iff_of_false (map_foldAscii_ne hname.ascii (List.mem_map_of_mem hmem) ?_) fun h => ?_
      · rw [UInt16.toNat_ofNat']
        have := b.toNat_lt
        omega
      · rcases h with _ | ⟨-, -⟩
        · exact hu (foldAscii_lt.mp (hname _ List.mem_cons_self).1)
        · exact hu (by decide)

/-- **The texts that are decoded to an ASCII name**, up to case. -/
theorem decodeComponent_iff {text name : JsString} (hname : plainName name) :
    (decodeComponent text).map foldAscii = name ↔ Spells text name := by
  rw [decodeComponent, decodeLossy_iff _ hname.ascii]
  exact decodedName_iff hname

/-- **The parameters with an ASCII name**, up to case, and where they stand. -/
theorem exists_param_iff {input name : JsString} (hname : plainName name) (hne : name ≠ []) :
    (∃ param ∈ searchParams input, param.1.map foldAscii = name) ↔
      ∃ text after, NameAt (trimInput input) text after ∧
        Spells (text.filter fun u => !isTabOrNewline u) name := by
  have hempty : ∀ text, Spells text name → text ≠ [] := by
    rintro text h rfl
    cases h
    exact hne rfl
  calc (∃ param ∈ searchParams input, param.1.map foldAscii = name)
      ↔ ∃ text, (∃ piece ∈ (queryOf (cleanInput input)).splitOn 0x26, nameText piece = text) ∧
          Spells text name := by
        constructor
        · intro h
          obtain ⟨param, hparam, hfold⟩ := h
          obtain ⟨piece, hpiece, rfl⟩ := List.mem_map.mp hparam
          exact ⟨_, ⟨piece, (List.mem_filter.mp hpiece).1, rfl⟩, (decodeComponent_iff hname).mp hfold⟩
        · intro h
          obtain ⟨_, ⟨piece, hpiece, rfl⟩, hspells⟩ := h
          refine ⟨_, List.mem_map_of_mem (List.mem_filter.mpr ⟨hpiece, ?_⟩),
            (decodeComponent_iff hname).mpr hspells⟩
          have hpiece : piece ≠ [] := by
            rintro rfl
            exact hempty _ hspells rfl
          simpa using hpiece
    _ ↔ ∃ text, (∃ after, NameAt (cleanInput input) text after) ∧ Spells text name := by
        refine exists_congr fun text => and_congr_left fun hspells => ?_
        exact mem_names (hempty text hspells)
    _ ↔ _ := by
        simp only [cleanInput, nameAt_filter]
        constructor
        · rintro ⟨_, ⟨text, after, hat, rfl⟩, hspells⟩
          exact ⟨text, after, hat, hspells⟩
        · rintro ⟨text, after, hat, hspells⟩
          exact ⟨_, ⟨text, after, hat, rfl⟩, hspells⟩

end UmbraDB.Js.UrlQuery
