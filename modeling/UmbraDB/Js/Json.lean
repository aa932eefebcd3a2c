import UmbraDB.Js.Decimal
import UmbraDB.Lib.Trees
import UmbraDB.Lib.Transducers

/-! # JSON

`JSON.stringify` and `JSON.parse`. The text is first cut into tokens and the tokens are then put
together, each by a machine that reads one item at a time and keeps what is still open.

An object is the list of its members in the order in which they were set; nothing here depends on
that order. A member that comes twice has the value of the last one.

* `parse_stringify` : a value comes back, if each object has distinct keys and each number is read
  back from its text. -/

namespace UmbraDB.Js.Json

open UmbraDB.Js.Text UmbraDB.Js.Numerals UmbraDB.Js.Number UmbraDB.Js.Decimal
open UmbraDB.Lib.Trees UmbraDB.Lib.Transducers

inductive JsonLeaf
  | string (s : JsString)
  | number (n : JsNumber)
  | boolean (b : Bool)
  | null
  deriving DecidableEq

abbrev JsonValue := Tree JsString JsonLeaf

/-! ### `JSON.stringify` -/

def hexDigit (d : ℕ) : UInt16 := UInt16.ofNat (if d < 10 then 48 + d else 87 + d)

/-- `\u` and four hexadecimal digits. -/
def unicodeEscape (u : UInt16) : JsString :=
  [0x5C, 0x75, hexDigit (u.toNat / 4096), hexDigit (u.toNat / 256 % 16),
    hexDigit (u.toNat / 16 % 16), hexDigit (u.toNat % 16)]

/-- The letter after the backslash, for the units that have a short escape. -/
def shortEscape (u : UInt16) : Option UInt16 :=
  if u = 0x08 then some 0x62
  else if u = 0x09 then some 0x74
  else if u = 0x0A then some 0x6E
  else if u = 0x0C then some 0x66
  else if u = 0x0D then some 0x72
  else if u = 0x22 then some 0x22
  else if u = 0x5C then some 0x5C
  else none

/-- A unit that is not a surrogate. -/
def escapeUnit (u : UInt16) : JsString :=
  match shortEscape u with
  | some v => [0x5C, v]
  | none => if u < 0x20 then unicodeEscape u else [u]

/-- The units between the quotes; an unpaired surrogate is escaped. -/
def escaped : JsString → JsString
  | [] => []
  | [u] => if isHighSurrogate u || isLowSurrogate u then unicodeEscape u else escapeUnit u
  | u :: v :: s =>
    if isHighSurrogate u then
      if isLowSurrogate v then u :: v :: escaped s else unicodeEscape u ++ escaped (v :: s)
    else (if isLowSurrogate u then unicodeEscape u else escapeUnit u) ++ escaped (v :: s)

def quoted (s : JsString) : JsString := 0x22 :: escaped s ++ [0x22]

def leafText : JsonLeaf → JsString
  | .string s => quoted s
  | .number (.finite q) => finiteText q
  | .number .negZero => ascii "0"
  | .number .nonFinite => ascii "null"
  | .boolean true => ascii "true"
  | .boolean false => ascii "false"
  | .null => ascii "null"

mutual

def stringify : JsonValue → JsString
  | .leaf l => leafText l
  | .array .nil => [0x5B, 0x5D]
  | .array (.cons t rest) => 0x5B :: (stringify t ++ (moreItems rest ++ [0x5D]))
  | .object .nil => [0x7B, 0x7D]
  | .object (.cons k t rest) =>
    0x7B :: (quoted k ++ 0x3A :: (stringify t ++ (moreMembers rest ++ [0x7D])))

/-- The items after the first. -/
def moreItems : Items JsString JsonLeaf → JsString
  | .nil => []
  | .cons t rest => 0x2C :: (stringify t ++ moreItems rest)

def moreMembers : Fields JsString JsonLeaf → JsString
  | .nil => []
  | .cons k t rest => 0x2C :: (quoted k ++ 0x3A :: (stringify t ++ moreMembers rest))

end

/-! ### The text is well-formed -/

theorem unicodeEscape_wellFormed (u : UInt16) :
    toWellFormed (unicodeEscape u) = unicodeEscape u := by
  have hdigit : ∀ d < 16, plainUnit (hexDigit d) = true := by decide
  have hlt := u.toNat_lt
  have h1 := hdigit (u.toNat / 4096) (by omega)
  have h2 := hdigit (u.toNat / 256 % 16) (by omega)
  have h3 := hdigit (u.toNat / 16 % 16) (by omega)
  have h4 := hdigit (u.toNat % 16) (by omega)
  have h5 : plainUnit 0x5C = true := by decide
  have h6 : plainUnit 0x75 = true := by decide
  exact toWellFormed_of_plain (by simp [unicodeEscape, h1, h2, h3, h4, h5, h6])

theorem escapeUnit_wellFormed {u : UInt16} (hu : plainUnit u = true) :
    toWellFormed (escapeUnit u) = escapeUnit u := by
  rw [escapeUnit]
  rcases hs : shortEscape u with _ | v
  · simp only
    split_ifs
    · exact unicodeEscape_wellFormed u
    · exact toWellFormed_of_plain (by simp [hu])
  · have hv : plainUnit v = true := by
      unfold shortEscape at hs
      split_ifs at hs <;> cases hs <;> decide
    have hback : plainUnit 0x5C = true := by decide
    exact toWellFormed_of_plain (by simp [hv, hback])

theorem escaped_wellFormed : ∀ (s : JsString), toWellFormed (escaped s) = escaped s
  | [] => rfl
  | [u] => by
    rw [escaped]
    rcases hu : isHighSurrogate u || isLowSurrogate u
    · refine escapeUnit_wellFormed ?_
      obtain ⟨h1, h2⟩ := Bool.or_eq_false_iff.mp hu
      simp [plainUnit, h1, h2]
    · exact unicodeEscape_wellFormed u
  | u :: v :: s => by
    have ih := escaped_wellFormed (v :: s)
    rw [escaped]
    split_ifs with hu hv hl
    · rw [toWellFormed_cons_pair hu hv, escaped_wellFormed s]
    · rw [toWellFormed_append (unicodeEscape_wellFormed u), ih]
    · rw [toWellFormed_append (unicodeEscape_wellFormed u), ih]
    · rw [toWellFormed_append (escapeUnit_wellFormed (by simp [plainUnit, hu, hl])), ih]

theorem quoted_wellFormed (s : JsString) : toWellFormed (quoted s) = quoted s := by
  rw [quoted, List.cons_append, toWellFormed_cons_plain (by decide),
    toWellFormed_append (escaped_wellFormed s)]
  rfl

theorem leafText_wellFormed (l : JsonLeaf) : toWellFormed (leafText l) = leafText l := by
  rcases l with s | n | b | _
  · exact quoted_wellFormed s
  · rcases n with q | _ | _
    · exact toWellFormed_of_plain (finiteText_plain q)
    · rfl
    · rfl
  · cases b <;> rfl
  · rfl

mutual

/-- **An unpaired surrogate is never in the text.** -/
theorem stringify_wellFormed : ∀ (v : JsonValue), toWellFormed (stringify v) = stringify v
  | .leaf l => by
    rw [stringify]
    exact leafText_wellFormed l
  | .array .nil => by
    rw [stringify]
    rfl
  | .array (.cons t rest) => by
    rw [stringify, toWellFormed_cons_plain (by decide), toWellFormed_append
      (stringify_wellFormed t), toWellFormed_append (moreItems_wellFormed rest)]
    rfl
  | .object .nil => by
    rw [stringify]
    rfl
  | .object (.cons k t rest) => by
    rw [stringify, toWellFormed_cons_plain (by decide), toWellFormed_append
      (quoted_wellFormed k), toWellFormed_cons_plain (by decide), toWellFormed_append
      (stringify_wellFormed t), toWellFormed_append (moreMembers_wellFormed rest)]
    rfl

theorem moreItems_wellFormed : ∀ (items : Items JsString JsonLeaf),
    toWellFormed (moreItems items) = moreItems items
  | .nil => rfl
  | .cons t rest => by
    rw [moreItems, toWellFormed_cons_plain (by decide), toWellFormed_append
      (stringify_wellFormed t), moreItems_wellFormed rest]

theorem moreMembers_wellFormed : ∀ (members : Fields JsString JsonLeaf),
    toWellFormed (moreMembers members) = moreMembers members
  | .nil => rfl
  | .cons k t rest => by
    rw [moreMembers, toWellFormed_cons_plain (by decide), toWellFormed_append
      (quoted_wellFormed k), toWellFormed_cons_plain (by decide), toWellFormed_append
      (stringify_wellFormed t), moreMembers_wellFormed rest]

end

/-! ### The tokens of a text -/

inductive Token
  | beginObject
  | endObject
  | beginArray
  | endArray
  | colon
  | comma
  /-- A string, which may also be a key, a number, or a literal. -/
  | leaf (l : JsonLeaf)
  deriving DecidableEq

def punctuation (u : UInt16) : Option Token :=
  if u = 0x7B then some .beginObject
  else if u = 0x7D then some .endObject
  else if u = 0x5B then some .beginArray
  else if u = 0x5D then some .endArray
  else if u = 0x3A then some .colon
  else if u = 0x2C then some .comma
  else none

/-- Tab, line feed, carriage return, blank. -/
def isSpace (u : UInt16) : Bool := u == 0x09 || u == 0x0A || u == 0x0D || u == 0x20

/-- A unit of a number or a literal, or one that stands nowhere outside of a string. -/
def isBare (u : UInt16) : Bool := !isSpace u && u != 0x22 && punctuation u == none

/-- What a whole run of such units denotes. -/
def bareToken (text : JsString) : Option Token :=
  if text = ascii "true" then some (.leaf (.boolean true))
  else if text = ascii "false" then some (.leaf (.boolean false))
  else if text = ascii "null" then some (.leaf .null)
  else (numeral text).map fun n => .leaf (.number n)

/-- The unit that a letter after a backslash stands for. -/
def unescaped (u : UInt16) : Option UInt16 :=
  if u = 0x62 then some 0x08
  else if u = 0x74 then some 0x09
  else if u = 0x6E then some 0x0A
  else if u = 0x66 then some 0x0C
  else if u = 0x72 then some 0x0D
  else if u = 0x22 ∨ u = 0x5C ∨ u = 0x2F then some u
  else none

def hexValue (u : UInt16) : Option ℕ :=
  if 48 ≤ u.toNat ∧ u.toNat ≤ 57 then some (u.toNat - 48)
  else if 97 ≤ u.toNat ∧ u.toNat ≤ 102 then some (u.toNat - 87)
  else if 65 ≤ u.toNat ∧ u.toNat ≤ 70 then some (u.toNat - 55)
  else none

inductive LexState
  | gap
  | bare (text : JsString)
  | string (s : JsString)
  /-- After a backslash. -/
  | escape (s : JsString)
  /-- After `\u`, with the value of the digits so far and the number of those missing. -/
  | unicode (s : JsString) (value missing : ℕ)
  deriving DecidableEq

/-- A unit that no token is open before. -/
def lexGap (u : UInt16) : LexState × List Token :=
  if isSpace u then (.gap, [])
  else if u = 0x22 then (.string [], [])
  else
    match punctuation u with
    | some t => (.gap, [t])
    | none => (.bare [u], [])

def lexStep : LexState → UInt16 → Option (LexState × List Token)
  | .gap, u => some (lexGap u)
  | .bare text, u =>
    if isBare u then some (.bare (text ++ [u]), [])
    else (bareToken text).map fun t => ((lexGap u).1, t :: (lexGap u).2)
  | .string s, u =>
    if u = 0x22 then some (.gap, [.leaf (.string s)])
    else if u = 0x5C then some (.escape s, [])
    else if u < 0x20 then none
    else some (.string (s ++ [u]), [])
  | .escape s, u =>
    if u = 0x75 then some (.unicode s 0 4, [])
    else (unescaped u).map fun v => (.string (s ++ [v]), [])
  | .unicode s value missing, u =>
    (hexValue u).map fun d =>
      if missing = 1 then (.string (s ++ [UInt16.ofNat (value * 16 + d)]), [])
      else (.unicode s (value * 16 + d) (missing - 1), [])

def lexer : Machine LexState UInt16 Token where
  step := lexStep
  finish
    | .gap => some []
    | .bare text => (bareToken text).map fun t => [t]
    | _ => none

/-! ### The value of the tokens -/

/-- An array or object that is open: what came before, and the key whose value comes. -/
inductive Frame
  | array (items : Items JsString JsonLeaf)
  | object (members : Fields JsString JsonLeaf) (key : JsString)

/-- What comes next. -/
inductive Expect
  | value
  /-- After `[`. -/
  | valueOrEnd
  /-- After the brace that opens an object. -/
  | keyOrEnd
  | key (members : Fields JsString JsonLeaf)
  | colon (members : Fields JsString JsonLeaf) (key : JsString)
  /-- Nothing more of this value. -/
  | after (v : JsonValue)

structure ParseState where
  stack : List Frame
  expect : Expect

def ParseState.start : ParseState := ⟨[], .value⟩

/-- The first token of a value. -/
def parseValue (stack : List Frame) : Token → Option ParseState
  | .leaf l => some ⟨stack, .after (.leaf l)⟩
  | .beginArray => some ⟨.array .nil :: stack, .valueOrEnd⟩
  | .beginObject => some ⟨stack, .keyOrEnd⟩
  | _ => none

/-- The token after a value, in the innermost array or object. -/
def parseAfter (v : JsonValue) : List Frame → Token → Option ParseState
  | .array items :: stack, .comma => some ⟨.array (items.append (.cons v .nil)) :: stack, .value⟩
  | .array items :: stack, .endArray =>
    some ⟨stack, .after (.array (items.append (.cons v .nil)))⟩
  | .object members key :: stack, .comma => some ⟨stack, .key (members.set key v)⟩
  | .object members key :: stack, .endObject =>
    some ⟨stack, .after (.object (members.set key v))⟩
  | _, _ => none

def parseToken : ParseState → Token → Option ParseState
  | ⟨stack, .value⟩, t => parseValue stack t
  | ⟨.array items :: stack, .valueOrEnd⟩, .endArray => some ⟨stack, .after (.array items)⟩
  | ⟨stack, .valueOrEnd⟩, t => parseValue stack t
  | ⟨stack, .keyOrEnd⟩, .endObject => some ⟨stack, .after (.object .nil)⟩
  | ⟨stack, .keyOrEnd⟩, .leaf (.string k) => some ⟨stack, .colon .nil k⟩
  | ⟨stack, .key members⟩, .leaf (.string k) => some ⟨stack, .colon members k⟩
  | ⟨stack, .colon members k⟩, .colon => some ⟨.object members k :: stack, .value⟩
  | ⟨stack, .after v⟩, t => parseAfter v stack t
  | _, _ => none

def parser : Machine ParseState Token JsonValue where
  step s t := (parseToken s t).map fun s' => (s', [])
  finish
    | ⟨[], .after v⟩ => some [v]
    | _ => none

/-- `JSON.parse`; `none` is its `SyntaxError`. -/
def parse (text : JsString) : Option JsonValue :=
  (lexer.run .gap text).bind fun tokens => (parser.run .start tokens).bind List.head?

/-! ### Reading strings -/

theorem lexer_step : lexer.step = lexStep := rfl

theorem hexValue_hexDigit : ∀ d < 16, hexValue (hexDigit d) = some d := by decide

theorem lexStep_unicode {s : JsString} {value missing d : ℕ} (hd : d < 16) :
    lexer.step (.unicode s value (missing + 2)) (hexDigit d) =
      some (.unicode s (value * 16 + d) (missing + 1), []) := by
  rw [lexer_step, lexStep, hexValue_hexDigit d hd]
  simp

theorem lexStep_unicode_last {s : JsString} {value d : ℕ} (hd : d < 16) :
    lexer.step (.unicode s value 1) (hexDigit d) =
      some (.string (s ++ [UInt16.ofNat (value * 16 + d)]), []) := by
  rw [lexer_step, lexStep, hexValue_hexDigit d hd]
  simp

theorem read_hexDigits {a b c d : ℕ} (ha : a < 16) (hb : b < 16) (hc : c < 16) (hd : d < 16)
    (s : JsString) :
    lexer.read (.unicode s 0 4) [hexDigit a, hexDigit b, hexDigit c, hexDigit d] =
      some (.string (s ++ [UInt16.ofNat (((a * 16 + b) * 16 + c) * 16 + d)]), []) := by
  have hfirst : lexer.step (.unicode s 0 4) (hexDigit a) = some (.unicode s a 3, []) := by
    rw [lexStep_unicode ha, Nat.zero_mul, Nat.zero_add]
  exact read_cons hfirst (read_cons (lexStep_unicode hb) (read_cons (lexStep_unicode hc)
    (read_cons (lexStep_unicode_last hd) rfl)))

theorem read_unicodeEscape (s : JsString) (u : UInt16) :
    lexer.read (.string s) (unicodeEscape u) = some (.string (s ++ [u]), []) := by
  have hlt := u.toNat_lt
  have hvalue : UInt16.ofNat (((u.toNat / 4096 * 16 + u.toNat / 256 % 16) * 16 +
      u.toNat / 16 % 16) * 16 + u.toNat % 16) = u := by
    rw [← UInt16.toNat_inj, UInt16.toNat_ofNat']
    omega
  have h1 : lexer.step (.string s) 0x5C = some (.escape s, []) := rfl
  have h2 : lexer.step (.escape s) 0x75 = some (.unicode s 0 4, []) := rfl
  have hdigits := read_hexDigits (a := u.toNat / 4096) (b := u.toNat / 256 % 16)
    (c := u.toNat / 16 % 16) (d := u.toNat % 16) (by omega) (by omega) (by omega) (by omega) s
  rw [hvalue] at hdigits
  exact read_cons h1 (read_cons h2 hdigits)

theorem shortEscape_some {u v : UInt16} (h : shortEscape u = some v) :
    unescaped v = some u ∧ v ≠ 0x75 := by
  unfold shortEscape at h
  split_ifs at h with h1 h2 h3 h4 h5 h6 h7 <;> cases h <;> subst u <;> decide

theorem shortEscape_none {u : UInt16} (h : shortEscape u = none) : u ≠ 0x22 ∧ u ≠ 0x5C := by
  refine ⟨?_, ?_⟩ <;> rintro rfl <;> cases h

/-- A unit that stands for itself. -/
theorem read_unit {u : UInt16} (s : JsString) (h22 : u ≠ 0x22) (h5C : u ≠ 0x5C)
    (h20 : ¬ u < 0x20) : lexer.read (.string s) [u] = some (.string (s ++ [u]), []) := by
  have h : lexer.step (.string s) u = some (.string (s ++ [u]), []) := by
    rw [lexer_step, lexStep, if_neg h22, if_neg h5C, if_neg h20]
  exact read_cons h rfl

theorem read_escapeUnit (s : JsString) (u : UInt16) :
    lexer.read (.string s) (escapeUnit u) = some (.string (s ++ [u]), []) := by
  rw [escapeUnit]
  rcases hu : shortEscape u with _ | v
  · obtain ⟨h22, h5C⟩ := shortEscape_none hu
    simp only
    split_ifs with h20
    · exact read_unicodeEscape s u
    · exact read_unit s h22 h5C h20
  · obtain ⟨hv, h75⟩ := shortEscape_some hu
    have h1 : lexer.step (.string s) 0x5C = some (.escape s, []) := rfl
    have h2 : lexer.step (.escape s) v = some (.string (s ++ [u]), []) := by
      rw [lexer_step, lexStep, if_neg h75, hv, Option.map_some]
    exact read_cons h1 (read_cons h2 rfl)

theorem read_surrogate {u : UInt16} (s : JsString)
    (hu : isHighSurrogate u = true ∨ isLowSurrogate u = true) :
    lexer.read (.string s) [u] = some (.string (s ++ [u]), []) := by
  have hle : 0xD800 ≤ u.toNat := by
    simp only [isHighSurrogate, isLowSurrogate, Bool.and_eq_true, decide_eq_true_eq,
      UInt16.le_iff_toNat_le] at hu
    have h1 : (0xD800 : UInt16).toNat = 0xD800 := rfl
    have h2 : (0xDC00 : UInt16).toNat = 0xDC00 := rfl
    omega
  refine read_unit s ?_ ?_ ?_
  · rintro rfl
    cases hu <;> contradiction
  · rintro rfl
    cases hu <;> contradiction
  · rw [UInt16.lt_iff_toNat_lt]
    have h3 : (0x20 : UInt16).toNat = 0x20 := rfl
    omega

/-- **The escaped units are read as the string.** -/
theorem read_escaped : ∀ (s acc : JsString),
    lexer.read (.string acc) (escaped s) = some (.string (acc ++ s), [])
  | [], acc => by rw [List.append_nil]; rfl
  | [u], acc => by
    rw [escaped]
    split_ifs
    · exact read_unicodeEscape acc u
    · exact read_escapeUnit acc u
  | u :: v :: s, acc => by
    rw [escaped]
    have hrest := read_escaped (v :: s) (acc ++ [u])
    rw [List.append_assoc, List.singleton_append] at hrest
    split_ifs with hu hv hl
    · have hs := read_escaped s (acc ++ [u] ++ [v])
      rw [show acc ++ [u] ++ [v] ++ s = acc ++ u :: v :: s by simp] at hs
      exact read_append [u] (read_surrogate acc (Or.inl hu)) (read_append [v]
        (read_surrogate (acc ++ [u]) (Or.inr hv)) hs)
    · exact read_append _ (read_unicodeEscape acc u) hrest
    · exact read_append _ (read_unicodeEscape acc u) hrest
    · exact read_append _ (read_escapeUnit acc u) hrest

theorem read_quoted (s : JsString) :
    lexer.read .gap (quoted s) = some (.gap, [.leaf (.string s)]) := by
  have hopen : lexer.step .gap 0x22 = some (.string [], []) := rfl
  have hclose : lexer.step (.string s) 0x22 = some (.gap, [.leaf (.string s)]) := rfl
  exact read_cons hopen (read_append _ (read_escaped s []) (read_cons hclose rfl))

/-! ### Reading values -/

mutual

def tokensOf : JsonValue → List Token
  | .leaf l => [.leaf l]
  | .array .nil => [.beginArray, .endArray]
  | .array (.cons t rest) => .beginArray :: (tokensOf t ++ (moreItemTokens rest ++ [.endArray]))
  | .object .nil => [.beginObject, .endObject]
  | .object (.cons k t rest) =>
    .beginObject :: .leaf (.string k) :: .colon ::
      (tokensOf t ++ (moreMemberTokens rest ++ [.endObject]))

def moreItemTokens : Items JsString JsonLeaf → List Token
  | .nil => []
  | .cons t rest => .comma :: (tokensOf t ++ moreItemTokens rest)

def moreMemberTokens : Fields JsString JsonLeaf → List Token
  | .nil => []
  | .cons k t rest =>
    .comma :: .leaf (.string k) :: .colon :: (tokensOf t ++ moreMemberTokens rest)

end

/-- The leaf is read back from its text. Only numbers may fail to. -/
def leafReadsBack : JsonLeaf → Bool
  | .string _ => true
  | l => (leafText l).all isBare && leafText l != [] && bareToken (leafText l) == some (.leaf l)

/-- Nothing more of a number or literal can follow. -/
def Delimited (rest : JsString) : Prop := ∀ u ∈ rest.head?, (punctuation u).isSome = true

theorem read_bare : ∀ (more text : JsString), more.all isBare = true →
    lexer.read (.bare text) more = some (.bare (text ++ more), [])
  | [], text, _ => by rw [List.append_nil]; rfl
  | u :: more, text, h => by
    rw [List.all_cons, Bool.and_eq_true] at h
    have hstep : lexer.step (.bare text) u = some (.bare (text ++ [u]), []) := by
      rw [lexer_step, lexStep, if_pos h.1]
    have ih := read_bare more (text ++ [u]) h.2
    rw [List.append_assoc, List.singleton_append] at ih
    exact read_cons hstep ih

theorem lexGap_bare {u : UInt16} (h : isBare u = true) : lexGap u = (.bare [u], []) := by
  simp only [isBare, Bool.and_eq_true, Bool.not_eq_true', bne_iff_ne, beq_iff_eq] at h
  obtain ⟨⟨h1, h2⟩, h3⟩ := h
  simp [lexGap, h1, h2, h3]

/-- A number or literal before a delimiter. -/
theorem run_bare {text rest : JsString} {t : Token} (hall : text.all isBare = true)
    (hne : text ≠ []) (ht : bareToken text = some t) (hrest : Delimited rest) :
    lexer.run .gap (text ++ rest) = (lexer.run .gap rest).map ([t] ++ ·) := by
  rcases text with _ | ⟨u, text⟩
  · exact absurd rfl hne
  · rw [List.all_cons, Bool.and_eq_true] at hall
    have hgap : lexer.step .gap u = some (.bare [u], []) := by
      rw [lexer_step, lexStep, lexGap_bare hall.1]
    have hread := read_cons hgap (read_bare text [u] hall.2)
    rw [run_append _ rest hread]
    rcases rest with _ | ⟨v, rest⟩
    · simp [Machine.run, lexer, ht]
    · have hv : (punctuation v).isSome = true := hrest v rfl
      have hstep : lexer.step (.bare ([u] ++ text)) v =
          some ((lexGap v).1, t :: (lexGap v).2) := by
        have hb : isBare v = false := by
          rw [isBare]
          rcases hp : punctuation v with _ | t'
          · rw [hp] at hv; cases hv
          · simp
        rw [lexer_step, lexStep, hb, List.singleton_append, ht]
        rfl
      have hgap' : lexer.step .gap v = some (lexGap v) := rfl
      rw [run_cons hstep, run_cons hgap', Option.map_map, Option.map_map]
      congr 1

theorem run_leaf {l : JsonLeaf} (hl : leafReadsBack l = true) {rest : JsString}
    (hrest : Delimited rest) :
    lexer.run .gap (leafText l ++ rest) = (lexer.run .gap rest).map ([.leaf l] ++ ·) := by
  by_cases hs : ∃ s, l = .string s
  · obtain ⟨s, rfl⟩ := hs
    exact run_append _ rest (read_quoted s)
  · have hbare : ((leafText l).all isBare && leafText l != [] &&
        bareToken (leafText l) == some (.leaf l)) = true := by
      unfold leafReadsBack at hl
      split at hl
      · exact absurd ⟨_, rfl⟩ hs
      · exact hl
    simp only [Bool.and_eq_true, bne_iff_ne, beq_iff_eq] at hbare
    exact run_bare hbare.1.1 hbare.1.2 hbare.2 hrest

/-- Before anything that may follow a value, the text is cut into the tokens. -/
def Lexes (text : JsString) (tokens : List Token) : Prop :=
  ∀ rest, Delimited rest →
    lexer.run .gap (text ++ rest) = (lexer.run .gap rest).map (tokens ++ ·)

/-- The text is empty or starts with a delimiter. -/
def Follows (text : JsString) : Prop := ∀ rest, Delimited rest → Delimited (text ++ rest)

theorem follows_cons {u : UInt16} (hu : (punctuation u).isSome = true) (text : JsString) :
    Follows (u :: text) := by
  intro rest _ v hv
  cases hv
  exact hu

theorem Follows.append {a b : JsString} (ha : Follows a) (hb : Follows b) : Follows (a ++ b) := by
  intro rest hrest
  rw [List.append_assoc]
  exact ha _ (hb rest hrest)

theorem follows_moreItems (items : Items JsString JsonLeaf) : Follows (moreItems items) := by
  rcases items with _ | ⟨t, rest⟩
  · exact fun _ hrest => hrest
  · rw [moreItems]
    exact follows_cons rfl _

theorem follows_moreMembers (members : Fields JsString JsonLeaf) :
    Follows (moreMembers members) := by
  rcases members with _ | ⟨k, t, rest⟩
  · exact fun _ hrest => hrest
  · rw [moreMembers]
    exact follows_cons rfl _

theorem Lexes.nil : Lexes [] [] := by
  intro rest _
  simp

/-- What is read by itself, whatever follows. -/
theorem Lexes.of_read {a b : JsString} {ta tb : List Token}
    (ha : lexer.read .gap a = some (.gap, ta)) (hb : Lexes b tb) : Lexes (a ++ b) (ta ++ tb) := by
  intro rest hrest
  rw [List.append_assoc, run_append a (b ++ rest) ha, hb rest hrest, Option.map_map]
  congr 1
  funext out
  simp

theorem Lexes.append {a b : JsString} {ta tb : List Token} (ha : Lexes a ta) (hb : Lexes b tb)
    (hf : Follows b) : Lexes (a ++ b) (ta ++ tb) := by
  intro rest hrest
  rw [List.append_assoc, ha (b ++ rest) (hf rest hrest), hb rest hrest, Option.map_map]
  congr 1
  funext out
  simp

mutual

theorem lexes_stringify : ∀ (v : JsonValue), v.all leafReadsBack (fun _ => true) = true →
    Lexes (stringify v) (tokensOf v)
  | .leaf l, h => fun _ hrest => by
    rw [stringify, tokensOf]
    exact run_leaf h hrest
  | .array .nil, _ => by
    rw [stringify, tokensOf]
    exact Lexes.of_read (a := [0x5B, 0x5D]) rfl Lexes.nil
  | .array (.cons t rest), h => by
    rw [Tree.all, Items.all, Bool.and_eq_true] at h
    have hend : Lexes [0x5D] [.endArray] := Lexes.of_read (a := [0x5D]) rfl Lexes.nil
    have hclose := follows_cons (u := 0x5D) rfl []
    have hrest := (lexes_moreItems rest h.2).append hend hclose
    have hall := (lexes_stringify t h.1).append hrest ((follows_moreItems rest).append hclose)
    rw [stringify, tokensOf]
    exact Lexes.of_read (a := [0x5B]) rfl hall
  | .object .nil, _ => by
    rw [stringify, tokensOf]
    exact Lexes.of_read (a := [0x7B, 0x7D]) rfl Lexes.nil
  | .object (.cons k t rest), h => by
    rw [Tree.all, Fields.all, Bool.and_eq_true, Bool.true_and] at h
    have hend : Lexes [0x7D] [.endObject] := Lexes.of_read (a := [0x7D]) rfl Lexes.nil
    have hclose := follows_cons (u := 0x7D) rfl []
    have hrest := (lexes_moreMembers rest h.2).append hend hclose
    have hall := (lexes_stringify t h.1).append hrest ((follows_moreMembers rest).append hclose)
    rw [stringify, tokensOf]
    exact Lexes.of_read (a := [0x7B]) rfl ((Lexes.of_read (read_quoted k)
      (Lexes.of_read (a := [0x3A]) rfl hall)))

theorem lexes_moreItems : ∀ (items : Items JsString JsonLeaf),
    items.all leafReadsBack (fun _ => true) = true → Lexes (moreItems items) (moreItemTokens items)
  | .nil, _ => Lexes.nil
  | .cons t rest, h => by
    rw [Items.all, Bool.and_eq_true] at h
    have hall := (lexes_stringify t h.1).append (lexes_moreItems rest h.2) (follows_moreItems rest)
    rw [moreItems, moreItemTokens]
    exact Lexes.of_read (a := [0x2C]) rfl hall

theorem lexes_moreMembers : ∀ (members : Fields JsString JsonLeaf),
    members.all leafReadsBack (fun _ => true) = true →
    Lexes (moreMembers members) (moreMemberTokens members)
  | .nil, _ => Lexes.nil
  | .cons k t rest, h => by
    rw [Fields.all, Bool.and_eq_true, Bool.true_and] at h
    have hall := (lexes_stringify t h.1).append (lexes_moreMembers rest h.2)
      (follows_moreMembers rest)
    rw [moreMembers, moreMemberTokens]
    exact Lexes.of_read (a := [0x2C]) rfl (Lexes.of_read (read_quoted k)
      (Lexes.of_read (a := [0x3A]) rfl hall))

end

/-! ### Putting the tokens together -/

theorem parser_step {s s' : ParseState} {t : Token} (h : parseToken s t = some s') :
    parser.step s t = some (s', []) := by
  change (parseToken s t).map _ = _
  rw [h]
  rfl

/-- After `[` a value starts as anywhere. -/
theorem read_valueOrEnd (v : JsonValue) (items : Items JsString JsonLeaf) (stack : List Frame) :
    parser.read ⟨.array items :: stack, .valueOrEnd⟩ (tokensOf v) =
      parser.read ⟨.array items :: stack, .value⟩ (tokensOf v) := by
  rcases v with l | (_ | ⟨t, rest⟩) | (_ | ⟨k, t, rest⟩) <;> rw [tokensOf] <;> rfl

mutual

theorem parse_tokensOf : ∀ (v : JsonValue) (stack : List Frame), v.distinct = true →
    parser.read ⟨stack, .value⟩ (tokensOf v) = some (⟨stack, .after v⟩, [])
  | .leaf l, stack, _ => by
    rw [tokensOf]
    exact read_cons (parser_step rfl) rfl
  | .array .nil, stack, _ => by
    rw [tokensOf]
    exact read_cons (parser_step rfl) (read_cons (parser_step rfl) rfl)
  | .array (.cons t rest), stack, h => by
    rw [Tree.distinct, Items.distinct, Bool.and_eq_true] at h
    have ht := parse_tokensOf t (.array .nil :: stack) h.1
    rw [← read_valueOrEnd] at ht
    rw [tokensOf]
    exact read_cons (parser_step rfl) (read_append _ ht
      (parse_moreItemTokens rest .nil t stack h.2))
  | .object .nil, stack, _ => by
    rw [tokensOf]
    exact read_cons (parser_step rfl) (read_cons (parser_step rfl) rfl)
  | .object (.cons k t rest), stack, h => by
    rw [Tree.distinct, Fields.distinct, Bool.and_eq_true, Bool.and_eq_true] at h
    have ht := parse_tokensOf t (.object .nil k :: stack) h.1.2
    have hrest := parse_moreMemberTokens rest .nil k t stack h.2 (by
      simpa [Fields.keys] using h.1.1)
    rw [tokensOf]
    exact read_cons (parser_step rfl) (read_cons (parser_step rfl) (read_cons (parser_step rfl)
      (read_append _ ht hrest)))

/-- The rest of an array, after an item. -/
theorem parse_moreItemTokens : ∀ (items before : Items JsString JsonLeaf) (v : JsonValue)
    (stack : List Frame), items.distinct = true →
    parser.read ⟨.array before :: stack, .after v⟩ (moreItemTokens items ++ [.endArray]) =
      some (⟨stack, .after (.array (before.append (.cons v items)))⟩, [])
  | .nil, before, v, stack, _ => read_cons (parser_step rfl) rfl
  | .cons t rest, before, v, stack, h => by
    rw [Items.distinct, Bool.and_eq_true] at h
    have ht := parse_tokensOf t (.array (before.append (.cons v .nil)) :: stack) h.1
    have hrest := parse_moreItemTokens rest (before.append (.cons v .nil)) t stack h.2
    rw [Items.append_assoc] at hrest
    rw [moreItemTokens, List.cons_append, List.append_assoc]
    exact read_cons (parser_step rfl) (read_append _ ht hrest)

/-- The rest of an object, after a member with the key `k`. -/
theorem parse_moreMemberTokens : ∀ (members before : Fields JsString JsonLeaf) (k : JsString)
    (v : JsonValue) (stack : List Frame), members.distinct = true →
    (k ∉ members.keys ∧ ∀ k' ∈ before.keys, k' ≠ k ∧ k' ∉ members.keys) →
    parser.read ⟨.object before k :: stack, .after v⟩ (moreMemberTokens members ++ [.endObject]) =
      some (⟨stack, .after (.object (before.append (.cons k v members)))⟩, [])
  | .nil, before, k, v, stack, _, hk => by
    have hset : before.set k v = before.append (.cons k v .nil) :=
      Fields.set_of_not_mem fun hmem => (hk.2 k hmem).1 rfl
    refine read_cons (parser_step ?_) rfl
    rw [parseToken, parseAfter, hset]
  | .cons k' t rest, before, k, v, stack, h, hk => by
    rw [Fields.distinct, Bool.and_eq_true, Bool.and_eq_true] at h
    have hset : before.set k v = before.append (.cons k v .nil) :=
      Fields.set_of_not_mem fun hmem => (hk.2 k hmem).1 rfl
    have hk' : k' ∉ rest.keys := by simpa using h.1.1
    have ht := parse_tokensOf t (.object (before.append (.cons k v .nil)) k' :: stack) h.1.2
    have hrest := parse_moreMemberTokens rest (before.append (.cons k v .nil)) k' t stack h.2
      ⟨hk', fun k'' hk'' => by
        rw [Fields.keys_append, List.mem_append] at hk''
        simp only [Fields.keys, List.mem_cons, not_or, List.not_mem_nil, or_false] at hk hk''
        rcases hk'' with hk'' | rfl
        · exact (hk.2 k'' hk'').2
        · exact hk.1⟩
    rw [Fields.append_assoc] at hrest
    have hcomma : parseToken ⟨.object before k :: stack, .after v⟩ .comma =
        some ⟨stack, .key (before.append (.cons k v .nil))⟩ := by
      rw [parseToken, parseAfter, hset]
    rw [moreMemberTokens, List.cons_append, List.cons_append, List.cons_append, List.append_assoc]
    exact read_cons (parser_step hcomma) (read_cons (parser_step rfl) (read_cons (parser_step rfl)
      (read_append _ ht hrest)))

end

/-- **The round trip.** -/
theorem parse_stringify {v : JsonValue} (hd : v.distinct = true)
    (hl : v.all leafReadsBack (fun _ => true) = true) : parse (stringify v) = some v := by
  have hlex := lexes_stringify v hl [] (fun _ h => by cases h)
  have hparse := run_append _ [] (parse_tokensOf v [] hd)
  rw [List.append_nil] at hlex hparse
  have htokens : lexer.run .gap (stringify v) = some (tokensOf v) := by
    rw [hlex]
    simp [Machine.run, lexer]
  have hvalue : parser.run .start (tokensOf v) = some [v] := by
    rw [ParseState.start, hparse]
    simp [Machine.run, parser]
  rw [parse, htokens, Option.bind_some, hvalue]
  rfl

end UmbraDB.Js.Json
