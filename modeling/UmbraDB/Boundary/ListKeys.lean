import UmbraDB.Boundary.Sound
import UmbraDB.Boundary.Values
import UmbraDB.Kv.Rows
import UmbraDB.Lib.Batches
import UmbraDB.Lib.LikePattern
import Mathlib.Data.List.Sort

/-! # `listKeys`

The keys of one `(ns, scope)` of `kv_current` that start with a text (`src/postgres/temporal-kv.ts`).
The text is escaped, unit by unit; the server matches it against the keys, code point by code point.
The rows come in batches, in the order of some collation.

The cursor of the driver is a parameter: it hands out the rows of the result in order, cut in some
way. The call has no signal and meets no failure of the server.

* `like_escapeLikePrefix` : the pattern of a prefix, at the server.
* `listKeys_exact` : each key that starts with the text comes exactly once. -/

namespace UmbraDB.Boundary.ListKeys

open UmbraDB.Js.Text UmbraDB.Js.Utf8 UmbraDB.Kv.Rows UmbraDB.Lib.LikePattern
open UmbraDB.Boundary.Calls UmbraDB.Boundary.Values

/-! ### `LIKE` on units and on code points -/

/-- `%`, `_` and the backslash, as units. -/
def unitMetachars : Metachars UInt16 := ⟨0x25, 0x5F, 0x5C, by decide⟩

/-- `%`, `_` and the backslash, as code points. -/
def serverMetachars : Metachars ℕ := ⟨0x25, 0x5F, 0x5C, by decide⟩

/-- `text LIKE pattern ESCAPE '\'` on the texts that the server got. -/
def serverLike (pattern text : JsString) : Option Bool :=
  serverMetachars.like (codePoints pattern) (codePoints text)

theorem escapeLikePrefix_eq : ∀ (s : JsString),
    escapeLikePrefix s = unitMetachars.escapeText s
  | [] => rfl
  | u :: s => by
    rw [escapeLikePrefix, Metachars.escapeText, escapeLikePrefix_eq s]
    rfl

/-- What follows well-formed text does not change its code points. -/
theorem codePoints_append {a : JsString} (ha : WellFormed a) (b : JsString) :
    codePoints (a ++ b) = codePoints a ++ codePoints b := by
  induction ha with
  | nil => rfl
  | plain hu _ ih =>
    rw [List.cons_append, codePoints_cons_plain hu, ih, codePoints_cons_plain hu,
      List.cons_append]
  | pair hu hv _ ih =>
    rw [List.cons_append, List.cons_append, codePoints_cons_pair hu hv, ih,
      codePoints_cons_pair hu hv, List.cons_append]

/-- Code points and units have the same prefixes. -/
theorem isPrefixOf_codePoints {a b : JsString} (ha : WellFormed a) (hb : WellFormed b) :
    (codePoints a).isPrefixOf (codePoints b) = a.isPrefixOf b := by
  rw [Bool.eq_iff_iff, List.isPrefixOf_iff_prefix, List.isPrefixOf_iff_prefix]
  constructor
  · rintro ⟨rest, h⟩
    have hunits := congrArg (List.flatMap utf16) h
    rw [List.flatMap_append, (codePoints_spec a).2, (codePoints_spec b).2, ha.toWellFormed_eq,
      hb.toWellFormed_eq] at hunits
    exact ⟨_, hunits⟩
  · rintro ⟨rest, rfl⟩
    exact ⟨_, (codePoints_append ha rest).symm⟩

/-- A wildcard or a backslash is one unit and one code point. -/
theorem metachar_iff (u : UInt16) :
    (u = 0x5C ∨ u = 0x25 ∨ u = 0x5F) ↔ (u.toNat = serverMetachars.escape ∨
      u.toNat = serverMetachars.anyText ∨ u.toNat = serverMetachars.anyChar) := by
  rw [← UInt16.toNat_inj, ← UInt16.toNat_inj, ← UInt16.toNat_inj]
  rfl

/-- Escaping the units escapes the code points. -/
theorem codePoints_escapeLikePrefix {s : JsString} (hs : WellFormed s) (rest : JsString) :
    codePoints (escapeLikePrefix s ++ rest) =
      serverMetachars.escapeText (codePoints s) ++ codePoints rest := by
  have hback : plainUnit 0x5C = true := by decide
  induction hs with
  | nil => rfl
  | @plain u s hu _ ih =>
    rw [escapeLikePrefix, codePoints_cons_plain hu, Metachars.escapeText]
    by_cases h : u = 0x5C ∨ u = 0x25 ∨ u = 0x5F
    · rw [if_pos h, if_pos ((metachar_iff u).mp h), List.cons_append, List.cons_append,
        codePoints_cons_plain hback, codePoints_cons_plain hu, ih]
      rfl
    · rw [if_neg h, if_neg ((metachar_iff u).not.mp h), List.cons_append,
        codePoints_cons_plain hu, ih, List.cons_append]
  | @pair u v s hu hv _ ih =>
    have hu' : ¬ (u = 0x5C ∨ u = 0x25 ∨ u = 0x5F) := by
      rintro (rfl | rfl | rfl) <;> exact absurd hu (by decide)
    have hv' : ¬ (v = 0x5C ∨ v = 0x25 ∨ v = 0x5F) := by
      rintro (rfl | rfl | rfl) <;> exact absurd hv (by decide)
    have hc : ¬ (pairCodePoint u v = serverMetachars.escape ∨
        pairCodePoint u v = serverMetachars.anyText ∨
        pairCodePoint u v = serverMetachars.anyChar) := by
      have hge : 0x10000 ≤ pairCodePoint u v := by
        unfold pairCodePoint
        omega
      rintro (h | h | h)
      · exact absurd (h ▸ hge) (by decide)
      · exact absurd (h ▸ hge) (by decide)
      · exact absurd (h ▸ hge) (by decide)
    rw [escapeLikePrefix, if_neg hu', escapeLikePrefix, if_neg hv', List.cons_append,
      List.cons_append, codePoints_cons_pair hu hv, ih, codePoints_cons_pair hu hv,
      Metachars.escapeText, if_neg hc, List.cons_append]

/-- Text that the server stores. -/
abbrev StoredText := { s : JsString // safeText s = true }

theorem StoredText.wellFormed (s : StoredText) : WellFormed s.1 :=
  wellFormed_iff.mpr (safeText_iff.mp s.2).2

/-- **The pattern of a prefix.** -/
theorem like_escapeLikePrefix (start key : StoredText) :
    serverLike (escapeLikePrefix start.1 ++ [0x25]) key.1 = some (start.1.isPrefixOf key.1) := by
  have hwild : codePoints [0x25] = [serverMetachars.anyText] := by decide
  rw [serverLike, codePoints_escapeLikePrefix start.wellFormed, hwild, like_escape,
    isPrefixOf_codePoints start.wellFormed key.wellFormed]

/-! ### The query and its cursor -/

/-- `kv_current`: the rows of the keys, and the keys that have one, each once (`PRIMARY KEY (ns,
scope, key)`). -/
structure KvTable (V : Type) where
  rows : KvKey → KvRows V
  keys : List KvKey
  nodup : keys.Nodup
  mem_keys : ∀ key, key ∈ keys ↔ (rows key).current.isSome = true
  stored : ∀ key ∈ keys, safeText key.key = true

/-- The cursor of the driver. -/
structure Cursor where
  batches : List JsString → List (List JsString)
  flatten_batches : ∀ rows, (batches rows).flatten = rows

/-- `query.cursor(size)`. -/
def Cursor.ofSize (size : ℕ) (h : 0 < size) : Cursor where
  batches := Lib.Batches.batches size
  flatten_batches := Lib.Batches.flatten_batches h

/-- `ORDER BY key`, by the collation of the column. -/
abbrev Collation := JsString → JsString → Bool

/-- `SELECT key FROM kv_current WHERE ns = … AND scope = … AND key LIKE … ESCAPE '\' ORDER BY key`;
`none` is the error for the pattern. -/
def selectKeys {V : Type} (le : Collation) (table : KvTable V) (ns scope pattern : JsString) :
    Option (List JsString) :=
  (serverMetachars.tokens (codePoints pattern)).map fun tokens =>
    ((table.keys.filter fun row => row.ns == ns && row.scope == scope &&
      tokensMatch tokens (codePoints row.key)).map (·.key)).mergeSort le

/-- `while (true) { … }`: what is yielded of the batches. -/
def drain : List (List JsString) → List JsString
  -- `next.done`
  | [] => []
  | batch :: rest => batch ++ drain rest

inductive ListKeysError
  | validation (e : ValidationError)
  /-- `22025`, translated. -/
  | invalidEscapeSequence

/-- The keys that are yielded. -/
def listKeys {V : Type} (le : Collation) (cursor : Cursor) (table : KvTable V)
    (ns scope start : JsString) : Except ListKeysError (List JsString) :=
  match validateNamespaceScope ns scope with
  | .error e => .error (.validation e)
  | .ok () =>
    if hasPostgresUnsafeText start then
      .error (.validation ⟨"PgTemporalKV listKeys: prefix must not contain a NUL byte " ++
        "or an unpaired UTF-16 surrogate"⟩)
    else
      match selectKeys le table ns scope (escapeLikePrefix start ++ [0x25]) with
      | none => .error .invalidEscapeSequence
      | some rows => .ok (drain (cursor.batches rows))

theorem drain_eq : ∀ (batches : List (List JsString)), drain batches = batches.flatten
  | [] => rfl
  | batch :: rest => by rw [drain, drain_eq rest, List.flatten_cons]

/-- The rows that the query selects. -/
def selected {V : Type} (table : KvTable V) (ns scope start : JsString) : List JsString :=
  (table.keys.filter fun row => row.ns == ns && row.scope == scope &&
    start.isPrefixOf row.key).map (·.key)

theorem selectKeys_eq {V : Type} (le : Collation) (table : KvTable V) (ns scope : JsString)
    {start : JsString} (h : safeText start = true) :
    selectKeys le table ns scope (escapeLikePrefix start ++ [0x25]) =
      some ((selected table ns scope start).mergeSort le) := by
  have hlike : ∀ row ∈ table.keys,
      (serverMetachars.tokens (codePoints (escapeLikePrefix start ++ [0x25]))).map (fun tokens =>
        tokensMatch tokens (codePoints row.key)) = some (start.isPrefixOf row.key) :=
    fun row hrow => like_escapeLikePrefix ⟨start, h⟩ ⟨row.key, table.stored row hrow⟩
  have htokens : ∃ tokens,
      serverMetachars.tokens (codePoints (escapeLikePrefix start ++ [0x25])) = some tokens := by
    have hnil := like_escapeLikePrefix ⟨start, h⟩ ⟨[], rfl⟩
    obtain ⟨tokens, htokens, -⟩ := Option.map_eq_some_iff.mp hnil
    exact ⟨tokens, htokens⟩
  obtain ⟨tokens, htokens⟩ := htokens
  rw [htokens] at hlike
  rw [selectKeys, htokens, Option.map_some, selected]
  congr 3
  refine List.filter_congr fun row hrow => ?_
  have hrow := hlike row hrow
  rw [Option.map_some, Option.some.injEq] at hrow
  rw [hrow]

theorem mem_selected {V : Type} {table : KvTable V} {ns scope start k : JsString} :
    k ∈ selected table ns scope start ↔
      (table.rows ⟨ns, scope, k⟩).current.isSome = true ∧ start.isPrefixOf k = true := by
  rw [selected, List.mem_map]
  constructor
  · rintro ⟨row, hrow, rfl⟩
    rw [List.mem_filter, Bool.and_eq_true, Bool.and_eq_true, beq_iff_eq, beq_iff_eq] at hrow
    obtain ⟨hmem, ⟨rfl, rfl⟩, hstart⟩ := hrow
    exact ⟨(table.mem_keys row).mp hmem, hstart⟩
  · rintro ⟨hrow, hstart⟩
    refine ⟨⟨ns, scope, k⟩, List.mem_filter.mpr ⟨(table.mem_keys _).mpr hrow, ?_⟩, rfl⟩
    simp [hstart]

/-- Rows of one `(ns, scope)` have different keys. -/
theorem nodup_selected {V : Type} (table : KvTable V) (ns scope start : JsString) :
    (selected table ns scope start).Nodup := by
  rw [selected]
  refine List.Nodup.map_on ?_ (table.nodup.filter _)
  intro a ha b hb hkey
  rw [List.mem_filter, Bool.and_eq_true, Bool.and_eq_true, beq_iff_eq, beq_iff_eq] at ha hb
  obtain ⟨-, ⟨hns, hscope⟩, -⟩ := ha
  obtain ⟨-, ⟨hns', hscope'⟩, -⟩ := hb
  rcases a with ⟨ans, ascope, akey⟩
  rcases b with ⟨bns, bscope, bkey⟩
  simp only at hns hscope hns' hscope' hkey
  rw [hns, hscope, hkey, hns', hscope']

/-- **`listKeys` matches exactly the literal prefix.** -/
theorem listKeys_exact :
    (∀ start key : JsString, unitMetachars.like (escapeLikePrefix start ++ [0x25]) key =
      some (start.isPrefixOf key)) ∧
    (∀ start key : StoredText, serverLike (escapeLikePrefix start.1 ++ [0x25]) key.1 =
      some (start.1.isPrefixOf key.1)) ∧
    ∀ (V : Type) (le : Collation) (cursor : Cursor) (table : KvTable V) (ns scope start : JsString),
      match listKeys le cursor table ns scope start with
      | .error e => (∃ v, e = .validation v) ∧
          (namespaceOk ns && namespaceOk scope && safeText start) = false
      | .ok keys => keys.Nodup ∧ ∀ k, k ∈ keys ↔
          (table.rows ⟨ns, scope, k⟩).current.isSome = true ∧ start.isPrefixOf k = true := by
  refine ⟨fun start key => ?_, like_escapeLikePrefix, fun V le cursor table ns scope start => ?_⟩
  · rw [escapeLikePrefix_eq]
    exact like_escape start key
  · unfold listKeys
    rcases hv : validateNamespaceScope ns scope with e | ⟨⟩
    · have hbad : ¬ (namespaceOk ns = true ∧ namespaceOk scope = true) := fun h => by
        rw [validateNamespaceScope_ok.mpr h] at hv
        cases hv
      refine ⟨⟨e, rfl⟩, ?_⟩
      rw [Bool.eq_false_iff, Ne, Bool.and_eq_true, Bool.and_eq_true]
      exact fun h => hbad h.1
    · simp only
      rcases hu : hasPostgresUnsafeText start
      · have hsafe : safeText start = true := by rw [safeText, hu]; rfl
        have hperm := List.mergeSort_perm (selected table ns scope start) le
        simp only [Bool.false_eq_true, if_false, selectKeys_eq le table ns scope hsafe, drain_eq,
          cursor.flatten_batches]
        refine ⟨hperm.nodup_iff.mpr (nodup_selected table ns scope start), fun k => ?_⟩
        rw [hperm.mem_iff, mem_selected]
      · refine ⟨⟨_, rfl⟩, ?_⟩
        rw [safeText, hu, Bool.not_true, Bool.and_false]

end UmbraDB.Boundary.ListKeys
