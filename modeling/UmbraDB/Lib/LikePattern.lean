import Mathlib.Data.List.Infix
import Mathlib.Tactic.Basic

/-! # `LIKE` patterns

A pattern is a list of characters with two wildcards and an escape character, which takes what
follows it literally. It is read into tokens first; one that ends in the escape character is
refused.

* `like_escape` : the pattern of an escaped text, followed by the wildcard for any text, matches
  exactly what starts with the text. -/

namespace UmbraDB.Lib.LikePattern

variable {α : Type*} [DecidableEq α]

/-- The characters with a meaning of their own. -/
structure Metachars (α : Type*) where
  /-- Any text. -/
  anyText : α
  /-- Any single character. -/
  anyChar : α
  escape : α
  anyText_ne : anyText ≠ escape

inductive Token (α : Type*)
  | literal (c : α)
  | anyChar
  | anyText

variable (m : Metachars α)

/-- A character that is not the escape character. -/
def Metachars.token (c : α) : Token α :=
  if c = m.anyText then .anyText else if c = m.anyChar then .anyChar else .literal c

/-- The tokens of a pattern. -/
def Metachars.tokens : List α → Option (List (Token α))
  | [] => some []
  | [c] => if c = m.escape then none else some [m.token c]
  | c :: d :: s =>
    if c = m.escape then (Metachars.tokens s).map (.literal d :: ·)
    else (Metachars.tokens (d :: s)).map (m.token c :: ·)

/-- Whether the whole text matches. -/
def tokensMatch : List (Token α) → List α → Bool
  | [], text => text.isEmpty
  | .literal c :: tokens, text => text.head? == some c && tokensMatch tokens text.tail
  | .anyChar :: tokens, text => text.head?.isSome && tokensMatch tokens text.tail
  | .anyText :: tokens, text => text.tails.any (tokensMatch tokens)

/-- `text LIKE pattern`; `none` is the error for a pattern that ends in the escape character. -/
def Metachars.like (pattern text : List α) : Option Bool :=
  (m.tokens pattern).map fun tokens => tokensMatch tokens text

/-- The escape character before each character with a meaning. -/
def Metachars.escapeText : List α → List α
  | [] => []
  | c :: s =>
    if c = m.escape ∨ c = m.anyText ∨ c = m.anyChar then m.escape :: c :: Metachars.escapeText s
    else c :: Metachars.escapeText s

variable {m}

theorem tokens_cons {c : α} (h : c ≠ m.escape) (s : List α) :
    m.tokens (c :: s) = (m.tokens s).map (m.token c :: ·) := by
  rcases s with _ | ⟨d, s⟩
  · simp only [Metachars.tokens, if_neg h, Option.map_some]
  · rw [Metachars.tokens, if_neg h]

theorem tokens_escape (c : α) (s : List α) :
    m.tokens (m.escape :: c :: s) = (m.tokens s).map (.literal c :: ·) := by
  rw [Metachars.tokens, if_pos rfl]

/-- **An escaped text is read as literals**, whatever follows. -/
theorem tokens_escapeText (rest : List α) : ∀ (s : List α),
    m.tokens (m.escapeText s ++ rest) = (m.tokens rest).map (s.map .literal ++ ·)
  | [] => by
    rw [Metachars.escapeText]
    simp
  | c :: s => by
    have ih := tokens_escapeText rest s
    rw [Metachars.escapeText]
    split_ifs with h
    · rw [List.cons_append, List.cons_append, tokens_escape, ih, Option.map_map]
      rfl
    · simp only [not_or] at h
      have htoken : m.token c = .literal c := by rw [Metachars.token, if_neg h.2.1, if_neg h.2.2]
      rw [List.cons_append, tokens_cons h.1, ih, Option.map_map, htoken]
      rfl

/-- Literals match a prefix. -/
theorem tokensMatch_literals : ∀ (s text : List α),
    tokensMatch (s.map .literal ++ [.anyText]) text = s.isPrefixOf text
  | [], text => by
    have hnil : ([] : List α) ∈ text.tails := (List.mem_tails [] text).mpr (List.nil_suffix)
    rw [List.map_nil, List.nil_append, List.isPrefixOf_nil_left, tokensMatch, List.any_eq_true]
    exact ⟨[], hnil, rfl⟩
  | c :: s, [] => rfl
  | c :: s, d :: text => by
    have ih := tokensMatch_literals s text
    have hhead : (some d == some c) = (c == d) := by
      rw [Bool.eq_iff_iff, beq_iff_eq, beq_iff_eq, Option.some.injEq, eq_comm]
    rw [List.map_cons, List.cons_append, tokensMatch, List.isPrefixOf_cons_cons, List.head?_cons,
      List.tail_cons, ih, hhead]

/-- **The pattern of a prefix.** -/
theorem like_escape (s text : List α) :
    m.like (m.escapeText s ++ [m.anyText]) text = some (s.isPrefixOf text) := by
  have hwild : m.tokens [m.anyText] = some [.anyText] := by
    rw [Metachars.tokens, if_neg m.anyText_ne, Metachars.token, if_pos rfl]
  rw [Metachars.like, tokens_escapeText, hwild, Option.map_some, Option.map_some,
    tokensMatch_literals]

end UmbraDB.Lib.LikePattern
