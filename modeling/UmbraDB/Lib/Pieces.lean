import Mathlib.Data.List.Basic
import Mathlib.Tactic.Basic

/-! # The pieces of a list between separators

* `mem_splitOn` : a piece is a stretch without separators that begins and ends at a separator or at
  an end of the list. -/

namespace UmbraDB.Lib.Pieces

variable {α : Type*} [DecidableEq α]

/-- The stretch begins after a separator or at the start. -/
def AtStart (sep : α) (before : List α) : Prop := before = [] ∨ ∃ b, before = b ++ [sep]

/-- It ends before a separator or at the end. -/
def AtEnd (sep : α) (after : List α) : Prop := after = [] ∨ ∃ a, after = sep :: a

theorem splitOn_of_atEnd {sep : α} {piece after : List α} (hp : sep ∉ piece)
    (ha : AtEnd sep after) : piece ∈ (piece ++ after).splitOn sep := by
  rcases ha with rfl | ⟨a, rfl⟩
  · rw [List.append_nil, List.splitOn_eq_singleton hp]
    exact List.mem_singleton_self piece
  · rw [List.splitOn_append_cons_self, List.splitOn_eq_singleton hp]
    exact List.mem_cons_self

/-- The pieces of a list. -/
theorem mem_splitOn {sep : α} {piece l : List α} : piece ∈ l.splitOn sep ↔
    sep ∉ piece ∧ ∃ before after, l = before ++ (piece ++ after) ∧ AtStart sep before ∧
      AtEnd sep after := by
  constructor
  · -- by induction on the length, cutting at the first separator
    induction hn : l.length using Nat.strongRecOn generalizing l with
    | ind n ih =>
      intro h
      by_cases hsep : sep ∈ l
      · obtain ⟨s, t, rfl, hs⟩ := List.eq_append_cons_of_mem hsep
        rw [List.splitOn_append_cons_self, List.splitOn_eq_singleton hs, List.mem_append,
          List.mem_singleton] at h
        rcases h with rfl | h
        · exact ⟨hs, [], sep :: t, rfl, Or.inl rfl, Or.inr ⟨t, rfl⟩⟩
        · have hlt : t.length < n := by
            rw [← hn, List.length_append, List.length_cons]
            omega
          obtain ⟨hp, before, after, rfl, hb, ha⟩ := ih _ hlt rfl h
          refine ⟨hp, s ++ sep :: before, after, by simp, Or.inr ?_, ha⟩
          rcases hb with rfl | ⟨b, rfl⟩
          · exact ⟨s, rfl⟩
          · exact ⟨s ++ sep :: b, by simp⟩
      · rw [List.splitOn_eq_singleton hsep, List.mem_singleton] at h
        subst h
        exact ⟨hsep, [], [], by simp, Or.inl rfl, Or.inl rfl⟩
  · rintro ⟨hp, before, after, rfl, rfl | ⟨b, rfl⟩, ha⟩
    · exact splitOn_of_atEnd hp ha
    · rw [List.append_assoc, List.singleton_append, List.splitOn_append_cons_self]
      exact List.mem_append_right _ (splitOn_of_atEnd hp ha)

end UmbraDB.Lib.Pieces
