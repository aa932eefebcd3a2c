import Mathlib.Data.List.Basic

/-! # Computations that may fail

Inversion of a computation in `Except` that has not failed: every part of it has not. -/

namespace UmbraDB.Lib.Fallible

variable {ε α β : Type} {x : Except ε α}

theorem bind_ok {f : α → Except ε β} {b : β} :
    (x >>= f) = .ok b ↔ ∃ a, x = .ok a ∧ f a = .ok b := by
  rcases x with e | a
  · constructor
    · intro h; cases h
    · rintro ⟨a, h, -⟩; cases h
  · constructor
    · intro h; exact ⟨a, rfl, h⟩
    · rintro ⟨a', h, h'⟩
      obtain rfl := Except.ok.inj h
      exact h'

theorem map_ok {f : α → β} {b : β} : x.map f = .ok b ↔ ∃ a, x = .ok a ∧ f a = b := by
  rcases x with e | a
  · constructor
    · intro h; cases h
    · rintro ⟨a, h, -⟩; cases h
  · constructor
    · intro h; exact ⟨a, rfl, Except.ok.inj h⟩
    · rintro ⟨a', h, rfl⟩
      obtain rfl := Except.ok.inj h
      rfl

theorem mapError_ok {δ : Type} {f : ε → δ} {a : α} : x.mapError f = .ok a ↔ x = .ok a := by
  rcases x with e | a'
  · constructor
    · intro h; cases h
    · intro h; cases h
  · constructor
    · intro h; exact congrArg _ (Except.ok.inj h)
    · intro h; exact congrArg _ (Except.ok.inj h)

/-! ### A computation for each element of a list -/

variable {f : α → Except ε β} {as : List α}

theorem mapM_eq_map {g : α → β} (h : ∀ a ∈ as, f a = .ok (g a)) : as.mapM f = .ok (as.map g) := by
  induction as with
  | nil => rfl
  | cons a as ih =>
    rw [List.mapM_cons, h a List.mem_cons_self, ih fun a' ha' => h a' (List.mem_cons_of_mem _ ha')]
    rfl

/-- What each result says about its element, the results say about the list. -/
theorem map_eq_of_mapM {γ : Type} {k : β → γ} {k' : α → γ} (hk : ∀ a b, f a = .ok b → k b = k' a) :
    ∀ {as : List α} {bs : List β}, as.mapM f = .ok bs → bs.map k = as.map k'
  | [], _, h => by cases h; rfl
  | a :: as, bs, h => by
    rw [List.mapM_cons] at h
    obtain ⟨b, h₁, h₂⟩ := bind_ok.mp h
    obtain ⟨bs', h₃, h₄⟩ := bind_ok.mp h₂
    cases h₄
    rw [List.map_cons, List.map_cons, hk a b h₁, map_eq_of_mapM hk h₃]

theorem mem_of_mapM : ∀ {as : List α} {bs : List β}, as.mapM f = .ok bs → ∀ {b : β}, b ∈ bs →
    ∃ a ∈ as, f a = .ok b
  | [], _, h, _, hb => by
    cases h
    exact absurd hb List.not_mem_nil
  | a :: as, bs, h, b, hb => by
    rw [List.mapM_cons] at h
    obtain ⟨b', h₁, h₂⟩ := bind_ok.mp h
    obtain ⟨bs', h₃, h₄⟩ := bind_ok.mp h₂
    cases h₄
    rcases List.mem_cons.mp hb with rfl | hb
    · exact ⟨a, List.mem_cons_self, h₁⟩
    · obtain ⟨a', ha', he⟩ := mem_of_mapM h₃ hb
      exact ⟨a', List.mem_cons_of_mem _ ha', he⟩

end UmbraDB.Lib.Fallible
