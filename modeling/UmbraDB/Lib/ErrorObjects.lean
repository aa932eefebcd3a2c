import Mathlib.Data.List.Basic

/-! # Error objects that refer to each other

Errors as a program sees them that handles them by reference: an object may have a cause, which can
be set later, and an aggregate has a list of members. An object is its place in the heap.

* `Carries` : an error can be found from another one, over causes and members.
* `Grows` : what never loses an error: new objects, and causes where there were none.
* `Found.grow` : what could be found is found ever after. -/

namespace UmbraDB.Lib.ErrorObjects

/-- What can be thrown: an error or not, its cause, whether the cause can be assigned, and the
members of an aggregate. -/
structure Obj where
  isError : Bool
  cause : Option ℕ
  assignable : Bool
  members : List ℕ
  deriving DecidableEq

abbrev Heap := List Obj

def Heap.setCause (h : Heap) (r c : ℕ) : Heap := h.modify r fun o => { o with cause := some c }

/-- The error `e` can be found from `r`. -/
inductive Carries (h : Heap) : ℕ → ℕ → Prop
  | refl (r : ℕ) : Carries h r r
  | cause {r c e : ℕ} {o : Obj} (ho : h[r]? = some o) (hc : o.cause = some c)
      (h' : Carries h c e) : Carries h r e
  | member {r c e : ℕ} {o : Obj} (ho : h[r]? = some o) (hc : c ∈ o.members)
      (h' : Carries h c e) : Carries h r e

/-- The objects of `h` are there, with their members and their causes. -/
def Grows (h h' : Heap) : Prop :=
  ∀ (r : ℕ) (o : Obj), h[r]? = some o → ∃ o' : Obj, h'[r]? = some o' ∧ o'.members = o.members ∧
    ∀ c, o.cause = some c → o'.cause = some c

variable {h h₁ h₂ : Heap} {r c e : ℕ} {o : Obj}

theorem Grows.refl (h : Heap) : Grows h h := fun _ o ho => ⟨o, ho, rfl, fun _ hc => hc⟩

theorem Grows.trans (h₀₁ : Grows h h₁) (h₁₂ : Grows h₁ h₂) : Grows h h₂ := by
  intro r o ho
  obtain ⟨o₁, ho₁, hm₁, hc₁⟩ := h₀₁ r o ho
  obtain ⟨o₂, ho₂, hm₂, hc₂⟩ := h₁₂ r o₁ ho₁
  exact ⟨o₂, ho₂, hm₂.trans hm₁, fun c hc => hc₂ c (hc₁ c hc)⟩

theorem grows_append (h os : Heap) : Grows h (h ++ os) := fun _ o ho =>
  ⟨o, List.getElem?_append_left (List.getElem?_eq_some_iff.mp ho).1 ▸ ho, rfl, fun _ hc => hc⟩

/-- A cause is only set where there was none. -/
theorem grows_setCause (hr : ∀ o, h[r]? = some o → o.cause = none) (c : ℕ) :
    Grows h (h.setCause r c) := by
  intro q o ho
  rcases eq_or_ne r q with rfl | hne
  · rw [Heap.setCause, List.getElem?_modify_eq, ho]
    refine ⟨_, rfl, rfl, fun c' hc' => ?_⟩
    rw [hr o ho] at hc'
    cases hc'
  · rw [Heap.setCause, List.getElem?_modify_ne _ _ hne, ho]
    exact ⟨o, rfl, rfl, fun _ hc => hc⟩

theorem getElem?_setCause_self (ho : h[r]? = some o) (c : ℕ) :
    (h.setCause r c)[r]? = some { o with cause := some c } := by
  rw [Heap.setCause, List.getElem?_modify_eq, ho]
  rfl

theorem Carries.grow (hc : Carries h r e) (hg : Grows h h₁) : Carries h₁ r e := by
  induction hc with
  | refl r => exact .refl r
  | cause ho hc _ ih =>
    obtain ⟨o', ho', -, hc'⟩ := hg _ _ ho
    exact .cause ho' (hc' _ hc) ih
  | member ho hm _ ih =>
    obtain ⟨o', ho', hm', -⟩ := hg _ _ ho
    exact .member ho' (hm' ▸ hm) ih

theorem Carries.trans {f : ℕ} (hc : Carries h r e) (hf : Carries h e f) : Carries h r f := by
  induction hc with
  | refl => exact hf
  | cause ho hc _ ih => exact .cause ho hc (ih hf)
  | member ho hm _ ih => exact .member ho hm (ih hf)

/-- The error can be found from one of the roots. -/
def Found (h : Heap) (roots : List ℕ) (e : ℕ) : Prop := ∃ r ∈ roots, Carries h r e

theorem found_root {roots : List ℕ} (hr : r ∈ roots) : Found h roots r := ⟨r, hr, .refl r⟩

/-- **What could be found is found ever after**, as long as the roots are found. -/
theorem Found.grow {roots roots' : List ℕ} (hf : Found h roots e) (hg : Grows h h₁)
    (hroots : ∀ r ∈ roots, Found h₁ roots' r) : Found h₁ roots' e := by
  obtain ⟨r, hr, hc⟩ := hf
  obtain ⟨r', hr', hc'⟩ := hroots r hr
  exact ⟨r', hr', hc'.trans (hc.grow hg)⟩

end UmbraDB.Lib.ErrorObjects
