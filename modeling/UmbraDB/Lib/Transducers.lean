import Mathlib.Data.List.Basic
import Mathlib.Tactic.Basic

/-! # Transducers

A machine reads a list, one item after the other, and writes a list: decoders, lexers and parsers
are such machines. An item that it cannot read, or an end where more is needed, is `none`.

* `run_append` : what is read first only puts its output in front.
* `read_flatMap` : a machine that is back in its state after each block is so after all of them. -/

namespace UmbraDB.Lib.Transducers

variable {S A B : Type}

structure Machine (S A B : Type) where
  step : S → A → Option (S × List B)
  finish : S → Option (List B)

variable {M : Machine S A B}

/-- The output of a whole run from the state. -/
def Machine.run (M : Machine S A B) : S → List A → Option (List B)
  | s, [] => M.finish s
  | s, a :: as => (M.step s a).bind fun r => (M.run r.1 as).map (r.2 ++ ·)

/-- Where reading the items leads, and what it writes. -/
def Machine.read (M : Machine S A B) : S → List A → Option (S × List B)
  | s, [] => some (s, [])
  | s, a :: as =>
    (M.step s a).bind fun r => (M.read r.1 as).map fun r' => (r'.1, r.2 ++ r'.2)

theorem read_cons {s s' s'' : S} {a : A} {as : List A} {out out' : List B}
    (h : M.step s a = some (s', out)) (h' : M.read s' as = some (s'', out')) :
    M.read s (a :: as) = some (s'', out ++ out') := by
  rw [Machine.read, h, Option.bind_some, h', Option.map_some]

theorem run_cons {s s' : S} {a : A} {as : List A} {out : List B}
    (h : M.step s a = some (s', out)) : M.run s (a :: as) = (M.run s' as).map (out ++ ·) := by
  rw [Machine.run, h, Option.bind_some]

/-- **Reading a first part.** -/
theorem run_append : ∀ (as : List A) {s s' : S} {out : List B} (bs : List A),
    M.read s as = some (s', out) → M.run s (as ++ bs) = (M.run s' bs).map (out ++ ·)
  | [], s, s', out, bs, h => by
    cases h
    simp
  | a :: as, s, s', out, bs, h => by
    rw [Machine.read] at h
    obtain ⟨⟨s₁, out₁⟩, h₁, h⟩ := Option.bind_eq_some_iff.mp h
    obtain ⟨⟨s₂, out₂⟩, h₂, h⟩ := Option.map_eq_some_iff.mp h
    cases h
    rw [List.cons_append, run_cons h₁, run_append as bs h₂, Option.map_map]
    congr 1
    funext rest
    simp

theorem read_append : ∀ (as : List A) {s s' s'' : S} {out out' : List B} {bs : List A},
    M.read s as = some (s', out) → M.read s' bs = some (s'', out') →
    M.read s (as ++ bs) = some (s'', out ++ out')
  | [], _, _, _, _, _, _, h, h' => by
    cases h
    simpa using h'
  | a :: as, s, s', s'', out, out', bs, h, h' => by
    rw [Machine.read] at h
    obtain ⟨⟨s₁, out₁⟩, h₁, h⟩ := Option.bind_eq_some_iff.mp h
    obtain ⟨⟨s₂, out₂⟩, h₂, h⟩ := Option.map_eq_some_iff.mp h
    cases h
    rw [List.cons_append, List.append_assoc]
    exact read_cons h₁ (read_append as h₂ h')

/-- **Block by block.** -/
theorem read_flatMap {C : Type} {s : S} {f : C → List A} {g : C → List B} :
    ∀ (cs : List C), (∀ c ∈ cs, M.read s (f c) = some (s, g c)) →
      M.read s (cs.flatMap f) = some (s, cs.flatMap g)
  | [], _ => rfl
  | c :: cs, h => by
    rw [List.flatMap_cons, List.flatMap_cons]
    exact read_append _ (h c (by simp)) (read_flatMap cs fun c' hc' => h c' (by simp [hc']))

end UmbraDB.Lib.Transducers
