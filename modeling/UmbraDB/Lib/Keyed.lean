import Mathlib.Data.List.Nodup
import Mathlib.Data.List.Perm.Basic

/-! # Lists with a key

A table with a primary key, or a map in the order of insertion, as a list whose elements have a
`key`. The lemmas hold as long as the keys are distinct, which every operation keeps. -/

namespace UmbraDB.Lib.Keyed

universe u v

variable {A : Type u} {K : Type v} [DecidableEq K] {key : A → K}

/-- The element with the key. -/
def get (key : A → K) (k : K) (xs : List A) : Option A := xs.find? fun x => key x == k

/-- The element in the place of the one with its key, or at the end. -/
def put (key : A → K) (x : A) (xs : List A) : List A :=
  if xs.any fun y => key y == key x then xs.map fun y => if key y = key x then x else y
  else xs ++ [x]

/-- The keys are distinct. -/
def Distinct (key : A → K) (xs : List A) : Prop := (xs.map key).Nodup

theorem key_of_get {k : K} {xs : List A} {x : A} (h : get key k xs = some x) : key x = k := by
  simpa using List.find?_some h

theorem mem_of_get {k : K} {xs : List A} {x : A} (h : get key k xs = some x) : x ∈ xs :=
  List.mem_of_find?_eq_some h

omit [DecidableEq K] in
theorem eq_of_mem {xs : List A} (hd : Distinct key xs) {x y : A} (hx : x ∈ xs) (hy : y ∈ xs)
    (h : key x = key y) : x = y :=
  List.inj_on_of_nodup_map hd hx hy h

theorem get_of_mem {xs : List A} (hd : Distinct key xs) {x : A} (hx : x ∈ xs) :
    get key (key x) xs = some x := by
  rcases h : get key (key x) xs with _ | y
  · have := List.find?_eq_none.mp h x hx
    simp at this
  · rw [eq_of_mem hd (mem_of_get h) hx (key_of_get h)]

theorem get_eq_some {xs : List A} (hd : Distinct key xs) {k : K} {x : A} :
    get key k xs = some x ↔ x ∈ xs ∧ key x = k := by
  constructor
  · intro h
    exact ⟨mem_of_get h, key_of_get h⟩
  · rintro ⟨hx, rfl⟩
    exact get_of_mem hd hx

theorem distinct_put {xs : List A} (hd : Distinct key xs) (x : A) :
    Distinct key (put key x xs) := by
  unfold put Distinct
  split
  · have : (xs.map fun y => if key y = key x then x else y).map key = xs.map key := by
      rw [List.map_map]
      refine List.map_congr_left fun y _ => ?_
      simp only [Function.comp_apply]
      split
      · next h => exact h.symm
      · rfl
    rw [this]
    exact hd
  · next h =>
    rw [List.map_append, List.nodup_append]
    refine ⟨hd, by simp, ?_⟩
    intro k hk k' hk'
    obtain ⟨y, hy, rfl⟩ := List.mem_map.mp hk
    rw [List.map_singleton, List.mem_singleton] at hk'
    subst hk'
    rw [List.any_eq_true, not_exists] at h
    intro e
    exact h y ⟨hy, by simpa using e⟩

omit [DecidableEq K] in
theorem distinct_filter {xs : List A} (hd : Distinct key xs) (p : A → Bool) :
    Distinct key (xs.filter p) :=
  hd.sublist (List.filter_sublist.map key)

theorem mem_put {xs : List A} {x y : A} :
    y ∈ put key x xs ↔ y = x ∨ (y ∈ xs ∧ key y ≠ key x) := by
  unfold put
  split
  · next h =>
    obtain ⟨z, hz, hk⟩ := List.any_eq_true.mp h
    rw [beq_iff_eq] at hk
    rw [List.mem_map]
    constructor
    · rintro ⟨a, ha, rfl⟩
      by_cases e : key a = key x
      · rw [if_pos e]
        exact Or.inl rfl
      · rw [if_neg e]
        exact Or.inr ⟨ha, e⟩
    · rintro (rfl | ⟨hy, e⟩)
      · exact ⟨z, hz, if_pos hk⟩
      · exact ⟨y, hy, if_neg e⟩
  · next h =>
    rw [List.any_eq_true, not_exists] at h
    rw [List.mem_append, List.mem_singleton]
    constructor
    · rintro (hy | rfl)
      · exact Or.inr ⟨hy, fun e => h y ⟨hy, by simpa using e⟩⟩
      · exact Or.inl rfl
    · rintro (rfl | ⟨hy, -⟩)
      · exact Or.inr rfl
      · exact Or.inl hy

/-- What `put` does not change. -/
theorem filter_put {xs : List A} {x : A} {p : A → Bool}
    (hp : ∀ y, key y = key x → p y = false) : (put key x xs).filter p = xs.filter p := by
  unfold put
  split
  · -- an element whose place is taken is refused, as the one that takes it is
    rw [List.filter_map]
    have hcomp : xs.filter (p ∘ fun y => if key y = key x then x else y) = xs.filter p := by
      refine List.filter_congr fun y _ => ?_
      rw [Function.comp_apply]
      split_ifs with h
      · rw [hp x rfl, hp y h]
      · rfl
    rw [hcomp]
    refine (List.map_congr_left fun y hy => ?_).trans (List.map_id _)
    rw [if_neg, id]
    intro h
    rw [List.mem_filter, hp y h] at hy
    exact absurd hy.2 Bool.false_ne_true
  · rw [List.filter_append, List.filter_cons_of_neg (by simp [hp x rfl]), List.filter_nil,
      List.append_nil]

theorem get_put_self {xs : List A} (hd : Distinct key xs) (x : A) :
    get key (key x) (put key x xs) = some x :=
  (get_eq_some (distinct_put hd x)).mpr ⟨mem_put.mpr (Or.inl rfl), rfl⟩

theorem get_put_of_ne {xs : List A} (hd : Distinct key xs) {x : A} {k : K} (h : k ≠ key x) :
    get key k (put key x xs) = get key k xs := by
  ext y
  rw [get_eq_some (distinct_put hd x), get_eq_some hd, mem_put]
  constructor
  · rintro ⟨rfl | ⟨hy, -⟩, hk⟩
    · exact absurd hk.symm h
    · exact ⟨hy, hk⟩
  · rintro ⟨hy, hk⟩
    exact ⟨Or.inr ⟨hy, fun e => h (hk ▸ e)⟩, hk⟩

theorem get_filter {xs : List A} (hd : Distinct key xs) (p : A → Bool) (k : K) :
    get key k (xs.filter p) = (get key k xs).filter p := by
  ext y
  rw [get_eq_some (distinct_filter hd p), Option.filter_eq_some_iff, get_eq_some hd,
    List.mem_filter]
  tauto

end UmbraDB.Lib.Keyed
