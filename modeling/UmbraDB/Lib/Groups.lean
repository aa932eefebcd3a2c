import UmbraDB.Lib.Keyed
import Mathlib.Data.List.Flatten
import Mathlib.Data.List.Nodup
import Mathlib.Data.List.Range

/-! # Lists that are collected group by group

A loop over groups with distinct keys that appends, for each group, elements that carry its key. The
members of a group can be read off the list again, in their order.

* `foldl_push`, `foldl_enumerate` : what such loops compute.
* `filter_flatMap` : the elements with a key are those of the group with the key.
* `nodup_flatMap` : elements that are numbered within their group are distinct. -/

namespace UmbraDB.Lib.Groups

open UmbraDB.Lib.Keyed

universe u v w

variable {A : Type u} {B : Type v} {K : Type w}

theorem foldl_push (f : A → B) (xs : List A) (ys : List B) :
    xs.foldl (fun ys x => ys ++ [f x]) ys = ys ++ xs.map f := by
  rw [List.foldl_append_eq_append, ← List.flatMap_def, List.map_eq_flatMap]

/-- A loop that numbers what it appends. -/
theorem foldl_enumerate (f : ℕ → A → B) (xs : List A) (n : ℕ) (ys : List B) :
    xs.foldl (fun acc x => (acc.1 + 1, acc.2 ++ [f acc.1 x])) (n, ys) =
      (n + xs.length, ys ++ (xs.zipIdx n).map fun p => f p.2 p.1) := by
  induction xs generalizing n ys with
  | nil => rw [List.foldl_nil, List.length_nil, Nat.add_zero, List.zipIdx_nil, List.map_nil,
      List.append_nil]
  | cons x xs ih =>
    rw [List.foldl_cons, ih, List.length_cons, List.zipIdx_cons, List.map_cons, List.append_assoc,
      List.singleton_append, Nat.add_assoc, Nat.add_comm 1]

variable [DecidableEq K] {key : A → K} {members : A → List B} {tag : B → K}

/-- **The elements with a key are those of its group.** -/
theorem filter_flatMap (htag : ∀ x, ∀ y ∈ members x, tag y = key x) {xs : List A}
    (hd : Distinct key xs) (k : K) :
    (xs.flatMap members).filter (fun y => tag y = k) = ((get key k xs).map members).getD [] := by
  have hsame : ∀ x, key x = k → (members x).filter (fun y => tag y = k) = members x := fun x hx =>
    List.filter_eq_self.mpr fun y hy => decide_eq_true ((htag x y hy).trans hx)
  have hother : ∀ x, key x ≠ k → (members x).filter (fun y => tag y = k) = [] := fun x hx =>
    List.filter_eq_nil_iff.mpr fun y hy => by rw [decide_eq_true_eq, htag x y hy]; exact hx
  induction xs with
  | nil => rfl
  | cons x xs ih =>
    obtain ⟨hx, hxs⟩ := List.nodup_cons.mp hd
    rw [List.flatMap_cons, List.filter_append, Keyed.get]
    by_cases hk : key x = k
    · have hnil : (xs.flatMap members).filter (fun y => tag y = k) = [] := by
        rw [ih hxs, Keyed.get, List.find?_eq_none.mpr]
        · rfl
        · intro y hy he
          exact hx (List.mem_map.mpr ⟨y, hy, (beq_iff_eq.mp he).trans hk.symm⟩)
      rw [hsame x hk, hnil, List.append_nil,
        List.find?_cons_of_pos (p := fun x => key x == k) (beq_iff_eq.mpr hk)]
      rfl
    · rw [hother x hk, List.nil_append, ih hxs,
        List.find?_cons_of_neg (p := fun x => key x == k) fun he => hk (beq_iff_eq.mp he)]
      rfl

omit [DecidableEq K] in
/-- Elements that are numbered within their group are distinct. -/
theorem nodup_flatMap (htag : ∀ x, ∀ y ∈ members x, tag y = key x) {index : B → ℕ}
    (hindex : ∀ x, ((members x).map index).Nodup) {xs : List A} (hd : Distinct key xs) :
    ((xs.flatMap members).map fun y => (tag y, index y)).Nodup := by
  induction xs with
  | nil => exact List.nodup_nil
  | cons x xs ih =>
    obtain ⟨hx, hxs⟩ := List.nodup_cons.mp hd
    rw [List.flatMap_cons, List.map_append]
    refine List.nodup_append.mpr ⟨?_, ih hxs, fun p hp q hq hpq => ?_⟩
    · exact List.Nodup.of_map Prod.snd (by rw [List.map_map]; exact hindex x)
    · obtain ⟨y, hy, rfl⟩ := List.mem_map.mp hp
      obtain ⟨z, hz, rfl⟩ := List.mem_map.mp hq
      obtain ⟨x', hx', hz⟩ := List.mem_flatMap.mp hz
      refine hx (List.mem_map.mpr ⟨x', hx', ?_⟩)
      rw [← htag x y hy, ← htag x' z hz]
      exact (congrArg Prod.fst hpq).symm

end UmbraDB.Lib.Groups
