import Mathlib.Data.List.Basic
import Mathlib.Logic.Relation
import Mathlib.Algebra.GroupWithZero.Nat
import Mathlib.Algebra.Order.Group.Nat

/-! # Depth-first search with an explicit stack

The loop pops a node, stops if it is what is searched for, and pushes the nodes below it, so that
the last of them is the next. The nodes below are together smaller than the node, hence the loop
ends.

* `search_iff` : the loop finds a node exactly if one can be reached from the stack, whatever the
  order of the visits. -/

namespace UmbraDB.Lib.WorkList

variable {N : Type*}

/-- A node with the nodes below it. -/
structure Nodes (N : Type*) where
  below : N → List N
  size : N → ℕ
  size_below : ∀ n, ((below n).map size).sum < size n

/-- The size of a stack. -/
def Nodes.weight (G : Nodes N) (stack : List N) : ℕ := (stack.map G.size).sum

variable (G : Nodes N)

@[simp] theorem Nodes.weight_cons (n : N) (stack : List N) :
    G.weight (n :: stack) = G.size n + G.weight stack := by
  rw [Nodes.weight, List.map_cons, List.sum_cons, Nodes.weight]

theorem Nodes.weight_push_lt (n : N) (stack : List N) :
    G.weight ((G.below n).reverse ++ stack) < G.weight (n :: stack) := by
  have hlt := G.size_below n
  have hpush : G.weight ((G.below n).reverse ++ stack) =
      ((G.below n).map G.size).sum + G.weight stack := by
    rw [Nodes.weight, List.map_append, List.sum_append, List.map_reverse, List.sum_reverse,
      Nodes.weight]
  rw [hpush, Nodes.weight_cons]
  omega

/-- `while (stack.length > 0)`; the top of the stack is the head of the list. -/
def Nodes.search (hit : N → Bool) : List N → Bool
  | [] => false
  | n :: stack => if hit n then true else Nodes.search hit ((G.below n).reverse ++ stack)
termination_by stack => G.weight stack
decreasing_by simpa using G.weight_push_lt n stack

/-- `m` is one of the nodes below `n`. -/
def Nodes.Below (n m : N) : Prop := m ∈ G.below n

/-- Some node at or below one of the stack is a hit. -/
def Nodes.Found (hit : N → Bool) (stack : List N) : Prop :=
  ∃ n ∈ stack, ∃ m, Relation.ReflTransGen G.Below n m ∧ hit m = true

variable {G} {hit : N → Bool}

/-- What is pushed stands for the node that was popped, unless that is a hit itself. -/
theorem found_cons_iff {n : N} {stack : List N} (h : ¬ hit n = true) :
    G.Found hit (n :: stack) ↔ G.Found hit ((G.below n).reverse ++ stack) := by
  constructor
  · rintro ⟨n', hn', m, hreach, hm⟩
    rcases List.mem_cons.mp hn' with rfl | hn'
    · rcases Relation.ReflTransGen.cases_head hreach with rfl | ⟨n₁, h₁, hrest⟩
      · exact absurd hm h
      · exact ⟨n₁, by simp only [List.mem_append, List.mem_reverse]; exact Or.inl h₁, m, hrest, hm⟩
    · exact ⟨n', List.mem_append_right _ hn', m, hreach, hm⟩
  · rintro ⟨n', hn', m, hreach, hm⟩
    rcases List.mem_append.mp hn' with hn' | hn'
    · exact ⟨n, List.mem_cons_self, m, .head (List.mem_reverse.mp hn') hreach, hm⟩
    · exact ⟨n', List.mem_cons_of_mem _ hn', m, hreach, hm⟩

/-- **The loop finds what can be found.** -/
theorem search_iff (stack : List N) : G.search hit stack = true ↔ G.Found hit stack := by
  induction hw : G.weight stack using Nat.strong_induction_on generalizing stack with
  | _ w ih =>
    rcases stack with _ | ⟨n, stack⟩
    · rw [Nodes.search]
      simp [Nodes.Found]
    · rw [Nodes.search]
      split_ifs with h
      · refine ⟨fun _ => ⟨n, List.mem_cons_self, n, .refl, h⟩, fun _ => rfl⟩
      · rw [found_cons_iff h]
        exact ih _ (hw ▸ G.weight_push_lt n stack) _ rfl

end UmbraDB.Lib.WorkList
