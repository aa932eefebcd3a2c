import Mathlib.Data.List.Basic
import Mathlib.Tactic.Basic

/-! # Cutting a list into pieces of a given size

`for (let i = 0; i < xs.length; i += size) … xs.slice(i, i + size)`: the loop that cuts a payload
into chunks and a long list of rows into statements. The pieces make up the list again
(`flatten_batches`). Blocks of one size are determined by their concatenation
(`flatten_blocks_inj`). -/

namespace UmbraDB.Lib.Batches

variable {α : Type}

/-- The loop from offset `i` on, for at most the given number of rounds. -/
def batchesFrom (size : ℕ) (xs : List α) : ℕ → ℕ → List (List α)
  | 0, _ => []
  | rounds + 1, i =>
    if i < xs.length then (xs.drop i).take size :: batchesFrom size xs rounds (i + size) else []

/-- The pieces of the list. A positive size needs no more than `xs.length` rounds. -/
def batches (size : ℕ) (xs : List α) : List (List α) := batchesFrom size xs xs.length 0

theorem flatten_batchesFrom {size : ℕ} (hs : 0 < size) (xs : List α) : ∀ (rounds i : ℕ),
    xs.length ≤ rounds + i → (batchesFrom size xs rounds i).flatten = xs.drop i
  | 0, i, h => by rw [List.drop_eq_nil_of_le (by omega)]; rfl
  | rounds + 1, i, h => by
    unfold batchesFrom
    split_ifs with hi
    · rw [List.flatten_cons, flatten_batchesFrom hs xs rounds (i + size) (by omega),
        ← List.drop_drop, List.take_append_drop]
    · rw [List.drop_eq_nil_of_le (by omega)]; rfl

/-- The pieces make up the list. -/
theorem flatten_batches {size : ℕ} (hs : 0 < size) (xs : List α) :
    (batches size xs).flatten = xs := by
  rw [batches, flatten_batchesFrom hs xs xs.length 0 (by omega), List.drop_zero]

/-- No piece is empty, and none is larger than the size. -/
theorem mem_batchesFrom {size : ℕ} (hs : 0 < size) (xs : List α) : ∀ (rounds i : ℕ) {b : List α},
    b ∈ batchesFrom size xs rounds i → b ≠ [] ∧ b.length ≤ size
  | 0, _, _, h => by simp [batchesFrom] at h
  | rounds + 1, i, b, h => by
    unfold batchesFrom at h
    split_ifs at h with hi
    · rcases List.mem_cons.mp h with rfl | h
      · have hlen : ((xs.drop i).take size).length = min size (xs.length - i) := by
          rw [List.length_take, List.length_drop]
        refine ⟨fun hnil => ?_, by omega⟩
        rw [hnil, List.length_nil] at hlen
        omega
      · exact mem_batchesFrom hs xs rounds (i + size) h
    · cases h

theorem mem_batches {size : ℕ} (hs : 0 < size) {xs b : List α} (h : b ∈ batches size xs) :
    b ≠ [] ∧ b.length ≤ size :=
  mem_batchesFrom hs xs xs.length 0 h

/-- Blocks of one size are determined by their concatenation. -/
theorem flatten_blocks_inj {size : ℕ} (hs : 0 < size) : ∀ {xs ys : List (List α)},
    (∀ x ∈ xs, x.length = size) → (∀ y ∈ ys, y.length = size) → xs.flatten = ys.flatten → xs = ys
  | [], [], _, _, _ => rfl
  | [], y :: ys, _, hy, h => by
    have hlen := hy y List.mem_cons_self
    rw [List.flatten_nil, List.flatten_cons, List.nil_eq, List.append_eq_nil_iff] at h
    rw [h.1, List.length_nil] at hlen
    omega
  | x :: xs, [], hx, _, h => by
    have hlen := hx x List.mem_cons_self
    rw [List.flatten_nil, List.flatten_cons, List.append_eq_nil_iff] at h
    rw [h.1, List.length_nil] at hlen
    omega
  | x :: xs, y :: ys, hx, hy, h => by
    have hlen : x.length = y.length :=
      (hx x List.mem_cons_self).trans (hy y List.mem_cons_self).symm
    rw [List.flatten_cons, List.flatten_cons] at h
    obtain ⟨rfl, hrest⟩ := List.append_inj h hlen
    rw [flatten_blocks_inj hs (fun x hx' => hx x (List.mem_cons_of_mem _ hx'))
      (fun y hy' => hy y (List.mem_cons_of_mem _ hy')) hrest]

end UmbraDB.Lib.Batches
