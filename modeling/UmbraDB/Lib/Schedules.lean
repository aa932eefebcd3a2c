import Mathlib.Algebra.Order.BigOperators.Group.Finset
import Mathlib.Logic.Hydra
import Mathlib.Order.OrderIsoNat

/-! # Every schedule ends

Finitely many parties, each of which has a rank. If a step lowers the rank of one party and leaves
those of the others, no schedule goes on for ever, however the steps are interleaved; the sum of the
ranks would not do, for a rank can be of any well-founded order.

* `no_infinite_schedule` : ranks of a well-founded order, one of which changes at a time.
* `no_infinite_descent` : ranks that are numbers, any of which may become less. -/

namespace UmbraDB.Lib.Schedules

open Relation

variable {S K A : Type*} {r : A → A → Prop} [DecidableEq K]

/-- The ranks of the parties, as a multiset. -/
def ranks (parties : Finset K) (rank : S → K → A) (s : S) : Multiset A :=
  ∑ k ∈ parties, {rank s k}

theorem cutExpand_ranks {parties : Finset K} {rank : S → K → A} {s s' : S} {k : K}
    (hk : k ∈ parties) (hlt : r (rank s' k) (rank s k))
    (hothers : ∀ k' ≠ k, rank s' k' = rank s k') :
    CutExpand r (ranks parties rank s') (ranks parties rank s) := by
  have hrest : ∑ k' ∈ parties.erase k, ({rank s' k'} : Multiset A) =
      ∑ k' ∈ parties.erase k, {rank s k'} :=
    Finset.sum_congr rfl fun k' hk' => by rw [hothers k' (Finset.ne_of_mem_erase hk')]
  rw [ranks, ranks, ← Finset.add_sum_erase _ _ hk, ← Finset.add_sum_erase _ _ hk, hrest]
  exact cutExpand_single_add hlt _

/-- **No schedule goes on for ever.** -/
theorem no_infinite_schedule (hr : WellFounded r) (parties : Finset K) (rank : S → K → A)
    (f : ℕ → S) (hstep : ∀ n, ∃ k ∈ parties, r (rank (f (n + 1)) k) (rank (f n) k) ∧
      ∀ k' ≠ k, rank (f (n + 1)) k' = rank (f n) k') : False := by
  have := IsWellFounded.mk (InvImage.wf (ranks parties rank) hr.cutExpand)
  obtain ⟨n, hn⟩ :=
    WellFounded.not_rel_apply_succ (r := InvImage (CutExpand r) (ranks parties rank)) f
  obtain ⟨k, hk, hlt, hothers⟩ := hstep n
  exact hn (cutExpand_ranks hk hlt hothers)

omit [DecidableEq K] in
/-- The same for numbers, where a step may lower the ranks of several parties. -/
theorem no_infinite_descent (rank : S → K → ℕ) (f : ℕ → S)
    (hfin : {k | rank (f 0) k ≠ 0}.Finite)
    (hle : ∀ n k, rank (f (n + 1)) k ≤ rank (f n) k)
    (hlt : ∀ n, ∃ k, rank (f (n + 1)) k < rank (f n) k) : False := by
  have hfirst : ∀ n k, rank (f n) k ≤ rank (f 0) k := by
    intro n k
    induction n with
    | zero => exact le_rfl
    | succ n ih => exact (hle n k).trans ih
  have hsum : ∀ n, ∑ k ∈ hfin.toFinset, rank (f (n + 1)) k < ∑ k ∈ hfin.toFinset, rank (f n) k := by
    intro n
    obtain ⟨k, hk⟩ := hlt n
    have hpos : 0 < rank (f 0) k := ((Nat.zero_le _).trans_lt hk).trans_le (hfirst n k)
    exact Finset.sum_lt_sum (fun k _ => hle n k)
      ⟨k, hfin.mem_toFinset.mpr (Nat.pos_iff_ne_zero.mp hpos), hk⟩
  obtain ⟨n, hn⟩ := WellFounded.not_rel_apply_succ (r := fun m n : ℕ => m < n)
    fun n => ∑ k ∈ hfin.toFinset, rank (f n) k
  exact hn (hsum n)

end UmbraDB.Lib.Schedules
