import UmbraDB.Lib.RowStore
import Mathlib.Data.List.Nodup
import Mathlib.Tactic.Basic

/-! # Numbers from counter rows that stay locked to the end of the transaction

A table of counters, one for each key, used by transactions `T` at READ COMMITTED. A *claim* of an
item `I` takes the next number of a key, from `1` for a counter that has no row yet, and leaves the
row locked until its transaction ends. A rollback gives the numbers of the transaction back.

The state keeps the claims of each running transaction (`pending`), in the order in which they were
made, and those of the committed ones (`log`), in commit order.

* `Inv.log_seqs`: the committed numbers of a key are `1, 2, …, N`, in the order of the log.
* `Inv.pending_seqs`: the claims of a running transaction continue them, so numbers that were rolled
  back are taken again.
* `Inv.lt_claim`: a claim gets more than any number committed, or claimed by a running transaction. -/

namespace UmbraDB.Lib.Allocator

open UmbraDB.Lib.RowStore

/-- A number of a key and the item that has it. -/
structure Claim (K I : Type) where
  item : I
  key : K
  seq : ℕ
  deriving DecidableEq

variable {T K I : Type}

structure Counters (T K I : Type) where
  /-- The counter rows, with the next number. -/
  rows : Table T K (Option ℕ)
  pending : T → List (Claim K I)
  log : List (Claim K I)

def Counters.init : Counters T K I := ⟨.fresh fun _ => none, fun _ => [], []⟩

variable [DecidableEq T] [DecidableEq K]

/-- The numbers of a key, in the order of the claims. -/
def seqsOf (k : K) (cs : List (Claim K I)) : List ℕ := (cs.filter fun c => c.key = k).map (·.seq)

namespace Counters

/-- The number the next claim of `t` for `k` gets. -/
def next (s : Counters T K I) (t : T) (k : K) : ℕ := (s.rows.view t k).getD 1

def claim (s : Counters T K I) (t : T) (k : K) (i : I) : Counters T K I :=
  { s with
    rows := s.rows.write t k (some (s.next t k + 1))
    pending := Function.update s.pending t (s.pending t ++ [⟨i, k, s.next t k⟩]) }

def commit (s : Counters T K I) (t : T) : Counters T K I :=
  ⟨s.rows.commit t, Function.update s.pending t [], s.log ++ s.pending t⟩

def rollback (s : Counters T K I) (t : T) : Counters T K I :=
  ⟨s.rows.rollback t, Function.update s.pending t [], s.log⟩

/-- How many numbers of the key are committed. -/
def count (s : Counters T K I) (k : K) : ℕ := (seqsOf k s.log).length

end Counters

/-! ### The numbers of a list of claims -/

omit [DecidableEq T]

@[simp] theorem seqsOf_nil (k : K) : seqsOf k ([] : List (Claim K I)) = [] := rfl

theorem seqsOf_append (k : K) (cs cs' : List (Claim K I)) :
    seqsOf k (cs ++ cs') = seqsOf k cs ++ seqsOf k cs' := by
  unfold seqsOf
  rw [List.filter_append, List.map_append]

@[simp] theorem seqsOf_single_self (i : I) (k : K) (n : ℕ) : seqsOf k [⟨i, k, n⟩] = [n] := by
  simp [seqsOf]

theorem seqsOf_single_ne (i : I) {k k' : K} (n : ℕ) (h : k' ≠ k) :
    seqsOf k [⟨i, k', n⟩] = [] := by
  simp [seqsOf, h]

theorem seq_mem_seqsOf {k : K} {c : Claim K I} {cs : List (Claim K I)} (h : c ∈ cs)
    (hk : c.key = k) : c.seq ∈ seqsOf k cs :=
  List.mem_map.mpr ⟨c, List.mem_filter.mpr ⟨h, by simpa using hk⟩, rfl⟩

/-- Numbers that do not repeat tell the claims of a key apart. -/
theorem eq_of_seq_eq {cs : List (Claim K I)} {k : K} (hnd : (seqsOf k cs).Nodup) {c c' : Claim K I}
    (hc : c ∈ cs) (hc' : c' ∈ cs) (hk : c.key = k) (hk' : c'.key = k) (hq : c.seq = c'.seq) :
    c = c' :=
  List.inj_on_of_nodup_map hnd (List.mem_filter.mpr ⟨hc, by simpa using hk⟩)
    (List.mem_filter.mpr ⟨hc', by simpa using hk'⟩) hq

theorem nodup_of_seqsOf : ∀ {cs : List (Claim K I)}, (∀ k, (seqsOf k cs).Nodup) → cs.Nodup
  | [], _ => List.nodup_nil
  | c :: cs, h => by
    have happ : ∀ k, seqsOf k (c :: cs) = seqsOf k [c] ++ seqsOf k cs := fun k =>
      seqsOf_append k [c] cs
    refine List.nodup_cons.mpr ⟨fun hc => ?_, nodup_of_seqsOf fun k => ?_⟩
    · have hk := h c.key
      rw [happ, show seqsOf c.key [c] = [c.seq] from seqsOf_single_self c.item c.key c.seq] at hk
      exact (List.nodup_cons.mp hk).1 (seq_mem_seqsOf hc rfl)
    · have hk := h k
      rw [happ] at hk
      exact hk.of_append_right

/-! ### The invariant -/

variable [DecidableEq T]

structure Inv (s : Counters T K I) : Prop where
  log_seqs : ∀ k, seqsOf k s.log = List.range' 1 (s.count k)
  committed : ∀ k, (s.rows.committed k).getD 1 = s.count k + 1
  pending_seqs : ∀ t k, seqsOf k (s.pending t) =
    List.range' (s.count k + 1) (seqsOf k (s.pending t)).length
  held : ∀ t k v, s.rows.held k = some (t, v) →
    v.getD 1 = s.count k + (seqsOf k (s.pending t)).length + 1
  locked : ∀ t k, seqsOf k (s.pending t) ≠ [] → ∃ v, s.rows.held k = some (t, v)

namespace Inv

variable {s : Counters T K I}

omit [DecidableEq T] in
theorem init : Inv (Counters.init : Counters T K I) where
  log_seqs _ := rfl
  committed _ := rfl
  pending_seqs _ _ := rfl
  held _ _ _ h := by cases h
  locked _ _ h := absurd rfl h

/-- Only the holder of a counter row has claims that are not committed. -/
theorem pending_nil (hs : Inv s) {t t' : T} {k : K} (hf : s.rows.free t k = true) (hne : t' ≠ t) :
    seqsOf k (s.pending t') = [] := by
  by_contra h
  obtain ⟨v, hv⟩ := hs.locked t' k h
  rcases Table.free_iff.mp hf with hn | ⟨r, hr⟩
  · rw [hn] at hv; cases hv
  · rw [hr] at hv
    cases hv
    exact hne rfl

/-- A claim continues the committed numbers and those of its own transaction. -/
theorem next_eq (hs : Inv s) {t : T} {k : K} (hf : s.rows.free t k = true) :
    s.next t k = s.count k + (seqsOf k (s.pending t)).length + 1 := by
  unfold Counters.next
  rcases Table.free_iff.mp hf with hn | ⟨r, hr⟩
  · have hp : seqsOf k (s.pending t) = [] := by
      by_contra h
      obtain ⟨v, hv⟩ := hs.locked t k h
      rw [hn] at hv; cases hv
    rw [Table.view_of_none hn, hs.committed k, hp]
    rfl
  · rw [Table.view_of_held hr, hs.held t k r hr]

omit [DecidableEq T] in
theorem log_le_count (hs : Inv s) {c : Claim K I} (h : c ∈ s.log) : c.seq ≤ s.count c.key := by
  have hm := seq_mem_seqsOf h rfl
  rw [hs.log_seqs, List.mem_range'_1] at hm
  omega

omit [DecidableEq T] in
theorem log_nodup (hs : Inv s) (k : K) : (seqsOf k s.log).Nodup := by
  rw [hs.log_seqs k]
  exact List.nodup_range'

/-- **A claim gets a new number**: more than those committed and those claimed so far. -/
theorem lt_claim (hs : Inv s) {t : T} {k : K} (hf : s.rows.free t k = true) {c : Claim K I}
    (h : c ∈ s.log ∨ ∃ t', c ∈ s.pending t') (hk : c.key = k) : c.seq < s.next t k := by
  subst hk
  rw [hs.next_eq hf]
  rcases h with h | ⟨t', h⟩
  · have := hs.log_le_count h
    omega
  · by_cases ht : t' = t
    · subst ht
      have hm := seq_mem_seqsOf h rfl
      rw [hs.pending_seqs, List.mem_range'_1] at hm
      omega
    · have hm := seq_mem_seqsOf h rfl
      rw [hs.pending_nil hf ht] at hm
      cases hm

/-! ### Steps -/

theorem claim_pending (s : Counters T K I) (t t' : T) (k k' : K) (i : I) :
    seqsOf k' ((s.claim t k i).pending t') =
      seqsOf k' (s.pending t') ++ if t' = t ∧ k' = k then [s.next t k] else [] := by
  unfold Counters.claim
  by_cases ht : t' = t
  · subst ht
    by_cases hk : k' = k
    · subst hk
      simp [seqsOf_append]
    · simp [seqsOf_append, seqsOf_single_ne i _ (Ne.symm hk), hk]
  · simp [ht]

theorem claim (hs : Inv s) {t : T} {k : K} (hf : s.rows.free t k = true) (i : I) :
    Inv (s.claim t k i) where
  log_seqs := hs.log_seqs
  committed := hs.committed
  pending_seqs t' k' := by
    have hc : (s.claim t k i).count k' = s.count k' := rfl
    rw [claim_pending, hc]
    by_cases h : t' = t ∧ k' = k
    · obtain ⟨rfl, rfl⟩ := h
      have hp := hs.pending_seqs t' k'
      rw [if_pos ⟨rfl, rfl⟩, List.length_append, List.length_singleton, List.range'_concat,
        ← hp, hs.next_eq hf, Nat.one_mul]
      congr 2
      omega
    · rw [if_neg h, List.append_nil]
      exact hs.pending_seqs t' k'
  held t' k' v hv := by
    have hc : (s.claim t k i).count k' = s.count k' := rfl
    rw [claim_pending, hc]
    by_cases hk : k' = k
    · subst hk
      have hw : (s.claim t k' i).rows.held k' = some (t, some (s.next t k' + 1)) :=
        Table.write_held_self _ _ _ _
      rw [hw] at hv
      cases hv
      rw [if_pos ⟨rfl, rfl⟩, List.length_append, List.length_singleton, Option.getD_some,
        hs.next_eq hf]
      omega
    · have hw : (s.claim t k i).rows.held k' = s.rows.held k' := Table.write_held_ne _ _ _ hk
      rw [hw] at hv
      rw [if_neg fun h => hk h.2, List.append_nil]
      exact hs.held t' k' v hv
  locked t' k' h := by
    rw [claim_pending] at h
    by_cases hk : k' = k
    · subst hk
      by_cases ht : t' = t
      · subst ht
        exact ⟨_, Table.write_held_self _ _ _ _⟩
      · rw [if_neg fun h => ht h.1, List.append_nil] at h
        exact absurd (hs.pending_nil hf ht) h
    · rw [if_neg fun h => hk h.2, List.append_nil] at h
      obtain ⟨v, hv⟩ := hs.locked t' k' h
      exact ⟨v, by rw [← hv]; exact Table.write_held_ne _ _ _ hk⟩

theorem count_commit (s : Counters T K I) (t : T) (k : K) :
    (s.commit t).count k = s.count k + (seqsOf k (s.pending t)).length := by
  unfold Counters.count Counters.commit
  rw [seqsOf_append, List.length_append]

omit [DecidableEq K] in
/-- A transaction that still holds a counter row after the end of `t` held it before. -/
theorem held_of_unlock {t t' : T} {k : K} {v : Option ℕ}
    (h : (s.rows.unlock t) k = some (t', v)) : s.rows.held k = some (t', v) ∧ t' ≠ t :=
  Table.unlock_eq_some.mp h

theorem commit (hs : Inv s) (t : T) : Inv (s.commit t) where
  log_seqs k := by
    rw [count_commit]
    change seqsOf k (s.log ++ s.pending t) = _
    rw [seqsOf_append, hs.log_seqs k, hs.pending_seqs t k, List.length_range', Nat.add_comm _ 1,
      List.range'_append_1]
  committed k := by
    rw [count_commit]
    change (s.rows.view t k).getD 1 = _
    rcases s.rows.view_cases t k with h | ⟨hn, hv⟩
    · exact hs.held t k _ h
    · have hp : seqsOf k (s.pending t) = [] := by
        by_contra h
        obtain ⟨v, hv⟩ := hs.locked t k h
        exact hn v hv
      rw [hv, hs.committed, hp]
      rfl
  pending_seqs t' k := by
    rw [count_commit]
    by_cases ht : t' = t
    · subst ht
      simp [Counters.commit]
    · have hp : (s.commit t).pending t' = s.pending t' := Function.update_of_ne ht _ _
      rw [hp]
      by_cases h : seqsOf k (s.pending t') = []
      · rw [h]; rfl
      · obtain ⟨v, hv⟩ := hs.locked t' k h
        have hf : s.rows.free t' k = true := Table.free_iff.mpr (Or.inr ⟨v, hv⟩)
        rw [hs.pending_nil hf (Ne.symm ht), List.length_nil, Nat.add_zero]
        exact hs.pending_seqs t' k
  held t' k v h := by
    obtain ⟨hh, ht⟩ := held_of_unlock h
    have hf : s.rows.free t' k = true := Table.free_iff.mpr (Or.inr ⟨v, hh⟩)
    have hp : (s.commit t).pending t' = s.pending t' := Function.update_of_ne ht _ _
    rw [count_commit, hp, hs.pending_nil hf (Ne.symm ht), List.length_nil, Nat.add_zero]
    exact hs.held t' k v hh
  locked t' k h := by
    by_cases ht : t' = t
    · subst ht
      simp [Counters.commit] at h
    · have hp : (s.commit t).pending t' = s.pending t' := Function.update_of_ne ht _ _
      rw [hp] at h
      obtain ⟨v, hv⟩ := hs.locked t' k h
      exact ⟨v, Table.unlock_eq_some.mpr ⟨hv, ht⟩⟩

theorem rollback (hs : Inv s) (t : T) : Inv (s.rollback t) where
  log_seqs := hs.log_seqs
  committed := hs.committed
  pending_seqs t' k := by
    by_cases ht : t' = t
    · subst ht
      simp [Counters.rollback]
    · have hp : (s.rollback t).pending t' = s.pending t' := Function.update_of_ne ht _ _
      rw [hp]
      exact hs.pending_seqs t' k
  held t' k v h := by
    obtain ⟨hh, ht⟩ := held_of_unlock h
    have hp : (s.rollback t).pending t' = s.pending t' := Function.update_of_ne ht _ _
    rw [hp]
    exact hs.held t' k v hh
  locked t' k h := by
    by_cases ht : t' = t
    · subst ht
      simp [Counters.rollback] at h
    · have hp : (s.rollback t).pending t' = s.pending t' := Function.update_of_ne ht _ _
      rw [hp] at h
      obtain ⟨v, hv⟩ := hs.locked t' k h
      exact ⟨v, Table.unlock_eq_some.mpr ⟨hv, ht⟩⟩

end Inv

end UmbraDB.Lib.Allocator
