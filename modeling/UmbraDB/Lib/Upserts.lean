import UmbraDB.Lib.RowStore
import Mathlib.Data.List.Induction
import Mathlib.Order.Lattice
import Mathlib.Tactic.Basic

/-! # Upserts at READ COMMITTED

A table under `INSERT … ON CONFLICT DO UPDATE` alone: an upsert of the key `k` with `a` turns the
newest version `r` of its row into `apply r a`, and leaves the row locked until its transaction
ends. It waits for the lock, so nothing it reads can change before it commits.

The state keeps the upserts of each running transaction (`pending`), in the order in which they were
made, and those of the committed ones (`log`), in commit order. Rows are then folds of them, however
the transactions were interleaved:

* `Inv.committed` : a committed row is the fold of the log.
* `Inv.view_eq` : what a transaction sees is the fold of the log and then of its own upserts.
* `fold_set`, `fold_least` : where the last upsert wins, and where the least one does.
* `stands_foldl` : where a value does not replace one that is as great. -/

namespace UmbraDB.Lib.Upserts

open UmbraDB.Lib.RowStore

variable {T K R A : Type}

structure Store (T K R A : Type) where
  rows : Table T K R
  pending : T → List (K × A)
  log : List (K × A)

def Store.init (empty : R) : Store T K R A := ⟨.fresh fun _ => empty, fun _ => [], []⟩

variable [DecidableEq T] [DecidableEq K]

/-- The upserts of a key, in their order. -/
def upsertsOf (k : K) (ops : List (K × A)) : List A := (ops.filter fun op => op.1 = k).map (·.2)

/-- The version that upserts leave of a row. -/
def fold (apply : R → A → R) (empty : R) (k : K) (ops : List (K × A)) : R :=
  (upsertsOf k ops).foldl apply empty

namespace Store

variable (apply : R → A → R)

/-- An upsert; `none` while another transaction has the lock of the row. -/
def upsert (s : Store T K R A) (t : T) (k : K) (a : A) : Option (Store T K R A) :=
  if s.rows.free t k then
    some { s with
      rows := s.rows.write t k (apply (s.rows.view t k) a)
      pending := Function.update s.pending t (s.pending t ++ [(k, a)]) }
  else none

def commit (s : Store T K R A) (t : T) : Store T K R A :=
  ⟨s.rows.commit t, Function.update s.pending t [], s.log ++ s.pending t⟩

def rollback (s : Store T K R A) (t : T) : Store T K R A :=
  ⟨s.rows.rollback t, Function.update s.pending t [], s.log⟩

end Store

/-! ### Folds -/

section Fold

omit [DecidableEq T]

variable {apply : R → A → R} {empty : R}

@[simp] theorem upsertsOf_nil (k : K) : upsertsOf k ([] : List (K × A)) = [] := rfl

theorem upsertsOf_append (k : K) (ops ops' : List (K × A)) :
    upsertsOf k (ops ++ ops') = upsertsOf k ops ++ upsertsOf k ops' := by
  unfold upsertsOf
  rw [List.filter_append, List.map_append]

@[simp] theorem upsertsOf_single_self (k : K) (a : A) : upsertsOf k [(k, a)] = [a] := by
  simp [upsertsOf]

theorem upsertsOf_single_ne {k k' : K} (a : A) (h : k' ≠ k) : upsertsOf k [(k', a)] = [] := by
  simp [upsertsOf, h]

theorem mem_upsertsOf {k : K} {a : A} {ops : List (K × A)} :
    a ∈ upsertsOf k ops ↔ (k, a) ∈ ops := by
  unfold upsertsOf
  constructor
  · intro h
    obtain ⟨op, hf, ha⟩ := List.mem_map.mp h
    obtain ⟨hm, hk⟩ := List.mem_filter.mp hf
    rw [← of_decide_eq_true hk, ← ha]
    exact hm
  · intro h
    exact List.mem_map.mpr ⟨(k, a), List.mem_filter.mpr ⟨h, by simp⟩, rfl⟩

theorem fold_append_of_nil {k : K} {ops ops' : List (K × A)} (h : upsertsOf k ops' = []) :
    fold apply empty k (ops ++ ops') = fold apply empty k ops := by
  unfold fold
  rw [upsertsOf_append, h, List.append_nil]

theorem fold_append_of_nil_left {k : K} {ops ops' ops'' : List (K × A)}
    (h : upsertsOf k ops' = []) :
    fold apply empty k (ops ++ ops' ++ ops'') = fold apply empty k (ops ++ ops'') := by
  unfold fold
  rw [upsertsOf_append, upsertsOf_append, upsertsOf_append, h, List.append_nil]

theorem fold_concat_self (k : K) (a : A) (ops : List (K × A)) :
    fold apply empty k (ops ++ [(k, a)]) = apply (fold apply empty k ops) a := by
  unfold fold
  rw [upsertsOf_append, upsertsOf_single_self, List.foldl_append]
  rfl

/-- The last upsert wins. -/
theorem fold_set (f : A → R) (k : K) (ops : List (K × A)) :
    fold (fun _ a => some (f a)) none k ops = (upsertsOf k ops).getLast?.map f := by
  unfold fold
  induction upsertsOf k ops using List.reverseRecOn with
  | nil => rfl
  | append_singleton as a _ => simp

/-- The least value wins. -/
theorem fold_least {H : Type} [Min H] (f : A → H) (k : K) (ops : List (K × A)) :
    fold (fun r a => some (r.elim (f a) fun h => min h (f a))) none k ops =
      ((upsertsOf k ops).map f).min? := by
  have hsome : ∀ (as : List A) (h : H),
      as.foldl (fun r a => some (r.elim (f a) fun h => min h (f a))) (some h) =
        some ((as.map f).foldl min h) := by
    intro as
    induction as with
    | nil => intro h; rfl
    | cons a as ih => intro h; exact ih (min h (f a))
  unfold fold
  rcases upsertsOf k ops with _ | ⟨a, as⟩
  · rfl
  · exact hsome as (f a)

end Fold

/-! ### Upserts with a guard -/

section Guarded

omit [DecidableEq T] [DecidableEq K]

variable {V H : Type} [LinearOrder H] {m : V → Option H} {vs : List V} {v : V}

/-- The value replaces the stored one, unless both have a measure and the stored one's is as great.
-/
def guarded (m : V → Option H) (r : Option V) (v : V) : Option V :=
  match r.bind m, m v with
  | some h, some h' => if h < h' then some v else r
  | _, _ => some v

/-- Of the values in this order `v` stands: those after it are no greater, and those before it are
smaller, back to one without a measure. -/
def Stands (m : V → Option H) (vs : List V) (v : V) : Prop :=
  ∃ before smaller later, vs = before ++ smaller ++ v :: later ∧
    (m v ≠ none → ∀ u ∈ before.getLast?, m u = none) ∧
    (∀ w ∈ smaller, ∃ h h', m w = some h ∧ m v = some h' ∧ h < h') ∧
    ∀ w ∈ later, ∃ h h', m w = some h ∧ m v = some h' ∧ h ≤ h'

theorem guarded_of_none {r : Option V} (h : r.bind m = none ∨ m v = none) :
    guarded m r v = some v := by
  rcases h with h | h
  · rw [guarded, h]
  · rw [guarded, h]
    rcases r.bind m with _ | _
    · rfl
    · rfl

theorem guarded_of_some {r : Option V} {h h' : H} (hr : r.bind m = some h) (hv : m v = some h') :
    guarded m r v = if h < h' then some v else r := by
  rw [guarded, hr, hv]

/-- Something stands after every value. -/
theorem guarded_ne_none {r : Option V} : guarded m r v ≠ none := by
  intro h
  unfold guarded at h
  split at h
  · next hb _ =>
    split_ifs at h
    rw [h] at hb
    cases hb
  · cases h

theorem foldl_guarded_eq_none : vs.foldl (guarded m) none = none ↔ vs = [] := by
  rcases List.eq_nil_or_concat vs with rfl | ⟨us, u, rfl⟩
  · exact ⟨fun _ => rfl, fun _ => rfl⟩
  · rw [List.concat_eq_append, List.foldl_append]
    exact ⟨fun h => absurd h guarded_ne_none, fun h => by simp at h⟩

/-- A value without a measure is the last one. -/
theorem Stands.last (h : Stands m vs v) (hv : m v = none) : vs.getLast? = some v := by
  obtain ⟨before, smaller, later, rfl, -, -, hlater⟩ := h
  rcases later with _ | ⟨w, later⟩
  · exact List.getLast?_concat
  · obtain ⟨h, h', -, hm, -⟩ := hlater w List.mem_cons_self
    rw [hv] at hm
    cases hm

/-- **The value that stands.** -/
theorem stands_foldl : ∀ {vs : List V} {v : V}, vs.foldl (guarded m) none = some v →
    Stands m vs v := by
  intro vs
  induction vs using List.reverseRecOn with
  | nil =>
    intro v h
    cases h
  | append_singleton vs a ih =>
    intro v h
    rw [List.foldl_append, List.foldl_cons, List.foldl_nil] at h
    rcases ha : m a with _ | h'
    · rw [guarded_of_none (Or.inr ha)] at h
      cases h
      exact ⟨vs, [], [], by simp, fun hne => absurd ha hne, by simp, by simp⟩
    rcases hr : vs.foldl (guarded m) none with _ | w
    · rw [hr, guarded_of_none (Or.inl rfl)] at h
      cases h
      rw [foldl_guarded_eq_none.mp hr]
      exact ⟨[], [], [], rfl, by simp, by simp, by simp⟩
    have hstands := ih hr
    rcases hw : m w with _ | h₀
    · rw [hr, guarded_of_none (r := some w) (Or.inl hw)] at h
      cases h
      refine ⟨vs, [], [], by simp, fun _ u hu => ?_, by simp, by simp⟩
      rw [hstands.last hw, Option.mem_some_iff] at hu
      rw [← hu, hw]
    · rw [hr, guarded_of_some (r := some w) hw ha] at h
      obtain ⟨before, smaller, later, rfl, hbefore, hsmaller, hlater⟩ := hstands
      split_ifs at h with hlt
      · cases h
        refine ⟨before, smaller ++ w :: later, [], by simp, fun _ => hbefore (by simp [hw]), ?_,
          by simp⟩
        intro u hu
        rcases List.mem_append.mp hu with hu | hu
        · obtain ⟨h₁, h₂, hm, hm', hlt'⟩ := hsmaller u hu
          rw [hw, Option.some.injEq] at hm'
          exact ⟨h₁, h', hm, ha, hlt'.trans (hm' ▸ hlt)⟩
        · rcases List.mem_cons.mp hu with rfl | hu
          · exact ⟨h₀, h', hw, ha, hlt⟩
          · obtain ⟨h₁, h₂, hm, hm', hle⟩ := hlater u hu
            rw [hw, Option.some.injEq] at hm'
            exact ⟨h₁, h', hm, ha, hle.trans_lt (hm' ▸ hlt)⟩
      · cases h
        refine ⟨before, smaller, later ++ [a], by simp, hbefore, hsmaller, fun u hu => ?_⟩
        rcases List.mem_append.mp hu with hu | hu
        · exact hlater u hu
        · rw [List.mem_singleton.mp hu]
          exact ⟨h', h₀, ha, hw, not_lt.mp hlt⟩

/-- Measured values never make the measure less. -/
theorem foldl_guarded_le {r : Option V} {h : H} (hr : r.bind m = some h)
    (hvs : ∀ w ∈ vs, m w ≠ none) : ∃ h', (vs.foldl (guarded m) r).bind m = some h' ∧ h ≤ h' := by
  induction vs generalizing r h with
  | nil => exact ⟨h, hr, le_rfl⟩
  | cons w vs ih =>
    obtain ⟨h', hw⟩ := Option.ne_none_iff_exists'.mp (hvs w List.mem_cons_self)
    have hrest : ∀ w ∈ vs, m w ≠ none := fun w hw => hvs w (List.mem_cons_of_mem _ hw)
    rw [List.foldl_cons, guarded_of_some hr hw]
    split_ifs with hlt
    · obtain ⟨h'', hf, hle⟩ := ih (r := some w) hw hrest
      exact ⟨h'', hf, hlt.le.trans hle⟩
    · exact ih hr hrest

end Guarded

/-! ### The invariant -/

structure Inv (apply : R → A → R) (empty : R) (s : Store T K R A) : Prop where
  committed : ∀ k, s.rows.committed k = fold apply empty k s.log
  held : ∀ t k r, s.rows.held k = some (t, r) → r = fold apply empty k (s.log ++ s.pending t)
  locked : ∀ t k, upsertsOf k (s.pending t) ≠ [] → ∃ r, s.rows.held k = some (t, r)

namespace Inv

variable {apply : R → A → R} {empty : R} {s s' : Store T K R A}

omit [DecidableEq T] in
theorem init : Inv apply empty (Store.init empty : Store T K R A) where
  committed _ := rfl
  held _ _ _ h := by cases h
  locked _ _ h := absurd rfl h

omit [DecidableEq T] in
/-- Only the holder of a row has upserts of it that are not committed. -/
theorem pending_nil (hs : Inv apply empty s) {t t' : T} {k : K} {r : R}
    (hh : s.rows.held k = some (t, r)) (hne : t' ≠ t) : upsertsOf k (s.pending t') = [] := by
  by_contra h
  obtain ⟨r', hr'⟩ := hs.locked t' k h
  rw [hh] at hr'
  cases hr'
  exact hne rfl

theorem pending_nil_of_free (hs : Inv apply empty s) {t t' : T} {k : K}
    (hf : s.rows.free t k = true) (hne : t' ≠ t) : upsertsOf k (s.pending t') = [] := by
  by_contra h
  obtain ⟨r, hr⟩ := hs.locked t' k h
  rcases Table.free_iff.mp hf with hn | ⟨r', hr'⟩
  · rw [hn] at hr
    cases hr
  · rw [hr'] at hr
    cases hr
    exact hne rfl

/-- **A transaction sees the committed upserts, and then its own.** -/
theorem view_eq (hs : Inv apply empty s) (t : T) (k : K) :
    s.rows.view t k = fold apply empty k (s.log ++ s.pending t) := by
  rcases s.rows.view_cases t k with hh | ⟨hn, hv⟩
  · exact hs.held t k _ hh
  · have hp : upsertsOf k (s.pending t) = [] := by
      by_contra h
      obtain ⟨r, hr⟩ := hs.locked t k h
      exact hn r hr
    rw [hv, hs.committed, fold_append_of_nil hp]

omit [DecidableEq K] in
theorem upsert_cases [DecidableEq K] {t : T} {k : K} {a : A} (h : s.upsert apply t k a = some s') :
    s.rows.free t k = true ∧ s' = { s with
      rows := s.rows.write t k (apply (s.rows.view t k) a)
      pending := Function.update s.pending t (s.pending t ++ [(k, a)]) } := by
  unfold Store.upsert at h
  split_ifs at h with hf
  cases h
  exact ⟨hf, rfl⟩

theorem upsert (hs : Inv apply empty s) {t : T} {k : K} {a : A}
    (h : s.upsert apply t k a = some s') : Inv apply empty s' := by
  obtain ⟨hf, rfl⟩ := upsert_cases h
  refine ⟨hs.committed, fun t' k' r hh => ?_, fun t' k' hp => ?_⟩
  · change (s.rows.write t k (apply (s.rows.view t k) a)).held k' = some (t', r) at hh
    show r = fold apply empty k' (s.log ++ Function.update s.pending t (s.pending t ++ [(k, a)]) t')
    by_cases hk : k' = k
    · subst hk
      rw [Table.write_held_self] at hh
      cases hh
      rw [Function.update_self, ← List.append_assoc, fold_concat_self, hs.view_eq]
    · rw [Table.write_held_ne _ _ _ hk] at hh
      by_cases ht : t' = t
      · subst ht
        rw [Function.update_self, ← List.append_assoc,
          fold_append_of_nil (upsertsOf_single_ne a (Ne.symm hk))]
        exact hs.held t' k' r hh
      · rw [Function.update_of_ne ht]
        exact hs.held t' k' r hh
  · show ∃ r, (s.rows.write t k (apply (s.rows.view t k) a)).held k' = some (t', r)
    change upsertsOf k' (Function.update s.pending t (s.pending t ++ [(k, a)]) t') ≠ [] at hp
    by_cases ht : t' = t
    · subst ht
      by_cases hk : k' = k
      · subst hk
        exact ⟨_, Table.write_held_self _ _ _ _⟩
      · rw [Function.update_self, upsertsOf_append, upsertsOf_single_ne a (Ne.symm hk),
          List.append_nil] at hp
        rw [Table.write_held_ne _ _ _ hk]
        exact hs.locked t' k' hp
    · rw [Function.update_of_ne ht] at hp
      have hk : k' ≠ k := by
        rintro rfl
        exact hp (hs.pending_nil_of_free hf ht)
      rw [Table.write_held_ne _ _ _ hk]
      exact hs.locked t' k' hp

theorem commit (hs : Inv apply empty s) (t : T) : Inv apply empty (s.commit t) where
  committed k := by
    show s.rows.view t k = fold apply empty k (s.log ++ s.pending t)
    exact hs.view_eq t k
  held t' k r h := by
    obtain ⟨hh, ht⟩ := Table.unlock_eq_some.mp h
    show r = fold apply empty k (s.log ++ s.pending t ++ Function.update s.pending t [] t')
    rw [Function.update_of_ne ht, fold_append_of_nil_left (hs.pending_nil hh ht.symm)]
    exact hs.held t' k r hh
  locked t' k h := by
    change upsertsOf k (Function.update s.pending t [] t') ≠ [] at h
    by_cases ht : t' = t
    · subst ht
      rw [Function.update_self] at h
      exact absurd rfl h
    · rw [Function.update_of_ne ht] at h
      obtain ⟨r, hr⟩ := hs.locked t' k h
      exact ⟨r, Table.unlock_eq_some.mpr ⟨hr, ht⟩⟩

theorem rollback (hs : Inv apply empty s) (t : T) : Inv apply empty (s.rollback t) where
  committed := hs.committed
  held t' k r h := by
    obtain ⟨hh, ht⟩ := Table.unlock_eq_some.mp h
    show r = fold apply empty k (s.log ++ Function.update s.pending t [] t')
    rw [Function.update_of_ne ht]
    exact hs.held t' k r hh
  locked t' k h := by
    change upsertsOf k (Function.update s.pending t [] t') ≠ [] at h
    by_cases ht : t' = t
    · subst ht
      rw [Function.update_self] at h
      exact absurd rfl h
    · rw [Function.update_of_ne ht] at h
      obtain ⟨r, hr⟩ := hs.locked t' k h
      exact ⟨r, Table.unlock_eq_some.mpr ⟨hr, ht⟩⟩

end Inv

end UmbraDB.Lib.Upserts
