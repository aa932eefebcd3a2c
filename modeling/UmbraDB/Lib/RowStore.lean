import Mathlib.Logic.Function.Basic
import Mathlib.Tactic.Basic

/-! # A table at READ COMMITTED: committed rows and row locks

`Table T K R` is a table with keys `K`, whose rows (or their absence) are values of `R`, used by
transactions `T`. Only the newest version of a row can be locked, and a transaction that writes a
row keeps its lock to its end, so next to the committed version of a row there is at most one more:
`held k = some (t, r)` says that `t` holds the lock of `k` and would commit the version `r`.

`view t` is what a statement of `t` sees: the rows `t` holds as it left them, all others as
committed. `free t k` is the condition under which a statement of `t` need not wait for `k`.
`write`, `commit` and `rollback` are the only changes. A row that is only locked (by a
`SELECT … FOR UPDATE`, or by a statement whose predicate failed when it was evaluated again after a
wait) is held with the version it had. -/

namespace UmbraDB.Lib.RowStore

/-- Committed versions, and the locked rows with the version their holder would commit. -/
structure Table (T K R : Type) where
  committed : K → R
  held : K → Option (T × R)

namespace Table

variable {T K R : Type}

/-- The table before any transaction: nothing is locked. -/
def fresh (rows : K → R) : Table T K R := ⟨rows, fun _ => none⟩

variable [DecidableEq T]

/-- What a statement of `t` sees of the row `k`. -/
def view (s : Table T K R) (t : T) (k : K) : R :=
  match s.held k with
  | some (t', r) => if t' = t then r else s.committed k
  | none => s.committed k

/-- The lock of `k` is not held by a transaction other than `t`. -/
def free (s : Table T K R) (t : T) (k : K) : Bool :=
  match s.held k with
  | some (t', _) => t' == t
  | none => true

/-- `t` locks `k` and leaves it in the version `r`. -/
def write [DecidableEq K] (s : Table T K R) (t : T) (k : K) (r : R) : Table T K R :=
  { s with held := Function.update s.held k (some (t, r)) }

/-- The locks of all transactions but `t`. -/
def unlock (s : Table T K R) (t : T) (k : K) : Option (T × R) :=
  match s.held k with
  | some (t', r) => if t' = t then none else some (t', r)
  | none => none

/-- The rows of `t` become the committed ones, and its locks are released. -/
def commit (s : Table T K R) (t : T) : Table T K R := ⟨s.view t, s.unlock t⟩

/-- The rows of `t` are forgotten, and its locks are released. -/
def rollback (s : Table T K R) (t : T) : Table T K R := { s with held := s.unlock t }

/-! ### What a transaction sees -/

theorem view_of_held {s : Table T K R} {t : T} {k : K} {r : R} (h : s.held k = some (t, r)) :
    s.view t k = r := by
  simp [view, h]

theorem view_of_other {s : Table T K R} {t t' : T} {k : K} {r : R} (h : s.held k = some (t', r))
    (hne : t' ≠ t) : s.view t k = s.committed k := by
  simp [view, h, hne]

theorem view_of_none {s : Table T K R} {t : T} {k : K} (h : s.held k = none) :
    s.view t k = s.committed k := by
  simp [view, h]

/-- A free row is either held by the transaction itself or by nobody. -/
theorem free_iff {s : Table T K R} {t : T} {k : K} :
    s.free t k = true ↔ s.held k = none ∨ ∃ r, s.held k = some (t, r) := by
  unfold free
  rcases h : s.held k with _ | ⟨t', r⟩
  · simp
  · constructor
    · intro ht
      exact Or.inr ⟨r, by rw [beq_iff_eq.mp ht]⟩
    · rintro (hn | ⟨r', hr⟩)
      · cases hn
      · cases hr; simp

/-- A transaction without the lock of `k` sees the committed version. -/
theorem view_eq_committed {s : Table T K R} {t : T} {k : K} (h : ∀ r, s.held k ≠ some (t, r)) :
    s.view t k = s.committed k := by
  rcases hk : s.held k with _ | ⟨t', r⟩
  · exact view_of_none hk
  · exact view_of_other hk fun he => h r (by rw [hk, he])

/-- A transaction sees its own version of the rows it holds, and the committed one of all others. -/
theorem view_cases (s : Table T K R) (t : T) (k : K) :
    s.held k = some (t, s.view t k) ∨
      (∀ r, s.held k ≠ some (t, r)) ∧ s.view t k = s.committed k := by
  by_cases h : ∃ r, s.held k = some (t, r)
  · obtain ⟨r, hr⟩ := h
    exact Or.inl (by rw [view_of_held hr, hr])
  · have hn : ∀ r, s.held k ≠ some (t, r) := fun r hr => h ⟨r, hr⟩
    exact Or.inr ⟨hn, view_eq_committed hn⟩

/-! ### Writing -/

section Write
variable [DecidableEq K]

omit [DecidableEq T] in
@[simp] theorem write_committed (s : Table T K R) (t : T) (k : K) (r : R) :
    (s.write t k r).committed = s.committed := rfl

omit [DecidableEq T] in
@[simp] theorem write_held_self (s : Table T K R) (t : T) (k : K) (r : R) :
    (s.write t k r).held k = some (t, r) := by
  simp [write]

omit [DecidableEq T] in
theorem write_held_ne (s : Table T K R) (t : T) {k k' : K} (r : R) (h : k' ≠ k) :
    (s.write t k r).held k' = s.held k' := by
  simp [write, h]

omit [DecidableEq T] in
/-- Which locks there are after a write. -/
theorem held_write {s : Table T K R} {t t' : T} {k k' : K} {r r' : R}
    (h : (s.write t k r).held k' = some (t', r')) :
    k' = k ∧ t' = t ∧ r' = r ∨ k' ≠ k ∧ s.held k' = some (t', r') := by
  by_cases hk : k' = k
  · subst hk
    rw [write_held_self] at h
    cases h
    exact Or.inl ⟨rfl, rfl, rfl⟩
  · rw [write_held_ne s t r hk] at h
    exact Or.inr ⟨hk, h⟩

@[simp] theorem view_write_self (s : Table T K R) (t : T) (k : K) (r : R) :
    (s.write t k r).view t k = r :=
  view_of_held (write_held_self s t k r)

theorem view_write_ne (s : Table T K R) (t t' : T) {k k' : K} (r : R) (h : k' ≠ k) :
    (s.write t k r).view t' k' = s.view t' k' := by
  unfold view
  rw [write_held_ne s t r h]
  rfl

/-- A write is not seen by the other transactions. -/
theorem view_write_other {s : Table T K R} {t t' : T} {k : K} (r : R) (hf : s.free t k = true)
    (hne : t ≠ t') (k' : K) : (s.write t k r).view t' k' = s.view t' k' := by
  by_cases hk : k' = k
  · subst hk
    rw [view_of_other (write_held_self s t k' r) hne]
    rcases free_iff.mp hf with h | ⟨r', h⟩
    · exact (view_of_none h).symm
    · exact (view_of_other h hne).symm
  · exact view_write_ne s t t' r hk

end Write

/-! ### The end of a transaction -/

@[simp] theorem commit_committed (s : Table T K R) (t : T) (k : K) :
    (s.commit t).committed k = s.view t k := rfl

@[simp] theorem commit_held (s : Table T K R) (t : T) : (s.commit t).held = s.unlock t := rfl

@[simp] theorem rollback_held (s : Table T K R) (t : T) : (s.rollback t).held = s.unlock t := rfl

/-- After the end of `t` exactly the locks of the others are left. -/
theorem unlock_eq_some {s : Table T K R} {t t' : T} {k : K} {r : R} :
    s.unlock t k = some (t', r) ↔ s.held k = some (t', r) ∧ t' ≠ t := by
  unfold unlock
  rcases h : s.held k with _ | ⟨t'', r''⟩
  · simp
  · by_cases he : t'' = t
    · subst he
      simp only [if_true, Option.some.injEq, Prod.mk.injEq]
      constructor
      · intro h; cases h
      · rintro ⟨⟨rfl, -⟩, hne⟩; exact absurd rfl hne
    · simp only [if_neg he, Option.some.injEq, Prod.mk.injEq]
      constructor
      · rintro ⟨rfl, rfl⟩; exact ⟨⟨rfl, rfl⟩, he⟩
      · rintro ⟨h, -⟩; exact h

/-! ### What the others do -/

omit [DecidableEq T] in
/-- The locks of `t`, and what it would commit, are the same in both tables. -/
def SameFor (t : T) (s s' : Table T K R) : Prop :=
  ∀ k r, s'.held k = some (t, r) ↔ s.held k = some (t, r)

omit [DecidableEq T] in
theorem SameFor.refl (t : T) (s : Table T K R) : SameFor t s s := fun _ _ => Iff.rfl

theorem SameFor.view {t : T} {s s' : Table T K R} (h : SameFor t s s') {k : K}
    (hc : s'.committed k = s.committed k) : s'.view t k = s.view t k := by
  rcases s.view_cases t k with hr | ⟨hn, hv⟩
  · rw [view_of_held ((h k _).mpr hr)]
  · rw [hv, view_eq_committed fun r h' => hn r ((h k r).mp h'), hc]

theorem sameFor_write [DecidableEq K] {s : Table T K R} {t t' : T} {k : K}
    (hf : s.free t' k = true) (hne : t ≠ t') (r : R) : SameFor t s (s.write t' k r) := by
  intro k' r'
  by_cases hk : k' = k
  · subst hk
    rw [write_held_self]
    constructor
    · intro h
      cases h
      exact absurd rfl hne
    · intro h
      rcases free_iff.mp hf with hn | ⟨x, hx⟩
      · rw [hn] at h; cases h
      · rw [hx] at h
        cases h
        exact absurd rfl hne
  · rw [write_held_ne s t' r hk]

theorem sameFor_commit {s : Table T K R} {t t' : T} (hne : t ≠ t') :
    SameFor t s (s.commit t') := by
  intro k r
  rw [commit_held, unlock_eq_some]
  exact ⟨fun h => h.1, fun h => ⟨h, hne⟩⟩

theorem sameFor_rollback {s : Table T K R} {t t' : T} (hne : t ≠ t') :
    SameFor t s (s.rollback t') := by
  intro k r
  rw [rollback_held, unlock_eq_some]
  exact ⟨fun h => h.1, fun h => ⟨h, hne⟩⟩

end Table

end UmbraDB.Lib.RowStore
