import UmbraDB.Lib.RowStore
import Mathlib.Data.Set.Finite.Basic

/-! # Tables whose rows are inserted and never changed

`Table T K (Option R)` under `INSERT … ON CONFLICT DO NOTHING` alone. If the row of a key is
determined by a relation `P` that every inserted row fulfils, then a committed row stays as it is,
and a transaction that has executed an insert sees the row until it ends, whoever inserted it.

* `RowsOf P` : every row, committed or not, is the one `P` allows for its key.
* `RowsOf.committed_commit` : a commit leaves the committed rows.
* `Seen` : what a transaction has inserted, or found, it keeps seeing.
* `Owned O` : a transaction only locks rows that `O` allows it; `FiniteRows` : there are finitely
  many rows. -/

namespace UmbraDB.Lib.InsertOnly

open UmbraDB.Lib.RowStore

variable {T K R : Type}

/-- Every version is a row that `P` allows for its key. -/
structure RowsOf (P : K → R → Prop) (tbl : Table T K (Option R)) : Prop where
  committed : ∀ k r, tbl.committed k = some r → P k r
  held : ∀ k t v, tbl.held k = some (t, v) → ∃ r, v = some r ∧ P k r

variable [DecidableEq T] [DecidableEq K]

/-- `INSERT … ON CONFLICT DO NOTHING` of one row; `none` while it has to wait for a transaction that
has inserted the key and has not ended. -/
def insertRow (tbl : Table T K (Option R)) (t : T) (k : K) (r : R) :
    Option (Table T K (Option R)) :=
  if (tbl.view t k).isSome then some tbl
  else if tbl.free t k then some (tbl.write t k (some r))
  else none

/-- The transaction sees a row with the key. -/
def Seen (tbl : Table T K (Option R)) (t : T) (k : K) : Prop := (tbl.view t k).isSome = true

theorem insertRow_of_seen {tbl : Table T K (Option R)} {t : T} {k : K} (h : Seen tbl t k) (r : R) :
    insertRow tbl t k r = some tbl :=
  if_pos h

/-- An insert does nothing, because it sees the row, or writes it. -/
theorem insertRow_cases {tbl tbl' : Table T K (Option R)} {t : T} {k : K} {r : R}
    (h : insertRow tbl t k r = some tbl') :
    tbl' = tbl ∧ Seen tbl t k ∨ tbl.free t k = true ∧ tbl' = tbl.write t k (some r) := by
  unfold insertRow at h
  split at h
  · rename_i hv
    cases h
    exact Or.inl ⟨rfl, hv⟩
  · split at h
    · rename_i hf
      cases h
      exact Or.inr ⟨hf, rfl⟩
    · cases h

theorem insertRow_committed {tbl tbl' : Table T K (Option R)} {t : T} {k : K} {r : R}
    (h : insertRow tbl t k r = some tbl') : tbl'.committed = tbl.committed := by
  rcases insertRow_cases h with ⟨rfl, -⟩ | ⟨-, rfl⟩
  · rfl
  · rfl

/-- The only row an insert can add is its own. -/
theorem insertRow_held {tbl tbl' : Table T K (Option R)} {t t' : T} {k k' : K} {r : R}
    {v : Option R} (h : insertRow tbl t k r = some tbl') (hv : tbl'.held k' = some (t', v)) :
    tbl.held k' = some (t', v) ∨ t' = t ∧ k' = k := by
  rcases insertRow_cases h with ⟨rfl, -⟩ | ⟨-, rfl⟩
  · exact Or.inl hv
  · by_cases hk : k' = k
    · subst hk
      rw [Table.write_held_self] at hv
      cases hv
      exact Or.inr ⟨rfl, rfl⟩
    · rw [Table.write_held_ne _ _ _ hk] at hv
      exact Or.inl hv

namespace RowsOf

variable {P : K → R → Prop} {tbl tbl' : Table T K (Option R)}

omit [DecidableEq T] [DecidableEq K] in
theorem fresh : RowsOf P (.fresh fun _ => none : Table T K (Option R)) :=
  ⟨fun _ _ h => (by cases h), fun _ _ _ h => (by cases h)⟩

omit [DecidableEq K] in
theorem view (h : RowsOf P tbl) {t : T} {k : K} {r : R} (hv : tbl.view t k = some r) : P k r := by
  rcases tbl.view_cases t k with hh | ⟨-, hc⟩
  · obtain ⟨r', hr', hP⟩ := h.held k t _ hh
    rw [hv] at hr'
    cases hr'
    exact hP
  · exact h.committed k r (by rw [← hc, hv])

omit [DecidableEq T] in
theorem write (h : RowsOf P tbl) {t : T} {k : K} {r : R} (hr : P k r) :
    RowsOf P (tbl.write t k (some r)) := by
  refine ⟨h.committed, fun k' t' v hv => ?_⟩
  by_cases hk : k' = k
  · subst hk
    rw [Table.write_held_self] at hv
    cases hv
    exact ⟨r, rfl, hr⟩
  · rw [Table.write_held_ne _ _ _ hk] at hv
    exact h.held k' t' v hv

theorem insertRow (h : RowsOf P tbl) {t : T} {k : K} {r : R} (hr : P k r)
    (hi : insertRow tbl t k r = some tbl') : RowsOf P tbl' := by
  rcases insertRow_cases hi with ⟨rfl, -⟩ | ⟨-, rfl⟩
  · exact h
  · exact h.write hr

omit [DecidableEq K] in
theorem commit (h : RowsOf P tbl) (t : T) : RowsOf P (tbl.commit t) :=
  ⟨fun _ _ hr => h.view hr, fun k t' v hv => h.held k t' v (Table.unlock_eq_some.mp hv).1⟩

omit [DecidableEq K] in
theorem rollback (h : RowsOf P tbl) (t : T) : RowsOf P (tbl.rollback t) :=
  ⟨h.committed, fun k t' v hv => h.held k t' v (Table.unlock_eq_some.mp hv).1⟩

omit [DecidableEq K] in
/-- A committed row is the row that every transaction sees. -/
theorem view_of_committed (h : RowsOf P tbl) (hP : ∀ k r r', P k r → P k r' → r = r') {t : T}
    {k : K} {r : R} (hr : tbl.committed k = some r) : tbl.view t k = some r := by
  rcases tbl.view_cases t k with hh | ⟨-, hc⟩
  · obtain ⟨r', hr', hPr'⟩ := h.held k t _ hh
    rw [hr', hP k r r' (h.committed k r hr) hPr']
  · rw [hc, hr]

omit [DecidableEq K] in
/-- **A commit leaves the committed rows.** -/
theorem committed_commit (h : RowsOf P tbl) (hP : ∀ k r r', P k r → P k r' → r = r') (t : T)
    {k : K} {r : R} (hr : tbl.committed k = some r) : (tbl.commit t).committed k = some r :=
  h.view_of_committed hP hr

end RowsOf

namespace RowsOf

variable {P : K → R → Prop} {tbl tbl' : Table T K (Option R)}

omit [DecidableEq K] in
/-- A row that a transaction can insert and does not see is in nobody's hands. -/
theorem absent (h : RowsOf P tbl) {t : T} {k : K} (hv : ¬ Seen tbl t k)
    (hf : tbl.free t k = true) : tbl.held k = none ∧ tbl.committed k = none := by
  rcases Table.free_iff.mp hf with hn | ⟨v, hh⟩
  · rw [Seen, Table.view_of_none hn, Bool.not_eq_true, Option.isSome_eq_false_iff,
      Option.isNone_iff_eq_none] at hv
    exact ⟨hn, hv⟩
  · obtain ⟨r, rfl, -⟩ := h.held k t v hh
    rw [Seen, Table.view_of_held hh] at hv
    exact absurd rfl hv

theorem insertRow_new (h : RowsOf P tbl) {t : T} {k : K} {r : R}
    (hi : InsertOnly.insertRow tbl t k r = some tbl') :
    tbl' = tbl ∨ tbl.held k = none ∧ tbl.committed k = none ∧ tbl' = tbl.write t k (some r) := by
  unfold InsertOnly.insertRow at hi
  split_ifs at hi with hv hf
  · cases hi
    exact Or.inl rfl
  · cases hi
    obtain ⟨hn, hc⟩ := h.absent hv hf
    exact Or.inr ⟨hn, hc, rfl⟩

end RowsOf

/-- What an insert waits for. -/
theorem exists_insertRow {tbl : Table T K (Option R)} {t : T} {k : K} (r : R)
    (h : Seen tbl t k ∨ tbl.free t k = true) : ∃ tbl', insertRow tbl t k r = some tbl' := by
  unfold insertRow
  split_ifs with hv hf
  · exact ⟨_, rfl⟩
  · exact ⟨_, rfl⟩
  · exact absurd h (not_or.mpr ⟨hv, hf⟩)

/-! ### What a transaction keeps seeing -/

omit [DecidableEq K] in
theorem seen_of_committed {P : K → R → Prop} {tbl : Table T K (Option R)} (h : RowsOf P tbl) {t : T}
    {k : K} (hk : (tbl.committed k).isSome = true) : Seen tbl t k := by
  unfold Seen
  rcases tbl.view_cases t k with hh | ⟨-, hc⟩
  · obtain ⟨r, hr, -⟩ := h.held k t _ hh
    rw [hr]
    rfl
  · rw [hc, hk]

theorem seen_write_self {tbl : Table T K (Option R)} (t : T) (k : K) (r : R) :
    Seen (tbl.write t k (some r)) t k := by
  unfold Seen
  rw [Table.view_write_self]
  rfl

/-- A write of another row, or by another transaction, hides nothing. -/
theorem seen_write {tbl : Table T K (Option R)} {t t' : T} {k k' : K} {r : R}
    (hf : tbl.free t k = true) (h : Seen tbl t' k') : Seen (tbl.write t k (some r)) t' k' := by
  by_cases ht : t = t'
  · subst ht
    by_cases hk : k' = k
    · subst hk
      exact seen_write_self t k' r
    · unfold Seen
      rw [Table.view_write_ne _ _ _ _ hk]
      exact h
  · unfold Seen
    rw [Table.view_write_other _ hf ht]
    exact h

theorem seen_insertRow_self {tbl tbl' : Table T K (Option R)} {t : T} {k : K} {r : R}
    (hi : insertRow tbl t k r = some tbl') : Seen tbl' t k := by
  rcases insertRow_cases hi with ⟨rfl, h⟩ | ⟨-, rfl⟩
  · exact h
  · exact seen_write_self t k r

theorem seen_insertRow {tbl tbl' : Table T K (Option R)} {t t' : T} {k k' : K} {r : R}
    (hi : insertRow tbl t k r = some tbl') (h : Seen tbl t' k') : Seen tbl' t' k' := by
  rcases insertRow_cases hi with ⟨rfl, -⟩ | ⟨hf, rfl⟩
  · exact h
  · exact seen_write hf h

omit [DecidableEq K] in
theorem seen_commit {P : K → R → Prop} {tbl : Table T K (Option R)} (hs : RowsOf P tbl) {t t' : T}
    (hne : t' ≠ t) {k : K} (h : Seen tbl t' k) : Seen (tbl.commit t) t' k := by
  rcases tbl.view_cases t' k with hh | ⟨-, hc⟩
  · unfold Seen
    rw [Table.view_of_held ((Table.sameFor_commit hne k _).mpr hh)]
    exact h
  · rw [Seen, hc] at h
    exact seen_of_committed (hs.commit t) (seen_of_committed hs h)

omit [DecidableEq K] in
theorem seen_rollback {tbl : Table T K (Option R)} {t t' : T} (hne : t' ≠ t) {k : K}
    (h : Seen tbl t' k) : Seen (tbl.rollback t) t' k := by
  have hv : (tbl.rollback t).view t' k = tbl.view t' k := (Table.sameFor_rollback hne).view rfl
  rw [Seen, hv]
  exact h

/-! ### Which rows there are -/

/-- Every lock is one that its transaction may hold. -/
def Owned (O : T → K → Prop) (tbl : Table T K (Option R)) : Prop :=
  ∀ k t v, tbl.held k = some (t, v) → O t k

namespace Owned

variable {O : T → K → Prop} {tbl tbl' : Table T K (Option R)}

omit [DecidableEq T] [DecidableEq K] in
theorem fresh : Owned O (.fresh fun _ => none : Table T K (Option R)) :=
  fun _ _ _ h => (by cases h)

omit [DecidableEq T] in
theorem write (h : Owned O tbl) {t : T} {k : K} (hO : O t k) (v : Option R) :
    Owned O (tbl.write t k v) := by
  intro k' t' v' hv
  by_cases hk : k' = k
  · subst hk
    rw [Table.write_held_self] at hv
    cases hv
    exact hO
  · rw [Table.write_held_ne _ _ _ hk] at hv
    exact h k' t' v' hv

theorem insertRow (h : Owned O tbl) {t : T} {k : K} {r : R} (hO : O t k)
    (hi : insertRow tbl t k r = some tbl') : Owned O tbl' := by
  rcases insertRow_cases hi with ⟨rfl, -⟩ | ⟨-, rfl⟩
  · exact h
  · exact h.write hO _

omit [DecidableEq K] in
theorem commit (h : Owned O tbl) (t : T) : Owned O (tbl.commit t) :=
  fun k t' v hv => h k t' v (Table.unlock_eq_some.mp hv).1

omit [DecidableEq K] in
theorem rollback (h : Owned O tbl) (t : T) : Owned O (tbl.rollback t) :=
  fun k t' v hv => h k t' v (Table.unlock_eq_some.mp hv).1

omit [DecidableEq K] in
/-- A row that a commit leaves is one of the transaction's own, or was there before. -/
theorem committed_commit (h : Owned O tbl) {t : T} {k : K} {r : R}
    (hr : (tbl.commit t).committed k = some r) : O t k ∨ tbl.committed k = some r := by
  rw [Table.commit_committed] at hr
  rcases tbl.view_cases t k with hh | ⟨-, hc⟩
  · exact Or.inl (h k t _ hh)
  · exact Or.inr (hc ▸ hr)

end Owned

/-- Finitely many keys have a row, committed or not. -/
def FiniteRows (tbl : Table T K (Option R)) : Prop :=
  {k | tbl.committed k ≠ none ∨ tbl.held k ≠ none}.Finite

namespace FiniteRows

variable {tbl tbl' : Table T K (Option R)}

omit [DecidableEq T] [DecidableEq K] in
theorem fresh : FiniteRows (.fresh fun _ => none : Table T K (Option R)) :=
  Set.finite_empty.subset fun _ h => h.elim (fun h => h rfl) fun h => h rfl

omit [DecidableEq T] in
theorem write (h : FiniteRows tbl) (t : T) (k : K) (v : Option R) :
    FiniteRows (tbl.write t k v) := by
  refine (h.insert k).subset fun k' hk' => ?_
  by_cases hk : k' = k
  · exact Or.inl hk
  · rw [Set.mem_ofPred_eq, Table.write_held_ne _ _ _ hk] at hk'
    exact Or.inr hk'

theorem insertRow (h : FiniteRows tbl) {t : T} {k : K} {r : R}
    (hi : insertRow tbl t k r = some tbl') : FiniteRows tbl' := by
  rcases insertRow_cases hi with ⟨rfl, -⟩ | ⟨-, rfl⟩
  · exact h
  · exact h.write t k _

omit [DecidableEq K] in
theorem held_of_unlock {t : T} {k : K} (h : tbl.unlock t k ≠ none) : tbl.held k ≠ none := by
  obtain ⟨⟨t', v⟩, hv⟩ := Option.ne_none_iff_exists'.mp h
  rw [(Table.unlock_eq_some.mp hv).1]
  simp

omit [DecidableEq K] in
theorem commit (h : FiniteRows tbl) (t : T) : FiniteRows (tbl.commit t) := by
  refine h.subset fun k hk => ?_
  rcases hk with hk | hk
  · rw [Table.commit_committed] at hk
    rcases tbl.view_cases t k with hh | ⟨-, hc⟩
    · exact Or.inr (by rw [hh]; simp)
    · exact Or.inl (hc ▸ hk)
  · exact Or.inr (held_of_unlock hk)

omit [DecidableEq K] in
theorem rollback (h : FiniteRows tbl) (t : T) : FiniteRows (tbl.rollback t) :=
  h.subset fun _ hk => hk.imp id held_of_unlock

end FiniteRows

end UmbraDB.Lib.InsertOnly
