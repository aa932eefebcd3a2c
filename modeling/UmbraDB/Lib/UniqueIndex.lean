import UmbraDB.Lib.RowStore

/-! # A partial unique index on a table at READ COMMITTED

A partial unique index allows one row in each group (the columns of the index) among the rows its
predicate marks. The server checks it when a statement writes a marked row: the statement waits as
long as another transaction holds a row of the group that is marked, or was before that transaction
changed it, and it fails when a row of the group that it sees is marked.

The index also has entries of transactions that have not ended. `Unique` is what holds of all of
them at any moment; in particular every transaction sees at most one marked row in each group
(`Unique.view`), also the one that commits next. -/

namespace UmbraDB.Lib.UniqueIndex

open UmbraDB.Lib.RowStore

variable {T K R G : Type} [DecidableEq T] (group : K → G) (marked : R → Bool)

/-- A statement of `t` that writes a marked row `k` has to wait. -/
def Waits (s : Table T K R) (t : T) (k : K) : Prop :=
  ∃ k', k' ≠ k ∧ group k' = group k ∧ s.free t k' = false ∧
    (marked (s.committed k') = true ∨ ∃ t' r, s.held k' = some (t', r) ∧ marked r = true)

/-- A statement of `t` that writes a marked row `k` fails. -/
def Taken (s : Table T K R) (t : T) (k : K) : Prop :=
  ∃ k', k' ≠ k ∧ group k' = group k ∧ marked (s.view t k') = true

/-- Marked rows of one group: two are not committed; a transaction that would commit one holds every
other committed one, no longer marked; and two are not about to be committed. -/
structure Unique (s : Table T K R) : Prop where
  committed : ∀ {k k'}, group k = group k' → marked (s.committed k) = true →
    marked (s.committed k') = true → k = k'
  pending : ∀ {k k' t r}, s.held k = some (t, r) → marked r = true → group k = group k' → k ≠ k' →
    marked (s.committed k') = true → ∃ r', s.held k' = some (t, r') ∧ marked r' = false
  rivals : ∀ {k k' t t' r r'}, s.held k = some (t, r) → s.held k' = some (t', r') →
    marked r = true → marked r' = true → group k = group k' → k = k'

namespace Unique

variable {group : K → G} {marked : R → Bool} {s : Table T K R}

omit [DecidableEq T] in
theorem fresh {rows : K → R} (h : ∀ k, marked (rows k) = false) :
    Unique (T := T) group marked (Table.fresh rows) where
  committed {k k'} _ hk _ := by
    rw [show (Table.fresh rows : Table T K R).committed k = rows k from rfl, h k] at hk
    cases hk
  pending h := by cases h
  rivals h := by cases h

/-- **A transaction sees at most one marked row in a group.** -/
theorem view (hs : Unique group marked s) {t : T} {k k' : K} (hg : group k = group k')
    (hk : marked (s.view t k) = true) (hk' : marked (s.view t k') = true) : k = k' := by
  by_contra hne
  rcases s.view_cases t k with hh | ⟨-, hv⟩
  · rcases s.view_cases t k' with hh' | ⟨hn', hv'⟩
    · exact hne (hs.rivals hh hh' hk hk' hg)
    · rw [hv'] at hk'
      obtain ⟨r', hr', -⟩ := hs.pending hh hk hg hne hk'
      exact hn' r' hr'
  · rcases s.view_cases t k' with hh' | ⟨-, hv'⟩
    · rw [hv] at hk
      obtain ⟨r', hr', hm⟩ := hs.pending hh' hk' hg.symm (Ne.symm hne) hk
      rw [Table.view_of_held hr'] at hv
      rw [← hv, hm] at hk
      cases hk
    · rw [hv] at hk
      rw [hv'] at hk'
      exact hne (hs.committed hg hk hk')

theorem commit (hs : Unique group marked s) (t : T) : Unique group marked (s.commit t) where
  committed hg hk hk' := hs.view hg hk hk'
  pending {k k' t' r} hh hm hg hne hc := by
    obtain ⟨hh, ht⟩ := Table.unlock_eq_some.mp hh
    have hc' : marked (s.view t k') = true := hc
    -- `t` cannot have a marked row in the group of a pending one of `t'`
    rcases s.view_cases t k' with hv | ⟨-, hv⟩
    · exact absurd (hs.rivals hh hv hm hc' hg) hne
    · rw [hv] at hc'
      obtain ⟨r', hr', hm'⟩ := hs.pending hh hm hg hne hc'
      exact ⟨r', Table.unlock_eq_some.mpr ⟨hr', ht⟩, hm'⟩
  rivals hh hh' hm hm' hg :=
    hs.rivals (Table.unlock_eq_some.mp hh).1 (Table.unlock_eq_some.mp hh').1 hm hm' hg

theorem rollback (hs : Unique group marked s) (t : T) : Unique group marked (s.rollback t) where
  committed hg hk hk' := hs.committed hg hk hk'
  pending hh hm hg hne hc := by
    obtain ⟨hh, ht⟩ := Table.unlock_eq_some.mp hh
    obtain ⟨r', hr', hm'⟩ := hs.pending hh hm hg hne hc
    exact ⟨r', Table.unlock_eq_some.mpr ⟨hr', ht⟩, hm'⟩
  rivals hh hh' hm hm' hg :=
    hs.rivals (Table.unlock_eq_some.mp hh).1 (Table.unlock_eq_some.mp hh').1 hm hm' hg

variable [DecidableEq K]

/-- A row that is not marked can always be written. -/
theorem write_unmarked (hs : Unique group marked s) {t : T} {k : K} {r : R}
    (hf : s.free t k = true) (hr : marked r = false) : Unique group marked (s.write t k r) where
  committed hg hk hk' := hs.committed hg hk hk'
  pending {k₁ k₂ t' r'} hh hm hg hne hc := by
    have hk₁ : k₁ ≠ k := by
      rintro rfl
      cases (Table.write_held_self s t k₁ r).symm.trans hh
      rw [hr] at hm
      cases hm
    rw [Table.write_held_ne s t r hk₁] at hh
    obtain ⟨r₂, hr₂, hm₂⟩ := hs.pending hh hm hg hne hc
    by_cases hk₂ : k₂ = k
    · subst hk₂
      rcases Table.free_iff.mp hf with hn | ⟨x, hx⟩
      · rw [hn] at hr₂
        cases hr₂
      · rw [hx] at hr₂
        cases hr₂
        exact ⟨r, Table.write_held_self _ _ _ _, hr⟩
    · exact ⟨r₂, by rw [Table.write_held_ne s t r hk₂, hr₂], hm₂⟩
  rivals {k₁ k₂ t₁ t₂ r₁ r₂} hh hh' hm hm' hg := by
    have hk₁ : k₁ ≠ k := by
      rintro rfl
      cases (Table.write_held_self s t k₁ r).symm.trans hh
      rw [hr] at hm
      cases hm
    have hk₂ : k₂ ≠ k := by
      rintro rfl
      cases (Table.write_held_self s t k₂ r).symm.trans hh'
      rw [hr] at hm'
      cases hm'
    rw [Table.write_held_ne s t r hk₁] at hh
    rw [Table.write_held_ne s t r hk₂] at hh'
    exact hs.rivals hh hh' hm hm' hg

omit [DecidableEq K] in
/-- When the index lets a marked row in, no other row of the group is about to be committed as a
marked one. -/
theorem unmarked_of_free {t : T} {k k' : K} (hw : ¬ Waits group marked s t k)
    (ht : ¬ Taken group marked s t k) (hne : k' ≠ k) (hg : group k' = group k) {t' : T} {r' : R}
    (hh : s.held k' = some (t', r')) : marked r' = false := by
  rw [← Bool.not_eq_true]
  intro hm
  by_cases he : t' = t
  · subst he
    exact ht ⟨k', hne, hg, by rw [Table.view_of_held hh]; exact hm⟩
  · have hf : s.free t k' = false := by
      rw [← Bool.not_eq_true]
      intro hf
      rcases Table.free_iff.mp hf with hn | ⟨x, hx⟩
      · rw [hn] at hh; cases hh
      · rw [hx] at hh
        cases hh
        exact he rfl
    exact hw ⟨k', hne, hg, hf, Or.inr ⟨t', r', hh, hm⟩⟩

/-- A marked row can be written when the index lets it in. -/
theorem write_marked (hs : Unique group marked s) {t : T} {k : K} {r : R}
    (hw : ¬ Waits group marked s t k) (ht : ¬ Taken group marked s t k) :
    Unique group marked (s.write t k r) where
  committed hg hk hk' := hs.committed hg hk hk'
  pending {k₁ k₂ t' r'} hh hm hg hne hc := by
    have hc : marked (s.committed k₂) = true := hc
    by_cases hk₁ : k₁ = k
    · subst hk₁
      cases (Table.write_held_self s t k₁ r).symm.trans hh
      -- a committed marked row that `t` need not wait for is one that `t` has unmarked
      have hf : s.free t k₂ = true := by
        by_contra hf
        exact hw ⟨k₂, Ne.symm hne, hg.symm, by simpa using hf, Or.inl hc⟩
      rw [Table.write_held_ne s t r (Ne.symm hne)]
      rcases Table.free_iff.mp hf with hn | ⟨x, hx⟩
      · exact absurd ⟨k₂, Ne.symm hne, hg.symm, by rw [Table.view_of_none hn]; exact hc⟩ ht
      · exact ⟨x, hx, unmarked_of_free hw ht (Ne.symm hne) hg.symm hx⟩
    · rw [Table.write_held_ne s t r hk₁] at hh
      obtain ⟨r₂, hr₂, hm₂⟩ := hs.pending hh hm hg hne hc
      by_cases hk₂ : k₂ = k
      · subst hk₂
        rw [unmarked_of_free hw ht hk₁ hg hh] at hm
        cases hm
      · exact ⟨r₂, by rw [Table.write_held_ne s t r hk₂, hr₂], hm₂⟩
  rivals {k₁ k₂ t₁ t₂ r₁ r₂} hh hh' hm hm' hg := by
    by_cases hk₁ : k₁ = k
    · subst hk₁
      by_contra hne
      rw [Table.write_held_ne s t r (Ne.symm hne)] at hh'
      rw [unmarked_of_free hw ht (Ne.symm hne) hg.symm hh'] at hm'
      cases hm'
    · rw [Table.write_held_ne s t r hk₁] at hh
      by_cases hk₂ : k₂ = k
      · subst hk₂
        rw [unmarked_of_free hw ht hk₁ hg hh] at hm
        cases hm
      · rw [Table.write_held_ne s t r hk₂] at hh'
        exact hs.rivals hh hh' hm hm' hg

end Unique

end UmbraDB.Lib.UniqueIndex
