import Mathlib.Data.List.Pairwise
import Mathlib.Tactic.SplitIfs

/-! # Inserting unless there is a conflict

A table as a list of rows, under `INSERT … ON CONFLICT DO NOTHING`: a row is added unless one that
is there conflicts with it. What a conflict is, one key or several, is a parameter.

Which of the rows that were to be inserted are found in the table afterwards, up to a relation
`agree` that does not look at all of a row? All of them, exactly if every conflict, with a row that
was there before or among the new ones, is between rows that agree (`stored_iff`). -/

namespace UmbraDB.Lib.OnConflict

variable {R : Type} {conflict : R → R → Bool} {rows rs : List R} {r x : R}

/-- `INSERT … ON CONFLICT DO NOTHING` of one row. -/
def insert (conflict : R → R → Bool) (rows : List R) (r : R) : List R :=
  if rows.any fun x => conflict x r then rows else rows ++ [r]

/-- The same of one row after the other. -/
def insertAll (conflict : R → R → Bool) (rows rs : List R) : List R :=
  rs.foldl (insert conflict) rows

/-- A row that conflicts with `r` is there. -/
def Blocked (conflict : R → R → Bool) (rows : List R) (r : R) : Prop :=
  ∃ x ∈ rows, conflict x r = true

/-- No two rows conflict. -/
def Apart (conflict : R → R → Bool) (rows : List R) : Prop :=
  rows.Pairwise fun x y => conflict x y = false

theorem any_iff_blocked : (rows.any fun x => conflict x r) = true ↔ Blocked conflict rows r :=
  List.any_eq_true

theorem insert_of_blocked (h : Blocked conflict rows r) : insert conflict rows r = rows :=
  if_pos (any_iff_blocked.mpr h)

theorem insert_of_not_blocked (h : ¬ Blocked conflict rows r) :
    insert conflict rows r = rows ++ [r] :=
  if_neg fun h' => h (any_iff_blocked.mp h')

theorem insertAll_cons (rows : List R) (r : R) (rs : List R) :
    insertAll conflict rows (r :: rs) = insertAll conflict (insert conflict rows r) rs := rfl

theorem insertAll_append (rs rs' : List R) :
    insertAll conflict (insertAll conflict rows rs) rs' = insertAll conflict rows (rs ++ rs') :=
  (List.foldl_append).symm

/-- Nothing is lost. -/
theorem mem_insert_of_mem (h : x ∈ rows) : x ∈ insert conflict rows r := by
  unfold insert
  split_ifs
  · exact h
  · exact List.mem_append_left _ h

theorem mem_insertAll_of_mem (h : x ∈ rows) : x ∈ insertAll conflict rows rs := by
  induction rs generalizing rows with
  | nil => exact h
  | cons r rs ih => exact ih (mem_insert_of_mem h)

theorem mem_of_mem_insert (h : x ∈ insert conflict rows r) : x ∈ rows ∨ x = r := by
  unfold insert at h
  split_ifs at h
  · exact Or.inl h
  · simpa using h

/-- Only the new rows are added. -/
theorem mem_of_mem_insertAll (h : x ∈ insertAll conflict rows rs) : x ∈ rows ∨ x ∈ rs := by
  induction rs generalizing rows with
  | nil => exact Or.inl h
  | cons r rs ih =>
    rcases ih h with h' | h'
    · rcases mem_of_mem_insert h' with h'' | rfl
      · exact Or.inl h''
      · exact Or.inr List.mem_cons_self
    · exact Or.inr (List.mem_cons_of_mem _ h')

/-- After an insert, the row or one that conflicts with it is there. -/
theorem blocked_insert_self (hrefl : conflict r r = true) :
    Blocked conflict (insert conflict rows r) r := by
  by_cases h : Blocked conflict rows r
  · rw [insert_of_blocked h]
    exact h
  · rw [insert_of_not_blocked h]
    exact ⟨r, by simp, hrefl⟩

theorem Blocked.mono {rows' : List R} (h : Blocked conflict rows r)
    (hsub : ∀ x ∈ rows, x ∈ rows') : Blocked conflict rows' r := by
  obtain ⟨x, hx, hc⟩ := h
  exact ⟨x, hsub x hx, hc⟩

theorem blocked_insertAll (hrefl : ∀ r, conflict r r = true) (h : r ∈ rs) :
    Blocked conflict (insertAll conflict rows rs) r := by
  induction rs generalizing rows with
  | nil => cases h
  | cons r' rs ih =>
    rcases List.mem_cons.mp h with rfl | h
    · have hb : Blocked conflict (insert conflict rows r) r := blocked_insert_self (hrefl r)
      rw [insertAll_cons]
      exact hb.mono fun x hx => mem_insertAll_of_mem hx
    · exact ih h

theorem Apart.insert (h : Apart conflict rows) : Apart conflict (insert conflict rows r) := by
  by_cases hb : Blocked conflict rows r
  · rw [insert_of_blocked hb]
    exact h
  · rw [insert_of_not_blocked hb]
    refine List.pairwise_append.mpr ⟨h, List.pairwise_singleton _ _, fun x hx y hy => ?_⟩
    obtain rfl := List.mem_singleton.mp hy
    by_contra hc
    exact hb ⟨x, hx, by simpa using hc⟩

theorem Apart.insertAll (h : Apart conflict rows) : Apart conflict (insertAll conflict rows rs) := by
  induction rs generalizing rows with
  | nil => exact h
  | cons r rs ih => exact ih h.insert

/-- In a table without conflicts, a row conflicts with itself only. -/
theorem Apart.eq_of_conflict (hsymm : ∀ x y, conflict x y = conflict y x)
    (h : Apart conflict rows) {y : R} (hx : x ∈ rows) (hy : y ∈ rows)
    (hc : conflict x y = true) : x = y := by
  have hsym : Std.Symm fun x y => conflict x y = false :=
    ⟨fun a b hab => by rw [hsymm]; exact hab⟩
  by_contra hne
  have hfalse : conflict x y = false := List.Pairwise.forall h hx hy hne
  rw [hc] at hfalse
  cases hfalse

/-! ### What is stored -/

/-- Rows that agree are the same for the conflicts. -/
structure Agreement (conflict : R → R → Bool) (agree : R → R → Prop) : Prop where
  refl : ∀ x, agree x x
  symm : ∀ x y, agree x y → agree y x
  trans : ∀ x y z, agree x y → agree y z → agree x z
  conflictSymm : ∀ x y, conflict x y = conflict y x
  congr : ∀ x y z, agree y z → conflict x y = conflict x z

variable {agree : R → R → Prop}

/-- Conflicts between rows that agree lose nothing. -/
theorem stored_of_agree (ha : Agreement conflict agree)
    (h : ∀ r ∈ rs, ∀ x ∈ rows ++ rs, conflict x r = true → agree x r) :
    ∀ r ∈ rs, ∃ x ∈ insertAll conflict rows rs, agree x r := by
  induction rs generalizing rows with
  | nil => simp
  | cons r₀ rs ih =>
    intro r hr
    rcases List.mem_cons.mp hr with rfl | hr
    · -- the row itself is inserted, or one that agrees with it is there
      rw [insertAll_cons]
      by_cases hb : Blocked conflict rows r
      · obtain ⟨x, hx, hc⟩ := hb
        exact ⟨x, mem_insertAll_of_mem (mem_insert_of_mem hx),
          h r List.mem_cons_self x (List.mem_append_left _ hx) hc⟩
      · refine ⟨r, mem_insertAll_of_mem ?_, ha.refl r⟩
        rw [insert_of_not_blocked hb]
        simp
    · refine ih (fun r' hr' x hx hc => ?_) r hr
      have hx' : x ∈ rows ++ r₀ :: rs := by
        rcases List.mem_append.mp hx with hx | hx
        · rcases mem_of_mem_insert hx with hx | rfl
          · exact List.mem_append_left _ hx
          · simp
        · exact List.mem_append_right _ (List.mem_cons_of_mem _ hx)
      exact h r' (List.mem_cons_of_mem _ hr') x hx' hc

/-- **Every row is stored exactly if all conflicts are between rows that agree.** -/
theorem stored_iff (ha : Agreement conflict agree) (hrows : Apart conflict rows) :
    (∀ r ∈ rs, ∃ x ∈ insertAll conflict rows rs, agree x r) ↔
      ∀ r ∈ rs, ∀ x ∈ rows ++ rs, conflict x r = true → agree x r := by
  refine ⟨fun h r hr x hx hc => ?_, stored_of_agree ha⟩
  have hout : Apart conflict (insertAll conflict rows rs) := hrows.insertAll
  obtain ⟨y, hy, hyr⟩ := h r hr
  -- a row of the table that agrees with `x`
  obtain ⟨x', hx', hxx⟩ : ∃ x' ∈ insertAll conflict rows rs, agree x' x := by
    rcases List.mem_append.mp hx with hx | hx
    · exact ⟨x, mem_insertAll_of_mem hx, ha.refl x⟩
    · exact h x hx
  have hc' : conflict x' y = true := by
    rw [ha.congr x' y r hyr, ha.conflictSymm x' r, ha.congr r x' x hxx, ha.conflictSymm r x]
    exact hc
  obtain rfl := hout.eq_of_conflict ha.conflictSymm hx' hy hc'
  exact ha.trans x x' r (ha.symm x' x hxx) hyr

end UmbraDB.Lib.OnConflict
