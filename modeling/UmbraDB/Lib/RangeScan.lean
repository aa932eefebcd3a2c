import Mathlib.Data.List.Pairwise
import Mathlib.Data.List.Sort
import Mathlib.Data.Set.Finite.Basic

/-! # Ordered scans of a table with a unique key

`scan key p rows` is `SELECT … WHERE p ORDER BY key` of a table given as a list of its rows. Where no
two selected rows have the same key, the order of `rows` does not matter: a scan is the one strictly
ascending list of the rows that are selected. So a scan of a range of keys is cut anywhere, and it is
the list of the single rows found key by key.

`Lists table rows` : the list has each row of the table once, in any order. -/

namespace UmbraDB.Lib.RangeScan

variable {R K : Type} [LinearOrder K] (key : R → K)

def scan (p : R → Bool) (rows : List R) : List R :=
  (rows.filter p).insertionSort fun a b => key a ≤ key b

/-- The first row that is selected and has the key. -/
def point (p : R → Bool) (rows : List R) (k : K) : Option R :=
  rows.find? fun r => p r && decide (key r = k)

/-- Rows in strictly ascending order of their keys. -/
def Ascending (rows : List R) : Prop := rows.Pairwise fun a b => key a < key b

/-- No two selected rows have the same key. -/
def UniqueKey (p : R → Bool) (rows : List R) : Prop :=
  (rows.filter p).Pairwise fun a b => key a ≠ key b

variable {key} {p q : R → Bool} {rows rows' : List R}

theorem mem_scan {r : R} : r ∈ scan key p rows ↔ r ∈ rows ∧ p r = true := by
  rw [scan, List.mem_insertionSort, List.mem_filter]

/-- Two strictly ascending lists of the same rows are equal. -/
theorem Ascending.ext (h : Ascending key rows) (h' : Ascending key rows')
    (hmem : ∀ r, r ∈ rows ↔ r ∈ rows') : rows = rows' := by
  have hne : ∀ {l : List R}, Ascending key l → l.Nodup := fun hl =>
    hl.imp fun hab he => absurd hab (by rw [he]; exact lt_irrefl _)
  refine ((List.perm_ext_iff_of_nodup (hne h) (hne h')).mpr hmem).eq_of_pairwise
    (fun a b _ _ hab hba => ?_) h h'
  exact absurd hab (lt_asymm hba)

theorem scan_ascending (hu : UniqueKey key p rows) : Ascending key (scan key p rows) := by
  have hle : (scan key p rows).Pairwise fun a b => key a ≤ key b :=
    List.pairwise_insertionSort (fun a b => key a ≤ key b) _
  have hne : (scan key p rows).Pairwise fun a b => key a ≠ key b :=
    (List.perm_insertionSort _ _).symm.pairwise hu fun h => h.symm
  exact (hle.and hne).imp fun h => lt_of_le_of_ne h.1 h.2

omit [LinearOrder K] in
theorem UniqueKey.mono (hu : UniqueKey key p rows) (hpq : ∀ r, q r = true → p r = true) :
    UniqueKey key q rows :=
  hu.sublist (List.monotone_filter_right rows hpq)

omit [LinearOrder K] in
theorem UniqueKey.eq (hu : UniqueKey key p rows) {r r' : R} (hr : r ∈ rows) (hp : p r = true)
    (hr' : r' ∈ rows) (hp' : p r' = true) (hk : key r = key r') : r = r' := by
  by_contra hne
  have hsym : Std.Symm fun a b : R => key a ≠ key b := ⟨fun _ _ h => h.symm⟩
  exact List.Pairwise.forall hu (List.mem_filter.mpr ⟨hr, hp⟩) (List.mem_filter.mpr ⟨hr', hp'⟩)
    hne hk

theorem point_eq_some (hu : UniqueKey key p rows) {k : K} {r : R} :
    point key p rows k = some r ↔ r ∈ rows ∧ p r = true ∧ key r = k := by
  constructor
  · intro h
    have hpk := List.find?_some h
    rw [Bool.and_eq_true, decide_eq_true_eq] at hpk
    exact ⟨List.mem_of_find?_eq_some h, hpk⟩
  · rintro ⟨hr, hp, hk⟩
    rcases hf : point key p rows k with _ | r'
    · have hnone := List.find?_eq_none.mp hf r hr
      simp [hp, hk] at hnone
    · have hpk := List.find?_some hf
      rw [Bool.and_eq_true, decide_eq_true_eq] at hpk
      rw [hu.eq (List.mem_of_find?_eq_some hf) hpk.1 hr hp (hpk.2.trans hk.symm)]

/-- **A scan of a range is cut anywhere.** -/
theorem scan_append {c : K → Bool} (hu : UniqueKey key p rows) {q₁ q₂ : K → Bool}
    (hc : ∀ k, c k = (q₁ k || q₂ k)) (hlt : ∀ k k', q₁ k = true → q₂ k' = true → k < k') :
    scan key (fun r => p r && c (key r)) rows =
      scan key (fun r => p r && q₁ (key r)) rows ++ scan key (fun r => p r && q₂ (key r)) rows := by
  have hand : ∀ c : K → Bool, ∀ r, (p r && c (key r)) = true → p r = true := fun c r h =>
    (Bool.and_eq_true _ _ ▸ h).1
  have hmem : ∀ {c : K → Bool} {r : R}, r ∈ scan key (fun r => p r && c (key r)) rows ↔
      r ∈ rows ∧ p r = true ∧ c (key r) = true := by
    intro c r
    rw [mem_scan, Bool.and_eq_true]
  refine Ascending.ext (scan_ascending (hu.mono (hand c))) ?_ fun r => ?_
  · refine List.pairwise_append.mpr ⟨scan_ascending (hu.mono (hand q₁)),
      scan_ascending (hu.mono (hand q₂)), fun a ha b hb => ?_⟩
    exact hlt _ _ (hmem.mp ha).2.2 (hmem.mp hb).2.2
  · rw [List.mem_append, hmem, hmem, hmem, hc, Bool.or_eq_true]
    constructor
    · rintro ⟨hr, hp, h | h⟩
      · exact Or.inl ⟨hr, hp, h⟩
      · exact Or.inr ⟨hr, hp, h⟩
    · rintro (⟨hr, hp, h⟩ | ⟨hr, hp, h⟩)
      · exact ⟨hr, hp, Or.inl h⟩
      · exact ⟨hr, hp, Or.inr h⟩

/-- **A scan of a range is the list of the rows found key by key.** -/
theorem scan_points {c : K → Bool} (hu : UniqueKey key p rows) {ks : List K}
    (hks : ks.Pairwise (· < ·)) (hmem : ∀ r ∈ rows, p r = true → (c (key r) = true ↔ key r ∈ ks)) :
    scan key (fun r => p r && c (key r)) rows = ks.filterMap (point key p rows) := by
  refine Ascending.ext (scan_ascending (hu.mono fun r h => (Bool.and_eq_true _ _ ▸ h).1)) ?_
    fun r => ?_
  · refine List.pairwise_filterMap.mpr (hks.imp fun {k k'} hlt r hr r' hr' => ?_)
    rw [((point_eq_some hu).mp hr).2.2, ((point_eq_some hu).mp hr').2.2]
    exact hlt
  · rw [mem_scan, Bool.and_eq_true, List.mem_filterMap]
    constructor
    · rintro ⟨hr, hp, hc⟩
      exact ⟨key r, (hmem r hr hp).mp hc, (point_eq_some hu).mpr ⟨hr, hp, rfl⟩⟩
    · rintro ⟨k, hk, hpoint⟩
      obtain ⟨hr, hp, rfl⟩ := (point_eq_some hu).mp hpoint
      exact ⟨hr, hp, (hmem r hr hp).mpr hk⟩

/-- **A scan is the ascending list of the rows it selects.** -/
theorem scan_eq (hu : UniqueKey key p rows) (h : Ascending key rows')
    (hmem : ∀ r, r ∈ rows' ↔ r ∈ rows ∧ p r = true) : scan key p rows = rows' :=
  (scan_ascending hu).ext h fun r => by rw [mem_scan, hmem]

/-! ### The rows of a table -/

section Lists
variable {P V : Type} {table : P → Option V} {listed : List (P × V)}

structure Lists (table : P → Option V) (listed : List (P × V)) : Prop where
  nodup : listed.Nodup
  mem : ∀ k r, (k, r) ∈ listed ↔ table k = some r

theorem exists_lists (h : {k | (table k).isSome = true}.Finite) : ∃ listed, Lists table listed := by
  refine ⟨h.toFinset.toList.filterMap fun k => (table k).map fun r => (k, r), ?_, fun k r => ?_⟩
  · refine List.pairwise_filterMap.mpr ((Finset.nodup_toList _).imp fun {k k'} hne x hx y hy => ?_)
    obtain ⟨r, -, rfl⟩ := Option.map_eq_some_iff.mp hx
    obtain ⟨r', -, rfl⟩ := Option.map_eq_some_iff.mp hy
    exact fun he => hne (congrArg Prod.fst he)
  · rw [List.mem_filterMap]
    constructor
    · rintro ⟨k', -, hk⟩
      obtain ⟨r', hr, he⟩ := Option.map_eq_some_iff.mp hk
      cases he
      exact hr
    · intro hr
      refine ⟨k, ?_, by rw [hr]; rfl⟩
      rw [Finset.mem_toList, Set.Finite.mem_toFinset, Set.mem_ofPred_eq, hr]
      rfl

omit [LinearOrder K] in
/-- Selected rows with one key have one primary key. -/
theorem Lists.uniqueKey (h : Lists table listed) {key : P × V → K} {p : P × V → Bool}
    (hp : ∀ x y, table x.1 = some x.2 → table y.1 = some y.2 → p x = true → p y = true →
      key x = key y → x.1 = y.1) : UniqueKey key p listed := by
  refine (h.nodup.sublist List.filter_sublist).imp_of_mem fun {x y} hx hy hne he => hne ?_
  rw [List.mem_filter] at hx hy
  have hx' := (h.mem x.1 x.2).mp hx.1
  have hy' := (h.mem y.1 y.2).mp hy.1
  have hk : x.1 = y.1 := hp x y hx' hy' hx.2 hy.2 he
  rw [← hk, hx'] at hy'
  exact Prod.ext hk (Option.some.inj hy')

end Lists

end UmbraDB.Lib.RangeScan
