import UmbraDB.Lib.RowStore
import Mathlib.Data.List.Basic

/-! # Rows that need other rows, at READ COMMITTED

Rows of one table (the children) need rows of another (the parents), and no foreign key sees to it.
Instead a transaction that writes a child takes a shared lock on each parent the child needs, and
one that removes a parent locks it exclusively and then looks for children. Both locks are kept to
the end of the transaction.

A transaction sees its own writes and what is committed, so neither of two transactions sees what
the other is about to commit; the locks make up for that. `Move` lists what a transaction may do,
`Inv` what holds between the locks and the two tables, and `Move.inv` shows that it is kept: the
committed children always have their parents (`Inv.complete`). -/

namespace UmbraDB.Lib.Referential

open UmbraDB.Lib.RowStore

variable {T P C R : Type}

/-- `parents` says which parents there are; it has the exclusive locks. `sharers p` are the
transactions with a shared lock on `p`. -/
structure Store (T P C R : Type) where
  parents : Table T P Bool
  sharers : P → List T
  children : Table T C (Option R)

variable {needs : R → P → Prop}

/-- The version, if there is one, needs the parent. -/
def Needs (needs : R → P → Prop) (r : Option R) (p : P) : Prop := ∃ x, r = some x ∧ needs x p

theorem not_needs_none (p : P) : ¬ Needs needs none p := by
  rintro ⟨x, hx, -⟩
  cases hx

variable [DecidableEq T]

namespace Store

/-- `t` ends: its shared locks are released. -/
def unshare (s : Store T P C R) (t : T) (p : P) : List T := (s.sharers p).filter (· ≠ t)

theorem mem_unshare {s : Store T P C R} {t t' : T} {p : P} :
    t' ∈ s.unshare t p ↔ t' ∈ s.sharers p ∧ t' ≠ t := by
  simp [unshare]

def commit (s : Store T P C R) (t : T) : Store T P C R :=
  ⟨s.parents.commit t, s.unshare t, s.children.commit t⟩

def rollback (s : Store T P C R) (t : T) : Store T P C R :=
  ⟨s.parents.rollback t, s.unshare t, s.children.rollback t⟩

/-- `t` has the exclusive lock of `p`, and no child that it sees needs `p`. -/
def Unneeded (needs : R → P → Prop) (s : Store T P C R) (t : T) (p : P) : Prop :=
  (∃ b, s.parents.held p = some (t, b)) ∧ ∀ c, ¬ Needs needs (s.children.view t c) p

variable [DecidableEq P] [DecidableEq C]

/-- `t` gets a shared lock. -/
def share (s : Store T P C R) (t : T) (p : P) : Store T P C R :=
  { s with sharers := Function.update s.sharers p (t :: s.sharers p) }

omit [DecidableEq T] [DecidableEq C] in
theorem mem_share {s : Store T P C R} {t t' : T} {p p' : P} :
    t' ∈ (s.share t p).sharers p' ↔ t' ∈ s.sharers p' ∨ (p' = p ∧ t' = t) := by
  by_cases hp : p' = p
  · subst hp
    simp [share, or_comm]
  · simp [share, hp]

end Store

/-- **What a transaction does**, under the conditions that it has waited for or checked. -/
inductive Move [DecidableEq P] [DecidableEq C] (needs : R → P → Prop) (t : T) (s : Store T P C R) :
    Store T P C R → Prop
  /-- A shared lock on a parent that it sees. -/
  | share {p : P} (hv : s.parents.view t p = true) (hf : s.parents.free t p = true) :
      Move needs t s (s.share t p)
  /-- An exclusive lock; the parent is left there, or it is removed. -/
  | hold {p : P} {b : Bool} (hf : s.parents.free t p = true) (hs : ∀ t' ∈ s.sharers p, t' = t)
      (hb : b = true ∨ ∀ c, ¬ Needs needs (s.children.view t c) p) :
      Move needs t s { s with parents := s.parents.write t p b }
  /-- A child, in a version that needs only parents with a shared lock, or those it did need. -/
  | write {c : C} {r : Option R} (hf : s.children.free t c = true)
      (hr : ∀ p, Needs needs r p →
        (t ∈ s.sharers p ∧ s.parents.view t p = true) ∨ Needs needs (s.children.view t c) p) :
      Move needs t s { s with children := s.children.write t c r }
  | commit : Move needs t s (s.commit t)
  | rollback : Move needs t s (s.rollback t)

/-- **The invariant.** -/
structure Inv (needs : R → P → Prop) (s : Store T P C R) : Prop where
  complete : ∀ c p, Needs needs (s.children.committed c) p → s.parents.committed p = true
  /-- A parent with a shared lock is there, and not locked by others. -/
  shared : ∀ t p, t ∈ s.sharers p →
    (∃ b, s.parents.held p = some (t, b)) ∨
      s.parents.held p = none ∧ s.parents.committed p = true
  /-- The parents of a written child are seen; each is locked, or needed by the committed child. -/
  written : ∀ t c r p, s.children.held c = some (t, r) → Needs needs r p →
    s.parents.view t p = true ∧ (t ∈ s.sharers p ∨ Needs needs (s.children.committed c) p)
  removed : ∀ t p, s.parents.held p = some (t, false) →
    ∀ c, ¬ Needs needs (s.children.view t c) p

variable {s s' : Store T P C R} {t t' : T}

namespace Inv

/-- The parents of what a transaction sees are seen by it. -/
theorem seen (h : Inv needs s) {c : C} {p : P} (hn : Needs needs (s.children.view t c) p) :
    s.parents.view t p = true := by
  rcases s.children.view_cases t c with hc | ⟨-, hc⟩
  · exact (h.written t c _ p hc hn).1
  · rcases s.parents.view_cases t p with hp | ⟨-, hp⟩
    · -- held by `t` itself: not removed, since a child that `t` sees needs it
      by_contra hv
      rw [Bool.not_eq_true] at hv
      rw [hv] at hp
      exact h.removed t p hp c hn
    · rw [hp]
      rw [hc] at hn
      exact h.complete c p hn

/-- Nobody else has a shared lock on a parent that is locked. -/
theorem sharers_of_held (h : Inv needs s) {p : P} {b : Bool}
    (hp : s.parents.held p = some (t, b)) : ∀ t' ∈ s.sharers p, t' = t := by
  intro t' ht'
  rcases h.shared t' p ht' with ⟨b', hb'⟩ | ⟨hn, -⟩
  · rw [hp] at hb'
    exact (Prod.mk.inj (Option.some.inj hb')).1.symm
  · rw [hp] at hn
    cases hn

/-- Nor on one that is not there. -/
theorem sharers_of_absent (h : Inv needs s) {p : P} (hf : s.parents.free t p = true)
    (hv : s.parents.view t p = false) : ∀ t' ∈ s.sharers p, t' = t := by
  rcases Table.free_iff.mp hf with hn | ⟨b, hb⟩
  · intro t' ht'
    rcases h.shared t' p ht' with ⟨b', hb'⟩ | ⟨-, hc⟩
    · rw [hn] at hb'
      cases hb'
    · rw [Table.view_of_none hn, hc] at hv
      cases hv
  · exact h.sharers_of_held hb

/-- What `t` has locked and does not need stays so when another transaction commits: the children
that it wrote do not need it either. -/
theorem unneeded_commit (h : Inv needs s) (hne : t' ≠ t) {p : P} (hu : s.Unneeded needs t' p) :
    (s.commit t).Unneeded needs t' p := by
  obtain ⟨⟨b, hb⟩, hu⟩ := hu
  refine ⟨⟨b, (Table.sameFor_commit hne p b).mpr hb⟩, fun c hn => ?_⟩
  have hn : Needs needs ((s.children.commit t).view t' c) p := hn
  have hsame : Table.SameFor t' s.children (s.children.commit t) := Table.sameFor_commit hne
  rcases s.children.view_cases t c with hc | ⟨-, hc⟩
  · -- `t` commits a version of `c`; `t'` has seen the one before
    have hother : s.children.view t' c = s.children.committed c := Table.view_of_other hc hne.symm
    have hnew : (s.children.commit t).view t' c = s.children.view t c := by
      rw [Table.view_eq_committed, Table.commit_committed]
      intro r hr
      have hr := (hsame c r).mp hr
      rw [hc] at hr
      exact hne (Prod.mk.inj (Option.some.inj hr)).1.symm
    rw [hnew] at hn
    rcases (h.written t c _ p hc hn).2 with hs | hcom
    · exact hne (h.sharers_of_held hb t hs).symm
    · rw [← hother] at hcom
      exact hu c hcom
  · rw [hsame.view (by rw [Table.commit_committed, hc])] at hn
    exact hu c hn

theorem commit (h : Inv needs s) : Inv needs (s.commit t) where
  complete c p hn := h.seen hn
  shared t' p ht' := by
    obtain ⟨ht', hne⟩ := Store.mem_unshare.mp ht'
    rcases h.shared t' p ht' with ⟨b, hb⟩ | ⟨hn, hc⟩
    · exact Or.inl ⟨b, (Table.sameFor_commit hne p b).mpr hb⟩
    · refine Or.inr ⟨?_, ?_⟩
      · show s.parents.unlock t p = none
        simp [Table.unlock, hn]
      · show s.parents.view t p = true
        rw [Table.view_of_none hn, hc]
  written t' c r p hc hn := by
    have hc : s.children.unlock t c = some (t', r) := hc
    obtain ⟨hc, hne⟩ := Table.unlock_eq_some.mp hc
    obtain ⟨hv, hs⟩ := h.written t' c r p hc hn
    have hview : s.children.view t c = s.children.committed c := Table.view_of_other hc hne
    refine ⟨?_, ?_⟩
    · -- another one has not removed `p`: it would be locked, or the committed child need it
      show (s.parents.commit t).view t' p = true
      rcases s.parents.view_cases t p with hp | ⟨-, hp⟩
      · cases hb : s.parents.view t p with
        | true =>
          rw [Table.SameFor.view (Table.sameFor_commit hne) ?_]
          · exact hv
          · rw [Table.commit_committed, hb]
            rw [Table.view_of_other hp hne.symm] at hv
            exact hv.symm
        | false =>
          rw [hb] at hp
          rcases hs with hs | hcom
          · exact absurd (h.sharers_of_held hp t' hs) hne
          · rw [← hview] at hcom
            exact absurd hcom (h.removed t p hp c)
      · rw [Table.SameFor.view (Table.sameFor_commit hne) (by rw [Table.commit_committed, hp])]
        exact hv
    · refine hs.imp (fun hs => Store.mem_unshare.mpr ⟨hs, hne⟩) fun hcom => ?_
      show Needs needs (s.children.view t c) p
      rw [hview]
      exact hcom
  removed t' p hp := by
    have hp : s.parents.unlock t p = some (t', false) := hp
    obtain ⟨hp, hne⟩ := Table.unlock_eq_some.mp hp
    exact (h.unneeded_commit hne ⟨⟨false, hp⟩, h.removed t' p hp⟩).2

theorem rollback (h : Inv needs s) : Inv needs (s.rollback t) where
  complete := h.complete
  shared t' p ht' := by
    obtain ⟨ht', hne⟩ := Store.mem_unshare.mp ht'
    rcases h.shared t' p ht' with ⟨b, hb⟩ | ⟨hn, hc⟩
    · exact Or.inl ⟨b, (Table.sameFor_rollback hne p b).mpr hb⟩
    · refine Or.inr ⟨?_, hc⟩
      show s.parents.unlock t p = none
      simp [Table.unlock, hn]
  written t' c r p hc hn := by
    have hc : s.children.unlock t c = some (t', r) := hc
    obtain ⟨hc, hne⟩ := Table.unlock_eq_some.mp hc
    obtain ⟨hv, hs⟩ := h.written t' c r p hc hn
    refine ⟨?_, hs.imp_left fun hs => Store.mem_unshare.mpr ⟨hs, hne⟩⟩
    show (s.parents.rollback t).view t' p = true
    rw [Table.SameFor.view (Table.sameFor_rollback hne) rfl]
    exact hv
  removed t' p hp c hn := by
    have hp : s.parents.unlock t p = some (t', false) := hp
    obtain ⟨hp, hne⟩ := Table.unlock_eq_some.mp hp
    have hn : Needs needs ((s.children.rollback t).view t' c) p := hn
    rw [Table.SameFor.view (Table.sameFor_rollback hne) rfl] at hn
    exact h.removed t' p hp c hn

variable [DecidableEq P] [DecidableEq C]

omit [DecidableEq C] in
theorem share (h : Inv needs s) {p : P} (hv : s.parents.view t p = true)
    (hf : s.parents.free t p = true) : Inv needs (s.share t p) where
  complete := h.complete
  shared t' p' ht' := by
    rcases Store.mem_share.mp ht' with ht' | ⟨rfl, rfl⟩
    · exact h.shared t' p' ht'
    · rcases Table.free_iff.mp hf with hn | hb
      · rw [Table.view_of_none hn] at hv
        exact Or.inr ⟨hn, hv⟩
      · exact Or.inl hb
  written t' c r p' hc hn := by
    obtain ⟨hv', hs'⟩ := h.written t' c r p' hc hn
    exact ⟨hv', hs'.imp_left fun hs' => Store.mem_share.mpr (Or.inl hs')⟩
  removed := h.removed

omit [DecidableEq C] in
theorem hold (h : Inv needs s) {p : P} {b : Bool} (hf : s.parents.free t p = true)
    (hs : ∀ t' ∈ s.sharers p, t' = t)
    (hb : b = true ∨ ∀ c, ¬ Needs needs (s.children.view t c) p) :
    Inv needs { s with parents := s.parents.write t p b } where
  complete := h.complete
  shared t' p' ht' := by
    by_cases hp : p' = p
    · subst hp
      obtain rfl := hs t' ht'
      exact Or.inl ⟨b, Table.write_held_self ..⟩
    · show (∃ b', (s.parents.write t p b).held p' = some (t', b')) ∨
        (s.parents.write t p b).held p' = none ∧ s.parents.committed p' = true
      rw [Table.write_held_ne _ _ _ hp]
      exact h.shared t' p' ht'
  written t' c r p' hc hn := by
    obtain ⟨hv, hs'⟩ := h.written t' c r p' hc hn
    refine ⟨?_, hs'⟩
    show (s.parents.write t p b).view t' p' = true
    by_cases ht : t = t'
    · subst ht
      by_cases hp : p' = p
      · subst hp
        rw [Table.view_write_self]
        rcases hb with hb | hb
        · exact hb
        · exact absurd (by rw [Table.view_of_held hc]; exact hn) (hb c)
      · rw [Table.view_write_ne _ _ _ _ hp]
        exact hv
    · rw [Table.view_write_other b hf ht]
      exact hv
  removed t' p' hp' := by
    have hp' : (s.parents.write t p b).held p' = some (t', false) := hp'
    by_cases hp : p' = p
    · subst hp
      rw [Table.write_held_self] at hp'
      obtain ⟨rfl, rfl⟩ := Prod.mk.inj (Option.some.inj hp')
      exact hb.resolve_left Bool.false_ne_true
    · rw [Table.write_held_ne _ _ _ hp] at hp'
      exact h.removed t' p' hp'

omit [DecidableEq P] in
theorem write (h : Inv needs s) {c : C} {r : Option R} (hf : s.children.free t c = true)
    (hr : ∀ p, Needs needs r p →
      (t ∈ s.sharers p ∧ s.parents.view t p = true) ∨ Needs needs (s.children.view t c) p) :
    Inv needs { s with children := s.children.write t c r } where
  complete := h.complete
  shared := h.shared
  written t' c' r' p hc hn := by
    have hc : (s.children.write t c r).held c' = some (t', r') := hc
    by_cases hcc : c' = c
    · subst hcc
      rw [Table.write_held_self] at hc
      obtain ⟨rfl, rfl⟩ := Prod.mk.inj (Option.some.inj hc)
      rcases hr p hn with ⟨hs, hv⟩ | hold
      · exact ⟨hv, Or.inl hs⟩
      · -- the version before needed it, and that one was held or committed
        refine ⟨h.seen hold, ?_⟩
        rcases s.children.view_cases t c' with hheld | ⟨-, hcom⟩
        · exact (h.written t c' _ p hheld hold).2
        · rw [hcom] at hold
          exact Or.inr hold
    · rw [Table.write_held_ne _ _ _ hcc] at hc
      exact h.written t' c' r' p hc hn
  removed t' p hp c' hn := by
    have hn : Needs needs ((s.children.write t c r).view t' c') p := hn
    by_cases ht : t = t'
    · subst ht
      by_cases hcc : c' = c
      · subst hcc
        rw [Table.view_write_self] at hn
        rcases hr p hn with ⟨-, hv⟩ | hold
        · rw [Table.view_of_held hp] at hv
          cases hv
        · exact h.removed t p hp c' hold
      · rw [Table.view_write_ne _ _ _ _ hcc] at hn
        exact h.removed t p hp c' hn
    · rw [Table.view_write_other r hf ht] at hn
      exact h.removed t' p hp c' hn

end Inv

namespace Move

variable [DecidableEq P] [DecidableEq C]

/-- **Every move keeps the invariant.** -/
theorem inv (h : Inv needs s) (hm : Move needs t s s') : Inv needs s' := by
  rcases hm with ⟨hv, hf⟩ | ⟨hf, hs, hb⟩ | ⟨hf, hr⟩
  · exact h.share hv hf
  · exact h.hold hf hs hb
  · exact h.write hf hr
  · exact h.commit
  · exact h.rollback

/-- The others do not change what a transaction has written. -/
theorem children_sameFor (hm : Move needs t s s') (hne : t' ≠ t) :
    Table.SameFor t' s.children s'.children := by
  rcases hm with _ | _ | ⟨hf, -⟩
  · exact Table.SameFor.refl _ _
  · exact Table.SameFor.refl _ _
  · exact Table.sameFor_write hf hne _
  · exact Table.sameFor_commit hne
  · exact Table.sameFor_rollback hne

theorem parents_sameFor (hm : Move needs t s s') (hne : t' ≠ t) :
    Table.SameFor t' s.parents s'.parents := by
  rcases hm with _ | ⟨hf, -, -⟩ | _
  · exact Table.SameFor.refl _ _
  · exact Table.sameFor_write hf hne _
  · exact Table.SameFor.refl _ _
  · exact Table.sameFor_commit hne
  · exact Table.sameFor_rollback hne

theorem mem_sharers (hm : Move needs t s s') (hne : t' ≠ t) {p : P} (ht : t' ∈ s.sharers p) :
    t' ∈ s'.sharers p := by
  rcases hm with _ | _ | _
  · exact Store.mem_share.mpr (Or.inl ht)
  · exact ht
  · exact ht
  · exact Store.mem_unshare.mpr ⟨ht, hne⟩
  · exact Store.mem_unshare.mpr ⟨ht, hne⟩

/-- A parent with a shared lock that is seen stays so. -/
theorem seen (h : Inv needs s) (hm : Move needs t s s') (hne : t' ≠ t) {p : P}
    (ht : t' ∈ s.sharers p) (hv : s.parents.view t' p = true) : s'.parents.view t' p = true := by
  have h' : Inv needs s' := hm.inv h
  rcases h.shared t' p ht with ⟨b, hb⟩ | ⟨hn, -⟩
  · rw [Table.view_of_held hb] at hv
    subst hv
    exact Table.view_of_held ((hm.parents_sameFor hne p true).mpr hb)
  · -- nobody holds it, and afterwards nobody else does
    rcases h'.shared t' p (hm.mem_sharers hne ht) with ⟨b, hb⟩ | ⟨hn', hc⟩
    · have hback : s.parents.held p = some (t', b) := (hm.parents_sameFor hne p b).mp hb
      rw [hn] at hback
      cases hback
    · rw [Table.view_of_none hn', hc]

theorem unneeded (h : Inv needs s) (hm : Move needs t s s') (hne : t' ≠ t) {p : P}
    (hu : s.Unneeded needs t' p) : s'.Unneeded needs t' p := by
  obtain ⟨⟨b, hb⟩, hu'⟩ := hu
  refine ⟨⟨b, (hm.parents_sameFor hne p b).mpr hb⟩, ?_⟩
  rcases hm with _ | _ | ⟨hf, -⟩
  · exact hu'
  · exact hu'
  · intro c
    show ¬ Needs needs ((s.children.write t _ _).view t' c) p
    rw [Table.view_write_other _ hf hne.symm]
    exact hu' c
  · exact (h.unneeded_commit hne ⟨⟨b, hb⟩, hu'⟩).2
  · intro c
    show ¬ Needs needs ((s.children.rollback t).view t' c) p
    rw [Table.SameFor.view (Table.sameFor_rollback hne) rfl]
    exact hu' c

end Move

end UmbraDB.Lib.Referential
