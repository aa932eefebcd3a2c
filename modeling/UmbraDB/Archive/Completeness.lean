import UmbraDB.Archive.Roles

/-! # Chain archive: every referenced blob has its role

What a transaction does to the tables in one step is a `Move` of `Lib.Referential`, where the rows
with a blob hash are the children and those of `chain_blob_roles` the parents. The two triggers look
at the same five columns (`matches_iff`): a row needs the roles that its own trigger checks, and
those are the ones that `chain_archive_assert_role_removable` finds.

* `blobRoles_complete` : in every run, the committed rows have the roles of their blobs. -/

namespace UmbraDB.Archive.Roles

open UmbraDB.Ckpt.Rows UmbraDB.Lib.Runs UmbraDB.Lib.RowStore UmbraDB.Lib.Referential
open UmbraDB.Archive.Bundle (BlobRole RoleRow)

/-- The row has the blob in the column that implies the role. -/
def Uses (r : RefRow) (p : RoleRow) : Prop := r.matches p = true

/-- The trigger of the row and the trigger of the role look at the same columns. -/
theorem matches_iff (r : RefRow) (p : RoleRow) :
    Uses r p ↔ (some p.blobHash, p.role) ∈ r.checkBlobRoles := by
  obtain ⟨hash, role⟩ := p
  unfold Uses
  cases r <;> cases role <;> simp [RefRow.matches, RefRow.checkBlobRoles] <;> exact eq_comm

/-! ### The invariant -/

/-- What holds at a stage of the transaction `t`: the roles that its trigger has checked are seen
and locked, and a role that its trigger lets go is not used by what it sees. -/
def StageOk (s : State) (t : ℕ) : Stage → Prop
  | .checking id row todo =>
    (∀ p, Uses row p → (some p.blobHash, p.role) ∈ todo ∨
      (t ∈ s.store.sharers p ∧ s.store.parents.view t p = true)) ∧
    ∀ i, id = some i → i < s.next ∧ ∃ r, s.store.children.held i = some (t, r)
  | .locked old _ => s.store.parents.held old = some (t, true)
  | .guarded old _ => s.store.Unneeded Uses t old
  | _ => True

structure Inv (s : State) : Prop where
  store : Lib.Referential.Inv Uses s.store
  /-- Numbers that were not given out have no row. -/
  fresh : ∀ id, s.next ≤ id →
    s.store.children.committed id = none ∧ s.store.children.held id = none
  stage : ∀ t, StageOk s t (s.txs t)

theorem Inv.init : Inv .init where
  store := {
    complete := fun c p hn => absurd hn (not_needs_none p)
    shared := fun t p ht => absurd ht (by simp [State.init])
    written := fun t c r p hc => by cases hc
    removed := fun t p hp => by cases hp }
  fresh id _ := ⟨rfl, rfl⟩
  stage _ := trivial

theorem Inv.lt_next {s : State} (h : Inv s) {t id : ℕ} {r : RefRow}
    (hr : s.store.children.view t id = some r) : id < s.next := by
  by_contra hlt
  obtain ⟨hc, hn⟩ := h.fresh id (not_lt.mp hlt)
  rw [Table.view_of_none hn, hc] at hr
  cases hr

/-- What a step of `t` does. -/
structure Stepped (s : State) (t : ℕ) (s' : State) : Prop where
  move : s'.store = s.store ∨ Move Uses t s.store s'.store
  others : ∀ t' ≠ t, s'.txs t' = s.txs t'
  next : s.next ≤ s'.next
  fresh : ∀ id, s'.next ≤ id →
    s'.store.children.committed id = none ∧ s'.store.children.held id = none
  own : StageOk s' t (s'.txs t)

/-- The steps of the others keep what a transaction has. -/
theorem StageOk.other {s s' : State} {t t' : ℕ} (h : Inv s) (hs : Stepped s t s') (hne : t' ≠ t)
    {stage : Stage} (hst : StageOk s t' stage) : StageOk s' t' stage := by
  rcases hs.move with hsame | hm
  · -- only `next` may have changed
    unfold StageOk at hst ⊢
    rw [hsame]
    split at hst
    · exact ⟨hst.1, fun i hi => ⟨lt_of_lt_of_le (hst.2 i hi).1 hs.next, (hst.2 i hi).2⟩⟩
    · exact hst
    · exact hst
    · trivial
  · cases stage with
    | checking id row todo =>
      obtain ⟨hroles, hid⟩ := hst
      refine ⟨fun p hp => ?_, fun i hi => ?_⟩
      · rcases hroles p hp with htodo | ⟨ht, hv⟩
        · exact Or.inl htodo
        · exact Or.inr ⟨hm.mem_sharers hne ht, hm.seen h.store hne ht hv⟩
      · obtain ⟨hlt, r, hr⟩ := hid i hi
        exact ⟨lt_of_lt_of_le hlt hs.next, r, (hm.children_sameFor hne i _).mpr hr⟩
    | locked old new => exact (hm.parents_sameFor hne old true).mpr hst
    | guarded old new => exact hm.unneeded h.store hne hst
    | idle => trivial
    | ready => trivial
    | placing new => trivial
    | failed => trivial

theorem Stepped.inv {s s' : State} {t : ℕ} (h : Inv s) (hs : Stepped s t s') : Inv s' where
  store := by
    rcases hs.move with hsame | hm
    · rw [hsame]
      exact h.store
    · exact hm.inv h.store
  fresh := hs.fresh
  stage t' := by
    by_cases ht : t' = t
    · rw [ht]
      exact hs.own
    · rw [hs.others t' ht]
      exact StageOk.other h hs ht (h.stage t')

/-! ### The statements -/

section
variable {s : State} {t : ℕ}

/-- A step that only goes to another stage. -/
theorem stepped_goto (h : Inv s) {stage : Stage} (hst : StageOk s t stage) :
    Stepped s t (s.goto t stage) where
  move := Or.inl rfl
  others t' ht' := Function.update_of_ne ht' _ _
  next := le_refl _
  fresh := h.fresh
  own := by
    show StageOk s t (Function.update s.txs t stage t)
    rw [Function.update_self]
    exact hst

/-- A step that locks or writes a role. -/
theorem stepped_writeRole (h : Inv s) {p : RoleRow} {b : Bool} {stage : Stage}
    (hm : Move Uses t s.store (s.writeRole t p b).store) (hst : StageOk (s.writeRole t p b) t stage) :
    Stepped s t ((s.writeRole t p b).goto t stage) where
  move := Or.inr hm
  others t' ht' := Function.update_of_ne ht' _ _
  next := le_refl _
  fresh := h.fresh
  own := by
    show StageOk (s.writeRole t p b) t (Function.update s.txs t stage t)
    rw [Function.update_self]
    exact hst

/-- A step that locks or writes a row with a blob hash. -/
theorem stepped_writeRow (h : Inv s) {id n : ℕ} {row : Option RefRow} {stage : Stage}
    (hn : s.next ≤ n) (hid : id < n) (hf : s.store.children.free t id = true)
    (hr : ∀ p, Needs Uses row p → (t ∈ s.store.sharers p ∧ s.store.parents.view t p = true) ∨
      Needs Uses (s.store.children.view t id) p)
    (hst : StageOk ({ s with next := n }.writeRow t id row) t stage) :
    Stepped s t (({ s with next := n }.writeRow t id row).goto t stage) where
  move := Or.inr (Move.write hf hr)
  others t' ht' := Function.update_of_ne ht' _ _
  next := hn
  fresh id' hid' := by
    have hid' : n ≤ id' := hid'
    obtain ⟨hc, hh⟩ := h.fresh id' (hn.trans hid')
    refine ⟨hc, ?_⟩
    show (s.store.children.write t id row).held id' = none
    rw [Table.write_held_ne _ _ _ (by omega)]
    exact hh
  own := by
    show StageOk ({ s with next := n }.writeRow t id row) t (Function.update s.txs t stage t)
    rw [Function.update_self]
    exact hst

/-- The two ways a transaction ends. -/
theorem stepped_end (h : Inv s) {st : Store ℕ RoleRow ℕ RefRow} (hm : Move Uses t s.store st)
    (hst : st = s.store.commit t ∨ st = s.store.rollback t) :
    Stepped s t ({ s with store := st }.goto t .idle) where
  move := Or.inr hm
  others t' ht' := Function.update_of_ne ht' _ _
  next := le_refl _
  fresh id hid := by
    obtain ⟨hc, hh⟩ := h.fresh id hid
    show st.children.committed id = none ∧ st.children.held id = none
    rcases hst with rfl | rfl
    · refine ⟨?_, ?_⟩
      · show s.store.children.view t id = none
        rw [Table.view_of_none hh, hc]
      · show s.store.children.unlock t id = none
        simp [Table.unlock, hh]
    · refine ⟨hc, ?_⟩
      show s.store.children.unlock t id = none
      simp [Table.unlock, hh]
  own := by
    show StageOk _ t (Function.update s.txs t .idle t)
    rw [Function.update_self]
    trivial

/-- A statement without further steps leaves the transaction where it was. -/
theorem Stepped.of_ready {s' : State} (h : Stepped s t (s'.goto t .ready))
    (hready : s'.txs t = .ready) : Stepped s t s' := by
  have heq : s'.goto t .ready = s' := by
    unfold State.goto
    rw [← hready, Function.update_eq_self]
  rw [← heq]
  exact h

theorem lockable_eq {id : ℕ} {r : RefRow} (h : s.lockable t id = some r) :
    s.store.children.free t id = true ∧ s.store.children.view t id = some r := by
  unfold State.lockable at h
  split_ifs at h with hf
  exact ⟨hf, h⟩

/-- A lock of a row, the row left as it is or deleted. -/
theorem stepped_lock (h : Inv s) {id : ℕ} {r : RefRow} (hl : s.lockable t id = some r)
    {row : Option RefRow} (hrow : row = some r ∨ row = none) {stage : Stage}
    (hst : StageOk (s.writeRow t id row) t stage) :
    Stepped s t ((s.writeRow t id row).goto t stage) := by
  obtain ⟨hf, hv⟩ := lockable_eq hl
  refine stepped_writeRow h (le_refl _) (h.lt_next hv) hf (fun p hp => Or.inr ?_) hst
  rcases hrow with rfl | rfl
  · rw [hv]
    exact hp
  · exact absurd hp (not_needs_none p)

theorem stepped_assertBlobRole (h : Inv s) {id : Option ℕ} {row : RefRow}
    {todo : List (Option Bytes × BlobRole)} {call : Option Bytes × BlobRole} {s' : State}
    (hst : StageOk s t (.checking id row (call :: todo)))
    (hs : assertBlobRole s t id row todo call = some s') : Stepped s t s' := by
  obtain ⟨hroles, hid⟩ := hst
  obtain ⟨_ | hash, role⟩ := call
  · -- `NULL` is not checked
    obtain rfl := Option.some.inj hs
    refine stepped_goto h ⟨fun p hp => (hroles p hp).imp_left fun hmem => ?_, hid⟩
    rcases List.mem_cons.mp hmem with heq | hmem
    · cases (Prod.mk.inj heq).1
    · exact hmem
  · simp only [assertBlobRole] at hs
    split_ifs at hs with hv hf
    · obtain rfl := Option.some.inj hs
      exact stepped_goto h trivial
    · obtain rfl := Option.some.inj hs
      have hv : s.store.parents.view t ⟨hash, role⟩ = true := by simpa using hv
      have hf : s.store.parents.free t ⟨hash, role⟩ = true := by simpa using hf
      refine ⟨Or.inr (Move.share hv hf), fun t' ht' => Function.update_of_ne ht' _ _, le_refl _,
        h.fresh, ?_⟩
      show StageOk _ t (Function.update s.txs t _ t)
      rw [Function.update_self]
      refine ⟨fun p hp => ?_, hid⟩
      rcases hroles p hp with hmem | ⟨ht, hv'⟩
      · rcases List.mem_cons.mp hmem with heq | hmem
        · obtain ⟨hhash, hrole⟩ := Prod.mk.inj heq
          obtain rfl : p = ⟨hash, role⟩ := by
            obtain ⟨hash', role'⟩ := p
            cases hhash
            cases hrole
            rfl
          exact Or.inr ⟨Store.mem_share.mpr (Or.inr ⟨rfl, rfl⟩), hv⟩
        · exact Or.inl hmem
      · exact Or.inr ⟨Store.mem_share.mpr (Or.inl ht), hv'⟩

theorem stepped_writeRef (h : Inv s) {id : Option ℕ} {row : RefRow} {outcome : Outcome}
    {s' : State} (hst : StageOk s t (.checking id row []))
    (hs : writeRef s t id row outcome = some s') : Stepped s t s' := by
  obtain ⟨hroles, hid⟩ := hst
  have hchecked : ∀ p, Needs Uses (some row) p →
      t ∈ s.store.sharers p ∧ s.store.parents.view t p = true := by
    rintro p ⟨r, hr, hp⟩
    obtain rfl := Option.some.inj hr
    exact (hroles p hp).resolve_left List.not_mem_nil
  cases outcome with
  | inserted =>
    cases id with
    | none =>
      obtain rfl := Option.some.inj hs
      have hfree : s.store.children.free t s.next = true :=
        Table.free_iff.mpr (Or.inl (h.fresh s.next (le_refl _)).2)
      exact stepped_writeRow h (Nat.le_succ _) (Nat.lt_succ_self _) hfree
        (fun p hp => Or.inl (hchecked p hp)) trivial
    | some i =>
      obtain rfl := Option.some.inj hs
      obtain ⟨hlt, r, hr⟩ := hid i rfl
      have hfree : s.store.children.free t i = true := Table.free_iff.mpr (Or.inr ⟨r, hr⟩)
      exact stepped_writeRow h (le_refl _) hlt hfree (fun p hp => Or.inl (hchecked p hp)) trivial
  | nothing =>
    unfold writeRef at hs
    split_ifs at hs
    obtain rfl := Option.some.inj hs
    exact stepped_goto h trivial
  | updated i =>
    unfold writeRef at hs
    split_ifs at hs
    obtain ⟨r, hl, rfl⟩ := Option.map_eq_some_iff.mp hs
    exact stepped_lock h hl (Or.inl rfl) trivial
  | rejected =>
    obtain rfl := Option.some.inj hs
    exact stepped_goto h trivial

theorem stepped_insertRole (h : Inv s) {p : RoleRow} {doNothing : Bool} {s' : State}
    (hs : insertRole s t p doNothing = some s') : Stepped s t s' := by
  have hconflict : Stepped s t (s.goto t (if doNothing then .ready else .failed)) := by
    refine stepped_goto h ?_
    split <;> trivial
  unfold insertRole at hs
  dsimp only at hs
  generalize s.goto t (if doNothing then .ready else .failed) = conflict at hs hconflict
  split_ifs at hs with hf hv hc
  · obtain rfl := Option.some.inj hs
    exact hconflict
  · obtain rfl := Option.some.inj hs
    have hv : s.store.parents.view t p = false := by simpa using hv
    exact stepped_writeRole h (Move.hold hf (h.store.sharers_of_absent hf hv) (Or.inl rfl)) trivial
  · obtain rfl := Option.some.inj hs
    exact hconflict

/-- The trigger sees all rows that the transaction sees. -/
theorem unneeded_of_not_inUse (h : Inv s) {p : RoleRow} (hp : s.store.parents.held p = some (t, true))
    (hu : inUse s t p = false) : s.store.Unneeded Uses t p := by
  refine ⟨⟨true, hp⟩, ?_⟩
  rintro c ⟨r, hr, hm⟩
  have hused : inUse s t p = true := by
    refine List.any_eq_true.mpr ⟨c, List.mem_range.mpr (h.lt_next hr), ?_⟩
    rw [hr]
    exact hm
  rw [hu] at hused
  cases hused

theorem stepped_guardRemoval (h : Inv s) {old : RoleRow} {new : Option RoleRow}
    (hst : StageOk s t (.locked old new)) : Stepped s t (guardRemoval s t old new) := by
  unfold guardRemoval
  split_ifs with hsame hu
  · exact stepped_goto h trivial
  · exact stepped_goto h trivial
  · exact stepped_goto h (unneeded_of_not_inUse h hst (by simpa using hu))

theorem stepped_removeRole (h : Inv s) {old : RoleRow} {new : Option RoleRow} {stage : Stage}
    (hst : StageOk s t (.guarded old new)) (hstage : StageOk (s.writeRole t old false) t stage) :
    Stepped s t ((s.writeRole t old false).goto t stage) := by
  obtain ⟨⟨b, hb⟩, hu⟩ := hst
  have hfree : s.store.parents.free t old = true := Table.free_iff.mpr (Or.inr ⟨b, hb⟩)
  exact stepped_writeRole h (Move.hold hfree (h.store.sharers_of_held hb) (Or.inr hu)) hstage

theorem stepped_startStmt (h : Inv s) {ev : Ev} {s' : State} (hready : s.txs ev.tx = .ready)
    (hs : startStmt s ev = some s') : Stepped s ev.tx s' := by
  cases ev with
  | insertRef t row =>
    obtain rfl := Option.some.inj hs
    exact stepped_goto h ⟨fun p hp => Or.inl ((matches_iff row p).mp hp), fun i hi => by cases hi⟩
  | updateRef t id set =>
    obtain ⟨r, hl, hs⟩ := Option.bind_eq_some_iff.mp hs
    split_ifs at hs
    obtain rfl := Option.some.inj hs
    refine stepped_lock h hl (Or.inl rfl) ⟨fun p hp => Or.inl ((matches_iff _ p).mp hp), ?_⟩
    intro i hi
    obtain rfl := Option.some.inj hi
    exact ⟨h.lt_next (lockable_eq hl).2, some r, Table.write_held_self ..⟩
  | touchRef t id =>
    obtain ⟨r, hl, rfl⟩ := Option.map_eq_some_iff.mp hs
    have hstep : Stepped s t ((s.writeRow t id (some r)).goto t .ready) :=
      stepped_lock h hl (Or.inl rfl) trivial
    exact hstep.of_ready hready
  | deleteRef t id =>
    obtain ⟨r, hl, rfl⟩ := Option.map_eq_some_iff.mp hs
    have hstep : Stepped s t ((s.writeRow t id none).goto t .ready) :=
      stepped_lock h hl (Or.inr rfl) trivial
    exact hstep.of_ready hready
  | insertRole t p doNothing => exact stepped_insertRole h hs
  | lockRole t old new =>
    simp only [startStmt] at hs
    split_ifs at hs with hcond
    obtain rfl := Option.some.inj hs
    obtain ⟨hcond, hsharers⟩ := Bool.and_eq_true_iff.mp hcond
    obtain ⟨-, hf⟩ := Bool.and_eq_true_iff.mp hcond
    have hothers : ∀ t' ∈ s.store.sharers old, t' = t := by simpa using hsharers
    exact stepped_writeRole h (Move.hold hf hothers (Or.inl rfl)) (Table.write_held_self ..)
  | _ => cases hs

theorem stepped_goOn (h : Inv s) {ev : Ev} {stage : Stage} {s' : State} (hst : StageOk s t stage)
    (hs : goOn s t stage ev = some s') : Stepped s t s' := by
  unfold goOn at hs
  split at hs
  · exact stepped_assertBlobRole h hst hs
  · exact stepped_writeRef h hst hs
  · obtain rfl := Option.some.inj hs
    exact stepped_guardRemoval h hst
  · obtain rfl := Option.some.inj hs
    exact stepped_removeRole h hst trivial
  · obtain rfl := Option.some.inj hs
    exact stepped_removeRole h hst trivial
  · exact stepped_insertRole h hs
  · cases hs

theorem stepped_of_step (h : Inv s) {ev : Ev} {s' : State} (hs : step s ev = some s') :
    Stepped s ev.tx s' := by
  unfold step at hs
  dsimp only at hs
  split at hs
  · obtain rfl := Option.some.inj hs
    exact stepped_goto h trivial
  · obtain rfl := Option.some.inj hs
    exact stepped_end h Move.commit (Or.inl rfl)
  · cases hs
  · obtain rfl := Option.some.inj hs
    exact stepped_end h Move.rollback (Or.inr rfl)
  · rename_i hready
    exact stepped_startStmt h hready hs
  · exact stepped_goOn h (h.stage _) hs

end

theorem inv_run {evs : List Ev} {s : State} (h : run step evs .init = some s) : Inv s :=
  run_inv (fun _ _ _ hI hs => (stepped_of_step hI hs).inv hI) evs _ _ Inv.init h

/-! ### The result -/

/-- Each blob hash of a row has the role that its column implies. -/
def Classified (roles : RoleRow → Bool) : RefRow → Prop
  | .block header body =>
    roles ⟨header, .blockHeader⟩ = true ∧ ∀ hash, body = some hash → roles ⟨hash, .blockBody⟩ = true
  | .transaction raw => roles ⟨raw, .txRaw⟩ = true
  | .bridgeObservation raw => roles ⟨raw, .bridgeObservation⟩ = true
  | .verifierKeyObservation vk => roles ⟨vk, .verifierKey⟩ = true

theorem classified_of_uses {roles : RoleRow → Bool} {r : RefRow}
    (h : ∀ p, Uses r p → roles p = true) : Classified roles r := by
  cases r with
  | block header body =>
    refine ⟨h _ ?_, fun hash hbody => h _ ?_⟩
    · simp [Uses, RefRow.matches]
    · simp [Uses, RefRow.matches, hbody]
  | transaction raw => exact h _ (by simp [Uses, RefRow.matches])
  | bridgeObservation raw => exact h _ (by simp [Uses, RefRow.matches])
  | verifierKeyObservation vk => exact h _ (by simp [Uses, RefRow.matches])

/-- **Blob roles are complete**: whatever transactions do, and in whatever order, each committed row
has the roles of its blobs, committed as well. -/
theorem blobRoles_complete (evs : List Ev) (s : State) (h : run step evs .init = some s) (id : ℕ)
    (r : RefRow) (hr : s.store.children.committed id = some r) :
    Classified s.store.parents.committed r :=
  classified_of_uses fun p hp => (inv_run h).store.complete id p ⟨r, hr, hp⟩

/-- Two transactions race for a role. The insert of a row that needs it has the shared lock first; the
`DELETE` gets its lock after that has committed, and its trigger fails. Another insert comes too late
for the role of a blob that nothing uses. -/
def roleRace : List Ev :=
  [.begin 0, .insertRole 0 ⟨[1], .txRaw⟩ true, .insertRole 0 ⟨[2], .txRaw⟩ false, .commit 0,
    .begin 1, .begin 2, .insertRef 1 (.transaction [1]), .assertBlobRole 1, .writeRef 1 .inserted,
    .commit 1, .lockRole 2 ⟨[1], .txRaw⟩ none, .guardRemoval 2, .rollback 2,
    .begin 2, .lockRole 2 ⟨[2], .txRaw⟩ (some ⟨[2], .proof⟩), .guardRemoval 2, .begin 3,
    .insertRef 3 (.transaction [2]), .removeRole 2, .placeRole 2, .commit 2, .assertBlobRole 3,
    .rollback 3]

theorem blobRoles_complete_race : ∃ s, run step roleRace .init = some s ∧
    s.store.children.committed 0 = some (.transaction [1]) ∧
    s.store.parents.committed ⟨[2], .txRaw⟩ = false ∧
    Classified s.store.parents.committed (.transaction [1]) := by
  have hr : (run step roleRace .init).map (fun s => (s.store.children.committed 0,
      s.store.parents.committed ⟨[2], .txRaw⟩)) = some (some (.transaction [1]), false) := by
    decide +kernel
  obtain ⟨s, hs, h⟩ := Option.map_eq_some_iff.mp hr
  obtain ⟨hrow, hrole⟩ := Prod.mk.inj h
  exact ⟨s, hs, hrow, hrole, blobRoles_complete roleRace s hs 0 _ hrow⟩

end UmbraDB.Archive.Roles
