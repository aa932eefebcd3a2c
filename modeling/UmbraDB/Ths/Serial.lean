import UmbraDB.Ths.Orders
import Mathlib.Data.List.Permutation

/-! # Transaction history: interleaved calls have a serial order

* `history_serializable` : if merging keeps the identifiers of pending entries, or no row of the
  initial table can be cleared, then after every run the table is what the committed calls give one
  after another in some order, and no part of a call that merging keeps is lost except with a
  cleared row.
* `replaceMerge_not_serializable` : with a merge function that drops an identifier there is a run of
  three calls for which no order gives the table.

The order of the commits is not the serial order. A call that clears a row may commit after calls
whose new pending rows it did not see, so these are moved behind it (`Placed`); what has to be shown
is that it did see the rows that cannot be moved (`Chosen`). -/

namespace UmbraDB.Ths.Serial

open UmbraDB.Js.Text UmbraDB.Lib.RowStore UmbraDB.Lib.Runs UmbraDB.Ths.Entry
open UmbraDB.Ths.Concurrent UmbraDB.Ths.Orders

variable {C : Type} {cfg : Config C} {s s' : ThsState C} {t t' : ℕ} {call : Call C}
  {base tail tail' : List (Call C)} {first mid : Entries C}

/-- The committed entries. -/
def entriesOf (s : ThsState C) : Entries C := fun k => (s.rows.committed k).map (·.entry)

theorem entriesOf_congr {k : Key} (h : s'.rows.committed k = s.rows.committed k) :
    entriesOf s' k = entriesOf s k := by
  unfold entriesOf
  rw [h]

/-! ### The invariant -/

/-- The transaction has the advisory lock of the call. -/
def Locked (cfg : Config C) (s : ThsState C) (t : ℕ) (call : Call C) : Prop :=
  s.locks (lockOf cfg call.key) = some t

/-- After the upsert: the row of the call is held with the result of the merge on what is committed,
and every other row that is held is left as it is or cleared. -/
structure Wrote (cfg : Config C) (s : ThsState C) (t : ℕ) (call : Call C)
    (result : HistoryEntry C) : Prop where
  locked : Locked cfg s t call
  row : ∃ insertedBy, s.rows.held call.key = some (t, some ⟨result, insertedBy⟩) ∧
    ∀ row, s.rows.committed call.key = some row → insertedBy = row.insertedBy
  merged : mergeResult cfg.valid cfg.mergeFn (entriesOf s call.key) call.entry = .ok result
  others : ∀ k v, s.rows.held k = some (t, v) → k ≠ call.key →
    ∃ row, s.rows.committed k = some row ∧
      (v = some row ∨
        v = none ∧ clearsPending result = true ∧ clears call result k row.entry = true)

/-- Every standing row that matches was chosen by the `DELETE` and is still to come, or is
deleted. -/
def Chosen (s : ThsState C) (tail : List (Call C)) (t : ℕ) (call : Call C)
    (result : HistoryEntry C) (todo : List (Key × Option ℕ)) : Prop :=
  ∀ k row, s.rows.committed k = some row → Standing (entriesOf s) tail k row.entry →
    clears call result k row.entry = true →
    (k, row.insertedBy) ∈ todo ∨ s.rows.held k = some (t, none)

/-- What holds of a running transaction, by the place where `writeRows` is. -/
def StageInv (cfg : Config C) (s : ThsState C) (tail : List (Call C)) (t : ℕ) (call : Call C) :
    Stage C → Prop
  | .begun => ∀ k v, s.rows.held k ≠ some (t, v)
  | .locked => Locked cfg s t call ∧ ∀ k v, s.rows.held k ≠ some (t, v)
  | .selected existing => Locked cfg s t call ∧ s.rows.committed call.key = existing ∧
      (∀ row, existing = some row → s.rows.held call.key = some (t, existing)) ∧
      ∀ k v, s.rows.held k = some (t, v) → k = call.key ∧ v = existing
  | .upserted result => Wrote cfg s t call result ∧ clearsPending result = true
  | .deleting result todo => Wrote cfg s t call result ∧ clearsPending result = true ∧
      Chosen s tail t call result todo
  | .done result => Wrote cfg s t call result ∧
      (clearsPending result = true → Chosen s tail t call result [])

structure Inv (cfg : Config C) (first : Entries C) (s : ThsState C) (base tail : List (Call C))
    (mid : Entries C) : Prop where
  placed : Placed cfg first s.log (entriesOf s) base tail mid
  txs : ∀ t x, running s t = some x → StageInv cfg s tail t x.call x.stage
  begun : ∀ k t v, s.rows.held k = some (t, v) → s.txs t ≠ none
  keys : ∀ k row, s.rows.committed k = some row → k ∈ s.keys
  heldKeys : ∀ k t row, s.rows.held k = some (t, some row) → k ∈ s.keys

/-! ### What the steps of the others do -/

/-- What a step of another transaction may change for `t`. -/
structure Frame (s : ThsState C) (tail : List (Call C)) (s' : ThsState C) (tail' : List (Call C))
    (cfg : Config C) (t : ℕ) : Prop where
  held : Table.SameFor t s.rows s'.rows
  locks : ∀ l, s.locks l = some t → s'.locks l = some t
  committed : ∀ k v, s.rows.held k = some (t, v) → s'.rows.committed k = s.rows.committed k
  absent : ∀ call, Locked cfg s t call → s.rows.committed call.key = none →
    s'.rows.committed call.key = none
  standing : ∀ k row', s'.rows.committed k = some row' →
    Standing (entriesOf s') tail' k row'.entry →
    ∃ row, s.rows.committed k = some row ∧ Standing (entriesOf s) tail k row.entry ∧
      row.insertedBy = row'.insertedBy ∧ row.entry.identifiers ⊆ row'.entry.identifiers

theorem Wrote.frame {result : HistoryEntry C} (h : Wrote cfg s t call result)
    (hf : Frame s tail s' tail' cfg t) : Wrote cfg s' t call result := by
  obtain ⟨insertedBy, hrow, hid⟩ := h.row
  have hc : s'.rows.committed call.key = s.rows.committed call.key := hf.committed _ _ hrow
  refine ⟨hf.locks _ h.locked, ⟨insertedBy, (hf.held _ _).mpr hrow, ?_⟩, ?_, ?_⟩
  · intro row hr
    exact hid row (by rw [← hc]; exact hr)
  · rw [entriesOf_congr hc]
    exact h.merged
  · intro k v hv hk
    have hv' := (hf.held k v).mp hv
    rw [hf.committed k v hv']
    exact h.others k v hv' hk

theorem Chosen.frame {result : HistoryEntry C} {todo : List (Key × Option ℕ)}
    (h : Chosen s tail t call result todo) (hf : Frame s tail s' tail' cfg t) :
    Chosen s' tail' t call result todo := by
  intro k row' hrow' hs' hcl
  obtain ⟨row, hrow, hs, hid, hsub⟩ := hf.standing k row' hrow' hs'
  rw [← hid, hf.held k none]
  exact h k row hrow hs (clears_of_subset hcl hs.clearable hsub)

/-- The steps of the others keep what holds of a transaction. -/
theorem StageInv.frame {st : Stage C} (h : StageInv cfg s tail t call st)
    (hf : Frame s tail s' tail' cfg t) : StageInv cfg s' tail' t call st := by
  cases st with
  | begun => exact fun k v hv => h k v ((hf.held k v).mp hv)
  | locked => exact ⟨hf.locks _ h.1, fun k v hv => h.2 k v ((hf.held k v).mp hv)⟩
  | selected existing =>
    obtain ⟨hl, hc, hrow, hh⟩ := h
    refine ⟨hf.locks _ hl, ?_, fun row hr => (hf.held _ _).mpr (hrow row hr),
      fun k v hv => hh k v ((hf.held k v).mp hv)⟩
    rcases existing with _ | row
    · exact hf.absent call hl hc
    · rw [hf.committed _ _ (hrow row rfl), hc]
  | upserted result => exact ⟨h.1.frame hf, h.2⟩
  | deleting result todo => exact ⟨h.1.frame hf, h.2.1, h.2.2.frame hf⟩
  | done result => exact ⟨h.1.frame hf, fun hc => (h.2 hc).frame hf⟩

/-- A step that does not change what is committed. -/
theorem Frame.of_committed (hc : s'.rows.committed = s.rows.committed)
    (hs : Table.SameFor t s.rows s'.rows) (hl : ∀ l, s.locks l = some t → s'.locks l = some t) :
    Frame s tail s' tail cfg t := by
  have he : entriesOf s' = entriesOf s := funext fun k => entriesOf_congr (congrFun hc k)
  refine ⟨hs, hl, fun k _ _ => by rw [hc], fun call _ hn => by rw [hc]; exact hn, ?_⟩
  intro k row hrow hst
  rw [hc] at hrow
  rw [he] at hst
  exact ⟨row, hrow, hst, rfl, List.Subset.refl _⟩

/-- The end of `t` leaves the advisory locks of the others. -/
theorem unlock_of_ne {l : ℤ} (hl : s.locks l = some t') (ht : t' ≠ t) :
    unlock s t l = some t' := by
  unfold unlock
  rw [hl, if_neg (by simpa using ht)]

theorem running_eq_some {x : Tx C} :
    running s t = some x ↔ s.txs t = some x ∧ x.status = .running := by
  unfold running
  rw [Option.filter_eq_some_iff]
  simp

/-- A step of `t` that commits nothing keeps the invariant if it keeps what it must of `t`. -/
theorem Inv.keep (h : Inv cfg first s base tail mid) {x : Tx C} (hlog : s'.log = s.log)
    (hc : s'.rows.committed = s.rows.committed)
    (htx : s'.txs = Function.update s.txs t (some x))
    (hsame : ∀ t', t' ≠ t → Table.SameFor t' s.rows s'.rows)
    (hlocks : ∀ t', t' ≠ t → ∀ l, s.locks l = some t' → s'.locks l = some t')
    (hkeys : s.keys ⊆ s'.keys)
    (hheld : ∀ k row, s'.rows.held k = some (t, some row) → k ∈ s'.keys)
    (hst : x.status = .running → StageInv cfg s' tail t x.call x.stage) :
    Inv cfg first s' base tail mid := by
  have he : entriesOf s' = entriesOf s := funext fun k => entriesOf_congr (congrFun hc k)
  refine ⟨?_, ?_, ?_, ?_, ?_⟩
  · rw [hlog, he]
    exact h.placed
  · intro t' x' hx'
    obtain ⟨hx', hrun⟩ := running_eq_some.mp hx'
    rw [htx] at hx'
    by_cases ht : t' = t
    · subst ht
      rw [Function.update_self, Option.some.injEq] at hx'
      subst hx'
      exact hst hrun
    · rw [Function.update_of_ne ht] at hx'
      exact (h.txs t' x' (running_eq_some.mpr ⟨hx', hrun⟩)).frame
        (Frame.of_committed hc (hsame t' ht) (hlocks t' ht))
  · intro k t' v hv
    rw [htx]
    by_cases ht : t' = t
    · subst ht
      simp
    · rw [Function.update_of_ne ht]
      exact h.begun k t' v ((hsame t' ht k v).mp hv)
  · intro k row hrow
    rw [hc] at hrow
    exact hkeys (h.keys k row hrow)
  · intro k t' row hrow
    by_cases ht : t' = t
    · subst ht
      exact hheld k row hrow
    · exact hkeys (h.heldKeys k t' row ((hsame t' ht k _).mp hrow))

/-- A step that changes only where its transaction is. -/
theorem Inv.setTx (h : Inv cfg first s base tail mid) {x : Tx C}
    (hst : x.status = .running → StageInv cfg s tail t x.call x.stage) :
    Inv cfg first (s.setTx t x) base tail mid :=
  h.keep rfl rfl rfl (fun t' _ => Table.SameFor.refl t' _) (fun _ _ _ hl => hl)
    (List.Subset.refl _) (fun k row hrow => h.heldKeys k t row hrow) fun hr =>
      (hst hr).frame (Frame.of_committed rfl (Table.SameFor.refl t _) fun _ hl => hl)

/-- What a transaction sees of a row is in the table, or was written by it. -/
theorem Inv.mem_keys_of_view (h : Inv cfg first s base tail mid) {k : Key} {row : Row C}
    (hv : s.rows.view t k = some row) : k ∈ s.keys := by
  rcases s.rows.view_cases t k with hh | ⟨-, hc⟩
  · rw [hv] at hh
    exact h.heldKeys k t row hh
  · rw [hv] at hc
    exact h.keys k row hc.symm

/-- Locking a row of which the transaction sees a version. -/
theorem Inv.write_view (h : Inv cfg first s base tail mid) {x : Tx C} {k : Key} {row : Row C}
    {v : Option (Row C)} (hfree : s.rows.free t k = true) (hview : s.rows.view t k = some row)
    (hst : StageInv cfg { s.setTx t x with rows := s.rows.write t k v } tail t x.call x.stage) :
    Inv cfg first { s.setTx t x with rows := s.rows.write t k v } base tail mid := by
  refine h.keep rfl rfl rfl (fun t' ht => Table.sameFor_write hfree ht v) (fun _ _ _ hl => hl)
    (List.Subset.refl _) ?_ fun _ => hst
  intro k' row' hrow'
  by_cases hk : k' = k
  · subst hk
    exact h.mem_keys_of_view hview
  · exact h.heldKeys k' t row' (by rw [← Table.write_held_ne s.rows t v hk]; exact hrow')

/-! ### The statements -/

theorem Inv.begin (h : Inv cfg first s base tail mid) (ht : s.txs t = none) :
    Inv cfg first (s.setTx t ⟨.running, call, .begun⟩) base tail mid :=
  h.setTx fun _ k v hv => h.begun k t v hv ht

theorem Inv.lockStep (h : Inv cfg first s base tail mid) {x : Tx C} (hx : running s t = some x)
    (hs : lockStep cfg s t x = some s') : Inv cfg first s' base tail mid := by
  unfold Concurrent.lockStep at hs
  split at hs
  · next hst hl =>
    cases hs
    have hinv := h.txs t x hx
    rw [hst] at hinv
    refine h.keep rfl rfl rfl (fun t' _ => Table.SameFor.refl t' _) ?_ (List.Subset.refl _)
      (fun k row hrow => h.heldKeys k t row hrow) fun _ => ⟨?_, hinv⟩
    · intro t' _ l hlt
      have hne : l ≠ lockOf cfg x.call.key := by
        rintro rfl
        rw [hl] at hlt
        cases hlt
      show Function.update s.locks _ (some t) l = some t'
      rw [Function.update_of_ne hne]
      exact hlt
    · simp [Locked]
  · cases hs

theorem Inv.selectStep (h : Inv cfg first s base tail mid) {x : Tx C} (hx : running s t = some x)
    (hs : selectStep s t x = some s') : Inv cfg first s' base tail mid := by
  unfold Concurrent.selectStep at hs
  split at hs
  · next hst =>
    have hinv := h.txs t x hx
    rw [hst] at hinv
    obtain ⟨hl, hnone⟩ := hinv
    have hview := Table.view_eq_committed fun v => hnone x.call.key v
    split at hs
    · next hfree =>
      split at hs
      · next hv =>
        cases hs
        rw [hview] at hv
        refine h.setTx fun _ => ⟨hl, hv, ?_, fun k v hk => absurd hk (hnone k v)⟩
        intro row hrow
        cases hrow
      · next row hv =>
        cases hs
        refine h.write_view hfree hv ⟨hl, ?_, ?_, ?_⟩
        · rw [← hv, hview]
          rfl
        · intro row' _
          exact Table.write_held_self s.rows t x.call.key (some row)
        · intro k v hk
          by_cases hkey : k = x.call.key
          · subst hkey
            have hw := Table.write_held_self s.rows t x.call.key (some row)
            have : some (t, v) = some (t, some row) := hk.symm.trans hw
            cases this
            exact ⟨rfl, rfl⟩
          · have hw := Table.write_held_ne s.rows t (some row) hkey
            exact absurd (hw.symm.trans hk) (hnone k v)
    · cases hs
  · cases hs

theorem mem_noteKey (keys : List Key) (k : Key) : k ∈ noteKey keys k := by
  unfold noteKey
  split
  · next h => simpa using h
  · simp

theorem subset_noteKey (keys : List Key) (k : Key) : keys ⊆ noteKey keys k := by
  unfold noteKey
  split
  · exact List.Subset.refl _
  · exact List.subset_append_left _ _

/-- After the upsert. -/
theorem wrote_upsert {existing : Option (Row C)} {result : HistoryEntry C} {x : Tx C}
    (hinv : StageInv cfg s tail t x.call (.selected existing))
    (hm : mergeResult cfg.valid cfg.mergeFn (existing.map (·.entry)) x.call.entry = .ok result)
    (y : Tx C) (keys : List Key) :
    Wrote cfg { s.setTx t y with
      rows := s.rows.write t x.call.key
        (some ⟨result, ((s.rows.view t x.call.key).map (·.insertedBy)).getD (some t)⟩)
      keys := keys } t x.call result := by
  obtain ⟨hl, hc, hrow, hh⟩ := hinv
  have hview : s.rows.view t x.call.key = existing := by
    rcases s.rows.view_cases t x.call.key with hv | ⟨-, hv⟩
    · exact (hh _ _ hv).2
    · rw [hv, hc]
  refine ⟨hl, ⟨_, Table.write_held_self s.rows t x.call.key _, ?_⟩, ?_, ?_⟩
  · intro row hr
    have hr' : s.rows.committed x.call.key = some row := hr
    rw [hview, ← hc, hr']
    rfl
  · show mergeResult _ _ ((s.rows.committed x.call.key).map (·.entry)) _ = _
    rw [hc]
    exact hm
  · intro k v hv hk
    have hv' : s.rows.held k = some (t, v) := by
      rw [← Table.write_held_ne s.rows t _ hk]
      exact hv
    exact absurd (hh k v hv').1 hk

theorem Inv.upsertStep (h : Inv cfg first s base tail mid) {x : Tx C} (hx : running s t = some x)
    (hs : upsertStep cfg s t x = some s') : Inv cfg first s' base tail mid := by
  unfold Concurrent.upsertStep at hs
  split at hs
  · next existing hst =>
    have hinv := h.txs t x hx
    rw [hst] at hinv
    split at hs
    · cases hs
    · next result hm =>
      split at hs
      · next hfree =>
        rw [Option.some.injEq] at hs
        subst hs
        refine h.keep rfl rfl rfl (fun t' ht => Table.sameFor_write hfree ht _)
          (fun _ _ _ hl => hl) (subset_noteKey _ _) ?_ ?_
        · intro k row hrow
          by_cases hk : k = x.call.key
          · subst hk
            exact mem_noteKey _ _
          · refine subset_noteKey _ _ (h.heldKeys k t row ?_)
            rw [← Table.write_held_ne s.rows t _ hk]
            exact hrow
        · intro _
          by_cases hc : clearsPending result = true
          · simp only [hc, if_true]
            exact ⟨wrote_upsert hinv hm _ _, hc⟩
          · simp only [hc]
            exact ⟨wrote_upsert hinv hm _ _, fun hc' => absurd hc' hc⟩
      · cases hs
  · cases hs

section Delete

variable {result : HistoryEntry C} {k : Key} {row : Row C}

/-- A row other than its own that the call has not deleted is seen as it is committed. -/
theorem Wrote.committed_of_view (hw : Wrote cfg s t call result) (hk : k ≠ call.key)
    (hv : s.rows.view t k = some row) : s.rows.committed k = some row := by
  rcases s.rows.view_cases t k with hh | ⟨-, hc⟩
  · obtain ⟨row', hrow', hor⟩ := hw.others k _ hh hk
    rw [hv] at hor
    rcases hor with hor | ⟨hor, -⟩
    · rw [hor, hrow']
    · cases hor
  · rw [← hc, hv]

theorem Wrote.view_of_clears (hw : Wrote cfg s t call result)
    (hrow : s.rows.committed k = some row) (hcl : clears call result k row.entry = true) :
    s.rows.view t k = some row ∨ s.rows.held k = some (t, none) := by
  have hk : k ≠ call.key := ne_key_of_clears (mergeResult_hash hw.merged) hcl
  rcases s.rows.view_cases t k with hh | ⟨-, hc⟩
  · obtain ⟨row', hrow', hor⟩ := hw.others k _ hh hk
    rw [hrow] at hrow'
    rcases hor with hor | ⟨hor, -⟩
    · exact Or.inl (by rw [hor, hrow'])
    · rw [hor] at hh
      exact Or.inr hh
  · exact Or.inl (by rw [hc, hrow])

/-- The `DELETE` chooses every row that it can clear. -/
theorem Inv.chosen_candidates (h : Inv cfg first s base tail mid)
    (hw : Wrote cfg s t call result) :
    Chosen s tail t call result (candidates s t call result) := by
  intro k row hrow _ hcl
  rcases hw.view_of_clears hrow hcl with hview | hd
  · refine Or.inl (List.mem_filterMap.mpr ⟨k, h.keys k row hrow, ?_⟩)
    simp [hview, hcl]
  · exact Or.inr hd

/-- The `DELETE` leaves the row as it is, or clears it. -/
theorem Wrote.write {v : Option (Row C)} (hw : Wrote cfg s t call result)
    (hview : s.rows.view t k = some row)
    (hv : v = some row ∨ v = none ∧ clearsPending result = true ∧
      clears call result k row.entry = true) (y : Tx C) :
    Wrote cfg { s.setTx t y with rows := s.rows.write t k v } t call result := by
  refine ⟨hw.locked, ?_, hw.merged, ?_⟩
  · obtain ⟨insertedBy, hrow, hid⟩ := hw.row
    by_cases hk : call.key = k
    · subst hk
      have hr : row = ⟨result, insertedBy⟩ := by
        rw [Table.view_of_held hrow, Option.some.injEq] at hview
        exact hview.symm
      rcases hv with hv | ⟨-, -, hcl⟩
      · subst hr hv
        exact ⟨insertedBy, Table.write_held_self s.rows t _ _, hid⟩
      · exact absurd rfl (ne_key_of_clears (mergeResult_hash hw.merged) hcl)
    · exact ⟨insertedBy, (Table.write_held_ne s.rows t v hk).trans hrow, hid⟩
  · intro k' v' hv' hk'
    by_cases hk : k' = k
    · subst hk
      have hself : some (t, v') = some (t, v) :=
        hv'.symm.trans (Table.write_held_self s.rows t k' v)
      cases hself
      exact ⟨row, hw.committed_of_view hk' hview, hv⟩
    · exact hw.others k' v' ((Table.write_held_ne s.rows t v hk).symm.trans hv') hk'

/-- A row that was looked at need not come again. -/
theorem Chosen.erase {todo : List (Key × Option ℕ)} {insertedBy : Option ℕ}
    (h : Chosen s tail t call result todo) (hc : s'.rows.committed = s.rows.committed)
    (hheld : ∀ k', s.rows.held k' = some (t, none) → s'.rows.held k' = some (t, none))
    (hdone : ∀ row, s.rows.committed k = some row → row.insertedBy = insertedBy →
      clears call result k row.entry = true → s'.rows.held k = some (t, none)) :
    Chosen s' tail t call result (todo.erase (k, insertedBy)) := by
  have he : entriesOf s' = entriesOf s := funext fun k => entriesOf_congr (congrFun hc k)
  intro k' row' hrow' hst hcl
  rw [hc] at hrow'
  rw [he] at hst
  rcases h k' row' hrow' hst hcl with hmem | hd
  · by_cases heq : (k', row'.insertedBy) = (k, insertedBy)
    · cases heq
      exact Or.inr (hdone row' hrow' rfl hcl)
    · exact Or.inl ((List.mem_erase_of_ne heq).mpr hmem)
  · exact Or.inr (hheld k' hd)

theorem held_none_write {v : Option (Row C)} (hview : s.rows.view t k = some row) (k' : Key)
    (hd : s.rows.held k' = some (t, none)) : (s.rows.write t k v).held k' = some (t, none) := by
  have hne : k' ≠ k := by
    rintro rfl
    rw [Table.view_of_held hd] at hview
    cases hview
  rw [Table.write_held_ne s.rows t v hne]
  exact hd

theorem Inv.deleteStep (h : Inv cfg first s base tail mid) {x : Tx C} {insertedBy : Option ℕ}
    (hx : running s t = some x) (hs : deleteStep s t k insertedBy x = some s') :
    Inv cfg first s' base tail mid := by
  unfold Concurrent.deleteStep at hs
  split at hs
  · next result todo hst =>
    have hinv := h.txs t x hx
    rw [hst] at hinv
    obtain ⟨hw, hcp, hch⟩ := hinv
    split at hs
    · next hcond =>
      rw [Bool.and_eq_true] at hcond
      split at hs
      · next hv =>
        -- the row is gone
        cases hs
        refine h.setTx fun _ => ⟨hw, hcp, hch.erase rfl (fun _ hd => hd) ?_⟩
        intro row hrow _ hcl
        rcases hw.view_of_clears hrow hcl with hv' | hd
        · rw [hv] at hv'
          cases hv'
        · exact hd
      · next row hv =>
        have hsame : ∀ row', s.rows.committed k = some row' →
            clears x.call result k row'.entry = true → row' = row := by
          intro row' hrow' hcl
          rcases hw.view_of_clears hrow' hcl with hv' | hd
          · rw [hv, Option.some.injEq] at hv'
            exact hv'.symm
          · rw [Table.view_of_held hd] at hv
            cases hv
        split at hs
        · next hne =>
          cases hs
          refine h.setTx fun _ => ⟨hw, hcp, hch.erase rfl (fun _ hd => hd) ?_⟩
          intro row' hrow' hid hcl
          rw [hsame row' hrow' hcl] at hid
          exact absurd hid hne
        · split at hs
          · next hcl =>
            cases hs
            refine h.write_view hcond.2 hv ⟨hw.write hv (Or.inr ⟨rfl, hcp, hcl⟩) _, hcp,
              hch.erase rfl (held_none_write hv) ?_⟩
            intro row' _ _ _
            exact Table.write_held_self s.rows t k none
          · next hncl =>
            cases hs
            refine h.write_view hcond.2 hv ⟨hw.write hv (Or.inl rfl) _, hcp,
              hch.erase rfl (held_none_write hv) ?_⟩
            intro row' hrow' _ hcl
            rw [hsame row' hrow' hcl] at hcl
            exact absurd hcl hncl
    · cases hs
  · cases hs

end Delete

theorem Inv.startDelete (h : Inv cfg first s base tail mid) {x : Tx C} {result : HistoryEntry C}
    (hx : running s t = some x) (hst : x.stage = .upserted result) :
    Inv cfg first (s.setTx t { x with
      stage := .deleting result (candidates s t x.call result) }) base tail mid := by
  have hinv := h.txs t x hx
  rw [hst] at hinv
  exact h.setTx fun _ => ⟨hinv.1, hinv.2, h.chosen_candidates hinv.1⟩

theorem Inv.endDelete (h : Inv cfg first s base tail mid) {x : Tx C} {result : HistoryEntry C}
    (hx : running s t = some x) (hst : x.stage = .deleting result []) :
    Inv cfg first (s.setTx t { x with stage := .done result }) base tail mid := by
  have hinv := h.txs t x hx
  rw [hst] at hinv
  exact h.setTx fun _ => ⟨hinv.1, fun _ => hinv.2.2⟩

theorem Inv.rollback (h : Inv cfg first s base tail mid) (x : Tx C) :
    Inv cfg first { s.setTx t { x with status := .rolledBack } with
      rows := s.rows.rollback t, locks := unlock s t } base tail mid := by
  refine h.keep rfl rfl rfl (fun t' ht => Table.sameFor_rollback ht)
    (fun t' ht l hl => unlock_of_ne hl ht) (List.Subset.refl _) ?_ ?_
  · intro k row hrow
    exact absurd rfl (Table.unlock_eq_some.mp hrow).2
  · intro hr
    cases hr

/-! ### Commits -/

section Commit

variable {result : HistoryEntry C}

/-- The rows the transaction deletes. -/
def deletes (s : ThsState C) (t : ℕ) (k : Key) : Bool :=
  match s.rows.held k with
  | some (t', none) => t' == t
  | _ => false

theorem deletes_iff {k : Key} : deletes s t k = true ↔ s.rows.held k = some (t, none) := by
  unfold deletes
  split
  · next t' h => simp [h]
  · next h =>
    constructor
    · intro hf
      cases hf
    · intro hd
      exact absurd hd (h t)

theorem Wrote.not_deletes (hw : Wrote cfg s t call result) : deletes s t call.key = false := by
  obtain ⟨insertedBy, hrow, -⟩ := hw.row
  by_contra hd
  rw [Bool.not_eq_false, deletes_iff, hrow] at hd
  cases hd

/-- What the other rows are after the commit. -/
theorem Wrote.view_of_ne (hw : Wrote cfg s t call result) {k : Key} (hk : k ≠ call.key) :
    s.rows.view t k = if deletes s t k then none else s.rows.committed k := by
  rcases s.rows.view_cases t k with hh | ⟨hn, hc⟩
  · obtain ⟨row, hrow, hor⟩ := hw.others k _ hh hk
    rcases hor with hor | ⟨hor, -⟩
    · have hd : deletes s t k ≠ true := by
        rw [Ne, deletes_iff, hh, hor]
        simp
      rw [if_neg hd, hor, hrow]
    · rw [hor] at hh
      rw [if_pos (deletes_iff.mpr hh), hor]
  · rw [if_neg (fun hd => hn none (deletes_iff.mp hd)), hc]

theorem Wrote.entriesOf_commit (hw : Wrote cfg s t call result)
    (hrows : s'.rows = s.rows.commit t) :
    entriesOf s' = after (entriesOf s) call result (deletes s t) := by
  funext k
  unfold entriesOf after
  rw [hrows, Table.commit_committed]
  by_cases hk : k = call.key
  · subst hk
    obtain ⟨insertedBy, hrow, -⟩ := hw.row
    rw [Table.view_of_held hrow, if_pos rfl]
    rfl
  · rw [if_neg hk, hw.view_of_ne hk]
    split
    · rfl
    · rfl

theorem Wrote.clears (hw : Wrote cfg s t call result)
    (hch : clearsPending result = true → Chosen s tail t call result []) :
    Clears (entriesOf s) tail call result (deletes s t) := by
  constructor
  · intro k hd
    have hk : k ≠ call.key := by
      rintro rfl
      rw [hw.not_deletes] at hd
      cases hd
    obtain ⟨row, hrow, hor⟩ := hw.others k none (deletes_iff.mp hd) hk
    rcases hor with hor | ⟨-, hcp, hcl⟩
    · cases hor
    · exact ⟨hk, hcp, row.entry, by simp [entriesOf, hrow], hcl⟩
  · intro hcp k e hst hcl
    obtain ⟨row, hrow, rfl⟩ := Option.map_eq_some_iff.mp hst.entry
    rcases hch hcp k row hrow hst hcl with hmem | hd
    · cases hmem
    · exact deletes_iff.mpr hd

/-- What the commit of `t` may change for another transaction. -/
theorem Wrote.frame_commit (hw : Wrote cfg s t call result) (hrows : s'.rows = s.rows.commit t)
    (hlocks : s'.locks = unlock s t) (ht : t' ≠ t)
    (hst : ∀ k e', Standing (entriesOf s') tail' k e' →
      ∃ e, Standing (entriesOf s) tail k e ∧ e.identifiers ⊆ e'.identifiers) :
    Frame s tail s' tail' cfg t' := by
  refine ⟨?_, ?_, ?_, ?_, ?_⟩
  · rw [hrows]
    exact Table.sameFor_commit ht
  · intro l hl
    rw [hlocks]
    exact unlock_of_ne hl ht
  · intro k v hv
    rw [hrows, Table.commit_committed, Table.view_of_other hv ht]
  · -- nobody else inserts the row, since the advisory lock is held
    intro call' hl hnone
    have hk : call'.key ≠ call.key := by
      intro hk
      have hlock := hw.locked
      unfold Locked at hl hlock
      rw [← hk, hl, Option.some.injEq] at hlock
      exact ht hlock
    rw [hrows, Table.commit_committed, hw.view_of_ne hk, hnone]
    split
    · rfl
    · rfl
  · intro k row' hrow' hs'
    obtain ⟨e, hs, hsub⟩ := hst k row'.entry hs'
    obtain ⟨row, hrow, rfl⟩ := Option.map_eq_some_iff.mp hs.entry
    refine ⟨row, hrow, hs, ?_, hsub⟩
    rw [hrows, Table.commit_committed] at hrow'
    by_cases hk : k = call.key
    · subst hk
      obtain ⟨insertedBy, hheld, hid⟩ := hw.row
      rw [Table.view_of_held hheld, Option.some.injEq] at hrow'
      rw [← hrow', hid row hrow]
    · rw [hw.view_of_ne hk, hrow] at hrow'
      split at hrow'
      · cases hrow'
      · cases hrow'
        rfl

theorem Inv.commit (h : Inv cfg first s base tail mid) {x : Tx C} (hx : running s t = some x)
    (hst : x.stage = .done result) :
    ∃ base' tail' mid', Inv cfg first { s.setTx t { x with status := .committed } with
      rows := s.rows.commit t, locks := unlock s t, log := s.log ++ [x.call] }
      base' tail' mid' := by
  have hinv := h.txs t x hx
  rw [hst] at hinv
  obtain ⟨hw, hch⟩ := hinv
  obtain ⟨base', tail', mid', hp, hstand⟩ := h.placed.commit hw.merged (hw.clears hch)
  refine ⟨base', tail', mid', ?_, ?_, ?_, ?_, ?_⟩
  · rw [hw.entriesOf_commit rfl]
    exact hp
  · intro t' x' hx'
    obtain ⟨hx', hrun⟩ := running_eq_some.mp hx'
    have htx : Function.update s.txs t (some { x with status := .committed }) t' = some x' := hx'
    by_cases ht : t' = t
    · subst ht
      rw [Function.update_self, Option.some.injEq] at htx
      subst htx
      cases hrun
    · rw [Function.update_of_ne ht] at htx
      refine (h.txs t' x' (running_eq_some.mpr ⟨htx, hrun⟩)).frame
        (hw.frame_commit rfl rfl ht ?_)
      rw [hw.entriesOf_commit rfl]
      exact hstand
  · intro k t' v hv
    obtain ⟨hv', ht⟩ := Table.unlock_eq_some.mp hv
    show Function.update s.txs t _ t' ≠ none
    rw [Function.update_of_ne ht]
    exact h.begun k t' v hv'
  · intro k row hrow
    exact h.mem_keys_of_view hrow
  · intro k t' row hrow
    exact h.heldKeys k t' row (Table.unlock_eq_some.mp hrow).1

end Commit

/-! ### Runs -/

/-- No row can be cleared. -/
def NoneClearable (entries : Entries C) : Prop := ∀ k e, entries k = some e → clearable e = false

theorem entriesOf_init (T : InitialTable C) : entriesOf (.init T) = T.rows := by
  funext k
  unfold entriesOf ThsState.init Table.fresh
  rcases h : T.rows k with _ | e
  · simp [h]
  · simp [h]

theorem inv_init (T : InitialTable C)
    (h : KeepsIdentifiers cfg.mergeFn ∨ NoneClearable T.rows) :
    Inv cfg T.rows (.init T) [] [] T.rows := by
  refine ⟨?_, ?_, ?_, ?_, ?_⟩
  · rw [entriesOf_init]
    refine ⟨List.Perm.refl _, rfl, fun k => rfl, nofun, ?_⟩
    rcases h with h | h
    · exact Or.inl h
    · refine Or.inr fun k e he hcl => ?_
      rw [h k e he] at hcl
      cases hcl
  · intro t x hx
    cases hx
  · intro k t v hv
    cases hv
  · intro k row hrow
    obtain ⟨e, he, -⟩ := Option.map_eq_some_iff.mp hrow
    exact T.complete k e he
  · intro k t row hrow
    cases hrow

theorem inv_step {e : Ev C} (h : ∃ base tail mid, Inv cfg first s base tail mid)
    (hs : step cfg s e = some s') : ∃ base tail mid, Inv cfg first s' base tail mid := by
  obtain ⟨base, tail, mid, h⟩ := h
  unfold step at hs
  split at hs
  · next t call =>
    split at hs
    · next ht =>
      cases hs
      exact ⟨base, tail, mid, h.begin ht⟩
    · cases hs
  all_goals
    obtain ⟨x, hx, hs⟩ := Option.bind_eq_some_iff.mp hs
  · exact ⟨base, tail, mid, h.lockStep hx hs⟩
  · exact ⟨base, tail, mid, h.selectStep hx hs⟩
  · exact ⟨base, tail, mid, h.upsertStep hx hs⟩
  · split at hs
    · next hst =>
      cases hs
      exact ⟨base, tail, mid, h.startDelete hx hst⟩
    · cases hs
  · exact ⟨base, tail, mid, h.deleteStep hx hs⟩
  · split at hs
    · next hst =>
      cases hs
      exact ⟨base, tail, mid, h.endDelete hx hst⟩
    · cases hs
  · split at hs
    · next hst =>
      cases hs
      exact h.commit hx hst
    · cases hs
  · cases hs
    exact ⟨base, tail, mid, h.rollback x⟩

/-- **The calls are serializable.** -/
theorem history_serializable (cfg : Config C) (T : InitialTable C)
    (hT : KeepsIdentifiers cfg.mergeFn ∨ NoneClearable T.rows) (es : List (Ev C)) (s : ThsState C)
    (hrun : run (step cfg) es (.init T) = some s) :
    ∃ order : List (Call C), order.Perm s.log ∧ serial cfg order T.rows = some (entriesOf s) ∧
      ∀ P : HistoryEntry C → Prop,
        (∀ old new merged, cfg.mergeFn old new = some merged → P old ∨ P new → P merged) →
        ∀ call ∈ s.log, P call.entry →
          (∃ row, s.rows.committed call.key = some row ∧ P row.entry) ∨
          ∃ e, P e ∧ ClearedIn cfg order T.rows call.key e := by
  obtain ⟨base, tail, mid, h⟩ :=
    run_inv (I := fun s => ∃ base tail mid, Inv cfg T.rows s base tail mid)
      (fun _ _ _ h hs => inv_step h hs) es _ s ⟨[], [], T.rows, inv_init T hT⟩ hrun
  refine ⟨base ++ tail, h.placed.perm, h.placed.serial_eq, fun P hP call hc hPc => ?_⟩
  rcases serial_keeps hP (base ++ tail) _ h.placed.serial_eq call (h.placed.perm.mem_iff.mpr hc) hPc
    with ⟨e, he, hPe⟩ | hcl
  · obtain ⟨row, hrow, rfl⟩ := Option.map_eq_some_iff.mp he
    exact Or.inl ⟨row, hrow, hPe⟩
  · exact Or.inr hcl

/-! ### Three calls

On the wallet `w`, whose hash `3` is pending with the identifier `a` and whose hash `4` is pending
with the identifier `c`: the first call finalizes `1` with `a`, `b`, the second writes `4` again as
pending with `a`, the third finalizes `3` with `c`. The `DELETE` of the first waits for the row `3`,
which the third has written. -/

/-- `hashtext` on `w:1`, `w:3` and `w:4`. -/
def hashtextOfW (text : JsString) : ℤ :=
  if text = [119, 58, 49] then 1532023862
  else if text = [119, 58, 51] then 1304578085 else 95692444

def pendingPair : InitialTable ℕ where
  rows k :=
    if k = ([119], [51]) then some ⟨[51], [[97]], .pending, 10⟩
    else if k = ([119], [52]) then some ⟨[52], [[99]], .pending, 10⟩ else none
  keys := [([119], [51]), ([119], [52])]
  complete k e h := by
    split at h
    · next hk => simp [hk]
    · split at h
      · next hk => simp [hk]
      · cases h

def finalizeOne : Call ℕ := ⟨[119], ⟨[49], [[97], [98]], .finalized, 1⟩⟩

def rewriteFour : Call ℕ := ⟨[119], ⟨[52], [[97]], .pending, 1⟩⟩

def finalizeThree : Call ℕ := ⟨[119], ⟨[51], [[99]], .finalized, 1⟩⟩

/-- The upserts of the three calls, and the `DELETE` of the first up to its wait. -/
def upserts : List (Ev ℕ) :=
  [.begin 0 finalizeOne, .lock 0, .select 0, .upsert 0,
    .begin 1 rewriteFour, .lock 1, .select 1, .upsert 1,
    .begin 2 finalizeThree, .lock 2, .select 2, .upsert 2, .startDelete 0]

/-- A merge function that has the identifiers of both entries. -/
def unionMerge : Config ℕ where
  valid _ := true
  mergeFn old new := some { new with
    identifiers := old.identifiers ++ new.identifiers, content := old.content + new.content }
  hashtext := hashtextOfW

theorem keepsIdentifiers_unionMerge : KeepsIdentifiers unionMerge.mergeFn := by
  intro old new merged h _ _
  cases h
  exact List.subset_append_left _ _

/-- The second call commits, the third clears its row, and the first finds the row `3`
finalized. -/
def waitedDelete : List (Ev ℕ) :=
  upserts ++ [.commit 1, .startDelete 2, .delete 2 ([119], [52]) none, .endDelete 2, .commit 2,
    .delete 0 ([119], [51]) none, .endDelete 0, .commit 0]

theorem history_serializable_waitedDelete :
    ∃ s, run (step unionMerge) waitedDelete (.init pendingPair) = some s ∧
      s.log = [rewriteFour, finalizeThree, finalizeOne] ∧
      entriesOf s ([119], [51]) = some ⟨[51], [[97], [99]], .finalized, 11⟩ ∧
      entriesOf s ([119], [52]) = none ∧
      ∃ order : List (Call ℕ), order.Perm s.log ∧
        serial unionMerge order pendingPair.rows = some (entriesOf s) := by
  have hlook : (run (step unionMerge) waitedDelete (.init pendingPair)).map (fun s =>
      (s.log, entriesOf s ([119], [51]), entriesOf s ([119], [52]))) =
      some ([rewriteFour, finalizeThree, finalizeOne],
        some ⟨[51], [[97], [99]], .finalized, 11⟩, none) := by decide
  obtain ⟨s, hs, hlook⟩ := Option.map_eq_some_iff.mp hlook
  rw [Prod.mk.injEq, Prod.mk.injEq] at hlook
  obtain ⟨order, hperm, hserial, -⟩ := history_serializable unionMerge pendingPair
    (Or.inl keepsIdentifiers_unionMerge) waitedDelete s hs
  exact ⟨s, hs, hlook.1, hlook.2.1, hlook.2.2, order, hperm, hserial⟩

/-- A merge function that has the identifiers of the new entry only. -/
def replaceMerge : Config ℕ where
  valid _ := true
  mergeFn old new := some { new with content := old.content + new.content }
  hashtext := hashtextOfW

/-- The row of the second call is not cleared by the third any more. -/
def droppedIdentifier : List (Ev ℕ) :=
  upserts ++ [.commit 1, .startDelete 2, .endDelete 2, .commit 2,
    .delete 0 ([119], [51]) none, .endDelete 0, .commit 0]

/-- In each of the orders one of the rows `3`, `4` is cleared before the call that the run has
merged into it, or the row `4` is cleared at the end. -/
theorem replaceMerge_not_serializable :
    ∃ s, run (step replaceMerge) droppedIdentifier (.init pendingPair) = some s ∧
      ∀ order : List (Call ℕ), order.Perm s.log →
        serial replaceMerge order pendingPair.rows ≠ some (entriesOf s) := by
  have hlook : (run (step replaceMerge) droppedIdentifier (.init pendingPair)).map (fun s =>
      (s.log, entriesOf s ([119], [51]), entriesOf s ([119], [52]))) =
      some ([rewriteFour, finalizeThree, finalizeOne],
        some ⟨[51], [[99]], .finalized, 11⟩, some ⟨[52], [[97]], .pending, 11⟩) := by decide
  obtain ⟨s, hs, hlook⟩ := Option.map_eq_some_iff.mp hlook
  rw [Prod.mk.injEq, Prod.mk.injEq] at hlook
  have hall : ∀ order ∈ [rewriteFour, finalizeThree, finalizeOne].permutations',
      (serial replaceMerge order pendingPair.rows).map (fun f =>
        (f ([119], [51]), f ([119], [52]))) ≠
      some (some ⟨[51], [[99]], .finalized, 11⟩, some ⟨[52], [[97]], .pending, 11⟩) := by decide
  refine ⟨s, hs, fun order hperm hserial => ?_⟩
  rw [hlook.1] at hperm
  refine hall order (List.mem_permutations'.mpr hperm) ?_
  rw [hserial, Option.map_some, hlook.2.1, hlook.2.2]

end UmbraDB.Ths.Serial
