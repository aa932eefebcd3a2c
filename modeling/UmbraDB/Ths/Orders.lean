import UmbraDB.Ths.Concurrent
import Mathlib.Data.List.Induction

/-! # Transaction history: the calls one after another

`applyCall` is what a `got*` call does to the entries when no other call runs, and `serial` applies
calls in an order. `Placed` is the bookkeeping behind an order for the calls committed so far: the
calls of `base` come first, in this order; those of `tail` write rows that cannot be cleared at the
end of `base`, so a call that comes between the two leaves them alone. `Placed.commit` finds the
place of one more call. -/

namespace UmbraDB.Ths.Orders

open UmbraDB.Lib.Runs UmbraDB.Ths.Entry UmbraDB.Ths.Concurrent

variable {C : Type}

/-- The entries of the table. -/
abbrev Entries (C : Type) := Key → Option (HistoryEntry C)

/-- A call on its own: the merge and the upsert, then the pending-clear. -/
def applyCall (cfg : Config C) (entries : Entries C) (call : Call C) : Option (Entries C) :=
  match mergeResult cfg.valid cfg.mergeFn (entries call.key) call.entry with
  | .error _ => none
  | .ok result =>
    some fun k =>
      if k = call.key then some result
      else if clearsPending result then (entries k).filter fun e => !clears call result k e
      else entries k

/-- The calls in an order. -/
def serial (cfg : Config C) (calls : List (Call C)) (entries : Entries C) : Option (Entries C) :=
  run (applyCall cfg) calls entries

/-- The merge function keeps the identifiers of a pending entry that stays pending. -/
def KeepsIdentifiers (mergeFn : MergeEntriesFn C) : Prop :=
  ∀ old new merged, mergeFn old new = some merged → old.lifecycle = .pending →
    merged.lifecycle = .pending → old.identifiers ⊆ merged.identifiers

/-! ### Rows a pending-clear can match -/

/-- A pending entry with identifiers: some finalized or rejected call may clear it. -/
def clearable (e : HistoryEntry C) : Bool :=
  e.lifecycle == .pending && decide (0 < e.identifiers.length)

theorem clearable_of_clears {call : Call C} {result e : HistoryEntry C} {k : Key}
    (h : clears call result k e = true) : clearable e = true := by
  unfold clears superseded at h
  unfold clearable
  simp only [Bool.and_eq_true] at h ⊢
  exact ⟨h.2.1.1.2, h.2.1.2⟩

theorem not_clearsPending_of_clearable {e : HistoryEntry C} (h : clearable e = true) :
    clearsPending e = false := by
  unfold clearable at h
  unfold clearsPending
  simp only [Bool.and_eq_true, beq_iff_eq] at h
  simp [h.1]

/-- The rows a call clears are other rows than its own. -/
theorem ne_key_of_clears {call : Call C} {result e : HistoryEntry C} {k : Key}
    (hh : result.hash = call.entry.hash) (h : clears call result k e = true) : k ≠ call.key := by
  rintro rfl
  simp [clears, superseded, Call.key, hh] at h

/-- With fewer identifiers a row is cleared all the more. -/
theorem clears_of_subset {call : Call C} {result e e' : HistoryEntry C} {k : Key}
    (h : clears call result k e' = true) (he : clearable e = true)
    (hsub : e.identifiers ⊆ e'.identifiers) : clears call result k e = true := by
  unfold clears superseded at h ⊢
  unfold clearable at he
  simp only [Bool.and_eq_true, List.all_eq_true] at h he ⊢
  exact ⟨h.1, ⟨⟨h.2.1.1.1, he.1⟩, he.2⟩, fun id hid => h.2.2 id (hsub hid)⟩

/-! ### Calls that clear nothing -/

/-- What a call that clears nothing does to its own row. -/
def rowStep (cfg : Config C) (existing : Option (HistoryEntry C)) (call : Call C) :
    Option (Option (HistoryEntry C)) :=
  match mergeResult cfg.valid cfg.mergeFn existing call.entry with
  | .error _ => none
  | .ok result => if clearsPending result then none else some (some result)

theorem rowStep_eq_some {cfg : Config C} {existing v : Option (HistoryEntry C)} {call : Call C} :
    rowStep cfg existing call = some v ↔
      ∃ result, mergeResult cfg.valid cfg.mergeFn existing call.entry = .ok result ∧
        clearsPending result = false ∧ v = some result := by
  unfold rowStep
  split
  · next h => simp [h]
  · next result h =>
    rw [h]
    by_cases hc : clearsPending result = true
    · simp [hc]
    · simp only [hc, Bool.false_eq_true, if_false, Option.some.injEq, Except.ok.injEq,
        exists_eq_left', true_and]
      exact eq_comm

theorem applyCall_of_rowStep {cfg : Config C} (entries : Entries C) (call : Call C)
    (v : Option (HistoryEntry C)) (h : rowStep cfg (entries call.key) call = some v) :
    applyCall cfg entries call = some (Function.update entries call.key v) := by
  obtain ⟨result, hm, hc, rfl⟩ := rowStep_eq_some.mp h
  unfold applyCall
  rw [hm]
  simp only [Option.some.injEq, hc, Bool.false_eq_true, if_false]
  funext k
  rw [Function.update_apply]

/-- Calls that clear nothing are applied row by row. -/
theorem serial_by_row {cfg : Config C} {calls : List (Call C)} {entries entries' : Entries C}
    (h : ∀ k, run (rowStep cfg) (calls.filter fun c => c.key = k) (entries k) =
      some (entries' k)) : serial cfg calls entries = some entries' :=
  run_by_key (fun f c v hv => applyCall_of_rowStep f c v hv) calls entries entries' h

/-! ### The place of a call -/

/-- An order for the calls of `log`: first `base`, which gives the entries `mid`, then `tail`, whose
rows cannot be cleared in `mid`. -/
structure Placed (cfg : Config C) (first : Entries C) (log : List (Call C)) (entries : Entries C)
    (base tail : List (Call C)) (mid : Entries C) : Prop where
  perm : (base ++ tail).Perm log
  base_eq : serial cfg base first = some mid
  tail_eq : ∀ k, run (rowStep cfg) (tail.filter fun c => c.key = k) (mid k) = some (entries k)
  unclearable : ∀ c ∈ tail, ∀ e, mid c.key = some e → clearable e = false
  keeps : KeepsIdentifiers cfg.mergeFn ∨
    ∀ k e, entries k = some e → clearable e = true → k ∈ tail.map Call.key

/-- A row that can be cleared and was not written by a call of `tail`. -/
structure Standing (entries : Entries C) (tail : List (Call C)) (k : Key) (e : HistoryEntry C) :
    Prop where
  entry : entries k = some e
  clearable : clearable e = true
  not_mem : k ∉ tail.map Call.key

/-- The entries after a call with the result that deletes the rows `del`. -/
def after (entries : Entries C) (call : Call C) (result : HistoryEntry C) (del : Key → Bool) :
    Entries C :=
  fun k => if k = call.key then some result else if del k then none else entries k

variable {cfg : Config C} {first entries entries' mid : Entries C} {log base tail : List (Call C)}

theorem filter_key_of_not_mem {k : Key} (h : k ∉ tail.map Call.key) :
    tail.filter (fun c => c.key = k) = [] := by
  rw [List.filter_eq_nil_iff]
  intro c hc hk
  exact h (List.mem_map.mpr ⟨c, hc, by simpa using hk⟩)

theorem Placed.mid_of_not_mem (h : Placed cfg first log entries base tail mid) {k : Key}
    (hk : k ∉ tail.map Call.key) : mid k = entries k := by
  have := h.tail_eq k
  rw [filter_key_of_not_mem hk] at this
  simpa using this

/-- The order. -/
theorem Placed.serial_eq (h : Placed cfg first log entries base tail mid) :
    serial cfg (base ++ tail) first = some entries := by
  have ht : serial cfg tail mid = some entries := serial_by_row h.tail_eq
  have hb := h.base_eq
  unfold serial at *
  rw [run_append, hb]
  exact ht

theorem merged_of_mergeResult {old entry result : HistoryEntry C}
    (h : mergeResult cfg.valid cfg.mergeFn (some old) entry = .ok result) :
    cfg.mergeFn old entry = some result := by
  unfold mergeResult at h
  simp only at h
  split at h
  · cases h
  · next merged hm =>
    split at h
    · cases h
    · split at h
      · cases h
      · cases h
        exact hm

theorem run_rowStep_snoc {calls : List (Call C)} {v w : Option (HistoryEntry C)} {call : Call C}
    {result : HistoryEntry C} (h : run (rowStep cfg) calls v = some w)
    (hm : mergeResult cfg.valid cfg.mergeFn w call.entry = .ok result)
    (hc : clearsPending result = false) :
    run (rowStep cfg) (calls ++ [call]) v = some (some result) :=
  run_snoc.mpr ⟨w, h, rowStep_eq_some.mpr ⟨result, hm, hc, rfl⟩⟩

/-- A call that leaves a clearable row in the place of one is the last of `base`. -/
theorem Placed.commit_base (h : Placed cfg first log entries base tail mid) {call : Call C}
    {old result : HistoryEntry C}
    (hm : mergeResult cfg.valid cfg.mergeFn (entries call.key) call.entry = .ok result)
    (hr : clearable result = true) (hs : Standing entries tail call.key old) :
    Placed cfg first (log ++ [call]) (Function.update entries call.key (some result))
      (base ++ [call]) tail (Function.update mid call.key (some result)) ∧
    old.identifiers ⊆ result.identifiers := by
  have hmid : mid call.key = entries call.key := h.mid_of_not_mem hs.not_mem
  have hc := not_clearsPending_of_clearable hr
  have hkeeps : KeepsIdentifiers cfg.mergeFn := by
    rcases h.keeps with hk | hk
    · exact hk
    · exact absurd (hk _ _ hs.entry hs.clearable) hs.not_mem
  refine ⟨⟨?_, ?_, ?_, ?_, Or.inl hkeeps⟩, ?_⟩
  · rw [List.append_assoc]
    refine List.Perm.trans ?_ (h.perm.append_right [call])
    rw [List.append_assoc]
    exact List.perm_append_comm.append_left base
  · rw [← hmid] at hm
    have hstep : applyCall cfg mid call = some (Function.update mid call.key (some result)) :=
      applyCall_of_rowStep mid call _ (rowStep_eq_some.mpr ⟨result, hm, hc, rfl⟩)
    exact run_snoc.mpr ⟨mid, h.base_eq, hstep⟩
  · intro k
    by_cases hk : k = call.key
    · subst hk
      rw [filter_key_of_not_mem hs.not_mem]
      simp
    · rw [Function.update_of_ne hk, Function.update_of_ne hk]
      exact h.tail_eq k
  · intro c hct e he
    have hne : c.key ≠ call.key := fun hk => hs.not_mem (hk ▸ List.mem_map_of_mem hct)
    rw [Function.update_of_ne hne] at he
    exact h.unclearable c hct e he
  · have hold := hs.clearable
    unfold Orders.clearable at hold hr
    simp only [Bool.and_eq_true, beq_iff_eq] at hold hr
    rw [hs.entry] at hm
    exact hkeeps old call.entry result (merged_of_mergeResult hm) hold.1 hr.1

/-- A call that leaves a clearable row where there was none is the last of `tail`. -/
theorem Placed.commit_tail (h : Placed cfg first log entries base tail mid) {call : Call C}
    {result : HistoryEntry C}
    (hm : mergeResult cfg.valid cfg.mergeFn (entries call.key) call.entry = .ok result)
    (hr : clearable result = true) (hs : ∀ e, ¬ Standing entries tail call.key e) :
    Placed cfg first (log ++ [call]) (Function.update entries call.key (some result))
      base (tail ++ [call]) mid := by
  have hc := not_clearsPending_of_clearable hr
  refine ⟨?_, h.base_eq, ?_, ?_, ?_⟩
  · rw [← List.append_assoc]
    exact h.perm.append_right [call]
  · intro k
    rw [List.filter_append]
    by_cases hk : k = call.key
    · subst hk
      rw [Function.update_self, List.filter_cons_of_pos (by simp), List.filter_nil]
      exact run_rowStep_snoc (h.tail_eq call.key) hm hc
    · rw [Function.update_of_ne hk, List.filter_cons_of_neg (by simpa using Ne.symm hk),
        List.filter_nil, List.append_nil]
      exact h.tail_eq k
  · intro c hct e he
    rcases List.mem_append.mp hct with hct | hct
    · exact h.unclearable c hct e he
    · rw [List.mem_singleton] at hct
      subst hct
      by_cases hmem : c.key ∈ tail.map Call.key
      · obtain ⟨c', hc', hkey⟩ := List.mem_map.mp hmem
        exact h.unclearable c' hc' e (by rw [hkey]; exact he)
      · rw [h.mid_of_not_mem hmem] at he
        by_contra hcl
        exact hs e ⟨he, by simpa using hcl, hmem⟩
  · rcases h.keeps with hk | hk
    · exact Or.inl hk
    · refine Or.inr fun k e he hcl => ?_
      rw [List.map_append, List.mem_append]
      by_cases hke : k = call.key
      · exact Or.inr (by simp [hke])
      · rw [Function.update_of_ne hke] at he
        exact Or.inl (hk k e he hcl)

/-- The rows a call writes or deletes. -/
def touched (call : Call C) (del : Key → Bool) (k : Key) : Bool := k == call.key || del k

theorem touched_eq_false {call : Call C} {del : Key → Bool} {k : Key} :
    touched call del k = false ↔ k ≠ call.key ∧ del k = false := by
  simp [touched]

theorem after_of_not_touched {call : Call C} {result : HistoryEntry C} {del : Key → Bool} {k : Key}
    (h : touched call del k = false) : after entries call result del k = entries k := by
  obtain ⟨hk, hd⟩ := touched_eq_false.mp h
  simp [after, hk, hd]

theorem touched_of_after {call : Call C} {result e : HistoryEntry C} {del : Key → Bool} {k : Key}
    (hr : clearable result = false) (he : after entries call result del k = some e)
    (hcl : clearable e = true) : touched call del k = false := by
  unfold after at he
  split at he
  · cases he
    rw [hr] at hcl
    cases hcl
  · next hk =>
    split at he
    · cases he
    · next hd => exact touched_eq_false.mpr ⟨hk, by simpa using hd⟩

theorem mem_tail_of_not_touched {call : Call C} {del : Key → Bool} {k : Key}
    (h : touched call del k = false) :
    k ∈ (tail.filter fun c => !touched call del c.key).map Call.key ↔ k ∈ tail.map Call.key := by
  simp only [List.mem_map, List.mem_filter]
  constructor
  · rintro ⟨c, ⟨hc, -⟩, rfl⟩
    exact ⟨c, hc, rfl⟩
  · rintro ⟨c, hc, rfl⟩
    exact ⟨c, ⟨hc, by simp [h]⟩, rfl⟩

/-- The part of the list with keys in a set, seen from one key. -/
theorem filter_filter_key (p : Key → Bool) (k : Key) :
    (tail.filter fun c => p c.key).filter (fun c => c.key = k) =
      if p k then tail.filter fun c => c.key = k else [] := by
  rw [List.filter_filter]
  split
  · next hp =>
    refine List.filter_congr fun c _ => ?_
    by_cases hk : c.key = k
    · simp [hk, hp]
    · simp [hk]
  · next hp =>
    rw [List.filter_eq_nil_iff]
    intro c _ hc
    simp only [Bool.and_eq_true, decide_eq_true_eq] at hc
    rw [hc.1] at hc
    exact hp hc.2

section Clear

variable {call : Call C} {result : HistoryEntry C} {del : Key → Bool}

/-- The deleted rows are cleared by the call, and it clears all rows that were not written by a call
of `tail`. -/
structure Clears (entries : Entries C) (tail : List (Call C)) (call : Call C)
    (result : HistoryEntry C) (del : Key → Bool) : Prop where
  deleted : ∀ k, del k = true → k ≠ call.key ∧ clearsPending result = true ∧
    ∃ e, entries k = some e ∧ clears call result k e = true
  all : clearsPending result = true → ∀ k e, Standing entries tail k e →
    clears call result k e = true → del k = true

/-- The touched rows are brought up to date before the call. -/
theorem Placed.serial_touched (h : Placed cfg first log entries base tail mid) :
    serial cfg (base ++ tail.filter fun c => touched call del c.key) first =
      some fun k => if touched call del k then entries k else mid k := by
  have ht : serial cfg (tail.filter fun c => touched call del c.key) mid =
      some fun k => if touched call del k then entries k else mid k := by
    refine serial_by_row fun k => ?_
    rw [filter_filter_key]
    split
    · exact h.tail_eq k
    · rfl
  have hb := h.base_eq
  unfold serial at *
  rw [run_append, hb]
  exact ht

/-- After the touched rows were brought up to date, the call clears exactly the deleted rows. -/
theorem Placed.applyCall_touched (h : Placed cfg first log entries base tail mid)
    (hm : mergeResult cfg.valid cfg.mergeFn (entries call.key) call.entry = .ok result)
    (hd : Clears entries tail call result del) :
    applyCall cfg (fun k => if touched call del k then entries k else mid k) call =
      some fun k => if touched call del k then after entries call result del k else mid k := by
  have hself : touched call del call.key = true := by simp [touched]
  unfold applyCall
  simp only [hself, if_true, hm, Option.some.injEq]
  funext k
  by_cases hk : k = call.key
  · subst hk
    simp [after, hself]
  · rw [if_neg hk]
    by_cases hdel : del k = true
    · obtain ⟨-, hc, e, he, hcl⟩ := hd.deleted k hdel
      simp [after, touched, hk, hdel, hc, he, hcl]
    · have htouched : touched call del k = false := touched_eq_false.mpr ⟨hk, by simpa using hdel⟩
      simp only [htouched, Bool.false_eq_true, if_false]
      split
      · next hc =>
        rcases hmk : mid k with _ | e
        · rfl
        · -- a row of `tail` cannot be cleared yet, and any other one would have been deleted
          have hncl : clears call result k e = false := by
            by_contra hcl
            rw [Bool.not_eq_false] at hcl
            have hcle := clearable_of_clears hcl
            have hnm : k ∉ tail.map Call.key := by
              intro hmem
              obtain ⟨c, hct, hck⟩ := List.mem_map.mp hmem
              have := h.unclearable c hct e (by rw [hck]; exact hmk)
              rw [hcle] at this
              cases this
            have hek : entries k = some e := by rw [← h.mid_of_not_mem hnm]; exact hmk
            exact hdel (hd.all hc k e ⟨hek, hcle, hnm⟩ hcl)
          simp [hncl]
      · rfl

/-- A call whose row cannot be cleared comes after `base` and the calls of `tail` on the rows it
writes or deletes. -/
theorem Placed.commit_clear (h : Placed cfg first log entries base tail mid)
    (hm : mergeResult cfg.valid cfg.mergeFn (entries call.key) call.entry = .ok result)
    (hr : clearable result = false) (hd : Clears entries tail call result del) :
    Placed cfg first (log ++ [call]) (after entries call result del)
      (base ++ (tail.filter fun c => touched call del c.key) ++ [call])
      (tail.filter fun c => !touched call del c.key)
      (fun k => if touched call del k then after entries call result del k else mid k) := by
  refine ⟨?_, run_snoc.mpr ⟨_, h.serial_touched, h.applyCall_touched hm hd⟩, ?_, ?_, ?_⟩
  · have hf := List.filter_append_perm (fun c : Call C => touched call del c.key) tail
    rw [List.append_assoc, List.append_assoc]
    calc base ++ ((tail.filter fun c => touched call del c.key) ++
            ([call] ++ tail.filter fun c => !touched call del c.key))
        _ |>.Perm (base ++ ((tail.filter fun c => touched call del c.key) ++
            ((tail.filter fun c => !touched call del c.key) ++ [call]))) :=
          (List.perm_append_comm.append_left _).append_left _
        _ |>.Perm (base ++ (tail ++ [call])) := by
          rw [← List.append_assoc (tail.filter _)]
          exact (hf.append_right [call]).append_left base
        _ |>.Perm (log ++ [call]) := by
          rw [← List.append_assoc]
          exact h.perm.append_right [call]
  · intro k
    rw [filter_filter_key fun k => !touched call del k]
    by_cases ht : touched call del k = true
    · simp [ht]
    · rw [Bool.not_eq_true] at ht
      simp only [ht, Bool.not_false, if_true, Bool.false_eq_true, if_false, after_of_not_touched ht]
      exact h.tail_eq k
  · intro c hc e he
    obtain ⟨hct, ht⟩ := List.mem_filter.mp hc
    rw [Bool.not_eq_true'] at ht
    rw [if_neg (by simp [ht])] at he
    exact h.unclearable c hct e he
  · rcases h.keeps with hk | hk
    · exact Or.inl hk
    · refine Or.inr fun k e he hcl => ?_
      have ht : touched call del k = false := touched_of_after hr he hcl
      rw [mem_tail_of_not_touched ht]
      rw [after_of_not_touched ht] at he
      exact hk k e he hcl

theorem after_of_clearable (hr : clearable result = true)
    (hd : Clears entries tail call result del) :
    after entries call result del = Function.update entries call.key (some result) := by
  have hnone : ∀ k, del k = false := by
    intro k
    by_contra hk
    have hc := (hd.deleted k (by simpa using hk)).2.1
    rw [not_clearsPending_of_clearable hr] at hc
    cases hc
  funext k
  simp [after, hnone, Function.update_apply]

/-- **One more call.** The new order has the call in some place, and a standing row was standing
before, with no more identifiers. -/
theorem Placed.commit (h : Placed cfg first log entries base tail mid)
    (hm : mergeResult cfg.valid cfg.mergeFn (entries call.key) call.entry = .ok result)
    (hd : Clears entries tail call result del) :
    ∃ base' tail' mid',
      Placed cfg first (log ++ [call]) (after entries call result del) base' tail' mid' ∧
      ∀ k e', Standing (after entries call result del) tail' k e' →
        ∃ e, Standing entries tail k e ∧ e.identifiers ⊆ e'.identifiers := by
  by_cases hr : clearable result = true
  · rw [after_of_clearable hr hd]
    by_cases hs : ∃ old, Standing entries tail call.key old
    · obtain ⟨old, hs⟩ := hs
      obtain ⟨hp, hsub⟩ := h.commit_base hm hr hs
      refine ⟨_, _, _, hp, fun k e' hs' => ?_⟩
      by_cases hk : k = call.key
      · subst hk
        have he := hs'.entry
        rw [Function.update_self, Option.some.injEq] at he
        exact ⟨old, hs, he ▸ hsub⟩
      · have he := hs'.entry
        rw [Function.update_of_ne hk] at he
        exact ⟨e', ⟨he, hs'.clearable, hs'.not_mem⟩, List.Subset.refl _⟩
    · refine ⟨_, _, _, h.commit_tail hm hr fun e he => hs ⟨e, he⟩, fun k e' hs' => ?_⟩
      have hnm := hs'.not_mem
      rw [List.map_append, List.mem_append, not_or] at hnm
      have he := hs'.entry
      rw [Function.update_of_ne (by simpa using hnm.2)] at he
      exact ⟨e', ⟨he, hs'.clearable, hnm.1⟩, List.Subset.refl _⟩
  · rw [Bool.not_eq_true] at hr
    refine ⟨_, _, _, h.commit_clear hm hr hd, fun k e' hs' => ?_⟩
    have ht := touched_of_after hr hs'.entry hs'.clearable
    have he := hs'.entry
    rw [after_of_not_touched ht] at he
    have hnm := hs'.not_mem
    rw [mem_tail_of_not_touched ht] at hnm
    exact ⟨e', ⟨he, hs'.clearable, hnm⟩, List.Subset.refl _⟩

end Clear

/-! ### What is left of a call -/

/-- A call of the order clears the row `k` when its entry is `e`. -/
def ClearedIn (cfg : Config C) (order : List (Call C)) (first : Entries C) (k : Key)
    (e : HistoryEntry C) : Prop :=
  ∃ before call rest table result, order = before ++ call :: rest ∧
    serial cfg before first = some table ∧ table k = some e ∧
    mergeResult cfg.valid cfg.mergeFn (table call.key) call.entry = .ok result ∧
    clearsPending result = true ∧ clears call result k e = true

theorem ClearedIn.snoc {order : List (Call C)} {k : Key} {e : HistoryEntry C}
    (h : ClearedIn cfg order first k e) (call : Call C) :
    ClearedIn cfg (order ++ [call]) first k e := by
  obtain ⟨before, c, rest, table, result, rfl, hrest⟩ := h
  exact ⟨before, c, rest ++ [call], table, result, by simp, hrest⟩

/-- What merging keeps of both operands, such as a section, is in the row of every call of the
order, or was in it when the row was cleared. -/
theorem serial_keeps {P : HistoryEntry C → Prop}
    (hP : ∀ old new merged, cfg.mergeFn old new = some merged → P old ∨ P new → P merged)
    (order : List (Call C)) : ∀ last, serial cfg order first = some last →
      ∀ c ∈ order, P c.entry →
        (∃ e, last c.key = some e ∧ P e) ∨ ∃ e, P e ∧ ClearedIn cfg order first c.key e := by
  induction order using List.reverseRecOn with
  | nil => simp
  | append_singleton order call ih =>
    intro last hlast c hc hPc
    obtain ⟨table, htable, hstep⟩ := run_snoc.mp hlast
    unfold applyCall at hstep
    split at hstep
    · cases hstep
    · next result hm =>
      rw [Option.some.injEq] at hstep
      subst hstep
      have hres : P call.entry ∨ (∃ e, table call.key = some e ∧ P e) → P result := by
        rcases hk : table call.key with _ | old
        · rw [hk] at hm
          simp only [mergeResult, Except.ok.injEq] at hm
          simp [hm]
        · rw [hk] at hm
          have hmf := merged_of_mergeResult hm
          rintro (hn | ⟨e, he, ho⟩)
          · exact hP _ _ _ hmf (Or.inr hn)
          · cases he
            exact hP _ _ _ hmf (Or.inl ho)
      rcases List.mem_append.mp hc with hc | hc
      · rcases ih table htable c hc hPc with ⟨e, he, hPe⟩ | ⟨e, hPe, hcl⟩
        · by_cases hk : c.key = call.key
          · exact Or.inl ⟨result, by simp [hk], hres (Or.inr ⟨e, by rw [← hk]; exact he, hPe⟩)⟩
          · simp only [hk, if_false]
            split
            · next hcp =>
              by_cases hcl : clears call result c.key e = true
              · exact Or.inr ⟨e, hPe, order, call, [], table, result, rfl, htable, he, hm, hcp, hcl⟩
              · exact Or.inl ⟨e, by simp [he, hcl], hPe⟩
            · exact Or.inl ⟨e, he, hPe⟩
        · exact Or.inr ⟨e, hPe, hcl.snoc call⟩
      · rw [List.mem_singleton] at hc
        subst hc
        exact Or.inl ⟨result, by simp, hres (Or.inl hPc)⟩

end UmbraDB.Ths.Orders
