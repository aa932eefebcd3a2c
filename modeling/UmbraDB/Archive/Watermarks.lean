import UmbraDB.Archive.Sync
import UmbraDB.Boundary.Calls
import UmbraDB.Lib.Runs
import UmbraDB.Lib.Upserts

/-! # Chain archive: the guard of the watermarks

`setWatermark` and `getWatermark` of the archive, with any keys and values. The update of a row is
guarded: when the stored value and the new one both have a number `height`, the new one must be the
greater. Each call is one statement in a transaction of its own; any number of them interleave at
READ COMMITTED (`exec` waits while another call has the lock of the row, and takes it also when the
guard leaves the value as it is). A call that fails leaves nothing, except that the answer to a
`COMMIT` can be lost.

Numbers of a `jsonb` value are compared as decimals, in the order of the numbers that
`JSON.stringify` has written. The column `updated_at` is left out.

* `Inv` : the rows are folds of the values of the committed calls.
* `rows_cursor` : with only values `{ height }` the rows are those of `Archive.Sync`.
* `watermark_stands` : the value that is read, in every reachable state. -/

namespace UmbraDB.Archive.Watermarks

open UmbraDB.Js.Text UmbraDB.Js.Json UmbraDB.Js.Number UmbraDB.Lib.Trees UmbraDB.Lib.Runs
open UmbraDB.Lib.RowStore UmbraDB.Lib.Upserts UmbraDB.Ths.Codec
open UmbraDB.Boundary.Calls (bindJson safeJson)

/-- `value -> 'height'`, when `jsonb_typeof` calls it a number. -/
def heightOf : JsonValue → Option ℚ
  | .object fields =>
    match fields.get (ascii "height") with
    | some (.leaf (.number (.finite height))) => some height
    | _ => none
  | _ => none

/-- The `WHERE` of the update, for the stored value and the new one. -/
def replaces (stored new : JsonValue) : Bool :=
  match heightOf stored, heightOf new with
  | some height, some height' => height < height'
  | _, _ => true

/-- The value that the server gets. It takes no `NULL`, and no text that it cannot store. -/
def accepted (value : JsonValue) : Bool := (bindJson value).isSome && safeJson value

/-- What the `INSERT … ON CONFLICT DO UPDATE` of a call leaves of a row. -/
def setRow (keyOrder : JsString → JsString → Bool) (row : Option JsonValue) (a : ℕ × JsonValue) :
    Option JsonValue :=
  match row with
  | none => some (jsonbOf keyOrder a.2)
  | some stored =>
    if replaces stored (jsonbOf keyOrder a.2) then some (jsonbOf keyOrder a.2) else some stored

/-- How far a call is; a rejected one can have committed. -/
inductive Phase
  | sent
  | written
  | resolved
  | rejected (committed : Bool)
  deriving DecidableEq

def Phase.committed : Phase → Bool
  | .resolved => true
  | .rejected committed => committed
  | _ => false

/-- A call of `setWatermark`. -/
structure Call where
  key : JsString
  value : JsonValue
  phase : Phase

/-- The rows of the kind `chain_archive`; next to a value stands the call that has set it. -/
structure WatermarkState where
  store : Store ℕ JsString (Option JsonValue) (ℕ × JsonValue)
  calls : ℕ → Option Call

def WatermarkState.init : WatermarkState := ⟨.init none, fun _ => none⟩

inductive Ev
  | set (c : ℕ) (key : JsString) (value : JsonValue)
  | exec (c : ℕ)
  /-- The transaction commits, and the caller gets the answer or an error. -/
  | commit (c : ℕ) (answered : Bool)
  | fail (c : ℕ)

def setPhase (calls : ℕ → Option Call) (c : ℕ) (call : Call) (phase : Phase) : ℕ → Option Call :=
  Function.update calls c (some { call with phase := phase })

/-- The transaction of the call is rolled back. -/
def WatermarkState.reject (s : WatermarkState) (c : ℕ) (call : Call) : WatermarkState :=
  ⟨s.store.rollback c, setPhase s.calls c call (.rejected false)⟩

def step (keyOrder : JsString → JsString → Bool) (s : WatermarkState) :
    Ev → Option WatermarkState
  | .set c key value =>
    match s.calls c with
    | none => some { s with calls := Function.update s.calls c (some ⟨key, value, .sent⟩) }
    | some _ => none
  | .exec c => (s.calls c).bind fun call =>
    if call.phase = .sent then
      match pgText call.key, accepted call.value with
      | some key, true => (s.store.upsert (setRow keyOrder) c key (c, call.value)).map fun store =>
          ⟨store, setPhase s.calls c call .written⟩
      | _, _ => some (s.reject c call)
    else none
  | .commit c answered => (s.calls c).bind fun call =>
    if call.phase = .written then
      some ⟨s.store.commit c,
        setPhase s.calls c call (if answered then .resolved else .rejected true)⟩
    else none
  | .fail c => (s.calls c).bind fun call =>
    if call.phase = .sent ∨ call.phase = .written then some (s.reject c call) else none

/-- `getWatermark`; `none` is the server's error for the key. -/
def getWatermark (s : WatermarkState) (key : JsString) : Option (Option JsonValue) :=
  (pgText key).map s.store.rows.committed

/-! ### One step -/

/-- What a step does. -/
inductive Stepped (keyOrder : JsString → JsString → Bool) (s : WatermarkState) :
    WatermarkState → Prop
  | set {c : ℕ} {key : JsString} {value : JsonValue} (hnone : s.calls c = none) :
      Stepped keyOrder s
        { s with calls := Function.update s.calls c (some ⟨key, value, .sent⟩) }
  | written {c : ℕ} {call : Call} {key : JsString}
      {store : Store ℕ JsString (Option JsonValue) (ℕ × JsonValue)}
      (hcall : s.calls c = some call) (hsent : call.phase = .sent)
      (hkey : pgText call.key = some key)
      (hstore : s.store.upsert (setRow keyOrder) c key (c, call.value) = some store) :
      Stepped keyOrder s ⟨store, setPhase s.calls c call .written⟩
  | committed {c : ℕ} {call : Call} {phase : Phase} (hcall : s.calls c = some call)
      (hwritten : call.phase = .written) (hphase : phase.committed = true) :
      Stepped keyOrder s ⟨s.store.commit c, setPhase s.calls c call phase⟩
  | rejected {c : ℕ} {call : Call} (hcall : s.calls c = some call)
      (hopen : call.phase.committed = false) : Stepped keyOrder s (s.reject c call)

section Step
variable {keyOrder : JsString → JsString → Bool} {s s' : WatermarkState}

theorem stepped_of_step {e : Ev} (h : step keyOrder s e = some s') : Stepped keyOrder s s' := by
  cases e with
  | set c key value =>
    simp only [step] at h
    split at h
    · next hnone =>
      cases h
      exact .set hnone
    · cases h
  | exec c =>
    obtain ⟨call, hcall, h⟩ := Option.bind_eq_some_iff.mp h
    split_ifs at h with hsent
    split at h
    · next key hkey _ =>
      obtain ⟨store, hstore, rfl⟩ := Option.map_eq_some_iff.mp h
      exact .written hcall hsent hkey hstore
    · cases h
      exact .rejected hcall (by rw [hsent]; rfl)
  | commit c answered =>
    obtain ⟨call, hcall, h⟩ := Option.bind_eq_some_iff.mp h
    split_ifs at h with hwritten
    · cases h
      exact .committed hcall hwritten rfl
    · cases h
      exact .committed hcall hwritten rfl
  | fail c =>
    obtain ⟨call, hcall, h⟩ := Option.bind_eq_some_iff.mp h
    split_ifs at h with hopen
    cases h
    refine .rejected hcall ?_
    rcases hopen with hopen | hopen
    · rw [hopen]
      rfl
    · rw [hopen]
      rfl

end Step

/-! ### The invariant -/

/-- The upsert of a call. -/
def upsertOf (c : ℕ) (call : Call) : List (JsString × ℕ × JsonValue) :=
  match pgText call.key with
  | some key => [(key, c, call.value)]
  | none => []

/-- The upsert that a call has made and not committed. -/
def pendingOf (calls : ℕ → Option Call) (c : ℕ) : List (JsString × ℕ × JsonValue) :=
  (calls c).elim [] fun call => if call.phase = .written then upsertOf c call else []

/-- It is the upsert of a call that has committed. -/
def Committed (calls : ℕ → Option Call) (op : JsString × ℕ × JsonValue) : Prop :=
  ∃ call, calls op.2.1 = some call ∧ call.phase.committed = true ∧ op ∈ upsertOf op.2.1 call

structure Inv (keyOrder : JsString → JsString → Bool) (s : WatermarkState) : Prop where
  rows : Lib.Upserts.Inv (setRow keyOrder) none s.store
  pending : s.store.pending = pendingOf s.calls
  log : ∀ op, op ∈ s.store.log ↔ Committed s.calls op
  once : (s.store.log.map (·.2.1)).Nodup

section Invariant
variable {keyOrder : JsString → JsString → Bool} {s s' : WatermarkState}
  {calls : ℕ → Option Call} {c : ℕ} {call new : Call}

theorem upsertOf_eq {key : JsString} (h : pgText call.key = some key) :
    upsertOf c call = [(key, c, call.value)] := by
  rw [upsertOf, h]

theorem id_of_mem {op : JsString × ℕ × JsonValue} (h : op ∈ upsertOf c call) : op.2.1 = c := by
  unfold upsertOf at h
  split at h
  · rw [List.mem_singleton.mp h]
  · cases h

theorem pendingOf_eq (hcall : calls c = some call) :
    pendingOf calls c = if call.phase = .written then upsertOf c call else [] := by
  rw [pendingOf, hcall]
  rfl

theorem pendingOf_update : pendingOf (Function.update calls c (some new)) =
    Function.update (pendingOf calls) c (if new.phase = .written then upsertOf c new else []) := by
  funext c'
  by_cases hc : c' = c
  · subst hc
    rw [Function.update_self, pendingOf_eq (Function.update_self ..)]
  · rw [Function.update_of_ne hc, pendingOf, pendingOf, Function.update_of_ne hc]

/-- A call that has not committed. -/
theorem committed_update (hold : ∀ call, calls c = some call → call.phase.committed = false)
    (hnew : new.phase.committed = false) (op : JsString × ℕ × JsonValue) :
    Committed (Function.update calls c (some new)) op ↔ Committed calls op := by
  by_cases hc : op.2.1 = c
  · constructor
    · rintro ⟨call, hcall, hcom, -⟩
      rw [hc, Function.update_self, Option.some.injEq] at hcall
      rw [← hcall, hnew] at hcom
      cases hcom
    · rintro ⟨call, hcall, hcom, -⟩
      rw [hc] at hcall
      rw [hold call hcall] at hcom
      cases hcom
  · unfold Committed
    rw [Function.update_of_ne hc]

/-- The transaction of the call commits. -/
theorem committed_commit (hcall : calls c = some call) (hold : call.phase.committed = false)
    {phase : Phase} (hnew : phase.committed = true) (op : JsString × ℕ × JsonValue) :
    Committed (setPhase calls c call phase) op ↔ Committed calls op ∨ op ∈ upsertOf c call := by
  by_cases hc : op.2.1 = c
  · constructor
    · rintro ⟨call', hcall', -, hop⟩
      rw [hc, setPhase, Function.update_self, Option.some.injEq] at hcall'
      subst hcall'
      rw [hc] at hop
      exact Or.inr hop
    · rintro (⟨call', hcall', hcom, -⟩ | hop)
      · rw [hc, hcall, Option.some.injEq] at hcall'
        rw [← hcall', hold] at hcom
        cases hcom
      · refine ⟨{ call with phase := phase }, by rw [hc, setPhase, Function.update_self], hnew, ?_⟩
        rw [hc]
        exact hop
  · have hsame : Committed (setPhase calls c call phase) op ↔ Committed calls op := by
      unfold Committed setPhase
      rw [Function.update_of_ne hc]
    rw [hsame, or_iff_left fun hop => hc (id_of_mem hop)]

theorem Inv.init : Inv keyOrder .init where
  rows := Lib.Upserts.Inv.init
  pending := rfl
  log op := by
    constructor
    · intro h
      cases h
    · rintro ⟨call, hcall, -⟩
      cases hcall
  once := List.nodup_nil

theorem Inv.step {e : Ev} (hs : Inv keyOrder s) (h : step keyOrder s e = some s') :
    Inv keyOrder s' := by
  cases stepped_of_step h with
  | @set c key value hnone =>
    refine ⟨hs.rows, ?_, fun op => ?_, hs.once⟩
    · rw [pendingOf_update, if_neg (by simp), ← hs.pending, Function.eq_update_self_iff, hs.pending,
        pendingOf, hnone]
      rfl
    · rw [hs.log, committed_update (fun call hcall => ?_) rfl]
      rw [hnone] at hcall
      cases hcall
  | @written c call key store hcall hsent hkey hstore =>
    obtain ⟨-, rfl⟩ := Lib.Upserts.Inv.upsert_cases hstore
    refine ⟨hs.rows.upsert hstore, ?_, fun op => ?_, hs.once⟩
    · have hown : upsertOf c { call with phase := .written } = [(key, c, call.value)] :=
        upsertOf_eq hkey
      show Function.update s.store.pending c _ = pendingOf (setPhase s.calls c call .written)
      rw [setPhase, pendingOf_update, if_pos rfl, hown, hs.pending, pendingOf_eq hcall,
        if_neg (by rw [hsent]; simp)]
      rfl
    · refine (hs.log op).trans (committed_update (fun call' hcall' => ?_) rfl op).symm
      rw [hcall, Option.some.injEq] at hcall'
      rw [← hcall', hsent]
      rfl
  | @committed c call phase hcall hwritten hphase =>
    have hpending : s.store.pending c = upsertOf c call := by
      rw [hs.pending, pendingOf_eq hcall, if_pos hwritten]
    have hopen : call.phase.committed = false := by rw [hwritten]; rfl
    refine ⟨hs.rows.commit c, ?_, fun op => ?_, ?_⟩
    · show Function.update s.store.pending c [] = pendingOf (setPhase s.calls c call phase)
      rw [setPhase, pendingOf_update, if_neg, hs.pending]
      rintro rfl
      cases hphase
    · show op ∈ s.store.log ++ s.store.pending c ↔ _
      rw [List.mem_append, hpending, hs.log, committed_commit hcall hopen hphase]
    · show ((s.store.log ++ s.store.pending c).map (·.2.1)).Nodup
      rw [List.map_append, hpending]
      refine List.Nodup.append hs.once ?_ fun c' hc' hown => ?_
      · unfold upsertOf
        split <;> simp
      · -- the call has not been committed before
        obtain ⟨op, hop, rfl⟩ := List.mem_map.mp hc'
        obtain ⟨op', hop', hid⟩ := List.mem_map.mp hown
        obtain ⟨call', hcall', hcom, -⟩ := (hs.log op).mp hop
        rw [← hid, id_of_mem hop', hcall, Option.some.injEq] at hcall'
        rw [← hcall', hopen] at hcom
        cases hcom
  | @rejected c call hcall hopen =>
    refine ⟨hs.rows.rollback c, ?_, fun op => ?_, hs.once⟩
    · show Function.update s.store.pending c [] = pendingOf (setPhase s.calls c call _)
      rw [setPhase, pendingOf_update, if_neg (by simp), hs.pending]
    · refine (hs.log op).trans (committed_update (fun call' hcall' => ?_) rfl op).symm
      rw [hcall, Option.some.injEq] at hcall'
      rw [← hcall', hopen]

/-- Committed calls stay, in their order. -/
theorem log_step {e : Ev} (h : step keyOrder s e = some s') : s.store.log <+: s'.store.log := by
  cases stepped_of_step h with
  | set => exact List.prefix_rfl
  | written hcall hsent hkey hstore =>
    obtain ⟨-, rfl⟩ := Lib.Upserts.Inv.upsert_cases hstore
    exact List.prefix_rfl
  | committed => exact List.prefix_append ..
  | rejected => exact List.prefix_rfl

end Invariant

/-! ### What is read -/

/-- The stored forms of the values that are set under a key, in their order. -/
def values (keyOrder : JsString → JsString → Bool) (key : JsString)
    (ops : List (JsString × ℕ × JsonValue)) : List JsonValue :=
  (upsertsOf key ops).map fun a => jsonbOf keyOrder a.2

section Values
variable {keyOrder : JsString → JsString → Bool} {s s' : WatermarkState} {key : JsString}

theorem setRow_eq (row : Option JsonValue) (a : ℕ × JsonValue) :
    setRow keyOrder row a = guarded heightOf row (jsonbOf keyOrder a.2) := by
  rcases row with _ | stored
  · rfl
  · rw [setRow, guarded, Option.bind_some, replaces]
    rcases heightOf stored with _ | height
    · rfl
    rcases heightOf (jsonbOf keyOrder a.2) with _ | height'
    · rfl
    by_cases hlt : height < height'
    · simp only [hlt, decide_true, if_true]
    · simp only [hlt, decide_false, Bool.false_eq_true, if_false]

theorem fold_setRow (ops : List (JsString × ℕ × JsonValue)) :
    fold (setRow keyOrder) none key ops =
      (values keyOrder key ops).foldl (guarded heightOf) none := by
  unfold fold values
  rw [List.foldl_map]
  exact List.foldl_ext _ _ _ fun row a _ => setRow_eq row a

theorem getWatermark_eq (hs : Inv keyOrder s) {k : JsString} (hk : pgText key = some k) :
    getWatermark s key =
      some ((values keyOrder k s.store.log).foldl (guarded heightOf) none) := by
  rw [getWatermark, hk, Option.map_some, hs.rows.committed, fold_setRow]

theorem mem_values {k : JsString} {v : JsonValue} {ops : List (JsString × ℕ × JsonValue)} :
    v ∈ values keyOrder k ops ↔ ∃ c w, (k, c, w) ∈ ops ∧ jsonbOf keyOrder w = v := by
  unfold values
  rw [List.mem_map]
  constructor
  · rintro ⟨⟨c, w⟩, ha, hv⟩
    exact ⟨c, w, mem_upsertsOf.mp ha, hv⟩
  · rintro ⟨c, w, ha, hv⟩
    exact ⟨(c, w), mem_upsertsOf.mpr ha, hv⟩

theorem mem_log (hs : Inv keyOrder s) {k : JsString} {c : ℕ} {v : JsonValue} :
    (k, c, v) ∈ s.store.log ↔ ∃ call, s.calls c = some call ∧ call.phase.committed = true ∧
      pgText call.key = some k ∧ call.value = v := by
  refine (hs.log _).trans
    (exists_congr fun call => and_congr_right fun _ => and_congr_right fun _ => ?_)
  unfold upsertOf
  split
  · next key hkey =>
    rw [List.mem_singleton, hkey]
    constructor
    · intro h
      cases h
      exact ⟨rfl, rfl⟩
    · rintro ⟨hk, rfl⟩
      cases hk
      rfl
  · next hkey =>
    rw [hkey]
    simp

end Values

/-- The value `{ height }` that `syncOnce` sets. -/
def cursorValue (height : ℕ) : JsonValue :=
  .object (.cons (ascii "height") (.leaf (.number (.finite height))) .nil)

theorem setRow_cursor (keyOrder : JsString → JsString → Bool) (watermark : Option ℕ)
    (c height : ℕ) : setRow keyOrder (watermark.map cursorValue) (c, cursorValue height) =
      (Sync.setWatermark watermark height).map cursorValue := by
  have hstored : jsonbOf keyOrder (cursorValue height) = cursorValue height := rfl
  have hheight : heightOf (cursorValue height) = some (height : ℚ) := rfl
  rcases watermark with _ | stored
  · rfl
  · have hrow : (some (cursorValue stored)).bind heightOf = some (stored : ℚ) := rfl
    rw [setRow_eq, hstored, Option.map_some, guarded_of_some hrow hheight, Sync.setWatermark]
    by_cases hlt : stored < height
    · rw [if_pos (Nat.cast_lt.mpr hlt), if_pos hlt]
      rfl
    · rw [if_neg fun h => hlt (Nat.cast_lt.mp h), if_neg hlt]
      rfl

/-- With only such values the rows are those of `Archive.Sync`. -/
theorem rows_cursor (keyOrder : JsString → JsString → Bool) (watermark : Option ℕ)
    (sets : List (ℕ × ℕ)) :
    (sets.map fun p => (p.1, cursorValue p.2)).foldl (setRow keyOrder)
        (watermark.map cursorValue) =
      (sets.foldl (fun w p => Sync.setWatermark w p.2) watermark).map cursorValue := by
  rw [List.foldl_map]
  exact List.foldl_hom (Option.map cursorValue) fun w p => setRow_cursor keyOrder w p.1 p.2

/-- **The watermark that stands.** In every state reached by any interleaving, `getWatermark`
returns the value of a committed call, or nothing if there is none. A value without a height is the
last one that was set; if it has a height, all later values have heights that are not greater, and
those before it have smaller ones, back to one without a height. The committed calls are those that
resolved or lost their answer, each once, and they stay in their order. As long as the values that
are set have heights, the height that is read never goes down. -/
theorem watermark_stands (keyOrder : JsString → JsString → Bool) {es es' : List Ev}
    {s s' : WatermarkState} (h : run (step keyOrder) es .init = some s)
    (h' : run (step keyOrder) es' s = some s') :
    (∀ key k, pgText key = some k → ∃ row, getWatermark s key = some row ∧
      (row = none ↔ values keyOrder k s.store.log = []) ∧
      ∀ v, row = some v → Stands heightOf (values keyOrder k s.store.log) v) ∧
    (∀ k c v, (k, c, v) ∈ s.store.log ↔ ∃ call, s.calls c = some call ∧
      call.phase.committed = true ∧ pgText call.key = some k ∧ call.value = v) ∧
    (s.store.log.map (·.2.1)).Nodup ∧ s.store.log <+: s'.store.log ∧
    ∀ key k v height, pgText key = some k → getWatermark s key = some (some v) →
      heightOf v = some height →
      (∀ c w, (k, c, w) ∈ s'.store.log → (k, c, w) ∉ s.store.log →
        heightOf (jsonbOf keyOrder w) ≠ none) →
      ∃ v' height', getWatermark s' key = some (some v') ∧ heightOf v' = some height' ∧
        height ≤ height' := by
  have hs : Inv keyOrder s := run_inv (fun _ _ _ hI hst => hI.step hst) es _ _ .init h
  have hs' : Inv keyOrder s' ∧ s.store.log <+: s'.store.log :=
    run_inv (I := fun s' => Inv keyOrder s' ∧ s.store.log <+: s'.store.log)
      (fun _ _ _ hI hst => ⟨hI.1.step hst, hI.2.trans (log_step hst)⟩) es' s s'
      ⟨hs, List.prefix_rfl⟩ h'
  refine ⟨fun key k hk => ⟨_, getWatermark_eq hs hk, foldl_guarded_eq_none, fun v hv =>
    stands_foldl hv⟩, fun k c v => mem_log hs, hs.once, hs'.2, ?_⟩
  intro key k v height hk hv hheight hall
  obtain ⟨rest, hrest⟩ := hs'.2
  rw [getWatermark_eq hs hk, Option.some.injEq] at hv
  have hnew : ∀ w ∈ values keyOrder k rest, heightOf w ≠ none := by
    intro w hw
    obtain ⟨c, w, hmem, rfl⟩ := mem_values.mp hw
    refine hall c w (by rw [← hrest]; exact List.mem_append_right _ hmem) fun hold => ?_
    -- a call commits once
    have honce := hs'.1.once
    rw [← hrest, List.map_append] at honce
    exact List.disjoint_of_nodup_append honce (List.mem_map_of_mem hold) (List.mem_map_of_mem hmem)
  have hsplit : values keyOrder k s'.store.log =
      values keyOrder k s.store.log ++ values keyOrder k rest := by
    rw [← hrest, values, upsertsOf_append, List.map_append]
    rfl
  obtain ⟨height', hfold, hle⟩ :=
    foldl_guarded_le (r := some v) (m := heightOf) (h := height) hheight hnew
  obtain ⟨v', hv', hheight'⟩ := Option.bind_eq_some_iff.mp hfold
  refine ⟨v', height', ?_, hheight', hle⟩
  rw [getWatermark_eq hs'.1 hk, hsplit, List.foldl_append, hv, hv']

/-- The cursor of one network. -/
def cursorKey : JsString := ascii "sync_cursor:preprod"

/-- A slow call sets a smaller height and loses its answer; `null` is refused. -/
def slowSync : List Ev :=
  [.set 0 cursorKey (cursorValue 7), .set 1 cursorKey (cursorValue 5), .exec 0, .commit 0 true,
    .exec 1, .commit 1 false, .set 2 cursorKey (.leaf .null), .exec 2]

theorem watermark_stands_slowSync : ∃ s, run (step fun _ _ => true) slowSync .init = some s ∧
    getWatermark s cursorKey = some (some (cursorValue 7)) ∧
    Stands heightOf [cursorValue 7, cursorValue 5] (cursorValue 7) := by
  have hr : ∃ s, run (step fun _ _ => true) slowSync .init = some s := ⟨_, rfl⟩
  obtain ⟨s, hs⟩ := hr
  have hread : getWatermark s cursorKey = some (some (cursorValue 7)) ∧
      values (fun _ _ => true) cursorKey s.store.log = [cursorValue 7, cursorValue 5] := by
    cases hs
    exact ⟨rfl, rfl⟩
  obtain ⟨row, hrow, -, hstands⟩ :=
    (watermark_stands (fun _ _ => true) hs (rfl : run _ [] s = some s)).1 cursorKey cursorKey rfl
  rw [hread.1, Option.some.injEq] at hrow
  have hv := hstands (cursorValue 7) hrow.symm
  rw [hread.2] at hv
  exact ⟨s, hs, hread.1, hv⟩

end UmbraDB.Archive.Watermarks
