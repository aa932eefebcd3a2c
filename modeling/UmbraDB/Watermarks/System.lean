import UmbraDB.Boundary.Calls
import UmbraDB.Lib.Runs
import UmbraDB.Lib.Upserts

/-! # Watermarks: interleaved sets and gets

`PgWatermarks.set` and `PgWatermarks.get`, called any number of times in any number of transactions
whose statements are interleaved in any way. A call without `opts.tx` is one in a transaction of its
own. A connection runs the statements that are sent on it in their order (`queue`).

A call looks up its transaction, checks its value and its signal, and sends its one statement
(`call`); the statement runs when the connection comes to it and, for a set, the lock of the row is
free (`exec`). Any statement can fail for a reason of the server's own (`fault`): a deadlock, a
timeout, a lost connection. An error of a statement leaves the transaction `failed`: it can only be
rolled back.

`kind` and `key` are not checked. They are bound as `text`, so NUL is an error of the server and an
unpaired surrogate becomes U+FFFD (`storedKey`).

* `Inv` : the rows are folds of the sets, and the sets are those of the calls that resolved.
* `watermarks_linearizable` : what every `get` of every run returns. -/

namespace UmbraDB.Watermarks.System

open UmbraDB.Js.Text UmbraDB.Js.Json UmbraDB.Js.Number UmbraDB.Lib.Trees UmbraDB.Lib.Runs
open UmbraDB.Lib.RowStore UmbraDB.Lib.Upserts
open UmbraDB.Ckpt.System (WatermarkKey)
open UmbraDB.Ths.Content UmbraDB.Ths.Codec
open UmbraDB.Boundary.Calls (ValidationError require bindJson jsonValueOk)

/-- The primary key of the row, as the server reads the two parameters. -/
def storedKey (key : WatermarkKey) : Option WatermarkKey :=
  (pgText key.kind).bind fun kind => (pgText key.key).map fun key => ⟨kind, key⟩

inductive Op
  | set (key : WatermarkKey) (value : JsonValue)
  | get (key : WatermarkKey)

def Op.key : Op → WatermarkKey
  | .set key _ => key
  | .get key => key

/-- What `set` and `get` check of their arguments. -/
def Op.validate : Op → Except ValidationError Unit
  | .set _ value => do
    require (bindJson value).isSome "PgWatermarks.set value must not be a top-level null"
    require (jsonValueOk value) "PgWatermarks.set value"
  | .get _ => .ok ()

inductive CallError
  /-- `TransactionHandleInvalidError`. -/
  | handleInvalid
  | validation (err : ValidationError)
  /-- `AbortError`. -/
  | aborted
  /-- The translated error of the statement. -/
  | server
  deriving DecidableEq

/-- How far a call is. `resolved`, `returned` and `rejected` are its results. -/
inductive Phase
  | executing
  | resolved
  | returned (value : Option JsonValue)
  | rejected (err : CallError)

structure Call where
  tx : ℕ
  op : Op
  phase : Phase

inductive Status
  | idle
  | active
  | failed
  | committed
  | rolledBack
  deriving DecidableEq

/-- The handle of the transaction is registered. -/
def Status.live : Status → Bool
  | .active => true
  | .failed => true
  | _ => false

/-- A transaction, and the calls whose statements its connection has not run yet. -/
structure Tx where
  status : Status
  queue : List ℕ
  deriving DecidableEq

/-- The rows of `watermarks`; next to a value stands the call that set it. -/
abbrev Rows := Store ℕ WatermarkKey (Option JsonValue) (ℕ × JsonValue)

structure WmState where
  store : Rows
  txs : ℕ → Tx
  calls : ℕ → Option Call

def WmState.init : WmState := ⟨.init none, fun _ => ⟨.idle, []⟩, fun _ => none⟩

inductive Ev
  | begin (t : ℕ)
  | call (c t : ℕ) (op : Op) (aborted : Bool)
  /-- The connection of `t` runs its next statement. -/
  | exec (t : ℕ)
  | fault (t : ℕ)
  | commit (t : ℕ)
  | rollback (t : ℕ)

def WmState.setTx (s : WmState) (t : ℕ) (x : Tx) : WmState :=
  { s with txs := Function.update s.txs t x }

def WmState.setCall (s : WmState) (c : ℕ) (call : Call) : WmState :=
  { s with calls := Function.update s.calls c (some call) }

/-- The call up to its statement. -/
def check (live : Bool) (op : Op) (aborted : Bool) : Except CallError Unit :=
  if live = false then .error .handleInvalid
  else
    match op.validate with
    | .error err => .error (.validation err)
    | .ok () => if aborted then .error .aborted else .ok ()

def callStep (s : WmState) (c t : ℕ) (op : Op) (aborted : Bool) : WmState :=
  let x := s.txs t
  match check x.status.live op aborted with
  | .error err => s.setCall c ⟨t, op, .rejected err⟩
  | .ok () => (s.setCall c ⟨t, op, .executing⟩).setTx t { x with queue := x.queue ++ [c] }

/-- The statement of `c` fails, and the transaction with it. -/
def failStep (s : WmState) (t c : ℕ) (queue : List ℕ) (op : Op) : WmState :=
  (s.setCall c ⟨t, op, .rejected .server⟩).setTx t ⟨.failed, queue⟩

/-- What the `INSERT … ON CONFLICT DO UPDATE` of a call leaves of a row. -/
def applySet (keyOrder : JsString → JsString → Bool) (_ : Option JsonValue) (a : ℕ × JsonValue) :
    Option JsonValue :=
  some (jsonbOf keyOrder a.2)

/-- The statement of `c`, the next one of the connection, runs. -/
def execStep (keyOrder : JsString → JsString → Bool) (s : WmState) (t c : ℕ) (queue : List ℕ)
    (op : Op) : Option WmState :=
  if (s.txs t).status = .active then
    match storedKey op.key, op with
    | none, _ => some (failStep s t c queue op)
    | some k, .set _ value =>
      (s.store.upsert (applySet keyOrder) t k (c, value)).map fun store =>
        { (s.setCall c ⟨t, op, .resolved⟩).setTx t ⟨.active, queue⟩ with store }
    | some k, .get _ =>
      some ((s.setCall c ⟨t, op, .returned (s.store.rows.view t k)⟩).setTx t ⟨.active, queue⟩)
  else some (failStep s t c queue op)

/-- The next statement of the connection, if there is one. -/
def runNext (s : WmState) (t : ℕ) (f : ℕ → List ℕ → Op → Option WmState) : Option WmState :=
  match (s.txs t).queue with
  | [] => none
  | c :: queue => (s.calls c).bind fun call => f c queue call.op

def step (keyOrder : JsString → JsString → Bool) (s : WmState) : Ev → Option WmState
  | .begin t =>
    if (s.txs t).status = .idle then some (s.setTx t ⟨.active, []⟩) else none
  | .call c t op aborted =>
    match s.calls c with
    | none => some (callStep s c t op aborted)
    | some _ => none
  | .exec t => runNext s t (execStep keyOrder s t)
  | .fault t => runNext s t fun c queue op => some (failStep s t c queue op)
  | .commit t =>
    if (s.txs t).status = .active ∧ (s.txs t).queue = [] then
      some { s.setTx t ⟨.committed, []⟩ with store := s.store.commit t }
    else none
  | .rollback t =>
    if (s.txs t).status.live = true ∧ (s.txs t).queue = [] then
      some { s.setTx t ⟨.rolledBack, []⟩ with store := s.store.rollback t }
    else none

/-! ### Queues -/

/-- The calls in the queue of a transaction are executing. -/
structure QueueOk (calls : ℕ → Option Call) (t : ℕ) (x : Tx) : Prop where
  executing : ∀ c ∈ x.queue, ∃ op, calls c = some ⟨t, op, .executing⟩ ∧ op.validate = .ok ()
  nodup : x.queue.Nodup
  live : x.queue ≠ [] → x.status.live = true

theorem QueueOk.nil (calls : ℕ → Option Call) (t : ℕ) (status : Status) :
    QueueOk calls t ⟨status, []⟩ :=
  ⟨fun _ h => (by cases h), List.nodup_nil, fun h => absurd rfl h⟩

/-- A call that is in none of the queues, or no longer, can change. -/
theorem QueueOk.update {calls : ℕ → Option Call} {t c : ℕ} {x : Tx} (h : QueueOk calls t x)
    (hc : c ∉ x.queue) (call : Call) : QueueOk (Function.update calls c (some call)) t x := by
  refine ⟨fun c' hc' => ?_, h.nodup, h.live⟩
  have hne : c' ≠ c := by
    rintro rfl
    exact hc hc'
  rw [Function.update_of_ne hne]
  exact h.executing c' hc'

def Queues (s : WmState) : Prop := ∀ t, QueueOk s.calls t (s.txs t)

namespace Queues

variable {s : WmState}

theorem init : Queues .init := fun t => QueueOk.nil _ t _

/-- A call is in the queue of its own transaction only. -/
theorem not_mem (hq : Queues s) {c t t' : ℕ} {op : Op} {phase : Phase}
    (hc : s.calls c = some ⟨t, op, phase⟩) (hne : t' ≠ t) : c ∉ (s.txs t').queue := by
  intro hmem
  obtain ⟨op', hop, -⟩ := (hq t').executing c hmem
  rw [hc] at hop
  cases hop
  exact hne rfl

theorem fresh (hq : Queues s) {c : ℕ} (hc : s.calls c = none) (t : ℕ) : c ∉ (s.txs t).queue := by
  intro hmem
  obtain ⟨op, hop, -⟩ := (hq t).executing c hmem
  rw [hc] at hop
  cases hop

/-- A transaction begins or ends. -/
theorem cleared (hq : Queues s) (t : ℕ) (status : Status) : Queues (s.setTx t ⟨status, []⟩) :=
  (Function.forall_update_iff s.txs fun t x => QueueOk s.calls t x).mpr
    ⟨QueueOk.nil _ t status, fun t' _ => hq t'⟩

theorem rejected (hq : Queues s) {c : ℕ} (call : Call) (hc : s.calls c = none) :
    Queues (s.setCall c call) :=
  fun t => (hq t).update (hq.fresh hc t) call

theorem sent (hq : Queues s) {c t : ℕ} {op : Op} (hc : s.calls c = none)
    (hl : (s.txs t).status.live = true) (hv : op.validate = .ok ()) :
    Queues ((s.setCall c ⟨t, op, .executing⟩).setTx t
      ⟨(s.txs t).status, (s.txs t).queue ++ [c]⟩) := by
  have hold := hq.rejected ⟨t, op, .executing⟩ hc
  refine (Function.forall_update_iff s.txs fun t x => QueueOk _ t x).mpr
    ⟨⟨fun c' hc' => ?_, ?_, fun _ => hl⟩, fun t' _ => hold t'⟩
  · rcases List.mem_append.mp hc' with hc' | hc'
    · exact (hold t).executing c' hc'
    · obtain rfl := List.mem_singleton.mp hc'
      exact ⟨op, Function.update_self _ _ _, hv⟩
  · refine List.nodup_append.mpr ⟨(hq t).nodup, List.nodup_singleton c, fun a ha b hb hab => ?_⟩
    rw [List.mem_singleton] at hb
    exact hq.fresh hc t (by rwa [← hb, ← hab])

/-- The statement of the next call has run. -/
theorem pop (hq : Queues s) {t c : ℕ} {queue : List ℕ} {op : Op} {status : Status} {phase : Phase}
    (hqueue : (s.txs t).queue = c :: queue) (hc : s.calls c = some ⟨t, op, phase⟩)
    (hl : status.live = true) (call : Call) :
    Queues ((s.setCall c call).setTx t ⟨status, queue⟩) := by
  obtain ⟨hnot, hnd⟩ : c ∉ queue ∧ queue.Nodup := by
    have := (hq t).nodup
    rw [hqueue] at this
    exact List.nodup_cons.mp this
  have hrest : QueueOk s.calls t ⟨status, queue⟩ :=
    ⟨fun c' hc' => (hq t).executing c' (by rw [hqueue]; exact List.mem_cons_of_mem _ hc'), hnd,
      fun _ => hl⟩
  exact (Function.forall_update_iff s.txs fun t x => QueueOk _ t x).mpr
    ⟨hrest.update hnot call, fun t' ht => (hq t').update (hq.not_mem hc ht) call⟩

end Queues

/-! ### Sets -/

/-- `c` is a set of `t` that resolved, of the row `k`. -/
def Resolved (calls : ℕ → Option Call) (c t : ℕ) (k : WatermarkKey) (v : JsonValue) : Prop :=
  ∃ key, calls c = some ⟨t, .set key v, .resolved⟩ ∧ storedKey key = some k

/-- The calls of a list of sets. -/
def callsOf (ops : List (WatermarkKey × ℕ × JsonValue)) : List ℕ := ops.map (·.2.1)

/-- The sets that are committed, or would be, are those that resolved. -/
structure Sets (keyOrder : JsString → JsString → Bool) (s : WmState) : Prop where
  rows : Lib.Upserts.Inv (applySet keyOrder) none s.store
  log : ∀ k c v, (k, c, v) ∈ s.store.log ↔
    ∃ t, Resolved s.calls c t k v ∧ (s.txs t).status = .committed
  pending : ∀ t k c v, (k, c, v) ∈ s.store.pending t ↔
    Resolved s.calls c t k v ∧ (s.txs t).status.live = true
  begun : ∀ c t k v, Resolved s.calls c t k v → (s.txs t).status ≠ .idle
  log_once : (callsOf s.store.log).Nodup
  pending_once : ∀ t, (callsOf (s.store.pending t)).Nodup
  valid : ∀ c t k v, Resolved s.calls c t k v → bindJson v ≠ none ∧ jsonValueOk v = true

section Resolved
variable {calls : ℕ → Option Call} {c c' t t' : ℕ} {k k' : WatermarkKey} {v v' : JsonValue}

theorem Resolved.tx_eq (h : Resolved calls c t k v) (h' : Resolved calls c t' k' v') : t = t' := by
  obtain ⟨_, hc, -⟩ := h
  obtain ⟨_, hc', -⟩ := h'
  rw [hc] at hc'
  cases hc'
  rfl

/-- A call that had not resolved, and has not. -/
theorem resolved_update {call : Call} (hold : ∀ t k v, ¬ Resolved calls c t k v)
    (hnew : call.phase ≠ .resolved) :
    Resolved (Function.update calls c (some call)) c' t k v ↔ Resolved calls c' t k v := by
  unfold Resolved
  by_cases he : c' = c
  · subst he
    rw [Function.update_self]
    constructor
    · rintro ⟨key, hc, -⟩
      cases hc
      exact absurd rfl hnew
    · rintro ⟨key, hc, hk⟩
      exact absurd ⟨key, hc, hk⟩ (hold t k v)
  · rw [Function.update_of_ne he]

/-- A set that resolves. -/
theorem resolved_update_set {key : WatermarkKey} (hold : ∀ t k v, ¬ Resolved calls c t k v)
    (hk : storedKey key = some k) :
    Resolved (Function.update calls c (some ⟨t, .set key v, .resolved⟩)) c' t' k' v' ↔
      Resolved calls c' t' k' v' ∨ c' = c ∧ t' = t ∧ k' = k ∧ v' = v := by
  by_cases he : c' = c
  · subst he
    constructor
    · rintro ⟨key', hc, hk'⟩
      rw [Function.update_self] at hc
      cases hc
      rw [hk] at hk'
      cases hk'
      exact Or.inr ⟨rfl, rfl, rfl, rfl⟩
    · rintro (h | ⟨-, rfl, rfl, rfl⟩)
      · exact absurd h (hold t' k' v')
      · exact ⟨key, Function.update_self _ _ _, hk⟩
  · unfold Resolved
    rw [Function.update_of_ne he]
    constructor
    · exact Or.inl
    · rintro (h | ⟨h, -⟩)
      · exact h
      · exact absurd h he

/-- Only a set that has run has resolved. -/
theorem not_resolved_of_phase {op : Op} {phase : Phase} (hc : calls c = some ⟨t', op, phase⟩)
    (hp : phase ≠ .resolved) : ∀ t k v, ¬ Resolved calls c t k v := by
  rintro t k v ⟨key, hc', -⟩
  rw [hc] at hc'
  cases hc'
  exact hp rfl

theorem not_resolved_of_none (hc : calls c = none) : ∀ t k v, ¬ Resolved calls c t k v := by
  rintro t k v ⟨key, hc', -⟩
  rw [hc] at hc'
  cases hc'

end Resolved

theorem callsOf_append (ops ops' : List (WatermarkKey × ℕ × JsonValue)) :
    callsOf (ops ++ ops') = callsOf ops ++ callsOf ops' :=
  List.map_append

theorem mem_callsOf {c : ℕ} {ops : List (WatermarkKey × ℕ × JsonValue)} :
    c ∈ callsOf ops ↔ ∃ k v, (k, c, v) ∈ ops := by
  constructor
  · intro h
    obtain ⟨⟨k, c', v⟩, hm, rfl⟩ := List.mem_map.mp h
    exact ⟨k, v, hm⟩
  · rintro ⟨k, v, hm⟩
    exact List.mem_map.mpr ⟨_, hm, rfl⟩

namespace Sets

variable {keyOrder : JsString → JsString → Bool} {s : WmState}

theorem init : Sets keyOrder .init where
  rows := .init
  log k c v := by
    refine ⟨fun h => (by cases h), ?_⟩
    rintro ⟨t, ⟨key, hc, -⟩, -⟩
    cases hc
  pending t k c v := by
    refine ⟨fun h => (by cases h), ?_⟩
    rintro ⟨⟨key, hc, -⟩, -⟩
    cases hc
  begun _ _ _ _ h := by
    obtain ⟨key, hc, -⟩ := h
    cases hc
  log_once := List.nodup_nil
  pending_once _ := List.nodup_nil
  valid _ _ _ _ h := by
    obtain ⟨key, hc, -⟩ := h
    cases hc

/-- Neither a row nor a set that resolved changes, and no transaction that has any begins or ends. -/
theorem quiet (hs : Sets keyOrder s) {s' : WmState} (hstore : s'.store = s.store)
    (hres : ∀ c t k v, Resolved s'.calls c t k v ↔ Resolved s.calls c t k v)
    (hst : ∀ t, (s'.txs t).status = (s.txs t).status ∨
      (s.txs t).status.live = true ∧ (s'.txs t).status.live = true) : Sets keyOrder s' := by
  have hcommitted : ∀ t, (s'.txs t).status = .committed ↔ (s.txs t).status = .committed := by
    intro t
    rcases hst t with h | ⟨h, h'⟩
    · rw [h]
    · constructor
      · intro hc
        rw [hc] at h'
        cases h'
      · intro hc
        rw [hc] at h
        cases h
  have hlive : ∀ t, (s'.txs t).status.live = (s.txs t).status.live := by
    intro t
    rcases hst t with h | ⟨h, h'⟩
    · rw [h]
    · rw [h, h']
  refine ⟨hstore ▸ hs.rows, fun k c v => ?_, fun t k c v => ?_, fun c t k v h hidle => ?_,
    hstore ▸ hs.log_once, hstore ▸ hs.pending_once, fun c t k v h => ?_⟩
  · rw [hstore, hs.log]
    simp only [hres, hcommitted]
  · rw [hstore, hs.pending, hres, hlive]
  · rw [hres] at h
    rcases hst t with h' | ⟨-, h'⟩
    · exact hs.begun c t k v h (h'.symm.trans hidle)
    · rw [hidle] at h'
      cases h'
  · exact hs.valid c t k v ((hres c t k v).mp h)

theorem begin (hs : Sets keyOrder s) {t : ℕ} (hidle : (s.txs t).status = .idle) :
    Sets keyOrder (s.setTx t ⟨.active, []⟩) := by
  have hnone : ∀ c k v, ¬ Resolved s.calls c t k v := fun c k v h => hs.begun c t k v h hidle
  have hne : ∀ {c t' k v}, Resolved s.calls c t' k v → t' ≠ t := by
    rintro c t' k v h rfl
    exact hnone c k v h
  have hst : ∀ {t'}, t' ≠ t → (s.setTx t ⟨.active, []⟩).txs t' = s.txs t' := fun h =>
    Function.update_of_ne h _ _
  refine ⟨hs.rows, fun k c v => ?_, fun t' k c v => ?_, fun c t' k v h => ?_, hs.log_once,
    hs.pending_once, hs.valid⟩
  · rw [show (s.setTx t ⟨.active, []⟩).store = s.store from rfl, hs.log]
    constructor
    · rintro ⟨t', h, hc⟩
      exact ⟨t', h, by rw [hst (hne h), hc]⟩
    · rintro ⟨t', h, hc⟩
      exact ⟨t', h, by rw [← hst (hne h), hc]⟩
  · rw [show (s.setTx t ⟨.active, []⟩).store = s.store from rfl, hs.pending]
    constructor
    · rintro ⟨h, hl⟩
      exact ⟨h, by rw [hst (hne h), hl]⟩
    · rintro ⟨h, hl⟩
      exact ⟨h, by rw [← hst (hne h), hl]⟩
  · rw [hst (hne h)]
    exact hs.begun c t' k v h

/-- A set resolves. -/
theorem set (hs : Sets keyOrder s) {t c : ℕ} {key k : WatermarkKey} {v : JsonValue}
    {queue : List ℕ} {store : Rows} (hc : s.calls c = some ⟨t, .set key v, .executing⟩)
    (hvalid : bindJson v ≠ none ∧ jsonValueOk v = true) (hact : (s.txs t).status = .active)
    (hk : storedKey key = some k)
    (hu : s.store.upsert (applySet keyOrder) t k (c, v) = some store) :
    Sets keyOrder { (s.setCall c ⟨t, .set key v, .resolved⟩).setTx t ⟨.active, queue⟩ with
      store } := by
  have hold := not_resolved_of_phase hc (by simp)
  have hres : ∀ {c' t' k' v'}, Resolved (Function.update s.calls c (some ⟨t, .set key v, .resolved⟩))
      c' t' k' v' ↔ Resolved s.calls c' t' k' v' ∨ c' = c ∧ t' = t ∧ k' = k ∧ v' = v :=
    resolved_update_set hold hk
  have hst : ∀ t', (Function.update s.txs t ⟨.active, queue⟩ t').status = (s.txs t').status := by
    intro t'
    by_cases ht : t' = t
    · subst ht
      rw [Function.update_self, hact]
    · rw [Function.update_of_ne ht]
  have hfresh : c ∉ callsOf (s.store.pending t) := by
    intro hmem
    obtain ⟨k', v', hm⟩ := mem_callsOf.mp hmem
    exact hold t k' v' ((hs.pending t k' c v').mp hm).1
  have hrows := hs.rows.upsert hu
  obtain ⟨-, rfl⟩ := Lib.Upserts.Inv.upsert_cases hu
  refine ⟨hrows, fun k' c' v' => ?_, fun t' k' c' v' => ?_, fun c' t' k' v' h => ?_, hs.log_once,
    fun t' => ?_, fun c' t' k' v' h => ?_⟩
  · show (k', c', v') ∈ s.store.log ↔ ∃ t', Resolved (Function.update s.calls c _) c' t' k' v' ∧
      (Function.update s.txs t _ t').status = .committed
    simp only [hs.log, hres, hst]
    constructor
    · rintro ⟨t', h, hc⟩
      exact ⟨t', Or.inl h, hc⟩
    · rintro ⟨t', h | ⟨-, rfl, -, -⟩, hcom⟩
      · exact ⟨t', h, hcom⟩
      · rw [hact] at hcom
        cases hcom
  · show (k', c', v') ∈ Function.update s.store.pending t _ t' ↔
      Resolved (Function.update s.calls c _) c' t' k' v' ∧
        (Function.update s.txs t _ t').status.live = true
    rw [hres, hst]
    by_cases ht : t' = t
    · subst ht
      rw [Function.update_self, List.mem_append, hs.pending, hact, List.mem_singleton,
        Prod.mk.injEq, Prod.mk.injEq]
      simp only [Status.live, and_true, true_and]
      exact or_congr Iff.rfl ⟨fun ⟨h1, h2, h3⟩ => ⟨h2, h1, h3⟩, fun ⟨h1, h2, h3⟩ => ⟨h2, h1, h3⟩⟩
    · rw [Function.update_of_ne ht, hs.pending]
      simp only [ht, false_and, and_false, or_false]
  · change (Function.update s.txs t _ t').status ≠ .idle
    rw [hst]
    rcases hres.mp h with h | ⟨-, rfl, -, -⟩
    · exact hs.begun c' t' k' v' h
    · rw [hact]
      simp
  · show (callsOf (Function.update s.store.pending t _ t')).Nodup
    by_cases ht : t' = t
    · subst ht
      rw [Function.update_self, callsOf_append]
      refine List.nodup_append.mpr ⟨hs.pending_once t', List.nodup_singleton c,
        fun a ha b hb hab => ?_⟩
      obtain rfl : b = c := by simpa [callsOf] using hb
      exact hfresh (hab ▸ ha)
    · rw [Function.update_of_ne ht]
      exact hs.pending_once t'
  · rcases hres.mp h with h | ⟨-, -, -, rfl⟩
    · exact hs.valid c' t' k' v' h
    · exact hvalid

/-- The sets of the transactions that have not ended, after the end of `t`. -/
theorem pending_ended (hs : Sets keyOrder s) {t : ℕ} {status : Status} (hend : status.live = false)
    (t' : ℕ) (k : WatermarkKey) (c : ℕ) (v : JsonValue) :
    (k, c, v) ∈ Function.update s.store.pending t [] t' ↔ Resolved s.calls c t' k v ∧
      (Function.update s.txs t ⟨status, []⟩ t').status.live = true := by
  by_cases ht : t' = t
  · subst ht
    simp [hend]
  · rw [Function.update_of_ne ht, Function.update_of_ne ht, hs.pending]

theorem begun_ended (hs : Sets keyOrder s) {t : ℕ} {status : Status} (hend : status ≠ .idle)
    {c t' : ℕ} {k : WatermarkKey} {v : JsonValue} (h : Resolved s.calls c t' k v) :
    (Function.update s.txs t ⟨status, []⟩ t').status ≠ .idle := by
  by_cases ht : t' = t
  · subst ht
    rw [Function.update_self]
    exact hend
  · rw [Function.update_of_ne ht]
    exact hs.begun c t' k v h

theorem pending_once_ended (hs : Sets keyOrder s) (t t' : ℕ) :
    (callsOf (Function.update s.store.pending t [] t')).Nodup :=
  (Function.forall_update_iff s.store.pending (b := [])
    fun _ (ops : List (WatermarkKey × ℕ × JsonValue)) => (callsOf ops).Nodup).mpr
    ⟨List.nodup_nil, fun t' _ => hs.pending_once t'⟩ t'

theorem commit (hs : Sets keyOrder s) {t : ℕ} (hact : (s.txs t).status = .active) :
    Sets keyOrder { s.setTx t ⟨.committed, []⟩ with store := s.store.commit t } := by
  refine ⟨hs.rows.commit t, fun k c v => ?_, hs.pending_ended rfl,
    fun c t' k v h => hs.begun_ended (by simp) h, ?_, hs.pending_once_ended t, hs.valid⟩
  · show (k, c, v) ∈ s.store.log ++ s.store.pending t ↔
      ∃ t', Resolved s.calls c t' k v ∧ (Function.update s.txs t _ t').status = .committed
    rw [List.mem_append, hs.log, hs.pending]
    constructor
    · rintro (⟨t', h, hc⟩ | ⟨h, -⟩)
      · have ht : t' ≠ t := by
          rintro rfl
          rw [hact] at hc
          cases hc
        exact ⟨t', h, by rw [Function.update_of_ne ht, hc]⟩
      · exact ⟨t, h, by rw [Function.update_self]⟩
    · rintro ⟨t', h, hc⟩
      by_cases ht : t' = t
      · subst ht
        exact Or.inr ⟨h, by rw [hact]; rfl⟩
      · rw [Function.update_of_ne ht] at hc
        exact Or.inl ⟨t', h, hc⟩
  · show (callsOf (s.store.log ++ s.store.pending t)).Nodup
    rw [callsOf_append]
    refine List.nodup_append.mpr ⟨hs.log_once, hs.pending_once t, fun a ha b hb hab => ?_⟩
    -- a call of a committed transaction is not one of `t`
    subst hab
    obtain ⟨k, v, hm⟩ := mem_callsOf.mp ha
    obtain ⟨k', v', hm'⟩ := mem_callsOf.mp hb
    obtain ⟨t', h, hc⟩ := (hs.log k a v).mp hm
    obtain ⟨h', -⟩ := (hs.pending t k' a v').mp hm'
    obtain rfl := h.tx_eq h'
    rw [hact] at hc
    cases hc

theorem rollback (hs : Sets keyOrder s) {t : ℕ} (hlive : (s.txs t).status.live = true) :
    Sets keyOrder { s.setTx t ⟨.rolledBack, []⟩ with store := s.store.rollback t } := by
  refine ⟨hs.rows.rollback t, fun k c v => ?_, hs.pending_ended rfl,
    fun c t' k v h => hs.begun_ended (by simp) h, hs.log_once, hs.pending_once_ended t, hs.valid⟩
  show (k, c, v) ∈ s.store.log ↔
    ∃ t', Resolved s.calls c t' k v ∧ (Function.update s.txs t _ t').status = .committed
  rw [hs.log]
  constructor
  · rintro ⟨t', h, hc⟩
    have ht : t' ≠ t := by
      rintro rfl
      rw [hc] at hlive
      cases hlive
    exact ⟨t', h, by rw [Function.update_of_ne ht, hc]⟩
  · rintro ⟨t', h, hc⟩
    by_cases ht : t' = t
    · subst ht
      rw [Function.update_self] at hc
      cases hc
    · rw [Function.update_of_ne ht] at hc
      exact ⟨t', h, hc⟩

end Sets

/-! ### Steps -/

/-- What a step can do. -/
inductive Stepped (keyOrder : JsString → JsString → Bool) (s : WmState) : WmState → Prop
  | begin {t : ℕ} : (s.txs t).status = .idle → Stepped keyOrder s (s.setTx t ⟨.active, []⟩)
  | rejected {c t : ℕ} {op : Op} {err : CallError} : s.calls c = none →
    Stepped keyOrder s (s.setCall c ⟨t, op, .rejected err⟩)
  | sent {c t : ℕ} {op : Op} : s.calls c = none → (s.txs t).status.live = true →
    op.validate = .ok () →
    Stepped keyOrder s ((s.setCall c ⟨t, op, .executing⟩).setTx t
      ⟨(s.txs t).status, (s.txs t).queue ++ [c]⟩)
  /-- A statement fails, or it is that of a `get`. -/
  | answered {t c : ℕ} {queue : List ℕ} {op : Op} {status : Status} {phase : Phase} :
    (s.txs t).queue = c :: queue → s.calls c = some ⟨t, op, .executing⟩ → status.live = true →
    phase ≠ .resolved →
    (∀ v, phase = .returned v → ∃ k, storedKey op.key = some k ∧ v = s.store.rows.view t k) →
    Stepped keyOrder s ((s.setCall c ⟨t, op, phase⟩).setTx t ⟨status, queue⟩)
  | set {t c : ℕ} {queue : List ℕ} {key k : WatermarkKey} {v : JsonValue} {store : Rows} :
    (s.txs t).queue = c :: queue → s.calls c = some ⟨t, .set key v, .executing⟩ →
    bindJson v ≠ none → jsonValueOk v = true → (s.txs t).status = .active →
    storedKey key = some k → s.store.upsert (applySet keyOrder) t k (c, v) = some store →
    Stepped keyOrder s { (s.setCall c ⟨t, .set key v, .resolved⟩).setTx t ⟨.active, queue⟩ with
      store }
  | commit {t : ℕ} : (s.txs t).status = .active →
    Stepped keyOrder s { s.setTx t ⟨.committed, []⟩ with store := s.store.commit t }
  | rollback {t : ℕ} : (s.txs t).status.live = true →
    Stepped keyOrder s { s.setTx t ⟨.rolledBack, []⟩ with store := s.store.rollback t }

section Stepped
variable {keyOrder : JsString → JsString → Bool} {s s' : WmState}

theorem validate_set {key : WatermarkKey} {v : JsonValue} (h : (Op.set key v).validate = .ok ()) :
    bindJson v ≠ none ∧ jsonValueOk v = true := by
  rcases hb : bindJson v with _ | v'
  · simp only [Op.validate, require, hb] at h
    cases h
  · rcases hj : jsonValueOk v with _ | _
    · simp only [Op.validate, require, hb, hj] at h
      cases h
    · exact ⟨by simp, rfl⟩

theorem check_ok {live aborted : Bool} {op : Op} (h : check live op aborted = .ok ()) :
    live = true ∧ op.validate = .ok () := by
  rcases live with _ | _
  · cases h
  · rcases hv : op.validate with err | ⟨⟩
    · simp only [check, hv] at h
      split_ifs at h
    · exact ⟨rfl, rfl⟩

theorem stepped_of_call {c t : ℕ} {op : Op} {aborted : Bool} (hc : s.calls c = none) :
    Stepped keyOrder s (callStep s c t op aborted) := by
  rcases hcheck : check (s.txs t).status.live op aborted with err | ⟨⟩
  · simp only [callStep, hcheck]
    exact .rejected hc
  · obtain ⟨hl, hv⟩ := check_ok hcheck
    simp only [callStep, hcheck]
    exact .sent hc hl hv

/-- The connection runs the statement of a call in its queue. -/
theorem runNext_cases (hq : Queues s) {t : ℕ} {f : ℕ → List ℕ → Op → Option WmState}
    (h : runNext s t f = some s') : ∃ c queue op, (s.txs t).queue = c :: queue ∧
      s.calls c = some ⟨t, op, .executing⟩ ∧ op.validate = .ok () ∧ f c queue op = some s' := by
  unfold runNext at h
  rcases hqueue : (s.txs t).queue with _ | ⟨c, queue⟩
  · rw [hqueue] at h
    cases h
  · rw [hqueue] at h
    obtain ⟨op, hc, hv⟩ := (hq t).executing c (by rw [hqueue]; exact List.mem_cons_self)
    refine ⟨c, queue, op, rfl, hc, hv, ?_⟩
    simp only [hc, Option.bind_some] at h
    exact h

theorem stepped_of_fail {t c : ℕ} {queue : List ℕ} {op : Op} (hqueue : (s.txs t).queue = c :: queue)
    (hc : s.calls c = some ⟨t, op, .executing⟩) : Stepped keyOrder s (failStep s t c queue op) :=
  .answered hqueue hc rfl (by simp) fun _ h => by cases h

theorem stepped_of_exec {t c : ℕ} {queue : List ℕ} {op : Op} (hqueue : (s.txs t).queue = c :: queue)
    (hc : s.calls c = some ⟨t, op, .executing⟩) (hv : op.validate = .ok ())
    (h : execStep keyOrder s t c queue op = some s') : Stepped keyOrder s s' := by
  unfold execStep at h
  split_ifs at h with hact
  · rcases hk : storedKey op.key with _ | k
    · rw [hk] at h
      cases h
      exact stepped_of_fail hqueue hc
    · rw [hk] at h
      rcases op with ⟨key, v⟩ | key
      · obtain ⟨store, hu, rfl⟩ := Option.map_eq_some_iff.mp h
        exact .set hqueue hc (validate_set hv).1 (validate_set hv).2 hact hk hu
      · cases h
        refine .answered hqueue hc rfl (by simp) fun v hv => ⟨k, hk, ?_⟩
        cases hv
        rfl
  · cases h
    exact stepped_of_fail hqueue hc

theorem stepped_of_step (hq : Queues s) {e : Ev} (h : step keyOrder s e = some s') :
    Stepped keyOrder s s' := by
  cases e with
  | begin t =>
    obtain ⟨hidle, h⟩ := Option.ite_none_right_eq_some.mp h
    cases h
    exact .begin hidle
  | call c t op aborted =>
    simp only [step] at h
    rcases hc : s.calls c with _ | call
    · rw [hc] at h
      cases h
      exact stepped_of_call hc
    · rw [hc] at h
      cases h
  | exec t =>
    obtain ⟨c, queue, op, hqueue, hc, hv, h⟩ := runNext_cases hq h
    exact stepped_of_exec hqueue hc hv h
  | fault t =>
    simp only [step] at h
    obtain ⟨c, queue, op, hqueue, hc, -, h⟩ := runNext_cases hq h
    cases h
    exact stepped_of_fail hqueue hc
  | commit t =>
    obtain ⟨⟨hact, -⟩, h⟩ := Option.ite_none_right_eq_some.mp h
    cases h
    exact .commit hact
  | rollback t =>
    obtain ⟨⟨hlive, -⟩, h⟩ := Option.ite_none_right_eq_some.mp h
    cases h
    exact .rollback hlive

end Stepped

/-! ### Every run -/

structure Inv (keyOrder : JsString → JsString → Bool) (s : WmState) : Prop where
  queues : Queues s
  sets : Sets keyOrder s

section Inv
variable {keyOrder : JsString → JsString → Bool} {s s' : WmState}

theorem Inv.init : Inv keyOrder .init := ⟨.init, .init⟩

theorem Inv.step (hs : Inv keyOrder s) {e : Ev} (h : step keyOrder s e = some s') :
    Inv keyOrder s' := by
  cases stepped_of_step hs.queues h with
  | begin hidle => exact ⟨hs.queues.cleared _ _, hs.sets.begin hidle⟩
  | rejected hc =>
    exact ⟨hs.queues.rejected _ hc, hs.sets.quiet rfl
      (fun _ _ _ _ => resolved_update (not_resolved_of_none hc) (by simp)) fun _ => Or.inl rfl⟩
  | @sent c t op hc hl hv =>
    refine ⟨hs.queues.sent hc hl hv, hs.sets.quiet rfl
      (fun _ _ _ _ => resolved_update (not_resolved_of_none hc) (by simp)) fun t' => Or.inl ?_⟩
    by_cases ht : t' = t
    · subst ht
      simp [WmState.setTx]
    · simp [WmState.setTx, WmState.setCall, ht]
  | @answered t c queue op status phase hqueue hc hl hp =>
    refine ⟨hs.queues.pop hqueue hc hl _, hs.sets.quiet rfl
      (fun _ _ _ _ => resolved_update (not_resolved_of_phase hc (by simp)) hp) fun t' => ?_⟩
    by_cases ht : t' = t
    · subst ht
      refine Or.inr ⟨(hs.queues t').live (by rw [hqueue]; simp), ?_⟩
      simpa [WmState.setTx] using hl
    · exact Or.inl (by simp [WmState.setTx, WmState.setCall, ht])
  | set hqueue hc hb hv hact hk hu =>
    exact ⟨hs.queues.pop hqueue hc rfl _, hs.sets.set hc ⟨hb, hv⟩ hact hk hu⟩
  | commit hact => exact ⟨hs.queues.cleared _ _, hs.sets.commit hact⟩
  | rollback hlive => exact ⟨hs.queues.cleared _ _, hs.sets.rollback hlive⟩

/-- The committed sets stay, in their order. -/
theorem log_step (hs : Inv keyOrder s) {e : Ev} (h : System.step keyOrder s e = some s') :
    s.store.log <+: s'.store.log := by
  cases stepped_of_step hs.queues h with
  | commit => exact List.prefix_append _ _
  | set _ _ _ _ _ _ hu =>
    obtain ⟨-, rfl⟩ := Lib.Upserts.Inv.upsert_cases hu
    exact List.prefix_rfl
  | _ => exact List.prefix_rfl

end Inv

/-- A value that is set and read back is the same, up to the order of the keys, exactly if it has no
negative zero. -/
theorem denote_jsonbOf (keyOrder : JsString → JsString → Bool) {v : JsonValue}
    (hok : jsonValueOk v = true) (hd : v.distinct = true) :
    (jsonbOf keyOrder v).denote = v.denote ↔
      v.all (fun l => l != .number .negZero) (fun _ => true) = true := by
  have hsort : (jsonbOf keyOrder v).denote = (v.bind fun l => .leaf (jsonLeaf l)).denote :=
    Tree.denote_sortKeys _ (Tree.distinct_bind (fun _ => rfl) v hd)
  have hleaf : ∀ l, jsonLeaf l = l → l ≠ .number .negZero := by
    rintro l h rfl
    cases h
  rw [hsort]
  constructor
  · intro h
    refine Tree.all_mono (fun l hl => ?_) (fun _ _ => rfl) v (Tree.denote_bind_leaf v hd h)
    exact bne_iff_ne.mpr (hleaf l (beq_iff_eq.mp hl))
  · intro h
    simp only [jsonValueOk, Bool.and_eq_true] at hok
    have hboth : v.all (fun l => l != .number .negZero && Boundary.Calls.jsonLeafOk l)
        (fun k => true && Boundary.Calls.safeText k) = true := by
      rw [Tree.all_and, h, hok.2, Bool.and_self]
    have hbind : (v.bind fun l => .leaf (jsonLeaf l)) = v := by
      refine (Tree.bind_congr (fun l hl => ?_) v hboth).trans (Tree.bind_leaf v)
      simp only [Bool.and_eq_true, bne_iff_ne] at hl
      rcases l with s | n | b | _
      · rfl
      · rcases n with q | _ | _
        · rfl
        · exact absurd rfl hl.1
        · exact absurd hl.2 (by decide)
      · rfl
      · rfl
    rw [hbind]

/-- The value of the last set of a row. -/
def lastSet (k : WatermarkKey) (ops : List (WatermarkKey × ℕ × JsonValue)) : Option JsonValue :=
  (upsertsOf k ops).getLast?.map (·.2)

theorem view_lastSet {keyOrder : JsString → JsString → Bool} {s : WmState} (hs : Inv keyOrder s)
    (t : ℕ) (k : WatermarkKey) : s.store.rows.view t k =
      (lastSet k (s.store.log ++ s.store.pending t)).map (jsonbOf keyOrder) := by
  rw [hs.sets.rows.view_eq, lastSet, Option.map_map]
  exact fold_set (fun a : ℕ × JsonValue => jsonbOf keyOrder a.2) k _

/-- A call that returns has read its row as its transaction saw it. -/
theorem returned_view {keyOrder : JsString → JsString → Bool} {s s' : WmState}
    (h : Stepped keyOrder s s') {c t : ℕ} {op : Op} {v : Option JsonValue}
    (hc : s.calls c = some ⟨t, op, .executing⟩) (hc' : s'.calls c = some ⟨t, op, .returned v⟩) :
    ∃ k, storedKey op.key = some k ∧ v = s.store.rows.view t k := by
  have hsame : s'.calls c ≠ s.calls c := by
    rw [hc, hc']
    simp
  have hnone : ∀ {c₀ call}, s.calls c₀ = none → s'.calls = (s.setCall c₀ call).calls → False := by
    intro c₀ call h0 hcalls
    have hne : c ≠ c₀ := by
      rintro rfl
      rw [hc] at h0
      cases h0
    exact hsame (by rw [hcalls]; exact Function.update_of_ne hne _ _)
  have hself : ∀ {c₀ call}, s'.calls = (s.setCall c₀ call).calls →
      c = c₀ ∧ call = ⟨t, op, .returned v⟩ := by
    intro c₀ call hcalls
    by_cases hne : c = c₀
    · subst hne
      have hself : (s.setCall c call).calls c = some call := Function.update_self _ _ _
      rw [hcalls, hself] at hc'
      exact ⟨rfl, Option.some.inj hc'⟩
    · exact absurd (by rw [hcalls]; exact Function.update_of_ne hne _ _) hsame
  cases h with
  | begin => exact absurd rfl hsame
  | rejected h0 => exact (hnone h0 rfl).elim
  | sent h0 => exact (hnone h0 rfl).elim
  | answered _ h0 _ _ hv =>
    obtain ⟨rfl, hcall⟩ := hself rfl
    cases hcall
    exact hv v rfl
  | set _ h0 =>
    obtain ⟨rfl, hcall⟩ := hself rfl
    cases hcall
  | commit => exact absurd rfl hsame
  | rollback => exact absurd rfl hsame

/-- A cursor for the wallets of one network. -/
def sampleKey : WatermarkKey := ⟨ascii "wallet", ascii "preview"⟩

def height (n : ℕ) : JsonValue := .leaf (.number (.finite n))

/-- A `get` next to a set that has not committed, one after it, one in the transaction of a second
set that is rolled back, and a set of `null`. -/
def sampleRun : List Ev :=
  [.begin 0, .call 0 0 (.set sampleKey (height 7)) false, .exec 0,
    .begin 1, .call 1 1 (.get sampleKey) false, .exec 1, .commit 0,
    .call 2 1 (.get sampleKey) false, .exec 1,
    .begin 2, .call 3 2 (.set sampleKey (height 9)) false, .exec 2,
    .call 4 2 (.get sampleKey) false, .exec 2, .rollback 2,
    .call 5 1 (.set sampleKey (.leaf .null)) false, .call 6 1 (.get sampleKey) false]

end UmbraDB.Watermarks.System
