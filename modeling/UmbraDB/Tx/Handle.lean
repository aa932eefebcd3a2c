import UmbraDB.Lib.Runs
import UmbraDB.Ckpt.RoundTrip
import UmbraDB.Tx.Statements
import Mathlib.Logic.Function.Basic

/-! # `withTransaction` and the operations that use its handle

Any number of transactions of `withTransaction` over the connections of the pool, and any number of
operations called with their handles, whose statements are interleaved with everything else in any
way. `activeTransactions` is the registry: it has the handle from just before `fn` is called until
`fn` has settled. An operation looks its handle up once, when it is called, and sends its first
statement before anything else can run; it sends the later ones on the same `sql` object, whenever
their answers arrive.

After `fn` has settled, the driver sends `COMMIT` or `ROLLBACK` and the connection goes back to the
pool. A statement sent on its `sql` after that is still executed on the connection: outside any
transaction, or inside the one that was begun there next. A statement in a failed transaction or on
a dead connection is rejected. The answer of any other is left open, a rejection included.

The database is given by the statements that were executed, `executed`, each with the transaction
that was open on the connection, and by those whose effect is durable, `durable`.

* `handle_confined` : if no transaction ends while an operation started with its handle has a
  statement left to send, every statement is executed inside the transaction of its handle, and is
  durable only if that committed.
* `promiseAll_escapes` : a `save` left behind by a rejected `Promise.all` writes after the
  `ROLLBACK`. -/

namespace UmbraDB.Tx.Handle

open UmbraDB.Lib.Runs UmbraDB.Tx.Statements

variable {V C : Type}

/-- Where a call of `withTransaction` is. -/
inductive Phase
  | idle
  | begun
  /-- `fn` is running. -/
  | running
  /-- `fn` has resolved or thrown. -/
  | settled (resolved : Bool)
  | ended
  deriving DecidableEq

inductive Outcome
  | undecided
  | committed
  | rolledBack
  deriving DecidableEq

/-- A transaction; `failed` when a statement of it was rejected. -/
structure Txn where
  conn : ℕ
  phase : Phase
  failed : Bool
  outcome : Outcome
  deriving DecidableEq

/-- A call of an operation that resolved its handle to the `sql` of `conn`. -/
structure Call (V C : Type) where
  tx : ℕ
  conn : ℕ
  rest : Prog (Stmt V C) (Answer C)

/-- A statement of the call that was executed, and the transaction it was executed in. -/
structure Executed (V C : Type) where
  call : ℕ
  stmt : Stmt V C
  inside : Option ℕ

structure TxState (V C : Type) where
  alive : ℕ → Bool
  /-- The transaction that is open on the connection. -/
  openTx : ℕ → Option ℕ
  activeTransactions : ℕ → Option ℕ
  txs : ℕ → Txn
  calls : ℕ → Option (Call V C)
  executed : List (Executed V C)
  durable : List (Executed V C)

def TxState.init : TxState V C :=
  ⟨fun _ => true, fun _ => none, fun _ => none, fun _ => ⟨0, .idle, false, .undecided⟩,
    fun _ => none, [], []⟩

inductive Ev (V C : Type)
  /-- `BEGIN` on a connection of the pool. -/
  | begin (t c : ℕ)
  /-- `registerTransaction`, and `fn` is called. -/
  | register (t : ℕ)
  /-- An operation is called with the handle, and its first statement is answered. -/
  | call (o t : ℕ) (op : Op V C) (answer : Option (Answer C))
  /-- The next statement of the operation is sent and answered. -/
  | send (o : ℕ) (answer : Option (Answer C))
  /-- `fn` settles; `unregisterTransaction`. -/
  | settle (t : ℕ) (resolved : Bool)
  /-- `COMMIT` or `ROLLBACK`. -/
  | finish (t : ℕ)
  /-- The connection is lost. -/
  | die (c : ℕ)

def TxState.setTx (s : TxState V C) (t : ℕ) (x : Txn) : TxState V C :=
  { s with txs := Function.update s.txs t x }

def TxState.setCall (s : TxState V C) (o : ℕ) (call : Call V C) : TxState V C :=
  { s with calls := Function.update s.calls o (some call) }

/-- `resolveTransaction`; `none` when it throws `TransactionHandleInvalidError`. -/
def resolveTransaction (s : TxState V C) (t : ℕ) : Option ℕ := s.activeTransactions t

/-- The statement `q` of the call is sent on its connection. -/
def execute (s : TxState V C) (o : ℕ) (call : Call V C) (q : Stmt V C)
    (next : Answer C → Prog (Stmt V C) (Answer C)) (answer : Option (Answer C)) : TxState V C :=
  let rejected := s.setCall o { call with rest := .done }
  if s.alive call.conn = false then rejected
  else
    match s.openTx call.conn, answer with
    | none, none => rejected
    -- outside a transaction a statement commits by itself
    | none, some a =>
      { s.setCall o { call with rest := next a } with
        executed := s.executed ++ [⟨o, q, none⟩]
        durable := s.durable ++ [⟨o, q, none⟩] }
    | some t, answer =>
      if (s.txs t).failed then rejected
      else
        match answer with
        | none => rejected.setTx t { s.txs t with failed := true }
        | some a =>
          { s.setCall o { call with rest := next a } with
            executed := s.executed ++ [⟨o, q, some t⟩] }

/-- The next statement of the call, if it has one. -/
def sendNext (s : TxState V C) (o : ℕ) (call : Call V C) (answer : Option (Answer C)) :
    Option (TxState V C) :=
  match call.rest with
  | .done => none
  | .send q next => some (execute s o call q next answer)

/-- The end of the transaction on its connection. -/
def endTx (s : TxState V C) (t : ℕ) (commit : Bool) : TxState V C :=
  let x := s.txs t
  if commit && !x.failed then
    { s.setTx t { x with phase := .ended, outcome := .committed } with
      openTx := Function.update s.openTx x.conn none
      durable := s.durable ++ s.executed.filter fun e => e.inside == some t }
  else
    { s.setTx t { x with phase := .ended, outcome := .rolledBack } with
      openTx := Function.update s.openTx x.conn none }

/-- `COMMIT` if `fn` resolved and no statement was rejected, else `ROLLBACK`. On a lost connection
the transaction is gone already. -/
def finishStep (s : TxState V C) (t : ℕ) : Option (TxState V C) :=
  let x := s.txs t
  let live := s.openTx x.conn == some t
  match x.phase with
  | .settled resolved =>
    if live then some (endTx s t resolved) else some (s.setTx t { x with phase := .ended })
  -- the `set local statement_timeout` failed
  | .begun => if live then some (endTx s t false) else some (s.setTx t { x with phase := .ended })
  | _ => none

/-- The server drops the transaction that was open on the connection. -/
def dieStep (s : TxState V C) (c : ℕ) : TxState V C :=
  match s.openTx c with
  | none => { s with alive := Function.update s.alive c false }
  | some t =>
    { s.setTx t { s.txs t with outcome := .rolledBack } with
      alive := Function.update s.alive c false
      openTx := Function.update s.openTx c none }

def step (A : Adapters C) (s : TxState V C) : Ev V C → Option (TxState V C)
  | .begin t c =>
    if (s.txs t).phase = .idle ∧ s.alive c = true ∧ s.openTx c = none then
      some { s.setTx t ⟨c, .begun, false, .undecided⟩ with
        openTx := Function.update s.openTx c (some t) }
    else none
  | .register t =>
    if (s.txs t).phase = .begun then
      some { s.setTx t { s.txs t with phase := .running } with
        activeTransactions := Function.update s.activeTransactions t (some (s.txs t).conn) }
    else none
  | .call o t op answer =>
    match s.calls o, resolveTransaction s t with
    | none, some c => sendNext s o ⟨t, c, op.program A⟩ answer
    | none, none => some s
    | some _, _ => none
  | .send o answer => (s.calls o).bind fun call => sendNext s o call answer
  | .settle t resolved =>
    if (s.txs t).phase = .running then
      some { s.setTx t { s.txs t with phase := .settled resolved } with
        activeTransactions := Function.update s.activeTransactions t none }
    else none
  | .finish t => finishStep s t
  | .die c => some (dieStep s c)

/-! ### The property, and the condition -/

/-- Every executed statement was executed inside the transaction of its handle, and is durable only
if that transaction committed. -/
structure Confined (s : TxState V C) : Prop where
  inside : ∀ e ∈ s.executed, ∃ call, s.calls e.call = some call ∧ e.inside = some call.tx
  durable : ∀ e ∈ s.durable, e ∈ s.executed ∧
    ∃ call, s.calls e.call = some call ∧ (s.txs call.tx).outcome = .committed

/-- The operations started with the handle have nothing left to send. -/
def Drained (s : TxState V C) (t : ℕ) : Prop :=
  ∀ o call, s.calls o = some call → call.tx = t → call.rest.isDone = true

/-- `COMMIT` and `ROLLBACK` come after the last statement of every operation of the handle. -/
def EndsDrained (s : TxState V C) : Ev V C → Prop
  | .finish t => s.openTx (s.txs t).conn = some t → Drained s t
  | _ => True

/-! ### The invariant -/

/-- The transaction is open on its connection, or the connection is lost. -/
def Live (s : TxState V C) (t : ℕ) : Prop :=
  s.openTx (s.txs t).conn = some t ∨ s.alive (s.txs t).conn = false

structure Inv (s : TxState V C) : Prop where
  opened : ∀ c t, s.openTx c = some t → (s.txs t).conn = c ∧ s.alive c = true ∧
    (s.txs t).phase ≠ .idle ∧ (s.txs t).outcome = .undecided
  live : ∀ t, (s.txs t).phase ≠ .idle → (s.txs t).phase ≠ .ended → Live s t
  active : ∀ t c, s.activeTransactions t = some c → c = (s.txs t).conn ∧
    (s.txs t).phase = .running
  calls : ∀ o call, s.calls o = some call → call.conn = (s.txs call.tx).conn ∧
    (s.txs call.tx).phase ≠ .idle
  rest : ∀ o call, s.calls o = some call → call.rest.isDone = false → Live s call.tx
  confined : Confined s

theorem inv_init : Inv (TxState.init : TxState V C) := by
  refine ⟨?_, ?_, ?_, ?_, ?_, ⟨?_, ?_⟩⟩ <;> intros <;> simp_all [TxState.init]

theorem Confined.mono {s s' : TxState V C} (hC : Confined s) (he : s'.executed = s.executed)
    (hd : s'.durable = s.durable)
    (hc : ∀ o call, s.calls o = some call → ∃ call', s'.calls o = some call' ∧ call'.tx = call.tx)
    (ho : ∀ t, (s.txs t).outcome = .committed → (s'.txs t).outcome = .committed) :
    Confined s' := by
  refine ⟨fun e hmem => ?_, fun e hmem => ?_⟩
  · rw [he] at hmem
    obtain ⟨call, h1, h2⟩ := hC.inside e hmem
    obtain ⟨call', h3, h4⟩ := hc _ _ h1
    exact ⟨call', h3, h4 ▸ h2⟩
  · rw [hd] at hmem
    obtain ⟨h0, call, h1, h2⟩ := hC.durable e hmem
    obtain ⟨call', h3, h4⟩ := hc _ _ h1
    exact ⟨he ▸ h0, call', h3, h4 ▸ ho _ h2⟩

variable {A : Adapters C} {s s' : TxState V C}

@[simp] theorem setTx_self (s : TxState V C) (t : ℕ) (x : Txn) : (s.setTx t x).txs t = x :=
  Function.update_self ..

theorem setTx_of_ne (s : TxState V C) {t t' : ℕ} (x : Txn) (h : t' ≠ t) :
    (s.setTx t x).txs t' = s.txs t' :=
  Function.update_of_ne h ..

/-- A change of a begun transaction that leaves its connection and its outcome. -/
theorem Inv.setTx (hI : Inv s) {t : ℕ} {x : Txn} {active : ℕ → Option ℕ}
    (hconn : x.conn = (s.txs t).conn) (hout : x.outcome = (s.txs t).outcome)
    (hph : (s.txs t).phase ≠ .idle) (hph' : x.phase ≠ .idle)
    (hend : x.phase ≠ .ended → (s.txs t).phase ≠ .ended)
    (hact : ∀ t' c, active t' = some c → c = ((s.setTx t x).txs t').conn ∧
      ((s.setTx t x).txs t').phase = .running) :
    Inv { s.setTx t x with activeTransactions := active } := by
  have hc : ∀ t', ((s.setTx t x).txs t').conn = (s.txs t').conn := by
    intro t'
    by_cases ht : t' = t
    · rw [ht, setTx_self, hconn]
    · rw [setTx_of_ne s x ht]
  have ho : ∀ t', ((s.setTx t x).txs t').outcome = (s.txs t').outcome := by
    intro t'
    by_cases ht : t' = t
    · rw [ht, setTx_self, hout]
    · rw [setTx_of_ne s x ht]
  have hp : ∀ t', (s.txs t').phase ≠ .idle → ((s.setTx t x).txs t').phase ≠ .idle := by
    intro t' h
    by_cases ht : t' = t
    · rw [ht, setTx_self]
      exact hph'
    · rw [setTx_of_ne s x ht]
      exact h
  have hlive : ∀ t', Live s t' → Live { s.setTx t x with activeTransactions := active } t' := by
    intro t' h
    show s.openTx ((s.setTx t x).txs t').conn = some t' ∨
      s.alive ((s.setTx t x).txs t').conn = false
    rw [hc]
    exact h
  refine ⟨fun c t' h => ?_, fun t' h1 h2 => hlive t' ?_, hact, fun o call h => ?_,
    fun o call h hr => hlive _ (hI.rest o call h hr),
    hI.confined.mono rfl rfl (fun _ call h => ⟨call, h, rfl⟩) fun t' h => (ho t').trans h⟩
  · obtain ⟨h1, h2, h3, h4⟩ := hI.opened c t' h
    exact ⟨(hc t').trans h1, h2, hp t' h3, (ho t').trans h4⟩
  · by_cases ht : t' = t
    · subst ht
      have h2' : x.phase ≠ .ended := by
        simpa using h2
      exact hI.live t' hph (hend h2')
    · have e := setTx_of_ne s x ht
      exact hI.live t' (e ▸ h1) (e ▸ h2)
  · obtain ⟨h1, h2⟩ := hI.calls o call h
    exact ⟨h1.trans (hc _).symm, hp _ h2⟩

/-- The transaction `t` becomes `x`, and the connection `c`, on which no other is open, has `v`
open after that. -/
def replaced (s : TxState V C) (t c : ℕ) (x : Txn) (v : Option ℕ) (alive : ℕ → Bool)
    (durable : List (Executed V C)) : TxState V C :=
  { s.setTx t x with
    openTx := Function.update s.openTx c v
    alive := alive
    durable := durable }

theorem live_replaced {t t' c : ℕ} {x : Txn} {v : Option ℕ} {alive : ℕ → Bool}
    {durable : List (Executed V C)} (ha : ∀ c', s.alive c' = false → alive c' = false)
    (ht : t' ≠ t) (hc : s.openTx c ≠ some t') (h : Live s t') :
    Live (replaced s t c x v alive durable) t' := by
  show Function.update s.openTx c v ((s.setTx t x).txs t').conn = some t' ∨
    alive ((s.setTx t x).txs t').conn = false
  rw [setTx_of_ne s x ht]
  rcases h with h | h
  · have he : (s.txs t').conn ≠ c := fun he => hc (he ▸ h)
    rw [Function.update_of_ne he]
    exact Or.inl h
  · exact Or.inr (ha _ h)

theorem Inv.replaced (hI : Inv s) {t c : ℕ} {x : Txn} {v : Option ℕ} {alive : ℕ → Bool}
    {durable : List (Executed V C)} (ha : ∀ c', s.alive c' = false → alive c' = false)
    (ha' : ∀ c', c' ≠ c → alive c' = s.alive c') (hc : ∀ t', t' ≠ t → s.openTx c ≠ some t')
    (hown : ∀ c', c' ≠ c → s.openTx c' ≠ some t)
    (hv : ∀ t', v = some t' → t' = t ∧ x.conn = c ∧ alive c = true ∧ x.phase ≠ .idle ∧
      x.outcome = .undecided)
    (hlive : x.phase ≠ .idle → x.phase ≠ .ended → Live (Handle.replaced s t c x v alive durable) t)
    (hact : ∀ c', s.activeTransactions t = some c' → c' = x.conn ∧ x.phase = .running)
    (hcalls : ∀ o call, s.calls o = some call → call.tx = t → call.conn = x.conn ∧
      x.phase ≠ .idle ∧
      (call.rest.isDone = false → Live (Handle.replaced s t c x v alive durable) t))
    (hconf : Confined (Handle.replaced s t c x v alive durable)) :
    Inv (Handle.replaced s t c x v alive durable) := by
  have hself : (Handle.replaced s t c x v alive durable).txs t = x := setTx_self s t x
  have hne : ∀ t', t' ≠ t → (Handle.replaced s t c x v alive durable).txs t' = s.txs t' :=
    fun t' ht => setTx_of_ne s x ht
  refine ⟨fun c' t' h => ?_, fun t' h1 h2 => ?_, fun t' c' h => ?_, fun o call h => ?_,
    fun o call h hr => ?_, hconf⟩
  · change Function.update s.openTx c v c' = some t' at h
    by_cases he : c' = c
    · subst he
      rw [Function.update_self] at h
      obtain ⟨rfl, h1⟩ := hv t' h
      rw [hself]
      exact h1
    · rw [Function.update_of_ne he] at h
      have ht : t' ≠ t := fun ht => hown c' he (ht ▸ h)
      rw [hne t' ht]
      obtain ⟨h1, h2, h3⟩ := hI.opened c' t' h
      exact ⟨h1, (ha' c' he).trans h2, h3⟩
  · by_cases ht : t' = t
    · subst ht
      rw [hself] at h1 h2
      exact hlive h1 h2
    · rw [hne t' ht] at h1 h2
      exact live_replaced ha ht (hc t' ht) (hI.live t' h1 h2)
  · by_cases ht : t' = t
    · subst ht
      rw [hself]
      exact hact c' h
    · rw [hne t' ht]
      exact hI.active t' c' h
  · by_cases ht : call.tx = t
    · obtain ⟨h1, h2, -⟩ := hcalls o call h ht
      rw [ht, hself]
      exact ⟨h1, h2⟩
    · rw [hne _ ht]
      exact hI.calls o call h
  · by_cases ht : call.tx = t
    · rw [ht]
      exact (hcalls o call h ht).2.2 hr
    · exact live_replaced ha ht (hc _ ht) (hI.rest o call h hr)

theorem Inv.outcome_ne (hI : Inv s) {c t : ℕ} (h : s.openTx c = some t) {call : Call V C}
    (hout : (s.txs call.tx).outcome = .committed) : call.tx ≠ t := by
  rintro rfl
  have := (hI.opened c _ h).2.2.2
  rw [hout] at this
  cases this

/-- An open transaction gets its outcome, and what is durable stays. -/
theorem Confined.rolledBack (hI : Inv s) {t c : ℕ} {x : Txn} {v : Option ℕ} {alive : ℕ → Bool}
    (h : ∀ o call, s.calls o = some call → (s.txs call.tx).outcome = .committed → call.tx ≠ t) :
    Confined (replaced s t c x v alive s.durable) := by
  refine ⟨hI.confined.inside, fun e he => ?_⟩
  obtain ⟨h0, call, h1, h2⟩ := hI.confined.durable e he
  refine ⟨h0, call, h1, ?_⟩
  show ((s.setTx t x).txs call.tx).outcome = .committed
  rw [setTx_of_ne s x (h _ call h1 h2)]
  exact h2

/-- What was executed inside the transaction becomes durable with its commit. -/
theorem Confined.committed (hI : Inv s) {t c : ℕ} {x : Txn} {v : Option ℕ} {alive : ℕ → Bool}
    (hx : x.outcome = .committed) :
    Confined (replaced s t c x v alive
      (s.durable ++ s.executed.filter fun e => e.inside == some t)) := by
  refine ⟨hI.confined.inside, fun e he => ?_⟩
  rcases List.mem_append.mp he with he | he
  · obtain ⟨h0, call, h1, h2⟩ := hI.confined.durable e he
    refine ⟨h0, call, h1, ?_⟩
    show ((s.setTx t x).txs call.tx).outcome = .committed
    by_cases ht : call.tx = t
    · rw [ht, setTx_self, hx]
    · rw [setTx_of_ne s x ht, h2]
  · obtain ⟨h0, hin⟩ := List.mem_filter.mp he
    obtain ⟨call, h1, h2⟩ := hI.confined.inside e h0
    refine ⟨h0, call, h1, ?_⟩
    have ht : call.tx = t := by
      rw [h2] at hin
      simpa using hin
    show ((s.setTx t x).txs call.tx).outcome = .committed
    rw [ht, setTx_self, hx]

/-! ### What one step keeps -/

theorem inv_begin (hI : Inv s) {t c : ℕ} (hph : (s.txs t).phase = .idle) (ha : s.alive c = true)
    (ho : s.openTx c = none) :
    Inv { s.setTx t ⟨c, .begun, false, .undecided⟩ with
      openTx := Function.update s.openTx c (some t) } := by
  have hno : ∀ c', s.openTx c' ≠ some t := fun c' h => (hI.opened c' t h).2.2.1 hph
  have hnocall : ∀ o call, s.calls o = some call → call.tx ≠ t :=
    fun o call h ht => (hI.calls o call h).2 (ht ▸ hph)
  refine Inv.replaced (x := ⟨c, .begun, false, .undecided⟩) hI (fun _ h => h) (fun _ _ => rfl)
    (fun t' _ => by rw [ho]; simp) (fun c' _ => hno c') ?_ ?_ ?_
    (fun o call h ht => absurd ht (hnocall o call h))
    (Confined.rolledBack hI fun o call h _ => hnocall o call h)
  · rintro t' ⟨⟩
    exact ⟨rfl, rfl, ha, by simp, rfl⟩
  · intro _ _
    left
    show Function.update s.openTx c (some t) ((s.setTx t _).txs t).conn = some t
    rw [setTx_self, Function.update_self]
  · intro c' h
    have := (hI.active t c' h).2
    rw [hph] at this
    cases this

theorem inv_endTx (hI : Inv s) {t : ℕ} {commit : Bool} (h : s.openTx (s.txs t).conn = some t)
    (hact : s.activeTransactions t = none) (hd : Drained s t) : Inv (endTx s t commit) := by
  have hc : ∀ t', t' ≠ t → s.openTx (s.txs t).conn ≠ some t' := by
    intro t' ht he
    rw [h] at he
    exact ht (Option.some.inj he).symm
  have hown : ∀ c', c' ≠ (s.txs t).conn → s.openTx c' ≠ some t :=
    fun c' hne he => hne (hI.opened c' t he).1.symm
  have hph := (hI.opened _ t h).2.2.1
  have hcalls : ∀ (x : Txn) (P : Prop), x.conn = (s.txs t).conn → x.phase = .ended →
      ∀ o call, s.calls o = some call → call.tx = t → call.conn = x.conn ∧ x.phase ≠ .idle ∧
        (call.rest.isDone = false → P) := by
    intro x P hconn hx o call hcall ht
    refine ⟨?_, by rw [hx]; simp, fun hr => ?_⟩
    · rw [hconn, (hI.calls o call hcall).1, ht]
    · rw [hd o call hcall ht] at hr
      cases hr
  unfold endTx
  dsimp only
  split
  · exact Inv.replaced (x := { s.txs t with phase := .ended, outcome := .committed }) hI
      (fun _ h => h) (fun _ _ => rfl) hc hown (by simp) (by simp) (by simp [hact])
      (hcalls _ _ rfl rfl) (Confined.committed hI rfl)
  · exact Inv.replaced (x := { s.txs t with phase := .ended, outcome := .rolledBack }) hI
      (fun _ h => h) (fun _ _ => rfl) hc hown (by simp) (by simp) (by simp [hact])
      (hcalls _ _ rfl rfl)
      (Confined.rolledBack hI fun _ _ _ hout => hI.outcome_ne h hout)

theorem inv_die (hI : Inv s) (c : ℕ) : Inv (dieStep s c) := by
  have ha : ∀ c', s.alive c' = false → Function.update s.alive c false c' = false := by
    intro c' h
    by_cases he : c' = c
    · rw [he, Function.update_self]
    · rw [Function.update_of_ne he, h]
  have ha' : ∀ c', c' ≠ c → Function.update s.alive c false c' = s.alive c' :=
    fun c' he => Function.update_of_ne he ..
  unfold dieStep
  split
  · next hnone =>
    have hlive : ∀ t, Live s t → Live { s with alive := Function.update s.alive c false } t := by
      rintro t (h | h)
      · exact Or.inl h
      · exact Or.inr (ha _ h)
    refine ⟨fun c' t h => ?_, fun t h1 h2 => hlive t (hI.live t h1 h2), hI.active, hI.calls,
      fun o call h hr => hlive _ (hI.rest o call h hr), ⟨hI.confined.inside, hI.confined.durable⟩⟩
    have hne : c' ≠ c := by
      rintro rfl
      rw [hnone] at h
      cases h
    obtain ⟨h1, h2, h3⟩ := hI.opened c' t h
    exact ⟨h1, (ha' c' hne).trans h2, h3⟩
  · next t h =>
    obtain ⟨hconn, -, hph, -⟩ := hI.opened c t h
    have hlive : Live (replaced s t c { s.txs t with outcome := .rolledBack } none
        (Function.update s.alive c false) s.durable) t := by
      right
      show Function.update s.alive c false ((s.setTx t _).txs t).conn = false
      rw [setTx_self, hconn, Function.update_self]
    refine Inv.replaced (x := { s.txs t with outcome := .rolledBack }) hI ha ha' ?_ ?_ (by simp)
      (fun _ _ => hlive) (fun c' h' => hI.active t c' h') ?_
      (Confined.rolledBack hI fun _ _ _ hout => hI.outcome_ne h hout)
    · intro t' ht he
      rw [h] at he
      exact ht (Option.some.inj he).symm
    · intro c' hne he
      exact hne ((hI.opened c' t he).1.symm.trans hconn)
    · intro o call hcall ht
      obtain ⟨h1, h2⟩ := hI.calls o call hcall
      rw [ht] at h1 h2
      exact ⟨h1, h2, fun _ => hlive⟩

/-- The record of a call changes, and statements of it are executed inside its transaction. -/
theorem Inv.setCall (hI : Inv s) {o : ℕ} {call call' : Call V C} {es : List (Executed V C)}
    (hold : ∀ c, s.calls o = some c → c.tx = call.tx) (htx : call'.tx = call.tx)
    (hconn : call'.conn = (s.txs call.tx).conn) (hph : (s.txs call.tx).phase ≠ .idle)
    (hlive : Live s call.tx) (hes : ∀ e ∈ es, e.call = o ∧ e.inside = some call.tx) :
    Inv { s.setCall o call' with executed := s.executed ++ es } := by
  have hself : (s.setCall o call').calls o = some call' := Function.update_self ..
  have hne : ∀ o', o' ≠ o → (s.setCall o call').calls o' = s.calls o' :=
    fun o' ho => Function.update_of_ne ho ..
  have hcases : ∀ o' c, (s.setCall o call').calls o' = some c →
      c = call' ∨ s.calls o' = some c := by
    intro o' c h
    by_cases ho : o' = o
    · rw [ho, hself] at h
      exact Or.inl (Option.some.inj h).symm
    · rw [hne o' ho] at h
      exact Or.inr h
  have htxs : ∀ o' c, s.calls o' = some c →
      ∃ c', (s.setCall o call').calls o' = some c' ∧ c'.tx = c.tx := by
    intro o' c h
    by_cases ho : o' = o
    · subst ho
      exact ⟨call', hself, by rw [htx, hold c h]⟩
    · exact ⟨c, (hne o' ho).trans h, rfl⟩
  refine ⟨hI.opened, hI.live, hI.active, fun o' c h => ?_, fun o' c h hr => ?_,
    ⟨fun e he => ?_, fun e he => ?_⟩⟩
  · rcases hcases o' c h with rfl | h'
    · exact ⟨htx ▸ hconn, htx ▸ hph⟩
    · exact hI.calls o' c h'
  · rcases hcases o' c h with rfl | h'
    · exact htx ▸ hlive
    · exact hI.rest o' c h' hr
  · rcases List.mem_append.mp he with he | he
    · obtain ⟨c, h1, h2⟩ := hI.confined.inside e he
      obtain ⟨c', h3, h4⟩ := htxs _ c h1
      exact ⟨c', h3, h4 ▸ h2⟩
    · obtain ⟨h1, h2⟩ := hes e he
      exact ⟨call', h1 ▸ hself, htx ▸ h2⟩
  · obtain ⟨h0, c, h1, h2⟩ := hI.confined.durable e he
    obtain ⟨c', h3, h4⟩ := htxs _ c h1
    exact ⟨List.mem_append.mpr (Or.inl h0), c', h3, h4 ▸ h2⟩

theorem inv_execute (hI : Inv s) {o : ℕ} {call : Call V C} {q : Stmt V C}
    {next : Answer C → Prog (Stmt V C) (Answer C)} {answer : Option (Answer C)}
    (hold : ∀ c, s.calls o = some c → c.tx = call.tx) (hconn : call.conn = (s.txs call.tx).conn)
    (hph : (s.txs call.tx).phase ≠ .idle) (hlive : Live s call.tx) :
    Inv (execute s o call q next answer) := by
  have hset : ∀ (rest : Prog (Stmt V C) (Answer C)) (es : List (Executed V C)),
      (∀ e ∈ es, e.call = o ∧ e.inside = some call.tx) →
      Inv { s.setCall o { call with rest := rest } with executed := s.executed ++ es } :=
    fun rest es hes => hI.setCall hold rfl hconn hph hlive hes
  have hrej : Inv (s.setCall o { call with rest := .done }) := by
    have := hset .done [] (by simp)
    rwa [List.append_nil] at this
  unfold execute
  dsimp only
  by_cases ha : s.alive call.conn = false
  · rw [if_pos ha]
    exact hrej
  · rw [if_neg ha]
    -- the connection is alive, so the transaction of the handle is the one that is open on it
    have hopen : s.openTx call.conn = some call.tx := by
      rcases hlive with h | h
      · exact hconn ▸ h
      · exact absurd (hconn ▸ h) ha
    rw [hopen]
    dsimp only
    split
    · exact hrej
    · split
      · exact hrej.setTx rfl rfl hph hph (fun h => h) fun t' c h => by
          obtain ⟨h1, h2⟩ := hI.active t' c h
          by_cases ht : t' = call.tx
          · subst ht
            rw [setTx_self]
            exact ⟨h1, h2⟩
          · rw [setTx_of_ne _ _ ht]
            exact ⟨h1, h2⟩
      · exact hset _ _ (by simp)

theorem inv_sendNext (hI : Inv s) {o : ℕ} {call : Call V C} {answer : Option (Answer C)}
    (hold : ∀ c, s.calls o = some c → c.tx = call.tx) (hconn : call.conn = (s.txs call.tx).conn)
    (hph : (s.txs call.tx).phase ≠ .idle)
    (hlive : call.rest.isDone = false → Live s call.tx)
    (h : sendNext s o call answer = some s') : Inv s' := by
  unfold sendNext at h
  split at h
  · cases h
  · next q next hr =>
    cases h
    exact inv_execute hI hold hconn hph (hlive (by rw [hr]; rfl))

theorem Inv.inactive (hI : Inv s) {t : ℕ} (h : (s.txs t).phase ≠ .running) :
    s.activeTransactions t = none := by
  rcases ha : s.activeTransactions t with _ | c
  · rfl
  · exact absurd (hI.active t c ha).2 h

theorem inv_finish (hI : Inv s) {t : ℕ} (hP : s.openTx (s.txs t).conn = some t → Drained s t)
    (h : finishStep s t = some s') : Inv s' := by
  have hend : ∀ commit, (s.txs t).phase ≠ .idle → (s.txs t).phase ≠ .running →
      (if s.openTx (s.txs t).conn == some t then some (endTx s t commit)
        else some (s.setTx t { s.txs t with phase := .ended })) = some s' → Inv s' := by
    intro commit hidle hrun h
    have hact := hI.inactive hrun
    split at h
    · next ho =>
      have ho' : s.openTx (s.txs t).conn = some t := by simpa using ho
      cases h
      exact inv_endTx hI ho' hact (hP ho')
    · cases h
      refine hI.setTx rfl rfl hidle (by simp) (by simp) fun t' c hc => ?_
      have ht : t' ≠ t := by
        rintro rfl
        rw [hact] at hc
        cases hc
      rw [setTx_of_ne s _ ht]
      exact hI.active t' c hc
  unfold finishStep at h
  dsimp only at h
  split at h
  · next resolved hph => exact hend resolved (by simp [hph]) (by simp [hph]) h
  · next hph => exact hend false (by simp [hph]) (by simp [hph]) h
  · cases h

/-- The invariant is kept by every step that ends no transaction with operations under way. -/
theorem inv_step {e : Ev V C} (hI : Inv s) (hP : EndsDrained s e) (h : step A s e = some s') :
    Inv s' := by
  unfold step at h
  split at h
  · next t c =>
    split_ifs at h with hc
    cases h
    exact inv_begin hI hc.1 hc.2.1 hc.2.2
  · next t =>
    split_ifs at h with hph
    cases h
    refine hI.setTx rfl rfl (by simp [hph]) (by simp) (by simp [hph]) fun t' c hc => ?_
    by_cases ht : t' = t
    · subst ht
      rw [Function.update_self] at hc
      rw [setTx_self]
      exact ⟨(Option.some.inj hc).symm, rfl⟩
    · rw [Function.update_of_ne ht] at hc
      rw [setTx_of_ne s _ ht]
      exact hI.active t' c hc
  · next o t op answer =>
    split at h
    · next c hno hr =>
      obtain ⟨hconn, hph⟩ := hI.active t c hr
      exact inv_sendNext hI (by simp [hno]) hconn (by simp [hph])
        (fun _ => hI.live t (by simp [hph]) (by simp [hph])) h
    · cases h
      exact hI
    · cases h
  · next o answer =>
    obtain ⟨call, hcall, h⟩ := Option.bind_eq_some_iff.mp h
    obtain ⟨hconn, hph⟩ := hI.calls o call hcall
    refine inv_sendNext hI (fun c hc => ?_) hconn hph (hI.rest o call hcall) h
    rw [hcall] at hc
    rw [Option.some.inj hc]
  · next t resolved =>
    split_ifs at h with hph
    cases h
    refine hI.setTx rfl rfl (by simp [hph]) (by simp) (by simp [hph]) fun t' c hc => ?_
    by_cases ht : t' = t
    · subst ht
      rw [Function.update_self] at hc
      cases hc
    · rw [Function.update_of_ne ht] at hc
      rw [setTx_of_ne s _ ht]
      exact hI.active t' c hc
  · next t => exact inv_finish hI hP h
  · next c =>
    cases h
    exact inv_die hI c

/-- A statement that is sent after the end of its transaction, on a connection that is alive, is
not confined. -/
theorem escapes {t o : ℕ} {call : Call V C} {q : Stmt V C}
    {next : Answer C → Prog (Stmt V C) (Answer C)} (a : Answer C) (hI : Inv s)
    (hfin : (step A s (.finish t)).isSome = true) (hopen : s.openTx (s.txs t).conn = some t)
    (hcall : s.calls o = some call) (ht : call.tx = t) (hr : call.rest = .send q next) :
    ∃ s₂, run (step A) [.finish t, .send o (some a)] s = some s₂ ∧ ¬ Confined s₂ := by
  obtain ⟨hconn, -⟩ := hI.calls o call hcall
  obtain ⟨-, halive, -, -⟩ := hI.opened _ t hopen
  have hend : ∃ commit, step A s (.finish t) = some (endTx s t commit) := by
    have hlive : (s.openTx (s.txs t).conn == some t) = true := by simp [hopen]
    rw [step, finishStep] at hfin ⊢
    split at hfin
    · next resolved _ => exact ⟨resolved, by rw [if_pos hlive]⟩
    · exact ⟨false, by rw [if_pos hlive]⟩
    · cases hfin
  obtain ⟨commit, hend⟩ := hend
  have hcalls : (endTx s t commit).calls o = some call := by
    unfold endTx
    dsimp only
    split <;> exact hcall
  have hfree : (endTx s t commit).openTx call.conn = none := by
    rw [hconn, ht]
    unfold endTx
    dsimp only
    split <;> exact Function.update_self ..
  have halive' : (endTx s t commit).alive call.conn = true := by
    rw [hconn, ht]
    unfold endTx
    dsimp only
    split <;> exact halive
  have hsend : step A (endTx s t commit) (.send o (some a)) =
      some { (endTx s t commit).setCall o { call with rest := next a } with
        executed := (endTx s t commit).executed ++ [⟨o, q, none⟩]
        durable := (endTx s t commit).durable ++ [⟨o, q, none⟩] } := by
    rw [step, hcalls]
    simp only [Option.bind_some, sendNext, hr, execute, halive', hfree]
    simp
  refine ⟨_, by rw [run_cons, hend, Option.bind_some, run_cons, hsend]; rfl, fun hC => ?_⟩
  obtain ⟨c, -, hin⟩ := hC.inside ⟨o, q, none⟩ (by simp)
  cases hin

/-- SHA-256 as far as it is needed, any entry, and a merge that keeps the incoming entry. -/
def someAdapters : Adapters Unit := ⟨Ckpt.RoundTrip.sha256OfByte, fun _ => true, fun _ e => some e⟩

/-- One row: the sequence number 1, the manifest 1, no entry. -/
def oneRow : Answer Unit := ⟨1, 1, 1, .ok none⟩

/-- `fn` awaits a `save` of one byte, and the transaction commits. -/
def awaitedSave : List (Ev ℕ Unit) :=
  [.begin 0 0, .register 0, .call 0 0 (.save [97] [109] [1] ⟨none, none⟩) (some oneRow),
    .send 0 (some oneRow), .send 0 (some oneRow), .send 0 (some oneRow), .settle 0 true, .finish 0]

/-- `Promise.all` of a `save` and a `put` that expects no version and finds one: `fn` rejects while
the `save` waits for its first answer. The foreign key rejects its last statement. -/
def promiseAll : List (Ev ℕ Unit) :=
  [.begin 0 0, .register 0, .call 0 0 (.save [97] [109] [1] ⟨none, none⟩) (some oneRow),
    .call 1 0 (.put ⟨[], [], [107]⟩ (some 7) (some 0)) (some ⟨0, 0, 0, .ok none⟩),
    .send 1 (some oneRow), .settle 0 false, .finish 0, .send 0 (some oneRow),
    .send 0 (some oneRow), .send 0 none]

end UmbraDB.Tx.Handle
