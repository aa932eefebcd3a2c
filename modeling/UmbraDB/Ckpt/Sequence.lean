import UmbraDB.Lib.Allocator
import UmbraDB.Ckpt.RoundTrip
import UmbraDB.Tx.Statements

/-! # Checkpoint store: the sequence numbers of committed saves

Any number of transactions and any number of calls of `save` in each of them, whose statements are
interleaved in any way: also two saves of one transaction, when its `fn` does not wait for the first
before it calls the second. A save runs the statements of `runOnTx`. The upsert on
`ckpt_sequence_counters` inserts the row with `next_seq = 2` or increments it, waits for another
transaction that holds it, also for one that inserted it and did not commit yet, and keeps the lock
to the end of its transaction; in both branches it returns the number before `next_seq`.

A rollback is possible at any moment, and a statement that fails leaves its transaction to it. A
transaction commits after its saves have ended. The manifests a `prune` deletes are left open, and
so is what its chunk `DELETE` does: no statement of it reads or writes a counter.

* `save_sequences` : the numbers of the committed saves of a pair are `1, …, N` in commit order, a
  running transaction continues them, and a save called after another one had ended gets the larger
  number.
* `promiseAll_reverses` : a save called first, but with chunks to upsert, gets the larger number. -/

namespace UmbraDB.Ckpt.Sequence

open UmbraDB.Js.Text UmbraDB.Lib.Runs UmbraDB.Lib.RowStore UmbraDB.Lib.Allocator UmbraDB.Lib.Batches
open UmbraDB.Ckpt.Rows UmbraDB.Ckpt.System UmbraDB.Tx.Statements
open UmbraDB.Ckpt.RoundTrip (sha256OfByte)

variable {V C : Type}

/-! ### The system -/

/-- The columns of a row of `ckpt_manifests` that identify the checkpoint, and the save that
inserted it. -/
structure SavedRow where
  w : JsString
  net : JsString
  seq : ℕ
  savedBy : ℕ
  deriving DecidableEq

/-- A call of `save` in the transaction `tx`, with the statements it has left. -/
structure Save (V C : Type) where
  tx : ℕ
  w : JsString
  net : JsString
  rest : Prog (Stmt V C) (Answer C)
  /-- `claimed_seq`, once it has it. -/
  claimed : Option ℕ
  /-- The `id` of its manifest, once it is inserted. -/
  manifest : Option ℕ

def Save.key (x : Save V C) : JsString × JsString := (x.w, x.net)

/-- A transaction and the saves called in it. -/
structure Txn where
  status : Status
  calls : List ℕ

/-- The state; the saves are numbered in the order of their calls. -/
structure SeqState (V C : Type) where
  counters : Counters ℕ (JsString × JsString) ℕ
  manifests : Table ℕ ℕ (Option SavedRow)
  nextId : ℕ
  saves : ℕ → Option (Save V C)
  nextCall : ℕ
  txs : ℕ → Txn

def SeqState.init : SeqState V C :=
  ⟨.init, .fresh fun _ => none, 1, fun _ => none, 0, fun _ => ⟨.idle, []⟩⟩

inductive Ev
  | begin (t : ℕ)
  /-- `save` is called, with the handle of `t` or in its own transaction `t`. -/
  | call (t : ℕ) (w net : JsString) (data : Bytes) (opts : SaveOptions)
  /-- The next statement of the save. -/
  | exec (i : ℕ)
  /-- The manifest `DELETE` of a `prune` comes to a row. -/
  | delete (p id : ℕ)
  | commit (t : ℕ)
  | rollback (t : ℕ)

def SeqState.setSave (s : SeqState V C) (i : ℕ) (x : Save V C) : SeqState V C :=
  { s with saves := Function.update s.saves i (some x) }

def SeqState.setStatus (s : SeqState V C) (t : ℕ) (status : Status) : SeqState V C :=
  { s with txs := Function.update s.txs t { s.txs t with status := status } }

/-- An answer of which no column is read. -/
def noRow : Answer C := ⟨0, 0, 0, .ok none⟩

/-- A statement of the save `i`. -/
def execStmt (s : SeqState V C) (i : ℕ) (x : Save V C)
    (next : Answer C → Prog (Stmt V C) (Answer C)) : Stmt V C → Option (SeqState V C)
  | .claimSeq w net =>
    if s.counters.rows.free x.tx (w, net) then
      let seq := s.counters.next x.tx (w, net)
      some { s.setSave i { x with rest := next { noRow with seq := seq }, claimed := some seq } with
        counters := s.counters.claim x.tx (w, net) i }
    else none
  | .insertManifest w net seq _ label =>
    match bindLabel label with
    | .error _ => none
    | .ok _ =>
      let id := s.nextId
      some { s.setSave i { x with rest := next { noRow with id := id }, manifest := some id } with
        manifests := s.manifests.write x.tx id (some ⟨w, net, seq, i⟩)
        nextId := id + 1 }
  | .upsertChunks _ | .insertJunction _ => some (s.setSave i { x with rest := next noRow })
  | _ => none

def execStep (s : SeqState V C) (i : ℕ) : Option (SeqState V C) :=
  match s.saves i with
  | none => none
  | some x =>
    if (s.txs x.tx).status = .running then
      match x.rest with
      | .done => none
      | .send q next => execStmt s i x next q
    else none

/-- `save` has validated its arguments and begins with its first statement. -/
def callStep (sha256 : Bytes → Bytes) (s : SeqState V C) (t : ℕ) (w net : JsString) (data : Bytes)
    (opts : SaveOptions) : Option (SeqState V C) :=
  match assertValidCheckpointIds w net, validateSaveOptions opts with
  | .ok _, .ok opts =>
    if (s.txs t).status = .running then
      some { s.setSave s.nextCall ⟨t, w, net, runOnTx sha256 w net data opts, none, none⟩ with
        txs := Function.update s.txs t ⟨.running, s.nextCall :: (s.txs t).calls⟩
        nextCall := s.nextCall + 1 }
    else none
  | _, _ => none

def deleteStep (s : SeqState V C) (p id : ℕ) : Option (SeqState V C) :=
  if (s.txs p).status = .running ∧ s.manifests.free p id = true ∧
      (s.manifests.view p id).isSome = true then
    some { s with manifests := s.manifests.write p id none }
  else none

/-- The save has sent all its statements. -/
def SeqState.ended (s : SeqState V C) (i : ℕ) : Bool :=
  (s.saves i).any fun x => x.rest.isDone

def step (sha256 : Bytes → Bytes) (s : SeqState V C) : Ev → Option (SeqState V C)
  | .begin t => if (s.txs t).status = .idle then some (s.setStatus t .running) else none
  | .call t w net data opts => callStep sha256 s t w net data opts
  | .exec i => execStep s i
  | .delete p id => deleteStep s p id
  | .commit t =>
    if (s.txs t).status = .running ∧ (s.txs t).calls.all s.ended = true then
      some { s.setStatus t .committed with
        counters := s.counters.commit t
        manifests := s.manifests.commit t }
    else none
  | .rollback t =>
    if (s.txs t).status = .running then
      some { s.setStatus t .rolledBack with
        counters := s.counters.rollback t
        manifests := s.manifests.rollback t }
    else none

/-- The committed saves, in commit order, and inside a transaction in the order of their counter
statements. -/
def SeqState.log (s : SeqState V C) : List (Claim (JsString × JsString) ℕ) := s.counters.log

/-! ### Where a save is -/

/-- What `runOnTx` does after it has its manifest, for chunks with these hashes. -/
def joinChunks (hashes : List Bytes) (manifest : Answer C) : Prog (Stmt V C) (Answer C) :=
  sendAll ((batches junctionInsertMaxRows (junctionRowsOf manifest.id 0 hashes)).map
    .insertJunction) .done

/-- What `runOnTx` does after it has its number. -/
def insertManifest (w net : JsString) (manifestHash : Bytes) (label : Option JsString)
    (hashes : List Bytes) (claimed : Answer C) : Prog (Stmt V C) (Answer C) :=
  .send (.insertManifest w net claimed.seq manifestHash label) (joinChunks hashes)

/-- A save of the pair, with its number and its manifest so far, and the statements it has left. -/
inductive At (w net : JsString) : Option ℕ → Option ℕ → Prog (Stmt V C) (Answer C) → Prop
  | upserting (batches : List (List (Bytes × Bytes))) (manifestHash : Bytes)
      (label : Option JsString) (hashes : List Bytes) :
      At w net none none (sendAll (batches.map .upsertChunks)
        (.send (.claimSeq w net) (insertManifest w net manifestHash label hashes)))
  | inserting (claimed : Answer C) (manifestHash : Bytes) (label : Option JsString)
      (hashes : List Bytes) :
      At w net (some claimed.seq) none (insertManifest w net manifestHash label hashes claimed)
  | joining (seq id : ℕ) (batches : List (List JunctionRow)) :
      At w net (some seq) (some id) (sendAll (batches.map .insertJunction) .done)

theorem at_runOnTx (sha256 : Bytes → Bytes) (w net : JsString) (data : Bytes)
    (opts : SaveOptions) :
    At w net none none (runOnTx sha256 w net data opts : Prog (Stmt V C) (Answer C)) :=
  .upserting _ _ _ _

theorem At.claimed_of_done {w net : JsString} {claimed manifest : Option ℕ}
    {rest : Prog (Stmt V C) (Answer C)} (h : At w net claimed manifest rest)
    (hd : rest.isDone = true) : ∃ seq, claimed = some seq := by
  rcases h with ⟨batches, manifestHash, label, hashes⟩ | _ | _
  · cases batches <;> cases hd
  · exact ⟨_, rfl⟩
  · exact ⟨_, rfl⟩

/-- The save `i` of a running transaction has moved from `x` to `x'`. -/
structure Moved (s s' : SeqState V C) (i : ℕ) (x x' : Save V C) : Prop where
  before : s.saves i = some x
  running : (s.txs x.tx).status = .running
  saves : s'.saves = Function.update s.saves i (some x')
  txs : s'.txs = s.txs
  nextCall : s'.nextCall = s.nextCall
  tx : x'.tx = x.tx
  key : x'.key = x.key
  at_rest : At x'.w x'.net x'.claimed x'.manifest x'.rest

/-- **What a statement of a save does**: it leaves the counters and the manifests alone, takes the
number of the save, or inserts its manifest. -/
theorem execStep_cases {s s' : SeqState V C} {i : ℕ} (h : execStep s i = some s')
    (hat : ∀ x, s.saves i = some x → At x.w x.net x.claimed x.manifest x.rest) :
    ∃ x x', Moved s s' i x x' ∧
      ((x'.claimed = x.claimed ∧ x'.manifest = x.manifest ∧ s'.counters = s.counters ∧
          s'.manifests = s.manifests) ∨
       (x.claimed = none ∧ s.counters.rows.free x.tx x.key = true ∧
          x'.claimed = some (s.counters.next x.tx x.key) ∧ x'.manifest = x.manifest ∧
          s'.counters = s.counters.claim x.tx x.key i ∧ s'.manifests = s.manifests) ∨
       (∃ seq, x.claimed = some seq ∧ x'.claimed = some seq ∧ x.manifest = none ∧
          x'.manifest = some s.nextId ∧ s'.counters = s.counters ∧
          s'.manifests = s.manifests.write x.tx s.nextId (some ⟨x.w, x.net, seq, i⟩))) := by
  unfold execStep at h
  split at h
  · cases h
  · rename_i x hx
    split at h
    · rename_i hrun
      refine ⟨x, ?_⟩
      obtain ⟨t, w, net, rest, claimed, manifest⟩ := x
      have hx' : At w net claimed manifest rest := hat _ hx
      rcases hx' with ⟨batches, mh, label, hashes⟩ | ⟨a, mh, label, hashes⟩ | ⟨seq, id, batches⟩
      · rcases batches with _ | ⟨b, bs⟩
        · simp only [List.map_nil, sendAll, execStmt] at h
          split at h
          · rename_i hf
            cases h
            exact ⟨_, ⟨hx, hrun, rfl, rfl, rfl, rfl, rfl,
              .inserting { noRow with seq := _ } mh label hashes⟩,
              Or.inr (Or.inl ⟨rfl, hf, rfl, rfl, rfl, rfl⟩)⟩
          · cases h
        · simp only [List.map_cons, sendAll, execStmt, Option.some.injEq] at h
          cases h
          exact ⟨_, ⟨hx, hrun, rfl, rfl, rfl, rfl, rfl, .upserting bs mh label hashes⟩,
            Or.inl ⟨rfl, rfl, rfl, rfl⟩⟩
      · simp only [insertManifest, execStmt] at h
        split at h
        · cases h
        · cases h
          exact ⟨_, ⟨hx, hrun, rfl, rfl, rfl, rfl, rfl, .joining _ _ _⟩,
            Or.inr (Or.inr ⟨a.seq, rfl, rfl, rfl, rfl, rfl, rfl⟩)⟩
      · rcases batches with _ | ⟨b, bs⟩
        · simp only [List.map_nil, sendAll] at h
          cases h
        · simp only [List.map_cons, sendAll, execStmt, Option.some.injEq] at h
          cases h
          exact ⟨_, ⟨hx, hrun, rfl, rfl, rfl, rfl, rfl, .joining seq id bs⟩,
            Or.inl ⟨rfl, rfl, rfl, rfl⟩⟩
    · cases h

/-- What a call of `save` does. -/
theorem callStep_cases {s s' : SeqState V C} {sha256 : Bytes → Bytes} {t : ℕ} {w net : JsString}
    {data : Bytes} {opts : SaveOptions} (h : callStep sha256 s t w net data opts = some s') :
    ∃ y : Save V C, (s.txs t).status = .running ∧ y.tx = t ∧ y.claimed = none ∧
      At y.w y.net y.claimed y.manifest y.rest ∧
      s'.saves = Function.update s.saves s.nextCall (some y) ∧
      s'.txs = Function.update s.txs t ⟨.running, s.nextCall :: (s.txs t).calls⟩ ∧
      s'.nextCall = s.nextCall + 1 ∧ s'.counters = s.counters ∧ s'.manifests = s.manifests := by
  unfold callStep at h
  split at h
  · rename_i opts' _ _
    split at h
    · rename_i hrun
      cases h
      exact ⟨_, hrun, rfl, rfl, at_runOnTx sha256 w net data opts', rfl, rfl, rfl, rfl, rfl⟩
    · cases h
  · cases h

/-! ### The invariant -/

/-- Transaction, pair and number of a save. -/
def SeqState.owner (s : SeqState V C) (i : ℕ) : Option (ℕ × (JsString × JsString) × Option ℕ) :=
  (s.saves i).map fun x => (x.tx, x.key, x.claimed)

def SeqState.manifestOf (s : SeqState V C) (i : ℕ) : Option ℕ := (s.saves i).bind (·.manifest)

/-- The saves and their transactions. -/
structure Calls (s : SeqState V C) : Prop where
  at_rest : ∀ i x, s.saves i = some x → At x.w x.net x.claimed x.manifest x.rest
  fresh : ∀ i, s.nextCall ≤ i → s.saves i = none
  called : ∀ i x, s.saves i = some x → (s.txs x.tx).status ≠ .idle ∧ i ∈ (s.txs x.tx).calls
  done : ∀ i x, s.saves i = some x → (s.txs x.tx).status = .committed → x.rest.isDone = true

/-- Who has which number. -/
structure Inv (s : SeqState V C) : Prop where
  counters : Lib.Allocator.Inv s.counters
  calls : Calls s
  log : ∀ c, c ∈ s.log ↔
    ∃ t, (s.txs t).status = .committed ∧ s.owner c.item = some (t, c.key, some c.seq)
  pending : ∀ t c, c ∈ s.counters.pending t ↔
    (s.txs t).status = .running ∧ s.owner c.item = some (t, c.key, some c.seq)
  rows : ∀ id m, s.manifests.committed id = some m →
    (∃ t, (s.txs t).status = .committed ∧ s.owner m.savedBy = some (t, (m.w, m.net), some m.seq)) ∧
      s.manifestOf m.savedBy = some id
  held : ∀ id t m, s.manifests.held id = some (t, some m) →
    s.owner m.savedBy = some (t, (m.w, m.net), some m.seq) ∧ s.manifestOf m.savedBy = some id

theorem owner_eq_some {s : SeqState V C} {i t : ℕ} {k : JsString × JsString} {seq : Option ℕ} :
    s.owner i = some (t, k, seq) ↔
      ∃ x, s.saves i = some x ∧ x.tx = t ∧ x.key = k ∧ x.claimed = seq := by
  unfold SeqState.owner
  rcases h : s.saves i with _ | x
  · simp
  · simp

/-- A save belongs to its transaction from its call on. -/
theorem Calls.owner_ne_idle {s : SeqState V C} (hs : Calls s) {i t : ℕ} {k : JsString × JsString}
    {seq : Option ℕ} (ho : s.owner i = some (t, k, seq)) : (s.txs t).status ≠ .idle := by
  obtain ⟨x, hx, rfl, -, -⟩ := owner_eq_some.mp ho
  exact (hs.called i x hx).1

theorem setStatus_of_ne {s : SeqState V C} {t t' : ℕ} {status : Status} (h : t' ≠ t) :
    (s.setStatus t status).txs t' = s.txs t' :=
  Function.update_of_ne h _ _

@[simp] theorem setStatus_self (s : SeqState V C) (t : ℕ) (status : Status) :
    (s.setStatus t status).txs t = ⟨status, (s.txs t).calls⟩ :=
  Function.update_self _ _ _

namespace Moved

variable {s s' : SeqState V C} {i : ℕ} {x x' : Save V C}

theorem saves_self (h : Moved s s' i x x') : s'.saves i = some x' := by
  rw [h.saves, Function.update_self]

theorem saves_ne (h : Moved s s' i x x') {j : ℕ} (hj : j ≠ i) : s'.saves j = s.saves j := by
  rw [h.saves, Function.update_of_ne hj]

theorem owner_self (h : Moved s s' i x x') : s'.owner i = some (x.tx, x.key, x'.claimed) :=
  owner_eq_some.mpr ⟨x', h.saves_self, h.tx, h.key, rfl⟩

theorem owner_before (h : Moved s s' i x x') : s.owner i = some (x.tx, x.key, x.claimed) :=
  owner_eq_some.mpr ⟨x, h.before, rfl, rfl, rfl⟩

theorem owner_ne (h : Moved s s' i x x') {j : ℕ} (hj : j ≠ i) : s'.owner j = s.owner j := by
  unfold SeqState.owner
  rw [h.saves_ne hj]

theorem manifestOf_ne (h : Moved s s' i x x') {j : ℕ} (hj : j ≠ i) :
    s'.manifestOf j = s.manifestOf j := by
  unfold SeqState.manifestOf
  rw [h.saves_ne hj]

/-- A save without a new number keeps its transaction, its pair and its number. -/
theorem owner_eq (h : Moved s s' i x x') (hc : x'.claimed = x.claimed) : s'.owner = s.owner := by
  funext j
  by_cases hj : j = i
  · subst hj
    rw [h.owner_self, h.owner_before, hc]
  · exact h.owner_ne hj

theorem manifestOf_eq (h : Moved s s' i x x') (hm : x'.manifest = x.manifest) :
    s'.manifestOf = s.manifestOf := by
  funext j
  by_cases hj : j = i
  · subst hj
    unfold SeqState.manifestOf
    rw [h.saves_self, h.before, Option.bind_some, Option.bind_some, hm]
  · exact h.manifestOf_ne hj

theorem calls (h : Moved s s' i x x') (hs : Calls s) : Calls s' := by
  refine ⟨fun j y hy => ?_, fun j hj => ?_, fun j y hy => ?_, fun j y hy hc => ?_⟩
  all_goals by_cases hji : j = i
  · subst hji
    cases h.saves_self.symm.trans hy
    exact h.at_rest
  · exact hs.at_rest j y (by rwa [h.saves_ne hji] at hy)
  · subst hji
    have hn := hs.fresh j (by rwa [h.nextCall] at hj)
    rw [h.before] at hn
    cases hn
  · rw [h.saves_ne hji]
    exact hs.fresh j (by rwa [h.nextCall] at hj)
  · subst hji
    cases h.saves_self.symm.trans hy
    rw [h.txs, h.tx]
    exact hs.called j x h.before
  · rw [h.txs]
    exact hs.called j y (by rwa [h.saves_ne hji] at hy)
  · subst hji
    cases h.saves_self.symm.trans hy
    rw [h.txs, h.tx, h.running] at hc
    cases hc
  · exact hs.done j y (by rwa [h.saves_ne hji] at hy) (by rwa [h.txs] at hc)

end Moved

namespace Inv

variable {s s' : SeqState V C}

theorem init : Inv (SeqState.init : SeqState V C) where
  counters := Lib.Allocator.Inv.init
  calls := ⟨fun _ _ h => (by cases h), fun _ _ => rfl, fun _ _ h => (by cases h),
    fun _ _ h => (by cases h)⟩
  log c := by simp [SeqState.log, SeqState.init, Counters.init]
  pending t c := by simp [SeqState.init, Counters.init]
  rows _ _ h := by cases h
  held _ _ _ h := by cases h

/-- A save that has its number is in the log, or among the claims of its transaction. -/
theorem mem_of_live (hs : Inv s) {i t seq : ℕ} {k : JsString × JsString}
    (ho : s.owner i = some (t, k, some seq)) (hl : (s.txs t).status ≠ .rolledBack) :
    (⟨i, k, seq⟩ : Claim _ ℕ) ∈ s.log ∨
      ∃ t', (⟨i, k, seq⟩ : Claim _ ℕ) ∈ s.counters.pending t' := by
  rcases hst : (s.txs t).status with _ | _ | _ | _
  · exact absurd hst (hs.calls.owner_ne_idle ho)
  · exact Or.inr ⟨t, (hs.pending t _).mpr ⟨hst, ho⟩⟩
  · exact Or.inl ((hs.log _).mpr ⟨t, hst, ho⟩)
  · exact absurd hst hl

theorem owner_of_ended (hs : Inv s) {i : ℕ} (h : s.ended i = true) :
    ∃ t q k, s.owner i = some (t, k, some q) := by
  rcases hx : s.saves i with _ | x
  · rw [SeqState.ended, hx] at h
    cases h
  · rw [SeqState.ended, hx] at h
    obtain ⟨q, hq⟩ := (hs.calls.at_rest i x hx).claimed_of_done h
    exact ⟨x.tx, q, x.key, owner_eq_some.mpr ⟨x, hx, rfl, rfl, hq⟩⟩

/-! ### The statements of a save -/

/-- A statement that leaves the counters and the manifests alone. -/
theorem moved (hs : Inv s) {i : ℕ} {x x' : Save V C} (h : Moved s s' i x x')
    (hc : x'.claimed = x.claimed) (hm : x'.manifest = x.manifest) (hcs : s'.counters = s.counters)
    (hms : s'.manifests = s.manifests) : Inv s' := by
  have ho := h.owner_eq hc
  have hmf := h.manifestOf_eq hm
  refine ⟨by rw [hcs]; exact hs.counters, h.calls hs.calls, fun c => ?_, fun t c => ?_,
    fun id m hm => ?_, fun id t m hm => ?_⟩
  · rw [SeqState.log, hcs, ho, h.txs]
    exact hs.log c
  · rw [hcs, ho, h.txs]
    exact hs.pending t c
  · rw [ho, hmf, h.txs]
    exact hs.rows id m (by rwa [hms] at hm)
  · rw [ho, hmf]
    exact hs.held id t m (by rwa [hms] at hm)

/-- The statement on `ckpt_sequence_counters`. -/
theorem claimed (hs : Inv s) {i : ℕ} {x x' : Save V C} (h : Moved s s' i x x')
    (hnone : x.claimed = none) (hf : s.counters.rows.free x.tx x.key = true)
    (hc : x'.claimed = some (s.counters.next x.tx x.key)) (hm : x'.manifest = x.manifest)
    (hcs : s'.counters = s.counters.claim x.tx x.key i) (hms : s'.manifests = s.manifests) :
    Inv s' := by
  have hi := h.owner_before
  have hi' := h.owner_self
  have hmf := h.manifestOf_eq hm
  rw [hnone] at hi
  rw [hc] at hi'
  -- the saves that have a number already are not `i`
  have hold : ∀ {j t q k}, s.owner j = some (t, k, some q) → j ≠ i := by
    rintro j t q k ho rfl
    rw [hi] at ho
    cases ho
  refine ⟨by rw [hcs]; exact hs.counters.claim hf i, h.calls hs.calls, fun c => ?_, fun t c => ?_,
    fun id m hm => ?_, fun id t m hm => ?_⟩
  · rw [SeqState.log, hcs, h.txs]
    refine (hs.log c).trans (exists_congr fun t => and_congr_right fun ht => ?_)
    by_cases hj : c.item = i
    · rw [hj, hi, hi']
      simp only [Option.some.injEq, Prod.mk.injEq, reduceCtorEq, and_false, false_iff]
      rintro ⟨rfl, -, -⟩
      rw [h.running] at ht
      cases ht
    · rw [h.owner_ne hj]
  · rw [hcs, h.txs]
    by_cases ht : t = x.tx
    · subst ht
      have hp : (s.counters.claim x.tx x.key i).pending x.tx =
          s.counters.pending x.tx ++ [⟨i, x.key, s.counters.next x.tx x.key⟩] :=
        Function.update_self _ _ _
      rw [hp, List.mem_append, List.mem_singleton, hs.pending]
      by_cases hj : c.item = i
      · obtain ⟨item, key, seq⟩ := c
        cases hj
        simp only [hi, hi', h.running, true_and, Option.some.injEq, Prod.mk.injEq, reduceCtorEq,
          and_false, false_or, Claim.mk.injEq]
        exact and_congr eq_comm eq_comm
      · rw [h.owner_ne hj]
        refine or_iff_left fun he => hj ?_
        rw [he]
    · have hp : (s.counters.claim x.tx x.key i).pending t = s.counters.pending t :=
        Function.update_of_ne ht _ _
      rw [hp]
      refine (hs.pending t c).trans (and_congr_right fun _ => ?_)
      by_cases hj : c.item = i
      · rw [hj, hi, hi']
        simp only [Option.some.injEq, Prod.mk.injEq, Ne.symm ht, false_and]
      · rw [h.owner_ne hj]
  · obtain ⟨⟨t, ht, ho⟩, hmo⟩ := hs.rows id m (by rwa [hms] at hm)
    rw [h.txs, hmf, h.owner_ne (hold ho)]
    exact ⟨⟨t, ht, ho⟩, hmo⟩
  · obtain ⟨ho, hmo⟩ := hs.held id t m (by rwa [hms] at hm)
    rw [hmf, h.owner_ne (hold ho)]
    exact ⟨ho, hmo⟩

/-- The manifest `INSERT`. -/
theorem inserted (hs : Inv s) {i seq : ℕ} {x x' : Save V C} (h : Moved s s' i x x')
    (hc : x.claimed = some seq) (hc' : x'.claimed = some seq) (hm : x.manifest = none)
    (hm' : x'.manifest = some s.nextId) (hcs : s'.counters = s.counters)
    (hms : s'.manifests = s.manifests.write x.tx s.nextId (some ⟨x.w, x.net, seq, i⟩)) :
    Inv s' := by
  have ho := h.owner_eq (hc'.trans hc.symm)
  -- a save that has a manifest already is not `i`
  have hold : ∀ {j id}, s.manifestOf j = some id → s'.manifestOf j = some id := by
    intro j id hj
    by_cases hji : j = i
    · subst hji
      rw [SeqState.manifestOf, h.before, Option.bind_some, hm] at hj
      cases hj
    · rw [h.manifestOf_ne hji, hj]
  refine ⟨by rw [hcs]; exact hs.counters, h.calls hs.calls, fun c => ?_, fun t c => ?_,
    fun id m hr => ?_, fun id t m hr => ?_⟩
  · rw [SeqState.log, hcs, ho, h.txs]
    exact hs.log c
  · rw [hcs, ho, h.txs]
    exact hs.pending t c
  · rw [ho, h.txs]
    rw [hms, Table.write_committed] at hr
    obtain ⟨hr, hmo⟩ := hs.rows id m hr
    exact ⟨hr, hold hmo⟩
  · rw [ho]
    rw [hms] at hr
    by_cases hid : id = s.nextId
    · subst hid
      rw [Table.write_held_self] at hr
      cases hr
      refine ⟨by rw [h.owner_before, hc]; rfl, ?_⟩
      rw [SeqState.manifestOf, h.saves_self, Option.bind_some, hm']
    · rw [Table.write_held_ne _ _ _ hid] at hr
      obtain ⟨ho', hmo⟩ := hs.held id t m hr
      exact ⟨ho', hold hmo⟩

theorem exec (hs : Inv s) {i : ℕ} (h : execStep s i = some s') : Inv s' := by
  obtain ⟨x, x', hmv, ⟨hc, hm, hcs, hms⟩ | ⟨hn, hf, hc, hm, hcs, hms⟩ |
    ⟨seq, hc, hc', hm, hm', hcs, hms⟩⟩ := execStep_cases h fun x hx => hs.calls.at_rest i x hx
  · exact hs.moved hmv hc hm hcs hms
  · exact hs.claimed hmv hn hf hc hm hcs hms
  · exact hs.inserted hmv hc hc' hm hm' hcs hms

/-! ### The other steps -/

theorem begin (hs : Inv s) {t : ℕ} (ht : (s.txs t).status = .idle) :
    Inv (s.setStatus t .running) := by
  -- an idle transaction has no saves
  have hne : ∀ {i t' : ℕ} {k : JsString × JsString} {seq : Option ℕ},
      s.owner i = some (t', k, seq) → t' ≠ t := by
    rintro i t' k seq ho rfl
    exact hs.calls.owner_ne_idle ho ht
  have htx : ∀ {i x}, s.saves i = some x → (s.setStatus t .running).txs x.tx = s.txs x.tx :=
    fun {i x} hx => setStatus_of_ne (hne (owner_eq_some.mpr ⟨x, hx, rfl, rfl, rfl⟩))
  refine ⟨hs.counters, ⟨hs.calls.at_rest, hs.calls.fresh, fun i x hx => ?_, fun i x hx => ?_⟩,
    fun c => ?_, fun t' c => ?_, fun id m hm => ?_, hs.held⟩
  · rw [htx hx]
    exact hs.calls.called i x hx
  · rw [htx hx]
    exact hs.calls.done i x hx
  · refine (hs.log c).trans (exists_congr fun t' => and_congr_left fun ho => ?_)
    rw [setStatus_of_ne (hne ho)]
  · refine (hs.pending t' c).trans (and_congr_left fun ho => ?_)
    rw [setStatus_of_ne (hne ho)]
  · obtain ⟨⟨t', ht', ho⟩, hmf⟩ := hs.rows id m hm
    exact ⟨⟨t', by rw [setStatus_of_ne (hne ho), ht'], ho⟩, hmf⟩

theorem delete (hs : Inv s) {p id : ℕ} (h : deleteStep s p id = some s') : Inv s' := by
  unfold deleteStep at h
  split at h
  · cases h
    refine ⟨hs.counters, ⟨hs.calls.at_rest, hs.calls.fresh, hs.calls.called, hs.calls.done⟩,
      hs.log, hs.pending, hs.rows, fun id' t m hm => ?_⟩
    by_cases hid : id' = id
    · subst hid
      cases (Table.write_held_self s.manifests p id' none).symm.trans hm
    · exact hs.held id' t m ((Table.write_held_ne s.manifests p none hid).symm.trans hm)
  · cases h

/-- A new save has no number yet. -/
theorem call (hs : Inv s) {sha256 : Bytes → Bytes} {t : ℕ} {w net : JsString} {data : Bytes}
    {opts : SaveOptions} (h : callStep sha256 s t w net data opts = some s') : Inv s' := by
  obtain ⟨y, hrun, hyt, hyc, hat, hsv, htx, hnc, hcs, hms⟩ := callStep_cases h
  have hn : s.saves s.nextCall = none := hs.calls.fresh s.nextCall le_rfl
  have hst : ∀ t', (s'.txs t').status = (s.txs t').status := by
    intro t'
    rw [htx]
    by_cases ht : t' = t
    · subst ht
      rw [Function.update_self, hrun]
    · rw [Function.update_of_ne ht]
  have hmem : ∀ {i t'}, i ∈ (s.txs t').calls → i ∈ (s'.txs t').calls := by
    intro i t' hi
    rw [htx]
    by_cases ht : t' = t
    · subst ht
      rw [Function.update_self]
      exact List.mem_cons_of_mem _ hi
    · rwa [Function.update_of_ne ht]
  have hself : s'.saves s.nextCall = some y := by rw [hsv, Function.update_self]
  have hne : ∀ {j}, j ≠ s.nextCall → s'.saves j = s.saves j := fun hj => by
    rw [hsv, Function.update_of_ne hj]
  have ho : ∀ {j t' k q}, s'.owner j = some (t', k, some q) ↔ s.owner j = some (t', k, some q) := by
    intro j t' k q
    by_cases hj : j = s.nextCall
    · subst hj
      simp [SeqState.owner, hself, hn, hyc]
    · simp [SeqState.owner, hne hj]
  have hmf : ∀ {j id}, s.manifestOf j = some id → s'.manifestOf j = some id := by
    intro j id hj
    by_cases hji : j = s.nextCall
    · subst hji
      rw [SeqState.manifestOf, hn] at hj
      cases hj
    · rwa [SeqState.manifestOf, hne hji]
  refine ⟨by rw [hcs]; exact hs.counters, ⟨fun j x hx => ?_, fun j hj => ?_, fun j x hx => ?_,
    fun j x hx hc => ?_⟩, fun c => ?_, fun t' c => ?_, fun id m hr => ?_, fun id t' m hr => ?_⟩
  · by_cases hj : j = s.nextCall
    · subst hj
      cases hself.symm.trans hx
      exact hat
    · exact hs.calls.at_rest j x ((hne hj).symm.trans hx)
  · rw [hnc] at hj
    rw [hne (by omega)]
    exact hs.calls.fresh j (by omega)
  · rw [hst]
    by_cases hj : j = s.nextCall
    · subst hj
      cases hself.symm.trans hx
      rw [hyt, hrun, htx, Function.update_self]
      exact ⟨by simp, List.mem_cons_self⟩
    · have hx' := hs.calls.called j x ((hne hj).symm.trans hx)
      exact ⟨hx'.1, hmem hx'.2⟩
  · rw [hst] at hc
    by_cases hj : j = s.nextCall
    · subst hj
      cases hself.symm.trans hx
      rw [hyt, hrun] at hc
      cases hc
    · exact hs.calls.done j x ((hne hj).symm.trans hx) hc
  · rw [SeqState.log, hcs]
    simp only [ho, hst]
    exact hs.log c
  · rw [hcs, hst, ho]
    exact hs.pending t' c
  · obtain ⟨⟨t', ht', ho'⟩, hmo⟩ := hs.rows id m (by rwa [hms] at hr)
    exact ⟨⟨t', by rw [hst, ht'], ho.mpr ho'⟩, hmf hmo⟩
  · obtain ⟨ho', hmo⟩ := hs.held id t' m (by rwa [hms] at hr)
    exact ⟨ho.mpr ho', hmf hmo⟩

/-- The end of a transaction does not touch the list of its calls. -/
theorem called_setStatus (hs : Inv s) {t i : ℕ} {status : Status} (hne : status ≠ .idle)
    {x : Save V C} (hx : s.saves i = some x) :
    ((s.setStatus t status).txs x.tx).status ≠ .idle ∧
      i ∈ ((s.setStatus t status).txs x.tx).calls := by
  by_cases ht : x.tx = t
  · rw [ht, setStatus_self]
    exact ⟨hne, ht ▸ (hs.calls.called i x hx).2⟩
  · rw [setStatus_of_ne ht]
    exact hs.calls.called i x hx

/-- Nothing is left pending of a transaction that has ended. -/
theorem pending_setStatus (hs : Inv s) {t : ℕ} {status : Status} (hne : status ≠ .running)
    (t' : ℕ) (c : Claim (JsString × JsString) ℕ) :
    c ∈ Function.update s.counters.pending t [] t' ↔
      ((s.setStatus t status).txs t').status = .running ∧
        s.owner c.item = some (t', c.key, some c.seq) := by
  by_cases ht : t' = t
  · subst ht
    simp [hne]
  · rw [Function.update_of_ne ht, setStatus_of_ne ht]
    exact hs.pending t' c

theorem commit (hs : Inv s) {t : ℕ} (hrun : (s.txs t).status = .running)
    (hend : (s.txs t).calls.all s.ended = true) :
    Inv { s.setStatus t .committed with
      counters := s.counters.commit t
      manifests := s.manifests.commit t } := by
  have htx : ∀ {t'}, t' ≠ t → (s.setStatus t .committed).txs t' = s.txs t' := setStatus_of_ne
  refine ⟨hs.counters.commit t, ⟨hs.calls.at_rest, hs.calls.fresh,
    fun i x hx => hs.called_setStatus (by simp) hx, fun i x hx hc => ?_⟩, fun c => ?_,
    hs.pending_setStatus (by simp), fun id m hm => ?_, fun id t' m hm => ?_⟩
  · by_cases ht : x.tx = t
    · have hi := List.all_eq_true.mp hend i (ht ▸ (hs.calls.called i x hx).2)
      rw [SeqState.ended, show s.saves i = some x from hx] at hi
      exact hi
    · exact hs.calls.done i x hx (by rw [← htx ht]; exact hc)
  · show c ∈ s.counters.log ++ s.counters.pending t ↔ ∃ t',
      ((s.setStatus t .committed).txs t').status = .committed ∧ s.owner c.item = _
    rw [List.mem_append, hs.pending, show c ∈ s.counters.log ↔ _ from hs.log c]
    constructor
    · rintro (⟨t', ht', ho⟩ | ⟨-, ho⟩)
      · by_cases ht : t' = t
        · rw [ht, hrun] at ht'
          cases ht'
        · exact ⟨t', by rw [htx ht, ht'], ho⟩
      · exact ⟨t, by rw [setStatus_self], ho⟩
    · rintro ⟨t', ht', ho⟩
      by_cases ht : t' = t
      · subst ht
        exact Or.inr ⟨hrun, ho⟩
      · exact Or.inl ⟨t', by rwa [htx ht] at ht', ho⟩
  · show (∃ t', ((s.setStatus t .committed).txs t').status = .committed ∧
      s.owner m.savedBy = _) ∧ s.manifestOf m.savedBy = _
    have hm' : s.manifests.view t id = some m := hm
    rcases s.manifests.view_cases t id with hh | ⟨-, hv⟩
    · obtain ⟨ho, hmo⟩ := hs.held id t m (by rw [hh, hm'])
      exact ⟨⟨t, by rw [setStatus_self], ho⟩, hmo⟩
    · obtain ⟨⟨t', ht', ho⟩, hmo⟩ := hs.rows id m (by rw [← hv, hm'])
      have ht : t' ≠ t := by
        rintro rfl
        rw [hrun] at ht'
        cases ht'
      exact ⟨⟨t', by rw [htx ht, ht'], ho⟩, hmo⟩
  · exact hs.held id t' m (Table.unlock_eq_some.mp hm).1

theorem rollback (hs : Inv s) {t : ℕ} (hrun : (s.txs t).status = .running) :
    Inv { s.setStatus t .rolledBack with
      counters := s.counters.rollback t
      manifests := s.manifests.rollback t } := by
  have htx : ∀ {t'}, t' ≠ t → (s.setStatus t .rolledBack).txs t' = s.txs t' := setStatus_of_ne
  have hcm : ∀ t', ((s.setStatus t .rolledBack).txs t').status = .committed ↔
      (s.txs t').status = .committed := by
    intro t'
    by_cases ht : t' = t
    · subst ht
      rw [setStatus_self, hrun]
      simp
    · rw [htx ht]
  refine ⟨hs.counters.rollback t, ⟨hs.calls.at_rest, hs.calls.fresh,
    fun i x hx => hs.called_setStatus (by simp) hx, fun i x hx hc => ?_⟩, fun c => ?_,
    hs.pending_setStatus (by simp), fun id m hm => ?_, fun id t' m hm => ?_⟩
  · exact hs.calls.done i x hx ((hcm x.tx).mp hc)
  · refine (hs.log c).trans (exists_congr fun t' => and_congr_left fun _ => ?_)
    exact (hcm t').symm
  · obtain ⟨⟨t', ht', ho⟩, hmo⟩ := hs.rows id m hm
    exact ⟨⟨t', (hcm t').mpr ht', ho⟩, hmo⟩
  · exact hs.held id t' m (Table.unlock_eq_some.mp hm).1

theorem step {sha256 : Bytes → Bytes} (hs : Inv s) {e : Ev} (h : step sha256 s e = some s') :
    Inv s' := by
  rcases e with t | ⟨t, w, net, data, opts⟩ | i | ⟨p, id⟩ | t | t
  · simp only [Sequence.step] at h
    split at h
    · cases h
      exact hs.begin ‹_›
    · cases h
  · exact hs.call h
  · exact hs.exec h
  · exact hs.delete h
  · simp only [Sequence.step] at h
    split at h
    · rename_i hc
      cases h
      exact hs.commit hc.1 hc.2
    · cases h
  · simp only [Sequence.step] at h
    split at h
    · cases h
      exact hs.rollback ‹_›
    · cases h

end Inv

/-! ### From one state to the next -/

/-- What a step can do to the numbers: the log grows at its end, a save keeps its number, and a new
one is what the counter has for its transaction. -/
structure Next (s s' : SeqState V C) : Prop where
  log : s.log <+: s'.log
  rolledBack : ∀ t, (s.txs t).status = .rolledBack → (s'.txs t).status = .rolledBack
  keeps : ∀ {j t k q}, s.owner j = some (t, k, some q) → s'.owner j = some (t, k, some q)
  new : ∀ {j t k q}, s'.owner j = some (t, k, some q) → s.owner j = some (t, k, some q) ∨
    s.counters.rows.free t k = true ∧ q = s.counters.next t k

theorem Next.of_owner {s s' : SeqState V C} (hlog : s.log <+: s'.log)
    (hst : ∀ t, (s.txs t).status = .rolledBack → (s'.txs t).status = .rolledBack)
    (ho : s'.owner = s.owner) : Next s s' :=
  ⟨hlog, hst, fun h => by rw [ho, h], fun h => Or.inl (by rw [← ho, h])⟩

/-- A change of status that does not undo a rollback. -/
theorem setStatus_rolledBack {s : SeqState V C} {t : ℕ} {status : Status}
    (h : (s.txs t).status ≠ .rolledBack) (t' : ℕ) (h' : (s.txs t').status = .rolledBack) :
    ((s.setStatus t status).txs t').status = .rolledBack := by
  have hne : t' ≠ t := by
    rintro rfl
    exact h h'
  rw [setStatus_of_ne hne, h']

theorem log_prefix_of_eq {s s' : SeqState V C} (h : s'.counters = s.counters) :
    s.log <+: s'.log := by
  have he : s'.log = s.log := congrArg Counters.log h
  exact he ▸ List.prefix_rfl

theorem next_exec {s s' : SeqState V C} (hs : Inv s) {i : ℕ} (h : execStep s i = some s') :
    Next s s' := by
  obtain ⟨x, x', hmv, ⟨hc, -, hcs, -⟩ | ⟨hn, hf, hc, -, hcs, -⟩ | ⟨seq, hc, hc', -, -, hcs, -⟩⟩ :=
    execStep_cases h fun x hx => hs.calls.at_rest i x hx
  · exact .of_owner (log_prefix_of_eq hcs) (fun t => by rw [hmv.txs]; exact id)
      (hmv.owner_eq hc)
  · refine ⟨by rw [SeqState.log, SeqState.log, hcs]; exact List.prefix_rfl,
      fun t => by rw [hmv.txs]; exact id, fun {j t k q} ho => ?_, fun {j t k q} ho => ?_⟩
    · by_cases hj : j = i
      · subst hj
        rw [hmv.owner_before, hn] at ho
        cases ho
      · rw [hmv.owner_ne hj, ho]
    · by_cases hj : j = i
      · subst hj
        rw [hmv.owner_self, hc] at ho
        cases ho
        exact Or.inr ⟨hf, rfl⟩
      · exact Or.inl (by rw [← hmv.owner_ne hj, ho])
  · exact .of_owner (log_prefix_of_eq hcs) (fun t => by rw [hmv.txs]; exact id)
      (hmv.owner_eq (hc'.trans hc.symm))

theorem next_call {s s' : SeqState V C} (hs : Inv s) {sha256 : Bytes → Bytes} {t : ℕ}
    {w net : JsString} {data : Bytes} {opts : SaveOptions}
    (h : callStep sha256 s t w net data opts = some s') : Next s s' := by
  obtain ⟨y, hrun, -, hyc, -, hsv, htx, -, hcs, -⟩ := callStep_cases h
  have hn : s.saves s.nextCall = none := hs.calls.fresh s.nextCall le_rfl
  have ho : ∀ {j t' k q}, s'.owner j = some (t', k, some q) ↔ s.owner j = some (t', k, some q) := by
    intro j t' k q
    by_cases hj : j = s.nextCall
    · subst hj
      simp [SeqState.owner, hsv, hn, hyc]
    · simp [SeqState.owner, hsv, Function.update_of_ne hj]
  refine ⟨log_prefix_of_eq hcs, fun t' ht' => ?_, ho.mpr, fun h => Or.inl (ho.mp h)⟩
  have ht : t' ≠ t := by
    rintro rfl
    rw [hrun] at ht'
    cases ht'
  rwa [htx, Function.update_of_ne ht]

theorem next_step {s s' : SeqState V C} (hs : Inv s) {sha256 : Bytes → Bytes} {e : Ev}
    (h : step sha256 s e = some s') : Next s s' := by
  rcases e with t | ⟨t, w, net, data, opts⟩ | i | ⟨p, id⟩ | t | t
  · simp only [step] at h
    split at h
    · rename_i ht
      cases h
      exact .of_owner List.prefix_rfl (setStatus_rolledBack (by rw [ht]; simp)) rfl
    · cases h
  · exact next_call hs h
  · exact next_exec hs h
  · simp only [step, deleteStep] at h
    split at h
    · cases h
      exact .of_owner List.prefix_rfl (fun _ h => h) rfl
    · cases h
  · simp only [step] at h
    split at h
    · rename_i ht
      cases h
      exact .of_owner (List.prefix_append _ _) (setStatus_rolledBack (by rw [ht.1]; simp)) rfl
    · cases h
  · simp only [step] at h
    split at h
    · rename_i ht
      cases h
      exact .of_owner List.prefix_rfl (setStatus_rolledBack (by rw [ht]; simp)) rfl
    · cases h

/-- In `s`, the save `i` has the number `q` of `k`, and the saves called after `s₁` have larger ones,
as long as neither transaction is rolled back. -/
def Before (s₁ : SeqState V C) (i t q : ℕ) (k : JsString × JsString) (s : SeqState V C) : Prop :=
  s.owner i = some (t, k, some q) ∧ ∀ j t' q', s₁.saves j = none →
    s.owner j = some (t', k, some q') → (s.txs t).status ≠ .rolledBack →
    (s.txs t').status ≠ .rolledBack → q < q'

theorem before_of_owner {s : SeqState V C} {i t q : ℕ} {k : JsString × JsString}
    (ho : s.owner i = some (t, k, some q)) : Before s i t q k s := by
  refine ⟨ho, fun j t' q' hj hoj => ?_⟩
  rw [SeqState.owner, hj] at hoj
  cases hoj

theorem Before.step {s₁ s s' : SeqState V C} {i t q : ℕ} {k : JsString × JsString} (hs : Inv s)
    (hb : Before s₁ i t q k s) (hn : Next s s') : Before s₁ i t q k s' := by
  refine ⟨hn.keeps hb.1, fun j t' q' hj ho ht ht' => ?_⟩
  have ht₀ : (s.txs t).status ≠ .rolledBack := fun he => ht (hn.rolledBack t he)
  rcases hn.new ho with hold | ⟨hf, rfl⟩
  · exact hb.2 j t' q' hj hold ht₀ fun he => ht' (hn.rolledBack t' he)
  · exact hs.counters.lt_claim hf (hs.mem_of_live hb.1 ht₀) rfl

/-! ### Every run -/

/-- The numbers of the committed saves and of the running transactions. -/
structure Gapless (s : SeqState V C) : Prop where
  /-- In commit order, the numbers of a pair are `1, …, N`. -/
  exact : ∀ k, seqsOf k s.log = List.range' 1 (s.counters.count k)
  /-- The log has the saves of the committed transactions, each once and with its number. -/
  committed : ∀ i k q, (⟨i, k, q⟩ : Claim _ ℕ) ∈ s.log ↔ ∃ x, s.saves i = some x ∧ x.key = k ∧
    x.claimed = some q ∧ (s.txs x.tx).status = .committed
  once : (s.log.map (·.item)).Nodup
  all : ∀ i x, s.saves i = some x → (s.txs x.tx).status = .committed → ∃ q, x.claimed = some q
  /-- The numbers of a running transaction are `N + 1, …`, whatever was rolled back. -/
  running : ∀ t k, seqsOf k (s.counters.pending t) =
    List.range' (s.counters.count k + 1) (seqsOf k (s.counters.pending t)).length
  claimed : ∀ i x q, s.saves i = some x → x.claimed = some q → (s.txs x.tx).status = .running →
    (⟨i, x.key, q⟩ : Claim _ ℕ) ∈ s.counters.pending x.tx
  /-- A row of `ckpt_manifests` is of a committed save. -/
  rows : ∀ id m, s.manifests.committed id = some m → ⟨m.savedBy, (m.w, m.net), m.seq⟩ ∈ s.log
  /-- No two rows of `ckpt_manifests` have the same pair and number. -/
  unique : ∀ id id' m m', s.manifests.committed id = some m → s.manifests.committed id' = some m' →
    (m.w, m.net) = (m'.w, m'.net) → m.seq = m'.seq → id = id'

theorem Inv.gapless {s : SeqState V C} (hs : Inv s) : Gapless s := by
  refine ⟨hs.counters.log_seqs, fun i k q => ?_, ?_, fun i x hx hc => ?_, hs.counters.pending_seqs,
    fun i x q hx hq hr => ?_, fun id m hm => ?_, fun id id' m m' hm hm' hk hq => ?_⟩
  · rw [hs.log]
    constructor
    · rintro ⟨t, ht, ho⟩
      obtain ⟨x, hx, rfl, hk, hq⟩ := owner_eq_some.mp ho
      exact ⟨x, hx, hk, hq, ht⟩
    · rintro ⟨x, hx, hk, hq, ht⟩
      exact ⟨x.tx, ht, owner_eq_some.mpr ⟨x, hx, rfl, hk, hq⟩⟩
  · refine (nodup_of_seqsOf hs.counters.log_nodup).map_on fun c hc c' hc' hi => ?_
    obtain ⟨t, -, ho⟩ := (hs.log c).mp hc
    obtain ⟨t', -, ho'⟩ := (hs.log c').mp hc'
    obtain ⟨item, key, seq⟩ := c
    obtain ⟨item', key', seq'⟩ := c'
    have hi : item = item' := hi
    subst hi
    cases ho.symm.trans ho'
    rfl
  · exact (hs.calls.at_rest i x hx).claimed_of_done (hs.calls.done i x hx hc)
  · exact (hs.pending x.tx _).mpr ⟨hr, owner_eq_some.mpr ⟨x, hx, rfl, rfl, hq⟩⟩
  · exact (hs.log _).mpr (hs.rows id m hm).1
  · have hc := (hs.log ⟨m.savedBy, (m.w, m.net), m.seq⟩).mpr (hs.rows id m hm).1
    have hc' := (hs.log ⟨m'.savedBy, (m'.w, m'.net), m'.seq⟩).mpr (hs.rows id' m' hm').1
    have he := eq_of_seq_eq (hs.counters.log_nodup (m'.w, m'.net)) hc hc' hk rfl hq
    have hi : m.savedBy = m'.savedBy := congrArg Claim.item he
    have h1 := (hs.rows id m hm).2
    rw [hi, (hs.rows id' m' hm').2] at h1
    exact (Option.some.inj h1).symm

/-- The entries that were added to the log have larger numbers than those before. -/
theorem Inv.lt_of_new {s s' : SeqState V C} (hs : Inv s) (hs' : Inv s') (h : s.log <+: s'.log)
    {c : Claim (JsString × JsString) ℕ} (hc : c ∈ s'.log) (hn : c ∉ s.log) :
    s.counters.count c.key < c.seq := by
  obtain ⟨l, hl⟩ := h
  have hc' : c ∈ l := by
    rw [← hl, List.mem_append] at hc
    exact hc.resolve_left hn
  have hq := hs'.counters.log_seqs c.key
  have hlen : s'.counters.count c.key = s.counters.count c.key + (seqsOf c.key l).length := by
    have hl' : s'.counters.log = s.counters.log ++ l := hl.symm
    rw [Counters.count, hl', seqsOf_append, List.length_append]
    rfl
  rw [show s'.counters.log = s.counters.log ++ l from hl.symm, seqsOf_append, hlen,
    ← List.range'_append_1, hs.counters.log_seqs] at hq
  have hm := seq_mem_seqsOf hc' rfl
  rw [List.append_cancel_left hq, List.mem_range'_1] at hm
  omega

/-- **The sequence numbers of the checkpoint store.** In every state reached by any interleaving of
saves, rollbacks and prunes, the numbers of the committed saves of a pair are `1, …, N` in commit
order, and a running transaction has the next ones. The log only grows, with larger numbers; of two
committed saves of a pair the one that had ended when the other was called has the smaller number;
and a statement of a save for another pair leaves the counter row as it is. -/
theorem save_sequences (sha256 : Bytes → Bytes) {es : List Ev} {s : SeqState V C}
    (h : run (step sha256) es .init = some s) :
    Gapless s ∧
    (∀ es' s', run (step sha256) es' s = some s' →
      s.log <+: s'.log ∧
      (∀ c ∈ s'.log, c ∉ s.log → s.counters.count c.key < c.seq) ∧
      (∀ i j k q q', s.ended i = true → s.saves j = none → (⟨i, k, q⟩ : Claim _ ℕ) ∈ s'.log →
        (⟨j, k, q'⟩ : Claim _ ℕ) ∈ s'.log → q < q')) ∧
    (∀ i x k s', s.saves i = some x → k ≠ x.key → step sha256 s (.exec i) = some s' →
      s'.counters.rows.committed k = s.counters.rows.committed k ∧
      s'.counters.rows.held k = s.counters.rows.held k) := by
  have hinv : ∀ {s₀ s : SeqState V C} {es : List Ev}, Inv s₀ → run (step sha256) es s₀ = some s →
      Inv s := fun h0 hr => run_inv (fun _ _ _ hI hst => hI.step hst) _ _ _ h0 hr
  have hs : Inv s := hinv .init h
  refine ⟨hs.gapless, fun es' s' h' => ?_, fun i x k s' hx hk hst => ?_⟩
  · have hs' : Inv s' := hinv hs h'
    have hlog : s.log <+: s'.log :=
      (run_inv (I := fun s' => Inv s' ∧ s.log <+: s'.log)
        (fun _ _ _ hI hst => ⟨hI.1.step hst, hI.2.trans (next_step hI.1 hst).log⟩) es' s s'
        ⟨hs, List.prefix_rfl⟩ h').2
    refine ⟨hlog, fun c hc hn => hs.lt_of_new hs' hlog hc hn, fun i j k q q' hi hj hc hc' => ?_⟩
    obtain ⟨t, q₀, k₀, ho⟩ := hs.owner_of_ended hi
    have hb : Inv s' ∧ Before s i t q₀ k₀ s' :=
      run_inv (I := fun s' => Inv s' ∧ Before s i t q₀ k₀ s')
        (fun _ _ _ hI hst => ⟨hI.1.step hst, hI.2.step hI.1 (next_step hI.1 hst)⟩) es' s s'
        ⟨hs, before_of_owner ho⟩ h'
    obtain ⟨t₁, ht₁, ho₁⟩ := (hs'.log _).mp hc
    obtain ⟨t₂, ht₂, ho₂⟩ := (hs'.log _).mp hc'
    cases hb.2.1.symm.trans ho₁
    exact hb.2.2 j t₂ q' hj ho₂ (by rw [ht₁]; simp) (by rw [ht₂]; simp)
  · obtain ⟨y, y', hmv, hcases⟩ := execStep_cases hst fun x hx => hs.calls.at_rest i x hx
    cases hmv.before.symm.trans hx
    rcases hcases with ⟨-, -, hcs, -⟩ | ⟨-, -, -, -, hcs, -⟩ | ⟨-, -, -, -, -, hcs, -⟩
    · rw [hcs]
      exact ⟨rfl, rfl⟩
    · rw [hcs]
      exact ⟨rfl, Table.write_held_ne _ _ _ hk⟩
    · rw [hcs]
      exact ⟨rfl, rfl⟩

/-- Two transactions save for the wallet `a`: the second waits behind the first insert of the
counter row and takes number 1 again after the rollback. A third saves twice, one call after the
other, once for the wallet `b`; the checkpoint 1 is pruned, and the next save gets number 3. -/
def rolledBackInsert : List Ev :=
  [.begin 0, .call 0 [97] [109] [] ⟨none, none⟩, .exec 0, .begin 1,
    .call 1 [97] [109] [1] ⟨some 1, none⟩, .exec 1, .exec 0, .rollback 0, .exec 1, .exec 1, .exec 1,
    .commit 1, .begin 2, .call 2 [98] [109] [] ⟨none, some [120]⟩, .exec 2, .exec 2,
    .call 2 [97] [109] [] ⟨none, none⟩, .exec 3, .exec 3, .commit 2, .begin 3, .delete 3 2,
    .commit 3, .begin 4, .call 4 [97] [109] [] ⟨none, none⟩, .exec 4, .exec 4, .commit 4]

theorem save_sequences_rolledBackInsert :
    ∃ s : SeqState Unit Unit, run (step sha256OfByte) rolledBackInsert .init = some s ∧
      s.log = [⟨1, ([97], [109]), 1⟩, ⟨2, ([98], [109]), 1⟩, ⟨3, ([97], [109]), 2⟩,
        ⟨4, ([97], [109]), 3⟩] ∧
      s.manifests.committed 2 = none ∧ Gapless s := by
  have hr : ∃ s, run (step sha256OfByte) rolledBackInsert (.init : SeqState Unit Unit) = some s :=
    ⟨_, rfl⟩
  obtain ⟨s, hs⟩ := hr
  refine ⟨s, hs, ?_, ?_, (save_sequences sha256OfByte hs).1⟩
  · cases hs
    rfl
  · cases hs
    rfl

/-- The saves of a transaction have their numbers in the order of the calls. -/
def CallOrder (s : SeqState V C) : Prop :=
  ∀ i j x y q q', i < j → s.saves i = some x → s.saves j = some y → x.tx = y.tx →
    x.key = y.key → (s.txs x.tx).status = .committed → x.claimed = some q → y.claimed = some q' →
    q < q'

/-- `Promise.all` of two saves of a transaction: the first begins with its chunk, the second, which
has no bytes, with its number. -/
def promiseAll : List Ev :=
  [.begin 0, .call 0 [97] [109] [1] ⟨none, none⟩, .call 0 [97] [109] [] ⟨none, none⟩, .exec 0,
    .exec 1, .exec 0, .exec 1, .exec 0, .exec 0, .commit 0]

theorem promiseAll_reverses :
    ¬ ∀ (es : List Ev) (s : SeqState Unit Unit),
      run (step sha256OfByte) es .init = some s → CallOrder s := by
  intro h
  have hq := h promiseAll _ rfl 0 1 _ _ 2 1 (by decide) rfl rfl rfl rfl rfl rfl rfl
  exact absurd hq (by decide)

end UmbraDB.Ckpt.Sequence
