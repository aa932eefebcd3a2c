import UmbraDB.Ckpt.Grace

/-! # `saveAndAdvance`: the cursor and the latest checkpoint belong to one call

One wallet `W` on one network `N`, whose checkpoints are saved by `saveAndAdvance` only, always with
the cursor `K`, which nobody else sets. A call claims its sequence number before it sets the cursor,
and it keeps the lock of the counter row to its end; so from the claim on the calls run one after
the other, in the order of their numbers (`Claimed`). A prune never deletes the checkpoint of the
highest number (`PruneLow.low`). Everything else may happen in between: other wallets save and
prune, and any transaction is rolled back at any step. -/

namespace UmbraDB.Ckpt.Advance

open UmbraDB.Js.Text UmbraDB.Lib.RowStore UmbraDB.Lib.Runs
open UmbraDB.Ckpt.Rows UmbraDB.Ckpt.System UmbraDB.Ckpt.Grace

variable {V : Type} {sha256 : Bytes → Bytes} {W N : JsString} {K : WatermarkKey}
variable {s s' : CkptState V}

/-! ### The invariant -/

/-- A `saveAndAdvance` of the wallet, network and cursor. -/
def Ours (W N : JsString) (K : WatermarkKey) (call : SaveCall V) : Prop :=
  call.w = W ∧ call.net = N ∧ ∃ v, call.cursor = some (K, v)

/-- A call that touches neither the wallet's checkpoints nor the cursor. -/
def Foreign (W N : JsString) (K : WatermarkKey) (call : SaveCall V) : Prop :=
  (call.w, call.net) ≠ (W, N) ∧ ∀ v, call.cursor ≠ some (K, v)

/-- The transaction holds nothing of the wallet's. -/
structure Before (W N : JsString) (K : WatermarkKey) (s : CkptState V) (t : ℕ) : Prop where
  counter : ∀ r, s.counters.held (W, N) ≠ some (t, r)
  manifests : ∀ id r, s.manifests.held id ≠ some (t, r)
  mark : ∀ r, s.marks.held K ≠ some (t, r)

/-- The transaction has claimed the sequence number, and holds the counter. -/
structure Claimed (W N : JsString) (s : CkptState V) (t seq : ℕ) : Prop where
  held : s.counters.held (W, N) = some (t, some (seq + 1))
  next : (s.counters.committed (W, N)).getD 1 = seq

/-- The manifest of the call, but for its junction rows. -/
structure MadeBy (sha256 : Bytes → Bytes) (call : SaveCall V) (t seq : ℕ) (m : Manifest) :
    Prop where
  w : m.w = call.w
  net : m.net = call.net
  seq_eq : m.seq = seq
  complete : m.complete = true
  manifestHash : m.manifestHash = sha256 (call.chunks.map sha256).flatten
  insertedBy : m.insertedBy = t

/-- It is the only one the transaction holds. -/
structure Written (sha256 : Bytes → Bytes) (s : CkptState V) (call : SaveCall V) (t seq id : ℕ)
    (m : Manifest) : Prop where
  held : s.manifests.held id = some (t, some m)
  only : ∀ id' r, s.manifests.held id' = some (t, r) → id' = id
  made : MadeBy sha256 call t seq m

/-- What a call of ours holds at each stage. -/
def OursOk (sha256 : Bytes → Bytes) (W N : JsString) (K : WatermarkKey) (s : CkptState V) (t : ℕ)
    (call : SaveCall V) : SaveStage → Prop
  | .called => Before W N K s t
  | .upserting _ => Before W N K s t ∧ call.valid = true
  | .claiming => Before W N K s t ∧ call.valid = true
  | .inserting seq => Claimed W N s t seq ∧ (∀ id r, s.manifests.held id ≠ some (t, r)) ∧
    (∀ r, s.marks.held K ≠ some (t, r)) ∧ call.valid = true
  | .joining id seq rest => Claimed W N s t seq ∧
    (∃ m, Written sha256 s call t seq id m ∧ m.refs ++ rest = call.chunks.map sha256) ∧
    (∀ r, s.marks.held K ≠ some (t, r)) ∧ call.valid = true
  | .marking => ∃ seq id m, Claimed W N s t seq ∧ Written sha256 s call t seq id m ∧
    m.refs = call.chunks.map sha256 ∧ seq ≤ maxSafeInteger ∧
    (∀ r, s.marks.held K ≠ some (t, r)) ∧ call.valid = true
  | .done => ∃ seq id m v, Claimed W N s t seq ∧ Written sha256 s call t seq id m ∧
    m.refs = call.chunks.map sha256 ∧ seq ≤ maxSafeInteger ∧
    s.marks.held K = some (t, some v) ∧ call.cursor = some (K, v) ∧ call.valid = true

/-- What any other transaction holds. -/
structure Apart (W N : JsString) (K : WatermarkKey) (s : CkptState V) (t : ℕ) : Prop where
  counter : ∀ r, s.counters.held (W, N) ≠ some (t, r)
  manifests : ∀ id m, s.manifests.held id = some (t, some m) → (m.w, m.net) ≠ (W, N)
  mark : ∀ r, s.marks.held K ≠ some (t, r)

/-- A save transaction is one `saveAndAdvance` of ours, or has nothing to do with the wallet. -/
def SaveRole (sha256 : Bytes → Bytes) (W N : JsString) (K : WatermarkKey) (s : CkptState V) (t : ℕ)
    (call : SaveCall V) (stage : SaveStage) (queue : List (SaveCall V)) : Prop :=
  (Ours W N K call ∧ queue = [] ∧ OursOk sha256 W N K s t call stage) ∨
    Foreign W N K call ∧ (∀ c ∈ queue, Foreign W N K c) ∧ Apart W N K s t

/-- The checkpoint has a lower number than the last one claimed. -/
def Low (W N : JsString) (s : CkptState V) (id : ℕ) : Prop :=
  ∀ m, s.manifests.committed id = some m → m.w = W → m.net = N →
    ∃ n, s.counters.committed (W, N) = some n ∧ m.seq + 1 < n

/-- The manifests a prune has deleted or is about to delete. -/
structure PruneLow (W N : JsString) (K : WatermarkKey) (s : CkptState V) (p : ℕ)
    (stage : PruneStage) : Prop where
  counter : ∀ r, s.counters.held (W, N) ≠ some (p, r)
  mark : ∀ r, s.marks.held K ≠ some (p, r)
  deleted : ∀ id r, s.manifests.held id = some (p, r) → Low W N s id
  todo : ∀ ids, stage = .manifests ids → ∀ id ∈ ids, Low W N s id ∧ id < s.nextId ∧
    ∀ t m, s.manifests.held id ≠ some (t, some m)

/-- **Cursor and checkpoint together.** There is neither; or the checkpoint of the highest number is
that of a committed call, and the cursor is the one of this call. -/
def Together (sha256 : Bytes → Bytes) (W N : JsString) (K : WatermarkKey) (s : CkptState V) :
    Prop :=
  (s.counters.committed (W, N) = none ∧ s.marks.committed K = none ∧
    ∀ id m, s.manifests.committed id = some m → ¬ (m.w = W ∧ m.net = N)) ∨
  ∃ n t id m call v, s.counters.committed (W, N) = some n ∧
    s.manifests.committed id = some m ∧ m.seq + 1 = n ∧ MadeBy sha256 call t m.seq m ∧
    m.refs = call.chunks.map sha256 ∧ m.seq ≤ maxSafeInteger ∧ call.valid = true ∧
    (s.txs t).status = .committed ∧ (s.txs t).work = .save call .done [] ∧
    Ours W N K call ∧ call.cursor = some (K, v) ∧ s.marks.committed K = some v ∧
    ∀ id' m', s.manifests.committed id' = some m' → m'.w = W → m'.net = N → id' ≠ id →
      m'.seq < m.seq

structure Adv (sha256 : Bytes → Bytes) (W N : JsString) (K : WatermarkKey) (s : CkptState V) :
    Prop where
  saves : ∀ t call stage queue, (s.txs t).status = .running →
    (s.txs t).work = .save call stage queue → SaveRole sha256 W N K s t call stage queue
  prunes : ∀ p w net n stage, (s.txs p).status = .running →
    (s.txs p).work = .prune w net n stage → PruneLow W N K s p stage
  counter : ∀ t r, s.counters.held (W, N) = some (t, r) → (s.txs t).status = .running
  mark : ∀ t r, s.marks.held K = some (t, r) → (s.txs t).status = .running
  together : Together sha256 W N K s

/-! ### Steps of other transactions -/

/-- The transaction `t` holds the same of the three tables. -/
structure AFrame (s s' : CkptState V) (t : ℕ) : Prop where
  manifests : Table.SameFor t s.manifests s'.manifests
  counters : Table.SameFor t s.counters s'.counters
  marks : Table.SameFor t s.marks s'.marks

/-- A step of one transaction that commits nothing and inserts manifests under new ids only. -/
structure AStep (s s' : CkptState V) (t : ℕ) : Prop where
  txs : ∀ t', t' ≠ t → s'.txs t' = s.txs t'
  others : ∀ t', t' ≠ t → AFrame s s' t'
  manifests : s'.manifests.committed = s.manifests.committed
  counters : s'.counters.committed = s.counters.committed
  marks : s'.marks.committed = s.marks.committed
  nextId : s.nextId ≤ s'.nextId
  fresh : ∀ id t' m, s'.manifests.held id = some (t', some m) →
    (∃ m', s.manifests.held id = some (t', some m')) ∨ s.nextId ≤ id
  status : (s.txs t).status ≠ .committed

theorem Before.frame {t : ℕ} (hf : AFrame s s' t) (h : Before W N K s t) : Before W N K s' t :=
  ⟨fun r hr => h.counter r ((hf.counters _ r).mp hr),
    fun id r hr => h.manifests id r ((hf.manifests id r).mp hr),
    fun r hr => h.mark r ((hf.marks _ r).mp hr)⟩

theorem Claimed.frame {t seq : ℕ} (hf : AFrame s s' t)
    (hc : s'.counters.committed (W, N) = s.counters.committed (W, N)) (h : Claimed W N s t seq) :
    Claimed W N s' t seq :=
  ⟨(hf.counters _ _).mpr h.held, by rw [hc]; exact h.next⟩

theorem Written.frame {call : SaveCall V} {t seq id : ℕ} {m : Manifest} (hf : AFrame s s' t)
    (h : Written sha256 s call t seq id m) : Written sha256 s' call t seq id m :=
  ⟨(hf.manifests _ _).mpr h.held, fun id' r hr => h.only id' r ((hf.manifests id' r).mp hr), h.made⟩

theorem OursOk.frame {t : ℕ} {call : SaveCall V} {stage : SaveStage} (hf : AFrame s s' t)
    (hc : (∃ r, s.counters.held (W, N) = some (t, r)) →
      s'.counters.committed (W, N) = s.counters.committed (W, N))
    (h : OursOk sha256 W N K s t call stage) : OursOk sha256 W N K s' t call stage := by
  have hmark : (∀ r, s.marks.held K ≠ some (t, r)) → ∀ r, s'.marks.held K ≠ some (t, r) :=
    fun hm r hr => hm r ((hf.marks _ r).mp hr)
  have hclaim : ∀ {seq}, Claimed W N s t seq → Claimed W N s' t seq :=
    fun h => h.frame hf (hc ⟨_, h.held⟩)
  cases stage with
  | called => exact Before.frame hf h
  | upserting rows => exact ⟨h.1.frame hf, h.2⟩
  | claiming => exact ⟨h.1.frame hf, h.2⟩
  | inserting seq =>
    obtain ⟨h1, h2, h3, h4⟩ := h
    exact ⟨hclaim h1, fun id r hr => h2 id r ((hf.manifests id r).mp hr), hmark h3, h4⟩
  | joining id seq rest =>
    obtain ⟨h1, ⟨m, h2, h3⟩, h4, h5⟩ := h
    exact ⟨hclaim h1, ⟨m, h2.frame hf, h3⟩, hmark h4, h5⟩
  | marking =>
    obtain ⟨seq, id, m, h1, h2, h3, h4, h5, h6⟩ := h
    exact ⟨seq, id, m, hclaim h1, h2.frame hf, h3, h4, hmark h5, h6⟩
  | done =>
    obtain ⟨seq, id, m, v, h1, h2, h3, h4, h5, h6⟩ := h
    exact ⟨seq, id, m, v, hclaim h1, h2.frame hf, h3, h4, (hf.marks _ _).mpr h5, h6⟩

theorem Apart.frame {t : ℕ} (hf : AFrame s s' t) (h : Apart W N K s t) : Apart W N K s' t :=
  ⟨fun r hr => h.counter r ((hf.counters _ r).mp hr),
    fun id m hm => h.manifests id m ((hf.manifests id _).mp hm),
    fun r hr => h.mark r ((hf.marks _ r).mp hr)⟩

theorem SaveRole.frame {t : ℕ} {call : SaveCall V} {stage : SaveStage} {queue : List (SaveCall V)}
    (hf : AFrame s s' t)
    (hc : (∃ r, s.counters.held (W, N) = some (t, r)) →
      s'.counters.committed (W, N) = s.counters.committed (W, N))
    (h : SaveRole sha256 W N K s t call stage queue) :
    SaveRole sha256 W N K s' t call stage queue := by
  rcases h with ⟨h1, h2, h3⟩ | ⟨h1, h2, h3⟩
  · exact Or.inl ⟨h1, h2, OursOk.frame hf hc h3⟩
  · exact Or.inr ⟨h1, h2, h3.frame hf⟩

theorem AStep.low {t id : ℕ} (hs : AStep s s' t) (h : Low W N s id) : Low W N s' id := by
  unfold Low
  rw [hs.manifests, hs.counters]
  exact h

theorem PruneLow.frame {t p : ℕ} {stage : PruneStage} (hs : AStep s s' t) (hne : p ≠ t)
    (h : PruneLow W N K s p stage) : PruneLow W N K s' p stage := by
  have hf := hs.others p hne
  refine ⟨fun r hr => h.counter r ((hf.counters _ r).mp hr),
    fun r hr => h.mark r ((hf.marks _ r).mp hr),
    fun id r hr => hs.low (h.deleted id r ((hf.manifests id r).mp hr)), fun ids he id hid => ?_⟩
  obtain ⟨h1, h2, h3⟩ := h.todo ids he id hid
  refine ⟨hs.low h1, h2.trans_le hs.nextId, fun t' m hm => ?_⟩
  rcases hs.fresh id t' m hm with ⟨m', hm'⟩ | hle
  · exact h3 t' m' hm'
  · omega

theorem AStep.together {t : ℕ} (hs : AStep s s' t) (h : Together sha256 W N K s) :
    Together sha256 W N K s' := by
  unfold Together at h ⊢
  rw [hs.manifests, hs.counters, hs.marks]
  rcases h with h | ⟨n, t', id, m, call, v, h1, h2, h3, h4, h5, h6, h7, hst, hw, h8⟩
  · exact Or.inl h
  · have hne : t' ≠ t := by
      rintro rfl
      exact hs.status hst
    rw [← hs.txs t' hne] at hst hw
    exact Or.inr ⟨n, t', id, m, call, v, h1, h2, h3, h4, h5, h6, h7, hst, hw, h8⟩

/-- A step that commits nothing keeps the invariant if the transaction that makes it is right. -/
theorem Adv.step (hA : Adv sha256 W N K s) {t : ℕ} (hs : AStep s s' t)
    (hcounter : ∀ r, s'.counters.held (W, N) = some (t, r) → (s'.txs t).status = .running)
    (hmark : ∀ r, s'.marks.held K = some (t, r) → (s'.txs t).status = .running)
    (hsave : ∀ call stage queue, (s'.txs t).status = .running →
      (s'.txs t).work = .save call stage queue → SaveRole sha256 W N K s' t call stage queue)
    (hprune : ∀ w net n stage, (s'.txs t).status = .running →
      (s'.txs t).work = .prune w net n stage → PruneLow W N K s' t stage) :
    Adv sha256 W N K s' := by
  refine ⟨fun t' call stage queue hr hw => ?_, fun p w net n stage hr hw => ?_, fun t' r hr => ?_,
    fun t' r hr => ?_, hs.together hA.together⟩
  · by_cases ht : t' = t
    · subst ht
      exact hsave call stage queue hr hw
    · rw [hs.txs t' ht] at hr hw
      exact (hA.saves t' call stage queue hr hw).frame (hs.others t' ht) fun _ => by
        rw [hs.counters]
  · by_cases ht : p = t
    · subst ht
      exact hprune w net n stage hr hw
    · rw [hs.txs p ht] at hr hw
      exact (hA.prunes p w net n stage hr hw).frame hs ht
  · by_cases ht : t' = t
    · subst ht
      exact hcounter r hr
    · rw [hs.txs t' ht]
      exact hA.counter t' r (((hs.others t' ht).counters _ r).mp hr)
  · by_cases ht : t' = t
    · subst ht
      exact hmark r hr
    · rw [hs.txs t' ht]
      exact hA.mark t' r (((hs.others t' ht).marks _ r).mp hr)

/-- The same for a step of a save that runs on. -/
theorem Adv.step_save (hA : Adv sha256 W N K s) {t : ℕ} {call : SaveCall V} {stage : SaveStage}
    {queue : List (SaveCall V)} (hs : AStep s s' t) (hrun : (s'.txs t).status = .running)
    (hw : (s'.txs t).work = .save call stage queue)
    (h : SaveRole sha256 W N K s' t call stage queue) : Adv sha256 W N K s' := by
  refine hA.step hs (fun _ _ => hrun) (fun _ _ => hrun) (fun call' stage' queue' _ hw' => ?_)
    fun w net n stage' _ hw' => ?_
  · rw [hw] at hw'
    cases hw'
    exact h
  · rw [hw] at hw'
    cases hw'

/-- The same for a step of a prune. -/
theorem Adv.step_prune (hA : Adv sha256 W N K s) {p n : ℕ} {w net : JsString} {stage : PruneStage}
    (hs : AStep s s' p) (hrun : (s'.txs p).status = .running)
    (hw : (s'.txs p).work = .prune w net n stage) (h : PruneLow W N K s' p stage) :
    Adv sha256 W N K s' := by
  refine hA.step hs (fun _ _ => hrun) (fun _ _ => hrun) (fun call' stage' queue' _ hw' => ?_)
    fun w net n stage' _ hw' => ?_
  · rw [hw] at hw'
    cases hw'
  · rw [hw] at hw'
    cases hw'
    exact h

/-! ### Steps of a save -/

theorem AFrame.of_tables {t : ℕ} (hm : s'.manifests = s.manifests)
    (hc : s'.counters = s.counters) (hk : s'.marks = s.marks) : AFrame s s' t := by
  refine ⟨?_, ?_, ?_⟩
  · rw [hm]; exact Table.SameFor.refl _ _
  · rw [hc]; exact Table.SameFor.refl _ _
  · rw [hk]; exact Table.SameFor.refl _ _

/-- A step that leaves the three tables as they are. -/
theorem AStep.of_tables {t : ℕ} (htx : ∀ t', t' ≠ t → s'.txs t' = s.txs t')
    (hm : s'.manifests = s.manifests) (hc : s'.counters = s.counters) (hk : s'.marks = s.marks)
    (hid : s'.nextId = s.nextId) (hst : (s.txs t).status ≠ .committed) : AStep s s' t :=
  ⟨htx, fun _ _ => AFrame.of_tables hm hc hk, by rw [hm], by rw [hc], by rw [hk],
    le_of_eq hid.symm, fun id t' m hh => Or.inl ⟨m, by rwa [hm] at hh⟩, hst⟩

theorem running_ne {x : Tx V} (h : x.status = .running) : x.status ≠ .committed := by
  rw [h]; simp

/-- A save moves on to another stage of the same call, and the three tables stay. -/
theorem Adv.save_local (hA : Adv sha256 W N K s) {t : ℕ} {call : SaveCall V}
    {stage stage' : SaveStage} {queue : List (SaveCall V)} {touched : List Bytes}
    (hrun : (s.txs t).status = .running) (hw : (s.txs t).work = .save call stage queue)
    (htx : s'.txs = Function.update s.txs t
      { s.txs t with work := .save call stage' queue, touched := touched })
    (hm : s'.manifests = s.manifests) (hc : s'.counters = s.counters) (hk : s'.marks = s.marks)
    (hid : s'.nextId = s.nextId)
    (hours : Ours W N K call → OursOk sha256 W N K s t call stage →
      OursOk sha256 W N K s t call stage') : Adv sha256 W N K s' := by
  have hself : s'.txs t = { s.txs t with work := .save call stage' queue, touched := touched } := by
    rw [htx, Function.update_self]
  have hf : AFrame s s' t := AFrame.of_tables hm hc hk
  refine hA.step_save (t := t) (AStep.of_tables (fun t' ht => by rw [htx, Function.update_of_ne ht])
    hm hc hk hid (running_ne hrun)) (by rw [hself]; exact hrun) (by rw [hself]) ?_
  rcases hA.saves t call stage queue hrun hw with ⟨h1, h2, h3⟩ | ⟨h1, h2, h3⟩
  · exact Or.inl ⟨h1, h2, OursOk.frame hf (fun _ => by rw [hc]) (hours h1 h3)⟩
  · exact Or.inr ⟨h1, h2, h3.frame hf⟩

/-- The claim: the number after the last committed one, since nobody else holds the counter. -/
theorem Adv.save_claim (hA : Adv sha256 W N K s) {t : ℕ} {call : SaveCall V}
    {queue : List (SaveCall V)} (hrun : (s.txs t).status = .running)
    (hw : (s.txs t).work = .save call .claiming queue)
    (hf : s.counters.free t (call.w, call.net) = true) :
    Adv sha256 W N K
      { s.setWork t (.save call
          (.inserting ((s.counters.view t (call.w, call.net)).getD 1)) queue) with
        counters := s.counters.write t (call.w, call.net)
          (some ((s.counters.view t (call.w, call.net)).getD 1 + 1)) } := by
  refine hA.step_save (t := t) ⟨fun t' ht => setWork_of_ne s _ ht, fun t' ht =>
      ⟨Table.SameFor.refl _ _, Table.sameFor_write hf ht _, Table.SameFor.refl _ _⟩, rfl, rfl, rfl,
      le_refl _, fun id t' m hh => Or.inl ⟨m, hh⟩, running_ne hrun⟩
    ((congrArg Tx.status (setWork_self s t _)).trans hrun)
    (congrArg Tx.work (setWork_self s t _)) ?_
  rcases hA.saves t call _ queue hrun hw with ⟨h1, h2, h3, hvalid⟩ | ⟨h1, h2, h3⟩
  · obtain rfl := h1.1
    obtain rfl := h1.2.1
    refine Or.inl ⟨h1, h2, ⟨?_, ?_⟩, h3.manifests, h3.mark, hvalid⟩
    · exact Table.write_held_self _ _ _ _
    · rw [Table.view_eq_committed h3.counter]
      rfl
  · refine Or.inr ⟨h1, h2, ⟨fun r hr => h3.counter r ?_, h3.manifests, h3.mark⟩⟩
    rw [Table.write_held_ne _ _ _ (Ne.symm h1.1)] at hr
    exact hr

/-- A save writes a row of `ckpt_manifests`: a new one, or its own with one more junction row. -/
theorem Adv.save_manifest (hA : Adv sha256 W N K s) {t id nextId seq : ℕ} {call : SaveCall V}
    {stage : SaveStage} {queue : List (SaveCall V)} {m : Manifest} {rest : List Bytes}
    (hrun : (s.txs t).status = .running) (hw : (s.txs t).work = .save call stage queue)
    (hf : s.manifests.free t id = true) (hnext : s.nextId ≤ nextId)
    (hfresh : (∃ m', s.manifests.held id = some (t, some m')) ∨ s.nextId ≤ id)
    (hours : Ours W N K call → OursOk sha256 W N K s t call stage →
      Claimed W N s t seq ∧ MadeBy sha256 call t seq m ∧ m.refs ++ rest = call.chunks.map sha256 ∧
      (∀ id' r, s.manifests.held id' = some (t, r) → id' = id) ∧
      (∀ r, s.marks.held K ≠ some (t, r)) ∧ call.valid = true)
    (hforeign : Foreign W N K call → Apart W N K s t → (m.w, m.net) ≠ (W, N)) :
    Adv sha256 W N K
      { s.setWork t (.save call (.joining id seq rest) queue) with
        manifests := s.manifests.write t id (some m), nextId := nextId } := by
  refine hA.step_save (t := t) ⟨fun t' ht => setWork_of_ne s _ ht, fun t' ht =>
      ⟨Table.sameFor_write hf ht _, Table.SameFor.refl _ _, Table.SameFor.refl _ _⟩, rfl, rfl, rfl,
      hnext, fun id' t' m' hh => ?_, running_ne hrun⟩
    ((congrArg Tx.status (setWork_self s t _)).trans hrun)
    (congrArg Tx.work (setWork_self s t _)) ?_
  · by_cases he : id' = id
    · subst he
      rw [Table.write_held_self] at hh
      cases hh
      exact hfresh
    · rw [Table.write_held_ne _ _ _ he] at hh
      exact Or.inl ⟨m', hh⟩
  · rcases hA.saves t call stage queue hrun hw with ⟨h1, h2, h3⟩ | ⟨h1, h2, h3⟩
    · obtain ⟨h4, h5, h6, h7, h8⟩ := hours h1 h3
      refine Or.inl ⟨h1, h2, ⟨h4.held, h4.next⟩,
        ⟨m, ⟨Table.write_held_self _ _ _ _, fun id' r hr => ?_, h5⟩, h6⟩, h8⟩
      by_cases he : id' = id
      · exact he
      · rw [Table.write_held_ne _ _ _ he] at hr
        exact h7 id' r hr
    · refine Or.inr ⟨h1, h2, ⟨h3.counter, fun id' m' hr => ?_, h3.mark⟩⟩
      by_cases he : id' = id
      · subst he
        rw [Table.write_held_self] at hr
        cases hr
        exact hforeign h1 h3
      · rw [Table.write_held_ne _ _ _ he] at hr
        exact h3.manifests id' m' hr

theorem Adv.save_mark (hA : Adv sha256 W N K s) {t : ℕ} {call : SaveCall V}
    {queue : List (SaveCall V)} {key : WatermarkKey} {v : V} (hrun : (s.txs t).status = .running)
    (hw : (s.txs t).work = .save call .marking queue) (hcur : call.cursor = some (key, v))
    (hf : s.marks.free t key = true) :
    Adv sha256 W N K { s.setWork t (.save call .done queue) with
      marks := s.marks.write t key (some v) } := by
  refine hA.step_save (t := t) ⟨fun t' ht => setWork_of_ne s _ ht, fun t' ht =>
      ⟨Table.SameFor.refl _ _, Table.SameFor.refl _ _, Table.sameFor_write hf ht _⟩, rfl, rfl, rfl,
      le_refl _, fun id' t' m' hh => Or.inl ⟨m', hh⟩, running_ne hrun⟩
    ((congrArg Tx.status (setWork_self s t _)).trans hrun)
    (congrArg Tx.work (setWork_self s t _)) ?_
  rcases hA.saves t call _ queue hrun hw with ⟨h1, h2, h3⟩ | ⟨h1, h2, h3⟩
  · obtain ⟨seq, id, m, h4, h5, h6, h7, -, h9⟩ := h3
    obtain ⟨v', hv'⟩ := h1.2.2
    rw [hcur] at hv'
    cases hv'
    exact Or.inl ⟨h1, h2, seq, id, m, v, ⟨h4.held, h4.next⟩, ⟨h5.held, h5.only, h5.made⟩, h6, h7,
      Table.write_held_self _ _ _ _, hcur, h9⟩
  · refine Or.inr ⟨h1, h2, ⟨h3.counter, h3.manifests, fun r hr => h3.mark r ?_⟩⟩
    have hk : K ≠ key := by
      rintro rfl
      exact h1.2 v hcur
    rw [Table.write_held_ne _ _ _ hk] at hr
    exact hr

theorem Adv.saveStep (hA : Adv sha256 W N K s) (hI : Inv sha256 False s) {fk : Bool} {t : ℕ}
    {call : SaveCall V} {stage : SaveStage} {queue : List (SaveCall V)}
    (hrun : (s.txs t).status = .running) (hw : (s.txs t).work = .save call stage queue)
    (h : SaveMove sha256 fk s t call queue stage s') : Adv sha256 W N K s' := by
  have hok := hI.saves t call stage queue hrun hw
  cases h with
  | start hvalid => exact hA.save_local hrun hw rfl rfl rfl rfl rfl fun _ ho => ⟨ho, hvalid⟩
  | upsert => exact hA.save_local hrun hw rfl rfl rfl rfl rfl fun _ ho => ho
  | upserted => exact hA.save_local hrun hw rfl rfl rfl rfl rfl fun _ ho => ho
  | claim hf => exact hA.save_claim hrun hw hf
  | insert =>
    refine hA.save_manifest hrun hw (Table.free_iff.mpr (Or.inl hI.held_nextId)) (Nat.le_succ _)
      (Or.inr (le_refl _)) (fun _ ho => ?_) fun hfor _ => hfor.1
    obtain ⟨h1, h2, h3, h4⟩ := ho
    exact ⟨h1, ⟨rfl, rfl, rfl, rfl, rfl, rfl⟩, rfl, fun id' r hr => absurd hr (h2 id' r), h3, h4⟩
  | @join id seq hash rest m hview =>
    obtain ⟨m', hm'⟩ := hok.joining id seq _ rfl
    obtain rfl : m' = m := by
      rw [Table.view_of_held hm'] at hview
      cases hview
      rfl
    refine hA.save_manifest hrun hw (Table.free_iff.mpr (Or.inr ⟨_, hm'⟩)) (le_refl _)
      (Or.inl ⟨m', hm'⟩) (fun _ ho => ?_) fun _ hap => hap.manifests id m' hm'
    obtain ⟨h1, ⟨m, h2, h3⟩, h4, h5⟩ := ho
    obtain rfl : m = m' := by
      have := h2.held
      rw [hm'] at this
      cases this
      rfl
    exact ⟨h1, ⟨h2.made.w, h2.made.net, h2.made.seq_eq, h2.made.complete, h2.made.manifestHash,
      h2.made.insertedBy⟩, by simpa using h3, h2.only, h4, h5⟩
  | @joined id seq hsafe =>
    refine hA.save_local hrun hw rfl rfl rfl rfl rfl fun _ ho => ?_
    obtain ⟨h1, ⟨m, h2, h3⟩, h4, h5⟩ := ho
    exact ⟨seq, id, m, h1, h2, by simpa using h3, hsafe, h4, h5⟩
  | skip hcur =>
    refine hA.save_local hrun hw rfl rfl rfl rfl rfl fun hours _ => ?_
    obtain ⟨v, hv⟩ := hours.2.2
    rw [hcur] at hv
    cases hv
  | mark hcur hf => exact hA.save_mark hrun hw hcur hf
  | @next call' queue' hq =>
    subst hq
    -- only a transaction that has nothing to do with the wallet has another call
    refine hA.step_save (t := t) (AStep.of_tables (fun t' ht => setWork_of_ne s _ ht) rfl rfl rfl
      rfl (running_ne hrun)) ((congrArg Tx.status (setWork_self s t _)).trans hrun)
      (congrArg Tx.work (setWork_self s t _)) ?_
    rcases hA.saves t call _ _ hrun hw with ⟨-, h2, -⟩ | ⟨-, h2, h3⟩
    · cases h2
    · exact Or.inr ⟨h2 call' (by simp), fun c hc => h2 c (by simp [hc]),
        ⟨h3.counter, h3.manifests, h3.mark⟩⟩

/-! ### Steps of a prune -/

/-- Every committed checkpoint of the wallet has a number below the counter. -/
theorem Together.below (h : Together sha256 W N K s) {id : ℕ} {m : Manifest}
    (hm : s.manifests.committed id = some m) (hw : m.w = W) (hn : m.net = N) :
    ∃ n, s.counters.committed (W, N) = some n ∧ m.seq < n := by
  rcases h with ⟨-, -, h⟩ | ⟨n, t, id₀, m₀, call, v, h1, h2, h3, -, -, -, -, -, -, -, -, -, h4⟩
  · exact absurd ⟨hw, hn⟩ (h id m hm)
  · refine ⟨n, h1, ?_⟩
    by_cases he : id = id₀
    · subst he
      rw [h2] at hm
      cases hm
      omega
    · have := h4 id m hm hw hn he
      omega

theorem mem_db_manifests {t : ℕ} {row : ManifestRow} : row ∈ (s.db t).manifests ↔
    ∃ id m, id < s.nextId ∧ s.manifests.view t id = some m ∧ row = toRow id m := by
  simp only [CkptState.db, CkptState.tables, List.mem_filterMap, List.mem_range,
    Option.map_eq_some_iff]
  constructor
  · rintro ⟨id, hid, m, hm, rfl⟩
    exact ⟨id, m, hid, hm, rfl⟩
  · rintro ⟨id, m, hid, hm, rfl⟩
    exact ⟨id, hid, m, hm, rfl⟩

/-- The manifest `DELETE` chooses checkpoints with a lower number than another one it sees. -/
theorem prunable_low {db : CkptDb} {w net : JsString} {n : ℕ} {row : ManifestRow}
    (h : prunable db w net n row = true) :
    ∃ row' ∈ db.manifests, row'.w = row.w ∧ row'.net = row.net ∧ row.seq < row'.seq := by
  simp only [prunable, Bool.and_eq_true, beq_iff_eq, Option.any_eq_true, decide_eq_true_eq] at h
  obtain ⟨⟨⟨hw, hnet⟩, -⟩, k, hk, hlt⟩ := h
  obtain ⟨row', hrow', rfl⟩ := Option.map_eq_some_iff.mp hk
  have hmem := List.mem_of_getElem? hrow'
  rw [bySeqDesc, List.mem_insertionSort] at hmem
  obtain ⟨hmem, hkey⟩ := List.mem_filter.mp hmem
  simp only [Bool.and_eq_true, beq_iff_eq] at hkey
  exact ⟨row', hmem, hkey.1.1.trans hw.symm, hkey.1.2.trans hnet.symm, hlt⟩

/-- The manifests chosen on the snapshot of a prune. -/
theorem Adv.prune_todo (hA : Adv sha256 W N K s) (hI : Inv sha256 False s) {p : ℕ}
    {stage : PruneStage} (hok : PruneOk False s p stage) {w net : JsString} {n id : ℕ}
    (hid : id ∈ ((s.db p).manifests.filter (prunable (s.db p) w net n)).map (·.id)) :
    Low W N s id ∧ id < s.nextId ∧ ∀ t m, s.manifests.held id ≠ some (t, some m) := by
  obtain ⟨row, hrow, rfl⟩ := List.mem_map.mp hid
  obtain ⟨hrow, hp⟩ := List.mem_filter.mp hrow
  obtain ⟨id, m, hlt, hv, rfl⟩ := mem_db_manifests.mp hrow
  have hcm := hok.view_manifest hv
  refine ⟨fun m' hm' hw hn => ?_, hlt, fun t m' hh => ?_⟩
  · obtain ⟨row', hrow', hw', hn', hseq⟩ := prunable_low hp
    obtain ⟨id', m'', -, hv', rfl⟩ := mem_db_manifests.mp hrow'
    change s.manifests.committed id = some m' at hm'
    rw [hcm] at hm'
    cases hm'
    obtain ⟨k, hk, hkk⟩ := hA.together.below (hok.view_manifest hv') (hw'.trans hw) (hn'.trans hn)
    simp only [toRow] at hseq
    exact ⟨k, hk, by omega⟩
  · -- a save holds only manifests that are not yet committed, and a prune only deletes
    change s.manifests.held id = some (t, some m') at hh
    obtain ⟨hrun, -⟩ := hI.manifests id t _ hh
    rcases hw : (s.txs t).work with ⟨call, stage', queue⟩ | ⟨w', net', n', stage'⟩
    · obtain ⟨_, -, hnone, -⟩ := (hI.saves t call stage' queue hrun hw).manifests id _ hh
      rw [hcm] at hnone
      cases hnone
    · cases (hI.prunes t w' net' n' stage' hrun hw).manifests id _ hh

theorem Adv.pruneStep (hA : Adv sha256 W N K s) (hI : Inv sha256 False s) {fk : Bool} {p n : ℕ}
    {w net : JsString} {stage : PruneStage} (hrun : (s.txs p).status = .running)
    (hw : (s.txs p).work = .prune w net n stage)
    (h : PruneMove fk s p w net n stage s') : Adv sha256 W N K s' := by
  have hlow := hA.prunes p w net n stage hrun hw
  have hlocal : ∀ {stage'}, (∀ ids, stage' = .manifests ids → ∀ id ∈ ids, Low W N s id ∧
      id < s.nextId ∧ ∀ t m, s.manifests.held id ≠ some (t, some m)) →
      Adv sha256 W N K (s.setWork p (.prune w net n stage')) := by
    intro stage' htodo
    exact hA.step_prune (AStep.of_tables (fun t' ht => setWork_of_ne s _ ht) rfl rfl rfl
      rfl (running_ne hrun)) ((congrArg Tx.status (setWork_self s p _)).trans hrun)
      (congrArg Tx.work (setWork_self s p _)) ⟨hlow.counter, hlow.mark, hlow.deleted, htodo⟩
  cases h with
  | choose =>
    refine hlocal fun ids he id hid => ?_
    cases he
    exact hA.prune_todo hI (hI.prunes p w net n _ hrun hw) hid
  | reclaim => exact hlocal fun ids he => by cases he
  | check => exact hlocal fun ids he => by cases he

theorem Adv.deleteManifestStep (hA : Adv sha256 W N K s) {p id : ℕ}
    (hrun : (s.txs p).status = .running)
    (h : System.deleteManifestStep s p id = some s') : Adv sha256 W N K s' := by
  obtain ⟨w, net, n, todo, hw, hmem, hf, hcases⟩ := deleteManifestStep_cases h
  have hlow := hA.prunes p w net n _ hrun hw
  have htodo : ∀ ids, PruneStage.manifests (todo.erase id) = .manifests ids → ∀ id' ∈ ids,
      Low W N s id' ∧ id' < s.nextId ∧ ∀ t m, s.manifests.held id' ≠ some (t, some m) := by
    intro ids he id' hid'
    cases he
    exact hlow.todo todo rfl id' (List.mem_of_mem_erase hid')
  rcases hcases with rfl | ⟨m, -, rfl⟩
  · exact hA.step_prune (AStep.of_tables (fun t' ht => setWork_of_ne s _ ht) rfl rfl rfl
      rfl (running_ne hrun)) ((congrArg Tx.status (setWork_self s p _)).trans hrun)
      (congrArg Tx.work (setWork_self s p _)) ⟨hlow.counter, hlow.mark, hlow.deleted, htodo⟩
  · refine hA.step_prune (p := p) ⟨fun t' ht => setWork_of_ne s _ ht, fun t' ht =>
        ⟨Table.sameFor_write hf ht _, Table.SameFor.refl _ _, Table.SameFor.refl _ _⟩, rfl, rfl,
        rfl, le_refl _, fun id' t' m' hh => ?_, running_ne hrun⟩
      ((congrArg Tx.status (setWork_self s p _)).trans hrun)
      (congrArg Tx.work (setWork_self s p _))
      ⟨hlow.counter, hlow.mark, fun id' r hr => ?_, fun ids he id' hid' => ?_⟩
    · by_cases he : id' = id
      · rw [he, Table.write_held_self] at hh
        cases hh
      · rw [Table.write_held_ne _ _ _ he] at hh
        exact Or.inl ⟨m', hh⟩
    · by_cases he : id' = id
      · rw [he]
        exact (hlow.todo todo rfl id hmem).1
      · rw [Table.write_held_ne _ _ _ he] at hr
        exact hlow.deleted id' r hr
    · obtain ⟨h1, h2, h3⟩ := htodo ids he id' hid'
      refine ⟨h1, h2, fun t' m' hh => ?_⟩
      by_cases he' : id' = id
      · rw [he', Table.write_held_self] at hh
        cases hh
      · rw [Table.write_held_ne _ _ _ he'] at hh
        exact h3 t' m' hh

theorem Adv.deleteChunkStep (hA : Adv sha256 W N K s) {p row : ℕ} {hash : Bytes}
    (hrun : (s.txs p).status = .running)
    (h : System.deleteChunkStep s p hash row = some s') : Adv sha256 W N K s' := by
  obtain ⟨w, net, n, todo, hs, hw, -, -, hcases⟩ := deleteChunkStep_cases h
  have hlow := hA.prunes p w net n _ hrun hw
  have hlocal : ∀ {stage'} {chunks : Table ℕ Bytes (Option ChunkVersion)},
      (∀ ids, stage' ≠ .manifests ids) →
      Adv sha256 W N K { s.setWork p (.prune w net n stage') with chunks := chunks } := by
    intro stage' chunks hne
    exact hA.step_prune (AStep.of_tables (fun t' ht => setWork_of_ne s _ ht) rfl rfl rfl
      rfl (running_ne hrun)) ((congrArg Tx.status (setWork_self s p _)).trans hrun)
      (congrArg Tx.work (setWork_self s p _))
      ⟨hlow.counter, hlow.mark, hlow.deleted, fun ids he => absurd he (hne ids)⟩
  rcases hcases with rfl | ⟨c, -, ⟨-, -, rfl⟩ | rfl⟩
  · exact hlocal (by simp)
  · exact hlocal (by simp)
  · exact hlocal (by simp)

/-! ### The ends of a transaction -/

/-- What the runs may start: `saveAndAdvance` of ours, and saves of others. -/
def Admitted (W N : JsString) (K : WatermarkKey) : Ev V → Prop
  | .beginSave _ _ call queue =>
    (Ours W N K call ∧ queue = []) ∨ Foreign W N K call ∧ ∀ c ∈ queue, Foreign W N K c
  | _ => True

theorem Adv.beginStep (hA : Adv sha256 W N K s) (hI : Inv sha256 False s) {t : ℕ} {clock : ℤ}
    {work : Work V}
    (hwork : (∃ call queue, work = .save call .called queue ∧ ((Ours W N K call ∧ queue = []) ∨
      Foreign W N K call ∧ ∀ c ∈ queue, Foreign W N K c)) ∨ ∃ w net n, work = .prune w net n .begun)
    (hidle : (s.txs t).status = .idle) :
    Adv sha256 W N K { s.setTx t ⟨.running, clock, work, []⟩ with clock := clock } := by
  have hne : (s.txs t).status ≠ .running := by rw [hidle]; simp
  have hb : Before W N K s t :=
    ⟨fun r hr => hne (hA.counter t r hr), fun id r hr => hne (hI.manifests id t r hr).1,
      fun r hr => hne (hA.mark t r hr)⟩
  have hself : (s.setTx t ⟨.running, clock, work, []⟩).txs t = ⟨.running, clock, work, []⟩ := by
    simp [CkptState.setTx]
  have hstep : AStep s { s.setTx t ⟨.running, clock, work, []⟩ with clock := clock } t :=
    AStep.of_tables (fun t' ht => by simp [CkptState.setTx, ht]) rfl rfl rfl rfl
      (by rw [hidle]; simp)
  rcases hwork with ⟨call, queue, rfl, hrole⟩ | ⟨w, net, n, rfl⟩
  · refine hA.step_save hstep (congrArg Tx.status hself) (congrArg Tx.work hself) ?_
    rcases hrole with ⟨h1, h2⟩ | ⟨h1, h2⟩
    · exact Or.inl ⟨h1, h2, ⟨hb.counter, hb.manifests, hb.mark⟩⟩
    · exact Or.inr ⟨h1, h2, ⟨hb.counter, fun id m hm => absurd hm (hb.manifests id _), hb.mark⟩⟩
  · exact hA.step_prune hstep (congrArg Tx.status hself) (congrArg Tx.work hself)
      ⟨hb.counter, hb.mark, fun id r hr => absurd hr (hb.manifests id r),
        fun ids he => by cases he⟩

theorem Adv.rollback (hA : Adv sha256 W N K s) {t : ℕ} (hrun : (s.txs t).status = .running) :
    Adv sha256 W N K (s.rollback t) := by
  have hstatus : ((s.rollback t).txs t).status ≠ .running := by
    rw [rollback_txs_self]; simp
  have hnone : ∀ {K R : Type} (tab : Table ℕ K R) k r, (tab.rollback t).held k ≠ some (t, r) := by
    intro K R tab k r hh
    exact (Table.unlock_eq_some.mp hh).2 rfl
  refine hA.step (t := t) ⟨fun t' ht => rollback_txs_of_ne s ht, fun t' ht =>
    ⟨Table.sameFor_rollback ht, Table.sameFor_rollback ht, Table.sameFor_rollback ht⟩, rfl, rfl,
    rfl, le_refl _, fun id t' m hh => Or.inl ⟨m, (Table.unlock_eq_some.mp hh).1⟩, running_ne hrun⟩
    (fun r hr => absurd hr (hnone _ _ r)) (fun r hr => absurd hr (hnone _ _ r))
    (fun _ _ _ hr => absurd hr hstatus) fun _ _ _ _ hr => absurd hr hstatus

/-- A commit of a transaction that does not hold the counter. -/
theorem Together.commit_apart (h : Together sha256 W N K s) {t : ℕ} {clock : ℤ}
    (hrun : (s.txs t).status = .running) (hcounter : ∀ r, s.counters.held (W, N) ≠ some (t, r))
    (hmark : ∀ r, s.marks.held K ≠ some (t, r))
    (hback : ∀ id m, s.manifests.view t id = some m → m.w = W → m.net = N →
      s.manifests.committed id = some m)
    (hkeep : ∀ id m n, s.manifests.committed id = some m → m.w = W → m.net = N →
      s.counters.committed (W, N) = some n → m.seq + 1 = n → s.manifests.view t id = some m) :
    Together sha256 W N K (s.commit t clock) := by
  have hc : (s.commit t clock).counters.committed (W, N) = s.counters.committed (W, N) :=
    Table.view_eq_committed hcounter
  have hk : (s.commit t clock).marks.committed K = s.marks.committed K :=
    Table.view_eq_committed hmark
  unfold Together
  rw [hc, hk]
  rcases h with ⟨h1, h2, h3⟩ |
    ⟨n, t₀, id, m, call, v, h1, h2, h3, h4, h5, h6, h7, hst, hw, h8, h9, h10, h11⟩
  · exact Or.inl ⟨h1, h2, fun id m hm hkey => h3 id m (hback id m hm hkey.1 hkey.2) hkey⟩
  · have hne : t₀ ≠ t := by
      rintro rfl
      rw [hrun] at hst
      cases hst
    rw [← commit_txs_of_ne s clock hne] at hst hw
    exact Or.inr ⟨n, t₀, id, m, call, v, h1,
      hkeep id m n h2 (h4.w.trans h8.1) (h4.net.trans h8.2.1) h1 h3, h3, h4, h5, h6, h7, hst, hw,
      h8, h9, h10, fun id' m' hm' hw' hn' => h11 id' m' (hback id' m' hm' hw' hn') hw' hn'⟩

/-- The commit of a call of ours. -/
theorem Together.commit_ours (h : Together sha256 W N K s) {t : ℕ} {clock : ℤ} {call : SaveCall V}
    (hw : (s.txs t).work = .save call .done []) (hours : Ours W N K call)
    (hok : OursOk sha256 W N K s t call .done) :
    Together sha256 W N K (s.commit t clock) := by
  obtain ⟨seq, id, m, v, h1, h2, h3, h4, h5, h6, h7⟩ := hok
  have hseq := h2.made.seq_eq
  have hself := commit_txs_self s t clock
  refine Or.inr ⟨seq + 1, t, id, m, call, v, Table.view_of_held h1.held, Table.view_of_held h2.held,
    by rw [hseq], hseq.symm ▸ h2.made, h3, by rw [hseq]; exact h4, h7, by rw [hself],
    by rw [hself]; exact hw, hours, h6, Table.view_of_held h5, fun id' m' hm' hw' hn' hne => ?_⟩
  change s.manifests.view t id' = some m' at hm'
  rcases s.manifests.view_cases t id' with hr | ⟨-, hv⟩
  · exact absurd (h2.only id' _ hr) hne
  · rw [hm'] at hv
    obtain ⟨n, hn, hlt⟩ := h.below hv.symm hw' hn'
    have hnext := h1.next
    rw [hn] at hnext
    rw [hseq, ← hnext]
    exact hlt

/-- What the end of a transaction means for the wallet: a call of ours is done, or the transaction
has nothing to do with the wallet but, if it is a prune, for deleting old checkpoints. -/
theorem Adv.finished_cases (hA : Adv sha256 W N K s) (hI : Inv sha256 False s) {t : ℕ}
    (hrun : (s.txs t).status = .running) (hfin : (s.txs t).work.finished = true) :
    (∃ call, (s.txs t).work = .save call .done [] ∧ Ours W N K call ∧
      OursOk sha256 W N K s t call .done) ∨
    (∀ r, s.counters.held (W, N) ≠ some (t, r)) ∧ (∀ r, s.marks.held K ≠ some (t, r)) ∧
      (∀ id m, s.manifests.view t id = some m → m.w = W → m.net = N →
        s.manifests.committed id = some m) ∧
      ∀ id m n, s.manifests.committed id = some m → m.w = W → m.net = N →
        s.counters.committed (W, N) = some n → m.seq + 1 = n → s.manifests.view t id = some m := by
  rcases hw : (s.txs t).work with ⟨call, stage, queue⟩ | ⟨w, net, n, stage⟩
  · rcases hA.saves t call stage queue hrun hw with ⟨h1, h2, h3⟩ | ⟨-, -, h3⟩
    · subst h2
      rw [hw] at hfin
      cases stage <;> first | exact Or.inl ⟨call, rfl, h1, h3⟩ | cases hfin
    · refine Or.inr ⟨h3.counter, h3.mark, fun id m hm hwm hnm => ?_, fun id m n hm _ _ _ _ => ?_⟩
      · rcases s.manifests.view_cases t id with hr | ⟨-, hv⟩
        · rw [hm] at hr
          exact absurd (by rw [hwm, hnm]) (h3.manifests id m hr)
        · rw [← hv, hm]
      · rcases s.manifests.view_cases t id with hr | ⟨-, hv⟩
        · obtain ⟨_, -, hnone, -⟩ := (hI.saves t call stage queue hrun hw).manifests id _ hr
          rw [hm] at hnone
          cases hnone
        · rw [hv, hm]
  · have hlow := hA.prunes t w net n stage hrun hw
    have hok := hI.prunes t w net n stage hrun hw
    refine Or.inr ⟨hlow.counter, hlow.mark, fun id m hm _ _ => hok.view_manifest hm,
      fun id m k hm hwm hnm hk hseq => ?_⟩
    rcases s.manifests.view_cases t id with hr | ⟨-, hv⟩
    · -- it would have deleted the highest number
      obtain ⟨k', hk', hlt⟩ := hlow.deleted id _ hr m hm hwm hnm
      rw [hk] at hk'
      cases hk'
      omega
    · rw [hv, hm]

theorem Adv.commit (hA : Adv sha256 W N K s) (hI : Inv sha256 False s) {t : ℕ} {clock : ℤ}
    (hrun : (s.txs t).status = .running) (hfin : (s.txs t).work.finished = true) :
    Adv sha256 W N K (s.commit t clock) := by
  have hcases := hA.finished_cases hI hrun hfin
  have hframe : ∀ {t'}, t' ≠ t → AFrame s (s.commit t clock) t' := fun ht =>
    ⟨Table.sameFor_commit ht, Table.sameFor_commit ht, Table.sameFor_commit ht⟩
  -- the counter never goes back
  have hmono : ∀ n, s.counters.committed (W, N) = some n →
      ∃ n', s.counters.view t (W, N) = some n' ∧ n ≤ n' := by
    intro n hn
    rcases hcases with ⟨call, -, -, seq, id, m, v, h1, -⟩ | ⟨h1, -⟩
    · have hnext := h1.next
      rw [hn] at hnext
      exact ⟨seq + 1, Table.view_of_held h1.held, by simp only [Option.getD_some] at hnext; omega⟩
    · exact ⟨n, by rw [Table.view_eq_committed h1, hn], le_refl _⟩
  have hlow : ∀ {id}, (∀ m, s.manifests.view t id = some m → s.manifests.committed id = some m) →
      Low W N s id → Low W N (s.commit t clock) id := by
    intro id hid hl m hm hw hn
    obtain ⟨n, hc, hlt⟩ := hl m (hid m hm) hw hn
    obtain ⟨n', hc', hle⟩ := hmono n hc
    exact ⟨n', hc', by omega⟩
  refine ⟨fun t' call stage queue hr hw => ?_, fun p w net n stage hr hw => ?_, fun t' r hr => ?_,
    fun t' r hr => ?_, ?_⟩
  · have ht := commit_running hr
    rw [commit_txs_of_ne s clock ht] at hr hw
    refine (hA.saves t' call stage queue hr hw).frame (hframe ht) ?_
    rintro ⟨r, hc⟩
    exact Table.view_of_other hc ht
  · have ht := commit_running hr
    rw [commit_txs_of_ne s clock ht] at hr hw
    have hp := hA.prunes p w net n stage hr hw
    have hf := hframe ht
    refine ⟨fun r h => hp.counter r ((hf.counters _ r).mp h),
      fun r h => hp.mark r ((hf.marks _ r).mp h), fun id r h => ?_, fun ids he id hid => ?_⟩
    · have h' := (hf.manifests id r).mp h
      exact hlow (fun m hm => by rw [Table.view_of_other h' ht] at hm; exact hm)
        (hp.deleted id r h')
    · obtain ⟨h1, h2, h3⟩ := hp.todo ids he id hid
      refine ⟨hlow (fun m hm => ?_) h1, h2, fun t' m h => ?_⟩
      · rcases s.manifests.view_cases t id with hr' | ⟨-, hv⟩
        · rw [hm] at hr'
          exact absurd hr' (h3 t m)
        · rw [← hv, hm]
      · exact h3 t' m (Table.unlock_eq_some.mp h).1
  · obtain ⟨hr, ht⟩ := Table.unlock_eq_some.mp hr
    rw [commit_txs_of_ne s clock ht]
    exact hA.counter t' r hr
  · obtain ⟨hr, ht⟩ := Table.unlock_eq_some.mp hr
    rw [commit_txs_of_ne s clock ht]
    exact hA.mark t' r hr
  · rcases hcases with ⟨call, hw, hours, hok⟩ | ⟨h1, h2, h3, h4⟩
    · exact hA.together.commit_ours hw hours hok
    · exact hA.together.commit_apart hrun h1 h2 h3 h4

theorem adv_init : Adv sha256 W N K (CkptState.init : CkptState V) := by
  refine ⟨?_, ?_, ?_, ?_, Or.inl ?_⟩ <;> simp [CkptState.init, Table.fresh]

theorem adv_step {e : Ev V} (hA : Adv sha256 W N K s) (hI : Inv sha256 False s)
    (hadm : Admitted W N K e) (h : step sha256 true s e = some s') : Adv sha256 W N K s' := by
  cases stepped_of_step h with
  | beginSave hidle => exact hA.beginStep hI (Or.inl ⟨_, _, rfl, hadm⟩) hidle
  | beginPrune hidle => exact hA.beginStep hI (Or.inr ⟨_, _, _, rfl⟩) hidle
  | save hrun hw h => exact hA.saveStep hI hrun hw h
  | prune hrun hw h => exact hA.pruneStep hI hrun hw h
  | deleteManifest hrun h => exact hA.deleteManifestStep hrun h
  | deleteChunk hrun h => exact hA.deleteChunkStep hrun h
  | commit hrun hfin => exact hA.commit hI hrun hfin
  | rollback hrun => exact hA.rollback hrun

/-! ### The data of the chunks -/

/-- The chunk is stored under its hash, and is one of `U`. -/
def Good (sha256 : Bytes → Bytes) (U : Set Bytes) (hashes : List Bytes) (hash : Bytes)
    (c : ChunkVersion) : Prop :=
  hash = sha256 c.data ∧ c.data ∈ U ∧ hash ∈ hashes

structure DataOk (sha256 : Bytes → Bytes) (U : Set Bytes) (s : CkptState V) : Prop where
  committed : ∀ h c, s.chunks.committed h = some c → Good sha256 U s.hashes h c
  held : ∀ h t c, s.chunks.held h = some (t, some c) → Good sha256 U s.hashes h c
  calls : ∀ t call stage queue, (s.txs t).work = .save call stage queue →
    ∀ c ∈ call :: queue, ∀ chunk ∈ c.chunks, chunk ∈ U
  rows : ∀ t call rows queue, (s.txs t).work = .save call (.upserting rows) queue →
    ∀ row ∈ rows, row.1 = sha256 row.2 ∧ row.2 ∈ U

variable {U : Set Bytes}

theorem DataOk.view (hD : DataOk sha256 U s) {t : ℕ} {h : Bytes} {c : ChunkVersion}
    (hv : s.chunks.view t h = some c) : Good sha256 U s.hashes h c := by
  rcases s.chunks.view_cases t h with hr | ⟨-, hc⟩
  · exact hD.held h t c (hv ▸ hr)
  · exact hD.committed h c (by rw [← hc, hv])

theorem mem_noteHash {hashes : List Bytes} {hash h : Bytes} :
    h ∈ noteHash hashes hash ↔ h ∈ hashes ∨ h = hash := by
  unfold noteHash
  split_ifs with hc
  · constructor
    · exact Or.inl
    · rintro (h' | rfl)
      · exact h'
      · simpa using hc
  · simp

/-- The program of one transaction changes, and the chunks stay. -/
theorem DataOk.setWork (hD : DataOk sha256 U s) {t : ℕ}
    (htx : ∀ t', t' ≠ t → (s'.txs t').work = (s.txs t').work) (hc : s'.chunks = s.chunks)
    (hh : s'.hashes = s.hashes)
    (hcalls : ∀ call stage queue, (s'.txs t).work = .save call stage queue →
      ∀ c ∈ call :: queue, ∀ chunk ∈ c.chunks, chunk ∈ U)
    (hrows : ∀ call rows queue, (s'.txs t).work = .save call (.upserting rows) queue →
      ∀ row ∈ rows, row.1 = sha256 row.2 ∧ row.2 ∈ U) : DataOk sha256 U s' := by
  refine ⟨?_, ?_, fun t' call stage queue hw => ?_, fun t' call rows queue hw => ?_⟩
  · rw [hc, hh]; exact hD.committed
  · rw [hc, hh]; exact hD.held
  · by_cases ht : t' = t
    · subst ht
      exact hcalls call stage queue hw
    · rw [htx t' ht] at hw
      exact hD.calls t' call stage queue hw
  · by_cases ht : t' = t
    · subst ht
      exact hrows call rows queue hw
    · rw [htx t' ht] at hw
      exact hD.rows t' call rows queue hw

/-- A good version of a chunk is written. -/
theorem DataOk.write (hD : DataOk sha256 U s) {t : ℕ} (hash : Bytes) {r : Option ChunkVersion}
    (hashes : List Bytes) (hsub : ∀ h ∈ s.hashes, h ∈ hashes)
    (hr : ∀ c, r = some c → Good sha256 U hashes hash c) :
    DataOk sha256 U { s with chunks := s.chunks.write t hash r, hashes := hashes } := by
  refine ⟨fun h c hc => ?_, fun h t' c hh => ?_, hD.calls, hD.rows⟩
  · obtain ⟨h1, h2, h3⟩ := hD.committed h c hc
    exact ⟨h1, h2, hsub h h3⟩
  · by_cases he : h = hash
    · subst he
      rw [Table.write_held_self] at hh
      cases hh
      exact hr c rfl
    · rw [Table.write_held_ne _ _ _ he] at hh
      obtain ⟨h1, h2, h3⟩ := hD.held h t' c hh
      exact ⟨h1, h2, hsub h h3⟩

/-- A call moves on, past its chunk upsert or before it. -/
theorem DataOk.save_local (hD : DataOk sha256 U s) {t : ℕ} {call : SaveCall V}
    {stage stage' : SaveStage} {queue : List (SaveCall V)}
    (hw : (s.txs t).work = .save call stage queue)
    (htx : s'.txs = Function.update s.txs t { s.txs t with work := .save call stage' queue })
    (hc : s'.chunks = s.chunks) (hh : s'.hashes = s.hashes)
    (hne : ∀ rows, stage' ≠ .upserting rows) : DataOk sha256 U s' := by
  refine hD.setWork (t := t) (fun t' ht => by rw [htx, Function.update_of_ne ht]) hc hh ?_ ?_
  · intro call' stage'' queue' hw'
    rw [htx, Function.update_self] at hw'
    cases hw'
    exact hD.calls t call stage queue hw
  · intro call' rows queue' hw'
    rw [htx, Function.update_self] at hw'
    cases hw'
    exact absurd rfl (hne rows)

/-- A save upserts its next chunk. -/
theorem DataOk.save_upsert (hD : DataOk sha256 U s) {t : ℕ} {call : SaveCall V} {hash data : Bytes}
    {rows : List (Bytes × Bytes)} {queue : List (SaveCall V)}
    (hw : (s.txs t).work = .save call (.upserting ((hash, data) :: rows)) queue) :
    DataOk sha256 U { s.setTx t { s.txs t with
        work := .save call (.upserting rows) queue, touched := hash :: (s.txs t).touched } with
      chunks := s.chunks.write t hash
        (some (upsertVersion t (s.txs t).start data (s.chunks.view t hash)))
      hashes := noteHash s.hashes hash } := by
  have hcalls := hD.calls t call _ queue hw
  have hrows := hD.rows t call _ queue hw
  have hrow := hrows (hash, data) (by simp)
  have hwrite := hD.write (t := t) hash (noteHash s.hashes hash)
    (r := some (upsertVersion t (s.txs t).start data (s.chunks.view t hash)))
    (fun h hh => mem_noteHash.mpr (Or.inl hh))
  refine (hwrite ?_).setWork (t := t) (fun t' ht => ?_) rfl rfl ?_ ?_
  · intro c hc
    cases hc
    refine ⟨?_, ?_, mem_noteHash.mpr (Or.inr rfl)⟩
    · rcases hv : s.chunks.view t hash with _ | old
      · exact hrow.1
      · exact (hD.view hv).1
    · rcases hv : s.chunks.view t hash with _ | old
      · exact hrow.2
      · exact (hD.view hv).2.1
  · simp [CkptState.setTx, ht]
  · intro call' stage' queue' hw'
    simp only [CkptState.setTx, Function.update_self, Work.save.injEq] at hw'
    obtain ⟨rfl, rfl, rfl⟩ := hw'
    exact hcalls
  · intro call' rows' queue' hw' row hr
    simp only [CkptState.setTx, Function.update_self, Work.save.injEq,
      SaveStage.upserting.injEq] at hw'
    obtain ⟨rfl, rfl, rfl⟩ := hw'
    exact hrows row (by simp [hr])

theorem DataOk.saveStep (hD : DataOk sha256 U s) {fk : Bool} {t : ℕ} {call : SaveCall V}
    {stage : SaveStage} {queue : List (SaveCall V)} (hw : (s.txs t).work = .save call stage queue)
    (h : SaveMove sha256 fk s t call queue stage s') : DataOk sha256 U s' := by
  have hcalls := hD.calls t call stage queue hw
  cases h with
  | start =>
    refine hD.setWork (t := t) (fun t' ht => by rw [setWork_of_ne s _ ht]) rfl rfl ?_ ?_
    · intro call' stage' queue' hw'
      rw [setWork_self] at hw'
      cases hw'
      exact hcalls
    · intro call' rows queue' hw' row hrow
      rw [setWork_self] at hw'
      cases hw'
      obtain ⟨h1, h2⟩ := RoundTrip.mem_chunkRowsOf _ _ hrow
      exact ⟨h2, hcalls call (by simp) _ h1⟩
  | upsert => exact hD.save_upsert hw
  | upserted => exact hD.save_local hw rfl rfl rfl (by simp)
  | claim => exact hD.save_local hw rfl rfl rfl (by simp)
  | insert => exact hD.save_local hw rfl rfl rfl (by simp)
  | join => exact hD.save_local hw rfl rfl rfl (by simp)
  | joined => exact hD.save_local hw rfl rfl rfl (by simp)
  | skip => exact hD.save_local hw rfl rfl rfl (by simp)
  | mark => exact hD.save_local hw rfl rfl rfl (by simp)
  | @next call' queue' hq =>
    subst hq
    refine hD.setWork (t := t) (fun t' ht => by rw [setWork_of_ne s _ ht]) rfl rfl ?_ ?_
    · intro call'' stage' queue'' hw'
      rw [setWork_self] at hw'
      cases hw'
      exact fun c hc => hcalls c (List.mem_cons_of_mem _ hc)
    · intro call'' rows queue'' hw'
      rw [setWork_self] at hw'
      cases hw'

/-- A prune moves on. -/
theorem DataOk.prune_local (hD : DataOk sha256 U s) {p n : ℕ} {w net : JsString}
    {stage : PruneStage} {manifests : Table ℕ ℕ (Option Manifest)} :
    DataOk sha256 U { s.setWork p (.prune w net n stage) with manifests := manifests } := by
  refine hD.setWork (t := p) (fun t' ht => ?_) rfl rfl ?_ ?_
  · exact congrArg Tx.work (setWork_of_ne s _ ht)
  · intro call stage' queue hw
    have := (congrArg Tx.work (setWork_self s p _)).symm.trans hw
    cases this
  · intro call rows queue hw
    have := (congrArg Tx.work (setWork_self s p _)).symm.trans hw
    cases this

/-- The chunks of the payloads of a run. -/
def usedChunks (es : List (Ev V)) : Set Bytes :=
  { chunk | ∃ t clock call queue, Ev.beginSave t clock call queue ∈ es ∧
    ∃ c ∈ call :: queue, chunk ∈ c.chunks }

theorem commit_work (s : CkptState V) (t : ℕ) (clock : ℤ) (t' : ℕ) :
    ((s.commit t clock).txs t').work = (s.txs t').work := by
  by_cases ht : t' = t
  · subst ht
    rw [commit_txs_self]
  · rw [commit_txs_of_ne s clock ht]

theorem rollback_work (s : CkptState V) (t t' : ℕ) :
    ((s.rollback t).txs t').work = (s.txs t').work := by
  by_cases ht : t' = t
  · subst ht
    rw [rollback_txs_self]
  · rw [rollback_txs_of_ne s ht]

theorem dataOk_step {es : List (Ev V)} {e : Ev V} (he : e ∈ es)
    (hD : DataOk sha256 (usedChunks es) s) (h : step sha256 true s e = some s') :
    DataOk sha256 (usedChunks es) s' := by
  cases stepped_of_step h with
  | @beginSave t clock call queue =>
    refine hD.setWork (t := t) (fun t' ht => by simp [CkptState.setTx, ht]) rfl rfl ?_ ?_
    · intro call' stage' queue' hw c hc chunk hchunk
      simp only [CkptState.setTx, Function.update_self, Work.save.injEq] at hw
      obtain ⟨rfl, rfl, rfl⟩ := hw
      exact ⟨t, clock, call, queue, he, c, hc, hchunk⟩
    · intro call' rows queue' hw
      simp [CkptState.setTx] at hw
  | @beginPrune p =>
    refine hD.setWork (t := p) (fun t' ht => by simp [CkptState.setTx, ht]) rfl rfl ?_ ?_
    · intro call stage queue hw
      simp [CkptState.setTx] at hw
    · intro call rows queue hw
      simp [CkptState.setTx] at hw
  | save _ hw h => exact hD.saveStep hw h
  | prune _ _ h => cases h <;> exact hD.prune_local
  | deleteManifest _ h =>
    obtain ⟨w, net, n, todo, -, -, -, rfl | ⟨m, -, rfl⟩⟩ := deleteManifestStep_cases h
    · exact hD.prune_local
    · exact hD.prune_local
  | @deleteChunk p row hash _ _ h =>
    obtain ⟨w, net, n, todo, hs, -, -, -, hcases⟩ := deleteChunkStep_cases h
    rcases hcases with rfl | ⟨c, hv, ⟨-, -, rfl⟩ | rfl⟩
    · exact hD.prune_local
    · exact (hD.write (t := p) (r := none) _ _ (fun _ hh => hh) (by simp)).prune_local
    · refine (hD.write (t := p) (r := some c) _ _ (fun _ hh => hh) fun c' hc' => ?_).prune_local
      cases hc'
      exact hD.view hv
  | commit =>
    exact ⟨fun h c hc => hD.view hc, fun h t' c hh => hD.held h t' c (Table.unlock_eq_some.mp hh).1,
      fun t' call stage queue hw => hD.calls t' call stage queue (by rwa [commit_work] at hw),
      fun t' call rows queue hw => hD.rows t' call rows queue (by rwa [commit_work] at hw)⟩
  | rollback =>
    exact ⟨hD.committed, fun h t' c hh => hD.held h t' c (Table.unlock_eq_some.mp hh).1,
      fun t' call stage queue hw => hD.calls t' call stage queue (by rwa [rollback_work] at hw),
      fun t' call rows queue hw => hD.rows t' call rows queue (by rwa [rollback_work] at hw)⟩

/-! ### What is loaded -/

/-- The junction rows of one manifest among all. -/
theorem filter_junctionRows (manifests : ℕ → Option Manifest) (id : ℕ) : ∀ n,
    (junctionRows manifests (List.range n)).filter (fun j => j.manifestId == id) =
      if id < n then (manifests id).elim [] fun m => junctionRowsOf id 0 m.refs else []
  | 0 => by simp [junctionRows]
  | n + 1 => by
    have ih := filter_junctionRows manifests id n
    have hlast : ((manifests n).elim [] fun m => junctionRowsOf n 0 m.refs).filter
        (fun j => j.manifestId == id) =
          if id = n then (manifests id).elim [] fun m => junctionRowsOf id 0 m.refs else [] := by
      rcases hn : manifests n with _ | m
      · split_ifs with he
        · rw [he, hn]; rfl
        · rfl
      · split_ifs with he
        · subst he
          rw [hn]
          exact RoundTrip.filter_junctionRowsOf id 0 m.refs
        · refine List.filter_eq_nil_iff.mpr fun j hj => ?_
          have := (RoundTrip.mem_junctionRowsOf hj).1
          simp only [beq_iff_eq]
          omega
    rw [junctionRows, List.range_succ, List.flatMap_append, List.filter_append, ← junctionRows, ih]
    simp only [List.flatMap_cons, List.flatMap_nil, List.append_nil]
    rw [hlast]
    by_cases h1 : id < n
    · rw [if_pos h1, if_neg (by omega), if_pos (by omega), List.append_nil]
    · by_cases h2 : id = n
      · rw [if_neg h1, if_pos h2, if_pos (by omega), List.nil_append]
      · rw [if_neg h1, if_neg h2, if_neg (by omega), List.append_nil]

theorem mem_durable_manifests {row : ManifestRow} : row ∈ s.durable.manifests ↔
    ∃ id m, id < s.nextId ∧ s.manifests.committed id = some m ∧ row = toRow id m := by
  simp only [CkptState.durable, CkptState.tables, List.mem_filterMap, List.mem_range,
    Option.map_eq_some_iff]
  constructor
  · rintro ⟨id, hid, m, hm, rfl⟩
    exact ⟨id, m, hid, hm, rfl⟩
  · rintro ⟨id, m, hid, hm, rfl⟩
    exact ⟨id, hid, m, hm, rfl⟩

theorem SaveCall.valid_ids {call : SaveCall V} (h : call.valid = true) :
    (checkpointIdOk call.w = true ∧ checkpointIdOk call.net = true) ∧ 0 < call.chunkSize := by
  simp only [SaveCall.valid, Bool.and_eq_true, decide_eq_true_eq] at h
  obtain ⟨⟨⟨⟨h1, h2⟩, h3⟩, -⟩, -⟩ := h
  exact ⟨⟨h1, h2⟩, h3⟩

theorem mem_durable_chunks {c : ChunkRow} : c ∈ s.durable.chunks ↔
    ∃ h v, h ∈ s.hashes ∧ s.chunks.committed h = some v ∧ c = ⟨h, v.data, v.createdAt⟩ := by
  simp only [CkptState.durable, CkptState.tables, List.mem_filterMap, Option.map_eq_some_iff]
  constructor
  · rintro ⟨h, hh, v, hv, rfl⟩
    exact ⟨h, v, hh, hv, rfl⟩
  · rintro ⟨h, v, hh, hv, rfl⟩
    exact ⟨h, hh, v, hv, rfl⟩

theorem DataOk.durable_chunk (hD : DataOk sha256 U s) {c : ChunkRow} (hc : c ∈ s.durable.chunks) :
    c.hash = sha256 c.data ∧ c.data ∈ U := by
  obtain ⟨h, v, -, hv, rfl⟩ := mem_durable_chunks.mp hc
  obtain ⟨hhash, hused, -⟩ := hD.committed h v hv
  exact ⟨hhash, hused⟩

/-- The chunks that a committed manifest refers to are committed. -/
theorem DataOk.durable_stored (hD : DataOk sha256 U s) (hI : Inv sha256 False s) {id : ℕ}
    {m : Manifest} {hash : Bytes} (hm : s.manifests.committed id = some m) (hmem : hash ∈ m.refs) :
    RoundTrip.Stored s.durable.chunks hash := by
  have hne := hI.refs id m hm hash hmem
  rcases hc : s.chunks.committed hash with _ | c
  · exact absurd hc hne
  · obtain ⟨-, -, hnoted⟩ := hD.committed _ c hc
    exact ⟨⟨hash, c.data, c.createdAt⟩, mem_durable_chunks.mpr ⟨hash, c, hnoted, hc, rfl⟩, rfl⟩

/-- The junction rows of a committed manifest. -/
theorem durable_junction {id : ℕ} {m : Manifest} (hid : id < s.nextId)
    (hm : s.manifests.committed id = some m) :
    (s.durable.junction.filter fun j => j.manifestId == id) = junctionRowsOf id 0 m.refs := by
  have hrows := filter_junctionRows s.manifests.committed id s.nextId
  rw [if_pos hid, hm] at hrows
  exact hrows

/-- The manifest of the highest number is the one that `load` looks at. -/
theorem durable_head {id : ℕ} {m : Manifest} (hid : id < s.nextId)
    (hm : s.manifests.committed id = some m) (hcomplete : m.complete = true)
    (hmax : ∀ id' m', s.manifests.committed id' = some m' → m'.w = m.w → m'.net = m.net →
      id' ≠ id → m'.seq < m.seq) :
    (bySeqDesc ((manifestsOf s.durable m.w m.net).filter fun m =>
      (none : Option ℕ).all (m.seq == ·))).head? = some (toRow id m) := by
  have hmem : toRow id m ∈ (manifestsOf s.durable m.w m.net).filter fun m =>
      (none : Option ℕ).all (m.seq == ·) := by
    refine List.mem_filter.mpr ⟨List.mem_filter.mpr ⟨?_, ?_⟩, rfl⟩
    · exact mem_durable_manifests.mpr ⟨id, m, hid, hm, rfl⟩
    · simp [toRow, hcomplete]
  obtain ⟨row, hhead⟩ := RoundTrip.bySeqDesc_head_ne hmem
  obtain ⟨hrow, hle⟩ := RoundTrip.bySeqDesc_head hhead
  obtain ⟨hrow, hkey⟩ := List.mem_filter.mp (List.mem_filter.mp hrow).1
  obtain ⟨id', m', -, hm', rfl⟩ := mem_durable_manifests.mp hrow
  have hsame : id' = id := by
    by_contra hne
    simp only [Bool.and_eq_true, beq_iff_eq] at hkey
    have hlt : m'.seq < m.seq := hmax id' m' hm' hkey.1.1 hkey.1.2 hne
    have hge : m.seq ≤ m'.seq := hle _ hmem
    omega
  subst hsame
  rw [hm] at hm'
  cases hm'
  exact hhead

/-- The checkpoint of the highest number is loaded with the bytes of its call. -/
theorem load_durable (hI : Inv sha256 False s) (hD : DataOk sha256 U s)
    (hinj : Set.InjOn sha256 U) {t id : ℕ} {m : Manifest} {call : SaveCall V}
    (hm : s.manifests.committed id = some m) (hmade : MadeBy sha256 call t m.seq m)
    (hrefs : m.refs = call.chunks.map sha256) (hsafe : m.seq ≤ maxSafeInteger)
    (hvalid : call.valid = true) (hw : (s.txs t).work = .save call .done [])
    (hmax : ∀ id' m', s.manifests.committed id' = some m' → m'.w = m.w → m'.net = m.net →
      id' ≠ id → m'.seq < m.seq) :
    ∃ rec, load sha256 m.w m.net none s.durable = .ok rec ∧ rec.data = call.data ∧
      rec.summary.sequence = m.seq := by
  have hid : id < s.nextId := hI.ids id (by rw [hm]; simp)
  obtain ⟨hids, hpos⟩ := SaveCall.valid_ids hvalid
  rw [← hmade.w, ← hmade.net] at hids
  set r : RoundTrip.Saved := ⟨m.w, m.net, m.seq, call.data, call.chunkSize, m.label⟩
  have hholds : RoundTrip.Holds sha256 s.durable r (toRow id m) := by
    refine ⟨rfl, rfl, rfl, hmade.complete, rfl, hmade.manifestHash, ?_, hpos, hids⟩
    exact hrefs ▸ durable_junction hid hm
  have hstored : ∀ p ∈ r.chunks, p ∈ U ∧ RoundTrip.Stored s.durable.chunks (sha256 p) := by
    intro p hp
    have hmem : sha256 p ∈ m.refs := hrefs ▸ List.mem_map_of_mem hp
    exact ⟨hD.calls t call _ [] hw call List.mem_cons_self p hp, hD.durable_stored hI hm hmem⟩
  have hhead := durable_head hid hm hmade.complete hmax
  have hload := RoundTrip.load_manifest hinj (fun _ => hD.durable_chunk) hstored hsafe hholds hhead
  exact ⟨_, hload, rfl, rfl⟩

/-! ### The result -/

/-- Nothing of the transaction is left in the table: the committed rows and the locks of the others
are as before, and it has no lock any more. -/
def Undone {K R : Type} (t : ℕ) (tab tab' : Table ℕ K R) : Prop :=
  tab'.committed = tab.committed ∧ (∀ k r, tab'.held k ≠ some (t, r)) ∧
    ∀ t', t' ≠ t → Table.SameFor t' tab tab'

theorem undone_rollback {K R : Type} (t : ℕ) (tab : Table ℕ K R) : Undone t tab (tab.rollback t) :=
  ⟨rfl, fun _ _ hh => (Table.unlock_eq_some.mp hh).2 rfl, fun _ ht => Table.sameFor_rollback ht⟩

theorem adv_run {es : List (Ev V)} (hadm : ∀ e ∈ es, Admitted W N K e)
    (h : run (step sha256 true) es .init = some s) :
    Inv sha256 False s ∧ Adv sha256 W N K s ∧ DataOk sha256 (usedChunks es) s := by
  have hall : ∀ e ∈ es, Admitted W N K e ∧ e ∈ es := fun e he => ⟨hadm e he, he⟩
  refine run_inv_along (P := fun _ e => Admitted W N K e ∧ e ∈ es)
    (I := fun s => Inv sha256 False s ∧ Adv sha256 W N K s ∧ DataOk sha256 (usedChunks es) s)
    ?_ es _ s
    ⟨Grace.inv_init, adv_init, ?_⟩ (along_of_forall es _ hall) h
  · rintro s e s' ⟨hI, hA, hD⟩ ⟨h1, h2⟩ hs
    exact ⟨Grace.inv_step hI (Or.inr rfl) (fun hf => hf.elim) hs, adv_step hA hI h1 hs,
      dataOk_step h2 hD hs⟩
  · refine ⟨?_, ?_, ?_, ?_⟩ <;> simp [CkptState.init, Table.fresh]

/-- What is committed is the same. -/
def SameCommitted (s s' : CkptState V) : Prop :=
  s'.chunks.committed = s.chunks.committed ∧ s'.manifests.committed = s.manifests.committed ∧
    s'.counters.committed = s.counters.committed ∧ s'.marks.committed = s.marks.committed

/-- Only commits change what is committed. -/
theorem committed_step {fk : Bool} {e : Ev V} (h : step sha256 fk s e = some s')
    (hne : ∀ t clock, e ≠ .commit t clock) : SameCommitted s s' := by
  cases stepped_of_step h with
  | beginSave => exact ⟨rfl, rfl, rfl, rfl⟩
  | beginPrune => exact ⟨rfl, rfl, rfl, rfl⟩
  | save _ _ h => cases h <;> exact ⟨rfl, rfl, rfl, rfl⟩
  | prune _ _ h => cases h <;> exact ⟨rfl, rfl, rfl, rfl⟩
  | deleteManifest _ h =>
    obtain ⟨w, net, n, todo, -, -, -, rfl | ⟨m, -, rfl⟩⟩ := deleteManifestStep_cases h <;>
      exact ⟨rfl, rfl, rfl, rfl⟩
  | deleteChunk _ h =>
    obtain ⟨w, net, n, todo, hs, -, -, -, hcases⟩ := deleteChunkStep_cases h
    rcases hcases with rfl | ⟨c, -, ⟨-, -, rfl⟩ | rfl⟩ <;> exact ⟨rfl, rfl, rfl, rfl⟩
  | commit => exact absurd rfl (hne _ _)
  | rollback => exact ⟨rfl, rfl, rfl, rfl⟩

/-- **`saveAndAdvance` keeps cursor and checkpoint together.** In every state of every run in which
only `saveAndAdvance` writes the checkpoints of the wallet and the cursor: there is no checkpoint
and no cursor; or the checkpoint of the highest number was inserted by a committed call, the cursor
is the one this call passed, and `load` returns its bytes. Only commits change the tables, and a
call that is rolled back leaves nothing in any of them. -/
theorem cursor_with_checkpoint {es : List (Ev V)} (hadm : ∀ e ∈ es, Admitted W N K e)
    (hinj : Set.InjOn sha256 (usedChunks es)) (h : run (step sha256 true) es .init = some s) :
    (((∀ row ∈ s.durable.manifests, ¬ (row.w = W ∧ row.net = N)) ∧ s.marks.committed K = none) ∨
      ∃ t call v id m, (s.txs t).status = .committed ∧ (s.txs t).work = .save call .done [] ∧
        call.cursor = some (K, v) ∧ s.marks.committed K = some v ∧
        s.manifests.committed id = some m ∧ m.insertedBy = t ∧ m.w = W ∧ m.net = N ∧
        (∀ id' m', s.manifests.committed id' = some m' → m'.w = W → m'.net = N → id' ≠ id →
          m'.seq < m.seq) ∧
        ∃ rec, load sha256 W N none s.durable = .ok rec ∧ rec.data = call.data ∧
          rec.summary.sequence = m.seq) ∧
    (∀ e s', step sha256 true s e = some s' → (∀ t clock, e ≠ .commit t clock) →
      SameCommitted s s') ∧
    ∀ t s', step sha256 true s (.rollback t) = some s' →
      Undone t s.chunks s'.chunks ∧ Undone t s.manifests s'.manifests ∧
      Undone t s.counters s'.counters ∧ Undone t s.marks s'.marks := by
  obtain ⟨hI, hA, hD⟩ := adv_run hadm h
  refine ⟨?_, fun e s' hs hne => committed_step hs hne, fun t s' hs => ?_⟩
  · rcases hA.together with ⟨-, h2, h3⟩ |
      ⟨n, t, id, m, call, v, -, hm, -, hmade, hrefs, hsafe, hvalid, hst, hw, hours, hcur, hmark,
        hmax⟩
    · refine Or.inl ⟨fun row hrow hkey => ?_, h2⟩
      obtain ⟨id, m, -, hm, rfl⟩ := mem_durable_manifests.mp hrow
      exact h3 id m hm hkey
    · have hmw : m.w = W := hmade.w.trans hours.1
      have hmn : m.net = N := hmade.net.trans hours.2.1
      refine Or.inr ⟨t, call, v, id, m, hst, hw, hcur, hmark, hm, hmade.insertedBy, hmw, hmn, hmax,
        ?_⟩
      subst hmw hmn
      exact load_durable hI hD hinj hm hmade hrefs hsafe hvalid hw hmax
  · cases stepped_of_step hs
    exact ⟨undone_rollback t _, undone_rollback t _, undone_rollback t _, undone_rollback t _⟩

/-- Two calls race: the second claims its number only after the first has committed, and the first
checkpoint is pruned. -/
def twoCalls : List (Ev ℕ) :=
  [.beginSave 1 0 ⟨[97], [109], [1], 1, none, some (⟨[107], [99]⟩, 10)⟩ [],
    .beginSave 2 1 ⟨[97], [109], [], 1, none, some (⟨[107], [99]⟩, 20)⟩ []] ++
  List.replicate 8 (.advance 1) ++ [.advance 2, .advance 2, .commit 1 2] ++
  List.replicate 4 (.advance 2) ++
  [.commit 2 3, .beginPrune 3 4 [97] [109] 1, .advance 3, .deleteManifest 3 1, .advance 3,
    .advance 3, .commit 3 5]

theorem cursor_with_checkpoint_twoCalls :
    ∃ s, run (step RoundTrip.sha256OfByte true) twoCalls .init = some s ∧
      s.marks.committed ⟨[107], [99]⟩ = some 20 ∧
      ∃ t call rec, (s.txs t).work = .save call .done [] ∧
        call.cursor = some (⟨[107], [99]⟩, 20) ∧
        load RoundTrip.sha256OfByte [97] [109] none s.durable = .ok rec ∧ rec.data = call.data := by
  have hsaves : ∀ {t clock call queue}, Ev.beginSave t clock call queue ∈ twoCalls → queue = [] ∧
      (call = ⟨[97], [109], [1], 1, none, some (⟨[107], [99]⟩, 10)⟩ ∨
        call = ⟨[97], [109], [], 1, none, some (⟨[107], [99]⟩, 20)⟩) := by
    intro t clock call queue he
    simp only [twoCalls, List.cons_append, List.nil_append, List.mem_cons, List.mem_append,
      List.mem_replicate, Ev.beginSave.injEq, reduceCtorEq, and_false, or_false,
      List.not_mem_nil] at he
    rcases he with ⟨-, -, rfl, rfl⟩ | ⟨-, -, rfl, rfl⟩
    · exact ⟨rfl, Or.inl rfl⟩
    · exact ⟨rfl, Or.inr rfl⟩
  have hadm : ∀ e ∈ twoCalls, Admitted [97] [109] ⟨[107], [99]⟩ e := by
    intro e he
    cases e with
    | beginSave t clock call queue =>
      obtain ⟨rfl, rfl | rfl⟩ := hsaves he
      · exact Or.inl ⟨⟨rfl, rfl, _, rfl⟩, rfl⟩
      · exact Or.inl ⟨⟨rfl, rfl, _, rfl⟩, rfl⟩
    | _ => trivial
  have hone : ∀ chunk ∈ usedChunks twoCalls, chunk = [1] := by
    rintro chunk ⟨t, clock, call, queue, he, c, hc, hchunk⟩
    obtain ⟨rfl, rfl | rfl⟩ := hsaves he
    · rw [List.mem_singleton.mp hc] at hchunk
      exact List.mem_singleton.mp hchunk
    · rw [List.mem_singleton.mp hc] at hchunk
      exact absurd hchunk List.not_mem_nil
  have hinj : Set.InjOn RoundTrip.sha256OfByte (usedChunks twoCalls) := by
    intro a ha b hb _
    rw [hone a ha, hone b hb]
  obtain ⟨hmain, -, -⟩ := cursor_with_checkpoint hadm hinj rfl
  rcases hmain with ⟨-, hnone⟩ | ⟨t, call, v, id, m, -, hw, hcur, hmark, -, -, -, -, -, rec, hload⟩
  · cases hnone
  · cases hmark
    exact ⟨_, rfl, rfl, t, call, rec, hw, hcur, hload.1, hload.2.1⟩

end UmbraDB.Ckpt.Advance
