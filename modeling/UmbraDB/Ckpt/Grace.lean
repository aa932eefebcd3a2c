import UmbraDB.Ckpt.RoundTrip
import UmbraDB.Ckpt.System
import Mathlib.Algebra.Order.Group.Int

/-! # Checkpoint store: no interleaving loses a referenced chunk

A chunk row is safe for one of two reasons. While a save that has upserted it runs, the save holds
its lock. Once the save has committed, its junction rows are there for the `NOT EXISTS` of every
later `DELETE`, and for a `DELETE` whose snapshot is older, `created_at` is recent: a save that was
running at the snapshot and commits within the grace window has started within the grace window
before the start of the prune (`PruneOk.recent`).

The second reason needs the bound on the duration of saves. Where there is none, the foreign key
takes its place: it fails the prune instead. So the invariant has a parameter, `timely`, for the
proposition that saves are bounded. -/

namespace UmbraDB.Ckpt.Grace

open UmbraDB.Js.Text UmbraDB.Lib.RowStore UmbraDB.Lib.Runs
open UmbraDB.Ckpt.Rows UmbraDB.Ckpt.System

variable {V : Type} {sha256 : Bytes → Bytes} {timely : Prop} {fk : Bool} {s s' : CkptState V}

/-! ### The invariant -/

/-- The hashes a call still relies on are upserted, or about to be. -/
def StageOk (sha256 : Bytes → Bytes) (touched : List Bytes) (call : SaveCall V) :
    SaveStage → Prop
  | .called => True
  | .upserting rows =>
    ∀ chunk ∈ call.chunks, sha256 chunk ∈ touched ∨ ∃ row ∈ rows, row.1 = sha256 chunk
  | .claiming => ∀ chunk ∈ call.chunks, sha256 chunk ∈ touched
  | .inserting _ => ∀ chunk ∈ call.chunks, sha256 chunk ∈ touched
  | .joining _ _ rest => ∀ hash ∈ rest, hash ∈ touched
  | .marking => True
  | .done => True

/-- A running save: it holds the chunks it has upserted, with its own start as `created_at`, and its
manifests refer to no others. -/
structure SaveOk (sha256 : Bytes → Bytes) (s : CkptState V) (t : ℕ) (call : SaveCall V)
    (stage : SaveStage) : Prop where
  touched : ∀ h ∈ (s.txs t).touched, ∃ c, s.chunks.held h = some (t, some c)
  chunks : ∀ h r, s.chunks.held h = some (t, r) → ∃ c, r = some c ∧ c.createdAt = (s.txs t).start
  manifests : ∀ id r, s.manifests.held id = some (t, r) →
    ∃ m, r = some m ∧ s.manifests.committed id = none ∧ ∀ h ∈ m.refs, h ∈ (s.txs t).touched
  progress : StageOk sha256 (s.txs t).touched call stage
  joining : ∀ id seq rest, stage = .joining id seq rest →
    ∃ m, s.manifests.held id = some (t, some m)

/-- A running prune. What it has only locked is as committed. What it has deleted is not referred to
by a manifest it sees, unless the check of the foreign key is still to come. And a manifest it sees
that refers to a row it has chosen came after its snapshot, and the row is recent or another one. -/
structure PruneOk (timely : Prop) (s : CkptState V) (p : ℕ) (stage : PruneStage) : Prop where
  locked : ∀ h c, s.chunks.held h = some (p, some c) → s.chunks.committed h = some c
  deleted : ∀ h, s.chunks.held h = some (p, none) →
    (∀ id m, s.manifests.view p id = some m → h ∉ m.refs) ∨
      ¬ timely ∧ ∃ todo hs, stage = .chunks todo hs ∧ h ∈ hs
  manifests : ∀ id r, s.manifests.held id = some (p, r) → r = none
  recent : timely → ∀ todo hs, stage = .chunks todo hs → ∀ h row, (h, row) ∈ todo →
    ∀ id m, s.manifests.view p id = some m → h ∈ m.refs →
      ∃ c, s.chunks.committed h = some c ∧
        (c.insertedBy ≠ row ∨ (s.txs p).start - graceWindow ≤ c.createdAt)

/-- **The invariant.** -/
structure Inv (sha256 : Bytes → Bytes) (timely : Prop) (s : CkptState V) : Prop where
  chunks : ∀ h t r, s.chunks.held h = some (t, r) → (s.txs t).status = .running
  manifests : ∀ id t r, s.manifests.held id = some (t, r) →
    (s.txs t).status = .running ∧ id < s.nextId
  ids : ∀ id, s.manifests.committed id ≠ none → id < s.nextId
  refs : ∀ id m, s.manifests.committed id = some m → ∀ h ∈ m.refs, s.chunks.committed h ≠ none
  saves : ∀ t call stage queue, (s.txs t).status = .running →
    (s.txs t).work = .save call stage queue → SaveOk sha256 s t call stage
  prunes : ∀ p w net n stage, (s.txs p).status = .running →
    (s.txs p).work = .prune w net n stage → PruneOk timely s p stage
  clock : ∀ t, (s.txs t).status = .running → (s.txs t).start ≤ s.clock

/-! ### The transactions after a step -/

theorem setWork_self (s : CkptState V) (t : ℕ) (work : Work V) :
    (s.setWork t work).txs t = { s.txs t with work := work } := by
  simp [CkptState.setWork, CkptState.setTx]

theorem setWork_of_ne (s : CkptState V) {t t' : ℕ} (work : Work V) (h : t' ≠ t) :
    (s.setWork t work).txs t' = s.txs t' := by
  simp [CkptState.setWork, CkptState.setTx, h]

theorem commit_txs_self (s : CkptState V) (t : ℕ) (clock : ℤ) :
    (s.commit t clock).txs t = { s.txs t with status := .committed } := by
  simp [CkptState.commit, CkptState.setTx]

theorem commit_txs_of_ne (s : CkptState V) {t t' : ℕ} (clock : ℤ) (h : t' ≠ t) :
    (s.commit t clock).txs t' = s.txs t' := by
  simp [CkptState.commit, CkptState.setTx, h]

theorem rollback_txs_self (s : CkptState V) (t : ℕ) :
    (s.rollback t).txs t = { s.txs t with status := .rolledBack } := by
  simp [CkptState.rollback, CkptState.setTx]

theorem rollback_txs_of_ne (s : CkptState V) {t t' : ℕ} (h : t' ≠ t) :
    (s.rollback t).txs t' = s.txs t' := by
  simp [CkptState.rollback, CkptState.setTx, h]

theorem commit_running {t t' : ℕ} {clock : ℤ}
    (h : ((s.commit t clock).txs t').status = .running) : t' ≠ t := by
  rintro rfl
  rw [commit_txs_self] at h
  cases h

/-! ### Steps of other transactions -/

/-- Nothing changes for the transaction `t`, and nothing is committed. -/
structure Frame (s s' : CkptState V) (t : ℕ) : Prop where
  tx : s'.txs t = s.txs t
  chunks : Table.SameFor t s.chunks s'.chunks
  manifests : Table.SameFor t s.manifests s'.manifests

/-- A step of one transaction that commits nothing. -/
structure Step (s s' : CkptState V) (t : ℕ) : Prop where
  others : ∀ t', t' ≠ t → Frame s s' t'
  chunks : s'.chunks.committed = s.chunks.committed
  manifests : s'.manifests.committed = s.manifests.committed
  nextId : s.nextId ≤ s'.nextId
  clock : s.clock ≤ s'.clock

theorem SaveOk.frame {t : ℕ} {call : SaveCall V} {stage : SaveStage} (hf : Frame s s' t)
    (hm : s'.manifests.committed = s.manifests.committed) (h : SaveOk sha256 s t call stage) :
    SaveOk sha256 s' t call stage := by
  refine ⟨fun k hk => ?_, fun k r hr => ?_, fun id r hr => ?_, ?_, fun id seq rest hst => ?_⟩
  · rw [hf.tx] at hk
    obtain ⟨c, hc⟩ := h.touched k hk
    exact ⟨c, (hf.chunks k _).mpr hc⟩
  · rw [hf.tx]
    exact h.chunks k r ((hf.chunks k r).mp hr)
  · rw [hf.tx, hm]
    exact h.manifests id r ((hf.manifests id r).mp hr)
  · rw [hf.tx]
    exact h.progress
  · obtain ⟨m, hm⟩ := h.joining id seq rest hst
    exact ⟨m, (hf.manifests id _).mpr hm⟩

theorem PruneOk.frame {p : ℕ} {stage : PruneStage} (hf : Frame s s' p)
    (hc : s'.chunks.committed = s.chunks.committed)
    (hm : s'.manifests.committed = s.manifests.committed) (h : PruneOk timely s p stage) :
    PruneOk timely s' p stage := by
  have hview : ∀ id, s'.manifests.view p id = s.manifests.view p id := fun id =>
    hf.manifests.view (by rw [hm])
  refine ⟨fun k c hk => ?_, fun k hk => ?_, fun id r hr => ?_, fun ht todo hs hst k row hrow => ?_⟩
  · rw [hc]
    exact h.locked k c ((hf.chunks k _).mp hk)
  · simp only [hview]
    exact h.deleted k ((hf.chunks k _).mp hk)
  · exact h.manifests id r ((hf.manifests id r).mp hr)
  · simp only [hview, hf.tx, hc]
    exact h.recent ht todo hs hst k row hrow

/-- A step that commits nothing keeps the invariant if the transaction that makes it is right. -/
theorem Inv.step (hI : Inv sha256 timely s) {t : ℕ} (hs : Step s s' t)
    (hchunks : ∀ h r, s'.chunks.held h = some (t, r) → (s'.txs t).status = .running)
    (hids : ∀ id r, s'.manifests.held id = some (t, r) →
      (s'.txs t).status = .running ∧ id < s'.nextId)
    (hstart : (s'.txs t).status = .running → (s'.txs t).start ≤ s'.clock)
    (hsave : ∀ call stage queue, (s'.txs t).status = .running →
      (s'.txs t).work = .save call stage queue → SaveOk sha256 s' t call stage)
    (hprune : ∀ w net n stage, (s'.txs t).status = .running →
      (s'.txs t).work = .prune w net n stage → PruneOk timely s' t stage) :
    Inv sha256 timely s' := by
  refine ⟨fun k t' r hr => ?_, fun id t' r hr => ?_, fun id hid => ?_, fun id m hm k hk => ?_,
    fun t' call stage queue hr hw => ?_, fun p w net n stage hr hw => ?_, fun t' hr => ?_⟩
  · by_cases ht : t' = t
    · subst ht
      exact hchunks k r hr
    · rw [(hs.others t' ht).tx]
      exact hI.chunks k t' r (((hs.others t' ht).chunks k r).mp hr)
  · by_cases ht : t' = t
    · subst ht
      exact hids id r hr
    · rw [(hs.others t' ht).tx]
      obtain ⟨h1, h2⟩ := hI.manifests id t' r (((hs.others t' ht).manifests id r).mp hr)
      exact ⟨h1, h2.trans_le hs.nextId⟩
  · rw [hs.manifests] at hid
    exact (hI.ids id hid).trans_le hs.nextId
  · rw [hs.manifests] at hm
    rw [hs.chunks]
    exact hI.refs id m hm k hk
  · by_cases ht : t' = t
    · subst ht
      exact hsave call stage queue hr hw
    · have hf := hs.others t' ht
      rw [hf.tx] at hr hw
      exact (hI.saves t' call stage queue hr hw).frame hf hs.manifests
  · by_cases ht : p = t
    · subst ht
      exact hprune w net n stage hr hw
    · have hf := hs.others p ht
      rw [hf.tx] at hr hw
      exact (hI.prunes p w net n stage hr hw).frame hf hs.chunks hs.manifests
  · by_cases ht : t' = t
    · subst ht
      exact hstart hr
    · rw [(hs.others t' ht).tx] at hr ⊢
      exact (hI.clock t' hr).trans hs.clock

/-- The same, for a transaction that runs on. -/
theorem Inv.step_running (hI : Inv sha256 timely s) {t : ℕ} (hs : Step s s' t)
    (hrun : (s'.txs t).status = .running) (hstart : (s'.txs t).start ≤ s'.clock)
    (hids : ∀ id r, s'.manifests.held id = some (t, r) → id < s'.nextId)
    (hsave : ∀ call stage queue, (s'.txs t).work = .save call stage queue →
      SaveOk sha256 s' t call stage)
    (hprune : ∀ w net n stage, (s'.txs t).work = .prune w net n stage →
      PruneOk timely s' t stage) : Inv sha256 timely s' :=
  hI.step hs (fun _ _ _ => hrun) (fun id r hr => ⟨hrun, hids id r hr⟩) (fun _ => hstart)
    (fun call stage queue _ => hsave call stage queue) fun w net n stage _ => hprune w net n stage

theorem inv_init : Inv sha256 timely (CkptState.init : CkptState V) := by
  refine ⟨?_, ?_, ?_, ?_, ?_, ?_, ?_⟩ <;> simp [CkptState.init, Table.fresh]

/-! ### Steps of a save -/

/-- The tables stay as they are, and only the program of `t` moves on. -/
theorem Step.of_tables {t : ℕ} (htx : ∀ t', t' ≠ t → s'.txs t' = s.txs t')
    (hc : s'.chunks = s.chunks) (hm : s'.manifests = s.manifests) (hid : s'.nextId = s.nextId)
    (hcl : s.clock ≤ s'.clock) : Step s s' t := by
  refine ⟨fun t' ht => ⟨htx t' ht, ?_, ?_⟩, by rw [hc], by rw [hm], le_of_eq hid.symm, hcl⟩
  · rw [hc]; exact Table.SameFor.refl _ _
  · rw [hm]; exact Table.SameFor.refl _ _

theorem SaveOk.setStage {t : ℕ} {call call' : SaveCall V} {stage stage' : SaveStage}
    (h : SaveOk sha256 s t call stage) (hc : s'.chunks = s.chunks)
    (hm : s'.manifests = s.manifests) (hstart : (s'.txs t).start = (s.txs t).start)
    (ht : (s'.txs t).touched = (s.txs t).touched)
    (hst : StageOk sha256 (s.txs t).touched call' stage')
    (hj : ∀ id seq rest, stage' = .joining id seq rest →
      ∃ m, s.manifests.held id = some (t, some m)) : SaveOk sha256 s' t call' stage' := by
  refine ⟨?_, ?_, ?_, ?_, ?_⟩
  · rw [ht, hc]; exact h.touched
  · rw [hstart, hc]; exact h.chunks
  · rw [ht, hm]; exact h.manifests
  · rw [ht]; exact hst
  · rw [hm]; exact hj

theorem upsertVersion_createdAt (t : ℕ) (now : ℤ) (data : Bytes) (old : Option ChunkVersion) :
    (upsertVersion t now data old).createdAt = now := by
  cases old <;> rfl

/-- A save moves on without touching chunks or manifests. -/
theorem Inv.save_local (hI : Inv sha256 timely s) {t : ℕ} {call call' : SaveCall V}
    {stage stage' : SaveStage} {queue queue' : List (SaveCall V)}
    (hrun : (s.txs t).status = .running) (hw : (s.txs t).work = .save call stage queue)
    (htx : s'.txs = Function.update s.txs t { s.txs t with work := .save call' stage' queue' })
    (hc : s'.chunks = s.chunks) (hm : s'.manifests = s.manifests) (hid : s'.nextId = s.nextId)
    (hcl : s'.clock = s.clock) (hst : StageOk sha256 (s.txs t).touched call' stage')
    (hj : ∀ id seq rest, stage' ≠ .joining id seq rest) : Inv sha256 timely s' := by
  have hself : s'.txs t = { s.txs t with work := .save call' stage' queue' } := by
    rw [htx, Function.update_self]
  have hok := hI.saves t call stage queue hrun hw
  refine hI.step_running (t := t)
    (Step.of_tables (fun t' ht => ?_) hc hm hid (le_of_eq hcl.symm)) ?_ ?_ ?_ ?_ ?_
  · rw [htx, Function.update_of_ne ht]
  · rw [hself]; exact hrun
  · rw [hself, hcl]; exact hI.clock t hrun
  · intro id r hr
    rw [hm] at hr
    rw [hid]
    exact (hI.manifests id t r hr).2
  · intro call'' stage'' queue'' hw'
    rw [hself] at hw'
    cases hw'
    refine hok.setStage hc hm (by rw [hself]) (by rw [hself]) hst fun id seq rest he => ?_
    exact absurd he (hj id seq rest)
  · intro w net n stage'' hw'
    rw [hself] at hw'
    cases hw'

theorem Inv.save_upsert (hI : Inv sha256 timely s) {t : ℕ} {call : SaveCall V}
    {queue : List (SaveCall V)} {hash data : Bytes} {rows : List (Bytes × Bytes)}
    (hrun : (s.txs t).status = .running)
    (hw : (s.txs t).work = .save call (.upserting ((hash, data) :: rows)) queue)
    (hf : s.chunks.free t hash = true) :
    Inv sha256 timely
      { s.setTx t { s.txs t with work := .save call (.upserting rows) queue,
                                 touched := hash :: (s.txs t).touched } with
        chunks := s.chunks.write t hash
          (some (upsertVersion t (s.txs t).start data (s.chunks.view t hash)))
        hashes := noteHash s.hashes hash } := by
  have hok := hI.saves t call _ queue hrun hw
  refine hI.step_running (t := t)
    ⟨fun t' ht => ⟨?_, Table.sameFor_write hf ht _, Table.SameFor.refl _ _⟩,
      rfl, rfl, le_refl _, le_refl _⟩ ?_ ?_ ?_ ?_ ?_
  · simp [CkptState.setTx, ht]
  · simpa [CkptState.setTx] using hrun
  · simpa [CkptState.setTx] using hI.clock t hrun
  · intro id r hr
    exact (hI.manifests id t r hr).2
  · intro call' stage' queue' hw'
    simp only [CkptState.setTx, Function.update_self, Work.save.injEq] at hw'
    obtain ⟨rfl, rfl, rfl⟩ := hw'
    refine ⟨fun h hh => ?_, fun h r hr => ?_, fun id r hr => ?_, fun chunk hchunk => ?_, ?_⟩
    · simp only [CkptState.setTx, Function.update_self] at hh
      by_cases he : h = hash
      · subst he
        exact ⟨_, Table.write_held_self _ _ _ _⟩
      · obtain ⟨c, hc⟩ := hok.touched h (by simpa [he] using hh)
        exact ⟨c, by rw [Table.write_held_ne _ _ _ he]; exact hc⟩
    · simp only [CkptState.setTx, Function.update_self]
      by_cases he : h = hash
      · subst he
        rw [Table.write_held_self] at hr
        cases hr
        exact ⟨_, rfl, upsertVersion_createdAt _ _ _ _⟩
      · rw [Table.write_held_ne _ _ _ he] at hr
        exact hok.chunks h r hr
    · obtain ⟨m, hm, hn, hrefs⟩ := hok.manifests id r hr
      refine ⟨m, hm, hn, fun h hh => ?_⟩
      simp [CkptState.setTx, hrefs h hh]
    · simp only [CkptState.setTx, Function.update_self, List.mem_cons]
      rcases hok.progress chunk hchunk with h | ⟨row, hrow, he⟩
      · exact Or.inl (Or.inr h)
      · rcases List.mem_cons.mp hrow with rfl | hrow
        · exact Or.inl (Or.inl he.symm)
        · exact Or.inr ⟨row, hrow, he⟩
    · intro id seq rest he
      cases he
  · intro w net n stage hw'
    simp [CkptState.setTx] at hw'

/-- A save writes a row of `ckpt_manifests`: a new one, or its own with one more junction row. -/
theorem Inv.save_manifest (hI : Inv sha256 timely s) {t id nextId seq : ℕ} {call : SaveCall V}
    {stage : SaveStage} {queue : List (SaveCall V)} {m : Manifest} {rest : List Bytes}
    (hrun : (s.txs t).status = .running) (hw : (s.txs t).work = .save call stage queue)
    (hf : s.manifests.free t id = true) (hn : s.manifests.committed id = none)
    (hid : id < nextId) (hnext : s.nextId ≤ nextId)
    (hrefs : ∀ h ∈ m.refs, h ∈ (s.txs t).touched) (hrest : ∀ h ∈ rest, h ∈ (s.txs t).touched) :
    Inv sha256 timely
      { s.setWork t (.save call (.joining id seq rest) queue) with
        manifests := s.manifests.write t id (some m), nextId := nextId } := by
  have hok := hI.saves t call stage queue hrun hw
  refine hI.step_running (t := t)
    ⟨fun t' ht => ⟨?_, Table.SameFor.refl _ _, Table.sameFor_write hf ht _⟩,
      rfl, rfl, hnext, le_refl _⟩ ?_ ?_ ?_ ?_ ?_
  · simp [CkptState.setWork, CkptState.setTx, ht]
  · simpa [CkptState.setWork, CkptState.setTx] using hrun
  · simpa [CkptState.setWork, CkptState.setTx] using hI.clock t hrun
  · intro id' r hr
    by_cases he : id' = id
    · rw [he]; exact hid
    · rw [Table.write_held_ne _ _ _ he] at hr
      exact (hI.manifests id' t r hr).2.trans_le hnext
  · intro call' stage' queue' hw'
    simp only [CkptState.setWork, CkptState.setTx, Function.update_self, Work.save.injEq] at hw'
    obtain ⟨rfl, rfl, rfl⟩ := hw'
    refine ⟨?_, ?_, fun id' r hr => ?_, ?_, ?_⟩
    · simpa [CkptState.setWork, CkptState.setTx] using hok.touched
    · simpa [CkptState.setWork, CkptState.setTx] using hok.chunks
    · simp only [CkptState.setWork, CkptState.setTx, Function.update_self, Table.write_committed]
      by_cases he : id' = id
      · subst he
        rw [Table.write_held_self] at hr
        cases hr
        exact ⟨m, rfl, hn, hrefs⟩
      · rw [Table.write_held_ne _ _ _ he] at hr
        exact hok.manifests id' r hr
    · simpa [StageOk, CkptState.setWork, CkptState.setTx] using hrest
    · intro id' seq' rest' he
      cases he
      exact ⟨m, Table.write_held_self _ _ _ _⟩
  · intro w net n stage' hw'
    simp [CkptState.setWork, CkptState.setTx] at hw'

/-- The id of the next manifest is nobody's. -/
theorem Inv.held_nextId (hI : Inv sha256 timely s) : s.manifests.held s.nextId = none := by
  rcases hh : s.manifests.held s.nextId with _ | ⟨t, r⟩
  · rfl
  · exact absurd (hI.manifests _ _ _ hh).2 (lt_irrefl _)

theorem Inv.saveStep (hI : Inv sha256 timely s) {t : ℕ} {call : SaveCall V} {stage : SaveStage}
    {queue : List (SaveCall V)} (hrun : (s.txs t).status = .running)
    (hw : (s.txs t).work = .save call stage queue)
    (h : SaveMove sha256 fk s t call queue stage s') : Inv sha256 timely s' := by
  have hok := hI.saves t call stage queue hrun hw
  cases h with
  | start =>
    refine hI.save_local hrun hw rfl rfl rfl rfl rfl (fun chunk hchunk => ?_) (by simp)
    rcases RoundTrip.exists_chunkRowsOf [] _ hchunk with h | h
    · simp at h
    · exact Or.inr h
  | upsert hf => exact hI.save_upsert hrun hw hf
  | upserted =>
    refine hI.save_local hrun hw rfl rfl rfl rfl rfl (fun chunk hchunk => ?_) (by simp)
    rcases hok.progress chunk hchunk with h | ⟨row, hrow, -⟩
    · exact h
    · simp at hrow
  | claim => exact hI.save_local hrun hw rfl rfl rfl rfl rfl hok.progress (by simp)
  | insert =>
    refine hI.save_manifest hrun hw (Table.free_iff.mpr (Or.inl hI.held_nextId)) ?_ (Nat.lt_succ_self _)
      (Nat.le_succ _) (by simp) fun h hh => ?_
    · by_contra hne
      exact absurd (hI.ids _ hne) (lt_irrefl _)
    · obtain ⟨chunk, hchunk, rfl⟩ := List.mem_map.mp hh
      exact hok.progress chunk hchunk
  | @join id seq hash rest m hview =>
    obtain ⟨m', hm'⟩ := hok.joining id seq _ rfl
    obtain ⟨m'', hm'', hn, hrefs⟩ := hok.manifests id _ hm'
    have hmm : m = m'' := by
      rw [Table.view_of_held hm'] at hview
      rw [hview] at hm''
      cases hm''
      rfl
    refine hI.save_manifest hrun hw (Table.free_iff.mpr (Or.inr ⟨_, hm'⟩)) hn
      (hI.manifests id t _ hm').2 (le_refl _) (fun h hh => ?_) fun h hh => ?_
    · rcases List.mem_append.mp hh with hh | hh
      · exact hrefs h (hmm ▸ hh)
      · rw [List.mem_singleton.mp hh]
        exact hok.progress hash (by simp)
    · exact hok.progress h (by simp [hh])
  | joined => exact hI.save_local hrun hw rfl rfl rfl rfl rfl trivial (by simp)
  | skip => exact hI.save_local hrun hw rfl rfl rfl rfl rfl trivial (by simp)
  | mark => exact hI.save_local hrun hw rfl rfl rfl rfl rfl trivial (by simp)
  | next => exact hI.save_local hrun hw rfl rfl rfl rfl rfl trivial (by simp)

/-! ### Steps of a prune -/

/-- The subquery of the chunk `DELETE` looks for a visible manifest that refers to the hash. -/
theorem junction_any {t : ℕ} {hash : Bytes} :
    (s.db t).junction.any (fun j => j.chunkHash == hash) = true ↔
      ∃ id m, id < s.nextId ∧ s.manifests.view t id = some m ∧ hash ∈ m.refs := by
  simp only [CkptState.db, CkptState.tables, junctionRows, List.any_eq_true, List.mem_flatMap,
    List.mem_range, beq_iff_eq]
  constructor
  · rintro ⟨j, ⟨id, hid, hj⟩, he⟩
    rcases hv : s.manifests.view t id with _ | m
    · rw [hv] at hj; simp at hj
    · rw [hv] at hj
      exact ⟨id, m, hid, hv, he ▸ (RoundTrip.mem_junctionRowsOf hj).2.1⟩
  · rintro ⟨id, m, hid, hv, hh⟩
    obtain ⟨j, hj, he⟩ := RoundTrip.exists_junctionRowsOf id 0 hh
    exact ⟨j, ⟨id, hid, by rw [hv]; exact hj⟩, he⟩

theorem Inv.view_id (hI : Inv sha256 timely s) {t id : ℕ} {m : Manifest}
    (h : s.manifests.view t id = some m) : id < s.nextId := by
  rcases s.manifests.view_cases t id with hr | ⟨-, hv⟩
  · exact (hI.manifests id t _ hr).2
  · exact hI.ids id (by rw [← hv, h]; simp)

/-- The rows chosen by the chunk `DELETE` are not referred to by any manifest it sees. -/
theorem mem_reclaimed (hI : Inv sha256 timely s) {p : ℕ} {hash : Bytes} {row : ℕ}
    (h : (hash, row) ∈ reclaimed s p) {id : ℕ} {m : Manifest}
    (hv : s.manifests.view p id = some m) : hash ∉ m.refs := by
  intro hh
  obtain ⟨h', -, hb⟩ := List.mem_filterMap.mp h
  obtain ⟨c, -, hc⟩ := Option.bind_eq_some_iff.mp hb
  split_ifs at hc with hr
  cases hc
  have hany := junction_any.mpr ⟨id, m, hI.view_id hv, hv, hh⟩
  simp [reclaimable, hany] at hr

/-- A prune sees the committed version of a chunk it has not deleted. -/
theorem PruneOk.view_chunk {p : ℕ} {stage : PruneStage} {hash : Bytes} {c : ChunkVersion}
    (h : PruneOk timely s p stage) (hv : s.chunks.view p hash = some c) :
    s.chunks.committed hash = some c := by
  rcases s.chunks.view_cases p hash with hr | ⟨-, hv'⟩
  · exact h.locked hash c (hv ▸ hr)
  · rw [← hv', hv]

/-- A prune has inserted no manifests: what it sees is committed. -/
theorem PruneOk.view_manifest {p id : ℕ} {stage : PruneStage} {m : Manifest}
    (h : PruneOk timely s p stage) (hv : s.manifests.view p id = some m) :
    s.manifests.committed id = some m := by
  rcases s.manifests.view_cases p id with hr | ⟨-, hv'⟩
  · rw [h.manifests id _ hr] at hv
    cases hv
  · rw [← hv', hv]

/-- A prune moves on without touching the tables. -/
theorem Inv.prune_local (hI : Inv sha256 timely s) {p n : ℕ} {w net : JsString}
    {stage : PruneStage} (hrun : (s.txs p).status = .running)
    (hids : ∀ id r, s.manifests.held id = some (p, r) → id < s.nextId)
    (hok : PruneOk timely (s.setWork p (.prune w net n stage)) p stage) :
    Inv sha256 timely (s.setWork p (.prune w net n stage)) := by
  refine hI.step_running (t := p)
    (Step.of_tables (fun t' ht => setWork_of_ne s _ ht) rfl rfl rfl (le_refl _)) ?_ ?_ hids ?_ ?_
  · rw [setWork_self]; exact hrun
  · rw [setWork_self]; exact hI.clock p hrun
  · intro call stage' queue hw
    rw [setWork_self] at hw
    cases hw
  · intro w' net' n' stage' hw
    rw [setWork_self] at hw
    cases hw
    exact hok

theorem Inv.pruneStep (hI : Inv sha256 timely s) (hfk : timely ∨ fk = true) {p n : ℕ}
    {w net : JsString} {stage : PruneStage} (hrun : (s.txs p).status = .running)
    (hw : (s.txs p).work = .prune w net n stage)
    (h : PruneMove fk s p w net n stage s') : Inv sha256 timely s' := by
  have hok := hI.prunes p w net n stage hrun hw
  have hids : ∀ id r, s.manifests.held id = some (p, r) → id < s.nextId :=
    fun id r hr => (hI.manifests id p r hr).2
  cases h with
  | choose =>
    refine hI.prune_local hrun hids ⟨hok.locked, fun k hk => ?_, hok.manifests, ?_⟩
    · rcases hok.deleted k hk with h | ⟨-, _, _, he, -⟩
      · exact Or.inl h
      · cases he
    · intro _ _ _ he
      cases he
  | reclaim =>
    refine hI.prune_local hrun hids ⟨hok.locked, fun k hk => ?_, hok.manifests, ?_⟩
    · rcases hok.deleted k hk with h | ⟨-, _, _, he, -⟩
      · exact Or.inl h
      · cases he
    · -- the snapshot of the chunk `DELETE`
      intro _ todo hs he k row hrow id m hv hk
      cases he
      exact absurd hk (mem_reclaimed hI hrow hv)
  | check hany =>
    refine hI.prune_local hrun hids ⟨hok.locked, fun k hk => Or.inl ?_, hok.manifests, ?_⟩
    · rcases hok.deleted k hk with h | ⟨ht, todo, hs, he, hmem⟩
      · exact h
      · -- without a bound on the saves the check of the foreign key has passed
        cases he
        intro id m hv hh
        rcases hfk with h' | h'
        · exact ht h'
        · refine hany ?_
          rw [h', Bool.true_and]
          exact List.any_eq_true.mpr
            ⟨k, hmem, junction_any.mpr ⟨id, m, hI.view_id hv, hv, hh⟩⟩
    · intro _ _ _ he
      cases he

theorem Inv.deleteManifestStep (hI : Inv sha256 timely s) {p id : ℕ}
    (hrun : (s.txs p).status = .running)
    (h : System.deleteManifestStep s p id = some s') : Inv sha256 timely s' := by
  obtain ⟨w, net, n, todo, hw, -, hf, hcases⟩ := deleteManifestStep_cases h
  have hok := hI.prunes p w net n _ hrun hw
  have hids : ∀ id r, s.manifests.held id = some (p, r) → id < s.nextId :=
    fun id r hr => (hI.manifests id p r hr).2
  have hdel : ∀ k, s.chunks.held k = some (p, none) →
      ∀ id m, s.manifests.view p id = some m → k ∉ m.refs := by
    intro k hk
    rcases hok.deleted k hk with h | ⟨-, _, _, he, -⟩
    · exact h
    · cases he
  rcases hcases with rfl | ⟨m, hv, rfl⟩
  · refine hI.prune_local hrun hids
      ⟨hok.locked, fun k hk => Or.inl (hdel k hk), hok.manifests, ?_⟩
    intro _ _ _ he
    cases he
  · refine hI.step_running (t := p)
      ⟨fun t' ht => ⟨setWork_of_ne s _ ht, Table.SameFor.refl _ _, Table.sameFor_write hf ht _⟩,
        rfl, rfl, le_refl _, le_refl _⟩ ?_ ?_ ?_ ?_ ?_
    · exact (congrArg Tx.status (setWork_self s p _)).trans hrun
    · exact (le_of_eq (congrArg Tx.start (setWork_self s p _))).trans (hI.clock p hrun)
    · intro id' r hr
      by_cases he : id' = id
      · rw [he]; exact hI.view_id hv
      · rw [Table.write_held_ne _ _ _ he] at hr
        exact hids id' r hr
    · intro call stage queue hw'
      have := (congrArg Tx.work (setWork_self s p _)).symm.trans hw'
      cases this
    · intro w' net' n' stage' hw'
      have := (congrArg Tx.work (setWork_self s p _)).symm.trans hw'
      cases this
      refine ⟨hok.locked, fun k hk => Or.inl fun id' m' hv' => ?_, fun id' r hr => ?_, ?_⟩
      · -- the prune sees fewer manifests than before
        by_cases he : id' = id
        · rw [he, Table.view_write_self] at hv'; cases hv'
        · rw [Table.view_write_ne _ _ _ _ he] at hv'
          exact hdel k hk id' m' hv'
      · by_cases he : id' = id
        · rw [he, Table.write_held_self] at hr
          cases hr
          rfl
        · rw [Table.write_held_ne _ _ _ he] at hr
          exact hok.manifests id' r hr
      · intro _ _ _ he
        cases he

/-- The chunk `DELETE` deletes a row or locks it. -/
theorem Inv.prune_chunk (hI : Inv sha256 timely s) {p n : ℕ} {w net : JsString} {hash : Bytes}
    {r : Option ChunkVersion} {stage stage' : PruneStage} (hrun : (s.txs p).status = .running)
    (hw : (s.txs p).work = .prune w net n stage) (hf : s.chunks.free p hash = true)
    (hlock : ∀ c, r = some c → s.chunks.committed hash = some c)
    (hdel : r = none → (∀ id m, s.manifests.view p id = some m → hash ∉ m.refs) ∨
      ¬ timely ∧ ∃ todo hs, stage' = .chunks todo hs ∧ hash ∈ hs)
    (hold : ∀ h, (∃ todo hs, stage = .chunks todo hs ∧ h ∈ hs) →
      ∃ todo hs, stage' = .chunks todo hs ∧ h ∈ hs)
    (htodo : ∀ todo' hs', stage' = .chunks todo' hs' → ∃ todo hs, stage = .chunks todo hs ∧
      ∀ x ∈ todo', x ∈ todo) :
    Inv sha256 timely
      { s.setWork p (.prune w net n stage') with chunks := s.chunks.write p hash r } := by
  have hok := hI.prunes p w net n stage hrun hw
  refine hI.step_running (t := p)
    ⟨fun t' ht => ⟨setWork_of_ne s _ ht, Table.sameFor_write hf ht _, Table.SameFor.refl _ _⟩,
      rfl, rfl, le_refl _, le_refl _⟩ ?_ ?_ ?_ ?_ ?_
  · exact (congrArg Tx.status (setWork_self s p _)).trans hrun
  · exact (le_of_eq (congrArg Tx.start (setWork_self s p _))).trans (hI.clock p hrun)
  · intro id r' hr
    exact (hI.manifests id p r' hr).2
  · intro call stage'' queue hw'
    have := (congrArg Tx.work (setWork_self s p _)).symm.trans hw'
    cases this
  · intro w' net' n' stage'' hw'
    have := (congrArg Tx.work (setWork_self s p _)).symm.trans hw'
    cases this
    refine ⟨fun h c hh => ?_, fun h hh => ?_, hok.manifests, fun ht todo' hs' he h row hrow id m hv
      hm => ?_⟩
    · by_cases he : h = hash
      · subst he
        rw [Table.write_held_self] at hh
        cases hh
        exact hlock c rfl
      · rw [Table.write_held_ne _ _ _ he] at hh
        exact hok.locked h c hh
    · by_cases he : h = hash
      · subst he
        rw [Table.write_held_self] at hh
        cases hh
        exact hdel rfl
      · rw [Table.write_held_ne _ _ _ he] at hh
        rcases hok.deleted h hh with h' | ⟨ht, hmem⟩
        · exact Or.inl h'
        · exact Or.inr ⟨ht, hold h hmem⟩
    · obtain ⟨todo, hs, hst, hsub⟩ := htodo todo' hs' he
      obtain ⟨c, hc, hrec⟩ := hok.recent ht todo hs hst h row (hsub _ hrow) id m hv hm
      refine ⟨c, hc, ?_⟩
      change c.insertedBy ≠ row ∨
        ((s.setWork p (.prune w net n stage')).txs p).start - graceWindow ≤ c.createdAt
      rw [setWork_self]
      exact hrec

theorem Inv.deleteChunkStep (hI : Inv sha256 timely s) {p row : ℕ} {hash : Bytes}
    (hrun : (s.txs p).status = .running)
    (h : System.deleteChunkStep s p hash row = some s') : Inv sha256 timely s' := by
  obtain ⟨w, net, n, todo, hs, hw, hmem, hf, hcases⟩ := deleteChunkStep_cases h
  have hok := hI.prunes p w net n _ hrun hw
  have hsub : ∀ x ∈ todo.erase (hash, row), x ∈ todo := fun x hx => List.mem_of_mem_erase hx
  rcases hcases with rfl | ⟨c, hv, ⟨hrow, hold, rfl⟩ | rfl⟩
  · refine hI.prune_local hrun (fun id r hr => (hI.manifests id p r hr).2)
      ⟨hok.locked, fun k hk => ?_, hok.manifests, fun ht todo' hs' he h' row' hr => ?_⟩
    · rcases hok.deleted k hk with h' | ⟨ht, _, _, he, hk'⟩
      · exact Or.inl h'
      · cases he
        exact Or.inr ⟨ht, _, _, rfl, hk'⟩
    · cases he
      rw [setWork_self]
      exact hok.recent ht todo hs rfl h' row' (hsub _ hr)
  · refine hI.prune_chunk hrun hw hf (by simp) (fun _ => ?_) (fun k hk => ?_) fun todo' hs' he => ?_
    · by_cases ht : timely
      · -- a visible manifest that refers to the row would have made it recent
        refine Or.inl fun id m hm hh => ?_
        obtain ⟨c', hc', hrec⟩ := hok.recent ht todo hs rfl hash row hmem id m hm hh
        rw [hok.view_chunk hv] at hc'
        cases hc'
        rcases hrec with hne | hle
        · exact hne hrow
        · omega
      · exact Or.inr ⟨ht, _, _, rfl, by simp⟩
    · obtain ⟨_, _, he, hk'⟩ := hk
      cases he
      exact ⟨_, _, rfl, by simp [hk']⟩
    · cases he
      exact ⟨todo, hs, rfl, hsub⟩
  · refine hI.prune_chunk hrun hw hf (fun c' hc' => ?_) (by simp) (fun k hk => ?_)
      fun todo' hs' he => ?_
    · cases hc'
      exact hok.view_chunk hv
    · obtain ⟨_, _, he, hk'⟩ := hk
      cases he
      exact ⟨_, _, rfl, hk'⟩
    · cases he
      exact ⟨todo, hs, rfl, hsub⟩

/-! ### The ends of a transaction -/

theorem Inv.beginStep (hI : Inv sha256 timely s) {t : ℕ} {clock : ℤ} {work : Work V}
    (hwork : (∃ call queue, work = .save call .called queue) ∨
      ∃ w net n, work = .prune w net n .begun)
    (hidle : (s.txs t).status = .idle) (hcl : s.clock ≤ clock) :
    Inv sha256 timely { s.setTx t ⟨.running, clock, work, []⟩ with clock := clock } := by
  have hself : (s.setTx t ⟨.running, clock, work, []⟩).txs t = ⟨.running, clock, work, []⟩ := by
    simp [CkptState.setTx]
  -- an idle transaction holds nothing
  have hchunks : ∀ h r, s.chunks.held h ≠ some (t, r) := by
    intro h r hh
    have := hI.chunks h t r hh
    rw [hidle] at this
    cases this
  have hmanifests : ∀ id r, s.manifests.held id ≠ some (t, r) := by
    intro id r hh
    have := (hI.manifests id t r hh).1
    rw [hidle] at this
    cases this
  refine hI.step_running (t := t)
    (Step.of_tables (fun t' ht => ?_) rfl rfl rfl hcl) ?_ ?_ ?_ ?_ ?_
  · simp [CkptState.setTx, ht]
  · exact congrArg Tx.status hself
  · exact le_of_eq (congrArg Tx.start hself)
  · intro id r hr
    exact absurd hr (hmanifests id r)
  · intro call stage queue hw
    have hw' : work = .save call stage queue := (congrArg Tx.work hself).symm.trans hw
    have htouched := congrArg Tx.touched hself
    refine ⟨fun h hh => ?_, fun h r hr => absurd hr (hchunks h r),
      fun id r hr => absurd hr (hmanifests id r), ?_, fun id seq rest he => ?_⟩
    · rw [htouched] at hh
      simp at hh
    · rcases hwork with ⟨call', queue', he⟩ | ⟨w, net, n, he⟩
      · rw [he] at hw'
        cases hw'
        trivial
      · rw [he] at hw'; cases hw'
    · rcases hwork with ⟨call', queue', he'⟩ | ⟨w, net, n, he'⟩
      · rw [he', he] at hw'; cases hw'
      · rw [he'] at hw'; cases hw'
  · intro w net n stage hw
    have hw' : work = .prune w net n stage := (congrArg Tx.work hself).symm.trans hw
    refine ⟨fun h c hh => absurd hh (hchunks h _), fun h hh => absurd hh (hchunks h _),
      fun id r hr => absurd hr (hmanifests id r), fun _ todo hs he => ?_⟩
    rcases hwork with ⟨call', queue', he'⟩ | ⟨w', net', n', he'⟩
    · rw [he'] at hw'; cases hw'
    · rw [he', he] at hw'; cases hw'

theorem Inv.rollback (hI : Inv sha256 timely s) {t : ℕ} : Inv sha256 timely (s.rollback t) := by
  have hstatus : ((s.rollback t).txs t).status ≠ .running := by
    rw [rollback_txs_self]; simp
  have hnone : ∀ {K R : Type} (tab : Table ℕ K R) k r, (tab.rollback t).held k ≠ some (t, r) := by
    intro K R tab k r hh
    exact (Table.unlock_eq_some.mp hh).2 rfl
  exact hI.step (t := t) ⟨fun t' ht => ⟨rollback_txs_of_ne s ht, Table.sameFor_rollback ht,
    Table.sameFor_rollback ht⟩, rfl, rfl, le_refl _, le_refl _⟩
    (fun h r hh => absurd hh (hnone _ h r)) (fun id r hh => absurd hh (hnone _ id r))
    (fun hr => absurd hr hstatus) (fun _ _ _ hr => absurd hr hstatus)
    fun _ _ _ _ hr => absurd hr hstatus

/-- The chunks of what a transaction sees of the manifests, at its end: a save has upserted the
chunk and its version is recent, or both the manifest and the chunk are as committed before. -/
theorem Inv.view_chunk (hI : Inv sha256 timely s) {t : ℕ} (hrun : (s.txs t).status = .running)
    (hfin : (s.txs t).work.finished = true) {id : ℕ} {m : Manifest}
    (hm : s.manifests.view t id = some m) {h : Bytes} (hh : h ∈ m.refs) :
    (∃ c call stage queue, (s.txs t).work = .save call stage queue ∧
      s.chunks.view t h = some c ∧ c.createdAt = (s.txs t).start) ∨
    s.chunks.view t h = s.chunks.committed h ∧ s.manifests.committed id = some m := by
  rcases hw : (s.txs t).work with ⟨call, stage, queue⟩ | ⟨w, net, n, stage⟩
  · have hok := hI.saves t call stage queue hrun hw
    rcases s.chunks.view_cases t h with hr | ⟨hn, hv⟩
    · obtain ⟨c, hc, hat⟩ := hok.chunks h _ hr
      exact Or.inl ⟨c, call, stage, queue, rfl, hc, hat⟩
    · refine Or.inr ⟨hv, ?_⟩
      rcases s.manifests.view_cases t id with hr | ⟨-, hv'⟩
      · obtain ⟨m', hm', -, hrefs⟩ := hok.manifests id _ hr
        rw [hm] at hm'
        cases hm'
        obtain ⟨c, hc⟩ := hok.touched h (hrefs h hh)
        exact absurd hc (hn _)
      · rw [← hv', hm]
  · have hok := hI.prunes t w net n stage hrun hw
    refine Or.inr ⟨?_, hok.view_manifest hm⟩
    rcases s.chunks.view_cases t h with hr | ⟨-, hv⟩
    · rcases hv : s.chunks.view t h with _ | c
      · -- a deleted chunk is not referred to, since the check of the foreign key is over
        rw [hv] at hr
        rcases hok.deleted h hr with hd | ⟨-, _, _, he, -⟩
        · exact absurd hh (hd id m hm)
        · rw [hw, he] at hfin
          cases hfin
      · rw [hok.view_chunk hv]
    · exact hv

theorem Inv.view_refs (hI : Inv sha256 timely s) {t : ℕ} (hrun : (s.txs t).status = .running)
    (hfin : (s.txs t).work.finished = true) {id : ℕ} {m : Manifest}
    (hm : s.manifests.view t id = some m) {h : Bytes} (hh : h ∈ m.refs) :
    s.chunks.view t h ≠ none := by
  rcases hI.view_chunk hrun hfin hm hh with ⟨c, _, _, _, -, hv, -⟩ | ⟨hv, hcm⟩
  · rw [hv]; simp
  · rw [hv]; exact hI.refs id m hcm h hh

/-- After the commit of `t`, a manifest that another prune sees is one that `t` sees. -/
theorem PruneOk.view_commit {p t : ℕ} {stage : PruneStage} (hok : PruneOk timely s p stage)
    {id : ℕ} {m : Manifest} (hne : p ≠ t) (h : (s.manifests.commit t).view p id = some m) :
    s.manifests.view t id = some m ∧ ∀ r, s.manifests.held id ≠ some (p, r) := by
  have hn : ∀ r, s.manifests.held id ≠ some (p, r) := by
    intro r hr
    have hr' := (Table.sameFor_commit hne id r).mpr hr
    rw [Table.view_of_held hr', hok.manifests id r hr] at h
    cases h
  rw [Table.view_eq_committed fun r hr => hn r ((Table.sameFor_commit hne id r).mp hr)] at h
  exact ⟨h, hn⟩

/-- A save commits within the grace window. -/
def InTime (s : CkptState V) (t : ℕ) (clock : ℤ) : Prop :=
  ∀ call stage queue, (s.txs t).work = .save call stage queue →
    clock ≤ (s.txs t).start + graceWindow

theorem PruneOk.commit (hI : Inv sha256 timely s) {t p : ℕ} {clock : ℤ} {stage : PruneStage}
    (hrun : (s.txs t).status = .running) (hfin : (s.txs t).work.finished = true)
    (hcl : s.clock ≤ clock) (htime : timely → InTime s t clock) (hne : p ≠ t)
    (hp : (s.txs p).status = .running) (htx : s'.txs p = s.txs p)
    (hc : s'.chunks = s.chunks.commit t) (hm : s'.manifests = s.manifests.commit t)
    (hok : PruneOk timely s p stage) : PruneOk timely s' p stage := by
  -- a row that `p` holds is not changed by the commit
  have hown : ∀ k r, s.chunks.held k = some (p, r) → s.chunks.view t k = s.chunks.committed k := by
    intro k r hr
    exact Table.view_of_other hr hne
  refine ⟨fun k c hk => ?_, fun k hk => ?_, fun id r hr => ?_, fun ht todo hs hst k row hrow id m hv
    hk => ?_⟩
  · rw [hc] at hk ⊢
    have hk' := (Table.sameFor_commit hne k _).mp hk
    rw [Table.commit_committed, hown k _ hk']
    exact hok.locked k c hk'
  · rw [hc] at hk
    have hk' := (Table.sameFor_commit hne k _).mp hk
    rcases hok.deleted k hk' with hd | h2
    · refine Or.inl fun id m hv hh => ?_
      rw [hm] at hv
      obtain ⟨hvt, hn⟩ := hok.view_commit hne hv
      rcases hI.view_chunk hrun hfin hvt hh with ⟨c, call, stage', queue, hw, hck, -⟩ | ⟨-, hcm⟩
      · -- a save that had upserted the chunk would hold it
        have hsave := hI.saves t call stage' queue hrun hw
        rcases s.manifests.view_cases t id with hr | ⟨-, hv'⟩
        · obtain ⟨m', hm', -, hrefs⟩ := hsave.manifests id _ hr
          rw [hvt] at hm'
          cases hm'
          obtain ⟨c', hc'⟩ := hsave.touched k (hrefs k hh)
          rw [hk'] at hc'
          cases hc'
        · rw [hvt] at hv'
          exact hd id m (by rw [Table.view_eq_committed hn, ← hv']) hh
      · exact hd id m (by rw [Table.view_eq_committed hn, hcm]) hh
    · exact Or.inr h2
  · rw [hm] at hr
    exact hok.manifests id r ((Table.sameFor_commit hne id r).mp hr)
  · rw [hm] at hv
    obtain ⟨hvt, hn⟩ := hok.view_commit hne hv
    rw [hc, htx]
    simp only [Table.commit_committed]
    rcases hI.view_chunk hrun hfin hvt hk with ⟨c, call, stage', queue, hw, hck, hat⟩ | ⟨hck, hcm⟩
    · refine ⟨c, hck, Or.inr ?_⟩
      have h1 := htime ht call stage' queue hw
      have h2 := hI.clock p hp
      omega
    · rw [hck]
      exact hok.recent ht todo hs hst k row hrow id m
        (by rw [Table.view_eq_committed hn, hcm]) hk

theorem Inv.commit (hI : Inv sha256 timely s) {t : ℕ} {clock : ℤ}
    (hrun : (s.txs t).status = .running) (hfin : (s.txs t).work.finished = true)
    (hcl : s.clock ≤ clock) (htime : timely → InTime s t clock) :
    Inv sha256 timely (s.commit t clock) := by
  have hunlock : ∀ {K R : Type} {tab : Table ℕ K R} {k t' r}, (tab.commit t).held k = some (t', r) →
      tab.held k = some (t', r) ∧ t' ≠ t := fun h => Table.unlock_eq_some.mp h
  refine ⟨fun k t' r hr => ?_, fun id t' r hr => ?_, fun id hid => ?_, fun id m hm k hk => ?_,
    fun t' call stage queue hr hw => ?_, fun p w net n stage hr hw => ?_, fun t' hr => ?_⟩
  · obtain ⟨hr, ht⟩ := hunlock hr
    rw [commit_txs_of_ne s clock ht]
    exact hI.chunks k t' r hr
  · obtain ⟨hr, ht⟩ := hunlock hr
    rw [commit_txs_of_ne s clock ht]
    exact hI.manifests id t' r hr
  · rcases hv : s.manifests.view t id with _ | m
    · exact absurd hv hid
    · exact hI.view_id hv
  · exact hI.view_refs hrun hfin hm hk
  · have ht := commit_running hr
    have htx := commit_txs_of_ne s clock ht
    have hok := hI.saves t' call stage queue (htx ▸ hr) (htx ▸ hw)
    refine ⟨fun h hh => ?_, fun h r hh => ?_, fun id r hh => ?_, ?_, fun id seq rest he => ?_⟩
    · rw [htx] at hh
      obtain ⟨c, hc⟩ := hok.touched h hh
      exact ⟨c, (Table.sameFor_commit ht h _).mpr hc⟩
    · rw [htx]
      exact hok.chunks h r ((Table.sameFor_commit ht h r).mp hh)
    · rw [htx]
      have hh' := (Table.sameFor_commit ht id r).mp hh
      obtain ⟨m, hm, hnone, hrefs⟩ := hok.manifests id r hh'
      exact ⟨m, hm, (Table.view_of_other hh' ht).trans hnone, hrefs⟩
    · rw [htx]
      exact hok.progress
    · obtain ⟨m, hm⟩ := hok.joining id seq rest he
      exact ⟨m, (Table.sameFor_commit ht id _).mpr hm⟩
  · have ht := commit_running hr
    have htx := commit_txs_of_ne s clock ht
    exact (hI.prunes p w net n stage (htx ▸ hr) (htx ▸ hw)).commit hI hrun hfin hcl htime ht
      (htx ▸ hr) htx rfl rfl
  · have ht := commit_running hr
    rw [commit_txs_of_ne s clock ht] at hr ⊢
    exact (hI.clock t' hr).trans hcl

/-! ### Runs -/

/-- If the step is the commit of a save, it comes within the grace window of its start. -/
def Timely (s : CkptState V) (e : Ev V) : Prop := ∀ t clock, e = .commit t clock → InTime s t clock

instance (s : CkptState V) (e : Ev V) : Decidable (Timely s e) :=
  match e with
  | .commit t clock =>
    match hw : (s.txs t).work with
    | .save _ _ _ =>
      decidable_of_iff (clock ≤ (s.txs t).start + graceWindow)
        ⟨fun h _ _ he _ _ _ _ => by cases he; exact h, fun h => h t clock rfl _ _ _ hw⟩
    | .prune _ _ _ _ =>
      .isTrue fun _ _ he _ _ _ hw' => by cases he; rw [hw] at hw'; cases hw'
  | .beginSave .. | .beginPrune .. | .advance .. | .deleteManifest .. | .deleteChunk ..
  | .rollback .. => .isTrue fun _ _ he => by cases he

theorem inv_step {e : Ev V} (hI : Inv sha256 timely s) (hfk : timely ∨ fk = true)
    (htime : timely → Timely s e) (h : step sha256 fk s e = some s') : Inv sha256 timely s' := by
  cases stepped_of_step h with
  | beginSave hidle hclock => exact hI.beginStep (Or.inl ⟨_, _, rfl⟩) hidle hclock
  | beginPrune hidle hclock => exact hI.beginStep (Or.inr ⟨_, _, _, rfl⟩) hidle hclock
  | save hrun hw h => exact hI.saveStep hrun hw h
  | prune hrun hw h => exact hI.pruneStep hfk hrun hw h
  | deleteManifest hrun h => exact hI.deleteManifestStep hrun h
  | deleteChunk hrun h => exact hI.deleteChunkStep hrun h
  | commit hrun hfin hclock => exact hI.commit hrun hfin hclock fun ht => htime ht _ _ rfl
  | rollback => exact hI.rollback

theorem inv_run {es : List (Ev V)} (hfk : timely ∨ fk = true)
    (ha : Along (step sha256 fk) (fun s e => timely → Timely s e) es .init)
    (h : run (step sha256 fk) es .init = some s) : Inv sha256 timely s :=
  run_inv_along (fun _ _ _ hI hP hs => inv_step hI hfk hP hs) es _ s inv_init ha h

/-- A step of the chunk `DELETE` that deletes the row. -/
def Deletes (s s' : CkptState V) (p : ℕ) (hash : Bytes) : Prop :=
  s.chunks.view p hash ≠ none ∧ s'.chunks.view p hash = none

/-- With bounded saves, a row is only deleted when no manifest the prune sees refers to it. -/
theorem Inv.deletes (hI : Inv sha256 True s) {p row : ℕ} {hash : Bytes}
    (hrun : (s.txs p).status = .running)
    (h : System.deleteChunkStep s p hash row = some s') (hd : Deletes s s' p hash) :
    (∀ id m, s.manifests.committed id = some m → hash ∈ m.refs →
      s.manifests.held id = some (p, none)) ∧
    ∀ t r, t ≠ p → s.chunks.held hash ≠ some (t, r) := by
  obtain ⟨w, net, n, todo, hs, hw, hmem, hf, hcases⟩ := deleteChunkStep_cases h
  have hok := hI.prunes p w net n _ hrun hw
  refine ⟨fun id m hm hh => ?_, fun t r hne hr => ?_⟩
  · rcases hcases with rfl | ⟨c, hv, ⟨hrow, hold, rfl⟩ | rfl⟩
    · exact absurd hd.2 hd.1
    · rcases s.manifests.view_cases p id with hr | ⟨-, hv'⟩
      · rw [hok.manifests id _ hr] at hr
        exact hr
      · rw [hm] at hv'
        obtain ⟨c', hc', hrec⟩ := hok.recent trivial todo hs rfl hash row hmem id m hv' hh
        rw [hok.view_chunk hv] at hc'
        cases hc'
        rcases hrec with hne | hle
        · exact absurd hrow hne
        · omega
    · rw [Deletes, Table.view_write_self] at hd
      cases hd.2
  · rcases Table.free_iff.mp hf with hn | ⟨x, hx⟩
    · rw [hn] at hr; cases hr
    · rw [hx] at hr
      cases hr
      exact hne rfl

/-- **The grace window is enough**, with the foreign key or without it. In every run whose saves
commit within the window: no committed manifest refers to a missing chunk; a chunk upserted by a
running save stays locked by it and present; and the chunk `DELETE` of a prune deletes a row only if
every committed manifest that refers to it is one the same prune has deleted, and no other
transaction has touched the row and is still running. -/
theorem prune_spares_referenced {es : List (Ev V)}
    (ha : Along (step sha256 fk) Timely es .init) (h : run (step sha256 fk) es .init = some s) :
    (∀ id m, s.manifests.committed id = some m → ∀ hash ∈ m.refs,
      s.chunks.committed hash ≠ none) ∧
    (∀ t call stage queue, (s.txs t).status = .running → (s.txs t).work = .save call stage queue →
      ∀ hash ∈ (s.txs t).touched, ∃ c, s.chunks.held hash = some (t, some c)) ∧
    ∀ p hash row s', step sha256 fk s (.deleteChunk p hash row) = some s' → Deletes s s' p hash →
      (∀ id m, s.manifests.committed id = some m → hash ∈ m.refs →
        s.manifests.held id = some (p, none)) ∧
      ∀ t r, t ≠ p → s.chunks.held hash ≠ some (t, r) := by
  have hI : Inv sha256 True s := inv_run (Or.inl trivial)
    (ha.mono fun _ _ hP _ => hP) h
  refine ⟨hI.refs, fun t call stage queue hr hw => (hI.saves t call stage queue hr hw).touched,
    fun p hash row s' hs hd => ?_⟩
  cases stepped_of_step hs with
  | deleteChunk hrun h => exact hI.deletes hrun h hd

/-- A wallet saves a byte and then nothing, and prunes half an hour later; after the snapshot of the
chunk `DELETE` another wallet saves the byte again, and the `DELETE` has to wait for it. -/
def lateSave : List (Ev ℕ) :=
  [.beginSave 1 0 ⟨[97], [109], [1], 1, none, none⟩ []] ++ List.replicate 8 (.advance 1) ++
  [.commit 1 5, .beginSave 2 6 ⟨[97], [109], [], 1, none, none⟩ []] ++
  List.replicate 6 (.advance 2) ++
  [.commit 2 9, .beginPrune 3 2000000000 [97] [109] 1, .advance 3, .deleteManifest 3 1, .advance 3,
    .beginSave 4 2000000001 ⟨[98], [109], [1], 1, none, none⟩ []] ++
  List.replicate 8 (.advance 4) ++
  [.commit 4 2000000002, .deleteChunk 3 (RoundTrip.sha256OfByte [1]) 1, .advance 3,
    .commit 3 2000000003]

theorem prune_spares_referenced_lateSave :
    ∃ s, run (step RoundTrip.sha256OfByte false) lateSave .init = some s ∧
      s.manifests.committed 1 = none ∧ s.manifests.committed 3 ≠ none ∧
      s.chunks.committed (RoundTrip.sha256OfByte [1]) ≠ none := by
  obtain ⟨hrefs, -, -⟩ := @prune_spares_referenced _ RoundTrip.sha256OfByte false _ lateSave
    (by decide) rfl
  exact ⟨_, rfl, rfl, by decide, hrefs 3 _ rfl _ (by decide)⟩

end UmbraDB.Ckpt.Grace
