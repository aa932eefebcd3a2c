import UmbraDB.Archive.Blocks
import UmbraDB.Ckpt.RoundTrip
import UmbraDB.Lib.UniqueIndex

/-! # Chain archive: canonical and finalized blocks

The invariant that the partial unique index, the `CHECK`s, the trigger and the order of the two
`UPDATE`s of `setCanonical` keep together, over every interleaving of the writers of `blocks`.

* `Inv` : what holds of the committed rows and of those that running transactions would commit.
* `Later` : what a step leaves of the committed rows.
* `canonical_finality` : in every reachable state, and from each such state to every later one. -/

namespace UmbraDB.Archive.Canonical

open UmbraDB.Js.Text UmbraDB.Lib.Runs UmbraDB.Lib.RowStore UmbraDB.Lib.UniqueIndex
open UmbraDB.Ckpt.Rows UmbraDB.Archive.Blocks
open UmbraDB.Ckpt.RoundTrip (sha256OfByte)

/-- The columns of the unique index. -/
def heightOf (k : BlockKey) : JsString × ℕ := (k.net, k.height)

theorem sameHeight_iff {k k' : BlockKey} : k.sameHeight k' ↔ heightOf k = heightOf k' := by
  unfold BlockKey.sameHeight heightOf
  rw [Prod.mk.injEq]

/-- The call of the transaction is `setCanonical` for this height. -/
def Demotes (work : Work) (k : BlockKey) : Prop :=
  ∃ key finalized stage, work = .set key finalized stage ∧ k.sameHeight key

/-- The rows the first `UPDATE` of `setCanonical` has left are of its height. -/
def TodoOk (work : Work) : Prop :=
  ∀ k fin todo, work = .set k fin (.demoting todo) → ∀ k' ∈ todo, k'.sameHeight k

structure Inv (s : ArchiveState) : Prop where
  index : Unique heightOf isCanonical s.blocks
  keyed : ∀ k, (s.blocks.committed k).isSome = true → k ∈ s.keys
  held_keyed : ∀ k h, s.blocks.held k = some h → k ∈ s.keys
  running : ∀ k t r, s.blocks.held k = some (t, r) → (s.txs t).status = .running
  /-- Rows are not deleted. -/
  some_row : ∀ k t r, s.blocks.held k = some (t, r) → r.isSome = true
  checks : ∀ k r, s.blocks.committed k = some r → r.checksOk = true
  held_checks : ∀ k t r, s.blocks.held k = some (t, some r) → r.checksOk = true
  finalized : ∀ k t r r₀, s.blocks.held k = some (t, some r) → s.blocks.committed k = some r₀ →
    r₀.finalized = true → r.finalized = true
  demoted : ∀ k t r, s.blocks.held k = some (t, r) → isCanonical (s.blocks.committed k) = true →
    isCanonical r = false → Demotes (s.txs t).work k
  promoted : ∀ t k fin, (s.txs t).status = .running → (s.txs t).work = .set k fin .done →
    ∃ r, s.blocks.held k = some (t, r) ∧ isCanonical r = true
  todo : ∀ t, TodoOk (s.txs t).work

/-! ### The index -/

theorem mem_rivals {s : ArchiveState} {k k' : BlockKey} :
    k' ∈ s.rivals k ↔ k' ∈ s.keys ∧ heightOf k' = heightOf k ∧ k' ≠ k := by
  simp [ArchiveState.rivals, sameHeight_iff]

theorem Inv.not_waits {s : ArchiveState} (hs : Inv s) {t : ℕ} {k : BlockKey}
    (h : s.indexWaits t k = false) : ¬ Waits heightOf isCanonical s.blocks t k := by
  rintro ⟨k', hne, hg, hf, hc⟩
  -- a row that is canonical, committed or not, has its key in `keys`
  have hk : k' ∈ s.keys := by
    rcases hc with hc | ⟨t', r, hh, -⟩
    · exact hs.keyed k' (by rcases hr : s.blocks.committed k' <;> simp_all [isCanonical])
    · exact hs.held_keyed k' _ hh
  have hw : s.indexWaits t k = true := by
    refine List.any_eq_true.mpr ⟨k', mem_rivals.mpr ⟨hk, hg, hne⟩, ?_⟩
    rcases hc with hc | ⟨t', r, hh, hm⟩
    · simp [hf, hc]
    · simp [hf, hh, hm]
  rw [h] at hw
  cases hw

theorem Inv.not_taken {s : ArchiveState} (hs : Inv s) {t : ℕ} {k : BlockKey}
    (h : s.indexTaken t k = false) : ¬ Taken heightOf isCanonical s.blocks t k := by
  rintro ⟨k', hne, hg, hc⟩
  have hk : k' ∈ s.keys := by
    rcases s.blocks.view_cases t k' with hh | ⟨-, hv⟩
    · exact hs.held_keyed k' _ hh
    · rw [hv] at hc
      exact hs.keyed k' (by rcases hr : s.blocks.committed k' <;> simp_all [isCanonical])
  have ht : s.indexTaken t k = true :=
    List.any_eq_true.mpr ⟨k', mem_rivals.mpr ⟨hk, hg, hne⟩, hc⟩
  rw [h] at ht
  cases ht

/-! ### Statements -/

/-- The work of a transaction goes on, for the same call. -/
def SameCall (work work' : Work) : Prop :=
  ∀ k fin stage, work = .set k fin stage → ∃ stage', work' = .set k fin stage'

theorem SameCall.demotes {work work' : Work} (h : SameCall work work') {k : BlockKey}
    (hd : Demotes work k) : Demotes work' k := by
  obtain ⟨key, fin, stage, hw, hk⟩ := hd
  obtain ⟨stage', hw'⟩ := h key fin stage hw
  exact ⟨key, fin, stage', hw', hk⟩

theorem sameCall_set {k : BlockKey} {fin : Option Bool} {stage stage' : SetStage} :
    SameCall (.set k fin stage) (.set k fin stage') := by
  rintro k' fin' stage'' ⟨rfl, rfl, rfl⟩
  exact ⟨stage', rfl⟩

theorem sameCall_put {b : BlockRecord} {stage : PutStage} {work : Work} :
    SameCall (.put b stage) work := by
  rintro k' fin' stage'' h
  cases h

/-- A statement of `t` writes no row. -/
structure Quiet (s s' : ArchiveState) (t : ℕ) (work : Work) : Prop where
  eq : s' = s.setWork t work
  same : SameCall (s.txs t).work work
  done : ∀ k fin, work ≠ .set k fin .done
  todo : TodoOk work

/-- A statement of `t` leaves the row `k` in the version `row`. -/
structure Wrote (s s' : ArchiveState) (t : ℕ) (k : BlockKey) (row : BlockRow) (work : Work) :
    Prop where
  running : (s.txs t).status = .running
  free : s.blocks.free t k = true
  blocks : s'.blocks = s.blocks.write t k (some row)
  keys : ∀ k' ∈ s.keys, k' ∈ s'.keys
  key : k ∈ s'.keys
  txs : s'.txs = (s.setWork t work).txs
  checks : row.checksOk = true
  finalized : ∀ r₀, s.blocks.view t k = some r₀ → r₀.finalized = true → row.finalized = true
  demotes : isCanonical (s.blocks.view t k) = true → row.isCanonical = false → Demotes work k
  index : row.isCanonical = true →
    ¬ Waits heightOf isCanonical s.blocks t k ∧ ¬ Taken heightOf isCanonical s.blocks t k
  same : SameCall (s.txs t).work work
  done : ∀ k' fin, work = .set k' fin .done → k' = k ∧ row.isCanonical = true
  todo : TodoOk work

theorem mem_noteKey {keys : List BlockKey} {k k' : BlockKey} :
    k' ∈ noteKey keys k ↔ k' ∈ keys ∨ k' = k := by
  unfold noteKey
  split
  · rename_i h
    rw [List.contains_iff_mem] at h
    refine ⟨Or.inl, ?_⟩
    rintro (h' | rfl)
    · exact h'
    · exact h
  · simp

theorem insertStep_cases {sha256 : Bytes → Bytes} {s s' : ArchiveState} {t : ℕ} {b : BlockRecord}
    (hs : Inv s) (hrun : (s.txs t).status = .running) (hw : (s.txs t).work = .put b .begun)
    (h : insertStep sha256 s t b = some s') :
    (∃ work, Quiet s s' t work) ∨ ∃ k row work, Wrote s s' t k row work := by
  have hsame : ∀ work, SameCall (s.txs t).work work := fun work => by
    rw [hw]
    exact sameCall_put
  have hquiet : ∀ stage, Quiet s (s.setWork t (.put b stage)) t (.put b stage) := fun stage =>
    ⟨rfl, hsame _, fun _ _ h => (by cases h), fun _ _ _ h => (by cases h)⟩
  unfold insertStep at h
  simp only at h
  split_ifs at h with hc hv hf hwt htk
  · cases h
    exact Or.inl ⟨_, hquiet _⟩
  · cases h
    exact Or.inl ⟨_, hquiet _⟩
  · cases h
    exact Or.inl ⟨_, hquiet _⟩
  · cases h
    have hnone : s.blocks.view t b.key = none := by simpa using hv
    refine Or.inr ⟨b.key, b.row sha256, .put b .done, hrun, by simpa using hf, rfl,
      fun k' hk' => mem_noteKey.mpr (Or.inl hk'), mem_noteKey.mpr (Or.inr rfl), rfl,
      by simpa using hc, fun r₀ hr₀ => ?_, fun hr₀ => ?_, fun hcan => ?_, hsame _,
      fun _ _ h => (by cases h), fun _ _ _ h => (by cases h)⟩
    · rw [hnone] at hr₀
      cases hr₀
    · rw [hnone] at hr₀
      cases hr₀
    · simp only [hcan, Bool.true_and, Bool.not_eq_true] at hwt htk
      exact ⟨hs.not_waits hwt, hs.not_taken htk⟩

theorem view_isSome_keyed {s : ArchiveState} (hs : Inv s) {t : ℕ} {k : BlockKey} {r : BlockRow}
    (h : s.blocks.view t k = some r) : k ∈ s.keys := by
  rcases s.blocks.view_cases t k with hh | ⟨-, hv⟩
  · exact hs.held_keyed k _ hh
  · exact hs.keyed k (by rw [← hv, h]; rfl)

/-- A row that a transaction sees fulfils the `CHECK`s. -/
theorem view_checks {s : ArchiveState} (hs : Inv s) {t : ℕ} {k : BlockKey} {r : BlockRow}
    (h : s.blocks.view t k = some r) : r.checksOk = true := by
  rcases s.blocks.view_cases t k with hh | ⟨-, hv⟩
  · exact hs.held_checks k t r (by rw [hh, h])
  · exact hs.checks k r (by rw [← hv, h])

theorem demoteRowStep_cases {s s' : ArchiveState} {t : ℕ} {k k' : BlockKey} {fin : Option Bool}
    {todo : List BlockKey} (hs : Inv s) (hrun : (s.txs t).status = .running)
    (hw : (s.txs t).work = .set k fin (.demoting todo))
    (h : demoteRowStep s t k fin todo k' = some s') :
    (∃ work, Quiet s s' t work) ∨ ∃ k row work, Wrote s s' t k row work := by
  have hsame : ∀ stage, SameCall (s.txs t).work (.set k fin stage) := fun stage => by
    rw [hw]
    exact sameCall_set
  have htodo : TodoOk (.set k fin (.demoting (todo.erase k'))) := by
    rintro _ _ _ ⟨rfl, rfl, rfl⟩ k₁ hk₁
    exact hs.todo t k fin todo hw k₁ (List.mem_of_mem_erase hk₁)
  unfold demoteRowStep at h
  simp only at h
  split_ifs at h with hc
  obtain ⟨hmem, hf⟩ := hc
  have hk' : k'.sameHeight k := hs.todo t k fin todo hw k' (List.contains_iff_mem.mp hmem)
  split at h
  · cases h
    exact Or.inl ⟨_, rfl, hsame _, fun _ _ h => (by cases h), htodo⟩
  · rename_i r hr
    have hkey := view_isSome_keyed hs hr
    split_ifs at h with hcan hchk
    · -- the canonical row of the height becomes `orphaned`
      cases h
      refine Or.inr ⟨k', r.demoted, .set k fin (.demoting (todo.erase k')), hrun, hf, rfl,
        fun _ h => h, hkey, rfl, hchk, fun r₀ hr₀ hfin => ?_, fun _ _ => ⟨k, fin, _, rfl, hk'⟩,
        fun hcan' => (by cases hcan'), hsame _, fun _ _ h => (by cases h), htodo⟩
      cases hr.symm.trans hr₀
      exact hfin
    · cases h
      exact Or.inl ⟨_, rfl, hsame _, fun _ _ h => (by cases h), fun _ _ _ h => (by cases h)⟩
    · cases h
      refine Or.inr ⟨k', r, .set k fin (.demoting (todo.erase k')), hrun, hf, rfl, fun _ h => h,
        hkey, rfl, view_checks hs hr, fun r₀ hr₀ hfin => ?_, fun _ _ => ⟨k, fin, _, rfl, hk'⟩,
        fun hcan' => absurd hcan' hcan, hsame _, fun _ _ h => (by cases h), htodo⟩
      cases hr.symm.trans hr₀
      exact hfin

theorem promoteStep_cases {s s' : ArchiveState} {t : ℕ} {k : BlockKey} {fin : Option Bool}
    {stage : SetStage} (hs : Inv s) (hrun : (s.txs t).status = .running)
    (hw : (s.txs t).work = .set k fin stage) (h : promoteStep s t k fin = some s') :
    (∃ work, Quiet s s' t work) ∨ ∃ k row work, Wrote s s' t k row work := by
  have hsame : ∀ stage, SameCall (s.txs t).work (.set k fin stage) := fun stage => by
    rw [hw]
    exact sameCall_set
  have hquiet : ∀ e, Quiet s (s.setWork t (.set k fin (.failed e))) t (.set k fin (.failed e)) :=
    fun e => ⟨rfl, hsame _, fun _ _ h => (by cases h), fun _ _ _ h => (by cases h)⟩
  unfold promoteStep at h
  simp only at h
  split at h
  · cases h
    exact Or.inl ⟨_, hquiet _⟩
  · rename_i r hr
    split_ifs at h with hf hmono hchk hwt htk
    · cases h
      exact Or.inl ⟨_, hquiet _⟩
    · cases h
      exact Or.inl ⟨_, hquiet _⟩
    · cases h
      exact Or.inl ⟨_, hquiet _⟩
    · cases h
      refine Or.inr ⟨k, r.promoted fin, .set k fin .done, hrun, by simpa using hf, rfl,
        fun _ h => h, view_isSome_keyed hs hr, rfl, by simpa using hchk, fun r₀ hr₀ hfin => ?_,
        fun _ hcan => (by cases hcan),
        fun _ => ⟨hs.not_waits (by simpa using hwt), hs.not_taken (by simpa using htk)⟩, hsame _,
        fun k' fin' h => ?_, fun _ _ _ h => (by cases h)⟩
      · cases hr.symm.trans hr₀
        simpa [hfin] using hmono
      · cases h
        exact ⟨rfl, rfl⟩

/-- **What a statement does**: no row changes, or one row does, under these conditions. -/
theorem statement_cases {sha256 : Bytes → Bytes} {s s' : ArchiveState} {t : ℕ} {e : Ev}
    (hs : Inv s) (h : step sha256 s e = some s') (he : e = .exec t ∨ ∃ k, e = .demoteRow t k) :
    (s.txs t).status = .running ∧ (s.txs t).work.failed = false ∧
      ((∃ work, Quiet s s' t work) ∨ ∃ k row work, Wrote s s' t k row work) := by
  rcases he with rfl | ⟨k, rfl⟩
  · simp only [step] at h
    split_ifs at h with hrun
    refine ⟨hrun, ?_⟩
    unfold execStep at h
    split at h
    · rename_i b hw
      exact ⟨by rw [hw]; rfl, insertStep_cases hs hrun hw h⟩
    · rename_i k fin hw
      cases h
      refine ⟨by rw [hw]; rfl, Or.inl ⟨_, rfl, by rw [hw]; exact sameCall_set,
        fun _ _ h => (by cases h), ?_⟩⟩
      rintro _ _ _ ⟨rfl, rfl, rfl⟩ k' hk'
      exact sameHeight_iff.mpr (mem_rivals.mp (List.mem_filter.mp hk').1).2.1
    · rename_i k fin hw
      exact ⟨by rw [hw]; rfl, promoteStep_cases hs hrun hw h⟩
    · cases h
  · simp only [step] at h
    split_ifs at h with hrun
    refine ⟨hrun, ?_⟩
    split at h
    · rename_i k' fin todo hw
      exact ⟨by rw [hw]; rfl, demoteRowStep_cases hs hrun hw h⟩
    · cases h

/-- **What a step does**, to the transaction of its event and to no other. -/
inductive Stepped (s : ArchiveState) (e : Ev) : ArchiveState → Prop
  | begin {work : Work} (hidle : (s.txs e.tx).status = .idle)
      (hdone : ∀ k fin, work ≠ .set k fin .done) (htodo : TodoOk work) :
      Stepped s e { s with txs := Function.update s.txs e.tx ⟨.running, work⟩ }
  | quiet {s' : ArchiveState} {work : Work} (hrun : (s.txs e.tx).status = .running)
      (hok : (s.txs e.tx).work.failed = false) (hq : Quiet s s' e.tx work) : Stepped s e s'
  | wrote {s' : ArchiveState} {k : BlockKey} {row : BlockRow} {work : Work}
      (hok : (s.txs e.tx).work.failed = false) (hw : Wrote s s' e.tx k row work) : Stepped s e s'
  | commit (he : e = .commit e.tx) (hrun : (s.txs e.tx).status = .running)
      (hfin : (s.txs e.tx).work.finished = true) :
      Stepped s e { s.setStatus e.tx .committed with blocks := s.blocks.commit e.tx }
  | rollback (he : e = .rollback e.tx) (hrun : (s.txs e.tx).status = .running) :
      Stepped s e { s.setStatus e.tx .rolledBack with blocks := s.blocks.rollback e.tx }

theorem stepped_of_step {sha256 : Bytes → Bytes} {s s' : ArchiveState} {e : Ev} (hs : Inv s)
    (h : step sha256 s e = some s') : Stepped s e s' := by
  have hst : e = .exec e.tx ∨ (∃ k, e = .demoteRow e.tx k) → Stepped s e s' := by
    intro he
    obtain ⟨hrun, hok, ⟨work, hq⟩ | ⟨k, row, work, hw⟩⟩ := statement_cases hs h he
    · exact .quiet hrun hok hq
    · exact .wrote hok hw
  rcases e with ⟨t, b⟩ | ⟨t, k, fin⟩ | t | ⟨t, k⟩ | t | t
  · simp only [step] at h
    split_ifs at h with hc
    obtain rfl := Option.some.inj h
    exact .begin hc.1 (fun _ _ h => by cases h) (fun _ _ _ h => by cases h)
  · simp only [step] at h
    split_ifs at h with hc
    obtain rfl := Option.some.inj h
    exact .begin hc.1 (fun _ _ h => by cases h) (fun _ _ _ h => by cases h)
  · exact hst (Or.inl rfl)
  · exact hst (Or.inr ⟨k, rfl⟩)
  · simp only [step] at h
    split_ifs at h with hc
    obtain rfl := Option.some.inj h
    exact .commit rfl hc.1 hc.2
  · simp only [step] at h
    split_ifs at h with hrun
    obtain rfl := Option.some.inj h
    exact .rollback rfl hrun

/-! ### The invariant in every run -/

namespace Inv

variable {s s' : ArchiveState}

theorem init : Inv .init where
  index := .fresh fun _ => rfl
  keyed _ h := by cases h
  held_keyed _ _ h := by cases h
  running _ _ _ h := by cases h
  some_row _ _ _ h := by cases h
  checks _ _ h := by cases h
  held_checks _ _ _ h := by cases h
  finalized _ _ _ _ h := by cases h
  demoted _ _ _ h := by cases h
  promoted _ _ _ h := by cases h
  todo _ _ _ _ h := by cases h

theorem quiet (hs : Inv s) {t : ℕ} {work : Work} (h : Quiet s s' t work) : Inv s' := by
  obtain ⟨rfl, hsame, hdone, htodo⟩ := h
  refine ⟨hs.index, hs.keyed, hs.held_keyed, fun k t' r h => ?_, hs.some_row, hs.checks,
    hs.held_checks, hs.finalized, fun k t' r h hc hr => ?_, fun t' k fin hr hw => ?_, fun t' => ?_⟩
  · rw [ArchiveState.setWork_status]
    exact hs.running k t' r h
  · have hd := hs.demoted k t' r h hc hr
    by_cases ht : t' = t
    · subst ht
      rw [ArchiveState.setWork_work_self]
      exact hsame.demotes hd
    · rw [ArchiveState.setWork_ne s work ht]
      exact hd
  · by_cases ht : t' = t
    · subst ht
      rw [ArchiveState.setWork_work_self] at hw
      exact absurd hw (hdone k fin)
    · rw [ArchiveState.setWork_ne s work ht] at hr hw
      exact hs.promoted t' k fin hr hw
  · by_cases ht : t' = t
    · subst ht
      rw [ArchiveState.setWork_work_self]
      exact htodo
    · rw [ArchiveState.setWork_ne s work ht]
      exact hs.todo t'

theorem wrote (hs : Inv s) {t : ℕ} {k : BlockKey} {row : BlockRow} {work : Work}
    (h : Wrote s s' t k row work) : Inv s' := by
  have hself : s'.blocks.held k = some (t, some row) := by
    rw [h.blocks, Table.write_held_self]
  have hne : ∀ {k'}, k' ≠ k → s'.blocks.held k' = s.blocks.held k' := fun hk => by
    rw [h.blocks, Table.write_held_ne _ _ _ hk]
  have hcom : ∀ k', s'.blocks.committed k' = s.blocks.committed k' := fun k' => by
    rw [h.blocks, Table.write_committed]
  have htx : ∀ {t'}, t' ≠ t → s'.txs t' = s.txs t' := fun ht => by
    rw [h.txs, ArchiveState.setWork_ne s work ht]
  have hst : ∀ t', (s'.txs t').status = (s.txs t').status := fun t' => by
    rw [h.txs, ArchiveState.setWork_status]
  have hwk : (s'.txs t).work = work := by rw [h.txs, ArchiveState.setWork_work_self]
  refine ⟨?_, fun k' hk' => ?_, fun k' x hx => ?_, fun k' t' r hr => ?_, fun k' t' r hr => ?_,
    fun k' r hr => ?_, fun k' t' r hr => ?_, fun k' t' r r₀ hr hc hf => ?_,
    fun k' t' r hr hc hn => ?_, fun t' k' fin hr hw => ?_, fun t' => ?_⟩
  · rw [h.blocks]
    rcases hcan : row.isCanonical with _ | _
    · exact hs.index.write_unmarked h.free hcan
    · exact hs.index.write_marked (h.index hcan).1 (h.index hcan).2
  · exact h.keys k' (hs.keyed k' (by rwa [hcom] at hk'))
  · by_cases hk : k' = k
    · exact hk ▸ h.key
    · exact h.keys k' (hs.held_keyed k' x (by rwa [hne hk] at hx))
  · rw [hst]
    by_cases hk : k' = k
    · subst hk
      cases hself.symm.trans hr
      exact h.running
    · exact hs.running k' t' r (by rwa [hne hk] at hr)
  · by_cases hk : k' = k
    · subst hk
      cases hself.symm.trans hr
      rfl
    · exact hs.some_row k' t' r (by rwa [hne hk] at hr)
  · exact hs.checks k' r (by rwa [hcom] at hr)
  · by_cases hk : k' = k
    · subst hk
      cases hself.symm.trans hr
      exact h.checks
    · exact hs.held_checks k' t' r (by rwa [hne hk] at hr)
  · rw [hcom] at hc
    by_cases hk : k' = k
    · subst hk
      cases hself.symm.trans hr
      -- what `t` saw was finalized already
      rcases s.blocks.view_cases t k' with hh | ⟨-, hv⟩
      · obtain ⟨r₁, hr₁⟩ := Option.isSome_iff_exists.mp (hs.some_row k' t _ hh)
        rw [hr₁] at hh
        exact h.finalized r₁ hr₁ (hs.finalized k' t r₁ r₀ hh hc hf)
      · exact h.finalized r₀ (by rw [hv, hc]) hf
    · exact hs.finalized k' t' r r₀ (by rwa [hne hk] at hr) hc hf
  · rw [hcom] at hc
    by_cases hk : k' = k
    · subst hk
      cases hself.symm.trans hr
      rw [hwk]
      rcases s.blocks.view_cases t k' with hh | ⟨-, hv⟩
      · rcases hcan : isCanonical (s.blocks.view t k') with _ | _
        · exact h.same.demotes (hs.demoted k' t _ hh hc hcan)
        · exact h.demotes hcan hn
      · exact h.demotes (by rw [hv, hc]) hn
    · rw [hne hk] at hr
      have hd := hs.demoted k' t' r hr hc hn
      by_cases ht : t' = t
      · subst ht
        rw [hwk]
        exact h.same.demotes hd
      · rw [htx ht]
        exact hd
  · by_cases ht : t' = t
    · subst ht
      rw [hwk] at hw
      obtain ⟨rfl, hcan⟩ := h.done k' fin hw
      exact ⟨some row, hself, hcan⟩
    · rw [hst] at hr
      rw [htx ht] at hw
      obtain ⟨r, hr', hcan⟩ := hs.promoted t' k' fin hr hw
      -- `t` could not have written a row that `t'` holds
      have hk : k' ≠ k := by
        rintro rfl
        rcases Table.free_iff.mp h.free with hn | ⟨x, hx⟩
        · rw [hn] at hr'
          cases hr'
        · rw [hx] at hr'
          cases hr'
          exact ht rfl
      exact ⟨r, by rw [hne hk, hr'], hcan⟩
  · by_cases ht : t' = t
    · subst ht
      rw [hwk]
      exact h.todo
    · rw [htx ht]
      exact hs.todo t'

/-- A transaction begins a call. -/
theorem begin (hs : Inv s) {t : ℕ} {work : Work} (hidle : (s.txs t).status = .idle)
    (hdone : ∀ k fin, work ≠ .set k fin .done) (htodo : TodoOk work) :
    Inv { s with txs := Function.update s.txs t ⟨.running, work⟩ } := by
  have hne : ∀ {k t' r}, s.blocks.held k = some (t', r) → t' ≠ t := by
    rintro k t' r h rfl
    rw [hs.running k t' r h] at hidle
    cases hidle
  refine ⟨hs.index, hs.keyed, hs.held_keyed, fun k t' r h => ?_, hs.some_row, hs.checks,
    hs.held_checks, hs.finalized, fun k t' r h hc hr => ?_, fun t' k fin hr hw => ?_, fun t' => ?_⟩
  · simp only [Function.update_of_ne (hne h)]
    exact hs.running k t' r h
  · simp only [Function.update_of_ne (hne h)]
    exact hs.demoted k t' r h hc hr
  · by_cases ht : t' = t
    · subst ht
      simp only [Function.update_self] at hw
      exact absurd hw (hdone k fin)
    · simp only [Function.update_of_ne ht] at hr hw
      exact hs.promoted t' k fin hr hw
  · by_cases ht : t' = t
    · subst ht
      simp only [Function.update_self]
      exact htodo
    · simp only [Function.update_of_ne ht]
      exact hs.todo t'

/-! The end of `t`: the others have what they had. -/

theorem ended_running (hs : Inv s) {t t' : ℕ} {k : BlockKey} {r : Option BlockRow} {status : Status}
    (h : s.blocks.unlock t k = some (t', r)) :
    ((s.setStatus t status).txs t').status = .running := by
  obtain ⟨h, ht⟩ := Table.unlock_eq_some.mp h
  rw [ArchiveState.setStatus_ne s _ ht]
  exact hs.running k t' r h

theorem ended_demoted (hs : Inv s) {t t' : ℕ} {k : BlockKey} {r : Option BlockRow} {status : Status}
    (h : s.blocks.unlock t k = some (t', r)) (hc : isCanonical (s.blocks.committed k) = true)
    (hr : isCanonical r = false) : Demotes ((s.setStatus t status).txs t').work k := by
  obtain ⟨h, ht⟩ := Table.unlock_eq_some.mp h
  rw [ArchiveState.setStatus_ne s _ ht]
  exact hs.demoted k t' r h hc hr

theorem ended_promoted (hs : Inv s) {t t' : ℕ} {k : BlockKey} {fin : Option Bool} {status : Status}
    (hne : status ≠ .running) (hr : ((s.setStatus t status).txs t').status = .running)
    (hw : ((s.setStatus t status).txs t').work = .set k fin .done) :
    ∃ r, s.blocks.unlock t k = some (t', r) ∧ isCanonical r = true := by
  have ht : t' ≠ t := by
    rintro rfl
    rw [ArchiveState.setStatus_self] at hr
    exact hne hr
  rw [ArchiveState.setStatus_ne s _ ht] at hr hw
  obtain ⟨r, h, hcan⟩ := hs.promoted t' k fin hr hw
  exact ⟨r, Table.unlock_eq_some.mpr ⟨h, ht⟩, hcan⟩

theorem ended_todo (hs : Inv s) (t t' : ℕ) (status : Status) :
    TodoOk ((s.setStatus t status).txs t').work := by
  by_cases ht : t' = t
  · subst ht
    rw [ArchiveState.setStatus_self]
    exact hs.todo t'
  · rw [ArchiveState.setStatus_ne s _ ht]
    exact hs.todo t'

theorem commit (hs : Inv s) (t : ℕ) :
    Inv { s.setStatus t .committed with blocks := s.blocks.commit t } := by
  refine ⟨hs.index.commit t, fun k hk => ?_,
    fun k x hx => hs.held_keyed k (x.1, x.2) (Table.unlock_eq_some.mp hx).1,
    fun k t' r h => hs.ended_running h,
    fun k t' r h => hs.some_row k t' r (Table.unlock_eq_some.mp h).1, fun k r h => view_checks hs h,
    fun k t' r h => hs.held_checks k t' r (Table.unlock_eq_some.mp h).1,
    fun k t' r r₀ h hc hf => ?_, fun k t' r h hc hr => ?_,
    fun t' k fin hr hw => hs.ended_promoted (by simp) hr hw, fun t' => hs.ended_todo t t' _⟩
  · obtain ⟨r, hr⟩ := Option.isSome_iff_exists.mp hk
    exact view_isSome_keyed hs hr
  · obtain ⟨h, ht⟩ := Table.unlock_eq_some.mp h
    rw [Table.commit_committed, Table.view_of_other h ht] at hc
    exact hs.finalized k t' r r₀ h hc hf
  · have h' := Table.unlock_eq_some.mp h
    rw [Table.commit_committed, Table.view_of_other h'.1 h'.2] at hc
    exact hs.ended_demoted h hc hr

theorem rollback (hs : Inv s) (t : ℕ) :
    Inv { s.setStatus t .rolledBack with blocks := s.blocks.rollback t } :=
  ⟨hs.index.rollback t, hs.keyed,
    fun k x hx => hs.held_keyed k (x.1, x.2) (Table.unlock_eq_some.mp hx).1,
    fun _ _ _ h => hs.ended_running h,
    fun k t' r h => hs.some_row k t' r (Table.unlock_eq_some.mp h).1, hs.checks,
    fun k t' r h => hs.held_checks k t' r (Table.unlock_eq_some.mp h).1,
    fun k t' r r₀ h => hs.finalized k t' r r₀ (Table.unlock_eq_some.mp h).1,
    fun _ _ _ h hc hr => hs.ended_demoted h hc hr,
    fun _ _ _ hr hw => hs.ended_promoted (by simp) hr hw, fun t' => hs.ended_todo t t' _⟩

theorem step (hs : Inv s) {sha256 : Bytes → Bytes} {e : Ev} (h : step sha256 s e = some s') :
    Inv s' := by
  cases stepped_of_step hs h with
  | begin hidle hdone htodo => exact hs.begin hidle hdone htodo
  | quiet _ _ hq => exact hs.quiet hq
  | wrote _ hw => exact hs.wrote hw
  | commit => exact hs.commit e.tx
  | rollback => exact hs.rollback e.tx

end Inv

/-! ### From one state to the next -/

/-- The call of `t` rejects: a statement of it has failed, or its transaction was rolled back. -/
def Rejected (s : ArchiveState) (t : ℕ) : Prop :=
  (s.txs t).status = .rolledBack ∨ (s.txs t).status = .running ∧ (s.txs t).work.failed = true

/-- Only a commit changes the committed rows. -/
theorem committed_step {sha256 : Bytes → Bytes} {s s' : ArchiveState} {e : Ev} (hs : Inv s)
    (h : step sha256 s e = some s') (he : ∀ t, e ≠ .commit t) :
    s'.blocks.committed = s.blocks.committed := by
  cases stepped_of_step hs h with
  | begin => rfl
  | quiet _ _ hq =>
    rw [hq.eq]
    rfl
  | wrote _ hw =>
    rw [hw.blocks]
    rfl
  | commit hc => exact absurd hc (he e.tx)
  | rollback => rfl

/-- A finalized block stays finalized, and a height that has a canonical block keeps one. -/
structure Later (s s' : ArchiveState) : Prop where
  finalized : ∀ k r, s.blocks.committed k = some r → r.finalized = true →
    ∃ r', s'.blocks.committed k = some r' ∧ r'.finalized = true
  canonical : ∀ k, isCanonical (s.blocks.committed k) = true →
    ∃ k', heightOf k' = heightOf k ∧ isCanonical (s'.blocks.committed k') = true

theorem Later.of_eq {s s' : ArchiveState} (h : s'.blocks.committed = s.blocks.committed) :
    Later s s' :=
  ⟨fun k r hr hf => ⟨r, by rw [h, hr], hf⟩, fun k hk => ⟨k, rfl, by rw [h, hk]⟩⟩

theorem Later.trans {s₁ s₂ s₃ : ArchiveState} (h : Later s₁ s₂) (h' : Later s₂ s₃) :
    Later s₁ s₃ := by
  refine ⟨fun k r hr hf => ?_, fun k hk => ?_⟩
  · obtain ⟨r', hr', hf'⟩ := h.finalized k r hr hf
    exact h'.finalized k r' hr' hf'
  · obtain ⟨k₂, hg₂, hk₂⟩ := h.canonical k hk
    obtain ⟨k₃, hg₃, hk₃⟩ := h'.canonical k₂ hk₂
    exact ⟨k₃, hg₃.trans hg₂, hk₃⟩

theorem finished_of_demotes {work : Work} {k : BlockKey} (hd : Demotes work k)
    (hf : work.finished = true) : ∃ key fin, work = .set key fin .done ∧ k.sameHeight key := by
  obtain ⟨key, fin, stage, rfl, hk⟩ := hd
  rcases stage with _ | _ | _ | _
  · cases hf
  · cases hf
  · exact ⟨key, fin, rfl, hk⟩
  · cases hf

theorem Later.commit {s : ArchiveState} (hs : Inv s) {t : ℕ} (hrun : (s.txs t).status = .running)
    (hfin : (s.txs t).work.finished = true) :
    Later s { s.setStatus t .committed with blocks := s.blocks.commit t } := by
  refine ⟨fun k r hr hf => ?_, fun k hk => ?_⟩
  · show ∃ r', s.blocks.view t k = some r' ∧ r'.finalized = true
    rcases s.blocks.view_cases t k with hh | ⟨-, hv⟩
    · obtain ⟨r₁, hr₁⟩ := Option.isSome_iff_exists.mp (hs.some_row k t _ hh)
      rw [hr₁] at hh
      exact ⟨r₁, hr₁, hs.finalized k t r₁ r hh hr hf⟩
    · exact ⟨r, by rw [hv, hr], hf⟩
  · show ∃ k', heightOf k' = heightOf k ∧ isCanonical (s.blocks.view t k') = true
    rcases s.blocks.view_cases t k with hh | ⟨-, hv⟩
    · rcases hcan : isCanonical (s.blocks.view t k) with _ | _
      · -- `t` has demoted it, so it has promoted another one
        obtain ⟨key, fin, hw, hsame⟩ := finished_of_demotes (hs.demoted k t _ hh hk hcan) hfin
        obtain ⟨r, hr, hc⟩ := hs.promoted t key fin hrun hw
        exact ⟨key, (sameHeight_iff.mp hsame).symm, by rw [Table.view_of_held hr, hc]⟩
      · exact ⟨k, rfl, hcan⟩
    · exact ⟨k, rfl, by rw [hv, hk]⟩

theorem later_step {sha256 : Bytes → Bytes} {s s' : ArchiveState} {e : Ev} (hs : Inv s)
    (h : step sha256 s e = some s') : Later s s' := by
  by_cases he : ∃ t, e = .commit t
  · obtain ⟨t, rfl⟩ := he
    simp only [step] at h
    split_ifs at h with hc
    cases h
    exact Later.commit hs hc.1 hc.2
  · exact .of_eq (committed_step hs h fun t ht => he ⟨t, ht⟩)

/-- A step leaves the other transactions where they are. -/
theorem txs_of_ne {sha256 : Bytes → Bytes} {s s' : ArchiveState} {e : Ev} (hs : Inv s)
    (h : step sha256 s e = some s') {t : ℕ} (ht : t ≠ e.tx) : s'.txs t = s.txs t := by
  cases stepped_of_step hs h with
  | begin => exact Function.update_of_ne ht _ _
  | quiet _ _ hq => rw [hq.eq, ArchiveState.setWork_ne s _ ht]
  | wrote _ hw => rw [hw.txs, ArchiveState.setWork_ne s _ ht]
  | commit => exact ArchiveState.setStatus_ne s _ ht
  | rollback => exact ArchiveState.setStatus_ne s _ ht

theorem not_finished_of_failed {work : Work} (h : work.failed = true) : work.finished = false := by
  rcases work with ⟨b, _ | _ | _⟩ | ⟨k, fin, _ | _ | _ | _⟩ <;> first | rfl | cases h

/-- A call that has failed stays so, and does not commit. -/
theorem rejected_step {sha256 : Bytes → Bytes} {s s' : ArchiveState} {e : Ev} (hs : Inv s)
    (h : step sha256 s e = some s') {t : ℕ} (hr : Rejected s t) :
    Rejected s' t ∧ e ≠ .commit t := by
  by_cases ht : t = e.tx
  · subst ht
    have hidle : (s.txs e.tx).status ≠ .idle := by
      rcases hr with hr | ⟨hr, -⟩ <;> rw [hr] <;> simp
    have hfailed : (s.txs e.tx).status = .running → (s.txs e.tx).work.failed = true := by
      intro hrun
      rcases hr with hr | ⟨-, hr⟩
      · rw [hrun] at hr
        cases hr
      · exact hr
    cases stepped_of_step hs h with
    | begin hi => exact absurd hi hidle
    | quiet hrun hok => exact absurd (hfailed hrun) (by simp [hok])
    | wrote hok hw => exact absurd (hfailed hw.running) (by simp [hok])
    | commit _ hrun hfin =>
      rw [not_finished_of_failed (hfailed hrun)] at hfin
      cases hfin
    | rollback he =>
      refine ⟨Or.inl ?_, fun hc => by cases he.symm.trans hc⟩
      show ((s.setStatus e.tx .rolledBack).txs e.tx).status = .rolledBack
      rw [ArchiveState.setStatus_self]
  · refine ⟨?_, fun he => ht (by rw [he]; rfl)⟩
    rw [Rejected, txs_of_ne hs h ht]
    exact hr

/-- A committed transaction is at its end. -/
theorem committed_status {sha256 : Bytes → Bytes} {s s' : ArchiveState} {e : Ev} (hs : Inv s)
    (h : step sha256 s e = some s') {t : ℕ} (ht : (s.txs t).status = .committed) :
    (s'.txs t).status = .committed := by
  by_cases he : t = e.tx
  · subst he
    exfalso
    -- no event is possible in a transaction that has committed
    have hne : ∀ {st}, (s.txs e.tx).status = st → st = .committed := fun h => h.symm.trans ht
    cases stepped_of_step hs h with
    | begin hidle => cases hne hidle
    | quiet hrun => cases hne hrun
    | wrote _ hw => cases hne hw.running
    | commit _ hrun => cases hne hrun
    | rollback _ hrun => cases hne hrun
  · rw [txs_of_ne hs h he, ht]

/-! ### Every run -/

/-- At most one canonical block for each height, and flags that agree. -/
structure WellFormed (rows : BlockKey → Option BlockRow) : Prop where
  unique : ∀ k k', k.sameHeight k' → isCanonical (rows k) = true → isCanonical (rows k') = true →
    k = k'
  status : ∀ k r, rows k = some r → (r.status = .canonical ↔ r.isCanonical = true)
  finalized : ∀ k r, rows k = some r → r.finalized = true → r.isCanonical = true

theorem checksOk_iff {r : BlockRow} : r.checksOk = true ↔
    (r.status = .canonical ↔ r.isCanonical = true) ∧ (r.finalized = true → r.isCanonical = true) := by
  unfold BlockRow.checksOk
  rcases r.isCanonical with _ | _ <;> rcases r.finalized with _ | _ <;> simp

/-- What a transaction sees is well formed. -/
theorem Inv.wellFormed_view {s : ArchiveState} (hs : Inv s) (t : ℕ) :
    WellFormed (s.blocks.view t) where
  unique _ _ hk h h' := hs.index.view (sameHeight_iff.mp hk) h h'
  status _ _ h := (checksOk_iff.mp (view_checks hs h)).1
  finalized _ _ h := (checksOk_iff.mp (view_checks hs h)).2

theorem Inv.wellFormed {s : ArchiveState} (hs : Inv s) : WellFormed s.blocks.committed where
  unique _ _ hk h h' := hs.index.committed (sameHeight_iff.mp hk) h h'
  status k r h := (checksOk_iff.mp (hs.checks k r h)).1
  finalized k r h := (checksOk_iff.mp (hs.checks k r h)).2

/-- **Canonical and finalized blocks.** In every state reached by any interleaving of the writers,
the committed rows, and the rows each transaction sees, have at most one canonical block for each
height, `status` and `is_canonical` agree and finalized blocks are canonical. In every later state a
finalized block is still finalized and the only canonical one of its height, and a height that had a
canonical block has exactly one. A call that rejects never commits, and none of its steps has
changed the committed rows. -/
theorem canonical_finality (sha256 : Bytes → Bytes) {es : List Ev} {s : ArchiveState}
    (h : run (step sha256) es .init = some s) :
    WellFormed s.blocks.committed ∧ (∀ t, WellFormed (s.blocks.view t)) ∧
    (∀ es' s', run (step sha256) es' s = some s' →
      (∀ k r, s.blocks.committed k = some r → r.finalized = true →
        ∃ r', s'.blocks.committed k = some r' ∧ r'.finalized = true ∧ r'.isCanonical = true ∧
          ∀ k', k'.sameHeight k → isCanonical (s'.blocks.committed k') = true → k' = k) ∧
      (∀ k, isCanonical (s.blocks.committed k) = true →
        ∃! k', k'.sameHeight k ∧ isCanonical (s'.blocks.committed k') = true) ∧
      (∀ t, Rejected s t → Rejected s' t)) ∧
    (∀ es₁ e es₂ s₁ s₂, es = es₁ ++ e :: es₂ → run (step sha256) es₁ .init = some s₁ →
      step sha256 s₁ e = some s₂ → Rejected s e.tx →
      s₂.blocks.committed = s₁.blocks.committed) := by
  have hinv : ∀ {s₀ s : ArchiveState} {es : List Ev}, Inv s₀ → run (step sha256) es s₀ = some s →
      Inv s := fun h0 hr => run_inv (fun _ _ _ hI hst => hI.step hst) _ _ _ h0 hr
  have hs : Inv s := hinv .init h
  refine ⟨hs.wellFormed, hs.wellFormed_view, fun es' s' h' => ?_,
    fun es₁ e es₂ s₁ s₂ hes h₁ h₂ hr => ?_⟩
  · have hs' : Inv s' := hinv hs h'
    have hl : Inv s' ∧ Later s s' ∧ ∀ t, Rejected s t → Rejected s' t :=
      run_inv (I := fun s' => Inv s' ∧ Later s s' ∧ ∀ t, Rejected s t → Rejected s' t)
        (fun _ _ _ hI hst => ⟨hI.1.step hst, hI.2.1.trans (later_step hI.1 hst),
          fun t ht => (rejected_step hI.1 hst (hI.2.2 t ht)).1⟩) es' s s'
        ⟨hs, .of_eq rfl, fun _ ht => ht⟩ h'
    refine ⟨fun k r hr hf => ?_, fun k hk => ?_, hl.2.2⟩
    · obtain ⟨r', hr', hf'⟩ := hl.2.1.finalized k r hr hf
      have hcan := hs'.wellFormed.finalized k r' hr' hf'
      refine ⟨r', hr', hf', hcan, fun k' hk' hc => hs'.wellFormed.unique k' k hk' hc ?_⟩
      rw [hr']
      exact hcan
    · obtain ⟨k', hg, hc⟩ := hl.2.1.canonical k hk
      have hsame := sameHeight_iff.mpr hg
      refine ⟨k', ⟨hsame, hc⟩, fun k'' hk'' => ?_⟩
      exact hs'.wellFormed.unique k'' k'
        (sameHeight_iff.mpr ((sameHeight_iff.mp hk''.1).trans hg.symm)) hk''.2 hc
  · have hs₁ : Inv s₁ := hinv .init h₁
    refine committed_step hs₁ h₂ fun t he => ?_
    -- a transaction that has committed is not rejected at the end
    subst he
    have hc₂ : (s₂.txs t).status = .committed := by
      simp only [step] at h₂
      split_ifs at h₂
      cases h₂
      show ((s₁.setStatus t .committed).txs t).status = _
      rw [ArchiveState.setStatus_self]
    have hrun : run (step sha256) es₂ s₂ = some s := by
      rw [hes, run_append, h₁, Option.bind_some, run_cons, h₂, Option.bind_some] at h
      exact h
    have hend : Inv s ∧ (s.txs t).status = .committed :=
      run_inv (I := fun s => Inv s ∧ (s.txs t).status = .committed)
        (fun _ _ _ hI hst => ⟨hI.1.step hst, committed_status hI.1 hst hI.2⟩) es₂ s₂ s
        ⟨hs₁.step h₂, hc₂⟩ hrun
    rcases hr with hr | ⟨hr, -⟩
    · rw [show (s.txs t).status = .rolledBack from hr] at hend
      cases hend.2
    · rw [show (s.txs t).status = .running from hr] at hend
      cases hend.2

/-- A block of height 7 whose hash is made of one byte. -/
def blockOfByte (b : UInt8) (canonical : Bool) : BlockRecord :=
  ⟨[109], List.replicate 32 b, 7, List.replicate 32 0, List.replicate 32 0, List.replicate 32 0,
    none, [1], none, canonical, if canonical then .canonical else .seen, false⟩

/-- Of two flips that both saw the block 1 as canonical, the second fails; the block 2 is finalized,
cannot be displaced, and cannot be un-finalized. -/
def concurrentFlips : List Ev :=
  [.beginPut 0 (blockOfByte 1 true), .exec 0, .commit 0, .beginPut 1 (blockOfByte 2 false), .exec 1,
    .commit 1, .beginPut 2 (blockOfByte 3 false), .exec 2, .commit 2,
    .beginSet 3 (blockOfByte 2 false).key none, .exec 3,
    .beginSet 4 (blockOfByte 3 false).key none, .exec 4, .demoteRow 3 (blockOfByte 1 true).key,
    .exec 3, .commit 3, .demoteRow 4 (blockOfByte 1 true).key, .exec 4, .rollback 4,
    .beginSet 5 (blockOfByte 2 false).key (some true), .exec 5, .exec 5, .commit 5,
    .beginSet 6 (blockOfByte 1 true).key none, .exec 6, .demoteRow 6 (blockOfByte 2 false).key,
    .rollback 6, .beginSet 7 (blockOfByte 2 false).key (some false), .exec 7, .exec 7]

theorem canonical_finality_concurrentFlips :
    ∃ s, run (step sha256OfByte) concurrentFlips .init = some s ∧
      (s.blocks.committed (blockOfByte 2 false).key).any (·.finalized) = true ∧
      (s.txs 4).work = .set (blockOfByte 3 false).key none (.failed .uniqueViolation) ∧
      (s.txs 6).work = .set (blockOfByte 1 true).key none (.failed .checkViolation) ∧
      (s.txs 7).work = .set (blockOfByte 2 false).key (some false) (.failed .finalizedMonotonic) ∧
      WellFormed s.blocks.committed := by
  have hr : ∃ s, run (step sha256OfByte) concurrentFlips .init = some s := ⟨_, rfl⟩
  obtain ⟨s, hs⟩ := hr
  refine ⟨s, hs, ?_, ?_, ?_, ?_, (canonical_finality sha256OfByte hs).1⟩
  · cases hs
    rfl
  · cases hs
    rfl
  · cases hs
    rfl
  · cases hs
    rfl

end UmbraDB.Archive.Canonical
