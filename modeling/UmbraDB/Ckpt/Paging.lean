import UmbraDB.Ckpt.History
import UmbraDB.Ckpt.Sequence

/-! # Checkpoint store: reading the history while it changes

A caller reads the pages of `history` one after the other, each with the last sequence of the page
before, until a page is empty. Each request has its own snapshot, and between two of them any saves
and prunes run, interleaved in any way (`Ckpt.Sequence`).

The rows of a snapshot are the committed manifests (`Snapshot`); the chunks and the junction rows
are left open, since a page is chosen without them. What is new after the first request has higher
sequences than all that was there (`Inv.lt_of_new`), and a deleted row does not come back
(`committed_run`). -/

namespace UmbraDB.Ckpt.Paging

open UmbraDB.Js.Text UmbraDB.Lib.Runs UmbraDB.Lib.RowStore UmbraDB.Lib.Allocator
open UmbraDB.Lib.Fallible UmbraDB.Lib.Paging
open UmbraDB.Ckpt.Rows UmbraDB.Ckpt.Sequence UmbraDB.Ckpt.History
open UmbraDB.Ckpt.RoundTrip (assertValidCheckpointIds_ok coerceToSafeNumber_ok sha256OfByte)

variable {V C : Type}

/-! ### Committed rows -/

/-- The sequences of the checkpoints of the wallet and network that are there. -/
def existing (s : SeqState V C) (w net : JsString) : Set ℕ :=
  { n | ∃ id row, s.manifests.committed id = some row ∧ row.w = w ∧ row.net = net ∧ row.seq = n }

/-- The entry of the log of the save that inserted the row. -/
def claimOf (row : SavedRow) : Claim (JsString × JsString) ℕ :=
  ⟨row.savedBy, (row.w, row.net), row.seq⟩

variable {sha256 : Bytes → Bytes} {s s' : SeqState V C}

theorem inv_of_run {es : List Ev} (hs : Inv s) (h : run (step sha256) es s = some s') : Inv s' :=
  run_inv (fun _ _ _ hI hst => hI.step hst) es s s' hs h

theorem log_of_run {es : List Ev} (hs : Inv s) (h : run (step sha256) es s = some s') :
    s.log <+: s'.log :=
  (run_inv (I := fun s' => Inv s' ∧ s.log <+: s'.log)
    (fun _ _ _ hI hst => ⟨hI.1.step hst, hI.2.trans (next_step hI.1 hst).log⟩) es s s'
    ⟨hs, List.prefix_rfl⟩ h).2

/-- A row that a step commits is of a save that was not committed. -/
theorem committed_step {e : Ev} (hs : Inv s) (h : step sha256 s e = some s') {id : ℕ}
    {row : SavedRow} (hrow : s'.manifests.committed id = some row) :
    s.manifests.committed id = some row ∨ claimOf row ∉ s.log := by
  rcases e with t | ⟨t, w, net, data, opts⟩ | i | ⟨p, id'⟩ | t | t
  · simp only [step] at h
    split at h
    · cases h
      exact Or.inl hrow
    · cases h
  · obtain ⟨-, -, -, -, -, -, -, -, -, hms⟩ := callStep_cases h
    rw [hms] at hrow
    exact Or.inl hrow
  · obtain ⟨x, x', -, ⟨-, -, -, hms⟩ | ⟨-, -, -, -, -, hms⟩ | ⟨seq, -, -, -, -, -, hms⟩⟩ :=
      execStep_cases h fun x hx => hs.calls.at_rest i x hx
    all_goals rw [hms] at hrow
    all_goals exact Or.inl hrow
  · simp only [step, deleteStep] at h
    split at h
    · cases h
      exact Or.inl hrow
    · cases h
  · simp only [step] at h
    split at h
    · rename_i hrun
      cases h
      have hview : s.manifests.view t id = some row := hrow
      rcases s.manifests.view_cases t id with hheld | ⟨-, hv⟩
      · -- the row of the transaction, whose saves are not in the log yet
        refine Or.inr fun hmem => ?_
        obtain ⟨ho, -⟩ := hs.held id t row (by rw [hheld, hview])
        obtain ⟨t', ht', ho'⟩ := (hs.log _).mp hmem
        have hpair := ho.symm.trans ho'
        simp only [Option.some.injEq, Prod.mk.injEq] at hpair
        rw [← hpair.1, hrun.1] at ht'
        cases ht'
      · exact Or.inl (hv.symm.trans hview)
    · cases h
  · simp only [step] at h
    split at h
    · cases h
      exact Or.inl hrow
    · cases h

/-- **A row that is there later, of a save that was committed before, has been there all the
time.** -/
theorem committed_run {es : List Ev} (hs : Inv s) (h : run (step sha256) es s = some s') {id : ℕ}
    {row : SavedRow} (hrow : s'.manifests.committed id = some row) (hmem : claimOf row ∈ s.log) :
    s.manifests.committed id = some row := by
  have hall := run_inv (I := fun s' => Inv s' ∧ s.log <+: s'.log ∧ ∀ id row,
      s'.manifests.committed id = some row → claimOf row ∈ s.log →
        s.manifests.committed id = some row)
    (fun s₁ e s₂ hI hst => by
      refine ⟨hI.1.step hst, hI.2.1.trans (next_step hI.1 hst).log, fun id row hr hm => ?_⟩
      rcases committed_step hI.1 hst hr with hr | hn
      · exact hI.2.2 id row hr hm
      · exact absurd (hI.2.1.subset hm) hn)
    es s s' ⟨hs, List.prefix_rfl, fun _ _ hr _ => hr⟩ h
  exact hall.2.2 id row hrow hmem

/-- Sequences begin at 1. -/
theorem one_le_seq (hs : Inv s) {c : Claim (JsString × JsString) ℕ} (hc : c ∈ s.log) :
    1 ≤ c.seq := by
  have hmem := seq_mem_seqsOf hc rfl
  have hseqs : seqsOf c.key s.log = _ := hs.gapless.exact c.key
  rw [hseqs, List.mem_range'_1] at hmem
  exact hmem.1

/-- Two entries of the log with the same pair and number are one. -/
theorem claim_unique (hs : Inv s) {c c' : Claim (JsString × JsString) ℕ} (hc : c ∈ s.log)
    (hc' : c' ∈ s.log) (hk : c.key = c'.key) (hq : c.seq = c'.seq) : c = c' :=
  eq_of_seq_eq (hs.counters.log_nodup c'.key) hc hc' hk rfl hq

/-! ### Snapshots -/

/-- The manifests that a request sees which begins in `s`. -/
structure Snapshot (s : SeqState V C) (db : CkptDb) : Prop where
  ids : db.manifests.Pairwise fun a b => a.id ≠ b.id
  rows : ∀ m ∈ db.manifests, m.complete = true ∧ ∃ row, s.manifests.committed m.id = some row ∧
    row.w = m.w ∧ row.net = m.net ∧ row.seq = m.seq
  all : ∀ id row, s.manifests.committed id = some row → ∃ m ∈ db.manifests, m.id = id

theorem Snapshot.seqs {db : CkptDb} (h : Snapshot s db) (hs : Inv s) :
    db.manifests.Pairwise fun a b => a.w = b.w → a.net = b.net → a.seq ≠ b.seq := by
  refine h.ids.imp_of_mem fun {a b} ha hb hid hw hnet hseq => hid ?_
  obtain ⟨-, row, hr, hrw, hrn, hrs⟩ := h.rows a ha
  obtain ⟨-, row', hr', hrw', hrn', hrs'⟩ := h.rows b hb
  refine hs.gapless.unique a.id b.id row row' hr hr' ?_ (by rw [hrs, hrs', hseq])
  rw [hrw, hrn, hrw', hrn', hw, hnet]

theorem Snapshot.sequencesOf_eq {db : CkptDb} (h : Snapshot s db) (w net : JsString) :
    sequencesOf db w net = existing s w net := by
  ext n
  constructor
  · rintro ⟨m, hsel, rfl⟩
    obtain ⟨hm, rfl, rfl⟩ := manifestsOf_key hsel
    obtain ⟨-, row, hr, hw, hn, hq⟩ := h.rows m hm
    exact ⟨m.id, row, hr, hw, hn, hq⟩
  · rintro ⟨id, row, hr, rfl, rfl, rfl⟩
    obtain ⟨m, hm, rfl⟩ := h.all id row hr
    obtain ⟨hc, row', hr', hw, hn, hq⟩ := h.rows m hm
    cases hr.symm.trans hr'
    refine ⟨m, List.mem_filter.mpr ⟨hm, ?_⟩, hq.symm⟩
    simp [← hw, ← hn, hc]

/-! ### The pages -/

/-- What a page of `history` has, whatever the chunks are. -/
theorem history_isPage {db : CkptDb} (h : Snapshot s db) (hs : Inv s) {w net : JsString}
    {limit before : Option ℕ} {page : List CheckpointSummary}
    (hpage : history w net ⟨limit, before⟩ db = .ok page) :
    IsPage (limit.getD 50) (existing s w net) before (page.map (·.sequence)) ∧
      ∀ e ∈ page, e.sequence ≤ maxSafeInteger := by
  obtain ⟨_, -, h₁⟩ := bind_ok.mp hpage
  obtain ⟨opts, h₂, himpl⟩ := bind_ok.mp h₁
  unfold validateHistoryOptions at h₂
  split_ifs at h₂
  cases h₂
  have hsummary : ∀ aggRows m e, summaryOf aggRows m = .ok e →
      e.sequence = m.seq ∧ m.seq ≤ maxSafeInteger := by
    intro aggRows m e he
    obtain ⟨byteLength, -, he⟩ := bind_ok.mp he
    obtain ⟨chunkCount, -, he⟩ := bind_ok.mp he
    obtain ⟨sequence, hseq, he⟩ := bind_ok.mp he
    obtain ⟨rfl, hle⟩ := coerceToSafeNumber_ok hseq
    cases he
    exact ⟨rfl, hle⟩
  have hmap : page.map (·.sequence) =
      (pageRows w net (limit.getD 50) before db).map (·.seq) :=
    map_eq_of_mapM (fun m e he => (hsummary _ m e he).1) himpl
  refine ⟨?_, fun e he => ?_⟩
  · rw [hmap, ← h.sequencesOf_eq]
    exact pageRows_isPage (h.seqs hs)
  · obtain ⟨m, -, hm⟩ := mem_of_mapM himpl he
    obtain ⟨hseq, hle⟩ := hsummary _ m e hm
    rwa [hseq]

/-- The arguments of a request that are valid. -/
def RequestOk (w net : JsString) (limit : Option ℕ) : Prop :=
  assertValidCheckpointIds w net = .ok () ∧ ∀ n, limit = some n → 1 ≤ n ∧ n ≤ 1000

theorem validateHistoryOptions_eq {limit before : Option ℕ}
    (hlimit : ∀ n, limit = some n → 1 ≤ n ∧ n ≤ 1000)
    (hbefore : ∀ n, before = some n → 1 ≤ n ∧ n ≤ maxSafeInteger) :
    validateHistoryOptions ⟨limit, before⟩ = .ok (limit.getD 50, before) := by
  rw [validateHistoryOptions, if_pos]
  rw [Bool.and_eq_true, Option.all_eq_true, Option.all_eq_true]
  refine ⟨fun n hn => ?_, fun n hn => ?_⟩
  · simpa using hlimit n hn
  · simpa using hbefore n hn

/-- A request that succeeds had valid arguments. -/
theorem requestOk_of_history {db : CkptDb} {w net : JsString} {limit before : Option ℕ}
    {page : List CheckpointSummary} (h : history w net ⟨limit, before⟩ db = .ok page) :
    RequestOk w net limit := by
  obtain ⟨_, hids, h₁⟩ := bind_ok.mp h
  obtain ⟨opts, h₂, -⟩ := bind_ok.mp h₁
  refine ⟨hids, fun n hn => ?_⟩
  unfold validateHistoryOptions at h₂
  split_ifs at h₂ with hv
  have hv := (Bool.and_eq_true_iff.mp hv).1
  rw [hn] at hv
  simpa using hv

/-! ### The reading -/

/-- The requests: the `i`-th one begins in the state `σ i` and sees the tables `db i`. -/
structure Schedule (sha256 : Bytes → Bytes) (σ : ℕ → SeqState V C) (db : ℕ → CkptDb) : Prop where
  first : Reach (step sha256) .init (σ 0)
  next : ∀ i, Reach (step sha256) (σ i) (σ (i + 1))
  snapshot : ∀ i, Snapshot (σ i) (db i)

section

variable {σ : ℕ → SeqState V C} {db : ℕ → CkptDb}

theorem Schedule.inv (h : Schedule sha256 σ db) (i : ℕ) : Inv (σ i) := by
  induction i with
  | zero =>
    obtain ⟨es, hes⟩ := h.first
    exact inv_of_run .init hes
  | succ i ih =>
    obtain ⟨es, hes⟩ := h.next i
    exact inv_of_run ih hes

theorem Schedule.reach (h : Schedule sha256 σ db) {i j : ℕ} (hij : i ≤ j) :
    Reach (step sha256) (σ i) (σ j) := by
  induction j, hij using Nat.le_induction with
  | base => exact ⟨[], rfl⟩
  | succ j _ ih => exact ih.trans (h.next j)

theorem Schedule.log (h : Schedule sha256 σ db) {i j : ℕ} (hij : i ≤ j) :
    (σ i).log <+: (σ j).log := by
  obtain ⟨es, hes⟩ := h.reach hij
  exact log_of_run (h.inv i) hes

/-- A row that is there was saved before. -/
theorem mem_log_of_existing (hs : Inv s) {w net : JsString} {n : ℕ} (hn : n ∈ existing s w net) :
    ∃ c ∈ s.log, c.key = (w, net) ∧ c.seq = n := by
  obtain ⟨id, row, hr, rfl, rfl, rfl⟩ := hn
  exact ⟨claimOf row, hs.gapless.rows id row hr, rfl, rfl⟩

/-- **What is there at two requests is there at those between them.** -/
theorem Schedule.existing_between (h : Schedule sha256 σ db) {w net : JsString} {i j k n : ℕ}
    (hij : i ≤ j) (hjk : j ≤ k) (hi : n ∈ existing (σ i) w net) (hk : n ∈ existing (σ k) w net) :
    n ∈ existing (σ j) w net := by
  obtain ⟨c, hc, hckey, hcseq⟩ := mem_log_of_existing (h.inv i) hi
  obtain ⟨id, row, hr, rfl, rfl, rfl⟩ := hk
  obtain ⟨es, hes⟩ := h.reach hjk
  have hrow : claimOf row ∈ (σ k).log := (h.inv k).gapless.rows id row hr
  have he : c = claimOf row :=
    claim_unique (h.inv k) ((h.log (hij.trans hjk)).subset hc) hrow hckey hcseq
  rw [he] at hc
  exact ⟨id, row, committed_run (h.inv j) hes hr ((h.log hij).subset hc), rfl, rfl, rfl⟩

/-- What is saved after a request has a higher sequence than all that was there. -/
theorem Schedule.lt_of_later (h : Schedule sha256 σ db) {i j n : ℕ} (hij : i ≤ j)
    {w net : JsString} (hn : n ∈ existing (σ i) w net) {c : Claim (JsString × JsString) ℕ}
    (hc : c ∈ (σ j).log) (hnew : c ∉ (σ i).log) (hkey : c.key = (w, net)) : n < c.seq := by
  obtain ⟨c₀, hc₀, hkey₀, rfl⟩ := mem_log_of_existing (h.inv i) hn
  have hlt := (h.inv i).lt_of_new (h.inv j) (h.log hij) hc hnew
  have hle := (h.inv i).counters.log_le_count hc₀
  rw [hkey] at hlt
  rw [hkey₀] at hle
  omega

/-- A row at a later request that is not above the rows at an earlier one was there then. -/
theorem Schedule.existing_of_le (h : Schedule sha256 σ db) {i j n n₀ : ℕ} (hij : i ≤ j)
    {w net : JsString} (hn : n ∈ existing (σ j) w net) (hn₀ : n₀ ∈ existing (σ i) w net)
    (hle : n ≤ n₀) : n ∈ existing (σ i) w net := by
  obtain ⟨id, row, hr, rfl, rfl, rfl⟩ := hn
  obtain ⟨es, hes⟩ := h.reach hij
  have hrow : claimOf row ∈ (σ j).log := (h.inv j).gapless.rows id row hr
  refine ⟨id, row, committed_run (h.inv i) hes hr ?_, rfl, rfl, rfl⟩
  by_contra hnew
  have hlt : n₀ < row.seq := h.lt_of_later hij hn₀ hrow hnew rfl
  omega

/-- The caller's loop, for so many rounds. -/
def readHistory (w net : JsString) (limit : Option ℕ) (db : ℕ → CkptDb) (rounds : ℕ) :
    List CheckpointSummary × Stop CkptError :=
  readPages (·.sequence) (fun i before => history w net ⟨limit, before⟩ (db i)) rounds 0 none

/-- The reading ends with an empty page, if the requests are valid and no sum is too large. -/
theorem Schedule.ne_failed (h : Schedule sha256 σ db) {w net : JsString} {limit : Option ℕ}
    (hok : RequestOk w net limit)
    (hsafe : ∀ i, ∀ m ∈ manifestsOf (db i) w net, SafeSummary (tableSummary (db i) m))
    (e : CkptError) (rounds : ℕ) : (readHistory w net limit db rounds).2 ≠ .failed e := by
  refine readPages_ne_failed (P := fun before =>
    ∀ n, before = some n → 1 ≤ n ∧ n ≤ maxSafeInteger) (fun i before hb => ?_) e rounds 0 none
    fun n hn => by cases hn
  have hpage : history w net ⟨limit, before⟩ (db i) =
      .ok ((pageRows w net (limit.getD 50) before (db i)).map (tableSummary (db i))) := by
    rw [history, hok.1, validateHistoryOptions_eq hok.2 hb]
    exact historyImpl_eq fun m hm => hsafe i m (mem_pageRows hm)
  refine ⟨_, hpage, fun e he n hn => ?_⟩
  cases hn
  obtain ⟨hp, hle⟩ := history_isPage (h.snapshot i) (h.inv i) hpage
  obtain ⟨c, hc, -, hseq⟩ := mem_log_of_existing (h.inv i)
    (hp.mem _ (List.mem_map_of_mem he)).1
  have hone := one_le_seq (h.inv i) hc
  rw [hseq] at hone
  exact ⟨hone, hle e he⟩

/-- An empty page was a valid request. -/
theorem requestOk_of_drained {w net : JsString} {limit : Option ℕ} {rounds k : ℕ}
    (hd : (readHistory w net limit db rounds).2 = .drained k) : RequestOk w net limit := by
  rcases rounds with _ | rounds
  · cases hd
  · unfold readHistory at hd
    rcases readPages_cases rounds 0 none with ⟨e, -, hr⟩ | ⟨hf, -⟩ | ⟨page, last, hf, -, -⟩
    · rw [hr] at hd
      cases hd
    · exact requestOk_of_history hf
    · exact requestOk_of_history hf

/-- **Reading the history while it changes.** For every schedule of saves and prunes between the
requests and every limit, the reading ends. What is read descends, was there at the first request,
and is of no save that was committed after it. If it ended with an empty page, everything is read
that was there at the first request and at the last; and it does end so, unless the arguments are
rejected or a sum is not a safe integer. -/
theorem paging_complete (h : Schedule sha256 σ db) (w net : JsString) (limit : Option ℕ) :
    (∃ bound, ∀ rounds, bound ≤ rounds → (readHistory w net limit db rounds).2 ≠ .running) ∧
    ∀ rounds,
      ((readHistory w net limit db rounds).1.map (·.sequence)).Pairwise (· > ·) ∧
      (∀ e ∈ (readHistory w net limit db rounds).1, e.sequence ∈ existing (σ 0) w net) ∧
      (∀ i, ∀ c ∈ (σ i).log, c ∉ (σ 0).log → c.key = (w, net) →
        c.seq ∉ (readHistory w net limit db rounds).1.map (·.sequence)) ∧
      (∀ k, (readHistory w net limit db rounds).2 = .drained k →
        ∀ n ∈ existing (σ 0) w net, n ∈ existing (σ k) w net →
          n ∈ (readHistory w net limit db rounds).1.map (·.sequence)) ∧
      (RequestOk w net limit →
        (∀ i, ∀ m ∈ manifestsOf (db i) w net, SafeSummary (tableSummary (db i) m)) →
        ∀ e, (readHistory w net limit db rounds).2 ≠ .failed e) := by
  have hpage : ∀ i before page, history w net ⟨limit, before⟩ (db i) = .ok page →
      IsPage (limit.getD 50) (existing (σ i) w net) before (page.map (·.sequence)) :=
    fun i before page hp => (history_isPage (h.snapshot i) (h.inv i) hp).1
  have hthere : ∀ rounds, ∀ e ∈ (readHistory w net limit db rounds).1,
      e.sequence ∈ existing (σ 0) w net := by
    intro rounds e he
    obtain ⟨j, -, hj⟩ := readPages_mem hpage rounds 0 none e he
    obtain ⟨n₀, hn₀, hle⟩ := readPages_start hpage rounds 0 none e he
    exact h.existing_of_le (Nat.zero_le j) hj hn₀ hle
  refine ⟨readPages_ends hpage, fun rounds => ⟨(readPages_desc hpage rounds 0 none).1,
    hthere rounds, fun i c hc hnew hkey hmem => ?_, fun k hd n hfirst hlast => ?_,
    fun hok hsafe e => h.ne_failed hok hsafe e rounds⟩⟩
  · obtain ⟨e, he, hseq⟩ := List.mem_map.mp hmem
    have hlt := h.lt_of_later (Nat.zero_le i) (hthere rounds e he) hc hnew hkey
    omega
  · have hlimit : 0 < limit.getD 50 := by
      obtain ⟨-, hok⟩ := requestOk_of_drained hd
      rcases limit with _ | n
      · decide
      · exact (hok n rfl).1
    exact (readPages_complete hpage hlimit rounds 0 none hd (fun b hb => by cases hb)
      fun j _ hjk => h.existing_between (Nat.zero_le j) hjk hfirst hlast).2

end

/-- The save `i` of an empty payload, in a transaction `t` of its own. -/
def saveEmpty (t i : ℕ) : List Ev :=
  [.begin t, .call t [97] [109] [] ⟨none, none⟩, .exec i, .exec i, .commit t]

/-- What is saved before the first request. -/
def threeSaves : List Ev := saveEmpty 0 0 ++ saveEmpty 1 1 ++ saveEmpty 2 2

/-- Between the first request and the second, the checkpoint 2 is pruned and another one saved. -/
def prunedAndSaved : List Ev := [.begin 3, .delete 3 2, .commit 3] ++ saveEmpty 4 3

/-- The manifest row with this id, of the sequence that is the id. -/
def manifestRow (id : ℕ) : ManifestRow := ⟨id, [97], [109], id, true, sha256OfByte [], none, 0⟩

def snapshotOf (ids : List ℕ) : CkptDb := ⟨[], ids.map manifestRow, [], [], ids.length + 1⟩

/-- The rows of a snapshot, from the manifests of the saves. -/
theorem snapshot_of_saves {ids : List ℕ} (hs : Inv s) (hids : ids.Nodup)
    (hrows : ∀ id ∈ ids, ∃ i, s.manifests.committed id = some ⟨[97], [109], id, i⟩)
    (hall : ∀ i, i < s.nextCall → ∀ id, s.manifestOf i = some id →
      s.manifests.committed id ≠ none → id ∈ ids) : Snapshot s (snapshotOf ids) := by
  refine ⟨List.pairwise_map.mpr hids, fun m hm => ?_, fun id row hr => ?_⟩
  · obtain ⟨id, hid, rfl⟩ := List.mem_map.mp hm
    obtain ⟨i, hi⟩ := hrows id hid
    exact ⟨rfl, _, hi, rfl, rfl, rfl⟩
  · obtain ⟨⟨t, -, ho⟩, hmo⟩ := hs.rows id row hr
    have hlt : row.savedBy < s.nextCall := by
      by_contra hge
      obtain ⟨x, hx, -⟩ := owner_eq_some.mp ho
      rw [hs.calls.fresh row.savedBy (by omega)] at hx
      cases hx
    refine ⟨manifestRow id, List.mem_map_of_mem (hall _ hlt id hmo ?_), rfl⟩
    rw [hr]
    exact Option.some_ne_none row

theorem paging_complete_pruned :
    ∃ (σ : ℕ → SeqState Unit Unit) (db : ℕ → CkptDb), Schedule sha256OfByte σ db ∧
      (readHistory [97] [109] (some 1) db 4).2 = .drained 2 ∧
      1 ∈ (readHistory [97] [109] (some 1) db 4).1.map (·.sequence) ∧
      4 ∉ (readHistory [97] [109] (some 1) db 4).1.map (·.sequence) := by
  have hr₀ : ∃ s, run (step sha256OfByte) threeSaves (.init : SeqState Unit Unit) = some s ∧
      s.nextCall = 3 ∧ s.manifestOf 0 = some 1 ∧ s.manifestOf 1 = some 2 ∧
      s.manifestOf 2 = some 3 ∧ s.log.map (·.seq) = [1, 2, 3] ∧
      ∀ id ∈ [1, 2, 3], ∃ i, s.manifests.committed id = some ⟨[97], [109], id, i⟩ :=
    ⟨_, rfl, rfl, rfl, rfl, rfl, rfl, List.forall_mem_cons.mpr ⟨⟨0, rfl⟩,
      List.forall_mem_cons.mpr ⟨⟨1, rfl⟩, List.forall_mem_singleton.mpr ⟨2, rfl⟩⟩⟩⟩
  obtain ⟨s₀, hs₀, hcalls₀, h0, h1, h2, hlog₀, hrows₀⟩ := hr₀
  have hr₁ : ∃ s, run (step sha256OfByte) prunedAndSaved s₀ = some s ∧
      s.nextCall = 4 ∧ s.manifestOf 0 = some 1 ∧ s.manifestOf 1 = some 2 ∧
      s.manifestOf 2 = some 3 ∧ s.manifestOf 3 = some 4 ∧ s.manifests.committed 2 = none ∧
      (⟨3, ([97], [109]), 4⟩ : Claim _ ℕ) ∈ s.log ∧
      ∀ id ∈ [1, 3, 4], ∃ i, s.manifests.committed id = some ⟨[97], [109], id, i⟩ := by
    cases hs₀
    exact ⟨_, rfl, rfl, rfl, rfl, rfl, rfl, rfl,
      .tail _ (.tail _ (.tail _ (.head _))), List.forall_mem_cons.mpr ⟨⟨0, rfl⟩,
      List.forall_mem_cons.mpr ⟨⟨2, rfl⟩, List.forall_mem_singleton.mpr ⟨3, rfl⟩⟩⟩⟩
  obtain ⟨s₁, hs₁, hcalls₁, h0', h1', h2', h3', hgone, hlog₁, hrows₁⟩ := hr₁
  have hsnap₀ : Snapshot s₀ (snapshotOf [1, 2, 3]) := by
    refine snapshot_of_saves (inv_of_run .init hs₀) (by decide) hrows₀ fun i hi id hid _ => ?_
    rw [hcalls₀] at hi
    rcases i with _ | _ | _ | i
    · cases h0.symm.trans hid
      decide
    · cases h1.symm.trans hid
      decide
    · cases h2.symm.trans hid
      decide
    · omega
  have hsnap₁ : Snapshot s₁ (snapshotOf [1, 3, 4]) := by
    refine snapshot_of_saves (inv_of_run (inv_of_run .init hs₀) hs₁) (by decide) hrows₁
      fun i hi id hid hne => ?_
    rw [hcalls₁] at hi
    rcases i with _ | _ | _ | _ | i
    · cases h0'.symm.trans hid
      decide
    · cases h1'.symm.trans hid
      exact absurd hgone hne
    · cases h2'.symm.trans hid
      decide
    · cases h3'.symm.trans hid
      decide
    · omega
  have h : Schedule sha256OfByte (fun i => if i = 0 then s₀ else s₁)
      (fun i => if i = 0 then snapshotOf [1, 2, 3] else snapshotOf [1, 3, 4]) := by
    refine ⟨⟨threeSaves, hs₀⟩, fun i => ?_, fun i => ?_⟩
    · rcases i with _ | i
      · exact ⟨prunedAndSaved, hs₁⟩
      · exact ⟨[], rfl⟩
    · rcases i with _ | i
      · exact hsnap₀
      · exact hsnap₁
  have hnew : (⟨3, ([97], [109]), 4⟩ : Claim _ ℕ) ∉ s₀.log := by
    intro hmem
    have hseq : 4 ∈ s₀.log.map (·.seq) := List.mem_map_of_mem hmem
    rw [hlog₀] at hseq
    exact absurd hseq (by decide)
  obtain ⟨-, hread⟩ := paging_complete h [97] [109] (some 1)
  obtain ⟨-, -, hlater, hcomplete, -⟩ := hread 4
  have hfirst : 1 ∈ existing s₀ [97] [109] := by
    rw [← hsnap₀.sequencesOf_eq]
    exact ⟨manifestRow 1, by decide, rfl⟩
  have hlast : 1 ∈ existing s₁ [97] [109] := by
    rw [← hsnap₁.sequencesOf_eq]
    exact ⟨manifestRow 1, by decide, rfl⟩
  exact ⟨_, _, h, rfl, hcomplete 2 rfl 1 hfirst hlast, hlater 1 _ hlog₁ hnew rfl⟩

end UmbraDB.Ckpt.Paging
