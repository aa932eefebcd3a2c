import UmbraDB.Archive.Cursor

/-! # Chain archive: the D-parameter observations

An observation is stored for a height when its D-parameter is not the value the instance remembers,
which is the last one it has stored itself. The archive is shared by all instances, so between two
heights an instance ingests another one may have stored a different value, and a late `resolve` of
an overlapping call sets the memory back.

* `observations_complete` : if no bundle is built without observation for a height that is not
  archived and whose D-parameter differs from the one before, then at every archived height the
  observation in force carries its D-parameter.
* `twoInstances_lose` : two instances take turns, and the value changes and changes back. -/

namespace UmbraDB.Archive.Observations

open UmbraDB.Js.Text UmbraDB.Lib.Runs UmbraDB.Lib.RowStore UmbraDB.Lib.InsertOnly
open UmbraDB.Ckpt.Rows UmbraDB.Archive.Sync UmbraDB.Archive.Cursor
open UmbraDB.Archive.Blocks (BlockKey)
open UmbraDB.Ckpt.RoundTrip (sha256OfByte)

/-- The bytes of the D-parameter of a height. -/
def dRaw (chain : Chain) (height : ℕ) : Bytes :=
  encodeAscii (dParameterJson (chain.indexer height).dParameter)

/-- An observation is committed for the height. -/
def ObservedAt (s : SyncState) (height : ℕ) (raw : Bytes) : Prop :=
  ∃ k, k.height = height ∧ s.observations.committed k = some raw

/-- The observation at the greatest height up to the given one. -/
def InForce (s : SyncState) (height : ℕ) (raw : Bytes) : Prop :=
  ∃ g ≤ height, ObservedAt s g raw ∧ ∀ g' raw', g < g' → g' ≤ height → ¬ ObservedAt s g' raw'

/-- At every archived height the observation in force carries its D-parameter. -/
def Complete (chain : Chain) (s : SyncState) : Prop :=
  ∀ k, (s.blocks.committed k).isSome = true → InForce s k.height (dRaw chain k.height)

section Invariant

variable (sha256 : Bytes → Bytes) (chain : Chain) (net : JsString)

/-- The D-parameter of the height is that of the height before. -/
def Unchanged (height : ℕ) : Prop := ∃ j, height = j + 1 ∧ dRaw chain j = dRaw chain height

/-- A bundle without observation is for a height that may do without; one with an observation has
stored it, or has it left. -/
def BundleOk (s : SyncState) (c : ℕ) : Stage → Prop
  | .writing height _ none todo =>
    (∀ o, Insert.observation o ∉ todo) ∧ (Archived sha256 chain net s height ∨ Unchanged chain height)
  | .writing height _ (some _) todo => ∀ b, bundleOf chain net height = .ok b →
    Seen s.observations (c, height) b.block.key ∨
      Insert.observation ⟨b.block.key, dRaw chain height⟩ ∈ todo
  | _ => True

structure ObsInv (s : SyncState) : Prop where
  inv : Inv sha256 chain net s
  closed : ∀ k, (s.blocks.committed k).isSome = true → ∀ j ≤ k.height, Archived sha256 chain net s j
  held_block : ∀ k t v, s.blocks.held k = some (t, v) → k.height = t.2
  held_obs : ∀ k t v, s.observations.held k = some (t, v) → k.height = t.2 ∧
    ∃ x e json todo, s.calls t.1 = some x ∧ x.stage = .writing t.2 e (some json) todo
  calls : ∀ c x, s.calls c = some x → BundleOk sha256 chain net s c x.stage
  complete : Complete chain s

/-- A bundle that would have no observation is built only for a height that is archived, or has the
D-parameter of the height before. -/
def MemoryFresh (s : SyncState) : Ev → Prop
  | .build c => ∀ x height e, s.calls c = some x → x.stage = .loop height e →
      s.lastDParameterJson x.service = some (dParameterJson (chain.indexer height).dParameter) →
      Archived sha256 chain net s height ∨ Unchanged chain height
  | _ => True

end Invariant

variable {sha256 : Bytes → Bytes} {chain : Chain} {net : JsString}

theorem obsInv_init : ObsInv sha256 chain net .init where
  inv := inv_init
  closed _ h := by cases h
  held_block _ _ _ h := by cases h
  held_obs _ _ _ h := by cases h
  calls _ _ h := by cases h
  complete _ h := by cases h

/-! ### The observation in force -/

/-- Every observation carries the D-parameter of its height. -/
theorem observedAt_raw {s : SyncState} (hs : Content sha256 chain net s) {height : ℕ} {raw : Bytes}
    (h : ObservedAt s height raw) : raw = dRaw chain height := by
  obtain ⟨k, rfl, hk⟩ := h
  obtain ⟨-, -, -, hraw⟩ := hs.observations.committed k raw hk
  exact hraw

theorem inForce_self {s : SyncState} {height : ℕ} {raw : Bytes} (h : ObservedAt s height raw) :
    InForce s height raw :=
  ⟨height, le_rfl, h, fun g' _ hg hg' => absurd hg (by omega)⟩

/-- The observation in force at the height before, when there is none at the height itself. -/
theorem inForce_succ {s : SyncState} (hs : Content sha256 chain net s) {j : ℕ}
    (h : InForce s j (dRaw chain j)) (heq : dRaw chain j = dRaw chain (j + 1)) :
    InForce s (j + 1) (dRaw chain (j + 1)) := by
  by_cases hself : ∃ raw, ObservedAt s (j + 1) raw
  · obtain ⟨raw, hraw⟩ := hself
    rw [← observedAt_raw hs hraw]
    exact inForce_self hraw
  · obtain ⟨g, hg, hob, hlast⟩ := h
    refine ⟨g, by omega, heq ▸ hob, fun g' raw' hlt hle ho => ?_⟩
    rcases Nat.lt_or_eq_of_le hle with hlt' | rfl
    · exact hlast g' raw' hlt (by omega) ho
    · exact hself ⟨raw', ho⟩

/-- **A new observation at a height that was archived, or is the highest, harms no other height.** -/
theorem inForce_add {s s' : SyncState} (hs : Content sha256 chain net s) {height : ℕ}
    (hold : ∀ g raw, ObservedAt s g raw → ObservedAt s' g raw)
    (hnew : ∀ g raw, ObservedAt s' g raw → ObservedAt s g raw ∨ g = height)
    (hself : ObservedAt s' height (dRaw chain height)) {h' : ℕ} (hf : InForce s h' (dRaw chain h'))
    (hbelow : height ≤ h' → InForce s height (dRaw chain height)) :
    InForce s' h' (dRaw chain h') := by
  obtain ⟨g, hg, hob, hlast⟩ := hf
  by_cases hle : height ≤ h' ∧ g < height
  · -- the observation in force at `height` was the one at `g`, so both carry the same
    obtain ⟨g₀, hg₀, hob₀, hlast₀⟩ := hbelow hle.1
    have hgg : g₀ = g := by
      rcases Nat.lt_trichotomy g₀ g with h | h | h
      · exact absurd hob (hlast₀ g _ h (by omega))
      · exact h
      · exact absurd hob₀ (hlast g₀ _ h (by omega))
    subst hgg
    have heq : dRaw chain height = dRaw chain h' := by
      rw [observedAt_raw hs hob₀, ← observedAt_raw hs hob]
    refine ⟨height, hle.1, heq ▸ hself, fun g' raw' hlt hle' ho => ?_⟩
    rcases hnew g' raw' ho with ho | rfl
    · exact hlast g' raw' (by omega) hle' ho
    · omega
  · refine ⟨g, hg, hold g _ hob, fun g' raw' hlt hle' ho => ?_⟩
    rcases hnew g' raw' ho with ho | rfl
    · exact hlast g' raw' hlt hle' ho
    · exact hle ⟨hle', hlt⟩

/-! ### Steps -/

/-- The other calls have what they had. -/
theorem BundleOk.kept {s s' : SyncState} {c c' h : ℕ} (hk : Kept sha256 chain net s s' (c, h))
    (hne : c' ≠ c) {stage : Stage} (hst : BundleOk sha256 chain net s c' stage) :
    BundleOk sha256 chain net s' c' stage := by
  rcases stage with _ | tip | ⟨height, e⟩ | ⟨height, e, _ | json, todo⟩ | ⟨height, e, json⟩ |
    ⟨height, e⟩ | _
  · trivial
  · trivial
  · trivial
  · exact ⟨hst.1, hst.2.imp_left hk.archived⟩
  · intro b hb
    refine (hst b hb).imp_left fun hseen => ?_
    exact hk.inserted (c', height) (.observation ⟨b.block.key, []⟩)
      (fun he => hne (congrArg Prod.fst he)) hseen
  · trivial
  · trivial
  · trivial

theorem calls_of_kept {s s' : SyncState} (hs : ObsInv sha256 chain net s) {c h : ℕ} {x : Call}
    {stage : Stage} (hk : Kept sha256 chain net s s' (c, h))
    (hc : s'.calls = Function.update s.calls c (some { x with stage := stage }))
    (hst : BundleOk sha256 chain net s' c stage) :
    ∀ c' y, s'.calls c' = some y → BundleOk sha256 chain net s' c' y.stage := by
  intro c' y hy
  rw [hc] at hy
  by_cases hcc : c' = c
  · subst hcc
    rw [Function.update_self] at hy
    cases hy
    exact hst
  · rw [Function.update_of_ne hcc] at hy
    exact (hs.calls c' y hy).kept hk hcc

/-- Nothing was committed: the archive is as complete as it was. -/
theorem complete_of_eq {s s' : SyncState} (h : Complete chain s)
    (hb : s'.blocks.committed = s.blocks.committed)
    (ho : s'.observations.committed = s.observations.committed) : Complete chain s' := by
  intro k hk
  rw [hb] at hk
  have hiff : ∀ g raw, ObservedAt s' g raw ↔ ObservedAt s g raw := fun g raw => by
    rw [ObservedAt, ObservedAt, ho]
  obtain ⟨g, hg, hob, hlast⟩ := h k hk
  exact ⟨g, hg, (hiff g _).mpr hob, fun g' raw' hlt hle hob' =>
    hlast g' raw' hlt hle ((hiff g' raw').mp hob')⟩

/-- A step of a call that changes no table. -/
theorem ObsInv.quiet {s : SyncState} (hs : ObsInv sha256 chain net s) {c : ℕ} {x y : Call}
    {stage : Stage} (hx : s.calls c = some x ∨ s.calls c = none)
    (hn : ∀ height e json todo, x.stage ≠ .writing height e json todo)
    (hinv : Inv sha256 chain net (s.setStage c y stage))
    (hst : BundleOk sha256 chain net (s.setStage c y stage) c stage) :
    ObsInv sha256 chain net (s.setStage c y stage) := by
  have hk : Kept sha256 chain net s (s.setStage c y stage) (c, 0) := by
    refine Kept.refl hs.inv.content ?_ ?_ ?_ ?_ _ <;> rfl
  refine ⟨hinv, fun k hk' j hj => hk.archived (hs.closed k hk' j hj), hs.held_block,
    fun k t v hv => ?_, calls_of_kept hs hk rfl hst, complete_of_eq hs.complete rfl rfl⟩
  obtain ⟨hheight, z, e, json, todo, hz, hzst⟩ := hs.held_obs k t v hv
  have hne : t.1 ≠ c := by
    rintro rfl
    rcases hx with hx | hx
    · rw [hx] at hz
      cases hz
      exact hn _ _ _ _ hzst
    · rw [hx] at hz
      cases hz
  exact ⟨hheight, z, e, json, todo, (Function.update_of_ne hne _ _).trans hz, hzst⟩

/-- A step that changes only what a call remembers, or the watermark. -/
theorem ObsInv.congr {s s' : SyncState} (hs : ObsInv sha256 chain net s)
    (hinv : Inv sha256 chain net s') (hb : s'.blocks = s.blocks)
    (ht : s'.transactions = s.transactions) (hp : s'.positions = s.positions)
    (ho : s'.observations = s.observations) (hc : s'.calls = s.calls) :
    ObsInv sha256 chain net s' := by
  have hk : Kept sha256 chain net s s' (0, 0) := Kept.refl hs.inv.content hb ht hp ho _
  obtain ⟨b, t, p, o, w, l, cs⟩ := s'
  subst hb ht hp ho hc
  refine ⟨hinv, fun k hk' j hj => hk.archived (hs.closed k hk' j hj), hs.held_block, hs.held_obs,
    fun c x hx => ?_, complete_of_eq hs.complete rfl rfl⟩
  have hst := hs.calls c x hx
  rcases hstage : x.stage with _ | tip | ⟨height, e⟩ | ⟨height, e, _ | json, todo⟩ |
    ⟨height, e, json⟩ | ⟨height, e⟩ | _
  all_goals
    rw [hstage] at hst
    exact hst

/-- The bundle that is built, with or without an observation. -/
theorem bundleOk_build {s : SyncState} {c height e : ℕ} {x : Call} {b : Bundle}
    {r : List ObservationRecord × Option JsString} (hb : bundleOf chain net height = .ok b)
    (hr : r = buildBridgeObservationRecords b.block.key (chain.indexer height).dParameter
      (s.lastDParameterJson x.service))
    (hfresh : s.lastDParameterJson x.service =
        some (dParameterJson (chain.indexer height).dParameter) →
      Archived sha256 chain net s height ∨ Unchanged chain height) :
    BundleOk sha256 chain net s c (.writing height e r.2 (b.inserts r.1)) := by
  subst hr
  unfold buildBridgeObservationRecords
  dsimp only
  split_ifs with hlast
  · refine ⟨fun o ho => ?_, hfresh hlast⟩
    rcases mem_inserts.mp ho with h | ⟨t, -, h⟩ | ⟨o', h, -⟩
    · cases h
    · cases h
    · cases h
  · intro b' hb'
    cases hb.symm.trans hb'
    exact Or.inr (mem_inserts.mpr (Or.inr (Or.inr ⟨_, List.mem_singleton.mpr rfl, rfl⟩)))

/-- The rows a statement of a bundle adds are its own. -/
theorem insertStmt_held {s s' : SyncState} {t : ℕ × ℕ} {q : Insert}
    (h : insertStmt sha256 s t q = some s') :
    s'.blocks.committed = s.blocks.committed ∧
    s'.observations.committed = s.observations.committed ∧
    (∀ k t' v, s'.blocks.held k = some (t', v) → s.blocks.held k = some (t', v) ∨
      t' = t ∧ ∃ b, q = .block b ∧ k = b.key) ∧
    (∀ k t' v, s'.observations.held k = some (t', v) → s.observations.held k = some (t', v) ∨
      t' = t ∧ ∃ o, q = .observation o ∧ k = o.block) := by
  rcases q with b | x | o
  · simp only [insertStmt, Option.bind_eq_bind, Option.bind_eq_some_iff] at h
    obtain ⟨tbl, hi, h⟩ := h
    cases h
    refine ⟨insertRow_committed hi, rfl, fun k t' v hv => ?_, fun _ _ _ hv => Or.inl hv⟩
    rcases insertRow_held hi hv with h | ⟨rfl, rfl⟩
    · exact Or.inl h
    · exact Or.inr ⟨rfl, b, rfl, rfl⟩
  · simp only [insertStmt] at h
    split_ifs at h
    · cases h
      exact ⟨rfl, rfl, fun _ _ _ hv => Or.inl hv, fun _ _ _ hv => Or.inl hv⟩
    · cases h
      exact ⟨rfl, rfl, fun _ _ _ hv => Or.inl hv, fun _ _ _ hv => Or.inl hv⟩
  · simp only [insertStmt] at h
    split_ifs at h
    simp only [Option.bind_eq_bind, Option.bind_eq_some_iff] at h
    obtain ⟨tbl, hi, h⟩ := h
    cases h
    refine ⟨rfl, insertRow_committed hi, fun _ _ _ hv => Or.inl hv, fun k t' v hv => ?_⟩
    rcases insertRow_held hi hv with h | ⟨rfl, rfl⟩
    · exact Or.inl h
    · exact Or.inr ⟨rfl, o, rfl, rfl⟩

theorem ObsInv.insert {s s₁ : SyncState} (hs : ObsInv sha256 chain net s) {c height e : ℕ} {x : Call}
    {json : Option JsString} {q : Insert} {todo : List Insert} (hx : s.calls c = some x)
    (hst : x.stage = .writing height e json (q :: todo))
    (hi : insertStmt sha256 s (c, height) q = some s₁) :
    ObsInv sha256 chain net (s₁.setStage c x (.writing height e json todo)) := by
  have hok : StageOk sha256 chain net s c (.writing height e json (q :: todo)) :=
    hst ▸ hs.inv.calls c x hx
  have hbok : BundleOk sha256 chain net s c (.writing height e json (q :: todo)) :=
    hst ▸ hs.calls c x hx
  have hinv := hs.inv.insert (x := x) hok hi
  obtain ⟨-, b, obs, done, hb, ho, hins, -⟩ := hok
  have hq : q ∈ b.inserts obs := by rw [hins]; simp
  obtain ⟨hk, hself, hkeep⟩ := kept_insert hs.inv.content hb ho hq hi
  obtain ⟨-, hcalls, -⟩ := insertStmt_rest hi
  obtain ⟨hbc, hoc, hbh, hoh⟩ := insertStmt_held hi
  have hk' := hk.setStage c x (.writing height e json todo)
  have hc : (s₁.setStage c x (.writing height e json todo)).calls =
      Function.update s.calls c (some { x with stage := .writing height e json todo }) := by
    rw [← hcalls]
    rfl
  refine ⟨hinv, fun k hk₁ j hj => hk'.archived (hs.closed k (hbc ▸ hk₁) j hj), fun k t v hv => ?_,
    fun k t v hv => ?_, calls_of_kept hs hk' hc ?_, complete_of_eq hs.complete hbc hoc⟩
  · rcases hbh k t v hv with h | ⟨rfl, b', rfl, rfl⟩
    · exact hs.held_block k t v h
    · rcases mem_inserts.mp hq with h | ⟨y, -, h⟩ | ⟨o, -, h⟩
      · cases h
        exact (bundleOf_ok hb).1
      · cases h
      · cases h
  · rw [hc]
    rcases hoh k t v hv with h | ⟨rfl, o, rfl, rfl⟩
    · obtain ⟨hheight, z, e', json', todo', hz, hzst⟩ := hs.held_obs k t v h
      refine ⟨hheight, ?_⟩
      by_cases htc : t.1 = c
      · rw [htc, hx] at hz
        cases hz
        rw [hst] at hzst
        cases hzst
        exact ⟨_, _, _, _, by rw [htc, Function.update_self], rfl⟩
      · exact ⟨z, e', json', todo', by rw [Function.update_of_ne htc, hz], hzst⟩
    · rcases json with _ | json
      · exact absurd (List.mem_cons_self) (hbok.1 o)
      · refine ⟨?_, _, _, _, _, Function.update_self _ _ _, rfl⟩
        rcases mem_inserts.mp hq with h | ⟨y, -, h⟩ | ⟨o', hmem, h⟩
        · cases h
        · cases h
        · cases h
          rw [(ho o hmem).1]
          exact (bundleOf_ok hb).1
  · rcases json with _ | json
    · exact ⟨fun o hm => hbok.1 o (List.mem_cons_of_mem _ hm), hbok.2.imp_left hk'.archived⟩
    · intro b' hb'
      rcases hbok b' hb' with hseen | hmem
      · exact Or.inl (hkeep (.observation ⟨b'.block.key, []⟩) hseen)
      · rcases List.mem_cons.mp hmem with h | h
        · subst h
          exact Or.inl hself
        · exact Or.inr h

theorem ObsInv.inForce_archived {s : SyncState} (hs : ObsInv sha256 chain net s) {j : ℕ}
    (h : Archived sha256 chain net s j) : InForce s j (dRaw chain j) := by
  obtain ⟨b, hb, hk, -⟩ := h
  have hf := hs.complete b.block.key (by rw [hk]; rfl)
  rwa [(bundleOf_ok hb).1] at hf

/-- The commit of a bundle without observation. -/
theorem complete_commit_none {s : SyncState} (hs : ObsInv sha256 chain net s) {c height e : ℕ}
    {x : Call} (hx : s.calls c = some x) (hst : x.stage = .writing height e none []) :
    Complete chain (s.commit (c, height)) := by
  have hbok : BundleOk sha256 chain net s c (.writing height e none []) := hst ▸ hs.calls c x hx
  have hok : StageOk sha256 chain net s c (.writing height e none []) := hst ▸ hs.inv.calls c x hx
  -- it holds no observation
  have hview : ∀ k, s.observations.view (c, height) k = s.observations.committed k := by
    refine fun k => Table.view_eq_committed fun v hv => ?_
    obtain ⟨-, y, e', json, todo, hy, hyst⟩ := hs.held_obs k _ v hv
    cases hx.symm.trans hy
    rw [hst] at hyst
    cases hyst
  have hiff : ∀ g raw, ObservedAt (s.commit (c, height)) g raw ↔ ObservedAt s g raw := by
    refine fun g raw => exists_congr fun k => and_congr_right fun _ => ?_
    show s.observations.view (c, height) k = some raw ↔ _
    rw [hview]
  have hsame : ∀ {h raw}, InForce s h raw → InForce (s.commit (c, height)) h raw := by
    rintro h raw ⟨g, hg, hob, hlast⟩
    exact ⟨g, hg, (hiff g raw).mpr hob, fun g' raw' hlt hle ho =>
      hlast g' raw' hlt hle ((hiff g' raw').mp ho)⟩
  intro k hk
  refine hsame ?_
  rcases s.blocks.view_cases (c, height) k with hh | ⟨-, hv⟩
  · rw [hs.held_block k _ _ hh]
    rcases hbok.2 with ha | ⟨j, rfl, heq⟩
    · exact hs.inForce_archived ha
    · exact inForce_succ hs.inv.content (hs.inForce_archived (hok.1 j (Nat.lt_succ_self j))) heq
  · exact hs.complete k (by rw [← hv]; exact hk)

/-- The commit of a bundle with its observation. -/
theorem complete_commit_some (hd : DistinctHashes chain net) {s : SyncState}
    (hs : ObsInv sha256 chain net s) {c height e : ℕ} {x : Call} {json : JsString}
    (hx : s.calls c = some x) (hst : x.stage = .writing height e (some json) []) :
    Complete chain (s.commit (c, height)) := by
  have hbok : BundleOk sha256 chain net s c (.writing height e (some json) []) :=
    hst ▸ hs.calls c x hx
  have hok : StageOk sha256 chain net s c (.writing height e (some json) []) :=
    hst ▸ hs.inv.calls c x hx
  obtain ⟨-, b, obs, done, hb, -, -, -⟩ := hok
  have hkept := kept_commit hd hs.inv.content (c, height)
  have hself : ObservedAt (s.commit (c, height)) height (dRaw chain height) := by
    rcases hbok b hb with hseen | hmem
    · obtain ⟨raw, hraw⟩ := Option.isSome_iff_exists.mp hseen
      have hob : ObservedAt (s.commit (c, height)) height raw :=
        ⟨b.block.key, (bundleOf_ok hb).1, hraw⟩
      exact observedAt_raw hkept.content hob ▸ hob
    · cases hmem
  have hold : ∀ g raw, ObservedAt s g raw → ObservedAt (s.commit (c, height)) g raw := by
    rintro g raw ⟨k, hk, hraw⟩
    exact ⟨k, hk, hkept.observations k raw hraw⟩
  have hnew : ∀ g raw, ObservedAt (s.commit (c, height)) g raw → ObservedAt s g raw ∨ g = height := by
    rintro g raw ⟨k, rfl, hraw⟩
    have hraw : s.observations.view (c, height) k = some raw := hraw
    rcases s.observations.view_cases (c, height) k with hh | ⟨-, hv⟩
    · exact Or.inr (hs.held_obs k _ _ hh).1
    · exact Or.inl ⟨k, rfl, by rw [← hv, hraw]⟩
  intro k hk
  rcases s.blocks.view_cases (c, height) k with hh | ⟨-, hv⟩
  · rw [hs.held_block k _ _ hh]
    exact inForce_self hself
  · have hk' : (s.blocks.committed k).isSome = true := by rw [← hv]; exact hk
    refine inForce_add hs.inv.content hold hnew hself (hs.complete k hk') fun hle => ?_
    exact hs.inForce_archived (hs.closed k hk' height hle)

theorem ObsInv.commit (hd : DistinctHashes chain net) {s : SyncState}
    (hs : ObsInv sha256 chain net s) {c height e : ℕ} {x : Call} {json : Option JsString}
    (hx : s.calls c = some x) (hst : x.stage = .writing height e json []) :
    ObsInv sha256 chain net ((s.commit (c, height)).setStage c x (.written height e json)) := by
  have hk := (kept_commit hd hs.inv.content (c, height)).setStage c x (.written height e json)
  have hinv := hs.inv.commit hd (x := x) (hst ▸ hs.inv.calls c x hx)
  have hcomplete : Complete chain (s.commit (c, height)) := by
    rcases json with _ | json
    · exact complete_commit_none hs hx hst
    · exact complete_commit_some hd hs hx hst
  refine ⟨hinv, fun k hk₁ j hj => ?_,
    fun k t v hv => hs.held_block k t v (Table.unlock_eq_some.mp hv).1, fun k t v hv => ?_,
    calls_of_kept hs hk rfl trivial, complete_of_eq hcomplete rfl rfl⟩
  · rcases s.blocks.view_cases (c, height) k with hh | ⟨-, hv⟩
    · rw [hs.held_block k _ _ hh] at hj
      exact hinv.calls c _ (Function.update_self _ _ _) j hj
    · exact hk.archived (hs.closed k (by rw [← hv]; exact hk₁) j hj)
  · obtain ⟨hv, hne⟩ := Table.unlock_eq_some.mp hv
    obtain ⟨hheight, z, e', json', todo', hz, hzst⟩ := hs.held_obs k t v hv
    have htc : t.1 ≠ c := by
      rintro rfl
      cases hx.symm.trans hz
      rw [hst] at hzst
      cases hzst
      exact hne rfl
    exact ⟨hheight, z, e', json', todo', (Function.update_of_ne htc _ _).trans hz, hzst⟩

theorem ObsInv.abort {s : SyncState} (hs : ObsInv sha256 chain net s) {c height e : ℕ} {x : Call}
    {json : Option JsString} {todo : List Insert} (hx : s.calls c = some x)
    (hst : x.stage = .writing height e json todo)
    (hinv : Inv sha256 chain net ((s.rollback (c, height)).setStage c x .ended)) :
    ObsInv sha256 chain net ((s.rollback (c, height)).setStage c x .ended) := by
  have hk := (kept_rollback hs.inv.content (c, height)).setStage c x .ended
  refine ⟨hinv, fun k hk₁ j hj => hk.archived (hs.closed k hk₁ j hj),
    fun k t v hv => hs.held_block k t v (Table.unlock_eq_some.mp hv).1, fun k t v hv => ?_,
    calls_of_kept hs hk rfl trivial, complete_of_eq hs.complete rfl rfl⟩
  obtain ⟨hv, hne⟩ := Table.unlock_eq_some.mp hv
  obtain ⟨hheight, z, e', json', todo', hz, hzst⟩ := hs.held_obs k t v hv
  have htc : t.1 ≠ c := by
    rintro rfl
    cases hx.symm.trans hz
    rw [hst] at hzst
    cases hzst
    exact hne rfl
  exact ⟨hheight, z, e', json', todo', (Function.update_of_ne htc _ _).trans hz, hzst⟩

/-- A stage outside `putBlockBundle` has no bundle. -/
theorem bundleOk_of_ne {s : SyncState} {c : ℕ} {stage : Stage}
    (h : ∀ height e json todo, stage ≠ .writing height e json todo) :
    BundleOk sha256 chain net s c stage := by
  rcases stage with _ | tip | ⟨height, e⟩ | ⟨height, e, json, todo⟩ | ⟨height, e, json⟩ |
    ⟨height, e⟩ | _
  · trivial
  · trivial
  · trivial
  · exact absurd rfl (h height e json todo)
  · trivial
  · trivial
  · trivial

theorem loopFrom_ne_writing (watermark : Option ℕ) (maxBlocks : ℤ) (tip : ℕ) :
    ∀ height e json todo, loopFrom watermark maxBlocks tip ≠ .writing height e json todo := by
  intro height e json todo h
  unfold loopFrom at h
  dsimp only at h
  split_ifs at h

theorem ObsInv.move (hd : DistinctHashes chain net) {s s' : SyncState}
    (hs : ObsInv sha256 chain net s) {c : ℕ} {x : Call} (hx : s.calls c = some x) {ev : Ev}
    (hfresh : MemoryFresh sha256 chain net s ev) (h : Move sha256 chain net s c x ev s') :
    ObsInv sha256 chain net s' := by
  have hinv := (next_move hd hs.inv hx h).inv
  have hok := hs.inv.calls c x hx
  -- a step between two stages outside `putBlockBundle`
  have hquiet : ∀ {stage}, (∀ height e json todo, x.stage ≠ .writing height e json todo) →
      (∀ height e json todo, stage ≠ .writing height e json todo) →
      StageOk sha256 chain net s c stage → ObsInv sha256 chain net (s.setStage c x stage) :=
    fun hn hn' hst => hs.quiet (Or.inl hx) hn (hs.inv.quiet hst) (bundleOk_of_ne hn')
  rcases h with hst | hst | ⟨hst, hb⟩ | ⟨hst, hb, hr⟩ | ⟨hst, hi⟩ | hst | hst | hst | hst | hst
  · exact hquiet (by simp [hst]) (by simp) trivial
  · exact hquiet (by simp [hst]) (loopFrom_ne_writing _ _ _) (stageOk_loopFrom hs.inv c _ _)
  · exact hquiet (by simp [hst]) (by simp) trivial
  · refine hs.quiet (Or.inl hx) (by simp [hst]) hinv ?_
    rename_i height e b r
    have hbuilt : BundleOk sha256 chain net s c (.writing height e r.2 (b.inserts r.1)) :=
      bundleOk_build hb hr (hfresh x height e hx hst)
    rcases hjson : r.2 with _ | json
    all_goals
      rw [hjson] at hbuilt
      exact hbuilt
  · exact hs.insert hx hst hi
  · exact hs.commit hd hx hst
  · rename_i height e json
    rw [hst] at hok
    have hq : ObsInv sha256 chain net (s.setStage c x (.ingested height e)) :=
      hquiet (by simp [hst]) (by simp) hok
    refine hq.congr hinv ?_ ?_ ?_ ?_ ?_ <;> rfl
  · rename_i height e
    rw [hst] at hok
    have hq : ObsInv sha256 chain net (s.setStage c x
        (if height < e then .loop (height + 1) e else .ended)) := by
      refine hquiet (by simp [hst]) (by split_ifs <;> simp) ?_
      split_ifs
      · exact fun j hj => hok j (Nat.lt_succ_iff.mp hj)
      · trivial
    refine hq.congr hinv ?_ ?_ ?_ ?_ ?_ <;> rfl
  · exact hs.abort hx hst hinv
  · exact hquiet hst (by simp) trivial

theorem ObsInv.step (hd : DistinctHashes chain net) {s s' : SyncState}
    (hs : ObsInv sha256 chain net s) {ev : Ev} (hfresh : MemoryFresh sha256 chain net s ev)
    (h : step sha256 chain net s ev = some s') : ObsInv sha256 chain net s' := by
  have hinv := (next_step hd hs.inv h).inv
  rcases step_cases h with ⟨c, service, maxBlocks, -, hc, rfl⟩ | ⟨x, hx, hm⟩
  · exact hs.quiet (c := c) (x := ⟨service, maxBlocks, .called⟩)
      (y := ⟨service, maxBlocks, .called⟩) (Or.inr hc) (by simp) hinv trivial
  · exact hs.move hd hx hfresh hm

/-- **The D-parameter observations.** In every run in which no bundle is built without observation
for a height that is not archived and has another D-parameter than the height before, at every
archived height the observation in force carries its D-parameter. -/
theorem observations_complete (sha256 : Bytes → Bytes) {chain : Chain} {net : JsString}
    (hd : DistinctHashes chain net) {es : List Ev} {s : SyncState}
    (hfresh : Along (step sha256 chain net) (MemoryFresh sha256 chain net) es .init)
    (h : run (step sha256 chain net) es .init = some s) : Complete chain s :=
  (run_inv_along (I := ObsInv sha256 chain net) (fun _ _ _ hI hP hst => hI.step hd hP hst) es _ s
    obsInv_init hfresh h).complete

/-! ### A value that changes and changes back -/

/-- `MemoryFresh`, as it can be checked without the archive. -/
def forgets (chain : Chain) (s : SyncState) : Ev → Bool
  | .build c => (s.calls c).all fun x =>
    match x.stage with
    | .loop 0 _ => s.lastDParameterJson x.service ≠ some (dParameterJson (chain.indexer 0).dParameter)
    | .loop (j + 1) _ =>
      s.lastDParameterJson x.service ≠ some (dParameterJson (chain.indexer (j + 1)).dParameter) ∨
        dRaw chain j = dRaw chain (j + 1)
    | _ => true
  | _ => true

theorem memoryFresh_of_forgets {s : SyncState} {ev : Ev} (h : forgets chain s ev = true) :
    MemoryFresh sha256 chain net s ev := by
  rcases ev with _ | _ | _ | c | _ | _ | _ | _ | _
  case build =>
    intro x height e hx hst hlast
    rw [forgets, hx, Option.all_some, hst] at h
    rcases height with _ | j
    · exact absurd hlast (of_decide_eq_true h)
    · rcases of_decide_eq_true h with hne | heq
      · exact absurd hlast hne
      · exact Or.inr ⟨j, rfl, heq⟩
  all_goals trivial

/-- The value of the height 1 is another one than that of the others. -/
def backChain : Chain := smallChain fun h => ⟨if h = 1 then 2 else 1, 0⟩

/-- A call that ingests the next height and ends. -/
def ingestNext (c service tip : ℕ) (statements : ℕ) : List Ev :=
  [.call c service 1, .target c tip, .readCursor c, .build c] ++
    List.replicate statements (.insert c) ++ [.commit c, .resolve c, .mark c]

/-- The second instance ingests the heights 1 and 2. -/
theorem observations_complete_oneInstance :
    ∃ s, run (step sha256OfByte backChain [109])
        (ingestNext 0 0 2 3 ++ ingestNext 1 1 2 3 ++ ingestNext 2 1 2 3) .init = some s ∧
      s.watermark = some 2 ∧ Complete backChain s := by
  have hr : (run (step sha256OfByte backChain [109])
      (ingestNext 0 0 2 3 ++ ingestNext 1 1 2 3 ++ ingestNext 2 1 2 3) .init).map
      (fun s => s.watermark) = some (some 2) := by
    decide +kernel
  have hfresh : Along (step sha256OfByte backChain [109]) (fun s ev => forgets backChain s ev = true)
      (ingestNext 0 0 2 3 ++ ingestNext 1 1 2 3 ++ ingestNext 2 1 2 3) .init := by
    decide +kernel
  obtain ⟨s, hs, hw⟩ := Option.map_eq_some_iff.mp hr
  exact ⟨s, hs, hw, observations_complete sha256OfByte (distinctHashes_smallChain _ _)
    (hfresh.mono fun _ _ h => memoryFresh_of_forgets h) hs⟩

/-- The block of a height of `backChain`. -/
def backKey (height : ℕ) : BlockKey := ⟨[109], height, hexToBuf (hexNoPrefix (digitHash height))⟩

theorem bundleOf_backChain {b : Bundle} (h : bundleOf backChain [109] 2 = .ok b) :
    b.block.key = backKey 2 := by
  have hk : (bundleOf backChain [109] 2).map (·.block.key) = .ok (backKey 2) := by
    decide +kernel
  rw [h] at hk
  exact Except.ok.inj hk

/-- The first instance ingests the heights 0 and 2, the second one the height 1: the value of the
height 2 is the one the first instance remembers, and is not stored. -/
theorem twoInstances_lose :
    ∃ s, run (step sha256OfByte backChain [109])
        (ingestNext 0 0 2 3 ++ ingestNext 1 1 2 3 ++ ingestNext 2 0 2 2) .init = some s ∧
      ¬ Complete backChain s := by
  have hr : (run (step sha256OfByte backChain [109])
      (ingestNext 0 0 2 3 ++ ingestNext 1 1 2 3 ++ ingestNext 2 0 2 2) .init).map
      (fun s => ((s.blocks.committed (backKey 2)).isSome, s.observations.committed (backKey 1),
        s.observations.committed (backKey 2))) = some (true, some (dRaw backChain 1), none) := by
    decide +kernel
  obtain ⟨s, hs, hrows⟩ := Option.map_eq_some_iff.mp hr
  simp only [Prod.mk.injEq] at hrows
  obtain ⟨hblock, hone, htwo⟩ := hrows
  refine ⟨s, hs, fun hc => ?_⟩
  have hcontent : Content sha256OfByte backChain [109] s :=
    (run_inv (I := Inv sha256OfByte backChain [109]) (fun _ _ _ hI hst =>
      (next_step (distinctHashes_smallChain _ _) hI hst).inv) _ _ s inv_init hs).content
  obtain ⟨g, hg, hob, hlast⟩ := hc (backKey 2) hblock
  -- nothing is stored at the height 2, and the value at the height 1 is another one
  have hg1 : 1 ≤ g := by
    by_contra hlt
    exact hlast 1 _ (by omega) (by decide) ⟨backKey 1, rfl, hone⟩
  have hne : dRaw backChain 2 ≠ dRaw backChain 1 := by
    decide +kernel
  rcases Nat.lt_or_eq_of_le hg with hlt | rfl
  · obtain rfl : g = 1 := by
      have h2 : g < 2 := hlt
      omega
    exact hne (observedAt_raw hcontent hob)
  · obtain ⟨k, hk, hraw⟩ := hob
    obtain ⟨b, hb, hkey, -⟩ := hcontent.observations.committed k _ hraw
    rw [hk] at hb
    rw [← hkey, bundleOf_backChain hb, htwo] at hraw
    cases hraw

end UmbraDB.Archive.Observations
