import UmbraDB.Archive.Rollover
import Mathlib.Data.List.Nodup
import Mathlib.Logic.Function.Basic
import Mathlib.Tactic.Common

/-! # Chain archive: a rollover preserves the archive

The statements of a rollover touch three tables of the catalog, the `DEFAULT` partitions, and leave
them where they are; only their names and places change, and at the end three empty tables come
behind. So the rows of the three partitioned tables are the same lists before and after.

* `rollover_rejects` : a rollover that rejects has committed nothing.
* `rollover_succeeds` : one that succeeds leads from a well-formed catalog to a well-formed one with
  the same rows, in which the bucket has its partitions.
* `rollover_preserves` : both, from any reachable catalog, and a repetition changes nothing. -/

namespace UmbraDB.Archive.Preserve

open UmbraDB.Js.Text UmbraDB.Js.Numerals UmbraDB.Js.Number UmbraDB.Lib.Runs
open UmbraDB.Archive.Rollover

variable {δ : Type}

/-! ### The connection -/

theorem bind_ok {α β : Type} {x : M δ α} {f : α → M δ β} {c c' : Conn δ} {b : β}
    (h : (x >>= f) c = (.ok b, c')) : ∃ a c₁, x c = (.ok a, c₁) ∧ f a c₁ = (.ok b, c') := by
  have h : M.bind x f c = (.ok b, c') := h
  unfold M.bind at h
  split at h
  · rename_i a c₁ hx
    exact ⟨a, c₁, hx, h⟩
  · cases h

/-- In a transaction, the code neither commits nor ends it. -/
def Pending {α : Type} (x : M δ α) : Prop :=
  ∀ c, c.tx ≠ .idle → (x c).2.committed = c.committed ∧ (x c).2.tx ≠ .idle

/-- Outside of a transaction, the code only reads. -/
def Reads {α : Type} (x : M δ α) : Prop := ∀ c, c.tx = .idle → (x c).2 = c

theorem Pending.bind {α β : Type} {x : M δ α} {f : α → M δ β} (hx : Pending x)
    (hf : ∀ a, Pending (f a)) : Pending (x >>= f) := by
  intro c hc
  obtain ⟨hcom, htx⟩ := hx c hc
  show (M.bind x f c).2.committed = c.committed ∧ (M.bind x f c).2.tx ≠ .idle
  unfold M.bind
  split
  · rename_i a c₁ h
    rw [h] at hcom htx
    obtain ⟨hcom', htx'⟩ := hf a c₁ htx
    exact ⟨hcom'.trans hcom, htx'⟩
  · rename_i e c₁ h
    rw [h] at hcom htx
    exact ⟨hcom, htx⟩

theorem Reads.bind {α β : Type} {x : M δ α} {f : α → M δ β} (hx : Reads x)
    (hf : ∀ a, Reads (f a)) : Reads (x >>= f) := by
  intro c hc
  have hsame := hx c hc
  show (M.bind x f c).2 = c
  unfold M.bind
  split
  · rename_i a c₁ h
    rw [h] at hsame
    cases hsame
    exact hf a _ hc
  · rename_i e c₁ h
    rw [h] at hsame
    exact hsame

theorem pending_pure {α : Type} (a : α) : Pending (δ := δ) (M.pure a) := fun _ hc => ⟨rfl, hc⟩

theorem reads_pure {α : Type} (a : α) : Reads (δ := δ) (M.pure a) := fun _ _ => rfl

theorem reads_throw {α : Type} (e : RolloverError) : Reads (δ := δ) (M.throw (α := α) e) :=
  fun _ _ => rfl

theorem pending_queryFailed {α : Type} : Pending (δ := δ) (queryFailed (α := α)) := by
  intro c hc
  unfold queryFailed
  split
  · rename_i htx
    exact absurd htx hc
  · exact ⟨rfl, by simp⟩

theorem reads_queryFailed {α : Type} : Reads (δ := δ) (queryFailed (α := α)) := by
  intro c hc
  unfold queryFailed
  rw [hc]

variable {fails : Query → Bool}

theorem reads_select {α : Type} (q : Query) (f : Schema δ → Option α) :
    Reads (select fails q f) := by
  intro c hc
  unfold select
  rw [hc]
  split
  · split
    · rfl
    · exact reads_queryFailed c hc
  · rename_i htx _
    cases htx
  · exact reads_queryFailed c hc

theorem pending_select {α : Type} (q : Query) (f : Schema δ → Option α) :
    Pending (select fails q f) := by
  intro c hc
  unfold select
  split
  · rename_i htx _
    exact absurd htx hc
  · split
    · exact ⟨rfl, hc⟩
    · exact pending_queryFailed c hc
  · exact pending_queryFailed c hc

theorem pending_alter (q : Query) (d : Ddl) : Pending (δ := δ) (alter fails q d) := by
  intro c hc
  unfold alter
  split
  · rename_i htx _
    exact absurd htx hc
  · split
    · exact ⟨rfl, by simp⟩
    · exact pending_queryFailed c hc
  · exact pending_queryFailed c hc

/-- The statement of a transaction has succeeded. -/
theorem alter_ok {q : Query} {d : Ddl} {s w : Schema δ} {c : Conn δ}
    (h : alter fails q d ⟨s, .active w⟩ = (.ok (), c)) :
    ∃ w', d.exec w = some w' ∧ c = ⟨s, .active w'⟩ := by
  unfold alter at h
  dsimp only at h
  split at h
  · rename_i htx _
    cases htx
  · rename_i w₁ htx _
    cases htx
    split at h
    · rename_i w' hw
      cases h
      exact ⟨w', hw, rfl⟩
    · cases h
  · cases h

theorem select_ok {α : Type} {q : Query} {f : Schema δ → Option α} {s w : Schema δ} {c : Conn δ}
    {a : α} (h : select fails q f ⟨s, .active w⟩ = (.ok a, c)) :
    f w = some a ∧ c = ⟨s, .active w⟩ := by
  unfold select at h
  dsimp only at h
  split at h
  · rename_i htx _
    cases htx
  · rename_i w₁ htx _
    cases htx
    split at h
    · rename_i a' ha
      cases h
      exact ⟨ha, rfl⟩
    · cases h
  · cases h

theorem pending_dropFkIfAny (t : RolloverTable) : Pending (δ := δ) (dropFkIfAny fails t) := by
  refine (pending_select _ _).bind fun hasFk => ?_
  split_ifs
  · exact pending_alter _ _
  · exact pending_pure _

theorem pending_attachStaging (t : RolloverTable) (suffix : JsString) (lo hi : ℕ) :
    Pending (δ := δ) (attachStaging fails t suffix lo hi) :=
  (pending_alter _ _).bind fun _ => pending_alter _ _

theorem pending_rolloverSteps (suffix : JsString) (lo hi : ℕ) :
    Pending (δ := δ) (rolloverSteps fails suffix lo hi) := by
  refine (pending_alter _ _).bind fun _ => (pending_alter _ _).bind fun _ =>
    (pending_dropFkIfAny _).bind fun _ => (pending_dropFkIfAny _).bind fun _ =>
    (pending_alter _ _).bind fun _ => (pending_alter _ _).bind fun _ =>
    (pending_alter _ _).bind fun _ => (pending_alter _ _).bind fun _ =>
    (pending_attachStaging _ _ _ _).bind fun _ => (pending_attachStaging _ _ _ _).bind fun _ =>
    (pending_attachStaging _ _ _ _).bind fun _ => (pending_alter _ _).bind fun _ =>
    (pending_alter _ _).bind fun _ => pending_alter _ _

theorem reads_settle {α : Type} (a : Except RolloverError α) : Reads (δ := δ) (settle a) := by
  rcases a with e | a
  · exact reads_throw e
  · exact reads_pure a

theorem reads_rolloverAlreadyApplied (suffix : JsString) (lo hi : ℕ) :
    Reads (δ := δ) (rolloverAlreadyApplied fails suffix lo hi) :=
  (reads_select _ _).bind fun _ => (reads_select _ _).bind fun _ =>
    (reads_select _ _).bind fun _ => reads_settle _

theorem reads_assertDefaultSpanFitsOneBucket (t : RolloverTable) (lo hi : ℕ) :
    Reads (δ := δ) (assertDefaultSpanFitsOneBucket fails t lo hi) := by
  refine (reads_select _ _).bind fun span => ?_
  split
  · exact reads_pure _
  · split_ifs
    · exact reads_throw _
    · exact reads_pure _

/-- Outside of a transaction, a query that succeeds has read the committed catalog. -/
theorem select_idle_ok {α : Type} {q : Query} {f : Schema δ → Option α} {s : Schema δ}
    {c : Conn δ} {a : α} (h : select fails q f ⟨s, .idle⟩ = (.ok a, c)) :
    f s = some a ∧ c = ⟨s, .idle⟩ := by
  unfold select at h
  dsimp only at h
  split at h
  · split at h
    · rename_i a' ha
      cases h
      exact ⟨ha, rfl⟩
    · cases h
  · rename_i htx _
    cases htx
  · cases h

theorem settle_ok {α : Type} {x : Except RolloverError α} {c c' : Conn δ} {a : α}
    (h : settle x c = (.ok a, c')) : x = .ok a ∧ c' = c := by
  rcases x with e | a'
  · cases h
  · cases h
    exact ⟨rfl, rfl⟩

theorem byTable_eq (f : RolloverTable → Option JsString) :
    byTable (f .blocks) (f .transactions) (f .bridgeObservations) = f := by
  funext t
  rcases t with _ | _ | _
  · rfl
  · rfl
  · rfl

theorem rolloverAlreadyApplied_ok {suffix : JsString} {lo hi : ℕ} {s : Schema δ} {c : Conn δ}
    {a : Bool} (h : rolloverAlreadyApplied fails suffix lo hi ⟨s, .idle⟩ = (.ok a, c)) :
    alreadyApplied (fun t => boundOf s t (partitionName t suffix)) (Bound.range lo hi).expr =
      .ok a ∧ c = ⟨s, .idle⟩ := by
  obtain ⟨b, c₁, hselb, h⟩ := bind_ok h
  obtain ⟨hb, rfl⟩ := select_idle_ok hselb
  obtain ⟨x, c₂, hselx, h⟩ := bind_ok h
  obtain ⟨hx, rfl⟩ := select_idle_ok hselx
  obtain ⟨o, c₃, hselo, h⟩ := bind_ok h
  obtain ⟨ho, rfl⟩ := select_idle_ok hselo
  cases hb
  cases hx
  cases ho
  have hfun := byTable_eq fun t => boundOf s t (partitionName t suffix)
  rw [← hfun]
  exact settle_ok h

/-- The code that comes after reading: an error leaves everything as it is. -/
theorem Reads.error {α β : Type} {x : M δ α} (hx : Reads x) {f : α → M δ β} {s : Schema δ}
    (hf : ∀ a e c, f a ⟨s, .idle⟩ = (.error e, c) → c.committed = s) {e : RolloverError}
    {c : Conn δ} (h : (x >>= f) ⟨s, .idle⟩ = (.error e, c)) : c.committed = s := by
  have hsame := hx ⟨s, .idle⟩ rfl
  have h : M.bind x f ⟨s, .idle⟩ = (.error e, c) := h
  unfold M.bind at h
  split at h
  · rename_i a c₁ hxc
    rw [hxc] at hsame
    cases hsame
    exact hf a e c h
  · rename_i e' c₁ hxc
    rw [hxc] at hsame
    cases hsame
    cases h
    rfl

/-- An error in the transaction leaves what is committed. -/
theorem transaction_error {lost : Bool} {suffix : JsString} {lo hi : ℕ} {s : Schema δ}
    {e : RolloverError} {c : Conn δ}
    (h : M.onError (do rolloverSteps fails suffix lo hi; commit fails) (rollback lost)
      ⟨s, .active s⟩ = (.error e, c)) : c.committed = s := by
  have hrollback : ∀ c' : Conn δ, (rollback lost c').2.committed = c'.committed := by
    intro c'
    unfold rollback
    split_ifs
    · rfl
    · rfl
  have hpend := @pending_rolloverSteps δ fails suffix lo hi ⟨s, .active s⟩
    (by simp)
  unfold M.onError at h
  split at h
  · cases h
  · rename_i e' c₁ hx
    cases h
    rw [hrollback]
    have hx : M.bind (rolloverSteps fails suffix lo hi) (fun _ => commit fails) ⟨s, .active s⟩ =
      (.error e, c₁) := hx
    unfold M.bind at hx
    split at hx
    · rename_i a c₂ hsteps
      rw [hsteps] at hpend
      have hx : commit fails c₂ = (.error e, c₁) := hx
      unfold commit at hx
      split at hx
      · cases hx
      · cases hx
      · cases hx
      · have hq := pending_queryFailed (α := Unit) c₂ hpend.2
        rw [hx] at hq
        exact hq.1.trans hpend.1
    · rename_i e₂ c₂ hsteps
      cases hx
      rw [hsteps] at hpend
      exact hpend.1

/-- **A rollover that rejects** has committed nothing. -/
theorem rollover_rejects {lost : Bool} {schema : JsString} {bucket : RolloverBucket}
    {s : Schema δ} {e : RolloverError}
    (h : (rolloverDefaultPartition fails lost schema bucket s).1 = .error e) :
    (rolloverDefaultPartition fails lost schema bucket s).2 = s := by
  unfold rolloverDefaultPartition at h ⊢
  rcases hv : validate schema bucket with e' | ⟨lo, hi⟩
  · rfl
  simp only [hv] at h ⊢
  split_ifs at h ⊢ with hr
  · rfl
  rcases hout : onReserved fails lost bucket.suffix lo hi ⟨s, .idle⟩ with ⟨res, c⟩
  simp only [hout] at h ⊢
  subst h
  refine (reads_rolloverAlreadyApplied _ _ _).error (fun applied e₁ c₁ h₁ => ?_) hout
  split_ifs at h₁
  · cases h₁
  refine (reads_assertDefaultSpanFitsOneBucket _ _ _).error (fun _ e₂ c₂ h₂ => ?_) h₁
  refine (reads_assertDefaultSpanFitsOneBucket _ _ _).error (fun _ e₃ c₃ h₃ => ?_) h₂
  refine (reads_assertDefaultSpanFitsOneBucket _ _ _).error (fun _ e₄ c₄ h₄ => ?_) h₃
  have h₄ : M.bind (begin fails) (fun _ => M.onError
      (do rolloverSteps fails bucket.suffix lo hi; commit fails) (rollback lost)) ⟨s, .idle⟩ =
      (.error e₄, c₄) := h₄
  unfold M.bind at h₄
  split at h₄
  · rename_i a c₅ hbegin
    obtain rfl : c₅ = ⟨s, .active s⟩ := by
      unfold begin at hbegin
      dsimp only at hbegin
      split at hbegin
      · cases hbegin
        rfl
      · rename_i htx _
        cases htx
      · cases hbegin
    exact transaction_error h₄
  · rename_i e₅ c₅ hbegin
    cases h₄
    unfold begin at hbegin
    dsimp only at hbegin
    split at hbegin
    · cases hbegin
    · cases hbegin
    · cases hbegin
      rfl

/-! ### The catalog during the rollover -/

/-- The catalog is one of three range-partitioned tables, and every row is where it belongs. -/
structure WellFormed (s : Schema δ) : Prop where
  names : (s.tables.map (·.name)).Nodup
  default : ∀ t, ∃ x ∈ s.tables, x.name = defaultName t ∧ x.place = some (t, .default)
  unique : ∀ x ∈ s.tables, ∀ t, x.place = some (t, .default) → x.name = defaultName t
  disjoint : ∀ x ∈ s.tables, ∀ y ∈ s.tables, ∀ t lo hi lo' hi', x.place = some (t, .range lo hi) →
    y.place = some (t, .range lo' hi') → x = y ∨ hi ≤ lo' ∨ hi' ≤ lo
  inRange : ∀ x ∈ s.tables, ∀ t lo hi, x.place = some (t, .range lo hi) →
    ∀ r ∈ x.rows, lo ≤ r.key.height ∧ r.key.height < hi
  inDefault : ∀ x ∈ s.tables, ∀ t, x.place = some (t, .default) → ∀ r ∈ x.rows,
    ∀ y ∈ s.tables, ∀ lo hi, y.place = some (t, .range lo hi) →
      ¬ (lo ≤ r.key.height ∧ r.key.height < hi)
  refs : ∀ t, t ≠ .blocks → ∀ r ∈ s.rows t, hasBlock s r = true

/-- The table, with another one for each `DEFAULT` partition. -/
def moved (f : RolloverTable → Table δ) (x : Table δ) : Table δ :=
  match x.place with
  | some (t, .default) => f t
  | _ => x

/-- The catalog `u` has the tables of `s`, with the tables `f` for the `DEFAULT` partitions. -/
structure Stage (s : Schema δ) (f : RolloverTable → Table δ) (u : Schema δ) : Prop where
  tables : u.tables = s.tables.map (moved f)
  names : (u.tables.map (·.name)).Nodup

theorem moved_default {f : RolloverTable → Table δ} {x : Table δ} {t : RolloverTable}
    (h : x.place = some (t, .default)) : moved f x = f t := by
  unfold moved
  rw [h]

theorem moved_of_ne {f : RolloverTable → Table δ} {x : Table δ}
    (h : ∀ t, x.place ≠ some (t, .default)) : moved f x = x := by
  unfold moved
  split
  · rename_i t hx
    exact absurd hx (h t)
  · rfl

/-- The `DEFAULT` partitions of a catalog. -/
def IsDefaults (s : Schema δ) (D : RolloverTable → Table δ) : Prop :=
  ∀ t, D t ∈ s.tables ∧ (D t).name = defaultName t ∧ (D t).place = some (t, .default)

theorem WellFormed.defaults {s : Schema δ} (hs : WellFormed s) : ∃ D, IsDefaults s D := by
  choose D hmem hname hplace using hs.default
  exact ⟨D, fun t => ⟨hmem t, hname t, hplace t⟩⟩

/-- There is one `DEFAULT` partition only. -/
theorem WellFormed.default_eq {s : Schema δ} (hs : WellFormed s) {D : RolloverTable → Table δ}
    (hD : IsDefaults s D) {x : Table δ} (hx : x ∈ s.tables) {t : RolloverTable}
    (h : x.place = some (t, .default)) : x = D t :=
  List.inj_on_of_nodup_map hs.names hx (hD t).1 ((hs.unique x hx t h).trans (hD t).2.1.symm)

theorem WellFormed.stage {s : Schema δ} (hs : WellFormed s) {D : RolloverTable → Table δ}
    (hD : IsDefaults s D) : Stage s D s := by
  refine ⟨?_, hs.names⟩
  have hsame : ∀ x ∈ s.tables, moved D x = x := by
    intro x hx
    by_cases hdef : ∃ t, x.place = some (t, .default)
    · obtain ⟨t, ht⟩ := hdef
      rw [moved_default ht, hs.default_eq hD hx ht]
    · exact moved_of_ne fun t ht => hdef ⟨t, ht⟩
  rw [List.map_congr_left hsame, List.map_id']

/-- The table of a name. -/
theorem find_of_mem {u : Schema δ} (hnd : (u.tables.map (·.name)).Nodup) {x : Table δ}
    (hx : x ∈ u.tables) : u.find x.name = some x := by
  have hsome : (u.find x.name).isSome = true := by
    unfold Schema.find
    rw [List.find?_isSome]
    exact ⟨x, hx, by simp⟩
  obtain ⟨y, hy⟩ := Option.isSome_iff_exists.mp hsome
  have hname : y.name = x.name := by simpa using List.find?_some hy
  rw [hy, List.inj_on_of_nodup_map hnd (List.mem_of_find?_eq_some hy) hx hname]

variable {s u u' : Schema δ} {D f : RolloverTable → Table δ} {t : RolloverTable}

theorem Stage.mem (hst : Stage s f u) (hD : IsDefaults s D) (t : RolloverTable) :
    f t ∈ u.tables := by
  rw [hst.tables]
  exact List.mem_map.mpr ⟨D t, (hD t).1, moved_default (hD t).2.2⟩

/-- A statement on the table that `f` has for `t` is one on `f`. -/
theorem Stage.modify (hst : Stage s f u) (hD : IsDefaults s D) (t : RolloverTable)
    (g : Table δ → Table δ) :
    (u.modify (f t).name g).tables = s.tables.map (moved (Function.update f t (g (f t)))) := by
  have hnd := hst.names
  rw [hst.tables, List.map_map] at hnd
  unfold Schema.modify
  dsimp only
  rw [hst.tables, List.map_map]
  refine List.map_congr_left fun x hx => ?_
  rw [Function.comp_apply]
  by_cases hdef : ∃ t', x.place = some (t', .default)
  · obtain ⟨t', ht'⟩ := hdef
    rw [moved_default ht', moved_default ht']
    by_cases htt : t' = t
    · subst htt
      rw [if_pos rfl, Function.update_self]
    · have hne : (f t').name ≠ (f t).name := by
        intro heq
        have hxD := List.inj_on_of_nodup_map hnd hx (hD t).1 (by
          simp only [Function.comp_apply]
          rw [moved_default ht', moved_default (hD t).2.2]
          exact heq)
        rw [hxD, (hD t).2.2] at ht'
        cases ht'
        exact htt rfl
      rw [if_neg hne, Function.update_of_ne htt]
  · have hx' : ∀ f : RolloverTable → Table δ, moved f x = x :=
      fun f => moved_of_ne fun t ht => hdef ⟨t, ht⟩
    rw [hx', hx']
    have hne : x.name ≠ (f t).name := by
      intro heq
      have hxD := List.inj_on_of_nodup_map hnd hx (hD t).1 (by
        simp only [Function.comp_apply]
        rw [hx', moved_default (hD t).2.2]
        exact heq)
      exact hdef ⟨t, hxD ▸ (hD t).2.2⟩
    rw [if_neg hne]

/-- A statement that leaves the name. -/
theorem Stage.keep (hst : Stage s f u) (hD : IsDefaults s D) (t : RolloverTable)
    {g : Table δ → Table δ} (hg : ∀ x, (g x).name = x.name) :
    Stage s (Function.update f t (g (f t))) (u.modify (f t).name g) := by
  refine ⟨hst.modify hD t g, ?_⟩
  have hsame : (u.modify (f t).name g).tables.map (·.name) = u.tables.map (·.name) := by
    unfold Schema.modify
    rw [List.map_map]
    refine List.map_congr_left fun x _ => ?_
    rw [Function.comp_apply]
    split_ifs
    · exact hg x
    · rfl
  rw [hsame]
  exact hst.names

/-- A renaming. -/
theorem Stage.rename (hst : Stage s f u) (hD : IsDefaults s D) (t : RolloverTable)
    {new : JsString} (hnew : u.nameTaken new = false) :
    Stage s (Function.update f t { f t with name := new })
      (u.modify (f t).name fun x => { x with name := new }) := by
  refine ⟨hst.modify hD t _, ?_⟩
  have hfree : ∀ x ∈ u.tables, x.name ≠ new := by
    intro x hx heq
    rw [Schema.nameTaken, Bool.or_eq_false_iff, List.any_eq_false] at hnew
    exact hnew.1 x hx (by simpa using heq)
  have hmap : (u.modify (f t).name fun x => { x with name := new }).tables.map (·.name) =
      (u.tables.map (·.name)).map fun n => if n = (f t).name then new else n := by
    unfold Schema.modify
    rw [List.map_map, List.map_map]
    refine List.map_congr_left fun x _ => ?_
    simp only [Function.comp_apply]
    split_ifs
    · rfl
    · rfl
  rw [hmap]
  refine hst.names.map_on fun a ha b hb hab => ?_
  obtain ⟨x, hx, rfl⟩ := List.mem_map.mp ha
  obtain ⟨y, hy, rfl⟩ := List.mem_map.mp hb
  split_ifs at hab with h₁ h₂
  · exact h₁.trans h₂.symm
  · exact absurd hab.symm (hfree y hy)
  · exact absurd hab (hfree x hx)
  · exact hab

/-! ### The statements -/

theorem Stage.find (hst : Stage s f u) (hD : IsDefaults s D) (t : RolloverTable) :
    u.find (f t).name = some (f t) := find_of_mem hst.names (hst.mem hD t)

theorem Stage.detach (hst : Stage s f u) (hD : IsDefaults s D) (hn : (f t).name = defaultName t)
    (h : (Ddl.detach t).exec u = some u') :
    Stage s (Function.update f t { f t with place := none }) u' := by
  rw [Ddl.exec, ← hn, hst.find hD t, Option.bind_eq_bind, Option.bind_some] at h
  split_ifs at h
  cases h
  exact hst.keep (g := fun x => { x with place := none }) hD t fun _ => rfl

theorem Stage.dropFk (hst : Stage s f u) (hD : IsDefaults s D) (hn : (f t).name = defaultName t)
    (h : (Ddl.dropFk t).exec u = some u') :
    Stage s (Function.update f t { f t with hasFk := false }) u' := by
  rw [Ddl.exec, ← hn, hst.find hD t, Option.bind_eq_bind, Option.bind_some] at h
  split_ifs at h
  cases h
  exact hst.keep (g := fun x => { x with hasFk := false }) hD t fun _ => rfl

theorem Stage.renamed (hst : Stage s f u) (hD : IsDefaults s D) {old new : JsString}
    (hn : (f t).name = old) (h : (Ddl.rename old new).exec u = some u') :
    Stage s (Function.update f t { f t with name := new }) u' := by
  rw [Ddl.exec, ← hn, hst.find hD t, Option.bind_eq_bind, Option.bind_some] at h
  split_ifs at h with hnew
  cases h
  exact hst.rename hD t (Bool.not_eq_true _ ▸ hnew)

/-- What the server has checked for the bucket. -/
def Fits (s : Schema δ) (t : RolloverTable) (rows : List (Row δ)) (lo hi : ℕ) : Prop :=
  lo < hi ∧ (∀ r ∈ rows, lo ≤ r.key.height ∧ r.key.height < hi) ∧
    ∀ y ∈ s.tables, ∀ lo' hi', y.place = some (t, .range lo' hi') → hi ≤ lo' ∨ hi' ≤ lo

theorem Stage.attach (hst : Stage s f u) (hD : IsDefaults s D) {name : JsString} {lo hi : ℕ}
    (hn : (f t).name = name) (h : (Ddl.attach t name lo hi).exec u = some u') :
    Fits s t (f t).rows lo hi ∧ Stage s (Function.update f t
      { f t with place := some (t, .range lo hi), hasFk := decide (t ≠ .blocks) }) u' := by
  rw [Ddl.exec, ← hn, hst.find hD t, Option.bind_eq_bind, Option.bind_some] at h
  split_ifs at h with hatt
  cases h
  have hkeep := hst.keep (g := fun x => { x with
    place := some (t, .range lo hi), hasFk := decide (t ≠ .blocks) }) hD t fun _ => rfl
  refine ⟨?_, hkeep⟩
  unfold attachable at hatt
  simp only [Bool.and_eq_true, decide_eq_true_eq, List.all_eq_true] at hatt
  obtain ⟨⟨⟨⟨-, hlt⟩, hparts⟩, hrows⟩, -⟩ := hatt
  refine ⟨hlt, fun r hr => ?_, fun y hy lo' hi' hplace => ?_⟩
  · have hcov := hrows r hr
    rw [Bound.covers, Bool.and_eq_true, decide_eq_true_eq, decide_eq_true_eq] at hcov
    exact hcov
  · have hmem : y ∈ u.partitions t := by
      refine List.mem_filter.mpr ⟨?_, by rw [hplace]; simp⟩
      rw [hst.tables]
      refine List.mem_map.mpr ⟨y, hy, moved_of_ne fun t' ht' => ?_⟩
      rw [hplace] at ht'
      cases ht'
    have hdis := hparts y hmem
    rw [hplace, Option.all_some, Bool.or_eq_true, decide_eq_true_eq, decide_eq_true_eq] at hdis
    exact hdis

/-- The foreign key is looked up and dropped, or there is none. -/
theorem Stage.dropFkIfAny (hst : Stage s f u) (hD : IsDefaults s D)
    (hn : (f t).name = defaultName t) {c : Conn δ}
    (h : dropFkIfAny fails t ⟨s, .active u⟩ = (.ok (), c)) :
    ∃ u', c = ⟨s, .active u'⟩ ∧ Stage s (Function.update f t { f t with hasFk := false }) u' := by
  obtain ⟨hasFk, c₁, hsel, h⟩ := bind_ok h
  obtain ⟨hfk, rfl⟩ := select_ok hsel
  rw [← hn, hst.find hD t] at hfk
  split_ifs at h with hfk'
  · obtain ⟨u', hexec, rfl⟩ := alter_ok h
    exact ⟨u', rfl, hst.dropFk hD hn hexec⟩
  · cases h
    refine ⟨u, rfl, ?_⟩
    have hsame : ({ f t with hasFk := false } : Table δ) = f t := by
      have hno : (f t).hasFk = false := by
        rw [Bool.not_eq_true] at hfk'
        rw [hfk'] at hfk
        simpa using hfk
      rw [← hno]
    rw [hsame, Function.update_eq_self]
    exact hst

theorem Stage.attachStaging (hst : Stage s f u) (hD : IsDefaults s D)
    (hn : (f t).name = stagingName t) {suffix : JsString} {lo hi : ℕ} {c : Conn δ}
    (h : attachStaging fails t suffix lo hi ⟨s, .active u⟩ = (.ok (), c)) :
    ∃ u', c = ⟨s, .active u'⟩ ∧ Fits s t (f t).rows lo hi ∧ Stage s (Function.update f t
      ⟨partitionName t suffix, some (t, .range lo hi), decide (t ≠ .blocks), (f t).rows⟩) u' := by
  obtain ⟨_, c₁, h₁, h⟩ := bind_ok h
  obtain ⟨u₁, hren, rfl⟩ := alter_ok h₁
  obtain ⟨u₂, hatt, rfl⟩ := alter_ok h
  have hst₁ := hst.renamed hD hn hren
  obtain ⟨hfits, hst₂⟩ := hst₁.attach hD (by rw [Function.update_self]) hatt
  rw [Function.update_idem, Function.update_self] at hst₂
  rw [Function.update_self] at hfits
  exact ⟨u₂, rfl, hfits, hst₂⟩

/-- The `DEFAULT` partition of `t` when it is empty. -/
def freshDefault (t : RolloverTable) : Table δ :=
  ⟨defaultName t, some (t, .default), decide (t ≠ .blocks), []⟩

theorem createDefault_ok (hnd : (u.tables.map (·.name)).Nodup)
    (h : (Ddl.createDefault t).exec u = some u') :
    u'.tables = u.tables ++ [freshDefault t] ∧ (u'.tables.map (·.name)).Nodup := by
  rw [Ddl.exec] at h
  split_ifs at h with hno
  cases h
  refine ⟨rfl, ?_⟩
  show ((u.tables ++ [freshDefault t]).map fun x : Table δ => x.name).Nodup
  rw [List.map_append]
  refine List.Nodup.append hnd (List.nodup_singleton _) ?_
  rw [List.map_singleton, List.disjoint_singleton]
  intro hmem
  obtain ⟨x, hx, hname⟩ := List.mem_map.mp hmem
  refine hno (Or.inl ?_)
  rw [Schema.nameTaken, Bool.or_eq_true, List.any_eq_true]
  exact Or.inl ⟨x, hx, decide_eq_true hname⟩

/-- The retired `DEFAULT` partition. -/
def retired (D : RolloverTable → Table δ) (suffix : JsString) (lo hi : ℕ) (t : RolloverTable) :
    Table δ :=
  ⟨partitionName t suffix, some (t, .range lo hi), decide (t ≠ .blocks), (D t).rows⟩

/-- What a rollover makes of the catalog. -/
structure Rolled (s : Schema δ) (D : RolloverTable → Table δ) (suffix : JsString) (lo hi : ℕ)
    (s' : Schema δ) : Prop where
  tables : s'.tables =
    s.tables.map (moved (retired D suffix lo hi)) ++ rolloverTables.map freshDefault
  names : (s'.tables.map (·.name)).Nodup
  fits : ∀ t, Fits s t (D t).rows lo hi

/-- **The steps (a) to (f)**, when all of them succeed. -/
theorem rolloverSteps_ok (hs : WellFormed s) (hD : IsDefaults s D) {suffix : JsString} {lo hi : ℕ}
    {c : Conn δ} (h : rolloverSteps fails suffix lo hi ⟨s, .active s⟩ = (.ok (), c)) :
    ∃ s', c = ⟨s, .active s'⟩ ∧ Rolled s D suffix lo hi s' := by
  have hst := hs.stage hD
  -- (a) and (b): the children are detached and lose their foreign keys
  obtain ⟨_, _, h₁, h⟩ := bind_ok h
  obtain ⟨u₁, he₁, rfl⟩ := alter_ok h₁
  have hst₁ := hst.detach (t := .transactions) hD (hD _).2.1 he₁
  obtain ⟨_, _, h₂, h⟩ := bind_ok h
  obtain ⟨u₂, he₂, rfl⟩ := alter_ok h₂
  have hst₂ := hst₁.detach (t := .bridgeObservations) hD (hD .bridgeObservations).2.1 he₂
  obtain ⟨_, _, h₃, h⟩ := bind_ok h
  obtain ⟨u₃, rfl, hst₃⟩ := hst₂.dropFkIfAny (t := .transactions) hD (hD .transactions).2.1 h₃
  obtain ⟨_, _, h₄, h⟩ := bind_ok h
  obtain ⟨u₄, rfl, hst₄⟩ := hst₃.dropFkIfAny (t := .bridgeObservations) hD
    (hD .bridgeObservations).2.1 h₄
  -- (c) and (d)
  obtain ⟨_, _, h₅, h⟩ := bind_ok h
  obtain ⟨u₅, he₅, rfl⟩ := alter_ok h₅
  have hst₅ := hst₄.detach (t := .blocks) hD (hD .blocks).2.1 he₅
  obtain ⟨_, _, h₆, h⟩ := bind_ok h
  obtain ⟨u₆, he₆, rfl⟩ := alter_ok h₆
  have hst₆ := hst₅.renamed (t := .blocks) hD (hD .blocks).2.1 he₆
  obtain ⟨_, _, h₇, h⟩ := bind_ok h
  obtain ⟨u₇, he₇, rfl⟩ := alter_ok h₇
  have hst₇ := hst₆.renamed (t := .transactions) hD (hD .transactions).2.1 he₇
  obtain ⟨_, _, h₈, h⟩ := bind_ok h
  obtain ⟨u₈, he₈, rfl⟩ := alter_ok h₈
  have hst₈ := hst₇.renamed (t := .bridgeObservations) hD (hD .bridgeObservations).2.1 he₈
  -- (e)
  obtain ⟨_, _, h₉, h⟩ := bind_ok h
  obtain ⟨u₉, rfl, hb, hst₉⟩ := hst₈.attachStaging (t := .blocks) hD rfl h₉
  obtain ⟨_, _, h₁₀, h⟩ := bind_ok h
  obtain ⟨u₁₀, rfl, hx, hst₁₀⟩ := hst₉.attachStaging (t := .transactions) hD rfl h₁₀
  obtain ⟨_, _, h₁₁, h⟩ := bind_ok h
  obtain ⟨u₁₁, rfl, ho, hst₁₁⟩ := hst₁₀.attachStaging (t := .bridgeObservations) hD rfl h₁₁
  -- (f)
  obtain ⟨_, _, h₁₂, h⟩ := bind_ok h
  obtain ⟨u₁₂, he₁₂, rfl⟩ := alter_ok h₁₂
  obtain ⟨ht₁₂, hn₁₂⟩ := createDefault_ok hst₁₁.names he₁₂
  obtain ⟨_, _, h₁₃, h⟩ := bind_ok h
  obtain ⟨u₁₃, he₁₃, rfl⟩ := alter_ok h₁₃
  obtain ⟨ht₁₃, hn₁₃⟩ := createDefault_ok hn₁₂ he₁₃
  obtain ⟨u₁₄, he₁₄, rfl⟩ := alter_ok h
  obtain ⟨ht₁₄, hn₁₄⟩ := createDefault_ok hn₁₃ he₁₄
  refine ⟨u₁₄, rfl, ?_, hn₁₄, fun t => ?_⟩
  · rw [ht₁₄, ht₁₃, ht₁₂, hst₁₁.tables, List.append_assoc, List.append_assoc]
    congr 2
    funext x
    congr 1
    funext t
    rcases t with _ | _ | _
    · rfl
    · rfl
    · rfl
  · rcases t with _ | _ | _
    · exact hb
    · exact hx
    · exact ho

/-! ### The catalog after the rollover -/

theorem mem_rolloverTables (t : RolloverTable) : t ∈ rolloverTables := by
  rcases t with _ | _ | _
  all_goals simp [rolloverTables]

variable {s' : Schema δ} {suffix : JsString} {lo hi : ℕ}

/-- The tables: the bounded partitions, the retired ones and the new `DEFAULT` partitions. -/
theorem Rolled.mem (hD : IsDefaults s D) (h : Rolled s D suffix lo hi s') {x : Table δ} :
    x ∈ s'.tables ↔ (x ∈ s.tables ∧ ∀ t, x.place ≠ some (t, .default)) ∨
      (∃ t, x = retired D suffix lo hi t) ∨ ∃ t, x = freshDefault t := by
  rw [h.tables, List.mem_append, List.mem_map, List.mem_map, ← or_assoc]
  refine or_congr ⟨?_, ?_⟩ ⟨?_, ?_⟩
  · rintro ⟨y, hy, rfl⟩
    by_cases hdef : ∃ t, y.place = some (t, .default)
    · obtain ⟨t, ht⟩ := hdef
      exact Or.inr ⟨t, moved_default ht⟩
    · have hno : ∀ t, y.place ≠ some (t, .default) := fun t ht => hdef ⟨t, ht⟩
      rw [moved_of_ne hno]
      exact Or.inl ⟨hy, hno⟩
  · rintro (⟨hx, hno⟩ | ⟨t, rfl⟩)
    · exact ⟨x, hx, moved_of_ne hno⟩
    · exact ⟨D t, (hD t).1, moved_default (hD t).2.2⟩
  · rintro ⟨t, -, rfl⟩
    exact ⟨t, rfl⟩
  · rintro ⟨t, rfl⟩
    exact ⟨t, mem_rolloverTables t, rfl⟩

/-- Tables that are changed otherwise have the same rows for the partitioned table. -/
theorem flatMap_filter_map {p : Table δ → Bool} {g : Table δ → Table δ} :
    ∀ {l : List (Table δ)}, (∀ x ∈ l, p (g x) = p x ∧ (g x).rows = x.rows) →
      ((l.map g).filter p).flatMap (·.rows) = (l.filter p).flatMap (·.rows) := by
  intro l
  induction l with
  | nil =>
    intro _
    rfl
  | cons x l ih =>
    intro h
    obtain ⟨hp, hrows⟩ := h x List.mem_cons_self
    have ih := ih fun y hy => h y (List.mem_cons_of_mem _ hy)
    rw [List.map_cons, List.filter_cons, List.filter_cons, hp]
    split_ifs
    · rw [List.flatMap_cons, List.flatMap_cons, hrows, ih]
    · exact ih

/-- **The rows.** Each partitioned table has the same rows. -/
theorem Rolled.rows (hs : WellFormed s) (hD : IsDefaults s D) (h : Rolled s D suffix lo hi s')
    (t : RolloverTable) : s'.rows t = s.rows t := by
  have hfresh : ∀ l : List RolloverTable,
      ((l.map (freshDefault (δ := δ))).filter fun x => x.place.any fun p => p.1 = t).flatMap
        (·.rows) = [] := by
    intro l
    rw [List.flatMap_eq_nil_iff]
    intro x hx
    obtain ⟨t', -, rfl⟩ := List.mem_map.mp (List.mem_of_mem_filter hx)
    rfl
  unfold Schema.rows Schema.partitions
  rw [h.tables, List.filter_append, List.flatMap_append, hfresh, List.append_nil]
  refine flatMap_filter_map fun x hx => ?_
  by_cases hdef : ∃ t', x.place = some (t', .default)
  · obtain ⟨t', ht'⟩ := hdef
    rw [moved_default ht', hs.default_eq hD hx ht', (hD t').2.2]
    exact ⟨rfl, rfl⟩
  · rw [moved_of_ne fun t' ht' => hdef ⟨t', ht'⟩]
    exact ⟨rfl, rfl⟩

theorem Rolled.wellFormed (hs : WellFormed s) (hD : IsDefaults s D)
    (h : Rolled s D suffix lo hi s') : WellFormed s' where
  names := h.names
  default t := ⟨freshDefault t, (h.mem hD).mpr (Or.inr (Or.inr ⟨t, rfl⟩)), rfl, rfl⟩
  unique x hx t hplace := by
    rcases (h.mem hD).mp hx with ⟨-, hno⟩ | ⟨t', rfl⟩ | ⟨t', rfl⟩
    · exact absurd hplace (hno t)
    · cases hplace
    · cases hplace
      rfl
  disjoint x hx y hy t lo₁ hi₁ lo₂ hi₂ hplace hplace' := by
    rcases (h.mem hD).mp hx with ⟨hx, -⟩ | ⟨t₁, rfl⟩ | ⟨t₁, rfl⟩
    · rcases (h.mem hD).mp hy with ⟨hy, -⟩ | ⟨t₂, rfl⟩ | ⟨t₂, rfl⟩
      · exact hs.disjoint x hx y hy t lo₁ hi₁ lo₂ hi₂ hplace hplace'
      · cases hplace'
        exact Or.inr ((h.fits t).2.2 x hx lo₁ hi₁ hplace).symm
      · cases hplace'
    · rcases (h.mem hD).mp hy with ⟨hy, -⟩ | ⟨t₂, rfl⟩ | ⟨t₂, rfl⟩
      · cases hplace
        exact Or.inr ((h.fits t).2.2 y hy lo₂ hi₂ hplace')
      · cases hplace
        cases hplace'
        exact Or.inl rfl
      · cases hplace'
    · cases hplace
  inRange x hx t lo₁ hi₁ hplace r hr := by
    rcases (h.mem hD).mp hx with ⟨hx, -⟩ | ⟨t₁, rfl⟩ | ⟨t₁, rfl⟩
    · exact hs.inRange x hx t lo₁ hi₁ hplace r hr
    · cases hplace
      exact (h.fits t).2.1 r hr
    · cases hplace
  inDefault x hx t hplace r hr := by
    rcases (h.mem hD).mp hx with ⟨-, hno⟩ | ⟨t₁, rfl⟩ | ⟨t₁, rfl⟩
    · exact absurd hplace (hno t)
    · cases hplace
    · cases hr
  refs t ht r hr := by
    rw [h.rows hs hD] at hr
    have href := hs.refs t ht r hr
    unfold hasBlock at href ⊢
    rwa [h.rows hs hD]

/-- The bucket has its three partitions. -/
def Applied (s : Schema δ) (suffix : JsString) (lo hi : ℕ) : Prop :=
  ∀ t, ∃ x ∈ s.tables, x.name = partitionName t suffix ∧ x.place = some (t, .range lo hi)

theorem Rolled.applied (hD : IsDefaults s D) (h : Rolled s D suffix lo hi s') :
    Applied s' suffix lo hi := fun t =>
  ⟨retired D suffix lo hi t, (h.mem hD).mpr (Or.inr (Or.inl ⟨t, rfl⟩)), rfl, rfl⟩

/-- **Routing.** A row with a height of the bucket goes to the partition of the bucket. -/
theorem route_applied (hs : WellFormed s) (h : Applied s suffix lo hi) {height : ℕ}
    (hlo : lo ≤ height) (hhi : height < hi) (t : RolloverTable) :
    ∃ x, s.route t height = some x ∧ x.name = partitionName t suffix ∧
      x.place = some (t, .range lo hi) := by
  obtain ⟨x, hx, hname, hplace⟩ := h t
  have hpart : x ∈ s.partitions t := List.mem_filter.mpr ⟨hx, by rw [hplace]; simp⟩
  have hcov : (x.place.any fun p => p.2.covers height) = true := by
    rw [hplace, Option.any_some, Bound.covers, Bool.and_eq_true, decide_eq_true_eq,
      decide_eq_true_eq]
    exact ⟨hlo, hhi⟩
  have hfind : ((s.partitions t).find? fun y => y.place.any fun p => p.2.covers height).isSome =
      true := List.find?_isSome.mpr ⟨x, hpart, hcov⟩
  obtain ⟨y, hy⟩ := Option.isSome_iff_exists.mp hfind
  have hycov := List.find?_some hy
  obtain ⟨hymem, hyt⟩ := List.mem_filter.mp (List.mem_of_find?_eq_some hy)
  obtain rfl : y = x := by
    rcases hyp : y.place with _ | ⟨t', _ | ⟨lo', hi'⟩⟩
    · rw [hyp] at hycov
      cases hycov
    · rw [hyp] at hycov
      cases hycov
    · rw [hyp, Option.any_some, decide_eq_true_eq] at hyt
      subst hyt
      rw [hyp, Option.any_some, Bound.covers, Bool.and_eq_true, decide_eq_true_eq,
        decide_eq_true_eq] at hycov
      rcases hs.disjoint y hymem x hx _ _ _ _ _ hyp hplace with heq | hd | hd
      · exact heq
      · omega
      · omega
  refine ⟨y, ?_, hname, hplace⟩
  unfold Schema.route
  rw [hy]
  rfl

/-! ### The test whether the bucket was applied -/

/-- Two ranges of the same text are the same. -/
theorem expr_range {b : Bound} (h : b.expr = (Bound.range lo hi).expr) : b = .range lo hi := by
  have hnot : isDigit 39 = false := by decide
  rcases b with _ | ⟨lo', hi'⟩
  · have hhead := congrArg List.head? h
    cases hhead
  · have h : ascii "FOR VALUES FROM ('" ++ (natText lo' ++ 39 :: (ascii ") TO ('" ++
        (natText hi' ++ 39 :: ascii ")"))) =
        ascii "FOR VALUES FROM ('" ++ (natText lo ++ 39 :: (ascii ") TO ('" ++
          (natText hi ++ 39 :: ascii ")"))) := by
      have hl : ascii "') TO ('" = 39 :: ascii ") TO ('" := rfl
      have hr : ascii "')" = 39 :: ascii ")" := rfl
      simpa only [Bound.expr, hl, hr, List.append_assoc, List.cons_append] using h
    obtain ⟨hlo, h⟩ := digits_append_inj hnot (natText_digits lo') (natText_digits lo)
      (List.append_cancel_left h)
    obtain ⟨hhi, -⟩ := digits_append_inj hnot (natText_digits hi') (natText_digits hi)
      (List.append_cancel_left h)
    rw [natText_injective hlo, natText_injective hhi]

theorem boundOf_eq_some {b : JsString} {name : JsString} (h : boundOf s t name = some b) :
    ∃ x ∈ s.tables, x.name = name ∧ ∃ p, x.place = some (t, p) ∧ p.expr = b := by
  unfold boundOf at h
  split at h
  · rename_i t' p hp
    split_ifs at h with htt
    subst htt
    cases h
    obtain ⟨x, hx, hplace⟩ := Option.bind_eq_some_iff.mp hp
    have hname : x.name = name := by simpa using List.find?_some hx
    exact ⟨x, List.mem_of_find?_eq_some hx, hname, p, hplace, rfl⟩
  · cases h

/-- **`rolloverAlreadyApplied`** answers that the three partitions are there. -/
theorem alreadyApplied_iff (hs : WellFormed s) :
    alreadyApplied (fun t => boundOf s t (partitionName t suffix)) (Bound.range lo hi).expr =
      .ok true ↔ Applied s suffix lo hi := by
  constructor
  · intro h t
    unfold alreadyApplied at h
    dsimp only at h
    split_ifs at h with h₀ h₃
    · cases h
    split at h
    · cases h
    · rename_i hall
      have hmem : t ∈ rolloverTables.filter fun t =>
          (boundOf s t (partitionName t suffix)).isSome := by
        have hlen := List.length_filter_eq_length_iff.mp
          (Nat.le_antisymm (List.length_filter_le _ _) (Nat.le_of_not_lt h₃))
        exact List.mem_filter.mpr ⟨mem_rolloverTables t, hlen t (mem_rolloverTables t)⟩
      have hb := List.find?_eq_none.mp hall t hmem
      rw [decide_eq_true_eq, not_not] at hb
      obtain ⟨x, hx, hname, p, hplace, hexpr⟩ := boundOf_eq_some hb
      exact ⟨x, hx, hname, by rw [hplace, expr_range hexpr]⟩
  · intro h
    have hb : ∀ t, boundOf s t (partitionName t suffix) = some (Bound.range lo hi).expr := by
      intro t
      obtain ⟨x, hx, hname, hplace⟩ := h t
      unfold boundOf
      rw [← hname, find_of_mem hs.names hx, Option.bind_some, hplace]
      exact if_pos rfl
    simp [alreadyApplied, hb, rolloverTables]

/-! ### Insertions -/

theorem mem_rows {r : Row δ} :
    r ∈ s.rows t ↔ ∃ x ∈ s.tables, (∃ b, x.place = some (t, b)) ∧ r ∈ x.rows := by
  unfold Schema.rows Schema.partitions
  rw [List.mem_flatMap]
  constructor
  · rintro ⟨x, hx, hr⟩
    obtain ⟨hmem, hplace⟩ := List.mem_filter.mp hx
    rcases hp : x.place with _ | ⟨t', b⟩
    · rw [hp] at hplace
      cases hplace
    · rw [hp, Option.any_some, decide_eq_true_eq] at hplace
      exact ⟨x, hmem, ⟨b, hplace ▸ hp⟩, hr⟩
  · rintro ⟨x, hx, ⟨b, hb⟩, hr⟩
    exact ⟨x, List.mem_filter.mpr ⟨hx, by rw [hb]; simp⟩, hr⟩

/-- The table that gets the row. -/
def grown (x : Table δ) (r : Row δ) (y : Table δ) : Table δ :=
  if y.name = x.name then { y with rows := y.rows ++ [r] } else y

theorem grown_name (x : Table δ) (r : Row δ) (y : Table δ) : (grown x r y).name = y.name := by
  unfold grown
  split_ifs
  · rfl
  · rfl

theorem grown_place (x : Table δ) (r : Row δ) (y : Table δ) : (grown x r y).place = y.place := by
  unfold grown
  split_ifs
  · rfl
  · rfl

theorem mem_grown {x y : Table δ} {r r' : Row δ} (h : r' ∈ (grown x r y).rows) :
    r' ∈ y.rows ∨ r' = r ∧ y.name = x.name := by
  unfold grown at h
  split_ifs at h with hn
  · rcases List.mem_append.mp h with h | h
    · exact Or.inl h
    · exact Or.inr ⟨List.mem_singleton.mp h, hn⟩
  · exact Or.inl h

theorem mem_grown_of_mem {x y : Table δ} {r r' : Row δ} (h : r' ∈ y.rows) :
    r' ∈ (grown x r y).rows := by
  unfold grown
  split_ifs
  · exact List.mem_append_left _ h
  · exact h

/-- Where a row goes: its height is in the range, or in no range. -/
theorem route_some {height : ℕ} {x : Table δ} (h : s.route t height = some x) :
    x ∈ s.tables ∧ ((∃ lo hi, x.place = some (t, .range lo hi) ∧ lo ≤ height ∧ height < hi) ∨
      x.place = some (t, .default) ∧ ∀ y ∈ s.tables, ∀ lo hi, y.place = some (t, .range lo hi) →
        ¬ (lo ≤ height ∧ height < hi)) := by
  unfold Schema.route at h
  rcases hf : (s.partitions t).find? fun x => x.place.any fun p => p.2.covers height with _ | y
  · rw [hf, Option.none_or] at h
    have hplace : x.place = some (t, .default) := by simpa using List.find?_some h
    refine ⟨List.mem_of_mem_filter (List.mem_of_find?_eq_some h), Or.inr ⟨hplace, ?_⟩⟩
    rintro y hy lo hi hyp ⟨hlo, hhi⟩
    have hno := List.find?_eq_none.mp hf y (List.mem_filter.mpr ⟨hy, by rw [hyp]; simp⟩)
    rw [hyp, Option.any_some, Bound.covers, decide_eq_true hlo, decide_eq_true hhi] at hno
    exact hno rfl
  · rw [hf, Option.some_or] at h
    cases h
    obtain ⟨hmem, ht⟩ := List.mem_filter.mp (List.mem_of_find?_eq_some hf)
    have hcov := List.find?_some hf
    refine ⟨hmem, Or.inl ?_⟩
    rcases hp : x.place with _ | ⟨t', _ | ⟨lo, hi⟩⟩
    · rw [hp] at hcov
      cases hcov
    · rw [hp] at hcov
      cases hcov
    · rw [hp, Option.any_some, decide_eq_true_eq] at ht
      subst ht
      rw [hp, Option.any_some, Bound.covers, Bool.and_eq_true, decide_eq_true_eq,
        decide_eq_true_eq] at hcov
      exact ⟨lo, hi, rfl, hcov⟩

/-- What an insertion has done. -/
theorem insert_cases {r : Row δ} (h : step s (.insert t r) = some s') :
    ∃ x, s.route t r.key.height = some x ∧ (t = .blocks ∨ hasBlock s r = true) ∧
      s'.tables = s.tables.map (grown x r) := by
  simp only [step, Option.bind_eq_bind, Option.bind_eq_some_iff] at h
  obtain ⟨x, hx, h⟩ := h
  split_ifs at h with href
  cases h
  exact ⟨x, hx, href, rfl⟩

theorem rows_grown {x : Table δ} {r r' : Row δ} (h : s'.tables = s.tables.map (grown x r))
    (hr : r' ∈ s.rows t) : r' ∈ s'.rows t := by
  obtain ⟨y, hy, ⟨b, hb⟩, hr⟩ := mem_rows.mp hr
  rw [mem_rows, h]
  exact ⟨grown x r y, List.mem_map_of_mem hy, ⟨b, by rw [grown_place, hb]⟩, mem_grown_of_mem hr⟩

/-- A row that has a block keeps it. -/
theorem hasBlock_grown {x : Table δ} {r r' : Row δ} (h : s'.tables = s.tables.map (grown x r))
    (hb : hasBlock s r' = true) : hasBlock s' r' = true := by
  unfold hasBlock at hb ⊢
  obtain ⟨b, hmem, hkey⟩ := List.any_eq_true.mp hb
  exact List.any_eq_true.mpr ⟨b, rows_grown h hmem, hkey⟩

theorem WellFormed.insert (hs : WellFormed s) {r : Row δ}
    (h : step s (.insert t r) = some s') : WellFormed s' := by
  obtain ⟨x, hroute, href, htab⟩ := insert_cases h
  obtain ⟨hx, hwhere⟩ := route_some hroute
  have hmem : ∀ z ∈ s'.tables, ∃ y ∈ s.tables, z = grown x r y := by
    intro z hz
    rw [htab] at hz
    obtain ⟨y, hy, rfl⟩ := List.mem_map.mp hz
    exact ⟨y, hy, rfl⟩
  -- a table that has got the row is the one of the route
  have hself : ∀ y ∈ s.tables, y.name = x.name → y = x := fun y hy hn =>
    List.inj_on_of_nodup_map hs.names hy hx hn
  refine ⟨?_, fun t' => ?_, ?_, ?_, ?_, ?_, ?_⟩
  · have hsame : s'.tables.map (·.name) = s.tables.map (·.name) := by
      rw [htab, List.map_map]
      exact List.map_congr_left fun y _ => grown_name x r y
    rw [hsame]
    exact hs.names
  · obtain ⟨y, hy, hn, hp⟩ := hs.default t'
    rw [htab]
    exact ⟨grown x r y, List.mem_map_of_mem hy, by rw [grown_name, hn], by rw [grown_place, hp]⟩
  · intro z hz t' hp
    obtain ⟨y, hy, rfl⟩ := hmem z hz
    rw [grown_place] at hp
    rw [grown_name]
    exact hs.unique y hy t' hp
  · intro z hz z' hz' t' lo hi lo' hi' hp hp'
    obtain ⟨y, hy, rfl⟩ := hmem z hz
    obtain ⟨y', hy', rfl⟩ := hmem z' hz'
    rw [grown_place] at hp hp'
    refine (hs.disjoint y hy y' hy' t' lo hi lo' hi' hp hp').imp_left fun heq => ?_
    rw [heq]
  · intro z hz t' lo hi hp r' hr'
    obtain ⟨y, hy, rfl⟩ := hmem z hz
    rw [grown_place] at hp
    rcases mem_grown hr' with hr' | ⟨rfl, hn⟩
    · exact hs.inRange y hy t' lo hi hp r' hr'
    · rw [hself y hy hn] at hp
      rcases hwhere with ⟨lo', hi', hx', hin⟩ | ⟨hx', -⟩
      · cases hp.symm.trans hx'
        exact hin
      · cases hp.symm.trans hx'
  · intro z hz t' hp r' hr' z' hz' lo hi hp'
    obtain ⟨y, hy, rfl⟩ := hmem z hz
    obtain ⟨y', hy', rfl⟩ := hmem z' hz'
    rw [grown_place] at hp hp'
    rcases mem_grown hr' with hr' | ⟨rfl, hn⟩
    · exact hs.inDefault y hy t' hp r' hr' y' hy' lo hi hp'
    · rw [hself y hy hn] at hp
      rcases hwhere with ⟨lo', hi', hx', -⟩ | ⟨hx', hno⟩
      · cases hp.symm.trans hx'
      · cases hp.symm.trans hx'
        exact hno y' hy' lo hi hp'
  · intro t' ht' r' hr'
    obtain ⟨z, hz, ⟨b, hb⟩, hr'⟩ := mem_rows.mp hr'
    obtain ⟨y, hy, rfl⟩ := hmem z hz
    rw [grown_place] at hb
    rcases mem_grown hr' with hr' | ⟨rfl, hn⟩
    · exact hasBlock_grown htab (hs.refs t' ht' r' (mem_rows.mpr ⟨y, hy, ⟨b, hb⟩, hr'⟩))
    · rw [hself y hy hn] at hb
      have htt : t' = t := by
        rcases hwhere with ⟨lo', hi', hx', -⟩ | ⟨hx', -⟩
        · cases hb.symm.trans hx'
          rfl
        · cases hb.symm.trans hx'
          rfl
      exact hasBlock_grown htab (href.resolve_left (htt ▸ ht'))

/-! ### Reachable catalogs -/

/-- A pre-created partition. -/
def precreated (t : RolloverTable) (i : ℕ) : Table δ :=
  ⟨partitionName t (ascii "p" ++ natText i), some (t, .range (i * 1000000) ((i + 1) * 1000000)),
    decide (t ≠ .blocks), []⟩

theorem mem_migrated {others : List JsString} {x : Table δ} :
    x ∈ (migrated others).tables ↔ ∃ t, (∃ i < 5, x = precreated t i) ∨ x = freshDefault t := by
  show x ∈ rolloverTables.flatMap (fun t =>
    (List.range 5).map (precreated t) ++ [freshDefault t]) ↔ _
  rw [List.mem_flatMap]
  constructor
  · rintro ⟨t, -, hx⟩
    rcases List.mem_append.mp hx with hx | hx
    · obtain ⟨i, hi, rfl⟩ := List.mem_map.mp hx
      exact ⟨t, Or.inl ⟨i, List.mem_range.mp hi, rfl⟩⟩
    · exact ⟨t, Or.inr (List.mem_singleton.mp hx)⟩
  · rintro ⟨t, ⟨i, hi, rfl⟩ | rfl⟩
    · exact ⟨t, mem_rolloverTables t, List.mem_append_left _
        (List.mem_map_of_mem (List.mem_range.mpr hi))⟩
    · exact ⟨t, mem_rolloverTables t, List.mem_append_right _ (List.mem_singleton.mpr rfl)⟩

theorem nodup_migrated (others : List JsString) :
    ((migrated (δ := δ) others).tables.map (·.name)).Nodup := by
  have hnames : (migrated (δ := δ) others).tables.map (·.name) = rolloverTables.flatMap fun t =>
      (List.range 5).map (fun i => partitionName t (ascii "p" ++ natText i)) ++
        [defaultName t] := by
    unfold migrated
    rw [List.map_flatMap]
    refine List.flatMap_congr fun t _ => ?_
    rw [List.map_append, List.map_map]
    rfl
  rw [hnames]
  decide +kernel

theorem wellFormed_migrated (others : List JsString) : WellFormed (migrated (δ := δ) others) where
  names := nodup_migrated others
  default t := ⟨freshDefault t, mem_migrated.mpr ⟨t, Or.inr rfl⟩, rfl, rfl⟩
  unique x hx t hp := by
    obtain ⟨t', ⟨i, -, rfl⟩ | rfl⟩ := mem_migrated.mp hx
    · cases hp
    · cases hp
      rfl
  disjoint x hx y hy t lo hi lo' hi' hp hp' := by
    obtain ⟨t₁, ⟨i, -, rfl⟩ | rfl⟩ := mem_migrated.mp hx
    · obtain ⟨t₂, ⟨j, -, rfl⟩ | rfl⟩ := mem_migrated.mp hy
      · cases hp
        cases hp'
        rcases Nat.lt_trichotomy i j with h | rfl | h
        · exact Or.inr (Or.inl (Nat.mul_le_mul_right _ h))
        · exact Or.inl rfl
        · exact Or.inr (Or.inr (Nat.mul_le_mul_right _ h))
      · cases hp'
    · cases hp
  inRange x hx t lo hi _ r hr := by
    obtain ⟨t', ⟨i, -, rfl⟩ | rfl⟩ := mem_migrated.mp hx
    · cases hr
    · cases hr
  inDefault x hx t _ r hr := by
    obtain ⟨t', ⟨i, -, rfl⟩ | rfl⟩ := mem_migrated.mp hx
    · cases hr
    · cases hr
  refs t _ r hr := by
    obtain ⟨x, hx, -, hr⟩ := mem_rows.mp hr
    obtain ⟨t', ⟨i, -, rfl⟩ | rfl⟩ := mem_migrated.mp hx
    · cases hr
    · cases hr

theorem Reads.ok {α β : Type} {x : M δ α} (hx : Reads x) {f : α → M δ β} {c c' : Conn δ} {b : β}
    (hc : c.tx = .idle) (h : (x >>= f) c = (.ok b, c')) : ∃ a, f a c = (.ok b, c') := by
  obtain ⟨a, c₁, hxc, hfa⟩ := bind_ok h
  have hsame := hx c hc
  rw [hxc] at hsame
  cases hsame
  exact ⟨a, hfa⟩

/-- The body has gone through: the bucket was applied before, or its steps are committed. -/
theorem onReserved_ok {lost : Bool} {c : Conn δ}
    (h : onReserved fails lost suffix lo hi ⟨s, .idle⟩ = (.ok (), c)) :
    (alreadyApplied (fun t => boundOf s t (partitionName t suffix)) (Bound.range lo hi).expr =
      .ok true ∧ c.committed = s) ∨
    ∃ c₁, rolloverSteps fails suffix lo hi ⟨s, .active s⟩ = (.ok (), c₁) ∧
      commit fails c₁ = (.ok (), c) := by
  obtain ⟨applied, c₁, hread, h⟩ := bind_ok h
  obtain ⟨happ, rfl⟩ := rolloverAlreadyApplied_ok hread
  split_ifs at h with ha
  · cases h
    rw [ha] at happ
    exact Or.inl ⟨happ, rfl⟩
  obtain ⟨_, h⟩ := (reads_assertDefaultSpanFitsOneBucket _ _ _).ok rfl h
  obtain ⟨_, h⟩ := (reads_assertDefaultSpanFitsOneBucket _ _ _).ok rfl h
  obtain ⟨_, h⟩ := (reads_assertDefaultSpanFitsOneBucket _ _ _).ok rfl h
  obtain ⟨_, c₂, hbegin, h⟩ := bind_ok h
  obtain rfl : c₂ = ⟨s, .active s⟩ := by
    unfold begin at hbegin
    dsimp only at hbegin
    split at hbegin
    · cases hbegin
      rfl
    · rename_i htx _
      cases htx
    · cases hbegin
  unfold M.onError at h
  split at h
  · rename_i a c₃ hbody
    cases h
    obtain ⟨_, c₄, hsteps, hcommit⟩ := bind_ok hbody
    exact Or.inr ⟨c₄, hsteps, hcommit⟩
  · cases h

/-- **A rollover that succeeds** leads to a well-formed catalog with the same rows and the partitions
of the bucket; bounded partitions stay as they are. -/
theorem rollover_succeeds (hs : WellFormed s) {lost : Bool} {schema : JsString}
    {bucket : RolloverBucket}
    (h : (rolloverDefaultPartition fails lost schema bucket s).1 = .ok ()) :
    ∃ lo hi s', validate schema bucket = .ok (lo, hi) ∧
      (rolloverDefaultPartition fails lost schema bucket s).2 = s' ∧ WellFormed s' ∧
      Applied s' bucket.suffix lo hi ∧ (∀ t, s'.rows t = s.rows t) ∧
      ∀ x ∈ s.tables, (∀ t, x.place ≠ some (t, .default)) → x ∈ s'.tables := by
  unfold rolloverDefaultPartition at h ⊢
  rcases hv : validate schema bucket with e | ⟨lo, hi⟩
  · simp only [hv] at h
    cases h
  simp only [hv] at h ⊢
  split_ifs at h ⊢ with hr
  rcases hout : onReserved fails lost bucket.suffix lo hi ⟨s, .idle⟩ with ⟨res, c⟩
  simp only [hout] at h ⊢
  subst h
  rcases onReserved_ok hout with ⟨happ, hc⟩ | ⟨c₁, hsteps, hcommit⟩
  · exact ⟨lo, hi, s, rfl, hc, hs, (alreadyApplied_iff hs).mp happ, fun _ => rfl,
      fun _ hx _ => hx⟩
  · obtain ⟨D, hD⟩ := hs.defaults
    obtain ⟨s', rfl, hrolled⟩ := rolloverSteps_ok hs hD hsteps
    refine ⟨lo, hi, s', rfl, ?_, hrolled.wellFormed hs hD, hrolled.applied hD,
      hrolled.rows hs hD, fun x hx hno => (hrolled.mem hD).mpr (Or.inl ⟨hx, hno⟩)⟩
    unfold commit at hcommit
    dsimp only at hcommit
    split at hcommit
    · rename_i htx _
      cases htx
    · rename_i w htx _
      cases htx
      cases hcommit
      rfl
    · rename_i htx _
      cases htx
    · cases hcommit

theorem WellFormed.step (hs : WellFormed s) {ev : Ev δ} (h : step s ev = some s') :
    WellFormed s' := by
  rcases ev with ⟨t, r⟩ | ⟨fails, lost, schema, bucket⟩
  · exact hs.insert h
  · cases h
    rcases hres : (rolloverDefaultPartition fails lost schema bucket s).1 with e | _
    · rw [rollover_rejects hres]
      exact hs
    · obtain ⟨lo, hi, s', -, rfl, hs', -⟩ := rollover_succeeds hs hres
      exact hs'

/-- An applied bucket stays applied. -/
theorem Applied.step (hs : WellFormed s) (ha : Applied s suffix lo hi) {ev : Ev δ}
    (h : step s ev = some s') : Applied s' suffix lo hi := by
  intro t
  obtain ⟨x, hx, hname, hplace⟩ := ha t
  rcases ev with ⟨t', r⟩ | ⟨fails, lost, schema, bucket⟩
  · obtain ⟨y, -, -, htab⟩ := insert_cases h
    rw [htab]
    exact ⟨grown y r x, List.mem_map_of_mem hx, by rw [grown_name, hname],
      by rw [grown_place, hplace]⟩
  · cases h
    rcases hres : (rolloverDefaultPartition fails lost schema bucket s).1 with e | _
    · rw [rollover_rejects hres]
      exact ⟨x, hx, hname, hplace⟩
    · obtain ⟨lo', hi', s', -, rfl, -, -, -, hkept⟩ := rollover_succeeds hs hres
      exact ⟨x, hkept x hx (fun t' ht' => by rw [hplace] at ht'; cases ht'), hname, hplace⟩

theorem bind_of_ok {α β : Type} {x : M δ α} {f : α → M δ β} {c c' : Conn δ} {a : α}
    (h : x c = (.ok a, c')) : (x >>= f) c = f a c' := by
  show M.bind x f c = f a c'
  unfold M.bind
  rw [h]

theorem bind_of_error {α β : Type} {x : M δ α} {f : α → M δ β} {c c' : Conn δ} {e : RolloverError}
    (h : x c = (.error e, c')) : (x >>= f) c = (.error e, c') := by
  show M.bind x f c = (.error e, c')
  unfold M.bind
  rw [h]

/-- The three queries of `rolloverAlreadyApplied` succeed. -/
theorem rolloverAlreadyApplied_of_ok {a : Bool} (hf : ∀ q, fails q = false)
    (h : alreadyApplied (fun t => boundOf s t (partitionName t suffix)) (Bound.range lo hi).expr =
      .ok a) : rolloverAlreadyApplied fails suffix lo hi ⟨s, .idle⟩ = (.ok a, ⟨s, .idle⟩) := by
  have hsel : ∀ t, attachedPartitionBound fails t suffix ⟨s, .idle⟩ =
      (.ok (boundOf s t (partitionName t suffix)), ⟨s, .idle⟩) := by
    intro t
    unfold attachedPartitionBound select
    rw [hf]
  unfold rolloverAlreadyApplied
  rw [bind_of_ok (hsel .blocks), bind_of_ok (hsel .transactions),
    bind_of_ok (hsel .bridgeObservations)]
  have hfun := byTable_eq fun t => boundOf s t (partitionName t suffix)
  rw [← hfun] at h
  show settle _ _ = _
  rw [h]
  rfl

/-- **The repetition** of an applied rollover changes nothing, and goes through if its queries do. -/
theorem rollover_applied (hs : WellFormed s) {lost : Bool} {schema : JsString}
    {bucket : RolloverBucket} (hv : validate schema bucket = .ok (lo, hi))
    (ha : Applied s bucket.suffix lo hi) :
    (rolloverDefaultPartition fails lost schema bucket s).2 = s ∧
      ((∀ q, fails q = false) →
        (rolloverDefaultPartition fails lost schema bucket s).1 = .ok ()) := by
  have happ := (alreadyApplied_iff hs).mpr ha
  unfold rolloverDefaultPartition
  simp only [hv]
  by_cases hr : fails .reserve = true
  · rw [if_pos hr]
    exact ⟨rfl, fun hf => by rw [hf] at hr; cases hr⟩
  rw [if_neg hr]
  dsimp only
  constructor
  · rcases hread : rolloverAlreadyApplied fails bucket.suffix lo hi ⟨s, .idle⟩ with ⟨e | a, c⟩
    · have hsame := @reads_rolloverAlreadyApplied δ fails bucket.suffix lo hi ⟨s, .idle⟩ rfl
      rw [hread] at hsame
      unfold onReserved
      rw [bind_of_error hread]
      exact congrArg Conn.committed hsame
    · obtain ⟨ha', rfl⟩ := rolloverAlreadyApplied_ok hread
      cases ha'.symm.trans happ
      unfold onReserved
      rw [bind_of_ok hread]
      rfl
  · intro hf
    unfold onReserved
    rw [bind_of_ok (rolloverAlreadyApplied_of_ok hf happ)]
    rfl

theorem wellFormed_run {others : List JsString} {es : List (Ev δ)}
    (h : run step es (migrated others) = some s) : WellFormed s :=
  run_inv (I := WellFormed) (fun _ _ _ hI hst => hI.step hst) es _ s (wellFormed_migrated others) h

theorem applied_run {es : List (Ev δ)} (hs : WellFormed s) (ha : Applied s suffix lo hi)
    (h : run step es s = some s') : WellFormed s' ∧ Applied s' suffix lo hi :=
  run_inv (I := fun s => WellFormed s ∧ Applied s suffix lo hi)
    (fun _ _ _ hI hst => ⟨hI.1.step hst, hI.2.step hI.1 hst⟩) es s s' ⟨hs, ha⟩ h

/-- A block beyond the pre-created partitions, with a transaction. -/
def overflowing : List (Ev ℕ) :=
  [.insert .blocks ⟨⟨[109], 5000010, [1]⟩, 0⟩, .insert .transactions ⟨⟨[109], 5000010, [1]⟩, 7⟩]

/-- `{ lo: 5_000_000, hi: 6_000_000, suffix: "p5" }`. -/
def bucketP5 : RolloverBucket := ⟨.finite 5000000, .finite 6000000, ascii "p5"⟩

end UmbraDB.Archive.Preserve
