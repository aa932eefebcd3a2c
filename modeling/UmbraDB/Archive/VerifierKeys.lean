import UmbraDB.Archive.Roles
import UmbraDB.Archive.Sync
import UmbraDB.Lib.InsertOnly
import UmbraDB.Lib.Upserts
import UmbraDB.Js.Number
import UmbraDB.Kv.Rows
import UmbraDB.Ckpt.RoundTrip

/-! # Chain archive: verifier-key observations

`putVerifierKeyObservation`: the blob of the key, its role and the observation, in one transaction.
The first two are inserted if they are not there; the third is an upsert that keeps the least
`first_seen_height` of all observations with the same key, hash, network, scope, contract and tag
(`NULLS NOT DISTINCT`: no contract is one of the contracts).

Any number of calls interleave their statements at READ COMMITTED. `exec` is the next statement of
a call, which may have to wait for another transaction; any statement can fail (`fault`), and a
transaction can be rolled back at any moment. The references to `chain_blobs` hold, since the same
transaction has inserted the row or found it.

* `Inv` : what a call has inserted, and that the observations are those of the committed calls.
* `firstSeen_least` : the height of an observation, in every reachable state. -/

namespace UmbraDB.Archive.VerifierKeys

open UmbraDB.Js.Text UmbraDB.Js.Number UmbraDB.Ckpt.Rows UmbraDB.Lib.Runs
open UmbraDB.Lib.RowStore UmbraDB.Lib.InsertOnly UmbraDB.Lib.Upserts
open UmbraDB.Archive.Bundle (BlobRole RoleRow)
open UmbraDB.Archive.Sync (hexToBuf)
open UmbraDB.Ckpt.RoundTrip (sha256OfByte)

inductive VerifierKeyScope
  | protocol
  | contract
  deriving DecidableEq

structure VerifierKeyObservationRecord where
  vkBytes : Bytes
  net : JsString
  scope : VerifierKeyScope
  tag : JsString
  contractAddress : Option JsString
  firstSeenHeight : JsNumber

/-- `UNIQUE NULLS NOT DISTINCT (vk_hash, net, scope, contract_address, tag)`. -/
structure ObservationKey where
  vkHash : Bytes
  net : JsString
  scope : VerifierKeyScope
  contractAddress : Option Bytes
  tag : JsString
  deriving DecidableEq

/-- `vk.contractAddress ? hexToBuf(vk.contractAddress) : null`. -/
def addressOf : Option JsString → Option Bytes
  | none => none
  | some [] => none
  | some (u :: hex) => some (hexToBuf (u :: hex))

/-- The number for the column `first_seen_height`: a `bigint`, `CHECK (first_seen_height >= 0)`. -/
def heightOf (n : JsNumber) : Option ℕ :=
  n.integer.bind fun i => if 0 ≤ i ∧ i ≤ (Kv.Rows.bigintMax : ℤ) then some i.toNat else none

variable (sha256 : Bytes → Bytes)

/-- The row of the third statement; `none` if the server takes a parameter for none of its type, or
the row violates a `CHECK`. -/
def VerifierKeyObservationRecord.row (vk : VerifierKeyObservationRecord) :
    Option (ObservationKey × ℕ) := do
  let net ← pgText vk.net
  let tag ← pgText vk.tag
  let height ← heightOf vk.firstSeenHeight
  let contractAddress := addressOf vk.contractAddress
  -- CHECK ((scope = 'contract') = (contract_address IS NOT NULL))
  if decide (vk.scope = .contract) == contractAddress.isSome then
    some (⟨sha256 vk.vkBytes, net, vk.scope, contractAddress, tag⟩, height)
  else none

/-- Where a call is. The first ones name its next statement. -/
inductive Stage
  | idle
  | blob
  | role
  | observation
  | done
  | failed
  | committed
  | rolledBack
  deriving DecidableEq

/-- The transaction has begun and has not ended. -/
def Stage.running : Stage → Bool
  | .blob => true
  | .role => true
  | .observation => true
  | .done => true
  | .failed => true
  | _ => false

structure Call where
  vk : VerifierKeyObservationRecord
  stage : Stage

/-- The tables; next to a height stands the call it is of. -/
structure VkState where
  blobs : Table ℕ Bytes (Option Bytes)
  roles : Table ℕ RoleRow (Option Unit)
  observations : Store ℕ ObservationKey (Option ℕ) (ℕ × ℕ)
  calls : ℕ → Call

def VkState.init : VkState :=
  ⟨.fresh fun _ => none, .fresh fun _ => none, .init none,
    fun _ => ⟨⟨[], [], .protocol, [], none, .negZero⟩, .idle⟩⟩

inductive Ev
  | begin (t : ℕ) (vk : VerifierKeyObservationRecord)
  | exec (t : ℕ)
  | fault (t : ℕ)
  | commit (t : ℕ)
  | rollback (t : ℕ)

def VkState.goto (s : VkState) (t : ℕ) (stage : Stage) : VkState :=
  { s with calls := Function.update s.calls t { s.calls t with stage } }

/-- `LEAST(verifier_key_observations.first_seen_height, EXCLUDED.first_seen_height)`. -/
def applyLeast (r : Option ℕ) (a : ℕ × ℕ) : Option ℕ := some (r.elim a.2 fun h => min h a.2)

/-- The role of the blob, which `verifier_key_observations_check_blob_roles` asks for. -/
def roleOf (vk : VerifierKeyObservationRecord) : RoleRow := ⟨sha256 vk.vkBytes, .verifierKey⟩

/-- The upsert of the observation, after its trigger. -/
def observeStep (s : VkState) (t : ℕ) (vk : VerifierKeyObservationRecord) : Option VkState :=
  if s.roles.view t (roleOf sha256 vk) = none then some (s.goto t .failed)
  else
    match vk.row sha256 with
    | none => some (s.goto t .failed)
    | some (k, height) =>
      (s.observations.upsert applyLeast t k (t, height)).map fun observations =>
        { s.goto t .done with observations }

def execStep (s : VkState) (t : ℕ) : Option VkState :=
  let vk := (s.calls t).vk
  match (s.calls t).stage with
  | .blob => (insertRow s.blobs t (sha256 vk.vkBytes) vk.vkBytes).map fun blobs =>
      { s.goto t .role with blobs }
  | .role => (insertRow s.roles t (roleOf sha256 vk) ()).map fun roles =>
      { s.goto t .observation with roles }
  | .observation => observeStep sha256 s t vk
  | _ => none

def VkState.finish (s : VkState) (t : ℕ) (commit : Bool) : VkState :=
  if commit then
    { s.goto t .committed with
      blobs := s.blobs.commit t
      roles := s.roles.commit t
      observations := s.observations.commit t }
  else
    { s.goto t .rolledBack with
      blobs := s.blobs.rollback t
      roles := s.roles.rollback t
      observations := s.observations.rollback t }

def step (s : VkState) : Ev → Option VkState
  | .begin t vk =>
    if (s.calls t).stage = .idle then
      some { s with calls := Function.update s.calls t ⟨vk, .blob⟩ }
    else none
  | .exec t => execStep sha256 s t
  | .fault t => if (s.calls t).stage.running then some (s.goto t .failed) else none
  | .commit t => if (s.calls t).stage = .done then some (s.finish t true) else none
  | .rollback t => if (s.calls t).stage.running then some (s.finish t false) else none

/-! ### The invariant -/

/-- The blob has been inserted or found. -/
def Stage.pastBlob : Stage → Bool
  | .role => true
  | .observation => true
  | .done => true
  | _ => false

/-- The role has been inserted or found. -/
def Stage.pastRole : Stage → Bool
  | .observation => true
  | .done => true
  | _ => false

/-- The upserts of a call that has not ended. -/
def proposed (t : ℕ) (c : Call) : List (ObservationKey × ℕ × ℕ) :=
  if c.stage = .done then (c.vk.row sha256).toList.map fun r => (r.1, t, r.2) else []

/-- What holds of the call `c` of the transaction `t`. -/
structure CallOk (s : VkState) (t : ℕ) (c : Call) : Prop where
  blob : c.stage.pastBlob = true → Seen s.blobs t (sha256 c.vk.vkBytes)
  role : c.stage.pastRole = true → Seen s.roles t (roleOf sha256 c.vk)
  pending : c.stage ≠ .failed → s.observations.pending t = proposed sha256 t c
  classified : c.stage = .committed → ∀ k h, c.vk.row sha256 = some (k, h) →
    (s.blobs.committed k.vkHash).isSome = true ∧
      (s.roles.committed ⟨k.vkHash, .verifierKey⟩).isSome = true

structure Inv (s : VkState) : Prop where
  blobs : RowsOf (fun hash data => sha256 data = hash) s.blobs
  roles : RowsOf (fun _ _ => True) s.roles
  rows : Lib.Upserts.Inv applyLeast none s.observations
  calls : ∀ t, CallOk sha256 s t (s.calls t)
  log : ∀ k t h, (k, t, h) ∈ s.observations.log ↔
    (s.calls t).stage = .committed ∧ (s.calls t).vk.row sha256 = some (k, h)

variable {sha256}

theorem row_vkHash {vk : VerifierKeyObservationRecord} {k : ObservationKey} {h : ℕ}
    (hr : vk.row sha256 = some (k, h)) : k.vkHash = sha256 vk.vkBytes := by
  simp only [VerifierKeyObservationRecord.row, Option.bind_eq_bind, Option.bind_eq_some_iff] at hr
  obtain ⟨net, -, tag, -, height, -, hr⟩ := hr
  split_ifs at hr
  cases hr
  rfl

theorem mem_proposed {t t' : ℕ} {c : Call} {k : ObservationKey} {h : ℕ} (hd : c.stage = .done) :
    (k, t', h) ∈ proposed sha256 t c ↔ t' = t ∧ c.vk.row sha256 = some (k, h) := by
  rw [proposed, if_pos hd]
  rcases c.vk.row sha256 with _ | ⟨k', h'⟩
  · simp
  · simp only [Option.toList_some, List.map_cons, List.map_nil, List.mem_singleton, Prod.mk.injEq,
      Option.some.injEq]
    constructor
    · rintro ⟨rfl, rfl, rfl⟩
      exact ⟨rfl, rfl, rfl⟩
    · rintro ⟨rfl, rfl, rfl⟩
      exact ⟨rfl, rfl, rfl⟩

/-- What the others do takes nothing away from a call. -/
theorem CallOk.mono {s s' : VkState} {t : ℕ} {c : Call} (h : CallOk sha256 s t c)
    (hblobs : ∀ k, Seen s.blobs t k → Seen s'.blobs t k)
    (hroles : ∀ k, Seen s.roles t k → Seen s'.roles t k)
    (hpending : s'.observations.pending t = s.observations.pending t)
    (hblob : ∀ k, (s.blobs.committed k).isSome = true → (s'.blobs.committed k).isSome = true)
    (hrole : ∀ k, (s.roles.committed k).isSome = true → (s'.roles.committed k).isSome = true) :
    CallOk sha256 s' t c :=
  ⟨fun hc => hblobs _ (h.blob hc), fun hc => hroles _ (h.role hc),
    fun hc => hpending.trans (h.pending hc), fun hc k x hr =>
      ⟨hblob _ (h.classified hc k x hr).1, hrole _ (h.classified hc k x hr).2⟩⟩

namespace Inv

variable {s s' : VkState}

theorem init : Inv sha256 .init where
  blobs := .fresh
  roles := .fresh
  rows := .init
  calls _ := ⟨fun h => (by cases h), fun h => (by cases h), fun _ => rfl, fun h => (by cases h)⟩
  log _ _ _ := ⟨fun h => (by cases h), fun h => (by cases h.1)⟩

/-- A step of a call that changes no row of the observations, up to the commit. -/
theorem of_call (hs : Inv sha256 s) {t : ℕ} {c : Call}
    (hblobs : RowsOf (fun hash data => sha256 data = hash) s'.blobs)
    (hroles : RowsOf (fun _ _ => True) s'.roles) (hobs : s'.observations = s.observations)
    (hcalls : s'.calls = Function.update s.calls t c) (hold : (s.calls t).stage ≠ .committed)
    (hnew : c.stage ≠ .committed) (hc : CallOk sha256 s' t c)
    (hothers : ∀ t', t' ≠ t → CallOk sha256 s' t' (s.calls t')) : Inv sha256 s' := by
  refine ⟨hblobs, hroles, hobs ▸ hs.rows, ?_, fun k t' h => ?_⟩
  · rw [hcalls]
    exact (Function.forall_update_iff s.calls fun t c => CallOk sha256 s' t c).mpr ⟨hc, hothers⟩
  · rw [hobs, hs.log, hcalls]
    by_cases ht : t' = t
    · subst ht
      rw [Function.update_self]
      exact ⟨fun h => absurd h.1 hold, fun h => absurd h.1 hnew⟩
    · rw [Function.update_of_ne ht]

theorem begin (hs : Inv sha256 s) {t : ℕ} (hidle : (s.calls t).stage = .idle)
    (vk : VerifierKeyObservationRecord) :
    Inv sha256 { s with calls := Function.update s.calls t ⟨vk, .blob⟩ } := by
  have hne : ∀ {stage : Stage}, stage ≠ .idle → (s.calls t).stage ≠ stage := by
    rintro stage hn rfl
    exact hn hidle
  refine hs.of_call hs.blobs hs.roles rfl rfl (hne (by simp)) (by simp)
    ⟨fun h => (by cases h), fun h => (by cases h), fun _ => ?_, fun h => (by cases h)⟩
    fun t' _ => (hs.calls t').mono (fun _ h => h) (fun _ h => h) rfl (fun _ h => h) fun _ h => h
  rw [(hs.calls t).pending (hne (by simp)), proposed, proposed, hidle]
  rfl

theorem fail (hs : Inv sha256 s) {t : ℕ} (hrun : (s.calls t).stage.running = true) :
    Inv sha256 (s.goto t .failed) := by
  refine hs.of_call hs.blobs hs.roles rfl rfl ?_ (by simp)
    ⟨fun h => (by cases h), fun h => (by cases h), fun h => absurd rfl h, fun h => (by cases h)⟩
    fun t' _ => (hs.calls t').mono (fun _ h => h) (fun _ h => h) rfl (fun _ h => h) fun _ h => h
  intro hc
  rw [hc] at hrun
  cases hrun

/-- Nothing is proposed before the third statement has run. -/
theorem pending_nil (hs : Inv sha256 s) {t : ℕ} {stage : Stage} (hst : (s.calls t).stage = stage)
    (hf : stage ≠ .failed) (hd : stage ≠ .done) : s.observations.pending t = [] := by
  rw [(hs.calls t).pending (by rw [hst]; exact hf), proposed, if_neg (by rw [hst]; exact hd)]

theorem putBlob (hs : Inv sha256 s) {t : ℕ} {blobs : Table ℕ Bytes (Option Bytes)}
    (hst : (s.calls t).stage = .blob)
    (hi : insertRow s.blobs t (sha256 (s.calls t).vk.vkBytes) (s.calls t).vk.vkBytes =
      some blobs) : Inv sha256 { s.goto t .role with blobs } := by
  have hcommitted := insertRow_committed hi
  refine hs.of_call (hs.blobs.insertRow rfl hi) hs.roles rfl rfl (by rw [hst]; simp) (by simp)
    ⟨fun _ => seen_insertRow_self hi, fun h => (by cases h),
      fun _ => hs.pending_nil hst (by simp) (by simp), fun h => (by cases h)⟩
    fun t' _ => (hs.calls t').mono (fun _ h => seen_insertRow hi h) (fun _ h => h) rfl
      (fun k h => ?_) fun _ h => h
  show (blobs.committed k).isSome = true
  rw [hcommitted]
  exact h

theorem putRole (hs : Inv sha256 s) {t : ℕ} {roles : Table ℕ RoleRow (Option Unit)}
    (hst : (s.calls t).stage = .role)
    (hi : insertRow s.roles t (roleOf sha256 (s.calls t).vk) () = some roles) :
    Inv sha256 { s.goto t .observation with roles } := by
  have hcommitted := insertRow_committed hi
  refine hs.of_call hs.blobs (hs.roles.insertRow trivial hi) rfl rfl (by rw [hst]; simp) (by simp)
    ⟨fun _ => (hs.calls t).blob (by rw [hst]; rfl), fun _ => seen_insertRow_self hi,
      fun _ => hs.pending_nil hst (by simp) (by simp), fun h => (by cases h)⟩
    fun t' _ => (hs.calls t').mono (fun _ h => h) (fun _ h => seen_insertRow hi h) rfl
      (fun _ h => h) fun k h => ?_
  show (roles.committed k).isSome = true
  rw [hcommitted]
  exact h

theorem observe (hs : Inv sha256 s) {t : ℕ} {k : ObservationKey} {height : ℕ}
    {observations : Store ℕ ObservationKey (Option ℕ) (ℕ × ℕ)}
    (hst : (s.calls t).stage = .observation) (hr : (s.calls t).vk.row sha256 = some (k, height))
    (hu : s.observations.upsert applyLeast t k (t, height) = some observations) :
    Inv sha256 { s.goto t .done with observations } := by
  have hrows := hs.rows.upsert hu
  obtain ⟨-, rfl⟩ := Lib.Upserts.Inv.upsert_cases hu
  refine ⟨hs.blobs, hs.roles, hrows, ?_, fun k' t' h => ?_⟩
  · refine (Function.forall_update_iff s.calls fun t c => CallOk sha256 _ t c).mpr
      ⟨⟨fun _ => (hs.calls t).blob (by rw [hst]; rfl), fun _ => (hs.calls t).role (by rw [hst]; rfl),
        fun _ => ?_, fun h => (by cases h)⟩, fun t' ht => (hs.calls t').mono (fun _ h => h)
        (fun _ h => h) (Function.update_of_ne ht _ _) (fun _ h => h) fun _ h => h⟩
    show Function.update s.observations.pending t _ t = _
    rw [Function.update_self, hs.pending_nil hst (by simp) (by simp), proposed, if_pos rfl]
    simp only [hr]
    rfl
  · show (k', t', h) ∈ s.observations.log ↔ (Function.update s.calls t _ t').stage = _ ∧
      VerifierKeyObservationRecord.row sha256 (Function.update s.calls t _ t').vk = _
    rw [hs.log]
    by_cases ht : t' = t
    · subst ht
      rw [Function.update_self, hst]
      simp
    · rw [Function.update_of_ne ht]

theorem commit (hs : Inv sha256 s) {t : ℕ} (hst : (s.calls t).stage = .done) :
    Inv sha256 (s.finish t true) := by
  have hseen := (hs.calls t).blob (by rw [hst]; rfl)
  have hrole := (hs.calls t).role (by rw [hst]; rfl)
  have hpending := (hs.calls t).pending (by rw [hst]; simp)
  refine ⟨hs.blobs.commit t, hs.roles.commit t, hs.rows.commit t, ?_, fun k t' h => ?_⟩
  · refine (Function.forall_update_iff s.calls fun t c => CallOk sha256 _ t c).mpr
      ⟨⟨fun h => (by cases h), fun h => (by cases h), fun _ => Function.update_self _ _ _,
        fun _ k h hr => ?_⟩, fun t' ht => (hs.calls t').mono (fun _ h => seen_commit hs.blobs ht h)
        (fun _ h => seen_commit hs.roles ht h) (Function.update_of_ne ht _ _)
        (fun _ h => seen_of_committed hs.blobs h) fun _ h => seen_of_committed hs.roles h⟩
    rw [row_vkHash hr]
    exact ⟨hseen, hrole⟩
  · show (k, t', h) ∈ s.observations.log ++ s.observations.pending t ↔
      (Function.update s.calls t _ t').stage = _ ∧
        VerifierKeyObservationRecord.row sha256 (Function.update s.calls t _ t').vk = _
    rw [List.mem_append, hs.log, hpending, mem_proposed hst]
    by_cases ht : t' = t
    · subst ht
      rw [Function.update_self, hst]
      simp
    · rw [Function.update_of_ne ht]
      simp [ht]

theorem rollback (hs : Inv sha256 s) {t : ℕ} (hrun : (s.calls t).stage.running = true) :
    Inv sha256 (s.finish t false) := by
  have hold : (s.calls t).stage ≠ .committed := by
    intro hc
    rw [hc] at hrun
    cases hrun
  refine ⟨hs.blobs.rollback t, hs.roles.rollback t, hs.rows.rollback t, ?_, fun k t' h => ?_⟩
  · exact (Function.forall_update_iff s.calls fun t c => CallOk sha256 _ t c).mpr
      ⟨⟨fun h => (by cases h), fun h => (by cases h), fun _ => Function.update_self _ _ _,
        fun h => (by cases h)⟩, fun t' ht => (hs.calls t').mono (fun _ h => seen_rollback ht h)
        (fun _ h => seen_rollback ht h) (Function.update_of_ne ht _ _) (fun _ h => h) fun _ h => h⟩
  · show (k, t', h) ∈ s.observations.log ↔ (Function.update s.calls t _ t').stage = _ ∧
      VerifierKeyObservationRecord.row sha256 (Function.update s.calls t _ t').vk = _
    rw [hs.log]
    by_cases ht : t' = t
    · subst ht
      rw [Function.update_self]
      simp [hold]
    · rw [Function.update_of_ne ht]

theorem exec (hs : Inv sha256 s) {t : ℕ} (h : execStep sha256 s t = some s') : Inv sha256 s' := by
  unfold execStep at h
  rcases hst : (s.calls t).stage <;> simp only [hst] at h
  case blob =>
    obtain ⟨blobs, hi, rfl⟩ := Option.map_eq_some_iff.mp h
    exact hs.putBlob hst hi
  case role =>
    obtain ⟨roles, hi, rfl⟩ := Option.map_eq_some_iff.mp h
    exact hs.putRole hst hi
  case observation =>
    have hfail := hs.fail (t := t) (by rw [hst]; rfl)
    unfold observeStep at h
    split_ifs at h
    · cases h
      exact hfail
    · rcases hr : (s.calls t).vk.row sha256 with _ | ⟨k, height⟩
      · rw [hr] at h
        cases h
        exact hfail
      · rw [hr] at h
        obtain ⟨observations, hu, rfl⟩ := Option.map_eq_some_iff.mp h
        exact hs.observe hst hr hu
  all_goals cases h

theorem step (hs : Inv sha256 s) {e : Ev} (h : step sha256 s e = some s') : Inv sha256 s' := by
  cases e with
  | begin t vk =>
    obtain ⟨hidle, h⟩ := Option.ite_none_right_eq_some.mp h
    cases h
    exact hs.begin hidle vk
  | exec t => exact hs.exec h
  | fault t =>
    obtain ⟨hrun, h⟩ := Option.ite_none_right_eq_some.mp h
    cases h
    exact hs.fail hrun
  | commit t =>
    obtain ⟨hst, h⟩ := Option.ite_none_right_eq_some.mp h
    cases h
    exact hs.commit hst
  | rollback t =>
    obtain ⟨hrun, h⟩ := Option.ite_none_right_eq_some.mp h
    cases h
    exact hs.rollback hrun

end Inv

/-! ### Every run -/

/-- The transaction `t` has committed an observation of the key at the height. -/
def Observed (sha256 : Bytes → Bytes) (s : VkState) (t : ℕ) (k : ObservationKey) (h : ℕ) : Prop :=
  (s.calls t).stage = .committed ∧ (s.calls t).vk.row sha256 = some (k, h)

theorem goto_calls_ne {s : VkState} {t t' : ℕ} {stage : Stage} (h : t' ≠ t) :
    (s.goto t stage).calls t' = s.calls t' :=
  Function.update_of_ne h _ _

/-- A call that has committed stays as it is. -/
theorem calls_step {s s' : VkState} {e : Ev} (h : step sha256 s e = some s') {t : ℕ}
    (hc : (s.calls t).stage = .committed) : s'.calls t = s.calls t := by
  have hne : ∀ {t' : ℕ} {stage : Stage}, (s.calls t').stage = stage → stage ≠ .committed →
      t ≠ t' := by
    rintro t' stage hst hn rfl
    exact hn (hst.symm.trans hc)
  have hrunning : ∀ {t' : ℕ}, (s.calls t').stage.running = true → t ≠ t' := by
    rintro t' hrun rfl
    rw [hc] at hrun
    cases hrun
  cases e with
  | begin t' vk =>
    obtain ⟨hidle, h⟩ := Option.ite_none_right_eq_some.mp h
    cases h
    exact Function.update_of_ne (hne hidle (by simp)) _ _
  | exec t' =>
    simp only [step, execStep] at h
    rcases hst : (s.calls t').stage <;> simp only [hst] at h
    case blob =>
      obtain ⟨blobs, -, rfl⟩ := Option.map_eq_some_iff.mp h
      exact goto_calls_ne (hne hst (by simp))
    case role =>
      obtain ⟨roles, -, rfl⟩ := Option.map_eq_some_iff.mp h
      exact goto_calls_ne (hne hst (by simp))
    case observation =>
      have ht : t ≠ t' := hne hst (by simp)
      unfold observeStep at h
      split_ifs at h
      · cases h
        exact goto_calls_ne ht
      · rcases hr : (s.calls t').vk.row sha256 with _ | ⟨k, height⟩
        · rw [hr] at h
          cases h
          exact goto_calls_ne ht
        · rw [hr] at h
          obtain ⟨observations, -, rfl⟩ := Option.map_eq_some_iff.mp h
          exact goto_calls_ne ht
    all_goals cases h
  | fault t' =>
    obtain ⟨hrun, h⟩ := Option.ite_none_right_eq_some.mp h
    cases h
    exact goto_calls_ne (hrunning hrun)
  | commit t' =>
    obtain ⟨hst, h⟩ := Option.ite_none_right_eq_some.mp h
    cases h
    exact goto_calls_ne (hne hst (by simp))
  | rollback t' =>
    obtain ⟨hrun, h⟩ := Option.ite_none_right_eq_some.mp h
    cases h
    exact goto_calls_ne (hrunning hrun)

theorem applyLeast_fold (k : ObservationKey) (ops : List (ObservationKey × ℕ × ℕ)) :
    fold applyLeast none k ops = ((upsertsOf k ops).map (·.2)).min? :=
  fold_least (fun a : ℕ × ℕ => a.2) k ops

theorem committed_iff {s : VkState} (hs : Inv sha256 s) (k : ObservationKey) (m : ℕ) :
    s.observations.rows.committed k = some m ↔
      (∃ t, Observed sha256 s t k m) ∧ ∀ t h, Observed sha256 s t k h → m ≤ h := by
  have hmem : ∀ h, h ∈ (upsertsOf k s.observations.log).map (·.2) ↔
      ∃ t, Observed sha256 s t k h := by
    intro h
    constructor
    · intro hm
      obtain ⟨a, ha, rfl⟩ := List.mem_map.mp hm
      exact ⟨a.1, (hs.log k a.1 a.2).mp (mem_upsertsOf.mp ha)⟩
    · rintro ⟨t, ht⟩
      exact List.mem_map.mpr ⟨(t, h), mem_upsertsOf.mpr ((hs.log k t h).mpr ht), rfl⟩
  rw [hs.rows.committed, applyLeast_fold, List.min?_eq_some_iff, hmem]
  constructor
  · rintro ⟨h1, h2⟩
    exact ⟨h1, fun t h ht => h2 h ((hmem h).mpr ⟨t, ht⟩)⟩
  · rintro ⟨h1, h2⟩
    refine ⟨h1, fun h hm => ?_⟩
    obtain ⟨t, ht⟩ := (hmem h).mp hm
    exact h2 t h ht

/-- **The first height of a verifier key.** In every state reached by any interleaving, the stored
height of a key is the least of all its committed observations, in whatever order they were made or
committed, and a key without a row has none; the blob and the role of an observed key are there, and
the hash of the blob is the key's. In every later state the height is the same or less. -/
theorem firstSeen_least (sha256 : Bytes → Bytes) {es es' : List Ev} {s s' : VkState}
    (h : run (step sha256) es .init = some s) (h' : run (step sha256) es' s = some s') :
    (∀ k m, s.observations.rows.committed k = some m ↔
      (∃ t, Observed sha256 s t k m) ∧ ∀ t h, Observed sha256 s t k h → m ≤ h) ∧
    (∀ k t h, Observed sha256 s t k h → ∃ m data, s.observations.rows.committed k = some m ∧
      s.blobs.committed k.vkHash = some data ∧ sha256 data = k.vkHash ∧
      s.roles.committed ⟨k.vkHash, .verifierKey⟩ = some ()) ∧
    ∀ k m, s.observations.rows.committed k = some m →
      ∃ m' ≤ m, s'.observations.rows.committed k = some m' := by
  have hs : Inv sha256 s := run_inv (fun _ _ _ hI hst => hI.step hst) es _ _ .init h
  have hs' : Inv sha256 s' ∧ ∀ t, (s.calls t).stage = .committed → s'.calls t = s.calls t :=
    run_inv (I := fun s' => Inv sha256 s' ∧
        ∀ t, (s.calls t).stage = .committed → s'.calls t = s.calls t)
      (fun _ _ _ hI hst => ⟨hI.1.step hst, fun t ht =>
        (calls_step hst (by rw [hI.2 t ht, ht])).trans (hI.2 t ht)⟩) es' s s' ⟨hs, fun _ _ => rfl⟩ h'
  have hsome : ∀ {s : VkState}, Inv sha256 s → ∀ {t k h}, Observed sha256 s t k h →
      ∃ m ≤ h, s.observations.rows.committed k = some m := by
    intro s hs t k h ho
    rcases hm : s.observations.rows.committed k with _ | m
    · -- a committed observation is in the log
      have hlog := (hs.log k t h).mpr ho
      rw [hs.rows.committed, applyLeast_fold, List.min?_eq_none_iff, List.map_eq_nil_iff] at hm
      have := mem_upsertsOf.mpr hlog
      rw [hm] at this
      cases this
    · exact ⟨m, ((committed_iff hs k m).mp hm).2 t h ho, rfl⟩
  refine ⟨committed_iff hs, fun k t h ho => ?_, fun k m hm => ?_⟩
  · obtain ⟨m, -, hm⟩ := hsome hs ho
    obtain ⟨hb, hr⟩ := (hs.calls t).classified ho.1 k h ho.2
    obtain ⟨data, hdata⟩ := Option.isSome_iff_exists.mp hb
    obtain ⟨⟨⟩, hrole⟩ := Option.isSome_iff_exists.mp hr
    exact ⟨m, data, hm, hdata, hs.blobs.committed _ _ hdata, hrole⟩
  · obtain ⟨⟨t, ht⟩, -⟩ := (committed_iff hs k m).mp hm
    refine hsome hs'.1 (t := t) ?_
    rw [Observed, hs'.2 t ht.1]
    exact ht

/-- A key of the protocol, seen at a height. -/
def protocolKey (height : ℚ) : VerifierKeyObservationRecord :=
  ⟨[1], ascii "preview", .protocol, ascii "zswap", none, .finite height⟩

/-- Two observations at the heights 9 and 4, whose transactions overlap, a third one at the height 2
that is rolled back, and one of a contract without an address. -/
def overlappingObservations : List Ev :=
  [.begin 0 (protocolKey 9), .exec 0, .begin 1 (protocolKey 4), .exec 0, .exec 0, .commit 0,
    .exec 1, .exec 1, .exec 1, .begin 2 (protocolKey 2), .exec 2, .exec 2, .commit 1, .exec 2,
    .fault 2, .rollback 2, .begin 3 { protocolKey 1 with scope := .contract }, .exec 3, .exec 3,
    .exec 3]

theorem firstSeen_least_overlapping : ∃ s,
    run (step sha256OfByte) overlappingObservations .init = some s ∧
    (s.calls 3).stage = .failed ∧ ∃ m data,
      s.observations.rows.committed
        ⟨sha256OfByte [1], ascii "preview", .protocol, none, ascii "zswap"⟩ = some m ∧
      s.blobs.committed (sha256OfByte [1]) = some data ∧ sha256OfByte data = sha256OfByte [1] ∧
      s.roles.committed ⟨sha256OfByte [1], .verifierKey⟩ = some () := by
  have hr : ∃ s, run (step sha256OfByte) overlappingObservations .init = some s := ⟨_, rfl⟩
  obtain ⟨s, hs⟩ := hr
  refine ⟨s, hs, ?_, (firstSeen_least sha256OfByte hs (rfl : run _ [] s = some s)).2.1
    ⟨sha256OfByte [1], ascii "preview", .protocol, none, ascii "zswap"⟩ 0 9 ?_⟩
  · cases hs
    rfl
  · cases hs
    exact ⟨rfl, rfl⟩

end UmbraDB.Archive.VerifierKeys
