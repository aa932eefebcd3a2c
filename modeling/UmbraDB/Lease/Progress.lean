import UmbraDB.Lease.Hygiene
import UmbraDB.Lib.Schedules
import Mathlib.Data.Set.Card

/-! # Leases: nobody waits for ever because of the layer

The pool of `Lease.Hygiene`, of which at most `max` connections are out at a time. A call that
cannot go on waits for a connection or for the lock of its key, and whoever has these goes on
himself, or is a client with a lease.

* `Owned` : a connection that is out of the pool is used by a call, so none is lost.
* `moves_or_waits` : every call goes on, or waits for one that does or for a lease that is
  outstanding.
* `leases_progress` : with it, the calls take finitely many steps by themselves, and when nobody
  goes on and no lease is outstanding, all calls are over and all connections are back. -/

namespace UmbraDB.Lease.Progress

open UmbraDB.Js.Text UmbraDB.Lib.Runs UmbraDB.Lib.Schedules UmbraDB.Lease.System
open UmbraDB.Lease.Exclusion UmbraDB.Lease.Hygiene

/-! ### Who goes on -/

/-- The live connections that are out of the pool. -/
def inUse (s : LeaseState) : Set ℕ := {c | s.alive c = true ∧ s.idle c = false}

/-- Clean-up statements work, and `reserve()` is fulfilled when there is a connection. -/
def Bounded (hashtext : JsString → ℤ) (max : ℕ) (s : PoolState) (e : PoolEv) : Prop :=
  CleanupsWork hashtext s e ∧ ∀ o c, e = .lease (.reserve o c) → (inUse s.leases).ncard < max

/-- Not a new call, an abort, a `releaseLease` or the loss of a connection. -/
def ownStep : PoolEv → Bool
  | .lease (.acquire ..) => false
  | .lease (.abort _) => false
  | .lease (.releaseLease ..) => false
  | .lease (.die _) => false
  | _ => true

/-- The call of a step. -/
def leaseCall : Ev → Option ℕ
  | .acquire o .. => some o
  | .abort o => some o
  | .reserveTimeout o => some o
  | .reserve o _ => some o
  | .reserveFailed o => some o
  | .callbacks o => some o
  | .setTimeout o => some o
  | .sendLock o => some o
  | .grant o => some o
  | .failed o => some o
  | .settle o => some o
  | .releaseLease _ o => some o
  | .unlock o => some o
  | .unlockFailed o => some o
  | .release o => some o
  | .die _ => none

def callOf : PoolEv → Option ℕ
  | .lease e => leaseCall e
  | .fail o _ => some o
  | .reset o => some o
  | .resetFailed o _ => some o
  | .cancelLost _ => none

/-- The connection of the call is not lost. -/
def Connected (s : LeaseState) (o : ℕ) : Prop :=
  ∀ call c, s.calls o = some call → conn call.stage = some c → s.alive c = true

/-- A step that goes well, as far as the connection is there. -/
def Works (s : LeaseState) : PoolEv → Prop
  | .lease (.reserveTimeout _) => False
  | .lease (.reserveFailed _) => False
  | .lease (.setTimeout o) => Connected s o
  | .lease (.settle o) => Connected s o
  | .fail o cause => cause = .error ∧ ¬ Connected s o
  | .resetFailed o cause => cause = .error ∧ ¬ Connected s o
  | _ => True

/-- The call can take a step. -/
def GoesOn (hashtext : JsString → ℤ) (max : ℕ) (s : PoolState) (o : ℕ) : Prop :=
  ∃ e s', callOf e = some o ∧ ownStep e = true ∧ Works s.leases e ∧ Bounded hashtext max s e ∧
    poolStep hashtext s e = some s'

/-- The client has the lease of the call. -/
def Outstanding (s : LeaseState) (o : ℕ) : Prop :=
  ∃ call c, s.calls o = some call ∧ call.stage = .held c

/-- The lock query of the call waits for the lock of the other. -/
def WaitsFor (hashtext : JsString → ℤ) (s : LeaseState) (o o' : ℕ) : Prop :=
  ∃ call call' c c' n, s.calls o = some call ∧ s.calls o' = some call' ∧
    (call.stage = .waiting c ∨ call.stage = .cleanup c true) ∧
    hashtext call.key = hashtext call'.key ∧ s.locks (hashtext call.key) = some (c', n) ∧
    holding call'.stage = some c' ∧ c' ≠ c

/-- The next step is one of the call, or of the client with its lease. -/
def Moves (hashtext : JsString → ℤ) (max : ℕ) (s : PoolState) (o : ℕ) : Prop :=
  Outstanding s.leases o ∨ GoesOn hashtext max s o

variable {hashtext : JsString → ℤ} {max : ℕ}

/-! ### No connection is lost -/

/-- Every connection that is out of the pool is used by a call, and few are. -/
structure Owned (s : LeaseState) : Prop where
  user : ∀ c ∈ inUse s, ∃ o call, s.calls o = some call ∧ conn call.stage = some c
  calls : {o | s.calls o ≠ none}.Finite
  conns : {c | ¬(s.alive c = true ∧ s.idle c = true)}.Finite

theorem owned_init : Owned .init where
  user c hc := by cases hc.2
  calls := Set.finite_empty.subset fun _ ho => ho rfl
  conns := Set.finite_empty.subset fun _ hc => hc ⟨rfl, rfl⟩

section Owned
variable {s s' : LeaseState} {o : ℕ} {call new : Call}

theorem finite_update (hfin : {o | s.calls o ≠ none}.Finite)
    (hcalls : s'.calls = Function.update s.calls o (some new)) :
    {o | s'.calls o ≠ none}.Finite := by
  refine (hfin.insert o).subset fun o' ho' => ?_
  by_cases ho : o' = o
  · exact Or.inl ho
  · rw [Set.mem_ofPred_eq, hcalls, Function.update_of_ne ho] at ho'
    exact Or.inr ho'

/-- The record of the call `o` becomes `new`, and at most the connection `c` becomes used. -/
theorem Owned.update (h : Owned s) (new : Call)
    (hcalls : s'.calls = Function.update s.calls o (some new))
    (hconns : {c | ¬(s'.alive c = true ∧ s'.idle c = true)}.Finite)
    (huse : ∀ c ∈ inUse s', c ∈ inUse s ∨ conn new.stage = some c)
    (hkeep : ∀ call c, s.calls o = some call → conn call.stage = some c → c ∈ inUse s' →
      conn new.stage = some c) : Owned s' := by
  have hself : s'.calls o = some new := by rw [hcalls, Function.update_self]
  refine ⟨fun c hc => ?_, finite_update h.calls hcalls, hconns⟩
  rcases huse c hc with hu | hn
  · obtain ⟨o', call, h', hcc⟩ := h.user c hu
    by_cases ho : o' = o
    · rw [ho] at h'
      exact ⟨o, new, hself, hkeep call c h' hcc hc⟩
    · exact ⟨o', call, by rw [hcalls, Function.update_of_ne ho, h'], hcc⟩
  · exact ⟨o, new, hself, hn⟩

/-- The call goes on with its connection. -/
theorem Owned.setStage (h : Owned s) (hcall : s.calls o = some call)
    (hcalls : s'.calls = Function.update s.calls o (some new)) (halive : s'.alive = s.alive)
    (hidle : s'.idle = s.idle) (hconn : conn new.stage = conn call.stage) : Owned s' := by
  have huse : inUse s' = inUse s := by rw [inUse, inUse, halive, hidle]
  refine h.update new hcalls (by rw [halive, hidle]; exact h.conns) (fun c hc => ?_) ?_
  · rw [huse] at hc
    exact Or.inl hc
  · intro call' c hcall' hc _
    rw [hcall, Option.some.injEq] at hcall'
    rw [hconn, hcall', hc]

/-- The call is over, and its connection goes back. -/
theorem Owned.giveBack (h : Owned s) (hcall : s.calls o = some call) {c : ℕ}
    (hc : conn call.stage = some c) : Owned ((s.setStage o call .done).giveBack c) := by
  have hidle : ∀ c', c' ≠ c → ((s.setStage o call .done).giveBack c).idle c' = s.idle c' :=
    fun c' hne => Function.update_of_ne hne ..
  refine h.update { call with stage := .done } rfl ?_ (fun c' hc' => ?_) ?_
  · refine (h.conns.insert c).subset fun c' hc' => ?_
    by_cases hcc : c' = c
    · exact Or.inl hcc
    · rw [Set.mem_ofPred_eq, hidle c' hcc] at hc'
      exact Or.inr hc'
  · refine Or.inl ⟨hc'.1, ?_⟩
    by_cases hcc : c' = c
    · subst hcc
      have halive : s.alive c' = true := hc'.1
      have hback : Function.update s.idle c' (s.alive c') c' = false := hc'.2
      rw [Function.update_self, halive] at hback
      cases hback
    · rw [← hidle c' hcc]
      exact hc'.2
  · intro call' c' hcall' hcc ⟨halive, hback⟩
    rw [hcall, Option.some.injEq] at hcall'
    subst hcall'
    rw [hc, Option.some.injEq] at hcc
    subst hcc
    have halive : s.alive c = true := halive
    have hback : Function.update s.idle c (s.alive c) c = false := hback
    rw [Function.update_self, halive] at hback
    cases hback

theorem conn_goes {e : Ev} {aborted : Bool} {stage : Stage} (h : Goes call o e aborted stage) :
    conn stage = conn call.stage := by
  cases h with
  | note => rfl
  | reserveFailed hst => rcases hst with hst | hst <;> rw [hst] <;> rfl
  | failed hst => rcases hst with hst | hst | hst | hst <;> rw [hst] <;> rfl
  | unlockFailed hc => exact (conn_of_unlocking hc).symm
  | abandon hst => rw [hst]; rfl
  | giveUp hst => rw [hst]; rfl
  | cancel hst => rw [hst]; rfl
  | reserveTimeout hst => rw [hst]; rfl
  | orphan hst => rw [hst]; rfl
  | setTimeout hst => rw [hst]; rfl
  | sendAborted hst => rw [hst]; rfl
  | send hst => rw [hst]; rfl
  | settleAborted hst => rw [hst]; rfl
  | settle hst => rw [hst]; rfl
  | releaseLease hst => rw [hst]; rfl

theorem Owned.step {e : Ev} (h : Owned s) (hI : Inv hashtext s)
    (hs : System.step hashtext s e = some s') : Owned s' := by
  cases stepped_of_step hs with
  | @acquire o layer key isTry hadTimeout hasSignal hnone =>
    refine h.update (o := o) _ rfl h.conns (fun c hc => Or.inl hc) fun call c hcall => ?_
    rw [hnone] at hcall
    cases hcall
  | goes hcall hg => exact h.setStage hcall rfl rfl rfl (conn_goes hg)
  | notHeld => exact h
  | @reserve o c call hcall hst hidle =>
    refine h.update (o := o) { call with stage := .fulfilled c false } rfl ?_ ?_ ?_
    · refine (h.conns.insert c).subset fun c' hc' => ?_
      by_cases hcc : c' = c
      · exact Or.inl hcc
      · refine Or.inr fun hboth => hc' ⟨hboth.1, ?_⟩
        show Function.update s.idle c false c' = true
        rw [Function.update_of_ne hcc, hboth.2]
    · intro c' ⟨halive, hidle'⟩
      by_cases hcc : c' = c
      · exact Or.inr (by rw [hcc]; rfl)
      · have hidle' : Function.update s.idle c false c' = false := hidle'
        rw [Function.update_of_ne hcc] at hidle'
        exact Or.inl ⟨halive, hidle'⟩
    · intro call' c' hcall' hc' _
      rw [hcall, Option.some.injEq] at hcall'
      rw [← hcall', hst] at hc'
      cases hc'
  | callbacks hcall hst =>
    obtain rfl := hI.not_gaveUp hcall hst
    exact h.setStage hcall rfl rfl rfl (by rw [conn_enter, hst]; rfl)
  | grant hcall hst =>
    rcases hst with ⟨hst, rfl⟩ | ⟨hst, rfl⟩
    · exact h.setStage hcall rfl rfl rfl (by rw [hst]; rfl)
    · exact h.setStage hcall rfl rfl rfl (by rw [hst]; rfl)
  | refuse hcall hst => exact h.giveBack hcall (by rw [hst]; rfl)
  | unlock hcall hc => exact h.setStage hcall rfl rfl rfl (conn_of_unlocking hc).symm
  | release hcall hst => exact h.giveBack hcall (by rw [hst]; rfl)
  | @die c =>
    have hlost : ∀ c', c' ∈ inUse (dieStep s c) → c' ∈ inUse s := by
      intro c' ⟨halive, hidle⟩
      have halive : Function.update s.alive c false c' = true := halive
      have hidle : Function.update s.idle c false c' = false := hidle
      by_cases hcc : c' = c
      · rw [hcc, Function.update_self] at halive
        cases halive
      · rw [Function.update_of_ne hcc] at halive hidle
        exact ⟨halive, hidle⟩
    refine ⟨fun c' hc' => h.user c' (hlost c' hc'), h.calls, ?_⟩
    refine (h.conns.insert c).subset fun c' hc' => ?_
    by_cases hcc : c' = c
    · exact Or.inl hcc
    · refine Or.inr fun hboth => hc' ⟨?_, ?_⟩
      · show Function.update s.alive c false c' = true
        rw [Function.update_of_ne hcc, hboth.1]
      · show Function.update s.idle c false c' = true
        rw [Function.update_of_ne hcc, hboth.2]

end Owned

/-! ### Runs of the pool -/

structure Ready (hashtext : JsString → ℤ) (s : PoolState) : Prop where
  pool : PoolInv hashtext s
  owned : Owned s.leases
  cancels : {c | s.cancels c ≠ 0}.Finite

section Runs
variable {s s' : PoolState}

/-- What a step does to the leases. -/
theorem leases_step {e : PoolEv} (h : poolStep hashtext s e = some s') :
    s'.leases = s.leases ∨ ∃ e', step hashtext s.leases e' = some s'.leases := by
  cases poolStepped_of_step h with
  | lease hallow hs => exact Or.inr ⟨_, hs⟩
  | fail hcall hf hs => exact Or.inr ⟨_, hs⟩
  | reset => exact Or.inl rfl
  | @resetFailed o c cause hc =>
    obtain ⟨cancels, harrive⟩ := arrive_eq s c cause
    rw [harrive]
    exact Or.inl rfl
  | cancelLost => exact Or.inl rfl

theorem arrive_le (s : PoolState) (c : ℕ) (cause : Cause) (c' : ℕ) :
    (s.arrive c cause).cancels c' ≤ s.cancels c' := by
  unfold PoolState.arrive
  split
  · by_cases hc : c' = c
    · subst hc
      show Function.update s.cancels c' _ c' ≤ _
      rw [Function.update_self]
      exact Nat.sub_le _ _
    · show Function.update s.cancels c _ c' ≤ _
      rw [Function.update_of_ne hc]
  · exact le_rfl

/-- Only an abort sends a cancel request. -/
theorem sessions_cancels {e : Ev} (he : ∀ o, e ≠ .abort o) :
    (s.sessions e).cancels = s.cancels := by
  unfold PoolState.sessions
  split
  · exact absurd rfl (he _)
  · split <;> rfl
  · rfl

theorem cancels_le {e : PoolEv} (he : ∀ o, e ≠ .lease (.abort o))
    (h : poolStep hashtext s e = some s') (c : ℕ) : s'.cancels c ≤ s.cancels c := by
  cases poolStepped_of_step h with
  | @lease e leases hallow hs =>
    show (s.sessions e).cancels c ≤ s.cancels c
    rw [sessions_cancels fun o ho => he o (by rw [ho])]
  | fail hcall hf hs => exact arrive_le ..
  | reset => exact le_rfl
  | resetFailed hc => exact arrive_le ..
  | cancelLost => exact arrive_le ..

theorem finite_cancels (hfin : {c | s.cancels c ≠ 0}.Finite) {e : PoolEv}
    (h : poolStep hashtext s e = some s') : {c | s'.cancels c ≠ 0}.Finite := by
  by_cases he : ∃ o, e = .lease (.abort o)
  · obtain ⟨o, rfl⟩ := he
    cases poolStepped_of_step h with
    | lease hallow hs =>
      show {c | (s.sessions (.abort o)).cancels c ≠ 0}.Finite
      unfold PoolState.sessions
      dsimp only
      split
      · next c _ =>
        refine (hfin.insert c).subset fun c' hc' => ?_
        by_cases hcc : c' = c
        · exact Or.inl hcc
        · have hc' : Function.update s.cancels c (s.cancels c + 1) c' ≠ 0 := hc'
          rw [Function.update_of_ne hcc] at hc'
          exact Or.inr hc'
      · exact hfin
  · refine hfin.subset fun c hc hz => hc ?_
    have hle := cancels_le (fun o ho => he ⟨o, ho⟩) h c
    rw [hz] at hle
    exact Nat.le_zero.mp hle

theorem ready_init : Ready hashtext .init where
  pool := poolInv_init
  owned := owned_init
  cancels := Set.finite_empty.subset fun _ hc => hc rfl

theorem Ready.step {e : PoolEv} (hs : Ready hashtext s) (hP : Bounded hashtext max s e)
    (h : poolStep hashtext s e = some s') : Ready hashtext s' := by
  refine ⟨poolInv_step hs.pool hP.1 h, ?_, finite_cancels hs.cancels h⟩
  rcases leases_step h with heq | ⟨e', hs'⟩
  · rw [heq]
    exact hs.owned
  · exact hs.owned.step hs.pool.leases hs'

theorem ready_run {es : List PoolEv}
    (ha : Along (poolStep hashtext) (Bounded hashtext max) es .init)
    (h : run (poolStep hashtext) es .init = some s) : Ready hashtext s :=
  run_inv_along (fun _ _ _ hI hP hst => hI.step hP hst) es _ _ ready_init ha h

end Runs

/-! ### Whoever has what another waits for -/

section GoesOn
variable {s : PoolState} {o c : ℕ} {call : Call}

theorem connected (hcall : s.leases.calls o = some call) (hc : conn call.stage = some c)
    (ha : s.leases.alive c = true) : Connected s.leases o := by
  intro call' c' hcall' hc'
  rw [hcall, Option.some.injEq] at hcall'
  rw [← hcall', hc, Option.some.injEq] at hc'
  rw [← hc', ha]

theorem not_connected (hcall : s.leases.calls o = some call) (hc : conn call.stage = some c)
    (ha : ¬ s.leases.alive c = true) : ¬ Connected s.leases o :=
  fun h => ha (h call c hcall hc)

/-- A step of the leases that is no abort and takes no connection. -/
theorem bounded_lease {e : Ev} (habort : ∀ o, e ≠ .abort o) (hreserve : ∀ o c, e ≠ .reserve o c) :
    Bounded hashtext max s (.lease e) := by
  refine ⟨?_, fun o c he => absurd (PoolEv.lease.inj he) (hreserve o c)⟩
  cases e with
  | abort o => exact absurd rfl (habort o)
  | _ => trivial

/-- The statement of a call on a lost connection fails. -/
theorem goesOn_fail {e : Ev} (hcall : s.leases.calls o = some call)
    (hc : conn call.stage = some c) (ha : ¬ s.leases.alive c = true)
    (hf : Hygiene.failure o call = some (e, c))
    (h : ∃ leases, step hashtext s.leases e = some leases) : GoesOn hashtext max s o := by
  obtain ⟨leases, h⟩ := h
  refine ⟨.fail o .error, { s with leases := leases }, rfl, rfl,
    ⟨rfl, not_connected hcall hc ha⟩, ⟨fun call' c' hcall' hc' ha' => ?_, fun o' c' he => ?_⟩, ?_⟩
  · rw [hcall, Option.some.injEq] at hcall'
    subst hcall'
    rw [conn_of_unlocking hc', Option.some.injEq] at hc
    exact absurd (hc ▸ ha') ha
  · cases he
  · simp only [poolStep, hcall, Option.bind_some, hf, PoolState.canFail, if_true, h,
      Option.map_some]
    rfl

theorem goesOn_failed (hcall : s.leases.calls o = some call)
    (hst : call.stage = .settingTimeout c ∨ call.stage = .waiting c ∨ call.stage = .granted c ∨
      call.stage = .cleanup c true) (ha : ¬ s.leases.alive c = true) :
    GoesOn hashtext max s o := by
  have hstep : ∃ leases, step hashtext s.leases (.failed o) = some leases := by
    simp only [step, hcall, Option.bind_some, failedStep]
    rcases hst with hst | hst | hst | hst <;> rw [hst] <;> exact ⟨_, rfl⟩
  have hf : Hygiene.failure o call = some (.failed o, c) := by
    unfold Hygiene.failure
    rcases hst with hst | hst | hst | hst <;> rw [hst]
  have hc : conn call.stage = some c := by
    rcases hst with hst | hst | hst | hst <;> rw [hst] <;> rfl
  exact goesOn_fail hcall hc ha hf hstep

/-- A step of the leases that does not fail. -/
theorem goesOn_lease {e : Ev} (he : leaseCall e = some o) (hown : ownStep (.lease e) = true)
    (hw : Works s.leases (.lease e)) (hb : Bounded hashtext max s (.lease e))
    (hallow : s.allows e = true) (h : ∃ leases, step hashtext s.leases e = some leases) :
    GoesOn hashtext max s o := by
  obtain ⟨leases, h⟩ := h
  refine ⟨.lease e, { s.sessions e with leases := leases }, he, hown, hw, hb, ?_⟩
  simp only [poolStep, hallow, if_true, h, Option.map_some]

theorem goesOn_unlock (hcall : s.leases.calls o = some call) (hu : call.stage.unlocking = some c) :
    GoesOn hashtext max s o := by
  by_cases ha : s.leases.alive c = true
  · refine goesOn_lease (e := .unlock o) rfl rfl trivial (bounded_lease (by simp) (by simp)) rfl ?_
    simp only [step, hcall, Option.bind_some, unlockStep, hu, if_pos ha]
    exact ⟨_, rfl⟩
  · refine goesOn_fail (e := .unlockFailed o) hcall (conn_of_unlocking hu) ha ?_ ?_
    · unfold Stage.unlocking at hu
      unfold Hygiene.failure
      split at hu
      · next hst => rw [hst, ← Option.some.inj hu]
      · next hst => rw [hst, ← Option.some.inj hu]
      · cases hu
    · simp only [step, hcall, Option.bind_some, unlockFailedStep, hu, Option.map_some]
      exact ⟨_, rfl⟩

theorem goesOn_settle (hcall : s.leases.calls o = some call) (hst : call.stage = .granted c) :
    GoesOn hashtext max s o := by
  have hc : conn call.stage = some c := by rw [hst]; rfl
  by_cases ha : s.leases.alive c = true
  · refine goesOn_lease (e := .settle o) rfl rfl (connected hcall hc ha)
      (bounded_lease (by simp) (by simp)) rfl ?_
    simp only [step, hcall, Option.bind_some, settleStep, hst]
    split_ifs
    · exact ⟨_, rfl⟩
    · exact ⟨_, rfl⟩
  · exact goesOn_failed hcall (Or.inr (Or.inr (Or.inl hst))) ha

/-- The call has the lock of its key. -/
theorem moves_of_holding (hcall : s.leases.calls o = some call)
    (hh : holding call.stage = some c) : Moves hashtext max s o := by
  unfold holding at hh
  split at hh
  · next hst => exact Or.inr (goesOn_settle hcall hst)
  · next hst => exact Or.inr (goesOn_unlock hcall (by rw [hst]; rfl))
  · next hst => exact Or.inl ⟨call, _, hcall, hst⟩
  · next hst => exact Or.inr (goesOn_unlock hcall (by rw [hst]; rfl))
  · cases hh

/-- The lock query of the call is at the server. -/
theorem moves_of_waiting (hs : Ready hashtext s) (hcall : s.leases.calls o = some call)
    (hst : call.stage = .waiting c ∨ call.stage = .cleanup c true) :
    Moves hashtext max s o ∨
      ∃ o', Moves hashtext max s o' ∧ WaitsFor hashtext s.leases o o' := by
  have hc : conn call.stage = some c := by rcases hst with hst | hst <;> rw [hst] <;> rfl
  by_cases ha : s.leases.alive c = true
  · rcases hl : lockBy c (s.leases.locks (hashtext call.key)) with _ | owner
    · obtain ⟨⟨c', n⟩, howner⟩ : ∃ owner, s.leases.locks (hashtext call.key) = some owner := by
        rcases h : s.leases.locks (hashtext call.key) with _ | owner
        · rw [h] at hl
          cases hl
        · exact ⟨owner, rfl⟩
      have hne : c' ≠ c := by
        rintro rfl
        rw [howner, lockBy, if_pos rfl] at hl
        cases hl
      obtain ⟨-, -, o', call', hcall', hkey, hh⟩ := hs.pool.locks _ _ _ howner
      exact Or.inr ⟨o', moves_of_holding hcall' hh, call, call', c, c', n, hcall, hcall', hst, hkey,
        howner, hh, hne⟩
    · refine Or.inl (Or.inr (goesOn_lease (e := .grant o) rfl rfl trivial
        (bounded_lease (by simp) (by simp)) rfl ?_))
      rcases hst with hst | hst
      · simp only [step, hcall, Option.bind_some, grantStep, hst, if_pos ha, hl]
        exact ⟨_, rfl⟩
      · simp only [step, hcall, Option.bind_some, grantStep, hst, if_pos ha, hl, Option.map_some]
        exact ⟨_, rfl⟩
  · refine Or.inl (Or.inr (goesOn_failed hcall (Or.inr ?_) ha))
    rcases hst with hst | hst
    · exact Or.inl hst
    · exact Or.inr (Or.inr hst)

/-- At the end of a call: its `reset`, if there is one, and `release()`. -/
theorem goesOn_resetting (hcall : s.leases.calls o = some call)
    (hst : call.stage = .resetting c) : GoesOn hashtext max s o := by
  have hc : conn call.stage = some c := by rw [hst]; rfl
  by_cases hr : call.hadTimeout = true ∧ s.resets o = false
  · have hreset : s.resetting o = some c := by
      simp only [PoolState.resetting, hcall, Option.bind_some, hst, hr.1, hr.2, Bool.not_false,
        Bool.and_self, if_true]
    by_cases ha : s.leases.alive c = true
    · have hstep : ∃ s', poolStep hashtext s (.reset o) = some s' := by
        simp only [poolStep, hreset, Option.bind_some, if_pos ha]
        exact ⟨_, rfl⟩
      obtain ⟨s', hstep⟩ := hstep
      exact ⟨.reset o, s', rfl, rfl, trivial, ⟨trivial, fun o' c' he => by cases he⟩, hstep⟩
    · have hstep : ∃ s', poolStep hashtext s (.resetFailed o .error) = some s' := by
        simp only [poolStep, hreset, Option.bind_some, PoolState.canFail, if_true]
        exact ⟨_, rfl⟩
      obtain ⟨s', hstep⟩ := hstep
      refine ⟨.resetFailed o .error, s', rfl, rfl, ⟨rfl, not_connected hcall hc ha⟩,
        ⟨fun c' hc' ha' => ?_, fun o' c' he => by cases he⟩, hstep⟩
      rw [hreset, Option.some.injEq] at hc'
      exact absurd (hc' ▸ ha') ha
  · refine goesOn_lease (e := .release o) rfl rfl trivial (bounded_lease (by simp) (by simp)) ?_ ?_
    · rw [PoolState.allows, hcall, Option.all_some]
      rcases hto : call.hadTimeout with _ | _
      · rfl
      · rw [Bool.not_true, Bool.false_or]
        exact Bool.not_eq_false _ ▸ fun hf => hr ⟨hto, hf⟩
    · simp only [step, hcall, Option.bind_some, releaseStep, hst]
      exact ⟨_, rfl⟩

/-- A call that has a connection. -/
theorem moves_of_conn (hs : Ready hashtext s) (hcall : s.leases.calls o = some call)
    (hc : conn call.stage = some c) : Moves hashtext max s o ∨
      ∃ o', Moves hashtext max s o' ∧ WaitsFor hashtext s.leases o o' := by
  rcases hst : call.stage with
    _ | _ | ⟨c', gaveUp⟩ | c' | c' | c' | c' | ⟨c', _ | _⟩ | c' | c' | c' | _
  · rw [hst] at hc
    cases hc
  · rw [hst] at hc
    cases hc
  · refine Or.inl (Or.inr (goesOn_lease (e := .callbacks o) rfl rfl trivial
      (bounded_lease (by simp) (by simp)) rfl ?_))
    simp only [step, hcall, Option.bind_some, callbacksStep, hst]
    exact ⟨_, rfl⟩
  · refine Or.inl (Or.inr ?_)
    by_cases ha : s.leases.alive c' = true
    · refine goesOn_lease (e := .setTimeout o) rfl rfl (connected hcall (by rw [hst]; rfl) ha)
        (bounded_lease (by simp) (by simp)) rfl ?_
      simp only [step, hcall, Option.bind_some, hst]
      exact ⟨_, rfl⟩
    · exact goesOn_failed hcall (Or.inl hst) ha
  · refine Or.inl (Or.inr (goesOn_lease (e := .sendLock o) rfl rfl trivial
      (bounded_lease (by simp) (by simp)) rfl ?_))
    simp only [step, hcall, Option.bind_some, sendLockStep, hst]
    split_ifs
    · exact ⟨_, rfl⟩
    · exact ⟨_, rfl⟩
  · exact moves_of_waiting hs hcall (Or.inl hst)
  · exact Or.inl (moves_of_holding hcall (by rw [hst]; rfl))
  · exact Or.inl (moves_of_holding hcall (by rw [hst]; rfl))
  · exact moves_of_waiting hs hcall (Or.inr hst)
  · exact Or.inl (moves_of_holding hcall (by rw [hst]; rfl))
  · exact Or.inl (moves_of_holding hcall (by rw [hst]; rfl))
  · exact Or.inl (Or.inr (goesOn_resetting hcall hst))
  · rw [hst] at hc
    cases hc

/-- A call that waits for a connection, when not all are out. -/
theorem goesOn_reserving (hs : Ready hashtext s) (hcall : s.leases.calls o = some call)
    (hst : call.stage = .reserving ∨ call.stage = .abandoned)
    (hmax : (inUse s.leases).ncard < max) : GoesOn hashtext max s o := by
  obtain ⟨c, hc⟩ := hs.owned.conns.exists_notMem
  have hc : s.leases.alive c = true ∧ s.leases.idle c = true := not_not.mp hc
  refine goesOn_lease (e := .reserve o c) rfl rfl trivial ⟨trivial, fun _ _ _ => hmax⟩ rfl ?_
  simp only [step, hcall, Option.bind_some, reserveStep, if_pos hc]
  rcases hst with hst | hst
  · rw [hst]
    exact ⟨_, rfl⟩
  · rw [hst]
    exact ⟨_, rfl⟩

/-- Whoever is not over goes on, or waits for one who does. -/
theorem moves_or_waits (max : ℕ) (hs : Ready hashtext s) (hcall : s.leases.calls o = some call)
    (hne : call.stage ≠ .done) : Moves hashtext max s o ∨
      (∃ o', Moves hashtext max s o' ∧ WaitsFor hashtext s.leases o o') ∨
      max ≤ (inUse s.leases).ncard ∧ ∀ c ∈ inUse s.leases, ∃ o' call',
        s.leases.calls o' = some call' ∧ conn call'.stage = some c ∧
        (Moves hashtext max s o' ∨
          ∃ o'', Moves hashtext max s o'' ∧ WaitsFor hashtext s.leases o' o'') := by
  rcases hc : conn call.stage with _ | c
  · have hst : call.stage = .reserving ∨ call.stage = .abandoned := by
      unfold conn at hc
      split at hc
      · next hst => exact Or.inl hst
      · next hst => exact Or.inr hst
      on_goal 10 => next hst => exact absurd hst hne
      all_goals cases hc
    by_cases hmax : (inUse s.leases).ncard < max
    · exact Or.inl (Or.inr (goesOn_reserving hs hcall hst hmax))
    · refine Or.inr (Or.inr ⟨not_lt.mp hmax, fun c hc => ?_⟩)
      obtain ⟨o', call', hcall', hc'⟩ := hs.owned.user c hc
      exact ⟨o', call', hcall', hc', moves_of_conn hs hcall' hc'⟩
  · rcases moves_of_conn hs hcall hc with hm | hw
    · exact Or.inl hm
    · exact Or.inr (Or.inl hw)

end GoesOn

/-! ### Every step counts -/

/-- How far the call is from its end. -/
def stageRank : Stage → ℕ
  | .reserving => 12
  | .abandoned => 11
  | .fulfilled _ _ => 10
  | .settingTimeout _ => 9
  | .locking _ => 8
  | .waiting _ => 7
  | .granted _ => 6
  | .cleanup _ true => 5
  | .cleanup _ false => 4
  | .releasing _ => 4
  | .resetting _ => 3
  | .held _ => 1
  | .done => 0

/-- The calls with their `reset`s, and the cancel requests that have not arrived. -/
def rank (s : PoolState) : ℕ ⊕ ℕ → ℕ
  | .inl o => (s.leases.calls o).elim 0 fun call =>
      2 * stageRank call.stage + if s.resets o then 0 else 1
  | .inr c => s.cancels c

section Ranks
variable {s s' : PoolState}

theorem stageRank_goes {o : ℕ} {call : Call} {e : Ev} {aborted : Bool} {stage : Stage}
    (h : Goes call o e aborted stage) (he : ownStep (.lease e) = true) :
    stageRank stage < stageRank call.stage := by
  cases h with
  | reserveFailed hst => rcases hst with hst | hst <;> simp [stageRank, hst]
  | failed hst => rcases hst with hst | hst | hst | hst <;> simp [stageRank, hst]
  | unlockFailed hc =>
    unfold Stage.unlocking at hc
    split at hc
    · next hst => simp [stageRank, hst]
    · next hst => simp [stageRank, hst]
    · cases hc
  | reserveTimeout hst => simp [stageRank, hst]
  | orphan hst => simp [stageRank, hst]
  | setTimeout hst => simp [stageRank, hst]
  | sendAborted hst => simp [stageRank, hst]
  | send hst => simp [stageRank, hst]
  | settleAborted hst => simp [stageRank, hst]
  | settle hst => simp [stageRank, hst]
  | _ => cases he

/-- A step of the leases brings one call closer to its end. -/
theorem stageRank_step {l l' : LeaseState} {e : Ev} (he : ownStep (.lease e) = true)
    (h : step hashtext l e = some l') : ∃ o call new, l.calls o = some call ∧
      l'.calls = Function.update l.calls o (some new) ∧
      stageRank new.stage < stageRank call.stage := by
  cases stepped_of_step h with
  | @goes o call _ aborted stage hcall hg => exact ⟨o, call, _, hcall, rfl, stageRank_goes hg he⟩
  | @reserve o c call hcall hst =>
    refine ⟨o, call, { call with stage := .fulfilled c false }, hcall, rfl, ?_⟩
    simp [stageRank, hst]
  | @callbacks o c gaveUp call hcall hst =>
    refine ⟨o, call, { call with stage := enter call c }, hcall, ?_, ?_⟩
    · split <;> rfl
    · rcases enter_cases call c with hen | hen <;> simp [stageRank, hst, hen]
  | @grant o c call owner stage hcall hst =>
    refine ⟨o, call, { call with stage := stage }, hcall, rfl, ?_⟩
    rcases hst with ⟨hst, rfl⟩ | ⟨hst, rfl⟩ <;> simp [stageRank, hst]
  | @refuse o c call hcall hst =>
    exact ⟨o, call, { call with stage := .done }, hcall, rfl, by simp [stageRank, hst]⟩
  | @unlock o c call hcall hc =>
    refine ⟨o, call, { call with stage := .resetting c }, hcall, rfl, ?_⟩
    have hg : Goes call o (.unlockFailed o) call.aborted (.resetting c) := .unlockFailed hc
    exact stageRank_goes hg rfl
  | @release o c call hcall hst =>
    exact ⟨o, call, { call with stage := .done }, hcall, rfl, by simp [stageRank, hst]⟩
  | _ => cases he

/-- The rank of one call is less, and nothing else has more. -/
theorem rank_lt {o : ℕ} {call new : Call} (hcall : s.leases.calls o = some call)
    (hcalls : s'.leases.calls = Function.update s.leases.calls o (some new))
    (hlt : stageRank new.stage < stageRank call.stage) (hresets : s'.resets = s.resets)
    (hcancels : ∀ c, s'.cancels c ≤ s.cancels c) :
    (∀ k, rank s' k ≤ rank s k) ∧ ∃ k, rank s' k < rank s k := by
  have hself : rank s' (.inl o) < rank s (.inl o) := by
    have hnew : rank s' (.inl o) = 2 * stageRank new.stage + if s.resets o then 0 else 1 := by
      rw [rank, hcalls, Function.update_self, hresets]
      rfl
    have hold : rank s (.inl o) = 2 * stageRank call.stage + if s.resets o then 0 else 1 := by
      rw [rank, hcall]
      rfl
    omega
  refine ⟨fun k => ?_, _, hself⟩
  rcases k with o' | c
  · by_cases ho : o' = o
    · rw [ho]
      exact hself.le
    · rw [rank, rank, hcalls, Function.update_of_ne ho, hresets]
  · exact hcancels c

/-- The `reset` of a call has ended. -/
theorem rank_reset {o c : ℕ} (hc : s.resetting o = some c) (hleases : s'.leases = s.leases)
    (hresets : s'.resets = Function.update s.resets o true)
    (hcancels : ∀ c, s'.cancels c ≤ s.cancels c) :
    (∀ k, rank s' k ≤ rank s k) ∧ ∃ k, rank s' k < rank s k := by
  obtain ⟨call, hcall, -, -, hr⟩ := resetting_eq_some hc
  have hself : rank s' (.inl o) < rank s (.inl o) := by
    have hnew : rank s' (.inl o) = 2 * stageRank call.stage + 0 := by
      rw [rank, hleases, hcall, hresets, Function.update_self]
      rfl
    have hold : rank s (.inl o) = 2 * stageRank call.stage + 1 := by
      rw [rank, hcall, hr]
      rfl
    omega
  refine ⟨fun k => ?_, _, hself⟩
  rcases k with o' | c'
  · by_cases ho : o' = o
    · rw [ho]
      exact hself.le
    · rw [rank, rank, hleases, hresets, Function.update_of_ne ho]
  · exact hcancels c'

theorem rank_step {e : PoolEv} (he : ownStep e = true) (h : poolStep hashtext s e = some s') :
    (∀ k, rank s' k ≤ rank s k) ∧ ∃ k, rank s' k < rank s k := by
  have hcancels := cancels_le (fun o ho => by rw [ho] at he; cases he) h
  cases poolStepped_of_step h with
  | @lease e leases hallow hs =>
    obtain ⟨o, call, new, hcall, hcalls, hlt⟩ := stageRank_step he hs
    exact rank_lt hcall hcalls hlt (sessions_resets s e) hcancels
  | @fail _ c cause _ e leases hcall hf hs =>
    have hown : ownStep (.lease e) = true := by rcases failure_eq_some hf with rfl | rfl <;> rfl
    obtain ⟨o, call, new, hcall, hcalls, hlt⟩ := stageRank_step hown hs
    obtain ⟨cancels, harrive⟩ := arrive_eq s c cause
    exact rank_lt hcall hcalls hlt (by rw [harrive]) hcancels
  | reset hc => exact rank_reset hc rfl rfl hcancels
  | @resetFailed o c cause hc =>
    obtain ⟨cancels, harrive⟩ := arrive_eq s c cause
    exact rank_reset hc (by rw [harrive]) rfl hcancels
  | @cancelLost c hpos =>
    refine ⟨fun k => ?_, .inr c, ?_⟩
    · rcases k with o | c'
      · exact le_rfl
      · exact hcancels c'
    · show Function.update s.cancels c (s.cancels c - 1) c < s.cancels c
      rw [Function.update_self]
      omega

theorem finite_rank (hs : Ready hashtext s) : {k | rank s k ≠ 0}.Finite := by
  refine ((hs.owned.calls.image Sum.inl).union (hs.cancels.image Sum.inr)).subset fun k hk => ?_
  rcases k with o | c
  · refine Or.inl ⟨o, fun hnone => hk ?_, rfl⟩
    rw [rank, hnone]
    rfl
  · exact Or.inr ⟨c, hk, rfl⟩

end Ranks

/-- **Nobody waits for ever because of the layer.** In every run with at most `max` connections in
which clean-up statements work and no signal is aborted between the fulfilment of a `reserve()` and
its callbacks: a call that is not over can take a step, or its client has the lease, or it waits for
the lock of such a call, or it waits for a connection while all are used by such calls. Without new
calls, aborts, releases and lost connections the calls take finitely many steps, whatever fails.
When no call can take a step and no lease is outstanding, all calls are over and every connection is
back in the pool. -/
theorem leases_progress {es : List PoolEv} {s : PoolState}
    (ha : Along (poolStep hashtext) (Bounded hashtext max) es .init)
    (h : run (poolStep hashtext) es .init = some s) :
    (∀ o call, s.leases.calls o = some call → call.stage ≠ .done → Moves hashtext max s o ∨
      (∃ o', Moves hashtext max s o' ∧ WaitsFor hashtext s.leases o o') ∨
      max ≤ (inUse s.leases).ncard ∧ ∀ c ∈ inUse s.leases, ∃ o' call',
        s.leases.calls o' = some call' ∧ conn call'.stage = some c ∧
        (Moves hashtext max s o' ∨
          ∃ o'', Moves hashtext max s o'' ∧ WaitsFor hashtext s.leases o' o'')) ∧
    (∀ f : ℕ → PoolState, f 0 = s →
      ¬ ∀ n, ∃ e, ownStep e = true ∧ poolStep hashtext (f n) e = some (f (n + 1))) ∧
    (0 < max → (∀ o, ¬ Moves hashtext max s o) →
      (∀ o call, s.leases.calls o = some call → call.stage = .done) ∧ inUse s.leases = ∅) := by
  have hs := ready_run ha h
  refine ⟨fun o call hcall hne => moves_or_waits max hs hcall hne, fun f h0 hstep => ?_,
    fun hmax hnone => ?_⟩
  · refine no_infinite_descent rank f (by rw [h0]; exact finite_rank hs) (fun n => ?_) fun n => ?_
    · obtain ⟨e, he, hst⟩ := hstep n
      exact (rank_step he hst).1
    · obtain ⟨e, he, hst⟩ := hstep n
      exact (rank_step he hst).2
  · -- a connection that is out of the pool has somebody who moves
    have hempty : inUse s.leases = ∅ := by
      refine Set.eq_empty_of_forall_notMem fun c hc => ?_
      obtain ⟨o, call, hcall, hconn⟩ := hs.owned.user c hc
      rcases moves_of_conn hs hcall hconn with hm | ⟨o', hm, -⟩
      · exact hnone o hm
      · exact hnone o' hm
    refine ⟨fun o call hcall => ?_, hempty⟩
    by_contra hne
    rcases moves_or_waits max hs hcall hne with hm | ⟨o', hm, -⟩ | ⟨hle, -⟩
    · exact hnone o hm
    · exact hnone o' hm
    · rw [hempty, Set.ncard_empty] at hle
      exact absurd hle (not_le.mpr hmax)

/-- With two connections: the first call has the lease, the second waits for its lock, and the third
for a connection. -/
def crowdedPool : List PoolEv :=
  [.lease (.acquire 0 0 [107] false false false), .lease (.reserve 0 0), .lease (.callbacks 0),
    .lease (.sendLock 0), .lease (.grant 0), .lease (.settle 0),
    .lease (.acquire 1 0 [107] false false true), .lease (.reserve 1 1), .lease (.callbacks 1),
    .lease (.sendLock 1), .lease (.acquire 2 0 [107] true false false)]

theorem leases_progress_crowdedPool :
    ∃ s, run (poolStep hashtextOfK) crowdedPool .init = some s ∧
      (s.leases.calls 1).map (·.stage) = some (.waiting 1) ∧
      (s.leases.calls 2).map (·.stage) = some .reserving ∧ ∃ o, Moves hashtextOfK 2 s o := by
  have hother : ∀ (s : PoolState) e, (∀ o, e ≠ .abort o) → (∀ o c, e ≠ .reserve o c) →
      Bounded hashtextOfK 2 s (.lease e) := fun s e => bounded_lease
  have hreserve : ∀ (s : PoolState) o c (F : Finset ℕ), (∀ c ∉ F, s.leases.idle c = true) →
      F.card < 2 → Bounded hashtextOfK 2 s (.lease (.reserve o c)) := by
    intro s o c F hidle hcard
    refine ⟨trivial, fun _ _ _ => lt_of_le_of_lt ?_ hcard⟩
    rw [← Set.ncard_coe_finset]
    refine Set.ncard_le_ncard (fun c' hc' => ?_) F.finite_toSet
    by_contra hF
    exact Bool.false_ne_true (hc'.2.symm.trans (hidle c' hF))
  have ha : Along (poolStep hashtextOfK) (Bounded hashtextOfK 2) crowdedPool .init := by
    refine (along_cons_of_some rfl).mp ⟨hother _ _ (by simp) (by simp), ?_⟩
    refine (along_cons_of_some rfl).mp ⟨hreserve _ _ _ ∅ (fun _ _ => rfl) (by decide), ?_⟩
    iterate 5 refine (along_cons_of_some rfl).mp ⟨hother _ _ (by simp) (by simp), ?_⟩
    refine (along_cons_of_some rfl).mp ⟨hreserve _ _ _ {0} (fun c hc => ?_) (by decide), ?_⟩
    · exact Function.update_of_ne (fun h => hc (by simp [h])) ..
    · iterate 3 refine (along_cons_of_some rfl).mp ⟨hother _ _ (by simp) (by simp), ?_⟩
      trivial
  have hr : ∃ s, run (poolStep hashtextOfK) crowdedPool .init = some s := ⟨_, rfl⟩
  obtain ⟨s, h⟩ := hr
  have hfacts : (s.leases.calls 1).map (·.stage) = some (.waiting 1) ∧
      (s.leases.calls 2).map (·.stage) = some .reserving := by
    cases h
    exact ⟨rfl, rfl⟩
  refine ⟨s, h, hfacts.1, hfacts.2, ?_⟩
  by_contra hnone
  have hover := ((leases_progress ha h).2.2 (by decide) fun o ho => hnone ⟨o, ho⟩).1
  obtain ⟨call, hcall, hst⟩ := Option.map_eq_some_iff.mp hfacts.1
  rw [hover 1 call hcall] at hst
  cases hst

end UmbraDB.Lease.Progress
