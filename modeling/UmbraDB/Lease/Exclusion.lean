import UmbraDB.Lease.System

/-! # Leases exclude each other, unless an abort meets a fulfilled `reserve()`

* `leases_exclusive` : in every run in which no signal is aborted between the fulfilment of a
  `reserve()` and its callbacks, there is at most one lease for each key, and every lease on a live
  connection has its lock.
* `twoLeases_abort` : with such an abort, two leases for one key are held on one session.

What carries the first is that each connection is used by one call at a time and is not idle
meanwhile (`Inv.uses`, `Inv.idle`); the lock of a call then changes only by its own statements. -/

namespace UmbraDB.Lease.Exclusion

open UmbraDB.Js.Text UmbraDB.Lib.Runs UmbraDB.Lease.System

variable {hashtext : JsString → ℤ} {s s' : LeaseState}

/-- The session is alive and has the advisory lock of the key. -/
def HoldsLock (hashtext : JsString → ℤ) (s : LeaseState) (c : ℕ) (key : JsString) : Prop :=
  s.alive c = true ∧ ∃ n, s.locks (hashtext key) = some (c, n)

/-- At most one lease for each key is outstanding with its lock, and every outstanding lease whose
connection is alive has its lock. -/
structure Exclusive (hashtext : JsString → ℤ) (s : LeaseState) : Prop where
  unique : ∀ o o' call call' c c', s.calls o = some call → s.calls o' = some call' →
    call.stage = .held c → call'.stage = .held c' → call.key = call'.key →
    HoldsLock hashtext s c call.key → HoldsLock hashtext s c' call'.key → o = o'
  locked : ∀ o call c, s.calls o = some call → call.stage = .held c → s.alive c = true →
    HoldsLock hashtext s c call.key

/-- No signal is aborted while the `reserve()` of its call is fulfilled and the callbacks have not
run. -/
def AbortsOutside (s : LeaseState) : Ev → Prop
  | .abort o => ∀ call c gaveUp, s.calls o = some call → call.stage ≠ .fulfilled c gaveUp
  | _ => True

/-! ### The invariant -/

/-- The connection that the call uses. -/
def conn : Stage → Option ℕ
  | .reserving => none
  | .abandoned => none
  | .fulfilled c _ => some c
  | .settingTimeout c => some c
  | .locking c => some c
  | .waiting c => some c
  | .granted c => some c
  | .cleanup c _ => some c
  | .held c => some c
  | .releasing c => some c
  | .resetting c => some c
  | .done => none

/-- The connection on which the call has its lock. -/
def lockedOn : Stage → Option ℕ
  | .granted c => some c
  | .held c => some c
  | .releasing c => some c
  | _ => none

theorem conn_of_lockedOn {stage : Stage} {c : ℕ} (h : lockedOn stage = some c) :
    conn stage = some c := by
  unfold lockedOn at h
  split at h <;> first | exact h | cases h

theorem conn_of_unlocking {stage : Stage} {c : ℕ} (h : stage.unlocking = some c) :
    conn stage = some c := by
  unfold Stage.unlocking at h
  split at h <;> first | exact h | cases h

structure Inv (hashtext : JsString → ℤ) (s : LeaseState) : Prop where
  uses : ∀ o o' call call' c, s.calls o = some call → s.calls o' = some call' →
    conn call.stage = some c → conn call'.stage = some c → o = o'
  idle : ∀ o call c, s.calls o = some call → conn call.stage = some c → s.idle c = false
  gaveUp : ∀ o call c, s.calls o = some call → call.stage ≠ .fulfilled c true
  locked : ∀ o call c, s.calls o = some call → lockedOn call.stage = some c →
    s.alive c = true → ∃ n, s.locks (hashtext call.key) = some (c, n)

theorem inv_init : Inv hashtext .init := by
  refine ⟨?_, ?_, ?_, ?_⟩ <;> intros <;> simp_all [LeaseState.init]

theorem Inv.exclusive (hI : Inv hashtext s) : Exclusive hashtext s := by
  have hlocked : ∀ o call c, s.calls o = some call → call.stage = .held c → s.alive c = true →
      HoldsLock hashtext s c call.key :=
    fun o call c h hst ha => ⟨ha, hI.locked o call c h (by rw [hst]; rfl) ha⟩
  refine ⟨fun o o' call call' c c' h h' hst hst' hkey hl hl' => ?_, hlocked⟩
  -- one session has the lock, and one call uses it
  obtain ⟨n, hn⟩ := hl.2
  obtain ⟨n', hn'⟩ := hl'.2
  rw [← hkey, hn] at hn'
  cases hn'
  exact hI.uses o o' call call' c h h' (by rw [hst]; rfl) (by rw [hst']; rfl)

/-! ### What one step keeps -/

/-- The record of the call `o` becomes `new`. -/
theorem Inv.update (hI : Inv hashtext s) {o : ℕ} (new : Call) {idle : ℕ → Bool}
    {locks : ℤ → Option (ℕ × ℕ)}
    (hown : ∀ c, conn new.stage = some c → idle c = false ∧
      ∀ o' call, o' ≠ o → s.calls o' = some call → conn call.stage ≠ some c)
    (hidle : ∀ o' call c, o' ≠ o → s.calls o' = some call → conn call.stage = some c →
      idle c = false)
    (hgave : ∀ c, new.stage ≠ .fulfilled c true)
    (hlock : ∀ c, lockedOn new.stage = some c → s.alive c = true →
      ∃ n, locks (hashtext new.key) = some (c, n))
    (hother : ∀ o' call c n, o' ≠ o → s.calls o' = some call → lockedOn call.stage = some c →
      s.locks (hashtext call.key) = some (c, n) →
      ∃ n, locks (hashtext call.key) = some (c, n)) :
    Inv hashtext { s with
      calls := Function.update s.calls o (some new), idle := idle, locks := locks } := by
  have hcases : ∀ o' call, Function.update s.calls o (some new) o' = some call →
      (o' = o ∧ call = new) ∨ (o' ≠ o ∧ s.calls o' = some call) := by
    intro o' call h
    by_cases ho : o' = o
    · rw [ho, Function.update_self] at h
      exact Or.inl ⟨ho, (Option.some.inj h).symm⟩
    · rw [Function.update_of_ne ho] at h
      exact Or.inr ⟨ho, h⟩
  refine ⟨fun o₁ o₂ c₁ c₂ c h₁ h₂ hc₁ hc₂ => ?_, fun o' call c h hc => ?_,
    fun o' call c h => ?_, fun o' call c h hl ha => ?_⟩
  · rcases hcases o₁ c₁ h₁ with ⟨rfl, rfl⟩ | ⟨hne₁, e₁⟩ <;>
      rcases hcases o₂ c₂ h₂ with ⟨rfl, rfl⟩ | ⟨hne₂, e₂⟩
    · rfl
    · exact absurd hc₂ ((hown c hc₁).2 o₂ c₂ hne₂ e₂)
    · exact absurd hc₁ ((hown c hc₂).2 o₁ c₁ hne₁ e₁)
    · exact hI.uses o₁ o₂ c₁ c₂ c e₁ e₂ hc₁ hc₂
  · rcases hcases o' call h with ⟨rfl, rfl⟩ | ⟨hne, h⟩
    · exact (hown c hc).1
    · exact hidle o' call c hne h hc
  · rcases hcases o' call h with ⟨rfl, rfl⟩ | ⟨hne, h⟩
    · exact hgave c
    · exact hI.gaveUp o' call c h
  · rcases hcases o' call h with ⟨rfl, rfl⟩ | ⟨hne, h⟩
    · exact hlock c hl ha
    · obtain ⟨n, hn⟩ := hI.locked o' call c h hl ha
      exact hother o' call c n hne h hl hn

/-- No other call uses the connection of the call. -/
theorem Inv.own (hI : Inv hashtext s) {o : ℕ} {call : Call} {c : ℕ} (h : s.calls o = some call)
    (hc : conn call.stage = some c) {o' : ℕ} {call' : Call} (hne : o' ≠ o)
    (h' : s.calls o' = some call') : conn call'.stage ≠ some c :=
  fun hc' => hne (hI.uses o' o call' call c h' h hc' hc)

/-- The call goes on with its connection, with its signal aborted or not, or lets it go. -/
theorem Inv.setStage (hI : Inv hashtext s) {o : ℕ} {call : Call} (h : s.calls o = some call)
    {aborted : Bool} {stage : Stage} (hconn : ∀ c, conn stage = some c → conn call.stage = some c)
    (hgave : ∀ c, stage ≠ .fulfilled c true)
    (hlock : ∀ c, lockedOn stage = some c → lockedOn call.stage = some c) :
    Inv hashtext (s.setStage o { call with aborted := aborted } stage) :=
  hI.update { call with aborted := aborted, stage := stage }
    (fun c hc => ⟨hI.idle o call c h (hconn c hc), fun _ _ hne h' => hI.own h (hconn c hc) hne h'⟩)
    (fun o' call' c _ h' hc => hI.idle o' call' c h' hc) hgave
    (fun c hl ha => hI.locked o call c h (hlock c hl) ha) (fun _ _ _ n _ _ _ hn => ⟨n, hn⟩)

/-- The call is over and gives its connection back. -/
theorem Inv.giveBack (hI : Inv hashtext s) {o : ℕ} {call : Call} {c : ℕ}
    (h : s.calls o = some call) (hc : conn call.stage = some c) :
    Inv hashtext ((s.setStage o call .done).giveBack c) := by
  refine hI.update { call with stage := .done } (by simp [conn]) ?_ (by simp)
    (by simp [lockedOn]) (fun _ _ _ n _ _ _ hn => ⟨n, hn⟩)
  intro o' call' c' hne h' hc'
  have hcc : c' ≠ c := fun e => hI.own h hc hne h' (e ▸ hc')
  show Function.update s.idle c (s.alive c) c' = false
  rw [Function.update_of_ne hcc]
  exact hI.idle o' call' c' h' hc'

theorem lockBy_eq_some {c : ℕ} {owner : Option (ℕ × ℕ)} {p : ℕ × ℕ} (h : lockBy c owner = some p) :
    p.1 = c ∧ ∀ c' n, owner = some (c', n) → c' = c := by
  unfold lockBy at h
  split at h
  · cases h
    exact ⟨rfl, by simp⟩
  · next c₀ n₀ =>
    split_ifs at h with hc
    cases h
    refine ⟨rfl, fun c' n e => ?_⟩
    cases e
    exact hc

/-- The lock of the call is granted to its session. -/
theorem Inv.lock (hI : Inv hashtext s) {o : ℕ} {call : Call} {c : ℕ} {owner : ℕ × ℕ}
    {stage : Stage} (h : s.calls o = some call) (hc : conn call.stage = some c)
    (hstage : conn stage = some c) (hgave : ∀ c, stage ≠ .fulfilled c true)
    (hl : lockBy c (s.locks (hashtext call.key)) = some owner) :
    Inv hashtext { s.setStage o call stage with
      locks := Function.update s.locks (hashtext call.key) (some owner) } := by
  obtain ⟨howner, hprev⟩ := lockBy_eq_some hl
  refine hI.update { call with stage := stage } ?_
    (fun o' call' c' _ h' hc' => hI.idle o' call' c' h' hc') hgave ?_ ?_
  · intro c' hc'
    have e : c' = c := Option.some.inj (hc'.symm.trans hstage)
    subst e
    exact ⟨hI.idle o call c' h hc, fun _ _ hne h' => hI.own h hc hne h'⟩
  · intro c' hl' _
    have e : c' = c := Option.some.inj ((conn_of_lockedOn hl').symm.trans hstage)
    refine ⟨owner.2, ?_⟩
    rw [Function.update_self, e, ← howner]
  · intro o' call' c' n hne h' hl' hn
    by_cases hk : hashtext call'.key = hashtext call.key
    · -- the holder of a lock that is granted again is the session itself
      rw [hk] at hn
      exact absurd (hprev c' n hn ▸ conn_of_lockedOn hl') (hI.own h hc hne h')
    · exact ⟨n, by rw [Function.update_of_ne hk]; exact hn⟩

/-- `pg_advisory_unlock` on the connection of the call. -/
theorem Inv.unlock (hI : Inv hashtext s) {o : ℕ} {call : Call} {c : ℕ}
    (h : s.calls o = some call) (hc : conn call.stage = some c) :
    Inv hashtext { s.setStage o call (.resetting c) with
      locks := Function.update s.locks (hashtext call.key)
        (unlockBy c (s.locks (hashtext call.key))) } := by
  refine hI.update { call with stage := .resetting c } ?_
    (fun o' call' c' _ h' hc' => hI.idle o' call' c' h' hc') (by simp) (by simp [lockedOn]) ?_
  · intro c' hc'
    cases hc'
    exact ⟨hI.idle o call c h hc, fun _ _ hne h' => hI.own h hc hne h'⟩
  · intro o' call' c' n hne h' hl' hn
    by_cases hk : hashtext call'.key = hashtext call.key
    · have hcc : c' ≠ c := fun e => hI.own h hc hne h' (e ▸ conn_of_lockedOn hl')
      refine ⟨n, ?_⟩
      rw [hk] at hn ⊢
      rw [Function.update_self, hn, unlockBy, if_neg hcc]
    · exact ⟨n, by rw [Function.update_of_ne hk]; exact hn⟩

theorem Inv.die (hI : Inv hashtext s) (c : ℕ) : Inv hashtext (dieStep s c) := by
  refine ⟨hI.uses, fun o call c' h hc => ?_, hI.gaveUp, fun o call c' h hl ha => ?_⟩
  · show Function.update s.idle c false c' = false
    by_cases e : c' = c
    · rw [e, Function.update_self]
    · rw [Function.update_of_ne e]
      exact hI.idle o call c' h hc
  · change Function.update s.alive c false c' = true at ha
    have e : c' ≠ c := by
      rintro rfl
      rw [Function.update_self] at ha
      cases ha
    rw [Function.update_of_ne e] at ha
    obtain ⟨n, hn⟩ := hI.locked o call c' h hl ha
    refine ⟨n, ?_⟩
    show (s.locks (hashtext call.key)).filter _ = some (c', n)
    rw [hn, Option.filter_some, if_pos (by simpa using e)]

/-! ### Steps -/

theorem conn_of_goes {o : ℕ} {call : Call} {e : Ev} {aborted : Bool} {stage : Stage}
    (h : Goes call o e aborted stage) {c : ℕ} (hc : conn stage = some c) :
    conn call.stage = some c := by
  cases h with
  | giveUp hst => rwa [hst]
  | cancel hst => rwa [hst]
  | note => exact hc
  | setTimeout hst => rwa [hst]
  | sendAborted hst => rwa [hst]
  | send hst => rwa [hst]
  | failed hst => rcases hst with hst | hst | hst | hst <;> rwa [hst]
  | settleAborted hst => rwa [hst]
  | settle hst => rwa [hst]
  | releaseLease hst => rwa [hst]
  | unlockFailed hst =>
    rw [← hc]
    exact conn_of_unlocking hst
  | abandon => cases hc
  | reserveTimeout => cases hc
  | orphan => cases hc
  | reserveFailed => cases hc

theorem lockedOn_of_goes {o : ℕ} {call : Call} {e : Ev} {aborted : Bool} {stage : Stage}
    (h : Goes call o e aborted stage) {c : ℕ} (hl : lockedOn stage = some c) :
    lockedOn call.stage = some c := by
  cases h with
  | note => exact hl
  | settle hst => rwa [hst]
  | releaseLease hst => rwa [hst]
  | _ => cases hl

/-- Only an abort at the wrong moment makes a call give up a connection it has. -/
theorem ne_fulfilled_of_goes {o : ℕ} {call : Call} {e : Ev} {aborted : Bool} {stage : Stage}
    (h : Goes call o e aborted stage) (hcall : s.calls o = some call) (hP : AbortsOutside s e)
    (c : ℕ) : stage ≠ .fulfilled c true := by
  cases h with
  | giveUp hst => exact absurd hst (hP call _ _ hcall)
  | note hst => exact hst c true
  | _ => simp

theorem conn_enter (call : Call) (c : ℕ) : conn (enter call c) = some c := by
  unfold enter
  split <;> rfl

theorem enter_cases (call : Call) (c : ℕ) :
    enter call c = .settingTimeout c ∨ enter call c = .locking c := by
  unfold enter
  split
  · exact Or.inl rfl
  · exact Or.inr rfl

/-- `reserve()` is fulfilled with an idle connection, which no call uses. -/
theorem Inv.reserve (hI : Inv hashtext s) {o c : ℕ} {call : Call} (hidle : s.idle c = true) :
    Inv hashtext (({ s with
      idle := Function.update s.idle c false } : LeaseState).setStage o call
        (.fulfilled c false)) := by
  have hfree : ∀ o' call', s.calls o' = some call' → conn call'.stage ≠ some c := by
    intro o' call' h' hc'
    have := hI.idle o' call' c h' hc'
    rw [hidle] at this
    cases this
  refine hI.update { call with stage := .fulfilled c false } ?_ ?_ (by simp)
    (by simp [lockedOn]) (fun _ _ _ n _ _ _ hn => ⟨n, hn⟩)
  · intro c' hc'
    cases hc'
    exact ⟨Function.update_self .., fun o' call' _ h' => hfree o' call' h'⟩
  · intro o' call' c' _ h' hc'
    have e : c' ≠ c := fun e => hfree o' call' h' (e ▸ hc')
    show Function.update s.idle c false c' = false
    rw [Function.update_of_ne e]
    exact hI.idle o' call' c' h' hc'

/-- The callbacks of a call that has not given up. -/
theorem Inv.callbacks (hI : Inv hashtext s) {o c : ℕ} {call : Call}
    (hcall : s.calls o = some call) (hst : call.stage = .fulfilled c false) :
    Inv hashtext (s.setStage o call (enter call c)) := by
  refine hI.setStage hcall (fun c' hc' => ?_) (fun c' => ?_) (fun c' hl => ?_)
  · rw [conn_enter] at hc'
    rw [hst, ← hc']
    rfl
  · rcases enter_cases call c with h | h <;> rw [h] <;> simp
  · rcases enter_cases call c with h | h <;> rw [h] at hl <;> cases hl

theorem Inv.not_gaveUp (hI : Inv hashtext s) {o c : ℕ} {gaveUp : Bool} {call : Call}
    (hcall : s.calls o = some call) (hst : call.stage = .fulfilled c gaveUp) : gaveUp = false := by
  rcases gaveUp with _ | _
  · rfl
  · exact absurd hst (hI.gaveUp o call c hcall)

/-- The invariant is kept by every step that does not abort a call with a fulfilled `reserve()`. -/
theorem inv_step {e : Ev} (hI : Inv hashtext s) (hP : AbortsOutside s e)
    (h : step hashtext s e = some s') : Inv hashtext s' := by
  cases stepped_of_step h with
  | @acquire o layer key isTry hadTimeout hasSignal =>
    exact hI.update ⟨layer, key, isTry, hadTimeout, hasSignal, false, .reserving⟩
      (by simp [conn]) (fun o' call' c' _ h' hc' => hI.idle o' call' c' h' hc') (by simp)
      (by simp [lockedOn]) (fun _ _ _ n _ _ _ hn => ⟨n, hn⟩)
  | goes hcall hg =>
    exact hI.setStage hcall (fun _ hc => conn_of_goes hg hc) (ne_fulfilled_of_goes hg hcall hP)
      fun _ hl => lockedOn_of_goes hg hl
  | notHeld => exact hI
  | reserve _ _ hidle => exact hI.reserve hidle
  | callbacks hcall hst =>
    -- nobody gave up, so the connection is not released
    obtain rfl := hI.not_gaveUp hcall hst
    exact hI.callbacks hcall hst
  | grant hcall hst _ hl =>
    rcases hst with ⟨hst, rfl⟩ | ⟨hst, rfl⟩
    · exact hI.lock hcall (by rw [hst]; rfl) rfl (by simp) hl
    · exact hI.lock hcall (by rw [hst]; rfl) rfl (by simp) hl
  | refuse hcall hst => exact hI.giveBack hcall (by rw [hst]; rfl)
  | unlock hcall hc => exact hI.unlock hcall (conn_of_unlocking hc)
  | release hcall hst => exact hI.giveBack hcall (by rw [hst]; rfl)
  | die => exact hI.die _

/-- **Mutual exclusion.** In every run in which no signal is aborted while the `reserve()` of its
call is fulfilled and its callbacks have not run: at most one lease for each key is outstanding
with its lock, and every outstanding lease on a live connection has its lock. -/
theorem leases_exclusive {es : List Ev} (ha : Along (step hashtext) AbortsOutside es .init)
    (h : run (step hashtext) es .init = some s) : Exclusive hashtext s :=
  (run_inv_along (fun _ _ _ hI hP h => inv_step hI hP h) es .init s inv_init ha h).exclusive

/-- `hashtext` on the key `k` of the two runs below. -/
def hashtextOfK : JsString → ℤ := fun _ => -153401555

/-- Two calls for one key on two layers; the first lease is released, then the second granted. A
third call is aborted while it waits for the lock. -/
def handOver : List Ev :=
  [.acquire 0 0 [107] false false false, .reserve 0 0, .callbacks 0, .sendLock 0, .grant 0,
    .settle 0, .acquire 1 1 [107] false true true, .reserve 1 1, .callbacks 1, .setTimeout 1,
    .sendLock 1, .acquire 2 1 [107] false false true, .reserve 2 2, .callbacks 2, .sendLock 2,
    .abort 2, .failed 2, .unlock 2, .release 2, .releaseLease 0 0, .unlock 0, .release 0, .grant 1,
    .settle 1]

theorem leases_exclusive_handOver :
    ∃ s call, run (step hashtextOfK) handOver .init = some s ∧ s.calls 1 = some call ∧
      call.stage = .held 1 ∧ HoldsLock hashtextOfK s 1 [107] := by
  have ha : Along (step hashtextOfK) AbortsOutside handOver .init := by
    iterate 15 refine (along_cons_of_some rfl).mp ⟨trivial, ?_⟩
    refine (along_cons_of_some rfl).mp ⟨fun call c gaveUp hcall hst => ?_, ?_⟩
    · cases hcall
      cases hst
    · iterate 8 refine (along_cons_of_some rfl).mp ⟨trivial, ?_⟩
      trivial
  have hE := leases_exclusive ha rfl
  exact ⟨_, _, rfl, rfl, rfl, hE.locked 1 _ 1 rfl rfl rfl⟩

/-- The first call is aborted right after it was made, with its `reserve()` fulfilled: its
connection is released, but it goes on to its `catch` block, and releases the connection again when
the second call has it. -/
def twoLeases : List Ev :=
  [.acquire 0 0 [107] false false true, .reserve 0 0, .abort 0,
    .acquire 1 0 [107] false false false, .callbacks 0, .reserve 1 0, .callbacks 1,
    .sendLock 0, .unlock 0, .sendLock 1, .grant 1, .settle 1, .release 0,
    .acquire 2 1 [107] false false false, .reserve 2 0, .callbacks 2, .sendLock 2, .grant 2,
    .settle 2]

theorem twoLeases_abort :
    ∃ s, run (step hashtextOfK) twoLeases .init = some s ∧ ¬ Exclusive hashtextOfK s := by
  refine ⟨_, rfl, fun hE => ?_⟩
  have := hE.unique 1 2 _ _ 0 0 rfl rfl rfl rfl rfl ⟨rfl, 2, rfl⟩ ⟨rfl, 2, rfl⟩
  cases this

end UmbraDB.Lease.Exclusion
