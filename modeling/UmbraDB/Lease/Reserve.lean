import UmbraDB.Lib.Runs

/-! # Leases: `reserveBounded`

One call of `reserveBounded`, reaction by reaction. `sql.reserve()` gives a promise that settles at
some time, or has settled when the call is made. Two reactions are registered on it, in this order:
the callback that releases the connection if `gaveUp` is set (`release`), and that of `Promise.race`
(`raceReserve`). The one reaction on `bail`, which is rejected whenever `gaveUp` is set, is that of
`Promise.race` (`raceBail`). The first of its two reactions to run settles the race; its `finally`
clears the timer and removes the listener (`cleanup`).

The reactions of a promise are put into the queue of jobs when it settles, and run in the order of
the queue. A timer is a task of its own: it fires only when no job is left. The signal can be
aborted at any time, between two jobs as well. -/

namespace UmbraDB.Lease.Reserve

open UmbraDB.Lib.Runs

/-- The promise of `sql.reserve()`. -/
inductive Promise
  | pending
  | fulfilled
  | rejected
  deriving DecidableEq

/-- The promise that `reserveBounded` returns. -/
inductive Race
  | pending
  | delivered
  | rejected
  deriving DecidableEq

inductive Job
  | release
  | raceReserve
  | raceBail
  | cleanup
  deriving DecidableEq

/-- A call: whether `timeoutMs` is given, whether there is a signal and it is aborted, and whether
the promise of `sql.reserve()` has settled already. -/
structure Config where
  hasTimeout : Bool
  signal : Option Bool
  atCall : Promise

/-- `timeoutMs === undefined && !signal`: the promise of `sql.reserve()` is returned itself. -/
def Config.direct (config : Config) : Bool := !config.hasTimeout && config.signal.isNone

structure ReserveState where
  direct : Bool
  reserve : Promise
  race : Race
  gaveUp : Bool
  /-- How often `release()` was called on the connection. -/
  released : ℕ
  timer : Bool
  listening : Bool
  queue : List Job

/-- The reactions on the promise of `sql.reserve()`. -/
def reactions (direct : Bool) : List Job :=
  if direct then [.raceReserve] else [.release, .raceReserve]

/-- When the call returns. A signal that is aborted already rejects `bail` at once. -/
def init (config : Config) : ReserveState where
  direct := config.direct
  reserve := config.atCall
  race := .pending
  gaveUp := config.signal = some true
  released := 0
  timer := config.hasTimeout
  listening := config.signal = some false
  queue := (if config.atCall = .pending then [] else reactions config.direct) ++
    if config.signal = some true then [.raceBail] else []

inductive Ev
  /-- `sql.reserve()` resolves with a connection, or is rejected. -/
  | settle (ok : Bool)
  | timer
  | abort
  /-- The first job of the queue runs. -/
  | job
  deriving DecidableEq

/-- `gaveUp = true; reject(…)`. -/
def giveUp (s : ReserveState) : ReserveState :=
  if s.gaveUp then s else { s with gaveUp := true, queue := s.queue ++ [.raceBail] }

/-- A reaction of `Promise.race`; only the first has an effect. -/
def settleRace (s : ReserveState) (race : Race) : ReserveState :=
  match s.race with
  | .pending => { s with race := race, queue := s.queue ++ [.cleanup] }
  | _ => s

def runJob (s : ReserveState) : Job → ReserveState
  | .release =>
    if s.reserve = .fulfilled ∧ s.gaveUp = true then { s with released := s.released + 1 } else s
  | .raceReserve => settleRace s (if s.reserve = .fulfilled then .delivered else .rejected)
  | .raceBail => settleRace s .rejected
  | .cleanup => { s with timer := false, listening := false }

def step (s : ReserveState) : Ev → Option ReserveState
  | .settle ok =>
    if s.reserve = .pending then
      some { s with
        reserve := if ok then .fulfilled else .rejected
        queue := s.queue ++ reactions s.direct }
    else none
  | .timer =>
    if s.timer = true ∧ s.queue = [] then some (giveUp { s with timer := false }) else none
  | .abort => if s.listening then some (giveUp { s with listening := false }) else none
  | .job =>
    match s.queue with
    | [] => none
    | j :: queue => some (runJob { s with queue := queue } j)

/-! ### Ownership -/

/-- The connection has one owner: it is not released if it is delivered, and never twice; and once
no job is left, it is delivered or the call is rejected and it is released. -/
structure OneOwner (s : ReserveState) : Prop where
  notBoth : s.race = .delivered → s.released = 0
  once : s.released ≤ 1
  notNeither : s.reserve = .fulfilled → s.queue = [] →
    s.race = .delivered ∧ s.released = 0 ∨ s.race = .rejected ∧ s.released = 1

/-- The signal is not aborted between the settlement of `sql.reserve()` and the run of the first
reaction on it, unless the call has given up before. -/
def AbortsOutside (s : ReserveState) (ev : Ev) : Prop :=
  ev = .abort → s.reserve = .fulfilled → .release ∈ s.queue → s.gaveUp = true

instance (s : ReserveState) (ev : Ev) : Decidable (AbortsOutside s ev) := by
  unfold AbortsOutside
  infer_instance

/-- The same for a signal that is aborted when the call is made. -/
def Config.AbortsOutside (config : Config) : Prop :=
  config.signal = some true → config.atCall ≠ .fulfilled

/-- The jobs that decide about the connection. -/
def deciding (queue : List Job) : List Job := queue.filter fun j => j ≠ .cleanup

/-- **Where a call can be**: the promise, the race, `gaveUp`, the number of releases and the jobs
that are left. -/
inductive Shape : Promise → Race → Bool → ℕ → List Job → Prop
  /-- Nothing has happened. -/
  | waiting : Shape .pending .pending false 0 []
  | givingUp : Shape .pending .pending true 0 [.raceBail]
  | gaveUp : Shape .pending .rejected true 0 []
  /-- `sql.reserve()` has resolved in time. -/
  | inTime : Shape .fulfilled .pending false 0 [.release, .raceReserve]
  | checked : Shape .fulfilled .pending false 0 [.raceReserve]
  /-- An abort between the two reactions comes too late for the first. -/
  | lateAbort : Shape .fulfilled .pending true 0 [.raceReserve, .raceBail]
  | delivered (gaveUp : Bool) : Shape .fulfilled .delivered gaveUp 0 []
  | deliveredAborted : Shape .fulfilled .delivered true 0 [.raceBail]
  /-- `sql.reserve()` has resolved after the call gave up. -/
  | orphaned : Shape .fulfilled .pending true 0 [.raceBail, .release, .raceReserve]
  | toRelease : Shape .fulfilled .rejected true 0 [.release, .raceReserve]
  | releasing : Shape .fulfilled .rejected true 1 [.raceReserve]
  | released : Shape .fulfilled .rejected true 1 []
  /-- There is no connection. -/
  | failed {race : Race} {gaveUp : Bool} {jobs : List Job} (h : race ≠ .delivered) :
      Shape .rejected race gaveUp 0 jobs

/-- The invariant. A call without timeout and signal never gives up. -/
structure Inv (s : ReserveState) : Prop where
  shape : Shape s.reserve s.race s.gaveUp s.released (deciding s.queue)
  direct : s.direct = true → s.gaveUp = false ∧ s.timer = false ∧ s.listening = false

theorem Inv.oneOwner {s : ReserveState} (hI : Inv s) : OneOwner s := by
  obtain ⟨direct, reserve, race, gaveUp, released, timer, listening, queue⟩ := s
  obtain ⟨hs, -⟩ := hI
  refine ⟨fun hr => ?_, ?_, fun hf hq => ?_⟩
  · obtain rfl : race = .delivered := hr
    generalize deciding queue = jobs at hs
    cases hs with
    | failed h => exact absurd rfl h
    | _ => rfl
  · generalize deciding queue = jobs at hs
    cases hs <;> simp
  · obtain rfl : reserve = .fulfilled := hf
    obtain rfl : queue = [] := hq
    cases hs with
    | delivered => exact Or.inl ⟨rfl, rfl⟩
    | released => exact Or.inr ⟨rfl, rfl⟩

/-! ### Every step keeps the invariant -/

theorem deciding_append (q r : List Job) : deciding (q ++ r) = deciding q ++ deciding r :=
  List.filter_append _ _

theorem deciding_cons {j : Job} (h : j ≠ .cleanup) (q : List Job) :
    deciding (j :: q) = j :: deciding q :=
  List.filter_cons_of_pos (by simpa using h)

theorem deciding_cleanup (q : List Job) : deciding (.cleanup :: q) = deciding q := rfl

theorem deciding_reactions (direct : Bool) : deciding (reactions direct) = reactions direct := by
  cases direct <;> rfl

theorem inv_init {config : Config} (hc : config.AbortsOutside) : Inv (init config) := by
  obtain ⟨hasTimeout, signal, atCall⟩ := config
  constructor
  · rcases signal with _ | _ | _
    -- no signal, a signal that is not aborted, an aborted one
    · rcases atCall with _ | _ | _
      · exact .waiting
      · cases hasTimeout
        · exact .checked
        · exact .inTime
      · exact .failed (by simp [init])
    · rcases atCall with _ | _ | _
      · exact .waiting
      · cases hasTimeout <;> exact .inTime
      · exact .failed (by simp [init])
    · rcases atCall with _ | _ | _
      · exact .givingUp
      · exact absurd rfl (hc rfl)
      · exact .failed (by simp [init])
  · intro hd
    simp only [init, Config.direct, Bool.and_eq_true, Bool.not_eq_eq_eq_not, Bool.not_true,
      Option.isNone_iff_eq_none] at hd
    simp [init, hd.1, hd.2]

theorem Inv.settle {s : ReserveState} (hI : Inv s) (hp : s.reserve = .pending) (ok : Bool) :
    Inv { s with
      reserve := if ok then .fulfilled else .rejected
      queue := s.queue ++ reactions s.direct } := by
  obtain ⟨direct, reserve, race, gaveUp, released, timer, listening, queue⟩ := s
  obtain ⟨hs, hd⟩ := hI
  obtain rfl : reserve = .pending := hp
  refine ⟨?_, hd⟩
  simp only [deciding_append, deciding_reactions] at hs hd ⊢
  generalize deciding queue = jobs at hs
  cases ok with
  | false =>
    have hn : race ≠ .delivered ∧ released = 0 := by
      cases hs <;> simp
    obtain ⟨hn, rfl⟩ := hn
    exact .failed hn
  | true =>
    cases direct with
    | true =>
      obtain ⟨rfl, -, -⟩ := hd rfl
      cases hs
      exact .checked
    | false =>
      cases hs with
      | waiting => exact .inTime
      | givingUp => exact .orphaned
      | gaveUp => exact .toRelease

/-- The timer or the abort, outside the window of `AbortsOutside`. -/
theorem Inv.giveUp {s : ReserveState} (hI : Inv s) (hd : s.direct = false)
    (hw : s.reserve = .fulfilled → .release ∈ s.queue → s.gaveUp = true) : Inv (giveUp s) := by
  obtain ⟨direct, reserve, race, gaveUp, released, timer, listening, queue⟩ := s
  obtain ⟨hs, -⟩ := hI
  obtain rfl : direct = false := hd
  unfold Reserve.giveUp
  split_ifs with hg
  · exact ⟨hs, by simp⟩
  refine ⟨?_, by simp⟩
  obtain rfl : gaveUp = false := by simpa using hg
  have hmem : Job.release ∈ deciding queue → Job.release ∈ queue := fun h =>
    (List.mem_filter.mp h).1
  simp only [deciding_append] at hs hw ⊢
  generalize deciding queue = jobs at hs hmem
  cases hs with
  | waiting => exact .givingUp
  | inTime => exact absurd (hw rfl (hmem (by simp))) (by simp)
  | checked => exact .lateAbort
  | delivered => exact .deliveredAborted
  | failed h => exact .failed h

/-- The race after one of its reactions. -/
def Race.after (race outcome : Race) : Race :=
  match race with
  | .pending => outcome
  | race => race

theorem Inv.settleRace {s : ReserveState} {outcome : Race}
    (hs : Shape s.reserve (s.race.after outcome) s.gaveUp s.released (deciding s.queue))
    (hd : s.direct = true → s.gaveUp = false ∧ s.timer = false ∧ s.listening = false) :
    Inv (settleRace s outcome) := by
  obtain ⟨direct, reserve, race, gaveUp, released, timer, listening, queue⟩ := s
  cases race with
  | pending =>
    refine ⟨?_, hd⟩
    have hq : deciding (queue ++ [.cleanup]) = deciding queue := by
      rw [deciding_append, deciding_cleanup]
      exact List.append_nil _
    show Shape reserve outcome gaveUp released (deciding (queue ++ [.cleanup]))
    rw [hq]
    exact hs
  | delivered => exact ⟨hs, hd⟩
  | rejected => exact ⟨hs, hd⟩

theorem Inv.job {s : ReserveState} (hI : Inv s) {j : Job} {queue : List Job}
    (hq : s.queue = j :: queue) : Inv (runJob { s with queue := queue } j) := by
  obtain ⟨direct, reserve, race, gaveUp, released, timer, listening, queue'⟩ := s
  obtain rfl : queue' = j :: queue := hq
  obtain ⟨hs, hd⟩ := hI
  cases j with
  | cleanup => exact ⟨hs, fun h => ⟨(hd h).1, rfl, rfl⟩⟩
  | release =>
    rw [deciding_cons (by decide)] at hs
    unfold runJob
    generalize hjobs : deciding queue = jobs at hs
    -- the callback runs with the value that `gaveUp` has now
    cases hs with
    | inTime =>
      rw [if_neg (by simp)]
      exact ⟨by simpa only [hjobs] using Shape.checked, hd⟩
    | toRelease =>
      rw [if_pos (by simp)]
      exact ⟨by simpa only [hjobs] using Shape.releasing, hd⟩
    | failed h =>
      rw [if_neg (by simp)]
      exact ⟨.failed h, hd⟩
  | raceReserve =>
    rw [deciding_cons (by decide)] at hs
    refine Inv.settleRace ?_ hd
    generalize deciding queue = jobs at hs ⊢
    cases hs with
    | checked => exact .delivered false
    | lateAbort => exact .deliveredAborted
    | releasing => exact .released
    | failed h => exact .failed (by cases race <;> simp_all [Race.after])
  | raceBail =>
    rw [deciding_cons (by decide)] at hs
    refine Inv.settleRace ?_ hd
    generalize deciding queue = jobs at hs ⊢
    cases hs with
    | givingUp => exact .gaveUp
    | deliveredAborted => exact .delivered true
    | orphaned => exact .toRelease
    | failed h => exact .failed (by cases race <;> simp_all [Race.after])

theorem inv_step {s s' : ReserveState} {ev : Ev} (hI : Inv s) (hok : AbortsOutside s ev)
    (h : step s ev = some s') : Inv s' := by
  have hdirect : (s.timer = true ∨ s.listening = true) → s.direct = false := by
    intro ht
    by_contra hd
    obtain ⟨-, h1, h2⟩ := hI.direct (by simpa using hd)
    simp [h1, h2] at ht
  cases ev with
  | settle ok =>
    simp only [step] at h
    split_ifs at h with hp <;> cases h
    · exact hI.settle hp true
    · exact hI.settle hp false
  | timer =>
    simp only [step] at h
    split_ifs at h with ht
    cases h
    have hI' : Inv { s with timer := false } :=
      ⟨hI.shape, fun hd => ⟨(hI.direct hd).1, rfl, (hI.direct hd).2.2⟩⟩
    refine hI'.giveUp (hdirect (Or.inl ht.1)) fun _ hmem => ?_
    -- no job is left when a timer fires
    simp [ht.2] at hmem
  | abort =>
    simp only [step] at h
    split_ifs at h with hl
    cases h
    have hI' : Inv { s with listening := false } :=
      ⟨hI.shape, fun hd => ⟨(hI.direct hd).1, (hI.direct hd).2.1, rfl⟩⟩
    exact hI'.giveUp (hdirect (Or.inr hl)) (hok rfl)
  | job =>
    simp only [step] at h
    split at h
    · cases h
    · next j queue hq =>
      cases h
      exact hI.job hq

/-- **A reserved connection has one owner**, in every run in which the signal is not aborted between
the settlement of `sql.reserve()` and the run of the first reaction on it. -/
theorem reserve_oneOwner {config : Config} {es : List Ev} {s : ReserveState}
    (hc : config.AbortsOutside) (hok : Along step AbortsOutside es (init config))
    (hrun : run step es (init config) = some s) : OneOwner s :=
  Inv.oneOwner (run_inv_along (fun _ _ _ hI hok h => inv_step hI hok h) es _ _ (inv_init hc) hok
    hrun)

/-- The signal is aborted, and `sql.reserve()` resolves before the rejection is delivered. -/
def orphan : List Ev := [.abort, .settle true, .job, .job, .job, .job]

theorem reserve_oneOwner_orphan :
    ∃ s, run step orphan (init ⟨true, some false, .pending⟩) = some s ∧
      s.reserve = .fulfilled ∧ s.race = .rejected ∧ s.released = 1 ∧ OneOwner s := by
  have hown := @reserve_oneOwner ⟨true, some false, .pending⟩ orphan _ (by simp [Config.AbortsOutside])
    (by decide) rfl
  exact ⟨_, rfl, rfl, rfl, rfl, hown⟩

/-- With an idle connection `sql.reserve()` has settled when the call returns. An abort in the same
turn makes the first reaction release the connection that the second delivers. -/
theorem abort_both :
    ¬ ∀ (config : Config) (es : List Ev) (s : ReserveState),
      run step es (init config) = some s → OneOwner s := by
  intro h
  have hown := h ⟨false, some false, .fulfilled⟩ [.abort, .job, .job] _ rfl
  exact absurd (hown.notBoth rfl) (by decide)

end UmbraDB.Lease.Reserve
