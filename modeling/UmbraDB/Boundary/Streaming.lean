import UmbraDB.Lease.Contention
import UmbraDB.Lib.Runs

/-! # `listKeys` with a signal

The async generator of `PgTemporalKV.listKeys` (`src/postgres/temporal-kv.ts`) between the consumer,
the cursor of the driver and an `AbortSignal`, whose steps are interleaved in any way. The consumer
may call `next()` and `return()` before it has heard of an earlier call; the generator answers one
call after the other. The driver hands out the rows of the query in batches of any size up to 256,
and may fail at any time. `Promise.race` settles with the batch or with the abort, and the generator
hears of it later, when the signal may have been aborted meanwhile.

The arguments are those of a query: `rows` are the keys that it selects, in their order
(`Boundary.ListKeys`).

* `stream_delivers` : what the consumer gets.
* `stream_cleans_up` : the listener, the cursor and the query. -/

namespace UmbraDB.Boundary.Streaming

open UmbraDB.Js.Text UmbraDB.Lib.Runs UmbraDB.Tx.Errors
open UmbraDB.Lease.Contention (isAbortError serverError)

/-! ### The generator -/

/-- What the consumer calls. -/
inductive Request
  | next
  /-- `return()`. -/
  | ret
  deriving DecidableEq

/-- How a call of the consumer is answered. -/
inductive Answer
  | key (k : JsString)
  | done
  | threw (err : Thrown)

/-- How `Promise.race` has settled. -/
inductive Settled
  | batch (rows : List JsString)
  | exhausted
  | failed (err : Thrown)
  | aborted

inductive Phase
  /-- The body has not begun. -/
  | created
  /-- At `await Promise.race`. -/
  | fetching (race : Option Settled)
  /-- In the loop over the rows of a batch. -/
  | rows (left : List JsString)
  /-- At `yield`. -/
  | suspended (left : List JsString)
  /-- At `await iterator.return()`. -/
  | closing (answer : Answer)
  | ended

structure Stream where
  phase : Phase
  /-- The calls that have no answer yet. -/
  requests : List Request
  answers : List Answer
  /-- The rows that the driver has not handed out. -/
  rest : List JsString
  aborted : Bool
  /-- The abort listener is registered. -/
  listening : Bool
  /-- How often the cursor was opened and closed, and the query cancelled. -/
  cursors : ℕ
  returns : ℕ
  cancels : ℕ

def Stream.init (rows : List JsString) : Stream := ⟨.created, [], [], rows, false, false, 0, 0, 0⟩

/-- `abortError` of a signal with the reason. -/
def abortError (reason : Thrown) : Thrown :=
  if isAbortError reason then reason
  else .error ⟨"AbortError", "The operation was aborted", none, none, none⟩

/-- The `finally` block, up to its `await`. -/
def Stream.close (s : Stream) (answer : Answer) : Stream :=
  { s with phase := .closing answer, listening := false, returns := s.returns + 1 }

/-- The `catch` block. -/
def caught (reason : Thrown) (aborted : Bool) (err : Thrown) : Thrown :=
  if isAbortError err then err
  else if aborted then abortError reason
  else translatePostgresError err none

inductive Ev
  | call (request : Request)
  /-- The driver resolves `iterator.next()` with a batch, at its end, or rejects it. -/
  | batch (size : ℕ)
  | exhausted
  | fail (err : Thrown)
  | abort
  /-- The rejection of the abort reaches `Promise.race`. -/
  | react
  /-- The generator goes on after `Promise.race`. -/
  | resume
  /-- A turn of the loop over the rows. -/
  | row
  /-- `iterator.return()` resolves. -/
  | closed

/-- A call of the consumer; one that finds the generator at work waits. -/
def Stream.call (hasSignal : Bool) (reason : Thrown) (s : Stream) (request : Request) : Stream :=
  match s.phase, request with
  | .created, .next =>
    if s.aborted then
      { s with phase := .ended, answers := s.answers ++ [.threw (abortError reason)] }
    else
      { s with phase := .fetching none, requests := [.next], listening := hasSignal,
               cursors := s.cursors + 1 }
  | .created, .ret => { s with phase := .ended, answers := s.answers ++ [.done] }
  | .suspended left, .next => { s with phase := .rows left, requests := [.next] }
  | .suspended _, .ret => Stream.close { s with requests := [.ret] } .done
  | .ended, _ => { s with answers := s.answers ++ [.done] }
  | _, _ => { s with requests := s.requests ++ [request] }

/-- After a `yield`, with the calls that wait. -/
def Stream.yielded (s : Stream) (left : List JsString) : List Request → Stream
  | [] => { s with phase := .suspended left, requests := [] }
  | .next :: requests => { s with phase := .rows left, requests := .next :: requests }
  | .ret :: requests => Stream.close { s with requests := .ret :: requests } .done

/-- What the generator does when `Promise.race` has settled. -/
def Stream.resume (reason : Thrown) (s : Stream) : Settled → Stream
  | .batch rows => { s with phase := .rows rows }
  | .exhausted => s.close .done
  | .failed err => s.close (.threw (caught reason s.aborted err))
  | .aborted => s.close (.threw (abortError reason))

def Stream.row (reason : Thrown) (s : Stream) : List JsString → Stream
  | [] => { s with phase := .fetching none }
  | key :: left =>
    if s.aborted then s.close (.threw (abortError reason))
    else Stream.yielded { s with answers := s.answers ++ [.key key] } left s.requests.tail

/-- A signal is aborted once, and its listener fires once. -/
def step (hasSignal : Bool) (reason : Thrown) (s : Stream) (e : Ev) : Option Stream :=
  match e, s.phase with
  | .call request, _ => some (s.call hasSignal reason request)
  | .abort, _ =>
    if hasSignal && !s.aborted then
      some { s with aborted := true, listening := false,
                    cancels := s.cancels + s.listening.toNat }
    else none
  | .batch size, .fetching none =>
    if size ≤ 256 ∧ size ≤ s.rest.length then
      some { s with phase := .fetching (some (.batch (s.rest.take size))),
                    rest := s.rest.drop size }
    else none
  | .exhausted, .fetching none =>
    if s.rest = [] then some { s with phase := .fetching (some .exhausted) } else none
  | .fail err, .fetching none => some { s with phase := .fetching (some (.failed err)) }
  | .react, .fetching none =>
    if s.aborted then some { s with phase := .fetching (some .aborted) } else none
  | .resume, .fetching (some settled) => some (s.resume reason settled)
  | .row, .rows left => some (s.row reason left)
  | .closed, .closing answer =>
    some { s with phase := .ended, requests := [],
                  answers := s.answers ++ answer :: s.requests.tail.map fun _ => .done }
  | _, _ => none

/-! ### What a step does -/

section Steps

variable (hasSignal : Bool) (reason : Thrown)

/-- The generator is between its first and its last `await`, and not at a `yield`. -/
def Phase.running : Phase → Bool
  | .fetching _ => true
  | .rows _ => true
  | .closing _ => true
  | _ => false

inductive Stepped (s : Stream) : Ev → Stream → Prop
  | start (hp : s.phase = .created) (ha : s.aborted = false) : Stepped s (.call .next)
      { s with phase := .fetching none, requests := [.next], listening := hasSignal,
               cursors := s.cursors + 1 }
  | refuse (hp : s.phase = .created) (ha : s.aborted = true) : Stepped s (.call .next)
      { s with phase := .ended, answers := s.answers ++ [.threw (abortError reason)] }
  | unused (hp : s.phase = .created) : Stepped s (.call .ret)
      { s with phase := .ended, answers := s.answers ++ [.done] }
  | next {left : List JsString} (hp : s.phase = .suspended left) : Stepped s (.call .next)
      { s with phase := .rows left, requests := [.next] }
  | ret {left : List JsString} (hp : s.phase = .suspended left) : Stepped s (.call .ret)
      (Stream.close { s with requests := [.ret] } .done)
  | late {request : Request} (hp : s.phase = .ended) : Stepped s (.call request)
      { s with answers := s.answers ++ [.done] }
  | wait {request : Request} (hp : s.phase.running = true) : Stepped s (.call request)
      { s with requests := s.requests ++ [request] }
  | abort (hs : hasSignal = true) (ha : s.aborted = false) : Stepped s .abort
      { s with aborted := true, listening := false,
               cancels := s.cancels + s.listening.toNat }
  | batch {size : ℕ} (hp : s.phase = .fetching none) : Stepped s (.batch size)
      { s with phase := .fetching (some (.batch (s.rest.take size))), rest := s.rest.drop size }
  | exhausted (hp : s.phase = .fetching none) (hr : s.rest = []) : Stepped s .exhausted
      { s with phase := .fetching (some .exhausted) }
  | fail {err : Thrown} (hp : s.phase = .fetching none) : Stepped s (.fail err)
      { s with phase := .fetching (some (.failed err)) }
  | react (hp : s.phase = .fetching none) (ha : s.aborted = true) : Stepped s .react
      { s with phase := .fetching (some .aborted) }
  | resume {settled : Settled} (hp : s.phase = .fetching (some settled)) : Stepped s .resume
      (s.resume reason settled)
  | row {left : List JsString} (hp : s.phase = .rows left) : Stepped s .row (s.row reason left)
  | closed {answer : Answer} (hp : s.phase = .closing answer) : Stepped s .closed
      { s with phase := .ended, requests := [],
               answers := s.answers ++ answer :: s.requests.tail.map fun _ => .done }

variable {hasSignal reason}

theorem stepped_of_call (s : Stream) (request : Request) :
    Stepped hasSignal reason s (.call request) (s.call hasSignal reason request) := by
  rcases s with ⟨phase, requests, answers, rest, aborted, listening, cursors, returns, cancels⟩
  rcases phase with _ | race | left | left | answer | _
  · cases request with
    | next =>
      cases aborted with
      | true => exact .refuse rfl rfl
      | false => exact .start rfl rfl
    | ret => exact .unused rfl
  · exact .wait rfl
  · exact .wait rfl
  · cases request with
    | next => exact .next rfl
    | ret => exact .ret rfl
  · exact .wait rfl
  · exact .late rfl

theorem stepped_of_step {s s' : Stream} {e : Ev} (h : step hasSignal reason s e = some s') :
    Stepped hasSignal reason s e s' := by
  unfold step at h
  split at h
  · cases h
    exact stepped_of_call s _
  · split_ifs at h with hc
    cases h
    rw [Bool.and_eq_true, Bool.not_eq_true'] at hc
    exact .abort hc.1 hc.2
  · split_ifs at h
    cases h
    exact .batch ‹_›
  · split_ifs at h with hr
    cases h
    exact .exhausted ‹_› hr
  · cases h
    exact .fail ‹_›
  · split_ifs at h with ha
    cases h
    exact .react ‹_› ha
  · cases h
    exact .resume ‹_›
  · cases h
    exact .row ‹_›
  · cases h
    exact .closed ‹_›
  · cases h

end Steps

/-! ### The invariant -/

section Invariant

variable (hasSignal : Bool) (reason : Thrown) (rows : List JsString)

/-- The keys that the consumer has got. -/
def keysOf (answers : List Answer) : List JsString :=
  answers.filterMap fun
    | .key k => some k
    | _ => none

/-- Why the generator ends with the answer, after the events. -/
def Justified (es : List Ev) (aborted : Bool) (keys : List JsString) : Answer → Prop
  | .key _ => False
  | .done => keys = rows ∨ .call .ret ∈ es
  | .threw err => aborted = true ∧ err = abortError reason ∨
      ∃ e, .fail e ∈ es ∧ err = caught reason false e

/-- The cursor is open; the rows are those the consumer has, those in hand, and those to come. -/
structure Going (s : Stream) (keys inHand : List JsString) : Prop where
  answers : s.answers = keys.map .key
  rows : rows = keys ++ inHand ++ s.rest
  cursors : s.cursors = 1
  returns : s.returns = 0
  listening : s.listening = (hasSignal && !s.aborted)
  cancels : s.cancels = s.aborted.toNat

/-- The `finally` block has been entered, or the body was never run. -/
structure Stopped (es : List Ev) (s : Stream) (keys : List JsString) (answer : Answer) : Prop where
  delivered : keys <+: rows
  justified : Justified reason rows es s.aborted keys answer
  listening : s.listening = false
  cursors : s.cursors = s.returns
  returns : s.returns ≤ 1
  cancels : s.cancels ≤ s.aborted.toNat

def RaceOk (es : List Ev) (s : Stream) : Option Settled → Prop
  | some .exhausted => s.rest = []
  | some (.failed err) => .fail err ∈ es
  | some .aborted => s.aborted = true
  | _ => True

def inHand : Option Settled → List JsString
  | some (.batch rows) => rows
  | _ => []

def Fits (es : List Ev) (s : Stream) (keys : List JsString) : Phase → Prop
  | .created => s = { Stream.init rows with aborted := s.aborted } ∧ keys = []
  | .fetching race =>
    Going hasSignal rows s keys (inHand race) ∧ s.requests ≠ [] ∧ RaceOk es s race
  | .rows left => Going hasSignal rows s keys left ∧ s.requests ≠ []
  | .suspended left => Going hasSignal rows s keys left ∧ s.requests = []
  | .closing answer => Stopped reason rows es s keys answer ∧ s.requests ≠ [] ∧
      s.answers = keys.map .key
  | .ended => s.requests = [] ∧ ∃ answer n, Stopped reason rows es s keys answer ∧
      s.answers = keys.map .key ++ answer :: List.replicate n .done

variable {hasSignal reason rows} {es : List Ev} {s s' : Stream} {keys : List JsString}

theorem Justified.mono {e : Ev} {aborted : Bool} {answer : Answer}
    (h : Justified reason rows es aborted keys answer) :
    Justified reason rows (es ++ [e]) aborted keys answer := by
  rcases answer with k | _ | err
  · exact h
  · exact h.imp id (List.mem_append_left _)
  · exact h.imp id fun ⟨e, he, herr⟩ => ⟨e, List.mem_append_left _ he, herr⟩

theorem Justified.abort {aborted : Bool} {answer : Answer}
    (h : Justified reason rows es aborted keys answer) :
    Justified reason rows es true keys answer := by
  rcases answer with k | _ | err
  · exact h
  · exact h
  · exact h.imp (fun h => ⟨rfl, h.2⟩) id

/-- Neither the phase nor the calls that wait matter. -/
theorem Going.frame {held : List JsString} (h : Going hasSignal rows s keys held) (phase : Phase)
    (requests : List Request) :
    Going hasSignal rows { s with phase := phase, requests := requests } keys held :=
  ⟨h.answers, h.rows, h.cursors, h.returns, h.listening, h.cancels⟩

/-- The generator enters its `finally` block. -/
theorem Going.close {held : List JsString} (h : Going hasSignal rows s keys held)
    (hr : s.requests ≠ []) {answer : Answer}
    (hj : Justified reason rows es s.aborted keys answer) :
    Fits hasSignal reason rows es (s.close answer) keys (.closing answer) := by
  refine ⟨⟨⟨held ++ s.rest, ?_⟩, hj, rfl, ?_, ?_, h.cancels.le⟩, hr, h.answers⟩
  · rw [← List.append_assoc, ← h.rows]
  · show s.cursors = s.returns + 1
    rw [h.cursors, h.returns]
  · show s.returns + 1 ≤ 1
    rw [h.returns]

theorem justified_caught {err : Thrown} (h : .fail err ∈ es) (aborted : Bool) :
    Justified reason rows es aborted keys (.threw (caught reason aborted err)) := by
  rcases aborted with _ | _
  · exact Or.inr ⟨err, h, rfl⟩
  · by_cases he : isAbortError err = true
    · exact Or.inr ⟨err, h, by rw [caught, caught, if_pos he, if_pos he]⟩
    · exact Or.inl ⟨rfl, by rw [caught, if_neg he, if_pos rfl]⟩

/-- The race has settled. -/
theorem fits_resume {settled : Settled}
    (h : Fits hasSignal reason rows es s keys (.fetching (some settled))) :
    Fits hasSignal reason rows es (s.resume reason settled) keys
      (s.resume reason settled).phase := by
  obtain ⟨hg, hr, hrace⟩ := h
  rcases settled with batch | _ | err | _
  · exact ⟨hg.frame _ _, hr⟩
  · refine hg.close hr (Or.inl ?_)
    rw [hg.rows, hrace]
    exact (List.append_nil _).symm.trans (List.append_nil _).symm
  · exact hg.close hr (justified_caught hrace _)
  · exact hg.close hr (Or.inl ⟨hrace, rfl⟩)

/-- A turn of the loop over the rows. -/
theorem fits_row {left : List JsString} (hcalls : ∀ r ∈ s.requests, .call r ∈ es)
    (h : Fits hasSignal reason rows es s keys (.rows left)) :
    ∃ keys', keys <+: keys' ∧ (s.aborted = true → keys' = keys) ∧
      Fits hasSignal reason rows es (s.row reason left) keys' (s.row reason left).phase := by
  obtain ⟨hg, hr⟩ := h
  rcases left with _ | ⟨key, left⟩
  · exact ⟨keys, List.prefix_rfl, fun _ => rfl, hg.frame _ _, hr, trivial⟩
  · unfold Stream.row
    dsimp only
    split_ifs with ha
    · exact ⟨keys, List.prefix_rfl, fun _ => rfl, hg.close hr (Or.inl ⟨ha, rfl⟩)⟩
    · have hg' : ∀ phase requests, Going hasSignal rows
          { s with phase := phase, answers := s.answers ++ [.key key], requests := requests }
          (keys ++ [key]) left := by
        refine fun phase requests => ⟨?_, ?_, hg.cursors, hg.returns, hg.listening, hg.cancels⟩
        · rw [List.map_append, ← hg.answers]
          rfl
        · rw [hg.rows, List.append_assoc keys [key]]
          rfl
      refine ⟨keys ++ [key], List.prefix_append keys [key], fun h => absurd h ha, ?_⟩
      rcases htail : s.requests.tail with _ | ⟨_ | _, requests⟩
      · exact ⟨hg' _ [], rfl⟩
      · exact ⟨hg' _ (.next :: requests), List.cons_ne_nil _ _⟩
      · refine (hg' s.phase (.ret :: requests)).close (List.cons_ne_nil _ _) (Or.inr ?_)
        exact hcalls _ (List.mem_of_mem_tail (htail ▸ List.mem_cons_self))

theorem row_requests {left : List JsString} {r : Request}
    (h : r ∈ (s.row reason left).requests) : r ∈ s.requests := by
  unfold Stream.row at h
  split at h
  · exact h
  · split_ifs at h
    · exact h
    · refine List.mem_of_mem_tail ?_
      rcases htail : s.requests.tail with _ | ⟨_ | _, requests⟩
      all_goals
        rw [htail] at h
        exact h

theorem aborted_step {e : Ev} (h : Stepped hasSignal reason s e s') (ha : s.aborted = true) :
    s'.aborted = true := by
  cases h with
  | @resume settled hp =>
    rcases settled with _ | _ | _ | _
    all_goals exact ha
  | @row left hp =>
    unfold Stream.row
    split
    · exact ha
    · split_ifs
      rcases s.requests.tail with _ | ⟨_ | _, requests⟩
      all_goals exact ha
  | abort => rfl
  | _ => exact ha

/-- What the steps keep, by the phase, and what the calls of the consumer are answered. -/
structure Inv (hasSignal : Bool) (reason : Thrown) (rows : List JsString) (es : List Ev)
    (s : Stream) (keys : List JsString) : Prop where
  fits : Fits hasSignal reason rows es s keys s.phase
  calls : ∀ r ∈ s.requests, .call r ∈ es

theorem Fits.mono {e : Ev} {phase : Phase} (h : Fits hasSignal reason rows es s keys phase) :
    Fits hasSignal reason rows (es ++ [e]) s keys phase := by
  have hstop : ∀ {answer}, Stopped reason rows es s keys answer →
      Stopped reason rows (es ++ [e]) s keys answer := fun hs =>
    ⟨hs.delivered, hs.justified.mono, hs.listening, hs.cursors, hs.returns, hs.cancels⟩
  rcases phase with _ | race | left | left | answer | _
  · exact h
  · refine ⟨h.1, h.2.1, ?_⟩
    rcases race with _ | _ | _ | err | _
    · trivial
    · trivial
    · exact h.2.2
    · exact List.mem_append_left _ h.2.2
    · exact h.2.2
  · exact h
  · exact h
  · exact ⟨hstop h.1, h.2⟩
  · obtain ⟨hr, answer, n, hs, ha⟩ := h
    exact ⟨hr, answer, n, hstop hs, ha⟩

theorem Fits.abort (hs : hasSignal = true) (ha : s.aborted = false) {phase : Phase}
    (h : Fits hasSignal reason rows es s keys phase) : Fits hasSignal reason rows es
      { s with aborted := true, listening := false, cancels := s.cancels + s.listening.toNat } keys
      phase := by
  have hgoing : ∀ {held}, Going hasSignal rows s keys held → Going hasSignal rows
      { s with aborted := true, listening := false, cancels := s.cancels + s.listening.toNat } keys
      held := by
    refine fun hg => ⟨hg.answers, hg.rows, hg.cursors, hg.returns, ?_, ?_⟩
    · exact (Bool.and_false _).symm
    · show s.cancels + s.listening.toNat = 1
      rw [hg.cancels, hg.listening, hs, ha]
      rfl
  have hstop : ∀ {answer}, Stopped reason rows es s keys answer → Stopped reason rows es
      { s with aborted := true, listening := false, cancels := s.cancels + s.listening.toNat } keys
      answer := by
    refine fun hst => ⟨hst.delivered, hst.justified.abort, rfl, hst.cursors, hst.returns, ?_⟩
    have hcancels := hst.cancels
    rw [ha] at hcancels
    show s.cancels + s.listening.toNat ≤ 1
    rw [hst.listening]
    exact hcancels.trans (Nat.zero_le _)
  rcases phase with _ | race | left | left | answer | _
  · refine ⟨?_, h.2⟩
    rw [h.1]
    rfl
  · refine ⟨hgoing h.1, h.2.1, ?_⟩
    rcases race with _ | _ | _ | err | _
    · trivial
    · trivial
    · exact h.2.2
    · exact h.2.2
    · rfl
  · exact ⟨hgoing h.1, h.2⟩
  · exact ⟨hgoing h.1, h.2⟩
  · exact ⟨hstop h.1, h.2⟩
  · obtain ⟨hr, answer, n, hst, hans⟩ := h
    exact ⟨hr, answer, n, hstop hst, hans⟩

/-- **A step**: what has been delivered stays, and after the abort nothing is added. -/
theorem Inv.step {e : Ev} (h : Inv hasSignal reason rows es s keys)
    (hs : Stepped hasSignal reason s e s') : ∃ keys', keys <+: keys' ∧
      (s.aborted = true → keys' = keys) ∧ Inv hasSignal reason rows (es ++ [e]) s' keys' := by
  obtain ⟨hfits, hcalls⟩ := h
  have hcalls' : ∀ r ∈ s.requests, Ev.call r ∈ es ++ [e] := fun r hr =>
    List.mem_append_left _ (hcalls r hr)
  have hfits' := hfits.mono (e := e)
  -- the keys stay
  have hsame : ∀ {s₁ : Stream}, Fits hasSignal reason rows (es ++ [e]) s₁ keys s₁.phase →
      (∀ r ∈ s₁.requests, Ev.call r ∈ es ++ [e]) → ∃ keys', keys <+: keys' ∧
        (s.aborted = true → keys' = keys) ∧ Inv hasSignal reason rows (es ++ [e]) s₁ keys' :=
    fun hf hc => ⟨keys, List.prefix_rfl, fun _ => rfl, hf, hc⟩
  have hlast : ∀ r, e = .call r → Ev.call r ∈ es ++ [e] := fun r hr => by
    rw [← hr]
    exact List.mem_append_right _ List.mem_cons_self
  cases hs with
  | start hp ha =>
    rw [hp] at hfits
    obtain ⟨hinit, rfl⟩ := hfits
    rw [hinit]
    refine hsame ⟨⟨rfl, rfl, rfl, rfl, ?_, ?_⟩, List.cons_ne_nil _ _, trivial⟩ fun r hr => ?_
    · show hasSignal = (hasSignal && !s.aborted)
      rw [ha, Bool.not_false, Bool.and_true]
    · show 0 = s.aborted.toNat
      rw [ha]
      rfl
    · obtain rfl := List.mem_singleton.mp hr
      exact hlast _ rfl
  | refuse hp ha =>
    rw [hp] at hfits
    obtain ⟨hinit, rfl⟩ := hfits
    rw [hinit]
    exact hsame ⟨rfl, .threw (abortError reason), 0, ⟨List.nil_prefix, Or.inl ⟨ha, rfl⟩, rfl, rfl,
      Nat.zero_le _, Nat.zero_le _⟩, rfl⟩ fun r hr => (by cases hr)
  | unused hp =>
    rw [hp] at hfits
    obtain ⟨hinit, rfl⟩ := hfits
    rw [hinit]
    exact hsame ⟨rfl, .done, 0, ⟨List.nil_prefix, Or.inr (hlast _ rfl), rfl, rfl, Nat.zero_le _,
      Nat.zero_le _⟩, rfl⟩ fun r hr => (by cases hr)
  | next hp =>
    rw [hp] at hfits'
    refine hsame ⟨hfits'.1.frame _ _, List.cons_ne_nil _ _⟩ fun r hr => ?_
    obtain rfl := List.mem_singleton.mp hr
    exact hlast _ rfl
  | ret hp =>
    rw [hp] at hfits'
    refine hsame ((hfits'.1.frame s.phase [.ret]).close (List.cons_ne_nil _ _)
      (Or.inr (hlast _ rfl))) fun r hr => ?_
    obtain rfl := List.mem_singleton.mp hr
    exact hlast _ rfl
  | late hp =>
    rw [hp] at hfits'
    obtain ⟨hr, answer, n, hs, ha⟩ := hfits'
    refine hsame ?_ hcalls'
    rw [show ({ s with answers := s.answers ++ [Answer.done] } : Stream).phase = .ended from hp]
    refine ⟨hr, answer, n + 1, ⟨hs.delivered, hs.justified, hs.listening, hs.cursors, hs.returns,
      hs.cancels⟩, ?_⟩
    rw [List.replicate_succ', ← List.cons_append, ← List.append_assoc, ← ha]
  | wait hp =>
    refine hsame ?_ fun r hr => ?_
    · rcases hph : s.phase with _ | race | left | left | answer | _
      · rw [hph] at hp
        cases hp
      · rw [hph] at hfits'
        exact ⟨hfits'.1.frame _ _, by simp, hfits'.2.2⟩
      · rw [hph] at hfits'
        exact ⟨hfits'.1.frame _ _, by simp⟩
      · rw [hph] at hp
        cases hp
      · rw [hph] at hfits'
        obtain ⟨hs, -, ha⟩ := hfits'
        exact ⟨⟨hs.delivered, hs.justified, hs.listening, hs.cursors, hs.returns, hs.cancels⟩,
          by simp, ha⟩
      · rw [hph] at hp
        cases hp
    · rcases List.mem_append.mp hr with h | h
      · exact hcalls' r h
      · obtain rfl := List.mem_singleton.mp h
        exact hlast _ rfl
  | abort hs ha => exact hsame (hfits'.abort hs ha) hcalls'
  | batch hp =>
    rw [hp] at hfits'
    obtain ⟨hg, hr, -⟩ := hfits'
    refine hsame ⟨⟨hg.answers, ?_, hg.cursors, hg.returns, hg.listening, hg.cancels⟩, hr, trivial⟩
      hcalls'
    show rows = keys ++ s.rest.take _ ++ s.rest.drop _
    rw [List.append_assoc, List.take_append_drop, hg.rows]
    exact congrArg (· ++ s.rest) (List.append_nil keys)
  | exhausted hp hr =>
    rw [hp] at hfits'
    exact hsame ⟨hfits'.1.frame _ _, hfits'.2.1, hr⟩ hcalls'
  | fail hp =>
    rw [hp] at hfits'
    exact hsame ⟨hfits'.1.frame _ _, hfits'.2.1, List.mem_append_right _ List.mem_cons_self⟩ hcalls'
  | react hp ha =>
    rw [hp] at hfits'
    exact hsame ⟨hfits'.1.frame _ _, hfits'.2.1, ha⟩ hcalls'
  | @resume settled hp =>
    rw [hp] at hfits'
    refine hsame (fits_resume hfits') ?_
    rcases settled with _ | _ | _ | _
    all_goals exact hcalls'
  | @row left hp =>
    rw [hp] at hfits'
    obtain ⟨keys', hle, hkeep, hf⟩ := fits_row hcalls' hfits'
    exact ⟨keys', hle, hkeep, hf, fun r hr => hcalls' r (row_requests hr)⟩
  | @closed answer hp =>
    rw [hp] at hfits'
    obtain ⟨hs, -, ha⟩ := hfits'
    refine hsame ⟨rfl, answer, s.requests.tail.length, ⟨hs.delivered, hs.justified, hs.listening,
      hs.cursors, hs.returns, hs.cancels⟩, ?_⟩ fun r hr => (by cases hr)
    show s.answers ++ answer :: s.requests.tail.map _ = _
    rw [ha, List.map_const']

/-- From a state on, with the keys that are delivered there. -/
theorem inv_run_from : ∀ (es' : List Ev) {s' : Stream}, Inv hasSignal reason rows es s keys →
    run (Streaming.step hasSignal reason) es' s = some s' →
    ∃ keys', keys <+: keys' ∧ (s.aborted = true → keys' = keys ∧ s'.aborted = true) ∧
      Inv hasSignal reason rows (es ++ es') s' keys' := by
  intro es'
  induction es' using List.reverseRecOn with
  | nil =>
    intro s' hinv h
    cases h
    rw [List.append_nil]
    exact ⟨keys, List.prefix_rfl, fun ha => ⟨rfl, ha⟩, hinv⟩
  | append_singleton es' e ih =>
    intro s' hinv h
    obtain ⟨s₁, hs, hst⟩ := run_snoc.mp h
    obtain ⟨keys₁, hle, hkeep, hinv₁⟩ := ih hinv hs
    obtain ⟨keys', hle', hkeep', hinv'⟩ := hinv₁.step (stepped_of_step hst)
    rw [List.append_assoc] at hinv'
    refine ⟨keys', hle.trans hle', fun ha => ?_, hinv'⟩
    obtain ⟨rfl, ha₁⟩ := hkeep ha
    exact ⟨hkeep' ha₁, aborted_step (stepped_of_step hst) ha₁⟩

theorem inv_run {es : List Ev} {s : Stream}
    (h : run (Streaming.step hasSignal reason) es (.init rows) = some s) :
    ∃ keys, Inv hasSignal reason rows es s keys := by
  have hinit : Inv hasSignal reason rows [] (.init rows) [] :=
    ⟨⟨rfl, rfl⟩, fun r hr => (by cases hr)⟩
  obtain ⟨keys, -, -, hinv⟩ := inv_run_from es hinit h
  exact ⟨keys, hinv⟩

theorem keysOf_map (keys : List JsString) : keysOf (keys.map .key) = keys := by
  induction keys with
  | nil => rfl
  | cons key keys ih => exact congrArg (key :: ·) ih

theorem Justified.keysOf_append {aborted : Bool} {answer : Answer}
    (h : Justified reason rows es aborted keys answer) (n : ℕ) :
    keysOf (keys.map .key ++ answer :: List.replicate n .done) = keys := by
  have hdone : keysOf (List.replicate n .done) = [] :=
    List.filterMap_eq_nil_iff.mpr fun a ha => by rw [List.eq_of_mem_replicate ha]
  have hanswer : keysOf (answer :: List.replicate n .done) = [] := by
    rcases answer with k | _ | err
    · exact h.elim
    · exact hdone
    · exact hdone
  rw [keysOf, List.filterMap_append]
  show keysOf _ ++ keysOf _ = _
  rw [hanswer, keysOf_map, List.append_nil]

/-- What the consumer has got, and how its other calls were answered. -/
theorem Inv.answers (h : Inv hasSignal reason rows es s keys) : keysOf s.answers = keys ∧
    keys <+: rows ∧ ∀ answer ∈ s.answers, (∃ key, answer = .key key) ∨
      s.phase = .ended ∧ (Justified reason rows es s.aborted keys answer ∨
        answer = .done ∧ ∃ err, .threw err ∈ s.answers) := by
  have hkeys : s.answers = keys.map .key → keysOf s.answers = keys ∧
      ∀ answer ∈ s.answers, ∃ key, answer = .key key := by
    intro ha
    rw [ha]
    refine ⟨keysOf_map keys, fun answer hmem => ?_⟩
    obtain ⟨key, -, rfl⟩ := List.mem_map.mp hmem
    exact ⟨key, rfl⟩
  have hgoing : ∀ {held}, Going hasSignal rows s keys held → keysOf s.answers = keys ∧
      keys <+: rows ∧ ∀ answer ∈ s.answers, (∃ key, answer = .key key) ∨
        s.phase = .ended ∧ (Justified reason rows es s.aborted keys answer ∨
          answer = .done ∧ ∃ err, .threw err ∈ s.answers) := by
    intro held hg
    refine ⟨(hkeys hg.answers).1, ⟨held ++ s.rest, ?_⟩, fun answer hmem =>
      Or.inl ((hkeys hg.answers).2 answer hmem)⟩
    rw [← List.append_assoc, ← hg.rows]
  have hfits := h.fits
  rcases hp : s.phase with _ | race | left | left | answer | _
  all_goals rw [hp] at hfits
  · obtain ⟨hinit, rfl⟩ := hfits
    have hnil : s.answers = [] := by
      rw [hinit]
      rfl
    rw [hnil]
    exact ⟨rfl, List.nil_prefix, fun answer hmem => (by cases hmem)⟩
  · exact hp ▸ hgoing hfits.1
  · exact hp ▸ hgoing hfits.1
  · exact hp ▸ hgoing hfits.1
  · obtain ⟨hs, -, ha⟩ := hfits
    exact ⟨(hkeys ha).1, hs.delivered, fun answer hmem => Or.inl ((hkeys ha).2 answer hmem)⟩
  · obtain ⟨-, final, n, hs, ha⟩ := hfits
    rw [ha]
    refine ⟨hs.justified.keysOf_append n, hs.delivered, fun answer hmem => ?_⟩
    rcases List.mem_append.mp hmem with hmem | hmem
    · obtain ⟨key, -, rfl⟩ := List.mem_map.mp hmem
      exact Or.inl ⟨key, rfl⟩
    rcases List.mem_cons.mp hmem with rfl | hmem
    · exact Or.inr ⟨rfl, Or.inl hs.justified⟩
    · obtain rfl := List.eq_of_mem_replicate hmem
      rcases final with k | _ | err
      · exact hs.justified.elim
      · exact Or.inr ⟨rfl, Or.inl hs.justified⟩
      · exact Or.inr ⟨rfl, Or.inr ⟨rfl, err, List.mem_append_right _ List.mem_cons_self⟩⟩

/-! ### Every call is answered -/

def Ev.isCall : Ev → Bool
  | .call _ => true
  | _ => false

theorem Inv.requests_ne_nil (h : Inv hasSignal reason rows es s keys)
    (hp : s.phase.running = true) : s.requests ≠ [] := by
  have hfits := h.fits
  rcases hph : s.phase with _ | race | left | left | answer | _
  all_goals rw [hph] at hfits hp
  · cases hp
  · exact hfits.2.1
  · exact hfits.2
  · cases hp
  · exact hfits.2.1
  · cases hp

theorem Inv.requests_nil (h : Inv hasSignal reason rows es s keys)
    (hp : s.phase.running = false) : s.requests = [] := by
  have hfits := h.fits
  rcases hph : s.phase with _ | race | left | left | answer | _
  all_goals rw [hph] at hfits hp
  · rw [hfits.1]
    rfl
  · cases hp
  · cases hp
  · exact hfits.2
  · cases hp
  · exact hfits.1

/-- The calls, with an answer or without. -/
def Stream.asked (s : Stream) : ℕ := s.answers.length + s.requests.length

theorem row_asked {left : List JsString} (hr : s.requests ≠ []) :
    (s.row reason left).asked = s.asked := by
  obtain ⟨request, requests, hreq⟩ := List.exists_cons_of_ne_nil hr
  rcases left with _ | ⟨key, left⟩
  · rfl
  · unfold Stream.row
    dsimp only
    split_ifs
    · rfl
    · rw [hreq, List.tail_cons]
      have hlen : (s.answers ++ [Answer.key key]).length + requests.length = s.asked := by
        rw [Stream.asked, hreq, List.length_append, List.length_singleton, List.length_cons]
        omega
      rcases requests with _ | ⟨_ | _, requests⟩
      all_goals exact hlen

theorem asked_step {e : Ev} (h : Inv hasSignal reason rows es s keys)
    (hs : Stepped hasSignal reason s e s') : s'.asked = s.asked + e.isCall.toNat := by
  have hnil : ∀ {phase}, s.phase = phase → phase.running = false → s.requests.length = 0 := by
    rintro phase rfl hp
    rw [h.requests_nil hp]
    rfl
  cases hs with
  | start hp =>
    simp only [Stream.asked, Ev.isCall, hnil hp rfl]
    rfl
  | refuse hp =>
    simp only [Stream.asked, Ev.isCall, hnil hp rfl, List.length_append]
    rfl
  | unused hp =>
    simp only [Stream.asked, Ev.isCall, hnil hp rfl, List.length_append]
    rfl
  | next hp =>
    simp only [Stream.asked, Ev.isCall, hnil hp rfl]
    rfl
  | ret hp =>
    simp only [Stream.asked, Stream.close, Ev.isCall, hnil hp rfl]
    rfl
  | late hp =>
    simp only [Stream.asked, Ev.isCall, hnil hp rfl, List.length_append]
    rfl
  | wait hp =>
    simp only [Stream.asked, Ev.isCall, List.length_append]
    exact (Nat.add_assoc _ _ _).symm
  | @resume settled hp =>
    rcases settled with _ | _ | _ | _
    all_goals rfl
  | row hp => exact row_asked (h.requests_ne_nil (by rw [hp]; rfl))
  | closed hp =>
    have hr := h.requests_ne_nil (by rw [hp]; rfl)
    have hpos := List.length_pos_of_ne_nil hr
    simp only [Stream.asked, Ev.isCall, List.length_append, List.length_cons, List.length_map,
      List.length_tail, List.length_nil, Bool.toNat_false]
    omega
  | _ => rfl

theorem asked_run : ∀ (es : List Ev) {s : Stream},
    run (Streaming.step hasSignal reason) es (.init rows) = some s →
    s.asked = es.countP Ev.isCall := by
  intro es
  induction es using List.reverseRecOn with
  | nil =>
    intro s h
    cases h
    rfl
  | append_singleton es e ih =>
    intro s' h
    obtain ⟨s, hs, hst⟩ := run_snoc.mp h
    obtain ⟨keys, hinv⟩ := inv_run hs
    rw [asked_step hinv (stepped_of_step hst), ih hs, List.countP_append, List.countP_singleton]
    rcases e.isCall
    · rfl
    · rfl

/-! ### After an abort -/

theorem isAbortError_abortError (reason : Thrown) : isAbortError (abortError reason) = true := by
  unfold abortError
  split_ifs with h
  · exact h
  · decide

theorem isAbortError_caught (reason err : Thrown) :
    isAbortError (caught reason true err) = true := by
  by_cases h : isAbortError err = true
  · rw [caught, if_pos h, h]
  · rw [caught, if_neg h, if_pos rfl, isAbortError_abortError]

/-- What is thrown, or is about to be, is an `AbortError`. -/
def OnlyAbort (s : Stream) : Prop :=
  s.aborted = true ∧ ∀ err, .threw err ∈ s.answers ∨ s.phase = .closing (.threw err) →
    isAbortError err = true

theorem onlyAbort_step {e : Ev} (h : OnlyAbort s) (hs : Stepped hasSignal reason s e s') :
    OnlyAbort s' := by
  obtain ⟨ha, hold⟩ := h
  refine ⟨aborted_step hs ha, fun err herr => ?_⟩
  have hadd : ∀ {answer : Answer}, (∀ err, answer = .threw err → isAbortError err = true) →
      .threw err ∈ s.answers ++ [answer] → isAbortError err = true := by
    intro answer hanswer hmem
    rcases List.mem_append.mp hmem with hmem | hmem
    · exact hold err (Or.inl hmem)
    · exact hanswer err (List.mem_singleton.mp hmem).symm
  have hclose : ∀ {answer : Answer}, (∀ err, answer = .threw err → isAbortError err = true) →
      .threw err ∈ s.answers ∨ Phase.closing answer = .closing (.threw err) →
      isAbortError err = true := by
    rintro answer hanswer (hmem | heq)
    · exact hold err (Or.inl hmem)
    · exact hanswer err (Phase.closing.inj heq)
  cases hs with
  | refuse hp =>
    refine herr.elim (hadd fun err he => ?_) fun h => by cases h
    cases he
    exact isAbortError_abortError reason
  | unused hp => exact herr.elim (hadd fun err he => by cases he) fun h => by cases h
  | ret hp => exact hclose (fun err he => by cases he) herr
  | late hp => exact herr.elim (hadd fun err he => by cases he) fun h => hold err (Or.inr h)
  | wait hp => exact hold err herr
  | abort hs hna => exact hold err herr
  | @resume settled hp =>
    rcases settled with batch | _ | err' | _
    · exact herr.elim (fun h => hold err (Or.inl h)) fun h => by cases h
    · exact hclose (fun err he => by cases he) herr
    · refine hclose (fun err he => ?_) herr
      cases he
      rw [ha]
      exact isAbortError_caught reason err'
    · refine hclose (fun err he => ?_) herr
      cases he
      exact isAbortError_abortError reason
  | @row left hp =>
    rcases left with _ | ⟨key, left⟩
    · exact herr.elim (fun h => hold err (Or.inl h)) fun h => by cases h
    · rw [Stream.row, if_pos ha] at herr
      refine hclose (fun err he => ?_) herr
      cases he
      exact isAbortError_abortError reason
  | @closed answer hp =>
    refine herr.elim (fun hmem => ?_) fun h => by cases h
    rcases List.mem_append.mp hmem with hmem | hmem
    · exact hold err (Or.inl hmem)
    rcases List.mem_cons.mp hmem with rfl | hmem
    · exact hold err (Or.inr hp)
    · obtain ⟨_, -, he⟩ := List.mem_map.mp hmem
      cases he
  | _ => exact herr.elim (fun h => hold err (Or.inl h)) fun h => by cases h

/-- A step that needs neither the consumer nor the query. -/
def Ev.isOwn : Ev → Bool
  | .react => true
  | .resume => true
  | .row => true
  | .closed => true
  | _ => false

/-- In at most `n` steps of its own the generator has answered every call. -/
def Abandons (hasSignal : Bool) (reason : Thrown) (n : ℕ) (s : Stream) : Prop :=
  ∃ es s', (∀ e ∈ es, Ev.isOwn e = true) ∧ es.length ≤ n ∧
    run (Streaming.step hasSignal reason) es s = some s' ∧ s'.phase = .ended ∧ s'.requests = []

theorem Abandons.cons {e : Ev} {n : ℕ} (hs : Streaming.step hasSignal reason s e = some s')
    (he : e.isOwn = true) (h : Abandons hasSignal reason n s') :
    Abandons hasSignal reason (n + 1) s := by
  obtain ⟨es, t, hown, hlen, hr, hend⟩ := h
  refine ⟨e :: es, t, fun e' he' => ?_, Nat.succ_le_succ hlen, ?_, hend⟩
  · rcases List.mem_cons.mp he' with rfl | he'
    · exact he
    · exact hown e' he'
  · rw [run_cons, hs]
    exact hr

theorem Abandons.mono {m n : ℕ} (hle : m ≤ n) (h : Abandons hasSignal reason m s) :
    Abandons hasSignal reason n s := by
  obtain ⟨es, t, hown, hlen, hend⟩ := h
  exact ⟨es, t, hown, hlen.trans hle, hend⟩

theorem abandons_closing {answer : Answer} (hp : s.phase = .closing answer) :
    Abandons hasSignal reason 1 s := by
  have hs : ∃ s', Streaming.step hasSignal reason s .closed = some s' ∧ s'.phase = .ended ∧
      s'.requests = [] := by
    simp only [Streaming.step, hp]
    exact ⟨_, rfl, rfl, rfl⟩
  obtain ⟨s', hs, hend⟩ := hs
  exact .cons hs rfl ⟨[], s', fun e he => (by cases he), le_rfl, rfl, hend⟩

theorem abandons_fetching (ha : s.aborted = true) (hp : s.phase = .fetching none) :
    Abandons hasSignal reason 3 s := by
  have hs : Streaming.step hasSignal reason s .react =
      some { s with phase := .fetching (some .aborted) } := by
    simp only [Streaming.step, hp, ha, if_true]
  exact .cons hs rfl (.cons (e := .resume) rfl rfl (abandons_closing rfl))

theorem abandons_rows (ha : s.aborted = true) {left : List JsString} (hp : s.phase = .rows left) :
    Abandons hasSignal reason 4 s := by
  have hs : Streaming.step hasSignal reason s .row = some (s.row reason left) := by
    simp only [Streaming.step, hp]
  refine .cons hs rfl ?_
  rcases left with _ | ⟨key, left⟩
  · exact abandons_fetching ha rfl
  · rw [Stream.row, if_pos ha]
    exact (abandons_closing rfl).mono (by decide)

theorem abandons_settled (ha : s.aborted = true) {settled : Settled}
    (hp : s.phase = .fetching (some settled)) : Abandons hasSignal reason 5 s := by
  have hs : Streaming.step hasSignal reason s .resume = some (s.resume reason settled) := by
    simp only [Streaming.step, hp]
  refine .cons hs rfl ?_
  rcases settled with batch | _ | err | _
  · exact abandons_rows ha rfl
  all_goals exact (abandons_closing rfl).mono (by decide)

/-- **An aborted call is abandoned**, whether the query answers or not. -/
theorem Inv.abandons (h : Inv hasSignal reason rows es s keys) (ha : s.aborted = true)
    (hr : s.requests ≠ []) : Abandons hasSignal reason 5 s := by
  have hidle : s.phase.running = true := by
    by_contra hn
    exact hr (h.requests_nil (Bool.not_eq_true _ |>.mp hn))
  rcases hp : s.phase with _ | race | left | left | answer | _
  · rw [hp] at hidle
    cases hidle
  · rcases race with _ | settled
    · exact (abandons_fetching ha hp).mono (by decide)
    · exact abandons_settled ha hp
  · exact (abandons_rows ha hp).mono (by decide)
  · rw [hp] at hidle
    cases hidle
  · exact (abandons_closing hp).mono (by decide)
  · rw [hp] at hidle
    cases hidle

/-! ### What is left behind -/

/-- The resources in any phase. -/
theorem Inv.resources (h : Inv hasSignal reason rows es s keys) : s.cursors ≤ 1 ∧ s.cancels ≤ 1 ∧
    s.cancels ≤ s.aborted.toNat ∧
    (s.phase = .ended → s.listening = false ∧ s.returns = s.cursors) := by
  have hone : s.aborted.toNat ≤ 1 := Bool.toNat_le _
  have hgoing : ∀ {held}, Going hasSignal rows s keys held → s.cursors ≤ 1 ∧ s.cancels ≤ 1 ∧
      s.cancels ≤ s.aborted.toNat := fun hg =>
    ⟨hg.cursors.le, hg.cancels.le.trans hone, hg.cancels.le⟩
  have hstop : ∀ {answer}, Stopped reason rows es s keys answer → s.cursors ≤ 1 ∧ s.cancels ≤ 1 ∧
      s.cancels ≤ s.aborted.toNat := fun hs =>
    ⟨hs.cursors.trans_le hs.returns, hs.cancels.trans hone, hs.cancels⟩
  have hfits := h.fits
  rcases hp : s.phase with _ | race | left | left | answer | _
  all_goals rw [hp] at hfits
  · rw [hfits.1]
    exact ⟨Nat.zero_le _, Nat.zero_le _, Nat.zero_le _, fun he => by cases he⟩
  · exact ⟨(hgoing hfits.1).1, (hgoing hfits.1).2.1, (hgoing hfits.1).2.2, fun he => by cases he⟩
  · exact ⟨(hgoing hfits.1).1, (hgoing hfits.1).2.1, (hgoing hfits.1).2.2, fun he => by cases he⟩
  · exact ⟨(hgoing hfits.1).1, (hgoing hfits.1).2.1, (hgoing hfits.1).2.2, fun he => by cases he⟩
  · exact ⟨(hstop hfits.1).1, (hstop hfits.1).2.1, (hstop hfits.1).2.2, fun he => by cases he⟩
  · obtain ⟨-, answer, n, hs, -⟩ := hfits
    exact ⟨(hstop hs).1, (hstop hs).2.1, (hstop hs).2.2, fun _ => ⟨hs.listening, hs.cursors.symm⟩⟩

/-- After its end the generator does nothing but answer. -/
def Over (t s : Stream) : Prop :=
  s.phase = .ended ∧ s.listening = false ∧ s.cancels = t.cancels ∧ s.cursors = t.cursors ∧
    s.returns = t.returns

theorem over_step {t : Stream} {e : Ev} (h : Over t s) (hs : Stepped hasSignal reason s e s') :
    Over t s' := by
  obtain ⟨hp, hl, hc, hu, hr⟩ := h
  cases hs with
  | late => exact ⟨hp, hl, hc, hu, hr⟩
  | abort =>
    refine ⟨hp, rfl, ?_, hu, hr⟩
    show s.cancels + s.listening.toNat = t.cancels
    rw [hl]
    exact hc
  | wait hrun =>
    rw [hp] at hrun
    cases hrun
  | _ hp' =>
    rw [hp] at hp'
    cases hp'

end Invariant

/-! ### Every run -/

/-- The generator is past its last `yield`. -/
def Phase.over : Phase → Bool
  | .closing _ => true
  | .ended => true
  | _ => false

/-- **What the consumer gets.** In every interleaving: the keys are a prefix of the listing, in its
order; every call has one answer, or waits; the generator only ends by itself after the whole
listing; what it throws is the abort, if there was one, or the translated error of the driver. After
an abort no key follows, and if the generator was not at its end, an error is an `AbortError`. -/
theorem stream_delivers (hasSignal : Bool) (reason : Thrown) (rows : List JsString) {es : List Ev}
    {s : Stream} (h : run (step hasSignal reason) es (.init rows) = some s) :
    keysOf s.answers <+: rows ∧
    s.answers.length + s.requests.length = es.countP Ev.isCall ∧
    (.done ∈ s.answers → (∀ err, .threw err ∉ s.answers) → .call .ret ∉ es →
      keysOf s.answers = rows) ∧
    (∀ err, .threw err ∈ s.answers → s.aborted = true ∧ err = abortError reason ∨
      ∃ e, .fail e ∈ es ∧ err = caught reason false e) ∧
    ∀ es' s', run (step hasSignal reason) es' s = some s' →
      keysOf s.answers <+: keysOf s'.answers ∧
      (s.aborted = true → keysOf s'.answers = keysOf s.answers ∧
        (s.phase.over = false → ∀ err, .threw err ∈ s'.answers → isAbortError err = true)) := by
  obtain ⟨keys, hinv⟩ := inv_run h
  obtain ⟨rfl, hle, hanswers⟩ := hinv.answers
  refine ⟨hle, asked_run es h, fun hdone hno hret => ?_, fun err herr => ?_, fun es' s' h' => ?_⟩
  · rcases hanswers _ hdone with ⟨key, hkey⟩ | ⟨-, hj | ⟨-, err, herr⟩⟩
    · cases hkey
    · exact hj.resolve_right hret
    · exact absurd herr (hno err)
  · rcases hanswers _ herr with ⟨key, hkey⟩ | ⟨-, hj | ⟨hdone, -⟩⟩
    · cases hkey
    · exact hj
    · cases hdone
  · obtain ⟨keys', hle', hkeep, hinv'⟩ := inv_run_from es' hinv h'
    rw [hinv'.answers.1]
    refine ⟨hle', fun ha => ⟨(hkeep ha).1, fun hover => ?_⟩⟩
    have hstart : OnlyAbort s := by
      refine ⟨ha, fun err herr => ?_⟩
      rcases herr with herr | hp
      · rcases hanswers _ herr with ⟨key, hkey⟩ | ⟨hp, -⟩
        · cases hkey
        · rw [hp] at hover
          cases hover
      · rw [hp] at hover
        cases hover
    have hend := run_inv (fun _ _ _ hI hst => onlyAbort_step hI (stepped_of_step hst)) es' s s'
      hstart h'
    exact fun err herr => hend.2 err (Or.inl herr)

/-- The signal is aborted while the second batch is fetched, and the query fails because it is
cancelled. -/
def abortedListing : List Ev :=
  [.call .next, .batch 2, .resume, .row, .call .next, .row, .call .next, .row, .call .next, .abort,
    .fail (serverError "57014" "canceling statement due to user request")]

theorem stream_delivers_abortedListing :
    ∃ s s', run (step true (.value "tired")) abortedListing (.init [[97], [98], [99]]) = some s ∧
      run (step true (.value "tired")) [.resume, .closed] s = some s' ∧
      keysOf s'.answers = [[97], [98]] ∧ s'.answers.length = 4 ∧
      ∀ err, .threw err ∈ s'.answers → isAbortError err = true := by
  have hr : ∃ s s', run (step true (.value "tired")) abortedListing (.init [[97], [98], [99]]) =
      some s ∧ run (step true (.value "tired")) [.resume, .closed] s = some s' := ⟨_, _, rfl, rfl⟩
  obtain ⟨s, s', hs, hs'⟩ := hr
  have hlater := (stream_delivers true (.value "tired") [[97], [98], [99]] hs).2.2.2.2
    [.resume, .closed] s' hs'
  have ha : s.aborted = true ∧ s.phase.over = false ∧ keysOf s.answers = [[97], [98]] := by
    cases hs
    exact ⟨rfl, rfl, rfl⟩
  refine ⟨s, s', hs, hs', (hlater.2 ha.1).1.trans ha.2.2, ?_, (hlater.2 ha.1).2 ha.2.1⟩
  cases hs
  cases hs'
  rfl

/-- **What the generator leaves behind.** In every interleaving: the cursor is opened at most once,
and closed exactly once when the generator has ended, which then no longer listens to the signal;
the query is cancelled at most once, only for an abort, and never after the end. An aborted call is
answered in at most five steps of the generator, whatever the query does. -/
theorem stream_cleans_up (hasSignal : Bool) (reason : Thrown) (rows : List JsString) {es : List Ev}
    {s : Stream} (h : run (step hasSignal reason) es (.init rows) = some s) :
    s.cursors ≤ 1 ∧ s.cancels ≤ 1 ∧ s.cancels ≤ s.aborted.toNat ∧
    (s.phase = .ended → s.listening = false ∧ s.returns = s.cursors ∧
      ∀ es' s', run (step hasSignal reason) es' s = some s' → Over s s') ∧
    (s.aborted = true → s.requests ≠ [] → Abandons hasSignal reason 5 s) := by
  obtain ⟨keys, hinv⟩ := inv_run h
  obtain ⟨hcursors, hone, hcancels, hend⟩ := hinv.resources
  refine ⟨hcursors, hone, hcancels, fun hp => ?_, hinv.abandons⟩
  obtain ⟨hl, hr⟩ := hend hp
  exact ⟨hl, hr, fun es' s' h' => run_inv (I := Over s)
    (fun _ _ _ hI hst => over_step hI (stepped_of_step hst)) es' s s' ⟨hp, hl, rfl, rfl, rfl⟩ h'⟩

theorem stream_cleans_up_abortedListing :
    ∃ s s', run (step true (.value "tired")) abortedListing (.init [[97], [98], [99]]) = some s ∧
      run (step true (.value "tired")) [.resume, .closed] s = some s' ∧ s.cancels = 1 ∧
      Abandons true (.value "tired") 5 s ∧ s'.returns = 1 ∧ Over s' s' := by
  have hr : ∃ s s', run (step true (.value "tired")) abortedListing (.init [[97], [98], [99]]) =
      some s ∧ run (step true (.value "tired")) [.resume, .closed] s = some s' := ⟨_, _, rfl, rfl⟩
  obtain ⟨s, s', hs, hs'⟩ := hr
  have hrun : run (step true (.value "tired")) (abortedListing ++ [.resume, .closed])
      (.init [[97], [98], [99]]) = some s' := by
    rw [run_append, hs]
    exact hs'
  have hfacts : s.aborted = true ∧ s.requests ≠ [] ∧ s.cancels = 1 ∧ s'.phase = .ended ∧
      s'.cursors = 1 := by
    cases hs
    cases hs'
    exact ⟨rfl, List.cons_ne_nil _ _, rfl, rfl, rfl⟩
  obtain ⟨ha, hreq, hcancels, hp, hcursors⟩ := hfacts
  have hend := (stream_cleans_up true (.value "tired") _ hrun).2.2.2.1 hp
  exact ⟨s, s', hs, hs', hcancels,
    (stream_cleans_up true (.value "tired") _ hs).2.2.2.2 ha hreq, hend.2.1.trans hcursors,
    hend.2.2 [] s' rfl⟩

end UmbraDB.Boundary.Streaming
