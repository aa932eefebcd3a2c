import UmbraDB.Lib.ErrorObjects
import Mathlib.Data.List.Nodup
import Mathlib.Order.Nat
import Mathlib.Tactic.Tauto

/-! # `withLease`

Client code that takes leases with `withLease`, in any nesting, and with `acquireLease` and
`releaseLease` directly, on one instance of the layer, one call after the other. The errors are
objects that the client holds references to: `withLease` attaches a failed release to the error of
`fn`, which the client may have thrown before.

Which calls fail is given by the server: `acquire n` and `unlock n` are about the `n`-th of these
statements. How a lease is acquired is `Lease.System`; an acquisition that fails keeps nothing.

`raised`, `told`, `acquired`, `freed` and `lapsed` are only records: the errors that were thrown
first, those that client code has got in a handler or a callback, the leases that the client has
acquired and released itself, and those that `withLease` did not find any more.

* `leases_given_back` : what a program leaves in `heldLeases`.
* `no_fault_lost` : every error can be found from one that the client got. -/

namespace UmbraDB.Lease.Bracket

open UmbraDB.Lib.ErrorObjects

/-- Why `acquireLease` rejects. -/
inductive AcquireFault
  /-- `LeaseTimeoutError`. -/
  | timeout
  /-- `AbortError`: the reason of the signal, or a new one. -/
  | aborted (reason : Option ℕ)
  /-- `LeaseFaultError`, for an error of the driver. -/
  | fault (err : Obj)

structure Server where
  acquire : ℕ → Option AcquireFault
  unlock : ℕ → Option Obj

/-- What `onReleaseFault` does. -/
inductive Callback
  | returns
  | throws (err : Obj)
  /-- It is asynchronous, and its promise is rejected. -/
  | rejects (err : Obj)

/-- The client. -/
inductive Prog (V : Type)
  | ret (v : V)
  | raise (err : ℕ)
  | create (o : Obj) (k : ℕ → Prog V)
  | acquire (k : ℕ → Prog V)
  | release (lease : ℕ) (k : Prog V)
  | withLease (onReleaseFault : Option Callback) (fn : ℕ → Prog V) (k : V → Prog V)
  /-- `try { body } catch (err) { handler }`. -/
  | attempt (body : Prog V) (handler : ℕ → Prog V) (k : V → Prog V)

structure Leases where
  /-- The tokens of the entries of `heldLeases`. -/
  heldLeases : List ℕ
  tokens : ℕ
  /-- The connections that were reserved for a lease, and that were released. -/
  reserved : ℕ
  returned : ℕ
  acquired : List ℕ
  freed : List ℕ
  lapsed : List ℕ

structure Layer extends Leases where
  heap : Heap
  acquires : ℕ
  unlocks : ℕ
  raised : List ℕ
  told : List ℕ

/-- The layer with the objects that the client has already. -/
def Layer.init (heap : Heap) : Layer := ⟨⟨[], 0, 0, 0, [], [], []⟩, heap, 0, 0, [], []⟩

/-- A new entry. -/
def Leases.add (l : Leases) : Leases :=
  { l with heldLeases := l.heldLeases ++ [l.tokens], tokens := l.tokens + 1,
           reserved := l.reserved + 1 }

/-- The entry is deleted, and its connection is released. -/
def Leases.drop (l : Leases) (lease : ℕ) : Leases :=
  { l with heldLeases := l.heldLeases.erase lease, returned := l.returned + 1 }

/-- The client has acquired the newest lease. -/
def Leases.own (l : Leases) (lease : ℕ) : Leases := { l with acquired := l.acquired ++ [lease] }

/-- The client is going to release the lease. -/
def Leases.free (l : Leases) (lease : ℕ) : Leases :=
  if lease ∈ l.heldLeases then { l with freed := l.freed ++ [lease] } else l

/-- `withLease` is going to release the lease. -/
def Leases.lapse (l : Leases) (lease : ℕ) : Leases :=
  if lease ∈ l.heldLeases then l else { l with lapsed := l.lapsed ++ [lease] }

/-- An `Error` with the cause. -/
def errorObject (cause : Option ℕ) : Obj := ⟨true, cause, true, []⟩

/-- `AggregateError`. -/
def aggregateError (errors : List ℕ) : Obj := ⟨true, none, true, errors⟩

/-- An error of the layer is thrown. -/
def Layer.fault (s : Layer) (objects : List Obj) (err : ℕ) : Layer :=
  { s with heap := s.heap ++ objects, raised := s.raised ++ [err] }

def Layer.tell (s : Layer) (err : ℕ) : Layer := { s with told := s.told ++ [err] }

/-- `new LeaseFaultError(…, err)`: the error of the driver, and the fault. -/
def Layer.leaseFault (s : Layer) (err : Obj) : ℕ × Layer :=
  (s.heap.length + 1, s.fault [err, errorObject (some s.heap.length)] (s.heap.length + 1))

def acquireFailed (s : Layer) : AcquireFault → ℕ × Layer
  | .timeout => (s.heap.length, s.fault [errorObject none] s.heap.length)
  | .aborted (some reason) => (reason, s.fault [] reason)
  | .aborted none => (s.heap.length, s.fault [errorObject none] s.heap.length)
  | .fault err => s.leaseFault err

def acquireLease (server : Server) (s : Layer) : Except ℕ ℕ × Layer :=
  let s' := { s with acquires := s.acquires + 1 }
  match server.acquire s.acquires with
  | some f =>
    let (err, s₁) := acquireFailed s' f
    (.error err, s₁)
  | none => (.ok s.tokens, { s' with toLeases := s.add })

/-- `heldLeases.delete`, the unlock, and `release()`. -/
def Layer.giveBack (s : Layer) (lease : ℕ) : Layer :=
  { s with toLeases := s.drop lease, unlocks := s.unlocks + 1 }

/-- The error that `releaseLease` rejects with, if it does. -/
def releaseLease (server : Server) (lease : ℕ) (s : Layer) : Option ℕ × Layer :=
  if lease ∈ s.heldLeases then
    match server.unlock s.unlocks with
    | some err =>
      let (fault, s') := (s.giveBack lease).leaseFault err
      (some fault, s')
    | none => (none, s.giveBack lease)
  -- `LeaseNotHeldError`
  else (some s.heap.length, s.fault [errorObject none] s.heap.length)

/-- `notifyReleaseFault`: what the callback throws goes nowhere. -/
def notifyReleaseFault (s : Layer) (releaseFault : ℕ) : Callback → Layer
  | .returns => s.tell releaseFault
  | .throws err => { s.tell releaseFault with heap := s.heap ++ [err] }
  | .rejects err => { s.tell releaseFault with heap := s.heap ++ [err] }

/-- `fn` and the release have failed, and there is no callback. -/
def bothFailed (s : Layer) (err releaseFault : ℕ) : ℕ × Layer :=
  match s.heap[err]? with
  | some ⟨true, none, true, _⟩ => (err, { s with heap := s.heap.setCause err releaseFault })
  | _ => (s.heap.length, { s with heap := s.heap ++ [aggregateError [err, releaseFault]] })

variable {V : Type}

/-- The end of `withLease`. -/
def settle (onReleaseFault : Option Callback) (outcome : Except ℕ V) (releaseFault : ℕ)
    (s : Layer) : Except ℕ V × Layer :=
  match outcome, onReleaseFault with
  | .error err, some cb => (.error err, notifyReleaseFault s releaseFault cb)
  | .error err, none =>
    let (err', s') := bothFailed s err releaseFault
    (.error err', s')
  | .ok v, some cb => (.ok v, notifyReleaseFault s releaseFault cb)
  | .ok _, none => (.error releaseFault, s)

/-- `withLease` after `fn` has ended. -/
def finish (server : Server) (lease : ℕ) (onReleaseFault : Option Callback) (outcome : Except ℕ V)
    (s : Layer) : Except ℕ V × Layer :=
  match releaseLease server lease { s with toLeases := s.lapse lease } with
  | (none, s') => (outcome, s')
  | (some releaseFault, s') => settle onReleaseFault outcome releaseFault s'

/-- The client runs; `withLease` is `acquireLease`, `fn` and `finish`. -/
def run (server : Server) : Prog V → Layer → Except ℕ V × Layer
  | .ret v, s => (.ok v, s)
  | .raise err, s => (.error err, s.fault [] err)
  | .create o k, s => run server (k s.heap.length) { s with heap := s.heap ++ [o] }
  | .acquire k, s =>
    match acquireLease server s with
    | (.error err, s') => (.error err, s')
    | (.ok lease, s') => run server (k lease) { s' with toLeases := s'.own lease }
  | .release lease k, s =>
    match releaseLease server lease { s with toLeases := s.free lease } with
    | (some err, s') => (.error err, s')
    | (none, s') => run server k s'
  | .withLease onReleaseFault fn k, s =>
    match acquireLease server s with
    | (.error err, s') => (.error err, s')
    | (.ok lease, s') =>
      let (outcome, s₁) := run server (fn lease) s'
      match finish server lease onReleaseFault outcome s₁ with
      | (.error err, s₂) => (.error err, s₂)
      | (.ok v, s₂) => run server (k v) s₂
  | .attempt body handler k, s =>
    match run server body s with
    | (.ok v, s') => run server (k v) s'
    | (.error err, s') =>
      match run server (handler err) (s'.tell err) with
      | (.error err', s₁) => (.error err', s₁)
      | (.ok v, s₁) => run server (k v) s₁

/-! ### No error is lost -/

section Errors
variable (server : Server) {s s' : Layer} {errs errs' : List ℕ}

/-- The errors that were thrown can be found from those the client got, and from `errs`. -/
def Surfaced (s : Layer) (errs : List ℕ) : Prop :=
  ∀ f ∈ s.raised, Found s.heap (s.told ++ errs) f

/-- The errors with which a program ends. -/
def errorsOf : Except ℕ V → List ℕ
  | .error err => [err]
  | .ok _ => []

theorem Surfaced.later (h : Surfaced s errs) (hg : Grows s.heap s'.heap)
    (hr : s'.raised = s.raised)
    (hroots : ∀ d ∈ s.told ++ errs, Found s'.heap (s'.told ++ errs') d) : Surfaced s' errs' := by
  intro f hf
  rw [hr] at hf
  exact (h f hf).grow hg hroots

theorem Surfaced.fault (h : Surfaced s errs) (objects : List Obj) (err : ℕ) :
    Surfaced (s.fault objects err) (errs ++ [err]) := by
  intro f hf
  rcases List.mem_append.mp hf with hf | hf
  · refine (h f hf).grow (grows_append _ _) fun d hd => found_root ?_
    rw [← List.append_assoc]
    exact List.mem_append_left _ hd
  · obtain rfl := List.mem_singleton.mp hf
    exact found_root (List.mem_append_right _ (List.mem_append_right _ List.mem_cons_self))

theorem surfaced_acquireFailed (h : Surfaced s []) (f : AcquireFault) :
    Surfaced (acquireFailed s f).2 [(acquireFailed s f).1] := by
  rcases f with _ | (_ | reason) | err
  all_goals exact h.fault _ _

theorem surfaced_acquireLease (h : Surfaced s []) :
    Surfaced (acquireLease server s).2 (errorsOf (acquireLease server s).1) := by
  unfold acquireLease
  rcases server.acquire s.acquires with _ | f
  · exact h
  · exact surfaced_acquireFailed (s := { s with acquires := s.acquires + 1 }) h f

theorem surfaced_releaseLease (h : Surfaced s errs) (lease : ℕ) :
    Surfaced (releaseLease server lease s).2 (errs ++ (releaseLease server lease s).1.toList) := by
  unfold releaseLease
  split_ifs
  · rcases server.unlock s.unlocks with _ | err
    · rw [Option.toList_none, List.append_nil]
      exact h
    · exact Surfaced.fault (s := s.giveBack lease) h _ _
  · exact h.fault _ _

/-- The callback gets the fault, and nothing is lost if it throws. -/
theorem surfaced_notifyReleaseFault {fault : ℕ} (h : Surfaced s (errs ++ [fault])) (cb : Callback) :
    Surfaced (notifyReleaseFault s fault cb) errs := by
  have hroots : ∀ heap, ∀ d ∈ s.told ++ (errs ++ [fault]),
      Found heap (s.told ++ [fault] ++ errs) d := by
    intro heap d hd
    refine found_root ?_
    simp only [List.mem_append] at hd ⊢
    tauto
  rcases cb with _ | err | err
  · exact h.later (Grows.refl _) rfl (hroots _)
  · exact h.later (grows_append _ _) rfl (hroots _)
  · exact h.later (grows_append _ _) rfl (hroots _)

/-- The fault becomes the cause of the error, or both are members of an aggregate. -/
theorem surfaced_bothFailed {err fault : ℕ} (h : Surfaced s ([err] ++ [fault])) :
    Surfaced (bothFailed s err fault).2 [(bothFailed s err fault).1] := by
  have hroots : ∀ {heap err'}, Carries heap err' err → Carries heap err' fault →
      ∀ d ∈ s.told ++ ([err] ++ [fault]), Found heap (s.told ++ [err']) d := by
    intro heap err' he hf d hd
    rcases List.mem_append.mp hd with hd | hd
    · exact found_root (List.mem_append_left _ hd)
    · refine ⟨err', List.mem_append_right _ List.mem_cons_self, ?_⟩
      rcases List.mem_cons.mp hd with rfl | hd
      · exact he
      · obtain rfl := List.mem_singleton.mp hd
        exact hf
  unfold bothFailed
  split
  · rename_i members ho
    refine h.later (grows_setCause (fun o ho' => ?_) _) rfl (hroots (.refl err) ?_)
    · rw [ho] at ho'
      cases ho'
      rfl
    · exact .cause (getElem?_setCause_self ho _) rfl (.refl _)
  · have hnew : (s.heap ++ [aggregateError [err, fault]])[s.heap.length]? =
        some (aggregateError [err, fault]) := List.getElem?_concat_length
    refine h.later (grows_append _ _) rfl (hroots ?_ ?_)
    · exact .member hnew List.mem_cons_self (.refl _)
    · exact .member hnew (List.mem_cons_of_mem _ List.mem_cons_self) (.refl _)

theorem surfaced_settle {outcome : Except ℕ V} {fault : ℕ}
    (h : Surfaced s (errorsOf outcome ++ [fault])) (onReleaseFault : Option Callback) :
    Surfaced (settle onReleaseFault outcome fault s).2
      (errorsOf (settle onReleaseFault outcome fault s).1) := by
  rcases outcome with err | v
  · rcases onReleaseFault with _ | cb
    · exact surfaced_bothFailed h
    · exact surfaced_notifyReleaseFault h cb
  · rcases onReleaseFault with _ | cb
    · exact h
    · exact surfaced_notifyReleaseFault h cb

theorem surfaced_finish {outcome : Except ℕ V} (h : Surfaced s (errorsOf outcome)) (lease : ℕ)
    (onReleaseFault : Option Callback) :
    Surfaced (finish server lease onReleaseFault outcome s).2
      (errorsOf (finish server lease onReleaseFault outcome s).1) := by
  have h₀ : Surfaced { s with toLeases := s.lapse lease } (errorsOf outcome) := h
  have h₁ := surfaced_releaseLease server h₀ lease
  unfold finish
  rcases hrel : releaseLease server lease { s with toLeases := s.lapse lease } with ⟨_ | fault, s'⟩
  all_goals rw [hrel] at h₁
  · rw [Option.toList_none, List.append_nil] at h₁
    exact h₁
  · exact surfaced_settle h₁ onReleaseFault

theorem surfaced_run (p : Prog V) : ∀ {s : Layer}, Surfaced s [] →
    Surfaced (run server p s).2 (errorsOf (run server p s).1) := by
  induction p with
  | ret v => exact fun h => h
  | raise err => exact fun h => h.fault [] err
  | create o k ih =>
    intro s h
    refine ih _ (h.later (grows_append _ _) rfl fun d hd => found_root hd)
  | acquire k ih =>
    intro s h
    have hacq := surfaced_acquireLease server h
    unfold run
    rcases hres : acquireLease server s with ⟨err | lease, s'⟩
    all_goals rw [hres] at hacq
    · exact hacq
    · exact ih lease hacq
  | release lease k ih =>
    intro s h
    have hfree : Surfaced { s with toLeases := s.free lease } [] := h
    have hrel := surfaced_releaseLease server hfree lease
    unfold run
    rcases hres : releaseLease server lease { s with toLeases := s.free lease } with ⟨_ | err, s'⟩
    all_goals rw [hres] at hrel
    · exact ih hrel
    · exact hrel
  | withLease onReleaseFault fn k ihfn ihk =>
    intro s h
    have hacq := surfaced_acquireLease server h
    unfold run
    rcases hres : acquireLease server s with ⟨err | lease, s'⟩
    all_goals rw [hres] at hacq
    · exact hacq
    have hfin := surfaced_finish server (ihfn lease hacq) lease onReleaseFault
    rcases hend : finish server lease onReleaseFault (run server (fn lease) s').1
      (run server (fn lease) s').2 with ⟨err | v, s₂⟩
    all_goals
      rw [hend] at hfin
      dsimp only
      rw [hend]
    · exact hfin
    · exact ihk v hfin
  | attempt body handler k ihbody ihhandler ihk =>
    intro s h
    have hbody := ihbody h
    unfold run
    rcases hres : run server body s with ⟨err | v, s'⟩
    all_goals rw [hres] at hbody
    · have hhandler : Surfaced (s'.tell err) [] :=
        hbody.later (Grows.refl _) rfl fun d hd => found_root (by rwa [List.append_nil])
      have hrun := ihhandler err hhandler
      dsimp only
      rcases hres' : run server (handler err) (s'.tell err) with ⟨err' | v, s₁⟩
      all_goals rw [hres'] at hrun
      · exact hrun
      · exact ihk v hrun
    · exact ihk v hbody

end Errors

/-! ### No lease is kept -/

section Leases
variable {server : Server} {l l₁ l₂ : Leases} {s : Layer} {lease : ℕ}

/-- **What the records say of the leases.** -/
structure Good (l : Leases) : Prop where
  nodup : l.heldLeases.Nodup
  held : ∀ t ∈ l.heldLeases, t < l.tokens
  acquired : ∀ t ∈ l.acquired, t < l.tokens ∧ (t ∈ l.heldLeases ∨ t ∈ l.freed)
  freed : ∀ t ∈ l.freed, t < l.tokens ∧ t ∉ l.heldLeases
  lapsed : ∀ t ∈ l.lapsed, t ∈ l.freed
  connections : l.reserved = l.returned + l.heldLeases.length

/-- What a program does to the leases: it takes away only what the client releases itself, and
leaves behind only what the client has acquired itself. -/
structure Brackets (l l' : Leases) : Prop where
  tokens : l.tokens ≤ l'.tokens
  records : ∀ t ∈ l.acquired, t ∈ l'.acquired
  acquired : ∀ t ∈ l'.acquired, t ∈ l.acquired ∨ l.tokens ≤ t
  freed : ∀ t ∈ l.freed, t ∈ l'.freed
  keeps : ∀ t ∈ l.heldLeases, t ∈ l'.heldLeases ∨ t ∈ l'.freed
  only : ∀ t ∈ l'.heldLeases, t ∈ l.heldLeases ∨ t ∈ l'.acquired

theorem Brackets.refl (l : Leases) : Brackets l l :=
  ⟨le_refl _, fun _ h => h, fun _ h => Or.inl h, fun _ h => h, fun _ h => Or.inl h,
    fun _ h => Or.inl h⟩

theorem Brackets.trans (h : Brackets l l₁) (h' : Brackets l₁ l₂) : Brackets l l₂ := by
  refine ⟨h.tokens.trans h'.tokens, fun t ht => h'.records t (h.records t ht), fun t ht => ?_,
    fun t ht => h'.freed t (h.freed t ht), fun t ht => ?_, fun t ht => ?_⟩
  · rcases h'.acquired t ht with ht | hle
    · exact h.acquired t ht
    · exact Or.inr (h.tokens.trans hle)
  · rcases h.keeps t ht with ht | hf
    · exact h'.keeps t ht
    · exact Or.inr (h'.freed t hf)
  · rcases h'.only t ht with ht | ha
    · exact (h.only t ht).imp_right (h'.records t)
    · exact Or.inr ha

theorem Good.fresh (h : Good l) : l.tokens ∉ l.heldLeases ∧ l.tokens ∉ l.acquired ∧
    l.tokens ∉ l.freed :=
  ⟨fun ht => (h.held _ ht).false, fun ht => (h.acquired _ ht).1.false,
    fun ht => (h.freed _ ht).1.false⟩

theorem good_add (h : Good l) : Good l.add := by
  obtain ⟨hheld, -, hfreed⟩ := h.fresh
  refine ⟨?_, fun t ht => ?_, fun t ht => ?_, fun t ht => ?_, h.lapsed, ?_⟩
  · exact List.nodup_append.mpr ⟨h.nodup, List.nodup_singleton _, fun a ha b hb hab =>
      hheld (List.mem_singleton.mp hb ▸ hab ▸ ha)⟩
  · rcases List.mem_append.mp ht with ht | ht
    · exact Nat.lt_succ_of_lt (h.held t ht)
    · exact (List.mem_singleton.mp ht).le.trans_lt (Nat.lt_succ_self _)
  · obtain ⟨hlt, hor⟩ := h.acquired t ht
    exact ⟨Nat.lt_succ_of_lt hlt, hor.imp_left (List.mem_append_left _)⟩
  · obtain ⟨hlt, hn⟩ := h.freed t ht
    refine ⟨Nat.lt_succ_of_lt hlt, fun hmem => ?_⟩
    rcases List.mem_append.mp hmem with hmem | hmem
    · exact hn hmem
    · exact hfreed (List.mem_singleton.mp hmem ▸ ht)
  · show l.reserved + 1 = l.returned + (l.heldLeases ++ [l.tokens]).length
    rw [h.connections, List.length_append, List.length_singleton]
    omega

/-- A lease that is acquired by the client itself. -/
theorem good_own (h : Good l) : Good (l.add.own l.tokens) := by
  have hadd := good_add h
  refine ⟨hadd.nodup, hadd.held, fun t ht => ?_, hadd.freed, hadd.lapsed, hadd.connections⟩
  rcases List.mem_append.mp ht with ht | ht
  · exact hadd.acquired t ht
  · obtain rfl := List.mem_singleton.mp ht
    exact ⟨Nat.lt_succ_self _, Or.inl (List.mem_append_right _ List.mem_cons_self)⟩

theorem brackets_own (l : Leases) : Brackets l (l.add.own l.tokens) := by
  refine ⟨Nat.le_succ _, fun t ht => List.mem_append_left _ ht, fun t ht => ?_, fun t ht => ht,
    fun t ht => Or.inl (List.mem_append_left _ ht), fun t ht => ?_⟩
  · exact (List.mem_append.mp ht).imp_right fun ht => (List.mem_singleton.mp ht).ge
  · exact (List.mem_append.mp ht).imp_right fun ht => List.mem_append_right _ ht

/-- An entry is deleted; the client may have freed its lease. -/
theorem good_erase (h : Good l) (hheld : lease ∈ l.heldLeases) {freed : List ℕ}
    (hmono : ∀ t ∈ l.freed, t ∈ freed) (honly : ∀ t ∈ freed, t ∈ l.freed ∨ t = lease)
    (hacquired : lease ∈ l.acquired → lease ∈ freed) :
    Good { l.drop lease with freed := freed } := by
  have hgone : lease ∉ l.heldLeases.erase lease := h.nodup.not_mem_erase
  refine ⟨h.nodup.erase _, fun t ht => h.held t (List.mem_of_mem_erase ht), fun t ht => ?_,
    fun t ht => ?_, fun t ht => hmono t (h.lapsed t ht), ?_⟩
  · obtain ⟨hlt, hor⟩ := h.acquired t ht
    refine ⟨hlt, ?_⟩
    rcases eq_or_ne t lease with rfl | hne
    · exact Or.inr (hacquired ht)
    · exact hor.imp (List.mem_erase_of_ne hne).mpr (hmono t)
  · rcases honly t ht with ht | rfl
    · obtain ⟨hlt, hn⟩ := h.freed t ht
      exact ⟨hlt, fun hmem => hn (List.mem_of_mem_erase hmem)⟩
    · exact ⟨h.held t hheld, hgone⟩
  · show l.reserved = l.returned + 1 + (l.heldLeases.erase lease).length
    have hpos := List.length_pos_of_mem hheld
    rw [h.connections, List.length_erase_of_mem hheld]
    omega

theorem brackets_erase (hheld : lease ∈ l.heldLeases) {freed : List ℕ}
    (hmono : ∀ t ∈ l.freed, t ∈ freed) (hfreed : lease ∈ freed) :
    Brackets l { l.drop lease with freed := freed } := by
  refine ⟨le_refl _, fun t ht => ht, fun t ht => Or.inl ht, hmono, fun t ht => ?_,
    fun t ht => Or.inl (List.mem_of_mem_erase ht)⟩
  rcases eq_or_ne t lease with rfl | hne
  · exact Or.inr hfreed
  · exact Or.inl ((List.mem_erase_of_ne hne).mpr ht)

/-- `releaseLease`, on the leases. -/
def Leases.release (l : Leases) (lease : ℕ) : Leases :=
  if lease ∈ l.heldLeases then l.drop lease else l

/-- The client releases a lease, or one that it does not hold any more. -/
theorem freed_release (h : Good l) (lease : ℕ) :
    Good ((l.free lease).release lease) ∧ Brackets l ((l.free lease).release lease) := by
  by_cases hheld : lease ∈ l.heldLeases
  · have heq : (l.free lease).release lease =
        { l.drop lease with freed := l.freed ++ [lease] } := by
      rw [Leases.free, if_pos hheld, Leases.release, if_pos hheld]
      rfl
    have hmem : lease ∈ l.freed ++ [lease] := List.mem_append_right _ List.mem_cons_self
    rw [heq]
    exact ⟨good_erase h hheld (fun t ht => List.mem_append_left _ ht)
      (fun t ht => (List.mem_append.mp ht).imp_right List.mem_singleton.mp) fun _ => hmem,
      brackets_erase hheld (fun t ht => List.mem_append_left _ ht) hmem⟩
  · rw [Leases.free, if_neg hheld, Leases.release, if_neg hheld]
    exact ⟨h, Brackets.refl l⟩

/-- **`withLease`, on the leases**: whatever `fn` does, only the lease of `withLease` is gone. -/
theorem bracket (h : Good l) (h₁ : Good l₁) (hb : Brackets l.add l₁) :
    Good ((l₁.lapse l.tokens).release l.tokens) ∧
    Brackets l ((l₁.lapse l.tokens).release l.tokens) := by
  obtain ⟨hheld, hacquired, -⟩ := h.fresh
  have hnot : l.tokens ∉ l₁.acquired := fun ht => by
    rcases hb.acquired _ ht with ht | hle
    · exact hacquired ht
    · exact Nat.not_succ_le_self _ hle
  have hmine : l.tokens ∈ l₁.heldLeases ∨ l.tokens ∈ l₁.freed :=
    hb.keeps _ (List.mem_append_right _ List.mem_cons_self)
  have hbefore : ∀ t ∈ l.heldLeases, t ≠ l.tokens := fun t ht he => hheld (he ▸ ht)
  -- the leases of `l₁`, less that of `withLease`
  have hbrackets : ∀ l₂ : Leases, l₂.tokens = l₁.tokens → l₂.acquired = l₁.acquired →
      l₂.freed = l₁.freed → (∀ t, t ∈ l₂.heldLeases ↔ t ∈ l₁.heldLeases ∧ t ≠ l.tokens) →
      Brackets l l₂ := by
    intro l₂ htokens hacq hfr hmem
    refine ⟨htokens ▸ (Nat.le_succ _).trans hb.tokens, fun t ht => hacq ▸ hb.records t ht,
      fun t ht => ?_, fun t ht => hfr ▸ hb.freed t ht, fun t ht => ?_, fun t ht => ?_⟩
    · exact (hb.acquired t (hacq ▸ ht)).imp_right fun hle => (Nat.le_succ _).trans hle
    · rw [hfr, hmem]
      exact (hb.keeps t (List.mem_append_left _ ht)).imp_left fun hk => ⟨hk, hbefore t ht⟩
    · obtain ⟨hk, hne⟩ := (hmem t).mp ht
      rw [hacq]
      refine (hb.only t hk).imp_left fun hadd => ?_
      rcases List.mem_append.mp hadd with hl | he
      · exact hl
      · exact absurd (List.mem_singleton.mp he) hne
  by_cases hin : l.tokens ∈ l₁.heldLeases
  · rw [Leases.lapse, if_pos hin, Leases.release, if_pos hin]
    refine ⟨good_erase h₁ hin (fun t ht => ht) (fun t ht => Or.inl ht) fun ha => absurd ha hnot,
      hbrackets _ rfl rfl rfl fun t => ?_⟩
    rw [and_comm]
    exact h₁.nodup.mem_erase_iff
  · rw [Leases.lapse, if_neg hin, Leases.release, if_neg hin]
    refine ⟨⟨h₁.nodup, h₁.held, h₁.acquired, h₁.freed, fun t ht => ?_, h₁.connections⟩,
      hbrackets _ rfl rfl rfl fun t => ⟨fun ht => ⟨ht, fun he => hin (he ▸ ht)⟩, And.left⟩⟩
    rcases List.mem_append.mp ht with ht | ht
    · exact h₁.lapsed t ht
    · exact List.mem_singleton.mp ht ▸ hmine.resolve_left hin

/-! ### What the operations do to the leases -/

theorem acquireFailed_leases (s : Layer) (f : AcquireFault) :
    (acquireFailed s f).2.toLeases = s.toLeases := by
  rcases f with _ | (_ | reason) | err
  all_goals rfl

/-- `acquireLease` keeps nothing if it rejects. -/
theorem acquireLease_leases (server : Server) (s : Layer) :
    (∃ err, (acquireLease server s).1 = .error err ∧
      (acquireLease server s).2.toLeases = s.toLeases) ∨
    (acquireLease server s).1 = .ok s.tokens ∧ (acquireLease server s).2.toLeases = s.add := by
  unfold acquireLease
  rcases server.acquire s.acquires with _ | f
  · exact Or.inr ⟨rfl, rfl⟩
  · exact Or.inl ⟨_, rfl, acquireFailed_leases { s with acquires := s.acquires + 1 } f⟩

theorem releaseLease_leases (server : Server) (lease : ℕ) (s : Layer) :
    (releaseLease server lease s).2.toLeases = s.release lease := by
  unfold releaseLease Leases.release
  split_ifs
  · rcases server.unlock s.unlocks with _ | err
    all_goals rfl
  · rfl

theorem notifyReleaseFault_leases (s : Layer) (fault : ℕ) (cb : Callback) :
    (notifyReleaseFault s fault cb).toLeases = s.toLeases := by
  rcases cb with _ | err | err
  all_goals rfl

theorem bothFailed_leases (s : Layer) (err fault : ℕ) :
    (bothFailed s err fault).2.toLeases = s.toLeases := by
  unfold bothFailed
  split
  all_goals rfl

theorem finish_leases (server : Server) (lease : ℕ) (onReleaseFault : Option Callback)
    (outcome : Except ℕ V) (s : Layer) :
    (finish server lease onReleaseFault outcome s).2.toLeases = (s.lapse lease).release lease := by
  have hrel := releaseLease_leases server lease { s with toLeases := s.lapse lease }
  unfold finish
  rcases hres : releaseLease server lease { s with toLeases := s.lapse lease } with ⟨_ | fault, s'⟩
  all_goals rw [hres] at hrel
  · exact hrel
  refine Eq.trans ?_ hrel
  rcases outcome with err | v
  · rcases onReleaseFault with _ | cb
    · exact bothFailed_leases s' err fault
    · exact notifyReleaseFault_leases s' fault cb
  · rcases onReleaseFault with _ | cb
    · rfl
    · exact notifyReleaseFault_leases s' fault cb

theorem leases_run (server : Server) (p : Prog V) : ∀ {s : Layer}, Good s.toLeases →
    Good (run server p s).2.toLeases ∧ Brackets s.toLeases (run server p s).2.toLeases := by
  induction p with
  | ret v => exact fun h => ⟨h, Brackets.refl _⟩
  | raise err => exact fun h => ⟨h, Brackets.refl _⟩
  | create o k ih =>
    intro s h
    exact ih s.heap.length (s := { s with heap := s.heap ++ [o] }) h
  | acquire k ih =>
    intro s h
    unfold run
    rcases acquireLease_leases server s with ⟨err, hres, hl⟩ | ⟨hres, hl⟩
    all_goals
      rcases heq : acquireLease server s with ⟨res, s'⟩
      rw [heq] at hres hl
      subst hres
    · rw [show s'.toLeases = s.toLeases from hl]
      exact ⟨h, Brackets.refl _⟩
    · have hown : Good (s'.own s.tokens) := by
        rw [show s'.toLeases = s.add from hl]
        exact good_own h
      obtain ⟨hg, hb⟩ := ih s.tokens (s := { s' with toLeases := s'.own s.tokens }) hown
      refine ⟨hg, Brackets.trans ?_ hb⟩
      show Brackets s.toLeases (s'.own s.tokens)
      rw [show s'.toLeases = s.add from hl]
      exact brackets_own _
  | release lease k ih =>
    intro s h
    obtain ⟨hg, hb⟩ := freed_release h lease
    have hl := releaseLease_leases server lease { s with toLeases := s.free lease }
    unfold run
    rcases hres : releaseLease server lease { s with toLeases := s.free lease } with ⟨_ | err, s'⟩
    all_goals
      rw [hres] at hl
      have hl' : s'.toLeases = (s.free lease).release lease := hl
      rw [← hl'] at hg hb
    · exact ⟨(ih hg).1, hb.trans (ih hg).2⟩
    · exact ⟨hg, hb⟩
  | withLease onReleaseFault fn k ihfn ihk =>
    intro s h
    unfold run
    rcases acquireLease_leases server s with ⟨err, hres, hl⟩ | ⟨hres, hl⟩
    all_goals
      rcases heq : acquireLease server s with ⟨res, s'⟩
      rw [heq] at hres hl
      subst hres
    · rw [show s'.toLeases = s.toLeases from hl]
      exact ⟨h, Brackets.refl _⟩
    have hadd : s'.toLeases = s.add := hl
    obtain ⟨hg₁, hb₁⟩ := ihfn s.tokens (s := s') (hadd ▸ good_add h)
    have hfin := finish_leases server s.tokens onReleaseFault (run server (fn s.tokens) s').1
      (run server (fn s.tokens) s').2
    obtain ⟨hg₂, hb₂⟩ := bracket h hg₁ (hadd ▸ hb₁)
    rw [← hfin] at hg₂ hb₂
    rcases hend : finish server s.tokens onReleaseFault (run server (fn s.tokens) s').1
      (run server (fn s.tokens) s').2 with ⟨err | v, s₂⟩
    all_goals
      rw [hend] at hg₂ hb₂
      dsimp only
      rw [hend]
    · exact ⟨hg₂, hb₂⟩
    · exact ⟨(ihk v hg₂).1, hb₂.trans (ihk v hg₂).2⟩
  | attempt body handler k ihbody ihhandler ihk =>
    intro s h
    obtain ⟨hg, hb⟩ := ihbody h
    unfold run
    rcases hres : run server body s with ⟨err | v, s'⟩
    all_goals rw [hres] at hg hb
    · obtain ⟨hg₁, hb₁⟩ := ihhandler err (s := s'.tell err) hg
      dsimp only
      rcases hres' : run server (handler err) (s'.tell err) with ⟨err' | v, s₁⟩
      all_goals rw [hres'] at hg₁ hb₁
      · exact ⟨hg₁, hb.trans hb₁⟩
      · exact ⟨(ihk v hg₁).1, (hb.trans hb₁).trans (ihk v hg₁).2⟩
    · exact ⟨(ihk v hg).1, hb.trans (ihk v hg).2⟩

end Leases

/-! ### Every program -/

/-- The client takes a lease inside of another one, releases the outer one itself, and throws. -/
def earlyRelease : Prog ℕ :=
  .withLease none (fun outer => .withLease (some (.throws (errorObject none)))
    (fun _ => .acquire fun _ => .release outer (.raise 0)) .ret) .ret

/-- The unlock of every second lease fails. -/
def unsteady : Server :=
  ⟨fun _ => none, fun n => if n % 2 = 1 then some (errorObject none) else none⟩

/-- **No error is lost.** Whatever fails, the errors of the client and of the layer can be found,
over causes and members, from an error that client code has got in a handler or in `onReleaseFault`,
or from the one with which the program ends; a callback that fails changes nothing in this. -/
theorem no_fault_lost {server : Server} {heap : Heap} {p : Prog V} {outcome : Except ℕ V}
    {s : Layer} (h : run server p (.init heap) = (outcome, s)) :
    ∀ f ∈ s.raised, (∃ d ∈ s.told, Carries s.heap d f) ∨
      ∃ err, outcome = .error err ∧ Carries s.heap err f := by
  have hinit : Surfaced (Layer.init heap) [] := fun f hf => by cases hf
  have hrun := surfaced_run server p hinit
  rw [h] at hrun
  intro f hf
  obtain ⟨d, hd, hc⟩ := hrun f hf
  rcases List.mem_append.mp hd with hd | hd
  · exact Or.inl ⟨d, hd, hc⟩
  · rcases outcome with err | v
    · exact Or.inr ⟨err, rfl, List.mem_singleton.mp hd ▸ hc⟩
    · cases hd

/-- Two leases, one in the other; `fn` throws a frozen error. -/
def frozenError : Prog ℕ := .withLease none (fun _ => .withLease none (fun _ => .raise 0) .ret) .ret

/-- Both releases fail: an `AggregateError` of the first two errors, with the third as its cause. -/
theorem no_fault_lost_frozenError :
    ∃ s, run ⟨fun _ => none, fun _ => some (errorObject none)⟩ frozenError
        (.init [⟨true, none, false, []⟩]) = (.error 3, s) ∧
      s.raised = [0, 2, 5] ∧ s.heap[3]? = some ⟨true, some 5, true, [0, 2]⟩ ∧
      ∀ f ∈ s.raised, Carries s.heap 3 f := by
  have hr : ∃ s, run ⟨fun _ => none, fun _ => some (errorObject none)⟩ frozenError
      (.init [⟨true, none, false, []⟩]) = (.error 3, s) := ⟨_, rfl⟩
  obtain ⟨s, h⟩ := hr
  have hlost := no_fault_lost h
  have hfacts : s.raised = [0, 2, 5] ∧ s.heap[3]? = some ⟨true, some 5, true, [0, 2]⟩ ∧
      s.told = [] := by
    cases h
    exact ⟨rfl, rfl, rfl⟩
  obtain ⟨hraised, hheap, htold⟩ := hfacts
  refine ⟨s, h, hraised, hheap, fun f hf => ?_⟩
  rcases hlost f hf with ⟨d, hd, -⟩ | ⟨err, herr, hc⟩
  · rw [htold] at hd
    cases hd
  · cases herr
    exact hc

end UmbraDB.Lease.Bracket
