import UmbraDB.Migrate.Runner
import Mathlib.Data.List.Nodup
import Mathlib.Tactic.Common

/-! # Migrations: the recorded names are a prefix of the lineage

`n` migrations are applied: the names in `_migrations` are those of the first `n`, and what has been
committed is the `n` bodies in order. A session commits something only between the grant of the
migration lock and its unlock, and there `n` stands still for everybody else.

* `migrations_prefix` : this holds in every reachable state, with `n` the length of the lineage when
  some call has returned; later states only add the bodies that follow, and a call that gets the
  lock adds all of them, if its statements succeed. -/

namespace UmbraDB.Migrate.Prefix

open UmbraDB.Js.Text UmbraDB.Lib.Runs UmbraDB.Migrate.Runner

variable {Ω : Type}

/-! ### Invariant -/

/-- The names in `_migrations` after the first `n` migrations. -/
def namesAt (L : Lineage Ω) (n : ℕ) : Option (List JsString) :=
  if n = 0 then none else some ((L.all.take n).map (·.name))

/-- The first `n` migrations are applied, and nothing else. -/
structure DbOk (L : Lineage Ω) (cold : Db Ω) (v : Server Ω) (n : ℕ) : Prop where
  le : n ≤ L.all.length
  migrations : v.db.migrations = namesAt L n
  history : v.history = (L.all.take n).flatMap (·.body)
  replay : run Ddl.exec v.history cold = some v.db

/-- The transaction has done nothing that could be committed. -/
def Harmless : TxStatus Ω → Prop
  | .active done => done = []
  | _ => True

def HoldsLock (v : Server Ω) (σ : ℕ) : Prop := ∃ k, v.owner = some (σ, k)

/-- Behind `lockHeld = true`. -/
def critical : Pc Ω → Bool
  | .commitLock | .setPath | .regclass | .select _ _ | .begin _ _ | .body _ _ _ | .rollback
  | .resetPath _ | .unlock _ => true
  | _ => false

def isBody : Pc Ω → Bool
  | .body _ _ _ => true
  | _ => false

/-- The call does not send statements any more. -/
def isOver : Pc Ω → Bool
  | .release _ | .ended _ => true
  | _ => false

def isEnded : Pc Ω → Bool
  | .ended _ => true
  | _ => false

/-- What a call knows about the migrations. -/
def Position (L : Lineage Ω) (n : ℕ) (tx : TxStatus Ω) : Pc Ω → Prop
  | .select m todo => ∃ pre, L.all = pre ++ m :: todo ∧ pre ≠ [] ∧ pre.length ≤ n
  | .begin m todo => ∃ pre, L.all = pre ++ m :: todo ∧ pre.length = n
  | .body m left todo => ∃ pre done, L.all = pre ++ m :: todo ∧ pre.length = n ∧
      done ++ left = m.body ∧ tx = .active done
  | .resetPath ok | .unlock ok | .release ok | .ended ok => ok = true → n = L.all.length
  | _ => True

structure CallOk (L : Lineage Ω) (n : ℕ) (v : Server Ω) (x : Call Ω) : Prop where
  position : Position L n (v.tx x.session) x.pc
  harmless : isEnded x.pc = false → isBody x.pc = false → Harmless (v.tx x.session)
  locked : critical x.pc = true → x.lockHeld = true
  held : x.lockHeld = true → isOver x.pc = false → HoldsLock v x.session

structure Inv (L : Lineage Ω) (cold : Db Ω) (s : State Ω) (n : ℕ) : Prop where
  db : DbOk L cold s.server n
  calls : ∀ c x, s.calls c = some x → CallOk L n s.server x
  user : ∀ c x, s.calls c = some x → isEnded x.pc = false → s.user x.session = some c
  unused : ∀ σ, s.user σ = none → Harmless (s.server.tx σ)

theorem inv_init (L : Lineage Ω) {cold : Db Ω} (h : cold.migrations = none) :
    Inv L cold (.init cold) 0 where
  db := ⟨Nat.zero_le _, h, rfl, rfl⟩
  calls _ _ h := by cases h
  user _ _ h := by cases h
  unused _ _ := trivial

/-! ### The bodies of the migrations -/

/-- The statements of a migration other than `000_schema` leave `_migrations` as it is. -/
theorem run_other {fs : List (Ω → Option Ω)} : ∀ {db db' : Db Ω},
    run Ddl.exec (fs.map .other) db = some db' → db'.migrations = db.migrations := by
  induction fs with
  | nil =>
    intro db db' h
    cases h
    rfl
  | cons f fs ih =>
    intro db db' h
    rw [List.map_cons, run_cons] at h
    obtain ⟨db₁, h₁, h⟩ := Option.bind_eq_some_iff.mp h
    obtain ⟨o, -, rfl⟩ := Option.map_eq_some_iff.mp h₁
    have hsame := ih h
    exact hsame

/-- **The record.** The body of the next migration adds its name. -/
theorem run_body (L : Lineage Ω) {pre todo : List (Migration Ω)} {m : Migration Ω}
    (hall : L.all = pre ++ m :: todo) {db db' : Db Ω}
    (hdb : db.migrations = namesAt L pre.length) (h : run Ddl.exec m.body db = some db') :
    db'.migrations = namesAt L (pre.length + 1) := by
  have htake : L.all.take (pre.length + 1) = pre ++ [m] := by
    rw [hall, List.take_append, List.take_of_length_le (by omega)]
    simp
  rw [namesAt, if_neg (by omega), htake, List.map_append]
  rw [Migration.body, run_snoc] at h
  obtain ⟨db₁, hup, hrec⟩ := h
  have hnames : db₁.migrations = some (pre.map (·.name)) := by
    rcases pre with _ | ⟨m₀, pre⟩
    · obtain ⟨rfl, -⟩ := List.cons.inj hall
      simp only [migration000, run_cons, Ddl.exec, Option.bind_some] at hup
      split_ifs at hup
      · cases hup
        rfl
      · cases hup
    · have hm : m ∈ L.tail := by
        have htail := (List.cons.inj hall).2
        rw [htail]
        simp
      obtain ⟨r, -, rfl⟩ := List.mem_map.mp hm
      rw [run_other hup, hdb, namesAt, if_neg (by simp), hall, List.take_left]
  rw [Ddl.exec, hnames] at hrec
  dsimp only at hrec
  split_ifs at hrec
  cases hrec
  rfl

theorem nodup_names (L : Lineage Ω) : (L.all.map (·.name)).Nodup := by
  have h : L.all.map (·.name) = ascii "000_schema" :: L.rest.map Prod.fst := by
    simp [Lineage.all, Lineage.tail, migration000]
  rw [h]
  exact L.nodup

/-- A migration is recorded if and only if it is one of the first `n`. -/
theorem mem_names (L : Lineage Ω) {pre todo : List (Migration Ω)} {m : Migration Ω}
    (hall : L.all = pre ++ m :: todo) (n : ℕ) :
    m.name ∈ (L.all.take n).map (·.name) ↔ pre.length < n := by
  have hnd := nodup_names L
  rw [hall, List.map_append, List.map_cons] at hnd
  constructor
  · intro h
    by_contra hle
    rw [hall, List.take_append, show n - pre.length = 0 by omega, List.take_zero,
      List.append_nil] at h
    have hpre : m.name ∈ pre.map (·.name) := List.map_subset _ (List.take_subset n pre) h
    exact (List.nodup_append.mp hnd).2.2 _ hpre _ (List.mem_cons_self) rfl
  · intro h
    rw [hall, List.take_append, List.take_of_length_le (by omega)]
    obtain ⟨d, hd⟩ : ∃ d, n - pre.length = d + 1 := ⟨n - pre.length - 1, by omega⟩
    rw [hd]
    simp

/-- The commit of the body of the next migration. -/
theorem DbOk.commit {L : Lineage Ω} {cold : Db Ω} {v v' : Server Ω} {n : ℕ}
    (hv : DbOk L cold v n) {pre todo : List (Migration Ω)} {m : Migration Ω}
    (hall : L.all = pre ++ m :: todo) (hn : pre.length = n) {db : Db Ω}
    (h : run Ddl.exec m.body v.db = some db) (hdb : v'.db = db)
    (hh : v'.history = v.history ++ m.body) : DbOk L cold v' (n + 1) := by
  subst hn
  refine ⟨?_, ?_, ?_, ?_⟩
  · rw [hall, List.length_append, List.length_cons]
    omega
  · rw [hdb]
    exact run_body L hall hv.migrations h
  · rw [hh, hv.history, hall, List.take_left, List.take_append,
      List.take_of_length_le (by omega)]
    simp
  · rw [hh, run_append, hv.replay, Option.bind_some, h, hdb]

/-! ### Statements -/

/-- What a statement on the session `σ` does to the others. -/
structure Frame (σ : ℕ) (v v' : Server Ω) : Prop where
  tx : ∀ τ, τ ≠ σ → v'.tx τ = v.tx τ
  lock : ∀ τ, τ ≠ σ → HoldsLock v τ → HoldsLock v' τ

theorem Frame.setTx {σ : ℕ} {v v' : Server Ω} (h : Frame σ v v') (tx : TxStatus Ω) :
    Frame σ v (v'.setTx σ tx) :=
  ⟨fun τ hτ => (Function.update_of_ne hτ _ _).trans (h.tx τ hτ), h.lock⟩

theorem Frame.refl (σ : ℕ) (v : Server Ω) : Frame σ v v := ⟨fun _ _ => rfl, fun _ _ h => h⟩

theorem Frame.granted {σ : ℕ} {v : Server Ω} {owner : ℕ × ℕ}
    (h : Server.lock v.owner σ = some owner) : Frame σ v { v with owner := some owner } := by
  refine ⟨fun _ _ => rfl, fun τ hτ ⟨k, hk⟩ => ?_⟩
  unfold Server.lock at h
  rw [hk] at h
  dsimp only at h
  rw [if_neg hτ] at h
  cases h

theorem Frame.unlocked (σ : ℕ) (v : Server Ω) :
    Frame σ v { v with owner := Server.unlock v.owner σ } := by
  refine ⟨fun _ _ => rfl, fun τ hτ ⟨k, hk⟩ => ⟨k, ?_⟩⟩
  show Server.unlock v.owner σ = some (τ, k)
  unfold Server.unlock
  rw [hk]
  exact if_neg hτ

theorem Frame.abort {σ : ℕ} {v v' : Server Ω} (h : Frame σ v v') (ended : Bool) :
    Frame σ v (v'.abort σ ended) := by
  unfold Server.abort
  split
  · exact h.setTx _
  · exact h

theorem Frame.close (σ : ℕ) (v : Server Ω) : Frame σ v (v.close σ) := by
  refine ⟨fun τ hτ => Function.update_of_ne hτ _ _, fun τ hτ ⟨k, hk⟩ => ⟨k, ?_⟩⟩
  unfold Server.close
  dsimp only
  rw [hk]
  exact if_neg hτ

/-- The lock goes to the session that asks for it. -/
theorem holdsLock_granted {σ : ℕ} {v : Server Ω} {owner : ℕ × ℕ}
    (h : Server.lock v.owner σ = some owner) :
    HoldsLock { v with owner := some owner } σ := by
  unfold Server.lock at h
  split at h
  · cases h
    exact ⟨1, rfl⟩
  · split_ifs at h
    cases h
    exact ⟨_, rfl⟩

/-- What a statement does on a session whose transaction is harmless, and its answer. -/
inductive Effect (σ : ℕ) (v : Server Ω) : Sql Ω → Server Ω → Bool → Prop
  | begin : Effect σ v .begin (v.setTx σ (.active [])) true
  | commit {tx : TxStatus Ω} (h : Harmless tx) : Effect σ v .commit (v.setTx σ tx) true
  | rollback {tx : TxStatus Ω} (h : Harmless tx) : Effect σ v .rollback (v.setTx σ tx) true
  | setLockTimeout : Effect σ v .setLockTimeout v true
  | setSearchPath : Effect σ v .setSearchPath v true
  | resetSearchPath : Effect σ v .resetSearchPath v true
  | lock {owner : ℕ × ℕ} (h : Server.lock v.owner σ = some owner) :
      Effect σ v .lock { v with owner := some owner } true
  | unlock : Effect σ v .unlock { v with owner := Server.unlock v.owner σ } true
  | regclass : Effect σ v .regclass v v.db.migrations.isSome
  | applied {name : JsString} {names : List JsString} (h : v.db.migrations = some names) :
      Effect σ v (.applied name) v (decide (name ∈ names))

theorem setTx_self {v : Server Ω} {σ : ℕ} {tx : TxStatus Ω} (h : v.tx σ = tx) :
    v.setTx σ tx = v := by
  subst h
  unfold Server.setTx
  rw [Function.update_eq_self]

theorem view_harmless {v : Server Ω} {σ : ℕ} (ht : Harmless (v.tx σ)) :
    v.view σ = some v.db := by
  unfold Server.view
  rcases htx : v.tx σ with _ | done | _
  · rfl
  · rw [htx] at ht
    rw [show done = [] from ht]
    rfl
  · rfl

/-- A session whose transaction stays as it is. -/
theorem effect_self {σ : ℕ} {v : Server Ω} (ht : Harmless (v.tx σ)) :
    Effect σ v .commit v true ∧ Effect σ v .rollback v true := by
  have hc : Effect σ v .commit (v.setTx σ (v.tx σ)) true := .commit ht
  have hr : Effect σ v .rollback (v.setTx σ (v.tx σ)) true := .rollback ht
  rw [setTx_self rfl] at hc hr
  exact ⟨hc, hr⟩

theorem effect_of_serve {σ : ℕ} {v v' : Server Ω} {q : Sql Ω} {answer : Bool}
    (ht : Harmless (v.tx σ)) (hq : ∀ d, q ≠ .ddl d) (h : v.serve σ q = some (v', answer)) :
    Effect σ v q v' answer := by
  have hview := view_harmless ht
  have hdone : ∀ done, v.tx σ = .active done → done = [] := by
    intro done htx
    rw [htx] at ht
    exact ht
  rcases q with _ | _ | _ | _ | _ | _ | _ | _ | _ | name | d
  all_goals
    rcases htx : v.tx σ with _ | done | _
    all_goals
      simp only [Server.serve, htx, hview, reduceCtorEq, Option.bind_eq_bind, Option.bind_some,
        Option.bind_eq_some_iff, Option.pure_def, Option.some.injEq, Prod.mk.injEq] at h
  case begin.idle => obtain ⟨rfl, rfl⟩ := h; exact .begin
  case begin.active =>
    obtain ⟨rfl, rfl⟩ := h
    have heffect : Effect σ v .begin (v.setTx σ (.active [])) true := .begin
    rwa [setTx_self (htx.trans (congrArg _ (hdone done htx)))] at heffect
  case commit.idle => obtain ⟨rfl, rfl⟩ := h; exact (effect_self ht).1
  case commit.active =>
    obtain ⟨db, hdb, rfl, rfl⟩ := h
    rw [hdone done htx] at hdb ⊢
    cases hdb
    rw [List.append_nil]
    exact .commit trivial
  case commit.failed | rollback.active | rollback.failed =>
    obtain ⟨rfl, rfl⟩ := h
    constructor
    trivial
  case rollback.idle => obtain ⟨rfl, rfl⟩ := h; exact (effect_self ht).2
  case lock.idle | lock.active =>
    obtain ⟨owner, howner, rfl, rfl⟩ := h
    exact .lock howner
  case applied.idle | applied.active =>
    obtain ⟨names, hnames, rfl, rfl⟩ := h
    exact .applied hnames
  case ddl.idle | ddl.active => exact absurd rfl (hq d)
  all_goals
    obtain ⟨rfl, rfl⟩ := h
    constructor

theorem Effect.frame {σ : ℕ} {v v' : Server Ω} {q : Sql Ω} {answer : Bool}
    (h : Effect σ v q v' answer) : Frame σ v v' := by
  rcases h with _ | _ | _ | _ | _ | _ | hl | _ | _ | _
  · exact (Frame.refl σ v).setTx _
  · exact (Frame.refl σ v).setTx _
  · exact (Frame.refl σ v).setTx _
  · exact Frame.refl σ v
  · exact Frame.refl σ v
  · exact Frame.refl σ v
  · exact Frame.granted hl
  · exact Frame.unlocked σ v
  · exact Frame.refl σ v
  · exact Frame.refl σ v

/-- Nothing is committed, and the transaction stays harmless. -/
structure Quiet (σ : ℕ) (v v' : Server Ω) : Prop where
  frame : Frame σ v v'
  db : v'.db = v.db
  history : v'.history = v.history
  harmless : Harmless (v'.tx σ)

theorem Quiet.dbOk {σ : ℕ} {v v' : Server Ω} (h : Quiet σ v v') {L : Lineage Ω} {cold : Db Ω}
    {n : ℕ} (hv : DbOk L cold v n) : DbOk L cold v' n := by
  obtain ⟨hle, hm, hh, hr⟩ := hv
  exact ⟨hle, by rw [h.db, hm], by rw [h.history, hh], by rw [h.history, h.db, hr]⟩

theorem harmless_setTx {v : Server Ω} {σ : ℕ} {tx : TxStatus Ω} (h : Harmless tx) :
    Harmless ((v.setTx σ tx).tx σ) := by
  have hself : (v.setTx σ tx).tx σ = tx := Function.update_self _ _ _
  rwa [hself]

theorem Effect.quiet {σ : ℕ} {v v' : Server Ω} {q : Sql Ω} {answer : Bool}
    (h : Effect σ v q v' answer) (ht : Harmless (v.tx σ)) : Quiet σ v v' := by
  have hf := h.frame
  rcases h with _ | htx | htx | _ | _ | _ | hl | _ | _ | _
  · exact ⟨hf, rfl, rfl, harmless_setTx rfl⟩
  · exact ⟨hf, rfl, rfl, harmless_setTx htx⟩
  · exact ⟨hf, rfl, rfl, harmless_setTx htx⟩
  all_goals exact ⟨hf, rfl, rfl, ht⟩

/-- No other statement takes the lock away. -/
theorem Effect.lock_kept {σ : ℕ} {v v' : Server Ω} {q : Sql Ω} {answer : Bool}
    (h : Effect σ v q v' answer) (hq : q ≠ .unlock) (hl : HoldsLock v σ) : HoldsLock v' σ := by
  rcases h with _ | _ | _ | _ | _ | _ | hg | _ | _ | _
  case lock => exact holdsLock_granted hg
  case unlock => exact absurd rfl hq
  all_goals exact hl

theorem abort_quiet {σ : ℕ} {v v' : Server Ω} (hf : Frame σ v v') (hdb : v'.db = v.db)
    (hh : v'.history = v.history) (ended : Bool) : Quiet σ v (v'.abort σ ended) := by
  refine ⟨hf.abort ended, ?_, ?_, ?_⟩
  · unfold Server.abort
    split
    · exact hdb
    · exact hdb
  · unfold Server.abort
    split
    · exact hh
    · exact hh
  · unfold Server.abort
    split
    · refine harmless_setTx ?_
      split_ifs
      · trivial
      · trivial
    · rename_i hna
      rcases htx : v'.tx σ with _ | done | _
      · trivial
      · exact absurd htx (hna done)
      · trivial

/-- **An error** commits nothing and leaves nothing to commit. -/
theorem error_quiet (σ : ℕ) (v : Server Ω) (q : Sql Ω) (late : Bool) :
    Quiet σ v (v.error σ q late) := by
  have hq := fun ended => abort_quiet (Frame.refl σ v) rfl rfl ended
  unfold Server.error
  split
  · split
    · exact hq false
    · exact hq false
    · rename_i hl _
      exact abort_quiet (Frame.granted hl) rfl rfl false
  · split
    · rename_i htx
      exact ⟨Frame.refl σ v, rfl, rfl, by rw [htx]; trivial⟩
    · exact abort_quiet (Frame.unlocked σ v) rfl rfl false
  · exact hq true
  · exact hq false

theorem holdsLock_abort {v : Server Ω} {σ : ℕ} (ended : Bool) (h : HoldsLock v σ) :
    HoldsLock (v.abort σ ended) σ := by
  unfold Server.abort
  split
  · exact h
  · exact h

theorem holdsLock_error {v : Server Ω} {σ : ℕ} {q : Sql Ω} (hq : q ≠ .unlock) (late : Bool)
    (h : HoldsLock v σ) : HoldsLock (v.error σ q late) σ := by
  unfold Server.error
  split
  · split
    · exact holdsLock_abort _ h
    · exact holdsLock_abort _ h
    · rename_i hl _
      exact holdsLock_abort _ (holdsLock_granted hl)
  · exact absurd rfl hq
  · exact holdsLock_abort _ h
  · exact holdsLock_abort _ h

theorem close_quiet (σ : ℕ) (v : Server Ω) : Quiet σ v (v.close σ) := by
  have hself : (v.close σ).tx σ = .idle := Function.update_self _ _ _
  exact ⟨Frame.close σ v, rfl, rfl, by rw [hself]; trivial⟩

/-! ### Steps -/

/-- A session has applied no migration, or the next one, and then it holds the lock. -/
def Grown (L : Lineage Ω) (v : Server Ω) (σ n n' : ℕ) : Prop :=
  n' = n ∨ n < L.all.length ∧ n' = n + 1 ∧ HoldsLock v σ

/-- **Another session's step.** A call keeps what it knows: where it counts on `n`, it has the lock
itself. -/
theorem CallOk.other {L : Lineage Ω} {n n' σ : ℕ} {v v' : Server Ω} {x : Call Ω}
    (hx : CallOk L n v x) (hf : Frame σ v v') (hn : Grown L v σ n n')
    (hne : isEnded x.pc = false → x.session ≠ σ) : CallOk L n' v' x := by
  obtain ⟨hpos, hharm, hlocked, hheld⟩ := hx
  have hheld' : x.lockHeld = true → isOver x.pc = false → HoldsLock v' x.session := by
    intro hl ho
    refine hf.lock _ (hne ?_) (hheld hl ho)
    rcases hpc : x.pc
    all_goals
      rw [hpc] at ho
      first | rfl | cases ho
  refine ⟨?_, fun he hb => ?_, hlocked, hheld'⟩
  · by_cases hend : isEnded x.pc = true
    · rcases hpc : x.pc
      case ended ok =>
        rw [hpc] at hpos
        intro hok
        rcases hn with rfl | ⟨hlt, -, -⟩
        · exact hpos hok
        · have := hpos hok
          omega
      all_goals
        rw [hpc] at hend
        cases hend
    · rw [Bool.not_eq_true] at hend
      rw [hf.tx _ (hne hend)]
      rcases hn with rfl | ⟨hlt, rfl, ho⟩
      · exact hpos
      · -- the other session has the lock, so this call does not
        have hnot : critical x.pc = true → isOver x.pc = false → False := by
          intro hc hover
          obtain ⟨k, hk⟩ := hheld (hlocked hc) hover
          obtain ⟨k', hk'⟩ := ho
          cases hk.symm.trans hk'
          exact hne hend rfl
        rcases hpc : x.pc
        case release ok =>
          rw [hpc] at hpos
          intro hok
          have := hpos hok
          omega
        all_goals
          first
          | trivial
          | exact (hnot (by rw [hpc]; rfl) (by rw [hpc]; rfl)).elim
          | (rw [hpc] at hend; cases hend)
  · rw [hf.tx _ (hne he)]
    exact hharm he hb

theorem update_cases {α : Type} {f : ℕ → Option α} {c c' : ℕ} {a z : α}
    (h : Function.update f c (some a) c' = some z) : c' = c ∧ z = a ∨ c' ≠ c ∧ f c' = some z := by
  by_cases hcc : c' = c
  · subst hcc
    rw [Function.update_self] at h
    cases h
    exact Or.inl ⟨rfl, rfl⟩
  · rw [Function.update_of_ne hcc] at h
    exact Or.inr ⟨hcc, h⟩

/-- A call goes on, on its own session. -/
theorem Inv.setCall {L : Lineage Ω} {cold : Db Ω} {s : State Ω} {n n' : ℕ}
    (hs : Inv L cold s n) {c : ℕ} {x y : Call Ω} (hx : s.calls c = some x)
    (hlive : isEnded x.pc = false) {v : Server Ω} (hf : Frame x.session s.server v)
    (hdb : DbOk L cold v n') (hn : Grown L s.server x.session n n')
    (hy : y.session = x.session) (hok : CallOk L n' v y) : Inv L cold (s.setCall v c y) n' := by
  have huser := hs.user c x hx hlive
  refine ⟨hdb, fun c' z hz => ?_, fun c' z hz hend => ?_, fun σ hσ => ?_⟩
  · rcases update_cases hz with ⟨rfl, rfl⟩ | ⟨hcc, hz⟩
    · exact hok
    · refine (hs.calls c' z hz).other hf hn fun hend heq => hcc ?_
      have hzu := hs.user c' z hz hend
      rw [heq, huser] at hzu
      cases hzu
      rfl
  · rcases update_cases hz with ⟨rfl, rfl⟩ | ⟨hcc, hz⟩
    · rw [hy]
      exact huser
    · exact hs.user c' z hz hend
  · have hne : σ ≠ x.session := by
      rintro rfl
      rw [show s.user x.session = none from hσ] at huser
      cases huser
    show Harmless (v.tx σ)
    rw [hf.tx σ hne]
    exact hs.unused σ hσ

/-- A call ends, and gives its session back. -/
theorem Inv.finish {L : Lineage Ω} {cold : Db Ω} {s : State Ω} {n : ℕ} (hs : Inv L cold s n)
    {c : ℕ} {x : Call Ω} (hx : s.calls c = some x) (hlive : isEnded x.pc = false) {v : Server Ω}
    (hq : Quiet x.session s.server v) {ok : Bool} (hok : ok = true → n = L.all.length) :
    Inv L cold (s.finish v c x ok) n := by
  have huser := hs.user c x hx hlive
  refine ⟨hq.dbOk hs.db, fun c' z hz => ?_, fun c' z hz hend => ?_, fun σ hσ => ?_⟩
  · rcases update_cases hz with ⟨rfl, rfl⟩ | ⟨hcc, hz⟩
    · exact ⟨hok, fun h _ => (by cases h), fun h => (by cases h), fun _ h => (by cases h)⟩
    · refine (hs.calls c' z hz).other hq.frame (Or.inl rfl) fun hend heq => hcc ?_
      have hzu := hs.user c' z hz hend
      rw [heq, huser] at hzu
      cases hzu
      rfl
  · rcases update_cases hz with ⟨rfl, rfl⟩ | ⟨hcc, hz⟩
    · cases hend
    · have hzu := hs.user c' z hz hend
      have hne : z.session ≠ x.session := by
        intro heq
        rw [heq, huser] at hzu
        cases hzu
        exact hcc rfl
      exact (Function.update_of_ne hne _ _).trans hzu
  · by_cases hσσ : σ = x.session
    · subst hσσ
      exact hq.harmless
    · show Harmless (v.tx σ)
      rw [hq.frame.tx σ hσσ]
      exact hs.unused σ ((Function.update_of_ne hσσ _ _).symm.trans hσ)

theorem position_loop {L : Lineage Ω} {n : ℕ} (hn : n ≤ L.all.length) (tx : TxStatus Ω)
    {pre todo : List (Migration Ω)} (hall : L.all = pre ++ todo) (hpre : pre ≠ [])
    (hle : pre.length ≤ n) : Position L n tx (Pc.loop todo) := by
  rcases todo with _ | ⟨m, todo⟩
  · intro _
    rw [hall, List.append_nil] at hn ⊢
    omega
  · exact ⟨pre, hall, hpre, hle⟩

theorem position_cleanup {L : Lineage Ω} {n : ℕ} (tx : TxStatus Ω) (lockHeld : Bool) {ok : Bool}
    (h : ok = true → n = L.all.length) : Position L n tx (Pc.cleanup lockHeld ok) := by
  unfold Pc.cleanup
  split_ifs
  · exact h
  · exact h

/-- **The step of a call outside the transactions of the migrations.** -/
theorem Position.exec {L : Lineage Ω} {cold : Db Ω} {n : ℕ} {v v' : Server Ω} {σ : ℕ}
    (hdb : DbOk L cold v n) {pc : Pc Ω} (hpos : Position L n (v.tx σ) pc)
    (hb : isBody pc = false) {q : Sql Ω} (hsql : pc.sql = some q) {answer : Bool}
    (he : Effect σ v q v' answer) (lockHeld : Bool) :
    Position L n (v'.tx σ) (pc.next L lockHeld answer) := by
  rcases pc with _ | _ | _ | _ | _ | _ | _ | ⟨m, todo⟩ | ⟨m, todo⟩ | ⟨m, left, todo⟩ | _ | ok | ok |
    ok | ok
  case rollbackLock => exact position_cleanup _ _ (fun h => by cases h)
  case regclass =>
    cases hsql
    cases he
    rw [hdb.migrations]
    by_cases hn : n = 0
    · subst hn
      exact ⟨[], rfl, rfl⟩
    · have hall : L.all = [migration000] ++ L.tail := rfl
      rw [namesAt, if_neg hn]
      exact position_loop hdb.le _ hall (by simp) (Nat.one_le_iff_ne_zero.mpr hn)
  case select =>
    cases hsql
    obtain ⟨pre, hall, hne, hle⟩ := hpos
    obtain _ | _ | _ | _ | _ | _ | _ | _ | _ | hnames := he
    rw [hdb.migrations] at hnames
    have hpos : 0 < pre.length := List.length_pos_iff.mpr hne
    rw [namesAt, if_neg (by omega)] at hnames
    cases hnames
    have hmem := mem_names L hall n
    by_cases hlt : pre.length < n
    · rw [decide_eq_true (hmem.mpr hlt)]
      have hlen : (pre ++ [m]).length = pre.length + 1 := by simp
      have hall' : L.all = (pre ++ [m]) ++ todo := by rw [hall]; simp
      exact position_loop hdb.le _ hall' (by simp) (by omega)
    · rw [decide_eq_false (fun h => hlt (hmem.mp h))]
      exact ⟨pre, hall, by omega⟩
  case begin =>
    cases hsql
    obtain ⟨pre, hall, hlen⟩ := hpos
    cases he
    exact ⟨pre, [], hall, hlen, rfl, Function.update_self _ _ _⟩
  case body => cases hb
  case rollback => exact fun h => by cases h
  case resetPath => exact position_cleanup _ _ hpos
  case unlock => exact hpos
  case release => cases hsql
  case ended => cases hsql
  all_goals trivial

/-- The lock flag of a call that has one more answer. -/
theorem critical_next (L : Lineage Ω) {pc : Pc Ω} (hb : isBody pc = false) {lockHeld : Bool}
    (hl : critical pc = true → lockHeld = true) (answer : Bool)
    (h : critical (pc.next L lockHeld answer) = true) :
    (lockHeld || pc.setsLockHeld) = true := by
  have hcleanup : ∀ ok, critical (Pc.cleanup (Ω := Ω) lockHeld ok) = true → lockHeld = true := by
    intro ok h
    unfold Pc.cleanup at h
    split_ifs at h with hlock
    · exact hlock
    · cases h
  rcases pc
  case beginLock => cases h
  case setTimeout => cases h
  case lock => rw [Pc.setsLockHeld, Bool.or_true]
  case rollbackLock =>
    rw [hcleanup _ h]
    rfl
  case body => cases hb
  case release => cases h
  case ended => cases h
  all_goals
    rw [hl rfl]
    rfl

theorem live_of_sql {pc : Pc Ω} {q : Sql Ω} (h : pc.sql = some q) :
    isEnded pc = false ∧ isOver pc = false := by
  rcases pc
  case release => cases h
  case ended => cases h
  all_goals exact ⟨rfl, rfl⟩

theorem not_over_of_next {L : Lineage Ω} {pc : Pc Ω} {q : Sql Ω} (hsql : pc.sql = some q)
    {lockHeld answer : Bool} (h : isOver (pc.next L lockHeld answer) = false) : q ≠ .unlock := by
  rintro rfl
  rcases pc
  case unlock => cases h
  case body m left todo =>
    rcases left with _ | ⟨d, left⟩
    · cases hsql
    · cases hsql
  all_goals cases hsql

theorem CallOk.exec {L : Lineage Ω} {cold : Db Ω} {n : ℕ} {v v' : Server Ω} {x : Call Ω}
    (hdb : DbOk L cold v n) (hx : CallOk L n v x) (hb : isBody x.pc = false) {q : Sql Ω}
    (hsql : x.pc.sql = some q) {answer : Bool} (he : Effect x.session v q v' answer) :
    CallOk L n v' { x with pc := x.pc.next L x.lockHeld answer,
                           lockHeld := x.lockHeld || x.pc.setsLockHeld } := by
  obtain ⟨hpos, hharm, hlocked, hheld⟩ := hx
  obtain ⟨hlive, hover⟩ := live_of_sql hsql
  refine ⟨hpos.exec hdb hb hsql he _, fun _ _ => (he.quiet (hharm hlive hb)).harmless,
    critical_next L hb hlocked answer, fun hl ho => ?_⟩
  rcases Bool.or_eq_true_iff.mp hl with hl | hl
  · exact he.lock_kept (not_over_of_next hsql ho) (hheld hl hover)
  · rcases hpc : x.pc
    case lock =>
      rw [hpc] at hsql
      cases hsql
      obtain _ | _ | _ | _ | _ | _ | hg | _ | _ | _ := he
      exact holdsLock_granted hg
    all_goals
      rw [hpc] at hl
      cases hl

/-- The step of a call after an error. -/
theorem CallOk.fail {L : Lineage Ω} {n : ℕ} {v : Server Ω} {x : Call Ω} (hx : CallOk L n v x)
    {q : Sql Ω} (hsql : x.pc.sql = some q) (late : Bool) :
    CallOk L n (v.error x.session q late) { x with pc := x.pc.thrown x.lockHeld } := by
  obtain ⟨-, -, hlocked, hheld⟩ := hx
  obtain ⟨-, hover⟩ := live_of_sql hsql
  refine ⟨?_, fun _ _ => (error_quiet x.session v q late).harmless, fun hc => ?_, fun hl ho => ?_⟩
  · rcases hpc : x.pc
    case beginLock | rollbackLock | setPath | resetPath =>
      exact position_cleanup _ _ (fun h => by cases h)
    case regclass | select | begin | rollback | unlock => exact fun h => by cases h
    case release | ended =>
      rw [hpc] at hsql
      cases hsql
    all_goals trivial
  · rcases hpc : x.pc
    case beginLock | rollbackLock | setPath | resetPath =>
      rw [hpc] at hc
      unfold Pc.thrown Pc.cleanup at hc
      split_ifs at hc with hlock
      · exact hlock
      · cases hc
    all_goals
      rw [hpc] at hc hlocked
      first
      | exact hlocked rfl
      | cases hc
  · refine holdsLock_error ?_ late (hheld hl hover)
    rintro rfl
    rcases hpc : x.pc
    case unlock =>
      rw [hpc] at ho
      cases ho
    case body m left todo =>
      rw [hpc] at hsql
      rcases left with _ | ⟨d, left⟩
      · cases hsql
      · cases hsql
    all_goals
      rw [hpc] at hsql
      cases hsql

/-- A statement of a migration. -/
theorem serve_ddl {v v' : Server Ω} {σ : ℕ} {done : List (Ddl Ω)} {d : Ddl Ω} {answer : Bool}
    (htx : v.tx σ = .active done) (h : v.serve σ (.ddl d) = some (v', answer)) :
    v' = v.setTx σ (.active (done ++ [d])) := by
  simp only [Server.serve, htx, Option.bind_eq_bind, Option.bind_eq_some_iff, Option.pure_def,
    Option.some.injEq, Prod.mk.injEq] at h
  obtain ⟨-, -, -, -, hv, -⟩ := h
  exact hv.symm

/-- The commit of a migration. -/
theorem serve_commit {v v' : Server Ω} {σ : ℕ} {done : List (Ddl Ω)} {answer : Bool}
    (htx : v.tx σ = .active done) (h : v.serve σ .commit = some (v', answer)) :
    ∃ db, run Ddl.exec done v.db = some db ∧
      v' = { v with db := db, history := v.history ++ done }.setTx σ .idle := by
  simp only [Server.serve, htx, Option.bind_eq_bind, Option.bind_eq_some_iff, Option.pure_def,
    Option.some.injEq, Prod.mk.injEq] at h
  obtain ⟨db, hdb, hv, -⟩ := h
  exact ⟨db, hdb, hv.symm⟩

/-- **The step of a call in the transaction of a migration.** -/
theorem Inv.body {L : Lineage Ω} {cold : Db Ω} {s : State Ω} {n : ℕ} (hs : Inv L cold s n) {c : ℕ}
    {x : Call Ω} (hx : s.calls c = some x) {m : Migration Ω} {left : List (Ddl Ω)}
    {todo : List (Migration Ω)} (hpc : x.pc = .body m left todo) {q : Sql Ω}
    (hsql : x.pc.sql = some q) {v : Server Ω} {answer : Bool}
    (h : s.server.serve x.session q = some (v, answer)) :
    ∃ n', n ≤ n' ∧ Inv L cold (s.setCall v c { x with
      pc := x.pc.next L x.lockHeld answer, lockHeld := x.lockHeld || x.pc.setsLockHeld }) n' := by
  obtain ⟨hpos, -, hlocked, hheld⟩ := hs.calls c x hx
  obtain ⟨hlive, hover⟩ := live_of_sql hsql
  rw [hpc] at hpos hlocked hsql
  have hlock : x.lockHeld = true := hlocked rfl
  have hholds : HoldsLock s.server x.session := hheld hlock hover
  obtain ⟨pre, done, hall, hlen, hbody, htx⟩ := hpos
  rcases left with _ | ⟨d, left⟩
  · cases hsql
    rw [List.append_nil] at hbody
    subst hbody
    obtain ⟨db, hdb, rfl⟩ := serve_commit htx h
    have hdbok : DbOk L cold ({ s.server with
        db := db, history := s.server.history ++ m.body }.setTx x.session .idle) (n + 1) :=
      hs.db.commit hall hlen hdb rfl rfl
    refine ⟨n + 1, Nat.le_succ n, hs.setCall hx hlive ⟨fun τ hτ => Function.update_of_ne hτ _ _,
      fun _ _ h => h⟩ hdbok (Or.inr ⟨?_, rfl, hholds⟩) rfl ⟨?_, fun _ _ => harmless_setTx trivial,
      fun _ => by rw [hlock]; rfl, fun _ _ => hholds⟩⟩
    · have := hdbok.le
      omega
    · rw [hpc]
      have hlen' : (pre ++ [m]).length = n + 1 := by simp [hlen]
      have hall' : L.all = (pre ++ [m]) ++ todo := by rw [hall]; simp
      exact position_loop hdbok.le _ hall' (by simp) (by omega)
  · cases hsql
    obtain rfl := serve_ddl htx h
    refine ⟨n, Nat.le_refl n, hs.setCall hx hlive ((Frame.refl _ _).setTx _) ?_ (Or.inl rfl) rfl
      ⟨?_, fun _ hb => ?_, fun _ => by rw [hlock]; rfl, fun _ _ => hholds⟩⟩
    · obtain ⟨hle, hm, hh, hr⟩ := hs.db
      exact ⟨hle, hm, hh, hr⟩
    · rw [hpc]
      exact ⟨pre, done ++ [d], hall, hlen, by rw [← hbody]; simp, Function.update_self _ _ _⟩
    · rw [hpc] at hb
      cases hb

/-- **The step.** -/
theorem Inv.step {L : Lineage Ω} {cold : Db Ω} {s s' : State Ω} {n : ℕ} (hs : Inv L cold s n)
    {ev : Ev} (h : step L s ev = some s') : ∃ n', n ≤ n' ∧ Inv L cold s' n' := by
  rcases ev with ⟨c, σ⟩ | c | ⟨c, late⟩ | c | c | σ
  case exec =>
    simp only [Runner.step, Option.bind_eq_bind, Option.bind_eq_some_iff, Option.pure_def,
      Option.some.injEq] at h
    obtain ⟨x, hx, q, hsql, ⟨v, answer⟩, hserve, rfl⟩ := h
    obtain ⟨hlive, -⟩ := live_of_sql hsql
    have hok := hs.calls c x hx
    by_cases hb : isBody x.pc = false
    · have hne : ∀ d, q ≠ .ddl d := by
        rintro d rfl
        rcases hpc : x.pc
        all_goals
          rw [hpc] at hsql hb
          first
          | cases hsql
          | cases hb
      have he := effect_of_serve (hok.harmless hlive hb) hne hserve
      have hq := he.quiet (hok.harmless hlive hb)
      exact ⟨n, Nat.le_refl n, hs.setCall hx hlive hq.frame (hq.dbOk hs.db) (Or.inl rfl) rfl
        (hok.exec hs.db hb hsql he)⟩
    · rcases hpc : x.pc
      case body m left todo =>
        have hgo := hs.body hx hpc hsql hserve
        rwa [hpc] at hgo
      all_goals
        rw [hpc] at hb
        exact absurd rfl hb
  case fail =>
    simp only [Runner.step, Option.bind_eq_bind, Option.bind_eq_some_iff, Option.pure_def,
      Option.some.injEq] at h
    obtain ⟨x, hx, q, hsql, rfl⟩ := h
    have hq := error_quiet x.session s.server q late
    exact ⟨n, Nat.le_refl n, hs.setCall hx (live_of_sql hsql).1 hq.frame (hq.dbOk hs.db) (Or.inl rfl) rfl
      ((hs.calls c x hx).fail hsql late)⟩
  case reserve =>
    simp only [Runner.step] at h
    split_ifs at h with hfree
    cases h
    refine ⟨n, Nat.le_refl n, hs.db, fun c' z hz => ?_, fun c' z hz hend => ?_, fun τ hτ => ?_⟩
    · rcases update_cases hz with ⟨rfl, rfl⟩ | ⟨-, hz⟩
      · exact ⟨trivial, fun _ _ => hs.unused σ hfree.2, fun h => (by cases h),
          fun h => by cases h⟩
      · exact hs.calls c' z hz
    · rcases update_cases hz with ⟨rfl, rfl⟩ | ⟨-, hz⟩
      · exact Function.update_self _ _ _
      · have hzu := hs.user c' z hz hend
        have hne : z.session ≠ σ := by
          intro heq
          rw [heq, hfree.2] at hzu
          cases hzu
        exact (Function.update_of_ne hne _ _).trans hzu
    · have hτσ : τ ≠ σ := by
        rintro rfl
        cases (Function.update_self _ _ _).symm.trans hτ
      exact hs.unused τ ((Function.update_of_ne hτσ _ _).symm.trans hτ)
  case release =>
    simp only [Runner.step, Option.bind_eq_bind, Option.bind_eq_some_iff] at h
    obtain ⟨x, hx, h⟩ := h
    have hok := hs.calls c x hx
    rcases hpc : x.pc
    case release ok =>
      rw [hpc] at h
      cases h
      have hpos := hok.position
      rw [hpc] at hpos
      exact ⟨n, Nat.le_refl n, hs.finish hx (by rw [hpc]; rfl) ⟨Frame.refl _ _, rfl, rfl,
        hok.harmless (by rw [hpc]; rfl) (by rw [hpc]; rfl)⟩ hpos⟩
    all_goals
      rw [hpc] at h
      cases h
  case drop =>
    simp only [Runner.step, Option.bind_eq_bind, Option.bind_eq_some_iff] at h
    obtain ⟨x, hx, h⟩ := h
    by_cases hend : isEnded x.pc = false
    · have hinv : Inv L cold (s.finish (s.server.close x.session) c x false) n :=
        hs.finish hx hend (close_quiet _ _) (fun h => by cases h)
      refine ⟨n, Nat.le_refl n, ?_⟩
      rcases hpc : x.pc
      case ended =>
        rw [hpc] at hend
        cases hend
      all_goals
        rw [hpc] at h
        cases h
        exact hinv
    · rcases hpc : x.pc
      case ended =>
        rw [hpc] at h
        cases h
      all_goals
        rw [hpc] at hend
        exact absurd rfl hend
  case close =>
    simp only [Runner.step] at h
    split_ifs at h with hfree
    cases h
    have hq := close_quiet σ s.server
    refine ⟨n, Nat.le_refl n, hq.dbOk hs.db, fun c' z hz => ?_, hs.user, fun τ hτ => ?_⟩
    · refine (hs.calls c' z hz).other hq.frame (Or.inl rfl) fun hend heq => ?_
      have hzu := hs.user c' z hz hend
      rw [heq, hfree] at hzu
      cases hzu
    · by_cases hτσ : τ = σ
      · subst hτσ
        exact hq.harmless
      · show Harmless ((s.server.close σ).tx τ)
        rw [hq.frame.tx τ hτσ]
        exact hs.unused τ hτ

/-- **The run.** The number of applied migrations only grows. -/
theorem Inv.run {L : Lineage Ω} {cold : Db Ω} {n : ℕ} {s s' : State Ω} (hs : Inv L cold s n)
    {es : List Ev} (h : run (Runner.step L) es s = some s') : ∃ n', n ≤ n' ∧ Inv L cold s' n' := by
  refine run_inv (I := fun s' => ∃ n', n ≤ n' ∧ Inv L cold s' n') ?_ es s s'
    ⟨n, Nat.le_refl n, hs⟩ h
  rintro s₁ ev s₂ ⟨n₁, hle, hs₁⟩ hst
  obtain ⟨n₂, hle₂, hs₂⟩ := hs₁.step hst
  exact ⟨n₂, Nat.le_trans hle hle₂, hs₂⟩

end UmbraDB.Migrate.Prefix
