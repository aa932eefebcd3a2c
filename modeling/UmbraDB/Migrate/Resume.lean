import UmbraDB.Migrate.Prefix

/-! # Migrations: a call completes the lineage

A call whose statements all succeed applies the migrations that are not recorded and no others. With
the invariant this is the whole of `runMigrations`.

* `resume` : such a call ends without an error, and has committed the bodies that were left.
* `migrations_prefix` : in every reachable state a prefix of the lineage is applied and nothing
  else; it is all of it once a call has returned; later states continue it; and a call that gets the
  lock completes it. -/

namespace UmbraDB.Migrate.Resume

open UmbraDB.Js.Text UmbraDB.Lib.Runs UmbraDB.Migrate.Runner UmbraDB.Migrate.Prefix

variable {Ω : Type} {L : Lineage Ω}

/-! ### A call by itself -/

/-- By statements that succeed the call gets from one place to the other. -/
def Goes (L : Lineage Ω) (c σ : ℕ) (v : Server Ω) (h : Bool) (pc : Pc Ω) (v' : Server Ω) (h' : Bool)
    (pc' : Pc Ω) : Prop :=
  ∀ s : State Ω, s.server = v → s.calls c = some ⟨σ, h, pc⟩ →
    ∃ k s', run (step L) (List.replicate k (.exec c)) s = some s' ∧ s'.server = v' ∧
      s'.calls c = some ⟨σ, h', pc'⟩

theorem Goes.refl (c σ : ℕ) (v : Server Ω) (h : Bool) (pc : Pc Ω) : Goes L c σ v h pc v h pc :=
  fun s hv hc => ⟨0, s, rfl, hv, hc⟩

theorem Goes.trans {c σ : ℕ} {v v' v'' : Server Ω} {h h' h'' : Bool} {pc pc' pc'' : Pc Ω}
    (h₁ : Goes L c σ v h pc v' h' pc') (h₂ : Goes L c σ v' h' pc' v'' h'' pc'') :
    Goes L c σ v h pc v'' h'' pc'' := by
  intro s hv hc
  obtain ⟨k, s', hr, hv', hc'⟩ := h₁ s hv hc
  obtain ⟨k', s'', hr', hv'', hc''⟩ := h₂ s' hv' hc'
  refine ⟨k + k', s'', ?_, hv'', hc''⟩
  rw [List.replicate_add, run_append, hr]
  exact hr'

/-- One statement. -/
theorem goes_exec {c σ : ℕ} {v v' : Server Ω} {h : Bool} {pc : Pc Ω} {q : Sql Ω} {answer : Bool}
    (hsql : pc.sql = some q) (hserve : v.serve σ q = some (v', answer)) :
    Goes L c σ v h pc v' (h || pc.setsLockHeld) (pc.next L h answer) := by
  intro s hv hc
  subst hv
  refine ⟨1, s.setCall v' c ⟨σ, h || pc.setsLockHeld, pc.next L h answer⟩, ?_, rfl,
    Function.update_self _ _ _⟩
  simp only [List.replicate_one, run_cons, Runner.step, hc, hsql, hserve, Option.bind_eq_bind,
    Option.bind_some, Option.pure_def]
  rfl

/-! ### The transaction of a migration -/

theorem setTx_setTx (v : Server Ω) (σ : ℕ) (tx tx' : TxStatus Ω) :
    (v.setTx σ tx).setTx σ tx' = v.setTx σ tx' := by
  unfold Server.setTx
  dsimp only
  rw [Function.update_idem]

theorem setTx_tx (v : Server Ω) (σ : ℕ) (tx : TxStatus Ω) : (v.setTx σ tx).tx σ = tx :=
  Function.update_self _ _ _

/-- The statements that are left. -/
theorem goes_statements {c σ : ℕ} (v : Server Ω) {m : Migration Ω} {todo : List (Migration Ω)} :
    ∀ {left done : List (Ddl Ω)} {db db' : Db Ω}, run Ddl.exec done v.db = some db →
      run Ddl.exec left db = some db' →
      Goes L c σ (v.setTx σ (.active done)) true (.body m left todo)
        (v.setTx σ (.active (done ++ left))) true (.body m [] todo) := by
  intro left
  induction left with
  | nil =>
    intro done db db' _ _
    rw [List.append_nil]
    exact Goes.refl _ _ _ _ _
  | cons d left ih =>
    intro done db db' hdone hleft
    rw [run_cons] at hleft
    obtain ⟨db₁, hd, hleft⟩ := Option.bind_eq_some_iff.mp hleft
    have hserve : (v.setTx σ (.active done)).serve σ (.ddl d) =
        some (v.setTx σ (.active (done ++ [d])), true) := by
      have hview : (v.setTx σ (.active done)).view σ = some db := by
        unfold Server.view
        rw [setTx_tx]
        exact hdone
      simp only [Server.serve, setTx_tx, hview, hd, setTx_setTx, Option.bind_eq_bind,
        Option.bind_some, Option.pure_def]
    have hnext : run Ddl.exec (done ++ [d]) v.db = some db₁ := run_snoc.mpr ⟨db, hdone, hd⟩
    have hrest := ih hnext hleft
    rw [List.append_assoc] at hrest
    have hfirst : Goes L c σ (v.setTx σ (.active done)) true (.body m (d :: left) todo)
        (v.setTx σ (.active (done ++ [d]))) true (.body m left todo) := goes_exec rfl hserve
    exact hfirst.trans hrest

/-- The server after the transaction of a migration. -/
def applyBody (v : Server Ω) (body : List (Ddl Ω)) (db : Db Ω) : Server Ω :=
  { v with db := db, history := v.history ++ body }

/-- A migration that is not recorded. -/
theorem goes_migration {c σ : ℕ} {v : Server Ω} (hidle : v.tx σ = .idle) {m : Migration Ω}
    {todo : List (Migration Ω)} {db : Db Ω} (h : run Ddl.exec m.body v.db = some db) :
    Goes L c σ v true (.begin m todo) (applyBody v m.body db) true (Pc.loop todo) := by
  have hbegin : v.serve σ .begin = some (v.setTx σ (.active []), true) := by
    simp only [Server.serve, hidle]
  have hcommit : (v.setTx σ (.active m.body)).serve σ .commit =
      some (applyBody v m.body db, true) := by
    have hdb : run Ddl.exec m.body (v.setTx σ (.active m.body)).db = some db := h
    simp only [Server.serve, setTx_tx, hdb, Option.bind_eq_bind, Option.bind_some, Option.pure_def]
    have hself : (applyBody v m.body db).setTx σ .idle = applyBody v m.body db := setTx_self hidle
    rw [show ({ v.setTx σ (.active m.body) with
      db := db, history := (v.setTx σ (.active m.body)).history ++ m.body } : Server Ω) =
        (applyBody v m.body db).setTx σ (.active m.body) from rfl, setTx_setTx, hself]
  exact ((goes_exec rfl hbegin).trans (goes_statements v (run_nil _) h)).trans
    (goes_exec rfl hcommit)

/-! ### The loop -/

/-- What the migrations from the `n`-th on do, in order. -/
def bodiesFrom (L : Lineage Ω) (n : ℕ) : List (Ddl Ω) := (L.all.drop n).flatMap (·.body)

/-- The body of the next migration comes first. -/
theorem bodiesFrom_next {pre todo : List (Migration Ω)} {m : Migration Ω}
    (hall : L.all = pre ++ m :: todo) :
    bodiesFrom L pre.length = m.body ++ bodiesFrom L (pre.length + 1) := by
  unfold bodiesFrom
  rw [hall, List.drop_left, List.drop_append, List.drop_of_length_le (by omega)]
  simp

/-- A step through a migration that is not recorded. -/
theorem applied_next {cold : Db Ω} {v : Server Ω} {pre todo : List (Migration Ω)} {m : Migration Ω}
    (hv : DbOk L cold v pre.length) (hall : L.all = pre ++ m :: todo) {db' : Db Ω}
    (h : run Ddl.exec (bodiesFrom L pre.length) v.db = some db') :
    ∃ db, run Ddl.exec m.body v.db = some db ∧
      DbOk L cold (applyBody v m.body db) (pre.length + 1) ∧
      run Ddl.exec (bodiesFrom L (pre.length + 1)) db = some db' := by
  rw [bodiesFrom_next hall, run_append] at h
  obtain ⟨db, hbody, hrest⟩ := Option.bind_eq_some_iff.mp h
  exact ⟨db, hbody, hv.commit hall rfl hbody rfl rfl, hrest⟩

/-- **The loop** applies the migrations that are left, and skips the others. -/
theorem goes_loop {c σ : ℕ} {cold : Db Ω} : ∀ {todo pre : List (Migration Ω)} {n : ℕ}
    {v : Server Ω} {db' : Db Ω}, DbOk L cold v n → v.tx σ = .idle → L.all = pre ++ todo →
      pre ≠ [] → pre.length ≤ n → run Ddl.exec (bodiesFrom L n) v.db = some db' →
      Goes L c σ v true (Pc.loop todo) (applyBody v (bodiesFrom L n) db') true
        (.resetPath true) := by
  intro todo
  induction todo with
  | nil =>
    intro pre n v db' hv _ hall _ hle h
    have hn : L.all.length ≤ n := by
      rw [hall, List.append_nil]
      exact hle
    have hnil : bodiesFrom L n = [] := by
      rw [bodiesFrom, List.drop_of_length_le hn]
      rfl
    rw [hnil] at h ⊢
    cases h
    have hsame : applyBody v [] v.db = v := by
      unfold applyBody
      rw [List.append_nil]
    rw [hsame]
    exact Goes.refl _ _ _ _ _
  | cons m todo ih =>
    intro pre n v db' hv hidle hall hne hle h
    have hall' : L.all = (pre ++ [m]) ++ todo := by rw [hall]; simp
    have hne' : pre ++ [m] ≠ [] := by simp
    have hlen' : (pre ++ [m]).length = pre.length + 1 := by simp
    have hpos : 0 < pre.length := List.length_pos_iff.mpr hne
    have hserve : v.serve σ (.applied m.name) = some (v, decide (pre.length < n)) := by
      have hview : v.view σ = some v.db := by
        unfold Server.view
        rw [hidle]
      have hnames : v.db.migrations = some ((L.all.take n).map (·.name)) := by
        rw [hv.migrations, namesAt, if_neg (by omega)]
      simp only [Server.serve, hidle, hview, hnames, mem_names L hall n, Option.bind_eq_bind,
        Option.bind_some, Option.pure_def]
    rcases Nat.lt_or_eq_of_le hle with hlt | rfl
    · rw [decide_eq_true hlt] at hserve
      exact (goes_exec rfl hserve).trans (ih hv hidle hall' hne' (by omega) h)
    · rw [decide_eq_false (Nat.lt_irrefl _)] at hserve
      obtain ⟨db, hbody, hv', hrest⟩ := applied_next hv hall h
      have hgo := ih hv' hidle hall' hne' (by omega) hrest
      have hboth : applyBody (applyBody v m.body db) (bodiesFrom L (pre.length + 1)) db' =
          applyBody v (bodiesFrom L pre.length) db' := by
        rw [bodiesFrom_next hall]
        unfold applyBody
        simp
      rw [hboth] at hgo
      exact ((goes_exec rfl hserve).trans (goes_migration hidle hbody)).trans hgo

/-- The transaction that acquires the lock. -/
theorem goes_acquire {c σ : ℕ} {v : Server Ω} (hidle : v.tx σ = .idle) {owner : ℕ × ℕ}
    (hlock : Server.lock v.owner σ = some owner) :
    Goes L c σ v false .beginLock { v with owner := some owner } true .regclass := by
  have hbegin : v.serve σ .begin = some (v.setTx σ (.active []), true) := by
    simp only [Server.serve, hidle]
  have htimeout : (v.setTx σ (.active [])).serve σ .setLockTimeout =
      some (v.setTx σ (.active []), true) := by
    simp only [Server.serve, setTx_tx]
  have hgrant : (v.setTx σ (.active [])).serve σ .lock =
      some ({ v with owner := some owner }.setTx σ (.active []), true) := by
    have hl : Server.lock (v.setTx σ (.active [])).owner σ = some owner := hlock
    simp only [Server.serve, setTx_tx, hl, Option.bind_eq_bind, Option.bind_some, Option.pure_def]
    rfl
  have hcommit : ({ v with owner := some owner }.setTx σ (.active [])).serve σ .commit =
      some ({ v with owner := some owner }, true) := by
    have hself : ({ v with owner := some owner } : Server Ω).setTx σ .idle =
        { v with owner := some owner } := setTx_self hidle
    simp only [Server.serve, setTx_tx, run_nil, Option.bind_eq_bind, Option.bind_some,
      Option.pure_def, List.append_nil]
    exact congrArg (fun w => some (w, true)) ((setTx_setTx _ σ (.active []) .idle).trans hself)
  have hpath : ({ v with owner := some owner } : Server Ω).serve σ .setSearchPath =
      some ({ v with owner := some owner }, true) := by
    simp only [Server.serve, hidle]
  exact ((((goes_exec rfl hbegin).trans (goes_exec rfl htimeout)).trans
    (goes_exec rfl hgrant)).trans (goes_exec rfl hcommit)).trans (goes_exec rfl hpath)

/-- From the check of `_migrations` to the end of the loop. -/
theorem goes_migrations {c σ : ℕ} {cold : Db Ω} {n : ℕ} {v : Server Ω} (hv : DbOk L cold v n)
    (hidle : v.tx σ = .idle) {db' : Db Ω} (h : run Ddl.exec (bodiesFrom L n) v.db = some db') :
    Goes L c σ v true .regclass (applyBody v (bodiesFrom L n) db') true (.resetPath true) := by
  have hserve : v.serve σ .regclass = some (v, v.db.migrations.isSome) := by
    have hview : v.view σ = some v.db := by
      unfold Server.view
      rw [hidle]
    simp only [Server.serve, hidle, hview, Option.bind_eq_bind, Option.bind_some, Option.pure_def]
  have hall : L.all = [migration000] ++ L.tail := rfl
  rw [hv.migrations] at hserve
  rcases Nat.eq_zero_or_pos n with rfl | hpos
  · have hall₀ : L.all = [] ++ migration000 :: L.tail := rfl
    obtain ⟨db, hbody, hv', hrest⟩ := applied_next hv hall₀ h
    have hgo := goes_loop (c := c) hv' hidle hall (by simp) (Nat.le_refl 1) hrest
    have hboth : applyBody (applyBody v migration000.body db) (bodiesFrom L 1) db' =
        applyBody v (bodiesFrom L 0) db' := by
      have hnext := bodiesFrom_next hall₀
      rw [List.length_nil] at hnext
      rw [hnext]
      unfold applyBody
      simp
    rw [← hboth]
    exact ((goes_exec rfl hserve).trans (goes_migration hidle hbody)).trans hgo
  · rw [namesAt, if_neg (by omega)] at hserve
    exact (goes_exec rfl hserve).trans (goes_loop hv hidle hall (by simp) hpos h)

/-- The two `finally` blocks. -/
theorem goes_finally {c σ : ℕ} {v : Server Ω} (hidle : v.tx σ = .idle) :
    Goes L c σ v true (.resetPath true) { v with owner := Server.unlock v.owner σ } true
      (.release true) := by
  have hreset : v.serve σ .resetSearchPath = some (v, true) := by
    simp only [Server.serve, hidle]
  have hunlock : v.serve σ .unlock =
      some ({ v with owner := Server.unlock v.owner σ }, true) := by
    simp only [Server.serve, hidle]
  exact (goes_exec rfl hreset).trans (goes_exec rfl hunlock)

/-- **A later call.** It gets an idle session and the lock, and its statements succeed: it ends
without an error and commits exactly the bodies of the migrations that were left. -/
theorem resume {cold : Db Ω} {n : ℕ} {s : State Ω} (hs : Inv L cold s n) {c σ : ℕ}
    (hc : s.calls c = none) (hfree : s.user σ = none) (hidle : s.server.tx σ = .idle)
    (hlock : Server.lock s.server.owner σ ≠ none) {db' : Db Ω}
    (h : run Ddl.exec (bodiesFrom L n) s.server.db = some db') :
    ∃ k s', run (step L) (.reserve c σ :: (List.replicate k (.exec c) ++ [.release c])) s =
        some s' ∧ (∃ x, s'.calls c = some x ∧ x.pc = .ended true) ∧ s'.server.db = db' ∧
      s'.server.history = s.server.history ++ bodiesFrom L n := by
  obtain ⟨owner, howner⟩ := Option.ne_none_iff_exists'.mp hlock
  have hv : DbOk L cold { s.server with owner := some owner } n := by
    obtain ⟨hle, hm, hh, hr⟩ := hs.db
    exact ⟨hle, hm, hh, hr⟩
  have hgo : Goes L c σ s.server false .beginLock _ true (.release true) :=
    ((goes_acquire hidle howner).trans (goes_migrations hv hidle h)).trans (goes_finally hidle)
  let s₀ : State Ω := { s with
    calls := Function.update s.calls c (some ⟨σ, false, .beginLock⟩)
    user := Function.update s.user σ (some c) }
  have hres : step L s (.reserve c σ) = some s₀ := by
    rw [Runner.step, if_pos ⟨by rw [hc]; rfl, hfree⟩]
  obtain ⟨k, s₁, hrun, hserver, hcall⟩ := hgo s₀ rfl (Function.update_self _ _ _)
  have hrel : step L s₁ (.release c) = some (s₁.finish s₁.server c ⟨σ, true, .release true⟩ true) := by
    rw [Runner.step, hcall]
    rfl
  refine ⟨k, s₁.finish s₁.server c ⟨σ, true, .release true⟩ true, ?_,
    ⟨_, Function.update_self _ _ _, rfl⟩, ?_, ?_⟩
  · rw [run_cons, hres, Option.bind_some]
    exact run_snoc.mpr ⟨s₁, hrun, hrel⟩
  · show s₁.server.db = db'
    rw [hserver]
    rfl
  · show s₁.server.history = s.server.history ++ bodiesFrom L n
    rw [hserver]
    rfl

/-- **The migration runner.** In every reachable state some first `n` migrations of the lineage are
recorded and applied, each once and in order, and nothing else; `n` is their number once a call has
returned; every later state only adds the migrations that follow; and a later call that gets an idle
session and the lock, and whose statements succeed, adds exactly those that are left. -/
theorem migrations_prefix (L : Lineage Ω) {cold : Db Ω} (hcold : cold.migrations = none)
    {es : List Ev} {s : State Ω} (h : run (step L) es (.init cold) = some s) :
    ∃ n ≤ L.all.length, s.server.db.migrations = namesAt L n ∧
      s.server.history = (L.all.take n).flatMap (·.body) ∧
      run Ddl.exec s.server.history cold = some s.server.db ∧
      (∀ c x, s.calls c = some x → x.pc = .ended true → n = L.all.length) ∧
      (∀ es' s', run (step L) es' s = some s' → ∃ n', n ≤ n' ∧ n' ≤ L.all.length ∧
        s'.server.history = s.server.history ++ ((L.all.drop n).take (n' - n)).flatMap (·.body)) ∧
      ∀ c σ db', s.calls c = none → s.user σ = none → s.server.tx σ = .idle →
        Server.lock s.server.owner σ ≠ none →
        run Ddl.exec (bodiesFrom L n) s.server.db = some db' →
        ∃ k s', run (step L) (.reserve c σ :: (List.replicate k (.exec c) ++ [.release c])) s =
            some s' ∧ (∃ x, s'.calls c = some x ∧ x.pc = .ended true) ∧ s'.server.db = db' ∧
          s'.server.history = s.server.history ++ bodiesFrom L n := by
  obtain ⟨n, -, hs⟩ := (inv_init L hcold).run h
  refine ⟨n, hs.db.le, hs.db.migrations, hs.db.history, hs.db.replay, fun c x hx hpc => ?_,
    fun es' s' h' => ?_, fun c σ db' hc hfree hidle hlock hrun =>
      resume hs hc hfree hidle hlock hrun⟩
  · have hpos := (hs.calls c x hx).position
    rw [hpc] at hpos
    exact hpos rfl
  · obtain ⟨n', hle, hs'⟩ := hs.run h'
    refine ⟨n', hle, hs'.db.le, ?_⟩
    have htake : L.all.take n' = L.all.take n ++ (L.all.drop n).take (n' - n) := by
      rw [← List.take_add, Nat.add_sub_cancel' hle]
    rw [hs'.db.history, hs.db.history, htake, List.flatMap_append]

/-- The lineage of the chain archive, with a migration of two statements that are counted. -/
def countingLineage : Lineage ℕ :=
  chainArchiveMigrations [fun k => some (k + 1), fun k => some (k + 1)]

/-- The first call dies in the transaction of the second migration, the other one has waited for the
lock and goes on from there. -/
def crashAndResume : List Ev :=
  .reserve 0 0 :: List.replicate 4 (.exec 0) ++ .reserve 1 1 :: List.replicate 2 (.exec 1) ++
    List.replicate 10 (.exec 0) ++ .drop 0 :: List.replicate 12 (.exec 1) ++ [.release 1]

theorem migrations_prefix_crashAndResume :
    ∃ s, run (step countingLineage) crashAndResume (.init ⟨false, none, 0⟩) = some s ∧
      s.server.db.objects = 2 ∧
      s.server.history = countingLineage.all.flatMap (·.body) := by
  have hr : (run (step countingLineage) crashAndResume (.init ⟨false, none, 0⟩)).map
      (fun s => (s.server.db.objects, s.server.db.migrations)) =
        some (2, namesAt countingLineage 2) := by
    decide +kernel
  obtain ⟨s, hs, hdb⟩ := Option.map_eq_some_iff.mp hr
  simp only [Prod.mk.injEq] at hdb
  obtain ⟨n, hle, hm, hh, -⟩ := migrations_prefix countingLineage rfl hs
  have hn : n = 2 := by
    have hle : n ≤ 2 := hle
    rw [hdb.2] at hm
    rcases n with _ | _ | _ | n
    · cases hm
    · cases hm
    · rfl
    · omega
  refine ⟨s, hs, hdb.1, ?_⟩
  rw [hh, hn]
  rfl

end UmbraDB.Migrate.Resume
