import Mathlib.Data.List.Basic
import Mathlib.Tactic.Basic

/-! # Runs of a partial step function

A system is given by `step : S → E → Option S`: the event `e` is possible in the state `s` if
`step s e` is `some` state, the state after it. `run step es s` is the state after the events `es`,
and `Reach step s₀ s` says that some list of events leads from `s₀` to `s`. Which events a run has,
and in which order, is left open, so a statement about every reachable state is a statement about
every interleaving.

* `run_append`, `run_snoc`: a run is cut anywhere, in particular before its last event.
* `run_map`: a run under a map of the states and the events.
* `run_inv`, `Reach.inv`: what every step keeps, every run keeps.
* `run_inv_along`: the same, for what only the steps allowed by a condition keep.
* `run_by_key`: events that each act on one key of a table are run key by key. -/

namespace UmbraDB.Lib.Runs

universe u v

variable {S : Type u} {E : Type v} {step : S → E → Option S}

/-- The state after the events, if each of them is possible where it comes. -/
def run (step : S → E → Option S) : List E → S → Option S
  | [], s => some s
  | e :: es, s => (step s e).bind (run step es)

@[simp] theorem run_nil (s : S) : run step [] s = some s := rfl

theorem run_cons (e : E) (es : List E) (s : S) :
    run step (e :: es) s = (step s e).bind (run step es) := rfl

theorem run_append : ∀ (es es' : List E) (s : S),
    run step (es ++ es') s = (run step es s).bind (run step es')
  | [], es', s => by simp
  | e :: es, es', s => by
    rw [List.cons_append, run_cons, run_cons]
    cases h : step s e with
    | none => simp
    | some s1 => simpa using run_append es es' s1

theorem run_snoc {es : List E} {e : E} {s s' : S} :
    run step (es ++ [e]) s = some s' ↔ ∃ s1, run step es s = some s1 ∧ step s1 e = some s' := by
  rw [run_append]
  cases h : run step es s with
  | none => simp
  | some s1 =>
    simp only [Option.bind_some, run_cons, Option.some.injEq, exists_eq_left']
    cases step s1 e <;> simp

/-- A run under a map of the states and the events that the steps respect. -/
theorem run_map {S' : Type*} {E' : Type*} {step' : S' → E' → Option S'} {f : S → S'} {g : E → E'}
    (hstep : ∀ s e, step' (f s) (g e) = (step s e).map f) : ∀ (es : List E) (s : S),
    run step' (es.map g) (f s) = (run step es s).map f
  | [], _ => rfl
  | e :: es, s => by
    rw [List.map_cons, run_cons, run_cons, hstep]
    cases step s e with
    | none => rfl
    | some s1 => exact run_map hstep es s1

/-- **The invariant rule**, for a run from a state where the invariant holds. -/
theorem run_inv {I : S → Prop} (hstep : ∀ s e s', I s → step s e = some s' → I s') :
    ∀ (es : List E) (s s' : S), I s → run step es s = some s' → I s'
  | [], s, s', hs, h => by
    simp only [run_nil, Option.some.injEq] at h
    exact h ▸ hs
  | e :: es, s, s', hs, h => by
    rw [run_cons] at h
    cases h1 : step s e with
    | none => rw [h1] at h; simp at h
    | some s1 =>
      rw [h1] at h
      exact run_inv hstep es s1 s' (hstep s e s1 hs h1) (by simpa using h)

/-- Every step of the run from `s` is taken in a state and by an event that `P` allows. -/
def Along (step : S → E → Option S) (P : S → E → Prop) : List E → S → Prop
  | [], _ => True
  | e :: es, s => P s e ∧ ∀ s', step s e = some s' → Along step P es s'

/-- The invariant rule for the runs whose steps all meet a condition. -/
theorem run_inv_along {I : S → Prop} {P : S → E → Prop}
    (hstep : ∀ s e s', I s → P s e → step s e = some s' → I s') :
    ∀ (es : List E) (s s' : S), I s → Along step P es s → run step es s = some s' → I s'
  | [], s, s', hs, _, h => by
    simp only [run_nil, Option.some.injEq] at h
    exact h ▸ hs
  | e :: es, s, s', hs, ha, h => by
    rw [run_cons] at h
    cases h1 : step s e with
    | none => rw [h1] at h; simp at h
    | some s1 =>
      rw [h1] at h
      exact run_inv_along hstep es s1 s' (hstep s e s1 hs ha.1 h1) (ha.2 s1 h1) (by simpa using h)

theorem along_cons_of_none {P : S → E → Prop} {e : E} {es : List E} {s : S}
    (h : step s e = none) : P s e ↔ Along step P (e :: es) s :=
  ⟨fun hP => ⟨hP, fun s' hs' => by rw [h] at hs'; cases hs'⟩, fun ha => ha.1⟩

theorem along_cons_of_some {P : S → E → Prop} {e : E} {es : List E} {s s' : S}
    (h : step s e = some s') : (P s e ∧ Along step P es s') ↔ Along step P (e :: es) s :=
  ⟨fun hP => ⟨hP.1, fun s'' hs'' => by rw [h] at hs''; cases hs''; exact hP.2⟩,
    fun ha => ⟨ha.1, ha.2 s' h⟩⟩

/-- A run can be checked. -/
instance Along.decidable {P : S → E → Prop} [∀ s e, Decidable (P s e)] : ∀ (es : List E) (s : S),
    Decidable (Along step P es s)
  | [], _ => .isTrue trivial
  | e :: es, s =>
    match h : step s e with
    | none => decidable_of_iff (P s e) (along_cons_of_none h)
    | some s' =>
      have := Along.decidable (P := P) es s'
      decidable_of_iff (P s e ∧ Along step P es s') (along_cons_of_some h)

theorem Along.mono {P Q : S → E → Prop} (hPQ : ∀ s e, P s e → Q s e) : ∀ {es : List E} {s : S},
    Along step P es s → Along step Q es s
  | [], _, _ => trivial
  | _ :: _, _, h => ⟨hPQ _ _ h.1, fun s' hs' => Along.mono hPQ (h.2 s' hs')⟩

theorem Along.of_append {P : S → E → Prop} : ∀ {es es' : List E} {s s' : S},
    Along step P (es ++ es') s → run step es s = some s' →
      Along step P es s ∧ Along step P es' s'
  | [], es', s, s', h, hr => by
    cases hr
    exact ⟨trivial, h⟩
  | e :: es, es', s, s', h, hr => by
    rw [run_cons, Option.bind_eq_some_iff] at hr
    obtain ⟨s1, h1, hr⟩ := hr
    obtain ⟨ha, hb⟩ := Along.of_append (h.2 s1 h1) hr
    exact ⟨(along_cons_of_some h1).mp ⟨h.1, ha⟩, hb⟩

/-- A condition on the events alone. -/
theorem along_of_forall {P : E → Prop} : ∀ (es : List E) (s : S), (∀ e ∈ es, P e) →
    Along step (fun _ e => P e) es s
  | [], _, _ => trivial
  | e :: es, _, h =>
    ⟨h e (by simp), fun s' _ => along_of_forall es s' fun e' he' => h e' (by simp [he'])⟩

/-- `s` is reached from `s₀` by some run. -/
def Reach (step : S → E → Option S) (s₀ s : S) : Prop := ∃ es, run step es s₀ = some s

theorem Reach.trans {s₀ s s' : S} (h : Reach step s₀ s) (h' : Reach step s s') :
    Reach step s₀ s' := by
  obtain ⟨es, hes⟩ := h
  obtain ⟨es', hes'⟩ := h'
  exact ⟨es ++ es', by rw [run_append, hes]; exact hes'⟩

/-- What holds at the start and is kept by every step holds in every reachable state. -/
theorem Reach.inv {I : S → Prop} {s₀ s : S} (h : Reach step s₀ s) (h0 : I s₀)
    (hstep : ∀ s e s', I s → step s e = some s' → I s') : I s := by
  obtain ⟨es, hes⟩ := h
  exact run_inv hstep es s₀ s h0 hes

/-! ### Events on the keys of a table -/

section ByKey

variable {K V : Type*} [DecidableEq K] {key : E → K} {act : V → E → Option V}
  {apply : (K → V) → E → Option (K → V)}

/-- If every event acts on the value of its key alone, it is enough to run, for each key, the events
with this key. -/
theorem run_by_key (hact : ∀ f e v, act (f (key e)) e = some v →
      apply f e = some (Function.update f (key e) v)) :
    ∀ (es : List E) (f f' : K → V),
      (∀ k, run act (es.filter fun e => key e = k) (f k) = some (f' k)) → run apply es f = some f'
  | [], f, f', h => by
    have he : f = f' := by
      funext k
      simpa using h k
    rw [he, run_nil]
  | e :: es, f, f', h => by
    have hk := h (key e)
    rw [List.filter_cons_of_pos (by simp), run_cons, Option.bind_eq_some_iff] at hk
    obtain ⟨v, hv, hrest⟩ := hk
    rw [run_cons, hact f e v hv]
    refine run_by_key hact es (Function.update f (key e) v) f' fun k => ?_
    by_cases hke : k = key e
    · subst hke
      rw [Function.update_self]
      exact hrest
    · rw [Function.update_of_ne hke]
      have := h k
      rwa [List.filter_cons_of_neg (by simpa using Ne.symm hke)] at this

end ByKey

end UmbraDB.Lib.Runs
