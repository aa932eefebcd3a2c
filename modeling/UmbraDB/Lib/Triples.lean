import Mathlib.Tactic.Basic

/-! # Programs with errors and clean-up

A program changes a state, and returns a value or throws an error; after an error the state is as the
program has left it. A triple has a postcondition for each of the two.

* `Triple.bind`, `Triple.tryCatch`, `Triple.tryFinally`, `Triple.forEach` : one rule for each way to
  compose programs. -/

namespace UmbraDB.Lib.Triples

variable {σ ε α β : Type}

def Prog (σ ε α : Type) := σ → Except ε α × σ

namespace Prog

def pure (a : α) : Prog σ ε α := fun s => (.ok a, s)

def throw (e : ε) : Prog σ ε α := fun s => (.error e, s)

def modify (f : σ → σ) : Prog σ ε Unit := fun s => (.ok (), f s)

def bind (x : Prog σ ε α) (f : α → Prog σ ε β) : Prog σ ε β := fun s =>
  match x s with
  | (.ok a, s') => f a s'
  | (.error e, s') => (.error e, s')

instance : Monad (Prog σ ε) where
  pure := pure
  bind := bind

/-- `try { x } catch (e) { handler(e) }`. -/
def tryCatch (x : Prog σ ε α) (handler : ε → Prog σ ε α) : Prog σ ε α := fun s =>
  match x s with
  | (.ok a, s') => (.ok a, s')
  | (.error e, s') => handler e s'

/-- `try { x } finally { final }`: an error of `final` takes the place of the outcome. -/
def tryFinally (x : Prog σ ε α) (final : Prog σ ε Unit) : Prog σ ε α := fun s =>
  match x s with
  | (outcome, s') =>
    match final s' with
    | (.ok _, s'') => (outcome, s'')
    | (.error e, s'') => (.error e, s'')

/-- `for (const a of as) { f(a) }`. -/
def forEach (f : α → Prog σ ε Unit) : List α → Prog σ ε Unit
  | [] => pure ()
  | a :: as => do
    f a
    forEach f as

end Prog

/-! ### Triples -/

/-- The postconditions of a value and of an error. -/
def Post (Q : α → σ → Prop) (E : ε → σ → Prop) : Except ε α × σ → Prop
  | (.ok a, s) => Q a s
  | (.error e, s) => E e s

def Triple (P : σ → Prop) (x : Prog σ ε α) (Q : α → σ → Prop) (E : ε → σ → Prop) : Prop :=
  ∀ s, P s → Post Q E (x s)

variable {P : σ → Prop} {x : Prog σ ε α} {Q Q' : α → σ → Prop} {E E' : ε → σ → Prop}

theorem Post.imp {r : Except ε α × σ} (h : Post Q E r) (hQ : ∀ a s, Q a s → Q' a s)
    (hE : ∀ e s, E e s → E' e s) : Post Q' E' r := by
  rcases r with ⟨e | a, s⟩
  · exact hE e s h
  · exact hQ a s h

/-- Postconditions that do not depend on the outcome. -/
theorem Post.snd {R : σ → Prop} {r : Except ε α × σ} (h : Post (fun _ => R) (fun _ => R) r) :
    R r.2 := by
  rcases r with ⟨e | a, s⟩
  · exact h
  · exact h

namespace Triple

theorem conseq {P' : σ → Prop} (h : Triple P x Q E) (hP : ∀ s, P' s → P s)
    (hQ : ∀ a s, Q a s → Q' a s) (hE : ∀ e s, E e s → E' e s) : Triple P' x Q' E' :=
  fun s hs => (h s (hP s hs)).imp hQ hE

theorem imp (h : Triple P x Q E) (hQ : ∀ a s, Q a s → Q' a s) (hE : ∀ e s, E e s → E' e s) :
    Triple P x Q' E' :=
  h.conseq (fun _ hs => hs) hQ hE

/-- A weaker postcondition of the errors. -/
theorem imp_error (h : Triple P x Q E) (hE : ∀ e s, E e s → E' e s) : Triple P x Q E' :=
  h.imp (fun _ _ hs => hs) hE

theorem or {P₁ P₂ : σ → Prop} (h₁ : Triple P₁ x Q E) (h₂ : Triple P₂ x Q E) :
    Triple (fun s => P₁ s ∨ P₂ s) x Q E := fun s hs => hs.elim (h₁ s) (h₂ s)

theorem ret {a : α} (h : ∀ s, P s → Q a s) : Triple P (pure a : Prog σ ε α) Q E := h

theorem throw {e : ε} (h : ∀ s, P s → E e s) : Triple P (Prog.throw e : Prog σ ε α) Q E := h

theorem modify {f : σ → σ} {Q : Unit → σ → Prop} (h : ∀ s, P s → Q () (f s)) :
    Triple P (Prog.modify f : Prog σ ε Unit) Q E := h

theorem bind {f : α → Prog σ ε β} {R : β → σ → Prop} (hx : Triple P x Q E)
    (hf : ∀ a, Triple (Q a) (f a) R E) : Triple P (x >>= f) R E := by
  intro s hs
  have hpost := hx s hs
  show Post R E (Prog.bind x f s)
  unfold Prog.bind
  generalize x s = r at hpost ⊢
  rcases r with ⟨e | a, s'⟩
  · exact hpost
  · exact hf a s' hpost

theorem tryCatch {handler : ε → Prog σ ε α} (hx : Triple P x Q E)
    (hh : ∀ e, Triple (E e) (handler e) Q E') : Triple P (Prog.tryCatch x handler) Q E' := by
  intro s hs
  have hpost := hx s hs
  unfold Prog.tryCatch
  generalize x s = r at hpost ⊢
  rcases r with ⟨e | a, s'⟩
  · exact hh e s' hpost
  · exact hpost

/-- The clean-up runs after a value and after an error. -/
theorem tryFinally {final : Prog σ ε Unit} {Q₁ : α → σ → Prop} {E₁ : ε → σ → Prop}
    (hx : Triple P x Q₁ E₁) (hQ : ∀ a, Triple (Q₁ a) final (fun _ => Q a) E)
    (hE : ∀ e, Triple (E₁ e) final (fun _ => E e) E) : Triple P (Prog.tryFinally x final) Q E := by
  intro s hs
  have hpost := hx s hs
  unfold Prog.tryFinally
  generalize x s = r at hpost ⊢
  rcases r with ⟨e | a, s'⟩
  · have hfinal := hE e s' hpost
    simp only
    generalize final s' = r at hfinal ⊢
    rcases r with ⟨e' | _, s''⟩
    · exact hfinal
    · exact hfinal
  · have hfinal := hQ a s' hpost
    simp only
    generalize final s' = r at hfinal ⊢
    rcases r with ⟨e' | _, s''⟩
    · exact hfinal
    · exact hfinal

/-- What each round keeps, the loop keeps. -/
theorem forEach {f : α → Prog σ ε Unit} {I : σ → Prop} :
    ∀ {as : List α}, (∀ a ∈ as, Triple I (f a) (fun _ => I) E) →
      Triple I (Prog.forEach f as) (fun _ => I) E
  | [], _ => ret fun _ hs => hs
  | a :: _, h => bind (h a List.mem_cons_self) fun _ =>
      forEach fun a' ha' => h a' (List.mem_cons_of_mem a ha')

end Triple

end UmbraDB.Lib.Triples
