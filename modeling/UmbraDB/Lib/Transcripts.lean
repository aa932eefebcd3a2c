import Mathlib.Data.List.Basic
import Mathlib.Logic.Function.Basic
import Mathlib.Tactic.Basic

/-! # Machines that answer

A machine `step : S → E → S × O` accepts every event and answers it. `transcript step es s` has the
events of a run with their answers, `final step es s` is the state after it.

* `simulate` : a relation that all steps of two machines keep, with the same answers, makes their
  transcripts equal. It may depend on the events so far.
* `onKey` : a table of machines, each event acts on the one with its key.
* `transcript_onKey`, `final_onKey` : what happens at a key is a run of its machine alone. -/

namespace UmbraDB.Lib.Transcripts

variable {S A E O : Type*}

def transcript (step : S → E → S × O) : List E → S → List (E × O)
  | [], _ => []
  | e :: es, s => (e, (step s e).2) :: transcript step es (step s e).1

def final (step : S → E → S × O) : List E → S → S
  | [], s => s
  | e :: es, s => final step es (step s e).1

theorem mem_transcript {step : S → E → S × O} {x : E × O} : ∀ {es : List E} {s : S},
    x ∈ transcript step es s → x.1 ∈ es
  | [], _, h => by cases h
  | e :: es, s, h => by
    rw [transcript] at h
    rcases List.mem_cons.mp h with rfl | h
    · exact List.mem_cons_self
    · exact List.mem_cons_of_mem _ (mem_transcript h)

/-- **Simulation** along the prefixes of `all`. -/
theorem simulate {step : S → E → S × O} {spec : A → E → A × O} {R : List E → S → A → Prop}
    {all : List E} (hstep : ∀ es e s a, es ++ [e] <+: all → R es s a →
      (step s e).2 = (spec a e).2 ∧ R (es ++ [e]) (step s e).1 (spec a e).1) :
    ∀ (rest es : List E) {s : S} {a : A}, es ++ rest = all → R es s a →
      transcript step rest s = transcript spec rest a ∧
        R all (final step rest s) (final spec rest a)
  | [], es, s, a, h, hR => by
    rw [List.append_nil] at h
    exact ⟨rfl, h ▸ hR⟩
  | e :: rest, es, s, a, h, hR => by
    have hcut : (es ++ [e]) ++ rest = all := by rw [← h, List.append_assoc, List.singleton_append]
    obtain ⟨ho, hR'⟩ := hstep es e s a ⟨rest, hcut⟩ hR
    obtain ⟨ht, hfin⟩ := simulate hstep rest (es ++ [e]) hcut hR'
    rw [transcript, transcript, ho, ht]
    exact ⟨rfl, hfin⟩

section Keys

variable {K V : Type*} [DecidableEq K]

/-- An event acts on the machine with its key. -/
def onKey (key : E → K) (act : V → E → V × O) (f : K → V) (e : E) : (K → V) × O :=
  (Function.update f (key e) (act (f (key e)) e).1, (act (f (key e)) e).2)

variable {key : E → K} {act : V → E → V × O}

/-- **What is answered at a key.** -/
theorem transcript_onKey (k : K) : ∀ (es : List E) (f : K → V),
    (transcript (onKey key act) es f).filter (fun x => key x.1 = k) =
      transcript act (es.filter fun e => key e = k) (f k)
  | [], _ => rfl
  | e :: es, f => by
    rw [transcript, List.filter_cons, transcript_onKey k es]
    by_cases he : key e = k
    · subst he
      simp [onKey, transcript]
    · simp [onKey, he, Ne.symm he]

theorem final_onKey (k : K) : ∀ (es : List E) (f : K → V),
    final (onKey key act) es f k = final act (es.filter fun e => key e = k) (f k)
  | [], _ => rfl
  | e :: es, f => by
    rw [final, final_onKey k es]
    by_cases he : key e = k
    · subst he
      simp [onKey, final]
    · simp [onKey, he, Ne.symm he]

end Keys

end UmbraDB.Lib.Transcripts
