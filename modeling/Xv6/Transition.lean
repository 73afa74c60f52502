import Mathlib.Init

/-!
**Labelled transition systems.**

A system is a set of initial states and a partial step function; every choice
the environment makes (who moves, with which argument) is part of the label, so
a run is determined by its list of labels and can be evaluated.

`Reachable ok` is reachability by runs all of whose steps satisfy a side condition
`ok`, a predicate on the state before the step and the label. Reachability with
no condition is `Reachable (fun _ _ => True)`, abbreviated `Reached`.
-/

namespace Transition

-- for the runs of two processes that are written out
instance neZeroTwo : @NeZero Nat .ofOfNat0 2 := ⟨by decide⟩

structure System (S A : Type) where
  init : S → Prop
  step : S → A → Option S

variable {S A : Type} (T : System S A)

namespace System

/-- States reached by runs whose steps all satisfy `ok`. -/
inductive Reachable (ok : S → A → Prop) : S → Prop where
  | init {s : S} : T.init s → Reachable ok s
  | step {s s' : S} {a : A} : Reachable ok s → ok s a → T.step s a = some s' →
      Reachable ok s'

/-- Reachability by arbitrary runs. -/
abbrev Reached : S → Prop := T.Reachable fun _ _ => True

variable {T} {ok : S → A → Prop} {s : S}

theorem Reachable.invariant {I : S → Prop} (hinit : ∀ s, T.init s → I s)
    (hstep : ∀ s a s', I s → ok s a → T.step s a = some s' → I s') (h : T.Reachable ok s) :
    I s := by
  induction h with
  | init h0 => exact hinit _ h0
  | step _ hok hs ih => exact hstep _ _ _ ih hok hs

theorem Reachable.reached (h : T.Reachable ok s) : T.Reached s := by
  induction h with
  | init h0 => exact .init h0
  | step _ _ hs ih => exact .step ih trivial hs

variable (T)

/-- Follow a list of labels, as long as `ok` holds. -/
def run (ok : S → A → Prop) [∀ s a, Decidable (ok s a)] : S → List A → Option S
  | s, [] => some s
  | s, a :: as => if ok s a then (T.step s a).bind fun s' => run ok s' as else none

variable {T}

variable (h : T.Reachable ok s)
include h

theorem Reachable.run [∀ s a, Decidable (ok s a)] :
    ∀ (as : List A) {s' : S}, T.run ok s as = some s' → T.Reachable ok s' := by
  intro as
  induction as generalizing s with
  | nil =>
    intro s' hr
    simp only [System.run, Option.some.injEq] at hr
    exact hr ▸ h
  | cons a as ih =>
    intro s' hr
    simp only [System.run] at hr
    split at hr
    next hok =>
      rcases hstep : T.step s a with _ | s1
      · rw [hstep] at hr; simp at hr
      · rw [hstep] at hr
        exact ih (h.step hok hstep) hr
    · cases hr

theorem Reachable.run_any [∀ s a, Decidable (ok s a)] (as : List A) {P : S → Bool}
    (hP : (T.run ok s as).any P = true) : ∃ s', T.Reachable ok s' ∧ P s' = true := by
  rcases hrun : T.run ok s as with _ | s'
  · rw [hrun] at hP
    cases hP
  · rw [hrun] at hP
    exact ⟨s', h.run as hrun, hP⟩

/-- **A state with `P` is reached**, as running the system shows. -/
theorem Reachable.run_decide [∀ s a, Decidable (ok s a)] (as : List A) {P : S → Prop}
    [DecidablePred P] (hP : (T.run ok s as).any (fun s' => decide (P s')) = true) :
    ∃ s', T.Reachable ok s' ∧ P s' := by
  obtain ⟨s', hs', hdecide⟩ := h.run_any as hP
  exact ⟨s', hs', of_decide_eq_true hdecide⟩

end System

end Transition
