import Mathlib.Init

/-!
**Computations that may stop**, as values of `Except`.

`Meets bad Q x` says that `x` does not stop for a reason in `bad` and that what it returns
satisfies `Q`; `Returns Q x` says that it does return. Each has a rule for sequencing, so that
a proof about a function written in `do` follows its text.
-/

namespace Attempt

variable {ε α β : Type} {bad : ε → Prop} {P Q : α → Prop} {R : β → Prop} {x : Except ε α}
  {f : α → Except ε β}

def Meets (bad : ε → Prop) (Q : α → Prop) : Except ε α → Prop
  | .ok a => Q a
  | .error e => ¬ bad e

def Returns (Q : α → Prop) (x : Except ε α) : Prop := ∃ a, x = .ok a ∧ Q a

theorem Meets.bind (h : Meets bad Q x) (hf : ∀ a, Q a → Meets bad R (f a)) :
    Meets bad R (x >>= f) := by
  cases x with
  | ok a => exact hf a h
  | error => exact h

theorem Meets.mono (h : Meets bad P x) (himp : ∀ a, P a → Q a) : Meets bad Q x := by
  cases x with
  | ok a => exact himp a h
  | error => exact h

theorem Returns.bind (h : Returns Q x) (hf : ∀ a, Q a → Returns R (f a)) :
    Returns R (x >>= f) := by
  obtain ⟨a, rfl, hq⟩ := h
  exact hf a hq

end Attempt
