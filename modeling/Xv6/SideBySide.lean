import Xv6.Program

/-!
**Two programs run side by side.**

Two programs that take no locks are alike from two states if both end, in related results and
states, or both panic with the same message. Programs that are alike piece by piece are alike
as a whole (`Alike.andThen`). A program of one field of the state runs on any state as it runs
on that field alone (`exec_zoom`, `wp_zoom`).
-/

namespace Program

variable {σ τ α β γ δ : Type}

/-! ### Running a sequence -/

/-- Go on from where a program has ended. -/
def Outcome.andThen (o : Outcome σ α) (g : α → σ → Outcome σ β) : Outcome σ β :=
  match o with
  | .done a s => g a s
  | .panic msg => .panic msg
  | .stuck => .stuck

theorem exec_bind (p : Prog σ Empty Empty α) (g : α → Prog σ Empty Empty β) (s : σ) :
    exec (p >>= g) [] s = (exec p [] s).andThen fun a s' => exec (g a) [] s' := by
  induction p generalizing s with
  | ret | panic => rfl
  | step f k ih => exact ih s (f s)
  | acquire w => exact w.elim
  | release l => exact l.elim

/-! ### Alike -/

/-- Both end, and `R` relates the results and the states; or both panic alike. -/
inductive Alike (R : α → σ → β → τ → Prop) : Outcome σ α → Outcome τ β → Prop where
  | done {a s b t} : R a s b t → Alike R (.done a s) (.done b t)
  | panic {msg} : Alike R (.panic msg) (.panic msg)

section

variable {R : α → σ → β → τ → Prop}

theorem Alike.andThen {R' : γ → σ → δ → τ → Prop} {o : Outcome σ α} {o' : Outcome τ β}
    {f : α → σ → Outcome σ γ} {g : β → τ → Outcome τ δ} (h : Alike R o o')
    (hR : ∀ a s b t, R a s b t → Alike R' (f a s) (g b t)) :
    Alike R' (o.andThen f) (o'.andThen g) := by
  cases h with
  | done h => exact hR _ _ _ _ h
  | panic => exact .panic

theorem alike_self (p : Prog σ Empty Empty α) (s : σ) :
    Alike (fun a u b u' => exec p [] s = .done a u ∧ a = b ∧ u = u') (exec p [] s)
      (exec p [] s) := by
  rcases done_or_panic (wp_true p) with ⟨a, u, heq, -⟩ | ⟨msg, heq, -⟩
  · rw [heq]
    exact .done ⟨rfl, rfl, rfl⟩
  · rw [heq]
    exact .panic

end

/-! ### A field of the state -/

/-- Run a program on the field that `get` reads and `put` writes. -/
def Prog.zoom (get : τ → σ) (put : σ → τ → τ) : Prog σ Empty Empty α → Prog τ Empty Empty α
  | ret a => ret a
  | panic msg => panic msg
  | step f k => step (fun t => put (f (get t)) t) fun t => zoom get put (k (get t))
  | acquire w _ _ => w.elim
  | release l _ => l.elim

/-- The outcome as one of the whole state. -/
def Outcome.within (put : σ → τ → τ) (t : τ) : Outcome σ α → Outcome τ α
  | .done a s => .done a (put s t)
  | .panic msg => .panic msg
  | .stuck => .stuck

variable {get : τ → σ} {put : σ → τ → τ}

variable (hget : ∀ s t, get (put s t) = s) (hput : ∀ s s' t, put s (put s' t) = put s t)
  (hself : ∀ t, put (get t) t = t) (p : Prog σ Empty Empty α) (t : τ)
include hget hput hself

theorem exec_zoom :
    exec (p.zoom get put) [] t = (exec p [] (get t)).within put t := by
  induction p generalizing t with
  | ret a =>
    change Outcome.done a t = .done a (put (get t) t)
    rw [hself]
  | panic => rfl
  | step f k ih =>
    change exec ((k (get t)).zoom get put) [] (put (f (get t)) t) = _
    rw [ih (get t) (put (f (get t)) t), hget]
    change _ = (exec (k (get t)) [] (f (get t))).within put t
    cases exec (k (get t)) [] (f (get t)) with
    | done a s => exact congrArg (Outcome.done a) (hput s _ t)
    | panic | stuck => rfl
  | acquire w => exact w.elim
  | release l => exact l.elim

theorem wp_zoom {E : String → Prop} {Q : α → τ → Prop} :
    wp E (p.zoom get put) Q t ↔ wp E p (fun a s => Q a (put s t)) (get t) := by
  induction p generalizing t with
  | ret a =>
    change Q a t ↔ Q a (put (get t) t)
    rw [hself]
  | panic => exact Iff.rfl
  | step f k ih =>
    change wp E ((k (get t)).zoom get put) Q (put (f (get t)) t) ↔ _
    rw [ih (get t) (put (f (get t)) t), hget]
    simp only [hput]
    exact Iff.rfl
  | acquire w => exact w.elim
  | release l => exact l.elim

end Program
