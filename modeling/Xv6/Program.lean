import Mathlib.Init

/-!
**Programs over a shared state with locks.**

A program is a tree of atomic steps on the shared state, lock operations and a
result. The same program is read in two ways:

  * alone, from start to end (`exec`), with weakest preconditions `wp` to reason
    about it;
  * as one of many threads, interleaved step by step (`Threads`, next file).

Acquiring carries a tag for the place it is done from; no execution looks at it.
-/

namespace Program

/-- Programs on a shared state `σ` with locks `L`, whose acquisitions are tagged by `W`. -/
inductive Prog (σ W L α : Type) where
  | ret (a : α)
  | panic (msg : String)
  /-- Change the state by `f` and go on as the state before tells. -/
  | step (f : σ → σ) (k : σ → Prog σ W L α)
  | acquire (w : W) (l : L) (k : Prog σ W L α)
  | release (l : L) (k : Prog σ W L α)

variable {σ W L α β : Type}

namespace Prog

def bind : Prog σ W L α → (α → Prog σ W L β) → Prog σ W L β
  | ret a, g => g a
  | panic msg, _ => panic msg
  | step f k, g => step f fun s => bind (k s) g
  | acquire w l k, g => acquire w l (bind k g)
  | release l k, g => release l (bind k g)

instance : Monad (Prog σ W L) where
  pure := ret
  bind := bind

end Prog

/-! ### Primitive programs -/

/-- An atomic section that may panic. -/
def atomic (f : σ → Except String (α × σ)) : Prog σ W L α :=
  .step (fun s => match f s with | .ok r => r.2 | .error _ => s)
    fun s => match f s with | .ok r => .ret r.1 | .error msg => .panic msg

def reads (f : σ → α) : Prog σ W L α := .step id fun s => .ret (f s)

def modify (f : σ → σ) : Prog σ W L Unit := .step f fun _ => .ret ()

def acquire (w : W) (l : L) : Prog σ W L Unit := .acquire w l (.ret ())

def release (l : L) : Prog σ W L Unit := .release l (.ret ())

def onlyIf (b : Prop) [Decidable b] (m : Prog σ W L Unit) : Prog σ W L Unit :=
  if b then m else .ret ()

/-- A program that takes no locks, where locks are around. -/
def Prog.lift : Prog σ Empty Empty α → Prog σ W L α
  | ret a => ret a
  | panic msg => panic msg
  | step f k => step f fun s => lift (k s)
  | acquire w _ _ => w.elim
  | release l _ => l.elim

/-! ### Running alone -/

inductive Outcome (σ α : Type) where
  | done (a : α) (s : σ)
  | panic (msg : String)
  /-- The program waits for a lock it holds. -/
  | stuck

def Outcome.isPanic {σ α : Type} (msg : String) : Outcome σ α → Bool
  | .panic msg' => msg' == msg
  | _ => false

theorem Outcome.isPanic_iff {msg : String} {o : Outcome σ α} :
    o.isPanic msg = true ↔ o = .panic msg := by
  cases o with
  | done | panic | stuck => simp [isPanic]

/-- Does it end, and so? -/
def Outcome.ends {σ α : Type} (ok : α → σ → Bool) : Outcome σ α → Bool
  | .done a s => ok a s
  | _ => false

theorem Outcome.ends_iff {ok : α → σ → Bool} {o : Outcome σ α} :
    o.ends ok = true ↔ ∃ a s, o = .done a s ∧ ok a s = true := by
  cases o with
  | done a s =>
    constructor
    · exact fun h => ⟨a, s, rfl, h⟩
    · rintro ⟨a', s', heq, h⟩
      cases heq
      exact h
  | panic | stuck => simp [ends]

/-- Run a program that holds the locks `held`, with nobody else running. -/
def exec [DecidableEq L] : Prog σ W L α → List L → σ → Outcome σ α
  | .ret a, _, s => .done a s
  | .panic msg, _, _ => .panic msg
  | .step f k, held, s => exec (k s) held (f s)
  | .acquire _ l k, held, s => if l ∈ held then .stuck else exec k (l :: held) s
  | .release l k, held, s => exec k (held.erase l) s

/-- From `s` the program ends with `Q`, panics with a message in `E`, or gets stuck. -/
def wp (E : String → Prop) : Prog σ W L α → (α → σ → Prop) → σ → Prop
  | .ret a, Q, s => Q a s
  | .panic msg, _, _ => E msg
  | .step f k, Q, s => wp E (k s) Q (f s)
  | .acquire _ _ k, Q, s => wp E k Q s
  | .release _ k, Q, s => wp E k Q s

section

variable {E : String → Prop} {Q Q' : α → σ → Prop} {s : σ} {p : Prog σ W L α} {g : α → Prog σ W L β}

/-- What `wp` promises of an outcome. -/
def Meets (E : String → Prop) (Q : α → σ → Prop) : Outcome σ α → Prop
  | .done a s => Q a s
  | .panic msg => E msg
  | .stuck => True

theorem meets_exec [DecidableEq L] {held : List L} (h : wp E p Q s) :
    Meets E Q (exec p held s) := by
  induction p generalizing held s with
  | ret | panic => exact h
  | step f k ih => exact ih s h
  | acquire w l k ih =>
    simp only [exec]
    split
    · trivial
    · exact ih h
  | release l k ih => exact ih h

theorem post_of_done [DecidableEq L] {held : List L} {a : α} {s' : σ} (h : wp E p Q s)
    (hdone : exec p held s = .done a s') : Q a s' := by
  have hmeets : Meets E Q (exec p held s) := meets_exec h
  rw [hdone] at hmeets
  exact hmeets

theorem harmless_of_panic [DecidableEq L] {held : List L} {msg : String} (h : wp E p Q s)
    (hpanic : exec p held s = .panic msg) : E msg := by
  have hmeets : Meets E Q (exec p held s) := meets_exec h
  rw [hpanic] at hmeets
  exact hmeets

theorem wp_mono (h : wp E p Q s) (hQ : ∀ a s, Q a s → Q' a s) : wp E p Q' s := by
  induction p generalizing s with
  | ret a => exact hQ a s h
  | panic => exact h
  | step f k ih => exact ih s h
  | acquire w l k ih | release l k ih => exact ih h

theorem wp_imp {E' : String → Prop} (h : wp E' p Q' s) (h' : wp E p (fun a s => Q' a s → Q a s) s) :
    wp E p Q s := by
  induction p generalizing s with
  | ret => exact h' h
  | panic => exact h'
  | step f k ih => exact ih s h h'
  | acquire w l k ih | release l k ih => exact ih h h'

theorem wp_bind {Q : β → σ → Prop} : wp E (p >>= g) Q s ↔ wp E p (fun a => wp E (g a) Q) s := by
  induction p generalizing s with
  | ret | panic => exact Iff.rfl
  | step f k ih => exact ih s
  | acquire w l k ih | release l k ih => exact ih

theorem wp_true (p : Prog σ W L α) : wp (fun _ => True) p (fun _ _ => True) s := by
  induction p generalizing s with
  | ret | panic => trivial
  | step f k ih => exact ih s
  | acquire w l k ih | release l k ih => exact ih

theorem wp_after {Q : β → σ → Prop} (h : ∀ a s, wp (fun _ => True) (g a) Q s) :
    wp (fun _ => True) (p >>= g) Q s :=
  wp_bind.mpr (wp_mono (wp_true p) fun a s _ => h a s)

@[simp] theorem wp_pure {a : α} : wp E (pure a : Prog σ W L α) Q s ↔ Q a s := Iff.rfl

@[simp] theorem wp_panic {msg : String} : wp E (.panic msg : Prog σ W L α) Q s ↔ E msg := Iff.rfl

@[simp] theorem wp_reads {f : σ → α} : wp E (reads f : Prog σ W L α) Q s ↔ Q (f s) s := Iff.rfl

theorem wp_get {f : σ → α} {Q : β → σ → Prop} :
    wp E (reads f >>= g) Q s ↔ wp E (g (f s)) Q s := Iff.rfl

@[simp] theorem wp_modify {f : σ → σ} {Q : Unit → σ → Prop} :
    wp E (modify f : Prog σ W L Unit) Q s ↔ Q () (f s) := Iff.rfl

@[simp] theorem wp_acquire {w : W} {l : L} {Q : Unit → σ → Prop} :
    wp E (acquire w l : Prog σ W L Unit) Q s ↔ Q () s := Iff.rfl

theorem wp_onlyIf {b : Prop} [Decidable b] {m : Prog σ W L Unit} {Q : Unit → σ → Prop} :
    wp E (onlyIf b m) Q s ↔ (b → wp E m Q s) ∧ (¬ b → Q () s) := by
  by_cases hb : b
  · simp [onlyIf, hb]
  · simp [onlyIf, hb, wp]

theorem wp_atomic {f : σ → Except String (α × σ)} :
    wp E (atomic f : Prog σ W L α) Q s ↔
      (∀ a s', f s = .ok (a, s') → Q a s') ∧ ∀ msg, f s = .error msg → E msg := by
  rcases hf : f s with msg | ⟨a, s'⟩
  · simp [atomic, wp, hf]
  · simp [atomic, wp, hf]

@[simp] theorem wp_lift {p : Prog σ Empty Empty α} :
    wp E (p.lift : Prog σ W L α) Q s ↔ wp E p Q s := by
  induction p generalizing s with
  | ret | panic => exact Iff.rfl
  | step f k ih => exact ih s
  | acquire w => exact w.elim
  | release l => exact l.elim

/-- A program that takes no locks ends, in a result with `Q` or in a panic in `E`. -/
theorem done_or_panic {p : Prog σ Empty Empty α} (h : wp E p Q s) :
    (∃ a s', exec p [] s = .done a s' ∧ Q a s') ∨ ∃ msg, exec p [] s = .panic msg ∧ E msg := by
  induction p generalizing s with
  | ret a => exact .inl ⟨a, s, rfl, h⟩
  | panic msg => exact .inr ⟨msg, rfl, h⟩
  | step f k ih => exact ih s h
  | acquire w => exact w.elim
  | release l => exact l.elim

theorem exec_done {p : Prog σ Empty Empty α} (h : wp (fun _ => False) p Q s) :
    ∃ a s', exec p [] s = .done a s' ∧ Q a s' :=
  (done_or_panic h).resolve_right fun ⟨_, _, hfalse⟩ => hfalse

theorem exec_eq_done {p : Prog σ Empty Empty α} {a : α} {s' : σ}
    (h : wp (fun _ => False) p (fun b t => b = a ∧ t = s') s) : exec p [] s = .done a s' := by
  obtain ⟨_, _, hexec, rfl, rfl⟩ := exec_done h
  exact hexec

end

/-! ### Ending -/

/-- From `s`, with the locks `held`, the program ends, and `Q` holds of its result, of the locks
it holds then and of the state. -/
def Ends [DecidableEq L] : Prog σ W L α → (α → List L → σ → Prop) → List L → σ → Prop
  | .ret a, Q, held, s => Q a held s
  | .panic _, _, _, _ => False
  | .step f k, Q, held, s => Ends (k s) Q held (f s)
  | .acquire _ l k, Q, held, s => l ∉ held ∧ Ends k Q (l :: held) s
  | .release l k, Q, held, s => Ends k Q (held.erase l) s

section

variable [DecidableEq L] {held : List L} {s : σ} {p : Prog σ W L α} {Q : α → List L → σ → Prop}

theorem Ends.exec_done (h : Ends p Q held s) :
    ∃ a held' s', exec p held s = .done a s' ∧ Q a held' s' := by
  induction p generalizing held s with
  | ret a => exact ⟨a, held, s, rfl, h⟩
  | panic => exact h.elim
  | step f k ih => exact ih s h
  | acquire w l k ih =>
    obtain ⟨a, held', s', heq, hQ⟩ := ih h.2
    exact ⟨a, held', s', (if_neg h.1).trans heq, hQ⟩
  | release l k ih => exact ih h

theorem Ends.mono {Q' : α → List L → σ → Prop} (h : Ends p Q held s)
    (hQ : ∀ a held s, Q a held s → Q' a held s) : Ends p Q' held s := by
  induction p generalizing held s with
  | ret a => exact hQ a held s h
  | panic => exact h
  | step f k ih => exact ih s h
  | acquire w l k ih => exact ⟨h.1, ih h.2⟩
  | release l k ih => exact ih h

theorem ends_bind {g : α → Prog σ W L β} {Q : β → List L → σ → Prop} :
    Ends (p >>= g) Q held s ↔ Ends p (fun a => Ends (g a) Q) held s := by
  induction p generalizing held s with
  | ret | panic => exact Iff.rfl
  | step f k ih => exact ih s
  | acquire w l k ih => exact and_congr_right fun _ => ih
  | release l k ih => exact ih

@[simp] theorem ends_reads {f : σ → α} :
    Ends (reads f : Prog σ W L α) Q held s ↔ Q (f s) held s := Iff.rfl

@[simp] theorem ends_modify {f : σ → σ} {Q : Unit → List L → σ → Prop} :
    Ends (modify f : Prog σ W L Unit) Q held s ↔ Q () held (f s) := Iff.rfl

@[simp] theorem ends_acquire {w : W} {l : L} {Q : Unit → List L → σ → Prop} :
    Ends (acquire w l : Prog σ W L Unit) Q held s ↔ l ∉ held ∧ Q () (l :: held) s := Iff.rfl

theorem ends_atomic {f : σ → Except String (α × σ)} {a : α} {s' : σ} (heq : f s = .ok (a, s'))
    (hQ : Q a held s') : Ends (atomic f : Prog σ W L α) Q held s := by
  simpa [atomic, Ends, heq] using hQ

end

/-! ### Guarantees -/

/-- Every step the program may take, from whatever state, is one of `G`. -/
def Guarantees (G : σ → σ → Prop) : Prog σ W L α → Prop
  | .ret _ => True
  | .panic _ => True
  | .step f k => ∀ s, G s (f s) ∧ Guarantees G (k s)
  | .acquire _ _ k => Guarantees G k
  | .release _ k => Guarantees G k

variable {G : σ → σ → Prop}

theorem Guarantees.bind {p : Prog σ W L α} {g : α → Prog σ W L β} (hp : Guarantees G p)
    (hg : ∀ a, Guarantees G (g a)) : Guarantees G (p >>= g) := by
  induction p with
  | ret a => exact hg a
  | panic => trivial
  | step f k ih => exact fun s => ⟨(hp s).1, ih s (hp s).2⟩
  | acquire w l k ih | release l k ih => exact ih hp

theorem guarantees_reads (hrefl : ∀ s, G s s) (f : σ → α) :
    Guarantees G (reads f : Prog σ W L α) := fun s => ⟨hrefl s, trivial⟩

theorem guarantees_atomic (hrefl : ∀ s, G s s) {f : σ → Except String (α × σ)}
    (hf : ∀ s a s', f s = .ok (a, s') → G s s') :
    Guarantees G (atomic f : Prog σ W L α) := by
  intro s
  rcases heq : f s with msg | ⟨a, s'⟩
  · simpa only [heq] using ⟨hrefl s, trivial⟩
  · simpa only [heq] using ⟨hf s a s' heq, trivial⟩

end Program
