import Mathlib.Data.List.Nodup
import Mathlib.Logic.Relation
import Mathlib.Order.Basic
import Xv6.Program
import Xv6.Transition

/-!
**Interleaved threads and their wait-for graph.**

Any number of threads run programs over one shared state. A thread that is not in
a call may start one; a thread in a call takes its next step, unless that is to
acquire a lock somebody holds: then it waits.

`Rely` is the rely-guarantee rule, with auxiliary state `γ`: `Safe` says that a program, whatever
the other threads do within `frame`, itself keeps what their frames allow and every lock it asks
for satisfies `ok`.
-/

namespace Program

open Transition Function

variable {P σ γ W L κ : Type}

/-! ### Configurations -/

structure Conf (P σ W L κ : Type) where
  shared : σ
  owner : L → Option P
  /-- The call a thread is in. -/
  call : P → Option κ
  prog : P → Prog σ W L Unit

inductive Act (P κ : Type) where
  | call (p : P) (c : κ)
  | run (p : P)

section

variable [DecidableEq P] [DecidableEq L]

/-- One step of thread `p`; `body p c` is the program of call `c`, allowed if `may`. -/
def Conf.step (body : P → κ → Prog σ W L Unit) (may : σ → P → κ → Bool) (x : Conf P σ W L κ) :
    Act P κ → Option (Conf P σ W L κ)
  | .call p c =>
      match x.call p with
      | none =>
          if may x.shared p c then
            some { x with
              call := update x.call p (some c)
              prog := update x.prog p (body p c) }
          else none
      | some _ => none
  | .run p =>
      match x.call p, x.prog p with
      | none, _ => none
      | some _, .ret _ => some { x with call := update x.call p none }
      | some _, .panic _ => none
      | some _, .step f k =>
          some { x with
            shared := f x.shared
            prog := update x.prog p (k x.shared) }
      | some _, .acquire _ l k =>
          match x.owner l with
          | none =>
              some { x with
                owner := update x.owner l (some p)
                prog := update x.prog p k }
          | some _ => none
      | some _, .release l k =>
          some { x with
            owner := update x.owner l none
            prog := update x.prog p k }

/-- Everybody idle, no lock held. -/
def Conf.idle (s : σ) : Conf P σ W L κ where
  shared := s
  owner _ := none
  call _ := none
  prog _ := .ret ()

def threads (init : σ → Prop) (body : P → κ → Prog σ W L Unit) (may : σ → P → κ → Bool) :
    System (Conf P σ W L κ) (Act P κ) where
  init x := ∃ s, init s ∧ x = Conf.idle s
  step := Conf.step body may

variable {body : P → κ → Prog σ W L Unit} {may : σ → P → κ → Bool} {x x' : Conf P σ W L κ}
  {a : Act P κ}

/-- **Inversion**: the moves of a configuration, with their guards. -/
inductive Moved (body : P → κ → Prog σ W L Unit) (may : σ → P → κ → Bool)
    (x : Conf P σ W L κ) : Act P κ → Conf P σ W L κ → Prop where
  | call (p : P) (c : κ) : x.call p = none → may x.shared p c = true →
      Moved body may x (.call p c) { x with
        call := update x.call p (some c)
        prog := update x.prog p (body p c) }
  | ret (p : P) (c : κ) (u : Unit) : x.call p = some c → x.prog p = .ret u →
      Moved body may x (.run p) { x with call := update x.call p none }
  | step (p : P) (c : κ) (f : σ → σ) (k : σ → Prog σ W L Unit) : x.call p = some c →
      x.prog p = .step f k →
      Moved body may x (.run p) { x with
        shared := f x.shared
        prog := update x.prog p (k x.shared) }
  | acquire (p : P) (c : κ) (w : W) (l : L) (k : Prog σ W L Unit) : x.call p = some c →
      x.prog p = .acquire w l k → x.owner l = none →
      Moved body may x (.run p) { x with
        owner := update x.owner l (some p)
        prog := update x.prog p k }
  | release (p : P) (c : κ) (l : L) (k : Prog σ W L Unit) : x.call p = some c →
      x.prog p = .release l k →
      Moved body may x (.run p) { x with
        owner := update x.owner l none
        prog := update x.prog p k }

theorem moved_of_step (h : x.step body may a = some x') : Moved body may x a x' := by
  cases a with
  | call p c =>
    simp only [Conf.step] at h
    split at h
    next hcall =>
      split at h
      next hmay => cases h; exact .call p c hcall hmay
      · cases h
    · cases h
  | run p =>
    simp only [Conf.step] at h
    split at h
    · cases h
    next c u hcall hprog => cases h; exact .ret p c u hcall hprog
    · cases h
    next c f k hcall hprog => cases h; exact .step p c f k hcall hprog
    next c w l k hcall hprog =>
      split at h
      next hfree => cases h; exact .acquire p c w l k hcall hprog hfree
      · cases h
    next c l k hcall hprog => cases h; exact .release p c l k hcall hprog

theorem guaranteed_step {G : σ → σ → Prop} (hrefl : ∀ s, G s s)
    (hbody : ∀ p c, Guarantees G (body p c)) {init : σ → Prop}
    {ok : Conf P σ W L κ → Act P κ → Prop} (hx : (threads init body may).Reachable ok x)
    (hs : x.step body may a = some x') : G x.shared x'.shared := by
  have hall : ∀ p, Guarantees G (x.prog p) := by
    refine hx.invariant (I := fun x => ∀ p, Guarantees G (x.prog p)) ?_ ?_
    · rintro _ ⟨s, -, rfl⟩ p
      trivial
    intro x a x' ih _ hs
    have hupdate : ∀ p m, Guarantees G m → ∀ q, Guarantees G (update x.prog p m q) := by
      intro p m hm q
      by_cases hq : q = p
      · subst hq; simpa using hm
      · simpa [hq] using ih q
    have hnext : ∀ p m, x.prog p = m → Guarantees G m := fun p m heq => heq ▸ ih p
    cases moved_of_step hs with
    | call p c => exact hupdate p _ (hbody p c)
    | ret => exact ih
    | step p c f k hcall hprog => exact hupdate p _ (hnext p _ hprog x.shared).2
    | acquire p c w l k hcall hprog => exact hupdate p k (hnext p (.acquire w l k) hprog)
    | release p c l k hcall hprog => exact hupdate p k (hnext p (.release l k) hprog)
  cases moved_of_step hs with
  | call | ret | acquire | release => exact hrefl _
  | step p c f k hcall hprog =>
    have hp := hall p
    rw [hprog] at hp
    exact (hp x.shared).1

end

/-! ### Waiting -/

/-- Thread `p`, in a call, is about to acquire `l` from `w`. -/
def Conf.Asks (x : Conf P σ W L κ) (p : P) (w : W) (l : L) : Prop :=
  x.call p ≠ none ∧ ∃ k, x.prog p = .acquire w l k

/-- Thread `p` waits for a lock that `q` holds. -/
def Conf.WaitsFor (x : Conf P σ W L κ) (p q : P) : Prop :=
  ∃ w l, x.Asks p w l ∧ x.owner l = some q

/-- The lock the program is about to acquire. -/
def takes : Prog σ W L Unit → Option L
  | .acquire _ l _ => some l
  | _ => none

/-- The lock the program is about to release. -/
def gives : Prog σ W L Unit → Option L
  | .release l _ => some l
  | _ => none

/-- The program of thread `p` behind its next step. -/
def Conf.next (x : Conf P σ W L κ) (p : P) : Prog σ W L Unit :=
  match x.prog p with
  | .step _ k => k x.shared
  | .acquire _ _ k | .release _ k => k
  | m => m

/-- A step of thread `p` inside its call, as far as the locks go. -/
structure Ran [DecidableEq P] (x : Conf P σ W L κ) (p : P) (x' : Conf P σ W L κ) : Prop where
  call : x'.call = x.call
  prog : x'.prog = update x.prog p (x.next p)
  owner : ∀ {l q}, x'.owner l = some q → x.owner l = some q ∨ q = p ∧ takes (x.prog p) = some l
  free : ∀ {l}, x.owner l = none → takes (x.prog p) ≠ some l → x'.owner l = none
  gave : ∀ {l}, gives (x.prog p) = some l → x'.owner l = none

theorem ran_of_step [DecidableEq P] [DecidableEq L] {body : P → κ → Prog σ W L Unit}
    {may : σ → P → κ → Bool} {x x' : Conf P σ W L κ} {p : P}
    (h : x.step body may (.run p) = some x') :
    x' = { x with call := update x.call p none } ∨ Ran x p x' := by
  cases moved_of_step h with
  | ret => exact .inl rfl
  | step p c f k hcall hprog =>
    refine .inr ⟨rfl, by rw [Conf.next, hprog], .inl, fun hfree _ => hfree, ?_⟩
    rw [hprog]
    exact nofun
  | acquire p c w l k hcall hprog hfree =>
    refine .inr ⟨rfl, by rw [Conf.next, hprog], fun {l' q} hq => ?_, fun {l'} hfree' hl => ?_, ?_⟩
    · by_cases hl : l' = l
      · simp only [hl, update_self] at hq ⊢
        exact .inr ⟨(Option.some.inj hq).symm, by rw [hprog]; rfl⟩
      · simp only [update_of_ne hl] at hq
        exact .inl hq
    · have hne : l' ≠ l := by
        rintro rfl
        exact hl (by rw [hprog]; rfl)
      simpa only [update_of_ne hne] using hfree'
    · rw [hprog]
      exact nofun
  | release p c l k hcall hprog =>
    have howner : ∀ l', update x.owner l none l' = if l' = l then none else x.owner l' :=
      update_apply x.owner l none
    refine .inr ⟨rfl, by rw [Conf.next, hprog], fun {l' q} hq => ?_, fun {l'} hfree _ => ?_, ?_⟩
    · simp only [howner] at hq
      exact .inl (Option.ite_none_left_eq_some.mp hq).2
    · simp only [howner, hfree, ite_self]
    · rw [hprog]
      rintro _ ⟨⟩
      exact update_self ..

theorem Conf.waitsFor_of_takes {x : Conf P σ W L κ} {p q : P} {l : L}
    (hcall : (x.call p).isSome = true) (htakes : takes (x.prog p) = some l)
    (howner : x.owner l = some q) : x.WaitsFor p q := by
  cases hprog : x.prog p with
  | acquire w l' k =>
    rw [hprog] at htakes
    cases htakes
    exact ⟨w, l, ⟨Option.isSome_iff_ne_none.mp hcall, k, hprog⟩, howner⟩
  | _ => rw [hprog] at htakes; cases htakes

theorem next_on_cycle {r : P → P → Prop} {p : P} (h : Relation.TransGen r p p) :
    ∃ q, r p q ∧ Relation.TransGen r q q := by
  obtain ⟨q, hpq, hqp⟩ := Relation.TransGen.head'_iff.mp h
  exact ⟨q, hpq, Relation.TransGen.tail' hqp hpq⟩

/-- **No cycle**, if every edge into a thread on a cycle goes up in some order. -/
theorem acyclic_of_rank {ρ : Type} [Preorder ρ] {r : P → P → Prop} (rank : P → ρ)
    (h : ∀ p q, r p q → Relation.TransGen r q q → rank p < rank q) (p : P) :
    ¬ Relation.TransGen r p p := by
  have hup : ∀ q, Relation.TransGen r p q → Relation.ReflTransGen r q p → rank p < rank q := by
    intro q hpq
    induction hpq with
    | single hedge =>
      intro hback
      exact h _ _ hedge (Relation.TransGen.tail' hback hedge)
    | tail hpb hedge ih =>
      intro hback
      have hb := ih (Relation.ReflTransGen.head hedge hback)
      have hcycle := Relation.TransGen.tail' (hback.trans hpb.to_reflTransGen) hedge
      exact hb.trans (h _ _ hedge hcycle)
  intro hcycle
  exact lt_irrefl _ (hup p hcycle Relation.ReflTransGen.refl)

/-! ### Rely and guarantee -/

/-- What the threads of a system promise each other. -/
structure Rely (P σ γ W L κ : Type) where
  inv : σ → γ → Prop
  /-- What a thread with these locks may see the others do. -/
  frame : P → List L → σ → γ → σ → γ → Prop
  /-- What a thread in a call owes when it asks for a lock while it holds these. -/
  ok : κ → P → W → L → List L → σ → γ → Prop
  /-- What holds of a thread between calls. -/
  idle : P → σ → γ → Prop
  refl : ∀ p held s g, frame p held s g s g
  trans : ∀ {p held s g s' g' s'' g''}, frame p held s g s' g' →
    frame p held s' g' s'' g'' → frame p held s g s'' g''
  idle_frame : ∀ {p s g s' g'}, idle p s g → frame p [] s g s' g' → idle p s' g'

namespace Rely

variable (R : Rely P σ γ W L κ)

/-- Thread `p`, which holds `held`, may take the state from `s g` to `s' g'`. -/
def Allowed (p : P) (held : List L) (s : σ) (g : γ) (s' : σ) (g' : γ) : Prop :=
  R.inv s' g' ∧ ∀ q held', q ≠ p → held.Disjoint held' → R.frame q held' s g s' g'

/-- What holds in every state to which the others may lead. -/
def Later (p : P) (held : List L) (s : σ) (g : γ) (A : σ → γ → Prop) : Prop :=
  ∀ s' g', R.inv s' g' → R.frame p held s g s' g' → A s' g'

/-- The program of thread `p`, in call `c`, is safe from `s g` on and ends in `Q`. -/
def Safe [DecidableEq L] (c : κ) (p : P) {α : Type} :
    Prog σ W L α → (α → List L → σ → γ → Prop) → List L → σ → γ → Prop
  | .ret a, Q, held, s, g => R.Later p held s g (Q a held)
  | .panic _, _, _, _, _ => True
  | .step f k, Q, held, s, g => R.Later p held s g fun s' g' =>
      ∃ g'', R.Allowed p held s' g' (f s') g'' ∧ Safe c p (k s') Q held (f s') g''
  | .acquire w l k, Q, held, s, g => R.Later p held s g fun s' g' =>
      R.ok c p w l held s' g' ∧ (l ∉ held → Safe c p k Q (l :: held) s' g')
  | .release l k, Q, held, s, g => R.Later p held s g fun s' g' =>
      l ∈ held ∧ Safe c p k Q (held.erase l) s' g'

section

variable {R} [DecidableEq L] {c : κ} {p : P} {α β : Type} {held : List L} {s s' : σ} {g g' : γ}
  {m : Prog σ W L α} {Q : α → List L → σ → γ → Prop}

omit [DecidableEq L] in
theorem Allowed.refl (hinv : R.inv s g) : R.Allowed p held s g s g :=
  ⟨hinv, fun q held' _ _ => R.refl q held' s g⟩

omit [DecidableEq L] in
theorem Allowed.trans {s'' : σ} {g'' : γ} (h : R.Allowed p held s g s' g')
    (h' : R.Allowed p held s' g' s'' g'') : R.Allowed p held s g s'' g'' :=
  ⟨h'.1, fun q held' hq hdisj => R.trans (h.2 q held' hq hdisj) (h'.2 q held' hq hdisj)⟩

theorem Safe.frame (h : R.Safe c p m Q held s g) (hf : R.frame p held s g s' g') :
    R.Safe c p m Q held s' g' := by
  cases m with
  | ret | step | acquire | release => exact fun s'' g'' hinv hf' => h s'' g'' hinv (R.trans hf hf')
  | panic => trivial

theorem Safe.bind {f : α → Prog σ W L β} {Q' : β → List L → σ → γ → Prop}
    (h : R.Safe c p m Q held s g) (hinv : R.inv s g)
    (hf : ∀ a held s g, R.inv s g → Q a held s g → R.Safe c p (f a) Q' held s g) :
    R.Safe c p (m >>= f) Q' held s g := by
  induction m generalizing held s g with
  | ret a => exact hf a held s g hinv (h s g hinv (R.refl p held s g))
  | panic => trivial
  | step f' k ih =>
    intro s' g' hinv' hframe
    obtain ⟨g'', hallowed, hsafe⟩ := h s' g' hinv' hframe
    exact ⟨g'', hallowed, ih s' hsafe hallowed.1⟩
  | acquire w l k ih =>
    intro s' g' hinv' hframe
    obtain ⟨hok, hsafe⟩ := h s' g' hinv' hframe
    exact ⟨hok, fun hl => ih (hsafe hl) hinv'⟩
  | release l k ih =>
    intro s' g' hinv' hframe
    obtain ⟨hl, hsafe⟩ := h s' g' hinv' hframe
    exact ⟨hl, ih hsafe hinv'⟩

theorem Safe.mono {Q' : α → List L → σ → γ → Prop} (h : R.Safe c p m Q held s g)
    (hQ : ∀ a held s g, R.inv s g → Q a held s g → Q' a held s g) : R.Safe c p m Q' held s g := by
  induction m generalizing held s g with
  | ret a => exact fun s' g' hinv hf => hQ a held s' g' hinv (h s' g' hinv hf)
  | panic => trivial
  | step f k ih =>
    intro s' g' hinv hf
    obtain ⟨g'', hallowed, hsafe⟩ := h s' g' hinv hf
    exact ⟨g'', hallowed, ih s' hsafe⟩
  | acquire w l k ih =>
    intro s' g' hinv hf
    obtain ⟨hok, hsafe⟩ := h s' g' hinv hf
    exact ⟨hok, fun hl => ih (hsafe hl)⟩
  | release l k ih =>
    intro s' g' hinv hf
    obtain ⟨hl, hsafe⟩ := h s' g' hinv hf
    exact ⟨hl, ih hsafe⟩

theorem safe_pure {a : α} (h : R.Later p held s g (Q a held)) :
    R.Safe c p (pure a : Prog σ W L α) Q held s g := h

theorem safe_atomic {f : σ → Except String (α × σ)}
    (h : R.Later p held s g fun s' g' => ∀ a s'', f s' = .ok (a, s'') →
      ∃ g'', R.Allowed p held s' g' s'' g'' ∧ R.Later p held s'' g'' (Q a held)) :
    R.Safe c p (atomic f : Prog σ W L α) Q held s g := by
  intro s' g' hinv hframe
  rcases hf : f s' with msg | ⟨a, s''⟩
  · simp only [hf]
    exact ⟨g', .refl hinv, trivial⟩
  · simp only [hf]
    exact h s' g' hinv hframe a s'' hf

theorem safe_reads {f : σ → α}
    (h : R.Later p held s g fun s' g' => R.Later p held s' g' (Q (f s') held)) :
    R.Safe c p (reads f : Prog σ W L α) Q held s g :=
  fun s' g' hinv hframe => ⟨g', .refl hinv, h s' g' hinv hframe⟩

theorem safe_modify {f : σ → σ} {Q : Unit → List L → σ → γ → Prop}
    (h : R.Later p held s g fun s' g' =>
      ∃ g'', R.Allowed p held s' g' (f s') g'' ∧ R.Later p held (f s') g'' (Q () held)) :
    R.Safe c p (modify f : Prog σ W L Unit) Q held s g :=
  h

theorem safe_acquire {w : W} {l : L} {Q : Unit → List L → σ → γ → Prop}
    (h : R.Later p held s g fun s' g' => R.ok c p w l held s' g' ∧
      (l ∉ held → R.Later p (l :: held) s' g' (Q () (l :: held)))) :
    R.Safe c p (acquire w l : Prog σ W L Unit) Q held s g :=
  h

theorem safe_release {l : L} {Q : Unit → List L → σ → γ → Prop} (hl : l ∈ held)
    (h : R.Later p held s g fun s' g' =>
      R.Later p (held.erase l) s' g' (Q () (held.erase l))) :
    R.Safe c p (release l : Prog σ W L Unit) Q held s g :=
  fun s' g' hinv hframe => ⟨hl, h s' g' hinv hframe⟩

end

/-! ### Soundness -/

/-- A finished call holds nothing. -/
def Done (p : P) (_ : Unit) (held : List L) (s : σ) (g : γ) : Prop := held = [] ∧ R.idle p s g

variable [DecidableEq L] {owner : L → Option P}

/-- Where thread `p` stands: between calls, or safely inside one. -/
def Stands (x : Conf P σ W L κ) (g : γ) (p : P) (held : List L) : Prop :=
  (∀ l, x.owner l = some p ↔ l ∈ held) ∧ held.Nodup ∧
    match x.call p with
    | none => held = [] ∧ R.idle p x.shared g
    | some c => R.Safe c p (x.prog p) (R.Done p) held x.shared g

/-- A configuration all of whose threads stand well. -/
def Covered (x : Conf P σ W L κ) : Prop :=
  ∃ g, R.inv x.shared g ∧ ∀ p, ∃ held, R.Stands x g p held

variable {R} {x x' : Conf P σ W L κ} {g g' : γ} {p q : P} {held held' : List L}

theorem Stands.disjoint (h : R.Stands x g p held) (h' : R.Stands x g q held') (hpq : q ≠ p) :
    held.Disjoint held' := by
  intro l hl hl'
  have hp := (h.1 l).mpr hl
  have hq := (h'.1 l).mpr hl'
  rw [hp] at hq
  exact hpq (Option.some.inj hq).symm

theorem Stands.other (h : R.Stands x g q held)
    (howner : ∀ l, x'.owner l = some q ↔ x.owner l = some q) (hcall : x'.call q = x.call q)
    (hprog : x'.prog q = x.prog q) (hframe : R.frame q held x.shared g x'.shared g') :
    R.Stands x' g' q held := by
  obtain ⟨hown, hnodup, hstand⟩ := h
  refine ⟨fun l => (howner l).trans (hown l), hnodup, ?_⟩
  rw [hcall]
  rcases hc : x.call q with _ | c
  · rw [hc] at hstand
    obtain ⟨hempty, hidle⟩ := hstand
    rw [hempty] at hframe
    exact ⟨hempty, R.idle_frame hidle hframe⟩
  · rw [hc] at hstand
    rw [hprog]
    exact hstand.frame hframe

/-! The owners after a lock operation, seen by the thread and by the others. -/

theorem own_acquire (hown : ∀ l, owner l = some p ↔ l ∈ held) (l l' : L) :
    update owner l (some p) l' = some p ↔ l' ∈ l :: held := by
  by_cases hl' : l' = l
  · simp [hl']
  · simpa [hl'] using hown l'

theorem own_release (hown : ∀ l, owner l = some p ↔ l ∈ held) (hnodup : held.Nodup) (l l' : L) :
    update owner l none l' = some p ↔ l' ∈ held.erase l := by
  rw [hnodup.mem_erase_iff]
  by_cases hl' : l' = l
  · simp [hl']
  · simpa [hl'] using hown l'

theorem own_other {o : Option P} {l : L} (hl : owner l ≠ some q) (ho : o ≠ some q) (l' : L) :
    update owner l o l' = some q ↔ owner l' = some q := by
  by_cases hl' : l' = l
  · subst hl'
    simp [hl, ho]
  · simp [hl']

theorem Stands.safe {c : κ} {m : Prog σ W L Unit} (h : R.Stands x g p held)
    (hcall : x.call p = some c) (hprog : x.prog p = m) :
    R.Safe c p m (R.Done p) held x.shared g := by
  obtain ⟨-, -, hstand⟩ := h
  rw [hcall] at hstand
  exact hprog ▸ hstand

/-- One thread moves, and the others stand as before. -/
theorem covered_of_self (hinv : R.inv x'.shared g') (hall : ∀ q, ∃ held, R.Stands x g q held)
    (hself : ∃ held, R.Stands x' g' p held)
    (hother : ∀ q held, q ≠ p → R.Stands x g q held → R.Stands x' g' q held) : R.Covered x' := by
  refine ⟨g', hinv, fun q => ?_⟩
  by_cases hq : q = p
  · exact hq ▸ hself
  · obtain ⟨held, hstands⟩ := hall q
    exact ⟨held, hother q held hq hstands⟩

variable [DecidableEq P] {body : P → κ → Prog σ W L Unit} {may : σ → P → κ → Bool}

/-- **One step keeps every thread standing**, if every call is safe from its start. -/
theorem Covered.step (hbody : ∀ p c s g, R.inv s g → R.idle p s g → may s p c = true →
      R.Safe c p (body p c) (R.Done p) [] s g)
    {a : Act P κ} (h : R.Covered x) (hs : x.step body may a = some x') : R.Covered x' := by
  obtain ⟨g, hinv, hall⟩ := h
  have hrefl : ∀ q held, R.frame q held x.shared g x.shared g := fun q held => R.refl q held _ g
  cases moved_of_step hs with
  | call p c hcall hmay =>
    obtain ⟨held, hown, hnodup, hstand⟩ := hall p
    rw [hcall] at hstand
    obtain ⟨rfl, hidle⟩ := hstand
    refine covered_of_self hinv hall ⟨[], hown, hnodup, ?_⟩ fun q held hq hstands => ?_
    · simpa using hbody p c x.shared g hinv hidle hmay
    · exact hstands.other (fun _ => Iff.rfl) (by simp [hq]) (by simp [hq]) (hrefl q held)
  | ret p c u hcall hprog =>
    obtain ⟨held, hstands⟩ := hall p
    have hdone := hstands.safe hcall hprog x.shared g hinv (hrefl p held)
    refine covered_of_self hinv hall ⟨held, hstands.1, hstands.2.1, ?_⟩ fun q held hq hstands => ?_
    · simp only [update_self]
      exact hdone
    · exact hstands.other (fun _ => Iff.rfl) (by simp [hq]) rfl (hrefl q held)
  | step p c f k hcall hprog =>
    obtain ⟨held, hstands⟩ := hall p
    obtain ⟨g', ⟨hinv', hallowed⟩, hsafe⟩ :=
      hstands.safe hcall hprog x.shared g hinv (hrefl p held)
    refine covered_of_self hinv' hall ⟨held, hstands.1, hstands.2.1, ?_⟩ fun q heldq hq hq' => ?_
    · simp only [hcall, update_self]
      exact hsafe
    · exact hq'.other (fun _ => Iff.rfl) rfl (by simp [hq])
        (hallowed q heldq hq (hstands.disjoint hq' hq))
  | acquire p c w l k hcall hprog hfree =>
    obtain ⟨held, hstands⟩ := hall p
    obtain ⟨hown, hnodup, -⟩ := id hstands
    have hl : l ∉ held := by
      intro hmem
      rw [(hown l).mpr hmem] at hfree
      cases hfree
    have hsafe := (hstands.safe hcall hprog x.shared g hinv (hrefl p held)).2 hl
    refine covered_of_self hinv hall
      ⟨l :: held, own_acquire hown l, List.nodup_cons.mpr ⟨hl, hnodup⟩, ?_⟩ fun q held hq hq' => ?_
    · simp only [hcall, update_self]
      exact hsafe
    · refine hq'.other (own_other ?_ ?_) rfl (by simp [hq]) (hrefl q held)
      · rw [hfree]; simp
      · simpa using Ne.symm hq
  | release p c l k hcall hprog =>
    obtain ⟨held, hstands⟩ := hall p
    obtain ⟨hown, hnodup, -⟩ := id hstands
    obtain ⟨hl, hsafe⟩ := hstands.safe hcall hprog x.shared g hinv (hrefl p held)
    refine covered_of_self hinv hall
      ⟨held.erase l, own_release hown hnodup l, hnodup.erase l, ?_⟩ fun q held hq hq' => ?_
    · simp only [hcall, update_self]
      exact hsafe
    · refine hq'.other (own_other ?_ (by simp)) rfl (by simp [hq]) (hrefl q held)
      rw [(hown l).mpr hl]
      simpa using Ne.symm hq

theorem covered_of_reachable (hbody : ∀ p c s g, R.inv s g → R.idle p s g → may s p c = true →
      R.Safe c p (body p c) (R.Done p) [] s g)
    {init : σ → Prop} (hinit : ∀ s, init s → ∃ g, R.inv s g ∧ ∀ p, R.idle p s g)
    {ok : Conf P σ W L κ → Act P κ → Prop} (h : (threads init body may).Reachable ok x) :
    R.Covered x := by
  refine h.invariant (fun x hx => ?_) (fun x a x' hx _ hs => hx.step hbody hs)
  obtain ⟨s, hs, rfl⟩ := hx
  obtain ⟨g, hinv, hidle⟩ := hinit s hs
  exact ⟨g, hinv, fun p => ⟨[], by simp [Conf.idle], List.nodup_nil, rfl, hidle p⟩⟩

omit [DecidableEq P] in
theorem Stands.ok {w : W} {l : L} {c : κ} (h : R.Stands x g p held) (hinv : R.inv x.shared g)
    (hcall : x.call p = some c) {k : Prog σ W L Unit} (hprog : x.prog p = .acquire w l k) :
    R.ok c p w l held x.shared g :=
  (h.safe hcall hprog x.shared g hinv (R.refl p held x.shared g)).1

end Rely

end Program
