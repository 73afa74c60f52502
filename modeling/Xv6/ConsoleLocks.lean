import Mathlib.Data.Fintype.Basic
import Xv6.Console

/-!
**`ptable.lock` and `cons.lock` are taken in both orders.**

`cps` prints with `ptable.lock` held, and `cprintf` takes `cons.lock`. `consoleintr`
and `consoleread` hold `cons.lock` when they call `wakeup` and `sleep`, which take
`ptable.lock`. Each call by itself respects an order (`locked_body`), so the only
cycles are between a `cps` and one of those two; `cps_deadlocks` runs into one, and there is
none if those two and a `cps` keep apart (`no_deadlock_of_apart`).
-/

namespace Xv6.Console

open Program Function

/-! ### The order within one call -/

/-- May the call ask for `l` while it holds these? -/
def lockOrder (c : Call) (l : Lock) (held : List Lock) : Prop :=
  match c with
  | .cps => l = .ptable ∧ held = [] ∨ l = .cons ∧ held = [.ptable]
  | .consoleintr _ => l = .cons ∧ held = [] ∨ l = .ptable ∧ held = [.cons]
  | .consoleread _ _ _ _ =>
      l = .cons ∧ held = [] ∨ l = .ptable ∧ held = [.cons] ∨ l = .ptable ∧ held = []
  | .cprintf => l = .cons ∧ held = []
  | .consolewrite => l = .cons ∧ held = []

/-- The threads share nothing but the locks here. -/
def order (P : Type) : Rely P State Unit Unit Lock Call where
  inv _ _ := True
  frame _ _ _ _ _ _ := True
  ok c _ _ l held _ _ := lockOrder c l held
  idle _ _ _ := True
  refl _ _ _ _ := trivial
  trans _ _ := trivial
  idle_frame _ _ := trivial

section

variable {P : Type} {c : Call} {α β : Type} {held held' held'' : List Lock}

/-- Run inside `c` with `held`, the program asks in order and ends with `held'`. -/
def Locked (P : Type) (c : Call) (m : Kprog α) (held held' : List Lock) : Prop :=
  ∀ (p : P) (s : State), (order P).Safe c p m (fun _ h _ _ => h = held') held s ()

theorem Locked.bind {m : Kprog α} {f : α → Kprog β} (hm : Locked P c m held held')
    (hf : ∀ a, Locked P c (f a) held' held'') : Locked P c (m >>= f) held held'' := by
  intro p s
  refine Rely.Safe.bind (hm p s) trivial fun a h s' g' _ hh => ?_
  subst hh
  exact hf a p s'

theorem locked_pure (a : α) : Locked P c (pure a : Kprog α) held held :=
  fun _ _ _ _ _ _ => rfl

theorem locked_reads (f : State → α) : Locked P c (reads f : Kprog α) held held :=
  fun _ _ => Rely.safe_reads fun _ _ _ _ _ _ _ _ => rfl

theorem locked_modify (f : State → State) : Locked P c (modify f : Kprog Unit) held held :=
  fun _ _ => Rely.safe_modify fun _ _ _ _ =>
    ⟨(), ⟨trivial, fun _ _ _ _ => trivial⟩, fun _ _ _ _ => rfl⟩

theorem locked_atomic (f : State → Except String (α × State)) :
    Locked P c (atomic f : Kprog α) held held :=
  fun _ _ => Rely.safe_atomic fun _ _ _ _ _ _ _ =>
    ⟨(), ⟨trivial, fun _ _ _ _ => trivial⟩, fun _ _ _ _ => rfl⟩

theorem locked_acquire {l : Lock} (h : lockOrder c l held) :
    Locked P c (acquire () l : Kprog Unit) held (l :: held) :=
  fun _ _ => Rely.safe_acquire fun _ _ _ _ => ⟨h, fun _ _ _ _ _ => rfl⟩

theorem locked_release {l : Lock} (h : l ∈ held) :
    Locked P c (release l : Kprog Unit) held (held.erase l) :=
  fun _ _ => Rely.safe_release h fun _ _ _ _ _ _ _ _ => rfl

theorem locked_release_head {l : Lock} :
    Locked P c (release l : Kprog Unit) (l :: held) held := by
  have hrelease : Locked P c (release l : Kprog Unit) (l :: held) ((l :: held).erase l) :=
    locked_release List.mem_cons_self
  rwa [List.erase_cons_head] at hrelease

theorem locked_onlyIf {b : Prop} [Decidable b] {m : Kprog Unit} (hm : Locked P c m held held) :
    Locked P c (onlyIf b m) held held := by
  unfold onlyIf
  split
  · exact hm
  · exact locked_pure ()

theorem locked_cprintf (h : lockOrder c .cons held) : Locked P c cprintf held held := by
  refine (locked_reads State.locking).bind fun locking => ?_
  cases locking with
  | true => exact (locked_acquire h).bind fun _ => locked_release_head
  | false => exact (locked_pure ()).bind fun _ => locked_pure ()

theorem locked_cpsLines (h : lockOrder c .cons held) :
    ∀ ps, Locked P c (cpsLines ps) held held := by
  intro ps
  induction ps with
  | nil => exact locked_pure ()
  | cons p ps ih =>
    refine (locked_reads _).bind fun st => ?_
    exact (locked_onlyIf (locked_cprintf h)).bind fun _ => ih

theorem locked_cps : Locked P .cps cps [] [] := by
  have hprint : lockOrder .cps .cons [.ptable] := .inr ⟨rfl, rfl⟩
  have hfirst : lockOrder .cps .ptable [] := .inl ⟨rfl, rfl⟩
  refine (locked_acquire hfirst).bind fun _ => ?_
  refine (locked_cprintf hprint).bind fun _ => ?_
  refine (locked_cpsLines hprint _).bind fun _ => ?_
  exact locked_release_head

theorem locked_cprintfs (h : lockOrder c .cons held) :
    ∀ n, Locked P c (cprintfs n) held held := by
  intro n
  induction n with
  | zero => exact locked_pure ()
  | succ n ih => exact (locked_cprintf h).bind fun _ => ih

theorem locked_procdump (h : lockOrder c .cons held) : Locked P c procdump held held := by
  have hlines : ∀ ps, Locked P c (procdumpLines ps) held held := by
    intro ps
    induction ps with
    | nil => exact locked_pure ()
    | cons p ps ih =>
      refine (locked_reads _).bind fun st => ?_
      refine (locked_onlyIf ?_).bind fun _ => ih
      refine (locked_cprintf h).bind fun _ => ?_
      refine (locked_onlyIf ?_).bind fun _ => locked_cprintf h
      exact (locked_reads _).bind fun n => locked_cprintfs h n
  exact (locked_cprintf h).bind fun _ => hlines _

theorem locked_wakeup (h : lockOrder c .ptable held) : Locked P c wakeup held held := by
  refine (locked_acquire h).bind fun _ => ?_
  exact (locked_modify _).bind fun _ => locked_release_head

theorem locked_consoleintr (cs : List Nat) :
    Locked P (.consoleintr cs) (consoleintr cs) [] [] := by
  have hprint : lockOrder (.consoleintr cs) .cons [] := .inl ⟨rfl, rfl⟩
  have hwake : lockOrder (.consoleintr cs) .ptable [.cons] := .inr ⟨rfl, rfl⟩
  have hloop : ∀ cs', Locked P (.consoleintr cs) (intrLoop cs') [.cons] [.cons] := by
    intro cs'
    induction cs' with
    | nil => exact locked_pure ()
    | cons c cs' ih =>
      refine (locked_atomic _).bind fun wake => ?_
      exact (locked_onlyIf (locked_wakeup hwake)).bind fun _ => ih
  refine (locked_acquire hprint).bind fun _ => ?_
  refine (hloop cs).bind fun _ => ?_
  refine locked_release_head.bind fun _ => ?_
  refine (locked_onlyIf (locked_cprintf hprint)).bind fun _ => ?_
  exact locked_onlyIf (locked_procdump hprint)

/-- `sleep` gives `cons.lock` up under `ptable.lock`, and has it again when it returns. -/
theorem locked_sleep {p : Fin NPROC} (hnested : lockOrder c .ptable [.cons])
    (hresume : lockOrder c .ptable []) (hback : lockOrder c .cons []) :
    Locked P c (sleep p) [.cons] [.cons] := by
  have hgive : Locked P c (release .cons : Kprog Unit) [.ptable, .cons] [.ptable] :=
    locked_release (by simp)
  refine (locked_acquire hnested).bind fun _ => ?_
  refine hgive.bind fun _ => ?_
  refine (locked_modify _).bind fun _ => ?_
  refine locked_release_head.bind fun _ => ?_
  refine (locked_acquire hresume).bind fun _ => ?_
  refine (locked_modify _).bind fun _ => ?_
  refine locked_release_head.bind fun _ => ?_
  exact locked_acquire hback

theorem locked_readLoop {p : Fin NPROC} {killed : Nat → Bool} {target : Nat}
    (hsleep : Locked P c (sleep p) [.cons] [.cons]) :
    ∀ fuel n, Locked P c (readLoop p killed target fuel n) [.cons] [] := by
  intro fuel
  induction fuel with
  | zero => exact fun n p s => trivial
  | succ fuel ih =>
    intro n
    unfold readLoop
    split
    · exact locked_release_head
    refine (locked_reads _).bind fun inp => ?_
    split
    · split
      · exact locked_release_head
      · exact hsleep.bind fun _ => ih n
    split
    · exact (locked_onlyIf (locked_modify _)).bind fun _ => locked_release_head
    refine (locked_modify _).bind fun _ => ?_
    split
    · exact locked_release_head
    · exact ih (n - 1)

theorem locked_consoleread (p : Fin NPROC) (n : Nat) (killed : Nat → Bool) (fuel : Nat) :
    Locked P (.consoleread p n killed fuel) (consoleread p n killed fuel) [] [] := by
  have hcons : lockOrder (.consoleread p n killed fuel) .cons [] := .inl ⟨rfl, rfl⟩
  have hnested : lockOrder (.consoleread p n killed fuel) .ptable [.cons] :=
    .inr (.inl ⟨rfl, rfl⟩)
  have hresume : lockOrder (.consoleread p n killed fuel) .ptable [] := .inr (.inr ⟨rfl, rfl⟩)
  refine (locked_acquire hcons).bind fun _ => ?_
  exact locked_readLoop (locked_sleep hnested hresume hcons) fuel n

/-- **Every call takes its locks in order** and ends with none. -/
theorem locked_body : ∀ c, Locked P c (body c) [] []
  | .cps => locked_cps
  | .cprintf => locked_cprintf (show lockOrder .cprintf .cons [] from ⟨rfl, rfl⟩)
  | .consoleread p n killed fuel => locked_consoleread p n killed fuel
  | .consolewrite =>
      (locked_acquire (show lockOrder .consolewrite .cons [] from ⟨rfl, rfl⟩)).bind
        fun _ => locked_release_head
  | .consoleintr cs => locked_consoleintr cs

end

/-! ### Cycles -/

def isCps : Option Call → Bool
  | some .cps => true
  | _ => false

def inConsole : Option Call → Bool
  | some (.consoleread _ _ _ _) => true
  | some (.consoleintr _) => true
  | _ => false

section

variable {P : Type}

/-- In `sleep` or `wakeup` with `cons.lock` held, and about to acquire `ptable.lock`. -/
def entered (x : Conf P State Unit Lock Call) (p : P) : Prop :=
  inConsole (x.call p) = true ∧ x.owner .cons = some p ∧ takes (x.prog p) = some .ptable

variable {x x' : Conf P State Unit Lock Call} {a : Act P Call}

/-- The two ways to ask for one of the locks under the other. -/
theorem nested_of_lockOrder {c : Call} {l l' : Lock} {held : List Lock} (h : lockOrder c l held)
    (hmem : l' ∈ held) :
    (isCps (some c) = true ∧ l' = .ptable ∧ l = .cons) ∨
      (inConsole (some c) = true ∧ l' = .cons ∧ l = .ptable) := by
  cases c with
  | cps =>
    rcases h with ⟨-, rfl⟩ | ⟨rfl, rfl⟩
    · cases hmem
    · exact .inl ⟨rfl, List.mem_singleton.mp hmem, rfl⟩
  | consoleintr =>
    rcases h with ⟨-, rfl⟩ | ⟨rfl, rfl⟩
    · cases hmem
    · exact .inr ⟨rfl, List.mem_singleton.mp hmem, rfl⟩
  | consoleread =>
    rcases h with ⟨-, rfl⟩ | ⟨rfl, rfl⟩ | ⟨-, rfl⟩
    · cases hmem
    · exact .inr ⟨rfl, List.mem_singleton.mp hmem, rfl⟩
    · cases hmem
  | cprintf | consolewrite =>
    obtain ⟨-, rfl⟩ := h
    cases hmem

variable [DecidableEq P]

theorem covered_of_reachable {ok : Conf P State Unit Lock Call → Act P Call → Prop}
    (h : (system P).Reachable ok x) : (order P).Covered x := by
  refine Rely.covered_of_reachable (fun p c s g _ _ _ => ?_)
    (fun s _ => ⟨(), trivial, fun _ => trivial⟩) h
  exact (locked_body c p s).mono fun _ _ _ _ _ hheld => ⟨hheld, trivial⟩

theorem reachable_idle {ok : Conf P State Unit Lock Call → Act P Call → Prop} (s : State) :
    (system P).Reachable ok (Conf.idle s) := .init ⟨s, trivial, rfl⟩

omit [DecidableEq P] in
/-- Of two threads that follow each other on a cycle one is a console call that asks for
`ptable.lock`, and the other a `cps` that holds it. -/
theorem entered_of_cycle (hcov : (order P).Covered x) {p : P}
    (hcycle : Relation.TransGen x.WaitsFor p p) :
    ∃ q r, entered x q ∧ isCps (x.call r) = true := by
  obtain ⟨q, ⟨_, lp, -, howner⟩, hcycle⟩ := next_on_cycle hcycle
  obtain ⟨r, ⟨_, lq, ⟨hcallq, kq, hprogq⟩, hownerq⟩, hcycle⟩ := next_on_cycle hcycle
  obtain ⟨t, ⟨_, lr, ⟨hcallr, kr, hprogr⟩, -⟩, -⟩ := next_on_cycle hcycle
  obtain ⟨g, hinv, hall⟩ := hcov
  obtain ⟨heldq, hstandsq⟩ := hall q
  obtain ⟨heldr, hstandsr⟩ := hall r
  obtain ⟨cq, hcq⟩ := Option.ne_none_iff_exists'.mp hcallq
  obtain ⟨cr, hcr⟩ := Option.ne_none_iff_exists'.mp hcallr
  have hmemq : lp ∈ heldq := (hstandsq.1 lp).mp howner
  have hmemr : lq ∈ heldr := (hstandsr.1 lq).mp hownerq
  have hokq : lockOrder cq lq heldq := hstandsq.ok hinv hcq hprogq
  have hokr : lockOrder cr lr heldr := hstandsr.ok hinv hcr hprogr
  rcases nested_of_lockOrder hokq hmemq with ⟨hq, rfl, rfl⟩ | ⟨hq, rfl, rfl⟩
  · -- `q` is the `cps`
    rcases nested_of_lockOrder hokr hmemr with ⟨-, hne, -⟩ | ⟨hr, -, rfl⟩
    · cases hne
    · exact ⟨r, q, ⟨hcr ▸ hr, hownerq, by rw [hprogr]; rfl⟩, hcq ▸ hq⟩
  · -- `r` is the `cps`
    rcases nested_of_lockOrder hokr hmemr with ⟨hr, -, -⟩ | ⟨-, hne, -⟩
    · exact ⟨q, r, ⟨hcq ▸ hq, howner, by rw [hprogq]; rfl⟩, hcr ▸ hr⟩
    · cases hne

/-- The next step of the thread, which has `cons.lock` then, brings it there. -/
def enters (x : Conf P State Unit Lock Call) (p : P) : Prop :=
  inConsole (x.call p) = true ∧ (x.owner .cons = some p ∨ takes (x.prog p) = some .cons) ∧
    takes (x.next p) = some .ptable

/-- No console call enters `sleep` or `wakeup` while a `cps` is in progress, and no `cps` begins
while one is there. -/
def keepsApart (x : Conf P State Unit Lock Call) : Act P Call → Prop
  | .run p => enters x p → ∀ q, isCps (x.call q) = false
  | .call _ c => isCps (some c) = true → ∀ q, ¬ entered x q

instance (x : Conf P State Unit Lock Call) (p : P) : Decidable (entered x p) :=
  inferInstanceAs (Decidable (_ ∧ _))

instance (x : Conf P State Unit Lock Call) (p : P) : Decidable (enters x p) :=
  inferInstanceAs (Decidable (_ ∧ _))

instance [Fintype P] (x : Conf P State Unit Lock Call) (a : Act P Call) :
    Decidable (keepsApart x a) := by
  cases a <;> unfold keepsApart <;> infer_instance

/-- No console call is there while a `cps` is in progress. -/
def Apart (x : Conf P State Unit Lock Call) : Prop :=
  ∀ p, entered x p → ∀ q, isCps (x.call q) = false

theorem takes_body {c : Call} (h : inConsole (some c) = true) : takes (body c) = some .cons := by
  cases c with
  | consoleread | consoleintr => rfl
  | _ => cases h

theorem Apart.step (h : Apart x) (hok : keepsApart x a) (hs : (system P).step x a = some x') :
    Apart x' := by
  rintro p ⟨hin, howner, htakes⟩ q
  change x.step (fun _ c => body c) (fun _ _ _ => true) a = some x' at hs
  cases a with
  | call r c =>
    cases moved_of_step hs with
    | call r c =>
      have hpr : p ≠ r := by
        rintro rfl
        simp only [update_self] at hin htakes
        rw [takes_body hin] at htakes
        cases htakes
      simp only [update_of_ne hpr] at hin htakes
      by_cases hqr : q = r
      · subst hqr
        by_contra hcps
        exact hok (by simpa using hcps) p ⟨hin, howner, htakes⟩
      · simpa only [update_of_ne hqr] using h p ⟨hin, howner, htakes⟩ q
  | run r =>
    rcases ran_of_step hs with rfl | hran
    · have hpr : p ≠ r := by
        rintro rfl
        simp only [update_self] at hin
        cases hin
      simp only [update_of_ne hpr] at hin
      by_cases hqr : q = r
      · simp only [hqr, update_self, isCps]
      · simpa only [update_of_ne hqr] using h p ⟨hin, howner, htakes⟩ q
    rw [hran.call] at hin ⊢
    rw [hran.prog] at htakes
    by_cases hpr : p = r
    · subst hpr
      rw [update_self] at htakes
      exact hok ⟨hin, (hran.owner howner).imp_right And.right, htakes⟩ q
    · rw [update_of_ne hpr] at htakes
      exact h p ⟨hin, (hran.owner howner).resolve_right fun heq => hpr heq.1, htakes⟩ q

/-- **Nobody deadlocks** while no console call enters `sleep` or `wakeup` with `cons.lock` held
amid a `cps`, and no `cps` begins while one waits there. -/
theorem no_deadlock_of_apart (h : (system P).Reachable keepsApart x) (p : P) :
    ¬ Relation.TransGen x.WaitsFor p p := by
  have hapart : Apart x := by
    refine h.invariant ?_ fun _ _ _ ih hok hs => ih.step hok hs
    rintro _ ⟨s, -, rfl⟩ p ⟨hin, -⟩
    cases hin
  intro hcycle
  obtain ⟨q, r, hentered, hcps⟩ := entered_of_cycle (covered_of_reachable h) hcycle
  rw [hapart q hentered r] at hcps
  cases hcps

end

def fresh : State where
  locking := true
  input := { buf := fun _ => 0, r := 0, w := 0, e := 0 }
  state _ := .UNUSED
  chan _ := false
  pcs _ := 0

/-- A newline from the keyboard, with a `wakeup`, and after it a `cps` that waits for a
`consolewrite` to finish. -/
def newlineThenCps : List (Act (Fin 2) Call) :=
  .call 0 (.consoleintr [10]) :: List.replicate 7 (.run 0) ++
    [.call 0 .consolewrite, .run 0, .call 1 .cps, .run 1, .run 1]

theorem no_deadlock_waiting_cps :
    ∃ x : Conf (Fin 2) State Unit Lock Call, (system (Fin 2)).Reachable keepsApart x ∧
      x.WaitsFor 1 0 ∧ ∀ p, ¬ Relation.TransGen x.WaitsFor p p := by
  have hinit : (system (Fin 2)).Reachable keepsApart (Conf.idle fresh) := reachable_idle fresh
  obtain ⟨x, hx, hcall, htakes, howner⟩ := hinit.run_decide newlineThenCps
    (P := fun x => (x.call 1).isSome = true ∧ takes (x.prog 1) = some .cons ∧
      x.owner .cons = some 0) (by decide +kernel)
  exact ⟨x, hx, Conf.waitsFor_of_takes hcall htakes howner, no_deadlock_of_apart hx⟩

/-- **`cps` and a newline from the keyboard deadlock.** -/
theorem cps_deadlocks :
    ∃ x : Conf (Fin 2) State Unit Lock Call, (system (Fin 2)).Reached x ∧
      x.WaitsFor 0 1 ∧ x.WaitsFor 1 0 ∧ Relation.TransGen x.WaitsFor 0 0 := by
  have hinit : (system (Fin 2)).Reached (Conf.idle fresh) := reachable_idle fresh
  obtain ⟨x, hx, ⟨hcall0, htakes0, howner0⟩, hcall1, htakes1, howner1⟩ := hinit.run_decide
    [.call 0 .cps, .run 0, .run 0, .call 1 (.consoleintr [10]), .run 1, .run 1]
    (P := fun x => ((x.call 0).isSome = true ∧ takes (x.prog 0) = some .cons ∧
        x.owner .cons = some 1) ∧
      (x.call 1).isSome = true ∧ takes (x.prog 1) = some .ptable ∧ x.owner .ptable = some 0)
    (by decide +kernel)
  have h01 : x.WaitsFor 0 1 := Conf.waitsFor_of_takes hcall0 htakes0 howner0
  have h10 : x.WaitsFor 1 0 := Conf.waitsFor_of_takes hcall1 htakes1 howner1
  exact ⟨x, hx, h01, h10, .tail (.single h01) h10⟩

end Xv6.Console
