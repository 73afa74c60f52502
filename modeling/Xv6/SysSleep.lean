import Mathlib.Data.UInt
import Xv6.Transition

/-!
**`sys_sleep` and the timer interrupt** (`sysproc.c`, `proc.c`, `trap.c`; the PDX build), for
any number of processes.

There is no `tickslock` in this build: `sys_sleep` compares `ticks` with no lock held and calls
`sleep` with a null lock. A tick between the test and the `acquire` in `sleep` wakes nobody, and
the process then falls asleep although its time has come (`sys_sleep_misses_tick`).

Only CPU 0 counts ticks, and its interrupts are off in the handler, so there is one handler at a
time. The number of ticks since the start is carried along besides the 32-bit counter.
-/

namespace Xv6.SysSleep

open Transition Function

variable {P : Type}

/-- A call `sys_sleep(n)`: `ticks0`, and the number of ticks there had been by then. -/
structure Call where
  n : UInt32
  ticks0 : UInt32
  start : Nat
deriving DecidableEq

inductive Pc where
  | out
  /-- At the test of the loop. -/
  | test (c : Call)
  /-- About to test `killed`, and then to sleep. -/
  | tested (c : Call)
  /-- In `sleep`: wants `ptable.lock`, about to be marked. -/
  | sleep (c : Call)
  | marking (c : Call)
  | asleep (c : Call)
  | runnable (c : Call)
  /-- Back from `sched`, with `ptable.lock`. -/
  | back (c : Call)
  | returned (c : Call) (r : Int)
deriving DecidableEq

/-- Where the timer interrupt is: after the increment it is in `wakeup`, before, inside and at the
end of its section. -/
inductive Irq where
  | idle
  | wakeup
  | waking
  | woke
deriving DecidableEq

/-- Who has `ptable.lock`; `other` is anybody outside these functions. -/
inductive Holder (P : Type) where
  | proc (p : P)
  | timer
  | other
deriving DecidableEq

structure State (P : Type) where
  ticks : UInt32
  elapsed : Nat
  irq : Irq
  owner : Option (Holder P)
  pc : P → Pc
  killed : P → Bool

inductive Action (P : Type) where
  | call (p : P) (n : UInt32)
  | go (p : P)
  | timer
  | kill (p : P)
  | acquire
  | release
deriving DecidableEq

/-- `if(p->state == SLEEPING) p->state = RUNNABLE`. -/
def Pc.awaken : Pc → Pc
  | .asleep c => .runnable c
  | x => x

def Pc.isOut : Pc → Bool
  | .out | .returned _ _ => true
  | _ => false

section

variable [DecidableEq P]

def State.goto (s : State P) (p : P) (x : Pc) (owner : Option (Holder P)) : State P :=
  { s with owner := owner, pc := update s.pc p x }

/-- Go on with `sys_sleep`. -/
def go (s : State P) (p : P) : Option (State P) :=
  match s.pc p with
  | .test c =>
      some (s.goto p (if s.ticks - c.ticks0 < c.n then .tested c else .returned c 0) s.owner)
  | .tested c => some (s.goto p (if s.killed p then .returned c (-1) else .sleep c) s.owner)
  | .sleep c => if s.owner = none then some (s.goto p (.marking c) (some (.proc p))) else none
  | .marking c => some (s.goto p (.asleep c) none)
  | .runnable c => if s.owner = none then some (s.goto p (.back c) (some (.proc p))) else none
  | .back c => some (s.goto p (.test c) none)
  | _ => none

def timer (s : State P) : Option (State P) :=
  match s.irq with
  | .idle => some { s with ticks := s.ticks + 1, elapsed := s.elapsed + 1, irq := .wakeup }
  | .wakeup => if s.owner = none then some { s with owner := some .timer, irq := .waking } else none
  | .waking => some { s with pc := fun p => (s.pc p).awaken, irq := .woke }
  | .woke => some { s with owner := none, irq := .idle }

def step (s : State P) : Action P → Option (State P)
  | .call p n =>
      if (s.pc p).isOut ∧ n < 2 ^ 31 then
        some (s.goto p (.test ⟨n, s.ticks, s.elapsed⟩) s.owner)
      else none
  | .go p => go s p
  | .timer => timer s
  | .kill p =>
      if s.owner = none then
        some { s.goto p (s.pc p).awaken none with killed := update s.killed p true }
      else none
  | .acquire => if s.owner = none then some { s with owner := some .other } else none
  | .release => if s.owner = some .other then some { s with owner := none } else none

/-- Nobody is in `sys_sleep`; the counter may have any value. -/
def system (P : Type) [DecidableEq P] : System (State P) (Action P) where
  init s := s.ticks = UInt32.ofNat s.elapsed ∧ s.irq = .idle ∧ s.owner = none ∧ ∀ p, s.pc p = .out
  step := step

end

/-! ### The invariant -/

/-- The call whose test has been made, while `ptable.lock` is still to be taken. -/
def Pc.window : Pc → Option Call
  | .tested c | .sleep c => some c
  | _ => none

/-- The tick does not end the time of a process that is about to sleep. -/
def Harmless (s : State P) : Action P → Prop
  | .timer => s.irq = .idle → ∀ p, ∀ c ∈ (s.pc p).window, s.ticks + 1 - c.ticks0 < c.n
  | _ => True

instance [Fintype P] (s : State P) : DecidablePred (Harmless s)
  | .timer => inferInstanceAs (Decidable (_ → _))
  | .call _ _ | .go _ | .kill _ | .acquire | .release => instDecidableTrue

def Pc.HasLock : Pc → Prop
  | .marking _ | .back _ => True
  | _ => False

def Irq.HasLock : Irq → Prop
  | .waking | .woke => True
  | _ => False

/-- A call with time left. -/
def Call.Early (c : Call) (s : State P) : Prop := s.ticks - c.ticks0 < c.n

def Call.Began (c : Call) (s : State P) : Prop :=
  c.ticks0 = UInt32.ofNat c.start ∧ c.start ≤ s.elapsed

/-- A process that is about to sleep, or asleep, has time left, or its `wakeup` is still to come;
a call that has returned 0 has had its time. -/
def Fine (s : State P) : Pc → Prop
  | .out => True
  | .test c | .runnable c | .back c => c.Began s
  | .tested c | .sleep c => c.Began s ∧ c.Early s
  | .marking c => c.Began s ∧ (c.Early s ∨ s.irq = .wakeup)
  | .asleep c => c.Began s ∧ (c.Early s ∨ s.irq = .wakeup ∨ s.irq = .waking)
  | .returned c r => r = 0 → c.start + c.n.toNat ≤ s.elapsed

structure Inv (s : State P) : Prop where
  ticks : s.ticks = UInt32.ofNat s.elapsed
  locked : ∀ p, (s.pc p).HasLock → s.owner = some (.proc p)
  timer : s.irq.HasLock → s.owner = some .timer
  fine : ∀ p, Fine s (s.pc p)

section

variable {s s' : State P} {p : P} {x : Pc} {c : Call}

theorem Fine.awaken (h : Fine s x) : Fine s x.awaken := by
  cases x with
  | asleep => exact h.1
  | _ => exact h

theorem hasLock_awaken : x.awaken.HasLock ↔ x.HasLock := by
  cases x with
  | _ => exact Iff.rfl

/-- `ticks - ticks0` is the number of ticks since the call began, modulo 2^32. -/
theorem Call.Began.elapsed (h : c.Began s) (hticks : s.ticks = UInt32.ofNat s.elapsed)
    (hdone : ¬ c.Early s) : c.start + c.n.toNat ≤ s.elapsed := by
  obtain ⟨hstart, hle⟩ := h
  rw [Early, hticks, hstart, ← UInt32.ofNat_sub hle, UInt32.lt_iff_toNat_lt,
    UInt32.toNat_ofNat'] at hdone
  omega

variable (h : Inv s)
include h

theorem Inv.unlocked (howner : ∀ p, s.owner ≠ some (.proc p)) :
    ¬ (s.pc p).HasLock := fun hp => howner p (h.locked p hp)

theorem Inv.goto [DecidableEq P] {o : Option (Holder P)}
    (hown : o = s.owner ∨ s.owner = none ∨ s.owner = some (.proc p))
    (hx : x.HasLock → o = some (.proc p)) (hfine : Fine s x) : Inv (s.goto p x o) := by
  have hkeep : ∀ {a : Holder P}, a ≠ .proc p → s.owner = some a → o = some a := by
    intro a ha howner
    rcases hown with rfl | hfree | hmine
    · exact howner
    · rw [hfree] at howner
      cases howner
    · rw [hmine] at howner
      exact absurd (Option.some.inj howner).symm ha
  refine ⟨h.ticks, fun q hq => ?_, fun hirq => hkeep (by simp) (h.timer hirq), fun q => ?_⟩
  · by_cases hqp : q = p
    · subst hqp
      exact hx (by simpa [State.goto] using hq)
    · refine hkeep (by simp [hqp]) (h.locked q ?_)
      simpa [State.goto, hqp] using hq
  · change Fine s ((s.goto p x o).pc q)
    by_cases hqp : q = p
    · subst hqp
      simpa [State.goto] using hfine
    · simpa [State.goto, hqp] using h.fine q

theorem Inv.go [DecidableEq P] (hgo : go s p = some s') : Inv s' := by
  have hfine := h.fine p
  have hlocked := h.locked p
  unfold SysSleep.go at hgo
  split at hgo
  all_goals rename_i hpc
  all_goals try rw [hpc] at hfine hlocked
  · cases hgo
    split
    next hearly => exact h.goto (.inl rfl) nofun ⟨hfine, hearly⟩
    next hdone => exact h.goto (.inl rfl) nofun fun _ => hfine.elapsed h.ticks hdone
  · cases hgo
    split
    · exact h.goto (.inl rfl) nofun nofun
    · exact h.goto (.inl rfl) nofun hfine
  · split at hgo
    next hfree =>
      cases hgo
      exact h.goto (.inr (.inl hfree)) (fun _ => rfl) ⟨hfine.1, .inl hfine.2⟩
    · cases hgo
  · cases hgo
    exact h.goto (.inr (.inr (hlocked trivial))) nofun ⟨hfine.1, hfine.2.imp id .inl⟩
  · split at hgo
    next hfree =>
      cases hgo
      exact h.goto (.inr (.inl hfree)) (fun _ => rfl) hfine
    · cases hgo
  · cases hgo
    exact h.goto (.inr (.inr (hlocked trivial))) nofun hfine
  · cases hgo

/-- The increment: those about to sleep have time left, those asleep are going to be woken. -/
theorem Inv.tick (hok : ∀ p, ∀ c ∈ (s.pc p).window, s.ticks + 1 - c.ticks0 < c.n) :
    Inv { s with ticks := s.ticks + 1, elapsed := s.elapsed + 1, irq := .wakeup } := by
  refine ⟨?_, h.locked, nofun, fun p => ?_⟩
  · rw [h.ticks, UInt32.ofNat_add]
    rfl
  have hwindow := hok p
  have hfine := h.fine p
  have hbegan : ∀ {c : Call}, c.Began s → c.start ≤ s.elapsed + 1 := fun hc => Nat.le_succ_of_le hc.2
  cases hpc : s.pc p with
  | out => trivial
  | test | runnable | back =>
    rw [hpc] at hfine
    exact ⟨hfine.1, hbegan hfine⟩
  | tested c | sleep c =>
    rw [hpc] at hfine
    exact ⟨⟨hfine.1.1, hbegan hfine.1⟩, hwindow c (by rw [hpc]; rfl)⟩
  | marking =>
    rw [hpc] at hfine
    exact ⟨⟨hfine.1.1, hbegan hfine.1⟩, .inr rfl⟩
  | asleep =>
    rw [hpc] at hfine
    exact ⟨⟨hfine.1.1, hbegan hfine.1⟩, .inr (.inl rfl)⟩
  | returned =>
    rw [hpc] at hfine
    exact fun hr => Nat.le_succ_of_le (hfine hr)

theorem Inv.handler {irq : Irq} {o : Option (Holder P)} (howner : ∀ p, s.owner ≠ some (.proc p))
    (hirq : irq.HasLock → o = some .timer)
    (hlate : s.irq = .wakeup ∨ s.irq = .waking → irq = .wakeup ∨ irq = .waking) :
    Inv { s with irq := irq, owner := o } := by
  refine ⟨h.ticks, fun p hp => absurd hp (h.unlocked howner), hirq, fun p => ?_⟩
  have hfine := h.fine p
  cases hpc : s.pc p with
  | marking => exact absurd (by rw [hpc]; trivial) (h.unlocked (p := p) howner)
  | asleep =>
    rw [hpc] at hfine
    exact ⟨hfine.1, hfine.2.imp id hlate⟩
  | _ =>
    rw [hpc] at hfine
    exact hfine

theorem Inv.awaken : Inv { s with pc := fun p => (s.pc p).awaken } :=
  ⟨h.ticks, fun p hp => h.locked p (hasLock_awaken.mp hp), h.timer, fun p => (h.fine p).awaken⟩

theorem Inv.woke (howner : s.owner = some .timer) :
    Inv { s with pc := fun p => (s.pc p).awaken, irq := .woke } := by
  have hproc : ∀ p, s.owner ≠ some (.proc p) := by simp [howner]
  refine ⟨h.ticks, h.awaken.locked, fun _ => howner, fun p => ?_⟩
  have hfine := h.fine p
  change Fine _ (s.pc p).awaken
  cases hpc : s.pc p with
  | marking => exact absurd (by rw [hpc]; trivial) (h.unlocked (p := p) hproc)
  | asleep =>
    rw [hpc] at hfine
    exact hfine.1
  | _ =>
    rw [hpc] at hfine
    exact hfine

theorem Inv.timer_step (hok : Harmless s .timer) (hs : SysSleep.timer s = some s') : Inv s' := by
  unfold SysSleep.timer at hs
  split at hs
  all_goals rename_i hirq
  · cases hs
    exact h.tick (hok hirq)
  · split at hs
    next hfree =>
      cases hs
      exact h.handler (by simp [hfree]) (fun _ => rfl) fun _ => .inr rfl
    · cases hs
  · cases hs
    exact h.woke (h.timer (by rw [hirq]; trivial))
  · cases hs
    have howner := h.timer (by rw [hirq]; trivial)
    exact h.handler (by simp [howner]) nofun (by simp [hirq])

theorem Inv.step [DecidableEq P] {a : Action P} (hok : Harmless s a) (hs : step s a = some s') :
    Inv s' := by
  cases a with
  | call =>
    simp only [SysSleep.step] at hs
    split at hs
    · cases hs
      exact h.goto (.inl rfl) nofun ⟨h.ticks, Nat.le_refl _⟩
    · cases hs
  | go => exact h.go hs
  | timer => exact h.timer_step hok hs
  | kill p =>
    simp only [SysSleep.step] at hs
    split at hs
    next hfree =>
      cases hs
      have hfree' : ∀ q, s.owner ≠ some (.proc q) := by simp [hfree]
      have hmoved := h.goto (p := p) (o := none) (.inl hfree.symm)
        (fun hx => absurd (hasLock_awaken.mp hx) (h.unlocked hfree')) (h.fine p).awaken
      exact ⟨hmoved.ticks, hmoved.locked, hmoved.timer, hmoved.fine⟩
    · cases hs
  | acquire =>
    simp only [SysSleep.step] at hs
    split at hs
    next hfree =>
      cases hs
      exact h.handler (by simp [hfree]) (fun hx => nomatch hfree.symm.trans (h.timer hx)) id
    · cases hs
  | release =>
    simp only [SysSleep.step] at hs
    split at hs
    next hother =>
      cases hs
      exact h.handler (by simp [hother]) (fun hx => nomatch hother.symm.trans (h.timer hx)) id
    · cases hs

end

/-- **Timed sleep misses no tick**, as long as no tick ends the time of a process between its test
and the `acquire` in `sleep`; and it never returns 0 early. -/
theorem sys_sleep_timely [DecidableEq P] {s : State P} (h : (system P).Reachable Harmless s) :
    (∀ p c, s.pc p = .asleep c → s.owner = none → s.irq = .idle → s.ticks - c.ticks0 < c.n) ∧
      ∀ p c, s.pc p = .returned c 0 → c.start + c.n.toNat ≤ s.elapsed := by
  have hinv : Inv s := by
    refine h.invariant (I := Inv) ?_ fun s a s' hi hok hs => hi.step hok hs
    rintro s ⟨hticks, hirq, -, hout⟩
    refine ⟨hticks, fun p hp => ?_, fun hx => ?_, fun p => ?_⟩
    · rw [hout] at hp
      exact hp.elim
    · rw [hirq] at hx
      exact hx.elim
    · rw [hout]
      trivial
  refine ⟨fun p c hpc _ hirq => ?_, fun p c hpc => ?_⟩
  · have hfine := hinv.fine p
    rw [hpc] at hfine
    exact hfine.2.resolve_right (by simp [hirq])
  · have hfine := hinv.fine p
    rw [hpc] at hfine
    exact hfine rfl

/-- Two processes, just before the counter wraps round. -/
def late : State (Fin 2) where
  ticks := 0xffffffff
  elapsed := 0xffffffff
  irq := .idle
  owner := none
  pc _ := .out
  killed _ := false

theorem reachable_late {ok : State (Fin 2) → Action (Fin 2) → Prop} :
    (system (Fin 2)).Reachable ok late := .init ⟨rfl, rfl, rfl, fun _ => rfl⟩

/-- One process sleeps through a tick and returns, the other falls asleep. -/
theorem sys_sleep_timely_late : ∃ s : State (Fin 2),
    s.pc 0 = .returned ⟨1, 0xffffffff, 0xffffffff⟩ 0 ∧ s.pc 1 = .asleep ⟨1, 0, 0x100000000⟩ ∧
      0x100000000 ≤ s.elapsed ∧ s.ticks - 0 < 1 := by
  have hreach : (system (Fin 2)).Reachable Harmless late := reachable_late
  obtain ⟨s, hs, hzero, hone, howner, hirq⟩ := hreach.run_decide
    ([.call 0 1, .go 0, .go 0, .go 0, .go 0] ++ List.replicate 4 .timer ++
      [.go 0, .go 0, .go 0, .call 1 1, .go 1, .go 1, .go 1, .go 1])
    (P := fun s => s.pc 0 = .returned ⟨1, 0xffffffff, 0xffffffff⟩ 0 ∧
      s.pc 1 = .asleep ⟨1, 0, 0x100000000⟩ ∧ s.owner = none ∧ s.irq = .idle) (by decide +kernel)
  have htimely := sys_sleep_timely hs
  have helapsed := htimely.2 0 _ hzero
  have hleft := htimely.1 1 _ hone howner hirq
  exact ⟨s, hzero, hone, helapsed, hleft⟩

/-- **A tick is missed**: it comes between the test and the `acquire` in `sleep`. -/
theorem sys_sleep_misses_tick : ∃ (s : State (Fin 2)) (c : Call), (system (Fin 2)).Reached s ∧
    s.pc 0 = .asleep c ∧ s.owner = none ∧ s.irq = .idle ∧ ¬ s.ticks - c.ticks0 < c.n := by
  have hreach : (system (Fin 2)).Reached late := reachable_late
  obtain ⟨s, hs, hasleep⟩ := hreach.run_decide
    ([.call 0 1, .go 0, .go 0] ++ List.replicate 4 .timer ++ [.go 0, .go 0])
    (P := fun s => s.pc 0 = .asleep ⟨1, 0xffffffff, 0xffffffff⟩ ∧ s.owner = none ∧
      s.irq = .idle ∧ ¬ s.ticks - 0xffffffff < 1) (by decide +kernel)
  exact ⟨s, _, hs, hasleep⟩

end Xv6.SysSleep
