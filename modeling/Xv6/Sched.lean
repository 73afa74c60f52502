import Xv6.Ptable

/-!
**CPUs and kernel threads**: `scheduler`, `sched`, `yield`, `sleep` and `forkret` (`proc.c`),
with the spinlock `ptable.lock` and the `pushcli` depth (`spinlock.c`) that go from one kernel
thread to another through `swtch`.

There is a scheduler thread for every CPU and a kernel thread for every process; `switched p`
as the place of CPU `i`'s scheduler says that the CPU executes the thread of `p`. A section
under `ptable.lock` is three steps or more: acquire, the work, release, and between them
whatever `swtch` leads through. What the work does to the table is `Ptable.act`, here
without the condition that the process is RUNNING.

Outside `ptable.lock` a thread takes and releases other spinlocks, of which only the number
is kept, and interrupts go on and off while that number is 0. An interrupt handler runs on
the thread it interrupts: `wakeup` on any, `yield` on that of a process. `acquire` spins by
not taking its step. A panic stops the machine.
-/

namespace Xv6.Sched

open Transition Ptable Function

/-! ### State -/

inductive Caller where
  | yield
  | sleep
  | wait
  | exit
deriving DecidableEq

/-- Where a thread goes on when it is switched to. -/
inductive Context where
  | forkret
  /-- Behind the `swtch` in `sched`, which has saved `intena`. -/
  | sched (caller : Caller) (intena : Bool)
deriving DecidableEq

/-- The sections under `ptable.lock` that a process goes through. -/
inductive Section where
  | yield
  /-- `sleep` on a channel other than a `struct proc`, with a lock to release or with none. -/
  | sleep (a : Nat) (lk : Bool)
  | wakeup (a : Nat)
  | kill (pid : Int)
  | allocproc
  | runnable
  | exit
  /-- The loop of `wait` and `time`. -/
  | scan
  /-- `cps` and `chpr`, which change nothing in the model. -/
  | cps
deriving DecidableEq

inductive Pc where
  /-- Outside `ptable.lock`. -/
  | free
  /-- The lock is acquired, the work not yet done. -/
  | locked (w : Section)
  /-- About to release the lock. -/
  | unlock
  /-- About to call `sched`. -/
  | sched (caller : Caller)
  /-- Not executing. -/
  | off (context : Context)
  /-- Just switched to. -/
  | resumed (context : Context)
deriving DecidableEq

inductive SchedPc where
  /-- At the top of the loop, outside `ptable.lock`. -/
  | idle
  /-- In an interrupt that calls `wakeup`, with the lock acquired. -/
  | waking (a : Nat)
  | woken
  /-- At slot `k` of the loop over the table. -/
  | scan (k : Nat)
  /-- About to switch to `p`. -/
  | chosen (p : Fin NPROC)
  /-- Switched away: the CPU executes `p`. -/
  | switched (p : Fin NPROC)
  /-- Switched back. -/
  | back (p : Fin NPROC)
deriving DecidableEq

/-- A `struct cpu`, with the flag FL_IF, the number of spinlocks held other than `ptable.lock`,
and its scheduler. -/
structure Cpu where
  proc : Option (Fin NPROC)
  ncli : Nat
  intena : Bool
  interrupts : Bool
  locks : Nat
  scheduler : SchedPc
deriving DecidableEq

inductive Thread (C : Type) where
  | scheduler (i : C)
  | process (p : Fin NPROC)

inductive Event (C : Type) where
  | acquire (by_ : Thread C)
  | release (by_ : Thread C)

structure State (C : Type) where
  table : Table
  pc : Fin NPROC → Pc
  cpu : C → Cpu
  /-- `ptable.lock`: the CPU that holds it. -/
  lock : Option C
  /-- What happened to the lock, the newest first; no step looks at it. -/
  events : List (Event C)
  panicked : Bool

variable {C : Type} [DecidableEq C]

namespace State

def panic (s : State C) : State C := { s with panicked := true }

def setCpu (s : State C) (i : C) (c : Cpu) : State C :=
  { s with cpu := update s.cpu i c }

def goto (s : State C) (p : Fin NPROC) (x : Pc) : State C :=
  { s with pc := update s.pc p x }

def jump (s : State C) (i : C) (x : SchedPc) : State C :=
  s.setCpu i { s.cpu i with scheduler := x }

end State

/-! ### `spinlock.c` -/

def pushcli (c : Cpu) : Cpu :=
  { c with
    intena := if c.ncli = 0 then c.interrupts else c.intena
    interrupts := false
    ncli := c.ncli + 1 }

/-- `none` is a panic. -/
def popcli (c : Cpu) : Option Cpu :=
  if c.interrupts = true ∨ c.ncli = 0 then none
  else some { c with ncli := c.ncli - 1, interrupts := c.ncli - 1 = 0 ∧ c.intena = true }

def acquire (i : C) (thread : Thread C) (s : State C) : Option (State C) :=
  if s.lock = some i then some s.panic
  else if s.lock = none then
    some { s.setCpu i (pushcli (s.cpu i)) with
      lock := some i
      events := .acquire thread :: s.events }
  else none

def release (i : C) (thread : Thread C) (s : State C) : State C :=
  if s.lock = some i then
    match popcli (s.cpu i) with
    | some c =>
        { s.setCpu i c with
          lock := none
          events := .release thread :: s.events }
    | none => s.panic
  else s.panic

/-! ### Processes -/

namespace Section

/-- What the section does to the table. -/
def action (p : Fin NPROC) : Section → Option Action
  | .yield => some (.yield p)
  | .sleep a _ => some (.sleep p a)
  | .wakeup a => some (.wakeup a)
  | .kill pid => some (.kill pid)
  | .allocproc => some (.allocproc p)
  | .runnable => some (.runnable p)
  | .exit => some (.exit p)
  | .scan => some (.scan p)
  | .cps => none

def body (p : Fin NPROC) (t : Table) (w : Section) : Option Table :=
  match w.action p with
  | some a => act t a
  | none => some t

/-- How many other spinlocks the callers of the section hold: none, or `sleep`'s `lk`, where the
section leads to `sched`. -/
def Callable (locks : Nat) : Section → Prop
  | .yield | .exit | .scan => locks = 0
  | .sleep _ lk => locks = if lk then 1 else 0
  | .wakeup _ | .kill _ | .allocproc | .runnable | .cps => True

instance (locks : Nat) (w : Section) : Decidable (w.Callable locks) := by
  cases w <;> unfold Callable <;> infer_instance

/-- Where the thread goes on when the work is done. -/
def next (p : Fin NPROC) (t : Table) : Section → Pc
  | .yield => .sched .yield
  | .sleep _ _ => .sched .sleep
  | .exit => .sched .exit
  | .scan =>
      if (zombieChild t p).isSome = true ∨ havekids t p = false ∨ (t.proc p).killed = true then
        .unlock
      else .sched .wait
  | .wakeup _ | .kill _ | .allocproc | .runnable | .cps => .unlock

end Section

/-- The work of a section; `sleep` releases `lk` first. -/
def work (i : C) (p : Fin NPROC) (w : Section) (s : State C) : Option (State C) :=
  (w.body p s.table).map fun t =>
    let s' := { s with table := t }.goto p (w.next p s.table)
    match w with
    | .sleep _ true =>
        match popcli (s.cpu i) with
        | some c => s'.setCpu i { c with locks := c.locks - 1 }
        | none => s.panic
    | _ => s'

/-- `sched`, on the CPU `i` that executes `p`. -/
def sched (i : C) (p : Fin NPROC) (caller : Caller) (s : State C) : State C :=
  if s.lock ≠ some i then s.panic
  else if (s.cpu i).ncli ≠ 1 then s.panic
  else if (s.table.proc p).state = .RUNNING then s.panic
  else if (s.cpu i).interrupts = true then s.panic
  else (s.goto p (.off (.sched caller (s.cpu i).intena))).jump i (.back p)

/-- `sched` has returned, on a CPU that need not be the one it was called on. -/
def resume (i : C) (p : Fin NPROC) (caller : Caller) (intena : Bool) (s : State C) :
    Option (State C) :=
  let s := s.setCpu i { s.cpu i with intena := intena }
  match caller with
  | .yield => some (s.goto p .unlock)
  | .sleep => (act s.table (.tidy p)).map fun t => { s with table := t }.goto p .unlock
  | .wait => (act s.table (.tidy p)).map fun t => { s with table := t }.goto p (.locked .scan)
  | .exit => some s.panic

/-- What a process does to the table without the lock. -/
def Alone (p : Fin NPROC) : Action → Prop
  | .fault q | .kalloc q _ | .copyuvm q _ | .setParent q | .reap q _ | .loadParent q
  | .loadPid q => q = p
  | _ => False

instance (p : Fin NPROC) (a : Action) : Decidable (Alone p a) := by
  apply @Ptable.Action.casesOn (fun a => Decidable (Alone p a)) <;> intros <;> unfold Alone <;>
    infer_instance

/-- The slot whose first context the action sets up: `allocproc`, after `kalloc`. -/
def newborn (t : Table) : Action → Option (Fin NPROC)
  | .kalloc p true => match t.base p with
      | .fork _ np => some np
      | _ => none
  | _ => none

def alone (a : Action) (s : State C) : Option (State C) :=
  (act s.table a).map fun t =>
    let s' := { s with table := t }
    match newborn s.table a with
    | some np => s'.goto np (.off .forkret)
    | none => s'

/-! ### Steps -/

inductive Move where
  /-- The thread takes the one step it can take. -/
  | go
  /-- Interrupts go on or off. -/
  | flags (interrupts : Bool)
  /-- Acquire another spinlock. -/
  | push
  /-- Release another spinlock. -/
  | pop
  /-- Acquire `ptable.lock` for a section. -/
  | enter (w : Section)
  | alone (a : Action)
deriving DecidableEq

def process (i : C) (p : Fin NPROC) (s : State C) : Move → Option (State C)
  | .go =>
      match s.pc p with
      | .free | .off _ => none
      | .locked w => work i p w s
      | .unlock | .resumed .forkret => some ((release i (.process p) s).goto p .free)
      | .sched caller => some (sched i p caller s)
      | .resumed (.sched caller intena) => resume i p caller intena s
  | .enter w =>
      if s.pc p = .free ∧ w.Callable (s.cpu i).locks then
        (acquire i (.process p) s).map fun s => s.goto p (.locked w)
      else none
  | .alone a => if s.pc p = .free ∧ Alone p a then alone a s else none
  | _ => none

def swtch : Pc → Pc
  | .off context => .resumed context
  | x => x

def scheduler (i : C) (s : State C) : Move → Option (State C)
  | .go =>
      match (s.cpu i).scheduler with
      | .idle =>
          if (s.cpu i).locks = 0 then
            (acquire i (.scheduler i) s).map fun s => s.jump i (.scan 0)
          else none
      | .waking a => (act s.table (.wakeup a)).map fun t => { s with table := t }.jump i .woken
      | .woken => some ((release i (.scheduler i) s).jump i .idle)
      | .scan k =>
          if h : k < NPROC then
            match act s.table (.schedule ⟨k, h⟩) with
            | some t =>
                some ({ s with table := t }.setCpu i
                  { s.cpu i with proc := some ⟨k, h⟩, scheduler := .chosen ⟨k, h⟩ })
            | none => some (s.jump i (.scan (k + 1)))
          else some ((release i (.scheduler i) s).jump i .idle)
      | .chosen p => some ((s.goto p (swtch (s.pc p))).jump i (.switched p))
      | .switched _ => none
      | .back p => some (s.setCpu i { s.cpu i with proc := none, scheduler := .scan (p + 1) })
  | .enter (.wakeup a) =>
      if (s.cpu i).scheduler = .idle then
        (acquire i (.scheduler i) s).map fun s => s.jump i (.waking a)
      else none
  | _ => none

/-- CPU `i` executes outside `ptable.lock`. -/
def State.Rests (s : State C) (i : C) : Prop :=
  match (s.cpu i).scheduler with
  | .idle => True
  | .switched p => s.pc p = .free
  | _ => False

instance (s : State C) (i : C) : Decidable (s.Rests i) := by
  unfold State.Rests
  split <;> infer_instance

def step (s : State C) : C × Move → Option (State C)
  | (i, m) =>
      if s.panicked then none
      else match m with
      | .flags b =>
          if s.Rests i ∧ (s.cpu i).ncli = 0 then
            some (s.setCpu i { s.cpu i with interrupts := b })
          else none
      | .push =>
          if s.Rests i then
            some (s.setCpu i { pushcli (s.cpu i) with locks := (s.cpu i).locks + 1 })
          else none
      | .pop =>
          if s.Rests i ∧ 0 < (s.cpu i).locks then
            match popcli (s.cpu i) with
            | some c => some (s.setCpu i { c with locks := c.locks - 1 })
            | none => some s.panic
          else none
      | m =>
          match (s.cpu i).scheduler with
          | .switched p => process i p s m
          | _ => scheduler i s m

def boot : State C where
  table := userinit
  pc _ := .off .forkret
  cpu _ :=
    { proc := none, ncli := 0, intena := false, interrupts := true, locks := 0,
      scheduler := .idle }
  lock := none
  events := []
  panicked := false

def system (C : Type) [DecidableEq C] : System (State C) (C × Move) where
  init s := s = boot
  step := step

end Xv6.Sched
