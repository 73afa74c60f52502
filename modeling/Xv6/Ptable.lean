import Xv6.File
import Xv6.Transition

/-!
**The process table** (`proc.c`): `fork`, `exit`, `wait`, `time`, `kill`, `sleep`, `wakeup`,
`getppid` and scheduling, interleaved by the processes in the table.

A section under `ptable.lock` is one step. What the code does to the table without the lock
is a step of its own: `allocproc` and `fork` give a slot back when `kalloc` or `copyuvm` fail,
`fork` stores `np->parent`, and `getppid` loads `parent` and then `parent->pid`. Only a
process in state RUNNING takes steps; which CPU runs it is the subject of `Sched`.

Of `struct proc` the model has the fields these functions use. The last four fields of
`Table` are a record of what happened; no step looks at them.
-/

namespace Xv6.Ptable

open Transition Function

/-! ### State -/

/-- A sleep channel: a `struct proc`, or some other address. -/
inductive Chan where
  | proc (p : Fin NPROC)
  | addr (a : Nat)
deriving DecidableEq

structure Proc where
  state : Procstate
  pid : Nat
  parent : Option (Fin NPROC)
  chan : Option Chan
  killed : Bool
deriving DecidableEq

/-- How far a `fork` has come: EMBRYO slot taken, kernel stack allocated, memory copied, `parent`
stored. -/
inductive Stage where
  | allocated
  | stacked
  | copied
  | linked
deriving DecidableEq

/-- The two functions that reap children. -/
inductive Reaper where
  | wait
  | time
deriving DecidableEq

/-- Where in `proc.c` a process is. -/
inductive Base where
  /-- In user space, or in kernel code that does not touch the table. -/
  | user
  | fork (stage : Stage) (np : Fin NPROC)
  /-- In the loop of `wait` or `time`. -/
  | reap (r : Reaper)
  /-- In `getppid`, having loaded the pointer. -/
  | getppid (parent : Option (Fin NPROC))
deriving DecidableEq

structure Table where
  proc : Fin NPROC → Proc
  initproc : Fin NPROC
  nextpid : Nat
  base : Fin NPROC → Base
  /-- How many processes have been allocated. -/
  allocated : Nat
  /-- The how-manieth process the slot was last allocated to. -/
  life : Fin NPROC → Nat
  /-- The processes that have been reaped, with the pid that was returned. -/
  reaped : List (Nat × Nat)
  /-- Whether a `kill` has named the slot's pid since it was assigned. -/
  named : Fin NPROC → Bool

namespace Table

def set (t : Table) (p : Fin NPROC) (e : Proc) : Table :=
  { t with proc := update t.proc p e }

def goto (t : Table) (p : Fin NPROC) (b : Base) : Table :=
  { t with base := update t.base p b }

def setState (t : Table) (p : Fin NPROC) (s : Procstate) : Table :=
  t.set p { t.proc p with state := s }

/-- The process executes, and not in the middle of `sleep`. -/
def Runs (t : Table) (p : Fin NPROC) : Prop :=
  (t.proc p).state = .RUNNING ∧ (t.proc p).chan = none

instance (t : Table) (p : Fin NPROC) : Decidable (t.Runs p) := inferInstanceAs (Decidable (_ ∧ _))

end Table

/-! ### `proc.c` -/

/-- Wake up all processes sleeping on `chan`. -/
def wakeup1 (chan : Option Chan) (t : Table) : Table :=
  { t with
    proc := fun p =>
      if (t.proc p).state = .SLEEPING ∧ (t.proc p).chan = chan then
        { t.proc p with state := .RUNNABLE }
      else t.proc p }

/-- `p->state = EMBRYO; p->pid = nextpid++`. -/
abbrev Table.embryo (t : Table) (p : Fin NPROC) : Table :=
  { t.set p { t.proc p with state := .EMBRYO, pid := t.nextpid } with
    nextpid := (t.nextpid + 1) % 2 ^ 32
    allocated := t.allocated + 1
    life := update t.life p (t.allocated + 1)
    named := update t.named p false }

def allocproc (t : Table) : Option (Fin NPROC × Table) :=
  match (List.finRange NPROC).find? fun p => (t.proc p).state = .UNUSED with
  | some p => some (p, t.embryo p)
  | none => none

/-- The table of a kernel that has just been loaded. -/
def zeroed : Table where
  proc _ := { state := .UNUSED, pid := 0, parent := none, chan := none, killed := false }
  initproc := 0
  nextpid := 1
  base _ := .user
  allocated := 0
  life _ := 0
  reaped := []
  named _ := false

/-- Set up first user process. -/
def userinit : Table :=
  match allocproc zeroed with
  | some (p, t) => { t.setState p .RUNNABLE with initproc := p }
  | none => zeroed

/-- `exit`'s loop body: pass an abandoned child to init. -/
def adopt (curproc : Fin NPROC) (t : Table) (p : Fin NPROC) : Table :=
  if (t.proc p).parent = some curproc then
    let t := t.set p { t.proc p with parent := some t.initproc }
    if (t.proc p).state = .ZOMBIE then wakeup1 (some (.proc t.initproc)) t else t
  else t

def exit (curproc : Fin NPROC) (t : Table) : Table :=
  let t := wakeup1 ((t.proc curproc).parent.map .proc) t
  let t := (List.finRange NPROC).foldl (adopt curproc) t
  t.setState curproc .ZOMBIE

/-- `wait` and `time` clear the slot of an exited child. -/
def reap (p : Fin NPROC) (t : Table) : Table :=
  { t.set p { t.proc p with state := .UNUSED, pid := 0, parent := none, killed := false } with
    reaped := (t.life p, (t.proc p).pid) :: t.reaped }

/-- The first exited child in the table. -/
def zombieChild (t : Table) (curproc : Fin NPROC) : Option (Fin NPROC) :=
  (List.finRange NPROC).find? fun p => (t.proc p).parent = some curproc ∧ (t.proc p).state = .ZOMBIE

def havekids (t : Table) (curproc : Fin NPROC) : Bool :=
  (List.finRange NPROC).any fun p => (t.proc p).parent = some curproc

/-- One round of the loop of `wait` and `time`: reap a child, return -1, or go to sleep. -/
def scan (curproc : Fin NPROC) (t : Table) : Table :=
  match zombieChild t curproc with
  | some p => (reap p t).goto curproc .user
  | none =>
      if havekids t curproc = false ∨ (t.proc curproc).killed = true then t.goto curproc .user
      else t.set curproc
        { t.proc curproc with chan := some (.proc curproc), state := .SLEEPING }

/-- The first slot whose pid is `pid`, an `int` compared with a `uint`. -/
def findPid (t : Table) (pid : Int) : Option (Fin NPROC) :=
  (List.finRange NPROC).find? fun p => (t.proc p).pid = ofInt32 pid

/-- Kill the process with the given pid; the table and what the call returns. -/
def kill (pid : Int) (t : Table) : Table × Int :=
  match findPid t pid with
  | some p =>
      (t.set p { t.proc p with
        killed := true
        state := if (t.proc p).state = .SLEEPING then .RUNNABLE else (t.proc p).state }, 0)
  | none => (t, -1)

/-! ### Steps -/

inductive Action where
  /-- `scheduler` chooses `p`. -/
  | schedule (p : Fin NPROC)
  | yield (p : Fin NPROC)
  /-- `sleep` on a channel that is not a `struct proc`. -/
  | sleep (p : Fin NPROC) (a : Nat)
  /-- `sleep` clears `chan` after it has been rescheduled. -/
  | tidy (p : Fin NPROC)
  | wakeup (a : Nat)
  | kill (pid : Int)
  /-- `trap` sets `killed` after a fault in user space. -/
  | fault (p : Fin NPROC)
  | allocproc (p : Fin NPROC)
  /-- `allocproc` calls `kalloc`, which succeeds or not. -/
  | kalloc (p : Fin NPROC) (ok : Bool)
  | copyuvm (p : Fin NPROC) (ok : Bool)
  /-- `np->parent = curproc` -/
  | setParent (p : Fin NPROC)
  /-- `fork`'s section: `np->state = RUNNABLE`. -/
  | runnable (p : Fin NPROC)
  | exit (p : Fin NPROC)
  /-- Call `wait` or `time`. -/
  | reap (p : Fin NPROC) (r : Reaper)
  | scan (p : Fin NPROC)
  /-- `getppid` loads `myproc()->parent`. -/
  | loadParent (p : Fin NPROC)
  /-- `getppid` loads `parent->pid` and returns it. -/
  | loadPid (p : Fin NPROC)
deriving DecidableEq

/-- What `getppid` returns if it loads the pid now; there is nothing to load through a null
pointer. -/
def Table.ppid (t : Table) (p : Fin NPROC) : Option Nat :=
  match t.base p with
  | .getppid (some q) => some (t.proc q).pid
  | _ => none

/-- `fork` gives the slot back. -/
def Table.abandon (t : Table) (p np : Fin NPROC) : Table := (t.setState np .UNUSED).goto p .user

/-- What the code does to the table, whoever executes it; `none` where a process is not at that
place in the code. -/
def act (t : Table) : Action → Option Table
  | .schedule p => if (t.proc p).state = .RUNNABLE then some (t.setState p .RUNNING) else none
  | .yield p => some (t.setState p .RUNNABLE)
  | .sleep p a => some (t.set p { t.proc p with chan := some (.addr a), state := .SLEEPING })
  | .tidy p => some (t.set p { t.proc p with chan := none })
  | .wakeup a => some (wakeup1 (some (.addr a)) t)
  | .kill pid =>
      some { (kill pid t).1 with
        named := fun p => t.named p || decide ((t.proc p).pid = ofInt32 pid) }
  | .fault p => if t.base p = .user then some (t.set p { t.proc p with killed := true }) else none
  | .allocproc p =>
      if t.base p = .user then
        match allocproc t with
        | some (np, t') => some ((t'.goto np .user).goto p (.fork .allocated np))
        | none => some t
      else none
  | .kalloc p ok =>
      match t.base p with
      | .fork .allocated np => some (if ok then t.goto p (.fork .stacked np) else t.abandon p np)
      | _ => none
  | .copyuvm p ok =>
      match t.base p with
      | .fork .stacked np => some (if ok then t.goto p (.fork .copied np) else t.abandon p np)
      | _ => none
  | .setParent p =>
      match t.base p with
      | .fork .copied np =>
          some ((t.set np { t.proc np with parent := some p }).goto p (.fork .linked np))
      | _ => none
  | .runnable p =>
      match t.base p with
      | .fork .linked np => some ((t.setState np .RUNNABLE).goto p .user)
      | _ => none
  | .exit p => if t.base p = .user ∧ p ≠ t.initproc then some (exit p t) else none
  | .reap p r => if t.base p = .user then some (t.goto p (.reap r)) else none
  | .scan p =>
      match t.base p with
      | .reap _ => some (scan p t)
      | _ => none
  | .loadParent p => if t.base p = .user then some (t.goto p (.getppid (t.proc p).parent)) else none
  | .loadPid p =>
      match t.base p with
      | .getppid (some _) => some (t.goto p .user)
      | _ => none

/-- Who takes the step is running. -/
def Action.Allowed (t : Table) : Action → Prop
  | .schedule _ | .wakeup _ | .kill _ => True
  | .tidy p => (t.proc p).state = .RUNNING
  | .yield p | .sleep p _ | .fault p | .allocproc p | .kalloc p _ | .copyuvm p _ | .setParent p
  | .runnable p | .exit p | .reap p _ | .scan p | .loadParent p | .loadPid p => t.Runs p

instance (t : Table) (a : Action) : Decidable (a.Allowed t) := by
  cases a <;> unfold Action.Allowed <;> infer_instance

def step (t : Table) (a : Action) : Option Table := if a.Allowed t then act t a else none

def system : System Table Action where
  init t := t = userinit
  step := step

/-! ### What a step can do -/

variable {t t' : Table} {a : Action}

theorem zombieChild_some {p c : Fin NPROC} (h : zombieChild t p = some c) :
    (t.proc c).parent = some p ∧ (t.proc c).state = .ZOMBIE := by
  simpa using List.find?_some h

theorem zombieChild_none {p : Fin NPROC} (h : zombieChild t p = none) (c : Fin NPROC)
    (hc : (t.proc c).parent = some p) : (t.proc c).state ≠ .ZOMBIE := by
  simpa [hc] using List.find?_eq_none.mp h c (List.mem_finRange c)

theorem havekids_iff {p : Fin NPROC} :
    havekids t p = true ↔ ∃ c, (t.proc c).parent = some p := by
  simp [havekids]

theorem step_of_allowed (h : a.Allowed t) : step t a = act t a := if_pos h

/-- **Inversion**: the steps of the table, with their guards. -/
inductive Stepped (t : Table) : Action → Table → Prop where
  | schedule (p : Fin NPROC) : (t.proc p).state = .RUNNABLE →
      Stepped t (.schedule p) (t.setState p .RUNNING)
  | yield (p : Fin NPROC) : t.Runs p → Stepped t (.yield p) (t.setState p .RUNNABLE)
  | sleep (p : Fin NPROC) (a : Nat) : t.Runs p →
      Stepped t (.sleep p a)
        (t.set p { t.proc p with chan := some (.addr a), state := .SLEEPING })
  | tidy (p : Fin NPROC) : (t.proc p).state = .RUNNING →
      Stepped t (.tidy p) (t.set p { t.proc p with chan := none })
  | wakeup (a : Nat) : Stepped t (.wakeup a) (wakeup1 (some (.addr a)) t)
  | kill (pid : Int) : Stepped t (.kill pid) { (kill pid t).1 with
      named := fun p => t.named p || decide ((t.proc p).pid = ofInt32 pid) }
  | fault (p : Fin NPROC) : t.Runs p → t.base p = .user →
      Stepped t (.fault p) (t.set p { t.proc p with killed := true })
  | full (p : Fin NPROC) : t.Runs p → t.base p = .user → Stepped t (.allocproc p) t
  | allocproc (p np : Fin NPROC) : t.Runs p → t.base p = .user →
      (t.proc np).state = .UNUSED → Stepped t (.allocproc p)
        { t.embryo np with base := update (update t.base np .user) p (.fork .allocated np) }
  | kallocFails (p np : Fin NPROC) : t.Runs p → t.base p = .fork .allocated np →
      Stepped t (.kalloc p false) (t.abandon p np)
  | kalloc (p np : Fin NPROC) : t.Runs p → t.base p = .fork .allocated np →
      Stepped t (.kalloc p true) (t.goto p (.fork .stacked np))
  | copyuvmFails (p np : Fin NPROC) : t.Runs p → t.base p = .fork .stacked np →
      Stepped t (.copyuvm p false) (t.abandon p np)
  | copyuvm (p np : Fin NPROC) : t.Runs p → t.base p = .fork .stacked np →
      Stepped t (.copyuvm p true) (t.goto p (.fork .copied np))
  | setParent (p np : Fin NPROC) : t.Runs p → t.base p = .fork .copied np →
      Stepped t (.setParent p)
        ((t.set np { t.proc np with parent := some p }).goto p (.fork .linked np))
  | runnable (p np : Fin NPROC) : t.Runs p → t.base p = .fork .linked np →
      Stepped t (.runnable p) ((t.setState np .RUNNABLE).goto p .user)
  | exit (p : Fin NPROC) : t.Runs p → t.base p = .user → p ≠ t.initproc →
      Stepped t (.exit p) (exit p t)
  | reap (p : Fin NPROC) (r : Reaper) : t.Runs p → t.base p = .user →
      Stepped t (.reap p r) (t.goto p (.reap r))
  | reaped (p c : Fin NPROC) (r : Reaper) : t.Runs p → t.base p = .reap r →
      (t.proc c).parent = some p → (t.proc c).state = .ZOMBIE →
      Stepped t (.scan p) ((Ptable.reap c t).goto p .user)
  | fails (p : Fin NPROC) (r : Reaper) : t.Runs p → t.base p = .reap r →
      Stepped t (.scan p) (t.goto p .user)
  | sleeps (p : Fin NPROC) (r : Reaper) : t.Runs p → t.base p = .reap r →
      (∃ c, (t.proc c).parent = some p) →
      (∀ c, (t.proc c).parent = some p → (t.proc c).state ≠ .ZOMBIE) →
      (t.proc p).killed = false →
      Stepped t (.scan p) (t.set p { t.proc p with chan := some (.proc p), state := .SLEEPING })
  | loadParent (p : Fin NPROC) : t.Runs p → t.base p = .user →
      Stepped t (.loadParent p) (t.goto p (.getppid (t.proc p).parent))
  | loadPid (p q : Fin NPROC) : t.Runs p → t.base p = .getppid (some q) →
      Stepped t (.loadPid p) (t.goto p .user)

theorem stepped_of_step (h : step t a = some t') : Stepped t a t' := by
  obtain ⟨hr, h⟩ : a.Allowed t ∧ act t a = some t' := by
    rw [step] at h
    split at h
    next hr => exact ⟨hr, h⟩
    · cases h
  cases a with
  | schedule p | fault p | setParent p | runnable p | reap p r | loadParent p | loadPid p =>
    simp only [act] at h
    split at h
    · cases h
      constructor
      all_goals assumption
    · cases h
  | yield p | sleep p a | tidy p =>
    cases h
    constructor
    exact hr
  | wakeup a => cases h; exact .wakeup a
  | kill pid => cases h; exact .kill pid
  | allocproc p =>
    obtain ⟨hb, h⟩ := Option.ite_none_right_eq_some.mp h
    simp only [allocproc] at h
    rcases hf : (List.finRange NPROC).find? fun p => (t.proc p).state = .UNUSED with _ | np
    · rw [hf] at h; cases h; exact .full p hr hb
    · rw [hf] at h
      cases h
      exact .allocproc p np hr hb (by simpa using List.find?_some hf)
  | kalloc p ok | copyuvm p ok =>
    simp only [act] at h
    split at h
    next np hb =>
      cases ok with
      | true | false =>
        cases h
        constructor
        · exact hr
        · exact hb
    · cases h
  | exit p =>
    simp only [act] at h
    split at h
    next hb => cases h; exact .exit p hr hb.1 hb.2
    · cases h
  | scan p =>
    simp only [act] at h
    split at h
    next r hb =>
      simp only [scan] at h
      split at h
      next c hc =>
        cases h
        obtain ⟨hparent, hstate⟩ := zombieChild_some hc
        exact .reaped p c r hr hb hparent hstate
      next hnone =>
        split at h
        · cases h; exact .fails p r hr hb
        rename_i hstay
        cases h
        simp only [not_or, Bool.not_eq_false, Bool.not_eq_true] at hstay
        exact .sleeps p r hr hb (havekids_iff.mp hstay.1) (zombieChild_none hnone) hstay.2
    · cases h

end Xv6.Ptable
