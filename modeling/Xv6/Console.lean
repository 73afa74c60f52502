import Xv6.File
import Xv6.Threads

/-!
**The console and the process listing**: `console.c` with the parts of `proc.c` it
calls, as programs over `ptable.lock` and `cons.lock`.

A thread is a process inside the kernel or an interrupt handler; while it holds or
spins on a spinlock interrupts are off, so it has a CPU to itself. `sched()` inside
`sleep` hands `ptable.lock` to the scheduler, which releases it, and a scheduler takes
it again to resume the process: these are the two middle lock operations of
`sleep`. Nothing keeps a sleeper from being resumed early, as `kill` does.

What goes to the screen is not modelled. A loop that may run for ever has fuel and
stops when it is used up; every finite part of a run has fuel enough.
-/

namespace Xv6.Console

open Program Function

/-! ### Line editing -/

def INPUT_BUF : UInt32 := 128

def ctrl (x : Nat) : Nat := x - 64

/-- The struct `input`: a ring buffer with its read, write and edit indices. -/
structure Input where
  buf : Nat → Nat
  r : UInt32
  w : UInt32
  e : UInt32

def Input.at (inp : Input) (i : UInt32) : Nat := inp.buf (i % INPUT_BUF).toNat

/-- The loop of Control-U; `n` bounds its rounds by the distance from `w` to `e`. -/
def killLine : Nat → Input → Input
  | 0, inp => inp
  | n + 1, inp =>
      if inp.e ≠ inp.w ∧ inp.at (inp.e - 1) ≠ 10 then killLine n { inp with e := inp.e - 1 }
      else inp

/-- One character in `consoleintr`'s switch, and whether it ends in `wakeup(&input.r)`. -/
def Input.key (inp : Input) (c : Nat) : Input × Bool :=
  if c = ctrl 80 ∨ c = ctrl 68 then (inp, false)
  else if c = ctrl 85 then (killLine (inp.e - inp.w).toNat inp, false)
  else if c = ctrl 72 ∨ c = 127 then
    (if inp.e ≠ inp.w then { inp with e := inp.e - 1 } else inp, false)
  else if c ≠ 0 ∧ inp.e - inp.r < INPUT_BUF then
    let c := if c = 13 then 10 else c
    let inp := { inp with
      buf := update inp.buf (inp.e % INPUT_BUF).toNat c
      e := inp.e + 1 }
    if c = 10 ∨ c = ctrl 68 ∨ inp.e = inp.r + INPUT_BUF then ({ inp with w := inp.e }, true)
    else (inp, false)
  else (inp, false)

/-! ### The programs -/

structure State where
  locking : Bool
  input : Input
  state : Fin NPROC → Procstate
  /-- Is the process's `chan` the address of `input.r`? -/
  chan : Fin NPROC → Bool
  /-- How many return addresses `getcallerpcs` finds for it, at most ten. -/
  pcs : Fin NPROC → Nat

inductive Lock where
  | ptable
  | cons
deriving DecidableEq

abbrev Kprog := Prog State Unit Lock

def cprintf : Kprog Unit := do
  let locking ← reads State.locking
  onlyIf locking (acquire () .cons)
  onlyIf locking (release .cons)

/-- The lines of `cps`, printed under `ptable.lock`. -/
def cpsLines : List (Fin NPROC) → Kprog Unit
  | [] => pure ()
  | p :: ps => do
      let st ← reads fun s => s.state p
      onlyIf (st = .SLEEPING ∨ st = .RUNNABLE ∨ st = .RUNNING) cprintf
      cpsLines ps

def cps : Kprog Unit := do
  acquire () .ptable
  cprintf
  cpsLines (List.finRange NPROC)
  release .ptable

def cprintfs : Nat → Kprog Unit
  | 0 => pure ()
  | n + 1 => do
      cprintf
      cprintfs n

def procdumpLines : List (Fin NPROC) → Kprog Unit
  | [] => pure ()
  | p :: ps => do
      let st ← reads fun s => s.state p
      onlyIf (st ≠ .UNUSED) do
        cprintf
        onlyIf (st = .SLEEPING) do
          let n ← reads fun s => min (s.pcs p) 10
          cprintfs n
        cprintf
      procdumpLines ps

/-- `procdump`; no lock, to avoid wedging a stuck machine further. -/
def procdump : Kprog Unit := do
  cprintf
  procdumpLines (List.finRange NPROC)

def wakeup : Kprog Unit := do
  acquire () .ptable
  modify fun s => { s with
    state := fun p => if s.state p = .SLEEPING ∧ s.chan p then .RUNNABLE else s.state p }
  release .ptable

def sleep (p : Fin NPROC) : Kprog Unit := do
  acquire () .ptable
  release .cons
  modify fun s => { s with
    state := update s.state p .SLEEPING
    chan := update s.chan p true }
  release .ptable
  acquire () .ptable
  modify fun s => { s with
    state := update s.state p .RUNNING
    chan := update s.chan p false }
  release .ptable
  acquire () .cons

/-- `consoleintr`'s loop over the characters `getc` delivers. -/
def intrLoop : List Nat → Kprog Unit
  | [] => pure ()
  | c :: cs => do
      let wake ← atomic fun s => .ok ((s.input.key c).2, { s with input := (s.input.key c).1 })
      onlyIf wake wakeup
      intrLoop cs

def consoleintr (cs : List Nat) : Kprog Unit := do
  acquire () .cons
  intrLoop cs
  release .cons
  onlyIf (ctrl 68 ∈ cs) cprintf
  onlyIf (ctrl 80 ∈ cs) procdump

def consume : Kprog Unit :=
  modify fun s => { s with input := { s.input with r := s.input.r + 1 } }

/-- `consoleread`'s loops, with `n` bytes wanted and `killed` telling the flag in each round. -/
def readLoop (p : Fin NPROC) (killed : Nat → Bool) (target : Nat) : Nat → Nat → Kprog Unit
  | 0, _ => .panic "out of fuel"
  | fuel + 1, n =>
      if n = 0 then release .cons
      else do
        let inp ← reads State.input
        if inp.r = inp.w then
          if killed fuel then release .cons
          else do
            sleep p
            readLoop p killed target fuel n
        else if inp.at inp.r = ctrl 68 then do
          onlyIf (¬ n < target) consume
          release .cons
        else do
          consume
          if inp.at inp.r = 10 then release .cons
          else readLoop p killed target fuel (n - 1)

def consoleread (p : Fin NPROC) (n : Nat) (killed : Nat → Bool) (fuel : Nat) : Kprog Unit := do
  acquire () .cons
  readLoop p killed n fuel n

def consolewrite : Kprog Unit := do
  acquire () .cons
  release .cons

/-! ### The system -/

inductive Call where
  | cps
  | cprintf
  | consoleread (p : Fin NPROC) (n : Nat) (killed : Nat → Bool) (fuel : Nat)
  | consolewrite
  | consoleintr (cs : List Nat)

def body : Call → Kprog Unit
  | .cps => cps
  | .cprintf => cprintf
  | .consoleread p n killed fuel => consoleread p n killed fuel
  | .consolewrite => consolewrite
  | .consoleintr cs => consoleintr cs

/-- Any number of threads, from any state, making any of the calls. -/
def system (P : Type) [DecidableEq P] :
    Transition.System (Conf P State Unit Lock Call) (Act P Call) :=
  threads (fun _ => True) (fun _ => body) (fun _ _ _ => true)

end Xv6.Console
