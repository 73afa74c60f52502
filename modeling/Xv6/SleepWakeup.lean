import Mathlib.Logic.Function.Basic
import Xv6.Transition

/-!
**`sleep`, `wakeup` and `kill`** (`proc.c`), step by step, for any number of processes, locks
and channels.

A process outside these functions acquires and releases locks as it likes. The six loops of
the kernel that test `killed` before they sleep are told apart by their `Site`: each reads
the flag under another lock, or under none, and `pipewrite` has a `wakeup` between the test
and the sleep.

A clock is carried along, with the last moment each process had each lock, the moment of a
process's last test of its condition under a lock it has kept since, and a record of every
finished `wakeup`.
-/

namespace Xv6.SleepWakeup

open Transition Function

variable {P L Ch : Type}

inductive Lock (L : Type) where
  | ptable
  | spin (l : L)
  deriving DecidableEq

/-- The loops that test `killed` and go to sleep, with their channels and locks. -/
inductive Site (L Ch : Type) where
  | piperead (lock : L) (nread : Ch)
  | pipewrite (lock : L) (nread nwrite : Ch)
  | consoleread (lock : L) (r : Ch)
  | sys_sleep (ticks : Ch)
  | wait (curproc : Ch)
  | time (curproc : Ch)
  deriving DecidableEq

namespace Site

/-- The channel of the loop's `sleep`. -/
def chan : Site L Ch → Ch
  | piperead _ c | pipewrite _ _ c | consoleread _ c | sys_sleep c | wait c | time c => c

/-- The lock of the loop's `sleep`, which it also holds at its test of `killed`. -/
def lk : Site L Ch → Option (Lock L)
  | piperead l _ | pipewrite l _ _ | consoleread l _ => some (.spin l)
  | sys_sleep _ => none
  | wait _ | time _ => some .ptable

/-- What the loop wakes between its test and its `sleep`. -/
def wakes : Site L Ch → Option Ch
  | pipewrite _ c _ => some c
  | _ => none

end Site

/-- A call of `sleep(chan, lk)`: the moment of the test it is due to, and the loop it is in. -/
structure Frame (L Ch : Type) where
  chan : Ch
  lk : Option (Lock L)
  tested : Option Nat
  site : Option (Site L Ch)
  deriving DecidableEq

inductive Pc (P L Ch : Type) where
  | run
  /-- It has found `killed` clear and is about to sleep. -/
  | passed (site : Site L Ch)
  /-- In `wakeup`: before, inside and at the end of its section; `site` is what follows. -/
  | wakeup (c : Ch) (site : Option (Site L Ch))
  | waking (c : Ch) (site : Option (Site L Ch))
  | woke (c : Ch) (site : Option (Site L Ch))
  /-- In `kill`, likewise. -/
  | kill (q : P)
  | killing (q : P)
  | didkill (q : P)
  /-- In `sleep`: wants `ptable.lock`, about to release `lk`, about to be marked. -/
  | sleep (f : Frame L Ch)
  | dropping (f : Frame L Ch)
  | marking (f : Frame L Ch)
  | asleep (f : Frame L Ch)
  | runnable (f : Frame L Ch)
  /-- Back from `sched`, with `ptable.lock`; then about to take `lk` again. -/
  | back (f : Frame L Ch)
  | regain (f : Frame L Ch)
  deriving DecidableEq

/-- `if(p->state == SLEEPING) p->state = RUNNABLE`. -/
def Pc.awaken : Pc P L Ch → Pc P L Ch
  | .asleep f => .runnable f
  | c => c

/-- A finished `wakeup`: its channel, its caller, and when the caller last had each lock. -/
structure Wake (P L Ch : Type) where
  chan : Ch
  who : P
  held : Lock L → Nat

structure State (P L Ch : Type) where
  owner : Lock L → Option P
  pc : P → Pc P L Ch
  killed : P → Bool
  now : Nat
  /-- The last moment each process had each lock. -/
  held : P → Lock L → Nat
  /-- The moment of a process's last test under a lock it has kept since. -/
  tested : P → Lock L → Option Nat
  wakes : List (Wake P L Ch)
  /-- A `kill` of the process has returned 0. -/
  returned : P → Bool

inductive Label (P L Ch : Type) where
  | acquire (p : P) (l : Lock L)
  | release (p : P) (l : Lock L)
  /-- Test a condition protected by `l`. -/
  | test (p : P) (l : Lock L)
  /-- Test `killed` in a loop, and return -1 if it is set. -/
  | check (p : P) (site : Site L Ch)
  | sleep (p : P) (c : Ch) (lk : Option (Lock L))
  | wakeup (p : P) (c : Ch)
  /-- `wakeup1`, by a process that has `ptable.lock`. -/
  | wakeup1 (p : P) (c : Ch)
  | kill (p q : P)
  /-- Go on with the function the process is in. -/
  | go (p : P)

variable [DecidableEq P] [DecidableEq L] [DecidableEq Ch]

namespace State

def goto (s : State P L Ch) (p : P) (c : Pc P L Ch) : State P L Ch :=
  { s with pc := update s.pc p c }

def take (s : State P L Ch) (p : P) (l : Lock L) : State P L Ch :=
  { s with owner := update s.owner l (some p) }

/-- Release `l`; the tests made under it are void. -/
def drop (s : State P L Ch) (p : P) (l : Lock L) : State P L Ch :=
  { s with
    owner := update s.owner l none
    tested := fun q m => if q = p ∧ m = l then none else s.tested q m }

def wakeup1 (s : State P L Ch) (c : Ch) : State P L Ch :=
  { s with pc := fun q => match s.pc q with
      | .asleep f => if f.chan = c then .runnable f else .asleep f
      | x => x }

/-- Record that `p` has finished a wakeup of `c`. -/
def record (s : State P L Ch) (p : P) (c : Ch) : State P L Ch :=
  { s with wakes := s.wakes ++ [⟨c, p, s.held p⟩] }

/-- The clock advances; whoever has a lock has had it now. -/
def tick (s : State P L Ch) : State P L Ch :=
  { s with
    now := s.now + 1
    held := fun p l => if s.owner l = some p then s.now + 1 else s.held p l }

def sleep (s : State P L Ch) (p : P) (c : Ch) (lk : Option (Lock L))
    (site : Option (Site L Ch)) : State P L Ch :=
  let f : Frame L Ch := ⟨c, lk, lk.bind (s.tested p), site⟩
  if lk = some .ptable then s.goto p (.marking f) else s.goto p (.sleep f)

/-- What `p` does after a `wakeup`: the rest of a loop, if it is in one. -/
def resume (s : State P L Ch) (p : P) : Option (Site L Ch) → State P L Ch
  | none => s.goto p .run
  | some site => s.sleep p site.chan site.lk (some site)

end State

/-- `p` has the lock a call of `sleep` needs. -/
def Has (s : State P L Ch) (p : P) (lk : Option (Lock L)) : Prop :=
  ∀ l, lk = some l → s.owner l = some p

instance (s : State P L Ch) (p : P) (lk : Option (Lock L)) : Decidable (Has s p lk) :=
  match lk with
  | none => isTrue (nofun)
  | some l =>
      decidable_of_iff (s.owner l = some p) ⟨fun h m hm => by cases hm; exact h, fun h => h l rfl⟩

/-- Go on with the function the process is in. -/
def go (s : State P L Ch) (p : P) : Option (State P L Ch) :=
  match s.pc p with
  | .run => none
  | .passed site =>
      match site.wakes with
      | some c => some (s.goto p (.wakeup c (some site)))
      | none => some (s.sleep p site.chan site.lk (some site))
  | .wakeup c site =>
      if s.owner .ptable = none then some ((s.take p .ptable).goto p (.waking c site)) else none
  | .waking c site => some ((s.wakeup1 c).goto p (.woke c site))
  | .woke c site => some (((s.record p c).drop p .ptable).resume p site)
  | .kill q =>
      if s.owner .ptable = none then some ((s.take p .ptable).goto p (.killing q)) else none
  | .killing q =>
      some (({ s with killed := update s.killed q true }.goto q
        (s.pc q).awaken).goto p (.didkill q))
  | .didkill q =>
      some (({ s with returned := update s.returned q true }.drop p .ptable).goto p .run)
  | .sleep f =>
      if s.owner .ptable = none then
        some ((s.take p .ptable).goto p (if f.lk = none then .marking f else .dropping f))
      else none
  | .dropping f =>
      match f.lk with
      | some l => if s.owner l = some p then some ((s.drop p l).goto p (.marking f)) else none
      | none => none
  | .marking f => some ((s.drop p .ptable).goto p (.asleep f))
  | .asleep _ => none
  | .runnable f =>
      if s.owner .ptable = none then some ((s.take p .ptable).goto p (.back f)) else none
  | .back f =>
      if f.lk = some .ptable then some (s.goto p .run)
      else some ((s.drop p .ptable).goto p (.regain f))
  | .regain f =>
      match f.lk with
      | none => some (s.goto p .run)
      | some l => if s.owner l = none then some ((s.take p l).goto p .run) else none

/-- One step, before the clock advances. -/
def act (s : State P L Ch) : Label P L Ch → Option (State P L Ch)
  | .acquire p l => if s.pc p = .run ∧ s.owner l = none then some (s.take p l) else none
  | .release p l => if s.pc p = .run ∧ s.owner l = some p then some (s.drop p l) else none
  | .test p l =>
      if s.pc p = .run ∧ s.owner l = some p then
        some { s with
          tested := fun q m => if q = p ∧ m = l then some (s.now + 1) else s.tested q m }
      else none
  | .check p site =>
      if s.pc p = .run ∧ Has s p site.lk then
        if s.killed p then some s else some (s.goto p (.passed site))
      else none
  | .sleep p c lk => if s.pc p = .run ∧ Has s p lk then some (s.sleep p c lk none) else none
  | .wakeup p c => if s.pc p = .run then some (s.goto p (.wakeup c none)) else none
  | .wakeup1 p c =>
      if s.pc p = .run ∧ s.owner .ptable = some p then some ((s.wakeup1 c).record p c) else none
  | .kill p q => if s.pc p = .run then some (s.goto p (.kill q)) else none
  | .go p => go s p

def step (s : State P L Ch) (a : Label P L Ch) : Option (State P L Ch) := (act s a).map State.tick

/-- All processes are outside, with no lock held and nobody killed. -/
def system (P L Ch : Type) [DecidableEq P] [DecidableEq L] [DecidableEq Ch] :
    System (State P L Ch) (Label P L Ch) where
  init s := (∀ l, s.owner l = none) ∧ (∀ p, s.pc p = .run) ∧ (∀ p, s.killed p = false) ∧
    (∀ p l, s.held p l ≤ s.now) ∧ (∀ p l, s.tested p l = none) ∧ s.wakes = []
  step := step

end Xv6.SleepWakeup
