import Xv6.Ptable
import Xv6.SideBySide
import Xv6.UserMem
import Xv6.VmSbrk

/-!
**`wait` and `time` reap alike** (`proc.c`), statement by statement, with `sys_time`
(`sysproc.c`) over them.

`Ptable` has one loop for the two functions, since it looks at no field in which they differ.
Here they are apart: the stores through `waitt` and `burstt`, `kfree` and `freevm`, and the
order in which the fields of the slot are cleared.

The caller shares the table and the frames with everybody else. What the others do is given by
a list of turns: one until the caller has `ptable.lock`, and one for each time it sleeps, until
the scheduler switches back to it. A list that ends while the caller waits leaves it waiting.
During a turn of its own, with the lock held, the others can still get at the frames: they do so
before the kernel stack is freed and before the page table is.
-/

namespace Xv6.Reap

open Program Bytes Function

/-! ### State -/

structure Proc where
  pgdir : Option Nat
  kstack : Option Nat
  state : Procstate
  pid : Nat
  parent : Option (Fin NPROC)
  chan : Option Ptable.Chan
  killed : Bool
  name : Nat → UInt8
  arrivalt : Int
  endt : Int
  burstt : Int
  iot : Int

structure Tables where
  proc : Fin NPROC → Proc
  kmem : Vm.Kmem

namespace Tables

def setKmem (m : Vm.Kmem) (t : Tables) : Tables := { t with kmem := m }

def assign (p : Fin NPROC) (f : Proc → Proc) (t : Tables) : Tables :=
  { t with proc := update t.proc p (f (t.proc p)) }

end Tables

structure State where
  tables : Tables
  /-- The caller holds `ptable.lock`. -/
  locked : Bool
  /-- Depth of `pushcli` nesting on the caller's CPU. -/
  ncli : Nat
  /-- The caller's memory. -/
  mem : Bytes.Block (2 ^ 32)
  /-- The process table as the caller found it: when it last came to hold the lock and, before
  that, when the call began. No statement looks at it. -/
  left : Fin NPROC → Proc

structure Turn where
  /-- Until the caller has the lock. -/
  others : Tables → Tables
  /-- Until it frees the kernel stack. -/
  beforeStack : Vm.Kmem → Vm.Kmem
  /-- Until it frees the page table. -/
  beforeTable : Vm.Kmem → Vm.Kmem

abbrev Rprog := Prog State Empty Empty

namespace State

def setTables (t : Tables) (s : State) : State := { s with tables := t }

def assign (p : Fin NPROC) (f : Proc → Proc) (s : State) : State :=
  s.setTables (s.tables.assign p f)

/-- The table is what the caller finds. -/
def see (s : State) : State := { s with left := s.tables.proc }

def unlock (s : State) : State := { s with locked := false, ncli := s.ncli - 1 }

end State

/-! ### `spinlock.c`, `sched` and `sleep` -/

def acquire (turn : Turn) : Rprog Unit :=
  atomic fun s =>
    if s.locked then .error "acquire"
    else .ok ((), { s.setTables (turn.others s.tables) with
      locked := true, ncli := s.ncli + 1 }.see)

def release : Rprog Unit :=
  atomic fun s => if s.locked then .ok ((), s.unlock) else .error "release"

/-- Enter the scheduler, and come back. -/
def sched (curproc : Fin NPROC) (turn : Turn) : Rprog Unit :=
  atomic fun s =>
    if s.locked = false then .error "sched ptable.lock"
    else if s.ncli ≠ 1 then .error "sched locks"
    else if (s.tables.proc curproc).state = .RUNNING then .error "sched running"
    else .ok ((), s.setTables (turn.others s.tables))

def sleep (curproc : Fin NPROC) (turn : Turn) : Rprog Unit := do
  modify (State.assign curproc fun e => { e with chan := some (.proc curproc) })
  modify (State.assign curproc fun e => { e with state := .SLEEPING })
  sched curproc turn
  modify (State.assign curproc fun e => { e with chan := none })
  modify State.see

/-! ### `wait` and `time` -/

abbrev Tprog := Prog Tables Empty Empty

def onKmem (p : Vm.Kprog Unit) : Tprog Unit := p.zoom Tables.kmem Tables.setKmem

def onTables (p : Tprog Unit) : Rprog Unit := p.zoom State.tables State.setTables

/-- `kfree(p->kstack)`; there is no frame at address 0. -/
def kfreeStack (k : Vm.Kernel) : Option Nat → Vm.Kprog Unit
  | none => .panic "kfree"
  | some f => Vm.kfree k f

/-- What a call of `wait` or `time` has come to. -/
inductive Result where
  /-- It has not returned. -/
  | waiting
  /-- `return -1` -/
  | failed
  /-- `return pid` -/
  | pid (pid : Int)
deriving DecidableEq

def Result.int : Result → Option Int
  | waiting => none
  | failed => some (-1)
  | pid n => some n

/-- `kfree(p->kstack); p->kstack = 0; freevm(p->pgdir);` -/
def freeMemory (k : Vm.Kernel) (turn : Turn) (p : Fin NPROC) : Tprog Unit := do
  let kstack ← reads fun t => (t.proc p).kstack
  onKmem (modify turn.beforeStack)
  onKmem (kfreeStack k kstack)
  modify (Tables.assign p fun e => { e with kstack := none })
  let pgdir ← reads fun t => (t.proc p).pgdir
  onKmem (modify turn.beforeTable)
  onKmem (Vm.freevm k pgdir)

/-- `wait`, when it has found an exited child. -/
def waitFound (k : Vm.Kernel) (turn : Turn) (p : Fin NPROC) : Rprog Int := do
  let pid ← reads fun s => (s.tables.proc p).pid
  onTables (freeMemory k turn p)
  modify (State.assign p fun e => { e with pid := 0 })
  modify (State.assign p fun e => { e with parent := none })
  modify (State.assign p fun e => { e with name := update e.name 0 0 })
  modify (State.assign p fun e => { e with killed := false })
  modify (State.assign p fun e => { e with state := .UNUSED })
  release
  return toInt32 pid

/-- Store an `int` in the caller's memory. -/
def store (addr : Nat) (v : Int) : Rprog Unit :=
  modify fun s => { s with mem := setLE s.mem addr 4 (ofInt32 v) }

/-- `time`, when it has found an exited child. -/
def timeFound (k : Vm.Kernel) (waitt burstt : Nat) (turn : Turn) (p : Fin NPROC) :
    Rprog Int := do
  let e ← reads fun s => s.tables.proc p
  store waitt (e.endt - e.arrivalt - e.burstt - e.iot)
  let e ← reads fun s => s.tables.proc p
  store burstt e.burstt
  let pid ← reads fun s => toInt32 (s.tables.proc p).pid
  onTables (freeMemory k turn p)
  modify (State.assign p fun e => { e with state := .UNUSED })
  modify (State.assign p fun e => { e with pid := 0 })
  modify (State.assign p fun e => { e with parent := none })
  modify (State.assign p fun e => { e with name := update e.name 0 0 })
  modify (State.assign p fun e => { e with killed := false })
  release
  return pid

def scan (curproc : Fin NPROC) (found : Fin NPROC → Rprog Int) :
    List (Fin NPROC) → Bool → Rprog (Int ⊕ Bool)
  | [], havekids => pure (.inr havekids)
  | p :: ps, havekids => do
      let e ← reads fun s => s.tables.proc p
      if e.parent ≠ some curproc then scan curproc found ps havekids
      else if e.state = .ZOMBIE then do
        let pid ← found p
        return .inl pid
      else scan curproc found ps true

/-- The loop of `wait` and `time`, in a turn and the turns that come. -/
def loop (curproc : Fin NPROC) (found : Turn → Fin NPROC → Rprog Int) :
    Turn → List Turn → Rprog Result
  | turn, rest => do
      match ← scan curproc (found turn) (List.finRange NPROC) false with
      | .inl pid => return .pid pid
      | .inr havekids => do
          let killed ← reads fun s => (s.tables.proc curproc).killed
          if havekids = false ∨ killed = true then do
            release
            return .failed
          else
            match rest with
            | [] => return .waiting
            | turn :: rest => do
                sleep curproc turn
                loop curproc found turn rest

/-- What `wait` and `time` have in common. -/
def reapWith (curproc : Fin NPROC) (found : Turn → Fin NPROC → Rprog Int) :
    List Turn → Rprog Result
  | [] => return .waiting
  | turn :: rest => do
      acquire turn
      loop curproc found turn rest

/-- Wait for a child process to exit and return its pid. -/
def wait (k : Vm.Kernel) (curproc : Fin NPROC) : List Turn → Rprog Result :=
  reapWith curproc (waitFound k)

/-- Get wait time and burst time of a process. -/
def time (k : Vm.Kernel) (curproc : Fin NPROC) (waitt burstt : Nat) : List Turn → Rprog Result :=
  reapWith curproc (timeFound k waitt burstt)

/-- `sys_time`, of a process with its size and stack pointer. -/
def sysTime (k : Vm.Kernel) (curproc : Fin NPROC) (sz esp : Nat) (turns : List Turn) :
    Rprog (Option Int) := do
  modify State.see
  let p ← reads fun s => (⟨sz, esp, s.mem⟩ : UserMem.Caller)
  match UserMem.argptr p 0 4 with
  | none => return some 12
  | some waitt =>
      match UserMem.argptr p 1 4 with
      | none => return some 13
      | some burstt => do
          let r ← time k curproc waitt burstt turns
          return r.int

/-! ### What the calls do -/

def zombieChild (t : Tables) (curproc : Fin NPROC) : Option (Fin NPROC) :=
  (List.finRange NPROC).find? fun p => (t.proc p).parent = some curproc ∧ (t.proc p).state = .ZOMBIE

def havekids (t : Tables) (curproc : Fin NPROC) : Bool :=
  (List.finRange NPROC).any fun p => (t.proc p).parent = some curproc

/-- What is left of a slot that has been reaped. -/
def Proc.clear (e : Proc) : Proc :=
  { e with pid := 0, parent := none, name := update e.name 0 0, killed := false,
           state := .UNUSED }

/-- The caller's memory with the times of `e` stored. -/
def times (waitt burstt : Nat) (e : Proc) (m : Bytes.Block (2 ^ 32)) : Bytes.Block (2 ^ 32) :=
  setLE (setLE m waitt 4 (ofInt32 (e.endt - e.arrivalt - e.burstt - e.iot))) burstt 4
    (ofInt32 e.burstt)

def leave {α : Type} (a : α) (s : State) : Outcome State α :=
  if s.locked then .done a s.unlock else .panic "release"

section

variable {k : Vm.Kernel} {curproc p : Fin NPROC} {waitt burstt : Nat} {turn : Turn} {s : State}

theorem assign_assign (f g : Proc → Proc) :
    (s.assign p f).assign p g = s.assign p fun e => g (f e) := by
  simp only [State.assign, Tables.assign, State.setTables, update_self, update_idem]

theorem assign_same (f : Proc → Proc) : (s.assign p f).tables.proc p = f (s.tables.proc p) :=
  update_self ..

theorem assign_other (f : Proc → Proc) {q : Fin NPROC} (hq : q ≠ p) :
    (s.assign p f).tables.proc q = s.tables.proc q :=
  update_of_ne hq _ _

theorem exec_modify {α : Type} (f : State → State) (g : Unit → Rprog α) :
    exec (modify f >>= g) [] s = exec (g ()) [] (f s) := rfl

theorem exec_onTables (q : Tprog Unit) :
    exec (onTables q) [] s = (exec q [] s.tables).within State.setTables s := by
  apply exec_zoom
  · intro _ _
    rfl
  · intro _ _ _
    rfl
  · intro _
    rfl

theorem exec_release {α : Type} (a : α) : exec (release >>= fun _ => pure a) [] s = leave a s := by
  rw [exec_bind, leave]
  cases hlock : s.locked with
  | true => simp [release, atomic, exec, hlock, Outcome.andThen, pure]
  | false => simp [release, atomic, exec, hlock, Outcome.andThen]

theorem exec_waitFound :
    exec (waitFound k turn p) [] s =
      ((exec (freeMemory k turn p) [] s.tables).within State.setTables s).andThen fun _ u =>
        leave (toInt32 (s.tables.proc p).pid) (u.assign p Proc.clear) := by
  rw [← exec_onTables]
  change exec (onTables (freeMemory k turn p) >>= _) [] s = _
  rw [exec_bind]
  congr 1
  funext _ u
  simp only [exec_modify, assign_assign, exec_release]
  rfl

theorem exec_timeFound :
    exec (timeFound k waitt burstt turn p) [] s =
      ((exec (freeMemory k turn p) [] s.tables).within State.setTables
        { s with mem := times waitt burstt (s.tables.proc p) s.mem }).andThen fun _ u =>
          leave (toInt32 (s.tables.proc p).pid) (u.assign p Proc.clear) := by
  rw [← exec_onTables]
  change exec (onTables (freeMemory k turn p) >>= _) []
    { s with mem := times waitt burstt (s.tables.proc p) s.mem } = _
  rw [exec_bind]
  congr 1
  funext _ u
  simp only [exec_modify, assign_assign, exec_release]
  rfl

theorem exec_scan (found : Fin NPROC → Rprog Int) (ps : List (Fin NPROC)) (kids : Bool) :
    exec (scan curproc found ps kids) [] s =
      match ps.find? fun p => (s.tables.proc p).parent = some curproc ∧
          (s.tables.proc p).state = .ZOMBIE with
      | some p => (exec (found p) [] s).andThen fun pid u => .done (.inl pid) u
      | none => .done
          (.inr (kids || ps.any fun p => (s.tables.proc p).parent = some curproc)) s := by
  induction ps generalizing kids with
  | nil => simp [scan, exec, pure]
  | cons p ps ih =>
    change exec (if (s.tables.proc p).parent ≠ some curproc then _ else _) [] s = _
    by_cases hchild : (s.tables.proc p).parent = some curproc
    · rw [if_neg (not_not_intro hchild)]
      by_cases hzombie : (s.tables.proc p).state = .ZOMBIE
      · rw [if_pos hzombie, exec_bind, List.find?_cons_of_pos (by simp [hchild, hzombie])]
        rfl
      · rw [if_neg hzombie, ih, List.find?_cons_of_neg (by simp [hzombie])]
        simp [hchild]
    · rw [if_pos hchild, ih]
      simp [hchild]

theorem exec_loop (found : Turn → Fin NPROC → Rprog Int) (rest : List Turn) :
    exec (loop curproc found turn rest) [] s =
      match zombieChild s.tables curproc with
      | some p => (exec (found turn p) [] s).andThen fun pid u => .done (.pid pid) u
      | none =>
          if havekids s.tables curproc = false ∨ (s.tables.proc curproc).killed = true then
            leave .failed s
          else
            match rest with
            | [] => .done .waiting s
            | turn :: rest => (exec (sleep curproc turn) [] s).andThen fun _ u =>
                exec (loop curproc found turn rest) [] u := by
  rw [loop.eq_def, exec_bind, exec_scan, zombieChild]
  cases hfind : (List.finRange NPROC).find? fun p => (s.tables.proc p).parent = some curproc ∧
      (s.tables.proc p).state = .ZOMBIE with
  | some p =>
    simp only
    cases exec (found turn p) [] s with
    | done | panic | stuck => rfl
  | none =>
    change exec (if havekids s.tables curproc = false ∨
      (s.tables.proc curproc).killed = true then _ else _) [] s = _
    by_cases hstop : havekids s.tables curproc = false ∨ (s.tables.proc curproc).killed = true
    · rw [if_pos hstop, if_pos hstop, exec_release]
    rw [if_neg hstop, if_neg hstop]
    cases rest with
    | nil => rfl
    | cons => exact exec_bind _ _ _

end

/-! ### Reaping alike -/

/-- The child that has been found: an exited one, and its pid is returned. -/
def Exited (curproc : Fin NPROC) (pid : Int) (e : Proc) : Prop :=
  e.parent = some curproc ∧ e.state = .ZOMBIE ∧ pid = toInt32 e.pid

/-- **What `time` comes to, next to `wait`**: the same result and the same state, but that if a
pid is returned the times of the child are in the caller's memory. -/
def Likewise (curproc : Fin NPROC) (waitt burstt : Nat) (m : Bytes.Block (2 ^ 32)) (r : Result)
    (s : State) (r' : Result) (s' : State) : Prop :=
  r' = r ∧ s.mem = m ∧
    match r with
    | .pid n => ∃ c, Exited curproc n (s.left c) ∧
        s' = { s with mem := times waitt burstt (s.left c) m }
    | .failed | .waiting => s' = s

theorem zombieChild_some {t : Tables} {curproc c : Fin NPROC} (h : zombieChild t curproc = some c) :
    (t.proc c).parent = some curproc ∧ (t.proc c).state = .ZOMBIE := by
  simpa using List.find?_some h

section

variable {k : Vm.Kernel} {curproc p : Fin NPROC} {waitt burstt : Nat} {turn : Turn} {s : State}

theorem alike_leave {α : Type} {R : α → State → α → State → Prop} {a : α} {u u' : State}
    (hlock : u'.locked = u.locked) (h : R a u.unlock a u'.unlock) :
    Alike R (leave a u) (leave a u') := by
  rw [leave, leave, hlock]
  cases u.locked with
  | true => exact .done h
  | false => exact .panic

/-- The two differ in the order of their assignments and in the stores. -/
theorem alike_found (hleft : s.left = s.tables.proc) :
    Alike (fun pid u pid' u' => pid' = pid ∧ pid = toInt32 (s.left p).pid ∧ u.mem = s.mem ∧
        u.left = s.left ∧ u' = { u with mem := times waitt burstt (s.left p) s.mem })
      (exec (waitFound k turn p) [] s) (exec (timeFound k waitt burstt turn p) [] s) := by
  rw [exec_waitFound, exec_timeFound, ← hleft]
  rcases done_or_panic (wp_true (freeMemory k turn p) (s := s.tables)) with
    ⟨_, t, heq, -⟩ | ⟨msg, heq, -⟩
  · rw [heq]
    exact alike_leave rfl ⟨rfl, rfl, rfl, rfl, rfl⟩
  · rw [heq]
    exact .panic

theorem wp_acquire : wp (fun _ => True) (acquire turn) (fun _ u =>
    u.mem = s.mem ∧ u.tables = turn.others s.tables ∧ u.left = u.tables.proc) s := by
  rw [acquire, wp_atomic]
  refine ⟨fun _ v hv => ?_, fun _ _ => trivial⟩
  split at hv
  · cases hv
  · cases hv
    exact ⟨rfl, rfl, rfl⟩

def wakes (curproc : Fin NPROC) (turn : Turn) (t : Tables) : Tables :=
  (turn.others ((t.assign curproc fun e => { e with chan := some (.proc curproc) }).assign curproc
    fun e => { e with state := .SLEEPING })).assign curproc fun e => { e with chan := none }

theorem wp_sleep : wp (fun _ => True) (sleep curproc turn) (fun _ u =>
    u.mem = s.mem ∧ u.tables = wakes curproc turn s.tables ∧ u.left = u.tables.proc) s := by
  simp only [sleep, wp_bind, wp_modify]
  rw [sched, wp_atomic]
  refine ⟨fun _ v hv => ?_, fun _ _ => trivial⟩
  split at hv
  · cases hv
  split at hv
  · cases hv
  split at hv
  · cases hv
  · cases hv
    exact ⟨rfl, rfl, rfl⟩

theorem alike_round {rest : List Turn} (hleft : s.left = s.tables.proc)
    (hnext : ∀ turn' rest' u, rest = turn' :: rest' → u.left = u.tables.proc →
      Alike (Likewise curproc waitt burstt u.mem)
        (exec (loop curproc (waitFound k) turn' rest') [] u)
        (exec (loop curproc (timeFound k waitt burstt) turn' rest') [] u)) :
    Alike (Likewise curproc waitt burstt s.mem) (exec (loop curproc (waitFound k) turn rest) [] s)
      (exec (loop curproc (timeFound k waitt burstt) turn rest) [] s) := by
  rw [exec_loop, exec_loop]
  cases hfind : zombieChild s.tables curproc with
  | some c =>
    apply (alike_found hleft).andThen
    rintro pid u _ _ ⟨rfl, rfl, hmem, hu, rfl⟩
    obtain ⟨hparent, hzombie⟩ := zombieChild_some hfind
    refine .done ⟨rfl, hmem, c, ?_, hu ▸ rfl⟩
    rw [hu, hleft]
    exact ⟨hparent, hzombie, rfl⟩
  | none =>
    by_cases hstop : havekids s.tables curproc = false ∨ (s.tables.proc curproc).killed = true
    · rw [if_pos hstop, if_pos hstop]
      exact alike_leave rfl ⟨rfl, rfl, rfl⟩
    rw [if_neg hstop, if_neg hstop]
    cases rest with
    | nil => exact .done ⟨rfl, rfl, rfl⟩
    | cons turn' rest' =>
      apply (alike_self (sleep curproc turn') s).andThen
      rintro _ u _ _ ⟨hsleep, rfl, rfl⟩
      obtain ⟨hmem, -, hu⟩ := post_of_done wp_sleep hsleep
      exact hmem ▸ hnext turn' rest' u rfl hu

theorem alike_loop (rest : List Turn) : ∀ (turn : Turn) (s : State), s.left = s.tables.proc →
    Alike (Likewise curproc waitt burstt s.mem) (exec (loop curproc (waitFound k) turn rest) [] s)
      (exec (loop curproc (timeFound k waitt burstt) turn rest) [] s) := by
  induction rest with
  | nil =>
    intro turn s hleft
    apply alike_round hleft
    intro turn' rest' u heq
    cases heq
  | cons turn' rest ih =>
    intro turn s hleft
    apply alike_round hleft
    intro turn' rest' u heq hu
    cases heq
    exact ih turn' u hu

end

/-- **`time` reaps as `wait` does**: from the same state and in the same turns it panics alike, or
it comes to the same result and leaves the same process table, the same frames and the same
lock; and the times are stored exactly when a pid is returned. -/
theorem time_reaps_as_wait (k : Vm.Kernel) (curproc : Fin NPROC) (waitt burstt : Nat)
    (turns : List Turn) (s : State) :
    Alike (Likewise curproc waitt burstt s.mem) (exec (wait k curproc turns) [] s)
      (exec (time k curproc waitt burstt turns) [] s) := by
  rw [wait, time]
  cases turns with
  | nil => exact .done ⟨rfl, rfl, rfl⟩
  | cons turn rest =>
    simp only [reapWith]
    rw [exec_bind, exec_bind]
    apply (alike_self (acquire turn) s).andThen
    rintro _ u _ _ ⟨hlock, rfl, rfl⟩
    obtain ⟨hmem, -, hu⟩ := post_of_done wp_acquire hlock
    exact hmem ▸ alike_loop rest turn u hu

/-! ### `sys_time` -/

/-- **The result tells what happened**: a number that is not negative is the pid of an exited
child whose slot has been freed, and with a negative one the table is as the others left it. -/
def Unambiguous (curproc : Fin NPROC) (v : Int) (s : State) : Prop :=
  (0 ≤ v → ∃ c, (s.left c).parent = some curproc ∧ (s.left c).state = .ZOMBIE ∧
    v = (s.left c).pid ∧ (s.tables.proc c).state = .UNUSED) ∧
  (v < 0 → s.tables.proc = s.left)

/-- The entry of the child that the loop is going to reap, if the others act as they do. -/
def finds (curproc : Fin NPROC) : Tables → List Turn → Option Proc
  | t, rest =>
      match zombieChild t curproc with
      | some c => some (t.proc c)
      | none =>
          if havekids t curproc = false ∨ (t.proc curproc).killed = true then none
          else
            match rest with
            | [] => none
            | turn :: rest => finds curproc (wakes curproc turn t) rest

/-- The entry of the child that a call is going to reap. -/
def reaps (curproc : Fin NPROC) (t : Tables) : List Turn → Option Proc
  | [] => none
  | turn :: rest => finds curproc (turn.others t) rest

section

variable {k : Vm.Kernel} {curproc p : Fin NPROC} {waitt burstt : Nat} {turn : Turn} {s u : State}
  {r : Result} {turns : List Turn}

/-- What a call has come to when it returns. -/
def Returned (curproc : Fin NPROC) (child : Option Proc) (r : Result) (s : State) : Prop :=
  match r with
  | .waiting => True
  | .failed => child = none ∧ s.tables.proc = s.left
  | .pid n => ∃ c, child = some (s.left c) ∧ Exited curproc n (s.left c) ∧
      (s.tables.proc c).state = .UNUSED ∧ ∀ q, q ≠ c → s.tables.proc q = s.left q

theorem wp_onKmem {E : String → Prop} {Q : Unit → Tables → Prop} {q : Vm.Kprog Unit}
    {t : Tables} : wp E (onKmem q) Q t ↔ wp E q (fun a m => Q a (t.setKmem m)) t.kmem := by
  apply wp_zoom
  · intro _ _
    rfl
  · intro _ _ _
    rfl
  · intro _
    rfl

theorem wp_onTables {E : String → Prop} {Q : Unit → State → Prop} {q : Tprog Unit} :
    wp E (onTables q) Q s ↔ wp E q (fun a t => Q a (s.setTables t)) s.tables := by
  apply wp_zoom
  · intro _ _
    rfl
  · intro _ _ _
    rfl
  · intro _
    rfl

theorem wp_freeMemory {t : Tables} :
    wp (fun _ => True) (freeMemory k turn p) (fun _ t' => ∀ q, q ≠ p → t'.proc q = t.proc q) t := by
  simp only [freeMemory, wp_bind, wp_reads, wp_modify, wp_onKmem]
  apply wp_mono (wp_true _)
  intro _ m _
  apply wp_mono (wp_true _)
  intro _ m' _ q hq
  exact update_of_ne hq _ _

theorem wp_timeFound (hleft : s.left = s.tables.proc) :
    wp (fun _ => True) (timeFound k waitt burstt turn p)
      (fun pid u => u.left = s.left ∧ pid = toInt32 (s.left p).pid ∧
        (u.tables.proc p).state = .UNUSED ∧ ∀ q, q ≠ p → u.tables.proc q = u.left q) s := by
  simp only [timeFound, store, wp_bind, wp_reads, wp_modify, wp_onTables]
  apply wp_mono wp_freeMemory
  intro _ t hother
  rw [release, wp_atomic]
  refine ⟨fun _ u hu => ?_, fun _ _ => trivial⟩
  split at hu
  · cases hu
    refine ⟨rfl, ?_, ?_, ?_⟩
    · rw [hleft]
    · simp only [State.unlock, assign_same]
    · intro q hq
      simp only [State.unlock, assign_other _ hq]
      exact (hother q hq).trans (congrFun hleft.symm q)
  · cases hu

theorem leave_done {α : Type} {a b : α} (h : leave a s = .done b u) : b = a ∧ u = s.unlock := by
  rw [leave] at h
  split at h
  · cases h
    exact ⟨rfl, rfl⟩
  · cases h

theorem andThen_done {α β : Type} {o : Outcome State α} {g : α → State → Outcome State β} {b : β}
    (h : o.andThen g = .done b u) : ∃ a v, o = .done a v ∧ g a v = .done b u := by
  cases o with
  | done a v => exact ⟨a, v, rfl, h⟩
  | panic | stuck => cases h

theorem round_done {rest : List Turn} (hleft : s.left = s.tables.proc)
    (hnext : ∀ turn' rest' v, rest = turn' :: rest' → v.left = v.tables.proc →
      exec (loop curproc (timeFound k waitt burstt) turn' rest') [] v = .done r u →
      Returned curproc (finds curproc v.tables rest') r u)
    (hdone : exec (loop curproc (timeFound k waitt burstt) turn rest) [] s = .done r u) :
    Returned curproc (finds curproc s.tables rest) r u := by
  rw [exec_loop] at hdone
  unfold finds
  cases hfind : zombieChild s.tables curproc with
  | some c =>
    rw [hfind] at hdone
    obtain ⟨pid, v, hfound, hret⟩ := andThen_done hdone
    cases hret
    obtain ⟨hv, rfl, hunused, hother⟩ := post_of_done (wp_timeFound hleft) hfound
    obtain ⟨hparent, hzombie⟩ := zombieChild_some hfind
    refine ⟨c, ?_, ?_, hunused, hother⟩
    · rw [hv, hleft]
    · rw [hv, hleft]
      exact ⟨hparent, hzombie, rfl⟩
  | none =>
    simp only [hfind] at hdone ⊢
    by_cases hstop : havekids s.tables curproc = false ∨ (s.tables.proc curproc).killed = true
    · rw [if_pos hstop] at hdone ⊢
      obtain ⟨rfl, rfl⟩ := leave_done hdone
      exact ⟨rfl, hleft.symm⟩
    rw [if_neg hstop] at hdone ⊢
    cases rest with
    | nil =>
      cases hdone
      trivial
    | cons turn' rest' =>
      obtain ⟨_, v, hsleep, hloop⟩ := andThen_done hdone
      obtain ⟨-, htables, hv⟩ := post_of_done wp_sleep hsleep
      have hret := hnext turn' rest' v rfl hv hloop
      rw [htables] at hret
      exact hret

/-- **The loop of `time`**, whichever way it ends. -/
theorem loop_done (rest : List Turn) : ∀ (turn : Turn) (s : State),
    s.left = s.tables.proc →
    exec (loop curproc (timeFound k waitt burstt) turn rest) [] s = .done r u →
    Returned curproc (finds curproc s.tables rest) r u := by
  induction rest with
  | nil =>
    intro turn s hleft
    apply round_done hleft
    intro turn' rest' v heq
    cases heq
  | cons turn' rest ih =>
    intro turn s hleft
    apply round_done hleft
    intro turn' rest' v heq hv
    cases heq
    exact ih turn' v hv

theorem time_done (hdone : exec (time k curproc waitt burstt turns) [] s = .done r u) :
    Returned curproc (reaps curproc s.tables turns) r u := by
  rw [time] at hdone
  cases turns with
  | nil =>
    cases hdone
    trivial
  | cons turn rest =>
    rw [reapWith, exec_bind] at hdone
    obtain ⟨_, v, hlock, hloop⟩ := andThen_done hdone
    obtain ⟨-, htables, hv⟩ := post_of_done wp_acquire hlock
    have hret := loop_done rest turn v hv hloop
    rw [htables] at hret
    exact hret

theorem exec_sysTime {sz esp : Nat} :
    exec (sysTime k curproc sz esp turns) [] s =
      match UserMem.argptr ⟨sz, esp, s.mem⟩ 0 4 with
      | none => .done (some 12) s.see
      | some waitt =>
          match UserMem.argptr ⟨sz, esp, s.mem⟩ 1 4 with
          | none => .done (some 13) s.see
          | some burstt => (exec (time k curproc waitt burstt turns) [] s.see).andThen
              fun r u => .done r.int u := by
  change exec (match UserMem.argptr ⟨sz, esp, s.mem⟩ 0 4 with
    | none => pure (some 12)
    | some waitt =>
        match UserMem.argptr ⟨sz, esp, s.mem⟩ 1 4 with
        | none => pure (some 13)
        | some burstt => time k curproc waitt burstt turns >>= fun r => pure r.int) []
      s.see = _
  cases UserMem.argptr ⟨sz, esp, s.mem⟩ 0 4 with
  | none => rfl
  | some =>
    cases UserMem.argptr ⟨sz, esp, s.mem⟩ 1 4 with
    | none => rfl
    | some => exact exec_bind _ _ _

/-- **Inversion**: the three ways out of `sys_time`. -/
theorem sysTime_done {sz esp : Nat} {s' : State} {v : Int}
    (hdone : exec (sysTime k curproc sz esp turns) [] s = .done (some v) s') :
    (UserMem.argptr ⟨sz, esp, s.mem⟩ 0 4 = none ∧ v = 12 ∧ s' = s.see) ∨
    (UserMem.argptr ⟨sz, esp, s.mem⟩ 1 4 = none ∧ v = 13 ∧ s' = s.see) ∨
    ∃ waitt burstt r, UserMem.argptr ⟨sz, esp, s.mem⟩ 0 4 = some waitt ∧
      UserMem.argptr ⟨sz, esp, s.mem⟩ 1 4 = some burstt ∧ r.int = some v ∧
      exec (time k curproc waitt burstt turns) [] s.see = .done r s' := by
  rw [exec_sysTime] at hdone
  split at hdone
  next hwait =>
    cases hdone
    exact .inl ⟨hwait, rfl, rfl⟩
  rename_i waitt hwait
  split at hdone
  next hburst =>
    cases hdone
    exact .inr (.inl ⟨hburst, rfl, rfl⟩)
  rename_i burstt hburst
  obtain ⟨r, u, htime, hret⟩ := andThen_done hdone
  simp only [Outcome.done.injEq] at hret
  obtain ⟨hr, rfl⟩ := hret
  exact .inr (.inr ⟨waitt, burstt, r, hwait, hburst, hr, htime⟩)

theorem not_unambiguous_see {n : Int} (hn : 0 ≤ n) : ¬ Unambiguous curproc n s.see := by
  intro hun
  obtain ⟨c, -, hzombie, -, hunused⟩ := hun.1 hn
  have hsame : s.see.left c = s.see.tables.proc c := rfl
  rw [hsame, hunused] at hzombie
  cases hzombie

theorem Returned.unambiguous_iff {child : Option Proc} {v : Int} (h : Returned curproc child r s)
    (hr : r.int = some v) : Unambiguous curproc v s ↔ ∀ e, child = some e → e.pid < 2 ^ 31 := by
  cases r with
  | waiting => cases hr
  | failed =>
    cases hr
    obtain ⟨rfl, hsame⟩ := h
    apply iff_of_true
    · exact ⟨fun hneg => absurd hneg (by decide), fun _ => hsame⟩
    · intro e he
      cases he
  | pid =>
    cases hr
    obtain ⟨c, rfl, ⟨hparent, hzombie, hpid⟩, hunused, hother⟩ := h
    have honly : ∀ c', (s.left c').state = .ZOMBIE → (s.tables.proc c').state = .UNUSED → c' = c := by
      intro c' hz hu
      by_contra hne
      rw [hother c' hne, hz] at hu
      cases hu
    constructor
    · rintro ⟨hnonneg, hneg⟩ e he
      cases he
      rcases Int.lt_or_le v 0 with hlt | hge
      · -- the slot has changed
        have hsame := congrFun (hneg hlt) c
        rw [hsame, hzombie] at hunused
        cases hunused
      · obtain ⟨c', -, hz, hv, hu⟩ := hnonneg hge
        cases honly c' hz hu
        rw [hpid, toInt32] at hv
        split at hv
        · assumption
        · omega
    · intro hlt
      have hv : v = (s.left c).pid := hpid.trans (toInt32_of_lt (hlt _ rfl))
      refine ⟨fun _ => ⟨c, hparent, hzombie, hv, hunused⟩, fun hneg => ?_⟩
      omega

end

/-- **`sys_time` is unambiguous exactly if both pointers are good and the pid fits.** With a bad
pointer it returns 12 or 13, which read as pids; a pid of at least 2^31 reads as a failure. -/
theorem sys_time_unambiguous_iff (k : Vm.Kernel) (curproc : Fin NPROC) (sz esp : Nat)
    (turns : List Turn) (s s' : State) (v : Int)
    (hdone : exec (sysTime k curproc sz esp turns) [] s = .done (some v) s') :
    Unambiguous curproc v s' ↔
      UserMem.argptr ⟨sz, esp, s.mem⟩ 0 4 ≠ none ∧ UserMem.argptr ⟨sz, esp, s.mem⟩ 1 4 ≠ none ∧
        ∀ e, reaps curproc s.tables turns = some e → e.pid < 2 ^ 31 := by
  rcases sysTime_done hdone with
    ⟨hwait, rfl, rfl⟩ | ⟨hburst, rfl, rfl⟩ | ⟨waitt, burstt, r, hwait, hburst, hr, htime⟩
  · exact iff_of_false (not_unambiguous_see (by decide)) fun h => h.1 hwait
  · exact iff_of_false (not_unambiguous_see (by decide)) fun h => h.2.1 hburst
  have hreturned := time_done htime
  rw [hreturned.unambiguous_iff hr]
  constructor
  · intro hpid
    refine ⟨?_, ?_, hpid⟩
    · rw [hwait]
      exact Option.some_ne_none waitt
    · rw [hburst]
      exact Option.some_ne_none burstt
  · exact fun h => h.2.2

/-! ### A parent and its child -/

def family (pid : Nat) (m : Bytes.Block (2 ^ 32)) : State where
  tables :=
    { proc := fun p =>
        { pgdir := some 260, kstack := some 259,
          state := if p = 0 then .RUNNING else if p = 1 then .ZOMBIE else .UNUSED,
          pid := if p = 0 then 1 else if p = 1 then pid else 0,
          parent := if p = 1 then some 0 else none,
          chan := none, killed := false, name := fun _ => 0,
          arrivalt := 0, endt := 0, burstt := 0, iot := 0 }
      kmem := { page := fun _ _ => 0, freelist := [], oom := fun _ => false, calls := 0 } }
  locked := false
  ncli := 0
  mem := m
  left _ := { pgdir := none, kstack := none, state := .UNUSED, pid := 0, parent := none,
              chan := none, killed := false, name := fun _ => 0,
              arrivalt := 0, endt := 0, burstt := 0, iot := 0 }

def still : Turn := ⟨id, id, id⟩

theorem sys_time_unambiguous_iff_family :
    ∃ s', exec (sysTime Vm.tiny 0 4096 0 [still]) [] (family 5 fun _ => 0) = .done (some 5) s' ∧
      Unambiguous 0 5 s' := by
  have hends : (exec (sysTime Vm.tiny 0 4096 0 [still]) [] (family 5 fun _ => 0)).ends
      (fun v _ => decide (v = some 5)) = true := by decide +kernel
  obtain ⟨v, s', hdone, hv⟩ := Outcome.ends_iff.mp hends
  cases of_decide_eq_true hv
  refine ⟨s', hdone, (sys_time_unambiguous_iff _ _ _ _ _ _ _ _ hdone).mpr ⟨?_, ?_, ?_⟩⟩
  · decide +kernel
  · decide +kernel
  intro e he
  have hpid : (reaps 0 (family 5 fun _ => 0).tables [still]).map Proc.pid = some 5 := by
    decide +kernel
  rw [he] at hpid
  have hfive : e.pid = 5 := Option.some.inj hpid
  rw [hfive]
  decide

/-- **12 is returned though nothing has been reaped**, for a pointer to the end of memory. -/
theorem sys_time_ambiguous :
    ∃ s', exec (sysTime Vm.tiny 0 4096 0 [still]) []
        (family 5 (setLE (fun _ => 0) 4 4 (2 ^ 32 - 1))) = .done (some 12) s' ∧
      s'.tables.proc = (family 5 fun _ => 0).tables.proc ∧ ¬ Unambiguous 0 12 s' := by
  refine ⟨(family 5 (setLE (fun _ => 0) 4 4 (2 ^ 32 - 1))).see, ?_, rfl,
    not_unambiguous_see (by decide)⟩
  have hbad : UserMem.argptr ⟨4096, 0,
      (family 5 (setLE (fun _ => 0) 4 4 (2 ^ 32 - 1))).mem⟩ 0 4 = none := by decide +kernel
  rw [exec_sysTime, hbad]

end Xv6.Reap
