import Mathlib.Data.List.FinRange
import Xv6.Param

/-!
**Open files**: the file table of `file.c`, the descriptor tables of the processes,
and the system calls that move references between them.

The state is `ftable` and the part of `ptable` those calls read. A call returns the
new state and its C return value, or the panic it ends in. What the layers below
answer (`kalloc`, `copyuvm`, the result of `namei` or `create`, the byte counts of
`readi` and `writei`) is a parameter, so the results hold for every answer.
A `fileclose` that drops the last reference also returns the copy `ff` of the entry,
on which the source then calls `pipeclose` or `iput`.
-/

namespace Xv6

/-! ### Tables -/

instance : NeZero NPROC := ⟨by decide⟩
instance : NeZero NOFILE := ⟨by decide⟩
instance : NeZero NFILE := ⟨by decide⟩

inductive FileType where
  | FD_NONE
  | FD_PIPE
  | FD_INODE
deriving DecidableEq

/-- `struct file`; `pipe` and `ip` name the objects pointed to. -/
structure File where
  type : FileType
  ref : Int
  readable : Bool
  writable : Bool
  pipe : Nat
  ip : Nat
  off : Nat
deriving DecidableEq

inductive Procstate where
  | UNUSED
  | EMBRYO
  | SLEEPING
  | RUNNABLE
  | RUNNING
  | ZOMBIE
deriving DecidableEq

structure Proc where
  state : Procstate
  pid : Nat
  parent : Option (Fin NPROC)
  ofile : Fin NOFILE → Option (Fin NFILE)
  cwd : Option Nat

structure Kernel where
  ftable : Fin NFILE → File
  ptable : Fin NPROC → Proc
  initproc : Fin NPROC
  nextpid : Nat

/-- How a call can fail to return. -/
inductive Fault where
  | panic (msg : String)
  /-- A write past the end of `ofile`. -/
  | outOfBounds
deriving DecidableEq

namespace Kernel

def setFile (k : Kernel) (f : Fin NFILE) (e : File) : Kernel :=
  { k with ftable := Function.update k.ftable f e }

def setProc (k : Kernel) (p : Fin NPROC) (e : Proc) : Kernel :=
  { k with ptable := Function.update k.ptable p e }

def setSlot (k : Kernel) (p : Fin NPROC) (fd : Fin NOFILE) (f : Option (Fin NFILE)) : Kernel :=
  k.setProc p { k.ptable p with ofile := Function.update (k.ptable p).ofile fd f }

def ofile (k : Kernel) (p : Fin NPROC) (fd : Fin NOFILE) : Option (Fin NFILE) :=
  (k.ptable p).ofile fd

end Kernel

/-! ### `file.c` -/

/-- The first free entry gets its first reference. -/
def filealloc (k : Kernel) : Option (Kernel × Fin NFILE) :=
  match (List.finRange NFILE).find? fun f => (k.ftable f).ref = 0 with
  | some f => some (k.setFile f { k.ftable f with ref := 1 }, f)
  | none => none

def filedup (k : Kernel) (f : Fin NFILE) : Except Fault Kernel :=
  if (k.ftable f).ref < 1 then .error (.panic "filedup")
  else .ok (k.setFile f { k.ftable f with ref := (k.ftable f).ref + 1 })

def fileclose (k : Kernel) (f : Fin NFILE) : Except Fault (Kernel × Option File) :=
  if (k.ftable f).ref < 1 then .error (.panic "fileclose")
  else
    let ff := { k.ftable f with ref := (k.ftable f).ref - 1 }
    if ff.ref > 0 then .ok (k.setFile f ff, none)
    else .ok (k.setFile f { ff with ref := 0, type := .FD_NONE }, some ff)

/-- `if(r > 0) f->off += r`, with `off` a `uint`. -/
def advance (k : Kernel) (f : Fin NFILE) (r : Int) : Kernel :=
  if r > 0 then
    k.setFile f { k.ftable f with off := ((k.ftable f).off + r.toNat) % 2 ^ 32 }
  else k

/-- `fileread`, given what `piperead` or `readi` returns. -/
def fileread (k : Kernel) (f : Fin NFILE) (r : Int) : Except Fault (Kernel × Int) :=
  if (k.ftable f).readable = false then .ok (k, -1)
  else match (k.ftable f).type with
    | .FD_PIPE => .ok (k, r)
    | .FD_INODE => .ok (advance k f r, r)
    | .FD_NONE => .error (.panic "fileread")

/-- `filewrite`'s `max`: what one log transaction can take. -/
def filewriteMax : Int := ((MAXOPBLOCKS - 1 - 1 - 2) / 2) * 512

/-- The size `n1` of `filewrite`'s next chunk. -/
def chunk (n i : Int) : Int := if n - i > filewriteMax then filewriteMax else n - i

theorem chunk_pos {n i : Int} (h : i < n) : 0 < chunk n i := by
  unfold chunk
  split
  · decide
  · omega

/-- `filewrite`'s loop; `writei i` is the result of the call made at position `i`. -/
def filewriteLoop (k : Kernel) (f : Fin NFILE) (writei : Int → Int) (n i : Int) :
    Except Fault (Kernel × Int) :=
  if i < n then
    if writei i < 0 then .ok (k, -1)
    else if writei i ≠ chunk n i then .error (.panic "short filewrite")
    else filewriteLoop (advance k f (writei i)) f writei n (i + writei i)
  else .ok (k, if i = n then n else -1)
termination_by (n - i).toNat
decreasing_by
  rename_i hlt _ hr
  have hpos := chunk_pos hlt
  omega

/-- `filewrite`, given what `pipewrite` or each `writei` returns. -/
def filewrite (k : Kernel) (f : Fin NFILE) (n pipewrite : Int) (writei : Int → Int) :
    Except Fault (Kernel × Int) :=
  if (k.ftable f).writable = false then .ok (k, -1)
  else match (k.ftable f).type with
    | .FD_PIPE => .ok (k, pipewrite)
    | .FD_INODE => filewriteLoop k f writei n 0
    | .FD_NONE => .error (.panic "filewrite")

/-! ### Descriptors -/

/-- The slot of `ofile` with index `fd`. -/
def slot (fd : Int) : Option (Fin NOFILE) :=
  if h : 0 ≤ fd ∧ fd < NOFILE then some ⟨fd.toNat, by omega⟩ else none

/-- The slot and entry of descriptor `fd`, if it is open. -/
def openFd (k : Kernel) (p : Fin NPROC) (fd : Int) : Option (Fin NOFILE × Fin NFILE) :=
  (slot fd).bind fun i => (k.ofile p i).map fun f => (i, f)

/-- `argfd(n, &fd, &f)`; `args n` is what `argint(n, ·)` fetches. -/
def argfd (k : Kernel) (p : Fin NPROC) (args : Nat → Option Int) (n : Nat) :
    Option (Fin NOFILE × Fin NFILE) :=
  (args n).bind (openFd k p)

def fdalloc (k : Kernel) (p : Fin NPROC) (f : Fin NFILE) : Option (Kernel × Fin NOFILE) :=
  match (List.finRange NOFILE).find? fun fd => k.ofile p fd = none with
  | some fd => some (k.setSlot p fd (some f), fd)
  | none => none

/-- `myproc()->ofile[fd] = f` for an unchecked index. -/
def setOfile (k : Kernel) (p : Fin NPROC) (fd : Int) (f : Option (Fin NFILE)) :
    Except Fault Kernel :=
  match slot fd with
  | some i => .ok (k.setSlot p i f)
  | none => .error .outOfBounds

/-! ### System calls on descriptors -/

def sysDup (k : Kernel) (p : Fin NPROC) (args : Nat → Option Int) :
    Except Fault (Kernel × Int) :=
  match argfd k p args 0 with
  | none => .ok (k, -1)
  | some (_, f) =>
      match fdalloc k p f with
      | none => .ok (k, -1)
      | some (k, fd) => do
          let k ← filedup k f
          pure (k, fd.val)

/-- `sys_dup2`'s second `argfd`, which closes `newfd` when it is open and leaves the local
variable `newfd` as it is otherwise. -/
def dup2Close (k : Kernel) (p : Fin NPROC) (args : Nat → Option Int) (newfd : Int) :
    Except Fault (Kernel × Int) :=
  match argfd k p args 1 with
  | some (newfd, newfile) => do
      let (k, _) ← fileclose k newfile
      pure (k, newfd.val)
  | none => .ok (k, newfd)

/-- `sys_dup2`; `newfd` is the value the uninitialised local variable happens to hold. -/
def sysDup2 (k : Kernel) (p : Fin NPROC) (args : Nat → Option Int) (newfd : Int) :
    Except Fault (Kernel × Int) :=
  match argfd k p args 0 with
  | none => .ok (k, -1)
  | some (oldfd, oldfile) => do
      let (k, newfd) ← dup2Close k p args newfd
      let k ← filedup k oldfile
      let k ← setOfile k p newfd (k.ofile p oldfd)
      pure (k, newfd)

def sysRead (k : Kernel) (p : Fin NPROC) (args : Nat → Option Int) (argptr : Bool) (r : Int) :
    Except Fault (Kernel × Int) :=
  match argfd k p args 0, args 2, argptr with
  | some (_, f), some _, true => fileread k f r
  | _, _, _ => .ok (k, -1)

def sysWrite (k : Kernel) (p : Fin NPROC) (args : Nat → Option Int) (argptr : Bool)
    (pipewrite : Int) (writei : Int → Int) : Except Fault (Kernel × Int) :=
  match argfd k p args 0, args 2, argptr with
  | some (_, f), some n, true => filewrite k f n pipewrite writei
  | _, _, _ => .ok (k, -1)

def sysClose (k : Kernel) (p : Fin NPROC) (args : Nat → Option Int) :
    Except Fault (Kernel × Int) :=
  match argfd k p args 0 with
  | none => .ok (k, -1)
  | some (fd, f) => do
      let (k, _) ← fileclose (k.setSlot p fd none) f
      pure (k, 0)

def O_WRONLY : UInt32 := 0x001
def O_RDWR : UInt32 := 0x002

/-- `sys_open` from `filealloc` on; `ip` is the inode that `create`, or `namei` and the
check on directories, leaves it with. -/
def sysOpen (k : Kernel) (p : Fin NPROC) (ip : Option Nat) (omode : UInt32) :
    Except Fault (Kernel × Int) :=
  match ip with
  | none => .ok (k, -1)
  | some ip =>
      match filealloc k with
      | none => .ok (k, -1)
      | some (k, f) =>
          match fdalloc k p f with
          | none => do
              let (k, _) ← fileclose k f
              pure (k, -1)
          | some (k, fd) =>
              .ok (k.setFile f { k.ftable f with
                type := .FD_INODE
                ip := ip
                off := 0
                readable := omode &&& O_WRONLY == 0
                writable := omode &&& O_WRONLY != 0 || omode &&& O_RDWR != 0 }, fd.val)

/-- `pipealloc`; `kalloc` is the page for the pipe, if there is one. -/
def pipealloc (k : Kernel) (kalloc : Option Nat) :
    Except Fault (Kernel × Option (Fin NFILE × Fin NFILE)) :=
  match filealloc k with
  | none => .ok (k, none)
  | some (k, f0) =>
      match filealloc k with
      | none => do
          let (k, _) ← fileclose k f0
          pure (k, none)
      | some (k, f1) =>
          match kalloc with
          | none => do
              let (k, _) ← fileclose k f0
              let (k, _) ← fileclose k f1
              pure (k, none)
          | some pipe =>
              let k := k.setFile f0 { k.ftable f0 with
                type := .FD_PIPE, readable := true, writable := false, pipe := pipe }
              let k := k.setFile f1 { k.ftable f1 with
                type := .FD_PIPE, readable := false, writable := true, pipe := pipe }
              .ok (k, some (f0, f1))

def sysPipe (k : Kernel) (p : Fin NPROC) (argptr : Bool) (kalloc : Option Nat) :
    Except Fault (Kernel × Int) :=
  if argptr = false then .ok (k, -1)
  else do
    match ← pipealloc k kalloc with
    | (k, none) => pure (k, -1)
    | (k, some (rf, wf)) =>
        match fdalloc k p rf with
        | none => do
            let (k, _) ← fileclose k rf
            let (k, _) ← fileclose k wf
            pure (k, -1)
        | some (k, fd0) =>
            match fdalloc k p wf with
            | none => do
                let k := k.setSlot p fd0 none
                let (k, _) ← fileclose k rf
                let (k, _) ← fileclose k wf
                pure (k, -1)
            | some (k, _) => pure (k, 0)

/-! ### `proc.c` -/

/-- `allocproc`; a failing `kalloc` gives the slot back. -/
def allocproc (k : Kernel) (kalloc : Bool) : Kernel × Option (Fin NPROC) :=
  match (List.finRange NPROC).find? fun p => (k.ptable p).state = .UNUSED with
  | none => (k, none)
  | some np =>
      let k := { k.setProc np { k.ptable np with state := .EMBRYO, pid := k.nextpid } with
        nextpid := k.nextpid + 1 }
      if kalloc then (k, some np)
      else (k.setProc np { k.ptable np with state := .UNUSED }, none)

/-- One iteration of `fork`'s loop over the descriptors. -/
def forkSlot (p np : Fin NPROC) (k : Kernel) (fd : Fin NOFILE) : Except Fault Kernel :=
  match k.ofile p fd with
  | none => .ok k
  | some f => do
      let k ← filedup k f
      pure (k.setSlot np fd (some f))

def fork (k : Kernel) (p : Fin NPROC) (kalloc copyuvm : Bool) : Except Fault (Kernel × Int) :=
  match allocproc k kalloc with
  | (k, none) => .ok (k, -1)
  | (k, some np) =>
      if copyuvm = false then
        .ok (k.setProc np { k.ptable np with state := .UNUSED }, -1)
      else do
        let k := k.setProc np { k.ptable np with parent := some p }
        let k ← (List.finRange NOFILE).foldlM (forkSlot p np) k
        let k := k.setProc np { k.ptable np with cwd := (k.ptable p).cwd, state := .RUNNABLE }
        pure (k, (k.ptable np).pid)

/-- One iteration of `exit`'s loop over the descriptors. -/
def exitSlot (p : Fin NPROC) (k : Kernel) (fd : Fin NOFILE) : Except Fault Kernel :=
  match k.ofile p fd with
  | none => .ok k
  | some f => do
      let (k, _) ← fileclose k f
      pure (k.setSlot p fd none)

/-- Pass abandoned children to init. -/
def reparent (p : Fin NPROC) (k : Kernel) : Kernel :=
  { k with
    ptable := fun q =>
      if (k.ptable q).parent = some p then { k.ptable q with parent := some k.initproc }
      else k.ptable q }

/-- `exit`; the slot then waits for its parent. -/
def exit (k : Kernel) (p : Fin NPROC) : Except Fault Kernel :=
  if p = k.initproc then .error (.panic "init exiting")
  else do
    let k ← (List.finRange NOFILE).foldlM (exitSlot p) k
    let k := k.setProc p { k.ptable p with cwd := none }
    let k := reparent p k
    pure (k.setProc p { k.ptable p with state := .ZOMBIE })

/-- `wait`, when a child has exited: its slot becomes UNUSED. -/
def wait (k : Kernel) (p : Fin NPROC) : Option (Kernel × Int) :=
  match (List.finRange NPROC).find? fun q =>
      (k.ptable q).parent = some p ∧ (k.ptable q).state = .ZOMBIE with
  | some q =>
      some (k.setProc q { k.ptable q with pid := 0, parent := none, state := .UNUSED },
        (k.ptable q).pid)
  | none => none

end Xv6
