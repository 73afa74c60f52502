import Xv6.Path

/-!
**System calls on paths** (`sysfile.c`), and the calls that give references to inodes back:
`close`, `fork`, `exit`.

Arguments are what `argstr` and `argint` fetch, `none` when one of them fails. The
steps of `sys_open` from `filealloc` on are those of `File`; nobody else knows the new
file yet, so they are one step here.
-/

namespace Xv6.Fs

open Program

/-! ### Link and unlink -/

def linkBad (ip : Nat) : Fprog Int := do
  ilock ip
  iupdate ip fun d => d.addLink (-1)
  iunlockput [] ip
  pure (-1)

/-- `sys_link` with `ip` found and counted. -/
def linkInto (p : Fin NPROC) (ip : Nat) (new : Path) : Fprog Int := do
  match ← nameiparent p new with
  | none => linkBad ip
  | some (dp, name) => do
      ilock dp
      let r ← dirlink [dp] dp name ip
      if r < 0 then do
        iunlockput [] dp
        linkBad ip
      else do
        iunlockput [] dp
        iput [] ip
        pure 0

def sysLink (p : Fin NPROC) (args : Option (Path × Path)) : Fprog Int :=
  match args with
  | none => pure (-1)
  | some (old, new) => do
      match ← namei p old with
      | none => pure (-1)
      | some ip => do
          ilock ip
          let type ← reads fun s => (s.inode ip).type
          if type = .T_DIR then do
            iunlockput [] ip
            pure (-1)
          else do
            iupdate ip fun d => d.addLink 1
            iunlock ip
            linkInto p ip new

/-- No entry in use after the first two. -/
def isdirempty (d : Inode) : Bool := (d.ents.drop 2).all fun e => e.inum = 0

def unlinkBad (dp : Nat) : Fprog Int := do
  iunlockput [] dp
  pure (-1)

def unlinkEntry (dp ip off : Nat) (type : InodeType) : Fprog Int := do
  iupdate dp fun d => d.write off Dirent.zero
  onlyIf (type = .T_DIR) (iupdate dp fun d => d.addLink (-1))
  iunlockput [ip] dp
  iupdate ip fun d => d.addLink (-1)
  iunlockput [] ip
  pure 0

/-- `sys_unlink` with the parent `dp` locked. -/
def unlinkIn (dp : Nat) (name : Name) : Fprog Int :=
  if name = dot ∨ name = dotdot then unlinkBad dp
  else do
    match ← dirlookup dp name with
    | none => unlinkBad dp
    | some (ip, off) => do
        ilock ip
        let d ← reads fun s => s.inode ip
        if d.nlink < 1 then .panic "unlink: nlink < 1"
        else if d.type = .T_DIR ∧ isdirempty d = false then do
          iunlockput [dp] ip
          unlinkBad dp
        else unlinkEntry dp ip off d.type

def sysUnlink (p : Fin NPROC) (args : Option Path) : Fprog Int :=
  match args with
  | none => pure (-1)
  | some path => do
      match ← nameiparent p path with
      | none => pure (-1)
      | some (dp, name) => do
          ilock dp
          unlinkIn dp name

/-! ### Create -/

def createDots (dp ip : Nat) : Fprog Unit := do
  iupdate dp fun d => d.addLink 1
  let r ← dirlink [ip, dp] ip dot ip
  if r < 0 then .panic "create dots"
  else do
    let r ← dirlink [ip, dp] ip dotdot dp
    if r < 0 then .panic "create dots" else pure ()

/-- `create` with the parent locked and the name not in it. -/
def createIn (dp : Nat) (name : Name) (type : InodeType) (major minor : Int) : Fprog Nat := do
  let ip ← ialloc type
  ilock ip
  iupdate ip fun d => { d with major := toShort major, minor := toShort minor, nlink := 1 }
  onlyIf (type = .T_DIR) (createDots dp ip)
  let r ← dirlink [ip, dp] dp name ip
  if r < 0 then .panic "create: dirlink"
  else do
    iunlockput [ip] dp
    pure ip

/-- `create`; the inode it returns is locked. -/
def create (p : Fin NPROC) (path : Path) (type : InodeType) (major minor : Int) :
    Fprog (Option Nat) := do
  match ← nameiparent p path with
  | none => pure none
  | some (dp, name) => do
      ilock dp
      match ← dirlookup dp name with
      | some (ip, _) => do
          iunlockput [] dp
          ilock ip
          let found ← reads fun s => (s.inode ip).type
          if type = .T_FILE ∧ found = .T_FILE then pure (some ip)
          else do
            iunlockput [] ip
            pure none
      | none => do
          let ip ← createIn dp name type major minor
          pure (some ip)

/-! ### Open, mkdir, mknod, chdir -/

def O_RDONLY : UInt32 := 0x000
def O_CREATE : UInt32 := 0x200

def onKernel {α : Type} (f : Kernel → Except Fault (Kernel × α)) : Fprog α :=
  atomic fun s =>
    match f s.kernel with
    | .ok (k, a) => .ok (a, { s with kernel := k })
    | .error (.panic msg) => .error msg
    | .error .outOfBounds => .error "trap"

/-- The inode that `sys_open` opens, locked. -/
def openInode (p : Fin NPROC) (path : Path) (omode : UInt32) : Fprog (Option Nat) :=
  if omode &&& O_CREATE ≠ 0 then create p path .T_FILE 0 0
  else do
    match ← namei p path with
    | none => pure none
    | some ip => do
        ilock ip
        let type ← reads fun s => (s.inode ip).type
        if type = .T_DIR ∧ omode ≠ O_RDONLY then do
          iunlockput [] ip
          pure none
        else pure (some ip)

def sysOpen (p : Fin NPROC) (args : Option (Path × UInt32)) : Fprog Int :=
  match args with
  | none => pure (-1)
  | some (path, omode) => do
      match ← openInode p path omode with
      | none => pure (-1)
      | some ip => do
          let fd ← onKernel fun k => Xv6.sysOpen k p (some ip) omode
          if fd < 0 then do
            iunlockput [] ip
            pure (-1)
          else do
            iunlock ip
            pure fd

/-- `sys_mkdir` and `sys_mknod` after `create`. -/
def createDone (r : Option Nat) : Fprog Int :=
  match r with
  | none => pure (-1)
  | some ip => do
      iunlockput [] ip
      pure 0

def sysMkdir (p : Fin NPROC) (args : Option Path) : Fprog Int :=
  match args with
  | none => pure (-1)
  | some path => do
      let r ← create p path .T_DIR 0 0
      createDone r

def sysMknod (p : Fin NPROC) (args : Option (Path × Int × Int)) : Fprog Int :=
  match args with
  | none => pure (-1)
  | some (path, major, minor) => do
      let r ← create p path .T_DEV major minor
      createDone r

def setCwd (p : Fin NPROC) (cwd : Option Nat) (k : Kernel) : Kernel :=
  k.setProc p { k.ptable p with cwd := cwd }

def putCwd (p : Fin NPROC) : Fprog Unit := do
  match ← reads fun s => (s.kernel.ptable p).cwd with
  | some cwd => iput [] cwd
  | none => .panic "trap"

def sysChdir (p : Fin NPROC) (args : Option Path) : Fprog Int :=
  match args with
  | none => pure (-1)
  | some path => do
      match ← namei p path with
      | none => pure (-1)
      | some ip => do
          ilock ip
          let type ← reads fun s => (s.inode ip).type
          if type ≠ .T_DIR then do
            iunlockput [] ip
            pure (-1)
          else do
            iunlock ip
            putCwd p
            modify fun s => { s with kernel := setCwd p (some ip) s.kernel }
            pure 0

/-! ### Close, fork, exit -/

/-- `fileclose`, down to the `iput` of the last reference; a pipe's end is not a matter of
inodes. -/
def fileclose (f : Fin NFILE) : Fprog Unit := do
  match ← onKernel fun k => Xv6.fileclose k f with
  | some ff => onlyIf (ff.type = .FD_INODE) (iput [] ff.ip)
  | none => pure ()

def sysClose (p : Fin NPROC) (fd : Option Int) : Fprog Int := do
  match ← reads fun s => argfd s.kernel p (fun _ => fd) 0 with
  | none => pure (-1)
  | some (fd, f) => do
      modify fun s => { s with kernel := s.kernel.setSlot p fd none }
      fileclose f
      pure 0

/-- `fork`; `kalloc` and `copyuvm` tell whether there is memory for the child. -/
def fork (p : Fin NPROC) (kalloc copyuvm : Bool) : Fprog Int := do
  let pid ← onKernel fun k => Xv6.fork k p kalloc copyuvm
  if pid < 0 then pure pid
  else do
    match ← reads fun s => (s.kernel.ptable p).cwd with
    | some cwd => do
        idup cwd
        pure pid
    | none => .panic "trap"

def exitFiles (p : Fin NPROC) : List (Fin NOFILE) → Fprog Unit
  | [] => pure ()
  | fd :: fds => do
      match ← reads fun s => s.kernel.ofile p fd with
      | some f => do
          fileclose f
          modify fun s => { s with kernel := s.kernel.setSlot p fd none }
          exitFiles p fds
      | none => exitFiles p fds

def exit (p : Fin NPROC) : Fprog Unit := do
  let initproc ← reads fun s => s.kernel.initproc
  if p = initproc then .panic "init exiting"
  else do
    exitFiles p (List.finRange NOFILE)
    putCwd p
    modify fun s =>
      let k := reparent p (setCwd p none s.kernel)
      { s with kernel := k.setProc p { k.ptable p with state := .ZOMBIE } }

/-! ### Calls -/

/-- The calls that look up paths. -/
inductive PathCall where
  | SYS_link (args : Option (Path × Path))
  | SYS_unlink (args : Option Path)
  | SYS_open (args : Option (Path × UInt32))
  | SYS_mkdir (args : Option Path)
  | SYS_mknod (args : Option (Path × Int × Int))
  | SYS_chdir (args : Option Path)

def PathCall.run (p : Fin NPROC) : PathCall → Fprog Int
  | .SYS_link args => sysLink p args
  | .SYS_unlink args => sysUnlink p args
  | .SYS_open args => sysOpen p args
  | .SYS_mkdir args => sysMkdir p args
  | .SYS_mknod args => sysMknod p args
  | .SYS_chdir args => sysChdir p args

end Xv6.Fs
