import Xv6.BlocksOps
import Xv6.SysFile

/-!
**The system calls of the file system, on the blocks of the disk**: `namex` of `fs.c`,
`sysfile.c`, and what `file.c`, `exec.c` and `proc.c` do to inodes.

A `Transaction` is what runs between one `begin_op` and its `end_op`, or a call that
needs none. `sys_write` is as many of them as `filewrite`'s loop has turns, and `exit`
is one for each file it closes and one for its directory.

`Tables` is who refers to inodes between two calls: the entries of `ftable` that are open
on an inode, and the current directories. Descriptors and the counts of references to a
file are `File`'s matter: what `filealloc` and `fdalloc` answer is an argument here, and
so are the offset of a file, what a device returns and what `exec` reads.
-/

namespace Xv6.Blocks

open Program
open Xv6.Fs (Path SLASH O_RDONLY O_CREATE)

namespace Dinode

def addLink (d : Dinode) : Dinode := { d with nlink := d.nlink + 1 }

def created (major minor : UInt16) (d : Dinode) : Dinode :=
  { d with major := major, minor := minor, nlink := 1 }

end Dinode

/-- Change the fields of a locked inode, and store it. -/
def restore (ip : Nat) (f : Dinode → Dinode) : Bprog Unit := do
  setCopy ip f
  iupdate ip

def idup (i : Nat) : Bprog Unit :=
  modify fun s => s.setIncore i { s.icache i with ref := (s.icache i).ref + 1 }

/-! ### Paths -/

/-- `namex`'s loop at `ip`, with these elements to go. -/
def walk (parent : Bool) : List (List UInt8) → Nat → Iprog (Option (Nat × List UInt8))
  | [], ip =>
      if parent then do
        iput ip
        pure none
      else pure (some (ip, []))
  | name :: rest, ip => do
      ilock ip
      let type ← reads fun s => (s.copy ip).type
      if type ≠ T_DIR then do
        iunlockput ip
        pure none
      else if parent ∧ rest = [] then do
        -- stop one level early
        iunlock ip
        pure (some (ip, name))
      else
        match ← (dirlookup ip name).lift with
        | none => do
            iunlockput ip
            pure none
        | some (next, _) => do
            iunlockput ip
            walk parent rest next

/-- The inode that the path starts from, with a reference. -/
def start (cwd : Nat) (path : Path) : Iprog Nat :=
  if path.head? = some SLASH then do
    (iget ROOTINO).lift
    pure ROOTINO
  else do
    (idup cwd).lift
    pure cwd

def namex (cwd : Nat) (parent : Bool) (path : Path) : Iprog (Option (Nat × List UInt8)) := do
  let ip ← start cwd path
  walk parent ((Xv6.Fs.elements path).map Subtype.val) ip

def namei (cwd : Nat) (path : Path) : Iprog (Option Nat) := do
  let r ← namex cwd false path
  pure (r.map Prod.fst)

def nameiparent (cwd : Nat) (path : Path) : Iprog (Option (Nat × List UInt8)) :=
  namex cwd true path

/-! ### Link and unlink -/

def linkBad (ip : Nat) : Iprog Int := do
  ilock ip
  (dropLink ip).lift
  iunlockput ip
  pure (-1)

/-- `sys_link` with `ip` found and counted; there is one device, so `dp->dev == ip->dev`. -/
def linkInto (cwd ip : Nat) (new : Path) : Iprog Int := do
  match ← nameiparent cwd new with
  | none => linkBad ip
  | some (dp, name) => do
      ilock dp
      let r ← dirlink dp name ip
      if r < 0 then do
        iunlockput dp
        linkBad ip
      else do
        iunlockput dp
        iput ip
        pure 0

def sysLink (cwd : Nat) (old new : Path) : Iprog Int := do
  match ← namei cwd old with
  | none => pure (-1)
  | some ip => do
      ilock ip
      let type ← reads fun s => (s.copy ip).type
      if type = T_DIR then do
        iunlockput ip
        pure (-1)
      else do
        (restore ip Dinode.addLink).lift
        iunlock ip
        linkInto cwd ip new

def sysUnlink (cwd : Nat) (path : Path) : Iprog Int := do
  match ← nameiparent cwd path with
  | none => pure (-1)
  | some (dp, name) => unlink dp name

/-! ### Create -/

/-- `dirlink`, which must not fail. -/
def mustLink (msg : String) (dp : Nat) (name : List UInt8) (inum : Nat) : Iprog Unit := do
  let r ← dirlink dp name inum
  if r < 0 then .panic msg else pure ()

/-- The entries `.` and `..` of a new directory. -/
def createDots (dp ip : Nat) : Iprog Unit := do
  (restore dp Dinode.addLink).lift
  mustLink "create dots" ip [46] ip
  mustLink "create dots" ip [46, 46] dp

/-- `create` with the parent locked and the name not in it. -/
def createIn (dp : Nat) (name : List UInt8) (type major minor : UInt16) : Iprog Nat := do
  let ip ← (ialloc type).lift
  ilock ip
  (restore ip (Dinode.created major minor)).lift
  onlyIf (type = T_DIR) (createDots dp ip)
  mustLink "create: dirlink" dp name ip
  iunlockput dp
  pure ip

/-- `create`; the inode it returns is locked. -/
def create (cwd : Nat) (path : Path) (type major minor : UInt16) : Iprog (Option Nat) := do
  match ← nameiparent cwd path with
  | none => pure none
  | some (dp, name) => do
      ilock dp
      match ← (dirlookup dp name).lift with
      | some (ip, _) => do
          iunlockput dp
          ilock ip
          let found ← reads fun s => (s.copy ip).type
          if type = T_FILE ∧ found = T_FILE then pure (some ip)
          else do
            iunlockput ip
            pure none
      | none => do
          let ip ← createIn dp name type major minor
          pure (some ip)

/-! ### Open, mkdir, mknod, chdir, exec -/

/-- The inode that `sys_open` opens, locked. -/
def openInode (cwd : Nat) (path : Path) (omode : UInt32) : Iprog (Option Nat) :=
  if omode &&& O_CREATE ≠ 0 then create cwd path T_FILE 0 0
  else do
    match ← namei cwd path with
    | none => pure none
    | some ip => do
        ilock ip
        let type ← reads fun s => (s.copy ip).type
        if type = T_DIR ∧ omode ≠ O_RDONLY then do
          iunlockput ip
          pure none
        else pure (some ip)

/-- `sys_open`, down to the inode behind the new file; `room` tells whether `filealloc` and
`fdalloc` find a place for it. -/
def sysOpen (cwd : Nat) (path : Path) (omode : UInt32) (room : Bool) : Iprog (Option Nat) := do
  match ← openInode cwd path omode with
  | none => pure none
  | some ip =>
      if room = false then do
        iunlockput ip
        pure none
      else do
        iunlock ip
        pure (some ip)

def sysCreate (cwd : Nat) (path : Path) (type major minor : UInt16) : Iprog Int := do
  match ← create cwd path type major minor with
  | none => pure (-1)
  | some ip => do
      iunlockput ip
      pure 0

def sysMkdir (cwd : Nat) (path : Path) : Iprog Int := sysCreate cwd path T_DIR 0 0

/-- `create` takes the numbers as `short`s. -/
def sysMknod (cwd : Nat) (path : Path) (major minor : UInt32) : Iprog Int :=
  sysCreate cwd path T_DEV major.toUInt16 minor.toUInt16

def sysChdir (cwd : Nat) (path : Path) : Iprog (Option Nat) := do
  match ← namei cwd path with
  | none => pure none
  | some ip => do
      ilock ip
      let type ← reads fun s => (s.copy ip).type
      if type ≠ T_DIR then do
        iunlockput ip
        pure none
      else do
        iunlock ip
        iput cwd
        pure (some ip)

/-- `readi` at these offsets, of these lengths. -/
def readAll (devsw : Nat → Option (Int × List UInt8)) (ip : Nat) :
    List (UInt32 × UInt32) → Bprog Unit
  | [] => pure ()
  | (off, n) :: rest => do
      let _ ← readi devsw ip off.toNat n.toNat
      readAll devsw ip rest

def sysExec (devsw : Nat → Option (Int × List UInt8)) (cwd : Nat) (path : Path)
    (parts : List (UInt32 × UInt32)) : Iprog Unit := do
  match ← namei cwd path with
  | none => pure ()
  | some ip => do
      ilock ip
      (readAll devsw ip parts).lift
      iunlockput ip

/-! ### Files -/

def fileread (devsw : Nat → Option (Int × List UInt8)) (ip off n : Nat) :
    Iprog (Int × List UInt8) := do
  ilock ip
  let r ← (readi devsw ip off n).lift
  iunlock ip
  pure r

/-- A turn of `filewrite`'s loop, with the chunk `n1` that it takes of the rest `n`. -/
def filewrite (devsw : Nat → Option Int) (ip : Nat) (src : Nat → UInt8) (off n : Nat) :
    Iprog Int := do
  ilock ip
  let r ← (writei devsw ip src off (min n filewriteMax.toNat)).lift
  iunlock ip
  pure r

/-- `filestat`; `stati` copies fields of the locked inode. -/
def filestat (ip : Nat) : Iprog Dinode := do
  ilock ip
  let d ← reads fun s => s.copy ip
  iunlock ip
  pure d

/-! ### Transactions -/

structure OpenFile where
  ip : Nat
  writable : Bool
deriving DecidableEq

structure Tables where
  files : List OpenFile
  cwds : List Nat

inductive Transaction where
  | SYS_link (cwd : Nat) (old new : Path)
  | SYS_unlink (cwd : Nat) (path : Path)
  | SYS_open (cwd : Nat) (path : Path) (omode : UInt32) (room : Bool)
  | SYS_mkdir (cwd : Nat) (path : Path)
  | SYS_mknod (cwd : Nat) (path : Path) (major minor : UInt32)
  | SYS_chdir (cwd : Nat) (path : Path)
  | SYS_exec (cwd : Nat) (path : Path) (devsw : Nat → Option (Int × List UInt8))
      (parts : List (UInt32 × UInt32))
  | fileread (f : OpenFile) (devsw : Nat → Option (Int × List UInt8)) (off n : UInt32)
  | filewrite (f : OpenFile) (devsw : Nat → Option Int) (src : Nat → UInt8) (off n : UInt32)
  | filestat (f : OpenFile)
  /-- The last reference to the file goes. -/
  | fileclose (f : OpenFile)
  /-- `np->cwd = idup(curproc->cwd)`. -/
  | fork (cwd : Nat)
  /-- `iput(curproc->cwd)`. -/
  | exit (cwd : Nat)

namespace Transaction

/-- The caller is in this directory, and has this file open. -/
def Allowed (t : Tables) : Transaction → Prop
  | SYS_link cwd _ _ | SYS_unlink cwd _ | SYS_open cwd _ _ _ | SYS_mkdir cwd _
  | SYS_mknod cwd _ _ _ | SYS_chdir cwd _ | SYS_exec cwd _ _ _ | fork cwd | exit cwd => cwd ∈ t.cwds
  | filewrite f _ _ _ _ => f ∈ t.files ∧ f.writable = true
  | fileread f _ _ _ | filestat f | fileclose f => f ∈ t.files

instance (t : Tables) (c : Transaction) : Decidable (c.Allowed t) := by
  cases c <;> unfold Allowed <;> infer_instance

/-- `f->writable` for this mode. -/
def isWritable (omode : UInt32) : Bool := omode &&& O_WRONLY != 0 || omode &&& O_RDWR != 0

def run (t : Tables) : Transaction → Iprog Tables
  | SYS_link cwd old new => do
      let _ ← sysLink cwd old new
      pure t
  | SYS_unlink cwd path => do
      let _ ← sysUnlink cwd path
      pure t
  | SYS_open cwd path omode room => do
      match ← sysOpen cwd path omode room with
      | none => pure t
      | some ip => pure { t with files := ⟨ip, isWritable omode⟩ :: t.files }
  | SYS_mkdir cwd path => do
      let _ ← sysMkdir cwd path
      pure t
  | SYS_mknod cwd path major minor => do
      let _ ← sysMknod cwd path major minor
      pure t
  | SYS_chdir cwd path => do
      match ← sysChdir cwd path with
      | none => pure t
      | some ip => pure { t with cwds := ip :: t.cwds.erase cwd }
  | SYS_exec cwd path devsw parts => do
      sysExec devsw cwd path parts
      pure t
  | fileread f devsw off n => do
      let _ ← Blocks.fileread devsw f.ip off.toNat n.toNat
      pure t
  | filewrite f devsw src off n => do
      let _ ← Blocks.filewrite devsw f.ip src off.toNat n.toNat
      pure t
  | filestat f => do
      let _ ← Blocks.filestat f.ip
      pure t
  | fileclose f => do
      iput f.ip
      pure { t with files := t.files.erase f }
  | fork cwd => do
      (idup cwd).lift
      pure { t with cwds := cwd :: t.cwds }
  | exit cwd => do
      iput cwd
      pure { t with cwds := t.cwds.erase cwd }

end Transaction

end Xv6.Blocks
