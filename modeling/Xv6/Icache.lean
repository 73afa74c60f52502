import Xv6.SysFile

/-!
**The inode cache slot by slot**, and the system calls that take references to its slots.

Here `struct inode *` is the index of a slot of `icache.inode`; `f->ip` and `cwd` of the
tables of `File` name slots. A slot has the device and the number of the inode it holds, its
reference count, and a copy of the inode of its own that is separate from the one on the disk:
that two slots never hold the same inode is something to prove. An inode comes with its bytes,
which are what its blocks hold; running out of blocks is the subject of `Blocks`.

`puts` is a record of all `iput`s so far. No execution looks at it.
-/

namespace Xv6.Icache

open Program Function
open Fs (Name Path Dirent InodeType SLASH dot dotdot elements O_CREATE O_RDONLY setCwd)

/-! ### Inodes and directories -/

def ROOTDEV : Nat := 1

/-- `struct dinode`, with the bytes of the file. -/
structure Dinode where
  type : InodeType
  major : Int
  minor : Int
  nlink : Int
  data : List UInt8
deriving DecidableEq

namespace Dinode

def size (d : Dinode) : Nat := d.data.length

def addLink (d : Dinode) (n : Int) : Dinode := { d with nlink := toShort (d.nlink + n) }

/-- What `ialloc` makes of a free inode. -/
def blank (type : InodeType) : Dinode where
  type := type
  major := 0
  minor := 0
  nlink := 0
  data := []

/-- `itrunc`, and `ip->type = 0`. -/
def cleared (d : Dinode) : Dinode := { d with type := .free, data := [] }

/-- `readi` of a file or directory: how much it reads, and what. -/
def readi (d : Dinode) (off n : Nat) : Int × List UInt8 :=
  if d.size < off ∨ 2 ^ 32 ≤ off + n then (-1, [])
  else
    let n := if d.size < off + n then d.size - off else n
    (n, (d.data.drop off).take n)

/-- `writei` of a file or directory, unless it returns -1. -/
def writei (d : Dinode) (off : Nat) (src : List UInt8) : Option Dinode :=
  if d.size < off ∨ 2 ^ 32 ≤ off + src.length then none
  else if MAXFILE * BSIZE < off + src.length then none
  else some { d with data := d.data.take off ++ src ++ d.data.drop (off + src.length) }

end Dinode

def DIRENTSZ : Nat := 16

/-- The entry in these bytes; its name ends at the first NUL. -/
def direntOf (bytes : List UInt8) : Dirent where
  inum := (bytes.getD 0 0).toUInt16 ||| ((bytes.getD 1 0).toUInt16 <<< 8)
  name := Name.ofBytes (((bytes.drop 2).take DIRSIZ).takeWhile (· != 0))

/-- The bytes of an entry; `strncpy` fills the name up with NULs. -/
def direntBytes (inum : UInt16) (name : Name) : List UInt8 :=
  [inum.toUInt8, (inum >>> 8).toUInt8] ++ name.val ++ List.replicate (DIRSIZ - name.val.length) 0

/-- How a loop over the entries of a directory ends. -/
inductive Scan where
  | found (off : Nat) (e : Dirent)
  /-- At the end of the directory. -/
  | ended (off : Nat)
  /-- `readi` did not get a whole entry. -/
  | short

/-- `for(; off < dp->size; off += sizeof(de))` until an entry is wanted, for `n` turns at most. -/
def scanDir (d : Dinode) (wanted : Dirent → Bool) : Nat → Nat → Scan
  | 0, off => .ended off
  | n + 1, off =>
      if off < d.size then
        let (r, bytes) := d.readi off DIRENTSZ
        if r ≠ DIRENTSZ then .short
        else if wanted (direntOf bytes) then .found off (direntOf bytes)
        else scanDir d wanted n (off + DIRENTSZ)
      else .ended off

/-- The loop from an offset to the end; `size / 16 + 1` turns are enough. -/
def scanFrom (d : Dinode) (wanted : Dirent → Bool) (off : Nat) : Scan :=
  scanDir d wanted (d.size / DIRENTSZ + 1) off

/-! ### The state -/

structure Slot where
  dev : Nat
  inum : Nat
  ref : Int
  valid : Bool
  copy : Dinode

/-- An `iput`: the count of its slot and the inode on the disk as it found them, and the inode
on the disk as it left it. -/
structure Put where
  ref : Int
  before : Dinode
  after : Dinode

structure State where
  kernel : Kernel
  ninodes : Nat
  disk : Nat → Dinode
  icache : Nat → Slot
  puts : List Put

namespace State

def setSlot (s : State) (ip : Nat) (e : Slot) : State :=
  { s with icache := update s.icache ip e }

def setRef (s : State) (ip : Nat) (ref : Int) : State := s.setSlot ip { s.icache ip with ref := ref }

def inum (s : State) (ip : Nat) : Nat := (s.icache ip).inum

/-- The inode on the disk that a slot is for. -/
def dinode (s : State) (ip : Nat) : Dinode := s.disk (s.inum ip)

/-- `ilock`'s read from the disk. -/
def load (s : State) (ip : Nat) : State :=
  s.setSlot ip { s.icache ip with copy := s.dinode ip, valid := true }

/-- `ip->xxx = …; iupdate(ip)`. -/
def store (s : State) (ip : Nat) (d : Dinode) : State :=
  { s.setSlot ip { s.icache ip with copy := d } with
    disk := update s.disk (s.inum ip) d }

/-- `itrunc`, type 0, `iupdate`, `ip->valid = 0`. -/
def free (s : State) (ip : Nat) : State :=
  let s := s.store ip (s.icache ip).copy.cleared
  s.setSlot ip { s.icache ip with valid := false }

end State

abbrev Iprog := Prog State Unit Nat

/-! ### The cache -/

/-- `iget`'s loop: the slot that holds the inode, or the first empty one. -/
def scanSlots (icache : Nat → Slot) (dev inum : Nat) : List Nat → Option Nat → Except (Option Nat) Nat
  | [], empty => .error empty
  | ip :: ips, empty =>
      if 0 < (icache ip).ref ∧ (icache ip).dev = dev ∧ (icache ip).inum = inum then .ok ip
      else scanSlots icache dev inum ips
        (if empty = none ∧ (icache ip).ref = 0 then some ip else empty)

def iget (dev inum : Nat) : Iprog Nat :=
  atomic fun s =>
    match scanSlots s.icache dev inum (List.range NINODE) none with
    | .ok ip => .ok (ip, s.setRef ip ((s.icache ip).ref + 1))
    | .error (some ip) =>
        .ok (ip, s.setSlot ip { s.icache ip with dev := dev, inum := inum, ref := 1, valid := false })
    | .error none => .error "iget: no inodes"

def idup (ip : Nat) : Iprog Unit := modify fun s => s.setRef ip ((s.icache ip).ref + 1)

def ilock (ip : Nat) : Iprog Unit := do
  let ref ← reads fun s => (s.icache ip).ref
  if ref < 1 then .panic "ilock"
  else do
    acquire () ip
    atomic fun s =>
      if (s.icache ip).valid then .ok ((), s)
      else if (s.dinode ip).type = .free then .error "ilock: no type"
      else .ok ((), s.load ip)

def iunlock (ip : Nat) : Iprog Unit := do
  let ref ← reads fun s => (s.icache ip).ref
  if ref < 1 then .panic "iunlock"
  else release ip

/-- `ip->valid && ip->nlink == 0`, and `r == 1`. -/
def last (s : State) (ip : Nat) : Bool :=
  (s.icache ip).valid && (s.icache ip).copy.nlink == 0 && (s.icache ip).ref == 1

/-- `ip->ref--`, and the record of what the `iput` that found `before` did. -/
def State.drop (before : State) (ip : Nat) (s : State) : State :=
  { s.setRef ip ((s.icache ip).ref - 1) with
    puts := s.puts ++ [⟨(before.icache ip).ref, before.dinode ip, s.dinode ip⟩] }

def iput (ip : Nat) : Iprog Unit := do
  acquire () ip
  let before ← reads id
  onlyIf (last before ip = true) (modify fun s => s.free ip)
  release ip
  modify (before.drop ip)

def iunlockput (ip : Nat) : Iprog Unit := do
  iunlock ip
  iput ip

/-- Claim the dinode `inum` if it is free. -/
def claim (type : InodeType) (inum : Nat) : Iprog Bool :=
  atomic fun s =>
    if (s.disk inum).type = .free then
      .ok (true, { s with disk := update s.disk inum (.blank type) })
    else .ok (false, s)

/-- `ialloc`'s loop, with `n` inodes left to look at. -/
def iallocLoop (dev : Nat) (type : InodeType) : Nat → Nat → Iprog Nat
  | 0, _ => .panic "ialloc: no inodes"
  | n + 1, inum => do
      match ← claim type inum with
      | true => iget dev inum
      | false => iallocLoop dev type n (inum + 1)

def ialloc (dev : Nat) (type : InodeType) : Iprog Nat := do
  let ninodes ← reads State.ninodes
  iallocLoop dev type (ninodes - 1) 1

def iupdate (ip : Nat) (f : Dinode → Dinode) : Iprog Unit :=
  modify fun s => s.store ip (f (s.icache ip).copy)

/-- `writei` of a directory entry, which must not fail. -/
def writeEntry (msg : String) (dp off : Nat) (bytes : List UInt8) : Iprog Unit :=
  atomic fun s =>
    match (s.icache dp).copy.writei off bytes with
    | some d => .ok ((), s.store dp d)
    | none => .error msg

/-! ### Directories and paths -/

def dirlookup (dp : Nat) (name : Name) : Iprog (Option (Nat × Nat)) := do
  let e ← reads fun s => s.icache dp
  if e.copy.type ≠ .T_DIR then .panic "dirlookup not DIR"
  else
    match scanFrom e.copy (fun de => de.inum ≠ 0 ∧ de.name = name) 0 with
    | .short => .panic "dirlookup read"
    | .ended _ => pure none
    | .found off de => do
        let ip ← iget e.dev de.inum.toNat
        pure (some (ip, off))

/-- The offset of the first entry not in use, or the end. -/
def emptyDirent (d : Dinode) : Option Nat :=
  match scanFrom d (fun de => de.inum = 0) 0 with
  | .short => none
  | .ended off => some off
  | .found off _ => some off

def dirlink (dp : Nat) (name : Name) (inum : Nat) : Iprog Int := do
  match ← dirlookup dp name with
  | some (ip, _) => do
      iput ip
      pure (-1)
  | none => do
      let d ← reads fun s => (s.icache dp).copy
      match emptyDirent d with
      | none => .panic "dirlink read"
      | some off => do
          writeEntry "dirlink" dp off (direntBytes (UInt16.ofNat inum) name)
          pure 0

/-- `namex`'s loop, at `ip` with these elements to go. -/
def walk (parent : Bool) : List Name → Nat → Iprog (Option (Nat × Name))
  | [], ip =>
      if parent then do
        iput ip
        pure none
      else pure (some (ip, Name.ofBytes []))
  | name :: rest, ip => do
      ilock ip
      let type ← reads fun s => (s.icache ip).copy.type
      if type ≠ .T_DIR then do
        iunlockput ip
        pure none
      else if parent ∧ rest = [] then do
        iunlock ip
        pure (some (ip, name))
      else
        match ← dirlookup ip name with
        | none => do
            iunlockput ip
            pure none
        | some (next, _) => do
            iunlockput ip
            walk parent rest next

/-- `idup(myproc()->cwd)`; a process without `cwd` faults. -/
def dupCwd (p : Fin NPROC) : Iprog Nat := do
  match ← reads fun s => (s.kernel.ptable p).cwd with
  | some cwd => do
      idup cwd
      pure cwd
  | none => .panic "trap"

/-- The inode a path starts from. -/
def start (p : Fin NPROC) (path : Path) : Iprog Nat :=
  if path.head? = some SLASH then iget ROOTDEV ROOTINO else dupCwd p

def namex (p : Fin NPROC) (parent : Bool) (path : Path) : Iprog (Option (Nat × Name)) := do
  let ip ← start p path
  walk parent (elements path) ip

def namei (p : Fin NPROC) (path : Path) : Iprog (Option Nat) := do
  let r ← namex p false path
  pure (r.map Prod.fst)

def nameiparent (p : Fin NPROC) (path : Path) : Iprog (Option (Nat × Name)) := namex p true path

/-! ### Link and unlink -/

def linkBad (ip : Nat) : Iprog Int := do
  ilock ip
  iupdate ip fun d => d.addLink (-1)
  iunlockput ip
  pure (-1)

/-- `dp->dev != ip->dev || dirlink(dp, name, ip->inum) < 0`, as a negative number. -/
def linkName (dp ip : Nat) (name : Name) : Iprog Int := do
  let s ← reads id
  if (s.icache dp).dev ≠ (s.icache ip).dev then pure (-1)
  else dirlink dp name (s.inum ip)

/-- `sys_link` with `ip` found and counted. -/
def linkInto (p : Fin NPROC) (ip : Nat) (new : Path) : Iprog Int := do
  match ← nameiparent p new with
  | none => linkBad ip
  | some (dp, name) => do
      ilock dp
      let r ← linkName dp ip name
      if r < 0 then do
        iunlockput dp
        linkBad ip
      else do
        iunlockput dp
        iput ip
        pure 0

def sysLink (p : Fin NPROC) (args : Option (Path × Path)) : Iprog Int :=
  match args with
  | none => pure (-1)
  | some (old, new) => do
      match ← namei p old with
      | none => pure (-1)
      | some ip => do
          ilock ip
          let type ← reads fun s => (s.icache ip).copy.type
          if type = .T_DIR then do
            iunlockput ip
            pure (-1)
          else do
            iupdate ip fun d => d.addLink 1
            iunlock ip
            linkInto p ip new

/-- The first entry in use after the first two, if there is one; `none` for a short read. -/
def isdirempty (d : Dinode) : Option Bool :=
  match scanFrom d (fun de => de.inum ≠ 0) (2 * DIRENTSZ) with
  | .short => none
  | .ended _ => some true
  | .found _ _ => some false

def unlinkBad (dp : Nat) : Iprog Int := do
  iunlockput dp
  pure (-1)

def unlinkEntry (dp ip off : Nat) (type : InodeType) : Iprog Int := do
  writeEntry "unlink: writei" dp off (List.replicate DIRENTSZ 0)
  onlyIf (type = .T_DIR) (iupdate dp fun d => d.addLink (-1))
  iunlockput dp
  iupdate ip fun d => d.addLink (-1)
  iunlockput ip
  pure 0

/-- `sys_unlink` with the parent `dp` locked. -/
def unlinkIn (dp : Nat) (name : Name) : Iprog Int :=
  if name = dot ∨ name = dotdot then unlinkBad dp
  else do
    match ← dirlookup dp name with
    | none => unlinkBad dp
    | some (ip, off) => do
        ilock ip
        let d ← reads fun s => (s.icache ip).copy
        if d.nlink < 1 then .panic "unlink: nlink < 1"
        else if d.type = .T_DIR then
          match isdirempty d with
          | none => .panic "isdirempty: readi"
          | some true => unlinkEntry dp ip off d.type
          | some false => do
              iunlockput ip
              unlinkBad dp
        else unlinkEntry dp ip off d.type

def sysUnlink (p : Fin NPROC) (args : Option Path) : Iprog Int :=
  match args with
  | none => pure (-1)
  | some path => do
      match ← nameiparent p path with
      | none => pure (-1)
      | some (dp, name) => do
          ilock dp
          unlinkIn dp name

/-! ### Create -/

/-- A `dirlink` whose failure is a panic. -/
def mustLink (msg : String) (dp : Nat) (name : Name) (inum : Nat) : Iprog Unit := do
  let r ← dirlink dp name inum
  if r < 0 then .panic msg else pure ()

def createDots (dp ip : Nat) : Iprog Unit := do
  iupdate dp fun d => d.addLink 1
  let s ← reads id
  mustLink "create dots" ip dot (s.inum ip)
  mustLink "create dots" ip dotdot (s.inum dp)

/-- `create` with the parent locked and the name not in it. -/
def createIn (dp : Nat) (name : Name) (type : InodeType) (major minor : Int) : Iprog Nat := do
  let dev ← reads fun s => (s.icache dp).dev
  let ip ← ialloc dev type
  ilock ip
  iupdate ip fun d => { d with major := toShort major, minor := toShort minor, nlink := 1 }
  onlyIf (type = .T_DIR) (createDots dp ip)
  let inum ← reads fun s => s.inum ip
  mustLink "create: dirlink" dp name inum
  iunlockput dp
  pure ip

/-- `create`; the inode it returns is locked. -/
def create (p : Fin NPROC) (path : Path) (type : InodeType) (major minor : Int) :
    Iprog (Option Nat) := do
  match ← nameiparent p path with
  | none => pure none
  | some (dp, name) => do
      ilock dp
      match ← dirlookup dp name with
      | some (ip, _) => do
          iunlockput dp
          ilock ip
          let found ← reads fun s => (s.icache ip).copy.type
          if type = .T_FILE ∧ found = .T_FILE then pure (some ip)
          else do
            iunlockput ip
            pure none
      | none => do
          let ip ← createIn dp name type major minor
          pure (some ip)

/-! ### Open, mkdir, mknod, chdir, exec -/

def onKernel {α : Type} (f : Kernel → Except Fault (Kernel × α)) : Iprog α :=
  atomic fun s =>
    match f s.kernel with
    | .ok (k, a) => .ok (a, { s with kernel := k })
    | .error (.panic msg) => .error msg
    | .error .outOfBounds => .error "trap"

/-- The inode that `sys_open` opens, locked. -/
def openInode (p : Fin NPROC) (path : Path) (omode : UInt32) : Iprog (Option Nat) :=
  if omode &&& O_CREATE ≠ 0 then create p path .T_FILE 0 0
  else do
    match ← namei p path with
    | none => pure none
    | some ip => do
        ilock ip
        let type ← reads fun s => (s.icache ip).copy.type
        if type = .T_DIR ∧ omode ≠ O_RDONLY then do
          iunlockput ip
          pure none
        else pure (some ip)

def sysOpen (p : Fin NPROC) (args : Option (Path × UInt32)) : Iprog Int :=
  match args with
  | none => pure (-1)
  | some (path, omode) => do
      match ← openInode p path omode with
      | none => pure (-1)
      | some ip => do
          let fd ← onKernel fun k => Xv6.sysOpen k p (some ip) omode
          if fd < 0 then do
            iunlockput ip
            pure (-1)
          else do
            iunlock ip
            pure fd

/-- `sys_mkdir` and `sys_mknod` after `create`. -/
def createDone (r : Option Nat) : Iprog Int :=
  match r with
  | none => pure (-1)
  | some ip => do
      iunlockput ip
      pure 0

def sysMkdir (p : Fin NPROC) (args : Option Path) : Iprog Int :=
  match args with
  | none => pure (-1)
  | some path => do
      let r ← create p path .T_DIR 0 0
      createDone r

def sysMknod (p : Fin NPROC) (args : Option (Path × Int × Int)) : Iprog Int :=
  match args with
  | none => pure (-1)
  | some (path, major, minor) => do
      let r ← create p path .T_DEV major minor
      createDone r

def putCwd (p : Fin NPROC) : Iprog Unit := do
  match ← reads fun s => (s.kernel.ptable p).cwd with
  | some cwd => iput cwd
  | none => .panic "trap"

def sysChdir (p : Fin NPROC) (args : Option Path) : Iprog Int :=
  match args with
  | none => pure (-1)
  | some path => do
      match ← namei p path with
      | none => pure (-1)
      | some ip => do
          ilock ip
          let type ← reads fun s => (s.icache ip).copy.type
          if type ≠ .T_DIR then do
            iunlockput ip
            pure (-1)
          else do
            iunlock ip
            putCwd p
            modify fun s => { s with kernel := setCwd p (some ip) s.kernel }
            pure 0

def execBad (ip : Option Nat) : Iprog Int :=
  match ip with
  | some ip => do
      iunlockput ip
      pure (-1)
  | none => pure (-1)

/-- `sys_exec`. `loads` tells whether a program image can be read into memory, by the checks on
its headers and the memory there is; `pushes`, whether the arguments can be pushed then. -/
def sysExec (p : Fin NPROC) (args : Option Path) (loads : Dinode → Bool) (pushes : Bool) :
    Iprog Int :=
  match args with
  | none => pure (-1)
  | some path => do
      match ← namei p path with
      | none => pure (-1)
      | some ip => do
          ilock ip
          let d ← reads fun s => (s.icache ip).copy
          if loads d = false then execBad (some ip)
          else do
            iunlockput ip
            if pushes = false then execBad none else pure 0

/-! ### Descriptors and processes -/

def fileclose (f : Fin NFILE) : Iprog Unit := do
  match ← onKernel fun k => Xv6.fileclose k f with
  | some ff => onlyIf (ff.type = .FD_INODE) (iput ff.ip)
  | none => pure ()

def sysClose (p : Fin NPROC) (fd : Option Int) : Iprog Int := do
  match ← reads fun s => argfd s.kernel p (fun _ => fd) 0 with
  | none => pure (-1)
  | some (fd, f) => do
      modify fun s => { s with kernel := s.kernel.setSlot p fd none }
      fileclose f
      pure 0

def sysDup (p : Fin NPROC) (fd : Option Int) : Iprog Int :=
  onKernel fun k => Xv6.sysDup k p fun _ => fd

/-- `fileread`; `other` is what `piperead` or a device returns. -/
def fileread (f : Fin NFILE) (n : Nat) (other : Int × List UInt8) : Iprog (Int × List UInt8) := do
  let e ← reads fun s => s.kernel.ftable f
  if e.readable = false then pure (-1, [])
  else
    match e.type with
    | .FD_PIPE => pure other
    | .FD_INODE => do
        ilock e.ip
        let d ← reads fun s => (s.icache e.ip).copy
        let r := if d.type = .T_DEV then other else d.readi e.off n
        modify fun s => { s with kernel := advance s.kernel f r.1 }
        iunlock e.ip
        pure r
    | .FD_NONE => .panic "fileread"

/-- `sys_read`; the bytes are what it leaves in the caller's buffer. -/
def sysRead (p : Fin NPROC) (fd n : Option Int) (argptr : Bool) (other : Int × List UInt8) :
    Iprog (Int × List UInt8) := do
  match ← reads fun s => argfd s.kernel p (fun _ => fd) 0 with
  | none => pure (-1, [])
  | some (_, f) =>
      match n, argptr with
      | some n, true => fileread f n.toNat other
      | _, _ => pure (-1, [])

/-- `writei` of a chunk at `f->off`, which then moves; -1 if it fails. -/
def writeChunk (f : Fin NFILE) (ip : Nat) (src : List UInt8) (other : Int) : Iprog Int := do
  let s ← reads id
  if (s.icache ip).copy.type = .T_DEV then do
    modify fun s => { s with kernel := advance s.kernel f other }
    pure other
  else
    match (s.icache ip).copy.writei (s.kernel.ftable f).off src with
    | none => pure (-1)
    | some d => do
        modify fun s => { s.store ip d with kernel := advance s.kernel f src.length }
        pure src.length

/-- `filewrite`'s loop with these bytes to go, for `n` turns at most. -/
def writeLoop (f : Fin NFILE) (ip : Nat) (other : Int) : Nat → List UInt8 → Iprog Bool
  | 0, src => pure src.isEmpty
  | n + 1, src =>
      if src = [] then pure true
      else do
        ilock ip
        let r ← writeChunk f ip (src.take filewriteMax.toNat) other
        iunlock ip
        if r < 0 then pure false
        else if r ≠ (src.take filewriteMax.toNat).length then .panic "short filewrite"
        else writeLoop f ip other n (src.drop filewriteMax.toNat)

/-- `filewrite`; a chunk is a byte at least, so there are no more turns than bytes. -/
def filewrite (f : Fin NFILE) (src : List UInt8) (other : Int) : Iprog Int := do
  let e ← reads fun s => s.kernel.ftable f
  if e.writable = false then pure (-1)
  else
    match e.type with
    | .FD_PIPE => pure other
    | .FD_INODE => do
        let all ← writeLoop f e.ip other src.length src
        pure (if all then src.length else -1)
    | .FD_NONE => .panic "filewrite"

/-- `sys_write`; `src` is the caller's buffer, if `argint` and `argptr` accept it. -/
def sysWrite (p : Fin NPROC) (fd : Option Int) (src : Option (List UInt8)) (other : Int) :
    Iprog Int := do
  match ← reads fun s => argfd s.kernel p (fun _ => fd) 0 with
  | none => pure (-1)
  | some (_, f) =>
      match src with
      | some src => filewrite f src other
      | none => pure (-1)

/-- `fork`; `kalloc` and `copyuvm` tell whether there is memory for the child. -/
def fork (p : Fin NPROC) (kalloc copyuvm : Bool) : Iprog Int := do
  let pid ← onKernel fun k => Xv6.fork k p kalloc copyuvm
  if pid < 0 then pure pid
  else do
    let _ ← dupCwd p
    pure pid

def exitFiles (p : Fin NPROC) : List (Fin NOFILE) → Iprog Unit
  | [] => pure ()
  | fd :: fds => do
      match ← reads fun s => s.kernel.ofile p fd with
      | some f => do
          fileclose f
          modify fun s => { s with kernel := s.kernel.setSlot p fd none }
          exitFiles p fds
      | none => exitFiles p fds

def exit (p : Fin NPROC) : Iprog Unit := do
  let initproc ← reads fun s => s.kernel.initproc
  if p = initproc then .panic "init exiting"
  else do
    exitFiles p (List.finRange NOFILE)
    putCwd p
    modify fun s =>
      let k := reparent p (setCwd p none s.kernel)
      { s with kernel := k.setProc p { k.ptable p with state := .ZOMBIE } }

/-- `wait` when a child has exited; otherwise it sleeps or fails, and changes nothing here. -/
def sysWait (p : Fin NPROC) : Iprog Int :=
  onKernel fun k =>
    match wait k p with
    | some (k, pid) => .ok (k, pid)
    | none => .ok (k, -1)

/-! ### Calls -/

inductive Syscall where
  | path (c : Fs.PathCall)
  | SYS_exec (args : Option Path) (loads : Dinode → Bool) (pushes : Bool)
  | SYS_dup (fd : Option Int)
  | SYS_close (fd : Option Int)
  | SYS_read (fd n : Option Int) (argptr : Bool) (other : Int × List UInt8)
  | SYS_write (fd : Option Int) (src : Option (List UInt8)) (other : Int)
  | SYS_fork (kalloc copyuvm : Bool)
  | SYS_exit
  | SYS_wait

def runPath (p : Fin NPROC) : Fs.PathCall → Iprog Int
  | .SYS_link args => sysLink p args
  | .SYS_unlink args => sysUnlink p args
  | .SYS_open args => sysOpen p args
  | .SYS_mkdir args => sysMkdir p args
  | .SYS_mknod args => sysMknod p args
  | .SYS_chdir args => sysChdir p args

def Syscall.run (p : Fin NPROC) : Syscall → Iprog Int
  | .path c => runPath p c
  | .SYS_exec args loads pushes => sysExec p args loads pushes
  | .SYS_dup fd => sysDup p fd
  | .SYS_close fd => sysClose p fd
  | .SYS_read fd n argptr other => do
      let r ← sysRead p fd n argptr other
      pure r.1
  | .SYS_write fd src other => sysWrite p fd src other
  | .SYS_fork kalloc copyuvm => fork p kalloc copyuvm
  | .SYS_exit => do
      exit p
      pure 0
  | .SYS_wait => sysWait p

end Xv6.Icache
