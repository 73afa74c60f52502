import Xv6.File
import Xv6.Program

/-!
**Inodes and their cache**: `ialloc`, `iget`, `idup`, `ilock`, `iunlock`, `iput` of
`fs.c`, as programs over the inode sleep-locks.

The state keeps a directory's content as its list of entries, and no content for
other files: none of the calls modelled on top of this file reads it. The inode cache
writes through, so one record stands for the on-disk inode and for a valid copy of it.
A cache slot in use is named by the number of the inode it holds, which no other slot
holds; `inuse` counts the slots in use. There is one device, and the log is
another module's subject.

`iput` carries the list of the inodes its caller has locked. No execution looks at it.
-/

namespace Xv6.Fs

open Program Function

/-! ### Names -/

/-- A path element: what `namecmp` compares, the first `DIRSIZ` bytes. -/
abbrev Name := { n : List UInt8 // n.length ≤ DIRSIZ }

def Name.ofBytes (bytes : List UInt8) : Name := ⟨bytes.take DIRSIZ, List.length_take_le _ _⟩

def dot : Name := ⟨[46], by decide⟩
def dotdot : Name := ⟨[46, 46], by decide⟩

/-! ### Inodes -/

inductive InodeType where
  /-- Type 0: the inode is not allocated. -/
  | free
  | T_DIR
  | T_FILE
  | T_DEV
deriving DecidableEq

/-- `struct dirent`; inode number 0 marks an unused one. -/
structure Dirent where
  inum : UInt16
  name : Name
deriving DecidableEq

def Dirent.zero : Dirent := ⟨0, Name.ofBytes []⟩

/-- In use, and neither `.` nor `..`. -/
def Dirent.proper (e : Dirent) : Bool := e.inum ≠ 0 ∧ e.name ≠ dot ∧ e.name ≠ dotdot

structure Inode where
  type : InodeType
  major : Int
  minor : Int
  nlink : Int
  ents : List Dirent

/-- How many entries fit in a file of `MAXFILE` blocks. -/
def MAXENTS : Nat := MAXFILE * BSIZE / 16

namespace Inode

/-- The offset, in entries, of the entry in use with this name. -/
def lookup (d : Inode) (name : Name) : Option Nat :=
  d.ents.findIdx? fun e => e.inum ≠ 0 ∧ e.name = name

def entry (d : Inode) (off : Nat) : Dirent := d.ents.getD off Dirent.zero

/-- Where `dirlink` puts a new entry: the first unused one, or the end. -/
def emptySlot (d : Inode) : Nat := d.ents.findIdx fun e => e.inum = 0

/-- `writei` of one entry, inside the directory or right at its end. -/
def write (d : Inode) (off : Nat) (e : Dirent) : Inode :=
  { d with ents := if off < d.ents.length then d.ents.set off e else d.ents ++ [e] }

def addLink (d : Inode) (n : Int) : Inode := { d with nlink := toShort (d.nlink + n) }

/-- The inodes a directory names, not counting `.` and `..`. -/
def out (d : Inode) : List Nat :=
  if d.type = .T_DIR then (d.ents.filter Dirent.proper).map fun e => e.inum.toNat else []

variable {d : Inode}

theorem mem_out {i : Nat} :
    i ∈ d.out ↔ d.type = .T_DIR ∧ ∃ e ∈ d.ents, e.proper = true ∧ e.inum.toNat = i := by
  unfold out
  split
  · simp [*, and_assoc]
  · simp [*]

theorem mem_out_write {off i : Nat} {e : Dirent} (h : i ∈ (d.write off e).out) :
    i ∈ d.out ∨ (d.type = .T_DIR ∧ e.proper = true ∧ e.inum.toNat = i) := by
  obtain ⟨htype, e', hmem, hproper, hinum⟩ := mem_out.mp h
  have hcases : e' ∈ d.ents ∨ e' = e := by
    simp only [write] at hmem
    split at hmem
    · exact List.mem_or_eq_of_mem_set hmem
    · simpa using hmem
  rcases hcases with hold | rfl
  · exact .inl (mem_out.mpr ⟨htype, e', hold, hproper, hinum⟩)
  · exact .inr ⟨htype, hproper, hinum⟩

theorem lookup_eq_some {name : Name} {off : Nat} (h : d.lookup name = some off) :
    d.entry off ∈ d.ents ∧ (d.entry off).inum ≠ 0 ∧ (d.entry off).name = name := by
  obtain ⟨hlt, hfound, -⟩ := List.findIdx?_eq_some_iff_getElem.mp h
  have hentry : d.entry off = d.ents[off] := by rw [entry, List.getD_eq_getElem _ _ hlt]
  rw [hentry]
  exact ⟨List.getElem_mem hlt, by simpa using hfound⟩

theorem mem_out_of_lookup {name : Name} {off : Nat} (htype : d.type = .T_DIR)
    (h : d.lookup name = some off) (hdot : name ≠ dot) (hdotdot : name ≠ dotdot) :
    (d.entry off).inum.toNat ∈ d.out := by
  obtain ⟨hmem, hlive, hname⟩ := lookup_eq_some h
  refine mem_out.mpr ⟨htype, _, hmem, ?_, rfl⟩
  simp [Dirent.proper, hlive, hname, hdot, hdotdot]

end Inode

/-- What the cache keeps besides the copy of the inode. -/
structure Incore where
  ref : Int
  valid : Bool

structure State where
  kernel : Kernel
  ninodes : Nat
  inode : Nat → Inode
  icache : Nat → Incore
  inuse : Nat

namespace State

def setInode (s : State) (i : Nat) (d : Inode) : State :=
  { s with inode := update s.inode i d }

def setCache (s : State) (i : Nat) (c : Incore) : State :=
  { s with icache := update s.icache i c }

/-- One reference less; the last one gives the slot back. -/
def drop (s : State) (i : Nat) : State :=
  { s.setCache i { s.icache i with ref := (s.icache i).ref - 1 } with
    inuse := if (s.icache i).ref = 1 then s.inuse - 1 else s.inuse }

/-- `itrunc`, type 0, `iupdate`: the inode is free, and its copy no longer valid. -/
def free (s : State) (i : Nat) : State :=
  (s.setInode i { s.inode i with type := .free, ents := [] }).setCache i
    { s.icache i with valid := false }

end State

/-- Where a sleep-lock is acquired from. -/
inductive Site where
  | ilock
  /-- `iput`, by a process that has these inodes locked. -/
  | iput (held : List Nat)
deriving DecidableEq

abbrev Fprog := Prog State Site Nat

/-! ### The cache -/

def iget (i : Nat) : Fprog Unit :=
  atomic fun s =>
    if 0 < (s.icache i).ref then
      .ok ((), s.setCache i { s.icache i with ref := (s.icache i).ref + 1 })
    else if s.inuse < NINODE then
      .ok ((), { s.setCache i { ref := 1, valid := false } with inuse := s.inuse + 1 })
    else .error "iget: no inodes"

def idup (i : Nat) : Fprog Unit :=
  modify fun s => s.setCache i { s.icache i with ref := (s.icache i).ref + 1 }

def ilock (i : Nat) : Fprog Unit := do
  let ref ← reads fun s => (s.icache i).ref
  if ref < 1 then .panic "ilock"
  else do
    acquire .ilock i
    atomic fun s =>
      if (s.icache i).valid then .ok ((), s)
      else if (s.inode i).type = .free then .error "ilock: no type"
      else .ok ((), s.setCache i { s.icache i with valid := true })

def iunlock (i : Nat) : Fprog Unit := do
  let ref ← reads fun s => (s.icache i).ref
  if ref < 1 then .panic "iunlock"
  else release i

/-- `ip->valid && ip->nlink == 0`, with one reference left. -/
def unreferenced (s : State) (i : Nat) : Bool :=
  (s.icache i).valid && (s.inode i).nlink == 0 && (s.icache i).ref == 1

/-- What `iput` does with the inode locked. -/
def freeLast (i : Nat) : Fprog Unit := do
  let last ← reads fun s => unreferenced s i
  onlyIf (last = true) (modify fun s => s.free i)

def iput (held : List Nat) (i : Nat) : Fprog Unit := do
  acquire (.iput held) i
  freeLast i
  release i
  modify fun s => s.drop i

def iunlockput (held : List Nat) (i : Nat) : Fprog Unit := do
  iunlock i
  iput held i

/-- Claim the dinode `i` if it is free; its buffer is locked meanwhile. -/
def claim (type : InodeType) (i : Nat) : Fprog Bool :=
  atomic fun s =>
    if (s.inode i).type = .free then
      .ok (true, s.setInode i { type := type, major := 0, minor := 0, nlink := 0, ents := [] })
    else .ok (false, s)

/-- `ialloc`'s loop, with `n` inodes left to look at. -/
def iallocLoop (type : InodeType) : Nat → Nat → Fprog Nat
  | 0, _ => .panic "ialloc: no inodes"
  | n + 1, i => do
      match ← claim type i with
      | true => do
          iget i
          pure i
      | false => iallocLoop type n (i + 1)

def ialloc (type : InodeType) : Fprog Nat := do
  let ninodes ← reads State.ninodes
  iallocLoop type (ninodes - 1) 1

def iupdate (i : Nat) (f : Inode → Inode) : Fprog Unit :=
  modify fun s => s.setInode i (f (s.inode i))

end Xv6.Fs
