import Xv6.Inode

/-!
**Directories and path lookup**: `dirlookup`, `dirlink`, `skipelem`, `namex` of `fs.c`.

A path is the bytes of a C string. `elements` runs `skipelem` to the end, and `walk` is
`namex`'s loop over the elements; `*path == '\0'` after `skipelem` is then an empty rest.
-/

namespace Xv6.Fs

open Program

/-! ### Directories -/

/-- `dirlookup`: the inode, with a new reference, and the offset of the entry. -/
def dirlookup (dp : Nat) (name : Name) : Fprog (Option (Nat × Nat)) := do
  let d ← reads fun s => s.inode dp
  if d.type ≠ .T_DIR then .panic "dirlookup not DIR"
  else
    match d.lookup name with
    | none => pure none
    | some off => do
        iget (d.entry off).inum.toNat
        pure (some ((d.entry off).inum.toNat, off))

/-- `dirlink`; `held` are the inodes its caller has locked. -/
def dirlink (held : List Nat) (dp : Nat) (name : Name) (inum : Nat) : Fprog Int := do
  match ← dirlookup dp name with
  | some (ip, _) => do
      iput held ip
      pure (-1)
  | none => do
      atomic fun s =>
        if (s.inode dp).emptySlot < MAXENTS then
          .ok ((), s.setInode dp
            ((s.inode dp).write (s.inode dp).emptySlot ⟨UInt16.ofNat inum, name⟩))
        else .error "dirlink"
      pure 0

/-! ### Paths -/

abbrev Path := List UInt8

def SLASH : UInt8 := 47

/-- The next path element, and the path after it. -/
def skipelem (path : Path) : Option (Name × Path) :=
  match path.dropWhile (· == SLASH) with
  | [] => none
  | c :: cs =>
      some (Name.ofBytes ((c :: cs).takeWhile (· != SLASH)),
        ((c :: cs).dropWhile (· != SLASH)).dropWhile (· == SLASH))

/-- All elements of a path; each `skipelem` consumes a byte at least. -/
def elementsLoop : Nat → Path → List Name
  | 0, _ => []
  | n + 1, path =>
      match skipelem path with
      | none => []
      | some (name, path) => name :: elementsLoop n path

def elements (path : Path) : List Name := elementsLoop path.length path

/-- `namex`'s loop, at `ip` with these elements to go. -/
def walk (parent : Bool) : List Name → Nat → Fprog (Option (Nat × Name))
  | [], ip =>
      if parent then do
        iput [] ip
        pure none
      else pure (some (ip, Name.ofBytes []))
  | name :: rest, ip => do
      ilock ip
      let type ← reads fun s => (s.inode ip).type
      if type ≠ .T_DIR then do
        iunlockput [] ip
        pure none
      else if parent ∧ rest = [] then do
        iunlock ip
        pure (some (ip, name))
      else
        match ← dirlookup ip name with
        | none => do
            iunlockput [] ip
            pure none
        | some (next, _) => do
            iunlockput [] ip
            walk parent rest next

/-- The inode a path starts from; a process without `cwd` faults. -/
def start (p : Fin NPROC) (path : Path) : Fprog Nat :=
  if path.head? = some SLASH then do
    iget ROOTINO
    pure ROOTINO
  else do
    match ← reads fun s => (s.kernel.ptable p).cwd with
    | some cwd => do
        idup cwd
        pure cwd
    | none => .panic "trap"

def namex (p : Fin NPROC) (parent : Bool) (path : Path) : Fprog (Option (Nat × Name)) := do
  let ip ← start p path
  walk parent (elements path) ip

def namei (p : Fin NPROC) (path : Path) : Fprog (Option Nat) := do
  let r ← namex p false path
  pure (r.map Prod.fst)

def nameiparent (p : Fin NPROC) (path : Path) : Fprog (Option (Nat × Name)) := namex p true path

end Xv6.Fs
