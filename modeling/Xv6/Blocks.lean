import Xv6.Param
import Xv6.Program

/-!
**Blocks, inodes and file contents on the disk**: `fs.c` from `readsb` to `dirlink`, and
the part of `sys_unlink` after its path lookup, on the bytes of the blocks.

`blk` is what the buffer cache and the disk show together, so `bread` reads it and a
change of `bp->data` in place changes it; `logged` lists the blocks handed to
`log_write`. `icache` is the in-memory inode with this number: `copy` is what `ilock` has
read from the disk, and functions that are called with an inode locked work on it. A slot
of the cache in use is named by the number of the inode it holds, and `inuse` counts them.

A function that takes no sleep-lock is a `Bprog`; it runs under the locks of its
caller. Device drivers are outside: what one returns is an argument.
-/

namespace Xv6.Blocks

open Bytes Program Function

/-! ### On-disk format (`fs.h`) -/

structure Superblock where
  size : Nat
  nblocks : Nat
  ninodes : Nat
  nlog : Nat
  logstart : Nat
  inodestart : Nat
  bmapstart : Nat
deriving DecidableEq

/-- A block read as a `struct superblock`. -/
def superAt (b : Block) : Superblock where
  size := getLE b 0 4
  nblocks := getLE b 4 4
  ninodes := getLE b 8 4
  nlog := getLE b 12 4
  logstart := getLE b 16 4
  inodestart := getLE b 20 4
  bmapstart := getLE b 24 4

/-- `struct dinode`; the shorts are kept as their bit patterns. -/
structure Dinode where
  type : UInt16
  major : UInt16
  minor : UInt16
  nlink : UInt16
  size : UInt32
  addrs : Fin (NDIRECT + 1) → UInt32

def T_DIR : UInt16 := 1
def T_FILE : UInt16 := 2
def T_DEV : UInt16 := 3

def NDEV : Nat := 10

/-- Inodes per block; a `struct dinode` has 64 bytes. -/
def IPB : Nat := BSIZE / 64

/-- Bitmap bits per block. -/
def BPB : Nat := BSIZE * 8

def IBLOCK (i : Nat) (sb : Superblock) : Nat := i / IPB + sb.inodestart
def BBLOCK (b : Nat) (sb : Superblock) : Nat := b / BPB + sb.bmapstart

namespace Dinode

/-- What `memset(dip, 0, sizeof(*dip)); dip->type = type` leaves. -/
def blank (type : UInt16) : Dinode := ⟨type, 0, 0, 0, 0, fun _ => 0⟩

def addr (d : Dinode) (k : Nat) : Nat :=
  if h : k < NDIRECT + 1 then (d.addrs ⟨k, h⟩).toNat else 0

def setAddr (d : Dinode) (k v : Nat) : Dinode :=
  { d with addrs := fun j => if j.val = k then UInt32.ofNat v else d.addrs j }

def setSize (d : Dinode) (size : Nat) : Dinode := { d with size := UInt32.ofNat size }

def setType (d : Dinode) (type : UInt16) : Dinode := { d with type := type }

def dropLink (d : Dinode) : Dinode := { d with nlink := d.nlink - 1 }

end Dinode

/-- The dinode at index `k` of a block of inodes. -/
def dinodeAt (b : Block) (k : Nat) : Dinode where
  type := UInt16.ofNat (getLE b (64 * k) 2)
  major := UInt16.ofNat (getLE b (64 * k + 2) 2)
  minor := UInt16.ofNat (getLE b (64 * k + 4) 2)
  nlink := UInt16.ofNat (getLE b (64 * k + 6) 2)
  size := UInt32.ofNat (getLE b (64 * k + 8) 4)
  addrs j := UInt32.ofNat (getLE b (64 * k + 12 + 4 * j) 4)

/-- Store a dinode at index `k` of a block of inodes. -/
def putDinode (b : Block) (k : Nat) (d : Dinode) : Block :=
  let b := setLE b (64 * k) 2 d.type.toNat
  let b := setLE b (64 * k + 2) 2 d.major.toNat
  let b := setLE b (64 * k + 4) 2 d.minor.toNat
  let b := setLE b (64 * k + 6) 2 d.nlink.toNat
  let b := setLE b (64 * k + 8) 4 d.size.toNat
  setWords b (64 * k + 12) (NDIRECT + 1) d.addr

/-! ### State -/

structure Incore where
  ref : Int
  valid : Bool
  copy : Dinode

structure Fs where
  sb : Superblock
  blk : Nat → Block
  logged : List Nat
  icache : Nat → Incore
  inuse : Nat

namespace Fs

def copy (s : Fs) (i : Nat) : Dinode := (s.icache i).copy

/-- The dinode of inode `i` on the disk. -/
def dinode (s : Fs) (i : Nat) : Dinode := dinodeAt (s.blk (IBLOCK i s.sb)) (i % IPB)

def setBlk (s : Fs) (b : Nat) (data : Block) : Fs :=
  { s with blk := update s.blk b data }

def setIncore (s : Fs) (i : Nat) (c : Incore) : Fs :=
  { s with icache := update s.icache i c }

def setCopy (s : Fs) (i : Nat) (d : Dinode) : Fs :=
  s.setIncore i { s.icache i with copy := d }

/-- One reference less; the last one gives the slot back. -/
def dropRef (s : Fs) (i : Nat) : Fs :=
  { s.setIncore i { s.icache i with ref := (s.icache i).ref - 1 } with
    inuse := if (s.icache i).ref = 1 then s.inuse - 1 else s.inuse }

end Fs

abbrev Bprog := Prog Fs Empty Empty

abbrev Iprog := Prog Fs Unit Nat

/-! ### Buffers -/

def bread (b : Nat) : Bprog Block := reads fun s => s.blk b

/-- Change the data of a buffer in place. -/
def edit (b : Nat) (f : Block → Block) : Bprog Unit := modify fun s => s.setBlk b (f (s.blk b))

def logWrite (b : Nat) : Bprog Unit := modify fun s => { s with logged := s.logged ++ [b] }

/-! ### Blocks -/

def readsb : Bprog Unit := do
  let bp ← bread 1
  modify fun s => { s with sb := superAt bp }

def bzero (bno : Nat) : Bprog Unit := do
  edit bno fun _ _ => 0
  logWrite bno

/-- The bit of block `bi` of this bitmap block is clear. -/
def isFree (bp : Block) (bi : Nat) : Prop := byteAt bp (bi / 8) &&& mask bi = 0

instance (bp : Block) (bi : Nat) : Decidable (isFree bp bi) :=
  inferInstanceAs (Decidable (byteAt bp (bi / 8) &&& mask bi = 0))

/-- `balloc`'s inner loop at `bi`, with `n` bits of the bitmap block left. -/
def scanBits (size : Nat) (bp : Block) (b : Nat) : Nat → Nat → Option Nat
  | 0, _ => none
  | n + 1, bi =>
      if b + bi < size then
        if isFree bp bi then some bi else scanBits size bp b n (bi + 1)
      else none

/-- `balloc`'s outer loop at `b`, for at most `n` bitmap blocks. -/
def ballocLoop : Nat → Nat → Bprog Nat
  | 0, _ => .panic "balloc: out of blocks"
  | n + 1, b => do
      let sb ← reads Fs.sb
      if b < sb.size then do
        let bp ← bread (BBLOCK b sb)
        match scanBits sb.size bp b BPB 0 with
        | some bi => do
            edit (BBLOCK b sb) fun data => setByte data (bi / 8) (byteAt data (bi / 8) ||| mask bi)
            logWrite (BBLOCK b sb)
            bzero (b + bi)
            pure (b + bi)
        | none => ballocLoop n (b + BPB)
      else .panic "balloc: out of blocks"

def balloc : Bprog Nat := do
  let sb ← reads Fs.sb
  ballocLoop (sb.size / BPB + 1) 0

def bfree (b : Nat) : Bprog Unit := do
  readsb
  let sb ← reads Fs.sb
  let bp ← bread (BBLOCK b sb)
  let bi := b % BPB
  if isFree bp bi then .panic "freeing free block"
  else do
    edit (BBLOCK b sb) fun data => setByte data (bi / 8) (byteAt data (bi / 8) &&& ~~~(mask bi))
    logWrite (BBLOCK b sb)

/-! ### Inodes -/

def iupdate (ip : Nat) : Bprog Unit := do
  let s ← reads id
  edit (IBLOCK ip s.sb) fun data => putDinode data (ip % IPB) (s.copy ip)
  logWrite (IBLOCK ip s.sb)

def iget (i : Nat) : Bprog Unit :=
  atomic fun s =>
    if 0 < (s.icache i).ref then
      .ok ((), s.setIncore i { s.icache i with ref := (s.icache i).ref + 1 })
    else if s.inuse < NINODE then
      .ok ((), { s.setIncore i { s.icache i with ref := 1, valid := false } with
        inuse := s.inuse + 1 })
    else .error "iget: no inodes"

/-- `ialloc`'s loop at `inum`, with `n` inodes left to look at. -/
def iallocLoop (type : UInt16) : Nat → Nat → Bprog Nat
  | 0, _ => .panic "ialloc: no inodes"
  | n + 1, inum => do
      let s ← reads id
      if (s.dinode inum).type = 0 then do
        edit (IBLOCK inum s.sb) fun data => putDinode data (inum % IPB) (.blank type)
        logWrite (IBLOCK inum s.sb)
        iget inum
        pure inum
      else iallocLoop type n (inum + 1)

def ialloc (type : UInt16) : Bprog Nat := do
  let sb ← reads Fs.sb
  iallocLoop type (sb.ninodes - 1) 1

/-! ### Inode content -/

def setCopy (ip : Nat) (f : Dinode → Dinode) : Bprog Unit :=
  modify fun s => s.setCopy ip (f (s.copy ip))

/-- `if((addr = ip->addrs[k]) == 0) ip->addrs[k] = addr = balloc(ip->dev);` -/
def addrOrAlloc (ip k : Nat) : Bprog Nat := do
  let addr ← reads fun s => (s.copy ip).addr k
  if addr = 0 then do
    let addr ← balloc
    setCopy ip (·.setAddr k addr)
    pure addr
  else pure addr

def bmap (ip bn : Nat) : Bprog Nat :=
  if bn < NDIRECT then addrOrAlloc ip bn
  else if bn - NDIRECT < NINDIRECT then do
    let table ← addrOrAlloc ip NDIRECT
    let a ← bread table
    let addr := getLE a (4 * (bn - NDIRECT)) 4
    if addr = 0 then do
      let addr ← balloc
      edit table fun a => setLE a (4 * (bn - NDIRECT)) 4 addr
      logWrite table
      pure addr
    else pure addr
  else .panic "bmap: out of range"

/-- `itrunc`'s loop over the direct blocks at `i`, with `n` of them left. -/
def truncDirect (ip : Nat) : Nat → Nat → Bprog Unit
  | 0, _ => pure ()
  | n + 1, i => do
      let addr ← reads fun s => (s.copy ip).addr i
      onlyIf (addr ≠ 0) do
        bfree addr
        setCopy ip (·.setAddr i 0)
      truncDirect ip n (i + 1)

/-- `itrunc`'s loop over the indirect block at `j`, with `n` entries left. -/
def truncIndirect (table : Nat) : Nat → Nat → Bprog Unit
  | 0, _ => pure ()
  | n + 1, j => do
      let a ← bread table
      onlyIf (getLE a (4 * j) 4 ≠ 0) (bfree (getLE a (4 * j) 4))
      truncIndirect table n (j + 1)

def itrunc (ip : Nat) : Bprog Unit := do
  truncDirect ip NDIRECT 0
  let table ← reads fun s => (s.copy ip).addr NDIRECT
  onlyIf (table ≠ 0) do
    truncIndirect table NINDIRECT 0
    bfree table
    setCopy ip (·.setAddr NDIRECT 0)
  setCopy ip (·.setSize 0)
  iupdate ip

/-- `off + n < off`, in unsigned arithmetic. -/
def wraps (off n : Nat) : Prop := (off + n) % 2 ^ 32 < off

instance (off n : Nat) : Decidable (wraps off n) :=
  inferInstanceAs (Decidable ((off + n) % 2 ^ 32 < off))

/-- How much of the rest `n` lies in the block of `off`. -/
def chunk (off n : Nat) : Nat := min n (BSIZE - off % BSIZE)

/-- `m` bytes of a block from `off` on. -/
def slice (b : Block) (off m : Nat) : List UInt8 := (List.range m).map fun i => byteAt b (off + i)

/-- `readi`'s loop at `off`, with `n` bytes to go; each round copies one at least. -/
def readLoop (ip : Nat) : Nat → Nat → Nat → Bprog (List UInt8)
  | 0, _, _ => pure []
  | fuel + 1, off, n =>
      if n = 0 then pure []
      else do
        let addr ← bmap ip (off / BSIZE)
        let bp ← bread addr
        let rest ← readLoop ip fuel (off + chunk off n) (n - chunk off n)
        pure (slice bp (off % BSIZE) (chunk off n) ++ rest)

/-- The driver of a device inode: `devsw[ip->major]`, if it has this entry. -/
def driver {β : Type} (devsw : Nat → Option β) (d : Dinode) : Option β :=
  let major := toShort d.major.toNat
  if major < 0 ∨ major ≥ NDEV then none else devsw major.toNat

/-- Read data from inode: the result, and the bytes copied to `dst`. -/
def readi (devsw : Nat → Option (Int × List UInt8)) (ip off n : Nat) :
    Bprog (Int × List UInt8) := do
  let d ← reads fun s => s.copy ip
  if d.type = T_DEV then pure ((driver devsw d).getD (-1, []))
  else if off > d.size.toNat ∨ wraps off n then pure (-1, [])
  else do
    let n := if (off + n) % 2 ^ 32 > d.size.toNat then d.size.toNat - off else n
    let dst ← readLoop ip n off n
    pure (n, dst)

/-- `writei`'s loop at `off`, with the `n` bytes at `src` to go. -/
def writeLoop (ip : Nat) : Nat → (Nat → UInt8) → Nat → Nat → Bprog Unit
  | 0, _, _, _ => pure ()
  | fuel + 1, src, off, n =>
      if n = 0 then pure ()
      else do
        let addr ← bmap ip (off / BSIZE)
        edit addr fun data => blit data (off % BSIZE) (chunk off n) src
        logWrite addr
        writeLoop ip fuel (fun i => src (chunk off n + i)) (off + chunk off n) (n - chunk off n)

def writei (devsw : Nat → Option Int) (ip : Nat) (src : Nat → UInt8) (off n : Nat) :
    Bprog Int := do
  let d ← reads fun s => s.copy ip
  if d.type = T_DEV then pure ((driver devsw d).getD (-1))
  else if off > d.size.toNat ∨ wraps off n then pure (-1)
  else if (off + n) % 2 ^ 32 > MAXFILE * BSIZE then pure (-1)
  else do
    writeLoop ip n src off n
    -- the loop has moved `off` to `off + n`
    let size ← reads fun s => (s.copy ip).size.toNat
    onlyIf (0 < n ∧ off + n > size) do
      setCopy ip (·.setSize (off + n))
      iupdate ip
    pure n

/-! ### The inode cache -/

def ilock (i : Nat) : Iprog Unit := do
  let ref ← reads fun s => (s.icache i).ref
  if ref < 1 then .panic "ilock"
  else do
    acquire () i
    atomic fun s =>
      if (s.icache i).valid then .ok ((), s)
      else if (s.dinode i).type = 0 then .error "ilock: no type"
      else .ok ((), s.setIncore i { s.icache i with valid := true, copy := s.dinode i })

def iunlock (i : Nat) : Iprog Unit := do
  let ref ← reads fun s => (s.icache i).ref
  if ref < 1 then .panic "iunlock"
  else release i

/-- `itrunc(ip); ip->type = 0; iupdate(ip); ip->valid = 0`. -/
def freeInode (i : Nat) : Bprog Unit := do
  itrunc i
  setCopy i (·.setType 0)
  iupdate i
  modify fun s => s.setIncore i { s.icache i with valid := false }

def iput (i : Nat) : Iprog Unit := do
  acquire () i
  let c ← reads fun s => s.icache i
  onlyIf (c.valid = true ∧ c.copy.nlink = 0 ∧ c.ref = 1) (freeInode i).lift
  release i
  modify fun s => s.dropRef i

def iunlockput (i : Nat) : Iprog Unit := do
  iunlock i
  iput i

/-! ### Directories -/

/-- What `strncmp(.., .., DIRSIZ)` compares of a name. -/
def nameOf (bytes : List UInt8) : List UInt8 := (bytes.take DIRSIZ).takeWhile (· != 0)

/-- `de.inum` of the 16 bytes of a `struct dirent`. -/
def direntInum (de : List UInt8) : Nat := (de.getD 0 0).toNat + 256 * (de.getD 1 0).toNat

/-- The `i`th byte of the entry that `dirlink` writes; `strncpy` fills up with zeros. -/
def direntByte (inum : Nat) (name : List UInt8) (i : Nat) : UInt8 :=
  if i < 2 then UInt8.ofNat (inum / 256 ^ i) else (nameOf name).getD (i - 2) 0

def readEntry (msg : String) (dp off : Nat) : Bprog (List UInt8) := do
  let r ← readi (fun _ => none) dp off 16
  if r.1 ≠ 16 then .panic msg else pure r.2

/-- The loop over the entries from `off` on, for at most `n` of them: the first that satisfies
`found`, with its offset, or the offset at the end. -/
def scanEntries (msg : String) (dp : Nat) (found : List UInt8 → Bool) :
    Nat → Nat → Bprog (Nat × Option (List UInt8))
  | 0, off => pure (off, none)
  | n + 1, off => do
      let size ← reads fun s => (s.copy dp).size.toNat
      if off < size then do
        let de ← readEntry msg dp off
        if found de then pure (off, some de) else scanEntries msg dp found n (off + 16)
      else pure (off, none)

/-- Room for every entry: the loops end by their own condition. -/
def entries (dp : Nat) : Bprog Nat := reads fun s => (s.copy dp).size.toNat / 16 + 1

def dirlookup (dp : Nat) (name : List UInt8) : Bprog (Option (Nat × Nat)) := do
  let type ← reads fun s => (s.copy dp).type
  if type ≠ T_DIR then .panic "dirlookup not DIR"
  else do
    let n ← entries dp
    let r ← scanEntries "dirlookup read" dp
      (fun de => decide (direntInum de ≠ 0) && decide (nameOf (de.drop 2) = nameOf name)) n 0
    match r.2 with
    | none => pure none
    | some de => do
        iget (direntInum de)
        pure (some (direntInum de, r.1))

def dirlink (dp : Nat) (name : List UInt8) (inum : Nat) : Iprog Int := do
  match ← (dirlookup dp name).lift with
  | some (ip, _) => do
      iput ip
      pure (-1)
  | none => do
      let n ← (entries dp).lift
      let r ← (scanEntries "dirlink read" dp (fun de => decide (direntInum de = 0)) n 0).lift
      let w ← (writei (fun _ => none) dp (direntByte inum name) r.1 16).lift
      if w ≠ 16 then .panic "dirlink" else pure 0

def isdirempty (dp : Nat) : Bprog Bool := do
  let n ← entries dp
  let r ← scanEntries "isdirempty: readi" dp (fun de => decide (direntInum de ≠ 0)) n 32
  pure r.2.isNone

/-- `ip->type == T_DIR && !isdirempty(ip)`. -/
def isBusy (ip : Nat) : Bprog Bool := do
  let type ← reads fun s => (s.copy ip).type
  if type = T_DIR then do
    let empty ← isdirempty ip
    pure (!empty)
  else pure false

def unlinkBad (dp : Nat) : Iprog Int := do
  iunlockput dp
  pure (-1)

def dropLink (ip : Nat) : Bprog Unit := do
  setCopy ip Dinode.dropLink
  iupdate ip

def unlinkEntry (dp ip off : Nat) : Iprog Int := do
  let w ← (writei (fun _ => none) dp (fun _ => 0) off 16).lift
  if w ≠ 16 then .panic "unlink: writei"
  else do
    let type ← reads fun s => (s.copy ip).type
    onlyIf (type = T_DIR) (dropLink dp).lift
    iunlockput dp
    (dropLink ip).lift
    iunlockput ip
    pure 0

/-- `sys_unlink` of the inode `ip` found at `off`. -/
def unlinkFound (dp ip off : Nat) : Iprog Int := do
  ilock ip
  let nlink ← reads fun s => toShort (s.copy ip).nlink.toNat
  if nlink < 1 then .panic "unlink: nlink < 1"
  else do
    let busy ← (isBusy ip).lift
    if busy = true then do
      iunlockput ip
      unlinkBad dp
    else unlinkEntry dp ip off

def unlink (dp : Nat) (name : List UInt8) : Iprog Int := do
  ilock dp
  if nameOf name = [46] ∨ nameOf name = [46, 46] then unlinkBad dp
  else
    match ← (dirlookup dp name).lift with
    | none => unlinkBad dp
    | some (ip, off) => unlinkFound dp ip off

end Xv6.Blocks
