import Xv6.Param
import Xv6.Disk

/-!
**The on-disk side of `log.c`**: `install_trans`, `read_head`, `write_head`,
`recover_from_log`, `write_log`, `commit`, and the part of `log_write` that
records a block, as functions on the kernel's memory and the disk.

The buffer cache enters through what it shows its callers. A buffer that is
not `B_DIRTY` agrees with the disk, so a `bread` returns the pinned copy of a
`B_DIRTY` buffer and the disk's contents otherwise, whatever has been evicted
in between; `bwrite` hands the block to the disk and clears `B_DIRTY`
(`ideintr`). Each `bwrite` is recorded in `issued`, oldest first: a crash
keeps a prefix of these writes and loses the memory (`crashDisk`, `boot`).
-/

namespace Xv6.RedoLog

open Bytes Disk Function

/-! ### State -/

/-- `struct logheader`: the count and the home block numbers, as 32-bit patterns. -/
structure Logheader where
  n : Int
  block : Nat → Nat

/-- What `log.c` works on: `log.start`, `log.size`, the in-memory header `log.lh`,
the disk, and the buffers that are pinned in the cache with `B_DIRTY`. -/
structure Log where
  start : Nat
  size : Nat
  lh : Logheader
  disk : Nat → Block
  dirty : Nat → Option Block
  issued : List (Nat × Block)

/-- Memory after a reset: nothing cached, `log` zeroed and then set up by `initlog`. -/
def boot (start size : Nat) (disk : Nat → Block) : Log :=
  { start, size, lh := ⟨0, fun _ => 0⟩, disk, dirty := fun _ => none, issued := [] }

/-! ### Buffers -/

/-- The contents `bread` returns. -/
def bread (s : Log) (blockno : Nat) : Block := (s.dirty blockno).getD (s.disk blockno)

def bwrite (s : Log) (blockno : Nat) (data : Block) : Log :=
  { s with
    disk := update s.disk blockno data
    dirty := update s.dirty blockno none
    issued := s.issued ++ [(blockno, data)] }

/-- The loop shared by `install_trans` and `write_log`: read block `src tail`,
copy all of it over block `dst tail`, write the latter. -/
def copyBlocks (n : Nat) (src dst : Nat → Nat) (s : Log) : Log :=
  (List.range n).foldl (fun s tail => bwrite s (dst tail) (bread s (src tail))) s

/-! ### `log.c` -/

/-- Copy committed blocks from log to their home location. -/
def installTrans (s : Log) : Log :=
  copyBlocks s.lh.n.toNat (fun tail => s.start + tail + 1) s.lh.block s

def headN (b : Block) : Int := toInt32 (getLE b 0 4)

def headBlock (b : Block) (i : Nat) : Nat := getLE b (4 + 4 * i) 4

/-- Read the log header from disk into the in-memory log header. -/
def readHead (s : Log) : Log :=
  let buf := bread s s.start
  let n := headN buf
  { s with lh := ⟨n, fun i => if i < n.toNat then headBlock buf i else s.lh.block i⟩ }

/-- The header buffer after `write_head` filled it in: `n` and `block[0..n)` are
stored, the rest of the block keeps what the buffer held. -/
def headerBuf (lh : Logheader) (hb : Block) : Block :=
  (List.range lh.n.toNat).foldl (fun b i => setLE b (4 + 4 * i) 4 (lh.block i))
    (setLE hb 0 4 (ofInt32 lh.n))

def writeHead (s : Log) : Log := bwrite s s.start (headerBuf s.lh (bread s s.start))

def clearN (s : Log) : Log := { s with lh := { s.lh with n := 0 } }

def recoverFromLog (s : Log) : Log := writeHead (clearN (installTrans (readHead s)))

/-- Copy modified blocks from cache to log. -/
def writeLog (s : Log) : Log :=
  copyBlocks s.lh.n.toNat s.lh.block (fun tail => s.start + tail + 1) s

def commit (s : Log) : Log :=
  if 0 < s.lh.n then writeHead (clearN (installTrans (writeHead (writeLog s)))) else s

/-- The slot `log_write` stores `blockno` in: the first `i` with
`lh.block[i] == blockno` (absorption), else `lh.n`. -/
def absorbSlot (lh : Logheader) (blockno : Nat) : Nat :=
  ((List.range lh.n.toNat).find? fun i => lh.block i == blockno).getD lh.n.toNat

/-- A caller modifies the buffer of `blockno` to `data` and passes it to
`log_write`, which records the number and pins the buffer. -/
def logWrite (s : Log) (w : Nat × Block) : Log :=
  let i := absorbSlot s.lh w.1
  { s with
    lh := ⟨if i = s.lh.n.toNat then s.lh.n + 1 else s.lh.n, update s.lh.block i w.1⟩
    dirty := update s.dirty w.1 (some w.2) }

/-! ### Crashes and runs -/

/-- The disk writes a piece of code issues from `s`. -/
def writesOf (code : Log → Log) (s : Log) : List (Nat × Block) :=
  (code { s with issued := [] }).issued

/-- The disk left by a crash after the first `k` of these writes. -/
def crashDisk (code : Log → Log) (k : Nat) (s : Log) : Nat → Block :=
  crash k (writesOf code s) s.disk

/-- A transaction: the final contents of the blocks its operations logged. -/
abbrev Txn := List (Nat × Block)

/-- Memory when `commit` is called for `t`. -/
def logged (s : Log) (t : Txn) : Log := t.foldl logWrite s

/-- A commit that completes, or one that is cut after `k` disk writes and followed
by recovery attempts that are themselves cut after `attempts` many writes each,
and then by one that completes. -/
inductive Event where
  | commit (t : Txn)
  | crash (t : Txn) (k : Nat) (attempts : List Nat)

def Event.txn : Event → Txn
  | .commit t => t
  | .crash t _ _ => t

/-- Reboot on disk `d` and cut the recovery after `k` writes. -/
def cutRecovery (start size : Nat) (d : Nat → Block) (k : Nat) : Nat → Block :=
  crashDisk recoverFromLog k (boot start size d)

def Event.apply (s : Log) : Event → Log
  | .commit t => RedoLog.commit (logged s t)
  | .crash t k attempts =>
      recoverFromLog (boot s.start s.size
        (attempts.foldl (cutRecovery s.start s.size)
          (crashDisk RedoLog.commit k (logged s t))))

/-- Boot on `disk` and go through the events. -/
def run (start size : Nat) (disk : Nat → Block) (events : List Event) : Log :=
  events.foldl Event.apply (recoverFromLog (boot start size disk))

/-- Block `b` belongs to the log area. -/
def InLog (start size b : Nat) : Prop := start ≤ b ∧ b < start + size

/-- Blocks the log area can describe: at most `LOGSIZE - 1` of them, with distinct
numbers (32-bit, as `lh.block` holds them) outside the log area. -/
structure Txn.Fits (start size : Nat) (t : Txn) : Prop where
  len : t.length ≤ LOGSIZE - 1
  nodup : (t.map Prod.fst).Nodup
  home : ∀ w ∈ t, ¬ InLog start size w.1
  int : ∀ w ∈ t, w.1 < 2 ^ 32

/-- A transaction that `commit` writes out. -/
structure Txn.Ok (start size : Nat) (t : Txn) : Prop extends Txn.Fits start size t where
  pos : 0 < t.length

/-- The first header write of the commit of `t` is among the first `k` writes. -/
def HeaderReached (s : Log) (t : Txn) (k : Nat) : Prop :=
  ∃ w ∈ (writesOf RedoLog.commit (logged s t)).take k, w.1 = s.start

instance (s : Log) (t : Txn) (k : Nat) : Decidable (HeaderReached s t k) :=
  inferInstanceAs (Decidable (∃ w ∈ _, _))

end Xv6.RedoLog
