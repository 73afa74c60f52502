import Xv6.CircularList
import Xv6.RedoLog
import Xv6.Threads

/-!
**The buffer cache** (`bio.c`), the memory disk below it (`memide.c`) and the part of
`log.c` that works on buffers.

A section under `bcache.lock` or `log.lock` is one step, a buffer's sleep-lock is a lock of
`Program`, and so is every access in between: processes interleave at all these points.
`bcache.head` is the node `none`.

What a process does with the cache is a `Session`: it may read blocks, change the buffers it
holds, pass each changed buffer to `log_write` or `bwrite`, and release it. The type keeps a
session from changing or releasing a buffer it does not hold and from releasing one whose
change it has not passed on. The `holdingsleep` checks of `bwrite`, `brelse` and `iderw`
then succeed and are left out. `refcnt`, a `uint`, counts at most two references for each
process and does not wrap.
-/

namespace Xv6.Bcache

open CircularList Disk Program Function

/-! ### State -/

def NBUF : Nat := MAXOPBLOCKS * 3

/-- `struct buf`; `valid` and `dirty` are the flags `B_VALID` and `B_DIRTY`. -/
structure Buf where
  valid : Bool
  dirty : Bool
  dev : Nat
  blockno : Nat
  refcnt : Nat
  data : Block

abbrev Node := Option (Fin NBUF)

/-- What does not change: the disk's size in blocks, `log.start` and `log.size`. -/
structure Params where
  disksize : Nat
  logstart : Nat
  logsize : Int

structure State where
  buf : Fin NBUF → Buf
  links : Links Node
  disk : Nat → Block
  outstanding : Int
  lh : RedoLog.Logheader
  /-- The blocks `bread` returned and the changes made to buffers; no step looks at it. -/
  history : List (Access Nat Block)

def State.setBuf (s : State) (i : Fin NBUF) (b : Buf) : State :=
  { s with buf := update s.buf i b }

abbrev Kprog := Prog State Unit (Fin NBUF)

/-! ### `bio.c` -/

/-- The links `binit` makes, one buffer after the other; a pointer nobody has set yet is
`none` here. -/
def binitLinks : Links Node :=
  (List.finRange NBUF).foldl (fun k b => k.insert none (some b))
    { next := fun _ => none, prev := fun _ => none }

/-- After `binit`, with an empty log. -/
def binit (disk : Nat → Block) : State where
  buf _ := { valid := false, dirty := false, dev := 0, blockno := 0, refcnt := 0, data := fun _ => 0 }
  links := binitLinks
  disk := disk
  outstanding := 0
  lh := ⟨0, fun _ => 0⟩
  history := []

/-- `for(b = bcache.head.next; b != &bcache.head; b = b->next) if(test(b))` -/
def State.forward (s : State) (test : Fin NBUF → Bool) : Option (Fin NBUF) :=
  (Links.search s.links.next none (Option.any test) NBUF (s.links.next none)).join

/-- `for(b = bcache.head.prev; b != &bcache.head; b = b->prev) if(test(b))` -/
def State.backward (s : State) (test : Fin NBUF → Bool) : Option (Fin NBUF) :=
  (Links.search s.links.prev none (Option.any test) NBUF (s.links.prev none)).join

/-- `bget`'s section under `bcache.lock`. -/
def bgetLocked (dev blockno : Nat) (s : State) : Except String (Fin NBUF × State) :=
  match s.forward fun i => (s.buf i).dev == dev && (s.buf i).blockno == blockno with
  | some b => .ok (b, s.setBuf b { s.buf b with refcnt := (s.buf b).refcnt + 1 })
  | none =>
      match s.backward fun i => (s.buf i).refcnt == 0 && !(s.buf i).dirty with
      | some b =>
          .ok (b, s.setBuf b
            { s.buf b with dev, blockno, valid := false, dirty := false, refcnt := 1 })
      | none => .error "bget: no buffers"

def bget (dev blockno : Nat) : Kprog (Fin NBUF) := do
  let b ← atomic (bgetLocked dev blockno)
  acquire () b
  pure b

def iderwBuf (c : Params) (b : Fin NBUF) (s : State) : Except String (Unit × State) :=
  let buf := s.buf b
  if buf.valid ∧ ¬ buf.dirty then .error "iderw: nothing to do"
  else if buf.dev ≠ 1 then .error "iderw: request not for disk 1"
  else if c.disksize ≤ buf.blockno then .error "iderw: block out of range"
  else if buf.dirty then
    .ok ((), { s.setBuf b { buf with dirty := false, valid := true } with
      disk := update s.disk buf.blockno buf.data })
  else .ok ((), s.setBuf b { buf with data := s.disk buf.blockno, valid := true })

def iderw (c : Params) (b : Fin NBUF) : Kprog Unit := atomic (iderwBuf c b)

/-- Note in the history that `bread` returns `b` for block `blockno`. -/
def State.noteRead (blockno : Nat) (b : Fin NBUF) (s : State) : State :=
  { s with history := .read blockno (s.buf b).data :: s.history }

/-- Return a locked buf with the contents of the indicated block. -/
def bread (c : Params) (dev blockno : Nat) : Kprog (Fin NBUF) := do
  let b ← bget dev blockno
  let valid ← reads fun s => (s.buf b).valid
  onlyIf (valid = false) (iderw c b)
  modify (State.noteRead blockno b)
  pure b

def State.setDirty (b : Fin NBUF) (s : State) : State :=
  s.setBuf b { s.buf b with dirty := true }

/-- Write b's contents to disk. Must be locked. -/
def bwrite (c : Params) (b : Fin NBUF) : Kprog Unit := do
  modify (State.setDirty b)
  iderw c b

/-- `brelse`'s section under `bcache.lock`: move to the head of the MRU list if no one is
waiting for it. -/
def unref (b : Fin NBUF) (s : State) : State :=
  let refcnt := (s.buf b).refcnt - 1
  { s.setBuf b { s.buf b with refcnt } with
    links := if refcnt = 0 then (s.links.unlink (some b)).insert none (some b) else s.links }

def brelse (b : Fin NBUF) : Kprog Unit := do
  release b
  modify (unref b)

def State.setData (b : Fin NBUF) (data : Block) (s : State) : State :=
  { s.setBuf b { s.buf b with data } with
    history := .write (s.buf b).blockno data :: s.history }

def store (b : Fin NBUF) (data : State → Block) : Kprog Unit :=
  modify fun s => s.setData b (data s)

/-! ### `log.c` -/

/-- Copy modified blocks from cache to log, from `tail` on. -/
def writeLog (c : Params) : Nat → Nat → Kprog Unit
  | 0, _ => .panic "out of fuel"
  | fuel + 1, tail => do
      let lh ← reads State.lh
      if (tail : Int) < lh.n then do
        let toBuf ← bread c 1 (c.logstart + tail + 1)
        let blockno ← reads fun s => s.lh.block tail
        let fromBuf ← bread c 1 blockno
        store toBuf fun s => (s.buf fromBuf).data
        bwrite c toBuf
        brelse fromBuf
        brelse toBuf
        writeLog c fuel (tail + 1)
      else pure ()

/-- Copy committed blocks from log to their home location, from `tail` on. -/
def installTrans (c : Params) : Nat → Nat → Kprog Unit
  | 0, _ => .panic "out of fuel"
  | fuel + 1, tail => do
      let lh ← reads State.lh
      if (tail : Int) < lh.n then do
        let lbuf ← bread c 1 (c.logstart + tail + 1)
        let blockno ← reads fun s => s.lh.block tail
        let dbuf ← bread c 1 blockno
        store dbuf fun s => (s.buf lbuf).data
        bwrite c dbuf
        brelse lbuf
        brelse dbuf
        installTrans c fuel (tail + 1)
      else pure ()

def writeHead (c : Params) : Kprog Unit := do
  let buf ← bread c 1 c.logstart
  store buf fun s => RedoLog.headerBuf s.lh (s.buf buf).data
  bwrite c buf
  brelse buf

/-- `commit`; `fuel` bounds the rounds of its loops, which test `log.lh.n` anew each time. -/
def commit (c : Params) (fuel : Nat) : Kprog Unit := do
  let lh ← reads State.lh
  onlyIf (0 < lh.n) do
    writeLog c fuel 0
    writeHead c
    installTrans c fuel 0
    modify fun s => { s with lh := { s.lh with n := 0 } }
    writeHead c

/-- `log_write`'s checks, made without `log.lock`. -/
def logWriteChecks (c : Params) (s : State) : Except String (Unit × State) :=
  if LOGSIZE ≤ s.lh.n ∨ c.logsize - 1 ≤ s.lh.n then .error "too big a transaction"
  else if s.outstanding < 1 then .error "log_write outside of trans"
  else .ok ((), s)

/-- `log_write`'s section under `log.lock`: record the block number, and prevent eviction. -/
def logWriteLocked (b : Fin NBUF) (s : State) : State :=
  let blockno := (s.buf b).blockno
  let i := RedoLog.absorbSlot s.lh blockno
  { s.setDirty b with
    lh := ⟨if i = s.lh.n.toNat then s.lh.n + 1 else s.lh.n, update s.lh.block i blockno⟩ }

/-- Caller has modified `b->data` and is done with the buffer. -/
def logWrite (c : Params) (b : Fin NBUF) : Kprog Unit := do
  atomic (logWriteChecks c)
  modify (logWriteLocked b)

/-! ### Processes -/

/-- **What a process does with the cache** while it holds the buffers `held`, of which it has
`changed` some since it last passed them to `log_write` or `bwrite`. A process goes on as
it likes after it has seen what a block holds. The waiting in `begin_op` is left out, so
that more sessions may be in an operation at once, and any session may commit. -/
inductive Session : List (Fin NBUF) → List (Fin NBUF) → Type where
  | done {held changed} (hheld : held = []) (hchanged : changed = []) : Session held changed
  | bread {held changed} (blockno : Nat)
      (k : (b : Fin NBUF) → Block → Session (b :: held) changed) : Session held changed
  | change {held changed} (b : Fin NBUF) (hb : b ∈ held) (data : Block)
      (k : Session held (b :: changed)) : Session held changed
  | logWrite {held changed} (b : Fin NBUF) (hb : b ∈ held)
      (k : Session held (changed.filter (· ≠ b))) : Session held changed
  | bwrite {held changed} (b : Fin NBUF) (hb : b ∈ held)
      (k : Session held (changed.filter (· ≠ b))) : Session held changed
  | brelse {held changed} (b : Fin NBUF) (hb : b ∈ held) (hc : b ∉ changed)
      (k : Session (held.erase b) changed) : Session held changed
  | beginOp {held changed} (k : Session held changed) : Session held changed
  | endOp {held changed} (k : Session held changed) : Session held changed
  | commit {held changed} (fuel : Nat) (k : Session held changed) : Session held changed

def Session.prog (c : Params) {held changed : List (Fin NBUF)} :
    Session held changed → Kprog Unit
  | .done _ _ => pure ()
  | .bread blockno k => do
      let b ← Bcache.bread c 1 blockno
      let data ← reads fun s => (s.buf b).data
      (k b data).prog c
  | .change b _ data k => do
      store b fun _ => data
      k.prog c
  | .logWrite b _ k => do
      Bcache.logWrite c b
      k.prog c
  | .bwrite b _ k => do
      Bcache.bwrite c b
      k.prog c
  | .brelse b _ _ k => do
      Bcache.brelse b
      k.prog c
  | .beginOp k => do
      modify fun s => { s with outstanding := s.outstanding + 1 }
      k.prog c
  | .endOp k => do
      modify fun s => { s with outstanding := s.outstanding - 1 }
      k.prog c
  | .commit fuel k => do
      Bcache.commit c fuel
      k.prog c

/-- Any number of processes, with one session after the other, on a disk that holds `disk`. -/
def system (P : Type) [DecidableEq P] (c : Params) (disk : Nat → Block) :
    Transition.System (Conf P State Unit (Fin NBUF) (Session [] [])) (Act P (Session [] [])) :=
  threads (fun s => s = binit disk) (fun _ session => session.prog c) (fun _ _ _ => true)

end Xv6.Bcache
