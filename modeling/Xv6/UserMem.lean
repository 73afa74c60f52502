import Xv6.Param

/-!
**What system calls write into user memory**: `argint` and `argptr` (`syscall.c`), and the
handlers that write through a pointer the user has given, `sys_read`, `sys_fstat`, `sys_pipe`
(`sysfile.c`), `sys_time` and `sys_utctime` (`sysproc.c`).

A handler checks a range of bytes with `argptr` and what it calls writes as many as it likes, so
a call is modelled by the ranges it writes. How much a file has to offer and what else a call
depends on outside the caller's memory is an argument of the call.

All stay within what was checked but `sys_utctime`, which checks the size of the pointer and
writes a `struct rtcdate` (`utctime_writes_past_end`).
-/

namespace Xv6.UserMem

open Bytes

def KERNBASE : Nat := 2 ^ 31

/-- The calling process: its size, its stack pointer and the memory it sees. -/
structure Caller where
  sz : Nat
  esp : Nat
  mem : Bytes.Block (2 ^ 32)

structure Write where
  addr : Nat
  len : Nat
deriving DecidableEq

/-! ### Arguments -/

def fetchint (p : Caller) (addr : Nat) : Option Int :=
  if p.sz ≤ addr ∨ p.sz < (addr + 4) % 2 ^ 32 then none else some (toInt32 (getLE p.mem addr 4))

def argint (p : Caller) (n : Nat) : Option Int := fetchint p ((p.esp + 4 + 4 * n) % 2 ^ 32)

/-- Fetch the nth argument as a pointer to a block of memory of size bytes. -/
def argptr (p : Caller) (n : Nat) (size : Int) : Option Nat := do
  let i ← argint p n
  if size < 0 ∨ p.sz ≤ ofInt32 i ∨ p.sz < (ofInt32 i + ofInt32 size) % 2 ^ 32 then none
  else some (ofInt32 i)

/-- `fetchstr`'s loop at `s`, for as many turns. -/
def strLoop (p : Caller) (addr : Nat) : Nat → Nat → Int
  | 0, _ => -1
  | turns + 1, s => if byteAt p.mem s = 0 then s - addr else strLoop p addr turns (s + 1)

/-- Fetch the nul-terminated string at addr; the result is its length. -/
def fetchstr (p : Caller) (addr : Nat) : Int :=
  if p.sz ≤ addr then -1 else strLoop p addr (p.sz - addr) addr

def argstr (p : Caller) (n : Nat) : Int :=
  match argint p n with
  | none => -1
  | some addr => fetchstr p (ofInt32 addr)

/-! ### `read` -/

/-- What is behind a file descriptor. -/
inductive Kind where
  /-- The bytes in the pipe when there are some, or `none` when the reader is killed first. -/
  | pipe (available : Option Nat)
  | inode (size off : Nat)
  /-- The characters the console delivers, or `none` for a device without `read`. -/
  | device (chars : Option (List Nat))

structure File where
  readable : Bool
  kind : Kind

def piperead (available : Option Nat) (addr : Nat) (n : Int) : Int × List Write :=
  match available with
  | some k => (min k n.toNat, [⟨addr, min k n.toNat⟩])
  | none => (-1, [])

/-- `consoleread`'s loop; the characters end when the reader is killed. -/
def consoleLoop (target : Nat) : List Nat → Nat → Nat → Int × List Write
  | _, _, 0 => (target, [])
  | [], _, _ + 1 => (-1, [])
  | c :: cs, dst, n + 1 =>
      if c = 4 then (target - (n + 1), [])
      else if c = 10 then (target - n, [⟨dst, 1⟩])
      else
        let r := consoleLoop target cs (dst + 1) n
        (r.1, ⟨dst, 1⟩ :: r.2)

/-- `readi`'s loop: at most a block in each round. -/
def readLoop : Nat → Nat → Nat → Nat → List Write
  | 0, _, _, _ => []
  | fuel + 1, dst, off, n =>
      if n = 0 then []
      else
        let m := min n (BSIZE - off % BSIZE)
        ⟨dst, m⟩ :: readLoop fuel (dst + m) (off + m) (n - m)

def readi (size : Nat) (dst off n : Nat) : Int × List Write :=
  if size < off ∨ (off + n) % 2 ^ 32 < off then (-1, [])
  else
    let n := if size < (off + n) % 2 ^ 32 then size - off else n
    (n, readLoop n dst off n)

def fileread (f : File) (addr : Nat) (n : Int) : Int × List Write :=
  if f.readable = false then (-1, [])
  else match f.kind with
  | .pipe available => piperead available addr n
  | .inode size off => readi size addr off (ofInt32 n)
  | .device (some chars) => consoleLoop n.toNat chars addr n.toNat
  | .device none => (-1, [])

/-! ### The handlers -/

/-- A call, with what it finds outside the caller's memory. -/
inductive Call where
  | read (ofile : Nat → Option File)
  | fstat (ofile : Nat → Option File)
  /-- The two descriptors, or `none` when there is no pipe or no room. -/
  | pipe (fds : Option (Nat × Nat))
  /-- The pid of the exited child, or `none` when there is nobody to wait for. -/
  | time (child : Option Nat)
  | utctime

def argfd (p : Caller) (n : Nat) (ofile : Nat → Option File) : Option File := do
  let fd ← argint p n
  if fd < 0 ∨ (NOFILE : Int) ≤ fd then none else ofile fd.toNat

def sysRead (p : Caller) (ofile : Nat → Option File) : Int × List Write :=
  match argfd p 0 ofile with
  | none => (-1, [])
  | some f =>
      match argint p 2 with
      | none => (-1, [])
      | some n =>
          match argptr p 1 n with
          | none => (-1, [])
          | some addr => fileread f addr n

/-- `sizeof(struct stat)`: a short, two words, a short and a word, each aligned to its size. -/
def STATSIZE : Nat := 20

/-- `stati`: `dev`, `ino`, `type`, `nlink` and `size`. -/
def stati (st : Nat) : List Write :=
  [⟨st + 4, 4⟩, ⟨st + 8, 4⟩, ⟨st, 2⟩, ⟨st + 12, 2⟩, ⟨st + 16, 4⟩]

def filestat (f : File) (st : Nat) : Int × List Write :=
  match f.kind with
  | .pipe _ => (-1, [])
  | .inode _ _ | .device _ => (0, stati st)

def sysFstat (p : Caller) (ofile : Nat → Option File) : Int × List Write :=
  match argfd p 0 ofile with
  | none => (-1, [])
  | some f =>
      match argptr p 1 STATSIZE with
      | none => (-1, [])
      | some st => filestat f st

def sysPipe (p : Caller) (fds : Option (Nat × Nat)) : Int × List Write :=
  match argptr p 0 (2 * 4) with
  | none => (-1, [])
  | some fd =>
      match fds with
      | none => (-1, [])
      | some _ => (0, [⟨fd, 4⟩, ⟨fd + 4, 4⟩])

/-- `time` writes when it finds an exited child. -/
def time (waitt burstt : Nat) (child : Option Nat) : Int × List Write :=
  match child with
  | some pid => (toInt32 pid, [⟨waitt, 4⟩, ⟨burstt, 4⟩])
  | none => (-1, [])

def sysTime (p : Caller) (child : Option Nat) : Int × List Write :=
  match argptr p 0 4 with
  | none => (12, [])
  | some waitt =>
      match argptr p 1 4 with
      | none => (13, [])
      | some burstt => time waitt burstt child

def RTCDATESIZE : Nat := 24

/-- `cmostime`: `*r = t1` and `r->year += 2000`. -/
def cmostime (r : Nat) : List Write := [⟨r, RTCDATESIZE⟩, ⟨r + 20, 4⟩]

/-- The size that is checked is `sizeof(r)`, that of a pointer. -/
def sysUtctime (p : Caller) : Int × List Write :=
  match argptr p 0 4 with
  | none => (-1, [])
  | some r => (0, cmostime r)

def syscall (p : Caller) : Call → Int × List Write
  | .read ofile => sysRead p ofile
  | .fstat ofile => sysFstat p ofile
  | .pipe fds => sysPipe p fds
  | .time child => sysTime p child
  | .utctime => sysUtctime p

/-! ### What is checked -/

section

variable {p : Caller} {a len : Nat} {ws : List Write}

theorem toInt32_lt {v : Nat} (h : v < 2 ^ 32) : toInt32 v < 2 ^ 31 := by
  unfold toInt32
  split <;> omega

theorem argint_lt {n : Nat} {i : Int} (h : argint p n = some i) : i < 2 ^ 31 := by
  rw [argint, fetchint] at h
  split at h
  · cases h
  · cases h
    exact toInt32_lt (getLE_lt p.mem 4 _)

/-- **`argptr`** checks the whole range: nothing wraps around below `KERNBASE`. -/
theorem argptr_le {n : Nat} {size : Int} (hsz : p.sz ≤ KERNBASE) (hsize : size < 2 ^ 31)
    (h : argptr p n size = some a) : 0 ≤ size ∧ a + size.toNat ≤ p.sz := by
  rw [argptr, Option.bind_eq_bind, Option.bind_eq_some_iff] at h
  obtain ⟨i, -, h⟩ := h
  split at h
  · cases h
  rename_i hok
  cases h
  have hkern : KERNBASE = 2 ^ 31 := rfl
  unfold ofInt32 at hok ⊢
  omega

/-- Every byte lies in the `len` bytes at `a`. -/
def Within (a len : Nat) (ws : List Write) : Prop :=
  ∀ w ∈ ws, ∀ b, w.addr ≤ b → b < w.addr + w.len → a ≤ b ∧ b < a + len

theorem Within.nil : Within a len [] := nofun

theorem Within.cons {w : Write} (hlo : a ≤ w.addr) (hhi : w.addr + w.len ≤ a + len)
    (h : Within a len ws) : Within a len (w :: ws) := by
  intro v hv b hb hb'
  rcases List.mem_cons.mp hv with rfl | hv
  · omega
  · exact h v hv b hb hb'

theorem Within.mono {a' len' : Nat} (h : Within a len ws) (hlo : a' ≤ a) (hhi : a + len ≤ a' + len') :
    Within a' len' ws := by
  intro w hw b hb hb'
  have hin := h w hw b hb hb'
  omega

theorem Within.below (h : Within a len ws) (hhi : a + len ≤ p.sz) :
    ∀ w ∈ ws, ∀ b, w.addr ≤ b → b < w.addr + w.len → b < p.sz := by
  intro w hw b hb hb'
  have hin := h w hw b hb hb'
  omega

theorem within_consoleLoop (target : Nat) (chars : List Nat) :
    ∀ (dst n : Nat), Within dst n (consoleLoop target chars dst n).2 := by
  induction chars with
  | nil => intro dst n; cases n <;> exact Within.nil
  | cons c cs ih =>
    intro dst n
    cases n with
    | zero => exact Within.nil
    | succ n =>
      simp only [consoleLoop]
      split
      · exact Within.nil
      split
      · exact Within.cons (Nat.le_refl _) (by simp only; omega) Within.nil
      · refine Within.cons (Nat.le_refl _) (by simp only; omega) ?_
        exact (ih (dst + 1) n).mono (by omega) (by omega)

theorem within_readLoop (fuel : Nat) :
    ∀ (dst off n : Nat), Within dst n (readLoop fuel dst off n) := by
  induction fuel with
  | zero => exact fun dst off n => Within.nil
  | succ fuel ih =>
    intro dst off n
    simp only [readLoop]
    split
    · exact Within.nil
    · refine Within.cons (Nat.le_refl _) (by simp only; omega) ?_
      exact (ih _ _ _).mono (by omega) (by omega)

theorem within_readi (size dst off n : Nat) : Within dst n (readi size dst off n).2 := by
  rw [readi]
  split
  · exact Within.nil
  split
  next hlt =>
    refine (within_readLoop _ _ _ _).mono (Nat.le_refl _) ?_
    omega
  · exact within_readLoop _ _ _ _

/-- **`fileread`** writes no more than it was asked for. -/
theorem within_fileread (f : File) (addr : Nat) {n : Int} (hlo : 0 ≤ n) (hhi : n < 2 ^ 31) :
    Within addr n.toNat (fileread f addr n).2 := by
  have hn : ofInt32 n = n.toNat := by
    unfold ofInt32
    omega
  rw [fileread]
  split
  · exact Within.nil
  split
  next available _ =>
    cases available with
    | none => exact Within.nil
    | some k =>
      refine Within.cons (Nat.le_refl _) ?_ Within.nil
      simp only
      omega
  · rw [hn]
    exact within_readi _ _ _ _
  · exact within_consoleLoop _ _ _ _
  · exact Within.nil

end

/-! ### The calls -/

/-- Every byte the call writes is the process's own. -/
def Inside (p : Caller) (c : Call) : Prop :=
  ∀ w ∈ (syscall p c).2, ∀ b, w.addr ≤ b → b < w.addr + w.len → b < p.sz

variable {p : Caller}

theorem inside_nil : ∀ w ∈ ([] : List Write), ∀ b, w.addr ≤ b → b < w.addr + w.len → b < p.sz :=
  nofun

variable (hsz : p.sz ≤ KERNBASE)
include hsz

theorem inside_read (ofile : Nat → Option File) : Inside p (.read ofile) := by
  unfold Inside syscall
  simp only [sysRead]
  split
  · exact inside_nil
  split
  · exact inside_nil
  rename_i n hn
  split
  · exact inside_nil
  next addr haddr =>
    obtain ⟨hpos, hle⟩ := argptr_le hsz (argint_lt hn) haddr
    exact (within_fileread _ addr hpos (argint_lt hn)).below hle

theorem inside_fstat (ofile : Nat → Option File) : Inside p (.fstat ofile) := by
  unfold Inside syscall
  simp only [sysFstat]
  split
  · exact inside_nil
  split
  · exact inside_nil
  rename_i st hst
  obtain ⟨-, hle⟩ := argptr_le hsz (by decide) hst
  have hstat : (STATSIZE : Int).toNat = 20 := rfl
  have hwithin : Within st 20 (stati st) := by
    refine .cons ?_ ?_ (.cons ?_ ?_ (.cons ?_ ?_ (.cons ?_ ?_ (.cons ?_ ?_ .nil)))) <;>
      simp only <;> omega
  rw [filestat]
  split
  · exact inside_nil
  · exact hwithin.below (by omega)
  · exact hwithin.below (by omega)

theorem inside_pipe (fds : Option (Nat × Nat)) : Inside p (.pipe fds) := by
  unfold Inside syscall
  simp only [sysPipe]
  split
  · exact inside_nil
  rename_i fd hfd
  obtain ⟨-, hle⟩ := argptr_le hsz (by decide) hfd
  split
  · exact inside_nil
  · have hwithin : Within fd 8 [⟨fd, 4⟩, ⟨fd + 4, 4⟩] := by
      refine .cons ?_ ?_ (.cons ?_ ?_ .nil) <;> simp only <;> omega
    exact hwithin.below hle

theorem inside_time (child : Option Nat) : Inside p (.time child) := by
  unfold Inside syscall
  simp only [sysTime]
  split
  · exact inside_nil
  rename_i waitt hwaitt
  split
  · exact inside_nil
  rename_i burstt hburstt
  obtain ⟨-, hle⟩ := argptr_le hsz (by decide) hwaitt
  obtain ⟨-, hle'⟩ := argptr_le hsz (by decide) hburstt
  cases child with
  | none => exact inside_nil
  | some =>
    intro w hw b hb hb'
    simp only [time, List.mem_cons, List.not_mem_nil, or_false] at hw
    rcases hw with rfl | rfl
    · simp only at hb'; omega
    · simp only at hb'; omega

omit hsz

/-- The last byte of the date is the one that matters. -/
theorem inside_utctime :
    Inside p .utctime ↔ ∀ r, argptr p 0 4 = some r → r + RTCDATESIZE ≤ p.sz := by
  unfold Inside syscall
  simp only [sysUtctime]
  have hdate : RTCDATESIZE = 24 := rfl
  constructor
  · intro hin r hr
    rw [hr] at hin
    have hlast := hin ⟨r, RTCDATESIZE⟩ List.mem_cons_self (r + 23) (by simp only; omega)
      (by simp only; omega)
    omega
  · intro hle
    split
    · exact inside_nil
    rename_i r hr
    have hfit := hle r hr
    have hwithin : Within r 24 (cmostime r) := by
      refine .cons ?_ ?_ (.cons ?_ ?_ .nil) <;> simp only <;> omega
    exact hwithin.below (by omega)

/-- **System calls write user memory only inside the process**, with one exception: `utctime`
does so if and only if a whole `struct rtcdate` fits where the pointer it accepts points. -/
theorem user_writes_inside (p : Caller) (c : Call) (hsz : p.sz ≤ KERNBASE) :
    Inside p c ↔ (c = .utctime → ∀ r, argptr p 0 4 = some r → r + RTCDATESIZE ≤ p.sz) := by
  cases c with
  | read ofile => exact iff_of_true (inside_read hsz ofile) nofun
  | fstat ofile => exact iff_of_true (inside_fstat hsz ofile) nofun
  | pipe fds => exact iff_of_true (inside_pipe hsz fds) nofun
  | time child => exact iff_of_true (inside_time hsz child) nofun
  | utctime => rw [inside_utctime]; simp

/-- A process of one page whose first argument is the address of its last word. -/
def lastWord : Caller where
  sz := 4096
  esp := 0
  mem := setLE (fun _ => 0) 4 4 4092

/-- **`utctime` writes past the end of the process**: the pointer to the last word is accepted, and
twenty bytes land behind it. -/
theorem utctime_writes_past_end :
    lastWord.sz ≤ KERNBASE ∧ sysUtctime lastWord = (0, [⟨4092, 24⟩, ⟨4112, 4⟩]) ∧
      ¬ Inside lastWord .utctime := by
  have hptr : argptr lastWord 0 4 = some 4092 := by decide +kernel
  refine ⟨by decide, by rw [sysUtctime, hptr]; rfl, ?_⟩
  rw [inside_utctime]
  intro hle
  have hfit := hle 4092 hptr
  exact absurd hfit (by decide)

/-- A process of one page whose first argument is the address of its last two words. -/
def lastTwoWords : Caller := { lastWord with mem := setLE (fun _ => 0) 4 4 4088 }

/-- A pipe's descriptors fit exactly at the end. -/
theorem user_writes_inside_pipe : argptr lastTwoWords 0 8 = some 4088 ∧
    Inside lastTwoWords (.pipe (some (3, 4))) :=
  ⟨by decide +kernel,
    (user_writes_inside lastTwoWords (.pipe (some (3, 4))) (by decide)).mpr nofun⟩

end Xv6.UserMem
