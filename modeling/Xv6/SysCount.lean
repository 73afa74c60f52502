import Xv6.File
import Xv6.Transition

/-!
**System call accounting**: `syscall`'s counter (`syscall.c`), the reset in `allocproc` and
`getcount` (`proc.c`), over the C layout of `struct proc` (`proc.h`).

Memory is an array of words, addressed relative to `ptable.proc`; an index into `sys_count` is
scaled by 4 in 32-bit arithmetic, so word addresses are taken modulo `2 ^ 30`.

`sys_count` has 29 entries and there are 30 system calls. The counter of `dup2`, the last one, is
the field behind the array, `arrivalt`, which `allocproc` does not reset: for it the accounting is
wrong (`dup2_counts_in_arrivalt`), for all others it is exact (`accounting_exact`).
-/

namespace Xv6.SysCount

open Transition Function

/-! ### `syscall.h` and `proc.h` -/

/-- The system calls, in the order of their numbers. -/
inductive Sysno where
  | fork | exit | wait | pipe | read | kill | exec | fstat | chdir | dup | getpid | sbrk | sleep
  | uptime | open | write | mknod | unlink | link | mkdir | close | halt | cps | getppid | getsz
  | chpr | getcount | time | utctime | dup2
deriving DecidableEq

/-- `SYS_fork` is 1, and every number is the one before it plus 1. -/
def sysnos : List Sysno :=
  [.fork, .exit, .wait, .pipe, .read, .kill, .exec, .fstat, .chdir, .dup, .getpid, .sbrk, .sleep,
    .uptime, .open, .write, .mknod, .unlink, .link, .mkdir, .close, .halt, .cps, .getppid, .getsz,
    .chpr, .getcount, .time, .utctime, .dup2]

/-- The table `syscalls`, with the test that `syscall` makes before it looks. -/
def syscalls (num : Int) : Option Sysno := if 0 < num then sysnos[(num - 1).toNat]? else none

def SYS_cn : Nat := 29

def DEFAULTPRIORITY : UInt32 := 10

/-- The fields of `struct proc`. -/
inductive Field where
  | sz | pgdir | kstack | state | pid | parent | tf | context | chan | killed | ofile | cwd | name
  | priority | sys_count | arrivalt | endt | burstt | iot
deriving DecidableEq

/-- The fields in the order of their declaration. -/
def fields : List Field :=
  [.sz, .pgdir, .kstack, .state, .pid, .parent, .tf, .context, .chan, .killed, .ofile, .cwd, .name,
    .priority, .sys_count, .arrivalt, .endt, .burstt, .iot]

/-- The size of a field, in words. -/
def Field.words : Field → Nat
  | .ofile => NOFILE
  | .name => 16 / 4
  | .sys_count => SYS_cn
  | _ => 1

/-- Where a field begins, in words. -/
def Field.offset (f : Field) : Nat := ((fields.takeWhile (· ≠ f)).map Field.words).sum

/-- `sizeof(struct proc)`, in words. -/
def PROCWORDS : Nat := (fields.map Field.words).sum

/-! ### Memory -/

abbrev Mem := Nat → UInt32

/-- The address of `ptable.proc[p].f[i]`. -/
def addr (p : Fin NPROC) (f : Field) (i : Int) : Nat :=
  (((PROCWORDS * p + f.offset : Nat) + i) % 2 ^ 30).toNat

def get (m : Mem) (p : Fin NPROC) (f : Field) (i : Int) : UInt32 := m (addr p f i)

def put (m : Mem) (p : Fin NPROC) (f : Field) (i : Int) (v : UInt32) : Mem :=
  update m (addr p f i) v

/-! ### The code -/

/-- `syscall`, up to the call itself. -/
def syscall (m : Mem) (p : Fin NPROC) (num : Int) : Mem :=
  match syscalls num with
  | some _ => put m p .sys_count (num - 1) (get m p .sys_count (num - 1) + 1)
  | none => m

/-- The loop of `allocproc` that resets `sys_count`, up to entry `n`. -/
def resetCounts (p : Fin NPROC) : Nat → Mem → Mem
  | 0, m => m
  | n + 1, m => put (resetCounts p n m) p .sys_count n 0

/-- What `allocproc` does to the fields behind `name`. -/
def allocproc (p : Fin NPROC) (m : Mem) : Mem :=
  resetCounts p SYS_cn (put m p .priority 0 DEFAULTPRIORITY)

def getcount (m : Mem) (p : Fin NPROC) (procno : Int) : UInt32 := get m p .sys_count (procno - 1)

/-! ### Runs -/

/-- The memory, which slots have a process, and the numbers of the calls it has made since it was
created. -/
structure State where
  mem : Mem
  used : Fin NPROC → Bool
  calls : Fin NPROC → List Int

/-- The rest of the kernel assigns neither to `sys_count` nor to the four times behind it. -/
def Field.Assigned : Field → Prop
  | .sys_count | .arrivalt | .endt | .burstt | .iot => False
  | _ => True

instance : DecidablePred Field.Assigned := by
  intro f
  cases f <;> unfold Field.Assigned <;> infer_instance

inductive Action where
  /-- `fork` or `userinit` allocate the slot. -/
  | allocproc (p : Fin NPROC)
  /-- The slot is freed. -/
  | free (p : Fin NPROC)
  | syscall (p : Fin NPROC) (num : Int)
  /-- The kernel assigns to a field. -/
  | assign (p : Fin NPROC) (f : Field) (i : Nat) (v : UInt32)
deriving DecidableEq

def step (s : State) : Action → Option State
  | .allocproc p =>
      if s.used p = false then
        some { s with
          mem := allocproc p s.mem
          used := update s.used p true
          calls := update s.calls p [] }
      else none
  | .free p =>
      if s.used p = true then some { s with used := update s.used p false } else none
  | .syscall p num =>
      if s.used p = true then
        some { s with
          mem := syscall s.mem p num
          calls := update s.calls p (num :: s.calls p) }
      else none
  | .assign p f i v =>
      if f.Assigned ∧ i < f.words then some { s with mem := put s.mem p f i v } else none

/-- At boot the process table is zero. -/
def boot (m : Mem) : State where
  mem := m
  used _ := false
  calls _ := []

def system : System State Action where
  init s := ∃ m, (∀ p f (i : Nat), i < f.words → get m p f i = 0) ∧ s = boot m
  step := step

/-! ### The layout -/

section

variable {p q : Fin NPROC} {f g : Field} {i j : Nat}

theorem procwords_eq : PROCWORDS = 65 := by decide

theorem Field.fits (f : Field) : f.offset + f.words ≤ PROCWORDS := by cases f <;> decide

theorem Field.disjoint (hfg : f ≠ g) :
    f.offset + f.words ≤ g.offset ∨ g.offset + g.words ≤ f.offset := by
  revert hfg
  cases f <;> cases g <;> decide

theorem addr_eq (hi : i < PROCWORDS - f.offset) : addr p f i = PROCWORDS * p + f.offset + i := by
  have hnproc : NPROC = 64 := rfl
  rw [procwords_eq] at hi
  rw [addr, procwords_eq]
  omega

theorem addr_inj (hi : i < f.words) (hj : j < g.words) (h : addr p f i = addr q g j) :
    p = q ∧ f = g ∧ i = j := by
  have hf := f.fits
  have hg := g.fits
  rw [addr_eq (by omega), addr_eq (by omega)] at h
  rw [procwords_eq] at hf hg h
  have hpq : (p : Nat) = q := by omega
  have hfg : f = g := by
    by_contra hne
    rcases Field.disjoint hne with hle | hle <;> omega
  subst hfg
  exact ⟨Fin.ext hpq, rfl, by omega⟩

theorem get_put_self (m : Mem) (v : UInt32) (k : Int) : get (put m p f k v) p f k = v := by
  rw [get, put, update_self]

theorem get_put_of_ne (m : Mem) (v : UInt32) (hi : i < f.words) (hj : j < g.words)
    (hne : ¬ (q = p ∧ g = f ∧ j = i)) : get (put m p f i v) q g j = get m q g j := by
  rw [get, put, update_of_ne fun h => hne (addr_inj hj hi h)]
  rfl

/-- The counter of a call is an entry of `sys_count`, except for the last one. -/
theorem syscalls_range {num : Int} {c : Sysno} (h : syscalls num = some c) :
    1 ≤ num ∧ num ≤ 30 := by
  rw [syscalls] at h
  split at h
  next hpos =>
    have hlt := (List.getElem?_eq_some_iff.mp h).1
    have hlen : sysnos.length = 30 := rfl
    omega
  · cases h

theorem get_resetCounts {m : Mem} {n : Nat} (hn : n ≤ SYS_cn) (hj : j < g.words) :
    get (resetCounts p n m) q g j =
      if q = p ∧ g = .sys_count ∧ j < n then 0 else get m q g j := by
  induction n with
  | zero => rw [if_neg (by omega)]; rfl
  | succ n ih =>
    have hin : n < Field.words .sys_count := hn
    by_cases hsame : q = p ∧ g = .sys_count ∧ j = n
    · obtain ⟨rfl, rfl, rfl⟩ := hsame
      rw [resetCounts, get_put_self, if_pos ⟨rfl, rfl, Nat.lt_succ_self j⟩]
    rw [resetCounts, get_put_of_ne _ _ hin hj hsame, ih (by omega)]
    congr 1
    refine propext (and_congr_right fun hq => and_congr_right fun hg => ?_)
    have hjn : j ≠ n := fun heq => hsame ⟨hq, hg, heq⟩
    omega

end

/-! ### Accounting -/

/-- The counters of `p` are what the calls in `h` make them. -/
def Records (m : Mem) (p : Fin NPROC) (h : List Int) : Prop :=
  ∀ k : Nat, 1 ≤ k → k ≤ SYS_cn → getcount m p k = UInt32.ofNat (h.count (k : Int))

variable {m : Mem} {p q : Fin NPROC} {h : List Int} {s s' : State}

theorem getcount_eq (m : Mem) (p : Fin NPROC) {k : Nat} (hk : 1 ≤ k) :
    getcount m p k = get m p .sys_count (k - 1 : Nat) := by
  rw [Int.natCast_sub hk]
  rfl

theorem Records.congr {m' : Mem} (hr : Records m p h)
    (heq : ∀ i : Nat, i < SYS_cn → get m' p .sys_count i = get m p .sys_count i) :
    Records m' p h := by
  intro k hk hk'
  rw [getcount_eq m' p hk, heq _ (by omega), ← getcount_eq m p hk]
  exact hr k hk hk'

theorem Records.allocproc : Records (allocproc p m) p [] := by
  intro k hk hk'
  have hlt : k - 1 < Field.words .sys_count := by
    have hcn : Field.words .sys_count = SYS_cn := rfl
    omega
  rw [getcount_eq _ p hk, SysCount.allocproc, get_resetCounts (Nat.le_refl _) hlt,
    if_pos ⟨rfl, rfl, hlt⟩]
  rfl

theorem get_syscall_of_ne {num : Int} {i : Nat} (hi : i < SYS_cn) (hne : ¬ (q = p ∧ num = i + 1)) :
    get (syscall m q num) p .sys_count i = get m p .sys_count i := by
  rcases hc : syscalls num with _ | c
  · rw [syscall, hc]
  obtain ⟨hlo, hhi⟩ := syscalls_range hc
  obtain ⟨n, rfl⟩ : ∃ n : Nat, num = n + 1 := ⟨(num - 1).toNat, by omega⟩
  rw [syscall, hc]
  simp only [add_sub_cancel_right]
  refine update_of_ne ?_ _ m
  -- the 30th counter is not an entry of the array either
  have hoff : Field.offset .sys_count = 32 := by decide
  have hscn : SYS_cn = 29 := rfl
  have hwords := procwords_eq
  rw [addr_eq (by omega), addr_eq (by omega), hwords]
  omega

/-- **One call** counts for itself and for no other. -/
theorem Records.syscall (hr : Records m p h) (num : Int) :
    Records (syscall m p num) p (num :: h) := by
  intro k hk hk'
  by_cases hnum : num = k
  · subst hnum
    have hlt : ((k : Int) - 1).toNat < sysnos.length := by
      have hlen : SYS_cn < sysnos.length := by decide
      omega
    rw [getcount, SysCount.syscall, syscalls, if_pos (by omega), List.getElem?_eq_getElem hlt]
    rw [get_put_self, List.count_cons_self, UInt32.ofNat_add, ← hr k hk hk']
    rfl
  · rw [getcount_eq _ p hk, get_syscall_of_ne (by omega) (by omega), ← getcount_eq m p hk,
      hr k hk hk', List.count_cons_of_ne hnum]

theorem Records.other (hr : Records m p h) (hqp : q ≠ p) (num : Int) :
    Records (SysCount.syscall m q num) p h :=
  hr.congr fun _ hi => get_syscall_of_ne hi fun heq => hqp heq.1

theorem Records.step {a : Action} (ih : ∀ p, s.used p = true → Records s.mem p (s.calls p))
    (hs : SysCount.step s a = some s') : ∀ p, s'.used p = true → Records s'.mem p (s'.calls p) := by
  intro p hp
  cases a with
  | allocproc q =>
    simp only [SysCount.step] at hs
    split at hs
    · cases hs
      by_cases hpq : p = q
      · subst hpq
        simp only [update_self]
        exact Records.allocproc
      simp only [update_of_ne hpq] at hp ⊢
      refine (ih p hp).congr fun i hi => ?_
      have hcn : i < Field.words .sys_count := hi
      rw [SysCount.allocproc, get_resetCounts (Nat.le_refl _) hcn, if_neg (by simp [hpq])]
      refine get_put_of_ne (i := 0) s.mem _ (by decide) hcn ?_
      simp [hpq]
    · cases hs
  | free q =>
    simp only [SysCount.step] at hs
    split at hs
    · cases hs
      by_cases hpq : p = q
      · subst hpq; simp at hp
      · simp only [update_of_ne hpq] at hp
        exact ih p hp
    · cases hs
  | syscall q num =>
    simp only [SysCount.step] at hs
    split at hs
    · cases hs
      by_cases hpq : p = q
      · subst hpq
        simp only [update_self]
        exact (ih p hp).syscall num
      · simp only [update_of_ne hpq]
        exact (ih p hp).other (Ne.symm hpq) num
    · cases hs
  | assign q f i v =>
    obtain ⟨hf, ⟨⟩⟩ := Option.ite_none_right_eq_some.mp hs
    refine (ih p hp).congr fun j hj => ?_
    refine get_put_of_ne s.mem v hf.2 hj ?_
    rintro ⟨-, heq, -⟩
    rw [← heq] at hf
    exact hf.1

theorem records_of_reached (hs : system.Reached s) (hp : s.used p = true) :
    Records s.mem p (s.calls p) := by
  refine hs.invariant (I := fun s => ∀ p, s.used p = true → Records s.mem p (s.calls p)) ?_ ?_ p hp
  · rintro _ ⟨m, -, rfl⟩ p hp
    cases hp
  · exact fun s a s' ih _ hs => Records.step ih hs

/-! ### Which calls are counted exactly -/

/-- **Call `k` is accounted for**: `getcount(k)` is the number of times the process has made the
call, and counting it changes nothing else in the process table. -/
def Accounted (k : Int) : Prop :=
  (∀ s, system.Reached s → ∀ p, s.used p = true →
    getcount s.mem p k = UInt32.ofNat ((s.calls p).count k)) ∧
  ∀ m p q f (i : Nat), i < f.words → ¬ (q = p ∧ f = .sys_count ∧ (i : Int) = k - 1) →
    get (syscall m p k) q f i = get m q f i

/-- The accounting of system call `k`, for each of the 30, is exact if and only if `sys_count` has
an entry for it. -/
theorem accounting_exact (k : Int) (hk : (syscalls k).isSome = true) :
    Accounted k ↔ k ≤ SYS_cn := by
  obtain ⟨c, hc⟩ := Option.isSome_iff_exists.mp hk
  obtain ⟨hlo, hhi⟩ := syscalls_range hc
  obtain ⟨n, rfl⟩ : ∃ n : Nat, k = n := ⟨k.toNat, by omega⟩
  have hn : (n : Int) - 1 = (n - 1 : Nat) := by omega
  have hcn : Field.words .sys_count = SYS_cn := rfl
  constructor
  · -- the 30th counter is `arrivalt`
    rintro ⟨-, hframe⟩
    by_contra hgt
    have hlast : n = 30 := by
      have hscn : SYS_cn = 29 := rfl
      omega
    subst hlast
    have hsame := hframe (fun _ => 0) 0 0 .arrivalt 0 (by decide) (by decide)
    revert hsame
    decide
  · intro hle
    refine ⟨fun s hs p hp => records_of_reached hs hp n (by omega) (by omega), ?_⟩
    intro m p q f i hi hne
    rw [syscall, hc]
    simp only [hn]
    have hlt : n - 1 < Field.words .sys_count := by omega
    refine get_put_of_ne m _ hlt hi ?_
    rintro ⟨hq, hf, heq⟩
    exact hne ⟨hq, hf, by omega⟩

/-- `dup2` is call 30. -/
def dup2Twice : List Action := [.allocproc 0, .syscall 0 30, .free 0, .allocproc 0]

theorem reached_zero : system.Reached (boot fun _ => 0) := .init ⟨_, fun _ _ _ _ => rfl, rfl⟩

theorem dup2Twice_counted :
    ∃ s, system.Reached s ∧ s.used 0 = true ∧ s.calls 0 = [] ∧ getcount s.mem 0 30 = 1 :=
  reached_zero.run_decide dup2Twice (by decide +kernel)

/-- **`dup2` is counted in `arrivalt`**, and the next process in the slot starts with its
predecessor's count. -/
theorem dup2_counts_in_arrivalt :
    syscalls 30 = some .dup2 ∧
    get (syscall (fun _ => 0) 0 30) 0 .arrivalt 0 = 1 ∧
    ∃ s, system.Reached s ∧ s.used 0 = true ∧ s.calls 0 = [] ∧ getcount s.mem 0 30 = 1 := by
  exact ⟨rfl, by decide, dup2Twice_counted⟩

theorem accounting_exact_fork : Accounted 1 := (accounting_exact 1 rfl).mpr (by decide)

/-! ### What `getcount` reveals -/

/-- Which words `getcount` finds in its own array. -/
def InRange (procno : Int) : Prop := (procno - 1) % 2 ^ 30 < SYS_cn

/-- `getcount(procno)` tells nothing but the history of the caller. -/
def OwnHistory (procno : Int) : Prop :=
  ∀ m m' p h, Records m p h → Records m' p h → getcount m p procno = getcount m' p procno

theorem getcount_congr (m : Mem) (p : Fin NPROC) {a b : Int}
    (h : (a - 1) % 2 ^ 30 = (b - 1) % 2 ^ 30) : getcount m p a = getcount m p b := by
  have haddr : addr p .sys_count (a - 1) = addr p .sys_count (b - 1) := by
    unfold addr
    omega
  rw [getcount, get, haddr]
  rfl

theorem addr_ne {procno : Int} (hout : ¬ InRange procno) (p : Fin NPROC) {i : Nat}
    (hi : i < SYS_cn) : addr p .sys_count i ≠ addr p .sys_count (procno - 1) := by
  unfold InRange at hout
  unfold addr
  omega

/-- **`getcount` tells nothing but the caller's own history** if and only if its argument leads
to one of the 29 counters. -/
theorem getcount_own_history (procno : Int) : OwnHistory procno ↔ InRange procno := by
  constructor
  · -- change the word in question, and no counter notices
    intro hown
    by_contra hout
    have hzero : Records (fun _ => 0) 0 [] := fun k _ _ => rfl
    have hone : Records (put (fun _ => 0) 0 .sys_count (procno - 1) 1) 0 [] := by
      refine hzero.congr fun i hi => ?_
      rw [get, put, update_of_ne (addr_ne hout 0 hi)]
      rfl
    have heq := hown _ _ 0 [] hzero hone
    rw [getcount, getcount, get_put_self, get] at heq
    exact absurd heq (by decide)
  · intro hin m m' p h hm hm'
    obtain ⟨k, hk, hk', hmod⟩ : ∃ k : Nat, 1 ≤ k ∧ k ≤ SYS_cn ∧
        (procno - 1) % 2 ^ 30 = ((k : Int) - 1) % 2 ^ 30 := by
      unfold InRange at hin
      exact ⟨((procno - 1) % 2 ^ 30).toNat + 1, by omega, by omega, by omega⟩
    rw [getcount_congr m p hmod, getcount_congr m' p hmod, hm k hk hk', hm' k hk hk']

theorem getcount_own_history_first : OwnHistory 1 :=
  (getcount_own_history 1).mpr (by rw [InRange]; decide)

/-- **`getcount(30)` tells what an earlier process in the slot did**: two runs after which the
process in slot 0 has made no call at all. -/
theorem getcount_reveals_predecessor :
    ∃ s s', system.Reached s ∧ system.Reached s' ∧ s.used 0 = true ∧ s'.used 0 = true ∧
      s.calls 0 = [] ∧ s'.calls 0 = [] ∧ getcount s.mem 0 30 ≠ getcount s'.mem 0 30 := by
  obtain ⟨s, hs, hused, hcalls, hcount⟩ := dup2Twice_counted
  obtain ⟨s', hs', hused', hcalls', hcount'⟩ := reached_zero.run_decide [.allocproc 0]
    (P := fun s => s.used 0 = true ∧ s.calls 0 = [] ∧ getcount s.mem 0 30 = 0) (by decide +kernel)
  refine ⟨s, s', hs, hs', hused, hused', hcalls, hcalls', ?_⟩
  rw [hcount, hcount']
  decide

end Xv6.SysCount
