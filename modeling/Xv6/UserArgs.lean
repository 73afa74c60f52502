import Xv6.Exec
import Xv6.Transition
import Xv6.UserMem
import Xv6.VmSbrk

/-!
**The checks on user arguments are sound**, because `sz` stays below `KERNBASE`.

The checks of `syscall.c` add before they compare. What rules out a wrap-around is a bound that
`allocuvm` keeps for `exec`, `sbrk` and `fork`, whatever the headers of an executable and the
argument of `sbrk` are (`sz_lt`). `AllBacked` leaves out the runs in which what an
`exec` does depends on the word that `uva2ka` reads through a null pointer: it may copy its
arguments anywhere.
-/

namespace Xv6.Vm.Args

open Program Transition Exec Function
open Icache (Dinode)
open UserMem (Caller fetchint fetchstr argint argptr argstr strLoop)

/-! ### `exec`, `sbrk` and `fork` -/

/-- The frames, and the processes by pid. -/
structure State where
  mem : Kmem
  procs : Nat → Option Proc

inductive Action where
  | fork (pid child : Nat)
  | exec (pid : Nat) (ip : Dinode) (argv : List (List UInt8))
  | sbrk (pid : Nat) (n : Int)

/-- Run a function of the kernel to its end. -/
def State.run {α : Type} (s : State) (f : Kprog α) (g : α → Nat → Option Proc) : Option State :=
  match Program.exec f [] s.mem with
  | .done a mem => some ⟨mem, g a⟩
  | _ => none

def step (k : Kernel) (s : State) : Action → Option State
  | .fork pid child =>
      match s.procs pid, s.procs child with
      | some p, none => s.run (copyuvm k p.pgdir p.sz) fun d =>
          update s.procs child (d.map fun pgdir => ⟨p.sz, pgdir⟩)
      | _, _ => none
  | .exec pid ip argv =>
      match s.procs pid with
      | some p => s.run (Exec.exec (derefNull p.pgdir) k p ip argv) fun r =>
          update s.procs pid (some r.2.1)
      | none => none
  | .sbrk pid n =>
      match s.procs pid with
      | some p => s.run (sysSbrk k p n) fun r => update s.procs pid (some r.2)
      | none => none

/-- From the first process on, which `userinit` gives one page. -/
def system (k : Kernel) : System State Action where
  init s := ∃ pgdir, s.procs = fun pid => if pid = 1 then some ⟨PGSIZE, pgdir⟩ else none
  step := step k

/-- Every `copyout` of an `exec` is backed: whatever a read through a null pointer does, the
`exec` ends in the same way. -/
def AllBacked (k : Kernel) (s : State) : Action → Prop
  | .exec pid ip argv => ∀ p, s.procs pid = some p → ∀ null,
      Program.exec (Exec.exec null k p ip argv) [] s.mem =
        Program.exec (Exec.exec (derefNull p.pgdir) k p ip argv) [] s.mem
  | _ => True

/-! ### The bound -/

section

variable {k : Kernel} {s : Kmem} {pd oldsz newsz : Nat}

abbrev any : String → Prop := fun _ => True

theorem wp_allocLoop_size : ∀ (fuel a : Nat) {s : Kmem},
    wp any (allocLoop k pd oldsz newsz fuel a) (fun sz _ => sz = 0 ∨ sz = newsz) s := by
  intro fuel
  induction fuel with
  | zero => exact fun _ _ => trivial
  | succ fuel ih =>
    intro a s
    unfold allocLoop
    split
    · refine wp_after fun mem s1 => ?_
      rcases mem with _ | mem
      · exact wp_after fun _ _ => .inl rfl
      refine wp_after fun _ s2 => wp_after fun r s3 => ?_
      split
      · exact wp_after fun _ _ => wp_after fun _ _ => .inl rfl
      · exact ih _
    · exact .inr rfl

/-- **`allocuvm`** never returns a size of `KERNBASE` or more. -/
theorem wp_allocuvm_size (hold : oldsz < KERNBASE ∨ KERNBASE ≤ newsz) :
    wp any (allocuvm k pd oldsz newsz) (fun sz _ => sz < KERNBASE) s := by
  have hzero : 0 < KERNBASE := by decide
  unfold allocuvm
  split
  · exact hzero
  rename_i hlt
  split
  · exact hold.resolve_right hlt
  refine wp_mono (wp_allocLoop_size _ _) fun sz _ hsz => ?_
  rcases hsz with rfl | rfl
  · exact hzero
  · exact Nat.not_le.mp hlt

theorem wp_loadSegments_size {ip : Dinode} : ∀ (n off : Nat) {sz : Nat} {s : Kmem}, sz < KERNBASE →
    wp any (loadSegments k pd ip n off sz) (fun r _ => ∀ sz ∈ r, sz < KERNBASE) s := by
  intro n
  induction n with
  | zero =>
    intro off sz s hsz sz' hmem
    exact Option.some.inj hmem ▸ hsz
  | succ n ih =>
    intro off sz s hsz
    unfold loadSegments
    simp only
    split
    · exact nofun
    split
    · exact ih _ hsz
    split
    · exact nofun
    split
    · exact nofun
    generalize (_ + _) % 2 ^ 32 = newsz
    refine wp_bind.mpr (wp_mono (wp_allocuvm_size (.inl hsz)) fun sz' s1 hsz' => ?_)
    split
    · exact nofun
    split
    · exact nofun
    refine wp_after fun r s2 => ?_
    split
    · exact nofun
    · exact ih _ hsz'

theorem pgroundup_lt (h : oldsz < KERNBASE) : PGROUNDUP oldsz ≤ KERNBASE := by
  rw [pgroundup_eq h.le]
  have hpages := pages_le h.le
  exact Nat.mul_le_mul_right _ hpages

/-- The stack makes the image larger, or `allocuvm` refuses. -/
theorem wp_buildStack_size {null : Kprog Nat} {entry : Nat} {argv : List (List UInt8)}
    (hsz : oldsz < KERNBASE) :
    wp any (buildStack null k pd oldsz entry argv) (fun r _ => ∀ i ∈ r, i.sz < KERNBASE) s := by
  have hroom : PGROUNDUP oldsz < KERNBASE ∨
      KERNBASE ≤ (PGROUNDUP oldsz + 2 * PGSIZE) % 2 ^ 32 := by
    rcases Nat.lt_or_eq_of_le (pgroundup_lt hsz) with hlt | hfull
    · exact .inl hlt
    · rw [hfull]
      exact .inr (by decide)
  unfold buildStack
  generalize (PGROUNDUP oldsz + 2 * PGSIZE) % 2 ^ 32 = newsz at hroom ⊢
  refine wp_bind.mpr (wp_mono (wp_allocuvm_size hroom) fun sz s1 hlt => ?_)
  split
  · exact nofun
  refine wp_after fun _ s2 => wp_after fun r s3 => ?_
  rcases r with _ | ⟨sp, ptrs⟩
  · exact nofun
  refine wp_after fun r s4 => ?_
  split
  · exact nofun
  · intro i hi
    exact Option.some.inj hi ▸ hlt

theorem wp_exec_size {null : Kprog Nat} {p : Proc} {ip : Dinode} {argv : List (List UInt8)}
    (hsz : p.sz < KERNBASE) :
    wp any (Exec.exec null k p ip argv) (fun r _ => r.2.1.sz < KERNBASE) s := by
  unfold Exec.exec
  simp only
  split
  · exact hsz
  split
  · exact hsz
  refine wp_after fun pgdir s1 => ?_
  rcases pgdir with _ | pgdir
  · exact hsz
  have hbuild : wp any (build null k pgdir ip (ip.readi 0 ELFSIZE).2 argv)
      (fun r _ => ∀ i ∈ r, i.sz < KERNBASE) s1 := by
    refine wp_bind.mpr (wp_mono (wp_loadSegments_size _ _ (by decide)) fun sz s2 hlt => ?_)
    rcases sz with _ | sz
    · exact nofun
    · exact wp_buildStack_size (hlt sz rfl)
  refine wp_bind.mpr (wp_mono hbuild fun image s2 hlt => ?_)
  rcases image with _ | image
  · exact wp_after fun _ _ => hsz
  · exact wp_after fun _ _ => hlt image rfl

theorem wp_sysSbrk_size {p : Proc} {n : Int} (hsz : p.sz < KERNBASE) :
    wp any (sysSbrk k p n) (fun r _ => r.2.sz < KERNBASE) s := by
  have hgrow : wp any (growproc k p n) (fun r _ => r.2.sz < KERNBASE) s := by
    unfold growproc
    generalize (p.sz + ofInt32 n) % 2 ^ 32 = newsz
    split
    · refine wp_bind.mpr (wp_mono (wp_allocuvm_size (.inl hsz)) fun sz s1 hlt => ?_)
      split
      · exact hsz
      · exact hlt
    split
    · refine wp_bind.mpr ?_
      unfold deallocuvm
      split
      · simp only [wp_pure]
        split
        · exact hsz
        · exact hsz
      next hless =>
        refine wp_after fun _ s1 => ?_
        simp only [wp_pure]
        split
        · exact hsz
        · exact (Nat.not_le.mp hless).trans hsz
    · exact hsz
  refine wp_bind.mpr (wp_mono hgrow fun r s1 hr => ?_)
  obtain ⟨r, p'⟩ := r
  simp only
  split
  · exact hr
  · exact hr

end

theorem State.run_post {α : Type} {s s' : State} {f : Kprog α} {g : α → Nat → Option Proc}
    {Q : α → Kmem → Prop} (hwp : wp any f Q s.mem) (hrun : s.run f g = some s') :
    ∃ a, Q a s'.mem ∧ s'.procs = g a := by
  unfold State.run at hrun
  split at hrun
  next a mem hdone =>
    cases hrun
    exact ⟨a, post_of_done hwp hdone, rfl⟩
  · cases hrun

/-- **In every reachable state** all processes end below the kernel. -/
theorem sz_lt {k : Kernel} {s : State} (h : (system k).Reachable (AllBacked k) s) :
    ∀ pid p, s.procs pid = some p → p.sz < KERNBASE := by
  refine h.invariant (I := fun s => ∀ pid p, s.procs pid = some p → p.sz < KERNBASE) ?_ ?_
  · rintro s ⟨pgdir, hprocs⟩ pid p hp
    simp only [hprocs] at hp
    split at hp
    · cases hp
      exact (by decide : PGSIZE < KERNBASE)
    · cases hp
  · intro s a s' hinv _ hstep
    -- a process that is new or changed has a size within the bound
    have hupdate : ∀ (q : Nat) (new : Option Proc), (∀ p ∈ new, p.sz < KERNBASE) →
        s'.procs = update s.procs q new →
        ∀ pid p, s'.procs pid = some p → p.sz < KERNBASE := by
      intro q new hnew hprocs pid p hp
      rw [hprocs] at hp
      by_cases hpid : pid = q
      · rw [hpid, update_self] at hp
        exact hnew p hp
      · rw [update_of_ne hpid] at hp
        exact hinv pid p hp
    cases a with
    | fork pid child =>
      simp only [system, step] at hstep
      split at hstep
      next p hpid _ =>
        obtain ⟨d, -, hprocs⟩ := State.run_post (wp_true _) hstep
        refine hupdate child _ (fun q hq => ?_) hprocs
        obtain ⟨pgdir, -, rfl⟩ := Option.mem_map.mp hq
        exact hinv pid p hpid
      · cases hstep
    | exec pid ip argv =>
      simp only [system, step] at hstep
      split at hstep
      next p hpid =>
        obtain ⟨r, hr, hprocs⟩ := State.run_post (wp_exec_size (hinv pid p hpid)) hstep
        exact hupdate pid _ (fun q hq => Option.some.inj hq ▸ hr) hprocs
      · cases hstep
    | sbrk pid n =>
      simp only [system, step] at hstep
      split at hstep
      next p hpid =>
        obtain ⟨r, hr, hprocs⟩ := State.run_post (wp_sysSbrk_size (hinv pid p hpid)) hstep
        exact hupdate pid _ (fun q hq => Option.some.inj hq ▸ hr) hprocs
      · cases hstep

/-! ### Strings -/

/-- The first NUL at or after `addr` is at `addr + len`, below `sz`. -/
def FirstNul (c : Caller) (addr len : Nat) : Prop :=
  addr + len < c.sz ∧ Bytes.byteAt c.mem (addr + len) = 0 ∧
    ∀ j < len, Bytes.byteAt c.mem (addr + j) ≠ 0

section

variable {c : Caller} {addr : Nat}

theorem strLoop_cases (c : Caller) (addr : Nat) : ∀ (turns done : Nat),
    (∀ j < done, Bytes.byteAt c.mem (addr + j) ≠ 0) →
    (∃ len, len < done + turns ∧ strLoop c addr turns (addr + done) = len ∧
      Bytes.byteAt c.mem (addr + len) = 0 ∧ ∀ j < len, Bytes.byteAt c.mem (addr + j) ≠ 0) ∨
    (strLoop c addr turns (addr + done) = -1 ∧
      ∀ j < done + turns, Bytes.byteAt c.mem (addr + j) ≠ 0) := by
  intro turns
  induction turns with
  | zero => exact fun done hdone => .inr ⟨rfl, hdone⟩
  | succ turns ih =>
    intro done hdone
    unfold strLoop
    split
    next hnul =>
      refine .inl ⟨done, by omega, ?_, hnul, hdone⟩
      omega
    next hnot =>
      have hnext : ∀ j < done + 1, Bytes.byteAt c.mem (addr + j) ≠ 0 := by
        intro j hj
        rcases Nat.lt_succ_iff_lt_or_eq.mp hj with hlt | rfl
        · exact hdone j hlt
        · exact hnot
      have hmore := ih (done + 1) hnext
      rwa [← Nat.add_assoc, Nat.add_right_comm done 1 turns] at hmore

/-- **`fetchstr`** finds the first NUL below `sz`, or returns -1. -/
theorem fetchstr_cases (c : Caller) (addr : Nat) :
    (∃ len : Nat, fetchstr c addr = len ∧ FirstNul c addr len) ∨
    (fetchstr c addr = -1 ∧ ∀ len, ¬ FirstNul c addr len) := by
  unfold fetchstr
  split
  next hout =>
    refine .inr ⟨rfl, fun len hnul => ?_⟩
    have hin := hnul.1
    omega
  · obtain ⟨len, hlen, hloop, hnul⟩ | ⟨hloop, hnone⟩ :=
      strLoop_cases c addr (c.sz - addr) 0 nofun
    · exact .inl ⟨len, hloop, by omega, hnul⟩
    · refine .inr ⟨hloop, fun len hnul => hnone len ?_ hnul.2.1⟩
      have hin := hnul.1
      omega

theorem FirstNul.unique {len len' : Nat} (h : FirstNul c addr len) (h' : FirstNul c addr len') :
    len = len' := by
  rcases Nat.lt_trichotomy len len' with hlt | heq | hgt
  · exact absurd h.2.1 (h'.2.2 len hlt)
  · exact heq
  · exact absurd h'.2.1 (h.2.2 len' hgt)

theorem fetchstr_eq_iff {len : Nat} : fetchstr c addr = len ↔ FirstNul c addr len := by
  rcases fetchstr_cases c addr with ⟨len', heq, hnul⟩ | ⟨heq, hnone⟩
  · rw [heq, Int.natCast_inj]
    exact ⟨fun h => h ▸ hnul, hnul.unique⟩
  · exact iff_of_false (by omega) (hnone len)

/-- Only the bytes below `sz` matter. -/
theorem strLoop_congr {mem : Bytes.Block (2 ^ 32)}
    (hsame : ∀ b < c.sz, Bytes.byteAt mem b = Bytes.byteAt c.mem b) :
    ∀ (turns s : Nat), s + turns ≤ c.sz →
      strLoop { c with mem := mem } addr turns s = strLoop c addr turns s := by
  intro turns
  induction turns with
  | zero => exact fun _ _ => rfl
  | succ turns ih =>
    intro s hs
    simp only [strLoop]
    rw [hsame s (by omega), ih (s + 1) (by omega)]

theorem fetchstr_congr {mem : Bytes.Block (2 ^ 32)}
    (hsame : ∀ b < c.sz, Bytes.byteAt mem b = Bytes.byteAt c.mem b) :
    fetchstr { c with mem := mem } addr = fetchstr c addr := by
  simp only [fetchstr]
  split
  · rfl
  · exact strLoop_congr hsame _ _ (by omega)

end

/-- **An argument that is accepted lies in the process.** In every state that `exec`, `sbrk` and
`fork` reach, every `copyout` being backed, for a process of that state with any stack pointer and
any memory. -/
theorem user_arguments_checked (k : Kernel) {s : State}
    (h : (system k).Reachable (AllBacked k) s) {pid : Nat} {p : Proc} (hp : s.procs pid = some p)
    (esp : Nat) (mem : Bytes.Block (2 ^ 32)) :
    (∀ addr v, fetchint ⟨p.sz, esp, mem⟩ addr = some v → addr + 4 ≤ p.sz) ∧
    (∀ n v, argint ⟨p.sz, esp, mem⟩ n = some v → (esp + 4 + 4 * n) % 2 ^ 32 + 4 ≤ p.sz) ∧
    (∀ n size ptr, 0 ≤ size → size < 2 ^ 31 → argptr ⟨p.sz, esp, mem⟩ n size = some ptr →
      ptr + size.toNat ≤ p.sz) ∧
    (∀ n size, size < 0 → argptr ⟨p.sz, esp, mem⟩ n size = none) ∧
    (∀ addr, (∀ len : Nat, fetchstr ⟨p.sz, esp, mem⟩ addr = len ↔
        FirstNul ⟨p.sz, esp, mem⟩ addr len) ∧
      (fetchstr ⟨p.sz, esp, mem⟩ addr < 0 → fetchstr ⟨p.sz, esp, mem⟩ addr = -1) ∧
      ∀ mem', (∀ b < p.sz, Bytes.byteAt mem' b = Bytes.byteAt mem b) →
        fetchstr ⟨p.sz, esp, mem'⟩ addr = fetchstr ⟨p.sz, esp, mem⟩ addr) ∧
    ∀ n, (∀ len : Nat, argstr ⟨p.sz, esp, mem⟩ n = len ↔
        ∃ i, argint ⟨p.sz, esp, mem⟩ n = some i ∧
          FirstNul ⟨p.sz, esp, mem⟩ (ofInt32 i) len) ∧
      (argstr ⟨p.sz, esp, mem⟩ n < 0 → argstr ⟨p.sz, esp, mem⟩ n = -1) := by
  have hsz : p.sz < 2 ^ 31 := sz_lt h pid p hp
  have hint : ∀ addr v, fetchint ⟨p.sz, esp, mem⟩ addr = some v → addr + 4 ≤ p.sz := by
    intro addr v haccept
    unfold fetchint at haccept
    split at haccept
    · cases haccept
    next hok =>
      simp only at hok
      omega
  have hstr : ∀ addr, fetchstr ⟨p.sz, esp, mem⟩ addr < 0 →
      fetchstr ⟨p.sz, esp, mem⟩ addr = -1 := by
    intro addr hneg
    rcases fetchstr_cases ⟨p.sz, esp, mem⟩ addr with ⟨len, heq, -⟩ | ⟨heq, -⟩
    · omega
    · exact heq
  refine ⟨hint, fun n v => hint _ v, fun n size ptr _ hsize haccept => ?_, fun n size hneg => ?_,
    fun addr => ⟨fun len => fetchstr_eq_iff, hstr addr,
      fun mem' => fetchstr_congr (c := ⟨p.sz, esp, mem⟩)⟩, fun n => ?_⟩
  · exact (UserMem.argptr_le hsz.le hsize haccept).2
  · rw [argptr]
    rcases argint ⟨p.sz, esp, mem⟩ n with _ | i
    · rfl
    · exact if_pos (.inl hneg)
  · unfold argstr
    rcases argint ⟨p.sz, esp, mem⟩ n with _ | i
    · exact ⟨fun len => iff_of_false (by simp) (by simp), fun _ => rfl⟩
    · refine ⟨fun len => ?_, hstr _⟩
      simp only [Option.some.injEq, exists_eq_left']
      exact fetchstr_eq_iff

/-- The first process, on a small machine. -/
def first : State where
  mem := onePage
  procs pid := if pid = 1 then some ⟨PGSIZE, 258⟩ else none

/-- A range that ends with the page `sbrk` has added. -/
theorem user_arguments_checked_sbrk : ∃ s, (system tiny).Reachable (AllBacked tiny) s ∧
    s.procs 1 = some ⟨2 * PGSIZE, 258⟩ ∧
    argptr ⟨2 * PGSIZE, 0, fun _ => 0⟩ 0 8192 = some 0 ∧ 0 + (8192 : Int).toNat ≤ 2 * PGSIZE := by
  have hgrown : ((system tiny).step first (.sbrk 1 4096)).any
      (fun s => decide (s.procs 1 = some ⟨2 * PGSIZE, 258⟩)) = true := by decide +kernel
  rcases hstep : (system tiny).step first (.sbrk 1 4096) with _ | s
  · rw [hstep] at hgrown
    cases hgrown
  rw [hstep] at hgrown
  have hp : s.procs 1 = some ⟨2 * PGSIZE, 258⟩ := of_decide_eq_true hgrown
  have haccept : argptr ⟨2 * PGSIZE, 0, fun _ => 0⟩ 0 8192 = some 0 := by decide +kernel
  have hfirst : (system tiny).Reachable (AllBacked tiny) first := .init ⟨258, rfl⟩
  have hreach := hfirst.step (a := Action.sbrk 1 4096) trivial hstep
  have hchecked := user_arguments_checked tiny hreach hp 0 fun _ => 0
  exact ⟨s, hreach, hp, haccept, hchecked.2.2.1 0 8192 0 (by decide) (by decide) haccept⟩

end Xv6.Vm.Args
