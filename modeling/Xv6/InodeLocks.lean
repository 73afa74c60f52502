import Xv6.InodeCalls

/-!
**Deadlock on inode locks.**

Any number of processes run `link`, `unlink`, `open`, `mkdir`, `mknod`, `chdir`, interleaved
at every step. They wait for inode locks, with others held, in two ways:

  * in `ilock`, for a child under its parent. These waits go up in the order of
    `InodeOrder`;
  * in `iput`, which locks too: for an existing entry in `dirlink`, for the child and for
    the parent in `unlink`, for the parent in `create`. These may go anywhere.

All but the first of these `iput`s come right after the `iunlock` of the same inode, so nobody
waits in them unless somebody else locks the inode in between (`keepsOrder`).
-/

namespace Xv6.Fs

open Program Transition Tally Function

/-! ### The system -/

/-- The cache when nobody is in a call: copies of allocated inodes only, and a reference for every
process's directory. -/
structure Coherent (s : State) : Prop where
  small : s.ninodes ≤ 65536
  valid : ∀ i, (s.icache i).valid = true → (s.inode i).type ≠ .free
  cwd : ∀ i, tally (fun pr : Proc => if pr.cwd = some i then 1 else 0) s.kernel.ptable ≤
    (s.icache i).ref
  cwd_lt : ∀ p i, (s.kernel.ptable p).cwd = some i → i < 65536

/-- The directories can be numbered so that entries other than `.` and `..` go up: they form no
cycle. -/
def Numbered (s : State) : Prop :=
  ∃ (number : Nat → Nat) (bound : Nat), (∀ i, number i < bound) ∧
    ∀ d i, i ∈ (s.inode d).out → (s.inode i).type = .T_DIR → number d < number i

abbrev PathConf := Conf (Fin NPROC) State Site Nat PathCall

def body (p : Fin NPROC) (c : PathCall) : Fprog Unit := do
  let _ ← c.run p
  pure ()

def pathCalls : System PathConf (Act (Fin NPROC) PathCall) :=
  threads (fun s => Coherent s ∧ Numbered s) body fun s p _ => decide (Runs s.kernel p)

theorem count_cwdRef (p : Fin NPROC) (s : State) (i : Nat) :
    ((cwdRef p s).count i : ℤ) = if (s.kernel.ptable p).cwd = some i then 1 else 0 := by
  unfold cwdRef
  rcases (s.kernel.ptable p).cwd with _ | w
  · simp
  · by_cases hw : w = i
    · simp [hw]
    · simp [hw, Ne.symm hw]

theorem covered_of_init {s : State} (hcoherent : Coherent s) (hnumbered : Numbered s) :
    ∃ g, Ordered s g ∧ ∀ p, treeOrder.idle p s g := by
  obtain ⟨number, bound, hbound, hup⟩ := hnumbered
  refine ⟨⟨number, bound, fun p => cwdRef p s, fun _ => none⟩, ?_, fun p => ⟨rfl, rfl⟩⟩
  constructor
  · exact hcoherent.small
  · intro d i hi
    have hdir := (Inode.mem_out.mp hi).1
    by_cases htype : (s.inode i).type = .T_DIR
    · exact rank_lt_of_birth hdir (hup d i hi htype)
    · rw [rank_eq_top htype, rank_eq_birth hdir]
      exact WithTop.coe_lt_top _
  · exact hbound
  · intro i
    refine le_trans (le_of_eq ?_) (hcoherent.cwd i)
    unfold tokens tally
    exact Finset.sum_congr rfl fun p _ => count_cwdRef p s i
  · intro p i hi
    refine hcoherent.cwd_lt p i ?_
    have hpos : 0 < (cwdRef p s).count i := Multiset.count_pos.mpr hi
    have hcount := count_cwdRef p s i
    split at hcount
    · assumption
    · omega
  · exact fun p i hi => nomatch hi
  · exact hcoherent.valid

theorem covered_of_reachable {x : PathConf} {ok : PathConf → Act (Fin NPROC) PathCall → Prop}
    (h : pathCalls.Reachable ok x) : treeOrder.Covered x := by
  refine Rely.covered_of_reachable (fun p c s g hinv hidle _ => ?_)
    (fun s hs => covered_of_init hs.1 hs.2) h
  refine Rely.Safe.bind (safe_run c hinv hidle) hinv fun _ held1 s1 g1 _ hdone => ?_
  obtain ⟨rfl, hidle1⟩ := hdone
  exact Rely.safe_pure fun s2 g2 _ hframe2 => ⟨rfl, treeOrder.idle_frame hidle1 hframe2⟩

/-! ### Cycles -/

/-- The inode that the program is about to lock in an `iput` with other inodes locked. -/
def puts : Fprog Unit → Option Nat
  | .acquire (.iput (_ :: _)) l _ => some l
  | _ => none

/-- A process comes to such an `iput` only by unlocking the inode, so no `dirlink` finds its name
taken; and nobody locks an inode that another process has unlocked on its way to such an `iput`. -/
def keepsOrder (x : PathConf) : Act (Fin NPROC) PathCall → Prop
  | .run p => (puts (x.next p) ≠ none → puts (x.next p) = gives (x.prog p)) ∧
      ∀ q, q ≠ p → puts (x.prog q) ≠ none → puts (x.prog q) ≠ takes (x.prog p)
  | .call _ _ => True

instance (x : PathConf) (a : Act (Fin NPROC) PathCall) : Decidable (keepsOrder x a) := by
  cases a <;> unfold keepsOrder <;> infer_instance

/-- Whoever is about to lock an inode in `iput`, with others locked, finds it unlocked. -/
def PutsFree (x : PathConf) : Prop :=
  ∀ p h l, x.owner h = some p → puts (x.prog p) = some l → x.owner l = none

theorem PutsFree.step {x x' : PathConf} {a : Act (Fin NPROC) PathCall}
    (hcov : treeOrder.Covered x) (h : PutsFree x) (hok : keepsOrder x a)
    (hs : pathCalls.step x a = some x') : PutsFree x' := by
  intro q i l howner hputs
  change x.step body (fun s p _ => decide (Runs s.kernel p)) a = some x' at hs
  cases a with
  | call p c =>
    cases moved_of_step hs with
    | call p c hcall =>
      have hqp : q ≠ p := by
        rintro rfl
        obtain ⟨g, -, hall⟩ := hcov
        obtain ⟨held, hown, -, hidle⟩ := hall q
        rw [hcall] at hidle
        have hi := (hown i).mp howner
        rw [hidle.1] at hi
        cases hi
      exact h q i l howner (by simpa only [update_of_ne hqp] using hputs)
  | run p =>
    rcases ran_of_step hs with rfl | hran
    · exact h q i l howner hputs
    rw [hran.prog] at hputs
    by_cases hqp : q = p
    · subst hqp
      rw [update_self] at hputs
      refine hran.gave ?_
      rw [← hok.1 (by rw [hputs]; simp), hputs]
    · rw [update_of_ne hqp] at hputs
      have hi := (hran.owner howner).resolve_right fun heq => hqp heq.1
      refine hran.free (h q i l hi hputs) fun htakes => ?_
      exact hok.2 q hqp (by rw [hputs]; simp) (hputs.trans htakes.symm)

theorem putsFree_of_reachable {x : PathConf} (h : pathCalls.Reachable keepsOrder x) :
    PutsFree x := by
  induction h with
  | init h0 =>
    obtain ⟨s, -, rfl⟩ := h0
    exact nofun
  | step hx hok hs ih => exact ih.step (covered_of_reachable hx) hok hs

/-- **No deadlock on inode locks**, while no `dirlink` finds its name taken and nobody comes between
the two halves of an `iunlockput` with other inodes locked. -/
theorem no_deadlock_of_order {x : PathConf} (h : pathCalls.Reachable keepsOrder x)
    (p : Fin NPROC) : ¬ Relation.TransGen x.WaitsFor p p := by
  obtain ⟨g, hinv, hall⟩ := covered_of_reachable h
  refine acyclic_of_rank (fun p => (takes (x.prog p)).elim ⊤ (rank x.shared g)) ?_ p
  rintro p q ⟨w, l, ⟨-, k, hprog⟩, howner⟩ hcycle
  obtain ⟨r, ⟨w', l', ⟨hcall, k', hprog'⟩, howner'⟩, -⟩ := next_on_cycle hcycle
  obtain ⟨held, hstands⟩ := hall q
  obtain ⟨c, hc⟩ := Option.ne_none_iff_exists'.mp hcall
  have hok := hstands.ok hinv hc hprog'
  have hl : l ∈ held := (hstands.1 l).mp howner
  simp only [hprog, hprog', takes, Option.elim_some]
  cases w' with
  | ilock => exact hok l hl
  | iput locked =>
    -- with `l` locked, the process does not wait in `iput`
    have hmem : l ∈ locked := hok hl
    have hputs : puts (x.prog q) = some l' := by
      rw [hprog']
      cases locked with
      | nil => cases hmem
      | cons => rfl
    rw [putsFree_of_reachable h q l l' howner hputs] at howner'
    cases howner'

/-! ### A file system with one file -/

def home : State where
  kernel := booted.setProc 1 { booted.ptable 0 with pid := 2 }
  ninodes := 4
  inode i :=
    match i with
    | 1 => { type := .T_DIR, major := 0, minor := 0, nlink := 1,
             ents := [⟨1, dot⟩, ⟨1, dotdot⟩, ⟨2, Name.ofBytes [120]⟩] }
    | 2 => { type := .T_FILE, major := 0, minor := 0, nlink := 1, ents := [] }
    | _ => { type := .free, major := 0, minor := 0, nlink := 0, ents := [] }
  icache i := if i = ROOTINO then ⟨2, true⟩ else ⟨0, false⟩
  inuse := 1

theorem coherent_home : Coherent home := by
  constructor
  · decide
  · intro i hi
    by_cases h : i = ROOTINO
    · subst h; decide
    · simp [home, h] at hi
  · intro i
    have hne : (1 : Fin NPROC) ≠ 0 := by decide
    simp only [home, Kernel.setProc, booted, tally_update]
    rw [tally_eq_zero fun _ => by simp]
    by_cases h : i = ROOTINO
    · subst h; decide
    · simp [h, Ne.symm h, hne]
  · intro p i hi
    have hroot : (home.kernel.ptable p).cwd = some ROOTINO ∨
        (home.kernel.ptable p).cwd = none := by
      simp only [home, Kernel.setProc, booted, update_apply]
      split_ifs <;> simp
    rcases hroot with hroot | hroot
    · cases hi.symm.trans hroot
      decide
    · cases hi.symm.trans hroot

theorem numbered_home : Numbered home := by
  refine ⟨fun _ => 0, 1, fun _ => Nat.zero_lt_one, ?_⟩
  intro d i hi htype
  rcases d with _ | _ | _ | d
  · cases hi
  · obtain rfl : i = 2 := List.mem_singleton.mp hi
    cases htype
  · cases hi
  · cases hi

theorem reachable_home {ok : PathConf → Act (Fin NPROC) PathCall → Prop} :
    pathCalls.Reachable ok (Conf.idle home) :=
  .init ⟨home, ⟨coherent_home, numbered_home⟩, rfl⟩

/-- `mkdir` gives the root back with the new directory locked, and is done; then `unlink` locks the
root and waits for the file that `open` has locked. -/
def mkdirOpenUnlink : List (Act (Fin NPROC) PathCall) :=
  .call 0 (.SYS_mkdir (some [97])) :: List.replicate 41 (.run 0) ++
    .call 1 (.SYS_open (some ([120], O_RDONLY))) :: List.replicate 16 (.run 1) ++
    .call 0 (.SYS_unlink (some [120])) :: List.replicate 14 (.run 0)

theorem no_deadlock_waiting_child :
    ∃ x : PathConf, pathCalls.Reachable keepsOrder x ∧ x.WaitsFor 0 1 ∧ x.owner 1 = some 0 ∧
      ∀ p, ¬ Relation.TransGen x.WaitsFor p p := by
  have hinit : pathCalls.Reachable keepsOrder (Conf.idle home) := reachable_home
  obtain ⟨x, hx, hcall, htakes, howner, hroot⟩ := hinit.run_decide mkdirOpenUnlink
    (P := fun x => (x.call 0).isSome = true ∧ takes (x.prog 0) = some 2 ∧ x.owner 2 = some 1 ∧
      x.owner 1 = some 0) (by decide +kernel)
  exact ⟨x, hx, Conf.waitsFor_of_takes hcall htakes howner, hroot, no_deadlock_of_order hx⟩

/-- **`link("x", ".")` waits for itself.** `dirlink` finds the entry `.` and puts the directory it
has locked. -/
theorem link_dot_deadlocks :
    ∃ x : PathConf, pathCalls.Reached x ∧ x.WaitsFor 0 0 ∧
      Relation.TransGen x.WaitsFor 0 0 := by
  have hinit : pathCalls.Reached (Conf.idle home) := reachable_home
  obtain ⟨x, hx, hcall, htakes, howner⟩ := hinit.run_decide
    (.call 0 (.SYS_link (some ([120], [46]))) :: List.replicate 34 (.run 0))
    (P := fun x => (x.call 0).isSome = true ∧ takes (x.prog 0) = some 1 ∧ x.owner 1 = some 0)
    (by decide +kernel)
  have hself : x.WaitsFor 0 0 := Conf.waitsFor_of_takes hcall htakes howner
  exact ⟨x, hx, hself, .single hself⟩

end Xv6.Fs
