import Xv6.FsHolders

/-!
**Sequences of system calls.**

The calls that change the tree or the holders of inodes, run one at a time by any of the
processes, are a transition system. A call that is permitted (`Permits`) keeps the file system
fine and does not end in one of the panics the aim excludes (`wp_run`).
-/

namespace Xv6.Fs

open Program LinkTree Tally Transition List

section

variable {m : Aim} {s : State} {p : Fin NPROC} {Q : Int → State → Prop}

variable (h : Fine m s)
include h

theorem wp_openInode {path : Path} {omode : UInt32} {Q : Option Nat → State → Prop}
    (hok : omode &&& O_CREATE ≠ 0 → MayCreate m s p path) (hnone : ∀ s', Fine m s' → Q none s')
    (hsome : ∀ ip s', Calm m s.kernel (ip ::ₘ 0) 0 s' → allocated s' ip →
      s'.kernel = s.kernel → Q (some ip) s') : wp (harmless m) (openInode p path omode) Q s := by
  unfold openInode
  split
  next hcreate =>
    exact wp_create h.calm rfl (by decide) (hok hcreate)
      (fun s' h' hkernel => hnone s' (h.back h' hkernel)) hsome
  refine wp_bind.mpr (wp_namei h.calm rfl ?_ ?_)
  · exact fun s1 h1 hsame1 => hnone s1 (h.back h1 hsame1.kernel)
  intro ip _ s1 _ h1 hsame1 hlock
  refine wp_bind.mpr (wp_ilock h1 hlock fun s2 h2 hsame2 halloc2 _ _ => ?_)
  have hkernel2 : s2.kernel = s.kernel := (hsame1.trans hsame2).kernel
  refine wp_get.mpr ?_
  split
  · refine wp_bind.mpr (wp_iunlockput_calm h2 id fun s3 h3 hsame3 _ => ?_)
    exact hnone s3 (h.back h3 (hsame3.kernel.trans hkernel2))
  · exact hsome ip s2 h2 halloc2 hkernel2

theorem wp_sysOpen {args : Option (Path × UInt32)}
    (hok : ∀ path omode, args = some (path, omode) → omode &&& O_CREATE ≠ 0 → MayCreate m s p path)
    (hQ : ∀ r s', Fine m s' → Q r s') : wp (harmless m) (sysOpen p args) Q s := by
  unfold sysOpen
  split
  · exact hQ _ s h
  rename_i path omode
  refine wp_bind.mpr (wp_openInode h (hok path omode rfl) (hQ _) ?_)
  intro ip s1 h1 halloc1 hkernel1
  refine wp_bind.mpr (wp_onKernel.mpr ?_)
  rw [hkernel1]
  rcases hopen : Xv6.sysOpen s.kernel p (some ip) omode with e | ⟨k', fd⟩
  · rw [sysOpen_error hopen]
    exact ⟨by decide, fun _ => by decide⟩
  obtain ⟨htidy, -, ⟨hneg, hsame⟩ | ⟨hpos, hmore⟩⟩ := h.tidy.sysOpen hopen
  · simp only [hneg]
    refine wp_bind.mpr (wp_iunlockput_calm ((h1.sameHolders hsame).setKernel k') id ?_)
    intro s2 h2 hsame2 _
    have hkernel2 : s2.kernel = k' := hsame2.kernel
    rw [← hkernel2] at h2 htidy
    exact hQ _ s2 ⟨h2, htidy⟩
  · simp only [not_lt.mpr hpos]
    refine wp_bind.mpr (wp_iunlock ?_)
    exact hQ _ _ ⟨(h1.hold halloc1 hmore).setKernel k', htidy⟩

theorem wp_createDone {path : Path} {type : InodeType} {major minor : Int} (htype : type ≠ .free)
    (hok : MayCreate m s p path) (hQ : ∀ r s', Fine m s' → Q r s') :
    wp (harmless m) (create p path type major minor >>= createDone) Q s := by
  refine wp_bind.mpr (wp_create h.calm rfl htype hok ?_ ?_)
  · exact fun s' h' hkernel => hQ _ s' (h.back h' hkernel)
  · intro ip s1 h1 _ hkernel1
    refine wp_bind.mpr (wp_iunlockput_calm h1 id fun s2 h2 hsame2 _ => ?_)
    exact hQ _ s2 (h.back h2 (hsame2.kernel.trans hkernel1))

end

/-! ### The system -/

inductive Syscall where
  | path (c : PathCall)
  | SYS_close (fd : Option Int)
  | SYS_fork (kalloc copyuvm : Bool)
  | SYS_exit

def Syscall.run (p : Fin NPROC) : Syscall → Fprog Int
  | .path c => c.run p
  | .SYS_close fd => sysClose p fd
  | .SYS_fork kalloc copyuvm => fork p kalloc copyuvm
  | .SYS_exit => do
      exit p
      pure 0

/-- The path whose last element the call creates if it is not there. -/
def Syscall.creates : Syscall → Option Path
  | .path (.SYS_open (some (file, omode))) => if omode &&& O_CREATE ≠ 0 then some file else none
  | .path (.SYS_mkdir args) => args
  | .path (.SYS_mknod args) => args.map Prod.fst
  | _ => none

/-- A call after which the file system will be fine. -/
structure Permits (m : Aim) (s : State) (p : Fin NPROC) (c : Syscall) : Prop where
  link : ∀ args, c = .path (.SYS_link args) → MayLink m s p args
  unlink : ∀ args, c = .path (.SYS_unlink args) → MayUnlink m s p args
  create : ∀ path, c.creates = some path → MayCreate m s p path

variable {m : Aim} {s : State}

/-- **Permitted calls keep a file system fine.** -/
theorem wp_run {p : Fin NPROC} {c : Syscall} (h : Fine m s)
    (hlive : ¬ Vacant (s.kernel.ptable p).state) (hok : Permits m s p c) :
    wp (harmless m) (c.run p) (fun _ s' => Fine m s') s := by
  have hback : ∀ (r : Int) s', Calm m s.kernel 0 0 s' → s'.kernel = s.kernel → Fine m s' :=
    fun _ s' => h.back
  cases c with
  | path c =>
    cases c with
    | SYS_link args => exact wp_sysLink h.calm rfl (hok.link args rfl) hback
    | SYS_unlink args => exact wp_sysUnlink h.calm rfl (hok.unlink args rfl) hback
    | SYS_open =>
      refine wp_sysOpen h ?_ fun _ _ h' => h'
      rintro path omode rfl hcreate
      exact hok.create path (if_pos hcreate)
    | SYS_mkdir args =>
      rcases args with _ | path
      · exact h
      · exact wp_createDone h (by decide) (hok.create path rfl) fun _ _ h' => h'
    | SYS_mknod args =>
      rcases args with _ | ⟨path, major, minor⟩
      · exact h
      · exact wp_createDone h (by decide) (hok.create path rfl) fun _ _ h' => h'
    | SYS_chdir => exact wp_sysChdir h hlive fun _ _ h' => h'
  | SYS_close => exact wp_sysClose h fun _ _ h' => h'
  | SYS_fork => exact wp_fork h hlive fun _ _ h' => h'
  | SYS_exit => exact wp_bind.mpr (wp_exit h fun _ h' => h')

/-- A file system on which nothing has happened yet that could make it less than perfect: every
inode is in the tree, every count is exact, and the references are those of the tables. -/
structure WellFormed (s : State) : Prop where
  small : s.ninodes ≤ 65536
  tree : Tree ROOTINO True True 0 (fun _ => False) (Finset.Ioo 0 s.ninodes) (table s)
  linked : ∀ i, allocated s i → Linked ROOTINO (table s) i
  shape : ∀ d, isDir s d → (s.inode d).Shaped d
  short : ∀ i, allocated s i → (s.inode i).nlink ≤ 32767
  refs : ∀ i, (s.icache i).ref = holders s.kernel i
  held : ∀ i, 0 < holders s.kernel i → allocated s i
  valid : ∀ i, (s.icache i).valid = true → allocated s i
  tidy : Tidy s.kernel

theorem WellFormed.fine (h : WellFormed s) (m : Aim) : Fine m s := by
  have htree : Tree ROOTINO (m = .exactLinks) (m = .noDangling) 0 (fun _ => False)
      (Finset.Ioo 0 s.ninodes) (table s) :=
    { h.tree with
      links_eq := fun i hused _ => h.tree.links_eq i hused (.inr trivial)
      above := fun _ => h.tree.above trivial
      bare := fun _ => h.tree.bare trivial }
  refine ⟨⟨h.small, htree, h.shape, h.short, fun i => ?_, h.held, h.valid, fun i hi hzero => ?_⟩,
    h.tidy⟩
  · rw [h.refs i, Multiset.count_zero, Nat.cast_zero, add_zero]
  · have hlonely := h.tree.lonely (Inode.node_used.mpr hi) le_rfl hzero
    exact absurd (h.linked i hi) hlonely.1

def syscalls : System State (Fin NPROC × Syscall) where
  init := WellFormed
  step s a :=
    if Runs s.kernel a.1 then
      match exec (a.2.run a.1) [] s with
      | .done _ s' => some s'
      | _ => none
    else none

theorem step_fine {s' : State} {a : Fin NPROC × Syscall} (h : Fine m s) (hok : Permits m s a.1 a.2)
    (hstep : syscalls.step s a = some s') : Fine m s' := by
  obtain ⟨hruns, hstep⟩ := Option.ite_none_right_eq_some.mp hstep
  split at hstep
  next heq =>
    cases hstep
    have hpost := post_of_done (wp_run h hruns.live hok) heq
    exact hpost
  · cases hstep

theorem fine_of_reachable {ok : State → Fin NPROC × Syscall → Prop}
    (hok : ∀ s a, Fine m s → ok s a → Permits m s a.1 a.2) (h : syscalls.Reachable ok s) :
    Fine m s :=
  h.invariant (fun _ h0 => WellFormed.fine h0 m) fun s a _ hs ha => step_fine hs (hok s a hs ha)

theorem Fine.not_panic {p : Fin NPROC} {c : Syscall} {msg : String} (h : Fine m s)
    (hruns : Runs s.kernel p) (hok : Permits m s p c) (hmsg : ¬ harmless m msg) :
    exec (c.run p) [] s ≠ .panic msg :=
  fun heq => hmsg (harmless_of_panic (wp_run h hruns.live hok) heq)

/-! ### Conditions that can be evaluated -/

/-- Named by a directory, or the root. -/
def linked (s : State) (i : Nat) : Bool :=
  i == ROOTINO || (List.range s.ninodes).any fun d => (s.inode d).out.contains i

/-- Open, or somebody's working directory. -/
def heldBy (k : Kernel) (i : Nat) : Bool :=
  ((List.finRange NFILE).any fun f => (k.ftable f).type == .FD_INODE && (k.ftable f).ip == i) ||
    (List.finRange NPROC).any fun p => (k.ptable p).cwd == some i

theorem linked_iff {k : Kernel} {X : Multiset Nat} {owed : Nat → ℤ} {leaving pending : Nat → Prop}
    (h : Good m k X owed leaving pending s) {i : Nat} :
    linked s i = true ↔ Linked ROOTINO (table s) i := by
  unfold linked Linked
  rw [Bool.or_eq_true, beq_iff_eq, any_eq_true]
  apply or_congr Iff.rfl
  constructor
  · rintro ⟨d, -, hd⟩
    exact ⟨d, contains_iff_mem.mp hd⟩
  · rintro ⟨d, hd⟩
    have hdir : allocated s d := Inode.node_used.mp (h.tree.dir_used d (h.tree.dir_out d i hd))
    exact ⟨d, mem_range.mpr (h.inside hdir).2, contains_iff_mem.mpr hd⟩

theorem heldBy_iff {k : Kernel} {i : Nat} : heldBy k i = true ↔ 0 < holders k i := by
  rw [heldBy, Bool.or_eq_true, any_eq_true, any_eq_true]
  simp only [mem_finRange, true_and, Bool.and_eq_true, beq_iff_eq]
  constructor
  · rintro (⟨f, hf⟩ | ⟨p, hp⟩)
    · rw [← hf.2]
      exact holders_pos_of_file hf.1
    · exact holders_pos_of_cwd hp
  · intro hpos
    have hcase : 0 < tally (fileHolds i) k.ftable ∨ 0 < tally (cwdHolds i) k.ptable := by
      unfold holders at hpos
      omega
    rcases hcase with hpos | hpos
    · obtain ⟨f, hf⟩ := exists_pos_of_tally_pos hpos
      refine .inl ⟨f, ?_⟩
      unfold fileHolds at hf
      split at hf
      · assumption
      · omega
    · obtain ⟨p, hp⟩ := exists_pos_of_tally_pos hpos
      refine .inr ⟨p, ?_⟩
      unfold cwdHolds at hp
      split at hp
      · assumption
      · omega

/-- A `link` that makes a name adds to a count below the largest `short`. -/
def countFits (s : State) (p : Fin NPROC) (old new : Path) : Bool :=
  match lookupPath s p false old, lookupPath s p true new with
  | some (ip, _), some (dp, name) =>
      (s.inode ip).type == .T_DIR || ((s.inode dp).lookup name).isSome || (s.inode ip).nlink < 32767
  | _, _ => true

theorem countFits_eq_true {p : Fin NPROC} {old new : Path} (h : countFits s p old new = true)
    {ip dp : Nat} {last name : Name} (hold : lookupPath s p false old = some (ip, last))
    (hfile : (s.inode ip).type ≠ .T_DIR) (hnew : lookupPath s p true new = some (dp, name))
    (hnone : (s.inode dp).lookup name = none) : (s.inode ip).nlink < 32767 := by
  simpa [countFits, hold, hnew, hfile, hnone] using h

/-! ### A fresh file system -/

def fresh (n : Nat) : State where
  kernel := booted
  ninodes := n
  inode i :=
    if i = ROOTINO then { type := .T_DIR, major := 0, minor := 0, nlink := 1,
                          ents := [⟨1, dot⟩, ⟨1, dotdot⟩] }
    else { type := .free, major := 0, minor := 0, nlink := 0, ents := [] }
  icache i := if i = ROOTINO then ⟨1, true⟩ else ⟨0, false⟩
  inuse := 1

theorem allocated_fresh {n i : Nat} : allocated (fresh n) i ↔ i = ROOTINO := by
  by_cases hi : i = ROOTINO
  · simp [allocated, fresh, hi]
  · simp [allocated, fresh, hi]

theorem wellFormed_fresh {n : Nat} (hlo : 2 ≤ n) (hhi : n ≤ 65536) : WellFormed (fresh n) := by
  have hroot : table (fresh n) ROOTINO = ⟨true, true, [], ROOTINO, 1⟩ := rfl
  have hother : ∀ i, i ≠ ROOTINO → table (fresh n) i = ⟨false, false, [], 0, 0⟩ := by
    intro i hi
    simp [table, fresh, hi]
    rfl
  have hout : ∀ i, (table (fresh n) i).out = [] := by
    intro i
    by_cases hi : i = ROOTINO
    · rw [hi, hroot]
    · rw [hother i hi]
  have hused : ∀ i, (table (fresh n) i).used = true → i = ROOTINO := by
    intro i hi
    by_contra hne
    rw [hother i hne] at hi
    cases hi
  have hnot : ∀ i, ¬ Named (table (fresh n)) i := by
    rintro i ⟨d, hd⟩
    rw [hout] at hd
    cases hd
  have hlinks : names (Finset.Ioo 0 n) (table (fresh n)) ROOTINO + kids (table (fresh n)) ROOTINO +
      rootLink ROOTINO ROOTINO + (0 : Nat → ℤ) ROOTINO = (table (fresh n) ROOTINO).links := by
    rw [names_eq_zero fun d => by rw [hout]; exact not_mem_nil, kids, hout, hroot]
    rfl
  constructor
  · exact hhi
  · constructor
    · intro i hdir
      by_cases hi : i = ROOTINO
      · rw [hi, hroot]
      · rw [hother i hi] at hdir
        cases hdir
    · intro d i hi
      exact absurd ⟨d, hi⟩ (hnot i)
    · intro i hi
      rw [hused i hi]
      exact Finset.mem_Ioo.mpr ⟨by decide, hlo⟩
    · rw [hroot]
    · rw [hroot]
    · exact hnot _
    · intro d i hi
      exact absurd ⟨d, hi⟩ (hnot i)
    · intro d i _ hi
      exact absurd ⟨d, hi⟩ (hnot i)
    · intro i hi
      rw [hused i hi]
      exact hlinks.le
    · intro i hi _
      rw [hused i hi]
      exact hlinks
    · intro _ d hdir hun
      by_cases hd : d = ROOTINO
      · exact absurd (.inl hd) hun
      · rw [hother d hd] at hdir
        cases hdir
    · intro _ d _ _
      exact hout d
  · intro i hi
    exact .inl (allocated_fresh.mp hi)
  · intro d hd
    rw [allocated_fresh.mp hd.allocated]
    exact ⟨⟨1, [], rfl, by decide, by simp⟩, (by decide : 2 ≤ MAXENTS)⟩
  · intro i hi
    rw [allocated_fresh.mp hi]
    exact (by decide : (1 : ℤ) ≤ 32767)
  · intro i
    change (if i = ROOTINO then Incore.mk 1 true else ⟨0, false⟩).ref = holders booted i
    rw [holders_booted]
    split <;> rfl
  · intro i hi
    change 0 < holders booted i at hi
    rw [holders_booted] at hi
    apply allocated_fresh.mpr
    by_contra hne
    omega
  · intro i hi
    apply allocated_fresh.mpr
    by_contra hne
    simp [fresh, hne] at hi
  · exact tidy_booted

end Xv6.Fs
