import Xv6.FsSyscalls

/-!
**Link counts are exact**, as long as nothing is created in a removed directory and no count is
taken beyond the range of `short`.

A removed directory that is still somebody's working directory takes new entries like any other.
When it goes, the inodes they name keep their counts, and nothing will ever free them
(`removed_directory_leaks`).
-/

namespace Xv6.Fs

open Program LinkTree Finset

/-! ### Counting -/

/-- The entries other than `.` and `..` that name an inode. -/
def nameCount (s : State) (i : Nat) : Nat := ∑ d ∈ Finset.range s.ninodes, (s.inode d).out.count i

/-- The linked directories whose `..` names an inode. -/
def subdirCount (s : State) (i : Nat) : Nat :=
  {d ∈ Finset.range s.ninodes | (s.inode d).type = .T_DIR ∧ linked s d = true ∧
    (s.inode d).par = i}.card

section

variable {s : State} {i : Nat}

variable (h : Fine .exactLinks s)
include h

theorem out_zero : (s.inode 0).out = [] := by
  rw [List.eq_nil_iff_forall_not_mem]
  intro j hj
  have hused : allocated s 0 := Inode.node_used.mp (h.calm.tree.dir_used 0 (h.calm.tree.dir_out 0 j hj))
  exact absurd (h.calm.inside hused).1 (lt_irrefl 0)

theorem nameCount_eq : (nameCount s i : ℤ) = names (Finset.Ioo 0 s.ninodes) (table s) i := by
  have hsub : Finset.Ioo 0 s.ninodes ⊆ Finset.range s.ninodes := by
    intro d hd
    exact mem_range.mpr (mem_Ioo.mp hd).2
  have hrest : ∀ d ∈ Finset.range s.ninodes, d ∉ Finset.Ioo 0 s.ninodes →
      (s.inode d).out.count i = 0 := by
    intro d hd hout
    have hzero : d = 0 := by
      rw [mem_range] at hd
      rw [mem_Ioo] at hout
      omega
    rw [hzero, out_zero h]
    rfl
  rw [nameCount, ← sum_subset hsub hrest]
  exact Nat.cast_sum ..

theorem subdirCount_eq :
    subdirCount s i = subdirs ROOTINO (Finset.Ioo 0 s.ninodes) (table s) i := by
  unfold subdirCount subdirs
  congr 1
  ext d
  simp only [mem_filter, mem_range, mem_Ioo, linked_iff h.calm]
  constructor
  · rintro ⟨hlt, hdir, hlinked, hpar⟩
    have hinside := h.calm.inside (isDir.allocated hdir)
    exact ⟨hinside, Inode.node_dir.mpr hdir, hlinked, hpar⟩
  · rintro ⟨⟨-, hlt⟩, hdir, hlinked, hpar⟩
    exact ⟨hlt, Inode.node_dir.mp hdir, hlinked, hpar⟩

theorem nlink_eq (hi : allocated s i) : (s.inode i).nlink = nameCount s i + subdirCount s i := by
  have heq : names (Finset.Ioo 0 s.ninodes) (table s) i + kids (table s) i + rootLink ROOTINO i +
      (0 : Nat → ℤ) i = (s.inode i).nlink :=
    h.calm.tree.links_eq i (Inode.node_used.mpr hi) (.inr rfl)
  have hsubdirs := h.calm.tree.subdirs_eq i
  rw [nameCount_eq h, subdirCount_eq h]
  simp only [Pi.zero_apply] at heq
  omega

theorem subdirCount_file (hfile : ¬ isDir s i) : subdirCount s i = 0 := by
  have hsubdirs := h.calm.tree.subdirs_eq i
  have hout : (s.inode i).out = [] := if_neg hfile
  have hkids : kids (table s) i = 0 := by
    simp only [kids, table, Inode.node, hout, List.countP_nil, Nat.cast_zero]
  have hroot : rootLink ROOTINO i = 0 := by
    apply if_neg
    rintro rfl
    exact hfile (Inode.node_dir.mp h.calm.tree.root_dir)
  rw [subdirCount_eq h]
  omega

theorem held_of_nameCount (hi : allocated s i) (hroot : i ≠ ROOTINO) (hnone : nameCount s i = 0) :
    0 < holders s.kernel i := by
  have hunlinked : ¬ Linked ROOTINO (table s) i := by
    rintro (heq | ⟨d, hd⟩)
    · exact hroot heq
    · have hone := h.calm.tree.one_le_names hd
      have hcount := nameCount_eq (i := i) h
      omega
  have hsub : subdirCount s i = 0 := by
    by_cases hdir : isDir s i
    · have hbare : (s.inode i).out = [] :=
        h.calm.tree.bare rfl i (Inode.node_dir.mpr hdir) hunlinked
      have hsubdirs := h.calm.tree.subdirs_eq i
      have hkids : kids (table s) i = 0 := by
        simp only [kids, table, Inode.node, hbare, List.countP_nil, Nat.cast_zero]
      have hrootlink : rootLink ROOTINO i = 0 := if_neg hroot
      rw [subdirCount_eq h]
      omega
    · exact subdirCount_file h hdir
  have hzero : (s.inode i).nlink = 0 := by
    rw [nlink_eq h hi, hnone, hsub]
    rfl
  exact (h.calm.zero i hi hzero).2.resolve_right id

end

/-! ### The condition -/

/-- If this path has to be created, its directory is linked. -/
def parentLinked (s : State) (p : Fin NPROC) (path : Path) : Bool :=
  match lookupPath s p true path with
  | some (dp, name) => ((s.inode dp).lookup name).isSome || linked s dp
  | none => true

/-- If this `link` gets as far as making a name, the directory is linked. -/
def linksLinked (s : State) (p : Fin NPROC) (old new : Path) : Bool :=
  match lookupPath s p false old with
  | some (ip, _) => (s.inode ip).type == .T_DIR || parentLinked s p new
  | none => true

/-- The calls that create nothing in a removed directory, and no link too many. -/
def keepsCounts (s : State) (p : Fin NPROC) (c : Syscall) : Bool :=
  match c with
  | .path (.SYS_link (some (old, new))) => countFits s p old new && linksLinked s p old new
  | c => c.creates.all (parentLinked s p)

theorem linked_of_parentLinked {s : State} (h : Fine .exactLinks s) {p : Fin NPROC} {path : Path}
    (hok : parentLinked s p path = true) {dp : Nat} {name : Name}
    (hpath : lookupPath s p true path = some (dp, name))
    (hnone : (s.inode dp).lookup name = none) : Linked ROOTINO (table s) dp := by
  apply (linked_iff h.calm).mp
  simpa [parentLinked, hpath, hnone] using hok

theorem permits_of_keepsCounts {s : State} {p : Fin NPROC} {c : Syscall} (h : Fine .exactLinks s)
    (hok : keepsCounts s p c = true) : Permits .exactLinks s p c := by
  constructor
  · rintro _ rfl old new ip last dp name rfl hold hfile hnew hnone
    rw [keepsCounts, Bool.and_eq_true] at hok
    refine ⟨countFits_eq_true hok.1 hold hfile hnew hnone, fun _ => ?_⟩
    have hparent : parentLinked s p new = true := by simpa [linksLinked, hold, hfile] using hok.2
    exact linked_of_parentLinked h hparent hnew hnone
  · exact fun _ _ _ _ _ _ _ _ _ hm => nomatch hm
  · intro path hcreates dp name _ hpath hnone
    refine linked_of_parentLinked h ?_ hpath hnone
    have hall : c.creates.all (parentLinked s p) = true := by
      unfold keepsCounts at hok
      split at hok
      · cases hcreates
      · exact hok
    rwa [hcreates, Option.all_some] at hall

/-- **Every link count is exact** in every state reached by calls that keep the counts: the entries
that name the inode and, for a directory, the linked directories whose `..` names it. Such a
call does not find a count that is already zero, and an inode that nothing names is there only
because somebody holds it. -/
theorem link_counts_exact {s : State}
    (h : syscalls.Reachable (fun s a => keepsCounts s a.1 a.2 = true) s) :
    (∀ i, allocated s i → (s.inode i).nlink =
      nameCount s i + if (s.inode i).type = .T_DIR then (subdirCount s i : ℤ) else 0) ∧
    (∀ p c, Runs s.kernel p → keepsCounts s p c = true →
      exec (c.run p) [] s ≠ .panic "unlink: nlink < 1") ∧
    (∀ i, allocated s i → i ≠ ROOTINO → nameCount s i = 0 → heldBy s.kernel i = true) := by
  have hfine : Fine .exactLinks s :=
    fine_of_reachable (fun s a hs hok => permits_of_keepsCounts hs hok) h
  refine ⟨?_, ?_, ?_⟩
  · intro i hi
    rw [nlink_eq hfine hi]
    split
    · rfl
    next hfile =>
      rw [subdirCount_file hfine hfile]
      rfl
  · intro p c hruns hok
    exact hfine.not_panic hruns (permits_of_keepsCounts hfine hok) fun hharmless => hharmless.1 rfl
  · intro i hi hroot hnone
    exact heldBy_iff.mpr (held_of_nameCount hfine hi hroot hnone)

/-- `mkdir("a")`, `mkdir("a/b")`, `chdir("a/b")`, `unlink("/a/b")`: the directory above has one
link left, and the working directory none. -/
theorem link_counts_exact_removed_cwd :
    ∃ s, allocated s 3 ∧ (s.inode 3).nlink = 0 ∧ (s.inode 2).nlink = 1 ∧
      ∀ i, allocated s i → (s.inode i).nlink =
        nameCount s i + if (s.inode i).type = .T_DIR then (subdirCount s i : ℤ) else 0 := by
  let calls : List (Fin NPROC × Syscall) :=
    [(0, .path (.SYS_mkdir (some [97]))), (0, .path (.SYS_mkdir (some [97, 47, 98]))),
      (0, .path (.SYS_chdir (some [97, 47, 98]))), (0, .path (.SYS_unlink (some [47, 97, 47, 98])))]
  have hinit : syscalls.Reachable (fun s a => keepsCounts s a.1 a.2 = true) (fresh 4) :=
    .init (wellFormed_fresh (by decide) (by decide))
  obtain ⟨s, hs, halloc, hzero, hone⟩ := hinit.run_decide calls (P := fun s =>
    (s.inode 3).type ≠ .free ∧ (s.inode 3).nlink = 0 ∧ (s.inode 2).nlink = 1) (by decide +kernel)
  exact ⟨s, halloc, hzero, hone, (link_counts_exact hs).1⟩

/-- **A file created in a removed directory stays for ever.** After `mkdir("a")`, `chdir("a")`,
`unlink("/a")`, `open("f", O_CREATE)`, `close(0)` and `chdir("/")` the directory is gone, and the
file has a link although nothing names it and nobody holds it. -/
theorem removed_directory_leaks :
    ∃ s, syscalls.Reached s ∧ allocated s 3 ∧ (s.inode 3).nlink = 1 ∧ nameCount s 3 = 0 ∧
      heldBy s.kernel 3 = false := by
  let calls : List (Fin NPROC × Syscall) :=
    [(0, .path (.SYS_mkdir (some [97]))), (0, .path (.SYS_chdir (some [97]))),
      (0, .path (.SYS_unlink (some [47, 97]))), (0, .path (.SYS_open (some ([102], O_CREATE)))),
      (0, .SYS_close (some 0)), (0, .path (.SYS_chdir (some [47])))]
  have hinit : syscalls.Reached (fresh 4) := .init (wellFormed_fresh (by decide) (by decide))
  exact hinit.run_decide calls (P := fun s => (s.inode 3).type ≠ .free ∧ (s.inode 3).nlink = 1 ∧
    nameCount s 3 = 0 ∧ heldBy s.kernel 3 = false) (by decide +kernel)

end Xv6.Fs
