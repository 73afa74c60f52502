import Xv6.FsSyscalls

/-!
**No directory entry names a free inode**, as long as no directory is removed that a removed
directory may still need.

A directory can lose its name while it is somebody's working directory, and then keeps its `..`
without counting as a link of the directory above. If that one is removed as well it is freed,
and the `..` names nothing (`removed_parent_dangles`).
-/

namespace Xv6.Fs

open Program Transition

def removed (s : State) (d : Nat) : Bool := (s.inode d).type == .T_DIR && !linked s d

def removable (s : State) (dp ip : Nat) : Bool :=
  ((List.range s.ninodes).all fun x => !removed s x || (s.inode x).par != ip) &&
    (linked s dp || !heldBy s.kernel ip)

/-- If this `unlink` removes a directory, that can be removed. -/
def removes (s : State) (p : Fin NPROC) (path : Path) : Bool :=
  match lookupPath s p true path with
  | none => true
  | some (dp, name) =>
      match (s.inode dp).lookup name with
      | none => true
      | some off =>
          let ip := ((s.inode dp).entry off).inum.toNat
          decide (name = dot ∨ name = dotdot) || (s.inode ip).type != .T_DIR ||
            !isdirempty (s.inode ip) || removable s dp ip

/-- The calls that do not take a `..` its directory. -/
def keepsDots (s : State) (p : Fin NPROC) : Syscall → Bool
  | .path (.SYS_link (some (old, new))) => countFits s p old new
  | .path (.SYS_unlink (some path)) => removes s p path
  | _ => true

theorem removable_iff {s : State} (h : Fine .noDangling s) {dp ip : Nat}
    (hr : removable s dp ip = true) : Removable s dp ip := by
  rw [removable, Bool.and_eq_true, List.all_eq_true] at hr
  obtain ⟨hnone, hlast⟩ := hr
  constructor
  · intro x hdir hun hpar
    have hlt := (h.calm.inside hdir.allocated).2
    have hx := hnone x (List.mem_range.mpr hlt)
    have hremoved : removed s x = true := by
      have hnot : linked s x = false := by
        rw [← Bool.not_eq_true, linked_iff h.calm]
        exact hun
      have htype : (s.inode x).type = .T_DIR := hdir
      simp [removed, htype, hnot]
    rw [hremoved, hpar] at hx
    simp at hx
  · rw [Bool.or_eq_true, Bool.not_eq_true', ← Bool.not_eq_true, linked_iff h.calm,
      heldBy_iff] at hlast
    refine hlast.imp_right fun hnot => ?_
    have hnonneg := holders_nonneg s.kernel ip
    omega

theorem permits_of_keepsDots {s : State} {p : Fin NPROC} {c : Syscall} (h : Fine .noDangling s)
    (hok : keepsDots s p c = true) : Permits .noDangling s p c := by
  constructor
  · rintro _ rfl old new ip last dp name rfl hold hfile hnew hnone
    exact ⟨countFits_eq_true hok hold hfile hnew hnone, fun hm => nomatch hm⟩
  · rintro _ rfl path dp name rfl hpath off ip - hdot hdotdot hfound rfl hdir hempty
    have htype : (s.inode ((s.inode dp).entry off).inum.toNat).type = .T_DIR := hdir
    apply removable_iff h
    have hname : ¬ (name = dot ∨ name = dotdot) := not_or.mpr ⟨hdot, hdotdot⟩
    simpa only [keepsDots, removes, hpath, hfound, hname, decide_false, htype, hempty, bne_self_eq_false,
      Bool.not_true, Bool.false_or] using hok
  · exact fun _ _ _ _ hm => nomatch hm

/-- **Every entry in use names an allocated inode**, in every state reached by calls that keep the
dots, and neither a path lookup nor such a call then meets an inode without type. -/
theorem no_dangling_entry {s : State}
    (h : syscalls.Reachable (fun s a => keepsDots s a.1 a.2 = true) s) :
    (∀ d e, isDir s d → e ∈ (s.inode d).ents → e.inum ≠ 0 → allocated s e.inum.toNat) ∧
    (∀ p parent path, exec (namex p parent path) [] s ≠ .panic "ilock: no type") ∧
    (∀ p c, Runs s.kernel p → keepsDots s p c = true →
      exec (c.run p) [] s ≠ .panic "ilock: no type") := by
  have hfine : Fine .noDangling s :=
    fine_of_reachable (fun s a hs hok => permits_of_keepsDots hs hok) h
  have hbad : ¬ harmless .noDangling "ilock: no type" := fun hharmless => hharmless.2 rfl rfl
  refine ⟨?_, ?_, ?_⟩
  · intro d e hdir hmem hlive
    exact hfine.calm.entry_allocated hdir id hmem hlive
  · intro p parent path heq
    have hlookup : wp (harmless .noDangling) (namex p parent path) (fun _ _ => True) s :=
      wp_namex hfine.calm rfl (fun _ _ _ => trivial) fun _ _ _ _ _ _ _ => trivial
    exact hbad (harmless_of_panic hlookup heq)
  · intro p c hruns hok
    exact hfine.not_panic hruns (permits_of_keepsDots hfine hok) hbad

/-- `mkdir("a")`, `chdir("a")`, `unlink("/a")`: the directory is nobody's entry, is still there, and
its `..` names the root. -/
theorem no_dangling_entry_removed_cwd :
    ∃ s, removed s 2 = true ∧ (s.inode 2).par = ROOTINO ∧
      ∀ d e, isDir s d → e ∈ (s.inode d).ents → e.inum ≠ 0 → allocated s e.inum.toNat := by
  obtain ⟨s, hrun, hremoved, hpar⟩ : ∃ s,
      syscalls.run (fun s a => keepsDots s a.1 a.2 = true) (fresh 4)
        [(0, .path (.SYS_mkdir (some [97]))), (0, .path (.SYS_chdir (some [97]))),
          (0, .path (.SYS_unlink (some [47, 97])))] = some s ∧
      removed s 2 = true ∧ (s.inode 2).par = ROOTINO :=
    ⟨_, rfl, rfl, rfl⟩
  have hreach := (System.Reachable.init (wellFormed_fresh (by decide) (by decide))).run _ hrun
  exact ⟨s, hremoved, hpar, (no_dangling_entry hreach).1⟩

/-- **A removed directory outlives its parent.** After `mkdir("a")`, `mkdir("a/b")`,
`chdir("a/b")`, `unlink("/a/b")` and `unlink("/a")` the `..` of the working directory names a
free inode, and looking up `../x` panics. -/
theorem removed_parent_dangles :
    ∃ s, syscalls.Reached s ∧ isDir s 3 ∧ ⟨2, dotdot⟩ ∈ (s.inode 3).ents ∧ ¬ allocated s 2 ∧
      exec (namex 0 false [46, 46, 47, 120]) [] s = .panic "ilock: no type" := by
  let calls : List (Fin NPROC × Syscall) :=
    [(0, .path (.SYS_mkdir (some [97]))), (0, .path (.SYS_mkdir (some [97, 47, 98]))),
      (0, .path (.SYS_chdir (some [97, 47, 98]))), (0, .path (.SYS_unlink (some [47, 97, 47, 98]))),
      (0, .path (.SYS_unlink (some [47, 97])))]
  have hinit : syscalls.Reached (fresh 4) := .init (wellFormed_fresh (by decide) (by decide))
  obtain ⟨s, hs, hdir, hents, hfree, hpanics⟩ := hinit.run_decide calls (P := fun s =>
    (s.inode 3).type = .T_DIR ∧ ⟨2, dotdot⟩ ∈ (s.inode 3).ents ∧ (s.inode 2).type = .free ∧
      (exec (namex 0 false [46, 46, 47, 120]) [] s).isPanic "ilock: no type" = true)
    (by decide +kernel)
  exact ⟨s, hs, hdir, hents, fun hused => hused hfree, Outcome.isPanic_iff.mp hpanics⟩

end Xv6.Fs
