import Xv6.IcacheFiles

/-!
**A call that fails leaves the file system as it was**, with one exception.

Path lookup takes references and puts them back. Its `iput`s free nothing, because an
allocated inode without links has a holder besides the lookup (`Amid.not_last`), so the disk
stays the same. Every way out of a call with -1 comes after lookups alone, except two:
`sys_link` has counted a link by then and takes it back, and `sys_open` with `O_CREATE` may have
created the file before it found no room in the tables. It does not take that back:
`failing_calls_change_nothing`.
-/

namespace Xv6.Icache

open Program
open Fs (Name Path Dirent InodeType SLASH elements O_CREATE holders)

/-- What the calls rely on: the counts are right, and every `nlink` fits its field. -/
structure WellFormed (s : State) : Prop where
  sound : Sound s
  short : ∀ i, toShort (s.disk i).nlink = (s.disk i).nlink

/-- **A failing call changes nothing**, unless it is an `open` that creates a file and has no room
for it in the tables. -/
theorem failing_calls_change_nothing {s s' : State} (h : WellFormed s) (p : Fin NPROC)
    (c : Fs.PathCall) (r : Int) (hexec : exec (runPath p c) [] s = .done r s') :
    (r = -1 → Unchanged s s') ↔ ¬ Strands s p c := by
  suffices hwp : wp any (runPath p c)
      (fun r s' => (r = -1 → Unchanged s s') ↔ ¬ Strands s p c) s by
    have hpost := post_of_done hwp hexec
    exact hpost
  have hsteady := h.sound.steady
  have hstay : ((-1 : Int) = -1 → Unchanged s s) ↔ ¬ False :=
    iff_of_true (fun _ => h.sound.unchanged) id
  -- every call but `open` fails after lookups alone, or takes back what it did
  have hother : ∀ {m : Iprog Int}, wp any m (fun r s' => Amid s.kernel (r = -1) 0 s [] s') s →
      wp any m (fun r s' => (r = -1 → Unchanged s s') ↔ ¬ False) s :=
    fun hm => wp_mono hm fun _ _ h' => iff_of_true (fun hr => (h'.weaken fun _ => hr).unchanged) id
  cases c with
  | SYS_link =>
    refine hother (wp_mono (wp_sysLink hsteady rfl) fun r s1 h1 => ?_)
    exact h1.weaken fun hr => ⟨h.short, hr⟩
  | SYS_unlink => exact hother (wp_sysUnlink hsteady rfl)
  | SYS_open => exact wp_sysOpen h.sound fun _ _ _ hr => hr
  | SYS_mkdir args =>
    rcases args with _ | path
    · exact wp_pure.mpr hstay
    · exact hother (wp_createDone hsteady rfl)
  | SYS_mknod args =>
    rcases args with _ | ⟨path, major, minor⟩
    · exact wp_pure.mpr hstay
    · exact hother (wp_createDone hsteady rfl)
  | SYS_chdir => exact wp_sysChdir h.sound fun _ _ _ hr => iff_of_true hr id

theorem wellFormed_rootDisk : WellFormed (boot 10 rootDisk) := by
  refine ⟨sound_of_reached reached_rootDisk, fun i => ?_⟩
  by_cases hi : i = ROOTINO
  · rw [hi]
    decide
  · have hblank : (boot 10 rootDisk).disk i = .blank .free := if_neg hi
    rw [hblank]
    decide

/-- The root directory cannot be unlinked. -/
theorem failing_calls_change_nothing_root : ∃ s',
    exec (runPath 0 (.SYS_unlink (some [47]))) [] (boot 10 rootDisk) = .done (-1) s' ∧
      Unchanged (boot 10 rootDisk) s' := by
  have hok : (exec (runPath 0 (.SYS_unlink (some [47]))) [] (boot 10 rootDisk)).ends
      (fun r _ => decide (r = -1)) = true := by
    decide +kernel
  obtain ⟨r, s', hexec, hr⟩ := Outcome.ends_iff.mp hok
  obtain rfl := of_decide_eq_true hr
  exact ⟨s', hexec, (failing_calls_change_nothing wellFormed_rootDisk 0 _ (-1) hexec).mpr id rfl⟩

def openAll : List (Fin NPROC × Syscall) :=
  List.replicate NOFILE (0, .path (.SYS_open (some ([47], 0))))

/-- With no descriptor left, `open("a", O_CREATE)` fails and leaves the new file behind. -/
theorem open_strands_file : ∃ s s', icacheCalls.Reached s ∧
    exec (runPath 0 (.SYS_open (some ([97], 0x200)))) [] s = .done (-1) s' ∧
    (s.disk 2).type = .free ∧ (s'.disk 2).type = .T_FILE ∧ (s'.disk 2).nlink = 1 ∧
    (s.disk ROOTINO).size = 32 ∧ (s'.disk ROOTINO).size = 48 := by
  obtain ⟨s, hs, hok⟩ := reached_rootDisk.run_any openAll (P := fun s =>
    (exec (runPath 0 (.SYS_open (some ([97], 0x200)))) [] s).ends fun r (s' : State) =>
      decide (r = -1 ∧ (s.disk 2).type = .free ∧ (s'.disk 2).type = .T_FILE ∧
        (s'.disk 2).nlink = 1 ∧ (s.disk ROOTINO).size = 32 ∧ (s'.disk ROOTINO).size = 48))
    (by decide +kernel)
  obtain ⟨r, s', hexec, hend⟩ := Outcome.ends_iff.mp hok
  rw [decide_eq_true_eq] at hend
  obtain ⟨rfl, hend⟩ := hend
  exact ⟨s, s', hs, hexec, hend⟩

end Xv6.Icache
