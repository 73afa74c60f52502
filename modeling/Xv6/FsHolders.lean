import Xv6.FsTreeCreate

/-!
**Who holds inodes**: `open`, `chdir`, `close`, `fork`, `exit`.

`Fine` is the invariant between calls: a good file system with nothing in hand, whose references
are those of the tables. Inside a call that gives references back, the tables that the
invariant speaks of are already those the call will leave.
-/

namespace Xv6.Fs

open Program Multiset

/-! ### Between calls -/

structure Fine (m : Aim) (s : State) : Prop where
  calm : Calm m s.kernel 0 0 s
  tidy : Tidy s.kernel

variable {m : Aim} {k k' : Kernel} {X : Multiset Nat} {owed : Nat → ℤ}
  {leaving pending : Nat → Prop} {s : State} {p : Fin NPROC} {i ip : Nat} {Q : Int → State → Prop}

theorem Good.setKernel (h : Good m k X owed leaving pending s) (k' : Kernel) :
    Good m k X owed leaving pending { s with kernel := k' } :=
  ⟨h.small, h.tree, h.shape, h.short, h.refs, h.held, h.valid, h.zero⟩

theorem Good.sameHolders (h : Good m k X owed leaving pending s)
    (hsame : ∀ i, holders k' i = holders k i) : Good m k' X owed leaving pending s := by
  apply h.rehold
  · intro i
    rw [hsame]
  · intro i hi
    exact h.held i (hsame i ▸ hi)
  · intro i hi
    rw [hsame]
    exact hi

theorem Good.hold (h : Calm m k (i ::ₘ 0) owed s) (halloc : allocated s i)
    (hmore : ∀ j, holders k' j = holders k j + (i ::ₘ 0).count j) : Calm m k' 0 owed s := by
  apply h.rehold
  · intro j
    rw [hmore, count_zero, Nat.cast_zero, add_zero]
  · intro j hj
    by_cases hji : j = i
    · rw [hji]
      exact halloc
    · rw [hmore, count_cons_of_ne hji, count_zero] at hj
      exact h.held j (by omega)
  · intro j hj
    rw [hmore]
    exact hj.imp_left fun hpos => by omega

theorem Fine.setKernel (h : Fine m s) (hsame : ∀ i, holders k' i = holders s.kernel i)
    (htidy : Tidy k') : Fine m { s with kernel := k' } :=
  ⟨(h.calm.sameHolders hsame).setKernel k', htidy⟩

theorem Fine.back {s' : State} (h : Fine m s) (h' : Calm m s.kernel 0 0 s')
    (hkernel : s'.kernel = s.kernel) : Fine m s' := by
  rw [← hkernel] at h'
  exact ⟨h', hkernel ▸ h.tidy⟩

theorem wp_onKernel {α : Type} {E : String → Prop} {f : Kernel → Except Fault (Kernel × α)}
    {Q : α → State → Prop} :
    wp E (onKernel f) Q s ↔
      match f s.kernel with
      | .ok (k, a) => Q a { s with kernel := k }
      | .error (.panic msg) => E msg
      | .error .outOfBounds => E "trap" := by
  unfold onKernel
  rw [wp_atomic]
  rcases f s.kernel with (msg | _) | ⟨k, a⟩
  · simp
  · simp
  · simp

/-- **The call gives up a holder**, and puts the inode. -/
theorem wp_giveUp {locked : List Nat} {Q : Unit → State → Prop}
    (h : Calm m k X 0 s)
    (hrefs : ∀ j, holders k' j + (i ::ₘ 0).count j = holders k j + X.count j)
    (hheld : ∀ j ∈ X, allocated s j)
    (hQ : ∀ s', Calm m k' 0 0 s' → s'.kernel = s.kernel → Q () s') :
    wp (harmless m) (iput locked i) Q s := by
  have hgood : Good m k' (i ::ₘ 0) 0 (fun _ => False) (fun d => d = i) s := by
    apply h.rehold hrefs
    · intro j hj
      by_cases hX : j ∈ X
      · exact hheld j hX
      · have hcount := hrefs j
        rw [count_eq_zero.mpr hX] at hcount
        exact h.held j (by omega)
    · intro j hj
      by_cases hji : j = i
      · exact .inr hji
      have hcount := hrefs j
      rw [count_cons_of_ne hji, count_zero] at hcount
      have hpos := hj.resolve_right id
      exact .inl (by omega)
  refine wp_iput hgood le_rfl (fun _ => notMem_zero i) (fun hl => hl.elim) ?_
  intro s' h' hkernel _ _
  apply hQ s' _ hkernel
  exact h'.mono (fun _ hd => hd.1) fun _ hd => hd.2 hd.1

theorem wp_fileclose {f : Fin NFILE} {Q : Unit → State → Prop} (h : Fine m s)
    (hQ : ∀ s', Fine m s' → s'.kernel.ptable = s.kernel.ptable → Q () s') :
    wp (harmless m) (fileclose f) Q s := by
  refine wp_bind.mpr (wp_onKernel.mpr ?_)
  rcases hclose : Xv6.fileclose s.kernel f with e | ⟨k', r⟩
  · rw [fileclose_error hclose]
    exact ⟨by decide, fun _ => by decide⟩
  obtain ⟨htidy, -, hptable, hholders⟩ := h.tidy.fileclose hclose
  rcases r with _ | ff
  · exact hQ _ (h.setKernel hholders htidy) hptable
  obtain ⟨-, hgone⟩ := hholders
  refine wp_onlyIf.mpr ⟨fun htype => ?_, fun htype => ?_⟩
  · have hrefs : ∀ j, holders k' j + (ff.ip ::ₘ 0).count j =
        holders s.kernel j + Multiset.count j 0 := by
      intro j
      rw [hgone, fileHolds_count htype, count_zero]
      omega
    refine wp_giveUp (h.calm.setKernel k') hrefs (fun j hj => ?_) fun s' h' hkernel => ?_
    · exact absurd hj (notMem_zero j)
    · have hk' : s'.kernel = k' := hkernel
      rw [← hk'] at h' htidy hptable
      exact hQ s' ⟨h', htidy⟩ hptable
  · apply hQ _ (h.setKernel (fun i => ?_) htidy) hptable
    rw [hgone, fileHolds_of_type htype, sub_zero]

theorem wp_sysClose {fd : Option Int} (h : Fine m s) (hQ : ∀ r s', Fine m s' → Q r s') :
    wp (harmless m) (sysClose p fd) Q s := by
  refine wp_get.mpr ?_
  split
  · exact hQ _ s h
  · refine wp_bind.mpr (wp_modify.mpr (wp_bind.mpr (wp_fileclose ?_ fun s' h' _ => hQ _ s' h')))
    exact h.setKernel (fun i => holders_setSlot ..) h.tidy.setSlot

theorem wp_putCwd {Q : Unit → State → Prop} (h : Calm m k X 0 s) (hk : s.kernel = k)
    (hrefs : ∀ j, holders k' j + cwdHolds j (k.ptable p) = holders k j + X.count j)
    (hheld : ∀ j ∈ X, allocated s j)
    (hQ : ∀ s', Calm m k' 0 0 s' → s'.kernel = s.kernel → Q () s') :
    wp (harmless m) (putCwd p) Q s := by
  refine wp_get.mpr ?_
  split
  next cwd hcwd =>
    rw [hk] at hcwd
    refine wp_giveUp h (fun j => ?_) hheld hQ
    rw [← cwdHolds_count hcwd]
    exact hrefs j
  · exact ⟨by decide, fun _ => by decide⟩

theorem wp_sysChdir {args : Option Path} (h : Fine m s)
    (hlive : ¬ Vacant (s.kernel.ptable p).state) (hQ : ∀ r s', Fine m s' → Q r s') :
    wp (harmless m) (sysChdir p args) Q s := by
  unfold sysChdir
  split
  · exact hQ _ s h
  refine wp_bind.mpr (wp_namei h.calm rfl ?_ ?_)
  · exact fun s1 h1 hsame1 => hQ _ s1 (h.back h1 hsame1.kernel)
  intro ip _ s1 _ h1 hsame1 hlock
  refine wp_bind.mpr (wp_ilock h1 hlock fun s2 h2 hsame2 halloc2 _ _ => ?_)
  have hkernel2 : s2.kernel = s.kernel := (hsame1.trans hsame2).kernel
  refine wp_get.mpr ?_
  split
  · refine wp_bind.mpr (wp_iunlockput_calm h2 id fun s3 h3 hsame3 _ => ?_)
    exact hQ _ s3 (h.back h3 (hsame3.kernel.trans hkernel2))
  refine wp_bind.mpr (wp_iunlock ?_)
  -- the new directory is held from now on, the old one no longer
  have hmoved : ∀ j, holders (setCwd p (some ip) s.kernel) j + cwdHolds j (s.kernel.ptable p) =
      holders s.kernel j + (ip ::ₘ 0).count j := by
    intro j
    have hnew : cwdHolds j { s.kernel.ptable p with cwd := some ip } = (ip ::ₘ 0).count j :=
      cwdHolds_count rfl
    rw [setCwd, holders_setProc]
    omega
  refine wp_bind.mpr (wp_putCwd h2 hkernel2 hmoved (fun j hj => ?_) fun s3 h3 hkernel3 => ?_)
  · rw [cons_zero, mem_singleton] at hj
    rw [hj]
    exact halloc2
  have hk3 : s3.kernel = s.kernel := hkernel3.trans hkernel2
  apply hQ
  change Fine m { s3 with kernel := setCwd p (some ip) s3.kernel }
  rw [hk3]
  exact ⟨h3.setKernel _, h.tidy.setProc fun hv => absurd hv hlive⟩

theorem wp_fork {kalloc copyuvm : Bool} (h : Fine m s)
    (hlive : ¬ Vacant (s.kernel.ptable p).state) (hQ : ∀ r s', Fine m s' → Q r s') :
    wp (harmless m) (fork p kalloc copyuvm) Q s := by
  have hforked : Forked s.kernel p (Xv6.fork s.kernel p kalloc copyuvm) := forked h.tidy hlive
  refine wp_bind.mpr (wp_onKernel.mpr ?_)
  rcases hfork : Xv6.fork s.kernel p kalloc copyuvm with e | ⟨k', pid⟩
  · rw [hfork] at hforked
    have he : e = .panic "filedup" := hforked
    rw [he]
    exact ⟨by decide, fun _ => by decide⟩
  rw [hfork] at hforked
  obtain ⟨htidy, -, ⟨hneg, hsame⟩ | ⟨hpos, hcwd, hmore⟩⟩ := hforked
  · simp only [hneg]
    exact hQ _ _ (h.setKernel hsame htidy)
  simp only [not_lt.mpr hpos]
  refine wp_get.mpr ?_
  split
  next cwd heq =>
    have hold : (s.kernel.ptable p).cwd = some cwd := hcwd ▸ heq
    refine wp_bind.mpr (wp_idup (h.calm.setKernel k') fun s1 h1 hsame1 => ?_)
    have hkernel : s1.kernel = k' := hsame1.kernel
    have h2 : Calm m k' 0 0 s1 := by
      refine h1.hold (h1.cwd_allocated hold) fun j => ?_
      rw [hmore, cwdHolds_count hold]
    rw [← hkernel] at h2 htidy
    exact hQ _ s1 ⟨h2, htidy⟩
  · exact ⟨by decide, fun _ => by decide⟩

theorem wp_exitFiles {Q : Unit → State → Prop}
    (hQ : ∀ s', Fine m s' → Q () s') :
    ∀ (fds : List (Fin NOFILE)) {s : State}, Fine m s → wp (harmless m) (exitFiles p fds) Q s := by
  intro fds
  induction fds with
  | nil => exact hQ _
  | cons fd fds ih =>
    intro s h
    refine wp_get.mpr ?_
    split
    · refine wp_bind.mpr (wp_fileclose h fun s1 h1 _ => wp_bind.mpr (wp_modify.mpr (ih ?_)))
      exact h1.setKernel (fun i => holders_setSlot ..) h1.tidy.setSlot
    · exact ih h

theorem wp_exit {Q : Unit → State → Prop} (h : Fine m s) (hQ : ∀ s', Fine m s' → Q () s') :
    wp (harmless m) (exit p) Q s := by
  refine wp_get.mpr ?_
  split
  · exact ⟨by decide, fun _ => by decide⟩
  refine wp_bind.mpr (wp_exitFiles (fun s1 h1 => ?_) _ h)
  have hlast : ∀ j, holders (exited p s1.kernel) j + cwdHolds j (s1.kernel.ptable p) =
      holders s1.kernel j + Multiset.count j 0 := by
    intro j
    rw [holders_exited, count_zero, Nat.cast_zero, add_zero]
  refine wp_bind.mpr (wp_putCwd h1.calm rfl hlast (fun j hj => ?_) fun s2 h2 hkernel2 => ?_)
  · exact absurd hj (notMem_zero j)
  apply hQ
  change Fine m { s2 with kernel := exited p s2.kernel }
  rw [hkernel2]
  exact ⟨h2.setKernel _, h1.tidy.exited⟩

end Xv6.Fs
