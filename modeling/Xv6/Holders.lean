import Mathlib.Algebra.BigOperators.Ring.Finset
import Xv6.FileRefs

/-!
**Who holds inodes, according to the tables.**

Open files and working directories are the references to inodes that outlive a system call.
`holders` counts them, and the lemmas say what each step of `File` does to the count. What
`ip` and `cwd` name (an inode, or a slot of the cache) does not matter here.
-/

namespace Xv6.Fs

open Tally Function

/-! ### Counting -/

def fileHolds (i : Nat) (f : File) : ℤ := if f.type = .FD_INODE ∧ f.ip = i then 1 else 0

def cwdHolds (i : Nat) (pr : Proc) : ℤ := if pr.cwd = some i then 1 else 0

/-- How many open files and processes refer to an inode. -/
def holders (k : Kernel) (i : Nat) : ℤ :=
  tally (fileHolds i) k.ftable + tally (cwdHolds i) k.ptable

theorem fileHolds_nonneg (i : Nat) (f : File) : 0 ≤ fileHolds i f := by
  unfold fileHolds
  split <;> decide

theorem cwdHolds_nonneg (i : Nat) (pr : Proc) : 0 ≤ cwdHolds i pr := by
  unfold cwdHolds
  split <;> decide

theorem holders_nonneg (k : Kernel) (i : Nat) : 0 ≤ holders k i :=
  add_nonneg (tally_nonneg fun _ => fileHolds_nonneg ..) (tally_nonneg fun _ => cwdHolds_nonneg ..)

theorem holders_pos_of_file {k : Kernel} {f : Fin NFILE} (h : (k.ftable f).type = .FD_INODE) :
    0 < holders k (k.ftable f).ip := by
  have hone : fileHolds (k.ftable f).ip (k.ftable f) = 1 := if_pos ⟨h, rfl⟩
  have hle : fileHolds (k.ftable f).ip (k.ftable f) ≤ tally (fileHolds (k.ftable f).ip) k.ftable :=
    le_tally (fun _ => fileHolds_nonneg ..) f
  have hcwds : 0 ≤ tally (cwdHolds (k.ftable f).ip) k.ptable :=
    tally_nonneg fun _ => cwdHolds_nonneg ..
  unfold holders
  omega

theorem holders_pos_of_cwd {k : Kernel} {p : Fin NPROC} {i : Nat}
    (h : (k.ptable p).cwd = some i) : 0 < holders k i := by
  have hone : cwdHolds i (k.ptable p) = 1 := if_pos h
  have hle : cwdHolds i (k.ptable p) ≤ tally (cwdHolds i) k.ptable :=
    le_tally (fun _ => cwdHolds_nonneg ..) p
  have hfiles : 0 ≤ tally (fileHolds i) k.ftable := tally_nonneg fun _ => fileHolds_nonneg ..
  unfold holders
  omega

/-! ### The tables -/

/-- Nothing is kept in slots that are not in use. -/
structure Tidy (k : Kernel) : Prop where
  idle : ∀ f, (k.ftable f).ref = 0 → (k.ftable f).type = .FD_NONE
  vacant : ∀ p, Vacant (k.ptable p).state → (k.ptable p).cwd = none

/-- A file that is open on an inode is referred to, and `P` holds of the inode and the offset. -/
def Files (P : Nat → Nat → Prop) (k : Kernel) : Prop :=
  ∀ f, (k.ftable f).type = .FD_INODE → 0 < (k.ftable f).ref ∧ P (k.ftable f).ip (k.ftable f).off

section

variable {P P' : Nat → Nat → Prop} {k k' : Kernel} {p np : Fin NPROC} {f : Fin NFILE} {i ip : Nat}
  {e : File} {fd : Fin NOFILE}

theorem Files.setFile (h : Files P k) (he : e.type = .FD_INODE → 0 < e.ref ∧ P e.ip e.off) :
    Files P (k.setFile f e) :=
  (forall_update_iff k.ftable fun _ e => e.type = .FD_INODE → 0 < e.ref ∧ P e.ip e.off).mpr
    ⟨he, fun g _ => h g⟩

theorem Files.imp (h : Files P k) (himp : ∀ i off, 0 < holders k i → P i off → P' i off) :
    Files P' k := by
  intro f hf
  obtain ⟨hpos, hP⟩ := h f hf
  exact ⟨hpos, himp _ _ (holders_pos_of_file hf) hP⟩

theorem holders_setFile (k : Kernel) (f : Fin NFILE) (e : File) (i : Nat) :
    holders (k.setFile f e) i = holders k i - fileHolds i (k.ftable f) + fileHolds i e := by
  simp only [holders, Kernel.setFile, tally_update]
  omega

theorem holders_setProc (k : Kernel) (p : Fin NPROC) (e : Proc) (i : Nat) :
    holders (k.setProc p e) i = holders k i - cwdHolds i (k.ptable p) + cwdHolds i e := by
  simp only [holders, Kernel.setProc, tally_update]
  omega

theorem holders_setSlot (k : Kernel) (p : Fin NPROC) (fd : Fin NOFILE) (o : Option (Fin NFILE))
    (i : Nat) : holders (k.setSlot p fd o) i = holders k i := by
  rw [Kernel.setSlot, holders_setProc]
  simp [cwdHolds]

theorem fileHolds_of_type (he : e.type ≠ .FD_INODE) : fileHolds i e = 0 :=
  if_neg fun h => he h.1

theorem cwdHolds_count {pr : Proc} {d : Nat} (h : pr.cwd = some d) :
    cwdHolds i pr = (d ::ₘ 0).count i := by
  unfold cwdHolds
  rw [h]
  by_cases hd : d = i
  · subst hd; simp
  · simp [hd, Ne.symm hd]

theorem fileHolds_count (h : e.type = .FD_INODE) : fileHolds i e = (e.ip ::ₘ 0).count i := by
  unfold fileHolds
  by_cases hd : e.ip = i
  · subst hd; simp [h]
  · simp [hd, Ne.symm hd]

theorem Tidy.setFile (h : Tidy k) (he : e.ref = 0 → e.type = .FD_NONE) :
    Tidy (k.setFile f e) where
  idle := (forall_update_iff k.ftable fun _ e => e.ref = 0 → e.type = .FD_NONE).mpr
    ⟨he, fun g _ => h.idle g⟩
  vacant := h.vacant

theorem Tidy.setProc (h : Tidy k) {e : Proc} (he : Vacant e.state → e.cwd = none) :
    Tidy (k.setProc p e) where
  idle := h.idle
  vacant := (forall_update_iff k.ptable fun _ e => Vacant e.state → e.cwd = none).mpr
    ⟨he, fun q _ => h.vacant q⟩

theorem Tidy.setSlot (h : Tidy k) {o : Option (Fin NFILE)} :
    Tidy (k.setSlot p fd o) := h.setProc (h.vacant p)

theorem Tidy.fileclose {r : Option File} (h : Tidy k) (heq : Xv6.fileclose k f = .ok (k', r)) :
    Tidy k' ∧ (∀ {P}, Files P k → Files P k') ∧ k'.ptable = k.ptable ∧
      match r with
      | none => ∀ i, holders k' i = holders k i
      | some ff => ff.type = (k.ftable f).type ∧
          ∀ i, holders k' i = holders k i - fileHolds i ff := by
  unfold Xv6.fileclose at heq
  split at heq
  · cases heq
  simp only at heq
  split at heq
  next hmore =>
    cases heq
    refine ⟨h.setFile fun h0 => ?_, fun hf => hf.setFile fun htype => ⟨hmore, (hf f htype).2⟩,
      rfl, fun i => ?_⟩
    · change (k.ftable f).ref - 1 = 0 at h0
      omega
    · rw [holders_setFile]
      simp [fileHolds]
  · cases heq
    refine ⟨h.setFile fun _ => rfl, fun hf => hf.setFile nofun, rfl, rfl, fun i => ?_⟩
    rw [holders_setFile]
    simp [fileHolds]

theorem fileclose_error {e : Fault} (heq : Xv6.fileclose k f = .error e) :
    e = .panic "fileclose" := by
  unfold Xv6.fileclose at heq
  split at heq
  · cases heq
    rfl
  · simp only at heq
    split at heq <;> cases heq

theorem Tidy.sysOpen {omode : UInt32} {fd : Int} (h : Tidy k)
    (heq : Xv6.sysOpen k p (some ip) omode = .ok (k', fd)) :
    Tidy k' ∧ (∀ {P}, P ip 0 → Files P k → Files P k') ∧
      ((fd < 0 ∧ ∀ i, holders k' i = holders k i) ∨
        (0 ≤ fd ∧ ∀ i, holders k' i = holders k i + (ip ::ₘ 0).count i)) := by
  unfold Xv6.sysOpen filealloc at heq
  simp only at heq
  split at heq
  · cases heq
    exact ⟨h, fun _ hf => hf, .inl ⟨by decide, fun _ => rfl⟩⟩
  rename_i k1 f1 hfile
  split at hfile
  swap
  · cases hfile
  rename_i f hfind
  cases hfile
  -- the new file held nothing so far
  have hfree : (k.ftable f1).ref = 0 := by simpa using List.find?_some hfind
  have hnone : (k.ftable f1).type ≠ .FD_INODE := by
    rw [h.idle f1 hfree]
    decide
  have h1 : Tidy (k.setFile f1 { k.ftable f1 with ref := 1 }) := h.setFile nofun
  have hfiles : ∀ {P}, Files P k → Files P (k.setFile f1 { k.ftable f1 with ref := 1 }) :=
    fun hf => hf.setFile fun htype => ⟨Int.one_pos, (hf f1 htype).2⟩
  have hsame : ∀ i, holders (k.setFile f1 { k.ftable f1 with ref := 1 }) i = holders k i := by
    intro i
    rw [holders_setFile]
    simp [fileHolds]
  split at heq
  · rcases hclose : Xv6.fileclose (k.setFile f1 { k.ftable f1 with ref := 1 }) f1 with e | ⟨k2, r⟩
    · rw [hclose] at heq
      cases heq
    rw [hclose] at heq
    cases heq
    obtain ⟨h2, hfiles2, -, hholders⟩ := h1.fileclose hclose
    refine ⟨h2, fun _ hf => hfiles2 (hfiles hf), .inl ⟨by decide, fun i => ?_⟩⟩
    rcases r with _ | ff
    · rw [hholders, hsame]
    obtain ⟨htype, hgone⟩ := hholders
    have hff : ff.type ≠ .FD_INODE := by
      rw [htype]
      simpa [Kernel.setFile] using hnone
    rw [hgone, hsame, fileHolds_of_type hff, sub_zero]
  next k2 fd' hfd =>
    cases heq
    obtain ⟨rfl, -⟩ := fdalloc_eq_some hfd
    have href : ((k.setFile f1 { k.ftable f1 with ref := 1 }).ftable f1).ref ≠ 0 := by
      simp [Kernel.setFile]
    refine ⟨h1.setSlot.setFile fun h0 => absurd h0 href, fun hnew hf => Files.setFile (hfiles hf)
      fun _ => ⟨?_, hnew⟩, .inr ⟨by omega, fun i => ?_⟩⟩
    · simp [Kernel.setFile]
    have hold : fileHolds i ((k.setFile f1 { k.ftable f1 with ref := 1 }).ftable f1) = 0 :=
      fileHolds_of_type (by simpa [Kernel.setFile] using hnone)
    rw [holders_setFile, holders_setSlot, hsame, ftable_setSlot, hold, fileHolds_count rfl,
      sub_zero]

theorem sysOpen_error {omode : UInt32} {e : Fault}
    (heq : Xv6.sysOpen k p (some ip) omode = .error e) : e = .panic "fileclose" := by
  unfold Xv6.sysOpen at heq
  simp only at heq
  split at heq
  · cases heq
  rename_i k1 f1 _
  split at heq
  · rcases hclose : Xv6.fileclose k1 f1 with e' | ⟨k2, r⟩
    · rw [hclose] at heq
      cases heq
      exact fileclose_error hclose
    · rw [hclose] at heq
      cases heq
  · cases heq

/-- The same holders and open files, and everybody in the directory they were in. -/
structure Unmoved (k k' : Kernel) : Prop where
  tidy : Tidy k'
  files : ∀ {P}, Files P k → Files P k'
  holders : ∀ i, holders k' i = holders k i
  cwd : ∀ p, (k'.ptable p).cwd = (k.ptable p).cwd

theorem Unmoved.refl (h : Tidy k) : Unmoved k k := ⟨h, id, fun _ => rfl, fun _ => rfl⟩

variable (h : Unmoved k k')
include h

theorem Unmoved.setProc {e : Proc} (hcwd : e.cwd = (k'.ptable p).cwd)
    (hvacant : Vacant e.state → e.cwd = none) : Unmoved k (k'.setProc p e) := by
  constructor
  · exact h.tidy.setProc hvacant
  · exact h.files
  · intro i
    rw [holders_setProc, ← h.holders]
    simp [cwdHolds, hcwd]
  · intro q
    rw [← h.cwd q]
    by_cases hq : q = p
    · subst hq; simpa [Kernel.setProc] using hcwd
    · simp [Kernel.setProc, hq]

theorem Unmoved.filedup {k'' : Kernel} (heq : Xv6.filedup k' f = .ok k'') : Unmoved k k'' := by
  unfold Xv6.filedup at heq
  split at heq
  · cases heq
  cases heq
  refine ⟨h.tidy.setFile fun h0 => ?_, fun hf => (h.files hf).setFile fun htype =>
    ⟨?_, (h.files hf f htype).2⟩, fun i => ?_, h.cwd⟩
  · change (k'.ftable f).ref + 1 = 0 at h0
    omega
  · change 0 < (k'.ftable f).ref + 1
    omega
  · rw [holders_setFile, ← h.holders]
    simp [fileHolds]

theorem Unmoved.setSlot {o : Option (Fin NFILE)} :
    Unmoved k (k'.setSlot p fd o) := h.setProc rfl (h.tidy.vacant p)

theorem Unmoved.forkSlot {k'' : Kernel} (heq : Xv6.forkSlot p np k' fd = .ok k'') :
    Unmoved k k'' := by
  unfold Xv6.forkSlot at heq
  split at heq
  · cases heq
    exact h
  rename_i f _
  rcases hdup : Xv6.filedup k' f with e | k1
  · rw [hdup] at heq
    cases heq
  rw [hdup] at heq
  cases heq
  exact (h.filedup hdup).setSlot

omit h

theorem forkSlot_error {e : Fault} (heq : Xv6.forkSlot p np k fd = .error e) :
    e = .panic "filedup" := by
  unfold Xv6.forkSlot at heq
  split at heq
  · cases heq
  rename_i f _
  rcases hdup : Xv6.filedup k f with e' | k1
  · rw [hdup] at heq
    cases heq
    unfold filedup at hdup
    split at hdup
    · cases hdup
      rfl
    · cases hdup
  · rw [hdup] at heq
    cases heq

theorem forkFiles : ∀ (fds : List (Fin NOFILE)) {k' : Kernel}, Unmoved k k' →
    match fds.foldlM (Xv6.forkSlot p np) k' with
    | .ok k'' => Unmoved k k''
    | .error e => e = .panic "filedup" := by
  intro fds
  induction fds with
  | nil => exact fun h => h
  | cons fd fds ih =>
    intro k' h
    rw [List.foldlM_cons]
    rcases hslot : Xv6.forkSlot p np k' fd with e | k1
    · exact forkSlot_error hslot
    · exact ih (h.forkSlot hslot)

theorem Unmoved.allocproc (h : Tidy k) (kalloc : Bool) :
    Unmoved k (allocproc k kalloc).1 ∧ ∀ np, (allocproc k kalloc).2 = some np →
      (k.ptable np).state = .UNUSED := by
  unfold Xv6.allocproc
  split
  · exact ⟨.refl h, fun np hnp => nomatch hnp⟩
  rename_i np hfind
  have hunused : (k.ptable np).state = .UNUSED := by simpa using List.find?_some hfind
  have hnone : (k.ptable np).cwd = none := h.vacant np (.inl hunused)
  have hembryo : Unmoved k (k.setProc np { k.ptable np with state := .EMBRYO, pid := k.nextpid }) :=
    (Unmoved.refl h).setProc rfl fun _ => hnone
  have hbumped : Unmoved k
      { k.setProc np { k.ptable np with state := .EMBRYO, pid := k.nextpid } with
        nextpid := k.nextpid + 1 } := ⟨⟨hembryo.tidy.idle, hembryo.tidy.vacant⟩, hembryo.files,
          hembryo.holders, hembryo.cwd⟩
  split
  · refine ⟨hbumped, fun q hq => ?_⟩
    cases hq
    exact hunused
  · refine ⟨hbumped.setProc rfl fun _ => ?_, fun q hq => nomatch hq⟩
    exact (hbumped.cwd np).trans hnone

theorem Unmoved.sysDup {args : Nat → Option Int} {r : Int} (h : Tidy k)
    (heq : Xv6.sysDup k p args = .ok (k', r)) : Unmoved k k' := by
  unfold Xv6.sysDup at heq
  split at heq
  · cases heq
    exact .refl h
  rename_i f _
  split at heq
  · cases heq
    exact .refl h
  rename_i k1 fd hslot
  obtain ⟨rfl, -⟩ := fdalloc_eq_some hslot
  rcases hdup : Xv6.filedup (k.setSlot p fd (some f)) f with e | k2
  · rw [hdup] at heq
    cases heq
  rw [hdup] at heq
  cases heq
  exact (Unmoved.refl h).setSlot.filedup hdup

theorem Tidy.advance (h : Tidy k) (r : Int) : Tidy (Xv6.advance k f r) := by
  unfold Xv6.advance
  split
  · exact h.setFile (h.idle f)
  · exact h

theorem holders_advance (r : Int) : holders (advance k f r) i = holders k i := by
  unfold Xv6.advance
  split
  · rw [holders_setFile]
    simp [fileHolds]
  · rfl

theorem Unmoved.wait {r : Int} (h : Tidy k) (heq : Xv6.wait k p = some (k', r)) :
    Unmoved k k' := by
  obtain ⟨q, hzombie, rfl⟩ := wait_eq_some heq
  exact (Unmoved.refl h).setProc rfl fun _ => h.vacant q (.inr hzombie)

/-- `fork` gets the parent's directory one more holder, or fails. -/
def Forked (k : Kernel) (p : Fin NPROC) : Except Fault (Kernel × Int) → Prop
  | .ok (k', pid) => Tidy k' ∧ (∀ {P}, Files P k → Files P k') ∧
      ((pid < 0 ∧ ∀ i, holders k' i = holders k i) ∨
      (0 ≤ pid ∧ (k'.ptable p).cwd = (k.ptable p).cwd ∧
        ∀ i, holders k' i = holders k i + cwdHolds i (k.ptable p)))
  | .error e => e = .panic "filedup"

theorem forked {kalloc copyuvm : Bool} (h : Tidy k) (hlive : ¬ Vacant (k.ptable p).state) :
    Forked k p (Xv6.fork k p kalloc copyuvm) := by
  obtain ⟨halloc, hunused⟩ := Unmoved.allocproc h kalloc
  unfold Xv6.fork
  split
  next k1 heq =>
    rw [heq] at halloc
    exact ⟨halloc.tidy, halloc.files, .inl ⟨by decide, halloc.holders⟩⟩
  rename_i k1 np heq
  rw [heq] at halloc hunused
  have hnp := hunused np rfl
  have hnone : (k1.ptable np).cwd = none := (halloc.cwd np).trans (h.vacant np (.inl hnp))
  have hne : p ≠ np := by
    rintro rfl
    exact hlive (.inl hnp)
  split
  · have hback := halloc.setProc (e := { k1.ptable np with state := .UNUSED }) rfl
      fun _ => hnone
    exact ⟨hback.tidy, hback.files, .inl ⟨by decide, hback.holders⟩⟩
  have hchild := halloc.setProc (e := { k1.ptable np with parent := some p }) rfl
    fun _ => hnone
  have hloop : match (List.finRange NOFILE).foldlM (Xv6.forkSlot p np)
      (k1.setProc np { k1.ptable np with parent := some p }) with
    | .ok k2 => Unmoved k k2
    | .error e => e = .panic "filedup" := forkFiles _ hchild
  simp only
  rcases hfiles : (List.finRange NOFILE).foldlM (Xv6.forkSlot p np)
      (k1.setProc np { k1.ptable np with parent := some p }) with e | k2
  · rw [hfiles] at hloop
    exact hloop
  rw [hfiles] at hloop
  refine ⟨hloop.tidy.setProc ?_, hloop.files, .inr ⟨Int.natCast_nonneg _, ?_, fun i => ?_⟩⟩
  · rintro (hv | hv) <;> cases hv
  · simpa [Kernel.setProc, hne] using hloop.cwd p
  have hold : cwdHolds i (k2.ptable np) = 0 := by
    simp [cwdHolds, hloop.cwd np, h.vacant np (.inl hnp)]
  rw [holders_setProc, hold, hloop.holders]
  simp [cwdHolds, hloop.cwd p]

theorem holders_reparent (k : Kernel) (p : Fin NPROC) (i : Nat) :
    holders (reparent p k) i = holders k i := by
  unfold holders
  congr 1
  apply tally_congr
  intro q
  unfold cwdHolds reparent
  simp only
  split <;> rfl

theorem Tidy.reparent (h : Tidy k) : Tidy (reparent p k) := by
  refine ⟨h.idle, fun q => ?_⟩
  simp only [Xv6.reparent]
  split
  · exact h.vacant q
  · exact h.vacant q

/-- The tables that `exit` leaves, once it has put its directory. -/
def exited (p : Fin NPROC) (k : Kernel) : Kernel :=
  let k := Xv6.reparent p (k.setProc p { k.ptable p with cwd := none })
  k.setProc p { k.ptable p with state := .ZOMBIE }

theorem cwd_reparent (k : Kernel) (p : Fin NPROC) :
    ((Xv6.reparent p (k.setProc p { k.ptable p with cwd := none })).ptable p).cwd = none := by
  simp only [Xv6.reparent, Kernel.setProc, update_self]
  split <;> rfl

theorem holders_exited (k : Kernel) (p : Fin NPROC) (i : Nat) :
    holders (exited p k) i + cwdHolds i (k.ptable p) = holders k i := by
  let gone := Xv6.reparent p (k.setProc p { k.ptable p with cwd := none })
  have hnone : cwdHolds i (gone.ptable p) = 0 := by simp [cwdHolds, gone, cwd_reparent]
  have hzombie : cwdHolds i { gone.ptable p with state := .ZOMBIE } = 0 := hnone
  have hset : cwdHolds i { k.ptable p with cwd := none } = 0 := rfl
  change holders (gone.setProc p { gone.ptable p with state := .ZOMBIE }) i + _ = _
  rw [holders_setProc, holders_reparent, holders_setProc]
  omega

theorem Tidy.exited (h : Tidy k) : Tidy (exited p k) :=
  Tidy.setProc (Tidy.reparent (h.setProc fun _ => rfl)) fun _ => cwd_reparent k p

theorem holders_eq_card (htidy : Tidy k) (hfiles : Files P k) (i : Nat) :
    holders k i =
      (Finset.univ.filter fun f => (k.ftable f).type = .FD_INODE ∧ 0 < (k.ftable f).ref ∧
        (k.ftable f).ip = i).card +
      (Finset.univ.filter fun p => ¬ Vacant (k.ptable p).state ∧ (k.ptable p).cwd = some i).card := by
  have hopen : ∀ f, (k.ftable f).type = .FD_INODE ∧ (k.ftable f).ip = i ↔
      (k.ftable f).type = .FD_INODE ∧ 0 < (k.ftable f).ref ∧ (k.ftable f).ip = i := by
    intro f
    constructor
    · exact fun hf => ⟨hf.1, (hfiles f hf.1).1, hf.2⟩
    · exact fun hf => ⟨hf.1, hf.2.2⟩
  have hlive : ∀ p, (k.ptable p).cwd = some i ↔
      ¬ Vacant (k.ptable p).state ∧ (k.ptable p).cwd = some i := by
    intro p
    constructor
    · intro hcwd
      refine ⟨fun hv => ?_, hcwd⟩
      rw [htidy.vacant p hv] at hcwd
      cases hcwd
    · exact fun hp => hp.2
  simp only [holders, tally, fileHolds, cwdHolds, Finset.sum_boole, hopen]
  congr 3
  exact Finset.filter_congr fun p _ => hlive p

end

/-! ### At the start -/

theorem holders_booted (i : Nat) : holders booted i = if i = ROOTINO then 1 else 0 := by
  have hfiles : tally (fileHolds i) booted.ftable = 0 := tally_eq_zero fun _ => rfl
  rw [holders, hfiles]
  simp only [booted, tally_update]
  rw [tally_eq_zero fun _ => by simp [cwdHolds]]
  by_cases hi : i = ROOTINO
  · subst hi; rfl
  · simp [cwdHolds, hi, Ne.symm hi]

theorem tidy_booted : Tidy booted := by
  refine ⟨fun _ _ => rfl, fun p => ?_⟩
  simp only [booted, update_apply]
  split
  · rintro (hv | hv) <;> cases hv
  · exact fun _ => rfl

end Xv6.Fs
