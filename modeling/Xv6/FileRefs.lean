import Xv6.File
import Xv6.Tally
import Xv6.Transition

/-!
**Reference counts of open files.**

Between system calls `f->ref` is the number of descriptor slots that point to `f`.
Inside a call some references are held by the call itself: `filealloc` and `filedup`
give it one, storing it in a slot or closing it gives it away, and clearing a slot
takes it over. `RefsExact k held` is the count with the list `held` of those
references added; every call starts and ends with the empty list.
-/

namespace Xv6

open Tally Transition Function List Option

/-! ### Counting references -/

/-- Does this slot point to `f`? -/
def slotRef (f : Fin NFILE) (o : Option (Fin NFILE)) : ℤ := if o = some f then 1 else 0

/-- The number of descriptor slots, over all processes, that point to `f`. -/
def refs (k : Kernel) (f : Fin NFILE) : ℤ :=
  tally (fun pr : Proc => tally (slotRef f) pr.ofile) k.ptable

/-- Every count is the number of slots and of the references in `held`. -/
def RefsExact (k : Kernel) (held : List (Fin NFILE)) : Prop :=
  ∀ f, (k.ftable f).ref = refs k f + held.count f

theorem slotRef_nonneg (f : Fin NFILE) (o : Option (Fin NFILE)) : 0 ≤ slotRef f o := by
  unfold slotRef
  split <;> decide

@[simp] theorem slotRef_none (f : Fin NFILE) : slotRef f none = 0 := rfl

@[simp] theorem slotRef_self (f : Fin NFILE) : slotRef f (some f) = 1 := if_pos rfl

theorem slotRef_some (f g : Fin NFILE) : slotRef f (some g) = [g].count f := by
  by_cases h : g = f
  · subst h; simp
  · simp [slotRef, h]

theorem procRefs_nonneg (f : Fin NFILE) (pr : Proc) : 0 ≤ tally (slotRef f) pr.ofile :=
  tally_nonneg fun _ => slotRef_nonneg f _

theorem refs_nonneg (k : Kernel) (f : Fin NFILE) : 0 ≤ refs k f :=
  tally_nonneg fun _ => procRefs_nonneg f _

variable {k : Kernel} {p : Fin NPROC} {fd : Fin NOFILE} {f : Fin NFILE}

theorem refs_pos (h : k.ofile p fd = some f) : 1 ≤ refs k f := by
  have hslot : slotRef f ((k.ptable p).ofile fd) ≤ tally (slotRef f) (k.ptable p).ofile :=
    le_tally (fun _ => slotRef_nonneg f _) fd
  have hproc : tally (slotRef f) (k.ptable p).ofile ≤ refs k f :=
    le_tally
      (fun q => procRefs_nonneg f (k.ptable q)) p
  rw [show (k.ptable p).ofile fd = some f from h, slotRef_self] at hslot
  exact hslot.trans hproc

/-! ### What the updates do to the count -/

@[simp] theorem ofile_setFile (k : Kernel) (f : Fin NFILE) (e : File) (p : Fin NPROC)
    (fd : Fin NOFILE) : (k.setFile f e).ofile p fd = k.ofile p fd := rfl

@[simp] theorem ptable_setFile (k : Kernel) (f : Fin NFILE) (e : File) :
    (k.setFile f e).ptable = k.ptable := rfl

@[simp] theorem ftable_setSlot (k : Kernel) (p : Fin NPROC) (fd : Fin NOFILE)
    (o : Option (Fin NFILE)) : (k.setSlot p fd o).ftable = k.ftable := rfl

theorem ofile_setSlot (k : Kernel) (p q : Fin NPROC) (fd fd' : Fin NOFILE)
    (o : Option (Fin NFILE)) :
    (k.setSlot p fd o).ofile q fd' = if q = p ∧ fd' = fd then o else k.ofile q fd' := by
  unfold Kernel.setSlot Kernel.setProc Kernel.ofile
  by_cases hq : q = p
  · subst hq
    by_cases hfd : fd' = fd
    · subst hfd; simp
    · simp [hfd]
  · simp [hq]

theorem refs_setSlot (k : Kernel) (p : Fin NPROC) (fd : Fin NOFILE) (o : Option (Fin NFILE))
    (f : Fin NFILE) :
    refs (k.setSlot p fd o) f = refs k f - slotRef f (k.ofile p fd) + slotRef f o := by
  unfold refs Kernel.setSlot Kernel.setProc Kernel.ofile
  simp only [tally_update]
  omega

theorem refs_setProc (k : Kernel) (p : Fin NPROC) (e : Proc) (he : e.ofile = (k.ptable p).ofile)
    (f : Fin NFILE) : refs (k.setProc p e) f = refs k f := by
  unfold refs Kernel.setProc
  simp only [tally_update, he]
  omega

section

variable {k : Kernel} {held : List (Fin NFILE)} {f : Fin NFILE} {fd : Fin NOFILE}

theorem RefsExact.ref_pos_of_slot (h : RefsExact k held) {p : Fin NPROC}
    (hslot : k.ofile p fd = some f) : 1 ≤ (k.ftable f).ref := by
  have hrefs := refs_pos hslot
  rw [h f]
  omega

theorem RefsExact.ref_pos_of_held (h : RefsExact k held) (hmem : f ∈ held) :
    1 ≤ (k.ftable f).ref := by
  have hrefs := refs_nonneg k f
  have hcount := one_le_count_iff.mpr hmem
  rw [h f]
  omega

theorem RefsExact.perm (h : RefsExact k held) {held' : List (Fin NFILE)}
    (hp : held.Perm held') : RefsExact k held' := fun f => by
  rw [← hp.count_eq f]
  exact h f

theorem RefsExact.setFile (h : RefsExact k held) {e : File} {held' : List (Fin NFILE)}
    (hself : e.ref - (k.ftable f).ref = held'.count f - held.count f)
    (hother : ∀ g, g ≠ f → held'.count g = held.count g) : RefsExact (k.setFile f e) held' := by
  intro g
  by_cases hg : g = f
  · subst hg
    have hold := h g
    simp only [Kernel.setFile, update_self]
    rw [show refs { k with ftable := update k.ftable g e } g = refs k g from rfl]
    omega
  · simp only [Kernel.setFile, update_of_ne hg, hother g hg]
    exact h g

theorem RefsExact.store (h : RefsExact k (f :: held)) {p : Fin NPROC} (hslot : k.ofile p fd = none) :
    RefsExact (k.setSlot p fd (some f)) held := by
  intro g
  have hold := h g
  have hcount := @count_append _ _ g [f] held
  rw [singleton_append] at hcount
  rw [refs_setSlot, hslot, slotRef_none, slotRef_some, ftable_setSlot]
  omega

theorem RefsExact.take (h : RefsExact k held) {p : Fin NPROC} (hslot : k.ofile p fd = some f) :
    RefsExact (k.setSlot p fd none) (f :: held) := by
  intro g
  have hold := h g
  have hcount := @count_append _ _ g [f] held
  rw [singleton_append] at hcount
  rw [refs_setSlot, hslot, slotRef_none, slotRef_some, ftable_setSlot]
  omega

def dupped (e : File) : File := { e with ref := e.ref + 1 }

def closed (e : File) : File :=
  if e.ref - 1 > 0 then { e with ref := e.ref - 1 } else { e with ref := 0, type := .FD_NONE }

theorem closed_ref {e : File} (hpos : 1 ≤ e.ref) : (closed e).ref = e.ref - 1 := by
  unfold closed
  split
  · rfl
  · simp only; omega

theorem filedup_eq (hpos : 1 ≤ (k.ftable f).ref) :
    filedup k f = .ok (k.setFile f (dupped (k.ftable f))) := if_neg (by omega)

theorem filedup_panics (hfree : (k.ftable f).ref < 1) :
    filedup k f = .error (.panic "filedup") := if_pos hfree

theorem fileclose_eq (hpos : 1 ≤ (k.ftable f).ref) :
    ∃ d, fileclose k f = .ok (k.setFile f (closed (k.ftable f)), d) := by
  unfold fileclose closed
  rw [if_neg (by omega)]
  by_cases hmore : (k.ftable f).ref - 1 > 0
  · simp only [if_pos hmore]; exact ⟨_, rfl⟩
  · simp only [if_neg hmore]; exact ⟨_, rfl⟩

theorem RefsExact.dup (h : RefsExact k held) :
    RefsExact (k.setFile f (dupped (k.ftable f))) (f :: held) := by
  refine h.setFile ?_ fun g hg => ?_
  · simp only [dupped, count_cons_self]
    omega
  · rw [count_cons_of_ne (Ne.symm hg)]

theorem RefsExact.close (h : RefsExact k (f :: held)) :
    RefsExact (k.setFile f (closed (k.ftable f))) held := by
  refine h.setFile ?_ fun g hg => ?_
  · rw [closed_ref (h.ref_pos_of_held (.head _)), count_cons_self]
    omega
  · rw [count_cons_of_ne (Ne.symm hg)]

end

/-! ### The invariant -/

/-- A slot of the process table that holds no process. -/
def Vacant (st : Procstate) : Prop := st = .UNUSED ∨ st = .ZOMBIE

instance (st : Procstate) : Decidable (Vacant st) := inferInstanceAs (Decidable (_ ∨ _))

structure Owned (k : Kernel) (held : List (Fin NFILE)) : Prop where
  exact : RefsExact k held
  idle : ∀ f, (k.ftable f).ref = 0 → (k.ftable f).type = .FD_NONE
  vacant : ∀ p, Vacant (k.ptable p).state → ∀ fd, k.ofile p fd = none

namespace Owned

variable {k k' : Kernel} {held : List (Fin NFILE)} {f : Fin NFILE} {p : Fin NPROC} {fd : Fin NOFILE}

theorem setFile (h : Owned k held) {e : File} {held' : List (Fin NFILE)}
    (hexact : RefsExact (k.setFile f e) held') (hidle : e.ref = 0 → e.type = .FD_NONE) :
    Owned (k.setFile f e) held' where
  exact := hexact
  idle := (forall_update_iff k.ftable fun _ e => e.ref = 0 → e.type = .FD_NONE).mpr
    ⟨hidle, fun g _ => h.idle g⟩
  vacant := h.vacant

theorem setFields (h : Owned k held) {e : File} (href : e.ref = (k.ftable f).ref)
    (hpos : 1 ≤ (k.ftable f).ref) : Owned (k.setFile f e) held :=
  h.setFile (h.exact.setFile (by omega) fun _ _ => rfl) fun h0 => by omega

theorem setSlot (h : Owned k held) {o : Option (Fin NFILE)} {held' : List (Fin NFILE)}
    (hexact : RefsExact (k.setSlot p fd o) held') (hlive : Vacant (k.ptable p).state → o = none) :
    Owned (k.setSlot p fd o) held' where
  exact := hexact
  idle := h.idle
  vacant := by
    intro q hq fd'
    have hstate : Vacant (k.ptable q).state := by
      by_cases hqp : q = p
      · subst hqp; simpa [Kernel.setSlot, Kernel.setProc] using hq
      · simpa [Kernel.setSlot, Kernel.setProc, hqp] using hq
    rw [ofile_setSlot]
    split
    next hself => exact hlive (hself.1 ▸ hstate)
    · exact h.vacant q hstate fd'

theorem store (h : Owned k (f :: held)) (hslot : k.ofile p fd = none)
    (hlive : ¬ Vacant (k.ptable p).state) : Owned (k.setSlot p fd (some f)) held :=
  h.setSlot (h.exact.store hslot) fun hv => absurd hv hlive

theorem take (h : Owned k held) (hslot : k.ofile p fd = some f) :
    Owned (k.setSlot p fd none) (f :: held) :=
  h.setSlot (h.exact.take hslot) fun _ => rfl

theorem setProc (h : Owned k held) {e : Proc} (hofile : e.ofile = (k.ptable p).ofile)
    (hvacant : Vacant e.state → ∀ fd, e.ofile fd = none) : Owned (k.setProc p e) held where
  exact := fun f => by rw [refs_setProc k p e hofile]; exact h.exact f
  idle := h.idle
  vacant := (forall_update_iff k.ptable
    fun _ e => Vacant e.state → ∀ fd, e.ofile fd = none).mpr ⟨hvacant, fun q _ => h.vacant q⟩

theorem dup (h : Owned k held) (hpos : 1 ≤ (k.ftable f).ref) :
    Owned (k.setFile f (dupped (k.ftable f))) (f :: held) :=
  h.setFile h.exact.dup fun h0 => by simp only [dupped] at h0; omega

theorem close (h : Owned k (f :: held)) : Owned (k.setFile f (closed (k.ftable f))) held := by
  refine h.setFile h.exact.close ?_
  unfold closed
  split
  · intro h0
    simp only at h0
    omega
  · exact fun _ => rfl

theorem fileclose_eq (h : Owned k (f :: held)) :
    ∃ d, fileclose k f = .ok (k.setFile f (closed (k.ftable f)), d) :=
  Xv6.fileclose_eq (h.exact.ref_pos_of_held (.head _))

theorem filealloc (h : Owned k held) (heq : filealloc k = some (k', f)) :
    ∃ e, k' = k.setFile f e ∧ (k.ftable f).ref = 0 ∧ e.ref = 1 ∧ Owned k' (f :: held) := by
  unfold Xv6.filealloc at heq
  split at heq
  next g hfind =>
    have hzero : (k.ftable g).ref = 0 := by simpa using List.find?_some hfind
    cases heq
    refine ⟨_, rfl, hzero, rfl, h.setFile (h.exact.setFile ?_ fun g' hg' => ?_) (by simp)⟩
    · simp only [count_cons_self]
      omega
    · rw [count_cons_of_ne (Ne.symm hg')]
  · cases heq

end Owned

theorem fdalloc_eq_some {k' : Kernel} (heq : fdalloc k p f = some (k', fd)) :
    k' = k.setSlot p fd (some f) ∧ k.ofile p fd = none := by
  unfold fdalloc at heq
  split at heq
  next fd' hfind =>
    have hfree : k.ofile p fd' = none := by simpa using List.find?_some hfind
    cases heq
    exact ⟨rfl, hfree⟩
  · cases heq

theorem slot_eq_some {fd : Int} {i : Fin NOFILE} (h : slot fd = some i) : fd = i.val := by
  unfold slot at h
  split at h
  · cases h
    simp only
    omega
  · cases h

theorem openFd_eq_some {fd : Int} {i : Fin NOFILE} (h : openFd k p fd = some (i, f)) :
    slot fd = some i ∧ k.ofile p i = some f := by
  obtain ⟨j, hslot, hmap⟩ := bind_eq_some_iff.mp h
  obtain ⟨g, hg, hpair⟩ := map_eq_some_iff.mp hmap
  cases hpair
  exact ⟨hslot, hg⟩

theorem argfd_eq_some {args : Nat → Option Int} {n : Nat} (heq : argfd k p args n = some (fd, f)) :
    k.ofile p fd = some f := by
  obtain ⟨i, -, hopen⟩ := bind_eq_some_iff.mp heq
  exact (openFd_eq_some hopen).2

/-! ### System calls -/

/-- A call keeps the invariant, or ends in a panic that is not about references. -/
def Kept : Except Fault (Kernel × Int) → Prop
  | .ok (k, _) => Owned k []
  | .error e => e ≠ .panic "filedup" ∧ e ≠ .panic "fileclose"

section

variable {k : Kernel} {p : Fin NPROC} {args : Nat → Option Int}

theorem wait_eq_some {k' : Kernel} {r : Int} (h : wait k p = some (k', r)) :
    ∃ q, (k.ptable q).state = .ZOMBIE ∧
      k' = k.setProc q { k.ptable q with pid := 0, parent := none, state := .UNUSED } := by
  unfold wait at h
  split at h
  next q hfind =>
    have hboth := List.find?_some hfind
    simp only [decide_eq_true_eq] at hboth
    cases h
    exact ⟨q, hboth.2, rfl⟩
  · cases h

variable (h : Owned k [])
include h

theorem kept_sysDup (hlive : ¬ Vacant (k.ptable p).state) : Kept (sysDup k p args) := by
  unfold sysDup
  split
  · exact h
  rename_i fd0 f hfd
  have hpos := h.exact.ref_pos_of_slot (argfd_eq_some hfd)
  split
  · exact h
  rename_i k1 fd hslot
  obtain ⟨rfl, hfree⟩ := fdalloc_eq_some hslot
  rw [filedup_eq (by simpa using hpos)]
  -- the slot is filled before the count goes up; the two updates commute
  exact (h.dup hpos).store hfree hlive

theorem kept_sysClose : Kept (sysClose k p args) := by
  unfold sysClose
  split
  · exact h
  rename_i fd f hfd
  have htaken := h.take (argfd_eq_some hfd)
  obtain ⟨d, heq⟩ := htaken.fileclose_eq
  rw [heq]
  exact htaken.close

theorem kept_sysOpen (hlive : ¬ Vacant (k.ptable p).state) {ip : Option Nat} {omode : UInt32} :
    Kept (sysOpen k p ip omode) := by
  unfold sysOpen
  split
  · exact h
  split
  · exact h
  rename_i k1 f halloc
  obtain ⟨e, rfl, -, hone, hheld⟩ := h.filealloc halloc
  split
  · obtain ⟨d, heq⟩ := hheld.fileclose_eq
    rw [heq]
    exact hheld.close
  rename_i k2 fd hslot
  obtain ⟨rfl, hfree⟩ := fdalloc_eq_some hslot
  have hstored := hheld.store hfree hlive
  refine hstored.setFields rfl ?_
  simp [Kernel.setFile, hone]

theorem Owned.pipealloc (kalloc : Option Nat) :
    ∃ k', ((pipealloc k kalloc = .ok (k', none) ∧ Owned k' []) ∨
      ∃ f0 f1, pipealloc k kalloc = .ok (k', some (f0, f1)) ∧ Owned k' [f0, f1]) ∧
      k'.ptable = k.ptable := by
  unfold Xv6.pipealloc
  split
  · exact ⟨k, .inl ⟨rfl, h⟩, rfl⟩
  rename_i k1 f0 halloc0
  obtain ⟨e0, rfl, -, hone0, hheld0⟩ := h.filealloc halloc0
  split
  · obtain ⟨d, heq⟩ := hheld0.fileclose_eq
    rw [heq]
    exact ⟨_, .inl ⟨rfl, hheld0.close⟩, rfl⟩
  rename_i k2 f1 halloc1
  obtain ⟨e1, rfl, -, hone1, hheld1⟩ := hheld0.filealloc halloc1
  have hboth : Owned ((k.setFile f0 e0).setFile f1 e1) [f0, f1] :=
    ⟨hheld1.exact.perm (List.Perm.swap f0 f1 []), hheld1.idle, hheld1.vacant⟩
  split
  · obtain ⟨d, heq⟩ := hboth.fileclose_eq
    obtain ⟨d', heq'⟩ := hboth.close.fileclose_eq
    rw [heq]
    simp only [bind, Except.bind, heq']
    exact ⟨_, .inl ⟨rfl, hboth.close.close⟩, rfl⟩
  next pipe =>
    refine ⟨_, .inr ⟨f0, f1, rfl, ?_⟩, rfl⟩
    have hread := hboth.setFields
      (e := { ((k.setFile f0 e0).setFile f1 e1).ftable f0 with
        type := .FD_PIPE, readable := true, writable := false, pipe := pipe })
      rfl (hboth.exact.ref_pos_of_held (by simp))
    exact hread.setFields rfl (hread.exact.ref_pos_of_held (by simp))

theorem kept_sysPipe (hlive : ¬ Vacant (k.ptable p).state) {argptr : Bool} {kalloc : Option Nat} :
    Kept (sysPipe k p argptr kalloc) := by
  unfold sysPipe
  split
  · exact h
  obtain ⟨k1, ⟨heq, hk1⟩ | ⟨rf, wf, heq, hk1⟩, hpt⟩ := h.pipealloc kalloc
  · rw [heq]
    exact hk1
  rw [← hpt] at hlive
  -- a failing `fdalloc` leaves both references with the call, which closes them
  have hclose : ∀ k2, Owned k2 [rf, wf] → Kept (do
      let k3 ← fileclose k2 rf
      let k4 ← fileclose k3.1 wf
      pure (k4.1, -1)) := by
    intro k2 hk2
    obtain ⟨d, heq⟩ := hk2.fileclose_eq
    obtain ⟨d', heq'⟩ := hk2.close.fileclose_eq
    simp only [bind, Except.bind, heq, heq']
    exact hk2.close.close
  rw [heq]
  simp only [bind, Except.bind]
  split
  · exact hclose k1 hk1
  rename_i k2 fd0 hslot0
  obtain ⟨rfl, hfree0⟩ := fdalloc_eq_some hslot0
  have hk2 := hk1.store hfree0 hlive
  split
  · refine hclose _ (hk2.take ?_)
    rw [ofile_setSlot, if_pos ⟨rfl, rfl⟩]
  rename_i k3 fd1 hslot1
  obtain ⟨rfl, hfree1⟩ := fdalloc_eq_some hslot1
  refine hk2.store hfree1 ?_
  simpa [Kernel.setSlot, Kernel.setProc] using hlive

theorem Owned.advance {f : Fin NFILE} (hpos : 1 ≤ (k.ftable f).ref) (r : Int) :
    Owned (advance k f r) [] ∧ 1 ≤ ((advance k f r).ftable f).ref := by
  unfold Xv6.advance
  split
  · exact ⟨h.setFields rfl hpos, by simpa [Kernel.setFile] using hpos⟩
  · exact ⟨h, hpos⟩

theorem kept_sysRead {argptr : Bool} {r : Int} : Kept (sysRead k p args argptr r) := by
  unfold sysRead
  split
  next hfd _ =>
    have hpos := h.exact.ref_pos_of_slot (argfd_eq_some hfd)
    unfold fileread
    split
    · exact h
    split
    · exact h
    · exact (h.advance hpos r).1
    · exact ⟨by simp, by simp⟩
  · exact h

/-- `filewrite` moves `off` only, chunk after chunk. -/
theorem kept_filewriteLoop {f : Fin NFILE} {writei : Int → Int} {n i : Int}
    (hpos : 1 ≤ (k.ftable f).ref) : Kept (filewriteLoop k f writei n i) := by
  fun_induction filewriteLoop k f writei n i with
  | case1 | case4 => exact h
  | case2 => exact ⟨by simp, by simp⟩
  | case3 k i hlt hneg hfull ih => exact ih (h.advance hpos _).1 (h.advance hpos _).2

theorem kept_sysWrite {argptr : Bool} {pipewrite : Int} {writei : Int → Int} :
    Kept (sysWrite k p args argptr pipewrite writei) := by
  unfold sysWrite
  split
  next hfd _ =>
    have hpos := h.exact.ref_pos_of_slot (argfd_eq_some hfd)
    unfold filewrite
    split
    · exact h
    split
    · exact h
    · exact kept_filewriteLoop h hpos
    · exact ⟨by simp, by simp⟩
  · exact h

omit h

theorem foldlM_ok {ε σ α : Type} {f : σ → α → Except ε σ} (I : List α → σ → Prop)
    (hstep : ∀ a as s, I (a :: as) s → ∃ s', f s a = .ok s' ∧ I as s') :
    ∀ (as : List α) {s : σ}, I as s → ∃ s', as.foldlM f s = .ok s' ∧ I [] s' := by
  intro as
  induction as with
  | nil => intro s h; exact ⟨s, rfl, h⟩
  | cons a as ih =>
    intro s h
    obtain ⟨s1, heq, h1⟩ := hstep a as s h
    obtain ⟨s', heq', h'⟩ := ih h1
    refine ⟨s', ?_, h'⟩
    rw [foldlM_cons, heq]
    exact heq'

@[simp] theorem state_setSlot (k : Kernel) (p q : Fin NPROC) (fd : Fin NOFILE)
    (o : Option (Fin NFILE)) : ((k.setSlot p fd o).ptable q).state = (k.ptable q).state := by
  by_cases hq : q = p
  · subst hq; simp [Kernel.setSlot, Kernel.setProc]
  · simp [Kernel.setSlot, Kernel.setProc, hq]

variable (h : Owned k [])
include h

/-- `fork`'s loop: the child's slots still to be filled are empty. -/
theorem Owned.forkFiles (np : Fin NPROC) (hlive : ¬ Vacant (k.ptable np).state)
    (hempty : ∀ fd, k.ofile np fd = none) :
    ∃ k', (List.finRange NOFILE).foldlM (forkSlot p np) k = .ok k' ∧ Owned k' [] := by
  let I (rest : List (Fin NOFILE)) (k : Kernel) : Prop :=
    Owned k [] ∧ ¬ Vacant (k.ptable np).state ∧ rest.Nodup ∧ ∀ fd ∈ rest, k.ofile np fd = none
  have hstep : ∀ fd rest k, I (fd :: rest) k → ∃ k', forkSlot p np k fd = .ok k' ∧ I rest k' := by
    rintro fd rest k ⟨h, hlive, hnodup, hfree⟩
    obtain ⟨hnew, hrest⟩ := nodup_cons.mp hnodup
    unfold forkSlot
    split
    · exact ⟨k, rfl, h, hlive, hrest, fun fd' hmem => hfree fd' (.tail _ hmem)⟩
    rename_i f hslot
    have hpos := h.exact.ref_pos_of_slot hslot
    rw [filedup_eq hpos]
    refine ⟨_, rfl, (h.dup hpos).store (hfree fd (.head _)) hlive, ?_, hrest, fun fd' hmem => ?_⟩
    · rw [state_setSlot]; exact hlive
    · have hne : ¬ (np = np ∧ fd' = fd) := fun hself => hnew (hself.2 ▸ hmem)
      rw [ofile_setSlot, if_neg hne]
      exact hfree fd' (.tail _ hmem)
  obtain ⟨k', heq, h', -⟩ := foldlM_ok I hstep (List.finRange NOFILE)
    ⟨h, hlive, nodup_finRange _, fun fd _ => hempty fd⟩
  exact ⟨k', heq, h'⟩

/-- `exit`'s loop: the slots behind it are empty. -/
theorem Owned.exitFiles :
    ∃ k', (List.finRange NOFILE).foldlM (exitSlot p) k = .ok k' ∧ Owned k' [] ∧
      ∀ fd, k'.ofile p fd = none := by
  let I (rest : List (Fin NOFILE)) (k : Kernel) : Prop :=
    Owned k [] ∧ ∀ fd, fd ∉ rest → k.ofile p fd = none
  have hstep : ∀ fd rest k, I (fd :: rest) k → ∃ k', exitSlot p k fd = .ok k' ∧ I rest k' := by
    rintro fd rest k ⟨h, hdone⟩
    unfold exitSlot
    split
    next hslot =>
      refine ⟨k, rfl, h, fun fd' hmem => ?_⟩
      by_cases hfd : fd' = fd
      · rw [hfd, hslot]
      · exact hdone fd' (by simp [hfd, hmem])
    next f hslot =>
      obtain ⟨d, heq⟩ := Xv6.fileclose_eq (h.exact.ref_pos_of_slot hslot)
      rw [heq]
      -- the slot is cleared after the close; the two updates commute
      refine ⟨_, rfl, (h.take hslot).close, fun fd' hmem => ?_⟩
      rw [ofile_setSlot]
      split
      · rfl
      next hne => exact hdone fd' (by simpa [hmem] using hne)
  obtain ⟨k', heq, h', hdone⟩ := foldlM_ok I hstep (List.finRange NOFILE)
    ⟨h, fun fd hfd => absurd (mem_finRange fd) hfd⟩
  exact ⟨k', heq, h', fun fd => hdone fd not_mem_nil⟩

/-- `allocproc` changes the state and pid of one vacant slot. -/
theorem Owned.allocproc (kalloc : Bool) :
    Owned (allocproc k kalloc).1 [] ∧ ∀ np, (allocproc k kalloc).2 = some np →
      ((allocproc k kalloc).1.ptable np).state = .EMBRYO ∧
        ∀ fd, (allocproc k kalloc).1.ofile np fd = none := by
  unfold Xv6.allocproc
  split
  · exact ⟨h, by simp⟩
  rename_i np hfind
  have hunused : (k.ptable np).state = .UNUSED := by simpa using List.find?_some hfind
  have hempty := h.vacant np (.inl hunused)
  have hembryo : Owned { k.setProc np { k.ptable np with state := .EMBRYO, pid := k.nextpid } with
      nextpid := k.nextpid + 1 } [] := by
    have hset := h.setProc
      (e := { k.ptable np with state := .EMBRYO, pid := k.nextpid }) rfl (fun _ => hempty)
    exact ⟨hset.exact, hset.idle, hset.vacant⟩
  split
  · refine ⟨hembryo, fun np' hnp => ?_⟩
    cases hnp
    simp only [Kernel.setProc, Kernel.ofile, update_self]
    exact ⟨trivial, hempty⟩
  · refine ⟨hembryo.setProc rfl fun _ => ?_, by simp⟩
    simp only [Kernel.setProc, update_self]
    exact hempty

theorem kept_fork {kalloc copyuvm : Bool} : Kept (fork k p kalloc copyuvm) := by
  obtain ⟨halloc, hnp⟩ := h.allocproc kalloc
  unfold fork
  split
  next k1 heq =>
    rw [heq] at halloc
    exact halloc
  rename_i k1 np heq
  rw [heq] at halloc hnp
  obtain ⟨hembryo, hempty⟩ := hnp np rfl
  simp only at halloc hembryo hempty
  split
  · exact halloc.setProc rfl fun _ => hempty
  have hparent := halloc.setProc (e := { k1.ptable np with parent := some p }) rfl
    fun _ => hempty
  obtain ⟨k2, hloop, hk2⟩ := hparent.forkFiles (p := p) np
    (by simp [Kernel.setProc, hembryo, Vacant])
    (by simpa [Kernel.setProc, Kernel.ofile] using hempty)
  simp only [hloop]
  exact hk2.setProc rfl fun hv => by simp [Vacant] at hv

theorem Owned.reparent : Owned (reparent p k) [] := by
  have hofile : ∀ q, ((Xv6.reparent p k).ptable q).ofile = (k.ptable q).ofile := by
    intro q
    simp only [Xv6.reparent]
    split <;> rfl
  have hstate : ∀ q, ((Xv6.reparent p k).ptable q).state = (k.ptable q).state := by
    intro q
    simp only [Xv6.reparent]
    split <;> rfl
  refine ⟨fun f => ?_, h.idle, fun q hq fd => ?_⟩
  · have hrefs : refs (Xv6.reparent p k) f = refs k f :=
      tally_congr fun q => by rw [hofile q]
    rw [hrefs]
    exact h.exact f
  · rw [hstate q] at hq
    unfold Kernel.ofile
    rw [hofile q]
    exact h.vacant q hq fd

theorem kept_exit : Kept ((exit k p).map fun k => (k, 0)) := by
  unfold exit
  split
  · exact ⟨by simp, by simp⟩
  obtain ⟨k1, hloop, hk1, hempty⟩ := h.exitFiles
  have hcwd := hk1.setProc (e := { k1.ptable p with cwd := none }) rfl fun _ => hempty
  simp only [hloop]
  refine hcwd.reparent.setProc rfl fun _ fd => ?_
  simp only [reparent, Kernel.setProc, update_self]
  split <;> exact hempty fd

theorem kept_wait {k' : Kernel} {r : Int} (hw : wait k p = some (k', r)) : Owned k' [] := by
  obtain ⟨q, hzombie, rfl⟩ := wait_eq_some hw
  exact h.setProc rfl fun _ => h.vacant q (.inr hzombie)

end

/-! ### Runs -/

/-- A system call, with what the layers below answer. -/
inductive Call where
  | dup (args : Nat → Option Int)
  | close (args : Nat → Option Int)
  | openIp (ip : Option Nat) (omode : UInt32)
  | pipe (argptr : Bool) (kalloc : Option Nat)
  | read (args : Nat → Option Int) (argptr : Bool) (r : Int)
  | write (args : Nat → Option Int) (argptr : Bool) (pipewrite : Int) (writei : Int → Int)
  | fork (kalloc copyuvm : Bool)
  | exit
  | wait

def syscall (k : Kernel) (p : Fin NPROC) : Call → Except Fault (Kernel × Int)
  | .dup args => sysDup k p args
  | .close args => sysClose k p args
  | .openIp ip omode => sysOpen k p ip omode
  | .pipe argptr kalloc => sysPipe k p argptr kalloc
  | .read args argptr r => sysRead k p args argptr r
  | .write args argptr pipewrite writei => sysWrite k p args argptr pipewrite writei
  | .fork kalloc copyuvm => fork k p kalloc copyuvm
  | .exit => (exit k p).map fun k => (k, 0)
  | .wait => .ok ((wait k p).getD (k, -1))

/-- Can this process make a system call?  The scheduler's moves between the two states
are not modelled. -/
def Runs (k : Kernel) (p : Fin NPROC) : Prop :=
  (k.ptable p).state = .RUNNABLE ∨ (k.ptable p).state = .RUNNING

instance (k : Kernel) (p : Fin NPROC) : Decidable (Runs k p) := inferInstanceAs (Decidable (_ ∨ _))

def booted : Kernel where
  ftable _ := { type := .FD_NONE, ref := 0, readable := false, writable := false, pipe := 0,
                ip := 0, off := 0 }
  ptable := update
    (fun _ => { state := .UNUSED, pid := 0, parent := none, ofile := fun _ => none, cwd := none })
    0 { state := .RUNNABLE, pid := 1, parent := none, ofile := fun _ => none, cwd := some ROOTINO }
  initproc := 0
  nextpid := 2

def files : System Kernel (Fin NPROC × Call) where
  init k := k = booted
  step k a := if Runs k a.1 then (syscall k a.1 a.2).toOption.map Prod.fst else none

theorem Runs.live (h : Runs k p) : ¬ Vacant (k.ptable p).state := by
  rcases h with h | h <;> simp [h, Vacant]

theorem kept_syscall (h : Owned k []) (hruns : Runs k p) (c : Call) : Kept (syscall k p c) := by
  cases c with
  | dup => exact kept_sysDup h hruns.live
  | close => exact kept_sysClose h
  | openIp => exact kept_sysOpen h hruns.live
  | pipe => exact kept_sysPipe h hruns.live
  | read => exact kept_sysRead h
  | write => exact kept_sysWrite h
  | fork => exact kept_fork h
  | exit => exact kept_exit h
  | wait =>
    rcases hw : wait k p with _ | ⟨k', r⟩
    · simpa only [syscall, hw, getD_none, Kept] using h
    · simpa only [syscall, hw, getD_some, Kept] using kept_wait h hw

theorem owned_booted : Owned booted [] := by
  have hempty : ∀ p fd, booted.ofile p fd = none := by
    intro p fd
    unfold Kernel.ofile booted
    by_cases hp : p = 0
    · subst hp; simp
    · simp [hp]
  refine ⟨fun f => ?_, fun _ _ => rfl, fun p _ fd => hempty p fd⟩
  have hzero : refs booted f = 0 := tally_eq_zero fun p => tally_eq_zero fun fd => by
    rw [show (booted.ptable p).ofile fd = none from hempty p fd, slotRef_none]
  rw [hzero]
  rfl

theorem owned_of_reached (h : files.Reached k) : Owned k [] := by
  refine h.invariant (I := fun k => Owned k []) (fun k h0 => ?_) (fun k a k' hk _ hs => ?_)
  · rw [show k = booted from h0]
    exact owned_booted
  obtain ⟨hruns, hs⟩ := ite_none_right_eq_some.mp hs
  have hkept := kept_syscall hk hruns a.2
  rcases hres : syscall k a.1 a.2 with e | ⟨k1, r⟩
  · rw [hres] at hs; cases hs
  · rw [hres] at hs hkept
    cases hs
    exact hkept

/-- **Open-file reference counting.** Between the system calls of any interleaving, every
`ref` is the number of descriptor slots that point to the entry, a free entry is
FD_NONE, no slot points to a free entry, and no call can reach the panics of
`filedup` and `fileclose`. -/
theorem file_refs_exact {k : Kernel} (h : files.Reached k) :
    (∀ f, (k.ftable f).ref = refs k f) ∧
    (∀ f, (k.ftable f).ref = 0 → (k.ftable f).type = .FD_NONE) ∧
    (∀ p fd f, k.ofile p fd = some f → (k.ftable f).ref ≠ 0) ∧
    (∀ p c, Runs k p → syscall k p c ≠ .error (.panic "filedup") ∧
      syscall k p c ≠ .error (.panic "fileclose")) := by
  have howned := owned_of_reached h
  refine ⟨fun f => ?_, howned.idle, fun p fd f hslot => ?_, fun p c hruns => ?_⟩
  · simpa using howned.exact f
  · have hpos := howned.exact.ref_pos_of_slot hslot
    omega
  have hkept := kept_syscall howned hruns c
  constructor
  · intro herr
    rw [herr] at hkept
    exact hkept.1 rfl
  · intro herr
    rw [herr] at hkept
    exact hkept.2 rfl

/-- After an open, a dup, a fork and a close in the child, three slots are counted. -/
theorem file_refs_exact_shared :
    ∃ k, files.Reached k ∧ (k.ftable 0).ref = 3 ∧ refs k 0 = 3 := by
  obtain ⟨k, hrun, href⟩ : ∃ k, files.run (fun _ _ => True) booted
      [(0, .openIp (some 5) O_RDWR), (0, .dup fun _ => some 0), (0, .fork true true),
        (1, .close fun _ => some 1)] = some k ∧ (k.ftable 0).ref = 3 := ⟨_, rfl, rfl⟩
  have hreached := System.Reachable.run (.init rfl) _ hrun
  exact ⟨k, hreached, href, (file_refs_exact hreached).1 0 ▸ href⟩

end Xv6
