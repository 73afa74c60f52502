import Xv6.FileRefs

/-!
**When does `sys_dup2` do what `dup2` is meant to do?**

`sys_dup2` differs from its contract in three places. `argfd` leaves `newfd` unset when that
descriptor is not open, and the value the variable happens to hold is then used as an index and
returned; a `newfd` out of range takes the same path and is not refused; and for `newfd = oldfd`
the file is closed before it is dupped, so a last reference panics in `filedup`.
-/

namespace Xv6

/-- The contract of `dup2(oldfd, newfd)`, as a relation between the state before the call and
its outcome. -/
def Dup2Contract (k : Kernel) (p : Fin NPROC) (oldfd newfd : Int)
    (res : Except Fault (Kernel × Int)) : Prop :=
  match openFd k p oldfd, slot newfd with
  | some (_, f), some i =>
      ∃ k', res = .ok (k', newfd) ∧ k'.ofile p i = some f ∧
        (∀ q fd, ¬ (q = p ∧ fd = i) → k'.ofile q fd = k.ofile q fd) ∧
        ∀ g, (k'.ftable g).ref = refs k' g
  | _, _ => res = .ok (k, -1)

/-- `oldfd` is not open; or `newfd` is open too, and differs from `oldfd` or has another
reference. -/
def dup2Safe (k : Kernel) (p : Fin NPROC) (oldfd newfd : Int) : Bool :=
  match openFd k p oldfd, openFd k p newfd with
  | none, _ => true
  | some (_, f), some _ => newfd ≠ oldfd || 2 ≤ (k.ftable f).ref
  | some _, none => false

section

variable {k : Kernel} {p : Fin NPROC} {args : Nat → Option Int} {oldfd newfd : Int}
  {i j : Fin NOFILE} {f : Fin NFILE}

theorem setSlot_setSlot (k : Kernel) (p : Fin NPROC) (fd : Fin NOFILE)
    (o o' : Option (Fin NFILE)) : (k.setSlot p fd o).setSlot p fd o' = k.setSlot p fd o' := by
  simp [Kernel.setSlot, Kernel.setProc]

variable (h : RefsExact k [])
include h

theorem two_le_ref (hij : i ≠ j) (hi : k.ofile p i = some f) (hj : k.ofile p j = some f) :
    2 ≤ (k.ftable f).ref := by
  have htaken := h.take hj
  have hslot : (k.setSlot p j none).ofile p i = some f := by
    rw [ofile_setSlot, if_neg (by simp [hij])]
    exact hi
  have hpos := refs_pos hslot
  have href := htaken f
  rw [ftable_setSlot, List.count_cons_self] at href
  omega

theorem sysDup2_of_not_open (hold : argfd k p args 0 = some (i, f)) (hnew : argfd k p args 1 = none)
    (unset : Int) :
    sysDup2 k p args unset =
      (setOfile (k.setFile f (dupped (k.ftable f))) p unset (some f)).map fun k' => (k', unset) := by
  have hslot := argfd_eq_some hold
  simp only [sysDup2, hold, dup2Close, hnew, bind, Except.bind,
    filedup_eq (h.ref_pos_of_slot hslot), ofile_setFile, hslot]
  rcases setOfile (k.setFile f (dupped (k.ftable f))) p unset (some f) with _ | k' <;> rfl

theorem sysDup2_of_open {g : Fin NFILE} (hold : argfd k p args 0 = some (i, f))
    (hnew : argfd k p args 1 = some (j, g)) (unset : Int) :
    sysDup2 k p args unset =
      (filedup (k.setFile g (closed (k.ftable g))) f).map
        fun k' => (k'.setSlot p j (some f), (j.val : Int)) := by
  obtain ⟨d, hclose⟩ := fileclose_eq (h.ref_pos_of_slot (argfd_eq_some hnew))
  have hslot := argfd_eq_some hold
  have hj : slot (j.val : Int) = some j := by
    unfold slot
    simp
  simp only [sysDup2, hold, dup2Close, hnew, bind, Except.bind, hclose, pure, Except.pure]
  by_cases hfree : ((k.setFile g (closed (k.ftable g))).ftable f).ref < 1
  · simp only [filedup_panics hfree]; rfl
  · simp only [filedup_eq (Int.not_lt.mp hfree), setOfile, hj, ofile_setFile, hslot]; rfl

/-- The file of `oldfd` survives the close of `newfd`. -/
theorem ref_pos_after_close {g : Fin NFILE} (hi : k.ofile p i = some f) (hj : k.ofile p j = some g)
    (hsafe : i ≠ j ∨ 2 ≤ (k.ftable f).ref) :
    1 ≤ ((k.setFile g (closed (k.ftable g))).ftable f).ref := by
  by_cases hfg : f = g
  · subst hfg
    have htwo : 2 ≤ (k.ftable f).ref := by
      rcases hsafe with hij | htwo
      · exact two_le_ref h hij hi hj
      · exact htwo
    simp only [Kernel.setFile, Function.update_self]
    rw [closed_ref (by omega)]
    omega
  · simp only [Kernel.setFile, Function.update_of_ne hfg]
    exact h.ref_pos_of_slot hi

theorem refsExact_replace {g : Fin NFILE} (hj : k.ofile p j = some g) :
    RefsExact (((k.setFile g (closed (k.ftable g))).setFile f
      (dupped ((k.setFile g (closed (k.ftable g))).ftable f))).setSlot p j (some f)) [] := by
  have hempty : (k.setSlot p j none).ofile p j = none := by rw [ofile_setSlot, if_pos ⟨rfl, rfl⟩]
  have hdup := (h.take hj).close.dup (f := f)
  have hstore := hdup.store hempty
  rwa [show ∀ e e', (((k.setSlot p j none).setFile g e).setFile f e').setSlot p j (some f) =
      ((k.setFile g e).setFile f e').setSlot p j (some f) from fun e e' =>
        setSlot_setSlot ((k.setFile g e).setFile f e') p j none (some f)] at hstore

omit h

/-- **`sys_dup2` meets its contract exactly on the safe arguments**, if the value of the
unset variable is not to matter. -/
theorem dup2_meets_contract_iff (h : RefsExact k []) (h0 : args 0 = some oldfd)
    (h1 : args 1 = some newfd) :
    (∀ unset, Dup2Contract k p oldfd newfd (sysDup2 k p args unset)) ↔
      dup2Safe k p oldfd newfd = true := by
  have harg0 : argfd k p args 0 = openFd k p oldfd := by simp [argfd, h0]
  have harg1 : argfd k p args 1 = openFd k p newfd := by simp [argfd, h1]
  unfold Dup2Contract dup2Safe
  rcases hold : openFd k p oldfd with _ | ⟨i, f⟩
  · simp [sysDup2, harg0, hold]
  obtain ⟨hsloti, hi⟩ := openFd_eq_some hold
  rcases hnew : openFd k p newfd with _ | ⟨j, g⟩
  · -- the variable may be out of range
    simp only [Bool.false_eq_true, iff_false, not_forall]
    refine ⟨-1, ?_⟩
    rw [sysDup2_of_not_open h (harg0.trans hold) (harg1.trans hnew)]
    rcases slot newfd with _ | j
    · intro hres
      cases hres
    · rintro ⟨k', hres, -⟩
      cases hres
  · obtain ⟨hslotj, hj⟩ := openFd_eq_some hnew
    simp only [hslotj, sysDup2_of_open h (harg0.trans hold) (harg1.trans hnew), forall_const,
      Bool.or_eq_true, decide_eq_true_eq]
    constructor
    · rintro ⟨k', hres, -⟩
      by_contra hunsafe
      obtain ⟨hsame, hone⟩ := not_or.mp hunsafe
      rw [not_not.mp hsame, hold] at hnew
      cases hnew
      -- the only reference is gone when `filedup` runs
      have hpos := h.ref_pos_of_slot hi
      have hfree : ((k.setFile f (closed (k.ftable f))).ftable f).ref < 1 := by
        simp only [Kernel.setFile, Function.update_self]
        rw [closed_ref hpos]
        omega
      rw [filedup_panics hfree] at hres
      cases hres
    · intro hsafe
      have hij : i ≠ j ∨ 2 ≤ (k.ftable f).ref := by
        refine hsafe.imp_left fun hne heq => hne ?_
        rw [slot_eq_some hsloti, slot_eq_some hslotj, heq]
      rw [filedup_eq (ref_pos_after_close h hi hj hij)]
      refine ⟨_, by rw [slot_eq_some hslotj]; rfl, ?_, fun q fd hne => ?_, fun g' => ?_⟩
      · rw [ofile_setSlot, if_pos ⟨rfl, rfl⟩]
      · rw [ofile_setSlot, if_neg hne]
        rfl
      · simpa using refsExact_replace h hj g'

end

def openAt (k : Kernel) (f : Fin NFILE) (fd : Fin NOFILE) : Kernel :=
  (k.setFile f { k.ftable f with type := .FD_INODE, ref := 1, readable := true, ip := 5 }).setSlot
    0 fd (some f)

theorem refsExact_openAt {k : Kernel} {f : Fin NFILE} {fd : Fin NOFILE} (h : RefsExact k [])
    (hfree : (k.ftable f).ref = 0) (hslot : k.ofile 0 fd = none) :
    RefsExact (openAt k f fd) [] := by
  refine RefsExact.store (h.setFile ?_ fun g hg => ?_) hslot
  · rw [hfree, List.count_cons_self]
    rfl
  · rw [List.count_cons_of_ne (Ne.symm hg)]

/-- Replacing descriptor 1 by descriptor 0. -/
theorem dup2_meets_contract_two_open :
    dup2Safe (openAt (openAt booted 0 0) 1 1) 0 0 1 = true ∧
    ∀ unset, Dup2Contract (openAt (openAt booted 0 0) 1 1) 0 0 1
      (sysDup2 (openAt (openAt booted 0 0) 1 1) 0 (fun n => [0, 1][n]?) unset) := by
  have hexact : RefsExact (openAt (openAt booted 0 0) 1 1) [] :=
    refsExact_openAt (refsExact_openAt owned_booted.exact rfl rfl) rfl rfl
  have hsafe : dup2Safe (openAt (openAt booted 0 0) 1 1) 0 0 1 = true := by decide
  exact ⟨hsafe, (dup2_meets_contract_iff hexact rfl rfl).mpr hsafe⟩

/-- **`dup2` of a descriptor onto itself panics**, and an out-of-range `newfd` is not
refused, whatever the unset variable holds. -/
theorem dup2_breaks_contract :
    RefsExact (openAt booted 0 0) [] ∧
    (∀ unset, sysDup2 (openAt booted 0 0) 0 (fun n => [0, 0][n]?) unset =
      .error (.panic "filedup")) ∧
    (∀ unset, ¬ Dup2Contract (openAt booted 0 0) 0 0 0
      (sysDup2 (openAt booted 0 0) 0 (fun n => [0, 0][n]?) unset)) ∧
    (∀ unset, ¬ Dup2Contract (openAt booted 0 0) 0 0 NOFILE
      (sysDup2 (openAt booted 0 0) 0 (fun n => [0, (NOFILE : Int)][n]?) unset)) := by
  have hexact : RefsExact (openAt booted 0 0) [] := refsExact_openAt owned_booted.exact rfl rfl
  have hpanic : ∀ unset, sysDup2 (openAt booted 0 0) 0 (fun n => [0, 0][n]?) unset =
      .error (.panic "filedup") := fun unset => rfl
  refine ⟨hexact, hpanic, fun unset hdone => ?_, fun unset hdone => ?_⟩
  · obtain ⟨k', hres, -⟩ := hdone
    cases hres
  -- out of range, the contract asks for -1 and the old state
  have hres : (setOfile _ 0 unset (some 0)).map _ = .ok (openAt booted 0 0, -1) := hdone
  unfold setOfile at hres
  rcases hslot : slot unset with _ | j
  · rw [hslot] at hres; cases hres
  rw [hslot] at hres
  have hminus : unset = -1 := (Prod.mk.inj (Except.ok.inj hres)).2
  have hindex := slot_eq_some hslot
  omega

end Xv6
