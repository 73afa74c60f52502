import Mathlib.Data.List.Nodup

/-!
**Ordered atomic writes and crashes.**

A disk is a function from addresses to contents. Software hands it a list of
single-address writes; each is atomic and they take effect in order, so a crash
leaves the disk with some *prefix* of the list applied. The lemmas here say what
an address holds after a write list, with no assumption on what the addresses or
contents are: an address not written keeps its contents, and an address holds the
same after the list on two disks that agree there or on which it is written
(`applyWrites_congr`). So replaying a whole list over a disk on which any prefix of
it already took effect is the same as applying the list once.
-/

namespace Disk

variable {A V : Type} [DecidableEq A] {ws : List (A × V)}

def applyWrites : List (A × V) → (A → V) → A → V
  | [], d => d
  | w :: ws, d => applyWrites ws (Function.update d w.1 w.2)

/-- The disk found after a crash that let the first `k` writes through. -/
def crash (k : Nat) (ws : List (A × V)) (d : A → V) : A → V := applyWrites (ws.take k) d

@[simp] theorem applyWrites_nil (d : A → V) : applyWrites [] d = d := rfl

@[simp] theorem applyWrites_cons (w : A × V) (ws : List (A × V)) (d : A → V) :
    applyWrites (w :: ws) d = applyWrites ws (Function.update d w.1 w.2) := rfl

theorem applyWrites_append (ws vs : List (A × V)) (d : A → V) :
    applyWrites (ws ++ vs) d = applyWrites vs (applyWrites ws d) := by
  induction ws generalizing d with
  | nil => rfl
  | cons w ws ih => simp only [List.cons_append, applyWrites_cons, ih]

/-- **Frame rule.** An address that is not written keeps its contents. -/
theorem applyWrites_of_notMem {a : A} (h : a ∉ ws.map Prod.fst) (d : A → V) :
    applyWrites ws d a = d a := by
  induction ws generalizing d with
  | nil => rfl
  | cons w ws ih =>
    simp only [List.map_cons, List.mem_cons, not_or] at h
    rw [applyWrites_cons, ih h.2, Function.update_of_ne h.1]

theorem applyWrites_congr {a : A} {d e : A → V} (h : a ∉ ws.map Prod.fst → d a = e a) :
    applyWrites ws d a = applyWrites ws e a := by
  induction ws generalizing d e with
  | nil => exact h (by simp)
  | cons w ws ih =>
    refine ih fun hws => ?_
    by_cases ha : a = w.1
    · subst ha; simp
    · rw [Function.update_of_ne ha, Function.update_of_ne ha]
      exact h (by simp [ha, hws])

theorem applyWrites_of_mem (hnd : (ws.map Prod.fst).Nodup) {w : A × V} (hw : w ∈ ws) (d : A → V) :
    applyWrites ws d w.1 = w.2 := by
  induction ws generalizing d with
  | nil => cases hw
  | cons v ws ih =>
    simp only [List.map_cons, List.nodup_cons] at hnd
    rcases List.mem_cons.mp hw with rfl | hw
    · rw [applyWrites_cons, applyWrites_of_notMem hnd.1]
      simp
    · exact ih hnd.2 hw _

/-! ### Histories

What the users of a store were told and what they stored, newest first. -/

inductive Access (A V : Type) where
  | read (a : A) (v : V)
  | write (a : A) (v : V)

/-- What was last written to an address; `d` is what was there before. -/
def contents (d : A → V) : List (Access A V) → A → V
  | [] => d
  | .read _ _ :: h => contents d h
  | .write a v :: h => Function.update (contents d h) a v

/-- **The history of a plain array**: every read returned what was last written. -/
def Plain (d : A → V) : List (Access A V) → Prop
  | [] => True
  | .read a v :: h => contents d h a = v ∧ Plain d h
  | .write _ _ :: h => Plain d h

end Disk
