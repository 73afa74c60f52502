import Mathlib.Algebra.Order.BigOperators.Group.Finset
import Mathlib.Data.Fintype.BigOperators
import Mathlib.Tactic.Ring

/-!
**Sums over finite tables.**

Many kernel invariants equate a counter with the number of table entries of some
kind. A table is a function on a finite index type; `tally w f` adds up a weight
over its entries, and the one fact every proof needs is what a point update does
to the sum (`tally_update`).
-/

namespace Tally

open Function Finset

variable {ι α : Type} [DecidableEq ι] {w : α → ℤ} {f : ι → α}

/-- The weight of a part of a table. -/
def tallyOn (S : Finset ι) (w : α → ℤ) (f : ι → α) : ℤ := ∑ i ∈ S, w (f i)

theorem tallyOn_update {S : Finset ι} (w : α → ℤ) (f : ι → α) {i : ι} (hi : i ∈ S) (a : α) :
    tallyOn S w (update f i a) = tallyOn S w f - w (f i) + w a := by
  have hcomp : ∀ j, w (update f i a j) =
      update (fun k => w (f k)) i (w a) j := by
    intro j
    by_cases hj : j = i
    · subst hj; simp
    · simp [hj]
  have hsplit : tallyOn S w f = w (f i) + ∑ j ∈ S \ {i}, w (f j) := by
    rw [tallyOn, ← sum_sdiff (singleton_subset_iff.mpr hi), sum_singleton, add_comm]
  rw [hsplit, tallyOn, sum_congr rfl fun j _ => hcomp j, sum_update_of_mem hi]
  ring

omit [DecidableEq ι] in
theorem tallyOn_nonneg {S : Finset ι} (h : ∀ i, 0 ≤ w (f i)) : 0 ≤ tallyOn S w f :=
  sum_nonneg fun i _ => h i

omit [DecidableEq ι] in
theorem le_tallyOn {S : Finset ι} (h : ∀ i, 0 ≤ w (f i)) {i : ι} (hi : i ∈ S) :
    w (f i) ≤ tallyOn S w f :=
  single_le_sum (fun i _ => h i) hi

variable [Fintype ι]

def tally (w : α → ℤ) (f : ι → α) : ℤ := ∑ i, w (f i)

/-- **Point update**: the old entry's weight goes, the new one's comes. -/
theorem tally_update (w : α → ℤ) (f : ι → α) (i : ι) (a : α) :
    tally w (update f i a) = tally w f - w (f i) + w a :=
  tallyOn_update w f (mem_univ i) a

theorem tally_update_le {i : ι} {a : α} (h : w a ≤ w (f i)) :
    tally w (update f i a) ≤ tally w f := by
  rw [tally_update]
  omega

omit [DecidableEq ι] in
theorem tally_congr {g : ι → α} (h : ∀ i, w (f i) = w (g i)) : tally w f = tally w g :=
  sum_congr rfl fun i _ => h i

omit [DecidableEq ι] in
theorem tally_nonneg (h : ∀ i, 0 ≤ w (f i)) : 0 ≤ tally w f :=
  tallyOn_nonneg h

omit [DecidableEq ι] in
theorem tally_eq_zero (h : ∀ i, w (f i) = 0) : tally w f = 0 :=
  sum_eq_zero fun i _ => h i

omit [DecidableEq ι] in
theorem le_tally (h : ∀ i, 0 ≤ w (f i)) (i : ι) : w (f i) ≤ tally w f :=
  le_tallyOn h (mem_univ i)

theorem add_le_tally (h : ∀ i, 0 ≤ w (f i)) {i j : ι} (hij : i ≠ j) :
    w (f i) + w (f j) ≤ tally w f := by
  rw [← sum_pair (f := fun i => w (f i)) hij]
  exact sum_le_univ_sum_of_nonneg h

omit [DecidableEq ι] in
theorem eq_zero_of_tally_eq_zero (h : ∀ i, 0 ≤ w (f i)) (h0 : tally w f = 0) (i : ι) :
    w (f i) = 0 := by
  have hle := le_tally h i
  have hge := h i
  omega

omit [DecidableEq ι] in
theorem exists_pos_of_tally_pos (h : 0 < tally w f) : ∃ i, 0 < w (f i) := by
  by_contra hno
  simp only [not_exists, not_lt] at hno
  exact absurd (sum_nonpos fun i _ => hno i) (not_le.mpr h)

end Tally
