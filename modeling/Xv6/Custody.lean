import Mathlib.Data.List.Nodup

/-!
**Cells in a pool or with a holder.**

A pool hands out cells and takes them back. `own r` is the cell that holder `r` has, if any.
Custody is exclusive when no cell is in the pool twice, none is with two holders, and none is
both in the pool and with a holder.

A cell passes from the pool to a holder and back by way of a hand: it is drawn, and is loose
until it is placed; it is lifted, and is loose until it is refunded. `Accounted` are the cells in
the pool or with a holder; drawing and lifting take one out of them, placing and refunding put
it back, so what is kept tells whether a cell has been lost.
-/

namespace Custody

open Function

variable {R C : Type}

structure Exclusive (own : R → Option C) (pool : List C) : Prop where
  once : ∀ r r' c, own r = some c → own r' = some c → r = r'
  apart : ∀ r c, own r = some c → c ∉ pool
  nodup : pool.Nodup

/-- The cell is in the pool or with a holder. -/
def Accounted (own : R → Option C) (pool : List C) (c : C) : Prop := c ∈ pool ∨ ∃ r, own r = some c

variable {own : R → Option C} {pool : List C} {c : C} {r : R}

theorem Accounted.ofPool (h : c ∈ pool) : Accounted own pool c := .inl h

theorem Accounted.ofOwn (h : own r = some c) : Accounted own pool c := .inr ⟨r, h⟩

theorem Exclusive.mem_pool_iff (h : Exclusive own pool) :
    c ∈ pool ↔ Accounted own pool c ∧ ∀ r, own r ≠ some c := by
  constructor
  · intro hc
    exact ⟨.ofPool hc, fun r hr => h.apart r c hr hc⟩
  · rintro ⟨hc | ⟨r, hr⟩, hnone⟩
    · exact hc
    · exact absurd hr (hnone r)

/-! ### Out of the pool and out of a holder's hands -/

theorem Exclusive.draw (h : Exclusive own (c :: pool)) : Exclusive own pool := by
  constructor
  · exact h.once
  · exact fun r c' hr hc => h.apart r c' hr (List.mem_cons_of_mem c hc)
  · exact (List.nodup_cons.mp h.nodup).2

theorem Exclusive.loose_of_draw (h : Exclusive own (c :: pool)) : ¬ Accounted own pool c := by
  rintro (hc | ⟨r, hr⟩)
  · exact (List.nodup_cons.mp h.nodup).1 hc
  · exact h.apart r c hr List.mem_cons_self

theorem accounted_draw {c' : C} : Accounted own (c :: pool) c' ↔ c' = c ∨ Accounted own pool c' := by
  simp only [Accounted, List.mem_cons, or_assoc]

variable [DecidableEq R]

theorem Exclusive.lift (h : Exclusive own pool) :
    Exclusive (update own r none) pool := by
  have hsub : ∀ {r' c'}, update own r none r' = some c' → own r' = some c' := by
    intro r' c' hr'
    by_cases hrr : r' = r
    · rw [hrr, update_self] at hr'
      cases hr'
    · rwa [update_of_ne hrr] at hr'
  constructor
  · exact fun r1 r2 c' h1 h2 => h.once r1 r2 c' (hsub h1) (hsub h2)
  · exact fun r1 c' h1 => h.apart r1 c' (hsub h1)
  · exact h.nodup

theorem Exclusive.loose_of_lift (h : Exclusive own pool) (hr : own r = some c) :
    ¬ Accounted (update own r none) pool c := by
  rintro (hc | ⟨r', hr'⟩)
  · exact h.apart r c hr hc
  by_cases hrr : r' = r
  · rw [hrr, update_self] at hr'
    cases hr'
  · rw [update_of_ne hrr] at hr'
    exact hrr (h.once r' r c hr' hr)

theorem accounted_lift (hr : own r = some c) {c' : C} :
    Accounted own pool c' ↔ c' = c ∨ Accounted (update own r none) pool c' := by
  constructor
  · rintro (hc | ⟨r', hr'⟩)
    · exact .inr (.inl hc)
    by_cases hrr : r' = r
    · rw [hrr, hr, Option.some.injEq] at hr'
      exact .inl hr'.symm
    · exact .inr (.inr ⟨r', by rwa [update_of_ne hrr]⟩)
  · rintro (rfl | hc | ⟨r', hr'⟩)
    · exact .ofOwn hr
    · exact .inl hc
    by_cases hrr : r' = r
    · rw [hrr, update_self] at hr'
      cases hr'
    · rw [update_of_ne hrr] at hr'
      exact .ofOwn hr'

/-! ### To a holder and into the pool -/

theorem accounted_place (hr : own r = none) {c' : C} :
    Accounted (update own r (some c)) pool c' ↔ c' = c ∨ Accounted own pool c' := by
  have heq : update (update own r (some c)) r none = own := by
    rw [update_idem, ← hr, update_eq_self]
  rw [accounted_lift (update_self ..), heq]

theorem Exclusive.place (h : Exclusive own pool) (hc : ¬ Accounted own pool c) :
    Exclusive (update own r (some c)) pool := by
  have hown : ∀ r', own r' ≠ some c := fun r' hr' => hc (.ofOwn hr')
  constructor
  · intro r1 r2 c' h1 h2
    by_cases hr1 : r1 = r
    · by_cases hr2 : r2 = r
      · rw [hr1, hr2]
      · rw [hr1, update_self] at h1
        rw [update_of_ne hr2, ← h1] at h2
        exact absurd h2 (hown r2)
    · rw [update_of_ne hr1] at h1
      by_cases hr2 : r2 = r
      · rw [hr2, update_self] at h2
        rw [← h2] at h1
        exact absurd h1 (hown r1)
      · rw [update_of_ne hr2] at h2
        exact h.once r1 r2 c' h1 h2
  · intro r1 c' h1 hmem
    by_cases hr1 : r1 = r
    · rw [hr1, update_self, Option.some.injEq] at h1
      exact hc (.ofPool (h1 ▸ hmem))
    · rw [update_of_ne hr1] at h1
      exact h.apart r1 c' h1 hmem
  · exact h.nodup

omit [DecidableEq R] in
theorem Exclusive.refund (h : Exclusive own pool) (hc : ¬ Accounted own pool c) :
    Exclusive own (c :: pool) := by
  constructor
  · exact h.once
  · intro r c' hr hmem
    rcases List.mem_cons.mp hmem with rfl | hmem
    · exact hc (.ofOwn hr)
    · exact h.apart r c' hr hmem
  · exact List.nodup_cons.mpr ⟨fun hmem => hc (.ofPool hmem), h.nodup⟩

end Custody
