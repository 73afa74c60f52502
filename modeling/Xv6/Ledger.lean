import Mathlib.Logic.Function.Basic

/-!
**Cells held by references.**

A store has cells `0 ≤ b < hi`, those below `lo` reserved, and a set `used` of cells in
use. References hold cells: `own r` is the cell of `r`, and 0 says that `r` holds none.
Cells that are in use but not yet, or no longer, held by a reference are in `hand`.

The ledger balances when exactly the reserved, the held and the cells in hand are in
use, and no cell is held twice. It still balances after a free cell is taken by a
reference, after references let go of their cells, and after a cell in hand is freed.
-/

namespace Ledger

open Function

variable {R : Type}

structure Balanced (lo hi : Nat) (used : Nat → Prop) (own : R → Nat) (hand : Nat → Prop) :
    Prop where
  pos : 0 < lo
  range : ∀ r, own r ≠ 0 → lo ≤ own r ∧ own r < hi
  once : ∀ r r', own r = own r' → own r ≠ 0 → r = r'
  inHand : ∀ b, hand b → lo ≤ b ∧ b < hi ∧ ∀ r, own r ≠ b
  marks : ∀ b, b < hi → (used b ↔ b < lo ∨ hand b ∨ ∃ r, own r = b)

namespace Balanced

variable {lo hi b : Nat} {used used' hand hand' : Nat → Prop} {own own' : R → Nat}

variable (h : Balanced lo hi used own hand)
include h

theorem congr (hused : ∀ b, b < hi → (used' b ↔ used b)) (hown : ∀ r, own' r = own r)
    (hhand : ∀ b, hand' b ↔ hand b) : Balanced lo hi used' own' hand' := by
  have hown' : own' = own := funext hown
  have hhand' : hand' = hand := funext fun b => propext (hhand b)
  subst hown' hhand'
  exact { h with marks := fun b hb => (hused b hb).trans (h.marks b hb) }

theorem used_own {r : R} (hr : own r ≠ 0) : used (own r) :=
  (h.marks _ (h.range r hr).2).mpr (.inr (.inr ⟨r, rfl⟩))

theorem of_not_used (hb : b < hi) (hfree : ¬ used b) : lo ≤ b ∧ ¬ hand b ∧ ∀ r, own r ≠ b := by
  have hnone := fun hsome => hfree ((h.marks b hb).mpr hsome)
  constructor
  · exact Nat.le_of_not_lt fun hlt => hnone (.inl hlt)
  · constructor
    · exact fun hhand => hnone (.inr (.inl hhand))
    · exact fun r hr => hnone (.inr (.inr ⟨r, hr⟩))

/-- **Take.** A free cell goes to a reference that holds none. -/
theorem take [DecidableEq R] {r : R} (hr : own r = 0) (hb : b < hi) (hfree : ¬ used b)
    (hused : ∀ x, x < hi → (used' x ↔ used x ∨ x = b)) :
    Balanced lo hi used' (update own r b) hand := by
  obtain ⟨hlo, hnothand, hnotown⟩ := h.of_not_used hb hfree
  constructor
  · exact h.pos
  · intro r' hr'
    by_cases hrr : r' = r
    · subst hrr
      simpa using ⟨hlo, hb⟩
    · rw [update_of_ne hrr] at hr' ⊢
      exact h.range r' hr'
  · intro r1 r2 heq hne
    by_cases h1 : r1 = r
    · by_cases h2 : r2 = r
      · rw [h1, h2]
      · subst h1
        rw [update_self, update_of_ne h2] at heq
        exact absurd heq.symm (hnotown r2)
    · rw [update_of_ne h1] at heq hne
      by_cases h2 : r2 = r
      · subst h2
        rw [update_self] at heq
        exact absurd heq (hnotown r1)
      · rw [update_of_ne h2] at heq
        exact h.once r1 r2 heq hne
  · intro x hx
    obtain ⟨hxlo, hxhi, hxown⟩ := h.inHand x hx
    refine ⟨hxlo, hxhi, fun r' => ?_⟩
    by_cases hrr : r' = r
    · subst hrr
      rw [update_self]
      exact fun heq => hnothand (heq ▸ hx)
    · rw [update_of_ne hrr]
      exact hxown r'
  · intro x hx
    rw [hused x hx, h.marks x hx]
    constructor
    · rintro ((hlt | hhand | ⟨r', hr'⟩) | rfl)
      · exact .inl hlt
      · exact .inr (.inl hhand)
      · by_cases hrr : r' = r
        · -- `r` held nothing, so the cell is 0, a reserved one
          subst hrr
          have hpos := h.pos
          exact .inl (by omega)
        · exact .inr (.inr ⟨r', by rw [update_of_ne hrr]; exact hr'⟩)
      · exact .inr (.inr ⟨r, update_self ..⟩)
    · rintro (hlt | hhand | ⟨r', hr'⟩)
      · exact .inl (.inl hlt)
      · exact .inl (.inr (.inl hhand))
      by_cases hrr : r' = r
      · subst hrr
        rw [update_self] at hr'
        exact .inr hr'.symm
      · rw [update_of_ne hrr] at hr'
        exact .inl (.inr (.inr ⟨r', hr'⟩))

/-- **Let go.** The cells of the references in `S` are now in hand. -/
theorem letGo (S : R → Prop) (hin : ∀ r, S r → own' r = 0) (hout : ∀ r, ¬ S r → own' r = own r)
    (hhand : ∀ x, hand' x ↔ hand x ∨ x ≠ 0 ∧ ∃ r, S r ∧ own r = x) :
    Balanced lo hi used own' hand' := by
  have hcases : ∀ r, own' r ≠ 0 → ¬ S r ∧ own' r = own r := by
    intro r hr
    have hnot : ¬ S r := fun hS => hr (hin r hS)
    exact ⟨hnot, hout r hnot⟩
  constructor
  · exact h.pos
  · intro r hr
    obtain ⟨-, heq⟩ := hcases r hr
    rw [heq] at hr ⊢
    exact h.range r hr
  · intro r r' heq hr
    have hr' : own' r' ≠ 0 := heq ▸ hr
    rw [(hcases r hr).2] at heq hr
    rw [(hcases r' hr').2] at heq
    exact h.once r r' heq hr
  · intro x hx
    rcases (hhand x).mp hx with hold | ⟨hx0, r, hS, rfl⟩
    · obtain ⟨hlo, hhi, hown⟩ := h.inHand x hold
      refine ⟨hlo, hhi, fun r heq => ?_⟩
      have hpos := h.pos
      have hne : own' r ≠ 0 := by omega
      exact hown r ((hcases r hne).2 ▸ heq)
    · refine ⟨(h.range r hx0).1, (h.range r hx0).2, fun r' heq => ?_⟩
      obtain ⟨hnot, heq'⟩ := hcases r' (heq ▸ hx0)
      have hsame := h.once r r' (heq.symm.trans heq') hx0
      exact hnot (hsame ▸ hS)
  · intro x hx
    rw [h.marks x hx, hhand x]
    constructor
    · rintro (hlt | hold | ⟨r, rfl⟩)
      · exact .inl hlt
      · exact .inr (.inl (.inl hold))
      by_cases hr : own r = 0
      · have hpos := h.pos
        exact .inl (by omega)
      · by_cases hS : S r
        · exact .inr (.inl (.inr ⟨hr, r, hS, rfl⟩))
        · exact .inr (.inr ⟨r, hout r hS⟩)
    · rintro (hlt | (hold | ⟨-, r, -, rfl⟩) | ⟨r, rfl⟩)
      · exact .inl hlt
      · exact .inr (.inl hold)
      · exact .inr (.inr ⟨r, rfl⟩)
      by_cases hr : own' r = 0
      · have hpos := h.pos
        exact .inl (by omega)
      · exact .inr (.inr ⟨r, (hcases r hr).2.symm⟩)

theorem free (hb : hand b) (hused : ∀ x, x < hi → (used' x ↔ used x ∧ x ≠ b))
    (hhand : ∀ x, hand' x ↔ hand x ∧ x ≠ b) : Balanced lo hi used' own hand' := by
  obtain ⟨hlo, hhi, hown⟩ := h.inHand b hb
  constructor
  · exact h.pos
  · exact h.range
  · exact h.once
  · exact fun x hx => h.inHand x ((hhand x).mp hx).1
  · intro x hx
    rw [hused x hx, h.marks x hx, hhand x]
    constructor
    · rintro ⟨hlt | hold | hr, hne⟩
      · exact .inl hlt
      · exact .inr (.inl ⟨hold, hne⟩)
      · exact .inr (.inr hr)
    · rintro (hlt | ⟨hold, hne⟩ | ⟨r, rfl⟩)
      · exact ⟨.inl hlt, by omega⟩
      · exact ⟨.inr (.inl hold), hne⟩
      · exact ⟨.inr (.inr ⟨r, rfl⟩), hown r⟩

end Balanced

end Ledger
