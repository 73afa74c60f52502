import Mathlib.Data.Fin.Basic
import Mathlib.Data.Nat.ModEq

/-!
**A ring of `N` slots with free-running 32-bit counters.**

`nread` and `nwrite` count what has been taken out and put in, modulo 2^32; the slot of a
count is its remainder modulo `N`. `Carries r xs k` relates a ring to its history: `xs` is
everything ever put in, of which the first `k` have been taken out. The counters wrap, the
history does not; the two agree because `N` divides 2^32 and at most `N` elements are inside.
-/

namespace Fifo

variable {N : Nat} [NeZero N] {α : Type}

structure Ring (N : Nat) (α : Type) where
  data : Fin N → α
  nread : UInt32
  nwrite : UInt32

namespace Ring

/-- The slot a count falls on. -/
def slot (N : Nat) [NeZero N] (c : UInt32) : Fin N := Fin.ofNat N c.toNat

def IsFull (r : Ring N α) : Prop := r.nwrite = r.nread + UInt32.ofNat N

def IsEmpty (r : Ring N α) : Prop := r.nread = r.nwrite

instance (r : Ring N α) : Decidable r.IsFull := inferInstanceAs (Decidable (_ = _))

instance (r : Ring N α) : Decidable r.IsEmpty := inferInstanceAs (Decidable (_ = _))

def put (r : Ring N α) (a : α) : Ring N α :=
  { r with data := Function.update r.data (slot N r.nwrite) a, nwrite := r.nwrite + 1 }

def unput (r : Ring N α) : Ring N α := { r with nwrite := r.nwrite - 1 }

def front (r : Ring N α) : α := r.data (slot N r.nread)

def advance (r : Ring N α) : Ring N α := { r with nread := r.nread + 1 }

end Ring

/-! ### The history of a ring -/

/-- `xs` has been put into `r`, and the first `k` of `xs` have been taken out. -/
structure Carries (r : Ring N α) (xs : List α) (k : Nat) : Prop where
  nread : r.nread = UInt32.ofNat k
  nwrite : r.nwrite = UInt32.ofNat xs.length
  taken : k ≤ xs.length
  room : xs.length ≤ k + N
  data : ∀ j a, k ≤ j → xs[j]? = some a → r.data (Fin.ofNat N j) = a

namespace Carries

variable {r : Ring N α} {xs : List α} {k : Nat}

theorem slot_ofNat (hN : N ∣ 2 ^ 32) (j : Nat) : Ring.slot N (UInt32.ofNat j) = Fin.ofNat N j := by
  apply Fin.ext
  exact Nat.mod_mod_of_dvd j hN

theorem ofNat_inj {a b : Nat} (hab : a ≤ b) (hlt : b < a + 2 ^ 32) :
    UInt32.ofNat a = UInt32.ofNat b ↔ a = b := by
  constructor
  · intro h
    have h1 : a % 2 ^ 32 = b % 2 ^ 32 := by
      simpa [UInt32.toNat_ofNat'] using congrArg UInt32.toNat h
    omega
  · rintro rfl
    rfl

/-- The distance of two counts less than 2^32 apart, as it is read off their 32-bit readings. -/
theorem toNat_sub_ofNat {a b : Nat} (hab : a ≤ b) (hlt : b < a + 2 ^ 32) :
    (UInt32.ofNat b - UInt32.ofNat a).toNat = b - a := by
  have hsum : UInt32.ofNat b = UInt32.ofNat (b - a) + UInt32.ofNat a := by
    rw [← UInt32.ofNat_add, Nat.sub_add_cancel hab]
  rw [hsum, UInt32.add_sub_cancel]
  apply Nat.mod_eq_of_lt
  omega

theorem eq_ofNat_add (i : UInt32) (a : Nat) :
    i = UInt32.ofNat (a + (i - UInt32.ofNat a).toNat) := by
  rw [UInt32.ofNat_add, UInt32.ofNat_toNat, UInt32.add_comm, UInt32.sub_add_cancel]

variable (hN : N < 2 ^ 32)
include hN

theorem isEmpty_iff (h : Carries r xs k) : r.IsEmpty ↔ k = xs.length := by
  rw [Ring.IsEmpty, h.nread, h.nwrite]
  apply ofNat_inj h.taken
  have := h.room
  omega

theorem isFull_iff (h : Carries r xs k) : r.IsFull ↔ xs.length = k + N := by
  rw [Ring.IsFull, h.nread, h.nwrite, ← UInt32.ofNat_add]
  apply ofNat_inj h.room
  have := h.taken
  omega

theorem size (h : Carries r xs k) : (r.nwrite - r.nread).toNat = xs.length - k := by
  have htaken := h.taken
  have hroom := h.room
  rw [h.nwrite, h.nread]
  exact toNat_sub_ofNat htaken (by omega)

theorem put (hd : N ∣ 2 ^ 32) (h : Carries r xs k) (hfull : ¬ r.IsFull) (a : α) :
    Carries (r.put a) (xs ++ [a]) k := by
  have hroom : xs.length < k + N := by
    rw [h.isFull_iff hN] at hfull
    have := h.room
    omega
  refine ⟨h.nread, ?_, ?_, ?_, ?_⟩
  · simp [Ring.put, h.nwrite]
  · simpa using Nat.le_succ_of_le h.taken
  · simpa using Nat.succ_le_of_lt hroom
  intro j b hj hb
  simp only [Ring.put, h.nwrite, slot_ofNat hd]
  rcases Nat.lt_trichotomy j xs.length with hlt | heq | hgt
  · -- an older element: fewer than `N` behind the new one, so in another slot
    have hne : Fin.ofNat N j ≠ Fin.ofNat N xs.length := by
      intro he
      have h1 : j % N = xs.length % N := by simpa [Fin.ofNat] using he
      have h2 : N ∣ xs.length - j := (Nat.modEq_iff_dvd' hlt.le).mp h1
      have h3 := Nat.eq_zero_of_dvd_of_lt h2 (by omega)
      omega
    rw [Function.update_of_ne hne]
    rw [List.getElem?_append_left hlt] at hb
    exact h.data j b hj hb
  · subst heq
    simpa using hb
  · rw [List.getElem?_eq_none (by simpa using Nat.succ_le_of_lt hgt)] at hb
    cases hb

omit hN

theorem unput {a : α} (h : Carries r (xs ++ [a]) k) (hk : k ≤ xs.length) :
    Carries r.unput xs k := by
  have hlen : (xs ++ [a]).length = xs.length + 1 := List.length_append
  refine ⟨h.nread, ?_, hk, ?_, ?_⟩
  · rw [Ring.unput, h.nwrite, hlen, UInt32.ofNat_add]
    exact UInt32.add_sub_cancel _ _
  · have := h.room
    omega
  · intro j b hj hb
    have hlt : j < xs.length := (List.getElem?_eq_some_iff.mp hb).1
    exact h.data j b hj ((List.getElem?_append_left hlt).trans hb)

theorem data_getElem (h : Carries r xs k) {j : Nat} (hj : k ≤ j) (hlt : j < xs.length) :
    r.data (Fin.ofNat N j) = xs[j] :=
  h.data j xs[j] hj (List.getElem?_eq_getElem hlt)

theorem advance (hN : N < 2 ^ 32) (hd : N ∣ 2 ^ 32) (h : Carries r xs k) (hne : ¬ r.IsEmpty) :
    xs[k]? = some r.front ∧ Carries r.advance xs (k + 1) := by
  have hlt : k < xs.length := by
    rw [h.isEmpty_iff hN] at hne
    exact Nat.lt_of_le_of_ne h.taken hne
  refine ⟨?_, ?_, h.nwrite, hlt, ?_, fun j a hj => h.data j a (by omega)⟩
  · rw [List.getElem?_eq_getElem hlt]
    have h1 := h.data k xs[k] (le_refl k) (List.getElem?_eq_getElem hlt)
    rw [Ring.front, h.nread, slot_ofNat hd, h1]
  · simp [Ring.advance, h.nread]
  · have := h.room
    omega

end Carries

end Fifo
