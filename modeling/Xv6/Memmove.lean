import Xv6.Param

/-!
**The two `memmove`s**: that of the kernel (`string.c`) and that of the user library (`ulib.c`).

Where the destination begins inside the source, a loop from the first byte on reads bytes it has
already written. The kernel's `memmove` goes backwards then; the user library's does not.
-/

namespace Xv6.Memmove

open Function

abbrev Mem := Nat → UInt8

/-- `while(n-- > 0) *d++ = *s++` -/
def copyUp (m : Mem) (d s : Nat) : Nat → Mem
  | 0 => m
  | n + 1 => copyUp (update m d (m s)) (d + 1) (s + 1) n

/-- `while(n-- > 0) *--d = *--s` -/
def copyDown (m : Mem) (d s : Nat) : Nat → Mem
  | 0 => m
  | n + 1 => copyDown (update m (d - 1) (m (s - 1))) (d - 1) (s - 1) n

/-- `memmove` of the kernel; `s + n` is a pointer. -/
def kernelMemmove (m : Mem) (dst src n : Nat) : Mem :=
  if src < dst ∧ dst < (src + n) % 2 ^ 32 then copyDown m (dst + n) (src + n) n
  else copyUp m dst src n

/-- `memmove` of the user library, whose `n` is an `int`. -/
def userMemmove (m : Mem) (dst src n : Nat) : Mem := copyUp m dst src (toInt32 n).toNat

def Moved (m : Mem) (dst src n : Nat) (m' : Mem) : Prop :=
  (∀ i < n, m' (dst + i) = m (src + i)) ∧ ∀ a, a < dst ∨ dst + n ≤ a → m' a = m a

variable {m : Mem} {d s n i : Nat}

theorem copyUp_outside {a : Nat} (h : a < d ∨ d + n ≤ a) : copyUp m d s n a = m a := by
  induction n generalizing m d s with
  | zero => rfl
  | succ n ih => rw [copyUp, ih (by omega), update_of_ne (by omega)]

/-- Going up, the byte read next has not been written. -/
theorem moved_copyUp (h : d ≤ s ∨ s + n ≤ d) : Moved m d s n (copyUp m d s n) := by
  refine ⟨fun i hi => ?_, fun a => copyUp_outside⟩
  induction n generalizing m d s i with
  | zero => cases hi
  | succ n ih =>
    rw [copyUp]
    cases i with
    | zero => exact (copyUp_outside (.inl (Nat.lt_succ_self d))).trans (update_self ..)
    | succ i =>
      have hne : s + 1 + i ≠ d := by omega
      have hstep := ih (m := update m d (m s)) (d := d + 1) (s := s + 1) (by omega) i
        (Nat.lt_of_succ_lt_succ hi)
      rwa [update_of_ne hne, Nat.add_right_comm d, Nat.add_right_comm s] at hstep

theorem moved_copyDown (h : s < d) : Moved m d s n (copyDown m (d + n) (s + n) n) := by
  induction n generalizing m with
  | zero => exact ⟨nofun, fun _ _ => rfl⟩
  | succ n ih =>
    obtain ⟨hin, hout⟩ := ih (m := update m (d + n) (m (s + n)))
    refine ⟨fun i hi => ?_, fun a ha => ?_⟩
    · rcases Nat.lt_succ_iff_lt_or_eq.mp hi with hlt | rfl
      · have hne : s + i ≠ d + n := by omega
        have hstep := hin i hlt
        rwa [update_of_ne hne] at hstep
      · have hstep := hout (d + i) (.inr (Nat.le_refl _))
        rwa [update_self] at hstep
    · have hstep := hout a (by omega)
      rwa [update_of_ne (by omega)] at hstep

/-- Going up to higher addresses, every byte is read as the loop leaves it. -/
theorem copyUp_repeats (h : s < d) (hi : i < n) :
    copyUp m d s n (d + i) = copyUp m d s n (s + i) := by
  induction n generalizing m d s i with
  | zero => cases hi
  | succ n ih =>
    rw [copyUp]
    cases i with
    | zero =>
      rw [copyUp_outside (.inl (by omega)), copyUp_outside (.inl (by omega))]
      exact (update_self ..).trans (update_of_ne h.ne ..).symm
    | succ i =>
      have hstep := ih (m := update m d (m s)) (d := d + 1) (s := s + 1) (Nat.succ_lt_succ h)
        (Nat.lt_of_succ_lt_succ hi)
      rwa [Nat.add_right_comm d, Nat.add_right_comm s] at hstep

theorem copyUp_self : copyUp m d d n = m := by
  induction n generalizing d with
  | zero => rfl
  | succ n ih => rw [copyUp, update_eq_self, ih]

theorem moved_kernelMemmove (hdst : d + n ≤ 2 ^ 32) : Moved m d s n (kernelMemmove m d s n) := by
  rw [kernelMemmove]
  split
  next hover => exact moved_copyDown hover.1
  next hover =>
    -- the end of a source that begins before the destination is an address
    refine moved_copyUp (or_iff_not_imp_left.mpr fun hlt => ?_)
    rw [Nat.mod_eq_of_lt (by omega)] at hover
    omega

/-- Where `userMemmove` fails, the first byte of the destination stays or is lost. -/
theorem byte_eq_of_moved (hbad : 2 ^ 31 ≤ n ∨ s < d ∧ d < s + n) (hn : n < 2 ^ 32)
    (h : Moved m d s n (userMemmove m d s n)) : m s = m d := by
  rw [userMemmove, toInt32] at h
  split at h
  next hlt =>
    obtain ⟨hsd, hds⟩ := hbad.resolve_left hlt.not_ge
    have hpos : 0 < n := by omega
    have hback : s + (d - s) = d := Nat.add_sub_cancel' hsd.le
    rw [Int.toNat_natCast] at h
    have hlost := h.1 (d - s) (by omega)
    rw [copyUp_repeats hsd (by omega), hback] at hlost
    rw [← hlost]
    exact ((copyUp_repeats hsd hpos).trans (copyUp_outside (.inl hsd))).symm
  · rw [Int.toNat_of_nonpos (by omega)] at h
    exact (h.1 0 (by omega)).symm

/-- **The two `memmove`s**: the kernel's always moves, the user library's exactly if the number of
bytes is positive as an `int` and the destination does not begin inside the source, or if there
is nothing to move. -/
theorem memmoves_move_iff (hdst : d + n ≤ 2 ^ 32) (hn : n < 2 ^ 32) :
    (∀ m, Moved m d s n (kernelMemmove m d s n)) ∧
    ((∀ m, Moved m d s n (userMemmove m d s n)) ↔
      s = d ∨ n < 2 ^ 31 ∧ (d ≤ s ∨ s + n ≤ d)) := by
  refine ⟨fun m => moved_kernelMemmove hdst, fun hall => ?_, ?_⟩
  · by_contra hbad
    obtain ⟨hne, hbad⟩ := not_or.mp hbad
    have heq := byte_eq_of_moved (by omega) hn (hall (update (fun _ => 0) s 1))
    rw [update_self, update_of_ne (Ne.symm hne)] at heq
    cases heq
  · rintro (rfl | ⟨hlt, hapart⟩) m
    · rw [userMemmove, copyUp_self]
      exact ⟨fun _ _ => rfl, fun _ _ => rfl⟩
    · rw [userMemmove, toInt32_of_lt hlt]
      exact moved_copyUp hapart

theorem memmoves_move_iff_up : Moved Nat.toUInt8 0 1 2 (userMemmove Nat.toUInt8 0 1 2) :=
  (memmoves_move_iff (by decide) (by decide)).2.mpr (.inr (by decide)) _

/-- Two bytes, moved up by one. -/
theorem user_memmove_repeats : ∃ m : Mem, userMemmove m 1 0 2 (1 + 1) ≠ m (0 + 1) :=
  ⟨update (fun _ => 0) 0 1, by decide⟩

end Xv6.Memmove
