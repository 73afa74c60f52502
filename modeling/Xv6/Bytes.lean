import Mathlib.Data.Nat.Bitwise
import Mathlib.Tactic.Ring

/-!
**Fields in fixed-size byte blocks.**

A C struct that is overlaid on a byte buffer (`(struct logheader *) buf->data`,
`(uint *) bp->data`, …) is a family of little-endian fields at fixed offsets.
This file gives the two accessors such an overlay needs, `getLE` and `setLE`,
over a block of any size `N`, with the two laws every later proof uses:

  * reading back the field just written gives the value modulo the field's
    width (`getLE_setLE`);
  * writing one field leaves every disjoint field alone
    (`getLE_setLE_of_disjoint`).

A block is also an array of bits (`bitAt`), and bytes are copied into it (`blit`).
-/

namespace Bytes

abbrev Block (N : Nat) := Fin N → UInt8

variable {N off len i : Nat}

/-- The byte at offset `i`; offsets past the end read as zero. -/
def byteAt (b : Block N) (i : Nat) : UInt8 :=
  if h : i < N then b ⟨i, h⟩ else 0

/-- The little-endian value of the `len` bytes at `off`. -/
def getLE (b : Block N) (off : Nat) : Nat → Nat
  | 0 => 0
  | len + 1 => (byteAt b off).toNat + 256 * getLE b (off + 1) len

/-- Overwrite the `len` bytes at `off` with the little-endian digits of `v`. -/
def setLE (b : Block N) (off len v : Nat) : Block N := fun i =>
  if off ≤ i.val ∧ i.val < off + len then UInt8.ofNat (v / 256 ^ (i.val - off)) else b i

/-! ### Reading -/

theorem getLE_congr {b c : Block N} :
    ∀ {len off : Nat}, (∀ i, off ≤ i → i < off + len → byteAt b i = byteAt c i) →
      getLE b off len = getLE c off len := by
  intro len
  induction len with
  | zero => intro off _; rfl
  | succ len ih =>
    intro off h
    have hhead : byteAt b off = byteAt c off := h off (Nat.le_refl _) (by omega)
    have htail : getLE b (off + 1) len = getLE c (off + 1) len :=
      ih fun i hlo hhi => h i (by omega) (by omega)
    simp only [getLE, hhead, htail]

theorem getLE_lt (b : Block N) : ∀ (len off : Nat), getLE b off len < 256 ^ len := by
  intro len
  induction len with
  | zero => intro off; simp [getLE]
  | succ len ih =>
    intro off
    have hbyte : (byteAt b off).toNat < 256 := (byteAt b off).toNat_lt
    have htail := ih (off + 1)
    rw [getLE]
    omega

theorem getLE_of_digits {b : Block N} :
    ∀ {len off v : Nat},
      (∀ j, j < len → (byteAt b (off + j)).toNat = v / 256 ^ j % 256) →
      getLE b off len = v % 256 ^ len := by
  intro len
  induction len with
  | zero => intro off v _; simp [getLE, Nat.mod_one]
  | succ len ih =>
    intro off v h
    have hhead : (byteAt b off).toNat = v % 256 := by simpa using h 0 (by omega)
    have htail : getLE b (off + 1) len = v / 256 % 256 ^ len := by
      refine ih fun j hj => ?_
      have hdigit := h (j + 1) (by omega)
      rw [show off + 1 + j = off + (j + 1) by omega, hdigit, pow_succ', Nat.div_div_eq_div_mul]
    rw [getLE, hhead, htail, pow_succ', Nat.mod_mul]

/-! ### Writing -/

theorem byteAt_setLE_inside (b : Block N) {v : Nat} (hfit : off + len ≤ N) (hlo : off ≤ i)
    (hhi : i < off + len) : (byteAt (setLE b off len v) i).toNat = v / 256 ^ (i - off) % 256 := by
  have hi : i < N := by omega
  simp only [byteAt, dif_pos hi, setLE, if_pos (And.intro hlo hhi)]
  exact UInt8.toNat_ofNat'

theorem byteAt_setLE_outside (b : Block N) {v : Nat} (h : ¬ (off ≤ i ∧ i < off + len)) :
    byteAt (setLE b off len v) i = byteAt b i := by
  unfold byteAt
  by_cases hi : i < N
  · simp only [setLE, if_neg h]
  · simp only [dif_neg hi]

/-- **A field reads back as written**, up to its width. -/
theorem getLE_setLE (b : Block N) (v : Nat) (hfit : off + len ≤ N) :
    getLE (setLE b off len v) off len = v % 256 ^ len := by
  refine getLE_of_digits fun j hj => ?_
  rw [byteAt_setLE_inside b hfit (by omega) (by omega), Nat.add_sub_cancel_left]

/-- **Disjoint fields do not interfere.** -/
theorem getLE_setLE_of_disjoint (b : Block N) {v off' len' : Nat}
    (h : off' + len' ≤ off ∨ off + len ≤ off') :
    getLE (setLE b off len v) off' len' = getLE b off' len' := by
  refine getLE_congr fun i hlo hhi => byteAt_setLE_outside b ?_
  omega

/-- Store `f 0`, …, `f (n - 1)` in consecutive words from `base` on. -/
def setWords (b : Block N) (base n : Nat) (f : Nat → Nat) : Block N :=
  (List.range n).foldl (fun b i => setLE b (base + 4 * i) 4 (f i)) b

theorem setWords_succ (b : Block N) (base n : Nat) (f : Nat → Nat) :
    setWords b base (n + 1) f = setLE (setWords b base n f) (base + 4 * n) 4 (f n) := by
  simp only [setWords, List.range_succ, List.foldl_append, List.foldl_cons, List.foldl_nil]

theorem getLE_setWords_of_disjoint (b : Block N) (base : Nat) (f : Nat → Nat) :
    ∀ {n : Nat}, off + len ≤ base ∨ base + 4 * n ≤ off →
      getLE (setWords b base n f) off len = getLE b off len := by
  intro n
  induction n with
  | zero => exact fun _ => rfl
  | succ n ih =>
    intro h
    rw [setWords_succ, getLE_setLE_of_disjoint _ (by omega), ih (by omega)]

/-- **Each word reads back.** -/
theorem getLE_setWords (b : Block N) (base : Nat) (f : Nat → Nat) :
    ∀ {n : Nat}, i < n → base + 4 * n ≤ N →
      getLE (setWords b base n f) (base + 4 * i) 4 = f i % 256 ^ 4 := by
  intro n
  induction n with
  | zero => exact fun hi => absurd hi (Nat.not_lt_zero i)
  | succ n ih =>
    intro hi hfit
    rw [setWords_succ]
    by_cases hin : i = n
    · rw [hin, getLE_setLE _ _ (by omega)]
    · rw [getLE_setLE_of_disjoint _ (by omega), ih (by omega) (by omega)]

/-! ### Bits -/

/-- Bit `i` of a block, the low bits of each byte first. -/
def bitAt (b : Block N) (i : Nat) : Bool := (byteAt b (i / 8)).toBitVec.getLsbD (i % 8)

def setByte (b : Block N) (i : Nat) (v : UInt8) : Block N := fun j => if j.val = i then v else b j

/-- `1 << (i % 8)`. -/
def mask (i : Nat) : UInt8 := ⟨BitVec.twoPow 8 (i % 8)⟩

theorem byteAt_setByte (b : Block N) (v : UInt8) (hi : i < N) (j : Nat) :
    byteAt (setByte b i v) j = if j = i then v else byteAt b j := by
  unfold byteAt setByte
  by_cases hj : j = i
  · subst hj
    simp [hi]
  · simp [hj]

theorem getLsbD_mask (i j : Nat) : (mask i).toBitVec.getLsbD j = decide (j = i % 8) := by
  have hlt : i % 8 < 8 := Nat.mod_lt i (by decide)
  simp only [mask]
  by_cases hj : j = i % 8
  · simp [hj, hlt]
  · simp [hj, Ne.symm hj]

theorem and_mask_eq_zero (x : UInt8) (i : Nat) :
    x &&& mask i = 0 ↔ x.toBitVec.getLsbD (i % 8) = false := by
  rw [← UInt8.toBitVec_inj, UInt8.toBitVec_and]
  constructor
  · intro h
    have hbit := congrArg (fun v => v.getLsbD (i % 8)) h
    simpa [getLsbD_mask] using hbit
  · intro h
    apply BitVec.eq_of_getLsbD_eq
    intro j _
    rw [BitVec.getLsbD_and, getLsbD_mask]
    by_cases hj : j = i % 8
    · simp [hj, h]
    · simp [hj]

/-- **Setting a bit** sets this one. -/
theorem bitAt_or_mask (b : Block N) (hi : i / 8 < N) (j : Nat) :
    bitAt (setByte b (i / 8) (byteAt b (i / 8) ||| mask i)) j = (bitAt b j || decide (j = i)) := by
  unfold bitAt
  rw [byteAt_setByte b _ hi]
  by_cases hj : j / 8 = i / 8
  · rw [if_pos hj, UInt8.toBitVec_or, BitVec.getLsbD_or, getLsbD_mask, hj]
    congr 2
    apply propext
    omega
  · have hne : j ≠ i := fun heq => hj (heq ▸ rfl)
    simp [hj, hne]

/-- **Clearing a bit** clears this one. -/
theorem bitAt_and_not_mask (b : Block N) (hi : i / 8 < N) (j : Nat) :
    bitAt (setByte b (i / 8) (byteAt b (i / 8) &&& ~~~(mask i))) j =
      (bitAt b j && !decide (j = i)) := by
  have hlt : j % 8 < 8 := Nat.mod_lt j (by decide)
  unfold bitAt
  rw [byteAt_setByte b _ hi]
  by_cases hj : j / 8 = i / 8
  · rw [if_pos hj, UInt8.toBitVec_and, UInt8.toBitVec_not, BitVec.getLsbD_and, BitVec.getLsbD_not,
      getLsbD_mask, hj]
    have hiff : j % 8 = i % 8 ↔ j = i := by omega
    simp [hlt, hiff]
  · have hne : j ≠ i := fun heq => hj (heq ▸ rfl)
    simp [hj, hne]

/-! ### Copying bytes -/

/-- `memmove(b + off, src, m)`. -/
def blit (b : Block N) (off m : Nat) (src : Nat → UInt8) : Block N := fun i =>
  if off ≤ i.val ∧ i.val < off + m then src (i.val - off) else b i

theorem byteAt_blit (b : Block N) {m : Nat} (src : Nat → UInt8) (hfit : off + m ≤ N) (i : Nat) :
    byteAt (blit b off m src) i = if off ≤ i ∧ i < off + m then src (i - off) else byteAt b i := by
  unfold byteAt blit
  by_cases hi : i < N
  · simp [hi]
  · have hout : ¬ (off ≤ i ∧ i < off + m) := by omega
    simp [hi, hout]

end Bytes
