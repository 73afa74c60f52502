import Mathlib.Data.BitVec

/-!
**Decimal numerals**: `printint` (`printf.c`) writes what `atoi` (`ulib.c`) reads.

Both compute modulo 2^32. The most negative `int` is its own negative; `printint` takes that as
the unsigned 2^31, and `atoi` arrives at it twice, by overflow and by the sign.
-/

namespace Xv6.Decimal

open List

/-! ### `printint` -/

/-- `static char digits[]` -/
def DIGITS : List Char := "0123456789ABCDEF".toList

/-- The loop of `printint`: what it leaves in `buf`. -/
def putDigits {base : Nat} (hbase : 1 < base) (x : Nat) : List Char :=
  DIGITS.getD (x % base) '0' :: if _h : x / base = 0 then [] else putDigits hbase (x / base)
termination_by x
decreasing_by
  exact Nat.div_lt_self (Nat.pos_of_ne_zero fun hx => _h (by rw [hx, Nat.zero_div])) hbase

/-- `buf`, up to `i`. -/
def buf {base : Nat} (hbase : 1 < base) (sgn : Bool) (xx : BitVec 32) : List Char :=
  if sgn = true ∧ xx.toInt < 0 then putDigits hbase (-xx).toNat ++ ['-']
  else putDigits hbase xx.toNat

/-- What `printint(fd, xx, base, sgn)` writes. -/
def printint {base : Nat} (hbase : 1 < base) (sgn : Bool) (xx : BitVec 32) : List Char :=
  (buf hbase sgn xx).reverse

/-! ### `atoi` -/

/-- `while('0' <= *s && *s <= '9') n = n*10 + *s++ - '0'` -/
def atoiLoop (n : BitVec 32) : List Char → BitVec 32
  | c :: s => if c.isDigit then atoiLoop (n * 10 + .ofNat 32 c.toNat - 48) s else n
  | [] => n

def atoi (s : List Char) : BitVec 32 :=
  match s.dropWhile (· == ' ') with
  | '-' :: s => -1 * atoiLoop 0 s
  | '+' :: s => 1 * atoiLoop 0 s
  | s => 1 * atoiLoop 0 s

/-! ### Numerals -/

/-- The decimal numeral of `x`. -/
def numeral (x : Int) : List Char :=
  (if x < 0 then ['-'] else []) ++ Nat.toDigits 10 x.natAbs

theorem reverse_putDigits (h : 1 < 10) (x : Nat) :
    (putDigits h x).reverse = Nat.toDigits 10 x := by
  induction x using Nat.strong_induction_on with
  | h x ih =>
    have hdigit : ∀ d < 10, DIGITS.getD d '0' = d.digitChar := by decide
    rw [putDigits, Nat.toDigits_eq_if h, hdigit _ (Nat.mod_lt x (by decide))]
    by_cases hx : x < 10
    · rw [dif_pos (Nat.div_eq_of_lt hx), if_pos hx, Nat.mod_eq_of_lt hx]
      rfl
    · rw [dif_neg (by omega), if_neg hx, reverse_cons, ih _ (by omega)]

theorem natAbs_toInt (xx : BitVec 32) :
    BitVec.ofNat 32 xx.toInt.natAbs = (if xx.toInt < 0 then -xx else xx) ∧
    xx.toInt.natAbs = (if xx.toInt < 0 then -xx else xx).toNat := by
  have hnat : xx.toInt.natAbs = (if xx.toInt < 0 then -xx else xx).toNat := by
    have hcond := BitVec.toInt_eq_toNat_cond xx
    split
    · rw [BitVec.toNat_neg]
      split at hcond <;> omega
    · split at hcond <;> omega
  refine ⟨?_, hnat⟩
  rw [hnat, BitVec.ofNat_toNat, BitVec.setWidth_eq]

theorem printint_eq (xx : BitVec 32) :
    printint (show 1 < 10 by decide) true xx = numeral xx.toInt := by
  have hnat := (natAbs_toInt xx).2
  by_cases hneg : xx.toInt < 0
  · rw [if_pos hneg] at hnat
    rw [printint, buf, if_pos ⟨rfl, hneg⟩, reverse_append, reverse_putDigits, numeral, if_pos hneg,
      hnat]
    rfl
  · rw [if_neg hneg] at hnat
    rw [printint, buf, if_neg fun h => hneg h.2, reverse_putDigits, numeral, if_neg hneg, hnat]
    rfl

theorem length_numeral (xx : BitVec 32) : (numeral xx.toInt).length ≤ 16 := by
  have hlt : xx.toInt.natAbs < 10 ^ 10 := by
    rw [(natAbs_toInt xx).2]
    exact (BitVec.isLt _).trans (by decide)
  have hle := (Nat.length_toDigits_le_iff (by decide) (by decide)).mpr hlt
  rw [numeral, length_append]
  split
  · exact (Nat.add_le_add_left hle 1).trans (by decide)
  · exact (Nat.add_le_add_left hle 0).trans (by decide)

section

variable {rest : List Char} (hrest : ∀ c ∈ rest.head?, c.isDigit = false)
include hrest

theorem atoiLoop_digits {l : List Char} (hl : ∀ c ∈ l, c.isDigit = true) (n : Nat) :
    atoiLoop (.ofNat 32 n) (l ++ rest) = .ofNat 32 (Nat.ofDigitChars 10 l n) := by
  induction l generalizing n with
  | nil =>
    cases rest with
    | nil => rfl
    | cons c rest =>
      rw [nil_append, atoiLoop, hrest c rfl]
      rfl
  | cons c l ih =>
    obtain ⟨hc, hl⟩ := forall_mem_cons.mp hl
    have hle : 48 ≤ c.toNat := (Char.isDigit_iff_toNat.mp hc).1
    rw [cons_append, atoiLoop, if_pos hc, Nat.ofDigitChars_cons, ← ih hl]
    congr 1
    have hsub : 10 * n + (c.toNat - '0'.toNat) = n * 10 + c.toNat - 48 := by
      change 10 * n + (c.toNat - 48) = _
      omega
    rw [hsub, ← BitVec.ofNat_sub_ofNat_of_le _ 48 (by decide) (by omega), BitVec.ofNat_add,
      BitVec.ofNat_mul]
    rfl

theorem atoiLoop_toDigits (n : Nat) :
    atoiLoop 0 (Nat.toDigits 10 n ++ rest) = .ofNat 32 n := by
  have hdigits : ∀ c ∈ Nat.toDigits 10 n, c.isDigit = true :=
    fun c hc => Nat.isDigit_of_mem_toDigits (by decide) (by decide) hc
  have hloop := atoiLoop_digits hrest hdigits 0
  rwa [Nat.ofDigitChars_toDigits (by decide) (by decide)] at hloop

theorem atoi_numeral (xx : BitVec 32) (k : Nat) :
    atoi (replicate k ' ' ++ (numeral xx.toInt ++ rest)) = xx := by
  have hspaces : ∀ c ∈ replicate k ' ', (c == ' ') = true := by
    intro c hc
    rw [eq_of_mem_replicate hc]
    rfl
  have hloop := atoiLoop_toDigits hrest xx.toInt.natAbs
  rw [(natAbs_toInt xx).1] at hloop
  rw [atoi, dropWhile_append_of_pos hspaces, numeral]
  by_cases hneg : xx.toInt < 0
  · rw [if_pos hneg] at hloop ⊢
    have hminus : -1 * atoiLoop 0 (Nat.toDigits 10 xx.toInt.natAbs ++ rest) = xx := by
      rw [hloop, neg_mul, one_mul, neg_neg]
    exact hminus
  · rw [if_neg hneg] at hloop ⊢
    obtain ⟨c, l, hcl⟩ :=
      exists_cons_of_ne_nil (Nat.toDigits_ne_nil (n := xx.toInt.natAbs) (b := 10))
    have hc : c.isDigit = true :=
      Nat.isDigit_of_mem_toDigits (b := 10) (by decide) (by decide) (hcl ▸ mem_cons_self)
    have hspace : ¬ (c == ' ') = true := by
      rintro heq
      rw [beq_iff_eq.mp heq] at hc
      cases hc
    rw [nil_append, hcl, cons_append, dropWhile_cons, if_neg hspace]
    rw [hcl, cons_append] at hloop
    split
    · cases ‹_ = _›
      cases hc
    · cases ‹_ = _›
      cases hc
    · rw [hloop, one_mul]

end

/-- **`atoi` reads what `printint` writes**, with spaces before it and anything but a digit
behind. -/
theorem atoi_printint (xx : BitVec 32) (k : Nat) {rest : List Char}
    (hrest : ∀ c ∈ rest.head?, c.isDigit = false) :
    printint (show 1 < 10 by decide) true xx = numeral xx.toInt ∧
    (buf (show 1 < 10 by decide) true xx).length ≤ 16 ∧
    atoi (replicate k ' ' ++ (printint (show 1 < 10 by decide) true xx ++ rest)) = xx := by
  have heq := printint_eq xx
  refine ⟨heq, ?_, ?_⟩
  · rw [← length_reverse]
    exact (congrArg length heq).trans_le (length_numeral xx)
  · rw [heq]
    exact atoi_numeral hrest xx k

theorem atoi_printint_min : atoi (' ' :: (printint (show 1 < 10 by decide) true
    (.intMin 32) ++ ['!'])) = .intMin 32 :=
  (atoi_printint (.intMin 32) 1 fun c hc => by cases hc; rfl).2.2

end Xv6.Decimal
