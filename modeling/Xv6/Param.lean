import Xv6.Bytes

/-!
**Kernel constants** (`param.h`, `fs.h`, `stat.h`, `mkfs.c`), for the `PDX_XV6`
build that the Makefile selects by default, and the two's-complement readings
of the C integer types that the modelled code stores.
-/

namespace Xv6

/-! ### `param.h` -/

def NPROC : Nat := 64
def NOFILE : Nat := 16
def NFILE : Nat := 100
def NINODE : Nat := 50
def MAXOPBLOCKS : Nat := 10
def LOGSIZE : Nat := MAXOPBLOCKS * 3

/-! ### `fs.h` -/

def ROOTINO : Nat := 1
def BSIZE : Nat := 512
def NDIRECT : Nat := 12
def NINDIRECT : Nat := BSIZE / 4
def MAXFILE : Nat := NDIRECT + NINDIRECT
def DIRSIZ : Nat := 14

abbrev Block := Bytes.Block BSIZE

/-! ### C integers -/

/-- The `int` whose 32-bit pattern is `v`. -/
def toInt32 (v : Nat) : Int := if v < 2 ^ 31 then v else (v : Int) - 2 ^ 32

/-- The 32-bit pattern of the `int` `x`. -/
def ofInt32 (x : Int) : Nat := (x % 2 ^ 32).toNat

/-- The value left in a `short` after storing `x`. -/
def toShort (x : Int) : Int := (x + 2 ^ 15) % 2 ^ 16 - 2 ^ 15

theorem ofInt32_natCast {n : Nat} (h : n < 2 ^ 32) : ofInt32 n = n := by
  unfold ofInt32
  omega

theorem toInt32_of_lt {v : Nat} (h : v < 2 ^ 31) : toInt32 v = v := by rw [toInt32, if_pos h]

theorem toShort_of_mem {x : Int} (hlo : -2 ^ 15 ≤ x) (hhi : x < 2 ^ 15) : toShort x = x := by
  unfold toShort
  omega

end Xv6
