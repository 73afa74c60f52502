import Xv6.Path

/-!
**Names in buffers** (`string.c`, and `skipelem` of `fs.c`).

A `char *` is the bytes from it on. A name in a buffer of `n` bytes ends at its first NUL, or
with the buffer: `strncmp` compares the names so understood, `strncpy` pads one with NULs, and
`skipelem` leaves a NUL only if there is room for it.
-/

namespace Xv6

/-- The bytes from a pointer on. -/
abbrev CStr := Nat → UInt8

namespace CStr

def next (p : CStr) : CStr := fun i => p (i + 1)

/-- A pointer to these bytes, with NULs behind them. -/
def ofBytes (bytes : List UInt8) : CStr := fun i => bytes.getD i 0

/-- The name in the first `n` bytes. -/
def text : CStr → Nat → List UInt8
  | _, 0 => []
  | p, n + 1 => if p 0 = 0 then [] else p 0 :: text p.next n

end CStr

open CStr Function

def strncmp : CStr → CStr → Nat → Int
  | _, _, 0 => 0
  | p, q, n + 1 =>
      if p 0 ≠ 0 ∧ p 0 = q 0 then strncmp p.next q.next n
      else (p 0).toNat - (q 0).toNat

/-- `strncpy`: the `n` bytes it writes. -/
def strncpy : CStr → Nat → List UInt8
  | _, 0 => []
  | t, n + 1 => if t 0 = 0 then List.replicate (n + 1) 0 else t 0 :: strncpy t.next n

def memmove (dst : CStr) (src : List UInt8) : CStr :=
  fun i => if i < src.length then src.getD i 0 else dst i

namespace CStr

variable {p q t : CStr} {n : Nat}

/-- **`strncmp`** tells whether two names are the same. -/
theorem strncmp_eq_zero : strncmp p q n = 0 ↔ text p n = text q n := by
  induction n generalizing p q with
  | zero => simp [strncmp, text]
  | succ n ih =>
    by_cases hp : p 0 = 0
    · rw [strncmp, text, text, hp]
      by_cases hq : q 0 = 0
      · simp [hq]
      · have hne : (q 0).toNat ≠ 0 := fun hzero => hq (UInt8.toNat_inj.mp hzero)
        simp [hq, hne]
    · by_cases hpq : p 0 = q 0
      · have hq : q 0 ≠ 0 := hpq ▸ hp
        simp only [strncmp, text, hpq, hq, ne_eq, not_false_iff, if_true, if_false, ih,
          List.cons.injEq, true_and]
      have hne : ((p 0).toNat : Int) - (q 0).toNat ≠ 0 := by
        rw [ne_eq, Int.sub_eq_zero, Int.natCast_inj, UInt8.toNat_inj]
        exact hpq
      simp only [strncmp, text, hp, hpq, and_false, if_false, hne]
      split
      · simp
      · simp [hpq]

theorem length_text_le (p : CStr) (n : Nat) : (text p n).length ≤ n := by
  induction n generalizing p with
  | zero => simp [text]
  | succ n ih =>
    simp only [text]
    split
    · simp
    · simpa using ih p.next

theorem zero_notMem_text (p : CStr) (n : Nat) : 0 ∉ text p n := by
  induction n generalizing p with
  | zero => simp [text]
  | succ n ih =>
    simp only [text]
    split
    · simp
    next hp => simp [Ne.symm hp, ih]

/-- **`strncpy`** writes the name and pads it. -/
theorem strncpy_eq (t : CStr) (n : Nat) :
    strncpy t n = text t n ++ List.replicate (n - (text t n).length) 0 := by
  induction n generalizing t with
  | zero => simp [strncpy, text]
  | succ n ih =>
    simp only [strncpy, text]
    split
    · simp
    · rw [ih, List.length_cons, Nat.add_sub_add_right, List.cons_append]

theorem text_ofBytes (bytes : List UInt8) (n : Nat) :
    text (ofBytes bytes) n = (bytes.take n).takeWhile (· != 0) := by
  induction n generalizing bytes with
  | zero => simp [text]
  | succ n ih =>
    rcases bytes with _ | ⟨b, bytes⟩
    · simp [text, ofBytes]
    have hnext : (ofBytes (b :: bytes)).next = ofBytes bytes := by
      funext i
      simp [next, ofBytes]
    by_cases hb : b = 0
    · simp [text, ofBytes, hb]
    · simp only [text, hnext, ih]
      simp [ofBytes, hb]

theorem text_eq {name : List UInt8} (hzero : 0 ∉ name) (hat : ∀ i < name.length, p i = name.getD i 0)
    (hend : name.length = n ∨ name.length < n ∧ p name.length = 0) : text p n = name := by
  induction name generalizing p n with
  | nil =>
    rcases hend with hn | ⟨hn, hnul⟩
    · rw [← hn]
      rfl
    · obtain ⟨m, rfl⟩ : ∃ m, n = m + 1 := ⟨n - 1, by simp at hn; omega⟩
      exact if_pos hnul
  | cons b name ih =>
    simp only [List.mem_cons, not_or] at hzero
    have hfirst : p 0 = b := hat 0 (by simp)
    obtain ⟨m, rfl⟩ : ∃ m, n = m + 1 := ⟨n - 1, by simp at hend; omega⟩
    have hrest : text p.next m = name := by
      apply ih hzero.2
      · intro i hi
        simpa [next] using hat (i + 1) (by simpa using hi)
      · simpa [next] using hend
    rw [text, hfirst, if_neg (Ne.symm hzero.1), hrest]

end CStr

/-! ### Path elements -/

open Fs (Name Path SLASH)

/-- What the functions on directories see of a name. -/
def key (name : CStr) : Name := ⟨text name DIRSIZ, length_text_le name DIRSIZ⟩

theorem key_inj {p q : CStr} : key p = key q ↔ text p DIRSIZ = text q DIRSIZ := Subtype.mk_eq_mk

/-- `skipelem`: the path behind the element, and the buffer it was copied to. -/
def skipelem (path : Path) (name : CStr) : Option (Path × CStr) :=
  match path.dropWhile (· == SLASH) with
  | [] => none
  | c :: cs =>
      let s := (c :: cs).takeWhile (· != SLASH)
      let rest := ((c :: cs).dropWhile (· != SLASH)).dropWhile (· == SLASH)
      if DIRSIZ ≤ s.length then some (rest, memmove name (s.take DIRSIZ))
      else some (rest, update (memmove name s) s.length 0)

end Xv6
