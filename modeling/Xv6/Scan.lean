import Mathlib.Data.List.TakeWhile

/-!
**Scanning a text by its positions.**

`scan p get n i` is the loop `while(i < end && p(get(i))) i++` with `n = end - i`. Over a list of
which `get` reads the elements it stops where `dropWhile` does (`drop_scan`), behind what
`takeWhile` takes (`take_scan`).
-/

namespace Scan

open List

variable {α : Type} (p : α → Bool) (get : Nat → α)

def scan : Nat → Nat → Nat
  | 0, i => i
  | n + 1, i => if p (get i) then scan n (i + 1) else i

/-- `get` reads the elements of a list. -/
def Reads (text : List α) : Prop := ∀ i (h : i < text.length), get i = text[i]

variable {p get} {text : List α} {i : Nat}

theorem Reads.drop_cons (h : Reads get text) (hi : i < text.length) :
    text.drop i = get i :: text.drop (i + 1) := by
  rw [h i hi]
  exact drop_eq_getElem_cons hi

theorem scan_eq (h : Reads get text) : ∀ n {i : Nat}, i + n = text.length →
    scan p get n i = i + ((text.drop i).takeWhile p).length := by
  intro n
  induction n with
  | zero =>
    intro i hi
    have hend : text.drop i = [] := drop_of_length_le (Nat.le_of_eq hi.symm)
    rw [hend]
    rfl
  | succ n ih =>
    intro i hi
    rw [scan, h.drop_cons (by omega), takeWhile_cons]
    split
    · rw [ih (by omega), length_cons]
      omega
    · rfl

variable (h : Reads get text) (hi : i ≤ text.length)

include h hi

theorem le_scan : i ≤ scan p get (text.length - i) i := by
  rw [scan_eq h _ (Nat.add_sub_cancel' hi)]
  exact Nat.le_add_right _ _

theorem scan_le : scan p get (text.length - i) i ≤ text.length := by
  rw [scan_eq h _ (Nat.add_sub_cancel' hi)]
  have hle : ((text.drop i).takeWhile p).length ≤ (text.drop i).length :=
    (takeWhile_sublist p).length_le
  rw [length_drop] at hle
  omega

theorem drop_scan : text.drop (scan p get (text.length - i) i) = (text.drop i).dropWhile p := by
  rw [scan_eq h _ (Nat.add_sub_cancel' hi), ← drop_drop]
  calc (text.drop i).drop ((text.drop i).takeWhile p).length
      = ((text.drop i).takeWhile p ++ (text.drop i).dropWhile p).drop
          ((text.drop i).takeWhile p).length := by rw [takeWhile_append_dropWhile]
    _ = (text.drop i).dropWhile p := drop_left

theorem take_scan : (text.drop i).take (scan p get (text.length - i) i - i) =
    (text.drop i).takeWhile p := by
  rw [scan_eq h _ (Nat.add_sub_cancel' hi), Nat.add_sub_cancel_left]
  exact (prefix_iff_eq_take.mp ( takeWhile_prefix p)).symm

end Scan
