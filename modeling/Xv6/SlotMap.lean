import Mathlib.Data.List.Basic

/-!
**A finite map kept in a list of slots.**

A slot is free, or holds a key with its value. A key is looked up from the front; a new one
goes into a free slot or behind the last one; an old one is removed by freeing its slot
in place. As long as no key is in two slots (`Distinct`), `find` is a finite map and each
operation changes it at its own key only.

The second half is the map as an object that many use: a record of what its users did is legal
if a single map, used by one after the other, could have answered so (`replay`).
-/

namespace SlotMap

open Function

variable {K V : Type} [DecidableEq K]

/-! ### Slots -/

abbrev Slots (K V : Type) := List (Option (K × V))

/-- The value of a key and its place, from the place `i` on. -/
def findFrom (k : K) : Slots K V → Nat → Option (V × Nat)
  | [], _ => none
  | none :: xs, i => findFrom k xs (i + 1)
  | some e :: xs, i => if e.1 = k then some (e.2, i) else findFrom k xs (i + 1)

def find (xs : Slots K V) (k : K) : Option (V × Nat) := findFrom k xs 0

/-- Fill the slot at `i`, which may be the place behind the last one. -/
def put {α : Type} (xs : List α) (i : Nat) (e : α) : List α :=
  if i < xs.length then xs.set i e else xs ++ [e]

/-- No key is in two slots. -/
def Distinct (xs : Slots K V) : Prop :=
  ∀ (i j : Nat) (k : K) (v w : V), xs[i]? = some (some (k, v)) → xs[j]? = some (some (k, w)) → i = j

section

variable {xs : Slots K V} {k : K} {v : V} {i : Nat}

theorem getElem?_of_findFrom {n : Nat} (h : findFrom k xs n = some (v, i)) :
    n ≤ i ∧ xs[i - n]? = some (some (k, v)) := by
  induction xs generalizing n with
  | nil => cases h
  | cons e xs ih =>
    have hnext : findFrom k xs (n + 1) = some (v, i) →
        n ≤ i ∧ (e :: xs)[i - n]? = some (some (k, v)) := by
      intro hrest
      obtain ⟨hle, hat⟩ := ih hrest
      have hsub : i - n = i - (n + 1) + 1 := by omega
      rw [hsub]
      exact ⟨by omega, hat⟩
    rcases e with _ | ⟨k', w⟩
    · exact hnext h
    simp only [findFrom] at h
    split at h
    next hk =>
      cases h
      simp [hk]
    · exact hnext h

theorem findFrom_eq_none {n : Nat} (h : findFrom k xs n = none) (i : Nat) (v : V) :
    xs[i]? ≠ some (some (k, v)) := by
  induction xs generalizing n i with
  | nil => simp
  | cons e xs ih =>
    rcases e with _ | ⟨k', w⟩
    · rcases i with _ | i
      · simp
      · exact ih h i
    simp only [findFrom] at h
    split at h
    · cases h
    rename_i hk
    rcases i with _ | i
    · simp [hk]
    · exact ih h i

theorem getElem?_of_find (h : find xs k = some (v, i)) : xs[i]? = some (some (k, v)) :=
  (getElem?_of_findFrom h).2

theorem Distinct.find_iff (h : Distinct xs) :
    find xs k = some (v, i) ↔ xs[i]? = some (some (k, v)) := by
  refine ⟨getElem?_of_find, fun hat => ?_⟩
  rcases hfind : find xs k with _ | ⟨w, j⟩
  · exact absurd hat (findFrom_eq_none hfind i v)
  have hat' := getElem?_of_find hfind
  have hij := h i j k v w hat hat'
  subst hij
  rw [hat] at hat'
  cases hat'
  rfl

theorem getElem?_put {α : Type} {xs : List α} (hi : i ≤ xs.length) (e : α) (j : Nat) :
    (put xs i e)[j]? = if j = i then some e else xs[j]? := by
  unfold put
  split
  next hlt =>
    by_cases hj : j = i
    · subst hj
      rw [if_pos rfl, List.getElem?_set_self hlt]
    · rw [if_neg hj, List.getElem?_set_ne (Ne.symm hj)]
  next hlt =>
    have hlen : i = xs.length := by omega
    subst hlen
    by_cases hj : j = xs.length
    · rw [hj]
      simp
    rw [List.getElem?_append]
    split
    · rfl
    rename_i hout
    have hnone : xs[j]? = none := List.getElem?_eq_none (Nat.not_lt.mp hout)
    rw [hnone, List.getElem?_eq_none]
    simp only [List.length_singleton]
    omega

theorem isMap {f : K → Option (V × Nat)}
    (h : ∀ i k v, xs[i]? = some (some (k, v)) ↔ f k = some (v, i)) : Distinct xs ∧ find xs = f := by
  have hdistinct : Distinct xs := by
    intro i j k v w hi hj
    rw [h] at hi hj
    rw [hi] at hj
    cases hj
    rfl
  refine ⟨hdistinct, ?_⟩
  funext k
  ext ⟨v, i⟩
  rw [hdistinct.find_iff, h]

/-- **A new key in a free slot**, or a free slot left free. -/
theorem Distinct.add (h : Distinct xs) (hi : i ≤ xs.length)
    (hfree : ∀ e, xs[i]? ≠ some (some e)) (hnew : find xs k = none) (v : Option V) :
    Distinct (put xs i (v.map fun v => (k, v))) ∧
      find (put xs i (v.map fun v => (k, v))) =
        update (find xs) k (v.map fun v => (v, i)) := by
  apply isMap
  intro j k' v'
  rw [getElem?_put hi]
  by_cases hk : k' = k
  · subst hk
    have hnone := findFrom_eq_none hnew j v'
    split
    next hj =>
      rcases v with _ | v
      · simp
      · simp [hj]
    next hj =>
      rcases v with _ | v
      · simp [hnone]
      · simp [hnone, Ne.symm hj]
  · rw [update_of_ne hk, h.find_iff]
    split
    next hj =>
      subst hj
      have hother := hfree (k', v')
      rcases v with _ | v
      · simp [hother]
      · simp [hother, Ne.symm hk]
    · rfl

theorem Distinct.clear (h : Distinct xs) (hold : find xs k = some (v, i)) :
    Distinct (put xs i none) ∧ find (put xs i none) = update (find xs) k none := by
  have hati := getElem?_of_find hold
  have hlt : i < xs.length := by
    by_contra hge
    rw [List.getElem?_eq_none (Nat.not_lt.mp hge)] at hati
    cases hati
  apply isMap
  intro j k' v'
  rw [getElem?_put (Nat.le_of_lt hlt)]
  by_cases hk : k' = k
  · subst hk
    rw [update_self]
    split
    · simp
    rename_i hj
    constructor
    · exact fun hat => absurd (h j i k' v' v hat hati) hj
    · exact fun hat => nomatch hat
  · rw [update_of_ne hk, h.find_iff]
    split
    next hj =>
      subst hj
      rw [hati]
      simp [Ne.symm hk]
    · rfl

end

/-! ### The map as an object -/

/-- What users of a map from `K` to `E` do, with the answers they get. -/
inductive Event (K E : Type) where
  | looked (k : K) (answer : Option E)
  /-- A key was not added, because it is there. -/
  | refused (k : K)
  | added (k : K) (e : Option E)
  | removed (k : K)

variable {E : Type}

/-- One event, if a map may answer so. -/
def Event.on [DecidableEq E] (m : K → Option E) : Event K E → Option (K → Option E)
  | .looked k answer => if m k = answer then some m else none
  | .refused k => if m k = none then none else some m
  | .added k e => if m k = none then some (update m k e) else none
  | .removed k => if m k = none then none else some (update m k none)

def replay [DecidableEq E] (m : K → Option E) (es : List (Event K E)) : Option (K → Option E) :=
  es.foldlM Event.on m

variable [DecidableEq E] {m m' : K → Option E} {es : List (Event K E)}

theorem replay_concat (e : Event K E) : replay m (es ++ [e]) = (replay m es).bind e.on := by
  rw [replay, List.foldlM_append]
  simp only [List.foldlM_cons, List.foldlM_nil, bind_pure]
  rfl

end SlotMap
