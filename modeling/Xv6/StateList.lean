import Mathlib.Data.List.Nodup

/-!
**The state lists** (`proc.c`): `stateListAdd` and `stateListRemove`.

The branch that removes the head returns before `p->next` is cleared.
-/

namespace Xv6.StateList

open Function List

variable {P : Type} [DecidableEq P]

/-- `struct ptrs`, and the `next` fields of all procs. -/
structure Lists (P : Type) where
  head : Option P
  tail : Option P
  next : P → Option P

/-- `none` is a null pointer that is followed. -/
def stateListAdd (s : Lists P) (p : P) : Option (Lists P) :=
  match s.head with
  | none => some ⟨some p, some p, update s.next p none⟩
  | some _ => do
      let t ← s.tail
      return { s with tail := some p, next := update (update s.next t (some p)) p none }

/-- The loop of `stateListRemove`: `current` and `previous` behind it. -/
def search (next : P → Option P) (p : P) : Nat → Option P → Option P →
    Option (Option P × Option P)
  | 0, _, _ => none
  | rounds + 1, current, previous =>
      match current with
      | none => some (none, previous)
      | some c => if c = p then some (some c, previous) else search next p rounds (next c) (some c)

/-- `none` if so many rounds of the loop are not enough. -/
def stateListRemove (rounds : Nat) (s : Lists P) (p : Option P) : Option (Int × Lists P) :=
  match s.head, s.tail, p with
  | some h, some t, some p =>
      if h = p then some (0, { s with head := s.next h, tail := if t = p then none else s.tail })
      else do
        match ← search s.next p rounds s.head none with
        | (none, _) => return (-1, s)
        | (some c, previous) =>
            let v ← previous
            let s := if c = t then { s with tail := some v, next := update s.next v none }
              else { s with next := update s.next v (s.next c) }
            return (0, { s with next := update s.next p none })
  | _, _, _ => some (-1, s)

structure IsList (s : Lists P) (l : List P) : Prop where
  head : s.head = l[0]?
  tail : s.tail = l[l.length - 1]?
  nodup : l.Nodup
  next : ∀ i a, l[i]? = some a → s.next a = l[i + 1]?

/-- What `stateListRemove` is for: `r` is returned, and `s'` is left. -/
structure Removed (s : Lists P) (l : List P) (p : P) (r : Int) (s' : Lists P) : Prop where
  found : r = 0 ↔ p ∈ l
  list : p ∈ l → IsList s' (l.erase p) ∧ s'.next p = none
  missing : p ∉ l → r = -1 ∧ s' = s
  others : ∀ q ∉ l, q ≠ p → s'.next q = s.next q

variable {s : Lists P} {l : List P} {p t v : P} {next : P → Option P} {i j : Nat}

omit [DecidableEq P] in
theorem index_inj (h : l.Nodup) (hi : l[i]? = some p) (hj : l[j]? = some p) : i = j := by
  obtain ⟨hlt, rfl⟩ := List.getElem?_eq_some_iff.mp hi
  obtain ⟨hlt', heq⟩ := List.getElem?_eq_some_iff.mp hj
  exact (h.getElem_inj_iff.mp heq).symm

theorem stateListAdd_spec (h : IsList s l) (hp : p ∉ l) : ∃ s', stateListAdd s p = some s' ∧
    IsList s' (l ++ [p]) ∧ ∀ q ∉ l, q ≠ p → s'.next q = s.next q := by
  obtain ⟨hhead, htail, hnodup, hnext⟩ := h
  have hnodup' : (l ++ [p]).Nodup := by grind
  cases ht : l[l.length - 1]? with
  | none =>
    obtain rfl : l = [] := eq_nil_of_length_eq_zero (by grind)
    refine ⟨⟨some p, some p, update s.next p none⟩, ?_, ⟨rfl, rfl, hnodup', ?_⟩, ?_⟩
    · simp [stateListAdd, hhead]
    · grind
    · grind
  | some t =>
    have hpos : 0 < l.length := by grind
    have hlast : ∀ i, l[i]? = some t → i = l.length - 1 := fun i hi => index_inj hnodup hi ht
    refine ⟨⟨s.head, some p, update (update s.next t (some p)) p none⟩, ?_,
      ⟨?_, by simp, hnodup', fun i b hb => ?_⟩, fun q hq hqp => ?_⟩
    · rw [stateListAdd, hhead.trans (List.getElem?_eq_getElem hpos), htail.trans ht]
      rfl
    · rw [hhead, getElem?_append_left hpos]
    · have hi := hnext i b
      clear hnext hnodup hnodup'
      grind
    · have hqt : q ≠ t := fun heq => hq (heq ▸ mem_of_getElem? ht)
      exact (update_of_ne hqp ..).trans (update_of_ne hqt ..)

/-- From the `i`th element, the loop comes to the `n`th behind it. -/
theorem search_spec {n : Nat} (hnext : ∀ i a, l[i]? = some a → next a = l[i + 1]?)
    (hp : ∀ k < i + n, l[k]? ≠ some p) (hn : l[i + n]? = some p ∨ i + n = l.length)
    (previous : Option P) : search next p (n + 1) l[i]? previous =
      some (l[i + n]?, if n = 0 then previous else l[i + n - 1]?) := by
  induction n generalizing i previous with
  | zero =>
    rcases hn with hn | rfl
    · simp_all [search]
    · simp [search]
  | succ n ih =>
    have hlt : i < l.length := by grind
    have hget := List.getElem?_eq_getElem hlt
    have hne : l[i] ≠ p := fun heq => hp i (by omega) (heq ▸ hget)
    rw [hget, search, if_neg hne, hnext i _ hget, ih (by grind) (by grind)]
    grind

theorem removed_missing (hp : p ∉ l) : Removed s l p (-1) s where
  found := iff_of_false (by decide) hp
  list h := absurd h hp
  missing _ := ⟨rfl, rfl⟩
  others _ _ _ := rfl

/-- The head keeps its `next`. -/
theorem removed_head (h : IsList s l) (hp : l[0]? = some p) (ht : s.tail = some t) :
    Removed s l p 0 { s with head := s.next p, tail := if t = p then none else s.tail } ↔
      s.next p = none := by
  have hmem := mem_of_getElem? hp
  refine ⟨fun hr => (hr.list hmem).2, fun hnone => ?_⟩
  obtain rfl : l = [p] := by
    have hone := (h.next 0 p hp).symm.trans hnone
    rcases l with _ | ⟨a, _ | ⟨b, l⟩⟩ <;> grind
  obtain rfl : p = t := Option.some.inj (h.tail.symm.trans ht)
  refine ⟨iff_of_true rfl hmem, fun _ => ⟨?_, hnone⟩, fun hp => absurd hmem hp, fun _ _ _ => rfl⟩
  rw [erase_cons_head]
  exact ⟨hnone, if_pos rfl, nodup_nil, nofun⟩

theorem removed_inner (h : IsList s l) (hv : l[j]? = some v) (hj : l[j + 1]? = some p)
    (ht : s.tail = some t) : Removed s l p 0 ⟨s.head, if p = t then some v else s.tail,
      update (update s.next v l[j + 2]?) p none⟩ := by
  obtain ⟨hhead, htail, hnodup, hnext⟩ := h
  have hmem : p ∈ l := mem_of_getElem? hj
  have herase : l.erase p = l.eraseIdx (j + 1) := by
    obtain ⟨hlt, rfl⟩ := List.getElem?_eq_some_iff.mp hj
    exact hnodup.erase_getElem ..
  have hfirst : ∀ i, l[i]? = some v → i = j := fun i hi => index_inj hnodup hi hv
  have hsecond : ∀ i, l[i]? = some p → i = j + 1 := fun i hi => index_inj hnodup hi hj
  have hlast : ∀ i, l[i]? = some t → i = l.length - 1 :=
    fun i hi => index_inj hnodup hi (htail.symm.trans ht)
  refine ⟨iff_of_true rfl hmem, fun _ => ⟨⟨?_, ?_, hnodup.erase p, fun i a ha => ?_⟩,
    update_self ..⟩, fun hp => absurd hmem hp, fun q hq hqp => ?_⟩
  · rw [herase, hhead]
    grind
  · rw [herase]
    clear hnext hnodup hhead
    grind
  · rw [herase] at ha ⊢
    have hi := hnext i a
    have hi' := hnext (i + 1) a
    clear hnext hnodup hhead
    grind
  · have hqv : q ≠ v := fun heq => hq (heq ▸ mem_of_getElem? hv)
    exact (update_of_ne hqp ..).trans (update_of_ne hqv ..)

/-- **The state lists**: an added proc comes to the end, and a proc is removed as it should be
exactly if it is not the head with others behind it. -/
theorem stateLists_iff (h : IsList s l) (p : P) :
    (p ∉ l → ∃ s', stateListAdd s p = some s' ∧ IsList s' (l ++ [p]) ∧
      ∀ q ∉ l, q ≠ p → s'.next q = s.next q) ∧
    ∃ rounds r s', stateListRemove rounds s (some p) = some (r, s') ∧
      (Removed s l p r s' ↔ (s.head = some p → s.next p = none)) := by
  refine ⟨stateListAdd_spec h, ?_⟩
  cases ha : l[0]? with
  | none =>
    have hhead : s.head = none := h.head.trans ha
    have hp : p ∉ l := by grind
    exact ⟨0, -1, s, by simp [stateListRemove, hhead],
      iff_of_true (removed_missing hp) fun heq => nomatch hhead.symm.trans heq⟩
  | some a =>
    have hhead : s.head = some a := h.head.trans ha
    obtain ⟨t, ht⟩ : ∃ t, l[l.length - 1]? = some t := by grind
    rw [← h.tail] at ht
    by_cases hap : a = p
    · subst hap
      refine ⟨0, 0, _, ?_, (removed_head h ha ht).trans ⟨fun hnone _ => hnone, (· hhead)⟩⟩
      simp [stateListRemove, hhead, ht]
    have hne : s.head = some p → s.next p = none :=
      fun heq => absurd (Option.some.inj (hhead.symm.trans heq)) hap
    by_cases hp : p ∈ l
    · obtain ⟨j, hj⟩ := mem_iff_getElem?.mp hp
      obtain ⟨j, rfl⟩ := Nat.exists_eq_succ_of_ne_zero (n := j) (by grind)
      obtain ⟨v, hv⟩ : ∃ v, l[j]? = some v := by grind
      have hfirst : ∀ k < 0 + (j + 1), l[k]? ≠ some p :=
        fun k hk hkp => absurd (index_inj h.nodup hkp hj) (by omega)
      have hsearch := search_spec h.next hfirst (by simp [hj]) none
      simp only [ha, hj, hv, Nat.zero_add, Nat.add_sub_cancel, if_neg j.succ_ne_zero] at hsearch
      refine ⟨j + 2, 0, _, ?_, iff_of_true (removed_inner h hv hj ht) hne⟩
      simp only [stateListRemove, hhead, ht, if_neg hap, hsearch]
      by_cases hpt : p = t
      · have hlast := index_inj h.nodup hj (hpt ▸ h.tail.symm.trans ht)
        have hend : l[j + 2]? = none := by grind
        simp [hpt, hend]
      · simp [hpt, h.next _ p hj]
    · have hsearch := search_spec (i := 0) (n := l.length) h.next
        (fun k _ hkp => hp (mem_of_getElem? hkp)) (by simp) none
      rw [ha, Nat.zero_add, getElem?_length] at hsearch
      refine ⟨l.length + 1, -1, s, ?_, iff_of_true (removed_missing hp) hne⟩
      simp only [stateListRemove, hhead, ht, if_neg hap, hsearch]
      rfl

/-- Proc `false` with proc `true` behind it. -/
def two : Lists Bool := ⟨some false, some true, fun p => if p then none else some true⟩

theorem isList_two : IsList two [false, true] where
  head := rfl
  tail := rfl
  nodup := by decide
  next
    | 0, _, rfl => rfl
    | 1, _, rfl => rfl

theorem stateLists_iff_tail : ∃ rounds r s',
    stateListRemove rounds two (some true) = some (r, s') ∧
      Removed two [false, true] true r s' := by
  obtain ⟨rounds, r, s', heq, hiff⟩ := (stateLists_iff isList_two true).2
  exact ⟨rounds, r, s', heq, hiff.mpr fun _ => rfl⟩

theorem removed_head_keeps_next : IsList two [false, true] ∧ ∃ s',
    stateListRemove 0 two (some false) = some (0, s') ∧ s'.next false = some true :=
  ⟨isList_two, _, rfl, rfl⟩

end Xv6.StateList
