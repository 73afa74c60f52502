import Mathlib.Data.List.Cycle

/-!
**Circular singly linked lists, by their pointers.**

`Linked next c` says that following `next` leads once around the nodes of `c` and back to the
first. A cycle can be entered anywhere (`Linked.rotate`), so that what is done behind a node is
proved for the first node: linking one in (`Linked.insert`) and taking one out
(`Linked.remove`). In a cycle without repetitions every node has one predecessor
(`Linked.pred_unique`).
-/

namespace LinkedCycle

open Function List

variable {α : Type} {next next' : α → α} {c u v : List α} {a b p x y : α}

/-- Following `next` leads around `c`. -/
def Linked (next : α → α) (c : List α) : Prop := Cycle.Chain (fun x y => next x = y) (c : Cycle α)

theorem linked_cons :
    Linked next (a :: c) ↔ List.IsChain (fun x y => next x = y) (a :: (c ++ [a])) :=
  Cycle.chain_coe_cons _ a c

theorem Linked.rotate (h : Linked next (u ++ v)) : Linked next (v ++ u) := by
  have hrot : ((v ++ u : List α) : Cycle α) = (u ++ v : List α) :=
    Quotient.sound isRotated_append
  rw [Linked, hrot]
  exact h

theorem isChain_congr (heq : ∀ x ∈ c, next' x = next x)
    (h : List.IsChain (fun x y => next x = y) (c ++ [a])) :
    List.IsChain (fun x y => next' x = y) (c ++ [a]) := by
  induction c with
  | nil => exact isChain_singleton _
  | cons x c ih =>
    have htail := ih fun y hy => heq y (mem_cons_of_mem x hy)
    have hx := heq x mem_cons_self
    cases c with
    | nil =>
      simp only [cons_append, nil_append, isChain_cons_cons] at h ⊢
      exact ⟨hx.trans h.1, isChain_singleton _⟩
    | cons =>
      simp only [cons_append, isChain_cons_cons] at h htail ⊢
      exact ⟨hx.trans h.1, htail h.2⟩

theorem Linked.next_eq (h : Linked next (u ++ p :: x :: v)) : next p = x := by
  have hrot := h.rotate
  rw [cons_append, linked_cons, cons_append, cons_append, isChain_cons_cons] at hrot
  exact hrot.1

theorem Linked.next_last (h : Linked next (a :: (c ++ [p]))) : next p = a := by
  have hrot : Linked next (p :: a :: c) := Linked.rotate (u := a :: c) h
  exact hrot.next_eq (u := [])

theorem perm_rotate (u : List α) (p : α) (v : List α) : (u ++ p :: v).Perm (p :: (v ++ u)) :=
  perm_append_comm

theorem nodup_rotate (h : (u ++ p :: v).Nodup) : (p :: (v ++ u)).Nodup :=
  (perm_rotate u p v).nodup_iff.mp h

section

variable [DecidableEq α]

theorem Linked.insert_first (h : Linked next (p :: v)) (hnodup : (p :: v).Nodup) (hx : x ∉ p :: v) :
    Linked (update (update next x (next p)) p x) (p :: x :: v) := by
  obtain ⟨hxp, hxv⟩ := ne_and_not_mem_of_not_mem_cons hx
  have hpv := (nodup_cons.mp hnodup).1
  have hnext_x : update (update next x (next p)) p x x = next p := by
    rw [update_of_ne hxp, update_self]
  have hsame : ∀ y ∈ v, update (update next x (next p)) p x y = next y := by
    intro y hy
    rw [update_of_ne (ne_of_mem_of_not_mem hy hpv), update_of_ne (ne_of_mem_of_not_mem hy hxv)]
  rw [linked_cons] at h ⊢
  rw [cons_append, isChain_cons_cons]
  refine ⟨update_self .., ?_⟩
  cases v with
  | nil =>
    rw [nil_append, isChain_pair] at h ⊢
    exact hnext_x.trans h
  | cons y v =>
    rw [cons_append, isChain_cons_cons] at h ⊢
    exact ⟨hnext_x.trans h.1, isChain_congr hsame h.2⟩

theorem Linked.remove_first (h : Linked next (p :: x :: v)) (hnodup : (p :: x :: v).Nodup) :
    Linked (update next p (next x)) (p :: v) := by
  have hpv : p ∉ v := fun hp => (nodup_cons.mp hnodup).1 (mem_cons_of_mem x hp)
  have hsame : ∀ y ∈ v, update next p (next x) y = next y := by
    intro y hy
    exact update_of_ne (ne_of_mem_of_not_mem hy hpv) _ _
  rw [linked_cons, cons_append, isChain_cons_cons] at h
  rw [linked_cons]
  obtain ⟨-, h⟩ := h
  cases v with
  | nil =>
    rw [nil_append, isChain_pair] at h ⊢
    exact (update_self ..).trans h
  | cons y v =>
    rw [cons_append, isChain_cons_cons] at h ⊢
    exact ⟨(update_self ..).trans h.1, isChain_congr hsame h.2⟩

/-- Link `x` in behind `p`: `x->next = p->next; p->next = x`. -/
theorem Linked.insert (h : Linked next (u ++ p :: v)) (hnodup : (u ++ p :: v).Nodup)
    (hx : x ∉ u ++ p :: v) :
    Linked (update (update next x (next p)) p x) (u ++ p :: x :: v) := by
  have hrot : Linked next (p :: (v ++ u)) := h.rotate
  have hx' : x ∉ p :: (v ++ u) := fun hin => hx ((perm_rotate u p v).mem_iff.mpr hin)
  exact Linked.rotate (hrot.insert_first (nodup_rotate hnodup) hx')

/-- Take out the node behind `p`: `p->next = p->next->next`. -/
theorem Linked.remove (h : Linked next (u ++ p :: x :: v)) (hnodup : (u ++ p :: x :: v).Nodup) :
    Linked (update next p (next x)) (u ++ p :: v) := by
  have hrot : Linked next (p :: x :: (v ++ u)) := h.rotate
  exact Linked.rotate (hrot.remove_first (nodup_rotate hnodup))

end

theorem Linked.enter (h : Linked next c) (hx : x ∈ c) :
    ∃ u v, c = u ++ x :: v ∧ Linked next (x :: (v ++ u)) := by
  obtain ⟨u, v, rfl⟩ := append_of_mem hx
  exact ⟨u, v, rfl, h.rotate⟩

theorem next_mem_of_isChain (h : List.IsChain (fun x y => next x = y) (a :: (c ++ [b]))) :
    next a ∈ c ++ [b] := by
  cases c with
  | nil =>
    rw [nil_append, isChain_pair] at h
    exact mem_singleton.mpr h
  | cons =>
    rw [cons_append, isChain_cons_cons] at h
    exact h.1 ▸ .head _

theorem Linked.next_mem (h : Linked next c) (hx : x ∈ c) : next x ∈ c := by
  obtain ⟨u, v, rfl, hlinked⟩ := h.enter hx
  apply (perm_rotate u x v).mem_iff.mpr
  rcases mem_append.mp (next_mem_of_isChain hlinked) with hin | hin
  · exact mem_cons_of_mem x hin
  · rw [mem_singleton.mp hin]
    exact .head _

theorem Linked.pred_unique (h : Linked next c) (hnodup : c.Nodup) (hx : x ∈ c) (hy : y ∈ c)
    (heq : next x = next y) : x = y := by
  obtain ⟨u, v, rfl, hlinked⟩ := h.enter hx
  by_contra hne
  have hnodup' : (x :: (v ++ u)).Nodup := nodup_rotate hnodup
  have hy' : y ∈ v ++ u := by
    rcases mem_cons.mp ((perm_rotate u x v).mem_iff.mp hy) with rfl | hin
    · exact absurd rfl hne
    · exact hin
  obtain ⟨l1, l2, hsplit⟩ := append_of_mem hy'
  rw [hsplit] at hlinked hnodup'
  rw [linked_cons] at hlinked
  -- `next x` comes before `y` or is `y`, and `next y` comes behind it
  have hnx : next x ∈ l1 ++ [y] := by
    apply next_mem_of_isChain
    rw [append_assoc, cons_append, isChain_cons_split] at hlinked
    exact hlinked.1
  have hny : next y ∈ l2 ++ [x] := by
    apply next_mem_of_isChain
    rw [append_assoc, cons_append, isChain_cons_split] at hlinked
    exact hlinked.2
  grind

end LinkedCycle
