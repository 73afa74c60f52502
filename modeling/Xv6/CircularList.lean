import Mathlib.Data.List.Chain
import Mathlib.Data.List.Nodup

/-!
**Circular doubly linked lists, by their pointers.**

Nodes are linked by two functions, `next` and `prev`; one node is the head. The operations are
the pointer assignments a C program makes, in its order. `Circle h l` says that the links from
the head `h` run through `l` and back, in both directions, and that no node comes twice.
-/

namespace CircularList

open Function List

structure Links (α : Type) where
  next : α → α
  prev : α → α

variable {α : Type}

namespace Links

/-! ### Operations -/

section

variable [DecidableEq α]

/-- `b->next->prev = b->prev; b->prev->next = b->next` -/
def unlink (k : Links α) (b : α) : Links α :=
  let k1 : Links α := { k with prev := update k.prev (k.next b) (k.prev b) }
  { k1 with next := update k1.next (k1.prev b) (k1.next b) }

/-- `b->next = h->next; b->prev = h; h->next->prev = b; h->next = b` -/
def insert (k : Links α) (h b : α) : Links α :=
  let k1 : Links α :=
    { next := update k.next b (k.next h), prev := update k.prev b h }
  { next := update k1.next h b, prev := update k1.prev (k1.next h) b }

/-- Walk from `a` along `next` until the test succeeds or `h` is reached; at most `fuel` nodes. -/
def search (next : α → α) (h : α) (test : α → Bool) : Nat → α → Option α
  | 0, _ => none
  | fuel + 1, a =>
      if a = h then none else if test a then some a else search next h test fuel (next a)

end

/-! ### Circles -/

/-- `a` is followed by `b`. -/
def Joined (k : Links α) (a b : α) : Prop := k.next a = b ∧ k.prev b = a

/-- **The links run from `h` through `l` and back to `h`.** -/
structure Circle (k : Links α) (h : α) (l : List α) : Prop where
  nodup : (h :: l).Nodup
  chain : (h :: (l ++ [h])).IsChain k.Joined

variable {k : Links α} {h b : α} {l l1 l2 : List α}

theorem circle_nil (hnext : k.next h = h) (hprev : k.prev h = h) : k.Circle h [] where
  nodup := nodup_singleton h
  chain := isChain_pair.mpr ⟨hnext, hprev⟩

theorem Circle.notMem (hc : k.Circle h l) : h ∉ l := (nodup_cons.mp hc.nodup).1

variable [DecidableEq α] {test : α → Bool} {fuel : Nat}

/-- Unlinking changes `next` of the node before and `prev` of the node after. -/
theorem Joined.unlink {u w : α} (hu : k.Joined u b) (hw : k.Joined b w) (hwb : w ≠ b) :
    k.unlink b = { next := update k.next u w, prev := update k.prev w u } := by
  have hbw : b ≠ w := hwb.symm
  simp [Links.unlink, hw.1, hu.2, hbw]

/-- **Unlinking** a node takes it out of the circle. -/
theorem Circle.unlink (hc : k.Circle h (l1 ++ b :: l2)) : (k.unlink b).Circle h (l1 ++ l2) := by
  -- `u` comes before `b` and `w` after it; each may be the head
  obtain ⟨init, u, hinit⟩ : ∃ init u, h :: l1 = init ++ [u] :=
    ⟨_, _, (dropLast_concat_getLast (cons_ne_nil h l1)).symm⟩
  obtain ⟨w, rest, hrest⟩ :=
    exists_cons_of_ne_nil (append_ne_nil_of_right_ne_nil l2 (cons_ne_nil h []))
  have hnodup : (b :: (h :: l1 ++ l2)).Nodup := by
    have hperm : (h :: l1 ++ b :: l2).Perm (b :: (h :: l1 ++ l2)) := perm_middle
    exact hperm.nodup_iff.mp hc.nodup
  obtain ⟨hb, hothers⟩ := nodup_cons.mp hnodup
  have hbefore : b ∉ init ++ [u] := by
    rw [← hinit]
    exact fun hmem => hb (mem_append_left l2 hmem)
  have hafter : b ∉ w :: rest := by
    rw [← hrest]
    intro hmem
    rcases mem_append.mp hmem with hmem | hmem
    · exact hb (mem_append_right _ hmem)
    · exact hb (by simp [mem_singleton.mp hmem])
  have hchain := hc.chain
  have hsplit : h :: (l1 ++ b :: l2 ++ [h]) = init ++ u :: b :: (w :: rest) := by
    rw [← hrest, append_cons init, ← hinit]
    simp
  rw [hsplit, isChain_append_cons_cons, isChain_cons_cons] at hchain
  obtain ⟨hinitc, hub, hbw, hrestc⟩ := hchain
  have hwb : w ≠ b := fun heq => hafter (heq ▸ (.head _))
  -- no other link mentions `b`, so none of them starts at `u` or ends at `w`
  have hkeep : ∀ a c, a ≠ b → c ≠ b → k.Joined a c → (k.unlink b).Joined a c := by
    intro a c ha hc hac
    have hau : a ≠ u := fun heq => hc (by rw [← hac.1, heq, hub.1])
    have hcw : c ≠ w := fun heq => ha (by rw [← hac.2, heq, hbw.2])
    rw [hub.unlink hbw hwb]
    exact ⟨by simpa [hau] using hac.1, by simpa [hcw] using hac.2⟩
  have hlink : (k.unlink b).Joined u w := by
    rw [hub.unlink hbw hwb]
    exact ⟨by simp, by simp⟩
  refine ⟨hothers, ?_⟩
  have hjoin : h :: (l1 ++ l2 ++ [h]) = init ++ u :: (w :: rest) := by
    rw [← hrest, append_cons init, ← hinit]
    simp
  rw [hjoin, isChain_append_cons_cons]
  refine ⟨hinitc.imp_of_mem_imp fun a c ha hc hac => ?_, hlink,
    hrestc.imp_of_mem_imp fun a c ha hc hac => ?_⟩
  · exact hkeep a c (fun heq => hbefore (heq ▸ ha)) (fun heq => hbefore (heq ▸ hc)) hac
  · exact hkeep a c (fun heq => hafter (heq ▸ ha)) (fun heq => hafter (heq ▸ hc)) hac

/-- **Inserting** a node behind the head. -/
theorem Circle.insert (hc : k.Circle h l) (hbh : b ≠ h) (hbl : b ∉ l) :
    (k.insert h b).Circle h (b :: l) := by
  obtain ⟨w, rest, hrest⟩ :=
    exists_cons_of_ne_nil (append_ne_nil_of_right_ne_nil l (cons_ne_nil h []))
  have hchain := hc.chain
  rw [hrest, isChain_cons_cons] at hchain
  obtain ⟨hhw, hrestc⟩ := hchain
  have hmem : ∀ x, x ∈ w :: rest ↔ x = h ∨ x ∈ l := by
    intro x
    rw [← hrest, mem_append, mem_singleton, or_comm]
  have hb : b ∉ w :: rest := fun hin => ((hmem b).mp hin).elim hbh hbl
  have hwb : w ≠ b := fun heq => hb (heq ▸ (.head _))
  have hhb : h ≠ b := hbh.symm
  have hnodup : (w :: rest).Nodup := by
    rw [← hrest]
    have hperm : (l ++ [h]).Perm (h :: l) := perm_append_comm
    exact hperm.nodup_iff.mpr hc.nodup
  have hw : w ∉ rest := (nodup_cons.mp hnodup).1
  have hins : k.insert h b =
      { next := update (update k.next b w) h b
        prev := update (update k.prev b h) w b } := by
    simp [Links.insert, hhw.1, hhb]
  constructor
  · rw [nodup_cons, mem_cons, not_or, nodup_cons]
    exact ⟨⟨hhb, hc.notMem⟩, hbl, (nodup_cons.mp hc.nodup).2⟩
  · rw [cons_append, hrest, isChain_cons_cons, isChain_cons_cons, hins]
    refine ⟨⟨by simp, by simp [hwb.symm]⟩, ⟨by simp [hbh], by simp⟩, ?_⟩
    refine hrestc.imp_of_mem_tail_imp fun a c ha hc' hac => ?_
    have hcw : c ≠ w := fun heq => hw (heq ▸ hc')
    have hab : a ≠ b := fun heq => hb (heq ▸ ha)
    have hcb : c ≠ b := fun heq => hb (heq ▸ mem_cons_of_mem w hc')
    -- the head is the last node of `w :: rest`; a link from it would lead to `w`
    have hah : a ≠ h := fun heq => hcw (by rw [← hac.1, heq, hhw.1])
    exact ⟨by simpa [hah, hab] using hac.1, by simpa [hcw, hcb] using hac.2⟩

/-! ### Searching -/

theorem search_of_chain {next : α → α} (hh : h ∉ l) {a : α}
    (hchain : (a :: (l ++ [h])).IsChain fun x y => next x = y) (hfuel : l.length ≤ fuel) :
    search next h test fuel (next a) = l.find? test := by
  induction l generalizing a fuel with
  | nil =>
    have hend : next a = h := (isChain_cons_cons.mp hchain).1
    cases fuel with
    | zero => rfl
    | succ => simp [search, hend]
  | cons b l ih =>
    obtain ⟨hnext, htail⟩ := isChain_cons_cons.mp hchain
    obtain ⟨hne, hh'⟩ := not_or.mp (fun hor => hh (mem_cons.mpr hor))
    cases fuel with
    | zero => simp at hfuel
    | succ fuel =>
      have hrec : search next h test fuel (next b) = l.find? test :=
        ih hh' htail (Nat.le_of_succ_le_succ hfuel)
      rw [hnext, search, if_neg (Ne.symm hne), hrec]
      by_cases htest : test b
      · rw [if_pos htest, List.find?_cons_of_pos htest]
      · rw [if_neg htest, List.find?_cons_of_neg htest]

theorem search_test {next : α → α} {a : α} (heq : search next h test fuel a = some b) :
    test b = true := by
  induction fuel generalizing a with
  | zero => cases heq
  | succ fuel ih =>
    rw [search] at heq
    split at heq
    · cases heq
    split at heq
    next htest =>
      cases heq
      exact htest
    · exact ih heq

/-- **Walking forward from the head** finds the first node of `l` that passes. -/
theorem Circle.search_next (hc : k.Circle h l) (hfuel : l.length ≤ fuel) :
    search k.next h test fuel (k.next h) = l.find? test :=
  search_of_chain hc.notMem (hc.chain.imp fun _ _ hab => hab.1) hfuel

end Links

end CircularList
