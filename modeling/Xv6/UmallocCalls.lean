import Xv6.UmallocHeap

/-!
**`malloc` on the tiling, and every run of a program that calls it.**

The loop of `malloc` goes around the free list once. If a block fits it takes one; otherwise it
asks for memory, which `free` puts on the list as a block that fits, so the second time around
finds it. Both loops therefore return, with rounds to spare.
-/

namespace Xv6.Umalloc

open LinkedCycle Function List
open Vm (KERNBASE)

section

variable {L : Layout} {m m' m'' : Mem} {segs segs' pre post : List Seg} {n q p prevp : Nat}
  {used : List Nat}

/-! ### Taking a block -/

/-- **What taking a block makes of the heap**: `q` is in use with `n` units, and the other blocks
in use are as they were. -/
structure Taken (L : Layout) (m m' : Mem) (used : List Nat) (q n : Nat) (segs' : List Seg) :
    Prop where
  heap : Heap L m' segs'
  places : ∀ a, a ∈ places false L.start segs' ↔ a = q ∨ a ∈ used
  fresh : q ∉ used
  size : m'.size q = n
  sizes : ∀ a ∈ used, m'.size a = m.size a

theorem Same.taken (h : Same L m m' used segs) (h' : Taken L m' m'' used q n segs') :
    Taken L m m'' used q n segs' :=
  ⟨h'.heap, h'.places, h'.fresh, h'.size, fun a ha => (h'.sizes a ha).trans (h.sizes a ha)⟩

variable (h : Heap L m (pre ++ ⟨true, n⟩ :: post))
include h

variable (hp : p = L.start + 8 * width pre)
include hp

theorem Heap.around (hprev : prevp ∈ nodes L (pre ++ ⟨true, n⟩ :: post)) (hnext : m.ptr prevp = p) :
    ∃ u, nodes L pre = u ++ [prevp] ∧
      nodes L (pre ++ ⟨true, n⟩ :: post) = u ++ prevp :: p :: places true (p + 8 * n) post := by
  have hnodup := (nodes_sorted (L := L) h.pos).imp Nat.ne_of_lt
  have hcycle := h.cycle
  have hnodes : nodes L (pre ++ ⟨true, n⟩ :: post) =
      nodes L pre ++ p :: places true (p + 8 * n) post := by
    rw [nodes_append, ← hp]
    rfl
  rcases eq_nil_or_concat' (nodes L pre) with hnil | ⟨u, x, hu⟩
  · cases hnil
  rw [hu, append_assoc] at hnodes
  rw [hnodes] at hcycle hnodup hprev
  have hx : x = prevp := by
    apply hcycle.pred_unique hnodup _ hprev (hcycle.next_eq.trans hnext.symm)
    exact mem_append_right u mem_cons_self
  subst hx
  exact ⟨u, hu, hnodes⟩

theorem Heap.beside :
    Sized m.size L.start pre ∧ Sized m.size (p + 8 * n) post ∧
      Apart (pre.map Seg.free ++ [true]) ∧ Apart (pre.map Seg.free) ∧ Apart (post.map Seg.free) := by
  obtain ⟨-, -, -, hapart⟩ := tight_append.mp h.toTight
  obtain ⟨hleft, hright⟩ := apart_true.mp hapart
  obtain ⟨hpre, -, hpost⟩ := sized_append.mp h.sized
  rw [← hp] at hpost
  exact ⟨hpre, hpost, hleft, List.IsChain.left_of_append hleft, List.IsChain.tail hright⟩

theorem take_exact (hprev : prevp ∈ nodes L (pre ++ ⟨true, n⟩ :: post)) (hnext : m.ptr prevp = p) :
    Taken L m { m.setPtr prevp (m.ptr p) with freep := prevp }
      (places false L.start (pre ++ ⟨true, n⟩ :: post)) p n (pre ++ ⟨false, n⟩ :: post) := by
  obtain ⟨hpre, hn, hpost, -⟩ := tight_append.mp h.toTight
  obtain ⟨hsized, hsized', -, hapart, hapart'⟩ := h.beside hp
  obtain ⟨u, hu, hnodes⟩ := h.around hp hprev hnext
  have hnodup := (nodes_sorted (L := L) h.pos).imp Nat.ne_of_lt
  have hcycle := h.cycle
  have hsize : m.size p = n := hp ▸ h.sized.at
  have hnodes' : nodes L (pre ++ ⟨false, n⟩ :: post) = u ++ prevp :: places true (p + 8 * n) post := by
    rw [nodes_append, ← hp, hu, append_assoc]
    rfl
  have hused : places false L.start (pre ++ ⟨true, n⟩ :: post) =
      places false L.start pre ++ places false (p + 8 * n) post := by
    rw [places_append, ← hp]
    rfl
  rw [hnodes] at hcycle hnodup
  rw [hused]
  simp only at hn
  constructor
  · constructor
    · exact tight_append.mpr ⟨hpre, hn, hpost, apart_false.mpr ⟨hapart, hapart'⟩⟩
    · rw [hnodes']
      exact hcycle.remove hnodup
    · rw [sized_append, ← hp]
      exact ⟨hsized, hsize, hsized'⟩
    · exact h.base
    · have hbrk := h.brk
      rw [width_append] at hbrk ⊢
      exact hbrk
    · exact h.limit
    · rw [hnodes']
      exact mem_append_right u mem_cons_self
  · intro a
    rw [places_append, ← hp]
    simp only [places, if_true, mem_append, mem_cons]
    tauto
  · intro hin
    have hside := mem_beside hpre hpost hin
    omega
  · exact hsize
  · intro a _
    rfl

omit h

omit hp

theorem take_split {k : Nat} (h : Heap L m (pre ++ ⟨true, k + n⟩ :: post))
    (hp : p = L.start + 8 * width pre) (hk : 0 < k) (hn : 0 < n)
    (hprev : prevp ∈ nodes L (pre ++ ⟨true, k + n⟩ :: post)) :
    Taken L m { (m.setSize p k).setSize (p + 8 * k) n with freep := prevp }
      (places false L.start (pre ++ ⟨true, k + n⟩ :: post)) (p + 8 * k) n
      (pre ++ ⟨true, k⟩ :: ⟨false, n⟩ :: post) := by
  obtain ⟨hpre, -, hpost, -⟩ := tight_append.mp h.toTight
  obtain ⟨hsized, hsized', hapart, -, hapart'⟩ := h.beside hp
  have haddr : p + 8 * (k + n) = p + 8 * k + 8 * n := by omega
  have hother : ∀ a, a ≠ p → a ≠ p + 8 * k →
      ((m.setSize p k).setSize (p + 8 * k) n).size a = m.size a := by
    intro a hne hne'
    exact (update_of_ne hne' _ _).trans (update_of_ne hne _ _)
  have hnodes : nodes L (pre ++ ⟨true, k⟩ :: ⟨false, n⟩ :: post) =
      nodes L (pre ++ ⟨true, k + n⟩ :: post) := by
    rw [nodes_append, nodes_append, ← hp]
    simp only [places, haddr, Bool.false_eq_true, if_false]
  have hused : places false L.start (pre ++ ⟨true, k + n⟩ :: post) =
      places false L.start pre ++ places false (p + 8 * k + 8 * n) post := by
    rw [places_append, ← hp, ← haddr]
    rfl
  rw [haddr] at hsized'
  rw [hused]
  constructor
  · constructor
    · apply tight_append.mpr
      refine ⟨hpre, hk, ?_, apart_true.mpr ⟨hapart, ?_⟩⟩
      · exact forall_mem_cons.mpr ⟨hn, hpost⟩
      · exact apart_false.mpr ⟨isChain_singleton _, hapart'⟩
    · rw [hnodes]
      exact h.cycle
    · rw [sized_append, ← hp]
      refine ⟨hsized.congr hpre fun x _ hlt => hother x (by omega) (by omega), ?_, ?_, ?_⟩
      · have hne : p ≠ p + 8 * k := by omega
        exact (update_of_ne hne _ _).trans (update_self ..)
      · exact update_self ..
      · apply hsized'.congr hpost
        intro x hle _
        exact hother x (by omega) (by omega)
    · have hbelow := L.below
      exact (hother L.base (by omega) (by omega)).trans h.base
    · have hbrk := h.brk
      rw [width_append, width_cons] at hbrk ⊢
      simp only [Nat.add_assoc k] at hbrk ⊢
      exact hbrk
    · exact h.limit
    · rw [hnodes]
      exact hprev
  · intro a
    rw [places_append, ← hp]
    simp only [places, if_true, Bool.true_eq_false, if_false, mem_append, mem_cons]
    tauto
  · intro hin
    have hside := mem_beside hpre hpost hin
    omega
  · exact update_self ..
  · intro a ha
    have hside := mem_beside hpre hpost ha
    exact hother a (by omega) (by omega)

/-- **`malloc` takes a block that fits.** -/
theorem take_spec (h : Heap L m segs) (hprev : prevp ∈ nodes L segs) (hn : 0 < n)
    (hfit : n ≤ m.size (m.ptr prevp)) :
    ∃ q m' segs', take m n prevp (m.ptr prevp) = (q + 8, m') ∧
      Taken L m m' (places false L.start segs) q n segs' := by
  have hnode : m.ptr prevp ∈ nodes L segs := h.cycle.next_mem hprev
  rcases mem_cons.mp hnode with hbase | hfree
  · rw [hbase, h.base] at hfit
    omega
  obtain ⟨pre, post, hsegs, hp⟩ := h.size_free hfree
  rw [take]
  by_cases hexact : m.size (m.ptr prevp) = n
  · rw [if_pos hexact]
    rw [hexact] at hsegs
    subst hsegs
    exact ⟨_, _, _, rfl, take_exact h hp hprev rfl⟩
  · rw [if_neg hexact]
    obtain ⟨k, hk⟩ := Nat.exists_eq_add_of_le' hfit
    have hkpos : 0 < k := by omega
    rw [hk] at hsegs
    subst hsegs
    refine ⟨m.ptr prevp + 8 * k, _, _, ?_, take_split h hp hkpos hn hprev⟩
    simp only [Mem.setSize, update_self, hk, Nat.add_sub_cancel]

/-! ### More memory -/

theorem Heap.same_calls (h : Heap L m segs) :
    Same L m { m with calls := m.calls + 1 } (places false L.start segs) segs where
  heap := ⟨h.toTight, h.cycle, h.sized, h.base, h.brk, h.limit, h.freep⟩
  places := rfl
  sizes := fun _ _ => rfl

theorem Heap.extend (h : Heap L m segs) (hn : 0 < n) (hroom : m.brk + 8 * n < KERNBASE) :
    Heap L (Mem.setSize { m with brk := m.brk + 8 * n, calls := m.calls + 1 } m.brk n)
      (segs ++ [⟨false, n⟩]) := by
  have hbrk := h.brk
  have hother : ∀ a, a < m.brk → update m.size m.brk n a = m.size a := by
    intro a ha
    exact update_of_ne (Nat.ne_of_lt ha) _ _
  have hnodes : nodes L (segs ++ [⟨false, n⟩]) = nodes L segs := by
    rw [nodes_append]
    exact append_nil _
  constructor
  · exact tight_append.mpr ⟨h.pos, hn, fun t ht => absurd ht not_mem_nil,
      apart_false.mpr ⟨h.apart, isChain_nil⟩⟩
  · rw [hnodes]
    exact h.cycle
  · rw [sized_append, ← hbrk]
    refine ⟨h.sized.congr h.pos ?_, update_self .., trivial⟩
    intro x _ hlt
    exact hother x (by omega)
  · have hbelow := L.below
    exact (hother L.base (by omega)).trans h.base
  · rw [width_append, width_cons, width_nil]
    simp only [Mem.setSize]
    omega
  · exact hroom
  · rw [hnodes]
    exact h.freep

/-- **`morecore` fails, or there is a free block that is large enough.** -/
theorem morecore_spec (h : Heap L m segs) (hn : n ≤ 2 ^ 28) :
    ∃ r m' segs', morecore m n = some (r, m') ∧
      ((r = 0 ∧ Same L m m' (places false L.start segs) segs') ∨
        (r = m'.freep ∧ r ≠ 0 ∧ Freed L m m' (places false L.start segs) n segs')) := by
  obtain ⟨nu, hnu⟩ : ∃ nu, nu = if n < 4096 then 4096 else n := ⟨_, rfl⟩
  have hbounds : n ≤ nu ∧ 0 < nu ∧ nu ≤ 2 ^ 28 := by split at hnu <;> omega
  obtain ⟨hle, hpos, hmax⟩ := hbounds
  have hbytes : nu * 8 % 2 ^ 32 = 8 * nu := by omega
  rw [morecore, ← hnu]
  simp only [hbytes, sbrk]
  by_cases hdeny : m.denies m.calls = true ∨ KERNBASE ≤ m.brk + 8 * nu
  · rw [if_pos hdeny]
    exact ⟨0, _, segs, rfl, .inl ⟨rfl, h.same_calls⟩⟩
  rw [if_neg hdeny]
  have hroom : m.brk + 8 * nu < KERNBASE := Nat.lt_of_not_le fun hge => hdeny (.inr hge)
  obtain ⟨m', segs', hfree, hfreed⟩ := free_spec (h.extend hpos hroom) h.brk
  have hnone : places false L.start segs ++ places false (m.brk + 8 * nu) [] =
      places false L.start segs := append_nil _
  rw [hnone] at hfreed
  have hbrk := h.brk
  simp only [hfree]
  refine ⟨m'.freep, m', segs', rfl, .inr ⟨rfl, ?_, ⟨hfreed.heap, hfreed.places, ?_⟩, ?_⟩⟩
  · have hmem := hfreed.heap.freep
    have hposBase := L.pos
    have hbelow := L.below
    rcases mem_cons.mp hmem with heq | hin
    · omega
    · have hge := (mem_places hfreed.heap.pos hin).1
      omega
  · intro a ha
    have hlt := (mem_places h.pos ha).2
    rw [hfreed.sizes a ha]
    exact update_of_ne (by omega) _ _
  · obtain ⟨a, ha, hlarge⟩ := hfreed.large
    exact ⟨a, ha, Nat.le_trans hle hlarge⟩

/-! ### The loop -/

/-- Going around the free list: a block fits, or none does and `morecore` is called. -/
theorem search_around : ∀ (l : List Nat) (fuel : Nat) {prevp : Nat},
    List.IsChain (fun x y => m.ptr x = y) (prevp :: (l ++ [m.freep])) →
    (∀ x ∈ prevp :: l, x ∈ nodes L segs) → m.freep ∉ l →
    (∃ x ∈ nodes L segs, n ≤ m.size (m.ptr x) ∧
      search n (fuel + l.length + 1) prevp (m.ptr prevp) m = some (take m n x (m.ptr x))) ∨
    ((∀ x ∈ l ++ [m.freep], m.size x < n) ∧
      search n (fuel + l.length + 1) prevp (m.ptr prevp) m =
        match morecore m n with
        | none => none
        | some (0, m') => some (0, m')
        | some (p, m') => search n fuel p (m'.ptr p) m') := by
  intro l
  induction l with
  | nil =>
    intro fuel prevp hchain hnodes _
    rw [nil_append, isChain_pair] at hchain
    rw [search]
    by_cases hfit : n ≤ m.size (m.ptr prevp)
    · exact .inl ⟨prevp, hnodes prevp mem_cons_self, hfit, if_pos hfit⟩
    rw [if_neg hfit, if_pos hchain]
    rw [hchain] at hfit
    refine .inr ⟨fun x hx => ?_, rfl⟩
    rw [mem_singleton.mp hx]
    exact Nat.lt_of_not_le hfit
  | cons y l ih =>
    intro fuel prevp hchain hnodes hfreep
    rw [cons_append, isChain_cons_cons] at hchain
    obtain ⟨hnext, hchain⟩ := hchain
    obtain ⟨hne, hfreep⟩ := ne_and_not_mem_of_not_mem_cons hfreep
    rw [search, hnext]
    by_cases hfit : n ≤ m.size y
    · refine .inl ⟨prevp, hnodes prevp mem_cons_self, ?_, ?_⟩
      · rw [hnext]
        exact hfit
      · rw [if_pos hfit, hnext]
    · rw [if_neg hfit, if_neg hne.symm]
      rcases ih fuel hchain (fun x hx => hnodes x (mem_cons_of_mem prevp hx)) hfreep with
        hfound | ⟨hnone, hmore⟩
      · exact .inl hfound
      · exact .inr ⟨forall_mem_cons.mpr ⟨Nat.lt_of_not_le hfit, hnone⟩, hmore⟩

theorem Heap.tour (h : Heap L m segs) : ∃ l : List Nat,
    List.IsChain (fun x y => m.ptr x = y) (m.freep :: (l ++ [m.freep])) ∧
      (∀ x, x ∈ m.freep :: l ↔ x ∈ nodes L segs) ∧ m.freep ∉ l ∧
      l.length = (places true L.start segs).length := by
  have hnodup := (nodes_sorted (L := L) h.pos).imp Nat.ne_of_lt
  obtain ⟨u, v, hnodes, hlinked⟩ := h.cycle.enter h.freep
  rw [hnodes] at hnodup
  have hlen : (nodes L segs).length = (u ++ m.freep :: v).length := congrArg List.length hnodes
  refine ⟨v ++ u, linked_cons.mp hlinked, fun x => ?_, ?_, ?_⟩
  · rw [hnodes]
    exact (perm_rotate u m.freep v).mem_iff.symm
  · exact (nodup_cons.mp (nodup_rotate hnodup)).1
  · rw [(perm_rotate u m.freep v).length_eq] at hlen
    exact (Nat.succ.inj hlen).symm

/-- **The loop of `malloc` returns**: with a block, or with 0 when there is no memory. -/
theorem search_spec (h : Heap L m segs) (hpos : 0 < n) (hmax : n ≤ 2 ^ 28) :
    ∃ r m' segs', search n ROUNDS m.freep (m.ptr m.freep) m = some (r, m') ∧
      ((r = 0 ∧ Same L m m' (places false L.start segs) segs') ∨
        ∃ q, r = q + 8 ∧ Taken L m m' (places false L.start segs) q n segs') := by
  obtain ⟨l, hchain, hmem, hfreep, hlen⟩ := h.tour
  have hrounds := h.rounds
  obtain ⟨fuel, hfuel⟩ : ∃ fuel, ROUNDS = fuel + l.length + 1 := ⟨ROUNDS - l.length - 1, by omega⟩
  rw [hfuel]
  rcases search_around l fuel hchain (fun x hx => (hmem x).mp hx) hfreep with
    ⟨x, hx, hfit, hfound⟩ | ⟨-, hmore⟩
  · obtain ⟨q, m', segs', htake, htaken⟩ := take_spec h hx hpos hfit
    exact ⟨q + 8, m', segs', hfound.trans (congrArg some htake), .inr ⟨q, rfl, htaken⟩⟩
  obtain ⟨r, m', segs', hcore, ⟨rfl, hsame⟩ | ⟨hr, hne, hfreed⟩⟩ := morecore_spec h hmax
  · rw [hcore] at hmore
    exact ⟨0, m', segs', hmore, .inl ⟨rfl, hsame⟩⟩
  rw [hcore] at hmore
  obtain ⟨r, rfl⟩ := Nat.exists_eq_succ_of_ne_zero hne
  -- the second time around a block fits
  obtain ⟨l', hchain', hmem', hfreep', hlen'⟩ := hfreed.heap.tour
  have hrounds' := hfreed.heap.rounds
  obtain ⟨fuel', rfl⟩ : ∃ fuel', fuel = fuel' + l'.length + 1 :=
    ⟨fuel - l'.length - 1, by omega⟩
  have hagain : search n (fuel' + l'.length + 1 + l.length + 1) m.freep (m.ptr m.freep) m =
      search n (fuel' + l'.length + 1) m'.freep (m'.ptr m'.freep) m' := by
    rw [← hr]
    exact hmore
  rcases search_around l' fuel' hchain' (fun x hx => (hmem' x).mp hx) hfreep' with
    ⟨x, hx, hfit, hfound⟩ | ⟨hnone, -⟩
  · obtain ⟨q, m'', segs'', htake, htaken⟩ := take_spec hfreed.heap hx hpos hfit
    rw [hfreed.places] at htaken
    refine ⟨q + 8, m'', segs'', ?_, .inr ⟨q, rfl, hfreed.toSame.taken htaken⟩⟩
    rw [hagain, hfound, htake]
  · obtain ⟨a, ha, hlarge⟩ := hfreed.large
    have hin : a ∈ m'.freep :: l' := (hmem' a).mpr (.tail _ ha)
    have hsmall := hnone a ((perm_rotate l' m'.freep []).mem_iff.mpr (by simpa using hin))
    omega

theorem init_spec (hfreep : m.freep = 0) (hbrk : m.brk = L.start) : Heap L (init L m) [] := by
  rw [init, if_pos hfreep]
  constructor
  · exact ⟨fun t ht => absurd ht not_mem_nil, isChain_nil⟩
  · exact linked_cons.mpr (isChain_pair.mpr (update_self ..))
  · trivial
  · exact update_self ..
  · exact hbrk
  · simp only [Mem.setPtr, hbrk]
    exact L.fits
  · exact .head _

theorem Heap.freep_ne (h : Heap L m segs) : m.freep ≠ 0 := by
  have hpos := L.pos
  have hbelow := L.below
  rcases mem_cons.mp h.freep with heq | hin
  · omega
  · have hge := (mem_places h.pos hin).1
    omega

theorem units_spec {nbytes : Nat} (hlt : nbytes < 2 ^ 30) :
    0 < units nbytes ∧ units nbytes ≤ 2 ^ 28 ∧ nbytes + 8 ≤ 8 * units nbytes := by
  rw [units]
  omega

end

/-! ### Runs -/

/-- **The pointers that are live are those of the segments in use.** -/
structure Owns (L : Layout) (s : State) (segs : List Seg) : Prop where
  heap : Heap L s.mem segs
  live : ∀ ap, ap ∈ s.live.map Prod.fst ↔ ∃ q ∈ places false L.start segs, ap = q + 8
  nodup : (s.live.map Prod.fst).Nodup
  usable : ∀ q n, (q + 8, n) ∈ s.live → n + 8 ≤ 8 * s.mem.size q

/-- A program has made its first call, or has not. -/
def Ready (L : Layout) (s : State) : Prop := Loaded L s ∨ ∃ segs, Owns L s segs

section

variable {L : Layout} {s : State} {segs : List Seg} {m' : Mem} {q n ap : Nat} {segs' : List Seg}

variable (h : Owns L s segs)
include h

theorem Owns.mem_places (hin : q + 8 ∈ s.live.map Prod.fst) : q ∈ places false L.start segs := by
  obtain ⟨q', hq', heq⟩ := (h.live (q + 8)).mp hin
  rw [Nat.add_right_cancel heq]
  exact hq'

theorem Owns.same (hsame : Same L s.mem m' (places false L.start segs) segs') :
    Owns L ⟨m', s.live⟩ segs' := by
  refine ⟨hsame.heap, ?_, h.nodup, ?_⟩
  · rw [hsame.places]
    exact h.live
  · intro q n hin
    rw [hsame.sizes q (h.mem_places (mem_map_of_mem hin))]
    exact h.usable q n hin

theorem Owns.taken {nbytes : Nat} (htaken : Taken L s.mem m' (places false L.start segs) q n segs')
    (hn : nbytes + 8 ≤ 8 * n) : Owns L ⟨m', (q + 8, nbytes) :: s.live⟩ segs' := by
  refine ⟨htaken.heap, fun ap => ?_, ?_, ?_⟩
  · simp only [map_cons, mem_cons, h.live, htaken.places]
    constructor
    · rintro (rfl | ⟨q', hq', rfl⟩)
      · exact ⟨q, .inl rfl, rfl⟩
      · exact ⟨q', .inr hq', rfl⟩
    · rintro ⟨q', rfl | hq', rfl⟩
      · exact .inl rfl
      · exact .inr ⟨q', hq', rfl⟩
  · exact nodup_cons.mpr ⟨fun hin => htaken.fresh (h.mem_places hin), h.nodup⟩
  · intro q' n' hin
    rcases mem_cons.mp hin with heq | hin
    · obtain ⟨hq, rfl⟩ := Prod.mk.inj heq
      rw [Nat.add_right_cancel hq, htaken.size]
      exact hn
    · rw [htaken.sizes q' (h.mem_places (mem_map_of_mem hin))]
      exact h.usable q' n' hin

theorem Owns.free (hap : ap ∈ s.live.map Prod.fst) :
    ∃ m' segs', free s.mem ap = some m' ∧
      Owns L ⟨m', s.live.filter fun e => e.1 ≠ ap⟩ segs' := by
  obtain ⟨bp, hbp, rfl⟩ := (h.live ap).mp hap
  obtain ⟨pre, k, post, hsegs, haddr⟩ := places_split hbp
  subst hsegs
  obtain ⟨hpre, hk, hpost, -⟩ := tight_append.mp h.heap.toTight
  obtain ⟨m', segs', hfree, hfreed⟩ := free_spec h.heap haddr
  simp only at hk
  have hside : ∀ q, q ∈ places false L.start pre ++ places false (bp + 8 * k) post ↔
      q ∈ places false L.start (pre ++ ⟨false, k⟩ :: post) ∧ q ≠ bp := by
    intro q
    rw [places_append, ← haddr]
    constructor
    · intro hq
      have hbeside := mem_beside hpre hpost hq
      refine ⟨?_, by omega⟩
      rcases mem_append.mp hq with hq | hq
      · exact mem_append_left _ hq
      · exact mem_append_right _ (mem_cons_of_mem bp hq)
    · rintro ⟨hq, hne⟩
      rcases mem_append.mp hq with hq | hq
      · exact mem_append_left _ hq
      · rcases mem_cons.mp hq with heq | hq
        · exact absurd heq hne
        · exact mem_append_right _ hq
  have hmem : ∀ x, x ∈ (s.live.filter fun e => e.1 ≠ bp + 8).map Prod.fst ↔
      x ∈ s.live.map Prod.fst ∧ x ≠ bp + 8 := by
    intro x
    simp only [mem_map, mem_filter, decide_eq_true_eq]
    constructor
    · rintro ⟨e, ⟨he, hne⟩, rfl⟩
      exact ⟨⟨e, he, rfl⟩, hne⟩
    · rintro ⟨⟨e, he, rfl⟩, hne⟩
      exact ⟨e, ⟨he, hne⟩, rfl⟩
  refine ⟨m', segs', hfree, hfreed.heap, fun x => ?_, ?_, ?_⟩
  · rw [hmem, h.live, hfreed.places]
    simp only [hside]
    constructor
    · rintro ⟨⟨q, hq, rfl⟩, hne⟩
      exact ⟨q, ⟨hq, fun heq => hne (congrArg (· + 8) heq)⟩, rfl⟩
    · rintro ⟨q, ⟨hq, hne⟩, rfl⟩
      exact ⟨⟨q, hq, rfl⟩, fun heq => hne (Nat.add_right_cancel heq)⟩
  · exact h.nodup.sublist (List.Sublist.map _ filter_sublist)
  · intro q n hin
    obtain ⟨hin, hne⟩ := mem_filter.mp hin
    have hne' : q ≠ bp := fun heq => of_decide_eq_true hne (congrArg (· + 8) heq)
    rw [hfreed.sizes q ((hside q).mpr ⟨h.mem_places (mem_map_of_mem hin), hne'⟩)]
    exact h.usable q n hin

/-- **`malloc` returns**, and keeps the pointers in step. -/
theorem Owns.malloc {nbytes : Nat} (hlt : nbytes < 2 ^ 30) :
    ∃ r m', malloc L s.mem nbytes = some (r, m') ∧
      ∃ segs', Owns L ⟨m', if r = 0 then s.live else (r, nbytes) :: s.live⟩ segs' := by
  obtain ⟨hpos, hmax, hbytes⟩ := units_spec hlt
  rw [Umalloc.malloc, init, if_neg h.heap.freep_ne]
  obtain ⟨r, m', segs', hsearch, ⟨rfl, hsame⟩ | ⟨q, rfl, htaken⟩⟩ := search_spec h.heap hpos hmax
  · exact ⟨0, m', hsearch, segs', h.same hsame⟩
  · refine ⟨q + 8, m', hsearch, segs', ?_⟩
    exact h.taken htaken hbytes

omit h

theorem Loaded.owns (h : Loaded L s) : Owns L ⟨init L s.mem, s.live⟩ [] := by
  obtain ⟨hfreep, hbrk, hlive⟩ := h
  refine ⟨init_spec hfreep hbrk, fun ap => ?_, ?_, ?_⟩
  · simp [hlive, places]
  · simp [hlive]
  · intro q n hin
    rw [hlive] at hin
    cases hin

theorem init_init (hpos : (init L s.mem).freep ≠ 0) : init L (init L s.mem) = init L s.mem :=
  if_neg hpos

theorem Ready.malloc {nbytes : Nat} (h : Ready L s) (hlt : nbytes < 2 ^ 30) :
    ∃ r m', malloc L s.mem nbytes = some (r, m') ∧
      ∃ segs', Owns L ⟨m', if r = 0 then s.live else (r, nbytes) :: s.live⟩ segs' := by
  rcases h with hloaded | ⟨segs, howns⟩
  · have hinit := hloaded.owns
    obtain ⟨r, m', hmalloc, hstep⟩ := hinit.malloc hlt
    rw [Umalloc.malloc, init_init hinit.heap.freep_ne] at hmalloc
    exact ⟨r, m', hmalloc, hstep⟩
  · exact howns.malloc hlt

theorem Ready.free (h : Ready L s) (hap : ap ∈ s.live.map Prod.fst) :
    ∃ m', free s.mem ap = some m' ∧
      ∃ segs', Owns L ⟨m', s.live.filter fun e => e.1 ≠ ap⟩ segs' := by
  rcases h with ⟨-, -, hlive⟩ | ⟨segs, howns⟩
  · rw [hlive] at hap
    cases hap
  · obtain ⟨m', segs', hfree, howns'⟩ := howns.free hap
    exact ⟨m', hfree, segs', howns'⟩

theorem Ready.step {a : Action} {s' : State} (h : Ready L s) (hs : step L s a = some s') :
    Ready L s' := by
  cases a with
  | malloc nbytes =>
    rw [Umalloc.step] at hs
    split at hs
    next hlt =>
      obtain ⟨r, m', hmalloc, hstep⟩ := h.malloc hlt
      rw [hmalloc] at hs
      cases hs
      exact .inr hstep
    · cases hs
  | free ap =>
    rw [Umalloc.step] at hs
    split at hs
    next hap =>
      obtain ⟨m', hfree, hstep⟩ := h.free hap
      rw [hfree] at hs
      cases hs
      exact .inr hstep
    · cases hs

theorem ready_of_reached (h : (system L).Reached s) : Ready L s := by
  refine h.invariant (fun s hinit => .inl hinit) ?_
  intro s a s' hready _ hs
  exact hready.step hs

/-! ### What the tiling says of the blocks -/

theorem Heap.apart_of_lt {m : Mem} (h : Heap L m segs) {i j : Bool} {a b : Nat}
    (ha : a ∈ places i L.start segs) (hb : b ∈ places j L.start segs) (hlt : a < b) :
    a + 8 * m.size a ≤ b ∧ (i = true → j = true → a + 8 * m.size a ≠ b) := by
  obtain ⟨pre, k, post, rfl, rfl⟩ := places_split ha
  obtain ⟨hpre, hk, hpost, hapart⟩ := tight_append.mp h.toTight
  rw [h.sized.at]
  have hb' : b ∈ places j (L.start + 8 * width pre + 8 * k) post := by
    rw [places_append] at hb
    rcases mem_append.mp hb with hb | hb
    · have hup := (mem_places hpre hb).2
      omega
    rw [places] at hb
    split at hb
    · rcases mem_cons.mp hb with heq | hb
      · omega
      · exact hb
    · exact hb
  refine ⟨(mem_places hpost hb').1, ?_⟩
  rintro rfl rfl heq
  cases post with
  | nil => cases hb'
  | cons t =>
    have ht : t.free = false := by
      obtain ⟨-, hright⟩ := apart_true.mp hapart
      have hpair := (isChain_cons_cons.mp hright).1
      simpa using hpair
    have hpos : 0 < t.size := hpost t mem_cons_self
    rw [places, ht] at hb'
    have hge := (mem_places (fun s hs => hpost s (mem_cons_of_mem t hs)) hb').1
    simp only at heq
    omega

theorem Heap.free_ne_used {m : Mem} (h : Heap L m segs) {a : Nat} (ha : a ∈ places true L.start segs) :
    a ∉ places false L.start segs := by
  obtain ⟨pre, k, post, rfl, rfl⟩ := places_split ha
  obtain ⟨hpre, hk, hpost, -⟩ := tight_append.mp h.toTight
  simp only at hk
  rw [places_append]
  intro hin
  have hside := mem_beside (e := L.start + 8 * width pre + 8 * k) hpre hpost hin
  omega

theorem covers {size : Nat → Nat} {a : Nat} (h : Sized size a segs) (x : Nat) :
    (a ≤ x ∧ x < a + 8 * width segs) ↔
      ∃ i, ∃ b ∈ places i a segs, b ≤ x ∧ x < b + 8 * size b := by
  induction segs generalizing a with
  | nil =>
    rw [width_nil]
    constructor
    · omega
    · rintro ⟨i, b, hb, -⟩
      cases hb
  | cons t segs ih =>
    obtain ⟨hsize, hrest⟩ := h
    have htail := ih hrest
    rw [width_cons]
    constructor
    · rintro ⟨hlo, hhi⟩
      by_cases hx : x < a + 8 * t.size
      · refine ⟨t.free, a, ?_, hlo, hsize.symm ▸ hx⟩
        rw [places, if_pos rfl]
        exact .head _
      obtain ⟨i, b, hb, hin⟩ := htail.mp ⟨by omega, by omega⟩
      refine ⟨i, b, ?_, hin⟩
      rw [places]
      split
      · exact mem_cons_of_mem a hb
      · exact hb
    · rintro ⟨i, b, hb, hlo, hhi⟩
      have hback : b ∈ places i (a + 8 * t.size) segs → a ≤ x ∧ x < a + 8 * (t.size + width segs) := by
        intro hb
        have hin := htail.mpr ⟨i, b, hb, hlo, hhi⟩
        omega
      rw [places] at hb
      split at hb
      · rcases mem_cons.mp hb with rfl | hb
        · omega
        · exact hback hb
      · exact hback hb

end

/-! ### The allocator -/

/-- The block at an address holds an address. -/
def Block (m : Mem) (a x : Nat) : Prop := a ≤ x ∧ x < a + 8 * m.size a

def DisjointBlocks (m : Mem) (a b : Nat) : Prop := ∀ x, ¬ (Block m a x ∧ Block m b x)

/-- **A sound allocator**, with the free blocks `fs`: the block of a live pointer begins 8 bytes
before it. -/
structure Sound (L : Layout) (s : State) (fs : List Nat) : Prop where
  /-- Once `freep` is set, there is a circular list through `base`. -/
  linked : s.mem.freep ≠ 0 → Linked s.mem.ptr (L.base :: fs) ∧ s.mem.freep ∈ L.base :: fs
  unused : s.mem.freep = 0 → s.mem.brk = L.start ∧ fs = [] ∧ s.live = []
  ordered : (L.base :: fs).Pairwise (· < ·)
  disjoint_free : fs.Pairwise (DisjointBlocks s.mem)
  not_adjacent : ∀ a ∈ fs, ∀ b ∈ fs, a + 8 * s.mem.size a ≠ b
  disjoint_live : (s.live.map fun e => e.1 - 8).Pairwise (DisjointBlocks s.mem)
  disjoint_live_free : ∀ e ∈ s.live, ∀ a ∈ fs, DisjointBlocks s.mem (e.1 - 8) a
  /-- The bytes from the pointer to the end of its block. -/
  usable : ∀ e ∈ s.live, 8 ≤ e.1 ∧ e.1 + e.2 ≤ e.1 - 8 + 8 * s.mem.size (e.1 - 8)
  covers : ∀ x, (L.start ≤ x ∧ x < s.mem.brk) ↔
    (∃ a ∈ fs, Block s.mem a x) ∨ ∃ e ∈ s.live, Block s.mem (e.1 - 8) x
  /-- `malloc` returns, and `freep` is set from then on. -/
  malloc_returns : ∀ nbytes < 2 ^ 30,
    ∃ r m', malloc L s.mem nbytes = some (r, m') ∧ m'.freep ≠ 0
  free_returns : ∀ e ∈ s.live, (free s.mem e.1).isSome

variable {L : Layout} {s : State} {segs : List Seg} {m : Mem} {a b : Nat}

theorem disjointBlocks_symm (h : DisjointBlocks m a b) : DisjointBlocks m b a :=
  fun x hx => h x hx.symm

theorem Heap.disjointBlocks (h : Heap L m segs) {i j : Bool} (ha : a ∈ places i L.start segs)
    (hb : b ∈ places j L.start segs) (hne : a ≠ b) : DisjointBlocks m a b := by
  have hbefore : ∀ {i j : Bool} {a b : Nat}, a ∈ places i L.start segs → b ∈ places j L.start segs →
      a < b → DisjointBlocks m a b := by
    intro i j a b ha hb hlt x ⟨hxa, hxb⟩
    have hle := (h.apart_of_lt ha hb hlt).1
    exact Nat.lt_irrefl x (Nat.lt_of_lt_of_le hxa.2 (Nat.le_trans hle hxb.1))
  rcases Nat.lt_or_gt_of_ne hne with hlt | hlt
  · exact hbefore ha hb hlt
  · exact disjointBlocks_symm (hbefore hb ha hlt)

theorem Heap.not_adjacent (h : Heap L m segs) (ha : a ∈ places true L.start segs)
    (hb : b ∈ places true L.start segs) : a + 8 * m.size a ≠ b := by
  rcases Nat.lt_trichotomy a b with hlt | rfl | hlt
  · exact (h.apart_of_lt ha hb hlt).2 rfl rfl
  · obtain ⟨pre, post, hsegs, -⟩ := h.size_free ha
    have hpos : 0 < m.size a := h.pos ⟨true, m.size a⟩ (by rw [hsegs]; simp)
    omega
  · omega

theorem Owns.block (h : Owns L s segs) {e : Nat × Nat} (he : e ∈ s.live) :
    ∃ q ∈ places false L.start segs, e.1 = q + 8 :=
  (h.live e.1).mp (mem_map_of_mem he)

theorem Owns.sound (h : Owns L s segs) : Sound L s (places true L.start segs) := by
  have hblock : ∀ e ∈ s.live, e.1 - 8 ∈ places false L.start segs := by
    intro e he
    obtain ⟨q, hq, heq⟩ := h.block he
    rw [heq]
    exact hq
  constructor
  · exact fun _ => ⟨h.heap.cycle, h.heap.freep⟩
  · exact fun hzero => absurd hzero h.heap.freep_ne
  · exact nodes_sorted h.heap.pos
  · refine (places_sorted h.heap.pos).imp_of_mem ?_
    intro a b ha hb hlt
    exact h.heap.disjointBlocks ha hb (Nat.ne_of_lt hlt)
  · exact fun a ha b hb => h.heap.not_adjacent ha hb
  · have hnodup := h.nodup
    rw [List.Nodup, pairwise_map] at hnodup
    rw [pairwise_map]
    refine hnodup.imp_of_mem ?_
    intro e e' he he' hne
    apply h.heap.disjointBlocks (hblock e he) (hblock e' he')
    obtain ⟨q, -, hq⟩ := h.block he
    obtain ⟨q', -, hq'⟩ := h.block he'
    omega
  · intro e he a ha
    apply h.heap.disjointBlocks (hblock e he) ha
    intro heq
    exact h.heap.free_ne_used ha (heq ▸ hblock e he)
  · intro e he
    obtain ⟨q, -, hq⟩ := h.block he
    obtain ⟨ap, n⟩ := e
    subst hq
    have husable := h.usable q n he
    simp only [Nat.add_sub_cancel]
    omega
  · intro x
    rw [h.heap.brk, Umalloc.covers h.heap.sized]
    constructor
    · rintro ⟨i, b, hb, hin⟩
      cases i with
      | true => exact .inl ⟨b, hb, hin⟩
      | false =>
        obtain ⟨e, he, heq⟩ := mem_map.mp ((h.live (b + 8)).mpr ⟨b, hb, rfl⟩)
        refine .inr ⟨e, he, ?_⟩
        rw [heq]
        exact hin
    · rintro (⟨a, ha, hin⟩ | ⟨e, he, hin⟩)
      · exact ⟨true, a, ha, hin⟩
      · exact ⟨false, e.1 - 8, hblock e he, hin⟩
  · intro nbytes hlt
    obtain ⟨r, m', hmalloc, segs', howns⟩ := h.malloc hlt
    exact ⟨r, m', hmalloc, howns.heap.freep_ne⟩
  · intro e he
    obtain ⟨m', segs', hfree, -⟩ := h.free (mem_map_of_mem he)
    rw [hfree]
    rfl

theorem Loaded.sound (h : Loaded L s) : Sound L s [] := by
  obtain ⟨hfreep, hbrk, hlive⟩ := h
  have hnone : ∀ e, e ∉ s.live := by
    intro e he
    rw [hlive] at he
    cases he
  constructor
  · exact absurd hfreep
  · exact fun _ => ⟨hbrk, rfl, hlive⟩
  · exact pairwise_singleton _ _
  · exact List.Pairwise.nil
  · exact fun a ha => absurd ha not_mem_nil
  · rw [hlive]
    exact List.Pairwise.nil
  · exact fun e he => absurd he (hnone e)
  · exact fun e he => absurd he (hnone e)
  · intro x
    constructor
    · omega
    · rintro (⟨a, ha, -⟩ | ⟨e, he, -⟩)
      · cases ha
      · exact absurd he (hnone e)
  · intro nbytes hlt
    obtain ⟨r, m', hmalloc, segs', howns⟩ := Ready.malloc (.inl ⟨hfreep, hbrk, hlive⟩) hlt
    exact ⟨r, m', hmalloc, howns.heap.freep_ne⟩
  · exact fun e he => absurd he (hnone e)

/-- **The user heap is sound in every run.** -/
theorem umalloc_sound (L : Layout) (s : State) (h : (system L).Reached s) : ∃ fs, Sound L s fs := by
  rcases ready_of_reached h with hloaded | ⟨segs, howns⟩
  · exact ⟨[], hloaded.sound⟩
  · exact ⟨places true L.start segs, howns.sound⟩

/-- `base` at 16, the heap from 4096 on. -/
def smallLayout : Layout where
  base := 16
  start := 4096
  pos := by decide
  below := by decide
  fits := by decide

def loaded : State where
  mem := { ptr := fun _ => 0, size := fun _ => 0, freep := 0, brk := 4096, denies := fun k => k = 1,
           calls := 0 }
  live := []

def threeBlocks : List Action :=
  [.malloc 100, .malloc 20, .malloc 300, .free 36728, .malloc 40000]

theorem umalloc_sound_three_blocks :
    ∃ s fs, (system smallLayout).Reached s ∧ Sound smallLayout s fs ∧
      s.live.map Prod.snd = [300, 100] := by
  have hloaded : (system smallLayout).Reached loaded := .init ⟨rfl, rfl, rfl⟩
  obtain ⟨s, hreached, hlive⟩ := hloaded.run_decide threeBlocks
    (P := fun s => s.live.map Prod.snd = [300, 100]) (by decide +kernel)
  obtain ⟨fs, hsound⟩ := umalloc_sound smallLayout s hreached
  exact ⟨s, fs, hreached, hsound, hlive⟩

end Xv6.Umalloc
