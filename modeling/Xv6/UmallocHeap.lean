import Xv6.LinkedCycle
import Xv6.Umalloc

/-!
**The heap as a tiling.**

Between its start and its end the heap is a sequence of segments, each a free block or a block
in use; an address is the start plus the widths before it. Two free segments never touch. The
free list is the cycle of `base` and the free segments in the order of the tiling, and the sizes
are in the headers (`Heap`).

`malloc` turns a free segment, or its tail, into one in use; `free` turns a segment in use into a
free one and joins it to its free neighbours; `sbrk` adds a segment in use at the end, for `free`
to release.
-/

namespace Xv6.Umalloc

open LinkedCycle Function List
open Vm (KERNBASE)

/-! ### Tilings -/

structure Seg where
  free : Bool
  size : Nat

def width : List Seg → Nat
  | [] => 0
  | s :: segs => s.size + width segs

/-- The addresses of the free segments, or of those in use. -/
def places (isFree : Bool) : Nat → List Seg → List Nat
  | _, [] => []
  | a, s :: segs =>
      if s.free = isFree then a :: places isFree (a + 8 * s.size) segs
      else places isFree (a + 8 * s.size) segs

/-- The headers have the sizes of the segments. -/
def Sized (size : Nat → Nat) : Nat → List Seg → Prop
  | _, [] => True
  | a, s :: segs => size a = s.size ∧ Sized size (a + 8 * s.size) segs

def Apart (l : List Bool) : Prop := l.IsChain fun x y => ¬ (x = true ∧ y = true)

/-- No segment is empty, and no two free ones touch. -/
structure Tight (segs : List Seg) : Prop where
  pos : ∀ s ∈ segs, 0 < s.size
  apart : Apart (segs.map Seg.free)

section

variable {isFree : Bool} {size size' : Nat → Nat} {a x n : Nat} {s : Seg} {segs pre post : List Seg}

@[simp] theorem width_append : width (pre ++ post) = width pre + width post := by
  induction pre with
  | nil => exact (Nat.zero_add _).symm
  | cons s pre ih =>
    change s.size + width (pre ++ post) = s.size + width pre + width post
    rw [ih, Nat.add_assoc]

@[simp] theorem width_cons : width (s :: segs) = s.size + width segs := rfl

@[simp] theorem width_nil : width [] = 0 := rfl

theorem addr_width_cons (a : Nat) (s : Seg) (segs : List Seg) :
    a + 8 * s.size + 8 * width segs = a + 8 * width (s :: segs) := by
  rw [width_cons]
  omega

theorem places_append :
    places isFree a (pre ++ post) = places isFree a pre ++ places isFree (a + 8 * width pre) post := by
  induction pre generalizing a with
  | nil => rfl
  | cons s pre ih =>
    rw [cons_append, places, places, ih, addr_width_cons]
    split <;> rfl

theorem sized_append :
    Sized size a (pre ++ post) ↔ Sized size a pre ∧ Sized size (a + 8 * width pre) post := by
  induction pre generalizing a with
  | nil => exact (iff_of_eq (true_and _)).symm
  | cons s pre ih =>
    rw [cons_append, Sized, Sized, ih, addr_width_cons, and_assoc]

theorem mem_places (hpos : ∀ s ∈ segs, 0 < s.size) (hx : x ∈ places isFree a segs) :
    a ≤ x ∧ x < a + 8 * width segs := by
  induction segs generalizing a with
  | nil => cases hx
  | cons s segs ih =>
    have hs := hpos s mem_cons_self
    have htail : x ∈ places isFree (a + 8 * s.size) segs → a ≤ x ∧ x < a + 8 * width (s :: segs) := by
      intro hx
      have hin := ih (fun t ht => hpos t (mem_cons_of_mem s ht)) hx
      rw [width_cons]
      omega
    rw [places] at hx
    split at hx
    · rcases mem_cons.mp hx with rfl | hx
      · rw [width_cons]
        omega
      · exact htail hx
    · exact htail hx

theorem mem_beside (hpre : ∀ s ∈ pre, 0 < s.size) (hpost : ∀ s ∈ post, 0 < s.size) {e : Nat}
    (hx : x ∈ places isFree a pre ++ places isFree e post) : x < a + 8 * width pre ∨ e ≤ x := by
  rcases mem_append.mp hx with hx | hx
  · exact .inl (mem_places hpre hx).2
  · exact .inr (mem_places hpost hx).1

theorem places_split (hx : x ∈ places isFree a segs) :
    ∃ pre n post, segs = pre ++ ⟨isFree, n⟩ :: post ∧ x = a + 8 * width pre := by
  induction segs generalizing a with
  | nil => cases hx
  | cons s segs ih =>
    have htail : x ∈ places isFree (a + 8 * s.size) segs →
        ∃ pre n post, s :: segs = pre ++ ⟨isFree, n⟩ :: post ∧ x = a + 8 * width pre := by
      intro hx
      obtain ⟨pre, n, post, rfl, rfl⟩ := ih hx
      refine ⟨s :: pre, n, post, rfl, ?_⟩
      rw [width_cons]
      omega
    rw [places] at hx
    split at hx
    next hfree =>
      rcases mem_cons.mp hx with rfl | hx
      · subst hfree
        exact ⟨[], s.size, segs, rfl, rfl⟩
      · exact htail hx
    · exact htail hx

theorem places_sorted (hpos : ∀ s ∈ segs, 0 < s.size) :
    (places isFree a segs).Pairwise (· < ·) := by
  induction segs generalizing a with
  | nil => exact List.Pairwise.nil
  | cons s segs ih =>
    have htail := fun t ht => hpos t (mem_cons_of_mem s ht)
    have hs := hpos s mem_cons_self
    rw [places]
    split
    · refine pairwise_cons.mpr ⟨fun y hy => ?_, ih htail⟩
      have hin := mem_places htail hy
      omega
    · exact ih htail

theorem length_places (hpos : ∀ s ∈ segs, 0 < s.size) :
    (places isFree a segs).length ≤ width segs := by
  induction segs generalizing a with
  | nil => exact Nat.le_refl _
  | cons s segs ih =>
    have hs := hpos s mem_cons_self
    have htail := ih (a := a + 8 * s.size) fun t ht => hpos t (mem_cons_of_mem s ht)
    rw [places, width_cons]
    split
    · rw [length_cons]
      omega
    · omega

theorem Sized.congr (h : Sized size a segs) (hpos : ∀ s ∈ segs, 0 < s.size)
    (heq : ∀ x, a ≤ x → x < a + 8 * width segs → size' x = size x) : Sized size' a segs := by
  induction segs generalizing a with
  | nil => trivial
  | cons s segs ih =>
    have hs := hpos s mem_cons_self
    rw [width_cons] at heq
    refine ⟨(heq a (Nat.le_refl a) (by omega)).trans h.1, ih h.2 ?_ ?_⟩
    · exact fun t ht => hpos t (mem_cons_of_mem s ht)
    · intro x hlo hhi
      exact heq x (by omega) (by omega)

theorem Sized.at (h : Sized size a (pre ++ s :: post)) : size (a + 8 * width pre) = s.size :=
  (sized_append.mp h).2.1

end

theorem apart_false {k l : List Bool} : Apart (k ++ false :: l) ↔ Apart k ∧ Apart l := by
  simp [Apart, isChain_append, isChain_cons]

theorem apart_true {k l : List Bool} :
    Apart (k ++ true :: l) ↔ Apart (k ++ [true]) ∧ Apart (true :: l) := isChain_split

theorem tight_append {pre post : List Seg} {s : Seg} :
    Tight (pre ++ s :: post) ↔ (∀ t ∈ pre, 0 < t.size) ∧ 0 < s.size ∧ (∀ t ∈ post, 0 < t.size) ∧
      Apart (pre.map Seg.free ++ s.free :: post.map Seg.free) := by
  constructor
  · rintro ⟨hpos, hapart⟩
    rw [map_append] at hapart
    refine ⟨fun t ht => ?_, ?_, fun t ht => ?_, hapart⟩
    · exact hpos t (mem_append_left _ ht)
    · exact hpos s (mem_append_right _ (.head _))
    · exact hpos t (mem_append_right _ (mem_cons_of_mem s ht))
  · rintro ⟨hpre, hs, hpost, hapart⟩
    constructor
    · intro t ht
      rcases mem_append.mp ht with ht | ht
      · exact hpre t ht
      · rcases mem_cons.mp ht with rfl | ht
        · exact hs
        · exact hpost t ht
    · rwa [map_append, map_cons]

/-! ### The loop of `free` -/

section

variable {m : Mem} {bp b q : Nat} {u v : List Nat}

theorem next_last_le (h : Linked m.ptr (u ++ [q])) (hsorted : (u ++ [q]).Pairwise (· < ·)) :
    m.ptr q ≤ q := by
  cases u with
  | nil =>
    rw [nil_append, linked_cons, nil_append, isChain_pair] at h
    exact Nat.le_of_eq h
  | cons b =>
    have hb : m.ptr q = b := h.next_last
    have hlt : b < q := (pairwise_append.mp hsorted).2.2 b (.head _) q
      (mem_singleton_self q)
    omega

/-- From a node before `bp` the loop goes on to the last one before it. -/
theorem place_before (hv : ∀ x ∈ v, bp < x) : ∀ (w : List Nat) {fuel : Nat} {u : List Nat} {q : Nat},
    Linked m.ptr (u ++ q :: (w ++ v)) → (u ++ q :: (w ++ v)).Pairwise (· < ·) →
    (∀ x ∈ q :: w, x < bp) → w.length < fuel →
    ∃ u' p, u ++ q :: w = u' ++ [p] ∧ place m bp fuel q = some p := by
  intro w
  induction w with
  | nil =>
    intro fuel u q h hsorted hbefore hfuel
    obtain ⟨fuel, rfl⟩ := Nat.exists_eq_succ_of_ne_zero (Nat.ne_of_gt hfuel)
    have hq : q < bp := hbefore q mem_cons_self
    refine ⟨u, q, rfl, ?_⟩
    rw [place]
    cases v with
    | nil =>
      have hback : m.ptr q ≤ q := next_last_le h hsorted
      rw [if_neg (by omega), if_pos ⟨hback, .inl hq⟩]
    | cons y =>
      have hnext : m.ptr q = y := h.next_eq
      rw [if_pos ⟨hq, by rw [hnext]; exact hv y mem_cons_self⟩]
  | cons q' w ih =>
    intro fuel u q h hsorted hbefore hfuel
    obtain ⟨fuel, rfl⟩ := Nat.exists_eq_succ_of_ne_zero (Nat.ne_of_gt (Nat.zero_lt_of_lt hfuel))
    have hnext : m.ptr q = q' := h.next_eq
    have hlt : q < q' :=
      (pairwise_cons.mp (pairwise_append.mp hsorted).2.1).1 q' mem_cons_self
    have hq' : q' < bp := hbefore q' (mem_cons_of_mem q mem_cons_self)
    have hshift : ∀ l, u ++ q :: l = (u ++ [q]) ++ l := fun l => by simp
    rw [place, hnext, if_neg (by omega), if_neg (by omega), hshift]
    rw [hshift] at h hsorted
    exact ih h hsorted (fun x hx => hbefore x (mem_cons_of_mem q hx))
      (Nat.lt_of_succ_lt_succ hfuel)

theorem place_behind (hb : b < bp) : ∀ (w : List Nat) {fuel : Nat} {u : List Nat} {q : Nat},
    Linked m.ptr (b :: (u ++ q :: w)) → (b :: (u ++ q :: w)).Pairwise (· < ·) → bp < q →
    place m bp (fuel + w.length + 1) q = place m bp fuel b := by
  intro w
  induction w with
  | nil =>
    intro fuel u q h hsorted hq
    have hnext : m.ptr q = b := h.next_last
    rw [length_nil, place, hnext, if_neg (by omega), if_neg (by omega)]
  | cons q' w ih =>
    intro fuel u q h hsorted hq
    have hnext : m.ptr q = q' := Linked.next_eq (u := b :: u) h
    have hlt : q < q' := by
      have htail := (pairwise_append.mp (pairwise_cons.mp hsorted).2).2.1
      exact (pairwise_cons.mp htail).1 q' mem_cons_self
    have hshift : u ++ q :: q' :: w = (u ++ [q]) ++ q' :: w := by simp
    rw [hshift] at h hsorted
    rw [place, hnext, if_neg (by omega), if_neg (by omega)]
    exact ih h hsorted (by omega)

/-- **The loop of `free` finds the place**, wherever it begins. -/
theorem place_found {fuel : Nat} (h : Linked m.ptr ((b :: u) ++ v))
    (hsorted : ((b :: u) ++ v).Pairwise (· < ·)) (hbefore : ∀ x ∈ b :: u, x < bp)
    (hbehind : ∀ x ∈ v, bp < x) (hq : q ∈ (b :: u) ++ v) (hfuel : u.length + v.length < fuel) :
    ∃ u' p, b :: u = u' ++ [p] ∧ place m bp fuel q = some p := by
  have hfirst : ∀ fuel, u.length < fuel →
      ∃ u' p, b :: u = u' ++ [p] ∧ place m bp fuel b = some p := fun fuel hlt =>
    place_before hbehind u (u := []) h hsorted hbefore hlt
  rcases mem_append.mp hq with hin | hin
  · obtain ⟨u1, u2, hsplit⟩ := append_of_mem hin
    have hassoc : (b :: u) ++ v = u1 ++ q :: (u2 ++ v) := by rw [hsplit, append_assoc, cons_append]
    have hlen : u.length + 1 = u1.length + (u2.length + 1) := by
      simpa using congrArg List.length hsplit
    rw [hassoc] at h hsorted
    rw [hsplit]
    apply place_before hbehind u2 h hsorted _ (by omega)
    intro x hx
    exact hbefore x (hsplit ▸ mem_append_right u1 hx)
  · obtain ⟨v1, v2, rfl⟩ := append_of_mem hin
    have hassoc : (b :: u) ++ (v1 ++ q :: v2) = b :: ((u ++ v1) ++ q :: v2) := by
      rw [cons_append, append_assoc]
    have hlen : (v1 ++ q :: v2).length = v1.length + (v2.length + 1) := by simp
    rw [hassoc] at h hsorted
    obtain ⟨rounds, rfl⟩ : ∃ rounds, fuel = rounds + v2.length + 1 :=
      ⟨fuel - (v2.length + 1), by omega⟩
    rw [place_behind (hbefore b (.head _)) v2 h hsorted (hbehind q hin)]
    exact hfirst rounds (by omega)

end

/-! ### Joining -/

section

variable {m : Mem} {bp p nx : Nat} {u v : List Nat}

theorem joinNext_touching (h : Linked m.ptr (u ++ p :: nx :: v))
    (hnodup : (u ++ p :: nx :: v).Nodup) (hbp : bp ∉ u ++ p :: nx :: v)
    (htouch : bp + 8 * m.size bp = nx) :
    (joinNext m bp p).size = update m.size bp (m.size bp + m.size nx) ∧
      Linked (update (joinNext m bp p).ptr p bp) (u ++ p :: bp :: v) := by
  have hnext : m.ptr p = nx := h.next_eq
  have hne : bp ≠ p := fun heq => hbp (heq ▸ mem_append_right u (.head _))
  have hsub : (u ++ p :: v).Sublist (u ++ p :: nx :: v) := by simp
  have hptr : update (joinNext m bp p).ptr p bp =
      update (update (update m.ptr p (m.ptr nx)) bp
        (update m.ptr p (m.ptr nx) p)) p bp := by
    rw [joinNext, if_pos (htouch.trans hnext.symm), update_self]
    change update (update m.ptr bp (m.ptr (m.ptr p))) p bp = _
    rw [hnext, update_comm hne, update_comm hne, update_idem]
  constructor
  · rw [joinNext, if_pos (htouch.trans hnext.symm), hnext]
    rfl
  · rw [hptr]
    apply (h.remove hnodup).insert (hsub.nodup hnodup)
    exact fun hin => hbp (hsub.subset hin)

theorem joinNext_apart (h : Linked m.ptr (u ++ p :: v)) (hnodup : (u ++ p :: v).Nodup)
    (hbp : bp ∉ u ++ p :: v) (happ : bp + 8 * m.size bp ≠ m.ptr p) :
    (joinNext m bp p).size = m.size ∧
      Linked (update (joinNext m bp p).ptr p bp) (u ++ p :: bp :: v) := by
  rw [joinNext, if_neg happ]
  exact ⟨rfl, h.insert hnodup hbp⟩

theorem joinPrev_touching (h : Linked (update m.ptr p bp) (u ++ p :: bp :: v))
    (hnodup : (u ++ p :: bp :: v).Nodup) (htouch : p + 8 * m.size p = bp) :
    (joinPrev m bp p).size = update m.size p (m.size p + m.size bp) ∧
      Linked (joinPrev m bp p).ptr (u ++ p :: v) := by
  have hne : bp ≠ p := by
    have htail := (nodup_append.mp hnodup).2.1
    exact fun heq => (nodup_cons.mp htail).1 (heq ▸ (.head _))
  rw [joinPrev, if_pos htouch]
  refine ⟨rfl, ?_⟩
  have hremoved := h.remove hnodup
  rw [update_idem, update_of_ne hne] at hremoved
  exact hremoved

theorem joinPrev_apart (happ : p + 8 * m.size p ≠ bp) :
    (joinPrev m bp p).size = m.size ∧
      (joinPrev m bp p).ptr = update m.ptr p bp := by
  rw [joinPrev, if_neg happ]
  exact ⟨rfl, rfl⟩

end

/-! ### The heap -/

/-- The nodes of the free list. -/
def nodes (L : Layout) (segs : List Seg) : List Nat := L.base :: places true L.start segs

/-- **The memory is a tiled heap**, with its free list. -/
structure Heap (L : Layout) (m : Mem) (segs : List Seg) : Prop extends Tight segs where
  cycle : Linked m.ptr (nodes L segs)
  sized : Sized m.size L.start segs
  base : m.size L.base = 0
  brk : m.brk = L.start + 8 * width segs
  limit : m.brk < KERNBASE
  freep : m.freep ∈ nodes L segs

variable {L : Layout} {m : Mem} {segs pre post : List Seg} {n p bp : Nat} {u : List Nat}

theorem nodes_sorted (hpos : ∀ s ∈ segs, 0 < s.size) : (nodes L segs).Pairwise (· < ·) := by
  refine pairwise_cons.mpr ⟨fun x hx => ?_, places_sorted hpos⟩
  have hin := mem_places hpos hx
  have hbelow := L.below
  omega

theorem nodes_append : nodes L (pre ++ post) =
    nodes L pre ++ places true (L.start + 8 * width pre) post := by
  rw [nodes, places_append]
  rfl

theorem nodes_taken (L : Layout) (pre post : List Seg) (n : Nat) :
    nodes L (pre ++ ⟨false, n⟩ :: post) =
      nodes L pre ++ places true (L.start + 8 * width pre + 8 * n) post := nodes_append

theorem mem_nodes_lt (hpos : ∀ s ∈ pre, 0 < s.size) {x : Nat} (hx : x ∈ nodes L pre) :
    x < L.start + 8 * width pre := by
  rcases mem_cons.mp hx with rfl | hx
  · have hbelow := L.below
    omega
  · exact (mem_places hpos hx).2

/-- A block that is being freed, between the free blocks before it and those behind it. -/
theorem Heap.between (h : Heap L m (pre ++ ⟨false, n⟩ :: post)) :
    Linked m.ptr (nodes L pre ++ places true (L.start + 8 * width pre + 8 * n) post) ∧
      (nodes L pre ++ places true (L.start + 8 * width pre + 8 * n) post).Pairwise (· < ·) ∧
      (∀ x ∈ nodes L pre, x < L.start + 8 * width pre) ∧
      ∀ x ∈ places true (L.start + 8 * width pre + 8 * n) post,
        L.start + 8 * width pre + 8 * n ≤ x := by
  obtain ⟨hpre, hn, hpost, -⟩ := tight_append.mp h.toTight
  have hnodes := nodes_taken L pre post n
  refine ⟨hnodes ▸ h.cycle, hnodes ▸ nodes_sorted h.pos, ?_, ?_⟩
  · exact fun x hx => mem_nodes_lt hpre hx
  · exact fun x hx => (mem_places hpost hx).1

/-- What is behind a block of `n` units once it has been joined to the free block there: it has
become `n'` units, and no free block touches it. -/
structure Tail (m : Mem) (bp n : Nat) (post : List Seg) (n' : Nat) (post' : List Seg) : Prop where
  grows : n ≤ n'
  width : n' + width post' = n + width post
  used : places false (bp + 8 * n') post' = places false (bp + 8 * n) post
  sized : Sized m.size (bp + 8 * n') post'
  pos : ∀ s ∈ post', 0 < s.size
  apart : Apart (true :: post'.map Seg.free)

/-- `joinNext` prepares `bp`: when `p` is pointed at it, it is on the list. -/
theorem joinNext_spec (h : Heap L m (pre ++ ⟨false, n⟩ :: post)) (hbp : bp = L.start + 8 * width pre)
    (hp : nodes L pre = u ++ [p]) :
    ∃ n' post', Tail m bp n post n' post' ∧
      (joinNext m bp p).size = update m.size bp n' ∧
      Linked (update (joinNext m bp p).ptr p bp)
        (u ++ p :: bp :: places true (bp + 8 * n') post') := by
  obtain ⟨hcycle, hsorted, hbefore, hbehind⟩ := h.between
  obtain ⟨hpre, hn, hpost, hapart⟩ := tight_append.mp h.toTight
  have hsize := sized_append.mp h.sized
  rw [← hbp] at hcycle hsorted hbefore hbehind hsize
  rw [hp, append_assoc] at hcycle hsorted
  rw [hp] at hbefore
  simp only at hn
  have hbpsize : m.size bp = n := hsize.2.1
  have hsized : Sized m.size (bp + 8 * n) post := hsize.2.2
  have hapart' : Apart (post.map Seg.free) := (apart_false.mp hapart).2
  have hplt : p < bp := hbefore p (mem_append_right u (mem_singleton_self p))
  have hnodup := hsorted.imp Nat.ne_of_lt
  have hfresh : bp ∉ u ++ p :: places true (bp + 8 * n) post := by
    intro hin
    rw [← singleton_append, ← append_assoc] at hin
    rcases mem_append.mp hin with hin | hin
    · exact Nat.lt_irrefl bp (hbefore bp hin)
    · have hle := hbehind bp hin
      omega
  cases post with
  | nil =>
    have hback : m.ptr p ≤ p := next_last_le hcycle hsorted
    obtain ⟨hsame, hlinked⟩ := joinNext_apart hcycle hnodup hfresh (by omega)
    refine ⟨n, [], ⟨Nat.le_refl n, rfl, rfl, trivial, hpost, isChain_singleton _⟩, ?_, hlinked⟩
    rw [hsame, ← hbpsize, update_eq_self]
  | cons t post =>
    obtain ⟨tfree, s⟩ := t
    have hs : 0 < s := hpost ⟨tfree, s⟩ mem_cons_self
    have hpost' : ∀ t ∈ post, 0 < t.size := fun t ht => hpost t (mem_cons_of_mem _ ht)
    cases tfree with
    | true =>
      have haddr : bp + 8 * (n + s) = bp + 8 * n + 8 * s := by omega
      obtain ⟨hsame, hlinked⟩ := joinNext_touching hcycle hnodup hfresh (by rw [hbpsize])
      rw [hbpsize, hsized.1] at hsame
      refine ⟨n + s, post, ⟨Nat.le_add_right n s, Nat.add_assoc .., ?_, ?_, hpost', hapart'⟩, hsame, ?_⟩
      · rw [haddr]
        rfl
      · rw [haddr]
        exact hsized.2
      · rw [haddr]
        exact hlinked
    | false =>
      have hapartp : bp + 8 * m.size bp ≠ m.ptr p := by
        have hskip : places true (bp + 8 * n) (⟨false, s⟩ :: post) =
          places true (bp + 8 * n + 8 * s) post := rfl
        rw [hskip] at hcycle hsorted
        rcases hv : places true (bp + 8 * n + 8 * s) post with _ | ⟨y, v⟩
        · rw [hv] at hcycle hsorted
          have hback : m.ptr p ≤ p := next_last_le hcycle hsorted
          omega
        have hin : y ∈ places true (bp + 8 * n + 8 * s) post := by
          rw [hv]
          exact .head _
        have hy := (mem_places hpost' hin).1
        rw [hv] at hcycle
        rw [hcycle.next_eq]
        omega
      obtain ⟨hsame, hlinked⟩ := joinNext_apart hcycle hnodup hfresh hapartp
      refine ⟨n, ⟨false, s⟩ :: post, ⟨Nat.le_refl n, rfl, rfl, hsized, hpost, ?_⟩, ?_, hlinked⟩
      · have hrest : Apart (post.map Seg.free) := (apart_false (k := []).mp hapart').2
        exact apart_false.mpr ⟨isChain_singleton _, hrest⟩
      · rw [hsame, ← hbpsize, update_eq_self]

theorem Heap.size_free (h : Heap L m segs) {a : Nat} (ha : a ∈ places true L.start segs) :
    ∃ pre post, segs = pre ++ ⟨true, m.size a⟩ :: post ∧ a = L.start + 8 * width pre := by
  obtain ⟨pre, n, post, rfl, rfl⟩ := places_split ha
  rw [h.sized.at]
  exact ⟨pre, post, rfl, rfl⟩

/-- The memory is a heap with the blocks in use that there were. -/
structure Same (L : Layout) (m m' : Mem) (used : List Nat) (segs' : List Seg) : Prop where
  heap : Heap L m' segs'
  places : places false L.start segs' = used
  sizes : ∀ a ∈ used, m'.size a = m.size a

/-- **What freeing a block makes of the heap**: the other blocks in use are as they were, and
there is a free block at least as large. -/
structure Freed (L : Layout) (m m' : Mem) (used : List Nat) (n : Nat) (segs' : List Seg) :
    Prop extends Same L m m' used segs' where
  large : ∃ a ∈ Umalloc.places true L.start segs', n ≤ m'.size a

/-- The memory when `bp` has been joined to what is behind it. -/
structure Prepared (L : Layout) (m m1 : Mem) (pre : List Seg) (bp p n n' : Nat) (u : List Nat)
    (post post' : List Seg) : Prop where
  heap : Heap L m (pre ++ ⟨false, n⟩ :: post)
  addr : bp = L.start + 8 * width pre
  before : nodes L pre = u ++ [p]
  tail : Tail m bp n post n' post'
  sizes : m1.size = update m.size bp n'
  linked : Linked (update m1.ptr p bp) (u ++ p :: bp :: places true (bp + 8 * n') post')
  brk : m1.brk = m.brk

theorem joinNext_brk : (joinNext m bp p).brk = m.brk := by
  rw [joinNext]
  split <;> rfl

theorem joinPrev_brk : (joinPrev m bp p).brk = m.brk := by
  rw [joinPrev]
  split <;> rfl

section

variable {m1 : Mem} {n' : Nat} {post' : List Seg}

variable (h : Prepared L m m1 pre bp p n n' u post post')
include h

theorem Prepared.prev_lt : p < bp := by
  obtain ⟨hpre, -⟩ := tight_append.mp h.heap.toTight
  rw [h.addr]
  apply mem_nodes_lt hpre
  rw [h.before]
  exact mem_append_right u (mem_singleton_self p)

theorem Prepared.size_of_ne {a : Nat} (ha : a ≠ bp) : m1.size a = m.size a := by
  rw [h.sizes, update_of_ne ha]

theorem Prepared.size_bp : m1.size bp = n' := by rw [h.sizes, update_self]

theorem Prepared.used_ne {a : Nat}
    (ha : a ∈ places false L.start pre ++ places false (bp + 8 * n) post) : a < bp ∨ bp < a := by
  obtain ⟨hpre, hn, hpost, -⟩ := tight_append.mp h.heap.toTight
  have hbp := h.addr
  have hside := mem_beside hpre hpost ha
  simp only at hn
  omega

theorem Prepared.end_eq : m1.brk = L.start + 8 * (width pre + (n' + width post')) := by
  rw [h.brk, h.heap.brk, width_append, width_cons, h.tail.width]

theorem Prepared.sized_pre : Sized m1.size L.start pre := by
  obtain ⟨hpre, -⟩ := tight_append.mp h.heap.toTight
  have hbp := h.addr
  apply (sized_append.mp h.heap.sized).1.congr hpre
  intro x _ hlt
  exact h.size_of_ne (by omega)

theorem Prepared.sized_post : Sized m1.size (bp + 8 * n') post' := by
  obtain ⟨-, hn, -⟩ := tight_append.mp h.heap.toTight
  have hgrows := h.tail.grows
  simp only at hn
  apply h.tail.sized.congr h.tail.pos
  intro x hle _
  exact h.size_of_ne (by omega)

theorem Prepared.untouched (happ : Apart (pre.map Seg.free ++ [true])) :
    p + 8 * m1.size p ≠ bp := by
  obtain ⟨hpre, -⟩ := tight_append.mp h.heap.toTight
  have hlt := h.prev_lt
  have hp : p ∈ nodes L pre := by
    rw [h.before]
    exact mem_append_right u (mem_singleton_self p)
  rw [h.size_of_ne (Nat.ne_of_lt hlt)]
  rcases mem_cons.mp hp with rfl | hp
  · rw [h.heap.base]
    omega
  obtain ⟨pre1, k, pre2, rfl, rfl⟩ := places_split hp
  have hk : m.size (L.start + 8 * width pre1) = k := (sized_append.mp h.heap.sized).1.at
  rw [h.addr, width_append]
  intro heq
  cases pre2 with
  | nil =>
    have htwo : Apart (pre1.map Seg.free ++ [true, true]) := by simpa using happ
    have hpair := (isChain_append.mp htwo).2.1
    rw [isChain_pair] at hpair
    exact hpair ⟨rfl, rfl⟩
  | cons t =>
    have ht : 0 < t.size := hpre t (by simp)
    simp only [width_cons] at heq
    omega

theorem Prepared.link (happ : Apart (pre.map Seg.free ++ [true])) :
    Freed L m { joinPrev m1 bp p with freep := p }
      (places false L.start pre ++ places false (bp + 8 * n) post) n
      (pre ++ ⟨true, n'⟩ :: post') := by
  obtain ⟨hpre, hn, -⟩ := tight_append.mp h.heap.toTight
  have hgrows := h.tail.grows
  have hbp := h.addr
  obtain ⟨hsize, hptr⟩ := joinPrev_apart (h.untouched happ)
  have hnodes : nodes L (pre ++ ⟨true, n'⟩ :: post') =
      u ++ p :: bp :: places true (bp + 8 * n') post' := by
    rw [nodes_append, ← hbp, h.before, append_assoc]
    rfl
  simp only at hn
  refine ⟨⟨?_, ?_, ?_⟩, ?_⟩
  · constructor
    · exact tight_append.mpr ⟨hpre, by simp only; omega, h.tail.pos,
        apart_true.mpr ⟨happ, h.tail.apart⟩⟩
    · rw [hnodes]
      simp only [hptr]
      exact h.linked
    · rw [sized_append, ← hbp]
      simp only [hsize]
      exact ⟨h.sized_pre, h.size_bp, h.sized_post⟩
    · have hbelow := L.below
      simp only [hsize]
      rw [h.size_of_ne (by omega)]
      exact h.heap.base
    · simp only [joinPrev_brk]
      rw [h.end_eq, width_append, width_cons]
    · simp only [joinPrev_brk]
      rw [h.brk]
      exact h.heap.limit
    · rw [hnodes]
      exact mem_append_right u mem_cons_self
  · rw [places_append, ← hbp, ← h.tail.used]
    rfl
  · intro a ha
    simp only [hsize]
    rcases h.used_ne ha with hlt | hgt
    · exact h.size_of_ne (Nat.ne_of_lt hlt)
    · exact h.size_of_ne (Nat.ne_of_gt hgt)
  · refine ⟨bp, ?_, ?_⟩
    · rw [places_append, ← hbp]
      exact mem_append_right _ mem_cons_self
    · simp only [hsize]
      rw [h.size_bp]
      exact hgrows

omit h

theorem Prepared.merge {s : Nat} (h : Prepared L m m1 (pre ++ [⟨true, s⟩]) bp p n n' u post post') :
    Freed L m { joinPrev m1 bp p with freep := p }
      (places false L.start (pre ++ [⟨true, s⟩]) ++ places false (bp + 8 * n) post) n
      (pre ++ ⟨true, s + n'⟩ :: post') := by
  obtain ⟨hpre, hn, hpost, hapart⟩ := tight_append.mp h.heap.toTight
  have hgrows := h.tail.grows
  simp only at hn
  have hpos : ∀ t ∈ pre, 0 < t.size := fun t ht => hpre t (mem_append_left _ ht)
  have hbp : bp = L.start + 8 * width pre + 8 * s := by
    rw [h.addr, width_append]
    simp only [width_cons, width_nil]
    omega
  -- `p` is the block before `bp`
  obtain ⟨hu, hp⟩ : nodes L pre = u ∧ [L.start + 8 * width pre] = [p] := by
    have hbefore := h.before
    rw [nodes_append] at hbefore
    exact append_inj' hbefore rfl
  have hp : p = L.start + 8 * width pre := (List.cons.inj hp).1.symm
  have hpsize : m1.size p = s := by
    rw [hp]
    exact h.sized_pre.at
  have hsorted : (u ++ p :: bp :: places true (bp + 8 * n') post').Pairwise (· < ·) := by
    have hnodes : nodes L ((pre ++ [⟨true, s⟩]) ++ ⟨true, n'⟩ :: post') =
        u ++ p :: bp :: places true (bp + 8 * n') post' := by
      rw [nodes_append, h.before, ← h.addr, append_assoc]
      rfl
    rw [← hnodes]
    apply nodes_sorted
    intro t ht
    rcases mem_append.mp ht with ht | ht
    · exact hpre t ht
    rcases mem_cons.mp ht with rfl | ht
    · simp only
      omega
    · exact h.tail.pos t ht
  obtain ⟨hsize, hlinked⟩ := joinPrev_touching h.linked (hsorted.imp Nat.ne_of_lt)
    (by rw [hpsize]; omega)
  rw [hpsize, h.size_bp] at hsize
  have haddr : L.start + 8 * width pre + 8 * (s + n') = bp + 8 * n' := by omega
  have hother : ∀ a, a < p ∨ bp < a → (joinPrev m1 bp p).size a = m1.size a := by
    intro a ha
    rw [hsize, update_of_ne (by omega)]
  have hnodes : nodes L (pre ++ ⟨true, s + n'⟩ :: post') =
      u ++ p :: places true (bp + 8 * n') post' := by
    rw [nodes_append, hu, ← haddr, hp]
    rfl
  have hsized_pre : Sized m1.size L.start pre := (sized_append.mp h.sized_pre).1
  refine ⟨⟨?_, ?_, ?_⟩, ?_⟩
  · constructor
    · refine tight_append.mpr ⟨hpos, by simp only; omega, h.tail.pos, apart_true.mpr ⟨?_, h.tail.apart⟩⟩
      rw [map_append] at hapart
      exact (apart_false.mp hapart).1
    · rw [hnodes]
      exact hlinked
    · rw [sized_append]
      refine ⟨hsized_pre.congr hpos fun x _ hlt => hother x (by omega), ?_, ?_⟩
      · rw [← hp, hsize, update_self]
      simp only [haddr]
      apply h.sized_post.congr h.tail.pos
      intro x hle _
      exact hother x (by omega)
    · have hbelow := L.below
      simp only [hother L.base (by omega)]
      rw [h.size_of_ne (by omega)]
      exact h.heap.base
    · simp only [joinPrev_brk]
      rw [h.end_eq, width_append, width_append, width_cons, width_cons]
      simp only [width_nil]
      omega
    · simp only [joinPrev_brk]
      rw [h.brk]
      exact h.heap.limit
    · rw [hnodes]
      exact mem_append_right u mem_cons_self
  · rw [places_append, places_append, ← h.tail.used, ← haddr]
    simp [places]
  · intro a ha
    have hlt : a < p ∨ bp < a := by
      rcases mem_append.mp ha with hin | hin
      · rw [places_append] at hin
        have hin' : a ∈ places false L.start pre := by simpa [places] using hin
        have hupper := (mem_places hpos hin').2
        omega
      · have hlower := (mem_places hpost hin).1
        omega
    simp only [hother a hlt]
    exact h.size_of_ne (by omega)
  · refine ⟨p, ?_, ?_⟩
    · rw [places_append, hp]
      exact mem_append_right _ mem_cons_self
    · simp only [hsize, update_self]
      omega

end

theorem Heap.rounds (h : Heap L m segs) :
    2 * ((places true L.start segs).length + 1) ≤ ROUNDS / 2 := by
  have hlen : (places true L.start segs).length ≤ width segs := length_places h.pos
  have hbrk := h.brk
  have hlimit := h.limit
  have hkern : KERNBASE = 2 ^ 31 := rfl
  have hrounds : ROUNDS = 2 ^ 30 := rfl
  omega

/-- **`free` gives a block back.** -/
theorem free_spec (h : Heap L m (pre ++ ⟨false, n⟩ :: post)) (hbp : bp = L.start + 8 * width pre) :
    ∃ m' segs', free m (bp + 8) = some m' ∧
      Freed L m m' (places false L.start pre ++ places false (bp + 8 * n) post) n segs' := by
  obtain ⟨hcycle, hsorted, hbefore, hbehind⟩ := h.between
  obtain ⟨hpre, hn, hpost, hapart⟩ := tight_append.mp h.toTight
  have hfreep := h.freep
  have hrounds := h.rounds
  have hlen : (places true L.start (pre ++ ⟨false, n⟩ :: post)).length =
      (places true L.start pre).length +
        (places true (L.start + 8 * width pre + 8 * n) post).length := by
    rw [places_append, length_append]
    rfl
  rw [nodes_taken] at hfreep
  rw [hlen] at hrounds
  rw [← hbp] at hcycle hsorted hbefore hbehind hfreep hrounds
  simp only at hn
  have hbehind' : ∀ x ∈ places true (bp + 8 * n) post, bp < x := by
    intro x hx
    have hle := hbehind x hx
    omega
  have hfuel : (places true L.start pre).length + (places true (bp + 8 * n) post).length < ROUNDS := by
    omega
  obtain ⟨u, p, hu, hplace⟩ := place_found hcycle hsorted hbefore hbehind' hfreep hfuel
  obtain ⟨n', post', htail, hsizes, hlinked⟩ := joinNext_spec h hbp hu
  have hprep : Prepared L m (joinNext m bp p) pre bp p n n' u post post' :=
    ⟨h, hbp, hu, htail, hsizes, hlinked, joinNext_brk⟩
  have hfree : free m (bp + 8) =
      some { joinPrev (joinNext m bp p) bp p with freep := p } := by
    rw [free, Nat.add_sub_cancel, hplace]
    rfl
  rcases eq_nil_or_concat' pre with rfl | ⟨pre', ⟨tfree, s⟩, rfl⟩
  · exact ⟨_, _, hfree, hprep.link (isChain_singleton _)⟩
  cases tfree with
  | true => exact ⟨_, _, hfree, hprep.merge⟩
  | false =>
    refine ⟨_, _, hfree, hprep.link ?_⟩
    have hpre' : Apart (pre'.map Seg.free ++ [false]) := by
      have hleft := (apart_false.mp hapart).1
      rwa [map_append] at hleft
    rw [map_append, append_assoc]
    exact apart_false.mpr ⟨(apart_false.mp hpre').1, isChain_singleton _⟩

end Xv6.Umalloc
