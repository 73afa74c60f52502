import Mathlib.Algebra.Order.Ring.WithTop
import Xv6.SysFile
import Xv6.Tally
import Xv6.Threads

/-!
**An order for the inode locks.**

The entries of the tree, leaving out `.` and `..`, go from older to younger directories or
to files. `rank` numbers the inodes that way: a directory by its birth, everything
else above. Births are auxiliary state, and so are the references each process has inside
its call; these show that the file `link` has looked at is still no directory when its
entry is made.

`treeOrder` collects what processes promise each other: `ilock` under another lock goes up in
rank.
-/

namespace Xv6.Fs

open Program Tally List Function

/-! ### The order -/

/-- Auxiliary state: births of directories, the references each process has inside its call, and
the inode whose type it relies on. -/
structure Ghost where
  birth : Nat → Nat
  clock : Nat
  own : Fin NPROC → Multiset Nat
  pin : Fin NPROC → Option Nat

def rank (s : State) (g : Ghost) (i : Nat) : WithTop ℕ :=
  if (s.inode i).type = .T_DIR then (g.birth i : WithTop ℕ) else ⊤

def tokens (g : Ghost) (i : Nat) : ℤ := tally (fun X : Multiset Nat => (X.count i : ℤ)) g.own

structure Ordered (s : State) (g : Ghost) : Prop where
  small : s.ninodes ≤ 65536
  up : ∀ d i, i ∈ (s.inode d).out → rank s g d < rank s g i
  young : ∀ i, g.birth i < g.clock
  refs : ∀ i, tokens g i ≤ (s.icache i).ref
  owned : ∀ p i, i ∈ g.own p → i < 65536
  pinned : ∀ p i, g.pin p = some i → i ∈ g.own p ∧ (s.inode i).type ≠ .free
  valid : ∀ i, (s.icache i).valid = true → (s.inode i).type ≠ .free

/-- What process `p`, with the inodes `held` locked, finds as it was. -/
structure Kept (p : Fin NPROC) (held : List Nat) (s : State) (g : Ghost) (s' : State)
    (g' : Ghost) : Prop where
  cwd : (s'.kernel.ptable p).cwd = (s.kernel.ptable p).cwd
  pin : g'.pin p = g.pin p
  births : ∀ i, g.birth i ≤ g'.birth i
  pinned : ∀ i, g.pin p = some i → (s'.inode i).type = (s.inode i).type
  locked : ∀ i ∈ held, (s.inode i).type ≠ .free → s'.inode i = s.inode i ∧
    g'.birth i = g.birth i ∧ ∀ q, q ≠ p → g'.pin q = some i → g.pin q = some i

section

variable {p : Fin NPROC} {held held' : List Nat} {s s' s'' : State} {g g' g'' : Ghost}

theorem Kept.refl : Kept p held s g s g :=
  ⟨rfl, rfl, fun _ => Nat.le_refl _, fun _ _ => rfl, fun _ _ _ => ⟨rfl, rfl, fun _ _ h => h⟩⟩

variable (h : Kept p held s g s' g')
include h

theorem Kept.trans (h' : Kept p held s' g' s'' g'') : Kept p held s g s'' g'' := by
  constructor
  · rw [h'.cwd, h.cwd]
  · rw [h'.pin, h.pin]
  · exact fun i => (h.births i).trans (h'.births i)
  · intro i hi
    rw [h'.pinned i (h.pin ▸ hi), h.pinned i hi]
  · intro i hi htype
    obtain ⟨hinode, hbirth, hpins⟩ := h.locked i hi htype
    obtain ⟨hinode', hbirth', hpins'⟩ := h'.locked i hi (hinode ▸ htype)
    exact ⟨hinode'.trans hinode, hbirth'.trans hbirth,
      fun q hq hpin => hpins q hq (hpins' q hq hpin)⟩

theorem Kept.mono (hsub : held' ⊆ held) : Kept p held' s g s' g' :=
  ⟨h.cwd, h.pin, h.births, h.pinned, fun i hi => h.locked i (hsub hi)⟩

theorem Kept.isDir {d : Nat} (hd : d ∈ held) (htype : (s.inode d).type = .T_DIR) :
    (s'.inode d).type = .T_DIR := by
  rw [(h.locked d hd (by simp [htype])).1, htype]

theorem Kept.type_ne_free {d : Nat} (hd : d ∈ held) (htype : (s.inode d).type ≠ .free) :
    (s'.inode d).type ≠ .free := by
  rw [(h.locked d hd htype).1]
  exact htype

end

/-- What the processes promise each other: to wait in `ilock` upwards only. -/
def treeOrder : Rely (Fin NPROC) State Ghost Site Nat PathCall where
  inv := Ordered
  frame p held s g s' g' := g'.own p = g.own p ∧ Kept p held s g s' g'
  ok _ _ w l held s g :=
    match w with
    | .ilock => ∀ h ∈ held, rank s g h < rank s g l
    | .iput locked => held ⊆ locked
  idle p s g := g.own p = ((s.kernel.ptable p).cwd.elim 0 fun i => {i}) ∧ g.pin p = none
  refl _ _ _ _ := ⟨rfl, .refl⟩
  trans h h' := ⟨h'.1.trans h.1, h.2.trans h'.2⟩
  idle_frame h hf := ⟨by rw [hf.1, hf.2.cwd, h.1], by rw [hf.2.pin, h.2]⟩

/-! ### Steps -/

section

variable {p : Fin NPROC} {held : List Nat} {s s' : State} {g g' : Ghost} {i : Nat}

theorem rank_congr (htype : (s'.inode i).type = (s.inode i).type)
    (hbirth : g'.birth i = g.birth i) : rank s' g' i = rank s g i := by
  rw [rank, rank, htype, hbirth]

theorem rank_eq_top (htype : (s.inode i).type ≠ .T_DIR) : rank s g i = ⊤ := if_neg htype

theorem rank_eq_birth (htype : (s.inode i).type = .T_DIR) :
    rank s g i = (g.birth i : WithTop ℕ) := if_pos htype

theorem rank_lt_of_birth {d : Nat} (hd : (s.inode d).type = .T_DIR)
    (hbirth : g.birth d < g.birth i) : rank s g d < rank s g i := by
  rw [rank_eq_birth hd]
  by_cases hi : (s.inode i).type = .T_DIR
  · rw [rank_eq_birth hi]
    exact_mod_cast hbirth
  · rw [rank_eq_top hi]
    exact WithTop.coe_lt_top _

/-- The process's own auxiliary state. -/
def Ghost.hold (g : Ghost) (p : Fin NPROC) (X : Multiset Nat) (y : Option Nat) : Ghost :=
  { g with own := update g.own p X, pin := update g.pin p y }

theorem tokens_hold (X : Multiset Nat) (y : Option Nat) :
    tokens (g.hold p X y) i = tokens g i - (g.own p).count i + X.count i := by
  rw [tokens, Ghost.hold, tally_update, tokens]

theorem count_le_tokens (g : Ghost) (p : Fin NPROC) (i : Nat) : ((g.own p).count i : ℤ) ≤ tokens g i :=
  le_tally (fun _ => Int.natCast_nonneg _) p

variable (h : Ordered s g)
include h

theorem allowed_cache {X : Multiset Nat} {y : Option Nat} (hkernel : s'.kernel = s.kernel)
    (hn : s'.ninodes = s.ninodes) (hinode : s'.inode = s.inode)
    (hvalid : ∀ j, (s'.icache j).valid = true → (s.inode j).type ≠ .free)
    (hrefs : ∀ j, tokens g j - (g.own p).count j + X.count j ≤ (s'.icache j).ref)
    (hX : ∀ j ∈ X, j < 65536) (hy : ∀ j, y = some j → j ∈ X ∧ g.pin p = some j) :
    treeOrder.Allowed p held s g s' (g.hold p X y) := by
  have hrank : ∀ j, rank s' (g.hold p X y) j = rank s g j :=
    fun j => rank_congr (by rw [hinode]) rfl
  constructor
  · constructor
    · rw [hn]; exact h.small
    · intro d j hj
      rw [hrank, hrank]
      rw [hinode] at hj
      exact h.up d j hj
    · exact h.young
    · intro j
      rw [tokens_hold]
      exact hrefs j
    · intro q j hj
      by_cases hq : q = p
      · subst hq
        exact hX j (by simpa [Ghost.hold] using hj)
      · exact h.owned q j (by simpa [Ghost.hold, hq] using hj)
    · intro q j hj
      rw [hinode]
      by_cases hq : q = p
      · subst hq
        have hyj : y = some j := by simpa [Ghost.hold] using hj
        exact ⟨by simpa [Ghost.hold] using (hy j hyj).1, (h.pinned q j (hy j hyj).2).2⟩
      · simpa [Ghost.hold, hq] using h.pinned q j (by simpa [Ghost.hold, hq] using hj)
    · intro j hj
      rw [hinode]
      exact hvalid j hj
  · intro q held' hq hdisj
    refine ⟨by simp [Ghost.hold, hq], by rw [hkernel], by simp [Ghost.hold, hq],
      fun _ => Nat.le_refl _, fun _ _ => by rw [hinode], ?_⟩
    intro j hj htype
    refine ⟨by rw [hinode], rfl, fun r hr hpin => ?_⟩
    by_cases hrp : r = p
    · subst hrp
      exact (hy j (by simpa [Ghost.hold] using hpin)).2
    · simpa [Ghost.hold, hrp] using hpin

theorem allowed_setInode {d : Inode} (hi : i ∈ held) (htype : d.type = (s.inode i).type)
    (hout : ∀ j ∈ d.out, rank s g i < rank s g j) :
    treeOrder.Allowed p held s g (s.setInode i d) g := by
  have htypes : ∀ j, ((s.setInode i d).inode j).type = (s.inode j).type := by
    intro j
    by_cases hj : j = i
    · subst hj; simpa [State.setInode] using htype
    · simp [State.setInode, hj]
  have hrank : ∀ j, rank (s.setInode i d) g j = rank s g j := fun j => rank_congr (htypes j) rfl
  constructor
  · constructor
    · exact h.small
    · intro d' j hj
      rw [hrank, hrank]
      by_cases hd : d' = i
      · subst hd
        exact hout j (by simpa [State.setInode] using hj)
      · exact h.up d' j (by simpa [State.setInode, hd] using hj)
    · exact h.young
    · exact h.refs
    · exact h.owned
    · intro q j hj
      rw [htypes]
      exact h.pinned q j hj
    · intro j hj
      rw [htypes]
      exact h.valid j hj
  · intro q held' hq hdisj
    refine ⟨rfl, rfl, rfl, fun _ => Nat.le_refl _, fun j _ => htypes j, ?_⟩
    intro j hj _
    have hne : j ≠ i := fun heq => hdisj hi (heq ▸ hj)
    exact ⟨by simp [State.setInode, hne], rfl, fun _ _ hpin => hpin⟩

theorem allowed_pin (hi : i ∈ held) (hown : i ∈ g.own p) (htype : (s.inode i).type ≠ .free) :
    treeOrder.Allowed p held s g s (g.hold p (g.own p) (some i)) := by
  constructor
  · constructor
    · exact h.small
    · exact h.up
    · exact h.young
    · intro j
      rw [tokens_hold]
      have hrefs := h.refs j
      omega
    · intro q j hj
      exact h.owned q j (by simpa [Ghost.hold] using hj)
    · intro q j hj
      by_cases hq : q = p
      · subst hq
        obtain rfl : i = j := by simpa [Ghost.hold] using hj
        exact ⟨by simpa [Ghost.hold] using hown, htype⟩
      · simpa [Ghost.hold] using h.pinned q j (by simpa [Ghost.hold, hq] using hj)
    · exact h.valid
  · intro q held' hq hdisj
    refine ⟨by simp [Ghost.hold], rfl, by simp [Ghost.hold, hq], fun _ => Nat.le_refl _,
      fun _ _ => rfl, ?_⟩
    intro j hj _
    refine ⟨rfl, rfl, fun r _ hpin => ?_⟩
    by_cases hr : r = p
    · subst hr
      obtain rfl : i = j := by simpa [Ghost.hold] using hpin
      exact absurd hj (hdisj hi)
    · simpa [Ghost.hold, hr] using hpin

theorem allowed_free (hi : i ∈ held) (hpins : ∀ q, g.pin q ≠ some i) :
    treeOrder.Allowed p held s g (s.free i) g := by
  have hother : ∀ j, j ≠ i → (s.free i).inode j = s.inode j := by
    intro j hj
    simp [State.free, State.setInode, State.setCache, hj]
  have hself : ((s.free i).inode i).type = .free := by
    simp [State.free, State.setInode, State.setCache]
  have hrank : ∀ j, j ≠ i → rank (s.free i) g j = rank s g j :=
    fun j hj => rank_congr (by rw [hother j hj]) rfl
  constructor
  · constructor
    · exact h.small
    · intro d j hj
      have hdir := (Inode.mem_out.mp hj).1
      have hd : d ≠ i := by
        rintro rfl
        rw [hself] at hdir
        cases hdir
      rw [hother d hd] at hj
      rw [hrank d hd]
      by_cases hji : j = i
      · rw [hji, rank_eq_top (i := i) (by rw [hself]; simp)]
        exact lt_of_lt_of_le (h.up d j hj) le_top
      · rw [hrank j hji]
        exact h.up d j hj
    · exact h.young
    · intro j
      refine (h.refs j).trans (le_of_eq ?_)
      by_cases hj : j = i
      · subst hj; simp [State.free, State.setCache]
      · simp [State.free, State.setInode, State.setCache, hj]
    · exact h.owned
    · intro q j hj
      have hne : j ≠ i := fun heq => hpins q (heq ▸ hj)
      rw [hother j hne]
      exact h.pinned q j hj
    · intro j hj
      by_cases hji : j = i
      · subst hji
        simp [State.free, State.setCache] at hj
      · rw [hother j hji]
        exact h.valid j (by simpa [State.free, State.setInode, State.setCache, hji] using hj)
  · intro q held' hq hdisj
    refine ⟨rfl, rfl, rfl, fun _ => Nat.le_refl _, fun j hj => ?_, fun j hj _ => ?_⟩
    · rw [hother j fun heq => hpins q (heq ▸ hj)]
    · exact ⟨hother j fun heq => hdisj hi (heq ▸ hj), rfl, fun _ _ hpin => hpin⟩

omit h

/-- A directory born now. -/
def Ghost.bear (g : Ghost) (i : Nat) : Ghost :=
  { g with birth := update g.birth i g.clock, clock := g.clock + 1 }

/-- Nobody has locked or relies on a free inode. -/
theorem kept_claim {d : Inode} (h : Ordered s g) (hfree : (s.inode i).type = .free) :
    Kept p held s g (s.setInode i d) (g.bear i) := by
  have hother : ∀ j, j ≠ i → (s.setInode i d).inode j = s.inode j := by
    intro j hj
    simp [State.setInode, hj]
  refine ⟨rfl, rfl, fun j => ?_, fun j hj => ?_, fun j hj htype => ?_⟩
  · by_cases hj : j = i
    · subst hj
      simpa [Ghost.bear] using (h.young j).le
    · simp [Ghost.bear, hj]
  · rw [hother j fun heq => (h.pinned p j hj).2 (heq ▸ hfree)]
  · have hne : j ≠ i := fun heq => htype (heq ▸ hfree)
    exact ⟨hother j hne, by simp [Ghost.bear, hne], fun _ _ hpin => hpin⟩

/-- A free inode is born again, after everybody else. -/
theorem allowed_claim {d : Inode} (h : Ordered s g) (hfree : (s.inode i).type = .free)
    (hents : d.ents = []) : treeOrder.Allowed p held s g (s.setInode i d) (g.bear i) := by
  have hother : ∀ j, j ≠ i → (s.setInode i d).inode j = s.inode j := by
    intro j hj
    simp [State.setInode, hj]
  have hself : (s.setInode i d).inode i = d := by simp [State.setInode]
  constructor
  · constructor
    · exact h.small
    · intro d' j hj
      have hne : d' ≠ i := by
        rintro rfl
        rw [hself, Inode.mem_out, hents] at hj
        simp at hj
      rw [hother d' hne] at hj
      have hdir := (Inode.mem_out.mp hj).1
      by_cases hji : j = i
      · subst hji
        refine rank_lt_of_birth (by rw [hother d' hne, hdir]) ?_
        simpa [Ghost.bear, hne] using h.young d'
      rw [rank_congr (s := s) (g := g) (by rw [hother d' hne])
          (by simp [Ghost.bear, hne]), rank_congr (i := j) (s := s) (g := g) (by rw [hother j hji])
          (by simp [Ghost.bear, hji])]
      exact h.up d' j hj
    · intro j
      have hyoung := h.young j
      by_cases hj : j = i
      · subst hj; simp [Ghost.bear]
      · simp only [Ghost.bear, update_of_ne hj]
        omega
    · exact h.refs
    · exact h.owned
    · intro q j hj
      have hne : j ≠ i := fun heq => (h.pinned q j hj).2 (heq ▸ hfree)
      rw [hother j hne]
      exact h.pinned q j hj
    · intro j hj
      have hne : j ≠ i := fun heq => h.valid j hj (heq ▸ hfree)
      rw [hother j hne]
      exact h.valid j hj
  · exact fun q held' _ _ => ⟨rfl, kept_claim h hfree⟩

theorem allowed_kernel {k : Kernel} (h : Ordered s g)
    (hcwd : ∀ q, q ≠ p → (k.ptable q).cwd = (s.kernel.ptable q).cwd) :
    treeOrder.Allowed p held s g { s with kernel := k } g :=
  ⟨⟨h.small, h.up, h.young, h.refs, h.owned, h.pinned, h.valid⟩, fun q _ hq _ =>
    ⟨rfl, hcwd q hq, rfl, fun _ => Nat.le_refl _, fun _ _ => rfl,
      fun _ _ _ => ⟨rfl, rfl, fun _ _ hpin => hpin⟩⟩⟩

end

/-! ### The cache, concurrently

Each lemma says, of one function called by a process with the inodes `held` locked: which
locks and references the process has afterwards, and that the rest is `Kept`. -/

variable {c : PathCall} {p : Fin NPROC} {held : List Nat} {s s' : State} {g : Ghost} {i : Nat}
  {X : Multiset Nat}

/-- The state after a call: locks, references, and what was kept since `s g`. -/
structure After (p : Fin NPROC) (held : List Nat) (X : Multiset Nat) (s : State) (g : Ghost)
    (held' : List Nat) (s' : State) (g' : Ghost) : Prop where
  held_eq : held' = held
  own : g'.own p = X
  kept : Kept p held s g s' g'

theorem After.frame {held' : List Nat} {s'' : State} {g' g'' : Ghost}
    (h : After p held X s g held' s' g') (hf : treeOrder.frame p held s' g' s'' g'') :
    After p held X s g held' s'' g'' :=
  ⟨h.held_eq, hf.1.trans h.own, h.kept.trans hf.2⟩

theorem After.trans {held' : List Nat} {X' : Multiset Nat} {s'' : State} {g' g'' : Ghost}
    (h : After p held X s g held s' g') (h' : After p held X' s' g' held' s'' g'') :
    After p held X' s g held' s'' g'' :=
  ⟨h'.held_eq, h'.own, h.kept.trans h'.kept⟩

theorem allowed_ref (h : Ordered s g) (hi : i < 65536) (hkernel : s'.kernel = s.kernel)
    (hn : s'.ninodes = s.ninodes) (hinode : s'.inode = s.inode)
    (href : (s.icache i).ref + 1 ≤ (s'.icache i).ref)
    (hvalid : (s'.icache i).valid = true → (s.icache i).valid = true)
    (hother : ∀ j, j ≠ i → s'.icache j = s.icache j) :
    treeOrder.Allowed p held s g s' (g.hold p (i ::ₘ g.own p) (g.pin p)) := by
  refine allowed_cache h hkernel hn hinode ?_ ?_ ?_ ?_
  · intro j hj
    by_cases hji : j = i
    · subst hji
      exact h.valid j (hvalid hj)
    · exact h.valid j (hother j hji ▸ hj)
  · intro j
    have hrefs := h.refs j
    by_cases hji : j = i
    · subst hji
      rw [Multiset.count_cons_self]
      omega
    · rw [Multiset.count_cons_of_ne hji, hother j hji]
      omega
  · intro j hj
    rcases Multiset.mem_cons.mp hj with rfl | hj
    · exact hi
    · exact h.owned p j hj
  · exact fun j hj => ⟨Multiset.mem_cons_of_mem (h.pinned p j hj).1, hj⟩

theorem Ghost.hold_self (g : Ghost) (p : Fin NPROC) : g.hold p (g.own p) (g.pin p) = g := by
  simp [Ghost.hold]

theorem allowed_valid (h : Ordered s g) (htype : (s.inode i).type ≠ .free) :
    treeOrder.Allowed p held s g (s.setCache i { s.icache i with valid := true }) g := by
  have hallowed : treeOrder.Allowed p held s g (s.setCache i { s.icache i with valid := true })
      (g.hold p (g.own p) (g.pin p)) := by
    refine allowed_cache h rfl rfl rfl ?_ ?_ (h.owned p)
      (fun j hj => ⟨(h.pinned p j hj).1, hj⟩)
    · intro j hj
      by_cases hji : j = i
      · subst hji; exact htype
      · exact h.valid j (by simpa [State.setCache, hji] using hj)
    · intro j
      have hrefs := h.refs j
      have hsame : ((s.setCache i { s.icache i with valid := true }).icache j).ref =
          (s.icache j).ref := by
        by_cases hji : j = i
        · subst hji; simp [State.setCache]
        · simp [State.setCache, hji]
      omega
  rwa [Ghost.hold_self] at hallowed

theorem kept_hold {Y : Multiset Nat} (hkernel : s'.kernel = s.kernel) (hinode : s'.inode = s.inode) :
    Kept p held s g s' (g.hold p Y (g.pin p)) := by
  constructor
  · rw [hkernel]
  · simp [Ghost.hold]
  · exact fun _ => Nat.le_refl _
  · intro j _
    rw [hinode]
  · intro j _ _
    refine ⟨by rw [hinode], rfl, fun q hq hpin => ?_⟩
    simpa [Ghost.hold] using hpin

theorem safe_iget (hi : i < 65536) (hX : g.own p = X) :
    treeOrder.Safe c p (iget i) (fun _ => After p held (i ::ₘ X) s g) held s g := by
  refine Rely.safe_atomic fun s1 g1 hinv1 hframe1 _ s2 hstep => ?_
  have hstep2 : s2.kernel = s1.kernel ∧ s2.ninodes = s1.ninodes ∧ s2.inode = s1.inode ∧
      (s1.icache i).ref + 1 ≤ (s2.icache i).ref ∧
      ((s2.icache i).valid = true → (s1.icache i).valid = true) ∧
      ∀ j, j ≠ i → s2.icache j = s1.icache j := by
    split at hstep
    · cases hstep
      simp +contextual [State.setCache]
    split at hstep
    · cases hstep
      simp +contextual [State.setCache]
      omega
    · cases hstep
  obtain ⟨hkernel, hn, hinode, href, hvalid, hother⟩ := hstep2
  refine ⟨g1.hold p (i ::ₘ g1.own p) (g1.pin p),
    allowed_ref hinv1 hi hkernel hn hinode href hvalid hother, fun s3 g3 _ hframe3 => ?_⟩
  have hown : (g1.hold p (i ::ₘ g1.own p) (g1.pin p)).own p = i ::ₘ X := by
    simp [Ghost.hold, hframe1.1, hX]
  exact After.frame ⟨rfl, hown, hframe1.2.trans (kept_hold hkernel hinode)⟩ hframe3

theorem safe_idup (hi : i < 65536) (hX : g.own p = X) :
    treeOrder.Safe c p (idup i) (fun _ => After p held (i ::ₘ X) s g) held s g := by
  refine Rely.safe_modify fun s1 g1 hinv1 hframe1 => ?_
  refine ⟨g1.hold p (i ::ₘ g1.own p) (g1.pin p), allowed_ref hinv1 hi rfl rfl rfl
    (by simp [State.setCache]) (by simp [State.setCache])
    (fun j hj => by simp [State.setCache, hj]), fun s3 g3 _ hframe3 => ?_⟩
  have hown : (g1.hold p (i ::ₘ g1.own p) (g1.pin p)).own p = i ::ₘ X := by
    simp [Ghost.hold, hframe1.1, hX]
  refine After.frame ?_ hframe3
  exact ⟨rfl, hown, hframe1.2.trans (kept_hold rfl rfl)⟩

theorem safe_look {α : Type} {f : State → α} :
    treeOrder.Safe c p (reads f) (fun a held' s' g' => held' = held ∧
      treeOrder.frame p held s g s' g' ∧ ∃ s1 g1, Ordered s1 g1 ∧ a = f s1 ∧
        treeOrder.frame p held s g s1 g1 ∧ treeOrder.frame p held s1 g1 s' g') held s g :=
  Rely.safe_reads fun s1 g1 hinv1 hframe1 _ _ _ hframe3 =>
    ⟨rfl, treeOrder.trans hframe1 hframe3, s1, g1, hinv1, rfl, hframe1, hframe3⟩

theorem safe_ilock (hinv : Ordered s g) (hX : g.own p = X)
    (hok : ∀ s' g', Ordered s' g' → treeOrder.frame p held s g s' g' →
      ∀ h ∈ held, rank s' g' h < rank s' g' i) :
    treeOrder.Safe c p (ilock i) (fun _ held' s' g' => held' = i :: held ∧ g'.own p = X ∧
      Kept p held s g s' g' ∧ (s'.inode i).type ≠ .free) held s g := by
  refine Rely.Safe.bind safe_look hinv ?_
  rintro ref held1 s1 g1 hinv1 ⟨rfl, hframe1, -⟩
  split
  · trivial
  refine Rely.Safe.bind (Q := fun _ held' s' g' => held' = i :: held1 ∧
    treeOrder.frame p held1 s g s' g') (Rely.safe_acquire ?_) hinv1 ?_
  · intro s2 g2 hinv2 hframe2
    have hframe := treeOrder.trans hframe1 hframe2
    refine ⟨hok s2 g2 hinv2 hframe, fun _ s3 g3 _ hframe3 => ⟨rfl, ?_⟩⟩
    exact treeOrder.trans hframe ⟨hframe3.1, hframe3.2.mono (subset_cons_self i held1)⟩
  · rintro _ held3 s3 g3 hinv3 ⟨rfl, hframe3⟩
    refine Rely.safe_atomic fun s4 g4 hinv4 hframe4 _ s5 hstep => ?_
    have hback : ∀ {s6 g6 s7 g7}, treeOrder.frame p (i :: held1) s6 g6 s7 g7 →
        treeOrder.frame p held1 s6 g6 s7 g7 :=
      fun h => ⟨h.1, h.2.mono (subset_cons_self i held1)⟩
    have htype : (s4.inode i).type ≠ .free ∧ s5.inode = s4.inode ∧ s5.kernel = s4.kernel ∧
        treeOrder.Allowed p (i :: held1) s4 g4 s5 g4 := by
      split at hstep
      next hvalid =>
        cases hstep
        exact ⟨hinv4.valid i hvalid, rfl, rfl, .refl hinv4⟩
      split at hstep
      · cases hstep
      next htype =>
        cases hstep
        exact ⟨htype, rfl, rfl, allowed_valid hinv4 htype⟩
    obtain ⟨htype, hinode, hkernel, hallowed⟩ := htype
    refine ⟨g4, hallowed, fun s6 g6 _ hframe6 => ⟨rfl, ?_, ?_, ?_⟩⟩
    · rw [hframe6.1, hframe4.1, hframe3.1, hX]
    · have hstay : Kept p held1 s4 g4 s5 g4 := by
        have hkept : Kept p held1 s4 g4 s5 (g4.hold p (g4.own p) (g4.pin p)) :=
          kept_hold hkernel hinode
        rwa [Ghost.hold_self] at hkept
      exact hframe3.2.trans ((hback hframe4).2.trans (hstay.trans (hback hframe6).2))
    · rw [← hinode] at htype
      exact hframe6.2.type_ne_free (.head _ ..) htype

theorem safe_iunlock (hinv : Ordered s g) (hX : g.own p = X) (hi : i ∈ held) :
    treeOrder.Safe c p (iunlock i) (fun _ => After p (held.erase i) X s g) held s g := by
  refine Rely.Safe.bind safe_look hinv ?_
  rintro ref held1 s1 g1 hinv1 ⟨rfl, hframe1, -⟩
  split
  · trivial
  refine Rely.safe_release hi fun s2 g2 _ hframe2 s3 g3 _ hframe3 => ⟨rfl, ?_, ?_⟩
  · rw [hframe3.1, hframe2.1, hframe1.1, hX]
  · have hsub : held1.erase i ⊆ held1 := erase_subset
    exact (hframe1.2.mono hsub).trans ((hframe2.2.mono hsub).trans hframe3.2)

theorem pin_ne_of_last (h : Ordered s g) (hX : g.own p = i ::ₘ X)
    (hpin : ∀ j, g.pin p = some j → j ∈ X) (hlast : unreferenced s i = true) (q : Fin NPROC) :
    g.pin q ≠ some i := by
  intro hq
  have href : (s.icache i).ref = 1 := by
    simp only [unreferenced, Bool.and_eq_true, beq_iff_eq] at hlast
    exact hlast.2
  have hrefs := h.refs i
  by_cases hqp : q = p
  · subst hqp
    have hmem : 0 < X.count i := Multiset.count_pos.mpr (hpin i hq)
    have hcount := count_le_tokens g q i
    rw [hX, Multiset.count_cons_self] at hcount
    omega
  · have hmine : 0 < (g.own p).count i := by
      rw [hX, Multiset.count_cons_self]
      omega
    have hother : 0 < (g.own q).count i := Multiset.count_pos.mpr (h.pinned q i hq).1
    have hsum := add_le_tally (w := fun X : Multiset Nat => (X.count i : ℤ)) (f := g.own)
      (fun _ => Int.natCast_nonneg _) (Ne.symm hqp)
    have htokens : tokens g i = tally (fun X : Multiset Nat => (X.count i : ℤ)) g.own := rfl
    omega

theorem safe_freeLast (hinv : Ordered s g) (hX : g.own p = i ::ₘ X) (hi : i ∉ held)
    (hpin : ∀ j, g.pin p = some j → j ∈ X) :
    treeOrder.Safe c p (freeLast i) (fun _ held' s' g' => held' = i :: held ∧
      g'.own p = i ::ₘ X ∧ Kept p held s g s' g') (i :: held) s g := by
  have hback : ∀ {s6 g6 s7 g7}, Kept p (i :: held) s6 g6 s7 g7 → Kept p held s6 g6 s7 g7 :=
    fun h => h.mono (subset_cons_self i held)
  refine Rely.Safe.bind safe_look hinv ?_
  rintro last held1 s2 g2 hinv2 ⟨rfl, hframe2, s1, g1, hinv1, rfl, hframe1, hframe12⟩
  have hX1 : g1.own p = i ::ₘ X := hframe1.1.trans hX
  unfold onlyIf
  split
  next hlast =>
    have htype : (s1.inode i).type ≠ .free := by
      simp only [unreferenced, Bool.and_eq_true] at hlast
      exact hinv1.valid i hlast.1.1
    have hpin1 : ∀ q, g1.pin q ≠ some i :=
      pin_ne_of_last hinv1 hX1 (fun j hj => hpin j (hframe1.2.pin ▸ hj)) hlast
    refine Rely.safe_modify fun s3 g3 hinv3 hframe3 => ?_
    have hframe13 := treeOrder.trans hframe12 hframe3
    obtain ⟨-, -, hpins⟩ := hframe13.2.locked i (.head _ ..) htype
    -- nobody came to rely on it since the test
    have hpin3 : ∀ q, g3.pin q ≠ some i := by
      intro q hq
      by_cases hqp : q = p
      · subst hqp
        exact hpin1 q (hframe13.2.pin ▸ hq)
      · exact hpin1 q (hpins q hqp hq)
    refine ⟨g3, allowed_free hinv3 (.head _ ..) hpin3, fun s4 g4 _ hframe4 => ?_⟩
    have hfree : Kept p held s3 g3 (s3.free i) g3 := by
      refine ⟨rfl, rfl, fun _ => Nat.le_refl _, fun j hj => ?_, fun j hj _ => ?_⟩
      · have hne : j ≠ i := fun heq => hpin3 p (heq ▸ hj)
        simp [State.free, State.setInode, State.setCache, hne]
      · have hne : j ≠ i := fun heq => hi (heq ▸ hj)
        exact ⟨by simp [State.free, State.setInode, State.setCache, hne], rfl, fun _ _ hpin => hpin⟩
    refine ⟨rfl, ?_, ?_⟩
    · rw [hframe4.1, hframe13.1, hX1]
    · exact (hback hframe1.2).trans
        ((hback hframe13.2).trans (hfree.trans (hback hframe4.2)))
  · refine Rely.safe_pure fun s3 g3 _ hframe3 => ⟨rfl, ?_, ?_⟩
    · rw [hframe3.1, hframe2.1, hX]
    · exact hback (hframe2.2.trans hframe3.2)

theorem allowed_drop (h : Ordered s g) (hX : g.own p = i ::ₘ X)
    (hpin : ∀ j, g.pin p = some j → j ∈ X) :
    treeOrder.Allowed p held s g (s.drop i) (g.hold p X (g.pin p)) := by
  have hother : ∀ j, j ≠ i → (s.drop i).icache j = s.icache j := by
    intro j hj
    simp [State.drop, State.setCache, hj]
  refine allowed_cache h rfl rfl rfl ?_ ?_ ?_ ?_
  · intro j hj
    by_cases hji : j = i
    · subst hji
      exact h.valid j (by simpa [State.drop, State.setCache] using hj)
    · exact h.valid j (hother j hji ▸ hj)
  · intro j
    have hrefs := h.refs j
    rw [hX]
    by_cases hji : j = i
    · subst hji
      rw [Multiset.count_cons_self]
      have href : ((s.drop j).icache j).ref = (s.icache j).ref - 1 := by
        simp [State.drop, State.setCache]
      omega
    · rw [Multiset.count_cons_of_ne hji, hother j hji]
      omega
  · exact fun j hj => h.owned p j (hX ▸ Multiset.mem_cons_of_mem hj)
  · exact fun j hj => ⟨hpin j hj, hj⟩

variable (hinv : Ordered s g)
include hinv

theorem safe_iput {locked : List Nat} (hX : g.own p = i ::ₘ X) (hsub : held ⊆ locked)
    (hpin : ∀ j, g.pin p = some j → j ∈ X) :
    treeOrder.Safe c p (iput locked i) (fun _ => After p held X s g) held s g := by
  refine Rely.Safe.bind (Q := fun _ held' s' g' => held' = i :: held ∧ i ∉ held ∧
    g'.own p = i ::ₘ X ∧ Kept p held s g s' g') (Rely.safe_acquire ?_) hinv ?_
  · intro s1 g1 _ hframe1
    refine ⟨hsub, fun hi s2 g2 _ hframe2 => ⟨rfl, hi, ?_, ?_⟩⟩
    · rw [hframe2.1, hframe1.1, hX]
    · exact hframe1.2.trans (hframe2.2.mono (subset_cons_self i held))
  rintro _ held2 s2 g2 hinv2 ⟨rfl, hi, hX2, hkept2⟩
  have hpin2 : ∀ j, g2.pin p = some j → j ∈ X := fun j hj => hpin j (hkept2.pin ▸ hj)
  refine Rely.Safe.bind (safe_freeLast hinv2 hX2 hi hpin2) hinv2 ?_
  rintro _ held3 s3 g3 hinv3 ⟨rfl, hX3, hkept3⟩
  refine Rely.Safe.bind (Q := fun _ held' s' g' => held' = held ∧
    treeOrder.frame p held s3 g3 s' g') (Rely.safe_release (.head _ ..) ?_) hinv3 ?_
  · intro s4 g4 _ hframe4 s5 g5 _ hframe5
    rw [erase_cons_head] at hframe5
    refine ⟨erase_cons_head .., ?_⟩
    exact treeOrder.trans ⟨hframe4.1, hframe4.2.mono (subset_cons_self i held)⟩ hframe5
  rintro _ held5 s5 g5 hinv5 ⟨rfl, hframe5⟩
  refine Rely.safe_modify fun s6 g6 hinv6 hframe6 => ?_
  have hkept6 := hkept2.trans (hkept3.trans (hframe5.2.trans hframe6.2))
  have hX6 : g6.own p = i ::ₘ X := by rw [hframe6.1, hframe5.1, hX3]
  refine ⟨g6.hold p X (g6.pin p),
    allowed_drop hinv6 hX6 (fun j hj => hpin j (hkept6.pin ▸ hj)), fun s7 g7 _ hframe7 => ?_⟩
  refine After.frame ?_ hframe7
  exact ⟨rfl, by simp [Ghost.hold], hkept6.trans (kept_hold rfl rfl)⟩

theorem safe_iunlockput {locked : List Nat} (hX : g.own p = i ::ₘ X) (hi : i ∈ held)
    (hsub : held.erase i ⊆ locked) (hpin : ∀ j, g.pin p = some j → j ∈ X) :
    treeOrder.Safe c p (iunlockput locked i) (fun _ => After p (held.erase i) X s g) held s g := by
  refine Rely.Safe.bind (safe_iunlock hinv hX hi) hinv ?_
  rintro _ held1 s1 g1 hinv1 ⟨rfl, hX1, hkept1⟩
  refine (safe_iput hinv1 hX1 hsub fun j hj => hpin j (hkept1.pin ▸ hj)).mono ?_
  intro _ held2 s2 g2 _ hafter
  exact After.trans ⟨rfl, hX1, hkept1⟩ hafter

theorem safe_iunlock_only (hX : g.own p = X) :
    treeOrder.Safe c p (iunlock i) (fun _ => After p [] X s g) [i] s g := by
  have hsafe := safe_iunlock (c := c) hinv hX (mem_singleton_self i)
  rwa [erase_cons_head] at hsafe

theorem safe_iunlockput_only (hX : g.own p = i ::ₘ X) (hpin : ∀ j, g.pin p = some j → j ∈ X) :
    treeOrder.Safe c p (iunlockput [] i) (fun _ => After p [] X s g) [i] s g := by
  have hsafe := safe_iunlockput (c := c) hinv hX (mem_singleton_self i)
    (by rw [erase_cons_head]; exact nil_subset []) hpin
  rwa [erase_cons_head] at hsafe

end Xv6.Fs
