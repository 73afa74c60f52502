import Mathlib.Order.Interval.Finset.Nat
import Xv6.Holders
import Xv6.LinkTree
import Xv6.SysFile

/-!
**The directory tree of a file system.**

`Inode.node` reads an inode as a node of `LinkTree`: a directory names the inodes of its entries
other than `.` and `..`, and has the inode of `..` above it. `Good` is the invariant of a
whole file system between, and inside, system calls that run one at a time:
the tree, the layout of directories, and the reference counts of the inode cache.

It serves two aims, `noDangling` and `exactLinks`; what differs is which directories that are no
longer in the tree may exist.
-/

namespace Xv6.Fs

open LinkTree Function List

/-! ### Inodes as nodes -/

theorem inum_ne_zero {i : Nat} (hpos : 0 < i) (hlt : i < 65536) : UInt16.ofNat i ≠ 0 := by
  intro heq
  have hval := congrArg UInt16.toNat heq
  rw [UInt16.toNat_ofNat', UInt16.toNat_zero] at hval
  omega

namespace Inode

/-- The inode number of `..`. -/
def par (d : Inode) : Nat := (d.entry 1).inum.toNat

def node (d : Inode) : Node Nat where
  used := d.type ≠ .free
  dir := d.type = .T_DIR
  out := d.out
  up := d.par
  links := d.nlink

/-- A directory starts with `.` and `..`, and the names after these are others. -/
structure Shaped (i : Nat) (d : Inode) : Prop where
  ents : ∃ up rest, d.ents = ⟨UInt16.ofNat i, dot⟩ :: ⟨up, dotdot⟩ :: rest ∧ up ≠ 0 ∧
    ∀ e ∈ rest, e.inum = 0 ∨ e.proper = true
  length : d.ents.length ≤ MAXENTS

variable {d : Inode} {i off : Nat} {e : Dirent} {name : Name}

@[simp] theorem node_used : d.node.used = true ↔ d.type ≠ .free := by simp [node]

@[simp] theorem node_dir : d.node.dir = true ↔ d.type = .T_DIR := by simp [node]

theorem countP_out (htype : d.type = .T_DIR) (p : Nat → Bool) :
    d.out.countP p = d.ents.countP fun e => p e.inum.toNat && e.proper := by
  rw [out, if_pos htype, countP_map, countP_filter]
  rfl

/-- **Writing one entry**: the old one's name goes, the new one's comes. -/
theorem countP_out_write (htype : d.type = .T_DIR) (hoff : off ≤ d.ents.length) (p : Nat → Bool) :
    (d.write off e).out.countP p +
        (if p (d.entry off).inum.toNat && (d.entry off).proper then 1 else 0) =
      d.out.countP p + if p e.inum.toNat && e.proper then 1 else 0 := by
  rw [countP_out (d := d.write off e) htype, countP_out htype]
  by_cases hlt : off < d.ents.length
  · have hentry : d.entry off = d.ents[off] := by rw [entry, getD_eq_getElem _ _ hlt]
    have hle := countP_pos_iff (l := d.ents) (p := fun e => p e.inum.toNat && e.proper)
    simp only [write, if_pos hlt, hentry]
    rw [countP_set hlt]
    by_cases hold : (p d.ents[off].inum.toNat && d.ents[off].proper) = true
    · have hpos : 0 < d.ents.countP fun e => p e.inum.toNat && e.proper :=
        hle.mpr ⟨_, getElem_mem hlt, hold⟩
      rw [if_pos hold]
      omega
    · rw [if_neg hold]
      omega
  · have hentry : d.entry off = Dirent.zero := by rw [entry, getD_eq_default _ _ (by omega)]
    have hzero : Dirent.zero.proper = false := by decide
    simp only [write, if_neg hlt, hentry, hzero, Bool.and_false]
    rw [countP_append, countP_singleton]
    rfl

theorem emptySlot_le : d.emptySlot ≤ d.ents.length := findIdx_le_length ..

theorem entry_emptySlot : (d.entry d.emptySlot).inum = 0 := by
  by_cases hlt : d.emptySlot < d.ents.length
  · rw [entry, getD_eq_getElem _ _ hlt]
    have hfound := ((findIdx_eq hlt).mp rfl).1
    simpa using hfound
  · rw [entry, getD_eq_default _ _ (by omega)]
    rfl

theorem oneMore_link (htype : d.type = .T_DIR) (he : e.proper = true) :
    Tree.OneMore e.inum.toNat d.node (d.write d.emptySlot e).node := by
  intro p
  have hcount := countP_out_write (e := e) htype emptySlot_le p
  have hempty : (d.entry d.emptySlot).proper = false := by simp [Dirent.proper, entry_emptySlot]
  simpa [node, hempty, he] using hcount

theorem oneMore_unlink (htype : d.type = .T_DIR) (hfound : d.lookup name = some off)
    (hdot : name ≠ dot) (hdotdot : name ≠ dotdot) :
    Tree.OneMore (d.entry off).inum.toNat (d.write off Dirent.zero).node d.node := by
  intro p
  obtain ⟨hlt, -⟩ := List.findIdx?_eq_some_iff_getElem.mp hfound
  obtain ⟨-, hlive, hname⟩ := lookup_eq_some hfound
  have hproper : (d.entry off).proper = true := by simp [Dirent.proper, hlive, hname, hdot, hdotdot]
  have hzero : Dirent.zero.proper = false := by decide
  have hcount := countP_out_write (e := Dirent.zero) htype hlt.le p
  simp only [hproper, hzero, Bool.and_true, Bool.and_false] at hcount
  exact hcount.symm

variable (h : d.Shaped i)
include h

theorem Shaped.two_le_emptySlot (hi : 0 < i) (hlt : i < 65536) : 2 ≤ d.emptySlot := by
  obtain ⟨up, rest, hents, hup, -⟩ := h.ents
  have hself := inum_ne_zero hi hlt
  simp [emptySlot, hents, findIdx_cons, hself, hup]

theorem Shaped.lookup_dots (hi : 0 < i) (hlt : i < 65536) (hname : name = dot ∨ name = dotdot) :
    d.lookup name ≠ none := by
  obtain ⟨up, rest, hents, hup, -⟩ := h.ents
  have hself := inum_ne_zero hi hlt
  rw [lookup, ne_eq, List.findIdx?_eq_none_iff, hents]
  intro hall
  rcases hname with rfl | rfl
  · have hfirst := hall _ (.head _ ..)
    simp [hself] at hfirst
  · have hsecond := hall _ (.tail _ (.head _ ..))
    simp [hup] at hsecond

theorem Shaped.write (hlo : 2 ≤ off) (hoff : off ≤ d.ents.length) (hmax : off < MAXENTS)
    (he : e.inum = 0 ∨ e.proper = true) :
    (d.write off e).Shaped i ∧ (d.write off e).par = d.par := by
  obtain ⟨up, rest, hents, hup, hrest⟩ := h.ents
  obtain ⟨k, rfl⟩ : ∃ k, off = k + 2 := ⟨off - 2, by omega⟩
  have hlen := h.length
  by_cases hlt : k + 2 < d.ents.length
  · have hwrite : (d.write (k + 2) e).ents =
        ⟨UInt16.ofNat i, dot⟩ :: ⟨up, dotdot⟩ :: rest.set k e := by
      simp only [Inode.write, if_pos hlt]
      rw [hents, set_cons_succ, set_cons_succ]
    refine ⟨⟨⟨up, _, hwrite, hup, ?_⟩, ?_⟩, ?_⟩
    · intro e' he'
      rcases mem_or_eq_of_mem_set he' with hold | rfl
      · exact hrest e' hold
      · exact he
    · simp only [Inode.write, if_pos hlt, length_set]
      exact hlen
    · simp [par, entry, hwrite, hents]
  · have hwrite : (d.write (k + 2) e).ents =
        ⟨UInt16.ofNat i, dot⟩ :: ⟨up, dotdot⟩ :: (rest ++ [e]) := by
      simp only [Inode.write, if_neg hlt]
      rw [hents, cons_append, cons_append]
    refine ⟨⟨⟨up, _, hwrite, hup, ?_⟩, ?_⟩, ?_⟩
    · intro e' he'
      rcases mem_append.mp he' with hold | hnew
      · exact hrest e' hold
      · rw [mem_singleton.mp hnew]
        exact he
    · simp only [Inode.write, if_neg hlt, length_append, length_singleton]
      omega
    · simp [par, entry, hwrite, hents]

theorem Shaped.live (htype : d.type = .T_DIR) (hmem : e ∈ d.ents) (hlive : e.inum ≠ 0) :
    e.inum = UInt16.ofNat i ∨ e.inum.toNat = d.par ∨ e.inum.toNat ∈ d.out := by
  obtain ⟨up, rest, hents, -, hrest⟩ := h.ents
  have hmem' := hmem
  rw [hents] at hmem'
  rcases mem_cons.mp hmem' with rfl | hmem'
  · exact .inl rfl
  rcases mem_cons.mp hmem' with rfl | hmem'
  · exact .inr (.inl (by simp [par, entry, hents]))
  · have hproper := (hrest e hmem').resolve_left hlive
    exact .inr (.inr (mem_out.mpr ⟨htype, e, hmem, hproper, rfl⟩))

theorem Shaped.out_eq_nil (hempty : isdirempty d = true) : d.out = [] := by
  obtain ⟨up, rest, hents, -, -⟩ := h.ents
  rw [eq_nil_iff_forall_not_mem]
  intro j hj
  obtain ⟨-, e, hmem, hproper, -⟩ := mem_out.mp hj
  simp only [Dirent.proper, decide_eq_true_eq] at hproper
  rw [hents] at hmem
  rcases mem_cons.mp hmem with rfl | hmem
  · exact hproper.2.1 rfl
  rcases mem_cons.mp hmem with rfl | hmem
  · exact hproper.2.2 rfl
  · simp only [isdirempty, hents, all_eq_true, decide_eq_true_eq] at hempty
    exact hproper.1 (hempty e hmem)

end Inode

/-! ### The invariant -/

inductive Aim where
  | noDangling
  | exactLinks
deriving DecidableEq

def table (s : State) : Nat → Node Nat := fun i => (s.inode i).node

def allocated (s : State) (i : Nat) : Prop := (s.inode i).type ≠ .free

def isDir (s : State) (i : Nat) : Prop := (s.inode i).type = .T_DIR

/-- **A good file system**, while a system call has the references `X` in hand. The tables
that hold the others are `k`; `pending` inodes are about to be put. -/
structure Good (m : Aim) (k : Kernel) (X : Multiset Nat) (owed : Nat → ℤ)
    (leaving pending : Nat → Prop) (s : State) : Prop where
  small : s.ninodes ≤ 65536
  tree : Tree ROOTINO (m = .exactLinks) (m = .noDangling) owed leaving (Finset.Ioo 0 s.ninodes)
    (table s)
  shape : ∀ d, isDir s d → (s.inode d).Shaped d
  short : ∀ i, allocated s i → (s.inode i).nlink ≤ 32767
  refs : ∀ i, (s.icache i).ref = holders k i + X.count i
  held : ∀ i, 0 < holders k i → allocated s i
  valid : ∀ i, (s.icache i).valid = true → allocated s i
  zero : ∀ i, allocated s i → (s.inode i).nlink = 0 →
    (s.icache i).valid = true ∧ (0 < holders k i ∨ pending i)

/-- Nothing is leaving, nothing about to be put. -/
abbrev Calm (m : Aim) (k : Kernel) (X : Multiset Nat) (owed : Nat → ℤ) (s : State) : Prop :=
  Good m k X owed (fun _ => False) (fun _ => False) s

structure Same (s s' : State) : Prop where
  inode : s'.inode = s.inode
  kernel : s'.kernel = s.kernel
  ninodes : s'.ninodes = s.ninodes

theorem Same.refl (s : State) : Same s s := ⟨rfl, rfl, rfl⟩

theorem Same.trans {s s' s'' : State} (h : Same s s') (h' : Same s' s'') : Same s s'' :=
  ⟨h'.inode.trans h.inode, h'.kernel.trans h.kernel, h'.ninodes.trans h.ninodes⟩

theorem Same.table_eq {s s' : State} (h : Same s s') : table s' = table s := by
  funext j
  simp only [table, h.inode]

@[simp] theorem setInode_self (s : State) (i : Nat) (d : Inode) : (s.setInode i d).inode i = d :=
  update_self ..

theorem setInode_of_ne (s : State) {i j : Nat} (d : Inode) (hj : j ≠ i) :
    (s.setInode i d).inode j = s.inode j := update_of_ne hj ..

@[simp] theorem setInode_setInode (s : State) (i : Nat) (d e : Inode) :
    (s.setInode i d).setInode i e = s.setInode i e := by
  simp [State.setInode]

theorem table_setInode (s : State) (i : Nat) (d : Inode) :
    table (s.setInode i d) = update (table s) i d.node := by
  funext j
  by_cases hj : j = i
  · subst hj; simp [table, State.setInode]
  · simp [table, State.setInode, hj]

variable {m : Aim} {k : Kernel} {X Y : Multiset Nat} {owed : Nat → ℤ}
  {leaving pending pending' : Nat → Prop} {s s' : State} {i d : Nat}

theorem Good.inside (h : Good m k X owed leaving pending s) (hi : allocated s i) :
    0 < i ∧ i < s.ninodes := by
  have hmem := h.tree.inside i (Inode.node_used.mpr hi)
  exact Finset.mem_Ioo.mp hmem

theorem Good.lt (h : Good m k X owed leaving pending s) (hi : allocated s i) : i < 65536 :=
  lt_of_lt_of_le (h.inside hi).2 h.small

theorem isDir.allocated (h : isDir s d) : allocated s d := by
  unfold Fs.allocated
  rw [h]
  simp

variable (h : Good m k X owed leaving pending s)
include h

theorem Good.links_ge (hi : Fs.allocated s i) :
    names (Finset.Ioo 0 s.ninodes) (table s) i + kids (table s) i + rootLink ROOTINO i + owed i ≤
      (s.inode i).nlink :=
  h.tree.links_ge i (Inode.node_used.mpr hi)

theorem Good.nlink_nonneg (hi : Fs.allocated s i) (howed : 0 ≤ owed i) : 0 ≤ (s.inode i).nlink := by
  have hge := h.links_ge hi
  have hnames : 0 ≤ names (Finset.Ioo 0 s.ninodes) (table s) i := names_nonneg
  have hkids : 0 ≤ kids (table s) i := kids_nonneg
  have hroot : 0 ≤ rootLink ROOTINO i := rootLink_nonneg
  omega

theorem Good.one_le_nlink (hi : i ∈ (s.inode d).out) (howed : 0 ≤ owed i) :
    1 ≤ (s.inode i).nlink := by
  have hused : Fs.allocated s i := Inode.node_used.mp (h.tree.out_used d i hi)
  have hge := h.links_ge hused
  have hnames := h.tree.one_le_names hi
  have hkids : 0 ≤ kids (table s) i := kids_nonneg
  have hroot : 0 ≤ rootLink ROOTINO i := rootLink_nonneg
  omega

theorem Good.nlink_eq_one (howed : owed i = 0) (hi : i ∈ (s.inode d).out) (hdir : isDir s i)
    (hempty : (s.inode i).out = []) : (s.inode i).nlink = 1 := by
  have hnode : (table s i).dir = true := Inode.node_dir.mpr hdir
  have heq : names (Finset.Ioo 0 s.ninodes) (table s) i + kids (table s) i +
      rootLink ROOTINO i + owed i = (s.inode i).nlink :=
    h.tree.links_eq i (h.tree.dir_used i hnode) (.inl hnode)
  have hge := h.tree.one_le_names hi
  have hle := h.tree.names_le_one hnode
  have hkids : kids (table s) i = 0 := by
    simp only [kids, table, Inode.node, hempty, countP_nil, Nat.cast_zero]
  have hne : i ≠ ROOTINO := by
    rintro rfl
    exact h.tree.root_out ⟨d, hi⟩
  have hroot : rootLink ROOTINO i = 0 := if_neg hne
  omega

theorem Good.recache (hsame : Same s s') (hrefs : ∀ i, (s'.icache i).ref = holders k i + Y.count i)
    (hvalid : ∀ i, (s'.icache i).valid = true → Fs.allocated s i)
    (hzero : ∀ i, Fs.allocated s i → (s.inode i).nlink = 0 → (s'.icache i).valid = true) :
    Good m k Y owed leaving pending s' := by
  have htable := hsame.table_eq
  obtain ⟨hinode, -, hninodes⟩ := hsame
  constructor
  · rw [hninodes]
    exact h.small
  · rw [hninodes, htable]
    exact h.tree
  · intro d
    rw [isDir, hinode]
    exact h.shape d
  · intro i
    rw [Fs.allocated, hinode]
    exact h.short i
  · exact hrefs
  · intro i hi
    rw [Fs.allocated, hinode]
    exact h.held i hi
  · intro i hi
    rw [Fs.allocated, hinode]
    exact hvalid i hi
  · intro i hi hnlink
    rw [Fs.allocated, hinode] at hi
    rw [hinode] at hnlink
    exact ⟨hzero i hi hnlink, (h.zero i hi hnlink).2⟩

theorem Good.mono {leaving' : Nat → Prop} (hleaving : ∀ d, leaving d → leaving' d)
    (hpending : ∀ d, pending d → pending' d) : Good m k X owed leaving' pending' s :=
  ⟨h.small, h.tree.mono hleaving, h.shape, h.short, h.refs, h.held, h.valid, fun i hi hnlink =>
    ⟨(h.zero i hi hnlink).1, (h.zero i hi hnlink).2.imp_right (hpending i)⟩⟩

theorem Good.rehold {k' : Kernel} (hrefs : ∀ i, holders k' i + Y.count i = holders k i + X.count i)
    (hheld : ∀ i, 0 < holders k' i → Fs.allocated s i)
    (hzero : ∀ i, 0 < holders k i ∨ pending i → 0 < holders k' i ∨ pending' i) :
    Good m k' Y owed leaving pending' s :=
  ⟨h.small, h.tree, h.shape, h.short, fun i => (h.refs i).trans (hrefs i).symm, hheld, h.valid,
    fun i hi hnlink => ⟨(h.zero i hi hnlink).1, hzero i (h.zero i hi hnlink).2⟩⟩

/-- **One inode is rewritten**, and stays of its type. -/
theorem Good.rewrite {owed' : Nat → ℤ} {leaving' : Nat → Prop} {a : Inode}
    (halloc : Fs.allocated s i) (htype : a.type = (s.inode i).type)
    (htree : Tree ROOTINO (m = .exactLinks) (m = .noDangling) owed' leaving'
      (Finset.Ioo 0 s.ninodes) (update (table s) i a.node)) (hshape : isDir s i → a.Shaped i)
    (hshort : a.nlink ≤ 32767) (hpending : ∀ j, pending j → pending' j)
    (hzero : a.nlink = 0 → (s.icache i).valid = true ∧ (0 < holders k i ∨ pending' i)) :
    Good m k X owed' leaving' pending' (s.setInode i a) := by
  have hself : (s.setInode i a).inode i = a := setInode_self ..
  have hother : ∀ j, j ≠ i → (s.setInode i a).inode j = s.inode j := fun _ => setInode_of_ne s a
  have hkind : ∀ j, ((s.setInode i a).inode j).type = (s.inode j).type := by
    intro j
    by_cases hj : j = i
    · rw [hj, hself, htype]
    · rw [hother j hj]
  constructor
  · exact h.small
  · rw [table_setInode]
    exact htree
  · intro d hd
    rw [isDir, hkind] at hd
    by_cases hdi : d = i
    · subst hdi
      rw [hself]
      exact hshape hd
    · rw [hother d hdi]
      exact h.shape d hd
  · intro j hj
    rw [Fs.allocated, hkind] at hj
    by_cases hji : j = i
    · subst hji
      rw [hself]
      exact hshort
    · rw [hother j hji]
      exact h.short j hj
  · exact h.refs
  · intro j hj
    rw [Fs.allocated, hkind]
    exact h.held j hj
  · intro j hj
    rw [Fs.allocated, hkind]
    exact h.valid j hj
  · intro j hj hnlink
    rw [Fs.allocated, hkind] at hj
    by_cases hji : j = i
    · subst hji
      rw [hself] at hnlink
      exact hzero hnlink
    · rw [hother j hji] at hnlink
      obtain ⟨hvalid, hcase⟩ := h.zero j hj hnlink
      exact ⟨hvalid, hcase.imp_right (hpending j)⟩

/-- **A link count is changed**, and what is owed with it. -/
theorem Good.relink {owed' : Nat → ℤ} {n : ℤ} (halloc : Fs.allocated s i)
    (howed : owed' = update owed i (owed i + (n - (s.inode i).nlink))) (hshort : n ≤ 32767)
    (hpending : ∀ j, pending j → pending' j)
    (hzero : n = 0 → (s.icache i).valid = true ∧ (0 < holders k i ∨ pending' i)) :
    Good m k X owed' leaving pending' (s.setInode i { s.inode i with nlink := n }) := by
  refine h.rewrite halloc rfl (h.tree.recount ?_ ?_) ?_ hshort hpending hzero
  · intro j
    by_cases hj : j = i
    · subst hj
      simp only [update_self]
      exact ⟨rfl, rfl, rfl, rfl⟩
    · simp [update_of_ne hj]
  · intro j
    by_cases hj : j = i
    · subst hj
      simp only [howed, update_self, Inode.node, table]
      omega
    · simp only [howed, update_of_ne hj]
  · intro hdir
    obtain ⟨hents, hlength⟩ := h.shape i hdir
    exact ⟨hents, hlength⟩

end Xv6.Fs
