import Mathlib.Data.List.TakeWhile
import Xv6.FsTreeCalls

/-!
**A path leads where its components lead.**

`comps` cuts a path at the slashes, and `child` is one lookup. On a file system whose
directories name allocated inodes, with two free slots in the inode cache, `namei` ends
in the fold of `child` over the components and `nameiparent` in the directory before the
last one. The proof follows the references of the walk: at any time it has at most two
inodes in hand (`Walking`), and what it gives back has other references or links.
With no free slot, `iget` panics.
-/

namespace Xv6.Fs

open Program Function List

/-! ### Components -/

/-- The maximal slash-free segments of a path, cut to `DIRSIZ` bytes. -/
def comps (path : Path) : List Name :=
  ((path.splitOn SLASH).filter (· ≠ [])).map Name.ofBytes

theorem comps_append (a b : Path) : comps (a ++ SLASH :: b) = comps a ++ comps b := by
  simp [comps, splitOn_append_cons_self]

@[simp] theorem comps_nil : comps [] = [] := rfl

theorem comps_slash (path : Path) : comps (SLASH :: path) = comps path :=
  comps_append [] path

theorem comps_dropWhile (path : Path) : comps (path.dropWhile (· == SLASH)) = comps path := by
  induction path with
  | nil => rfl
  | cons c path ih =>
    by_cases hc : c = SLASH
    · rw [hc, comps_slash, dropWhile_cons_of_pos (by simp), ih]
    · rw [dropWhile_cons_of_neg (by simpa using hc)]

theorem comps_segment {w : Path} (hw : w ≠ []) (hfree : ∀ c ∈ w, (c == SLASH) = false) :
    comps w = [Name.ofBytes w] := by
  rw [comps, List.splitOn, splitOnP_eq_singleton hfree]
  simp [hw]

theorem comps_skip {c : UInt8} {cs : Path} (hc : c ≠ SLASH) :
    comps (c :: cs) = Name.ofBytes ((c :: cs).takeWhile (· != SLASH)) ::
      comps ((c :: cs).dropWhile (· != SLASH)) := by
  have hw : (c :: cs).takeWhile (· != SLASH) ≠ [] := by simp [hc]
  have hfree : ∀ d ∈ (c :: cs).takeWhile (· != SLASH), (d == SLASH) = false := by
    intro d hd
    simpa using mem_takeWhile_imp hd
  have hsplit := takeWhile_append_dropWhile (p := (· != SLASH)) (l := c :: cs)
  generalize (c :: cs).takeWhile (· != SLASH) = w at *
  rcases hr : (c :: cs).dropWhile (· != SLASH) with _ | ⟨d, r⟩
  · rw [hr, append_nil] at hsplit
    rw [← hsplit, comps_segment hw hfree, comps_nil]
  have hd : d = SLASH := by simpa [hr] using List.head?_dropWhile_not (· != SLASH) (c :: cs)
  subst hd
  rw [hr] at hsplit
  rw [← hsplit, comps_append, comps_segment hw hfree]
  rfl

theorem elementsLoop_eq : ∀ (n : Nat) (path : Path), path.length ≤ n →
    elementsLoop n path = comps path := by
  intro n
  induction n with
  | zero =>
    intro path hlen
    rw [eq_nil_of_length_eq_zero (Nat.le_zero.mp hlen)]
    rfl
  | succ n ih =>
    intro path hlen
    rw [← comps_dropWhile path, elementsLoop, skipelem]
    have hshort := (dropWhile_suffix (· == SLASH) (l := path)).length_le
    rcases hpath : path.dropWhile (· == SLASH) with _ | ⟨c, cs⟩
    · rfl
    have hc : c ≠ SLASH := by simpa [hpath] using List.head?_dropWhile_not (· == SLASH) path
    rw [hpath] at hshort
    rw [comps_skip hc, ← comps_dropWhile (List.dropWhile _ _)]
    refine congrArg _ (ih _ ?_)
    have hrest := (dropWhile_suffix (· != SLASH) (l := cs)).length_le
    rw [dropWhile_cons_of_pos (by simpa using hc)]
    have hlast := (dropWhile_suffix (· == SLASH)
      (l := cs.dropWhile (· != SLASH))).length_le
    simp only [length_cons] at hshort
    omega

theorem elements_eq_comps (path : Path) : elements path = comps path :=
  elementsLoop_eq _ _ le_rfl

/-! ### Lookups in order -/

/-- One lookup: the inode a directory has under a name. -/
def child (t : Nat → Inode) (i : Nat) (name : Name) : Option Nat :=
  if (t i).type = .T_DIR then
    ((t i).lookup name).map fun off => ((t i).entry off).inum.toNat
  else none

/-- The directory all components but the last lead to, and the last one. -/
def parentOf (t : Nat → Inode) (names : List Name) (ip : Nat) : Option (Nat × Name) :=
  match names.getLast? with
  | none => none
  | some name => (names.dropLast.foldlM (child t) ip).bind fun dp =>
      if (t dp).type = .T_DIR then some (dp, name) else none

theorem resolve_eq_foldlM (t : Nat → Inode) (names : List Name) (ip : Nat) :
    (resolve t false names ip).map Prod.fst = names.foldlM (child t) ip := by
  induction names generalizing ip with
  | nil => rfl
  | cons name rest ih =>
    rw [foldlM_cons, resolve, child]
    by_cases hdir : (t ip).type = .T_DIR
    · rcases hfound : (t ip).lookup name with _ | off
      · simp [hdir]
      · simp [hdir, ih]
    · simp [hdir]

theorem resolve_eq_parentOf (t : Nat → Inode) (names : List Name) (ip : Nat) :
    resolve t true names ip = parentOf t names ip := by
  induction names generalizing ip with
  | nil => rfl
  | cons name rest ih =>
    rcases rest with _ | ⟨next, rest⟩
    · by_cases hdir : (t ip).type = .T_DIR
      · simp [resolve, parentOf]
      · simp [resolve, parentOf]
    have hlast := List.getLast?_eq_some_getLast (cons_ne_nil next rest)
    rw [resolve, parentOf, List.getLast?_cons_cons, dropLast_cons_cons, foldlM_cons, hlast, child]
    by_cases hdir : (t ip).type = .T_DIR
    · rcases hfound : (t ip).lookup name with _ | off
      · simp [hdir]
      · simp [hdir, ih, parentOf, hlast]
    · simp [hdir]

/-- The last step of `namei` is a lookup in the parent. -/
theorem foldlM_eq_bind_parentOf (t : Nat → Inode) {names : List Name} (h : names ≠ []) (ip : Nat) :
    names.foldlM (child t) ip = (parentOf t names ip).bind fun r => child t r.1 r.2 := by
  have hlast := List.getLast?_eq_some_getLast h
  conv_lhs => rw [← dropLast_concat_getLast h, foldlM_append]
  rw [parentOf, hlast]
  rcases names.dropLast.foldlM (child t) ip with _ | dp
  · rfl
  · by_cases hdir : (t dp).type = .T_DIR
    · simp [hdir]
    · simp [hdir, child]

/-! ### The walk -/

/-- Lookups from the root and from any `cwd` stay on allocated inodes, and an inode without
links is one that somebody refers to. -/
structure Walkable (s : State) : Prop where
  root : allocated s ROOTINO
  entry : ∀ d, isDir s d → ∀ e ∈ (s.inode d).ents, e.inum ≠ 0 → allocated s e.inum.toNat
  refs : ∀ i, 0 ≤ (s.icache i).ref
  open_ : ∀ i, allocated s i → (s.inode i).nlink = 0 → 0 < (s.icache i).ref
  cwd : ∀ p i, (s.kernel.ptable p).cwd = some i → allocated s i ∧ 0 < (s.icache i).ref

/-- The cache slots these references take that were not in use. -/
def newSlots (s0 : State) (X : Multiset Nat) : Nat :=
  (X.toFinset.filter fun i => (s0.icache i).ref = 0).card

/-- In the middle of a lookup that began in `s0`, with the inodes `X` in hand. -/
structure Walking (s0 : State) (X : Multiset Nat) (s : State) : Prop where
  same : Same s0 s
  refs : ∀ i, (s.icache i).ref = (s0.icache i).ref + X.count i
  slots : s.inuse = s0.inuse + newSlots s0 X

section

variable {s0 s : State} {X : Multiset Nat} {i : Nat} {held : List Nat}

theorem newSlots_le (s0 : State) (X : Multiset Nat) : newSlots s0 X ≤ X.card :=
  (Finset.card_filter_le _ _).trans X.toFinset_card_le

theorem newSlots_cons_of_pos (h : 0 < (s0.icache i).ref + X.count i) :
    newSlots s0 (i ::ₘ X) = newSlots s0 X := by
  unfold newSlots
  rw [Multiset.toFinset_cons, Finset.filter_insert]
  split
  next hzero =>
    have hmem : i ∈ X := Multiset.count_pos.mp (by omega)
    rw [Finset.insert_eq_of_mem (by simp [hmem, hzero])]
  · rfl

theorem newSlots_cons_of_zero (hzero : (s0.icache i).ref = 0) (hX : i ∉ X) :
    newSlots s0 (i ::ₘ X) = newSlots s0 X + 1 := by
  unfold newSlots
  rw [Multiset.toFinset_cons, Finset.filter_insert, if_pos hzero,
    Finset.card_insert_of_notMem (by simp [hX])]

theorem Walking.refl (s : State) : Walking s 0 s := by
  refine ⟨.refl s, fun i => ?_, ?_⟩
  · rw [Multiset.count_zero, Nat.cast_zero, add_zero]
  · simp [newSlots]

theorem Walking.update_refs (h : Walking s0 X s) {Y : Multiset Nat} {c : Incore}
    (hi : c.ref = (s0.icache i).ref + Y.count i) (hne : ∀ j, j ≠ i → Y.count j = X.count j)
    (j : Nat) : (update s.icache i c j).ref = (s0.icache j).ref + Y.count j := by
  by_cases hj : j = i
  · subst hj
    rw [update_self, hi]
  · rw [update_of_ne hj, hne j hj]
    exact h.refs j

theorem Walking.ref_cons (h : Walking s0 X s) :
    (s.icache i).ref + 1 = (s0.icache i).ref + (i ::ₘ X).count i := by
  have hrefs := h.refs i
  rw [Multiset.count_cons_self]
  omega

theorem Walking.addRef (h : Walking s0 X s) (hpos : 0 < (s.icache i).ref) :
    Walking s0 (i ::ₘ X) (s.setCache i { s.icache i with ref := (s.icache i).ref + 1 }) := by
  refine ⟨h.same.trans ⟨rfl, rfl, rfl⟩, ?_, ?_⟩
  · exact h.update_refs h.ref_cons fun j hj => Multiset.count_cons_of_ne hj X
  · rw [h.refs i] at hpos
    rw [newSlots_cons_of_pos hpos]
    exact h.slots

variable {Q : Unit → List Nat → State → Prop}

theorem Walking.ends_iget (h : Walking s0 X s) (h0 : Walkable s0)
    (hroom : s0.inuse + X.card < NINODE) (hQ : ∀ s', Walking s0 (i ::ₘ X) s' → Q () held s') :
    Ends (iget i) Q held s := by
  have hslots := h.slots
  have hle := newSlots_le s0 X
  by_cases hpos : 0 < (s.icache i).ref
  · exact ends_atomic (if_pos hpos) (hQ _ (h.addRef hpos))
  -- a new slot
  have hrefs := h.refs i
  have hnonneg := h0.refs i
  refine ends_atomic ((if_neg hpos).trans (if_pos (by omega))) (hQ _ ⟨?_, ?_, ?_⟩)
  · exact h.same.trans ⟨rfl, rfl, rfl⟩
  · refine h.update_refs ?_ fun j hj => Multiset.count_cons_of_ne hj X
    rw [← h.ref_cons]
    change (1 : Int) = _
    omega
  · rw [newSlots_cons_of_zero (by omega) (Multiset.count_eq_zero.mp (by omega))]
    change s.inuse + 1 = _
    omega

theorem Walking.counted (h : Walking s0 X s) (h0 : Walkable s0) (hX : i ∈ X) :
    ¬ (s.icache i).ref < 1 := by
  have hpos : 0 < X.count i := Multiset.count_pos.mpr hX
  have hrefs := h.refs i
  have hnonneg := h0.refs i
  omega

theorem Walking.ends_ilock (h : Walking s0 X s) (h0 : Walkable s0) (hX : i ∈ X)
    (halloc : allocated s0 i) (hlock : i ∉ held)
    (hQ : ∀ s', Walking s0 X s' → Q () (i :: held) s') : Ends (ilock i) Q held s := by
  refine ends_bind.mpr ?_
  simp only [ends_reads]
  rw [if_neg (h.counted h0 hX)]
  refine ends_bind.mpr (ends_acquire.mpr ⟨hlock, ?_⟩)
  by_cases hvalid : (s.icache i).valid = true
  · exact ends_atomic (if_pos hvalid) (hQ s h)
  have hfree : (s.inode i).type ≠ .free := by
    rw [h.same.inode]
    exact halloc
  refine ends_atomic ((if_neg hvalid).trans (if_neg hfree)) (hQ _ ?_)
  exact ⟨h.same.trans ⟨rfl, rfl, rfl⟩, h.update_refs (h.refs i) fun _ _ => rfl, h.slots⟩

theorem Walking.ends_iunlock (h : Walking s0 X s) (h0 : Walkable s0) (hX : i ∈ X)
    (hQ : Q () (held.erase i) s) : Ends (iunlock i) Q held s := by
  refine ends_bind.mpr ?_
  simp only [ends_reads]
  rw [if_neg (h.counted h0 hX)]
  exact hQ

/-- **Putting back** what the walk took: it is not the last reference to an inode without
links, so nothing is freed. -/
theorem Walking.ends_iput {locked : List Nat} (h : Walking s0 (i ::ₘ X) s) (h0 : Walkable s0)
    (halloc : allocated s0 i) (hlock : i ∉ held) (hQ : ∀ s', Walking s0 X s' → Q () held s') :
    Ends (iput locked i) Q held s := by
  have hrefs := h.refs i
  have hnonneg := h0.refs i
  rw [Multiset.count_cons_self] at hrefs
  refine ends_bind.mpr (ends_acquire.mpr ⟨hlock, ends_bind.mpr (ends_bind.mpr ?_)⟩)
  have hlast : ¬ unreferenced s i = true := by
    intro hlast
    obtain ⟨-, hnlink, href⟩ := unreferenced_eq_true.mp hlast
    rw [h.same.inode] at hnlink
    have hpos := h0.open_ i halloc hnlink
    omega
  simp only [ends_reads]
  rw [onlyIf, if_neg hlast]
  refine ends_bind.mpr ?_
  change Q () ((i :: held).erase i) (s.drop i)
  rw [erase_cons_head]
  apply hQ
  refine ⟨h.same.trans ⟨rfl, rfl, rfl⟩, ?_, ?_⟩
  · refine h.update_refs ?_ fun j hj => (Multiset.count_cons_of_ne hj X).symm
    change (s.icache i).ref - 1 = _
    omega
  have hslots := h.slots
  change (if (s.icache i).ref = 1 then s.inuse - 1 else s.inuse) = _
  split
  · rw [newSlots_cons_of_zero (by omega) (Multiset.count_eq_zero.mp (by omega))] at hslots
    omega
  · rw [newSlots_cons_of_pos (by omega)] at hslots
    exact hslots

theorem Walking.ends_iunlockput {locked : List Nat} (h : Walking s0 (i ::ₘ X) s)
    (h0 : Walkable s0) (halloc : allocated s0 i) (hlock : i ∉ held)
    (hQ : ∀ s', Walking s0 X s' → Q () held s') :
    Ends (iunlockput locked i) Q (i :: held) s := by
  refine ends_bind.mpr (h.ends_iunlock h0 (Multiset.mem_cons_self i X) ?_)
  rw [erase_cons_head]
  exact h.ends_iput h0 halloc hlock hQ

theorem Walking.ends_dirlookup {dp : Nat} {name : Name}
    {Q : Option (Nat × Nat) → List Nat → State → Prop} (h : Walking s0 X s) (h0 : Walkable s0)
    (hroom : s0.inuse + X.card < NINODE) (hdir : isDir s0 dp)
    (hnone : (s0.inode dp).lookup name = none → Q none held s)
    (hsome : ∀ off s', (s0.inode dp).lookup name = some off →
      Walking s0 (((s0.inode dp).entry off).inum.toNat ::ₘ X) s' →
      Q (some (((s0.inode dp).entry off).inum.toNat, off)) held s') :
    Ends (dirlookup dp name) Q held s := by
  refine ends_bind.mpr ?_
  simp only [ends_reads, h.same.inode]
  have htype : ¬ (s0.inode dp).type ≠ .T_DIR := not_not.mpr hdir
  rw [if_neg htype]
  rcases hfound : (s0.inode dp).lookup name with _ | off
  · exact hnone hfound
  · exact ends_bind.mpr (h.ends_iget h0 hroom fun s' h' => hsome off s' hfound h')

end

/-- **`namex`'s loop ends in what `resolve` says**, with the answer in hand. By induction on
the elements to go; the inode in hand is allocated. -/
theorem ends_walk {s0 : State} (h0 : Walkable s0) (hroom : s0.inuse + 2 ≤ NINODE)
    (parent : Bool) : ∀ (names : List Name) {ip : Nat} {s : State}, Walking s0 {ip} s →
    allocated s0 ip → Ends (walk parent names ip)
      (fun r _ s' => r = resolve s0.inode parent names ip ∧ Walking s0 (inHand 0 r) s') [] s := by
  intro names
  induction names with
  | nil =>
    intro ip s h halloc
    unfold walk
    split
    next hparent =>
      refine ends_bind.mpr (h.ends_iput h0 halloc not_mem_nil fun s1 h1 => ?_)
      exact ⟨by simp [resolve, hparent], h1⟩
    next hparent => exact ⟨by simp [resolve, hparent], h⟩
  | cons name rest ih =>
    intro ip s h halloc
    have hX := Multiset.mem_singleton_self ip
    refine ends_bind.mpr (h.ends_ilock h0 hX halloc not_mem_nil fun s1 h1 => ?_)
    have hput : ∀ {X : Multiset Nat} {s' : State} {Q : Unit → List Nat → State → Prop},
        Walking s0 (ip ::ₘ X) s' → (∀ s2, Walking s0 X s2 → Q () [] s2) →
        Ends (iunlockput [] ip) Q [ip] s' :=
      fun h' => h'.ends_iunlockput h0 halloc not_mem_nil
    refine ends_bind.mpr ?_
    simp only [ends_reads, h1.same.inode]
    split
    next htype =>
      refine ends_bind.mpr (hput h1 fun s2 h2 => ?_)
      exact ⟨by simp [resolve, htype], h2⟩
    rename_i htype
    have hdir : (s0.inode ip).type = .T_DIR := not_not.mp htype
    split
    next hlast =>
      refine ends_bind.mpr (h1.ends_iunlock h0 hX ?_)
      exact ⟨by simp [resolve, hdir, hlast], h1⟩
    rename_i hlast
    refine ends_bind.mpr (h1.ends_dirlookup h0 (Nat.lt_of_succ_le hroom) hdir ?_ ?_)
    · intro hfound
      refine ends_bind.mpr (hput h1 fun s2 h2 => ?_)
      exact ⟨by simp [resolve, hlast, hfound], h2⟩
    intro off s2 hfound h2
    obtain ⟨hmem, hlive, -⟩ := Inode.lookup_eq_some hfound
    rw [← Multiset.cons_zero, Multiset.cons_swap] at h2
    refine ends_bind.mpr (hput h2 fun s3 h3 => ?_)
    refine (ih h3 (h0.entry ip hdir _ hmem hlive)).mono ?_
    rintro r _ s4 ⟨hr, h4⟩
    exact ⟨by simp [hr, resolve, hdir, hlast, hfound], h4⟩

section

variable {s : State} {p : Fin NPROC} {cwd : Nat}

/-- Only `ip` has a reference more. -/
def OneMore (s s' : State) (ip : Option Nat) : Prop :=
  Same s s' ∧ ∀ i, (s'.icache i).ref = (s.icache i).ref + if ip = some i then 1 else 0

theorem Walking.oneMore {s' : State} {r : Option (Nat × Name)}
    (h : Walking s (inHand 0 r) s') : OneMore s s' (r.map Prod.fst) := by
  refine ⟨h.same, fun i => ?_⟩
  rw [h.refs i]
  rcases r with _ | ⟨ip, name⟩
  · simp [inHand]
  · simp [inHand, Multiset.count_singleton, eq_comm]

def origin (path : Path) (cwd : Nat) : Nat := if path.head? = some SLASH then ROOTINO else cwd

theorem ends_namex (h : Walkable s) (hroom : s.inuse + 2 ≤ NINODE)
    (hcwd : (s.kernel.ptable p).cwd = some cwd) (parent : Bool) (path : Path) :
    Ends (namex p parent path) (fun r _ s' =>
      r = resolve s.inode parent (comps path) (origin path cwd) ∧ Walking s (inHand 0 r) s')
      [] s := by
  have h0 := Walking.refl s
  refine ends_bind.mpr ?_
  rw [elements_eq_comps, start, origin]
  split
  · refine ends_bind.mpr (h0.ends_iget h (by simp; omega) fun s1 h1 => ?_)
    exact ends_walk h hroom parent _ h1 h.root
  refine ends_bind.mpr ?_
  simp only [ends_reads]
  rw [hcwd]
  obtain ⟨halloc, hpos⟩ := h.cwd p cwd hcwd
  exact ends_bind.mpr (ends_walk h hroom parent _ (h0.addRef hpos) halloc)

/-- **Path lookup follows the components**, with two free slots in the inode cache. `namei`
looks them up in order, `nameiparent` all but the last, and `namei` is a lookup in what
`nameiparent` returns; only the inode returned has a reference more. A slash more at the
beginning, inside or at the end of a path gives no component more. -/
theorem lookup_follows_components (h : Walkable s) (hroom : s.inuse + 2 ≤ NINODE)
    (hcwd : (s.kernel.ptable p).cwd = some cwd) (path : Path) :
    (∃ s', exec (namei p path) [] s =
        .done ((comps path).foldlM (child s.inode) (origin path cwd)) s' ∧
      OneMore s s' ((comps path).foldlM (child s.inode) (origin path cwd))) ∧
    (∃ s', exec (nameiparent p path) [] s =
        .done (parentOf s.inode (comps path) (origin path cwd)) s' ∧
      OneMore s s' ((parentOf s.inode (comps path) (origin path cwd)).map Prod.fst)) ∧
    (comps path ≠ [] → (comps path).foldlM (child s.inode) (origin path cwd) =
      (parentOf s.inode (comps path) (origin path cwd)).bind fun r => child s.inode r.1 r.2) ∧
    (∀ dp name held, isDir s dp → ∃ r s', exec (dirlookup dp name) held s = .done r s' ∧
      r.map Prod.fst = child s.inode dp name) ∧
    ∀ a b, comps (a ++ SLASH :: b) = comps a ++ comps b := by
  refine ⟨?_, ?_, ?_, ?_, comps_append⟩
  · have hends : Ends (namei p path) (fun r _ s' =>
        r = (comps path).foldlM (child s.inode) (origin path cwd) ∧ OneMore s s' r) [] s := by
      refine ends_bind.mpr ((ends_namex h hroom hcwd false path).mono ?_)
      rintro r _ s' ⟨rfl, hwalk⟩
      exact ⟨resolve_eq_foldlM .., hwalk.oneMore⟩
    obtain ⟨r, _, s', hexec, rfl, hmore⟩ := hends.exec_done
    exact ⟨s', hexec, hmore⟩
  · obtain ⟨r, _, s', hexec, rfl, hwalk⟩ := (ends_namex h hroom hcwd true path).exec_done
    rw [resolve_eq_parentOf] at hexec hwalk
    exact ⟨s', hexec, hwalk.oneMore⟩
  · exact fun hne => foldlM_eq_bind_parentOf s.inode hne _
  · intro dp name held hdir
    have hends : Ends (dirlookup dp name) (fun r _ _ =>
        r.map Prod.fst = child s.inode dp name) held s := by
      refine (Walking.refl s).ends_dirlookup h (by simp; omega) hdir ?_ ?_
      · intro hfound
        simp [child, hfound]
      · intro off s' hfound _
        have htype : (s.inode dp).type = .T_DIR := hdir
        simp [child, htype, hfound]
    obtain ⟨r, _, s', hexec, hr⟩ := hends.exec_done
    exact ⟨r, s', hexec, hr⟩

end

/-! ### A full cache -/

/-- `/a` is a file; the processes 1 to `n - 1` are each in a directory of their own that has
been removed, the others in the root. -/
def crowded (n : Nat) : State where
  kernel := { booted with
    ptable q := { booted.ptable 0 with
      cwd := some (if 0 < q.val ∧ q.val < n then q.val + 2 else ROOTINO) } }
  ninodes := 200
  inode i :=
    match i with
    | 1 => { type := .T_DIR, major := 0, minor := 0, nlink := 1,
             ents := [⟨1, dot⟩, ⟨1, dotdot⟩, ⟨2, Name.ofBytes [97]⟩] }
    | 2 => { type := .T_FILE, major := 0, minor := 0, nlink := 1, ents := [] }
    | i + 3 => { type := if i + 1 < n then .T_DIR else .free, major := 0, minor := 0, nlink := 0,
                 ents := [] }
    | 0 => { type := .free, major := 0, minor := 0, nlink := 0, ents := [] }
  icache i :=
    match i with
    | 1 => ⟨NPROC - (n - 1), true⟩
    | i + 3 => if i + 1 < n then ⟨1, true⟩ else ⟨0, false⟩
    | _ => ⟨0, false⟩
  inuse := n

theorem walkable_crowded {n : Nat} (hn : n ≤ NPROC) : Walkable (crowded n) where
  root := nofun
  entry := by
    intro d hd e he hlive
    match d with
    | 1 =>
      simp only [crowded, mem_cons, not_mem_nil, or_false] at he
      rcases he with rfl | rfl | rfl
      all_goals exact nofun
    | 0 | 2 | d + 3 => cases he
  refs := by
    intro i
    match i with
    | 0 | 2 => exact le_rfl
    | 1 =>
      change (0 : Int) ≤ NPROC - (n - 1)
      omega
    | i + 3 =>
      simp only [crowded]
      split <;> decide
  open_ := by
    intro i hi hnlink
    match i with
    | 0 => exact absurd rfl hi
    | 1 | 2 => cases hnlink
    | i + 3 =>
      by_cases hin : i + 1 < n
      · simp [crowded, hin]
      · simp [allocated, crowded, hin] at hi
  cwd := by
    rintro q i hq
    cases hq
    split
    next hin =>
      obtain ⟨k, hk⟩ : ∃ k, q.val = k + 1 := ⟨q.val - 1, by omega⟩
      simp only [hk] at hin ⊢
      simp [allocated, crowded, hin.2]
    · refine ⟨nofun, ?_⟩
      change (0 : Int) < NPROC - (n - 1)
      omega

/-- `/a/` in an otherwise idle system. -/
theorem lookup_follows_components_crowded :
    ∃ s', exec (namei 0 [SLASH, 97, SLASH]) [] (crowded 1) = .done (some 2) s' :=
  (lookup_follows_components (walkable_crowded (by decide)) (by decide) rfl
    [SLASH, 97, SLASH]).1.imp fun _ hs => hs.1

/-- **With every slot of the cache in use** a lookup of a file that is there panics. -/
theorem namei_panics_when_full : Walkable (crowded NINODE) ∧
    (comps [SLASH, 97]).foldlM (child (crowded NINODE).inode) ROOTINO = some 2 ∧
    exec (namei 0 [SLASH, 97]) [] (crowded NINODE) = .panic "iget: no inodes" :=
  ⟨walkable_crowded (by decide), by decide +kernel, Outcome.isPanic_iff.mp (by decide +kernel)⟩

end Xv6.Fs
