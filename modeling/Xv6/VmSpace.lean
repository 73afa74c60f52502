import Xv6.Custody
import Xv6.Vm

/-!
**Address spaces.**

What a page directory means is read off the frames: `tableOf` is the page table behind an entry
of the directory and `lookup` the PTE of a virtual page, if it is present. A directory holds
frames: itself, its page tables and the frames its user pages are mapped to; what the kernel
half maps is not its own. In an address space (`Space`) all of these are different and none is
free.

The two ways to change one are to store a PTE in a page table that is there (`lookup_store`,
`own_store`) and to attach a new, empty page table (`lookup_attach`, `own_attach`).
-/

namespace Xv6.Vm

open Custody Function

/-! ### Entries -/

theorem present_iff {w : Nat} : Present w ↔ w % 2 = 1 := by
  rw [Present, PTE_P, Nat.and_one_is_mod]
  omega

theorem not_present_zero : ¬ Present 0 := by decide

theorem or_flags (f : Nat) {flags : Nat} (h : flags < PGSIZE) :
    f * PGSIZE ||| flags = f * PGSIZE + flags := by
  have heq := Nat.two_pow_add_eq_or_of_lt (i := 12) h f
  rw [Nat.mul_comm]
  exact heq.symm

theorem flags_or_lt {perm : Nat} (h : perm < PGSIZE) : perm ||| PTE_P < PGSIZE :=
  Nat.or_lt_two_pow (n := 12) h (by decide)

/-- The word `mappages` stores. -/
def entry (f perm : Nat) : Nat := f * PGSIZE ||| perm ||| PTE_P

section

variable {f perm : Nat} (h : perm < PGSIZE)

include h

theorem entry_eq : entry f perm = f * PGSIZE + (perm ||| PTE_P) := by
  rw [entry, Nat.or_assoc, or_flags f (flags_or_lt h)]

theorem entry_div : entry f perm / PGSIZE = f := by
  have hlt := flags_or_lt h
  rw [entry_eq h, Nat.mul_comm, Nat.mul_add_div (by decide), Nat.div_eq_of_lt hlt, Nat.add_zero]

theorem flags_entry : PTE_FLAGS (entry f perm) = perm ||| PTE_P := by
  have hlt := flags_or_lt h
  have hmask := Nat.and_two_pow_sub_one_eq_mod (entry f perm) 12
  refine hmask.trans ?_
  rw [entry_eq h]
  change (f * PGSIZE + (perm ||| PTE_P)) % PGSIZE = _
  rw [Nat.mul_add_mod_self_right, Nat.mod_eq_of_lt hlt]

omit h in
theorem present_entry : Present (entry f perm) := by
  rw [entry, Present, Nat.and_or_distrib_right]
  simp [PTE_P, Nat.or_eq_zero_iff]

end

theorem pde_eq (f : Nat) : f * PGSIZE ||| PTE_P ||| PTE_W ||| PTE_U = entry f (PTE_W ||| PTE_U) := by
  rw [entry, Nat.or_assoc, Nat.or_assoc, Nat.or_assoc]
  rfl

theorem addr_div (pte : Nat) : PTE_ADDR pte / PGSIZE = pte / PGSIZE := by
  rw [PTE_ADDR, Nat.mul_div_cancel _ (by decide)]

/-! ### What a directory maps -/

/-- How many pages a user may have. -/
def UPAGES : Nat := KERNBASE / PGSIZE

/-- The page table behind an entry of the directory. -/
def tableOf (s : Kmem) (pd i : Nat) : Option Nat :=
  if Present (s.page pd i) then some (s.page pd i / PGSIZE) else none

/-- The PTE of virtual page `v`; 0 when there is no page table for it. -/
def pteOf (s : Kmem) (pd v : Nat) : Nat :=
  match tableOf s pd (v / NPTENTRIES) with
  | some t => s.page t (v % NPTENTRIES)
  | none => 0

/-- The mapping of virtual page `v`. -/
def lookup (s : Kmem) (pd v : Nat) : Option Nat :=
  if Present (pteOf s pd v) then some (pteOf s pd v) else none

/-- What a page directory holds. -/
inductive Slot where
  | dir
  | table (i : Nat)
  | page (v : Nat)
deriving DecidableEq

/-- The frame in each place. -/
def own (s : Kmem) (pd : Nat) : Slot → Option Nat
  | .dir => some pd
  | .table i => if i < NPDENTRIES then tableOf s pd i else none
  | .page v => if v < UPAGES then (lookup s pd v).map (· / PGSIZE) else none

/-- The frames the allocator has been given, so that `kfree` takes them. -/
def Ram (k : Kernel) (f : Nat) : Prop := V2P k.kend ≤ f * PGSIZE ∧ f * PGSIZE < PHYSTOP

/-- The frame is free, or the directory holds it. -/
def Holds (s : Kmem) (pd f : Nat) : Prop := Accounted (own s pd) s.freelist f

structure Space (k : Kernel) (s : Kmem) (pd : Nat) : Prop where
  excl : Exclusive (own s pd) s.freelist
  ram : ∀ f, Holds s pd f → Ram k f

section

variable {k : Kernel} {s s' : Kmem} {pd v u t f i j w : Nat}

theorem div_lt_of_lt_maxpages (h : v < MAXPAGES) : v / NPTENTRIES < NPDENTRIES :=
  Nat.div_lt_of_lt_mul h

theorem upages_le_maxpages : UPAGES ≤ MAXPAGES := by decide

theorem lookup_eq_none_of_table (h : tableOf s pd (v / NPTENTRIES) = none) :
    lookup s pd v = none := by
  rw [lookup, pteOf, h]
  exact if_neg not_present_zero

theorem lookup_some (h : lookup s pd v = some w) :
    Present w ∧ ∃ t, tableOf s pd (v / NPTENTRIES) = some t ∧ s.page t (v % NPTENTRIES) = w := by
  rcases ht : tableOf s pd (v / NPTENTRIES) with _ | t
  · rw [lookup_eq_none_of_table ht] at h
    cases h
  rw [lookup, pteOf, ht] at h
  simp only at h
  split at h
  next hp =>
    cases h
    exact ⟨hp, t, rfl, rfl⟩
  · cases h

theorem lookup_of_table (ht : tableOf s pd (v / NPTENTRIES) = some t) :
    lookup s pd v =
      if Present (s.page t (v % NPTENTRIES)) then some (s.page t (v % NPTENTRIES)) else none := by
  rw [lookup, pteOf, ht]

theorem tableOf_congr (h : s'.page pd = s.page pd) : tableOf s' pd i = tableOf s pd i := by
  rw [tableOf, tableOf, h]

theorem lookup_congr (hpd : s'.page pd = s.page pd)
    (ht : ∀ t, tableOf s pd (v / NPTENTRIES) = some t → s'.page t = s.page t) :
    lookup s' pd v = lookup s pd v := by
  have htab := tableOf_congr (i := v / NPTENTRIES) hpd
  rcases htv : tableOf s pd (v / NPTENTRIES) with _ | t
  · rw [lookup_eq_none_of_table htv, lookup_eq_none_of_table (htab.trans htv)]
  · rw [lookup_of_table htv, lookup_of_table (htab.trans htv), ht t htv]

theorem own_congr (hpd : s'.page pd = s.page pd)
    (ht : ∀ i < NPDENTRIES, ∀ t, tableOf s pd i = some t → s'.page t = s.page t) :
    own s' pd = own s pd := by
  funext r
  cases r with
  | dir => rfl
  | table => rw [own, own, tableOf_congr hpd]
  | page v =>
    simp only [own]
    split
    next hv =>
      have hi := div_lt_of_lt_maxpages (hv.trans_le upages_le_maxpages)
      rw [lookup_congr hpd (ht _ hi)]
    · rfl

namespace Space

theorem own_dir : own s pd .dir = some pd := rfl

theorem own_table (hi : i < NPDENTRIES) : own s pd (.table i) = tableOf s pd i := if_pos hi

theorem own_page (hv : v < UPAGES) : own s pd (.page v) = (lookup s pd v).map (· / PGSIZE) :=
  if_pos hv

variable (h : Space k s pd)

include h

theorem table_ne_dir (hi : i < NPDENTRIES) (ht : tableOf s pd i = some t) : t ≠ pd := by
  rintro rfl
  have heq := h.excl.once .dir (.table i) t own_dir ((own_table hi).trans ht)
  cases heq

theorem table_inj (hi : i < NPDENTRIES) (hj : j < NPDENTRIES) (ht : tableOf s pd i = some t)
    (ht' : tableOf s pd j = some t) : i = j := by
  have heq := h.excl.once (.table i) (.table j) t ((own_table hi).trans ht) ((own_table hj).trans ht')
  cases heq
  rfl

theorem page_ne_dir (hv : v < UPAGES) (hw : lookup s pd v = some w) : w / PGSIZE ≠ pd := by
  intro heq
  have hown : own s pd (.page v) = some pd := by rw [own_page hv, hw, Option.map_some, heq]
  have hslot := h.excl.once .dir (.page v) pd own_dir hown
  cases hslot

theorem page_ne_table (hv : v < UPAGES) (hw : lookup s pd v = some w) (hi : i < NPDENTRIES)
    (ht : tableOf s pd i = some t) : w / PGSIZE ≠ t := by
  intro heq
  have hown : own s pd (.page v) = some t := by rw [own_page hv, hw, Option.map_some, heq]
  have hslot := h.excl.once (.table i) (.page v) t ((own_table hi).trans ht) hown
  cases hslot

theorem page_inj {w' : Nat} (hv : v < UPAGES) (hu : u < UPAGES) (hw : lookup s pd v = some w)
    (hw' : lookup s pd u = some w') (heq : w / PGSIZE = w' / PGSIZE) : v = u := by
  have hown : own s pd (.page v) = some (w / PGSIZE) := by rw [own_page hv, hw, Option.map_some]
  have hown' : own s pd (.page u) = some (w / PGSIZE) := by
    rw [own_page hu, hw', Option.map_some, heq]
  have hslot := h.excl.once (.page v) (.page u) _ hown hown'
  cases hslot
  rfl

omit h in
theorem holds_dir : Holds s pd pd := .ofOwn own_dir

omit h in
theorem holds_table (hi : i < NPDENTRIES) (ht : tableOf s pd i = some t) : Holds s pd t :=
  .ofOwn ((own_table hi).trans ht)

omit h in
theorem holds_page (hv : v < UPAGES) (hw : lookup s pd v = some w) : Holds s pd (w / PGSIZE) := by
  have hown : own s pd (.page v) = some (w / PGSIZE) := by rw [own_page hv, hw, Option.map_some]
  exact .ofOwn hown

end Space

/-! ### Storing a PTE -/

theorem store_page_of_ne (hne : f ≠ t) : (s.store t i w).page f = s.page f := by
  simp [Kmem.store, Kmem.fill, hne]

theorem store_page_self : (s.store t i w).page t = update (s.page t) i w := by
  simp [Kmem.store, Kmem.fill]

theorem tableOf_store (hne : pd ≠ t) : tableOf (s.store t i w) pd j = tableOf s pd j :=
  tableOf_congr (store_page_of_ne hne)

variable (h : Space k s pd) (hv : v < MAXPAGES) (ht : tableOf s pd (v / NPTENTRIES) = some t)

include h hv ht

theorem lookup_store_self :
    lookup (s.store t (v % NPTENTRIES) w) pd v = if Present w then some w else none := by
  have hne := (h.table_ne_dir (div_lt_of_lt_maxpages hv) ht).symm
  rw [lookup_of_table ((tableOf_store hne).trans ht), store_page_self, update_self]

theorem lookup_store_of_ne (hu : u < MAXPAGES) (huv : u ≠ v) :
    lookup (s.store t (v % NPTENTRIES) w) pd u = lookup s pd u := by
  have hne := (h.table_ne_dir (div_lt_of_lt_maxpages hv) ht).symm
  have htab := tableOf_store (s := s) (i := v % NPTENTRIES) (w := w) (j := u / NPTENTRIES) hne
  rcases htu : tableOf s pd (u / NPTENTRIES) with _ | t'
  · rw [lookup_eq_none_of_table htu, lookup_eq_none_of_table (htab.trans htu)]
  rw [lookup_of_table htu, lookup_of_table (htab.trans htu)]
  by_cases htt : t' = t
  · -- the same page table, so another entry of it
    subst htt
    have hdiv := h.table_inj (div_lt_of_lt_maxpages hu) (div_lt_of_lt_maxpages hv) htu ht
    have hmod : u % NPTENTRIES ≠ v % NPTENTRIES := by
      intro hmod
      apply huv
      rw [← Nat.div_add_mod u NPTENTRIES, ← Nat.div_add_mod v NPTENTRIES, hdiv, hmod]
    rw [store_page_self, update_of_ne hmod]
  · rw [store_page_of_ne htt]

theorem own_store :
    own (s.store t (v % NPTENTRIES) w) pd =
      if v < UPAGES then
        update (own s pd) (.page v) (if Present w then some (w / PGSIZE) else none)
      else own s pd := by
  have hne := (h.table_ne_dir (div_lt_of_lt_maxpages hv) ht).symm
  have hother : ∀ r, r ≠ .page v → own (s.store t (v % NPTENTRIES) w) pd r = own s pd r := by
    intro r hr
    cases r with
    | dir => rfl
    | table => rw [own, own, tableOf_store hne]
    | page u =>
      simp only [own]
      split
      next hu =>
        have huv : u ≠ v := fun heq => hr (heq ▸ rfl)
        rw [lookup_store_of_ne h hv ht (hu.trans_le upages_le_maxpages) huv]
      · rfl
  split
  next hvu =>
    funext r
    by_cases hr : r = .page v
    · rw [hr, update_self, Space.own_page hvu, lookup_store_self h hv ht]
      split
      · rfl
      · rfl
    · rw [update_of_ne hr, hother r hr]
  next hvu =>
    funext r
    by_cases hr : r = .page v
    · rw [hr, own, own, if_neg hvu, if_neg hvu]
    · exact hother r hr

end

/-! ### Attaching a page table -/

/-- A new, empty page table `f` behind entry `i` of the directory. -/
def attach (s : Kmem) (pd i f : Nat) : Kmem :=
  (s.fill f fun _ => 0).store pd i (f * PGSIZE ||| PTE_P ||| PTE_W ||| PTE_U)

variable {k : Kernel} {s : Kmem} {pd f i j u g : Nat}

theorem attach_page_of_ne (hg : g ≠ pd) (hgf : g ≠ f) : (attach s pd i f).page g = s.page g := by
  rw [attach, store_page_of_ne hg]
  simp [Kmem.fill, hgf]

theorem attach_page_new (hf : f ≠ pd) : (attach s pd i f).page f = fun _ => 0 := by
  rw [attach, store_page_of_ne hf]
  simp [Kmem.fill]

theorem tableOf_attach_self : tableOf (attach s pd i f) pd i = some f := by
  rw [tableOf, attach, store_page_self, update_self, pde_eq, if_pos present_entry,
    entry_div (by decide)]

theorem tableOf_attach_of_ne (hf : f ≠ pd) (hj : j ≠ i) :
    tableOf (attach s pd i f) pd j = tableOf s pd j := by
  rw [tableOf, tableOf, attach, store_page_self, update_of_ne hj]
  simp [Kmem.fill, hf.symm]

variable (h : Space k s pd) (hf : ¬ Holds s pd f) (hi : i < NPDENTRIES)
  (hnone : tableOf s pd i = none)

include h hf hi hnone

theorem lookup_attach (hu : u < MAXPAGES) : lookup (attach s pd i f) pd u = lookup s pd u := by
  have hfpd : f ≠ pd := fun heq => hf (heq ▸ Space.holds_dir)
  by_cases hui : u / NPTENTRIES = i
  · subst hui
    rw [lookup_eq_none_of_table hnone, lookup_of_table tableOf_attach_self, attach_page_new hfpd]
    exact if_neg not_present_zero
  have htab := tableOf_attach_of_ne (s := s) hfpd hui
  rcases htu : tableOf s pd (u / NPTENTRIES) with _ | t
  · rw [lookup_eq_none_of_table htu, lookup_eq_none_of_table (htab.trans htu)]
  have hlt := div_lt_of_lt_maxpages hu
  have htf : t ≠ f := fun heq => hf (heq ▸ Space.holds_table hlt htu)
  rw [lookup_of_table htu, lookup_of_table (htab.trans htu),
    attach_page_of_ne (h.table_ne_dir hlt htu) htf]

theorem own_attach : own (attach s pd i f) pd = update (own s pd) (.table i) (some f) := by
  have hfpd : f ≠ pd := fun heq => hf (heq ▸ Space.holds_dir)
  funext r
  cases r with
  | dir => rfl
  | table j =>
    by_cases hj : j = i
    · rw [hj, update_self, Space.own_table hi, tableOf_attach_self]
    · have hne : Slot.table j ≠ .table i := fun heq => hj (Slot.table.inj heq)
      rw [update_of_ne hne, own, own, tableOf_attach_of_ne hfpd hj]
  | page u =>
    rw [update_of_ne (by simp)]
    simp only [own]
    split
    next hu => rw [lookup_attach h hf hi hnone (hu.trans_le upages_le_maxpages)]
    · rfl

end Xv6.Vm
