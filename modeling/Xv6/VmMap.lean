import Xv6.VmSpace

/-!
**Mapping and unmapping pages**: what `kalloc`, `kfree`, `walkpgdir`, `mappages` and
`deallocuvm` do to an address space.

Each of them changes the mapping of pages in a range `R` only and keeps every frame
(`Changes`): a frame is drawn from the free list and becomes a page table or a user page, or a
user page is given back. A frame in the hands of the caller is in neither; `H` are the frames
that come in from there.
-/

namespace Xv6.Vm

open Program Custody Function

def never : String → Prop := fun _ => False

/-- **What may happen to an address space**: pages in `R` get another mapping, and the frames in
`H` come in. -/
structure Changes (k : Kernel) (pd : Nat) (R H : Nat → Prop) (s s' : Kmem) : Prop where
  space : Space k s' pd
  holds : ∀ f, Holds s' pd f ↔ Holds s pd f ∨ H f
  /-- What belongs to somebody else stays as it is. -/
  outside : ∀ f, ¬ Holds s pd f → ¬ H f → s'.page f = s.page f
  same : ∀ v < MAXPAGES, ¬ R v → lookup s' pd v = lookup s pd v
  content : ∀ v < UPAGES, ¬ R v → ∀ w, lookup s pd v = some w →
    s'.page (w / PGSIZE) = s.page (w / PGSIZE)
  oom : s'.oom = s.oom

def nil : Nat → Prop := fun _ => False

section

variable {k : Kernel} {pd f v t w i mem : Nat} {R R' H H' : Nat → Prop} {s s' s'' : Kmem}

theorem Space.congr (h : Space k s pd) (hpage : s'.page = s.page)
    (hfree : s'.freelist = s.freelist) (hoom : s'.oom = s.oom) : Changes k pd R nil s s' := by
  have hown : own s' pd = own s pd := by
    apply own_congr
    · rw [hpage]
    · exact fun _ _ t _ => by rw [hpage]
  have hholds : ∀ f, Holds s' pd f ↔ Holds s pd f := by
    intro f
    rw [Holds, Holds, hown, hfree]
  constructor
  · constructor
    · rw [hown, hfree]
      exact h.excl
    · exact fun f hf => h.ram f ((hholds f).mp hf)
  · exact fun f => (hholds f).trans (or_iff_left id).symm
  · exact fun f _ _ => by rw [hpage]
  · intro v _ _
    apply lookup_congr
    · rw [hpage]
    · exact fun t _ => by rw [hpage]
  · exact fun v _ _ w _ => by rw [hpage]
  · exact hoom

theorem Space.refl (h : Space k s pd) : Changes k pd R nil s s := h.congr rfl rfl rfl

theorem Changes.mono (h : Changes k pd R H s s') (hR : ∀ v, R v → R' v) :
    Changes k pd R' H s s' := by
  constructor
  · exact h.space
  · exact h.holds
  · exact h.outside
  · exact fun v hv hnot => h.same v hv fun hr => hnot (hR v hr)
  · exact fun v hv hnot => h.content v hv fun hr => hnot (hR v hr)
  · exact h.oom

theorem Changes.trans (h : Changes k pd R H s s') (h' : Changes k pd R H' s' s'') :
    Changes k pd R (fun f => H f ∨ H' f) s s'' := by
  constructor
  · exact h'.space
  · intro f
    rw [h'.holds, h.holds, or_assoc]
  · intro f hf hnot
    rw [not_or] at hnot
    have hf' : ¬ Holds s' pd f := by
      rw [h.holds, not_or]
      exact ⟨hf, hnot.1⟩
    rw [h'.outside f hf' hnot.2, h.outside f hf hnot.1]
  · intro v hv hnot
    rw [h'.same v hv hnot, h.same v hv hnot]
  · intro v hv hnot w hw
    have hw' : lookup s' pd v = some w := by rw [h.same v (hv.trans_le upages_le_maxpages) hnot, hw]
    rw [h'.content v hv hnot w hw', h.content v hv hnot w hw]
  · rw [h'.oom, h.oom]

theorem Changes.then (h : Changes k pd R nil s s') (h' : Changes k pd R H s' s'') :
    Changes k pd R H s s'' := by
  have htrans := h.trans h'
  have heq : (fun f => nil f ∨ H f) = H := funext fun f => propext (or_iff_right id)
  rwa [heq] at htrans

/-! ### Frames in hand -/

/-- `mem` has been taken off the free list, and may have been written to. -/
structure Drawn (mem : Nat) (s s' : Kmem) : Prop where
  freelist : s.freelist = mem :: s'.freelist
  page : ∀ f, f ≠ mem → s'.page f = s.page f
  oom : s'.oom = s.oom

variable (hd : Drawn mem s s')
include hd

variable (h : Space k s pd)
include h

theorem Drawn.ne {r : Slot} {f : Nat} (hr : own s pd r = some f) : f ≠ mem := by
  rintro rfl
  exact h.excl.apart r f hr (hd.freelist ▸ (.head _))

theorem Drawn.own : own s' pd = own s pd := by
  apply own_congr
  · exact hd.page pd (hd.ne h (r := .dir) rfl)
  · intro i hi t ht
    exact hd.page t (hd.ne h ((Space.own_table hi).trans ht))

theorem Drawn.lookup (hv : v < MAXPAGES) : lookup s' pd v = lookup s pd v := by
  apply lookup_congr
  · exact hd.page pd (hd.ne h (r := .dir) rfl)
  · intro t ht
    have hi := div_lt_of_lt_maxpages hv
    exact hd.page t (hd.ne h ((Space.own_table hi).trans ht))

theorem Drawn.tableOf : tableOf s' pd i = tableOf s pd i := by
  apply tableOf_congr
  apply hd.page
  rintro rfl
  exact h.excl.apart .dir pd rfl (hd.freelist ▸ (.head _))

theorem Drawn.holds : Holds s pd f ↔ f = mem ∨ Holds s' pd f := by
  rw [Holds, Holds, hd.own h, hd.freelist]
  exact accounted_draw

theorem Drawn.loose : ¬ Holds s' pd mem := by
  have hexcl := h.excl
  rw [hd.freelist] at hexcl
  rw [Holds, hd.own h]
  exact hexcl.loose_of_draw

theorem Drawn.ram : Ram k mem :=
  h.ram mem ((hd.holds h).mpr (.inl rfl))

theorem Drawn.space : Space k s' pd := by
  have hexcl := h.excl
  rw [hd.freelist] at hexcl
  constructor
  · rw [hd.own h]
    exact hexcl.draw
  · exact fun f hf => h.ram f ((hd.holds h).mpr (.inr hf))

/-- A frame that is drawn and comes in again has only moved. -/
theorem Drawn.changes (hc : Changes k pd R (· = mem) s' s'') : Changes k pd R nil s s'' := by
  constructor
  · exact hc.space
  · intro f
    rw [hc.holds, hd.holds h, or_comm]
    exact (or_iff_left id).symm
  · intro f hf _
    rw [hd.holds h, not_or] at hf
    rw [hc.outside f hf.2 hf.1, hd.page f hf.1]
  · intro v hv hnot
    rw [hc.same v hv hnot, hd.lookup h hv]
  · intro v hv hnot w hw
    have hw' : Vm.lookup s' pd v = some w := by
      rw [hd.lookup h (hv.trans_le upages_le_maxpages), hw]
    have hne : w / PGSIZE ≠ mem := by
      intro heq
      have hin := Space.holds_page hv hw'
      rw [heq] at hin
      exact hd.loose h hin
    rw [hc.content v hv hnot w hw', hd.page _ hne]
  · rw [hc.oom, hd.oom]

omit hd

omit h

variable (h : Space k s pd)
include h

theorem changes_refund (hmem : ¬ Holds s pd mem) (hram : Ram k mem) (words : Nat → Nat) :
    Changes k pd R (· = mem) s ((s.fill mem words).push mem) := by
  have hne : ∀ f, Holds s pd f → f ≠ mem := fun f hf heq => hmem (heq ▸ hf)
  have hpage : ∀ f, f ≠ mem → ((s.fill mem words).push mem).page f = s.page f := by
    intro f hf
    simp [Kmem.push, Kmem.fill, hf]
  have hown : own ((s.fill mem words).push mem) pd = own s pd := by
    apply own_congr
    · exact hpage pd (hne pd Space.holds_dir)
    · exact fun i hi t ht => hpage t (hne t (Space.holds_table hi ht))
  have hholds : ∀ f, Holds ((s.fill mem words).push mem) pd f ↔ Holds s pd f ∨ f = mem := by
    intro f
    rw [Holds, hown]
    exact accounted_draw.trans or_comm
  constructor
  · constructor
    · rw [hown]
      exact h.excl.refund hmem
    intro f hf
    rcases (hholds f).mp hf with hf | rfl
    · exact h.ram f hf
    · exact hram
  · exact hholds
  · exact fun f _ hf => hpage f hf
  · intro v hv _
    apply lookup_congr
    · exact hpage pd (hne pd Space.holds_dir)
    · exact fun t ht => hpage t (hne t (Space.holds_table (div_lt_of_lt_maxpages hv) ht))
  · exact fun v hv _ w hw => hpage _ (hne _ (Space.holds_page hv hw))
  · rfl

/-! ### Page tables and pages -/

theorem changes_attach (hf : ¬ Holds s pd f) (hram : Ram k f) (hi : i < NPDENTRIES)
    (hnone : tableOf s pd i = none) : Changes k pd R (· = f) s (attach s pd i f) := by
  have hown := own_attach h hf hi hnone
  have hholds : ∀ g, Holds (attach s pd i f) pd g ↔ Holds s pd g ∨ g = f := by
    intro g
    rw [Holds, hown]
    exact (accounted_place ((Space.own_table hi).trans hnone)).trans or_comm
  have hpage : ∀ g, g ≠ pd → g ≠ f → (attach s pd i f).page g = s.page g :=
    fun g => attach_page_of_ne
  constructor
  · constructor
    · rw [hown]
      exact h.excl.place hf
    intro g hg
    rcases (hholds g).mp hg with hg | rfl
    · exact h.ram g hg
    · exact hram
  · exact hholds
  · intro g hg hgf
    exact hpage g (fun heq => hg (heq ▸ Space.holds_dir)) hgf
  · exact fun v hv _ => lookup_attach h hf hi hnone hv
  · intro v hv _ w hw
    apply hpage
    · exact h.page_ne_dir hv hw
    · exact fun heq => hf (heq ▸ Space.holds_page hv hw)
  · rfl

theorem store_untouched (hv : v < MAXPAGES) (ht : tableOf s pd (v / NPTENTRIES) = some t) :
    (∀ f, ¬ Holds s pd f → (s.store t (v % NPTENTRIES) w).page f = s.page f) ∧
      ∀ u < UPAGES, ∀ w', lookup s pd u = some w' →
        (s.store t (v % NPTENTRIES) w).page (w' / PGSIZE) = s.page (w' / PGSIZE) := by
  have hi := div_lt_of_lt_maxpages hv
  constructor
  · intro f hf
    exact store_page_of_ne fun heq => hf (heq ▸ Space.holds_table hi ht)
  · intro u hu w' hw'
    exact store_page_of_ne (h.page_ne_table hu hw' hi ht)

theorem changes_map (hv : v < UPAGES) (ht : tableOf s pd (v / NPTENTRIES) = some t)
    (hnone : lookup s pd v = none) (hmem : ¬ Holds s pd mem) (hram : Ram k mem) (hw : Present w)
    (hwm : w / PGSIZE = mem) : Changes k pd (· = v) (· = mem) s (s.store t (v % NPTENTRIES) w) := by
  have hvm := hv.trans_le upages_le_maxpages
  obtain ⟨houtside, hcontent⟩ := store_untouched (w := w) h hvm ht
  have hown := own_store (w := w) h hvm ht
  rw [if_pos hv, if_pos hw, hwm] at hown
  have hslot : own s pd (.page v) = none := by rw [Space.own_page hv, hnone, Option.map_none]
  have hholds : ∀ f, Holds (s.store t (v % NPTENTRIES) w) pd f ↔ Holds s pd f ∨ f = mem := by
    intro f
    rw [Holds, hown]
    exact (accounted_place hslot).trans or_comm
  constructor
  · constructor
    · rw [hown]
      exact h.excl.place hmem
    intro f hf
    rcases (hholds f).mp hf with hf | rfl
    · exact h.ram f hf
    · exact hram
  · exact hholds
  · exact fun f hf _ => houtside f hf
  · exact fun u hu hne => lookup_store_of_ne h hvm ht hu hne
  · exact fun u hu _ w' hw' => hcontent u hu w' hw'
  · rfl

theorem changes_kernel (hv : v < MAXPAGES) (hk : UPAGES ≤ v)
    (ht : tableOf s pd (v / NPTENTRIES) = some t) :
    Changes k pd (· = v) nil s (s.store t (v % NPTENTRIES) w) := by
  obtain ⟨houtside, hcontent⟩ := store_untouched h hv ht
  have hown := own_store (w := w) h hv ht
  rw [if_neg hk.not_gt] at hown
  have hholds : ∀ f, Holds (s.store t (v % NPTENTRIES) w) pd f ↔ Holds s pd f := by
    intro f
    rw [Holds, hown]
    rfl
  constructor
  · constructor
    · rw [hown]
      exact h.excl
    · exact fun f hf => h.ram f ((hholds f).mp hf)
  · exact fun f => (hholds f).trans (or_iff_left id).symm
  · exact fun f hf _ => houtside f hf
  · exact fun u hu hne => lookup_store_of_ne h hv ht hu hne
  · exact fun u hu _ w' hw' => hcontent u hu w' hw'
  · rfl

omit h

/-- `deallocuvm` gives user page `v` back. -/
def unmap (s : Kmem) (t v f : Nat) : Kmem :=
  ((s.fill f fun _ => 1 * 0x01010101).push f).store t (v % NPTENTRIES) 0

theorem unmap_page {g : Nat} (hgt : g ≠ t) (hgf : g ≠ f) : (unmap s t v f).page g = s.page g := by
  rw [unmap, store_page_of_ne hgt]
  simp [Kmem.push, Kmem.fill, hgf]

theorem changes_unmap (h : Space k s pd) (hv : v < UPAGES)
    (ht : tableOf s pd (v / NPTENTRIES) = some t) (hw : lookup s pd v = some w) :
    Changes k pd (· = v) nil s (unmap s t v (w / PGSIZE)) := by
  have hvm := hv.trans_le upages_le_maxpages
  have hi := div_lt_of_lt_maxpages hvm
  have hft := h.page_ne_table hv hw hi ht
  have hslot : own s pd (.page v) = some (w / PGSIZE) := by
    rw [Space.own_page hv, hw, Option.map_some]
  -- the order of the two does not matter: first the PTE, then the frame
  have hswap : unmap s t v (w / PGSIZE) =
      ((s.store t (v % NPTENTRIES) 0).fill (w / PGSIZE) fun _ => 1 * 0x01010101).push
        (w / PGSIZE) := by
    simp only [unmap, Kmem.store, Kmem.fill, Kmem.push, Kmem.mk.injEq, and_true]
    rw [update_of_ne hft.symm, update_comm hft.symm]
  obtain ⟨houtside, hcontent⟩ := store_untouched h hvm ht
  have hown := own_store (w := 0) h hvm ht
  rw [if_pos hv] at hown
  have hspace : Space k (s.store t (v % NPTENTRIES) 0) pd := by
    constructor
    · rw [hown]
      exact h.excl.lift
    · intro f hf
      rw [Holds, hown] at hf
      exact h.ram f ((accounted_lift hslot).mpr (.inr hf))
  have hloose : ¬ Holds (s.store t (v % NPTENTRIES) 0) pd (w / PGSIZE) := by
    rw [Holds, hown]
    exact h.excl.loose_of_lift hslot
  have hback : Changes k pd (· = v) (· = w / PGSIZE) _ _ :=
    changes_refund hspace hloose (h.ram _ (Space.holds_page hv hw)) fun _ => 1 * 0x01010101
  rw [hswap]
  constructor
  · exact hback.space
  · intro f
    rw [hback.holds, Holds, hown, or_comm]
    exact (accounted_lift hslot).symm.trans (or_iff_left id).symm
  · intro f hf _
    have hne : f ≠ w / PGSIZE := fun heq => hf (heq ▸ Space.holds_page hv hw)
    have hf' : ¬ Holds (s.store t (v % NPTENTRIES) 0) pd f := by
      rw [Holds, hown]
      exact fun hin => hf ((accounted_lift hslot).mpr (.inr hin))
    rw [hback.outside f hf' hne, houtside f hf]
  · intro u hu hne
    rw [hback.same u hu hne, lookup_store_of_ne h hvm ht hu hne]
  · intro u hu hne w' hw'
    have hw'' : lookup (s.store t (v % NPTENTRIES) 0) pd u = some w' := by
      rw [lookup_store_of_ne h hvm ht (hu.trans_le upages_le_maxpages) hne, hw']
    rw [hback.content u hu hne w' hw'', hcontent u hu w' hw']
  · rfl

end

/-! ### `kalloc` and `kfree` -/

/-- `kalloc` finds nothing. -/
def Kmem.Dry (s : Kmem) : Prop := s.oom s.calls = true ∨ s.freelist = []

/-- A call of `kalloc` has been made, in vain. -/
def Kmem.tick (s : Kmem) : Kmem := { s with calls := s.calls + 1 }

/-- `n` calls of `kalloc` have been made, and all have found a frame. -/
structure Spent (n : Nat) (s s' : Kmem) : Prop where
  calls : s'.calls = s.calls + n
  freelist : s'.freelist = s.freelist.drop n
  found : ∀ j < n, s.oom (s.calls + j) = false ∧ j < s.freelist.length
  oom : s'.oom = s.oom

theorem Space.tick {k : Kernel} {pd : Nat} {R : Nat → Prop} {s : Kmem} (h : Space k s pd) :
    Changes k pd R nil s s.tick := h.congr rfl rfl rfl

section

variable {k : Kernel} {f mem n m : Nat} {E : String → Prop} {s s' s'' : Kmem}

theorem Spent.refl : Spent 0 s s := ⟨rfl, rfl, fun j hj => absurd hj (Nat.not_lt_zero j), rfl⟩

theorem Spent.trans (h : Spent n s s') (h' : Spent m s' s'') : Spent (n + m) s s'' := by
  constructor
  · rw [h'.calls, h.calls, Nat.add_assoc]
  · rw [h'.freelist, h.freelist, List.drop_drop]
  · intro j hj
    by_cases hjn : j < n
    · exact h.found j hjn
    obtain ⟨hoom, hlen⟩ := h'.found (j - n) (by omega)
    rw [h.oom, h.calls, Nat.add_assoc, Nat.add_sub_cancel' (Nat.le_of_not_lt hjn)] at hoom
    rw [h.freelist, List.length_drop] at hlen
    exact ⟨hoom, by omega⟩
  · rw [h'.oom, h.oom]

theorem wp_kalloc {Q : Option Nat → Kmem → Prop} (hnone : s.Dry → Q none s.tick)
    (hsome : ∀ mem s', Drawn mem s s' → s'.page = s.page → Spent 1 s s' → Q (some mem) s') :
    wp E kalloc Q s := by
  simp only [kalloc, wp]
  cases hoom : s.oom s.calls with
  | true => exact hnone (.inl hoom)
  | false =>
    rcases hfree : s.freelist with _ | ⟨mem, fs⟩
    · have hQ := hnone (.inr hfree)
      rwa [Kmem.tick, hfree] at hQ
    apply hsome
    · exact ⟨hfree, fun _ _ => rfl, rfl⟩
    · rfl
    constructor
    · rfl
    · rw [hfree]
      rfl
    · intro j hj
      have hj0 : j = 0 := by omega
      subst hj0
      rw [hfree]
      exact ⟨hoom, Nat.zero_lt_succ _⟩
    · rfl

theorem kfree_of_ram (hram : Ram k f) :
    kfree k f = (do memset f 1; modify fun s => s.push f) := by
  unfold kfree
  exact if_neg (not_or.mpr ⟨hram.1.not_gt, hram.2.not_ge⟩)

theorem kfree_of_not_ram (hram : ¬ Ram k f) : kfree k f = .panic "kfree" := by
  unfold kfree
  rw [Ram, not_and_or, Nat.not_le, Nat.not_lt] at hram
  exact if_pos hram

theorem wp_kfree {Q : Unit → Kmem → Prop} (hram : Ram k f)
    (hQ : Q () ((s.fill f fun _ => 1 * 0x01010101).push f)) : wp E (kfree k f) Q s := by
  rw [kfree_of_ram hram]
  exact hQ

theorem wp_kfree_any {Q : Unit → Kmem → Prop} (hQ : ∀ s', Q () s') :
    wp (· = "kfree") (kfree k f) Q s := by
  by_cases hram : Ram k f
  · exact wp_kfree hram (hQ _)
  · rw [kfree_of_not_ram hram]
    exact rfl

theorem Drawn.filled (h : Drawn mem s s') (words : Nat → Nat) : Drawn mem s (s'.fill mem words) := by
  constructor
  · exact h.freelist
  · intro f hf
    rw [← h.page f hf]
    simp [Kmem.fill, hf]
  · exact h.oom

theorem Spent.filled (h : Spent n s s') (words : Nat → Nat) : Spent n s (s'.fill mem words) :=
  ⟨h.calls, h.freelist, h.found, h.oom⟩

end

/-! ### `walkpgdir` and `mappages` -/

section

variable {k : Kernel} {pd f v t i mem n perm : Nat} {E : String → Prop} {s s' : Kmem}

theorem pdx_page (hv : v < MAXPAGES) : PDX (v * PGSIZE) = v / NPTENTRIES := by
  have hlt := div_lt_of_lt_maxpages hv
  have hshift : 2 ^ PDXSHIFT = NPTENTRIES * PGSIZE := rfl
  rw [PDX, hshift, Nat.mul_div_mul_right _ _ (by decide), Nat.mod_eq_of_lt hlt]

theorem ptx_page : PTX (v * PGSIZE) = v % NPTENTRIES := by
  have hshift : 2 ^ PTXSHIFT = PGSIZE := rfl
  rw [PTX, hshift, Nat.mul_div_cancel _ (by decide)]

theorem wp_walkpgdir_look {va : Nat} {Q : Option (Nat × Nat) → Kmem → Prop}
    (hQ : Q ((tableOf s pd (PDX va)).map fun t => (t, PTX va)) s) :
    wp E (walkpgdir pd va false) Q s := by
  rw [walkpgdir, wp_bind, wp_reads]
  by_cases hp : Present (s.page pd (PDX va))
  · rw [if_pos hp, addr_div]
    rwa [tableOf, if_pos hp] at hQ
  · rw [if_neg hp]
    rwa [tableOf, if_neg hp] at hQ

/-- The page tables after one for entry `i` has been called for. -/
structure Walked (pd i : Nat) (s s' : Kmem) : Prop where
  other : ∀ j, j ≠ i → tableOf s' pd j = tableOf s pd j
  spent : ∃ n, Spent n s s' ∧ n = if tableOf s pd i = none then 1 else 0

theorem Walked.store {pd i t j w : Nat} {s s' : Kmem} (h : Walked pd i s s') (hpd : pd ≠ t) :
    Walked pd i s (s'.store t j w) := by
  obtain ⟨n, hspent, hn⟩ := h.spent
  refine ⟨fun j hj => ?_, n, ⟨hspent.calls, hspent.freelist, hspent.found, hspent.oom⟩, hn⟩
  rw [tableOf_store hpd, h.other j hj]

/-- **`walkpgdir` that allocates** finds the page table of page `v`, or attaches one. -/
theorem wp_walkpgdir (h : Space k s pd) (hv : v < MAXPAGES)
    {Q : Option (Nat × Nat) → Kmem → Prop}
    (hfail : tableOf s pd (v / NPTENTRIES) = none → s.Dry → Q none s.tick)
    (hok : ∀ t s', Changes k pd nil nil s s' → tableOf s' pd (v / NPTENTRIES) = some t →
      Walked pd (v / NPTENTRIES) s s' → Q (some (t, v % NPTENTRIES)) s') :
    wp E (walkpgdir pd (v * PGSIZE) true) Q s := by
  have hi := div_lt_of_lt_maxpages hv
  rw [walkpgdir, wp_bind, wp_reads, pdx_page hv, ptx_page]
  by_cases hp : Present (s.page pd (v / NPTENTRIES))
  · have ht : tableOf s pd (v / NPTENTRIES) = some (s.page pd (v / NPTENTRIES) / PGSIZE) :=
      if_pos hp
    rw [if_pos hp, addr_div]
    apply hok _ _ h.refl ht
    exact ⟨fun _ _ => rfl, 0, .refl, by rw [ht]; rfl⟩
  · have hnone : tableOf s pd (v / NPTENTRIES) = none := if_neg hp
    rw [if_neg hp, if_pos rfl, wp_bind]
    apply wp_kalloc
    · exact hfail hnone
    intro f s1 hdrawn hpage hspent
    have hloose := hdrawn.loose h
    have hnone1 : tableOf s1 pd (v / NPTENTRIES) = none := (hdrawn.tableOf h).trans hnone
    have hattach := changes_attach (R := nil) (hdrawn.space h) hloose (hdrawn.ram h) hi hnone1
    have hf : f ≠ pd := fun heq => hloose (heq ▸ Space.holds_dir)
    apply hok f (attach s1 pd (v / NPTENTRIES) f)
    · exact hdrawn.changes h hattach
    · exact tableOf_attach_self
    constructor
    · intro j hj
      rw [tableOf_attach_of_ne hf hj, hdrawn.tableOf h]
    · exact ⟨1, ⟨hspent.calls, hspent.freelist, hspent.found, hspent.oom⟩, (if_pos hnone).symm⟩

theorem last_page (hn : v + n < MAXPAGES) :
    PGROUNDDOWN ((v * PGSIZE + (n + 1) * PGSIZE + (2 ^ 32 - 1)) % 2 ^ 32) = (v + n) * PGSIZE := by
  have hlt : v + n < 1048576 := hn
  have hdiv : (v * 4096 + (n + 1) * 4096 + (2 ^ 32 - 1)) % 2 ^ 32 / 4096 = v + n := by omega
  rw [PGROUNDDOWN, PGSIZE, hdiv]

theorem wp_mapLoop (h : Space k s pd) (hv : v < MAXPAGES) (hnone : lookup s pd v = none)
    {last fuel pa : Nat} {Q : Int → Kmem → Prop}
    (hfail : tableOf s pd (v / NPTENTRIES) = none → s.Dry → Q (-1) s.tick)
    (hok : ∀ t s', Changes k pd nil nil s s' → tableOf s' pd (v / NPTENTRIES) = some t →
      Walked pd (v / NPTENTRIES) s s' →
      wp E (if v * PGSIZE = last then return 0
        else mapLoop pd last perm fuel ((v * PGSIZE + PGSIZE) % 2 ^ 32) ((pa + PGSIZE) % 2 ^ 32)) Q
        (s'.store t (v % NPTENTRIES) (pa ||| perm ||| PTE_P))) :
    wp E (mapLoop pd last perm (fuel + 1) (v * PGSIZE) pa) Q s := by
  rw [mapLoop, wp_bind]
  apply wp_walkpgdir h hv
  · exact hfail
  intro t s' hchanges ht hwalked
  have hnone' : lookup s' pd v = none := (hchanges.same v hv id).trans hnone
  have habsent : ¬ Present (s'.page t (v % NPTENTRIES)) := by
    intro hp
    rw [lookup_of_table ht, if_pos hp] at hnone'
    cases hnone'
  simp only [wp_bind, wp_reads]
  rw [if_neg habsent]
  exact hok t s' hchanges ht hwalked

/-- **`mappages` of one user page**: frame `mem`, which the caller has, becomes page `v`. -/
theorem wp_mappages_page (h : Space k s pd) (hv : v < UPAGES) (hnone : lookup s pd v = none)
    (hmem : ¬ Holds s pd mem) (hram : Ram k mem) (hperm : perm < PGSIZE)
    {Q : Int → Kmem → Prop}
    (hfail : tableOf s pd (v / NPTENTRIES) = none → s.Dry → Q (-1) s.tick)
    (hok : ∀ s', Changes k pd (· = v) (· = mem) s s' → lookup s' pd v = some (entry mem perm) →
      s'.page mem = s.page mem → Walked pd (v / NPTENTRIES) s s' →
      tableOf s' pd (v / NPTENTRIES) ≠ none → Q 0 s') :
    wp E (mappages pd (v * PGSIZE) PGSIZE (mem * PGSIZE) perm) Q s := by
  have hvm := hv.trans_le upages_le_maxpages
  have hlast := last_page (n := 0) hvm
  have hdown : PGROUNDDOWN (v * PGSIZE) = v * PGSIZE := by
    rw [PGROUNDDOWN, Nat.mul_div_cancel _ (by decide)]
  rw [Nat.one_mul, Nat.add_zero] at hlast
  obtain ⟨fuel, hfuel⟩ : ∃ fuel, MAXPAGES = fuel + 1 := ⟨MAXPAGES - 1, rfl⟩
  rw [mappages, hlast, hdown]
  apply wp_mapLoop h hvm hnone
  · exact hfail
  intro t s1 hc ht hwalked
  have hmem1 : ¬ Holds s1 pd mem := by
    rw [hc.holds]
    exact fun hin => hmem (hin.elim id False.elim)
  have hnone1 : lookup s1 pd v = none := (hc.same v hvm id).trans hnone
  have hi := div_lt_of_lt_maxpages hvm
  have hpd : pd ≠ t := (hc.space.table_ne_dir hi ht).symm
  have hmap := changes_map hc.space hv ht hnone1 hmem1 hram (present_entry)
    (entry_div hperm)
  rw [if_pos rfl]
  apply hok
  · exact (hc.mono fun _ hu => hu.elim).then hmap
  · rw [lookup_store_self hc.space hvm ht]
    exact if_pos present_entry
  · rw [store_page_of_ne, hc.outside mem hmem id]
    rintro rfl
    exact hmem1 (Space.holds_table hi ht)
  · exact hwalked.store hpd
  · rw [tableOf_store hpd, ht]
    exact Option.some_ne_none t

end

/-! ### `deallocuvm` -/

/-- How many pages a process of size `sz` has. -/
def pages (sz : Nat) : Nat := (sz + PGSIZE - 1) / PGSIZE

def Within (lo hi u : Nat) : Prop := lo ≤ u ∧ u < hi

instance (lo hi u : Nat) : Decidable (Within lo hi u) := inferInstanceAs (Decidable (_ ∧ _))

variable {k : Kernel} {pd u v w n fuel oldsz newsz sz : Nat} {E : String → Prop} {s s' : Kmem}

theorem lt_pages_iff : v < pages sz ↔ v * PGSIZE < sz := by
  rw [pages, PGSIZE]
  omega

theorem pages_mono (h : oldsz ≤ newsz) : pages oldsz ≤ pages newsz := by
  rw [pages, pages, PGSIZE]
  omega

theorem pages_le (h : sz ≤ KERNBASE) : pages sz ≤ UPAGES := by
  have hsz : sz ≤ 2147483648 := h
  have hu : UPAGES = 524288 := rfl
  rw [pages, PGSIZE]
  omega

theorem pgroundup_eq (h : sz ≤ KERNBASE) : PGROUNDUP sz = pages sz * PGSIZE := by
  have hsz : sz ≤ 2147483648 := h
  have hmod : (sz + 4096 - 1) % 2 ^ 32 = sz + 4096 - 1 := by omega
  rw [PGROUNDUP, PGROUNDDOWN, pages, PGSIZE, hmod]

theorem next_page (hv : v < UPAGES) : (v * PGSIZE + PGSIZE) % 2 ^ 32 = (v + 1) * PGSIZE := by
  have hlt : v < 524288 := hv
  rw [PGSIZE]
  omega

/-- `deallocuvm` goes to the first page of the next page table. -/
theorem jump_page (hv : v < UPAGES) :
    ((PGADDR (v / NPTENTRIES + 1) 0 0 + (2 ^ 32 - PGSIZE)) % 2 ^ 32 + PGSIZE) % 2 ^ 32 =
      (v / NPTENTRIES + 1) * NPTENTRIES * PGSIZE := by
  have hlt : v < 524288 := hv
  have hn : NPTENTRIES = 1024 := rfl
  rw [PGADDR, Nat.zero_shiftLeft, Nat.or_zero, Nat.or_zero, PDXSHIFT, PGSIZE, hn]
  omega

theorem Ram.addr_ne_zero (h : Ram k (w / PGSIZE)) : PTE_ADDR w ≠ 0 := by
  intro hzero
  have hend : KERNLINK < k.kend := k.text.trans_le k.ends
  have hfits := k.fits
  have hlo := h.1
  rw [PTE_ADDR] at hzero
  simp only [V2P, KERNLINK, KERNBASE, PHYSTOP] at hend hfits hlo
  omega

theorem pages_left (hlt : v * PGSIZE < oldsz) (hfuel : oldsz ≤ (v + n) * PGSIZE) :
    ∃ m, n = m + 1 ∧ oldsz ≤ (v + 1 + m) * PGSIZE := by
  have hpos : n ≠ 0 := by
    rintro rfl
    exact absurd hlt hfuel.not_gt
  obtain ⟨m, rfl⟩ := Nat.exists_eq_add_one_of_ne_zero hpos
  exact ⟨m, rfl, by rwa [Nat.add_right_comm]⟩

theorem jump_le (v : Nat) : v + 1 ≤ (v / NPTENTRIES + 1) * NPTENTRIES := by
  rw [NPTENTRIES]
  omega

/-- **The loop of `deallocuvm` always ends**, whatever the frames hold. -/
theorem deallocLoop_ends (hold : oldsz ≤ KERNBASE) (hfuel : oldsz ≤ (v + n) * PGSIZE)
    (hn : n < fuel) :
    wp (· = "kfree") (deallocLoop k pd oldsz fuel (v * PGSIZE)) (fun _ _ => True) s := by
  induction fuel generalizing v n s with
  | zero => exact absurd hn (Nat.not_lt_zero n)
  | succ fuel ih =>
    rw [deallocLoop]
    split
    next hlt =>
      have hv : v < UPAGES := (lt_pages_iff.mpr hlt).trans_le (pages_le hold)
      obtain ⟨n, rfl, hfuel'⟩ := pages_left hlt hfuel
      -- both ways to go on are to a later page
      have hstep : ∀ {s1 : Kmem},
          wp (· = "kfree") (deallocLoop k pd oldsz fuel ((v * PGSIZE + PGSIZE) % 2 ^ 32))
            (fun _ _ => True) s1 := by
        intro s1
        rw [next_page hv]
        exact ih hfuel' (by omega)
      rw [wp_bind]
      apply wp_walkpgdir_look
      rw [pdx_page (hv.trans_le upages_le_maxpages)]
      rcases tableOf s pd (v / NPTENTRIES) with _ | t
      · simp only [Option.map_none]
        rw [jump_page hv]
        exact ih (hfuel'.trans (by gcongr; exact jump_le v)) (by omega)
      · simp only [Option.map_some, wp_bind, wp_reads]
        split
        · split
          · rfl
          rw [wp_bind]
          apply wp_kfree_any
          intro s1
          exact hstep
        · exact hstep
    · trivial

/-- **The loop of `deallocuvm`** unmaps all pages from `v` to `oldsz` and no others. -/
theorem wp_deallocLoop (h : Space k s pd) (hold : oldsz ≤ KERNBASE)
    (hfuel : oldsz ≤ (v + n) * PGSIZE) (hn : n < fuel) {Q : Unit → Kmem → Prop}
    (hQ : ∀ s', Changes k pd (Within v (pages oldsz)) nil s s' →
      (∀ u, Within v (pages oldsz) u → lookup s' pd u = none) →
      (∀ i < NPDENTRIES, tableOf s' pd i = tableOf s pd i) → Q () s') :
    wp E (deallocLoop k pd oldsz fuel (v * PGSIZE)) Q s := by
  induction fuel generalizing v n s with
  | zero => exact absurd hn (Nat.not_lt_zero n)
  | succ fuel ih =>
    rw [deallocLoop]
    split
    next hlt =>
      have hpages := lt_pages_iff.mpr hlt
      have hv : v < UPAGES := hpages.trans_le (pages_le hold)
      have hvm := hv.trans_le upages_le_maxpages
      have hi := div_lt_of_lt_maxpages hvm
      obtain ⟨n, rfl, hfuel'⟩ := pages_left hlt hfuel
      -- one page done, and the others by induction
      have hstep : ∀ {s1 : Kmem}, Changes k pd (· = v) nil s s1 → lookup s1 pd v = none →
          (∀ i < NPDENTRIES, tableOf s1 pd i = tableOf s pd i) →
          wp E (deallocLoop k pd oldsz fuel ((v * PGSIZE + PGSIZE) % 2 ^ 32)) Q s1 := by
        intro s1 hc hnone htables
        rw [next_page hv]
        apply ih hc.space hfuel' (by omega)
        intro s' hc' hnone' htables'
        apply hQ
        · apply (hc.mono _).then (hc'.mono _)
          · rintro u rfl
            exact ⟨Nat.le_refl u, hpages⟩
          · exact fun u hu => ⟨Nat.le_of_succ_le hu.1, hu.2⟩
        · intro u hu
          by_cases huv : u = v
          · rw [huv, hc'.same v hvm fun hin => absurd hin.1 (Nat.not_succ_le_self v), hnone]
          · exact hnone' u ⟨Nat.lt_of_le_of_ne hu.1 (Ne.symm huv), hu.2⟩
        · intro i hi
          rw [htables' i hi, htables i hi]
      rw [wp_bind]
      apply wp_walkpgdir_look
      rw [pdx_page hvm, ptx_page]
      rcases ht : tableOf s pd (v / NPTENTRIES) with _ | t
      · simp only [Option.map_none]
        rw [jump_page hv]
        have hjump := jump_le v
        apply ih h (hfuel'.trans (by gcongr)) (by omega)
        intro s' hc hnone htables
        apply hQ
        · exact hc.mono fun u hu => ⟨(Nat.le_succ v).trans (hjump.trans hu.1), hu.2⟩
        · intro u hu
          by_cases huj : (v / NPTENTRIES + 1) * NPTENTRIES ≤ u
          · exact hnone u ⟨huj, hu.2⟩
          -- jumped over: the page table that is absent is this page's
          have hdiv : u / NPTENTRIES = v / NPTENTRIES := by
            have hle := hu.1
            rw [NPTENTRIES] at huj ⊢
            omega
          have humax : u < MAXPAGES :=
            (hu.2.trans_le (pages_le hold)).trans_le upages_le_maxpages
          rw [hc.same u humax fun hin => huj hin.1]
          exact lookup_eq_none_of_table (hdiv ▸ ht)
        · exact htables
      · simp only [Option.map_some, wp_bind, wp_reads]
        have hlook := lookup_of_table ht
        split
        next hp =>
          rw [if_pos hp] at hlook
          have hram := h.ram _ (Space.holds_page hv hlook)
          rw [if_neg hram.addr_ne_zero, addr_div, wp_bind]
          apply wp_kfree hram
          have hc := changes_unmap h hv ht hlook
          have hpage : (unmap s t v (s.page t (v % NPTENTRIES) / PGSIZE)).page pd = s.page pd :=
            unmap_page (h.table_ne_dir hi ht).symm (h.page_ne_dir hv hlook).symm
          apply hstep hc
          · have ht' := (tableOf_congr hpage).trans ht
            rw [lookup_of_table ht', unmap, store_page_self, update_self]
            exact if_neg not_present_zero
          · exact fun _ _ => tableOf_congr hpage
        next hp =>
          rw [if_neg hp] at hlook
          exact hstep h.refl hlook fun _ _ => rfl
    next hge =>
      have hpages : pages oldsz ≤ v := Nat.le_of_not_lt fun hlt => hge (lt_pages_iff.mp hlt)
      apply hQ s h.refl
      · exact fun u hu => absurd (hu.1.trans_lt hu.2) hpages.not_gt
      · exact fun _ _ => rfl

end Xv6.Vm
