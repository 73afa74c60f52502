import Xv6.VmSetup

/-!
**Copying an address space**: `copyuvm`.

It makes a copy of the user pages in frames of its own, or none (`copyuvm_faithful`). When
`kalloc` finds nothing for one of the pages or for the kernel half, all frames are free again.
When it finds nothing for a page table of the user half, the frame of the page that was to go
there is lost (`Leaked`); the calls where this happens are those with number 66 modulo 1025.
-/

namespace Xv6.Vm

open Program

/-! ### `copyuvm` -/

/-- The loop of `copyuvm` has copied the pages below `i`. -/
structure Copying (k : Kernel) (pgdir d : Nat) (s0 : Kmem) (i : Nat) (s : Kmem) : Prop
    extends NewSpace k d s0 s where
  copied : ∀ u < i, ∃ w f, lookup s0 pgdir u = some w ∧
    lookup s d u = some (entry f (PTE_FLAGS w)) ∧ s.page f = s0.page (w / PGSIZE)
  absent : ∀ u, i ≤ u → u < UPAGES → lookup s d u = none
  tables : ∀ j < NPDENTRIES, tableOf s d j ≠ none ↔ Kentry j ∨ j * NPTENTRIES < i
  spent : Spent (65 + i + (i + (NPTENTRIES - 1)) / NPTENTRIES) s0 s

/-- Frame `mem` is gone from the free list, and no frame that was not free has changed. -/
structure Leaked (mem : Nat) (s s' : Kmem) : Prop where
  nodup : s'.freelist.Nodup
  was : mem ∈ s.freelist
  mem : ∀ f, f ∈ s'.freelist ↔ f ∈ s.freelist ∧ f ≠ mem
  outside : ∀ f, f ∉ s.freelist → s'.page f = s.page f
  oom : s'.oom = s.oom

/-- How many calls of `kalloc` a copy takes: for the kernel half, for each page and for each page
table. -/
def copyCalls (sz : Nat) : Nat := 65 + pages sz + (pages sz + (NPTENTRIES - 1)) / NPTENTRIES

section

variable {k : Kernel} {pgdir d sz i n fuel w mem : Nat} {E : String → Prop} {s s0 s' : Kmem}

theorem flags_lt (w : Nat) : PTE_FLAGS w < PGSIZE := Nat.and_lt_two_pow w (n := 12) (by decide)

theorem flags_or_present (h : Present w) : PTE_FLAGS w ||| PTE_P = PTE_FLAGS w := by
  apply Nat.eq_of_testBit_eq
  intro j
  rw [Nat.testBit_or, PTE_P]
  by_cases hj : j = 0
  · have hbit : (PTE_FLAGS w).testBit j = true := by
      rw [hj, PTE_FLAGS]
      simp [present_iff.mp h]
    rw [hbit, Bool.true_or]
  · have hbit : Nat.testBit 1 j = false := by
      rw [Bool.eq_false_iff]
      exact fun hone => hj (Nat.testBit_one_eq_true_iff_self_eq_zero.mp hone)
    rw [hbit, Bool.or_false]

theorem NewSpace.restored (h : NewSpace k d s0 s) (hf : Freed d s s') : Restored s0 s' := by
  constructor
  · exact hf.nodup
  · exact fun f => (hf.mem f).trans (h.holds f)
  · intro f hnot
    rw [hf.outside f fun hin => hnot ((h.holds f).mp hin), h.outside f hnot]
  · exact hf.oom.trans h.oom

theorem lookup_outside (hparent : ∀ r f, own s0 pgdir r = some f → f ∉ s0.freelist)
    (houtside : ∀ f, f ∉ s0.freelist → s.page f = s0.page f) {u : Nat} (hu : u < MAXPAGES) :
    tableOf s pgdir (u / NPTENTRIES) = tableOf s0 pgdir (u / NPTENTRIES) ∧
      lookup s pgdir u = lookup s0 pgdir u := by
  have hpd : s.page pgdir = s0.page pgdir := houtside pgdir (hparent .dir pgdir rfl)
  refine ⟨tableOf_congr hpd, lookup_congr hpd fun t ht => ?_⟩
  have hi := div_lt_of_lt_maxpages hu
  exact houtside t (hparent (.table _) t ((Space.own_table hi).trans ht))

theorem Copying.mapped {s1 s2 : Kmem} (h : Copying k pgdir d s0 i s) (hi : i < UPAGES)
    (hw : lookup s0 pgdir i = some w) (hd : Drawn mem s s1) (hspent : Spent 1 s s1)
    (hc : Changes k d (· = i) (· = mem) s1 s2)
    (hlook : lookup s2 d i = some (entry mem (PTE_FLAGS w)))
    (hpage : s2.page mem = s0.page (w / PGSIZE)) (hwalked : Walked d (i / NPTENTRIES) s1 s2)
    (hsome : tableOf s2 d (i / NPTENTRIES) ≠ none) : Copying k pgdir d s0 (i + 1) s2 := by
  have him := hi.trans_le upages_le_maxpages
  have hidiv := div_lt_of_lt_maxpages him
  have hc' := hd.changes h.space hc
  have hholds : ∀ f, Holds s2 d f ↔ f ∈ s0.freelist :=
    fun f => (hc'.holds f).trans ((or_iff_left id).trans (h.holds f))
  have htabled := hwalked.tabled hidiv hsome
  have hmem : ∀ j < NPDENTRIES, tableOf s2 d j ≠ none ↔ Kentry j ∨ j * NPTENTRIES < i + 1 := by
    intro j hj
    rw [htabled.mem j hj, hd.tableOf h.space, h.tables j hj, or_assoc]
    apply or_congr_right
    rw [NPTENTRIES]
    omega
  constructor
  · constructor
    · exact hc'.space
    · exact hholds
    · intro f hnot
      rw [hc'.outside f (fun hin => hnot ((h.holds f).mp hin)) id, h.outside f hnot]
    · intro u hku hum
      have hne : u ≠ i := fun heq => absurd (heq ▸ hku) hi.not_ge
      rw [hc'.same u hum hne, h.kernel u hku hum]
    · exact hc'.oom.trans h.oom
  · intro u hu
    by_cases hui : u = i
    · exact ⟨w, mem, hui ▸ hw, hui ▸ hlook, hpage⟩
    have hlt : u < i := by omega
    obtain ⟨w', f, hw', hf, hpage'⟩ := h.copied u hlt
    have huu := hlt.trans hi
    have hcontent := hc'.content u huu hui _ hf
    rw [entry_div (flags_lt w')] at hcontent
    refine ⟨w', f, hw', ?_, hcontent.trans hpage'⟩
    rw [hc'.same u (huu.trans_le upages_le_maxpages) hui, hf]
  · intro u hu huu
    have hne : u ≠ i := by omega
    rw [hc'.same u (huu.trans_le upages_le_maxpages) hne]
    exact h.absent u (by omega) huu
  · exact hmem
  · obtain ⟨n, hn, hnone⟩ := hwalked.spent
    have hall := h.spent.trans (hspent.trans hn)
    have hiff := h.tables (i / NPTENTRIES) hidiv
    rw [← hd.tableOf h.space] at hiff
    -- a page table is new exactly at the first of its pages
    have hkentry : ¬ Kentry (i / NPTENTRIES) := by
      have hlt : i < 524288 := hi
      rw [Kentry, Within, Within, NPTENTRIES]
      omega
    have hcount : 65 + i + (i + (NPTENTRIES - 1)) / NPTENTRIES + (1 + n) =
        65 + (i + 1) + (i + 1 + (NPTENTRIES - 1)) / NPTENTRIES := by
      by_cases ht : tableOf s1 d (i / NPTENTRIES) = none
      · rw [if_pos ht] at hnone
        have hnot : ¬ i / NPTENTRIES * NPTENTRIES < i :=
          fun hlt => absurd ht (hiff.mpr (.inr hlt))
        rw [NPTENTRIES] at hnot ⊢
        omega
      · rw [if_neg ht] at hnone
        have hlt := (hiff.mp ht).resolve_left hkentry
        rw [NPTENTRIES] at hlt ⊢
        omega
    rwa [hcount] at hall

theorem wp_copyLoop (hparent : ∀ r f, own s0 pgdir r = some f → f ∉ s0.freelist)
    (hpresent : ∀ u < pages sz, lookup s0 pgdir u ≠ none) (hlt : sz < KERNBASE)
    (h : Copying k pgdir d s0 i s) (hi : i ≤ pages sz) (hfuel : sz ≤ (i + n) * PGSIZE)
    (hn : n < fuel) {Q : Option Nat → Kmem → Prop}
    (hfail : ∀ j s', Restored s0 s' → FirstDry s0 j → j < copyCalls sz → j % 1025 ≠ 66 → Q none s')
    (hleak : ∀ mem j s', Leaked mem s0 s' → FirstDry s0 j → j < copyCalls sz → j % 1025 = 66 →
      Q none s')
    (hok : ∀ s', Copying k pgdir d s0 (pages sz) s' → Q (some d) s') :
    wp E (copyLoop k pgdir sz d fuel (i * PGSIZE)) Q s := by
  induction fuel generalizing i n s with
  | zero => exact absurd hn (Nat.not_lt_zero n)
  | succ fuel ih =>
    rw [copyLoop]
    split
    next his =>
      have hip : i < pages sz := lt_pages_iff.mpr his
      have hiu : i < UPAGES := hip.trans_le (pages_le hlt.le)
      have him := hiu.trans_le upages_le_maxpages
      have hn0 : n ≠ 0 := by
        rintro rfl
        exact absurd his hfuel.not_gt
      obtain ⟨w, hw⟩ := Option.ne_none_iff_exists'.mp (hpresent i hip)
      obtain ⟨hp, t, ht, hpte⟩ := lookup_some hw
      have htab := (lookup_outside hparent h.outside him).1
      have hslot : own s0 pgdir (.page i) = some (w / PGSIZE) := by
        rw [Space.own_page hiu, hw, Option.map_some]
      have htfree := hparent (.table _) t ((Space.own_table (div_lt_of_lt_maxpages him)).trans ht)
      have hwfree := hparent _ _ hslot
      have hread : s.page t (i % NPTENTRIES) = w := by rw [h.outside t htfree, hpte]
      rw [wp_bind]
      apply wp_walkpgdir_look
      rw [pdx_page him, ptx_page, htab, ht]
      simp only [Option.map_some, wp_bind, wp_reads, hread]
      rw [if_neg (not_not.mpr hp), wp_bind]
      apply wp_kalloc
      · intro hdry
        simp only [wp_bind]
        have htick := h.space.tick (R := nil)
        apply wp_freevm htick.space
        intro s' hfreed
        apply hfail _ s' (h.restored (htick.freed hfreed)) (h.spent.firstDry hdry)
        · rw [copyCalls, NPTENTRIES]
          omega
        · rw [NPTENTRIES]
          omega
      · intro mem s1 hdrawn hpage hspent
        simp only [wp_bind, memmove, wp_modify]
        have hsrc : s1.page (PTE_ADDR w / PGSIZE) = s0.page (w / PGSIZE) := by
          rw [hpage, addr_div, h.outside _ hwfree]
        rw [hsrc]
        have hd := hdrawn.filled (s0.page (w / PGSIZE))
        have hspent2 : Spent 1 s (s1.fill mem (s0.page (w / PGSIZE))) := hspent.filled _
        have hcopy : (s1.fill mem (s0.page (w / PGSIZE))).page mem = s0.page (w / PGSIZE) := by
          simp [Kmem.fill]
        generalize s1.fill mem (s0.page (w / PGSIZE)) = s2 at *
        have hspace := hd.space h.space
        have hnone : lookup s2 d i = none := by
          rw [hd.lookup h.space him]
          exact h.absent i (Nat.le_refl i) hiu
        apply wp_mappages_page hspace hiu hnone (hd.loose h.space) (hd.ram h.space) (flags_lt w)
        · intro htnone hdry
          rw [if_pos (by decide), wp_bind]
          have htick := hspace.tick (R := nil)
          apply wp_freevm htick.space
          intro s' hfreed
          have hfreed' := htick.freed hfreed
          have hmem : ∀ f, Holds s2 d f ↔ f ∈ s0.freelist ∧ f ≠ mem := by
            intro f
            rw [← h.holds f, hd.holds h.space]
            constructor
            · intro hin
              exact ⟨.inr hin, fun heq => hd.loose h.space (heq ▸ hin)⟩
            · rintro ⟨heq | hin, hne⟩
              · exact absurd heq hne
              · exact hin
          have hidiv := div_lt_of_lt_maxpages him
          rw [hd.tableOf h.space] at htnone
          have hfirst : ¬ i / NPTENTRIES * NPTENTRIES < i :=
            fun hlt' => (h.tables _ hidiv).mpr (.inr hlt') htnone
          have hcount : 65 + i + (i + (NPTENTRIES - 1)) / NPTENTRIES + 1 =
              66 + 1025 * (i / NPTENTRIES) := by
            rw [NPTENTRIES] at hfirst ⊢
            omega
          have hspent3 := h.spent.trans hspent2
          rw [hcount] at hspent3
          apply hleak mem (66 + 1025 * (i / NPTENTRIES)) s'
          · constructor
            · exact hfreed'.nodup
            · exact (h.holds mem).mp ((hd.holds h.space).mpr (.inl rfl))
            · exact fun f => (hfreed'.mem f).trans (hmem f)
            · intro f hnot
              have hne : f ≠ mem := by
                rintro rfl
                exact hnot ((h.holds f).mp ((hd.holds h.space).mpr (.inl rfl)))
              rw [hfreed'.outside f fun hin => hnot ((hmem f).mp hin).1, hd.page f hne,
                h.outside f hnot]
            · exact hfreed'.oom.trans (hd.oom.trans h.oom)
          · exact hspent3.firstDry hdry
          · rw [copyCalls, NPTENTRIES] at *
            omega
          · omega
        · intro s3 hc hlook hpage3 hwalked hsome
          rw [next_page hiu]
          apply ih (h.mapped hiu hw hd hspent2 hc hlook (hpage3.trans hcopy) hwalked hsome) hip
          · rwa [Nat.add_assoc, Nat.add_sub_cancel' (Nat.one_le_iff_ne_zero.mpr hn0)]
          · omega
    next hge =>
      have hle : pages sz ≤ i := Nat.le_of_not_lt fun hlt' => hge (lt_pages_iff.mp hlt')
      have heq : i = pages sz := Nat.le_antisymm hi hle
      subst heq
      exact hok s h

/-- **`copyuvm`** of an address space none of whose frames is free. -/
theorem wp_copyuvm (hpool : Pool k s) (hparent : ∀ r f, own s pgdir r = some f → f ∉ s.freelist)
    (hpresent : ∀ u < pages sz, lookup s pgdir u ≠ none) (hlt : sz < KERNBASE)
    {Q : Option Nat → Kmem → Prop}
    (hfail : ∀ j s', Restored s s' → FirstDry s j → j < copyCalls sz → j % 1025 ≠ 66 → Q none s')
    (hleak : ∀ mem j s', Leaked mem s s' → FirstDry s j → j < copyCalls sz → j % 1025 = 66 →
      Q none s')
    (hok : ∀ d s', Copying k pgdir d s (pages sz) s' → Q (some d) s') :
    wp E (copyuvm k pgdir sz) Q s := by
  rw [copyuvm, wp_bind]
  apply wp_setupkvm hpool
  · intro j s' hrestored hdry hlt'
    apply hfail j s' hrestored hdry
    · rw [copyCalls, NPTENTRIES]
      omega
    · omega
  · intro d s1 hnew hnone htables hspent
    have hstart : Copying k pgdir d s 0 s1 := by
      constructor
      · exact hnew
      · exact fun u hu => absurd hu (Nat.not_lt_zero u)
      · exact fun u _ hu => hnone u hu
      · intro j hj
        rw [htables j hj]
        exact (or_iff_left (Nat.not_lt_zero _)).symm
      · exact hspent
    apply wp_copyLoop hparent hpresent hlt hstart (Nat.zero_le _) (n := UPAGES)
    · exact hlt.le
    · decide
    · exact hfail
    · exact hleak
    · exact hok d

/-- The copy `d` of the pages of `pgdir` below `sz`. -/
structure Copied (k : Kernel) (s s' : Kmem) (pgdir d sz : Nat) : Prop where
  /-- Same flags, same contents. -/
  same : ∀ u, u * PGSIZE < sz → ∃ w w', lookup s pgdir u = some w ∧ lookup s' d u = some w' ∧
    PTE_FLAGS w' = PTE_FLAGS w ∧ s'.page (w' / PGSIZE) = s.page (w / PGSIZE)
  /-- No frame of the parent. -/
  unshared : ∀ u < UPAGES, ∀ w', lookup s' d u = some w' →
    ∀ r f, own s pgdir r = some f → w' / PGSIZE ≠ f
  /-- No frame twice. -/
  once : ∀ u < UPAGES, ∀ v < UPAGES, ∀ w w', lookup s' d u = some w → lookup s' d v = some w' →
    w / PGSIZE = w' / PGSIZE → u = v
  rest : ∀ u < UPAGES, PGROUNDUP sz ≤ u * PGSIZE → lookup s' d u = none
  kernel : ∀ u, UPAGES ≤ u → u < MAXPAGES → lookup s' d u = mapOf (kmap k) u

theorem Copying.result (h : Copying k pgdir d s (pages sz) s')
    (hparent : ∀ r f, own s pgdir r = some f → f ∉ s.freelist) (hlt : sz < KERNBASE) :
    Copied k s s' pgdir d sz := by
  constructor
  · intro u hu
    obtain ⟨w, f, hw, hf, hpage⟩ := h.copied u (lt_pages_iff.mpr hu)
    have hflags := flags_lt w
    refine ⟨w, _, hw, hf, ?_, ?_⟩
    · rw [flags_entry hflags, flags_or_present (lookup_some hw).1]
    · rwa [entry_div hflags]
  · rintro u hu w' hw' r f hr rfl
    exact hparent r _ hr ((h.holds _).mp (Space.holds_page hu hw'))
  · exact fun u hu v hv w w' hw hw' heq => h.space.page_inj hu hv hw hw' heq
  · intro u hu hlo
    rw [pgroundup_eq hlt.le] at hlo
    exact h.absent u (Nat.le_of_mul_le_mul_right hlo (by decide)) hu
  · exact h.kernel

end

/-- **`copyuvm` copies faithfully and shares nothing.** It always returns; whatever it returns,
the parent's frames and its mapping are as before; it returns a copy if the calls of `kalloc`
it takes all find a frame; and the kernel half of the copy is what `setupkvm` makes. -/
theorem copyuvm_faithful (k : Kernel) (s : Kmem) (pgdir sz : Nat) (hpool : Pool k s)
    (hparent : ∀ r f, own s pgdir r = some f → f ∉ s.freelist)
    (hpresent : ∀ u, u * PGSIZE < sz → lookup s pgdir u ≠ none) (hlt : sz < KERNBASE) :
    ∃ r s', exec (copyuvm k pgdir sz) [] s = .done r s' ∧
      (∀ slot f, own s pgdir slot = some f → s'.page f = s.page f) ∧
      (∀ v < MAXPAGES, lookup s' pgdir v = lookup s pgdir v) ∧
      ((∀ j < copyCalls sz, s.oom (s.calls + j) = false ∧ j < s.freelist.length) → r ≠ none) ∧
      ∀ d, r = some d → Copied k s s' pgdir d sz ∧
        ∀ s1 d1 s2, Pool k s1 → exec (setupkvm k) [] s1 = .done (some d1) s2 →
          ∀ u, UPAGES ≤ u → u < MAXPAGES → lookup s' d u = lookup s2 d1 u := by
  have hsame : ∀ {s'}, (∀ f, f ∉ s.freelist → s'.page f = s.page f) →
      (∀ slot f, own s pgdir slot = some f → s'.page f = s.page f) ∧
        ∀ v < MAXPAGES, lookup s' pgdir v = lookup s pgdir v := by
    intro s' houtside
    refine ⟨fun slot f hf => houtside f (hparent slot f hf), fun v hv => ?_⟩
    exact (lookup_outside hparent houtside hv).2
  apply exec_done
  apply wp_copyuvm hpool hparent (fun u hu => hpresent u (lt_pages_iff.mp hu)) hlt
  · intro j s' hrestored hdry hcalls _
    obtain ⟨hpage, hlook⟩ := hsame hrestored.outside
    refine ⟨hpage, hlook, fun hfound => absurd (hfound j hcalls) hdry.not_found, ?_⟩
    exact fun d hd => absurd hd.symm (Option.some_ne_none d)
  · intro mem j s' hleaked hdry hcalls _
    obtain ⟨hpage, hlook⟩ := hsame hleaked.outside
    refine ⟨hpage, hlook, fun hfound => absurd (hfound j hcalls) hdry.not_found, ?_⟩
    exact fun d hd => absurd hd.symm (Option.some_ne_none d)
  · intro d s' hcopying
    obtain ⟨hpage, hlook⟩ := hsame hcopying.outside
    refine ⟨hpage, hlook, fun _ => Option.some_ne_none d, fun d' hd' => ?_⟩
    cases hd'
    refine ⟨hcopying.result hparent hlt, fun s1 d1 s2 hpool1 hdone u hku hum => ?_⟩
    have hsetup : wp never (setupkvm k)
        (fun r s => ∀ d, r = some d → lookup s d u = mapOf (kmap k) u) s1 := by
      apply wp_setupkvm hpool1
      · exact fun j s' _ _ _ d hd => absurd hd.symm (Option.some_ne_none d)
      · intro d2 s3 hnew _ _ _ d hd
        cases hd
        exact hnew.kernel u hku hum
    rw [hcopying.kernel u hku hum, post_of_done hsetup hdone d1 rfl]

/-- The machine with one page and plenty of memory. -/
def roomy : Kmem := { onePage with freelist := List.range' 261 100 }

theorem pool_roomy : Pool tiny roomy := by
  constructor
  · exact List.nodup_range'
  · intro f hf
    have hin : f ∈ List.range' 261 100 := hf
    rw [List.mem_range'_1] at hin
    rw [Ram, show V2P tiny.kend = 258 * 4096 from rfl, show PHYSTOP = 57344 * 4096 from rfl, PGSIZE]
    omega

theorem own_roomy {r : Slot} {f : Nat} (h : own roomy 258 r = some f) : f ∉ roomy.freelist := by
  have hin := own_onePage h
  have hrange : roomy.freelist = List.range' 261 100 := rfl
  rw [hrange, List.mem_range'_1]
  simp only [List.mem_cons, Prod.mk.injEq, List.not_mem_nil, or_false] at hin
  omega

theorem copyuvm_faithful_one_page :
    ∃ d s', exec (copyuvm tiny 258 PGSIZE) [] roomy = .done (some d) s' ∧
      Copied tiny roomy s' 258 d PGSIZE := by
  have hpresent : ∀ u, u * PGSIZE < PGSIZE → lookup roomy 258 u ≠ none := by
    intro u hu
    have hzero : u = 0 := by
      rw [PGSIZE] at hu
      omega
    subst hzero
    decide
  obtain ⟨r, s', hdone, -, -, hsome, hcopied⟩ := copyuvm_faithful tiny roomy 258 PGSIZE pool_roomy
    (fun _ _ => own_roomy) hpresent (by decide)
  have hcalls : copyCalls PGSIZE = 67 := by decide
  have hlen : roomy.freelist.length = 100 := by decide
  have hne : r ≠ none := by
    apply hsome
    intro j hj
    exact ⟨rfl, by omega⟩
  obtain ⟨d, rfl⟩ := Option.ne_none_iff_exists'.mp hne
  exact ⟨d, s', hdone, (hcopied d rfl).1⟩

end Xv6.Vm
