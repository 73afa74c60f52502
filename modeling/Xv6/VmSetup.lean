import Mathlib.Data.Finset.Card
import Xv6.VmSbrk

/-!
**Making and freeing address spaces**: `setupkvm` and `freevm`.

`setupkvm` builds a directory with the kernel's mappings and nothing else (`wp_setupkvm`);
`freevm` gives back everything a directory holds (`wp_freevm`).

How many calls of `kalloc` have been made is part of the lemmas: one for each page table, and
one for the directory. `FirstDry` says which call is the first to find nothing.
-/

namespace Xv6.Vm

open Program List

/-! ### Calls of `kalloc` -/

/-- Call `j` of `kalloc` from now is the first to find nothing. -/
structure FirstDry (s : Kmem) (j : Nat) : Prop where
  found : ∀ i < j, s.oom (s.calls + i) = false ∧ i < s.freelist.length
  dry : s.oom (s.calls + j) = true ∨ s.freelist.length ≤ j

section

variable {n : Nat} {s s' : Kmem}

theorem Spent.firstDry (h : Spent n s s') (hdry : s'.Dry) : FirstDry s n := by
  refine ⟨h.found, ?_⟩
  rcases hdry with hoom | hnil
  · rw [h.oom, h.calls] at hoom
    exact .inl hoom
  · rw [h.freelist, drop_eq_nil_iff] at hnil
    exact .inr hnil

theorem FirstDry.not_found (h : FirstDry s n) :
    ¬ (s.oom (s.calls + n) = false ∧ n < s.freelist.length) := by
  rintro ⟨hoom, hlen⟩
  rcases h.dry with hdry | hdry
  · rw [hoom] at hdry
    cases hdry
  · exact absurd hlen hdry.not_gt

end

/-! ### Page tables -/

/-- The entries of the directory that have a page table. -/
def tables (s : Kmem) (pd : Nat) : Finset Nat :=
  (Finset.range NPDENTRIES).filter fun i => tableOf s pd i ≠ none

/-- Page tables for the entries in `I` have been attached, with one call of `kalloc` for each new
one. -/
structure Tabled (pd : Nat) (I : Nat → Prop) (s s' : Kmem) : Prop where
  mem : ∀ i < NPDENTRIES, tableOf s' pd i ≠ none ↔ tableOf s pd i ≠ none ∨ I i
  spent : ∃ n, Spent n s s' ∧ (tables s' pd).card = (tables s pd).card + n

/-- `kalloc` has found nothing for the page table of one of the entries in `I`; those that have
been attached are for others of them. -/
structure Stuck (pd : Nat) (I : Nat → Prop) (s s' : Kmem) : Prop where
  tabled : ∃ J, (∀ i, J i → I i) ∧ Tabled pd J s s'
  missing : ∃ i < NPDENTRIES, I i ∧ tableOf s' pd i = none
  dry : s'.Dry

section

variable {k : Kernel} {pd v i n p perm : Nat} {I I' : Nat → Prop} {E : String → Prop}
  {s s' s'' : Kmem}

theorem mem_tables : i ∈ tables s pd ↔ i < NPDENTRIES ∧ tableOf s pd i ≠ none := by
  rw [tables, Finset.mem_filter, Finset.mem_range]

theorem Tabled.trans (h : Tabled pd I s s') (h' : Tabled pd I' s' s'') :
    Tabled pd (fun i => I i ∨ I' i) s s'' := by
  constructor
  · intro i hi
    rw [h'.mem i hi, h.mem i hi, or_assoc]
  · obtain ⟨n, hn, hcard⟩ := h.spent
    obtain ⟨m, hm, hcard'⟩ := h'.spent
    exact ⟨n + m, hn.trans hm, by rw [hcard', hcard, Nat.add_assoc]⟩

theorem Tabled.congr (h : Tabled pd I s s') (hI : ∀ i, I i ↔ I' i) : Tabled pd I' s s' :=
  ⟨fun i hi => (h.mem i hi).trans (or_congr_right (hI i)), h.spent⟩

theorem Tabled.refl : Tabled pd (fun _ => False) s s :=
  ⟨fun _ _ => (or_iff_left id).symm, 0, .refl, (Nat.add_zero _).symm⟩

theorem Stuck.mono (h : Stuck pd I s s') (hI : ∀ i, I i → I' i) : Stuck pd I' s s' := by
  obtain ⟨J, hJ, htabled⟩ := h.tabled
  obtain ⟨i, hi, hin, hnone⟩ := h.missing
  exact ⟨⟨J, fun i hj => hI i (hJ i hj), htabled⟩, ⟨i, hi, hI i hin, hnone⟩, h.dry⟩

theorem Tabled.stuck (h : Tabled pd I s s') (h' : Stuck pd I' s' s'') :
    Stuck pd (fun i => I i ∨ I' i) s s'' := by
  obtain ⟨J, hJ, htabled⟩ := h'.tabled
  obtain ⟨i, hi, hin, hnone⟩ := h'.missing
  exact ⟨⟨_, fun i => Or.imp_right (hJ i), h.trans htabled⟩, ⟨i, hi, .inr hin, hnone⟩, h'.dry⟩

theorem Walked.tabled (h : Walked pd i s s') (hi : i < NPDENTRIES)
    (hsome : tableOf s' pd i ≠ none) : Tabled pd (· = i) s s' := by
  have hmem : ∀ j < NPDENTRIES, tableOf s' pd j ≠ none ↔ tableOf s pd j ≠ none ∨ j = i := by
    intro j _
    by_cases hj : j = i
    · exact iff_of_true (hj ▸ hsome) (.inr hj)
    · rw [h.other j hj]
      exact (or_iff_left hj).symm
  refine ⟨hmem, ?_⟩
  obtain ⟨n, hspent, hn⟩ := h.spent
  refine ⟨n, hspent, ?_⟩
  by_cases hnone : tableOf s pd i = none
  · rw [if_pos hnone] at hn
    have hnot : i ∉ tables s pd := fun hin => (mem_tables.mp hin).2 hnone
    have hinsert : tables s' pd = insert i (tables s pd) := by
      ext j
      rw [Finset.mem_insert, mem_tables, mem_tables]
      constructor
      · rintro ⟨hlt, hj⟩
        rcases (hmem j hlt).mp hj with hj | rfl
        · exact .inr ⟨hlt, hj⟩
        · exact .inl rfl
      · rintro (rfl | ⟨hlt, hj⟩)
        · exact ⟨hi, hsome⟩
        · exact ⟨hlt, (hmem j hlt).mpr (.inl hj)⟩
    rw [hinsert, Finset.card_insert_of_notMem hnot, hn]
  · rw [if_neg hnone] at hn
    have hsame : tables s' pd = tables s pd := by
      ext j
      rw [mem_tables, mem_tables]
      apply and_congr_right
      intro hlt
      rw [hmem j hlt]
      apply or_iff_left_of_imp
      rintro rfl
      exact hnone
    rw [hsame, hn, Nat.add_zero]

/-! ### The kernel's mappings -/

theorem wp_mapLoop_step {last fuel : Nat} (h : Space k s pd) (hk : UPAGES ≤ v) (hv : v < MAXPAGES)
    (hnone : lookup s pd v = none) {Q : Int → Kmem → Prop}
    (hfail : Stuck pd (· = v / NPTENTRIES) s s → Q (-1) s.tick)
    (hok : ∀ s', Changes k pd (· = v) nil s s' → lookup s' pd v = some (entry p perm) →
      Tabled pd (· = v / NPTENTRIES) s s' →
      wp E (if v * PGSIZE = last then return 0
        else mapLoop pd last perm fuel ((v * PGSIZE + PGSIZE) % 2 ^ 32)
          ((p * PGSIZE + PGSIZE) % 2 ^ 32)) Q s') :
    wp E (mapLoop pd last perm (fuel + 1) (v * PGSIZE) (p * PGSIZE)) Q s := by
  have hi := div_lt_of_lt_maxpages hv
  apply wp_mapLoop h hv hnone
  · intro htnone hdry
    exact hfail ⟨⟨_, fun _ hfalse => hfalse.elim, .refl⟩, ⟨_, hi, rfl, htnone⟩, hdry⟩
  intro t s1 hc ht hwalked
  have hpd : pd ≠ t := (hc.space.table_ne_dir hi ht).symm
  apply hok
  · exact (hc.mono fun _ hu => hu.elim).then (changes_kernel hc.space hv hk ht)
  · rw [lookup_store_self hc.space hv ht]
    exact if_pos present_entry
  · apply (hwalked.store hpd).tabled hi
    rw [tableOf_store hpd, ht]
    exact Option.some_ne_none t

theorem next_kernel (hv : v + 1 < MAXPAGES) :
    (v * PGSIZE + PGSIZE) % 2 ^ 32 = (v + 1) * PGSIZE := by
  have hlt : v + 1 < 1048576 := hv
  rw [PGSIZE]
  omega

/-- **`mappages` of `n + 1` pages of the kernel half.** -/
theorem wp_mapLoop_kernel {last fuel : Nat} (h : Space k s pd) (hk : UPAGES ≤ v)
    (hv : v + n < MAXPAGES) (hp : p + n < MAXPAGES)
    (hnone : ∀ u, Within v (v + n + 1) u → lookup s pd u = none)
    (hlast : last = (v + n) * PGSIZE) (hfuel : n < fuel) {Q : Int → Kmem → Prop}
    (hfail : ∀ s', Changes k pd (UPAGES ≤ ·) nil s s' →
      Stuck pd (fun i => ∃ u, Within v (v + n + 1) u ∧ u / NPTENTRIES = i) s s' → Q (-1) s'.tick)
    (hok : ∀ s', Changes k pd (Within v (v + n + 1)) nil s s' →
      (∀ u, Within v (v + n + 1) u → lookup s' pd u = some (entry (p + (u - v)) perm)) →
      Tabled pd (fun i => ∃ u, Within v (v + n + 1) u ∧ u / NPTENTRIES = i) s s' → Q 0 s') :
    wp E (mapLoop pd last perm fuel (v * PGSIZE) (p * PGSIZE)) Q s := by
  induction n generalizing v p s fuel with
  | zero =>
    obtain ⟨fuel, rfl⟩ : ∃ m, fuel = m + 1 := ⟨fuel - 1, by omega⟩
    have honly : ∀ u, Within v (v + 0 + 1) u ↔ u = v := fun u => by rw [Within]; omega
    apply wp_mapLoop_step h hk hv (hnone v ((honly v).mpr rfl))
    · intro hstuck
      apply hfail s h.refl
      apply hstuck.mono
      rintro i rfl
      exact ⟨v, (honly v).mpr rfl, rfl⟩
    · intro s' hc hlook htabled
      rw [Nat.add_zero] at hlast
      rw [if_pos hlast.symm]
      apply hok
      · exact hc.mono fun u hu => (honly u).mpr hu
      · intro u hu
        rw [(honly u).mp hu, Nat.sub_self, Nat.add_zero, hlook]
      apply htabled.congr
      intro i
      simp only [honly, exists_eq_left]
      exact eq_comm
  | succ n ih =>
    obtain ⟨fuel, rfl⟩ : ∃ m, fuel = m + 1 := ⟨fuel - 1, by omega⟩
    have hfirst : Within v (v + (n + 1) + 1) v := ⟨Nat.le_refl v, by omega⟩
    have hsplit : ∀ u, Within v (v + (n + 1) + 1) u ↔ u = v ∨ Within (v + 1) (v + 1 + n + 1) u :=
      fun u => by rw [Within, Within]; omega
    apply wp_mapLoop_step h hk (by omega) (hnone v hfirst)
    · intro hstuck
      apply hfail s h.refl
      apply hstuck.mono
      rintro i rfl
      exact ⟨v, hfirst, rfl⟩
    · intro s1 hc hlook htabled
      have hne : v * PGSIZE ≠ last := by
        rw [hlast]
        intro heq
        have := Nat.eq_of_mul_eq_mul_right (by decide) heq
        omega
      rw [if_neg hne, next_kernel (by omega), next_kernel (by omega)]
      apply ih hc.space (hk.trans (Nat.le_add_right v 1))
      · omega
      · omega
      · intro u hu
        have huv : u ≠ v := fun heq => absurd (heq ▸ hu.1) (Nat.not_succ_le_self v)
        have hum : u < MAXPAGES := by
          have := hu.2
          omega
        rw [hc.same u hum huv]
        exact hnone u ((hsplit u).mpr (.inr hu))
      · rw [hlast]
        congr 1
        omega
      · omega
      · intro s' hc' hstuck
        apply hfail
        · exact (hc.mono fun u hu => hu ▸ hk).then hc'
        apply (htabled.stuck hstuck).mono
        rintro i (rfl | ⟨u, hu, rfl⟩)
        · exact ⟨v, hfirst, rfl⟩
        · exact ⟨u, (hsplit u).mpr (.inr hu), rfl⟩
      · intro s' hc' hlook' htabled'
        apply hok
        · apply (hc.mono _).then (hc'.mono _)
          · exact fun u hu => (hsplit u).mpr (.inl hu)
          · exact fun u hu => (hsplit u).mpr (.inr hu)
        · intro u hu
          rcases (hsplit u).mp hu with rfl | hu
          · have hout : ¬ Within (u + 1) (u + 1 + n + 1) u :=
              fun hin => absurd hin.1 (Nat.not_succ_le_self u)
            rw [hc'.same u (by omega) hout, hlook, Nat.sub_self, Nat.add_zero]
          rw [hlook' u hu]
          have := hu.1
          congr 2
          omega
        · apply (htabled.trans htabled').congr
          intro i
          simp only [hsplit, or_and_right, exists_or, exists_eq_left]
          rw [eq_comm]

end

/-! ### `freevm` -/

section

variable {k : Kernel} {pd : Nat} {E : String → Prop} {s : Kmem}

theorem wp_freeTables {is : List Nat} (hpd : ∀ i ∈ is, ∀ t, tableOf s pd i = some t → t ≠ pd)
    (hram : ∀ i ∈ is, ∀ t, tableOf s pd i = some t → Ram k t) {Q : Unit → Kmem → Prop}
    (hQ : ∀ s', s'.freelist = (is.filterMap (tableOf s pd)).reverse ++ s.freelist →
      (∀ f, f ∉ is.filterMap (tableOf s pd) → s'.page f = s.page f) → s'.oom = s.oom → Q () s') :
    wp E (freeTables k pd is) Q s := by
  induction is generalizing s with
  | nil => exact hQ s rfl (fun _ _ => rfl) rfl
  | cons i is ih =>
    rw [freeTables, wp_bind, wp_reads, wp_bind, wp_onlyIf]
    constructor
    · intro hp
      have ht : tableOf s pd i = some (s.page pd i / PGSIZE) := if_pos hp
      have hne := hpd i (.head _) _ ht
      rw [addr_div]
      apply wp_kfree (hram i (.head _) _ ht)
      -- the directory itself has not changed
      have htables : ∀ j, tableOf ((s.fill (s.page pd i / PGSIZE) fun _ => 1 * 0x01010101).push
          (s.page pd i / PGSIZE)) pd j = tableOf s pd j := by
        intro j
        apply tableOf_congr
        simp [Kmem.push, Kmem.fill, hne.symm]
      apply ih
      · intro j hj t htj
        rw [htables j] at htj
        exact hpd j (mem_cons_of_mem i hj) t htj
      · intro j hj t htj
        rw [htables j] at htj
        exact hram j (mem_cons_of_mem i hj) t htj
      intro s' hfree hpage hoom
      simp only [htables] at hfree hpage
      have hcons : (i :: is).filterMap (tableOf s pd) =
          (s.page pd i / PGSIZE) :: is.filterMap (tableOf s pd) :=
        filterMap_cons_some ht
      apply hQ
      · rw [hfree, hcons, reverse_cons, append_assoc]
        rfl
      · intro f hf
        rw [hcons, mem_cons, not_or] at hf
        rw [hpage f hf.2]
        simp [Kmem.push, Kmem.fill, hf.1]
      · exact hoom
    · intro hp
      have ht : tableOf s pd i = none := if_neg hp
      have hcons : (i :: is).filterMap (tableOf s pd) = is.filterMap (tableOf s pd) :=
        filterMap_cons_none ht
      apply ih
      · exact fun j hj => hpd j (mem_cons_of_mem i hj)
      · exact fun j hj => hram j (mem_cons_of_mem i hj)
      · intro s' hfree hpage hoom
        rw [← hcons] at hfree hpage
        exact hQ s' hfree hpage hoom

/-- All that directory `pd` held is free, and nothing else has changed. -/
structure Freed (pd : Nat) (s s' : Kmem) : Prop where
  nodup : s'.freelist.Nodup
  mem : ∀ f, f ∈ s'.freelist ↔ Holds s pd f
  outside : ∀ f, ¬ Holds s pd f → s'.page f = s.page f
  oom : s'.oom = s.oom

theorem wp_freevm (h : Space k s pd) {Q : Unit → Kmem → Prop}
    (hQ : ∀ s', Freed pd s s' → Q () s') : wp E (freevm k (some pd)) Q s := by
  rw [freevm, wp_bind]
  apply wp_deallocuvm h (Nat.le_refl KERNBASE)
  intro s1 hc hnone _
  have h1 := hc.space
  have hholds : ∀ f, Holds s1 pd f ↔ Holds s pd f := fun f => (hc.holds f).trans (or_iff_left id)
  have hlt : ∀ i, i ∈ List.range NPDENTRIES ↔ i < NPDENTRIES := fun i => mem_range
  have hrange : (List.range NPDENTRIES).Nodup := nodup_range
  generalize List.range NPDENTRIES = is at hlt hrange ⊢
  rw [wp_bind]
  apply wp_freeTables
  · exact fun i hi t ht => h1.table_ne_dir ((hlt i).mp hi) ht
  · exact fun i hi t ht => h1.ram t (Space.holds_table ((hlt i).mp hi) ht)
  intro s2 hfree hpage hoom
  apply wp_kfree (h1.ram pd Space.holds_dir)
  have hmem : ∀ t, t ∈ is.filterMap (tableOf s1 pd) ↔
      ∃ i < NPDENTRIES, tableOf s1 pd i = some t := by
    intro t
    simp only [mem_filterMap, hlt]
  -- no user page is left, so these are all
  have hall : ∀ f, Holds s1 pd f ↔
      f = pd ∨ (f ∈ is.filterMap (tableOf s1 pd) ∨ f ∈ s1.freelist) := by
    intro f
    rw [hmem]
    constructor
    · rintro (hf | ⟨r, hr⟩)
      · exact .inr (.inr hf)
      cases r with
      | dir => exact .inl (Option.some.inj hr).symm
      | table i =>
        rw [own] at hr
        split at hr
        next hi => exact .inr (.inl ⟨i, hi, hr⟩)
        · cases hr
      | page u =>
        rw [own] at hr
        split at hr
        next hu =>
          rw [hnone u ⟨Nat.zero_le u, hu⟩] at hr
          cases hr
        · cases hr
    · rintro (rfl | ⟨i, hi, ht⟩ | hf)
      · exact Space.holds_dir
      · exact Space.holds_table hi ht
      · exact .ofPool hf
  apply hQ
  constructor
  · change (pd :: s2.freelist).Nodup
    rw [hfree, nodup_cons, mem_append, mem_reverse, nodup_append, nodup_reverse]
    refine ⟨?_, ?_, h1.excl.nodup, ?_⟩
    · rintro (hin | hin)
      · obtain ⟨i, hi, ht⟩ := (hmem pd).mp hin
        exact h1.table_ne_dir hi ht rfl
      · exact h1.excl.apart .dir pd rfl hin
    · apply pairwise_filterMap.mpr
      apply hrange.imp_of_mem
      intro i j hi hj hij t ht t' ht' heq
      exact hij (h1.table_inj ((hlt i).mp hi) ((hlt j).mp hj) ht (heq ▸ ht'))
    · intro t ht f hf heq
      obtain ⟨i, hi, ht⟩ := (hmem t).mp (mem_reverse.mp ht)
      exact h1.excl.apart (.table i) t ((Space.own_table hi).trans ht) (heq ▸ hf)
  · intro f
    change f ∈ pd :: s2.freelist ↔ _
    rw [← hholds f, hall f, hfree, mem_cons, mem_append, mem_reverse]
  · intro f hf
    have hf1 := fun hin => hf ((hholds f).mp hin)
    have hne : f ≠ pd := fun heq => hf1 ((hall f).mpr (.inl heq))
    have hnot : f ∉ is.filterMap (tableOf s1 pd) :=
      fun hin => hf1 ((hall f).mpr (.inr (.inl hin)))
    rw [← hc.outside f hf id, ← hpage f hnot]
    simp [Kmem.push, Kmem.fill, hne]
  · exact hoom.trans hc.oom

theorem Changes.freed {R : Nat → Prop} {s' s'' : Kmem} (h : Changes k pd R nil s s')
    (hf : Freed pd s' s'') : Freed pd s s'' := by
  have hholds : ∀ f, Holds s' pd f ↔ Holds s pd f := fun f => (h.holds f).trans (or_iff_left id)
  constructor
  · exact hf.nodup
  · exact fun f => (hf.mem f).trans (hholds f)
  · intro f hnot
    rw [hf.outside f fun hin => hnot ((hholds f).mp hin), h.outside f hnot id]
  · exact hf.oom.trans h.oom

end

/-! ### `setupkvm` -/

namespace Kmap

/-- The first page of a line. -/
def first (m : Kmap) : Nat := m.virt / PGSIZE

/-- How many pages a line maps. -/
def count (m : Kmap) : Nat := (m.phys_end + (2 ^ 32 - m.phys_start)) % 2 ^ 32 / PGSIZE

/-- Does the line map page `v`? -/
def Covers (m : Kmap) (v : Nat) : Prop := Within m.first (m.first + m.count) v

instance (m : Kmap) (v : Nat) : Decidable (m.Covers v) := inferInstanceAs (Decidable (Within _ _ _))

/-- A line of whole pages in the kernel half. -/
structure Fits (m : Kmap) : Prop where
  virt : m.virt = m.first * PGSIZE
  phys : m.phys_start = m.phys_start / PGSIZE * PGSIZE
  size : (m.phys_end + (2 ^ 32 - m.phys_start)) % 2 ^ 32 = m.count * PGSIZE
  pos : 0 < m.count
  kernel : UPAGES ≤ m.first
  top : m.first + m.count ≤ MAXPAGES
  ram : m.phys_start / PGSIZE + m.count ≤ MAXPAGES

/-- The PTE of page `v`. -/
def pte (m : Kmap) (v : Nat) : Nat := entry (m.phys_start / PGSIZE + (v - m.first)) m.perm

end Kmap

/-- What the lines map page `v` to. -/
def mapOf (ms : List Kmap) (v : Nat) : Option Nat := (ms.find? fun m => m.Covers v).map (·.pte v)

variable {k : Kernel} {pd b v : Nat} {m : Kmap} {ms : List Kmap} {E : String → Prop} {s : Kmem}

theorem mapOf_cons (m : Kmap) (ms : List Kmap) (v : Nat) :
    mapOf (m :: ms) v = if m.Covers v then some (m.pte v) else mapOf ms v := by
  rw [mapOf, List.find?_cons]
  by_cases hc : m.Covers v
  · rw [decide_eq_true hc, if_pos hc]
    rfl
  · rw [decide_eq_false hc, if_neg hc]
    rfl

theorem mapOf_eq_none (h : ∀ m ∈ ms, v < m.first) : mapOf ms v = none := by
  rw [mapOf, Option.map_eq_none_iff, List.find?_eq_none]
  intro m hm
  rw [decide_eq_true_eq]
  exact fun hin => absurd hin.1 (h m hm).not_ge

theorem wp_mappages_line (h : Space k s pd) (hm : m.Fits)
    (hnone : ∀ u, m.Covers u → lookup s pd u = none) {Q : Int → Kmem → Prop}
    (hfail : ∀ s', Changes k pd (UPAGES ≤ ·) nil s s' →
      Stuck pd (fun i => ∃ u, m.Covers u ∧ u / NPTENTRIES = i) s s' → Q (-1) s'.tick)
    (hok : ∀ s', Changes k pd m.Covers nil s s' →
      (∀ u, m.Covers u → lookup s' pd u = some (m.pte u)) →
      Tabled pd (fun i => ∃ u, m.Covers u ∧ u / NPTENTRIES = i) s s' → Q 0 s') :
    wp E (mappages pd m.virt ((m.phys_end + (2 ^ 32 - m.phys_start)) % 2 ^ 32) m.phys_start
      m.perm) Q s := by
  obtain ⟨n, hn⟩ : ∃ n, m.count = n + 1 := ⟨m.count - 1, (Nat.sub_add_cancel hm.pos).symm⟩
  have htop := hm.top
  have hram := hm.ram
  have hdown : PGROUNDDOWN (m.first * PGSIZE) = m.first * PGSIZE := by
    rw [PGROUNDDOWN, Nat.mul_div_cancel _ (by decide)]
  rw [mappages, hm.size, hm.virt, hdown, hn, last_page (by omega), hm.phys]
  have hcovers : m.Covers = Within m.first (m.first + n + 1) := by
    funext u
    rw [Kmap.Covers, hn, Nat.add_assoc]
  rw [hcovers] at hnone hfail hok
  apply wp_mapLoop_kernel h hm.kernel (by omega) (by omega) hnone rfl
  · omega
  · exact hfail
  · exact hok

/-- The lines from `ms` on: nothing is mapped at page `b` or above yet. -/
theorem wp_kmapLoop (h : Space k s pd) (hfits : ∀ m ∈ ms, m.Fits)
    (hsorted : ms.Pairwise fun m m' => m.first + m.count ≤ m'.first) (hb : UPAGES ≤ b)
    (hbound : ∀ m ∈ ms, b ≤ m.first)
    (hnone : ∀ u, b ≤ u → u < MAXPAGES → lookup s pd u = none) {Q : Option Nat → Kmem → Prop}
    (hfail : ∀ s1 s', Freed pd s s' →
      Stuck pd (fun i => ∃ m ∈ ms, ∃ u, m.Covers u ∧ u / NPTENTRIES = i) s s1 → Q none s')
    (hok : ∀ s', Changes k pd (b ≤ ·) nil s s' →
      (∀ u, b ≤ u → u < MAXPAGES → lookup s' pd u = mapOf ms u) →
      Tabled pd (fun i => ∃ m ∈ ms, ∃ u, m.Covers u ∧ u / NPTENTRIES = i) s s' →
      Q (some pd) s') :
    wp E (kmapLoop k pd ms) Q s := by
  induction ms generalizing s b with
  | nil =>
    apply hok s h.refl hnone
    refine ⟨fun i _ => ?_, 0, .refl, (Nat.add_zero _).symm⟩
    simp
  | cons m ms ih =>
    have hm := hfits m mem_cons_self
    have hbm := hbound m mem_cons_self
    have hge : ∀ u, m.Covers u → b ≤ u := fun u hu => hbm.trans hu.1
    have hmax : ∀ u, m.Covers u → u < MAXPAGES := fun u hu => hu.2.trans_le hm.top
    obtain ⟨hfirst, hsorted⟩ := pairwise_cons.mp hsorted
    simp only [kmapLoop, wp_bind]
    apply wp_mappages_line h hm fun u hu => hnone u (hge u hu) (hmax u hu)
    · intro s1 hc hstuck
      rw [if_pos (by decide), wp_bind]
      have htick := hc.then hc.space.tick
      apply wp_freevm htick.space
      intro s2 hfreed
      apply hfail s1 s2 (htick.freed hfreed)
      exact hstuck.mono fun i hi => ⟨m, .head _, hi⟩
    · intro s1 hc hlook htabled
      have hle : b ≤ m.first + m.count := hbm.trans (Nat.le_add_right _ _)
      apply ih hc.space (fun m' hm' => hfits m' (mem_cons_of_mem m hm')) hsorted
        (hb.trans hle) hfirst
      · intro u hu hum
        rw [hc.same u hum fun hin => absurd hin.2 hu.not_gt]
        exact hnone u (hle.trans hu) hum
      · intro s2 s3 hfreed hstuck
        apply hfail s2 s3 (hc.freed hfreed)
        apply (htabled.stuck hstuck).mono
        rintro i (hi | ⟨m', hm', hi⟩)
        · exact ⟨m, .head _, hi⟩
        · exact ⟨m', mem_cons_of_mem m hm', hi⟩
      · intro s2 hc2 hlook2 htabled2
        apply hok
        · apply (hc.mono hge).then (hc2.mono _)
          exact fun u hu => hle.trans hu
        · intro u hu hum
          rw [mapOf_cons]
          by_cases hhi : m.first + m.count ≤ u
          · rw [if_neg fun hin => absurd hin.2 hhi.not_gt, hlook2 u hhi hum]
          rw [hc2.same u hum hhi]
          by_cases hin : m.Covers u
          · rw [if_pos hin, hlook u hin]
          have hlow : u < m.first := by
            rw [Kmap.Covers, Within] at hin
            omega
          rw [if_neg hin, hc.same u hum hin, hnone u hu hum]
          refine (mapOf_eq_none fun m' hm' => ?_).symm
          exact hlow.trans_le ((Nat.le_add_right _ _).trans (hfirst m' hm'))
        · apply (htabled.trans htabled2).congr
          intro i
          simp only [mem_cons, or_and_right, exists_or, exists_eq_left]

/-- A line that maps `n` pages from page `v` to frame `f`. -/
theorem Kmap.fits_of {f n : Nat} (hvirt : m.virt = v * PGSIZE) (hphys : m.phys_start = f * PGSIZE)
    (hsize : (m.phys_end + (2 ^ 32 - m.phys_start)) % 2 ^ 32 = n * PGSIZE) (hpos : 0 < n)
    (hk : UPAGES ≤ v) (htop : v + n ≤ MAXPAGES) (hram : f + n ≤ MAXPAGES) :
    m.Fits ∧ m.first = v ∧ m.count = n := by
  have hfirst : m.first = v := by rw [Kmap.first, hvirt, Nat.mul_div_cancel _ (by decide)]
  have hcount : m.count = n := by rw [Kmap.count, hsize, Nat.mul_div_cancel _ (by decide)]
  have hframe : m.phys_start / PGSIZE = f := by rw [hphys, Nat.mul_div_cancel _ (by decide)]
  refine ⟨?_, hfirst, hcount⟩
  constructor
  · rw [hfirst, hvirt]
  · rw [hframe, hphys]
  · rw [hcount, hsize]
  · rw [hcount]
    exact hpos
  · rw [hfirst]
    exact hk
  · rw [hfirst, hcount]
    exact htop
  · rw [hframe, hcount]
    exact hram

/-- Where the lines of `kmap` begin, and how many pages they have. -/
theorem kmap_lines (k : Kernel) :
    ∃ d, k.data = d * PGSIZE ∧ 0x80100 < d ∧ d < 0x8E000 ∧
      (kmap k).map (fun m => (m.first, m.count)) =
        [(0x80000, 0x100), (0x80100, d - 0x80100), (d, 0x8E000 - d), (0xFE000, 0x2000)] ∧
      ∀ m ∈ kmap k, m.Fits := by
  obtain ⟨d, hd⟩ : ∃ d, k.data = d * PGSIZE :=
    ⟨k.data / PGSIZE, (Nat.div_mul_cancel (Nat.dvd_of_mod_eq_zero k.aligned)).symm⟩
  have hlink : KERNLINK = 0x80100 * PGSIZE := rfl
  have hstop : KERNBASE + PHYSTOP = 0x8E000 * PGSIZE := rfl
  have htext := k.text
  have hfits := k.ends.trans_lt k.fits
  rw [hd, hlink] at htext
  rw [hd, hstop] at hfits
  have hlo := Nat.lt_of_mul_lt_mul_right htext
  have hhi := Nat.lt_of_mul_lt_mul_right hfits
  have hv2p : V2P k.data = (d - 0x80000) * PGSIZE := by
    rw [V2P, hd, PGSIZE, KERNBASE]
    omega
  have hpg : PGSIZE = 4096 := rfl
  have hup : UPAGES = 0x80000 := rfl
  have hmax : MAXPAGES = 0x100000 := rfl
  have hsize2 : ((d - 0x80000) * PGSIZE + (2 ^ 32 - 0x100 * PGSIZE)) % 2 ^ 32 =
      (d - 0x80100) * PGSIZE := by
    rw [hpg]
    omega
  have hsize3 : (0xE000 * PGSIZE + (2 ^ 32 - (d - 0x80000) * PGSIZE)) % 2 ^ 32 =
      (0x8E000 - d) * PGSIZE := by
    rw [hpg]
    omega
  rw [← hv2p] at hsize2 hsize3
  have h1 := Kmap.fits_of (m := ⟨KERNBASE, 0, EXTMEM, PTE_W⟩) (v := 0x80000) (f := 0) (n := 0x100)
    rfl rfl rfl (by decide) (by decide) (by decide) (by decide)
  have h2 := Kmap.fits_of (m := ⟨KERNLINK, V2P KERNLINK, V2P k.data, 0⟩) (v := 0x80100)
    (f := 0x100) rfl rfl hsize2 (by omega) (by decide) (by omega) (by omega)
  have h3 := Kmap.fits_of (m := ⟨k.data, V2P k.data, PHYSTOP, PTE_W⟩) hd hv2p hsize3
    (by omega) (by omega) (by omega) (by omega)
  have h4 := Kmap.fits_of (m := ⟨DEVSPACE, DEVSPACE, 0, PTE_W⟩) (v := 0xFE000) (f := 0xFE000)
    (n := 0x2000) rfl rfl rfl (by decide) (by decide) (by decide) (by decide)
  refine ⟨d, hd, hlo, hhi, ?_, ?_⟩
  · simp only [kmap, map_cons, map_nil, h1.2, h2.2, h3.2, h4.2]
  intro m hm
  simp only [kmap, mem_cons, not_mem_nil, or_false] at hm
  rcases hm with rfl | rfl | rfl | rfl
  · exact h1.1
  · exact h2.1
  · exact h3.1
  · exact h4.1

theorem kmap_sorted (k : Kernel) :
    (kmap k).Pairwise fun m m' => m.first + m.count ≤ m'.first := by
  obtain ⟨d, -, hlo, hhi, hlines, -⟩ := kmap_lines k
  have hpairs : ((kmap k).map fun m => (m.first, m.count)).Pairwise fun x y => x.1 + x.2 ≤ y.1 := by
    rw [hlines]
    simp
    omega
  exact pairwise_map.mp hpairs

/-- Does the kernel half need this entry of the directory? -/
def Kentry (i : Nat) : Prop := Within 512 568 i ∨ Within 1016 1024 i

instance : DecidablePred Kentry := fun _ => inferInstanceAs (Decidable (_ ∨ _))

theorem covers_iff (k : Kernel) (i : Nat) :
    (∃ m ∈ kmap k, ∃ u, m.Covers u ∧ u / NPTENTRIES = i) ↔ Kentry i := by
  obtain ⟨d, -, hlo, hhi, hlines, -⟩ := kmap_lines k
  have hmem : ∀ x ∈ [(0x80000, 0x100), (0x80100, d - 0x80100), (d, 0x8E000 - d), (0xFE000, 0x2000)],
      ∃ m ∈ kmap k, (m.first, m.count) = x := by
    intro x hx
    rw [← hlines] at hx
    exact mem_map.mp hx
  constructor
  · rintro ⟨m, hm, u, hu, rfl⟩
    have hin : (m.first, m.count) ∈ (kmap k).map fun m => (m.first, m.count) :=
      mem_map_of_mem hm
    rw [hlines] at hin
    simp only [mem_cons, Prod.mk.injEq, not_mem_nil, or_false] at hin
    rw [Kmap.Covers, Within] at hu
    rw [Kentry, Within, Within, NPTENTRIES]
    omega
  · intro hi
    -- one page of each entry is enough, the first of its page table
    have hpage : i * NPTENTRIES / NPTENTRIES = i := Nat.mul_div_cancel i (by decide)
    have hcover : ∃ x ∈ [(0x80000, 0x100), (0x80100, d - 0x80100), (d, 0x8E000 - d),
        (0xFE000, 0x2000)], Within x.1 (x.1 + x.2) (i * NPTENTRIES) := by
      simp only [mem_cons, not_mem_nil, or_false, exists_eq_or_imp, exists_eq_left]
      rw [Kentry, Within, Within] at hi
      simp only [Within, NPTENTRIES]
      omega
    obtain ⟨x, hx, hin⟩ := hcover
    obtain ⟨m, hm, rfl⟩ := hmem x hx
    exact ⟨m, hm, i * NPTENTRIES, hin, hpage⟩

/-- The free list has good frames, each once. -/
structure Pool (k : Kernel) (s : Kmem) : Prop where
  nodup : s.freelist.Nodup
  ram : ∀ f ∈ s.freelist, Ram k f

/-- The free list has the same frames again, and no other frame has changed. -/
structure Restored (s s' : Kmem) : Prop where
  nodup : s'.freelist.Nodup
  mem : ∀ f, f ∈ s'.freelist ↔ f ∈ s.freelist
  outside : ∀ f, f ∉ s.freelist → s'.page f = s.page f
  oom : s'.oom = s.oom

/-- **A new address space `d`**, made of free frames: it has the kernel's mappings. -/
structure NewSpace (k : Kernel) (d : Nat) (s s' : Kmem) : Prop where
  space : Space k s' d
  holds : ∀ f, Holds s' d f ↔ f ∈ s.freelist
  outside : ∀ f, f ∉ s.freelist → s'.page f = s.page f
  kernel : ∀ u, UPAGES ≤ u → u < MAXPAGES → lookup s' d u = mapOf (kmap k) u
  oom : s'.oom = s.oom

theorem own_empty (hpage : s.page pd = fun _ => 0) {r : Slot} {f : Nat}
    (h : own s pd r = some f) : r = .dir ∧ f = pd := by
  have htable : ∀ i, tableOf s pd i = none := by
    intro i
    rw [tableOf, hpage]
    exact if_neg not_present_zero
  cases r with
  | dir =>
    cases h
    exact ⟨rfl, rfl⟩
  | table i =>
    rw [own, htable i, ite_self] at h
    cases h
  | page =>
    rw [own, lookup_eq_none_of_table (htable _), Option.map_none, ite_self] at h
    cases h

theorem space_empty {s' : Kmem} (hpool : Pool k s) (hd : Drawn pd s s')
    (hpage : s'.page pd = fun _ => 0) :
    Space k s' pd ∧ ∀ f, Holds s' pd f ↔ f ∈ s.freelist := by
  have hnodup := hpool.nodup
  rw [hd.freelist, nodup_cons] at hnodup
  have hholds : ∀ f, Holds s' pd f ↔ f ∈ s.freelist := by
    intro f
    rw [hd.freelist, mem_cons]
    constructor
    · rintro (hf | ⟨r, hr⟩)
      · exact .inr hf
      · exact .inl (own_empty hpage hr).2
    · rintro (rfl | hf)
      · exact Space.holds_dir
      · exact .ofPool hf
  refine ⟨⟨⟨?_, ?_, hnodup.2⟩, ?_⟩, hholds⟩
  · intro r r' c hr hr'
    rw [(own_empty hpage hr).1, (own_empty hpage hr').1]
  · intro r c hr
    rw [(own_empty hpage hr).2]
    exact hnodup.1
  · exact fun f hf => hpool.ram f ((hholds f).mp hf)

theorem Freed.restored {s1 s2 : Kmem} (hf : Freed pd s1 s2) (hd : Drawn pd s s1)
    (hholds : ∀ f, Holds s1 pd f ↔ f ∈ s.freelist) : Restored s s2 := by
  constructor
  · exact hf.nodup
  · exact fun f => (hf.mem f).trans (hholds f)
  · intro f hnot
    have hne : f ≠ pd := by
      rintro rfl
      exact hnot (hd.freelist ▸ (.head _))
    rw [hf.outside f fun hin => hnot ((hholds f).mp hin), hd.page f hne]
  · exact hf.oom.trans hd.oom

theorem card_kentry : ((Finset.range NPDENTRIES).filter Kentry).card = 64 := by decide +kernel

theorem tables_eq_empty (h : ∀ i, tableOf s pd i = none) : tables s pd = ∅ := by
  rw [tables, Finset.filter_eq_empty_iff]
  exact fun i _ hne => hne (h i)

theorem Stuck.few {s' : Kmem}
    (h : Stuck pd (fun i => ∃ m ∈ kmap k, ∃ u, m.Covers u ∧ u / NPTENTRIES = i) s s')
    (hnone : ∀ i, tableOf s pd i = none) : ∃ n, Spent n s s' ∧ n < 64 := by
  obtain ⟨J, hJ, htabled⟩ := h.tabled
  obtain ⟨i, hi, hin, hmissing⟩ := h.missing
  obtain ⟨n, hn, hcard⟩ := htabled.spent
  rw [tables_eq_empty hnone, Finset.card_empty, Nat.zero_add] at hcard
  refine ⟨n, hn, ?_⟩
  rw [← hcard, ← card_kentry]
  apply Finset.card_lt_card
  rw [Finset.ssubset_iff_of_subset]
  · refine ⟨i, ?_, fun hin' => (mem_tables.mp hin').2 hmissing⟩
    rw [Finset.mem_filter, Finset.mem_range]
    exact ⟨hi, (covers_iff k i).mp hin⟩
  intro j hj
  obtain ⟨hlt, hsome⟩ := mem_tables.mp hj
  rw [htabled.mem j hlt, hnone j] at hsome
  rw [Finset.mem_filter, Finset.mem_range]
  exact ⟨hlt, (covers_iff k j).mp (hJ j (hsome.resolve_left fun hne => hne rfl))⟩

/-- **`setupkvm`** makes a new address space without user pages, in 65 calls of `kalloc`. -/
theorem wp_setupkvm (hpool : Pool k s) {Q : Option Nat → Kmem → Prop}
    (hfail : ∀ j s', Restored s s' → FirstDry s j → j < 65 → Q none s')
    (hok : ∀ d s', NewSpace k d s s' → (∀ u < UPAGES, lookup s' d u = none) →
      (∀ i < NPDENTRIES, tableOf s' d i ≠ none ↔ Kentry i) → Spent 65 s s' → Q (some d) s') :
    wp E (setupkvm k) Q s := by
  rw [setupkvm, wp_bind]
  apply wp_kalloc
  · intro hdry
    apply hfail 0
    · exact ⟨hpool.nodup, fun _ => Iff.rfl, fun _ _ => rfl, rfl⟩
    · exact Spent.refl.firstDry hdry
    · decide
  · intro d s1 hdrawn _ hspent
    simp only [wp_bind, memset, wp_modify]
    have hd := hdrawn.filled fun _ => 0 * 0x01010101
    have hpage : (s1.fill d fun _ => 0 * 0x01010101).page d = fun _ => 0 := by simp [Kmem.fill]
    obtain ⟨hspace, hholds⟩ := space_empty hpool hd hpage
    have htable : ∀ i, tableOf (s1.fill d fun _ => 0 * 0x01010101) d i = none := by
      intro i
      rw [tableOf, hpage]
      exact if_neg not_present_zero
    have hspent1 : Spent 1 s (s1.fill d fun _ => 0 * 0x01010101) := hspent.filled _
    generalize s1.fill d (fun _ => 0 * 0x01010101) = s2 at *
    obtain ⟨-, -, -, -, -, hfits⟩ := kmap_lines k
    apply wp_kmapLoop hspace hfits (kmap_sorted k) (Nat.le_refl UPAGES)
    · exact fun m hm => (hfits m hm).kernel
    · exact fun u _ _ => lookup_eq_none_of_table (htable _)
    · intro s3 s4 hfreed hstuck
      obtain ⟨n, hn, hlt⟩ := hstuck.few htable
      apply hfail (1 + n) s4 (hfreed.restored hd hholds)
      · exact (hspent1.trans hn).firstDry hstuck.dry
      · omega
    · intro s3 hc hlook htabled
      have hmem : ∀ i < NPDENTRIES, tableOf s3 d i ≠ none ↔ Kentry i := by
        intro i hi
        rw [htabled.mem i hi, covers_iff k i, htable i]
        exact or_iff_right fun hne => hne rfl
      obtain ⟨n, hn, hcard⟩ := htabled.spent
      have hnone := tables_eq_empty htable
      have hall : tables s3 d = (Finset.range NPDENTRIES).filter Kentry := by
        apply Finset.filter_congr
        exact fun i hi => hmem i (Finset.mem_range.mp hi)
      rw [hnone, hall, card_kentry, Finset.card_empty, Nat.zero_add] at hcard
      subst hcard
      apply hok
      · constructor
        · exact hc.space
        · exact fun f => (hc.holds f).trans ((or_iff_left id).trans (hholds f))
        · intro f hnot
          have hne : f ≠ d := by
            rintro rfl
            exact hnot (hd.freelist ▸ (.head _))
          rw [hc.outside f (fun hin => hnot ((hholds f).mp hin)) id, hd.page f hne]
        · exact hlook
        · exact hc.oom.trans hd.oom
      · intro u hu
        rw [hc.same u (hu.trans_le upages_le_maxpages) hu.not_ge]
        exact lookup_eq_none_of_table (htable _)
      · exact hmem
      · exact hspent1.trans hn

end Xv6.Vm
