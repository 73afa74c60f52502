import Xv6.VmMap

/-!
**Growing and shrinking a process**: `allocuvm`, `deallocuvm` and `sbrk`.

`allocuvm` maps exactly the missing pages, or leaves the user's mapping as it was; `deallocuvm`
takes back exactly what it is asked to (`uvm_exact`).

`sbrk` reads the two results of `deallocuvm` wrongly at one end: a process that gives back all of
its memory is told -1 although its pages are gone, and one that gives back more than it has is
told that it worked although nothing has changed.
-/

namespace Xv6.Vm

open Program List Option

section

variable {k : Kernel} {pd f u v w n fuel oldsz newsz : Nat} {E : String → Prop} {s s' s0 : Kmem}
  {Q : Nat → Kmem → Prop}

/-! ### `deallocuvm` -/

theorem wp_deallocuvm (h : Space k s pd) (hold : oldsz ≤ KERNBASE)
    (hQ : ∀ s', Changes k pd (Within (pages newsz) (pages oldsz)) nil s s' →
      (∀ u, Within (pages newsz) (pages oldsz) u → lookup s' pd u = none) →
      (∀ i < NPDENTRIES, tableOf s' pd i = tableOf s pd i) → Q (min newsz oldsz) s') :
    wp E (deallocuvm k pd oldsz newsz) Q s := by
  rw [deallocuvm]
  split
  next hle =>
    have hpages := pages_mono hle
    have hnil := hQ s h.refl (fun u hu => absurd (hu.1.trans_lt hu.2) hpages.not_gt)
      fun _ _ => rfl
    rwa [Nat.min_eq_right hle] at hnil
  next hlt =>
    have hle := (Nat.lt_of_not_le hlt).le
    have hnewsz := hle.trans hold
    rw [pgroundup_eq hnewsz, wp_bind]
    apply wp_deallocLoop h hold
    · refine hold.trans ?_
      exact Nat.mul_le_mul_right PGSIZE (Nat.le_add_left UPAGES (pages newsz))
    · decide
    · intro s' hc hnone htables
      rw [← Nat.min_eq_left hle]
      exact hQ s' hc hnone htables

/-! ### `allocuvm` -/

/-- The loop of `allocuvm` is at page `v` on its way from page `lo` to page `hi`. -/
structure Growing (k : Kernel) (pd lo hi : Nat) (s0 : Kmem) (v : Nat) (s : Kmem) : Prop where
  changes : Changes k pd (Within lo hi) nil s0 s
  fresh : ∀ u, Within lo v u → ∃ f, lookup s pd u = some (entry f (PTE_W ||| PTE_U)) ∧
    s.page f = fun _ => 0
  absent : ∀ u, Within v hi u → lookup s pd u = none

theorem Changes.undone {lo hi : Nat} {H : Nat → Prop} (h : Changes k pd (Within lo hi) H s s')
    (hnone : ∀ u, Within lo hi u → lookup s pd u = none)
    (hnone' : ∀ u, Within lo hi u → lookup s' pd u = none) : Changes k pd nil H s s' := by
  constructor
  · exact h.space
  · exact h.holds
  · exact h.outside
  · intro u hu _
    by_cases hin : Within lo hi u
    · rw [hnone u hin, hnone' u hin]
    · exact h.same u hu hin
  · intro u hu _ w hw
    by_cases hin : Within lo hi u
    · rw [hnone u hin] at hw
      cases hw
    · exact h.content u hu hin w hw
  · exact h.oom

theorem Growing.mapped {lo hi mem : Nat} {s1 s2 : Kmem} (h : Growing k pd lo hi s0 v s)
    (hlo : lo ≤ v) (hv : v < hi) (hhi : hi ≤ UPAGES) (hd : Drawn mem s s1)
    (hc : Changes k pd (· = v) (· = mem) s1 s2)
    (hlook : lookup s2 pd v = some (entry mem (PTE_W ||| PTE_U)))
    (hzero : s2.page mem = fun _ => 0) : Growing k pd lo hi s0 (v + 1) s2 := by
  have hspace := h.changes.space
  have hc' := hd.changes hspace hc
  constructor
  · apply h.changes.then (hc'.mono _)
    rintro u rfl
    exact ⟨hlo, hv⟩
  · intro u hu
    by_cases huv : u = v
    · exact ⟨mem, huv ▸ hlook, hzero⟩
    obtain ⟨f, hf, hpage⟩ := h.fresh u ⟨hu.1, Nat.lt_of_le_of_ne (Nat.le_of_lt_succ hu.2) huv⟩
    have hup : u < UPAGES := (Nat.lt_of_lt_of_le hu.2 hv).trans_le hhi
    refine ⟨f, ?_, ?_⟩
    · rw [hc'.same u (hup.trans_le upages_le_maxpages) huv, hf]
    · have hcontent := hc'.content u hup huv _ hf
      rwa [entry_div (by decide), hpage] at hcontent
  · intro u hu
    have huv : u ≠ v := fun heq => absurd (heq ▸ hu.1) (Nat.not_succ_le_self v)
    have hup : u < MAXPAGES := (hu.2.trans_le hhi).trans_le upages_le_maxpages
    rw [hc'.same u hup huv]
    exact h.absent u ⟨Nat.le_of_succ_le hu.1, hu.2⟩

theorem wp_allocLoop (hlt : newsz < KERNBASE)
    (hnone : ∀ u, Within (pages oldsz) (pages newsz) u → lookup s0 pd u = none)
    (h : Growing k pd (pages oldsz) (pages newsz) s0 v s) (hlo : pages oldsz ≤ v)
    (hfuel : newsz ≤ (v + n) * PGSIZE) (hn : n < fuel)
    (hfail : ∀ s', 0 < newsz → Changes k pd nil nil s0 s' → Q 0 s')
    (hok : ∀ s', Growing k pd (pages oldsz) (pages newsz) s0 (pages newsz) s' → Q newsz s') :
    wp E (allocLoop k pd oldsz newsz fuel (v * PGSIZE)) Q s := by
  have hhi : pages newsz ≤ UPAGES := pages_le hlt.le
  induction fuel generalizing v n s with
  | zero => exact absurd hn (Nat.not_lt_zero n)
  | succ fuel ih =>
    rw [allocLoop]
    split
    next hav =>
      have hvp : v < pages newsz := lt_pages_iff.mpr hav
      have hv : v < UPAGES := hvp.trans_le hhi
      have hpos : 0 < newsz := Nat.zero_lt_of_lt hav
      have hspace := h.changes.space
      -- all pages of this call are given back
      have hundo : ∀ {H s1}, Changes k pd (Within (pages oldsz) (pages newsz)) H s0 s1 →
          (∀ u, Within (pages oldsz) (pages newsz) u → lookup s1 pd u = none) →
          Changes k pd nil H s0 s1 :=
        fun hc hnone' => hc.undone hnone hnone'
      rw [wp_bind]
      apply wp_kalloc
      · intro _
        have htick := h.changes.then hspace.tick
        simp only [wp_bind]
        apply wp_deallocuvm htick.space hlt.le
        intro s' hc hnone' _
        exact hfail s' hpos (hundo (htick.then hc) hnone')
      · intro mem s1 hdrawn hpage _
        simp only [wp_bind, memset, wp_modify]
        have hd := hdrawn.filled fun _ => 0 * 0x01010101
        have hnone1 : lookup (s1.fill mem fun _ => 0 * 0x01010101) pd v = none := by
          rw [hd.lookup hspace (hv.trans_le upages_le_maxpages)]
          exact h.absent v ⟨Nat.le_refl v, hvp⟩
        have hloose := hd.loose hspace
        have hram := hd.ram hspace
        apply wp_mappages_page (hd.space hspace) hv hnone1 hloose hram (by decide)
        · intro _ _
          rw [if_pos (by decide)]
          simp only [wp_bind]
          have htick := (hd.space hspace).tick (R := Within (pages oldsz) (pages newsz))
          apply wp_deallocuvm htick.space hlt.le
          intro s2 hc hnone2 _
          have hloose2 : ¬ Holds s2 pd mem := by
            rw [(htick.then hc).holds]
            exact fun hin => hloose (hin.elim id False.elim)
          rw [wp_bind]
          apply wp_kfree hram
          have hback := changes_refund (R := nil) hc.space hloose2 hram fun _ => 1 * 0x01010101
          have hmono : Changes k pd (Within (pages oldsz) (pages newsz)) (· = mem) s2 _ :=
            hback.mono fun _ hu => hu.elim
          apply hfail _ hpos
          apply hundo (h.changes.then (hd.changes hspace ((htick.then hc).then hmono)))
          intro u hu
          have hum := (hu.2.trans_le hhi).trans_le upages_le_maxpages
          rw [hback.same u hum id]
          exact hnone2 u hu
        · intro s2 hc hlook hzero _ _
          rw [next_page hv]
          have hzero' : s2.page mem = fun _ => 0 := by
            rw [hzero]
            simp [Kmem.fill]
          apply ih (h.mapped hlo hvp hhi hd hc hlook hzero') (Nat.le_succ_of_le hlo)
          · have hn0 : n ≠ 0 := by
              rintro rfl
              exact absurd hav hfuel.not_gt
            rwa [Nat.add_assoc, Nat.add_sub_cancel' (Nat.one_le_iff_ne_zero.mpr hn0)]
          · have hn0 : n ≠ 0 := by
              rintro rfl
              exact absurd hav hfuel.not_gt
            omega
    next hge =>
      have hpv : pages newsz ≤ v := Nat.le_of_not_lt fun hlt' => hge (lt_pages_iff.mp hlt')
      apply hok
      constructor
      · exact h.changes
      · exact fun u hu => h.fresh u ⟨hu.1, hu.2.trans_le hpv⟩
      · exact fun u hu => absurd (hu.1.trans_lt hu.2) (Nat.lt_irrefl _)

/-- **`allocuvm`**, from a size up to another, where no page is mapped yet. -/
theorem wp_allocuvm (h : Space k s pd) (hle : oldsz ≤ newsz) (hlt : newsz < KERNBASE)
    (hnone : ∀ u, Within (pages oldsz) (pages newsz) u → lookup s pd u = none)
    (hfail : ∀ s', 0 < newsz → Changes k pd nil nil s s' → Q 0 s')
    (hok : ∀ s', Growing k pd (pages oldsz) (pages newsz) s (pages newsz) s' → Q newsz s') :
    wp E (allocuvm k pd oldsz newsz) Q s := by
  rw [allocuvm, if_neg hlt.not_ge, if_neg hle.not_gt, pgroundup_eq (hle.trans hlt.le)]
  have hstart : Growing k pd (pages oldsz) (pages newsz) s (pages oldsz) s := by
    constructor
    · exact h.refl
    · exact fun u hu => absurd (hu.1.trans_lt hu.2) (Nat.lt_irrefl _)
    · exact hnone
  apply wp_allocLoop hlt hnone hstart (Nat.le_refl _)
  · refine hlt.le.trans ?_
    exact Nat.mul_le_mul_right PGSIZE (Nat.le_add_left UPAGES (pages oldsz))
  · decide
  · exact hfail
  · exact hok

end

/-! ### Exactness -/

/-- The directory maps exactly the user pages below `sz`, rounded up. -/
def Maps (s : Kmem) (pd sz : Nat) : Prop :=
  ∀ u < UPAGES, lookup s pd u ≠ none ↔ u * PGSIZE < PGROUNDUP sz

/-- User page `u` is mapped as before, and holds what it held. -/
def SamePage (s s' : Kmem) (pd u : Nat) : Prop :=
  lookup s' pd u = lookup s pd u ∧
    ∀ w, lookup s pd u = some w → s'.page (w / PGSIZE) = s.page (w / PGSIZE)

/-- **The process has grown**: the new pages are zeroed and writable, and nothing else is
different. -/
structure Grown (s s' : Kmem) (pd oldsz newsz : Nat) : Prop where
  maps : Maps s' pd newsz
  fresh : ∀ u, PGROUNDUP oldsz ≤ u * PGSIZE → u * PGSIZE < PGROUNDUP newsz →
    ∃ f, lookup s' pd u = some (entry f (PTE_W ||| PTE_U)) ∧ s'.page f = fun _ => 0
  kept : ∀ u < UPAGES, u * PGSIZE < PGROUNDUP oldsz → SamePage s s' pd u
  kernel : ∀ u, UPAGES ≤ u → u < MAXPAGES → lookup s' pd u = lookup s pd u
  others : ∀ f, ¬ Holds s pd f → s'.page f = s.page f

/-- The user's pages are as they were. -/
def Unchanged (s s' : Kmem) (pd : Nat) : Prop := ∀ u < UPAGES, SamePage s s' pd u

/-- The frame of a page that was there before and is not there now. -/
def Removed (s s' : Kmem) (pd f : Nat) : Prop :=
  ∃ u < UPAGES, ∃ w, lookup s pd u = some w ∧ lookup s' pd u = none ∧ w / PGSIZE = f

/-- Each removed frame is on the free list once more, and no other. -/
def Returned (s s' : Kmem) (pd : Nat) : Prop :=
  ∀ f, (Removed s s' pd f → s'.freelist.count f = s.freelist.count f + 1) ∧
    (¬ Removed s s' pd f → s'.freelist.count f = s.freelist.count f)

section

variable {k : Kernel} {pd f u w oldsz newsz sz : Nat} {s s' s1 s2 : Kmem}

theorem maps_iff (hsz : sz ≤ KERNBASE) :
    Maps s pd sz ↔ ∀ u < UPAGES, lookup s pd u ≠ none ↔ u < pages sz := by
  have hlt : ∀ u, u * PGSIZE < PGROUNDUP sz ↔ u < pages sz := by
    intro u
    rw [pgroundup_eq hsz]
    exact Nat.mul_lt_mul_right (by decide)
  rw [Maps]
  simp only [hlt]

theorem Changes.samePage {R H : Nat → Prop} (h : Changes k pd R H s s') (hu : u < UPAGES)
    (hR : ¬ R u) : SamePage s s' pd u :=
  ⟨h.same u (hu.trans_le upages_le_maxpages) hR, h.content u hu hR⟩

theorem Growing.grown (h : Growing k pd (pages oldsz) (pages newsz) s (pages newsz) s')
    (hmaps : Maps s pd oldsz) (hle : oldsz ≤ newsz) (hlt : newsz < KERNBASE) :
    Grown s s' pd oldsz newsz := by
  have hold := hle.trans hlt.le
  rw [maps_iff hold] at hmaps
  have hmono := pages_mono hle
  have hhi := pages_le hlt.le
  constructor
  · rw [maps_iff hlt.le]
    intro u hu
    by_cases hin : Within (pages oldsz) (pages newsz) u
    · obtain ⟨f, hf, -⟩ := h.fresh u hin
      rw [hf]
      exact iff_of_true (some_ne_none _) hin.2
    · rw [h.changes.same u (hu.trans_le upages_le_maxpages) hin, hmaps u hu]
      rw [Within] at hin
      omega
  · intro u hlo hu
    rw [pgroundup_eq hold] at hlo
    rw [pgroundup_eq hlt.le] at hu
    apply h.fresh u
    exact ⟨Nat.le_of_mul_le_mul_right hlo (by decide), Nat.lt_of_mul_lt_mul_right hu⟩
  · intro u hu hlo
    rw [pgroundup_eq hold] at hlo
    apply h.changes.samePage hu
    exact fun hin => absurd (Nat.lt_of_mul_lt_mul_right hlo) hin.1.not_gt
  · exact fun u hk hu => h.changes.same u hu fun hin => absurd (hin.2.trans_le hhi) hk.not_gt
  · exact fun f hf => h.changes.outside f hf id

/-- What is gone from the mapping is on the free list, if no page table has come or gone. -/
theorem Changes.returned {R : Nat → Prop} (h : Changes k pd R nil s s') (hspace : Space k s pd)
    (hR : ∀ u, R u → lookup s' pd u = none)
    (htables : ∀ i < NPDENTRIES, tableOf s' pd i = tableOf s pd i) : Returned s s' pd := by
  have hown : ∀ r c, own s' pd r = some c → own s pd r = some c := by
    intro r c hr
    cases r with
    | dir => exact hr
    | table i =>
      rw [own] at hr ⊢
      split at hr
      next hi => rw [if_pos hi, ← htables i hi, hr]
      · cases hr
    | page u =>
      rw [own] at hr ⊢
      split at hr
      next hu =>
        by_cases hin : R u
        · rw [hR u hin] at hr
          cases hr
        · rwa [if_pos hu, ← h.same u (hu.trans_le upages_le_maxpages) hin]
      · cases hr
  have hlost : ∀ r c, own s pd r = some c → own s' pd r ≠ some c → Removed s s' pd c := by
    intro r c hr hr'
    cases r with
    | dir => exact absurd hr hr'
    | table i =>
      rw [own] at hr hr'
      split at hr
      next hi =>
        rw [if_pos hi, htables i hi] at hr'
        exact absurd hr hr'
      · cases hr
    | page u =>
      rw [own] at hr hr'
      split at hr
      next hu =>
        rw [if_pos hu] at hr'
        obtain ⟨w, hw, rfl⟩ := map_eq_some_iff.mp hr
        by_cases hin : R u
        · exact ⟨u, hu, w, hw, hR u hin, rfl⟩
        · rw [h.same u (hu.trans_le upages_le_maxpages) hin] at hr'
          exact absurd hr hr'
      · cases hr
  intro f
  constructor
  · rintro ⟨u, hu, w, hw, hnone, rfl⟩
    have hslot : own s pd (.page u) = some (w / PGSIZE) := by rw [Space.own_page hu, hw, map_some]
    have hnot : w / PGSIZE ∉ s.freelist := hspace.excl.apart _ _ hslot
    have hin : w / PGSIZE ∈ s'.freelist := by
      apply h.space.excl.mem_pool_iff.mpr
      refine ⟨(h.holds _).mpr (.inl (Space.holds_page hu hw)), fun r hr => ?_⟩
      have heq := hspace.excl.once r (.page u) _ (hown r _ hr) hslot
      rw [heq, Space.own_page hu, hnone] at hr
      cases hr
    rw [count_eq_zero_of_not_mem hnot, count_eq_one_of_mem h.space.excl.nodup hin]
  · intro hkeep
    have hiff : f ∈ s'.freelist ↔ f ∈ s.freelist := by
      rw [h.space.excl.mem_pool_iff, hspace.excl.mem_pool_iff]
      apply and_congr
      · exact (h.holds f).trans (or_iff_left id)
      constructor
      · intro hfree r hr
        exact hkeep (hlost r f hr (hfree r))
      · exact fun hfree r hr => hfree r (hown r f hr)
    rw [h.space.excl.nodup.count, hspace.excl.nodup.count]
    simp only [hiff]

theorem Growing.undone (h : Growing k pd (pages oldsz) (pages newsz) s (pages newsz) s1)
    (hmaps : Maps s pd oldsz) (hle : oldsz ≤ newsz) (hlt : newsz < KERNBASE)
    (hc : Changes k pd (Within (pages oldsz) (pages newsz)) nil s1 s2)
    (hnone : ∀ u, Within (pages oldsz) (pages newsz) u → lookup s2 pd u = none) :
    Unchanged s s2 pd := by
  rw [maps_iff (hle.trans hlt.le)] at hmaps
  have hhi := pages_le hlt.le
  have hback := (h.changes.then hc).undone (fun u hu => ?_) hnone
  · exact fun u hu => hback.samePage hu id
  · by_contra hsome
    exact absurd ((hmaps u (hu.2.trans_le hhi)).mp hsome) hu.1.not_gt

theorem deallocuvm_ends (pd newsz : Nat) (hold : oldsz ≤ KERNBASE) :
    (∃ r s', exec (deallocuvm k pd oldsz newsz) [] s = .done r s') ∨
      exec (deallocuvm k pd oldsz newsz) [] s = .panic "kfree" := by
  have hwp : wp (· = "kfree") (deallocuvm k pd oldsz newsz) (fun _ _ => True) s := by
    rw [deallocuvm]
    split
    · trivial
    rename_i hlt
    have hle := (Nat.lt_of_not_le hlt).le.trans hold
    rw [pgroundup_eq hle, wp_bind]
    apply deallocLoop_ends hold
    · exact hold.trans (Nat.mul_le_mul_right PGSIZE (Nat.le_add_left UPAGES (pages newsz)))
    · decide
  rcases done_or_panic hwp with ⟨r, s', hdone, -⟩ | ⟨msg, hpanic, rfl⟩
  · exact .inl ⟨r, s', hdone⟩
  · exact .inr hpanic

end

/-! ### A machine with one page -/

/-- A kernel with one page of text and one of data. -/
def tiny : Kernel where
  data := KERNLINK + PGSIZE
  kend := KERNLINK + 2 * PGSIZE
  aligned := by decide
  text := by decide
  ends := by decide
  fits := by decide

/-- Directory 258, its page table 259, and page 0 in frame 260. -/
def onePage : Kmem where
  page f i :=
    if f = 258 ∧ i = 0 then entry 259 (PTE_W ||| PTE_U)
    else if f = 259 ∧ i = 0 then entry 260 (PTE_W ||| PTE_U)
    else 0
  freelist := [261, 262]
  oom _ := false
  calls := 0

theorem tableOf_onePage (i : Nat) : tableOf onePage 258 i = if i = 0 then some 259 else none := by
  by_cases hi : i = 0
  · subst hi
    decide
  · simp [tableOf, onePage, hi, not_present_zero]

theorem lookup_onePage (v : Nat) :
    lookup onePage 258 v = if v = 0 then some (entry 260 (PTE_W ||| PTE_U)) else none := by
  by_cases hdiv : v / NPTENTRIES = 0
  · have htable : tableOf onePage 258 (v / NPTENTRIES) = some 259 := by
      rw [tableOf_onePage, if_pos hdiv]
    rw [lookup_of_table htable]
    by_cases hv : v = 0
    · subst hv
      decide
    have hmod : v % NPTENTRIES ≠ 0 := by
      intro hmod
      apply hv
      rw [← Nat.div_add_mod v NPTENTRIES, hdiv, hmod, Nat.mul_zero]
    simp [onePage, hmod, hv, not_present_zero]
  · have hv : v ≠ 0 := by
      rintro rfl
      exact hdiv rfl
    rw [if_neg hv]
    apply lookup_eq_none_of_table
    rw [tableOf_onePage, if_neg hdiv]

theorem own_onePage {r : Slot} {f : Nat} (h : own onePage 258 r = some f) :
    (r, f) ∈ [(Slot.dir, 258), (.table 0, 259), (.page 0, 260)] := by
  cases r with
  | dir =>
    cases h
    simp
  | table i =>
    rw [own, tableOf_onePage] at h
    split at h
    · split at h
      next hi =>
        cases h
        simp [hi]
      · cases h
    · cases h
  | page v =>
    rw [own, lookup_onePage] at h
    split at h
    · split at h
      next hv =>
        simp only [map_some, Option.some.injEq] at h
        rw [entry_div (by decide)] at h
        simp [hv, h]
      · cases h
    · cases h

theorem space_onePage : Space tiny onePage 258 := by
  constructor
  · constructor
    · intro r r' c hr hr'
      have hin := own_onePage hr
      have hin' := own_onePage hr'
      simp only [mem_cons] at hin hin'
      rcases hin with ⟨rfl, rfl⟩ | ⟨rfl, rfl⟩ | ⟨rfl, rfl⟩ <;> simp_all
    · intro r c hr
      have hin := own_onePage hr
      simp only [mem_cons, not_mem_nil, or_false] at hin
      rcases hin with ⟨-, rfl⟩ | ⟨-, rfl⟩ | ⟨-, rfl⟩ <;> decide
    · decide
  · rintro f (hf | ⟨r, hr⟩)
    · have hin : f ∈ [261, 262] := hf
      simp only [mem_cons, not_mem_nil, or_false] at hin
      rcases hin with rfl | rfl <;> exact ⟨by decide, by decide⟩
    · have hin := own_onePage hr
      simp only [mem_cons, not_mem_nil, or_false] at hin
      rcases hin with ⟨-, rfl⟩ | ⟨-, rfl⟩ | ⟨-, rfl⟩ <;> exact ⟨by decide, by decide⟩

theorem maps_onePage : Maps onePage 258 PGSIZE := by
  rw [maps_iff (by decide)]
  intro u _
  have hpages : pages PGSIZE = 1 := by decide
  rw [lookup_onePage, hpages, Nat.lt_one_iff]
  by_cases hu : u = 0
  · rw [if_pos hu]
    exact iff_of_true (some_ne_none _) hu
  · rw [if_neg hu]
    exact iff_of_false (fun hne => hne rfl) hu

/-! ### The results -/

/-- **`allocuvm` and `deallocuvm` are exact and undo each other.** Growing a process that has
exactly its pages either works, and `deallocuvm` then undoes it, or returns 0 and changes
nothing for the user; and `deallocuvm` ends from every state, having unmapped exactly the
pages between the two sizes. -/
theorem uvm_exact (k : Kernel) (s : Kmem) (pd : Nat) (h : Space k s pd) :
    (∀ oldsz newsz, Maps s pd oldsz → oldsz ≤ newsz → newsz < KERNBASE →
      ∃ r s1, exec (allocuvm k pd oldsz newsz) [] s = .done r s1 ∧
        (r = newsz ∧ Grown s s1 pd oldsz newsz ∧
            (∃ s2, exec (deallocuvm k pd newsz oldsz) [] s1 = .done oldsz s2 ∧
              Unchanged s s2 pd ∧ Returned s1 s2 pd) ∨
          r = 0 ∧ 0 < newsz ∧ Unchanged s s1 pd)) ∧
    (∀ s' pd' oldsz newsz, oldsz ≤ KERNBASE →
      (∃ r s1, exec (deallocuvm k pd' oldsz newsz) [] s' = .done r s1) ∨
        exec (deallocuvm k pd' oldsz newsz) [] s' = .panic "kfree") ∧
    ∀ oldsz newsz, oldsz ≤ KERNBASE →
      ∃ s1, exec (deallocuvm k pd oldsz newsz) [] s = .done (min newsz oldsz) s1 ∧
        Returned s s1 pd ∧ ∀ u < UPAGES,
          if newsz < oldsz ∧ PGROUNDUP newsz ≤ u * PGSIZE ∧ u * PGSIZE < oldsz then
            lookup s1 pd u = none
          else SamePage s s1 pd u := by
  refine ⟨fun oldsz newsz hmaps hle hlt => ?_, fun s' pd' oldsz newsz => deallocuvm_ends pd' newsz,
    fun oldsz newsz hold => ?_⟩
  · have hnone : ∀ u, Within (pages oldsz) (pages newsz) u → lookup s pd u = none := by
      intro u hu
      by_contra hsome
      rw [maps_iff (hle.trans hlt.le)] at hmaps
      exact absurd ((hmaps u (hu.2.trans_le (pages_le hlt.le))).mp hsome) hu.1.not_gt
    apply exec_done
    apply wp_allocuvm h hle hlt hnone
    · intro s1 hpos hc
      exact .inr ⟨rfl, hpos, fun u hu => hc.samePage hu id⟩
    intro s1 hgrow
    refine .inl ⟨rfl, hgrow.grown hmaps hle hlt, ?_⟩
    have hspace := hgrow.changes.space
    obtain ⟨r, s2, hdone, rfl, hsame, hback⟩ :
        ∃ r s2, exec (deallocuvm k pd newsz oldsz) [] s1 = .done r s2 ∧ r = min oldsz newsz ∧
          Unchanged s s2 pd ∧ Returned s1 s2 pd := by
      apply exec_done
      apply wp_deallocuvm hspace hlt.le
      intro s2 hc hnone2 htables
      exact ⟨rfl, hgrow.undone hmaps hle hlt hc hnone2, hc.returned hspace hnone2 htables⟩
    rw [Nat.min_eq_left hle] at hdone
    exact ⟨s2, hdone, hsame, hback⟩
  · obtain ⟨r, s1, hdone, rfl, hback, hpage⟩ :
        ∃ r s1, exec (deallocuvm k pd oldsz newsz) [] s = .done r s1 ∧ r = min newsz oldsz ∧
          Returned s s1 pd ∧ ∀ u < UPAGES,
            if Within (pages newsz) (pages oldsz) u then lookup s1 pd u = none
            else SamePage s s1 pd u := by
      apply exec_done
      apply wp_deallocuvm h hold
      intro s1 hc hnone htables
      refine ⟨rfl, hc.returned h hnone htables, fun u hu => ?_⟩
      split
      · exact hnone u ‹_›
      · exact hc.samePage hu ‹_›
    refine ⟨s1, hdone, hback, fun u hu => ?_⟩
    have hiff : newsz < oldsz ∧ PGROUNDUP newsz ≤ u * PGSIZE ∧ u * PGSIZE < oldsz ↔
        Within (pages newsz) (pages oldsz) u := by
      rw [Within, lt_pages_iff]
      constructor
      · rintro ⟨hlt, hlo, hhi⟩
        rw [pgroundup_eq (hlt.le.trans hold)] at hlo
        exact ⟨Nat.le_of_mul_le_mul_right hlo (by decide), hhi⟩
      · rintro ⟨hlo, hhi⟩
        have hlt : newsz < oldsz := by
          apply Nat.lt_of_not_le
          intro hle
          exact absurd (hlo.trans_lt (lt_pages_iff.mpr hhi)) (pages_mono hle).not_gt
        rw [pgroundup_eq (hlt.le.trans hold)]
        exact ⟨hlt, Nat.mul_le_mul_right PGSIZE hlo, hhi⟩
    have hu' := hpage u hu
    split
    next hin => rwa [if_pos (hiff.mp hin)] at hu'
    next hout => rwa [if_neg fun hin => hout (hiff.mpr hin)] at hu'

theorem uvm_exact_one_page :
    ∃ s1, exec (allocuvm tiny 258 PGSIZE (2 * PGSIZE)) [] onePage = .done (2 * PGSIZE) s1 ∧
      Grown onePage s1 258 PGSIZE (2 * PGSIZE) ∧
      ∃ s2, exec (deallocuvm tiny 258 (2 * PGSIZE) PGSIZE) [] s1 = .done PGSIZE s2 ∧
        Unchanged onePage s2 258 ∧ Returned s1 s2 258 := by
  obtain ⟨r, s1, hdone, hor⟩ := (uvm_exact tiny onePage 258 space_onePage).1 PGSIZE (2 * PGSIZE)
    maps_onePage (by decide) (by decide)
  have hok : (exec (allocuvm tiny 258 PGSIZE (2 * PGSIZE)) [] onePage).ends
      (fun r _ => decide (r = 2 * PGSIZE)) = true := by decide +kernel
  obtain ⟨r', s', hdone', hr⟩ := Outcome.ends_iff.mp hok
  rw [hdone] at hdone'
  cases hdone'
  have hr' : r = 2 * PGSIZE := of_decide_eq_true hr
  rcases hor with ⟨-, hgrown, hback⟩ | ⟨hzero, -⟩
  · exact ⟨s1, hr' ▸ hdone, hgrown, hback⟩
  · rw [hr'] at hzero
    cases hzero

/-! ### `sbrk` -/

/-- **The contract of `sbrk`**: grow or shrink by exactly `n` bytes and return the old size, or
change nothing and return -1. -/
def Contract (s : Kmem) (p : Proc) (n r : Int) (p' : Proc) (s' : Kmem) : Prop :=
  (r = p.sz ∧ (p'.sz : Int) = p.sz + n ∧ p'.pgdir = p.pgdir ∧ Maps s' p.pgdir p'.sz ∧
    (∀ u < UPAGES, u * PGSIZE < min p.sz p'.sz → SamePage s s' p.pgdir u) ∧
    ∀ u, PGROUNDUP p.sz ≤ u * PGSIZE → u * PGSIZE < PGROUNDUP p'.sz →
      ∃ w, lookup s' p.pgdir u = some w ∧ s'.page (w / PGSIZE) = fun _ => 0) ∨
  (r = -1 ∧ p' = p ∧ Unchanged s s' p.pgdir)

section

variable {k : Kernel} {s : Kmem} {p : Proc} {n : Int}

theorem wp_sbrk_grow (h : Space k s p.pgdir) (hmaps : Maps s p.pgdir p.sz) (hlt : p.sz < KERNBASE)
    (hpos : 0 < n) (hn : n < 2 ^ 31) :
    wp never (sysSbrk k p n) (fun a => Contract s p n a.1 a.2) s := by
  obtain ⟨m, rfl⟩ := Int.eq_ofNat_of_zero_le hpos.le
  have hsum : (p.sz + ofInt32 m) % 2 ^ 32 = p.sz + m := by
    have hsz : p.sz < 2147483648 := hlt
    rw [ofInt32_natCast (by omega)]
    omega
  have hold : toInt32 p.sz = p.sz := toInt32_of_lt hlt
  rw [sysSbrk, wp_bind, growproc, if_pos hpos, hsum, wp_bind]
  by_cases hbig : KERNBASE ≤ p.sz + m
  · rw [allocuvm, if_pos hbig]
    exact .inr ⟨rfl, rfl, fun u _ => ⟨rfl, fun _ _ => rfl⟩⟩
  have hnew := Nat.lt_of_not_le hbig
  have hle : p.sz ≤ p.sz + m := Nat.le_add_right _ _
  have hnone : ∀ u, Within (pages p.sz) (pages (p.sz + m)) u → lookup s p.pgdir u = none := by
    intro u hu
    by_contra hsome
    have hiff := (maps_iff hlt.le).mp hmaps u (hu.2.trans_le (pages_le hnew.le))
    exact absurd (hiff.mp hsome) hu.1.not_gt
  apply wp_allocuvm h hle hnew hnone
  · intro s' _ hc
    exact .inr ⟨rfl, rfl, fun u hu => hc.samePage hu id⟩
  intro s' hgrow
  have hgrown := hgrow.grown hmaps hle hnew
  have hne : p.sz + m ≠ 0 := by omega
  rw [if_neg hne]
  refine .inl ⟨hold, by simp, rfl, hgrown.maps, fun u hu hlow => ?_, fun u hlo hhi => ?_⟩
  · apply hgrown.kept u hu
    rw [pgroundup_eq hlt.le]
    apply (Nat.mul_lt_mul_right (by decide)).mpr
    exact lt_pages_iff.mpr (hlow.trans_le (Nat.min_le_left _ _))
  · obtain ⟨f, hf, hzero⟩ := hgrown.fresh u hlo hhi
    exact ⟨_, hf, by rwa [entry_div (by decide)]⟩

/-- The result of shrinking by `m` bytes: all but the last byte of the process may go. -/
theorem wp_sbrk_shrink (h : Space k s p.pgdir) (hmaps : Maps s p.pgdir p.sz)
    (hlt : p.sz < KERNBASE) (hneg : n < 0) {newsz : Nat} (hnew : (newsz : Int) = p.sz + n) :
    wp never (sysSbrk k p n) (fun a s' =>
      (0 < newsz → Contract s p n a.1 a.2 s') ∧
        (newsz = 0 → a = (-1, p) ∧ ∀ u < UPAGES, lookup s' p.pgdir u = none)) s := by
  have hsum : (p.sz + ofInt32 n) % 2 ^ 32 = newsz := by
    have hsz : p.sz < 2147483648 := hlt
    unfold ofInt32
    omega
  have hle : newsz ≤ p.sz := by omega
  have hold : toInt32 p.sz = p.sz := toInt32_of_lt hlt
  rw [sysSbrk, wp_bind, growproc, if_neg (by omega), if_pos hneg, hsum, wp_bind]
  apply wp_deallocuvm h hlt.le
  intro s' hc hnone _
  rw [Nat.min_eq_left hle]
  have hmaps' : Maps s' p.pgdir newsz := by
    rw [maps_iff (hle.trans hlt.le)]
    rw [maps_iff hlt.le] at hmaps
    have hmono := pages_mono hle
    intro u hu
    by_cases hin : Within (pages newsz) (pages p.sz) u
    · rw [hnone u hin]
      exact iff_of_false (fun hne => hne rfl) hin.1.not_gt
    · rw [hc.same u (hu.trans_le upages_le_maxpages) hin, hmaps u hu]
      rw [Within] at hin
      omega
  by_cases hzero : newsz = 0
  · rw [if_pos hzero]
    refine ⟨fun hpos => absurd hzero hpos.ne', fun _ => ⟨rfl, fun u hu => ?_⟩⟩
    by_contra hsome
    have hlow := (hmaps' u hu).mp hsome
    rw [hzero] at hlow
    exact absurd hlow (Nat.not_lt_zero _)
  · rw [if_neg hzero]
    refine ⟨fun _ => .inl ⟨hold, hnew, rfl, hmaps', fun u hu hlow => ?_, fun u hlo hhi => ?_⟩,
      fun heq => absurd heq hzero⟩
    · apply hc.samePage hu
      intro hin
      have hlow' := hlow.trans_le (Nat.min_le_right _ _)
      exact absurd (lt_pages_iff.mpr hlow') hin.1.not_gt
    · rw [pgroundup_eq hlt.le] at hlo
      rw [pgroundup_eq (hle.trans hlt.le)] at hhi
      have hmono := Nat.mul_le_mul_right PGSIZE (pages_mono hle)
      exact absurd (hlo.trans_lt hhi) hmono.not_gt

/-- Shrinking by more than there is: nothing happens, and the old size is returned. -/
theorem wp_sbrk_beyond (hpos : 0 < p.sz) (hn : -2 ^ 31 ≤ n)
    (hneg : (p.sz : Int) + n < 0) :
    wp never (sysSbrk k p n) (fun a _ => a = (toInt32 p.sz, p)) s := by
  have hbeyond : p.sz ≤ (p.sz + ofInt32 n) % 2 ^ 32 := by
    unfold ofInt32
    omega
  rw [sysSbrk, wp_bind, growproc, if_neg (by omega), if_pos (by omega), deallocuvm, if_pos hbeyond,
    wp_bind, wp_pure, if_neg hpos.ne']
  exact rfl

end

/-- **`sbrk` keeps its contract exactly if some memory is to remain**: for every process with
exactly its pages, every `int` `n` and wherever `kalloc` fails. -/
theorem sbrk_contract_iff (k : Kernel) (s : Kmem) (p : Proc) (n : Int) (h : Space k s p.pgdir)
    (hmaps : Maps s p.pgdir p.sz) (hpos : 0 < p.sz) (hlt : p.sz < KERNBASE) (hlo : -2 ^ 31 ≤ n)
    (hhi : n < 2 ^ 31) :
    (∃ r p' s', exec (sysSbrk k p n) [] s = .done (r, p') s' ∧ Contract s p n r p' s') ↔
      0 < (p.sz : Int) + n := by
  have hold : toInt32 p.sz = p.sz := toInt32_of_lt hlt
  constructor
  · rintro ⟨r, p', s', hdone, hcontract⟩
    by_contra hnot
    rcases Int.lt_or_eq_of_le (Int.not_lt.mp hnot) with hneg | hzero
    · -- more than there is: the old size is returned, and kept
      have hpost := post_of_done (wp_sbrk_beyond hpos hlo hneg) hdone
      obtain ⟨rfl, rfl⟩ : r = toInt32 p.sz ∧ p' = p := Prod.mk.inj hpost
      rcases hcontract with ⟨-, hsz, -⟩ | ⟨hr, -⟩
      · omega
      · omega
    · -- all there is: -1 is returned, and page 0 is gone
      have hneg : n < 0 := by omega
      have hnew : ((0 : Nat) : Int) = p.sz + n := hzero.symm
      obtain ⟨hres, hgone⟩ := (post_of_done (wp_sbrk_shrink h hmaps hlt hneg hnew) hdone).2 rfl
      obtain ⟨rfl, rfl⟩ : r = -1 ∧ p' = p := Prod.mk.inj hres
      rcases hcontract with ⟨hr, -⟩ | ⟨-, -, hsame⟩
      · omega
      have hup : 0 < UPAGES := by decide
      have hmap0 := (maps_iff hlt.le).mp hmaps 0 hup
      apply hmap0.mpr
      · exact lt_pages_iff.mpr (by rwa [Nat.zero_mul])
      · rw [← (hsame 0 hup).1, hgone 0 hup]
  · intro hsome
    obtain ⟨a, s', hdone, hcontract⟩ :
        ∃ a s', exec (sysSbrk k p n) [] s = .done a s' ∧ Contract s p n a.1 a.2 s' := by
      apply exec_done
      rcases Int.lt_trichotomy n 0 with hneg | rfl | hgrow
      · obtain ⟨newsz, hnew⟩ := Int.eq_ofNat_of_zero_le hsome.le
        have hwp := wp_sbrk_shrink h hmaps hlt hneg hnew.symm
        exact wp_mono hwp fun a s' hQ => hQ.1 (by omega)
      · refine .inl ⟨hold, by simp, rfl, hmaps, fun u _ _ => ⟨rfl, fun _ _ => rfl⟩,
          fun u hlo' hhi' => absurd hhi' hlo'.not_gt⟩
      · exact wp_sbrk_grow h hmaps hlt hgrow hhi
    exact ⟨a.1, a.2, s', hdone, hcontract⟩

theorem sbrk_contract_iff_one_page :
    ∃ r p' s', exec (sysSbrk tiny ⟨PGSIZE, 258⟩ (-1)) [] onePage = .done (r, p') s' ∧
      Contract onePage ⟨PGSIZE, 258⟩ (-1) r p' s' :=
  (sbrk_contract_iff tiny onePage ⟨PGSIZE, 258⟩ (-1) space_onePage maps_onePage (by decide)
    (by decide) (by decide) (by decide)).mpr (by decide)

/-- **A process of one page gives it back** and is told -1, and the page is gone; it gives back
two and is told the old size, which it still has. -/
theorem sbrk_all_breaks_contract :
    Space tiny onePage 258 ∧ Maps onePage 258 PGSIZE ∧
      (∃ r p' s', exec (sysSbrk tiny ⟨PGSIZE, 258⟩ (-PGSIZE)) [] onePage = .done (r, p') s' ∧
        r = -1 ∧ p' = ⟨PGSIZE, 258⟩ ∧ lookup onePage 258 0 ≠ none ∧ lookup s' 258 0 = none ∧
        ¬ Contract onePage ⟨PGSIZE, 258⟩ (-PGSIZE) r p' s') ∧
      ∃ r p' s', exec (sysSbrk tiny ⟨PGSIZE, 258⟩ (-(2 * PGSIZE))) [] onePage = .done (r, p') s' ∧
        r = PGSIZE ∧ p' = ⟨PGSIZE, 258⟩ ∧
        ¬ Contract onePage ⟨PGSIZE, 258⟩ (-(2 * PGSIZE)) r p' s' := by
  have hall : (exec (sysSbrk tiny ⟨PGSIZE, 258⟩ (-PGSIZE)) [] onePage).ends
      (fun a s' => decide (a = (-1, ⟨PGSIZE, 258⟩) ∧ lookup s' 258 0 = none)) = true := by
    decide +kernel
  have hbeyond : (exec (sysSbrk tiny ⟨PGSIZE, 258⟩ (-(2 * PGSIZE))) [] onePage).ends
      (fun a _ => decide (a = ((PGSIZE : Int), ⟨PGSIZE, 258⟩))) = true := by
    decide +kernel
  have hthere : lookup onePage 258 0 ≠ none := by exact some_ne_none _
  obtain ⟨⟨r, p'⟩, s', hdone, hr⟩ := Outcome.ends_iff.mp hall
  obtain ⟨⟨r2, p2⟩, s2, hdone2, hr2⟩ := Outcome.ends_iff.mp hbeyond
  obtain ⟨heq, hgone⟩ := of_decide_eq_true hr
  obtain ⟨rfl, rfl⟩ := Prod.mk.inj heq
  obtain ⟨rfl, rfl⟩ := Prod.mk.inj (of_decide_eq_true hr2)
  refine ⟨space_onePage, maps_onePage, ⟨_, _, s', hdone, rfl, rfl, hthere, hgone, ?_⟩,
    ⟨_, _, s2, hdone2, rfl, rfl, ?_⟩⟩
  · rintro (⟨hr, -⟩ | ⟨-, -, hsame⟩)
    · exact absurd hr (by decide)
    · exact hthere ((hsame 0 (by decide)).1.symm.trans hgone)
  · rintro (⟨-, hsz, -⟩ | ⟨hr, -⟩)
    · exact absurd hsz (by decide)
    · exact absurd hr (by decide)

end Xv6.Vm
