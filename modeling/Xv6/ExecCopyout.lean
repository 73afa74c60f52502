import Xv6.Exec
import Xv6.SideBySide
import Xv6.VmCopy

/-!
**What `copyout` writes, and where it fails.**

`copyout` goes through the range page by page and stops at the first page that is not the
user's. `uva2ka` reads that page's PTE without asking whether there is one: if the directory
has no page table there, the read goes through a null pointer, and the word at address 0, which
is the user's, tells where `copyout` writes. Up to that (`Backed`), the function does what it
should (`CopiedOut`). No page of the kernel half is the user's, so what is written is never a
page table, and a range that succeeds does not wrap around.
-/

namespace Xv6.Vm

open Program List Option Function

/-! ### Statement -/

/-- **A page directory made by `setupkvm`**, with user mappings. -/
structure Directory (k : Kernel) (s : Kmem) (pd : Nat) : Prop where
  space : Space k s pd
  kernel : ∀ u, UPAGES ≤ u → u < MAXPAGES → lookup s pd u = mapOf (kmap k) u

def pageAt (va j : Nat) : Nat := (va + j) % 2 ^ 32 / PGSIZE

def userFrame (s : Kmem) (pd v : Nat) : Option Nat :=
  (lookup s pd v).bind fun pte => if pte &&& PTE_U = 0 then none else some (pte / PGSIZE)

/-- Where only pages of the user's come before it, the range has a page table. -/
def Backed (s : Kmem) (pd va len : Nat) : Prop :=
  ∀ j < len, (∀ i < j, userFrame s pd (pageAt va i) ≠ none) →
    tableOf s pd (pageAt va j / NPTENTRIES) ≠ none

/-- **What `copyout` is for.** -/
structure CopiedOut (s : Kmem) (pd va : Nat) (src : List UInt8) (r : Int) (s' : Kmem) : Prop where
  zero : r = 0 ↔ ∀ j < src.length, userFrame s pd (pageAt va j) ≠ none
  copied : r = 0 → ∀ j < src.length, ∀ f, userFrame s pd (pageAt va j) = some f →
    byteOf (s'.page f) ((va + j) % PGSIZE) = (src.getD j 0).toNat
  rest : r = 0 → ∀ f o, (∀ j < src.length, userFrame s pd (pageAt va j) = some f →
    (va + j) % PGSIZE ≠ o) → byteOf (s'.page f) o = byteOf (s.page f) o
  failed : r ≠ 0 → r = -1
  confined : ∀ f, (∀ v < MAXPAGES, userFrame s pd v ≠ some f) → s'.page f = s.page f

/-! ### Bytes -/

section

variable (words : Nat → Nat) (off : Nat) (src : List UInt8)

theorem patchByte_lt (o : Nat) : patchByte words off src o < 256 := by
  rw [patchByte]
  split
  · exact UInt8.toNat_lt _
  · exact Nat.mod_lt _ (by decide)

theorem byteOf_patch (o : Nat) : byteOf (patch words off src) o = patchByte words off src o := by
  have hlt := patchByte_lt words off src
  have h0 := hlt (4 * (o / 4))
  have h1 := hlt (4 * (o / 4) + 1)
  have h2 := hlt (4 * (o / 4) + 2)
  have h3 := hlt (4 * (o / 4) + 3)
  have ho := Nat.div_add_mod o 4
  have hr : o % 4 < 4 := Nat.mod_lt _ (by decide)
  rw [byteOf, patch]
  -- which of the four bytes it is
  rcases hmod : o % 4 with _ | _ | _ | _ | r
  all_goals rw [hmod] at ho hr
  · rw [Nat.add_zero] at ho
    rw [ho] at h0 ⊢
    omega
  · rw [ho] at h1 ⊢
    omega
  · rw [ho] at h2 ⊢
    omega
  · rw [ho] at h3 ⊢
    omega
  · omega

end

/-! ### The user's pages -/

section

variable {k : Kernel} {s s' : Kmem} {pd v u f g : Nat}

theorem userFrame_eq_some : userFrame s pd v = some f ↔
    ∃ pte, lookup s pd v = some pte ∧ pte &&& PTE_U ≠ 0 ∧ pte / PGSIZE = f := by
  rw [userFrame, bind_eq_some_iff]
  simp only [ite_none_left_eq_some, Option.some.injEq]

/-- No line of `kmap` has `PTE_U`. -/
theorem mapOf_kmap {pte : Nat} (h : mapOf (kmap k) v = some pte) : pte &&& PTE_U = 0 := by
  obtain ⟨m, hm, rfl⟩ := map_eq_some_iff.mp h
  have hperm : m.perm = PTE_W ∨ m.perm = 0 := by
    have hmem := mem_of_find?_eq_some hm
    simp only [kmap, mem_cons, not_mem_nil, or_false] at hmem
    rcases hmem with rfl | rfl | rfl | rfl
    · exact .inl rfl
    · exact .inr rfl
    · exact .inl rfl
    · exact .inl rfl
  have hlow : m.pte v &&& PTE_U = PTE_FLAGS (m.pte v) &&& PTE_U := by
    rw [PTE_FLAGS, Nat.and_assoc]
    rfl
  rw [hlow, Kmap.pte]
  rcases hperm with hw | hz
  · rw [hw, flags_entry (by decide)]
    decide
  · rw [hz, flags_entry (by decide)]
    decide

variable (h : Directory k s pd)

include h

/-- **A page of the user's is in the user half.** -/
theorem Directory.user_lt (hv : v < MAXPAGES) (hf : userFrame s pd v = some f) : v < UPAGES := by
  obtain ⟨pte, hpte, huser, -⟩ := userFrame_eq_some.mp hf
  by_contra hge
  rw [h.kernel v (Nat.not_lt.mp hge) hv] at hpte
  exact huser (mapOf_kmap hpte)

theorem Directory.user_inj (hv : v < MAXPAGES) (hu : u < MAXPAGES) (hf : userFrame s pd v = some f)
    (hf' : userFrame s pd u = some f) : v = u := by
  obtain ⟨pte, hpte, -, heq⟩ := userFrame_eq_some.mp hf
  obtain ⟨pte', hpte', -, heq'⟩ := userFrame_eq_some.mp hf'
  exact h.space.page_inj (h.user_lt hv hf) (h.user_lt hu hf') hpte hpte' (heq.trans heq'.symm)

theorem Directory.write (hv : v < MAXPAGES) (hf : userFrame s pd v = some f)
    (hpage : ∀ g, g ≠ f → s'.page g = s.page g) (hfree : s'.freelist = s.freelist) :
    Directory k s' pd ∧ (∀ i, tableOf s' pd i = tableOf s pd i) ∧
      ∀ u < MAXPAGES, userFrame s' pd u = userFrame s pd u := by
  have hvu := h.user_lt hv hf
  obtain ⟨pte, hpte, -, rfl⟩ := userFrame_eq_some.mp hf
  have hdir := hpage pd (h.space.page_ne_dir hvu hpte).symm
  have htable : ∀ i < NPDENTRIES, ∀ t, tableOf s pd i = some t → s'.page t = s.page t :=
    fun i hi t ht => hpage t (h.space.page_ne_table hvu hpte hi ht).symm
  have hlook : ∀ u < MAXPAGES, lookup s' pd u = lookup s pd u :=
    fun u hu => lookup_congr hdir (htable _ (div_lt_of_lt_maxpages hu))
  have hown : own s' pd = own s pd := own_congr hdir htable
  refine ⟨⟨⟨?_, fun g hg => ?_⟩, fun u hk hu => ?_⟩, fun i => tableOf_congr hdir, fun u hu => ?_⟩
  · rw [hown, hfree]
    exact h.space.excl
  · rw [Holds, hown, hfree] at hg
    exact h.space.ram g hg
  · rw [hlook u hu, h.kernel u hk hu]
  · rw [userFrame, userFrame, hlook u hu]

end

/-! ### The loop -/

section

variable {k : Kernel} {s0 s : Kmem} {pd v va d n f j : Nat} {src : List UInt8}

theorem pageAt_lt : pageAt va j < MAXPAGES :=
  Nat.div_lt_of_lt_mul (Nat.mod_lt _ (by decide))

theorem exec_walkpgdir : exec (walkpgdir pd va false) [] s =
    .done ((tableOf s pd (PDX va)).map fun t => (t, PTX va)) s :=
  exec_eq_done (wp_walkpgdir_look ⟨rfl, rfl⟩)

/-- **`uva2ka`** finds the frame, if there is a page table. -/
theorem exec_uva2ka (null : Kprog Nat) (hv : v < MAXPAGES)
    (htable : tableOf s pd (v / NPTENTRIES) ≠ none) :
    exec (uva2ka null pd (v * PGSIZE)) [] s = .done (userFrame s pd v) s := by
  obtain ⟨t, ht⟩ := ne_none_iff_exists'.mp htable
  rw [uva2ka, exec_bind, exec_walkpgdir, pdx_page hv, ptx_page, ht]
  change Outcome.done (userPage (s.page t (v % NPTENTRIES))) s = _
  rw [userFrame, lookup_of_table ht, userPage]
  by_cases hp : Present (s.page t (v % NPTENTRIES))
  · rw [if_neg (not_not.mpr hp), if_pos hp, addr_div]
    rfl
  · rw [if_pos hp, if_neg hp]
    rfl

/-- If there is none, it reads through the null pointer. -/
theorem exec_uva2ka_null (null : Kprog Nat) (hv : v < MAXPAGES)
    (hnone : tableOf s pd (v / NPTENTRIES) = none) :
    exec (uva2ka null pd (v * PGSIZE)) [] s =
      exec (null >>= fun pte => return userPage pte) [] s := by
  rw [uva2ka, exec_bind, exec_walkpgdir, pdx_page hv, hnone]
  rfl

/-- **The first `d` bytes are copied.** -/
structure Upto (k : Kernel) (pd va : Nat) (src : List UInt8) (s0 : Kmem) (d : Nat) (s : Kmem) :
    Prop where
  le : d ≤ src.length
  dir : Directory k s pd
  tables : ∀ i, tableOf s pd i = tableOf s0 pd i
  frames : ∀ u < MAXPAGES, userFrame s pd u = userFrame s0 pd u
  users : ∀ j < d, userFrame s0 pd (pageAt va j) ≠ none
  copied : ∀ j < d, ∀ f, userFrame s0 pd (pageAt va j) = some f →
    byteOf (s.page f) ((va + j) % PGSIZE) = (src.getD j 0).toNat
  rest : ∀ f o, (∀ j < d, userFrame s0 pd (pageAt va j) = some f → (va + j) % PGSIZE ≠ o) →
    byteOf (s.page f) o = byteOf (s0.page f) o
  confined : ∀ f, (∀ v < MAXPAGES, userFrame s0 pd v ≠ some f) → s.page f = s0.page f

theorem Directory.upto (h : Directory k s pd) : Upto k pd va src s 0 s where
  le := Nat.zero_le _
  dir := h
  tables _ := rfl
  frames _ _ := rfl
  users j hj := absurd hj (Nat.not_lt_zero j)
  copied j hj := absurd hj (Nat.not_lt_zero j)
  rest _ _ _ := rfl
  confined _ _ := rfl

theorem page_write_self (off : Nat) (buf : List UInt8) :
    (s.write f off buf).page f = patch (s.page f) off buf :=
  update_self ..

theorem page_write_of_ne {g off : Nat} {buf : List UInt8} (hg : g ≠ f) :
    (s.write f off buf).page g = s.page g :=
  update_of_ne hg ..

theorem byteOf_write {off g o : Nat} {buf : List UInt8}
    (h : g = f → ∀ i < buf.length, off + i ≠ o) :
    byteOf ((s.write f off buf).page g) o = byteOf (s.page g) o := by
  by_cases hg : g = f
  · subst hg
    rw [page_write_self, byteOf_patch, patchByte, if_neg]
    rintro ⟨hle, hlt⟩
    exact h rfl (o - off) (by omega) (by omega)
  · rw [page_write_of_ne hg]

theorem pageAt_of_lt (h : va + j < 2 ^ 32) : pageAt va j = (va + j) / PGSIZE := by
  rw [pageAt, Nat.mod_eq_of_lt h]

variable (h : Upto k pd va src s0 d s)
include h

/-- **One round**: `n` bytes go to the page of the next byte. -/
theorem Upto.round (hd : va + d < 2 ^ 32) (hf : userFrame s0 pd (pageAt va d) = some f)
    (hn : d + n ≤ src.length) (hin : (va + d) % PGSIZE + n ≤ PGSIZE) :
    Upto k pd va src s0 (d + n) (s.write f ((va + d) % PGSIZE) ((src.drop d).take n)) := by
  have hlen : ((src.drop d).take n).length = n := by
    rw [length_take, length_drop]
    omega
  have hlt : pageAt va d < MAXPAGES := pageAt_lt
  -- the bytes of this round
  have hnew : ∀ i < n, pageAt va (d + i) = pageAt va d ∧
      (va + (d + i)) % PGSIZE = (va + d) % PGSIZE + i := by
    intro i hi
    rw [pageAt, pageAt]
    rw [PGSIZE] at hin ⊢
    omega
  have hcases : ∀ j < d + n, j < d ∨ ∃ i < n, j = d + i := by
    intro j hj
    rcases Nat.lt_or_ge j d with hjd | hjd
    · exact .inl hjd
    · exact .inr ⟨j - d, by omega, by omega⟩
  have hother : ∀ g, g ≠ f →
      (s.write f ((va + d) % PGSIZE) ((src.drop d).take n)).page g = s.page g :=
    fun g hg => page_write_of_ne hg
  obtain ⟨hdir, htables, hframes⟩ := h.dir.write hlt ((h.frames _ hlt).trans hf) hother rfl
  constructor
  · exact hn
  · exact hdir
  · exact fun i => (htables i).trans (h.tables i)
  · exact fun u hu => (hframes u hu).trans (h.frames u hu)
  · intro j hj
    rcases hcases j hj with hjd | ⟨i, hi, rfl⟩
    · exact h.users j hjd
    · rw [(hnew i hi).1, hf]
      exact some_ne_none f
  · intro j hj g hg
    rcases hcases j hj with hjd | ⟨i, hi, rfl⟩
    · -- an earlier byte, below those of this round if it is in the same page
      rw [byteOf_write, h.copied j hjd g hg]
      rintro rfl i -
      have hpage := h.dir.user_inj pageAt_lt hlt ((h.frames _ pageAt_lt).trans hg)
        ((h.frames _ hlt).trans hf)
      rw [pageAt_of_lt (by omega), pageAt_of_lt hd] at hpage
      rw [PGSIZE] at hpage ⊢
      omega
    · rw [(hnew i hi).1, hf] at hg
      cases hg
      rw [(hnew i hi).2, page_write_self, byteOf_patch, patchByte, if_pos (by omega),
        Nat.add_sub_cancel_left, getD_eq_getElem?_getD, List.getElem?_take_of_lt hi,
        List.getElem?_drop, ← getD_eq_getElem?_getD]
  · intro g o hnot
    rw [byteOf_write]
    · exact h.rest g o fun j hj => hnot j (Nat.lt_add_right n hj)
    rintro rfl i hi
    rw [hlen] at hi
    rw [← (hnew i hi).2]
    exact hnot (d + i) (Nat.add_lt_add_left hi d) (by rw [(hnew i hi).1, hf])
  · intro g hg
    have hgf : g ≠ f := by
      rintro rfl
      exact hg _ hlt hf
    rw [page_write_of_ne hgf, h.confined g hg]

theorem Upto.backed (hj : j < d) : tableOf s0 pd (pageAt va j / NPTENTRIES) ≠ none := by
  intro hnone
  apply h.users j hj
  rw [userFrame, lookup_eq_none_of_table hnone]
  rfl

theorem Upto.done (hd : src.length ≤ d) :
    Backed s0 pd va src.length ∧ CopiedOut s0 pd va src 0 s := by
  obtain rfl : d = src.length := Nat.le_antisymm h.le hd
  refine ⟨fun j hj _ => h.backed hj, ?_⟩
  constructor
  · exact iff_of_true rfl h.users
  · exact fun _ => h.copied
  · exact fun _ => h.rest
  · exact absurd rfl
  · exact h.confined

/-- The next page is not the user's. -/
theorem Upto.stopped (hd : d < src.length)
    (htable : tableOf s0 pd (pageAt va d / NPTENTRIES) ≠ none)
    (hnone : userFrame s0 pd (pageAt va d) = none) :
    Backed s0 pd va src.length ∧ CopiedOut s0 pd va src (-1) s := by
  refine ⟨fun j hj huser => ?_, ?_⟩
  · rcases Nat.lt_trichotomy j d with hlt | rfl | hgt
    · exact h.backed hlt
    · exact htable
    · exact absurd hnone (huser d hgt)
  · constructor
    · exact iff_of_false (by decide) fun hall => hall d hd hnone
    · exact fun hr => absurd hr (by decide)
    · exact fun hr => absurd hr (by decide)
    · exact fun _ => rfl
    · exact h.confined

omit h

theorem exec_copyoutLoop : ∀ (fuel : Nat) {d cur : Nat} {s : Kmem}, Upto k pd va src s0 d s →
    (src.drop d).length < fuel → (d < src.length → cur = va + d ∧ va + d < 2 ^ 32) →
      (Backed s0 pd va src.length ∧ ∃ r s', CopiedOut s0 pd va src r s' ∧
        ∀ null, exec (copyoutLoop null pd fuel cur (src.drop d)) [] s = .done r s') ∨
      (¬ Backed s0 pd va src.length ∧
        ∀ msg, exec (copyoutLoop (.panic msg) pd fuel cur (src.drop d)) [] s = .panic msg) := by
  intro fuel
  induction fuel with
  | zero => exact fun _ hlen => absurd hlen (Nat.not_lt_zero _)
  | succ fuel ih =>
    intro d cur s h hlen hcur
    rw [length_drop] at hlen
    by_cases hnil : src.drop d = []
    · obtain ⟨hback, hout⟩ := h.done (drop_eq_nil_iff.mp hnil)
      refine .inl ⟨hback, 0, s, hout, fun null => ?_⟩
      rw [copyoutLoop, if_pos hnil]
      rfl
    have hd : d < src.length := Nat.not_le.mp fun hle => hnil (drop_eq_nil_of_le hle)
    obtain ⟨rfl, hlt⟩ := hcur hd
    have hpage : pageAt va d = (va + d) / PGSIZE := pageAt_of_lt hlt
    have hv : pageAt va d < MAXPAGES := pageAt_lt
    simp only [copyoutLoop, if_neg hnil, PGROUNDDOWN, ← hpage, exec_bind]
    by_cases hnone : tableOf s pd (pageAt va d / NPTENTRIES) = none
    · refine .inr ⟨fun hback => hback d hd h.users (h.tables _ ▸ hnone), fun msg => ?_⟩
      rw [exec_uva2ka_null _ hv hnone]
      rfl
    simp only [exec_uva2ka _ hv hnone, h.frames _ hv]
    rcases hf : userFrame s0 pd (pageAt va d) with _ | f
    · obtain ⟨hback, hout⟩ := h.stopped hd (h.tables _ ▸ hnone) hf
      exact .inl ⟨hback, -1, s, hout, fun _ => rfl⟩
    have hhalf := h.dir.user_lt hv ((h.frames _ hv).trans hf)
    have hoff : va + d - pageAt va d * PGSIZE = (va + d) % PGSIZE := by
      rw [hpage, PGSIZE]
      omega
    have hmod : (va + d) % PGSIZE < PGSIZE := Nat.mod_lt _ (by decide)
    rw [hoff, length_drop]
    generalize hn : min (PGSIZE - (va + d) % PGSIZE) (src.length - d) = n
    rw [drop_drop]
    refine ih (h.round hlt hf (by omega) (by omega)) (by rw [length_drop]; omega) ?_
    intro hlater
    have hbase : UPAGES * PGSIZE ≤ 2 ^ 31 := by decide
    rw [PGSIZE] at hn hpage hbase ⊢
    omega

end

/-- **`copyout` does what it should and reads no PTE through a null pointer** (it ends in the same
way whatever such a read does), unless it comes to a page without a page table. -/
theorem copyout_confined_iff (k : Kernel) (s : Kmem) (pd va : Nat) (src : List UInt8)
    (h : Directory k s pd) (hva : va < 2 ^ 32) :
    (∃ r s', (∀ null, exec (copyout null pd va src) [] s = .done r s') ∧
      CopiedOut s pd va src r s') ↔ Backed s pd va src.length := by
  rcases exec_copyoutLoop (src.length + 1) h.upto (Nat.lt_succ_self _) fun _ => ⟨rfl, hva⟩ with
    ⟨hback, r, s', hout, hdone⟩ | ⟨hnot, hpanic⟩
  · exact iff_of_true ⟨r, s', hdone, hout⟩ hback
  · refine iff_of_false ?_ hnot
    rintro ⟨r, s', hdone, -⟩
    cases (hpanic "").symm.trans (hdone _)

theorem setupkvm_directory {k : Kernel} {s : Kmem} (hpool : Pool k s)
    (hfound : ∀ j < 65, s.oom (s.calls + j) = false ∧ j < s.freelist.length) :
    ∃ s' d, Directory k s' d ∧ (∀ i < NPDENTRIES, tableOf s' d i ≠ none ↔ Kentry i) ∧
      (∀ u < UPAGES, lookup s' d u = none) ∧ ∀ f, f ∉ s.freelist → s'.page f = s.page f := by
  have hmade : wp never (setupkvm k) (fun r s' => ∃ d, r = some d ∧ Directory k s' d ∧
      (∀ i < NPDENTRIES, tableOf s' d i ≠ none ↔ Kentry i) ∧
      (∀ u < UPAGES, lookup s' d u = none) ∧ ∀ f, f ∉ s.freelist → s'.page f = s.page f) s := by
    apply wp_setupkvm hpool
    · exact fun j s' _ hdry hj => absurd (hfound j hj) hdry.not_found
    · exact fun d s' hnew hempty htables _ =>
        ⟨d, rfl, ⟨hnew.space, hnew.kernel⟩, htables, hempty, hnew.outside⟩
  obtain ⟨r, s', -, d, -, hd⟩ := exec_done hmade
  exact ⟨s', d, hd⟩

/-- `roomy`, with a word in the first page of its process that is a PTE of the kernel's data. -/
def forged : Kmem := roomy.store 260 0 (entry 257 (PTE_W ||| PTE_U))

theorem exists_directory : ∃ s d, Directory tiny s d ∧
    (∀ i < NPDENTRIES, tableOf s d i ≠ none ↔ Kentry i) ∧
    (∀ v < MAXPAGES, userFrame s d v = none) ∧ ∀ f < 261, s.page f = forged.page f := by
  have hlen : forged.freelist.length = 100 := by decide
  obtain ⟨s, d, h, htables, hempty, hkept⟩ := setupkvm_directory (s := forged)
    ⟨pool_roomy.nodup, pool_roomy.ram⟩ fun j hj => ⟨rfl, by omega⟩
  refine ⟨s, d, h, htables, fun v hv => ?_, fun f hf => hkept f fun hin => ?_⟩
  · by_contra huser
    obtain ⟨f, hf⟩ := ne_none_iff_exists'.mp huser
    rw [userFrame, hempty v (h.user_lt hv hf)] at hf
    cases hf
  · exact absurd (mem_range'_1.mp hin).1 (by omega)

/-- On an address of the kernel's, `copyout` fails and writes nothing of it. -/
theorem copyout_confined_iff_kernel : ∃ s d, Directory tiny s d ∧
    ∃ s', ∀ null, exec (copyout null d KERNBASE [7]) [] s = .done (-1) s' := by
  obtain ⟨s, d, h, htables, hnone, -⟩ := exists_directory
  have hback : Backed s d KERNBASE 1 := by
    intro j hj _
    rw [Nat.lt_one_iff.mp hj]
    exact (htables _ (by decide)).mpr (by decide)
  obtain ⟨r, s', hdone, hout⟩ :=
    (copyout_confined_iff tiny s d KERNBASE [7] h (by decide)).mpr hback
  have hne : r ≠ 0 := fun hr => hout.zero.mp hr 0 Nat.one_pos (hnone _ (by decide))
  exact ⟨s, d, h, s', hout.failed hne ▸ hdone⟩

/-- **In the hole between the kernel's memory and the devices there is no page table**: the address
is `sp` for an argument of some 64 megabytes. No page is the user's; `copyout` takes the word at
address 0 for a PTE, writes the kernel's data and returns 0. -/
theorem copyout_reads_null : ∃ s d s', Directory tiny s d ∧
    (∀ v < MAXPAGES, userFrame s d v = none) ∧
    exec (copyout (derefNull 258) d 0xFC000000 [7]) [] s = .done 0 s' ∧
    byteOf (s'.page 257) 0 = 7 ∧ byteOf (s.page 257) 0 ≠ 7 := by
  obtain ⟨s, d, h, htables, hnone, hkept⟩ := exists_directory
  have htable : tableOf s d (1032192 / NPTENTRIES) = none :=
    not_ne_iff.mp fun hne => absurd ((htables 1008 (by decide)).mp hne) (by decide)
  -- the word at address 0
  have hdir : tableOf s 258 (PDX 0) = some 259 := by
    rw [tableOf, hkept 258 (by decide)]
    decide
  have hnull : exec (derefNull 258) [] s = .done (forged.page 260 0) s := by
    rw [derefNull, exec_bind, exec_walkpgdir, hdir]
    change exec (if Present (s.page 259 0) then
      reads fun s' => s'.page (PTE_ADDR (s.page 259 0) / PGSIZE) 0 else _) [] s = _
    rw [hkept 259 (by decide), if_pos (by decide), ← hkept 260 (by decide)]
    rfl
  have huva : exec (uva2ka (derefNull 258) d (1032192 * PGSIZE)) [] s = .done (some 257) s := by
    rw [exec_uva2ka_null _ (by decide) htable, exec_bind, hnull]
    rfl
  refine ⟨s, d, s.write 257 0 [7], h, hnone, ?_, ?_, ?_⟩
  · rw [copyout, copyoutLoop, if_neg (by decide), exec_bind]
    change Outcome.andThen (exec (uva2ka (derefNull 258) d (1032192 * PGSIZE)) [] s) _ = _
    rw [huva]
    rfl
  · rw [page_write_self, byteOf_patch]
    rfl
  · rw [hkept 257 (by decide)]
    decide

end Xv6.Vm
