import Mathlib.Order.Interval.Finset.Nat
import Xv6.BlocksCalls

/-!
**Files are byte arrays.**

Between two calls the state is `Sound`: the blocks balance with the inodes as they are on the
disk, every file has a block for each index below its size, and the valid inodes in memory are
those on the disk. From a sound state `writei` reaches a sound state in which the contents of the
file have the data in place and no other contents have changed (`wp_writei`), and `readi` copies
the contents and changes nothing (`wp_readi`).
-/

namespace Xv6.Blocks

open Bytes Program Function List

theorem filePtr_inj {a b : Nat} (h : filePtr a = filePtr b) : a = b := by
  unfold filePtr at h
  split at h
  · split at h
    · exact Ptr.direct.inj h
    · cases h
  split at h
  · cases h
  · have hsub := Ptr.entry.inj h
    omega

/-- `n` bytes at `src`, at offset `off` of a file. -/
def span (off n : Nat) (src : Nat → UInt8) (x : Nat) : Option UInt8 :=
  if off ≤ x ∧ x < off + n then some (src (x - off)) else none

/-! ### One block of data -/

section

variable {ip : Nat} {s : Fs} {P : Finset Ptr}

def Fs.blitted (s : Fs) (p off m : Nat) (src : Nat → UInt8) : Fs :=
  let s' := s.setBlk p (blit (s.blk p) off m src)
  { s' with logged := s'.logged ++ [p] }

theorem Working.blitted (h : Working ip s) {off m p : Nat} (src : Nat → UInt8)
    (hptr : ptr s.blk (s.copy ip) (filePtr (off / BSIZE)) = p) (hp : p ≠ 0)
    (hfit : off % BSIZE + m ≤ BSIZE) :
    Working ip (s.blitted p (off % BSIZE) m src) ∧
      Wrote ip P (span off m src) s (s.blitted p (off % BSIZE) m src) := by
  have hbsize : BSIZE = 512 := rfl
  have hview : ptr s.blk (s.view ip ip) (filePtr (off / BSIZE)) = p := by
    rw [Fs.view_self]
    exact hptr
  have hrange := h.owned.ptr_range h.live (hview.symm ▸ hp)
  have howned := h.owned.writeData h.live (hview.symm ▸ hp) (filePtr_ne_table _)
    (blit (s.blk p) (off % BSIZE) m src)
  have hown := h.owned.own_writeData h.live (hview.symm ▸ hp) (filePtr_ne_table _)
    (blit (s.blk p) (off % BSIZE) m src)
  rw [hview] at hrange howned hown
  have hkept : Kept ip s (s.blitted p (off % BSIZE) m src) := by
    refine ⟨rfl, fun _ _ => rfl, rfl, rfl, ⟨_, rfl⟩, fun i hi => ?_⟩
    have hlt := h.owned.layout.IBLOCK_lt_dataStart hi.2 hrange.2
    have hblk : (s.blitted p (off % BSIZE) m src).blk (IBLOCK i s.sb) = s.blk (IBLOCK i s.sb) :=
      update_of_ne (by omega) ..
    exact dinode_of_blk rfl hblk
  have hsame : ∀ i, Numbered s.sb i → (s.blitted p (off % BSIZE) m src).view ip i = s.view ip i := by
    intro i hi
    have hcopy : (s.blitted p (off % BSIZE) m src).copy ip = s.view ip ip := (Fs.view_self s ip).symm
    rw [hkept.view_eq hi, hcopy, update_eq_self]
  have hptrs : ∀ i, Live s.sb (s.view ip) i → ∀ q,
      ptr (s.blitted p (off % BSIZE) m src).blk (s.view ip i) q = ptr s.blk (s.view ip i) q := by
    intro i hi q
    have howns := hown (i, q)
    rw [own_live hi, own_live hi] at howns
    exact howns
  have hself : (s.blitted p (off % BSIZE) m src).blk p = blit (s.blk p) (off % BSIZE) m src :=
    update_self ..
  have hwrote : Wrote ip P (span off m src) s (s.blitted p (off % BSIZE) m src) := by
    apply Wrote.mk hkept
    · intro i hi q _
      rw [hsame i hi.1, hptrs i hi q]
    · intro i hi x hx hspan
      rw [hsame i hi.1, fileByte, hptrs i hi, fileByte]
      by_cases hpx : ptr s.blk (s.view ip i) (filePtr (x / BSIZE)) = p
      · -- the same block: then it is the same file, and `x` is outside what was written
        obtain ⟨rfl, hq⟩ := h.owned.ptr_once hi h.live hx (hpx.trans hview.symm)
        have hbn := filePtr_inj hq
        have hout : ¬ (off ≤ x ∧ x < off + m) := by
          intro hin
          have hnone := hspan rfl
          rw [span, if_pos hin] at hnone
          cases hnone
        rw [hpx, hself, byteAt_blit _ _ hfit, if_neg]
        intro hin
        apply hout
        rw [hbsize] at hin hbn
        omega
      · have hblk : (s.blitted p (off % BSIZE) m src).blk
            (ptr s.blk (s.view ip i) (filePtr (x / BSIZE))) =
              s.blk (ptr s.blk (s.view ip i) (filePtr (x / BSIZE))) :=
          update_of_ne hpx ..
        rw [hblk]
    · intro x v hv
      obtain ⟨hin, ⟨⟩⟩ := Option.ite_none_right_eq_some.mp hv
      have hbn : x / BSIZE = off / BSIZE := by
        rw [hbsize] at hfit ⊢
        omega
      have hmod : off % BSIZE ≤ x % BSIZE ∧ x % BSIZE < off % BSIZE + m := by
        rw [hbsize] at hbn hfit ⊢
        omega
      have hsub : x % BSIZE - off % BSIZE = x - off := by
        rw [hbsize] at hbn hfit ⊢
        omega
      have hcopy : (s.blitted p (off % BSIZE) m src).copy ip = s.view ip ip :=
        (Fs.view_self s ip).symm
      rw [fileByte, hbn, hcopy, hptrs ip h.live, hview]
      exact ⟨hp, by rw [hself, byteAt_blit _ _ hfit, if_pos hmod, hsub]⟩
    · have hlacks : lacks (s.blitted p (off % BSIZE) m src) ip P = lacks s ip P := by
        apply Finset.filter_congr
        intro q _
        have hcopy : (s.blitted p (off % BSIZE) m src).copy ip = s.view ip ip :=
          (Fs.view_self s ip).symm
        rw [hcopy, hptrs ip h.live, Fs.view_self]
      have hfree : (s.blitted p (off % BSIZE) m src).free = s.free := by
        apply Finset.filter_congr
        intro b hb
        exact not_congr (h.owned.marked_update hrange.1 _ (Finset.mem_range.mp hb))
      rw [hlacks, hfree]
    · exact fun _ => rfl
  refine ⟨hwrote.working h (howned.frame rfl (fun _ _ => Iff.rfl) ?_), hwrote⟩
  exact own_numbered hsame

end

/-! ### The loops -/

section

variable {E : String → Prop} {ip n off : Nat} {s : Fs} {P : Finset Ptr}

theorem chunk_pos (hn : n ≠ 0) (off : Nat) : 0 < chunk off n := by
  have hlt : off % BSIZE < BSIZE := Nat.mod_lt off (by decide)
  unfold chunk
  omega

theorem chunk_le (off n : Nat) : chunk off n ≤ n := Nat.min_le_left ..

theorem chunk_fits (off n : Nat) : off % BSIZE + chunk off n ≤ BSIZE := by
  have hlt : off % BSIZE < BSIZE := Nat.mod_lt off (by decide)
  unfold chunk
  omega

theorem span_zero (off : Nat) (src : Nat → UInt8) : span off 0 src = fun _ => none := by
  funext x
  rw [span, if_neg (by omega)]

theorem span_split {m : Nat} (hm : m ≤ n) (src : Nat → UInt8) :
    (fun x => (span (off + m) (n - m) (fun i => src (m + i)) x).or (span off m src x)) =
      span off n src := by
  funext x
  unfold span
  by_cases hin : off ≤ x ∧ x < off + n
  · rw [if_pos hin]
    by_cases hrest : off + m ≤ x ∧ x < off + m + (n - m)
    · have hsub : m + (x - (off + m)) = x - off := by omega
      rw [if_pos hrest, Option.some_or]
      simp only [hsub]
    · rw [if_neg hrest, Option.none_or, if_pos (by omega)]
  · rw [if_neg hin, if_neg (by omega), Option.none_or, if_neg (by omega)]

/-- The pointers that a call for these bytes may have to fill. -/
def needed (off n : Nat) : Finset Ptr := (Finset.Ico off (off + n)).biUnion fun x => needs (x / BSIZE)

theorem needs_subset_needed {x : Nat} (hlo : off ≤ x) (hhi : x < off + n) :
    needs (x / BSIZE) ⊆ needed off n :=
  Finset.subset_biUnion_of_mem (fun x => needs (x / BSIZE)) (Finset.mem_Ico.mpr ⟨hlo, hhi⟩)

theorem needed_rest {m : Nat} (hm : m ≤ n) : needed (off + m) (n - m) ⊆ needed off n := by
  apply Finset.biUnion_subset_biUnion_of_subset_left
  apply Finset.Ico_subset_Ico
  · omega
  · omega

theorem block_lt (hn : n ≠ 0) (hmax : off + n ≤ MAXFILE * BSIZE) : off / BSIZE < MAXFILE := by
  apply Nat.div_lt_of_lt_mul
  rw [Nat.mul_comm]
  omega

/-- **`writei`'s loop** puts the bytes in their places. -/
theorem wp_writeLoop :
    ∀ {fuel : Nat} {src : Nat → UInt8} {off n : Nat} {s : Fs} {Q : Unit → Fs → Prop},
      Working ip s → n ≤ fuel → off + n ≤ MAXFILE * BSIZE → needed off n ⊆ P → Room E s ip P →
      (∀ s', Working ip s' → Wrote ip P (span off n src) s s' → Q () s') →
        wp E (writeLoop ip fuel src off n) Q s := by
  intro fuel
  induction fuel with
  | zero =>
    intro src off n s Q h hfuel _ _ _ hQ
    have hn : n = 0 := Nat.le_zero.mp hfuel
    subst hn
    exact hQ s h (span_zero off src ▸ .refl ip P s)
  | succ fuel ih =>
    intro src off n s Q h hfuel hmax hP hroom hQ
    rw [writeLoop]
    by_cases hn : n = 0
    · subst hn
      exact hQ s h (span_zero off src ▸ .refl ip P s)
    rw [if_neg hn, wp_bind]
    have hpos := chunk_pos hn off
    have hle := chunk_le off n
    have hneeds : needs (off / BSIZE) ⊆ P :=
      (needs_subset_needed le_rfl (by omega)).trans hP
    apply wp_bmap h (block_lt hn hmax) hneeds hroom
    intro p s1 hworking1 hwrote1 hp hptr
    obtain ⟨hworking2, hwrote2⟩ :=
      hworking1.blitted src hptr hp (chunk_fits off n)
    have hwrote12 := hwrote1.trans hwrote2 h.live
    apply ih hworking2 (by omega) (by omega) ((needed_rest hle).trans hP)
      (hwrote12.room_iff.mpr hroom)
    intro s3 hworking3 hwrote3
    apply hQ s3 hworking3
    have hwrote := hwrote12.trans hwrote3 h.live
    simp only [Option.or_none] at hwrote
    rw [span_split hle] at hwrote
    exact hwrote

/-- **`readi`'s loop** copies the bytes, and changes nothing. -/
theorem wp_readLoop :
    ∀ {fuel off n : Nat} {Q : List UInt8 → Fs → Prop}, n ≤ fuel →
      (∀ x, off ≤ x → x < off + n → x / BSIZE < MAXFILE ∧
        ptr s.blk (s.copy ip) (filePtr (x / BSIZE)) ≠ 0) →
      Q ((List.range n).map fun i => fileByte s.blk (s.copy ip) (off + i)) s →
        wp E (readLoop ip fuel off n) Q s := by
  intro fuel
  induction fuel with
  | zero =>
    intro off n Q hfuel _ hQ
    have hn : n = 0 := Nat.le_zero.mp hfuel
    subst hn
    exact hQ
  | succ fuel ih =>
    intro off n Q hfuel hmapped hQ
    rw [readLoop]
    by_cases hn : n = 0
    · subst hn
      exact hQ
    rw [if_neg hn, wp_bind]
    have hbsize : BSIZE = 512 := rfl
    have hpos := chunk_pos hn off
    have hle := chunk_le off n
    have hfits := chunk_fits off n
    obtain ⟨hmax, hptr⟩ := hmapped off le_rfl (by omega)
    apply wp_bmap_mapped hmax hptr
    rw [wp_bind, bread, wp_reads, wp_bind]
    apply ih (by omega) fun x hlo hhi => hmapped x (by omega) (by omega)
    -- the chunk lies in one block
    have hslice : slice (s.blk (ptr s.blk (s.copy ip) (filePtr (off / BSIZE)))) (off % BSIZE)
        (chunk off n) =
          (List.range (chunk off n)).map fun i => fileByte s.blk (s.copy ip) (off + i) := by
      apply map_congr_left
      intro i hi
      rw [mem_range] at hi
      have hdiv : (off + i) / BSIZE = off / BSIZE := by
        rw [hbsize] at hfits ⊢
        omega
      have hmod : (off + i) % BSIZE = off % BSIZE + i := by
        rw [hbsize] at hfits ⊢
        omega
      rw [fileByte, hdiv, hmod]
    have hlist : (List.range n).map (fun i => fileByte s.blk (s.copy ip) (off + i)) =
        slice (s.blk (ptr s.blk (s.copy ip) (filePtr (off / BSIZE)))) (off % BSIZE) (chunk off n) ++
          (List.range (n - chunk off n)).map
            fun i => fileByte s.blk (s.copy ip) (off + chunk off n + i) := by
      have hsum : n = chunk off n + (n - chunk off n) := by omega
      rw [hslice]
      conv_lhs => rw [hsum]
      rw [range_add, map_append, map_map]
      simp only [comp_def, Nat.add_assoc]
    exact hlist ▸ hQ

end

/-! ### Between two calls -/

structure Sound (s : Fs) : Prop where
  owned : Owned s.sb s.blk s.dinode fun _ => False
  mapped : ∀ i, Live s.sb s.dinode i → Mapped s.blk (s.dinode i)
  cached : ∀ i, (s.icache i).valid = true → Live s.sb s.dinode i ∧ s.copy i = s.dinode i

section

variable {ip i : Nat} {s : Fs}

theorem Fs.view_eq_dinode (hcopy : s.copy ip = s.dinode ip) : s.view ip = s.dinode := by
  rw [Fs.view, hcopy, update_eq_self]

theorem Sound.working (h : Sound s) (hvalid : (s.icache ip).valid = true) : Working ip s := by
  obtain ⟨hlive, hcopy⟩ := h.cached ip hvalid
  have hview := Fs.view_eq_dinode hcopy
  exact {
    owned := hview.symm ▸ h.owned
    live := hview.symm ▸ hlive
    mapped := hview.symm ▸ h.mapped
    valid := hvalid
    cached := fun i _ => h.cached i }

theorem Working.sound (h : Working ip s) (hcopy : s.copy ip = s.dinode ip) : Sound s := by
  have hview := Fs.view_eq_dinode hcopy
  refine ⟨hview ▸ h.owned, hview ▸ h.mapped, fun i hvalid => ?_⟩
  by_cases hii : i = ip
  · subst hii
    exact ⟨hview ▸ h.live, hcopy⟩
  · exact h.cached i hii hvalid

theorem Fs.view_setCopy (s : Fs) (ip : Nat) (d : Dinode) :
    (s.setCopy ip d).view ip = update (s.view ip) ip d := by
  rw [Fs.view, Fs.copy_setCopy, Fs.view, update_idem]
  rfl

theorem Working.setCopy (h : Working ip s) {d : Dinode} (haddr : ∀ k, d.addr k = (s.copy ip).addr k)
    (htype : d.type ≠ 0) (hmapped : Mapped s.blk d) : Working ip (s.setCopy ip d) := by
  have hview := s.view_setCopy ip d
  have hold : (s.view ip ip).type ≠ 0 := h.live.2
  constructor
  · rw [hview]
    apply h.owned.reino
    · rw [Fs.view_self]
      exact haddr
    · exact ⟨fun heq => absurd heq htype, fun heq => absurd heq hold⟩
  · rw [hview, Live, update_self]
    exact ⟨h.live.1, htype⟩
  · intro i hi
    rw [hview] at hi ⊢
    by_cases hii : i = ip
    · subst hii
      rw [update_self]
      exact hmapped
    · rw [Live, update_of_ne hii] at hi
      rw [update_of_ne hii]
      exact h.mapped i hi
  · have hsame : ((s.setCopy ip d).icache ip).valid = (s.icache ip).valid := by
      simp [Fs.setCopy, Fs.setIncore]
    exact hsame.trans h.valid
  · intro i hii hvalid
    rw [Fs.icache_setCopy_of_ne _ hii] at hvalid
    have hcopy : (s.setCopy ip d).copy i = s.copy i :=
      congrArg Incore.copy (Fs.icache_setCopy_of_ne s hii d)
    rw [hcopy]
    exact h.cached i hii hvalid

def Fs.stored (s : Fs) (ip : Nat) : Fs :=
  let s' := s.setBlk (IBLOCK ip s.sb) (putDinode (s.blk (IBLOCK ip s.sb)) (ip % IPB) (s.copy ip))
  { s' with logged := s'.logged ++ [IBLOCK ip s.sb] }

theorem dinode_put {s' : Fs} {d : Dinode} (hsb : s'.sb = s.sb)
    (hblk : s'.blk = update s.blk (IBLOCK ip s.sb)
      (putDinode (s.blk (IBLOCK ip s.sb)) (ip % IPB) d)) : s'.dinode = update s.dinode ip d := by
  have hlt : ip % IPB < IPB := Nat.mod_lt ip (by decide)
  funext i
  rw [Fs.dinode, hsb, hblk]
  by_cases hii : i = ip
  · subst hii
    rw [update_self, update_self, dinodeAt_putDinode _ hlt]
  rw [update_of_ne hii, Fs.dinode]
  by_cases hblock : IBLOCK i s.sb = IBLOCK ip s.sb
  · have hmod : i % IPB ≠ ip % IPB := fun heq => hii (IBLOCK_eq_iff.mp ⟨hblock, heq⟩)
    rw [hblock, update_self, dinodeAt_putDinode_of_ne _ hmod]
  · rw [update_of_ne hblock]

theorem Fs.stored_eq (s : Fs) (ip : Nat) : (s.stored ip).dinode = s.view ip := dinode_put rfl rfl

theorem Fs.dinode_stored (s : Fs) (ip : Nat) : (s.stored ip).dinode ip = s.copy ip := by
  rw [Fs.stored_eq, Fs.view_self]

theorem Fs.dinode_stored_of_ne (s : Fs) (hne : i ≠ ip) : (s.stored ip).dinode i = s.dinode i := by
  rw [Fs.stored_eq, Fs.view_of_ne _ hne]

variable (h : Working ip s)
include h

variable (hi : Live s.sb (s.view ip) i)
include hi

theorem Working.stored_blk {q : Ptr} (hq : ptr s.blk (s.view ip i) q ≠ 0) :
    (s.stored ip).blk (ptr s.blk (s.view ip i) q) = s.blk (ptr s.blk (s.view ip i) q) := by
  have hrange := h.owned.ptr_range hi hq
  have hlt := h.owned.layout.IBLOCK_lt_dataStart h.live.1.2 hrange.2
  exact update_of_ne (by omega) ..

theorem Working.stored_ptr (q : Ptr) :
    ptr (s.stored ip).blk (s.view ip i) q = ptr s.blk (s.view ip i) q :=
  ptr_congr (h.stored_blk (q := .table) hi) q

theorem Working.stored_byte {x : Nat} (hx : ptr s.blk (s.view ip i) (filePtr (x / BSIZE)) ≠ 0) :
    fileByte (s.stored ip).blk (s.view ip i) x = fileByte s.blk (s.view ip i) x := by
  rw [fileByte, h.stored_ptr hi, h.stored_blk hi hx, fileByte]

omit hi

/-- **`iupdate`** ends the work on an inode. -/
theorem Working.stored : Sound (s.stored ip) := by
  have hdinode := s.stored_eq ip
  refine ⟨?_, ?_, ?_⟩
  · rw [hdinode]
    exact h.owned.store h.live.1.2 _
  · intro i hi bn hbn
    rw [hdinode] at hi hbn ⊢
    obtain ⟨hmax, hptr⟩ := h.mapped i hi bn hbn
    exact ⟨hmax, by rw [h.stored_ptr hi]; exact hptr⟩
  · intro i hvalid
    by_cases hii : i = ip
    · subst hii
      exact ⟨hdinode.symm ▸ h.live, (s.dinode_stored i).symm⟩
    · obtain ⟨hlive, hcopy⟩ := h.cached i hii hvalid
      rw [Live, s.dinode_stored_of_ne hii]
      exact ⟨hlive, hcopy⟩

theorem Working.restored_byte {d : Dinode} (haddr : ∀ k, d.addr k = (s.copy ip).addr k)
    (htype : d.type ≠ 0) (hmapped : Mapped s.blk d) {x : Nat} (hi : Live s.sb (s.view ip) i)
    (hx : ptr s.blk (s.view ip i) (filePtr (x / BSIZE)) ≠ 0) :
    fileByte ((s.setCopy ip d).stored ip).blk (((s.setCopy ip d).stored ip).dinode i) x =
      fileByte s.blk (s.view ip i) x := by
  have hsame : ∀ k, (update (s.view ip) ip d i).addr k = (s.view ip i).addr k := by
    intro k
    by_cases hii : i = ip
    · subst hii
      rw [update_self, Fs.view_self, haddr]
    · rw [update_of_ne hii]
  have hlive : Live (s.setCopy ip d).sb ((s.setCopy ip d).view ip) i := by
    rw [Fs.view_setCopy]
    refine ⟨hi.1, ?_⟩
    by_cases hii : i = ip
    · subst hii
      rw [update_self]
      exact htype
    · rw [update_of_ne hii]
      exact hi.2
  have hptr : ptr (s.setCopy ip d).blk ((s.setCopy ip d).view ip i) (filePtr (x / BSIZE)) =
      ptr s.blk (s.view ip i) (filePtr (x / BSIZE)) := by
    rw [Fs.view_setCopy]
    exact ptr_addr hsame _ _
  rw [Fs.stored_eq, (h.setCopy haddr htype hmapped).stored_byte hlive (hptr.symm ▸ hx),
    fileByte, hptr, fileByte]
  rfl

omit h

theorem wp_iupdate {E : String → Prop} {Q : Unit → Fs → Prop} (hQ : Q () (s.stored ip)) :
    wp E (iupdate ip) Q s := by
  exact hQ

end

/-! ### `writei` -/

/-- `n` bytes at `src` have been written to `ip` at `off`. -/
structure Written (ip off n : Nat) (src : Nat → UInt8) (s s' : Fs) : Prop where
  sb : s'.sb = s.sb
  cache : ∀ i, i ≠ ip → s'.icache i = s.icache i
  ref : (s'.icache ip).ref = (s.icache ip).ref
  valid : (s'.icache ip).valid = (s.icache ip).valid
  disk : ∀ i, i ≠ ip → Numbered s.sb i → s'.dinode i = s.dinode i
  fields : ∃ addrs size, s'.dinode ip = { s.dinode ip with addrs := addrs, size := size }
  size : (s'.dinode ip).size.toNat = max (s.dinode ip).size.toNat (off + n)
  bytes : ∀ i, Live s.sb s.dinode i → ∀ x, x < (s.dinode i).size.toNat →
    (i = ip → span off n src x = none) →
      fileByte s'.blk (s'.dinode i) x = fileByte s.blk (s.dinode i) x
  written : ∀ x v, span off n src x = some v → fileByte s'.blk (s'.dinode ip) x = v

section

variable {E : String → Prop} {ip off n : Nat} {src : Nat → UInt8} {s s1 : Fs}

theorem mapped_byte {blk : Nat → Block} {d : Dinode} (h : Mapped blk d) {x : Nat}
    (hx : x < d.size.toNat) : x / BSIZE < MAXFILE ∧ ptr blk d (filePtr (x / BSIZE)) ≠ 0 := by
  apply h
  rw [lt_blocksOf]
  exact Nat.lt_of_le_of_lt (Nat.div_mul_le_self x BSIZE) hx

theorem lacks_inside (hmapped : Mapped s.blk (s.copy ip)) (hin : off + n ≤ (s.copy ip).size.toNat) :
    lacks s ip (needed off n) = ∅ := by
  apply Finset.filter_eq_empty_iff.mpr
  intro q hq
  obtain ⟨x, hx, hneeds⟩ := Finset.mem_biUnion.mp hq
  obtain ⟨-, hptr⟩ := mapped_byte hmapped (x := x) (by have := Finset.mem_Ico.mp hx; omega)
  unfold needs at hneeds
  split at hneeds
  · rw [Finset.mem_singleton.mp hneeds]
    exact hptr
  rename_i hindirect
  rcases Finset.mem_insert.mp hneeds with rfl | hq
  · intro hzero
    rw [filePtr, if_neg hindirect] at hptr
    exact hptr (ptr_entry_of_no_table hzero _)
  · rw [Finset.mem_singleton.mp hq]
    exact hptr

theorem Wrote.inside (h : Sound s) (hvalid : (s.icache ip).valid = true)
    (hin : off + n ≤ (s.dinode ip).size.toNat) (hworking : Working ip s1)
    (hwrote : Wrote ip (needed off n) (span off n src) s s1) :
    Sound s1 ∧ Written ip off n src s s1 := by
  obtain ⟨hlive, hcopy⟩ := h.cached ip hvalid
  have hview := Fs.view_eq_dinode hcopy
  have hlacks : lacks s ip (needed off n) = ∅ := by
    apply lacks_inside
    · rw [hcopy]
      exact h.mapped ip hlive
    · rw [hcopy]
      exact hin
  have hdinode : s1.dinode ip = s.dinode ip := hwrote.disk ip hlive.1
  have hcopy1 : s1.copy ip = s1.dinode ip := by rw [hwrote.settled hlacks, hcopy, hdinode]
  have hview1 := Fs.view_eq_dinode hcopy1
  refine ⟨hworking.sound hcopy1, hwrote.sb, hwrote.cache, hwrote.ref, hwrote.valid,
    fun i _ => hwrote.disk i, ⟨_, _, hdinode⟩, ?_, ?_, ?_⟩
  · rw [hdinode]
    omega
  · intro i hi x hx hspan
    have hptr := (mapped_byte (h.mapped i hi) hx).2
    have hbyte := hwrote.bytes i (hview.symm ▸ hi) x (hview.symm ▸ hptr) hspan
    rw [hview, hview1] at hbyte
    exact hbyte
  · intro x v hv
    exact hcopy1 ▸ (hwrote.written x v hv).2

/-- The state after `ip->size = off; iupdate(ip)` at the end of `writei`. -/
def Fs.resized (s : Fs) (ip size : Nat) : Fs :=
  (s.setCopy ip ((s.copy ip).setSize size)).stored ip

theorem Dinode.setSize_addr (d : Dinode) (size k : Nat) : (d.setSize size).addr k = d.addr k := rfl

theorem Dinode.setSize_size (d : Dinode) {size : Nat} (h : size ≤ MAXFILE * BSIZE) :
    (d.setSize size).size.toNat = size := by
  have hmax : MAXFILE * BSIZE = 71680 := rfl
  exact UInt32.toNat_ofNat_of_lt' (by rw [hmax] at h; exact Nat.lt_of_le_of_lt h (by decide))

theorem Wrote.mapped_setSize (h : Sound s) (hvalid : (s.icache ip).valid = true)
    (hoff : off ≤ (s.dinode ip).size.toNat)
    (hmax : off + n ≤ MAXFILE * BSIZE)
    (hwrote : Wrote ip (needed off n) (span off n src) s s1) :
    Mapped s1.blk ((s1.copy ip).setSize (off + n)) := by
  have hworking := h.working hvalid
  obtain ⟨-, hcopy⟩ := h.cached ip hvalid
  intro bn hbn
  have hnew : bn * BSIZE < off + n := by
    rw [lt_blocksOf, Dinode.setSize_size _ hmax] at hbn
    exact hbn
  have hdiv : bn * BSIZE / BSIZE = bn := Nat.mul_div_cancel bn (by decide)
  refine ⟨Nat.lt_of_mul_lt_mul_right (Nat.lt_of_lt_of_le hnew hmax), ?_⟩
  rw [ptr_addr ((s1.copy ip).setSize_addr (off + n))]
  by_cases hold : bn * BSIZE < (s.dinode ip).size.toNat
  · have hptr := (mapped_byte (hworking.mapped ip hworking.live) (by rw [Fs.view_self, hcopy]; exact hold)).2
    rw [hdiv] at hptr
    have hkeep := hwrote.ptrs ip hworking.live _ hptr
    rw [Fs.view_self s1] at hkeep
    rw [hkeep]
    exact hptr
  · -- the block starts at or after the old size, so its first byte was written
    have hspan : span off n src (bn * BSIZE) = some (src (bn * BSIZE - off)) := by
      rw [span, if_pos ⟨by omega, hnew⟩]
    have hptr := (hwrote.written _ _ hspan).1
    rw [hdiv] at hptr
    exact hptr

theorem Wrote.resized (h : Sound s) (hvalid : (s.icache ip).valid = true)
    (hoff : off ≤ (s.dinode ip).size.toNat) (hmax : off + n ≤ MAXFILE * BSIZE)
    (hgrows : (s.dinode ip).size.toNat < off + n) (hworking : Working ip s1)
    (hwrote : Wrote ip (needed off n) (span off n src) s s1) :
    Sound (s1.resized ip (off + n)) ∧ Written ip off n src s (s1.resized ip (off + n)) := by
  obtain ⟨-, hcopy⟩ := h.cached ip hvalid
  have hview := Fs.view_eq_dinode hcopy
  have haddr := (s1.copy ip).setSize_addr (off + n)
  have htype1 : ((s1.copy ip).setSize (off + n)).type ≠ 0 := by
    have htype := hworking.live.2
    rw [Fs.view_self] at htype
    exact htype
  have hmapped := Wrote.mapped_setSize h hvalid hoff hmax hwrote
  have hdinode : (s1.resized ip (off + n)).dinode ip = (s1.copy ip).setSize (off + n) := by
    rw [Fs.resized, Fs.dinode_stored, Fs.copy_setCopy]
  have hbyte : ∀ i, Live s1.sb (s1.view ip) i → ∀ x,
      ptr s1.blk (s1.view ip i) (filePtr (x / BSIZE)) ≠ 0 →
      fileByte (s1.resized ip (off + n)).blk ((s1.resized ip (off + n)).dinode i) x =
        fileByte s1.blk (s1.view ip i) x :=
    fun i hi x hx => hworking.restored_byte haddr htype1 hmapped hi hx
  constructor
  · exact (hworking.setCopy haddr htype1 hmapped).stored
  · constructor
    · exact hwrote.sb
    · exact fun i hi => (Fs.icache_setCopy_of_ne s1 hi _).trans (hwrote.cache i hi)
    · rw [← hwrote.ref]
      simp [Fs.resized, Fs.stored, Fs.setCopy, Fs.setIncore, Fs.setBlk]
    · rw [← hwrote.valid]
      simp [Fs.resized, Fs.stored, Fs.setCopy, Fs.setIncore, Fs.setBlk]
    · intro i hi hnum
      rw [Fs.resized, Fs.dinode_stored_of_ne _ hi, ← hwrote.disk i hnum]
      rfl
    · obtain ⟨addrs, hfields⟩ := hwrote.fields
      exact ⟨addrs, UInt32.ofNat (off + n), by rw [hdinode, hfields, hcopy]; rfl⟩
    · rw [hdinode, Dinode.setSize_size _ hmax]
      omega
    · intro i hi x hx hspan
      have hptr := (mapped_byte (h.mapped i hi) hx).2
      have hlive : Live s.sb (s.view ip) i := hview.symm ▸ hi
      have hkeep := hwrote.ptrs i hlive _ (hview.symm ▸ hptr)
      have hsame := hwrote.bytes i hlive x (hview.symm ▸ hptr) hspan
      rw [hbyte i (hwrote.live_iff.mpr hlive) x (by rw [hkeep, hview]; exact hptr), hsame, hview]
    · intro x v hv
      obtain ⟨hptr, hval⟩ := hwrote.written x v hv
      rw [hbyte ip hworking.live x (by rw [Fs.view_self]; exact hptr), Fs.view_self, hval]

/-- `writei` refuses these arguments. -/
def Refused (size off n : Nat) : Prop :=
  off > size ∨ off + n ≥ 2 ^ 32 ∨ off + n > MAXFILE * BSIZE

theorem wraps_iff (hoff : off < 2 ^ 32) (hn : n < 2 ^ 32) : wraps off n ↔ off + n ≥ 2 ^ 32 := by
  unfold wraps
  omega

theorem wp_writei {Q : Int → Fs → Prop} {devsw : Nat → Option Int} (h : Sound s)
    (hvalid : (s.icache ip).valid = true) (hdev : (s.dinode ip).type ≠ T_DEV)
    (hoff : off < 2 ^ 32) (hn : n < 2 ^ 32)
    (hroom : ¬ Refused (s.dinode ip).size.toNat off n → Room E s ip (needed off n))
    (hfail : Refused (s.dinode ip).size.toNat off n → Q (-1) s)
    (hdone : ∀ s', ¬ Refused (s.dinode ip).size.toNat off n → Sound s' →
      Written ip off n src s s' → Q n s') :
    wp E (writei devsw ip src off n) Q s := by
  obtain ⟨-, hcopy⟩ := h.cached ip hvalid
  rw [writei, wp_bind, wp_reads, hcopy, if_neg hdev]
  by_cases hbad : off > (s.dinode ip).size.toNat ∨ wraps off n
  · rw [if_pos hbad]
    apply hfail
    rw [wraps_iff hoff hn] at hbad
    unfold Refused
    omega
  · rw [if_neg hbad]
    rw [wraps_iff hoff hn] at hbad
    have hmod : (off + n) % 2 ^ 32 = off + n := Nat.mod_eq_of_lt (by omega)
    rw [hmod]
    by_cases hbig : off + n > MAXFILE * BSIZE
    · rw [if_pos hbig]
      exact hfail (.inr (.inr hbig))
    rw [if_neg hbig, wp_bind]
    have hok : ¬ Refused (s.dinode ip).size.toNat off n := by
      unfold Refused
      omega
    have hworking := h.working hvalid
    apply wp_writeLoop hworking le_rfl (by omega) (Finset.Subset.refl _) (hroom hok)
    intro s1 hworking1 hwrote
    have hsize : (s1.copy ip).size.toNat = (s.dinode ip).size.toNat := by rw [hwrote.size_eq, hcopy]
    rw [wp_bind, wp_reads, wp_bind, wp_onlyIf, hsize]
    constructor
    · intro hgrows
      rw [wp_bind, setCopy, wp_modify]
      apply wp_iupdate
      obtain ⟨hsound, hwritten⟩ :=
        Wrote.resized h hvalid (by omega) (by omega) hgrows.2 hworking1 hwrote
      exact hdone _ hok hsound hwritten
    · intro hin
      obtain ⟨hsound, hwritten⟩ :=
        Wrote.inside h hvalid (by omega) hworking1 hwrote
      exact hdone _ hok hsound hwritten

end

/-! ### `readi` -/

variable {off n : Nat} {s : Fs} {src : Nat → UInt8}

theorem wp_readi {E : String → Prop} {Q : Int × List UInt8 → Fs → Prop}
    {devsw : Nat → Option (Int × List UInt8)} {ip : Nat} (h : Sound s)
    (hvalid : (s.icache ip).valid = true) (hdev : (s.dinode ip).type ≠ T_DEV) (hoff : off < 2 ^ 32)
    (hn : n < 2 ^ 32) (hfail : off > (s.dinode ip).size.toNat ∨ off + n ≥ 2 ^ 32 → Q (-1, []) s)
    (hdone : off ≤ (s.dinode ip).size.toNat → off + n < 2 ^ 32 →
      let k := min n ((s.dinode ip).size.toNat - off)
      Q (k, (List.range k).map fun i => fileByte s.blk (s.dinode ip) (off + i)) s) :
    wp E (readi devsw ip off n) Q s := by
  obtain ⟨hlive, hcopy⟩ := h.cached ip hvalid
  rw [readi, wp_bind, wp_reads, hcopy, if_neg hdev]
  by_cases hbad : off > (s.dinode ip).size.toNat ∨ wraps off n
  · rw [if_pos hbad]
    apply hfail
    rw [wraps_iff hoff hn] at hbad
    exact hbad
  · rw [if_neg hbad]
    rw [wraps_iff hoff hn, not_or] at hbad
    have hmin : (if (off + n) % 2 ^ 32 > (s.dinode ip).size.toNat then
        (s.dinode ip).size.toNat - off else n) = min n ((s.dinode ip).size.toNat - off) := by
      split <;> omega
    simp only [hmin]
    rw [wp_bind]
    apply wp_readLoop le_rfl
    · intro x hlo hhi
      rw [hcopy]
      exact mapped_byte (h.mapped ip hlive) (by omega)
    · rw [wp_pure, hcopy]
      exact hdone (by omega) (by omega)

/-! ### File systems in order -/

/-- The blocks of a file system in order: the bitmap marks exactly the metadata blocks and the
blocks that the allocated inodes refer to, each of these is referred to once, and every file
has a block for each index below `ceil(size / BSIZE)`. -/
structure Partition (s : Fs) : Prop where
  layout : Layout s.sb
  super : superAt (s.blk 1) = s.sb
  data : ∀ i q, Live s.sb s.dinode i → ptr s.blk (s.dinode i) q ≠ 0 →
    dataStart s.sb ≤ ptr s.blk (s.dinode i) q ∧ ptr s.blk (s.dinode i) q < s.sb.size
  once : ∀ i q i' q', Live s.sb s.dinode i → Live s.sb s.dinode i' →
    ptr s.blk (s.dinode i) q = ptr s.blk (s.dinode i') q' → ptr s.blk (s.dinode i) q ≠ 0 →
      i = i' ∧ q = q'
  marks : ∀ b, b < s.sb.size → (Marked s.sb s.blk b ↔
    b < dataStart s.sb ∨ ∃ i q, Live s.sb s.dinode i ∧ ptr s.blk (s.dinode i) q = b)
  mapped : ∀ i, Live s.sb s.dinode i → ∀ bn, bn < blocksOf (s.dinode i).size.toNat →
    bn < MAXFILE ∧ ptr s.blk (s.dinode i) (filePtr bn) ≠ 0
  cached : ∀ i, (s.icache i).valid = true → Live s.sb s.dinode i ∧ s.copy i = s.dinode i

theorem used_iff (hpos : 0 < dataStart s.sb) {b : Nat} :
    (b < dataStart s.sb ∨ False ∨ ∃ r, own s.sb s.blk s.dinode r = b) ↔
      b < dataStart s.sb ∨ ∃ i q, Live s.sb s.dinode i ∧ ptr s.blk (s.dinode i) q = b := by
  constructor
  · rintro (hlt | hfalse | ⟨⟨i, q⟩, hown⟩)
    · exact .inl hlt
    · exact hfalse.elim
    by_cases hi : Live s.sb s.dinode i
    · rw [own_live hi] at hown
      exact .inr ⟨i, q, hi, hown⟩
    · rw [own_dead hi] at hown
      exact .inl (hown ▸ hpos)
  · rintro (hlt | ⟨i, q, hi, hptr⟩)
    · exact .inl hlt
    · exact .inr (.inr ⟨(i, q), (own_live hi q).trans hptr⟩)

theorem Sound.partition (h : Sound s) : Partition s := by
  have hledger := h.owned.ledger
  refine ⟨h.owned.layout, h.owned.super, fun i q hi hq => h.owned.ptr_range hi hq,
    fun i q i' q' hi hi' heq hq => h.owned.ptr_once hi hi' hq heq, fun b hb => ?_, h.mapped,
    h.cached⟩
  rw [hledger.marks b hb, used_iff hledger.pos]

theorem Partition.sound (h : Partition s) : Sound s := by
  have hpos : 0 < dataStart s.sb := Nat.lt_of_le_of_lt (Nat.zero_le _) (h.layout.data 0 h.layout.pos)
  have hlive : ∀ r, own s.sb s.blk s.dinode r ≠ 0 → Live s.sb s.dinode r.1 := by
    intro r hr
    by_contra hnot
    exact hr (own_dead hnot r.2)
  refine ⟨⟨h.layout, h.super, hpos, ?_, ?_, fun _ hhand => hhand.elim, fun b hb => ?_⟩, h.mapped,
    h.cached⟩
  · rintro ⟨i, q⟩ hr
    have hi := hlive _ hr
    rw [own_live hi] at hr ⊢
    exact h.data i q hi hr
  · rintro ⟨i, q⟩ ⟨i', q'⟩ heq hr
    have hi := hlive _ hr
    have hi' := hlive (i', q') (heq ▸ hr)
    rw [own_live hi] at heq hr
    rw [own_live hi'] at heq
    obtain ⟨rfl, rfl⟩ := h.once i q i' q' hi hi' heq hr
    rfl
  · rw [h.marks b hb, used_iff hpos]

/-! ### The array of bytes -/

def contents (s : Fs) (i : Nat) : List UInt8 :=
  (List.range (s.dinode i).size.toNat).map (fileByte s.blk (s.dinode i))

theorem map_range_overwrite {f g : Nat → UInt8} {size : Nat} (hoff : off ≤ size)
    (hin : ∀ x, off ≤ x → x < off + n → g x = src (x - off))
    (hout : ∀ x, x < size → ¬ (off ≤ x ∧ x < off + n) → g x = f x) :
    (List.range (max size (off + n))).map g =
      ((List.range size).map f).take off ++ (List.range n).map src ++
        ((List.range size).map f).drop (off + n) := by
  rw [append_assoc]
  apply ext_getElem
  · simp
    omega
  intro x hx _
  have hlt : x < max size (off + n) := by simpa using hx
  by_cases hbefore : x < off
  · rw [getElem_append_left (by simp; omega)]
    simp [hout x (by omega) (by omega)]
  rw [getElem_append_right (by simp; omega)]
  by_cases hmid : x < off + n
  · rw [getElem_append_left (by simp; omega)]
    simp [hin x (by omega) hmid, hoff]
  · rw [getElem_append_right (by simp; omega)]
    have hidx : off + n + (x - off - n) = x := by omega
    simp [hout x (by omega) (by omega), hoff, hidx]

theorem Written.contents_eq {ip : Nat} {s' : Fs} (hwritten : Written ip off n src s s')
    (hlive : Live s.sb s.dinode ip) (hoff : off ≤ (s.dinode ip).size.toNat) :
    contents s' ip = (contents s ip).take off ++ (List.range n).map src ++
      (contents s ip).drop (off + n) := by
  rw [contents, hwritten.size]
  apply map_range_overwrite hoff
  · intro x hlo hhi
    apply hwritten.written
    rw [span, if_pos ⟨hlo, hhi⟩]
  intro x hx hnot
  apply hwritten.bytes ip hlive x hx
  intro _
  rw [span, if_neg hnot]

theorem Written.contents_of_ne {ip i : Nat} {s' : Fs} (hwritten : Written ip off n src s s')
    (hlive : Live s.sb s.dinode i) (hne : i ≠ ip) : contents s' i = contents s i := by
  have hdinode := hwritten.disk i hne hlive.1
  have hsize : (s'.dinode i).size = (s.dinode i).size := by rw [hdinode]
  rw [contents, hsize, contents]
  apply map_congr_left
  intro x hx
  exact hwritten.bytes i hlive x (mem_range.mp hx) fun heq => absurd heq hne

/-- **`readi`** reads the array. -/
theorem exec_readi {s : Fs} {ip : Nat} {devsw : Nat → Option (Int × List UInt8)} (h : Sound s)
    (hvalid : (s.icache ip).valid = true) (hdev : (s.dinode ip).type ≠ T_DEV) (hoff : off < 2 ^ 32)
    (hn : n < 2 ^ 32) : exec (readi devsw ip off n) [] s =
      .done (if off > (s.dinode ip).size.toNat ∨ off + n ≥ 2 ^ 32 then (-1, []) else
        (((min n ((s.dinode ip).size.toNat - off) : Nat) : Int),
          ((contents s ip).drop off).take (min n ((s.dinode ip).size.toNat - off)))) s := by
  have hbytes : (List.range (min n ((s.dinode ip).size.toNat - off))).map
      (fun i => fileByte s.blk (s.dinode ip) (off + i)) =
        ((contents s ip).drop off).take (min n ((s.dinode ip).size.toNat - off)) := by
    apply List.ext_getElem
    · simp [contents]
    · intro i _ _
      simp [contents]
  refine exec_eq_done (wp_readi h hvalid hdev hoff hn (fun hbad => ⟨(if_pos hbad).symm, rfl⟩)
    fun _ _ => ⟨?_, rfl⟩)
  rw [if_neg (by omega), hbytes]

/-- **Files refine byte arrays.** -/
theorem files_refine_arrays {s : Fs} (h : Partition s) (ip off n : Nat)
    (hvalid : (s.icache ip).valid = true) (hdev : (s.dinode ip).type ≠ T_DEV)
    (hoff : off < 2 ^ 32) (hn : n < 2 ^ 32) (src : Nat → UInt8)
    (devwrite : Nat → Option Int) (devread : Nat → Option (Int × List UInt8)) :
    let C := contents s ip
    let size := (s.dinode ip).size.toNat
    C.length = size ∧
    (off > size ∨ off + n ≥ 2 ^ 32 ∨ off + n > MAXFILE * BSIZE →
      exec (writei devwrite ip src off n) [] s = .done (-1) s) ∧
    (¬ (off > size ∨ off + n ≥ 2 ^ 32 ∨ off + n > MAXFILE * BSIZE) →
      (lacks s ip (needed off n)).card ≤ s.free.card →
        ∃ s', exec (writei devwrite ip src off n) [] s = .done n s' ∧ Partition s' ∧
          contents s' ip = C.take off ++ (List.range n).map src ++ C.drop (off + n) ∧
          ∀ i, Live s.sb s.dinode i → i ≠ ip → contents s' i = contents s i) ∧
    (off > size ∨ off + n ≥ 2 ^ 32 →
      exec (readi devread ip off n) [] s = .done (-1, []) s) ∧
    (¬ (off > size ∨ off + n ≥ 2 ^ 32) →
      exec (readi devread ip off n) [] s =
        .done (((min n (size - off) : Nat) : Int), (C.drop off).take (min n (size - off))) s) := by
  have hlive : Live s.sb s.dinode ip := (h.cached ip hvalid).1
  have hsound := h.sound
  refine ⟨by simp [contents], fun hbad => ?_, fun hok hroom => ?_, fun hbad => ?_, fun hok => ?_⟩
  · exact exec_eq_done (wp_writei hsound hvalid hdev hoff hn (absurd hbad) (fun _ => ⟨rfl, rfl⟩)
      fun _ hok => absurd hbad hok)
  · have hwp : wp (fun _ => False) (writei devwrite ip src off n)
        (fun r s' => r = n ∧ Sound s' ∧ Written ip off n src s s') s :=
      wp_writei hsound hvalid hdev hoff hn (fun _ => .inr hroom) (fun hbad => absurd hbad hok)
        fun _ _ hsound' hwritten => ⟨rfl, hsound', hwritten⟩
    obtain ⟨_, s', hexec, rfl, hsound', hwritten⟩ := exec_done hwp
    refine ⟨s', hexec, hsound'.partition, hwritten.contents_eq hlive (by omega), ?_⟩
    exact fun i hi hne => hwritten.contents_of_ne hi hne
  · rw [exec_readi hsound hvalid hdev hoff hn, if_pos hbad]
  · rw [exec_readi hsound hvalid hdev hoff hn, if_neg hok]

/-- A disk of 16 blocks: the superblock, a block of inodes, the bitmap, and twelve free
blocks. Inode 1 is a directory without entries. -/
def newfs : Fs where
  sb := ⟨16, 12, 8, 0, 2, 2, 3⟩
  blk b :=
    if b = 1 then setWords (fun _ => 0) 0 7 fun k => [16, 12, 8, 0, 2, 2, 3].getD k 0
    else if b = 2 then putDinode (fun _ => 0) 1 { Dinode.blank T_DIR with nlink := 1 }
    else if b = 3 then setByte (fun _ => 0) 0 15
    else fun _ => 0
  logged := []
  icache i := ⟨if i = 1 then 1 else 0, i == 1, { Dinode.blank T_DIR with nlink := 1 }⟩
  inuse := 1

theorem partition_newfs : Partition newfs := by
  have hlive : ∀ i, Live newfs.sb newfs.dinode i → i = 1 := by
    have hall : ∀ i < 8, (newfs.dinode i).type ≠ 0 → i = 1 := by decide +kernel
    exact fun i hi => hall i hi.1.2 hi.2
  have hone : newfs.dinode 1 = { Dinode.blank T_DIR with nlink := 1 } :=
    dinodeAt_putDinode _ (by decide) _
  have hzero : ∀ q, ptr newfs.blk (newfs.dinode 1) q = 0 := by
    intro q
    have haddr : ∀ k, (newfs.dinode 1).addr k = 0 := fun k => by
      rw [hone]
      simp [Dinode.blank, Dinode.addr]
    cases q with
    | direct | table | entry => simp [ptr, haddr]
  have hmarks : ∀ b < 16, Marked newfs.sb newfs.blk b ↔ b < 4 := by decide +kernel
  refine ⟨⟨by decide, by decide, by decide, by decide, by decide, by decide, by decide⟩,
    by decide +kernel, ?_, ?_, ?_, ?_, ?_⟩
  · intro i q hi hq
    rw [hlive i hi] at hq
    exact absurd (hzero q) hq
  · intro i q _ _ hi _ _ hq
    rw [hlive i hi] at hq
    exact absurd (hzero q) hq
  · intro b hb
    rw [hmarks b hb]
    constructor
    · exact .inl
    · rintro (hlt | ⟨i, q, hi, hptr⟩)
      · exact hlt
      · rw [hlive i hi, hzero q] at hptr
        omega
  · intro i hi bn hbn
    rw [hlive i hi, hone] at hbn
    exact absurd hbn (Nat.not_lt_zero bn)
  · intro i hi
    have hi1 : i = 1 := beq_iff_eq.mp hi
    subst hi1
    exact ⟨⟨by decide, by rw [hone]; decide⟩, hone.symm⟩

/-- Three bytes in an empty file. -/
theorem files_refine_arrays_newfs :
    (∃ s', exec (writei (fun _ => none) 1 (fun i => UInt8.ofNat (65 + i)) 0 3) [] newfs =
        .done 3 s' ∧ contents s' 1 = [65, 66, 67]) ∧
      exec (readi (fun _ => none) 1 0 3) [] newfs = .done (0, []) newfs := by
  have hsize : (newfs.dinode 1).size.toNat = 0 := by decide +kernel
  obtain ⟨-, -, hwrite, -, hread⟩ := files_refine_arrays partition_newfs 1 0 3 rfl
    (by decide +kernel) (by decide) (by decide) (fun i => UInt8.ofNat (65 + i))
    (fun _ => none) fun _ => none
  have hempty : contents newfs 1 = [] := by rw [contents, hsize]; rfl
  constructor
  · obtain ⟨s', hexec, -, hcontents, -⟩ := hwrite (by rw [hsize]; decide) (by decide +kernel)
    refine ⟨s', hexec, ?_⟩
    rw [hcontents, hempty]
    rfl
  · have hok := hread (by rw [hsize]; decide)
    rw [hsize, hempty] at hok
    exact hok

end Xv6.Blocks
