import Xv6.BlocksOwn

/-!
**`balloc`, `bfree`, `bmap` and the write loop.**

While a function works on a locked inode, the addresses in memory run ahead of those on
the disk. `Working ip` is the ownership of blocks in such a state: `ip` counts with its
copy in memory, every other inode as it is on the disk.

`Wrote ip P w` says what `bmap` and `writei` may do to the state: pointers of `ip` that were 0 now
hold blocks, the bytes in `w` of the file are written, and every other byte of every file is as
before.
-/

namespace Xv6.Blocks

open Bytes Program Function Finset

/-! ### Allocating and freeing a block -/

theorem scanBits_some {size b : Nat} {bp : Block} :
    ∀ {n bi j : Nat}, scanBits size bp b n bi = some j →
      bi ≤ j ∧ j < bi + n ∧ b + j < size ∧ isFree bp j := by
  intro n
  induction n with
  | zero => intro bi j h; cases h
  | succ n ih =>
    intro bi j h
    rw [scanBits] at h
    split at h
    next hlt =>
      split at h
      next hfree =>
        cases h
        exact ⟨le_rfl, by omega, hlt, hfree⟩
      · obtain ⟨hlo, hhi, hsize, hfree⟩ := ih h
        exact ⟨by omega, by omega, hsize, hfree⟩
    · cases h

theorem scanBits_none {size b : Nat} {bp : Block} :
    ∀ {n bi : Nat}, scanBits size bp b n bi = none →
      ∀ j, bi ≤ j → j < bi + n → b + j < size → ¬ isFree bp j := by
  intro n
  induction n with
  | zero => intro bi _ j hlo hhi; omega
  | succ n ih =>
    intro bi h j hlo hhi hsize
    rw [scanBits] at h
    split at h
    · split at h
      · cases h
      rename_i hused
      by_cases hj : j = bi
      · exact hj ▸ hused
      · exact ih h j (by omega) (by omega) hsize
    next hlt => exact absurd (by omega) hlt

def Fs.taken (s : Fs) (b : Nat) : Fs :=
  { s with blk := take s.sb b s.blk, logged := s.logged ++ [BBLOCK b s.sb, b] }

def Fs.untaken (s : Fs) (b : Nat) : Fs :=
  { s with blk := untake s.sb b s.blk, logged := s.logged ++ [BBLOCK b s.sb] }

section

variable {E : String → Prop} {s : Fs}

section

variable {Q : Nat → Fs → Prop}
  (hfree : ∀ b, b < s.sb.size → ¬ Marked s.sb s.blk b → Q b (s.taken b))
  (hout : (∀ b, b < s.sb.size → Marked s.sb s.blk b) → E "balloc: out of blocks")
include hfree hout

theorem wp_ballocLoop :
    ∀ n c, s.sb.size < (c + n) * BPB → (∀ b, b < c * BPB → b < s.sb.size → Marked s.sb s.blk b) →
      wp E (ballocLoop n (c * BPB)) Q s := by
  have hbpb : BPB = 4096 := rfl
  intro n
  induction n with
  | zero =>
    intro c hsize hbelow
    exact hout fun b hb => hbelow b (by rw [Nat.add_zero] at hsize; omega) hb
  | succ n ih =>
    intro c hsize hbelow
    rw [ballocLoop, wp_bind, wp_reads]
    by_cases hc : c * BPB < s.sb.size
    · rw [if_pos hc, wp_bind, bread, wp_reads]
      have hplace : ∀ bi, bi < BPB → BBLOCK (c * BPB + bi) s.sb = BBLOCK (c * BPB) s.sb ∧
          (c * BPB + bi) % BPB = bi := by
        intro bi hbi
        unfold BBLOCK
        rw [hbpb] at hbi ⊢
        omega
      generalize hscan : scanBits s.sb.size (s.blk (BBLOCK (c * BPB) s.sb)) (c * BPB) BPB 0 = found
      rcases found with _ | bi
      · -- the whole bitmap block is in use
        have hnext : c * BPB + BPB = (c + 1) * BPB := (Nat.succ_mul c BPB).symm
        simp only [hnext]
        apply ih (c + 1)
        · rw [Nat.add_right_comm]
          exact hsize
        intro b hb hlt
        by_cases hold : b < c * BPB
        · exact hbelow b hold hlt
        obtain ⟨bi, rfl⟩ := Nat.exists_eq_add_of_le (Nat.le_of_not_lt hold)
        have hbi : bi < BPB := by rw [Nat.add_mul] at hb; omega
        have hused := scanBits_none hscan bi (Nat.zero_le _) (by omega) hlt
        rw [isFree_iff, Bool.not_eq_false] at hused
        rw [Marked, (hplace bi hbi).1, (hplace bi hbi).2]
        exact hused
      · obtain ⟨-, hbi, hlt, hisfree⟩ := scanBits_some hscan
        obtain ⟨hblock, hbit⟩ := hplace bi (by omega)
        have hnot : ¬ Marked s.sb s.blk (c * BPB + bi) := by
          rw [Marked, hblock, hbit, (isFree_iff _ _).mp hisfree]
          decide
        have htaken := hfree (c * BPB + bi) hlt hnot
        simp only [Fs.taken, take, hblock, hbit] at htaken
        simp only [edit, logWrite, bzero, wp_bind, wp_modify, Fs.setBlk, List.append_assoc]
        exact htaken
    · rw [if_neg hc]
      exact hout fun b hb => hbelow b (by omega) hb

/-- **`balloc`** takes some free block, or finds none. -/
theorem wp_balloc : wp E balloc Q s := by
  have hsize : s.sb.size < (0 + (s.sb.size / BPB + 1)) * BPB := by
    rw [Nat.zero_add, Nat.mul_comm]
    exact Nat.lt_mul_div_succ _ (by decide)
  have hloop := wp_ballocLoop hfree hout (s.sb.size / BPB + 1) 0 hsize
    fun b hb => absurd hb (by rw [Nat.zero_mul]; exact Nat.not_lt_zero b)
  rw [Nat.zero_mul] at hloop
  exact hloop

end

/-- **`bfree`** of a marked block does not panic. -/
theorem wp_bfree {Q : Unit → Fs → Prop} {b : Nat} (hsuper : superAt (s.blk 1) = s.sb)
    (hmarked : Marked s.sb s.blk b) (hQ : Q () (s.untaken b)) : wp E (bfree b) Q s := by
  have hbusy : ¬ isFree (s.blk (BBLOCK b s.sb)) (b % BPB) := by
    rw [isFree_iff, Bool.not_eq_false]
    exact hmarked
  simp only [bfree, readsb, bread, wp_bind, wp_reads, wp_modify, hsuper, if_neg hbusy, edit,
    Fs.setBlk]
  exact hQ

end

/-! ### Working on an inode -/

/-- `ip` as it is in memory, the other inodes as they are on the disk. -/
def Fs.view (s : Fs) (ip : Nat) : Nat → Dinode := update s.dinode ip (s.copy ip)

theorem Fs.view_self (s : Fs) (ip : Nat) : s.view ip ip = s.copy ip := update_self ..

theorem Fs.view_of_ne (s : Fs) {ip i : Nat} (hne : i ≠ ip) : s.view ip i = s.dinode i :=
  update_of_ne hne ..

def blocksOf (size : Nat) : Nat := (size + BSIZE - 1) / BSIZE

theorem lt_blocksOf {bn size : Nat} : bn < blocksOf size ↔ bn * BSIZE < size := by
  have hbsize : BSIZE = 512 := rfl
  unfold blocksOf
  rw [hbsize]
  omega

/-- A file has a block for each index below its size. -/
def Mapped (blk : Nat → Block) (d : Dinode) : Prop :=
  ∀ bn, bn < blocksOf d.size.toNat → bn < MAXFILE ∧ ptr blk d (filePtr bn) ≠ 0

structure Working (ip : Nat) (s : Fs) : Prop where
  owned : Owned s.sb s.blk (s.view ip) fun _ => False
  live : Live s.sb (s.view ip) ip
  mapped : ∀ i, Live s.sb (s.view ip) i → Mapped s.blk (s.view ip i)
  valid : (s.icache ip).valid = true
  cached : ∀ i, i ≠ ip → (s.icache i).valid = true →
    Live s.sb s.dinode i ∧ s.copy i = s.dinode i

def fileByte (blk : Nat → Block) (d : Dinode) (x : Nat) : UInt8 :=
  byteAt (blk (ptr blk d (filePtr (x / BSIZE)))) (x % BSIZE)

/-- The pointers of `P` that hold no block yet. -/
def lacks (s : Fs) (ip : Nat) (P : Finset Ptr) : Finset Ptr :=
  P.filter fun q => ptr s.blk (s.copy ip) q = 0

def Fs.free (s : Fs) : Finset Nat := (Finset.range s.sb.size).filter fun b => ¬ Marked s.sb s.blk b

/-- Of the inodes, only the addresses of `ip` in memory have changed. -/
structure Kept (ip : Nat) (s s' : Fs) : Prop where
  sb : s'.sb = s.sb
  cache : ∀ i, i ≠ ip → s'.icache i = s.icache i
  ref : (s'.icache ip).ref = (s.icache ip).ref
  valid : (s'.icache ip).valid = (s.icache ip).valid
  fields : ∃ addrs, s'.copy ip = { s.copy ip with addrs := addrs }
  disk : ∀ i, Numbered s.sb i → s'.dinode i = s.dinode i

namespace Kept

variable {ip : Nat} {s s' : Fs}

theorem type_eq (h : Kept ip s s') : (s'.copy ip).type = (s.copy ip).type := by
  obtain ⟨addrs, heq⟩ := h.fields
  rw [heq]

theorem size_eq (h : Kept ip s s') : (s'.copy ip).size = (s.copy ip).size := by
  obtain ⟨addrs, heq⟩ := h.fields
  rw [heq]

theorem live_iff (h : Kept ip s s') {i : Nat} :
    Live s'.sb (s'.view ip) i ↔ Live s.sb (s.view ip) i := by
  unfold Live
  rw [h.sb]
  by_cases hi : i = ip
  · subst hi
    rw [Fs.view_self, Fs.view_self, h.type_eq]
  rw [Fs.view_of_ne _ hi, Fs.view_of_ne _ hi]
  constructor
  · rintro ⟨hnum, htype⟩
    exact ⟨hnum, h.disk i hnum ▸ htype⟩
  · rintro ⟨hnum, htype⟩
    exact ⟨hnum, (h.disk i hnum).symm ▸ htype⟩

end Kept

structure Wrote (ip : Nat) (P : Finset Ptr) (w : Nat → Option UInt8) (s s' : Fs) : Prop
    extends Kept ip s s' where
  ptrs : ∀ i, Live s.sb (s.view ip) i → ∀ q, ptr s.blk (s.view ip i) q ≠ 0 →
    ptr s'.blk (s'.view ip i) q = ptr s.blk (s.view ip i) q
  bytes : ∀ i, Live s.sb (s.view ip) i → ∀ x, ptr s.blk (s.view ip i) (filePtr (x / BSIZE)) ≠ 0 →
    (i = ip → w x = none) → fileByte s'.blk (s'.view ip i) x = fileByte s.blk (s.view ip i) x
  written : ∀ x v, w x = some v →
    ptr s'.blk (s'.copy ip) (filePtr (x / BSIZE)) ≠ 0 ∧ fileByte s'.blk (s'.copy ip) x = v
  room : (lacks s' ip P).card + s.free.card = (lacks s ip P).card + s'.free.card
  settled : lacks s ip P = ∅ → s'.copy ip = s.copy ip

namespace Wrote

variable {ip : Nat} {P : Finset Ptr} {w w1 w2 : Nat → Option UInt8} {s s' s1 s2 : Fs}

theorem refl (ip : Nat) (P : Finset Ptr) (s : Fs) : Wrote ip P (fun _ => none) s s where
  sb := rfl
  cache _ _ := rfl
  ref := rfl
  valid := rfl
  fields := ⟨_, rfl⟩
  disk _ _ := rfl
  ptrs _ _ _ _ := rfl
  bytes _ _ _ _ _ := rfl
  written _ _ h := nomatch h
  room := rfl
  settled _ := rfl

theorem trans (h1 : Wrote ip P w1 s s1) (h2 : Wrote ip P w2 s1 s2) (hlive : Live s.sb (s.view ip) ip) :
    Wrote ip P (fun x => (w2 x).or (w1 x)) s s2 where
  sb := h2.sb.trans h1.sb
  cache i hi := (h2.cache i hi).trans (h1.cache i hi)
  ref := h2.ref.trans h1.ref
  valid := h2.valid.trans h1.valid
  fields := by
    obtain ⟨addrs1, heq1⟩ := h1.fields
    obtain ⟨addrs2, heq2⟩ := h2.fields
    exact ⟨addrs2, by rw [heq2, heq1]⟩
  disk i hi := (h2.disk i (h1.sb ▸ hi)).trans (h1.disk i hi)
  ptrs i hi q hq := by
    have hkeep := h1.ptrs i hi q hq
    exact (h2.ptrs i (h1.live_iff.mpr hi) q (hkeep.symm ▸ hq)).trans hkeep
  bytes i hi x hx hw := by
    have hkeep := h1.ptrs i hi _ hx
    have hnone : i = ip → w2 x = none ∧ w1 x = none := fun heq => Option.or_eq_none_iff.mp (hw heq)
    rw [h2.bytes i (h1.live_iff.mpr hi) x (hkeep.symm ▸ hx) fun heq => (hnone heq).1,
      h1.bytes i hi x hx fun heq => (hnone heq).2]
  written x v hv := by
    rcases hw2 : w2 x with _ | v2
    · have hw1 : w1 x = some v := by rw [hw2] at hv; exact hv
      obtain ⟨hptr, hbyte⟩ := h1.written x v hw1
      have hlive1 := h1.live_iff.mpr hlive
      rw [← Fs.view_self] at hptr hbyte
      have hkeep := h2.ptrs ip hlive1 _ hptr
      have hsame := h2.bytes ip hlive1 x hptr fun _ => hw2
      rw [Fs.view_self s2] at hkeep hsame
      exact ⟨hkeep.symm ▸ hptr, hsame.trans hbyte⟩
    · have hvv : v2 = v := by
        rw [hw2] at hv
        exact Option.some.inj hv
      exact h2.written x v (hvv ▸ hw2)
  room := by
    have hroom1 := h1.room
    have hroom2 := h2.room
    omega
  settled hnone := by
    have hnone1 : lacks s1 ip P = ∅ := by
      apply filter_eq_empty_iff.mpr
      intro q hq
      have hptr := filter_eq_empty_iff.mp hnone hq
      rw [← Fs.view_self] at hptr ⊢
      rw [h1.ptrs ip hlive q hptr]
      exact hptr
    rw [h2.settled hnone1, h1.settled hnone]

theorem working (h : Wrote ip P w s s') (hs : Working ip s)
    (howned : Owned s'.sb s'.blk (s'.view ip) fun _ => False) : Working ip s' where
  owned := howned
  live := h.live_iff.mpr hs.live
  mapped i hi bn hbn := by
    have hlive := h.live_iff.mp hi
    have hsize : (s'.view ip i).size = (s.view ip i).size := by
      by_cases hip : i = ip
      · subst hip
        rw [Fs.view_self, Fs.view_self, h.size_eq]
      · rw [Fs.view_of_ne _ hip, Fs.view_of_ne _ hip, h.disk i hlive.1]
    rw [hsize] at hbn
    obtain ⟨hmax, hptr⟩ := hs.mapped i hlive bn hbn
    exact ⟨hmax, (h.ptrs i hlive _ hptr).symm ▸ hptr⟩
  valid := h.valid.trans hs.valid
  cached i hne hvalid := by
    have hcache := h.cache i hne
    rw [hcache] at hvalid
    obtain ⟨hlive, hcopy⟩ := hs.cached i hne hvalid
    have hdisk := h.disk i hlive.1
    refine ⟨⟨h.sb.symm ▸ hlive.1, hdisk.symm ▸ hlive.2⟩, ?_⟩
    rw [Fs.copy, hcache, hdisk]
    exact hcopy

end Wrote

/-! ### Filling a pointer -/

/-- The pointer `q` of `ip` has taken the block `b`. -/
structure Fills (ip : Nat) (q : Ptr) (b : Nat) (s s' : Fs) : Prop extends Kept ip s s' where
  owns : ∀ r, own s.sb s'.blk (s'.view ip) r =
    update (own s.sb s.blk (s.view ip)) (ip, q) b r
  data : ∀ i, Live s.sb (s.view ip) i → ∀ q', q' ≠ .table → ptr s.blk (s.view ip i) q' ≠ 0 →
    s'.blk (ptr s.blk (s.view ip i) q') = s.blk (ptr s.blk (s.view ip i) q')
  marks : ∀ x, x < s.sb.size → (Marked s.sb s'.blk x ↔ Marked s.sb s.blk x ∨ x = b)

theorem filePtr_ne_table (bn : Nat) : filePtr bn ≠ .table := by
  unfold filePtr
  split <;> simp

namespace Fills

variable {ip b : Nat} {q : Ptr} {s s' : Fs} {P : Finset Ptr}

variable (h : Fills ip q b s s')
include h

theorem ptr_eq {i : Nat} (hi : Live s.sb (s.view ip) i) {r : Ptr} (hne : (i, r) ≠ (ip, q)) :
    ptr s'.blk (s'.view ip i) r = ptr s.blk (s.view ip i) r := by
  have hlive : Live s.sb (s'.view ip) i := h.sb ▸ h.live_iff.mpr hi
  have howns := h.owns (i, r)
  rw [update_of_ne hne, own_live hlive, own_live hi] at howns
  exact howns

theorem ptr_self (hs : Working ip s) : ptr s'.blk (s'.copy ip) q = b := by
  have hlive : Live s.sb (s'.view ip) ip := h.sb ▸ h.live_iff.mpr hs.live
  have howns := h.owns (ip, q)
  rw [update_self, own_live hlive, Fs.view_self] at howns
  exact howns

theorem lacks_eq (hs : Working ip s) (hb : b ≠ 0) : lacks s' ip P = (lacks s ip P).erase q := by
  ext q'
  simp only [lacks, mem_filter]
  by_cases hq : q' = q
  · subst hq
    rw [h.ptr_self hs]
    simp [hb]
  have hptr := h.ptr_eq hs.live fun heq => hq (Prod.mk.inj heq).2
  rw [Fs.view_self, Fs.view_self] at hptr
  rw [hptr]
  simp [hq]

theorem free_eq : s'.free = s.free.erase b := by
  ext x
  simp only [Fs.free, mem_filter, mem_range, mem_erase, h.sb]
  constructor
  · rintro ⟨hx, hnot⟩
    rw [h.marks x hx, not_or] at hnot
    exact ⟨hnot.2, hx, hnot.1⟩
  · rintro ⟨hne, hx, hnot⟩
    rw [h.marks x hx, not_or]
    exact ⟨hx, hnot, hne⟩

theorem wrote (hs : Working ip s) (hzero : ptr s.blk (s.copy ip) q = 0) (hP : q ∈ P)
    (hb : b < s.sb.size) (hfree : ¬ Marked s.sb s.blk b) (hb0 : b ≠ 0) :
    Wrote ip P (fun _ => none) s s' := by
  have hptrs : ∀ i, Live s.sb (s.view ip) i → ∀ q', ptr s.blk (s.view ip i) q' ≠ 0 →
      ptr s'.blk (s'.view ip i) q' = ptr s.blk (s.view ip i) q' := by
    intro i hi q' hq'
    apply h.ptr_eq hi
    rintro heq
    obtain ⟨rfl, rfl⟩ := Prod.mk.inj heq
    rw [Fs.view_self] at hq'
    exact hq' hzero
  apply Wrote.mk h.toKept hptrs
  · intro i hi x hx _
    rw [fileByte, hptrs i hi _ hx, h.data i hi _ (filePtr_ne_table _) hx, fileByte]
  · exact fun _ _ hw => nomatch hw
  · have hmem : q ∈ lacks s ip P := mem_filter.mpr ⟨hP, hzero⟩
    have hbmem : b ∈ s.free := mem_filter.mpr ⟨mem_range.mpr hb, hfree⟩
    have hlacks := card_pos.mpr ⟨q, hmem⟩
    have hfrees := card_pos.mpr ⟨b, hbmem⟩
    rw [h.lacks_eq hs hb0, h.free_eq, card_erase_of_mem hmem, card_erase_of_mem hbmem]
    omega
  · intro hnone
    exact absurd hzero (filter_eq_empty_iff.mp hnone hP)

end Fills

/-- The inodes are out of reach of a change to the bitmap or to the data. -/
theorem dinode_of_blk {s s' : Fs} {i : Nat} (hsb : s'.sb = s.sb)
    (hblk : s'.blk (IBLOCK i s.sb) = s.blk (IBLOCK i s.sb)) : s'.dinode i = s.dinode i := by
  rw [Fs.dinode, hsb, hblk, Fs.dinode]

section

variable {ip b t j : Nat} {s : Fs}

theorem Working.lo_le (hs : Working ip s) (hb : b < s.sb.size) (hfree : ¬ Marked s.sb s.blk b) :
    dataStart s.sb ≤ b := (hs.owned.ledger.of_not_used hb hfree).1

theorem Working.take_IBLOCK (hs : Working ip s) (hb : b < s.sb.size)
    (hfree : ¬ Marked s.sb s.blk b) {i : Nat} (hi : Numbered s.sb i) :
    take s.sb b s.blk (IBLOCK i s.sb) = s.blk (IBLOCK i s.sb) := by
  have hlay := hs.owned.layout
  have hlt := hlay.IBLOCK_lt_dataStart hi.2 hb
  have hlo := hs.lo_le hb hfree
  exact take_of_ne _ (Nat.ne_of_lt (hlay.IBLOCK_lt_BBLOCK hi.2 b)) (by omega)

/-- The state after `ip->addrs[k] = balloc(ip->dev)`. -/
def Fs.filledSlot (s : Fs) (ip k b : Nat) : Fs :=
  (s.taken b).setCopy ip ((s.copy ip).setAddr k b)

theorem Fs.copy_setCopy (s : Fs) (ip : Nat) (d : Dinode) : (s.setCopy ip d).copy ip = d := by
  simp [Fs.setCopy, Fs.setIncore, Fs.copy]

theorem Fs.icache_setCopy_of_ne (s : Fs) {i : Nat} (hne : i ≠ ip) (d : Dinode) :
    (s.setCopy ip d).icache i = s.icache i := update_of_ne hne ..

theorem Working.kept_filledSlot (hs : Working ip s) {k : Nat} (hb : b < s.sb.size)
    (hfree : ¬ Marked s.sb s.blk b) : Kept ip s (s.filledSlot ip k b) where
  sb := rfl
  cache i hi := Fs.icache_setCopy_of_ne _ hi _
  ref := by simp [Fs.filledSlot, Fs.setCopy, Fs.setIncore, Fs.taken]
  valid := by simp [Fs.filledSlot, Fs.setCopy, Fs.setIncore, Fs.taken]
  fields := ⟨_, Fs.copy_setCopy _ _ _⟩
  disk i hi := dinode_of_blk rfl (hs.take_IBLOCK hb hfree hi)

theorem Kept.view_eq {s' : Fs} (h : Kept ip s s') {i : Nat} (hi : Numbered s.sb i) :
    s'.view ip i = update (s.view ip) ip (s'.copy ip) i := by
  by_cases hne : i = ip
  · subst hne
    rw [Fs.view_self, update_self]
  · rw [Fs.view_of_ne _ hne, update_of_ne hne, Fs.view_of_ne _ hne, h.disk i hi]

theorem Working.fills_slot (hs : Working ip s) {k : Nat} (hk : k ≤ NDIRECT)
    (hzero : (s.copy ip).addr k = 0) (hb : b < s.sb.size) (hfree : ¬ Marked s.sb s.blk b) :
    Fills ip (slot k) b s (s.filledSlot ip k b) where
  toKept := hs.kept_filledSlot hb hfree
  owns r := by
    have hkept := hs.kept_filledSlot (k := k) hb hfree
    rw [own_numbered (fun i hi => hkept.view_eq hi) r, ← hs.owned.own_takeSlot hs.live hk
      (by rw [Fs.view_self]; exact hzero) hb hfree r, Fs.view_self, Fs.filledSlot, Fs.copy_setCopy]
    rfl
  data i hi q' _ hq' := hs.owned.take_ptr hb hfree hi hq'
  marks x hx := marked_take hs.owned.layout s.blk (hs.lo_le hb hfree) hx

theorem Working.filledSlot (hs : Working ip s) {k : Nat} {P : Finset Ptr} (hk : k ≤ NDIRECT)
    (hzero : (s.copy ip).addr k = 0) (hb : b < s.sb.size) (hfree : ¬ Marked s.sb s.blk b)
    (hP : slot k ∈ P) :
    Working ip (s.filledSlot ip k b) ∧ Wrote ip P (fun _ => none) s (s.filledSlot ip k b) := by
  have hb0 : b ≠ 0 := by
    have hpos := hs.owned.ledger.pos
    have hlo := hs.lo_le hb hfree
    omega
  have hfills := hs.fills_slot hk hzero hb hfree
  have hwrote := hfills.wrote hs (by rw [ptr_slot hk]; exact hzero) hP hb hfree hb0
  have howned := hs.owned.takeSlot hs.live hk (by rw [Fs.view_self]; exact hzero) hb hfree
  have hcopy : (s.view ip ip).setAddr k b = (s.filledSlot ip k b).copy ip := by
    rw [Fs.view_self, Fs.filledSlot, Fs.copy_setCopy]
  rw [hcopy] at howned
  have hown : ∀ r, own (s.filledSlot ip k b).sb (s.filledSlot ip k b).blk
      ((s.filledSlot ip k b).view ip) r = own (s.filledSlot ip k b).sb (s.filledSlot ip k b).blk
        (update (s.view ip) ip ((s.filledSlot ip k b).copy ip)) r :=
    own_numbered fun i hi => hfills.view_eq (hfills.sb ▸ hi)
  exact ⟨hwrote.working hs (howned.frame rfl (fun _ _ => Iff.rfl) hown), hwrote⟩

def Fs.filledEntry (s : Fs) (t j b : Nat) : Fs :=
  let s' := (s.taken b).setBlk t (setLE ((s.taken b).blk t) (4 * j) 4 b)
  { s' with logged := s'.logged ++ [t] }

variable (hs : Working ip s)
include hs

variable (ht : (s.copy ip).addr NDIRECT = t)
include ht

theorem Working.filledEntry_blk (ht0 : t ≠ 0) (hb : b < s.sb.size) (hfree : ¬ Marked s.sb s.blk b) :
    (s.filledEntry t j b).blk =
      update (take s.sb b s.blk) t (setLE (s.blk t) (4 * j) 4 b) := by
  have hview : ptr s.blk (s.view ip ip) .table = t := by rw [Fs.view_self]; exact ht
  have hkeep := hs.owned.take_ptr hb hfree hs.live (hview.symm ▸ ht0)
  rw [hview] at hkeep
  change update (take s.sb b s.blk) t (setLE (take s.sb b s.blk t) (4 * j) 4 b) = _
  rw [hkeep]

theorem Working.kept_filledEntry (ht0 : t ≠ 0) (hb : b < s.sb.size) (hfree : ¬ Marked s.sb s.blk b) :
    Kept ip s (s.filledEntry t j b) where
  sb := rfl
  cache _ _ := rfl
  ref := rfl
  valid := rfl
  fields := ⟨_, rfl⟩
  disk i hi := by
    have hview : ptr s.blk (s.view ip ip) .table = t := by rw [Fs.view_self]; exact ht
    have hlo := (hs.owned.ptr_range hs.live (hview.symm ▸ ht0)).1
    have hlt := hs.owned.layout.IBLOCK_lt_dataStart hi.2 hb
    have hblock : (s.filledEntry t j b).blk (IBLOCK i s.sb) = s.blk (IBLOCK i s.sb) := by
      rw [hs.filledEntry_blk ht ht0 hb hfree, update_of_ne (by omega), hs.take_IBLOCK hb hfree hi]
    exact dinode_of_blk rfl hblock

theorem Working.fills_entry (ht0 : t ≠ 0) (hj : j < NINDIRECT) (hb : b < s.sb.size)
    (hfree : ¬ Marked s.sb s.blk b) : Fills ip (.entry j) b s (s.filledEntry t j b) := by
  have hkept := hs.kept_filledEntry (j := j) ht ht0 hb hfree
  have hblk := hs.filledEntry_blk (j := j) ht ht0 hb hfree
  have hview : (s.view ip ip).addr NDIRECT = t := by rw [Fs.view_self]; exact ht
  have htable : ptr s.blk (s.view ip ip) .table = t := hview
  have hlo := (hs.owned.ptr_range hs.live (htable.symm ▸ ht0)).1
  rw [htable] at hlo
  apply Fills.mk hkept
  · intro r
    have hsame : ∀ i, Numbered s.sb i → (s.filledEntry t j b).view ip i = s.view ip i := by
      intro i hi
      have hcopy : (s.filledEntry t j b).copy ip = s.view ip ip := (Fs.view_self s ip).symm
      rw [hkept.view_eq hi, hcopy, update_eq_self]
    rw [own_numbered hsame r, hblk, hs.owned.own_takeEntry hs.live hview ht0 hj hb hfree r]
  · intro i hi q' hne hq'
    have hne' : ptr s.blk (s.view ip i) q' ≠ t := by
      rintro heq
      exact hne (hs.owned.ptr_once hi hs.live hq' (heq.trans htable.symm)).2
    rw [hblk, update_of_ne hne']
    exact hs.owned.take_ptr hb hfree hi hq'
  · intro x hx
    rw [hblk]
    exact hs.owned.marked_takeEntry hlo (hs.lo_le hb hfree) hx

theorem Working.filledEntry {P : Finset Ptr} (ht0 : t ≠ 0) (hj : j < NINDIRECT)
    (hzero : getLE (s.blk t) (4 * j) 4 = 0) (hb : b < s.sb.size) (hfree : ¬ Marked s.sb s.blk b)
    (hP : .entry j ∈ P) :
    Working ip (s.filledEntry t j b) ∧ Wrote ip P (fun _ => none) s (s.filledEntry t j b) := by
  have hb0 : b ≠ 0 := by
    have hpos := hs.owned.ledger.pos
    have hlo := hs.lo_le hb hfree
    omega
  have hptr : ptr s.blk (s.copy ip) (.entry j) = 0 := by
    rw [ptr, ht, hzero]
    simp
  have hfills := hs.fills_entry ht ht0 hj hb hfree
  have hwrote := hfills.wrote hs hptr hP hb hfree hb0
  have hview : (s.view ip ip).addr NDIRECT = t := by rw [Fs.view_self]; exact ht
  have howned := hs.owned.takeEntry hs.live hview ht0 hj hzero hb hfree
  rw [← hs.filledEntry_blk ht ht0 hb hfree] at howned
  have hown : ∀ r, own (s.filledEntry t j b).sb (s.filledEntry t j b).blk
      ((s.filledEntry t j b).view ip) r =
        own (s.filledEntry t j b).sb (s.filledEntry t j b).blk (s.view ip) r := by
    apply own_numbered
    intro i hi
    have hcopy : (s.filledEntry t j b).copy ip = s.view ip ip := (Fs.view_self s ip).symm
    rw [hfills.view_eq (hfills.sb ▸ hi), hcopy, update_eq_self]
  exact ⟨hwrote.working hs (howned.frame rfl (fun _ _ => Iff.rfl) hown), hwrote⟩

end

/-! ### `bmap` -/

variable {E : String → Prop} {s : Fs} {ip : Nat} {P : Finset Ptr} {Q : Nat → Fs → Prop}

/-- Free blocks for all that `P` lacks, unless running out of them is allowed for. -/
def Room (E : String → Prop) (s : Fs) (ip : Nat) (P : Finset Ptr) : Prop :=
  E "balloc: out of blocks" ∨ (lacks s ip P).card ≤ s.free.card

theorem Wrote.room_iff {w : Nat → Option UInt8} {s' : Fs} (h : Wrote ip P w s s') :
    Room E s' ip P ↔ Room E s ip P := by
  have hroom := h.room
  unfold Room
  constructor
  · rintro (hE | hle)
    · exact .inl hE
    · exact .inr (by omega)
  · rintro (hE | hle)
    · exact .inl hE
    · exact .inr (by omega)

theorem Room.out (h : Room E s ip P) {q : Ptr} (hP : q ∈ P)
    (hzero : ptr s.blk (s.copy ip) q = 0) (hnone : ∀ b, b < s.sb.size → Marked s.sb s.blk b) :
    E "balloc: out of blocks" := by
  rcases h with hE | hle
  · exact hE
  have hmem : q ∈ lacks s ip P := mem_filter.mpr ⟨hP, hzero⟩
  have hpos := card_pos.mpr ⟨q, hmem⟩
  have hempty : s.free = ∅ := by
    apply filter_eq_empty_iff.mpr
    intro b hb
    exact not_not.mpr (hnone b (mem_range.mp hb))
  rw [hempty, card_empty] at hle
  omega

theorem wp_addrOrAlloc {k : Nat} (h : Working ip s) (hk : k ≤ NDIRECT) (hP : slot k ∈ P)
    (hroom : Room E s ip P) (hQ : ∀ p s', Working ip s' → Wrote ip P (fun _ => none) s s' → p ≠ 0 →
      (s'.copy ip).addr k = p → Q p s') : wp E (addrOrAlloc ip k) Q s := by
  rw [addrOrAlloc, wp_bind, wp_reads]
  by_cases hzero : (s.copy ip).addr k = 0
  · rw [if_pos hzero, wp_bind]
    apply wp_balloc
    · intro b hb hfree
      obtain ⟨hworking, hwrote⟩ := h.filledSlot hk hzero hb hfree hP
      apply hQ b _ hworking hwrote
      · have hpos := h.owned.ledger.pos
        have hlo := h.lo_le hb hfree
        omega
      · have hsmall : b < 2 ^ 32 := by have := h.owned.layout.small; omega
        rw [Fs.filledSlot, Fs.copy_setCopy, Dinode.addr_setAddr _ hk hsmall, if_pos rfl]
    · exact hroom.out hP (by rw [ptr_slot hk]; exact hzero)
  · rw [if_neg hzero]
    exact hQ _ s h (.refl ip P s) hzero rfl

/-- The pointers that `bmap(ip, bn)` may have to fill. -/
def needs (bn : Nat) : Finset Ptr := if bn < NDIRECT then {filePtr bn} else {.table, filePtr bn}

/-- **`bmap`** finds a block of the file, or gives it one. -/
theorem wp_bmap {bn : Nat} (h : Working ip s) (hbn : bn < MAXFILE) (hP : needs bn ⊆ P)
    (hroom : Room E s ip P) (hQ : ∀ p s', Working ip s' → Wrote ip P (fun _ => none) s s' → p ≠ 0 →
      ptr s'.blk (s'.copy ip) (filePtr bn) = p → Q p s') : wp E (bmap ip bn) Q s := by
  unfold needs at hP
  by_cases hdirect : bn < NDIRECT
  · rw [if_pos hdirect, singleton_subset_iff] at hP
    have hslot : filePtr bn = slot bn := by rw [filePtr, slot, if_pos hdirect, if_pos hdirect]
    rw [hslot] at hP hQ
    rw [bmap, if_pos hdirect]
    apply wp_addrOrAlloc h (Nat.le_of_lt hdirect) hP hroom
    intro p s' hworking hwrote hp haddr
    exact hQ p s' hworking hwrote hp (by rw [ptr_slot (Nat.le_of_lt hdirect)]; exact haddr)
  · have hj : bn - NDIRECT < NINDIRECT := by
      have hmax : MAXFILE = NDIRECT + NINDIRECT := rfl
      omega
    have hentry : filePtr bn = .entry (bn - NDIRECT) := by rw [filePtr, if_neg hdirect]
    rw [if_neg hdirect, insert_subset_iff, singleton_subset_iff] at hP
    rw [hentry] at hP hQ
    rw [bmap, if_neg hdirect, if_pos hj, wp_bind]
    apply wp_addrOrAlloc h le_rfl hP.1 hroom
    intro t s1 hworking1 hwrote1 ht0 ht
    have hptr1 : ptr s1.blk (s1.copy ip) (.entry (bn - NDIRECT)) =
        getLE (s1.blk t) (4 * (bn - NDIRECT)) 4 := by
      rw [ptr, ht, if_pos ⟨hj, ht0⟩]
    rw [wp_bind, bread, wp_reads]
    have hcases := eq_or_ne (getLE (s1.blk t) (4 * (bn - NDIRECT)) 4) 0
    cases hcases with
    | inl hzero =>
      simp only [if_pos hzero]
      rw [wp_bind]
      apply wp_balloc
      · intro b hb hfree
        obtain ⟨hworking2, hwrote2⟩ := hworking1.filledEntry ht ht0 hj hzero hb hfree hP.2
        have hfills := hworking1.fills_entry ht ht0 hj hb hfree
        apply hQ b (s1.filledEntry t (bn - NDIRECT) b) hworking2 (hwrote1.trans hwrote2 h.live)
        · have hpos := hworking1.owned.ledger.pos
          have hlo := hworking1.lo_le hb hfree
          omega
        · exact hfills.ptr_self hworking1
      · exact (hwrote1.room_iff.mpr hroom).out hP.2 (hptr1.trans hzero)
    | inr hzero =>
      simp only [if_neg hzero]
      exact hQ _ s1 hworking1 hwrote1 hzero hptr1

/-- **`bmap` of a mapped block** changes nothing. -/
theorem wp_bmap_mapped {bn : Nat} (hbn : bn < MAXFILE)
    (hptr : ptr s.blk (s.copy ip) (filePtr bn) ≠ 0) (hQ : Q (ptr s.blk (s.copy ip) (filePtr bn)) s) :
    wp E (bmap ip bn) Q s := by
  by_cases hdirect : bn < NDIRECT
  · have heq : ptr s.blk (s.copy ip) (filePtr bn) = (s.copy ip).addr bn := by
      simp [filePtr, ptr, hdirect]
    rw [heq] at hptr hQ
    rw [bmap, if_pos hdirect, addrOrAlloc, wp_bind, wp_reads, if_neg hptr]
    exact hQ
  · have hj : bn - NDIRECT < NINDIRECT := by
      have hmax : MAXFILE = NDIRECT + NINDIRECT := rfl
      omega
    have htable : (s.copy ip).addr NDIRECT ≠ 0 := by
      intro hzero
      rw [filePtr, if_neg hdirect, ptr_entry_of_no_table hzero] at hptr
      exact hptr rfl
    have heq : ptr s.blk (s.copy ip) (filePtr bn) =
        getLE (s.blk ((s.copy ip).addr NDIRECT)) (4 * (bn - NDIRECT)) 4 := by
      rw [filePtr, if_neg hdirect, ptr, if_pos ⟨hj, htable⟩]
    rw [heq] at hptr hQ
    rw [bmap, if_neg hdirect, if_pos hj, wp_bind, addrOrAlloc, wp_bind, wp_reads, if_neg htable]
    simp only [bread, wp_bind, wp_pure, wp_reads, if_neg hptr]
    exact hQ

end Xv6.Blocks
