import Xv6.BlocksFiles

/-!
**What the functions of `fs.c` hand to `log_write`**, and what they leave alone.

`Spends F k s s'`: between `s` and `s'` the blocks of `F`, and at most `k` others, have been
logged. The others are data blocks and indirect blocks, which are known only when `bmap` has
found or allocated them; the blocks of the bitmap and of the inodes are known before.

`Trims ip s s'` is what the truncation of `ip` does to everything else.
-/

namespace Xv6.Blocks

open Bytes Program List Function

abbrev any : String → Prop := fun _ => True

/-! ### The log -/

/-- Since `s`, only blocks of `F` have been logged. -/
def Logs (F : Finset Nat) (s s' : Fs) : Prop :=
  ∃ new, s'.logged = s.logged ++ new ∧ ∀ b ∈ new, b ∈ F

/-- Since `s`, only blocks of `F` and at most `k` others have been logged. -/
def Spends (F : Finset Nat) (k : Nat) (s s' : Fs) : Prop :=
  ∃ D : Finset Nat, D.card ≤ k ∧ Logs (F ∪ D) s s'

section

variable {F G : Finset Nat} {k l : Nat} {s s1 s2 : Fs}

theorem Logs.same (h : s1.logged = s.logged) : Logs F s s1 :=
  ⟨[], by rw [h, append_nil], fun _ hb => nomatch hb⟩

theorem Logs.mono (h : Logs F s s1) (hsub : F ⊆ G) : Logs G s s1 := by
  obtain ⟨new, hlogged, hmem⟩ := h
  exact ⟨new, hlogged, fun b hb => hsub (hmem b hb)⟩

theorem Logs.trans (h1 : Logs F s s1) (h2 : Logs F s1 s2) : Logs F s s2 := by
  obtain ⟨new1, hlogged1, hmem1⟩ := h1
  obtain ⟨new2, hlogged2, hmem2⟩ := h2
  refine ⟨new1 ++ new2, by rw [hlogged2, hlogged1, append_assoc], fun b hb => ?_⟩
  rcases mem_append.mp hb with hb | hb
  · exact hmem1 b hb
  · exact hmem2 b hb

theorem Logs.spends (h : Logs F s s1) : Spends F 0 s s1 :=
  ⟨∅, Nat.le_refl 0, h.mono Finset.subset_union_left⟩

theorem Spends.mono (h : Spends F k s s1) (hsub : F ⊆ G) (hle : k ≤ l) : Spends G l s s1 := by
  obtain ⟨D, hcard, hlogs⟩ := h
  exact ⟨D, hcard.trans hle, hlogs.mono (Finset.union_subset_union_left hsub)⟩

theorem Spends.trans (h1 : Spends F k s s1) (h2 : Spends F l s1 s2) : Spends F (k + l) s s2 := by
  obtain ⟨D1, hcard1, hlogs1⟩ := h1
  obtain ⟨D2, hcard2, hlogs2⟩ := h2
  refine ⟨D1 ∪ D2, (Finset.card_union_le D1 D2).trans (Nat.add_le_add hcard1 hcard2), ?_⟩
  apply Logs.trans
  · exact hlogs1.mono (Finset.union_subset_union_right Finset.subset_union_left)
  · exact hlogs2.mono (Finset.union_subset_union_right Finset.subset_union_right)

theorem Spends.card_le (h : Spends F k s s1) :
    ∃ new, s1.logged = s.logged ++ new ∧ new.toFinset.card ≤ F.card + k := by
  obtain ⟨D, hcard, new, hlogged, hmem⟩ := h
  refine ⟨new, hlogged, ?_⟩
  have hsub : new.toFinset ⊆ F ∪ D := fun b hb => hmem b (mem_toFinset.mp hb)
  calc new.toFinset.card ≤ (F ∪ D).card := Finset.card_le_card hsub
    _ ≤ F.card + D.card := Finset.card_union_le F D
    _ ≤ F.card + k := Nat.add_le_add_left hcard _

end

def bitmap (sb : Superblock) : Finset Nat := (Finset.range sb.size).image fun b => BBLOCK b sb

theorem mem_bitmap {sb : Superblock} {b : Nat} (hb : b < sb.size) : BBLOCK b sb ∈ bitmap sb :=
  Finset.mem_image_of_mem _ (Finset.mem_range.mpr hb)

theorem card_bitmap {sb : Superblock} (hsmall : sb.size ≤ BPB) : (bitmap sb).card ≤ 1 := by
  have hone : bitmap sb ⊆ {sb.bmapstart} := by
    intro x hx
    obtain ⟨b, hb, rfl⟩ := Finset.mem_image.mp hx
    have hlt : b < BPB := Nat.lt_of_lt_of_le (Finset.mem_range.mp hb) hsmall
    rw [Finset.mem_singleton, BBLOCK, Nat.div_eq_of_lt hlt, Nat.zero_add]
  exact (Finset.card_le_card hone).trans (Finset.card_singleton _).le

/-- Since `s`, only the bitmap, blocks of the inodes in `I` and `k` others have been logged. -/
def Uses (sb : Superblock) (I : Finset Nat) (k : Nat) (s s' : Fs) : Prop :=
  Spends (bitmap sb ∪ I.image fun i => IBLOCK i sb) k s s'

section

variable {sb : Superblock} {I J : Finset Nat} {k l : Nat} {s s1 s2 : Fs}

theorem Uses.mono (h : Uses sb I k s s1) (hsub : I ⊆ J) (hle : k ≤ l) : Uses sb J l s s1 :=
  Spends.mono h (Finset.union_subset_union_right (Finset.image_subset_image hsub)) hle

theorem Uses.andThen (h1 : Uses sb I k s s1) (h2 : Uses sb J l s1 s2) (hsub : J ⊆ I) :
    Uses sb I (k + l) s s2 := Spends.trans h1 (h2.mono hsub le_rfl)

theorem Uses.same (h : s1.logged = s.logged) : Uses sb ∅ 0 s s1 := (Logs.same h).spends

theorem Logs.uses {i : Nat} (h : Logs (bitmap sb ∪ {IBLOCK i sb}) s s1) : Uses sb {i} 0 s s1 := by
  exact h.spends

theorem Uses.card_le (h : Uses sb I k s s1) (hsmall : sb.size ≤ BPB) :
    ∃ new, s1.logged = s.logged ++ new ∧ new.toFinset.card ≤ 1 + I.card + k := by
  obtain ⟨new, hlogged, hcard⟩ := Spends.card_le h
  refine ⟨new, hlogged, hcard.trans (Nat.add_le_add_right ?_ k)⟩
  exact (Finset.card_union_le _ _).trans (Nat.add_le_add (card_bitmap hsmall) Finset.card_image_le)

end

/-! ### Writing -/

section

variable {s : Fs} {ip : Nat}

theorem logs_taken {b : Nat} (hb : b < s.sb.size) : Logs (bitmap s.sb ∪ {b}) s (s.taken b) := by
  refine ⟨[BBLOCK b s.sb, b], rfl, fun x hx => ?_⟩
  rcases mem_pair.mp hx with rfl | rfl
  · exact Finset.mem_union_left _ (mem_bitmap hb)
  · exact Finset.mem_union_right _ (Finset.mem_singleton_self _)

theorem logs_write {F : Finset Nat} {b : Nat} (hb : b ∈ F) (data : Block) :
    Logs F s { s.setBlk b data with logged := s.logged ++ [b] } :=
  ⟨[b], rfl, fun _ hx => mem_singleton.mp hx ▸ hb⟩

theorem logs_addrOrAlloc {k : Nat} {Q : Nat → Fs → Prop}
    (hQ : ∀ b s', s'.sb = s.sb → Logs (bitmap s.sb ∪ {b}) s s' → Q b s') :
    wp any (addrOrAlloc ip k) Q s := by
  rw [addrOrAlloc, wp_bind, wp_reads]
  by_cases haddr : (s.copy ip).addr k = 0
  · rw [if_pos haddr, wp_bind]
    apply wp_balloc
    · intro b hb _
      exact hQ b _ rfl (logs_taken hb)
    · exact fun _ => trivial
  · rw [if_neg haddr]
    exact hQ _ s rfl (.same rfl)

/-- **`bmap`** logs the block it returns and the indirect block, if it has to. -/
theorem logs_bmap {bn : Nat} {Q : Nat → Fs → Prop}
    (hQ : ∀ a D s', s'.sb = s.sb → D.card ≤ 2 → a ∈ D → Logs (bitmap s.sb ∪ D) s s' → Q a s') :
    wp any (bmap ip bn) Q s := by
  unfold bmap
  by_cases hdirect : bn < NDIRECT
  · rw [if_pos hdirect]
    apply logs_addrOrAlloc
    intro b s' hsb hlogs
    exact hQ b {b} s' hsb (by simp) (Finset.mem_singleton_self b) hlogs
  · rw [if_neg hdirect]
    by_cases hindirect : bn - NDIRECT < NINDIRECT
    · rw [if_pos hindirect, wp_bind]
      apply logs_addrOrAlloc
      intro t s1 hsb1 hlogs1
      have htable : ∀ a, Logs (bitmap s.sb ∪ {t, a}) s s1 := by
        intro a
        apply hlogs1.mono
        exact Finset.union_subset_union_right (by simp)
      simp only [wp_bind, bread, wp_reads]
      generalize getLE (s1.blk t) (4 * (bn - NDIRECT)) 4 = addr
      by_cases haddr : addr = 0
      · rw [if_pos haddr, wp_bind]
        apply wp_balloc
        · intro b hb _
          apply hQ b {t, b}
          · exact hsb1
          · exact Finset.card_le_two
          · simp
          apply (htable b).trans
          have hfound := logs_taken hb
          rw [hsb1] at hfound
          apply (hfound.mono (Finset.union_subset_union_right (by simp))).trans
          apply logs_write
          simp
        · exact fun _ => trivial
      · rw [if_neg haddr]
        apply hQ addr {t, addr} s1 hsb1 Finset.card_le_two
        · simp
        · exact htable _
    · rw [if_neg hindirect]
      exact True.intro

/-- How many blocks `n` bytes at `off` lie in. -/
def spanned (off n : Nat) : Nat := if n = 0 then 0 else (off % BSIZE + n + BSIZE - 1) / BSIZE

theorem spanned_step {off n : Nat} (hn : n ≠ 0) :
    spanned off n = 1 + spanned (off + chunk off n) (n - chunk off n) := by
  have hbsize : BSIZE = 512 := rfl
  unfold spanned chunk
  rw [if_neg hn, hbsize]
  split <;> omega

theorem logs_writeLoop {Q : Unit → Fs → Prop} :
    ∀ {fuel off n : Nat} {src : Nat → UInt8} {s : Fs},
      (∀ s', s'.sb = s.sb → Spends (bitmap s.sb) (2 * spanned off n) s s' → Q () s') →
        wp any (writeLoop ip fuel src off n) Q s := by
  intro fuel
  induction fuel with
  | zero =>
    intro off n src s hQ
    exact hQ s rfl ((Logs.same rfl).spends.mono (Finset.Subset.refl _) (Nat.zero_le _))
  | succ fuel ih =>
    intro off n src s hQ
    rw [writeLoop]
    by_cases hn : n = 0
    · rw [if_pos hn]
      exact hQ s rfl ((Logs.same rfl).spends.mono (Finset.Subset.refl _) (Nat.zero_le _))
    rw [if_neg hn, wp_bind]
    apply logs_bmap
    intro a D s1 hsb1 hcard hmem hlogs
    apply ih
    intro s2 hsb2 hspends
    -- the block of this round is one of those that `bmap` accounts for
    have hround : Spends (bitmap s.sb) 2 s
        { s1.setBlk a (blit (s1.blk a) (off % BSIZE) (chunk off n) src) with
          logged := s1.logged ++ [a] } := by
      refine ⟨D, hcard, hlogs.trans ?_⟩
      exact logs_write (Finset.mem_union_right _ hmem) _
    rw [show (Fs.setBlk s1 a _).sb = s.sb from hsb1] at hspends
    apply hQ s2 (hsb2.trans hsb1)
    rw [spanned_step hn, Nat.mul_add]
    exact hround.trans hspends

theorem logs_stored {s1 : Fs} (hsb : s1.sb = s.sb) (hlogged : s1.logged = s.logged) :
    Logs {IBLOCK ip s.sb} s (s1.stored ip) := by
  refine ⟨[IBLOCK ip s.sb], ?_, fun x hx => ?_⟩
  · rw [← hlogged, ← hsb]
    rfl
  · exact Finset.mem_singleton.mpr (mem_singleton.mp hx)

/-- **`writei`** logs two blocks for each block it writes to, and its inode. -/
theorem logs_writei {devsw : Nat → Option Int} {src : Nat → UInt8} {off n : Nat} :
    wp any (writei devsw ip src off n)
      (fun _ s' => Uses s.sb {ip} (2 * spanned off n) s s') s := by
  have hsame : Spends (bitmap s.sb ∪ {IBLOCK ip s.sb}) (2 * spanned off n) s s :=
    (Logs.same rfl).spends.mono (Finset.Subset.refl _) (Nat.zero_le _)
  rw [writei, wp_bind, wp_reads]
  split
  · exact hsame
  split
  · exact hsame
  split
  · exact hsame
  rw [wp_bind]
  apply logs_writeLoop
  intro s1 hsb1 hspends
  have hdata : Spends (bitmap s.sb ∪ {IBLOCK ip s.sb}) (2 * spanned off n) s s1 :=
    hspends.mono Finset.subset_union_left (Nat.le_refl _)
  rw [wp_bind, wp_reads, wp_bind, wp_onlyIf]
  constructor
  · intro _
    rw [wp_bind, setCopy, wp_modify]
    apply wp_iupdate
    generalize hresized : s1.setCopy ip ((s1.copy ip).setSize (off + n)) = s2
    have hlogs : Logs {IBLOCK ip s1.sb} s1 (s2.stored ip) := by
      apply logs_stored
      · rw [← hresized]
        rfl
      · rw [← hresized]
        rfl
    rw [hsb1] at hlogs
    exact hdata.trans (hlogs.mono Finset.subset_union_right).spends
  · exact fun _ => hdata

end

/-! ### Truncating -/

theorem dinode_congr {s s' : Fs} (hsb : s'.sb = s.sb) (hblk : s'.blk = s.blk) :
    s'.dinode = s.dinode := by
  funext i
  rw [Fs.dinode, hsb, hblk, Fs.dinode]

/-- The bitmap, the inode `ip` and the cache may have changed; nobody has lost a reference. -/
structure Trims (ip : Nat) (s s' : Fs) : Prop where
  sb : s'.sb = s.sb
  logs : Logs (bitmap s.sb ∪ {IBLOCK ip s.sb}) s s'
  high : ∀ b, dataStart s.sb ≤ b → s'.blk b = s.blk b
  disk : ∀ i, i ≠ ip → Numbered s.sb i → s'.dinode i = s.dinode i
  ref : ∀ i, (s'.icache i).ref = (s.icache i).ref

variable {ip : Nat} {s s1 s2 : Fs}

theorem Trims.trans (h1 : Trims ip s s1) (h2 : Trims ip s1 s2) : Trims ip s s2 := by
  have hlogs2 := h2.logs
  have hhigh2 := h2.high
  have hdisk2 := h2.disk
  rw [h1.sb] at hlogs2 hhigh2 hdisk2
  constructor
  · exact h2.sb.trans h1.sb
  · exact h1.logs.trans hlogs2
  · exact fun b hb => (hhigh2 b hb).trans (h1.high b hb)
  · exact fun i hi hnum => (hdisk2 i hi hnum).trans (h1.disk i hi hnum)
  · exact fun i => (h2.ref i).trans (h1.ref i)

theorem Trims.recache (hsb : s1.sb = s.sb) (hblk : s1.blk = s.blk) (hlogged : s1.logged = s.logged)
    (href : ∀ i, (s1.icache i).ref = (s.icache i).ref) : Trims ip s s1 := by
  have hdinode := dinode_congr hsb hblk
  refine ⟨hsb, .same hlogged, fun b _ => ?_, fun i _ _ => ?_, href⟩
  · rw [hblk]
  · rw [hdinode]

theorem Trims.refl (s : Fs) : Trims ip s s := .recache rfl rfl rfl fun _ => rfl

theorem Trims.setCopy (s : Fs) (ip : Nat) (d : Dinode) : Trims ip s (s.setCopy ip d) := by
  apply Trims.recache
  · rfl
  · rfl
  · rfl
  intro i
  by_cases hi : i = ip
  · subst hi
    simp only [Fs.setCopy, Fs.setIncore, update_self]
  · rw [Fs.icache_setCopy_of_ne _ hi]

theorem Trims.untaken (hlay : Layout s.sb) {b : Nat} (hb : b < s.sb.size) :
    Trims ip s (s.untaken b) := by
  have hkeep : ∀ x, x ≠ BBLOCK b s.sb → (s.untaken b).blk x = s.blk x := fun x hx =>
    untake_of_ne _ hx
  refine ⟨rfl, ⟨[BBLOCK b s.sb], rfl, fun x hx => ?_⟩, fun x hx => ?_, fun i _ hi => ?_,
    fun _ => rfl⟩
  · rw [mem_singleton.mp hx]
    exact Finset.mem_union_left _ (mem_bitmap hb)
  · exact hkeep x (Nat.ne_of_gt (Nat.lt_of_lt_of_le (hlay.data b hb) hx))
  · apply dinode_of_blk
    · rfl
    · exact hkeep _ (Nat.ne_of_lt (hlay.IBLOCK_lt_BBLOCK hi.2 b))

theorem Trims.stored (hlay : Layout s.sb) (hip : Numbered s.sb ip) : Trims ip s (s.stored ip) := by
  have hkeep : ∀ x, x ≠ IBLOCK ip s.sb → (s.stored ip).blk x = s.blk x := fun x hx =>
    update_of_ne hx ..
  refine ⟨rfl, (logs_stored rfl rfl).mono Finset.subset_union_right, fun x hx => ?_,
    fun i hi _ => s.dinode_stored_of_ne hi, fun _ => rfl⟩
  have hlt := hlay.IBLOCK_lt_dataStart hip.2 hlay.pos
  exact hkeep x (Nat.ne_of_gt (Nat.lt_of_lt_of_le hlt hx))

end Xv6.Blocks
