import Xv6.BlocksLog

/-!
**`itrunc` and the inodes that are freed.**

`itrunc` lets go of the addresses of an inode one by one and frees what it let go of;
`Emptying ip d` is the ownership of blocks meanwhile, with `d` for the inode `ip`: `itrunc`
frees the entries of the indirect block before it forgets the block itself, so `d` is at
that point ahead of the copy in memory.
-/

namespace Xv6.Blocks

open Bytes Program Function

theorem Fs.untaken_blk (s : Fs) {b x : Nat} (hbit : x ≠ BBLOCK b s.sb) :
    (s.untaken b).blk x = s.blk x := untake_of_ne s.blk hbit

theorem Fs.valid_setCopy (s : Fs) (ip : Nat) (d : Dinode) :
    ((s.setCopy ip d).icache ip).valid = (s.icache ip).valid := by
  simp [Fs.setCopy, Fs.setIncore]

/-! ### `itrunc` -/

structure Emptying (ip : Nat) (d : Dinode) (hand : Nat → Prop) (s : Fs) : Prop where
  owned : Owned s.sb s.blk (update s.dinode ip d) hand
  live : Live s.sb (update s.dinode ip d) ip
  mapped : ∀ i, i ≠ ip → Live s.sb s.dinode i → Mapped s.blk (s.dinode i)
  cached : ∀ i, i ≠ ip → (s.icache i).valid = true →
    Live s.sb s.dinode i ∧ s.copy i = s.dinode i

theorem Working.emptying {ip : Nat} {s : Fs} (h : Working ip s) :
    Emptying ip (s.copy ip) (fun _ => False) s := by
  refine ⟨h.owned, h.live, fun i hne hi => ?_, h.cached⟩
  have hview := s.view_of_ne hne
  have hlive : Live s.sb (s.view ip) i := by
    rw [Live, hview]
    exact hi
  rw [← hview]
  exact h.mapped i hlive

namespace Emptying

variable {ip : Nat} {d : Dinode} {hand hand' : Nat → Prop} {s : Fs}

theorem live_of_ne (_h : Emptying ip d hand s) {i : Nat} (hne : i ≠ ip) :
    Live s.sb (update s.dinode ip d) i ↔ Live s.sb s.dinode i := by
  rw [Live, update_of_ne hne, Live]

variable (h : Emptying ip d hand s)
include h

theorem table_ne_BBLOCK {i b : Nat} (hne : i ≠ ip) (hi : Live s.sb s.dinode i)
    (ht : (s.dinode i).addr NDIRECT ≠ 0) (hb : b < s.sb.size) :
    (s.dinode i).addr NDIRECT ≠ BBLOCK b s.sb := by
  have hupd : update s.dinode ip d i = s.dinode i := update_of_ne hne ..
  have hptr : ptr s.blk (update s.dinode ip d i) .table = (s.dinode i).addr NDIRECT := by
    rw [hupd, ptr]
  have hbit := h.owned.ptr_ne_BBLOCK ((h.live_of_ne hne).mpr hi) (hptr.symm ▸ ht) hb
  rw [hptr] at hbit
  exact hbit

theorem free {b : Nat} (hb : hand b) (hhand : ∀ x, hand' x ↔ hand x ∧ x ≠ b) :
    Emptying ip d hand' (s.untaken b) := by
  obtain ⟨-, hsize, -⟩ := h.owned.ledger.inHand b hb
  have hdinode : ∀ i, Numbered s.sb i → (s.untaken b).dinode i = s.dinode i := by
    intro i hi
    have hne := Nat.ne_of_lt (h.owned.layout.IBLOCK_lt_BBLOCK hi.2 b)
    exact dinode_of_blk rfl (s.untaken_blk hne)
  have hlive : ∀ i, Live s.sb (s.untaken b).dinode i ↔ Live s.sb s.dinode i := by
    intro i
    constructor
    · rintro ⟨hnum, htype⟩
      exact ⟨hnum, hdinode i hnum ▸ htype⟩
    · rintro ⟨hnum, htype⟩
      exact ⟨hnum, (hdinode i hnum).symm ▸ htype⟩
  have hview : ∀ i, Numbered s.sb i → update (s.untaken b).dinode ip d i =
      update s.dinode ip d i := by
    intro i hi
    by_cases hii : i = ip
    · rw [hii, update_self, update_self]
    · rw [update_of_ne hii, update_of_ne hii, hdinode i hi]
  have howned := h.owned.release hb hhand
  constructor
  · exact howned.frame rfl (fun _ _ => Iff.rfl) (own_numbered hview)
  · rw [Live, update_self]
    have hold := h.live
    rw [Live, update_self] at hold
    exact hold
  · intro i hne hi bn hbn
    have hold := (hlive i).mp hi
    rw [hdinode i hi.1] at hbn ⊢
    obtain ⟨hmax, hptr⟩ := h.mapped i hne hold bn hbn
    have hkeep : ptr (s.untaken b).blk (s.dinode i) (filePtr bn) =
        ptr s.blk (s.dinode i) (filePtr bn) := by
      apply ptr_congr
      intro ht
      exact s.untaken_blk (h.table_ne_BBLOCK hne hold ht hsize)
    rw [hkeep]
    exact ⟨hmax, hptr⟩
  · intro i hne hvalid
    obtain ⟨hold, hcopy⟩ := h.cached i hne hvalid
    exact ⟨(hlive i).mpr hold, by rw [hdinode i hold.1]; exact hcopy⟩

theorem setCopy (d' : Dinode) : Emptying ip d hand (s.setCopy ip d') := by
  refine ⟨h.owned, h.live, h.mapped, fun i hne hvalid => ?_⟩
  have hcache := Fs.icache_setCopy_of_ne s hne d'
  rw [hcache] at hvalid
  have hcopy : (s.setCopy ip d').copy i = s.copy i := congrArg Incore.copy hcache
  rw [hcopy]
  exact h.cached i hne hvalid

theorem change {d' : Dinode} (htype : d'.type ≠ 0)
    (howned : Owned s.sb s.blk (update (update s.dinode ip d) ip d') hand') :
    Emptying ip d' hand' s := by
  rw [update_idem] at howned
  refine ⟨howned, ?_, h.mapped, h.cached⟩
  rw [Live, update_self]
  exact ⟨h.live.1, htype⟩

theorem type_ne : d.type ≠ 0 := by
  have hlive := h.live
  rw [Live, update_self] at hlive
  exact hlive.2

omit h

theorem direct (h : Emptying ip d (fun _ => False) s) {k : Nat} (hk : k < NDIRECT)
    (hne : d.addr k ≠ 0) : Emptying ip (d.setAddr k 0) (fun x => x = d.addr k) s := by
  have hself : update s.dinode ip d ip = d := update_self ..
  have hgone := h.owned.letGoDirect h.live hk (by rw [hself]; exact hne)
  simp only [hself, false_or] at hgone
  exact h.change h.type_ne hgone

theorem table (h : Emptying ip d (fun _ => False) s) {t : Nat} (ht : d.addr NDIRECT = t)
    (ht0 : t ≠ 0) : Emptying ip (d.setAddr NDIRECT 0)
      (fun x => x = t ∨ x ≠ 0 ∧ ∃ j < NINDIRECT, getLE (s.blk t) (4 * j) 4 = x) s := by
  have hself : update s.dinode ip d ip = d := update_self ..
  have hgone := h.owned.letGoTable h.live (by rw [hself]; exact ht) ht0
  rw [hself] at hgone
  exact h.change h.type_ne hgone

end Emptying

section

variable {E : String → Prop} {ip : Nat}

theorem wp_truncDirect :
    ∀ {n k : Nat} {s : Fs} {Q : Unit → Fs → Prop},
      Emptying ip (s.copy ip) (fun _ => False) s → k + n = NDIRECT →
      (∀ k', k' < k → (s.copy ip).addr k' = 0) →
      (∀ s', Emptying ip (s'.copy ip) (fun _ => False) s' → Trims ip s s' →
        (∀ i, i ≠ ip → s'.icache i = s.icache i) →
        (s'.icache ip).valid = (s.icache ip).valid →
        (∀ k', k' < NDIRECT → (s'.copy ip).addr k' = 0) → Q () s') →
      wp E (truncDirect ip n k) Q s := by
  intro n
  induction n with
  | zero =>
    intro k s Q h hk hzero hQ
    exact hQ s h (.refl s) (fun _ _ => rfl) rfl fun k' hk' => hzero k' (by omega)
  | succ n ih =>
    intro k s Q h hk hzero hQ
    rw [truncDirect, wp_bind, wp_reads, wp_bind, wp_onlyIf]
    constructor
    · intro hne
      have hgone := h.direct (by omega) hne
      obtain ⟨-, hsize, -⟩ := hgone.owned.ledger.inHand _ rfl
      have hmarked : Marked s.sb s.blk ((s.copy ip).addr k) :=
        (hgone.owned.ledger.marks _ hsize).mpr (.inr (.inl rfl))
      rw [wp_bind]
      apply wp_bfree h.owned.super hmarked
      have hnone : ∀ x, False ↔ x = (s.copy ip).addr k ∧ x ≠ (s.copy ip).addr k := by simp
      have hfreed := (hgone.free rfl hnone).setCopy
        (((s.untaken ((s.copy ip).addr k)).copy ip).setAddr k 0)
      apply ih
      · rw [Fs.copy_setCopy]
        exact hfreed
      · omega
      · intro k' hk'
        rw [Fs.copy_setCopy, Dinode.addr_setAddr _ (by omega) (by decide)]
        split
        · rfl
        · exact hzero k' (by omega)
      · intro s' hs' htrims hcache hvalid hall
        apply hQ s' hs'
        · have hfree : Trims ip s _ := .untaken h.owned.layout hsize
          exact (hfree.trans (.setCopy ..)).trans htrims
        · exact fun i hi => (hcache i hi).trans (Fs.icache_setCopy_of_ne _ hi _)
        · exact hvalid.trans (Fs.valid_setCopy _ _ _)
        · exact hall
    · intro hnot
      apply ih h (by omega)
      · intro k' hk'
        by_cases hkk : k' = k
        · subst hkk
          exact not_not.mp hnot
        · exact hzero k' (by omega)
      · exact hQ

/-- What is to be freed when the indirect block `t` has the entries `e`, freed up to the `j`th. -/
def Ahead (t : Nat) (e : Nat → Nat) (j x : Nat) : Prop :=
  x = t ∨ x ≠ 0 ∧ ∃ j', j ≤ j' ∧ j' < NINDIRECT ∧ e j' = x

theorem ahead_iff {t j x : Nat} {e : Nat → Nat} (hj : j < NINDIRECT) :
    Ahead t e j x ↔ (x = e j ∧ x ≠ 0) ∨ Ahead t e (j + 1) x := by
  constructor
  · rintro (heq | ⟨hx0, j', hlo, hhi, rfl⟩)
    · exact .inr (.inl heq)
    rcases Nat.eq_or_lt_of_le hlo with rfl | hlt
    · exact .inl ⟨rfl, hx0⟩
    · exact .inr (.inr ⟨hx0, j', hlt, hhi, rfl⟩)
  · rintro (⟨rfl, hx0⟩ | heq | ⟨hx0, j', hlo, hhi, rfl⟩)
    · exact .inr ⟨hx0, j, le_rfl, hj, rfl⟩
    · exact .inl heq
    · exact .inr ⟨hx0, j', by omega, hhi, rfl⟩

theorem wp_truncIndirect {d : Dinode} {t : Nat} {e : Nat → Nat}
    (hinj : ∀ j j', e j = e j' → e j ≠ 0 → j = j') (hne : ∀ j, e j ≠ t) :
    ∀ {n j : Nat} {s : Fs} {Q : Unit → Fs → Prop},
      Emptying ip d (Ahead t e j) s → j + n = NINDIRECT →
      (∀ j', j' < NINDIRECT → getLE (s.blk t) (4 * j') 4 = e j') →
      (∀ s', Emptying ip d (fun x => x = t) s' → Trims ip s s' → s'.icache = s.icache → Q () s') →
      wp E (truncIndirect t n j) Q s := by
  intro n
  induction n with
  | zero =>
    intro j s Q h hj he hQ
    have hhand : Ahead t e j = fun x => x = t := by
      funext x
      apply propext
      constructor
      · rintro (heq | ⟨-, j', hlo, hhi, -⟩)
        · exact heq
        · omega
      · exact .inl
    exact hQ s (hhand ▸ h) (.refl s) rfl
  | succ n ih =>
    intro j s Q h hj he hQ
    have hlt : j < NINDIRECT := by omega
    rw [truncIndirect, wp_bind, bread, wp_reads, wp_bind, wp_onlyIf, he j hlt]
    constructor
    · intro hne0
      have hinhand : Ahead t e j (e j) := (ahead_iff hlt).mpr (.inl ⟨rfl, hne0⟩)
      obtain ⟨-, hsize, -⟩ := h.owned.ledger.inHand _ hinhand
      have hmarked : Marked s.sb s.blk (e j) :=
        (h.owned.ledger.marks _ hsize).mpr (.inr (.inl hinhand))
      apply wp_bfree h.owned.super hmarked
      have hless : ∀ x, Ahead t e (j + 1) x ↔ Ahead t e j x ∧ x ≠ e j := by
        intro x
        rw [ahead_iff hlt]
        refine ⟨fun hx => ⟨.inr hx, fun heq => ?_⟩,
          fun hx => hx.1.resolve_left fun heq => hx.2 heq.1⟩
        rcases hx with rfl | ⟨hx0, j', hlo, -, rfl⟩
        · exact hne j heq.symm
        · have hjj := hinj j' j heq hx0
          omega
      have hfreed := h.free hinhand hless
      -- the indirect block itself is still there
      obtain ⟨hlo, hhi, -⟩ := h.owned.ledger.inHand t (.inl rfl)
      have hkeep : (s.untaken (e j)).blk t = s.blk t := by
        have hbit := h.owned.layout.data (e j) hsize
        exact s.untaken_blk (by omega)
      apply ih hfreed (by omega)
      · intro j' hj'
        rw [hkeep]
        exact he j' hj'
      · exact fun s' hs' htrims => hQ s' hs' ((Trims.untaken h.owned.layout hsize).trans htrims)
    · intro hzero
      have hhand : Ahead t e j = Ahead t e (j + 1) := by
        funext x
        refine propext ((ahead_iff hlt).trans (or_iff_right fun hx => hx.2 ?_))
        exact hx.1.trans (not_not.mp hzero)
      exact ih (hhand ▸ h) (by omega) he hQ

theorem Emptying.done {s : Fs} (h : Emptying ip (s.copy ip) (fun _ => False) s)
    (hvalid : (s.icache ip).valid = true) (hzero : ∀ k, (s.copy ip).addr k = 0) :
    Sound ((s.setCopy ip ((s.copy ip).setSize 0)).stored ip) := by
  have haddr := (s.copy ip).setSize_addr 0
  have hview : (s.setCopy ip ((s.copy ip).setSize 0)).view ip =
      update s.dinode ip ((s.copy ip).setSize 0) := by
    rw [Fs.view_setCopy, Fs.view, update_idem]
  have hworking : Working ip (s.setCopy ip ((s.copy ip).setSize 0)) := by
    constructor
    · rw [hview]
      have hsame := h.owned.reino
        (by rw [update_self]; exact haddr) (by rw [update_self]; exact Iff.rfl)
      rw [update_idem] at hsame
      exact hsame
    · rw [hview, Live, update_self]
      exact ⟨h.live.1, h.type_ne⟩
    · intro i hi
      rw [hview] at hi ⊢
      by_cases hii : i = ip
      · subst hii
        rw [update_self]
        intro bn hbn
        rw [lt_blocksOf] at hbn
        exact absurd hbn (Nat.not_lt_zero _)
      · rw [Live, update_of_ne hii] at hi
        rw [update_of_ne hii]
        exact h.mapped i hii hi
    · rw [Fs.valid_setCopy]
      exact hvalid
    · exact (h.setCopy _).cached
  exact hworking.stored

/-- **`itrunc`** leaves the inode without blocks. -/
theorem wp_itrunc {s : Fs} {Q : Unit → Fs → Prop} (h : Working ip s)
    (hQ : ∀ s', Sound s' → Trims ip s s' → (∀ i, i ≠ ip → s'.icache i = s.icache i) →
      (s'.icache ip).valid = true → (∀ k, (s'.dinode ip).addr k = 0) →
      (s'.dinode ip).size = 0 → Q () s') :
    wp E (itrunc ip) Q s := by
  have hlast : ∀ {d : Dinode}, (∀ k, k < NDIRECT → d.addr k = 0) → d.addr NDIRECT = 0 →
      ∀ k, d.addr k = 0 := by
    intro d hdirect htable k
    by_cases hk : k < NDIRECT
    · exact hdirect k hk
    by_cases hkk : k = NDIRECT
    · rw [hkk]
      exact htable
    · rw [Dinode.addr, dif_neg (by omega)]
  have hfinish : ∀ s1 : Fs, Emptying ip (s1.copy ip) (fun _ => False) s1 → Trims ip s s1 →
      (∀ i, i ≠ ip → s1.icache i = s.icache i) → (s1.icache ip).valid = true →
      (∀ k, (s1.copy ip).addr k = 0) →
      wp E (do setCopy ip (·.setSize 0); iupdate ip : Bprog Unit) Q s1 := by
    intro s1 h1 htrims hcache hvalid hzero
    rw [wp_bind, setCopy, wp_modify]
    apply wp_iupdate
    apply hQ _ (h1.done hvalid hzero)
    · exact (htrims.trans (.setCopy ..)).trans (.stored h1.owned.layout h1.live.1)
    · exact fun i hi => (Fs.icache_setCopy_of_ne _ hi _).trans (hcache i hi)
    · exact (Fs.valid_setCopy _ _ _).trans hvalid
    · intro k
      rw [Fs.dinode_stored, Fs.copy_setCopy, Dinode.setSize_addr, hzero]
    · rw [Fs.dinode_stored, Fs.copy_setCopy]
      rfl
  rw [itrunc, wp_bind]
  apply wp_truncDirect h.emptying (Nat.zero_add _) fun k hk => absurd hk (Nat.not_lt_zero k)
  intro s1 h1 htrims1 hcache hvalid hdirect
  rw [h.valid] at hvalid
  rw [wp_bind, wp_reads, wp_bind, wp_onlyIf]
  constructor
  · intro ht0
    -- the entries of the indirect block, all different from each other and from the block
    obtain ⟨t, ht⟩ : ∃ t, (s1.copy ip).addr NDIRECT = t := ⟨_, rfl⟩
    rw [ht] at ht0 ⊢
    have hself : update s1.dinode ip (s1.copy ip) ip = s1.copy ip :=
      update_self ..
    have hent : ∀ j, ptr s1.blk (update s1.dinode ip (s1.copy ip) ip) (.entry j) =
        if j < NINDIRECT then getLE (s1.blk t) (4 * j) 4 else 0 := by
      intro j
      rw [hself, ptr, ht]
      simp [ht0]
    have htab : ptr s1.blk (update s1.dinode ip (s1.copy ip) ip) .table = t := by
      rw [hself]
      exact ht
    have hgone := h1.table ht ht0
    have hhand : (fun x => x = t ∨ x ≠ 0 ∧ ∃ j < NINDIRECT, getLE (s1.blk t) (4 * j) 4 = x) =
        fun x => x = t ∨ x ≠ 0 ∧ ∃ j', 0 ≤ j' ∧ j' < NINDIRECT ∧
          (if j' < NINDIRECT then getLE (s1.blk t) (4 * j') 4 else 0) = x := by
      funext x
      simp only [Nat.zero_le, true_and]
      apply propext
      apply or_congr_right
      apply and_congr_right
      intro _
      constructor
      · rintro ⟨j, hj, heq⟩
        exact ⟨j, hj, by rw [if_pos hj]; exact heq⟩
      · rintro ⟨j, hj, heq⟩
        exact ⟨j, hj, by rw [if_pos hj] at heq; exact heq⟩
    rw [hhand] at hgone
    rw [wp_bind]
    apply wp_truncIndirect
      ?_ ?_ hgone (Nat.zero_add _) (fun j hj => (if_pos hj).symm)
    · intro s2 h2 htrims2 hcache2
      obtain ⟨-, hsize, -⟩ := h2.owned.ledger.inHand t rfl
      have hmarked : Marked s2.sb s2.blk t := (h2.owned.ledger.marks t hsize).mpr (.inr (.inl rfl))
      have hcopy2 : s2.copy ip = s1.copy ip := by rw [Fs.copy, hcache2, Fs.copy]
      rw [wp_bind]
      apply wp_bfree h2.owned.super hmarked
      rw [setCopy, wp_modify]
      have hnone : ∀ x, False ↔ x = t ∧ x ≠ t := by simp
      have hfreed := (h2.free rfl hnone).setCopy
        (((s2.untaken t).copy ip).setAddr NDIRECT 0)
      have hcopy3 : (s2.untaken t).copy ip = s1.copy ip := hcopy2
      rw [hcopy3] at hfreed ⊢
      apply hfinish
      · rw [Fs.copy_setCopy]
        exact hfreed
      · have hfree : Trims ip s2 _ := .untaken h2.owned.layout hsize
        exact ((htrims1.trans htrims2).trans hfree).trans (.setCopy ..)
      · intro i hi
        rw [Fs.icache_setCopy_of_ne _ hi]
        exact (congrFun hcache2 i).trans (hcache i hi)
      · rw [Fs.valid_setCopy]
        exact (congrArg Incore.valid (congrFun hcache2 ip)).trans hvalid
      rw [Fs.copy_setCopy]
      apply hlast
      · intro k hk
        rw [Dinode.addr_setAddr _ le_rfl (by decide), if_neg (Nat.ne_of_lt hk), hdirect k hk]
      · rw [Dinode.addr_setAddr _ le_rfl (by decide), if_pos rfl]
    · intro j j' heq hne
      have honce := h1.owned.ptr_once (r := .entry j') h1.live h1.live
        (by rw [hent]; exact hne) (by rw [hent, hent]; exact heq)
      exact Ptr.entry.inj honce.2
    · intro j heq
      have honce := h1.owned.ptr_once (r := .table) h1.live h1.live
        (by rw [hent, heq]; exact ht0) (by rw [hent, htab]; exact heq)
      cases honce.2
  · intro hnot
    exact hfinish s1 h1 htrims1 hcache hvalid (hlast hdirect (not_not.mp hnot))

end

/-! ### Inodes come and go -/

/-- **An inode without blocks** is stored in the place of a free one, or of one without blocks. -/
theorem Sound.reborn {s s' : Fs} {ip : Nat} {d : Dinode} (h : Sound s) (hip : Numbered s.sb ip)
    (hnew : ∀ k, d.addr k = 0) (hsize : d.size = 0)
    (hold : Live s.sb s.dinode ip → ∀ k, (s.dinode ip).addr k = 0) (hsb : s'.sb = s.sb)
    (hblk : s'.blk = update s.blk (IBLOCK ip s.sb)
      (putDinode (s.blk (IBLOCK ip s.sb)) (ip % IPB) d))
    (hcache : ∀ i, i ≠ ip → s'.icache i = s.icache i) (hvalid : (s'.icache ip).valid = false) :
    Sound s' := by
  have hdinode := dinode_put hsb hblk
  have howned := (h.owned.rebirth hnew hold).store hip.2
    (putDinode (s.blk (IBLOCK ip s.sb)) (ip % IPB) d)
  rw [← hblk, ← hdinode, ← hsb] at howned
  refine ⟨howned, fun i hi bn hbn => ?_, fun i hi => ?_⟩
  · by_cases hii : i = ip
    · subst hii
      rw [hdinode, update_self, hsize] at hbn
      exact absurd hbn (Nat.not_lt_zero _)
    have hsame : s'.dinode i = s.dinode i := by rw [hdinode, update_of_ne hii]
    rw [Live, hsb, hsame] at hi
    rw [hsame] at hbn ⊢
    obtain ⟨hmax, hptr⟩ := h.mapped i hi bn hbn
    have hkeep : ptr s'.blk (s.dinode i) (filePtr bn) = ptr s.blk (s.dinode i) (filePtr bn) := by
      apply ptr_congr
      intro ht
      have hrange := h.owned.ptr_range (q := .table) hi ht
      have hlt := h.owned.layout.IBLOCK_lt_dataStart hip.2 hrange.2
      rw [hblk]
      apply update_of_ne
      exact Nat.ne_of_gt (Nat.lt_of_lt_of_le hlt hrange.1)
    rw [hkeep]
    exact ⟨hmax, hptr⟩
  · by_cases hii : i = ip
    · subst hii
      rw [hvalid] at hi
      cases hi
    have hsame : s'.dinode i = s.dinode i := by rw [hdinode, update_of_ne hii]
    rw [hcache i hii] at hi
    rw [Live, hsb, hsame, Fs.copy, hcache i hii]
    exact h.cached i hi

/-- **`iput`'s last act** on an inode that nobody refers to. -/
theorem wp_freeInode {E : String → Prop} {s : Fs} {ip : Nat} {Q : Unit → Fs → Prop}
    (h : Working ip s)
    (hQ : ∀ s', Sound s' → Trims ip s s' → (∀ i, i ≠ ip → s'.icache i = s.icache i) →
      (s'.dinode ip).type = 0 → Q () s') : wp E (freeInode ip) Q s := by
  rw [freeInode, wp_bind]
  apply wp_itrunc h
  intro s1 h1 htrims hcache hvalid hzero hsize
  obtain ⟨hlive, hcopy⟩ := h1.cached ip hvalid
  rw [wp_bind, setCopy, wp_modify, wp_bind]
  apply wp_iupdate
  apply hQ
  · apply h1.reborn (d := (s1.copy ip).setType 0) hlive.1
    · intro k
      rw [hcopy]
      exact hzero k
    · rw [hcopy]
      exact hsize
    · exact fun _ => hzero
    · rfl
    · simp only [Fs.setIncore, Fs.stored, Fs.setBlk, Fs.setCopy, Fs.copy, update_self]
    · intro i hi
      simp only [Fs.setIncore, Fs.stored, Fs.setBlk, Fs.setCopy, update_of_ne hi]
    · simp only [Fs.setIncore, update_self]
  · apply ((htrims.trans (.setCopy ..)).trans (.stored h1.owned.layout hlive.1)).trans
    apply Trims.recache
    · rfl
    · rfl
    · rfl
    intro i
    by_cases hi : i = ip
    · subst hi
      simp only [Fs.setIncore, update_self]
    · simp only [Fs.setIncore, update_of_ne hi]
  · intro i hi
    simp only [Fs.setIncore, Fs.stored, Fs.setBlk, Fs.setCopy, update_of_ne hi]
    exact hcache i hi
  · change (((s1.setCopy ip ((s1.copy ip).setType 0)).stored ip).dinode ip).type = 0
    rw [Fs.dinode_stored, Fs.copy_setCopy]
    rfl

end Xv6.Blocks
