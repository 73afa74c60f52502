import Xv6.BlocksSys

/-!
**References to inodes while calls run on the blocks of the disk.**

`InHand full sb pins refs s`: the blocks are in order, entries of directories name inodes of the
disk, and the counts in the cache cover all references there are: `pins` are those to inodes
that have been locked once, so that their copy is valid, and `refs` the others. A pin may
carry the promise that its inode is no directory.
-/

namespace Xv6.Blocks

open Program Function List

/-! ### Entries -/

def Named (s : Fs) : Prop :=
  ∀ dp, Live s.sb s.dinode dp → (s.dinode dp).type = T_DIR → ∀ off, off % 16 = 0 →
    off + 16 ≤ (s.dinode dp).size.toNat → direntInum (direntAt s dp off) = 0 ∨
      Numbered s.sb (direntInum (direntAt s dp off))

/-- A directory of `s'` is empty, or it was a directory in `s`, with these entries. -/
def SameDir (s s' : Fs) (dp : Nat) : Prop :=
  (s'.dinode dp).size = 0 ∨ (Live s.sb s.dinode dp ∧ (s.dinode dp).type = T_DIR ∧
    (s'.dinode dp).size = (s.dinode dp).size ∧ ∀ off, off + 16 ≤ (s.dinode dp).size.toNat →
      direntAt s' dp off = direntAt s dp off)

section

variable {s s' : Fs} {dp : Nat}

theorem direntInum_direntAt (s : Fs) (dp off : Nat) : direntInum (direntAt s dp off) =
    (fileByte s.blk (s.dinode dp) off).toNat + 256 * (fileByte s.blk (s.dinode dp) (off + 1)).toNat :=
  rfl

theorem Named.of_same (h : Named s) (hsb : s'.sb = s.sb)
    (hdirs : ∀ dp, Live s'.sb s'.dinode dp → (s'.dinode dp).type = T_DIR → SameDir s s' dp) :
    Named s' := by
  intro dp hlive hdir off halign hin
  rcases hdirs dp hlive hdir with hempty | ⟨hold, htype, hsize, hents⟩
  · rw [hempty] at hin
    exact absurd hin (by simp)
  · rw [hsize] at hin
    rw [hents off hin, hsb]
    exact h dp hold htype off halign hin

theorem Sound.byte_of_high (h : Sound s) (hlive : Live s.sb s.dinode dp)
    (hhigh : ∀ b, dataStart s.sb ≤ b → s'.blk b = s.blk b)
    (haddr : ∀ k, (s'.dinode dp).addr k = (s.dinode dp).addr k) {x : Nat}
    (hx : x < (s.dinode dp).size.toNat) :
    fileByte s'.blk (s'.dinode dp) x = fileByte s.blk (s.dinode dp) x := by
  have hptr := (mapped_byte (h.mapped dp hlive) hx).2
  have hsame : ∀ q, ptr s'.blk (s'.dinode dp) q = ptr s.blk (s.dinode dp) q := by
    intro q
    rw [ptr_addr haddr]
    apply ptr_congr
    intro ht
    exact hhigh _ (h.owned.ptr_range (q := .table) hlive ht).1
  rw [fileByte, hsame, hhigh _ (h.owned.ptr_range hlive hptr).1, fileByte]

theorem Sound.sameDir (h : Sound s) (hlive : Live s.sb s.dinode dp)
    (hdir : (s.dinode dp).type = T_DIR) (hhigh : ∀ b, dataStart s.sb ≤ b → s'.blk b = s.blk b)
    (hsize : (s'.dinode dp).size = (s.dinode dp).size)
    (haddr : ∀ k, (s'.dinode dp).addr k = (s.dinode dp).addr k) : SameDir s s' dp := by
  refine .inr ⟨hlive, hdir, hsize, fun off hin => ?_⟩
  apply map_congr_left
  intro i hi
  have hlt := mem_range.mp hi
  exact h.byte_of_high hlive hhigh haddr (by omega)

end

/-! ### In hand -/

def others (pins : List OpenFile) (refs : List Nat) (i : Nat) : Int :=
  (pins.map OpenFile.ip).count i + refs.count i

/-- The counts cover the references; those of inodes nobody refers to matter if `full`. -/
def Covered (full : Prop) (pins : List OpenFile) (refs : List Nat) (s : Fs) : Prop :=
  ∀ i, full ∨ 1 ≤ others pins refs i → others pins refs i ≤ (s.icache i).ref

structure InHand (full : Prop) (sb : Superblock) (pins : List OpenFile) (refs : List Nat) (s : Fs) :
    Prop where
  sound : Sound s
  named : full → Named s
  root : full → Numbered sb ROOTINO
  sb : s.sb = sb
  counts : Covered full pins refs s
  valid : ∀ f ∈ pins, (s.icache f.ip).valid = true ∧
    (f.writable = true → (s.dinode f.ip).type ≠ T_DIR)

structure Still (s s' : Fs) : Prop where
  sb : s'.sb = s.sb
  blk : s'.blk = s.blk
  logged : s'.logged = s.logged

/-- An `iput` would not free this inode: it is free already, it has links, or somebody else
refers to it. -/
def Stable (held : Nat → Int) (s : Fs) (i : Nat) : Prop :=
  (s.dinode i).type = 0 ∨ (s.dinode i).nlink ≠ 0 ∨ 1 ≤ held i

section

variable {full : Prop} {sb : Superblock} {pins pins' : List OpenFile} {refs refs' : List Nat}
  {s s' s'' : Fs} {i : Nat}

theorem Still.refl (s : Fs) : Still s s := ⟨rfl, rfl, rfl⟩

theorem Still.trans (h : Still s s') (h' : Still s' s'') : Still s s'' :=
  ⟨h'.sb.trans h.sb, h'.blk.trans h.blk, h'.logged.trans h.logged⟩

theorem Still.dinode (h : Still s s') : s'.dinode = s.dinode := dinode_congr h.sb h.blk

theorem Still.uses (h : Still s s') (sb : Superblock) (I : Finset Nat) (k : Nat) :
    Uses sb I k s s' := (Uses.same h.logged).mono (Finset.empty_subset I) (Nat.zero_le k)

theorem Still.named (h : Still s s') (hs : Named s) : Named s' := by
  intro dp hlive hdir off halign hin
  rw [h.sb, h.dinode] at hlive
  rw [h.dinode] at hdir hin
  have hent : direntAt s' dp off = direntAt s dp off := by rw [direntAt, h.dinode, h.blk, direntAt]
  rw [hent, h.sb]
  exact hs dp hlive hdir off halign hin

theorem others_cons (i j : Nat) :
    others pins (i :: refs) j = others pins refs j + if i = j then 1 else 0 := by
  simp only [others, count_cons, beq_iff_eq]
  split
  · omega
  · omega

theorem others_pin (f : OpenFile) (j : Nat) :
    others (f :: pins) refs j = others pins (f.ip :: refs) j := by
  simp only [others, map_cons, count_cons]
  split
  · omega
  · omega

theorem others_nonneg (i : Nat) : 0 ≤ others pins refs i := by
  unfold others
  omega

theorem one_le_others (i : Nat) : 1 ≤ others pins (i :: refs) i := by
  have hi : 0 ≤ others pins refs i := others_nonneg i
  rw [others_cons]
  omega

theorem others_perm (hrefs : refs.Perm refs') : others pins refs' = others pins refs := by
  funext i
  rw [others, others, hrefs.count_eq]

variable (h : InHand full sb pins refs s)
include h

theorem InHand.move (hstill : Still s s') (hsound : Sound s')
    (hcounts : Covered full pins' refs' s') (hvalid : ∀ f ∈ pins', (s'.icache f.ip).valid = true ∧
      (f.writable = true → (s.dinode f.ip).type ≠ T_DIR)) : InHand full sb pins' refs' s' := by
  refine ⟨hsound, fun hf => hstill.named (h.named hf), h.root, hstill.sb.trans h.sb, hcounts, ?_⟩
  rw [hstill.dinode]
  exact hvalid

theorem InHand.perm (hrefs : refs.Perm refs') : InHand full sb pins refs' s := by
  apply h.move (.refl s) h.sound
  · rw [Covered, others_perm hrefs]
    exact h.counts
  · exact h.valid

theorem InHand.permPins (hpins : pins.Perm pins') : InHand full sb pins' refs s := by
  apply h.move (.refl s) h.sound
  · intro i
    rw [others, ← (hpins.map OpenFile.ip).count_eq]
    exact h.counts i
  · exact fun f hf => h.valid f (hpins.mem_iff.mpr hf)

omit h

theorem InHand.swapPins {f g : OpenFile} (h : InHand full sb (f :: g :: pins) refs s) :
    InHand full sb (g :: f :: pins) refs s := h.permPins (.swap ..)

theorem InHand.unpin {f : OpenFile} (h : InHand full sb (f :: pins) refs s) :
    InHand full sb pins (f.ip :: refs) s := by
  apply h.move (.refl s) h.sound
  · intro i
    rw [← others_pin]
    exact h.counts i
  · exact fun e he => h.valid e (mem_cons_of_mem f he)

theorem InHand.pin {w : Bool} (h : InHand full sb pins (i :: refs) s)
    (hvalid : (s.icache i).valid = true) (hfile : w = true → (s.dinode i).type ≠ T_DIR) :
    InHand full sb (⟨i, w⟩ :: pins) refs s := by
  apply h.move (.refl s) h.sound
  · intro j
    rw [others_pin]
    exact h.counts j
  intro e he
  rcases mem_cons.mp he with rfl | he
  · exact ⟨hvalid, hfile⟩
  · exact h.valid e he

theorem InHand.headValid {f : OpenFile} (h : InHand full sb (f :: pins) refs s) :
    (s.icache f.ip).valid = true := (h.valid f (.head _)).1

end

/-! ### The inode cache -/

section

variable {full : Prop} {sb : Superblock} {pins : List OpenFile} {refs : List Nat} {s : Fs} {i : Nat}
  {Q : Unit → Fs → Prop}

variable (h : InHand full sb pins refs s)
include h

theorem InHand.setIncore {c : Incore} {refs' : List Nat}
    (hcopy : c.valid = true → Live s.sb s.dinode i ∧ c.copy = s.dinode i)
    (hkeep : (s.icache i).valid = true → 1 ≤ others pins refs i → c.valid = true)
    (hcounts : Covered full pins refs' (s.setIncore i c)) (m : Nat) :
    InHand full sb pins refs' { s.setIncore i c with inuse := m } := by
  have hstill : Still s { s.setIncore i c with inuse := m } := ⟨rfl, rfl, rfl⟩
  apply h.move hstill
  · apply h.sound.recache
    · rfl
    · rfl
    intro j hj
    by_cases hji : j = i
    · subst hji
      simp only [Fs.copy, Fs.setIncore, update_self] at hj ⊢
      exact hcopy hj
    · simp only [Fs.copy, Fs.setIncore, update_of_ne hji] at hj ⊢
      exact h.sound.cached j hj
  · exact hcounts
  · intro f hf
    obtain ⟨hvalid, hfile⟩ := h.valid f hf
    refine ⟨?_, hfile⟩
    by_cases hfi : f.ip = i
    · have hheld : 1 ≤ others pins refs i := by
        have hmem : 0 < (pins.map OpenFile.ip).count i :=
          count_pos_iff.mpr (hfi ▸ mem_map_of_mem hf)
        unfold others
        omega
      rw [hfi] at hvalid ⊢
      simp only [Fs.setIncore, update_self]
      exact hkeep hvalid hheld
    · simp only [Fs.setIncore, update_of_ne hfi]
      exact hvalid

theorem InHand.addRef {c : Incore} (href : (s.icache i).ref + 1 ≤ c.ref) (hpos : 1 ≤ c.ref) :
    Covered full pins (i :: refs) (s.setIncore i c) := by
  intro j hj
  have hcounts := h.counts j
  rw [others_cons] at hj ⊢
  by_cases hji : j = i
  · subst hji
    simp only [Fs.setIncore, update_self, if_true]
    by_cases hheld : 1 ≤ others pins refs j
    · omega
    · omega
  · rw [if_neg (Ne.symm hji)] at hj ⊢
    simp only [Fs.setIncore, update_of_ne hji]
    exact hcounts hj

theorem hold_iget (hQ : ∀ s', InHand full sb pins (i :: refs) s' → Still s s' → Q () s') :
    wp harmless (iget i) Q s := by
  refine wp_atomic.mpr ⟨fun _ s' heq => ?_, fun msg heq => ?_⟩
  · split at heq
    next hpos =>
      cases heq
      apply hQ
      · apply h.setIncore
        · exact h.sound.cached i
        · exact fun hvalid _ => hvalid
        · exact h.addRef le_rfl (by simp only; omega)
      · exact ⟨rfl, rfl, rfl⟩
    next hpos =>
      split at heq
      · cases heq
        apply hQ
        · apply h.setIncore
          · exact fun hvalid => nomatch hvalid
          · intro _ hheld
            have hi := h.counts i (.inr hheld)
            omega
          · exact h.addRef (by simp only; omega) le_rfl
        · exact ⟨rfl, rfl, rfl⟩
      · cases heq
  · split at heq
    · cases heq
    split at heq
    · cases heq
    · cases heq
      decide

theorem hold_idup (hfull : full)
    (hQ : ∀ s', InHand full sb pins (i :: refs) s' → Still s s' → Q () s') :
    wp harmless (idup i) Q s := by
  have hnonneg : 0 ≤ others pins refs i := others_nonneg i
  have hi := h.counts i (.inl hfull)
  apply hQ
  · apply h.setIncore
    · exact h.sound.cached i
    · exact fun hvalid _ => hvalid
    · exact h.addRef le_rfl (by simp only; omega)
  · exact ⟨rfl, rfl, rfl⟩

omit h

/-- **`ilock`** of an inode of the disk makes its copy valid. -/
theorem hold_ilock (h : InHand full sb pins (i :: refs) s) (hi : Numbered sb i)
    (hQ : ∀ s', InHand full sb (⟨i, false⟩ :: pins) refs s' → Still s s' →
      (s.dinode i).type ≠ 0 → Q () s') : wp harmless (ilock i) Q s := by
  rw [ilock, wp_bind, wp_reads]
  by_cases href : (s.icache i).ref < 1
  · rw [if_pos href]
    exact (by decide : harmless "ilock")
  rw [if_neg href, wp_bind, wp_acquire]
  refine wp_atomic.mpr ⟨fun _ s' heq => ?_, fun msg heq => ?_⟩
  · split at heq
    next hvalid =>
      cases heq
      exact hQ s (h.pin hvalid fun hw => nomatch hw) (.refl s) (h.sound.cached i hvalid).1.2
    split at heq
    · cases heq
    rename_i htype
    cases heq
    have hloaded : InHand full sb pins (i :: refs) { s.setIncore i
        { s.icache i with valid := true, copy := s.dinode i } with inuse := s.inuse } := by
      apply h.setIncore
      · exact fun _ => ⟨⟨h.sb ▸ hi, htype⟩, rfl⟩
      · exact fun _ _ => rfl
      intro j
      have hj := h.counts j
      by_cases hji : j = i
      · subst hji
        simp only [Fs.setIncore, update_self]
        exact hj
      · simp only [Fs.setIncore, update_of_ne hji]
        exact hj
    apply hQ
    · apply hloaded.pin
      · simp only [Fs.setIncore, update_self]
      · exact fun hw => nomatch hw
    · exact ⟨rfl, rfl, rfl⟩
    · exact htype
  · split at heq
    · cases heq
    split at heq
    · cases heq
      decide
    · cases heq

theorem hold_relock (hvalid : (s.icache i).valid = true) (hQ : Q () s) :
    wp harmless (ilock i) Q s := by
  rw [ilock, wp_bind, wp_reads]
  by_cases href : (s.icache i).ref < 1
  · rw [if_pos href]
    exact (by decide : harmless "ilock")
  rw [if_neg href, wp_bind, wp_acquire]
  refine wp_atomic.mpr ⟨fun _ s' heq => ?_, fun msg heq => ?_⟩
  · rw [if_pos hvalid] at heq
    cases heq
    exact hQ
  · rw [if_pos hvalid] at heq
    cases heq

theorem hold_iunlock (hQ : Q () s) : wp harmless (iunlock i) Q s := by
  rw [iunlock, wp_bind, wp_reads]
  by_cases href : (s.icache i).ref < 1
  · rw [if_pos href]
    exact (by decide : harmless "iunlock")
  · rw [if_neg href]
    exact hQ

theorem InHand.dropRef (h : InHand full sb pins (i :: refs) s) :
    InHand full sb pins refs (s.dropRef i) := by
  apply h.setIncore
  · exact h.sound.cached i
  · exact fun hvalid _ => hvalid
  intro j hj
  have hcounts := h.counts j
  by_cases hji : j = i
  · subst hji
    have hle := hcounts (.inr (one_le_others j))
    rw [others_cons] at hle
    simp only [Fs.setIncore, update_self]
    omega
  · rw [others_cons, if_neg (Ne.symm hji)] at hcounts
    simp only [Fs.setIncore, update_of_ne hji]
    exact hcounts hj

theorem hold_freeInode (h : InHand full sb pins (i :: refs) s) (hvalid : (s.icache i).valid = true)
    (hlast : (s.icache i).ref = 1)
    (hQ : ∀ s', InHand full sb pins (i :: refs) s' → Uses sb {i} 0 s s' → Q () s') :
    wp harmless (freeInode i) Q s := by
  have hworking := h.sound.working hvalid
  apply wp_freeInode hworking
  intro s' hsound htrims hcache hgone
  have hother : ∀ dp, dp ≠ i → Live s'.sb s'.dinode dp → s'.dinode dp = s.dinode dp := by
    intro dp hne hlive
    exact htrims.disk dp hne (htrims.sb ▸ hlive.1)
  have hnot : ∀ f ∈ pins, f.ip ≠ i := by
    intro f hf heq
    have hmem : 0 < (pins.map OpenFile.ip).count i :=
      count_pos_iff.mpr (heq ▸ mem_map_of_mem hf)
    have hi := h.counts i (.inr (one_le_others i))
    rw [others_cons, others] at hi
    omega
  apply hQ
  · refine ⟨hsound, ?_, h.root, htrims.sb.trans h.sb, fun j => ?_, fun f hf => ?_⟩
    · intro hfull
      apply (h.named hfull).of_same htrims.sb
      intro dp hlive hdir
      by_cases hdp : dp = i
      · subst hdp
        exact absurd hgone hlive.2
      have hsame := hother dp hdp hlive
      have hold : Live s.sb s.dinode dp := ⟨htrims.sb ▸ hlive.1, hsame ▸ hlive.2⟩
      apply h.sound.sameDir hold (hsame ▸ hdir) htrims.high
      · rw [hsame]
      · rw [hsame]
        exact fun _ => rfl
    · rw [htrims.ref]
      exact h.counts j
    · have hne := hnot f hf
      obtain ⟨hfvalid, hfile⟩ := h.valid f hf
      have hlive := (h.sound.cached f.ip hfvalid).1
      rw [hcache f.ip hne, htrims.disk f.ip hne hlive.1]
      exact ⟨hfvalid, hfile⟩
  · have hlogs := htrims.logs
    rw [h.sb] at hlogs
    exact hlogs.uses

/-- **`iput`** gives a reference back; a stable inode stays. -/
theorem hold_iput (h : InHand full sb pins (i :: refs) s)
    (hQ : ∀ s', InHand full sb pins refs s' → Uses sb {i} 0 s s' →
      (Stable (others pins refs) s i → Still s s') → Q () s') : wp harmless (iput i) Q s := by
  rw [iput, wp_bind, wp_acquire, wp_bind, wp_reads, wp_bind, wp_onlyIf]
  constructor
  · rintro ⟨hvalid, hnlink, hlast⟩
    rw [wp_lift]
    apply hold_freeInode h hvalid hlast
    intro s' h' huses
    apply hQ _ h'.dropRef huses
    intro hstable
    obtain ⟨hlive, hcopy⟩ := h.sound.cached i hvalid
    rcases hstable with hfree | hlinked | hheld
    · exact absurd hfree hlive.2
    · exact absurd (hcopy ▸ hnlink) hlinked
    · have hi := h.counts i (.inr (one_le_others i))
      rw [others_cons] at hi
      omega
  · intro _
    have hstill : Still s (s.dropRef i) := ⟨rfl, rfl, rfl⟩
    exact hQ _ h.dropRef (hstill.uses ..) fun _ => hstill

/-- **`iunlockput`** of a locked inode. -/
theorem hold_iunlockput {w : Bool} (h : InHand full sb (⟨i, w⟩ :: pins) refs s)
    (hQ : ∀ s', InHand full sb pins refs s' → Uses sb {i} 0 s s' →
      (Stable (others pins refs) s i → Still s s') → Q () s') : wp harmless (iunlockput i) Q s := by
  rw [iunlockput, wp_bind]
  apply hold_iunlock
  exact hold_iput h.unpin hQ

/-- Blocks outside the data change, and of the inodes only `i`, which nobody has locked. -/
theorem InHand.reborn (h : InHand full sb pins refs s) {type : UInt16} {log : List Nat}
    (hi : Numbered sb i) (hfree : (s.dinode i).type = 0) :
    InHand full sb pins refs { s.setBlk (IBLOCK i s.sb)
      (putDinode (s.blk (IBLOCK i s.sb)) (i % IPB) (.blank type)) with logged := log } := by
  have hlay := h.sound.owned.layout
  have hblank : ∀ k, (Dinode.blank type).addr k = 0 := by
    intro k
    simp [Dinode.blank, Dinode.addr]
  have hinvalid : ∀ j, (s.icache j).valid = true → j ≠ i := by
    rintro j hvalid rfl
    exact (h.sound.cached j hvalid).1.2 hfree
  generalize hs' : ({ s.setBlk (IBLOCK i s.sb)
    (putDinode (s.blk (IBLOCK i s.sb)) (i % IPB) (.blank type)) with logged := log } : Fs) = s'
  have hsb : s'.sb = s.sb := by rw [← hs']; rfl
  have hblk : s'.blk = update s.blk (IBLOCK i s.sb)
      (putDinode (s.blk (IBLOCK i s.sb)) (i % IPB) (.blank type)) := by rw [← hs']; rfl
  have hcache : s'.icache = s.icache := by rw [← hs']; rfl
  have hdinode := dinode_put hsb hblk
  have hnum : Numbered s.sb i := h.sb ▸ hi
  refine ⟨?_, ?_, h.root, hsb.trans h.sb, fun j => ?_, fun f hf => ?_⟩
  · apply h.sound.reborn hnum hblank rfl
    · exact fun hlive => absurd hfree hlive.2
    · exact hsb
    · exact hblk
    · exact fun j _ => congrFun hcache j
    · rw [hcache]
      by_contra hvalid
      exact hinvalid i (Bool.of_not_eq_false hvalid) rfl
  · intro hfull
    apply (h.named hfull).of_same hsb
    intro dp hlive hdir
    by_cases hdp : dp = i
    · subst hdp
      rw [SameDir, hdinode, update_self]
      exact .inl rfl
    have hsame : s'.dinode dp = s.dinode dp := by rw [hdinode, update_of_ne hdp]
    have hold : Live s.sb s.dinode dp := ⟨hsb ▸ hlive.1, hsame ▸ hlive.2⟩
    apply h.sound.sameDir hold (hsame ▸ hdir)
    · intro b hb
      have hlt := hlay.IBLOCK_lt_dataStart hnum.2 hlay.pos
      rw [hblk]
      exact update_of_ne (by omega) ..
    · rw [hsame]
    · rw [hsame]
      exact fun _ => rfl
  · rw [hcache]
    exact h.counts j
  · obtain ⟨hvalid, hfile⟩ := h.valid f hf
    rw [hcache, hdinode, update_of_ne (hinvalid f.ip hvalid)]
    exact ⟨hvalid, hfile⟩

theorem hold_ialloc {Q : Nat → Fs → Prop} {type : UInt16} (h : InHand full sb pins refs s)
    (hQ : ∀ i s', Numbered sb i → (s'.dinode i).type = type → InHand full sb pins (i :: refs) s' →
      Uses sb {i} 0 s s' → Q i s') : wp harmless (ialloc type) Q s := by
  have hloop : ∀ n i, 0 < i → i + n ≤ s.sb.ninodes → wp harmless (iallocLoop type n i) Q s := by
    intro n
    induction n with
    | zero =>
      intro i _ _
      exact (by decide : harmless "ialloc: no inodes")
    | succ n ih =>
      intro i hpos hle
      rw [iallocLoop, wp_bind, wp_reads]
      by_cases hfree : (s.dinode i).type = 0
      · have hi : Numbered sb i := h.sb ▸ ⟨hpos, by omega⟩
        simp only [id_eq]
        rw [if_pos hfree, wp_bind, edit, wp_modify, wp_bind, logWrite, wp_modify, wp_bind]
        apply hold_iget (h.reborn hi hfree)
        intro s' h' hstill
        apply hQ i s' hi
        · have hnew : s'.dinode = update s.dinode i (.blank type) :=
            dinode_put hstill.sb hstill.blk
          rw [hnew, update_self]
          rfl
        · exact h'
        · apply Logs.uses
          refine ⟨[IBLOCK i s.sb], hstill.logged, fun x hx => ?_⟩
          rw [mem_singleton.mp hx, h.sb]
          exact Finset.mem_union_right _ (Finset.mem_singleton_self _)
      · simp only [id_eq]
        rw [if_neg hfree]
        exact ih (i + 1) (by omega) (by omega)
  rw [ialloc, wp_bind, wp_reads]
  by_cases hnone : s.sb.ninodes = 0
  · rw [hnone]
    exact (by decide : harmless "ialloc: no inodes")
  · exact hloop (s.sb.ninodes - 1) 1 Nat.one_pos (by omega)

end

/-! ### Links -/

/-- The dinode of `i` has been replaced by `d`, with the same blocks and the same type. -/
structure Restored (i : Nat) (d : Dinode) (s s' : Fs) : Prop where
  sb : s'.sb = s.sb
  high : ∀ b, dataStart s.sb ≤ b → s'.blk b = s.blk b
  dinode : s'.dinode = update s.dinode i d
  type : d.type = (s.dinode i).type
  size : d.size = (s.dinode i).size
  addr : ∀ k, d.addr k = (s.dinode i).addr k

section

variable {full : Prop} {sb : Superblock} {pins : List OpenFile} {refs : List Nat} {s s' : Fs}
  {i : Nat} {d : Dinode} {Q : Unit → Fs → Prop}

theorem Restored.type_eq (h : Restored i d s s') (j : Nat) :
    (s'.dinode j).type = (s.dinode j).type := by
  rw [h.dinode]
  by_cases hj : j = i
  · subst hj
    rw [update_self, h.type]
  · rw [update_of_ne hj]

theorem Restored.live (h : Restored i d s s') {j : Nat} (hlive : Live s'.sb s'.dinode j) :
    Live s.sb s.dinode j := by
  rw [Live, h.sb, h.type_eq] at hlive
  exact hlive

theorem Restored.sameDir (h : Restored i d s s') (hsound : Sound s) {dp : Nat}
    (hlive : Live s.sb s.dinode dp) (hdir : (s.dinode dp).type = T_DIR) : SameDir s s' dp := by
  apply hsound.sameDir hlive hdir h.high
  · rw [h.dinode]
    by_cases hdp : dp = i
    · subst hdp
      rw [update_self, h.size]
    · rw [update_of_ne hdp]
  · intro k
    rw [h.dinode]
    by_cases hdp : dp = i
    · subst hdp
      rw [update_self, h.addr]
    · rw [update_of_ne hdp]

variable (h : InHand full sb pins refs s)
include h

variable (hvalid : (s.icache i).valid = true)
include hvalid

/-- **Fields other than the size and the addresses** of a locked inode are changed and stored. -/
theorem hold_restore {f : Dinode → Dinode} (htype : ∀ d, (f d).type = d.type)
    (hsize : ∀ d, (f d).size = d.size) (haddr : ∀ d, (f d).addrs = d.addrs)
    (hQ : ∀ s', InHand full sb pins refs s' → Uses sb {i} 0 s s' →
      Restored i (f (s.dinode i)) s s' → Q () s') : wp harmless (restore i f) Q s := by
  obtain ⟨hlive, hcopy⟩ := h.sound.cached i hvalid
  have hworking := h.sound.working hvalid
  have hlay := h.sound.owned.layout
  have hsame : ∀ k, (f (s.copy i)).addr k = (s.copy i).addr k := by
    intro k
    unfold Dinode.addr
    rw [haddr]
  have hmapped : Mapped s.blk (f (s.copy i)) := by
    have hold := h.sound.mapped i hlive
    rw [← hcopy] at hold
    intro bn hbn
    rw [hsize] at hbn
    obtain ⟨hmax, hptr⟩ := hold bn hbn
    exact ⟨hmax, by rw [ptr_addr hsame]; exact hptr⟩
  have hsound : Sound ((s.setCopy i (f (s.copy i))).stored i) := by
    apply Working.stored
    apply hworking.setCopy hsame
    · rw [htype, hcopy]
      exact hlive.2
    · exact hmapped
  have hrestored : Restored i (f (s.dinode i)) s ((s.setCopy i (f (s.copy i))).stored i) := by
    constructor
    · rfl
    · intro b hb
      have hlt := hlay.IBLOCK_lt_dataStart hlive.1.2 hlay.pos
      exact update_of_ne (Nat.ne_of_gt (Nat.lt_of_lt_of_le hlt hb)) ..
    · rw [Fs.stored_eq, Fs.view_setCopy, ← hcopy, Fs.view, update_idem]
    · exact htype _
    · exact hsize _
    · rw [← hcopy]
      exact hsame
  have hlogs : Logs {IBLOCK i s.sb} s ((s.setCopy i (f (s.copy i))).stored i) :=
    logs_stored rfl rfl
  have hcache : ∀ j, (((s.setCopy i (f (s.copy i))).stored i).icache j).ref = (s.icache j).ref ∧
      (((s.setCopy i (f (s.copy i))).stored i).icache j).valid = (s.icache j).valid := by
    intro j
    by_cases hj : j = i
    · subst hj
      simp only [Fs.stored, Fs.setBlk, Fs.setCopy, Fs.setIncore, update_self, and_self]
    · simp only [Fs.stored, Fs.setBlk, Fs.setCopy, Fs.setIncore, update_of_ne hj, and_self]
  rw [restore, wp_bind, Blocks.setCopy, wp_modify]
  apply wp_iupdate
  generalize (s.setCopy i (f (s.copy i))).stored i = s' at hsound hrestored hlogs hcache
  apply hQ
  · refine ⟨hsound, ?_, h.root, hrestored.sb.trans h.sb, fun j => ?_, fun e he => ?_⟩
    · intro hfull
      apply (h.named hfull).of_same hrestored.sb
      intro dp hdp hdir
      rw [hrestored.type_eq] at hdir
      exact hrestored.sameDir h.sound (hrestored.live hdp) hdir
    · rw [(hcache j).1]
      exact h.counts j
    · rw [(hcache e.ip).2, hrestored.type_eq]
      exact h.valid e he
  · rw [h.sb] at hlogs
    exact (hlogs.mono Finset.subset_union_right).uses
  · exact hrestored

theorem hold_addLink (hQ : ∀ s', InHand full sb pins refs s' → Uses sb {i} 0 s s' →
      Restored i (s.dinode i).addLink s s' → Q () s') :
    wp harmless (restore i Dinode.addLink) Q s :=
  hold_restore h hvalid (fun _ => rfl) (fun _ => rfl) (fun _ => rfl) hQ

theorem hold_dropLink (hQ : ∀ s', InHand full sb pins refs s' → Uses sb {i} 0 s s' → Q () s') :
    wp harmless (dropLink i) Q s :=
  hold_restore h hvalid (fun _ => rfl) (fun _ => rfl) (fun _ => rfl)
    fun s' h' huses _ => hQ s' h' huses

end

/-! ### Contents -/

variable {full : Prop} {sb : Superblock} {pins : List OpenFile} {refs : List Nat} {s : Fs}
  {ip dp : Nat} {src : Nat → UInt8} {Q : Int → Fs → Prop}

variable (h : InHand full sb pins refs s)
include h

/-- What the write of some bytes does to the directories and to the references. -/
theorem InHand.written {off n : Nat} {s' : Fs} (hvalid : (s.icache ip).valid = true)
    (hwritten : Written ip off n src s s') (hsound : Sound s')
    (hself : full → (s.dinode ip).type = T_DIR → ∀ off', off' % 16 = 0 →
      off' + 16 ≤ (s'.dinode ip).size.toNat → direntInum (direntAt s' ip off') = 0 ∨
        Numbered s.sb (direntInum (direntAt s' ip off'))) : InHand full sb pins refs s' := by
  obtain ⟨hlive, -⟩ := h.sound.cached ip hvalid
  have htype : ∀ j, Numbered s.sb j → (s'.dinode j).type = (s.dinode j).type := by
    intro j hj
    by_cases hji : j = ip
    · subst hji
      obtain ⟨addrs, size, heq⟩ := hwritten.fields
      rw [heq]
    · rw [hwritten.disk j hji hj]
  have hcache : ∀ j, (s'.icache j).ref = (s.icache j).ref ∧
      (s'.icache j).valid = (s.icache j).valid := by
    intro j
    by_cases hji : j = ip
    · subst hji
      exact ⟨hwritten.ref, hwritten.valid⟩
    · rw [hwritten.cache j hji]
      exact ⟨rfl, rfl⟩
  refine ⟨hsound, ?_, h.root, hwritten.sb.trans h.sb, fun j => ?_, fun f hf => ?_⟩
  · intro hfull dp hdp hdir off' halign hin
    have hnum : Numbered s.sb dp := hwritten.sb ▸ hdp.1
    rw [htype dp hnum] at hdir
    rw [hwritten.sb]
    by_cases hdpi : dp = ip
    · subst hdpi
      exact hself hfull hdir off' halign hin
    have hdinode := hwritten.disk dp hdpi hnum
    have hold : Live s.sb s.dinode dp := ⟨hnum, hdinode ▸ hdp.2⟩
    rw [hdinode] at hin
    have hent : direntAt s' dp off' = direntAt s dp off' := by
      apply map_congr_left
      intro x hx
      have hlt := mem_range.mp hx
      exact hwritten.bytes dp hold (off' + x) (by omega) fun heq => absurd heq hdpi
    rw [hent]
    exact h.named hfull dp hold hdir off' halign hin
  · rw [(hcache j).1]
    exact h.counts j
  · obtain ⟨hfvalid, hfile⟩ := h.valid f hf
    rw [(hcache f.ip).2, htype f.ip (h.sound.cached f.ip hfvalid).1.1]
    exact ⟨hfvalid, hfile⟩

theorem hold_writei {devsw : Nat → Option Int} {off n : Nat} (hvalid : (s.icache ip).valid = true)
    (hoff : off < 2 ^ 32) (hn : n < 2 ^ 32)
    (hself : full → (s.dinode ip).type = T_DIR → ∀ s', off ≤ (s.dinode ip).size.toNat →
      Written ip off n src s s' → ∀ off', off' % 16 = 0 →
        off' + 16 ≤ (s'.dinode ip).size.toNat → direntInum (direntAt s' ip off') = 0 ∨
          Numbered s.sb (direntInum (direntAt s' ip off')))
    (hQ : ∀ r s', InHand full sb pins refs s' → Uses sb {ip} (2 * spanned off n) s s' → Q r s') :
    wp harmless (writei devsw ip src off n) Q s := by
  apply wp_imp logs_writei
  rw [h.sb]
  by_cases hdev : (s.dinode ip).type = T_DEV
  · rw [writei, wp_bind, wp_reads, (h.sound.cached ip hvalid).2, if_pos hdev]
    exact hQ _ s h
  apply wp_writei h.sound hvalid hdev hoff hn
  · exact fun _ => .inl (by decide)
  · exact fun _ => hQ _ s h
  intro s' hok hsound hwritten
  apply hQ
  apply h.written hvalid hwritten hsound
  intro hfull hdir
  exact hself hfull hdir s' (Nat.le_of_not_lt fun hlt => hok (.inl hlt)) hwritten

theorem hold_writeEntry {off : Nat} (hvalid : (s.icache dp).valid = true) (hoff : off < 2 ^ 32)
    (halign : off % 16 = 0) (hsrc : full → (src 0).toNat + 256 * (src 1).toNat = 0 ∨
      Numbered sb ((src 0).toNat + 256 * (src 1).toNat))
    (hQ : ∀ r s', InHand full sb pins refs s' → Uses sb {dp} 2 s s' → Q r s') :
    wp harmless (writei (fun _ => none) dp src off 16) Q s := by
  have hone : spanned off 16 = 1 := by
    have hbsize : BSIZE = 512 := rfl
    unfold spanned
    rw [if_neg (by decide), hbsize]
    omega
  apply hold_writei h hvalid hoff (by decide)
  · intro hfull hdir s' hin hwritten off' halign' hin'
    obtain ⟨hlive, -⟩ := h.sound.cached dp hvalid
    rw [hwritten.size] at hin'
    by_cases hsame : off' = off
    · subst hsame
      have hfirst := hwritten.written off' (src 0) (by rw [span, if_pos (by omega), Nat.sub_self])
      have hsecond := hwritten.written (off' + 1) (src 1) (by
        rw [span, if_pos (by omega), Nat.add_sub_cancel_left])
      rw [direntInum_direntAt, hfirst, hsecond, h.sb]
      exact hsrc hfull
    · -- another entry; both are aligned, so it is not touched
      have hold : off' + 16 ≤ (s.dinode dp).size.toNat := by omega
      have hent : direntAt s' dp off' = direntAt s dp off' := by
        apply map_congr_left
        intro x hx
        have hlt := mem_range.mp hx
        apply hwritten.bytes dp hlive (off' + x) (by omega)
        intro _
        rw [span, if_neg (by omega)]
      rw [hent]
      exact h.named hfull dp hlive hdir off' halign' hold
  · rw [hone]
    exact hQ

/-- **`dirlookup`** finds inodes of the disk. -/
theorem hold_dirlookup {Q : Option (Nat × Nat) → Fs → Prop} {name : List UInt8}
    (hvalid : (s.icache dp).valid = true) (hnone : (s.dinode dp).type = T_DIR → Q none s)
    (hsome : ∀ inum off s', (full → Numbered sb inum) → off < 2 ^ 32 →
      (s.dinode dp).type = T_DIR → Names s dp name off inum → InHand full sb pins (inum :: refs) s' →
      Still s s' → Q (some (inum, off)) s') : wp harmless (dirlookup dp name) Q s := by
  obtain ⟨hlive, hcopy⟩ := h.sound.cached dp hvalid
  have hmaxb : MAXFILE * BSIZE = 71680 := rfl
  rw [dirlookup, wp_bind, wp_reads, hcopy]
  by_cases hdir : (s.dinode dp).type = T_DIR
  · rw [if_neg (not_not.mpr hdir), wp_bind, entries, wp_reads, wp_bind]
    apply wp_scanEntries h.sound hvalid hdir (by decide) rfl (Nat.zero_le _)
    intro off r halign hoff hfound
    rcases r with _ | de
    · exact hnone hdir
    obtain ⟨hin, rfl, hmatch⟩ := hfound de rfl
    rw [Bool.and_eq_true, decide_eq_true_iff, decide_eq_true_iff] at hmatch
    have hnum : full → Numbered sb (direntInum (direntAt s dp off)) := by
      intro hfull
      rcases h.named hfull dp hlive hdir off halign hin with hzero | hnum
      · exact absurd hzero hmatch.1
      · exact h.sb ▸ hnum
    rw [wp_bind]
    apply hold_iget h
    intro s' h' hstill
    exact hsome _ off s' hnum (by omega) hdir ⟨halign, hin, rfl, hmatch.1, hmatch.2⟩ h' hstill
  · rw [if_pos hdir]
    exact (by decide : harmless "dirlookup not DIR")

omit h

theorem direntByte_inum (inum : Nat) (name : List UInt8) :
    (direntByte inum name 0).toNat + 256 * (direntByte inum name 1).toNat = inum % 2 ^ 16 := by
  simp only [direntByte, Nat.zero_lt_two, Nat.one_lt_two, if_true, UInt8.toNat_ofNat']
  omega

/-- An inode number that has lost its upper half still is one, or 0. -/
theorem numbered_mod {inum : Nat} (h : Numbered sb inum) :
    inum % 2 ^ 16 = 0 ∨ Numbered sb (inum % 2 ^ 16) := by
  unfold Numbered at h ⊢
  omega

/-- **`dirlink`** writes an entry, or finds the name and puts its inode. -/
theorem hold_dirlink {name : List UInt8} {inum : Nat} (h : InHand full sb pins refs s)
    (hvalid : (s.icache dp).valid = true) (hinum : full → Numbered sb inum)
    (hfound : ∀ j s', InHand full sb pins refs s' → Uses sb {j} 0 s s' → Q (-1) s')
    (hdone : ∀ s', InHand full sb pins refs s' → Uses sb {dp} 2 s s' → Q 0 s') :
    wp harmless (dirlink dp name inum) Q s := by
  have hmaxb : MAXFILE * BSIZE = 71680 := rfl
  rw [dirlink, wp_bind, wp_lift]
  apply hold_dirlookup h hvalid
  · intro hdir
    rw [wp_bind, wp_lift, entries, wp_reads, wp_bind, wp_lift]
    apply wp_scanEntries h.sound hvalid hdir (by decide) rfl (Nat.zero_le _)
    intro off r halign hoff _
    rw [wp_bind, wp_lift]
    apply hold_writeEntry h hvalid (by omega) halign
    · rw [direntByte_inum]
      exact fun hfull => numbered_mod (hinum hfull)
    intro w s' h' huses
    by_cases hw : w ≠ 16
    · rw [if_pos hw]
      exact (by decide : harmless "dirlink")
    · rw [if_neg hw]
      exact hdone s' h' huses
  · intro ip off s1 _ _ _ _ h1 hstill
    rw [wp_bind]
    apply hold_iput h1
    intro s2 h2 huses _
    exact hfound ip s2 h2 ((hstill.uses sb {ip} 0).andThen huses (Finset.Subset.refl _))

end Xv6.Blocks
