import Xv6.BlocksHold

/-!
**System calls on paths**: what they leave in hand, and what they log.

A lookup drops references on its way. If every inode it can come to has links, or somebody
else who refers to it, no such drop is the end of an inode and the lookup leaves the disk
alone. The budgets below are under that condition (`Tight`); what is in hand afterwards does
not depend on it.
-/

namespace Xv6.Blocks

open Program List
open Xv6.Fs (Path SLASH O_RDONLY O_CREATE)

/-! ### Lookups -/

/-- A lookup from `cwd` or from the root can come to this inode. -/
inductive Reaches (s : Fs) (cwd : Nat) : Nat → Prop where
  | root : Reaches s cwd ROOTINO
  | cwd : Reaches s cwd cwd
  | entry {dp off : Nat} : Reaches s cwd dp → Live s.sb s.dinode dp →
      (s.dinode dp).type = T_DIR → off % 16 = 0 → off + 16 ≤ (s.dinode dp).size.toNat →
        direntInum (direntAt s dp off) ≠ 0 → Reaches s cwd (direntInum (direntAt s dp off))

/-- Lookups from `cwd` free nothing. -/
def Tight (held : Nat → Int) (s : Fs) (cwd : Nat) : Prop := ∀ i, Reaches s cwd i → Stable held s i

/-- The blocks of `n` may have been logged, besides the bitmap. -/
def Costs (sb : Superblock) (n : Nat) (s s' : Fs) : Prop :=
  ∃ I k, I.card + k ≤ n ∧ Uses sb I k s s'

section

variable {sb : Superblock} {held held' : Nat → Int} {pins : List OpenFile} {refs : List Nat}
  {s s' : Fs} {i cwd : Nat}

theorem Stable.mono (h : Stable held s i) (hle : held i ≤ held' i) : Stable held' s i := by
  rcases h with hfree | hlinks | hheld
  · exact .inl hfree
  · exact .inr (.inl hlinks)
  · exact .inr (.inr (hheld.trans hle))

variable (h : Still s s')
include h

theorem Still.stable (hi : Stable held s i) : Stable held s' i := by
  unfold Stable
  rw [h.dinode]
  exact hi

theorem Still.direntAt (dp off : Nat) : direntAt s' dp off = direntAt s dp off := by
  rw [Blocks.direntAt, h.dinode, h.blk, Blocks.direntAt]

theorem Still.symm : Still s' s := ⟨h.sb.symm, h.blk.symm, h.logged.symm⟩

theorem Still.reaches (hi : Reaches s cwd i) : Reaches s' cwd i := by
  induction hi with
  | root => exact .root
  | cwd => exact .cwd
  | entry _ hlive hdir halign hin hne ih =>
    rw [← h.direntAt] at hne ⊢
    rw [← h.dinode] at hdir hin
    rw [← h.sb, ← h.dinode] at hlive
    exact .entry ih hlive hdir halign hin hne

theorem Still.tight (ht : Tight held s cwd) : Tight held s' cwd :=
  fun i hi => h.stable (ht i (h.symm.reaches hi))

theorem Still.costs (sb : Superblock) (n : Nat) : Costs sb n s s' :=
  ⟨∅, 0, Nat.zero_le n, h.uses ..⟩

omit h

theorem others_le_cons (j i : Nat) : others pins refs i ≤ others pins (j :: refs) i := by
  rw [others_cons]
  split <;> omega

/-- The reference that a lookup returns. -/
def found {α : Type} (r : Option (Nat × α)) : List Nat := (r.map Prod.fst).toList

theorem hold_walk {parent : Bool} {Q : Option (Nat × List UInt8) → Fs → Prop} :
    ∀ {names : List (List UInt8)} {ip : Nat} {s : Fs}, InHand True sb pins (ip :: refs) s →
      Numbered sb ip →
      (∀ r s', (∀ x ∈ r, Numbered sb x.1) → InHand True sb pins (found r ++ refs) s' →
        (Tight (others pins refs) s cwd → Reaches s cwd ip → Still s s') → Q r s') →
      wp harmless (walk parent names ip) Q s := by
  intro names
  induction names with
  | nil =>
    intro ip s h hip hQ
    rw [walk]
    by_cases hparent : parent = true
    · rw [if_pos hparent, wp_bind]
      apply hold_iput h
      intro s' h' _ hstill
      exact hQ none s' nofun h' fun ht hreach => hstill (ht ip hreach)
    · rw [if_neg hparent]
      exact hQ (some (ip, [])) s (by simpa) h fun _ _ => .refl s
  | cons name rest ih =>
    intro ip s h hip hQ
    rw [walk, wp_bind]
    apply hold_ilock h hip
    intro s1 h1 hstill1 _
    have hgiveUp : wp harmless (do
        iunlockput ip
        pure none : Iprog (Option (Nat × List UInt8))) Q s1 := by
      rw [wp_bind]
      apply hold_iunlockput h1
      intro s2 h2 _ hstill2
      apply hQ none s2 nofun h2
      intro ht hreach
      exact hstill1.trans (hstill2 (hstill1.stable (ht ip hreach)))
    rw [wp_bind, wp_reads]
    by_cases hdir : (s1.copy ip).type ≠ T_DIR
    · rw [if_pos hdir]
      exact hgiveUp
    rw [if_neg hdir]
    by_cases hlast : parent = true ∧ rest = []
    · rw [if_pos hlast, wp_bind]
      apply hold_iunlock
      exact hQ (some (ip, name)) s1 (by simpa) h1.unpin fun _ _ => hstill1
    rw [if_neg hlast, wp_bind, wp_lift]
    apply hold_dirlookup h1 h1.headValid
    · exact fun _ => hgiveUp
    intro next off s2 hnext _ hdir' hnames h2 hstill2
    rw [wp_bind]
    apply hold_iunlockput h2
    intro s3 h3 _ hput
    apply ih h3 (hnext trivial)
    intro r s4 hr h4 hstill4
    apply hQ r s4 hr h4
    intro ht hreach
    have hstill3 : Still s1 s3 := by
      apply hstill2.trans
      apply hput
      exact ((hstill1.trans hstill2).stable (ht ip hreach)).mono (others_le_cons ..)
    obtain ⟨halign, hin, rfl, hne, -⟩ := hnames
    have hlive := (h1.sound.cached ip h1.headValid).1
    have hstill := hstill1.trans hstill3
    apply hstill.trans
    apply hstill4 (hstill.tight ht)
    exact hstill3.reaches (.entry (hstill1.reaches hreach) hlive hdir' halign hin hne)

end

/-! ### Amid a transaction -/

/-- **Amid a transaction** that began at `s0`: what is in hand, and what has been logged if `c`,
besides the bitmap: the blocks of the inodes `I`, and `k` others. -/
structure Amid (full : Prop) (b : Superblock) (c : Prop) (s0 : Fs) (I : List Nat) (k : Nat)
    (pins : List OpenFile) (refs : List Nat) (s : Fs) : Prop extends InHand full b pins refs s where
  uses : c → Uses b I.toFinset k s0 s

/-- What a transaction leaves, and what it may have logged if `c`. -/
structure Ended (full : Prop) (b : Superblock) (c : Prop) (s0 : Fs) (pins : List OpenFile)
    (refs : List Nat) (s : Fs) : Prop extends InHand full b pins refs s where
  costs : c → Costs b 9 s0 s

variable {full : Prop} {sb : Superblock} {c : Prop} {I J : List Nat} {k l : Nat}
  {held held' : Nat → Int} {pins pins' : List OpenFile} {refs refs' : List Nat} {s0 s s' : Fs}
  {i ip dp cwd : Nat} {w : Bool} {Q : Unit → Fs → Prop} {name : List UInt8} {path : Path}
  {major minor : UInt16} {omode : UInt32}

theorem Amid.begin (h : InHand full sb pins refs s) : Amid full sb c s [] 0 pins refs s :=
  ⟨h, fun _ => (Still.refl s).uses ..⟩

variable (h : Amid full sb c s0 I k pins refs s)
include h

theorem Amid.with (h' : InHand full sb pins' refs' s) :
    Amid full sb c s0 I k pins' refs' s := ⟨h', h.uses⟩

theorem Amid.still (h' : InHand full sb pins' refs' s') (hstill : Still s s') :
    Amid full sb c s0 I k pins' refs' s' :=
  ⟨h', fun hc => (h.uses hc).andThen (hstill.uses sb ∅ 0) (Finset.empty_subset _)⟩

theorem Amid.next (h' : InHand full sb pins' refs' s') (huses : Uses sb {i} l s s') (hi : i ∈ I) :
    Amid full sb c s0 I (k + l) pins' refs' s' :=
  ⟨h', fun hc => (h.uses hc).andThen huses (by simpa using hi)⟩

theorem Amid.grow (hsub : I ⊆ J) (hle : k ≤ l) : Amid full sb c s0 J l pins refs s :=
  ⟨h.toInHand, fun hc => (h.uses hc).mono
    (fun _ hi => mem_toFinset.mpr (hsub (mem_toFinset.mp hi))) hle⟩

theorem Amid.ended (hle : I.length + k ≤ 9) : Ended full sb c s0 pins refs s :=
  ⟨h.toInHand, fun hc => ⟨_, k, (Nat.add_le_add_right I.toFinset_card_le k).trans hle, h.uses hc⟩⟩

omit h

theorem Amid.swapPins {f g : OpenFile} (h : Amid full sb c s0 I k (f :: g :: pins) refs s) :
    Amid full sb c s0 I k (g :: f :: pins) refs s := h.with h.toInHand.swapPins

theorem Amid.ilock (h : Amid full sb c s0 I k pins (i :: refs) s) (hi : Numbered sb i)
    (hQ : ∀ s', Amid full sb c s0 I k (⟨i, false⟩ :: pins) refs s' → Still s s' → Q () s') :
    wp harmless (ilock i) Q s :=
  hold_ilock h.toInHand hi fun s' h' hstill _ => hQ s' (h.still h' hstill) hstill

theorem Amid.iput (h : Amid full sb c s0 I k pins (i :: refs) s) (hi : i ∈ I)
    (hQ : ∀ s', Amid full sb c s0 I k pins refs s' → Q () s') : wp harmless (iput i) Q s :=
  hold_iput h.toInHand fun s' h' huses _ => hQ s' (h.next h' huses hi)

theorem Amid.iunlockput (h : Amid full sb c s0 I k (⟨i, w⟩ :: pins) refs s) (hi : i ∈ I)
    (hQ : ∀ s', Amid full sb c s0 I k pins refs s' → Q () s') : wp harmless (iunlockput i) Q s :=
  hold_iunlockput h.toInHand fun s' h' huses _ => hQ s' (h.next h' huses hi)

theorem Amid.close {α : Type} {r : α} {Q : α → Fs → Prop}
    (h : Amid full sb c s0 I k (⟨i, w⟩ :: pins) refs s) (hi : i ∈ I) (hle : I.length + k ≤ 9)
    (hQ : ∀ s', Ended full sb c s0 pins refs s' → Q r s') :
    wp harmless (do
      Blocks.iunlockput i
      pure r) Q s :=
  wp_bind.mpr (h.iunlockput hi fun s' h' => hQ s' (h'.ended hle))

variable (h : Amid full sb c s0 I k pins refs s)
include h

theorem Amid.dropLink (hvalid : (s.icache i).valid = true) (hi : i ∈ I)
    (hQ : ∀ s', Amid full sb c s0 I k pins refs s' → Q () s') : wp harmless (dropLink i) Q s :=
  hold_dropLink h.toInHand hvalid fun s' h' huses => hQ s' (h.next h' huses hi)

theorem Amid.addLink (hvalid : (s.icache i).valid = true) (hi : i ∈ I)
    (hQ : ∀ s', Amid full sb c s0 I k pins refs s' → Restored i (s.dinode i).addLink s s' → Q () s') :
    wp harmless (restore i Dinode.addLink) Q s :=
  hold_addLink h.toInHand hvalid fun s' h' huses => hQ s' (h.next h' huses hi)

theorem Amid.dirlookup {Q : Option (Nat × Nat) → Fs → Prop} (hvalid : (s.icache dp).valid = true)
    (hnone : Q none s)
    (hsome : ∀ inum off s', (full → Numbered sb inum) → off < 2 ^ 32 → Names s dp name off inum →
      Amid full sb c s0 I k pins (inum :: refs) s' → Q (some (inum, off)) s') :
    wp harmless (dirlookup dp name) Q s :=
  hold_dirlookup h.toInHand hvalid (fun _ => hnone) fun inum off s' hinum hoff _ hnames h' hstill =>
    hsome inum off s' hinum hoff hnames (h.still h' hstill)

theorem Amid.dirlink {Q : Int → Fs → Prop} {inum : Nat} (hvalid : (s.icache dp).valid = true)
    (hinum : full → Numbered sb inum) (hdp : dp ∈ I)
    (hfound : ∀ j s', Amid full sb c s0 (j :: I) k pins refs s' → Q (-1) s')
    (hdone : ∀ s', Amid full sb c s0 I (k + 2) pins refs s' → Q 0 s') :
    wp harmless (dirlink dp name inum) Q s := by
  apply hold_dirlink h.toInHand hvalid hinum
  · intro j s' h' huses
    exact hfound j s' ((h.grow (subset_cons_self j I) le_rfl).next h' huses (.head _))
  · intro s' h' huses
    exact hdone s' (h.next h' huses hdp)

omit h

theorem Amid.namex {parent : Bool} {Q : Option (Nat × List UInt8) → Fs → Prop}
    (h : Amid True sb c s0 I k pins refs s) (hcwd : Numbered sb cwd)
    (ht : c → Tight (others pins refs) s cwd)
    (hQ : ∀ r s', (∀ x ∈ r, Numbered sb x.1) → Amid True sb c s0 I k pins (found r ++ refs) s' →
      (c → Still s s') → Q r s') : wp harmless (namex cwd parent path) Q s := by
  have hwalk : ∀ i s1, Numbered sb i → InHand True sb pins (i :: refs) s1 → Still s s1 →
      Reaches s1 cwd i → wp harmless (walk parent ((Xv6.Fs.elements path).map Subtype.val) i) Q s1 := by
    intro i s1 hi h1 hstill hreach
    apply hold_walk h1 hi
    intro r s2 hr h2 hstill2
    have hall : c → Still s s2 := fun hc => hstill.trans (hstill2 (hstill.tight (ht hc)) hreach)
    exact hQ r s2 hr ⟨h2, fun hc => (h.still h2 (hall hc)).uses hc⟩ hall
  rw [Blocks.namex, wp_bind, start]
  by_cases habs : path.head? = some SLASH
  · rw [if_pos habs, wp_bind, wp_lift]
    apply hold_iget h.toInHand
    intro s1 h1 hstill
    exact hwalk ROOTINO s1 (h.root trivial) h1 hstill .root
  · rw [if_neg habs, wp_bind, wp_lift]
    apply hold_idup h.toInHand trivial
    intro s1 h1 hstill
    exact hwalk cwd s1 hcwd h1 hstill .cwd

theorem hold_namex {parent : Bool} {Q : Option (Nat × List UInt8) → Fs → Prop}
    (h : InHand True sb pins refs s) (hcwd : Numbered sb cwd)
    (hnone : ∀ s', Ended True sb (Tight (others pins refs) s cwd) s pins refs s' → Q none s')
    (hsome : ∀ dp name s', Numbered sb dp →
      Amid True sb (Tight (others pins refs) s cwd) s [dp] 0 pins (dp :: refs) s' →
        (Tight (others pins refs) s cwd → Still s s') → Q (some (dp, name)) s') :
    wp harmless (Blocks.namex cwd parent path) Q s := by
  apply (Amid.begin h).namex hcwd id
  rintro (_ | ⟨dp, name⟩) s' hr h' hstill
  · exact hnone s' (h'.ended (by decide))
  · exact hsome dp name s' (hr _ rfl) (h'.grow (nil_subset _) le_rfl) hstill

theorem hold_namei {Q : Option Nat → Fs → Prop} (h : InHand True sb pins refs s)
    (hcwd : Numbered sb cwd)
    (hnone : ∀ s', Ended True sb (Tight (others pins refs) s cwd) s pins refs s' → Q none s')
    (hsome : ∀ ip s', Numbered sb ip →
      Amid True sb (Tight (others pins refs) s cwd) s [ip] 0 pins (ip :: refs) s' →
        (Tight (others pins refs) s cwd → Still s s') → Q (some ip) s') :
    wp harmless (namei cwd path) Q s :=
  wp_bind.mpr (hold_namex h hcwd hnone fun ip _ s' => hsome ip s')

/-! ### Link and unlink -/

theorem Restored.stable {d : Dinode} (h : Restored ip d s s') (hi : Stable held s i)
    (hle : ∀ i, held i ≤ held' i) (hheld : 1 ≤ held' ip) : Stable held' s' i := by
  by_cases hip : i = ip
  · exact .inr (.inr (hip ▸ hheld))
  · unfold Stable
    rw [h.dinode, Function.update_of_ne hip]
    exact hi.mono (hle i)

theorem Restored.reaches {d : Dinode} (h : Restored ip d s s') (hsound : Sound s)
    (hi : Reaches s' cwd i) : Reaches s cwd i := by
  induction hi with
  | root => exact .root
  | cwd => exact .cwd
  | entry _ hlive hdir halign hin hne ih =>
    rw [h.type_eq] at hdir
    rcases h.sameDir hsound (h.live hlive) hdir with hempty | ⟨hold, -, hsize, hents⟩
    · rw [hempty] at hin
      exact absurd hin (by simp)
    · rw [hsize] at hin
      rw [hents _ hin] at hne ⊢
      exact .entry ih hold hdir halign hin hne

theorem Restored.tight {d : Dinode} (h : Restored ip d s s') (hsound : Sound s)
    (ht : Tight held s cwd) (hle : ∀ i, held i ≤ held' i) (hheld : 1 ≤ held' ip) :
    Tight held' s' cwd := fun i hi => h.stable (ht i (h.reaches hsound hi)) hle hheld

theorem Amid.linkBad (h : Amid full sb c s0 I k pins (ip :: refs) s) (hip : Numbered sb ip)
    (hi : ip ∈ I) (hle : I.length + k ≤ 9) :
    wp harmless (linkBad ip) (fun _ => Ended full sb c s0 pins refs) s := by
  refine wp_bind.mpr (h.ilock hip fun s1 h1 _ => ?_)
  refine wp_bind.mpr (wp_lift.mpr (h1.dropLink h1.headValid hi fun s2 h2 => ?_))
  exact h2.close hi hle fun _ => id

theorem Amid.linkInto {new : Path} (h : Amid True sb c s0 [ip] 0 pins (ip :: refs) s)
    (hip : Numbered sb ip) (hcwd : Numbered sb cwd)
    (ht : c → Tight (others pins (ip :: refs)) s cwd) :
    wp harmless (linkInto cwd ip new) (fun _ => Ended True sb c s0 pins refs) s := by
  refine wp_bind.mpr (h.namex hcwd ht ?_)
  rintro (_ | ⟨dp, name⟩) s1 hr h1 -
  · exact h1.linkBad hip (by simp) (by simp)
  have h1 : Amid True sb c s0 [dp, ip] 0 pins (dp :: ip :: refs) s1 := h1.grow (by simp) le_rfl
  refine wp_bind.mpr (h1.ilock (hr _ rfl) fun s2 h2 _ => ?_)
  refine wp_bind.mpr (h2.dirlink h2.headValid (fun _ => hip) (by simp) (fun j s3 h3 => ?_) fun s3 h3 => ?_)
  · refine wp_bind.mpr (h3.iunlockput (by simp) fun s4 h4 => ?_)
    exact h4.linkBad hip (by simp) (by simp)
  · refine wp_bind.mpr (h3.iunlockput (by simp) fun s4 h4 => ?_)
    exact wp_bind.mpr (h4.iput (by simp) fun s5 h5 => h5.ended (by simp))

theorem hold_sysLink {old new : Path} (h : InHand True sb pins refs s) (hcwd : Numbered sb cwd) :
    wp harmless (sysLink cwd old new)
      (fun _ => Ended True sb (Tight (others pins refs) s cwd) s pins refs) s := by
  refine wp_bind.mpr (hold_namei h hcwd (fun _ => id) fun ip s1 hip h1 hstill1 => ?_)
  refine wp_bind.mpr (h1.ilock hip fun s2 h2 hstill2 => wp_get.mpr ?_)
  split
  · exact h2.close (by simp) (by simp) fun _ => id
  refine wp_bind.mpr (wp_lift.mpr (h2.addLink h2.headValid (by simp) fun s3 h3 hrestored => ?_))
  refine wp_bind.mpr (hold_iunlock ?_)
  apply (h3.with h3.unpin).linkInto hip hcwd
  intro ht
  have ht2 := ((hstill1 ht).trans hstill2).tight ht
  exact hrestored.tight h2.sound ht2 (others_le_cons ip) (one_le_others ip)

theorem Amid.unlinkEntry {off : Nat}
    (h : Amid full sb c s0 [ip, dp] 0 (⟨ip, false⟩ :: ⟨dp, false⟩ :: pins) refs s)
    (hoff : off < 2 ^ 32) (halign : off % 16 = 0) :
    wp harmless (unlinkEntry dp ip off) (fun _ => Ended full sb c s0 pins refs) s := by
  rw [Blocks.unlinkEntry, wp_bind, wp_lift]
  apply hold_writeEntry h.toInHand h.swapPins.headValid hoff halign fun _ => .inl rfl
  intro w s1 h1 huses1
  have h1 := h.next h1 huses1 (by simp)
  by_cases hw : w ≠ 16
  · rw [if_pos hw]
    exact (by decide : harmless "unlink: writei")
  rw [if_neg hw]
  have hlast : ∀ s2, Amid full sb c s0 [ip, dp] 2 (⟨ip, false⟩ :: ⟨dp, false⟩ :: pins) refs s2 →
      wp harmless (do
        Blocks.iunlockput dp
        (Blocks.dropLink ip).lift
        Blocks.iunlockput ip
        pure 0 : Iprog Int) (fun _ => Ended full sb c s0 pins refs) s2 := by
    intro s2 h2
    refine wp_bind.mpr (h2.swapPins.iunlockput (by simp) fun s3 h3 => ?_)
    refine wp_bind.mpr (wp_lift.mpr (h3.dropLink h3.headValid (by simp) fun s4 h4 => ?_))
    exact h4.close (by simp) (by simp) fun _ => id
  rw [wp_bind, wp_reads, wp_bind, wp_onlyIf]
  constructor
  · exact fun _ => wp_lift.mpr (h1.dropLink h1.swapPins.headValid (by simp) hlast)
  · exact fun _ => hlast s1 h1

theorem Amid.unlinkFound {off : Nat}
    (h : Amid full sb c s0 [ip, dp] 0 (⟨dp, false⟩ :: pins) (ip :: refs) s) (hip : Numbered sb ip)
    (hoff : off < 2 ^ 32) (halign : off % 16 = 0) :
    wp harmless (unlinkFound dp ip off) (fun _ => Ended full sb c s0 pins refs) s := by
  refine wp_bind.mpr (h.ilock hip fun s1 h1 _ => ?_)
  rw [wp_bind, wp_reads]
  generalize toShort (s1.copy ip).nlink.toNat = nlink
  split
  · exact (by decide : harmless "unlink: nlink < 1")
  refine wp_bind.mpr (wp_lift.mpr (wp_isBusy h1.sound h1.headValid fun busy => ?_))
  split
  · refine wp_bind.mpr (h1.iunlockput (by simp) fun s2 h2 => ?_)
    exact h2.close (by simp) (by simp) fun _ => id
  · exact h1.unlinkEntry hoff halign

theorem Amid.unlink (h : Amid full sb c s0 [dp] 0 pins (dp :: refs) s) (hdp : Numbered sb dp)
    (hname : full ∨ ∀ off inum, Names s dp name off inum → Numbered sb inum) :
    wp harmless (unlink dp name) (fun _ => Ended full sb c s0 pins refs) s := by
  refine wp_bind.mpr (h.ilock hdp fun s1 h1 hstill => ?_)
  have hbad : wp harmless (unlinkBad dp) (fun _ => Ended full sb c s0 pins refs) s1 :=
    h1.close (by simp) (by simp) fun _ => id
  split
  · exact hbad
  refine wp_bind.mpr (wp_lift.mpr (h1.dirlookup h1.headValid hbad ?_))
  intro ip off s2 hip hoff hnames h2
  have hnum : Numbered sb ip := by
    apply hname.elim hip
    intro hname
    apply hname off
    rw [Names, hstill.direntAt, hstill.dinode] at hnames
    exact hnames
  exact (h2.grow (subset_cons_self ip [dp]) le_rfl).unlinkFound hnum hoff hnames.1

theorem hold_sysUnlink (h : InHand True sb pins refs s) (hcwd : Numbered sb cwd) :
    wp harmless (sysUnlink cwd path)
      (fun _ => Ended True sb (Tight (others pins refs) s cwd) s pins refs) s :=
  wp_bind.mpr (hold_namex h hcwd (fun _ => id) fun _ _ _ hdp h1 _ => h1.unlink hdp (.inl trivial))

/-! ### Create -/

theorem InHand.repin {w' : Bool} (h : InHand full sb (⟨ip, w⟩ :: pins) refs s)
    (hfile : w' = true → (s.dinode ip).type ≠ T_DIR) : InHand full sb (⟨ip, w'⟩ :: pins) refs s :=
  h.unpin.pin h.headValid hfile

theorem Amid.mustLink {msg : String} {inum : Nat} (h : Amid full sb c s0 I k pins refs s)
    (hvalid : (s.icache dp).valid = true) (hinum : Numbered sb inum) (hdp : dp ∈ I)
    (hmsg : harmless msg) (hQ : ∀ s', Amid full sb c s0 I (k + 2) pins refs s' → Q () s') :
    wp harmless (mustLink msg dp name inum) Q s :=
  wp_bind.mpr (h.dirlink hvalid (fun _ => hinum) hdp (fun _ _ _ => hmsg) hQ)

theorem Amid.createDots (h : Amid full sb c s0 [ip, dp] 0 (⟨ip, w⟩ :: ⟨dp, false⟩ :: pins) refs s)
    (hip : Numbered sb ip) (hdp : Numbered sb dp)
    (hQ : ∀ s', Amid full sb c s0 [ip, dp] 4 (⟨ip, w⟩ :: ⟨dp, false⟩ :: pins) refs s' → Q () s') :
    wp harmless (createDots dp ip) Q s := by
  refine wp_bind.mpr (wp_lift.mpr (h.addLink h.swapPins.headValid (by simp) fun s1 h1 _ => ?_))
  refine wp_bind.mpr (h1.mustLink h1.headValid hip (by simp) (by decide) fun s2 h2 => ?_)
  exact h2.mustLink h2.headValid hdp (by simp) (by decide) hQ

/-- **A new inode gets its first name.** -/
theorem Amid.createIn {type : UInt16} {Q : Nat → Fs → Prop}
    (h : Amid full sb c s0 [dp] 0 (⟨dp, false⟩ :: pins) refs s) (hdp : Numbered sb dp)
    (hQ : ∀ ip s', Amid full sb c s0 [ip, dp] 6 (⟨ip, type != T_DIR⟩ :: pins) refs s' → Q ip s') :
    wp harmless (createIn dp name type major minor) Q s := by
  rw [Blocks.createIn, wp_bind, wp_lift]
  apply hold_ialloc h.toInHand
  intro ip s1 hip htype h1 huses1
  have h1 := (h.grow (subset_cons_self ip [dp]) le_rfl).next h1 huses1 (by simp)
  refine wp_bind.mpr (h1.ilock hip fun s2 h2 hstill2 => ?_)
  have hfile : (type != T_DIR) = true → (s2.dinode ip).type ≠ T_DIR := by
    rw [hstill2.dinode, htype]
    exact bne_iff_ne.mp
  rw [wp_bind, wp_lift]
  apply hold_restore (h2.repin hfile) h2.headValid
  · exact fun _ => rfl
  · exact fun _ => rfl
  · exact fun _ => rfl
  intro s3 h3 huses3 _
  have h3 := h2.next h3 huses3 (by simp)
  have hlast : ∀ s4, Amid full sb c s0 [ip, dp] 4 (⟨ip, type != T_DIR⟩ :: ⟨dp, false⟩ :: pins) refs s4 →
      wp harmless (do
        Blocks.mustLink "create: dirlink" dp name ip
        Blocks.iunlockput dp
        pure ip : Iprog Nat) Q s4 := by
    intro s4 h4
    refine wp_bind.mpr (h4.mustLink h4.swapPins.headValid hip (by simp) (by decide) ?_)
    intro s5 h5
    exact wp_bind.mpr (h5.swapPins.iunlockput (by simp) fun s6 h6 => hQ ip s6 h6)
  refine wp_bind.mpr (wp_onlyIf.mpr ⟨fun _ => h3.createDots hip hdp hlast, fun _ => ?_⟩)
  exact hlast s3 (h3.grow (List.Subset.refl _) (by decide))

section

variable {Q : Option Nat → Fs → Prop} (hin : InHand True sb pins refs s) (hcwd : Numbered sb cwd)
  (hnone : ∀ s', Ended True sb (Tight (others pins refs) s cwd) s pins refs s' → Q none s')
include hin hcwd hnone

/-- **`create`** leaves an inode locked, a file if it was to be one. -/
theorem hold_create {type : UInt16}
    (hsome : ∀ ip dp s', Amid True sb (Tight (others pins refs) s cwd) s [ip, dp] 6
      (⟨ip, type != T_DIR⟩ :: pins) refs s' → Q (some ip) s') :
    wp harmless (create cwd path type major minor) Q s := by
  refine wp_bind.mpr (hold_namex hin hcwd hnone fun dp name s1 hdp h1 _ => ?_)
  refine wp_bind.mpr (h1.ilock hdp fun s2 h2 _ => ?_)
  refine wp_bind.mpr (wp_lift.mpr (h2.dirlookup h2.headValid ?_ ?_))
  · exact wp_bind.mpr (h2.createIn hdp fun ip s3 h3 => hsome ip dp s3 h3)
  intro ip off s3 hip _ _ h3
  have hip := hip trivial
  have h3 := h3.grow (subset_cons_self ip [dp]) (Nat.zero_le 6)
  refine wp_bind.mpr (h3.iunlockput (by simp) fun s4 h4 => ?_)
  refine wp_bind.mpr (h4.ilock hip fun s5 h5 _ => wp_get.mpr ?_)
  split
  next hfile =>
    apply hsome ip dp s5 (h5.with (h5.repin fun _ => ?_))
    rw [← (h5.sound.cached ip h5.headValid).2, hfile.2]
    decide
  · exact h5.close (by simp) (by simp) hnone

/-! ### Open, mkdir, mknod, chdir, exec -/

omit hin hcwd hnone in
theorem not_writable (h : omode = O_RDONLY) : Transaction.isWritable omode = false := by
  rw [h]
  decide

theorem hold_openInode
    (hsome : ∀ ip dp s', Amid True sb (Tight (others pins refs) s cwd) s [ip, dp] 6
      (⟨ip, Transaction.isWritable omode⟩ :: pins) refs s' → Q (some ip) s') :
    wp harmless (openInode cwd path omode) Q s := by
  unfold openInode
  split
  · apply hold_create hin hcwd hnone
    intro ip dp s1 h1
    have hfile : (T_FILE != T_DIR) = true := by decide
    exact hsome ip dp s1 (h1.with (h1.repin fun _ => (h1.valid _ (.head _)).2 hfile))
  refine wp_bind.mpr (hold_namei hin hcwd hnone fun ip s1 hip h1 _ => ?_)
  refine wp_bind.mpr (h1.ilock hip fun s2 h2 _ => wp_get.mpr ?_)
  split
  · exact h2.close (by simp) (by simp) hnone
  rename_i hdir
  apply hsome ip ip s2 ((h2.grow (by simp) (by decide)).with (h2.repin ?_))
  intro hwritable htype
  rw [← (h2.sound.cached ip h2.headValid).2] at htype
  have hmode := not_and_not_right.mp hdir htype
  rw [not_writable hmode] at hwritable
  cases hwritable

theorem hold_sysOpen {room : Bool}
    (hsome : ∀ ip s', Ended True sb (Tight (others pins refs) s cwd) s
      (⟨ip, Transaction.isWritable omode⟩ :: pins) refs s' → Q (some ip) s') :
    wp harmless (sysOpen cwd path omode room) Q s := by
  refine wp_bind.mpr (hold_openInode hin hcwd hnone fun ip dp s1 h1 => ?_)
  simp only
  split
  · exact h1.close (by simp) (by simp) hnone
  · exact wp_bind.mpr (hold_iunlock (hsome ip s1 (h1.ended (by simp))))

end

theorem hold_sysCreate {type : UInt16} (h : InHand True sb pins refs s) (hcwd : Numbered sb cwd) :
    wp harmless (sysCreate cwd path type major minor)
      (fun _ => Ended True sb (Tight (others pins refs) s cwd) s pins refs) s :=
  wp_bind.mpr (hold_create h hcwd (fun _ => id) fun _ _ _ h1 =>
    h1.close (by simp) (by simp) fun _ => id)

/-- **`sys_chdir`** puts the old directory for the new one. -/
theorem hold_sysChdir {Q : Option Nat → Fs → Prop} (h : InHand True sb pins (cwd :: refs) s)
    (hcwd : Numbered sb cwd)
    (hnone : ∀ s', Ended True sb (Tight (others pins (cwd :: refs)) s cwd) s pins (cwd :: refs) s' →
      Q none s') (hsome : ∀ ip s', Numbered sb ip →
      Ended True sb (Tight (others pins (cwd :: refs)) s cwd) s pins (ip :: refs) s' → Q (some ip) s') :
    wp harmless (sysChdir cwd path) Q s := by
  refine wp_bind.mpr (hold_namei h hcwd hnone fun ip s1 hip h1 _ => ?_)
  refine wp_bind.mpr (h1.ilock hip fun s2 h2 _ => wp_get.mpr ?_)
  split
  · exact h2.close (by simp) (by simp) hnone
  · have h2 := (h2.grow (subset_cons_self cwd [ip]) le_rfl).with (h2.unpin.perm (.swap ..))
    refine wp_bind.mpr (hold_iunlock (wp_bind.mpr (h2.iput (by simp) fun s3 h3 => ?_)))
    exact hsome ip s3 hip (h3.ended (by simp))

theorem hold_readAll {devsw : Nat → Option (Int × List UInt8)} (h : InHand True sb pins refs s)
    (hvalid : (s.icache ip).valid = true) (hQ : Q () s) :
    ∀ parts, wp harmless (readAll devsw ip parts) Q s := by
  intro parts
  induction parts with
  | nil => exact hQ
  | cons part parts ih =>
    rw [readAll, wp_bind]
    exact wp_readAny h.sound hvalid part.1.toNat_lt part.2.toNat_lt fun _ => ih

theorem hold_sysExec {devsw : Nat → Option (Int × List UInt8)} {parts : List (UInt32 × UInt32)}
    (h : InHand True sb pins refs s) (hcwd : Numbered sb cwd) :
    wp harmless (sysExec devsw cwd path parts)
      (fun _ => Ended True sb (Tight (others pins refs) s cwd) s pins refs) s := by
  refine wp_bind.mpr (hold_namei h hcwd (fun _ => id) fun ip s1 hip h1 _ => ?_)
  refine wp_bind.mpr (h1.ilock hip fun s2 h2 _ => wp_bind.mpr (wp_lift.mpr ?_))
  apply hold_readAll h2.toInHand h2.headValid
  exact h2.iunlockput (by simp) fun s3 h3 => h3.ended (by simp)

end Xv6.Blocks
