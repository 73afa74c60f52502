import Xv6.BlocksPaths
import Xv6.Transition

/-!
**The inode cache is write-through, and every transaction fits the log.**

Transactions run one at a time, from any file system in order: `bmap` changes `ip->addrs` in
memory only, but no call returns before `writei` has stored the inode, so at the end of each
transaction every valid entry of the cache is a copy of its dinode.
-/

namespace Xv6.Blocks

open Program Transition List Function
open Xv6.Fs (O_CREATE)

/-! ### One transaction -/

section

variable {sb : Superblock} {pins : List OpenFile} {refs : List Nat} {s : Fs} {f : OpenFile}

theorem hold_fileread {devsw : Nat → Option (Int × List UInt8)} {off n : Nat}
    {Q : Int × List UInt8 → Fs → Prop} (h : InHand True sb pins refs s) (hf : f ∈ pins)
    (hoff : off < 2 ^ 32) (hn : n < 2 ^ 32) (hQ : ∀ r, Q r s) :
    wp harmless (fileread devsw f.ip off n) Q s := by
  have hvalid := (h.valid f hf).1
  rw [fileread, wp_bind]
  apply hold_relock hvalid
  rw [wp_bind, wp_lift]
  apply wp_readAny h.sound hvalid hoff hn
  intro r
  rw [wp_bind]
  exact hold_iunlock (hQ r)

theorem hold_filestat {Q : Dinode → Fs → Prop} (h : InHand True sb pins refs s) (hf : f ∈ pins)
    (hQ : ∀ d, Q d s) : wp harmless (filestat f.ip) Q s := by
  rw [filestat, wp_bind]
  apply hold_relock (h.valid f hf).1
  rw [wp_bind, wp_reads, wp_bind]
  exact hold_iunlock (hQ _)

theorem spanned_filewrite (off n : Nat) : spanned off (min n filewriteMax.toNat) ≤ 4 := by
  have hbsize : BSIZE = 512 := rfl
  have hmax : filewriteMax.toNat = 1536 := rfl
  unfold spanned
  rw [hbsize]
  split <;> omega

theorem hold_filewrite {devsw : Nat → Option Int} {src : Nat → UInt8} {off n : Nat}
    {Q : Int → Fs → Prop} (h : InHand True sb pins refs s) (hf : f ∈ pins) (hw : f.writable = true)
    (hoff : off < 2 ^ 32) (hQ : ∀ r s', InHand True sb pins refs s' → Uses sb {f.ip} 8 s s' → Q r s') :
    wp harmless (filewrite devsw f.ip src off n) Q s := by
  have hmax : filewriteMax.toNat = 1536 := rfl
  obtain ⟨hvalid, hfile⟩ := h.valid f hf
  rw [filewrite, wp_bind]
  apply hold_relock hvalid
  rw [wp_bind, wp_lift]
  apply hold_writei h hvalid hoff (by omega)
  · exact fun _ hdir => absurd hdir (hfile hw)
  intro r s' h' huses
  rw [wp_bind]
  apply hold_iunlock
  apply hQ r s' h'
  apply huses.mono (Finset.Subset.refl _)
  have hfour := spanned_filewrite off n
  omega

end

/-- No lookup frees an inode on its way: what it can come to is free, has links, or is open
or somebody's directory. -/
def Orderly (t : Tables) (s : Fs) : Prop :=
  ∀ cwd ∈ t.cwds, Tight (others t.files t.cwds) s cwd

/-- What a transaction leaves. -/
structure After (sb : Superblock) (t : Tables) (s : Fs) (t' : Tables) (s' : Fs) : Prop where
  inHand : InHand True sb t'.files t'.cwds s'
  cwds : ∀ i ∈ t'.cwds, Numbered sb i
  costs : Orderly t s → Costs sb 9 s s'

section

variable {sb : Superblock} {t : Tables} {s s' : Fs} {i : Nat}

theorem Uses.costs (h : Uses sb {i} 0 s s') : Costs sb 9 s s' := ⟨{i}, 0, by simp, h⟩

/-- **Every transaction** leaves the file system in order. -/
theorem hold_run {c : Transaction} (h : InHand True sb t.files t.cwds s)
    (hcwds : ∀ i ∈ t.cwds, Numbered sb i) (hc : c.Allowed t) :
    wp harmless (c.run t) (fun t' s' => After sb t s t' s') s := by
  -- the tables stay
  have hsame : ∀ {cwd s'}, cwd ∈ t.cwds →
      Ended True sb (Tight (others t.files t.cwds) s cwd) s t.files t.cwds s' → After sb t s t s' :=
    fun hcwd h' => ⟨h'.toInHand, hcwds, fun ho => h'.costs (ho _ hcwd)⟩
  have hstill : After sb t s t s := ⟨h, hcwds, fun _ => (Still.refl s).costs sb 9⟩
  -- the caller's directory, and those of the others
  have hfront : ∀ {cwd}, cwd ∈ t.cwds → t.cwds.Perm (cwd :: t.cwds.erase cwd) :=
    perm_cons_erase
  have hrest : ∀ {cwd}, ∀ i ∈ t.cwds.erase cwd, Numbered sb i := fun i hi =>
    hcwds i (mem_of_mem_erase hi)
  have hcons : ∀ {i l}, Numbered sb i → (∀ j ∈ l, Numbered sb j) → ∀ j ∈ i :: l, Numbered sb j :=
    fun hi hl => forall_mem_cons.mpr ⟨hi, hl⟩
  cases c with
  | SYS_link cwd => exact wp_bind.mpr (wp_mono (hold_sysLink h (hcwds cwd hc)) fun _ s' => hsame hc)
  | SYS_unlink cwd =>
    exact wp_bind.mpr (wp_mono (hold_sysUnlink h (hcwds cwd hc)) fun _ s' => hsame hc)
  | SYS_open cwd =>
    rw [Transaction.run, wp_bind]
    apply hold_sysOpen h (hcwds cwd hc)
    · exact fun s' => hsame hc
    · exact fun ip s' h' => ⟨h'.toInHand, hcwds, fun ho => h'.costs (ho cwd hc)⟩
  | SYS_mkdir cwd | SYS_mknod cwd =>
    exact wp_bind.mpr (wp_mono (hold_sysCreate h (hcwds cwd hc)) fun _ s' => hsame hc)
  | SYS_chdir cwd =>
    have hheld : others t.files (cwd :: t.cwds.erase cwd) = others t.files t.cwds :=
      others_perm (hfront hc)
    rw [Transaction.run, wp_bind]
    apply hold_sysChdir (h.perm (hfront hc)) (hcwds cwd hc)
    · intro s' h'
      rw [hheld] at h'
      exact hsame hc ⟨h'.perm (hfront hc).symm, h'.costs⟩
    · intro ip s' hip h'
      rw [hheld] at h'
      exact ⟨h'.toInHand, hcons hip hrest, fun ho => h'.costs (ho cwd hc)⟩
  | SYS_exec cwd => exact wp_bind.mpr (wp_mono (hold_sysExec h (hcwds cwd hc)) fun _ s' => hsame hc)
  | fileread f devsw off n =>
    rw [Transaction.run, wp_bind]
    exact hold_fileread h hc off.toNat_lt n.toNat_lt fun _ => hstill
  | filewrite f devsw src off =>
    rw [Transaction.run, wp_bind]
    apply hold_filewrite h hc.1 hc.2 off.toNat_lt
    exact fun _ s' h' huses => ⟨h', hcwds, fun _ => ⟨{f.ip}, 8, by simp, huses⟩⟩
  | filestat =>
    rw [Transaction.run, wp_bind]
    exact hold_filestat h hc fun _ => hstill
  | fileclose =>
    rw [Transaction.run, wp_bind]
    apply hold_iput (h.permPins (perm_cons_erase hc)).unpin
    exact fun s' h' huses _ => ⟨h', hcwds, fun _ => huses.costs⟩
  | fork cwd =>
    rw [Transaction.run, wp_bind, wp_lift]
    apply hold_idup h trivial
    exact fun s' h' hstill' => ⟨h', hcons (hcwds cwd hc) hcwds, fun _ => hstill'.costs sb 9⟩
  | exit =>
    rw [Transaction.run, wp_bind]
    apply hold_iput (h.perm (hfront hc))
    exact fun s' h' huses _ => ⟨h', hrest, fun _ => huses.costs⟩

end

/-! ### Runs -/

structure World where
  fs : Fs
  tables : Tables

/-- A file system in order: the bitmap marks exactly the blocks in use, files have no holes below
their size, entries name inodes of the disk, and the tables are covered by the counts of the
cache. What is open for writing is no directory. -/
structure WellFormed (w : World) : Prop where
  partition : Partition w.fs
  named : Named w.fs
  root : Numbered w.fs.sb ROOTINO
  counts : ∀ i, others w.tables.files w.tables.cwds i ≤ (w.fs.icache i).ref
  files : ∀ f ∈ w.tables.files, (w.fs.icache f.ip).valid = true ∧
    (f.writable = true → (w.fs.dinode f.ip).type ≠ T_DIR)
  cwds : ∀ i ∈ w.tables.cwds, Numbered w.fs.sb i

def transactions : System World Transaction where
  init := WellFormed
  step w c :=
    if c.Allowed w.tables then
      match exec (c.run w.tables) [] w.fs with
      | .done t s => some ⟨s, t⟩
      | _ => none
    else none

variable {w : World}

theorem WellFormed.inHand (h : WellFormed w) :
    InHand True w.fs.sb w.tables.files w.tables.cwds w.fs where
  sound := h.partition.sound
  named _ := h.named
  root _ := h.root
  sb := rfl
  counts i _ := h.counts i
  valid := h.files

theorem WellFormed.after {c : Transaction} {t : Tables} {s : Fs} (h : WellFormed w)
    (hc : c.Allowed w.tables) (hexec : exec (c.run w.tables) [] w.fs = .done t s) :
    After w.fs.sb w.tables w.fs t s := by
  have hpost := post_of_done (hold_run h.inHand h.cwds hc) hexec
  exact hpost

theorem After.wellFormed {sb : Superblock} {t t' : Tables} {s s' : Fs}
    (h : After sb t s t' s') : WellFormed ⟨s', t'⟩ where
  partition := h.inHand.sound.partition
  named := h.inHand.named trivial
  root := h.inHand.sb.symm ▸ h.inHand.root trivial
  counts i := h.inHand.counts i (.inl trivial)
  files := h.inHand.valid
  cwds := fun i hi => h.inHand.sb.symm ▸ h.cwds i hi

theorem wellFormed_of_reached (h : transactions.Reached w) : WellFormed w := by
  apply h.invariant
  · exact fun _ hinit => hinit
  intro w c w' hw _ hstep
  obtain ⟨hc, hstep⟩ := Option.ite_none_right_eq_some.mp hstep
  split at hstep
  next hexec =>
    cases hstep
    exact (hw.after hc hexec).wellFormed
  · cases hstep

theorem exec_ilock {s : Fs} {i : Nat} (href : 0 < (s.icache i).ref)
    (hinvalid : (s.icache i).valid = false) (htype : (s.dinode i).type ≠ 0) :
    exec (ilock i) [] s =
      .done () (s.setIncore i { s.icache i with valid := true, copy := s.dinode i }) := by
  have hends : Ends (ilock i) (fun _ _ s' =>
      s' = s.setIncore i { s.icache i with valid := true, copy := s.dinode i }) [] s := by
    rw [ilock, ends_bind, ends_reads, if_neg (by omega), ends_bind, ends_acquire]
    refine ⟨not_mem_nil, ?_⟩
    apply ends_atomic
    · rw [hinvalid, if_neg Bool.false_ne_true, if_neg htype]
    · rfl
  obtain ⟨_, _, s', hexec, rfl⟩ := hends.exec_done
  exact hexec

/-- **The inode cache is write-through.** In every reached state a valid entry is equal to its
dinode, `iupdate` stores one dinode and leaves the others, and an entry that is dropped and
locked again is what it was. -/
theorem icache_write_through (h : transactions.Reached w) :
    (∀ i, 0 < (w.fs.icache i).ref → (w.fs.icache i).valid = true →
      w.fs.copy i = w.fs.dinode i) ∧
    (∀ ip, ∃ s, exec (iupdate ip) [] w.fs = .done () s ∧ s.dinode ip = w.fs.copy ip ∧
      ∀ i, i ≠ ip → s.dinode i = w.fs.dinode i) ∧
    (∀ i, 0 < (w.fs.icache i).ref → (w.fs.icache i).valid = true → ∀ (ref : Int) (junk : Dinode),
      0 < ref → exec (ilock i) [] (w.fs.setIncore i ⟨ref, false, junk⟩) =
        .done () (w.fs.setIncore i ⟨ref, true, w.fs.copy i⟩)) := by
  have hcached := (wellFormed_of_reached h).partition.cached
  refine ⟨fun i _ hvalid => (hcached i hvalid).2, fun ip => ?_, fun i _ hvalid ref junk href => ?_⟩
  · refine ⟨w.fs.stored ip, rfl, w.fs.dinode_stored ip, ?_⟩
    exact fun i hi => w.fs.dinode_stored_of_ne hi
  obtain ⟨hlive, hcopy⟩ := hcached i hvalid
  rw [exec_ilock]
  · simp only [Fs.setIncore, update_self, update_idem, hcopy]
    rfl
  · simp only [Fs.setIncore, update_self]
    exact href
  · simp only [Fs.setIncore, update_self]
  · exact hlive.2

def newWorld : World := ⟨newfs, ⟨[], [ROOTINO]⟩⟩

theorem newfs_empty {i : Nat} (h : Live newfs.sb newfs.dinode i) :
    i = ROOTINO ∧ (newfs.dinode i).size = 0 := by
  have hall : ∀ i < 8, (newfs.dinode i).type ≠ 0 → i = ROOTINO := by decide +kernel
  have hroot : (newfs.dinode ROOTINO).size = 0 := by decide +kernel
  have hi := hall i h.1.2 h.2
  exact ⟨hi, hi ▸ hroot⟩

theorem wellFormed_newWorld : WellFormed newWorld := by
  refine ⟨partition_newfs, ?_, by decide, fun i => ?_, fun f hf => absurd hf not_mem_nil, ?_⟩
  · intro dp hlive _ off _ hin
    have hsize : (newfs.dinode dp).size = 0 := (newfs_empty hlive).2
    rw [show newWorld.fs = newfs from rfl, hsize] at hin
    exact absurd hin (by simp)
  · by_cases hi : i = ROOTINO
    · subst hi
      decide
    have hnot : (newWorld.tables.cwds).count i = 0 :=
      count_eq_zero.mpr fun hmem => hi (mem_singleton.mp hmem)
    have href : (newWorld.fs.icache i).ref = 0 := if_neg hi
    rw [others, hnot, href]
    rfl
  · intro i hi
    rw [mem_singleton.mp hi]
    decide

/-- A file is made, written and removed while it is open. -/
def openWriteUnlink : List Transaction :=
  [.SYS_open ROOTINO [97] (O_CREATE ||| O_RDWR) true,
    .filewrite ⟨2, true⟩ (fun _ => none) (fun _ => 65) 0 3, .SYS_unlink ROOTINO [97]]

theorem icache_write_through_newfs :
    ∃ w, transactions.run (fun _ _ => True) newWorld openWriteUnlink = some w ∧
      (w.fs.copy 2).nlink = 0 ∧ (w.fs.copy 2).size = 3 ∧ w.fs.copy 2 = w.fs.dinode 2 := by
  have hok : (transactions.run (fun _ _ => True) newWorld openWriteUnlink).any (fun w =>
      decide (0 < (w.fs.icache 2).ref ∧ (w.fs.icache 2).valid = true ∧
        (w.fs.copy 2).nlink = 0 ∧ (w.fs.copy 2).size = 3)) = true := by
    decide +kernel
  rcases hrun : transactions.run (fun _ _ => True) newWorld openWriteUnlink with _ | w
  · rw [hrun] at hok
    cases hok
  rw [hrun, Option.any_some, decide_eq_true_eq] at hok
  obtain ⟨href, hvalid, hnlink, hsize⟩ := hok
  have hinit : transactions.Reached newWorld := .init wellFormed_newWorld
  exact ⟨w, rfl, hnlink, hsize, (icache_write_through (hinit.run _ hrun)).1 2 href hvalid⟩

/-- **Every transaction fits the log.** -/
theorem transactions_fit_log (h : WellFormed w) (ho : Orderly w.tables w.fs)
    (hsmall : w.fs.sb.size ≤ BPB) (c : Transaction) (hc : c.Allowed w.tables) (t : Tables) (s : Fs)
    (hexec : exec (c.run w.tables) [] w.fs = .done t s) :
    ∃ new, s.logged = w.fs.logged ++ new ∧ new.toFinset.card ≤ MAXOPBLOCKS := by
  obtain ⟨I, k, hcard, huses⟩ := (h.after hc hexec).costs ho
  obtain ⟨new, hlogged, hle⟩ := huses.card_le hsmall
  have hmax : MAXOPBLOCKS = 10 := rfl
  exact ⟨new, hlogged, by omega⟩

theorem orderly_newWorld : Orderly newWorld.tables newWorld.fs := by
  have hroot : ∀ i, Reaches newfs ROOTINO i → i = ROOTINO := by
    intro i hi
    cases hi with
    | root | cwd => rfl
    | entry _ hlive _ _ hin =>
      rw [(newfs_empty hlive).2] at hin
      exact absurd hin (by simp)
  intro cwd hcwd i hi
  rw [mem_singleton.mp hcwd] at hi
  rw [hroot i hi]
  exact .inr (.inl (by decide +kernel))

/-- A directory in the root. -/
theorem transactions_fit_log_newfs :
    ∃ t s, exec (Transaction.run newWorld.tables (.SYS_mkdir ROOTINO [100])) [] newWorld.fs =
        .done t s ∧ ∃ new, s.logged = newWorld.fs.logged ++ new ∧
          new.toFinset.card ≤ MAXOPBLOCKS := by
  have hok : (exec (Transaction.run newWorld.tables (.SYS_mkdir ROOTINO [100])) []
      newWorld.fs).ends (fun _ _ => true) = true := by
    decide +kernel
  obtain ⟨t, s, hexec, -⟩ := Outcome.ends_iff.mp hok
  exact ⟨t, s, hexec, transactions_fit_log wellFormed_newWorld orderly_newWorld (by decide)
    (.SYS_mkdir ROOTINO [100]) (by decide) t s hexec⟩

end Xv6.Blocks
