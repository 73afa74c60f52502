import Xv6.BlocksPaths
import Xv6.Transition

/-!
**The operations on files keep every block owned once.**

From a `Sound` state every operation of `fs.c` on files leads to a `Sound` one, whatever the
counts in the cache and the entries of the directories are: a reference that is in hand is
there because the inode has been locked (`Sound.borrow`). No operation frees a free block
(`blocks_owned_once`).
-/

namespace Xv6.Blocks

open Program Transition

/-- The operations. Those on the content of an inode lock it first. -/
inductive Op where
  | iget (i : Nat)
  | ialloc (type : UInt16)
  | readi (devsw : Nat → Option (Int × List UInt8)) (i : Nat) (off n : UInt32)
  | writei (devsw : Nat → Option Int) (i : Nat) (src : Nat → UInt8) (off n : UInt32)
  | itrunc (i : Nat)
  | iput (i : Nat)
  | dirlookup (dp : Nat) (name : List UInt8)
  | dirlink (dp : Nat) (name : List UInt8) (inum : Nat)
  | unlink (dp : Nat) (name : List UInt8)

/-- `ilock(ip); f(ip); iunlock(ip)`. -/
def locking {α : Type} (i : Nat) (f : Iprog α) : Iprog Unit := do
  ilock i
  let _ ← f
  iunlock i

def Op.run : Op → Iprog Unit
  | .iget i => (Blocks.iget i).lift
  | .ialloc type => do
      let _ ← (Blocks.ialloc type).lift
      pure ()
  | .readi devsw i off n => locking i (Blocks.readi devsw i off.toNat n.toNat).lift
  | .writei devsw i src off n => locking i (Blocks.writei devsw i src off.toNat n.toNat).lift
  | .itrunc i => locking i (Blocks.itrunc i).lift
  | .iput i => Blocks.iput i
  | .dirlookup dp name => locking dp (Blocks.dirlookup dp name).lift
  | .dirlink dp name inum => locking dp (Blocks.dirlink dp name inum)
  | .unlink dp name => do
      let _ ← Blocks.unlink dp name
      pure ()

/-- What the callers promise: the inodes that are locked are inodes of the disk. -/
def Op.onDisk (s : Fs) : Op → Prop
  | .iget _ | .ialloc _ | .iput _ => True
  | .readi _ i _ _ | .writei _ i _ _ _ | .itrunc i | .dirlookup i _ | .dirlink i _ _ =>
      Numbered s.sb i
  | .unlink dp name => Numbered s.sb dp ∧ ∀ off < (s.dinode dp).size.toNat,
      Names s dp name off (direntInum (direntAt s dp off)) →
        Numbered s.sb (direntInum (direntAt s dp off))

instance (s : Fs) (op : Op) : Decidable (op.onDisk s) := by
  cases op <;> unfold Op.onDisk <;> infer_instance

def blockOps : System Fs Op where
  init := Partition
  step s op :=
    match exec op.run [] s with
    | .done _ s' => some s'
    | _ => none

variable {s : Fs} {i : Nat}

theorem covered_nil : Covered False [] [] s := fun _ hi => absurd hi (by simp [others])

theorem Sound.inHand (h : Sound s) : InHand False s.sb [] [] s where
  sound := h
  named := False.elim
  root := False.elim
  sb := rfl
  counts := covered_nil
  valid := nofun

theorem Sound.borrow (h : Sound s) (href : 1 ≤ (s.icache i).ref) :
    InHand False s.sb [] [i] s := by
  refine { h.inHand with counts := fun j hj => ?_ }
  by_cases hji : j = i
  · subst hji
    simpa [others] using href
  · simp [others, Ne.symm hji] at hj

theorem wp_lock {α : Type} {g : Unit → Iprog α} {Q : α → Fs → Prop}
    (hQ : 1 ≤ (s.icache i).ref → wp harmless (ilock i >>= g) Q s) :
    wp harmless (ilock i >>= g) Q s := by
  by_cases href : (s.icache i).ref < 1
  · rw [wp_bind, ilock, wp_bind, wp_reads, if_pos href]
    exact (by decide : harmless "ilock")
  · exact hQ (by omega)

theorem wp_locking {α : Type} {f : Iprog α} (h : Sound s) (hi : Numbered s.sb i)
    (hf : ∀ s', InHand False s.sb [⟨i, false⟩] [] s' → wp harmless f (fun _ => Sound) s') :
    wp harmless (locking i f) (fun _ => Sound) s := by
  apply wp_lock
  intro href
  rw [wp_bind]
  apply hold_ilock (h.borrow href) hi
  intro s1 h1 _ _
  rw [wp_bind]
  exact wp_mono (hf s1 h1) fun _ s2 hsound => hold_iunlock hsound

/-- **Every operation** keeps the blocks in order, and frees no free block. -/
theorem wp_op {op : Op} (h : Sound s) (hop : op.onDisk s) :
    wp harmless op.run (fun _ => Sound) s := by
  cases op with
  | iget => exact wp_lift.mpr (hold_iget h.inHand fun s' h' _ => h'.sound)
  | ialloc =>
    rw [Op.run, wp_bind, wp_lift]
    exact hold_ialloc h.inHand fun _ s' _ _ h' _ => h'.sound
  | readi devsw i off n =>
    apply wp_locking h hop
    intro s' h'
    rw [wp_lift]
    exact wp_readAny h'.sound h'.headValid off.toNat_lt n.toNat_lt fun _ => h'.sound
  | writei devsw i src off n =>
    apply wp_locking h hop
    intro s' h'
    rw [wp_lift]
    exact hold_writei h' h'.headValid off.toNat_lt n.toNat_lt False.elim fun _ s'' h'' _ => h''.sound
  | itrunc =>
    apply wp_locking h hop
    intro s' h'
    rw [wp_lift]
    exact wp_itrunc (h'.sound.working h'.headValid) fun s'' hsound _ _ _ _ _ => hsound
  | iput i =>
    by_cases href : 1 ≤ (s.icache i).ref
    · exact hold_iput (h.borrow href) fun s' h' _ _ => h'.sound
    rw [Op.run, iput, wp_bind, wp_acquire, wp_bind, wp_reads, wp_bind, wp_onlyIf]
    refine ⟨fun hlast => ?_, fun _ => ?_⟩
    · omega
    have hdropped : InHand False s.sb [] [] (s.dropRef i) := by
      apply h.inHand.setIncore
      · exact h.cached i
      · exact fun hvalid _ => hvalid
      · exact covered_nil
    exact hdropped.sound
  | dirlookup =>
    apply wp_locking h hop
    intro s' h'
    rw [wp_lift]
    exact hold_dirlookup h' h'.headValid (fun _ => h'.sound) fun _ _ s'' _ _ _ _ h'' _ => h''.sound
  | dirlink =>
    apply wp_locking h hop
    intro s' h'
    exact hold_dirlink h' h'.headValid False.elim (fun _ s'' h'' _ => h''.sound)
      fun s'' h'' _ => h''.sound
  | unlink dp =>
    rw [Op.run, wp_bind]
    apply wp_lock
    intro href
    have hamid : Amid False s.sb False s [dp] 0 [] [dp] s := ⟨h.borrow href, False.elim⟩
    refine wp_mono (hamid.unlink hop.1 (.inr fun off inum hnames => ?_)) fun _ s' h' => h'.sound
    have hinum : direntInum (direntAt s dp off) = inum := hnames.2.2.1
    rw [← hinum] at hnames ⊢
    exact hop.2 off (by have := hnames.2.1; omega) hnames

theorem sound_of_reachable (h : blockOps.Reachable (fun s op => op.onDisk s) s) : Sound s := by
  apply h.invariant
  · exact fun _ hinit => Partition.sound hinit
  intro s op s' hs hop hstep
  simp only [blockOps] at hstep
  split at hstep
  next heq =>
    cases hstep
    have hpost := post_of_done (wp_op hs hop) heq
    exact hpost
  · cases hstep

/-- **Block ownership.** Whatever operations have been done, the blocks are in order, and no
operation finds a block free that it is about to free. -/
theorem blocks_owned_once (h : blockOps.Reachable (fun s op => op.onDisk s) s) :
    Partition s ∧ ∀ op : Op, op.onDisk s → exec op.run [] s ≠ .panic "freeing free block" := by
  have hsound := sound_of_reachable h
  refine ⟨hsound.partition, fun op hop heq => ?_⟩
  exact harmless_of_panic (wp_op hsound hop) heq rfl

/-- A file is made, named, filled and truncated, and its inode goes with the last reference. -/
theorem blocks_owned_once_newfs :
    ∃ s, blockOps.run (fun s op => op.onDisk s) newfs [.ialloc T_FILE, .dirlink 1 [97] 2,
      .writei (fun _ => none) 2 (fun _ => 65) 0 600, .itrunc 2, .iput 2] = some s ∧ Partition s := by
  have hruns : (blockOps.run (fun s op => op.onDisk s) newfs [.ialloc T_FILE, .dirlink 1 [97] 2,
      .writei (fun _ => none) 2 (fun _ => 65) 0 600, .itrunc 2, .iput 2]).isSome = true := by
    decide +kernel
  obtain ⟨s, hs⟩ := Option.isSome_iff_exists.mp hruns
  have hinit : blockOps.Reachable (fun s op => op.onDisk s) newfs := .init partition_newfs
  exact ⟨s, hs, (blocks_owned_once (hinit.run _ hs)).1⟩

end Xv6.Blocks
