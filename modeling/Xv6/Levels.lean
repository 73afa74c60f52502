import Xv6.BlocksOps
import Xv6.Directory
import Xv6.FsTreeCalls
import Xv6.SideBySide

/-!
**The file system at four levels.**

`Blocks` keeps files in blocks of the disk, `Icache` as bytes behind the slots of a cache, and
`Fs` as entries behind inode numbers; `Directory` is one directory of those bytes, with names as
C strings. Each reads and writes what the next one says:

  * `readi` of `Blocks` is that of `Icache` on the bytes of the file, and its loops over entries
    are the scan of `Icache` (`Backs`); `writei` is that of an array of bytes
    (`files_refine_arrays`);
  * the loops of `Directory` are the same scan (`stays_lookupLoop`, `stays_emptyLoop`);
  * what `Icache` finds and writes in the bytes of a directory is what `Fs` does in the list of its
    entries (`view`).
-/

namespace Xv6.Levels

open Program List Directory
open Icache (Dinode DIRENTSZ direntOf scanDir)
open Fs (Dirent Name)

variable {d d' : Dinode} {i off n : Nat}

/-! ### Bytes and entries -/

/-- An inode as `Fs` has it. -/
def view (d : Dinode) : Fs.Inode where
  type := d.type
  major := d.major
  minor := d.minor
  nlink := d.nlink
  ents := entries direntOf d

/-- `dirlookup`'s loop finds the entry with the name. -/
theorem findEntry_view (h : Whole d) (name : Name) : Icache.findEntry d name =
    match (view d).lookup name with
    | some i => .found (DIRENTSZ * i) ((view d).entry i)
    | none => .ended d.size := scan_eq h fun de => de.inum ≠ 0 ∧ de.name = name

/-- `dirlink`'s loop finds the place for a new entry. -/
theorem emptyDirent_view (h : Whole d) :
    Icache.emptyDirent d = some (DIRENTSZ * (view d).emptySlot) := by
  refine Eq.trans ?_ (scan_free h some none)
  rw [Icache.emptyDirent, Icache.scanFrom]
  split <;> simp only [*, answer]

theorem isdirempty_view (h : Whole d) : Icache.isdirempty d = some (Fs.isdirempty (view d)) := by
  have hnone : Fs.isdirempty (view d) =
      (((view d).ents.drop 2).findIdx? fun de => decide (de.inum ≠ 0)).isNone := by
    simp [Fs.isdirempty, findIdx?_isNone]
  rw [Icache.isdirempty, Icache.scanFrom, Nat.mul_comm, scanDir_eq h _ _ _ (by omega), hnone, view]
  cases ((entries direntOf d).drop 2).findIdx? fun de => decide (de.inum ≠ 0) with
  | none | some => rfl

/-- **A path** leads to the same inode. -/
theorem follow_view {disk : Nat → Dinode} (h : ∀ i, (disk i).type = .T_DIR → Whole (disk i))
    (parent : Bool) (names : List Name) (i : Nat) : Icache.follow disk parent names i =
      Fs.resolve (fun j => view (disk j)) parent names i := by
  induction names generalizing i with
  | nil => rfl
  | cons name rest ih =>
    by_cases hdir : (disk i).type = .T_DIR
    · have hview : (view (disk i)).type = .T_DIR := hdir
      rw [Icache.follow, Fs.resolve, findEntry_view (h i hdir)]
      simp only [hdir, hview]
      cases (view (disk i)).lookup name <;> simp [ih]
    · exact (if_pos hdir).trans (if_pos hdir).symm

/-- **Writing an entry** writes its bytes. -/
theorem view_writei {de : List UInt8} (h : Whole d) (hi : i ≤ d.size / DIRENTSZ)
    (hde : de.length = DIRENTSZ) (hwrite : d.writei (DIRENTSZ * i) de = some d') :
    view d' = (view d).write i (direntOf de) := by
  have hents := (entries_writei (f := direntOf) h hi hde hwrite).2
  obtain ⟨-, -, rfl⟩ := Icache.Dinode.writei_eq_some.mp hwrite
  exact congrArg (Fs.Inode.mk _ _ _ _) hents

/-! ### Blocks and bytes -/

theorem direntInum_eq (de : List UInt8) : Blocks.direntInum de = (direntOf de).inum.toNat :=
  (toNat_bytes _ _).symm

theorem nameOf_eq (de : List UInt8) : Blocks.nameOf (de.drop 2) = (direntOf de).name.val := by
  refine (take_of_length_le ?_).symm
  exact (takeWhile_sublist _).length_le.trans (length_take_le _ _)

/-- The blocks of the cached inode `ip` hold the bytes of `d`. -/
structure Backs (s : Blocks.Fs) (ip : Nat) (d : Dinode) : Prop where
  sound : Blocks.Sound s
  valid : (s.icache ip).valid = true
  type : (s.dinode ip).type ≠ Blocks.T_DEV
  data : d.data = Blocks.contents s ip

section

variable {s : Blocks.Fs} {ip : Nat} {src : Nat → UInt8} (h : Backs s ip d)
include h

theorem Backs.size : d.size = (s.dinode ip).size.toNat := by
  simp [Dinode.size, h.data, Blocks.contents]

theorem Backs.readi (hoff : off < 2 ^ 32) (hn : n < 2 ^ 32)
    (devsw : Nat → Option (Int × List UInt8)) :
    exec (Blocks.readi devsw ip off n) [] s = .done (d.readi off n) s := by
  rw [Blocks.exec_readi h.sound h.valid h.type hoff hn, Dinode.readi, h.size, h.data]
  split
  · rfl
  have hmin : (if (s.dinode ip).size.toNat < off + n then (s.dinode ip).size.toNat - off else n) =
      min n ((s.dinode ip).size.toNat - off) := by
    split <;> omega
  simp only [hmin]

/-- **The loops over the entries** are the scan of `Icache`. -/
theorem Backs.scan {α : Type} {msg : String} {found : List UInt8 → Bool} (wanted : Dirent → Bool)
    (hfound : ∀ de, found de = wanted (direntOf de)) (off : Nat)
    (f : Nat × Option (List UInt8) → Prog Blocks.Fs Empty Empty α) :
    exec (do
      let n ← Blocks.entries ip
      let r ← Blocks.scanEntries msg ip found n off
      f r) [] s =
      answer (fun off _ => exec (f (off, some (d.readi off DIRENTSZ).2)) [] s)
        (fun off => exec (f (off, none)) [] s) (.panic msg) (Icache.scanFrom d wanted off) := by
  obtain ⟨hlive, hcopy⟩ := h.sound.cached ip h.valid
  have hmax : d.size ≤ MAXFILE * BSIZE := h.size ▸ (h.sound.mapped ip hlive).size_le
  change exec (Blocks.scanEntries msg ip found ((s.copy ip).size.toNat / 16 + 1) off >>= f) [] s = _
  rw [hcopy, ← h.size]
  refine eq_answer (F := fun n off => exec (Blocks.scanEntries msg ip found n off >>= f) [] s)
    (fun _ => rfl) (fun n off => ?_) _ off
  change exec ((if off < (s.copy ip).size.toNat then _ else _) >>= f) [] s = _
  rw [hcopy, ← h.size]
  by_cases hin : off < d.size
  · have hlt : off < 2 ^ 32 := (hin.trans_le hmax).trans (by decide)
    rw [if_pos hin, if_pos hin, exec_bind, exec_bind, Blocks.readEntry, exec_bind,
      h.readi hlt (by decide)]
    change ((exec (if (d.readi off DIRENTSZ).1 ≠ DIRENTSZ then _ else _) [] s).andThen _).andThen _
      = _
    split
    · rfl
    · change (exec (if found (d.readi off DIRENTSZ).2 then _ else _) [] s).andThen _ = _
      rw [hfound]
      split
      · rfl
      · exact (exec_bind ..).symm
  · rw [if_neg hin, if_neg hin]
    rfl

theorem Backs.isdirempty (hwhole : Whole d) :
    exec (Blocks.isdirempty ip) [] s = .done (Fs.isdirempty (view d)) s := by
  have hview := isdirempty_view hwhole
  refine (h.scan (fun de => de.inum ≠ 0) (fun de => ?_) (2 * DIRENTSZ) _).trans ?_
  · simp [direntInum_eq, ← UInt16.toNat_inj]
  unfold Icache.isdirempty at hview
  split at hview <;> rename_i hscan
  · cases hview
  · rw [hscan, ← Option.some.inj hview]
    rfl
  · rw [hscan, ← Option.some.inj hview]
    rfl

/-- **`dirlookup`** of the blocks takes the entry with the name. -/
theorem Backs.dirlookup {name : Name} {bytes : List UInt8} (hdir : (s.copy ip).type = Blocks.T_DIR)
    (hwhole : Whole d) (hname : Blocks.nameOf bytes = name.val) :
    exec (Blocks.dirlookup ip bytes) [] s =
      match (view d).lookup name with
      | none => .done none s
      | some i => exec (do
          Blocks.iget ((view d).entry i).inum.toNat
          pure (some (((view d).entry i).inum.toNat, DIRENTSZ * i))) [] s := by
  change exec (if (s.copy ip).type ≠ Blocks.T_DIR then _ else _) [] s = _
  rw [if_neg (not_not.mpr hdir)]
  refine (h.scan (fun de => de.inum ≠ 0 ∧ de.name = name) (fun de => ?_) 0 _).trans ?_
  · simp [direntInum_eq, nameOf_eq, hname, ← UInt16.toNat_inj, Subtype.ext_iff]
  change answer _ _ _ (Icache.findEntry d name) = _
  rw [findEntry_view hwhole name]
  cases hfound : (view d).lookup name with
  | none => rfl
  | some i =>
    have hi : i < d.size / DIRENTSZ := by
      simpa [view, entries] using (findIdx?_eq_some_iff_getElem.mp hfound).1
    have hinum : Blocks.direntInum (d.readi (DIRENTSZ * i) DIRENTSZ).2 =
        ((view d).entry i).inum.toNat := by
      rw [direntInum_eq, readi_entry hwhole hi, ← getD_entries hi]
      rfl
    simp only [← hinum]
    rfl

end

end Xv6.Levels
