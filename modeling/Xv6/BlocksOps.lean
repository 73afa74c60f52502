import Xv6.BlocksTrunc

/-!
**Reading files and directories**, from any `Sound` state.

Every panic but one is allowed for here, so that the results cover the runs of any file system
whose blocks are in order; the one that is not allowed is "freeing free block".
-/

namespace Xv6.Blocks

open Program

def harmless (msg : String) : Prop := msg ≠ "freeing free block"

instance (msg : String) : Decidable (harmless msg) :=
  inferInstanceAs (Decidable (msg ≠ "freeing free block"))

theorem Sound.recache {s s' : Fs} (h : Sound s) (hsb : s'.sb = s.sb) (hblk : s'.blk = s.blk)
    (hcache : ∀ i, (s'.icache i).valid = true → Live s.sb s.dinode i ∧ s'.copy i = s.dinode i) :
    Sound s' := by
  have hdinode := dinode_congr hsb hblk
  refine ⟨?_, ?_, ?_⟩
  · rw [hsb, hblk, hdinode]
    exact h.owned
  · rw [hsb, hblk, hdinode]
    exact h.mapped
  · rw [hsb, hdinode]
    exact hcache

/-! ### Reading -/

theorem Mapped.size_le {blk : Nat → Block} {d : Dinode} (h : Mapped blk d) :
    d.size.toNat ≤ MAXFILE * BSIZE := by
  by_contra hlt
  have hbn := h MAXFILE (lt_blocksOf.mpr (by omega))
  exact Nat.lt_irrefl _ hbn.1

section

variable {s : Fs} {ip : Nat}

theorem wp_readAny {Q : Int × List UInt8 → Fs → Prop} {devsw : Nat → Option (Int × List UInt8)}
    {off n : Nat} (h : Sound s) (hvalid : (s.icache ip).valid = true) (hoff : off < 2 ^ 32)
    (hn : n < 2 ^ 32) (hQ : ∀ r, Q r s) : wp harmless (readi devsw ip off n) Q s := by
  by_cases hdev : (s.dinode ip).type = T_DEV
  · rw [readi, wp_bind, wp_reads, (h.cached ip hvalid).2, if_pos hdev]
    exact hQ _
  · exact wp_readi h hvalid hdev hoff hn (fun _ => hQ _) fun _ _ => hQ _

end

/-! ### Directories -/

def direntAt (s : Fs) (dp off : Nat) : List UInt8 :=
  (List.range 16).map fun i => fileByte s.blk (s.dinode dp) (off + i)

/-- The entry at `off` of the directory has this name and this inode number. -/
def Names (s : Fs) (dp : Nat) (name : List UInt8) (off inum : Nat) : Prop :=
  off % 16 = 0 ∧ off + 16 ≤ (s.dinode dp).size.toNat ∧ direntInum (direntAt s dp off) = inum ∧
    inum ≠ 0 ∧ nameOf ((direntAt s dp off).drop 2) = nameOf name

variable {s : Fs} {dp : Nat}

theorem wp_readEntry {Q : List UInt8 → Fs → Prop} {msg : String} {off : Nat} (h : Sound s)
    (hvalid : (s.icache dp).valid = true) (hdir : (s.dinode dp).type = T_DIR)
    (hoff : off < 2 ^ 32) (hmsg : harmless msg)
    (hQ : off + 16 ≤ (s.dinode dp).size.toNat → Q (direntAt s dp off) s) :
    wp harmless (readEntry msg dp off) Q s := by
  have hdev : (s.dinode dp).type ≠ T_DEV := by rw [hdir]; decide
  rw [readEntry, wp_bind]
  apply wp_readi h hvalid hdev hoff (by decide)
  · intro _
    exact hmsg
  intro _ _
  by_cases hfull : off + 16 ≤ (s.dinode dp).size.toNat
  · have hmin : min 16 ((s.dinode dp).size.toNat - off) = 16 := by omega
    simp only [hmin]
    exact hQ hfull
  · have hne : ((min 16 ((s.dinode dp).size.toNat - off) : Nat) : Int) ≠ 16 := by omega
    simp only [if_pos hne]
    exact hmsg

theorem wp_scanEntries {msg : String} {found : List UInt8 → Bool} (h : Sound s)
    (hvalid : (s.icache dp).valid = true) (hdir : (s.dinode dp).type = T_DIR)
    (hmsg : harmless msg) :
    ∀ {n off : Nat} {Q : Nat × Option (List UInt8) → Fs → Prop}, off % 16 = 0 →
      off ≤ MAXFILE * BSIZE + 16 →
      (∀ off' r, off' % 16 = 0 → off' ≤ MAXFILE * BSIZE + 16 → (∀ de, r = some de →
        off' + 16 ≤ (s.dinode dp).size.toNat ∧ de = direntAt s dp off' ∧ found de = true) →
          Q (off', r) s) →
      wp harmless (scanEntries msg dp found n off) Q s := by
  obtain ⟨hlive, hcopy⟩ := h.cached dp hvalid
  have hsize := (h.mapped dp hlive).size_le
  have hmaxb : MAXFILE * BSIZE = 71680 := rfl
  intro n
  induction n with
  | zero =>
    intro off Q halign hle hQ
    exact hQ off none halign hle fun _ hde => nomatch hde
  | succ n ih =>
    intro off Q halign hle hQ
    rw [scanEntries, wp_bind, wp_reads, hcopy]
    obtain hlt | hge := Nat.lt_or_ge off (s.dinode dp).size.toNat
    · rw [if_pos hlt, wp_bind]
      apply wp_readEntry h hvalid hdir (by omega) hmsg
      intro hfull
      by_cases hfound : found (direntAt s dp off) = true
      · rw [if_pos hfound]
        apply hQ off _ halign hle
        intro de hde
        cases hde
        exact ⟨hfull, rfl, hfound⟩
      · rw [if_neg hfound]
        exact ih (by omega) (by omega) hQ
    · rw [if_neg hge.not_gt]
      exact hQ off none halign hle fun _ hde => nomatch hde

theorem wp_isdirempty {Q : Bool → Fs → Prop} (h : Sound s) (hvalid : (s.icache dp).valid = true)
    (hdir : (s.dinode dp).type = T_DIR) (hQ : ∀ b, Q b s) : wp harmless (isdirempty dp) Q s := by
  rw [isdirempty, wp_bind, entries, wp_reads, wp_bind]
  apply wp_scanEntries h hvalid hdir (by decide) rfl (by decide)
  exact fun _ _ _ _ _ => hQ _

theorem wp_isBusy {Q : Bool → Fs → Prop} (h : Sound s) (hvalid : (s.icache dp).valid = true)
    (hQ : ∀ b, Q b s) : wp harmless (isBusy dp) Q s := by
  rw [isBusy, wp_bind, wp_reads, (h.cached dp hvalid).2]
  by_cases hdir : (s.dinode dp).type = T_DIR
  · rw [if_pos hdir, wp_bind]
    exact wp_isdirempty h hvalid hdir fun empty => hQ (!empty)
  · rw [if_neg hdir]
    exact hQ false

instance (s : Fs) (dp : Nat) (name : List UInt8) (off inum : Nat) :
    Decidable (Names s dp name off inum) :=
  inferInstanceAs (Decidable (_ ∧ _))

end Xv6.Blocks
