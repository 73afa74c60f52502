import Xv6.CString
import Xv6.Guarded
import Xv6.IcacheFiles
import Xv6.SlotMap

/-!
**One directory, byte by byte**: `namecmp`, `dirlookup` and `dirlink` of `fs.c`, and what
`create`, `sys_link` and `sys_unlink` do to the directory `dp` while they have it locked.

`readi` and `writei` of the directory are those of `Icache`, on the bytes of the file.
Whether `sys_unlink` goes through with an entry it has found depends on the inode named there,
and is an argument. `record` is a list of what was done to the directory and of the
answers given; no execution looks at it.

`slots` reads the bytes as a list of slots (`SlotMap`): writing an entry fills a slot.
-/

namespace Xv6.Directory

open Program SlotMap List
open Icache (Dinode DIRENTSZ direntOf direntBytes scanDir)
open Fs (Name Dirent)

/-! ### The code -/

def namecmp (s t : CStr) : Int := strncmp s t DIRSIZ

def nameAt (de : List UInt8) : CStr := CStr.ofBytes (de.drop 2)

/-- An inode number and the offset of the entry. -/
abbrev Entry := UInt16 × Nat

structure Dir where
  dp : Dinode
  record : List (Event Name Entry)

abbrev Dprog := Prog Dir Empty Empty

def note (e : Event Name Entry) : Dprog Unit :=
  modify fun s => { s with record := s.record ++ [e] }

/-- `readi` of an entry, which must not be short. -/
def readEntry (msg : String) (off : Nat) : Dprog (List UInt8) :=
  atomic fun s =>
    let r := s.dp.readi off DIRENTSZ
    if r.1 ≠ DIRENTSZ then .error msg else .ok (r.2, s)

/-- `writei` of an entry, which must not fail. -/
def writeEntry (msg : String) (off : Nat) (de : List UInt8) (e : Event Name Entry) : Dprog Unit :=
  atomic fun s =>
    match s.dp.writei off de with
    | some d => .ok ((), ⟨d, s.record ++ [e]⟩)
    | none => .error msg

/-- `dirlookup`'s loop at `off`, for at most `n` turns. -/
def lookupLoop (name : CStr) : Nat → Nat → Dprog (Option Entry)
  | 0, _ => pure none
  | n + 1, off => do
      let size ← reads fun s => s.dp.size
      if off < size then do
        let de ← readEntry "dirlookup read" off
        if (direntOf de).inum = 0 then lookupLoop name n (off + DIRENTSZ)
        else if namecmp name (nameAt de) = 0 then pure (some ((direntOf de).inum, off))
        else lookupLoop name n (off + DIRENTSZ)
      else pure none

/-- Enough turns for the loops over the entries. -/
def turns : Dprog Nat := reads fun s => s.dp.size / DIRENTSZ + 1

def dirlookup (name : CStr) : Dprog (Option Entry) := do
  let type ← reads fun s => s.dp.type
  if type ≠ .T_DIR then .panic "dirlookup not DIR"
  else do
    let n ← turns
    let r ← lookupLoop name n 0
    note (.looked (key name) r)
    pure r

/-- `dirlink`'s loop: the first entry not in use, or the end. -/
def emptyLoop : Nat → Nat → Dprog Nat
  | 0, off => pure off
  | n + 1, off => do
      let size ← reads fun s => s.dp.size
      if off < size then do
        let de ← readEntry "dirlink read" off
        if (direntOf de).inum = 0 then pure off else emptyLoop n (off + DIRENTSZ)
      else pure off

/-- `strncpy(de.name, name, DIRSIZ); de.inum = inum;` as bytes. -/
def newEntry (name : CStr) (inum : Nat) : List UInt8 :=
  [(UInt16.ofNat inum).toUInt8, (UInt16.ofNat inum >>> 8).toUInt8] ++ strncpy name DIRSIZ

/-- The inode number in an entry: 0 marks one not in use. -/
def number (inum : UInt16) : Option UInt16 := if inum = 0 then none else some inum

/-- What an entry with this inode number is to `dirlookup`. -/
def stored (inum off : Nat) : Option Entry := (number (UInt16.ofNat inum)).map fun i => (i, off)

def dirlink (name : CStr) (inum : Nat) : Dprog Int := do
  match ← dirlookup name with
  | some _ => do
      note (.refused (key name))
      pure (-1)
  | none => do
      let n ← turns
      let off ← emptyLoop n 0
      writeEntry "dirlink" off (newEntry name inum) (.added (key name) (stored inum off))
      pure 0

/-- `create`: the new inode has the number `inum`. -/
def create (name : CStr) (inum : Nat) : Dprog Unit := do
  match ← dirlookup name with
  | some _ => pure ()
  | none => do
      let r ← dirlink name inum
      if r < 0 then .panic "create: dirlink" else pure ()

def link (name : CStr) (inum : Nat) : Dprog Unit := do
  let _ ← dirlink name inum
  pure ()

/-- `memset(&de, 0, sizeof(de)); writei(dp, (char*)&de, off, sizeof(de))`. -/
def zeroEntry (name : CStr) (off : Nat) : Dprog Unit :=
  writeEntry "unlink: writei" off (List.replicate DIRENTSZ 0) (.removed (key name))

/-- `sys_unlink`; `ok` tells whether the inode that is found may be unlinked. -/
def unlink (name : CStr) (ok : Bool) : Dprog Unit :=
  if namecmp name (CStr.ofBytes [46]) = 0 ∨ namecmp name (CStr.ofBytes [46, 46]) = 0 then pure ()
  else do
    match ← dirlookup name with
    | none => pure ()
    | some (_, off) => if ok then zeroEntry name off else pure ()

inductive Call where
  | create (name : CStr) (inum : Nat)
  | link (name : CStr) (inum : Nat)
  | unlink (name : CStr) (ok : Bool)
  /-- `namex` looks an element up. -/
  | lookup (name : CStr)

/-- What a call does between `ilock(dp)` and `iunlock(dp)`. -/
def Call.body : Call → Dprog Unit
  | .create name inum => Directory.create name inum
  | .link name inum => Directory.link name inum
  | .unlink name ok => Directory.unlink name ok
  | .lookup name => do
      let _ ← dirlookup name
      pure ()

/-! ### The bytes as slots -/

def direntAt (d : Dinode) (off : Nat) : List UInt8 := (d.data.drop off).take DIRENTSZ

/-- What an entry says, if it is in use. -/
def live (de : List UInt8) : Option (Name × UInt16) :=
  (number (direntOf de).inum).map fun i => ((direntOf de).name, i)

/-- What `f` makes of each entry. -/
def entries {α : Type} (f : List UInt8 → α) (d : Dinode) : List α :=
  (List.range (d.size / DIRENTSZ)).map fun i => f (direntAt d (DIRENTSZ * i))

def slots (d : Dinode) : Slots Name UInt16 := entries live d

/-- What the directory has under a name. -/
def entry (d : Dinode) (k : Name) : Option Entry :=
  (find (slots d) k).map fun e => (e.1, DIRENTSZ * e.2)

/-- A directory of whole entries, with room or without. -/
structure Whole (d : Dinode) : Prop where
  type : d.type = .T_DIR
  size : d.size % DIRENTSZ = 0
  fits : d.size ≤ MAXFILE * BSIZE

variable {d d' : Dinode} {i j off : Nat} {de : List UInt8}

theorem Whole.lt_iff (h : Whole d) : DIRENTSZ * i < d.size ↔ i < d.size / DIRENTSZ := by
  have hsize := h.size
  simp only [DIRENTSZ] at hsize ⊢
  omega

theorem getElem?_entries {α : Type} {f : List UInt8 → α} (h : i < d.size / DIRENTSZ) :
    (entries f d)[i]? = some (f (direntAt d (DIRENTSZ * i))) := by
  simp [entries, h]

theorem length_entries {α : Type} {f : List UInt8 → α} :
    (entries f d).length = d.size / DIRENTSZ := by simp [entries]

theorem getElem_entries {α : Type} {f : List UInt8 → α} (h : i < (entries f d).length) :
    (entries f d)[i] = f (direntAt d (DIRENTSZ * i)) := by simp [entries]

theorem getElem?_slots (h : i < d.size / DIRENTSZ) :
    (slots d)[i]? = some (live (direntAt d (DIRENTSZ * i))) := getElem?_entries h

theorem length_slots : (slots d).length = d.size / DIRENTSZ := length_entries

theorem key_nameAt (de : List UInt8) : key (nameAt de) = (direntOf de).name := by
  apply Subtype.ext
  have hlen : (((de.drop 2).take DIRSIZ).takeWhile (· != 0)).length ≤ DIRSIZ :=
    ((takeWhile_sublist _).length_le).trans (length_take_le _ _)
  simp only [key, nameAt, CStr.text_ofBytes, direntOf, Name.ofBytes]
  rw [take_of_length_le hlen]

theorem length_newEntry (name : CStr) (inum : Nat) : (newEntry name inum).length = DIRENTSZ := by
  have hle := CStr.length_text_le name DIRSIZ
  simp only [newEntry, CStr.strncpy_eq, length_append, length_replicate]
  simp only [length_cons, length_nil, DIRENTSZ, DIRSIZ] at hle ⊢
  omega

theorem toNat_bytes (a b : UInt8) :
    (a.toUInt16 ||| (b.toUInt16 <<< 8)).toNat = a.toNat + 256 * b.toNat := by
  have hb := b.toNat_lt
  have hhigh : (b.toUInt16 <<< 8).toNat = 2 ^ 8 * b.toNat := by
    simp [Nat.shiftLeft_eq]
    omega
  rw [UInt16.toNat_or, hhigh, UInt8.toNat_toUInt16, Nat.or_comm,
    ← Nat.two_pow_add_eq_or_of_lt a.toNat_lt, Nat.add_comm]

theorem bytes_inum (i : UInt16) : i.toUInt8.toUInt16 ||| ((i >>> 8).toUInt8.toUInt16 <<< 8) = i := by
  have hlt := i.toNat_lt
  rw [← UInt16.toNat_inj, toNat_bytes]
  simp [Nat.shiftRight_eq_div_pow]
  omega

theorem live_newEntry (name : CStr) (inum : Nat) :
    live (newEntry name inum) = (number (UInt16.ofNat inum)).map fun i => (key name, i) := by
  have hinum : (direntOf (newEntry name inum)).inum = UInt16.ofNat inum := bytes_inum _
  have hname : (direntOf (newEntry name inum)).name = key name := by
    rw [← key_nameAt]
    apply key_inj.mpr
    have hdrop : (newEntry name inum).drop 2 = strncpy name DIRSIZ := rfl
    have hlen := CStr.length_text_le name DIRSIZ
    have hbytes : ∀ b ∈ CStr.text name DIRSIZ, (b != 0) = true := by
      intro b hb
      rw [bne_iff_ne]
      rintro rfl
      exact CStr.zero_notMem_text name DIRSIZ hb
    rw [nameAt, hdrop, CStr.text_ofBytes, CStr.strncpy_eq, take_append,
      take_of_length_le hlen, takeWhile_append_of_pos hbytes]
    simp
  rw [live, hinum, hname]

theorem live_zero : live (List.replicate DIRENTSZ 0) = none := rfl

theorem getElem?_direntAt (x : Nat) :
    (direntAt d off)[x]? = if x < DIRENTSZ then d.data[off + x]? else none := by
  rw [direntAt, List.getElem?_take, List.getElem?_drop]

theorem getElem?_splice {data src : List UInt8} (h : off ≤ data.length) (y : Nat) :
    (Icache.splice data off src)[y]? =
      if off ≤ y ∧ y < off + src.length then src[y - off]? else data[y]? := by
  unfold Icache.splice
  grind

theorem writei_fits {src : List UInt8} (h : d.writei off src = some d') :
    off + src.length ≤ MAXFILE * BSIZE := (Icache.Dinode.writei_eq_some.mp h).2.1

theorem direntAt_writei (hde : de.length = DIRENTSZ) (hwrite : d.writei (DIRENTSZ * i) de = some d')
    (j : Nat) : direntAt d' (DIRENTSZ * j) = if j = i then de else direntAt d (DIRENTSZ * j) := by
  obtain ⟨hoff, -, hdata⟩ := Icache.Dinode.writei_eq hwrite
  apply ext_getElem?
  intro x
  rw [getElem?_direntAt, hdata, getElem?_splice hoff, hde]
  by_cases hj : j = i
  · subst hj
    rw [if_pos rfl]
    by_cases hx : x < DIRENTSZ
    · rw [if_pos hx, if_pos ⟨Nat.le_add_right .., Nat.add_lt_add_left hx _⟩, Nat.add_sub_cancel_left]
    · rw [if_neg hx, List.getElem?_eq_none (hde.trans_le (Nat.not_lt.mp hx))]
  · rw [if_neg hj, getElem?_direntAt]
    by_cases hx : x < DIRENTSZ
    · rw [if_pos hx, if_pos hx, if_neg]
      -- entries do not overlap
      simp only [DIRENTSZ] at hx ⊢
      omega
    · rw [if_neg hx, if_neg hx]

/-- **Writing an entry** fills the place at its offset. -/
theorem entries_writei {α : Type} {f : List UInt8 → α} (h : Whole d) (hi : i ≤ d.size / DIRENTSZ)
    (hde : de.length = DIRENTSZ) (hwrite : d.writei (DIRENTSZ * i) de = some d') :
    Whole d' ∧ entries f d' = put (entries f d) i (f de) := by
  obtain ⟨hoff, htype, hdata⟩ := Icache.Dinode.writei_eq hwrite
  have hfits := writei_fits hwrite
  have hsize : d'.size = max d.size (DIRENTSZ * i + DIRENTSZ) := by
    rw [Dinode.size, hdata, Icache.length_splice hoff, hde]
    rfl
  have hwhole := h.size
  have hmax := h.fits
  rw [hde] at hfits
  simp only [DIRENTSZ] at hsize hwhole hfits hi
  refine ⟨⟨htype.trans h.type, ?_, ?_⟩, ?_⟩
  · simp only [DIRENTSZ]
    omega
  · omega
  apply ext_getElem?
  intro j
  rw [getElem?_put (length_entries.symm ▸ hi)]
  have hcount : j < d'.size / DIRENTSZ ↔ j = i ∨ j < d.size / DIRENTSZ := by
    simp only [DIRENTSZ]
    omega
  by_cases hj : j = i
  · rw [getElem?_entries (hcount.mpr (.inl hj)), direntAt_writei hde hwrite, if_pos hj, if_pos hj]
  rw [if_neg hj]
  by_cases hin : j < d.size / DIRENTSZ
  · rw [getElem?_entries (hcount.mpr (.inr hin)), direntAt_writei hde hwrite, if_neg hj,
      getElem?_entries hin]
  · have hout : ¬ j < d'.size / DIRENTSZ := fun hlt => (hcount.mp hlt).elim hj hin
    rw [List.getElem?_eq_none (length_entries.trans_le (Nat.not_lt.mp hout)),
      List.getElem?_eq_none (length_entries.trans_le (Nat.not_lt.mp hin))]

theorem slots_writei (h : Whole d) (hi : i ≤ (slots d).length) (hde : de.length = DIRENTSZ)
    (hwrite : d.writei (DIRENTSZ * i) de = some d') :
    Whole d' ∧ slots d' = put (slots d) i (live de) :=
  entries_writei h (length_slots ▸ hi) hde hwrite

/-! ### Loops over the entries -/

theorem readi_entry (h : Whole d) (hi : i < d.size / DIRENTSZ) :
    d.readi (DIRENTSZ * i) DIRENTSZ = ((DIRENTSZ : Int), direntAt d (DIRENTSZ * i)) := by
  have hmax : MAXFILE * BSIZE < 2 ^ 32 := by decide
  have hfits := h.fits
  have hin : DIRENTSZ * i + DIRENTSZ ≤ d.size := by
    simp only [DIRENTSZ] at hi ⊢
    omega
  unfold Dinode.readi
  rw [if_neg (by omega)]
  simp only [if_neg (Nat.not_lt.mpr hin)]
  rfl

theorem getD_entries (hi : i < d.size / DIRENTSZ) :
    (entries direntOf d).getD i Dirent.zero = direntOf (direntAt d (DIRENTSZ * i)) := by
  simp [entries, hi]

/-- **The scan of the bytes** is a search through the entries. -/
theorem scanDir_eq (h : Whole d) (wanted : Dirent → Bool) :
    ∀ n i, d.size / DIRENTSZ < i + n → scanDir d wanted n (DIRENTSZ * i) =
      match ((entries direntOf d).drop i).findIdx? wanted with
      | some j => .found (DIRENTSZ * (i + j)) ((entries direntOf d).getD (i + j) Dirent.zero)
      | none => .ended (max d.size (DIRENTSZ * i)) := by
  have hend : ∀ i, d.size / DIRENTSZ ≤ i → d.size ≤ DIRENTSZ * i :=
    fun i hi => Nat.not_lt.mp (h.lt_iff.not.mpr (Nat.not_lt.mpr hi))
  intro n
  induction n with
  | zero =>
    intro i hn
    have hge : d.size / DIRENTSZ ≤ i := hn.le
    rw [drop_of_length_le (length_entries.trans_le hge), max_eq_right (hend i hge)]
    rfl
  | succ n ih =>
    intro i hn
    rw [scanDir]
    obtain hlt | hge := Nat.lt_or_ge i (d.size / DIRENTSZ)
    · have hlen : i < (entries direntOf d).length := length_entries.symm ▸ hlt
      rw [if_pos (h.lt_iff.mpr hlt), readi_entry h hlt, drop_eq_getElem_cons hlen, findIdx?_cons,
        getElem_entries]
      by_cases hwanted : wanted (direntOf (direntAt d (DIRENTSZ * i))) = true
      · simp only [hwanted, if_true, ne_eq, not_true_eq_false, if_false]
        rw [Nat.add_zero, getD_entries hlt]
      · have hnext : max d.size (DIRENTSZ * (i + 1)) = max d.size (DIRENTSZ * i) := by
          simp only [DIRENTSZ] at hlt ⊢
          omega
        simp only [hwanted, ne_eq, not_true_eq_false, if_false, Bool.false_eq_true]
        rw [show DIRENTSZ * i + DIRENTSZ = DIRENTSZ * (i + 1) from rfl, ih (i + 1) (by omega), hnext]
        cases findIdx? wanted ((entries direntOf d).drop (i + 1)) with
        | none => rfl
        | some j => simp only [Option.map_some, Nat.add_assoc, Nat.add_comm 1 j]
    · rw [drop_of_length_le (length_entries.trans_le hge), if_neg (Nat.not_lt.mpr (hend i hge)),
        max_eq_right (hend i hge)]
      rfl

theorem scan_eq (h : Whole d) (wanted : Dirent → Bool) :
    scanDir d wanted (d.size / DIRENTSZ + 1) 0 =
      match (entries direntOf d).findIdx? wanted with
      | some i => .found (DIRENTSZ * i) ((entries direntOf d).getD i Dirent.zero)
      | none => .ended d.size := by
  simpa using scanDir_eq h wanted (d.size / DIRENTSZ + 1) 0 (by omega)

/-- What a loop makes of the scan. -/
def answer {α : Type} (found : Nat → Dirent → α) (ended : Nat → α) (short : α) : Icache.Scan → α
  | .found off de => found off de
  | .ended off => ended off
  | .short => short

/-- **A loop that goes on as the scan does** ends as the scan does. -/
theorem eq_answer {α : Type} {wanted : Dirent → Bool} {found : Nat → Dirent → α} {ended : Nat → α}
    {short : α} {F : Nat → Nat → α} (hzero : ∀ off, F 0 off = ended off)
    (hsucc : ∀ n off, F (n + 1) off =
      if off < d.size then
        if (d.readi off DIRENTSZ).1 ≠ DIRENTSZ then short
        else if wanted (direntOf (d.readi off DIRENTSZ).2) then
          found off (direntOf (d.readi off DIRENTSZ).2)
        else F n (off + DIRENTSZ)
      else ended off) (n off : Nat) :
    F n off = answer found ended short (scanDir d wanted n off) := by
  induction n generalizing off with
  | zero => exact hzero off
  | succ n ih =>
    rw [hsucc, scanDir, ih]
    simp only [apply_ite (answer found ended short)]
    rfl

theorem live_eq_some {k : Name} {v : UInt16} :
    live de = some (k, v) ↔
      (direntOf de).inum ≠ 0 ∧ (direntOf de).name = k ∧ (direntOf de).inum = v := by
  unfold live number
  split
  next hzero => simp [hzero]
  next hlive => simp [hlive]

theorem live_eq_none : live de = none ↔ (direntOf de).inum = 0 := by simp [live, number]

/-- `dirlookup`'s loop finds the slot with the name. -/
theorem scan_named (h : Whole d) (hdistinct : Distinct (slots d)) (k : Name) :
    scanDir d (fun de => de.inum ≠ 0 ∧ de.name = k) (d.size / DIRENTSZ + 1) 0 =
      match find (slots d) k with
      | some (v, i) => .found (DIRENTSZ * i) ⟨v, k⟩
      | none => .ended d.size := by
  rw [scan_eq h]
  rcases hidx : (entries direntOf d).findIdx? _ with _ | i
  · have hnone : find (slots d) k = none := by
      rw [Option.eq_none_iff_forall_ne_some]
      rintro ⟨v, i⟩ hfind
      have hat := getElem?_of_find hfind
      have hi := (List.getElem?_eq_some_iff.mp hat).1
      rw [length_slots] at hi
      rw [getElem?_slots hi, Option.some_inj, live_eq_some] at hat
      have hnot := findIdx?_eq_none_iff.mp hidx _ (mem_of_getElem? (getElem?_entries hi))
      simp [hat.1, hat.2.1] at hnot
    rw [hnone]
  · obtain ⟨hi, hwanted, -⟩ := findIdx?_eq_some_iff_getElem.mp hidx
    rw [length_entries] at hi
    rw [getElem_entries, decide_eq_true_eq] at hwanted
    have hfind : find (slots d) k = some ((direntOf (direntAt d (DIRENTSZ * i))).inum, i) := by
      rw [hdistinct.find_iff, getElem?_slots hi, live_eq_some.mpr ⟨hwanted.1, hwanted.2, rfl⟩]
    rw [hfind]
    simp only [getD_entries hi, ← hwanted.2]

/-- `dirlink`'s loop finds the first slot not in use, or the end. -/
theorem scan_free (h : Whole d) {α : Type} (g : Nat → α) (short : α) :
    answer (fun off _ => g off) g short
      (scanDir d (fun de => de.inum = 0) (d.size / DIRENTSZ + 1) 0) =
        g (DIRENTSZ * (entries direntOf d).findIdx fun de => de.inum = 0) := by
  have hsize : d.size = DIRENTSZ * (d.size / DIRENTSZ) :=
    (Nat.mul_div_cancel' (Nat.dvd_of_mod_eq_zero h.size)).symm
  rw [scan_eq h, findIdx_eq_getD_findIdx?, length_entries]
  cases (entries direntOf d).findIdx? fun de => decide (de.inum = 0) with
  | none => exact congrArg g hsize
  | some => rfl

theorem slots_free (d : Dinode) :
    let i := (entries direntOf d).findIdx fun de => de.inum = 0
    i ≤ (slots d).length ∧ (∀ e, (slots d)[i]? ≠ some (some e)) ∧
      ∀ j < i, (slots d)[j]? ≠ some none := by
  refine ⟨findIdx_le_length.trans_eq (length_entries.trans length_slots.symm), ?_, ?_⟩
  · intro e he
    have hi := (List.getElem?_eq_some_iff.mp he).1
    rw [length_slots] at hi
    have hzero := findIdx_getElem (w := length_entries.symm ▸ hi)
    rw [getElem_entries, decide_eq_true_eq] at hzero
    rw [getElem?_slots hi, live_eq_none.mpr hzero] at he
    cases he
  · intro j hj hnone
    have hlt := hj.trans_le findIdx_le_length
    rw [length_entries] at hlt
    rw [getElem?_slots hlt, Option.some_inj, live_eq_none] at hnone
    have hused := not_of_lt_findIdx hj
    simp [getElem_entries, hnone] at hused

/-- No two entries in use have names that `namecmp` takes for equal. -/
def NoDup (d : Dinode) : Prop :=
  ∀ a b, a % DIRENTSZ = 0 → b % DIRENTSZ = 0 → a < d.size → b < d.size →
    (direntOf (direntAt d a)).inum ≠ 0 → (direntOf (direntAt d b)).inum ≠ 0 →
    namecmp (nameAt (direntAt d a)) (nameAt (direntAt d b)) = 0 → a = b

theorem namecmp_eq_zero {s t : CStr} : namecmp s t = 0 ↔ key s = key t :=
  CStr.strncmp_eq_zero.trans key_inj.symm

theorem noDup_iff (h : Whole d) : NoDup d ↔ Distinct (slots d) := by
  constructor
  · intro hnodup i j k v w hi hj
    have hli := (List.getElem?_eq_some_iff.mp hi).1
    have hlj := (List.getElem?_eq_some_iff.mp hj).1
    rw [length_slots] at hli hlj
    rw [getElem?_slots hli, Option.some_inj, live_eq_some] at hi
    rw [getElem?_slots hlj, Option.some_inj, live_eq_some] at hj
    have hsame : namecmp (nameAt (direntAt d (DIRENTSZ * i)))
        (nameAt (direntAt d (DIRENTSZ * j))) = 0 := by
      rw [namecmp_eq_zero, key_nameAt, key_nameAt, hi.2.1, hj.2.1]
    have heq := hnodup _ _ (Nat.mul_mod_right ..) (Nat.mul_mod_right ..)
      (h.lt_iff.mpr hli) (h.lt_iff.mpr hlj) hi.1 hj.1 hsame
    exact Nat.eq_of_mul_eq_mul_left (by decide) heq
  · intro hdistinct a b ha hb hla hlb hia hib hsame
    obtain ⟨i, rfl⟩ := Nat.dvd_of_mod_eq_zero ha
    obtain ⟨j, rfl⟩ := Nat.dvd_of_mod_eq_zero hb
    rw [namecmp_eq_zero, key_nameAt, key_nameAt] at hsame
    have hi : i < d.size / DIRENTSZ := h.lt_iff.mp hla
    have hj : j < d.size / DIRENTSZ := h.lt_iff.mp hlb
    have hij : i = j := by
      apply hdistinct i j (direntOf (direntAt d (DIRENTSZ * i))).name
      · rw [getElem?_slots hi, live_eq_some.mpr ⟨hia, rfl, rfl⟩]
      · rw [getElem?_slots hj, live_eq_some.mpr ⟨hib, hsame.symm, rfl⟩]
    rw [hij]

end Xv6.Directory
