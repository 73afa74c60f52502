import Mathlib.Data.Finset.Card
import Xv6.Blocks
import Xv6.Ledger

/-!
**Who owns which block.**

A pointer is a place in an inode that can hold a block number: a direct address, the address of
the indirect block, or an entry of that block. `Owned` says that the pointers of the allocated
inodes balance with the bitmap (`Ledger`): a block is marked exactly when it is metadata, held by
one pointer, or in the hand of a function that is about to free it.
-/

namespace Xv6.Blocks

open Bytes Ledger Function

/-! ### Inodes on the disk -/

variable {k i b v : Nat} {sb : Superblock} {blk : Nat → Block} {ino : Nat → Dinode}

@[simp] theorem dinodeAt_putDinode (b : Block) (hk : k < IPB) (d : Dinode) :
    dinodeAt (putDinode b k d) k = d := by
  have hfit : 64 * k + 64 ≤ BSIZE := by simp only [IPB, BSIZE] at hk ⊢; omega
  have hadd : (NDIRECT + 1) = 13 := rfl
  have haddr : ∀ j : Fin (NDIRECT + 1), d.addr j = (d.addrs j).toNat := fun j => by
    simp [Dinode.addr, j.isLt]
  have hshort : ∀ v : UInt16, UInt16.ofNat (v.toNat % 256 ^ 2) = v := fun v => by
    have hmod : v.toNat % 256 ^ 2 = v.toNat := Nat.mod_eq_of_lt v.toNat_lt
    rw [hmod]
    exact UInt16.ofNat_toNat
  have hword : ∀ v : UInt32, UInt32.ofNat (v.toNat % 256 ^ 4) = v := fun v => by
    have hmod : v.toNat % 256 ^ 4 = v.toNat := Nat.mod_eq_of_lt v.toNat_lt
    rw [hmod]
    exact UInt32.ofNat_toNat
  unfold dinodeAt putDinode
  simp (disch := omega) only [getLE_setWords_of_disjoint, getLE_setLE_of_disjoint, getLE_setLE,
    hshort, hword]
  congr 1
  funext j
  have hj := j.isLt
  rw [getLE_setWords _ _ _ hj (by omega), haddr, hword]

theorem dinodeAt_putDinode_of_ne (b : Block) {k' : Nat} (hne : k' ≠ k) (d : Dinode) :
    dinodeAt (putDinode b k d) k' = dinodeAt b k' := by
  have hadd : (NDIRECT + 1) = 13 := rfl
  have hkeep : ∀ off len, 64 * k' ≤ off → off + len ≤ 64 * k' + 64 →
      getLE (putDinode b k d) off len = getLE b off len := by
    intro off len hlo hhi
    unfold putDinode
    simp (disch := omega) only [getLE_setWords_of_disjoint, getLE_setLE_of_disjoint]
  unfold dinodeAt
  rw [hkeep _ 2 (by omega) (by omega), hkeep _ 2 (by omega) (by omega),
    hkeep _ 2 (by omega) (by omega), hkeep _ 2 (by omega) (by omega),
    hkeep _ 4 (by omega) (by omega)]
  congr 1
  funext j
  rw [hkeep _ 4 (by omega) (by omega)]

namespace Dinode

theorem addr_setAddr (d : Dinode) {k v : Nat} (hk : k ≤ NDIRECT) (hv : v < 2 ^ 32) (k' : Nat) :
    (d.setAddr k v).addr k' = if k' = k then v else d.addr k' := by
  unfold addr setAddr
  by_cases hkk : k' = k
  · subst hkk
    have hlt : k' < NDIRECT + 1 := by omega
    simp only [hlt, if_true]
    exact UInt32.toNat_ofNat_of_lt hv
  · simp [hkk]

end Dinode

/-! ### The layout of the disk -/

def dataStart (sb : Superblock) : Nat := sb.size - sb.nblocks

/-- `[ boot block | super block | log | inode blocks | free bit map | data blocks ]` -/
structure Layout (sb : Superblock) : Prop where
  log : 2 ≤ sb.logstart
  inodes : sb.logstart + sb.nlog ≤ sb.inodestart
  order : sb.inodestart ≤ sb.bmapstart
  bitmap : ∀ i, i < sb.ninodes → IBLOCK i sb < sb.bmapstart
  data : ∀ b, b < sb.size → BBLOCK b sb < dataStart sb
  small : sb.size ≤ 2 ^ 31
  pos : 0 < sb.size

/-- `i` is the number of an inode of the disk. -/
def Numbered (sb : Superblock) (i : Nat) : Prop := 0 < i ∧ i < sb.ninodes

instance (sb : Superblock) (i : Nat) : Decidable (Numbered sb i) :=
  inferInstanceAs (Decidable (0 < i ∧ i < sb.ninodes))

theorem IBLOCK_eq_iff {j : Nat} : IBLOCK i sb = IBLOCK j sb ∧ i % IPB = j % IPB ↔ i = j := by
  have hipb : IPB = 8 := rfl
  unfold IBLOCK
  rw [hipb]
  omega

theorem BBLOCK_eq_iff {c : Nat} : BBLOCK b sb = BBLOCK c sb ∧ b % BPB = c % BPB ↔ b = c := by
  have hbpb : BPB = 4096 := rfl
  unfold BBLOCK
  rw [hbpb]
  omega

theorem inodestart_le_IBLOCK (i : Nat) (sb : Superblock) : sb.inodestart ≤ IBLOCK i sb :=
  Nat.le_add_left _ _

theorem bmapstart_le_BBLOCK (b : Nat) (sb : Superblock) : sb.bmapstart ≤ BBLOCK b sb :=
  Nat.le_add_left _ _

namespace Layout

variable {sb : Superblock} (h : Layout sb)
include h

theorem two_le_IBLOCK (i : Nat) : 2 ≤ IBLOCK i sb :=
  calc 2 ≤ sb.logstart + sb.nlog := Nat.le_add_right_of_le h.log
    _ ≤ sb.inodestart := h.inodes
    _ ≤ IBLOCK i sb := inodestart_le_IBLOCK i sb

theorem two_le_BBLOCK (b : Nat) : 2 ≤ BBLOCK b sb :=
  calc 2 ≤ sb.logstart + sb.nlog := Nat.le_add_right_of_le h.log
    _ ≤ sb.inodestart := h.inodes
    _ ≤ sb.bmapstart := h.order
    _ ≤ BBLOCK b sb := bmapstart_le_BBLOCK b sb

theorem IBLOCK_lt_BBLOCK {i : Nat} (hi : i < sb.ninodes) (b : Nat) : IBLOCK i sb < BBLOCK b sb :=
  Nat.lt_of_lt_of_le (h.bitmap i hi) (bmapstart_le_BBLOCK b sb)

theorem IBLOCK_lt_dataStart {i b : Nat} (hi : i < sb.ninodes) (hb : b < sb.size) :
    IBLOCK i sb < dataStart sb :=
  (h.IBLOCK_lt_BBLOCK hi b).trans (h.data b hb)

end Layout

/-! ### The bitmap -/

def Marked (sb : Superblock) (blk : Nat → Block) (b : Nat) : Prop :=
  bitAt (blk (BBLOCK b sb)) (b % BPB) = true

instance (sb : Superblock) (blk : Nat → Block) : DecidablePred (Marked sb blk) := fun b =>
  inferInstanceAs (Decidable (bitAt (blk (BBLOCK b sb)) (b % BPB) = true))

theorem isFree_iff (bp : Block) (bi : Nat) : isFree bp bi ↔ bitAt bp bi = false :=
  and_mask_eq_zero _ _

def take (sb : Superblock) (b : Nat) (blk : Nat → Block) : Nat → Block :=
  let bp := blk (BBLOCK b sb)
  let bi := b % BPB
  update
    (update blk (BBLOCK b sb) (setByte bp (bi / 8) (byteAt bp (bi / 8) ||| mask bi)))
    b fun _ => 0

def untake (sb : Superblock) (b : Nat) (blk : Nat → Block) : Nat → Block :=
  let bp := blk (BBLOCK b sb)
  let bi := b % BPB
  update blk (BBLOCK b sb) (setByte bp (bi / 8) (byteAt bp (bi / 8) &&& ~~~(mask bi)))

theorem take_of_ne {x : Nat} (blk : Nat → Block) (hbit : x ≠ BBLOCK b sb) (hne : x ≠ b) :
    take sb b blk x = blk x := by
  rw [take, update_of_ne hne, update_of_ne hbit]

theorem take_self (sb : Superblock) (b : Nat) (blk : Nat → Block) :
    take sb b blk b = fun _ => 0 := update_self ..

theorem untake_of_ne {x : Nat} (blk : Nat → Block) (hbit : x ≠ BBLOCK b sb) :
    untake sb b blk x = blk x := update_of_ne hbit ..

theorem byte_of_bit_lt (b : Nat) : b % BPB / 8 < BSIZE := by
  have hlt : b % BPB < 4096 := Nat.mod_lt b (by decide)
  change b % BPB / 8 < 512
  omega

theorem marked_take (hlay : Layout sb) (blk : Nat → Block) {x : Nat} (hb : dataStart sb ≤ b)
    (hx : x < sb.size) : Marked sb (take sb b blk) x ↔ Marked sb blk x ∨ x = b := by
  have hne : BBLOCK x sb ≠ b := Nat.ne_of_lt (Nat.lt_of_lt_of_le (hlay.data x hx) hb)
  unfold Marked take
  rw [update_of_ne hne]
  by_cases hblock : BBLOCK x sb = BBLOCK b sb
  · have hiff : x % BPB = b % BPB ↔ x = b :=
      ⟨fun hmod => BBLOCK_eq_iff.mp ⟨hblock, hmod⟩, fun heq => heq ▸ rfl⟩
    rw [hblock, update_self, bitAt_or_mask _ (byte_of_bit_lt b)]
    simp [hiff]
  · have hxb : x ≠ b := fun heq => hblock (heq ▸ rfl)
    rw [update_of_ne hblock]
    simp [hxb]

theorem marked_untake (blk : Nat → Block) (b x : Nat) :
    Marked sb (untake sb b blk) x ↔ Marked sb blk x ∧ x ≠ b := by
  unfold Marked untake
  by_cases hblock : BBLOCK x sb = BBLOCK b sb
  · have hiff : x % BPB = b % BPB ↔ x = b :=
      ⟨fun hmod => BBLOCK_eq_iff.mp ⟨hblock, hmod⟩, fun heq => heq ▸ rfl⟩
    rw [hblock, update_self, bitAt_and_not_mask _ (byte_of_bit_lt b)]
    simp [hiff]
  · have hxb : x ≠ b := fun heq => hblock (heq ▸ rfl)
    rw [update_of_ne hblock]
    simp [hxb]

/-! ### Pointers -/

/-- The places of an inode that can hold a block number. -/
inductive Ptr where
  | direct (k : Nat)
  | table
  | entry (j : Nat)
deriving DecidableEq

/-- The block number there, 0 for none. -/
def ptr (blk : Nat → Block) (d : Dinode) : Ptr → Nat
  | .direct k => if k < NDIRECT then d.addr k else 0
  | .table => d.addr NDIRECT
  | .entry j =>
      if j < NINDIRECT ∧ d.addr NDIRECT ≠ 0 then getLE (blk (d.addr NDIRECT)) (4 * j) 4 else 0

/-- The pointer to block `bn` of the file. -/
def filePtr (bn : Nat) : Ptr := if bn < NDIRECT then .direct bn else .entry (bn - NDIRECT)

/-- The pointer kept in `addrs[k]`. -/
def slot (k : Nat) : Ptr := if k < NDIRECT then .direct k else .table

def Live (sb : Superblock) (ino : Nat → Dinode) (i : Nat) : Prop :=
  Numbered sb i ∧ (ino i).type ≠ 0

instance (sb : Superblock) (ino : Nat → Dinode) (i : Nat) : Decidable (Live sb ino i) :=
  inferInstanceAs (Decidable (Numbered sb i ∧ (ino i).type ≠ 0))

/-- The block that a pointer of an allocated inode holds. -/
def own (sb : Superblock) (blk : Nat → Block) (ino : Nat → Dinode) (r : Nat × Ptr) : Nat :=
  if Live sb ino r.1 then ptr blk (ino r.1) r.2 else 0

theorem ptr_slot (hk : k ≤ NDIRECT) (blk : Nat → Block) (d : Dinode) :
    ptr blk d (slot k) = d.addr k := by
  unfold slot
  by_cases hlt : k < NDIRECT
  · rw [if_pos hlt, ptr, if_pos hlt]
  · have heq : k = NDIRECT := by omega
    rw [if_neg hlt, ptr, heq]

theorem ptr_congr {blk' : Nat → Block} {d : Dinode}
    (h : d.addr NDIRECT ≠ 0 → blk' (d.addr NDIRECT) = blk (d.addr NDIRECT)) (q : Ptr) :
    ptr blk' d q = ptr blk d q := by
  cases q with
  | direct | table => rfl
  | entry =>
    unfold ptr
    by_cases htable : d.addr NDIRECT = 0
    · simp [htable]
    · rw [h htable]

theorem ptr_addr {d d' : Dinode} (h : ∀ k, d'.addr k = d.addr k) (blk : Nat → Block) (q : Ptr) :
    ptr blk d' q = ptr blk d q := by
  cases q with
  | direct | table | entry => simp only [ptr, h]

theorem ptr_setAddr_self (hk : k ≤ NDIRECT) (hv : v < 2 ^ 32) (blk : Nat → Block) (d : Dinode) :
    ptr blk (d.setAddr k v) (slot k) = v := by
  rw [ptr_slot hk, Dinode.addr_setAddr d hk hv, if_pos rfl]

theorem ptr_setDirect (hk : k < NDIRECT) (hv : v < 2 ^ 32) (blk : Nat → Block) (d : Dinode)
    {q : Ptr} (hq : q ≠ .direct k) : ptr blk (d.setAddr k v) q = ptr blk d q := by
  have hkeep : ∀ k', k' ≠ k → (d.setAddr k v).addr k' = d.addr k' := fun k' hne => by
    rw [Dinode.addr_setAddr d (Nat.le_of_lt hk) hv, if_neg hne]
  cases q with
  | direct k' =>
    have hne : k' ≠ k := fun heq => hq (heq ▸ rfl)
    simp only [ptr, hkeep k' hne]
  | table => exact hkeep NDIRECT (Nat.ne_of_gt hk)
  | entry => simp only [ptr, hkeep NDIRECT (Nat.ne_of_gt hk)]

theorem ptr_setTable_direct (hv : v < 2 ^ 32) (blk : Nat → Block) (d : Dinode) (k : Nat) :
    ptr blk (d.setAddr NDIRECT v) (.direct k) = ptr blk d (.direct k) := by
  simp only [ptr]
  by_cases hk : k < NDIRECT
  · rw [if_pos hk, if_pos hk, Dinode.addr_setAddr d le_rfl hv, if_neg (Nat.ne_of_lt hk)]
  · rw [if_neg hk, if_neg hk]

theorem ptr_setTable_entry (hv : v < 2 ^ 32) (d : Dinode) (hblank : v ≠ 0 → blk v = fun _ => 0)
    (j : Nat) : ptr blk (d.setAddr NDIRECT v) (.entry j) = 0 := by
  unfold ptr
  rw [Dinode.addr_setAddr d le_rfl hv, if_pos rfl]
  by_cases hv0 : v = 0
  · simp [hv0]
  · rw [hblank hv0]
    simp [getLE, byteAt]

theorem ptr_entry_of_no_table {d : Dinode} (h : d.addr NDIRECT = 0) (j : Nat) :
    ptr blk d (.entry j) = 0 := by
  simp [ptr, h]

theorem own_live (h : Live sb ino i) (q : Ptr) :
    own sb blk ino (i, q) = ptr blk (ino i) q := if_pos h

theorem own_dead (h : ¬ Live sb ino i) (q : Ptr) : own sb blk ino (i, q) = 0 := if_neg h

theorem own_congr {blk' : Nat → Block} {ino' : Nat → Dinode} (hino : ino' i = ino i)
    (htable : Live sb ino i → (ino i).addr NDIRECT ≠ 0 →
      blk' ((ino i).addr NDIRECT) = blk ((ino i).addr NDIRECT)) (q : Ptr) :
    own sb blk' ino' (i, q) = own sb blk ino (i, q) := by
  have hiff : Live sb ino' i ↔ Live sb ino i := by rw [Live, Live, hino]
  by_cases hi : Live sb ino i
  · rw [own_live hi, own_live (hiff.mpr hi), hino]
    exact ptr_congr (htable hi) q
  · rw [own_dead hi, own_dead fun hi' => hi (hiff.mp hi')]

theorem own_numbered {ino' : Nat → Dinode} (h : ∀ i, Numbered sb i → ino' i = ino i) (r : Nat × Ptr) :
    own sb blk ino' r = own sb blk ino r := by
  obtain ⟨i, q⟩ := r
  by_cases hi : Numbered sb i
  · exact own_congr (h i hi) (fun _ _ => rfl) q
  · rw [own_dead fun hlive => hi hlive.1, own_dead fun hlive => hi hlive.1]

/-! ### Ownership -/

structure Owned (sb : Superblock) (blk : Nat → Block) (ino : Nat → Dinode) (hand : Nat → Prop) :
    Prop where
  layout : Layout sb
  super : superAt (blk 1) = sb
  ledger : Balanced (dataStart sb) sb.size (Marked sb blk) (own sb blk ino) hand

namespace Owned

variable {sb : Superblock} {blk blk' : Nat → Block} {ino ino' : Nat → Dinode}
  {hand hand' : Nat → Prop} {i b t : Nat} {q : Ptr}

variable (h : Owned sb blk ino hand)
include h

theorem ptr_range (hi : Live sb ino i) (hq : ptr blk (ino i) q ≠ 0) :
    dataStart sb ≤ ptr blk (ino i) q ∧ ptr blk (ino i) q < sb.size := by
  have hrange := h.ledger.range (i, q)
  rw [own_live hi] at hrange
  exact hrange hq

theorem ptr_marked (hi : Live sb ino i) (hq : ptr blk (ino i) q ≠ 0) :
    Marked sb blk (ptr blk (ino i) q) := by
  have hused := @Balanced.used_own _ _ _ _ _ _ h.ledger (i, q)
  rw [own_live hi] at hused
  exact hused hq

theorem ptr_once {j : Nat} {r : Ptr} (hi : Live sb ino i) (hj : Live sb ino j)
    (hq : ptr blk (ino i) q ≠ 0) (heq : ptr blk (ino i) q = ptr blk (ino j) r) : i = j ∧ q = r := by
  have honce := h.ledger.once (i, q) (j, r)
  rw [own_live hi, own_live hj] at honce
  exact Prod.mk.inj (honce heq hq)

theorem frame (hone : blk' 1 = blk 1)
    (hmarks : ∀ b, b < sb.size → (Marked sb blk' b ↔ Marked sb blk b))
    (hown : ∀ r, own sb blk' ino' r = own sb blk ino r) : Owned sb blk' ino' hand :=
  ⟨h.layout, hone ▸ h.super, h.ledger.congr hmarks hown fun _ => Iff.rfl⟩

theorem ptr_ne_BBLOCK (hi : Live sb ino i) (hq : ptr blk (ino i) q ≠ 0) (hb : b < sb.size) :
    ptr blk (ino i) q ≠ BBLOCK b sb := by
  have hlo := (h.ptr_range hi hq).1
  have hbit := h.layout.data b hb
  omega

theorem marked_update {p : Nat} (hp : dataStart sb ≤ p) (data : Block) (hb : b < sb.size) :
    Marked sb (update blk p data) b ↔ Marked sb blk b := by
  have hne : BBLOCK b sb ≠ p := Nat.ne_of_lt (Nat.lt_of_lt_of_le (h.layout.data b hb) hp)
  rw [Marked, Marked, update_of_ne hne]

theorem take_ptr (hb : b < sb.size) (hfree : ¬ Marked sb blk b) (hi : Live sb ino i)
    (hq : ptr blk (ino i) q ≠ 0) : take sb b blk (ptr blk (ino i) q) = blk (ptr blk (ino i) q) := by
  apply take_of_ne
  · exact h.ptr_ne_BBLOCK hi hq hb
  · intro heq
    exact hfree (heq ▸ h.ptr_marked hi hq)

theorem one_lt_dataStart (hb : b < sb.size) : 1 < dataStart sb :=
  Nat.lt_of_lt_of_le (h.layout.two_le_BBLOCK b) (Nat.le_of_lt (h.layout.data b hb))

theorem take_one (hb : b < sb.size) (hlo : dataStart sb ≤ b) : take sb b blk 1 = blk 1 := by
  have hone := h.one_lt_dataStart hb
  have hbit := h.layout.two_le_BBLOCK b
  exact take_of_ne blk (by omega) (by omega)

theorem own_takeSlot (hi : Live sb ino i) {k : Nat} (hk : k ≤ NDIRECT) (hzero : (ino i).addr k = 0)
    (hb : b < sb.size) (hfree : ¬ Marked sb blk b) (r : Nat × Ptr) :
    own sb (take sb b blk) (update ino i ((ino i).setAddr k b)) r =
      update (own sb blk ino) (i, slot k) b r := by
  obtain ⟨j, q⟩ := r
  have hsmall : b < 2 ^ 32 := by have := h.layout.small; omega
  have htable : Live sb ino j → (ino j).addr NDIRECT ≠ 0 →
      take sb b blk ((ino j).addr NDIRECT) = blk ((ino j).addr NDIRECT) :=
    fun hj ht => h.take_ptr (q := .table) hb hfree hj ht
  by_cases hji : j = i
  · subst hji
    have hlive : Live sb (update ino j ((ino j).setAddr k b)) j := by
      rw [Live, update_self]
      exact hi
    rw [own_live hlive, update_self]
    by_cases hq : q = slot k
    · rw [hq, update_self, ptr_setAddr_self hk hsmall]
    have hne : (j, q) ≠ (j, slot k) := fun heq => hq (Prod.mk.inj heq).2
    rw [update_of_ne hne, own_live hi]
    by_cases hlt : k < NDIRECT
    · rw [slot, if_pos hlt] at hq
      rw [ptr_setDirect hlt hsmall _ _ hq]
      exact ptr_congr (htable hi) q
    have hkk : k = NDIRECT := by omega
    subst hkk
    cases q with
    | direct =>
      rw [ptr_setTable_direct hsmall]
      exact ptr_congr (htable hi) _
    | table => exact absurd rfl hq
    | entry =>
      -- the new indirect block has no entries yet
      rw [ptr_setTable_entry hsmall _ fun _ => take_self sb b blk, ptr_entry_of_no_table hzero]
  · have hne : (j, q) ≠ (i, slot k) := fun heq => hji (Prod.mk.inj heq).1
    rw [update_of_ne hne]
    exact own_congr (update_of_ne hji ..) htable q

theorem takeSlot (hi : Live sb ino i) {k : Nat} (hk : k ≤ NDIRECT) (hzero : (ino i).addr k = 0)
    (hb : b < sb.size) (hfree : ¬ Marked sb blk b) :
    Owned sb (take sb b blk) (update ino i ((ino i).setAddr k b)) hand := by
  obtain ⟨hlo, -, -⟩ := h.ledger.of_not_used hb hfree
  have hslot : own sb blk ino (i, slot k) = 0 := by rw [own_live hi, ptr_slot hk, hzero]
  refine ⟨h.layout, h.take_one hb hlo ▸ h.super, ?_⟩
  exact (h.ledger.take hslot hb hfree fun x hx => marked_take h.layout blk hlo hx).congr
    (fun _ _ => Iff.rfl) (h.own_takeSlot hi hk hzero hb hfree) fun _ => Iff.rfl

theorem own_takeEntry (hi : Live sb ino i) {j : Nat} (ht : (ino i).addr NDIRECT = t) (ht0 : t ≠ 0)
    (hj : j < NINDIRECT) (hb : b < sb.size) (hfree : ¬ Marked sb blk b) (r : Nat × Ptr) :
    own sb (update (take sb b blk) t (setLE (blk t) (4 * j) 4 b)) ino r =
      update (own sb blk ino) (i, .entry j) b r := by
  obtain ⟨i', q⟩ := r
  have hsmall : b < 256 ^ 4 := by have := h.layout.small; omega
  have hfit : 4 * j + 4 ≤ BSIZE := by
    have hnind : NINDIRECT = 128 := rfl
    change 4 * j + 4 ≤ 512
    omega
  by_cases hii : i' = i
  · subst hii
    rw [own_live hi]
    cases q with
    | direct | table => rw [update_of_ne (by simp), own_live hi]; rfl
    | entry j' =>
      simp only [ptr, ht, ht0, ne_eq, not_false_eq_true, and_true, update_self]
      by_cases hjj : j' = j
      · rw [hjj, update_self, if_pos hj, getLE_setLE _ _ hfit, Nat.mod_eq_of_lt hsmall]
      · rw [update_of_ne (by simp [hjj]), own_live hi, getLE_setLE_of_disjoint _ (by omega)]
        simp [ptr, ht, ht0]
  · rw [update_of_ne (by simp [hii])]
    apply own_congr rfl
    intro hlive htable
    have hne : (ino i').addr NDIRECT ≠ t := by
      rintro heq
      have honce := h.ptr_once (q := .table) (r := .table) hlive hi htable (heq.trans ht.symm)
      exact hii honce.1
    rw [update_of_ne hne]
    exact h.take_ptr (q := .table) hb hfree hlive htable

theorem marked_takeEntry {x : Nat} {data : Block} (ht : dataStart sb ≤ t) (hb : dataStart sb ≤ b)
    (hx : x < sb.size) : Marked sb (update (take sb b blk) t data) x ↔ Marked sb blk x ∨ x = b := by
  have hne : BBLOCK x sb ≠ t := Nat.ne_of_lt (Nat.lt_of_lt_of_le (h.layout.data x hx) ht)
  rw [Marked, update_of_ne hne]
  exact marked_take h.layout blk hb hx

/-- **An entry of the indirect block takes a free block.** -/
theorem takeEntry (hi : Live sb ino i) {j : Nat} (ht : (ino i).addr NDIRECT = t) (ht0 : t ≠ 0)
    (hj : j < NINDIRECT) (hzero : getLE (blk t) (4 * j) 4 = 0) (hb : b < sb.size)
    (hfree : ¬ Marked sb blk b) :
    Owned sb (update (take sb b blk) t (setLE (blk t) (4 * j) 4 b)) ino hand := by
  obtain ⟨hlo, -, -⟩ := h.ledger.of_not_used hb hfree
  have htrange : dataStart sb ≤ t := by
    rw [← ht] at ht0 ⊢
    exact (h.ptr_range (q := .table) hi ht0).1
  have hent : own sb blk ino (i, .entry j) = 0 := by
    rw [own_live hi, ptr, ht, hzero]
    simp
  have hone : update (take sb b blk) t (setLE (blk t) (4 * j) 4 b) 1 = blk 1 := by
    have hlt := h.one_lt_dataStart hb
    rw [update_of_ne (by omega), h.take_one hb hlo]
  refine ⟨h.layout, hone ▸ h.super, ?_⟩
  exact (h.ledger.take hent hb hfree fun x hx => h.marked_takeEntry htrange hlo hx).congr
    (fun _ _ => Iff.rfl) (h.own_takeEntry hi ht ht0 hj hb hfree) fun _ => Iff.rfl

theorem own_writeData (hi : Live sb ino i) (hq : ptr blk (ino i) q ≠ 0) (hdata : q ≠ .table)
    (data : Block) (r : Nat × Ptr) :
    own sb (update blk (ptr blk (ino i) q) data) ino r = own sb blk ino r := by
  apply own_congr rfl
  intro hlive htable
  apply update_of_ne
  intro heq
  exact hdata (h.ptr_once (r := .table) hi hlive hq heq.symm).2

/-- **Data is written** to a block of a file. -/
theorem writeData (hi : Live sb ino i) (hq : ptr blk (ino i) q ≠ 0) (hdata : q ≠ .table)
    (data : Block) : Owned sb (update blk (ptr blk (ino i) q) data) ino hand := by
  have hrange := h.ptr_range hi hq
  apply h.frame
  · have hlt := h.one_lt_dataStart hrange.2
    exact update_of_ne (by omega) ..
  · exact fun b hb => h.marked_update hrange.1 data hb
  · exact h.own_writeData hi hq hdata data

theorem store (hi : i < sb.ninodes) (data : Block) :
    Owned sb (update blk (IBLOCK i sb) data) ino hand := by
  apply h.frame
  · have htwo := h.layout.two_le_IBLOCK i
    exact update_of_ne (by omega) ..
  · intro b _
    have hne : BBLOCK b sb ≠ IBLOCK i sb := Nat.ne_of_gt (h.layout.IBLOCK_lt_BBLOCK hi b)
    rw [Marked, Marked, update_of_ne hne]
  rintro ⟨i', q'⟩
  apply own_congr rfl
  intro hlive htable
  have hrange := h.ptr_range (q := .table) hlive htable
  have hlt := h.layout.IBLOCK_lt_dataStart hi hrange.2
  apply update_of_ne
  exact Nat.ne_of_gt (Nat.lt_of_lt_of_le hlt hrange.1)

theorem release (hb : hand b) (hhand : ∀ x, hand' x ↔ hand x ∧ x ≠ b) :
    Owned sb (untake sb b blk) ino hand' := by
  obtain ⟨-, hsize, -⟩ := h.ledger.inHand b hb
  have hone : untake sb b blk 1 = blk 1 := by
    have htwo := h.layout.two_le_BBLOCK b
    exact untake_of_ne blk (by omega)
  refine ⟨h.layout, hone ▸ h.super, ?_⟩
  refine (h.ledger.free hb (fun x _ => marked_untake blk b x) hhand).congr
    (fun _ _ => Iff.rfl) ?_ fun _ => Iff.rfl
  rintro ⟨i', q'⟩
  apply own_congr rfl
  intro hlive htable
  exact untake_of_ne blk (h.ptr_ne_BBLOCK (q := .table) hlive htable hsize)

theorem letGoDirect (hi : Live sb ino i) {k : Nat} (hk : k < NDIRECT) (hne : (ino i).addr k ≠ 0) :
    Owned sb blk (update ino i ((ino i).setAddr k 0))
      fun x => hand x ∨ x = (ino i).addr k := by
  have hptr : ptr blk (ino i) (.direct k) = (ino i).addr k := if_pos hk
  have hlive : Live sb (update ino i ((ino i).setAddr k 0)) i := by
    rw [Live, update_self]
    exact hi
  refine ⟨h.layout, h.super, h.ledger.letGo (fun r => r = (i, .direct k)) ?_ ?_ ?_⟩
  · rintro r rfl
    have hslot : Ptr.direct k = slot k := by rw [slot, if_pos hk]
    rw [own_live hlive, update_self, hslot, ptr_setAddr_self (Nat.le_of_lt hk) (by decide)]
  · rintro ⟨i', q⟩ hnot
    by_cases hii : i' = i
    · subst hii
      have hq : q ≠ .direct k := fun heq => hnot (heq ▸ rfl)
      rw [own_live hlive, own_live hi, update_self, ptr_setDirect hk (by decide) _ _ hq]
    · exact own_congr (update_of_ne hii ..) (fun _ _ => rfl) q
  · intro x
    constructor
    · rintro (hold | rfl)
      · exact .inl hold
      · exact .inr ⟨hne, _, rfl, by rw [own_live hi, hptr]⟩
    · rintro (hold | ⟨-, r, rfl, rfl⟩)
      · exact .inl hold
      · rw [own_live hi, hptr]
        exact .inr rfl

omit h

/-- **The indirect block is let go**, and with it its entries. -/
theorem letGoTable (h : Owned sb blk ino fun _ => False) (hi : Live sb ino i)
    (ht : (ino i).addr NDIRECT = t) (ht0 : t ≠ 0) :
    Owned sb blk (update ino i ((ino i).setAddr NDIRECT 0)) fun x =>
      x = t ∨ x ≠ 0 ∧ ∃ j < NINDIRECT, getLE (blk t) (4 * j) 4 = x := by
  have hent : ∀ j, ptr blk (ino i) (.entry j) =
      if j < NINDIRECT then getLE (blk t) (4 * j) 4 else 0 := by
    intro j
    simp [ptr, ht, ht0]
  have hlive : Live sb (update ino i ((ino i).setAddr NDIRECT 0)) i := by
    rw [Live, update_self]
    exact hi
  refine ⟨h.layout, h.super,
    h.ledger.letGo (fun r => r.1 = i ∧ (r.2 = .table ∨ ∃ j, r.2 = .entry j)) ?_ ?_ ?_⟩
  · rintro ⟨i', q⟩ ⟨rfl, rfl | ⟨j, rfl⟩⟩
    · have hslot : Ptr.table = slot NDIRECT := rfl
      rw [own_live hlive, update_self, hslot, ptr_setAddr_self le_rfl (by decide)]
    · rw [own_live hlive, update_self, ptr_setTable_entry (by decide) _ fun h0 => absurd rfl h0]
  · rintro ⟨i', q⟩ hnot
    by_cases hii : i' = i
    · subst hii
      rw [own_live hlive, own_live hi, update_self]
      cases q with
      | direct k => exact ptr_setTable_direct (by decide) blk _ k
      | table => exact absurd ⟨rfl, .inl rfl⟩ hnot
      | entry j => exact absurd ⟨rfl, .inr ⟨j, rfl⟩⟩ hnot
    · exact own_congr (update_of_ne hii ..) (fun _ _ => rfl) q
  · intro x
    constructor
    · rintro (rfl | ⟨hx0, j, hj, rfl⟩)
      · exact .inr ⟨ht0, (i, .table), ⟨rfl, .inl rfl⟩, by rw [own_live hi]; exact ht⟩
      · refine .inr ⟨hx0, (i, .entry j), ⟨rfl, .inr ⟨j, rfl⟩⟩, ?_⟩
        rw [own_live hi, hent j, if_pos hj]
    · rintro (hold | ⟨hx0, ⟨i', q⟩, ⟨rfl, rfl | ⟨j, rfl⟩⟩, rfl⟩)
      · exact hold.elim
      · rw [own_live hi]
        exact .inl ht
      rw [own_live hi, hent j] at hx0 ⊢
      by_cases hj : j < NINDIRECT
      · rw [if_pos hj] at hx0 ⊢
        exact .inr ⟨hx0, j, hj, rfl⟩
      · rw [if_neg hj] at hx0
        exact absurd rfl hx0

/-- **An inode changes in a way that does not touch its addresses.** -/
theorem reino (h : Owned sb blk ino hand) {d : Dinode} (haddr : ∀ k, d.addr k = (ino i).addr k)
    (htype : d.type = 0 ↔ (ino i).type = 0) : Owned sb blk (update ino i d) hand := by
  apply h.frame rfl fun _ _ => Iff.rfl
  rintro ⟨i', q⟩
  by_cases hii : i' = i
  · subst hii
    have hptr : ptr blk d q = ptr blk (ino i') q := ptr_addr haddr blk q
    have hiff : Live sb (update ino i' d) i' ↔ Live sb ino i' := by
      rw [Live, Live, update_self, ne_eq, htype]
    by_cases hi : Live sb ino i'
    · rw [own_live hi, own_live (hiff.mpr hi), update_self, hptr]
    · rw [own_dead hi, own_dead fun hi' => hi (hiff.mp hi')]
  · exact own_congr (update_of_ne hii ..) (fun _ _ => rfl) q

/-- **An inode without blocks is allocated or freed.** -/
theorem rebirth (h : Owned sb blk ino hand) {d : Dinode} (hnew : ∀ k, d.addr k = 0)
    (hold : Live sb ino i → ∀ k, (ino i).addr k = 0) :
    Owned sb blk (update ino i d) hand := by
  have hnone : ∀ (d : Dinode), (∀ k, d.addr k = 0) → ∀ q, ptr blk d q = 0 := by
    intro d hd q
    cases q with
    | direct | table | entry => simp [ptr, hd]
  have hzero : ∀ ino' : Nat → Dinode, (Live sb ino' i → ∀ k, (ino' i).addr k = 0) →
      ∀ q, own sb blk ino' (i, q) = 0 := by
    intro ino' haddr q
    by_cases hi : Live sb ino' i
    · rw [own_live hi, hnone _ (haddr hi)]
    · exact own_dead hi q
  apply h.frame rfl fun _ _ => Iff.rfl
  rintro ⟨i', q⟩
  by_cases hii : i' = i
  · subst hii
    rw [hzero _ hold, hzero _ fun _ => by rw [update_self]; exact hnew]
  · exact own_congr (update_of_ne hii ..) (fun _ _ => rfl) q

end Owned

end Xv6.Blocks
