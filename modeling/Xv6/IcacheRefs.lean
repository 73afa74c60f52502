import Xv6.Holders
import Xv6.Icache

/-!
**The references to the slots of the inode cache are counted exactly.**

`Exact k H new s`: each slot's count is the number of its holders in the tables `k` and of the
references `H` that the running call has in hand; no two slots in use are for the same inode;
valid copies are what is on the disk; and an inode without links is allocated only as long as a
valid slot is for it, so that the `iput` of the last reference finds it out.
-/

namespace Xv6.Icache

open Program Function Multiset
open Fs (Name Path Dirent InodeType SLASH dot dotdot elements holders holders_nonneg)

abbrev any : String → Prop := fun _ => True

/-! ### The invariant -/

/-- An `iput` frees the inode if it drops the last reference and there are no links, and leaves
it alone otherwise. -/
def Put.Fair (e : Put) : Prop :=
  e.after = if e.before.type ≠ .free ∧ e.ref = 1 ∧ e.before.nlink = 0 then e.before.cleared
    else e.before

/-- Held by the tables, or in hand. -/
def Held (k : Kernel) (H : Multiset Nat) (ip : Nat) : Prop := 0 < holders k ip ∨ ip ∈ H

structure Exact (k : Kernel) (H : Multiset Nat) (new : Nat → Prop) (s : State) : Prop where
  refs : ∀ ip, (s.icache ip).ref = holders k ip + H.count ip
  inside : ∀ ip, 0 < (s.icache ip).ref → ip < NINODE
  dev : ∀ ip, 0 < (s.icache ip).ref → (s.icache ip).dev = ROOTDEV
  once : ∀ ip ip', 0 < (s.icache ip).ref → 0 < (s.icache ip').ref → s.inum ip = s.inum ip' →
    ip = ip'
  copy : ∀ ip, 0 < (s.icache ip).ref → (s.icache ip).valid = true →
    (s.icache ip).copy = s.dinode ip ∧ (s.dinode ip).type ≠ .free
  held : ∀ ip, 0 < holders k ip → (s.dinode ip).type ≠ .free
  /-- `new` inodes have been claimed on the disk, and nobody has locked them yet. -/
  unlinked : ∀ i, ¬ new i → (s.disk i).type ≠ .free → (s.disk i).nlink = 0 →
    ∃ ip, 0 < (s.icache ip).ref ∧ (s.icache ip).valid = true ∧ s.inum ip = i
  fair : ∀ e ∈ s.puts, e.Fair

/-- Nothing is being created. -/
abbrev Steady (k : Kernel) (H : Multiset Nat) (s : State) : Prop := Exact k H (fun _ => False) s

/-- The slots in `K` stay for the same inode. -/
structure Kept (K : Nat → Prop) (s s' : State) : Prop where
  inum : ∀ ip, K ip → s'.inum ip = s.inum ip
  valid : ∀ ip, K ip → (s.icache ip).valid = true → (s'.icache ip).valid = true
  type : ∀ ip, K ip → (s.dinode ip).type ≠ .free → (s'.dinode ip).type = (s.dinode ip).type

/-- The bytes behind the slots in `K`, directories apart, stay the same. -/
def SameBytes (K : Nat → Prop) (s s' : State) : Prop :=
  ∀ ip, K ip → (s.dinode ip).type ≠ .free → (s.dinode ip).type ≠ .T_DIR →
    (s'.dinode ip).data = (s.dinode ip).data

structure Alike (K : Nat → Prop) (s s' : State) : Prop extends Kept K s s' where
  bytes : SameBytes K s s'

structure Frame (K : Nat → Prop) (s s' : State) : Prop extends Alike K s s' where
  kernel : s'.kernel = s.kernel

section

variable {K K' : Nat → Prop} {s s' s'' : State}

theorem Kept.trans (h : Kept K s s') (h' : Kept K s' s'') : Kept K s s'' := by
  constructor
  · intro ip hip
    rw [h'.inum ip hip, h.inum ip hip]
  · exact fun ip hip hvalid => h'.valid ip hip (h.valid ip hip hvalid)
  · intro ip hip hfree
    have htype := h.type ip hip hfree
    rw [h'.type ip hip (htype ▸ hfree), htype]

theorem SameBytes.trans (h : SameBytes K s s') (hkept : Kept K s s') (h' : SameBytes K s' s'') :
    SameBytes K s s'' := by
  intro ip hip hfree hdir
  have htype := hkept.type ip hip hfree
  rw [h' ip hip (htype ▸ hfree) (htype ▸ hdir), h ip hip hfree hdir]

theorem Kept.mono (h : Kept K s s') (hsub : ∀ ip, K' ip → K ip) : Kept K' s s' :=
  ⟨fun ip hip => h.inum ip (hsub ip hip), fun ip hip => h.valid ip (hsub ip hip),
    fun ip hip => h.type ip (hsub ip hip)⟩

theorem Alike.trans (h : Alike K s s') (h' : Alike K s' s'') : Alike K s s'' :=
  ⟨h.toKept.trans h'.toKept, h.bytes.trans h.toKept h'.bytes⟩

theorem Alike.mono (h : Alike K s s') (hsub : ∀ ip, K' ip → K ip) : Alike K' s s' :=
  ⟨h.toKept.mono hsub, fun ip hip => h.bytes ip (hsub ip hip)⟩

theorem Alike.setKernel (K : Nat → Prop) (s : State) (k : Kernel) :
    Alike K s { s with kernel := k } :=
  ⟨⟨fun _ _ => rfl, fun _ _ hvalid => hvalid, fun _ _ _ => rfl⟩, fun _ _ _ _ => rfl⟩

theorem Frame.refl (K : Nat → Prop) (s : State) : Frame K s s := ⟨.setKernel K s s.kernel, rfl⟩

theorem Frame.trans (h : Frame K s s') (h' : Frame K s' s'') : Frame K s s'' :=
  ⟨h.toAlike.trans h'.toAlike, h'.kernel.trans h.kernel⟩

theorem Frame.mono (h : Frame K s s') (hsub : ∀ ip, K' ip → K ip) : Frame K' s s' :=
  ⟨h.toAlike.mono hsub, h.kernel⟩

end

variable {H : Multiset Nat}

theorem Held.cons {k : Kernel} {ip ip' : Nat} (h : Held k H ip) :
    Held k (ip' ::ₘ H) ip := h.imp_right mem_cons_of_mem

theorem Frame.tail {k : Kernel} {ip : Nat} {s s' : State} (h : Frame (Held k (ip ::ₘ H)) s s') :
    Frame (Held k H) s s' := h.mono fun _ => Held.cons

theorem Held.head {k : Kernel} {ip : Nat} : Held k (ip ::ₘ H) ip :=
  .inr (mem_cons_self ip H)

/-- Only the cache changes, and no slot in `Held k H` is given to another inode. -/
structure Quiet (k : Kernel) (H : Multiset Nat) (s s' : State) : Prop
    extends Frame (Held k H) s s' where
  disk : s'.disk = s.disk

section

variable {k : Kernel} {H : Multiset Nat} {s s' : State} {ip : Nat}

theorem Quiet.refl (k : Kernel) (H : Multiset Nat) (s : State) : Quiet k H s s := ⟨.refl _ s, rfl⟩

theorem Quiet.tail (h : Quiet k (ip ::ₘ H) s s') : Quiet k H s s' := ⟨h.toFrame.tail, h.disk⟩

theorem Quiet.ofDisk (hkernel : s'.kernel = s.kernel) (hdisk : s'.disk = s.disk)
    (hinum : ∀ ip, Held k H ip → s'.inum ip = s.inum ip)
    (hvalid : ∀ ip, Held k H ip → (s.icache ip).valid = true → (s'.icache ip).valid = true) :
    Quiet k H s s' := by
  have hdinode : ∀ ip, Held k H ip → s'.dinode ip = s.dinode ip := by
    intro ip hip
    rw [State.dinode, State.dinode, hdisk, hinum ip hip]
  refine ⟨⟨⟨⟨hinum, hvalid, fun ip hip _ => ?_⟩, fun ip hip _ _ => ?_⟩, hkernel⟩, hdisk⟩
  · rw [hdinode ip hip]
  · rw [hdinode ip hip]

end

/-! ### Slots -/

section

variable {s : State} {ip ip' : Nat} {e : Slot} {r : Int} {d : Dinode}

@[simp] theorem icache_setSlot_self : (s.setSlot ip e).icache ip = e := update_self ..

theorem icache_setSlot_of_ne (h : ip' ≠ ip) : (s.setSlot ip e).icache ip' = s.icache ip' :=
  update_of_ne h ..

theorem slot_setSlot {α : Type} (g : Slot → α) (hg : g e = g (s.icache ip)) :
    g ((s.setSlot ip e).icache ip') = g (s.icache ip') := by
  by_cases h : ip' = ip
  · subst h
    rw [icache_setSlot_self, hg]
  · rw [icache_setSlot_of_ne h]

@[simp] theorem inum_setRef : (s.setRef ip r).inum ip' = s.inum ip' := slot_setSlot Slot.inum rfl

@[simp] theorem valid_setRef : ((s.setRef ip r).icache ip').valid = (s.icache ip').valid :=
  slot_setSlot Slot.valid rfl

@[simp] theorem icache_load_self :
    (s.load ip).icache ip = { s.icache ip with copy := s.dinode ip, valid := true } :=
  icache_setSlot_self

theorem icache_load_of_ne (h : ip' ≠ ip) : (s.load ip).icache ip' = s.icache ip' :=
  icache_setSlot_of_ne h

@[simp] theorem ref_load : ((s.load ip).icache ip').ref = (s.icache ip').ref :=
  slot_setSlot Slot.ref rfl

@[simp] theorem inum_load : (s.load ip).inum ip' = s.inum ip' := slot_setSlot Slot.inum rfl

theorem valid_load (hvalid : (s.icache ip').valid = true) :
    ((s.load ip).icache ip').valid = true := by
  by_cases h : ip' = ip
  · subst h
    rw [icache_load_self]
  · rw [icache_load_of_ne h]
    exact hvalid

@[simp] theorem valid_store : ((s.store ip d).icache ip').valid = (s.icache ip').valid :=
  slot_setSlot Slot.valid rfl

@[simp] theorem inum_store : (s.store ip d).inum ip' = s.inum ip' := slot_setSlot Slot.inum rfl

@[simp] theorem dinode_store_self : (s.store ip d).dinode ip = d := by
  rw [State.dinode, inum_store]
  exact update_self ..

theorem disk_store_of_ne {i : Nat} (h : i ≠ s.inum ip) : (s.store ip d).disk i = s.disk i :=
  update_of_ne h ..

theorem dinode_store_of_ne (h : s.inum ip' ≠ s.inum ip) :
    (s.store ip d).dinode ip' = s.dinode ip' := by
  rw [State.dinode, inum_store]
  exact disk_store_of_ne h

end

/-! ### The functions of the cache -/

variable {k : Kernel} {H : Multiset Nat} {new : Nat → Prop} {s : State} {ip dev : Nat}
  {Q : Unit → State → Prop}

variable (h : Exact k H new s)
include h

theorem Exact.pos_iff : 0 < (s.icache ip).ref ↔ Held k H ip := by
  have hnonneg := holders_nonneg k ip
  rw [h.refs ip, Held, ← count_pos]
  omega

theorem Exact.mono {new' : Nat → Prop} (hnew : ∀ i, new i → new' i) : Exact k H new' s :=
  { h with unlinked := fun i hi => h.unlinked i fun hn => hi (hnew i hn) }

theorem Exact.setKernel (k' : Kernel) : Exact k H new { s with kernel := k' } :=
  ⟨h.refs, h.inside, h.dev, h.once, h.copy, h.held, h.unlinked, h.fair⟩

theorem Exact.inum_ne {ip' : Nat} (hip : Held k H ip) (hip' : Held k H ip') (hne : ip' ≠ ip) :
    s.inum ip' ≠ s.inum ip := by
  intro heq
  exact hne (h.once ip' ip (h.pos_iff.mpr hip') (h.pos_iff.mpr hip) heq)

/-- **One slot changes**, and with it at most the inode that it is for. -/
theorem Exact.change {H' : Multiset Nat} {new' : Nat → Prop} {s' : State} {e : Slot}
    (hcache : s'.icache = update s.icache ip e) (hdisk : ∀ i, i ≠ e.inum → s'.disk i = s.disk i)
    (hcount : ∀ ip', ip' ≠ ip → H'.count ip' = H.count ip')
    (href : e.ref = holders k ip + H'.count ip) (hsame : 0 < (s.icache ip).ref → e.inum = s.inum ip)
    (hother : ∀ ip', ip' ≠ ip → 0 < (s.icache ip').ref → s.inum ip' ≠ e.inum)
    (hin : 0 < e.ref → ip < NINODE ∧ e.dev = ROOTDEV)
    (hcopy : 0 < e.ref → e.valid = true → e.copy = s'.disk e.inum ∧ (s'.disk e.inum).type ≠ .free)
    (hheld : 0 < holders k ip → (s'.disk e.inum).type ≠ .free)
    (hunlinked : ¬ new' e.inum → (s'.disk e.inum).type ≠ .free → (s'.disk e.inum).nlink = 0 →
      0 < e.ref ∧ e.valid = true) (hnew : ∀ i, i ≠ e.inum → new i → new' i)
    (hfair : ∀ e ∈ s'.puts, e.Fair) : Exact k H' new' s' := by
  have hself : s'.icache ip = e := by rw [hcache, update_self]
  have hslot : ∀ ip', ip' ≠ ip → s'.icache ip' = s.icache ip' := by
    intro ip' hip
    rw [hcache, update_of_ne hip]
  have hinum : ∀ ip', ip' ≠ ip → s'.inum ip' = s.inum ip' := by
    intro ip' hip
    rw [State.inum, hslot ip' hip]
    rfl
  have hdinode : ∀ ip', ip' ≠ ip → 0 < (s.icache ip').ref → s'.dinode ip' = s.dinode ip' := by
    intro ip' hip hpos
    rw [State.dinode, hinum ip' hip, hdisk _ (hother ip' hip hpos)]
    rfl
  have hmine : s'.inum ip = e.inum := by rw [State.inum, hself]
  refine ⟨fun a => ?_, fun a => ?_, fun a => ?_, fun a b ha hb heq => ?_, fun a hpos => ?_,
    fun a hpos => ?_, fun i hi hused hzero => ?_, hfair⟩
  · by_cases ha : a = ip
    · rw [ha, hself, href]
    · rw [hslot a ha, h.refs, hcount a ha]
  · by_cases ha : a = ip
    · rw [ha, hself]
      exact fun hpos => (hin hpos).1
    · rw [hslot a ha]
      exact h.inside a
  · by_cases ha : a = ip
    · rw [ha, hself]
      exact fun hpos => (hin hpos).2
    · rw [hslot a ha]
      exact h.dev a
  · by_cases hai : a = ip
    · by_cases hbi : b = ip
      · rw [hai, hbi]
      · rw [hslot b hbi] at hb
        rw [hai, hmine, hinum b hbi] at heq
        exact absurd heq.symm (hother b hbi hb)
    · rw [hslot a hai] at ha
      by_cases hbi : b = ip
      · rw [hbi, hmine, hinum a hai] at heq
        exact absurd heq (hother a hai ha)
      · rw [hslot b hbi] at hb
        rw [hinum a hai, hinum b hbi] at heq
        exact h.once a b ha hb heq
  · by_cases ha : a = ip
    · subst ha
      rw [hself] at hpos
      rw [State.dinode, hmine, hself]
      exact hcopy hpos
    · rw [hslot a ha] at hpos
      rw [hslot a ha, hdinode a ha hpos]
      exact h.copy a hpos
  · by_cases ha : a = ip
    · subst ha
      rw [State.dinode, hmine]
      exact hheld hpos
    · rw [hdinode a ha (h.pos_iff.mpr (.inl hpos))]
      exact h.held a hpos
  · by_cases hi' : i = e.inum
    · subst hi'
      obtain ⟨hpos, hvalid⟩ := hunlinked hi hused hzero
      exact ⟨ip, by rw [hself]; exact hpos, by rw [hself]; exact hvalid, hmine⟩
    rw [hdisk i hi'] at hused hzero
    obtain ⟨a, hpos, hvalid, heq⟩ := h.unlinked i (fun hn => hi (hnew i hi' hn)) hused hzero
    have ha : a ≠ ip := by
      rintro rfl
      exact hi' ((hsame hpos).trans heq).symm
    rw [← hslot a ha] at hpos hvalid
    exact ⟨a, hpos, hvalid, (hinum a ha).trans heq⟩

/-- The slot of an inode without links is valid. -/
theorem Exact.valid_of_unlinked (hpos : 0 < (s.icache ip).ref) (hnew : ¬ new (s.inum ip))
    (hused : (s.dinode ip).type ≠ .free) (hzero : (s.dinode ip).nlink = 0) :
    (s.icache ip).valid = true := by
  obtain ⟨ip', hpos', hvalid, hinum⟩ := h.unlinked (s.inum ip) hnew hused hzero
  exact h.once ip' ip hpos' hpos hinum ▸ hvalid

theorem Exact.rehold {k' : Kernel} {H' : Multiset Nat}
    (hrefs : ∀ ip, holders k' ip + H'.count ip = holders k ip + H.count ip)
    (hheld : ∀ ip, 0 < holders k' ip → (s.dinode ip).type ≠ .free) : Exact k' H' new s :=
  { h with refs := fun ip => (h.refs ip).trans (hrefs ip).symm, held := hheld }

theorem Exact.addRef (hpos : 0 < (s.icache ip).ref) :
    Exact k (ip ::ₘ H) new (s.setRef ip ((s.icache ip).ref + 1)) := by
  refine h.change rfl (fun _ _ => rfl) (fun ip' hip => count_cons_of_ne hip H) ?_
    (fun _ => rfl) (fun ip' hip hpos' => h.inum_ne (h.pos_iff.mp hpos) (h.pos_iff.mp hpos') hip)
    (fun _ => ⟨h.inside ip hpos, h.dev ip hpos⟩) (fun _ => h.copy ip hpos) (h.held ip) ?_
    (fun _ _ hn => hn) h.fair
  · have hrefs := h.refs ip
    rw [count_cons_self]
    push_cast
    omega
  · intro hn hused hzero
    exact ⟨by simp only; omega, h.valid_of_unlinked hpos hn hused hzero⟩

omit h

theorem Quiet.setRef (k : Kernel) (H : Multiset Nat) (s : State) (ip : Nat) (r : Int) :
    Quiet k H s (s.setRef ip r) :=
  .ofDisk rfl rfl (fun _ _ => inum_setRef) fun _ _ hvalid => valid_setRef.trans hvalid

theorem scanSlots_ok {icache : Nat → Slot} {inum : Nat} :
    ∀ (ips : List Nat) {empty : Option Nat},
      scanSlots icache dev inum ips empty = .ok ip →
        0 < (icache ip).ref ∧ (icache ip).dev = dev ∧ (icache ip).inum = inum := by
  intro ips
  induction ips with
  | nil => exact fun heq => nomatch heq
  | cons a ips ih =>
    intro empty heq
    simp only [scanSlots] at heq
    split at heq
    next hit =>
      cases heq
      exact hit
    · exact ih heq

/-- Nothing found: no slot is for the inode, and the slot remembered is empty. -/
theorem scanSlots_error {icache : Nat → Slot} {inum : Nat} {r : Option Nat} :
    ∀ (ips : List Nat) {empty : Option Nat},
      scanSlots icache dev inum ips empty = .error r →
        (∀ a ∈ ips, ¬ (0 < (icache a).ref ∧ (icache a).dev = dev ∧ (icache a).inum = inum)) ∧
          ∀ a, r = some a → empty = some a ∨ (a ∈ ips ∧ (icache a).ref = 0) := by
  intro ips
  induction ips with
  | nil =>
    intro empty heq
    cases heq
    constructor
    · exact fun a ha => absurd ha List.not_mem_nil
    · exact fun a ha => .inl ha
  | cons b ips ih =>
    intro empty heq
    simp only [scanSlots] at heq
    split at heq
    · cases heq
    rename_i hmiss
    obtain ⟨hnone, hempty⟩ := ih heq
    constructor
    · intro a ha
      rcases List.mem_cons.mp ha with rfl | ha
      · exact hmiss
      · exact hnone a ha
    · intro a ha
      rcases hempty a ha with hold | ⟨hmem, hzero⟩
      · split at hold
        next hfirst =>
          cases hold
          exact .inr ⟨.head _, hfirst.2⟩
        · exact .inl hold
      · exact .inr ⟨List.mem_cons_of_mem _ hmem, hzero⟩

variable (h : Exact k H new s)
include h

theorem Exact.recycle {e : Slot} (hin : ip < NINODE) (hzero : (s.icache ip).ref = 0)
    (hdev : e.dev = ROOTDEV) (href : e.ref = 1) (hvalid : e.valid = false)
    (hnone : ∀ ip', 0 < (s.icache ip').ref → s.inum ip' ≠ e.inum) :
    Exact k (ip ::ₘ H) new (s.setSlot ip e) := by
  have hrefs := h.refs ip
  refine h.change rfl (fun _ _ => rfl) (fun ip' hip => count_cons_of_ne hip H) ?_ ?_
    (fun ip' _ hpos => hnone ip' hpos) (fun _ => ⟨hin, hdev⟩) ?_ ?_ ?_ (fun _ _ hn => hn) h.fair
  · rw [count_cons_self]
    omega
  · intro hpos
    omega
  · intro _ hval
    rw [hvalid] at hval
    cases hval
  · intro hpos
    omega
  · intro hn hused hlinks
    obtain ⟨ip', hpos, -, hinum⟩ := h.unlinked e.inum hn hused hlinks
    exact absurd hinum (hnone ip' hpos)

theorem wp_iget {inum : Nat} {Q : Nat → State → Prop} (hdev : dev = ROOTDEV)
    (hQ : ∀ ip s', Exact k (ip ::ₘ H) new s' → Quiet k H s s' → s'.inum ip = inum → Q ip s') :
    wp any (iget dev inum) Q s := by
  refine wp_atomic.mpr ⟨?_, fun _ _ => trivial⟩
  intro ip s' hstep
  split at hstep
  next ip0 hscan =>
    cases hstep
    obtain ⟨hpos, -, hinum⟩ := scanSlots_ok _ hscan
    exact hQ _ _ (h.addRef hpos) (.setRef ..) (inum_setRef.trans hinum)
  next ip0 hscan =>
    cases hstep
    obtain ⟨hnone, hempty⟩ := scanSlots_error _ hscan
    obtain ⟨hmem, hzero⟩ := (hempty ip rfl).resolve_left fun hnil => nomatch hnil
    have hother : ∀ ip', Held k H ip' → ip' ≠ ip := by
      rintro ip' hheld rfl
      have hpos := h.pos_iff.mpr hheld
      omega
    refine hQ _ _ (h.recycle (List.mem_range.mp hmem) hzero hdev rfl rfl ?_)
      (.ofDisk rfl rfl ?_ ?_) ?_
    · intro ip' hpos heq
      apply hnone ip' (List.mem_range.mpr (h.inside ip' hpos))
      exact ⟨hpos, (h.dev ip' hpos).trans hdev.symm, heq⟩
    · intro ip' hheld
      rw [State.inum, icache_setSlot_of_ne (hother ip' hheld)]
      rfl
    · intro ip' hheld hvalid
      rw [icache_setSlot_of_ne (hother ip' hheld)]
      exact hvalid
    · simp [State.inum]
  · cases hstep

theorem wp_idup (hheld : Held k H ip)
    (hQ : ∀ s', Exact k (ip ::ₘ H) new s' → Quiet k H s s' → s'.inum ip = s.inum ip → Q () s') :
    wp any (idup ip) Q s :=
  wp_modify.mpr (hQ _ (h.addRef (h.pos_iff.mpr hheld)) (.setRef ..) inum_setRef)

theorem Exact.settle (hpos : 0 < (s.icache ip).ref) (hvalid : (s.icache ip).valid = true) :
    Exact k H (fun i => new i ∧ i ≠ s.inum ip) s := by
  refine { h with unlinked := fun i hi hfree hzero => ?_ }
  by_cases heq : i = s.inum ip
  · exact ⟨ip, hpos, hvalid, heq.symm⟩
  · exact h.unlinked i (fun hn => hi ⟨hn, heq⟩) hfree hzero

theorem Exact.load (hpos : 0 < (s.icache ip).ref) (hfree : (s.dinode ip).type ≠ .free) :
    Exact k H new (s.load ip) :=
  h.change rfl (fun _ _ => rfl) (fun _ _ => rfl) (h.refs ip) (fun _ => rfl)
    (fun _ hip hpos' => h.inum_ne (h.pos_iff.mp hpos) (h.pos_iff.mp hpos') hip)
    (fun _ => ⟨h.inside ip hpos, h.dev ip hpos⟩) (fun _ _ => ⟨rfl, hfree⟩) (fun _ => hfree)
    (fun _ _ _ => ⟨hpos, rfl⟩) (fun _ _ hn => hn) h.fair

omit h

theorem Quiet.load (k : Kernel) (H : Multiset Nat) (s : State) (ip : Nat) :
    Quiet k H s (s.load ip) :=
  .ofDisk rfl rfl (fun _ _ => inum_load) fun _ _ => valid_load

theorem wp_ilock_new (h : Exact k H new s)
    (hQ : ∀ s', Exact k H (fun i => new i ∧ i ≠ s.inum ip) s' → (∀ H', Quiet k H' s s') →
      Held k H ip → (s'.icache ip).valid = true → Q () s') : wp any (ilock ip) Q s := by
  refine wp_get.mpr ?_
  split
  · trivial
  have hpos : 0 < (s.icache ip).ref := by omega
  have hheld : Held k H ip := h.pos_iff.mp hpos
  refine wp_bind.mpr (wp_acquire.mpr (wp_atomic.mpr ⟨?_, fun _ _ => trivial⟩))
  intro _ s' hstep
  split at hstep
  next hvalid =>
    cases hstep
    exact hQ s (h.settle hpos hvalid) (fun H' => .refl k H' s) hheld hvalid
  split at hstep
  · cases hstep
  rename_i hfree
  cases hstep
  have hvalid : ((s.load ip).icache ip).valid = true := by rw [icache_load_self]
  have hpos' : 0 < ((s.load ip).icache ip).ref := by rw [ref_load]; exact hpos
  have hsettled := (h.load hpos hfree).settle hpos' hvalid
  rw [inum_load] at hsettled
  exact hQ _ hsettled (fun H' => .load k H' s ip) hheld hvalid

theorem wp_ilock (h : Steady k H s)
    (hQ : ∀ s', Steady k H s' → (∀ H', Quiet k H' s s') → Held k H ip →
      (s'.icache ip).valid = true → Q () s') : wp any (ilock ip) Q s :=
  wp_ilock_new h fun s' h' => hQ s' (h'.mono fun _ hi => hi.1)

theorem wp_iunlock (hQ : Q () s) : wp any (iunlock ip) Q s := by
  refine wp_get.mpr ?_
  split
  · trivial
  · exact hQ

variable (h : Exact k H new s)
include h

variable (hheld : Held k H ip)
include hheld

theorem Exact.store {d : Dinode} (hvalid : (s.icache ip).valid = true) (hfree : d.type ≠ .free) :
    Exact k H new (s.store ip d) := by
  have hpos := h.pos_iff.mpr hheld
  have hself : (s.store ip d).disk (s.inum ip) = d := update_self ..
  have hused : ((s.store ip d).disk (s.inum ip)).type ≠ .free := by
    rw [hself]
    exact hfree
  exact h.change rfl (fun i hi => disk_store_of_ne hi) (fun _ _ => rfl) (h.refs ip) (fun _ => rfl)
    (fun ip' hip hpos' => h.inum_ne hheld (h.pos_iff.mp hpos') hip)
    (fun _ => ⟨h.inside ip hpos, h.dev ip hpos⟩) (fun _ _ => ⟨hself.symm, hused⟩) (fun _ => hused)
    (fun _ _ _ => ⟨hpos, hvalid⟩) (fun _ _ hn => hn) h.fair

theorem Exact.kept_store {d : Dinode} (htype : d.type = (s.dinode ip).type) :
    Kept (Held k H) s (s.store ip d) ∧
      SameBytes (fun ip' => Held k H ip' ∧ ip' ≠ ip) s (s.store ip d) := by
  refine ⟨⟨fun _ _ => inum_store, fun ip' _ hval => ?_, fun ip' hip' _ => ?_⟩, ?_⟩
  · rw [valid_store]
    exact hval
  · by_cases hip : ip' = ip
    · subst hip
      rw [dinode_store_self]
      exact htype
    · rw [dinode_store_of_ne (h.inum_ne hheld hip' hip)]
  · rintro ip' ⟨hip', hip⟩ _ _
    rw [dinode_store_of_ne (h.inum_ne hheld hip' hip)]

theorem Exact.copy_eq (hvalid : (s.icache ip).valid = true) :
    (s.icache ip).copy = s.dinode ip ∧ (s.dinode ip).type ≠ .free :=
  h.copy ip (h.pos_iff.mpr hheld) hvalid

theorem Exact.frame_store {d : Dinode} (htype : d.type = (s.dinode ip).type)
    (hdata : (s.dinode ip).type ≠ .T_DIR → d.data = (s.dinode ip).data) :
    Frame (Held k H) s (s.store ip d) := by
  obtain ⟨hkept, hbytes⟩ := h.kept_store hheld htype
  refine ⟨⟨hkept, fun ip' hip' hfree hdir => ?_⟩, rfl⟩
  by_cases hip : ip' = ip
  · subst hip
    rw [dinode_store_self]
    exact hdata hdir
  · exact hbytes ip' ⟨hip', hip⟩ hfree hdir

theorem wp_iupdate {f : Dinode → Dinode} (hvalid : (s.icache ip).valid = true)
    (htype : ∀ d, (f d).type = d.type) (hdata : ∀ d, (f d).data = d.data)
    (hQ : ∀ s', Exact k H new s' → Frame (Held k H) s s' →
      s'.disk = update s.disk (s.inum ip) (f (s.dinode ip)) → Q () s') :
    wp any (iupdate ip f) Q s := by
  obtain ⟨hcopy, hfree⟩ := h.copy_eq hheld hvalid
  apply wp_modify.mpr
  rw [hcopy]
  apply hQ
  · apply h.store hheld hvalid
    rw [htype]
    exact hfree
  · apply h.frame_store hheld (htype _)
    exact fun _ => hdata _
  · rfl

omit h

omit hheld

/-! ### `iput` -/

/-- The slot that drops the last reference to an inode without links is valid. -/
theorem last_iff (h : Steady k H s) (hheld : Held k H ip) :
    last s ip = true ↔
      (s.dinode ip).type ≠ .free ∧ (s.icache ip).ref = 1 ∧ (s.dinode ip).nlink = 0 := by
  have hpos := h.pos_iff.mpr hheld
  simp only [last, Bool.and_eq_true, beq_iff_eq]
  constructor
  · rintro ⟨⟨hvalid, hzero⟩, hone⟩
    obtain ⟨hcopy, hfree⟩ := h.copy ip hpos hvalid
    rw [hcopy] at hzero
    exact ⟨hfree, hone, hzero⟩
  · rintro ⟨hfree, hone, hzero⟩
    have hvalid := h.valid_of_unlinked hpos id hfree hzero
    rw [(h.copy ip hpos hvalid).1]
    exact ⟨⟨hvalid, hzero⟩, hone⟩

theorem Exact.fair_drop {s' : State} (h : Exact k H new s) (hputs : s'.puts = s.puts)
    (hput : Put.Fair ⟨(s.icache ip).ref, s.dinode ip, s'.dinode ip⟩) :
    ∀ e ∈ (s.drop ip s').puts, e.Fair := by
  intro e he
  rcases List.mem_append.mp he with he | he
  · exact h.fair e (hputs ▸ he)
  · rw [List.mem_singleton.mp he]
    exact hput

theorem Exact.drop (h : Steady k (ip ::ₘ H) s) (hlast : ¬ last s ip = true) :
    Steady k H (s.drop ip s) := by
  have hnot := mt (last_iff h Held.head).mpr hlast
  have hpos := h.pos_iff.mpr Held.head
  refine h.change rfl (fun _ _ => rfl) (fun ip' hip => (count_cons_of_ne hip H).symm) ?_
    (fun _ => rfl) (fun ip' hip hpos' => h.inum_ne Held.head (h.pos_iff.mp hpos') hip)
    (fun _ => ⟨h.inside ip hpos, h.dev ip hpos⟩) (fun _ => h.copy ip hpos) (h.held ip) ?_
    (fun _ _ hn => hn) (h.fair_drop rfl (if_neg hnot).symm)
  · have hrefs := h.refs ip
    rw [count_cons_self] at hrefs
    simp only
    omega
  · -- the inode has no links, so this was not the last reference
    intro _ hused hzero
    have hmore : (s.icache ip).ref ≠ 1 := fun hone => hnot ⟨hused, hone, hzero⟩
    exact ⟨by simp only; omega, h.valid_of_unlinked hpos id hused hzero⟩

theorem Exact.dropLast (h : Steady k (ip ::ₘ H) s) (hlast : last s ip = true) :
    Steady k H (s.drop ip (s.free ip)) ∧ Frame (Held k H) s (s.drop ip (s.free ip)) := by
  have hall := (last_iff h Held.head).mp hlast
  have hone := hall.2.1
  have hrefs := h.refs ip
  have hnonneg := holders_nonneg k ip
  rw [count_cons_self] at hrefs
  have hgone : ∀ ip', Held k H ip' → ip' ≠ ip := by
    rintro ip' (hpos | hmem) rfl
    · omega
    · have hcount := count_pos.mpr hmem
      omega
  have hdisk : ∀ i, i ≠ s.inum ip → (s.drop ip (s.free ip)).disk i = s.disk i :=
    fun i hi => disk_store_of_ne hi
  have hvalid : (s.icache ip).valid = true := by
    simp only [last, Bool.and_eq_true] at hlast
    exact hlast.1.1
  -- the copy that was cleared is what was on the disk
  have hafter : (s.free ip).disk (s.inum ip) = (s.dinode ip).cleared := by
    rw [← (h.copy_eq Held.head hvalid).1]
    exact update_self ..
  have hcache : (s.drop ip (s.free ip)).icache = update s.icache ip
      { s.icache ip with copy := (s.icache ip).copy.cleared, valid := false, ref := 0 } := by
    simp [State.drop, State.setRef, State.free, State.store, State.setSlot, hone]
  constructor
  · refine h.change hcache hdisk (fun ip' hip => (count_cons_of_ne hip H).symm) ?_
      (fun _ => rfl) (fun ip' hip hpos' => h.inum_ne Held.head (h.pos_iff.mp hpos') hip)
      (fun hpos => absurd hpos (lt_irrefl 0)) (fun hpos => absurd hpos (lt_irrefl 0)) ?_ ?_
      (fun _ _ hn => hn) (h.fair_drop rfl ?_)
    · simp only
      omega
    · intro hpos
      omega
    · intro _ hused
      exact absurd (congrArg Dinode.type hafter) hused
    have hinum : (s.free ip).inum ip = s.inum ip := by simp [State.free, State.inum, State.store]
    rw [Put.Fair, if_pos hall]
    simp only [State.dinode, hinum]
    exact hafter
  · have hslot : ∀ ip', Held k H ip' → (s.drop ip (s.free ip)).icache ip' = s.icache ip' := by
      intro ip' hip'
      rw [hcache, update_of_ne (hgone ip' hip')]
    have hinum : ∀ ip', Held k H ip' → (s.drop ip (s.free ip)).inum ip' = s.inum ip' :=
      fun ip' hip' => congrArg Slot.inum (hslot ip' hip')
    have hdinode : ∀ ip', Held k H ip' → (s.drop ip (s.free ip)).dinode ip' = s.dinode ip' := by
      intro ip' hip'
      rw [State.dinode, hinum ip' hip']
      exact hdisk _ (h.inum_ne Held.head hip'.cons (hgone ip' hip'))
    refine ⟨⟨⟨hinum, fun ip' hip' hv => ?_, fun ip' hip' _ => ?_⟩, fun ip' hip' _ _ => ?_⟩, rfl⟩
    · rw [hslot ip' hip']
      exact hv
    · rw [hdinode ip' hip']
    · rw [hdinode ip' hip']

/-- **`iput`** changes the disk only if it frees the inode. -/
theorem wp_iput (h : Steady k (ip ::ₘ H) s)
    (hQ : ∀ s', Steady k H s' → Frame (Held k H) s s' → (¬ last s ip = true → s'.disk = s.disk) →
      (∀ i, i ≠ s.inum ip → s'.disk i = s.disk i) → Q () s') : wp any (iput ip) Q s := by
  refine wp_bind.mpr (wp_acquire.mpr (wp_bind.mpr ?_))
  refine wp_bind.mpr (wp_onlyIf.mpr ⟨fun hlast => ?_, fun hlast => ?_⟩)
  · obtain ⟨h', hframe⟩ := h.dropLast hlast
    exact hQ _ h' hframe (absurd hlast) fun i hi => disk_store_of_ne hi
  · have hquiet : Quiet k H s (s.drop ip s) := .ofDisk rfl rfl
      (fun _ _ => inum_setRef) fun _ _ hvalid => (valid_setRef).trans hvalid
    exact hQ _ (h.drop hlast) hquiet.toFrame (fun _ => rfl) fun _ _ => rfl

/-! ### `ialloc` -/

theorem Exact.claim {i : Nat} (h : Steady k H s) (type : InodeType)
    (hfree : (s.disk i).type = .free) :
    Exact k H (fun j => j = i) { s with disk := update s.disk i (.blank type) } ∧
      ∀ K, Frame K s { s with disk := update s.disk i (.blank type) } := by
  have hdinode : ∀ ip, (s.dinode ip).type ≠ .free →
      State.dinode { s with disk := update s.disk i (.blank type) } ip = s.dinode ip := by
    intro ip hused
    apply update_of_ne
    intro heq
    apply hused
    exact (congrArg (fun j => (s.disk j).type) heq).trans hfree
  constructor
  · constructor
    · exact h.refs
    · exact h.inside
    · exact h.dev
    · exact h.once
    · intro ip hpos hvalid
      obtain ⟨hcopy, hused⟩ := h.copy ip hpos hvalid
      rw [hdinode ip hused]
      exact ⟨hcopy, hused⟩
    · intro ip hpos
      rw [hdinode ip (h.held ip hpos)]
      exact h.held ip hpos
    · intro j hj
      have hdisk : update s.disk i (.blank type) j = s.disk j := update_of_ne hj ..
      simp only [hdisk]
      exact h.unlinked j id
    · exact h.fair
  · intro K
    refine ⟨⟨⟨fun _ _ => rfl, fun _ _ hvalid => hvalid, fun ip _ hused => ?_⟩,
      fun ip _ hused _ => ?_⟩, rfl⟩
    · rw [hdinode ip hused]
    · rw [hdinode ip hused]

theorem wp_iallocLoop {type : InodeType} {Q : Nat → State → Prop} (h : Steady k H s)
    (hdev : dev = ROOTDEV)
    (hQ : ∀ ip s', Exact k (ip ::ₘ H) (fun j => j = s'.inum ip) s' → Frame (Held k H) s s' →
      (s.disk (s'.inum ip)).type = .free → Q ip s') :
    ∀ n i, wp any (iallocLoop dev type n i) Q s := by
  intro n
  induction n with
  | zero => exact fun _ => trivial
  | succ n ih =>
    intro i
    refine wp_bind.mpr (wp_atomic.mpr ⟨?_, fun _ _ => trivial⟩)
    intro found s1 hstep
    split at hstep
    next hfree =>
      cases hstep
      obtain ⟨h1, hframe1⟩ := h.claim type hfree
      refine wp_iget h1 hdev fun ip s2 h2 hquiet2 hinum => ?_
      subst hinum
      exact hQ ip s2 h2 ((hframe1 _).trans hquiet2.toFrame) hfree
    · cases hstep
      exact ih (i + 1)

end Xv6.Icache
