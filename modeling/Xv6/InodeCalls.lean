import Xv6.FileRefs
import Xv6.InodeOrder

/-!
**The system calls keep the order of the inode locks.**

One lemma for each function of `Path` and `SysFile`, run by one process among others: every
`ilock` it does under a lock goes up, and an `iput` under locks names those. What the process
knows between two steps is `Amid`; a lemma says which locks, references and reliance its function
leaves.
-/

namespace Xv6.Fs

open Program List

/-! ### Amid a call -/

/-- What process `p` knows between two steps of a call: its references `X`, its directory `w`, and
that the inode `y` it relies on is no directory. -/
structure Amid (p : Fin NPROC) (w : Option Nat) (X : Multiset Nat) (y : Option Nat) (s : State)
    (g : Ghost) : Prop where
  inv : Ordered s g
  own : g.own p = X
  pin : g.pin p = y
  cwd : (s.kernel.ptable p).cwd = w
  small : ∀ i, w = some i → i < 65536
  file : ∀ i, y = some i → (s.inode i).type ≠ .T_DIR

/-- The state after a function: the locks, and what the process knows. -/
def Leaves (p : Fin NPROC) (w : Option Nat) (X : Multiset Nat) (y : Option Nat) (held : List Nat)
    (held' : List Nat) (s' : State) (g' : Ghost) : Prop :=
  held' = held ∧ Amid p w X y s' g'

/-- What stays when a process also writes to what it has locked. -/
structure Stay (held : List Nat) (s : State) (g : Ghost) (s' : State) (g' : Ghost) : Prop where
  births : ∀ i, g.birth i ≤ g'.birth i
  locked : ∀ i ∈ held, (s.inode i).type ≠ .free →
    (s'.inode i).type = (s.inode i).type ∧ g'.birth i = g.birth i

variable {c : PathCall} {p : Fin NPROC} {held locked held' : List Nat} {s s' s'' : State}
  {g g' g'' : Ghost} {i dp ip off : Nat} {w : Option Nat} {X Y : Multiset Nat} {x y : Option Nat}
  {α : Type} {a : α} {m : Fprog α} {Q : α → List Nat → State → Ghost → Prop} {name : Name}
  {path : Path} {type : InodeType} {major minor : Int} {args : Option Path} {omode : UInt32}

theorem Kept.stay (h : Kept p held s g s' g') : Stay held s g s' g' := by
  refine ⟨h.births, fun i hi htype => ?_⟩
  obtain ⟨hinode, hbirth, -⟩ := h.locked i hi htype
  exact ⟨by rw [hinode], hbirth⟩

theorem Stay.trans (h : Stay held s g s' g') (h' : Stay held s' g' s'' g'') :
    Stay held s g s'' g'' := by
  refine ⟨fun i => (h.births i).trans (h'.births i), fun i hi htype => ?_⟩
  obtain ⟨htype1, hbirth1⟩ := h.locked i hi htype
  obtain ⟨htype2, hbirth2⟩ := h'.locked i hi (htype1 ▸ htype)
  exact ⟨htype2.trans htype1, hbirth2.trans hbirth1⟩

theorem Stay.type_ne_free (h : Stay held s g s' g') (hi : i ∈ held)
    (htype : (s.inode i).type ≠ .free) : (s'.inode i).type ≠ .free := by
  rw [(h.locked i hi htype).1]
  exact htype

variable (h : Amid p w X y s g)
include h

theorem Amid.kept (hinv : Ordered s' g') (hown : g'.own p = Y) (hkept : Kept p held s g s' g') :
    Amid p w Y y s' g' where
  inv := hinv
  own := hown
  pin := hkept.pin.trans h.pin
  cwd := hkept.cwd.trans h.cwd
  small := h.small
  file i hi := by
    rw [hkept.pinned i (h.pin.trans hi)]
    exact h.file i hi

theorem Amid.frame (hinv : Ordered s' g') (hf : treeOrder.frame p held s g s' g') :
    Amid p w X y s' g' :=
  h.kept hinv (hf.1.trans h.own) hf.2

theorem Amid.after {Y : α → Multiset Nat}
    (hm : treeOrder.Safe c p m (fun a => After p held' (Y a) s g) held s g) :
    treeOrder.Safe c p m (fun a => Leaves p w (Y a) y held') held s g :=
  hm.mono fun _ _ _ _ hinv hafter => ⟨hafter.held_eq, h.kept hinv hafter.own hafter.kept⟩

theorem Amid.pure (hQ : Q a = Leaves p w X y held) : treeOrder.Safe c p (pure a) Q held s g :=
  Rely.safe_pure fun _ _ hinv hframe => hQ ▸ ⟨rfl, h.frame hinv hframe⟩

theorem Amid.bind {β : Type} {Y : α → Multiset Nat} {locks : α → List Nat} {f : α → Fprog β}
    {R : β → List Nat → State → Ghost → Prop}
    (hm : treeOrder.Safe c p m (fun a => Leaves p w (Y a) x (locks a)) held s g)
    (hf : ∀ a s g, Amid p w (Y a) x s g → treeOrder.Safe c p (f a) R (locks a) s g) :
    treeOrder.Safe c p (m >>= f) R held s g := by
  refine Rely.Safe.bind hm h.inv ?_
  rintro a _ s1 g1 - ⟨rfl, h1⟩
  exact hf a s1 g1 h1

/-! ### The inode cache -/

theorem Amid.iget (hi : i < 65536) :
    treeOrder.Safe c p (iget i) (fun _ => Leaves p w (i ::ₘ X) y held) held s g :=
  h.after (safe_iget hi h.own)

theorem Amid.idup (hi : i < 65536) :
    treeOrder.Safe c p (idup i) (fun _ => Leaves p w (i ::ₘ X) y held) held s g :=
  h.after (safe_idup hi h.own)

omit h

theorem Amid.iput (h : Amid p w (i ::ₘ X) y s g) (hsub : held ⊆ locked)
    (hy : ∀ j, y = some j → j ∈ X) :
    treeOrder.Safe c p (iput locked i) (fun _ => Leaves p w X y held) held s g :=
  h.after (safe_iput h.inv h.own hsub (h.pin ▸ hy))

theorem Amid.iunlock (h : Amid p w X y s g) :
    treeOrder.Safe c p (iunlock i) (fun _ => Leaves p w X y []) [i] s g :=
  h.after (safe_iunlock_only h.inv h.own)

theorem Amid.iunlockput (h : Amid p w (i ::ₘ X) y s g) (hy : ∀ j, y = some j → j ∈ X) :
    treeOrder.Safe c p (iunlockput [] i) (fun _ => Leaves p w X y []) [i] s g :=
  h.after (safe_iunlockput_only h.inv h.own (h.pin ▸ hy))

theorem Amid.iunlockput_under (h : Amid p w (i ::ₘ X) none s g) (hi : i ∈ held)
    (herase : held.erase i = held') :
    treeOrder.Safe c p (Fs.iunlockput held' i) (fun _ => Leaves p w X none held') held s g := by
  subst herase
  have hpin : ∀ j, g.pin p = some j → j ∈ X := fun j hj => nomatch h.pin.symm.trans hj
  exact h.after (safe_iunlockput h.inv h.own hi (List.Subset.refl _) hpin)

theorem Amid.iunlockput_return (h : Amid p w (i ::ₘ X) y s g) (hy : ∀ j, y = some j → j ∈ X)
    (hQ : Q a = Leaves p w X y []) :
    treeOrder.Safe c p (Fs.iunlockput [] i >>= fun _ => Pure.pure a) Q [i] s g := by
  refine h.bind (h.iunlockput hy) fun _ _ _ h1 => ?_
  exact h1.pure hQ

theorem Amid.ilock (h : Amid p w X y s g) :
    treeOrder.Safe c p (ilock i) (fun _ held' s' g' => held' = [i] ∧ Amid p w X y s' g' ∧
      (s'.inode i).type ≠ .free) [] s g := by
  refine Rely.Safe.mono (safe_ilock h.inv h.own fun _ _ _ _ j hj => nomatch hj) ?_
  rintro _ held1 s1 g1 hinv1 ⟨rfl, hX1, hkept1, htype1⟩
  exact ⟨rfl, h.kept hinv1 hX1 hkept1, htype1⟩

theorem Amid.look {f : State → α} (h : Amid p w X y s g) :
    treeOrder.Safe c p (reads f) (fun _ => Leaves p w X y held) held s g := by
  refine safe_look.mono ?_
  rintro a held1 s1 g1 hinv1 ⟨rfl, hframe1, -⟩
  exact ⟨rfl, h.frame hinv1 hframe1⟩

theorem Amid.lookType (h : Amid p w X y s g) (hi : i ∈ held) (htype : (s.inode i).type ≠ .free) :
    treeOrder.Safe c p (reads fun s => (s.inode i).type) (fun a held' s' g' => held' = held ∧
      Amid p w X y s' g' ∧ (s'.inode i).type = a ∧ (s'.inode i).type ≠ .free) held s g := by
  refine safe_look.mono ?_
  rintro a held2 s2 g2 hinv2 ⟨rfl, hframe2, s1, g1, -, rfl, hframe1, -⟩
  refine ⟨rfl, h.frame hinv2 hframe2, ?_, hframe2.2.type_ne_free hi htype⟩
  rw [(hframe2.2.locked i hi htype).1, (hframe1.2.locked i hi htype).1]

/-! ### Writing -/

/-- The state after a function that writes. -/
structure Changed (p : Fin NPROC) (w : Option Nat) (held : List Nat) (X : Multiset Nat)
    (y : Option Nat) (s : State) (g : Ghost) (held' : List Nat) (s' : State) (g' : Ghost) :
    Prop where
  held_eq : held' = held
  amid : Amid p w X y s' g'
  stay : Stay held s g s' g'

theorem Changed.since (h : Changed p w held X y s' g' held' s'' g'') (hstay : Stay held s g s' g') :
    Changed p w held X y s g held' s'' g'' :=
  ⟨h.held_eq, h.amid, hstay.trans h.stay⟩

theorem Amid.pure_changed (h : Amid p w X y s' g') (hstay : Stay held s g s' g') :
    treeOrder.Safe c p (Pure.pure a) (fun _ => Changed p w held X y s g) held s' g' :=
  Rely.safe_pure fun _ _ hinv hframe => ⟨rfl, h.frame hinv hframe, hstay.trans hframe.2.stay⟩

/-- The process now relies on `y`. -/
structure Relies (p : Fin NPROC) (held : List Nat) (X : Multiset Nat) (y : Option Nat) (s : State)
    (g : Ghost) : Prop where
  allowed : treeOrder.Allowed p held s g s (g.hold p X y)
  file : ∀ i, y = some i → (s.inode i).type ≠ .T_DIR

theorem Amid.relies (h : Amid p w X y s g) : Relies p held X y s g := by
  refine ⟨?_, h.file⟩
  rw [← h.own, ← h.pin, Ghost.hold_self]
  exact .refl h.inv

theorem Amid.relies_none (h : Amid p w X y s g) : Relies p held X none s g := by
  refine ⟨allowed_cache h.inv rfl rfl rfl h.inv.valid ?_ ?_ nofun, nofun⟩
  · intro j
    have hrefs := h.inv.refs j
    rw [h.own]
    omega
  · exact fun j hj => h.inv.owned p j (h.own ▸ hj)

/-- **Writing to a locked inode**, with a change of what the process relies on: entries it had,
or new ones that go up. -/
theorem Amid.write {d : Inode} (h : Amid p w X x s g) (hy : Relies p held X y s g) (hi : i ∈ held)
    (htype : d.type = (s.inode i).type) (hout : ∀ j ∈ d.out, rank s g i < rank s g j) :
    ∃ g', treeOrder.Allowed p held s g (s.setInode i d) g' ∧
      ∀ s₁ g₁, Ordered s₁ g₁ → treeOrder.frame p held (s.setInode i d) g' s₁ g₁ →
        Changed p w held X y s g held s₁ g₁ := by
  have hallowed := hy.allowed.trans (allowed_setInode hy.allowed.1 hi htype hout)
  refine ⟨g.hold p X y, hallowed, fun s₁ g₁ hinv₁ hframe₁ => ?_⟩
  have htypes : ∀ j, ((s.setInode i d).inode j).type = (s.inode j).type := by
    intro j
    by_cases hj : j = i
    · subst hj; simpa [State.setInode] using htype
    · simp [State.setInode, hj]
  have hself : Amid p w X y (s.setInode i d) (g.hold p X y) :=
    ⟨hallowed.1, by simp [Ghost.hold], by simp [Ghost.hold], h.cwd, h.small,
      fun j hj => htypes j ▸ hy.file j hj⟩
  refine ⟨rfl, hself.frame hinv₁ hframe₁, Stay.trans ?_ hframe₁.2.stay⟩
  exact ⟨fun _ => Nat.le_refl _, fun j _ _ => ⟨htypes j, rfl⟩⟩

theorem Amid.iupdate {f : Inode → Inode} (h : Amid p w X x s g) (hi : i ∈ held)
    (htype : ∀ d, (f d).type = d.type) (hout : ∀ d j, j ∈ (f d).out → j ∈ d.out)
    (hy : ∀ s₁ g₁, Amid p w X x s₁ g₁ → treeOrder.frame p held s g s₁ g₁ →
      Relies p held X y s₁ g₁) :
    treeOrder.Safe c p (iupdate i f) (fun _ => Changed p w held X y s g) held s g := by
  refine Rely.safe_modify fun s₁ g₁ hinv₁ hframe₁ => ?_
  have h₁ := h.frame hinv₁ hframe₁
  obtain ⟨g', hallowed, hchanged⟩ := h₁.write (hy s₁ g₁ h₁ hframe₁) hi (htype _)
    fun j hj => hinv₁.up i j (hout _ j hj)
  exact ⟨g', hallowed, fun s₂ g₂ hinv₂ hframe₂ =>
    (hchanged s₂ g₂ hinv₂ hframe₂).since hframe₁.2.stay⟩

theorem Amid.addLink {n : Int} (h : Amid p w X y s g) (hi : i ∈ held) :
    treeOrder.Safe c p (Fs.iupdate i fun d => d.addLink n)
      (fun _ => Changed p w held X y s g) held s g :=
  h.iupdate hi (fun _ => rfl) (fun _ _ hj => hj) fun _ _ h₁ _ => h₁.relies

/-! ### Directories and paths -/

theorem Amid.dirlookup (h : Amid p w X y s g) (hdp : dp ∈ held)
    (htype : (s.inode dp).type ≠ .free) :
    treeOrder.Safe c p (dirlookup dp name) (fun r held' s' g' => held' = held ∧
      Kept p held s g s' g' ∧ (s.inode dp).type = .T_DIR ∧
      match r with
      | none => Amid p w X y s' g'
      | some (ip, off) => Amid p w (ip ::ₘ X) y s' g' ∧
          ip = ((s.inode dp).entry off).inum.toNat ∧ (s.inode dp).lookup name = some off)
      held s g := by
  refine safe_look.bind h.inv ?_
  rintro d held1 s2 g2 hinv2 ⟨rfl, hframe2, s1, g1, -, rfl, hframe1, -⟩
  have hsame : s1.inode dp = s.inode dp := (hframe1.2.locked dp hdp htype).1
  have h2 := h.frame hinv2 hframe2
  simp only [hsame]
  split
  · trivial
  rename_i hdir
  have hdir : (s.inode dp).type = .T_DIR := not_not.mp hdir
  split
  · exact Rely.safe_pure fun s3 g3 hinv3 hframe3 =>
      ⟨rfl, hframe2.2.trans hframe3.2, hdir, h2.frame hinv3 hframe3⟩
  rename_i off hfound
  refine (safe_iget (UInt16.toNat_lt _) h2.own).bind hinv2 ?_
  rintro _ held3 s3 g3 - ⟨rfl, hX3, hkept3⟩
  refine Rely.safe_pure fun s4 g4 hinv4 hframe4 => ?_
  have hkept4 := hkept3.trans hframe4.2
  exact ⟨rfl, hframe2.2.trans hkept4, hdir, h2.kept hinv4 (hframe4.1.trans hX3) hkept4, rfl, hfound⟩

/-- `dirlink`: the new entry has to go up, unless it is `.` or `..`. -/
theorem Amid.dirlink {inum : Nat} (h : Amid p w X y s g) (hdp : dp ∈ held)
    (htype : (s.inode dp).type ≠ .free) (hsub : held ⊆ locked) (hinum : inum < 65536)
    (hy : ∀ j, y = some j → j ∈ X)
    (hup : name ≠ dot → name ≠ dotdot → (s.inode dp).type = .T_DIR →
      ∀ s' g', Amid p w X y s' g' → treeOrder.frame p held s g s' g' →
        rank s' g' dp < rank s' g' inum) :
    treeOrder.Safe c p (dirlink locked dp name inum) (fun r held' s' g' =>
      (r < 0 → Leaves p w X y held held' s' g') ∧
      (¬ r < 0 → Changed p w held X none s g held' s' g')) held s g := by
  refine (h.dirlookup hdp htype).bind h.inv ?_
  rintro (_ | ⟨ip, off⟩) held1 s1 g1 - ⟨rfl, hkept1, hdir, h1⟩
  · -- not there: the entry is written
    refine Rely.Safe.bind (Q := fun _ => Changed p w held1 X none s g)
      (Rely.safe_atomic fun s2 g2 hinv2 hframe2 _ s3 hstep => ?_) h1.inv ?_
    · split at hstep
      · cases hstep
        have h2 := h1.frame hinv2 hframe2
        have hframe : treeOrder.frame p held1 s g s2 g2 :=
          ⟨h2.own.trans h.own.symm, hkept1.trans hframe2.2⟩
        have hout : ∀ j ∈ ((s2.inode dp).write (s2.inode dp).emptySlot
            ⟨UInt16.ofNat inum, name⟩).out, rank s2 g2 dp < rank s2 g2 j := by
          intro j hj
          rcases Inode.mem_out_write hj with hold | ⟨-, hproper, rfl⟩
          · exact hinv2.up dp j hold
          simp only [Dirent.proper, decide_eq_true_eq] at hproper
          have hnum : (UInt16.ofNat inum).toNat = inum := by
            rw [UInt16.toNat_ofNat']
            omega
          rw [hnum]
          exact hup hproper.2.1 hproper.2.2 hdir s2 g2 h2 hframe
        obtain ⟨g', hallowed, hchanged⟩ := h2.write (d := (s2.inode dp).write _ _)
          h2.relies_none hdp rfl hout
        exact ⟨g', hallowed, fun s4 g4 hinv4 hframe4 =>
          (hchanged s4 g4 hinv4 hframe4).since hframe.2.stay⟩
      · cases hstep
    · rintro _ held4 s4 g4 - ⟨rfl, h4, hstay4⟩
      refine Rely.safe_pure fun s5 g5 hinv5 hframe5 => ⟨fun hr => absurd hr (by decide), fun _ => ?_⟩
      exact ⟨rfl, h4.frame hinv5 hframe5, hstay4.trans hframe5.2.stay⟩
  · -- there already: the reference goes back
    refine (h1.1.iput hsub hy).bind h1.1.inv ?_
    rintro _ held2 s2 g2 - ⟨rfl, h2⟩
    refine Rely.safe_pure fun s3 g3 hinv3 hframe3 => ⟨fun _ => ?_, absurd (by decide)⟩
    exact ⟨rfl, h2.frame hinv3 hframe3⟩

def found (X : Multiset Nat) : Option (Nat × Name) → Multiset Nat
  | none => X
  | some (ip, _) => ip ::ₘ X

theorem Amid.walk (parent : Bool) (hy : ∀ j, y = some j → j ∈ X) (names : List Name)
    (h : Amid p w (ip ::ₘ X) y s g) :
    treeOrder.Safe c p (walk parent names ip) (fun r => Leaves p w (found X r) y []) [] s g := by
  induction names generalizing ip s g with
  | nil =>
    unfold Fs.walk
    split
    · refine h.bind (h.iput (nil_subset _) hy) fun _ s1 g1 h1 => ?_
      exact h1.pure rfl
    · exact h.pure rfl
  | cons name rest ih =>
    refine h.ilock.bind h.inv ?_
    rintro _ held1 s1 g1 - ⟨rfl, h1, htype1⟩
    refine (h1.lookType (mem_singleton_self ip) htype1).bind h1.inv ?_
    rintro type held2 s2 g2 - ⟨rfl, h2, -, htype2⟩
    split
    · exact h2.iunlockput_return hy rfl
    split
    · refine h2.bind h2.iunlock fun _ s3 g3 h3 => ?_
      exact h3.pure rfl
    refine (h2.dirlookup (mem_singleton_self ip) htype2).bind h2.inv ?_
    rintro (_ | ⟨next, off⟩) held3 s3 g3 - ⟨rfl, -, -, h3⟩
    · exact Amid.iunlockput_return h3 hy rfl
    have h3 : Amid p w (ip ::ₘ next ::ₘ X) y s3 g3 := Multiset.cons_swap next ip X ▸ h3.1
    refine h3.bind (h3.iunlockput fun j hj => Multiset.mem_cons_of_mem (hy j hj)) fun _ _ _ h4 => ?_
    exact ih h4

theorem Amid.start (h : Amid p w X y s g) :
    treeOrder.Safe c p (start p path) (fun ip => Leaves p w (ip ::ₘ X) y []) [] s g := by
  unfold Fs.start
  split
  · refine h.bind (h.iget (by decide)) fun _ s1 g1 h1 => ?_
    exact h1.pure rfl
  refine safe_look.bind h.inv ?_
  rintro cwd held2 s2 g2 hinv2 ⟨rfl, hframe2, s1, g1, -, rfl, hframe1, -⟩
  have h2 := h.frame hinv2 hframe2
  split
  next cwd hread =>
    have hcwd : w = some cwd := by rw [← h.cwd, ← hframe1.2.cwd, hread]
    exact h2.bind (h2.idup (h.small cwd hcwd)) fun _ _ _ h3 => h3.pure rfl
  · trivial

theorem Amid.namex {parent : Bool} (h : Amid p w X y s g) (hy : ∀ j, y = some j → j ∈ X) :
    treeOrder.Safe c p (namex p parent path) (fun r => Leaves p w (found X r) y []) [] s g := by
  refine h.bind h.start fun ip _ _ h1 => ?_
  exact h1.walk parent hy (elements path)

theorem Amid.namei (h : Amid p w X y s g) (hy : ∀ j, y = some j → j ∈ X) :
    treeOrder.Safe c p (namei p path)
      (fun r => Leaves p w (r.elim X fun ip => ip ::ₘ X) y []) [] s g := by
  refine h.bind (h.namex hy) ?_
  rintro (_ | ⟨ip, name⟩) _ _ h1
  · exact h1.pure rfl
  · exact h1.pure rfl

/-! ### `create` -/

/-- The directory is older than the inode. -/
def Older (dp ip : Nat) (s : State) (g : Ghost) : Prop :=
  (s.inode dp).type = .T_DIR ∧ g.birth dp < g.birth ip

theorem Older.rank_lt (h : Older dp ip s g) : rank s g dp < rank s g ip :=
  rank_lt_of_birth h.1 h.2

theorem Older.stay (h : Older dp ip s g) (hdp : dp ∈ held) (hstay : Stay held s g s' g') :
    Older dp ip s' g' := by
  obtain ⟨htype, hbirth⟩ := hstay.locked dp hdp (by simp [h.1])
  exact ⟨htype.trans h.1, hbirth ▸ lt_of_lt_of_le h.2 (hstay.births ip)⟩

/-- Between two steps of `ialloc` nobody locks the new inode's parent, and the new inode only
gets younger. -/
theorem safe_claim (hX : g.own p = X) :
    treeOrder.Safe c p (claim type i) (fun r held' s' g' => After p held X s g held' s' g' ∧
      (r = true → ∀ h ∈ held, (s.inode h).type = .T_DIR → Older h i s' g')) held s g := by
  refine Rely.safe_atomic fun s1 g1 hinv1 hframe1 r s2 hstep => ?_
  split at hstep
  next hfree =>
    cases hstep
    refine ⟨g1.bear i, allowed_claim hinv1 hfree rfl, fun s3 g3 _ hframe3 => ⟨?_, ?_⟩⟩
    · refine After.frame ?_ hframe3
      exact ⟨rfl, hframe1.1.trans hX, hframe1.2.trans (kept_claim hinv1 hfree)⟩
    intro _ h hh hdir
    have hdir1 := hframe1.2.isDir hh hdir
    have hkept : Kept p held s1 g1 s3 g3 := (kept_claim hinv1 hfree).trans hframe3.2
    refine ⟨hkept.isDir hh hdir1, ?_⟩
    calc g3.birth h = g1.birth h := (hkept.locked h hh (by simp [hdir1])).2.1
      _ < (g1.bear i).birth i := by simpa [Ghost.bear] using hinv1.young h
      _ ≤ g3.birth i := hframe3.2.births i
  · cases hstep
    refine ⟨g1, .refl hinv1, fun s3 g3 _ hframe3 => ⟨?_, by simp⟩⟩
    exact ⟨rfl, by rw [hframe3.1, hframe1.1, hX], hframe1.2.trans hframe3.2⟩

theorem safe_iallocLoop (n i : Nat) (hinv : Ordered s g) (hX : g.own p = X) (hn : i + n ≤ 65536) :
    treeOrder.Safe c p (iallocLoop type n i) (fun ip held' s' g' =>
      After p held (ip ::ₘ X) s g held' s' g' ∧ ip < 65536 ∧
      ∀ h ∈ held, (s.inode h).type = .T_DIR → Older h ip s' g') held s g := by
  induction n generalizing i s g with
  | zero => trivial
  | succ n ih =>
    refine (safe_claim hX).bind hinv ?_
    rintro (_ | _) held1 s1 g1 hinv1 ⟨⟨rfl, hX1, hkept1⟩, holder1⟩
    · refine (ih (i + 1) hinv1 hX1 (by omega)).mono ?_
      rintro ip held2 s2 g2 - ⟨hafter, hsmall, holder⟩
      refine ⟨After.trans ⟨rfl, hX1, hkept1⟩ hafter, hsmall, fun h hh hdir => ?_⟩
      exact holder h hh (hkept1.isDir hh hdir)
    · refine (safe_iget (by omega) hX1).bind hinv1 ?_
      rintro _ held2 s2 g2 hinv2 ⟨rfl, hX2, hkept2⟩
      refine Rely.safe_pure fun s3 g3 _ hframe3 => ⟨?_, by omega, fun h hh hdir => ?_⟩
      · exact After.frame ⟨rfl, hX2, hkept1.trans hkept2⟩ hframe3
      · exact (holder1 rfl h hh hdir).stay hh (hkept2.trans hframe3.2).stay

theorem Amid.ialloc (h : Amid p w X y s g) :
    treeOrder.Safe c p (ialloc type) (fun ip held' s' g' =>
      Leaves p w (ip ::ₘ X) y held held' s' g' ∧ ip < 65536 ∧
      ∀ d ∈ held, (s.inode d).type = .T_DIR → Older d ip s' g') held s g := by
  refine safe_look.bind h.inv ?_
  rintro n held2 s2 g2 hinv2 ⟨rfl, hframe2, s1, g1, hinv1, rfl, -, -⟩
  have hsmall := hinv1.small
  have h2 := h.frame hinv2 hframe2
  refine (safe_iallocLoop (s1.ninodes - 1) 1 hinv2 h2.own (by omega)).mono ?_
  rintro ip held3 s3 g3 hinv3 ⟨hafter, hip, holder⟩
  refine ⟨⟨hafter.held_eq, h2.kept hinv3 hafter.own hafter.kept⟩, hip, fun d hd hdir => ?_⟩
  exact holder d hd (hframe2.2.isDir hd hdir)

theorem Amid.dirlink_dots {inum : Nat} (h : Amid p w X none s g) (hdp : dp ∈ held)
    (htype : (s.inode dp).type ≠ .free) (hsub : held ⊆ locked) (hinum : inum < 65536)
    (hname : name = dot ∨ name = dotdot) :
    treeOrder.Safe c p (Fs.dirlink locked dp name inum) (fun r held' s' g' =>
      ¬ r < 0 → Changed p w held X none s g held' s' g') held s g := by
  refine (h.dirlink hdp htype hsub hinum nofun ?_).mono fun _ _ _ _ _ hdone => hdone.2
  intro hdot hdotdot
  rcases hname with rfl | rfl
  · exact absurd rfl hdot
  · exact absurd rfl hdotdot

theorem Amid.createDots (h : Amid p w X none s g) (hdp : dp < 65536) (hip : ip < 65536)
    (htype : (s.inode ip).type ≠ .free) :
    treeOrder.Safe c p (createDots dp ip) (fun _ => Changed p w [ip, dp] X none s g)
      [ip, dp] s g := by
  have hmem : ip ∈ [ip, dp] := .head _ ..
  refine (h.addLink (.tail _ (mem_singleton_self dp))).bind h.inv ?_
  rintro _ held1 s1 g1 - ⟨rfl, h1, hstay1⟩
  have htype1 := hstay1.type_ne_free hmem htype
  refine (h1.dirlink_dots hmem htype1 (List.Subset.refl _) hip (.inl rfl)).bind h1.inv ?_
  intro r held2 s2 g2 _ hlinked
  split
  · trivial
  rename_i hr
  obtain ⟨rfl, h2, hstay2⟩ := hlinked hr
  refine (h2.dirlink_dots hmem (hstay2.type_ne_free hmem htype1) (List.Subset.refl _) hdp
    (.inr rfl)).bind h2.inv ?_
  intro r held3 s3 g3 _ hlinked
  split
  · trivial
  rename_i hr
  obtain ⟨rfl, h3, hstay3⟩ := hlinked hr
  exact h3.pure_changed (hstay1.trans (hstay2.trans hstay3))

theorem erase_second (ip dp : Nat) : [ip, dp].erase dp = [ip] := by
  by_cases heq : ip = dp
  · simp [heq]
  · simp [heq]

theorem Amid.createIn (h : Amid p w (dp ::ₘ X) none s g) (hdir : (s.inode dp).type = .T_DIR) :
    treeOrder.Safe c p (createIn dp name type major minor)
      (fun ip => Leaves p w (ip ::ₘ X) none [ip]) [dp] s g := by
  have hdp : dp < 65536 := h.inv.owned p dp (h.own ▸ Multiset.mem_cons_self ..)
  have hmem : dp ∈ [dp] := mem_singleton_self dp
  refine h.ialloc.bind h.inv ?_
  rintro ip held1 s1 g1 - ⟨⟨rfl, h1⟩, hip, holder⟩
  have holder1 := holder dp hmem hdir
  refine (safe_ilock h1.inv h1.own ?_).bind h1.inv ?_
  · intro s2 g2 _ hframe2 d hd
    obtain rfl := mem_singleton.mp hd
    exact (holder1.stay hmem hframe2.2.stay).rank_lt
  rintro _ held2 s2 g2 hinv2 ⟨rfl, hX2, hkept2, htype2⟩
  have h2 := h1.kept hinv2 hX2 hkept2
  refine Rely.Safe.bind (h2.iupdate (.head _ ..) (fun _ => rfl) (fun _ _ hj => hj)
    fun _ _ h' _ => h'.relies) h2.inv ?_
  rintro _ held3 s3 g3 - ⟨rfl, h3, hstay3⟩
  refine Rely.Safe.bind (Q := fun _ => Changed p w [ip, dp] (ip ::ₘ dp ::ₘ X) none s2 g2) ?_
    h3.inv ?_
  · unfold onlyIf
    split
    · exact (h3.createDots hdp hip (hstay3.type_ne_free (.head _ ..) htype2)).mono
        fun _ _ _ _ _ hchanged => hchanged.since hstay3
    · exact h3.pure_changed hstay3
  rintro _ held4 s4 g4 - ⟨rfl, h4, hstay4⟩
  have hmem' : dp ∈ [ip, dp] := .tail _ (mem_singleton_self dp)
  have holder4 := (holder1.stay hmem hkept2.stay).stay hmem' hstay4
  refine (h4.dirlink hmem' (by simp [holder4.1]) (List.Subset.refl _) hip (by simp) ?_).bind h4.inv ?_
  · intro _ _ _ s5 g5 _ hframe5
    exact (holder4.stay hmem' hframe5.2.stay).rank_lt
  rintro r held5 s5 g5 - ⟨-, hlinked⟩
  split
  · trivial
  rename_i hr
  obtain ⟨rfl, h5, -⟩ := hlinked hr
  rw [Multiset.cons_swap] at h5
  exact h5.bind (h5.iunlockput_under hmem' (erase_second ip dp)) fun _ _ _ h6 => h6.pure rfl

/-- The state after a function that may return a locked inode. -/
def Returned (p : Fin NPROC) (w : Option Nat) (X : Multiset Nat) (r : Option Nat) :
    List Nat → State → Ghost → Prop :=
  Leaves p w (r.elim X fun ip => ip ::ₘ X) none (r.elim [] fun ip => [ip])

theorem Amid.create (h : Amid p w X none s g) :
    treeOrder.Safe c p (create p path type major minor) (Returned p w X) [] s g := by
  refine h.bind (h.namex nofun) ?_
  rintro (_ | ⟨dp, name⟩) _ _ h1
  · exact h1.pure rfl
  refine h1.ilock.bind h1.inv ?_
  rintro _ held2 s2 g2 - ⟨rfl, h2, htype2⟩
  have hmem : dp ∈ [dp] := mem_singleton_self dp
  refine (h2.dirlookup hmem htype2).bind h2.inv ?_
  rintro (_ | ⟨ip, off⟩) held3 s3 g3 - ⟨rfl, hkept3, hdir, h3⟩
  · refine (Amid.createIn h3 (hkept3.isDir hmem hdir)).bind (Amid.inv h3) ?_
    rintro ip held4 s4 g4 - ⟨rfl, h4⟩
    exact h4.pure rfl
  have h3 : Amid p w (dp ::ₘ ip ::ₘ X) none s3 g3 := Multiset.cons_swap ip dp X ▸ h3.1
  refine h3.bind (h3.iunlockput nofun) fun _ _ _ h4 => ?_
  refine h4.ilock.bind h4.inv ?_
  rintro _ held5 s5 g5 - ⟨rfl, h5, -⟩
  refine h5.bind h5.look fun found _ _ h6 => ?_
  split
  · exact h6.pure rfl
  · exact h6.iunlockput_return nofun rfl

/-! ### System calls -/

/-- What a call owes at its end. -/
def Finished (p : Fin NPROC) (w : Option Nat) (X : Multiset Nat) (_ : Int) :
    List Nat → State → Ghost → Prop := Leaves p w X none []

theorem Amid.linkBad (h : Amid p w (ip ::ₘ X) y s g) :
    treeOrder.Safe c p (linkBad ip) (Finished p w X) [] s g := by
  refine h.ilock.bind h.inv ?_
  rintro _ held1 s1 g1 - ⟨rfl, h1, -⟩
  refine Rely.Safe.bind (h1.iupdate (mem_singleton_self ip) (fun _ => rfl)
    (fun _ _ hj => hj) fun _ _ h' _ => h'.relies_none) h1.inv ?_
  rintro _ held2 s2 g2 - ⟨rfl, h2, -⟩
  exact h2.iunlockput_return nofun rfl

/-- `link` makes its entry while it relies on `ip` being no directory. -/
theorem Amid.linkInto {new : Path} (h : Amid p w (ip ::ₘ X) (some ip) s g) :
    treeOrder.Safe c p (linkInto p ip new) (Finished p w X) [] s g := by
  have hip : ip < 65536 := h.inv.owned p ip (h.own ▸ Multiset.mem_cons_self ..)
  have hmem : ∀ j, some ip = some j → j ∈ ip ::ₘ X := by
    rintro _ ⟨⟩
    exact Multiset.mem_cons_self ..
  refine h.bind (h.namex hmem) ?_
  rintro (_ | ⟨dp, name⟩) _ _ h1
  · exact Amid.linkBad h1
  refine h1.ilock.bind h1.inv ?_
  rintro _ held2 s2 g2 - ⟨rfl, h2, htype2⟩
  refine (h2.dirlink (mem_singleton_self dp) htype2 (List.Subset.refl _) hip
    (fun j hj => Multiset.mem_cons_of_mem (hmem j hj)) ?_).bind h2.inv ?_
  · intro _ _ hdir s3 g3 h3 hframe3
    rw [rank_eq_top (h3.file ip rfl), rank_eq_birth (hframe3.2.isDir (mem_singleton_self dp) hdir)]
    exact WithTop.coe_lt_top _
  rintro r held3 s3 g3 - ⟨hfailed, hlinked⟩
  split
  next hr =>
    obtain ⟨rfl, h3⟩ := hfailed hr
    refine h3.bind (Amid.iunlockput h3 hmem) fun _ s4 g4 h4 => ?_
    exact h4.linkBad
  next hr =>
    obtain ⟨rfl, h3, -⟩ := hlinked hr
    refine h3.bind (Amid.iunlockput h3 (by simp)) fun _ _ _ h4 => ?_
    exact h4.bind (h4.iput (nil_subset _) (by simp)) fun _ _ _ h5 => h5.pure rfl

theorem Amid.sysLink {args : Option (Path × Path)} (h : Amid p w X none s g) :
    treeOrder.Safe c p (sysLink p args) (Finished p w X) [] s g := by
  rcases args with _ | ⟨old, new⟩
  · exact h.pure rfl
  refine h.bind (h.namei nofun) ?_
  rintro (_ | ip) _ _ h1
  · exact h1.pure rfl
  have hmem : ip ∈ [ip] := mem_singleton_self ip
  refine h1.ilock.bind h1.inv ?_
  rintro _ held2 s2 g2 - ⟨rfl, h2, htype2⟩
  refine (h2.lookType hmem htype2).bind h2.inv ?_
  rintro type held3 s3 g3 - ⟨rfl, h3, rfl, htype3⟩
  split
  · exact h3.iunlockput_return nofun rfl
  rename_i hfile
  refine Rely.Safe.bind (h3.iupdate (y := some ip) hmem (fun _ => rfl) (fun _ _ hj => hj)
    fun s' g' h' hframe' => ⟨?_, ?_⟩) h3.inv ?_
  · have hown : g'.own p = ip ::ₘ X := h'.own
    have hpin := allowed_pin h'.inv hmem (hown ▸ Multiset.mem_cons_self ..)
      (hframe'.2.type_ne_free hmem htype3)
    rwa [hown] at hpin
  · rintro _ ⟨⟩
    rw [(hframe'.2.locked ip hmem htype3).1]
    exact hfile
  rintro _ held5 s5 g5 - ⟨rfl, h5, -⟩
  refine h5.bind h5.iunlock fun _ _ _ h6 => ?_
  exact Amid.linkInto h6

theorem Amid.unlinkBad (h : Amid p w (dp ::ₘ X) none s g) :
    treeOrder.Safe c p (unlinkBad dp) (Finished p w X) [dp] s g :=
  h.iunlockput_return nofun rfl

theorem out_write_zero (d : Inode) (off j : Nat) (h : j ∈ (d.write off Dirent.zero).out) :
    j ∈ d.out := by
  rcases Inode.mem_out_write h with hold | ⟨-, hproper, -⟩
  · exact hold
  · cases hproper

theorem Amid.unlinkEntry (h : Amid p w (ip ::ₘ dp ::ₘ X) none s g) :
    treeOrder.Safe c p (unlinkEntry dp ip off type) (Finished p w X) [ip, dp] s g := by
  have hdp : dp ∈ [ip, dp] := .tail _ (mem_singleton_self dp)
  refine Rely.Safe.bind (h.iupdate hdp (fun _ => rfl) (fun d j hj => out_write_zero d off j hj)
    fun _ _ h' _ => h'.relies) h.inv ?_
  rintro _ held1 s1 g1 - ⟨rfl, h1, -⟩
  refine Rely.Safe.bind (Q := fun _ => Leaves p w (ip ::ₘ dp ::ₘ X) none [ip, dp]) ?_ h1.inv ?_
  · unfold onlyIf
    split
    · exact (h1.addLink hdp).mono fun _ _ _ _ _ hchanged => ⟨hchanged.held_eq, hchanged.amid⟩
    · exact h1.pure rfl
  rintro _ held2 s2 g2 - ⟨rfl, h2⟩
  rw [Multiset.cons_swap] at h2
  refine h2.bind (h2.iunlockput_under hdp (erase_second ip dp)) fun _ _ _ h3 => ?_
  refine (h3.addLink (mem_singleton_self ip)).bind h3.inv ?_
  rintro _ held4 s4 g4 - ⟨rfl, h4, -⟩
  exact h4.iunlockput_return (by simp) rfl

theorem Amid.unlinkIn (h : Amid p w (dp ::ₘ X) none s g) (htype : (s.inode dp).type ≠ .free) :
    treeOrder.Safe c p (unlinkIn dp name) (Finished p w X) [dp] s g := by
  have hmem : dp ∈ [dp] := mem_singleton_self dp
  unfold Fs.unlinkIn
  split
  · exact h.unlinkBad
  rename_i hname
  rw [not_or] at hname
  refine (h.dirlookup hmem htype).bind h.inv ?_
  rintro (_ | ⟨ip, off⟩) held1 s1 g1 - ⟨rfl, hkept1, hdir, h1⟩
  · exact Amid.unlinkBad h1
  obtain ⟨h1, rfl, hlookup⟩ := h1
  refine (safe_ilock h1.inv h1.own ?_).bind h1.inv ?_
  · intro s2 g2 hinv2 hframe2 d hd
    obtain rfl := mem_singleton.mp hd
    have hsame : s2.inode d = s.inode d := ((hkept1.trans hframe2.2).locked d hmem htype).1
    refine hinv2.up d _ ?_
    rw [hsame]
    exact Inode.mem_out_of_lookup hdir hlookup hname.1 hname.2
  rintro _ held2 s2 g2 hinv2 ⟨rfl, hX2, hkept2, -⟩
  refine (h1.kept hinv2 hX2 hkept2).look.bind hinv2 ?_
  rintro d held3 s3 g3 - ⟨rfl, h3⟩
  split
  · trivial
  split
  · refine h3.bind (h3.iunlockput_under (.head _ ..) (erase_cons_head ..)) fun _ _ _ h4 => ?_
    exact h4.unlinkBad
  · exact h3.unlinkEntry

theorem Amid.sysUnlink (h : Amid p w X none s g) :
    treeOrder.Safe c p (sysUnlink p args) (Finished p w X) [] s g := by
  rcases args with _ | path
  · exact h.pure rfl
  refine h.bind (h.namex nofun) ?_
  rintro (_ | ⟨dp, name⟩) _ _ h1
  · exact h1.pure rfl
  refine h1.ilock.bind h1.inv ?_
  rintro _ held2 s2 g2 - ⟨rfl, h2, htype2⟩
  exact Amid.unlinkIn h2 htype2

theorem Amid.openInode (h : Amid p w X none s g) :
    treeOrder.Safe c p (openInode p path omode) (Returned p w X) [] s g := by
  unfold Fs.openInode
  split
  · exact h.create
  refine h.bind (h.namei (by simp)) ?_
  rintro (_ | ip) _ _ h1
  · exact h1.pure rfl
  refine h1.ilock.bind h1.inv ?_
  rintro _ held2 s2 g2 - ⟨rfl, h2, -⟩
  refine h2.bind h2.look fun type _ _ h3 => ?_
  split
  · exact Amid.iunlockput_return h3 (by simp) rfl
  · exact h3.pure rfl

theorem sysOpen_cwd {k k' : Kernel} {ip : Option Nat} {fd : Int}
    (h : Xv6.sysOpen k p ip omode = .ok (k', fd)) (q : Fin NPROC) :
    (k'.ptable q).cwd = (k.ptable q).cwd := by
  have halloc : ∀ {k k' : Kernel} {f : Fin NFILE}, filealloc k = some (k', f) →
      k'.ptable = k.ptable := by
    intro k k' f h
    unfold filealloc at h
    split at h
    · cases h; rfl
    · cases h
  have hclose : ∀ {k k' : Kernel} {f : Fin NFILE} {ff : Option File},
      Xv6.fileclose k f = .ok (k', ff) → k'.ptable = k.ptable := by
    intro k k' f ff h
    simp only [Xv6.fileclose] at h
    split at h
    · cases h
    split at h
    · cases h; rfl
    · cases h; rfl
  unfold Xv6.sysOpen at h
  rcases ip with _ | ip
  · cases h; rfl
  rcases hf : filealloc k with _ | ⟨k1, f⟩
  · simp only [hf] at h
    cases h; rfl
  simp only [hf] at h
  rcases hfd : fdalloc k1 p f with _ | ⟨k2, fd'⟩
  · simp only [hfd] at h
    rcases hc : Xv6.fileclose k1 f with e | ⟨k3, ff⟩
    · rw [hc] at h
      cases h
    · rw [hc] at h
      cases h
      rw [hclose hc, halloc hf]
  · simp only [hfd] at h
    cases h
    rw [← halloc hf, (fdalloc_eq_some hfd).1]
    by_cases hq : q = p
    · subst hq; simp [Kernel.setSlot, Kernel.setProc]
    · simp [Kernel.setSlot, Kernel.setProc, hq]

theorem allowed_forget (hinv : Ordered s g) (hX : g.own p = i ::ₘ X) :
    treeOrder.Allowed p held s g s (g.hold p X none) := by
  refine allowed_cache hinv rfl rfl rfl hinv.valid ?_ ?_ nofun
  · intro j
    have hrefs := hinv.refs j
    have hcount : X.count j ≤ (g.own p).count j := by
      rw [hX]
      exact Multiset.count_le_count_cons ..
    omega
  · exact fun j hj => hinv.owned p j (hX ▸ Multiset.mem_cons_of_mem hj)

theorem Amid.openFile (h : Amid p w (ip ::ₘ X) none s g) :
    treeOrder.Safe c p (onKernel fun k => Xv6.sysOpen k p (some ip) omode)
      (fun fd => Leaves p w (if fd < 0 then ip ::ₘ X else X) none [ip]) [ip] s g := by
  refine Rely.safe_atomic fun s2 g2 hinv2 hframe2 fd s3 hstep => ?_
  have h2 := h.frame hinv2 hframe2
  split at hstep
  next k fd' hopen =>
    cases hstep
    have hkernel : treeOrder.Allowed p [ip] s2 g2 { s2 with kernel := k } g2 :=
      allowed_kernel hinv2 fun q _ => sysOpen_cwd hopen q
    have hcwd : (k.ptable p).cwd = w := (sysOpen_cwd hopen p).trans h2.cwd
    by_cases hfd : fd < 0
    · have h3 : Amid p w (ip ::ₘ X) none { s2 with kernel := k } g2 :=
        ⟨hkernel.1, h2.own, h2.pin, hcwd, h2.small, nofun⟩
      refine ⟨g2, hkernel, fun s4 g4 hinv4 hframe4 => ⟨rfl, ?_⟩⟩
      rw [if_pos hfd]
      exact h3.frame hinv4 hframe4
    · have hforget : treeOrder.Allowed p [ip] { s2 with kernel := k } g2 { s2 with kernel := k }
          (g2.hold p X none) := allowed_forget hkernel.1 h2.own
      have h3 : Amid p w X none { s2 with kernel := k } (g2.hold p X none) :=
        ⟨hforget.1, by simp [Ghost.hold], by simp [Ghost.hold], hcwd, h2.small, nofun⟩
      refine ⟨_, hkernel.trans hforget, fun s4 g4 hinv4 hframe4 => ⟨rfl, ?_⟩⟩
      rw [if_neg hfd]
      exact h3.frame hinv4 hframe4
  · cases hstep
  · cases hstep

theorem Amid.sysOpen {args : Option (Path × UInt32)} (h : Amid p w X none s g) :
    treeOrder.Safe c p (sysOpen p args) (Finished p w X) [] s g := by
  rcases args with _ | ⟨path, omode⟩
  · exact h.pure rfl
  refine h.bind h.openInode ?_
  rintro (_ | ip) _ _ h1
  · exact h1.pure rfl
  refine h1.bind (Amid.openFile h1) fun fd _ _ h2 => ?_
  split
  next hfd =>
    rw [if_pos hfd] at h2
    exact h2.iunlockput_return (by simp) rfl
  rename_i hfd
  rw [if_neg hfd] at h2
  exact h2.bind h2.iunlock fun _ _ _ h3 => h3.pure rfl

theorem Amid.createDone (h : Amid p w X none s g) :
    treeOrder.Safe c p (Fs.create p path type major minor >>= createDone) (Finished p w X)
      [] s g := by
  refine h.bind h.create ?_
  rintro (_ | ip) _ _ h1
  · exact h1.pure rfl
  · exact Amid.iunlockput_return h1 nofun rfl

theorem Amid.sysMkdir (h : Amid p w X none s g) :
    treeOrder.Safe c p (sysMkdir p args) (Finished p w X) [] s g := by
  rcases args with _ | path
  · exact h.pure rfl
  · exact h.createDone

theorem Amid.sysMknod {args : Option (Path × Int × Int)} (h : Amid p w X none s g) :
    treeOrder.Safe c p (sysMknod p args) (Finished p w X) [] s g := by
  rcases args with _ | ⟨path, major, minor⟩
  · exact h.pure rfl
  · exact h.createDone

def cwdRef (p : Fin NPROC) (s : State) : Multiset Nat :=
  (s.kernel.ptable p).cwd.elim 0 fun i => {i}

theorem Amid.putCwd (h : Amid p w (ip ::ₘ w.elim 0 fun i => {i}) none s g) :
    treeOrder.Safe c p (putCwd p) (fun _ => Leaves p w {ip} none []) [] s g := by
  refine safe_look.bind h.inv ?_
  rintro cwd held2 s2 g2 hinv2 ⟨rfl, hframe2, s1, g1, -, rfl, hframe1, -⟩
  have h2 := h.frame hinv2 hframe2
  split
  next cwd hread =>
    have hcwd : w = some cwd := by rw [← h.cwd, ← hframe1.2.cwd, hread]
    subst hcwd
    have hX : ip ::ₘ {cwd} = cwd ::ₘ ({ip} : Multiset Nat) := Multiset.pair_comm ip cwd
    exact Amid.iput (hX ▸ h2) (nil_subset _) (by simp)
  · trivial

theorem Amid.idle (h : Amid p w (w.elim 0 fun i => {i}) none s g) : treeOrder.idle p s g :=
  ⟨by rw [h.own, h.cwd], h.pin⟩

/-- `chdir` ends with the reference to the new directory instead of the old one. -/
theorem Amid.sysChdir (h : Amid p w (w.elim 0 fun i => {i}) none s g) :
    treeOrder.Safe c p (sysChdir p args)
      (fun _ held' s' g' => held' = [] ∧ treeOrder.idle p s' g') [] s g := by
  have hdone : ∀ {m : Fprog Int} {held s g},
      treeOrder.Safe c p m (Finished p w (w.elim 0 fun i => {i})) held s g →
      treeOrder.Safe c p m (fun _ held' s' g' => held' = [] ∧ treeOrder.idle p s' g') held s g :=
    fun hm => hm.mono fun _ _ _ _ _ hend => ⟨hend.1, hend.2.idle⟩
  rcases args with _ | path
  · exact hdone (h.pure rfl)
  refine h.bind (h.namei nofun) ?_
  rintro (_ | ip) _ _ h1
  · exact hdone (h1.pure rfl)
  refine h1.ilock.bind h1.inv ?_
  rintro _ held2 s2 g2 - ⟨rfl, h2, -⟩
  refine h2.bind h2.look fun type _ _ h3 => ?_
  split
  · exact hdone (Amid.iunlockput_return h3 nofun rfl)
  refine h3.bind h3.iunlock fun _ _ _ h4 => ?_
  refine h4.bind (Amid.putCwd h4) fun _ _ _ h5 => ?_
  refine Rely.Safe.bind (Q := fun _ held' s' g' => held' = [] ∧ treeOrder.idle p s' g')
    (Rely.safe_modify fun s6 g6 hinv6 hframe6 => ?_) h5.inv ?_
  · have h6 := h5.frame hinv6 hframe6
    refine ⟨g6, allowed_kernel hinv6 fun q hq => by simp [setCwd, Kernel.setProc, hq],
      fun s7 g7 _ hframe7 => ⟨rfl, treeOrder.idle_frame ⟨?_, h6.pin⟩ hframe7⟩⟩
    simp [setCwd, Kernel.setProc, h6.own]
  · rintro _ held6 s6 g6 - ⟨rfl, hidle6⟩
    exact Rely.safe_pure fun s7 g7 _ hframe7 => ⟨rfl, treeOrder.idle_frame hidle6 hframe7⟩

/-- **Every call keeps the order.** -/
theorem safe_run (call : PathCall) (hinv : Ordered s g) (hidle : treeOrder.idle p s g) :
    treeOrder.Safe c p (call.run p)
      (fun _ held' s' g' => held' = [] ∧ treeOrder.idle p s' g') [] s g := by
  have h : Amid p (s.kernel.ptable p).cwd ((s.kernel.ptable p).cwd.elim 0 fun i => {i}) none s g := by
    refine ⟨hinv, hidle.1, hidle.2, rfl, fun i hi => hinv.owned p i ?_, nofun⟩
    rw [hidle.1, hi]
    exact Multiset.mem_singleton_self i
  cases call with
  | SYS_link => exact h.sysLink.mono fun _ _ _ _ _ hend => ⟨hend.1, hend.2.idle⟩
  | SYS_unlink => exact h.sysUnlink.mono fun _ _ _ _ _ hend => ⟨hend.1, hend.2.idle⟩
  | SYS_open => exact h.sysOpen.mono fun _ _ _ _ _ hend => ⟨hend.1, hend.2.idle⟩
  | SYS_mkdir => exact h.sysMkdir.mono fun _ _ _ _ _ hend => ⟨hend.1, hend.2.idle⟩
  | SYS_mknod => exact h.sysMknod.mono fun _ _ _ _ _ hend => ⟨hend.1, hend.2.idle⟩
  | SYS_chdir => exact h.sysChdir

end Xv6.Fs
