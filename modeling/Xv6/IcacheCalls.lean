import Xv6.IcacheRefs

/-!
**Every system call gives back the references it takes.**

Weakest preconditions for path lookup and the calls of `Icache`, run alone. `Amid` says which
references a call has in hand, and under which condition the disk is still as it found it; a
call that ends has none in hand, whatever it returns.
-/

namespace Xv6.Icache

open Program Function Multiset
open Fs (Name Path Dirent InodeType SLASH dot dotdot elements O_CREATE O_RDONLY setCwd holders
  holders_nonneg fileHolds cwdHolds Tidy Files Unmoved)

/-! ### Where a path leads -/

/-- `dirlookup`'s loop. -/
def findEntry (d : Dinode) (name : Name) : Scan :=
  scanFrom d (fun de => de.inum ≠ 0 ∧ de.name = name) 0

/-- Where these names lead from inode `i`. -/
def follow (disk : Nat → Dinode) (parent : Bool) : List Name → Nat → Option (Nat × Name)
  | [], i => if parent then none else some (i, Name.ofBytes [])
  | name :: rest, i =>
      if (disk i).type ≠ .T_DIR then none
      else if parent ∧ rest = [] then some (i, name)
      else
        match findEntry (disk i) name with
        | .found _ de => follow disk parent rest de.inum.toNat
        | _ => none

/-- Where a path leads for process `p`: the number of an inode, and the last name. -/
def lookup (s : State) (p : Fin NPROC) (parent : Bool) (path : Path) : Option (Nat × Name) :=
  if path.head? = some SLASH then follow s.disk parent (elements path) ROOTINO
  else ((s.kernel.ptable p).cwd.map s.inum).bind (follow s.disk parent (elements path))

/-- The loop has come to the end of the directory. -/
def Scan.isEnded : Scan → Bool
  | .ended _ => true
  | _ => false

def missing (s : State) (p : Fin NPROC) (path : Path) : Bool :=
  match lookup s p true path with
  | some (dp, name) => (findEntry (s.disk dp) name).isEnded
  | none => false

/-! ### Amid a call -/

/-- The references `X` on top of `H`. -/
def inHand (H : Multiset Nat) : List Nat → Multiset Nat
  | [] => H
  | ip :: X => ip ::ₘ inHand H X

/-- **Amid a call** that began at `s0` with the references `H`, and has `X` in hand besides. The
disk is as it was then if `c`. -/
structure Amid (k : Kernel) (c : Prop) (H : Multiset Nat) (s0 : State) (X : List Nat)
    (s : State) : Prop where
  base : Steady k H s0
  steady : Steady k (inHand H X) s
  frame : Frame (Held k H) s0 s
  disk : c → s.disk = s0.disk

section

variable {k : Kernel} {c c' : Prop} {H : Multiset Nat} {X Y : List Nat} {s0 s s' : State}
  {p : Fin NPROC} {ip dp : Nat} {name : Name} {Q : Unit → State → Prop} {d : Dinode} {path : Path}
  {type : InodeType}

theorem Held.inHand (h : Held k H ip) : ∀ X, Held k (inHand H X) ip
  | [] => h
  | _ :: X => (h.inHand X).cons

theorem Amid.begin (h : Steady k H s) : Amid k c H s [] s := ⟨h, h, .refl _ s, fun _ => rfl⟩

theorem Amid.weaken (h : Amid k c H s0 X s) (hc : c' → c) : Amid k c' H s0 X s :=
  { h with disk := fun hc' => h.disk (hc hc') }

theorem Amid.swap {ip' : Nat} (h : Amid k c H s0 [ip, ip'] s) : Amid k c H s0 [ip', ip] s :=
  ⟨h.base, (congrArg (Steady k · s) (cons_swap ip ip' H)).mp h.steady, h.frame, h.disk⟩

theorem Amid.after (h : Amid k c H s0 X s) (h' : Steady k (inHand H Y) s')
    (hframe : Frame (Held k H) s s') (hdisk : c' → c ∧ s'.disk = s.disk) :
    Amid k c' H s0 Y s' :=
  ⟨h.base, h', h.frame.trans hframe, fun hc => (hdisk hc).2.trans (h.disk (hdisk hc).1)⟩

theorem Frame.base (hframe : Frame (Held k (inHand H X)) s s') : Frame (Held k H) s s' :=
  hframe.mono fun _ hip => hip.inHand X

theorem Amid.quiet (h : Amid k c H s0 X s) (h' : Steady k (inHand H Y) s')
    (hquiet : Quiet k (inHand H X) s s') : Amid k c H s0 Y s' :=
  h.after h' hquiet.base fun hc => ⟨hc, hquiet.disk⟩

/-- An inode without links that was there at the beginning has a holder besides the call. -/
theorem Amid.not_last (h : Amid k c H s0 (ip :: X) s) (hc : c) : ¬ last s ip = true := by
  intro hlast
  obtain ⟨hused, hone, hzero⟩ := (last_iff h.steady Held.head).mp hlast
  rw [State.dinode, h.disk hc] at hused hzero
  obtain ⟨ip', hpos, -, hinum⟩ := h.base.unlinked (s.inum ip) id hused hzero
  have hheld := h.base.pos_iff.mp hpos
  have hsame : ip' = ip := by
    apply h.steady.once ip' ip (h.steady.pos_iff.mpr (hheld.inHand _))
      (h.steady.pos_iff.mpr Held.head)
    exact (h.frame.inum ip' hheld).trans hinum
  have hmore : Held k (inHand H X) ip := hsame ▸ hheld.inHand X
  have hrefs := h.steady.refs ip
  have hnonneg := holders_nonneg k ip
  rw [inHand, count_cons_self] at hrefs
  rcases hmore with hpos | hmem
  · omega
  · have hcount := count_pos.mpr hmem
    omega

theorem Amid.ilock (h : Amid k c H s0 X s)
    (hQ : ∀ s', Amid k c H s0 X s' → Quiet k (inHand H X) s s' → (s'.icache ip).valid = true →
      Q () s') : wp any (ilock ip) Q s :=
  wp_ilock h.steady fun s' h' hquiet _ => hQ s' (h.quiet h' (hquiet _)) (hquiet _)

section

variable (h : Amid k c H s0 (ip :: X) s)
  (hQ : ∀ s', Amid k c H s0 X s' → Frame (Held k (inHand H X)) s s' →
    (∀ i, i ≠ s.inum ip → s'.disk i = s.disk i) → Q () s')
include h hQ

theorem Amid.iput : wp any (iput ip) Q s := by
  refine wp_iput h.steady fun s' h' hframe hmore hother => ?_
  exact hQ s' (h.after h' hframe.base fun hc => ⟨hc, hmore (h.not_last hc)⟩) hframe hother

theorem Amid.iunlockput : wp any (iunlockput ip) Q s := wp_bind.mpr (wp_iunlock (h.iput hQ))

end

theorem Amid.iupdate {f : Dinode → Dinode} (h : Amid k c H s0 X s) (hheld : Held k (inHand H X) ip)
    (hvalid : (s.icache ip).valid = true) (htype : ∀ d, (f d).type = d.type)
    (hdata : ∀ d, (f d).data = d.data)
    (hQ : ∀ s', Amid k False H s0 X s' → Frame (Held k (inHand H X)) s s' →
      s'.disk = update s.disk (s.inum ip) (f (s.dinode ip)) → Q () s') :
    wp any (iupdate ip f) Q s :=
  wp_iupdate h.steady hheld hvalid htype hdata fun s' h' hframe =>
    hQ s' (h.after h' hframe.base False.elim) hframe

/-! ### Directories and paths -/

theorem Dinode.writei_eq_some {d' : Dinode} {off : Nat} {src : List UInt8} :
    d.writei off src = some d' ↔ off ≤ d.size ∧ off + src.length ≤ MAXFILE * BSIZE ∧
      d' = { d with data := d.data.take off ++ src ++ d.data.drop (off + src.length) } := by
  have hmax : MAXFILE * BSIZE < 2 ^ 32 := by decide
  unfold Dinode.writei
  split
  · exact iff_of_false (by simp) (by omega)
  split
  · exact iff_of_false (by simp) (by omega)
  · rw [Option.some_inj, eq_comm, ← and_assoc]
    exact (and_iff_right (by omega)).symm

section

variable (h : Amid k c H s0 X s) (hdp : Held k (inHand H X) dp)
  (hvalid : (s.icache dp).valid = true)
include h hdp hvalid

theorem Amid.dirlookup {Q : Option (Nat × Nat) → State → Prop}
    (hnone : ∀ off, (s.dinode dp).type = .T_DIR → findEntry (s.dinode dp) name = .ended off →
      Q none s)
    (hsome : ∀ ip off de s', (s.dinode dp).type = .T_DIR →
      findEntry (s.dinode dp) name = .found off de → Amid k c H s0 (ip :: X) s' →
      Quiet k (inHand H X) s s' → s'.inum ip = de.inum.toNat → Q (some (ip, off)) s') :
    wp any (dirlookup dp name) Q s := by
  rw [← (h.steady.copy_eq hdp hvalid).1] at hnone hsome
  refine wp_get.mpr ?_
  split
  · trivial
  rename_i hdir
  split
  · trivial
  next off hscan => exact hnone off (not_not.mp hdir) hscan
  rename_i off de hscan
  have hdev := h.steady.dev dp (h.steady.pos_iff.mpr hdp)
  refine wp_bind.mpr (wp_iget h.steady hdev fun ip s' h' hquiet hinum => ?_)
  exact hsome ip off de s' (not_not.mp hdir) hscan (h.quiet h' hquiet) hquiet hinum

theorem Amid.writeEntry {msg : String} {off : Nat} {bytes : List UInt8}
    (hdir : (s.dinode dp).type = .T_DIR)
    (hQ : ∀ s', Amid k False H s0 X s' → Frame (Held k (inHand H X)) s s' →
      (∀ i, (s'.disk i).nlink = (s.disk i).nlink) → Q () s') :
    wp any (writeEntry msg dp off bytes) Q s := by
  obtain ⟨hcopy, hfree⟩ := h.steady.copy_eq hdp hvalid
  refine wp_atomic.mpr ⟨?_, fun _ _ => trivial⟩
  intro _ s' hstep
  split at hstep
  next d hwrite =>
    cases hstep
    rw [hcopy] at hwrite
    obtain ⟨-, -, heq⟩ := Dinode.writei_eq_some.mp hwrite
    have htype : d.type = (s.dinode dp).type := by rw [heq]
    have hframe := h.steady.frame_store hdp htype fun hnot => absurd hdir hnot
    have hsteady := h.steady.store hdp hvalid (htype ▸ hfree)
    refine hQ _ (h.after hsteady hframe.base False.elim) hframe fun i => ?_
    by_cases hi : i = s.inum dp
    · rw [hi]
      simp [State.store, State.dinode, heq]
    · rw [disk_store_of_ne hi]
  · cases hstep

/-- **`dirlink`** fails without a trace. -/
theorem Amid.dirlink {inum : Nat} {Q : Int → State → Prop}
    (hQ : ∀ r s', Amid k (c ∧ r = -1) H s0 X s' → Frame (Held k (inHand H X)) s s' →
      (r = -1 ∨ r = 0 ∧ ∀ i, (s'.disk i).nlink = (s.disk i).nlink) → Q r s') :
    wp any (dirlink dp name inum) Q s := by
  refine wp_bind.mpr (h.dirlookup hdp hvalid (fun off hdir _ => ?_) ?_)
  · refine wp_get.mpr ?_
    split
    · trivial
    · refine wp_bind.mpr (h.writeEntry hdp hvalid hdir fun s' h' hframe hlinks => ?_)
      exact hQ _ s' (h'.weaken fun hc => absurd hc.2 (by decide)) hframe (.inr ⟨rfl, hlinks⟩)
  · intro ip off de s1 _ _ h1 hquiet1 _
    refine wp_bind.mpr (h1.iput fun s2 h2 hframe2 _ => ?_)
    exact hQ _ s2 (h2.weaken And.left) (hquiet1.toFrame.trans hframe2) (.inl rfl)

theorem Amid.linkName {Q : Int → State → Prop}
    (hQ : ∀ r s', Amid k (c ∧ r = -1) H s0 X s' → (r < 0 → r = -1) → Q r s') :
    wp any (linkName dp ip name) Q s := by
  refine wp_get.mpr ?_
  split
  · exact hQ _ s (h.weaken And.left) fun _ => rfl
  refine h.dirlink hdp hvalid fun r s' h' _ hr => hQ r s' h' fun hneg => ?_
  rcases hr with hr | ⟨hr, -⟩
  · exact hr
  · omega

theorem Amid.mustLink {msg : String} {inum : Nat}
    (hQ : ∀ s', Amid k False H s0 X s' → Frame (Held k (inHand H X)) s s' →
      (∀ i, (s'.disk i).nlink = (s.disk i).nlink) → Q () s') :
    wp any (mustLink msg dp name inum) Q s := by
  refine wp_bind.mpr (h.dirlink hdp hvalid fun r s' h' hframe hr => ?_)
  rcases hr with rfl | ⟨rfl, hlinks⟩
  · trivial
  · exact hQ s' (h'.weaken False.elim) hframe hlinks

end

/-- **`namex`'s loop** follows the names on the disk, with a reference to the inode reached so
far. -/
theorem Amid.walk {parent : Bool} {Q : Option (Nat × Name) → State → Prop} :
    ∀ (names : List Name) {ip : Nat} {s : State}, Amid k True H s0 [ip] s →
      (∀ s', Amid k True H s0 [] s' → follow s0.disk parent names (s.inum ip) = none →
        Q none s') →
      (∀ ip' name s', Amid k True H s0 [ip'] s' →
        follow s0.disk parent names (s.inum ip) = some (s'.inum ip', name) →
        Q (some (ip', name)) s') →
      wp any (walk parent names ip) Q s := by
  intro names
  induction names with
  | nil =>
    intro ip s h hnone hsome
    unfold Icache.walk
    split
    next hparent => exact wp_bind.mpr (h.iput fun s' h' _ _ => hnone s' h' (if_pos hparent))
    next hparent => exact hsome ip _ s h (if_neg hparent)
  | cons name rest ih =>
    intro ip s h hnone hsome
    refine wp_bind.mpr (h.ilock fun s1 h1 hquiet1 hvalid => wp_get.mpr ?_)
    have hinum : s1.inum ip = s.inum ip := hquiet1.inum ip Held.head
    have hdinode : s1.dinode ip = s0.disk (s.inum ip) := by
      rw [State.dinode, h1.disk trivial, hinum]
    have hput : follow s0.disk parent (name :: rest) (s.inum ip) = none →
        wp any (do Icache.iunlockput ip; pure none) Q s1 := by
      intro hstop
      exact wp_bind.mpr (h1.iunlockput fun s2 h2 _ _ => hnone s2 h2 hstop)
    rw [(h1.steady.copy_eq Held.head hvalid).1, hdinode]
    split
    next hdir => exact hput (if_pos hdir)
    rename_i hdir
    split
    next hlast =>
      refine wp_bind.mpr (wp_iunlock (hsome ip name s1 h1 ?_))
      rw [follow, if_neg hdir, if_pos hlast, hinum]
    rename_i hmore
    have hnext : follow s0.disk parent (name :: rest) (s.inum ip) =
        match findEntry (s1.dinode ip) name with
        | .found _ de => follow s0.disk parent rest de.inum.toNat
        | _ => none := by
      rw [follow, if_neg hdir, if_neg hmore, hdinode]
    refine wp_bind.mpr (h1.dirlookup Held.head hvalid (fun off _ hended => ?_) ?_)
    · rw [hended] at hnext
      exact hput hnext
    intro next off de s2 _ hfound h2 _ hde
    rw [hfound] at hnext
    refine wp_bind.mpr (h2.swap.iunlockput fun s3 h3 hframe3 _ => ?_)
    have hstart : s3.inum next = de.inum.toNat := (hframe3.inum next Held.head).trans hde
    simp only at hnext
    rw [hnext, ← hstart] at hnone hsome
    exact ih h3 hnone hsome

theorem wp_dupCwd {Q : Nat → State → Prop} (h : Steady k H s)
    (hcwd : ∀ cwd, (s.kernel.ptable p).cwd = some cwd → Held k H cwd)
    (hQ : ∀ ip s', (s.kernel.ptable p).cwd = some ip → Steady k (ip ::ₘ H) s' →
      Quiet k H s s' → s'.inum ip = s.inum ip → Q ip s') : wp any (dupCwd p) Q s := by
  refine wp_get.mpr ?_
  split
  next cwd heq => exact wp_bind.mpr (wp_idup h (hcwd cwd heq) fun s' => hQ cwd s' heq)
  · trivial

/-- **Path lookup** finds what `lookup` says; it ends with a reference to it, or with none. -/
theorem wp_namex {parent : Bool} {Q : Option (Nat × Name) → State → Prop} (h : Steady k H s)
    (hk : s.kernel = k)
    (hnone : ∀ s', Amid k True H s [] s' → lookup s p parent path = none → Q none s')
    (hsome : ∀ ip name s', Amid k True H s [ip] s' →
      lookup s p parent path = some (s'.inum ip, name) → Q (some (ip, name)) s') :
    wp any (namex p parent path) Q s := by
  have hbegin : Amid k True H s [] s := .begin h
  refine wp_bind.mpr ?_
  unfold start
  split
  next hslash =>
    refine wp_iget h rfl fun ip s1 h1 hquiet1 hinum => ?_
    rw [lookup, if_pos hslash, ← hinum] at hnone hsome
    exact (hbegin.quiet (Y := [ip]) h1 hquiet1).walk _ hnone hsome
  next hslash =>
    refine wp_dupCwd h (fun cwd hcwd => ?_) fun ip s1 hcwd h1 hquiet1 hinum => ?_
    · rw [hk] at hcwd
      exact .inl (Fs.holders_pos_of_cwd hcwd)
    · rw [lookup, if_neg hslash, hcwd, Option.map_some, ← hinum] at hnone hsome
      exact (hbegin.quiet (Y := [ip]) h1 hquiet1).walk _ hnone hsome

theorem wp_namei {Q : Option Nat → State → Prop} (h : Steady k H s) (hk : s.kernel = k)
    (hnone : ∀ s', Amid k True H s [] s' → Q none s')
    (hsome : ∀ ip s', Amid k True H s [ip] s' → Q (some ip) s') : wp any (namei p path) Q s :=
  wp_bind.mpr (wp_namex h hk (fun s' h' _ => hnone s' h') fun ip _ s' h' _ => hsome ip s' h')

/-! ### Link and unlink -/

theorem Dinode.addLink_back (h : toShort d.nlink = d.nlink) : (d.addLink 1).addLink (-1) = d := by
  have hback : toShort (toShort (d.nlink + 1) + -1) = d.nlink := by
    rw [← h]
    unfold toShort
    omega
  simp only [Dinode.addLink, hback]

/-- `sys_link` has counted one link more to the inode that was `d`. -/
structure Counted (k : Kernel) (H : Multiset Nat) (s0 : State) (ip : Nat) (d : Dinode)
    (s : State) : Prop extends Amid k False H s0 [ip] s where
  up : s.dinode ip = d.addLink 1
  back : update s.disk (s.inum ip) d = s0.disk

theorem Counted.quiet (h : Counted k H s0 ip d s) (h' : Amid k True (ip ::ₘ H) s [] s') :
    Counted k H s0 ip d s' := by
  have hinum : s'.inum ip = s.inum ip := h'.frame.inum ip Held.head
  refine ⟨h.after h'.steady h'.frame.tail False.elim, ?_, ?_⟩
  · rw [State.dinode, h'.disk trivial, hinum]
    exact h.up
  · rw [h'.disk trivial, hinum]
    exact h.back

/-- **`bad:`** takes the link back. -/
theorem Counted.linkBad (h : Counted k H s0 ip d s) :
    wp any (linkBad ip)
      (fun r s' => Amid k (toShort d.nlink = d.nlink ∧ r = -1) H s0 [] s') s := by
  refine wp_bind.mpr (h.ilock fun s1 h1 hquiet1 hvalid => ?_)
  refine wp_bind.mpr (h1.iupdate Held.head hvalid (fun _ => rfl) (fun _ => rfl) ?_)
  intro s2 h2 _ hdisk2
  have hinum : s1.inum ip = s.inum ip := hquiet1.inum ip Held.head
  have hback : Amid k (toShort d.nlink = d.nlink) H s0 [ip] s2 := by
    refine { h2 with disk := fun hshort => ?_ }
    rw [hdisk2, State.dinode, hquiet1.disk, hinum, ← h.back]
    change update s.disk _ ((s.dinode ip).addLink (-1)) = _
    rw [h.up, Dinode.addLink_back hshort]
  exact wp_bind.mpr (hback.iunlockput fun s3 h3 _ _ => h3.weaken And.left)

theorem Counted.linkInto {new : Path} (h : Counted k H s0 ip d s) (hk : s.kernel = k) :
    wp any (linkInto p ip new)
      (fun r s' => Amid k (toShort d.nlink = d.nlink ∧ r = -1) H s0 [] s') s := by
  refine wp_bind.mpr (wp_namex h.steady hk (fun s1 h1 _ => (h.quiet h1).linkBad) ?_)
  intro dp name s1 h1 _
  refine wp_bind.mpr (h1.ilock fun s2 h2 _ hvalid => ?_)
  refine wp_bind.mpr (h2.linkName Held.head hvalid fun r s3 h3 hneg => ?_)
  split
  next hr =>
    refine wp_bind.mpr (h3.iunlockput fun s4 h4 _ _ => ?_)
    exact (h.quiet (h4.weaken fun _ => ⟨trivial, hneg hr⟩)).linkBad
  · refine wp_bind.mpr (h3.iunlockput fun s4 h4 _ _ => ?_)
    have hdone : Amid k False H s0 [ip] s4 := h.after h4.steady h4.frame.tail False.elim
    exact wp_bind.mpr (hdone.iput fun s5 h5 _ _ => h5.weaken fun hc => absurd hc.2 (by decide))

theorem wp_sysLink {args : Option (Path × Path)} (h : Steady k H s) (hk : s.kernel = k) :
    wp any (sysLink p args) (fun r s' =>
      Amid k ((∀ i, toShort (s.disk i).nlink = (s.disk i).nlink) ∧ r = -1) H s [] s') s := by
  unfold sysLink
  split
  · exact .begin h
  refine wp_bind.mpr (wp_namei h hk (fun s1 h1 => h1.weaken fun _ => trivial) fun ip s1 h1 => ?_)
  refine wp_bind.mpr (h1.ilock fun s2 h2 _ hvalid => wp_get.mpr ?_)
  split
  · exact wp_bind.mpr (h2.iunlockput fun s3 h3 _ _ => h3.weaken fun _ => trivial)
  refine wp_bind.mpr (h2.iupdate Held.head hvalid (fun _ => rfl) (fun _ => rfl) ?_)
  intro s3 h3 hframe3 hdisk3
  have hinum : s3.inum ip = s2.inum ip := hframe3.inum ip Held.head
  have hcounted : Counted k H s ip (s2.dinode ip) s3 := by
    refine ⟨h3, ?_, ?_⟩
    · rw [State.dinode, hdisk3, hinum, update_self]
    · rw [hdisk3, hinum, update_idem, State.dinode, update_eq_self]
      exact h2.disk trivial
  refine wp_bind.mpr (wp_iunlock (wp_mono (hcounted.linkInto (h3.frame.kernel.trans hk)) ?_))
  rintro r s4 h4
  refine h4.weaken fun hc => ⟨?_, hc.2⟩
  rw [State.dinode, h2.disk trivial]
  exact hc.1 _

theorem Amid.unlinkBad (h : Amid k c H s0 [dp] s) :
    wp any (unlinkBad dp) (fun r s' => Amid k (c ∧ r = -1) H s0 [] s') s :=
  wp_bind.mpr (h.iunlockput fun _ h' _ _ => h'.weaken And.left)

theorem Amid.unlinkEntry {off : Nat} (h : Amid k c H s0 [dp, ip] s)
    (hdp : (s.icache dp).valid = true) (hip : (s.icache ip).valid = true)
    (hdir : (s.dinode dp).type = .T_DIR) :
    wp any (unlinkEntry dp ip off type) (fun r s' => Amid k (c' ∧ r = -1) H s0 [] s') s := by
  refine wp_bind.mpr (h.writeEntry Held.head hdp hdir fun s1 h1 hframe1 _ => ?_)
  -- the parent loses a link if the inode was a directory
  have hrest : ∀ s2, Amid k False H s0 [dp, ip] s2 → (s2.icache ip).valid = true →
      wp any (do
        Icache.iunlockput dp
        Icache.iupdate ip fun d => d.addLink (-1)
        Icache.iunlockput ip
        pure 0) (fun r s' => Amid k (c' ∧ r = -1) H s0 [] s') s2 := by
    intro s2 h2 hip2
    refine wp_bind.mpr (h2.iunlockput fun s3 h3 hframe3 _ => ?_)
    refine wp_bind.mpr (h3.iupdate Held.head (hframe3.valid ip Held.head hip2)
      (fun _ => rfl) (fun _ => rfl) fun s4 h4 _ _ => ?_)
    exact wp_bind.mpr (h4.iunlockput fun s5 h5 _ _ => h5.weaken fun hc => absurd hc.2 (by decide))
  have hip1 := hframe1.valid ip Held.head.cons hip
  refine wp_bind.mpr (wp_onlyIf.mpr ⟨fun _ => ?_, fun _ => hrest s1 h1 hip1⟩)
  refine h1.iupdate Held.head (hframe1.valid dp Held.head hdp) (fun _ => rfl) (fun _ => rfl) ?_
  exact fun s2 h2 hframe2 _ => hrest s2 h2 (hframe2.valid ip Held.head.cons hip1)

theorem Amid.unlinkIn (h : Amid k c H s0 [dp] s) (hdp : (s.icache dp).valid = true) :
    wp any (unlinkIn dp name) (fun r s' => Amid k (c ∧ r = -1) H s0 [] s') s := by
  unfold Icache.unlinkIn
  split
  · exact h.unlinkBad
  refine wp_bind.mpr (h.dirlookup Held.head hdp (fun _ _ _ => h.unlinkBad) ?_)
  intro ip off de s1 hdir _ h1 hquiet1 _
  refine wp_bind.mpr (h1.ilock fun s2 h2 hquiet2 hip => ?_)
  have hframe : Frame (Held k (dp ::ₘ H)) s s2 := hquiet1.toFrame.trans hquiet2.tail.toFrame
  have hdone : wp any (Icache.unlinkEntry dp ip off (s2.icache ip).copy.type)
      (fun r s' => Amid k (c ∧ r = -1) H s0 [] s') s2 := by
    apply h2.swap.unlinkEntry (hframe.valid dp Held.head hdp) hip
    rw [hframe.type dp Held.head (by rw [hdir]; decide), hdir]
  refine wp_get.mpr ?_
  split
  · trivial
  split
  · split
    · trivial
    · exact hdone
    · exact wp_bind.mpr (h2.iunlockput fun s3 h3 _ _ => h3.unlinkBad)
  · exact hdone

theorem wp_sysUnlink {args : Option Path} (h : Steady k H s) (hk : s.kernel = k) :
    wp any (sysUnlink p args) (fun r s' => Amid k (r = -1) H s [] s') s := by
  unfold sysUnlink
  split
  · exact .begin h
  refine wp_bind.mpr (wp_namex h hk (fun s1 h1 _ => h1.weaken fun _ => trivial) ?_)
  intro dp name s1 h1 _
  refine wp_bind.mpr (h1.ilock fun s2 h2 _ hvalid => ?_)
  exact wp_mono (h2.unlinkIn hvalid) fun r s3 h3 => h3.weaken fun hr => ⟨trivial, hr⟩

/-! ### Create -/

theorem Amid.createDots (h : Amid k c H s0 X s) (hdp : Held k (inHand H X) dp)
    (hip : Held k (inHand H X) ip) (hdpv : (s.icache dp).valid = true)
    (hipv : (s.icache ip).valid = true)
    (hQ : ∀ s', Amid k False H s0 X s' → Frame (Held k (inHand H X)) s s' → Q () s') :
    wp any (createDots dp ip) Q s := by
  refine wp_bind.mpr (h.iupdate hdp hdpv (fun _ => rfl) (fun _ => rfl) fun s1 h1 hframe1 _ => ?_)
  refine wp_get.mpr (wp_bind.mpr ?_)
  refine h1.mustLink hip (hframe1.valid ip hip hipv) fun s2 h2 hframe2 _ => ?_
  have hframe := hframe1.trans hframe2
  refine h2.mustLink hip (hframe.valid ip hip hipv) fun s3 h3 hframe3 _ => ?_
  exact hQ s3 h3 (hframe.trans hframe3)

/-- **A new inode** was free before; unless it is a directory, it has one link. -/
theorem Amid.createIn {major minor : Int} {Q : Nat → State → Prop} (h : Amid k c H s0 [dp] s)
    (hdp : (s.icache dp).valid = true)
    (hQ : ∀ ip s', Amid k False H s0 [ip] s' → (s'.icache ip).valid = true →
      (type ≠ .T_DIR → (s.disk (s'.inum ip)).type = .free ∧ (s'.dinode ip).nlink = 1) → Q ip s') :
    wp any (createIn dp name type major minor) Q s := by
  have hdev : (s.icache dp).dev = ROOTDEV := h.steady.dev dp (h.steady.pos_iff.mpr Held.head)
  have hused : (s.dinode dp).type ≠ .free := (h.steady.copy_eq Held.head hdp).2
  refine wp_get.mpr (wp_bind.mpr (wp_get.mpr (wp_iallocLoop h.steady hdev ?_ _ _)))
  intro ip s1 h1 hframe1 hfree
  refine wp_bind.mpr (wp_ilock_new h1 fun s2 h2 hquiet2 _ hipv => ?_)
  have hframe12 : Frame (Held k (dp ::ₘ H)) s s2 := hframe1.trans (hquiet2 _).toFrame
  have hstart : Amid k False H s0 [ip, dp] s2 :=
    h.after (h2.mono fun i hi => hi.2 hi.1) hframe12.tail False.elim
  have hinum : s2.inum ip = s1.inum ip := (hquiet2 (ip ::ₘ 0)).inum ip Held.head
  have hne : ip ≠ dp := by
    -- `dp` was in use before, and the new inode was not
    rintro rfl
    rw [hframe1.inum ip Held.head] at hfree
    exact hused hfree
  refine wp_bind.mpr (hstart.iupdate Held.head hipv (fun _ => rfl) (fun _ => rfl) ?_)
  intro s3 h3 hframe3 hdisk3
  have hlink3 : (s3.dinode ip).nlink = 1 := by
    rw [State.dinode, hframe3.inum ip Held.head, hdisk3, update_self]
  have hrest : ∀ s4, Amid k False H s0 [ip, dp] s4 → Frame (Held k (ip ::ₘ dp ::ₘ H)) s2 s4 →
      (type ≠ .T_DIR → (s4.dinode ip).nlink = 1) →
      wp any (do
        let inum ← reads fun s => s.inum ip
        Icache.mustLink "create: dirlink" dp name inum
        Icache.iunlockput dp
        pure ip) Q s4 := by
    intro s4 h4 hframe4 hlink4
    have hdp4 := hframe4.valid dp Held.head.cons (hframe12.valid dp Held.head hdp)
    refine wp_get.mpr (wp_bind.mpr (h4.mustLink Held.head.cons hdp4 ?_))
    intro s5 h5 hframe5 hlinks5
    refine wp_bind.mpr (h5.swap.iunlockput fun s6 h6 hframe6 hother => ?_)
    have hinum5 : s5.inum ip = s4.inum ip := hframe5.inum ip Held.head
    have hinum6 : s6.inum ip = s5.inum ip := hframe6.inum ip Held.head
    refine hQ ip s6 h6 (hframe6.valid ip Held.head ?_) fun htype => ⟨?_, ?_⟩
    · exact (hframe4.trans hframe5).valid ip Held.head hipv
    · rw [hinum6, hinum5, hframe4.inum ip Held.head, hinum]
      exact hfree
    · rw [State.dinode, hinum6, hother _ (h5.steady.inum_ne Held.head.cons Held.head hne),
        hlinks5, hinum5]
      exact hlink4 htype
  refine wp_bind.mpr (wp_onlyIf.mpr ⟨fun hdir => ?_, fun _ => hrest s3 h3 hframe3 fun _ => hlink3⟩)
  have hdp3 := hframe3.valid dp Held.head.cons (hframe12.valid dp Held.head hdp)
  refine h3.createDots Held.head.cons Held.head hdp3 (hframe3.valid ip Held.head hipv) ?_
  exact fun s4 h4 hframe4 => hrest s4 h4 (hframe3.trans hframe4) (absurd hdir)

/-- **`create`** ends with a reference to what was there or to a new inode, or with none. -/
theorem wp_create {major minor : Int} {Q : Option Nat → State → Prop} (h : Steady k H s)
    (hk : s.kernel = k) (hnone : ∀ s', missing s p path = false → Amid k True H s [] s' → Q none s')
    (hsome : ∀ ip s', Amid k (missing s p path = false) H s [ip] s' →
      (s'.icache ip).valid = true → (missing s p path = true → type ≠ .T_DIR →
        (s.disk (s'.inum ip)).type = .free ∧ (s'.dinode ip).nlink = 1) → Q (some ip) s') :
    wp any (create p path type major minor) Q s := by
  refine wp_bind.mpr (wp_namex h hk (fun s1 h1 hlook => ?_) fun dp name s1 h1 hlook => ?_)
  · apply hnone s1 ?_ h1
    rw [missing, hlook]
  refine wp_bind.mpr (h1.ilock fun s2 h2 hquiet2 hdp => ?_)
  have hmissing : missing s p path = (findEntry (s2.dinode dp) name).isEnded := by
    have hinum : s2.inum dp = s1.inum dp := hquiet2.inum dp Held.head
    rw [missing, hlook, State.dinode, h2.disk trivial, hinum]
  refine wp_bind.mpr (h2.dirlookup Held.head hdp (fun off _ hended => ?_) ?_)
  · rw [hended] at hmissing
    refine wp_bind.mpr (h2.createIn hdp fun ip s3 h3 hip hfresh => ?_)
    rw [h2.disk trivial] at hfresh
    refine hsome ip s3 (h3.weaken fun hc => ?_) hip fun _ => hfresh
    rw [hmissing] at hc
    cases hc
  · intro ip off de s3 _ hfound h3 _ _
    rw [hfound] at hmissing
    refine wp_bind.mpr (h3.swap.iunlockput fun s4 h4 _ _ => ?_)
    refine wp_bind.mpr (h4.ilock fun s5 h5 _ hip => wp_get.mpr ?_)
    split
    · refine hsome ip s5 (h5.weaken fun _ => trivial) hip fun hc => ?_
      rw [hmissing] at hc
      cases hc
    · exact wp_bind.mpr (h5.iunlockput fun s6 h6 _ _ => hnone s6 hmissing h6)

/-- `open` makes a new file. -/
abbrev Makes (s : State) (p : Fin NPROC) (path : Path) (omode : UInt32) : Prop :=
  omode &&& O_CREATE ≠ 0 ∧ missing s p path = true

theorem wp_openInode {omode : UInt32} {Q : Option Nat → State → Prop} (h : Steady k H s)
    (hk : s.kernel = k) (hnone : ∀ s', ¬ Makes s p path omode → Amid k True H s [] s' → Q none s')
    (hsome : ∀ ip s', Amid k (¬ Makes s p path omode) H s [ip] s' → (s'.icache ip).valid = true →
      (Makes s p path omode → (s.disk (s'.inum ip)).type = .free ∧ (s'.dinode ip).nlink = 1) →
      Q (some ip) s') : wp any (openInode p path omode) Q s := by
  unfold openInode
  split
  next hcreate =>
    refine wp_create h hk (fun s1 hmiss h1 => ?_) fun ip s1 h1 hvalid hfresh => ?_
    · refine hnone s1 (fun hm => ?_) h1
      rw [hm.2] at hmiss
      cases hmiss
    · refine hsome ip s1 (h1.weaken fun hnot => ?_) hvalid fun hm => hfresh hm.2 (by decide)
      exact Bool.eq_false_iff.mpr fun hm => hnot ⟨hcreate, hm⟩
  rename_i hplain
  have hnot : ¬ Makes s p path omode := fun hm => hplain hm.1
  refine wp_bind.mpr (wp_namei h hk (fun s1 => hnone s1 hnot) fun ip s1 h1 => ?_)
  refine wp_bind.mpr (h1.ilock fun s2 h2 _ hip => wp_get.mpr ?_)
  split
  · exact wp_bind.mpr (h2.iunlockput fun s3 h3 _ _ => hnone s3 hnot h3)
  · exact hsome ip s2 (h2.weaken fun _ => trivial) hip fun hm => absurd hm hnot

theorem wp_createDone {major minor : Int} (h : Steady k H s) (hk : s.kernel = k) :
    wp any (create p path type major minor >>= createDone)
      (fun r s' => Amid k (r = -1) H s [] s') s := by
  refine wp_bind.mpr (wp_create h hk (fun s1 _ h1 => h1.weaken fun _ => trivial) ?_)
  intro ip s1 h1 _ _
  exact wp_bind.mpr (h1.iunlockput fun s2 h2 _ _ => h2.weaken (absurd · (by decide)))

/-- **`exec`**, on both of its ways to `bad` and on success. -/
theorem wp_sysExec {args : Option Path} {loads : Dinode → Bool} {pushes : Bool}
    (h : Steady k H s) (hk : s.kernel = k) :
    wp any (sysExec p args loads pushes) (fun _ s' => Amid k True H s [] s') s := by
  unfold sysExec
  split
  · exact .begin h
  refine wp_bind.mpr (wp_namei h hk (fun _ h1 => h1) fun ip s1 h1 => ?_)
  refine wp_bind.mpr (h1.ilock fun s2 h2 _ _ => wp_get.mpr ?_)
  split
  · exact wp_bind.mpr (h2.iunlockput fun _ h3 _ _ => h3)
  refine wp_bind.mpr (h2.iunlockput fun s3 h3 _ _ => ?_)
  split
  · exact h3
  · exact h3

end

/-! ### Between calls -/

/-- An offset in the file behind a slot. -/
def Within (s : State) (ip off : Nat) : Prop :=
  (s.dinode ip).type = .T_FILE → off ≤ (s.dinode ip).size

structure Sound (s : State) : Prop where
  steady : Steady s.kernel 0 s
  tidy : Tidy s.kernel
  files : Files (Within s) s.kernel

def Stays (s s' : State) (ip : Nat) : Prop := 0 < holders s.kernel ip ∧ 0 < holders s'.kernel ip

/-- At the start of a file, or within a file that was open before. -/
def Placed (s : State) (ip off : Nat) : Prop :=
  off = 0 ∨ (0 < holders s.kernel ip ∧ Within s ip off)

/-- A call is over; whoever holds an inode has it as it was. -/
structure Over (s s' : State) : Prop where
  sound : Sound s'
  alike : Alike (Stays s s') s s'

/-! ### Failing calls -/

/-- Every inode on the disk, the tables, and the inodes that the tables refer to. -/
structure Unchanged (s s' : State) : Prop where
  disk : s'.disk = s.disk
  kernel : s'.kernel = s.kernel
  inum : ∀ ip, 0 < holders s.kernel ip → s'.inum ip = s.inum ip

/-- No entry of the file table, or no descriptor of `p`, is free. -/
def NoSlot (k : Kernel) (p : Fin NPROC) : Prop :=
  (∀ f, (k.ftable f).ref ≠ 0) ∨ ∀ fd, k.ofile p fd ≠ none

variable {k : Kernel}

theorem filealloc_eq_none (heq : filealloc k = none) (f : Fin NFILE) : (k.ftable f).ref ≠ 0 := by
  unfold filealloc at heq
  split at heq
  · cases heq
  next hfull => simpa using List.find?_eq_none.mp hfull f (List.mem_finRange f)

theorem filealloc_eq_some {k' : Kernel} {f : Fin NFILE} (heq : filealloc k = some (k', f)) :
    k' = k.setFile f { k.ftable f with ref := 1 } ∧ (k.ftable f).ref = 0 := by
  unfold filealloc at heq
  split at heq
  next f' hfind =>
    have hfree : (k.ftable f').ref = 0 := by simpa using List.find?_some hfind
    cases heq
    exact ⟨rfl, hfree⟩
  · cases heq

theorem fdalloc_eq_none {p : Fin NPROC} {f : Fin NFILE} (heq : fdalloc k p f = none)
    (fd : Fin NOFILE) : k.ofile p fd ≠ none := by
  unfold fdalloc at heq
  split at heq
  · cases heq
  next hfull => simpa using List.find?_eq_none.mp hfull fd (List.mem_finRange fd)

/-- A file that was taken and not used is closed to what it was. -/
theorem fileclose_unused {f : Fin NFILE} (h : Fs.Tidy k) (hfree : (k.ftable f).ref = 0) :
    ∃ ff, Xv6.fileclose (k.setFile f { k.ftable f with ref := 1 }) f = .ok (k, ff) := by
  have hback : { k.ftable f with ref := 0, type := .FD_NONE } = k.ftable f := by
    rw [← hfree, ← h.idle f hfree]
  refine ⟨some { k.ftable f with ref := 0 }, ?_⟩
  simp [Xv6.fileclose, Kernel.setFile, hback]

/-- After `create` or `namei`, `open` fails exactly if a table is full, and leaves the tables as
they were then. -/
theorem sysOpen_noSlot {k' : Kernel} {p : Fin NPROC} {ip : Nat} {omode : UInt32} {fd : Int}
    (h : Fs.Tidy k) (heq : Xv6.sysOpen k p (some ip) omode = .ok (k', fd)) :
    (NoSlot k p ∧ fd = -1 ∧ k' = k) ∨ (¬ NoSlot k p ∧ 0 ≤ fd) := by
  unfold Xv6.sysOpen at heq
  simp only at heq
  split at heq
  next hfull =>
    cases heq
    exact .inl ⟨.inl (filealloc_eq_none hfull), rfl, rfl⟩
  rename_i k1 f halloc
  obtain ⟨rfl, hfree⟩ := filealloc_eq_some halloc
  split at heq
  next hfull =>
    obtain ⟨ff, hclose⟩ := fileclose_unused h hfree
    rw [hclose] at heq
    cases heq
    have hall := fdalloc_eq_none hfull
    exact .inl ⟨.inr hall, rfl, rfl⟩
  next k2 fd' hslot =>
    obtain ⟨rfl, hopen⟩ := fdalloc_eq_some hslot
    cases heq
    refine .inr ⟨?_, Int.natCast_nonneg _⟩
    rintro (hall | hall)
    · exact hall f hfree
    · exact hall fd' hopen

/-- The call creates a file that it then finds no descriptor for. -/
def Strands (s : State) (p : Fin NPROC) : Fs.PathCall → Prop
  | .SYS_open (some (path, omode)) =>
      omode &&& O_CREATE ≠ 0 ∧ missing s p path = true ∧ NoSlot s.kernel p
  | _ => False

variable {k k' : Kernel} {H : Multiset Nat} {s s' : State} {p : Fin NPROC} {ip : Nat}
  {Q : Int → State → Prop}

theorem wp_onKernel {α : Type} {f : Kernel → Except Fault (Kernel × α)} {Q : α → State → Prop}
    (hQ : ∀ k a, f s.kernel = .ok (k, a) → Q a { s with kernel := k }) :
    wp any (onKernel f) Q s := by
  refine wp_atomic.mpr ⟨?_, fun _ _ => trivial⟩
  intro a s' hstep
  split at hstep
  next k b heq =>
    cases hstep
    exact hQ k a heq
  · cases hstep
  · cases hstep

theorem Sound.placed (h : Sound s) : Files (Placed s) s.kernel :=
  h.files.imp fun _ _ hpos hwithin => .inr ⟨hpos, hwithin⟩

theorem Placed.new (s : State) (ip : Nat) : Placed s ip 0 := .inl rfl

theorem Alike.over (halike : Alike (Stays s s') s s') (h : Steady s'.kernel 0 s')
    (hold : Steady s.kernel 0 s) (htidy : Tidy s'.kernel) (hfiles : Files (Placed s) s'.kernel) :
    Over s s' := by
  refine ⟨⟨h, htidy, hfiles.imp ?_⟩, halike⟩
  rintro ip off hpos (rfl | ⟨hpos', hwithin⟩) hfile
  · exact Nat.zero_le _
  have hstays : Stays s s' ip := ⟨hpos', hpos⟩
  have hfree := hold.held ip hpos'
  have htype := halike.type ip hstays hfree
  rw [htype] at hfile
  rw [Dinode.size, halike.bytes ip hstays hfree (by rw [hfile]; decide)]
  exact hwithin hfile

theorem Sound.back {c : Prop} (h : Sound s) (h' : Amid s.kernel c 0 s [] s') : Over s s' := by
  have hkernel := h'.frame.kernel
  have halike : Alike (Stays s s') s s' := h'.frame.toAlike.mono fun _ hip => .inl hip.1
  exact halike.over (hkernel ▸ h'.steady) h.steady (hkernel ▸ h.tidy) (hkernel ▸ h.placed)

theorem Sound.quiet (h : Sound s) (h' : Steady s.kernel 0 s') (hquiet : Quiet s.kernel 0 s s') :
    Over s s' := h.back ((Amid.begin (c := True) h.steady).quiet h' hquiet)

theorem Sound.same (h : Sound s) : Over s s := h.quiet h.steady (.refl _ 0 s)

theorem Exact.sameHolders {new : Nat → Prop} (h : Exact k H new s)
    (hsame : ∀ ip, holders k' ip = holders k ip) : Exact k' H new s := by
  apply h.rehold
  · intro ip
    rw [hsame]
  · intro ip hpos
    exact h.held ip (hsame ip ▸ hpos)

theorem Sound.setKernel (h : Sound s) (k' : Kernel)
    (hsame : ∀ ip, holders k' ip = holders s.kernel ip) (htidy : Tidy k')
    (hfiles : Files (Placed s) k') : Over s { s with kernel := k' } := by
  have halike : Alike (Stays s { s with kernel := k' }) s { s with kernel := k' } := .setKernel ..
  exact halike.over ((h.steady.sameHolders hsame).setKernel k') h.steady htidy hfiles

theorem Over.trans {s'' : State} (h : Over s s') (h' : Over s' s'')
    (hmid : ∀ ip, Stays s s'' ip → 0 < holders s'.kernel ip) : Over s s'' := by
  refine ⟨h'.sound, ?_⟩
  exact (h.alike.mono fun ip hip => ⟨hip.1, hmid ip hip⟩).trans
    (h'.alike.mono fun ip hip => ⟨hmid ip hip, hip.2⟩)

theorem Exact.hold (h : Steady k (ip ::ₘ 0) s) (hfree : (s.dinode ip).type ≠ .free)
    (hmore : ∀ ip', holders k' ip' = holders k ip' + (ip ::ₘ 0).count ip') : Steady k' 0 s := by
  apply h.rehold
  · intro ip'
    rw [hmore, count_zero, Nat.cast_zero, add_zero]
  intro ip' hpos
  by_cases hip : ip' = ip
  · rw [hip]
    exact hfree
  · rw [hmore, count_cons_of_ne hip, count_zero, Nat.cast_zero, add_zero] at hpos
    exact h.held ip' hpos

theorem Amid.unchanged (h : Amid s.kernel True 0 s [] s') : Unchanged s s' :=
  ⟨h.disk trivial, h.frame.kernel, fun ip hpos => h.frame.inum ip (.inl hpos)⟩

theorem Sound.unchanged (h : Sound s) : Unchanged s s := (Amid.begin h.steady).unchanged

/-- **`sys_open`** leaves a file behind if it makes one and the tables are full. -/
theorem wp_sysOpen {args : Option (Path × UInt32)} (h : Sound s)
    (hQ : ∀ r s', Over s s' → ((r = -1 → Unchanged s s') ↔ ¬ Strands s p (.SYS_open args)) → Q r s') :
    wp any (sysOpen p args) Q s := by
  unfold sysOpen
  split
  · exact hQ _ s h.same (iff_of_true (fun _ => h.unchanged) id)
  rename_i path omode
  refine wp_bind.mpr (wp_openInode h.steady rfl (fun s1 hnot h1 => ?_) ?_)
  · refine hQ _ s1 (h.back h1) (iff_of_true (fun _ => h1.unchanged) ?_)
    exact fun hs => hnot ⟨hs.1, hs.2.1⟩
  intro ip s1 h1 hvalid hfresh
  have hused := (h1.steady.copy_eq Held.head hvalid).2
  refine wp_bind.mpr (wp_onKernel fun k' fd hopen => ?_)
  rw [h1.frame.kernel] at hopen
  obtain ⟨hslot, rfl, rfl⟩ | ⟨hslot, hpos⟩ := sysOpen_noSlot h.tidy hopen
  · have hback : { s1 with kernel := s.kernel } = s1 := by rw [← h1.frame.kernel]
    rw [hback]
    have hmore : ¬ last s1 ip = true := by
      by_cases hmakes : Makes s p path omode
      · rw [last_iff h1.steady Held.head, (hfresh hmakes).2]
        rintro ⟨-, -, hzero⟩
        cases hzero
      · exact h1.not_last hmakes
    refine wp_bind.mpr (wp_bind.mpr (wp_iunlock (wp_iput h1.steady ?_)))
    intro s2 h2 hframe2 hdisk2 _
    have hamid : Amid s.kernel (¬ Makes s p path omode) 0 s [] s2 :=
      h1.after h2 hframe2 fun hc => ⟨hc, hdisk2 hmore⟩
    refine hQ _ s2 (h.back hamid) ?_
    by_cases hmakes : Makes s p path omode
    · refine iff_of_false (fun hsame => ?_) (not_not.mpr ⟨hmakes.1, hmakes.2, hslot⟩)
      -- the new inode is still there
      rw [State.dinode, ← hdisk2 hmore, (hsame rfl).disk] at hused
      exact hused (hfresh hmakes).1
    · refine iff_of_true (fun _ => (hamid.weaken fun _ => hmakes).unchanged) ?_
      exact fun hs => hmakes ⟨hs.1, hs.2.1⟩
  · obtain ⟨htidy, hopened, ⟨hneg, -⟩ | ⟨-, hmore⟩⟩ := h.tidy.sysOpen hopen
    · omega
    rw [if_neg (not_lt.mpr hpos)]
    have hheld := (h1.steady.hold hused hmore).setKernel k'
    have halike : Alike (Stays s { s1 with kernel := k' }) s { s1 with kernel := k' } :=
      (h1.frame.toAlike.mono fun _ hip => .inl hip.1).trans (.setKernel ..)
    have hfiles := hopened (.new s ip) h.placed
    refine wp_bind.mpr (wp_iunlock (hQ _ _ (halike.over hheld h.steady htidy hfiles) ?_))
    refine iff_of_true (fun hr => ?_) fun hs => hslot hs.2.2
    omega

theorem wp_sysDup {fd : Option Int} (h : Sound s) (hQ : ∀ r s', Over s s' → Q r s') :
    wp any (sysDup p fd) Q s := by
  refine wp_onKernel fun k' r heq => ?_
  have hmoved := Unmoved.sysDup h.tidy heq
  exact hQ _ _ (h.setKernel _ hmoved.holders hmoved.tidy (hmoved.files h.placed))

theorem wp_sysWait (h : Sound s) (hQ : ∀ r s', Over s s' → Q r s') : wp any (sysWait p) Q s := by
  refine wp_onKernel fun k' r heq => ?_
  split at heq
  next k1 pid hwait =>
    cases heq
    have hmoved := Unmoved.wait h.tidy hwait
    exact hQ _ _ (h.setKernel _ hmoved.holders hmoved.tidy (hmoved.files h.placed))
  · cases heq
    exact hQ _ s h.same

/-! ### References given back -/

theorem wp_giveUp {Q : Unit → State → Prop} (h : Steady k H s)
    (hrefs : ∀ ip', holders k' ip' + (ip ::ₘ 0).count ip' = holders k ip' + H.count ip')
    (hheld : ∀ ip' ∈ H, (s.dinode ip').type ≠ .free)
    (hQ : ∀ s', Steady k' 0 s' → Frame (Held k' 0) s s' → Q () s') :
    wp any (iput ip) Q s := by
  have hsteady : Steady k' (ip ::ₘ 0) s := by
    apply h.rehold hrefs
    intro ip' hpos
    by_cases hmem : ip' ∈ H
    · exact hheld ip' hmem
    · have hcount := hrefs ip'
      rw [count_eq_zero.mpr hmem] at hcount
      exact h.held ip' (by omega)
  exact wp_iput hsteady fun s' h' hframe _ _ => hQ s' h' hframe

/-- **`fileclose`**: the last reference to the file puts its inode. -/
theorem wp_fileclose {f : Fin NFILE} {Q : Unit → State → Prop} (h : Sound s)
    (hQ : ∀ s', Over s s' → (∀ ip, holders s'.kernel ip ≤ holders s.kernel ip) → Q () s') :
    wp any (fileclose f) Q s := by
  refine wp_bind.mpr (wp_onKernel fun k' r hclose => ?_)
  obtain ⟨htidy, hkept, -, hholders⟩ := h.tidy.fileclose hclose
  have hfiles := hkept h.placed
  rcases r with _ | ff
  · refine hQ _ (h.setKernel _ hholders htidy hfiles) fun ip => ?_
    exact (hholders ip).le
  obtain ⟨-, hgone⟩ := hholders
  have hle : ∀ ip, holders k' ip ≤ holders s.kernel ip := by
    intro ip
    have hnonneg := Fs.fileHolds_nonneg ip ff
    rw [hgone]
    omega
  refine wp_onlyIf.mpr ⟨fun htype => ?_, fun htype => ?_⟩
  · have hrefs : ∀ ip, holders k' ip + (ff.ip ::ₘ 0).count ip =
        holders s.kernel ip + Multiset.count ip 0 := by
      intro ip
      rw [hgone, Fs.fileHolds_count htype, count_zero]
      omega
    refine wp_giveUp (h.steady.setKernel k') hrefs (fun ip hip => ?_) fun s' h' hframe => ?_
    · exact absurd hip (notMem_zero ip)
    have hkernel : s'.kernel = k' := hframe.kernel
    have halike : Alike (Stays s s') { s with kernel := k' } s' := by
      apply hframe.toAlike.mono
      intro ip hip
      exact .inl (hkernel ▸ hip.2)
    have hover := ((Alike.setKernel _ s k').trans halike).over (hkernel ▸ h') h.steady
      (hkernel ▸ htidy) (hkernel ▸ hfiles)
    exact hQ s' hover (hkernel ▸ hle)
  · refine hQ _ (h.setKernel _ (fun ip => ?_) htidy hfiles) hle
    rw [hgone, Fs.fileHolds_of_type htype, sub_zero]

theorem wp_sysClose {fd : Option Int} (h : Sound s) (hQ : ∀ r s', Over s s' → Q r s') :
    wp any (sysClose p fd) Q s := by
  refine wp_get.mpr ?_
  split
  · exact hQ _ s h.same
  rename_i fd f _
  have hcleared := h.setKernel (s.kernel.setSlot p fd none)
    (fun ip => Fs.holders_setSlot ..) h.tidy.setSlot h.placed
  refine wp_bind.mpr (wp_modify.mpr (wp_bind.mpr (wp_fileclose hcleared.sound ?_)))
  intro s' hover _
  refine hQ _ s' (hcleared.trans hover fun ip hip => ?_)
  exact (Fs.holders_setSlot ..).symm ▸ hip.1

theorem wp_putCwd {Q : Unit → State → Prop} (h : Steady k H s) (hk : s.kernel = k)
    (hrefs : ∀ ip, holders k' ip + cwdHolds ip (k.ptable p) = holders k ip + H.count ip)
    (hheld : ∀ ip ∈ H, (s.dinode ip).type ≠ .free)
    (hQ : ∀ s', Steady k' 0 s' → Frame (Held k' 0) s s' → Q () s') :
    wp any (putCwd p) Q s := by
  refine wp_get.mpr ?_
  split
  next cwd hcwd =>
    rw [hk] at hcwd
    refine wp_giveUp h (fun ip => ?_) hheld hQ
    rw [← Fs.cwdHolds_count hcwd]
    exact hrefs ip
  · trivial

theorem wp_sysChdir {args : Option Path} (h : Sound s)
    (hQ : ∀ r s', (¬ Vacant (s.kernel.ptable p).state → Over s s') →
      (r = -1 → Unchanged s s') → Q r s') : wp any (sysChdir p args) Q s := by
  have hfail : ∀ s', Amid s.kernel True 0 s [] s' → Q (-1) s' :=
    fun s' h' => hQ _ s' (fun _ => h.back h') fun _ => h'.unchanged
  unfold sysChdir
  split
  · exact hfail s (.begin h.steady)
  refine wp_bind.mpr (wp_namei h.steady rfl hfail fun ip s1 h1 => ?_)
  refine wp_bind.mpr (h1.ilock fun s2 h2 _ hvalid => wp_get.mpr ?_)
  split
  · exact wp_bind.mpr (h2.iunlockput fun s3 h3 _ _ => hfail s3 h3)
  refine wp_bind.mpr (wp_iunlock ?_)
  -- the new directory is held from now on, the old one no longer
  have hmoved : ∀ ip', holders (setCwd p (some ip) s.kernel) ip' +
      cwdHolds ip' (s.kernel.ptable p) = holders s.kernel ip' + (ip ::ₘ 0).count ip' := by
    intro ip'
    have hnew : cwdHolds ip' { s.kernel.ptable p with cwd := some ip } = (ip ::ₘ 0).count ip' :=
      Fs.cwdHolds_count rfl
    rw [setCwd, Fs.holders_setProc]
    omega
  have hframe := h2.frame
  refine wp_bind.mpr (wp_putCwd h2.steady hframe.kernel hmoved (fun ip' hip => ?_) ?_)
  · rw [inHand, inHand, cons_zero, mem_singleton] at hip
    rw [hip]
    exact (h2.steady.copy_eq Held.head hvalid).2
  intro s3 h3 hframe3
  have hkernel : s3.kernel = s.kernel := hframe3.kernel.trans hframe.kernel
  refine hQ _ _ (fun hlive => ?_) (absurd · (by decide))
  change Over s { s3 with kernel := setCwd p (some ip) s3.kernel }
  rw [hkernel]
  have halike : Alike (Stays s { s3 with kernel := setCwd p (some ip) s.kernel }) s
      { s3 with kernel := setCwd p (some ip) s.kernel } :=
    ((hframe.toAlike.mono fun ip' hip => .inl hip.1).trans
      (hframe3.toAlike.mono fun ip' hip => .inl hip.2)).trans (.setKernel ..)
  exact halike.over (h3.setKernel _) h.steady (h.tidy.setProc fun hv => absurd hv hlive) h.placed

theorem wp_fork {kalloc copyuvm : Bool} (h : Sound s) (hlive : ¬ Vacant (s.kernel.ptable p).state)
    (hQ : ∀ r s', Over s s' → Q r s') : wp any (fork p kalloc copyuvm) Q s := by
  have hforked : Fs.Forked s.kernel p (Xv6.fork s.kernel p kalloc copyuvm) :=
    Fs.forked h.tidy hlive
  refine wp_bind.mpr (wp_onKernel fun k' pid hfork => ?_)
  rw [hfork] at hforked
  obtain ⟨htidy, hkept, ⟨hneg, hsame⟩ | ⟨hpos, hcwd, hmore⟩⟩ := hforked
  · simp only [hneg]
    exact hQ _ _ (h.setKernel _ hsame htidy (hkept h.placed))
  simp only [not_lt.mpr hpos]
  have hmine : ∀ cwd, (k'.ptable p).cwd = some cwd → 0 < holders s.kernel cwd := by
    intro cwd heq
    rw [hcwd] at heq
    exact Fs.holders_pos_of_cwd heq
  refine wp_bind.mpr (wp_dupCwd (h.steady.setKernel k') (fun cwd heq => .inl (hmine cwd heq)) ?_)
  intro cwd s1 heq h1 hframe1 _
  have hkernel : s1.kernel = k' := hframe1.kernel
  have hfree : (s1.dinode cwd).type ≠ .free := h1.held cwd (hmine cwd heq)
  have h2 : Steady k' 0 s1 := by
    refine h1.hold hfree fun ip => ?_
    rw [hcwd] at heq
    rw [hmore, Fs.cwdHolds_count heq]
  have halike : Alike (Stays s s1) s s1 :=
    (Alike.setKernel _ s k').trans (hframe1.toAlike.mono fun ip hip => .inl hip.1)
  exact hQ _ s1 (halike.over (hkernel ▸ h2) h.steady (hkernel ▸ htidy)
    (hkernel ▸ hkept h.placed))

theorem wp_exitFiles {Q : Unit → State → Prop} : ∀ (fds : List (Fin NOFILE)) {s : State}, Sound s →
    (∀ s', Over s s' → (∀ ip, holders s'.kernel ip ≤ holders s.kernel ip) → Q () s') →
    wp any (exitFiles p fds) Q s := by
  intro fds
  induction fds with
  | nil => exact fun h hQ => hQ _ h.same fun _ => le_rfl
  | cons fd fds ih =>
    intro s h hQ
    refine wp_get.mpr ?_
    split
    · refine wp_bind.mpr (wp_fileclose h fun s1 hover1 hle1 => wp_bind.mpr (wp_modify.mpr ?_))
      have hcleared := hover1.sound.setKernel (s1.kernel.setSlot p fd none)
        (fun ip => Fs.holders_setSlot ..) hover1.sound.tidy.setSlot hover1.sound.placed
      refine ih hcleared.sound fun s2 hover2 hle2 => ?_
      have hle2' : ∀ ip, holders s2.kernel ip ≤ holders s1.kernel ip := by
        intro ip
        exact (hle2 ip).trans (Fs.holders_setSlot ..).le
      refine hQ s2 ((hover1.trans hcleared fun ip hip => ?_).trans hover2 fun ip hip => ?_)
        fun ip => (hle2' ip).trans (hle1 ip)
      · exact (Fs.holders_setSlot ..).subst hip.2
      · exact (Fs.holders_setSlot ..).symm ▸ lt_of_lt_of_le hip.2 (hle2' ip)
    · exact ih h hQ

theorem wp_exit {Q : Unit → State → Prop} (h : Sound s) (hQ : ∀ s', Over s s' → Q () s') :
    wp any (exit p) Q s := by
  refine wp_get.mpr ?_
  split
  · trivial
  refine wp_bind.mpr (wp_exitFiles _ h fun s1 hover1 hle1 => ?_)
  have h1 := hover1.sound
  have hrefs : ∀ ip, holders (Fs.exited p s1.kernel) ip + cwdHolds ip (s1.kernel.ptable p) =
      holders s1.kernel ip + Multiset.count ip 0 := by
    intro ip
    rw [Fs.holders_exited, count_zero, Nat.cast_zero, add_zero]
  refine wp_bind.mpr (wp_putCwd h1.steady rfl hrefs (fun ip hip => ?_) fun s2 h2 hframe2 => ?_)
  · exact absurd hip (notMem_zero ip)
  apply hQ
  change Over s { s2 with kernel := Fs.exited p s2.kernel }
  rw [hframe2.kernel]
  have hover2 : Over s1 { s2 with kernel := Fs.exited p s1.kernel } := by
    have halike : Alike (Stays s1 { s2 with kernel := Fs.exited p s1.kernel }) s1
        { s2 with kernel := Fs.exited p s1.kernel } :=
      (hframe2.toAlike.mono fun ip hip => .inl hip.2).trans (.setKernel ..)
    exact halike.over (h2.setKernel _) h1.steady h1.tidy.exited h1.placed
  refine hover1.trans hover2 fun ip hip => ?_
  have hpos : 0 < holders (Fs.exited p s1.kernel) ip := hip.2
  have hnonneg := Fs.cwdHolds_nonneg ip (s1.kernel.ptable p)
  have hexited := Fs.holders_exited s1.kernel p ip
  omega

end Xv6.Icache
