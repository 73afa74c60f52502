import Xv6.FsTreeCalls

/-!
**`link` and `unlink` keep a file system good.**

Both take a link count ahead of, or behind, the names for a while; `owed` says by how much.
`link` also counts up before it knows whether there will be a name, and a count that wraps around
is restored when there is none (`wp_linkBad`).
-/

namespace Xv6.Fs

open Program LinkTree Function

section

variable {m : Aim} {k : Kernel} {X : Multiset Nat} {owed : Nat → ℤ} {leaving pending : Nat → Prop}
  {s : State} {dp ip off : Nat} {name : Name} {n : ℤ}

theorem Good.addName (h : Good m k X owed leaving pending s) (howed : 0 ≤ owed dp)
    (hdp : isDir s dp) (hip : allocated s ip) (hroot : ip ≠ ROOTINO)
    (hnone : (s.inode dp).lookup name = none) (hmax : (s.inode dp).emptySlot < MAXENTS)
    (hfirst : isDir s ip → (s.inode ip).par = dp ∧ dp ≠ ip ∧ ¬ Named (table s) ip)
    (hstrict : m = .exactLinks → Linked ROOTINO (table s) dp)
    (hn : n = (s.inode dp).nlink + if (s.inode ip).type = .T_DIR then 1 else 0)
    (hshort : n ≤ 32767) :
    Good m k X (update owed ip (owed ip - 1)) (fun x => leaving x ∧ x ≠ ip) pending
      (s.setInode dp { (s.inode dp).write (s.inode dp).emptySlot ⟨UInt16.ofNat ip, name⟩ with
        nlink := n }) := by
  obtain ⟨hdppos, -⟩ := h.inside hdp.allocated
  have hdplt := h.lt hdp.allocated
  have hiplt := h.lt hip
  have hshape := h.shape dp hdp
  have hproper : (Dirent.mk (UInt16.ofNat ip) name).proper = true := by
    have hnum := inum_ne_zero (h.inside hip).1 hiplt
    have hdot : name ≠ dot := fun heq => hshape.lookup_dots hdppos hdplt (.inl heq) hnone
    have hdotdot : name ≠ dotdot := fun heq => hshape.lookup_dots hdppos hdplt (.inr heq) hnone
    simp [Dirent.proper, hnum, hdot, hdotdot]
  have hnum : (UInt16.ofNat ip).toNat = ip := by rw [UInt16.toNat_ofNat', Nat.mod_eq_of_lt hiplt]
  obtain ⟨hwrite, hpar⟩ := hshape.write (hshape.two_le_emptySlot hdppos hdplt)
    Inode.emptySlot_le hmax (.inr hproper)
  have hmore := Inode.oneMore_link hdp hproper
  rw [hnum] at hmore
  refine h.rewrite hdp.allocated rfl ?_ (fun _ => ⟨hwrite.ents, hwrite.length⟩) hshort
    (fun _ hj => hj) ?_
  · apply h.tree.addEdge (Inode.node_dir.mpr hdp) (Inode.node_used.mpr hip) hroot
    · exact ⟨rfl, rfl, hpar⟩
    · exact hmore
    · simpa [Inode.node, table] using hn
    · intro hdir
      exact hfirst (Inode.node_dir.mp hdir)
    · exact hstrict
  · intro hzero
    change n = 0 at hzero
    have hnonneg := h.nlink_nonneg hdp.allocated howed
    have hcount : (s.inode dp).nlink = 0 := by split at hn <;> omega
    exact h.zero dp hdp.allocated hcount

theorem Inode.Shaped.two_le_of_lookup {d : Inode} {i : Nat} (h : d.Shaped i)
    (hfound : d.lookup name = some off) (hdot : name ≠ dot) (hdotdot : name ≠ dotdot) :
    2 ≤ off := by
  obtain ⟨up, rest, hents, -, -⟩ := h.ents
  have hname := (Inode.lookup_eq_some hfound).2.2
  by_contra hlt
  have hcases : off = 0 ∨ off = 1 := by omega
  rcases hcases with rfl | rfl
  · simp only [Inode.entry, hents] at hname
    exact hdot hname.symm
  · simp only [Inode.entry, hents] at hname
    exact hdotdot hname.symm

theorem Good.removeName (h : Good m k X owed leaving pending s) (hdp : isDir s dp)
    (hfound : (s.inode dp).lookup name = some off) (hdot : name ≠ dot) (hdotdot : name ≠ dotdot)
    (hip : ((s.inode dp).entry off).inum.toNat = ip)
    (hempty : isDir s ip → (s.inode ip).out = [])
    (habove : m = .noDangling → isDir s ip →
      (∀ x, isDir s x → ¬ Linked ROOTINO (table s) x → (s.inode x).par ≠ ip) ∧
        (Linked ROOTINO (table s) dp ∨ leaving ip))
    (hvalid : (s.icache dp).valid = true)
    (hn : n = (s.inode dp).nlink - if (s.inode ip).type = .T_DIR then 1 else 0) :
    Good m k X (update owed ip (owed ip + 1)) leaving (fun d => pending d ∨ d = dp)
      (s.setInode dp { (s.inode dp).write off Dirent.zero with nlink := n }) := by
  have hshape := h.shape dp hdp
  obtain ⟨hlt, -⟩ := List.findIdx?_eq_some_iff_getElem.mp hfound
  have hmax : off < MAXENTS := lt_of_lt_of_le hlt hshape.length
  obtain ⟨hwrite, hpar⟩ := hshape.write (hshape.two_le_of_lookup hfound hdot hdotdot) hlt.le hmax
    (.inl (rfl : Dirent.zero.inum = 0))
  have hmore := Inode.oneMore_unlink hdp hfound hdot hdotdot
  rw [hip] at hmore
  have hshort := h.short dp hdp.allocated
  refine h.rewrite hdp.allocated rfl ?_ (fun _ => ⟨hwrite.ents, hwrite.length⟩) ?_
    (fun _ hj => .inl hj) fun _ => ⟨hvalid, .inr (.inr rfl)⟩
  · apply h.tree.removeEdge
    · exact ⟨rfl, rfl, hpar⟩
    · exact hmore
    · simpa [Inode.node, table] using hn
    · exact fun hdir => hempty (Inode.node_dir.mp hdir)
    · intro hm hdir
      obtain ⟨hothers, hlinked⟩ := habove hm (Inode.node_dir.mp hdir)
      exact ⟨fun x hx => hothers x (Inode.node_dir.mp hx), hlinked⟩
  · simp only
    split at hn <;> omega

end

/-! ### Directory entries -/

theorem wp_dirlink_new {E : String → Prop} {s : State} {locked : List Nat} {dp inum : Nat}
    {name : Name} {Q : Int → State → Prop} (hE : E "dirlink") (hdir : isDir s dp)
    (hnone : (s.inode dp).lookup name = none)
    (hQ : (s.inode dp).emptySlot < MAXENTS → Q 0 (s.setInode dp
      ((s.inode dp).write (s.inode dp).emptySlot ⟨UInt16.ofNat inum, name⟩))) :
    wp E (dirlink locked dp name inum) Q s := by
  have hlookup : ∀ Q', Q' none s → wp E (dirlookup dp name) Q' s := by
    intro Q' hQ'
    refine wp_get.mpr ?_
    have htype : (s.inode dp).type = .T_DIR := hdir
    rw [if_neg (not_not.mpr htype), hnone]
    exact hQ'
  refine wp_bind.mpr (hlookup _ (wp_bind.mpr (wp_atomic.mpr ⟨?_, ?_⟩)))
  · intro _ s' hstep
    split at hstep
    next hmax =>
      cases hstep
      exact hQ hmax
    · cases hstep
  · intro msg hstep
    split at hstep
    · cases hstep
    · cases hstep
      exact hE

theorem wp_dirlink_append {E : String → Prop} {s : State} {locked : List Nat} {dp inum : Nat}
    {name : Name} {Q : Int → State → Prop} (hE : E "dirlink") (hdir : isDir s dp)
    (hents : ∀ e ∈ (s.inode dp).ents, e.inum ≠ 0 ∧ e.name ≠ name)
    (hQ : Q 0 (s.setInode dp { s.inode dp with
      ents := (s.inode dp).ents ++ [⟨UInt16.ofNat inum, name⟩] })) :
    wp E (dirlink locked dp name inum) Q s := by
  have hnone : (s.inode dp).lookup name = none := by
    rw [Inode.lookup, List.findIdx?_eq_none_iff]
    intro e he
    simp [(hents e he).2]
  have hslot : (s.inode dp).emptySlot = (s.inode dp).ents.length := by
    apply List.findIdx_eq_length_of_false
    intro e he
    simp [(hents e he).1]
  apply wp_dirlink_new hE hdir hnone
  intro _
  rw [Inode.write, hslot, if_neg (lt_irrefl _)]
  exact hQ

section

variable {m : Aim} {k : Kernel} {X : Multiset Nat} {owed : Nat → ℤ} {s : State} {p : Fin NPROC}
  {dp ip : Nat} {name : Name} {n : ℤ} {Q : Int → State → Prop}

theorem wp_dirlink {locked : List Nat} {inum : Nat} (h : Calm m k X owed s)
    (hfound : ∀ s', Calm m k X owed s' → Same s s' → Q (-1) s')
    (hnew : isDir s dp → (s.inode dp).lookup name = none →
      (s.inode dp).emptySlot < MAXENTS → Q 0 (s.setInode dp
        ((s.inode dp).write (s.inode dp).emptySlot ⟨UInt16.ofNat inum, name⟩))) :
    wp (harmless m) (dirlink locked dp name inum) Q s := by
  by_cases hthere : isDir s dp ∧ (s.inode dp).lookup name = none
  · obtain ⟨hdir, hnone⟩ := hthere
    exact wp_dirlink_new ⟨by decide, fun _ => by decide⟩ hdir hnone (hnew hdir hnone)
  refine wp_bind.mpr (wp_dirlookup h (fun hdir hnone => absurd ⟨hdir, hnone⟩ hthere) ?_)
  intro off s1 _ _ h1 hsame1 _
  refine wp_bind.mpr (wp_iput_calm h1 id fun s2 h2 hsame2 _ => ?_)
  exact hfound s2 h2 (hsame1.trans hsame2)

/-- **`link` gives up** and counts back down. -/
theorem wp_linkBad (h : Calm m k (ip ::ₘ 0) (update 0 ip (toShort (n + 1) - n)) s)
    (halloc : allocated s ip) (hn : (s.inode ip).nlink = toShort (n + 1)) (hlo : 0 ≤ n)
    (hhi : n ≤ 32767) (hheld : n = 0 → 0 < holders k ip)
    (hQ : ∀ s', Calm m k 0 0 s' → s'.kernel = s.kernel → Q (-1) s') :
    wp (harmless m) (linkBad ip) Q s := by
  refine wp_bind.mpr (wp_ilock h (fun _ => halloc) fun s1 h1 hsame1 halloc1 hvalid1 _ => ?_)
  rw [← hsame1.inode] at hn
  have hback : toShort ((s1.inode ip).nlink + -1) = n := by
    rw [hn]
    unfold toShort
    omega
  have h2 : Calm m k (ip ::ₘ 0) 0 (s1.setInode ip ((s1.inode ip).addLink (-1))) := by
    rw [Inode.addLink, hback]
    refine h1.relink halloc1 ?_ hhi (fun _ hj => hj) fun hzero => ⟨hvalid1, .inl (hheld hzero)⟩
    rw [hn]
    simp
  refine wp_bind.mpr (wp_bind.mpr (wp_iunlockput_calm h2 id fun s3 h3 hsame3 _ => ?_))
  exact hQ s3 h3 (hsame3.kernel.trans hsame1.kernel)

theorem wp_linkInto {new : Path}
    (h : Calm m k (ip ::ₘ 0) (update 0 ip (toShort (n + 1) - n)) s) (hk : s.kernel = k)
    (hip : allocated s ip) (hfile : (s.inode ip).type ≠ .T_DIR)
    (hn : (s.inode ip).nlink = toShort (n + 1)) (hlo : 0 ≤ n) (hhi : n ≤ 32767)
    (hheld : n = 0 → 0 < holders k ip)
    (hok : ∀ dp name, lookupPath s p true new = some (dp, name) →
      (s.inode dp).lookup name = none →
        n < 32767 ∧ (m = .exactLinks → Linked ROOTINO (table s) dp))
    (hQ : ∀ r s', Calm m k 0 0 s' → s'.kernel = k → Q r s') :
    wp (harmless m) (linkInto p ip new) Q s := by
  have hbad : ∀ s', Calm m k (ip ::ₘ 0) (update 0 ip (toShort (n + 1) - n)) s' →
      Same s s' → wp (harmless m) (linkBad ip) Q s' := by
    intro s' h' hsame
    refine wp_linkBad h' ?_ ?_ hlo hhi hheld fun s'' h'' hkernel => hQ _ _ h'' ?_
    · rwa [allocated, hsame.inode]
    · rwa [hsame.inode]
    · rw [hkernel, hsame.kernel, hk]
  refine wp_bind.mpr (wp_namex h hk hbad ?_)
  intro dp name s1 hr h1 hsame1 hlock
  refine wp_bind.mpr (wp_ilock h1 hlock fun s2 h2 hsame2 _ _ _ => ?_)
  have hsame := hsame1.trans hsame2
  refine wp_bind.mpr (wp_dirlink h2 ?_ ?_)
  · intro s3 h3 hsame3
    refine wp_bind.mpr (wp_iunlockput_calm h3 id fun s4 h4 hsame4 _ => ?_)
    exact hbad s4 h4 (hsame.trans (hsame3.trans hsame4))
  · intro hdp hnone hmax
    have hnone' := hnone
    rw [hsame.inode] at hnone'
    obtain ⟨hroom, hlinked⟩ := hok dp name hr hnone'
    have hone : toShort (n + 1) - n = 1 := by
      rw [toShort_of_mem (by omega) (by omega)]
      omega
    rw [hone] at h2
    have htable := hsame.table_eq
    have hip2 : allocated s2 ip := by rwa [allocated, hsame.inode]
    have hfile2 : (s2.inode ip).type ≠ .T_DIR := by rwa [hsame.inode]
    have howed : 0 ≤ update (0 : Nat → ℤ) ip 1 dp := by
      by_cases heq : dp = ip
      · simp [heq]
      · simp [heq]
    have hnew := h2.addName howed hdp hip2 (fun hroot => hfile2 (hroot ▸ Inode.node_dir.mp
      h2.tree.root_dir)) hnone hmax (fun hdir => absurd hdir hfile2)
      (fun hm => htable ▸ hlinked hm) (by rw [if_neg hfile2, add_zero]) (h2.short dp hdp.allocated)
    have hpaid : update (0 : Nat → ℤ) ip (1 - 1) = 0 := update_eq_self ip _
    rw [update_self, update_idem, hpaid] at hnew
    have hcalm : Calm m k (dp ::ₘ ip ::ₘ 0) _ _ := hnew.mono (fun _ hd => hd.1) fun _ hd => hd
    refine wp_bind.mpr (wp_iunlockput_calm hcalm id fun s4 h4 hsame4 _ => ?_)
    refine wp_bind.mpr (wp_iput_calm h4 id fun s5 h5 hsame5 _ => ?_)
    apply hQ _ s5 h5
    rw [hsame5.kernel, hsame4.kernel, ← hk, ← hsame.kernel]
    rfl

/-- If `sys_link` gets as far as making a name, the count has room for it, and the directory is
linked where counts have to be exact. -/
def MayLink (m : Aim) (s : State) (p : Fin NPROC) (args : Option (Path × Path)) : Prop :=
  ∀ old new ip last dp name, args = some (old, new) →
    lookupPath s p false old = some (ip, last) → (s.inode ip).type ≠ .T_DIR →
    lookupPath s p true new = some (dp, name) → (s.inode dp).lookup name = none →
    (s.inode ip).nlink < 32767 ∧ (m = .exactLinks → Linked ROOTINO (table s) dp)

theorem wp_sysLink {args : Option (Path × Path)} (h : Calm m k 0 0 s) (hk : s.kernel = k)
    (hok : MayLink m s p args) (hQ : ∀ r s', Calm m k 0 0 s' → s'.kernel = k → Q r s') :
    wp (harmless m) (sysLink p args) Q s := by
  unfold sysLink
  split
  · exact hQ _ s h hk
  rename_i old new
  refine wp_bind.mpr (wp_namei h hk ?_ ?_)
  · intro s1 h1 hsame1
    exact hQ _ s1 h1 (hsame1.kernel.trans hk)
  intro ip i s1 hlook h1 hsame1 hlock
  refine wp_bind.mpr (wp_ilock h1 hlock fun s2 h2 hsame2 halloc2 hvalid2 _ => ?_)
  have hsame := hsame1.trans hsame2
  refine wp_get.mpr ?_
  split
  · refine wp_bind.mpr (wp_iunlockput_calm h2 id fun s3 h3 hsame3 _ => ?_)
    exact hQ _ s3 h3 ((hsame.trans hsame3).kernel.trans hk)
  rename_i hfile
  -- the count goes up before anything names the inode
  have hlo := h2.nlink_nonneg halloc2 le_rfl
  have hhi := h2.short ip halloc2
  have hcount : toShort ((s2.inode ip).nlink + 1) = 0 → False := by
    unfold toShort
    omega
  have hup : Calm m k (ip ::ₘ 0)
      (update 0 ip (toShort ((s2.inode ip).nlink + 1) - (s2.inode ip).nlink))
      (s2.setInode ip ((s2.inode ip).addLink 1)) := by
    refine h2.relink halloc2 (by simp) ?_ (fun _ hj => hj) fun hzero => (hcount hzero).elim
    unfold toShort
    omega
  refine wp_bind.mpr (wp_bind.mpr (wp_iunlock ?_))
  have hkept : ∀ j, ((s2.setInode ip ((s2.inode ip).addLink 1)).inode j).type =
      (s.inode j).type ∧ ((s2.setInode ip ((s2.inode ip).addLink 1)).inode j).ents =
      (s.inode j).ents := by
    intro j
    rw [← hsame.inode]
    by_cases hj : j = ip
    · subst hj
      simp [Inode.addLink]
    · simp [State.setInode, hj]
  have hkernel : (s2.setInode ip ((s2.inode ip).addLink 1)).kernel = s.kernel := hsame.kernel
  refine wp_linkInto hup (hkernel.trans hk) ?_ ?_ ?_ hlo hhi ?_ ?_ hQ
  · rw [allocated, (hkept ip).1, ← hsame.inode]
    exact halloc2
  · rw [(hkept ip).1, ← hsame.inode]
    exact hfile
  · simp [Inode.addLink]
  · intro hzero
    exact (h2.zero ip halloc2 hzero).2.resolve_right id
  intro dp name hdp hnone
  rw [lookupPath_congr hkernel hkept] at hdp
  rw [Inode.lookup, (hkept dp).2] at hnone
  rw [hsame.inode] at hfile ⊢
  obtain ⟨hroom, hlinked⟩ := hok old new ip i dp name rfl hlook hfile hdp hnone
  refine ⟨hroom, fun hm => ?_⟩
  have hout : ∀ d, ((s2.setInode ip ((s2.inode ip).addLink 1)).inode d).out =
      (s.inode d).out := by
    intro d
    rw [Inode.out, Inode.out, (hkept d).1, (hkept d).2]
  refine (hlinked hm).imp_right (.imp fun d hd => ?_)
  change dp ∈ ((s2.setInode ip ((s2.inode ip).addLink 1)).inode d).out
  rw [hout]
  exact hd

end

/-! ### Unlink -/

variable {m : Aim} {k : Kernel} {s : State} {p : Fin NPROC} {dp ip off : Nat} {name : Name}
  {Q : Int → State → Prop}

/-- A directory can lose its name in `dp` without leaving a `..` behind that names nothing: it is
not above a directory nobody names, and `dp` is linked or nobody holds it. -/
def Removable (s : State) (dp ip : Nat) : Prop :=
  (∀ x, isDir s x → ¬ Linked ROOTINO (table s) x → (s.inode x).par ≠ ip) ∧
    (Linked ROOTINO (table s) dp ∨ holders s.kernel ip = 0)

theorem Same.removable {s s' : State} (h : Same s s') :
    Removable s' dp ip ↔ Removable s dp ip := by
  simp only [Removable, isDir, h.table_eq, h.inode, h.kernel]

/-- **Removing an entry**: the inode it names has one link less, and goes when that was the last
and nobody holds it. -/
theorem wp_unlinkEntry (h : Calm m k (ip ::ₘ dp ::ₘ 0) 0 s) (hdp : isDir s dp)
    (hfound : (s.inode dp).lookup name = some off) (hdot : name ≠ dot) (hdotdot : name ≠ dotdot)
    (hip : ((s.inode dp).entry off).inum.toNat = ip)
    (hempty : isDir s ip → (s.inode ip).out = [])
    (habove : m = .noDangling → isDir s ip → Removable s dp ip) (hk : s.kernel = k)
    (hvaliddp : (s.icache dp).valid = true) (hvalidip : (s.icache ip).valid = true)
    (hQ : ∀ s', Calm m k 0 0 s' → s'.kernel = s.kernel → Q 0 s') :
    wp (harmless m) (unlinkEntry dp ip off (s.inode ip).type) Q s := by
  have hout : ip ∈ (s.inode dp).out := hip ▸ Inode.mem_out_of_lookup hdp hfound hdot hdotdot
  have hne : dp ≠ ip := by
    rintro rfl
    rw [hempty hdp] at hout
    cases hout
  have halloc : allocated s ip := h.valid ip hvalidip
  have hone := h.one_le_nlink hout le_rfl
  have hshort := h.short ip halloc
  -- a directory nobody holds will be freed by this call
  let leaving : Nat → Prop := fun d => d = ip ∧ isDir s ip ∧ holders k ip = 0
  have h0 : Good m k (ip ::ₘ dp ::ₘ 0) 0 leaving (fun _ => False) s :=
    h.mono (fun _ hd => hd.elim) fun _ hd => hd
  have h1 := h0.removeName hdp hfound hdot hdotdot hip hempty
    (fun hm hdir => (habove hm hdir).imp_right (Or.imp_right fun hheld => ⟨rfl, hdir, hk ▸ hheld⟩))
    hvaliddp rfl
  rw [Multiset.cons_swap] at h1
  set a : Inode := { (s.inode dp).write off Dirent.zero with
    nlink := (s.inode dp).nlink - if (s.inode ip).type = .T_DIR then 1 else 0 } with ha
  have hrest : wp (harmless m) (do
      iunlockput [ip] dp
      iupdate ip fun d => d.addLink (-1)
      iunlockput [] ip
      pure 0) Q (s.setInode dp a) := by
    refine wp_bind.mpr (wp_iunlockput h1 ?_ ?_ ?_ fun s2 h2 hkernel2 _ hother2 => ?_)
    · simp [hne]
    · simp [hne]
    · rintro ⟨heq, -⟩
      exact absurd heq hne
    obtain ⟨hinode, hcache⟩ := hother2 ip hne.symm
    rw [setInode_of_ne s a hne.symm] at hinode
    have halloc2 : allocated s2 ip := by rwa [allocated, hinode]
    have hminus : toShort ((s2.inode ip).nlink + -1) = (s.inode ip).nlink - 1 := by
      rw [hinode, toShort_of_mem (by omega) (by omega)]
      omega
    have h3 : Good m k (ip ::ₘ 0) 0 (fun d => leaving d ∧ d ≠ dp) (fun d => d = ip)
        (s2.setInode ip ((s2.inode ip).addLink (-1))) := by
      rw [Inode.addLink, hminus]
      refine h2.relink halloc2 ?_ (by omega) ?_ fun _ => ⟨?_, .inr rfl⟩
      · rw [hinode]
        simp
      · rintro j ⟨hj | hj, hjdp⟩
        · exact hj.elim
        · exact absurd hj hjdp
      · rw [hcache]
        exact hvalidip
    refine wp_bind.mpr (wp_bind.mpr (wp_iunlockput h3 le_rfl (fun _ => ?_) ?_
      fun s4 h4 hkernel4 _ _ => ?_))
    · exact Multiset.notMem_zero ip
    · rintro ⟨⟨-, hdir, hheld⟩, -⟩
      refine ⟨rfl, ?_, ?_, hheld⟩
      · simpa [allocated, Inode.addLink] using halloc2
      · have hlast := h.nlink_eq_one rfl hout hdir (hempty hdir)
        simp only [setInode_self, Inode.addLink, hminus, hlast]
        rfl
    · apply hQ s4
      · exact h4.mono (fun d hd => hd.2 hd.1.1.1) fun d hd => hd.2 hd.1
      · rw [hkernel4]
        exact hkernel2
  refine wp_bind.mpr (wp_bind.mpr (wp_onlyIf.mpr ⟨fun hdir => ?_, fun hfile => ?_⟩))
  · have hlo := h.nlink_nonneg hdp.allocated le_rfl
    have hhi := h.short dp hdp.allocated
    have hstate : a = ((s.inode dp).write off Dirent.zero).addLink (-1) := by
      rw [ha, if_pos hdir, Inode.addLink]
      have hminus : toShort (((s.inode dp).write off Dirent.zero).nlink + -1) =
          (s.inode dp).nlink - 1 := toShort_of_mem (x := (s.inode dp).nlink - 1) (by omega) (by omega)
      rw [hminus]
    rw [hstate] at hrest
    simpa [iupdate] using hrest
  · have hstate : a = (s.inode dp).write off Dirent.zero := by
      rw [ha, if_neg hfile, sub_zero]
      rfl
    rw [hstate] at hrest
    exact hrest

theorem wp_unlinkBad (h : Calm m k (dp ::ₘ 0) 0 s)
    (hQ : ∀ r s', Calm m k 0 0 s' → s'.kernel = s.kernel → Q r s') :
    wp (harmless m) (unlinkBad dp) Q s :=
  wp_bind.mpr (wp_iunlockput_calm h id fun s' h' hsame _ => hQ _ s' h' hsame.kernel)

/-- If the name in `dp` is that of an empty directory, that can be removed, where no `..` may
dangle. -/
def MayRemove (m : Aim) (s : State) (dp : Nat) (name : Name) : Prop :=
  ∀ off ip, m = .noDangling → name ≠ dot → name ≠ dotdot →
    (s.inode dp).lookup name = some off → ((s.inode dp).entry off).inum.toNat = ip →
    isDir s ip → isdirempty (s.inode ip) = true → Removable s dp ip

theorem wp_unlinkIn (h : Calm m k (dp ::ₘ 0) 0 s) (hk : s.kernel = k)
    (hvalid : (s.icache dp).valid = true) (hok : MayRemove m s dp name)
    (hQ : ∀ r s', Calm m k 0 0 s' → s'.kernel = s.kernel → Q r s') :
    wp (harmless m) (unlinkIn dp name) Q s := by
  unfold unlinkIn
  split
  · exact wp_unlinkBad h hQ
  rename_i hname
  rw [not_or] at hname
  obtain ⟨hdot, hdotdot⟩ := hname
  refine wp_bind.mpr (wp_dirlookup h (fun _ _ => wp_unlinkBad h hQ) ?_)
  intro off s1 hdp hfound h1 hsame1 hvalid1
  -- the entry names an inode, so it has a link and can be locked
  have hout := Inode.mem_out_of_lookup hdp hfound hdot hdotdot
  have hlock : allocated s1 (((s.inode dp).entry off).inum.toNat) := by
    rw [allocated, hsame1.inode]
    exact Inode.node_used.mp (h.tree.out_used dp _ hout)
  refine wp_bind.mpr (wp_ilock h1 (fun _ => hlock) fun s2 h2 hsame2 halloc2 hvalid2 hmono2 => ?_)
  have hsame := hsame1.trans hsame2
  generalize hip : ((s.inode dp).entry off).inum.toNat = ip at *
  refine wp_get.mpr ?_
  rw [← hsame.inode] at hout
  have hone := h2.one_le_nlink hout le_rfl
  split
  · omega
  split
  · refine wp_bind.mpr (wp_iunlockput_calm h2 id fun s3 h3 hsame3 _ => ?_)
    refine wp_unlinkBad h3 fun r s' h' hkernel => hQ r s' h' ?_
    rw [hkernel, hsame3.kernel, hsame.kernel]
  rename_i hempty
  have hempty2 : isDir s2 ip → isdirempty (s2.inode ip) = true := by
    intro hdir
    by_contra hfull
    exact hempty ⟨hdir, Bool.not_eq_true _ ▸ hfull⟩
  have hdp2 : isDir s2 dp := by rwa [isDir, hsame.inode]
  have hfound2 : (s2.inode dp).lookup name = some off := by rwa [hsame.inode]
  have hip2 : ((s2.inode dp).entry off).inum.toNat = ip := by rwa [hsame.inode]
  refine wp_unlinkEntry h2 hdp2 hfound2 hdot hdotdot hip2 ?_ ?_ (hsame.kernel.trans hk)
    ?_ hvalid2 ?_
  · intro hdir
    exact (h2.shape ip hdir).out_eq_nil (hempty2 hdir)
  · intro hm hdir
    have hemptyip := hempty2 hdir
    rw [isDir, hsame.inode] at hdir
    rw [hsame.inode] at hemptyip
    exact hsame.removable.mpr (hok off ip hm hdot hdotdot hfound hip hdir hemptyip)
  · exact hmono2 dp (hvalid1 dp (Multiset.mem_cons_self ..) hvalid)
  · intro s' h' hkernel
    exact hQ 0 s' h' (hkernel.trans hsame.kernel)

def MayUnlink (m : Aim) (s : State) (p : Fin NPROC) (args : Option Path) : Prop :=
  ∀ path dp name, args = some path → lookupPath s p true path = some (dp, name) →
    MayRemove m s dp name

theorem wp_sysUnlink {args : Option Path} (h : Calm m k 0 0 s) (hk : s.kernel = k)
    (hok : MayUnlink m s p args) (hQ : ∀ r s', Calm m k 0 0 s' → s'.kernel = k → Q r s') :
    wp (harmless m) (sysUnlink p args) Q s := by
  unfold sysUnlink
  split
  · exact hQ _ s h hk
  rename_i path
  refine wp_bind.mpr (wp_namex h hk ?_ ?_)
  · intro s1 h1 hsame1
    exact hQ _ s1 h1 (hsame1.kernel.trans hk)
  intro dp name s1 hr h1 hsame1 hlock
  refine wp_bind.mpr (wp_ilock h1 hlock fun s2 h2 hsame2 _ hvalid2 _ => ?_)
  have hsame := hsame1.trans hsame2
  refine wp_unlinkIn h2 (hsame.kernel.trans hk) hvalid2 ?_ ?_
  · intro off ip hm hdot hdotdot hfound hip hdir hempty
    rw [isDir, hsame.inode] at hdir
    rw [hsame.inode] at hfound hip hempty
    exact hsame.removable.mpr
      (hok path dp name rfl hr off ip hm hdot hdotdot hfound hip hdir hempty)
  · intro r s' h' hkernel
    exact hQ r s' h' ((hkernel.trans hsame.kernel).trans hk)

end Xv6.Fs
