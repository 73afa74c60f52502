import Xv6.FsTreeLinks

/-!
**`create` keeps a file system good.**

The inode that `create` makes is not in the tree until the last `dirlink`, and a new directory
has no dots before that. The steps in between are therefore executed, and the invariant is taken
up again in two stages: the finished inode joins the tree as one nobody names (`Good.born`), and
then its parent names it (`Good.addName`).
-/

namespace Xv6.Fs

open Program LinkTree Function

/-- What `create` makes of a free inode. -/
def newborn (type : InodeType) (major minor : Int) (dp ip : Nat) : Inode where
  type := type
  major := toShort major
  minor := toShort minor
  nlink := 1
  ents := if type = .T_DIR then [⟨UInt16.ofNat ip, dot⟩, ⟨UInt16.ofNat dp, dotdot⟩] else []

def State.claimed (s : State) (ip : Nat) (type : InodeType) : State :=
  { (s.setInode ip ⟨type, 0, 0, 0, []⟩).setCache ip { ref := 1, valid := false } with
    inuse := s.inuse + 1 }

/-- An inode that was free becomes `a`, with one reference in the cache. -/
def State.born (s : State) (ip : Nat) (a : Inode) : State :=
  { (s.setInode ip a).setCache ip { ref := 1, valid := true } with inuse := s.inuse + 1 }

theorem born_setInode (s : State) (ip : Nat) (a b : Inode) :
    (s.born ip a).setInode ip b = s.born ip b := by
  simp [State.born, State.setInode, State.setCache]

theorem born_eq (s : State) (ip : Nat) (type : InodeType) (a : Inode) :
    ((s.claimed ip type).setCache ip { ref := 1, valid := true }).setInode ip a = s.born ip a := by
  simp [State.born, State.claimed, State.setInode, State.setCache]

theorem inode_claimed (s : State) (ip : Nat) (type : InodeType) (c : Incore) :
    ((s.claimed ip type).setCache ip c).inode ip = ⟨type, 0, 0, 0, []⟩ := setInode_self ..

theorem setInode_comm (s : State) {i j : Nat} (hij : i ≠ j) (a b : Inode) :
    (s.setInode i a).setInode j b = (s.setInode j b).setInode i a := by
  simp [State.setInode, update_comm hij]

/-! ### Finding a free inode -/

section

variable {E : String → Prop} {s : State} {type : InodeType} {Q : Nat → State → Prop}

theorem wp_iallocLoop (hE : E "ialloc: no inodes" ∧ E "iget: no inodes")
    (hrefs : ∀ i, (s.inode i).type = .free → (s.icache i).ref = 0)
    (hQ : ∀ ip, 0 < ip → ip < s.ninodes → (s.inode ip).type = .free →
      Q ip (s.claimed ip type)) :
    ∀ (n i : Nat), 0 < i → i + n ≤ s.ninodes → wp E (iallocLoop type n i) Q s := by
  intro n
  induction n with
  | zero => exact fun _ _ _ => hE.1
  | succ n ih =>
    intro i hpos hle
    refine wp_bind.mpr (wp_atomic.mpr ⟨?_, ?_⟩)
    · intro found s' hstep
      split at hstep
      · -- claimed; nobody has it in the cache
        rename_i hfree
        cases hstep
        have href := hrefs i hfree
        refine wp_bind.mpr (wp_atomic.mpr ⟨?_, ?_⟩)
        · intro _ s'' hget
          rw [if_neg (by simp [State.setInode, href])] at hget
          split at hget
          · cases hget
            exact hQ i hpos (by omega) hfree
          · cases hget
        · intro msg hget
          rw [if_neg (by simp [State.setInode, href])] at hget
          split at hget
          · cases hget
          · cases hget
            exact hE.2
      · cases hstep
        exact ih (i + 1) (by omega) (by omega)
    · intro msg hstep
      split at hstep
      · cases hstep
      · cases hstep

theorem wp_ilock_new {i : Nat} {Q : Unit → State → Prop} (href : (s.icache i).ref = 1)
    (hvalid : (s.icache i).valid = false) (htype : (s.inode i).type ≠ .free)
    (hQ : Q () (s.setCache i { ref := 1, valid := true })) : wp E (ilock i) Q s := by
  refine wp_bind.mpr ?_
  simp only [wp_reads, href]
  refine wp_bind.mpr ?_
  simp only [wp_acquire]
  refine wp_atomic.mpr ⟨?_, ?_⟩
  · intro _ s' hstep
    rw [hvalid, if_neg htype] at hstep
    cases hstep
    rw [href]
    exact hQ
  · intro msg hstep
    rw [hvalid, if_neg htype] at hstep
    cases hstep

end

/-! ### The new inode joins the tree -/

section

variable {m : Aim} {k : Kernel} {X : Multiset Nat} {owed : Nat → ℤ} {leaving pending : Nat → Prop}
  {s : State} {dp ip : Nat} {type : InodeType} {major minor : Int}

theorem newborn_out : (newborn type major minor dp ip).out = [] := by
  unfold Inode.out newborn
  split
  · simp [Dirent.proper]
  · rfl

variable (h : Good m k X owed leaving pending s)
include h

theorem Good.holders_of_free (hfree : (s.inode ip).type = .free) : holders k ip = 0 := by
  have hnonneg := holders_nonneg k ip
  by_contra hne
  exact h.held ip (by omega) hfree

theorem Good.born (hfree : (s.inode ip).type = .free) (hpos : 0 < ip) (hlt : ip < s.ninodes)
    (hX : ip ∉ X) (htype : type ≠ .free) (hdp : allocated s dp) :
    Good m k (ip ::ₘ X) (update owed ip 1) (fun d => leaving d ∨ d = ip) pending
      (s.born ip (newborn type major minor dp ip)) := by
  set a := newborn type major minor dp ip with ha
  have hself : (s.born ip a).inode ip = a := by simp [State.born, State.setCache]
  have hother : ∀ j, j ≠ ip → (s.born ip a).inode j = s.inode j := by
    intro j hj
    simp [State.born, State.setInode, State.setCache, hj]
  have hcache : ∀ j, j ≠ ip → (s.born ip a).icache j = s.icache j := by
    intro j hj
    simp [State.born, State.setInode, State.setCache, hj]
  have hnone := h.holders_of_free hfree
  constructor
  · exact h.small
  · have htable : table (s.born ip a) = update (table s) ip a.node := table_setInode ..
    have hunused : (table s ip).used = false := by simpa [table, Inode.node] using hfree
    have hused : a.node.used = true := Inode.node_used.mpr htype
    rw [htable]
    exact h.tree.bear hunused (Finset.mem_Ioo.mpr ⟨hpos, hlt⟩) hused newborn_out
  · intro d hd
    by_cases hdi : d = ip
    · subst hdi
      rw [isDir, hself] at hd
      rw [hself]
      have hents : a.ents = [⟨UInt16.ofNat d, dot⟩, ⟨UInt16.ofNat dp, dotdot⟩] := if_pos hd
      refine ⟨⟨_, [], hents, inum_ne_zero (h.inside hdp).1 (h.lt hdp), ?_⟩, ?_⟩
      · simp
      · rw [hents]
        exact (by decide : 2 ≤ MAXENTS)
    · rw [isDir, hother d hdi] at hd
      rw [hother d hdi]
      exact h.shape d hd
  · intro j hj
    by_cases hji : j = ip
    · subst hji
      rw [hself]
      exact (by decide : (1 : ℤ) ≤ 32767)
    · rw [allocated, hother j hji] at hj
      rw [hother j hji]
      exact h.short j hj
  · intro j
    by_cases hji : j = ip
    · subst hji
      simp [State.born, State.setCache, hnone, Multiset.count_eq_zero.mpr hX]
    · rw [hcache j hji, Multiset.count_cons_of_ne hji]
      exact h.refs j
  · intro j hj
    have hji : j ≠ ip := by
      rintro rfl
      omega
    rw [allocated, hother j hji]
    exact h.held j hj
  · intro j hj
    by_cases hji : j = ip
    · subst hji
      rw [allocated, hself]
      exact htype
    · rw [hcache j hji] at hj
      rw [allocated, hother j hji]
      exact h.valid j hj
  · intro j hj hzero
    by_cases hji : j = ip
    · subst hji
      rw [hself] at hzero
      cases hzero
    rw [allocated, hother j hji] at hj
    rw [hother j hji] at hzero
    rw [hcache j hji]
    exact h.zero j hj hzero

theorem Good.dir_nlink_le {d : Nat} (hd : isDir s d) (howed : owed d = 0) :
    (s.inode d).nlink ≤ MAXENTS + 2 := by
  have hnode : (table s d).dir = true := Inode.node_dir.mpr hd
  have heq : names (Finset.Ioo 0 s.ninodes) (table s) d + kids (table s) d +
      rootLink ROOTINO d + owed d = (s.inode d).nlink :=
    h.tree.links_eq d (h.tree.dir_used d hnode) (.inl hnode)
  have hnames := h.tree.names_le_one hnode
  have hkids : kids (table s) d ≤ MAXENTS := by
    have hlen : (table s d).out.countP (fun j => (table s j).dir) ≤ MAXENTS :=
      calc (table s d).out.countP (fun j => (table s j).dir) ≤ (s.inode d).out.length :=
            List.countP_le_length
        _ = (s.inode d).ents.countP Dirent.proper := by
            have htype : (s.inode d).type = .T_DIR := hd
            rw [Inode.out, if_pos htype, List.length_map, List.countP_eq_length_filter]
        _ ≤ (s.inode d).ents.length := List.countP_le_length
        _ ≤ MAXENTS := (h.shape d hd).length
    exact Int.ofNat_le.mpr hlen
  have hroot : rootLink ROOTINO d ≤ 1 := by
    unfold rootLink
    split <;> decide
  omega

end

/-! ### Create -/

variable {m : Aim} {k : Kernel} {s : State} {p : Fin NPROC} {dp ip : Nat} {name : Name}
  {type : InodeType} {major minor : Int}

theorem inode_born (s : State) (ip : Nat) (a : Inode) : (s.born ip a).inode ip = a :=
  setInode_self ..

theorem inode_born_of_ne (s : State) {j : Nat} (a : Inode) (hj : j ≠ ip) :
    (s.born ip a).inode j = s.inode j := setInode_of_ne s a hj

/-- The new directory gets its dots, and the parent the link that `..` is. -/
theorem wp_createDots {Q : Unit → State → Prop} (hne : dp ≠ ip) (hpos : 0 < ip)
    (hlt : ip < 65536)
    (hQ : Q () ((s.born ip (newborn .T_DIR major minor dp ip)).setInode dp
      ((s.inode dp).addLink 1))) :
    wp (harmless m) (createDots dp ip) Q
      (s.born ip { newborn .T_DIR major minor dp ip with ents := [] }) := by
  have hE : harmless m "dirlink" := ⟨by decide, fun _ => by decide⟩
  let before (ents : List Dirent) : State :=
    (s.born ip { newborn .T_DIR major minor dp ip with ents := ents }).setInode dp
      ((s.inode dp).addLink 1)
  have hself : ∀ ents, (before ents).inode ip =
      { newborn .T_DIR major minor dp ip with ents := ents } := by
    intro ents
    rw [setInode_of_ne _ _ hne.symm, inode_born]
  have hdir : ∀ ents, isDir (before ents) ip := by
    intro ents
    rw [isDir, hself]
    rfl
  have hgrow : ∀ ents ents', (before ents).setInode ip
      { (before ents).inode ip with ents := ents' } = before ents' := by
    intro ents ents'
    rw [hself, setInode_comm _ hne, born_setInode]
  have hlink : ∀ ents entry inum Q', (∀ e ∈ ents, e.inum ≠ 0 ∧ e.name ≠ entry) →
      Q' 0 (before (ents ++ [⟨UInt16.ofNat inum, entry⟩])) →
      wp (harmless m) (dirlink [ip, dp] ip entry inum) Q' (before ents) := by
    intro ents entry inum Q' hents hQ'
    apply wp_dirlink_append hE (hdir ents)
    · rw [hself]
      exact hents
    · rw [hgrow, hself]
      exact hQ'
  refine wp_bind.mpr (wp_iupdate.mpr ?_)
  rw [inode_born_of_ne s _ hne]
  refine wp_bind.mpr (hlink [] dot ip _ (by simp) ?_)
  refine wp_bind.mpr (hlink _ dotdot dp _ ?_ ?_)
  · intro e he
    rw [List.nil_append, List.mem_singleton] at he
    rw [he]
    exact ⟨inum_ne_zero hpos hlt, (by decide : dot ≠ dotdot)⟩
  exact hQ

variable (major minor) in
theorem Good.create (h : Calm m k (dp ::ₘ 0) 0 s) (hdp : isDir s dp)
    (hnone : (s.inode dp).lookup name = none) (hmax : (s.inode dp).emptySlot < MAXENTS)
    (htype : type ≠ .free) (hstrict : m = .exactLinks → Linked ROOTINO (table s) dp)
    (hfree : (s.inode ip).type = .free) (hpos : 0 < ip) (hlt : ip < s.ninodes) :
    Calm m k (ip ::ₘ dp ::ₘ 0) 0 ((s.born ip (newborn type major minor dp ip)).setInode dp
      { (s.inode dp).write (s.inode dp).emptySlot ⟨UInt16.ofNat ip, name⟩ with
        nlink := (s.inode dp).nlink + if type = .T_DIR then 1 else 0 }) := by
  have hne : dp ≠ ip := by
    rintro rfl
    exact hdp.allocated hfree
  set a := newborn type major minor dp ip with ha
  have hself : (s.born ip a).inode ip = a := inode_born ..
  have hother : ∀ j, j ≠ ip → (s.born ip a).inode j = s.inode j := fun _ => inode_born_of_ne s a
  have hborn : Good m k (ip ::ₘ dp ::ₘ 0) (update 0 ip 1) (fun d => False ∨ d = ip)
      (fun _ => False) (s.born ip a) :=
    h.born hfree hpos hlt (by simpa using hne.symm) htype hdp.allocated
  have hdp' : isDir (s.born ip a) dp := by rwa [isDir, hother dp hne]
  have hip : allocated (s.born ip a) ip := by
    rw [allocated, hself]
    exact htype
  have hroot : ip ≠ ROOTINO := by
    rintro rfl
    exact Inode.node_used.mp (h.tree.dir_used _ h.tree.root_dir) hfree
  have hnone' : ((s.born ip a).inode dp).lookup name = none := by rwa [hother dp hne]
  have hmax' : ((s.born ip a).inode dp).emptySlot < MAXENTS := by rwa [hother dp hne]
  have hnamed : ∀ j, Named (table (s.born ip a)) j ↔ Named (table s) j := by
    intro j
    apply exists_congr
    intro d
    by_cases hd : d = ip
    · subst hd
      have hout : (s.inode d).out = [] := if_neg (by rw [hfree]; decide)
      have hnew : a.out = [] := newborn_out
      simp only [table, hself, Inode.node, hout, hnew]
    · simp only [table, hother d hd]
  have hfirst : isDir (s.born ip a) ip →
      ((s.born ip a).inode ip).par = dp ∧ dp ≠ ip ∧ ¬ Named (table (s.born ip a)) ip := by
    intro hdir
    rw [isDir, hself] at hdir
    refine ⟨?_, hne, fun hn => ?_⟩
    · have hents : a.ents = [⟨UInt16.ofNat ip, dot⟩, ⟨UInt16.ofNat dp, dotdot⟩] := if_pos hdir
      rw [hself, Inode.par, Inode.entry, hents]
      exact Nat.mod_eq_of_lt (h.lt hdp.allocated)
    · obtain ⟨d, hd⟩ := (hnamed ip).mp hn
      exact Inode.node_used.mp (h.tree.out_used d ip hd) hfree
  have hlinked : m = .exactLinks → Linked ROOTINO (table (s.born ip a)) dp :=
    fun hm => (hstrict hm).imp_right (hnamed dp).mpr
  have hshort : (s.inode dp).nlink + (if type = .T_DIR then 1 else 0) ≤ 32767 := by
    have hle := h.dir_nlink_le hdp rfl
    have hmaxents : MAXENTS = 4480 := rfl
    split <;> omega
  have hn : (s.inode dp).nlink + (if type = .T_DIR then 1 else 0) =
      ((s.born ip a).inode dp).nlink +
        if ((s.born ip a).inode ip).type = .T_DIR then 1 else 0 := by
    rw [hother dp hne, hself]
    rfl
  have hadd := hborn.addName (by simp [hne]) hdp' hip hroot hnone' hmax' hfirst hlinked hn hshort
  have hpaid : update (0 : Nat → ℤ) ip (1 - 1) = 0 := update_eq_self ip _
  rw [update_self, update_idem, hpaid, hother dp hne] at hadd
  exact hadd.mono (fun d hd => hd.1.resolve_right hd.2) fun _ hd => hd

theorem wp_createIn {Q : Nat → State → Prop} (h : Calm m k (dp ::ₘ 0) 0 s) (hdp : isDir s dp)
    (hnone : (s.inode dp).lookup name = none) (htype : type ≠ .free)
    (hstrict : m = .exactLinks → Linked ROOTINO (table s) dp)
    (hQ : ∀ ip s', Calm m k (ip ::ₘ 0) 0 s' → allocated s' ip → s'.kernel = s.kernel → Q ip s') :
    wp (harmless m) (createIn dp name type major minor) Q s := by
  have hrefs : ∀ i, (s.inode i).type = .free → (s.icache i).ref = 0 := by
    intro i hfree
    have hne : i ≠ dp := by
      rintro rfl
      exact hdp.allocated hfree
    rw [h.refs i, h.holders_of_free hfree]
    simp [hne]
  refine wp_bind.mpr (wp_bind.mpr ?_)
  refine wp_iallocLoop ⟨⟨by decide, fun _ => by decide⟩, ⟨by decide, fun _ => by decide⟩⟩ hrefs ?_
    _ _ Nat.one_pos ?_
  swap
  · have hinside := h.inside hdp.allocated
    omega
  intro ip hpos hlt hfree
  have hne : dp ≠ ip := by
    rintro rfl
    exact hdp.allocated hfree
  refine wp_bind.mpr (wp_ilock_new ?_ ?_ ?_ ?_)
  · simp [State.claimed, State.setCache]
  · simp [State.claimed, State.setCache]
  · simpa [State.claimed, State.setCache] using htype
  refine wp_bind.mpr (wp_iupdate.mpr ?_)
  rw [born_eq, inode_claimed]
  set a := newborn type major minor dp ip with ha
  set n := (s.inode dp).nlink + if type = .T_DIR then 1 else 0 with hn
  have hrest : wp (harmless m) (do
      let r ← dirlink [ip, dp] dp name ip
      if r < 0 then .panic "create: dirlink"
      else do
        iunlockput [ip] dp
        pure ip) Q ((s.born ip a).setInode dp { s.inode dp with nlink := n }) := by
    refine wp_bind.mpr (wp_dirlink_new ⟨by decide, fun _ => by decide⟩ ?_ ?_ ?_)
    · rw [isDir, setInode_self]
      exact hdp
    · rw [setInode_self]
      exact hnone
    rw [setInode_self, setInode_setInode]
    intro hmax
    have hnew : Calm m k (ip ::ₘ dp ::ₘ 0) 0 _ :=
      h.create major minor hdp hnone hmax htype hstrict hfree hpos hlt
    rw [Multiset.cons_swap] at hnew
    refine wp_bind.mpr (wp_iunlockput_calm hnew id fun s' h' hsame _ => ?_)
    apply hQ ip s' h'
    · rw [allocated, hsame.inode, setInode_of_ne _ _ hne.symm, inode_born]
      exact htype
    · exact hsame.kernel
  refine wp_bind.mpr (wp_onlyIf.mpr ⟨?_, fun hfile => ?_⟩)
  · rintro rfl
    have hlo := h.nlink_nonneg hdp.allocated le_rfl
    have hle := h.dir_nlink_le hdp rfl
    have hmaxents : MAXENTS = 4480 := rfl
    apply wp_createDots hne hpos (lt_of_lt_of_le hlt h.small)
    have hup : (s.inode dp).addLink 1 = { s.inode dp with nlink := n } := by
      rw [Inode.addLink, toShort_of_mem (by omega) (by omega), hn, if_pos rfl]
    rw [hup]
    exact hrest
  · have hblank : a = { newborn type major minor dp ip with ents := [] } := by
      simp [ha, newborn, hfile]
    have hsame : { s.inode dp with nlink := n } = (s.born ip a).inode dp := by
      rw [inode_born_of_ne s a hne, hn, if_neg hfile, add_zero]
    have hstay : (s.born ip a).setInode dp ((s.born ip a).inode dp) = s.born ip a := by
      simp [State.setInode]
    rw [hsame, hstay, hblank] at hrest
    exact hrest

/-- If `create` has to make this path, it does so in a directory that is linked, where counts have
to be exact. -/
def MayCreate (m : Aim) (s : State) (p : Fin NPROC) (path : Path) : Prop :=
  ∀ dp name, m = .exactLinks → lookupPath s p true path = some (dp, name) →
    (s.inode dp).lookup name = none → Linked ROOTINO (table s) dp

/-- **`create`**: an inode with a reference, whether it was there or not. -/
theorem wp_create {path : Path} {Q : Option Nat → State → Prop} (h : Calm m k 0 0 s)
    (hk : s.kernel = k) (htype : type ≠ .free) (hok : MayCreate m s p path)
    (hnone : ∀ s', Calm m k 0 0 s' → s'.kernel = k → Q none s')
    (hsome : ∀ ip s', Calm m k (ip ::ₘ 0) 0 s' → allocated s' ip → s'.kernel = k →
      Q (some ip) s') :
    wp (harmless m) (create p path type major minor) Q s := by
  refine wp_bind.mpr (wp_namex h hk ?_ ?_)
  · intro s1 h1 hsame1
    exact hnone s1 h1 (hsame1.kernel.trans hk)
  intro dp name s1 hr h1 hsame1 hlock
  refine wp_bind.mpr (wp_ilock h1 hlock fun s2 h2 hsame2 _ _ _ => ?_)
  have hsame := hsame1.trans hsame2
  refine wp_bind.mpr (wp_dirlookup h2 ?_ ?_)
  · intro hdp hnew
    refine wp_bind.mpr (wp_createIn h2 hdp hnew htype ?_ fun ip s3 h3 halloc3 hkernel3 => ?_)
    · intro hm
      rw [hsame.table_eq]
      rw [hsame.inode] at hnew
      exact hok dp name hm hr hnew
    · exact hsome ip s3 h3 halloc3 ((hkernel3.trans hsame.kernel).trans hk)
  · intro off s3 hdp hfound h3 hsame3 _
    obtain ⟨hmem, hlive, -⟩ := Inode.lookup_eq_some hfound
    have hentry : m = .noDangling →
        allocated s2 (((s2.inode dp).entry off).inum.toNat) := by
      rintro rfl
      exact h2.entry_allocated hdp id hmem hlive
    generalize ((s2.inode dp).entry off).inum.toNat = ip at *
    rw [Multiset.cons_swap] at h3
    refine wp_bind.mpr (wp_iunlockput_calm h3 id fun s4 h4 hsame4 _ => ?_)
    have hsame24 := hsame3.trans hsame4
    have hlock4 : m = .noDangling → allocated s4 ip := by
      intro hm
      rw [allocated, hsame24.inode]
      exact hentry hm
    refine wp_bind.mpr (wp_ilock h4 hlock4 fun s5 h5 hsame5 halloc5 _ _ => ?_)
    have hkernel5 : s5.kernel = k := by rw [hsame5.kernel, hsame24.kernel, hsame.kernel, hk]
    refine wp_get.mpr ?_
    split
    · exact hsome ip s5 h5 halloc5 hkernel5
    · refine wp_bind.mpr (wp_iunlockput_calm h5 id fun s6 h6 hsame6 _ => ?_)
      exact hnone s6 h6 (hsame6.kernel.trans hkernel5)

end Xv6.Fs
