import Xv6.FsTree

/-!
**Path lookup and the cache keep a file system good.**

Weakest preconditions for the functions of `Inode` and `Path`, run alone. A lookup
changes nothing but the cache: whatever it puts back is referred to by somebody else or has
links (`wp_iput_calm`), so it frees nothing, and it returns what `resolve` says.
-/

namespace Xv6.Fs

open Program LinkTree Function Multiset

/-- The panics that may happen. -/
def harmless (m : Aim) (msg : String) : Prop :=
  msg ≠ "unlink: nlink < 1" ∧ (m = .noDangling → msg ≠ "ilock: no type")

theorem wp_iupdate {E : String → Prop} {s : State} {i : Nat} {f : Inode → Inode}
    {Q : Unit → State → Prop} :
    wp E (iupdate i f) Q s ↔ Q () (s.setInode i (f (s.inode i))) := Iff.rfl

section

variable {m : Aim} {k : Kernel} {X : Multiset Nat} {owed : Nat → ℤ} {leaving pending : Nat → Prop}
  {s : State} {i : Nat} {Q : Unit → State → Prop} {locked : List Nat}

theorem valid_setRef (s : State) (i j : Nat) (r : Int) :
    ((s.setCache i { s.icache i with ref := r }).icache j).valid = (s.icache j).valid := by
  by_cases hj : j = i
  · subst hj; simp [State.setCache]
  · simp [State.setCache, hj]

theorem Good.setCache (h : Good m k X owed leaving pending s) {Y : Multiset Nat} {c : Incore}
    {n : Nat} (href : c.ref = holders k i + Y.count i)
    (hcount : ∀ j, j ≠ i → Y.count j = X.count j) (hvalid : c.valid = true → allocated s i)
    (hzero : allocated s i → (s.inode i).nlink = 0 → c.valid = true) :
    Good m k Y owed leaving pending { s.setCache i c with inuse := n } := by
  refine h.recache ⟨rfl, rfl, rfl⟩ ?_ ?_ ?_
  · refine (forall_update_iff s.icache fun j c => c.ref = holders k j + Y.count j).mpr
      ⟨href, fun j hj => ?_⟩
    rw [hcount j hj]
    exact h.refs j
  · exact (forall_update_iff s.icache fun j c => c.valid = true → allocated s j).mpr
      ⟨hvalid, fun j _ => h.valid j⟩
  · exact (forall_update_iff s.icache fun j c => allocated s j → (s.inode j).nlink = 0 →
      c.valid = true).mpr ⟨hzero, fun j _ hj hnlink => (h.zero j hj hnlink).1⟩

theorem Good.addRef (h : Good m k X owed leaving pending s) (i : Nat) :
    Good m k (i ::ₘ X) owed leaving pending
      (s.setCache i { s.icache i with ref := (s.icache i).ref + 1 }) := by
  refine h.setCache ?_ (fun j hj => count_cons_of_ne hj X) (h.valid i)
    fun hi hnlink => (h.zero i hi hnlink).1
  simp only [h.refs i, count_cons_self, Nat.cast_add, Nat.cast_one, add_assoc]

theorem wp_iget (h : Calm m k X owed s)
    (hQ : ∀ s', Calm m k (i ::ₘ X) owed s' → Same s s' →
      (∀ j ∈ X, (s.icache j).valid = true → (s'.icache j).valid = true) → Q () s') :
    wp (harmless m) (iget i) Q s := by
  have hnonneg := holders_nonneg k i
  have hrefi := h.refs i
  refine wp_atomic.mpr ⟨?_, ?_⟩
  · intro _ s' hstep
    split at hstep
    · -- already cached
      cases hstep
      apply hQ _ (h.addRef i) ⟨rfl, rfl, rfl⟩
      intro j _ hj
      rw [valid_setRef]
      exact hj
    next href =>
      split at hstep
      · -- a new slot: nobody refers to the inode
        cases hstep
        have hnone : holders k i = 0 ∧ X.count i = 0 := by omega
        refine hQ _ (h.setCache ?_ (fun j hj => count_cons_of_ne hj X) nofun
          fun hi hnlink => ?_) ⟨rfl, rfl, rfl⟩ ?_
        · rw [count_cons_self, hnone.1, hnone.2]
          rfl
        · obtain ⟨-, hheld | hpending⟩ := h.zero i hi hnlink
          · omega
          · exact hpending.elim
        intro j hj hvalid
        have hji : j ≠ i := by
          rintro rfl
          have hpos : 0 < X.count j := count_pos.mpr hj
          omega
        simpa [State.setCache, hji] using hvalid
      · cases hstep
  · intro msg hstep
    split at hstep
    · cases hstep
    split at hstep
    · cases hstep
    · cases hstep
      exact ⟨by decide, fun _ => by decide⟩

theorem wp_idup (h : Calm m k X owed s)
    (hQ : ∀ s', Calm m k (i ::ₘ X) owed s' → Same s s' → Q () s') :
    wp (harmless m) (idup i) Q s :=
  wp_modify.mpr (hQ _ (h.addRef i) ⟨rfl, rfl, rfl⟩)

/-- `ilock` panics on an inode without type, and makes others valid. -/
theorem wp_ilock (h : Good m k X owed leaving pending s)
    (halloc : m = .noDangling → allocated s i)
    (hQ : ∀ s', Good m k X owed leaving pending s' → Same s s' → allocated s' i →
      (s'.icache i).valid = true →
      (∀ j, (s.icache j).valid = true → (s'.icache j).valid = true) → Q () s') :
    wp (harmless m) (ilock i) Q s := by
  refine wp_get.mpr ?_
  split
  · exact ⟨by decide, fun _ => by decide⟩
  refine wp_bind.mpr ?_
  simp only [wp_acquire]
  refine wp_atomic.mpr ⟨?_, ?_⟩
  · intro _ s' hstep
    split at hstep
    next hvalid =>
      cases hstep
      exact hQ s h (.refl s) (h.valid i hvalid) hvalid fun _ hj => hj
    split at hstep
    · cases hstep
    rename_i htype
    cases hstep
    have hcache : ∀ j, (s.icache j).valid = true →
        ((s.setCache i { s.icache i with valid := true }).icache j).valid = true := by
      intro j hj
      by_cases hji : j = i
      · subst hji; simp [State.setCache]
      · simpa [State.setCache, hji] using hj
    refine hQ _ (h.setCache (h.refs i) (fun _ _ => rfl) (fun _ => htype) fun _ _ => rfl)
      ⟨rfl, rfl, rfl⟩ htype ?_ hcache
    simp [State.setCache]
  · intro msg hstep
    split at hstep
    · cases hstep
    split at hstep
    next htype =>
      cases hstep
      exact ⟨by decide, fun hm => absurd htype (halloc hm)⟩
    · cases hstep

theorem wp_iunlock (hQ : Q () s) : wp (harmless m) (iunlock i) Q s := by
  refine wp_get.mpr ?_
  split
  · exact ⟨by decide, fun _ => by decide⟩
  · exact hQ

theorem wp_iput_iff {E : String → Prop} :
    wp E (iput locked i) Q s ↔
      if unreferenced s i = true then Q () ((s.free i).drop i) else Q () (s.drop i) := by
  have hfree : wp E (freeLast i) (fun _ s' => Q () (s'.drop i)) s ↔
      if unreferenced s i = true then Q () ((s.free i).drop i) else Q () (s.drop i) := by
    rw [freeLast, wp_bind]
    simp only [wp_reads]
    rw [wp_onlyIf]
    by_cases hlast : unreferenced s i = true
    · simp [hlast]
    · simp [hlast]
  rw [← hfree, iput, wp_bind]
  simp only [wp_acquire]
  rw [wp_bind]
  rfl

theorem Good.drop (h : Good m k (i ::ₘ X) owed leaving pending s) :
    Good m k X owed leaving pending (s.drop i) := by
  have hrefs := h.refs i
  rw [count_cons_self] at hrefs
  refine h.setCache ?_ (fun j hj => (count_cons_of_ne hj X).symm) (h.valid i)
    fun hi hnlink => (h.zero i hi hnlink).1
  change (s.icache i).ref - 1 = _
  omega

theorem unreferenced_eq_true : unreferenced s i = true ↔
    (s.icache i).valid = true ∧ (s.inode i).nlink = 0 ∧ (s.icache i).ref = 1 := by
  simp [unreferenced, and_assoc]

theorem Good.of_unreferenced (h : Good m k (i ::ₘ X) owed leaving pending s)
    (hlast : unreferenced s i = true) :
    allocated s i ∧ (s.inode i).nlink = 0 ∧ holders k i = 0 ∧ i ∉ X ∧ pending i := by
  obtain ⟨hvalid, hnlink, href⟩ := unreferenced_eq_true.mp hlast
  have hrefs := h.refs i
  have hnonneg := holders_nonneg k i
  rw [count_cons_self] at hrefs
  have halloc := h.valid i hvalid
  refine ⟨halloc, hnlink, by omega, ?_, ?_⟩
  · rw [← count_eq_zero]
    omega
  · rcases (h.zero i halloc hnlink).2 with hheld | hpending
    · omega
    · exact hpending

section

variable (h : Good m k (i ::ₘ X) owed leaving pending s) (hpending : ¬ pending i)
  (hQ : ∀ s', Good m k X owed leaving pending s' → Same s s' →
    (∀ j, (s.icache j).valid = true → (s'.icache j).valid = true) → Q () s')
include h hpending hQ

/-- **Putting an inode that is not about to go** frees nothing. -/
theorem wp_iput_calm : wp (harmless m) (iput locked i) Q s := by
  rw [wp_iput_iff, if_neg fun hlast => hpending (h.of_unreferenced hlast).2.2.2.2]
  apply hQ _ h.drop ⟨rfl, rfl, rfl⟩
  exact fun j hj => (valid_setRef s i j _).trans hj

theorem wp_iunlockput_calm : wp (harmless m) (iunlockput locked i) Q s :=
  wp_bind.mpr (wp_iunlock (wp_iput_calm h hpending hQ))

end

theorem table_free (s : State) (i : Nat) : table ((s.free i).drop i) =
    update (table s) i { s.inode i with type := .free, ents := [] }.node :=
  table_setInode ..

variable (h : Good m k (i ::ₘ X) owed leaving pending s)
include h

/-- **The last put of an inode nobody names** frees it, and its holes in the tree close. -/
theorem Good.free (howed : 0 ≤ owed i) (hlast : unreferenced s i = true) :
    Good m k X owed (fun d => leaving d ∧ d ≠ i) (fun d => pending d ∧ d ≠ i)
      ((s.free i).drop i) := by
  obtain ⟨halloc, hnlink, hheld, hX, -⟩ := h.of_unreferenced hlast
  have hother : ∀ j, j ≠ i → ((s.free i).drop i).inode j = s.inode j := by
    intro j hj
    simp [State.drop, State.free, State.setInode, State.setCache, hj]
  have hself : (((s.free i).drop i).inode i).type = .free := by
    simp [State.drop, State.free, State.setCache]
  have hne : ∀ {j}, allocated ((s.free i).drop i) j → j ≠ i := by
    rintro j hj rfl
    exact hj hself
  have hcache : ∀ j, j ≠ i → ((s.free i).drop i).icache j = s.icache j := by
    intro j hj
    simp [State.drop, State.free, State.setInode, State.setCache, hj]
  constructor
  · exact h.small
  · rw [table_free]
    exact h.tree.free (Inode.node_used.mpr halloc) howed hnlink rfl rfl rfl
  · intro d hd
    have hdi := hne hd.allocated
    rw [isDir, hother d hdi] at hd
    rw [hother d hdi]
    exact h.shape d hd
  · intro j hj
    have hji := hne hj
    rw [allocated, hother j hji] at hj
    rw [hother j hji]
    exact h.short j hj
  · intro j
    by_cases hji : j = i
    · subst hji
      have href := (unreferenced_eq_true.mp hlast).2.2
      simp [State.drop, State.free, State.setCache, href, hheld, count_eq_zero.mpr hX]
    · rw [hcache j hji]
      have hrefs := h.refs j
      rwa [count_cons_of_ne hji] at hrefs
  · intro j hj
    have hji : j ≠ i := by
      rintro rfl
      omega
    rw [allocated, hother j hji]
    exact h.held j hj
  · intro j hj
    have hji : j ≠ i := by
      rintro rfl
      simp [State.drop, State.free, State.setCache] at hj
    rw [hcache j hji] at hj
    rw [allocated, hother j hji]
    exact h.valid j hj
  · intro j hj hzero
    have hji := hne hj
    rw [allocated, hother j hji] at hj
    rw [hother j hji] at hzero
    rw [hcache j hji]
    obtain ⟨hvalid, hcase⟩ := h.zero j hj hzero
    exact ⟨hvalid, hcase.imp_right fun hp => ⟨hp, hji⟩⟩

variable (howed : 0 ≤ owed i) (hX : pending i → i ∉ X)
    (hleaving : leaving i → pending i ∧ allocated s i ∧ (s.inode i).nlink = 0 ∧ holders k i = 0)
    (hQ : ∀ s', Good m k X owed (fun d => leaving d ∧ d ≠ i) (fun d => pending d ∧ d ≠ i) s' →
      s'.kernel = s.kernel → s'.ninodes = s.ninodes →
      (∀ j, j ≠ i → s'.inode j = s.inode j ∧ s'.icache j = s.icache j) → Q () s')
include howed hX hleaving hQ

/-- **Putting an inode that may go.** If it is leaving, it does go. -/
theorem wp_iput : wp (harmless m) (iput locked i) Q s := by
  rw [wp_iput_iff]
  split
  next hlast =>
    apply hQ _ (h.free howed hlast) rfl rfl
    intro j hj
    simp [State.drop, State.free, State.setInode, State.setCache, hj]
  next hlast =>
    -- with no holder and no link this would have been the last reference
    have hgoes : pending i → allocated s i → (s.inode i).nlink = 0 → holders k i ≠ 0 := by
      intro hpending halloc hnlink hheld
      apply hlast
      have hrefs := h.refs i
      rw [count_cons_self, count_eq_zero.mpr (hX hpending), hheld] at hrefs
      exact unreferenced_eq_true.mpr ⟨(h.zero i halloc hnlink).1, hnlink, hrefs⟩
    have hdrop := h.drop
    have hstay : ¬ leaving i := by
      intro hl
      obtain ⟨hpending, halloc, hnlink, hheld⟩ := hleaving hl
      exact hgoes hpending halloc hnlink hheld
    refine hQ (s.drop i) ⟨hdrop.small, ?_, hdrop.shape, hdrop.short, hdrop.refs,
      hdrop.held, hdrop.valid, ?_⟩ rfl rfl ?_
    · have hsame : (fun d => leaving d ∧ d ≠ i) = leaving := by
        funext d
        refine propext ⟨And.left, fun hd => ⟨hd, ?_⟩⟩
        rintro rfl
        exact hstay hd
      rw [hsame]
      exact hdrop.tree
    · intro j hj hnlink
      obtain ⟨hvalid, hcase⟩ := hdrop.zero j hj hnlink
      refine ⟨hvalid, ?_⟩
      by_cases hji : j = i
      · subst hji
        rcases hcase with hheld | hpending
        · exact .inl hheld
        · have hnonneg := holders_nonneg k j
          have hne := hgoes hpending hj hnlink
          exact .inl (by omega)
      · exact hcase.imp_right fun hp => ⟨hp, hji⟩
    · intro j hj
      simp [State.drop, State.setCache, hj]

theorem wp_iunlockput : wp (harmless m) (iunlockput locked i) Q s :=
  wp_bind.mpr (wp_iunlock (wp_iput h howed hX hleaving hQ))

end

/-! ### Path lookup -/

/-- Where a path leads, in a given tree. -/
def resolve (t : Nat → Inode) (parent : Bool) : List Name → Nat → Option (Nat × Name)
  | [], ip => if parent then none else some (ip, Name.ofBytes [])
  | name :: rest, ip =>
      if (t ip).type ≠ .T_DIR then none
      else if parent ∧ rest = [] then some (ip, name)
      else
        match (t ip).lookup name with
        | none => none
        | some off => resolve t parent rest ((t ip).entry off).inum.toNat

def lookupPath (s : State) (p : Fin NPROC) (parent : Bool) (path : Path) : Option (Nat × Name) :=
  if path.head? = some SLASH then resolve s.inode parent (elements path) ROOTINO
  else (s.kernel.ptable p).cwd.bind (resolve s.inode parent (elements path))

theorem resolve_congr {t t' : Nat → Inode}
    (h : ∀ i, (t' i).type = (t i).type ∧ (t' i).ents = (t i).ents) (parent : Bool) :
    ∀ (names : List Name) (ip : Nat), resolve t' parent names ip = resolve t parent names ip := by
  intro names
  induction names with
  | nil => exact fun _ => rfl
  | cons name rest ih =>
    intro ip
    obtain ⟨htype, hents⟩ := h ip
    simp only [resolve, Inode.lookup, Inode.entry, htype, hents, ih]

theorem lookupPath_congr {s s' : State} {p : Fin NPROC} (hkernel : s'.kernel = s.kernel)
    (h : ∀ i, (s'.inode i).type = (s.inode i).type ∧ (s'.inode i).ents = (s.inode i).ents)
    (parent : Bool) (path : Path) : lookupPath s' p parent path = lookupPath s p parent path := by
  have hresolve : resolve s'.inode parent (elements path) =
      resolve s.inode parent (elements path) := funext fun ip => resolve_congr h parent _ ip
  simp only [lookupPath, hkernel, hresolve]

def inHand (X : Multiset Nat) : Option (Nat × Name) → Multiset Nat
  | none => X
  | some (ip, _) => ip ::ₘ X

variable {m : Aim} {k : Kernel} {X : Multiset Nat} {owed : Nat → ℤ} {s : State} {i : Nat}
  {p : Fin NPROC}

theorem Good.entry_allocated {leaving pending : Nat → Prop}
    (h : Good .noDangling k X owed leaving pending s) {d : Nat} {e : Dirent} (hd : isDir s d)
    (hstay : ¬ leaving d) (hmem : e ∈ (s.inode d).ents) (hlive : e.inum ≠ 0) :
    allocated s e.inum.toNat := by
  rcases (h.shape d hd).live hd hmem hlive with hself | hpar | hout
  · have hnum : e.inum.toNat = d := by
      rw [hself, UInt16.toNat_ofNat', Nat.mod_eq_of_lt (h.lt hd.allocated)]
    rw [hnum]
    exact hd.allocated
  · rw [hpar]
    have hdir : (table s d).dir = true := Inode.node_dir.mpr hd
    by_cases hlinked : Linked ROOTINO (table s) d
    · rcases hlinked with rfl | hnamed
      · have hup : (s.inode ROOTINO).par = ROOTINO := h.tree.root_up
        rw [hup]
        exact hd.allocated
      · have hmem := h.tree.mem_up hdir hnamed
        exact Inode.node_used.mp (h.tree.dir_used _ (h.tree.dir_out _ _ hmem))
    · rcases h.tree.above rfl d hdir hlinked with ⟨hup, -⟩ | hleaving
      · exact Inode.node_used.mp (h.tree.dir_used _ hup)
      · exact absurd hleaving hstay
  · exact Inode.node_used.mp (h.tree.out_used d _ hout)

theorem wp_dirlookup {dp : Nat} {name : Name} {Q : Option (Nat × Nat) → State → Prop}
    (h : Calm m k X owed s)
    (hnone : isDir s dp → (s.inode dp).lookup name = none → Q none s)
    (hsome : ∀ off s', isDir s dp → (s.inode dp).lookup name = some off →
      Calm m k (((s.inode dp).entry off).inum.toNat ::ₘ X) owed s' → Same s s' →
      (∀ j ∈ X, (s.icache j).valid = true → (s'.icache j).valid = true) →
      Q (some (((s.inode dp).entry off).inum.toNat, off)) s') :
    wp (harmless m) (dirlookup dp name) Q s := by
  refine wp_get.mpr ?_
  split
  · exact ⟨by decide, fun _ => by decide⟩
  rename_i hdir
  have hdir : isDir s dp := not_not.mp hdir
  split
  next hfound => exact hnone hdir hfound
  next off hfound =>
    refine wp_bind.mpr (wp_iget h fun s' hcalm hsame hvalid => ?_)
    exact hsome off s' hdir hfound hcalm hsame hvalid

theorem wp_walk (parent : Bool) : ∀ (names : List Name) {ip : Nat} {s : State}
    {Q : Option (Nat × Name) → State → Prop}, Calm m k (ip ::ₘ X) owed s →
    (m = .noDangling → allocated s ip) →
    (∀ r s', r = resolve s.inode parent names ip → Calm m k (inHand X r) owed s' → Same s s' →
      (∀ i name, m = .noDangling → r = some (i, name) → allocated s i) → Q r s') →
    wp (harmless m) (walk parent names ip) Q s := by
  intro names
  induction names with
  | nil =>
    intro ip s Q h halloc hQ
    unfold walk
    split
    next hparent =>
      refine wp_bind.mpr (wp_iput_calm h id fun s' hgood hsame _ => ?_)
      apply hQ none s' _ hgood hsame
      · exact fun _ _ _ hr => nomatch hr
      · simp [resolve, hparent]
    next hparent =>
      apply hQ (some (ip, Name.ofBytes [])) s _ h (.refl s)
      · intro i name hm hr
        cases hr
        exact halloc hm
      · simp [resolve, hparent]
  | cons name rest ih =>
    intro ip s Q h halloc hQ
    refine wp_bind.mpr (wp_ilock h halloc fun s1 h1 hsame1 halloc1 _ _ => ?_)
    refine wp_get.mpr ?_
    split
    next htype =>
      refine wp_bind.mpr (wp_iunlockput_calm h1 id fun s2 h2 hsame2 _ => ?_)
      apply hQ none s2 _ h2 (hsame1.trans hsame2)
      · exact fun _ _ _ hr => nomatch hr
      · rw [hsame1.inode] at htype
        simp [resolve, htype]
    rename_i htype
    have htype : (s.inode ip).type = .T_DIR := by
      rw [hsame1.inode] at htype
      exact not_not.mp htype
    split
    next hlast =>
      refine wp_bind.mpr (wp_iunlock ?_)
      apply hQ (some (ip, name)) s1 _ h1 hsame1
      · intro i name' _ hr
        cases hr
        rw [allocated, hsame1.inode] at halloc1
        exact halloc1
      · simp [resolve, htype, hlast]
    rename_i hlast
    refine wp_bind.mpr (wp_dirlookup h1 ?_ ?_)
    · intro _ hfound
      rw [hsame1.inode] at hfound
      refine wp_bind.mpr (wp_iunlockput_calm h1 id fun s2 h2 hsame2 _ => ?_)
      apply hQ none s2 _ h2 (hsame1.trans hsame2)
      · exact fun _ _ _ hr => nomatch hr
      · simp [resolve, hlast, hfound]
    · intro off s2 hdir hfound h2 hsame2 _
      have hnext : m = .noDangling → allocated s (((s1.inode ip).entry off).inum.toNat) := by
        rintro rfl
        obtain ⟨hmem, hlive, -⟩ := Inode.lookup_eq_some hfound
        have hentry := h1.entry_allocated hdir id hmem hlive
        unfold allocated at hentry ⊢
        rwa [hsame1.inode] at hentry ⊢
      rw [hsame1.inode] at hfound hnext
      rw [hsame1.inode, cons_swap] at h2
      rw [hsame1.inode]
      refine wp_bind.mpr (wp_iunlockput_calm h2 id fun s3 h3 hsame3 _ => ?_)
      have hsame := hsame1.trans (hsame2.trans hsame3)
      refine ih h3 (fun hm => ?_) fun r s4 hr h4 hsame4 halloc4 => ?_
      · rw [allocated, hsame.inode]
        exact hnext hm
      apply hQ r s4 _ h4 (hsame.trans hsame4)
      · intro i name' hm hr'
        have hi := halloc4 i name' hm hr'
        rwa [allocated, hsame.inode] at hi
      · rw [hr, hsame.inode]
        simp [resolve, htype, hlast, hfound]

theorem Good.cwd_allocated {leaving pending : Nat → Prop} (h : Good m k X owed leaving pending s)
    (hcwd : (k.ptable p).cwd = some i) : allocated s i :=
  h.held i (holders_pos_of_cwd hcwd)

variable (h : Calm m k X owed s)
include h

/-- **Path lookup**, `namex`: the answer of `resolve`, and nothing changes but the cache. -/
theorem wp_namex {parent : Bool} {path : Path} {Q : Option (Nat × Name) → State → Prop}
    (hk : s.kernel = k) (hnone : ∀ s', Calm m k X owed s' → Same s s' → Q none s')
    (hsome : ∀ ip name s', lookupPath s p parent path = some (ip, name) →
      Calm m k (ip ::ₘ X) owed s' → Same s s' → (m = .noDangling → allocated s' ip) →
      Q (some (ip, name)) s') : wp (harmless m) (namex p parent path) Q s := by
  have hwalk : ∀ i s1, allocated s i → Calm m k (i ::ₘ X) owed s1 → Same s s1 →
      resolve s.inode parent (elements path) i = lookupPath s p parent path →
      wp (harmless m) (walk parent (elements path) i) Q s1 := by
    intro i s1 hi h1 hsame1 hpath
    refine wp_walk parent _ h1 (fun _ => ?_) ?_
    · rw [allocated, hsame1.inode]
      exact hi
    rintro (_ | ⟨ip, name⟩) s2 hr h2 hsame2 halloc
    · exact hnone s2 h2 (hsame1.trans hsame2)
    refine hsome ip name s2 ?_ h2 (hsame1.trans hsame2) fun hm => ?_
    · rw [← hpath, ← hsame1.inode, ← hr]
    · rw [allocated, hsame2.inode]
      exact halloc ip name hm rfl
  refine wp_bind.mpr ?_
  unfold start
  split
  next hslash =>
    have hroot : allocated s ROOTINO := Inode.node_used.mp (h.tree.dir_used _ h.tree.root_dir)
    refine wp_bind.mpr (wp_iget h fun s1 h1 hsame1 _ => hwalk _ s1 hroot h1 hsame1 ?_)
    simp [lookupPath, hslash]
  next hslash =>
    refine wp_get.mpr ?_
    split
    next cwd hcwd =>
      refine wp_bind.mpr (wp_idup h fun s1 h1 hsame1 =>
        hwalk cwd s1 (h.cwd_allocated (hk ▸ hcwd)) h1 hsame1 ?_)
      simp [lookupPath, hslash, hcwd]
    · exact ⟨by decide, fun _ => by decide⟩

theorem wp_namei {path : Path} {Q : Option Nat → State → Prop} (hk : s.kernel = k)
    (hnone : ∀ s', Calm m k X owed s' → Same s s' → Q none s')
    (hsome : ∀ ip name s', lookupPath s p false path = some (ip, name) →
      Calm m k (ip ::ₘ X) owed s' → Same s s' → (m = .noDangling → allocated s' ip) →
      Q (some ip) s') : wp (harmless m) (namei p path) Q s :=
  wp_bind.mpr (wp_namex h hk hnone hsome)

end Xv6.Fs
