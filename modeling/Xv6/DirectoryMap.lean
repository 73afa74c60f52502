import Xv6.Directory

/-!
**A directory is a finite map from names to inode numbers.**

Any number of processes create, link, unlink and look up names in one directory, each with the
directory locked (`directory`). What they do is what a map used by one after the other would do:
`record` can be replayed on the map the directory started as, and gives the map it is now
(`Kept`).
-/

namespace Xv6.Directory

open Program SlotMap Transition Function List Option
open Icache (Dinode DIRENTSZ direntOf scanDir)
open Fs (Name)

/-- The directory is in order, and is the map that the record leads to. -/
structure Kept (m : Name → Option Entry) (s : Dir) : Prop where
  whole : Whole s.dp
  distinct : Distinct (slots s.dp)
  replayed : replay m s.record = some (entry s.dp)

section

variable {m : Name → Option Entry} {E : String → Prop} {s s' : Dir} {name : CStr} {inum i : Nat}
  {I : Dir → Prop} {d' : Dinode}

theorem Kept.note (h : Kept m s) {e : Event Name Entry} (he : e.on (entry s.dp) = some (entry s.dp)) :
    Kept m { s with record := s.record ++ [e] } := by
  refine ⟨h.whole, h.distinct, ?_⟩
  rw [replay_concat, h.replayed]
  exact he

theorem stays_readEntry {α : Type} {msg : String} {off : Nat} {g : List UInt8 → Dprog α}
    {Q : α → Dir → Prop} (hs : I s) : Stays I E (readEntry msg off >>= g) Q s =
      if (s.dp.readi off DIRENTSZ).1 ≠ DIRENTSZ then E msg
      else Stays I E (g (s.dp.readi off DIRENTSZ).2) Q s := by
  by_cases hshort : (s.dp.readi off DIRENTSZ).1 = DIRENTSZ
  · simp [stays_bind, readEntry, atomic, Stays, hs, hshort]
  · simp [stays_bind, readEntry, atomic, Stays, hs, hshort]

/-- **`dirlookup`'s loop** is the scan of `Icache`. -/
theorem stays_lookupLoop {Q : Option Entry → Dir → Prop} (hs : I s) (n off : Nat) :
    Stays I E (lookupLoop name n off) Q s =
      answer (fun off de => Q (some (de.inum, off)) s) (fun _ => Q none s) (E "dirlookup read")
        (scanDir s.dp (fun de => de.inum ≠ 0 ∧ de.name = key name) n off) := by
  refine eq_answer (F := fun n off => Stays I E (lookupLoop name n off) Q s) (fun _ => rfl)
    (fun n off => ?_) n off
  change (I s ∧ Stays I E (if off < s.dp.size then _ else _) Q s) = _
  rw [eq_true hs, true_and, apply_ite (Stays I E · Q s), stays_readEntry hs]
  congr 2
  simp only [namecmp_eq_zero, key_nameAt, eq_comm (a := key name)]
  split
  next hzero => simp [hzero]
  next hlive =>
    simp only [apply_ite (Stays I E · Q s), hlive, ne_eq, not_false_eq_true, true_and,
      decide_eq_true_eq]
    rfl

/-- **`dirlink`'s loop**, too. -/
theorem stays_emptyLoop {Q : Nat → Dir → Prop} (hs : I s) (n off : Nat) :
    Stays I E (emptyLoop n off) Q s =
      answer (fun off _ => Q off s) (Q · s) (E "dirlink read")
        (scanDir s.dp (fun de => de.inum = 0) n off) := by
  refine eq_answer (F := fun n off => Stays I E (emptyLoop n off) Q s) (fun _ => rfl)
    (fun n off => ?_) n off
  change (I s ∧ Stays I E (if off < s.dp.size then _ else _) Q s) = _
  rw [eq_true hs, true_and, apply_ite (Stays I E · Q s), stays_readEntry hs]
  simp only [apply_ite (Stays I E · Q s), decide_eq_true_eq]
  rfl

/-- **`dirlookup`** answers what the map has under the name. -/
theorem stays_dirlookup {Q : Option Entry → Dir → Prop} (h : Kept m s)
    (hQ : ∀ s', Kept m s' → s'.dp = s.dp → Q (entry s.dp (key name)) s') :
    Stays (Kept m) E (dirlookup name) Q s := by
  refine stays_bind.mpr (stays_reads h ?_)
  rw [if_neg (not_not.mpr h.whole.type)]
  refine stays_bind.mpr (stays_reads h (stays_bind.mpr ?_))
  rw [stays_lookupLoop h, scan_named h.whole h.distinct]
  have hnoted := h.note (e := .looked (key name) (entry s.dp (key name))) (if_pos rfl)
  have hanswer : Stays (Kept m) E (do
      Directory.note (.looked (key name) (entry s.dp (key name)))
      pure (entry s.dp (key name))) Q s := stays_bind.mpr (stays_modify hnoted (hQ _ hnoted rfl))
  rw [entry] at hanswer
  cases hfind : find (slots s.dp) (key name) with
  | none | some =>
    rw [hfind] at hanswer
    exact hanswer

def Room (d : Dinode) : Prop :=
  d.size + DIRENTSZ ≤ MAXFILE * BSIZE ∨
    ∃ off, off % DIRENTSZ = 0 ∧ off < d.size ∧ (direntOf (direntAt d off)).inum = 0

theorem entry_update {d : Dinode} {k : Name} {v : Option (UInt16 × Nat)}
    (h : find (slots d') = update (find (slots d)) k v) :
    entry d' = update (entry d) k (v.map fun e => (e.1, DIRENTSZ * e.2)) := by
  funext k'
  rw [entry, h]
  by_cases hk : k' = k
  · subst hk
    rw [update_self, update_self]
  · rw [update_of_ne hk, update_of_ne hk]
    rfl

theorem entry_eq_none {d : Dinode} {k : Name} : entry d k = none ↔ find (slots d) k = none :=
  map_eq_none_iff

theorem Kept.link (h : Kept m s) (hnew : entry s.dp (key name) = none)
    (hi : i ≤ (slots s.dp).length) (hfree : ∀ e, (slots s.dp)[i]? ≠ some (some e))
    (hwrite : s.dp.writei (DIRENTSZ * i) (newEntry name inum) = some d') :
    entry d' = update (entry s.dp) (key name) (stored inum (DIRENTSZ * i)) ∧
      Kept m ⟨d', s.record ++ [.added (key name) (stored inum (DIRENTSZ * i))]⟩ := by
  obtain ⟨hwhole, hslots⟩ := slots_writei h.whole hi (length_newEntry name inum) hwrite
  rw [live_newEntry] at hslots
  obtain ⟨hdistinct, hfind⟩ := h.distinct.add hi hfree (entry_eq_none.mp hnew)
    (number (UInt16.ofNat inum))
  rw [← hslots] at hdistinct hfind
  have hentry : entry d' =
      update (entry s.dp) (key name) (stored inum (DIRENTSZ * i)) := by
    rw [entry_update hfind, Option.map_map]
    rfl
  refine ⟨hentry, hwhole, hdistinct, ?_⟩
  rw [replay_concat, h.replayed, hentry]
  exact if_pos hnew

theorem Kept.unlink (h : Kept m s) {v : UInt16} (hold : find (slots s.dp) (key name) = some (v, i))
    (hwrite : s.dp.writei (DIRENTSZ * i) (List.replicate DIRENTSZ 0) = some d') :
    entry d' = update (entry s.dp) (key name) none ∧
      Kept m ⟨d', s.record ++ [.removed (key name)]⟩ := by
  have hi : i ≤ (slots s.dp).length :=
    (List.getElem?_eq_some_iff.mp (getElem?_of_find hold)).1.le
  obtain ⟨hwhole, hslots⟩ := slots_writei h.whole hi length_replicate hwrite
  rw [live_zero] at hslots
  obtain ⟨hdistinct, hfind⟩ := h.distinct.clear hold
  rw [← hslots] at hdistinct hfind
  have hentry : entry d' = update (entry s.dp) (key name) none := entry_update hfind
  refine ⟨hentry, hwhole, hdistinct, ?_⟩
  rw [replay_concat, h.replayed, hentry]
  refine if_neg ?_
  rw [entry_eq_none, hold]
  simp

theorem room_of_writei {d : Dinode} (h : Whole d) (hi : i ≤ (slots d).length)
    (hfree : ∀ e, (slots d)[i]? ≠ some (some e))
    (hwrite : d.writei (DIRENTSZ * i) (newEntry name inum) = some d') : Room d := by
  have hsize := h.size
  rw [length_slots] at hi
  rcases Nat.lt_or_eq_of_le hi with hlt | rfl
  · refine .inr ⟨DIRENTSZ * i, Nat.mul_mod_right .., ?_, ?_⟩
    · exact h.lt_iff.mpr hlt
    · rw [← live_eq_none, eq_none_iff_forall_ne_some]
      intro e he
      exact hfree e (by rw [getElem?_slots hlt, he])
  · have hfits := writei_fits hwrite
    rw [length_newEntry] at hfits
    refine .inl (le_trans ?_ hfits)
    simp only [DIRENTSZ] at hsize ⊢
    omega

/-- **`dirlink`** refuses a name that is there, and changes nothing then; a new name it adds. -/
theorem stays_dirlink {Q : Int → Dir → Prop} (h : Kept m s)
    (hroom : entry s.dp (key name) = none → E "dirlink" ∨ Room s.dp)
    (hfail : entry s.dp (key name) ≠ none → ∀ s', Kept m s' → s'.dp = s.dp → Q (-1) s')
    (hdone : entry s.dp (key name) = none → Room s.dp → ∀ off s', Kept m s' →
      entry s'.dp = update (entry s.dp) (key name) (stored inum off) → Q 0 s') :
    Stays (Kept m) E (dirlink name inum) Q s := by
  refine stays_bind.mpr (stays_dirlookup h fun s1 h1 hsame => ?_)
  rw [← hsame] at hroom hfail hdone ⊢
  rcases hfound : entry s1.dp (key name) with _ | e
  · refine stays_bind.mpr (stays_reads h1 (stays_bind.mpr ?_))
    rw [stays_emptyLoop h1]
    refine (scan_free h1.whole _ _).mpr (stays_bind.mpr ?_)
    obtain ⟨hi, hfree, hused⟩ := slots_free s1.dp
    generalize (entries direntOf s1.dp).findIdx (fun de => de.inum = 0) = i at hi hfree hused ⊢
    rcases hwrite : s1.dp.writei (DIRENTSZ * i) (newEntry name inum) with _ | d'
    · refine stays_error h1 (by rw [hwrite]) ((hroom hfound).resolve_right fun hroom => ?_)
      -- there is room at the end, or `i` is before the end
      have hsize := h1.whole.size
      have hfits := h1.whole.fits
      rw [length_slots] at hi
      have hbound : DIRENTSZ * i + DIRENTSZ ≤ MAXFILE * BSIZE := by
        rcases hroom with hend | ⟨off, hoff, hin, hzero⟩
        · simp only [DIRENTSZ] at hend hi ⊢
          omega
        obtain ⟨j, rfl⟩ := Nat.dvd_of_mod_eq_zero hoff
        have hj : j < s1.dp.size / DIRENTSZ := h1.whole.lt_iff.mp hin
        have hij : i ≤ j := by
          by_contra hlt
          apply hused j (Nat.not_le.mp hlt)
          rw [getElem?_slots hj, live_eq_none.mpr hzero]
        simp only [DIRENTSZ] at hin hij hsize ⊢
        omega
      have hoff : DIRENTSZ * i ≤ s1.dp.size := by simp only [DIRENTSZ] at hi ⊢; omega
      obtain ⟨d', hsome⟩ := Icache.Dinode.writei_some hoff
        ((congrArg _ (length_newEntry name inum)).trans_le hbound)
      rw [hwrite] at hsome
      cases hsome
    · obtain ⟨hentry, hkept⟩ := h1.link hfound hi hfree hwrite
      have hroom := room_of_writei h1.whole hi hfree hwrite
      exact stays_atomic (by rw [hwrite]) hkept (hdone hfound hroom (DIRENTSZ * i) _ hkept hentry)
  · have hthere : entry s1.dp (key name) ≠ none := by simp [hfound]
    have hnoted := h1.note (e := .refused (key name)) (if_neg hthere)
    exact stays_bind.mpr (stays_modify hnoted (hfail hthere _ hnoted rfl))

/-- **The zeroing done by `sys_unlink`.** -/
theorem stays_zeroEntry {Q : Unit → Dir → Prop} {e : Entry} (h : Kept m s)
    (hold : entry s.dp (key name) = some e)
    (hQ : ∀ s', Kept m s' → entry s'.dp = update (entry s.dp) (key name) none → Q () s') :
    Stays (Kept m) E (zeroEntry name e.2) Q s := by
  obtain ⟨⟨v, i⟩, hfind, rfl⟩ := map_eq_some_iff.mp hold
  have hi := (List.getElem?_eq_some_iff.mp (getElem?_of_find hfind)).1
  have hsize := h.whole.size
  have hfits := h.whole.fits
  rw [length_slots] at hi
  simp only [DIRENTSZ] at hi hsize
  obtain ⟨d', hwrite⟩ : ∃ d', s.dp.writei (DIRENTSZ * i) (List.replicate DIRENTSZ 0) = some d' := by
    apply Icache.Dinode.writei_some
    · simp only [DIRENTSZ]
      omega
    · simp only [length_replicate, DIRENTSZ]
      omega
  obtain ⟨hentry, hkept⟩ := h.unlink hfind hwrite
  exact stays_atomic (by rw [hwrite]) hkept (hQ _ hkept hentry)

/-- **A call** keeps the directory a map; it panics only if it is full. -/
theorem stays_call (h : Kept m s) (c : Call) :
    Stays (Kept m) (· = "dirlink") c.body (fun _ _ => True) s := by
  cases c with
  | create name =>
    refine stays_bind.mpr (stays_dirlookup h fun s1 h1 hsame => ?_)
    rcases hfound : entry s.dp (key name) with _ | e
    · refine stays_bind.mpr (stays_dirlink h1 (fun _ => .inl rfl) (fun hthere => ?_) ?_)
      · rw [hsame] at hthere
        exact absurd hfound hthere
      · exact fun _ _ _ _ _ _ => trivial
    · trivial
  | link =>
    refine stays_bind.mpr (stays_dirlink h (fun _ => .inl rfl) (fun _ _ _ _ => trivial) ?_)
    exact fun _ _ _ _ _ _ => trivial
  | unlink name ok =>
    change Stays (Kept m) (· = "dirlink") (Directory.unlink name ok) _ s
    unfold Directory.unlink
    split
    · trivial
    refine stays_bind.mpr (stays_dirlookup h fun s1 h1 hsame => ?_)
    rw [← hsame]
    rcases hfound : entry s1.dp (key name) with _ | e
    · trivial
    simp only
    split
    · exact stays_zeroEntry h1 hfound fun _ _ _ => trivial
    · trivial
  | lookup => exact stays_bind.mpr (stays_dirlookup h fun _ _ _ => trivial)

end

/-! ### Runs -/

/-- Processes that work on the directory `d`, each with it locked. -/
def directory (P : Type) [DecidableEq P] (d : Dinode) :
    System (Conf P Dir Unit Unit Call) (Act P Call) :=
  threads (fun s => s = ⟨d, []⟩) (fun _ c => critical () () c.body) fun _ _ _ => true

theorem kept_of_reached {P : Type} [DecidableEq P] {d : Dinode} (hd : Whole d) (hnodup : NoDup d)
    {x : Conf P Dir Unit Unit Call} (h : (directory P d).Reached x) : Kept (entry d) x.shared := by
  refine invariant_of_reachable ?_ (fun p c s hs => stays_call hs c) h
  rintro s rfl
  exact ⟨hd, (noDup_iff hd).mp hnodup, rfl⟩

def root : Dinode := Icache.rootDisk ROOTINO

theorem whole_root : Whole root := ⟨rfl, by decide, by decide⟩

theorem noDup_root : NoDup root := by
  intro a b ha hb hla hlb _ _ hsame
  have hsize : root.size = 32 := by decide
  have hcases : ∀ c, c % DIRENTSZ = 0 → c < root.size → c = 0 ∨ c = 16 := by
    intro c hc hlt
    simp only [DIRENTSZ] at hc
    omega
  rcases hcases a ha hla with rfl | rfl <;> rcases hcases b hb hlb with rfl | rfl
  · rfl
  · exact absurd hsame (by decide)
  · exact absurd hsame (by decide)
  · rfl

/-- Two processes: one creates "a", the other is refused a link of that name. -/
def creators : List (Act Bool Call) :=
  [.call false (.create (CStr.ofBytes [97]) 7), .call true (.link (CStr.ofBytes [97]) 9)] ++
    List.replicate 26 (.run false) ++ List.replicate 13 (.run true)

/-- **What `dirlink` is for**: it adds the entry, or refuses and leaves the directory alone. -/
def Linked (d : Dinode) (name : CStr) (inum : Nat) (r : Int) (d' : Dinode) : Prop :=
  r = 0 ∧ (∃ i off, UInt16.toNat i = inum ∧
    entry d' = update (entry d) (key name) (some (i, off))) ∨ r = -1 ∧ d' = d

/-- An inode number that fits in an entry, and does not mark it as free. -/
def Nameable (inum : Nat) : Prop := 0 < inum ∧ inum < 2 ^ 16

theorem stored_eq_some {inum off off' : Nat} {i : UInt16} :
    stored inum off = some (i, off') ↔ UInt16.ofNat inum ≠ 0 ∧ UInt16.ofNat inum = i ∧ off = off' := by
  unfold stored number
  split
  next hzero => simp [hzero]
  next hlive => simp [hlive]

theorem linked_iff {d d' : Dinode} {name : CStr} {inum off : Nat}
    (hentry : entry d' = update (entry d) (key name) (stored inum off)) :
    Linked d name inum 0 d' ↔ Nameable inum := by
  have hofNat : (UInt16.ofNat inum).toNat = inum % 2 ^ 16 := UInt16.toNat_ofNat'
  have hzero : UInt16.ofNat inum = 0 ↔ inum % 2 ^ 16 = 0 := by rw [← UInt16.toNat_inj, hofNat]; rfl
  constructor
  · rintro (⟨-, i, off', hi, heq⟩ | ⟨h, -⟩)
    · have hstored : stored inum off = some (i, off') := by
        have := congrFun (hentry.symm.trans heq) (key name)
        simpa only [update_self] using this
      rw [stored_eq_some, ne_eq, hzero] at hstored
      rw [← hstored.2.1, hofNat] at hi
      exact ⟨by omega, by omega⟩
    · cases h
  · rintro ⟨hpos, hlt⟩
    have hmod := Nat.mod_eq_of_lt hlt
    refine .inl ⟨rfl, UInt16.ofNat inum, off, hofNat.trans hmod, ?_⟩
    rw [hentry, stored_eq_some.mpr ⟨?_, rfl, rfl⟩]
    rw [ne_eq, hzero]
    omega

theorem stays_dirlink_cases {m : Name → Option Entry} {s : Dir} (h : Kept m s) (name : CStr)
    (inum : Nat) :
    Stays (Kept m) (fun msg => msg = "dirlink" ∧ entry s.dp (key name) = none ∧ ¬ Room s.dp)
      (dirlink name inum) (fun r s' => entry s.dp (key name) ≠ none ∧ r = -1 ∧ s'.dp = s.dp ∨
        entry s.dp (key name) = none ∧ Room s.dp ∧ r = 0 ∧
          ∃ off, entry s'.dp = update (entry s.dp) (key name) (stored inum off)) s := by
  apply stays_dirlink h
  · intro hnew
    by_cases hroom : Room s.dp
    · exact .inr hroom
    · exact .inl ⟨rfl, hnew, hroom⟩
  · exact fun hthere s' _ hsame => .inl ⟨hthere, rfl, hsame⟩
  · exact fun hnew hroom off s' _ hentry => .inr ⟨hnew, hroom, rfl, off, hentry⟩

/-- **`dirlink` adds or refuses** exactly if the name is there, or there is room and the inode
number fits, in every state that calls on the directory lead to. -/
theorem dirlink_total_iff {P : Type} [DecidableEq P] {d : Dinode} (hd : Whole d)
    (hnodup : NoDup d) {x : Conf P Dir Unit Unit Call} (h : (directory P d).Reached x)
    (name : CStr) (inum : Nat) :
    (∃ r s', exec (dirlink name inum) [] x.shared = .done r s' ∧
      Linked x.shared.dp name inum r s'.dp) ↔
      entry x.shared.dp (key name) ≠ none ∨ Room x.shared.dp ∧ Nameable inum := by
  rcases done_or_panic (stays_dirlink_cases (kept_of_reached hd hnodup h) name inum).wp with
    ⟨r, s', hdone, ⟨hthere, rfl, hsame⟩ | ⟨hnew, hroom, rfl, off, hentry⟩⟩ |
    ⟨msg, hpanic, -, hnew, hfull⟩
  · exact iff_of_true ⟨-1, s', hdone, .inr ⟨rfl, hsame⟩⟩ (.inl hthere)
  · rw [← linked_iff hentry, or_iff_right (not_not.mpr hnew), and_iff_right hroom]
    refine ⟨?_, fun hlinked => ⟨0, s', hdone, hlinked⟩⟩
    rintro ⟨r, s2, hdone2, hlinked⟩
    cases hdone.symm.trans hdone2
    exact hlinked
  · refine iff_of_false ?_ fun hor => hor.elim (absurd hnew) fun hroom => hfull hroom.1
    rintro ⟨r, s', hdone, -⟩
    cases hpanic.symm.trans hdone

/-- After the two calls on the root, "b" is linked to inode 8. -/
theorem dirlink_total_iff_creators : ∃ x r s', (directory Bool root).Reached x ∧
    x.shared.record.length = 5 ∧ exec (dirlink (CStr.ofBytes [98]) 8) [] x.shared = .done r s' ∧
    Linked x.shared.dp (CStr.ofBytes [98]) 8 r s'.dp := by
  have hinit : (directory Bool root).Reached (Conf.idle ⟨root, []⟩) := .init ⟨_, rfl, rfl⟩
  obtain ⟨x, hx, hlen, hroom⟩ := hinit.run_decide creators
    (P := fun x => x.shared.record.length = 5 ∧
      x.shared.dp.size + DIRENTSZ ≤ MAXFILE * BSIZE) (by decide +kernel)
  obtain ⟨r, s', hdone, hlinked⟩ := (dirlink_total_iff whole_root noDup_root hx _ 8).mpr
    (.inr ⟨.inl hroom, by decide, by decide⟩)
  exact ⟨x, r, s', hx, hlen, hdone, hlinked⟩

def label (i : Nat) : CStr := CStr.ofBytes [UInt8.ofNat (i / 64 + 1), UInt8.ofNat (i % 64 + 1)]

theorem text_label {i : Nat} (hi : i < 4480) : CStr.text (label i) DIRSIZ =
    [UInt8.ofNat (i / 64 + 1), UInt8.ofNat (i % 64 + 1)] := by
  have hne : ∀ n, n < 70 → UInt8.ofNat (n + 1) ≠ 0 := by decide
  apply CStr.text_eq
  · simp only [mem_cons, not_mem_nil, or_false, not_or]
    exact ⟨(hne (i / 64) (by omega)).symm, (hne (i % 64) (by omega)).symm⟩
  · exact fun _ _ => rfl
  · exact .inr ⟨(by decide : 2 < DIRSIZ), rfl⟩

theorem label_inj {i j : Nat} (hi : i < 4480) (hj : j < 4480) (h : key (label i) = key (label j)) :
    i = j := by
  rw [key_inj, text_label hi, text_label hj] at h
  simp only [List.cons.injEq, ← UInt8.toNat_inj, UInt8.toNat_ofNat'] at h
  omega

theorem exists_used (n : Nat) (hn : n ≤ 4480) : ∃ d, Whole d ∧
    slots d = (List.range n).map fun i => some (key (label i), 1) := by
  induction n with
  | zero => refine ⟨⟨.T_DIR, 0, 0, 1, []⟩, ⟨rfl, by decide, by decide⟩, rfl⟩
  | succ n ih =>
    obtain ⟨d, hd, hslots⟩ := ih (by omega)
    have hlen : (slots d).length = n := by rw [hslots, length_map, length_range]
    have hmax : MAXFILE * BSIZE = 4480 * DIRENTSZ := by decide
    have hcount := length_slots (d := d)
    obtain ⟨d', hwrite⟩ : ∃ d', d.writei (DIRENTSZ * n) (newEntry (label n) 1) = some d' := by
      apply Icache.Dinode.writei_some
      · simp only [DIRENTSZ] at hcount ⊢
        omega
      · rw [length_newEntry, hmax]
        simp only [DIRENTSZ]
        omega
    obtain ⟨hd', hslots'⟩ := slots_writei hd hlen.ge (length_newEntry (label n) 1) hwrite
    refine ⟨d', hd', ?_⟩
    rw [hslots', put, if_neg hlen.not_gt, hslots, live_newEntry, range_succ, map_append]
    rfl

/-- **A full directory of the largest size brings the kernel down.** -/
theorem dirlink_full_panics : ∃ d, Whole d ∧ NoDup d ∧
    exec (dirlink (CStr.ofBytes [97]) 7) [] ⟨d, []⟩ = .panic "dirlink" := by
  obtain ⟨d, hd, hslots⟩ := exists_used 4480 le_rfl
  have hlen : (slots d).length = 4480 := by rw [hslots, length_map, length_range]
  have hused : ∀ i < 4480, (slots d)[i]? = some (some (key (label i), 1)) := by
    intro i hi
    rw [hslots, List.getElem?_map, List.getElem?_range hi]
    rfl
  have hat : ∀ i k v, (slots d)[i]? = some (some (k, v)) → i < 4480 ∧ key (label i) = k := by
    intro i k v hi
    have hlt : i < 4480 := hlen ▸ (List.getElem?_eq_some_iff.mp hi).1
    rw [hused i hlt] at hi
    cases hi
    exact ⟨hlt, rfl⟩
  have hdistinct : Distinct (slots d) := by
    intro i j k v w hi hj
    obtain ⟨hlt, hk⟩ := hat i k v hi
    obtain ⟨hlt', hk'⟩ := hat j k w hj
    exact label_inj hlt hlt' (hk.trans hk'.symm)
  have hnew : entry d (key (CStr.ofBytes [97])) = none := by
    rw [entry_eq_none, eq_none_iff_forall_ne_some]
    rintro ⟨v, i⟩ hfind
    obtain ⟨hlt, hk⟩ := hat i _ v (getElem?_of_find hfind)
    have htext : CStr.text (CStr.ofBytes [97]) DIRSIZ = [97] := by decide
    rw [key_inj, text_label hlt, htext] at hk
    simp at hk
  have hfull : ¬ Room d := by
    rw [length_slots] at hlen
    have hmax : MAXFILE * BSIZE = 4480 * DIRENTSZ := by decide
    rintro (hend | ⟨off, hoff, hin, hzero⟩)
    · rw [hmax] at hend
      simp only [DIRENTSZ] at hlen hend
      omega
    obtain ⟨j, rfl⟩ := Nat.dvd_of_mod_eq_zero hoff
    have hj : j < d.size / DIRENTSZ := hd.lt_iff.mp hin
    have hslot := hused j (hlen ▸ hj)
    rw [getElem?_slots hj, live_eq_none.mpr hzero] at hslot
    cases hslot
  have hkept : Kept (entry d) ⟨d, []⟩ := ⟨hd, hdistinct, rfl⟩
  refine ⟨d, hd, (noDup_iff hd).mpr hdistinct, ?_⟩
  rcases done_or_panic (stays_dirlink_cases hkept (CStr.ofBytes [97]) 7).wp with
    ⟨_, _, _, ⟨hthere, _⟩ | ⟨_, hroom, _⟩⟩ | ⟨msg, hpanic, rfl, _⟩
  · exact absurd hnew hthere
  · exact absurd hroom hfull
  · exact hpanic

end Xv6.Directory
