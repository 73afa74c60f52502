import Xv6.Tally

/-!
**Trees of counted links.**

Nodes name other nodes. Some of the nodes are directories: only these name anything, each
is named once at most, by the node it has as `up`, and a node counts in `links` how often
it is named and how many directories it names. Nothing takes part that is not `used`.

`Tree` is the invariant. It is relative to

  * `owed`: how much a node's count is ahead of the names;
  * `leaving`: directories nobody names that may have lost what is above them;
  * `strict`: every count is exact, and directories nobody names are empty;
  * `dotted`: directories nobody names have a named directory above them.
-/

namespace LinkTree

open Tally Function List Finset

variable {ι : Type} [DecidableEq ι]

structure Node (ι : Type) where
  used : Bool
  dir : Bool
  /-- The nodes it names, as often as it names them. -/
  out : List ι
  /-- The node above. -/
  up : ι
  links : ℤ

def Named (t : ι → Node ι) (i : ι) : Prop := ∃ d, i ∈ (t d).out

def Linked (root : ι) (t : ι → Node ι) (i : ι) : Prop := i = root ∨ Named t i

def names (N : Finset ι) (t : ι → Node ι) (i : ι) : ℤ :=
  tallyOn N (fun a : Node ι => (a.out.count i : ℤ)) t

def kids (t : ι → Node ι) (i : ι) : ℤ := ((t i).out.countP fun j => (t j).dir : ℕ)

/-- The root counts itself. -/
def rootLink (root i : ι) : ℤ := if i = root then 1 else 0

structure Tree (root : ι) (strict dotted : Prop) (owed : ι → ℤ) (leaving : ι → Prop)
    (N : Finset ι) (t : ι → Node ι) : Prop where
  dir_used : ∀ i, (t i).dir = true → (t i).used = true
  dir_out : ∀ d i, i ∈ (t d).out → (t d).dir = true
  inside : ∀ i, (t i).used = true → i ∈ N
  root_dir : (t root).dir = true
  root_up : (t root).up = root
  root_out : ¬ Named t root
  out_used : ∀ d i, i ∈ (t d).out → (t i).used = true
  once : ∀ d i, (t i).dir = true → i ∈ (t d).out → d = (t i).up ∧ (t d).out.count i = 1
  links_ge : ∀ i, (t i).used = true →
    names N t i + kids t i + rootLink root i + owed i ≤ (t i).links
  links_eq : ∀ i, (t i).used = true → (t i).dir = true ∨ strict →
    names N t i + kids t i + rootLink root i + owed i = (t i).links
  above : dotted → ∀ d, (t d).dir = true → ¬ Linked root t d →
    ((t (t d).up).dir = true ∧ Linked root t (t d).up) ∨ leaving d
  bare : strict → ∀ d, (t d).dir = true → ¬ Linked root t d → (t d).out = []

section

variable {root i j : ι} {N : Finset ι} {t : ι → Node ι} {a : Node ι}

theorem names_nonneg : 0 ≤ names N t i := tallyOn_nonneg fun _ => Int.natCast_nonneg _

omit [DecidableEq ι] in
theorem kids_nonneg : 0 ≤ kids t i := Int.natCast_nonneg _

theorem rootLink_nonneg : 0 ≤ rootLink root i := by
  unfold rootLink
  split <;> decide

theorem names_update (hj : j ∈ N) :
    names N (update t j a) i = names N t i - (t j).out.count i + a.out.count i :=
  tallyOn_update _ t hj a

theorem names_eq_zero (h : ∀ d, i ∉ (t d).out) : names N t i = 0 := by
  apply Finset.sum_eq_zero
  intro d _
  change ((t d).out.count i : ℤ) = 0
  exact_mod_cast count_eq_zero.mpr (h d)

theorem count_le_names (hj : j ∈ N) : ((t j).out.count i : ℤ) ≤ names N t i :=
  le_tallyOn (fun _ => Int.natCast_nonneg _) hj

omit [DecidableEq ι] in
theorem one_le_kids {d : ι} (h : i ∈ (t d).out) (hdir : (t i).dir = true) : 1 ≤ kids t d := by
  have hpos : 0 < (t d).out.countP fun j => (t j).dir := countP_pos_iff.mpr ⟨i, h, hdir⟩
  unfold kids
  omega

end

namespace Tree

variable {root i j d : ι} {strict dotted : Prop} {owed : ι → ℤ} {leaving : ι → Prop}
  {N : Finset ι} {t : ι → Node ι} {a : Node ι}

section

variable (h : Tree root strict dotted owed leaving N t)
include h

theorem one_le_names (hi : i ∈ (t d).out) :
    1 ≤ names N t i := by
  have hd : d ∈ N := h.inside d (h.dir_used d (h.dir_out d i hi))
  have hcount : 0 < (t d).out.count i := count_pos_iff.mpr hi
  have hle := count_le_names (t := t) (i := i) hd
  omega

theorem mem_up (hdir : (t i).dir = true)
    (hnamed : Named t i) : i ∈ (t (t i).up).out := by
  obtain ⟨d, hd⟩ := hnamed
  rw [← (h.once d i hdir hd).1]
  exact hd

theorem lonely (hused : (t i).used = true)
    (howed : 0 ≤ owed i) (hzero : (t i).links = 0) :
    ¬ Linked root t i ∧ (∀ j ∈ (t i).out, (t j).dir = false) ∧ owed i = 0 := by
  have hlinks := h.links_ge i hused
  have hnames : 0 ≤ names N t i := names_nonneg
  have hkids : 0 ≤ kids t i := kids_nonneg
  have hroot : 0 ≤ rootLink root i := rootLink_nonneg
  refine ⟨?_, ?_, by omega⟩
  · rintro (rfl | ⟨d, hd⟩)
    · simp only [rootLink, if_true] at hlinks
      omega
    · have hone := h.one_le_names hd
      omega
  · intro j hj
    by_contra hdir
    have hone := one_le_kids hj (Bool.not_eq_false _ ▸ hdir)
    omega

theorem names_le_one (hdir : (t i).dir = true) :
    names N t i ≤ 1 := by
  have hterm : ∀ d ∈ N, ((t d).out.count i : ℤ) ≤ if d = (t i).up then 1 else 0 := by
    intro d _
    by_cases hmem : i ∈ (t d).out
    · obtain ⟨hup, hcount⟩ := h.once d i hdir hmem
      rw [if_pos hup, hcount]
      decide
    · rw [count_eq_zero.mpr hmem]
      split <;> decide
  calc names N t i ≤ ∑ d ∈ N, if d = (t i).up then 1 else 0 := sum_le_sum hterm
    _ ≤ 1 := by
      rw [sum_ite_eq' N]
      split <;> decide

theorem mono {leaving' : ι → Prop}
    (hleaving : ∀ d, leaving d → leaving' d) : Tree root strict dotted owed leaving' N t :=
  { h with
    above := fun hdotted d hdir hun => (h.above hdotted d hdir hun).imp_right (hleaving d) }

end

omit [DecidableEq ι] in
theorem kids_congr {t' : ι → Node ι} (hout : (t' j).out = (t j).out)
    (hdir : ∀ x ∈ (t j).out, (t' x).dir = (t x).dir) : kids t' j = kids t j := by
  unfold kids
  rw [hout]
  congr 1
  exact countP_congr fun x hx => by rw [hdir x hx]

/-! ### Changes -/

def missing (root : ι) (owed : ι → ℤ) (N : Finset ι) (t : ι → Node ι) (j : ι) : ℤ :=
  names N t j + kids t j + rootLink root j + owed j - (t j).links

/-- A node of the same kind, at the same place. -/
def SameKind (a b : Node ι) : Prop := a.used = b.used ∧ a.dir = b.dir ∧ a.up = b.up

/-- `b` names what `a` names, and `i` once more. -/
def OneMore (i : ι) (a b : Node ι) : Prop :=
  ∀ p : ι → Bool, b.out.countP p = a.out.countP p + if p i then 1 else 0

variable {b : Node ι} {t' : ι → Node ι} {owed' : ι → ℤ} {leaving' : ι → Prop}

theorem OneMore.count (h : OneMore i a b) (j : ι) :
    b.out.count j = a.out.count j + if i = j then 1 else 0 := by
  have hcount := h fun x => x == j
  simpa only [List.count, beq_iff_eq] using hcount

theorem OneMore.mem (h : OneMore i a b) {j : ι} : j ∈ b.out ↔ j ∈ a.out ∨ j = i := by
  rw [← count_pos_iff, h.count j]
  by_cases hij : i = j
  · simp [hij]
  · simp [hij, Ne.symm hij]

theorem sameKind_update (h : SameKind a (t d)) (j : ι) : SameKind (update t d a j) (t j) := by
  by_cases hj : j = d
  · rw [hj, update_self]
    exact h
  · rw [update_of_ne hj]
    exact ⟨rfl, rfl, rfl⟩

omit [DecidableEq ι] in
theorem linked_congr (hout : ∀ d, (t' d).out = (t d).out) (j : ι) :
    Linked root t' j ↔ Linked root t j :=
  or_congr Iff.rfl (exists_congr fun d => by rw [hout d])

theorem names_congr (hout : ∀ d, (t' d).out = (t d).out) (j : ι) :
    names N t' j = names N t j := by
  apply sum_congr rfl
  intro d _
  simp only [hout d]

theorem missing_oneMore (hd : d ∈ N) (hkind : ∀ x, (update t d a x).dir = (t x).dir)
    (hmore : OneMore i (t d) a) (hlinks : a.links = (t d).links + if (t i).dir then 1 else 0)
    (howed : ∀ j, owed' j = owed j - if i = j then 1 else 0) (j : ι) :
    missing root owed' N (update t d a) j = missing root owed N t j := by
  have hnames : names N (update t d a) j = names N t j + if i = j then 1 else 0 := by
    rw [names_update hd, hmore.count j]
    push_cast
    ring
  have hrest : kids (update t d a) j - (update t d a j).links =
      kids t j - (t j).links := by
    by_cases hj : j = d
    · subst hj
      rw [kids, update_self, hlinks]
      simp only [hkind]
      rw [hmore fun x => (t x).dir, kids]
      push_cast
      ring
    · have hother : update t d a j = t j := update_of_ne hj ..
      rw [kids_congr (by rw [hother]) fun x _ => hkind x, hother]
  have howedj := howed j
  unfold missing
  omega

variable (h : Tree root strict dotted owed leaving N t)
include h

/-- **Other names for nodes that stay what they are.** -/
theorem rewire (hkind : ∀ j, SameKind (t' j) (t j))
    (hout : ∀ x j, j ∈ (t' x).out → (t x).dir = true ∧ (t j).used = true ∧ j ≠ root ∧
      ((t j).dir = true → x = (t j).up ∧ (t' x).out.count j = 1))
    (hcounts : ∀ j, missing root owed' N t' j ≤ missing root owed N t j ∧
      ((t j).dir = true ∨ strict → missing root owed' N t' j = missing root owed N t j))
    (habove : dotted → ∀ x, (t x).dir = true → ¬ Linked root t' x →
      ((t (t x).up).dir = true ∧ Linked root t' (t x).up) ∨ leaving' x)
    (hbare : strict → ∀ x, (t x).dir = true → ¬ Linked root t' x → (t' x).out = []) :
    Tree root strict dotted owed' leaving' N t' := by
  constructor
  · intro j
    rw [(hkind j).1, (hkind j).2.1]
    exact h.dir_used j
  · intro x j hj
    rw [(hkind x).2.1]
    exact (hout x j hj).1
  · intro j
    rw [(hkind j).1]
    exact h.inside j
  · rw [(hkind root).2.1]
    exact h.root_dir
  · rw [(hkind root).2.2]
    exact h.root_up
  · rintro ⟨x, hx⟩
    exact (hout x root hx).2.2.1 rfl
  · intro x j hj
    rw [(hkind j).1]
    exact (hout x j hj).2.1
  · intro x j hdir hj
    rw [(hkind j).2.1] at hdir
    rw [(hkind j).2.2]
    exact (hout x j hj).2.2.2 hdir
  · intro j hj
    rw [(hkind j).1] at hj
    have hge := h.links_ge j hj
    have hle := (hcounts j).1
    unfold missing at hle
    omega
  · intro j hj hcase
    rw [(hkind j).1] at hj
    rw [(hkind j).2.1] at hcase
    have hzero := h.links_eq j hj hcase
    have heq := (hcounts j).2 hcase
    unfold missing at heq
    omega
  · intro hdotted x
    rw [(hkind x).2.1, (hkind x).2.2, (hkind (t x).up).2.1]
    exact habove hdotted x
  · intro hstrict x
    rw [(hkind x).2.1]
    exact hbare hstrict x

/-- **Another node in place of one that nobody names and that names nothing.** -/
theorem replace (hin : ¬ Linked root t i) (hempty : (t i).out = []) (haout : a.out = [])
    (hadir : a.dir = true → a.used = true) (hiN : i ∈ N) (howed : ∀ j, j ≠ i → owed' j = owed j)
    (hlinks : a.used = true → owed' i = a.links) (hleaving : ∀ x, x ≠ i → leaving x → leaving' x)
    (hself : a.dir = true → leaving' i) :
    Tree root strict dotted owed' leaving' N (update t i a) := by
  have hat : update t i a i = a := update_self ..
  have hother : ∀ j, j ≠ i → update t i a j = t j := fun j hj => update_of_ne hj ..
  have hroot : root ≠ i := fun heq => hin (.inl heq.symm)
  have hout : ∀ d, (update t i a d).out = (t d).out := by
    intro d
    by_cases hd : d = i
    · rw [hd, hat, haout, hempty]
    · rw [hother d hd]
  have hne : ∀ {d j}, j ∈ (t d).out → j ≠ i := fun hj heq => hin (.inr ⟨_, heq ▸ hj⟩)
  have hlinked : ∀ j, Linked root (update t i a) j ↔ Linked root t j :=
    linked_congr hout
  have hkids : ∀ j, kids (update t i a) j = kids t j := fun j =>
    kids_congr (hout j) fun x hx => by rw [hother x (hne hx)]
  have hzero : names N t i = 0 ∧ kids t i = 0 ∧ rootLink root i = 0 := by
    refine ⟨names_eq_zero fun d hd => hin (.inr ⟨d, hd⟩), ?_, if_neg (Ne.symm hroot)⟩
    rw [kids, hempty]
    rfl
  constructor
  · intro j hj
    by_cases hji : j = i
    · rw [hji, hat] at hj ⊢
      exact hadir hj
    · rw [hother j hji] at hj ⊢
      exact h.dir_used j hj
  · intro d j hj
    rw [hout] at hj
    have hd : d ≠ i := by
      rintro rfl
      rw [hempty] at hj
      cases hj
    rw [hother d hd]
    exact h.dir_out d j hj
  · intro j hj
    by_cases hji : j = i
    · rw [hji]
      exact hiN
    · rw [hother j hji] at hj
      exact h.inside j hj
  · rw [hother root hroot]
    exact h.root_dir
  · rw [hother root hroot]
    exact h.root_up
  · rintro ⟨d, hd⟩
    rw [hout] at hd
    exact h.root_out ⟨d, hd⟩
  · intro d j hj
    rw [hout] at hj
    rw [hother j (hne hj)]
    exact h.out_used d j hj
  · intro d j hdir hj
    rw [hout] at hj ⊢
    rw [hother j (hne hj)] at hdir ⊢
    exact h.once d j hdir hj
  · intro j hj
    rw [names_congr hout, hkids]
    by_cases hji : j = i
    · subst hji
      rw [hat] at hj ⊢
      rw [hlinks hj]
      omega
    · rw [hother j hji] at hj ⊢
      rw [howed j hji]
      exact h.links_ge j hj
  · intro j hj hcase
    rw [names_congr hout, hkids]
    by_cases hji : j = i
    · subst hji
      rw [hat] at hj ⊢
      rw [hlinks hj]
      omega
    · rw [hother j hji] at hj hcase ⊢
      rw [howed j hji]
      exact h.links_eq j hj hcase
  · intro hdotted d hdir hun
    rw [hlinked] at hun
    by_cases hdi : d = i
    · rw [hdi, hat] at hdir
      exact .inr (hdi ▸ hself hdir)
    rw [hother d hdi] at hdir ⊢
    rcases h.above hdotted d hdir hun with ⟨hup, huplinked⟩ | hold
    · have hupi : (t d).up ≠ i := fun heq => hin (heq ▸ huplinked)
      rw [hother _ hupi, hlinked]
      exact .inl ⟨hup, huplinked⟩
    · exact .inr (hleaving d hdi hold)
  · intro hstrict d hdir hun
    rw [hlinked] at hun
    rw [hout]
    by_cases hdi : d = i
    · rw [hdi, hempty]
    · rw [hother d hdi] at hdir
      exact h.bare hstrict d hdir hun

theorem clear (hused : (t i).used = true) (howed : 0 ≤ owed i) (hzero : (t i).links = 0) :
    Tree root strict dotted owed leaving N (update t i { t i with out := [] }) := by
  obtain ⟨hunlinked, hnodir, -⟩ := h.lonely hused howed hzero
  have hkind := sameKind_update (a := { t i with out := [] }) ⟨rfl, rfl, rfl⟩
  have hself : (update t i { t i with out := [] } i).out = [] := by rw [update_self]
  have hother : ∀ d, d ≠ i → update t i { t i with out := [] } d = t d := fun d hd =>
    update_of_ne hd ..
  have hout : ∀ {d j}, j ∈ (update t i { t i with out := [] } d).out →
      d ≠ i ∧ j ∈ (t d).out := by
    intro d j hj
    by_cases hd : d = i
    · rw [hd, hself] at hj
      cases hj
    · rw [hother d hd] at hj
      exact ⟨hd, hj⟩
  -- a directory is not named by this node
  have hlinked : ∀ {j}, (t j).dir = true → Linked root t j →
      Linked root (update t i { t i with out := [] }) j := by
    rintro j hdir (rfl | ⟨d, hd⟩)
    · exact .inl rfl
    have hdi : d ≠ i := by
      rintro rfl
      rw [hnodir j hd] at hdir
      cases hdir
    exact .inr ⟨d, by rwa [hother d hdi]⟩
  have hkids : ∀ j, kids (update t i { t i with out := [] }) j = kids t j := by
    intro j
    by_cases hj : j = i
    · have hnone : (t i).out.countP (fun x => (t x).dir) = 0 :=
        countP_eq_zero.mpr fun x hx => by simp [hnodir x hx]
      rw [hj, kids, hself, kids, hnone]
      rfl
    · exact kids_congr (by rw [hother j hj]) fun x _ => (hkind x).2.1
  have hlinks : ∀ j, (update t i { t i with out := [] } j).links = (t j).links := by
    intro j
    by_cases hj : j = i
    · rw [hj, update_self]
    · rw [hother j hj]
  apply h.rewire hkind
  · intro d j hj
    obtain ⟨hd, hj⟩ := hout hj
    refine ⟨h.dir_out d j hj, h.out_used d j hj, ?_, fun hdir => ?_⟩
    · rintro rfl
      exact h.root_out ⟨d, hj⟩
    · rw [hother d hd]
      exact h.once d j hdir hj
  · intro j
    unfold missing
    rw [names_update (h.inside i hused), hkids, hlinks, count_nil]
    refine ⟨by omega, fun hcase => ?_⟩
    have hcount : (t i).out.count j = 0 := by
      rw [count_eq_zero]
      intro hmem
      rcases hcase with hdir | hstrict
      · rw [hnodir j hmem] at hdir
        cases hdir
      · rw [h.bare hstrict i (h.dir_out i j hmem) hunlinked] at hmem
        cases hmem
    omega
  · intro hdotted x hdir hun
    apply (h.above hdotted x hdir fun hl => hun (hlinked hdir hl)).imp_left
    exact fun ⟨hup, huplinked⟩ => ⟨hup, hlinked hup huplinked⟩
  · intro hstrict x hdir hun
    by_cases hx : x = i
    · rw [hx, hself]
    · rw [hother x hx]
      exact h.bare hstrict x hdir fun hl => hun (hlinked hdir hl)

/-- **Freeing a node that counts nothing.** -/
theorem free (hused : (t i).used = true) (howed : 0 ≤ owed i) (hzero : (t i).links = 0)
    (ha : a.used = false) (hadir : a.dir = false) (haout : a.out = []) :
    Tree root strict dotted owed (fun d => leaving d ∧ d ≠ i) N (update t i a) := by
  have hcleared := (h.clear hused howed hzero).lonely (by rwa [update_self]) howed
    (by rwa [update_self])
  rw [← update_idem (a := i) { t i with out := [] } a t]
  apply (h.clear hused howed hzero).replace hcleared.1
  · rw [update_self]
  · exact haout
  · exact fun hdir => absurd (hdir.symm.trans hadir) (by decide)
  · exact h.inside i hused
  · exact fun _ _ => rfl
  · exact fun hu => absurd (hu.symm.trans ha) (by decide)
  · exact fun x hx hleaving => ⟨hleaving, hx⟩
  · exact fun hdir => absurd (hdir.symm.trans hadir) (by decide)

/-- **Counting without naming**: only how far the counts are ahead changes. -/
theorem recount
    (hsame : ∀ j, (t' j).used = (t j).used ∧ (t' j).dir = (t j).dir ∧ (t' j).out = (t j).out ∧
      (t' j).up = (t j).up) (hlinks : ∀ j, (t' j).links - owed' j = (t j).links - owed j) :
    Tree root strict dotted owed' leaving N t' := by
  have hout : ∀ d, (t' d).out = (t d).out := fun d => (hsame d).2.2.1
  apply h.rewire fun j => ⟨(hsame j).1, (hsame j).2.1, (hsame j).2.2.2⟩
  · intro x j hj
    rw [hout] at hj ⊢
    refine ⟨h.dir_out x j hj, h.out_used x j hj, ?_, fun hdir => h.once x j hdir hj⟩
    rintro rfl
    exact h.root_out ⟨x, hj⟩
  · intro j
    have hlinksj := hlinks j
    unfold missing
    rw [names_congr hout, kids_congr (hout j) fun x _ => (hsame x).2.1]
    exact ⟨by omega, fun _ => by omega⟩
  · intro hdotted x
    rw [linked_congr hout, linked_congr hout]
    exact h.above hdotted x
  · intro hstrict x
    rw [linked_congr hout, hout]
    exact h.bare hstrict x

/-- **A new node**, which nobody names yet. -/
theorem bear (hfree : (t i).used = false) (hi : i ∈ N) (ha : a.used = true) (haout : a.out = []) :
    Tree root strict dotted (update owed i a.links) (fun d => leaving d ∨ d = i) N
      (update t i a) := by
  have hnodir : ¬ (t i).dir = true := by
    intro hdir
    rw [h.dir_used i hdir] at hfree
    cases hfree
  apply h.replace
  · rintro (rfl | ⟨d, hd⟩)
    · exact hnodir h.root_dir
    · rw [h.out_used d i hd] at hfree
      cases hfree
  · rw [eq_nil_iff_forall_not_mem]
    exact fun j hj => hnodir (h.dir_out i j hj)
  · exact haout
  · exact fun _ => ha
  · exact hi
  · exact fun j hj => update_of_ne hj ..
  · exact fun _ => update_self ..
  · exact fun x _ => .inl
  · exact fun _ => .inr rfl

/-- **A directory names a node once more.** -/
theorem addEdge (hdir : (t d).dir = true)
    (hused : (t i).used = true) (hroot : i ≠ root) (hsame : SameKind a (t d))
    (hmore : OneMore i (t d) a) (hlinks : a.links = (t d).links + if (t i).dir then 1 else 0)
    (hfirst : (t i).dir = true → (t i).up = d ∧ d ≠ i ∧ ¬ Named t i)
    (hstrict : strict → Linked root t d) :
    Tree root strict dotted (update owed i (owed i - 1)) (fun x => leaving x ∧ x ≠ i) N
      (update t d a) := by
  have hself : update t d a d = a := update_self ..
  have hother : ∀ j, j ≠ d → update t d a j = t j := fun j hj => update_of_ne hj ..
  have hkind := sameKind_update hsame
  have hmem : ∀ {x j}, j ∈ (update t d a x).out ↔ j ∈ (t x).out ∨ x = d ∧ j = i := by
    intro x j
    by_cases hx : x = d
    · rw [hx, hself, hmore.mem]
      simp
    · simp [hx]
  have hnew : Linked root (update t d a) i := .inr ⟨d, hmem.mpr (.inr ⟨rfl, rfl⟩)⟩
  have hlinked : ∀ {j}, Linked root t j → Linked root (update t d a) j := by
    rintro j (hj | ⟨x, hx⟩)
    · exact .inl hj
    · exact .inr ⟨x, hmem.mpr (.inl hx)⟩
  apply h.rewire hkind
  · intro x j hj
    rcases hmem.mp hj with hold | ⟨rfl, rfl⟩
    · refine ⟨h.dir_out x j hold, h.out_used x j hold, ?_, fun hjdir => ?_⟩
      · rintro rfl
        exact h.root_out ⟨x, hold⟩
      obtain ⟨hup, hcount⟩ := h.once x j hjdir hold
      refine ⟨hup, ?_⟩
      by_cases hx : x = d
      · have hij : i ≠ j := by
          rintro rfl
          exact (hfirst hjdir).2.2 ⟨x, hold⟩
        rw [hx] at hcount ⊢
        rw [hself, hmore.count j, if_neg hij, hcount]
      · rw [hother x hx]
        exact hcount
    · -- the first time that this directory is named
      refine ⟨hdir, hused, hroot, fun hjdir => ?_⟩
      obtain ⟨hup, -, hnot⟩ := hfirst hjdir
      have hzero : (t x).out.count j = 0 := count_eq_zero.mpr fun hm => hnot ⟨x, hm⟩
      rw [hself, hmore.count j, hzero]
      exact ⟨hup.symm, by simp⟩
  · intro j
    have heq : missing root (update owed i (owed i - 1)) N (update t d a) j =
        missing root owed N t j := by
      refine missing_oneMore (h.inside d (h.dir_used d hdir)) (fun x => (hkind x).2.1) hmore
        hlinks (fun x => ?_) j
      by_cases hix : i = x
      · subst hix
        simp
      · simp [hix, Ne.symm hix]
    exact ⟨heq.le, fun _ => heq⟩
  · intro hdotted x hxdir hun
    have hxi : x ≠ i := fun heq => hun (heq ▸ hnew)
    rcases h.above hdotted x hxdir fun hl => hun (hlinked hl) with ⟨hup, huplinked⟩ | hleaving
    · exact .inl ⟨hup, hlinked huplinked⟩
    · exact .inr ⟨hleaving, hxi⟩
  · intro hst x hxdir hun
    have hxd : x ≠ d := by
      rintro rfl
      exact hun (hlinked (hstrict hst))
    rw [hother x hxd]
    exact h.bare hst x hxdir fun hl => hun (hlinked hl)

/-- **A directory names a node once less.** A directory that loses its name has to be empty; with
`dotted`, it must not be above one nobody names, and what is above it must be linked,
unless it is leaving. -/
theorem removeEdge (hsame : SameKind a (t d))
    (hmore : OneMore i a (t d)) (hlinks : a.links = (t d).links - if (t i).dir then 1 else 0)
    (hempty : (t i).dir = true → (t i).out = [])
    (habove : dotted → (t i).dir = true →
      (∀ x, (t x).dir = true → ¬ Linked root t x → (t x).up ≠ i) ∧
        (Linked root t d ∨ leaving i)) :
    Tree root strict dotted (update owed i (owed i + 1)) leaving N
      (update t d a) := by
  have hi : i ∈ (t d).out := hmore.mem.mpr (.inr rfl)
  have hdir : (t d).dir = true := h.dir_out d i hi
  have hself : update t d a d = a := update_self ..
  have hother : ∀ j, j ≠ d → update t d a j = t j := fun j hj => update_of_ne hj ..
  have hkind := sameKind_update hsame
  have hmem : ∀ {x j}, j ∈ (update t d a x).out → j ∈ (t x).out := by
    intro x j hj
    by_cases hx : x = d
    · rw [hx, hself] at hj
      rw [hx]
      exact hmore.mem.mpr (.inl hj)
    · rwa [hother x hx] at hj
  have hstill : ∀ {j}, j ≠ i → Linked root t j → Linked root (update t d a) j := by
    rintro j hji (hj | ⟨x, hx⟩)
    · exact .inl hj
    refine .inr ⟨x, ?_⟩
    by_cases hxd : x = d
    · rw [hxd] at hx ⊢
      rw [hself]
      exact (hmore.mem.mp hx).resolve_right hji
    · rwa [hother x hxd]
  apply h.rewire hkind
  · intro x j hj
    have hold := hmem hj
    refine ⟨h.dir_out x j hold, h.out_used x j hold, ?_, fun hjdir => ?_⟩
    · rintro rfl
      exact h.root_out ⟨x, hold⟩
    obtain ⟨hup, hcount⟩ := h.once x j hjdir hold
    refine ⟨hup, ?_⟩
    by_cases hx : x = d
    · subst hx
      rw [hself] at hj ⊢
      have hpos : 0 < a.out.count j := count_pos_iff.mpr hj
      rw [hmore.count j] at hcount
      omega
    · rw [hother x hx]
      exact hcount
  · intro j
    -- the other way round, this is a name more
    have hback : update (update t d a) d (t d) = t := by rw [update_idem, update_eq_self]
    have heq : missing root owed N (update (update t d a) d (t d)) j =
        missing root (update owed i (owed i + 1)) N (update t d a) j := by
      refine missing_oneMore (h.inside d (h.dir_used d hdir))
        (fun x => by rw [hback, (hkind x).2.1]) (by rwa [hself]) ?_ (fun x => ?_) j
      · rw [hself, (hkind i).2.1, hlinks]
        ring
      by_cases hix : i = x
      · subst hix
        simp
      · simp [hix, Ne.symm hix]
    rw [hback] at heq
    exact ⟨heq.ge, fun _ => heq.symm⟩
  · intro hdotted x hxdir hun
    by_cases hxi : x = i
    · -- the directory that lost its name
      subst hxi
      have hup : (t x).up = d := (h.once d x hxdir hi).1.symm
      have hdx : d ≠ x := by
        rintro rfl
        rw [hempty hxdir] at hi
        cases hi
      rw [hup]
      exact (habove hdotted hxdir).2.imp_left fun hd => ⟨hdir, hstill hdx hd⟩
    · have hunx : ¬ Linked root t x := fun hl => hun (hstill hxi hl)
      refine (h.above hdotted x hxdir hunx).imp_left fun ⟨hup, huplinked⟩ => ⟨hup, ?_⟩
      apply hstill _ huplinked
      intro heq
      rw [heq] at hup
      exact (habove hdotted hup).1 x hxdir hunx heq
  · intro hst x hxdir hun
    have hxempty : (t x).out = [] := by
      by_cases hxi : x = i
      · subst hxi
        exact hempty hxdir
      · exact h.bare hst x hxdir fun hl => hun (hstill hxi hl)
    have hxd : x ≠ d := by
      rintro rfl
      rw [hxempty] at hi
      cases hi
    rw [hother x hxd]
    exact hxempty

end Tree

/-! ### Subdirectories -/

open scoped Classical in
/-- How many linked directories have this node above them. -/
noncomputable def subdirs (root : ι) (N : Finset ι) (t : ι → Node ι) (i : ι) : ℕ :=
  {x ∈ N | (t x).dir = true ∧ Linked root t x ∧ (t x).up = i}.card

theorem countP_eq_sum {N : Finset ι} (p : ι → Bool) :
    ∀ {l : List ι}, (∀ x ∈ l, x ∈ N) →
      l.countP p = ∑ x ∈ N, if p x = true then l.count x else 0 := by
  intro l
  induction l with
  | nil => simp
  | cons a l ih =>
    intro hmem
    have ha : a ∈ N := hmem a (.head _ ..)
    have hcons : ∀ x ∈ N, (if p x = true then (a :: l).count x else 0) =
        (if p x = true then l.count x else 0) + if x = a then (if p a = true then 1 else 0) else 0 := by
      intro x _
      by_cases hx : x = a
      · subst hx
        by_cases hp : p x = true
        · simp [hp]
        · simp [hp]
      · simp [hx, Ne.symm hx]
    rw [countP_cons, ih fun x hx => hmem x (.tail _ hx),
      sum_congr rfl hcons, sum_add_distrib, sum_ite_eq' N a, if_pos ha]

/-- **The directories a node names are those it is above of**, and the root is above itself. -/
theorem Tree.subdirs_eq {root : ι} {strict dotted : Prop} {owed : ι → ℤ} {leaving : ι → Prop}
    {N : Finset ι} {t : ι → Node ι} (h : Tree root strict dotted owed leaving N t) (i : ι) :
    (subdirs root N t i : ℤ) = kids t i + rootLink root i := by
  classical
  have hrootN : root ∈ N := h.inside root (h.dir_used root h.root_dir)
  have hterm : ∀ x ∈ N, (if (t x).dir = true ∧ Linked root t x ∧ (t x).up = i then 1 else 0) =
      (if (t x).dir = true then (t i).out.count x else 0) +
        if x = root then (if i = root then 1 else 0) else 0 := by
    intro x _
    by_cases hx : x = root
    · subst hx
      have hzero : (t i).out.count x = 0 := count_eq_zero.mpr fun hm => h.root_out ⟨i, hm⟩
      have hlinked : Linked x t x := .inl rfl
      simp [h.root_dir, h.root_up, hzero, hlinked, eq_comm]
    · rw [if_neg hx]
      by_cases hdir : (t x).dir = true
      · by_cases hmem : x ∈ (t i).out
        · obtain ⟨hup, hcount⟩ := h.once i x hdir hmem
          have hlinked : Linked root t x := .inr ⟨i, hmem⟩
          rw [if_pos ⟨hdir, hlinked, hup.symm⟩, if_pos hdir, hcount]
        rw [if_neg, if_pos hdir, count_eq_zero.mpr hmem]
        rintro ⟨-, hroot | hnamed, hup⟩
        · exact hx hroot
        · exact hmem (hup ▸ h.mem_up hdir hnamed)
      · simp [hdir]
  have hmem : ∀ x ∈ (t i).out, x ∈ N := fun x hx => h.inside x (h.out_used i x hx)
  have hsum : subdirs root N t i =
      (t i).out.countP (fun j => (t j).dir) + if i = root then 1 else 0 := by
    rw [subdirs, card_filter, sum_congr rfl hterm, sum_add_distrib,
      sum_ite_eq' N root, if_pos hrootN, countP_eq_sum _ hmem]
  rw [hsum]
  push_cast
  rfl

end LinkTree
