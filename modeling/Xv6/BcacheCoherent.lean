import Mathlib.Data.Fintype.EquivFin
import Xv6.Bcache

/-!
**Coherence of cache and disk**, and the changes that keep it.

`Coherent` ties buffers, disk and history: every block has at most one buffer, a valid buffer
holds what was last written to its block, and a block without a valid buffer has it on disk.
A buffer may differ from the disk only while it is `B_DIRTY` or while the process that changed
it still refers to it; so what `bget` recycles (unreferenced and not dirty) is on disk.
-/

namespace Xv6.Bcache

open CircularList Disk List Function

/-! ### The list -/

/-- The list from `bcache.head` is circular and has every buffer once. -/
def State.Ringed (s : State) : Prop :=
  ∃ l : List (Fin NBUF), s.links.Circle none (l.map some) ∧ ∀ i, i ∈ l

variable {l : List (Fin NBUF)} {s : State} {test : Fin NBUF → Bool}

theorem length_le_of_circle {k : Links Node} (hc : k.Circle none (l.map some)) :
    (l.map (some : Fin NBUF → Node)).length ≤ NBUF := by
  have hnodup : l.Nodup := (nodup_cons.mp hc.nodup).2.of_map some
  simpa using hnodup.length_le_card

theorem find_map_some (test : Fin NBUF → Bool) :
    ((l.map (some : Fin NBUF → Node)).find? (Option.any test)).join = l.find? test := by
  have htest : (Option.any test ∘ some : Fin NBUF → Bool) = test := rfl
  rw [List.find?_map, htest]
  cases l.find? test <;> rfl

theorem forward_eq (hc : s.links.Circle none (l.map some)) (test : Fin NBUF → Bool) :
    s.forward test = l.find? test := by
  rw [State.forward, hc.search_next (length_le_of_circle hc), find_map_some]

theorem join_search_test {next : Node → Node} {a : Node} {b : Fin NBUF}
    (heq : (Links.search next none (Option.any test) NBUF a).join = some b) : test b = true := by
  have htest : Option.any test (some b) = true :=
    Links.search_test (Option.join_eq_some_iff.mp heq)
  exact htest

theorem State.forward_some {b : Fin NBUF} (heq : s.forward test = some b) :
    test b = true := join_search_test heq

theorem State.backward_some {b : Fin NBUF} (heq : s.backward test = some b) :
    test b = true := join_search_test heq

theorem State.Ringed.forward_none (h : s.Ringed) (heq : s.forward test = none) (i : Fin NBUF) :
    test i = false := by
  obtain ⟨l, hc, hall⟩ := h
  rw [forward_eq hc, List.find?_eq_none] at heq
  simpa using heq i (hall i)

theorem State.Ringed.front {s' : State} (h : s.Ringed) (b : Fin NBUF)
    (hlinks : s'.links = (s.links.unlink (some b)).insert none (some b)) : s'.Ringed := by
  obtain ⟨l, hc, hall⟩ := h
  obtain ⟨l1, l2, rfl⟩ := append_of_mem (hall b)
  rw [map_append, map_cons] at hc
  have hout := hc.unlink
  rw [← map_append] at hout
  have hb : b ∉ l1 ++ l2 := by
    have hnodup := (nodup_cons.mp hc.nodup).2
    rw [← map_cons, ← map_append] at hnodup
    exact (nodup_middle.mp (hnodup.of_map some)).notMem
  refine ⟨b :: (l1 ++ l2), ?_, fun i => ?_⟩
  · rw [hlinks]
    exact hout.insert (Option.some_ne_none b) (by simpa using hb)
  have hi := hall i
  simp only [mem_append, mem_cons] at hi ⊢
  rcases hi with hi | hi | hi
  · exact .inr (.inl hi)
  · exact .inl hi
  · exact .inr (.inr hi)

theorem circle_binit (l : List (Fin NBUF)) (hl : l.Nodup) (k : Links Node)
    (hc : k.Circle none []) :
    (l.foldl (fun k b => k.insert none (some b)) k).Circle none (l.reverse.map some) := by
  induction l using List.reverseRecOn with
  | nil => exact hc
  | append_singleton l b ih =>
    have hsplit : l.Nodup ∧ b ∉ l := by
      rw [nodup_append] at hl
      exact ⟨hl.1, fun hb => hl.2.2 b hb b (mem_singleton_self b) rfl⟩
    rw [foldl_append, reverse_append]
    exact (ih hsplit.1).insert (Option.some_ne_none b) (by simpa using hsplit.2)

theorem ringed_binit (disk : Nat → Block) : (binit disk).Ringed := by
  refine ⟨(List.finRange NBUF).reverse, ?_, fun i => ?_⟩
  · exact circle_binit _ (nodup_finRange NBUF) _ (Links.circle_nil rfl rfl)
  · exact mem_reverse.mpr (mem_finRange i)

/-! ### Coherence -/

/-- Who refers to a buffer, and who has changed one without having passed it on. -/
structure Ghost (P : Type) where
  refs : Fin NBUF → Multiset P
  changed : Fin NBUF → Option P

variable {P : Type} {disk0 : Nat → Block} {s s' : State} {g g' : Ghost P} {i b : Fin NBUF}

structure Coherent (disk0 : Nat → Block) (s : State) (g : Ghost P) : Prop where
  ringed : s.Ringed
  refcnt : ∀ i, (s.buf i).refcnt = (g.refs i).card
  /-- A buffer that is not yet in use is not referenced. -/
  unused : ∀ i, (s.buf i).dev ≠ 1 → (s.buf i).refcnt = 0 ∧ (s.buf i).valid = false
  unique : ∀ i j, (s.buf i).dev = 1 → (s.buf j).dev = 1 → (s.buf i).blockno = (s.buf j).blockno →
    i = j
  dirty : ∀ i, (s.buf i).dirty = true → (s.buf i).valid = true
  changed : ∀ i q, g.changed i = some q → q ∈ g.refs i
  /-- What is not pinned is on disk. -/
  clean : ∀ i, (s.buf i).valid = true → (s.buf i).dirty = false → g.changed i = none →
    s.disk (s.buf i).blockno = (s.buf i).data
  cached : ∀ i, (s.buf i).valid = true →
    (s.buf i).data = contents disk0 s.history (s.buf i).blockno
  uncached : ∀ b, (∀ i, (s.buf i).valid = true → (s.buf i).blockno ≠ b) →
    s.disk b = contents disk0 s.history b
  plain : Plain disk0 s.history

theorem Coherent.dev_of_valid (h : Coherent disk0 s g) (hv : (s.buf i).valid = true) :
    (s.buf i).dev = 1 := by
  by_contra hdev
  rw [(h.unused i hdev).2] at hv
  cases hv

theorem Coherent.dev_of_refs (h : Coherent disk0 s g) {p : P} (hp : p ∈ g.refs i) :
    (s.buf i).dev = 1 := by
  by_contra hdev
  have hzero := (h.unused i hdev).1
  rw [h.refcnt i, Multiset.card_eq_zero] at hzero
  rw [hzero] at hp
  exact absurd hp (Multiset.notMem_zero p)

theorem Coherent.changed_of_refcnt (h : Coherent disk0 s g) (hzero : (s.buf i).refcnt = 0) :
    g.changed i = none := by
  rw [h.refcnt i, Multiset.card_eq_zero] at hzero
  rcases hq : g.changed i with _ | q
  · rfl
  · have hmem := h.changed i q hq
    rw [hzero] at hmem
    exact absurd hmem (Multiset.notMem_zero q)

theorem coherent_binit (disk0 : Nat → Block) :
    Coherent disk0 (binit disk0) (⟨fun _ => 0, fun _ => none⟩ : Ghost P) where
  ringed := ringed_binit disk0
  refcnt _ := rfl
  unused _ _ := ⟨rfl, rfl⟩
  unique i j hi := by simp [binit] at hi
  dirty i hi := by simp [binit] at hi
  changed i q hq := by simp at hq
  clean i hi := by simp [binit] at hi
  cached i hi := by simp [binit] at hi
  uncached b _ := rfl
  plain := trivial

theorem Coherent.congr (h : Coherent disk0 s g) (hbuf : s'.buf = s.buf)
    (hlinks : s'.links = s.links) (hdisk : s'.disk = s.disk) (hhistory : s'.history = s.history) :
    Coherent disk0 s' g where
  ringed := by obtain ⟨l, hc, hall⟩ := h.ringed; exact ⟨l, hlinks ▸ hc, hall⟩
  refcnt := by rw [hbuf]; exact h.refcnt
  unused := by rw [hbuf]; exact h.unused
  unique := by rw [hbuf]; exact h.unique
  dirty := by rw [hbuf]; exact h.dirty
  changed := h.changed
  clean := by rw [hbuf, hdisk]; exact h.clean
  cached := by rw [hbuf, hhistory]; exact h.cached
  uncached := by rw [hbuf, hdisk, hhistory]; exact h.uncached
  plain := by rw [hhistory]; exact h.plain

/-! ### What others see -/

/-- What process `p`, which holds `held`, may see the others do. -/
structure Frame [DecidableEq P] (p : P) (held : List (Fin NBUF)) (s : State) (g : Ghost P)
    (s' : State) (g' : Ghost P) : Prop where
  refs : ∀ i, (g'.refs i).count p = (g.refs i).count p
  named : ∀ i, p ∈ g.refs i →
    (s'.buf i).dev = (s.buf i).dev ∧ (s'.buf i).blockno = (s.buf i).blockno
  valid : ∀ i ∈ held, p ∈ g.refs i → (s'.buf i).valid = (s.buf i).valid
  changed : ∀ i, g'.changed i = some p → g.changed i = some p

variable [DecidableEq P] {p q : P} {held held' : List (Fin NBUF)}

theorem Frame.refl (p : P) (held : List (Fin NBUF)) (s : State) (g : Ghost P) :
    Frame p held s g s g :=
  ⟨fun _ => rfl, fun _ _ => ⟨rfl, rfl⟩, fun _ _ _ => rfl, fun _ h => h⟩

theorem Frame.mem_refs (h : Frame p held s g s' g') : p ∈ g'.refs i ↔ p ∈ g.refs i := by
  rw [← Multiset.count_pos, ← Multiset.count_pos, h.refs i]

theorem Frame.trans {s'' : State} {g'' : Ghost P} (h : Frame p held s g s' g')
    (h' : Frame p held s' g' s'' g'') : Frame p held s g s'' g'' where
  refs i := (h'.refs i).trans (h.refs i)
  named i hi := by
    obtain ⟨hdev, hblockno⟩ := h.named i hi
    obtain ⟨hdev', hblockno'⟩ := h'.named i (h.mem_refs.mpr hi)
    exact ⟨hdev'.trans hdev, hblockno'.trans hblockno⟩
  valid i hheld hi := (h'.valid i hheld (h.mem_refs.mpr hi)).trans (h.valid i hheld hi)
  changed i hi := h.changed i (h'.changed i hi)

/-- A step of `p` on a buffer `i`. -/
structure Touch (disk0 : Nat → Block) (p : P) (i : Fin NBUF) (s : State) (g : Ghost P)
    (s' : State) (g' : Ghost P) : Prop where
  other : ∀ j, j ≠ i → s'.buf j = s.buf j
  others : ∀ j, j ≠ i → g'.changed j = g.changed j
  links : s'.links = s.links
  refs : g'.refs = g.refs
  dev : (s'.buf i).dev = (s.buf i).dev
  blockno : (s'.buf i).blockno = (s.buf i).blockno
  refcnt : (s'.buf i).refcnt = (s.buf i).refcnt
  changed : ∀ q, g'.changed i = some q → g.changed i = some q ∨ q = p
  disk : ∀ b, b ≠ (s.buf i).blockno → s'.disk b = s.disk b
  history : ∀ b, b ≠ (s.buf i).blockno →
    contents disk0 s'.history b = contents disk0 s.history b

namespace Touch

variable {i : Fin NBUF}

omit [DecidableEq P] in
theorem dev_eq (h : Touch disk0 p i s g s' g') (j : Fin NBUF) :
    (s'.buf j).dev = (s.buf j).dev := by
  by_cases hj : j = i
  · rw [hj, h.dev]
  · rw [h.other j hj]

omit [DecidableEq P] in
theorem blockno_eq (h : Touch disk0 p i s g s' g') (j : Fin NBUF) :
    (s'.buf j).blockno = (s.buf j).blockno := by
  by_cases hj : j = i
  · rw [hj, h.blockno]
  · rw [h.other j hj]

omit [DecidableEq P] in
theorem refcnt_eq (h : Touch disk0 p i s g s' g') (j : Fin NBUF) :
    (s'.buf j).refcnt = (s.buf j).refcnt := by
  by_cases hj : j = i
  · rw [hj, h.refcnt]
  · rw [h.other j hj]

theorem frame (h : Touch disk0 p i s g s' g') (hi : i ∈ held) (hq : q ≠ p)
    (hdisj : held.Disjoint held') : Frame q held' s g s' g' where
  refs j := by rw [h.refs]
  named j _ := ⟨h.dev_eq j, h.blockno_eq j⟩
  valid j hj _ := by
    have hne : j ≠ i := fun heq => hdisj hi (heq ▸ hj)
    rw [h.other j hne]
  changed j hj := by
    by_cases heq : j = i
    · rw [heq] at hj ⊢
      exact (h.changed q hj).resolve_right hq
    · rwa [h.others j heq] at hj

omit [DecidableEq P] in
/-- **A touch keeps coherence** if it leaves the buffer valid, with what was last written, and on
disk unless pinned. -/
theorem coherent (h : Touch disk0 p i s g s' g') (hc : Coherent disk0 s g) (hp : p ∈ g.refs i)
    (hvalid : (s'.buf i).valid = true)
    (hdata : (s'.buf i).data = contents disk0 s'.history (s.buf i).blockno)
    (hclean : (s'.buf i).dirty = false → g'.changed i = none →
      s'.disk (s.buf i).blockno = (s'.buf i).data)
    (hplain : Plain disk0 s'.history) : Coherent disk0 s' g' := by
  have hdev : (s.buf i).dev = 1 := hc.dev_of_refs hp
  have hblock : ∀ j, j ≠ i → (s.buf j).valid = true → (s.buf j).blockno ≠ (s.buf i).blockno :=
    fun j hj hv heq => hj (hc.unique j i (hc.dev_of_valid hv) hdev heq)
  constructor
  case ringed =>
    obtain ⟨l, hl, hall⟩ := hc.ringed
    exact ⟨l, h.links ▸ hl, hall⟩
  case refcnt => intro j; rw [h.refcnt_eq, h.refs, hc.refcnt]
  case unused =>
    intro j hj
    rw [h.dev_eq] at hj
    have hne : j ≠ i := fun heq => hj (heq ▸ hdev)
    rw [h.other j hne]
    exact hc.unused j hj
  case unique =>
    intro j k hj hk heq
    rw [h.dev_eq] at hj hk
    rw [h.blockno_eq, h.blockno_eq] at heq
    exact hc.unique j k hj hk heq
  case dirty =>
    intro j hj
    by_cases heq : j = i
    · rw [heq]; exact hvalid
    · rw [h.other j heq] at hj ⊢; exact hc.dirty j hj
  case changed =>
    intro j q hq
    rw [h.refs]
    by_cases heq : j = i
    · rw [heq] at hq ⊢
      rcases h.changed q hq with hold | hqp
      · exact hc.changed i q hold
      · exact hqp ▸ hp
    · rw [h.others j heq] at hq; exact hc.changed j q hq
  case clean =>
    intro j hv hd hg
    by_cases heq : j = i
    · rw [heq] at hd hg ⊢
      rw [h.blockno]
      exact hclean hd hg
    rw [h.other j heq] at hv hd ⊢
    rw [h.others j heq] at hg
    rw [h.disk _ (hblock j heq hv)]
    exact hc.clean j hv hd hg
  case cached =>
    intro j hv
    by_cases heq : j = i
    · rw [heq, h.blockno]; exact hdata
    · rw [h.other j heq] at hv ⊢
      rw [h.history _ (hblock j heq hv)]
      exact hc.cached j hv
  case uncached =>
    intro b hb
    have hbi : b ≠ (s.buf i).blockno := fun heq => hb i hvalid (by rw [h.blockno, heq])
    rw [h.disk b hbi, h.history b hbi]
    refine hc.uncached b fun j hv => ?_
    by_cases heq : j = i
    · rw [heq]; exact hbi.symm
    · have hj := hb j
      rw [h.other j heq] at hj
      exact hj hv
  case plain => exact hplain

end Touch

/-! ### References -/

theorem update_refcnt (buf : Fin NBUF → Buf) (b : Fin NBUF) (n : Nat) (j : Fin NBUF) :
    update buf b { buf b with refcnt := n } j =
      { buf j with refcnt := if j = b then n else (buf j).refcnt } := by
  by_cases hj : j = b
  · subst hj; simp
  · simp [hj]

def Ghost.setRefs (g : Ghost P) (b : Fin NBUF) (m : Multiset P) : Ghost P :=
  { g with refs := update g.refs b m }

omit [DecidableEq P] in
theorem Coherent.recount (h : Coherent disk0 s g) {m : Multiset P} {k : Links Node}
    (hdev : (s.buf b).dev = 1) (hchanged : ∀ q, g.changed b = some q → q ∈ m)
    (hring : State.Ringed { s with links := k }) :
    Coherent disk0 { s.setBuf b { s.buf b with refcnt := m.card } with links := k }
      (g.setRefs b m) := by
  constructor
  case ringed => exact hring
  case refcnt =>
    intro j
    by_cases hj : j = b
    · subst hj; simp [State.setBuf, Ghost.setRefs]
    · simp [State.setBuf, Ghost.setRefs, hj, h.refcnt j]
  case unused =>
    intro j hj
    simp only [State.setBuf, update_refcnt] at hj ⊢
    have hne : j ≠ b := fun heq => hj (heq ▸ hdev)
    rw [if_neg hne]
    exact h.unused j hj
  case unique =>
    intro i j
    simp only [State.setBuf, update_refcnt]
    exact h.unique i j
  case dirty =>
    intro j
    simp only [State.setBuf, update_refcnt]
    exact h.dirty j
  case changed =>
    intro j q hq
    by_cases hj : j = b
    · rw [hj] at hq ⊢
      simpa [Ghost.setRefs] using hchanged q hq
    · simpa [Ghost.setRefs, hj] using h.changed j q hq
  case clean =>
    intro j
    simp only [State.setBuf, update_refcnt]
    exact h.clean j
  case cached =>
    intro j
    simp only [State.setBuf, update_refcnt]
    exact h.cached j
  case uncached =>
    intro blockno
    simp only [State.setBuf, update_refcnt]
    exact h.uncached blockno
  case plain => exact h.plain

theorem frame_recount {m : Multiset P} {k : Links Node} {n : Nat}
    (hcount : m.count q = (g.refs b).count q) :
    Frame q held s g { s.setBuf b { s.buf b with refcnt := n } with links := k }
      (g.setRefs b m) := by
  constructor
  case refs =>
    intro j
    by_cases hj : j = b
    · subst hj; simpa [Ghost.setRefs] using hcount
    · simp [Ghost.setRefs, hj]
  case named => intro j _; simp [State.setBuf, update_refcnt]
  case valid => intro j _ _; simp [State.setBuf, update_refcnt]
  case changed => exact fun j hj => hj

/-- `bget` gives `b` to another block. -/
def State.recycle (s : State) (b : Fin NBUF) (blockno : Nat) : State :=
  s.setBuf b { s.buf b with dev := 1, blockno, valid := false, dirty := false, refcnt := 1 }

omit [DecidableEq P] in
/-- **Recycling**: what an unreferenced clean buffer holds is on disk. -/
theorem Coherent.recycle (h : Coherent disk0 s g) {blockno : Nat} (p : P)
    (hmiss : ∀ i, (s.buf i).dev = 1 → (s.buf i).blockno ≠ blockno) (hrefcnt : (s.buf b).refcnt = 0)
    (hdirty : (s.buf b).dirty = false) :
    Coherent disk0 (s.recycle b blockno) (g.setRefs b {p}) := by
  have hchanged := h.changed_of_refcnt hrefcnt
  have hself : (s.recycle b blockno).buf b =
      { s.buf b with dev := 1, blockno, valid := false, dirty := false, refcnt := 1 } := by
    simp [State.recycle, State.setBuf]
  have hother : ∀ j, j ≠ b → (s.recycle b blockno).buf j = s.buf j := by
    intro j hj
    simp [State.recycle, State.setBuf, hj]
  -- a valid buffer is another one
  have hvalid : ∀ j, ((s.recycle b blockno).buf j).valid = true → j ≠ b := by
    intro j hv heq
    rw [heq, hself] at hv
    cases hv
  constructor
  case ringed => exact h.ringed
  case refcnt =>
    intro j
    by_cases hj : j = b
    · subst hj; rw [hself]; simp [Ghost.setRefs]
    · rw [hother j hj, h.refcnt j]; simp [Ghost.setRefs, hj]
  case unused =>
    intro j hdev
    by_cases hj : j = b
    · subst hj; rw [hself] at hdev; exact absurd rfl hdev
    · rw [hother j hj] at hdev ⊢; exact h.unused j hdev
  case unique =>
    intro i j hi hj heq
    by_cases hib : i = b
    · by_cases hjb : j = b
      · rw [hib, hjb]
      · rw [hother j hjb] at hj heq
        rw [hib, hself] at heq
        exact absurd heq.symm (hmiss j hj)
    · rw [hother i hib] at hi heq
      by_cases hjb : j = b
      · rw [hjb, hself] at heq
        exact absurd heq (hmiss i hi)
      · rw [hother j hjb] at hj heq
        exact h.unique i j hi hj heq
  case dirty =>
    intro j hd
    by_cases hj : j = b
    · subst hj; rw [hself] at hd; cases hd
    · rw [hother j hj] at hd ⊢; exact h.dirty j hd
  case changed =>
    intro j q hq
    by_cases hj : j = b
    · rw [hj] at hq; exact absurd hq (by simp [Ghost.setRefs, hchanged])
    · simpa [Ghost.setRefs, hj] using h.changed j q hq
  case clean =>
    intro j hv
    have hj := hvalid j hv
    rw [hother j hj] at hv ⊢
    exact h.clean j hv
  case cached =>
    intro j hv
    have hj := hvalid j hv
    rw [hother j hj] at hv ⊢
    exact h.cached j hv
  case uncached =>
    intro n hn
    by_cases hb : (s.buf b).valid = true ∧ (s.buf b).blockno = n
    · obtain ⟨hv, rfl⟩ := hb
      exact (h.clean b hv hdirty hchanged).trans (h.cached b hv)
    refine h.uncached n fun j hv heq => ?_
    by_cases hj : j = b
    · rw [hj] at hv heq; exact hb ⟨hv, heq⟩
    · have hnj := hn j
      rw [hother j hj] at hnj
      exact hnj hv heq
  case plain => exact h.plain

theorem frame_recycle (h : Coherent disk0 s g) {blockno : Nat} (hq : q ≠ p)
    (hrefcnt : (s.buf b).refcnt = 0) :
    Frame q held s g (s.recycle b blockno) (g.setRefs b {p}) := by
  rw [h.refcnt b, Multiset.card_eq_zero] at hrefcnt
  have hmem : ∀ j, q ∈ g.refs j → j ≠ b := by
    intro j hj heq
    rw [heq, hrefcnt] at hj
    exact absurd hj (Multiset.notMem_zero q)
  constructor
  case refs =>
    intro j
    by_cases hj : j = b
    · subst hj
      simp [Ghost.setRefs, hrefcnt, hq]
    · simp [Ghost.setRefs, hj]
  case named => intro j hj; simp [State.recycle, State.setBuf, hmem j hj]
  case valid => intro j _ hj; simp [State.recycle, State.setBuf, hmem j hj]
  case changed => exact fun j hj => hj

end Xv6.Bcache
