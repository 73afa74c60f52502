import Xv6.BcacheCoherent

/-!
**Cache and disk together are one plain array of blocks.**

A process knows which buffers it has locked, which of these are valid and which it has changed
(`Locals`); what the others do leaves this knowledge true (`Mine.frame`). Every function of
`bio.c` and every part of a commit takes a process from one such view to the next and keeps
`Coherent` (`Takes`), so sessions do, and by the rely-guarantee rule of `Threads` coherence
holds whatever the interleaving.
-/

namespace Xv6.Bcache

open Disk Program Function List

/-! ### Pinned buffers -/

/-- A pinned buffer stays the valid buffer of its block. -/
def Pinned (s s' : State) : Prop :=
  ∀ i, (s.buf i).dirty = true →
    (s'.buf i).dev = (s.buf i).dev ∧ (s'.buf i).blockno = (s.buf i).blockno ∧
      ((s.buf i).valid = true → (s'.buf i).valid = true)

theorem Pinned.refl (s : State) : Pinned s s := fun _ _ => ⟨rfl, rfl, fun h => h⟩

theorem pinned_of_update {s s' : State} {b : Fin NBUF} {buf : Buf}
    (hbuf : s'.buf = update s.buf b buf)
    (h : (s.buf b).dirty = true → buf.dev = (s.buf b).dev ∧ buf.blockno = (s.buf b).blockno ∧
      ((s.buf b).valid = true → buf.valid = true)) : Pinned s s' := by
  intro i hi
  rw [hbuf]
  by_cases hib : i = b
  · subst hib
    rw [update_self]
    exact h hi
  · rw [update_of_ne hib]
    exact ⟨rfl, rfl, fun hv => hv⟩

section

variable {P : Type} [DecidableEq P] {disk0 : Nat → Block} {s s' : State} {g g' : Ghost P} {p q : P}
  {held held' changed : List (Fin NBUF)} {blockno : Nat} {b : Fin NBUF}

/-! ### Where a process stands -/

/-- What a process knows of its buffers: those it has locked, those it refers to, those it knows
to be valid, those it may have changed, and the one `bget` has found for a block. -/
structure Locals where
  held : List (Fin NBUF)
  refs : List (Fin NBUF)
  live : List (Fin NBUF)
  changed : List (Fin NBUF)
  sought : Option (Fin NBUF × Nat)

/-- Between two operations of a session. -/
def Locals.of (held changed : List (Fin NBUF)) : Locals := ⟨held, held, held, changed, none⟩

structure Mine (p : P) (v : Locals) (s : State) (g : Ghost P) : Prop where
  nodup : v.held.Nodup
  refs : ∀ i, (g.refs i).count p = v.refs.count i
  held : ∀ i ∈ v.held, i ∈ v.refs
  live : ∀ i ∈ v.live, i ∈ v.held ∧ (s.buf i).valid = true
  changed : ∀ i, g.changed i = some p → i ∈ v.changed ∧ i ∈ v.held
  sought : ∀ i b, v.sought = some (i, b) → i ∈ v.refs ∧ (s.buf i).blockno = b

variable {v : Locals}

theorem Mine.mem_refs (h : Mine p v s g) {i : Fin NBUF} (hi : i ∈ v.refs) : p ∈ g.refs i := by
  rw [← Multiset.count_pos, h.refs i]
  exact count_pos_iff.mpr hi

theorem Mine.frame (h : Mine p v s g) (hf : Frame p v.held s g s' g') :
    Mine p v s' g' where
  nodup := h.nodup
  refs i := (hf.refs i).trans (h.refs i)
  held := h.held
  live i hi := by
    obtain ⟨hheld, hv⟩ := h.live i hi
    rw [hf.valid i hheld (h.mem_refs (h.held i hheld))]
    exact ⟨hheld, hv⟩
  changed i hi := h.changed i (hf.changed i hi)
  sought i b hib := by
    obtain ⟨hi, hb⟩ := h.sought i b hib
    rw [(hf.named i (h.mem_refs hi)).2]
    exact ⟨hi, hb⟩

/-- `v` tells at least what `v'` tells. -/
structure Locals.Forgets (v v' : Locals) : Prop where
  held : v'.held = v.held
  refs : v'.refs = v.refs
  live : ∀ i ∈ v'.live, i ∈ v.live
  changed : ∀ i ∈ v.changed, i ∈ v'.changed
  sought : v'.sought = none ∨ v'.sought = v.sought

theorem Mine.forget {v' : Locals} (h : Mine p v s g) (hv : v.Forgets v') : Mine p v' s g where
  nodup := by rw [hv.held]; exact h.nodup
  refs i := by rw [hv.refs]; exact h.refs i
  held i hi := by rw [hv.held] at hi; rw [hv.refs]; exact h.held i hi
  live i hi := by rw [hv.held]; exact h.live i (hv.live i hi)
  changed i hi := by
    obtain ⟨hchanged, hheld⟩ := h.changed i hi
    rw [hv.held]
    exact ⟨hv.changed i hchanged, hheld⟩
  sought i b hib := by
    rcases hv.sought with hnone | hsame
    · rw [hnone] at hib; cases hib
    · rw [hv.refs]; exact h.sought i b (hsame ▸ hib)

/-- **The discipline of the cache's users.** -/
def discipline (P : Type) [DecidableEq P] (disk0 : Nat → Block) :
    Rely P State (Ghost P) Unit (Fin NBUF) (Session [] []) where
  inv s g := Coherent disk0 s g
  frame := Frame
  ok _ _ _ _ _ _ _ := True
  idle p s g := Mine p (.of [] []) s g
  refl := Frame.refl
  trans := Frame.trans
  idle_frame h hf := h.frame hf

/-- Run by `p` from `v`, the program keeps the discipline and ends in `v'`; its steps leave pinned
buffers alone. -/
def Takes (disk0 : Nat → Block) (p : P) {α : Type} (m : Kprog α) (v : Locals) (v' : α → Locals) :
    Prop :=
  Guarantees Pinned m ∧ ∀ session s g, Coherent disk0 s g → Mine p v s g →
    (discipline P disk0).Safe session p m
      (fun a held s g => held = (v' a).held ∧ Mine p (v' a) s g) v.held s g

section

variable {α β : Type} {v : Locals} {v' : α → Locals}

theorem Takes.bind {m : Kprog α} {f : α → Kprog β} {v'' : β → Locals} (hm : Takes disk0 p m v v')
    (hf : ∀ a, Takes disk0 p (f a) (v' a) v'') : Takes disk0 p (m >>= f) v v'' := by
  refine ⟨hm.1.bind fun a => (hf a).1, fun session s g hc hmine => ?_⟩
  refine Rely.Safe.bind (hm.2 session s g hc hmine) hc ?_
  rintro a held s' g' hc' ⟨rfl, hmine'⟩
  exact (hf a).2 session s' g' hc' hmine'

theorem Takes.forget {m : Kprog α} {v'' : α → Locals} (hm : Takes disk0 p m v v')
    (h : ∀ a, (v' a).Forgets (v'' a)) : Takes disk0 p m v v'' := by
  refine ⟨hm.1, fun session s g hc hmine => (hm.2 session s g hc hmine).mono ?_⟩
  rintro a held s' g' - ⟨rfl, hmine'⟩
  exact ⟨(h a).held.symm, hmine'.forget (h a)⟩

theorem takes_pure (a : α) (h : v.Forgets (v' a)) : Takes disk0 p (pure a : Kprog α) v v' :=
  ⟨trivial, fun _ _ _ _ hmine => Rely.safe_pure fun _ _ _ hf =>
    ⟨h.held.symm, (hmine.frame hf).forget h⟩⟩

theorem takes_panic (msg : String) : Takes disk0 p (.panic msg : Kprog α) v v' :=
  ⟨trivial, fun _ _ _ _ _ => trivial⟩

theorem takes_reads {f : State → α} (hheld : ∀ a, (v' a).held = v.held)
    (h : ∀ s g, Coherent disk0 s g → Mine p v s g → Mine p (v' (f s)) s g) :
    Takes disk0 p (reads f : Kprog α) v v' := by
  refine ⟨guarantees_reads Pinned.refl f, fun session s g hc hmine => ?_⟩
  refine Rely.safe_reads fun s' g' hc' hf s3 g3 hc3 hf3 => ⟨(hheld _).symm, ?_⟩
  refine (h s' g' hc' (hmine.frame hf)).frame ?_
  rw [hheld]
  exact hf3

/-- A step of `p` that keeps coherence and the other processes' frames. -/
def Steps (disk0 : Nat → Block) (p : P) (held : List (Fin NBUF)) (s : State) (g : Ghost P)
    (s' : State) (g' : Ghost P) : Prop :=
  Coherent disk0 s' g' ∧ ∀ q held', q ≠ p → held.Disjoint held' → Frame q held' s g s' g'

theorem takes_atomic {f : State → Except String (α × State)} (hheld : ∀ a, (v' a).held = v.held)
    (hpin : ∀ s a s', f s = .ok (a, s') → Pinned s s')
    (h : ∀ s g, Coherent disk0 s g → Mine p v s g → ∀ a s', f s = .ok (a, s') →
      ∃ g', Steps disk0 p v.held s g s' g' ∧ Mine p (v' a) s' g') :
    Takes disk0 p (atomic f : Kprog α) v v' := by
  refine ⟨guarantees_atomic Pinned.refl hpin, fun session s g hc hmine => ?_⟩
  refine Rely.safe_atomic fun s1 g1 hc1 hf a s2 heq => ?_
  obtain ⟨g2, hsteps, hmine2⟩ := h s1 g1 hc1 (hmine.frame hf) a s2 heq
  refine ⟨g2, hsteps, fun s3 g3 hc3 hf3 => ⟨(hheld a).symm, hmine2.frame ?_⟩⟩
  rw [hheld]
  exact hf3

theorem takes_modify {f : State → State} {v' : Locals} (hheld : v'.held = v.held)
    (hpin : ∀ s, Pinned s (f s))
    (h : ∀ s g, Coherent disk0 s g → Mine p v s g →
      ∃ g', Steps disk0 p v.held s g (f s) g' ∧ Mine p v' (f s) g') :
    Takes disk0 p (modify f : Kprog Unit) v fun _ => v' := by
  apply takes_atomic (f := fun s => .ok ((), f s)) fun _ => hheld
  · rintro s _ _ ⟨⟩
    exact hpin s
  · rintro s g hc hmine _ _ ⟨⟩
    exact h s g hc hmine

theorem takes_onlyIf {b : Prop} [Decidable b] {m : Kprog Unit} {v' : Locals}
    (hm : b → Takes disk0 p m v fun _ => v') (hskip : ¬ b → v.Forgets v') :
    Takes disk0 p (onlyIf b m) v fun _ => v' := by
  unfold onlyIf
  split
  next hb => exact hm hb
  next hb => exact takes_pure () (hskip hb)

end

/-! ### `bio.c` -/

theorem bgetLocked_cases {dev : Nat} (heq : bgetLocked dev blockno s = .ok (b, s')) :
    ((s.buf b).dev = dev ∧ (s.buf b).blockno = blockno ∧
      s' = s.setBuf b { s.buf b with refcnt := (s.buf b).refcnt + 1 }) ∨
    ((s.Ringed → ∀ i, (s.buf i).dev = dev → (s.buf i).blockno ≠ blockno) ∧
      (s.buf b).refcnt = 0 ∧ (s.buf b).dirty = false ∧ s' = s.setBuf b
        { s.buf b with dev, blockno, valid := false, dirty := false, refcnt := 1 }) := by
  simp only [bgetLocked] at heq
  split at heq
  next b' hfound =>
    cases heq
    have htest := State.forward_some hfound
    simp only [Bool.and_eq_true, beq_iff_eq] at htest
    exact .inl ⟨htest.1, htest.2, rfl⟩
  next hmiss =>
    split at heq
    next b' hfound =>
      cases heq
      have htest := State.backward_some hfound
      simp only [Bool.and_eq_true, beq_iff_eq, Bool.not_eq_true'] at htest
      refine .inr ⟨fun h i hdev hblockno => ?_, htest.1, htest.2, rfl⟩
      have hi := h.forward_none hmiss i
      simp [hdev, hblockno] at hi
    · cases heq

theorem pinned_bgetLocked {dev : Nat} (heq : bgetLocked dev blockno s = .ok (b, s')) :
    Pinned s s' := by
  rcases bgetLocked_cases heq with ⟨-, -, rfl⟩ | ⟨-, -, hclean, rfl⟩
  · exact pinned_of_update rfl fun _ => ⟨rfl, rfl, id⟩
  · refine pinned_of_update rfl fun hdirty => ?_
    rw [hclean] at hdirty
    cases hdirty

theorem Mine.addRef (h : Mine p v s g) {m : Multiset P}
    (hcount : m.count p = (g.refs b).count p + 1)
    (hvalid : ∀ i ∈ v.live, (s'.buf i).valid = (s.buf i).valid) (hb : (s'.buf b).blockno = blockno) :
    Mine p { v with refs := b :: v.refs, sought := some (b, blockno) } s' (g.setRefs b m) where
  nodup := h.nodup
  refs i := by
    by_cases hi : i = b
    · subst hi
      simp [Ghost.setRefs, hcount, h.refs]
    · rw [count_cons_of_ne (Ne.symm hi), ← h.refs i]
      simp [Ghost.setRefs, hi]
  held i hi := mem_cons_of_mem b (h.held i hi)
  live i hi := by
    rw [hvalid i hi]
    exact h.live i hi
  changed := h.changed
  sought i n hin := by
    cases hin
    exact ⟨.head _, hb⟩

theorem takes_bgetLocked (v : Locals) (blockno : Nat) :
    Takes disk0 p (atomic (bgetLocked 1 blockno)) v
      fun b => { v with refs := b :: v.refs, sought := some (b, blockno) } := by
  refine takes_atomic (fun _ => rfl) (fun _ _ _ => pinned_bgetLocked) fun s g hc hmine b s' heq => ?_
  rcases bgetLocked_cases heq with ⟨hdev, hblockno, rfl⟩ | ⟨hmiss, hzero, hclean, rfl⟩
  · -- the block has a buffer
    refine ⟨g.setRefs b (p ::ₘ g.refs b), ⟨?_, fun q held' hq _ => ?_⟩, ?_⟩
    · have hkeep := hc.recount (m := p ::ₘ g.refs b) hdev
        (fun q hq => Multiset.mem_cons_of_mem (hc.changed b q hq)) hc.ringed
      rw [Multiset.card_cons, ← hc.refcnt b] at hkeep
      exact hkeep
    · exact frame_recount (Multiset.count_cons_of_ne hq _)
    · refine hmine.addRef (Multiset.count_cons_self p _) (fun i _ => ?_) ?_
      · simp [State.setBuf, update_refcnt]
      · simpa [State.setBuf] using hblockno
  · -- a buffer nobody uses is recycled
    refine ⟨g.setRefs b {p}, ⟨hc.recycle p (hmiss hc.ringed) hzero hclean, fun q held' hq _ => ?_⟩, ?_⟩
    · exact frame_recycle hc hq hzero
    have hrefs : g.refs b = 0 := by rwa [hc.refcnt b, Multiset.card_eq_zero] at hzero
    refine hmine.addRef (by simp [hrefs]) (fun i hi => ?_) (by simp [State.setBuf])
    have hib : i ≠ b := by
      intro heq
      have hmem := hmine.mem_refs (hmine.held i (hmine.live i hi).1)
      rw [heq, hrefs] at hmem
      exact absurd hmem (Multiset.notMem_zero p)
    simp [State.setBuf, hib]

theorem takes_acquire (hb : b ∈ v.refs) :
    Takes disk0 p (acquire () b) v
      fun _ => { v with held := b :: v.held, changed := v.changed.filter (· ≠ b) } := by
  refine ⟨trivial, fun session s g hc hmine => ?_⟩
  refine Rely.safe_acquire fun s1 g1 hc1 hf => ⟨trivial, fun hnew s2 g2 hc2 hf2 => ⟨rfl, ?_⟩⟩
  have hmine1 := hmine.frame hf
  refine Mine.frame ?_ hf2
  exact
    { nodup := nodup_cons.mpr ⟨hnew, hmine1.nodup⟩
      refs := hmine1.refs
      held := fun i hi => (mem_cons.mp hi).elim (fun heq => heq ▸ hb) (hmine1.held i)
      live := fun i hi => ⟨mem_cons_of_mem b (hmine1.live i hi).1, (hmine1.live i hi).2⟩
      changed := fun i hi => by
        obtain ⟨hchanged, hheld⟩ := hmine1.changed i hi
        have hib : i ≠ b := fun heq => hnew (heq ▸ hheld)
        exact ⟨mem_filter.mpr ⟨hchanged, by simpa using hib⟩, mem_cons_of_mem b hheld⟩
      sought := hmine1.sought }

theorem takes_bget (v : Locals) (blockno : Nat) :
    Takes disk0 p (bget 1 blockno) v fun b =>
      { v with
        held := b :: v.held
        refs := b :: v.refs
        changed := v.changed.filter (· ≠ b)
        sought := some (b, blockno) } := by
  refine (takes_bgetLocked v blockno).bind fun b => ?_
  refine (takes_acquire (.head _)).bind fun _ => ?_
  exact takes_pure b ⟨rfl, rfl, fun _ h => h, fun _ h => h, .inr rfl⟩

theorem iderwBuf_cases {c : Params} {u : Unit} (heq : iderwBuf c b s = .ok (u, s')) :
    ((s.buf b).dirty = true ∧
      s' = { s.setBuf b { s.buf b with dirty := false, valid := true } with
        disk := update s.disk (s.buf b).blockno (s.buf b).data }) ∨
    ((s.buf b).dirty = false ∧ (s.buf b).valid = false ∧
      s' = s.setBuf b { s.buf b with data := s.disk (s.buf b).blockno, valid := true }) := by
  simp only [iderwBuf] at heq
  split at heq
  · cases heq
  rename_i hwork
  split at heq
  · cases heq
  split at heq
  · cases heq
  split at heq
  next hdirty =>
    cases heq
    exact .inl ⟨hdirty, rfl⟩
  next hdirty =>
    cases heq
    exact .inr ⟨by simpa using hdirty, by simpa [hdirty] using hwork, rfl⟩

def Ghost.setChanged (g : Ghost P) (b : Fin NBUF) (o : Option P) : Ghost P :=
  { g with changed := update g.changed b o }

omit [DecidableEq P] in
theorem touch_of {buf : Buf} {o : Option P} (hbuf : s'.buf = update s.buf b buf)
    (hlinks : s'.links = s.links) (hdev : buf.dev = (s.buf b).dev)
    (hblockno : buf.blockno = (s.buf b).blockno) (hrefcnt : buf.refcnt = (s.buf b).refcnt)
    (ho : ∀ q, o = some q → q = p) (hdisk : ∀ n, n ≠ (s.buf b).blockno → s'.disk n = s.disk n)
    (hhistory : ∀ n, n ≠ (s.buf b).blockno →
      contents disk0 s'.history n = contents disk0 s.history n) :
    Touch disk0 p b s g s' (g.setChanged b o) where
  other j hj := by rw [hbuf, update_of_ne hj]
  others j hj := by simp [Ghost.setChanged, hj]
  links := hlinks
  refs := rfl
  dev := by rw [hbuf, update_self, hdev]
  blockno := by rw [hbuf, update_self, hblockno]
  refcnt := by rw [hbuf, update_self, hrefcnt]
  changed q hq := by
    simp only [Ghost.setChanged, update_self] at hq
    exact .inr (ho q hq)
  disk := hdisk
  history := hhistory

theorem Touch.steps (h : Touch disk0 p b s g s' g') (hb : b ∈ held) (hc : Coherent disk0 s' g') :
    Steps disk0 p held s g s' g' :=
  ⟨hc, fun _ _ hq hdisj => h.frame hb hq hdisj⟩

omit [DecidableEq P] in
theorem Mine.touch [DecidableEq P] (h : Mine p v s g) (ht : Touch disk0 p b s g s' g')
    (hb : b ∈ v.held) (hvalid : (s'.buf b).valid = true)
    (hchanged : ∀ i, g'.changed i = some p → i ∈ changed ∧ i ∈ v.held) :
    Mine p { v with live := b :: v.live, changed } s' g' where
  nodup := h.nodup
  refs i := by rw [ht.refs]; exact h.refs i
  held := h.held
  live i hi := by
    by_cases hib : i = b
    · rw [hib]; exact ⟨hb, hvalid⟩
    · rw [ht.other i hib]
      exact h.live i (mem_of_ne_of_mem hib hi)
  changed := hchanged
  sought i n hin := by rw [ht.blockno_eq]; exact h.sought i n hin

theorem Mine.changed_none (h : Mine p v s g) (b i : Fin NBUF)
    (hi : (g.setChanged b none).changed i = some p) :
    i ∈ v.changed.filter (· ≠ b) ∧ i ∈ v.held := by
  by_cases hib : i = b
  · simp [Ghost.setChanged, hib] at hi
  · have hold : g.changed i = some p := by simpa [Ghost.setChanged, hib] using hi
    obtain ⟨hchanged, hheld⟩ := h.changed i hold
    exact ⟨mem_filter.mpr ⟨hchanged, by simpa using hib⟩, hheld⟩

theorem Mine.changed_some (h : Mine p v s g) (hb : b ∈ v.held) (i : Fin NBUF)
    (hi : (g.setChanged b (some p)).changed i = some p) : i ∈ b :: v.changed ∧ i ∈ v.held := by
  by_cases hib : i = b
  · rw [hib]; exact ⟨.head _, hb⟩
  · have hold : g.changed i = some p := by simpa [Ghost.setChanged, hib] using hi
    obtain ⟨hchanged, hheld⟩ := h.changed i hold
    exact ⟨mem_cons_of_mem b hchanged, hheld⟩

/-- **`iderw`** leaves a valid buffer that agrees with the disk. -/
theorem takes_iderw (c : Params) (hb : b ∈ v.held) :
    Takes disk0 p (iderw c b) v
      fun _ => { v with live := b :: v.live, changed := v.changed.filter (· ≠ b) } := by
  have hpin : ∀ s u s', iderwBuf c b s = .ok (u, s') → Pinned s s' := by
    intro s u s' heq
    rcases iderwBuf_cases heq with ⟨-, rfl⟩ | ⟨-, -, rfl⟩
    · exact pinned_of_update rfl fun _ => ⟨rfl, rfl, fun _ => rfl⟩
    · exact pinned_of_update rfl fun _ => ⟨rfl, rfl, fun _ => rfl⟩
  refine takes_atomic (fun _ => rfl) hpin fun s g hc hmine u s' heq => ⟨g.setChanged b none, ?_⟩
  have hp : p ∈ g.refs b := hmine.mem_refs (hmine.held b hb)
  have hdev : (s.buf b).dev = 1 := hc.dev_of_refs hp
  rcases iderwBuf_cases heq with ⟨hdirty, rfl⟩ | ⟨hdirty, hinvalid, rfl⟩
  · -- write the buffer out
    have ht : Touch disk0 p b s g
        { s.setBuf b { s.buf b with dirty := false, valid := true } with
          disk := update s.disk (s.buf b).blockno (s.buf b).data }
        (g.setChanged b none) := by
      refine touch_of rfl rfl rfl rfl rfl ?_ ?_ ?_
      · simp
      · intro n hn
        simp [hn]
      · exact fun _ _ => rfl
    refine ⟨ht.steps hb (ht.coherent hc hp ?_ ?_ (fun _ _ => ?_) hc.plain),
      hmine.touch ht hb ?_ (hmine.changed_none b)⟩
    · simp [State.setBuf]
    · simpa [State.setBuf] using hc.cached b (hc.dirty b hdirty)
    · simp [State.setBuf]
    · simp [State.setBuf]
  · -- read it in; no other buffer holds the block, so the disk is up to date
    have hdisk : s.disk (s.buf b).blockno = contents disk0 s.history (s.buf b).blockno := by
      refine hc.uncached _ fun i hv hblockno => ?_
      have hib := hc.unique i b (hc.dev_of_valid hv) hdev hblockno
      rw [hib, hinvalid] at hv
      cases hv
    have ht : Touch disk0 p b s g
        (s.setBuf b { s.buf b with data := s.disk (s.buf b).blockno, valid := true })
        (g.setChanged b none) := by
      refine touch_of rfl rfl rfl rfl rfl ?_ ?_ ?_
      · simp
      · exact fun _ _ => rfl
      · exact fun _ _ => rfl
    refine ⟨ht.steps hb (ht.coherent hc hp ?_ ?_ (fun _ _ => ?_) hc.plain),
      hmine.touch ht hb ?_ (hmine.changed_none b)⟩
    · simp [State.setBuf]
    · simpa [State.setBuf] using hdisk
    · simp [State.setBuf]
    · simp [State.setBuf]

theorem takes_noteRead (hb : b ∈ v.live) (hsought : v.sought = some (b, blockno)) :
    Takes disk0 p (modify (State.noteRead blockno b)) v fun _ => v := by
  refine takes_modify rfl Pinned.refl fun s g hc hmine => ⟨g, ?_⟩
  obtain ⟨hheld, hvalid⟩ := hmine.live b hb
  have hp : p ∈ g.refs b := hmine.mem_refs (hmine.held b hheld)
  have hread : contents disk0 s.history blockno = (s.buf b).data := by
    rw [hc.cached b hvalid, (hmine.sought b blockno hsought).2]
  have ht : Touch disk0 p b s g (s.noteRead blockno b) g :=
    ⟨fun _ _ => rfl, fun _ _ => rfl, rfl, rfl, rfl, rfl, rfl, fun _ h => .inl h, fun _ _ => rfl,
      fun _ _ => rfl⟩
  refine ⟨ht.steps hheld (ht.coherent hc hp hvalid (hc.cached b hvalid) (hc.clean b hvalid)
    ⟨hread, hc.plain⟩), ?_⟩
  exact ⟨hmine.nodup, hmine.refs, hmine.held, hmine.live, hmine.changed, hmine.sought⟩

theorem takes_bread (c : Params) (held changed : List (Fin NBUF)) (blockno : Nat) :
    Takes disk0 p (bread c 1 blockno) (.of held changed)
      fun b => .of (b :: held) (changed.filter (· ≠ b)) := by
  refine (takes_bget _ blockno).bind fun b => ?_
  -- from here on `b` is locked; it is valid if the flag says so, and after `iderw` anyway
  have hread : Takes disk0 p (reads fun s => (s.buf b).valid)
      ⟨b :: held, b :: held, held, changed.filter (· ≠ b), some (b, blockno)⟩
      (fun valid => ⟨b :: held, b :: held, if valid then b :: held else held,
        changed.filter (· ≠ b), some (b, blockno)⟩) := by
    refine takes_reads (fun _ => rfl) fun s g hc hmine => ?_
    refine ⟨hmine.nodup, hmine.refs, hmine.held, fun i hi => ?_, hmine.changed, hmine.sought⟩
    by_cases hv : (s.buf b).valid = true
    · simp only [hv] at hi
      rcases mem_cons.mp hi with rfl | hi
      · exact ⟨.head _, hv⟩
      · exact hmine.live i hi
    · simp only [hv] at hi
      exact hmine.live i hi
  refine hread.bind fun valid => ?_
  have hload : Takes disk0 p (onlyIf (valid = false) (iderw c b))
      ⟨b :: held, b :: held, if valid then b :: held else held, changed.filter (· ≠ b),
        some (b, blockno)⟩
      (fun _ => ⟨b :: held, b :: held, b :: held, changed.filter (· ≠ b), some (b, blockno)⟩) := by
    refine takes_onlyIf (fun hv => ?_) (fun hv => ?_)
    · refine (takes_iderw c (.head _)).forget fun _ => ?_
      exact ⟨rfl, rfl, fun i hi => by simpa [hv] using hi, fun i hi => (mem_filter.mp hi).1,
        .inr rfl⟩
    · exact ⟨rfl, rfl, fun i hi => by simpa [hv] using hi, fun i hi => hi, .inr rfl⟩
  refine hload.bind fun _ => ?_
  refine (takes_noteRead (.head _) rfl).bind fun _ => ?_
  exact takes_pure b ⟨rfl, rfl, fun _ h => h, fun _ h => h, .inl rfl⟩

theorem takes_setDirty (hb : b ∈ held) {f : State → State}
    (hbuf : ∀ s, (f s).buf = update s.buf b { s.buf b with dirty := true })
    (hlinks : ∀ s, (f s).links = s.links) (hdisk : ∀ s, (f s).disk = s.disk)
    (hhistory : ∀ s, (f s).history = s.history) :
    Takes disk0 p (modify f) (.of held changed)
      fun _ => .of held (changed.filter (· ≠ b)) := by
  have htouch : Takes disk0 p (modify f) (.of held changed) fun _ =>
      { Locals.of held changed with live := b :: held, changed := changed.filter (· ≠ b) } := by
    refine takes_modify rfl (fun s => pinned_of_update (hbuf s) fun _ => ⟨rfl, rfl, id⟩)
      fun s g hc hmine => ⟨g.setChanged b none, ?_⟩
    have hp : p ∈ g.refs b := hmine.mem_refs hb
    have hvalid : (s.buf b).valid = true := (hmine.live b hb).2
    have ht : Touch disk0 p b s g (f s) (g.setChanged b none) := by
      refine touch_of (hbuf s) (hlinks s) rfl rfl rfl ?_ ?_ ?_
      · simp
      · intro n _
        rw [hdisk]
      · intro n _
        rw [hhistory]
    have hself : (f s).buf b = { s.buf b with dirty := true } := by rw [hbuf, update_self]
    have hvalid' : ((f s).buf b).valid = true := by rw [hself]; exact hvalid
    refine ⟨ht.steps hb (ht.coherent hc hp hvalid' ?_ (fun hd => ?_) ?_),
      hmine.touch ht hb hvalid' (hmine.changed_none b)⟩
    · rw [hself, hhistory]; exact hc.cached b hvalid
    · rw [hself] at hd; cases hd
    · rw [hhistory]; exact hc.plain
  exact htouch.forget fun _ => ⟨rfl, rfl, fun i hi => mem_cons_of_mem b hi, fun _ h => h, .inl rfl⟩

theorem takes_bwrite (c : Params) (hb : b ∈ held) :
    Takes disk0 p (bwrite c b) (.of held changed)
      fun _ => .of held (changed.filter (· ≠ b)) := by
  have hpin : Takes disk0 p (modify (State.setDirty b)) (.of held changed)
      fun _ => .of held (changed.filter (· ≠ b)) :=
    takes_setDirty hb (fun _ => rfl) (fun _ => rfl) (fun _ => rfl) fun _ => rfl
  refine hpin.bind fun _ => ?_
  refine (takes_iderw c hb).forget fun _ => ?_
  exact ⟨rfl, rfl, fun i hi => mem_cons_of_mem b hi, fun i hi => (mem_filter.mp hi).1, .inl rfl⟩

variable (hb : b ∈ held)
include hb

/-- **Changing a buffer** is a write to its block. -/
theorem takes_store (data : State → Block) :
    Takes disk0 p (store b data) (.of held changed) fun _ => .of held (b :: changed) := by
  have htouch : Takes disk0 p (store b data) (.of held changed) fun _ =>
      { Locals.of held changed with live := b :: held, changed := b :: changed } := by
    refine takes_modify rfl (fun s => pinned_of_update rfl fun _ => ⟨rfl, rfl, id⟩)
      fun s g hc hmine => ⟨g.setChanged b (some p), ?_⟩
    have hp : p ∈ g.refs b := hmine.mem_refs hb
    have ht : Touch disk0 p b s g (s.setData b (data s)) (g.setChanged b (some p)) := by
      refine touch_of rfl rfl rfl rfl rfl ?_ ?_ ?_
      · rintro q ⟨⟩
        rfl
      · exact fun _ _ => rfl
      · intro n hn
        simp [State.setData, contents, hn]
    have hvalid : ((s.setData b (data s)).buf b).valid = true := by
      simpa [State.setData, State.setBuf] using (hmine.live b hb).2
    refine ⟨ht.steps hb (ht.coherent hc hp hvalid ?_ (fun _ hg => ?_) hc.plain),
      hmine.touch ht hb hvalid (hmine.changed_some hb)⟩
    · simp [State.setData, State.setBuf, contents]
    · simp [Ghost.setChanged] at hg
  exact htouch.forget fun _ => ⟨rfl, rfl, fun i hi => mem_cons_of_mem b hi, fun _ h => h, .inl rfl⟩

theorem takes_release (hchanged : b ∉ changed) :
    Takes disk0 p (release b) (.of held changed)
      fun _ => ⟨held.erase b, held, held.erase b, changed, none⟩ := by
  refine ⟨trivial, fun session s g hc hmine => ?_⟩
  refine Rely.safe_release hb fun s1 g1 hc1 hf s2 g2 hc2 hf2 => ⟨rfl, ?_⟩
  have hmine1 := hmine.frame hf
  refine Mine.frame ?_ hf2
  exact
    { nodup := hmine1.nodup.erase b
      refs := hmine1.refs
      held := fun i hi => mem_of_mem_erase hi
      live := fun i hi => ⟨hi, (hmine1.live i (mem_of_mem_erase hi)).2⟩
      changed := fun i hi => by
        obtain ⟨hmem, hheld⟩ := hmine1.changed i hi
        have hib : i ≠ b := fun heq => hchanged (heq ▸ hmem)
        exact ⟨hmem, (mem_erase_of_ne hib).mpr hheld⟩
      sought := nofun }

theorem takes_unref (hchanged : b ∉ changed) :
    Takes disk0 p (modify (unref b)) ⟨held.erase b, held, held.erase b, changed, none⟩
      fun _ => .of (held.erase b) changed := by
  refine takes_modify rfl (fun s => pinned_of_update rfl fun _ => ⟨rfl, rfl, id⟩)
    fun s g hc hmine => ⟨g.setRefs b ((g.refs b).erase p), ?_, ?_⟩
  · have hp : p ∈ g.refs b := hmine.mem_refs hb
    have hkeep : ∀ q, g.changed b = some q → q ∈ (g.refs b).erase p := by
      intro q hq
      have hqp : q ≠ p := fun heq => hchanged (hmine.changed b (heq ▸ hq)).1
      exact (Multiset.mem_erase_of_ne hqp).mpr (hc.changed b q hq)
    have hcard : (s.buf b).refcnt - 1 = ((g.refs b).erase p).card := by
      rw [Multiset.card_erase_of_mem hp, hc.refcnt b]
      rfl
    constructor
    · rw [unref, hcard]
      refine hc.recount (hc.dev_of_refs hp) hkeep ?_
      split
      · exact hc.ringed.front b rfl
      · exact hc.ringed
    · intro q held' hq _
      exact frame_recount (Multiset.count_erase_of_ne hq _)
  · have hvalid : ∀ i, ((unref b s).buf i).valid = (s.buf i).valid := by
      intro i
      simp [unref, State.setBuf, update_refcnt]
    exact
      { nodup := hmine.nodup
        refs := fun i => by
          by_cases hib : i = b
          · subst hib
            simp only [Ghost.setRefs, update_self, Multiset.count_erase_self, hmine.refs,
              Locals.of, count_erase_self]
          · simp only [Ghost.setRefs, update_of_ne hib, hmine.refs, Locals.of,
              count_erase_of_ne hib]
        held := fun i hi => hi
        live := fun i hi => by rw [hvalid]; exact hmine.live i hi
        changed := hmine.changed
        sought := by rintro _ _ ⟨⟩ }

theorem takes_brelse (hchanged : b ∉ changed) :
    Takes disk0 p (brelse b) (.of held changed) fun _ => .of (held.erase b) changed :=
  (takes_release hb hchanged).bind fun _ => takes_unref hb hchanged

omit hb

/-! ### `log.c` and sessions -/

theorem takes_logWrite (c : Params) (hb : b ∈ held) :
    Takes disk0 p (logWrite c b) (.of held changed)
      fun _ => .of held (changed.filter (· ≠ b)) := by
  have hchecks : Takes disk0 p (atomic (logWriteChecks c)) (.of held changed)
      fun _ => .of held changed := by
    have hsame : ∀ s u s', logWriteChecks c s = .ok (u, s') → s' = s := by
      intro s u s' heq
      simp only [logWriteChecks] at heq
      split at heq
      · cases heq
      split at heq
      · cases heq
      · cases heq; rfl
    refine takes_atomic (fun _ => rfl) (fun s u s' heq => hsame s u s' heq ▸ Pinned.refl s)
      fun s g hc hmine u s' heq => ⟨g, ?_⟩
    obtain rfl := hsame s u s' heq
    exact ⟨⟨hc, fun q held' _ _ => Frame.refl q held' s' g⟩, hmine⟩
  exact hchecks.bind fun _ =>
    takes_setDirty hb (fun _ => rfl) (fun _ => rfl) (fun _ => rfl) fun _ => rfl

theorem takes_log {f : State → State} (hbuf : ∀ s, (f s).buf = s.buf)
    (hlinks : ∀ s, (f s).links = s.links) (hdisk : ∀ s, (f s).disk = s.disk)
    (hhistory : ∀ s, (f s).history = s.history) : Takes disk0 p (modify f) v fun _ => v := by
  refine takes_modify rfl (fun s i _ => by rw [hbuf]; exact ⟨rfl, rfl, id⟩)
    fun s g hc hmine => ⟨g, ⟨?_, fun q held' _ _ => ?_⟩, ?_⟩
  · exact hc.congr (hbuf s) (hlinks s) (hdisk s) (hhistory s)
  · constructor
    · exact fun _ => rfl
    · intro i _; rw [hbuf]; exact ⟨rfl, rfl⟩
    · intro i _ _; rw [hbuf]
    · exact fun _ h => h
  · constructor
    · exact hmine.nodup
    · exact hmine.refs
    · exact hmine.held
    · rw [hbuf]; exact hmine.live
    · exact hmine.changed
    · rw [hbuf]; exact hmine.sought

theorem takes_look {α : Type} (f : State → α) : Takes disk0 p (reads f) v fun _ => v :=
  takes_reads (fun _ => rfl) fun _ _ _ hmine => hmine

theorem Locals.of_forgets {changed' : List (Fin NBUF)} (h : ∀ i ∈ changed, i ∈ changed') :
    (Locals.of held changed).Forgets (.of held changed') :=
  ⟨rfl, rfl, fun _ hi => hi, h, .inl rfl⟩

/-- What is left of the changes after two buffers have been read and one of them rewritten. -/
theorem mem_of_rewritten {a d i : Fin NBUF}
    (hi : i ∈ (d :: (changed.filter (· ≠ a)).filter (· ≠ b)).filter (· ≠ d)) : i ∈ changed := by
  simp only [mem_filter, mem_cons, decide_eq_true_eq] at hi
  exact (hi.1.resolve_left hi.2).1.1

variable (c : Params)
include c

theorem takes_writeLog (held changed : List (Fin NBUF)) :
    ∀ fuel tail, Takes disk0 p (writeLog c fuel tail) (.of held changed)
      fun _ => .of held changed := by
  intro fuel
  induction fuel generalizing changed with
  | zero => exact fun tail => takes_panic _
  | succ fuel ih =>
    intro tail
    refine (takes_look State.lh).bind fun lh => ?_
    split
    · refine (takes_bread c held changed _).bind fun toBuf => ?_
      refine (takes_look _).bind fun blockno => ?_
      refine (takes_bread c _ _ blockno).bind fun fromBuf => ?_
      have hto : toBuf ∈ fromBuf :: toBuf :: held := by simp
      refine (takes_store hto _).bind fun _ => ?_
      refine (takes_bwrite c hto).bind fun _ => ?_
      refine (takes_brelse mem_cons_self (by simp)).bind fun _ => ?_
      rw [erase_cons_head]
      refine (takes_brelse mem_cons_self (by simp)).bind fun _ => ?_
      rw [erase_cons_head]
      exact (ih _ _).forget fun _ => Locals.of_forgets fun _ => mem_of_rewritten
    · exact takes_pure () (Locals.of_forgets fun _ hi => hi)

theorem takes_installTrans (held changed : List (Fin NBUF)) :
    ∀ fuel tail, Takes disk0 p (installTrans c fuel tail) (.of held changed)
      fun _ => .of held changed := by
  intro fuel
  induction fuel generalizing changed with
  | zero => exact fun tail => takes_panic _
  | succ fuel ih =>
    intro tail
    refine (takes_look State.lh).bind fun lh => ?_
    split
    · refine (takes_bread c held changed _).bind fun lbuf => ?_
      refine (takes_look _).bind fun blockno => ?_
      refine (takes_bread c _ _ blockno).bind fun dbuf => ?_
      refine (takes_store (.head _) _).bind fun _ => ?_
      refine (takes_bwrite c (.head _)).bind fun _ => ?_
      refine (takes_brelse (by simp) (by simp)).bind fun _ => ?_
      -- `lbuf` is released first
      have herase : (dbuf :: lbuf :: held).erase lbuf = dbuf :: held := by
        rw [erase_cons]
        split
        next heq => rw [beq_iff_eq.mp heq]
        · rw [erase_cons_head]
      rw [herase]
      refine (takes_brelse mem_cons_self (by simp)).bind fun _ => ?_
      rw [erase_cons_head]
      exact (ih _ _).forget fun _ => Locals.of_forgets fun _ => mem_of_rewritten
    · exact takes_pure () (Locals.of_forgets fun _ hi => hi)

theorem takes_writeHead (held changed : List (Fin NBUF)) :
    Takes disk0 p (writeHead c) (.of held changed) fun _ => .of held changed := by
  refine (takes_bread c held changed _).bind fun buf => ?_
  refine (takes_store (.head _) _).bind fun _ => ?_
  refine (takes_bwrite c (.head _)).bind fun _ => ?_
  have hrelse : Takes disk0 p (brelse buf)
      (.of (buf :: held) ((buf :: changed.filter (· ≠ buf)).filter (· ≠ buf)))
      fun _ => .of ((buf :: held).erase buf) ((buf :: changed.filter (· ≠ buf)).filter (· ≠ buf)) :=
    takes_brelse mem_cons_self (by simp)
  rw [erase_cons_head] at hrelse
  refine hrelse.forget fun _ => Locals.of_forgets fun i hi => ?_
  simp only [mem_filter, mem_cons, decide_eq_true_eq] at hi
  exact (hi.1.resolve_left hi.2).1

/-- **A commit** is a use of the cache like any other. -/
theorem takes_commit (held changed : List (Fin NBUF)) (fuel : Nat) :
    Takes disk0 p (commit c fuel) (.of held changed) fun _ => .of held changed := by
  refine (takes_look State.lh).bind fun lh => ?_
  refine takes_onlyIf (fun _ => ?_) fun _ => Locals.of_forgets fun _ hi => hi
  refine (takes_writeLog c held changed fuel 0).bind fun _ => ?_
  refine (takes_writeHead c held changed).bind fun _ => ?_
  refine (takes_installTrans c held changed fuel 0).bind fun _ => ?_
  have hclear : Takes disk0 p (modify fun s => { s with lh := { s.lh with n := 0 } })
      (.of held changed) fun _ => .of held changed :=
    takes_log (fun _ => rfl) (fun _ => rfl) (fun _ => rfl) fun _ => rfl
  exact hclear.bind fun _ => takes_writeHead c held changed

/-- **Every session** keeps the discipline and ends with nothing held. -/
theorem takes_session (session : Session held changed) :
    Takes disk0 p (session.prog c) (.of held changed) fun _ => .of [] [] := by
  induction session with
  | done hheld hchanged =>
    subst hheld hchanged
    exact takes_pure () (Locals.of_forgets fun _ hi => hi)
  | @bread held changed blockno k ih =>
    have hread : Takes disk0 p (bread c 1 blockno) (.of held changed)
        fun b => .of (b :: held) changed :=
      (takes_bread c held changed blockno).forget fun b =>
        Locals.of_forgets fun i hi => (mem_filter.mp hi).1
    refine hread.bind fun b => ?_
    exact (takes_look _).bind fun data => ih b data
  | change b hb data k ih => exact (takes_store hb _).bind fun _ => ih
  | logWrite b hb k ih => exact (takes_logWrite c hb).bind fun _ => ih
  | bwrite b hb k ih => exact (takes_bwrite c hb).bind fun _ => ih
  | brelse b hb hc k ih => exact (takes_brelse hb hc).bind fun _ => ih
  | beginOp k ih | endOp k ih =>
    exact Takes.bind (takes_log (fun _ => rfl) (fun _ => rfl) (fun _ => rfl) fun _ => rfl)
      fun _ => ih
  | commit fuel k ih => exact (takes_commit c _ _ fuel).bind fun _ => ih

end

/-! ### The cache is transparent -/

section

variable {P : Type} [DecidableEq P] {c : Params} {disk0 : Nat → Block}
  {x : Conf P State Unit (Fin NBUF) (Session [] [])}

theorem coherent_of_reached (hx : (system P c disk0).Reached x) :
    ∃ g : Ghost P, Coherent disk0 x.shared g := by
  obtain ⟨g, hinv, -⟩ : (discipline P disk0).Covered x := by
    refine Rely.covered_of_reachable ?_ ?_ hx
    · intro p session s g hinv hidle _
      exact ((takes_session c session).2 session s g hinv hidle).mono fun _ _ _ _ _ hdone => hdone
    rintro s rfl
    refine ⟨⟨fun _ => 0, fun _ => none⟩, coherent_binit disk0, fun p => ?_⟩
    exact
      { nodup := nodup_nil
        refs := fun _ => rfl
        held := fun i hi => hi
        live := nofun
        changed := nofun
        sought := nofun }
  exact ⟨g, hinv⟩

def Buf.InUse (b : Buf) : Prop := b.refcnt ≠ 0 ∨ b.valid = true

omit [DecidableEq P] in
theorem Coherent.dev_of_inUse {s : State} {g : Ghost P} (h : Coherent disk0 s g) {i : Fin NBUF}
    (hi : (s.buf i).InUse) : (s.buf i).dev = 1 := by
  by_contra hdev
  obtain ⟨hrefcnt, hvalid⟩ := h.unused i hdev
  rcases hi with hi | hi
  · exact hi hrefcnt
  · rw [hvalid] at hi; cases hi

/-- **Buffer cache transparency.** Whatever sessions the processes run and however they
interleave: the list from `bcache.head` is circular and has every buffer once; no two buffers
in use hold the same block; no step recycles a pinned buffer; and every `bread` has returned
what was last written to its block, as valid buffers still hold it. -/
theorem bcache_transparent (hx : (system P c disk0).Reached x) :
    (∃ l : List (Fin NBUF), x.shared.links.Circle none (l.map some) ∧
      l.Perm (List.finRange NBUF)) ∧
    (∀ i j, (x.shared.buf i).InUse → (x.shared.buf j).InUse →
      (x.shared.buf i).dev = (x.shared.buf j).dev →
      (x.shared.buf i).blockno = (x.shared.buf j).blockno → i = j) ∧
    (∀ a x', (system P c disk0).step x a = some x' → Pinned x.shared x'.shared) ∧
    Plain disk0 x.shared.history ∧
    ∀ i, (x.shared.buf i).valid = true →
      (x.shared.buf i).data = contents disk0 x.shared.history (x.shared.buf i).blockno := by
  obtain ⟨g, hc⟩ := coherent_of_reached hx
  refine ⟨?_, fun i j hi hj _ hblockno => ?_, fun a x' hs => ?_, hc.plain, hc.cached⟩
  · obtain ⟨l, hl, hall⟩ := hc.ringed
    refine ⟨l, hl, ?_⟩
    have hnodup : l.Nodup := (nodup_cons.mp hl.nodup).2.of_map some
    rw [perm_ext_iff_of_nodup hnodup (nodup_finRange NBUF)]
    exact fun i => ⟨fun _ => mem_finRange i, fun _ => hall i⟩
  · exact hc.unique i j (hc.dev_of_inUse hi) (hc.dev_of_inUse hj) hblockno
  · refine guaranteed_step Pinned.refl (fun p session => ?_) hx hs
    have htakes : Takes disk0 p (session.prog c) (.of [] []) fun _ => .of [] [] :=
      takes_session c session
    exact htakes.1

end

/-! ### A run: a block is changed, committed and read again -/

def rewriteBlock : Session [] [] :=
  .beginOp <| .bread 5 fun b _ =>
    .change b List.mem_cons_self (fun _ => 7) <|
    .logWrite b (.head _) <|
    .brelse b List.mem_cons_self (by simp) <|
    .endOp <| .commit 2 <| .bread 5 fun b' _ =>
      .brelse b' List.mem_cons_self (by simp) <| .done (by simp) (by simp)

def lastRead : List (Access Nat Block) → Option (Nat × UInt8)
  | .read n d :: _ => some (n, Bytes.byteAt d 0)
  | .write _ _ :: h => lastRead h
  | [] => none

theorem bcache_transparent_rewrite :
    ∃ x, (system (Fin 2) ⟨1000, 2, 30⟩ fun _ _ => 0).Reached x ∧
      lastRead x.shared.history = some (5, 7) ∧ x.shared.history.length = 13 ∧
      Plain (fun _ _ => 0) x.shared.history := by
  have hinit : (system (Fin 2) ⟨1000, 2, 30⟩ fun _ _ => 0).Reached
      (Conf.idle (binit fun _ _ => 0)) := .init ⟨_, rfl, rfl⟩
  obtain ⟨x, hx, hlast, hlength⟩ := hinit.run_decide
    (.call 0 rewriteBlock :: List.replicate 79 (.run 0))
    (P := fun x => lastRead x.shared.history = some (5, 7) ∧ x.shared.history.length = 13)
    (by decide +kernel)
  exact ⟨x, hx, hlast, hlength, (bcache_transparent hx).2.2.2.1⟩

end Xv6.Bcache
