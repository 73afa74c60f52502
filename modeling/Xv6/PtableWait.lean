import Xv6.PtableShape

/-!
**No child's exit is lost.**

A process that sleeps in `wait` or `time` has a child, none of its children is a ZOMBIE, and
it has not been killed (`Waits`). `exit` wakes the parent in the same section in which it
makes the process a ZOMBIE, and wakes init when it passes a ZOMBIE on to it; `kill` wakes whom
it marks; and a child slot does not go away but by the hand of its parent.

Every process is reaped at most once (`ReapedOnce`): its slot is UNUSED then, and the next
process in it is another one.
-/

namespace Xv6.Ptable

variable {t t' : Table} {p : Fin NPROC} {e : Proc}

/-- Process `p` sleeps in `wait` or `time`. -/
def Table.Waiting (t : Table) (p : Fin NPROC) : Prop :=
  (t.proc p).state = .SLEEPING ∧ (t.proc p).chan = some (.proc p)

/-- **Whoever sleeps in `wait` has something to wait for.** -/
structure Waits (t : Table) : Prop where
  /-- Only `wait` and `time` sleep on a `struct proc`, their own. -/
  own : ∀ p q, (t.proc p).state = .SLEEPING → (t.proc p).chan = some (.proc q) → q = p
  child : ∀ p, t.Waiting p → ∃ c, (t.proc c).parent = some p
  zombie : ∀ p, t.Waiting p → ∀ c, (t.proc c).parent = some p → (t.proc c).state ≠ .ZOMBIE
  killed : ∀ p, t.Waiting p → (t.proc p).killed = false

variable (h : Waits t)
include h

/-- A step in which nobody falls asleep in `wait`, nobody loses a child, and no sleeper's child
becomes a ZOMBIE. -/
theorem Waits.keep
    (hsleep : ∀ p q, (t'.proc p).state = .SLEEPING → (t'.proc p).chan = some (.proc q) →
      (t.proc p).state = .SLEEPING ∧ (t.proc p).chan = some (.proc q) ∧
        (t'.proc p).killed = (t.proc p).killed)
    (hchild : ∀ p, t'.Waiting p → ∀ c, (t.proc c).parent = some p → (t'.proc c).parent = some p)
    (hzombie : ∀ p, t'.Waiting p → ∀ c, (t'.proc c).parent = some p →
      (t'.proc c).state = .ZOMBIE → (t.proc c).parent = some p ∧ (t.proc c).state = .ZOMBIE) :
    Waits t' := by
  have hwait : ∀ p, t'.Waiting p → t.Waiting p := by
    intro p hp
    obtain ⟨hs, hchan, -⟩ := hsleep p p hp.1 hp.2
    exact ⟨hs, hchan⟩
  constructor
  case own =>
    intro p q hs hchan
    obtain ⟨hs', hchan', -⟩ := hsleep p q hs hchan
    exact h.own p q hs' hchan'
  case child =>
    intro p hp
    obtain ⟨c, hc⟩ := h.child p (hwait p hp)
    exact ⟨c, hchild p hp c hc⟩
  case zombie =>
    intro p hp c hc hz
    obtain ⟨hc', hz'⟩ := hzombie p hp c hc hz
    exact h.zombie p (hwait p hp) c hc' hz'
  case killed =>
    intro p hp
    rw [(hsleep p p hp.1 hp.2).2.2]
    exact h.killed p (hwait p hp)

/-- One slot changes, but not whose child it is; it is not asleep in `wait` and not a new
ZOMBIE. -/
theorem Waits.set (hparent : e.parent = (t.proc p).parent)
    (hsleep : e.state = .SLEEPING → ∀ q, e.chan ≠ some (.proc q)) (hzombie : e.state ≠ .ZOMBIE) :
    Waits (t.set p e) := by
  have hproc : ∀ q, q ≠ p → (t.set p e).proc q = t.proc q := by
    intro q hq
    simp [Table.set, hq]
  have hself : (t.set p e).proc p = e := by simp [Table.set]
  have hparents : ∀ c, ((t.set p e).proc c).parent = (t.proc c).parent := by
    intro c
    by_cases hc : c = p
    · rw [hc, hself, hparent]
    · rw [hproc c hc]
  apply h.keep
  · intro q q' hs hchan
    by_cases hq : q = p
    · rw [hq, hself] at hs hchan
      exact absurd hchan (hsleep hs q')
    · rw [hproc q hq] at hs hchan ⊢
      exact ⟨hs, hchan, rfl⟩
  · intro q _ c hc
    rw [hparents, hc]
  · intro q _ c hc hz
    rw [hparents] at hc
    by_cases hcp : c = p
    · rw [hcp, hself] at hz
      exact absurd hz hzombie
    · rw [hproc c hcp] at hz
      exact ⟨hc, hz⟩

theorem Waits.congr (hproc : t'.proc = t.proc) : Waits t' := by
  apply h.keep
  · rw [hproc]; exact fun _ _ hs hchan => ⟨hs, hchan, rfl⟩
  · rw [hproc]; exact fun _ _ _ hc => hc
  · rw [hproc]; exact fun _ _ _ hc hz => ⟨hc, hz⟩

theorem Waits.wakeup1 (chan : Option Chan) : Waits (wakeup1 chan t) := by
  have hwander : Wander t (Ptable.wakeup1 chan t) := wander_wakeup1 chan
  apply h.keep
  · intro p q hs hchan
    rcases wakeup1_proc chan t p with heq | ⟨-, heq⟩
    · rw [heq] at hs hchan ⊢; exact ⟨hs, hchan, rfl⟩
    · rw [heq] at hs; cases hs
  · intro p _ c hc
    rw [hwander.parent, hc]
  · intro p _ c hc hz
    rw [hwander.parent] at hc
    exact ⟨hc, (hwander.state_iff id c).mp hz⟩

theorem Waits.kill (pid : Int) {named : Fin NPROC → Bool} :
    Waits { (kill pid t).1 with named := named } := by
  have hkill : Waits (Ptable.kill pid t).1 := by
    simp only [Ptable.kill]
    split
    next p _ =>
      by_cases hs : (t.proc p).state = .SLEEPING
      · apply h.set
        · rfl
        · simp [hs]
        · simp [hs]
      · -- a ZOMBIE may be marked too
        have hproc : ∀ q, ((t.set p { t.proc p with
            killed := true
            state := if (t.proc p).state = .SLEEPING then .RUNNABLE else (t.proc p).state }).proc
            q) = { t.proc q with killed := if q = p then true else (t.proc q).killed } := by
          intro q
          by_cases hq : q = p
          · subst hq; simp [Table.set, hs]
          · simp [Table.set, hq]
        apply h.keep
        · intro q q' hq hchan
          rw [hproc] at hq hchan ⊢
          have hqp : q ≠ p := fun heq => hs (heq ▸ hq)
          exact ⟨hq, hchan, if_neg hqp⟩
        · intro q _ c hc
          rw [hproc]; exact hc
        · intro q _ c hc hz
          rw [hproc] at hc hz
          exact ⟨hc, hz⟩
    · exact h
  exact hkill.congr rfl

/-- **`exit`** wakes whoever waits for it. -/
theorem Waits.exit (hshape : Shape t) (hr : t.Runs p) (hroot : p ≠ t.initproc) (he : Exited p t t') :
    Waits t' := by
  -- a sleeper is not `p`, and was asleep before
  have hasleep : ∀ q, (t'.proc q).state = .SLEEPING → q ≠ p ∧ (t.proc q).state = .SLEEPING := by
    intro q hs
    have hqp : q ≠ p := by
      intro heq
      rw [heq, he.self] at hs
      cases hs
    rcases he.state q hqp with heq | ⟨heq, -⟩
    · exact ⟨hqp, heq ▸ hs⟩
    · exact ⟨hqp, heq⟩
  apply h.keep
  · intro q q' hs hchan
    obtain ⟨-, hchan', hkilled⟩ := he.same q
    rw [hchan'] at hchan
    exact ⟨(hasleep q hs).2, hchan, hkilled⟩
  · intro q hq c hc
    have hqp := (hasleep q hq.1).1
    rw [he.parent, hc, if_neg fun heq => hqp (Option.some.inj heq)]
  · intro q hq c hc hz
    have hchan : (t.proc q).chan = some (.proc q) := by rw [← (he.same q).2.1]; exact hq.2
    rw [he.parent] at hc
    by_cases hcp : c = p
    · -- `p` itself: its parent is awake
      exfalso
      obtain ⟨r, hparent, -, hlt⟩ := hshape.family p hroot (.inl (alive_of_runs hr))
      have hrp : r ≠ p := fun heq => absurd hlt (by rw [heq]; exact Nat.lt_irrefl _)
      rw [hcp, hparent, if_neg fun heq => hrp (Option.some.inj heq)] at hc
      cases hc
      exact he.parentAwake q hparent hq.1 hchan
    · have hz' : (t.proc c).state = .ZOMBIE := by
        rcases he.state c hcp with heq | ⟨-, heq⟩
        · rw [← heq]; exact hz
        · rw [heq] at hz; cases hz
      by_cases hparent : (t.proc c).parent = some p
      · -- an orphan that is a ZOMBIE already: init is awake
        exfalso
        rw [if_pos hparent] at hc
        cases hc
        exact he.initAwake c hparent hz' hq.1 hchan
      · rw [if_neg hparent] at hc
        exact ⟨hc, hz'⟩

theorem Waits.reap {c : Fin NPROC} (hr : t.Runs p) (hparent : (t.proc c).parent = some p) :
    Waits ((Ptable.reap c t).goto p .user) := by
  have hproc : ∀ q, q ≠ c → ((Ptable.reap c t).goto p .user).proc q = t.proc q := by
    intro q hq
    simp [Table.goto, Ptable.reap, Table.set, hq]
  have hself : (((Ptable.reap c t).goto p .user).proc c).state = .UNUSED := by
    simp [Table.goto, Ptable.reap, Table.set]
  have hnew : (((Ptable.reap c t).goto p .user).proc c).parent = none := by
    simp [Table.goto, Ptable.reap, Table.set]
  have hasleep : ∀ q, (((Ptable.reap c t).goto p .user).proc q).state = .SLEEPING → q ≠ c := by
    intro q hs heq
    rw [heq, hself] at hs
    cases hs
  apply h.keep
  · intro q q' hs hchan
    have hqc := hasleep q hs
    rw [hproc q hqc] at hs hchan ⊢
    exact ⟨hs, hchan, rfl⟩
  · intro q hq d hd
    have hdc : d ≠ c := by
      intro heq
      have hqc := hasleep q hq.1
      have hqs := hq.1
      rw [hproc q hqc] at hqs
      rw [heq, hparent] at hd
      cases hd
      rw [hr.1] at hqs
      cases hqs
    rw [hproc d hdc, hd]
  · intro q _ d hd hz
    have hdc : d ≠ c := by
      intro heq
      rw [heq, hnew] at hd
      cases hd
    rw [hproc d hdc] at hd hz
    exact ⟨hd, hz⟩

theorem Waits.setParent {np : Fin NPROC} (hembryo : (t.proc np).state = .EMBRYO)
    (hnone : (t.proc np).parent = none) :
    Waits ((t.set np { t.proc np with parent := some p }).goto p (.fork .linked np)) := by
  have hproc : ∀ q, ((t.set np { t.proc np with parent := some p }).goto p
      (.fork .linked np)).proc q =
      { t.proc q with parent := if q = np then some p else (t.proc q).parent } := by
    intro q
    by_cases hq : q = np
    · subst hq; simp [Table.goto, Table.set]
    · simp [Table.goto, Table.set, hq]
  apply h.keep
  · intro q q' hs hchan
    rw [hproc] at hs hchan ⊢
    exact ⟨hs, hchan, rfl⟩
  · intro q _ c hc
    have hcn : c ≠ np := by
      intro heq
      rw [heq, hnone] at hc
      cases hc
    rw [hproc]
    simpa [hcn] using hc
  · intro q hq c hc hz
    rw [hproc] at hc hz
    have hcn : c ≠ np := by
      intro heq
      rw [heq, hembryo] at hz
      cases hz
    simp only [if_neg hcn] at hc
    exact ⟨hc, hz⟩

theorem Waits.sleeps (hkids : ∃ c, (t.proc c).parent = some p)
    (hnone : ∀ c, (t.proc c).parent = some p → (t.proc c).state ≠ .ZOMBIE)
    (hkilled : (t.proc p).killed = false) :
    Waits (t.set p { t.proc p with chan := some (.proc p), state := .SLEEPING }) := by
  generalize he : { t.proc p with chan := some (.proc p), state := .SLEEPING } = e
  have hproc : ∀ q, q ≠ p → (t.set p e).proc q = t.proc q := by
    intro q hq
    simp [Table.set, hq]
  have hself : (t.set p e).proc p =
      { t.proc p with chan := some (.proc p), state := .SLEEPING } := by
    simp [Table.set, he]
  have hparent : ∀ c, ((t.set p e).proc c).parent = (t.proc c).parent := by
    intro c
    by_cases hc : c = p
    · rw [hc, hself]
    · rw [hproc c hc]
  have hzombie : ∀ c, ((t.set p e).proc c).state = .ZOMBIE → (t.proc c).state = .ZOMBIE := by
    intro c hz
    by_cases hc : c = p
    · rw [hc, hself] at hz; cases hz
    · rwa [hproc c hc] at hz
  have hwait : ∀ q, q ≠ p → (t.set p e).Waiting q → t.Waiting q := by
    intro q hq hw
    rw [Table.Waiting, hproc q hq] at hw
    exact hw
  constructor
  case own =>
    intro q q' hs hchan
    by_cases hq : q = p
    · rw [hq, hself] at hchan
      cases hchan
      exact hq.symm
    · rw [hproc q hq] at hs hchan
      exact h.own q q' hs hchan
  case child =>
    intro q hw
    by_cases hq : q = p
    · obtain ⟨c, hc⟩ := hkids
      exact ⟨c, by rw [hparent, hc, hq]⟩
    · obtain ⟨c, hc⟩ := h.child q (hwait q hq hw)
      exact ⟨c, by rw [hparent, hc]⟩
  case zombie =>
    intro q hw c hc hz
    rw [hparent] at hc
    by_cases hq : q = p
    · rw [hq] at hc
      exact hnone c hc (hzombie c hz)
    · exact h.zombie q (hwait q hq hw) c hc (hzombie c hz)
  case killed =>
    intro q hw
    by_cases hq : q = p
    · rw [hq, hself]; exact hkilled
    · rw [hproc q hq]; exact h.killed q (hwait q hq hw)

theorem Waits.step {a : Action} (hshape : Shape t) (hs : Ptable.step t a = some t') : Waits t' := by
  cases stepped_of_step hs with
  | schedule | yield | sleep => exact h.set rfl (by simp) (by simp)
  | tidy p hr => exact h.set rfl (by simp) (by simp [hr])
  | wakeup => exact h.wakeup1 _
  | kill pid => exact h.kill pid
  | fault p hr => exact h.set rfl (by simp [hr.1]) (by simp [hr.1])
  | full => exact h
  | allocproc p np =>
    have hset : Waits (t.set np { t.proc np with state := .EMBRYO, pid := t.nextpid }) :=
      h.set rfl (by simp) (by simp)
    exact hset.congr rfl
  | kallocFails p np | copyuvmFails p np =>
    have hset : Waits (t.setState np .UNUSED) := h.set rfl (by simp) (by simp)
    exact hset.congr rfl
  | kalloc | copyuvm | reap | fails | loadParent | loadPid => exact h.congr rfl
  | setParent p np hr hb =>
    obtain ⟨-, hembryo, -, hparent⟩ := hshape.forks p _ np hb
    exact h.setParent hembryo hparent
  | runnable p np =>
    have hset : Waits (t.setState np .RUNNABLE) := h.set rfl (by simp) (by simp)
    exact hset.congr rfl
  | exit p hr hb hroot => exact h.exit hshape hr hroot (exited_exit p t)
  | reaped p c r hr hb hparent => exact h.reap hr hparent
  | sleeps p r hr hb hkids hnone hkilled => exact h.sleeps hkids hnone hkilled

omit h

/-! ### Reaping -/

/-- The processes that have been reaped are different ones, none of them is in the table any
more, and what was returned is the pid they were given. -/
structure ReapedOnce (t : Table) : Prop where
  nodup : (t.reaped.map Prod.fst).Nodup
  given : ∀ r ∈ t.reaped, r.1 ≤ t.allocated ∧ r.2 = r.1 % 2 ^ 32
  gone : ∀ p, (t.proc p).state ≠ .UNUSED → t.life p ∉ t.reaped.map Prod.fst

theorem ReapedOnce.keep (h : ReapedOnce t) (hreaped : t'.reaped = t.reaped)
    (halloc : t'.allocated = t.allocated) (hlife : t'.life = t.life)
    (hused : ∀ p, (t'.proc p).state ≠ .UNUSED → (t.proc p).state ≠ .UNUSED) : ReapedOnce t' where
  nodup := by rw [hreaped]; exact h.nodup
  given := by rw [hreaped, halloc]; exact h.given
  gone p hp := by rw [hreaped, hlife]; exact h.gone p (hused p hp)

theorem used_set {q : Fin NPROC} (he : e.state ≠ .UNUSED → (t.proc p).state ≠ .UNUSED)
    (hq : ((t.set p e).proc q).state ≠ .UNUSED) : (t.proc q).state ≠ .UNUSED := by
  by_cases hqp : q = p
  · subst hqp
    simp only [Table.set, Function.update_self] at hq
    exact he hq
  · simpa [Table.set, hqp] using hq

theorem ReapedOnce.set (h : ReapedOnce t) (he : e.state ≠ .UNUSED → (t.proc p).state ≠ .UNUSED) :
    ReapedOnce (t.set p e) :=
  h.keep rfl rfl rfl fun _ => used_set he

theorem ReapedOnce.goto (h : ReapedOnce t) (p : Fin NPROC) (b : Base) :
    ReapedOnce (t.goto p b) := h.keep rfl rfl rfl fun _ hq => hq

theorem ReapedOnce.allocproc (h : ReapedOnce t) {np : Fin NPROC} {n : Nat}
    {named : Fin NPROC → Bool} {base : Fin NPROC → Base} : ReapedOnce
      { t.set np e with
        nextpid := n
        allocated := t.allocated + 1
        life := Function.update t.life np (t.allocated + 1)
        named := named
        base := base } where
  nodup := h.nodup
  given r hr := ⟨(h.given r hr).1.trans (Nat.le_succ _), (h.given r hr).2⟩
  gone q hq := by
    by_cases hqn : q = np
    · subst hqn
      simp only [Function.update_self]
      intro hmem
      obtain ⟨r, hr, heq⟩ := List.mem_map.mp hmem
      have hle := (h.given r hr).1
      omega
    · simp only [Function.update_of_ne hqn]
      refine h.gone q ?_
      simpa [Table.set, hqn] using hq

theorem ReapedOnce.reap (h : ReapedOnce t) (hshape : Shape t) {c : Fin NPROC}
    (hzombie : (t.proc c).state = .ZOMBIE) : ReapedOnce (Ptable.reap c t) := by
  have hused : (t.proc c).state ≠ .UNUSED := by rw [hzombie]; decide
  constructor
  case nodup => exact List.nodup_cons.mpr ⟨h.gone c hused, h.nodup⟩
  case given =>
    intro r hr
    rcases List.mem_cons.mp hr with rfl | hr
    · exact ⟨hshape.lives c, (hshape.pids c hused).2⟩
    · exact h.given r hr
  case gone =>
    intro q hq
    have hqc : q ≠ c := by
      intro heq
      subst heq
      simp [Ptable.reap, Table.set] at hq
    have hq' : (t.proc q).state ≠ .UNUSED := by simpa [Ptable.reap, Table.set, hqc] using hq
    simp only [Ptable.reap, List.map_cons, List.mem_cons, not_or]
    exact ⟨fun heq => hqc (hshape.distinct q c hq' hused heq), h.gone q hq'⟩

theorem ReapedOnce.step {a : Action} (h : ReapedOnce t) (hshape : Shape t)
    (hs : Ptable.step t a = some t') : ReapedOnce t' := by
  have hembryo : ∀ {p stage np}, t.base p = .fork stage np → (t.proc np).state ≠ .UNUSED := by
    intro p stage np hb
    rw [(hshape.forks p stage np hb).2.1]
    decide
  have hwander : ∀ {t'}, Wander t t' → t'.reaped = t.reaped → ReapedOnce t' := by
    intro t' hw hreaped
    refine h.keep hreaped hw.allocated hw.life fun p hp => ?_
    rwa [Ne, hw.state_iff id] at hp
  cases stepped_of_step hs with
  | schedule p hstate => exact h.set (by simp [hstate])
  | yield p hr | sleep p a hr | sleeps p r hr => exact h.set (by simp [hr.1])
  | tidy | fault => exact h.set (by simp)
  | wakeup => exact hwander (wander_wakeup1 _) rfl
  | kill pid =>
    refine hwander (wander_kill pid) ?_
    simp only [Ptable.kill]
    split <;> rfl
  | full => exact h
  | allocproc => exact h.allocproc
  | kallocFails p | copyuvmFails p | setParent p => exact (h.set (by simp)).goto p _
  | kalloc p | copyuvm p | reap p | fails p | loadParent p | loadPid p => exact h.goto p _
  | runnable p np hr hb => exact (h.set fun _ => hembryo hb).goto p _
  | exit p hr =>
    have he := exited_exit p t
    apply h.keep
    · rw [he.rest]
    · rw [he.rest]
    · rw [he.rest]
    intro q hq
    by_cases hqp : q = p
    · rw [hqp, hr.1]; decide
    · rcases he.state q hqp with heq | ⟨heq, -⟩
      · rwa [heq] at hq
      · rw [heq]; decide
  | reaped p c r hr hb hparent hzombie => exact (h.reap hshape hzombie).goto p _

theorem reaped_step {a : Action} (hs : step t a = some t') :
    t'.reaped = t.reaped ∨ ∃ c, (t.proc c).state = .ZOMBIE ∧ (t'.proc c).state = .UNUSED ∧
      t'.reaped = (t.life c, (t.proc c).pid) :: t.reaped := by
  cases stepped_of_step hs with
  | kill =>
    refine .inl ?_
    simp only [Ptable.kill]
    split <;> rfl
  | exit p => exact .inl (by rw [(exited_exit p t).rest])
  | reaped p c r hr hb hparent hzombie =>
    exact .inr ⟨c, hzombie, by simp [Table.goto, Ptable.reap, Table.set], rfl⟩
  | _ => exact .inl rfl

theorem waits_of_reached (h : system.Reached t) : Shape t ∧ Waits t ∧ ReapedOnce t := by
  refine h.invariant (I := fun t => Shape t ∧ Waits t ∧ ReapedOnce t) ?_ ?_
  · rintro _ rfl
    have hawake : ∀ p, (userinit.proc p).state ≠ .SLEEPING := by
      intro p hs
      rcases userinit_proc p with ⟨-, heq⟩ | ⟨-, heq⟩ <;> rw [heq] at hs <;> cases hs
    have hreaped : userinit.reaped = [] := by rw [userinit_eq]; rfl
    refine ⟨shape_userinit, ⟨?_, ?_, ?_, ?_⟩, ⟨?_, ?_, ?_⟩⟩
    · exact fun p _ hs => absurd hs (hawake p)
    · exact fun p hw => absurd hw.1 (hawake p)
    · exact fun p hw => absurd hw.1 (hawake p)
    · exact fun p hw => absurd hw.1 (hawake p)
    · exact List.nodup_nil
    · exact nofun
    · exact nofun
  · rintro t a t' ⟨hshape, hwaits, hreaped⟩ - hs
    exact ⟨hshape.step hs, hwaits.step hshape hs, hreaped.step hshape hs⟩

/-- **No lost child exit.** In every reachable state a process that sleeps in `wait` or `time`
has a child, none of its children is a ZOMBIE, and it is not killed. No process is reaped
twice: the processes reaped are distinct, the pid returned for each is the one it was given,
and reaping one makes its ZOMBIE slot UNUSED. -/
theorem no_lost_exit (h : system.Reached t) :
    (∀ p, t.Waiting p → (∃ c, (t.proc c).parent = some p) ∧
      (∀ c, (t.proc c).parent = some p → (t.proc c).state ≠ .ZOMBIE) ∧
      (t.proc p).killed = false) ∧
    (t.reaped.map Prod.fst).Nodup ∧ (∀ r ∈ t.reaped, r.2 = r.1 % 2 ^ 32) ∧
    ∀ a t', step t a = some t' → t'.reaped = t.reaped ∨
      ∃ c, (t.proc c).state = .ZOMBIE ∧ (t'.proc c).state = .UNUSED ∧
        t'.reaped = (t.life c, (t.proc c).pid) :: t.reaped := by
  obtain ⟨-, hwaits, hreaped⟩ := waits_of_reached h
  refine ⟨fun p hp => ⟨hwaits.child p hp, hwaits.zombie p hp, hwaits.killed p hp⟩,
    hreaped.nodup, fun r hr => (hreaped.given r hr).2, fun a t' hs => reaped_step hs⟩

/-- init waits for a child that is still running. -/
theorem no_lost_exit_waiting :
    ∃ t, system.Reached t ∧ t.Waiting 0 ∧ (∃ c, (t.proc c).parent = some 0) ∧
      ∀ c, (t.proc c).parent = some 0 → (t.proc c).state ≠ .ZOMBIE := by
  have hinit : system.Reached userinit := .init rfl
  obtain ⟨t, ht, hwaiting⟩ := hinit.run_decide
    [.schedule 0, .allocproc 0, .kalloc 0 true, .copyuvm 0 true, .setParent 0, .runnable 0,
      .reap 0 .wait, .scan 0]
    (P := fun t => (t.proc 0).state = .SLEEPING ∧ (t.proc 0).chan = some (.proc 0))
    (by decide +kernel)
  obtain ⟨hchild, hzombie, -⟩ := (no_lost_exit ht).1 0 hwaiting
  exact ⟨t, ht, hwaiting, hchild, hzombie⟩

end Xv6.Ptable
