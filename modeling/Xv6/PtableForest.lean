import Xv6.PtableShape

/-!
**The processes form a tree with root `initproc`.**

Parents are older than their children, so the way up ends at `initproc` (`Shape.forest`).

`getppid` does not take `ptable.lock`: between its two loads the parent may exit and be reaped,
and then it returns 0 (`getppid_returns_zero`), or the pid of whoever has the slot by then.
-/

namespace Xv6.Ptable

/-! ### The forest -/

/-- The process `n` steps up from `p`. -/
def ancestor (t : Table) : Nat → Fin NPROC → Option (Fin NPROC)
  | 0, p => some p
  | n + 1, p => ((t.proc p).parent).bind (ancestor t n)

structure Forest (t : Table) : Prop where
  unused : ∀ p, (t.proc p).state = .UNUSED → (t.proc p).parent = none
  parent : ∀ p, p ≠ t.initproc → Alive (t.proc p).state ∨ (t.proc p).state = .ZOMBIE →
    ∃ q, (t.proc p).parent = some q ∧ Alive (t.proc q).state
  root : ∀ p, Alive (t.proc p).state ∨ (t.proc p).state = .ZOMBIE →
    ∃ n, ancestor t n p = some t.initproc
  positive : ∀ p, (t.proc p).state ≠ .UNUSED → 0 < (t.proc p).pid
  distinct : ∀ p q, (t.proc p).state ≠ .UNUSED → (t.proc q).state ≠ .UNUSED →
    (t.proc p).pid = (t.proc q).pid → p = q

variable {t t' : Table} {a : Action}

theorem Shape.ancestor (h : Shape t) (p : Fin NPROC)
    (hp : Alive (t.proc p).state ∨ (t.proc p).state = .ZOMBIE) :
    ∃ n, ancestor t n p = some t.initproc := by
  induction hlife : t.life p using Nat.strong_induction_on generalizing p with
  | _ life ih =>
    by_cases hroot : p = t.initproc
    · exact ⟨0, by rw [hroot]; rfl⟩
    · obtain ⟨q, hparent, hq, hlt⟩ := h.family p hroot hp
      obtain ⟨n, hn⟩ := ih (t.life q) (hlife ▸ hlt) q (.inl hq) rfl
      exact ⟨n + 1, by rw [Ptable.ancestor, hparent]; exact hn⟩

theorem Shape.pid_eq_life (h : Shape t) (hfew : t.allocated < 2 ^ 31 - 1) {p : Fin NPROC}
    (hp : (t.proc p).state ≠ .UNUSED) : (t.proc p).pid = t.life p := by
  have hle := h.lives p
  rw [(h.pids p hp).2]
  omega

theorem Shape.forest (h : Shape t) (hfew : t.allocated < 2 ^ 31 - 1) : Forest t where
  unused := h.unused
  parent p hp hs := by
    obtain ⟨q, hparent, hq, -⟩ := h.family p hp hs
    exact ⟨q, hparent, hq⟩
  root := h.ancestor
  positive p hp := by rw [h.pid_eq_life hfew hp]; exact (h.pids p hp).1
  distinct p q hp hq heq := by
    rw [h.pid_eq_life hfew hp, h.pid_eq_life hfew hq] at heq
    exact h.distinct p q hp hq heq

/-! ### `getppid` -/

/-- Were process `p` to finish its `getppid` now, it would return the pid of a live process. -/
def GetppidLive (t : Table) (p : Fin NPROC) : Prop :=
  ∀ parent, t.base p = .getppid parent →
    ∃ q, t.ppid p = some (t.proc q).pid ∧ Alive (t.proc q).state

/-- Nobody exits to whom a `getppid` has just loaded the pointer. -/
def Unwatched (t : Table) : Action → Prop
  | .exit q => ∀ p, t.base p ≠ .getppid (some q)
  | _ => True

instance (t : Table) (a : Action) : Decidable (Unwatched t a) := by
  apply @Action.casesOn (fun a => Decidable (Unwatched t a)) <;> intros <;> unfold Unwatched <;>
    infer_instance

/-- Whoever is in `getppid` has a pointer to a live process. -/
def Looking (t : Table) : Prop :=
  ∀ p parent, t.base p = .getppid parent → p ≠ t.initproc →
    ∃ q, parent = some q ∧ Alive (t.proc q).state

theorem alive_set {p q : Fin NPROC} {e : Proc} (he : q = p → Alive e.state)
    (hq : Alive (t.proc q).state) : Alive ((t.set p e).proc q).state := by
  by_cases hqp : q = p
  · have hself := he hqp
    subst hqp
    simpa [Table.set] using hself
  · simpa [Table.set, hqp] using hq

theorem Shape.alive_step (h : Shape t) (hs : Ptable.step t a = some t') {q : Fin NPROC}
    (hq : Alive (t.proc q).state) : a = .exit q ∨ Alive (t'.proc q).state := by
  -- a slot that is being forked is somebody else's
  have hnot : ∀ {c s}, (t.proc c).state = s → ¬ Alive s → q ≠ c := by
    intro c s hc hs heq
    rw [heq, hc] at hq
    exact hs hq
  cases stepped_of_step hs with
  | schedule | yield | sleep | runnable | sleeps => exact .inr (alive_set (fun _ => trivial) hq)
  | tidy | fault | setParent => exact .inr (alive_set (fun heq => heq ▸ hq) hq)
  | wakeup => exact .inr (((wander_wakeup1 _).alive_iff q).mpr hq)
  | kill pid => exact .inr (((wander_kill pid).alive_iff q).mpr hq)
  | full | kalloc | copyuvm | reap | fails | loadParent | loadPid => exact .inr hq
  | allocproc p np hr hb hnp => exact .inr (alive_set (fun heq => absurd heq (hnot hnp id)) hq)
  | kallocFails p np hr hb | copyuvmFails p np hr hb =>
    exact .inr (alive_set (fun heq => absurd heq (hnot (h.forks p _ np hb).2.1 id)) hq)
  | exit p =>
    by_cases hqp : q = p
    · exact .inl (by rw [hqp])
    · rcases (exited_exit p t).state q hqp with heq | ⟨-, heq⟩
      · rw [heq]; exact .inr hq
      · rw [heq]; exact .inr trivial
  | reaped p c r hr hb hparent hzombie =>
    exact .inr (alive_set (fun heq => absurd heq (hnot hzombie id)) hq)

theorem getppid_step (hs : step t a = some t') {p : Fin NPROC} {parent : Option (Fin NPROC)}
    (hp : t'.base p = .getppid parent) :
    t.base p = .getppid parent ∨ t.Runs p ∧ parent = (t.proc p).parent := by
  have hgoto : ∀ {q b} {t1 : Table}, t1.base = t.base → (∀ o, b ≠ .getppid o) →
      (t1.goto q b).base p = .getppid parent → t.base p = .getppid parent := by
    intro q b t1 hbase hb hgoto
    by_cases hpq : p = q
    · subst hpq
      simp only [Table.goto, Function.update_self] at hgoto
      exact absurd hgoto (hb parent)
    · simpa [Table.goto, hpq, hbase] using hgoto
  cases stepped_of_step hs with
  | schedule | yield | sleep | tidy | wakeup | fault | full | sleeps => exact .inl hp
  | kill =>
    refine .inl ?_
    simp only [kill] at hp
    split at hp <;> exact hp
  | allocproc q np =>
    refine .inl ?_
    by_cases hpq : p = q
    · subst hpq; simp at hp
    · by_cases hpn : p = np
      · subst hpn; simp [hpq] at hp
      · simpa [hpq, hpn] using hp
  | kallocFails | kalloc | copyuvmFails | copyuvm | setParent | runnable | reap | reaped | fails
  | loadPid => exact .inl (hgoto rfl (by simp) hp)
  | exit q =>
    rw [(exited_exit q t).rest] at hp
    exact .inl hp
  | loadParent q hr =>
    by_cases hpq : p = q
    · subst hpq
      simp only [Table.goto, Function.update_self, Base.getppid.injEq] at hp
      exact .inr ⟨hr, hp.symm⟩
    · exact .inl (by simpa [Table.goto, hpq] using hp)

theorem initproc_step (hs : step t a = some t') : t'.initproc = t.initproc := by
  cases stepped_of_step hs with
  | kill pid => exact (wander_kill pid).initproc
  | exit q => rw [(exited_exit q t).rest]
  | _ => rfl

/-- **One step**: a pointer that a `getppid` holds stays good as long as nobody it looks at
exits. -/
theorem Looking.step (h : Looking t) (hshape : Shape t) (hok : Unwatched t a)
    (hs : Ptable.step t a = some t') : Looking t' := by
  intro p parent hp hroot
  rw [initproc_step hs] at hroot
  obtain ⟨q, rfl, hq, hlook⟩ : ∃ q, parent = some q ∧ Alive (t.proc q).state ∧
      (a = .exit q → t.base p = .getppid (some q)) := by
    rcases getppid_step hs hp with hold | ⟨hr, hparent⟩
    · obtain ⟨q, rfl, hq⟩ := h p parent hold hroot
      exact ⟨q, rfl, hq, fun _ => hold⟩
    obtain ⟨q, hq, halive, -⟩ := hshape.family p hroot (.inl (alive_of_runs hr))
    refine ⟨q, hparent.trans hq, halive, fun ha => ?_⟩
    -- the step is `loadParent`, not `exit`
    subst ha
    cases stepped_of_step hs with
    | exit q =>
      rw [(exited_exit q t).rest] at hp
      rw [← hq, ← hparent]
      exact hp
  refine ⟨q, rfl, ?_⟩
  rcases hshape.alive_step hs hq with ha | halive
  · exfalso
    have hwatched := hlook ha
    subst ha
    exact hok p hwatched
  · exact halive

theorem looking_of_reachable (h : system.Reachable Unwatched t) : Looking t := by
  have hboth : Shape t ∧ Looking t := by
    refine h.invariant (I := fun t => Shape t ∧ Looking t) ?_ ?_
    · rintro _ rfl
      refine ⟨shape_userinit, fun p parent hp => ?_⟩
      cases hp
    · intro t a t' ih hok hs
      exact ⟨ih.1.step hs, ih.2.step ih.1 hok hs⟩
  exact hboth.2

/-- **The process forest, and what `getppid` returns.** In every reachable state the processes
form a forest. If nobody has exited whom a `getppid` was looking at, every `getppid` of a
process other than init returns the pid of a live process; and if somebody does, the
`getppid` that was looking at it no longer would. -/
theorem process_forest (t : Table) :
    (system.Reached t → t.allocated < 2 ^ 31 - 1 → Forest t) ∧
    (system.Reachable Unwatched t → ∀ p, p ≠ t.initproc → GetppidLive t p) ∧
    (system.Reached t → ∀ q t', t'.allocated < 2 ^ 31 - 1 → step t (.exit q) = some t' →
      ¬ Unwatched t (.exit q) → ∃ p, ¬ GetppidLive t' p) := by
  refine ⟨fun ht hfew => (shape_of_reached ht).forest hfew, fun ht p hp => ?_, ?_⟩
  · intro parent hparent
    obtain ⟨q, rfl, hq⟩ := looking_of_reachable ht p parent hparent hp
    exact ⟨q, by rw [Table.ppid, hparent], hq⟩
  intro ht q t' hfew hs hwatched
  have hshape := (shape_of_reached ht).step hs
  simp only [Unwatched, not_forall, not_not] at hwatched
  obtain ⟨p, hp⟩ := hwatched
  cases stepped_of_step hs with
  | exit q =>
    have he := exited_exit q t
    have hp' : (exit q t).base p = .getppid (some q) := by rw [he.rest]; exact hp
    refine ⟨p, fun hlive => ?_⟩
    obtain ⟨r, hpid, halive⟩ := hlive _ hp'
    rw [Table.ppid, hp', Option.some.injEq] at hpid
    have hzombie := he.self
    have hrq : q = r := by
      refine (hshape.forest hfew).distinct q r ?_ (fun hun => ?_) hpid
      · rw [hzombie]; decide
      · rw [hun] at halive; exact halive
    rw [← hrq, hzombie] at halive
    exact halive

/-- init forks a child, which forks a grandchild. -/
def forkTwice : List Action :=
  [.schedule 0, .allocproc 0, .kalloc 0 true, .copyuvm 0 true, .setParent 0, .runnable 0,
    .schedule 1, .allocproc 1, .kalloc 1 true, .copyuvm 1 true, .setParent 1, .runnable 1,
    .schedule 2]

/-- **`getppid` returns 0**: the parent exits and is reaped between the two loads. -/
theorem getppid_returns_zero :
    ∃ t, system.Reached t ∧ t.allocated = 3 ∧ (2 : Fin NPROC) ≠ t.initproc ∧
      t.ppid 2 = some 0 ∧ ∀ q, Alive (t.proc q).state → (t.proc q).pid ≠ 0 := by
  have hinit : system.Reached userinit := .init rfl
  exact hinit.run_decide (forkTwice ++ [.loadParent 2, .exit 1, .reap 0 .wait, .scan 0])
    (by decide +kernel)

/-- The grandchild asks for its parent's pid while the parent lives; then the parent exits. -/
theorem process_forest_grandchild :
    ∃ t, system.Reachable Unwatched t ∧ Forest t ∧ t.ppid 2 = some 2 ∧
      ∃ q, t.ppid 2 = some (t.proc q).pid ∧ Alive (t.proc q).state := by
  have hinit : system.Reachable Unwatched userinit := .init rfl
  obtain ⟨t, ht, hfew, hroot, hbase, hppid⟩ := hinit.run_decide (forkTwice ++ [.loadParent 2])
    (P := fun t => t.allocated < 2 ^ 31 - 1 ∧ (2 : Fin NPROC) ≠ t.initproc ∧
      t.base 2 = .getppid (some 1) ∧ t.ppid 2 = some 2) (by decide +kernel)
  exact ⟨t, ht, (process_forest t).1 ht.reached hfew, hppid,
    (process_forest t).2.1 ht 2 hroot _ hbase⟩

end Xv6.Ptable
