import Xv6.PtableShape

/-!
**Who can make init exit.** `exit` panics for `initproc`. init's own loop calls it only when `fork`
fails; but `trap` calls it for whoever is killed, and `kill` does not except init.
-/

namespace Xv6.Ptable

open Function

/-- init runs the loop of `init.c`, in which it does not fault, and its `fork` succeeds; the others
kill only pids in `K`. -/
def InitLoop (K : Nat → Prop) (t : Table) : Action → Prop
  | .kill pid => K (ofInt32 pid) ∧ ∃ p, p ≠ t.initproc ∧ t.Runs p ∧ t.base p = .user
  | .fault p => p ≠ t.initproc
  | .kalloc p ok | .copyuvm p ok => ok = true ∨ p ≠ t.initproc
  | .allocproc p => p = t.initproc → ∃ q, (t.proc q).state = .UNUSED
  | _ => True

instance decidableInitLoop (K : Nat → Prop) [DecidablePred K] (t : Table) (a : Action) :
    Decidable (InitLoop K t a) := by
  apply @Action.casesOn (fun a => Decidable (InitLoop K t a)) <;> intros <;> unfold InitLoop <;>
    infer_instance

/-- init is where `trap` tests `killed`, and is killed: `exit` panics with "init exiting". -/
def InitExits (t : Table) : Prop :=
  t.Runs t.initproc ∧ t.base t.initproc = .user ∧ (t.proc t.initproc).killed = true

instance decidableInitExits (t : Table) : Decidable (InitExits t) :=
  inferInstanceAs (Decidable (_ ∧ _))

variable {t t' : Table} {p : Fin NPROC} {e : Proc} {K : Nat → Prop}

/-- init has pid 1 and is not killed. -/
def InitLives (t : Table) : Prop :=
  (t.proc t.initproc).pid = 1 ∧ (t.proc t.initproc).killed = false

section

variable (h : InitLives t)
include h

theorem InitLives.set (he : p = t.initproc → e.pid = 1 ∧ e.killed = false) :
    InitLives (t.set p e) := by
  by_cases hp : t.initproc = p
  · subst hp
    simpa [InitLives, Table.set] using he rfl
  · simpa [InitLives, Table.set, update_of_ne hp] using h

theorem InitLives.kill {pid : Int} (hpid : ofInt32 pid ≠ 1) : InitLives (Ptable.kill pid t).1 := by
  rw [Ptable.kill]
  split
  next p hf =>
    refine h.set fun hp => absurd ?_ hpid
    have hfound : (t.proc p).pid = ofInt32 pid := by simpa using List.find?_some hf
    rw [← hfound, hp, h.1]
  · exact h

theorem InitLives.step {a : Action} (hshape : Shape t) (hone : ¬ K 1) (hok : InitLoop K t a)
    (hs : Ptable.step t a = some t') : InitLives t' := by
  have hown : ∀ {p e}, e.pid = (t.proc p).pid → e.killed = (t.proc p).killed →
      InitLives (t.set p e) := by
    intro p e hpid hkilled
    refine h.set fun hp => ?_
    rw [hpid, hkilled, hp]
    exact h
  -- a slot that is free, forked or reaped is not init's
  have hother : ∀ {q e}, ¬ Alive (t.proc q).state → InitLives (t.set q e) := by
    intro q e hq
    refine h.set fun heq => absurd ?_ hq
    rw [heq]
    exact hshape.root.1
  have hforked : ∀ {q stage np e}, t.base q = .fork stage np → InitLives (t.set np e) := by
    intro q stage np e hb
    refine hother ?_
    rw [(hshape.forks q stage np hb).2.1]
    exact id
  cases stepped_of_step hs with
  | schedule | yield | sleep | tidy | sleeps => exact hown rfl rfl
  | wakeup a =>
    rcases wakeup1_proc (some (.addr a)) t t.initproc with heq | ⟨-, heq⟩
    all_goals
      rw [InitLives, show (wakeup1 (some (.addr a)) t).initproc = t.initproc from rfl, heq]
      exact h
  | kill pid =>
    refine h.kill fun heq => hone ?_
    rw [← heq]
    exact hok.1
  | fault p => exact h.set fun hp => absurd hp hok
  | full | kalloc | copyuvm | reap | fails | loadParent | loadPid => exact h
  | allocproc p np hr hb hnp => exact hother (by rw [hnp]; exact id)
  | kallocFails p np hr hb | copyuvmFails p np hr hb | setParent p np hr hb
  | runnable p np hr hb => exact hforked hb
  | exit p =>
    have he := exited_exit p t
    have hinit : (Ptable.exit p t).initproc = t.initproc := by rw [he.rest]
    rw [InitLives, hinit, (he.same _).1, (he.same _).2.2]
    exact h
  | reaped p c r hr hb hparent hz => exact hother (by rw [hz]; exact id)

end

theorem initLives_of_reachable (hone : ¬ K 1) (h : system.Reachable (InitLoop K) t) :
    Shape t ∧ InitLives t := by
  refine h.invariant (I := fun t => Shape t ∧ InitLives t) ?_ fun t a t' ih hok hs =>
    ⟨ih.1.step hs, ih.2.step ih.1 hone hok hs⟩
  rintro _ rfl
  refine ⟨shape_userinit, ?_⟩
  rw [userinit_eq]
  exact ⟨rfl, rfl⟩

/-- init forks and waits, and its child kills it. -/
def killInit : List Action :=
  [.schedule 0, .allocproc 0, .kalloc 0 true, .copyuvm 0 true, .setParent 0, .runnable 0,
    .reap 0 .wait, .scan 0, .schedule 1, .kill 1, .schedule 0, .tidy 0, .scan 0]

theorem exits_of_one (hone : K 1) : ∃ t, system.Reachable (InitLoop K) t ∧ InitExits t := by
  have hinit : system.Reachable (InitLoop (· = 1)) userinit := .init rfl
  obtain ⟨t, hr, ht⟩ := hinit.run_decide killInit (P := InitExits) (by decide +kernel)
  refine ⟨t, hr.invariant (fun _ h0 => .init h0) fun t a t' ih hok hs => ?_, ht⟩
  refine .step ih ?_ hs
  cases a with
  | kill pid => exact ⟨hok.1 ▸ hone, hok.2⟩
  | _ => exact hok

/-- **init cannot be made to exit** exactly if nobody kills pid 1. -/
theorem init_exits_iff (K : Nat → Prop) :
    (∀ t, system.Reachable (InitLoop K) t → ¬ InitExits t) ↔ ¬ K 1 := by
  constructor
  · intro hnever hone
    obtain ⟨t, hr, ht⟩ := exits_of_one hone
    exact hnever t hr ht
  · intro hone t hr ht
    have hlives := (initLives_of_reachable hone hr).2
    rw [InitLives, ht.2.2] at hlives
    cases hlives.2

theorem init_is_killed : ∃ t, system.Reachable (InitLoop fun _ => True) t ∧ InitExits t :=
  exits_of_one trivial

end Xv6.Ptable
