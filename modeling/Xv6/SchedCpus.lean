import Xv6.PtableKill
import Xv6.PtableWait
import Xv6.Sched

/-!
**One CPU for every running process.**

`Sane` says of every CPU what its scheduler's place, its `proc`, the place and the state of the
process it executes and `ptable.lock` have to do with each other, in the middle of a switch
too. A step of CPU `i` touches the process of CPU `i` only; what it does to the rest of the
table is `Turn`, read off the table's own steps, and `Sane.turn` leaves for each step what
has to be checked on CPU `i`.

A process that executes is RUNNING, so the table takes only steps it may take by itself
(`Sane.reached`): what was proved of the table holds on every machine.
-/

namespace Xv6.Sched

open Ptable Function

/-! ### What a step of the table does to the others -/

/-- The process whose state or channel the action changes. -/
def mover : Action → Option (Fin NPROC)
  | .schedule p | .yield p | .sleep p _ | .tidy p | .exit p | .scan p => some p
  | _ => none

/-- Not running, but somebody's. -/
def Parked (st : Procstate) : Prop := st ≠ .RUNNING ∧ st ≠ .EMBRYO ∧ st ≠ .UNUSED

/-- A `fork` at `b'` that has set up its child was one at `b`, or the child is `kid`. -/
def ForksOn (kid : Option (Fin NPROC)) (b b' : Base) : Prop :=
  ∀ stage np, b' = .fork stage np → stage ≠ .allocated →
    (∃ stage', stage' ≠ .allocated ∧ b = .fork stage' np) ∨ kid = some np

/-- What a step does to the table, apart from the processes in `mine`; `kid` is a slot whose first
context it sets up. -/
structure Turn (t t' : Table) (mine : Fin NPROC → Prop) (kid : Option (Fin NPROC)) : Prop where
  running : ∀ q, ¬ mine q → ((t'.proc q).state = .RUNNING ↔ (t.proc q).state = .RUNNING)
  chan : ∀ q, ¬ mine q → (t'.proc q).chan = (t.proc q).chan
  alive : ∀ q, ¬ mine q → Alive (t.proc q).state → Alive (t'.proc q).state
  born : ∀ q, Alive (t'.proc q).state → Alive (t.proc q).state ∨ ∃ r, t.base r = .fork .linked q
  forks : ∀ q, ForksOn kid (t.base q) (t'.base q)
  kid : ∀ np, kid = some np → (t.proc np).state = .EMBRYO

section

variable {t t' : Table} {mine : Fin NPROC → Prop} {kid : Option (Fin NPROC)}

theorem ForksOn.refl {b : Base} : ForksOn kid b b :=
  fun stage _ hb hstage => .inl ⟨stage, hstage, hb⟩

theorem Turn.refl : Turn t t mine none :=
  ⟨fun _ _ => Iff.rfl, fun _ _ => rfl, fun _ _ => id, fun _ => .inl, fun _ => .refl, nofun⟩

theorem Turn.mono {mine' : Fin NPROC → Prop} (h : Turn t t' mine kid)
    (hmine : ∀ q, mine q → mine' q) : Turn t t' mine' kid where
  running q hq := h.running q fun hm => hq (hmine q hm)
  chan q hq := h.chan q fun hm => hq (hmine q hm)
  alive q hq := h.alive q fun hm => hq (hmine q hm)
  born := h.born
  forks := h.forks
  kid := h.kid

theorem forks_goto {p : Fin NPROC} {b : Base} (hb : ForksOn kid (t.base p) b) (q : Fin NPROC) :
    ForksOn kid (t.base q) (update t.base p b q) := by
  by_cases hqp : q = p
  · subst hqp
    rw [update_self]
    exact hb
  · rw [update_of_ne hqp]
    exact .refl

theorem turn_slot {c : Fin NPROC} {e : Ptable.Proc} (hproc : t'.proc = update t.proc c e)
    (hmine : mine c ∨ (e.state = .RUNNING ↔ (t.proc c).state = .RUNNING) ∧
      e.chan = (t.proc c).chan ∧ (Alive (t.proc c).state → Alive e.state))
    (hborn : Alive e.state → Alive (t.proc c).state ∨ ∃ r, t.base r = .fork .linked c)
    (hforks : ∀ q, ForksOn kid (t.base q) (t'.base q))
    (hkid : ∀ np, kid = some np → (t.proc np).state = .EMBRYO) : Turn t t' mine kid := by
  have hself : t'.proc c = e := by rw [hproc, update_self]
  have hother : ∀ q, q ≠ c → t'.proc q = t.proc q := by
    intro q hq
    rw [hproc, update_of_ne hq]
  have hsame : ∀ q, ¬ mine q →
      ((t'.proc q).state = .RUNNING ↔ (t.proc q).state = .RUNNING) ∧
      (t'.proc q).chan = (t.proc q).chan ∧
      (Alive (t.proc q).state → Alive (t'.proc q).state) := by
    intro q hq
    by_cases hqc : q = c
    · subst hqc
      rw [hself]
      exact hmine.resolve_left hq
    · rw [hother q hqc]
      exact ⟨Iff.rfl, rfl, id⟩
  refine ⟨fun q hq => (hsame q hq).1, fun q hq => (hsame q hq).2.1, fun q hq => (hsame q hq).2.2,
    fun q hq => ?_, hforks, hkid⟩
  by_cases hqc : q = c
  · subst hqc
    rw [hself] at hq
    exact hborn hq
  · rw [hother q hqc] at hq
    exact .inl hq

theorem turn_goto {p : Fin NPROC} {b : Base} (hb : ForksOn kid (t.base p) b)
    (hkid : ∀ np, kid = some np → (t.proc np).state = .EMBRYO) : Turn t (t.goto p b) mine kid :=
  ⟨fun _ _ => Iff.rfl, fun _ _ => rfl, fun _ _ => id, fun _ => .inl, forks_goto hb, hkid⟩

/-- **A step of the table**, seen from the processes that do not take it. -/
theorem turn_of_step {a : Action} (hshape : Shape t) (hs : Ptable.step t a = some t') :
    Turn t t' (fun q => mover a = some q) (newborn t a) := by
  have hsame : ∀ q, ForksOn none (t.base q) (t.base q) := fun _ => .refl
  have hnone : ∀ np, (none : Option (Fin NPROC)) = some np → (t.proc np).state = .EMBRYO :=
    by simp
  have hembryo : ∀ {p stage np}, t.base p = .fork stage np → (t.proc np).state = .EMBRYO :=
    fun hb => (hshape.forks _ _ _ hb).2.1
  -- a slot that was EMBRYO and is not RUNNING now
  have hfork : ∀ {p stage np} {e : Ptable.Proc} {mine : Fin NPROC → Prop},
      t.base p = .fork stage np → e.state ≠ .RUNNING →
      e.chan = (t.proc np).chan → mine np ∨ (e.state = .RUNNING ↔ (t.proc np).state = .RUNNING) ∧
        e.chan = (t.proc np).chan ∧ (Alive (t.proc np).state → Alive e.state) := by
    intro p stage np e mine hb hrun hchan
    rw [hembryo hb]
    exact .inr ⟨by simp [hrun], hchan, False.elim⟩
  cases stepped_of_step hs with
  | schedule p hstate =>
    refine turn_slot rfl (.inl rfl) (fun _ => .inl ?_) hsame hnone
    rw [hstate]
    trivial
  | yield p hr | sleep p a hr | sleeps p r hr =>
    exact turn_slot rfl (.inl rfl) (fun _ => .inl (alive_of_runs hr)) hsame hnone
  | tidy => exact turn_slot rfl (.inl rfl) .inl hsame hnone
  | wakeup a =>
    have hw : Wander t (wakeup1 (some (.addr a)) t) := wander_wakeup1 _
    refine ⟨fun q _ => ?_, fun q _ => ?_, fun q _ => (hw.alive_iff q).mpr,
      fun q hq => .inl ((hw.alive_iff q).mp hq), hsame, hnone⟩
    · rcases wakeup1_proc (some (.addr a)) t q with heq | ⟨hq, heq⟩
      · rw [heq]
      · rw [heq, hq]; simp
    · rcases wakeup1_proc (some (.addr a)) t q with heq | ⟨-, heq⟩ <;> rw [heq]
  | kill pid =>
    have hkill : Turn t (kill pid t).1 (fun q => mover (.kill pid) = some q) none := by
      simp only [kill]
      split
      next p _ =>
        refine turn_slot rfl (.inr ?_) ?_ hsame hnone
        · by_cases hp : (t.proc p).state = .SLEEPING
          · simp only [hp]
            exact ⟨by simp, trivial, fun _ => trivial⟩
          · simp only [hp, if_false]
            exact ⟨trivial, trivial, id⟩
        · by_cases hp : (t.proc p).state = .SLEEPING
          · rw [hp]; exact fun _ => .inl trivial
          · simp only [hp, if_false]; exact .inl
      · exact Turn.refl
    exact ⟨hkill.running, hkill.chan, hkill.alive, hkill.born, hkill.forks, hkill.kid⟩
  | fault => exact turn_slot rfl (.inr ⟨Iff.rfl, rfl, id⟩) .inl hsame hnone
  | full => exact Turn.refl
  | allocproc p np hr hb hnp =>
    refine turn_slot rfl (.inr ?_) (False.elim) ?_ hnone
    · rw [hnp]
      exact ⟨by simp, rfl, False.elim⟩
    intro q stage c hq hstage
    by_cases hqp : q = p
    · subst hqp
      simp only [update_self, Base.fork.injEq] at hq
      exact absurd hq.1.symm hstage
    by_cases hqn : q = np
    · subst hqn; simp [hqp] at hq
    · simp only [update_of_ne hqp, update_of_ne hqn] at hq
      exact .inl ⟨stage, hstage, hq⟩
  | kallocFails p np hr hb | copyuvmFails p np hr hb =>
    refine turn_slot rfl ?_ (False.elim) (forks_goto (by simp [ForksOn])) hnone
    apply hfork hb
    · simp
    · rfl
  | kalloc p np hr hb =>
    have hborn : newborn t (.kalloc p true) = some np := by rw [newborn, hb]
    rw [hborn]
    refine turn_goto (fun stage c h _ => ?_) fun c h => ?_
    · cases h; exact .inr rfl
    · cases h; exact hembryo hb
  | copyuvm p np hr hb =>
    refine turn_goto (fun stage c h _ => ?_) hnone
    cases h
    exact .inl ⟨.stacked, by decide, hb⟩
  | setParent p np hr hb =>
    refine turn_slot rfl (.inr ⟨Iff.rfl, rfl, id⟩) .inl (forks_goto fun stage c h _ => ?_) hnone
    cases h
    exact .inl ⟨.copied, by decide, hb⟩
  | runnable p np hr hb =>
    refine turn_slot rfl ?_ (fun _ => .inr ⟨p, hb⟩) (forks_goto (by simp [ForksOn])) hnone
    apply hfork hb
    · simp
    · rfl
  | exit p hr =>
    have he := exited_exit p t
    have hbase : (Ptable.exit p t).base = t.base := by rw [he.rest]
    refine ⟨fun q hq => ?_, fun q _ => (he.same q).2.1, fun q hq hq' => ?_, fun q hq => .inl ?_, ?_,
      hnone⟩
    · rcases he.state q fun heq => hq (by rw [heq]; rfl) with heq | ⟨heq, heq'⟩
      · rw [heq]
      · rw [heq, heq']; simp
    · rcases he.state q fun heq => hq (by rw [heq]; rfl) with heq | ⟨-, heq'⟩
      · rw [heq]; exact hq'
      · rw [heq']; trivial
    · by_cases hqp : q = p
      · rw [hqp]; exact alive_of_runs hr
      · rcases he.state q hqp with heq | ⟨heq, -⟩
        · rwa [heq] at hq
        · rw [heq]; trivial
    · rw [hbase]; exact hsame
  | reap | fails | loadParent | loadPid => exact turn_goto (by simp [ForksOn]) hnone
  | reaped p c r hr hb hparent hzombie =>
    refine turn_slot rfl (.inr ?_) (False.elim) (forks_goto (by simp [ForksOn])) hnone
    rw [hzombie]
    exact ⟨by simp, rfl, False.elim⟩

theorem parked_of_alone {p q : Fin NPROC} {a : Action} (hshape : Shape t) (ha : Alone p a)
    (hs : Ptable.step t a = some t') (hq : Parked (t.proc q).state) : Parked (t'.proc q).state := by
  have habandon : ∀ {np stage}, t.base p = .fork stage np →
      Parked (((t.abandon p np).proc q).state) := by
    intro np stage hb
    have hqn : q ≠ np := by
      intro heq
      rw [heq, (hshape.forks p stage np hb).2.1] at hq
      exact hq.2.1 rfl
    simpa [Table.abandon, Table.goto, Table.setState, Table.set, hqn] using hq
  have hset : ∀ {c} {e : Ptable.Proc}, e.state = (t.proc c).state → Parked ((t.set c e).proc q).state := by
    intro c e he
    by_cases hqc : q = c
    · subst hqc; simpa [Table.set, he] using hq
    · simpa [Table.set, hqc] using hq
  cases stepped_of_step hs with
  | fault => exact hset rfl
  | kallocFails q np hr hb | copyuvmFails q np hr hb => cases ha; exact habandon hb
  | kalloc | copyuvm | reap | loadParent | loadPid => exact hq
  | setParent p np => exact hset rfl
  | _ => cases ha

end

/-! ### The invariant -/

def Pc.Holds : Pc → Prop
  | .free | .off _ => False
  | .locked _ | .unlock | .sched _ | .resumed _ => True

/-- The thread that the CPU executes holds `ptable.lock`. -/
def Cpu.Holds (c : Cpu) (pc : Fin NPROC → Pc) : Prop :=
  match c.scheduler with
  | .idle => False
  | .waking _ | .woken | .scan _ | .chosen _ | .back _ => True
  | .switched p => (pc p).Holds

/-- In `sleep`, with `chan` set. -/
def Pc.Asleep : Pc → Prop
  | .sched caller | .off (.sched caller _) | .resumed (.sched caller _) =>
      caller = .sleep ∨ caller = .wait
  | _ => False

/-- In `exit`, behind the last line that is executed. -/
def Pc.Gone : Pc → Prop
  | .sched .exit | .off (.sched .exit _) => True
  | _ => False

/-- The thread executes at `x`: which state the process is in, and how many other locks are
held. -/
def Executes (st : Procstate) (locks : Nat) : Pc → Prop
  | .free | .unlock => st = .RUNNING
  | .locked w => st = .RUNNING ∧ w.Callable locks
  | .sched _ => Parked st ∧ locks = 0
  | .resumed context => st = .RUNNING ∧ locks = 0 ∧ ∀ b, context ≠ .sched .exit b
  | .off _ => False

/-- One CPU and its process. -/
def Fits (t : Table) (pc : Fin NPROC → Pc) (c : Cpu) : Prop :=
  match c.scheduler with
  | .idle | .waking _ | .woken => c.proc = none
  | .scan _ => c.proc = none ∧ c.locks = 0
  | .chosen p => c.proc = some p ∧ c.locks = 0 ∧ (t.proc p).state = .RUNNING ∧ ∃ x, pc p = .off x
  | .switched p => c.proc = some p ∧ Executes (t.proc p).state c.locks (pc p)
  | .back p => c.proc = some p ∧ c.locks = 0 ∧ Parked (t.proc p).state ∧ ∃ x, pc p = .off x

/-- Acquire and release alternate. -/
def Paired {C : Type} : Bool → List (Event C) → Prop
  | false, [] => True
  | true, .acquire _ :: events => Paired false events
  | false, .release _ :: events => Paired true events
  | _, _ => False

variable {C : Type} [DecidableEq C]

structure Sane (s : State C) : Prop where
  calm : s.panicked = false
  reached : Ptable.system.Reached s.table
  fits : ∀ i, Fits s.table s.pc (s.cpu i)
  holds : ∀ i, s.lock = some i ↔ (s.cpu i).Holds s.pc
  ncli : ∀ i, (s.cpu i).ncli = (s.cpu i).locks + if s.lock = some i then 1 else 0
  quiet : ∀ i, (s.cpu i).interrupts = true → (s.cpu i).ncli = 0
  one : ∀ i j p, (s.cpu i).proc = some p → (s.cpu j).proc = some p → i = j
  owned : ∀ p, (s.table.proc p).state = .RUNNING → ∃ i, (s.cpu i).proc = some p
  off : ∀ p, (∀ i, (s.cpu i).proc ≠ some p) → ∃ x, s.pc p = .off x
  chan : ∀ p, (s.table.proc p).chan ≠ none → (s.pc p).Asleep ∧ Alive (s.table.proc p).state
  gone : ∀ p, (s.pc p).Gone → ¬ Alive (s.table.proc p).state
  forks : ∀ q stage np, s.table.base q = .fork stage np → stage ≠ .allocated →
    s.pc np = .off .forkret
  paired : Paired s.lock.isSome s.events

/-- `ptable.lock` is `lock` after a step of CPU `i`, and the CPU has this many `pushcli`s, other
locks, and interrupts on or off. -/
structure Guards (s : State C) (i : C) (n locks : Nat) (interrupts : Bool) (lock : Option C)
    (events : List (Event C)) : Prop where
  others : ∀ j, j ≠ i → (lock = some j ↔ s.lock = some j)
  ncli : n = locks + if lock = some i then 1 else 0
  quiet : interrupts = true → n = 0
  paired : Paired lock.isSome events

section

variable {s s' : State C} {i : C} {t : Table} {pc : Fin NPROC → Pc} {c : Cpu} {st : Procstate}
  {p : Fin NPROC} {lock : Option C} {events : List (Event C)}

theorem Fits.congr {t' : Table} {pc' : Fin NPROC → Pc} (h : Fits t pc c)
    (hpc : ∀ p, c.proc = some p → pc' p = pc p)
    (hrun : ∀ p, c.proc = some p → (t.proc p).state = .RUNNING → (t'.proc p).state = .RUNNING)
    (hparked : ∀ p, c.proc = some p → c.Holds pc → Parked (t.proc p).state →
      Parked (t'.proc p).state) : Fits t' pc' c := by
  unfold Fits at h ⊢
  rcases hx : c.scheduler with _ | _ | _ | _ | p | p | p
  all_goals simp only [hx] at h ⊢
  · exact h
  · exact h
  · exact h
  · exact h
  · obtain ⟨hproc, hlocks, hst, x, hoff⟩ := h
    exact ⟨hproc, hlocks, hrun p hproc hst, x, (hpc p hproc).trans hoff⟩
  · obtain ⟨hproc, hexec⟩ := h
    refine ⟨hproc, ?_⟩
    have hholds : (pc p).Holds → c.Holds pc := by
      intro hh
      rw [Cpu.Holds, hx]
      exact hh
    rw [hpc p hproc]
    rcases hp : pc p with _ | w | _ | caller | x | x
    all_goals
      rw [hp] at hexec hholds
      simp only [Executes] at hexec ⊢
    · exact hrun p hproc hexec
    · exact ⟨hrun p hproc hexec.1, hexec.2⟩
    · exact hrun p hproc hexec
    · exact ⟨hparked p hproc (hholds trivial) hexec.1, hexec.2⟩
    · exact ⟨hrun p hproc hexec.1, hexec.2⟩
  · obtain ⟨hproc, hlocks, hst, x, hoff⟩ := h
    refine ⟨hproc, hlocks, hparked p hproc ?_ hst, x, (hpc p hproc).trans hoff⟩
    rw [Cpu.Holds, hx]
    trivial

theorem holds_congr {pc' : Fin NPROC → Pc} (h : Fits t pc c)
    (hpc : ∀ p, c.proc = some p → pc' p = pc p) : c.Holds pc' ↔ c.Holds pc := by
  unfold Cpu.Holds
  rcases hx : c.scheduler with _ | _ | _ | _ | p | p | p
  all_goals simp only
  · unfold Fits at h
    simp only [hx] at h
    rw [hpc p h.1]

theorem Executes.not_embryo {locks : Nat} {x : Pc} (h : Executes st locks x) : st ≠ .EMBRYO := by
  rintro rfl
  rcases x with _ | w | _ | caller | x | x
  · cases h
  · cases h.1
  · cases h
  · exact h.1.2.1 rfl
  · exact h
  · cases h.1

theorem Executes.running {locks : Nat} {x : Pc} (h : Executes st locks x) (hfree : ¬ x.Holds) :
    st = .RUNNING := by
  rcases x with _ | w | _ | caller | x | x
  · exact h
  · exact h.1
  · exact h
  · exact absurd trivial hfree
  · exact absurd h id
  · exact h.1

section

variable {t : Table} {pc : Fin NPROC → Pc} {c : Cpu} {p : Fin NPROC}

/-- A CPU that has a process is about to switch to it, executes it, or has just left it. -/
theorem Fits.of_proc (h : Fits t pc c) (hp : c.proc = some p) :
    c.scheduler = .chosen p ∧ (t.proc p).state = .RUNNING ∨
    c.scheduler = .switched p ∧ Executes (t.proc p).state c.locks (pc p) ∨
    c.scheduler = .back p ∧ Parked (t.proc p).state := by
  unfold Fits at h
  rcases hx : c.scheduler with _ | _ | _ | _ | q | q | q
  all_goals simp only [hx] at h
  · cases h.symm.trans hp
  · cases h.symm.trans hp
  · cases h.symm.trans hp
  · cases h.1.symm.trans hp
  · cases h.1.symm.trans hp
    exact .inl ⟨rfl, h.2.2.1⟩
  · cases h.1.symm.trans hp
    exact .inr (.inl ⟨rfl, h.2⟩)
  · cases h.1.symm.trans hp
    exact .inr (.inr ⟨rfl, h.2.2.1⟩)

theorem Fits.not_embryo (h : Fits t pc c) (hp : c.proc = some p) :
    (t.proc p).state ≠ .EMBRYO := by
  rcases h.of_proc hp with ⟨-, hrun⟩ | ⟨-, hexec⟩ | ⟨-, hparked⟩
  · rw [hrun]
    decide
  · exact hexec.not_embryo
  · exact hparked.2.1

/-- Without `ptable.lock`, the process of a CPU is RUNNING. -/
theorem Fits.running (h : Fits t pc c) (hfree : ¬ c.Holds pc) (hp : c.proc = some p) :
    (t.proc p).state = .RUNNING := by
  unfold Cpu.Holds at hfree
  rcases h.of_proc hp with ⟨-, hrun⟩ | ⟨hx, hexec⟩ | ⟨hx, -⟩
  · exact hrun
  · rw [hx] at hfree
    exact hexec.running hfree
  · rw [hx] at hfree
    exact absurd trivial hfree

end

theorem not_alive_of_embryo (h : st = .EMBRYO) : ¬ Alive st := by
  rw [h]
  exact id

variable (h : Sane s)
include h

/-- **A step of CPU `i`.** The other CPUs have other processes, and of `ptable.lock` they only
see whether it is theirs, so what has to be checked is CPU `i` and its process. -/
theorem Sane.turn (kid : Option (Fin NPROC)) (hcalm : s'.panicked = false)
    (hreached : Ptable.system.Reached s'.table) (hcpu : ∀ j, j ≠ i → s'.cpu j = s.cpu j)
    (hlock : Guards s i (s'.cpu i).ncli (s'.cpu i).locks (s'.cpu i).interrupts s'.lock s'.events)
    (hturn : Turn s.table s'.table
      (fun q => (s.cpu i).proc = some q ∨ (s'.cpu i).proc = some q) kid)
    (hparked : s.lock ≠ some i → ∀ q, Parked (s.table.proc q).state →
      Parked (s'.table.proc q).state)
    (hpc : ∀ q, (s.cpu i).proc ≠ some q → s'.pc q = s.pc q ∨ kid = some q ∧ s'.pc q = .off .forkret)
    (hkid : ∀ np, kid = some np → s'.pc np = .off .forkret) (hfits : Fits s'.table s'.pc (s'.cpu i))
    (hholds : s'.lock = some i ↔ (s'.cpu i).Holds s'.pc)
    (hnew : ∀ q, (s'.cpu i).proc = some q → (s.cpu i).proc = some q ∨
      (s.table.proc q).state = .RUNNABLE ∧ ∀ j, (s.cpu j).proc ≠ some q)
    (hold : ∀ q, (s.cpu i).proc = some q → (s'.cpu i).proc = some q ∨
      (s'.table.proc q).state ≠ .RUNNING ∧ ∃ x, s'.pc q = .off x)
    (hchan : ∀ q, (s.cpu i).proc = some q ∨ (s'.cpu i).proc = some q →
      (s'.table.proc q).chan ≠ none → (s'.pc q).Asleep ∧ Alive (s'.table.proc q).state)
    (hgone : ∀ q, (s.cpu i).proc = some q → (s'.pc q).Gone → ¬ Alive (s'.table.proc q).state) :
    Sane s' := by
  -- a process of another CPU is not a slot that is being set up
  have hkidless : ∀ j, j ≠ i → ∀ q, (s.cpu j).proc = some q → kid ≠ some q := by
    intro j hj q hq hk
    exact (h.fits j).not_embryo hq (hturn.kid q hk)
  have hother : ∀ j, j ≠ i → ∀ q, (s.cpu j).proc = some q →
      (s.cpu i).proc ≠ some q ∧ s'.pc q = s.pc q ∧
      ¬ ((s.cpu i).proc = some q ∨ (s'.cpu i).proc = some q) := by
    intro j hj q hq
    have hne : (s.cpu i).proc ≠ some q := fun hi => hj (h.one j i q hq hi)
    refine ⟨hne, ?_, ?_⟩
    · rcases hpc q hne with heq | ⟨hk, -⟩
      · exact heq
      · exact absurd hk (hkidless j hj q hq)
    rintro (hi | hi)
    · exact hne hi
    · rcases hnew q hi with hi' | ⟨-, hi'⟩
      · exact hne hi'
      · exact hi' j hq
  constructor
  case calm => exact hcalm
  case reached => exact hreached
  case fits =>
    intro j
    by_cases hj : j = i
    · rw [hj]; exact hfits
    rw [hcpu j hj]
    refine (h.fits j).congr (fun q hq => (hother j hj q hq).2.1) (fun q hq hrun => ?_)
      fun q hq hh hp => ?_
    · exact (hturn.running q (hother j hj q hq).2.2).mpr hrun
    refine hparked (fun hl => hj ?_) q hp
    have hlj := (h.holds j).mpr hh
    rw [hl] at hlj
    exact (Option.some.inj hlj).symm
  case holds =>
    intro j
    by_cases hj : j = i
    · rw [hj]; exact hholds
    · rw [hcpu j hj, hlock.others j hj, h.holds j]
      exact (holds_congr (h.fits j) fun q hq => (hother j hj q hq).2.1).symm
  case ncli =>
    intro j
    by_cases hj : j = i
    · rw [hj]; exact hlock.ncli
    · rw [hcpu j hj, h.ncli j]
      simp only [hlock.others j hj]
  case quiet =>
    intro j
    by_cases hj : j = i
    · rw [hj]; exact hlock.quiet
    · rw [hcpu j hj]; exact h.quiet j
  case one =>
    -- the process of CPU `i` is nobody else's
    have hmine : ∀ j q, j ≠ i → (s'.cpu i).proc = some q → (s'.cpu j).proc ≠ some q := by
      intro j q hj hi hq
      rw [hcpu j hj] at hq
      exact (hother j hj q hq).2.2 (.inr hi)
    intro j k q hjq hkq
    by_cases hj : j = i
    · by_contra hjk
      rw [hj] at hjq hjk
      exact hmine k q (Ne.symm hjk) hjq hkq
    by_cases hk : k = i
    · rw [hk] at hkq
      exact absurd hjq (hmine j q hj hkq)
    · rw [hcpu j hj] at hjq
      rw [hcpu k hk] at hkq
      exact h.one j k q hjq hkq
  case owned =>
    intro q hrun
    by_cases hq : (s'.cpu i).proc = some q
    · exact ⟨i, hq⟩
    by_cases hq' : (s.cpu i).proc = some q
    · exact absurd hrun ((hold q hq').resolve_left hq).1
    · obtain ⟨j, hj⟩ := h.owned q ((hturn.running q (not_or.mpr ⟨hq', hq⟩)).mp hrun)
      have hji : j ≠ i := fun heq => hq' (heq ▸ hj)
      exact ⟨j, by rw [hcpu j hji]; exact hj⟩
  case off =>
    intro q hq
    by_cases hq' : (s.cpu i).proc = some q
    · exact ((hold q hq').resolve_left (hq i)).2
    rcases hpc q hq' with heq | ⟨-, heq⟩
    · rw [heq]
      refine h.off q fun j => ?_
      by_cases hj : j = i
      · rw [hj]; exact hq'
      · rw [← hcpu j hj]; exact hq j
    · exact ⟨_, heq⟩
  case chan =>
    intro q hc
    by_cases hm : (s.cpu i).proc = some q ∨ (s'.cpu i).proc = some q
    · exact hchan q hm hc
    rw [hturn.chan q hm] at hc
    obtain ⟨hasleep, halive⟩ := h.chan q hc
    rcases hpc q (not_or.mp hm).1 with heq | ⟨hk, -⟩
    · rw [heq]; exact ⟨hasleep, hturn.alive q hm halive⟩
    · exact absurd halive (not_alive_of_embryo (hturn.kid q hk))
  case gone =>
    intro q hg
    by_cases hq : (s.cpu i).proc = some q
    · exact hgone q hq hg
    rcases hpc q hq with heq | ⟨-, heq⟩
    · rw [heq] at hg
      intro halive
      rcases hturn.born q halive with halive' | ⟨r, hr⟩
      · exact h.gone q hg halive'
      · rw [h.forks r _ q hr (by decide)] at hg
        exact hg
    · rw [heq] at hg; exact absurd hg id
  case forks =>
    intro q stage np hb hstage
    rcases hturn.forks q stage np hb hstage with ⟨stage', hstage', hb'⟩ | hk
    · have hoff := h.forks q stage' np hb' hstage'
      have hembryo := ((shape_of_reached h.reached).forks q stage' np hb').2.1
      have hnp : (s.cpu i).proc ≠ some np := fun hnp => (h.fits i).not_embryo hnp hembryo
      rcases hpc np hnp with heq | ⟨-, heq⟩
      · rw [heq, hoff]
      · exact heq
    · exact hkid np hk
  case paired => exact hlock.paired

/-! ### Steps of a process -/

theorem Sane.interrupts_off (hpos : 0 < (s.cpu i).ncli) : (s.cpu i).interrupts = false := by
  by_contra hon
  rw [Bool.not_eq_false] at hon
  have hzero := h.quiet i hon
  omega

theorem Sane.popcli_eq (hpos : 0 < (s.cpu i).ncli) :
    popcli (s.cpu i) = some { s.cpu i with
      ncli := (s.cpu i).ncli - 1
      interrupts := (s.cpu i).ncli - 1 = 0 ∧ (s.cpu i).intena = true } := by
  rw [popcli, if_neg]
  rw [h.interrupts_off hpos]
  simp only [Bool.false_eq_true, false_or]
  omega

theorem Sane.release_eq (hlock : s.lock = some i) (thread : Thread C) :
    release i thread s =
      { s.setCpu i { s.cpu i with
          ncli := (s.cpu i).ncli - 1
          interrupts := (s.cpu i).ncli - 1 = 0 ∧ (s.cpu i).intena = true } with
        lock := none
        events := .release thread :: s.events } := by
  have hpos : 0 < (s.cpu i).ncli := by
    rw [h.ncli i, if_pos hlock]
    omega
  rw [release, if_pos hlock, h.popcli_eq hpos]

theorem Sane.acquire_some {thread : Thread C} (hfree : ¬ (s.cpu i).Holds s.pc)
    (ha : acquire i thread s = some s') : s.lock = none ∧ s' =
      { s.setCpu i (pushcli (s.cpu i)) with
        lock := some i
        events := .acquire thread :: s.events } := by
  rw [← h.holds i] at hfree
  rw [acquire, if_neg hfree] at ha
  split at ha
  next hnone =>
    cases ha
    exact ⟨hnone, rfl⟩
  · cases ha

theorem Sane.guards (i : C) :
    Guards s i (s.cpu i).ncli (s.cpu i).locks (s.cpu i).interrupts s.lock s.events :=
  ⟨fun _ _ => Iff.rfl, h.ncli i, h.quiet i, h.paired⟩

theorem Sane.released (hlock : s.lock = some i) (thread : Thread C) :
    Guards s i ((s.cpu i).ncli - 1) (s.cpu i).locks
      ((s.cpu i).ncli - 1 = 0 ∧ (s.cpu i).intena = true) none (.release thread :: s.events) := by
  have hncli := h.ncli i
  have hpaired := h.paired
  rw [if_pos hlock] at hncli
  rw [hlock] at hpaired
  refine ⟨fun j hj => ?_, ?_, ?_, hpaired⟩
  · rw [hlock]
    exact iff_of_false (by simp) fun heq => hj (Option.some.inj heq).symm
  · simp only [reduceCtorEq, if_false]
    omega
  · rw [decide_eq_true_eq]
    exact fun hq => hq.1

theorem Sane.acquired (hnone : s.lock = none) (thread : Thread C) :
    Guards s i (pushcli (s.cpu i)).ncli (s.cpu i).locks false (some i)
      (.acquire thread :: s.events) := by
  have hncli := h.ncli i
  have hpaired := h.paired
  rw [hnone] at hncli hpaired
  refine ⟨fun j hj => ?_, ?_, nofun, hpaired⟩
  · rw [hnone]
    exact iff_of_false (fun heq => hj (Option.some.inj heq).symm) (by simp)
  · simp only [reduceCtorEq, if_false] at hncli
    simp only [pushcli, if_true]
    omega

theorem Sane.executes (hp : (s.cpu i).scheduler = .switched p) :
    (s.cpu i).proc = some p ∧
      Executes (s.table.proc p).state (s.cpu i).locks (s.pc p) := by
  have hfit := h.fits i
  rw [Fits, hp] at hfit
  exact hfit

theorem Sane.holds_iff (hp : (s.cpu i).scheduler = .switched p) :
    s.lock = some i ↔ (s.pc p).Holds := by
  rw [h.holds i, Cpu.Holds, hp]

theorem Sane.runs (hst : (s.table.proc p).state = .RUNNING) (hasleep : ¬ (s.pc p).Asleep) :
    s.table.Runs p := by
  refine ⟨hst, ?_⟩
  by_contra hchan
  exact hasleep (h.chan p hchan).1

omit h

/-- The table does what `p` does, and no new thread is set up. -/
def Acts (p : Fin NPROC) (t t' : Table) : Prop :=
  t' = t ∨ ∃ a, Ptable.step t a = some t' ∧ newborn t a = none ∧
    (mover a = none ∨ mover a = some p)

/-- **A step of CPU `i` that sets up no new thread.** If it changes the table it has the lock, and
the step is one of a process that the CPU has before or after. -/
theorem Sane.replace (h : Sane s)
    (ht : t = s.table ∨ s.lock = some i ∧ ∃ a, Ptable.step s.table a = some t ∧
      newborn s.table a = none ∧
      ∀ q, mover a = some q → (s.cpu i).proc = some q ∨ c.proc = some q)
    (hlock : Guards s i c.ncli c.locks c.interrupts lock events)
    (hpc : ∀ q, (s.cpu i).proc ≠ some q → pc q = s.pc q) (hfits : Fits t pc c)
    (hholds : lock = some i ↔ c.Holds pc)
    (hnew : ∀ q, c.proc = some q → (s.cpu i).proc = some q ∨
      (s.table.proc q).state = .RUNNABLE ∧ ∀ j, (s.cpu j).proc ≠ some q)
    (hold : ∀ q, (s.cpu i).proc = some q → c.proc = some q ∨
      (t.proc q).state ≠ .RUNNING ∧ ∃ x, pc q = .off x)
    (hchan : ∀ q, (s.cpu i).proc = some q ∨ c.proc = some q →
      (t.proc q).chan ≠ none → (pc q).Asleep ∧ Alive (t.proc q).state)
    (hgone : ∀ q, (s.cpu i).proc = some q → (pc q).Gone → ¬ Alive (t.proc q).state) :
    Sane { s with
      table := t
      pc := pc
      cpu := update s.cpu i c
      lock := lock
      events := events } := by
  have hself : update s.cpu i c i = c := update_self i c s.cpu
  apply h.turn none
  case hcalm => exact h.calm
  case hreached =>
    rcases ht with rfl | ⟨-, a, hs, -⟩
    · exact h.reached
    · exact .step h.reached trivial hs
  case hcpu => exact fun j hj => update_of_ne hj c s.cpu
  case hturn =>
    simp only [hself]
    rcases ht with rfl | ⟨-, a, hs, hkid, hmover⟩
    · exact Turn.refl
    · have hturn := turn_of_step (shape_of_reached h.reached) hs
      rw [hkid] at hturn
      exact hturn.mono hmover
  case hparked =>
    intro hl q hq
    rcases ht with rfl | ⟨hi, -⟩
    · exact hq
    · exact absurd hi hl
  case hpc => exact fun q hq => .inl (hpc q hq)
  case hkid => intro np hk; cases hk
  all_goals
    simp only [hself]
    assumption

theorem Sane.keep (h : Sane s) (hproc : (s.cpu i).proc = some p) {x : Pc} (hcp : c.proc = some p)
    (hacts : Acts p s.table t) (hlocked : t = s.table ∨ s.lock = some i)
    (hlock : Guards s i c.ncli c.locks c.interrupts lock events)
    (hfits : Fits t (update s.pc p x) c) (hholds : lock = some i ↔ c.Holds (update s.pc p x))
    (hchan : (t.proc p).chan ≠ none → x.Asleep ∧ Alive (t.proc p).state)
    (hgone : x.Gone → ¬ Alive (t.proc p).state) :
    Sane { s with
      table := t
      pc := update s.pc p x
      cpu := update s.cpu i c
      lock := lock
      events := events } := by
  have hpcp : update s.pc p x p = x := update_self p x s.pc
  refine h.replace ?_ hlock ?_ hfits hholds ?_ ?_ ?_ ?_
  · rcases hacts with heq | ⟨a, hs, hkid, hmover⟩
    · exact .inl heq
    refine hlocked.imp_right fun hi => ⟨hi, a, hs, hkid, fun q hq => .inl ?_⟩
    rcases hmover with hnone | hmover
    · cases hnone.symm.trans hq
    · rw [hproc, ← hmover, hq]
  · intro q hq
    refine update_of_ne ?_ x s.pc
    rintro rfl
    exact hq hproc
  · exact fun q hq => .inl (hproc.trans (hcp.symm.trans hq))
  · exact fun q hq => .inl (hcp.trans (hproc.symm.trans hq))
  · intro q hq
    rw [hproc, hcp, or_self] at hq
    cases hq
    rw [hpcp]
    exact hchan
  · intro q hq
    cases hproc.symm.trans hq
    rw [hpcp]
    exact hgone

/-- **A step of the thread of `p`** by which it stays on its CPU. -/
theorem Sane.thread (h : Sane s) (hp : (s.cpu i).scheduler = .switched p) {x : Pc}
    (hcp : c.proc = some p) (hc : c.scheduler = .switched p) (hacts : Acts p s.table t)
    (hlocked : t = s.table ∨ s.lock = some i)
    (hlock : Guards s i c.ncli c.locks c.interrupts lock events)
    (hholds : lock = some i ↔ x.Holds) (hexec : Executes (t.proc p).state c.locks x)
    (hchan : (t.proc p).chan ≠ none → x.Asleep ∧ Alive (t.proc p).state)
    (hgone : x.Gone → ¬ Alive (t.proc p).state) :
    Sane { s with
      table := t
      pc := update s.pc p x
      cpu := update s.cpu i c
      lock := lock
      events := events } := by
  have hpcp : update s.pc p x p = x := update_self p x s.pc
  refine h.keep (h.executes hp).1 hcp hacts hlocked hlock ?_ ?_ hchan hgone
  · rw [Fits, hc]
    exact ⟨hcp, by rw [hpcp]; exact hexec⟩
  · rw [hholds, Cpu.Holds, hc]
    simp only [hpcp]

/-- How many other locks the section releases. -/
def Section.gives : Section → Nat
  | .sleep _ true => 1
  | _ => 0

/-- **The work of a section**: the table takes a step of `p`, and `p` is in the state that goes
with the place where its thread goes on. -/
theorem worked {t' : Table} {w : Section} {locks : Nat} (hshape : Shape t) (hr : t.Runs p)
    (hw : w.Callable locks) (hb : w.body p t = some t') :
    Acts p t t' ∧ Executes (t'.proc p).state (locks - w.gives) (w.next p t) ∧
    ((t'.proc p).chan ≠ none → (w.next p t).Asleep ∧ Alive (t'.proc p).state) ∧
    ((w.next p t).Gone → ¬ Alive (t'.proc p).state) ∧ (w.next p t).Holds := by
  have hstep : ∀ {a}, a.Allowed t → act t a = some t' → Ptable.step t a = some t' := by
    intro a ha hact
    rw [step_of_allowed ha, hact]
  -- a section in which nothing happens to `p` itself
  have hstay : ∀ {a}, a.Allowed t → act t a = some t' → mover a = none → newborn t a = none →
      Acts p t t' ∧ Executes (t'.proc p).state locks .unlock ∧
      ((t'.proc p).chan ≠ none → Pc.unlock.Asleep ∧ Alive (t'.proc p).state) ∧
      (Pc.unlock.Gone → ¬ Alive (t'.proc p).state) ∧ Pc.unlock.Holds := by
    intro a ha hact hmover hborn
    have hturn := turn_of_step hshape (hstep ha hact)
    have hnot : ¬ (mover a = some p) := by rw [hmover]; exact nofun
    refine ⟨.inr ⟨a, hstep ha hact, hborn, .inl hmover⟩, (hturn.running p hnot).mpr hr.1, ?_,
      False.elim, trivial⟩
    intro hchan
    rw [hturn.chan p hnot] at hchan
    exact absurd hr.2 hchan
  cases w with
  | yield =>
    cases hb
    refine ⟨.inr ⟨.yield p, hstep hr rfl, rfl, .inr rfl⟩, ?_, ?_, False.elim, trivial⟩
    · refine ⟨?_, by rw [hw]; rfl⟩
      simp [Table.setState, Table.set, Parked]
    · intro hchan
      simp only [Table.setState, Table.set, update_self] at hchan
      exact absurd hr.2 hchan
  | sleep a lk =>
    cases hb
    refine ⟨.inr ⟨.sleep p a, hstep hr rfl, rfl, .inr rfl⟩, ?_, ?_, False.elim, trivial⟩
    · refine ⟨?_, ?_⟩
      · simp [Table.set, Parked]
      · rw [hw]
        cases lk <;> rfl
    · intro _
      refine ⟨.inl rfl, ?_⟩
      simp only [Table.set, update_self]
      trivial
  | wakeup a => exact hstay (a := .wakeup a) trivial hb rfl rfl
  | kill pid => exact hstay (a := .kill pid) trivial hb rfl rfl
  | allocproc => exact hstay (a := .allocproc p) hr hb rfl rfl
  | runnable => exact hstay (a := .runnable p) hr hb rfl rfl
  | exit =>
    have hs : Ptable.step t (.exit p) = some t' := hstep hr hb
    refine ⟨.inr ⟨.exit p, hs, rfl, .inr rfl⟩, ?_⟩
    cases stepped_of_step hs with
    | exit p =>
      have he := exited_exit p t
      refine ⟨⟨?_, by rw [hw]; rfl⟩, ?_, ?_, trivial⟩
      · rw [he.self]; exact ⟨by decide, by decide, by decide⟩
      · intro hchan
        rw [(he.same p).2.1] at hchan
        exact absurd hr.2 hchan
      · intro _
        rw [he.self]
        exact id
  | scan =>
    have hs : Ptable.step t (.scan p) = some t' := hstep hr hb
    refine ⟨.inr ⟨.scan p, hs, rfl, .inr rfl⟩, ?_⟩
    simp only [Section.next]
    rw [Section.body] at hb
    simp only [Section.action, act] at hb
    split at hb
    · simp only [Option.some.injEq, Ptable.scan] at hb
      split at hb
      · -- a child is reaped, and it is not `p`
        rename_i c hc
        have hcp : p ≠ c := by
          intro heq
          have hzombie := (zombieChild_some hc).2
          rw [← heq, hr.1] at hzombie
          cases hzombie
        have hsame : t'.proc p = t.proc p := by
          rw [← hb]
          simp [Table.goto, Ptable.reap, Table.set, hcp]
        rw [hsame, if_pos (.inl (by rw [hc]; rfl))]
        exact ⟨hr.1, absurd hr.2, False.elim, trivial⟩
      next hnone =>
        split at hb
        next hfails =>
          rw [← hb, if_pos (.inr hfails)]
          exact ⟨hr.1, absurd hr.2, False.elim, trivial⟩
        rename_i hsleeps
        have hnot : ¬ ((zombieChild t p).isSome = true ∨ havekids t p = false ∨
            (t.proc p).killed = true) := by
          rw [hnone]
          simpa using hsleeps
        rw [← hb, if_neg hnot]
        refine ⟨⟨?_, by rw [hw]; rfl⟩, fun _ => ⟨.inr rfl, ?_⟩, False.elim, trivial⟩
        · simp [Table.set, Parked]
        · simp only [Table.set, update_self]
          trivial
    · cases hb
  | cps =>
    cases hb
    exact ⟨.inl rfl, hr.1, absurd hr.2, False.elim, trivial⟩

variable (h : Sane s)
include h

variable (hp : (s.cpu i).scheduler = .switched p)
include hp

theorem Sane.work {w : Section} (hpc : s.pc p = .locked w) (hs : work i p w s = some s') :
    Sane s' := by
  obtain ⟨hproc, hexec⟩ := h.executes hp
  rw [hpc] at hexec
  have hlock : s.lock = some i := by rw [h.holds_iff hp, hpc]; trivial
  have hncli := h.ncli i
  rw [if_pos hlock] at hncli
  have hr : s.table.Runs p := h.runs hexec.1 (by rw [hpc]; exact id)
  rw [Sched.work, Option.map_eq_some_iff] at hs
  obtain ⟨t, hbody, hs⟩ := hs
  obtain ⟨hacts, hnext, hchan, hgone, hholds⟩ :=
    worked (shape_of_reached h.reached) hr hexec.2 hbody
  -- unless the section releases `lk`, the CPU is as it was
  have hkeep : w.gives = 0 → Sane ({ s with table := t }.goto p (w.next p s.table)) := by
    intro hgives
    rw [hgives] at hnext
    have hthread := h.thread hp hproc hp hacts (.inr hlock) (h.guards i)
      (iff_of_true hlock hholds) hnext hchan hgone
    rwa [update_eq_self] at hthread
  split at hs
  next a =>
    have hone : (s.cpu i).locks = 1 := hexec.2
    rw [h.popcli_eq (by omega)] at hs
    rw [← hs]
    refine h.thread hp hproc hp hacts (.inr hlock) ⟨fun _ _ => Iff.rfl, ?_, ?_, h.paired⟩
      (iff_of_true hlock hholds) hnext hchan hgone
    · change (s.cpu i).ncli - 1 = (s.cpu i).locks - 1 + if s.lock = some i then 1 else 0
      rw [if_pos hlock]
      omega
    · simp only [decide_eq_true_eq]
      omega
  next hlk =>
    rw [← hs]
    refine hkeep ?_
    cases w with
    | sleep a lk =>
      cases lk with
      | true => exact absurd rfl (hlk a)
      | false => rfl
    | _ => rfl

theorem Sane.unlock (hholds : (s.pc p).Holds) (hst : (s.table.proc p).state = .RUNNING)
    (hasleep : ¬ (s.pc p).Asleep) : Sane ((release i (.process p) s).goto p .free) := by
  have hlock := (h.holds_iff hp).mpr hholds
  rw [h.release_eq hlock]
  exact h.thread hp (h.executes hp).1 hp (.inl rfl) (.inl rfl) (h.released hlock _)
    (iff_of_false (by simp) id) hst (fun hchan => absurd (h.runs hst hasleep).2 hchan) False.elim

/-- **`sched`** does not panic, and hands the CPU and the lock to the scheduler. -/
theorem Sane.sched {caller : Caller} (hpc : s.pc p = .sched caller) :
    Sane (Sched.sched i p caller s) := by
  obtain ⟨hproc, hexec⟩ := h.executes hp
  rw [hpc] at hexec
  obtain ⟨hparked, hlocks⟩ := hexec
  have hlock : s.lock = some i := by rw [h.holds_iff hp, hpc]; trivial
  have hncli : (s.cpu i).ncli = 1 := by rw [h.ncli i, if_pos hlock, hlocks]
  have hoff := h.interrupts_off (i := i) (by omega)
  rw [Sched.sched, if_neg (not_not.mpr hlock), if_neg (not_not.mpr hncli), if_neg hparked.1,
    if_neg (by rw [hoff]; decide)]
  refine h.keep hproc hproc (.inl rfl) (.inl rfl) (h.guards i) ?_ (iff_of_true hlock trivial) ?_ ?_
  · exact ⟨hproc, hlocks, hparked, _, update_self ..⟩
  · intro hchan
    have hold := h.chan p hchan
    rw [hpc] at hold
    exact hold
  · intro hg
    refine h.gone p ?_
    rw [hpc]
    cases caller with
    | exit => trivial
    | _ => exact hg

theorem Sane.resume {caller : Caller} {intena : Bool}
    (hpc : s.pc p = .resumed (.sched caller intena)) (hs : resume i p caller intena s = some s') :
    Sane s' := by
  obtain ⟨hproc, hexec⟩ := h.executes hp
  rw [hpc] at hexec
  obtain ⟨hst, hlocks, hnotexit⟩ := hexec
  have hlock : s.lock = some i := by rw [h.holds_iff hp, hpc]; trivial
  -- after `sleep` and `wait`, `chan` is cleared
  have htidy : ∀ {x : Pc}, x.Holds → (∀ t : Table, (t.proc p).state = .RUNNING →
      Executes (t.proc p).state (s.cpu i).locks x) → ¬ x.Gone →
      Sane ({ s.setCpu i { s.cpu i with intena := intena } with
        table := s.table.set p { s.table.proc p with chan := none } }.goto p x) := by
    intro x hholds hx hgone
    have hrun : ((s.table.set p { s.table.proc p with chan := none }).proc p).state = .RUNNING := by
      simpa [Table.set] using hst
    refine h.thread hp hproc hp (.inr ⟨.tidy p, ?_, rfl, .inr rfl⟩) (.inr hlock) (h.guards i)
      (iff_of_true hlock hholds) (hx _ hrun) ?_ fun hg => absurd hg hgone
    · exact step_of_allowed hst
    · simp [Table.set]
  cases caller with
  | yield =>
    cases hs
    refine h.thread hp hproc hp (.inl rfl) (.inl rfl) (h.guards i) (iff_of_true hlock trivial) hst
      ?_ False.elim
    intro hchan
    have hasleep := (h.chan p hchan).1
    rw [hpc] at hasleep
    rcases hasleep with heq | heq <;> cases heq
  | sleep =>
    cases hs
    exact htidy trivial (fun t ht => ht) id
  | wait =>
    cases hs
    exact htidy trivial (fun t ht => ⟨ht, hlocks⟩) id
  | exit => exact absurd rfl (hnotexit intena)

theorem Sane.enter {w : Section} (hpc : s.pc p = .free) (hw : w.Callable (s.cpu i).locks)
    {s1 : State C} (ha : acquire i (.process p) s = some s1) : Sane (s1.goto p (.locked w)) := by
  obtain ⟨hproc, hexec⟩ := h.executes hp
  rw [hpc] at hexec
  have hfree : ¬ (s.cpu i).Holds s.pc := by
    rw [Cpu.Holds, hp]
    simp only [hpc]
    exact id
  obtain ⟨hnone, rfl⟩ := h.acquire_some hfree ha
  refine h.thread hp hproc hp (.inl rfl) (.inl rfl) (h.acquired hnone _)
    (iff_of_true rfl trivial) ⟨hexec, hw⟩ ?_ False.elim
  intro hchan
  have hasleep := (h.chan p hchan).1
  rw [hpc] at hasleep
  exact absurd hasleep id

theorem Sane.alone {a : Action} (hpc : s.pc p = .free) (ha : Alone p a) (hs : alone a s = some s') :
    Sane s' := by
  obtain ⟨hproc, hexec⟩ := h.executes hp
  rw [hpc] at hexec
  have hshape := shape_of_reached h.reached
  have hr : s.table.Runs p := h.runs hexec (by rw [hpc]; exact id)
  have hmover : mover a = none := by cases a <;> first | rfl | cases ha
  rw [Sched.alone, Option.map_eq_some_iff] at hs
  obtain ⟨t, hact, hs⟩ := hs
  have hstep : Ptable.step s.table a = some t := by
    rw [step_of_allowed, hact]
    cases a <;> cases ha <;> exact hr
  have hturn := turn_of_step hshape hstep
  -- apart from a slot whose first context is set up, only the table changes
  have hs' : s' = { s with table := t, pc := s'.pc } ∧
      (∀ q, newborn s.table a ≠ some q → s'.pc q = s.pc q) ∧
      ∀ np, newborn s.table a = some np → s'.pc np = .off .forkret := by
    rcases hkid : newborn s.table a with _ | np
    · rw [hkid] at hs
      rw [← hs]
      exact ⟨rfl, fun _ _ => rfl, nofun⟩
    rw [hkid] at hs
    rw [← hs]
    refine ⟨rfl, fun q hq => update_of_ne (fun heq => hq (by rw [heq])) _ s.pc, ?_⟩
    intro q hq
    cases hq
    exact update_self np _ s.pc
  obtain ⟨heq, hpcs, hborn⟩ := hs'
  have hcpu : s'.cpu = s.cpu := by rw [heq]
  have htable : s'.table = t := by rw [heq]
  have hlock : s'.lock = s.lock := by rw [heq]
  have hpcp : s'.pc p = s.pc p := by
    refine hpcs p fun hk => ?_
    have hembryo := hturn.kid p hk
    rw [hexec] at hembryo
    cases hembryo
  have hnot : ¬ mover a = some p := by rw [hmover]; exact nofun
  have hrun : (t.proc p).state = .RUNNING := (hturn.running p hnot).mpr hexec
  apply h.turn (newborn s.table a)
  case hcalm => rw [heq]; exact h.calm
  case hreached => rw [htable]; exact .step h.reached trivial hstep
  case hcpu => intro j _; rw [hcpu]
  case hlock =>
    have hevents : s'.events = s.events := by rw [heq]
    rw [hcpu, hlock, hevents]
    exact h.guards i
  case hturn =>
    rw [htable]
    refine hturn.mono fun q hq => ?_
    rw [hmover] at hq
    cases hq
  case hparked =>
    intro _ q hq
    rw [htable]
    exact parked_of_alone hshape ha hstep hq
  case hpc =>
    intro q _
    by_cases hk : newborn s.table a = some q
    · exact .inr ⟨hk, hborn q hk⟩
    · exact .inl (hpcs q hk)
  case hkid => exact hborn
  case hfits =>
    rw [hcpu, htable, Fits, hp]
    refine ⟨hproc, ?_⟩
    rw [hpcp, hpc]
    exact hrun
  case hholds =>
    rw [hcpu, hlock, h.holds i, Cpu.Holds, Cpu.Holds, hp]
    simp only [hpcp]
  case hnew => intro q hq; rw [hcpu] at hq; exact .inl hq
  case hold => intro q hq; rw [hcpu]; exact .inl hq
  case hchan =>
    intro q hq hchan
    rw [hcpu, or_self, hproc] at hq
    cases hq
    rw [htable, hturn.chan p hnot] at hchan
    exact absurd hr.2 hchan
  case hgone =>
    intro q hq hg
    rw [hproc] at hq
    cases hq
    rw [hpcp, hpc] at hg
    exact absurd hg id

omit hp

/-! ### Steps of a scheduler -/

/-- **A step of the scheduler of CPU `i`** by which it has no process before or after. -/
theorem Sane.idle (hnone : (s.cpu i).proc = none) (hc : c.proc = none)
    (ht : t = s.table ∨ s.lock = some i ∧ ∃ a, Ptable.step s.table (.wakeup a) = some t)
    (hlock : Guards s i c.ncli c.locks c.interrupts lock events) (hfits : Fits t s.pc c)
    (hholds : lock = some i ↔ c.Holds s.pc) :
    Sane { s with
      table := t
      cpu := update s.cpu i c
      lock := lock
      events := events } := by
  refine h.replace ?_ hlock (fun _ _ => rfl) hfits hholds ?_ ?_ ?_ ?_
  · exact ht.imp_right fun ⟨hi, a, hs⟩ => ⟨hi, .wakeup a, hs, rfl, nofun⟩
  · intro q hq
    cases hc.symm.trans hq
  · intro q hq
    cases hnone.symm.trans hq
  · rw [hnone, hc]
    rintro q (hq | hq) <;> cases hq
  · intro q hq
    cases hnone.symm.trans hq

theorem Sane.fits_at {x : SchedPc} (hx : (s.cpu i).scheduler = x) :
    Fits s.table s.pc { s.cpu i with scheduler := x } := by
  have hfit := h.fits i
  rw [← hx]
  exact hfit

omit h

theorem jump_setCpu (s : State C) (i : C) (c : Cpu) (lock : Option C) (events : List (Event C))
    (x : SchedPc) : ({ s.setCpu i c with lock := lock, events := events } : State C).jump i x =
      { s.setCpu i { c with scheduler := x } with lock := lock, events := events } := by
  simp [State.jump, State.setCpu]

variable (h : Sane s)
include h

theorem Sane.acquireIdle {thread : Thread C} {x : SchedPc} {s1 : State C}
    (hidle : (s.cpu i).scheduler = .idle) (ha : acquire i thread s = some s1)
    (hx : ∀ c : Cpu, c.proc = none → c.scheduler = x → c.locks = (s.cpu i).locks →
      Fits s.table s.pc c ∧ c.Holds s.pc) : Sane (s1.jump i x) := by
  have hproc : (s.cpu i).proc = none := h.fits_at hidle
  have hfree : ¬ (s.cpu i).Holds s.pc := by
    rw [Cpu.Holds, hidle]
    exact id
  obtain ⟨hnone, rfl⟩ := h.acquire_some hfree ha
  rw [jump_setCpu]
  obtain ⟨hfits, hholds⟩ := hx { pushcli (s.cpu i) with scheduler := x } hproc rfl rfl
  exact h.idle hproc hproc (.inl rfl) (h.acquired hnone thread) hfits (iff_of_true rfl hholds)

theorem Sane.releaseIdle {thread : Thread C} (hproc : (s.cpu i).proc = none)
    (hholds : (s.cpu i).Holds s.pc) : Sane ((release i thread s).jump i .idle) := by
  have hlock := (h.holds i).mpr hholds
  rw [h.release_eq hlock, jump_setCpu]
  exact h.idle hproc hproc (.inl rfl) (h.released hlock thread) hproc (iff_of_false (by simp) id)

theorem Sane.jump {x : SchedPc} (hproc : (s.cpu i).proc = none) (hholds : (s.cpu i).Holds s.pc)
    (hx : Fits s.table s.pc { s.cpu i with scheduler := x } ∧
      Cpu.Holds { s.cpu i with scheduler := x } s.pc) : Sane (s.jump i x) :=
  h.idle hproc hproc (.inl rfl) (h.guards i) hx.1 (iff_of_true ((h.holds i).mpr hholds) hx.2)

theorem Sane.unowned (hlock : s.lock = some i) (hproc : (s.cpu i).proc = none)
    (hst : (s.table.proc p).state = .RUNNABLE) (j : C) : (s.cpu j).proc ≠ some p := by
  intro hj
  have hji : j ≠ i := by
    intro heq
    rw [heq, hproc] at hj
    cases hj
  have hfree : ¬ (s.cpu j).Holds s.pc := by
    rw [← h.holds j, hlock]
    exact fun heq => hji (Option.some.inj heq).symm
  have hrun := (h.fits j).running hfree hj
  rw [hst] at hrun
  cases hrun

theorem Sane.choose {k : Nat} (hx : (s.cpu i).scheduler = .scan k)
    (hact : act s.table (.schedule p) = some t) : Sane ({ s with table := t }.setCpu i
      { s.cpu i with proc := some p, scheduler := .chosen p }) := by
  obtain ⟨hproc, hlocks⟩ : (s.cpu i).proc = none ∧ (s.cpu i).locks = 0 := h.fits_at hx
  have hholds : (s.cpu i).Holds s.pc := by rw [Cpu.Holds, hx]; trivial
  have hlock := (h.holds i).mpr hholds
  have hs : Ptable.step s.table (.schedule p) = some t :=
    (step_of_allowed (a := .schedule p) trivial).trans hact
  have hrunnable : (s.table.proc p).state = .RUNNABLE := by
    cases stepped_of_step hs with
    | schedule p hst => exact hst
  have ht : t = s.table.setState p .RUNNING := by
    cases stepped_of_step hs with
    | schedule => rfl
  have hfree := h.unowned hlock hproc hrunnable
  have hrun : (t.proc p).state = .RUNNING := by rw [ht]; simp [Table.setState, Table.set]
  obtain ⟨x, hoff⟩ := h.off p hfree
  refine h.replace (.inr ⟨hlock, .schedule p, hs, rfl, fun q hq => .inr hq⟩)
    (h.guards i) (fun _ _ => rfl) ⟨rfl, hlocks, hrun, x, hoff⟩ (iff_of_true hlock trivial)
    ?_ ?_ ?_ ?_
  · intro q hq
    cases hq
    exact .inr ⟨hrunnable, hfree⟩
  · intro q hq
    cases hproc.symm.trans hq
  · intro q hq hchan
    simp only [hproc, Option.some.injEq, reduceCtorEq, false_or] at hq
    subst hq
    have hchan' : (s.table.proc p).chan ≠ none := by
      simpa [ht, Table.setState, Table.set] using hchan
    refine ⟨(h.chan p hchan').1, ?_⟩
    rw [hrun]
    trivial
  · intro q hq
    cases hproc.symm.trans hq

theorem Sane.swtch (hx : (s.cpu i).scheduler = .chosen p) :
    Sane ((s.goto p (swtch (s.pc p))).jump i (.switched p)) := by
  obtain ⟨hproc, hlocks, hrun, x, hoff⟩ : (s.cpu i).proc = some p ∧ (s.cpu i).locks = 0 ∧
      (s.table.proc p).state = .RUNNING ∧ ∃ x, s.pc p = .off x := h.fits_at hx
  have hlock : s.lock = some i := by rw [h.holds i, Cpu.Holds, hx]; trivial
  have hswtch : Sched.swtch (s.pc p) = .resumed x := by
    rw [hoff]
    rfl
  rw [hswtch]
  have hpcp : update s.pc p (.resumed x) p = .resumed x := update_self ..
  refine h.keep hproc hproc (.inl rfl) (.inl rfl) (h.guards i) ?_ ?_ ?_ False.elim
  · refine ⟨hproc, ?_⟩
    rw [hpcp]
    refine ⟨hrun, hlocks, fun b hb => ?_⟩
    -- who has exited is not RUNNING
    refine h.gone p ?_ ?_
    · rw [hoff, hb]; trivial
    · rw [hrun]; trivial
  · simp only [Cpu.Holds, hpcp]
    exact iff_of_true hlock trivial
  · intro hc
    have hchan := h.chan p hc
    rw [hoff] at hchan
    refine ⟨?_, hchan.2⟩
    cases x with
    | forkret => exact absurd hchan.1 id
    | sched => exact hchan.1

theorem Sane.back (hx : (s.cpu i).scheduler = .back p) :
    Sane (s.setCpu i { s.cpu i with proc := none, scheduler := .scan (p + 1) }) := by
  obtain ⟨hproc, hlocks, hparked, x, hoff⟩ : (s.cpu i).proc = some p ∧ (s.cpu i).locks = 0 ∧
      Parked (s.table.proc p).state ∧ ∃ x, s.pc p = .off x := h.fits_at hx
  have hlock : s.lock = some i := by rw [h.holds i, Cpu.Holds, hx]; trivial
  refine h.replace (.inl rfl) (h.guards i) (fun _ _ => rfl) ⟨rfl, hlocks⟩
    (iff_of_true hlock trivial) nofun ?_ (fun q _ => h.chan q) fun q _ => h.gone q
  intro q hq
  cases hproc.symm.trans hq
  exact .inr ⟨hparked.1, x, hoff⟩

/-! ### Runs -/

theorem Sane.lock_of_rests (hrests : s.Rests i) : s.lock ≠ some i := by
  rw [ne_eq, h.holds i]
  unfold State.Rests at hrests
  unfold Cpu.Holds
  split at hrests
  next hx => rw [hx]; exact id
  next p hx => rw [hx]; simp only [hrests]; exact id
  · exact absurd hrests id

/-- The thread of CPU `i` takes a spinlock other than `ptable.lock`, releases one, or interrupts
go on or off. -/
theorem Sane.rest (hrests : s.Rests i) (hproc : c.proc = (s.cpu i).proc)
    (hsched : c.scheduler = (s.cpu i).scheduler) (hncli : c.ncli = c.locks)
    (hquiet : c.interrupts = true → c.ncli = 0) : Sane (s.setCpu i c) := by
  have hlock := h.lock_of_rests hrests
  have hguards : Guards s i c.ncli c.locks c.interrupts s.lock s.events :=
    ⟨fun _ _ => Iff.rfl, by rw [if_neg hlock]; exact hncli, hquiet, h.paired⟩
  rcases hx : (s.cpu i).scheduler with _ | _ | _ | _ | p | p | p
  all_goals
    rw [State.Rests, hx] at hrests
    rw [hx] at hsched
  · have hnone : (s.cpu i).proc = none := h.fits_at hx
    refine h.idle hnone (hproc.trans hnone) (.inl rfl) hguards ?_ ?_
    · rw [Fits, hsched]; exact hproc.trans hnone
    · rw [Cpu.Holds, hsched]; exact iff_of_false hlock id
  · exact absurd hrests id
  · exact absurd hrests id
  · exact absurd hrests id
  · exact absurd hrests id
  · obtain ⟨hp, hexec⟩ := h.executes hx
    rw [hrests] at hexec
    have hchan : (s.table.proc p).chan ≠ none →
        Pc.free.Asleep ∧ Alive (s.table.proc p).state := by
      intro hchan
      have hold := h.chan p hchan
      rwa [hrests] at hold
    have hrun : Executes (s.table.proc p).state c.locks .free := hexec
    have hthread := h.thread hx (hproc.trans hp) hsched (.inl rfl) (.inl rfl) hguards
      (iff_of_false hlock id) hrun hchan False.elim
    rwa [← hrests, update_eq_self] at hthread
  · exact absurd hrests id

theorem Sane.process {m : Move} (hp : (s.cpu i).scheduler = .switched p)
    (hs : process i p s m = some s') : Sane s' := by
  obtain ⟨-, hexec⟩ := h.executes hp
  cases m with
  | go =>
    simp only [Sched.process] at hs
    split at hs
    · cases hs
    · cases hs
    next w hpc => exact h.work hp hpc hs
    next hpc =>
      cases hs
      rw [hpc] at hexec
      exact h.unlock hp (by rw [hpc]; trivial) hexec (by rw [hpc]; exact id)
    next hpc =>
      cases hs
      rw [hpc] at hexec
      exact h.unlock hp (by rw [hpc]; trivial) hexec.1 (by rw [hpc]; exact id)
    next caller hpc =>
      cases hs
      exact h.sched hp hpc
    next caller intena hpc => exact h.resume hp hpc hs
  | enter w =>
    simp only [Sched.process] at hs
    split at hs
    next hw =>
      rw [Option.map_eq_some_iff] at hs
      obtain ⟨s1, ha, rfl⟩ := hs
      exact h.enter hp hw.1 hw.2 ha
    · cases hs
  | alone a =>
    simp only [Sched.process] at hs
    split at hs
    next ha => exact h.alone hp ha.1 ha.2 hs
    · cases hs
  | _ => cases hs

theorem Sane.scheduler {m : Move} (hs : scheduler i s m = some s') : Sane s' := by
  cases m with
  | go =>
    simp only [Sched.scheduler] at hs
    split at hs
    next hx =>
      split at hs
      next hlocks =>
        rw [Option.map_eq_some_iff] at hs
        obtain ⟨s1, ha, rfl⟩ := hs
        refine h.acquireIdle hx ha fun c hproc hc hl => ?_
        rw [Fits, Cpu.Holds, hc]
        exact ⟨⟨hproc, hl.trans hlocks⟩, trivial⟩
      · cases hs
    next a hx =>
      have hproc : (s.cpu i).proc = none := h.fits_at hx
      have hholds : (s.cpu i).Holds s.pc := by rw [Cpu.Holds, hx]; trivial
      have hlock := (h.holds i).mpr hholds
      cases hs
      exact h.idle hproc hproc (.inr ⟨hlock, a, rfl⟩) (h.guards i) hproc
        (iff_of_true hlock trivial)
    next hx =>
      cases hs
      exact h.releaseIdle (h.fits_at hx) (by rw [Cpu.Holds, hx]; trivial)
    next k hx =>
      obtain ⟨hproc, hlocks⟩ : (s.cpu i).proc = none ∧ (s.cpu i).locks = 0 := h.fits_at hx
      have hholds : (s.cpu i).Holds s.pc := by rw [Cpu.Holds, hx]; trivial
      split at hs
      · split at hs
        next t hact =>
          cases hs
          exact h.choose hx hact
        · cases hs
          exact h.jump hproc hholds ⟨⟨hproc, hlocks⟩, trivial⟩
      · cases hs
        exact h.releaseIdle hproc hholds
    next p hx =>
      cases hs
      exact h.swtch hx
    · cases hs
    next p hx =>
      cases hs
      exact h.back hx
  | enter w =>
    cases w with
    | wakeup a =>
      simp only [Sched.scheduler] at hs
      split at hs
      next hx =>
        rw [Option.map_eq_some_iff] at hs
        obtain ⟨s1, ha, rfl⟩ := hs
        refine h.acquireIdle hx ha fun c hproc hc _ => ?_
        rw [Fits, Cpu.Holds, hc]
        exact ⟨hproc, trivial⟩
      · cases hs
    | _ => cases hs
  | _ => cases hs

theorem Sane.step {l : C × Move} (hs : Sched.step s l = some s') : Sane s' := by
  obtain ⟨i, m⟩ := l
  have hfree : s.Rests i → (s.cpu i).ncli = (s.cpu i).locks := by
    intro hrests
    rw [h.ncli i, if_neg (h.lock_of_rests hrests), Nat.add_zero]
  simp only [Sched.step, h.calm, Bool.false_eq_true, if_false] at hs
  split at hs
  · split at hs
    next hrests =>
      cases hs
      exact h.rest hrests.1 rfl rfl (hfree hrests.1) fun _ => hrests.2
    · cases hs
  · split at hs
    next hrests =>
      cases hs
      refine h.rest hrests rfl rfl ?_ nofun
      simp only [pushcli, hfree hrests]
    · cases hs
  · split at hs
    next hrests =>
      have hncli := hfree hrests.1
      rw [h.popcli_eq (by omega)] at hs
      cases hs
      refine h.rest hrests.1 rfl rfl ?_ ?_
      · simp only [hncli]
      · simp only [decide_eq_true_eq]
        exact fun hq => hq.1
    · cases hs
  · split at hs
    next p hp => exact h.process hp hs
    · exact h.scheduler hs

omit h

theorem sane_boot : Sane (boot : State C) := by
  have hproc : ∀ p, (userinit.proc p).state ≠ .RUNNING ∧ (userinit.proc p).chan = none := by
    intro p
    rcases userinit_proc p with ⟨-, heq⟩ | ⟨-, heq⟩
    · rw [heq]; exact ⟨by simp, rfl⟩
    · rw [heq]; exact ⟨by simp [zeroed], rfl⟩
  constructor
  case calm => rfl
  case reached => exact .init rfl
  case fits => exact fun i => rfl
  case holds => exact fun i => iff_of_false (by simp [boot]) id
  case ncli => intro i; simp [boot]
  case quiet => exact fun i _ => rfl
  case one => intro i j p hi; cases hi
  case owned => exact fun p hp => absurd hp (hproc p).1
  case off => exact fun p _ => ⟨_, rfl⟩
  case chan => exact fun p hp => absurd (hproc p).2 hp
  case gone => exact fun p hp => absurd hp id
  case forks =>
    intro q stage np hb
    cases hb
  case paired => trivial

theorem sane_of_reached (h : (system C).Reached s) : Sane s := by
  refine h.invariant ?_ fun _ _ _ ih _ hs => ih.step hs
  rintro _ rfl
  exact sane_boot

end

/-- **One CPU for every running process.** On a machine with any number of CPUs, whenever
`ptable.lock` is free, every RUNNING process is the `proc` of exactly one CPU and the `proc`
of a CPU is RUNNING. At all times no process is executed by two CPUs, acquiring and
releasing `ptable.lock` alternate, and the CPU that has the lock is the one whose thread is
in a section under it, so that exactly this thread, or the one it switches to, can
release it; nothing panics on the way. -/
theorem one_cpu_per_process (s : State C) (h : (system C).Reached s) :
    (s.lock = none →
      (∀ p, (s.table.proc p).state = .RUNNING → ∃! i, (s.cpu i).proc = some p) ∧
      ∀ i p, (s.cpu i).proc = some p → (s.table.proc p).state = .RUNNING) ∧
    (∀ i j p, (s.cpu i).scheduler = .switched p → (s.cpu j).scheduler = .switched p → i = j) ∧
    Paired s.lock.isSome s.events ∧ (∀ i, s.lock = some i ↔ (s.cpu i).Holds s.pc) ∧
    s.panicked = false := by
  have hsane := sane_of_reached h
  refine ⟨fun hlock => ⟨fun p hp => ?_, fun i p hp => ?_⟩, fun i j p hi hj => ?_, hsane.paired,
    hsane.holds, hsane.calm⟩
  · obtain ⟨i, hi⟩ := hsane.owned p hp
    exact ⟨i, hi, fun j hj => hsane.one j i p hj hi⟩
  · have hfree : ¬ (s.cpu i).Holds s.pc := by
      rw [← hsane.holds i, hlock]
      simp
    exact (hsane.fits i).running hfree hp
  · exact hsane.one i j p (hsane.executes hi).1 (hsane.executes hj).1

def twoCpus : List (Fin 2 × Move) :=
  [(0, .go), (0, .go), (0, .go), (0, .go),
    (0, .enter .allocproc), (0, .go), (0, .go), (0, .alone (.kalloc 0 true)),
    (0, .alone (.copyuvm 0 true)), (0, .alone (.setParent 0)), (0, .enter .runnable), (0, .go),
    (0, .go), (1, .go), (1, .go), (1, .go), (1, .go), (1, .go)]

theorem one_cpu_per_process_two_cpus :
    ∃ s : State (Fin 2), (system (Fin 2)).Reached s ∧ s.lock = none ∧
      (s.table.proc 0).state = .RUNNING ∧ (s.table.proc 1).state = .RUNNING ∧
      (∃! i, (s.cpu i).proc = some 0) ∧ ∃! i, (s.cpu i).proc = some 1 := by
  have hinit : (system (Fin 2)).Reached boot := .init rfl
  obtain ⟨s, hs, hlock, hparent, hchild⟩ := hinit.run_decide twoCpus
    (P := fun s => s.lock = none ∧ (s.table.proc 0).state = .RUNNING ∧
      (s.table.proc 1).state = .RUNNING) (by decide +kernel)
  have hrunning := ((one_cpu_per_process s hs).1 hlock).1
  exact ⟨s, hs, hlock, hparent, hchild, hrunning 0 hparent, hrunning 1 hchild⟩

/-- **Spinlocks and interrupts.** `ncli` counts the locks a CPU holds, with interrupts off while it
holds one; a thread just switched to holds `ptable.lock` alone, and has not exited. -/
theorem locks_counted (s : State C) (h : (system C).Reached s) (i : C) :
    (s.cpu i).ncli = (s.cpu i).locks + (if s.lock = some i then 1 else 0) ∧
    (0 < (s.cpu i).ncli → (s.cpu i).interrupts = false) ∧
    ∀ p x, (s.cpu i).scheduler = .switched p → s.pc p = .resumed x →
      s.lock = some i ∧ (s.cpu i).ncli = 1 ∧ ∀ b, x ≠ .sched .exit b := by
  have hsane := sane_of_reached h
  refine ⟨hsane.ncli i, hsane.interrupts_off, fun p x hp hx => ?_⟩
  obtain ⟨-, hexec⟩ := hsane.executes hp
  have hlock := hsane.holds_iff hp
  rw [hx] at hexec hlock
  rw [hsane.ncli i, hexec.2.1, if_pos (hlock.mpr trivial)]
  exact ⟨hlock.mpr trivial, rfl, hexec.2.2⟩

theorem locks_counted_forkret : ∃ s : State (Fin 2), (system (Fin 2)).Reached s ∧
    s.pc 0 = .resumed .forkret ∧ (s.cpu 1).ncli = 1 := by
  have hinit : (system (Fin 2)).Reached boot := .init rfl
  obtain ⟨s, hs, hp, hx⟩ := hinit.run_decide [(1, .go), (1, .go), (1, .go)]
    (P := fun s => (s.cpu 1).scheduler = .switched 0 ∧ s.pc 0 = .resumed .forkret)
    (by decide +kernel)
  exact ⟨s, hs, hx, ((locks_counted s hs 1).2.2 0 _ hp hx).2.1⟩

/-- **The machine refines the process table**, so on any number of CPUs no exit of a child is lost
and pids tell processes apart. -/
theorem machine_refines_table (s : State C) (h : (system C).Reached s) :
    Ptable.system.Reached s.table ∧
    (∀ p, s.table.Waiting p → (s.table.proc p).killed = false ∧
      (∃ c, (s.table.proc c).parent = some p) ∧
      ∀ c, (s.table.proc c).parent = some p → (s.table.proc c).state ≠ .ZOMBIE) ∧
    (s.table.allocated < 2 ^ 31 - 1 → ∀ p q, (s.table.proc p).state ≠ .UNUSED →
      (s.table.proc q).pid = (s.table.proc p).pid → q = p) := by
  have hr := (sane_of_reached h).reached
  obtain ⟨-, hwaits, -⟩ := waits_of_reached hr
  exact ⟨hr, fun p hp => ⟨hwaits.killed p hp, hwaits.child p hp, hwaits.zombie p hp⟩,
    fun hfew p q hp => pid_unique hr hfew hp⟩

/-- The parent on CPU 0 goes to sleep in `wait`, while its child runs on CPU 1. -/
theorem machine_refines_table_wait : ∃ s : State (Fin 2), (system (Fin 2)).Reached s ∧
    (s.cpu 1).proc = some 1 ∧ Ptable.system.Reached s.table ∧ s.table.Waiting 0 ∧
    ((s.table.proc 0).killed = false ∧ (∃ c, (s.table.proc c).parent = some 0) ∧
      ∀ c, (s.table.proc c).parent = some 0 → (s.table.proc c).state ≠ .ZOMBIE) ∧
    ∀ q, (s.table.proc q).pid = (s.table.proc 0).pid → q = 0 := by
  have hinit : (system (Fin 2)).Reached boot := .init rfl
  obtain ⟨s, hs, hcpu, hfew, hsleeping, hchan⟩ := hinit.run_decide
    (twoCpus ++ [(0, .alone (.reap 0 .wait)), (0, .enter .scan), (0, .go)])
    (P := fun s => (s.cpu 1).proc = some 1 ∧ s.table.allocated < 2 ^ 31 - 1 ∧
      (s.table.proc 0).state = .SLEEPING ∧ (s.table.proc 0).chan = some (.proc 0))
    (by decide +kernel)
  obtain ⟨htable, hwaits, hpids⟩ := machine_refines_table s hs
  have hused : (s.table.proc 0).state ≠ .UNUSED := by
    rw [hsleeping]
    decide
  exact ⟨s, hs, hcpu, htable, ⟨hsleeping, hchan⟩, hwaits 0 ⟨hsleeping, hchan⟩,
    fun q => hpids hfew 0 q hused⟩

end Xv6.Sched
