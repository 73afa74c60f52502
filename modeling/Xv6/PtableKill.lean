import Xv6.PtableShape

/-!
**Whom `kill` reaches, and for how long.**

`kill` compares pids and does not look at the state. An UNUSED slot has pid 0, or the pid of a
process whose `fork` failed; `kill` of such a pid returns 0 and sets `killed` in the free slot,
and `allocproc`, which does not reset it, hands it to the next process
(`kill_zero_kills_next_child`). A `fork` that fails after its EMBRYO has been killed leaves
the same behind.

When neither happens (`Spares`), UNUSED slots are not killed (`Clean`), `kill` does what it is
for, and a new process starts out killed only if a `kill` has named it.
-/

namespace Xv6.Ptable

open Function

variable {t t' : Table} {p np : Fin NPROC} {e : Proc} {pid : Int}

/-! ### Pids -/

/-- Every slot has pid 0 or the pid its last process was given, and no two slots were last given
to the same process. -/
structure Lives (t : Table) : Prop where
  bound : ∀ p, t.life p ≤ t.allocated
  pid : ∀ p, (t.proc p).pid = 0 ∨ 0 < t.life p ∧ (t.proc p).pid = t.life p % 2 ^ 32
  distinct : ∀ p q, 0 < t.life p → t.life p = t.life q → p = q

variable (h : Lives t)
include h

theorem Lives.keep (halloc : t'.allocated = t.allocated) (hlife : t'.life = t.life)
    (hpid : ∀ p, (t'.proc p).pid = (t.proc p).pid ∨ (t'.proc p).pid = 0) : Lives t' where
  bound p := by rw [hlife, halloc]; exact h.bound p
  pid p := by
    rcases hpid p with heq | hzero
    · rw [hlife, heq]; exact h.pid p
    · exact .inl hzero
  distinct p q := by rw [hlife]; exact h.distinct p q

theorem Lives.set (he : e.pid = (t.proc p).pid ∨ e.pid = 0) : Lives (t.set p e) := by
  refine h.keep rfl rfl fun q => ?_
  by_cases hq : q = p
  · subst hq; simpa [Table.set] using he
  · exact .inl (by simp [Table.set, hq])

theorem Lives.goto (p : Fin NPROC) (b : Base) : Lives (t.goto p b) :=
  h.keep rfl rfl fun _ => .inl rfl

theorem Lives.forking {b : Base} (he : e.pid = (t.proc np).pid) :
    Lives ((t.set np e).goto p b) := (h.set (.inl he)).goto p b

theorem Lives.allocproc (hshape : Shape t) {named : Fin NPROC → Bool} {base : Fin NPROC → Base} :
    Lives { t.embryo np with named := named, base := base } := by
  constructor
  case bound =>
    intro q
    by_cases hq : q = np
    · subst hq; simp
    · simpa [hq] using (h.bound q).trans (Nat.le_succ _)
  case pid =>
    intro q
    by_cases hq : q = np
    · subst hq
      exact .inr ⟨by simp, by simpa [Table.set] using hshape.nextpid⟩
    · simpa [Table.set, hq] using h.pid q
  case distinct =>
    intro q q' hpos heq
    have hlt : ∀ r, t.life r ≠ t.allocated + 1 := fun r => (Nat.lt_succ_of_le (h.bound r)).ne
    by_cases hq : q = np
    · by_cases hq' : q' = np
      · rw [hq, hq']
      · subst hq
        simp only [update_self, update_of_ne hq'] at heq
        exact absurd heq.symm (hlt q')
    · by_cases hq' : q' = np
      · subst hq'
        simp only [update_self, update_of_ne hq] at heq
        exact absurd heq (hlt q)
      · simp only [update_of_ne hq, update_of_ne hq'] at hpos heq
        exact h.distinct q q' hpos heq

theorem Lives.step {a : Action} (hshape : Shape t) (hs : Ptable.step t a = some t') : Lives t' := by
  have hwander : ∀ {t'}, Wander t t' → Lives t' := fun hw =>
    h.keep hw.allocated hw.life fun p => .inl (hw.pid p)
  cases stepped_of_step hs with
  | schedule | yield | sleep | tidy | fault | sleeps => exact h.set (.inl rfl)
  | wakeup => exact hwander (wander_wakeup1 _)
  | kill pid => exact hwander (wander_kill pid)
  | full => exact h
  | allocproc => exact h.allocproc hshape
  | kallocFails | copyuvmFails | setParent | runnable => exact h.forking rfl
  | kalloc p | copyuvm p | reap p | fails p | loadParent p | loadPid p => exact h.goto p _
  | exit p =>
    have he := exited_exit p t
    apply h.keep
    · rw [he.rest]
    · rw [he.rest]
    · exact fun q => .inl (he.same q).1
  | reaped p c =>
    have hset : Lives (t.set c
        { t.proc c with state := .UNUSED, pid := 0, parent := none, killed := false }) :=
      h.set (.inr rfl)
    exact hset.keep rfl rfl fun _ => .inl rfl

omit h

theorem lives_of_reached (h : system.Reached t) : Lives t := by
  have hboth : Shape t ∧ Lives t := by
    refine h.invariant (I := fun t => Shape t ∧ Lives t) ?_ ?_
    · rintro _ rfl
      refine ⟨shape_userinit, ?_⟩
      rw [userinit_eq]
      constructor
      case bound =>
        intro p
        by_cases hp : p = 0
        · subst hp; simp
        · simp [hp, zeroed]
      case pid =>
        intro p
        by_cases hp : p = 0
        · subst hp; exact .inr ⟨by simp, by simp⟩
        · exact .inl (by simp [hp, zeroed])
      case distinct =>
        have hzero : ∀ p, 0 < update zeroed.life 0 1 p → p = 0 := by
          intro p hpos
          by_contra hp
          rw [update_of_ne hp] at hpos
          exact absurd hpos (Nat.lt_irrefl 0)
        intro p q hpos heq
        rw [hzero p hpos, hzero q (hpos.trans_eq heq)]
    · rintro t a t' ⟨hshape, hlives⟩ - hs
      exact ⟨hshape.step hs, hlives.step hshape hs⟩
  exact hboth.2

theorem pid_unique (h : system.Reached t) (hfew : t.allocated < 2 ^ 31 - 1) {q : Fin NPROC}
    (hp : (t.proc p).state ≠ .UNUSED) (heq : (t.proc q).pid = (t.proc p).pid) : q = p := by
  have hshape := shape_of_reached h
  have hlives := lives_of_reached h
  obtain ⟨hpos, hpid⟩ := hshape.pids p hp
  have hlep := hlives.bound p
  have hleq := hlives.bound q
  rcases hlives.pid q with hzero | ⟨hposq, hpidq⟩
  · omega
  · refine hlives.distinct q p hposq ?_
    omega

/-! ### What `kill` is for -/

/-- `kill` of `pid` marks the process with that pid, waking it if it sleeps, and returns 0; if no
process has the pid it returns -1 and changes nothing. -/
def KillRight (t : Table) (pid : Int) : Prop :=
  (∃ p, (t.proc p).state ≠ .UNUSED ∧ (t.proc p).pid = ofInt32 pid ∧
    kill pid t = (t.set p { t.proc p with
      killed := true
      state := if (t.proc p).state = .SLEEPING then .RUNNABLE else (t.proc p).state }, 0)) ∨
  (∀ p, (t.proc p).state ≠ .UNUSED → (t.proc p).pid ≠ ofInt32 pid) ∧ kill pid t = (t, -1)

theorem findPid_some (h : findPid t pid = some p) : (t.proc p).pid = ofInt32 pid := by
  simpa using List.find?_some h

theorem findPid_none (h : findPid t pid = none) (p : Fin NPROC) : (t.proc p).pid ≠ ofInt32 pid := by
  simpa using List.find?_eq_none.mp h p (List.mem_finRange p)

/-- No free slot has the pid. -/
def Living (t : Table) (pid : Int) : Prop :=
  ∀ p, (t.proc p).pid = ofInt32 pid → (t.proc p).state ≠ .UNUSED

instance (t : Table) (pid : Int) : Decidable (Living t pid) :=
  inferInstanceAs (Decidable (∀ _, _))

theorem Living.killRight (h : Living t pid) : KillRight t pid := by
  rcases hf : findPid t pid with _ | p
  · refine .inr ⟨fun p _ => findPid_none hf p, ?_⟩
    rw [kill, hf]
  · refine .inl ⟨p, h p (findPid_some hf), findPid_some hf, ?_⟩
    rw [kill, hf]

theorem living_of_killRight (h : system.Reached t) (hfew : t.allocated < 2 ^ 31 - 1)
    (hright : KillRight t pid) : Living t pid := by
  intro p hp hun
  rcases hright with ⟨q, hq, hpid, -⟩ | ⟨-, heq⟩
  · have hpq : p = q := pid_unique h hfew hq (hp.trans hpid.symm)
    rw [hpq] at hun
    exact hq hun
  -- `kill` found the slot
  rcases hf : findPid t pid with _ | q
  · exact findPid_none hf p hp
  · rw [kill, hf] at heq
    exact absurd (congrArg Prod.snd heq) (by simp)

/-! ### How long `killed` lasts -/

def Table.forked (t : Table) (p : Fin NPROC) : Option (Fin NPROC) :=
  match t.base p with
  | .fork _ np => some np
  | _ => none

/-- `kill` names no free slot, and a `fork` that fails gives back a slot that is not killed. -/
def Spares (t : Table) : Action → Prop
  | .kill pid => Living t pid
  | .kalloc p ok | .copyuvm p ok =>
      ok = true ∨ ∀ np, t.forked p = some np → (t.proc np).killed = false
  | _ => True

instance (t : Table) (a : Action) : Decidable (Spares t a) := by
  apply @Action.casesOn (fun a => Decidable (Spares t a)) <;> intros <;> unfold Spares <;>
    infer_instance

/-- No free slot is killed, and a slot that is being forked only by name. -/
structure Clean (t : Table) : Prop where
  unused : ∀ p, (t.proc p).state = .UNUSED → (t.proc p).killed = false
  embryo : ∀ p, (t.proc p).state = .EMBRYO → (t.proc p).killed = true → t.named p = true

theorem Clean.set (h : Clean t) (hunused : e.state = .UNUSED → e.killed = false)
    (hembryo : e.state = .EMBRYO → e.killed = true → t.named p = true) : Clean (t.set p e) where
  unused q hq := by
    by_cases hqp : q = p
    · subst hqp
      simp only [Table.set, update_self] at hq ⊢
      exact hunused hq
    · simp only [Table.set, update_of_ne hqp] at hq ⊢
      exact h.unused q hq
  embryo q hq hkilled := by
    by_cases hqp : q = p
    · subst hqp
      simp only [Table.set, update_self] at hq hkilled
      exact hembryo hq hkilled
    · simp only [Table.set, update_of_ne hqp] at hq hkilled
      exact h.embryo q hq hkilled

theorem Clean.goto (h : Clean t) (p : Fin NPROC) (b : Base) : Clean (t.goto p b) :=
  ⟨h.unused, h.embryo⟩

theorem Clean.forking (h : Clean t) {b : Base} (hunused : e.state = .UNUSED → e.killed = false)
    (hembryo : e.state = .EMBRYO → e.killed = true → t.named np = true) :
    Clean ((t.set np e).goto p b) := (h.set hunused hembryo).goto p b

theorem Clean.wander (h : Clean t) (hw : Wander t t') (hnamed : t'.named = t.named)
    (hkilled : ∀ p, (t'.proc p).killed = (t.proc p).killed) : Clean t' where
  unused p hp := by rw [hkilled]; exact h.unused p ((hw.state_iff id p).mp hp)
  embryo p hp hk := by
    rw [hkilled] at hk
    rw [hnamed]
    exact h.embryo p ((hw.state_iff id p).mp hp) hk

theorem Clean.kill (h : Clean t) (hliving : Living t pid) : Clean
    { (kill pid t).1 with
      named := fun p => t.named p || decide ((t.proc p).pid = ofInt32 pid) } := by
  rcases hliving.killRight with ⟨p, hp, hpid, heq⟩ | ⟨-, heq⟩
  · have hnamed : Clean { t with
        named := fun p => t.named p || decide ((t.proc p).pid = ofInt32 pid) } :=
      ⟨h.unused, fun q hq hk => by simp [h.embryo q hq hk]⟩
    rw [heq]
    refine hnamed.set (fun hs => ?_) fun _ _ => by simp [hpid]
    split at hs
    · cases hs
    · exact absurd hs hp
  · rw [heq]
    exact ⟨h.unused, fun q hq hk => by simp [h.embryo q hq hk]⟩

theorem Clean.abandon (h : Clean t) (hkilled : (t.proc np).killed = false) :
    Clean (t.abandon p np) :=
  h.forking (fun _ => hkilled) nofun

theorem Clean.step {a : Action} (h : Clean t) (hok : Spares t a)
    (hs : Ptable.step t a = some t') : Clean t' := by
  -- the entry of a running process is neither UNUSED nor EMBRYO
  have hrun : ∀ {p e}, Alive (t.proc p).state → e.state = (t.proc p).state → Clean (t.set p e) := by
    intro p e halive heq
    refine h.set (fun hun => ?_) fun hem _ => ?_
    · rw [← heq, hun] at halive; exact absurd halive id
    · rw [← heq, hem] at halive; exact absurd halive id
  cases stepped_of_step hs with
  | schedule | yield | sleep | sleeps => exact h.set (by simp) (by simp)
  | tidy p hr =>
    refine hrun ?_ rfl
    rw [hr]
    trivial
  | wakeup a =>
    refine h.wander (wander_wakeup1 _) rfl fun p => ?_
    rcases wakeup1_proc (some (.addr a)) t p with heq | ⟨-, heq⟩ <;> rw [heq]
  | kill => exact h.kill hok
  | fault p hr => exact hrun (alive_of_runs hr) rfl
  | full => exact h
  | allocproc p np hr hb hnp =>
    constructor
    case unused =>
      intro q hq
      by_cases hqn : q = np
      · subst hqn; simp [Table.set] at hq
      · simp only [Table.set, update_of_ne hqn] at hq ⊢
        exact h.unused q hq
    case embryo =>
      intro q hq hk
      by_cases hqn : q = np
      · -- the slot was free, so it is not killed
        subst hqn
        simp only [Table.set, update_self, h.unused q hnp] at hk
        cases hk
      · simp only [Table.set, update_of_ne hqn] at hq hk ⊢
        exact h.embryo q hq hk
  | kallocFails p np hr hb | copyuvmFails p np hr hb =>
    exact h.abandon (hok.resolve_left (by decide) np (by rw [Table.forked, hb]))
  | kalloc p | copyuvm p | reap p | fails p | loadParent p | loadPid p => exact h.goto p _
  | setParent p np => exact h.forking (h.unused np) (h.embryo np)
  | runnable => exact h.forking (by simp) (by simp)
  | exit p =>
    have he := exited_exit p t
    have hstate : ∀ q s, ¬ Alive s → s ≠ .ZOMBIE → ((exit p t).proc q).state = s →
        (t.proc q).state = s := by
      intro q s hs hz hq
      have hqp : q ≠ p := by
        intro heq
        rw [heq, he.self] at hq
        exact hz hq.symm
      rcases he.state q hqp with heq | ⟨-, heq⟩
      · rw [← heq, hq]
      · rw [heq] at hq; exact absurd (hq ▸ trivial) hs
    constructor
    case unused =>
      intro q hq
      rw [(he.same q).2.2]
      exact h.unused q (hstate q _ id (by decide) hq)
    case embryo =>
      intro q hq hk
      rw [(he.same q).2.2] at hk
      rw [he.rest]
      exact h.embryo q (hstate q _ id (by decide) hq) hk
  | reaped p c =>
    have hset : Clean (t.set c
        { t.proc c with state := .UNUSED, pid := 0, parent := none, killed := false }) :=
      h.set (fun _ => rfl) (by simp)
    exact ⟨hset.unused, hset.embryo⟩

theorem clean_of_reachable (h : system.Reachable Spares t) : Clean t := by
  refine h.invariant ?_ fun _ _ _ ih hok hs => ih.step hok hs
  rintro _ rfl
  have hkilled : ∀ p, (userinit.proc p).killed = false := by
    intro p
    rcases userinit_proc p with ⟨-, heq⟩ | ⟨-, heq⟩
    · rw [heq]
    · rw [heq]; rfl
  refine ⟨fun p _ => hkilled p, fun p _ hk => ?_⟩
  rw [hkilled p] at hk
  cases hk

/-- A step that does not spare the free slots leaves one of them killed. -/
theorem killed_of_not_spares {a : Action} (h : system.Reached t)
    (hfew : t.allocated < 2 ^ 31 - 1) (hs : step t a = some t') (hok : ¬ Spares t a) :
    ∃ p, (t'.proc p).state = .UNUSED ∧ (t'.proc p).killed = true := by
  have habandon : ∀ {p np stage}, t.base p = .fork stage np →
      ¬ (false = true ∨ ∀ np, t.forked p = some np → (t.proc np).killed = false) →
      ∃ q, ((t.abandon p np).proc q).state = .UNUSED ∧
        ((t.abandon p np).proc q).killed = true := by
    intro p np stage hb hok
    refine ⟨np, by simp [Table.abandon, Table.goto, Table.setState, Table.set], ?_⟩
    simpa [Table.forked, hb, Table.abandon, Table.goto, Table.setState, Table.set] using hok
  cases stepped_of_step hs with
  | kill pid =>
    have hnot : ¬ KillRight t pid := fun hright => hok (living_of_killRight h hfew hright)
    rcases hf : findPid t pid with _ | p
    · exact absurd (.inr ⟨fun p _ => findPid_none hf p, by rw [kill, hf]⟩) hnot
    have hun : (t.proc p).state = .UNUSED := by
      by_contra hun
      exact hnot (.inl ⟨p, hun, findPid_some hf, by rw [kill, hf]⟩)
    refine ⟨p, ?_, ?_⟩
    · simp [kill, hf, Table.set, hun]
    · simp [kill, hf, Table.set]
  | kallocFails p np hr hb | copyuvmFails p np hr hb => exact habandon hb hok
  | kalloc | copyuvm => exact absurd (.inl rfl) hok
  | _ => exact absurd trivial hok

/-- **`kill` affects the living, while they live.** `kill` does what it is for exactly if no free
slot has the pid. In a run in which that holds of every `kill`, and no `fork` fails after
its child was killed, every new process that starts out killed was killed by name. A step
that breaks this leaves a free slot killed, and the next process to get that slot starts
out killed without having been named. -/
theorem kill_affects_the_living (t : Table) :
    (∀ pid, Living t pid → KillRight t pid) ∧
    (∀ pid, system.Reached t → t.allocated < 2 ^ 31 - 1 → KillRight t pid → Living t pid) ∧
    (system.Reachable Spares t → ∀ p np t', t.base p = .fork .linked np →
      step t (.runnable p) = some t' → (t'.proc np).killed = true → t'.named np = true) ∧
    (∀ a t', system.Reached t → t.allocated < 2 ^ 31 - 1 → step t a = some t' →
      ¬ Spares t a → ∃ p, (t'.proc p).state = .UNUSED ∧ (t'.proc p).killed = true) ∧
    (∀ p np t', (t.proc np).state = .UNUSED → (t.proc np).killed = true →
      step t (.allocproc p) = some t' → t'.base p = .fork .allocated np →
      (t'.proc np).killed = true ∧ t'.named np = false) := by
  refine ⟨fun pid h => h.killRight, fun pid h hfew => living_of_killRight h hfew, ?_,
    fun a t' h hfew hs => killed_of_not_spares h hfew hs, ?_⟩
  · intro h p np t' hb hs hk
    have hshape := shape_of_reached h.reached
    obtain ⟨-, hembryo, -, -⟩ := hshape.forks p _ np hb
    cases stepped_of_step hs with
    | runnable p np' hr hb' =>
      rw [hb] at hb'
      cases hb'
      refine (clean_of_reachable h).embryo np hembryo ?_
      simpa [Table.goto, Table.setState, Table.set] using hk
  · intro p np t' hun hk hs hb
    cases stepped_of_step hs with
    | full p hr hb' => rw [hb'] at hb; cases hb
    | allocproc =>
      simp only [update_self, Base.fork.injEq, true_and] at hb
      subst hb
      exact ⟨by simpa [Table.set] using hk, by simp⟩

/-- init forks a child after what went before. -/
def forkOnce : List Action :=
  [.allocproc 0, .kalloc 0 true, .copyuvm 0 true, .setParent 0, .runnable 0]

/-- **`kill(0)` kills the next child.** At first only init is in the table, with pid 1.
`kill(0)` returns 0, and the child that init forks next starts out killed. -/
theorem kill_zero_kills_next_child :
    (kill 0 userinit).2 = 0 ∧
    (∀ p, (userinit.proc p).state ≠ .UNUSED → (userinit.proc p).pid ≠ ofInt32 0) ∧
    ∃ t, system.Reached t ∧ (t.proc 1).state = .RUNNABLE ∧ (t.proc 1).parent = some 0 ∧
      (t.proc 1).killed = true ∧ t.named 1 = false := by
  have hinit : system.Reached userinit := .init rfl
  exact ⟨by decide +kernel, by decide +kernel,
    hinit.run_decide (.schedule 0 :: .kill 0 :: forkOnce) (by decide +kernel)⟩

/-- A child that is killed by name while it is being forked. -/
theorem kill_affects_the_living_embryo :
    KillRight userinit 1 ∧ ∃ t, system.Reachable Spares t ∧ (t.proc 1).killed = true ∧
      ∀ t', step t (.runnable 0) = some t' → (t'.proc 1).killed = true → t'.named 1 = true := by
  have hinit : system.Reachable Spares userinit := .init rfl
  obtain ⟨t, ht, hkilled, hbase⟩ := hinit.run_decide
    [.schedule 0, .allocproc 0, .kill 2, .kalloc 0 true, .copyuvm 0 true, .setParent 0]
    (P := fun t => (t.proc 1).killed = true ∧ t.base 0 = .fork .linked 1) (by decide +kernel)
  have hliving : Living userinit 1 := by decide +kernel
  exact ⟨(kill_affects_the_living userinit).1 1 hliving, t, ht, hkilled,
    fun t' hs hk => (kill_affects_the_living t).2.2.1 ht 0 1 t' hbase hs hk⟩

end Xv6.Ptable
