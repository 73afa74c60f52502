import Mathlib.Data.Fintype.Basic
import Xv6.SleepOrder

/-!
**`kill` against the loops that test `killed` and sleep.**

`wait` and `time` read the flag under `ptable.lock` and keep that lock until they are
marked asleep, so `kill` sees them either before the test or asleep. `piperead`,
`pipewrite`, `consoleread` and `sys_sleep` read it without `ptable.lock`: a `kill` that
comes between the test and the moment `sleep` takes the lock finds a process that is not
yet asleep, wakes nobody, and returns 0; then the process goes to sleep.
-/

namespace Xv6.SleepWakeup

open Function

variable {P L Ch : Type}

/-- Asleep in one of the loops, with `killed` set by a `kill` that has returned. -/
def LostKill (s : State P L Ch) (q : P) : Prop :=
  s.returned q = true ∧ s.killed q = true ∧ ∃ f site, s.pc q = .asleep f ∧ f.site = some site

/-- The process has found `killed` clear and has not taken `ptable.lock` since. -/
def Pc.inGap : Pc P L Ch → Bool
  | .passed _ => true
  | .wakeup _ site => site.isSome
  | .sleep f => f.site.isSome
  | _ => false

section

variable [DecidableEq P] [DecidableEq L] [DecidableEq Ch] {s s' : State P L Ch} {p : P}

/-- No `kill` sets the flag of a process between its test and its sleep. -/
def MissesGap (s : State P L Ch) : Label P L Ch → Prop
  | .go p => ∀ q, s.pc p = .killing q → (s.pc q).inGap = false
  | _ => True

instance [Fintype P] (s : State P L Ch) (a : Label P L Ch) : Decidable (MissesGap s a) := by
  cases a <;> unfold MissesGap <;> infer_instance

/-- Nobody in a loop past its test has been killed. -/
def Unharmed (s : State P L Ch) : Prop := ∀ q, (s.pc q).Exposed → s.killed q = false

omit [DecidableEq P] [DecidableEq L] [DecidableEq Ch] in
/-- Past the test, a process is in the gap, has `ptable.lock`, or is asleep. -/
theorem Pc.Exposed.cases {c : Pc P L Ch} (h : c.Exposed) :
    c.inGap = true ∨ c.HasPtable ∨ ∃ f, c = .asleep f := by
  cases c with
  | passed => exact .inl rfl
  | wakeup | sleep => exact .inl h
  | waking | woke | dropping | marking => exact .inr (.inl trivial)
  | asleep f => exact .inr (.inr ⟨f, rfl⟩)
  | _ => cases h

omit [DecidableEq P] [DecidableEq L] [DecidableEq Ch] in
theorem Unharmed.turn (ho : Ordered s) (h : Unharmed s) (t : Turn s s' p)
    (hgap : ∀ q, s.pc p = .killing q → (s.pc q).inGap = false) : Unharmed s' := by
  intro q hq
  by_contra hk
  rw [Bool.not_eq_false] at hk
  rcases t.killed q hk with hold | ⟨hp, hawake⟩
  · -- killed before: then `q` was not exposed before either
    have hnot : ¬ (s.pc q).Exposed := fun hx => by rw [h q hx] at hold; cases hold
    rcases eq_or_ne q p with rfl | hne
    · rcases t.exposed hq with hx | ⟨-, hx⟩
      · exact hnot hx
      · rw [hx] at hold
        cases hold
    · rcases t.others q hne with hsame | ⟨f, -, hrun⟩
      · exact hnot (hsame ▸ hq)
      · rw [hrun] at hq
        cases hq
  · -- killed by this step: `q` was neither in the gap nor asleep, and cannot have the lock
    have hne : q ≠ p := by
      rintro rfl
      rcases t.exposed hq with hx | ⟨hx, -⟩
      · rw [hp] at hx
        cases hx
      · rw [hp] at hx
        cases hx
    rcases t.others q hne with hsame | ⟨f, -, hrun⟩
    · rw [hsame] at hq
      rcases hq.cases with hg | hpt | ⟨f, hf⟩
      · rw [hgap q hp] at hg
        cases hg
      · have h1 := ho.hasPtable q hpt
        rw [ho.hasPtable p (by rw [hp]; trivial)] at h1
        exact hne (Option.some.inj h1).symm
      · exact hawake f (hsame.trans hf)
    · rw [hrun] at hq
      cases hq

theorem unharmed_of_reachable (hr : (system P L Ch).Reachable MissesGap s) : Unharmed s := by
  have h : Ordered s ∧ Unharmed s := by
    apply hr.invariant
    · rintro s hinit
      refine ⟨ordered_of_reached (.init hinit), fun q hq => ?_⟩
      rw [hinit.2.1 q] at hq
      cases hq
    · rintro s a s' ⟨ho, hu⟩ hok hs
      change (act s a).map State.tick = some s' at hs
      rw [Option.map_eq_some_iff] at hs
      obtain ⟨s1, hs1, rfl⟩ := hs
      obtain ⟨p, hturn, hlabel⟩ := turn_of_act ho hs1
      have hu1 : Unharmed s1 := by
        apply hu.turn ho hturn
        intro q hq
        rcases hlabel with hrun | rfl
        · rw [hrun] at hq
          cases hq
        · exact hok q hq
      exact ⟨ho.turn hturn, hu1⟩
  exact h.2

/-- **No kill is lost unless it comes in the gap of its target.** -/
theorem no_lost_kill (hr : (system P L Ch).Reachable MissesGap s) (q : P) : ¬ LostKill s q := by
  rintro ⟨-, hk, f, site, hq, hsite⟩
  have hx : (s.pc q).Exposed := by
    rw [hq]
    exact Option.isSome_iff_exists.mpr ⟨site, hsite⟩
  rw [unharmed_of_reachable hr q hx] at hk
  cases hk

end

/-! ### A lost kill -/

def killInGap : List (Label (Fin 2) Unit Unit) :=
  [.check 0 (.sys_sleep ()), .kill 1 0, .go 1, .go 1, .go 1, .go 0, .go 0, .go 0]

/-- **A process killed between its test and its sleep stays asleep.** -/
theorem sys_sleep_loses_kill :
    ∃ s, (system (Fin 2) Unit Unit).Reached s ∧ LostKill s 0 := by
  have hinit : (system (Fin 2) Unit Unit).Reached boot := .init boot_init
  obtain ⟨s, hs, hreturned, hkilled, hasleep⟩ := hinit.run_decide killInGap
    (P := fun s => s.returned 0 = true ∧ s.killed 0 = true ∧
      s.pc 0 = .asleep ⟨(), none, none, some (.sys_sleep ())⟩) (by decide)
  exact ⟨s, hs, hreturned, hkilled, _, .sys_sleep (), hasleep, rfl⟩

/-- The target is asleep in `wait` when the kill comes. -/
def killInWait : List (Label (Fin 2) Unit Unit) :=
  [.acquire 0 .ptable, .check 0 (.wait ()), .go 0, .go 0, .kill 1 0, .go 1, .go 1, .go 1]

/-- `kill` has returned 0, and its target is runnable. -/
theorem no_lost_kill_wait :
    ∃ s, (system (Fin 2) Unit Unit).Reachable MissesGap s ∧ s.returned 0 = true ∧
      ∀ q, ¬ LostKill s q := by
  have hinit : (system (Fin 2) Unit Unit).Reachable MissesGap boot := .init boot_init
  obtain ⟨s, hs, hreturned⟩ := hinit.run_decide killInWait
    (P := fun s => s.returned 0 = true) (by decide)
  exact ⟨s, hs, hreturned, no_lost_kill hs⟩

end Xv6.SleepWakeup
