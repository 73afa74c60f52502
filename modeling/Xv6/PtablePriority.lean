import Xv6.PtableKill

/-!
**Priorities** (`proc.c`): `chpr`.

It stores any priority in the first slot with the pid, used or not, and returns the pid whether
there is such a slot or not.
-/

namespace Xv6.Ptable

open Transition Function

/-- The field `priority` of all slots. -/
abbrev Priorities := Fin NPROC → Int

def DEFAULTPRIORITY : Int := 10

def chpr (t : Table) (pri : Priorities) (pid priority : Int) : Priorities × Int :=
  match findPid t pid with
  | some p => (update pri p priority, pid)
  | none => (pri, pid)

inductive Call where
  | act (a : Action)
  | chpr (pid priority : Int)

/-- The process table with its priorities, which `allocproc` sets. -/
def prioritized : System (Table × Priorities) Call where
  init s := s = (userinit, update (fun _ => 0) 0 DEFAULTPRIORITY)
  step s
    | .act a => (step s.1 a).map fun t => (t, match a, allocproc s.1 with
        | .allocproc _, some (np, _) => update s.2 np DEFAULTPRIORITY
        | _, _ => s.2)
    | .chpr pid priority => some (s.1, (chpr s.1 s.2 pid priority).1)

def Ranged (priority : Int) : Prop := 0 ≤ priority ∧ priority ≤ 20

instance (n : Int) : Decidable (Ranged n) := inferInstanceAs (Decidable (_ ∧ _))

/-- What `chpr` is for. -/
def ChprRight (t : Table) (pri : Priorities) (pid priority : Int) : Prop :=
  (∃ p, (t.proc p).state ≠ .UNUSED ∧ (t.proc p).pid = ofInt32 pid ∧ Ranged priority ∧
    chpr t pri pid priority = (update pri p priority, pid)) ∨
  (Ranged priority → ∀ p, (t.proc p).state ≠ .UNUSED → (t.proc p).pid ≠ ofInt32 pid) ∧
    chpr t pri pid priority = (pri, -1)

/-- The call stores no priority out of range. -/
def Mild (s : Table × Priorities) : Call → Prop
  | .act _ => True
  | .chpr pid priority => Ranged priority ∨ findPid s.1 pid = none

def AllRanged (pri : Priorities) : Prop := ∀ p, Ranged (pri p)

theorem AllRanged.update {pri : Priorities} {np : Fin NPROC} {priority : Int} (h : AllRanged pri)
    (hr : Ranged priority) : AllRanged (update pri np priority) := by
  intro p
  by_cases hp : p = np
  · rwa [hp, update_self]
  · rw [update_of_ne hp]
    exact h p

/-- Unused slots included. -/
theorem allRanged_of_reachable {s : Table × Priorities} (h : prioritized.Reachable Mild s) :
    AllRanged s.2 := by
  refine h.invariant (I := fun s => AllRanged s.2) ?_ fun s a s' ih hok hs => ?_
  · rintro _ rfl
    exact AllRanged.update (fun _ => by decide) (by decide)
  cases a with
  | act a =>
    obtain ⟨t, -, rfl⟩ := Option.map_eq_some_iff.mp hs
    dsimp only
    split
    · exact ih.update (by decide)
    · exact ih
  | chpr pid priority =>
    cases hs
    rw [chpr]
    split
    next p hf => exact ih.update (hok.resolve_right (by simp [hf]))
    · exact ih

/-- **The contract of `chpr`** is kept, whatever the priorities are, exactly if a process in use is
found and the priority is in range, or if the pid is -1 and nobody has it. As long as no
priority out of range is stored, all are in range. -/
theorem chpr_contract_iff (t : Table) (pid priority : Int) :
    ((∀ pri, ChprRight t pri pid priority) ↔
      (Ranged priority ∧ ∃ p, findPid t pid = some p ∧ (t.proc p).state ≠ .UNUSED) ∨
        pid = -1 ∧ findPid t pid = none) ∧
    ∀ s, prioritized.Reachable Mild s → ∀ p, (s.1.proc p).state ≠ .UNUSED → Ranged (s.2 p) := by
  refine ⟨⟨fun hall => ?_, ?_⟩, fun s h p _ => allRanged_of_reachable h p⟩
  · have h := hall fun _ => priority + 1
    cases hf : findPid t pid with
    | none =>
      simp only [ChprRight, chpr, hf] at h
      rcases h with ⟨p, -, hpid, -⟩ | ⟨-, heq⟩
      · exact absurd hpid (findPid_none hf p)
      · exact .inr ⟨congrArg Prod.snd heq, rfl⟩
    | some p =>
      simp only [ChprRight, chpr, hf] at h
      rcases h with ⟨q, hq, -, hr, heq⟩ | ⟨-, heq⟩
      · have hpq : p = q := by
          by_contra hne
          have hp := congrFun (Prod.mk.inj heq).1 p
          simp [hne] at hp
        exact .inl ⟨hr, p, rfl, hpq ▸ hq⟩
      · have hp := congrFun (Prod.mk.inj heq).1 p
        simp at hp
  · rintro (⟨hr, p, hf, hp⟩ | ⟨rfl, hf⟩) pri
    · exact .inl ⟨p, hp, findPid_some hf, hr, by rw [chpr, hf]⟩
    · exact .inr ⟨fun _ p _ => findPid_none hf p, by rw [chpr, hf]⟩

theorem chpr_contract_iff_init : ChprRight userinit (fun _ => 0) 1 20 :=
  (chpr_contract_iff userinit 1 20).1.mpr
    (.inl ⟨by decide, 0, by decide +kernel, by decide +kernel⟩) _

/-- init gets a priority out of range, and a pid that nobody has is returned. -/
theorem chpr_sets_any_priority : (userinit.proc 0).state ≠ .UNUSED ∧
    chpr userinit (fun _ => 10) 1 21 = (update (fun _ => 10) 0 21, 1) ∧
    chpr userinit (fun _ => 10) 5 10 = (fun _ => 10, 5) := by
  have hone : findPid userinit 1 = some 0 := by decide +kernel
  have hfive : findPid userinit 5 = none := by decide +kernel
  exact ⟨by decide +kernel, by rw [chpr, hone], by rw [chpr, hfive]⟩

end Xv6.Ptable
