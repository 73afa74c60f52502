import Xv6.Ptable
import Xv6.SysCount

/-!
**The times that `time` reports** (`proc.c`, `proc.h`, `trap.c`).

`time` computes them from `arrivalt`, `endt`, `burstt` and `iot`. Nothing in the kernel assigns
to these fields: not `allocproc`, not the scheduler, `sleep` or `exit`, and the timer interrupt
counts `ticks` only. The one thing that writes to them is `syscall`, whose counter for `dup2` is
the word behind `sys_count`, which is `arrivalt` (`SysCount`).

The model is the process table of `Ptable`, the memory of `SysCount`, and the timer. Next to them
runs a record of what the fields are for: for how many ticks the process in a slot has been
RUNNING and RUNNABLE since it was created.
-/

namespace Xv6.ProcTimes

open Transition Function
open SysCount (Mem Field get)

structure State where
  table : Ptable.Table
  /-- The words of `ptable.proc`; `table` has the fields that `Ptable` is about. -/
  mem : Mem
  /-- Ticks that found the process RUNNING. -/
  ran : Fin NPROC → Nat
  /-- Ticks that found the process RUNNABLE. -/
  waited : Fin NPROC → Nat
  /-- Calls of `dup2` by the processes that have been in the slot. -/
  dup2s : Fin NPROC → Nat

inductive Action where
  | ptable (a : Ptable.Action)
  /-- The timer interrupt. -/
  | tick
  | syscall (p : Fin NPROC) (num : Int)
  /-- The kernel assigns to a field. -/
  | assign (p : Fin NPROC) (f : Field) (i : Nat) (v : UInt32)

/-- A new process in slot `np`. -/
def State.create (s : State) (np : Fin NPROC) : State :=
  { s with
    mem := SysCount.allocproc np s.mem
    ran := update s.ran np 0
    waited := update s.waited np 0 }

/-- What `allocproc` does beside the table. -/
def State.allocated (s : State) : Ptable.Action → State
  | .allocproc _ =>
      match Ptable.allocproc s.table with
      | some (np, _) => s.create np
      | none => s
  | _ => s

def step (s : State) : Action → Option State
  | .ptable a => (Ptable.step s.table a).map fun t => { s.allocated a with table := t }
  | .tick => some { s with
      ran := fun p => if (s.table.proc p).state = .RUNNING then s.ran p + 1 else s.ran p
      waited := fun p => if (s.table.proc p).state = .RUNNABLE then s.waited p + 1 else s.waited p }
  | .syscall p num =>
      if s.table.Runs p then
        some { s with
          mem := SysCount.syscall s.mem p num
          dup2s := if num = 30 then update s.dup2s p (s.dup2s p + 1) else s.dup2s }
      else none
  | .assign p f i v =>
      if f.Assigned ∧ i < f.words then some { s with mem := SysCount.put s.mem p f i v } else none

/-- The process table is zero, and `userinit` makes the first process. -/
def boot (m : Mem) : State where
  table := Ptable.userinit
  mem := SysCount.allocproc Ptable.userinit.initproc m
  ran _ := 0
  waited _ := 0
  dup2s _ := 0

def system : System State Action where
  init s := ∃ m, (∀ p f (i : Nat), i < Field.words f → get m p f i = 0) ∧ s = boot m
  step := step

/-- A field of type `int`. -/
def int (m : Mem) (p : Fin NPROC) (f : Field) : Int := toInt32 (get m p f 0).toNat

/-- `p->endt - p->arrivalt - p->burstt - p->iot` -/
def waitt (m : Mem) (p : Fin NPROC) : Int :=
  toInt32 (ofInt32 (int m p .endt - int m p .arrivalt - int m p .burstt - int m p .iot))

def burstt (m : Mem) (p : Fin NPROC) : Int := int m p .burstt

/-- What `p`, in `time` and with the lock, is about to report: the child it finds, `*waitt` and
`*burstt`. -/
def reported (s : State) (p : Fin NPROC) : Option (Fin NPROC × Int × Int) :=
  if s.table.Runs p ∧ s.table.base p = .reap .time then
    (Ptable.zombieChild s.table p).map fun c => (c, waitt s.mem c, burstt s.mem c)
  else none

/-- **The report is true**: the ticks the child has been RUNNABLE and RUNNING. -/
def Real (s : State) (c : Fin NPROC) (wait burst : Int) : Prop :=
  burst = s.ran c ∧ wait = s.waited c ∧ 0 ≤ burst ∧ 0 ≤ wait

/-! ### The fields -/

/-- **What the four fields hold.** -/
structure Fields (m : Mem) (dup2s : Fin NPROC → Nat) : Prop where
  arrivalt : ∀ p, get m p .arrivalt 0 = UInt32.ofNat (dup2s p)
  rest : ∀ p f, f = .endt ∨ f = .burstt ∨ f = .iot → get m p f 0 = 0

section

variable {m : Mem} {d : Fin NPROC → Nat} {p : Fin NPROC} {s s' : State} {f : Field}

/-- The four times, one word each. -/
def Time (f : Field) : Prop := f = .arrivalt ∨ f = .endt ∨ f = .burstt ∨ f = .iot

theorem Time.words (h : Time f) : 0 < f.words := by rcases h with rfl | rfl | rfl | rfl <;> decide

theorem Fields.congr {m' : Mem} (h : Fields m d)
    (heq : ∀ p f, Time f → get m' p f 0 = get m p f 0) : Fields m' d where
  arrivalt p := (heq p _ (.inl rfl)).trans (h.arrivalt p)
  rest p f hf := (heq p f (.inr hf)).trans (h.rest p f hf)

theorem Time.ne {g : Field} (h : Time f) (hg : ¬ Time g) : f ≠ g := fun heq => hg (heq ▸ h)

theorem get_allocproc {q : Fin NPROC} (hf : Time f) :
    get (SysCount.allocproc p m) q f 0 = get m q f 0 := by
  have hcount : f ≠ .sys_count := hf.ne (by rw [Time]; decide)
  have hprio : f ≠ .priority := hf.ne (by rw [Time]; decide)
  have hreset := SysCount.get_resetCounts (p := p) (q := q)
    (m := SysCount.put m p .priority 0 SysCount.DEFAULTPRIORITY) (Nat.le_refl _) hf.words
  rw [if_neg fun h => hcount h.2.1] at hreset
  have hput := SysCount.get_put_of_ne (p := p) (q := q) (i := 0) m
    SysCount.DEFAULTPRIORITY (by decide) hf.words fun h => hprio h.2.1
  exact hreset.trans hput

theorem syscall_dup2 :
    SysCount.syscall m p 30 = SysCount.put m p .arrivalt 0 (get m p .arrivalt 0 + 1) := by
  rfl

theorem get_syscall {q : Fin NPROC} {num : Int} (hf : Time f) (hnum : num ≠ 30) :
    get (SysCount.syscall m p num) q f 0 = get m q f 0 := by
  rw [SysCount.syscall]
  split
  next c hc =>
    obtain ⟨hlo, hhi⟩ := SysCount.syscalls_range hc
    obtain ⟨n, hn⟩ : ∃ n : Nat, num - 1 = n := ⟨(num - 1).toNat, by omega⟩
    have hlt : n < Field.words .sys_count := by
      have hwords : Field.words .sys_count = 29 := rfl
      omega
    rw [hn]
    have hcount : f ≠ .sys_count := hf.ne (by rw [Time]; decide)
    exact SysCount.get_put_of_ne m _ hlt hf.words fun h => hcount h.2.1
  · rfl

theorem Fields.syscall (h : Fields m d) (num : Int) :
    Fields (SysCount.syscall m p num)
      (if num = 30 then update d p (d p + 1) else d) := by
  by_cases hnum : num = 30
  · subst hnum
    rw [if_pos rfl, syscall_dup2]
    have hother : ∀ q f, Time f → ¬ (q = p ∧ f = .arrivalt) →
        get (SysCount.put m p .arrivalt 0 (get m p .arrivalt 0 + 1)) q f 0 = get m q f 0 := by
      intro q f hf hne
      exact SysCount.get_put_of_ne m _ (by decide) hf.words
        fun heq => hne ⟨heq.1, heq.2.1⟩
    constructor
    · intro q
      by_cases hq : q = p
      · subst hq
        rw [SysCount.get_put_self, update_self, h.arrivalt, UInt32.ofNat_add]
        rfl
      · rw [hother q _ (.inl rfl) fun heq => hq heq.1, update_of_ne hq]
        exact h.arrivalt q
    · intro q f hf
      rw [hother q f (.inr hf)]
      · exact h.rest q f hf
      · rintro ⟨-, rfl⟩
        revert hf
        decide
  · rw [if_neg hnum]
    exact h.congr fun q f hf => get_syscall hf hnum

theorem Fields.assign (h : Fields m d) {i : Nat} {v : UInt32} (hf : f.Assigned) (hi : i < f.words) :
    Fields (SysCount.put m p f i v) d := by
  apply h.congr
  intro q g hg
  apply SysCount.get_put_of_ne m v hi hg.words
  rintro ⟨-, rfl, -⟩
  rcases hg with rfl | rfl | rfl | rfl <;> exact hf

theorem Fields.step {a : Action} (h : Fields s.mem s.dup2s) (hs : ProcTimes.step s a = some s') :
    Fields s'.mem s'.dup2s := by
  cases a with
  | ptable a =>
    simp only [ProcTimes.step, Option.map_eq_some_iff] at hs
    obtain ⟨t, -, rfl⟩ := hs
    cases a with
    | allocproc =>
      simp only [State.allocated]
      split
      · exact h.congr fun q f hf => get_allocproc hf
      · exact h
    | _ => exact h
  | tick =>
    cases hs
    exact h
  | syscall p num =>
    simp only [ProcTimes.step] at hs
    split at hs
    · cases hs
      exact h.syscall num
    · cases hs
  | assign p f i v =>
    simp only [ProcTimes.step] at hs
    split at hs
    next hf =>
      cases hs
      exact h.assign hf.1 hf.2
    · cases hs

theorem fields_of_reached (h : system.Reached s) : Fields s.mem s.dup2s := by
  apply h.invariant
  · rintro _ ⟨m, hzero, rfl⟩
    have hboot : Fields m fun _ => 0 := by
      constructor
      · intro p
        exact hzero p .arrivalt 0 (by decide)
      · intro p f hf
        exact hzero p f 0 (Time.words (.inr hf))
    exact hboot.congr fun q f hf => get_allocproc hf
  · intro s a s' h _ hs
    exact h.step hs

end

/-! ### What is reported -/

/-- **The report**: no burst, and the calls of `dup2` in the slot for a waiting time. -/
theorem reports {s : State} (h : system.Reached s) (c : Fin NPROC) :
    burstt s.mem c = 0 ∧ waitt s.mem c = toInt32 (ofInt32 (-(s.dup2s c))) := by
  have hfields := fields_of_reached h
  have hzero : ∀ f, f = .endt ∨ f = .burstt ∨ f = .iot → int s.mem c f = 0 := by
    intro f hf
    rw [int, hfields.rest c f hf]
    rfl
  have harr : int s.mem c .arrivalt = toInt32 (s.dup2s c % 2 ^ 32) := by
    rw [int, hfields.arrivalt c, UInt32.toNat_ofNat']
  refine ⟨hzero _ (.inr (.inl rfl)), ?_⟩
  rw [waitt, hzero _ (.inl rfl), hzero _ (.inr (.inl rfl)), hzero _ (.inr (.inr rfl)), harr]
  congr 1
  unfold ofInt32 toInt32
  split <;> omega

/-- **`time` tells the truth exactly if the child has not been RUNNING at any tick and has been
RUNNABLE for minus as many as there were calls of `dup2` in its slot.** -/
theorem time_real_iff (s : State) (h : system.Reached s) (p c : Fin NPROC) (wait burst : Int)
    (hreport : reported s p = some (c, wait, burst)) :
    Real s c wait burst ↔
      s.ran c = 0 ∧ (s.waited c : Int) = toInt32 (ofInt32 (-(s.dup2s c))) := by
  obtain ⟨hburst, hwait⟩ := reports h c
  rw [reported] at hreport
  split at hreport
  · rw [Option.map_eq_some_iff] at hreport
    obtain ⟨c', -, heq⟩ := hreport
    cases heq
    rw [Real]
    omega
  · cases hreport

def forkAndTime (ticks : List Action) : List Action :=
  [.ptable (.schedule 0), .ptable (.allocproc 0), .ptable (.kalloc 0 true),
    .ptable (.copyuvm 0 true), .ptable (.setParent 0), .ptable (.runnable 0),
    .ptable (.reap 0 .time), .ptable (.scan 0), .ptable (.schedule 1)] ++ ticks ++
  [.ptable (.exit 1), .ptable (.schedule 0), .ptable (.tidy 0)]

theorem reached_boot : system.Reached (boot fun _ => 0) := .init ⟨_, fun _ _ _ _ => rfl, rfl⟩

theorem time_real_iff_no_tick :
    ∃ s, system.Reached s ∧ reported s 0 = some (1, 0, 0) ∧ Real s 1 0 0 := by
  obtain ⟨s, hreached, hreport, hzero⟩ := reached_boot.run_decide (forkAndTime [])
    (P := fun s => reported s 0 = some (1, 0, 0) ∧ s.ran 1 = 0 ∧
      (s.waited 1 : Int) = toInt32 (ofInt32 (-(s.dup2s 1)))) (by decide +kernel)
  exact ⟨s, hreached, hreport, (time_real_iff s hreached 0 1 0 0 hreport).mpr hzero⟩

/-- **A child that has run for one tick** is reported to have run for none. -/
theorem time_forgets_burst :
    ∃ s, system.Reached s ∧ reported s 0 = some (1, 0, 0) ∧ s.ran 1 = 1 ∧ ¬ Real s 1 0 0 := by
  obtain ⟨s, hreached, hreport, hran⟩ := reached_boot.run_decide (forkAndTime [.tick])
    (P := fun s => reported s 0 = some (1, 0, 0) ∧ s.ran 1 = 1) (by decide +kernel)
  refine ⟨s, hreached, hreport, hran, fun hreal => ?_⟩
  have hburst := hreal.1
  rw [hran] at hburst
  cases hburst

end Xv6.ProcTimes
