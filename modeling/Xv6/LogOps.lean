import Xv6.Param
import Xv6.Tally
import Xv6.Transition

/-!
**The in-memory protocol of `log.c`**: `begin_op`, `log_write`, `end_op` and
`commit`, interleaved by any number of processes.

A section under `log.lock` is one step. The two panic checks of `log_write` are
made *before* it takes the lock, so a call is two steps: `logWrite` (the checks)
and `record` (the locked section). `commit()` runs without the lock; its only
effect on `log` is `log.lh.n = 0`, the step `commit`, and `end_op` then clears
`committing` in the step `finish`. A process asleep on `&log` runs again when a
`wakeup(&log)` or a `kill` makes it so, and starts over at the test.

`lh` stands for `lh.block[0..lh.n)`. Inside an operation the process carries the
set of blocks it has logged so far; no step looks at it.
-/

namespace Xv6.LogOps

open Tally Transition Function

/-! ### The protocol -/

inductive Pc where
  | idle
  /-- In `begin_op`, about to test (again). -/
  | beginOp
  /-- In `begin_op`, SLEEPING on `&log`. -/
  | sleeping
  /-- Between `begin_op` and `end_op`, having logged the blocks `mine`. -/
  | inOp (mine : Finset Nat)
  /-- In `log_write`, past the checks. -/
  | logWrite (mine : Finset Nat) (blockno : Nat)
  /-- In `end_op`, about to run `commit()`. -/
  | commit
  /-- In `end_op`, `commit()` done. -/
  | committed
  | panicked (msg : String)
deriving DecidableEq

structure State (P : Type) where
  outstanding : Int
  committing : Bool
  lh : List Nat
  pc : P → Pc

inductive Action (P : Type) where
  | beginOp (p : P)
  | test (p : P)
  | kill (p : P)
  | logWrite (p : P) (blockno : Nat)
  | record (p : P)
  | endOp (p : P)
  | commit (p : P)
  | finish (p : P)

section

variable {P : Type} [DecidableEq P]

def wakeup (pc : P → Pc) : P → Pc := fun p => if pc p = .sleeping then .beginOp else pc p

/-- `begin_op`'s test: no commit is running and the log has room for the operations
in progress and this one. -/
def admits (s : State P) : Bool :=
  !s.committing && decide (s.lh.length + (s.outstanding + 1) * MAXOPBLOCKS ≤ LOGSIZE)

/-- `log_write`'s unlocked checks: the message of the panic they end in, if any. -/
def logWritePanic (size : Int) (s : State P) : Option String :=
  if LOGSIZE ≤ s.lh.length ∨ size - 1 ≤ s.lh.length then some "too big a transaction"
  else if s.outstanding < 1 then some "log_write outside of trans"
  else none

def step (size : Int) (s : State P) : Action P → Option (State P)
  | .beginOp p =>
      match s.pc p with
      | .idle => some { s with pc := update s.pc p .beginOp }
      | _ => none
  | .test p =>
      match s.pc p with
      | .beginOp =>
          if admits s then
            some { s with
              outstanding := s.outstanding + 1
              pc := update s.pc p (.inOp ∅) }
          else some { s with pc := update s.pc p .sleeping }
      | _ => none
  | .kill p =>
      match s.pc p with
      | .sleeping => some { s with pc := update s.pc p .beginOp }
      | _ => none
  | .logWrite p blockno =>
      match s.pc p with
      | .inOp mine =>
          match logWritePanic size s with
          | some msg => some { s with pc := update s.pc p (.panicked msg) }
          | none => some { s with pc := update s.pc p (.logWrite mine blockno) }
      | _ => none
  | .record p =>
      match s.pc p with
      | .logWrite mine blockno =>
          some { s with
            lh := if blockno ∈ s.lh then s.lh else s.lh ++ [blockno]
            pc := update s.pc p (.inOp (insert blockno mine)) }
      | _ => none
  | .endOp p =>
      match s.pc p with
      | .inOp _ =>
          let outstanding := s.outstanding - 1
          if s.committing then
            some { s with outstanding, pc := update s.pc p (.panicked "log.committing") }
          else if outstanding = 0 then
            some { s with outstanding, committing := true, pc := update s.pc p .commit }
          else
            some { s with outstanding, pc := update (wakeup s.pc) p .idle }
      | _ => none
  | .commit p =>
      match s.pc p with
      | .commit => some { s with lh := [], pc := update s.pc p .committed }
      | _ => none
  | .finish p =>
      match s.pc p with
      | .committed =>
          some { s with committing := false, pc := update (wakeup s.pc) p .idle }
      | _ => none

/-- After `initlog`: nothing outstanding, an empty log, no process in `log.c`. -/
def initial : State P := { outstanding := 0, committing := false, lh := [], pc := fun _ => .idle }

/-- The protocol on a log of `log.size = size`. -/
def system (P : Type) [DecidableEq P] (size : Int) : System (State P) (Action P) where
  init s := s = initial
  step := step size

end

/-! ### What a step can do -/

section

variable {P : Type} [DecidableEq P] {size : Int} {s s' : State P} {a : Action P}

/-- **Inversion**: the steps of the protocol, with their guards. -/
inductive Stepped (size : Int) (s : State P) : Action P → State P → Prop where
  | beginOp (p : P) : s.pc p = .idle →
      Stepped size s (.beginOp p) { s with pc := update s.pc p .beginOp }
  | admitted (p : P) : s.pc p = .beginOp → admits s = true →
      Stepped size s (.test p) { s with
        outstanding := s.outstanding + 1
        pc := update s.pc p (.inOp ∅) }
  | sleep (p : P) : s.pc p = .beginOp → admits s = false →
      Stepped size s (.test p) { s with pc := update s.pc p .sleeping }
  | kill (p : P) : s.pc p = .sleeping →
      Stepped size s (.kill p) { s with pc := update s.pc p .beginOp }
  | logWritePanics (p : P) (blockno : Nat) (mine : Finset Nat) (msg : String) :
      s.pc p = .inOp mine → logWritePanic size s = some msg →
      Stepped size s (.logWrite p blockno) { s with
        pc := update s.pc p (.panicked msg) }
  | logWrite (p : P) (blockno : Nat) (mine : Finset Nat) :
      s.pc p = .inOp mine → logWritePanic size s = none →
      Stepped size s (.logWrite p blockno) { s with
        pc := update s.pc p (.logWrite mine blockno) }
  | record (p : P) (blockno : Nat) (mine : Finset Nat) : s.pc p = .logWrite mine blockno →
      Stepped size s (.record p) { s with
        lh := if blockno ∈ s.lh then s.lh else s.lh ++ [blockno]
        pc := update s.pc p (.inOp (insert blockno mine)) }
  | endOpPanics (p : P) (mine : Finset Nat) : s.pc p = .inOp mine → s.committing = true →
      Stepped size s (.endOp p) { s with
        outstanding := s.outstanding - 1
        pc := update s.pc p (.panicked "log.committing") }
  | endLast (p : P) (mine : Finset Nat) : s.pc p = .inOp mine → s.committing = false →
      s.outstanding - 1 = 0 →
      Stepped size s (.endOp p) { s with
        outstanding := s.outstanding - 1
        committing := true
        pc := update s.pc p .commit }
  | endOp (p : P) (mine : Finset Nat) : s.pc p = .inOp mine → s.committing = false →
      s.outstanding - 1 ≠ 0 →
      Stepped size s (.endOp p) { s with
        outstanding := s.outstanding - 1
        pc := update (wakeup s.pc) p .idle }
  | commit (p : P) : s.pc p = .commit →
      Stepped size s (.commit p) { s with lh := [], pc := update s.pc p .committed }
  | finish (p : P) : s.pc p = .committed →
      Stepped size s (.finish p) { s with
        committing := false
        pc := update (wakeup s.pc) p .idle }

theorem stepped_of_step (h : step size s a = some s') : Stepped size s a s' := by
  cases a with
  | beginOp p | kill p | record p | commit p | finish p =>
    simp only [step] at h
    split at h
    · cases h
      constructor
      assumption
    · cases h
  | test p =>
    simp only [step] at h
    split at h
    next hpc =>
      by_cases hadm : admits s = true
      · rw [if_pos hadm] at h; cases h; exact .admitted p hpc hadm
      · rw [if_neg hadm] at h; cases h; exact .sleep p hpc (by simpa using hadm)
    · cases h
  | logWrite p blockno =>
    simp only [step] at h
    split at h
    next mine hpc =>
      rcases hmsg : logWritePanic size s with _ | msg
      · rw [hmsg] at h; cases h; exact .logWrite p blockno mine hpc hmsg
      · rw [hmsg] at h; cases h; exact .logWritePanics p blockno mine msg hpc hmsg
    · cases h
  | endOp p =>
    simp only [step] at h
    split at h
    next mine hpc =>
      by_cases hcom : s.committing = true
      · rw [if_pos hcom] at h; cases h; exact .endOpPanics p mine hpc hcom
      rw [if_neg hcom] at h
      by_cases hzero : s.outstanding - 1 = 0
      · rw [if_pos hzero] at h; cases h
        exact .endLast p mine hpc (by simpa using hcom) hzero
      · rw [if_neg hzero] at h; cases h
        exact .endOp p mine hpc (by simpa using hcom) hzero
    · cases h

end

/-! ### The invariant -/

def inside : Pc → ℤ
  | .inOp _ => 1
  | .logWrite _ _ => 1
  | .panicked _ => 1
  | _ => 0

def commits : Pc → ℤ
  | .commit => 1
  | .committed => 1
  | _ => 0

theorem inside_nonneg (pc : Pc) : 0 ≤ inside pc := by cases pc <;> simp [inside]

theorem commits_nonneg (pc : Pc) : 0 ≤ commits pc := by cases pc <;> simp [commits]

variable {P : Type} [Fintype P] [DecidableEq P] {s : State P} {size : Int}

structure Inv (s : State P) : Prop where
  count : s.outstanding = tally inside s.pc
  single : tally commits s.pc = if s.committing then 1 else 0
  quiet : s.committing = true → s.outstanding = 0
  empty : s.outstanding = 0 → s.committing = false → s.lh = []
  cleared : ∀ p, s.pc p = .committed → s.lh = []
  nodup : s.lh.Nodup
  asleep : ∀ p, s.pc p = .sleeping → s.committing = true ∨ 1 ≤ s.outstanding
  panics : ∀ p, s.pc p ≠ .panicked "log.committing"

omit [Fintype P] [DecidableEq P] in
theorem wakeup_ne_sleeping (pc : P → Pc) (p : P) : wakeup pc p ≠ .sleeping := by
  unfold wakeup
  split
  · simp
  · assumption

omit [Fintype P] [DecidableEq P] in
theorem wakeup_eq_iff {pc : P → Pc} {p : P} {c : Pc} (hs : c ≠ .sleeping) (hb : c ≠ .beginOp) :
    wakeup pc p = c ↔ pc p = c := by
  unfold wakeup
  split
  next hsleep =>
    rw [hsleep]
    exact ⟨fun h => absurd h.symm hb, fun h => absurd h.symm hs⟩
  · exact Iff.rfl

omit [DecidableEq P] in
theorem tally_wakeup {w : Pc → ℤ} (hw : w .sleeping = w .beginOp) (pc : P → Pc) :
    tally w (wakeup pc) = tally w pc := by
  refine tally_congr fun p => ?_
  unfold wakeup
  split
  next hsleep => rw [hsleep, hw]
  · rfl

omit [DecidableEq P] in
theorem Inv.outstanding_nonneg (h : Inv s) : 0 ≤ s.outstanding := by
  rw [h.count]
  exact tally_nonneg fun p => inside_nonneg _

omit [DecidableEq P] in
theorem Inv.not_committing (h : Inv s) {p : P} (hp : inside (s.pc p) = 1) :
    1 ≤ s.outstanding ∧ s.committing = false := by
  have hle : 1 ≤ s.outstanding := by
    rw [h.count, ← hp]
    exact le_tally (fun q => inside_nonneg _) p
  refine ⟨hle, ?_⟩
  rcases hcom : s.committing with _ | _
  · rfl
  · have hzero := h.quiet hcom
    omega

omit [DecidableEq P] in
theorem Inv.committing_of (h : Inv s) {p : P} (hp : commits (s.pc p) = 1) :
    s.committing = true := by
  have hle : 1 ≤ tally commits s.pc := by
    rw [← hp]
    exact le_tally (fun q => commits_nonneg _) p
  rcases hcom : s.committing with _ | _
  · rw [h.single, hcom] at hle
    simp at hle
  · rfl

omit [DecidableEq P] in
theorem inv_initial : Inv (initial : State P) where
  count := by simp [initial, tally, inside]
  single := by simp [initial, tally, commits]
  quiet := by simp [initial]
  empty := by simp [initial]
  cleared := by simp [initial]
  nodup := by simp [initial]
  asleep := by simp [initial]
  panics := by simp [initial]

omit [Fintype P] [DecidableEq P] in
theorem logWritePanic_ne {msg : String} (h : logWritePanic size s = some msg) :
    msg ≠ "log.committing" := by
  unfold logWritePanic at h
  split at h
  · cases h; decide
  · split at h
    · cases h; decide
    · cases h

omit [Fintype P] in
theorem forall_update_eq {pc : P → Pc} {c d : Pc} {Q : Prop} (hd : d = c → Q)
    (h : ∀ q, pc q = c → Q) (p : P) : ∀ q, update pc p d q = c → Q :=
  (forall_update_iff pc fun _ d => d = c → Q).mpr ⟨hd, fun q _ => h q⟩

theorem Inv.move (h : Inv s) {p : P} {c : Pc} (hin : inside (s.pc p) = inside c)
    (hcm : commits (s.pc p) = commits c) (hcleared : c ≠ .committed)
    (hpanic : c ≠ .panicked "log.committing")
    (hasleep : c = .sleeping → s.committing = true ∨ 1 ≤ s.outstanding) :
    Inv { s with pc := update s.pc p c } where
  count := by
    rw [tally_update, hin, sub_add_cancel]
    exact h.count
  single := by
    rw [tally_update, hcm, sub_add_cancel]
    exact h.single
  quiet := h.quiet
  empty := h.empty
  cleared := forall_update_eq (absurd · hcleared) h.cleared p
  nodup := h.nodup
  asleep := forall_update_eq hasleep h.asleep p
  panics := forall_update_eq hpanic h.panics p

omit [Fintype P] in
theorem asleep_wakeup_update (pc : P → Pc) (p : P) (Q : Prop) :
    ∀ q, update (wakeup pc) p .idle q = .sleeping → Q :=
  forall_update_eq (by simp) (fun q h => absurd h (wakeup_ne_sleeping pc q)) p

omit [Fintype P] in
theorem forall_wakeup_update {pc : P → Pc} {c : Pc} {Q : Prop} (hs : c ≠ .sleeping)
    (hb : c ≠ .beginOp) (hi : c ≠ .idle) (h : ∀ q, pc q = c → Q) (p : P) :
    ∀ q, update (wakeup pc) p .idle q = c → Q :=
  forall_update_eq (fun hc => absurd hc.symm hi) (fun q hc => h q ((wakeup_eq_iff hs hb).mp hc)) p

theorem Inv.step {s' : State P} {a : Action P} (h : Inv s) (hs : Stepped size s a s') : Inv s' := by
  have hnn := h.outstanding_nonneg
  cases hs with
  | beginOp p hpc | kill p hpc | logWrite p blockno mine hpc =>
    exact h.move (by rw [hpc]; rfl) (by rw [hpc]; rfl) (by simp) (by simp) (by simp)
  | admitted p hpc hadm =>
    have hcom : s.committing = false := by
      simp only [admits, Bool.and_eq_true, Bool.not_eq_true'] at hadm
      exact hadm.1
    refine ⟨?_, ?_, ?_, ?_, ?_, h.nodup, ?_, ?_⟩
    · rw [tally_update, hpc, ← h.count]; simp [inside]
    · rw [tally_update, hpc, h.single]; simp [commits]
    · intro hc; exact absurd (hcom.symm.trans hc) (by simp)
    · intro hz
      simp only at hz
      omega
    · exact forall_update_eq (by simp) h.cleared p
    · intro q _
      right
      simp only
      omega
    · exact forall_update_eq (by simp) h.panics p
  | sleep p hpc hadm =>
    refine h.move (by rw [hpc]; rfl) (by rw [hpc]; rfl) (by simp) (by simp) fun _ => ?_
    -- with nothing outstanding and no commit the log is empty, and the test succeeds
    by_contra hno
    simp only [not_or, Bool.not_eq_true] at hno
    have hzero : s.outstanding = 0 := by omega
    have hlh := h.empty hzero hno.1
    simp [admits, hno.1, hzero, hlh, MAXOPBLOCKS, LOGSIZE] at hadm
  | logWritePanics p blockno mine msg hpc hmsg =>
    exact h.move (by rw [hpc]; rfl) (by rw [hpc]; rfl) (by simp)
      (by simpa using logWritePanic_ne hmsg) (by simp)
  | record p blockno mine hpc =>
    obtain ⟨hbusy, hcom⟩ := h.not_committing (by rw [hpc]; rfl)
    refine ⟨?_, ?_, h.quiet, ?_, ?_, ?_, ?_, ?_⟩
    · rw [tally_update, hpc, ← h.count]; simp [inside]
    · rw [tally_update, hpc, h.single]; simp [commits]
    · intro hz
      simp only at hz
      omega
    · refine forall_update_eq (by simp) (fun q hq => ?_) p
      have hcom' := h.committing_of (by rw [hq]; rfl)
      exact absurd (hcom.symm.trans hcom') (by simp)
    · by_cases hmem : blockno ∈ s.lh
      · simpa only [if_pos hmem] using h.nodup
      · simp only [if_neg hmem]
        simpa using h.nodup.concat hmem
    · exact forall_update_eq (by simp) h.asleep p
    · exact forall_update_eq (by simp) h.panics p
  | endOpPanics p mine hpc hcom =>
    have hbusy := h.not_committing (by rw [hpc]; rfl)
    exact absurd (hbusy.2.symm.trans hcom) (by simp)
  | endLast p mine hpc hcom hlast =>
    refine ⟨?_, ?_, fun _ => hlast, by simp, ?_, h.nodup, by simp, ?_⟩
    · rw [tally_update, hpc, ← h.count]; simp [inside]
    · rw [tally_update, hpc, h.single, hcom]; simp [commits]
    · exact forall_update_eq (by simp) h.cleared p
    · exact forall_update_eq (by simp) h.panics p
  | endOp p mine hpc hcom hmore =>
    have hpc' : wakeup s.pc p = .inOp mine := (wakeup_eq_iff (by simp) (by simp)).mpr hpc
    refine ⟨?_, ?_, ?_, fun hz => absurd hz hmore, ?_, h.nodup, ?_, ?_⟩
    · rw [tally_update, tally_wakeup rfl, hpc', ← h.count]; simp [inside]
    · rw [tally_update, tally_wakeup rfl, hpc', h.single]; simp [commits]
    · intro hc; exact absurd (hcom.symm.trans hc) (by simp)
    · exact forall_wakeup_update (by simp) (by simp) (by simp) h.cleared p
    · exact asleep_wakeup_update s.pc p _
    · exact forall_wakeup_update (by simp) (by simp) (by simp) h.panics p
  | commit p hpc =>
    have hcom := h.committing_of (by rw [hpc]; rfl)
    refine ⟨?_, ?_, h.quiet, fun _ _ => rfl, fun _ _ => rfl, List.nodup_nil, ?_, ?_⟩
    · rw [tally_update, hpc, ← h.count]; simp [inside]
    · rw [tally_update, hpc, h.single]; simp [commits]
    · exact fun q _ => Or.inl hcom
    · exact forall_update_eq (by simp) h.panics p
  | finish p hpc =>
    have hpc' : wakeup s.pc p = .committed := (wakeup_eq_iff (by simp) (by simp)).mpr hpc
    have hcom := h.committing_of (by rw [hpc]; rfl)
    refine ⟨?_, ?_, by simp, fun _ _ => h.cleared p hpc, ?_, h.nodup, ?_, ?_⟩
    · rw [tally_update, tally_wakeup rfl, hpc', ← h.count]; simp [inside]
    · rw [tally_update, tally_wakeup rfl, hpc', h.single, hcom]; simp [commits]
    · exact forall_wakeup_update (by simp) (by simp) (by simp) h.cleared p
    · exact asleep_wakeup_update s.pc p _
    · exact forall_wakeup_update (by simp) (by simp) (by simp) h.panics p

theorem inv_of_reachable {ok : State P → Action P → Prop} (h : (system P size).Reachable ok s) :
    Inv s := by
  refine h.invariant (fun s h0 => ?_) (fun s a s' hi _ hs => hi.step (stepped_of_step hs))
  rw [show s = initial from h0]
  exact inv_initial

theorem Inv.lh_eq_of_committing {s' : State P} {a : Action P} (h : Inv s)
    (hcom : s.committing = true) (hs : Stepped size s a s') :
    s'.lh = s.lh ∨ ∃ p, a = .commit p := by
  cases hs with
  | record p blockno mine hpc =>
    have hbusy := h.not_committing (by rw [hpc]; rfl)
    exact absurd (hbusy.2.symm.trans hcom) (by simp)
  | commit p => exact .inr ⟨p, rfl⟩
  | _ => exact .inl rfl

omit [DecidableEq P] in
/-- A set `committing` or a positive `outstanding` has its process: one whose `end_op`,
or the rest of it, will call `wakeup(&log)`. -/
theorem Inv.waker (h : Inv s) (hwait : s.committing = true ∨ 1 ≤ s.outstanding) :
    ∃ q, 0 < inside (s.pc q) ∨ 0 < commits (s.pc q) := by
  rcases hwait with hcom | hout
  · have hone : 0 < tally commits s.pc := by rw [h.single, if_pos hcom]; decide
    obtain ⟨q, hq⟩ := exists_pos_of_tally_pos hone
    exact ⟨q, .inr hq⟩
  · have hpos : 0 < tally inside s.pc := by rw [← h.count]; omega
    obtain ⟨q, hq⟩ := exists_pos_of_tally_pos hpos
    exact ⟨q, .inl hq⟩

/-- **Group commit.** In every state of every interleaving: a commit runs with no
operation outstanding, and only it touches the header until `committing` is
cleared; `end_op` never panics; with nothing outstanding and no commit the header is
empty; no block is logged twice; and a sleeper has somebody left to wake it. -/
theorem group_commit {size : Int} {s : State P} (h : (system P size).Reached s) :
    (s.committing = true → s.outstanding = 0 ∧
      ∀ a s', step size s a = some s' → s'.lh = s.lh ∨ ∃ p, a = .commit p) ∧
    (∀ p, s.pc p ≠ .panicked "log.committing") ∧
    (s.outstanding = 0 → s.committing = false → s.lh = []) ∧
    s.lh.Nodup ∧
    (∀ p, s.pc p = .sleeping → (s.committing = true ∨ 1 ≤ s.outstanding) ∧
      ∃ q, 0 < inside (s.pc q) ∨ 0 < commits (s.pc q)) := by
  have hinv := inv_of_reachable h
  refine ⟨fun hcom => ⟨hinv.quiet hcom, fun a s' hs => ?_⟩, hinv.panics, hinv.empty, hinv.nodup,
    fun p hp => ⟨hinv.asleep p hp, hinv.waker (hinv.asleep p hp)⟩⟩
  exact hinv.lh_eq_of_committing hcom (stepped_of_step hs)

/-- One process committing, another asleep on `&log`. -/
theorem group_commit_sleeper :
    ∃ s : State (Fin 2), s.pc 1 = .sleeping ∧ s.committing = true ∧ s.outstanding = 0 ∧
      s.lh = [33] ∧ ∃ q, 0 < inside (s.pc q) ∨ 0 < commits (s.pc q) := by
  obtain ⟨s, hrun, hsleep, hcom, hlh⟩ : ∃ s,
      (system (Fin 2) LOGSIZE).run (fun _ _ => True) initial [.beginOp 0, .test 0,
        .logWrite 0 33, .record 0, .endOp 0, .beginOp 1, .test 1] = some s ∧
      s.pc 1 = .sleeping ∧ s.committing = true ∧ s.lh = [33] := ⟨_, rfl, rfl, rfl, rfl⟩
  have h := group_commit (Transition.System.Reachable.run (.init rfl) _ hrun)
  exact ⟨s, hsleep, hcom, (h.1 hcom).1, hlh, (h.2.2.2.2 1 hsleep).2⟩

end Xv6.LogOps
