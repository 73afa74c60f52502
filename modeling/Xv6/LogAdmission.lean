import Xv6.LogOps

/-!
**Is `begin_op`'s reservation enough for `log_write`?**

`begin_op` lets an operation in while `lh.n + (outstanding + 1) * MAXOPBLOCKS` is at
most `LOGSIZE`, and `log_write` panics once `lh.n` reaches `log.size - 1`. On the disk
`mkfs` lays out, `log.size = LOGSIZE`, so three operations that log `MAXOPBLOCKS`
blocks each are let in together and the last block of the last of them panics
(`three_operations_panic`).

What an operation may still add is its `reserve`; the header and the reserves of all operations in
progress are the `potential` of a state. Only an admission raises it.
-/

namespace Xv6.LogOps

open Tally Transition Function Finset

section

variable {P : Type}

/-- An operation logs at most `MAXOPBLOCKS` distinct blocks. -/
def withinBudget (s : State P) : Action P → Bool
  | .logWrite p blockno =>
      match s.pc p with
      | .inOp mine => decide ((insert blockno mine).card ≤ MAXOPBLOCKS)
      | _ => true
  | _ => true

/-- The blocks an operation in progress may still add to the header. -/
def reserve : Pc → ℤ
  | .inOp mine => MAXOPBLOCKS - mine.card
  | .logWrite mine _ => MAXOPBLOCKS - mine.card
  | _ => 0

/-- The blocks in the header, and those the operations in progress may still add. -/
def potential [Fintype P] (s : State P) : ℤ := s.lh.length + tally reserve s.pc

/-- An admission leaves the header two blocks short of `LOGSIZE` at worst: `log_write`
turns back at `log.size - 1`, and it also tests before a block that is absorbed. -/
def roomy [Fintype P] (s : State P) : Action P → Bool
  | .test _ => !admits s || decide (potential s + MAXOPBLOCKS ≤ LOGSIZE - 2)
  | _ => true

/-- The blocks of an operation in progress are in the header and within its budget. -/
def Covered (lh : List Nat) : Pc → Prop
  | .inOp mine => mine.card ≤ MAXOPBLOCKS ∧ ∀ b ∈ mine, b ∈ lh
  | .logWrite mine blockno => (insert blockno mine).card ≤ MAXOPBLOCKS ∧ ∀ b ∈ mine, b ∈ lh
  | _ => True

theorem Covered.mono {lh lh' : List Nat} (hsub : ∀ b ∈ lh, b ∈ lh') {pc : Pc}
    (h : Covered lh pc) : Covered lh' pc := by
  cases pc with
  | inOp | logWrite => exact ⟨h.1, fun b hb => hsub b (h.2 b hb)⟩
  | _ => trivial

theorem Covered.reserve_nonneg {lh : List Nat} {pc : Pc} (h : Covered lh pc) :
    0 ≤ reserve pc := by
  cases pc with
  | inOp =>
    have hcard := h.1
    simp only [reserve]
    omega
  | logWrite mine blockno =>
    have hcard := h.1
    have hle := card_le_card (subset_insert blockno mine)
    simp only [reserve]
    omega
  | _ => exact le_refl _

theorem covered_of_not_inside {lh : List Nat} {pc : Pc} (h : inside pc = 0) : Covered lh pc := by
  cases pc <;> first | trivial | simp [inside] at h

end

variable {P : Type} [Fintype P] [DecidableEq P] {s s' : State P} {a : Action P} {size : Int}

omit [Fintype P] in
theorem forall_covered_update {lh : List Nat} {pc : P → Pc} {p : P} {c : Pc}
    (h : ∀ q, Covered lh (pc q)) (hc : Covered lh c) :
    ∀ q, Covered lh (update pc p c q) :=
  (forall_update_iff pc fun _ c => Covered lh c).mpr ⟨hc, fun q _ => h q⟩

omit [Fintype P] [DecidableEq P] in
theorem covered_wakeup {lh : List Nat} {pc : P → Pc} (h : ∀ q, Covered lh (pc q)) (q : P) :
    Covered lh (wakeup pc q) := by
  unfold wakeup
  split
  · trivial
  · exact h q

theorem covered_step (hinv : Inv s) (h : ∀ p, Covered s.lh (s.pc p))
    (hbudget : withinBudget s a = true) (hs : Stepped size s a s') :
    ∀ p, Covered s'.lh (s'.pc p) := by
  cases hs with
  | logWrite p blockno mine hpc =>
    have hmine : Covered s.lh (.inOp mine) := hpc ▸ h p
    simp only [withinBudget, hpc, decide_eq_true_eq] at hbudget
    exact forall_covered_update h ⟨hbudget, hmine.2⟩
  | record p blockno mine hpc =>
    have hmine : Covered s.lh (.logWrite mine blockno) := hpc ▸ h p
    have hsub : ∀ b ∈ s.lh, b ∈ if blockno ∈ s.lh then s.lh else s.lh ++ [blockno] := by
      intro b hb
      split <;> simp [hb]
    refine forall_covered_update (fun q => (h q).mono hsub) ⟨hmine.1, fun b hb => ?_⟩
    rcases mem_insert.mp hb with rfl | hold
    · split <;> simp_all
    · exact hsub b (hmine.2 b hold)
  | commit p hpc =>
    -- no operation is in progress while `commit` runs
    have hcom := hinv.committing_of (by rw [hpc]; rfl)
    have hzero : tally inside s.pc = 0 := hinv.count ▸ hinv.quiet hcom
    have hnone := eq_zero_of_tally_eq_zero (fun q => inside_nonneg (s.pc q)) hzero
    exact forall_covered_update (fun q => covered_of_not_inside (hnone q)) trivial
  | endOp | finish => exact forall_covered_update (covered_wakeup h) trivial
  | admitted => exact forall_covered_update h ⟨by simp, by simp⟩
  | _ => exact forall_covered_update h trivial

/-- Recording a block raises the header and the operation's own blocks together, or
leaves the header alone. -/
theorem record_length {lh : List Nat} {mine : Finset Nat} {b : Nat} (hmine : ∀ b ∈ mine, b ∈ lh) :
    ((if b ∈ lh then lh else lh ++ [b]).length : ℤ) - (insert b mine).card ≤
      lh.length - mine.card := by
  by_cases hmem : b ∈ lh
  · have hle := card_le_card (subset_insert b mine)
    simp only [if_pos hmem]
    omega
  have hnew : b ∉ mine := fun hb => hmem (hmine b hb)
  simp only [if_neg hmem, List.length_append, List.length_singleton, card_insert_of_notMem hnew]
  omega

/-- **Only an admission raises the potential**, and by `MAXOPBLOCKS`. -/
theorem potential_step (h : ∀ p, Covered s.lh (s.pc p)) (hs : Stepped size s a s') :
    potential s' ≤ potential s ∨
      ∃ p, a = .test p ∧ admits s = true ∧ potential s' = potential s + MAXOPBLOCKS := by
  -- a process that leaves an operation, or never was in one, gives its reserve up
  have hleave : ∀ (p : P) (c : Pc), reserve c = 0 →
      tally reserve (update s.pc p c) ≤ tally reserve s.pc := fun p c hc =>
    tally_update_le (hc ▸ (h p).reserve_nonneg)
  have hleave' : ∀ (p : P), tally reserve (update (wakeup s.pc) p .idle) ≤
      tally reserve s.pc := fun p =>
    (tally_update_le (covered_wakeup h p).reserve_nonneg).trans (tally_wakeup rfl s.pc).le
  cases hs with
  | admitted p hpc hadm =>
    refine .inr ⟨p, rfl, hadm, ?_⟩
    simp only [potential, tally_update, hpc, reserve, card_empty]
    omega
  | logWrite p blockno mine hpc =>
    left
    simp only [potential, tally_update, hpc, reserve]
    omega
  | record p blockno mine hpc =>
    have hmine : Covered s.lh (.logWrite mine blockno) := hpc ▸ h p
    have hlen := record_length (b := blockno) hmine.2
    left
    simp only [potential, tally_update, hpc, reserve]
    omega
  | commit p => exact .inl (add_le_add (by simp) (hleave p _ rfl))
  | endOp p | finish p => exact .inl (add_le_add_right (hleave' p) _)
  | _ => exact .inl (add_le_add_right (hleave _ _ rfl) _)

omit [DecidableEq P] in
theorem length_le_potential (h : ∀ p, Covered s.lh (s.pc p)) : s.lh.length ≤ potential s := by
  have hres := tally_nonneg fun p => (h p).reserve_nonneg
  simp only [potential]
  omega

/-- What the admissions keep. -/
structure Roomy (s : State P) : Prop where
  inv : Inv s
  covered : ∀ p, Covered s.lh (s.pc p)
  room : potential s ≤ LOGSIZE - 2
  fits : ∀ p, s.pc p ≠ .panicked "too big a transaction"

omit [DecidableEq P] in
theorem roomy_initial : Roomy (initial : State P) where
  inv := inv_initial
  covered := fun _ => trivial
  room := by simp [potential, initial, tally, reserve, LOGSIZE, MAXOPBLOCKS]
  fits := by simp [initial]

omit [Fintype P] [DecidableEq P] in
theorem logWritePanic_fits {msg : String} (hlen : s.lh.length < size - 1) (hsize : size ≤ LOGSIZE)
    (h : logWritePanic size s = some msg) : msg ≠ "too big a transaction" := by
  unfold logWritePanic at h
  rw [if_neg (by omega)] at h
  split at h
  · cases h; decide
  · cases h

omit [Fintype P] in
theorem fits_step (hlen : s.lh.length < size - 1) (hsize : size ≤ LOGSIZE)
    (h : ∀ p, s.pc p ≠ .panicked "too big a transaction") (hs : Stepped size s a s') :
    ∀ p, s'.pc p ≠ .panicked "too big a transaction" := by
  have hmove : ∀ (p : P) (c : Pc), c ≠ .panicked "too big a transaction" →
      ∀ q, update s.pc p c q ≠ .panicked "too big a transaction" := fun p c hc =>
    (forall_update_iff s.pc fun _ c => c ≠ .panicked "too big a transaction").mpr
      ⟨hc, fun q _ => h q⟩
  cases hs with
  | logWritePanics p blockno mine msg hpc hmsg =>
    exact hmove p _ (by simpa using logWritePanic_fits hlen hsize hmsg)
  | endOp p | finish p => exact forall_wakeup_update (by simp) (by simp) (by simp) h p
  | _ => exact hmove _ _ (by simp)

theorem Roomy.step (h : Roomy s) (hok : withinBudget s a = true ∧ roomy s a = true)
    (hs : step LOGSIZE s a = some s') : Roomy s' := by
  have hstepped := stepped_of_step hs
  have hlen := length_le_potential h.covered
  have hroom := h.room
  refine ⟨h.inv.step hstepped, covered_step h.inv h.covered hok.1 hstepped, ?_,
    fits_step (by omega) le_rfl h.fits hstepped⟩
  rcases potential_step h.covered hstepped with hle | ⟨p, rfl, hadm, heq⟩
  · exact hle.trans hroom
  · have hadmitted := hok.2
    simp only [roomy, hadm, Bool.not_true, Bool.false_or, decide_eq_true_eq] at hadmitted
    omega

/-- **Admissions that leave room suffice.** In a run where every operation keeps its
budget and no admission takes the potential past `LOGSIZE - 2`, `log_write` finds no
transaction too big. -/
theorem log_write_fits_of_admissions
    (h : (system P LOGSIZE).Reachable (fun s a => withinBudget s a = true ∧ roomy s a = true) s) :
    ∀ p, s.pc p ≠ .panicked "too big a transaction" := by
  have hroomy : Roomy s := by
    refine h.invariant (fun s h0 => ?_) (fun s a s' hi hok hs => hi.step hok hs)
    rw [show s = initial from h0]
    exact roomy_initial
  exact hroomy.fits

/-- Two operations that log their `MAXOPBLOCKS` blocks each. -/
theorem log_write_fits_two_operations :
    ∃ s : State (Fin 2), s.lh.length = 2 * MAXOPBLOCKS ∧
      ∀ p, s.pc p ≠ .panicked "too big a transaction" := by
  obtain ⟨s, hrun, hlen⟩ : ∃ s, (system (Fin 2) LOGSIZE).run
      (fun s a => withinBudget s a = true ∧ roomy s a = true) initial
      ([.beginOp 0, .test 0, .beginOp 1, .test 1] ++ (List.range 10).flatMap fun i =>
        [.logWrite 0 (40 + i), .logWrite 1 (60 + i), .record 1, .record 0]) = some s ∧
      s.lh.length = 2 * MAXOPBLOCKS := ⟨_, rfl, rfl⟩
  exact ⟨s, hlen, log_write_fits_of_admissions (System.Reachable.run (.init rfl) _ hrun)⟩

/-! ### Three operations at once -/

/-- **Three operations within their budgets overrun the log**: all three are let in,
each logs blocks of its own, and the thirtieth block panics. -/
theorem three_operations_panic :
    ∃ s : State (Fin 3),
      (system (Fin 3) LOGSIZE).Reachable (fun s a => withinBudget s a = true) s ∧
      s.pc 2 = .panicked "too big a transaction" := by
  obtain ⟨s, hrun, hpanic⟩ : ∃ s, (system (Fin 3) LOGSIZE).run
      (fun s a => withinBudget s a = true) initial
      ([.beginOp 0, .test 0, .beginOp 1, .test 1, .beginOp 2, .test 2] ++
        ((List.range 10).flatMap fun i => [.logWrite 0 (40 + i), .record 0]) ++
        ((List.range 10).flatMap fun i => [.logWrite 1 (60 + i), .record 1]) ++
        ((List.range 9).flatMap fun i => [.logWrite 2 (80 + i), .record 2]) ++
        [.logWrite 2 89]) = some s ∧
      s.pc 2 = .panicked "too big a transaction" := ⟨_, rfl, rfl⟩
  exact ⟨s, System.Reachable.run (.init rfl) _ hrun, hpanic⟩

end Xv6.LogOps
