import Mathlib.Logic.Function.Basic
import Xv6.Transition

/-!
**Monitors with sleep and wakeup.**

Any number of processes run calls on one shared state, each call inside a single lock
`lk`. A call is a state machine over program points `K`: at a point it changes the shared
state, wakes a channel, goes to sleep on a channel or releases `lk`. Sleeping and waking
are not atomic: both go through a second lock `ptable`, which the sleeper takes before it
gives up `lk` and keeps until it is marked asleep, and which the waker needs. Anybody may
be killed at any moment `ptable` is free; that sets a flag and makes a sleeper ready.

`Outline` is a proof outline for such calls in the manner of Owicki and Gries, with one addition
for the channels: `wait c` says when a process may be asleep on `c`, and `owes k c` that the
holder of `lk`, at point `k`, has yet to wake `c`.
-/

namespace Monitor

open Transition Function

variable {P σ Ch K Call : Type}

/-! ### Calls and their interleavings -/

/-- What a call does at a program point. -/
inductive Act (σ Ch K : Type) where
  | set (s : σ) (k : K)
  | wakeup (c : Ch) (k : K)
  | sleep (c : Ch) (k : K)
  | release

structure Code (P σ Ch K Call : Type) where
  start : P → Call → K
  /-- The flag tells whether the process has been killed. -/
  next : K → σ → Bool → Act σ Ch K

/-- Where a process is. `waking` and `woke` are inside a wakeup, before and after the
channel's sleepers are made ready; `dropping` and `marking` are inside a sleep, before and
after `lk` is released. -/
inductive Mode (Ch K : Type) where
  | out
  | wants (k : K)
  | inside (k : K)
  | waking (c : Ch) (k : K)
  | woke (k : K)
  | dropping (c : Ch) (k : K)
  | marking (c : Ch) (k : K)
  | asleep (c : Ch) (k : K)
  | ready (k : K)
  deriving DecidableEq

namespace Mode

def HasLk : Mode Ch K → Prop
  | inside _ | waking _ _ | woke _ | dropping _ _ => True
  | _ => False

def HasPtable : Mode Ch K → Prop
  | waking _ _ | woke _ | dropping _ _ | marking _ _ => True
  | _ => False

/-- The process is asleep on `c`, or in a sleep that has given up `lk`. -/
def SleepsOn (c : Ch) : Mode Ch K → Prop
  | marking c' _ | asleep c' _ => c' = c
  | _ => False

instance [DecidableEq Ch] (c : Ch) (m : Mode Ch K) : Decidable (m.SleepsOn c) := by
  cases m <;> unfold SleepsOn <;> infer_instance

/-- In a call, and not asleep. -/
def Awake : Mode Ch K → Prop
  | .out | .asleep _ _ => False
  | _ => True

theorem awake {m : Mode Ch K} (h : m.HasLk ∨ m.HasPtable) : m.Awake := by
  cases m <;> first | trivial | exact h.elim id id

end Mode

structure State (P σ Ch K : Type) where
  shared : σ
  lk : Option P
  ptable : Option P
  mode : P → Mode Ch K
  killed : P → Bool

inductive Label (P Call : Type) where
  | call (p : P) (c : Call)
  | go (p : P)
  | kill (p : P)

/-- Make everybody asleep on `c` ready. -/
def wakeup1 [DecidableEq Ch] (c : Ch) (mode : P → Mode Ch K) : P → Mode Ch K :=
  fun q => match mode q with
    | .asleep c' k => if c' = c then .ready k else .asleep c' k
    | m => m

def State.goto [DecidableEq P] (s : State P σ Ch K) (p : P) (m : Mode Ch K) : State P σ Ch K :=
  { s with mode := update s.mode p m }

/-- A killed sleeper is ready, whatever it was asleep on. -/
def killedMode : Mode Ch K → Mode Ch K
  | .asleep _ k => .ready k
  | m => m

section

variable [DecidableEq P] [DecidableEq Ch] (code : Code P σ Ch K Call)

/-- One step of a process that is in a call. -/
def go (s : State P σ Ch K) (p : P) : Option (State P σ Ch K) :=
  match s.mode p with
  | .out => none
  | .wants k => if s.lk = none then some ({ s with lk := some p }.goto p (.inside k)) else none
  | .inside k =>
      match code.next k s.shared (s.killed p) with
      | .set σ' k' => some ({ s with shared := σ' }.goto p (.inside k'))
      | .wakeup c k' =>
          if s.ptable = none then some ({ s with ptable := some p }.goto p (.waking c k'))
          else none
      | .sleep c k' =>
          if s.ptable = none then some ({ s with ptable := some p }.goto p (.dropping c k'))
          else none
      | .release => some ({ s with lk := none }.goto p .out)
  | .waking c k => some ({ s with mode := wakeup1 c s.mode }.goto p (.woke k))
  | .woke k => some ({ s with ptable := none }.goto p (.inside k))
  | .dropping c k => some ({ s with lk := none }.goto p (.marking c k))
  | .marking c k => some ({ s with ptable := none }.goto p (.asleep c k))
  | .asleep _ _ => none
  | .ready k => if s.ptable = none then some (s.goto p (.wants k)) else none

/-- One step of the system; `may` says which calls the callers make. -/
def step (may : State P σ Ch K → P → Call → Prop) [∀ s p c, Decidable (may s p c)]
    (s : State P σ Ch K) : Label P Call → Option (State P σ Ch K)
  | .call p c =>
      match s.mode p with
      | .out => if may s p c then some (s.goto p (.wants (code.start p c))) else none
      | _ => none
  | .go p => go code s p
  | .kill p =>
      if s.ptable = none then
        some ({ s with killed := update s.killed p true }.goto p
          (killedMode (s.mode p)))
      else none

/-- The monitor, from shared states `init` with nobody inside. -/
def system (may : State P σ Ch K → P → Call → Prop) [∀ s p c, Decidable (may s p c)]
    (init : σ → Prop) : System (State P σ Ch K) (Label P Call) where
  init s := init s.shared ∧ s.lk = none ∧ s.ptable = none ∧ ∀ p, s.mode p = .out
  step := step code may

end

/-! ### Owners of the two locks -/

/-- `H` holds exactly of the owner. -/
def Owner (owner : Option P) (H : P → Prop) : Prop := ∀ q, owner = some q ↔ H q

namespace Owner

variable {owner : Option P} {H H' : P → Prop} {p : P}

theorem keep (h : Owner owner H) (hq : ∀ q, H' q ↔ H q) : Owner owner H' :=
  fun q => (h q).trans (hq q).symm

theorem unique (h : Owner owner H) {q : P} (hp : H p) (hq : H q) : q = p := by
  have h1 := (h p).mpr hp
  rw [(h q).mpr hq] at h1
  exact Option.some.inj h1

section

variable [DecidableEq P] {M : Type} {mode : P → M} {m : M} {G : M → Prop}

theorem take (h : Owner none fun q => G (mode q)) (hm : G m) :
    Owner (some p) fun q => G (update mode p m q) := by
  intro q
  rcases eq_or_ne q p with rfl | hne
  · simp [hm]
  simp only [update_of_ne hne, Option.some.injEq]
  constructor
  · intro he
    exact absurd he.symm hne
  · intro hG
    cases (h q).mpr hG

theorem drop (h : Owner owner fun q => G (mode q)) (hold : G (mode p)) (hm : ¬ G m) :
    Owner none fun q => G (update mode p m q) := by
  intro q
  constructor
  · intro he
    cases he
  · intro hG
    rcases eq_or_ne q p with rfl | hne
    · simp only [update_self] at hG
      exact absurd hG hm
    · simp only [update_of_ne hne] at hG
      exact absurd (h.unique hold hG) hne

theorem stay (h : Owner owner fun q => G (mode q)) (hm : G m ↔ G (mode p)) :
    Owner owner fun q => G (update mode p m q) := by
  apply h.keep
  intro q
  rcases eq_or_ne q p with rfl | hne
  · simp [hm]
  · simp [hne]

end

end Owner

/-! ### Proof outlines -/

structure Outline (code : Code P σ Ch K Call) where
  /-- Holds of the shared state at all times. -/
  inv : σ → Prop
  /-- Holds of a call in progress at all times, also while others are inside. -/
  keeps : P → K → σ → Prop
  /-- Holds at a program point of the process inside. -/
  here : P → K → σ → Prop
  /-- When a process may be asleep on the channel. -/
  wait : Ch → σ → Prop
  /-- The process inside has yet to wake the channel. -/
  owes : K → Ch → Prop

namespace Outline

variable {code : Code P σ Ch K Call} (o : Outline code)

/-- A point that may be entered whenever `lk` is free. -/
def Resumable (p : P) (k : K) : Prop := ∀ x, o.inv x → o.keeps p k x → o.here p k x

/-- The obligations of an outline: one for each thing a call can do. -/
structure Valid : Prop where
  start (p : P) (c : Call) {x : σ} : o.inv x → o.keeps p (code.start p c) x ∧
    o.Resumable p (code.start p c)
  set {p : P} {k k' : K} {x x' : σ} {b : Bool} : o.inv x → o.keeps p k x → o.here p k x →
    code.next k x b = .set x' k' →
    o.inv x' ∧ o.keeps p k' x' ∧ o.here p k' x' ∧
      ∀ c, o.wait c x ∨ o.owes k c → o.wait c x' ∨ o.owes k' c
  others {p q : P} {k k' kq : K} {x x' : σ} {b : Bool} : o.inv x → o.keeps p k x →
    o.here p k x → code.next k x b = .set x' k' → q ≠ p → o.keeps q kq x → o.keeps q kq x'
  wakeup {p : P} {k k' : K} {x : σ} {b : Bool} {c : Ch} : o.inv x → o.keeps p k x →
    o.here p k x → code.next k x b = .wakeup c k' →
    o.keeps p k' x ∧ o.here p k' x ∧ ∀ c', c' ≠ c → o.owes k c' → o.owes k' c'
  sleep {p : P} {k k' : K} {x : σ} {b : Bool} {c : Ch} : o.inv x → o.keeps p k x →
    o.here p k x → code.next k x b = .sleep c k' →
    o.wait c x ∧ o.keeps p k' x ∧ o.Resumable p k'

/-- What the outline says of process `p` in mode `m`. -/
def Fine (p : P) (x : σ) : Mode Ch K → Prop
  | .out => True
  | .wants k | .marking _ k | .asleep _ k | .ready k => o.keeps p k x ∧ o.Resumable p k
  | .inside k | .waking _ k | .woke k => o.keeps p k x ∧ o.here p k x
  | .dropping c k => o.keeps p k x ∧ o.Resumable p k ∧ o.wait c x

/-- The process in mode `m` has yet to wake `c`. -/
def Debt (c : Ch) : Mode Ch K → Prop
  | .inside k | .woke k => o.owes k c
  | .waking c' k => c' = c ∨ o.owes k c
  | _ => False

/-- A step of `p` that leaves the monitor: it owes no wakeup to anybody asleep. -/
def Settled (code : Code P σ Ch K Call) (o : Outline code) (s : State P σ Ch K) (p : P) : Prop :=
  ∀ k c, s.mode p = .inside k → o.owes k c →
    (code.next k s.shared (s.killed p) = .release ∨
      ∃ c' k', code.next k s.shared (s.killed p) = .sleep c' k') →
    ∀ q, ¬ (s.mode q).SleepsOn c

structure Good (s : State P σ Ch K) : Prop where
  lk : Owner s.lk fun p => (s.mode p).HasLk
  ptable : Owner s.ptable fun p => (s.mode p).HasPtable
  inv : o.inv s.shared
  fine : ∀ p, o.Fine p s.shared (s.mode p)
  sleepers : ∀ p c, (s.mode p).SleepsOn c →
    o.wait c s.shared ∨ ∃ q, o.Debt c (s.mode q)

variable {o}

theorem Debt.hasLk {c : Ch} {m : Mode Ch K} (h : o.Debt c m) : m.HasLk := by
  cases m <;> first | exact h | trivial

theorem Good.wait {s : State P σ Ch K} (h : o.Good s) (hfree : s.lk = none) {p : P} {c : Ch}
    (hp : (s.mode p).SleepsOn c) : o.wait c s.shared := by
  rcases h.sleepers p c hp with hw | ⟨q, hq⟩
  · exact hw
  · have h1 := (h.lk q).mpr hq.hasLk
    rw [hfree] at h1
    cases h1

theorem Good.moved {s s' : State P σ Ch K} {p : P} (h : o.Good s) (hx : s'.shared = s.shared)
    (hm : ∀ q, q ≠ p → s'.mode q = s.mode q)
    (hlk : Owner s'.lk fun q => (s'.mode q).HasLk)
    (hpt : Owner s'.ptable fun q => (s'.mode q).HasPtable)
    (hf : o.Fine p s.shared (s'.mode p))
    (hs : ∀ c, (s'.mode p).SleepsOn c → (s.mode p).SleepsOn c ∨ o.wait c s.shared)
    (hd : ∀ c, o.Debt c (s.mode p) → o.Debt c (s'.mode p) ∨ ∀ q, ¬ (s'.mode q).SleepsOn c) :
    o.Good s' := by
  refine ⟨hlk, hpt, hx ▸ h.inv, ?_, ?_⟩
  · intro q
    rw [hx]
    rcases eq_or_ne q p with rfl | hne
    · exact hf
    · rw [hm q hne]
      exact h.fine q
  · intro q c hq
    rw [hx]
    have hold : (s.mode q).SleepsOn c ∨ o.wait c s.shared := by
      rcases eq_or_ne q p with rfl | hne
      · exact hs c hq
      · exact .inl (hm q hne ▸ hq)
    rcases hold with hold | hw
    · rcases h.sleepers q c hold with hw | ⟨r, hr⟩
      · exact .inl hw
      rcases eq_or_ne r p with rfl | hne
      · rcases hd c hr with hr' | hnone
        · exact .inr ⟨r, hr'⟩
        · exact absurd hq (hnone q)
      · exact .inr ⟨r, (hm r hne).symm ▸ hr⟩
    · exact .inl hw

/-- The outline without its channels. -/
def forget (o : Outline code) : Outline code :=
  { o with wait := fun _ _ => True, owes := fun _ _ => False }

theorem Valid.forget (hv : o.Valid) : o.forget.Valid where
  start := hv.start
  set hi hk hh hn :=
    have h := hv.set hi hk hh hn
    ⟨h.1, h.2.1, h.2.2.1, fun _ _ => .inl trivial⟩
  others := hv.others
  wakeup hi hk hh hn :=
    have h := hv.wakeup hi hk hh hn
    ⟨h.1, h.2.1, fun _ _ ho => ho.elim⟩
  sleep hi hk hh hn :=
    have h := hv.sleep hi hk hh hn
    ⟨trivial, h.2⟩

section

variable [DecidableEq P] {s : State P σ Ch K} {p : P}

theorem Good.goto (h : o.Good s) {l t : Option P} {kd : P → Bool} {old m : Mode Ch K}
    (hp : s.mode p = old) (hlk : Owner l fun q => (update s.mode p m q).HasLk)
    (hpt : Owner t fun q => (update s.mode p m q).HasPtable)
    (hf : o.Fine p s.shared m)
    (hs : ∀ c, m.SleepsOn c → old.SleepsOn c ∨ o.wait c s.shared)
    (hd : ∀ c, o.Debt c old → o.Debt c m ∨ ¬ m.SleepsOn c ∧ ∀ q, ¬ (s.mode q).SleepsOn c) :
    o.Good ({ s with lk := l, ptable := t, killed := kd }.goto p m) := by
  subst hp
  have hmode : ∀ q, q ≠ p → update s.mode p m q = s.mode q :=
    fun q hne => update_of_ne hne _ _
  refine Good.moved h rfl hmode hlk hpt ?_ ?_ ?_
  · simpa [State.goto] using hf
  · simpa [State.goto] using hs
  intro c hc
  simp only [State.goto, update_self]
  rcases hd c hc with hm' | ⟨hp, hnone⟩
  · exact .inl hm'
  refine .inr fun q => ?_
  rcases eq_or_ne q p with rfl | hne
  · rw [update_self]
    exact hp
  · rw [update_of_ne hne]
    exact hnone q

theorem Good.set (hv : o.Valid) (h : o.Good s) {k k' : K} {x' : σ} {b : Bool}
    (hp : s.mode p = .inside k) (hn : code.next k s.shared b = .set x' k') :
    o.Good ({ s with shared := x' }.goto p (.inside k')) := by
  have hfp : o.keeps p k s.shared ∧ o.here p k s.shared := by
    have := h.fine p
    rwa [hp] at this
  obtain ⟨hinv, hkeep, hhere, hwait⟩ := hv.set h.inv hfp.1 hfp.2 hn
  refine ⟨h.lk.stay (by simp [hp, Mode.HasLk]), h.ptable.stay (by simp [hp, Mode.HasPtable]),
    hinv, ?_, ?_⟩
  · intro q
    rcases eq_or_ne q p with rfl | hne
    · simp only [State.goto, update_self]
      exact ⟨hkeep, hhere⟩
    simp only [State.goto, update_of_ne hne]
    -- nobody else is inside, so only `keeps` is at stake
    have hout : ¬ (s.mode q).HasLk := by
      intro hq
      exact hne (h.lk.unique (by rw [hp]; trivial) hq)
    have hfq := h.fine q
    have hoth : ∀ kq, o.keeps q kq s.shared → o.keeps q kq x' :=
      fun kq hkq => hv.others h.inv hfp.1 hfp.2 hn hne hkq
    cases hmq : s.mode q with
    | out => trivial
    | wants kq | marking _ kq | asleep _ kq | ready kq =>
      rw [hmq] at hfq
      exact ⟨hoth kq hfq.1, hfq.2⟩
    | inside | waking | woke | dropping =>
      rw [hmq] at hout
      exact absurd trivial hout
  · intro q c hq
    have hqp : q ≠ p := by
      rintro rfl
      simp only [State.goto, update_self] at hq
      exact hq
    simp only [State.goto, update_of_ne hqp] at hq
    have hold : o.wait c s.shared ∨ o.owes k c := by
      rcases h.sleepers q c hq with hw | ⟨r, hr⟩
      · exact .inl hw
      · have hrp : r = p := h.lk.unique (by rw [hp]; trivial) hr.hasLk
        rw [hrp, hp] at hr
        exact .inr hr
    rcases hwait c hold with hw | ho
    · exact .inl hw
    · refine .inr ⟨p, ?_⟩
      simp only [State.goto, update_self]
      exact ho

theorem Good.kill (h : o.Good s) :
    o.Good ({ s with killed := update s.killed p true }.goto p
      (killedMode (s.mode p))) := by
  have hf := h.fine p
  cases hp : s.mode p with
  | _ =>
    rw [hp] at hf
    apply Good.goto h hp
    · exact h.lk.stay (by rw [hp]; exact Iff.rfl)
    · exact h.ptable.stay (by rw [hp]; exact Iff.rfl)
    · exact hf
    all_goals
      -- a sleeper is woken; everybody else stays where he is
      intro c' hc
      first
      | exact .inl hc
      | cases hc

end

section

variable [DecidableEq Ch] {s : State P σ Ch K}

theorem wakeup1_cases (c : Ch) (mode : P → Mode Ch K) (q : P) :
    (∃ k, mode q = .asleep c k ∧ wakeup1 c mode q = .ready k) ∨
      wakeup1 c mode q = mode q ∧ ∀ k, mode q ≠ .asleep c k := by
  cases hm : mode q with
  | asleep c' k =>
    rcases eq_or_ne c' c with rfl | hne
    · exact .inl ⟨k, rfl, by simp [wakeup1, hm]⟩
    · refine .inr ⟨by simp [wakeup1, hm, hne], fun k' he => ?_⟩
      cases he
      exact hne rfl
  | _ => exact .inr ⟨by simp [wakeup1, hm], nofun⟩

theorem Good.woken (h : o.Good s) (c : Ch) : o.Good { s with mode := wakeup1 c s.mode } := by
  refine ⟨h.lk.keep fun q => ?_, h.ptable.keep fun q => ?_, h.inv, fun q => ?_, ?_⟩
  · rcases wakeup1_cases c s.mode q with ⟨k, hold, hnew⟩ | ⟨hnew, -⟩
    · simp only [hnew, hold, Mode.HasLk]
    · simp only [hnew]
  · rcases wakeup1_cases c s.mode q with ⟨k, hold, hnew⟩ | ⟨hnew, -⟩
    · simp only [hnew, hold, Mode.HasPtable]
    · simp only [hnew]
  · have hq := h.fine q
    rcases wakeup1_cases c s.mode q with ⟨k, hold, hnew⟩ | ⟨hnew, -⟩
    · rw [hold] at hq
      simp only [hnew]
      exact hq
    · simp only [hnew]
      exact hq
  · intro q c' hq
    have hold : (s.mode q).SleepsOn c' := by
      rcases wakeup1_cases c s.mode q with ⟨k, -, hnew⟩ | ⟨hnew, -⟩
      · simp only [hnew] at hq
        cases hq
      · simpa only [hnew] using hq
    rcases h.sleepers q c' hold with hw | ⟨r, hr⟩
    · exact .inl hw
    refine .inr ⟨r, ?_⟩
    rcases wakeup1_cases c s.mode r with ⟨k, hr', -⟩ | ⟨hnew, -⟩
    · rw [hr'] at hr
      cases hr
    · simpa only [hnew] using hr

end

variable [DecidableEq P] [DecidableEq Ch] {s s' : State P σ Ch K} {p : P}

theorem Good.waking (h : o.Good s) {c : Ch} {k : K} (hp : s.mode p = .waking c k) :
    o.Good ({ s with mode := wakeup1 c s.mode }.goto p (.woke k)) := by
  have hp' : wakeup1 c s.mode p = .waking c k := by simp [wakeup1, hp]
  have hf := h.fine p
  rw [hp] at hf
  refine Good.goto (h.woken c) hp' ?_ ?_ hf (nofun) ?_
  · apply (h.woken c).lk.stay
    simp [hp', Mode.HasLk]
  · apply (h.woken c).ptable.stay
    simp [hp', Mode.HasPtable]
  intro c' hc
  rcases hc with rfl | ho
  · refine .inr ⟨fun hs => (by cases hs), fun q hq => ?_⟩
    -- whoever is still on its way to sleep would hold `ptable` as well
    rcases wakeup1_cases c s.mode q with ⟨kq, -, hnew⟩ | ⟨hnew, hnot⟩
    · simp only [hnew] at hq
      cases hq
    simp only [hnew] at hq
    cases hmq : s.mode q with
    | marking =>
      have hqp : q = p := h.ptable.unique (by rw [hp]; trivial) (by rw [hmq]; trivial)
      rw [hqp, hp] at hmq
      cases hmq
    | asleep c' kq =>
      rw [hmq] at hq
      cases hq
      exact hnot kq hmq
    | _ => rw [hmq] at hq; cases hq
  · exact .inl ho

theorem Good.go (hv : o.Valid) (h : o.Good s) (hset : Settled code o s p)
    (hs : go code s p = some s') : o.Good s' := by
  have hf := h.fine p
  have hl := h.lk
  have ht := h.ptable
  unfold Monitor.go at hs
  cases hp : s.mode p with
  | out | asleep => simp only [hp] at hs; cases hs
  | wants =>
    simp only [hp] at hs
    rw [hp] at hf
    obtain ⟨hfree, ⟨⟩⟩ := Option.ite_none_right_eq_some.mp hs
    rw [hfree] at hl
    apply Good.goto h hp
    · exact hl.take trivial
    · exact ht.stay (by rw [hp]; exact Iff.rfl)
    · exact ⟨hf.1, hf.2 _ h.inv hf.1⟩
    · intro c hc
      cases hc
    · intro c hc
      cases hc
  | inside k =>
    simp only [hp] at hs
    rw [hp] at hf
    cases hn : code.next k s.shared (s.killed p) with
    | set =>
      simp only [hn] at hs
      cases hs
      exact h.set hv hp hn
    | wakeup c =>
      simp only [hn] at hs
      obtain ⟨hkeep, hhere, howes⟩ := hv.wakeup h.inv hf.1 hf.2 hn
      obtain ⟨hfree, ⟨⟩⟩ := Option.ite_none_right_eq_some.mp hs
      rw [hfree] at ht
      apply Good.goto h hp
      · exact hl.stay (by rw [hp]; exact Iff.rfl)
      · exact ht.take trivial
      · exact ⟨hkeep, hhere⟩
      · intro c' hc
        cases hc
      intro c' hc
      rcases eq_or_ne c' c with rfl | hne
      · exact .inl (.inl rfl)
      · exact .inl (.inr (howes c' hne hc))
    | sleep c k' =>
      simp only [hn] at hs
      obtain ⟨hwait, hkeep, hres⟩ := hv.sleep h.inv hf.1 hf.2 hn
      obtain ⟨hfree, ⟨⟩⟩ := Option.ite_none_right_eq_some.mp hs
      rw [hfree] at ht
      apply Good.goto h hp
      · exact hl.stay (by rw [hp]; exact Iff.rfl)
      · exact ht.take trivial
      · exact ⟨hkeep, hres, hwait⟩
      · intro c' hc
        cases hc
      · intro c' hc
        exact .inr ⟨fun hc' => (by cases hc'), hset k c' hp hc (.inr ⟨c, k', hn⟩)⟩
    | release =>
      simp only [hn] at hs
      cases hs
      apply Good.goto h hp
      · exact hl.drop (by rw [hp]; trivial) (fun hc => hc)
      · exact ht.stay (by rw [hp]; exact Iff.rfl)
      · exact trivial
      · intro c hc
        cases hc
      · intro c hc
        exact .inr ⟨fun hc' => (by cases hc'), hset k c hp hc (.inl hn)⟩
  | waking =>
    simp only [hp] at hs
    cases hs
    exact h.waking hp
  | woke =>
    simp only [hp] at hs
    rw [hp] at hf
    cases hs
    apply Good.goto h hp
    · exact hl.stay (by rw [hp]; exact Iff.rfl)
    · exact ht.drop (by rw [hp]; trivial) (fun hc => hc)
    · exact hf
    · intro c hc
      cases hc
    · intro c hc
      exact .inl hc
  | dropping =>
    simp only [hp] at hs
    rw [hp] at hf
    cases hs
    apply Good.goto h hp
    · exact hl.drop (by rw [hp]; trivial) (fun hc => hc)
    · exact ht.stay (by rw [hp]; exact Iff.rfl)
    · exact ⟨hf.1, hf.2.1⟩
    · intro c' hc
      cases hc
      exact .inr hf.2.2
    · intro c' hc
      cases hc
  | marking =>
    simp only [hp] at hs
    rw [hp] at hf
    cases hs
    apply Good.goto h hp
    · exact hl.stay (by rw [hp]; exact Iff.rfl)
    · exact ht.drop (by rw [hp]; trivial) (fun hc => hc)
    · exact hf
    · intro c' hc
      exact .inl hc
    · intro c' hc
      cases hc
  | ready =>
    simp only [hp] at hs
    rw [hp] at hf
    split at hs
    · cases hs
      apply Good.goto h hp
      · exact hl.stay (by rw [hp]; exact Iff.rfl)
      · exact ht.stay (by rw [hp]; exact Iff.rfl)
      · exact hf
      · intro c hc
        cases hc
      · intro c hc
        cases hc
    · cases hs

variable {may : State P σ Ch K → P → Call → Prop} [∀ s p c, Decidable (may s p c)]

theorem Good.step (hv : o.Valid) {a : Label P Call} (h : o.Good s)
    (hset : ∀ p, a = .go p → Settled code o s p) (hs : step code may s a = some s') : o.Good s' := by
  cases a with
  | go p => exact h.go hv (hset p rfl) hs
  | kill =>
    simp only [Monitor.step] at hs
    split at hs
    · cases hs
      exact h.kill
    · cases hs
  | call p c =>
    simp only [Monitor.step] at hs
    split at hs
    next hp =>
      split at hs
      · cases hs
        apply Good.goto h hp
        · exact h.lk.stay (by rw [hp]; exact Iff.rfl)
        · exact h.ptable.stay (by rw [hp]; exact Iff.rfl)
        · exact hv.start p c h.inv
        · intro c' hc
          cases hc
        · intro c' hc
          cases hc
      · cases hs
    · cases hs

/-- **The rule.** The invariant holds along every run whose steps owe nobody asleep a
wakeup when they leave the monitor. -/
theorem good_of_reachable (hv : o.Valid) {init : σ → Prop} (hinit : ∀ x, init x → o.inv x)
    {ok : State P σ Ch K → Label P Call → Prop}
    (hok : ∀ s p, o.Good s → ok s (.go p) → Settled code o s p)
    (hr : (system code may init).Reachable ok s) : o.Good s := by
  apply hr.invariant
  · rintro s ⟨h0, hlk, hpt, hout⟩
    refine ⟨fun p => ?_, fun p => ?_, hinit _ h0, fun p => ?_, fun p c hc => ?_⟩
    · simp [hlk, hout, Mode.HasLk]
    · simp [hpt, hout, Mode.HasPtable]
    · rw [hout]
      trivial
    · rw [hout] at hc
      cases hc
  · intro s a s' h hoks hs
    apply h.step hv _ hs
    rintro p rfl
    exact hok s p h hoks

/-- What an outline says of the shared state and of the process inside holds along every
run, debts or not. -/
theorem holds_of_reached (hv : o.Valid) {init : σ → Prop} (hinit : ∀ x, init x → o.inv x)
    (hr : (system code may init).Reached s) :
    o.inv s.shared ∧ ∀ p k, s.mode p = .inside k → o.keeps p k s.shared ∧ o.here p k s.shared := by
  have h : o.forget.Good s :=
    good_of_reachable hv.forget hinit (fun _ _ _ _ _ _ _ ho => ho.elim) hr
  refine ⟨h.inv, fun p k hp => ?_⟩
  have hf := h.fine p
  rw [hp] at hf
  exact hf

theorem go_some (hp : (s.mode p).Awake) (hpt : (s.mode p).HasPtable ∨ s.ptable = none)
    (hlk : (s.mode p).HasLk ∨ (s.mode p).HasPtable ∨ s.lk = none) : ∃ s', go code s p = some s' := by
  unfold go
  cases hm : s.mode p <;> rw [hm] at hp hpt hlk
  case out | asleep => cases hp
  case wants => exact ⟨_, if_pos ((hlk.resolve_left id).resolve_left id)⟩
  case inside =>
    dsimp only
    split <;> first | exact ⟨_, rfl⟩ | exact ⟨_, if_pos (hpt.resolve_left id)⟩
  case ready => exact ⟨_, if_pos (hpt.resolve_left id)⟩
  all_goals exact ⟨_, rfl⟩

/-- **The two locks do not deadlock.** -/
theorem Good.go_some (h : o.Good s) (hp : (s.mode p).Awake) :
    ∃ q s', Monitor.go code s q = some s' := by
  rcases hpt : s.ptable with _ | q
  · rcases hlk : s.lk with _ | q
    · exact ⟨p, Outline.go_some hp (.inr hpt) (.inr (.inr hlk))⟩
    · have hq : (s.mode q).HasLk := (h.lk q).mp hlk
      exact ⟨q, Outline.go_some (Mode.awake (.inl hq)) (.inr hpt) (.inl hq)⟩
  · have hq : (s.mode q).HasPtable := (h.ptable q).mp hpt
    exact ⟨q, Outline.go_some (Mode.awake (.inr hq)) (.inl hq) (.inr (.inl hq))⟩

end Outline

end Monitor
