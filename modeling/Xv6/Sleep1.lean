import Xv6.Monitor
import Xv6.SleepOrder
import Xv6.Tally

/-!
**The producer/consumer model of `sleep1.p`**, for any numbers of producers and consumers
and any number of iterations.

The Promela text has `N` of each, with `N` and `ITER` macros. One statement of the text is
one step here. All its variables are bytes, `value` among them, and that is what limits the
model: a consumer that is woken takes an item without testing again, so `value` can pass
below 0, and with 256 increments it wraps round as well.

A consumer that is asleep once the producers have finished fell asleep at `value` = 0 after the last
increment. For `value` to be positive then, another consumer must have taken an item since, so there
are two, and at least two decrements more than `M * ITER % 256` in all.
-/

namespace Xv6.Sleep1

open Monitor Tally Function

/-- Where a process is: `snooze` is the atomic release-and-sleep, and `wstart` to `wnext` are
the statements of `wakeup`. -/
inductive Pc where
  | loop | acquire | cond | snooze | asleep | reacquire | load | store | clear | release
  | wstart | wloop | wclear | wnext | next | done
  deriving DecidableEq

/-- A process: its place, its loop counter and its locals `x` and `w`. -/
structure Thread where
  pc : Pc
  i : UInt8
  x : UInt8
  w : UInt8
  deriving DecidableEq

structure State (N M : Nat) where
  lk : Bool
  value : UInt8
  sleeping : Fin N → Bool
  thread : Fin N ⊕ Fin M → Thread

variable {N M : Nat} {lk : Bool}

def State.put (s : State N M) (a : Fin N ⊕ Fin M) (t : Thread) : State N M :=
  { s with thread := update s.thread a t }

/-- `value = x - 1` by a consumer, `value = x + 1` by a producer. -/
def newValue (x : UInt8) : Fin N ⊕ Fin M → UInt8
  | .inl _ => x - 1
  | .inr _ => x + 1

/-- One statement of process `a`; a failed assertion stops the model. -/
def step (ITER : Nat) (s : State N M) (a : Fin N ⊕ Fin M) : Option (State N M) :=
  let t := s.thread a
  match t.pc with
  | .loop => some (s.put a { t with pc := if t.i.toNat < ITER then .acquire else .done })
  | .acquire =>
      if s.lk then none
      else some ({ s with lk := true }.put a
        { t with pc := match a with | .inl _ => .cond | .inr _ => .load })
  | .cond =>
      match a with
      | .inl c =>
          if s.sleeping c then none
          else some (s.put a { t with pc := if 0 < s.value then .load else .snooze })
      | .inr _ => none
  | .snooze =>
      match a with
      | .inl c =>
          if s.lk then
            some ({ s with lk := false, sleeping := update s.sleeping c true }.put a
              { t with pc := .asleep })
          else none
      | .inr _ => none
  | .asleep =>
      match a with
      | .inl c => if s.sleeping c then none else some (s.put a { t with pc := .reacquire })
      | .inr _ => none
  | .reacquire => if s.lk then none else some ({ s with lk := true }.put a { t with pc := .load })
  | .load => some (s.put a { t with x := s.value, pc := .store })
  | .store => some ({ s with value := newValue t.x a }.put a { t with pc := .clear })
  | .clear => some (s.put a { t with x := 0, pc := .release })
  | .release =>
      if s.lk then
        some ({ s with lk := false }.put a
          { t with pc := match a with | .inl _ => .next | .inr _ => .wstart })
      else none
  | .wstart => some (s.put a { t with w := 0, pc := .wloop })
  | .wloop => some (s.put a { t with pc := if t.w.toNat < N then .wclear else .next })
  | .wclear =>
      if h : t.w.toNat < N then
        some ({ s with sleeping := update s.sleeping ⟨t.w.toNat, h⟩ false }.put a
          { t with pc := .wnext })
      else none
  | .wnext => some (s.put a { t with w := t.w + 1, pc := .wloop })
  | .next => some (s.put a { t with i := t.i + 1, pc := .loop })
  | .done => none

/-- `N` consumers and `M` producers, `ITER` iterations each. -/
def system (N M ITER : Nat) : Transition.System (State N M) (Fin N ⊕ Fin M) where
  init s := s.lk = false ∧ s.value = 0 ∧ (∀ c, s.sleeping c = false) ∧
    ∀ a, s.thread a = ⟨.loop, 0, 0, 0⟩
  step := step ITER

/-- A consumer is asleep while `value` is positive and every producer has finished. -/
def Stuck (s : State N M) : Prop :=
  (∃ c, s.sleeping c = true) ∧ 0 < s.value ∧ ∀ j, (s.thread (.inr j)).pc = .done

/-! ### The invariant -/

namespace Pc

def Holds : Pc → Prop
  | cond | snooze | load | store | clear | release => True
  | _ => False

/-- The process has changed `value` in this iteration. -/
def past : Pc → Bool
  | clear | release | wstart | wloop | wclear | wnext | next => true
  | _ => false

end Pc

/-- How often the process has changed `value`. -/
def Thread.changes (t : Thread) : ℤ := t.i.toNat + if t.pc.past then 1 else 0

structure Thread.Bounded (ITER : Nat) (t : Thread) : Prop where
  le : t.i.toNat ≤ ITER
  lt : t.pc ≠ .loop → t.pc ≠ .done → t.i.toNat < ITER
  done : t.pc = .done → t.i.toNat = ITER

/-- The producer has not cleared `sleeping[c]` yet in the `wakeup` of this iteration. -/
def Thread.Sweeping (t : Thread) (c : Nat) : Prop :=
  match t.pc with
  | .clear | .release | .wstart => True
  | .wloop | .wclear => t.w.toNat ≤ c
  | .wnext => t.w.toNat < c
  | _ => False

/-- The producer will still clear `sleeping[c]`. -/
def Thread.WillWake (ITER : Nat) (t : Thread) (c : Nat) : Prop :=
  t.changes < ITER ∨ t.Sweeping c

/-- The increments made so far, and the decrements. -/
def made (thread : Fin N ⊕ Fin M → Thread) : ℤ := tally Thread.changes fun j => thread (.inr j)

def taken (thread : Fin N ⊕ Fin M → Thread) : ℤ := tally Thread.changes fun c => thread (.inl c)

/-- The decrements made when `c` fell asleep match the increments made by now, but for the wraps of
`value`. -/
def Spent (thread : Fin N ⊕ Fin M → Thread) (c : Fin N) : Prop :=
  ∃ d, (thread (.inl c)).changes ≤ d ∧ d ≤ taken thread ∧ (made thread - d) % 256 = 0

structure Inv (ITER : Nat) (s : State N M) : Prop where
  owner : ∃ o : Option (Fin N ⊕ Fin M), s.lk = o.isSome ∧ Owner o fun a => (s.thread a).pc.Holds
  bounded : ∀ a, (s.thread a).Bounded ITER
  loaded : ∀ a, (s.thread a).pc = .store → (s.thread a).x = s.value
  value : (s.value.toNat : ℤ) = (made s.thread - taken s.thread) % 256
  tested : ∀ a, (s.thread a).pc = .snooze → s.value = 0
  waker : ∀ c, s.sleeping c = true → (s.thread (.inl c)).pc = .asleep ∧
    ((∃ j, (s.thread (.inr j)).WillWake ITER c) ∨ Spent s.thread c)

variable {ITER : Nat} {s s' : State N M} {a : Fin N ⊕ Fin M}

/-- The lock's owner, after a step that moves one process. -/
abbrev OwnerAfter (s : State N M) (a : Fin N ⊕ Fin M) (t : Thread) (lk : Bool) : Prop :=
  ∃ o : Option (Fin N ⊕ Fin M), lk = o.isSome ∧
    Owner o fun b => (update s.thread a t b).pc.Holds

variable {t : Thread}

theorem Inv.take (h : Inv ITER s) (hlk : s.lk = false) (ht : t.pc.Holds) :
    OwnerAfter s a t true := by
  obtain ⟨o, ho, how⟩ := h.owner
  rw [hlk] at ho
  obtain rfl : o = none := by
    cases o with
    | none => rfl
    | some => cases ho
  exact ⟨some a, rfl, how.take (G := fun t : Thread => t.pc.Holds) ht⟩

theorem Inv.drop (h : Inv ITER s) (hold : (s.thread a).pc.Holds) (ht : ¬ t.pc.Holds) :
    OwnerAfter s a t false := by
  obtain ⟨o, -, how⟩ := h.owner
  exact ⟨none, rfl, how.drop (G := fun t : Thread => t.pc.Holds) hold ht⟩

theorem Inv.stay (h : Inv ITER s) (ht : t.pc.Holds ↔ (s.thread a).pc.Holds) :
    OwnerAfter s a t s.lk := by
  obtain ⟨o, ho, how⟩ := h.owner
  exact ⟨o, ho, how.stay (G := fun t : Thread => t.pc.Holds) ht⟩

theorem Thread.Bounded.changes_le (h : t.Bounded ITER) : t.changes ≤ ITER := by
  unfold Thread.changes
  split
  next hp =>
    have := h.lt (by rintro he; rw [he] at hp; cases hp) (by rintro he; rw [he] at hp; cases hp)
    omega
  · have := h.le
    omega

theorem Thread.Bounded.goto {t' : Thread} (h : t.Bounded ITER) (h1 : t.pc ≠ .loop)
    (h2 : t.pc ≠ .done) (h3 : t'.pc ≠ .done) (hi : t'.i = t.i) : t'.Bounded ITER := by
  have hlt := h.lt h1 h2
  refine ⟨?_, fun _ _ => ?_, fun hd => absurd hd h3⟩
  · rw [hi]
    exact h.le
  · rw [hi]
    exact hlt

theorem Thread.changes_nonneg (t : Thread) : 0 ≤ t.changes := by
  unfold Thread.changes
  split <;> omega

theorem Thread.changes_congr {u : Thread} (hi : u.i = t.i) (hp : u.pc.past = t.pc.past) :
    u.changes = t.changes := by
  simp only [Thread.changes, hi, hp]

theorem Inv.unique (h : Inv ITER s) {b : Fin N ⊕ Fin M} (ha : (s.thread a).pc.Holds)
    (hb : (s.thread b).pc.Holds) : b = a := by
  obtain ⟨o, -, how⟩ := h.owner
  exact how.unique ha hb

variable (f : Fin N ⊕ Fin M → Thread)
include f

theorem made_update_inl (c : Fin N) (t : Thread) : made (update f (.inl c) t) = made f :=
  tally_congr fun j => by simp

theorem made_update_inr (j : Fin M) (t : Thread) :
    made (update f (.inr j) t) = made f - (f (.inr j)).changes + t.changes := by
  have hf : (fun k => update f (.inr j) t (.inr k)) =
      update (fun k => f (.inr k)) j t :=
    update_comp_eq_of_injective f Sum.inr_injective j t
  rw [made, hf, tally_update]
  rfl

theorem taken_update_inr (j : Fin M) (t : Thread) : taken (update f (.inr j) t) = taken f :=
  tally_congr fun c => by simp

theorem taken_update_inl (c : Fin N) (t : Thread) :
    taken (update f (.inl c) t) = taken f - (f (.inl c)).changes + t.changes := by
  have hf : (fun k => update f (.inl c) t (.inl k)) =
      update (fun k => f (.inl k)) c t :=
    update_comp_eq_of_injective f Sum.inl_injective c t
  rw [taken, hf, tally_update]
  rfl

omit f

variable {c d : Fin N} {j : Fin M} {f : Fin N ⊕ Fin M → Thread}

theorem Spent.consumer (h : Spent f c) (hd : d ≠ c) (hle : (f (.inl d)).changes ≤ t.changes) :
    Spent (update f (.inl d) t) c := by
  obtain ⟨n, hlo, hhi, hmod⟩ := h
  refine ⟨n, ?_, ?_, ?_⟩
  · rwa [update_of_ne (by simpa using Ne.symm hd)]
  · rw [taken_update_inl]
    omega
  · rwa [made_update_inl]

theorem Spent.producer (h : Spent f c) (hmod : (t.changes - (f (.inr j)).changes) % 256 = 0) :
    Spent (update f (.inr j) t) c := by
  obtain ⟨n, hlo, hhi, hmod'⟩ := h
  refine ⟨n, ?_, ?_, ?_⟩
  · rwa [update_of_ne (by simp)]
  · rwa [taken_update_inr]
  · rw [made_update_inr]
    omega

/-- The same count, unless the loop counter has wrapped. -/
def Recounts (N : Nat) (old new : ℤ) : Prop := new = old ∨ N ≤ 1 ∧ new = old - 256

theorem Inv.waker_update (h : Inv ITER s) (hc : s.sleeping c = true) (hna : a ≠ .inl c)
    (hch : Recounts N (s.thread a).changes t.changes)
    (hw : ∀ j, a = .inr j → (s.thread a).WillWake ITER c → t.WillWake ITER c) :
    (update s.thread a t (.inl c)).pc = .asleep ∧
      ((∃ j, (update s.thread a t (.inr j)).WillWake ITER c) ∨ Spent (update s.thread a t) c) := by
  obtain ⟨hpc, hwake⟩ := h.waker c hc
  refine ⟨by rwa [update_of_ne hna.symm], ?_⟩
  rcases hwake with ⟨j, hj⟩ | hspent
  · refine .inl ⟨j, ?_⟩
    rcases eq_or_ne (Sum.inr j) a with rfl | hne
    · rw [update_self]
      exact hw j rfl hj
    · rwa [update_of_ne hne]
  · refine .inr ?_
    cases a with
    | inl d =>
      have hdc : d ≠ c := fun heq => hna (by rw [heq])
      -- two consumers: no counter wraps
      have hN : ¬ N ≤ 1 := fun hN => hdc (Fin.ext (by omega))
      exact hspent.consumer hdc (hch.resolve_right fun hwrap => hN hwrap.1).ge
    | inr j =>
      refine hspent.producer ?_
      rcases hch with heq | ⟨-, heq⟩ <;> omega

theorem Inv.moved (h : Inv ITER s) {sleeping : Fin N → Bool} (ho : OwnerAfter s a t lk)
    (hb : t.Bounded ITER) (hl : t.pc = .store → t.x = s.value)
    (hc : Recounts N (s.thread a).changes t.changes) (ht : t.pc = .snooze → s.value = 0)
    (hw : ∀ c, sleeping c = true → (update s.thread a t (.inl c)).pc = .asleep ∧
      ((∃ j, (update s.thread a t (.inr j)).WillWake ITER c) ∨ Spent (update s.thread a t) c)) :
    Inv ITER ({ s with lk := lk, sleeping := sleeping }.put a t) := by
  refine ⟨ho, fun b => ?_, fun b => ?_, ?_, fun b => ?_, hw⟩
  · rcases eq_or_ne b a with rfl | hne
    · simpa [State.put] using hb
    · simpa [State.put, hne] using h.bounded b
  · rcases eq_or_ne b a with rfl | hne
    · simpa [State.put] using hl
    · simpa [State.put, hne] using h.loaded b
  · change (s.value.toNat : ℤ) = (made (update s.thread a t) - taken (update s.thread a t)) % 256
    have hv := h.value
    have hmod : (t.changes - (s.thread a).changes) % 256 = 0 := by
      rcases hc with heq | ⟨-, heq⟩ <;> omega
    cases a with
    | inl =>
      rw [made_update_inl, taken_update_inl]
      omega
    | inr =>
      rw [made_update_inr, taken_update_inr]
      omega
  · rcases eq_or_ne b a with rfl | hne
    · simpa [State.put] using ht
    · simpa [State.put, hne] using h.tested b

/-- Not one of those that sleep. -/
def Up (s : State N M) (a : Fin N ⊕ Fin M) : Prop := ∀ c, s.sleeping c = true → a ≠ .inl c

theorem Inv.move (h : Inv ITER s) (hna : Up s a)
    (ho : OwnerAfter s a t lk) (hb : t.Bounded ITER) (hl : t.pc = .store → t.x = s.value)
    (hc : Recounts N (s.thread a).changes t.changes) (ht : t.pc = .snooze → s.value = 0)
    (hw : ∀ j, a = .inr j → ∀ c, c < N → (s.thread a).WillWake ITER c → t.WillWake ITER c) :
    Inv ITER ({ s with lk := lk }.put a t) :=
  h.moved ho hb hl hc ht fun c hsl => h.waker_update hsl (hna c hsl) hc fun j hj => hw j hj c c.2

theorem Inv.store (h : Inv ITER s) (hna : Up s a)
    (hpc : (s.thread a).pc = .store) :
    Inv ITER ({ s with value := newValue (s.thread a).x a }.put a
      { s.thread a with pc := .clear }) := by
  have hx := h.loaded a hpc
  have hown : (s.thread a).pc.Holds := by
    rw [hpc]
    trivial
  -- the others do not hold the lock, so none of them is about to store or to fall asleep
  have hothers : ∀ b, b ≠ a → ¬ (s.thread b).pc.Holds := fun b hne hb => hne (h.unique hown hb)
  have hch : Thread.changes { s.thread a with pc := .clear } = (s.thread a).changes + 1 := by
    simp [Thread.changes, hpc, Pc.past]
  refine ⟨h.stay (iff_of_true trivial hown), fun b => ?_, fun b hb => ?_, ?_, fun b hb => ?_,
    fun c hsl => ?_⟩
  · rcases eq_or_ne b a with rfl | hne
    · have hbd := h.bounded b
      have hlt := hbd.lt (by rw [hpc]; decide) (by rw [hpc]; decide)
      simp only [State.put, update_self]
      exact ⟨hbd.le, fun _ _ => hlt, nofun⟩
    · simpa [State.put, hne] using h.bounded b
  · rcases eq_or_ne b a with rfl | hne
    · simp [State.put] at hb
    · simp only [State.put, update_of_ne hne] at hb
      exact absurd (by rw [hb]; trivial) (hothers b hne)
  · have hv := h.value
    cases a with
    | inl c =>
      have hsub : ((s.thread (.inl c)).x - 1).toNat = (255 + s.value.toNat) % 256 := by
        rw [hx]
        rfl
      simp only [State.put, made_update_inl, taken_update_inl, hch, newValue]
      omega
    | inr j =>
      have hadd : ((s.thread (.inr j)).x + 1).toNat = (s.value.toNat + 1) % 256 := by
        rw [hx]
        rfl
      simp only [State.put, made_update_inr, taken_update_inr, hch, newValue]
      omega
  · rcases eq_or_ne b a with rfl | hne
    · simp [State.put] at hb
    · simp only [State.put, update_of_ne hne] at hb
      exact absurd (by rw [hb]; trivial) (hothers b hne)
  · obtain ⟨hasleep, hwake⟩ := h.waker c hsl
    refine ⟨by simpa [State.put, (hna c hsl).symm] using hasleep, ?_⟩
    cases a with
    | inl d =>
      refine hwake.imp (fun ⟨j, hj⟩ => ⟨j, by simpa [State.put] using hj⟩) fun hspent => ?_
      exact hspent.consumer (fun heq => hna c hsl (by rw [heq])) (by omega)
    | inr j => exact .inl ⟨j, .inr (by simp [State.put, Thread.Sweeping])⟩

/-- **A consumer falls asleep** at `value` = 0, when the decrements match the increments. -/
theorem Inv.snooze (h : Inv ITER s) (hpc : (s.thread (.inl c)).pc = .snooze) :
    Inv ITER ({ s with lk := false, sleeping := update s.sleeping c true }.put (.inl c)
      { s.thread (.inl c) with pc := .asleep }) := by
  have hch : Thread.changes { s.thread (.inl c) with pc := .asleep } =
      (s.thread (.inl c)).changes := by
    simp [Thread.changes, hpc, Pc.past]
  refine h.moved (h.drop (by rw [hpc]; trivial) (fun hd => hd)) ?_ nofun (.inl hch)
    nofun (fun d hd => ?_)
  · exact (h.bounded (.inl c)).goto (by rw [hpc]; decide) (by rw [hpc]; decide)
      nofun rfl
  rcases eq_or_ne d c with rfl | hne
  · have hv := h.value
    rw [h.tested _ hpc, UInt8.toNat_zero] at hv
    refine ⟨by rw [update_self], .inr ⟨taken s.thread, ?_, ?_, ?_⟩⟩
    · rw [update_self, hch]
      exact le_tally (fun k => (s.thread (.inl k)).changes_nonneg) d
    · rw [taken_update_inl]
      omega
    · rw [made_update_inl]
      omega
  · rw [update_of_ne hne] at hd
    exact h.waker_update hd (by simpa using hne.symm) (.inl hch) nofun

theorem Inv.wclear (h : Inv ITER s) (hna : Up s a)
    (hpc : (s.thread a).pc = .wclear) (hN : (s.thread a).w.toNat < N) :
    Inv ITER ({ s with
      sleeping := update s.sleeping ⟨(s.thread a).w.toNat, hN⟩ false }.put a
        { s.thread a with pc := .wnext }) := by
  have hch : Thread.changes { s.thread a with pc := .wnext } = (s.thread a).changes := by
    simp [Thread.changes, hpc, Pc.past]
  refine h.moved (h.stay ?_) ?_ nofun (.inl hch) nofun
    (fun d hd => ?_)
  · simp [hpc, Pc.Holds]
  · exact (h.bounded a).goto (by rw [hpc]; decide) (by rw [hpc]; decide) nofun
      rfl
  have hne : d ≠ ⟨(s.thread a).w.toNat, hN⟩ := by
    rintro rfl
    rw [update_self] at hd
    cases hd
  rw [update_of_ne hne] at hd
  refine h.waker_update hd (hna d hd) (.inl hch) fun j _ hw => ?_
  rcases hw with hw | hw
  · exact .inl (hch.trans_lt hw)
  · simp only [Thread.Sweeping, hpc] at hw
    exact .inr (lt_of_le_of_ne hw fun he => hne (Fin.ext he.symm))

theorem value_eq_zero {v : UInt8} (h : ¬ 0 < v) : v = 0 := by
  have : v ≤ 0 := UInt8.not_lt.mp h
  exact UInt8.le_antisymm this (UInt8.zero_le)

/-- A step from `x` to `y` within an iteration, on one side of the change of `value`. -/
def Pc.Walks (x y : Pc) : Prop := x ≠ .loop ∧ x ≠ .done ∧ y ≠ .done ∧ y.past = x.past

instance (x y : Pc) : Decidable (x.Walks y) := inferInstanceAs (Decidable (_ ∧ _))

theorem not_sweeping {u : Thread} {c : Nat} (hp : t.pc.past = false) (hsweep : t.Sweeping c) :
    u.Sweeping c := by
  unfold Thread.Sweeping at hsweep
  cases hpc : t.pc <;> simp [hpc, Pc.past] at hp hsweep

section

variable (h : Inv ITER s) (hna : Up s a) {x : Pc} (y : Pc) (hx : (s.thread a).pc = x)
  (hy : t.pc = y)
include h hna hx hy

theorem Inv.walk (hwalks : x.Walks y) (ho : OwnerAfter s a t lk) (hi : t.i = (s.thread a).i)
    (hl : y = .store → t.x = s.value) (ht : y = .snooze → s.value = 0)
    (hw : ∀ j, a = .inr j → ∀ c, c < N → (s.thread a).Sweeping c → t.Sweeping c) :
    Inv ITER ({ s with lk := lk }.put a t) := by
  subst hx hy
  obtain ⟨h1, h2, h3, hp⟩ := hwalks
  refine h.move hna ho ((h.bounded a).goto h1 h2 h3 hi) hl (.inl (Thread.changes_congr hi hp)) ht ?_
  rintro j hj c hc (hlt | hsweep)
  · exact .inl (by rwa [Thread.changes_congr hi hp])
  · exact .inr (hw j hj c hc hsweep)

theorem Inv.after (hxy : x.Walks y ∧ y ≠ .store ∧ y ≠ .snooze) (ho : OwnerAfter s a t lk)
    (hi : t.i = (s.thread a).i)
    (hw : ∀ j, a = .inr j → ∀ c, c < N → (s.thread a).Sweeping c → t.Sweeping c) :
    Inv ITER ({ s with lk := lk }.put a t) :=
  h.walk hna y hx hy hxy.1 ho hi (fun hd => absurd hd hxy.2.1) (fun hd => absurd hd hxy.2.2) hw

theorem Inv.before (hxy : x.Walks y ∧ x.past = false ∧ y ≠ .store ∧ y ≠ .snooze)
    (ho : OwnerAfter s a t lk) (hi : t.i = (s.thread a).i) :
    Inv ITER ({ s with lk := lk }.put a t) := by
  obtain ⟨hwalks, hpast, hstop⟩ := hxy
  exact h.after hna y hx hy ⟨hwalks, hstop⟩ ho hi fun _ _ _ _ => not_sweeping (by rw [hx, hpast])

end

/-- One consumer, or too few decrements to be stuck. -/
def Few (N M ITER : Nat) : Prop := N ≤ 1 ∨ N * ITER ≤ M * ITER % 256 + 1

theorem Inv.step (h : Inv ITER s) (hfew : Few N M ITER) (hs : step ITER s a = some s') :
    Inv ITER s' := by
  have hbd := h.bounded a
  have hna : Up s a := by
    rintro c hc rfl
    simp [Sleep1.step, (h.waker c hc).1, hc] at hs
  simp only [Sleep1.step] at hs
  generalize hpc : (s.thread a).pc = x at hs
  have hstay : ∀ {t : Thread}, (t.pc.Holds ↔ x.Holds) → OwnerAfter s a t s.lk :=
    fun ht => h.stay (by rw [hpc]; exact ht)
  cases x with
  | loop =>
    cases hs
    have hwake : ∀ {t : Thread}, t.changes = (s.thread a).changes → ∀ j, a = .inr j → ∀ d,
        d < N → (s.thread a).WillWake ITER d → t.WillWake ITER d := by
      rintro t ht j hj d hd (hlt | hsweep)
      · exact .inl (ht.trans_lt hlt)
      · exact .inr (not_sweeping (by rw [hpc]; rfl) hsweep)
    split
    next hi =>
      have hch := Thread.changes_congr (t := s.thread a)
        (u := { s.thread a with pc := .acquire }) rfl (by rw [hpc]; rfl)
      exact h.move hna (hstay .rfl) ⟨hbd.le, fun _ _ => hi, nofun⟩ nofun (.inl hch) nofun (hwake hch)
    next hi =>
      have hch := Thread.changes_congr (t := s.thread a)
        (u := { s.thread a with pc := .done }) rfl (by rw [hpc]; rfl)
      exact h.move hna (hstay .rfl)
        ⟨hbd.le, fun _ hd => absurd rfl hd, fun _ => le_antisymm hbd.le (not_lt.mp hi)⟩
        nofun (.inl hch) nofun (hwake hch)
  | acquire =>
    obtain ⟨hlk, ⟨⟩⟩ := Option.ite_none_left_eq_some.mp hs
    cases a with
    | inl => exact h.before hna .cond hpc rfl (by decide) (h.take (by simpa using hlk) trivial) rfl
    | inr => exact h.before hna .load hpc rfl (by decide) (h.take (by simpa using hlk) trivial) rfl
  | cond =>
    cases a with
    | inr => cases hs
    | inl c =>
      obtain ⟨-, ⟨⟩⟩ := Option.ite_none_left_eq_some.mp hs
      split
      · exact h.before hna .load hpc rfl (by decide) (hstay .rfl) rfl
      next hv =>
        exact h.walk hna .snooze hpc rfl (by decide) (hstay .rfl) rfl nofun
          (fun _ => value_eq_zero hv) nofun
  | snooze =>
    cases a with
    | inr => cases hs
    | inl =>
      obtain ⟨-, ⟨⟩⟩ := Option.ite_none_right_eq_some.mp hs
      exact h.snooze hpc
  | asleep =>
    cases a with
    | inr => cases hs
    | inl =>
      obtain ⟨-, ⟨⟩⟩ := Option.ite_none_left_eq_some.mp hs
      exact h.before hna .reacquire hpc rfl (by decide) (hstay .rfl) rfl
  | reacquire =>
    obtain ⟨hlk, ⟨⟩⟩ := Option.ite_none_left_eq_some.mp hs
    exact h.before hna .load hpc rfl (by decide) (h.take (by simpa using hlk) trivial) rfl
  | load =>
    cases hs
    exact h.walk hna .store hpc rfl (by decide) (hstay .rfl) rfl (fun _ => rfl) nofun
      fun _ _ _ _ => not_sweeping (by rw [hpc]; rfl)
  | store =>
    cases hs
    exact h.store hna hpc
  | clear =>
    cases hs
    exact h.after hna .release hpc rfl (by decide) (hstay .rfl) rfl fun _ _ _ _ _ => trivial
  | release =>
    have hholds : (s.thread a).pc.Holds := by
      rw [hpc]
      trivial
    obtain ⟨-, ⟨⟩⟩ := Option.ite_none_right_eq_some.mp hs
    cases a with
    | inl => exact h.after hna .next hpc rfl (by decide) (h.drop hholds id) rfl nofun
    | inr =>
      exact h.after hna .wstart hpc rfl (by decide) (h.drop hholds id) rfl fun _ _ _ _ _ => trivial
  | wstart =>
    cases hs
    exact h.after hna .wloop hpc rfl (by decide) (hstay .rfl) rfl fun _ _ c _ _ => Nat.zero_le c
  | wloop =>
    cases hs
    split
    · refine h.after hna .wclear hpc rfl (by decide) (hstay .rfl) rfl fun _ _ c _ hw => ?_
      simp only [Thread.Sweeping, hpc] at hw
      exact hw
    next hN =>
      refine h.after hna .next hpc rfl (by decide) (hstay .rfl) rfl fun _ _ c hc hw => ?_
      simp only [Thread.Sweeping, hpc] at hw
      exact absurd (lt_of_le_of_lt hw hc) hN
  | wclear =>
    obtain ⟨hN, ⟨⟩⟩ := Option.dite_none_right_eq_some.mp hs
    exact h.wclear hna hpc hN
  | wnext =>
    cases hs
    have hi := hbd.lt (by rw [hpc]; decide) (by rw [hpc]; decide)
    have hN : N ≤ 256 := by
      rcases hfew with hN | hfew
      · omega
      · have := Nat.le_mul_of_pos_right N (Nat.zero_lt_of_lt hi)
        omega
    refine h.after hna .wloop hpc rfl (by decide) (hstay .rfl) rfl fun _ _ c hc hw => ?_
    simp only [Thread.Sweeping, hpc] at hw
    have hadd : ((s.thread a).w + 1).toNat = (s.thread a).w.toNat + 1 := by
      exact Nat.mod_eq_of_lt (by simp; omega)
    change ((s.thread a).w + 1).toNat ≤ c
    rw [hadd]
    exact hw
  | next =>
    cases hs
    have hi := hbd.lt (by rw [hpc]; decide) (by rw [hpc]; decide)
    have hadd : ((s.thread a).i + 1).toNat = ((s.thread a).i.toNat + 1) % 256 := rfl
    have hold : (s.thread a).changes = (s.thread a).i.toNat + 1 := by
      simp [Thread.changes, hpc, Pc.past]
    have hnew : Thread.changes { s.thread a with i := (s.thread a).i + 1, pc := .loop } =
        ((s.thread a).i + 1).toNat := by
      simp [Thread.changes, Pc.past]
    have hch : Recounts N (s.thread a).changes
        (Thread.changes { s.thread a with i := (s.thread a).i + 1, pc := .loop }) := by
      have hbyte := (s.thread a).i.toNat_lt
      rw [hold, hnew, hadd]
      rcases Nat.lt_or_ge ((s.thread a).i.toNat + 1) 256 with hlt | hge
      · exact .inl (by omega)
      · refine .inr ⟨hfew.elim id fun hfew => ?_, by omega⟩
        by_contra hN
        have := Nat.mul_le_mul (Nat.lt_of_not_ge hN) (hge.trans hi)
        omega
    refine h.move hna (hstay .rfl) ⟨?_, fun hd => absurd rfl hd, nofun⟩ nofun hch nofun ?_
    · rw [hadd]
      omega
    · rintro j _ c _ (hlt' | hsweep)
      · exact .inl (by rw [hnew, hadd]; omega)
      · simp only [Thread.Sweeping, hpc] at hsweep
  | done => cases hs

theorem inv_of_reached (hfew : Few N M ITER) (hr : (system N M ITER).Reached s) : Inv ITER s := by
  apply hr.invariant
  · rintro s ⟨hlk, hv, hsl, hth⟩
    have hch : ∀ a, (s.thread a).changes = 0 := fun a => by rw [hth]; rfl
    refine ⟨⟨none, hlk, fun a => ?_⟩, fun a => ?_, fun a ha => ?_, ?_, fun a ha => ?_,
      fun c hc => ?_⟩
    · simp [hth, Pc.Holds]
    · rw [hth]
      exact ⟨Nat.zero_le _, fun hd => absurd rfl hd, nofun⟩
    · rw [hth] at ha
      cases ha
    · rw [hv, made, taken, tally_eq_zero fun j => hch (.inr j), tally_eq_zero fun c => hch (.inl c)]
      rfl
    · exact hv
    · rw [hsl] at hc
      cases hc
  · intro s a s' h _ hs
    exact h.step hfew hs

/-- Whoever is asleep has a decrement to make. -/
theorem Inv.taken_lt (h : Inv ITER s) (hpc : (s.thread (.inl c)).pc = .asleep) :
    taken s.thread < (N * ITER : ℕ) := by
  have hc : (s.thread (.inl c)).changes < ITER := by
    have := (h.bounded (.inl c)).lt (by rw [hpc]; decide) (by rw [hpc]; decide)
    simpa [Thread.changes, hpc, Pc.past] using this
  have hsum := Finset.sum_lt_sum (s := Finset.univ) (fun k _ => (h.bounded (.inl k)).changes_le)
    ⟨c, Finset.mem_univ c, hc⟩
  simpa [taken, tally] using hsum

theorem not_stuck (hfew : Few N M ITER) (hr : (system N M ITER).Reached s) : ¬ Stuck s := by
  rintro ⟨⟨c, hc⟩, hpos, hdone⟩
  have h := inv_of_reached hfew hr
  have hfinished : ∀ j, (s.thread (.inr j)).changes = ITER := by
    intro j
    simp [Thread.changes, hdone, Pc.past, (h.bounded (.inr j)).done (hdone j)]
  have hv := h.value
  have hpos : 0 < s.value.toNat := hpos
  obtain ⟨hpc, ⟨j, hj⟩ | ⟨d, hlo, hhi, hmod⟩⟩ := h.waker c hc
  · rcases hj with hch | hsweep
    · exact absurd (hfinished j) hch.ne
    · simp [Thread.Sweeping, hdone] at hsweep
  rcases hfew with hN | hfew
  · -- nobody else can have taken an item
    have hone : taken s.thread = (s.thread (.inl c)).changes :=
      Fintype.sum_eq_single c fun k hk => absurd (Fin.ext (by omega)) hk
    omega
  · have hmade : made s.thread = (M * ITER : ℕ) := by simp [made, tally, hfinished]
    have htaken := h.taken_lt hpc
    have hnonneg := (s.thread (.inl c)).changes_nonneg
    rw [hmade] at hv hmod
    omega

/-- **`sleep` and `wakeup` lose no wakeup.** Whoever is asleep after a test under a lock is
not so in spite of a later `wakeup` of its channel by a process that had the lock after the
test; and the model of `sleep1.p`, with one consumer or with at most one decrement more than
`M * ITER % 256`, is never stuck. -/
theorem no_wakeup_lost {P L Ch : Type} [DecidableEq P] [DecidableEq L] [DecidableEq Ch]
    {x : SleepWakeup.State P L Ch} (hx : (SleepWakeup.system P L Ch).Reached x)
    (hfew : Few N M ITER) (hr : (system N M ITER).Reached s) :
    (∀ p f l t, x.pc p = .asleep f → f.lk = some l → f.tested = some t →
      ∀ e ∈ x.wakes, e.chan = f.chan → e.who ≠ p → ¬ t ≤ e.held l) ∧ ¬ Stuck s := by
  constructor
  · intro p f l t hp hl ht e he hchan hwho
    exact not_le.mpr (SleepWakeup.asleep_after_wakes hx hp hl ht e he hchan hwho)
  · exact not_stuck hfew hr

/-! ### Where the model gets stuck -/

def boot (N M : Nat) : State N M := ⟨false, 0, fun _ => false, fun _ => ⟨.loop, 0, 0, 0⟩⟩

theorem boot_reached (N M ITER : Nat) : (system N M ITER).Reached (boot N M) :=
  .init ⟨rfl, rfl, fun _ => rfl, fun _ => rfl⟩

/-- Two consumers, two iterations each: one that is woken takes `value` below 0. -/
def oneProducer : List (Fin 2 ⊕ Fin 1) :=
  List.replicate 15 (.inr 0) ++ List.replicate 12 (.inl 1) ++ List.replicate 16 (.inr 0) ++
    List.replicate 12 (.inl 0) ++ List.replicate 4 (.inl 1)

/-- Two of each, 128 iterations: consumer 1 falls asleep, and the producers make 256 items, so that
`value` is 0 again. Consumer 0 falls asleep on it, and consumer 1 goes on. -/
def twoProducers : List (Fin 2 ⊕ Fin 2) :=
  List.replicate 4 (.inl 1) ++ List.replicate 1921 (.inr 0) ++ List.replicate 1921 (.inr 1) ++
    List.replicate 4 (.inl 0) ++ List.replicate 4 (.inl 1)

/-- **The model gets stuck** with more consumers than producers, and, with as many of each,
once there are 256 increments. -/
theorem sleep1_gets_stuck :
    (∃ s, (system 2 1 2).Reached s ∧ Stuck s) ∧ ∃ s, (system 2 2 128).Reached s ∧ Stuck s := by
  constructor
  · obtain ⟨s, hs, h0, hv, hd⟩ := (boot_reached 2 1 2).run_decide oneProducer
      (P := fun s => s.sleeping 0 = true ∧ 0 < s.value ∧ ∀ j, (s.thread (.inr j)).pc = .done)
      (by decide +kernel)
    exact ⟨s, hs, ⟨0, h0⟩, hv, hd⟩
  · obtain ⟨s, hs, h0, hv, hd⟩ := (boot_reached 2 2 128).run_decide twoProducers
      (P := fun s => s.sleeping 0 = true ∧ 0 < s.value ∧ ∀ j, (s.thread (.inr j)).pc = .done)
      (by decide +kernel)
    exact ⟨s, hs, ⟨0, h0⟩, hv, hd⟩

def wakeThenSleep : List (SleepWakeup.Label (Fin 2) Unit Unit) :=
  [.acquire 1 (.spin ()), .wakeup 1 (), .go 1, .go 1, .go 1, .release 1 (.spin ()),
    .acquire 0 (.spin ()), .test 0 (.spin ()), .sleep 0 () (some (.spin ())), .go 0, .go 0, .go 0]

/-- The wakeup on record comes before the test; and in the four-iteration model of `sleep1.p` a
consumer is asleep and `value` is 1, with the producer still to wake it. -/
theorem no_wakeup_lost_sleeper :
    ∃ (x : SleepWakeup.State (Fin 2) Unit Unit) (s : State 2 2),
      (SleepWakeup.system (Fin 2) Unit Unit).Reached x ∧
      x.pc 0 = .asleep ⟨(), some (.spin ()), some 8, none⟩ ∧ x.wakes.length = 1 ∧
      (∀ e ∈ x.wakes, e.who ≠ 0 → ¬ 8 ≤ e.held (.spin ())) ∧
      (system 2 2 4).Reached s ∧ s.sleeping 0 = true ∧ s.value = 1 ∧ ¬ Stuck s := by
  have hinit : (SleepWakeup.system (Fin 2) Unit Unit).Reached SleepWakeup.boot :=
    .init SleepWakeup.boot_init
  obtain ⟨x, hx, hpc, hwakes⟩ := hinit.run_decide wakeThenSleep
    (P := fun x => x.pc 0 = .asleep ⟨(), some (.spin ()), some 8, none⟩ ∧ x.wakes.length = 1)
    (by decide)
  obtain ⟨s, hs, hsl, hv⟩ := (boot_reached 2 2 4).run_decide
    (List.replicate 4 (.inl 0) ++ List.replicate 6 (.inr 0))
    (P := fun s => s.sleeping 0 = true ∧ s.value = 1) (by decide +kernel)
  obtain ⟨hwake, hstuck⟩ := no_wakeup_lost hx (.inr (by decide)) hs
  exact ⟨x, s, hx, hpc, hwakes, fun e he hwho => hwake 0 _ _ _ hpc rfl rfl e he rfl hwho, hs, hsl,
    hv, hstuck⟩

end Xv6.Sleep1
