import Xv6.SleepWakeup

/-!
**No wakeup overtakes a test.**

`Turn` says once what a step of a process can do: to the locks, to the other processes and
to the record of wakeups. From it the invariant `Ordered` is kept by every step
(`Ordered.turn`): a process that goes to sleep after a test has kept its lock since, and
then `ptable.lock`, so a `wakeup` by anybody who had the lock after the test comes after
the process is marked asleep, and wakes it.
-/

namespace Xv6.SleepWakeup

open Function Option

variable {P L Ch : Type}

/-! ### What a step can do -/

namespace Pc

/-- The process holds `ptable.lock` for the function it is in. -/
def HasPtable : Pc P L Ch → Prop
  | waking _ _ | woke _ _ | killing _ | didkill _ | dropping _ | marking _ | back _ => True
  | _ => False

/-- The process is in a loop, past its test of `killed` and not yet asleep for good. -/
def Exposed : Pc P L Ch → Prop
  | passed _ => True
  | wakeup _ site | waking _ site | woke _ site => site.isSome
  | sleep f | dropping f | marking f | asleep f => f.site.isSome
  | _ => False

end Pc

/-- What is known of a process in `sleep` or at the end of a `wakeup`: nobody else has had the
lock since the test, no `wakeup` by anybody who had is on record, and nobody is asleep on the
channel just woken. -/
def Fine (s : State P L Ch) (p : P) : Pc P L Ch → Prop
  | .passed site => Has s p site.lk
  | .sleep f | .dropping f => f.lk ≠ some .ptable ∧ Has s p f.lk ∧
      ∀ l t, f.lk = some l → f.tested = some t → ∀ q, q ≠ p → s.held q l < t
  | .marking f | .asleep f => ∀ l t, f.lk = some l → f.tested = some t →
      ∀ e ∈ s.wakes, e.chan = f.chan → e.who ≠ p → e.held l < t
  | .wakeup _ site | .waking _ site => ∀ x, site = some x → x.lk ≠ some .ptable ∧ Has s p x.lk
  | .woke c site => (∀ x, site = some x → x.lk ≠ some .ptable ∧ Has s p x.lk) ∧
      ∀ q f, s.pc q = .asleep f → f.chan ≠ c
  | _ => True

/-- The effect of a step of `p` on the locks. -/
structure Locks (s s' : State P L Ch) (p : P) : Prop where
  now : s'.now = s.now
  held : s'.held = s.held
  owner : ∀ l, s'.owner l = s.owner l ∨ (s.owner l = none ∧ s'.owner l = some p) ∨
    (s.owner l = some p ∧ s'.owner l = none)
  tested : ∀ q l t, s'.tested q l = some t →
    (s.tested q l = some t ∨ q = p ∧ t = s.now + 1 ∧ s.owner l = some p) ∧
    (q = p → s.owner l = some p → s'.owner l = some p)

/-- The effect of a step of `p`. -/
structure Turn (s s' : State P L Ch) (p : P) : Prop extends Locks s s' p where
  others : ∀ q, q ≠ p → s'.pc q = s.pc q ∨ ∃ f, s.pc q = .asleep f ∧ s'.pc q = .runnable f
  wakes : s'.wakes = s.wakes ∨ ∃ c, s.owner .ptable = some p ∧
    s'.wakes = s.wakes ++ [⟨c, p, s.held p⟩] ∧ ∀ q f, s'.pc q = .asleep f → f.chan ≠ c
  hasPtable : (s'.pc p).HasPtable → s'.owner .ptable = some p
  asleep : ∀ f, s'.pc p = .asleep f → s.pc p = .marking f
  fine : Fine s' p (s'.pc p)
  killed : ∀ q, s'.killed q = true →
    s.killed q = true ∨ s.pc p = .killing q ∧ ∀ f, s'.pc q ≠ .asleep f
  exposed : (s'.pc p).Exposed → (s.pc p).Exposed ∨ s.pc p = .run ∧ s.killed p = false

structure Ordered (s : State P L Ch) : Prop where
  held : ∀ p l, s.held p l ≤ s.now
  tested : ∀ p l t, s.tested p l = some t → s.owner l = some p ∧ ∀ q, q ≠ p → s.held q l < t
  wakes : ∀ e ∈ s.wakes, ∀ l, e.held l ≤ s.held e.who l
  hasPtable : ∀ p, (s.pc p).HasPtable → s.owner .ptable = some p
  fine : ∀ p, Fine s p (s.pc p)

section

variable {s s' : State P L Ch} {p q : P}

theorem Locks.owner_other (h : Locks s s' p) {l : Lock L} (hne : q ≠ p) :
    s'.owner l = some q ↔ s.owner l = some q := by
  rcases h.owner l with he | ⟨h0, h1⟩ | ⟨h0, h1⟩
  · rw [he]
  · rw [h0, h1]
    simp [Ne.symm hne]
  · rw [h0, h1]
    simp [Ne.symm hne]

theorem Locks.has_other (h : Locks s s' p) {lk : Option (Lock L)} (hne : q ≠ p) (hq : Has s q lk) :
    Has s' q lk :=
  fun l hl => (h.owner_other hne).mpr (hq l hl)

theorem Turn.fine_other (h : Ordered s) (t : Turn s s' p) (hne : q ≠ p) : Fine s' q (s'.pc q) := by
  have hq := h.fine q
  rcases t.others q hne with he | ⟨f, -, he⟩
  · rw [he]
    cases hc : s.pc q with
    | passed =>
      rw [hc] at hq
      exact t.has_other hne hq
    | sleep | dropping =>
      rw [hc] at hq
      refine ⟨hq.1, t.has_other hne hq.2.1, fun l m hl hm r hr => ?_⟩
      rw [t.held]
      exact hq.2.2 l m hl hm r hr
    | marking =>
      rw [hc] at hq
      -- a new record needs `ptable.lock`, which `q` has
      rcases t.wakes with hw | ⟨c, hp, -⟩
      · intro l m hl hm e hmem
        rw [hw] at hmem
        exact hq l m hl hm e hmem
      · have hown := h.hasPtable q (by rw [hc]; trivial)
        rw [hp] at hown
        exact absurd (Option.some.inj hown).symm hne
    | asleep f =>
      rw [hc] at hq
      intro l m hl hm e hmem hchan hwho
      rcases t.wakes with hw | ⟨c, -, hw, hnone⟩
      · rw [hw] at hmem
        exact hq l m hl hm e hmem hchan hwho
      rw [hw, List.mem_append, List.mem_singleton] at hmem
      rcases hmem with hmem | rfl
      · exact hq l m hl hm e hmem hchan hwho
      · exact absurd hchan.symm (hnone q f (he.trans hc))
    | woke =>
      rw [hc] at hq
      refine ⟨fun x hx => ⟨(hq.1 x hx).1, t.has_other hne (hq.1 x hx).2⟩, fun r f hr => ?_⟩
      rcases eq_or_ne r p with rfl | hrp
      · -- whoever falls asleep had `ptable.lock`
        have h1 := h.hasPtable r (by rw [t.asleep f hr]; trivial)
        have h2 := h.hasPtable q (by rw [hc]; trivial)
        rw [h1] at h2
        exact absurd (Option.some.inj h2).symm hne
      · rcases t.others r hrp with hsame | ⟨g, -, hrun⟩
        · exact hq.2 r f (hsame ▸ hr)
        · rw [hrun] at hr
          cases hr
    | wakeup | waking =>
      rw [hc] at hq
      exact fun x hx => ⟨(hq x hx).1, t.has_other hne (hq x hx).2⟩
    | _ => trivial
  · rw [he]
    trivial

variable [DecidableEq P]

theorem tick_held (s : State P L Ch) {l : Lock L} (h : s.owner l ≠ some q) :
    s.tick.held q l = s.held q l := if_neg h

theorem le_tick_held (h : ∀ p l, s.held p l ≤ s.now) (q : P) (l : Lock L) :
    s.held q l ≤ s.tick.held q l := by
  simp only [State.tick]
  split
  · exact Nat.le_succ_of_le (h q l)
  · exact Nat.le_refl _

theorem Fine.tick {c : Pc P L Ch} (h : Fine s q c) : Fine s.tick q c := by
  cases c with
  | sleep | dropping =>
    refine ⟨h.1, h.2.1, fun l t hl ht r hne => ?_⟩
    have hr : s.owner l ≠ some r := by
      rw [h.2.1 l hl]
      intro he
      exact hne (Option.some.inj he).symm
    rw [tick_held s hr]
    exact h.2.2 l t hl ht r hne
  | _ => exact h

theorem Ordered.turn (h : Ordered s) (t : Turn s s' p) : Ordered s'.tick := by
  have hle : ∀ q l, s'.held q l ≤ s'.now := by
    intro q l
    rw [t.held, t.now]
    exact h.held q l
  refine ⟨?_, ?_, ?_, ?_, ?_⟩
  · intro q l
    simp only [State.tick]
    split
    · exact Nat.le_refl _
    · exact Nat.le_succ_of_le (hle q l)
  · intro q l m hm
    obtain ⟨hold, hkeep⟩ := t.tested q l m hm
    have hown : s'.owner l = some q := by
      rcases hold with hold | ⟨rfl, -, hp⟩
      · rcases eq_or_ne q p with rfl | hne
        · exact hkeep rfl (h.tested q l m hold).1
        · exact (t.owner_other hne).mpr (h.tested q l m hold).1
      · exact hkeep rfl hp
    refine ⟨hown, fun r hne => ?_⟩
    have hr : s'.owner l ≠ some r := by
      rw [hown]
      intro he
      exact hne (Option.some.inj he).symm
    rw [tick_held s' hr, t.held]
    rcases hold with hold | ⟨-, rfl, -⟩
    · exact (h.tested q l m hold).2 r hne
    · exact Nat.lt_succ_of_le (h.held r l)
  · intro e he l
    refine Nat.le_trans ?_ (le_tick_held hle e.who l)
    rw [t.held]
    rcases t.wakes with hw | ⟨c, -, hw, -⟩
    · change e ∈ s'.wakes at he
      rw [hw] at he
      exact h.wakes e he l
    change e ∈ s'.wakes at he
    rw [hw, List.mem_append, List.mem_singleton] at he
    rcases he with he | rfl
    · exact h.wakes e he l
    · exact Nat.le_refl _
  · intro q hq
    rcases eq_or_ne q p with rfl | hne
    · exact t.hasPtable hq
    rw [show s'.tick.owner .ptable = s'.owner .ptable from rfl, t.owner_other hne]
    apply h.hasPtable q
    rcases t.others q hne with he | ⟨f, -, he⟩
    · rw [← he]
      exact hq
    · change (s'.pc q).HasPtable at hq
      rw [he] at hq
      cases hq
  · intro q
    apply Fine.tick
    rcases eq_or_ne q p with rfl | hne
    · exact t.fine
    · exact t.fine_other h hne

end

/-! ### Every step is such a turn -/

section

variable {s s0 : State P L Ch} {p : P}

theorem Locks.same (h : s0.now = s.now ∧ s0.held = s.held ∧ s0.owner = s.owner ∧
    s0.tested = s.tested) : Locks s s0 p := by
  obtain ⟨h1, h2, h3, h4⟩ := h
  refine ⟨h1, h2, fun l => .inl (by rw [h3]), fun q l t ht => ⟨.inl (h4 ▸ ht), ?_⟩⟩
  intro _ hp
  rw [h3]
  exact hp

variable [DecidableEq P] [DecidableEq L]

omit [DecidableEq P] in
theorem take_owner (s : State P L Ch) (p : P) (l : Lock L) : (s.take p l).owner l = some p :=
  update_self _ _ _

omit [DecidableEq P] in
theorem Locks.take {l : Lock L} (h : s.owner l = none) : Locks s (s.take p l) p := by
  refine ⟨rfl, rfl, fun m => ?_, fun q m t ht => ⟨.inl ht, fun _ hp => ?_⟩⟩
  · rcases eq_or_ne m l with rfl | hne
    · exact .inr (.inl ⟨h, update_self _ _ _⟩)
    · exact .inl (update_of_ne hne _ _)
  have hne : m ≠ l := by
    rintro rfl
    rw [h] at hp
    cases hp
  simpa [State.take, hne] using hp

theorem Locks.drop {l : Lock L} (h : s.owner l = some p) : Locks s (s.drop p l) p := by
  refine ⟨rfl, rfl, fun m => ?_, fun q m t ht => ?_⟩
  · rcases eq_or_ne m l with rfl | hne
    · exact .inr (.inr ⟨h, update_self _ _ _⟩)
    · exact .inl (update_of_ne hne _ _)
  simp only [State.drop] at ht ⊢
  split at ht
  · cases ht
  rename_i hnot
  refine ⟨.inl ht, ?_⟩
  rintro rfl hp
  have hne : m ≠ l := fun he => hnot ⟨rfl, he⟩
  rwa [update_of_ne hne]

/-- What a step may add to the record. -/
def Records (s s0 : State P L Ch) (p : P) : Prop :=
  s0.wakes = s.wakes ∨ ∃ c, s.owner .ptable = some p ∧
    s0.wakes = s.wakes ++ [⟨c, p, s.held p⟩] ∧ ∀ q f, s.pc q = .asleep f → f.chan ≠ c

omit [DecidableEq L] in
theorem Turn.goto (hl : Locks s s0 p) (hpc : s0.pc = s.pc) (hw : Records s s0 p)
    (hk : s0.killed = s.killed) {c : Pc P L Ch} (hpt : c.HasPtable → s0.owner .ptable = some p)
    (ha : ∀ f, c = .asleep f → s.pc p = .marking f ∧ s0.wakes = s.wakes)
    (hf : Fine (s0.goto p c) p c) (hx : c.Exposed → (s.pc p).Exposed ∨ s.pc p = .run ∧ s.killed p = false) :
    Turn s (s0.goto p c) p := by
  have hp : (s0.goto p c).pc p = c := update_self _ _ _
  have hq : ∀ q, q ≠ p → (s0.goto p c).pc q = s.pc q := by
    intro q hne
    simp only [State.goto, update_of_ne hne, hpc]
  refine ⟨⟨hl.now, hl.held, hl.owner, hl.tested⟩, fun q hne => .inl (hq q hne), ?_, ?_, ?_, ?_,
    ?_, ?_⟩
  · rcases hw with hw | ⟨d, hown, hw, hnone⟩
    · exact .inl hw
    refine .inr ⟨d, hown, hw, fun q f hqf => ?_⟩
    rcases eq_or_ne q p with rfl | hne
    · rw [hp] at hqf
      have := (ha f hqf).2
      rw [hw] at this
      simp at this
    · exact hnone q f ((hq q hne).symm.trans hqf)
  · rw [hp]
    exact hpt
  · intro f hpf
    rw [hp] at hpf
    exact (ha f hpf).1
  · rw [hp]
    exact hf
  · intro q hkq
    change s0.killed q = true at hkq
    rw [hk] at hkq
    exact .inl hkq
  · rw [hp]
    exact hx

omit [DecidableEq P] [DecidableEq L] in
theorem Turn.stay (hl : Locks s s0 p) (hpc : s0.pc = s.pc) (hw : s0.wakes = s.wakes)
    (hk : s0.killed = s.killed) (hrun : s.pc p = .run) : Turn s s0 p := by
  have hp : s0.pc p = .run := by rw [hpc, hrun]
  refine ⟨hl, fun q _ => .inl (by rw [hpc]), .inl hw, ?_, ?_, ?_, ?_, ?_⟩
  · rw [hp]
    exact nofun
  · intro f hf
    rw [hp] at hf
    cases hf
  · rw [hp]
    trivial
  · intro q hq
    rw [hk] at hq
    exact .inl hq
  · rw [hp]
    exact nofun

theorem Turn.sleep (h : Ordered s) (hl : Locks s s0 p) (hpc : s0.pc = s.pc)
    (hw : Records s s0 p) (hk : s0.killed = s.killed)
    (ht : ∀ l t, s0.tested p l = some t → s.tested p l = some t) (c : Ch)
    {lk : Option (Lock L)} (hlk : Has s0 p lk) {site : Option (Site L Ch)}
    (hx : site.isSome → (s.pc p).Exposed ∨ s.pc p = .run ∧ s.killed p = false) :
    Turn s (s0.sleep p c lk site) p := by
  have hbind : ∀ l t, lk = some l → lk.bind (s0.tested p) = some t → s0.tested p l = some t := by
    rintro l t rfl hb
    exact hb
  simp only [State.sleep]
  split
  next hpt =>
    refine Turn.goto hl hpc hw hk (fun _ => hlk _ hpt) (nofun) ?_ hx
    intro l t hl' hb e he hchan hwho
    have hold := (h.tested p l t (ht l t (hbind l t hl' hb))).2
    change e ∈ s0.wakes at he
    have hmem : e ∈ s.wakes := by
      rcases hw with hw | ⟨d, -, hw, -⟩
      · rw [hw] at he
        exact he
      rw [hw, List.mem_append, List.mem_singleton] at he
      rcases he with he | rfl
      · exact he
      · exact absurd rfl hwho
    exact Nat.lt_of_le_of_lt (h.wakes e hmem l) (hold e.who hwho)
  next hpt =>
    refine Turn.goto hl hpc hw hk (nofun) (nofun) ?_ hx
    refine ⟨hpt, hlk, fun l t hl' hb q hne => ?_⟩
    change s0.held q l < t
    rw [hl.held]
    exact (h.tested p l t (ht l t (hbind l t hl' hb))).2 q hne

end

section

variable [DecidableEq Ch] {s : State P L Ch}

theorem wakeup1_pc (s : State P L Ch) (c : Ch) (q : P) :
    (∃ f, s.pc q = .asleep f ∧ f.chan = c ∧ (s.wakeup1 c).pc q = .runnable f) ∨
      (s.wakeup1 c).pc q = s.pc q ∧ ∀ f, s.pc q = .asleep f → f.chan ≠ c := by
  cases hq : s.pc q with
  | asleep f =>
    by_cases hc : f.chan = c
    · exact .inl ⟨f, rfl, hc, by simp [State.wakeup1, hq, hc]⟩
    · refine .inr ⟨by simp [State.wakeup1, hq, hc], fun g hg => ?_⟩
      cases hg
      exact hc
  | _ => exact .inr ⟨by simp [State.wakeup1, hq], nofun⟩

theorem wakeup1_asleep {c : Ch} {q : P} {f : Frame L Ch}
    (h : (s.wakeup1 c).pc q = .asleep f) : f.chan ≠ c := by
  rcases wakeup1_pc s c q with ⟨g, -, -, hrun⟩ | ⟨hsame, hne⟩
  · rw [hrun] at h
    cases h
  · exact hne f (hsame ▸ h)

end

section

variable [DecidableEq P] [DecidableEq L] [DecidableEq Ch] {s s' : State P L Ch} {p : P}

omit [DecidableEq P] [DecidableEq Ch] in
theorem Has.take {lk : Option (Lock L)} (h : Has s p lk) (hne : lk ≠ some .ptable) :
    Has (s.take p .ptable) p lk := by
  intro l hl
  have hl' : l ≠ .ptable := by
    rintro rfl
    exact hne hl
  simpa [State.take, hl'] using h l hl

omit [DecidableEq Ch] in
theorem Has.drop {lk : Option (Lock L)} (h : Has s p lk) (hne : lk ≠ some .ptable) :
    Has (s.drop p .ptable) p lk := by
  intro l hl
  have hl' : l ≠ .ptable := by
    rintro rfl
    exact hne hl
  simpa [State.drop, hl'] using h l hl

theorem turn_of_go (h : Ordered s) (hs : go s p = some s') : Turn s s' p := by
  have hsame : Locks s s p := .same ⟨rfl, rfl, rfl, rfl⟩
  have hfine := h.fine p
  have hpt := h.hasPtable p
  unfold go at hs
  cases hp : s.pc p with
  | run | asleep => simp only [hp] at hs; cases hs
  | passed site =>
    rw [hp] at hfine
    simp only [hp] at hs
    split at hs
    next c hc =>
      cases hs
      refine Turn.goto hsame rfl (.inl rfl) rfl (nofun) (nofun)
        ?_ (fun _ => .inl (by rw [hp]; trivial))
      rintro x hx
      cases hx
      refine ⟨fun hlk => ?_, hfine⟩
      cases site <;> cases hc
      cases hlk
    · cases hs
      exact Turn.sleep h hsame rfl (.inl rfl) rfl (fun _ _ ht => ht) _ hfine
        (fun _ => .inl (by rw [hp]; trivial))
  | wakeup c site =>
    simp only [hp] at hs
    rw [hp] at hfine
    split at hs
    next hfree =>
      cases hs
      refine Turn.goto (.take hfree) rfl (.inl rfl) rfl (fun _ => take_owner s p _)
        (nofun) ?_ (fun hx => .inl (by rw [hp]; exact hx))
      exact fun x hx => ⟨(hfine x hx).1, (hfine x hx).2.take (hfine x hx).1⟩
    · cases hs
  | waking c site =>
    simp only [hp] at hs
    cases hs
    rw [hp] at hfine hpt
    have hself : ((s.wakeup1 c).goto p (.woke c site)).pc p = .woke c site :=
      update_self _ _ _
    have hother : ∀ q, q ≠ p →
        ((s.wakeup1 c).goto p (.woke c site)).pc q = (s.wakeup1 c).pc q :=
      fun q hne => update_of_ne hne _ _
    refine ⟨⟨rfl, rfl, hsame.owner, hsame.tested⟩, fun q hne => ?_, .inl rfl, ?_, ?_, ?_,
      fun q hq => .inl hq, ?_⟩
    · rw [hother q hne]
      rcases wakeup1_pc s c q with ⟨f, hold, -, hnew⟩ | ⟨hnew, -⟩
      · exact .inr ⟨f, hold, hnew⟩
      · exact .inl hnew
    · intro _
      exact hpt trivial
    · intro f hf
      rw [hself] at hf
      cases hf
    · rw [hself]
      refine ⟨hfine, fun q f hq => ?_⟩
      rcases eq_or_ne q p with rfl | hne
      · rw [hself] at hq
        cases hq
      · rw [hother q hne] at hq
        exact wakeup1_asleep hq
    · rw [hself, hp]
      exact .inl
  | woke c site =>
    simp only [hp] at hs
    cases hs
    rw [hp] at hfine hpt
    have hown := hpt trivial
    have hl : Locks s ((s.record p c).drop p .ptable) p := by
      obtain ⟨h1, h2, h3, h4⟩ := Locks.drop hown
      exact ⟨h1, h2, h3, h4⟩
    have hw : Records s ((s.record p c).drop p .ptable) p :=
      .inr ⟨c, hown, rfl, hfine.2⟩
    cases site with
    | none =>
      exact Turn.goto hl rfl hw rfl (nofun) (nofun) trivial
        (nofun)
    | some site =>
      refine Turn.sleep h hl rfl hw rfl ?_ _ ((hfine.1 site rfl).2.drop (hfine.1 site rfl).1)
        (fun _ => .inl (by rw [hp]; trivial))
      intro l t ht
      simp only [State.drop] at ht
      split at ht
      · cases ht
      · exact ht
  | kill | runnable =>
    simp only [hp] at hs
    split at hs
    next hfree =>
      cases hs
      exact Turn.goto (.take hfree) rfl (.inl rfl) rfl (fun _ => take_owner s p _)
        (nofun) trivial (nofun)
    · cases hs
  | killing q =>
    simp only [hp, Option.some.injEq] at hs
    rw [hp] at hpt
    have hself : s'.pc p = .didkill q := by
      rw [← hs]
      exact update_self _ _ _
    have hother : ∀ r, r ≠ p → s'.pc r = s.pc r ∧ (r = q → ∀ f, s.pc r ≠ .asleep f) ∨
        ∃ f, s.pc r = .asleep f ∧ s'.pc r = .runnable f := by
      intro r hne
      rw [← hs]
      simp only [State.goto, update_of_ne hne]
      rcases eq_or_ne r q with rfl | hrq
      · rw [update_self]
        cases hr : s.pc r with
        | asleep f => exact .inr ⟨f, rfl, rfl⟩
        | _ => exact .inl ⟨rfl, nofun⟩
      · rw [update_of_ne hrq]
        exact .inl ⟨rfl, fun he => absurd he hrq⟩
    have hl : Locks s s' p := by
      rw [← hs]
      exact ⟨rfl, rfl, hsame.owner, hsame.tested⟩
    refine ⟨hl, fun r hne => (hother r hne).imp_left And.left, .inl (by rw [← hs]; rfl), ?_, ?_,
      ?_, ?_, ?_⟩
    · intro _
      rw [← hs]
      exact hpt trivial
    · intro f hf
      rw [hself] at hf
      cases hf
    · rw [hself]
      trivial
    · intro r hr
      rw [← hs] at hr
      change update s.killed q true r = true at hr
      rcases eq_or_ne r q with rfl | hrq
      · refine .inr ⟨hp, fun f hf => ?_⟩
        rcases eq_or_ne r p with rfl | hne
        · rw [hself] at hf
          cases hf
        rcases hother r hne with ⟨hsame', hno⟩ | ⟨g, -, hrun⟩
        · exact hno rfl f (hsame' ▸ hf)
        · rw [hrun] at hf
          cases hf
      · rw [update_of_ne hrq] at hr
        exact .inl hr
    · rw [hself]
      exact nofun
  | didkill q =>
    simp only [hp] at hs
    cases hs
    rw [hp] at hpt
    have hl : Locks s ({ s with returned := update s.returned q true }.drop p .ptable)
        p := by
      obtain ⟨h1, h2, h3, h4⟩ := Locks.drop (hpt trivial)
      exact ⟨h1, h2, h3, h4⟩
    exact Turn.goto hl rfl (.inl rfl) rfl (nofun) (nofun)
      trivial (nofun)
  | sleep f =>
    simp only [hp] at hs
    rw [hp] at hfine
    obtain ⟨hfree, ⟨⟩⟩ := ite_none_right_eq_some.mp hs
    by_cases hlk : f.lk = none
    · rw [if_pos hlk]
      refine Turn.goto (.take hfree) rfl (.inl rfl) rfl (fun _ => take_owner s p _)
        (nofun) ?_ (fun hx => .inl (by rw [hp]; exact hx))
      intro l t hl
      rw [hlk] at hl
      cases hl
    · rw [if_neg hlk]
      refine Turn.goto (.take hfree) rfl (.inl rfl) rfl (fun _ => take_owner s p _)
        (nofun) ⟨hfine.1, hfine.2.1.take hfine.1, hfine.2.2⟩
        (fun hx => .inl (by rw [hp]; exact hx))
  | dropping f =>
    simp only [hp] at hs
    rw [hp] at hfine hpt
    split at hs
    next l hlk =>
      obtain ⟨hown, ⟨⟩⟩ := ite_none_right_eq_some.mp hs
      refine Turn.goto (.drop hown) rfl (.inl rfl) rfl ?_ (nofun) ?_
        (fun hx => .inl (by rw [hp]; exact hx))
      · intro _
        have hne : Lock.ptable ≠ l := by
          rintro rfl
          exact hfine.1 hlk
        simpa [State.drop, hne] using hpt trivial
      · intro m t hm ht e he _ hwho
        exact Nat.lt_of_le_of_lt (h.wakes e he m) (hfine.2.2 m t hm ht e.who hwho)
    · cases hs
  | marking =>
    simp only [hp] at hs
    cases hs
    rw [hp] at hfine hpt
    refine Turn.goto (.drop (hpt trivial)) rfl (.inl rfl) rfl (nofun) ?_ hfine
      (fun hx => .inl (by rw [hp]; exact hx))
    rintro g hg
    cases hg
    exact ⟨hp, rfl⟩
  | back =>
    simp only [hp] at hs
    rw [hp] at hpt
    split at hs
    · cases hs
      exact Turn.goto hsame rfl (.inl rfl) rfl (nofun) (nofun)
        trivial (nofun)
    · cases hs
      exact Turn.goto (.drop (hpt trivial)) rfl (.inl rfl) rfl (nofun)
        (nofun) trivial (nofun)
  | regain =>
    simp only [hp] at hs
    split at hs
    · cases hs
      exact Turn.goto hsame rfl (.inl rfl) rfl (nofun) (nofun)
        trivial (nofun)
    · obtain ⟨hfree, ⟨⟩⟩ := ite_none_right_eq_some.mp hs
      exact Turn.goto (.take hfree) rfl (.inl rfl) rfl (nofun)
        (nofun) trivial (nofun)

theorem turn_of_act (h : Ordered s) {a : Label P L Ch} (hs : act s a = some s') :
    ∃ p, Turn s s' p ∧ (s.pc p = .run ∨ a = .go p) := by
  cases a with
  | go p => exact ⟨p, turn_of_go h hs, .inr rfl⟩
  | acquire p =>
    obtain ⟨hc, ⟨⟩⟩ := ite_none_right_eq_some.mp hs
    exact ⟨p, Turn.stay (.take hc.2) rfl rfl rfl hc.1, .inl hc.1⟩
  | release p =>
    obtain ⟨hc, ⟨⟩⟩ := ite_none_right_eq_some.mp hs
    exact ⟨p, Turn.stay (.drop hc.2) rfl rfl rfl hc.1, .inl hc.1⟩
  | test p l =>
    obtain ⟨hc, ⟨⟩⟩ := ite_none_right_eq_some.mp hs
    refine ⟨p, Turn.stay ⟨rfl, rfl, fun _ => .inl rfl, fun q m t ht => ?_⟩ rfl rfl rfl hc.1,
      .inl hc.1⟩
    refine ⟨?_, fun _ hown => hown⟩
    simp only at ht
    split at ht
    next he =>
      obtain ⟨rfl, rfl⟩ := he
      cases ht
      exact .inr ⟨rfl, rfl, hc.2⟩
    · exact .inl ht
  | check p site =>
    have hsame : Locks s s p := .same ⟨rfl, rfl, rfl, rfl⟩
    obtain ⟨hc, hs⟩ := ite_none_right_eq_some.mp hs
    split at hs
    · cases hs
      exact ⟨p, Turn.stay hsame rfl rfl rfl hc.1, .inl hc.1⟩
    rename_i hk
    cases hs
    exact ⟨p, Turn.goto hsame rfl (.inl rfl) rfl (nofun)
      (nofun) hc.2 (fun _ => .inr ⟨hc.1, by simpa using hk⟩), .inl hc.1⟩
  | sleep p c =>
    obtain ⟨hc, ⟨⟩⟩ := ite_none_right_eq_some.mp hs
    exact ⟨p, Turn.sleep h (.same ⟨rfl, rfl, rfl, rfl⟩) rfl (.inl rfl) rfl
      (fun _ _ ht => ht) c hc.2 (nofun), .inl hc.1⟩
  | wakeup p =>
    obtain ⟨hc, ⟨⟩⟩ := ite_none_right_eq_some.mp hs
    exact ⟨p, Turn.goto (.same ⟨rfl, rfl, rfl, rfl⟩) rfl (.inl rfl) rfl
      (nofun) (nofun) (nofun)
      (nofun), .inl hc⟩
  | wakeup1 p c =>
    obtain ⟨hc, ⟨⟩⟩ := ite_none_right_eq_some.mp hs
    have hp : ((s.wakeup1 c).record p c).pc p = .run := by simp [State.record, State.wakeup1, hc.1]
    refine ⟨p, ⟨.same ⟨rfl, rfl, rfl, rfl⟩, fun q _ => ?_, .inr ⟨c, hc.2, rfl, ?_⟩,
      fun _ => hc.2, ?_, ?_, fun q hq => .inl hq, ?_⟩, .inl hc.1⟩
    · rcases wakeup1_pc s c q with ⟨f, hold, -, hnew⟩ | ⟨hnew, -⟩
      · exact .inr ⟨f, hold, hnew⟩
      · exact .inl hnew
    · intro q f hq
      exact wakeup1_asleep hq
    · intro f hf
      rw [hp] at hf
      cases hf
    · rw [hp]
      trivial
    · rw [hp]
      exact nofun
  | kill p =>
    obtain ⟨hc, ⟨⟩⟩ := ite_none_right_eq_some.mp hs
    exact ⟨p, Turn.goto (.same ⟨rfl, rfl, rfl, rfl⟩) rfl (.inl rfl) rfl
      (nofun) (nofun) trivial (nofun), .inl hc⟩

/-! ### No wakeup is lost -/

theorem ordered_of_reached (hr : (system P L Ch).Reached s) : Ordered s := by
  apply hr.invariant
  · rintro s ⟨hown, hrun, -, hheld, htest, hwakes⟩
    refine ⟨hheld, ?_, ?_, ?_, ?_⟩
    · intro q l t ht
      rw [htest] at ht
      cases ht
    · intro e he
      rw [hwakes] at he
      cases he
    · intro q hq
      rw [hrun] at hq
      cases hq
    · intro q
      rw [hrun]
      trivial
  · intro s a s' h _ hs
    change (act s a).map State.tick = some s' at hs
    rw [map_eq_some_iff] at hs
    obtain ⟨s1, hs1, rfl⟩ := hs
    obtain ⟨q, hturn, -⟩ := turn_of_act h hs1
    exact h.turn hturn

/-- **Whoever is asleep is not so because of a test that a `wakeup` has overtaken**: no
`wakeup` of the channel is on record by a process that had the lock after the test. -/
theorem asleep_after_wakes (hr : (system P L Ch).Reached s) {f : Frame L Ch}
    (hp : s.pc p = .asleep f) {l : Lock L} {t : Nat} (hl : f.lk = some l)
    (ht : f.tested = some t) : ∀ e ∈ s.wakes, e.chan = f.chan → e.who ≠ p → e.held l < t := by
  have hf := (ordered_of_reached hr).fine p
  rw [hp] at hf
  exact hf l t hl ht

end

def boot : State (Fin 2) Unit Unit where
  owner _ := none
  pc _ := .run
  killed _ := false
  now := 0
  held _ _ := 0
  tested _ _ := none
  wakes := []
  returned _ := false

theorem boot_init : (system (Fin 2) Unit Unit).init boot :=
  ⟨fun _ => rfl, fun _ => rfl, fun _ => rfl, fun _ _ => Nat.le_refl 0, fun _ _ => rfl, rfl⟩

end Xv6.SleepWakeup
