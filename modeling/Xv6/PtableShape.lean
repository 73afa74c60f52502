import Mathlib.Data.List.Induction
import Xv6.Ptable

/-!
**How the slots of the process table hang together.**

A free slot has no parent, an EMBRYO belongs to the one process that is forking it, and everybody
else but `initproc` has a live parent that was allocated before it (`Shape`). Most steps only
move a process between SLEEPING, RUNNABLE and RUNNING (`Wander`) and keep this for that reason.
-/

namespace Xv6.Ptable

open Function List

/-- A process that is neither being created nor gone. -/
def Alive : Procstate → Prop
  | .SLEEPING | .RUNNABLE | .RUNNING => True
  | .UNUSED | .EMBRYO | .ZOMBIE => False

instance : DecidablePred Alive
  | .SLEEPING | .RUNNABLE | .RUNNING => .isTrue trivial
  | .UNUSED | .EMBRYO | .ZOMBIE => .isFalse id

variable {t t' : Table} {p np : Fin NPROC} {e : Proc}

theorem alive_of_runs (h : t.Runs p) : Alive (t.proc p).state := by
  rw [h.1]
  trivial

/-! ### The shape of the table -/

/-- Process `q` is forking the slot `c`. -/
def Forks (t : Table) (q c : Fin NPROC) : Prop := ∃ stage, t.base q = .fork stage c

structure Shape (t : Table) : Prop where
  root : Alive (t.proc t.initproc).state ∧ (t.proc t.initproc).parent = none ∧
    t.life t.initproc = 1
  unused : ∀ p, (t.proc p).state = .UNUSED → (t.proc p).parent = none
  /-- Everybody else has a live parent, which is older. -/
  family : ∀ p, p ≠ t.initproc → Alive (t.proc p).state ∨ (t.proc p).state = .ZOMBIE →
    ∃ q, (t.proc p).parent = some q ∧ Alive (t.proc q).state ∧ t.life q < t.life p
  /-- A slot that is being forked. -/
  forks : ∀ q stage c, t.base q = .fork stage c → Alive (t.proc q).state ∧
    (t.proc c).state = .EMBRYO ∧ t.life q < t.life c ∧
      (t.proc c).parent = if stage = .linked then some q else none
  embryo : ∀ c, (t.proc c).state = .EMBRYO → ∃ q, Forks t q c
  one : ∀ q q' c, Forks t q c → Forks t q' c → q = q'
  lives : ∀ p, t.life p ≤ t.allocated
  distinct : ∀ p q, (t.proc p).state ≠ .UNUSED → (t.proc q).state ≠ .UNUSED →
    t.life p = t.life q → p = q
  nextpid : t.nextpid = (t.allocated + 1) % 2 ^ 32
  pids : ∀ p, (t.proc p).state ≠ .UNUSED → 0 < t.life p ∧ (t.proc p).pid = t.life p % 2 ^ 32

/-! ### Steps that keep the shape -/

/-- Nothing happens but that processes move between SLEEPING, RUNNABLE and RUNNING. -/
structure Wander (t t' : Table) : Prop where
  initproc : t'.initproc = t.initproc
  nextpid : t'.nextpid = t.nextpid
  allocated : t'.allocated = t.allocated
  life : t'.life = t.life
  pid : ∀ p, (t'.proc p).pid = (t.proc p).pid
  parent : ∀ p, (t'.proc p).parent = (t.proc p).parent
  state : ∀ p, (t'.proc p).state = (t.proc p).state ∨
    Alive (t.proc p).state ∧ Alive (t'.proc p).state
  forks : ∀ q stage c, t'.base q = .fork stage c ↔ t.base q = .fork stage c

namespace Wander

variable (h : Wander t t')

include h

theorem alive_iff (p : Fin NPROC) : Alive (t'.proc p).state ↔ Alive (t.proc p).state := by
  rcases h.state p with heq | ⟨hp, hp'⟩
  · rw [heq]
  · exact ⟨fun _ => hp, fun _ => hp'⟩

theorem state_iff {s : Procstate} (hs : ¬ Alive s) (p : Fin NPROC) :
    (t'.proc p).state = s ↔ (t.proc p).state = s := by
  rcases h.state p with heq | ⟨hp, hp'⟩
  · rw [heq]
  · exact ⟨fun heq => absurd (heq ▸ hp') hs, fun heq => absurd (heq ▸ hp) hs⟩

theorem forks_iff (q c : Fin NPROC) : Forks t' q c ↔ Forks t q c :=
  exists_congr fun stage => h.forks q stage c

theorem shape (hs : Shape t) : Shape t' where
  root := by rw [h.initproc, h.alive_iff, h.parent, h.life]; exact hs.root
  unused p hp := by rw [h.parent]; exact hs.unused p ((h.state_iff id p).mp hp)
  family p hp hstate := by
    rw [h.initproc] at hp
    rw [h.alive_iff, h.state_iff id] at hstate
    obtain ⟨q, hq, halive, hlt⟩ := hs.family p hp hstate
    rw [h.life, h.parent]
    exact ⟨q, hq, (h.alive_iff q).mpr halive, hlt⟩
  forks q stage c hq := by
    obtain ⟨halive, hembryo, hlt, hparent⟩ := hs.forks q stage c ((h.forks q stage c).mp hq)
    rw [h.life, h.parent, h.alive_iff, h.state_iff id]
    exact ⟨halive, hembryo, hlt, hparent⟩
  embryo c hc := by
    obtain ⟨q, hq⟩ := hs.embryo c ((h.state_iff id c).mp hc)
    exact ⟨q, (h.forks_iff q c).mpr hq⟩
  one q q' c hq hq' := hs.one q q' c ((h.forks_iff q c).mp hq) ((h.forks_iff q' c).mp hq')
  lives p := by rw [h.life, h.allocated]; exact hs.lives p
  distinct p q hp hq := by
    rw [Ne, h.state_iff id] at hp hq
    rw [h.life]
    exact hs.distinct p q hp hq
  nextpid := by rw [h.nextpid, h.allocated]; exact hs.nextpid
  pids p hp := by
    rw [Ne, h.state_iff id] at hp
    rw [h.life, h.pid]
    exact hs.pids p hp

end Wander

theorem wander_set (hpid : e.pid = (t.proc p).pid) (hparent : e.parent = (t.proc p).parent)
    (hstate : e.state = (t.proc p).state ∨ Alive (t.proc p).state ∧ Alive e.state) :
    Wander t (t.set p e) where
  initproc := rfl
  nextpid := rfl
  allocated := rfl
  life := rfl
  pid q := by
    by_cases hq : q = p
    · subst hq; simpa [Table.set] using hpid
    · simp [Table.set, hq]
  parent q := by
    by_cases hq : q = p
    · subst hq; simpa [Table.set] using hparent
    · simp [Table.set, hq]
  state q := by
    by_cases hq : q = p
    · subst hq; simpa [Table.set] using hstate
    · exact .inl (by simp [Table.set, hq])
  forks _ _ _ := Iff.rfl

theorem Shape.set (h : Shape t) (hpid : e.pid = (t.proc p).pid)
    (hparent : e.parent = (t.proc p).parent)
    (hstate : e.state = (t.proc p).state ∨ Alive (t.proc p).state ∧ Alive e.state) :
    Shape (t.set p e) := (wander_set hpid hparent hstate).shape h

theorem wander_goto {b : Base} (hfrom : ∀ stage c, t.base p ≠ .fork stage c)
    (hto : ∀ stage c, b ≠ .fork stage c) : Wander t (t.goto p b) where
  initproc := rfl
  nextpid := rfl
  allocated := rfl
  life := rfl
  pid _ := rfl
  parent _ := rfl
  state _ := .inl rfl
  forks q stage c := by
    by_cases hq : q = p
    · subst hq
      simp [Table.goto, hfrom stage c, hto stage c]
    · simp [Table.goto, hq]

theorem wakeup1_proc (chan : Option Chan) (t : Table) (p : Fin NPROC) :
    (wakeup1 chan t).proc p = t.proc p ∨ (t.proc p).state = .SLEEPING ∧
      (wakeup1 chan t).proc p = { t.proc p with state := .RUNNABLE } := by
  simp only [wakeup1]
  split
  next hp => exact .inr ⟨hp.1, rfl⟩
  · exact .inl rfl

theorem wakeup1_chan {chan : Option Chan} (hs : ((wakeup1 chan t).proc p).state = .SLEEPING) :
    (t.proc p).chan ≠ chan := by
  intro hchan
  simp only [wakeup1] at hs
  split at hs
  · cases hs
  next hp => exact hp ⟨hs, hchan⟩

theorem wander_wakeup1 (chan : Option Chan) : Wander t (wakeup1 chan t) := by
  constructor
  case initproc => rfl
  case nextpid => rfl
  case allocated => rfl
  case life => rfl
  case pid =>
    intro p
    rcases wakeup1_proc chan t p with heq | ⟨-, heq⟩ <;> rw [heq]
  case parent =>
    intro p
    rcases wakeup1_proc chan t p with heq | ⟨-, heq⟩ <;> rw [heq]
  case state =>
    intro p
    rcases wakeup1_proc chan t p with heq | ⟨hs, heq⟩
    · rw [heq]; exact .inl rfl
    · rw [heq, hs]; exact .inr ⟨trivial, trivial⟩
  case forks => exact fun _ _ _ => Iff.rfl

theorem wander_kill (pid : Int) {named : Fin NPROC → Bool} :
    Wander t { (kill pid t).1 with named := named } := by
  have hkill : Wander t (kill pid t).1 := by
    simp only [kill]
    split
    next p _ =>
      apply wander_set
      · rfl
      · rfl
      · by_cases hs : (t.proc p).state = .SLEEPING
        · simp only [hs, if_true]; exact .inr ⟨trivial, trivial⟩
        · simp only [hs, if_false]; exact .inl trivial
    · exact ⟨rfl, rfl, rfl, rfl, fun _ => rfl, fun _ => rfl, fun _ => .inl rfl, fun _ _ _ => Iff.rfl⟩
  exact ⟨hkill.initproc, hkill.nextpid, hkill.allocated, hkill.life, hkill.pid, hkill.parent,
    hkill.state, hkill.forks⟩

/-! ### `exit` -/

/-- What `exit`'s loop has done after the slots `l`. -/
structure Passed (curproc : Fin NPROC) (l : List (Fin NPROC)) (t t' : Table) : Prop where
  rest : t' = { t with proc := t'.proc }
  same : ∀ q, (t'.proc q).pid = (t.proc q).pid ∧ (t'.proc q).chan = (t.proc q).chan ∧
    (t'.proc q).killed = (t.proc q).killed
  state : ∀ q, (t'.proc q).state = (t.proc q).state ∨
    (t.proc q).state = .SLEEPING ∧ (t'.proc q).state = .RUNNABLE
  parent : ∀ q, (t'.proc q).parent =
    if q ∈ l ∧ (t.proc q).parent = some curproc then some t.initproc else (t.proc q).parent

namespace Passed

variable {curproc : Fin NPROC} {l l' : List (Fin NPROC)}

variable (h : Passed curproc l t t')
include h

theorem wakeup1 (chan : Option Chan) : Passed curproc l t (wakeup1 chan t') where
  rest := by rw [h.rest]; rfl
  same q := by rcases wakeup1_proc chan t' q with heq | ⟨-, heq⟩ <;> rw [heq] <;> exact h.same q
  state q := by
    rcases wakeup1_proc chan t' q with heq | ⟨hs, heq⟩
    · rw [heq]; exact h.state q
    rw [heq]
    rcases h.state q with hq | ⟨-, hq⟩
    · exact .inr ⟨hq ▸ hs, rfl⟩
    · rw [hq] at hs; cases hs
  parent q := by rcases wakeup1_proc chan t' q with heq | ⟨-, heq⟩ <;> rw [heq] <;> exact h.parent q

theorem trans {t'' : Table} (h' : Passed curproc l' t' t'') (hdisj : l.Disjoint l') :
    Passed curproc (l ++ l') t t'' where
  rest := by rw [h'.rest, h.rest]
  same q := by
    obtain ⟨hpid, hchan, hkilled⟩ := h.same q
    obtain ⟨hpid', hchan', hkilled'⟩ := h'.same q
    exact ⟨hpid'.trans hpid, hchan'.trans hchan, hkilled'.trans hkilled⟩
  state q := by
    rcases h.state q with hq | ⟨hq, hq1⟩
    · rw [← hq]; exact h'.state q
    · rcases h'.state q with hq' | ⟨hq', -⟩
      · exact .inr ⟨hq, hq'.trans hq1⟩
      · rw [hq1] at hq'; cases hq'
  parent q := by
    have hinit : t'.initproc = t.initproc := by rw [h.rest]
    rw [h'.parent q, hinit]
    by_cases hq : q ∈ l'
    · have hql : q ∉ l := fun hmem => hdisj hmem hq
      have hsame : (t'.proc q).parent = (t.proc q).parent := by rw [h.parent q]; simp [hql]
      simp [hq, hsame]
    · simp only [hq, mem_append, or_false]
      exact h.parent q

theorem sleeping {q : Fin NPROC} (hq : (t'.proc q).state = .SLEEPING) :
    (t.proc q).state = .SLEEPING := by
  rcases h.state q with heq | ⟨heq, -⟩
  · rw [← heq]; exact hq
  · exact heq

theorem zombie {q : Fin NPROC} (hq : (t.proc q).state = .ZOMBIE) : (t'.proc q).state = .ZOMBIE := by
  rcases h.state q with heq | ⟨heq, -⟩
  · rw [heq]; exact hq
  · rw [hq] at heq; cases heq

end Passed

theorem passed_set {curproc : Fin NPROC} (hchild : (t.proc p).parent = some curproc) :
    Passed curproc [p] t (t.set p { t.proc p with parent := some t.initproc }) := by
  constructor
  · rfl
  · intro q
    by_cases hq : q = p
    · subst hq; simp [Table.set]
    · simp [Table.set, hq]
  · intro q
    by_cases hq : q = p
    · subst hq; simp [Table.set]
    · simp [Table.set, hq]
  · intro q
    by_cases hq : q = p
    · subst hq; simp [Table.set, hchild]
    · simp [Table.set, hq]

theorem passed_adopt (curproc : Fin NPROC) (t : Table) (p : Fin NPROC) :
    Passed curproc [p] t (adopt curproc t p) := by
  simp only [adopt]
  split
  next hchild =>
    split
    · exact (passed_set hchild).wakeup1 _
    · exact passed_set hchild
  next hchild =>
    refine ⟨rfl, fun _ => ⟨rfl, rfl, rfl⟩, fun _ => .inl rfl, fun q => ?_⟩
    by_cases hq : q = p
    · subst hq; simp [hchild]
    · simp [hq]

theorem passed_loop (curproc : Fin NPROC) (l : List (Fin NPROC)) (hl : l.Nodup) (t : Table) :
    Passed curproc l t (l.foldl (adopt curproc) t) := by
  induction l using List.reverseRecOn with
  | nil => exact ⟨rfl, fun _ => ⟨rfl, rfl, rfl⟩, fun _ => .inl rfl, fun _ => by simp⟩
  | append_singleton l p ih =>
    rw [nodup_append'] at hl
    rw [foldl_append]
    exact (ih hl.1).trans (passed_adopt curproc _ p) hl.2.2

/-- **A ZOMBIE that changes hands wakes init.** -/
theorem init_awake (curproc : Fin NPROC) (l : List (Fin NPROC)) (hl : l.Nodup) (t : Table)
    (c : Fin NPROC) (hc : c ∈ l) (hchild : (t.proc c).parent = some curproc)
    (hzombie : (t.proc c).state = .ZOMBIE)
    (hs : ((l.foldl (adopt curproc) t).proc t.initproc).state = .SLEEPING) :
    (t.proc t.initproc).chan ≠ some (.proc t.initproc) := by
  induction l using List.reverseRecOn with
  | nil => cases hc
  | append_singleton l p ih =>
    rw [nodup_append'] at hl
    obtain ⟨hl, -, hdisj⟩ := hl
    rw [foldl_append, foldl_cons] at hs
    have hpassed := passed_loop curproc l hl t
    by_cases hcl : c ∈ l
    · exact ih hl hcl ((passed_adopt curproc _ p).sleeping hs)
    -- this is the round of `c`
    have hcp : c = p := by simpa [hcl] using hc
    subst hcp
    generalize l.foldl (adopt curproc) t = t1 at hs hpassed
    have hchild1 : (t1.proc c).parent = some curproc := by
      rw [hpassed.parent c]
      simpa [hcl] using hchild
    have hinit : t1.initproc = t.initproc := by rw [hpassed.rest]
    have hset := passed_set hchild1
    simp only [adopt] at hs
    rw [if_pos hchild1, if_pos (hset.zombie (hpassed.zombie hzombie))] at hs
    have hchan := wakeup1_chan hs
    rw [(hset.same _).2.1, (hpassed.same _).2.1] at hchan
    intro heq
    exact hchan (by rw [heq, ← hinit]; rfl)

/-- **`exit`**, slot by slot. -/
structure Exited (curproc : Fin NPROC) (t t' : Table) : Prop where
  rest : t' = { t with proc := t'.proc }
  same : ∀ q, (t'.proc q).pid = (t.proc q).pid ∧ (t'.proc q).chan = (t.proc q).chan ∧
    (t'.proc q).killed = (t.proc q).killed
  self : (t'.proc curproc).state = .ZOMBIE
  state : ∀ q, q ≠ curproc → (t'.proc q).state = (t.proc q).state ∨
    (t.proc q).state = .SLEEPING ∧ (t'.proc q).state = .RUNNABLE
  parent : ∀ q, (t'.proc q).parent =
    if (t.proc q).parent = some curproc then some t.initproc else (t.proc q).parent
  /-- The parent is awake. -/
  parentAwake : ∀ q, (t.proc curproc).parent = some q → (t'.proc q).state = .SLEEPING →
    (t.proc q).chan ≠ some (.proc q)
  initAwake : ∀ c, (t.proc c).parent = some curproc → (t.proc c).state = .ZOMBIE →
    (t'.proc t.initproc).state = .SLEEPING →
    (t.proc t.initproc).chan ≠ some (.proc t.initproc)

theorem exited_exit (curproc : Fin NPROC) (t : Table) : Exited curproc t (exit curproc t) := by
  -- first the parent is woken, then comes the loop
  have hwake : Passed curproc [] t (wakeup1 ((t.proc curproc).parent.map .proc) t) := by
    have hrefl : Passed curproc [] t t :=
      ⟨rfl, fun _ => ⟨rfl, rfl, rfl⟩, fun _ => .inl rfl, fun _ => by simp⟩
    exact hrefl.wakeup1 _
  have hloop := passed_loop curproc (List.finRange NPROC) (nodup_finRange NPROC)
    (wakeup1 ((t.proc curproc).parent.map .proc) t)
  have hinit := init_awake curproc (List.finRange NPROC) (nodup_finRange NPROC)
    (wakeup1 ((t.proc curproc).parent.map .proc) t)
  have hall := hwake.trans hloop (disjoint_nil_left _)
  rw [exit]
  generalize ht2 : (List.finRange NPROC).foldl (adopt curproc)
    (wakeup1 ((t.proc curproc).parent.map .proc) t) = t2 at hloop hinit hall
  have hset : ∀ q, (t2.setState curproc .ZOMBIE).proc q =
      { t2.proc q with state := if q = curproc then .ZOMBIE else (t2.proc q).state } := by
    intro q
    by_cases hq : q = curproc
    · subst hq; simp [Table.setState, Table.set]
    · simp [Table.setState, Table.set, hq]
  have hsleeping : ∀ q, ((t2.setState curproc .ZOMBIE).proc q).state = .SLEEPING →
      (t2.proc q).state = .SLEEPING := by
    intro q hq
    rw [hset] at hq
    by_cases heq : q = curproc
    · simp [heq] at hq
    · simpa [heq] using hq
  constructor
  case rest => rw [hall.rest]; rfl
  case same => intro q; rw [hset]; exact hall.same q
  case self => rw [hset]; simp
  case state => intro q hq; rw [hset]; simpa [hq] using hall.state q
  case parent => intro q; rw [hset]; simpa using hall.parent q
  case parentAwake =>
    intro q hq hs
    have hs1 := hloop.sleeping (hsleeping q hs)
    rw [hq] at hs1
    exact wakeup1_chan hs1
  case initAwake =>
    intro c hc hz hs
    have hchild : ((wakeup1 ((t.proc curproc).parent.map .proc) t).proc c).parent =
        some curproc := by
      rw [hwake.parent c]
      simpa using hc
    have hchan := hinit c (mem_finRange c) hchild (hwake.zombie hz) (hsleeping _ hs)
    rwa [(hwake.same _).2.1] at hchan

variable (h : Shape t)
include h

theorem Shape.exit (hr : t.Runs p) (hb : t.base p = .user) (hroot : p ≠ t.initproc)
    (he : Exited p t t') : Shape t' := by
  have hinit : t'.initproc = t.initproc := by rw [he.rest]
  have hnext : t'.nextpid = t.nextpid := by rw [he.rest]
  have halloc : t'.allocated = t.allocated := by rw [he.rest]
  have hlife : t'.life = t.life := by rw [he.rest]
  have hbase : t'.base = t.base := by rw [he.rest]
  have hforks : ∀ q c, Forks t' q c ↔ Forks t q c := fun q c => by rw [Forks, Forks, hbase]
  -- everybody but `p` stays alive, or not
  have halive : ∀ q, q ≠ p → (Alive (t'.proc q).state ↔ Alive (t.proc q).state) := by
    intro q hq
    rcases he.state q hq with heq | ⟨hs, hs'⟩
    · rw [heq]
    · rw [hs, hs']; exact Iff.rfl
  have hstate : ∀ q s, ¬ Alive s → (t'.proc q).state = s → q ≠ p → (t.proc q).state = s := by
    intro q s hs hq hqp
    rcases he.state q hqp with heq | ⟨-, heq⟩
    · rw [← heq, hq]
    · rw [heq] at hq; exact absurd (hq ▸ trivial) hs
  have hzombie : ∀ q s, (t'.proc q).state = s → s ≠ .ZOMBIE → q ≠ p := by
    intro q s hq hs heq
    rw [heq, he.self] at hq
    exact hs hq.symm
  have hused : ∀ q, (t'.proc q).state ≠ .UNUSED → (t.proc q).state ≠ .UNUSED := by
    intro q hq hun
    by_cases hqp : q = p
    · rw [hqp, hr.1] at hun; cases hun
    · rcases he.state q hqp with heq | ⟨heq, -⟩
      · rw [heq] at hq; exact hq hun
      · rw [hun] at heq; cases heq
  constructor
  case root =>
    rw [hinit, he.parent, h.root.2.1, hlife]
    exact ⟨(halive _ (Ne.symm hroot)).mpr h.root.1, by simp, h.root.2.2⟩
  case unused =>
    intro q hq
    have hqp := hzombie q _ hq (by decide)
    rw [he.parent, h.unused q (hstate q _ id hq hqp)]
    simp
  case family =>
    intro q hq hs
    rw [hinit] at hq
    have hs' : Alive (t.proc q).state ∨ (t.proc q).state = .ZOMBIE := by
      by_cases hqp : q = p
      · rw [hqp]; exact .inl (alive_of_runs hr)
      · rcases hs with hs | hs
        · exact .inl ((halive q hqp).mp hs)
        · exact .inr (hstate q _ id hs hqp)
    obtain ⟨r, hparent, hlive, hlt⟩ := h.family q hq hs'
    rw [he.parent, hparent, hlife]
    by_cases hrp : r = p
    · -- a child of `p` goes to init, the oldest of all
      have hpos : 0 < t.life r := (h.pids r (by rw [hrp, hr.1]; decide)).1
      refine ⟨t.initproc, if_pos (by rw [hrp]), (halive _ (Ne.symm hroot)).mpr h.root.1, ?_⟩
      rw [h.root.2.2]
      omega
    · have hne : some r ≠ some p := fun heq => hrp (Option.some.inj heq)
      exact ⟨r, if_neg hne, (halive r hrp).mpr hlive, hlt⟩
  case forks =>
    intro q stage c hq
    rw [hbase] at hq
    obtain ⟨hlive, hembryo, hlt, hparent⟩ := h.forks q stage c hq
    have hqp : q ≠ p := by
      intro heq
      rw [heq, hb] at hq
      cases hq
    have hcp : c ≠ p := by
      intro heq
      rw [heq, hr.1] at hembryo
      cases hembryo
    have hc : (t'.proc c).state = .EMBRYO := by
      rcases he.state c hcp with heq | ⟨heq, -⟩
      · rw [heq, hembryo]
      · rw [hembryo] at heq; cases heq
    rw [hlife, he.parent, hparent]
    refine ⟨(halive q hqp).mpr hlive, hc, hlt, ?_⟩
    split
    · exact if_neg fun heq => hqp (Option.some.inj heq)
    · simp
  case embryo =>
    intro c hc
    have hcp := hzombie c _ hc (by decide)
    obtain ⟨q, hq⟩ := h.embryo c (hstate c _ id hc hcp)
    exact ⟨q, (hforks q c).mpr hq⟩
  case one =>
    intro q q' c hq hq'
    exact h.one q q' c ((hforks q c).mp hq) ((hforks q' c).mp hq')
  case lives => intro q; rw [hlife, halloc]; exact h.lives q
  case distinct =>
    intro q q' hq hq'
    rw [hlife]
    exact h.distinct q q' (hused q hq) (hused q' hq')
  case nextpid => rw [hnext, halloc]; exact h.nextpid
  case pids =>
    intro q hq
    rw [hlife, (he.same q).1]
    exact h.pids q (hused q hq)

/-! ### `fork` and `wait` -/

/-- **A step of `p` on a slot `c` that is not alive.** Nobody is a child of `c` and nobody but
`p` forks it, so what has to be checked is the new entry `e` and the new place `b` of `p`. -/
theorem Shape.slot {c : Fin NPROC} {b : Base} (hp : Alive (t.proc p).state)
    (hc : ¬ Alive (t.proc c).state) (hforker : ∀ q, Forks t q c → q = p)
    (hold : ∀ stage c', t.base p = .fork stage c' → c' = c) (hinit : t'.initproc = t.initproc)
    (hproc : t'.proc = update t.proc c e) (hb : t'.base p = b)
    (hbase : ∀ q, q ≠ p → t'.base q = t.base q ∨ q = c ∧ t'.base q = .user)
    (hlife : ∀ q, q ≠ c → t'.life q = t.life q) (halloc : t.allocated ≤ t'.allocated)
    (hlive : t'.life c ≤ t'.allocated) (hnext : t'.nextpid = (t'.allocated + 1) % 2 ^ 32)
    (hunused : e.state = .UNUSED → e.parent = none)
    (hfamily : Alive e.state → e.parent = some p ∧ t.life p < t'.life c)
    (hzombie : e.state ≠ .ZOMBIE) (hembryo : e.state = .EMBRYO → ∃ stage, b = .fork stage c)
    (hfork : ∀ stage c', b = .fork stage c' → c' = c ∧ e.state = .EMBRYO ∧
      t.life p < t'.life c ∧ e.parent = if stage = .linked then some p else none)
    (hfresh : e.state ≠ .UNUSED → 0 < t'.life c ∧ e.pid = t'.life c % 2 ^ 32 ∧
      ∀ q, q ≠ c → (t.proc q).state ≠ .UNUSED → t.life q ≠ t'.life c) : Shape t' := by
  have hpc : p ≠ c := fun heq => hc (heq ▸ hp)
  have hself : t'.proc c = e := by rw [hproc, update_self]
  have hother : ∀ q, q ≠ c → t'.proc q = t.proc q := by
    intro q hq
    rw [hproc, update_of_ne hq]
  have hroot : t.initproc ≠ c := fun heq => hc (heq ▸ h.root.1)
  -- who is forking what, for the others
  have hforks : ∀ q, q ≠ p → ∀ stage c', t'.base q = .fork stage c' →
      t.base q = .fork stage c' ∧ q ≠ c ∧ c' ≠ c := by
    intro q hq stage c' hqb
    rcases hbase q hq with heq | ⟨-, heq⟩
    · rw [heq] at hqb
      refine ⟨hqb, fun hqc => ?_, fun hcc => ?_⟩
      · rw [hqc] at hqb
        exact hc (h.forks c stage c' hqb).1
      · rw [hcc] at hqb
        exact hq (hforker q ⟨stage, hqb⟩)
    · rw [heq] at hqb; cases hqb
  constructor
  case root =>
    rw [hinit, hother _ hroot, hlife _ hroot]
    exact h.root
  case unused =>
    intro q hq
    by_cases hqc : q = c
    · rw [hqc, hself] at hq ⊢; exact hunused hq
    · rw [hother q hqc] at hq ⊢; exact h.unused q hq
  case family =>
    intro q hq hs
    rw [hinit] at hq
    by_cases hqc : q = c
    · rw [hqc, hself] at hs
      rw [hqc, hself]
      obtain ⟨hparent, hlt⟩ := hfamily (hs.resolve_right hzombie)
      refine ⟨p, hparent, ?_, ?_⟩
      · rw [hother p hpc]; exact hp
      · rw [hlife p hpc]; exact hlt
    · rw [hother q hqc] at hs ⊢
      obtain ⟨r, hparent, hlive', hlt⟩ := h.family q hq hs
      have hrc : r ≠ c := fun heq => hc (heq ▸ hlive')
      refine ⟨r, hparent, ?_, ?_⟩
      · rw [hother r hrc]; exact hlive'
      · rw [hlife r hrc, hlife q hqc]; exact hlt
  case forks =>
    intro q stage c' hq
    by_cases hqp : q = p
    · rw [hqp, hb] at hq
      obtain ⟨rfl, hstate, hlt, hparent⟩ := hfork stage c' hq
      rw [hqp, hself, hother p hpc, hlife p hpc]
      exact ⟨hp, hstate, hlt, hparent⟩
    · obtain ⟨hq, hqc, hcc⟩ := hforks q hqp stage c' hq
      rw [hother q hqc, hother c' hcc, hlife q hqc, hlife c' hcc]
      exact h.forks q stage c' hq
  case embryo =>
    intro c' hs
    by_cases hcc : c' = c
    · rw [hcc, hself] at hs
      obtain ⟨stage, hstage⟩ := hembryo hs
      exact ⟨p, stage, by rw [hb, hstage, hcc]⟩
    rw [hother c' hcc] at hs
    obtain ⟨q, stage, hq⟩ := h.embryo c' hs
    have hqp : q ≠ p := fun heq => hcc (hold stage c' (heq ▸ hq))
    have hqc : q ≠ c := fun heq => hc (heq ▸ (h.forks q stage c' hq).1)
    refine ⟨q, stage, ?_⟩
    rcases hbase q hqp with heq | ⟨heq, -⟩
    · rw [heq, hq]
    · exact absurd heq hqc
  case one =>
    have huniq : ∀ q c', Forks t' q c' → c' = c → q = p := by
      rintro q c' ⟨stage, hq⟩ hcc
      by_contra hqp
      exact (hforks q hqp stage c' hq).2.2 hcc
    have hsame : ∀ q c', Forks t' q c' → c' ≠ c → Forks t q c' := by
      rintro q c' ⟨stage, hq⟩ hcc
      by_cases hqp : q = p
      · rw [hqp, hb] at hq
        exact absurd (hfork stage c' hq).1 hcc
      · exact ⟨stage, (hforks q hqp stage c' hq).1⟩
    intro q q' c' hq hq'
    by_cases hcc : c' = c
    · rw [huniq q c' hq hcc, huniq q' c' hq' hcc]
    · exact h.one q q' c' (hsame q c' hq hcc) (hsame q' c' hq' hcc)
  case lives =>
    intro q
    by_cases hqc : q = c
    · rw [hqc]; exact hlive
    · rw [hlife q hqc]; exact (h.lives q).trans halloc
  case distinct =>
    intro q q' hq hq' heq
    by_cases hqc : q = c
    · by_cases hqc' : q' = c
      · rw [hqc, hqc']
      rw [hqc, hself] at hq
      rw [hother q' hqc'] at hq'
      rw [hqc, hlife q' hqc'] at heq
      exact absurd heq.symm ((hfresh hq).2.2 q' hqc' hq')
    · rw [hother q hqc] at hq
      rw [hlife q hqc] at heq
      by_cases hqc' : q' = c
      · rw [hqc', hself] at hq'
        rw [hqc'] at heq
        exact absurd heq ((hfresh hq').2.2 q hqc hq)
      · rw [hother q' hqc'] at hq'
        rw [hlife q' hqc'] at heq
        exact h.distinct q q' hq hq' heq
  case nextpid => exact hnext
  case pids =>
    intro q hq
    by_cases hqc : q = c
    · rw [hqc, hself] at hq ⊢
      exact ⟨(hfresh hq).1, (hfresh hq).2.1⟩
    · rw [hother q hqc] at hq ⊢
      rw [hlife q hqc]
      exact h.pids q hq

theorem Shape.allocproc (hr : t.Runs p) (hb : t.base p = .user) (hnp : (t.proc np).state = .UNUSED) :
    Shape { t.embryo np with
      base := update (update t.base np .user) p (.fork .allocated np) } := by
  have hlt : ∀ q, t.life q < t.allocated + 1 := fun q => Nat.lt_succ_of_le (h.lives q)
  apply h.slot (b := .fork .allocated np) (alive_of_runs hr)
  case hc => rw [hnp]; exact id
  case hforker =>
    rintro q ⟨stage, hq⟩
    rw [(h.forks q stage np hq).2.1] at hnp
    cases hnp
  case hold => intro stage c' hstage; rw [hb] at hstage; cases hstage
  case hinit => rfl
  case hproc => rfl
  case hb => simp
  case hbase =>
    intro q hq
    by_cases hqn : q = np
    · subst hqn; exact .inr ⟨rfl, by simp [hq]⟩
    · exact .inl (by simp [hq, hqn])
  case hlife => intro q hq; simp [hq]
  case halloc => exact Nat.le_succ _
  case hlive => simp
  case hnext =>
    simp only [h.nextpid]
    omega
  case hunused => simp
  case hfamily => exact False.elim
  case hzombie => simp
  case hembryo => exact fun _ => ⟨.allocated, rfl⟩
  case hfork =>
    intro stage c' hstage
    cases hstage
    refine ⟨rfl, rfl, ?_, ?_⟩
    · simpa using hlt p
    · simpa using h.unused np hnp
  case hfresh =>
    intro _
    refine ⟨by simp, ?_, fun q _ _ => ?_⟩
    · simpa using h.nextpid
    · simpa using (hlt q).ne

/-- **A step of a fork in progress**: `p` changes the entry of `np` and moves on. -/
theorem Shape.forking {stage : Stage} {b : Base} (hb : t.base p = .fork stage np)
    (hpid : e.pid = (t.proc np).pid) (hunused : e.state = .UNUSED → e.parent = none)
    (hfamily : Alive e.state → e.parent = some p) (hzombie : e.state ≠ .ZOMBIE)
    (hembryo : e.state = .EMBRYO → ∃ stage', b = .fork stage' np)
    (hfork : ∀ stage' c', b = .fork stage' c' → c' = np ∧ e.state = .EMBRYO ∧
      e.parent = if stage' = .linked then some p else none) : Shape ((t.set np e).goto p b) := by
  obtain ⟨halive, hstate, hlt, -⟩ := h.forks p stage np hb
  have hused : (t.proc np).state ≠ .UNUSED := by rw [hstate]; decide
  apply h.slot (b := b) halive
  case hc => rw [hstate]; exact id
  case hforker => exact fun q hq => h.one q p np hq ⟨stage, hb⟩
  case hold => intro stage' c' hstage; rw [hb] at hstage; cases hstage; rfl
  case hinit => rfl
  case hproc => rfl
  case hb => simp [Table.goto]
  case hbase => intro q hq; exact .inl (by simp [Table.goto, Table.set, hq])
  case hlife => exact fun _ _ => rfl
  case halloc => exact Nat.le_refl _
  case hlive => exact h.lives np
  case hnext => exact h.nextpid
  case hunused => exact hunused
  case hfamily => exact fun hs => ⟨hfamily hs, hlt⟩
  case hzombie => exact hzombie
  case hembryo => exact hembryo
  case hfork =>
    intro stage' c' hstage
    obtain ⟨hc, hs, hparent⟩ := hfork stage' c' hstage
    exact ⟨hc, hs, hlt, hparent⟩
  case hfresh =>
    intro _
    obtain ⟨hpos, heq⟩ := h.pids np hused
    exact ⟨hpos, hpid.trans heq, fun q hq hq' hlife => hq (h.distinct q np hq' hused hlife)⟩

theorem Shape.abandon {stage : Stage} (hb : t.base p = .fork stage np) (hstage : stage ≠ .linked) :
    Shape (t.abandon p np) := by
  obtain ⟨-, -, -, hparent⟩ := h.forks p stage np hb
  rw [if_neg hstage] at hparent
  apply h.forking hb
  · rfl
  · exact fun _ => hparent
  · exact False.elim
  · simp
  · intro hs; cases hs
  · intro stage' c' hs; cases hs

theorem Shape.advance {stage stage' : Stage} (hb : t.base p = .fork stage np)
    (hstage : stage ≠ .linked) (hstage' : stage' ≠ .linked) :
    Shape (t.goto p (.fork stage' np)) := by
  obtain ⟨-, hembryo, -, hparent⟩ := h.forks p stage np hb
  rw [if_neg hstage] at hparent
  have hset : t.set np (t.proc np) = t := by simp [Table.set]
  rw [← hset]
  apply h.forking hb
  · rfl
  · exact fun _ => hparent
  · intro hs; rw [hembryo] at hs; exact absurd hs id
  · rw [hembryo]; decide
  · exact fun _ => ⟨stage', rfl⟩
  intro stage'' c' hs
  cases hs
  rw [if_neg hstage']
  exact ⟨rfl, hembryo, hparent⟩

theorem Shape.setParent (hb : t.base p = .fork .copied np) :
    Shape ((t.set np { t.proc np with parent := some p }).goto p (.fork .linked np)) := by
  obtain ⟨-, hembryo, -, -⟩ := h.forks p .copied np hb
  apply h.forking hb
  · rfl
  · intro hs; simp only [hembryo] at hs; cases hs
  · exact fun _ => rfl
  · simp only [hembryo]; decide
  · exact fun _ => ⟨.linked, rfl⟩
  · intro stage' c' hs
    cases hs
    exact ⟨rfl, hembryo, rfl⟩

theorem Shape.runnable (hb : t.base p = .fork .linked np) :
    Shape ((t.setState np .RUNNABLE).goto p .user) := by
  obtain ⟨-, -, -, hparent⟩ := h.forks p .linked np hb
  apply h.forking hb
  · rfl
  · intro hs; cases hs
  · exact fun _ => hparent
  · simp
  · intro hs; cases hs
  · intro stage' c' hs; cases hs

theorem Shape.reap {c : Fin NPROC} {r : Reaper} (hr : t.Runs p) (hb : t.base p = .reap r)
    (hzombie : (t.proc c).state = .ZOMBIE) : Shape ((Ptable.reap c t).goto p .user) := by
  apply h.slot (b := .user) (alive_of_runs hr)
  case hc => rw [hzombie]; exact id
  case hforker =>
    rintro q ⟨stage, hq⟩
    rw [(h.forks q stage c hq).2.1] at hzombie
    cases hzombie
  case hold => intro stage c' hstage; rw [hb] at hstage; cases hstage
  case hinit => rfl
  case hproc => rfl
  case hb => simp [Table.goto]
  case hbase => intro q hq; exact .inl (by simp [Table.goto, Ptable.reap, Table.set, hq])
  case hlife => exact fun _ _ => rfl
  case halloc => exact Nat.le_refl _
  case hlive => exact h.lives c
  case hnext => exact h.nextpid
  case hunused => exact fun _ => rfl
  case hfamily => exact False.elim
  case hzombie => simp
  case hembryo => intro hs; cases hs
  case hfork => intro stage c' hs; cases hs
  case hfresh => exact absurd rfl

omit h

/-! ### Runs -/

theorem find_zeroed :
    (List.finRange NPROC).find? (fun p => (zeroed.proc p).state = .UNUSED) = some 0 := rfl

theorem userinit_eq : userinit =
    { zeroed with
      proc := update zeroed.proc 0
        { state := .RUNNABLE, pid := 1, parent := none, chan := none, killed := false }
      nextpid := 2
      allocated := 1
      life := update zeroed.life 0 1
      named := update zeroed.named 0 false } := by
  simp only [userinit, Ptable.allocproc, find_zeroed]
  simp [zeroed, Table.setState, Table.set]

theorem userinit_proc (p : Fin NPROC) :
    p = 0 ∧ userinit.proc p =
      { state := .RUNNABLE, pid := 1, parent := none, chan := none, killed := false } ∨
    p ≠ 0 ∧ userinit.proc p = zeroed.proc p := by
  rw [userinit_eq]
  by_cases hp : p = 0
  · subst hp; exact .inl ⟨rfl, by simp⟩
  · exact .inr ⟨hp, by simp [hp]⟩

theorem shape_userinit : Shape userinit := by
  have hlife : ∀ p, userinit.life p = if p = 0 then 1 else 0 := by
    intro p
    rw [userinit_eq]
    simp [zeroed, update_apply]
  -- only init is not UNUSED
  have hused : ∀ p, (userinit.proc p).state ≠ .UNUSED → p = 0 := by
    intro p hp
    rcases userinit_proc p with ⟨hp0, -⟩ | ⟨-, heq⟩
    · exact hp0
    · rw [heq] at hp; exact absurd rfl hp
  have hforks : ∀ q c, ¬ Forks userinit q c := by
    rintro q c ⟨stage, hq⟩
    cases hq
  constructor
  case root => exact ⟨trivial, rfl, rfl⟩
  case unused =>
    intro p _
    rcases userinit_proc p with ⟨-, heq⟩ | ⟨-, heq⟩
    · rw [heq]
    · rw [heq]; rfl
  case family =>
    intro p hp hs
    refine absurd (hused p fun hun => ?_) hp
    rw [hun] at hs
    rcases hs with hs | hs
    · exact hs
    · cases hs
  case forks => exact fun q stage c hq => absurd ⟨stage, hq⟩ (hforks q c)
  case embryo =>
    intro c hc
    rcases userinit_proc c with ⟨-, heq⟩ | ⟨-, heq⟩ <;> rw [heq] at hc <;> cases hc
  case one => exact fun q _ c hq => absurd hq (hforks q c)
  case lives =>
    intro p
    rw [hlife, userinit_eq]
    split <;> simp
  case distinct => exact fun p q hp hq _ => (hused p hp).trans (hused q hq).symm
  case nextpid => rfl
  case pids =>
    intro p hp
    rw [hused p hp]
    exact ⟨Nat.one_pos, rfl⟩

theorem Shape.step {a : Action} (h : Shape t) (hs : step t a = some t') : Shape t' := by
  cases stepped_of_step hs with
  | schedule p hstate =>
    refine h.set rfl rfl (.inr ⟨?_, trivial⟩)
    rw [hstate]
    trivial
  | yield p hr | sleep p a hr | sleeps p r hr =>
    exact h.set rfl rfl (.inr ⟨alive_of_runs hr, trivial⟩)
  | tidy | fault => exact h.set rfl rfl (.inl rfl)
  | wakeup => exact (wander_wakeup1 _).shape h
  | kill pid => exact (wander_kill pid).shape h
  | full => exact h
  | allocproc p np hr hb hnp => exact h.allocproc hr hb hnp
  | kallocFails p np hr hb | copyuvmFails p np hr hb => exact h.abandon hb (by decide)
  | kalloc p np hr hb | copyuvm p np hr hb => exact h.advance hb (by decide) (by decide)
  | setParent p np hr hb => exact h.setParent hb
  | runnable p np hr hb => exact h.runnable hb
  | exit p hr hb hroot => exact h.exit hr hb hroot (exited_exit p t)
  | reap p r hr hb | fails p r hr hb | loadParent p hr hb | loadPid p q hr hb =>
    exact (wander_goto (by simp [hb]) (by simp)).shape h
  | reaped p c r hr hb hparent hzombie => exact h.reap hr hb hzombie

theorem shape_of_reached (h : system.Reached t) : Shape t := by
  refine h.invariant ?_ fun _ _ _ ih _ hs => ih.step hs
  rintro _ rfl
  exact shape_userinit

end Xv6.Ptable
