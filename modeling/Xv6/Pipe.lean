import Mathlib.Data.Fintype.Basic
import Xv6.Fifo
import Xv6.Monitor

/-!
**Pipes** (`pipe.c`): `pipewrite`, `piperead` and `pipeclose` by any number of processes
on one pipe, with `sleep`, `wakeup` and `kill` of `proc.c` as in `Monitor`.

Each of the three is a state machine over the program points between which another process
can be seen to act. The point at which a full pipe is found is its own, since `killed` may
be set between that test and the next.

Three lists are carried along that the kernel does not keep: the `pipewrite` calls made,
the bytes stored, each with the number of its call, and the bytes delivered.
-/

namespace Xv6.Pipes

open Monitor Fifo Function List

def PIPESIZE : Nat := 512

instance : NeZero PIPESIZE := ⟨by decide⟩

theorem pipesize_lt : PIPESIZE < 2 ^ 32 := by decide

theorem pipesize_dvd : PIPESIZE ∣ 2 ^ 32 := by decide

/-! ### The pipe and its history -/

/-- `struct pipe` without its lock: `data`, `nread` and `nwrite` are the ring. -/
structure Pipe extends Ring PIPESIZE UInt8 where
  readopen : Bool
  writeopen : Bool

/-- The two channels processes sleep on, `&p->nread` and `&p->nwrite`. -/
inductive Chan where
  | nread
  | nwrite
  deriving DecidableEq

structure Shared (P : Type) where
  pipe : Pipe
  /-- The `pipewrite` calls so far: who made them, and the bytes to write. -/
  requests : List (P × List UInt8)
  /-- The bytes stored so far, each with its call. -/
  stored : List (Nat × UInt8)
  /-- The bytes delivered so far. -/
  delivered : List UInt8

namespace Shared

variable {P : Type}

/-- The pipe as `pipealloc` sets it up, whatever is in its page. -/
def Fresh (x : Shared P) : Prop :=
  x.pipe.nread = 0 ∧ x.pipe.nwrite = 0 ∧ x.pipe.readopen = true ∧ x.pipe.writeopen = true ∧
    x.requests = [] ∧ x.stored = [] ∧ x.delivered = []

def bytes (x : Shared P) : List UInt8 := x.stored.map Prod.snd

/-- The bytes call `id` has stored so far. -/
def bytesOf (x : Shared P) (id : Nat) : List UInt8 :=
  (x.stored.filter fun e => e.1 = id).map Prod.snd

/-- `p->data[p->nwrite++ % PIPESIZE] = b`, on behalf of call `id`. -/
def store (x : Shared P) (id : Nat) (b : UInt8) : Shared P :=
  { x with
    pipe := { x.pipe with toRing := x.pipe.toRing.put b }
    stored := x.stored ++ [(id, b)] }

def deliver (x : Shared P) : Shared P :=
  { x with
    pipe := { x.pipe with toRing := x.pipe.toRing.advance }
    delivered := x.delivered ++ [x.pipe.toRing.front] }

def shut (x : Shared P) (writable : Bool) : Shared P :=
  { x with pipe :=
      if writable then { x.pipe with writeopen := false }
      else { x.pipe with readopen := false } }

end Shared

/-! ### The calls -/

inductive Call where
  | pipewrite (addr : List UInt8)
  | piperead (n : Nat)
  | pipeclose (writable : Bool)

/-- Program points. `dirty` tells whether the call has stored a byte since it entered or
last woke the readers; the code does not keep it. -/
inductive Point (P : Type) where
  /-- `pipewrite`, just entered. -/
  | wbegin (p : P) (addr : List UInt8)
  /-- At the head of the `for` loop. -/
  | wloop (id : Nat) (addr : List UInt8) (i : Nat) (dirty : Bool)
  /-- The pipe was full. -/
  | wfull (id : Nat) (addr : List UInt8) (i : Nat) (dirty : Bool)
  /-- The readers have been woken: about to sleep. -/
  | wsleep (id : Nat) (addr : List UInt8) (i : Nat)
  /-- About to release and return `n`. -/
  | wret (id : Nat) (addr : List UInt8)
  /-- `piperead`, at the head of the `while` loop. -/
  | rloop (n : Nat)
  /-- The pipe was empty. -/
  | rempty (n : Nat)
  /-- At the head of the `for` loop. -/
  | rcopy (n i : Nat)
  /-- About to release and return `i`. -/
  | rret (n i : Nat)
  /-- `pipeclose`, just entered. -/
  | close (writable : Bool)
  | closed (writable : Bool)
  | cret
  deriving DecidableEq

variable {P : Type} {x x' : Shared P}

/-- What the three functions do at each point; leaving `wfull` or `rempty` by a release
returns -1. -/
def next : Point P → Shared P → Bool → Act (Shared P) Chan (Point P)
  | .wbegin p addr, x, _ =>
      .set { x with requests := x.requests ++ [(p, addr)] }
        (.wloop x.requests.length addr 0 false)
  | .wloop id addr i dirty, x, _ =>
      match addr[i]? with
      | none => .wakeup .nread (.wret id addr)
      | some b =>
          if x.pipe.toRing.IsFull then .set x (.wfull id addr i dirty)
          else .set (x.store id b) (.wloop id addr (i + 1) true)
  | .wfull id addr i _, x, killed =>
      if x.pipe.readopen = false ∨ killed = true then .release
      else .wakeup .nread (.wsleep id addr i)
  | .wsleep id addr i, _, _ => .sleep .nwrite (.wloop id addr i false)
  | .wret _ _, _, _ => .release
  | .rloop n, x, _ =>
      if x.pipe.toRing.IsEmpty ∧ x.pipe.writeopen = true then .set x (.rempty n)
      else .set x (.rcopy n 0)
  | .rempty n, _, killed => if killed then .release else .sleep .nread (.rloop n)
  | .rcopy n i, x, _ =>
      if i < n ∧ ¬ x.pipe.toRing.IsEmpty then .set x.deliver (.rcopy n (i + 1))
      else .wakeup .nwrite (.rret n i)
  | .rret _ _, _, _ => .release
  | .close writable, x, _ => .set (x.shut writable) (.closed writable)
  | .closed writable, _, _ => .wakeup (if writable then .nread else .nwrite) .cret
  | .cret, _, _ => .release

def code : Code P (Shared P) Chan (Point P) Call where
  start p
    | .pipewrite addr => .wbegin p addr
    | .piperead n => .rloop n
    | .pipeclose writable => .close writable
  next := next

/-- The point is in a call on the write end (`writable`) or on the read end. -/
def Point.Uses (writable : Bool) : Point P → Bool
  | .wbegin _ _ | .wloop _ _ _ _ | .wfull _ _ _ _ | .wsleep _ _ _ | .wret _ _ => writable
  | .rloop _ | .rempty _ | .rcopy _ _ | .rret _ _ => !writable
  | .close w | .closed w => w == writable
  | .cret => false

def busy (writable : Bool) : Mode Chan (Point P) → Bool
  | .out => false
  | .wants k | .inside k | .waking _ k | .woke k | .dropping _ k | .marking _ k | .asleep _ k
  | .ready k => k.Uses writable

/-- What the file layer lets happen: a process that reads or writes has the end open, and an
end is closed once, when the last descriptor of it is gone and nobody is in a call on it. -/
def May (s : State P (Shared P) Chan (Point P)) (_ : P) : Call → Prop
  | .pipewrite _ => s.shared.pipe.writeopen = true
  | .piperead _ => s.shared.pipe.readopen = true
  | .pipeclose writable =>
      (if writable then s.shared.pipe.writeopen else s.shared.pipe.readopen) = true ∧
        ∀ q, busy writable (s.mode q) = false

instance [Fintype P] (s : State P (Shared P) Chan (Point P)) (p : P) (c : Call) :
    Decidable (May s p c) := by
  cases c <;> unfold May <;> infer_instance

def system (P : Type) [Fintype P] [DecidableEq P] :
    Transition.System (State P (Shared P) Chan (Point P)) (Label P Call) :=
  Monitor.system code May Shared.Fresh

/-! ### The proof outline -/

/-- What holds of the pipe and its history at all times. -/
structure Sound (x : Shared P) : Prop where
  ring : Carries x.pipe.toRing x.bytes x.delivered.length
  fifo : x.delivered <+: x.bytes
  ids : ∀ e ∈ x.stored, e.1 < x.requests.length
  calls : ∀ id p addr, x.requests[id]? = some (p, addr) → x.bytesOf id <+: addr

/-- A call in progress has stored the first `i` of its bytes, and all of them in the end. -/
def Keeps (p : P) : Point P → Shared P → Prop
  | .wbegin q _, _ => q = p
  | .wloop id addr i _, x | .wfull id addr i _, x | .wsleep id addr i, x =>
      x.requests[id]? = some (p, addr) ∧ x.bytesOf id = addr.take i
  | .wret id addr, x => x.requests[id]? = some (p, addr) ∧ x.bytesOf id = addr
  | _, _ => True

/-- What the process inside knows of the pipe. -/
def Here : Point P → Shared P → Prop
  | .wfull _ _ _ _, x => x.pipe.toRing.IsFull
  | .wsleep _ _ _, x => x.pipe.toRing.IsFull ∧ x.pipe.readopen = true
  | .rempty _, x => x.pipe.toRing.IsEmpty ∧ x.pipe.writeopen = true
  | .rcopy _ i, x => i = 0 → x.pipe.toRing.IsEmpty → x.pipe.writeopen = false
  | .rret n i, x => i = 0 → 0 < n → x.pipe.toRing.IsEmpty ∧ x.pipe.writeopen = false
  | _, _ => True

/-- Readers sleep on an empty pipe, writers on a full one, while the other end is open. -/
def Wait : Chan → Shared P → Prop
  | .nread, x => x.pipe.toRing.IsEmpty ∧ x.pipe.writeopen = true
  | .nwrite, x => x.pipe.toRing.IsFull ∧ x.pipe.readopen = true

/-- A writer that has stored owes the readers a wakeup, a reader that may have taken owes
the writers one, and so does whoever has closed the other end. -/
def Owes : Point P → Chan → Prop
  | .wloop _ _ _ dirty, .nread | .wfull _ _ _ dirty, .nread => dirty = true
  | .rcopy _ _, .nwrite => True
  | .closed true, .nread | .closed false, .nwrite => True
  | _, _ => False

def outline : Outline (P := P) code where
  inv := Sound
  keeps := Keeps
  here _ := Here
  wait := Wait
  owes := Owes

/-! ### The steps keep the history -/

theorem Sound.fresh (h : x.Fresh) : Sound x := by
  obtain ⟨hr, hw, -, -, hreq, hst, hdel⟩ := h
  have hb : x.bytes = [] := by simp [Shared.bytes, hst]
  refine ⟨⟨?_, ?_, ?_, ?_, ?_⟩, ?_, ?_, ?_⟩
  · simp [hr, hdel]
  · simp [hw, hb]
  · simp [hdel]
  · simp [hb]
  · simp [hb]
  · simp [hdel]
  · simp [hst]
  · simp [hreq]

@[simp] theorem bytes_store (x : Shared P) (id : Nat) (b : UInt8) :
    (x.store id b).bytes = x.bytes ++ [b] := by
  simp [Shared.store, Shared.bytes]

theorem bytesOf_store_self (x : Shared P) (id : Nat) (b : UInt8) :
    (x.store id b).bytesOf id = x.bytesOf id ++ [b] := by
  simp [Shared.store, Shared.bytesOf]

theorem bytesOf_store_ne (x : Shared P) {id id' : Nat} (b : UInt8) (h : id ≠ id') :
    (x.store id b).bytesOf id' = x.bytesOf id' := by
  simp [Shared.store, Shared.bytesOf, h]

theorem Sound.bytesOf_new (h : Sound x) : x.bytesOf x.requests.length = [] := by
  simp only [Shared.bytesOf, map_eq_nil_iff, filter_eq_nil_iff, decide_eq_true_eq]
  intro e he heq
  exact absurd (heq ▸ h.ids e he) (lt_irrefl _)

theorem Sound.begin (h : Sound x) (p : P) (addr : List UInt8) :
    Sound { x with requests := x.requests ++ [(p, addr)] } := by
  refine ⟨h.ring, h.fifo, ?_, ?_⟩
  · intro e he
    have := h.ids e he
    simp only [length_append]
    omega
  · intro id q addr' hreq
    rcases Nat.lt_or_ge id x.requests.length with hlt | hge
    · rw [List.getElem?_append_left hlt] at hreq
      exact h.calls id q addr' hreq
    have hid : x.bytesOf id = [] := by
      simp only [Shared.bytesOf, map_eq_nil_iff, filter_eq_nil_iff, decide_eq_true_eq]
      intro e he heq
      have := h.ids e he
      omega
    have hnil : Shared.bytesOf { x with requests := x.requests ++ [(p, addr)] } id = [] := hid
    rw [hnil]
    exact nil_prefix

theorem take_succ_of_getElem? {l : List UInt8} {i : Nat} {b : UInt8} (h : l[i]? = some b) :
    l.take (i + 1) = l.take i ++ [b] := by
  rw [take_add_one, h]
  rfl

theorem Sound.store (h : Sound x) {p : P} {id i : Nat} {addr : List UInt8} {b : UInt8}
    (hk : x.requests[id]? = some (p, addr) ∧ x.bytesOf id = addr.take i) (hb : addr[i]? = some b)
    (hfull : ¬ x.pipe.toRing.IsFull) : Sound (x.store id b) := by
  refine ⟨?_, ?_, ?_, ?_⟩
  · rw [bytes_store]
    exact h.ring.put pipesize_lt pipesize_dvd hfull b
  · rw [bytes_store]
    exact h.fifo.trans (prefix_append _ _)
  · intro e he
    have hid : id < x.requests.length := (List.getElem?_eq_some_iff.mp hk.1).1
    rcases mem_append.mp he with hold | hnew
    · exact h.ids e hold
    · rw [mem_singleton.mp hnew]
      exact hid
  · intro id' q addr' hreq
    rcases eq_or_ne id id' with rfl | hne
    · rw [show (x.store id b).requests = x.requests from rfl, hk.1] at hreq
      cases hreq
      rw [bytesOf_store_self, hk.2, ← take_succ_of_getElem? hb]
      exact take_prefix _ _
    · rw [bytesOf_store_ne x b hne]
      exact h.calls id' q addr' hreq

theorem Sound.deliver (h : Sound x) (hne : ¬ x.pipe.toRing.IsEmpty) : Sound x.deliver := by
  obtain ⟨hfront, hring⟩ := h.ring.advance pipesize_lt pipesize_dvd hne
  refine ⟨?_, ?_, h.ids, h.calls⟩
  · have : x.deliver.delivered.length = x.delivered.length + 1 := by simp [Shared.deliver]
    rw [this]
    exact hring
  have hpre : x.delivered = x.bytes.take x.delivered.length :=
    prefix_iff_eq_take.mp h.fifo
  have hdel : x.deliver.delivered = x.bytes.take (x.delivered.length + 1) := by
    rw [take_succ_of_getElem? hfront, ← hpre]
    rfl
  rw [hdel]
  exact take_prefix _ _

/-! ### The outline is valid -/

/-- What a call can do to the pipe, and from which point to which. -/
inductive Sets : Point P → Shared P → Shared P → Point P → Prop where
  | start (p : P) (addr : List UInt8) (x : Shared P) :
      Sets (.wbegin p addr) x { x with requests := x.requests ++ [(p, addr)] }
        (.wloop x.requests.length addr 0 false)
  | full (id : Nat) (addr : List UInt8) (i : Nat) (dirty : Bool) {x : Shared P} :
      x.pipe.toRing.IsFull → Sets (.wloop id addr i dirty) x x (.wfull id addr i dirty)
  | store (id : Nat) {addr : List UInt8} {i : Nat} (dirty : Bool) {b : UInt8} {x : Shared P} :
      addr[i]? = some b → ¬ x.pipe.toRing.IsFull →
      Sets (.wloop id addr i dirty) x (x.store id b) (.wloop id addr (i + 1) true)
  | empty (n : Nat) {x : Shared P} : x.pipe.toRing.IsEmpty ∧ x.pipe.writeopen = true →
      Sets (.rloop n) x x (.rempty n)
  | copy (n : Nat) {x : Shared P} : ¬ (x.pipe.toRing.IsEmpty ∧ x.pipe.writeopen = true) →
      Sets (.rloop n) x x (.rcopy n 0)
  | deliver {n i : Nat} {x : Shared P} : i < n → ¬ x.pipe.toRing.IsEmpty →
      Sets (.rcopy n i) x x.deliver (.rcopy n (i + 1))
  | shut (writable : Bool) (x : Shared P) :
      Sets (.close writable) x (x.shut writable) (.closed writable)

variable {k k' : Point P}

theorem sets_of_next {b : Bool} (h : next k x b = .set x' k') : Sets k x x' k' := by
  cases k with
  | wbegin p addr =>
    cases h
    exact .start p addr x
  | wloop id addr i dirty =>
    simp only [next] at h
    split at h
    · cases h
    rename_i c hc
    split at h
    next hfull =>
      cases h
      exact .full id addr i dirty hfull
    next hfull =>
      cases h
      exact .store id dirty hc hfull
  | wfull | rempty =>
    simp only [next] at h
    split at h <;> cases h
  | rloop n =>
    simp only [next] at h
    split at h
    next he =>
      cases h
      exact .empty n he
    next he =>
      cases h
      exact .copy n he
  | rcopy n i =>
    simp only [next] at h
    split at h
    next hi =>
      cases h
      exact .deliver hi.1 hi.2
    · cases h
  | close w =>
    cases w <;> cases h
    · exact .shut false x
    · exact .shut true x
  | wsleep | wret | rret | closed | cret => cases h

theorem Keeps.congr {p : P} (h : Keeps p k x)
    (hreq : ∀ (id : Nat) r, x.requests[id]? = some r → x'.requests[id]? = some r)
    (hst : ∀ (id : Nat) addr, x.requests[id]? = some (p, addr) → x'.bytesOf id = x.bytesOf id) :
    Keeps p k x' := by
  cases k with
  | wloop id addr i _ | wfull id addr i _ | wsleep id addr | wret id addr =>
    exact ⟨hreq id _ h.1, (hst id addr h.1).trans h.2⟩
  | _ => exact h

theorem Sets.others {p q : P} {kq : Point P} (h : Sets k x x' k') (hp : Keeps p k x) (hne : q ≠ p)
    (hq : Keeps q kq x) : Keeps q kq x' := by
  cases h with
  | start r =>
    apply hq.congr
    · intro id r hr
      rw [List.getElem?_append_left (List.getElem?_eq_some_iff.mp hr).1]
      exact hr
    · intro id addr' _
      rfl
  | store =>
    apply hq.congr
    · intro id' r hr
      exact hr
    intro id' addr' hr
    apply bytesOf_store_ne
    rintro rfl
    rw [hp.1] at hr
    cases hr
    exact hne rfl
  | deliver _ _ | shut => exact hq.congr (fun _ _ hr => hr) (fun _ _ _ => rfl)
  | full | empty | copy => exact hq

theorem Sets.sound {p : P} (h : Sets k x x' k') (hi : Sound x) (hk : Keeps p k x) :
    Sound x' ∧ Keeps p k' x' ∧ Here k' x' := by
  cases h with
  | start q addr =>
    cases hk
    refine ⟨hi.begin p addr, ⟨?_, ?_⟩, trivial⟩
    · simp
    · exact hi.bytesOf_new
  | full id addr i dirty hfull => exact ⟨hi, hk, hfull⟩
  | store id dirty hb hfull =>
    refine ⟨hi.store hk hb hfull, ⟨hk.1, ?_⟩, trivial⟩
    rw [bytesOf_store_self, hk.2, take_succ_of_getElem? hb]
  | empty n he => exact ⟨hi, trivial, he⟩
  | copy n he =>
    refine ⟨hi, trivial, fun _ hemp => ?_⟩
    simpa [hemp] using he
  | deliver hn hne =>
    refine ⟨hi.deliver hne, trivial, fun h0 => ?_⟩
    cases h0
  | shut w =>
    refine ⟨?_, trivial, trivial⟩
    cases w <;> exact ⟨hi.ring, hi.fifo, hi.ids, hi.calls⟩

theorem Sets.wait (h : Sets k x x' k') (c : Chan) (hc : Wait c x ∨ Owes k c) :
    Wait c x' ∨ Owes k' c := by
  cases h with
  | start =>
    rcases hc with hw | ho
    · cases c <;> exact .inl hw
    · cases c <;> cases ho
  | full =>
    rcases hc with hw | ho
    · exact .inl hw
    · cases c <;> exact .inr ho
  | store id dirty hb hfull =>
    cases c with
    | nread => exact .inr rfl
    | nwrite =>
      rcases hc with hw | ho
      · exact absurd hw.1 hfull
      · cases ho
  | empty | copy =>
    rcases hc with hw | ho
    · exact .inl hw
    · cases c <;> cases ho
  | deliver hn hne =>
    cases c with
    | nread =>
      rcases hc with hw | ho
      · exact absurd hw.1 hne
      · cases ho
    | nwrite => exact .inr trivial
  | shut w =>
    -- closing an end hurts the sleepers at the other end only, and those it owes
    rcases hc with hw | ho
    · cases w <;> cases c
      · exact .inl hw
      · exact .inr trivial
      · exact .inr trivial
      · exact .inl hw
    · cases c <;> cases ho

theorem outline_valid : (outline (P := P)).Valid where
  start p c x _ := by
    cases c with
    | pipewrite => exact ⟨rfl, fun _ _ _ => trivial⟩
    | _ => exact ⟨trivial, fun _ _ _ => trivial⟩
  set hi hk _ hn := by
    obtain ⟨h1, h2, h3⟩ := (sets_of_next hn).sound hi hk
    exact ⟨h1, h2, h3, (sets_of_next hn).wait⟩
  others _ hk _ hn hne hq := (sets_of_next hn).others hk hne hq
  wakeup {p k k' x b c} hi hk hh hn := by
    change next k x b = .wakeup c k' at hn
    cases k with
    | wloop =>
      simp only [next] at hn
      split at hn
      next hend =>
        cases hn
        have hall := take_of_length_le (List.getElem?_eq_none_iff.mp hend)
        refine ⟨⟨hk.1, hk.2.trans hall⟩, trivial, fun c' hc' ho => ?_⟩
        cases c' with
        | nread => exact absurd rfl hc'
        | nwrite => exact ho
      · split at hn <;> cases hn
    | wfull id addr i dirty =>
      simp only [next] at hn
      split at hn
      · cases hn
      rename_i hgo
      cases hn
      refine ⟨hk, ⟨hh, ?_⟩, fun c' hc' ho => ?_⟩
      · simpa using (not_or.mp hgo).1
      · cases c' with
        | nread => exact absurd rfl hc'
        | nwrite => exact ho
    | rloop | rempty =>
      simp only [next] at hn
      split at hn <;> cases hn
    | rcopy n i =>
      simp only [next] at hn
      split at hn
      · cases hn
      rename_i hend
      cases hn
      refine ⟨trivial, ?_, fun c' hc' ho => ?_⟩
      · intro h0 hpos
        have hemp : x.pipe.toRing.IsEmpty := by
          by_contra hne
          exact hend ⟨h0 ▸ hpos, hne⟩
        exact ⟨hemp, hh h0 hemp⟩
      · cases c' with
        | nread => exact ho
        | nwrite => exact absurd rfl hc'
    | closed w =>
      cases hn
      refine ⟨trivial, trivial, fun c' hc' ho => ?_⟩
      cases w <;> cases c' <;> first | exact absurd rfl hc' | exact ho
    | wbegin | wsleep | wret | rret | close | cret => cases hn
  sleep {p k k' x b c} hi hk hh hn := by
    change next k x b = .sleep c k' at hn
    cases k with
    | wsleep =>
      cases hn
      exact ⟨hh, hk, fun _ _ _ => trivial⟩
    | rempty =>
      simp only [next] at hn
      split at hn
      · cases hn
      · cases hn
        exact ⟨hh, trivial, fun _ _ _ => trivial⟩
    | wloop =>
      simp only [next] at hn
      split at hn
      · cases hn
      · split at hn <;> cases hn
    | wfull | rloop | rcopy =>
      simp only [next] at hn
      split at hn <;> cases hn
    | wbegin | wret | rret | close | closed | cret => cases hn

/-! ### Pipes are lossless FIFO byte streams -/

section

variable [Fintype P] [DecidableEq P] {s : State P (Shared P) Chan (Point P)} {p : P}

/-- **A pipe is a FIFO byte stream.** Never more than `PIPESIZE` bytes are inside; what is
delivered is a prefix of what was stored; each call's bytes are stored in order, and all of them
by the time `pipewrite` is about to return their number; and a `piperead` about to return 0 for a
positive count has seen the write end closed and everything delivered. -/
theorem pipe_is_fifo (hr : (system P).Reached s) :
    (s.shared.pipe.nwrite - s.shared.pipe.nread).toNat ≤ PIPESIZE ∧
    s.shared.delivered <+: s.shared.bytes ∧
    (∀ e ∈ s.shared.stored, e.1 < s.shared.requests.length) ∧
    (∀ id p addr, s.shared.requests[id]? = some (p, addr) → s.shared.bytesOf id <+: addr) ∧
    (∀ p id addr, s.mode p = .inside (.wret id addr) →
      s.shared.requests[id]? = some (p, addr) ∧ s.shared.bytesOf id = addr) ∧
    ∀ p n, 0 < n → s.mode p = .inside (.rret n 0) →
      s.shared.pipe.writeopen = false ∧ s.shared.delivered = s.shared.bytes := by
  obtain ⟨hi, hinside⟩ := Outline.holds_of_reached outline_valid (fun _ => Sound.fresh) hr
  refine ⟨?_, hi.fifo, hi.ids, hi.calls, fun p id addr hp => (hinside p _ hp).1, ?_⟩
  · rw [hi.ring.size pipesize_lt]
    have := hi.ring.room
    omega
  intro p n hn hp
  obtain ⟨hemp, hclosed⟩ := (hinside p _ hp).2 rfl hn
  have hlen := (hi.ring.isEmpty_iff pipesize_lt).mp hemp
  exact ⟨hclosed, hi.fifo.eq_of_length hlen⟩

/-! ### Sleepers on a pipe -/

/-- While the lock is free, readers are asleep on an empty pipe and writers on a full one,
with the other end open. -/
def NoLostWakeup (s : State P (Shared P) Chan (Point P)) : Prop :=
  s.lk = none → ∀ p k,
    (s.mode p = .asleep .nread k →
      s.shared.pipe.nread = s.shared.pipe.nwrite ∧ s.shared.pipe.writeopen = true) ∧
    (s.mode p = .asleep .nwrite k →
      s.shared.pipe.nwrite = s.shared.pipe.nread + UInt32.ofNat PIPESIZE ∧
        s.shared.pipe.readopen = true)

/-- Process `p` is about to return -1 from `pipewrite`: the pipe was full, and the readers
are gone or `p` has been killed. -/
def givesUp (s : State P (Shared P) Chan (Point P)) (p : P) : Bool :=
  match s.mode p with
  | .inside (.wfull _ _ _ _) => !s.shared.pipe.readopen || s.killed p
  | _ => false

/-- No `pipewrite` gives up while somebody sleeps on `&p->nread`. -/
def LeavesNobody (s : State P (Shared P) Chan (Point P)) : Label P Call → Prop
  | .go p => givesUp s p = true → ∀ q, ¬ (s.mode q).SleepsOn .nread
  | _ => True

instance (s : State P (Shared P) Chan (Point P)) (a : Label P Call) :
    Decidable (LeavesNobody s a) := by
  cases a <;> unfold LeavesNobody <;> infer_instance

omit [Fintype P] [DecidableEq P] in
theorem settled_of_leavesNobody (h : LeavesNobody s (.go p)) :
    Outline.Settled code outline s p := by
  intro k c hp ho hleave
  change (next k _ _ = _ ∨ ∃ c' k', next k _ _ = .sleep c' k') at hleave
  cases k with
  | wfull id addr i dirty =>
    cases c with
    | nread =>
      apply h
      simp only [next] at hleave
      split at hleave
      next hgive => simpa [givesUp, hp] using hgive
      · rcases hleave with hrel | ⟨_, _, hsl⟩
        · cases hrel
        · cases hsl
    | nwrite => cases ho
  | wloop =>
    simp only [next] at hleave
    split at hleave
    · rcases hleave with hrel | ⟨_, _, hsl⟩
      · cases hrel
      · cases hsl
    · split at hleave <;> rcases hleave with hrel | ⟨_, _, hsl⟩ <;> first | cases hrel | cases hsl
  | rcopy =>
    simp only [next] at hleave
    split at hleave <;> rcases hleave with hrel | ⟨_, _, hsl⟩ <;> first | cases hrel | cases hsl
  | closed =>
    rcases hleave with hrel | ⟨_, _, hsl⟩
    · cases hrel
    · cases hsl
  | _ => cases c <;> cases ho

omit [Fintype P] [DecidableEq P] in
theorem givesUp_iff : givesUp s p = true ↔ ∃ id addr i dirty,
    s.mode p = .inside (.wfull id addr i dirty) ∧
      (s.shared.pipe.readopen = false ∨ s.killed p = true) := by
  unfold givesUp
  split
  next id addr i dirty hp => simp [hp]
  rename_i hno
  simp only [Bool.false_eq_true, false_iff]
  rintro ⟨id, addr, i, dirty, hp, -⟩
  exact hno id addr i dirty hp

/-- **A `pipewrite` that gives up leaves the sleeping readers asleep on a full pipe.** -/
theorem stranded_of_givesUp {q : P} (hr : (system P).Reached s) (hg : givesUp s p = true)
    (hq : (s.mode q).SleepsOn .nread) :
    ∃ as s' k, (system P).run (fun _ _ => True) s (.go p :: as) = some s' ∧ s'.lk = none ∧
      s'.mode q = .asleep .nread k ∧ s'.shared.pipe.nread ≠ s'.shared.pipe.nwrite := by
  obtain ⟨hi, hinside⟩ := Outline.holds_of_reached outline_valid (fun _ => Sound.fresh) hr
  obtain ⟨id, addr, i, dirty, hp, hgive⟩ := givesUp_iff.mp hg
  have hfull : s.shared.pipe.toRing.IsFull := (hinside p _ hp).2
  have hne : s.shared.pipe.nread ≠ s.shared.pipe.nwrite := by
    intro hemp
    have h1 := (hi.ring.isEmpty_iff pipesize_lt).mp hemp
    have h2 := (hi.ring.isFull_iff pipesize_lt).mp hfull
    rw [← h1] at h2
    simp [PIPESIZE] at h2
  have hqp : q ≠ p := by
    rintro rfl
    rw [hp] at hq
    exact hq
  -- `p` releases the lock and returns -1
  let s1 : State P (Shared P) Chan (Point P) := { s with lk := none }.goto p .out
  have hs1 : (system P).step s (.go p) = some s1 := by
    change Monitor.go code s p = some s1
    have hn : code.next (.wfull id addr i dirty) s.shared (s.killed p) = .release := by
      simp only [code, next, if_pos hgive]
    simp only [Monitor.go, hp, hn]
    rfl
  have hq1 : s1.mode q = s.mode q := update_of_ne hqp _ _
  cases hmq : s.mode q with
  | asleep c k =>
    rw [hmq] at hq
    cases hq
    refine ⟨[], s1, k, ?_, rfl, hq1.trans hmq, hne⟩
    simp [Transition.System.run, hs1]
  | marking c k =>
    -- a reader that is not marked asleep yet is so after one more step
    rw [hmq] at hq
    cases hq
    let s2 : State P (Shared P) Chan (Point P) :=
      { s1 with ptable := none }.goto q (.asleep .nread k)
    have hs2 : (system P).step s1 (.go q) = some s2 := by
      change Monitor.go code s1 q = some s2
      simp only [Monitor.go, hq1.trans hmq]
      rfl
    refine ⟨[.go q], s2, k, ?_, rfl, update_self _ _ _, hne⟩
    simp [Transition.System.run, hs1, hs2]
  | _ => rw [hmq] at hq; cases hq

/-- **No wakeup is lost on a pipe unless a `pipewrite` gives up on a sleeping reader**, and a run
that goes on with such a step loses one. -/
theorem no_lost_wakeup_on_pipes (hr : (system P).Reachable LeavesNobody s) :
    NoLostWakeup s ∧ ∀ a, ¬ LeavesNobody s a → ∃ as s',
      (system P).run (fun _ _ => True) s (a :: as) = some s' ∧ ¬ NoLostWakeup s' := by
  have hgood : Outline.Good outline s :=
    Outline.good_of_reachable outline_valid (fun _ => Sound.fresh)
      (fun _ _ _ hok => settled_of_leavesNobody hok) hr
  constructor
  · intro hfree p k
    constructor
    · intro hp
      exact hgood.wait hfree (by rw [hp]; rfl)
    · intro hp
      exact hgood.wait hfree (by rw [hp]; rfl)
  · intro a ha
    cases a with
    | go =>
      simp only [LeavesNobody, not_forall, not_not] at ha
      obtain ⟨hg, q, hq⟩ := ha
      obtain ⟨as, s', k, hrun, hlk, hk, hne⟩ := stranded_of_givesUp hr.reached hg hq
      exact ⟨as, s', hrun, fun hno => hne ((hno hlk q k).1 hk).1⟩
    | call | kill => exact absurd trivial ha

/-- **Pipes do not deadlock**: while anybody in a call is not asleep, somebody can go on. Unless a
`pipewrite` has given up on a sleeping reader, readers and writers do not sleep at once. -/
theorem pipes_go_on (hr : (system P).Reached s) :
    (∀ p, (s.mode p).Awake → ∃ q s', go code s q = some s') ∧
    ((system P).Reachable LeavesNobody s → s.lk = none →
      ∀ p q, (s.mode p).SleepsOn .nread → ¬ (s.mode q).SleepsOn .nwrite) := by
  have hgood : outline.forget.Good s := Outline.good_of_reachable outline_valid.forget
    (fun _ => Sound.fresh) (fun _ _ _ _ _ _ _ ho => ho.elim) hr
  refine ⟨fun p hp => hgood.go_some hp, fun hleaves hfree p q hp hq => ?_⟩
  have hwaits : Outline.Good outline s := Outline.good_of_reachable outline_valid
    (fun _ => Sound.fresh) (fun _ _ _ hok => settled_of_leavesNobody hok) hleaves
  have hempty := (hwaits.inv.ring.isEmpty_iff pipesize_lt).mp (hwaits.wait hfree hp).1
  have hfull := (hwaits.inv.ring.isFull_iff pipesize_lt).mp (hwaits.wait hfree hq).1
  rw [← hempty] at hfull
  simp [PIPESIZE] at hfull

end

def boot : State (Fin 2) (Shared (Fin 2)) Chan (Point (Fin 2)) where
  shared := ⟨⟨⟨fun _ => 0, 0, 0⟩, true, true⟩, [], [], []⟩
  lk := none
  ptable := none
  mode _ := .out
  killed _ := false

theorem boot_init : (system (Fin 2)).init boot :=
  ⟨⟨rfl, rfl, rfl, rfl, rfl, rfl, rfl⟩, rfl, rfl, fun _ => rfl⟩

theorem boot_reached : (system (Fin 2)).Reached boot := .init boot_init

/-- Process 0 writes a byte and closes the write end; process 1 reads twice. -/
def writeReadTwice : List (Label (Fin 2) Call) :=
  .call 0 (.pipewrite [7]) :: List.replicate 7 (.go 0) ++
  .call 0 (.pipeclose true) :: List.replicate 6 (.go 0) ++
  .call 1 (.piperead 2) :: List.replicate 7 (.go 1) ++
  .call 1 (.piperead 2) :: List.replicate 5 (.go 1)

/-- The second `piperead` is about to return 0. -/
theorem pipe_is_fifo_end_of_file :
    ∃ s, (system (Fin 2)).Reached s ∧ s.mode 1 = .inside (.rret 2 0) ∧
      s.shared.delivered = [7] ∧
      s.shared.pipe.writeopen = false ∧ s.shared.delivered = s.shared.bytes := by
  obtain ⟨s, hs, hmode, hdelivered⟩ := boot_reached.run_decide writeReadTwice
    (P := fun s => s.mode 1 = .inside (.rret 2 0) ∧ s.shared.delivered = [7]) (by decide +kernel)
  obtain ⟨-, -, -, -, -, heof⟩ := pipe_is_fifo hs
  exact ⟨s, hs, hmode, hdelivered, heof 1 2 (by decide) hmode⟩

/-- A reader falls asleep on the empty pipe, and a writer comes with one byte more than fits. -/
def sleepThenWrite : List (Label (Fin 2) Call) :=
  .call 1 (.piperead 1) :: List.replicate 5 (.go 1) ++ [.call 0 (.pipewrite (List.replicate 513 0))]

/-- The reader is asleep on the empty pipe. -/
theorem no_lost_wakeup_on_pipes_reader :
    ∃ s, (system (Fin 2)).Reachable LeavesNobody s ∧
      s.mode 1 = .asleep .nread (.rloop 1) ∧ NoLostWakeup s := by
  have hinit : (system (Fin 2)).Reachable LeavesNobody boot := .init boot_init
  obtain ⟨s, hs, hasleep⟩ := hinit.run_decide sleepThenWrite
    (P := fun s => s.mode 1 = .asleep .nread (.rloop 1)) (by decide +kernel)
  exact ⟨s, hs, hasleep, (no_lost_wakeup_on_pipes hs).1⟩

/-- **A killed writer leaves a reader asleep on a full pipe.** It has filled the pipe, finds
it full and `killed` set, and returns -1 without waking the reader. -/
theorem killed_writer_strands_reader :
    ∃ s k, (system (Fin 2)).Reached s ∧ s.lk = none ∧ s.mode 1 = .asleep .nread k ∧
      s.shared.pipe.nread ≠ s.shared.pipe.nwrite ∧ ¬ NoLostWakeup s := by
  obtain ⟨s, hs, hlk, hk, hne⟩ := boot_reached.run_decide
    (sleepThenWrite ++ List.replicate 515 (.go 0) ++ [.kill 0, .go 0])
    (P := fun s => s.lk = none ∧ s.mode 1 = .asleep .nread (.rloop 1) ∧
      s.shared.pipe.nread ≠ s.shared.pipe.nwrite) (by decide +kernel)
  exact ⟨s, _, hs, hlk, hk, hne, fun hno => hne ((hno hlk 1 _).1 hk).1⟩

/-- The reader sleeps, the writer can go on, and so nobody sleeps on a full pipe. -/
theorem pipes_go_on_reader : ∃ s, (system (Fin 2)).Reached s ∧ (s.mode 1).SleepsOn .nread ∧
    (∃ q s', go code s q = some s') ∧ ∀ q, ¬ (s.mode q).SleepsOn .nwrite := by
  have hinit : (system (Fin 2)).Reachable LeavesNobody boot := .init boot_init
  obtain ⟨s, hs, hlk, hmode, hsleeps⟩ := hinit.run_decide sleepThenWrite
    (P := fun s => s.lk = none ∧ s.mode 0 = .wants (.wbegin 0 (List.replicate 513 0)) ∧
      (s.mode 1).SleepsOn .nread) (by decide +kernel)
  obtain ⟨hgo, hsleep⟩ := pipes_go_on hs.reached
  exact ⟨s, hs.reached, hsleeps, hgo 0 (by rw [hmode]; trivial), fun q => hsleep hs hlk 1 q hsleeps⟩

end Xv6.Pipes
