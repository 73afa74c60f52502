import Xv6.Transition
import Xv6.Vm

/-!
**The user-level allocator** (`umalloc.c`): `malloc`, `free` and `morecore`, over a heap that
`sbrk` extends.

A header is 8 bytes, a pointer and a size in units of 8 bytes; memory is modelled by the two
fields of the header at each address. The headers are `base`, a static variable below the heap,
and those at a distance of whole units from the start of the heap, so no two of them overlap.
What the program writes into its own blocks is not modelled.

`sbrk` may fail at any call, and the kernel never lets the heap reach `KERNBASE`. Since all
addresses are below it, pointer arithmetic does not wrap; the number of units in a request and
the argument of `sbrk` are computed in 32-bit arithmetic. A loop is given more rounds than
there can be headers; that it never runs out of them is proved.
-/

namespace Xv6.Umalloc

open Transition Function
open Vm (KERNBASE)

/-! ### State -/

/-- Where the linker puts `base`, and where the heap begins. -/
structure Layout where
  base : Nat
  start : Nat
  pos : 0 < base
  below : base + 8 ≤ start
  fits : start < KERNBASE

structure Mem where
  /-- `s.ptr` of the header at an address. -/
  ptr : Nat → Nat
  /-- `s.size` of the header at an address. -/
  size : Nat → Nat
  freep : Nat
  /-- The end of the heap. -/
  brk : Nat
  /-- Does the how-manieth call of `sbrk` fail? -/
  denies : Nat → Bool
  /-- How many calls of `sbrk` there have been. -/
  calls : Nat

namespace Mem

def setPtr (m : Mem) (a v : Nat) : Mem := { m with ptr := update m.ptr a v }

def setSize (m : Mem) (a v : Nat) : Mem := { m with size := update m.size a v }

end Mem

/-- More rounds than there are places for headers. -/
def ROUNDS : Nat := 2 ^ 30

/-! ### `umalloc.c` -/

/-- The loop of `free`: the block behind which `bp` belongs. -/
def place (m : Mem) (bp : Nat) : Nat → Nat → Option Nat
  | 0, _ => none
  | fuel + 1, p =>
      if p < bp ∧ bp < m.ptr p then some p
      else if m.ptr p ≤ p ∧ (p < bp ∨ bp < m.ptr p) then some p
      else place m bp fuel (m.ptr p)

/-- Join `bp` to the block after it, if they touch. -/
def joinNext (m : Mem) (bp p : Nat) : Mem :=
  if bp + 8 * m.size bp = m.ptr p then
    let m := m.setSize bp (m.size bp + m.size (m.ptr p))
    m.setPtr bp (m.ptr (m.ptr p))
  else m.setPtr bp (m.ptr p)

/-- Join the block before it to `bp`, if they touch. -/
def joinPrev (m : Mem) (bp p : Nat) : Mem :=
  if p + 8 * m.size p = bp then
    let m := m.setSize p (m.size p + m.size bp)
    m.setPtr p (m.ptr bp)
  else m.setPtr p bp

def free (m : Mem) (ap : Nat) : Option Mem := do
  let bp := ap - 8
  let p ← place m bp ROUNDS m.freep
  return { joinPrev (joinNext m bp p) bp p with freep := p }

/-- `sbrk(n)`; `none` for -1. -/
def sbrk (m : Mem) (n : Nat) : Option Nat × Mem :=
  if m.denies m.calls ∨ KERNBASE ≤ m.brk + n then (none, { m with calls := m.calls + 1 })
  else (some m.brk, { m with brk := m.brk + n, calls := m.calls + 1 })

/-- Get memory from the kernel; returns `freep`, or 0. -/
def morecore (m : Mem) (nu : Nat) : Option (Nat × Mem) :=
  let nu := if nu < 4096 then 4096 else nu
  match sbrk m (nu * 8 % 2 ^ 32) with
  | (none, m) => some (0, m)
  | (some hp, m) => do
      let m ← free (m.setSize hp nu) (hp + 8)
      return (m.freep, m)

/-- Take `nunits` from the block `p` behind `prevp`, its tail if it is larger. -/
def take (m : Mem) (nunits prevp p : Nat) : Nat × Mem :=
  if m.size p = nunits then (p + 8, { m.setPtr prevp (m.ptr p) with freep := prevp })
  else
    let m := m.setSize p (m.size p - nunits)
    let q := p + 8 * m.size p
    (q + 8, { m.setSize q nunits with freep := prevp })

def search (nunits : Nat) : Nat → Nat → Nat → Mem → Option (Nat × Mem)
  | 0, _, _, _ => none
  | fuel + 1, prevp, p, m =>
      if nunits ≤ m.size p then some (take m nunits prevp p)
      else if p = m.freep then
        match morecore m nunits with
        | none => none
        | some (0, m) => some (0, m)
        | some (p, m) => search nunits fuel p (m.ptr p) m
      else search nunits fuel p (m.ptr p) m

/-- The first call makes `base` the only block on the list. -/
def init (L : Layout) (m : Mem) : Mem :=
  if m.freep = 0 then { (m.setPtr L.base L.base).setSize L.base 0 with freep := L.base } else m

def units (nbytes : Nat) : Nat := (nbytes + 8 - 1) % 2 ^ 32 / 8 + 1

def malloc (L : Layout) (m : Mem) (nbytes : Nat) : Option (Nat × Mem) :=
  let m := init L m
  search (units nbytes) ROUNDS m.freep (m.ptr m.freep) m

/-! ### A program -/

structure State where
  mem : Mem
  /-- The pointers `malloc` has returned and that have not been freed, with the bytes asked for. -/
  live : List (Nat × Nat)

inductive Action where
  | malloc (nbytes : Nat)
  | free (ap : Nat)
deriving DecidableEq

/-- A program that asks for less than 2^30 bytes and frees what it has; `none` where a call does
not return. -/
def step (L : Layout) (s : State) : Action → Option State
  | .malloc nbytes =>
      if nbytes < 2 ^ 30 then do
        let (ap, m) ← malloc L s.mem nbytes
        return { mem := m, live := if ap = 0 then s.live else (ap, nbytes) :: s.live }
      else none
  | .free ap =>
      if ap ∈ s.live.map Prod.fst then do
        let m ← free s.mem ap
        return { mem := m, live := s.live.filter fun e => e.1 ≠ ap }
      else none

/-- A program that has just been loaded: `freep` is 0 and the heap is empty. -/
def Loaded (L : Layout) (s : State) : Prop :=
  s.mem.freep = 0 ∧ s.mem.brk = L.start ∧ s.live = []

def system (L : Layout) : System State Action where
  init := Loaded L
  step := step L

end Xv6.Umalloc
