import Xv6.Param
import Xv6.Program

/-!
**Physical frames and page tables**: `kalloc.c`, `vm.c` and the macros of `mmu.h` and
`memlayout.h`, with `growproc` (`proc.c`) and `sys_sbrk` (`sysproc.c`).

Memory is an array of frames of 1024 words. A frame is named by its number, which is its
physical address over `PGSIZE`; `P2V` and `V2P` lead from there to the address the kernel uses
and back. Page directories and page tables are frames like all others.

`kalloc` returns 0 when the free list is empty, which other CPUs can bring about at any time:
`oom` tells which of its calls find nothing. A loop that counts addresses has fuel, as many
rounds as there are pages; that it never runs out is proved.
-/

namespace Xv6.Vm

open Program Function

/-! ### `mmu.h` and `memlayout.h` -/

def PGSIZE : Nat := 4096
def NPDENTRIES : Nat := 1024
def NPTENTRIES : Nat := 1024
def PTXSHIFT : Nat := 12
def PDXSHIFT : Nat := 22

def EXTMEM : Nat := 0x100000
def PHYSTOP : Nat := 0xE000000
def DEVSPACE : Nat := 0xFE000000
def KERNBASE : Nat := 0x80000000
def KERNLINK : Nat := KERNBASE + EXTMEM

/-- `V2P`, in 32-bit arithmetic. -/
def V2P (a : Nat) : Nat := (a + (2 ^ 32 - KERNBASE)) % 2 ^ 32

def PDX (va : Nat) : Nat := va / 2 ^ PDXSHIFT % NPDENTRIES

def PTX (va : Nat) : Nat := va / 2 ^ PTXSHIFT % NPTENTRIES

/-- Virtual address from indexes and offset. -/
def PGADDR (d t o : Nat) : Nat := (d <<< PDXSHIFT ||| t <<< PTXSHIFT ||| o) % 2 ^ 32

/-- Clear the bits of the offset. -/
def PGROUNDDOWN (a : Nat) : Nat := a / PGSIZE * PGSIZE

def PGROUNDUP (sz : Nat) : Nat := PGROUNDDOWN ((sz + PGSIZE - 1) % 2 ^ 32)

def PTE_P : Nat := 0x001
def PTE_W : Nat := 0x002
def PTE_U : Nat := 0x004

def PTE_ADDR (pte : Nat) : Nat := pte / PGSIZE * PGSIZE

def PTE_FLAGS (pte : Nat) : Nat := pte &&& 0xFFF

def Present (pte : Nat) : Prop := pte &&& PTE_P ≠ 0

instance (pte : Nat) : Decidable (Present pte) := inferInstanceAs (Decidable (_ ≠ _))

/-! ### State -/

/-- What the linker decides: where the kernel's data begins and where its image ends. -/
structure Kernel where
  data : Nat
  kend : Nat
  aligned : data % PGSIZE = 0
  text : KERNLINK < data
  ends : data ≤ kend
  fits : kend < KERNBASE + PHYSTOP

structure Kmem where
  /-- The words of each frame. -/
  page : Nat → Nat → Nat
  /-- `kmem.freelist` -/
  freelist : List Nat
  /-- Does the how-manieth call of `kalloc` find nothing? -/
  oom : Nat → Bool
  /-- How many calls of `kalloc` there have been. -/
  calls : Nat

abbrev Kprog := Prog Kmem Empty Empty

namespace Kmem

def fill (s : Kmem) (f : Nat) (words : Nat → Nat) : Kmem :=
  { s with page := update s.page f words }

def store (s : Kmem) (f i w : Nat) : Kmem := s.fill f (update (s.page f) i w)

def push (s : Kmem) (f : Nat) : Kmem := { s with freelist := f :: s.freelist }

end Kmem

/-! ### `kalloc.c` -/

def memset (f c : Nat) : Kprog Unit :=
  modify fun s => s.fill f fun _ => c * 0x01010101

def memmove (dst src : Nat) : Kprog Unit := modify fun s => s.fill dst (s.page src)

@[irreducible] def kfree (k : Kernel) (f : Nat) : Kprog Unit :=
  if f * PGSIZE < V2P k.kend ∨ PHYSTOP ≤ f * PGSIZE then .panic "kfree"
  else do
    memset f 1
    modify fun s => s.push f

def kalloc : Kprog (Option Nat) :=
  .step
    (fun s => { s with
      calls := s.calls + 1
      freelist := if s.oom s.calls then s.freelist else s.freelist.tail })
    fun s => .ret (if s.oom s.calls then none else s.freelist.head?)

/-! ### `vm.c` -/

/-- Where the PTE for `va` is: its page table and its index there. -/
def walkpgdir (pgdir va : Nat) (alloc : Bool) : Kprog (Option (Nat × Nat)) := do
  let pde ← reads fun s => s.page pgdir (PDX va)
  if Present pde then return some (PTE_ADDR pde / PGSIZE, PTX va)
  else if alloc then do
    match ← kalloc with
    | none => return none
    | some pgtab => do
        memset pgtab 0
        modify fun s => s.store pgdir (PDX va) (pgtab * PGSIZE ||| PTE_P ||| PTE_W ||| PTE_U)
        return some (pgtab, PTX va)
  else return none

/-- The loop of `mappages`; the result is that of the function, 0 or -1. -/
def mapLoop (pgdir last perm : Nat) : Nat → Nat → Nat → Kprog Int
  | 0, _, _ => .panic "out of fuel"
  | fuel + 1, a, pa => do
      match ← walkpgdir pgdir a true with
      | none => return -1
      | some (pgtab, i) => do
          let pte ← reads fun s => s.page pgtab i
          if Present pte then .panic "remap"
          else do
            modify fun s => s.store pgtab i (pa ||| perm ||| PTE_P)
            if a = last then return 0
            else mapLoop pgdir last perm fuel ((a + PGSIZE) % 2 ^ 32) ((pa + PGSIZE) % 2 ^ 32)

/-- As many pages as there are addresses for. -/
def MAXPAGES : Nat := 2 ^ 32 / PGSIZE

def mappages (pgdir va size pa perm : Nat) : Kprog Int :=
  mapLoop pgdir (PGROUNDDOWN ((va + size + (2 ^ 32 - 1)) % 2 ^ 32)) perm MAXPAGES
    (PGROUNDDOWN va) pa

def deallocLoop (k : Kernel) (pgdir oldsz : Nat) : Nat → Nat → Kprog Unit
  | 0, _ => .panic "out of fuel"
  | fuel + 1, a =>
      if a < oldsz then do
        match ← walkpgdir pgdir a false with
        | none =>
            -- over the rest of the 4MB that an absent page table stands for
            let a := (PGADDR (PDX a + 1) 0 0 + (2 ^ 32 - PGSIZE)) % 2 ^ 32
            deallocLoop k pgdir oldsz fuel ((a + PGSIZE) % 2 ^ 32)
        | some (pgtab, i) => do
            let pte ← reads fun s => s.page pgtab i
            if Present pte then
              if PTE_ADDR pte = 0 then .panic "kfree"
              else do
                kfree k (PTE_ADDR pte / PGSIZE)
                modify fun s => s.store pgtab i 0
                deallocLoop k pgdir oldsz fuel ((a + PGSIZE) % 2 ^ 32)
            else deallocLoop k pgdir oldsz fuel ((a + PGSIZE) % 2 ^ 32)
      else return ()

def deallocuvm (k : Kernel) (pgdir oldsz newsz : Nat) : Kprog Nat :=
  if oldsz ≤ newsz then return oldsz
  else do
    deallocLoop k pgdir oldsz MAXPAGES (PGROUNDUP newsz)
    return newsz

def allocLoop (k : Kernel) (pgdir oldsz newsz : Nat) : Nat → Nat → Kprog Nat
  | 0, _ => .panic "out of fuel"
  | fuel + 1, a =>
      if a < newsz then do
        match ← kalloc with
        | none => do
            let _ ← deallocuvm k pgdir newsz oldsz
            return 0
        | some mem => do
            memset mem 0
            let r ← mappages pgdir a PGSIZE (mem * PGSIZE) (PTE_W ||| PTE_U)
            if r < 0 then do
              let _ ← deallocuvm k pgdir newsz oldsz
              kfree k mem
              return 0
            else allocLoop k pgdir oldsz newsz fuel ((a + PGSIZE) % 2 ^ 32)
      else return newsz

def allocuvm (k : Kernel) (pgdir oldsz newsz : Nat) : Kprog Nat :=
  if KERNBASE ≤ newsz then return 0
  else if newsz < oldsz then return oldsz
  else allocLoop k pgdir oldsz newsz MAXPAGES (PGROUNDUP oldsz)

/-- The loop of `freevm` over the page directory. -/
def freeTables (k : Kernel) (pgdir : Nat) : List Nat → Kprog Unit
  | [] => return ()
  | i :: is => do
      let pde ← reads fun s => s.page pgdir i
      onlyIf (Present pde) (kfree k (PTE_ADDR pde / PGSIZE))
      freeTables k pgdir is

/-- Free a page table and all the physical memory pages in the user part. -/
def freevm (k : Kernel) : Option Nat → Kprog Unit
  | none => .panic "freevm: no pgdir"
  | some pgdir => do
      let _ ← deallocuvm k pgdir KERNBASE 0
      freeTables k pgdir (List.range NPDENTRIES)
      kfree k pgdir

/-- A line of `kmap`. -/
structure Kmap where
  virt : Nat
  phys_start : Nat
  phys_end : Nat
  perm : Nat

/-- The kernel's mappings, which are present in every page table. -/
def kmap (k : Kernel) : List Kmap :=
  [{ virt := KERNBASE, phys_start := 0, phys_end := EXTMEM, perm := PTE_W },
   { virt := KERNLINK, phys_start := V2P KERNLINK, phys_end := V2P k.data, perm := 0 },
   { virt := k.data, phys_start := V2P k.data, phys_end := PHYSTOP, perm := PTE_W },
   { virt := DEVSPACE, phys_start := DEVSPACE, phys_end := 0, perm := PTE_W }]

def kmapLoop (k : Kernel) (pgdir : Nat) : List Kmap → Kprog (Option Nat)
  | [] => return some pgdir
  | m :: ms => do
      let size := (m.phys_end + (2 ^ 32 - m.phys_start)) % 2 ^ 32
      let r ← mappages pgdir m.virt size m.phys_start m.perm
      if r < 0 then do
        freevm k (some pgdir)
        return none
      else kmapLoop k pgdir ms

def setupkvm (k : Kernel) : Kprog (Option Nat) := do
  match ← kalloc with
  | none => return none
  | some pgdir => do
      memset pgdir 0
      if DEVSPACE < (PHYSTOP + KERNBASE) % 2 ^ 32 then .panic "PHYSTOP too high"
      else kmapLoop k pgdir (kmap k)

def copyLoop (k : Kernel) (pgdir sz d : Nat) : Nat → Nat → Kprog (Option Nat)
  | 0, _ => .panic "out of fuel"
  | fuel + 1, i =>
      if i < sz then do
        match ← walkpgdir pgdir i false with
        | none => .panic "copyuvm: pte should exist"
        | some (pgtab, j) => do
            let pte ← reads fun s => s.page pgtab j
            if ¬ Present pte then .panic "copyuvm: page not present"
            else do
              match ← kalloc with
              | none => do
                  freevm k (some d)
                  return none
              | some mem => do
                  memmove mem (PTE_ADDR pte / PGSIZE)
                  let r ← mappages d i PGSIZE (mem * PGSIZE) (PTE_FLAGS pte)
                  if r < 0 then do
                    -- `goto bad`, which does not give `mem` back
                    freevm k (some d)
                    return none
                  else copyLoop k pgdir sz d fuel ((i + PGSIZE) % 2 ^ 32)
      else return some d

/-- Given a parent process's page table, create a copy of it for a child. -/
def copyuvm (k : Kernel) (pgdir sz : Nat) : Kprog (Option Nat) := do
  match ← setupkvm k with
  | none => return none
  | some d => copyLoop k pgdir sz d MAXPAGES 0

/-! ### `growproc` and `sys_sbrk` -/

/-- The current process, as far as these functions look. -/
structure Proc where
  sz : Nat
  pgdir : Nat
deriving DecidableEq

def growproc (k : Kernel) (curproc : Proc) (n : Int) : Kprog (Int × Proc) :=
  if 0 < n then do
    let sz ← allocuvm k curproc.pgdir curproc.sz ((curproc.sz + ofInt32 n) % 2 ^ 32)
    if sz = 0 then return (-1, curproc) else return (0, { curproc with sz })
  else if n < 0 then do
    let sz ← deallocuvm k curproc.pgdir curproc.sz ((curproc.sz + ofInt32 n) % 2 ^ 32)
    if sz = 0 then return (-1, curproc) else return (0, { curproc with sz })
  else return (0, curproc)

/-- `sys_sbrk`, once `argint` has delivered `n`. -/
def sysSbrk (k : Kernel) (curproc : Proc) (n : Int) : Kprog (Int × Proc) := do
  let (r, p) ← growproc k curproc n
  if r < 0 then return (-1, p) else return (toInt32 curproc.sz, p)

end Xv6.Vm
