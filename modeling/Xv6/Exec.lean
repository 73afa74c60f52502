import Xv6.Icache
import Xv6.Vm

/-!
**`exec`** (`exec.c`), with `loaduvm`, `clearpteu`, `uva2ka` and `copyout` (`vm.c`).

The executable is an inode with its bytes, and an argument is a list of bytes without the NUL at
its end. What `exec` does to the inode cache and to the log is in `Icache`; here it is what it
does to memory and to the process.

`uva2ka` reads the entry that `walkpgdir` has found. Where there is no page table `walkpgdir`
returns a null pointer and `uva2ka` reads through it: what such a read gives is the parameter
`null`. In the kernel it is `derefNull`.
-/

namespace Xv6.Vm

open Program
open Icache (Dinode)

def MAXARG : Nat := 32

/-! ### The bytes of a frame -/

/-- Byte `o` of these words. -/
def byteOf (words : Nat → Nat) (o : Nat) : Nat := words (o / 4) / 256 ^ (o % 4) % 256

/-- Byte `o` after a `memmove` of `src` to `off`. -/
def patchByte (words : Nat → Nat) (off : Nat) (src : List UInt8) (o : Nat) : Nat :=
  if off ≤ o ∧ o < off + src.length then (src.getD (o - off) 0).toNat else byteOf words o

/-- The words after a `memmove` of `src` to `off`. -/
def patch (words : Nat → Nat) (off : Nat) (src : List UInt8) (i : Nat) : Nat :=
  patchByte words off src (4 * i) + 256 * (patchByte words off src (4 * i + 1) +
    256 * (patchByte words off src (4 * i + 2) + 256 * patchByte words off src (4 * i + 3)))

def Kmem.write (s : Kmem) (f off : Nat) (src : List UInt8) : Kmem :=
  s.fill f (patch (s.page f) off src)

/-- The little-endian value of `n` bytes from `off` on. -/
def valueAt (bytes : List UInt8) (off : Nat) : Nat → Nat
  | 0 => 0
  | n + 1 => (bytes.getD off 0).toNat + 256 * valueAt bytes (off + 1) n

def wordBytes (w : Nat) : List UInt8 :=
  [UInt8.ofNat w, UInt8.ofNat (w / 256), UInt8.ofNat (w / 256 ^ 2), UInt8.ofNat (w / 256 ^ 3)]

/-! ### `vm.c` -/

def loadLoop (pgdir addr : Nat) (ip : Dinode) (offset sz : Nat) : Nat → Nat → Kprog Int
  | 0, _ => .panic "out of fuel"
  | fuel + 1, i =>
      if i < sz then do
        match ← walkpgdir pgdir ((addr + i) % 2 ^ 32) false with
        | none => .panic "loaduvm: address should exist"
        | some (pgtab, j) => do
            let pte ← reads fun s => s.page pgtab j
            let n := if sz - i < PGSIZE then sz - i else PGSIZE
            let r := ip.readi ((offset + i) % 2 ^ 32) n
            modify fun s => s.write (PTE_ADDR pte / PGSIZE) 0 r.2
            if r.1 ≠ n then return -1
            else loadLoop pgdir addr ip offset sz fuel ((i + PGSIZE) % 2 ^ 32)
      else return 0

def loaduvm (pgdir addr : Nat) (ip : Dinode) (offset sz : Nat) : Kprog Int :=
  if addr % PGSIZE ≠ 0 then .panic "loaduvm: addr must be page aligned"
  else loadLoop pgdir addr ip offset sz MAXPAGES 0

def clearpteu (pgdir uva : Nat) : Kprog Unit := do
  match ← walkpgdir pgdir uva false with
  | none => .panic "clearpteu"
  | some (pgtab, i) => modify fun s => s.store pgtab i (s.page pgtab i &&& (2 ^ 32 - 1 - PTE_U))

/-- `*pte` for a null `pte`: the word at address 0 under the page directory that is loaded, or
the kernel's own page fault. -/
def derefNull (cr3 : Nat) : Kprog Nat := do
  match ← walkpgdir cr3 0 false with
  | none => .panic "trap"
  | some (pgtab, i) => do
      let pte ← reads fun s => s.page pgtab i
      if Present pte then reads fun s => s.page (PTE_ADDR pte / PGSIZE) 0
      else .panic "trap"

/-- What `uva2ka` returns for the entry `*pte`. -/
def userPage (pte : Nat) : Option Nat :=
  if ¬ Present pte then none
  else if pte &&& PTE_U = 0 then none
  else some (PTE_ADDR pte / PGSIZE)

variable (null : Kprog Nat)

def uva2ka (pgdir uva : Nat) : Kprog (Option Nat) := do
  match ← walkpgdir pgdir uva false with
  | none => do
      let pte ← null
      return userPage pte
  | some (pgtab, i) => do
      let pte ← reads fun s => s.page pgtab i
      return userPage pte

/-- The loop of `copyout`, with these bytes to go. -/
def copyoutLoop (pgdir : Nat) : Nat → Nat → List UInt8 → Kprog Int
  | 0, _, _ => .panic "out of fuel"
  | fuel + 1, va, buf =>
      if buf = [] then return 0
      else do
        let va0 := PGROUNDDOWN va
        match ← uva2ka null pgdir va0 with
        | none => return -1
        | some pa0 => do
            let n := min (PGSIZE - (va - va0)) buf.length
            modify fun s => s.write pa0 (va - va0) (buf.take n)
            copyoutLoop pgdir fuel ((va0 + PGSIZE) % 2 ^ 32) (buf.drop n)

def copyout (pgdir va : Nat) (p : List UInt8) : Kprog Int :=
  copyoutLoop null pgdir (p.length + 1) va p

/-! ### `exec` -/

namespace Exec

def ELF_MAGIC : Nat := 0x464C457F
def ELF_PROG_LOAD : Nat := 1

/-- `sizeof(struct elfhdr)` and `sizeof(struct proghdr)`. -/
def ELFSIZE : Nat := 52
def PHSIZE : Nat := 32

/-- `exec`'s loop over the program headers, with `n` to go: the size of the image, or `none` for
`goto bad`. -/
def loadSegments (k : Kernel) (pgdir : Nat) (ip : Dinode) : Nat → Nat → Nat → Kprog (Option Nat)
  | 0, _, sz => return some sz
  | n + 1, off, sz =>
      let (r, ph) := ip.readi off PHSIZE
      let vaddr := valueAt ph 8 4
      let filesz := valueAt ph 16 4
      let memsz := valueAt ph 20 4
      if r ≠ PHSIZE then return none
      else if valueAt ph 0 4 ≠ ELF_PROG_LOAD then
        loadSegments k pgdir ip n ((off + PHSIZE) % 2 ^ 32) sz
      else if memsz < filesz then return none
      else if (vaddr + memsz) % 2 ^ 32 < vaddr then return none
      else do
        let sz ← allocuvm k pgdir sz ((vaddr + memsz) % 2 ^ 32)
        if sz = 0 then return none
        else if vaddr % PGSIZE ≠ 0 then return none
        else do
          let r ← loaduvm pgdir vaddr ip (valueAt ph 4 4) filesz
          if r < 0 then return none
          else loadSegments k pgdir ip n ((off + PHSIZE) % 2 ^ 32) sz

/-- `exec`'s loop over the arguments: the stack pointer and the pointers pushed. -/
def pushArgs (pgdir : Nat) : List (List UInt8) → Nat → List Nat → Kprog (Option (Nat × List Nat))
  | [], sp, ptrs => return some (sp, ptrs)
  | arg :: argv, sp, ptrs =>
      if MAXARG ≤ ptrs.length then return none
      else do
        -- `(sp - (strlen(argv[argc]) + 1)) & ~3`
        let sp := (sp + 2 ^ 32 - (arg.length + 1) % 2 ^ 32) % 2 ^ 32 / 4 * 4
        let r ← copyout null pgdir sp (arg ++ [0])
        if r < 0 then return none else pushArgs pgdir argv sp (ptrs ++ [sp])

/-- The fake return PC, `argc`, the argv pointer, and the argv array. -/
def ustack (sp : Nat) (ptrs : List Nat) : List Nat :=
  [0xffffffff, ptrs.length, (sp + 2 ^ 32 - (ptrs.length + 1) * 4) % 2 ^ 32] ++ ptrs ++ [0]

/-- What `exec` commits: the size, the entry point and the stack pointer. -/
structure Image where
  sz : Nat
  entry : Nat
  sp : Nat

/-- The user stack and the arguments on it. -/
@[irreducible] def buildStack (k : Kernel) (pgdir sz entry : Nat) (argv : List (List UInt8)) :
    Kprog (Option Image) := do
  let sz ← allocuvm k pgdir (PGROUNDUP sz) ((PGROUNDUP sz + 2 * PGSIZE) % 2 ^ 32)
  if sz = 0 then return none
  else do
    clearpteu pgdir (sz - 2 * PGSIZE)
    match ← pushArgs null pgdir argv sz [] with
    | none => return none
    | some (sp, ptrs) => do
        let words := ustack sp ptrs
        let sp := (sp + 2 ^ 32 - (3 + ptrs.length + 1) * 4) % 2 ^ 32
        let r ← copyout null pgdir sp (words.flatMap wordBytes)
        if r < 0 then return none else return some ⟨sz, entry, sp⟩

/-- The new image in `pgdir`, or `none` for `goto bad`. -/
def build (k : Kernel) (pgdir : Nat) (ip : Dinode) (elf : List UInt8) (argv : List (List UInt8)) :
    Kprog (Option Image) := do
  match ← loadSegments k pgdir ip (valueAt elf 44 2) (valueAt elf 28 4) 0 with
  | none => return none
  | some sz => buildStack null k pgdir sz (valueAt elf 24 4) argv

/-- `exec` of the file `ip`: its result, the process, and the image if there is a new one. -/
def exec (k : Kernel) (curproc : Proc) (ip : Dinode) (argv : List (List UInt8)) :
    Kprog (Int × Proc × Option Image) := do
  let (r, elf) := ip.readi 0 ELFSIZE
  if r ≠ ELFSIZE then return (-1, curproc, none)
  else if valueAt elf 0 4 ≠ ELF_MAGIC then return (-1, curproc, none)
  else do
    match ← setupkvm k with
    | none => return (-1, curproc, none)
    | some pgdir => do
        match ← build null k pgdir ip elf argv with
        | none => do
            freevm k (some pgdir)
            return (-1, curproc, none)
        | some image => do
            freevm k (some curproc.pgdir)
            return (0, ⟨image.sz, pgdir⟩, some image)

end Exec

end Xv6.Vm
