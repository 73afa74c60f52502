import Mathlib.Data.List.Basic
import Mathlib.Order.Basic

/-!
**The MP configuration table** (`mp.c`): `mpconfig`, and the loop of `mpinit`.

A table is the bytes from `conf` on. The loop goes from entry to entry, by the size of each. The
size of an entry of an unknown type is not known: `break` leaves the `switch`, the cursor stays,
and the loop meets the same entry again.
-/

namespace Xv6.Mp

open List

def NCPU : Nat := 8

abbrev Table := Nat → UInt8

/-- `conf->length` -/
def length (conf : Table) : Nat := (conf 4).toNat + 256 * (conf 5).toNat

/-- `sizeof(struct mpconf)` -/
def HEADER : Nat := 44

def sum (addr : Table) (len : Nat) : UInt8 := (range len).foldl (fun sum i => sum + addr i) 0

/-- `mpconfig`, with the table that the floating pointer leads to, if there is one. -/
def mpconfig (conf : Option Table) : Option Table := do
  let conf ← conf
  if (range 4).map conf ≠ [80, 67, 77, 80] then none
  else if conf 6 ≠ 1 ∧ conf 6 ≠ 4 then none
  else if sum conf (length conf) ≠ 0 then none
  else some conf

inductive Entry where
  | MPPROC
  | MPBUS
  | MPIOAPIC
  | MPIOINTR
  | MPLINTR
  | unknown
deriving DecidableEq

/-- The type of an entry. -/
def Entry.of : UInt8 → Entry
  | 0 => MPPROC
  | 1 => MPBUS
  | 2 => MPIOAPIC
  | 3 => MPIOINTR
  | 4 => MPLINTR
  | _ => unknown

/-- By how much the loop moves its cursor. -/
def Entry.size : Entry → Nat
  | MPPROC => 20
  | MPBUS | MPIOAPIC | MPIOINTR | MPLINTR => 8
  | unknown => 0

/-- What `mpinit` has found: `apicid` of the first `ncpu` of `cpus`, `ioapicid` and `ismp`. -/
structure Found where
  cpus : List UInt8
  ioapicid : UInt8
  ismp : Bool

/-- What the loop does with the entry at `p`. -/
def look (conf : Table) (p : Nat) (f : Found) : Found :=
  match Entry.of (conf p) with
  | .MPPROC => if f.cpus.length < NCPU then { f with cpus := f.cpus ++ [conf (p + 1)] } else f
  | .MPIOAPIC => { f with ioapicid := conf (p + 1) }
  | .MPBUS | .MPIOINTR | .MPLINTR => f
  | .unknown => { f with ismp := false }

/-- The loop of `mpinit`; `none` if so many rounds are not enough. -/
def mpLoop (conf : Table) : Nat → Nat → Found → Option Found
  | 0, _, _ => none
  | rounds + 1, p, f =>
      if p < length conf then mpLoop conf rounds (p + (Entry.of (conf p)).size) (look conf p f)
      else some f

inductive Outcome where
  | panic (msg : String)
  | done (f : Found)

def mpinit (rounds : Nat) (conf : Option Table) : Option Outcome :=
  match mpconfig conf with
  | none => some (.panic "Expect to run on an SMP")
  | some conf => do
      let f ← mpLoop conf rounds HEADER ⟨[], 0, true⟩
      if f.ismp then some (.done f) else some (.panic "Didn't find a suitable machine")

/-! ### The entries of a table -/

variable {conf : Table} {p rounds : Nat} {ps : List Nat} {f : Found}

theorem Entry.size_pos {e : Entry} (h : e ≠ .unknown) : 0 < e.size := by
  cases e with
  | unknown => exact absurd rfl h
  | _ => decide

/-- The entries from `p` on, and where one of an unknown type comes behind them. -/
def entries (conf : Table) (p : Nat) : List Nat × Option Nat :=
  if p < length conf then
    if _h : Entry.of (conf p) = .unknown then ([], some p)
    else (entries conf (p + (Entry.of (conf p)).size)).map (p :: ·) id
  else ([], none)
termination_by length conf - p
decreasing_by
  have hpos := Entry.size_pos _h
  omega

/-- The processors listed at these places. -/
def apicids (conf : Table) (ps : List Nat) : List UInt8 :=
  (ps.filter fun p => Entry.of (conf p) = .MPPROC).map fun p => conf (p + 1)

/-- An unknown entry is met again and again. -/
theorem mpLoop_unknown (h : (entries conf p).2 ≠ none) : mpLoop conf rounds p f = none := by
  fun_induction entries conf p generalizing rounds f with
  | case1 p hlt hun =>
    induction rounds generalizing f with
    | zero => rfl
    | succ rounds ih =>
      rw [mpLoop, if_pos hlt, hun]
      exact ih
  | case2 p hlt hknown ih =>
    cases rounds with
    | zero => rfl
    | succ rounds => exact (if_pos hlt).trans (ih h)
  | case3 => exact absurd rfl h

theorem look_known (h : Entry.of (conf p) ≠ .unknown) (hle : f.cpus.length ≤ NCPU) :
    (look conf p f).ismp = f.ismp ∧ (look conf p f).cpus.length ≤ NCPU ∧
    ((look conf p f).cpus ++ apicids conf ps).take NCPU =
      (f.cpus ++ apicids conf (p :: ps)).take NCPU := by
  rw [look, apicids, apicids, filter_cons]
  cases he : Entry.of (conf p) with
  | unknown => exact absurd he h
  | MPPROC =>
    dsimp only
    split
    next hlt => exact ⟨rfl, by simpa [Nat.add_one_le_iff] using hlt, by simp⟩
    next hge =>
      have hfull : f.cpus.length = NCPU := Nat.le_antisymm hle (Nat.le_of_not_lt hge)
      exact ⟨rfl, hle, by rw [take_left' hfull, take_left' hfull]⟩
  | _ => exact ⟨rfl, hle, rfl⟩

theorem mpLoop_known (h : (entries conf p).2 = none) (hle : f.cpus.length ≤ NCPU) :
    ∃ rounds f', mpLoop conf rounds p f = some f' ∧ f'.ismp = f.ismp ∧
      f'.cpus = (f.cpus ++ apicids conf (entries conf p).1).take NCPU := by
  fun_induction entries conf p generalizing f with
  | case1 => cases h
  | case2 p hlt hknown ih =>
    obtain ⟨hsame, hle', htake⟩ := look_known hknown hle
    obtain ⟨rounds, f', heq, hismp, hcpus⟩ := ih h hle'
    exact ⟨rounds + 1, f', (if_pos hlt).trans heq, hismp.trans hsame, hcpus.trans htake⟩
  | case3 p hge => exact ⟨1, f, if_neg hge, rfl, by simp [apicids, take_of_length_le hle]⟩

/-- **The walk over the table** ends, registers the first processors listed, and panics on an
unknown type, exactly if there is no unknown type. -/
theorem mpinit_walks_iff (h : mpconfig (some conf) = some conf) :
    (∃ rounds out, mpinit rounds (some conf) = some out ∧
      match (entries conf HEADER).2 with
      | none => ∃ f, out = .done f ∧ f.cpus = (apicids conf (entries conf HEADER).1).take NCPU
      | some _ => out = .panic "Didn't find a suitable machine") ↔
    (entries conf HEADER).2 = none := by
  simp only [mpinit, h]
  constructor
  · rintro ⟨rounds, out, hout, -⟩
    by_contra hne
    rw [mpLoop_unknown hne] at hout
    cases hout
  · intro hnone
    obtain ⟨rounds, f, hf, hismp, hcpus⟩ :=
      mpLoop_known (f := ⟨[], 0, true⟩) hnone (Nat.zero_le _)
    refine ⟨rounds, .done f, ?_, ?_⟩
    · rw [hf]
      exact if_pos hismp
    · rw [hnone]
      exact ⟨f, rfl, hcpus⟩

/-- A table of a bus and the processor 3, whose bytes add up to 0. -/
def busAndCpu : Table := fun p =>
  [80, 67, 77, 80, 72, 0, 1, 131].getD p
    (if p = HEADER then 1 else if p = HEADER + 9 then 3 else 0)

set_option maxRecDepth 1000 in
theorem mpinit_walks_iff_cpu :
    ∃ rounds f, mpinit rounds (some busAndCpu) = some (.done f) ∧ f.cpus = [3] := by
  have hentries : entries busAndCpu HEADER = ([HEADER, HEADER + 8], none) := by
    rw [entries, if_pos (by decide), dif_neg (by decide), entries, if_pos (by decide),
      dif_neg (by decide), entries, if_neg (by decide)]
    rfl
  obtain ⟨rounds, out, hout, hfound⟩ :=
    (@mpinit_walks_iff busAndCpu rfl).mpr (congrArg Prod.snd hentries)
  rw [hentries] at hfound
  obtain ⟨f, rfl, hcpus⟩ := hfound
  exact ⟨rounds, f, hout, hcpus⟩

/-- A table of one entry, of type `e`, whose bytes add up to 0. -/
def oneEntry (e : UInt8) : Table := fun p =>
  [80, 67, 77, 80, 52, 0, 1, 155 - e].getD p (if p = HEADER then e else 0)

/-- Type 5 is unknown. -/
theorem unknown_entry_hangs : mpconfig (some (oneEntry 5)) = some (oneEntry 5) ∧
    Entry.of (oneEntry 5 HEADER) = .unknown ∧
    ∀ rounds, mpinit rounds (some (oneEntry 5)) = none := by
  have hne : (entries (oneEntry 5) HEADER).2 ≠ none := by
    rw [entries, if_pos (by decide), dif_pos (by decide)]
    exact nofun
  exact ⟨rfl, rfl, fun rounds => congrArg (Option.bind · _) (mpLoop_unknown hne)⟩

end Xv6.Mp
