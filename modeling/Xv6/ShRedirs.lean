import Mathlib.Data.List.Induction
import Xv6.ShGrammar

/-!
**Redirections of a command** (`sh.c`): the order in which `runcmd` opens them.

The parser wraps a command in a `REDIR` node for each redirection it reads, and `runcmd` opens from
the outside in: the last written file first, and the first written one last.
-/

namespace Xv6.Sh

open Function List
open Xv6.Fs (O_RDONLY O_CREATE)

/-- What a descriptor refers to. -/
inductive Open where
  /-- What was open as `fd` where the command is run. -/
  | inherited (fd : Nat)
  | file (name : Str) (mode : UInt32)
deriving DecidableEq

abbrev Ofile := Nat → Option Open

def close (fd : Nat) (ofile : Ofile) : Ofile := update ofile fd none

/-- The file comes to the first free descriptor. -/
def openFile (name : Str) (mode : UInt32) (ofile : Ofile) : Option Ofile :=
  match (range NOFILE).find? fun fd => (ofile fd).isNone with
  | some fd => some (update ofile fd (some (.file name mode)))
  | none => none

/-- `runcmd` through `n` nodes `REDIR`: the node it comes to, and the descriptors there. -/
def redirect : Nat → Cmd Str → Ofile → Option (Cmd Str × Ofile)
  | n + 1, .REDIR cmd file mode fd, ofile => do
    let ofile ← openFile file mode (close fd ofile)
    redirect n cmd ofile
  | 0, cmd, ofile => some (cmd, ofile)
  | _, _, _ => none

/-- A block or a simple command, and its redirections as they are written. -/
inductive Redirected : List Tok → Cmd Str → List Redir → Prop where
  | block {ts us c rs} : Derives .line ts c → Redirs us rs →
      Redirected (.op .lpar :: (ts ++ .op .rpar :: us)) c rs
  | words {us vs ws rs rs'} : Redirs us rs → Args vs ws rs' → ws.length ≤ MAXARGS - 1 →
      Redirected (us ++ vs) (.EXEC ws) (rs ++ rs')

/-- The first and the last redirection of each descriptor name the same file. -/
def Agree (rs : List Redir) : Prop :=
  ∀ fd, (rs.find? (·.fd == fd)).map Redir.file = (rs.reverse.find? (·.fd == fd)).map Redir.file

variable {ts : List Tok} {c : Cmd Str} {rs : List Redir} {ofile : Ofile}

theorem Redirs.standard (h : Redirs ts rs) : ∀ r ∈ rs, r.fd < 2 := by
  induction h with
  | nil => exact nofun
  | @cons o _ _ _ _ hr _ ih =>
    rw [forall_mem_cons]
    refine ⟨?_, ih⟩
    cases o <;> cases hr <;> simp

theorem Args.standard {ws : List Str} (h : Args ts ws rs) : ∀ r ∈ rs, r.fd < 2 := by
  induction h with
  | nil => exact nofun
  | cons hrs _ ih => exact forall_mem_append.mpr ⟨hrs.standard, ih⟩

theorem Redirected.standard (h : Redirected ts c rs) : ∀ r ∈ rs, r.fd < 2 := by
  cases h with
  | block _ hrs => exact hrs.standard
  | words hrs hargs _ => exact forall_mem_append.mpr ⟨hrs.standard, hargs.standard⟩

theorem Redirected.derives (h : Redirected ts c rs) : Derives .exec ts (wrap c rs) := by
  cases h with
  | block hts hrs => exact .block hts hrs
  | words hrs hargs hlen => exact .words hrs hargs hlen

/-- With the standard descriptors open, the file comes to the one that has been closed. -/
theorem openFile_close {r : Redir} (hopen : ∀ fd < 2, (ofile fd).isSome) (hfd : r.fd < 2) :
    openFile r.file r.mode (close r.fd ofile) =
      some (update ofile r.fd (some (.file r.file r.mode))) := by
  have hfree : (range NOFILE).find? (fun fd => (close r.fd ofile fd).isNone) = some r.fd := by
    rw [find?_range_eq_some]
    refine ⟨by rw [close, update_self]; rfl, mem_range.mpr (hfd.trans (by decide)), ?_⟩
    intro fd hlt
    rw [close, update_of_ne hlt.ne, Option.not_isNone]
    exact hopen fd (hlt.trans hfd)
  rw [openFile, hfree]
  exact congrArg some (update_idem ..)

/-- **The first written redirection of a descriptor stays.** -/
theorem redirect_wrap (hrs : ∀ r ∈ rs, r.fd < 2) (hopen : ∀ fd < 2, (ofile fd).isSome) :
    ∃ ofile', redirect rs.length (wrap c rs) ofile = some (c, ofile') ∧ ∀ fd, ofile' fd =
      ((rs.find? (·.fd == fd)).map fun r => Open.file r.file r.mode).or (ofile fd) := by
  -- the outermost node is the last redirection
  induction rs using reverseRecOn generalizing ofile with
  | nil => exact ⟨ofile, rfl, fun _ => rfl⟩
  | append_singleton rs r ih =>
    obtain ⟨hrs, hr⟩ := forall_mem_append.mp hrs
    have hfd := hr r (mem_singleton_self r)
    have hopen' : ∀ fd < 2, (update ofile r.fd (some (.file r.file r.mode)) fd).isSome := by
      intro fd hlt
      rcases eq_or_ne fd r.fd with rfl | hne
      · rw [update_self]
        rfl
      · rw [update_of_ne hne]
        exact hopen fd hlt
    obtain ⟨ofile', heq, hall⟩ := ih hrs hopen'
    refine ⟨ofile', ?_, fun fd => ?_⟩
    · rw [length_append, length_singleton, wrap, foldl_append, foldl_cons, foldl_nil, redirect,
        openFile_close hopen hfd]
      exact heq
    rw [hall, find?_append]
    rcases eq_or_ne fd r.fd with rfl | hne
    · cases rs.find? (·.fd == r.fd) <;> simp
    · cases rs.find? (·.fd == fd) <;> simp [update_of_ne hne, hne.symm]

/-- **Redirections in written order**: each descriptor that is redirected refers to the file of its
last redirection, exactly if that is the file of its first one. -/
theorem redirections_in_order_iff (h : Redirected ts c rs) (hopen : ∀ fd < 2, (ofile fd).isSome) :
    Derives .exec ts (wrap c rs) ∧
    ∃ ofile', redirect rs.length (wrap c rs) ofile = some (c, ofile') ∧
      ((∀ fd r, rs.reverse.find? (·.fd == fd) = some r →
        ∃ mode, ofile' fd = some (.file r.file mode)) ↔ Agree rs) := by
  obtain ⟨ofile', heq, hall⟩ := redirect_wrap h.standard hopen
  refine ⟨h.derives, ofile', heq, forall_congr' fun fd => ?_⟩
  -- there is a first redirection of the descriptor if there is a last one
  have hsome : (rs.find? (·.fd == fd)).isSome ↔ (rs.reverse.find? (·.fd == fd)).isSome := by
    simp only [find?_isSome, mem_reverse]
  cases hfirst : rs.find? (·.fd == fd) <;> cases hlast : rs.reverse.find? (·.fd == fd) <;>
    simp_all

/-- The line `a < x > y` runs `a` with its input from `x` and its output in `y`. -/
theorem redirections_in_order_iff_two : ∃ ofile', redirect 2 (wrap (.EXEC [[97]])
    [⟨[120], O_RDONLY, 0⟩, ⟨[121], O_WRONLY ||| O_CREATE, 1⟩]) (some ∘ .inherited) =
      some (.EXEC [[97]], ofile') ∧
    (∃ mode, ofile' 0 = some (.file [120] mode)) ∧ ∃ mode, ofile' 1 = some (.file [121] mode) := by
  have hopen : ∀ fd < 2, ((some ∘ .inherited : Ofile) fd).isSome := fun _ _ => rfl
  obtain ⟨-, ofile', heq, hiff⟩ := redirections_in_order_iff
    (.words .nil (.cons (w := [97]) (.cons (o := .lt) rfl (.cons (o := .gt) rfl .nil)) .nil)
      (by decide))
    hopen
  have hall := hiff.mpr fun fd => by rcases fd with _ | _ | fd <;> rfl
  exact ⟨ofile', heq, hall 0 _ rfl, hall 1 _ rfl⟩

/-- The line `a > x > y` runs `a` with its output in `x`. -/
theorem first_redirection_wins :
    Redirected [.word [97], .op .gt, .word [120], .op .gt, .word [121]] (.EXEC [[97]])
      [⟨[120], O_WRONLY ||| O_CREATE, 1⟩, ⟨[121], O_WRONLY ||| O_CREATE, 1⟩] ∧
    (redirect 2 (wrap (.EXEC [[97]]) [⟨[120], O_WRONLY ||| O_CREATE, 1⟩,
      ⟨[121], O_WRONLY ||| O_CREATE, 1⟩]) (some ∘ .inherited)).map (·.2 1) =
        some (some (.file [120] (O_WRONLY ||| O_CREATE))) :=
  ⟨.words .nil (.cons (.cons rfl (.cons rfl .nil)) .nil) (by decide), rfl⟩

end Xv6.Sh
