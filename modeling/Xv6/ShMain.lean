import Xv6.CString
import Xv6.Sh

/-!
**The main loop of the shell** (`sh.c`): what becomes of a line.

`getcmd` reads a line of at most 99 bytes into a buffer of zeros. The built-in `exit` is
recognised by `strncmp(buf, "exit", strlen(buf)-1)`, which is to ignore the newline; the length
compared is that of the line, so every beginning of `exit` is taken for it, and of a line that
does not end with a newline the last byte is not looked at.
-/

namespace Xv6.Sh

open List

/-- `gets` with `max = n + 1`: the line, and the rest of the input. -/
def gets : Nat → Str → Str × Str
  | 0, input => ([], input)
  | _ + 1, [] => ([], [])
  | n + 1, c :: input =>
      if c = chr '\n' ∨ c = chr '\r' then ([c], input)
      else
        let (line, rest) := gets n input
        (c :: line, rest)

def getcmd (input : Str) : Option (Str × Str) :=
  let (line, rest) := gets 99 input
  if byte line 0 = 0 then none else some (line, rest)

inductive Handled where
  | cd (dir : Str)
  | exit
  /-- `runcmd(parsecmd(buf))` in a child. -/
  | run (buf : Str)
deriving DecidableEq

def EXIT : Str := [101, 120, 105, 116]

def handle (buf : Str) : Handled :=
  if byte buf 0 = chr 'c' ∧ byte buf 1 = chr 'd' ∧ byte buf 2 = chr ' ' then
    .cd (cstring (buf.set (strlen buf - 1) 0) 3)
  else if byte buf 0 ≠ chr '\n' ∧
      strncmp (CStr.ofBytes buf) (CStr.ofBytes EXIT) (strlen buf - 1) = 0 then .exit
  else .run buf

def round (input : Str) : Option (Handled × Str) :=
  (getcmd input).map fun (line, rest) => (handle line, rest)

def chop (line : Str) : Str := if line.getLast? = some (chr '\n') then line.dropLast else line

/-- **A line that is taken for `exit`**: its text but for the last byte is a beginning of
`exit`. -/
def Misread (line : Str) : Prop :=
  chop line ≠ EXIT ∧ byte line 0 ≠ chr '\n' ∧ (cstring line 0).dropLast <+: EXIT

instance (line : Str) : Decidable (Misread line) := inferInstanceAs (Decidable (_ ∧ _ ∧ _))

variable {line : Str}

/-- What the comparison with `exit` comes to. -/
theorem strncmp_exit : strncmp (CStr.ofBytes line) (CStr.ofBytes EXIT) (strlen line - 1) = 0 ↔
    (cstring line 0).dropLast <+: EXIT := by
  have hexit : ∀ n, (EXIT.take n).takeWhile (· != 0) = EXIT.take n := by
    intro n
    rw [takeWhile_eq_self_iff]
    exact fun c hc => all_eq_true.mp (by decide : EXIT.all (· != 0)) c (mem_of_mem_take hc)
  have htext : (line.take (strlen line - 1)).takeWhile (· != 0) = (cstring line 0).dropLast := by
    rw [← take_takeWhile, dropLast_eq_take]
    rfl
  rw [CStr.strncmp_eq_zero, CStr.text_ofBytes, CStr.text_ofBytes, hexit, htext,
    prefix_iff_eq_take, length_dropLast]
  rfl

theorem not_prefix_of_cd (h : byte line 0 = chr 'c' ∧ byte line 1 = chr 'd' ∧ byte line 2 = chr ' ') :
    ¬ (cstring line 0).dropLast <+: EXIT := by
  rcases line with _ | ⟨a, _ | ⟨b, _ | ⟨c, line⟩⟩⟩
  · exact absurd h.1 (by decide)
  · exact absurd h.2.1 (by simp [byte, chr])
  · exact absurd h.2.2 (by simp [byte, chr])
  obtain ⟨rfl, rfl, rfl⟩ : a = chr 'c' ∧ b = chr 'd' ∧ c = chr ' ' := h
  have htext : cstring (chr 'c' :: chr 'd' :: chr ' ' :: line) 0 =
      chr 'c' :: chr 'd' :: chr ' ' :: line.takeWhile (· != 0) := rfl
  rw [htext, dropLast_cons_cons, EXIT, cons_prefix_cons]
  exact fun hne => absurd hne.1 (by decide)

theorem handle_eq_exit : handle line = .exit ↔
    byte line 0 ≠ chr '\n' ∧ (cstring line 0).dropLast <+: EXIT := by
  simp only [handle, strncmp_exit]
  split
  next hcd => exact iff_of_false nofun fun h => not_prefix_of_cd hcd h.2
  split
  next h => exact iff_of_true rfl h
  next h => exact iff_of_false nofun h

theorem line_of_chop (h : chop line = EXIT) : line = EXIT ∨ line = EXIT ++ [chr '\n'] := by
  rw [chop] at h
  split at h
  next hlast => exact .inr (by rw [← h, dropLast_append_getLast? _ hlast])
  · exact .inl h

/-- **The exit built-in** ends the shell on the word `exit` and on no other line, exactly if the
line is not misread; what does not end the shell goes to `cd` or is run. -/
theorem exit_on_exit_iff {input rest : Str} (h : getcmd input = some (line, rest)) :
    ((round input = some (.exit, rest) ↔ chop line = EXIT) ∧
      (chop line ≠ EXIT → (∃ dir, round input = some (.cd dir, rest)) ∨
        round input = some (.run line, rest))) ↔ ¬ Misread line := by
  have hround : ∀ what, round input = some (what, rest) ↔ handle line = what := by simp [round, h]
  simp only [hround, handle_eq_exit]
  constructor
  · rintro ⟨hexit, -⟩ ⟨hchop, htext⟩
    exact hchop (hexit.mp htext)
  intro hread
  refine ⟨⟨fun htext => ?_, fun hchop => ?_⟩, fun hchop => ?_⟩
  · by_contra hchop
    exact hread ⟨hchop, htext⟩
  · rcases line_of_chop hchop with rfl | rfl <;> decide
  · have hnot : handle line ≠ .exit := fun heq => hread ⟨hchop, handle_eq_exit.mp heq⟩
    rw [handle] at hnot ⊢
    split
    · exact .inl ⟨_, rfl⟩
    split
    next hcd hexit => exact absurd (by rw [if_neg hcd, if_pos hexit]) hnot
    · exact .inr rfl

theorem exit_on_exit_iff_ls : getcmd ([108, 115, 10] ++ EXIT) = some ([108, 115, 10], EXIT) ∧
    round ([108, 115, 10] ++ EXIT) ≠ some (.exit, EXIT) := by
  have h : getcmd ([108, 115, 10] ++ EXIT) = some ([108, 115, 10], EXIT) := rfl
  refine ⟨h, fun hexit => ?_⟩
  have hchop := ((exit_on_exit_iff h).mpr (by decide)).1.mp hexit
  exact absurd hchop (by decide)

/-- The line `ex`. -/
theorem beginning_exits : round [101, 120, 10] = some (.exit, []) ∧ chop [101, 120, 10] ≠ EXIT := by
  decide +kernel

end Xv6.Sh
