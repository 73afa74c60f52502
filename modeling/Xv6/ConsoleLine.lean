import Xv6.Console
import Xv6.Fifo

/-!
**The console's line discipline** (`console.c`): what is typed, erased, committed and read.

`consoleintr` edits the ring `input` character by character (`Input.key`), and any number of
processes read from it in `consoleread`. The steps are one character typed and one round of a
reader's loop; `cons.lock` is held over several of them, so there are more interleavings here
than on the machine.

Next to the ring runs an abstract line editor, `Line`, which has lists for a ring and no indices:
the characters that have been committed, how many of them have been handed out, and those typed
since.
-/

namespace Xv6.ConsoleLine

open Transition Fifo Function List
open Console (Input INPUT_BUF ctrl killLine)

/-! ### The line editor -/

structure Line where
  /-- All characters that have been committed. -/
  committed : List Nat
  /-- How many of them have been handed out. -/
  taken : Nat
  /-- Typed since the last commit, and not erased. -/
  pending : List Nat

namespace Line

def all (l : Line) : List Nat := l.committed ++ l.pending

def held (l : Line) : Nat := l.all.length - l.taken

/-- Add a character; the end of a line and a full buffer commit. -/
def type (l : Line) (c : Nat) : Line :=
  if c = 10 ∨ l.held + 1 = 128 then
    { l with committed := l.all ++ [c], pending := [] }
  else { l with pending := l.pending ++ [c] }

def key (l : Line) (c : Nat) : Line :=
  if c = ctrl 80 ∨ c = ctrl 68 then l
  else if c = ctrl 85 then { l with pending := [] }
  else if c = ctrl 72 ∨ c = 127 then { l with pending := l.pending.dropLast }
  else if c ≠ 0 ∧ l.held < 128 then l.type (if c = 13 then 10 else c)
  else l

def take (l : Line) : Line := { l with taken := l.taken + 1 }

end Line

/-! ### The system -/

/-- A process in `consoleread`: the number it asked for, and what remains of it. -/
structure Reader where
  target : Nat
  n : Int

structure State (P : Type) where
  input : Input
  reader : P → Option Reader
  /-- The characters handed out, by whichever call. -/
  out : List Nat
  line : Line

inductive Action (P : Type) where
  /-- `getc` delivers a character. -/
  | key (c : UInt8)
  /-- Call `consoleread`. -/
  | read (p : P) (n : Int)
  /-- A round of its loop, with the flag it finds in `killed`. -/
  | round (p : P) (killed : Bool)

variable {P : Type} [DecidableEq P]

def State.leave (s : State P) (p : P) : State P :=
  { s with reader := update s.reader p none }

/-- A round of the loop of `consoleread`. -/
def State.round (s : State P) (p : P) (rd : Reader) (killed : Bool) : State P :=
  if ¬ 0 < rd.n then s.leave p
  else if s.input.r = s.input.w then
    -- `sleep`, to be back for another round
    if killed then s.leave p else s
  else
    let c := s.input.at s.input.r
    let input := { s.input with r := s.input.r + 1 }
    if c = ctrl 68 then
      { s.leave p with
        input := if rd.n.toNat < rd.target then { input with r := input.r - 1 } else input }
    else
      { s with
        input := input
        out := s.out ++ [c]
        line := s.line.take
        reader := update s.reader p
          (if c = 10 then none else some { rd with n := rd.n - 1 }) }

def step (s : State P) : Action P → Option (State P)
  | .key c => some { s with input := (s.input.key c.toNat).1, line := s.line.key c.toNat }
  | .read p n =>
      if (s.reader p).isNone then
        some { s with reader := update s.reader p (some ⟨ofInt32 n, n⟩) }
      else none
  | .round p killed => (s.reader p).map fun rd => s.round p rd killed

def boot : State P where
  input := { buf := fun _ => 0, r := 0, w := 0, e := 0 }
  reader _ := none
  out := []
  line := { committed := [], taken := 0, pending := [] }

def system (P : Type) [DecidableEq P] : System (State P) (Action P) where
  init s := s = boot
  step := step

/-! ### The ring shows the line -/

def ring (inp : Input) : Ring 128 Nat where
  data i := inp.buf i
  nread := inp.r
  nwrite := inp.e

structure Shows (inp : Input) (l : Line) : Prop where
  carries : Carries (ring inp) l.all l.taken
  w : inp.w = UInt32.ofNat l.committed.length
  taken : l.taken ≤ l.committed.length
  /-- The end of a line is committed at once. -/
  newline : 10 ∉ l.pending
  /-- So is what fills the buffer. -/
  full : l.held = 128 → l.pending = []
  /-- Control-D does not get in. -/
  eof : ctrl 68 ∉ l.all

section

variable {inp : Input} {l : Line}

theorem at_ofNat (inp : Input) (j : Nat) :
    inp.at (UInt32.ofNat j) = (ring inp).data (Fin.ofNat 128 j) := by
  have hmod : (UInt32.ofNat j % INPUT_BUF).toNat = (Fin.ofNat 128 j).val := by
    exact Nat.mod_mod_of_dvd j (by decide)
  rw [Input.at, hmod]
  rfl

theorem Shows.at (h : Shows inp l) {j : Nat} (hj : l.taken ≤ j) (hlt : j < l.all.length) :
    inp.at (UInt32.ofNat j) = l.all[j] := by
  rw [at_ofNat]
  exact h.carries.data_getElem hj hlt

theorem Line.length_all (l : Line) : l.all.length = l.committed.length + l.pending.length :=
  length_append

variable (h : Shows inp l)
include h

theorem Shows.room : l.all.length ≤ l.taken + 128 := h.carries.room

theorem Shows.held : (inp.e - inp.r).toNat = l.held :=
  h.carries.size (by decide)

theorem Shows.typed : (inp.e - inp.w).toNat = l.pending.length := by
  have hroom := h.room
  have htaken := h.taken
  have hlen := l.length_all
  have he : inp.e = UInt32.ofNat l.all.length := h.carries.nwrite
  rw [he, h.w, Carries.toNat_sub_ofNat (by omega) (by omega)]
  omega

theorem Shows.unread : (inp.w - inp.r).toNat = l.committed.length - l.taken := by
  have hroom := h.room
  have hlen := l.length_all
  have hr : inp.r = UInt32.ofNat l.taken := h.carries.nread
  rw [h.w, hr]
  exact Carries.toNat_sub_ofNat h.taken (by omega)

theorem Shows.edit_iff : inp.e = inp.w ↔ l.pending = [] := by
  have hroom := h.room
  have htaken := h.taken
  have hlen := l.length_all
  have he : inp.e = UInt32.ofNat l.all.length := h.carries.nwrite
  have heq : UInt32.ofNat l.committed.length = UInt32.ofNat l.all.length ↔
      l.committed.length = l.all.length := Carries.ofNat_inj (by omega) (by omega)
  rw [he, h.w, eq_comm, heq, ← length_eq_zero_iff]
  omega

theorem Shows.erase {ps : List Nat} {a : Nat} (hps : l.pending = ps ++ [a]) :
    Shows { inp with e := inp.e - 1 } { l with pending := ps } := by
  have hall : l.all = (l.committed ++ ps) ++ [a] := by rw [Line.all, hps, append_assoc]
  have htaken := h.taken
  constructor
  · have hcarries := h.carries
    rw [hall] at hcarries
    apply hcarries.unput
    rw [length_append]
    omega
  · exact h.w
  · exact h.taken
  · intro hin
    exact h.newline (hps ▸ mem_append_left _ hin)
  · intro hfull
    -- one more was in before, and that is too many
    have hroom := h.room
    rw [hall, length_append] at hroom
    have hheld : (l.committed ++ ps).length - l.taken = 128 := hfull
    simp only [length_cons] at hroom
    omega
  · intro hin
    apply h.eof
    rw [hall]
    exact mem_append_left _ hin

theorem Shows.last {ps : List Nat} {a : Nat} (hps : l.pending = ps ++ [a]) :
    inp.at (inp.e - 1) = a := by
  have htaken := h.taken
  have hall : l.all = (l.committed ++ ps) ++ [a] := by rw [Line.all, hps, append_assoc]
  have hlen : l.all.length = (l.committed ++ ps).length + 1 := by
    rw [hall, length_append]
    rfl
  have he : inp.e - 1 = UInt32.ofNat (l.committed ++ ps).length := by
    have hnw : inp.e = UInt32.ofNat l.all.length := h.carries.nwrite
    rw [hnw, hlen, UInt32.ofNat_add]
    exact UInt32.add_sub_cancel _ _
  rw [he, h.at]
  · simp only [hall, getElem_concat_length]
  · rw [length_append]
    omega
  · omega

omit h

theorem Shows.killLine (n : Nat) : ∀ {inp : Input} {l : Line}, Shows inp l → l.pending.length ≤ n →
    Shows (killLine n inp) { l with pending := [] } := by
  induction n with
  | zero =>
    intro inp l h hn
    have hnil : l.pending = [] := length_eq_zero_iff.mp (Nat.le_zero.mp hn)
    rw [← hnil]
    exact h
  | succ n ih =>
    intro inp l h hn
    rw [Console.killLine]
    rcases eq_nil_or_concat' l.pending with hnil | ⟨ps, a, hps⟩
    · rw [if_neg fun hne => hne.1 (h.edit_iff.mpr hnil), ← hnil]
      exact h
    have hne : inp.e ≠ inp.w := by
      intro heq
      rw [h.edit_iff.mp heq] at hps
      cases ps <;> cases hps
    have ha : a ≠ 10 := by
      rintro rfl
      apply h.newline
      rw [hps]
      exact mem_append_right _ (.head _)
    rw [if_pos ⟨hne, by rwa [h.last hps]⟩]
    apply ih (h.erase hps)
    rw [hps, length_append] at hn
    exact Nat.le_of_succ_le_succ hn

theorem Shows.backspace (h : Shows inp l) :
    Shows (if inp.e ≠ inp.w then { inp with e := inp.e - 1 } else inp)
      { l with pending := l.pending.dropLast } := by
  rcases eq_nil_or_concat' l.pending with hnil | ⟨ps, a, hps⟩
  · rw [if_neg (not_not_intro (h.edit_iff.mpr hnil)), hnil]
    rw [show ([] : List Nat).dropLast = l.pending from hnil.symm]
    exact h
  rw [if_pos, hps, dropLast_concat]
  · exact h.erase hps
  · intro heq
    rw [h.edit_iff.mp heq] at hps
    cases ps <;> cases hps

def insert (inp : Input) (c : Nat) : Input :=
  { inp with buf := update inp.buf (inp.e % INPUT_BUF).toNat c, e := inp.e + 1 }

theorem ring_insert (inp : Input) (c : Nat) : ring (insert inp c) = (ring inp).put c := by
  have hslot : (inp.e % INPUT_BUF).toNat = (Ring.slot 128 inp.e).val := by rfl
  have hdata : (ring (insert inp c)).data =
      update (ring inp).data (Ring.slot 128 inp.e) c := by
    funext i
    change update inp.buf (inp.e % INPUT_BUF).toNat c i = _
    rw [hslot]
    by_cases hi : i = Ring.slot 128 inp.e
    · subst hi
      rw [update_self, update_self]
    · rw [update_of_ne hi, update_of_ne fun heq => hi (Fin.ext heq)]
      rfl
  exact congrArg (fun d => (⟨d, inp.r, inp.e + 1⟩ : Ring 128 Nat)) hdata

variable (h : Shows inp l)
include h

theorem Shows.carries_insert (hheld : l.held < 128) (c : Nat) :
    Carries (ring (insert inp c)) (l.all ++ [c]) l.taken := by
  rw [ring_insert]
  apply h.carries.put (by decide) (by decide)
  rw [h.carries.isFull_iff (by decide)]
  rw [Line.held] at hheld
  omega

theorem Shows.full_iff (hheld : l.held < 128) (c : Nat) :
    inp.e + 1 = inp.r + INPUT_BUF ↔ l.held + 1 = 128 := by
  have hfull := (h.carries_insert hheld c).isFull_iff (by decide)
  rw [length_append] at hfull
  apply hfull.trans
  rw [Line.held]
  simp only [length_cons, length_nil]
  omega

theorem Shows.commit (hheld : l.held < 128) {c : Nat} (hc : c ≠ ctrl 68) :
    Shows { insert inp c with w := inp.e + 1 }
      { l with committed := l.all ++ [c], pending := [] } := by
  have hcarries := h.carries_insert hheld c
  have hall : { l with committed := l.all ++ [c], pending := [] }.all = l.all ++ [c] :=
    append_nil _
  constructor
  · rw [hall]
    exact hcarries
  · exact hcarries.nwrite
  · exact hcarries.taken
  · exact not_mem_nil
  · exact fun _ => rfl
  · rw [hall, mem_append, mem_singleton]
    rintro (hin | heq)
    · exact h.eof hin
    · exact hc heq.symm

theorem Shows.append (hheld : l.held + 1 < 128) {c : Nat} (hc : c ≠ ctrl 68) (hline : c ≠ 10) :
    Shows (insert inp c) { l with pending := l.pending ++ [c] } := by
  have hall : { l with pending := l.pending ++ [c] }.all = l.all ++ [c] :=
    (append_assoc ..).symm
  constructor
  · rw [hall]
    exact h.carries_insert (Nat.lt_of_succ_lt hheld) c
  · exact h.w
  · exact h.taken
  · rw [mem_append, mem_singleton]
    rintro (hin | heq)
    · exact h.newline hin
    · exact hline heq.symm
  · intro hfull
    have hone : (l.all ++ [c]).length - l.taken ≤ l.all.length - l.taken + 1 := by
      rw [length_append]
      simp only [length_cons, length_nil]
      omega
    have hlen : (l.all ++ [c]).length - l.taken = 128 := by
      rw [← hall]
      exact hfull
    rw [Line.held] at hheld
    omega
  · rw [hall, mem_append, mem_singleton]
    rintro (hin | heq)
    · exact h.eof hin
    · exact hc heq.symm

theorem Shows.type (hheld : l.held < 128) {c : Nat} (hc : c ≠ ctrl 68) :
    Shows (if c = 10 ∨ c = ctrl 68 ∨ inp.e + 1 = inp.r + INPUT_BUF then
        { insert inp c with w := inp.e + 1 } else insert inp c) (l.type c) := by
  have hcommit : (c = 10 ∨ c = ctrl 68 ∨ inp.e + 1 = inp.r + INPUT_BUF) ↔
      (c = 10 ∨ l.held + 1 = 128) := by
    rw [or_iff_right hc, h.full_iff hheld c]
  rw [Line.type]
  by_cases hends : c = 10 ∨ l.held + 1 = 128
  · rw [if_pos (hcommit.mpr hends), if_pos hends]
    exact h.commit hheld hc
  · rw [if_neg (mt hcommit.mp hends), if_neg hends]
    obtain ⟨hline, hroom⟩ := not_or.mp hends
    exact h.append (Nat.lt_of_le_of_ne hheld hroom) hc hline

/-- **The switch of `consoleintr`** does to the ring what the line editor does to the line. -/
theorem Shows.key (c : Nat) : Shows (inp.key c).1 (l.key c) := by
  rw [Input.key, Line.key]
  by_cases hctrl : c = ctrl 80 ∨ c = ctrl 68
  · rw [if_pos hctrl, if_pos hctrl]
    exact h
  rw [if_neg hctrl, if_neg hctrl]
  by_cases hkill : c = ctrl 85
  · rw [if_pos hkill, if_pos hkill]
    apply h.killLine
    rw [h.typed]
  rw [if_neg hkill, if_neg hkill]
  by_cases hback : c = ctrl 72 ∨ c = 127
  · rw [if_pos hback, if_pos hback]
    exact h.backspace
  rw [if_neg hback, if_neg hback]
  have hroom : (c ≠ 0 ∧ inp.e - inp.r < INPUT_BUF) ↔ (c ≠ 0 ∧ l.held < 128) := by
    rw [UInt32.lt_iff_toNat_lt, h.held]
    exact Iff.rfl
  by_cases hin : c ≠ 0 ∧ l.held < 128
  · rw [if_pos (hroom.mpr hin), if_pos hin]
    have hc : (if c = 13 then 10 else c) ≠ ctrl 68 := by
      split
      · decide
      · exact fun heq => hctrl (.inr heq)
    have htyped := h.type hin.2 hc
    simp only [apply_ite Prod.fst]
    exact htyped
  · rw [if_neg (mt hroom.mp hin), if_neg hin]
    exact h

theorem Shows.read_iff : inp.r = inp.w ↔ l.taken = l.committed.length := by
  have hroom := h.room
  have hlen := l.length_all
  have hr : inp.r = UInt32.ofNat l.taken := h.carries.nread
  rw [hr, h.w]
  exact Carries.ofNat_inj h.taken (by omega)

theorem Shows.next (hne : inp.r ≠ inp.w) :
    l.committed[l.taken]? = some (inp.at inp.r) ∧ inp.at inp.r ≠ ctrl 68 ∧
      Shows { inp with r := inp.r + 1 } l.take := by
  have hlt : l.taken < l.committed.length :=
    Nat.lt_of_le_of_ne h.taken fun heq => hne (h.read_iff.mpr heq)
  have hlen := l.length_all
  have hr : inp.r = UInt32.ofNat l.taken := h.carries.nread
  have hin : l.taken < l.all.length := by omega
  have hat : inp.at inp.r = l.all[l.taken] := by
    rw [hr]
    exact h.at (Nat.le_refl _) hin
  have hcommitted : l.all[l.taken] = l.committed[l.taken] := getElem_append_left hlt
  refine ⟨?_, ?_, ?_⟩
  · rw [List.getElem?_eq_getElem hlt, hat, hcommitted]
  · intro heq
    apply h.eof
    rw [← heq, hat]
    exact getElem_mem hin
  · constructor
    · apply (h.carries.advance (by decide) (by decide) ?_).2
      rw [h.carries.isEmpty_iff (by decide)]
      omega
    · exact h.w
    · exact hlt
    · exact h.newline
    · intro hfull
      have hheld : l.all.length - (l.taken + 1) = 128 := hfull
      have hroom := h.room
      omega
    · exact h.eof

end

/-! ### Runs -/

theorem Line.type_committed (l : Line) (c : Nat) :
    (l.type c).taken = l.taken ∧ ∃ cs, (l.type c).committed = l.committed ++ cs := by
  rw [Line.type]
  split
  · exact ⟨rfl, _, append_assoc ..⟩
  · exact ⟨rfl, [], (append_nil _).symm⟩

theorem Line.key_committed (l : Line) (c : Nat) :
    (l.key c).taken = l.taken ∧ ∃ cs, (l.key c).committed = l.committed ++ cs := by
  have hsame : ∃ cs, l.committed = l.committed ++ cs := ⟨[], (append_nil _).symm⟩
  rw [Line.key]
  split
  · exact ⟨rfl, hsame⟩
  split
  · exact ⟨rfl, hsame⟩
  split
  · exact ⟨rfl, hsame⟩
  · split
    · exact l.type_committed _
    · exact ⟨rfl, hsame⟩

/-- **The invariant**: the ring shows the line, and what has been handed out is what was committed
first. -/
structure Sound (s : State P) : Prop where
  shows_line : Shows s.input s.line
  out : s.out = s.line.committed.take s.line.taken

section

variable {s s' : State P} {p : P}

omit [DecidableEq P] in
theorem Sound.boot : Sound (boot : State P) where
  shows_line :=
    { carries := ⟨rfl, rfl, Nat.le_refl _, Nat.zero_le _, nofun⟩
      w := rfl
      taken := Nat.le_refl _
      newline := not_mem_nil
      full := fun _ => rfl
      eof := not_mem_nil }
  out := rfl

omit [DecidableEq P] in
theorem Sound.key (h : Sound s) (c : Nat) :
    Sound { s with input := (s.input.key c).1, line := s.line.key c } where
  shows_line := h.shows_line.key c
  out := by
    obtain ⟨htaken, cs, hcommitted⟩ := s.line.key_committed c
    rw [htaken, hcommitted, take_append_of_le_length h.shows_line.taken]
    exact h.out

theorem Sound.round (h : Sound s) (rd : Reader) (killed : Bool) : Sound (s.round p rd killed) := by
  rw [State.round]
  split
  · exact ⟨h.shows_line, h.out⟩
  split
  · split
    · exact ⟨h.shows_line, h.out⟩
    · exact h
  rename_i hne
  obtain ⟨hnext, heof, hshows⟩ := h.shows_line.next hne
  rw [if_neg heof]
  refine ⟨hshows, ?_⟩
  change s.out ++ [s.input.at s.input.r] = s.line.committed.take (s.line.taken + 1)
  rw [take_add_one, hnext, h.out]
  rfl

theorem Sound.step {a : Action P} (h : Sound s) (hs : ConsoleLine.step s a = some s') :
    Sound s' := by
  cases a with
  | key c =>
    cases hs
    exact h.key c.toNat
  | read =>
    simp only [ConsoleLine.step] at hs
    split at hs
    · cases hs
      exact ⟨h.shows_line, h.out⟩
    · cases hs
  | round p killed =>
    simp only [ConsoleLine.step, Option.map_eq_some_iff] at hs
    obtain ⟨rd, -, rfl⟩ := hs
    exact h.round rd killed

theorem sound_of_reached (h : (system P).Reached s) : Sound s := by
  apply h.invariant (I := Sound)
  · rintro _ rfl
    exact Sound.boot
  · intro s a s' h _ hs
    exact h.step hs

end

/-! ### The discipline -/

variable {inp : Input} {l : Line}

theorem killLine_frame (n : Nat) : ∀ inp : Input,
    (killLine n inp).buf = inp.buf ∧ (killLine n inp).r = inp.r ∧ (killLine n inp).w = inp.w := by
  induction n with
  | zero => exact fun _ => ⟨rfl, rfl, rfl⟩
  | succ n ih =>
    intro inp
    rw [Console.killLine]
    split
    · exact ih _
    · exact ⟨rfl, rfl, rfl⟩

def Erases (c : Nat) : Prop := c = ctrl 85 ∨ c = ctrl 72 ∨ c = 127

theorem backspace_ne {c : Nat} (hc : c = ctrl 72 ∨ c = 127) :
    ¬ (c = ctrl 80 ∨ c = ctrl 68) ∧ c ≠ ctrl 85 := by
  rcases hc with rfl | rfl <;> decide

theorem erases_frame {c : Nat} (hc : Erases c) (inp : Input) :
    (inp.key c).1.buf = inp.buf ∧ (inp.key c).1.r = inp.r ∧ (inp.key c).1.w = inp.w := by
  rw [Input.key]
  rcases hc with rfl | hback
  · exact killLine_frame _ inp
  obtain ⟨hctrl, hkill⟩ := backspace_ne hback
  rw [if_neg hctrl, if_neg hkill, if_pos hback]
  split <;> exact ⟨rfl, rfl, rfl⟩

theorem key_buf (inp : Input) (c : Nat) :
    (inp.key c).1.buf = inp.buf ∨
      inp.e - inp.r < INPUT_BUF ∧ ∃ d, (inp.key c).1.buf = (insert inp d).buf := by
  by_cases hc : Erases c
  · exact .inl (erases_frame hc inp).1
  obtain ⟨hkill, hback⟩ := not_or.mp hc
  rw [Input.key]
  by_cases hctrl : c = ctrl 80 ∨ c = ctrl 68
  · rw [if_pos hctrl]
    exact .inl rfl
  rw [if_neg hctrl, if_neg hkill, if_neg hback]
  by_cases hin : c ≠ 0 ∧ inp.e - inp.r < INPUT_BUF
  · rw [if_pos hin]
    refine .inr ⟨hin.2, if c = 13 then 10 else c, ?_⟩
    simp only [apply_ite Prod.fst, apply_ite Input.buf, ite_self]
    rfl
  · rw [if_neg hin]
    exact .inl rfl

theorem Shows.kept (h : Shows inp l) (c : Nat) {i : UInt32} (hi : i - inp.r < inp.e - inp.r) :
    (inp.key c).1.at i = inp.at i := by
  rcases key_buf inp c with hbuf | ⟨hroom, d, hbuf⟩
  · rw [Input.at, Input.at, hbuf]
  have hr : inp.r = UInt32.ofNat l.taken := h.carries.nread
  have hheld : l.held < 128 := by
    rw [UInt32.lt_iff_toNat_lt, h.held] at hroom
    exact hroom
  rw [UInt32.lt_iff_toNat_lt, h.held, Line.held, hr] at hi
  rw [Carries.eq_ofNat_add i l.taken]
  generalize (i - UInt32.ofNat l.taken).toNat = j at hi
  have hlt : l.taken + j < l.all.length := by omega
  have hlt' : l.taken + j < (l.all ++ [d]).length := by
    rw [length_append]
    omega
  have hcell : ∀ inp' : Input, inp'.buf = (insert inp d).buf →
      inp'.at (UInt32.ofNat (l.taken + j)) =
        (insert inp d).at (UInt32.ofNat (l.taken + j)) := by
    intro inp' heq
    rw [Input.at, Input.at, heq]
  rw [h.at (Nat.le_add_right _ _) hlt, hcell _ hbuf, at_ofNat,
    (h.carries_insert hheld d).data_getElem (Nat.le_add_right _ _) hlt']
  exact getElem_append_left hlt

theorem kept_of_step {s s' : State P} {a : Action P} (h : Sound s) (hs : step s a = some s')
    {i : UInt32} (hi : i - s.input.r < s.input.e - s.input.r) : s'.input.at i = s.input.at i := by
  have hbuf : ∀ {inp : Input}, inp.buf = s.input.buf → inp.at i = s.input.at i := by
    intro inp heq
    rw [Input.at, Input.at, heq]
  cases a with
  | key c =>
    cases hs
    exact h.shows_line.kept c.toNat hi
  | read =>
    obtain ⟨-, ⟨⟩⟩ := Option.ite_none_right_eq_some.mp hs
    rfl
  | round =>
    simp only [step, Option.map_eq_some_iff] at hs
    obtain ⟨rd, -, rfl⟩ := hs
    apply hbuf
    rw [State.round]
    split
    · rfl
    split
    · split <;> rfl
    simp only
    split
    · split <;> rfl
    · rfl

/-- **The discipline of the console.** -/
structure Disciplined (s : State P) : Prop where
  /-- The indices are in order, and not further apart than the buffer is long. -/
  order : s.input.w - s.input.r ≤ s.input.e - s.input.r ∧ s.input.e - s.input.r ≤ INPUT_BUF
  /-- Nothing is overwritten that has been neither read nor erased. -/
  kept : ∀ a s', step s a = some s' → ∀ i, i - s.input.r < s.input.e - s.input.r →
    s'.input.at i = s.input.at i
  /-- A full buffer can be read. -/
  full : s.input.e - s.input.r = INPUT_BUF → s.input.w = s.input.e
  newline : ∀ i, i - s.input.w < s.input.e - s.input.w → s.input.at i ≠ 10
  /-- Only what has been typed since the last commit is erased. -/
  erase : ∀ c, Erases c →
    (s.input.key c).1.buf = s.input.buf ∧ (s.input.key c).1.r = s.input.r ∧
      (s.input.key c).1.w = s.input.w ∧ (s.input.key c).1.e - s.input.w ≤ s.input.e - s.input.w
  /-- What is handed out is what was committed, from the first character on. -/
  out : s.line.taken ≤ s.line.committed.length ∧ s.out = s.line.committed.take s.line.taken
  /-- As many are unread as were committed and not handed out. -/
  rest : (s.input.w - s.input.r).toNat = s.line.committed.length - s.line.taken
  /-- The unread characters are those, in the same order. -/
  unread : ∀ i, i - s.input.r < s.input.w - s.input.r →
    s.line.committed[s.line.taken + (i - s.input.r).toNat]? = some (s.input.at i)

theorem Line.key_pending {c : Nat} (hc : Erases c) (l : Line) :
    (l.key c).pending.length ≤ l.pending.length := by
  rw [Line.key]
  rcases hc with rfl | hback
  · exact Nat.zero_le _
  obtain ⟨hctrl, hkill⟩ := backspace_ne hback
  rw [if_neg hctrl, if_neg hkill, if_pos hback]
  simp only [length_dropLast]
  exact Nat.sub_le _ _

/-- **The line discipline holds**, whoever types and reads what in whichever order. -/
theorem line_discipline (P : Type) [DecidableEq P] (s : State P) (h : (system P).Reached s) :
    Disciplined s := by
  have hsound := sound_of_reached h
  have hshows := hsound.shows_line
  have hroom := hshows.room
  have htaken := hshows.taken
  have hlen := s.line.length_all
  have hr : s.input.r = UInt32.ofNat s.line.taken := hshows.carries.nread
  constructor
  · rw [UInt32.le_iff_toNat_le, UInt32.le_iff_toNat_le, hshows.unread, hshows.held, Line.held]
    constructor
    · omega
    · change _ ≤ 128
      omega
  · intro a s' hs i hi
    exact kept_of_step hsound hs hi
  · intro hfull
    apply Eq.symm
    apply hshows.edit_iff.mpr
    apply hshows.full
    rw [← hshows.held, hfull]
    rfl
  · intro i hi
    rw [UInt32.lt_iff_toNat_lt, hshows.typed, hshows.w] at hi
    rw [Carries.eq_ofNat_add i s.line.committed.length]
    generalize (i - UInt32.ofNat s.line.committed.length).toNat = j at hi
    rw [hshows.at (by omega) (by omega)]
    intro heq
    apply hshows.newline
    rw [← heq]
    simp only [Line.all, getElem_append_right (Nat.le_add_right _ j)]
    exact getElem_mem _
  · intro c hc
    obtain ⟨hbuf, hr', hw⟩ := erases_frame hc s.input
    refine ⟨hbuf, hr', hw, ?_⟩
    have hkey := hshows.key c
    rw [← hw, UInt32.le_iff_toNat_le, hkey.typed]
    rw [hw, hshows.typed]
    exact Line.key_pending hc s.line
  · exact ⟨htaken, hsound.out⟩
  · exact hshows.unread
  · intro i hi
    rw [UInt32.lt_iff_toNat_lt, hshows.unread, hr] at hi
    rw [hr]
    have hlt : s.line.taken + (i - UInt32.ofNat s.line.taken).toNat < s.line.committed.length := by
      omega
    have hat : s.input.at i = s.line.all[s.line.taken + (i - UInt32.ofNat s.line.taken).toNat] := by
      conv_lhs => rw [Carries.eq_ofNat_add i s.line.taken]
      exact hshows.at (Nat.le_add_right _ _) (by omega)
    rw [hat, List.getElem?_eq_getElem hlt]
    exact congrArg some (getElem_append_left hlt).symm

def typeAndRead : List (Action Unit) :=
  [.read () 2, .round () false, .key 97, .key 98, .key 8, .key 99, .key 13, .round () false,
    .round () false, .round () false]

theorem line_discipline_two_read :
    ∃ s, (system Unit).Reached s ∧ s.line.committed = [97, 99, 10] ∧ s.out = [97, 99] ∧
      Disciplined s := by
  have hboot : (system Unit).Reached boot := .init rfl
  obtain ⟨s, hreached, hline, hout⟩ := hboot.run_decide typeAndRead
    (P := fun s => s.line.committed = [97, 99, 10] ∧ s.out = [97, 99]) (by decide +kernel)
  exact ⟨s, hreached, hline, hout, line_discipline Unit s hreached⟩

end Xv6.ConsoleLine
