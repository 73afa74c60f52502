import Xv6.Sh

/-!
**`grep`** (`grep.c`): the matcher, and the loop that looks for lines in what `read` delivers.

A pattern is a string of items, `c*`, a final `$`, or one character; `match_iff` says that
`match` finds a text exactly if the items spell a part of it. The matcher recurs on the pattern
and its loops on the text, so both end.

The loop of `grep` keeps a partial line in `buf` for the next `read`, unless there is no newline
in `buf`: then it starts over with an empty buffer. What has been read of the line is lost, so
the output does depend on where `read` splits the stream.
-/

namespace Xv6.Grep

open List

open Sh (Str cstring)

def STAR : UInt8 := 42
def DOLLAR : UInt8 := 36
def DOT : UInt8 := 46
def CARET : UInt8 := 94
def NEWLINE : UInt8 := 10

/-! ### The matcher -/

/-- Search for `c*re` at the beginning of the text; `here` is `matchhere` on `re`. -/
def matchstar (here : Str → Bool) (c : UInt8) : Str → Bool
  | [] => here []
  | t :: text => here (t :: text) || ((t == c || c == DOT) && matchstar here c text)

/-- One character of the text, then the rest of the pattern. -/
def matchone (here : Str → Bool) (c : UInt8) : Str → Bool
  | [] => false
  | t :: text => (c == DOT || c == t) && here text

/-- Search for `re` at the beginning of the text. -/
def matchhere : Str → Str → Bool
  | [], _ => true
  | [c], text =>
      if c = DOLLAR then text.isEmpty else matchone (fun text => matchhere [] text) c text
  | c :: d :: re, text =>
      if d = STAR then matchstar (fun text => matchhere re text) c text
      else matchone (fun text => matchhere (d :: re) text) c text

/-- The loop of `match`. -/
def matchany (re : Str) : Str → Bool
  | [] => matchhere re []
  | t :: text => matchhere re (t :: text) || matchany re text

def match_ (re text : Str) : Bool :=
  if re.head? = some CARET then matchhere re.tail text else matchany re text

/-! ### What a pattern means -/

inductive Item where
  | star (c : UInt8)
  /-- A `$` at the end of the pattern. -/
  | finish
  | char (c : UInt8)

def items : Str → List Item
  | [] => []
  | [c] => if c = DOLLAR then [.finish] else [.char c]
  | c :: d :: re => if d = STAR then .star c :: items re else .char c :: items (d :: re)

/-- The character `c` of a pattern matches `t`. -/
def Accepts (c t : UInt8) : Prop := c = DOT ∨ t = c

/-- The items, one after the other, spell the beginning of the text. -/
def Spells : List Item → Str → Prop
  | [], _ => True
  | .star c :: is, text => ∃ s rest, text = s ++ rest ∧ (∀ t ∈ s, Accepts c t) ∧ Spells is rest
  | .finish :: is, text => text = [] ∧ Spells is text
  | .char c :: is, text => ∃ t rest, text = t :: rest ∧ Accepts c t ∧ Spells is rest

/-- The text matches: from its beginning after a leading `^`, from anywhere otherwise. -/
def Matches (re text : Str) : Prop :=
  if re.head? = some CARET then Spells (items re.tail) text
  else ∃ s rest, text = s ++ rest ∧ Spells (items re) rest

theorem matchstar_iff {here : Str → Bool} {c : UInt8} {text : Str} :
    matchstar here c text = true ↔
      ∃ s rest, text = s ++ rest ∧ (∀ t ∈ s, Accepts c t) ∧ here rest = true := by
  induction text with
  | nil =>
    simp only [nil_eq_append_iff]
    constructor
    · exact fun h => ⟨[], [], ⟨rfl, rfl⟩, by simp, h⟩
    · rintro ⟨s, rest, ⟨rfl, rfl⟩, -, h⟩
      exact h
  | cons t text ih =>
    simp only [matchstar, Bool.or_eq_true, Bool.and_eq_true, beq_iff_eq, ih]
    constructor
    · rintro (h | ⟨ht, s, rest, rfl, hs, h⟩)
      · exact ⟨[], t :: text, rfl, by simp, h⟩
      · refine ⟨t :: s, rest, rfl, ?_, h⟩
        simpa using ⟨ht.symm, hs⟩
    · rintro ⟨s, rest, heq, hs, h⟩
      rcases s with _ | ⟨x, s⟩
      · exact .inl (by rw [heq]; exact h)
      · obtain ⟨rfl, rfl⟩ := List.cons.inj heq
        simp only [mem_cons, forall_eq_or_imp] at hs
        exact .inr ⟨hs.1.symm, s, rest, rfl, hs.2, h⟩

theorem matchone_iff {here : Str → Bool} {c : UInt8} {text : Str} :
    matchone here c text = true ↔
      ∃ t rest, text = t :: rest ∧ Accepts c t ∧ here rest = true := by
  rcases text with _ | ⟨t, text⟩
  · simp [matchone]
  · simp [matchone, Accepts, eq_comm (a := c) (b := t)]

theorem matchhere_iff {re text : Str} : matchhere re text = true ↔ Spells (items re) text := by
  induction re using items.induct generalizing text with
  | case1 => simp [matchhere, items, Spells]
  | case2 => simp [matchhere, items, Spells]
  | case3 c hc => simp [matchhere, items, Spells, hc, matchone_iff]
  | case4 c re ih => simp [matchhere, items, Spells, matchstar_iff, ih]
  | case5 c d re hd ih => simp [matchhere, items, Spells, hd, matchone_iff, ih]

/-- `match` tries every place, as `.*` would. -/
theorem matchany_eq {re text : Str} : matchany re text = matchstar (matchhere re) DOT text := by
  induction text with
  | nil => rfl
  | cons t text ih => simp [matchany, matchstar, ih]

theorem matchany_iff {re text : Str} :
    matchany re text = true ↔ ∃ s rest, text = s ++ rest ∧ matchhere re rest = true := by
  simp [matchany_eq, matchstar_iff, Accepts]

/-- **`match`** finds exactly the texts that the pattern means. -/
theorem match_iff (re text : Str) : match_ re text = true ↔ Matches re text := by
  rw [match_, Matches]
  split
  · exact matchhere_iff
  · simp only [matchany_iff, matchhere_iff]

/-! ### The loop -/

/-- Where `c` stands in the string from `p` on. -/
def strchr (buf : Str) (p : Nat) (c : UInt8) : Option Nat :=
  if c ∈ cstring buf p then some (p + (cstring buf p).idxOf c) else none

/-- The inner loop: what is written, `p`, and the buffer it leaves. -/
def scanLines (pattern : Str) : Nat → Str → Nat → List Str × Nat × Str
  | 0, buf, p => ([], p, buf)
  | n + 1, buf, p =>
      match strchr buf p NEWLINE with
      | none => ([], p, buf)
      | some q =>
          let buf := buf.set q 0
          if match_ pattern (cstring buf p) then
            let buf := buf.set q NEWLINE
            let (out, left) := scanLines pattern n buf (q + 1)
            ((buf.drop p).take (q + 1 - p) :: out, left)
          else scanLines pattern n buf (q + 1)

/-- One round of the outer loop, `buf` being the first `m` bytes: what is written and kept. -/
def round (pattern buf chunk : Str) : List Str × Str :=
  let buf := buf ++ chunk
  let (out, p, buf) := scanLines pattern buf.length buf 0
  (out, if p = 0 then [] else buf.drop p)

def grepLoop (pattern : Str) : Str → List Str → List Str
  | _, [] => []
  | buf, chunk :: chunks =>
      (round pattern buf chunk).1 ++ grepLoop pattern (round pattern buf chunk).2 chunks

/-- What `grep` writes, line by line, if `read` delivers these chunks. -/
def grep (pattern : Str) (chunks : List Str) : List Str := grepLoop pattern [] chunks

/-! ### Lines -/

/-- The lines of a text that end with a newline, without it. -/
def lines (text : Str) : List Str := (text.splitOn NEWLINE).dropLast

/-- What stands behind the last newline. -/
def remainder (text : Str) : Str := (text.splitOn NEWLINE).getLastD []

def found (pattern text : Str) : List Str :=
  ((lines text).filter (match_ pattern)).map (· ++ [NEWLINE])

section

variable {line text rest buf chunk pattern : Str} {chunks : List Str}

theorem splitOn_none (h : NEWLINE ∉ text) : text.splitOn NEWLINE = [text] := by
  rw [List.splitOn, splitOnP_eq_singleton]
  intro c hc
  simpa using fun he : c = NEWLINE => h (he ▸ hc)

theorem splitOn_line (h : NEWLINE ∉ line) :
    (line ++ NEWLINE :: rest).splitOn NEWLINE = line :: rest.splitOn NEWLINE := by
  rw [splitOn_append_cons_self, splitOn_none h]
  rfl

theorem lines_none (h : NEWLINE ∉ text) : lines text = [] ∧ remainder text = text := by
  simp [lines, remainder, splitOn_none h]

theorem lines_line (h : NEWLINE ∉ line) : lines (line ++ NEWLINE :: rest) = line :: lines rest ∧
    remainder (line ++ NEWLINE :: rest) = remainder rest := by
  simp only [lines, remainder, splitOn_line h]
  rcases hs : rest.splitOn NEWLINE with _ | ⟨first, others⟩
  · exact absurd hs (splitOn_ne_nil _ _)
  · simp

theorem line_cases (text : Str) : NEWLINE ∉ text ∨
    ∃ line rest, text = line ++ NEWLINE :: rest ∧ NEWLINE ∉ line := by
  by_cases h : NEWLINE ∈ text
  · exact .inr (eq_append_cons_of_mem h)
  · exact .inl h

/-- **The lines of two pieces** are those of the first and those that begin in its remainder. -/
theorem lines_append (text more : Str) :
    lines (text ++ more) = lines text ++ lines (remainder text ++ more) := by
  induction hn : text.length using Nat.strongRecOn generalizing text with
  | _ n ih =>
    rcases line_cases text with hnone | ⟨line, rest, rfl, hline⟩
    · rw [(lines_none hnone).1, (lines_none hnone).2, nil_append]
    · have hshort : rest.length < n := by simp at hn; omega
      rw [append_assoc, cons_append, (lines_line hline).1, (lines_line hline).1,
        (lines_line hline).2, ih _ hshort rest rfl, cons_append]

theorem found_line (h : NEWLINE ∉ line) : found pattern (line ++ NEWLINE :: rest) =
    (if match_ pattern line then [line ++ [NEWLINE]] else []) ++ found pattern rest := by
  rw [found, (lines_line h).1, filter_cons]
  split <;> rfl

theorem cstring_append (pre : Str) (h : 0 ∉ text) : cstring (pre ++ text) pre.length = text := by
  rw [cstring, drop_left, takeWhile_eq_self_iff]
  intro c hc
  simpa using fun hzero : c = 0 => h (hzero ▸ hc)

theorem cstring_terminated (pre : Str) (h : 0 ∉ line) :
    cstring (pre ++ (line ++ 0 :: rest)) pre.length = line := by
  rw [cstring, drop_left, takeWhile_append_of_pos]
  · simp
  · intro c hc
    simpa using fun hzero : c = 0 => h (hzero ▸ hc)

theorem strchr_line (pre : Str) (h0 : 0 ∉ line ++ NEWLINE :: rest) (h : NEWLINE ∉ line) :
    strchr (pre ++ (line ++ NEWLINE :: rest)) pre.length NEWLINE =
      some (pre.length + line.length) := by
  rw [strchr, cstring_append pre h0, if_pos (by simp), idxOf_append_of_notMem h,
    idxOf_cons_self, Nat.add_zero]

theorem set_line (pre : Str) (c d : UInt8) :
    (pre ++ (line ++ c :: rest)).set (pre.length + line.length) d =
      pre ++ (line ++ d :: rest) := by
  simp

/-- What the inner loop makes of a text that begins at `start`: the lines that match, and a
pointer behind the last newline. -/
structure Scanned (pattern text : Str) (start : Nat) (r : List Str × Nat × Str) : Prop where
  out : r.1 = found pattern text
  left : r.2.2.drop r.2.1 = remainder text
  ge : start ≤ r.2.1
  moved : r.2.1 = start ↔ NEWLINE ∉ text

theorem scanned_none (pre : Str) (n : Nat) (hnone : NEWLINE ∉ text) (h0 : 0 ∉ text) :
    Scanned pattern text pre.length (scanLines pattern n (pre ++ text) pre.length) := by
  have heq : scanLines pattern n (pre ++ text) pre.length = ([], pre.length, pre ++ text) := by
    cases n with
    | zero => rfl
    | succ n => simp [scanLines, strchr, cstring_append pre h0, hnone]
  rw [heq]
  constructor
  · simp [found, lines_none hnone]
  · rw [drop_left, (lines_none hnone).2]
  · exact Nat.le_refl _
  · simp [hnone]

theorem Scanned.cons {out : List Str} {p start : Nat} {left : Str} (hline : NEWLINE ∉ line)
    (h : Scanned pattern rest (start + line.length + 1) (out, p, left)) :
    Scanned pattern (line ++ NEWLINE :: rest) start
      ((if match_ pattern line then [line ++ [NEWLINE]] else []) ++ out, p, left) := by
  have hp : start + line.length + 1 ≤ p := h.ge
  constructor
  · rw [found_line hline, ← h.out]
  · rw [(lines_line hline).2, ← h.left]
  · exact Nat.le_trans (by omega) hp
  · simp
    omega

theorem scanned_scanLines {n : Nat} (pre : Str) (hn : text.count NEWLINE ≤ n) (h0 : 0 ∉ text) :
    Scanned pattern text pre.length (scanLines pattern n (pre ++ text) pre.length) := by
  induction n generalizing pre text with
  | zero => exact scanned_none pre 0 (count_eq_zero.mp (Nat.le_zero.mp hn)) h0
  | succ n ih =>
    rcases line_cases text with hnone | ⟨line, rest, rfl, hline⟩
    · exact scanned_none pre (n + 1) hnone h0
    have hq := strchr_line pre h0 hline
    simp only [mem_append, mem_cons, not_or] at h0
    -- The rest of the buffer, behind whatever is left of this line.
    have hrest : ∀ c, Scanned pattern rest (pre.length + line.length + 1)
        (scanLines pattern n (pre ++ (line ++ c :: rest)) (pre.length + line.length + 1)) := by
      intro c
      have hcount : rest.count NEWLINE ≤ n := by
        rw [count_append, count_cons_self] at hn
        omega
      simpa [Nat.add_assoc] using ih (pre ++ line ++ [c]) hcount h0.2.2
    rw [scanLines]
    simp only [hq, set_line, cstring_terminated pre h0.1]
    split
    next hmatch =>
      have hwritten : ((pre ++ (line ++ NEWLINE :: rest)).drop pre.length).take
          (pre.length + line.length + 1 - pre.length) = line ++ [NEWLINE] := by
        have hlen : pre.length + line.length + 1 - pre.length = (line ++ [NEWLINE]).length := by
          simp
          omega
        rw [drop_left, hlen, append_cons line NEWLINE rest, take_left]
      have h := (hrest NEWLINE).cons hline
      rw [if_pos hmatch] at h
      rw [hwritten]
      exact h
    next hmatch =>
      have h := (hrest 0).cons hline
      rw [if_neg hmatch] at h
      exact h

/-- **A round** writes the lines that match; it keeps what is behind the last newline, and
nothing if there is none. -/
theorem round_eq (h0 : 0 ∉ buf ++ chunk) : round pattern buf chunk =
    (found pattern (buf ++ chunk),
      if NEWLINE ∈ buf ++ chunk then remainder (buf ++ chunk) else []) := by
  have h : Scanned pattern (buf ++ chunk) 0
      (scanLines pattern (buf ++ chunk).length (buf ++ chunk) 0) :=
    scanned_scanLines [] count_le_length h0
  simp only [round, h.out, h.left, h.moved, ite_not]

theorem remainder_suffix (text : Str) : NEWLINE ∉ remainder text ∧ remainder text <:+ text := by
  induction hn : text.length using Nat.strongRecOn generalizing text with
  | _ n ih =>
    rcases line_cases text with hnone | ⟨line, rest, rfl, hline⟩
    · rw [(lines_none hnone).2]
      exact ⟨hnone, suffix_refl _⟩
    · have hshort : rest.length < n := by simp at hn; omega
      obtain ⟨hfree, hsuffix⟩ := ih _ hshort rest rfl
      rw [(lines_line hline).2]
      refine ⟨hfree, hsuffix.trans ?_⟩
      rw [append_cons]
      exact suffix_append _ _

theorem found_none (h : NEWLINE ∉ text) : found pattern text = [] := by
  rw [found, (lines_none h).1]
  rfl

theorem found_append (text more : Str) :
    found pattern (text ++ more) = found pattern text ++ found pattern (remainder text ++ more) := by
  simp only [found, lines_append text more, filter_append, map_append]

/-! ### Where the stream may be split -/

/-- **The condition on the reads**: each of them delivers a newline, up to the last of the
stream. -/
def Whole : List Str → Prop
  | [] => True
  | chunk :: chunks => (NEWLINE ∈ chunks.flatten → NEWLINE ∈ chunk) ∧ Whole chunks

instance : DecidablePred Whole := fun chunks => by
  induction chunks with
  | nil => exact isTrue trivial
  | cons chunk chunks ih => exact inferInstanceAs (Decidable (_ ∧ _))

/-- A partial line is in the buffer, and there are no NULs. -/
structure Pending (buf : Str) (chunks : List Str) : Prop where
  line : NEWLINE ∉ buf
  text : 0 ∉ buf ++ chunks.flatten

variable (h : Pending buf (chunk :: chunks))
include h

theorem Pending.text_cons : 0 ∉ buf ++ chunk ∧ 0 ∉ chunks.flatten := by
  have htext := h.text
  rw [flatten_cons, ← append_assoc, mem_append, not_or] at htext
  exact htext

theorem Pending.next : Pending (remainder (buf ++ chunk)) chunks where
  line := (remainder_suffix _).1
  text := by
    rw [mem_append, not_or]
    exact ⟨fun hzero => h.text_cons.1 ((remainder_suffix _).2.subset hzero), h.text_cons.2⟩

theorem Pending.over : Pending [] chunks where
  line := not_mem_nil
  text := h.text_cons.2

theorem Pending.grepLoop_cons :
    grepLoop pattern buf (chunk :: chunks) =
      if NEWLINE ∈ chunk then
        found pattern (buf ++ chunk) ++ grepLoop pattern (remainder (buf ++ chunk)) chunks
      else grepLoop pattern [] chunks := by
  rw [grepLoop, round_eq h.text_cons.1]
  by_cases hmem : NEWLINE ∈ chunk
  · simp [hmem]
  · have hnone : NEWLINE ∉ buf ++ chunk := by simp [h.line, hmem]
    simp [hmem, h.line, found_none hnone]

omit h

theorem Pending.grepLoop_eq (h : Pending buf chunks) (hw : Whole chunks) :
    grepLoop pattern buf chunks = found pattern (buf ++ chunks.flatten) := by
  induction chunks generalizing buf with
  | nil => simp [grepLoop, found_none h.line]
  | cons chunk chunks ih =>
    rw [h.grepLoop_cons, flatten_cons, ← append_assoc]
    split
    · rw [ih h.next hw.2, ← found_append]
    next hmem =>
      have hrest : NEWLINE ∉ chunks.flatten := fun hlater => hmem (hw.1 hlater)
      rw [ih h.over hw.2, found_none (by simpa using hrest), found_none]
      simp [h.line, hmem, hrest]

theorem match_nil (text : Str) : match_ [] text = true := by
  cases text <;> simp [match_, matchany, matchhere]

/-- How much `grep` is to write if the pattern is empty. -/
def size (text : Str) : Nat := (found [] text).flatten.length

/-- A beginning of a line counts if the line ends. -/
theorem size_append (h : NEWLINE ∉ text) (hrest : NEWLINE ∈ rest) :
    size (text ++ rest) = text.length + size rest := by
  obtain ⟨line, rest, rfl, hline⟩ := eq_append_cons_of_mem hrest
  have hfree : NEWLINE ∉ text ++ line := by simp [h, hline]
  rw [size, size, ← append_assoc, found_line hfree, found_line hline]
  simp only [match_nil, if_true, flatten_append, length_append, flatten_singleton]
  omega

theorem size_none (h : NEWLINE ∉ text) : size text = 0 := by rw [size, found_none h]; rfl

/-- **With the empty pattern** too little is written, unless the reads are whole. -/
theorem Pending.size_grepLoop (h : Pending buf chunks) (hne : ∀ chunk ∈ chunks, chunk ≠ []) :
    (grepLoop [] buf chunks).flatten.length ≤ size (buf ++ chunks.flatten) ∧
      (size (buf ++ chunks.flatten) ≤ (grepLoop [] buf chunks).flatten.length →
        Whole chunks) := by
  induction chunks generalizing buf with
  | nil => exact ⟨Nat.zero_le _, fun _ => trivial⟩
  | cons chunk chunks ih =>
    have hrest : ∀ c ∈ chunks, c ≠ [] := fun c hc => hne c (mem_cons_of_mem _ hc)
    rw [h.grepLoop_cons, flatten_cons, ← append_assoc]
    split
    next hmem =>
      obtain ⟨hle, hwhole⟩ := ih h.next hrest
      rw [size, found_append (buf ++ chunk), flatten_append, flatten_append,
        length_append, length_append, Nat.add_le_add_iff_left, Nat.add_le_add_iff_left]
      exact ⟨hle, fun hge => ⟨fun _ => hmem, hwhole hge⟩⟩
    next hmem =>
      obtain ⟨hle, hwhole⟩ := ih h.over hrest
      rw [nil_append] at hle hwhole
      have hfree : NEWLINE ∉ buf ++ chunk := by simp [h.line, hmem]
      by_cases hlater : NEWLINE ∈ chunks.flatten
      · have hpos : 0 < (buf ++ chunk).length := by
          have := length_pos_iff.mpr (hne chunk mem_cons_self)
          rw [length_append]
          omega
        rw [size_append hfree hlater]
        exact ⟨by omega, fun hge => absurd hge (by omega)⟩
      · rw [size_none hlater] at hle hwhole
        rw [size_none (by simp only [mem_append, not_or] at hfree ⊢; exact ⟨hfree, hlater⟩)]
        exact ⟨hle, fun hge => ⟨fun hmem => absurd hmem hlater, hwhole hge⟩⟩

end

/-- The chunks are no larger than `grep` asks for, with `buf` in the buffer. -/
def Fits : Str → List Str → Prop
  | _, [] => True
  | buf, chunk :: chunks =>
      chunk.length ≤ 1024 - buf.length - 1 ∧ Fits (round [] buf chunk).2 chunks

/-- A stream of text, and how `read` splits it. -/
structure Reads where
  chunks : List Str
  nonempty : ∀ chunk ∈ chunks, chunk ≠ []
  text : 0 ∉ chunks.flatten
  short : ∀ line ∈ lines chunks.flatten, line.length + 1 ≤ 1023
  fits : Fits [] chunks

/-- **`grep` writes the lines that match**, for every pattern, exactly if each read delivers a
newline up to the last one of the stream. -/
theorem grep_lines_iff (r : Reads) :
    (∀ pattern, grep pattern r.chunks =
      ((lines r.chunks.flatten).filter (match_ pattern)).map (· ++ [NEWLINE])) ↔
      Whole r.chunks := by
  have hstart : Pending [] r.chunks := ⟨not_mem_nil, r.text⟩
  constructor
  · intro h
    apply (hstart.size_grepLoop r.nonempty).2
    rw [← grep, h []]
    exact Nat.le_refl _
  · exact fun hw pattern => hstart.grepLoop_eq hw

theorem grep_lines_iff_end : ∃ r : Reads, r.chunks = [[97, NEWLINE, 98], [98]] ∧
    ∀ pattern, grep pattern r.chunks =
      ((lines r.chunks.flatten).filter (match_ pattern)).map (· ++ [NEWLINE]) := by
  let r : Reads :=
    ⟨[[97, NEWLINE, 98], [98]], by decide, by decide, by decide, by decide, by decide, trivial⟩
  exact ⟨r, rfl, (grep_lines_iff r).mpr (by decide)⟩

/-- `ab` and a newline, in two reads: the line matches `a`, and is not written. -/
theorem grep_loses_line : ∃ r : Reads, r.chunks = [[97], [98, NEWLINE]] ∧
    grep [97] r.chunks = [] ∧
    ((lines r.chunks.flatten).filter (match_ [97])).map (· ++ [NEWLINE]) = [[97, 98, NEWLINE]] :=
  ⟨⟨[[97], [98, NEWLINE]], by decide, by decide, by decide, by decide, by decide, trivial⟩,
    rfl, by decide +kernel, by decide +kernel⟩

end Xv6.Grep
