import Xv6.Sh

/-!
**The tokens of a line**, and what `peek` and `gettoken` do to them.

`lex` says what the token sequence of a text is: operators and words, a word being a longest run
of bytes that are neither white space nor symbols, and `>>` one operator. A position is known by
the tokens from there on (`At`): `peek` compares the first of them and leaves them as they are,
`gettoken` takes the first one away.
-/

namespace Xv6.Sh

open Scan List

/-! ### Token sequences -/

inductive Op where
  | bar | lpar | rpar | semi | amp | lt | gt | gtgt
deriving DecidableEq

inductive Tok where
  | word (w : Str)
  | op (o : Op)
deriving DecidableEq

/-- The operators of one byte other than `>`. -/
def opOf (c : UInt8) : Op :=
  if c = chr '|' then .bar
  else if c = chr '(' then .lpar
  else if c = chr ')' then .rpar
  else if c = chr ';' then .semi
  else if c = chr '&' then .amp
  else .lt

/-- The token sequence of a text. -/
def lex : Str → List Tok
  | [] => []
  | c :: s =>
      if isSpace c then lex s
      else if c = chr '>' then
        if s.head? = some (chr '>') then .op .gtgt :: lex s.tail else .op .gt :: lex s
      else if isWord c then .word (c :: s.takeWhile isWord) :: lex (s.dropWhile isWord)
      else .op (opOf c) :: lex s
termination_by s => s.length
decreasing_by
  all_goals
    simp only [List.length_cons, List.length_tail]
    first
      | omega
      | exact Nat.lt_succ_of_le (List.dropWhile_sublist isWord).length_le

namespace Op

/-- The first byte of an operator. -/
def first : Op → UInt8
  | bar => chr '|'
  | lpar => chr '('
  | rpar => chr ')'
  | semi => chr ';'
  | amp => chr '&'
  | lt => chr '<'
  | gt => chr '>'
  | gtgt => chr '>'

/-- What `gettoken` returns for it. -/
def ret : Op → UInt8
  | gtgt => chr '+'
  | o => o.first

end Op

namespace Tok

def first : Tok → UInt8
  | word w => w.headD 0
  | op o => o.first

def ret : Tok → UInt8
  | word _ => chr 'a'
  | op o => o.ret

end Tok

section

variable {c : UInt8} {s : Str}

theorem lex_nil : lex [] = [] := by rw [lex]

theorem lex_space (h : isSpace c = true) : lex (c :: s) = lex s := by rw [lex, if_pos h]

theorem lex_dropWhile (s : Str) : lex (s.dropWhile isSpace) = lex s := by
  induction s with
  | nil => rfl
  | cons c s ih =>
    rw [dropWhile_cons]
    split
    next hc => rw [ih, lex_space hc]
    · rfl

theorem length_lex_le (s : Str) : (lex s).length ≤ s.length := by
  fun_induction lex s with
  | case1 => exact Nat.le_refl _
  | case2 c s _ ih => exact Nat.le_succ_of_le ih
  | case3 s _ _ ih =>
    rw [length_tail] at ih
    simp only [length_cons]
    omega
  | case4 s _ _ ih | case6 c s _ _ _ ih => exact Nat.succ_le_succ ih
  | case5 c s _ _ _ ih =>
    have hle : (s.dropWhile isWord).length ≤ s.length := (dropWhile_sublist isWord).length_le
    exact Nat.succ_le_succ (Nat.le_trans ih hle)

theorem mem_of_not_word (hspace : isSpace c = false) (hgt : c ≠ chr '>') (hword : isWord c = false) :
    c ∈ [chr '|', chr '(', chr ')', chr ';', chr '&', chr '<'] := by
  have hsym : c ∈ symbols := by
    rw [isWord, Bool.and_eq_false_iff, Bool.not_eq_false', Bool.not_eq_false'] at hword
    rcases hword with hws | hsym
    · exact absurd (hspace.symm.trans hws) Bool.false_ne_true
    · exact contains_iff_mem.mp hsym
  simp only [symbols, mem_cons] at hsym ⊢
  tauto

theorem opOf_spec (h : c ∈ [chr '|', chr '(', chr ')', chr ';', chr '&', chr '<']) :
    (opOf c).first = c ∧ (opOf c).ret = c ∧ c ≠ chr '>' ∧ isSpace c = false ∧ isWord c = false := by
  simp only [mem_cons, not_mem_nil, or_false] at h
  rcases h with rfl | rfl | rfl | rfl | rfl | rfl <;> decide

theorem lex_first (h : isSpace c = false) : ∃ t ts, lex (c :: s) = t :: ts ∧ t.first = c := by
  rw [lex, h, if_neg Bool.false_ne_true]
  split
  next hgt =>
    subst hgt
    split
    · exact ⟨_, _, rfl, rfl⟩
    · exact ⟨_, _, rfl, rfl⟩
  next hgt =>
    split
    · exact ⟨_, _, rfl, rfl⟩
    next hword =>
      have hmem := mem_of_not_word h hgt (Bool.eq_false_iff.mpr hword)
      exact ⟨_, _, rfl, (opOf_spec hmem).1⟩

end

/-! ### Positions -/

/-- The tokens from a position on. -/
def At (buf : Str) (i : Nat) (ts : List Tok) : Prop :=
  i ≤ strlen buf ∧ lex ((cstring buf 0).drop i) = ts

/-- A word of the text, and the word that stands there. -/
structure Spells (buf : Str) (sp : Span) (w : Str) : Prop where
  le : sp.q ≤ sp.eq
  end_le : sp.eq ≤ strlen buf
  text : ((cstring buf 0).drop sp.q).take (sp.eq - sp.q) = w
  word : ∀ c ∈ w, isWord c = true
  stop : isWord (byte buf sp.eq) = true → byte buf sp.eq = 0

variable {buf : Str} {i j : Nat} {c : UInt8} {t : Tok} {ts : List Tok} {toks : List UInt8}

theorem reads : Reads (byte buf) (cstring buf 0) := by
  intro i hi
  have hspelled : cstring buf 0 <+: buf := takeWhile_prefix _
  rw [byte, getD_eq_getElem _ _ (Nat.lt_of_lt_of_le hi hspelled.length_le)]
  exact (hspelled.getElem hi).symm

theorem byte_ne_zero (hi : i < strlen buf) : byte buf i ≠ 0 := by
  have hin : byte buf i ∈ cstring buf 0 := by
    rw [reads i hi]
    exact getElem_mem hi
  have hnz := mem_takeWhile_imp hin
  simpa using hnz

theorem byte_strlen (buf : Str) : byte buf (strlen buf) = 0 := by
  rw [byte, strlen, cstring, drop_zero]
  induction buf with
  | nil => rfl
  | cons c buf ih =>
    rw [takeWhile_cons]
    split
    · exact ih
    next hc => simpa using hc

theorem drop_cases (hi : i ≤ strlen buf) :
    (i = strlen buf ∧ byte buf i = 0 ∧ (cstring buf 0).drop i = []) ∨
      (i < strlen buf ∧ byte buf i ≠ 0 ∧
        (cstring buf 0).drop i = byte buf i :: (cstring buf 0).drop (i + 1)) := by
  rcases Nat.eq_or_lt_of_le hi with rfl | hlt
  · exact .inl ⟨rfl, byte_strlen buf, drop_length⟩
  · exact .inr ⟨hlt, byte_ne_zero hlt, reads.drop_cons hlt⟩

theorem head_drop_iff (hi : i ≤ strlen buf) (hc : c ≠ 0) :
    ((cstring buf 0).drop i).head? = some c ↔ byte buf i = c := by
  rcases drop_cases hi with ⟨-, hzero, hdrop⟩ | ⟨-, -, hdrop⟩
  · rw [hdrop, hzero]
    constructor
    · intro h
      cases h
    · exact fun h => absurd h.symm hc
  · rw [hdrop, List.head?_cons, Option.some.injEq]

theorem skip_spec (h : At buf i ts) :
    i ≤ skip buf (strlen buf) i ∧ At buf (skip buf (strlen buf) i) ts ∧
      (skip buf (strlen buf) i < strlen buf →
        isSpace (byte buf (skip buf (strlen buf) i)) = false) := by
  obtain ⟨hi, hlex⟩ := h
  have hdrop : (cstring buf 0).drop (skip buf (strlen buf) i) =
      ((cstring buf 0).drop i).dropWhile isSpace := drop_scan reads hi
  refine ⟨le_scan reads hi, ⟨scan_le reads hi, ?_⟩, ?_⟩
  · rw [hdrop, lex_dropWhile, hlex]
  intro hlt
  have hnot := List.head?_dropWhile_not isSpace ((cstring buf 0).drop i)
  rw [← hdrop, reads.drop_cons hlt] at hnot
  exact hnot

theorem At.cases (h : At buf i ts) (hspace : i < strlen buf → isSpace (byte buf i) = false) :
    (ts = [] ∧ i = strlen buf ∧ byte buf i = 0) ∨
      (∃ t ts', ts = t :: ts' ∧ t.first = byte buf i ∧ i < strlen buf ∧ byte buf i ≠ 0 ∧
        isSpace (byte buf i) = false) := by
  obtain ⟨hi, hlex⟩ := h
  rcases drop_cases hi with ⟨hend, hzero, hdrop⟩ | ⟨hlt, hnz, hdrop⟩
  · rw [hdrop, lex_nil] at hlex
    exact .inl ⟨hlex.symm, hend, hzero⟩
  · obtain ⟨t, ts', hts, hfirst⟩ := lex_first (hspace hlt)
    rw [hdrop, hts] at hlex
    exact .inr ⟨t, ts', hlex.symm, hfirst, hlt, hnz, hspace hlt⟩

/-! ### `peek` -/

/-- Does the first token begin with one of these bytes? -/
def starts (ts : List Tok) (toks : List UInt8) : Bool := ts.head?.any fun t => toks.contains t.first

/-- **`peek`** tells how the first token begins, and keeps the tokens. -/
theorem peek_spec (h : At buf i ts) (toks : List UInt8) :
    ∃ j, peek buf (strlen buf) i toks = (starts ts toks, j) ∧ i ≤ j ∧ At buf j ts ∧
      (ts = [] → j = strlen buf) := by
  obtain ⟨hle, hat, hspace⟩ := skip_spec h
  refine ⟨_, ?_, hle, hat, ?_⟩
  · rw [peek]
    rcases hat.cases hspace with ⟨rfl, -, hzero⟩ | ⟨t, ts', rfl, hfirst, -, hnz, -⟩
    · simp [hzero, starts]
    · simp [hnz, starts, hfirst]
  · intro hnil
    rcases hat.cases hspace with ⟨-, hend, -⟩ | ⟨t, ts', hcons, -⟩
    · exact hend
    · rw [hnil] at hcons
      cases hcons

/-! ### `gettoken` -/

theorem At.skip (h : At buf i ts) : At buf (skip buf (strlen buf) i) ts := (skip_spec h).2.1

theorem gettoken_nil (h : At buf i []) :
    (gettoken buf (strlen buf) i).ret = 0 ∧ At buf (gettoken buf (strlen buf) i).ps [] := by
  obtain ⟨-, hat, hspace⟩ := skip_spec h
  rcases hat.cases hspace with ⟨-, -, hzero⟩ | ⟨t, ts', hcons, -⟩
  · have hswitch : switch buf (strlen buf) (Sh.skip buf (strlen buf) i) =
        (0, Sh.skip buf (strlen buf) i) := if_pos hzero
    simp only [gettoken, hswitch]
    exact ⟨trivial, hat.skip⟩
  · cases hcons

/-- The switch of `gettoken` at a token: what it returns, and where the others begin. -/
theorem switch_spec (h : At buf i (t :: ts)) (hlt : i < strlen buf)
    (hspace : isSpace (byte buf i) = false) :
    (switch buf (strlen buf) i).1 = t.ret ∧ At buf (switch buf (strlen buf) i).2 ts ∧
      ∀ w, t = .word w → Spells buf ⟨i, (switch buf (strlen buf) i).2⟩ w := by
  obtain ⟨hi, hlex⟩ := h
  have hnz := byte_ne_zero hlt
  have hdrop := reads.drop_cons hlt
  rw [hdrop, lex, hspace] at hlex
  rw [switch, if_neg hnz]
  by_cases hgt : byte buf i = chr '>'
  · have hsingle : [chr '|', chr '(', chr ')', chr ';', chr '&', chr '<'].contains (byte buf i) =
        false := by
      rw [hgt]
      decide
    rw [if_pos hgt] at hlex
    rw [hsingle, if_neg Bool.false_ne_true, if_pos hgt]
    have hhead := head_drop_iff (c := chr '>') (Nat.succ_le_of_lt hlt) (by decide)
    by_cases hgtgt : byte buf (i + 1) = chr '>'
    · rw [if_pos (hhead.mpr hgtgt)] at hlex
      rw [if_pos hgtgt]
      obtain ⟨rfl, rfl⟩ := List.cons.inj hlex
      refine ⟨rfl, ⟨?_, ?_⟩, ?_⟩
      · rcases drop_cases (Nat.succ_le_of_lt hlt) with ⟨-, hzero, -⟩ | ⟨hlt', -⟩
        · rw [hzero] at hgtgt
          exact absurd hgtgt (by decide)
        · exact hlt'
      · rw [tail_drop]
      · intro w hw
        cases hw
    · rw [if_neg (fun hh => hgtgt (hhead.mp hh))] at hlex
      rw [if_neg hgtgt]
      obtain ⟨rfl, rfl⟩ := List.cons.inj hlex
      refine ⟨rfl, ⟨hlt, rfl⟩, ?_⟩
      intro w hw
      cases hw
  · rw [if_neg hgt] at hlex
    by_cases hword : isWord (byte buf i) = true
    · have hsingle : ¬ [chr '|', chr '(', chr ')', chr ';', chr '&', chr '<'].contains (byte buf i) =
          true := by
        intro hin
        have hnot := (opOf_spec (contains_iff_mem.mp hin)).2.2.2.2
        exact Bool.false_ne_true (hnot.symm.trans hword)
      rw [if_pos hword] at hlex
      rw [if_neg hsingle, if_neg hgt]
      obtain ⟨rfl, rfl⟩ := List.cons.inj hlex
      have hrest : (cstring buf 0).drop (scan isWord (byte buf) (strlen buf - i) i) =
          ((cstring buf 0).drop (i + 1)).dropWhile isWord := by
        rw [strlen, drop_scan reads hi, hdrop, dropWhile_cons, if_pos hword]
      have htext : ((cstring buf 0).drop i).take (scan isWord (byte buf) (strlen buf - i) i - i) =
          byte buf i :: ((cstring buf 0).drop (i + 1)).takeWhile isWord := by
        rw [strlen, take_scan reads hi, hdrop, takeWhile_cons, if_pos hword]
      have hend : scan isWord (byte buf) (strlen buf - i) i ≤ strlen buf := scan_le reads hi
      refine ⟨rfl, ⟨hend, ?_⟩, ?_⟩
      · rw [hrest]
      rintro w hw
      obtain rfl := Tok.word.inj hw
      refine ⟨le_scan reads hi, hend, htext, ?_, ?_⟩
      · intro c hc
        rcases mem_cons.mp hc with rfl | hc
        · exact hword
        · exact mem_takeWhile_imp hc
      · intro hstop
        rcases drop_cases hend with ⟨-, hzero, -⟩ | ⟨hlt', -, hdrop'⟩
        · exact hzero
        · have hnot := List.head?_dropWhile_not isWord ((cstring buf 0).drop (i + 1))
          rw [← hrest, hdrop'] at hnot
          exact absurd (hnot.symm.trans hstop) Bool.false_ne_true
    · have hmem := mem_of_not_word hspace hgt (Bool.eq_false_iff.mpr hword)
      rw [if_neg hword] at hlex
      rw [if_pos (contains_iff_mem.mpr hmem)]
      obtain ⟨rfl, rfl⟩ := List.cons.inj hlex
      refine ⟨(opOf_spec hmem).2.1.symm, ⟨hlt, rfl⟩, ?_⟩
      intro w hw
      cases hw

/-- **`gettoken`** takes the first token. -/
theorem gettoken_cons (h : At buf i (t :: ts)) :
    (gettoken buf (strlen buf) i).ret = t.ret ∧ At buf (gettoken buf (strlen buf) i).ps ts ∧
      ∀ w, t = .word w → Spells buf (gettoken buf (strlen buf) i).span w := by
  obtain ⟨-, hat, hspace⟩ := skip_spec h
  rcases hat.cases hspace with ⟨hnil, -⟩ | ⟨t', ts', -, -, hlt, -, hnot⟩
  · cases hnil
  · obtain ⟨hret, hrest, hspells⟩ := switch_spec hat hlt hnot
    exact ⟨hret, hrest.skip, hspells⟩

theorem gettoken_word {w : Str} (h : At buf i (.word w :: ts)) :
    (gettoken buf (strlen buf) i).ret = chr 'a' ∧ At buf (gettoken buf (strlen buf) i).ps ts ∧
      Spells buf (gettoken buf (strlen buf) i).span w := by
  obtain ⟨hret, hnext, hspells⟩ := gettoken_cons h
  exact ⟨hret, hnext, hspells w rfl⟩

theorem gettoken_op {o : Op} (h : At buf i (.op o :: ts)) :
    (gettoken buf (strlen buf) i).ret = o.ret ∧ At buf (gettoken buf (strlen buf) i).ps ts := by
  obtain ⟨hret, hnext, -⟩ := gettoken_cons h
  exact ⟨hret, hnext⟩

theorem At.length_le (h : At buf i ts) : ts.length ≤ strlen buf := by
  obtain ⟨-, rfl⟩ := h
  have hlen := length_lex_le ((cstring buf 0).drop i)
  rw [length_drop] at hlen
  exact Nat.le_trans hlen (Nat.sub_le _ _)

end Xv6.Sh
