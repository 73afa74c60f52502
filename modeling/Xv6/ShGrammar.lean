import Xv6.Attempt
import Xv6.ShLex

/-!
**The grammar of command lines**, and the loops of the parser.

`Derives` is the grammar, over token sequences. Each loop is followed twice: over its rounds,
that what it returns is derived by the tokens it has passed, and that it never runs out of rounds
(`Meets`); and over a derivation, that it returns what is derived if a token that may follow comes
next (`Returns`).
-/

namespace Xv6.Sh

open Attempt List
open Xv6.Fs (O_RDONLY O_CREATE)

/-! ### Grammar -/

structure Redir where
  file : Str
  mode : UInt32
  fd : Nat

/-- Each redirection wraps the tree built so far. -/
def wrap (c : Cmd Str) (rs : List Redir) : Cmd Str :=
  rs.foldl (fun c r => .REDIR c r.file r.mode r.fd) c

/-- The redirection of an operator. -/
def Op.redir (w : Str) : Op → Option Redir
  | .lt => some ⟨w, O_RDONLY, 0⟩
  | .gt => some ⟨w, O_WRONLY ||| O_CREATE, 1⟩
  | .gtgt => some ⟨w, O_WRONLY ||| O_CREATE, 1⟩
  | _ => none

/-- `redir*`. -/
inductive Redirs : List Tok → List Redir → Prop where
  | nil : Redirs [] []
  | cons {o w r ts rs} : o.redir w = some r → Redirs ts rs →
      Redirs (.op o :: .word w :: ts) (r :: rs)

/-- `(word redir*)*`. -/
inductive Args : List Tok → List Str → List Redir → Prop where
  | nil : Args [] [] []
  | cons {w us vs ws rs rs'} : Redirs us rs → Args vs ws rs' →
      Args (.word w :: (us ++ vs)) (w :: ws) (rs ++ rs')

inductive Nonterminal where
  | line | pipe | exec
deriving DecidableEq

/-- **The grammar**, with the tree of each derivation. -/
inductive Derives : Nonterminal → List Tok → Cmd Str → Prop where
  | line {ts c} (k : Nat) : Derives .pipe ts c →
      Derives .line (ts ++ List.replicate k (.op .amp)) (Cmd.BACK^[k] c)
  | list {ts us c d} (k : Nat) : Derives .pipe ts c → Derives .line us d →
      Derives .line (ts ++ (List.replicate k (.op .amp) ++ .op .semi :: us))
        (.LIST (Cmd.BACK^[k] c) d)
  | exec {ts c} : Derives .exec ts c → Derives .pipe ts c
  | pipe {ts us c d} : Derives .exec ts c → Derives .pipe us d →
      Derives .pipe (ts ++ .op .bar :: us) (.PIPE c d)
  | block {ts us c rs} : Derives .line ts c → Redirs us rs →
      Derives .exec (.op .lpar :: (ts ++ .op .rpar :: us)) (wrap c rs)
  | words {us vs ws rs rs'} : Redirs us rs → Args vs ws rs' → ws.length ≤ MAXARGS - 1 →
      Derives .exec (us ++ vs) (wrap (.EXEC ws) (rs ++ rs'))

/-! ### Trees of words and trees of strings -/

/-- Trees of one shape, with related words. -/
inductive Cmd.Rel {W V : Type} (R : W → V → Prop) : Cmd W → Cmd V → Prop where
  | EXEC {argv argv'} : List.Forall₂ R argv argv' → Rel R (.EXEC argv) (.EXEC argv')
  | REDIR {c c' file file' mode fd} :
      Rel R c c' → R file file' → Rel R (.REDIR c file mode fd) (.REDIR c' file' mode fd)
  | PIPE {l r l' r'} : Rel R l l' → Rel R r r' → Rel R (.PIPE l r) (.PIPE l' r')
  | LIST {l r l' r'} : Rel R l l' → Rel R r r' → Rel R (.LIST l r) (.LIST l' r')
  | BACK {c c'} : Rel R c c' → Rel R (.BACK c) (.BACK c')

section

variable {W V : Type} {R : W → V → Prop} {c : Cmd W} {c' : Cmd V} {w : W} {v : V}

theorem Cmd.Rel.push (h : Cmd.Rel R c c') (hw : R w v) : Cmd.Rel R (c.push w) (c'.push v) := by
  induction h with
  | EXEC hargs => exact .EXEC (rel_append hargs (.cons hw .nil))
  | REDIR _ hfile ih => exact .REDIR ih hfile
  | PIPE hl hr => exact .PIPE hl hr
  | LIST hl hr => exact .LIST hl hr
  | BACK hc => exact .BACK hc

theorem wrap_append (c : Cmd Str) (rs rs' : List Redir) : wrap c (rs ++ rs') = wrap (wrap c rs) rs' :=
  foldl_append

theorem push_wrap (w : Str) (c : Cmd Str) (rs : List Redir) :
    (wrap c rs).push w = wrap (c.push w) rs := by
  induction rs generalizing c with
  | nil => rfl
  | cons r rs ih => exact ih (.REDIR c r.file r.mode r.fd)

end

/-! ### The first token -/

section

variable {buf : Str} {i : Nat} {w : Str} {ts : List Tok} {toks : List UInt8}

theorem At.starts_word (h : At buf i (.word w :: ts)) (toks : List UInt8)
    (htoks : toks ⊆ symbols) :
    starts (.word w :: ts) toks = false := by
  obtain ⟨-, -, hspells⟩ := gettoken_word h
  have hne : w.headD 0 ∉ toks := by
    intro hin
    have hsym := htoks hin
    cases w with
    | nil => exact absurd hsym (by decide)
    | cons c =>
      have hword := hspells.word c mem_cons_self
      rw [isWord, Bool.and_eq_true, Bool.not_eq_true', Bool.not_eq_true'] at hword
      exact Bool.false_ne_true (hword.2.symm.trans (contains_iff_mem.mpr hsym))
  simpa [starts, Tok.first] using hne

theorem At.starts_op (h : At buf i ts) (htoks : toks ⊆ symbols)
    (hstarts : starts ts toks = true) : ∃ o ts', ts = .op o :: ts' ∧ o.first ∈ toks := by
  rcases ts with _ | ⟨w | o, ts⟩
  · cases hstarts
  · rw [h.starts_word toks htoks] at hstarts
    cases hstarts
  · refine ⟨o, ts, rfl, ?_⟩
    simpa [starts, Tok.first] using hstarts

/-- For a symbol that begins one operator only. -/
theorem At.starts_one {o : Op} (h : At buf i ts) (ho : o ∈ [.bar, .lpar, .rpar, .semi, .amp])
    (hstarts : starts ts [o.first] = true) : ∃ ts', ts = .op o :: ts' := by
  obtain ⟨o', ts', rfl, hfirst⟩ := h.starts_op (by cases o <;> decide) hstarts
  cases o <;> cases o' <;>
    first | exact ⟨_, rfl⟩ | exact absurd hfirst (by decide) | exact absurd ho (by decide)

end

/-! ### Following tokens -/

/-- The operators that may come behind. -/
def Nonterminal.follow : Nonterminal → List Op
  | .line => [.rpar]
  | .pipe => [.rpar, .amp, .semi]
  | .exec => [.rpar, .amp, .semi, .bar]

def Follows (N : Nonterminal) (vs : List Tok) : Prop := vs = [] ∨ ∃ o ts, o ∈ N.follow ∧ vs = .op o :: ts

theorem Follows.starts_redir {N : Nonterminal} {vs : List Tok} (h : Follows N vs) :
    starts vs [chr '<', chr '>'] = false := by
  rcases h with rfl | ⟨o, ts, ho, rfl⟩
  · rfl
  · cases N <;> cases o <;> first | rfl | exact absurd ho (by decide)

/-! ### Loops -/

variable {buf : Str} {n i : Nat} {ts vs : List Tok} {cmd : Cmd Span} {c : Cmd Str}

theorem parsebacks_meets : ∀ (n : Nat) {cmd : Cmd Span} {c : Cmd Str} {i : Nat} {ts : List Tok},
    At buf i ts → ts.length < n → Cmd.Rel (Spells buf) cmd c →
    Meets (· = .rounds) (fun r => ∃ k vs, ts = List.replicate k (.op .amp) ++ vs ∧ At buf r.2 vs ∧
      Cmd.Rel (Spells buf) r.1 (Cmd.BACK^[k] c)) (parsebacks buf (strlen buf) n cmd i) := by
  intro n
  induction n with
  | zero =>
    intro cmd c i ts _ hlen
    exact absurd hlen (Nat.not_lt_zero _)
  | succ n ih =>
    intro cmd c i ts hat hlen hrel
    obtain ⟨j, hpeek, -, hat', -⟩ := peek_spec hat [chr '&']
    simp only [parsebacks, hpeek]
    cases hstarts : starts ts [chr '&'] with
    | false => exact ⟨0, ts, rfl, hat', hrel⟩
    | true =>
      obtain ⟨ts', rfl⟩ := hat.starts_one (o := .amp) (by decide) hstarts
      obtain ⟨-, hnext⟩ := gettoken_op hat'
      apply (ih hnext (Nat.lt_of_succ_lt_succ hlen) (.BACK hrel)).mono
      rintro r ⟨k, vs, rfl, hvs, hr⟩
      exact ⟨k + 1, vs, rfl, hvs, hr⟩

theorem parsebacks_returns (hvs : starts vs [chr '&'] = false) :
    ∀ (k : Nat) {n : Nat} {cmd : Cmd Span} {c : Cmd Str} {i : Nat},
    At buf i (List.replicate k (.op .amp) ++ vs) → k < n → Cmd.Rel (Spells buf) cmd c →
    Returns (fun r => At buf r.2 vs ∧ Cmd.Rel (Spells buf) r.1 (Cmd.BACK^[k] c))
      (parsebacks buf (strlen buf) n cmd i) := by
  intro k
  induction k with
  | zero =>
    intro n cmd c i hat hk hrel
    obtain _ | n := n
    · cases hk
    obtain ⟨j, hpeek, -, hat', -⟩ := peek_spec hat [chr '&']
    rw [replicate_zero, nil_append] at hpeek hat'
    simp only [parsebacks, hpeek, hvs]
    exact ⟨_, rfl, hat', hrel⟩
  | succ k ih =>
    intro n cmd c i hat hk hrel
    obtain _ | n := n
    · cases hk
    obtain ⟨j, hpeek, -, hat', -⟩ := peek_spec hat [chr '&']
    obtain ⟨-, hnext⟩ := gettoken_op hat'
    simp only [parsebacks, hpeek]
    exact ih hnext (Nat.lt_of_succ_lt_succ hk) (.BACK hrel)

theorem redircmd_rel {o : Op} {w : Str} {r : Redir} {sp : Span} (ho : o.redir w = some r)
    (hrel : Cmd.Rel (Spells buf) cmd c) (hsp : Spells buf sp w) :
    Cmd.Rel (Spells buf) (redircmd o.ret cmd sp) (.REDIR c r.file r.mode r.fd) := by
  cases o with
  | lt | gt | gtgt =>
    cases ho
    exact .REDIR hrel hsp
  | bar | lpar | rpar | semi | amp => cases ho

theorem redir_of_first {o : Op} (h : o.first ∈ [chr '<', chr '>']) (w : Str) :
    ∃ r, o.redir w = some r := by
  cases o with
  | lt | gt | gtgt => exact ⟨_, rfl⟩
  | bar | lpar | rpar | semi | amp => exact absurd h (by decide)

theorem first_of_redir {o : Op} {w : Str} {r : Redir} (h : o.redir w = some r) :
    [chr '<', chr '>'].contains o.first = true := by
  cases o with
  | lt | gt | gtgt => decide
  | bar | lpar | rpar | semi | amp => cases h

theorem parseredirs_meets : ∀ (n : Nat) {cmd : Cmd Span} {c : Cmd Str} {i : Nat} {ts : List Tok},
    At buf i ts → ts.length < n → Cmd.Rel (Spells buf) cmd c →
    Meets (· = .rounds) (fun r => ∃ us rs vs, ts = us ++ vs ∧ Redirs us rs ∧ At buf r.2 vs ∧
      Cmd.Rel (Spells buf) r.1 (wrap c rs)) (parseredirs buf (strlen buf) n cmd i) := by
  intro n
  induction n with
  | zero =>
    intro cmd c i ts _ hlen
    exact absurd hlen (Nat.not_lt_zero _)
  | succ n ih =>
    intro cmd c i ts hat hlen hrel
    obtain ⟨j, hpeek, -, hat', -⟩ := peek_spec hat [chr '<', chr '>']
    simp only [parseredirs, hpeek]
    cases hstarts : starts ts [chr '<', chr '>'] with
    | false => exact ⟨[], [], ts, rfl, .nil, hat', hrel⟩
    | true =>
      obtain ⟨o, ts', rfl, ho⟩ := hat.starts_op (by decide) hstarts
      obtain ⟨hop, hfile⟩ := gettoken_op hat'
      rcases ts' with _ | ⟨w | o', ts'⟩
      · rw [(gettoken_nil hfile).1]
        exact Stop.noConfusion
      · obtain ⟨hret, hnext, hspells⟩ := gettoken_word hfile
        obtain ⟨r, hr⟩ := redir_of_first ho w
        rw [if_neg (not_not_intro hret), hop]
        have hwrapped := redircmd_rel hr hrel hspells
        have hlen' : ts'.length < n := by
          simp only [length_cons] at hlen
          omega
        apply (ih hnext hlen' hwrapped).mono
        rintro res ⟨us, rs, vs, rfl, hus, hvs, hres⟩
        exact ⟨.op o :: .word w :: us, r :: rs, vs, rfl, .cons hr hus, hvs, hres⟩
      · have hne : o'.ret ≠ chr 'a' := by cases o' <;> decide
        rw [(gettoken_op hfile).1, if_pos hne]
        exact Stop.noConfusion

theorem parseredirs_returns {us : List Tok} {rs : List Redir} (h : Redirs us rs)
    (hvs : ∀ j, At buf j vs → starts vs [chr '<', chr '>'] = false) :
    ∀ {n : Nat} {cmd : Cmd Span} {c : Cmd Str} {i : Nat}, At buf i (us ++ vs) → us.length < n →
    Cmd.Rel (Spells buf) cmd c →
    Returns (fun r => At buf r.2 vs ∧ Cmd.Rel (Spells buf) r.1 (wrap c rs))
      (parseredirs buf (strlen buf) n cmd i) := by
  induction h with
  | nil =>
    intro n cmd c i hat hk hrel
    obtain _ | n := n
    · cases hk
    obtain ⟨j, hpeek, -, hat', -⟩ := peek_spec hat [chr '<', chr '>']
    rw [nil_append] at hpeek hat'
    simp only [parseredirs, hpeek, hvs j hat']
    exact ⟨_, rfl, hat', hrel⟩
  | @cons o w r ts rs ho _ ih =>
    intro n cmd c i hat hk hrel
    obtain _ | n := n
    · cases hk
    obtain ⟨j, hpeek, -, hat', -⟩ := peek_spec hat [chr '<', chr '>']
    have hstarts : starts ((.op o :: .word w :: ts) ++ vs) [chr '<', chr '>'] = true :=
      first_of_redir ho
    obtain ⟨hop, hfile⟩ := gettoken_op hat'
    obtain ⟨hret, hnext, hspells⟩ := gettoken_word hfile
    simp only [parseredirs, hpeek, hstarts]
    rw [if_neg (not_not_intro hret), hop]
    simp only [length_cons] at hk
    exact ih hnext (by omega) (redircmd_rel ho hrel hspells)

theorem Args.starts_rest {us : List Tok} {ws : List Str} {rs : List Redir} (h : Args us ws rs)
    (hvs : Follows .exec vs) (j : Nat) (hat : At buf j (us ++ vs)) :
    starts (us ++ vs) [chr '<', chr '>'] = false := by
  cases h with
  | nil => exact hvs.starts_redir
  | cons _ _ => exact hat.starts_word _ (by decide)

/-- The tokens of some arguments have been passed, and the tree has them. -/
def ParsedArgs (buf : Str) (ts : List Tok) (ws : List Str) (rs : List Redir) (r : Cmd Span × Nat) :
    Prop :=
  ∃ us vs ws' rs', ts = us ++ vs ∧ Args us ws' rs' ∧ (ws ++ ws').length ≤ MAXARGS - 1 ∧
    At buf r.2 vs ∧ Cmd.Rel (Spells buf) r.1 (wrap (.EXEC (ws ++ ws')) (rs ++ rs'))

theorem parseargs_meets : ∀ (n : Nat) {ret : Cmd Span} {ws : List Str} {rs : List Redir} {i : Nat}
    {ts : List Tok}, At buf i ts → ts.length < n → ws.length ≤ MAXARGS - 1 →
    Cmd.Rel (Spells buf) ret (wrap (.EXEC ws) rs) →
    Meets (· = .rounds) (ParsedArgs buf ts ws rs)
      (parseargs buf (strlen buf) n ws.length ret i) := by
  intro n
  induction n with
  | zero =>
    intro ret ws rs i ts _ hlen
    exact absurd hlen (Nat.not_lt_zero _)
  | succ n ih =>
    intro ret ws rs i ts hat hlen hws hrel
    obtain ⟨j, hpeek, -, hat', -⟩ := peek_spec hat [chr '|', chr ')', chr '&', chr ';']
    have hnone : ∀ ps, At buf ps ts → ParsedArgs buf ts ws rs (ret, ps) := by
      intro ps hps
      refine ⟨[], ts, [], [], rfl, .nil, ?_, hps, ?_⟩
      · rw [append_nil]
        exact hws
      · rw [append_nil, append_nil]
        exact hrel
    simp only [parseargs, hpeek]
    cases hstarts : starts ts [chr '|', chr ')', chr '&', chr ';'] with
    | true => exact hnone j hat'
    | false =>
      rcases ts with _ | ⟨w | o, ts⟩
      · obtain ⟨hret, hnext⟩ := gettoken_nil hat'
        rw [if_pos hret]
        exact hnone _ hnext
      · obtain ⟨hret, hnext, hspells⟩ := gettoken_word hat'
        rw [hret]
        by_cases hmax : MAXARGS ≤ ws.length + 1
        · rw [if_pos hmax]
          exact Stop.noConfusion
        rw [if_neg hmax]
        have hpushed := hrel.push hspells
        rw [push_wrap] at hpushed
        apply (parseredirs_meets _ hnext (Nat.lt_succ_of_le hnext.length_le) hpushed).bind
        rintro r ⟨us, rs', vs, rfl, hus, hvs, hr⟩
        rw [← wrap_append] at hr
        have hlen' : vs.length < n := by
          simp only [length_cons, length_append] at hlen
          omega
        have hws' : (ws ++ [w]).length ≤ MAXARGS - 1 := by
          rw [length_append, length_singleton]
          omega
        have hrest := ih hvs hlen' hws' hr
        rw [length_append] at hrest
        apply hrest.mono
        rintro r' ⟨us', vs', ws', rs'', rfl, hargs, hmax', hvs', hr'⟩
        refine ⟨.word w :: (us ++ us'), vs', w :: ws', rs' ++ rs'', ?_, .cons hus hargs, ?_, hvs', ?_⟩
        · rw [cons_append, append_assoc]
        · rwa [append_cons]
        · rwa [append_cons, ← append_assoc]
      · have hne : o.ret ≠ 0 ∧ o.ret ≠ chr 'a' := by cases o <;> decide
        rw [(gettoken_op hat').1, if_neg hne.1, if_pos hne.2]
        exact Stop.noConfusion

theorem parseargs_returns {us : List Tok} {ws' : List Str} {rs' : List Redir} (h : Args us ws' rs')
    (hvs : Follows .exec vs) :
    ∀ {n : Nat} {ret : Cmd Span} {ws : List Str} {rs : List Redir} {i : Nat},
    At buf i (us ++ vs) → us.length < n → (ws ++ ws').length ≤ MAXARGS - 1 →
    Cmd.Rel (Spells buf) ret (wrap (.EXEC ws) rs) →
    Returns (fun r => At buf r.2 vs ∧
        Cmd.Rel (Spells buf) r.1 (wrap (.EXEC (ws ++ ws')) (rs ++ rs')))
      (parseargs buf (strlen buf) n ws.length ret i) := by
  induction h with
  | nil =>
    intro n ret ws rs i hat hk hws hrel
    obtain _ | n := n
    · cases hk
    obtain ⟨j, hpeek, -, hat', -⟩ := peek_spec hat [chr '|', chr ')', chr '&', chr ';']
    rw [nil_append] at hpeek hat'
    rw [append_nil, append_nil]
    simp only [parseargs, hpeek]
    rcases hvs with rfl | ⟨o, ts, ho, rfl⟩
    · obtain ⟨hret, hnext⟩ := gettoken_nil hat'
      rw [if_pos hret]
      exact ⟨_, rfl, hnext, hrel⟩
    have hstarts : starts (.op o :: ts) [chr '|', chr ')', chr '&', chr ';'] = true := by
      cases o <;> first | rfl | exact absurd ho (by decide)
    rw [if_pos hstarts]
    exact ⟨_, rfl, hat', hrel⟩
  | @cons w us1 us2 ws2 rs1 rs2 hus hargs ih =>
    intro n ret ws rs i hat hk hws hrel
    obtain _ | n := n
    · cases hk
    obtain ⟨j, hpeek, -, hat', -⟩ := peek_spec hat [chr '|', chr ')', chr '&', chr ';']
    rw [cons_append, append_assoc] at hpeek hat'
    obtain ⟨hret, hnext, hspells⟩ := gettoken_word hat'
    have hmax : ¬ MAXARGS ≤ ws.length + 1 := by
      simp only [length_append, length_cons] at hws
      omega
    simp only [parseargs, hpeek, hat'.starts_word [chr '|', chr ')', chr '&', chr ';'] (by decide),
      Bool.false_eq_true, if_false, hret]
    rw [if_neg hmax]
    have hpushed := hrel.push hspells
    rw [push_wrap] at hpushed
    have hlen : us1.length < strlen buf + 1 := by
      have hle := hnext.length_le
      rw [length_append] at hle
      omega
    apply (parseredirs_returns hus (hargs.starts_rest hvs) hnext hlen hpushed).bind
    rintro r ⟨hvs', hr⟩
    rw [← wrap_append] at hr
    have hlen' : us2.length < n := by
      simp only [length_cons, length_append] at hk
      omega
    rw [append_cons] at hws
    have hrest := ih hvs' hlen' hws hr
    rw [length_append, ← append_cons, append_assoc] at hrest
    exact hrest

end Xv6.Sh
