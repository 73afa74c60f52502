import Xv6.ShGrammar

/-!
**The parser accepts exactly the grammar.**

`parses_with` goes over the recursion of the parser: what it returns is derived by the tokens it
has passed, and its rounds are enough. `parse_returns` goes over a derivation: the parser returns
its tree. Behind each word of the tree `nulterminate` then writes a NUL. A word ends at white
space, at a symbol or with the text, so no NUL comes into another word and the strings of the
tree are the words (`cstring_nulterminate`).
-/

namespace Xv6.Sh

open Attempt List
open Xv6.Fs (O_CREATE)

/-! ### What the parser returns -/

def parse (buf : Str) : Nonterminal → Nat → Nat → Except Stop (Cmd Span × Nat)
  | .line => parseline buf (strlen buf)
  | .pipe => parsepipe buf (strlen buf)
  | .exec => parseexec buf (strlen buf)

/-- The rounds that are enough for so many tokens. -/
def Nonterminal.rounds (len : Nat) : Nonterminal → Nat
  | .line => 4 * len + 4
  | .pipe => 4 * len + 3
  | .exec => 4 * len + 2

/-- Tokens have been passed from which the tree is derived. -/
def Parsed (buf : Str) (N : Nonterminal) (ts : List Tok) (r : Cmd Span × Nat) : Prop :=
  ∃ us vs c, ts = us ++ vs ∧ Derives N us c ∧ At buf r.2 vs ∧ Cmd.Rel (Spells buf) r.1 c

/-- With `n` rounds: what the parser returns is derived, and it has rounds enough. -/
def ParsesWith (buf : Str) (n : Nat) (N : Nonterminal) : Prop :=
  ∀ i ts, At buf i ts → N.rounds ts.length ≤ n →
    Meets (· = .rounds) (Parsed buf N ts) (parse buf N n i)

section

variable {buf : Str} {n : Nat}

theorem line_step (hpipe : ParsesWith buf n .pipe) (hline : ParsesWith buf n .line) :
    ParsesWith buf (n + 1) .line := by
  intro i ts hat hn
  simp only [Nonterminal.rounds] at hn
  simp only [parse, parseline]
  apply (hpipe i ts hat (Nat.le_of_succ_le_succ hn)).bind
  rintro ⟨cmd, ps⟩ ⟨us, vs, c, rfl, hus, hvs, hrel⟩
  apply (parsebacks_meets _ hvs (Nat.lt_succ_of_le hvs.length_le) hrel).bind
  rintro ⟨cmd', ps'⟩ ⟨k, vs', rfl, hvs', hrel'⟩
  obtain ⟨j, hpeek, -, hat', -⟩ := peek_spec hvs' [chr ';']
  simp only [hpeek]
  cases hstarts : starts vs' [chr ';'] with
  | false => exact ⟨_, vs', _, (append_assoc ..).symm, .line k hus, hat', hrel'⟩
  | true =>
    obtain ⟨ts', rfl⟩ := hvs'.starts_one (o := .semi) (by decide) hstarts
    obtain ⟨-, hnext⟩ := gettoken_op hat'
    have hn' : Nonterminal.line.rounds ts'.length ≤ n := by
      simp only [length_append, length_cons] at hn
      simp only [Nonterminal.rounds]
      omega
    apply (hline _ ts' hnext hn').bind
    rintro ⟨right, ps''⟩ ⟨us', vs'', d, rfl, hus', hvs'', hright⟩
    refine ⟨_, vs'', _, ?_, .list k hus hus', hvs'', .LIST hrel' hright⟩
    simp only [append_assoc, cons_append]

theorem pipe_step (hexec : ParsesWith buf n .exec) (hpipe : ParsesWith buf n .pipe) :
    ParsesWith buf (n + 1) .pipe := by
  intro i ts hat hn
  simp only [Nonterminal.rounds] at hn
  simp only [parse, parsepipe]
  apply (hexec i ts hat (Nat.le_of_succ_le_succ hn)).bind
  rintro ⟨cmd, ps⟩ ⟨us, vs, c, rfl, hus, hvs, hrel⟩
  obtain ⟨j, hpeek, -, hat', -⟩ := peek_spec hvs [chr '|']
  simp only [hpeek]
  cases hstarts : starts vs [chr '|'] with
  | false => exact ⟨us, vs, c, rfl, .exec hus, hat', hrel⟩
  | true =>
    obtain ⟨ts', rfl⟩ := hvs.starts_one (o := .bar) (by decide) hstarts
    obtain ⟨-, hnext⟩ := gettoken_op hat'
    have hn' : Nonterminal.pipe.rounds ts'.length ≤ n := by
      simp only [length_append, length_cons] at hn
      simp only [Nonterminal.rounds]
      omega
    apply (hpipe _ ts' hnext hn').bind
    rintro ⟨right, ps'⟩ ⟨us', vs', d, rfl, hus', hvs', hright⟩
    refine ⟨_, vs', _, ?_, .pipe hus hus', hvs', .PIPE hrel hright⟩
    simp only [append_assoc, cons_append]

theorem block_step (hline : ParsesWith buf n .line) {i : Nat} {ts : List Tok}
    (hat : At buf i (.op .lpar :: ts)) (hn : 4 * ts.length + 4 ≤ n) :
    Meets (· = .rounds) (Parsed buf .exec (.op .lpar :: ts))
      (parseblock buf (strlen buf) (n + 1) i) := by
  obtain ⟨j, hpeek, -, hat', -⟩ := peek_spec hat [chr '(']
  obtain ⟨-, hnext⟩ := gettoken_op hat'
  simp only [parseblock, hpeek]
  apply (hline _ ts hnext hn).bind
  rintro ⟨cmd, ps⟩ ⟨us, vs, c, rfl, hus, hvs, hrel⟩
  obtain ⟨j', hpeek', -, hvs', -⟩ := peek_spec hvs [chr ')']
  simp only [hpeek']
  cases hclose : starts vs [chr ')'] with
  | false => exact Stop.noConfusion
  | true =>
    obtain ⟨ts', rfl⟩ := hvs.starts_one (o := .rpar) (by decide) hclose
    obtain ⟨-, hredirs⟩ := gettoken_op hvs'
    apply (parseredirs_meets _ hredirs (Nat.lt_succ_of_le hredirs.length_le) hrel).mono
    rintro ⟨cmd', ps'⟩ ⟨us', rs, vs', rfl, hus', hvs'', hrel'⟩
    refine ⟨_, vs', _, ?_, .block hus hus', hvs'', hrel'⟩
    simp only [append_assoc, cons_append]

theorem exec_step (hline : ParsesWith buf n .line) : ParsesWith buf (n + 2) .exec := by
  intro i ts hat hn
  obtain ⟨j, hpeek, -, hat', -⟩ := peek_spec hat [chr '(']
  simp only [parse, parseexec, hpeek]
  cases hstarts : starts ts [chr '('] with
  | true =>
    obtain ⟨ts', rfl⟩ := hat.starts_one (o := .lpar) (by decide) hstarts
    simp only [Nonterminal.rounds, length_cons] at hn
    exact block_step hline hat' (by omega)
  | false =>
    have hempty : Cmd.Rel (Spells buf) (.EXEC []) (.EXEC []) := .EXEC .nil
    apply (parseredirs_meets _ hat' (Nat.lt_succ_of_le hat'.length_le) hempty).bind
    rintro ⟨ret, ps⟩ ⟨us, rs, vs, rfl, hus, hvs, hrel⟩
    apply (parseargs_meets _ hvs (Nat.lt_succ_of_le hvs.length_le) (Nat.zero_le _) hrel).mono
    rintro r ⟨us', vs', ws, rs', rfl, hargs, hws, hvs', hr⟩
    exact ⟨us ++ us', vs', _, (append_assoc ..).symm, .words hus hargs hws, hvs', hr⟩

theorem parses_with : ∀ (n : Nat) (N : Nonterminal), ParsesWith buf n N := by
  have hsmall : ∀ {n : Nat} {N : Nonterminal}, n < 2 → ParsesWith buf n N := by
    intro n N hlt i ts _ hn
    cases N <;> simp only [Nonterminal.rounds] at hn <;> omega
  intro n
  induction n using Nat.strong_induction_on with
  | h n ih =>
    intro N
    rcases n with _ | _ | n
    · exact hsmall (by decide)
    · exact hsmall (by decide)
    cases N with
    | line => exact line_step (ih (n + 1) (Nat.lt_succ_self _) .pipe) (ih (n + 1) (Nat.lt_succ_self _) .line)
    | pipe => exact pipe_step (ih (n + 1) (Nat.lt_succ_self _) .exec) (ih (n + 1) (Nat.lt_succ_self _) .pipe)
    | exec => exact exec_step (ih n (by omega) .line)

end

/-! ### What the parser accepts -/

section

variable {buf : Str} {N : Nonterminal} {vs : List Tok}

theorem Follows.mono {M : Nonterminal} (h : Follows N vs) (hsub : ∀ o ∈ N.follow, o ∈ M.follow) :
    Follows M vs := by
  rcases h with rfl | ⟨o, ts, ho, rfl⟩
  · exact .inl rfl
  · exact .inr ⟨o, ts, hsub o ho, rfl⟩

theorem Follows.starts (h : Follows N vs) (toks : List UInt8)
    (hdiff : ∀ o ∈ N.follow, toks.contains o.first = false) : starts vs toks = false := by
  rcases h with rfl | ⟨o, ts, ho, rfl⟩
  · rfl
  · exact hdiff o ho

theorem follows_replicate (h : Follows .pipe vs) (k : Nat) :
    Follows .pipe (List.replicate k (.op .amp) ++ vs) := by
  cases k with
  | zero => exact h
  | succ => exact .inr ⟨.amp, _, by decide, rfl⟩

theorem starts_words {us ts : List Tok} {ws : List Str} {rs rs' : List Redir} (hus : Redirs us rs)
    (hargs : Args vs ws rs') (hts : Follows .exec ts) {i : Nat} (hat : At buf i (us ++ (vs ++ ts))) :
    starts (us ++ (vs ++ ts)) [chr '('] = false := by
  cases hus with
  | @cons o w r us _ ho _ =>
    cases o with
    | lt | gt | gtgt => rfl
    | bar | lpar | rpar | semi | amp => cases ho
  | nil =>
    cases hargs with
    | nil => exact hts.starts _ (by decide)
    | cons _ _ => exact hat.starts_word _ (by decide)

/-- **The parser returns the tree of a derivation.** -/
theorem parse_returns {us : List Tok} {c : Cmd Str} (h : Derives N us c) :
    ∀ {n i : Nat} {vs : List Tok}, At buf i (us ++ vs) → Follows N vs → N.rounds us.length ≤ n →
    Returns (fun r => At buf r.2 vs ∧ Cmd.Rel (Spells buf) r.1 c) (parse buf N n i) := by
  induction h with
  | @line ts c k _ ih =>
    intro n i vs hat hvs hn
    simp only [Nonterminal.rounds, length_append] at hn
    obtain _ | n := n
    · cases hn
    rw [append_assoc] at hat
    simp only [parse, parseline]
    have hn' : Nonterminal.pipe.rounds ts.length ≤ n := by
      simp only [Nonterminal.rounds]
      omega
    apply (ih hat (follows_replicate (hvs.mono (by decide)) k) hn').bind
    rintro ⟨cmd, ps⟩ ⟨hbacks, hrel⟩
    have hk : k < strlen buf + 1 := by
      have hle := hbacks.length_le
      rw [length_append, length_replicate] at hle
      omega
    apply (parsebacks_returns (hvs.starts _ (by decide)) k hbacks hk hrel).bind
    rintro ⟨cmd', ps'⟩ ⟨hrest, hrel'⟩
    obtain ⟨j, hpeek, -, hend, -⟩ := peek_spec hrest [chr ';']
    simp only [hpeek, hvs.starts [chr ';'] (by decide)]
    exact ⟨_, rfl, hend, hrel'⟩
  | @list ts us c d k _ _ ih ih' =>
    intro n i vs hat hvs hn
    simp only [Nonterminal.rounds, length_append, length_cons] at hn
    obtain _ | n := n
    · cases hn
    rw [append_assoc, append_assoc] at hat
    have hsemi : Follows .pipe (.op .semi :: (us ++ vs)) := .inr ⟨.semi, _, by decide, rfl⟩
    have hn' : Nonterminal.pipe.rounds ts.length ≤ n ∧ Nonterminal.line.rounds us.length ≤ n := by
      simp only [Nonterminal.rounds]
      omega
    simp only [parse, parseline]
    apply (ih hat (follows_replicate hsemi k) hn'.1).bind
    rintro ⟨cmd, ps⟩ ⟨hbacks, hrel⟩
    have hk : k < strlen buf + 1 := by
      have hle := hbacks.length_le
      rw [length_append, length_replicate] at hle
      omega
    apply (parsebacks_returns rfl k hbacks hk hrel).bind
    rintro ⟨cmd', ps'⟩ ⟨hrest, hrel'⟩
    obtain ⟨j, hpeek, -, hfound, -⟩ := peek_spec hrest [chr ';']
    obtain ⟨-, hnext⟩ := gettoken_op hfound
    simp only [hpeek]
    apply (ih' hnext hvs hn'.2).bind
    rintro ⟨right, ps''⟩ ⟨hend, hright⟩
    exact ⟨_, rfl, hend, .LIST hrel' hright⟩
  | @exec ts c _ ih =>
    intro n i vs hat hvs hn
    simp only [Nonterminal.rounds] at hn
    obtain _ | n := n
    · cases hn
    simp only [parse, parsepipe]
    apply (ih hat (hvs.mono (by decide)) (Nat.le_of_succ_le_succ hn)).bind
    rintro ⟨cmd, ps⟩ ⟨hrest, hrel⟩
    obtain ⟨j, hpeek, -, hend, -⟩ := peek_spec hrest [chr '|']
    simp only [hpeek, hvs.starts [chr '|'] (by decide)]
    exact ⟨_, rfl, hend, hrel⟩
  | @pipe ts us c d _ _ ih ih' =>
    intro n i vs hat hvs hn
    simp only [Nonterminal.rounds, length_append, length_cons] at hn
    obtain _ | n := n
    · cases hn
    rw [append_assoc] at hat
    have hbar : Follows .exec (.op .bar :: (us ++ vs)) := .inr ⟨.bar, _, by decide, rfl⟩
    have hn' : Nonterminal.exec.rounds ts.length ≤ n ∧ Nonterminal.pipe.rounds us.length ≤ n := by
      simp only [Nonterminal.rounds]
      omega
    simp only [parse, parsepipe]
    apply (ih hat hbar hn'.1).bind
    rintro ⟨cmd, ps⟩ ⟨hrest, hrel⟩
    obtain ⟨j, hpeek, -, hfound, -⟩ := peek_spec hrest [chr '|']
    obtain ⟨-, hnext⟩ := gettoken_op hfound
    simp only [hpeek]
    apply (ih' hnext hvs hn'.2).bind
    rintro ⟨right, ps'⟩ ⟨hend, hright⟩
    exact ⟨_, rfl, hend, .PIPE hrel hright⟩
  | @block ts us c rs _ hus ih =>
    intro n i vs hat hvs hn
    simp only [Nonterminal.rounds, length_append, length_cons] at hn
    obtain ⟨n, rfl⟩ : ∃ n', n = n' + 2 := ⟨n - 2, by omega⟩
    rw [cons_append, append_assoc, cons_append] at hat
    have hrpar : Follows .line (.op .rpar :: (us ++ vs)) := .inr ⟨.rpar, _, by decide, rfl⟩
    have hn' : Nonterminal.line.rounds ts.length ≤ n := by
      simp only [Nonterminal.rounds]
      omega
    obtain ⟨j, hpeek, -, hat', -⟩ := peek_spec hat [chr '(']
    obtain ⟨j', hpeek', -, hfound, -⟩ := peek_spec hat' [chr '(']
    obtain ⟨-, hnext⟩ := gettoken_op hfound
    simp only [parse, parseexec, parseblock, hpeek, hpeek']
    apply (ih hnext hrpar hn').bind
    rintro ⟨cmd, ps⟩ ⟨hrest, hrel⟩
    obtain ⟨k, hpeek'', -, hfound', -⟩ := peek_spec hrest [chr ')']
    obtain ⟨-, hredirs⟩ := gettoken_op hfound'
    simp only [hpeek'']
    have hlen : us.length < strlen buf + 1 := by
      have hle := hredirs.length_le
      rw [length_append] at hle
      omega
    exact parseredirs_returns hus (fun _ _ => hvs.starts_redir) hredirs hlen hrel
  | @words us vs' ws rs rs' hus hargs hws =>
    intro n i vs hat hvs hn
    simp only [Nonterminal.rounds] at hn
    obtain _ | n := n
    · cases hn
    rw [append_assoc] at hat
    obtain ⟨j, hpeek, -, hat', -⟩ := peek_spec hat [chr '(']
    simp only [parse, parseexec, hpeek, starts_words hus hargs hvs hat]
    have hempty : Cmd.Rel (Spells buf) (.EXEC []) (.EXEC []) := .EXEC .nil
    have hlen := hat'.length_le
    rw [length_append, length_append] at hlen
    apply (parseredirs_returns hus (hargs.starts_rest hvs) hat' (by omega) hempty).bind
    rintro ⟨ret, ps⟩ ⟨hrest, hrel⟩
    have hws' : ([] ++ ws).length ≤ MAXARGS - 1 := hws
    exact parseargs_returns hargs hvs hrest (by omega) hws' hrel

end

/-! ### The strings -/

def Cmd.words {W : Type} : Cmd W → List W
  | .EXEC argv => argv
  | .REDIR cmd file _ _ => cmd.words ++ [file]
  | .PIPE left right => left.words ++ right.words
  | .LIST left right => left.words ++ right.words
  | .BACK cmd => cmd.words

section

variable {W V : Type} {R : W → V → Prop} {buf : Str} {sp : Span} {w : Str} {i : Nat}

theorem Cmd.Rel.mem_words {c : Cmd W} {c' : Cmd V} (h : Cmd.Rel R c c') {x : W} (hx : x ∈ c.words) :
    ∃ y, R x y := by
  induction h with
  | EXEC hargs =>
    induction hargs with
    | nil => cases hx
    | cons hr _ ih =>
      rcases mem_cons.mp hx with rfl | hx
      · exact ⟨_, hr⟩
      · exact ih hx
  | REDIR _ hfile ih =>
    rcases mem_append.mp hx with hx | hx
    · exact ih hx
    · rw [mem_singleton.mp hx]
      exact ⟨_, hfile⟩
  | PIPE _ _ ihl ihr | LIST _ _ ihl ihr =>
    rcases mem_append.mp hx with hx | hx
    · exact ihl hx
    · exact ihr hx
  | BACK _ ih => exact ih hx

theorem Cmd.Rel.map_eq {c : Cmd W} {c' : Cmd V} {f : W → V} (h : Cmd.Rel R c c')
    (hf : ∀ x ∈ c.words, ∀ y, R x y → f x = y) : c.map f = c' := by
  induction h with
  | EXEC hargs =>
    refine congrArg Cmd.EXEC ?_
    induction hargs with
    | nil => rfl
    | cons hr _ ih => rw [map_cons, hf _ (.head _) _ hr, ih fun x hx => hf x (.tail _ hx)]
  | REDIR _ hfile ih =>
    rw [Cmd.map, ih fun x hx => hf x (mem_append_left _ hx),
      hf _ (mem_append_right _ (.head _)) _ hfile]
  | PIPE _ _ ihl ihr | LIST _ _ ihl ihr =>
    rw [Cmd.map, ihl fun x hx => hf x (mem_append_left _ hx),
      ihr fun x hx => hf x (mem_append_right _ hx)]
  | BACK _ ih => rw [Cmd.map, ih hf]

theorem nulterminate_eq (cmd : Cmd Span) (buf : Str) :
    nulterminate cmd buf = cmd.words.foldl (fun buf w => buf.set w.eq 0) buf := by
  induction cmd generalizing buf with
  | EXEC => rfl
  | REDIR cmd file mode fd ih =>
    rw [nulterminate, ih, Cmd.words, foldl_append]
    rfl
  | PIPE left right ihl ihr | LIST left right ihl ihr =>
    rw [nulterminate, ihr, ihl, Cmd.words, foldl_append]
  | BACK cmd ih => exact ih buf

theorem byte_set (buf : Str) (k i : Nat) : byte (buf.set k 0) i = if i = k then 0 else byte buf i := by
  simp only [byte]
  grind

/-- Behind the words there are NULs, elsewhere nothing changes. -/
theorem byte_foldl_set (ws : List Span) (buf : Str) (i : Nat) :
    byte (ws.foldl (fun buf w => buf.set w.eq 0) buf) i =
      if ∃ w ∈ ws, i = w.eq then 0 else byte buf i := by
  induction ws generalizing buf with
  | nil => simp
  | cons w ws ih =>
    rw [foldl_cons, ih, byte_set]
    split <;> split <;> simp_all

theorem cstring_eq (hat : ∀ k (h : k < w.length), byte buf (i + k) = w[k]) (hnz : 0 ∉ w)
    (hend : byte buf (i + w.length) = 0) : cstring buf i = w := by
  induction w generalizing i with
  | nil =>
    rw [cstring]
    rcases hdrop : buf.drop i with _ | ⟨c, rest⟩
    · rfl
    have hc : byte buf i = c := by
      rw [byte, getD_eq_getElem?_getD, ← List.head?_drop, hdrop]
      rfl
    rw [length_nil, Nat.add_zero, hc] at hend
    rw [hend]
    rfl
  | cons c w ih =>
    have hc : byte buf i = c := hat 0 (Nat.zero_lt_succ _)
    have hcz : c ≠ 0 := fun hzero => hnz (hzero ▸ (.head _))
    have hlt : i < buf.length := by
      by_contra hge
      rw [byte, getD_eq_default _ _ (Nat.le_of_not_lt hge)] at hc
      exact hcz hc.symm
    have htail : cstring buf (i + 1) = w := by
      apply ih
      · intro k hk
        rw [Nat.add_assoc, Nat.add_comm 1 k]
        exact hat (k + 1) (Nat.succ_lt_succ hk)
      · exact fun hin => hnz (mem_cons_of_mem c hin)
      · rw [Nat.add_assoc, Nat.add_comm 1 w.length]
        exact hend
    have hcons : buf.drop i = c :: buf.drop (i + 1) := by
      rw [drop_eq_getElem_cons hlt, ← hc, byte, getD_eq_getElem _ _ hlt]
    rw [cstring, hcons, takeWhile_cons, if_pos (by simpa using hcz)]
    exact congrArg (c :: ·) htail

theorem Spells.bytes (h : Spells buf sp w) :
    sp.q + w.length = sp.eq ∧ ∀ k (hk : k < w.length), byte buf (sp.q + k) = w[k] := by
  have hle := h.le
  have hend := h.end_le
  rw [strlen] at hend
  have hlen : w.length = sp.eq - sp.q := by
    rw [← h.text, length_take, length_drop]
    omega
  refine ⟨by omega, fun k hk => ?_⟩
  rw [reads (sp.q + k) (by omega)]
  simp only [← h.text, getElem_take, getElem_drop]

/-- **Each word is read back** when there are NULs behind all of them. -/
theorem cstring_nulterminate {cmd : Cmd Span} {c : Cmd Str} (hrel : Cmd.Rel (Spells buf) cmd c)
    (hsp : sp ∈ cmd.words) (hw : Spells buf sp w) :
    cstring (nulterminate cmd buf) sp.q = w := by
  obtain ⟨heq, hbytes⟩ := hw.bytes
  have hend := hw.end_le
  have hnz : ∀ k (hk : k < w.length), w[k] ≠ 0 := by
    intro k hk
    rw [← hbytes k hk]
    exact byte_ne_zero (by omega)
  rw [nulterminate_eq]
  apply cstring_eq
  · intro k hk
    rw [byte_foldl_set, if_neg, hbytes k hk]
    -- a word ends at no byte of another one
    rintro ⟨sp', hsp', hk'⟩
    obtain ⟨w', hw'⟩ := hrel.mem_words hsp'
    have hword : isWord (byte buf sp'.eq) = true := by
      rw [← hk', hbytes k hk]
      exact hw.word _ (getElem_mem hk)
    have hzero := hw'.stop hword
    rw [← hk', hbytes k hk] at hzero
    exact hnz k hk hzero
  · intro hin
    obtain ⟨k, hk, hzero⟩ := mem_iff_getElem.mp hin
    exact hnz k hk hzero
  · rw [byte_foldl_set, if_pos ⟨sp, hsp, heq⟩]

end

/-! ### `parsecmd` -/

variable {buf : Str}

theorem strings_nulterminate {cmd : Cmd Span} {c : Cmd Str} (hrel : Cmd.Rel (Spells buf) cmd c) :
    strings cmd (nulterminate cmd buf) = c :=
  hrel.map_eq fun _ hsp _ hw => cstring_nulterminate hrel hsp hw

theorem at_start (buf : Str) : At buf 0 (lex (cstring buf 0)) := ⟨Nat.zero_le _, rfl⟩

theorem peek_end {i j : Nat} {b : Bool} {ts : List Tok} (h : At buf i ts)
    (hpeek : peek buf (strlen buf) i [] = (b, j)) : j = strlen buf ↔ ts = [] := by
  obtain ⟨k, hpeek', -, hat, hend⟩ := peek_spec h []
  obtain rfl : j = k := congrArg Prod.snd (hpeek.symm.trans hpeek')
  constructor
  · rintro rfl
    obtain ⟨-, rfl⟩ := hat
    rw [strlen, drop_length, lex_nil]
  · exact hend

theorem rounds_line_le (buf : Str) :
    Nonterminal.line.rounds (lex (cstring buf 0)).length ≤ 4 * strlen buf + 4 := by
  have hlen : (lex (cstring buf 0)).length ≤ strlen buf := length_lex_le _
  simp only [Nonterminal.rounds]
  omega

/-- What `parsecmd` returns is derived by the line, and it has rounds enough. -/
theorem parsecmd_meets (buf : Str) :
    Meets (· = .rounds) (fun r => r.2 = nulterminate r.1 buf ∧
      ∃ c, Derives .line (lex (cstring buf 0)) c ∧ Cmd.Rel (Spells buf) r.1 c)
      (parsecmd buf) := by
  simp only [parsecmd]
  apply (parses_with _ .line 0 _ (at_start buf) (rounds_line_le buf)).bind
  rintro ⟨cmd, s⟩ ⟨us, vs, c, hsplit, hus, hvs, hrel⟩
  rcases hpeek : peek buf (strlen buf) s [] with ⟨b, j⟩
  by_cases hend : j = strlen buf
  · rw [if_neg (not_not_intro hend)]
    have hnil : vs = [] := (peek_end hvs hpeek).mp hend
    rw [hsplit, hnil, append_nil]
    exact ⟨rfl, c, hus, hrel⟩
  · rw [if_pos hend]
    exact Stop.noConfusion

theorem of_parsecmd {cmd : Cmd Span} {buf' : Str} (h : parsecmd buf = .ok (cmd, buf')) :
    buf' = nulterminate cmd buf ∧
      ∃ c, Derives .line (lex (cstring buf 0)) c ∧ Cmd.Rel (Spells buf) cmd c := by
  have hmeets := parsecmd_meets buf
  rw [h] at hmeets
  exact hmeets

theorem parsecmd_returns {c : Cmd Str} (h : Derives .line (lex (cstring buf 0)) c) :
    Returns (fun r => strings r.1 r.2 = c) (parsecmd buf) := by
  have hat := at_start buf
  rw [← append_nil (lex (cstring buf 0))] at hat
  simp only [parsecmd]
  apply (parse_returns h hat (.inl rfl) (rounds_line_le buf)).bind
  rintro ⟨cmd, s⟩ ⟨hvs, hrel⟩
  rcases hpeek : peek buf (strlen buf) s [] with ⟨b, j⟩
  rw [if_neg (not_not_intro ((peek_end hvs hpeek).mpr rfl))]
  exact ⟨_, rfl, strings_nulterminate hrel⟩

/-- **The parser accepts exactly the grammar**: it returns the tree of the line if there is one,
and panics otherwise. -/
theorem parsecmd_accepts_grammar (buf : Str) :
    (∀ t, (∃ cmd buf', parsecmd buf = .ok (cmd, buf') ∧ strings cmd buf' = t) ↔
      Derives .line (lex (cstring buf 0)) t) ∧
    ((¬ ∃ t, Derives .line (lex (cstring buf 0)) t) →
      ∃ stop, parsecmd buf = .error stop ∧ stop ≠ .rounds) := by
  have hmeets := parsecmd_meets buf
  refine ⟨fun t => ⟨?_, fun hder => ?_⟩, fun hnone => ?_⟩
  · rintro ⟨cmd, buf', hok, rfl⟩
    obtain ⟨rfl, c, hc, hrel⟩ := of_parsecmd hok
    rwa [strings_nulterminate hrel]
  · obtain ⟨⟨cmd, buf'⟩, hok, htree⟩ := parsecmd_returns hder
    exact ⟨cmd, buf', hok, htree⟩
  rcases hres : parsecmd buf with stop | ⟨cmd, buf'⟩
  · rw [hres] at hmeets
    exact ⟨stop, rfl, hmeets⟩
  · obtain ⟨-, c, hc, -⟩ := of_parsecmd hres
    exact absurd ⟨c, hc⟩ hnone

/-- The line `a>b;c&`. -/
example : (parsecmd ("a>b;c&".toList.map chr)).toOption.map (fun r => strings r.1 r.2) =
    some (.LIST (.REDIR (.EXEC [[97]]) [98] (O_WRONLY ||| O_CREATE) 1) (.BACK (.EXEC [[99]]))) := by
  decide +kernel

/-! ### Words in place -/

/-- In every `EXEC` node there is room for the null pointer behind the words. -/
def Cmd.Fits {W : Type} : Cmd W → Prop
  | .EXEC argv => argv.length < MAXARGS
  | .REDIR cmd _ _ _ | .BACK cmd => cmd.Fits
  | .PIPE left right | .LIST left right => left.Fits ∧ right.Fits

theorem Cmd.Fits.wrap {c : Cmd Str} (h : c.Fits) (rs : List Redir) : (wrap c rs).Fits := by
  induction rs generalizing c with
  | nil => exact h
  | cons r rs ih => exact ih h

theorem Cmd.Fits.backs {c : Cmd Str} (h : c.Fits) (k : Nat) : (Cmd.BACK^[k] c).Fits := by
  induction k generalizing c with
  | zero => exact h
  | succ k ih => exact ih h

theorem Derives.fits {N : Nonterminal} {ts : List Tok} {c : Cmd Str} (h : Derives N ts c) :
    c.Fits := by
  induction h with
  | line k _ ih => exact ih.backs k
  | list k _ _ ih ih' => exact ⟨ih.backs k, ih'⟩
  | exec _ ih => exact ih
  | pipe _ _ ih ih' => exact ⟨ih, ih'⟩
  | block _ _ ih => exact ih.wrap _
  | words _ _ hws => exact Cmd.Fits.wrap (Nat.lt_of_le_pred (by decide) hws) _

theorem Cmd.Rel.fits {W V : Type} {R : W → V → Prop} {c : Cmd W} {c' : Cmd V}
    (h : Cmd.Rel R c c') (hc : c'.Fits) : c.Fits := by
  induction h with
  | EXEC hargs => exact hargs.length_eq.trans_lt hc
  | REDIR _ _ ih | BACK _ ih => exact ih hc
  | PIPE _ _ ih ih' | LIST _ _ ih ih' => exact ⟨ih hc.1, ih' hc.2⟩

def slice (s : Str) (sp : Span) : Str := (s.drop sp.q).take (sp.eq - sp.q)

/-- **The words are read back** from the buffer that `nulterminate` leaves: the tree marks the
words of the line as they are derived, each of them is a string now, and the arguments of
each command end with a null pointer in their `MAXARGS` places. -/
theorem words_survive_nulterminate {buf' : Str} {cmd : Cmd Span}
    (h : parsecmd buf = .ok (cmd, buf')) :
    Derives .line (lex (cstring buf 0)) (cmd.map (slice (cstring buf 0))) ∧
    (∀ sp ∈ cmd.words, cstring buf' sp.q = slice (cstring buf 0) sp) ∧ cmd.Fits := by
  obtain ⟨rfl, c, hc, hrel⟩ := of_parsecmd h
  refine ⟨?_, fun sp hsp => ?_, hrel.fits hc.fits⟩
  · have hmap : cmd.map (slice (cstring buf 0)) = c := hrel.map_eq fun _ _ _ hw => hw.text
    rwa [hmap]
  · obtain ⟨w, hw⟩ := hrel.mem_words hsp
    rw [cstring_nulterminate hrel hsp hw, slice, hw.text]

theorem words_survive_nulterminate_cat : ∃ cmd buf',
    parsecmd ("cat<in".toList.map chr) = .ok (cmd, buf') ∧
    ∀ sp ∈ cmd.words, cstring buf' sp.q = slice (cstring ("cat<in".toList.map chr) 0) sp := by
  have h : parsecmd ("cat<in".toList.map chr) =
      .ok (.REDIR (.EXEC [⟨0, 3⟩]) ⟨4, 6⟩ 0 0, [99, 97, 116, 0, 105, 110]) := by decide +kernel
  exact ⟨_, _, h, (words_survive_nulterminate h).2.1⟩

end Xv6.Sh
