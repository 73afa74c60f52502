import Xv6.Scan
import Xv6.SysFile

/-!
**The parser of the shell** (`sh.c`): `gettoken`, `peek` and the five functions that parse a
line into a tree.

The text is a buffer of bytes with a NUL behind them, a `char *` a position in it. A word of the
tree is the two positions that `gettoken` leaves, `q` and `eq`; `nulterminate` puts a NUL at the
second, and the string is then read from the first. The constructors return a new tree:
`malloc` is taken to succeed. While `parseexec` reads, `cmd` points at the `EXEC` node below the
redirections of `ret`, so a word stored through it is `push`ed into `ret`.

The functions and their loops are given rounds; that these never run out is proved.
-/

namespace Xv6.Sh

open Scan
open Xv6.Fs (O_RDONLY O_CREATE)

/-! ### Trees -/

def MAXARGS : Nat := 10

/-- A command, with words of type `W`. -/
inductive Cmd (W : Type) where
  | EXEC (argv : List W)
  | REDIR (cmd : Cmd W) (file : W) (mode : UInt32) (fd : Nat)
  | PIPE (left right : Cmd W)
  | LIST (left right : Cmd W)
  | BACK (cmd : Cmd W)
deriving DecidableEq

namespace Cmd

variable {W V : Type}

def map (f : W → V) : Cmd W → Cmd V
  | EXEC argv => EXEC (argv.map f)
  | REDIR cmd file mode fd => REDIR (cmd.map f) (f file) mode fd
  | PIPE left right => PIPE (left.map f) (right.map f)
  | LIST left right => LIST (left.map f) (right.map f)
  | BACK cmd => BACK (cmd.map f)

/-- One more word for the `EXEC` node below the redirections. -/
def push (w : W) : Cmd W → Cmd W
  | EXEC argv => EXEC (argv ++ [w])
  | REDIR cmd file mode fd => REDIR (cmd.push w) file mode fd
  | cmd => cmd

end Cmd

/-! ### Text -/

abbrev Str := List UInt8

def chr (c : Char) : UInt8 := c.toNat.toUInt8

/-- The byte at a position; behind the bytes of the buffer there is a NUL. -/
def byte (buf : Str) (i : Nat) : UInt8 := buf.getD i 0

/-- The string from a position on. -/
def cstring (buf : Str) (i : Nat) : Str := (buf.drop i).takeWhile (· != 0)

def strlen (buf : Str) : Nat := (cstring buf 0).length

def whitespace : List UInt8 := [chr ' ', chr '\t', chr '\r', chr '\n', chr '\x0b']

def symbols : List UInt8 := [chr '<', chr '|', chr '>', chr '&', chr ';', chr '(', chr ')']

def isSpace (c : UInt8) : Bool := whitespace.contains c

def isWord (c : UInt8) : Bool := !whitespace.contains c && !symbols.contains c

/-! ### Tokens -/

/-- The positions between which a word stands. -/
structure Span where
  q : Nat
  eq : Nat
deriving DecidableEq

/-- What `gettoken` returns and leaves in `*q`, `*eq` and `*ps`. -/
structure Token where
  ret : UInt8
  span : Span
  ps : Nat

section

variable (buf : Str) (es : Nat)

/-- `while(s < es && strchr(whitespace, *s)) s++`. -/
def skip (s : Nat) : Nat := scan isSpace (byte buf) (es - s) s

/-- The switch of `gettoken`: what it returns, and the end of the token at `s`. -/
def switch (s : Nat) : UInt8 × Nat :=
  if byte buf s = 0 then (0, s)
  else if [chr '|', chr '(', chr ')', chr ';', chr '&', chr '<'].contains (byte buf s) then
    (byte buf s, s + 1)
  else if byte buf s = chr '>' then
    if byte buf (s + 1) = chr '>' then (chr '+', s + 2) else (chr '>', s + 1)
  else (chr 'a', scan isWord (byte buf) (es - s) s)

def gettoken (ps : Nat) : Token :=
  let s := skip buf es ps
  let (ret, eq) := switch buf es s
  { ret := ret, span := ⟨s, eq⟩, ps := skip buf es eq }

def peek (ps : Nat) (toks : List UInt8) : Bool × Nat :=
  let s := skip buf es ps
  (byte buf s != 0 && toks.contains (byte buf s), s)

end

/-! ### Parsing -/

/-- Why parsing ends without a tree. -/
inductive Stop where
  /-- `panic(msg)`. -/
  | panic (msg : String)
  /-- `leftovers: ` and the rest are printed, then `panic("syntax")`. -/
  | leftovers (rest : Str)
  /-- The rounds have run out. -/
  | rounds
deriving DecidableEq

section

variable (buf : Str) (es : Nat)

/-- The loop of `parseline`. -/
def parsebacks : Nat → Cmd Span → Nat → Except Stop (Cmd Span × Nat)
  | 0, _, _ => .error .rounds
  | n + 1, cmd, ps =>
      let (found, ps) := peek buf es ps [chr '&']
      if found then
        let tok := gettoken buf es ps
        parsebacks n (.BACK cmd) tok.ps
      else .ok (cmd, ps)

/-- The redirection that an operator makes. -/
def redircmd (tok : UInt8) (cmd : Cmd Span) (file : Span) : Cmd Span :=
  if tok = chr '<' then .REDIR cmd file O_RDONLY 0
  else if tok = chr '>' then .REDIR cmd file (O_WRONLY ||| O_CREATE) 1
  else if tok = chr '+' then .REDIR cmd file (O_WRONLY ||| O_CREATE) 1
  else cmd

def parseredirs : Nat → Cmd Span → Nat → Except Stop (Cmd Span × Nat)
  | 0, _, _ => .error .rounds
  | n + 1, cmd, ps =>
      let (found, ps) := peek buf es ps [chr '<', chr '>']
      if found then
        let tok := gettoken buf es ps
        let file := gettoken buf es tok.ps
        if file.ret ≠ chr 'a' then .error (.panic "missing file for redirection")
        else parseredirs n (redircmd tok.ret cmd file.span) file.ps
      else .ok (cmd, ps)

/-- The loop of `parseexec`. -/
def parseargs : Nat → Nat → Cmd Span → Nat → Except Stop (Cmd Span × Nat)
  | 0, _, _, _ => .error .rounds
  | n + 1, argc, ret, ps => do
      let (found, ps) := peek buf es ps [chr '|', chr ')', chr '&', chr ';']
      if found then return (ret, ps)
      else
        let tok := gettoken buf es ps
        if tok.ret = 0 then return (ret, tok.ps)
        else if tok.ret ≠ chr 'a' then throw (.panic "syntax")
        else
          let ret := ret.push tok.span
          if MAXARGS ≤ argc + 1 then throw (.panic "too many args")
          else
            let (ret, ps) ← parseredirs buf es (es + 1) ret tok.ps
            parseargs n (argc + 1) ret ps

mutual

def parseline : Nat → Nat → Except Stop (Cmd Span × Nat)
  | 0, _ => .error .rounds
  | n + 1, ps => do
      let (cmd, ps) ← parsepipe n ps
      let (cmd, ps) ← parsebacks buf es (es + 1) cmd ps
      let (found, ps) := peek buf es ps [chr ';']
      if found then
        let tok := gettoken buf es ps
        let (right, ps) ← parseline n tok.ps
        return (.LIST cmd right, ps)
      else return (cmd, ps)

def parsepipe : Nat → Nat → Except Stop (Cmd Span × Nat)
  | 0, _ => .error .rounds
  | n + 1, ps => do
      let (cmd, ps) ← parseexec n ps
      let (found, ps) := peek buf es ps [chr '|']
      if found then
        let tok := gettoken buf es ps
        let (right, ps) ← parsepipe n tok.ps
        return (.PIPE cmd right, ps)
      else return (cmd, ps)

def parseblock : Nat → Nat → Except Stop (Cmd Span × Nat)
  | 0, _ => .error .rounds
  | n + 1, ps => do
      let (found, ps) := peek buf es ps [chr '(']
      if !found then throw (.panic "parseblock")
      else
        let tok := gettoken buf es ps
        let (cmd, ps) ← parseline n tok.ps
        let (found, ps) := peek buf es ps [chr ')']
        if !found then throw (.panic "syntax - missing )")
        else
          let tok := gettoken buf es ps
          parseredirs buf es (es + 1) cmd tok.ps

def parseexec : Nat → Nat → Except Stop (Cmd Span × Nat)
  | 0, _ => .error .rounds
  | n + 1, ps => do
      let (found, ps) := peek buf es ps [chr '(']
      if found then parseblock n ps
      else
        let (ret, ps) ← parseredirs buf es (es + 1) (.EXEC []) ps
        parseargs buf es (es + 1) 0 ret ps

end

end

/-- Put a NUL behind each word of the tree. -/
def nulterminate : Cmd Span → Str → Str
  | .EXEC argv, buf => argv.foldl (fun buf w => buf.set w.eq 0) buf
  | .REDIR cmd file _ _, buf => (nulterminate cmd buf).set file.eq 0
  | .PIPE left right, buf => nulterminate right (nulterminate left buf)
  | .LIST left right, buf => nulterminate right (nulterminate left buf)
  | .BACK cmd, buf => nulterminate cmd buf

/-- The tree, and the buffer in which its words are. -/
def parsecmd (buf : Str) : Except Stop (Cmd Span × Str) := do
  let es := strlen buf
  let (cmd, s) ← parseline buf es (4 * es + 4) 0
  let (_, s) := peek buf es s []
  if s ≠ es then throw (.leftovers (cstring buf s))
  else return (cmd, nulterminate cmd buf)

/-- The strings of a tree: from each word's first position to the NUL. -/
def strings (cmd : Cmd Span) (buf : Str) : Cmd Str := cmd.map fun w => cstring buf w.q

end Xv6.Sh
