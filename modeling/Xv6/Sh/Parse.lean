import Mathlib.Data.List.Basic
import Mathlib.Logic.Function.Basic

/-! # The shell's parser

`gettoken`, `peek` and the recursive-descent functions of `sh.c`. The line is the list of its bytes; a
pointer into it is a position, `es` is the length of the line, and the byte at `es` is the final `NUL`.

* **Faults.**  `panic` ends the shell's child with a message. A byte read behind the final `NUL` is
  `Fault.bounds`, and `Fault.fuel` stands for a recursion that has not come to its end; neither occurs
  (`parsecmd_grammar`).
* **Commands** hold positions, as in the source: a word is given by where it begins and ends.
  `nulterminate` then writes a `NUL` at the end of each word, so that the words can be read as strings
  (`Cmd.tree`).
* **Redirections.**  `parseexec` fills in the arguments of a command that `parseredirs` may already have
  wrapped; the model keeps the arguments and the redirections apart and wraps at the end.
* `malloc` is taken to succeed. -/

namespace Xv6.Sh

def MAXARGS : ℕ := 10

def O_RDONLY : ℕ := 0
def O_WRONLY : ℕ := 1
def O_CREATE : ℕ := 0x200

/-- The bytes of a C string. -/
def chars (s : String) : List UInt8 := s.toList.map Char.toUInt8

def whitespace : List UInt8 := chars " \t\r\n" ++ [11]

def symbols : List UInt8 := chars "<|>&;()"

def isSpace (c : UInt8) : Bool := c ∈ whitespace

/-- Neither `strchr` finds `c`. -/
def isWord (c : UInt8) : Bool := c ∉ whitespace ∧ c ∉ symbols

inductive Fault where
  | panic (msg : String)
  | bounds
  | fuel
deriving DecidableEq, Repr

/-- What `gettoken` returns: `0`, a symbol, `'+'` for `>>`, or `'a'` for a word. -/
inductive Tok where
  | eof
  | bar
  | lpar
  | rpar
  | semi
  | amp
  | lt
  | gt
  | gtgt
  | word
deriving DecidableEq, Repr

/-- A redirection: the name of the file, the mode and the descriptor. -/
structure Redir (α : Type) where
  file : α
  mode : ℕ
  fd : ℕ
deriving DecidableEq, Repr

/-- `struct cmd`, with words of type `α`. -/
inductive Cmd (α : Type) where
  | exec (argv : List α)
  | redir (cmd : Cmd α) (r : Redir α)
  | pipe (left right : Cmd α)
  | list (left right : Cmd α)
  | back (cmd : Cmd α)
deriving DecidableEq, Repr

/-- The begin and the end of a word. -/
abbrev Span := ℕ × ℕ

/-- `redircmd` for one redirection after the other. -/
def Cmd.wrap {α : Type} (cmd : Cmd α) (rs : List (Redir α)) : Cmd α := rs.foldl .redir cmd

section
variable (line : List UInt8)

/-- `*s`. -/
def charAt (s : ℕ) : Except Fault UInt8 :=
  if s ≤ line.length then .ok (line.getD s 0) else .error .bounds

/-- `while(s < es && p(*s)) s++`, for at most `n` rounds. -/
def scanLoop (p : UInt8 → Bool) : ℕ → ℕ → ℕ
  | 0, s => s
  | n + 1, s => if s < line.length ∧ p (line.getD s 0) = true then scanLoop p n (s + 1) else s

def scan (p : UInt8 → Bool) (s : ℕ) : ℕ := scanLoop line p (line.length - s) s

/-- The symbols of one character other than `>`. -/
def single (c : UInt8) : Option Tok :=
  if c = '|'.toUInt8 then some .bar
  else if c = '('.toUInt8 then some .lpar
  else if c = ')'.toUInt8 then some .rpar
  else if c = ';'.toUInt8 then some .semi
  else if c = '&'.toUInt8 then some .amp
  else if c = '<'.toUInt8 then some .lt
  else none

/-- The `switch` of `gettoken`: the token at `s` and where it ends. -/
def tokenAt (s : ℕ) : Except Fault (Tok × ℕ) := do
  let c ← charAt line s
  if c = 0 then .ok (.eof, s)
  else match single c with
    | some tok => .ok (tok, s + 1)
    | none =>
      if c = '>'.toUInt8 then do
        let d ← charAt line (s + 1)
        .ok (if d = '>'.toUInt8 then (.gtgt, s + 2) else (.gt, s + 1))
      else .ok (.word, scan line isWord s)

/-- `gettoken(ps, es, q, eq)` at `s`: the token, `q`, `eq`, and where the cursor is left. -/
def gettoken (s : ℕ) : Except Fault (Tok × Span × ℕ) := do
  let q := scan line isSpace s
  let (tok, eq) ← tokenAt line q
  .ok (tok, (q, eq), scan line isSpace eq)

/-- `peek(ps, es, toks)` at `s`. -/
def peek (s : ℕ) (toks : String) : Except Fault (Bool × ℕ) := do
  let s := scan line isSpace s
  let c ← charAt line s
  .ok (c ≠ 0 ∧ c ∈ chars toks, s)

/-- The redirection for a token; `parseredirs` only meets the three. -/
def redirOf (tok : Tok) (file : Span) : List (Redir Span) :=
  match tok with
  | .lt => [⟨file, O_RDONLY, 0⟩]
  | .gt => [⟨file, O_WRONLY ||| O_CREATE, 1⟩]
  | .gtgt => [⟨file, O_WRONLY ||| O_CREATE, 1⟩]
  | _ => []

/-- The loop of `parseredirs`: the redirections, in the order in which they wrap the command. -/
def parseredirs : ℕ → ℕ → Except Fault (List (Redir Span) × ℕ)
  | 0, _ => .error .fuel
  | n + 1, s => do
    let (more, s) ← peek line s "<>"
    if more = true then do
      let (tok, _, s) ← gettoken line s
      let (tok', file, s) ← gettoken line s
      if tok' ≠ .word then .error (.panic "missing file for redirection")
      else do
        let (rs, s) ← parseredirs n s
        .ok (redirOf tok file ++ rs, s)
    else .ok ([], s)

/-- The loop of `parseexec`, when there are `argc` words already. -/
def parseargs (argc : ℕ) : ℕ → ℕ → Except Fault (List Span × List (Redir Span) × ℕ)
  | 0, _ => .error .fuel
  | n + 1, s => do
    let (stop, s) ← peek line s "|)&;"
    if stop = true then .ok ([], [], s)
    else do
      let (tok, word, s) ← gettoken line s
      if tok = .eof then .ok ([], [], s)
      else if tok ≠ .word then .error (.panic "syntax")
      else if argc + 1 ≥ MAXARGS then .error (.panic "too many args")
      else do
        let (rs, s) ← parseredirs line n s
        let (words, rs', s) ← parseargs (argc + 1) n s
        .ok (word :: words, rs ++ rs', s)

/-- The loop of `parseline` over `&`. -/
def parseback : ℕ → Cmd Span → ℕ → Except Fault (Cmd Span × ℕ)
  | 0, _, _ => .error .fuel
  | n + 1, cmd, s => do
    let (more, s) ← peek line s "&"
    if more = true then do
      let (_, _, s) ← gettoken line s
      parseback n (.back cmd) s
    else .ok (cmd, s)

mutual

def parseline : ℕ → ℕ → Except Fault (Cmd Span × ℕ)
  | 0, _ => .error .fuel
  | n + 1, s => do
    let (cmd, s) ← parsepipe n s
    let (cmd, s) ← parseback line n cmd s
    let (more, s) ← peek line s ";"
    if more = true then do
      let (_, _, s) ← gettoken line s
      let (right, s) ← parseline n s
      .ok (.list cmd right, s)
    else .ok (cmd, s)

def parsepipe : ℕ → ℕ → Except Fault (Cmd Span × ℕ)
  | 0, _ => .error .fuel
  | n + 1, s => do
    let (cmd, s) ← parseexec n s
    let (more, s) ← peek line s "|"
    if more = true then do
      let (_, _, s) ← gettoken line s
      let (right, s) ← parsepipe n s
      .ok (.pipe cmd right, s)
    else .ok (cmd, s)

def parseexec : ℕ → ℕ → Except Fault (Cmd Span × ℕ)
  | 0, _ => .error .fuel
  | n + 1, s => do
    let (block, s) ← peek line s "("
    if block = true then parseblock n s
    else do
      let (rs, s) ← parseredirs line n s
      let (words, rs', s) ← parseargs line 0 n s
      .ok (Cmd.wrap (.exec words) (rs ++ rs'), s)

def parseblock : ℕ → ℕ → Except Fault (Cmd Span × ℕ)
  | 0, _ => .error .fuel
  | n + 1, s => do
    let (opened, s) ← peek line s "("
    if opened = false then .error (.panic "parseblock")
    else do
      let (_, _, s) ← gettoken line s
      let (cmd, s) ← parseline n s
      let (closed, s) ← peek line s ")"
      if closed = false then .error (.panic "syntax - missing )")
      else do
        let (_, _, s) ← gettoken line s
        let (rs, s) ← parseredirs line n s
        .ok (cmd.wrap rs, s)

end

/-- `*w = 0` for the end of each word. -/
def putNuls (ws : List Span) (buf : ℕ → UInt8) : ℕ → UInt8 :=
  ws.foldl (fun buf w => Function.update buf w.2 0) buf

/-- `nulterminate(cmd)`, with the memory that holds the line. -/
def nulterminate : Cmd Span → (ℕ → UInt8) → (ℕ → UInt8)
  | .exec argv, buf => putNuls argv buf
  | .redir cmd r, buf => Function.update (nulterminate cmd buf) r.file.2 0
  | .pipe left right, buf => nulterminate right (nulterminate left buf)
  | .list left right, buf => nulterminate right (nulterminate left buf)
  | .back cmd, buf => nulterminate cmd buf

/-- `parsecmd(s)`: the command and the line's memory after it. Each level of brackets takes four calls. -/
def parsecmd : Except Fault (Cmd Span × (ℕ → UInt8)) := do
  let (cmd, s) ← parseline line (4 * line.length + 5) 0
  let (_, s) ← peek line s ""
  if s ≠ line.length then .error (.panic "syntax")
  else .ok (cmd, nulterminate cmd fun i => line.getD i 0)

end

/-- The string that begins at `q`, in a memory with a `NUL` at `es`. -/
def cstring (buf : ℕ → UInt8) (es q : ℕ) : List UInt8 :=
  ((List.range (es - q)).map fun i => buf (q + i)).takeWhile (· ≠ 0)

def Redir.map {α β : Type} (f : α → β) (r : Redir α) : Redir β := ⟨f r.file, r.mode, r.fd⟩

/-- The command with each word replaced. -/
def Cmd.map {α β : Type} (f : α → β) : Cmd α → Cmd β
  | .exec argv => .exec (argv.map f)
  | .redir cmd r => .redir (cmd.map f) (r.map f)
  | .pipe left right => .pipe (left.map f) (right.map f)
  | .list left right => .list (left.map f) (right.map f)
  | .back cmd => .back (cmd.map f)

/-- What `runcmd` sees of a command: the strings of its words in the memory `buf`. -/
def Cmd.tree (buf : ℕ → UInt8) (es : ℕ) (cmd : Cmd Span) : Cmd (List UInt8) :=
  cmd.map fun w => cstring buf es w.1

end Xv6.Sh
