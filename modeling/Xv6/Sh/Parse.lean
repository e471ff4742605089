import Mathlib

/-!
# Sh — the shell's parser (`sh.c`)

The input buffer is a list of bytes, read by index; behind its last byte, and at the first NUL in it,
the line ends.  A cursor is an index, and so are the two ends of a word, which a command tree keeps
in place of its text until `nulterminate` cuts the words out in the buffer.

The procedures call each other, and their loops go on, as often as the line makes them: each has a
bound on its rounds as an argument, and `Fail.fuel` is what comes out when the bound is too small.
-/

namespace Xv6.Sh

/-! ### Characters -/

def ch (c : Char) : UInt8 := c.toNat.toUInt8

def whitespace : List UInt8 := [' ', '\t', '\r', '\n', '\x0b'].map ch

def symbols : List UInt8 := ['<', '|', '>', '&', ';', '(', ')'].map ch

/-- Whether the character is in the string; the NUL at its end is not looked at. -/
def strchr (s : List UInt8) (c : UInt8) : Bool := s.contains c

def strlen (line : List UInt8) : Nat := (line.takeWhile (· != 0)).length

/-- `line[i]` -/
def char (line : List UInt8) (i : Nat) : UInt8 := line.getD i 0

/-! ### `gettoken` and `peek` -/

/-- `while(s < es && p(*s)) s++`, for at most the given number of rounds. -/
def advance (p : UInt8 → Bool) (line : List UInt8) (es : Nat) : Nat → Nat → Nat
  | 0, s => s
  | k + 1, s => if s < es && p (char line s) then advance p line es k (s + 1) else s

/-- Over whitespace. -/
def skip (line : List UInt8) (es s : Nat) : Nat := advance (strchr whitespace) line es es s

/-- Over a word. -/
def wordEnd (line : List UInt8) (es s : Nat) : Nat :=
  advance (fun c => !strchr whitespace c && !strchr symbols c) line es es s

/-- What `gettoken` returns, and what it stores in `*q`, `*eq` and `*ps`. -/
structure Token where
  ret : UInt8
  q : Nat
  eq : Nat
  next : Nat

def gettoken (line : List UInt8) (es ps : Nat) : Token :=
  let s := skip line es ps
  let c := char line s
  let token ret eq : Token := ⟨ret, s, eq, skip line es eq⟩
  if c = 0 then token 0 s
  else if strchr (['|', '(', ')', ';', '&', '<'].map ch) c then token c (s + 1)
  else if c = ch '>' then
    if char line (s + 1) = ch '>' then token (ch '+') (s + 2) else token (ch '>') (s + 1)
  else token (ch 'a') (wordEnd line es s)

/-- The cursor behind the whitespace, and whether one of the characters is there. -/
def peek (line : List UInt8) (es ps : Nat) (toks : List Char) : Nat × Bool :=
  let s := skip line es ps
  (s, char line s != 0 && strchr (toks.map ch) (char line s))

/-! ### Commands -/

abbrev MAXARGS : Nat := 10

abbrev O_RDONLY : Nat := 0x000

abbrev O_WRONLY : Nat := 0x001

abbrev O_CREATE : Nat := 0x200

/-- A redirection: the file, the mode it is opened with, the descriptor it becomes. -/
structure Redir (ω : Type) where
  file : ω
  mode : Nat
  fd : Nat
  deriving DecidableEq

/-- Command trees over words of type `ω`. -/
inductive Cmd (ω : Type) where
  | exec (argv : List ω)
  | redir (cmd : Cmd ω) (r : Redir ω)
  | pipe (left right : Cmd ω)
  | list (left right : Cmd ω)
  | back (cmd : Cmd ω)
  deriving DecidableEq

/-- A word of the line: where it begins and where it ends. -/
abbrev Slice : Type := Nat × Nat

/-- `cmd->argv[argc] = q; cmd->eargv[argc] = eq`: the EXEC node is below the redirections. -/
def Cmd.addArg {ω : Type} (w : ω) : Cmd ω → Cmd ω
  | .exec argv => .exec (argv ++ [w])
  | .redir cmd r => .redir (cmd.addArg w) r
  | cmd => cmd

/-- Why `parsecmd` does not return. -/
inductive Fail where
  | panic (msg : String)
  | fuel
  deriving DecidableEq

/-! ### The procedures -/

variable (line : List UInt8) (es : Nat)

def parseredirs : Nat → Cmd Slice → Nat → Except Fail (Cmd Slice × Nat)
  | 0, _, _ => .error .fuel
  | k + 1, cmd, ps =>
    let (ps, more) := peek line es ps ['<', '>']
    if more then
      let tok := gettoken line es ps
      let file := gettoken line es tok.next
      if file.ret ≠ ch 'a' then .error (.panic "missing file for redirection")
      else
        let r : Redir Slice :=
          if tok.ret = ch '<' then ⟨(file.q, file.eq), O_RDONLY, 0⟩
          else ⟨(file.q, file.eq), O_WRONLY ||| O_CREATE, 1⟩
        parseredirs k (.redir cmd r) file.next
    else .ok (cmd, ps)

/-- The loop of `parseexec` over the arguments. -/
def parseargs : Nat → Cmd Slice → Nat → Nat → Except Fail (Cmd Slice × Nat)
  | 0, _, _, _ => .error .fuel
  | k + 1, ret, argc, ps =>
    let (ps, stop) := peek line es ps ['|', ')', '&', ';']
    if stop then .ok (ret, ps)
    else
      let tok := gettoken line es ps
      if tok.ret = 0 then .ok (ret, tok.next)
      else if tok.ret ≠ ch 'a' then .error (.panic "syntax")
      else
        let ret := ret.addArg (tok.q, tok.eq)
        if argc + 1 ≥ MAXARGS then .error (.panic "too many args")
        else do
          let (ret, ps) ← parseredirs line es (es + 1) ret tok.next
          parseargs k ret (argc + 1) ps

/-- The loop of `parseline` over the `&`s. -/
def parsebacks : Nat → Cmd Slice → Nat → Except Fail (Cmd Slice × Nat)
  | 0, _, _ => .error .fuel
  | k + 1, cmd, ps =>
    let (ps, more) := peek line es ps ['&']
    if more then parsebacks k (.back cmd) (gettoken line es ps).next else .ok (cmd, ps)

mutual

def parseline : Nat → Nat → Except Fail (Cmd Slice × Nat)
  | 0, _ => .error .fuel
  | n + 1, ps => do
    let (cmd, ps) ← parsepipe n ps
    let (cmd, ps) ← parsebacks line es (es + 1) cmd ps
    let (ps, more) := peek line es ps [';']
    if more then do
      let (right, ps) ← parseline n (gettoken line es ps).next
      .ok (.list cmd right, ps)
    else .ok (cmd, ps)

def parsepipe : Nat → Nat → Except Fail (Cmd Slice × Nat)
  | 0, _ => .error .fuel
  | n + 1, ps => do
    let (cmd, ps) ← parseexec n ps
    let (ps, more) := peek line es ps ['|']
    if more then do
      let (right, ps) ← parsepipe n (gettoken line es ps).next
      .ok (.pipe cmd right, ps)
    else .ok (cmd, ps)

def parseblock : Nat → Nat → Except Fail (Cmd Slice × Nat)
  | 0, _ => .error .fuel
  | n + 1, ps =>
    let (ps, isBlock) := peek line es ps ['(']
    if !isBlock then .error (.panic "parseblock")
    else do
      let (cmd, ps) ← parseline n (gettoken line es ps).next
      let (ps, closed) := peek line es ps [')']
      if !closed then .error (.panic "syntax - missing )")
      else parseredirs line es (es + 1) cmd (gettoken line es ps).next

def parseexec : Nat → Nat → Except Fail (Cmd Slice × Nat)
  | 0, _ => .error .fuel
  | n + 1, ps =>
    let (ps, isBlock) := peek line es ps ['(']
    if isBlock then parseblock n ps
    else do
      let (ret, ps) ← parseredirs line es (es + 1) (.exec []) ps
      parseargs line es (es + 1) ret 0 ps

end

/-- NUL-terminate all the counted strings. -/
def nulterminate (line : List UInt8) : Cmd Slice → List UInt8
  | .exec argv => argv.foldl (fun line w => line.set w.2 0) line
  | .redir cmd r => (nulterminate line cmd).set r.file.2 0
  | .pipe left right => nulterminate (nulterminate line left) right
  | .list left right => nulterminate (nulterminate line left) right
  | .back cmd => nulterminate line cmd

/-- The tree, and the buffer as it is then. -/
def parsecmd (line : List UInt8) : Except Fail (Cmd Slice × List UInt8) := do
  let es := strlen line
  let (cmd, s) ← parseline line es (4 * es + 4) 0
  let s := (peek line es s []).1
  if s ≠ es then .error (.panic "syntax") else .ok (cmd, nulterminate line cmd)

end Xv6.Sh
