import Xv6.Support.Machine
import Mathlib

/-!
# Console — console input (`console.c`)

The ring `input` with its read, write and edit indices, the interrupt side `consoleintr` that edits
the line and commits it, and any number of processes in `consoleread`.  A batch of characters is
handled under `cons.lock` as a whole; a `consoleread` runs from an `acquire` of the lock, at its
beginning or on its way out of `sleep`, to the next `sleep` or to its return.  The states are those
in which the lock is free.

`committed` are all the bytes that were ever committed: each time `input.w` is moved, those between
the old and the new index.  `taken` are the bytes that were ever read from the ring, each with its
reader; a `^D` that is put back is not among them.
-/

namespace Xv6.Console

abbrev INPUT_BUF : Nat := 128

/-- `C(x)`: Control-x -/
def C (x : Char) : UInt8 := x.toNat.toUInt8 - '@'.toNat.toUInt8

/-- `'\n'` -/
abbrev NL : UInt8 := 10

/-- `'\r'` -/
abbrev CR : UInt8 := 13

/-- `'\x7f'` -/
abbrev DEL : UInt8 := 0x7f

structure Input where
  buf : Nat → UInt8
  /-- Read index -/
  r : UInt32
  /-- Write index -/
  w : UInt32
  /-- Edit index -/
  e : UInt32

/-- `input.buf[i % INPUT_BUF]` -/
def Input.cell (t : Input) (i : UInt32) : UInt8 := t.buf (i.toNat % INPUT_BUF)

/-- The bytes at the indices from `a` on and before `b`. -/
def Input.slice (t : Input) (a b : UInt32) : List UInt8 :=
  (List.range (b - a).toNat).map fun k => t.cell (a + UInt32.ofNat k)

/-- Where a process is. -/
inductive Pc where
  | idle
  /-- in `consoleread`: the number of bytes asked for, the number still to come, those it has -/
  | reading (target n : Nat) (dst : List UInt8)
  /-- `consoleread` has returned, -1 or the number of bytes that it has stored -/
  | done (dst : Option (List UInt8))
  deriving DecidableEq

/-- The console and the processes. -/
structure System (P : Type) where
  input : Input
  pc : P → Pc
  /-- SLEEPING on `&input.r` -/
  sleeping : P → Bool
  killed : P → Bool
  committed : List UInt8
  taken : List (P × UInt8)

variable {P : Type}

/-- Before the first character. -/
def System.init (killed : P → Bool) : System P where
  input := ⟨fun _ => 0, 0, 0, 0⟩
  pc := fun _ => .idle
  sleeping := fun _ => false
  killed := killed
  committed := []
  taken := []

/-! ### `consoleintr` -/

/-- Kill line: the loop steps back at most to `input.w`. -/
def Input.killLine (t : Input) : Nat → Input
  | 0 => t
  | k + 1 =>
    if t.e ≠ t.w ∧ t.cell (t.e - 1) ≠ NL then Input.killLine { t with e := t.e - 1 } k else t

/-- `input.buf[input.e++ % INPUT_BUF] = c` -/
def Input.put (t : Input) (c : UInt8) : Input :=
  { t with buf := Function.update t.buf (t.e.toNat % INPUT_BUF) c, e := t.e + 1 }

/-- `input.w = input.e; wakeup(&input.r)` -/
def System.commit (s : System P) : System P :=
  { s with
    input := { s.input with w := s.input.e }
    sleeping := fun _ => false
    committed := s.committed ++ s.input.slice s.input.w s.input.e }

/-- One character. -/
def System.key (s : System P) (c : UInt8) : System P :=
  if c = C 'P' then s
  else if c = C 'U' then
    { s with input := s.input.killLine (s.input.e - s.input.w).toNat }
  else if c = C 'H' ∨ c = DEL then
    if s.input.e ≠ s.input.w then { s with input := { s.input with e := s.input.e - 1 } } else s
  else if c ≠ 0 ∧ s.input.e - s.input.r < UInt32.ofNat INPUT_BUF then
    let c := if c = CR then NL else c
    let s := { s with input := s.input.put c }
    if c = NL ∨ c = C 'D' ∨ s.input.e = s.input.r + UInt32.ofNat INPUT_BUF then s.commit else s
  else s

/-- A batch: what `getc` gives, up to its first negative value. -/
def System.consoleintr (s : System P) (cs : List UInt8) : System P := cs.foldl System.key s

/-! ### `consoleread` -/

variable [DecidableEq P]

def System.goto (s : System P) (p : P) (pc : Pc) : System P :=
  { s with pc := Function.update s.pc p pc }

/-- `c = input.buf[input.r++ % INPUT_BUF]` -/
def System.take (s : System P) (p : P) : System P :=
  { s with
    input := { s.input with r := s.input.r + 1 }
    taken := s.taken ++ [(p, s.input.cell s.input.r)] }

/-- `input.r--`: the byte just read is put back. -/
def System.putBack (s : System P) : System P :=
  { s with
    input := { s.input with r := s.input.r - 1 }
    taken := s.taken.dropLast }

/-- `sleep(&input.r, &cons.lock)`, up to where it gives up the processor. -/
def System.sleep (s : System P) (p : P) : System P :=
  { s with sleeping := Function.update s.sleeping p true }

/-- `consoleread` with the lock, from the test of the outer loop on; `n` bytes are still to come. -/
def System.consoleread (s : System P) (p : P) (target : Nat) (dst : List UInt8) :
    Nat → System P
  | 0 => s.goto p (.done (some dst))
  | n + 1 =>
    if s.input.r = s.input.w then
      if s.killed p then s.goto p (.done none)
      else (s.sleep p).goto p (.reading target (n + 1) dst)
    else
      let c := s.input.cell s.input.r
      if c = C 'D' then
        -- the mark is put back, to make sure the caller gets a 0-byte result next time
        if n + 1 < target then (s.take p).putBack.goto p (.done (some dst))
        else (s.take p).goto p (.done (some dst))
      else if c = NL then (s.take p).goto p (.done (some (dst ++ [c])))
      else (s.take p).consoleread p target (dst ++ [c]) n

/-! ### Runs -/

inductive Act (P : Type) where
  /-- an interrupt, with the characters it brings -/
  | intr (cs : List UInt8)
  /-- the process calls `consoleread` for `n` bytes -/
  | call (p : P) (n : Int)
  /-- it acquires the lock and runs -/
  | run (p : P)
  | kill (p : P)

/-- One step.  A negative `n` ends the outer loop at once, as 0 does. -/
def System.step (s : System P) : Act P → Option (System P)
  | .intr cs => some (s.consoleintr cs)
  | .call p n =>
    match s.pc p with
    | .reading .. => none
    | _ => some (s.goto p (.reading n.toNat n.toNat []))
  | .run p =>
    match s.pc p with
    | .reading target n dst =>
      if s.sleeping p then none else some (s.consoleread p target dst n)
    | _ => none
  | .kill p =>
    some { s with
      killed := Function.update s.killed p true
      sleeping := Function.update s.sleeping p false }

/-- A run of the console. -/
def ConsoleRun (s : System P) : Prop :=
  ∃ killed, Support.Run (fun s a s' => System.step s a = some s') (fun _ _ => True) (.init killed) s

end Xv6.Console
