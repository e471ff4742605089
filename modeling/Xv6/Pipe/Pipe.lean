import Xv6.Param
import Xv6.Support.Machine

/-!
# Pipe — pipes (`pipe.c`)

One pipe, and any number of processes that read from it, write to it and close its ends.  A process
is at a point `Pc` of one of the three functions, and a step takes it to the next point: what it does
between two points touches the pipe only while it has `p->lock`, or the process table while it has
`ptable.lock`.  `kill` may come between any two steps.

`sleep` takes two steps.  In the first it acquires `ptable.lock` and releases `p->lock`; in the second
the process is marked SLEEPING, and `sched` lets `ptable.lock` go.  A process that `wakeup` or `kill`
has made RUNNABLE goes on by acquiring `p->lock`.

`stored` and `got` are all the bytes that were ever put in the pipe and taken from it.  The byte that
a writer stores is the one it finds at `addr[i]` at that moment, which the program may have changed
during the call.  When both ends are closed the pipe is freed, and nobody acquires its lock any more.
-/

namespace Xv6.Pipe

open Function (update)

abbrev PIPESIZE : Nat := 512

/-- `struct pipe`, without its lock. -/
structure Pipe where
  data : Nat → UInt8
  /-- number of bytes read -/
  nread : UInt32
  /-- number of bytes written -/
  nwrite : UInt32
  /-- read fd is still open -/
  readopen : Bool
  /-- write fd is still open -/
  writeopen : Bool

/-- The channels `&p->nread` and `&p->nwrite`. -/
inductive Chan where
  | nread
  | nwrite
  deriving DecidableEq

/-- Where a process is. -/
inductive Pc where
  | idle
  /-- `pipewrite(p, addr, n)`: at `acquire` -/
  | write (n : Int)
  /-- at the tests of the two loops -/
  | writeLoop (n : Int) (i : Nat)
  /-- the pipe is full: at `wakeup(&p->nread)` -/
  | writeFull (n : Int) (i : Nat)
  /-- at `sleep(&p->nwrite, &p->lock)` -/
  | writeSleep (n : Int) (i : Nat)
  /-- in `sleep`, without `p->lock` -/
  | writeSlept (n : Int) (i : Nat)
  /-- at the last `wakeup(&p->nread)` -/
  | writeWake (n : Int)
  /-- at `release` and `return n` -/
  | writeDone (n : Int)
  /-- `piperead(p, addr, n)`: at `acquire` -/
  | read (n : Int)
  /-- at the test of the first loop -/
  | readWait (n : Int)
  /-- at `sleep(&p->nread, &p->lock)` -/
  | readSleep (n : Int)
  /-- in `sleep`, without `p->lock` -/
  | readSlept (n : Int)
  /-- at the tests of the second loop -/
  | readLoop (n : Int) (i : Nat)
  /-- at `wakeup(&p->nwrite)` -/
  | readWake (n : Int) (i : Nat)
  /-- at `release` and `return i` -/
  | readDone (n : Int) (i : Nat)
  /-- `pipeclose(p, writable)`: at `acquire` -/
  | close (writable : Bool)
  /-- at the assignment -/
  | closeEnd (writable : Bool)
  /-- at `wakeup` -/
  | closeWake (writable : Bool)
  /-- at the last test -/
  | closeDone
  deriving DecidableEq

/-- The pipe and the processes. -/
structure System (P : Type) where
  pipe : Pipe
  /-- `p->lock` -/
  lock : Option P
  /-- `ptable.lock`, while a process is on its way to sleep -/
  ptable : Option P
  pc : P → Pc
  /-- the channel of a process that is SLEEPING -/
  sleeping : P → Option Chan
  killed : P → Bool
  freed : Bool
  stored : List UInt8
  got : List UInt8

variable {P : Type} [DecidableEq P]

/-- A new pipe, as `pipealloc` makes it in a page that holds anything. -/
def System.init (data : Nat → UInt8) (killed : P → Bool) : System P where
  pipe := ⟨data, 0, 0, true, true⟩
  lock := none
  ptable := none
  pc := fun _ => .idle
  sleeping := fun _ => none
  killed := killed
  freed := false
  stored := []
  got := []

/-- The process goes on to `pc`. -/
def System.goto (s : System P) (p : P) (pc : Pc) : System P :=
  { s with pc := update s.pc p pc }

/-- `acquire(&p->lock)` -/
def System.acquire (s : System P) (p : P) (pc : Pc) : Option (System P) :=
  if s.lock = none ∧ s.freed = false then some ({ s with lock := some p }.goto p pc) else none

/-- `release(&p->lock)` -/
def System.release (s : System P) (p : P) : System P := { s with lock := none }.goto p .idle

/-- `wakeup` -/
def System.wakeup (s : System P) (c : Chan) (p : P) (pc : Pc) : Option (System P) :=
  if s.ptable = none then
    some ({ s with sleeping := fun q => if s.sleeping q = some c then none else s.sleeping q }.goto
      p pc)
  else none

/-- `sleep`, up to the release of `p->lock`. -/
def System.sleep (s : System P) (p : P) (pc : Pc) : Option (System P) :=
  if s.ptable = none then some ({ s with ptable := some p, lock := none }.goto p pc) else none

/-- A process in `sleep`: it is marked SLEEPING, or it has been woken and goes on. -/
def System.slept (s : System P) (c : Chan) (p : P) (pc : Pc) : Option (System P) :=
  if s.ptable = some p then
    some { s with sleeping := update s.sleeping p (some c), ptable := none }
  else if s.sleeping p = none then s.acquire p pc
  else none

/-- `p->nwrite == p->nread + PIPESIZE` -/
def Pipe.Full (p : Pipe) : Prop := p.nwrite = p.nread + UInt32.ofNat PIPESIZE

/-- `p->nread == p->nwrite` -/
def Pipe.Empty (p : Pipe) : Prop := p.nread = p.nwrite

instance (p : Pipe) : Decidable p.Full := inferInstanceAs (Decidable (_ = _))

instance (p : Pipe) : Decidable p.Empty := inferInstanceAs (Decidable (_ = _))

/-- `p->data[p->nwrite++ % PIPESIZE] = b` -/
def System.put (s : System P) (b : UInt8) : System P :=
  { s with
    pipe := { s.pipe with
      data := update s.pipe.data (s.pipe.nwrite.toNat % PIPESIZE) b
      nwrite := s.pipe.nwrite + 1 }
    stored := s.stored ++ [b] }

/-- `addr[i] = p->data[p->nread++ % PIPESIZE]` -/
def System.take (s : System P) : System P :=
  { s with
    pipe := { s.pipe with nread := s.pipe.nread + 1 }
    got := s.got ++ [s.pipe.data (s.pipe.nread.toNat % PIPESIZE)] }

/-- `p->writeopen = 0` or `p->readopen = 0` -/
def System.shut (s : System P) (writable : Bool) : System P :=
  { s with pipe :=
    if writable then { s.pipe with writeopen := false } else { s.pipe with readopen := false } }

/-- A step of process `p`; `b` is the byte at `addr[i]`. -/
def System.run (s : System P) (p : P) (b : UInt8) : Option (System P) :=
  match s.pc p with
  | .idle => none
  | .write n => s.acquire p (.writeLoop n 0)
  | .writeLoop n i =>
    if (i : Int) < n then
      if s.pipe.Full then
        if s.pipe.readopen = false ∨ s.killed p then some (s.release p)
        else some (s.goto p (.writeFull n i))
      else some ((s.put b).goto p (.writeLoop n (i + 1)))
    else some (s.goto p (.writeWake n))
  | .writeFull n i => s.wakeup .nread p (.writeSleep n i)
  | .writeSleep n i => s.sleep p (.writeSlept n i)
  | .writeSlept n i => s.slept .nwrite p (.writeLoop n i)
  | .writeWake n => s.wakeup .nread p (.writeDone n)
  | .writeDone _ => some (s.release p)
  | .read n => s.acquire p (.readWait n)
  | .readWait n =>
    if s.pipe.Empty ∧ s.pipe.writeopen then
      if s.killed p then some (s.release p) else some (s.goto p (.readSleep n))
    else some (s.goto p (.readLoop n 0))
  | .readSleep n => s.sleep p (.readSlept n)
  | .readSlept n => s.slept .nread p (.readWait n)
  | .readLoop n i =>
    if (i : Int) < n ∧ ¬ s.pipe.Empty then some (s.take.goto p (.readLoop n (i + 1)))
    else some (s.goto p (.readWake n i))
  | .readWake n i => s.wakeup .nwrite p (.readDone n i)
  | .readDone _ _ => some (s.release p)
  | .close w => s.acquire p (.closeEnd w)
  | .closeEnd w => some ((s.shut w).goto p (.closeWake w))
  | .closeWake w => s.wakeup (if w then .nread else .nwrite) p .closeDone
  | .closeDone =>
    some { s.release p with freed := !s.pipe.readopen && !s.pipe.writeopen }

/-- The three functions. -/
inductive Call where
  | pipewrite (n : Int)
  | piperead (n : Int)
  | pipeclose (writable : Bool)

def Call.start : Call → Pc
  | .pipewrite n => .write n
  | .piperead n => .read n
  | .pipeclose w => .close w

inductive Act (P : Type) where
  | call (p : P) (c : Call)
  | run (p : P) (b : UInt8)
  | kill (p : P)

/-- One step. -/
def System.step (s : System P) : Act P → Option (System P)
  | .call p c => if s.pc p = .idle then some (s.goto p c.start) else none
  | .run p b => s.run p b
  | .kill p =>
    if s.ptable = none then
      some { s with
        killed := update s.killed p true
        sleeping := update s.sleeping p none }
    else none

/-- A run of the processes on a new pipe. -/
def PipeRun (G : System P → Act P → Prop) (s : System P) : Prop :=
  ∃ data killed, Support.Run (fun s a s' => System.step s a = some s') G (.init data killed) s

end Xv6.Pipe
