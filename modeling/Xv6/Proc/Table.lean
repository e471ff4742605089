import Xv6.Vm.Uvm

/-!
# Proc — the process table (`proc.h`, `proc.c`)

The process table, the counters of the two schedulers, and the parts of `proc.c` the system calls
share: `allocproc`, `wakeup1`, and the passing of abandoned children to init.

`initproc` is slot 0, the first that `allocproc` finds.  A field of a slot keeps its value when
the slot is freed, as in the source: `allocproc` resets only some of them.  The fields that only
`find_runnable_thread` and `adjust_thread_state` read, which nothing calls, are left out.

`PASS`, `PASS_MLFQ` and `PASS_Stride` are doubles that only ever hold integers, and are integers
here; where the source converts one to `int` the model does what the instruction does
(`toInt`).  `int` arithmetic wraps (`wrap`).
-/

namespace Xv6.Kern

open Vm (Page Mem)

/-- `enum procstate` -/
inductive State where
  | unused
  | embryo
  | sleeping
  | runnable
  | running
  | zombie
  deriving DecidableEq

/-- `enum MLFQ_level` -/
inductive Level where
  | low
  | mid
  | high
  deriving DecidableEq

/-- `p->MLFQ_lv` as a number. -/
def Level.toNat : Level → Nat
  | .low => 0
  | .mid => 1
  | .high => 2

/-- `enum Proc_mode` -/
inductive Mode where
  | mlfq
  | stride
  deriving DecidableEq

/-- A place in the process table. -/
abbrev Slot := Fin NPROC

/-- A sleep channel: the address of a process, or another one. -/
inductive Chan where
  | proc (s : Slot)
  | other (n : Nat)
  deriving DecidableEq

/-- What the calls modelled here read or set of a trap frame. -/
structure Trapframe where
  eip : Nat
  esp : Nat
  eax : Nat
  deriving DecidableEq

/-- `struct proc` -/
structure Proc where
  /-- Size of process memory (bytes) -/
  sz : Nat
  pgdir : Option Page
  kstack : Option Page
  state : State
  pid : Nat
  parent : Option Slot
  tf : Trapframe
  chan : Option Chan
  killed : Bool
  /-- Open files, by their place in the file table -/
  ofile : Fin NOFILE → Option Nat
  /-- Current directory, by its place in the inode cache -/
  cwd : Option Nat
  name : String
  tick : Int
  mlfqLv : Level
  procMode : Mode
  /-- CPU share for stride scheduling -/
  cpuShare : Int
  /-- cpu time the proc use in stride mode -/
  pass : Int
  szThread : Fin NTHREAD → Nat
  exThread : Fin NTHREAD → Bool
  hasthread : Bool
  threadNum : Int
  isthread : Bool
  retVal : Nat
  exiting : Bool
  mother : Option Slot

/-- A slot of the zeroed table. -/
def Proc.zero : Proc where
  sz := 0
  pgdir := none
  kstack := none
  state := .unused
  pid := 0
  parent := none
  tf := ⟨0, 0, 0⟩
  chan := none
  killed := false
  ofile := fun _ => none
  cwd := none
  name := ""
  tick := 0
  mlfqLv := .low
  procMode := .mlfq
  cpuShare := 0
  pass := 0
  szThread := fun _ => 0
  exThread := fun _ => false
  hasthread := false
  threadNum := 0
  isthread := false
  retVal := 0
  exiting := false
  mother := none

/-- The kernel: the process table, the counters, and what they share. -/
structure Kernel where
  ptable : Slot → Proc
  nextpid : Nat
  /-- `ptable.lock` was not released by a call that has returned -/
  locked : Bool
  /-- Sum of cpu_share of each stride_mode process -/
  cpuShareStride : Int
  passMlfq : Int
  passStride : Int
  /-- maximum pass in all stride processes -/
  maxStrideProcPass : Int
  totalTicksMlfq : Int
  mem : Mem
  /-- `f->ref` of the file table -/
  fref : Nat → Nat
  /-- `ip->ref` of the inode cache -/
  iref : Nat → Nat
  /-- every `freevm`, with the processes that held the directory then; read by no call -/
  freed : List (Page × List Slot)

/-- The first process, set by `userinit`. -/
abbrev initproc : Slot := 0

/-- `int` arithmetic. -/
def wrap (x : Int) : Int := Int.bmod x (2 ^ 32)

/-- The conversion of a double to `int`: out of range, the least one. -/
def toInt (x : Int) : Int := if -2 ^ 31 ≤ x ∧ x < 2 ^ 31 then x else -2 ^ 31

namespace Kernel

/-- Change one process. -/
def set (k : Kernel) (s : Slot) (f : Proc → Proc) : Kernel :=
  { k with ptable := Function.update k.ptable s (f (k.ptable s)) }

/-- Every slot of the table that meets a test, in order. -/
def slots (k : Kernel) (f : Proc → Bool) : List Slot :=
  (List.finRange NPROC).filter fun s => f (k.ptable s)

/-- The processes that have `d` as their page directory and are neither unused nor ended. -/
def holders (k : Kernel) (d : Page) : List Slot :=
  k.slots fun p => p.pgdir = some d ∧ p.state ≠ .unused ∧ p.state ≠ .zombie

/-- Memory after a function of `vm.c` has run; its calls of `freevm` are recorded with the
holders of the moment. -/
def setMem (k : Kernel) (m : Mem) : Kernel :=
  let new := m.history.take (m.history.length - k.mem.history.length)
  let frees := new.reverse.filterMap fun
    | .freed d => some (d, k.holders d)
    | .made _ => none
  { k with mem := m, freed := k.freed ++ frees }

@[simp] theorem set_ptable (k : Kernel) (s : Slot) (f : Proc → Proc) :
    (k.set s f).ptable = Function.update k.ptable s (f (k.ptable s)) := rfl

@[simp] theorem setMem_ptable (k : Kernel) (m : Mem) : (k.setMem m).ptable = k.ptable := rfl

end Kernel

/-- `acquire(&ptable.lock)`: it panics, or never returns on another CPU, when a call has left the
lock held. -/
def acquire (k : Kernel) : Except Stop Unit :=
  if k.locked then .error (.panic "acquire") else .ok ()

/-- `wakeup1`: everybody sleeping on the channel becomes runnable. -/
def wakeup1 (k : Kernel) (c : Chan) : Kernel :=
  { k with ptable := fun s =>
      let p := k.ptable s
      if p.state = .sleeping ∧ p.chan = some c then { p with state := .runnable } else p }

/-- A new process in the table: what `allocproc` sets under the lock. -/
def Proc.embryo (p : Proc) (pid : Nat) : Proc :=
  { p with
    state := .embryo
    pid
    tick := 0
    mlfqLv := .high
    procMode := .mlfq
    cpuShare := 0
    pass := 0
    hasthread := false
    isthread := false
    exiting := false }

/-- `allocproc` -/
def allocproc (k : Kernel) : Except Stop (Option Slot × Kernel) := do
  acquire k
  match (List.finRange NPROC).find? fun s => (k.ptable s).state = .unused with
  | none => .ok (none, k)
  | some s =>
    let k := { k.set s (·.embryo k.nextpid) with nextpid := k.nextpid + 1 }
    match Vm.kalloc k.mem with
    | (none, _) => .ok (none, k.set s ({ · with kstack := none, state := .unused }))
    | (some p, m) => .ok (some s, (k.setMem m).set s ({ · with kstack := some p }))

/-- The directory of a process, as a pointer to follow. -/
def pgdirOf (k : Kernel) (s : Slot) : Except Stop Page :=
  match (k.ptable s).pgdir with
  | some d => .ok d
  | none => .error .fault

end Xv6.Kern
