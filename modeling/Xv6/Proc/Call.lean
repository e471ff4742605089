import Xv6.Proc.Exec
import Xv6.Support.Result

/-!
# Proc — system calls

A system call by the process in a slot (`call`), and how it leaves the process: on its CPU, in the
scheduler for a while, or for good (`Outcome`).  The schedulers read of a process its state, its
`MLFQ` and its `Stride` fields (`View`), and keep some counters (`Counters`).
-/

namespace Xv6.Kern

open Support (bind_ok)
open Vm (File)

/-- What the schedulers read of a process. -/
structure View where
  state : State
  tick : Int
  mlfqLv : Level
  procMode : Mode
  cpuShare : Int
  pass : Int
  deriving DecidableEq

def Proc.view (p : Proc) : View := ⟨p.state, p.tick, p.mlfqLv, p.procMode, p.cpuShare, p.pass⟩

/-- What `allocproc` gives a process. -/
def View.fresh (st : State) : View := ⟨st, 0, .high, .mlfq, 0, 0⟩

/-- The counters of the schedulers. -/
structure Counters where
  cpuShareStride : Int
  passMlfq : Int
  passStride : Int
  maxStrideProcPass : Int
  totalTicksMlfq : Int
  deriving DecidableEq

def Kernel.counters (k : Kernel) : Counters :=
  ⟨k.cpuShareStride, k.passMlfq, k.passStride, k.maxStrideProcPass, k.totalTicksMlfq⟩

/-! ### Calls -/

/-- A system call with its arguments. -/
inductive Call where
  | fork
  | exit
  | exitVisit (s : Slot)
  | wait
  | threadCreate (thread start arg : Nat)
  | threadExit (retVal : Nat)
  | threadJoin (thread : BitVec 32) (retval : Nat)
  | setCpuShare (i : BitVec 32)
  | sbrk (n : BitVec 32)
  | exec (path : String) (file : Option File) (argv : List (List UInt8))
  | kill (pid : BitVec 32)
  | sleep (n : Nat)
  | wakeup (n : Nat)
  | yield

/-- `thread_join` with its store through `retval`. -/
def joinCall (k : Kernel) (cur : Slot) (thread : Int) (retval : Nat) :
    Except Stop (Option Nat × Kernel) := do
  match ← threadJoin k cur thread with
  | (none, k) => .ok (none, k)
  | (some v, k) => do
    let d ← pgdirOf k cur
    let m ← poke k.mem d retval (Vm.wordBytes v)
    .ok (some v, k.setMem m)

/-- How a call leaves its caller: on its CPU, in the scheduler for a while, or for good. -/
inductive Outcome where
  | stays
  | leaves
  | ends
  deriving DecidableEq

/-- A call that sleeps has no result yet. -/
def Outcome.ofResult {α : Type} : Option α → Outcome
  | none => .leaves
  | some _ => .stays

/-- A call by the process in slot `cur`; its result goes to the process. -/
def call (k : Kernel) (cur : Slot) : Call → Except Stop (Outcome × Kernel)
  | .fork => do
    let (_, k) ← fork k cur
    .ok (.stays, k)
  | .exit => do
    let k ← exit k cur
    .ok (.ends, k)
  | .exitVisit s => do
    let (r, k) ← exitVisit k cur s
    .ok (.ofResult r, k)
  | .wait => do
    let (r, k) ← wait k cur
    .ok (.ofResult r, k)
  | .threadCreate thread start arg => do
    let (_, k) ← threadCreate k cur thread start arg
    .ok (.stays, k)
  | .threadExit v => do
    let k ← threadExit k cur v
    .ok (.ends, k)
  | .threadJoin t retval => do
    let (r, k) ← joinCall k cur t.toInt retval
    .ok (.ofResult r, k)
  | .setCpuShare i => .ok (.stays, (setCpuShare k cur i.toInt).2)
  | .sbrk n => do
    let (_, k) ← sbrk k cur n.toInt
    .ok (.stays, k)
  | .exec path file argv => do
    let (_, k) ← exec k cur path file argv
    .ok (.stays, k)
  | .kill pid => do
    let (_, k) ← kill k pid.toInt
    .ok (.stays, k)
  | .sleep n => do
    acquire k
    .ok (.leaves, sleep k cur (.other n))
  | .wakeup n => do
    acquire k
    .ok (.stays, wakeup1 k (.other n))
  | .yield => do
    acquire k
    .ok (.leaves, yield k cur)

/-- What a call does to the state of the process that makes it. -/
inductive OwnState : Outcome → State → State → Prop where
  | same (st : State) : OwnState .stays st st
  | wake : OwnState .stays .sleeping .runnable
  | leave (st : State) {st' : State} (h : st' = .sleeping ∨ st' = .runnable) :
      OwnState .leaves st st'
  | die (st : State) : OwnState .ends st .zombie

/-- A process that can make a call. -/
def Live (k : Kernel) (s : Slot) : Prop :=
  (k.ptable s).state ≠ .unused ∧ (k.ptable s).state ≠ .zombie

/-- The counters a call starts from: `exit` first gives its share back. -/
def Call.start (k : Kernel) (cur : Slot) : Call → Kernel
  | .exit => giveBack k cur
  | _ => k

theorem acquire_ok {k : Kernel} {u : Unit} (h : acquire k = .ok u) : k.locked = false := by
  rw [acquire] at h
  split at h
  · cases h
  · rename_i hl
    exact Bool.eq_false_iff.mpr hl

section

variable {k k' : Kernel} {cur s : Slot}

theorem kfreeStack_ok (h : kfreeStack k s = .ok k') : ∃ p m, (k.ptable s).kstack = some p ∧
    Vm.kfree k.mem p = .ok m ∧ k' = (k.setMem m).set s ({ · with kstack := none }) := by
  rw [kfreeStack] at h
  split at h
  · cases h
  · rename_i p hp
    obtain ⟨m, hm, h⟩ := bind_ok.mp h
    cases h
    exact ⟨p, m, hp, hm, rfl⟩

theorem exit_ok (h : exit k cur = .ok k') : cur ≠ initproc ∧ ∃ k₁ fref k₂,
    exitMother k cur = .ok k₁ ∧
    closeRefs ((giveBack k₁ cur).ptable cur).files (giveBack k₁ cur).fref = .ok fref ∧
    putCwd ({ giveBack k₁ cur with fref }.set cur ({ · with ofile := fun _ => none })) cur = .ok k₂ ∧
    k' = die k₂ cur (k₂.ptable cur).retVal := by
  rw [exit] at h
  split at h
  · cases h
  rename_i hinit
  obtain ⟨k₁, h₁, h⟩ := bind_ok.mp h
  obtain ⟨fref, hr, h⟩ := bind_ok.mp h
  obtain ⟨k₂, h₂, h⟩ := bind_ok.mp h
  obtain ⟨-, -, h⟩ := bind_ok.mp h
  cases h
  exact ⟨hinit, k₁, fref, k₂, h₁, hr, h₂, rfl⟩

theorem threadExit_ok {v : Nat} (h : threadExit k cur v = .ok k') :
    cur ≠ initproc ∧ ∃ k₁, putCwd k cur = .ok k₁ ∧ k' = die k₁ cur v := by
  rw [threadExit] at h
  split at h
  · cases h
  rename_i hinit
  obtain ⟨k₁, h₁, h⟩ := bind_ok.mp h
  obtain ⟨-, -, h⟩ := bind_ok.mp h
  cases h
  exact ⟨hinit, k₁, h₁, rfl⟩

end

@[simp] theorem giveBack_ptable (k : Kernel) (cur : Slot) : (giveBack k cur).ptable = k.ptable := by
  rw [giveBack]
  split <;> rfl

end Xv6.Kern
