import Xv6.Proc.Table

/-!
# Proc — system calls on processes and threads (`proc.c`, `sysproc.c`)

`fork`, `exit`, `wait`, `thread_create`, `thread_exit`, `thread_join`, `set_cpu_share`, `sbrk`,
`kill`, `sleep` and `yield`, as functions from the kernel before to the kernel after, for the
process in slot `cur`.

A call that waits is one pass of its loop: `wait` and `thread_join` scan the table once, and go
to sleep when they find nothing (the result `none`), to scan again when they are woken.  `exit`
of a process with threads goes round its children without the lock (`exitVisit` is one child) and
ends (`exit`) when it has none left.

What the last `fileclose` of a file or `iput` of an inode does to the disk is not part of this
model; the reference counts are.
-/

namespace Xv6.Kern

open Function (update)

open Vm (Page Mem)

/-! ### References -/

/-- `filedup` of each file of a list. -/
def dupRefs : List Nat → (Nat → Nat) → Except Stop (Nat → Nat)
  | [], r => .ok r
  | f :: fs, r =>
    if r f < 1 then .error (.panic "filedup") else dupRefs fs (update r f (r f + 1))

/-- `fileclose` of each file of a list. -/
def closeRefs : List Nat → (Nat → Nat) → Except Stop (Nat → Nat)
  | [], r => .ok r
  | f :: fs, r =>
    if r f < 1 then .error (.panic "fileclose") else closeRefs fs (update r f (r f - 1))

/-- The open files of a process. -/
def Proc.files (p : Proc) : List Nat := (List.finRange NOFILE).filterMap p.ofile

/-- Copy the open files, current directory and name of `cur` to `np`.  A descriptor that is not
open in `cur` is left as it is in `np`. -/
def copyFiles (k : Kernel) (cur np : Slot) : Except Stop Kernel := do
  let c := k.ptable cur
  let fref ← dupRefs c.files k.fref
  match c.cwd with
  | none => .error .fault
  | some i =>
    .ok { k.set np fun p =>
            { p with ofile := fun fd => (c.ofile fd).or (p.ofile fd), cwd := c.cwd, name := c.name }
          with fref, iref := update k.iref i (k.iref i + 1) }

/-- `iput(curproc->cwd); curproc->cwd = 0` -/
def putCwd (k : Kernel) (cur : Slot) : Except Stop Kernel :=
  match (k.ptable cur).cwd with
  | none => .error .fault
  | some i =>
    .ok { k.set cur ({ · with cwd := none }) with
      iref := update k.iref i (k.iref i - 1) }

/-- `kfree(p->kstack)` -/
def kfreeStack (k : Kernel) (s : Slot) : Except Stop Kernel :=
  match (k.ptable s).kstack with
  | none => .error (.panic "kfree")
  | some p => do
    let m ← Vm.kfree k.mem p
    .ok ((k.setMem m).set s ({ · with kstack := none }))

/-! ### fork -/

/-- `fork` after its `allocproc`.  The child of a process with threads is runnable when
`fork_child` takes `ptable.lock` a second time. -/
def forkFinish (k : Kernel) (cur np : Slot) : Except Stop (Int × Kernel) := do
  let d ← pgdirOf k cur
  match ← Vm.copyuvm k.mem d (k.ptable cur).sz with
  | (none, m) => do
    let k ← kfreeStack ((k.setMem m).set np ({ · with pgdir := none })) np
    .ok (-1, k.set np ({ · with state := .unused }))
  | (some d', m) => do
    let c := k.ptable cur
    let k := (k.setMem m).set np fun p =>
      { p with pgdir := some d', sz := c.sz, parent := some cur, tf := { c.tf with eax := 0 } }
    let k ← copyFiles k cur np
    acquire k
    let k := k.set np ({ · with state := .runnable })
    if c.hasthread then .error (.panic "acquire") else .ok ((k.ptable np).pid, k)

def fork (k : Kernel) (cur : Slot) : Except Stop (Int × Kernel) := do
  match ← allocproc k with
  | (none, k) => .ok (-1, k)
  | (some np, k) => forkFinish k cur np

/-! ### Sleeping -/

/-- `sleep`, up to its `sched`. -/
def sleep (k : Kernel) (cur : Slot) (c : Chan) : Kernel :=
  k.set cur ({ · with chan := some c, state := .sleeping })

/-- `yield`, up to its `sched`. -/
def yield (k : Kernel) (cur : Slot) : Kernel := k.set cur ({ · with state := .runnable })

/-- `kill` -/
def kill (k : Kernel) (pid : Int) : Except Stop (Int × Kernel) := do
  acquire k
  match (List.finRange NPROC).find? fun s => ((k.ptable s).pid : Int) = pid with
  | none => .ok (-1, k)
  | some s => .ok (0, k.set s fun p =>
    { p with killed := true, state := if p.state = .sleeping then .runnable else p.state })

/-! ### wait and thread_join -/

/-- The reaping of `p` by `wait`. -/
def reap (k : Kernel) (s : Slot) : Except Stop Kernel := do
  let k ← kfreeStack k s
  match (k.ptable s).pgdir with
  | none => .error (.panic "freevm: no pgdir")
  | some d => do
    let m ← Vm.freevm k.mem d
    .ok ((k.setMem m).set s
      ({ · with pid := 0, parent := none, name := "", killed := false, state := .unused }))

/-- One scan of `wait`. -/
def wait (k : Kernel) (cur : Slot) : Except Stop (Option Int × Kernel) := do
  acquire k
  match (List.finRange NPROC).find? fun s =>
      (k.ptable s).parent = some cur ∧ (k.ptable s).state = .zombie with
  | some s => do
    let k' ← reap k s
    .ok (some (k.ptable s).pid, k')
  | none =>
    if (k.slots fun p => p.parent = some cur) = [] ∨ (k.ptable cur).killed then
      .ok (some (-1), k)
    else .ok (none, sleep k cur (.proc cur))

/-- `curproc->ex_thread[n] = 0`.  `thread_num` is -1 in a slot that was a joined thread's, and
`ex_thread` stands right after `sz_thread`. -/
def Proc.clearEx (p : Proc) (n : Int) : Except Stop Proc :=
  if h : 0 ≤ n ∧ n < NTHREAD then
    .ok { p with exThread := update p.exThread ⟨n.toNat, by omega⟩ false }
  else if n = -1 then
    .ok { p with szThread := update p.szThread (Fin.last (NTHREAD - 1)) 0 }
  else .error .fault

/-- The reaping of the thread in slot `s` by `thread_join`, without the store through `retval`. -/
def joinReap (k : Kernel) (cur s : Slot) : Except Stop Kernel := do
  let k ← kfreeStack k s
  let k := k.set s ({ · with sz := (k.ptable cur).sz })
  let c ← (k.ptable cur).clearEx (k.ptable s).threadNum
  let k := k.set cur fun _ => c
  .ok (k.set s fun p =>
    { p with
      pid := 0
      parent := none
      name := ""
      killed := false
      state := .unused
      tick := 0
      mlfqLv := .high
      procMode := .mlfq
      cpuShare := 0
      pass := 0
      retVal := 0
      threadNum := -1
      isthread := false
      mother := some initproc })

/-- One scan of `thread_join`: the value of the thread, or `none` when it goes to sleep. -/
def threadJoin (k : Kernel) (cur : Slot) (thread : Int) : Except Stop (Option Nat × Kernel) := do
  acquire k
  match (List.finRange NPROC).find? fun s => (k.ptable s).parent = some cur ∧
      ((k.ptable s).pid : Int) = thread ∧ (k.ptable s).state = .zombie with
  | some s => do
    let k' ← joinReap k cur s
    .ok (some (k.ptable s).retVal, k')
  | none => .ok (none, sleep k cur (.proc cur))

/-! ### exit and thread_exit -/

/-- Pass abandoned children to init. -/
def abandon (k : Kernel) (cur : Slot) : Kernel :=
  let k' := { k with ptable := fun s =>
    let p := k.ptable s
    if p.parent = some cur then { p with parent := some initproc } else p }
  if (k.slots fun p => p.parent = some cur ∧ p.state = .zombie) = [] then k'
  else wakeup1 k' (.proc initproc)

/-- Jump into the scheduler, never to return: the end of `exit` and of `thread_exit`. -/
def die (k : Kernel) (cur : Slot) (retVal : Nat) : Kernel :=
  let k := (abandon k cur).set cur ({ · with state := .zombie, retVal })
  match (k.ptable cur).parent with
  | none => k
  | some q => wakeup1 k (.proc q)

/-- One child in the loop of `exit` of a process with threads, without the lock; `none` when the
join goes to sleep. -/
def exitVisit (k : Kernel) (cur s : Slot) : Except Stop (Option Nat × Kernel) := do
  if cur = initproc then .error (.panic "init exiting")
  else
    let k := k.set cur ({ · with exiting := true })
    let p := k.ptable s
    if p.parent ≠ some cur then .ok (some 0, k)
    else if p.state = .zombie then threadJoin k cur p.pid
    else .ok (some 0, wakeup1 (k.set s ({ · with killed := true })) (.proc s))

/-- A thread that exits asks the process it belongs to to exit, unless it is exiting already. -/
def exitMother (k : Kernel) (cur : Slot) : Except Stop Kernel :=
  if (k.ptable cur).isthread then
    match (k.ptable cur).parent with
    | none => .error .fault
    | some q =>
      if (k.ptable q).exiting then .ok k
      else do
        acquire k
        .ok (k.set q ({ · with killed := true, exiting := true }))
  else .ok k

/-- The share of a Stride process leaves the total. -/
def giveBack (k : Kernel) (cur : Slot) : Kernel :=
  if (k.ptable cur).procMode = .stride then
    { k with cpuShareStride := wrap (k.cpuShareStride - (k.ptable cur).cpuShare) }
  else k

/-- `exit`, when the loop over the children of a process with threads is done. -/
def exit (k : Kernel) (cur : Slot) : Except Stop Kernel := do
  if cur = initproc then .error (.panic "init exiting")
  else
    let k ← exitMother k cur
    let k := giveBack k cur
    let fref ← closeRefs (k.ptable cur).files k.fref
    let k ← putCwd ({ k with fref }.set cur ({ · with ofile := fun _ => none })) cur
    acquire k
    .ok (die k cur (k.ptable cur).retVal)

def threadExit (k : Kernel) (cur : Slot) (retVal : Nat) : Except Stop Kernel := do
  if cur = initproc then .error (.panic "init exiting")
  else
    let k ← putCwd k cur
    acquire k
    .ok (die k cur retVal)

/-! ### thread_create -/

/-- A store by the kernel through a user pointer, a byte at a time. -/
def poke (m : Mem) (d : Page) : Nat → List UInt8 → Except Stop Mem
  | _, [] => .ok m
  | va, b :: bs => do
    let D ← m.dir d
    match D.pte (va / PGSIZE) with
    | some (.user p true _) => poke (m.put p (va % PGSIZE) [b]) d ((va + 1) % 2 ^ 32) bs
    | _ => .error (.panic "trap")

/-- The place of a new thread's stack: the first index that no thread uses. -/
def Proc.freeThread (p : Proc) : Option (Fin NTHREAD) :=
  (List.finRange NTHREAD).find? fun i => p.exThread i = false

/-- Where the three pages of stack `i` begin. -/
def Proc.stackBase (p : Proc) (i : Fin NTHREAD) : Nat :=
  if h : i.val = 0 then p.sz else (p.szThread ⟨i.val - 1, by omega⟩ + PGSIZE) % 2 ^ 32

/-- The top of stack `i`, which is mapped where it never was; `none` where that fails. -/
def stackTop (k : Kernel) (cur : Slot) (d : Page) (i : Fin NTHREAD) :
    Except Stop (Option Nat × Kernel) :=
  let c := k.ptable cur
  if c.szThread i = 0 then do
    acquire k
    let (sz, m) ← Vm.allocuvm k.mem d (c.stackBase i) ((c.stackBase i + 3 * PGSIZE) % 2 ^ 32)
    .ok (if sz = 0 then none else some ((sz + (2 ^ 32 - PGSIZE)) % 2 ^ 32), k.setMem m)
  else .ok (some (c.szThread i), k)

/-- The loop of `thread_create`: give `np` a stack.  Where `allocuvm` fails the source returns
without releasing `ptable.lock` (`false`). -/
def giveStack (k : Kernel) (cur np : Slot) (d : Page) : Except Stop (Bool × Kernel) :=
  match (k.ptable cur).freeThread with
  | none => .ok (true, k)
  | some i => do
    match ← stackTop k cur d i with
    | (none, k) => .ok (false, { k with locked := true })
    | (some top, k) =>
      let k := k.set cur fun p =>
        { p with
          szThread := update p.szThread i top
          exThread := update p.exThread i true }
      .ok (true, k.set np ({ · with sz := top, threadNum := (i.val : Int) }))

/-- `thread_create` after its `allocproc`. -/
def threadFinish (k : Kernel) (cur np : Slot) (thread start arg : Nat) :
    Except Stop (Int × Kernel) := do
  let d ← pgdirOf k cur
  let k := k.set np ({ · with pgdir := some d, tf := (k.ptable cur).tf })
  match ← giveStack k cur np d with
  | (false, k) => .ok (-1, k)
  | (true, k) => do
    let sp := ((k.ptable np).sz + (2 ^ 32 - 16)) % 2 ^ 32
    let ustack := [0xffffffff, arg, 0, arg]
    match ← Vm.copyout k.mem d sp (ustack.flatMap Vm.wordBytes) with
    | (false, m) => .ok (-1, k.setMem m)
    | (true, m) => do
      let m ← poke m d thread (Vm.wordBytes (k.ptable np).pid)
      let k := (k.setMem m).set np fun p =>
        { p with
          tf := ⟨start, sp, 0⟩
          isthread := true
          retVal := 0
          parent := some cur
          mother := some cur }
      let k ← copyFiles k cur np
      acquire k
      .ok (0, k.set np ({ · with state := .runnable }))

/-- The thread table of a process that has had no thread. -/
def Proc.initThreads (p : Proc) : Proc :=
  if p.hasthread then p
  else { p with szThread := fun _ => 0, exThread := fun _ => false, hasthread := true }

def threadCreate (k : Kernel) (cur : Slot) (thread start arg : Nat) :
    Except Stop (Int × Kernel) := do
  let k := k.set cur Proc.initThreads
  match ← allocproc k with
  | (none, k) => .ok (-1, k)
  | (some np, k) => threadFinish k cur np thread start arg

/-! ### set_cpu_share and sbrk -/

def setCpuShare (k : Kernel) (cur : Slot) (i : Int) : Int × Kernel :=
  if i ≤ 0 then (-1, k)
  else
    let p := k.ptable cur
    let pass := k.maxStrideProcPass
    if p.procMode ≠ .stride then
      if 80 < wrap (k.cpuShareStride + i) then (-1, k)
      else
        (0, { k.set cur ({ · with cpuShare := i, procMode := .stride, pass }) with
              cpuShareStride := wrap (k.cpuShareStride + i) })
    else
      if 80 < wrap (k.cpuShareStride + i - p.cpuShare) then (-1, k)
      else
        let k := k.set cur ({ · with cpuShare := i })
        -- the share subtracted is the one just set
        let k := { k with
          cpuShareStride := wrap (k.cpuShareStride + i - (k.ptable cur).cpuShare) }
        (0, k.set cur ({ · with pass }))

/-- `uint` arithmetic with an `int`. -/
def uadd (a : Nat) (n : Int) : Nat := ((a + n) % 2 ^ 32).toNat

def growproc (k : Kernel) (cur : Slot) (n : Int) : Except Stop (Int × Kernel) := do
  let sz := (k.ptable cur).sz
  let d ← pgdirOf k cur
  if 0 < n then do
    let (sz', m) ← Vm.allocuvm k.mem d sz (uadd sz n)
    if sz' = 0 then .ok (-1, k.setMem m)
    else .ok (0, (k.setMem m).set cur ({ · with sz := sz' }))
  else if n < 0 then do
    let (sz', m) ← Vm.deallocuvm k.mem d sz (uadd sz n)
    if sz' = 0 then .ok (-1, k.setMem m)
    else .ok (0, (k.setMem m).set cur ({ · with sz := sz' }))
  else .ok (0, k)

/-- `sys_sbrk`: the size of a thread moves by itself. -/
def sbrk (k : Kernel) (cur : Slot) (n : Int) : Except Stop (Int × Kernel) := do
  let addr := (k.ptable cur).sz
  if (k.ptable cur).isthread then .ok (addr, k.set cur fun p => { p with sz := uadd p.sz n })
  else
    let (r, k) ← growproc k cur n
    .ok (if r < 0 then -1 else addr, k)

end Xv6.Kern
