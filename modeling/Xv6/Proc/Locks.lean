import Xv6.Proc.System
import Xv6.Support.Paths
import Xv6.Vm.Supply

/-!
# Proc — `ptable.lock`

The system calls of `proc.c` once more, as paths that take and release `ptable.lock` where the source
does, step by step on any number of CPUs.  What happens between two calls of the lock is one action,
that of `Proc/Calls`; there a call is one step, and here other CPUs and the timer come between.

`wait` and `thread_join` come back from the scheduler at the head of their loop (`waitLoop`,
`joinLoop`), and so does the loop of `exit` over the children.
-/

namespace Xv6.Kern

open Support (Path Code Cpus Move Run)
open Vm (Page)

/-- The actions on which the discipline of the lock depends, and all others. -/
inductive Tag where
  | plain
  /-- `yield`, by the timer, of the process in a slot -/
  | timer (cur : Slot)
  /-- `if(curproc-> hasthread == 1)` in `fork` -/
  | forkTest (cur : Slot)
  /-- `allocuvm(pgdir, sz, sz + 3*PGSIZE)` in `thread_create` -/
  | stack (d : Page) (sz : Nat)

/-- Where a path can go on. -/
inductive Point where
  | fork (cur : Slot)
  | threadCreate (cur : Slot) (thread start arg : Nat)
  | threadJoin (cur : Slot) (thread : Int) (retval : Nat)
  | joinLoop (cur : Slot) (thread : Int) (retval : Nat)
  | threadExit (cur : Slot) (retVal : Nat)
  | wait (cur : Slot)
  | waitLoop (cur : Slot)
  | exit (cur : Slot)
  /-- the children in the slots that are left -/
  | exitScan (cur : Slot) (rest : List Slot)
  /-- `thread_join` of a child by `exit` -/
  | exitJoin (cur : Slot) (pid : Nat) (rest : List Slot)
  /-- after the loop over the children -/
  | exitRest (cur : Slot)
  | kill (pid : Int)
  | killLwpgroup (pid : Nat) (np : Slot)
  | forkret

abbrev KPath := Path Tag Point Stop Kernel

namespace KPath

open Support.Path (perform lock unlock)

/-- An action that only changes the kernel. -/
def change (f : Kernel → Kernel) : KPath Unit := perform .plain fun k => .ok ((), f k)

/-- An action that only reads the kernel. -/
def read {α : Type} (f : Kernel → α) : KPath α := perform .plain fun k => .ok (f k, k)

def allocproc : KPath (Option Slot) := do
  lock
  let o ← perform .plain fun k =>
    match (List.finRange NPROC).find? fun s => (k.ptable s).state = .unused with
    | none => .ok (none, k)
    | some s => .ok (some s, { k.set s (·.embryo k.nextpid) with nextpid := k.nextpid + 1 })
  unlock
  match o with
  | none => pure none
  | some s => perform .plain fun k =>
    match Vm.kalloc k.mem with
    | (none, _) => .ok (none, k.set s ({ · with kstack := none, state := .unused }))
    | (some p, m) => .ok (some s, (k.setMem m).set s ({ · with kstack := some p }))

/-! ### fork -/

/-- What `fork` copies to the child before it takes the lock; `none` without memory. -/
def forkCopy (k : Kernel) (cur np : Slot) : Except Stop (Option Nat × Kernel) := do
  let d ← pgdirOf k cur
  match ← Vm.copyuvm k.mem d (k.ptable cur).sz with
  | (none, m) => do
    let k ← kfreeStack ((k.setMem m).set np ({ · with pgdir := none })) np
    .ok (none, k.set np ({ · with state := .unused }))
  | (some d', m) => do
    let c := k.ptable cur
    let k := (k.setMem m).set np fun p =>
      { p with pgdir := some d', sz := c.sz, parent := some cur, tf := { c.tf with eax := 0 } }
    let k ← copyFiles k cur np
    .ok (some (k.ptable np).pid, k)

/-- `fork_child`, up to its first `allocproc`.  The loop before it follows pointers that were never
set; the loop after it would copy from them. -/
def forkChild (old : Slot) : KPath Int := do
  let cnt ← read fun k => (k.slots fun p => p.parent = some old).length
  if cnt = 0 then pure 0
  else
    match ← allocproc with
    | none => pure (-1)
    | some _ => .stop .fault

/-- The end of `fork`: a failure of `fork_child` is returned with the lock. -/
def forkEnd (cur np : Slot) (pid : Nat) : KPath Int := do
  lock
  change fun k => k.set np ({ · with state := .runnable })
  let hasthread ← perform (.forkTest cur) fun k => .ok ((k.ptable cur).hasthread, k)
  let r ← if hasthread then forkChild cur else pure 0
  if r = -1 then pure (-1)
  else do
    unlock
    pure pid

def fork (cur : Slot) : KPath Int := do
  match ← allocproc with
  | none => pure (-1)
  | some np => do
    match ← perform .plain fun k => forkCopy k cur np with
    | none => pure (-1)
    | some pid => forkEnd cur np pid

/-! ### thread_create -/

/-- `sz = allocuvm(pgdir, sz, sz + 3*PGSIZE)` -/
def stackAlloc (d : Page) (sz : Nat) (k : Kernel) : Except Stop (Nat × Kernel) := do
  let (r, m) ← Vm.allocuvm k.mem d sz ((sz + 3 * PGSIZE) % 2 ^ 32)
  .ok (r, k.setMem m)

/-- `sz = sz - PGSIZE` -/
def topOf (r : Nat) : Nat := (r + (2 ^ 32 - PGSIZE)) % 2 ^ 32

/-- The top of a stack that was given before at `sz`, or of a new one at `base`; without memory for
it the path goes on with the lock. -/
def stackTop (d : Page) (sz base : Nat) : KPath (Option Nat) :=
  if sz = 0 then do
    lock
    let r ← perform (.stack d base) (stackAlloc d base)
    if r = 0 then pure none
    else do
      unlock
      pure (some (topOf r))
  else pure (some sz)

/-- The stack `thread_create` finds, the top it was given before, and where a new one begins. -/
def stackFound (cur : Slot) (k : Kernel) : Option (Fin NTHREAD × Nat × Nat) :=
  (k.ptable cur).freeThread.map fun i => (i, (k.ptable cur).szThread i, (k.ptable cur).stackBase i)

/-- The stack goes to the new thread. -/
def takeStack (cur np : Slot) (i : Fin NTHREAD) (top : Nat) (k : Kernel) : Kernel :=
  (k.set cur fun p =>
    { p with
      szThread := Function.update p.szThread i top
      exThread := Function.update p.exThread i true }).set np
    ({ · with sz := top, threadNum := (i.val : Int) })

def giveStack (cur np : Slot) (d : Page) : KPath Bool := do
  match ← read (stackFound cur) with
  | none => pure true
  | some (i, sz, base) => do
    match ← stackTop d sz base with
    | none => pure false
    | some top => do
      change (takeStack cur np i top)
      pure true

/-- What `thread_create` does for a thread with a stack before it takes the lock; `false` where the
stack cannot be written to. -/
def threadSetup (k : Kernel) (cur np : Slot) (d : Page) (thread start arg : Nat) :
    Except Stop (Bool × Kernel) := do
  let sp := ((k.ptable np).sz + (2 ^ 32 - 16)) % 2 ^ 32
  let ustack := [0xffffffff, arg, 0, arg]
  match ← Vm.copyout k.mem d sp (ustack.flatMap Vm.wordBytes) with
  | (false, m) => .ok (false, k.setMem m)
  | (true, m) => do
    let m ← poke m d thread (Vm.wordBytes (k.ptable np).pid)
    let k := (k.setMem m).set np fun p =>
      { p with
        tf := ⟨start, sp, 0⟩
        isthread := true
        retVal := 0
        parent := some cur
        mother := some cur }
    let k ← copyFiles k cur np
    .ok (true, k)

def threadCreate (cur : Slot) (thread start arg : Nat) : KPath Int := do
  change fun k => k.set cur Proc.initThreads
  match ← allocproc with
  | none => pure (-1)
  | some np => do
    let d ← perform .plain fun k => do
      let d ← pgdirOf k cur
      .ok (d, k.set np ({ · with pgdir := some d, tf := (k.ptable cur).tf }))
    match ← giveStack cur np d with
    | false => pure (-1)
    | true => do
      match ← perform .plain fun k => threadSetup k cur np d thread start arg with
      | false => pure (-1)
      | true => do
        lock
        change fun k => k.set np ({ · with state := .runnable })
        unlock
        pure 0

/-! ### wait and thread_join -/

/-- One scan of `wait`. -/
def waitScan (k : Kernel) (cur : Slot) : Except Stop (Option Int × Kernel) :=
  match (List.finRange NPROC).find? fun s =>
      (k.ptable s).parent = some cur ∧ (k.ptable s).state = .zombie with
  | some s => do
    let k' ← reap k s
    .ok (some ((k.ptable s).pid : Int), k')
  | none =>
    if (k.slots fun p => p.parent = some cur) = [] ∨ (k.ptable cur).killed then
      .ok (some (-1), k)
    else .ok (none, sleep k cur (.proc cur))

/-- The loop of `wait`, with the lock. -/
def waitLoop (cur : Slot) : KPath Int := do
  match ← perform .plain fun k => waitScan k cur with
  | some r => do
    unlock
    pure r
  | none => .sched do
      change fun k => k.set cur ({ · with chan := none })
      .jump (.waitLoop cur)

def wait (cur : Slot) : KPath Int := do
  lock
  waitLoop cur

/-- One scan of `thread_join`. -/
def joinScan (k : Kernel) (cur : Slot) (thread : Int) : Except Stop (Option Nat × Kernel) :=
  match (List.finRange NPROC).find? fun s => (k.ptable s).parent = some cur ∧
      ((k.ptable s).pid : Int) = thread ∧ (k.ptable s).state = .zombie with
  | some s => do
    let k' ← joinReap k cur s
    .ok (some (k.ptable s).retVal, k')
  | none => .ok (none, sleep k cur (.proc cur))

/-- One scan of `thread_join`, with the store through `retval` where it finds the thread. -/
def joinStore (k : Kernel) (cur : Slot) (thread : Int) (store : Kernel → Nat → Except Stop Kernel) :
    Except Stop (Bool × Kernel) := do
  match ← joinScan k cur thread with
  | (none, k) => .ok (false, k)
  | (some v, k) => do
    let k ← store k v
    .ok (true, k)

/-- The loop of `thread_join`, with the lock: `store` is the store through `retval`, and `back` what
follows the return. -/
def joinLoop (cur : Slot) (thread : Int) (store : Kernel → Nat → Except Stop Kernel)
    (again : Point) (back : KPath Int) : KPath Int := do
  match ← perform .plain fun k => joinStore k cur thread store with
  | true => do
    unlock
    back
  | false => .sched do
      change fun k => k.set cur ({ · with chan := none })
      .jump again

/-- `*retval = p->ret_val`, to user memory. -/
def storeRetval (cur : Slot) (retval : Nat) (k : Kernel) (v : Nat) : Except Stop Kernel := do
  let d ← pgdirOf k cur
  let m ← poke k.mem d retval (Vm.wordBytes v)
  .ok (k.setMem m)

def threadJoinLoop (cur : Slot) (thread : Int) (retval : Nat) : KPath Int :=
  joinLoop cur thread (storeRetval cur retval) (.joinLoop cur thread retval) (pure 0)

def threadJoin (cur : Slot) (thread : Int) (retval : Nat) : KPath Int := do
  lock
  threadJoinLoop cur thread retval

/-! ### exit, thread_exit and kill -/

/-- The end of `exit` and of `thread_exit`: the scheduler does not come back. -/
def die (cur : Slot) (retVal : Kernel → Nat) : KPath Int := do
  lock
  change fun k => Kern.die k cur (retVal k)
  .sched (.stop (.panic "zombie exit"))

def threadExit (cur : Slot) (retVal : Nat) : KPath Int :=
  if cur = initproc then .stop (.panic "init exiting")
  else do
    perform .plain fun k => do
      let k ← putCwd k cur
      .ok ((), k)
    die cur fun _ => retVal

/-- `exit` joins or kills its children in turn, and starts again as long as there is one. -/
def exitScan (cur : Slot) : List Slot → KPath Int
  | [] => do
    let children ← read fun k => k.slots fun p => p.parent = some cur
    if children = [] then .jump (.exitRest cur)
    else .jump (.exitScan cur (List.finRange NPROC))
  | s :: rest => do
    let p ← read fun k => k.ptable s
    if p.parent ≠ some cur then .jump (.exitScan cur rest)
    else if p.state = .zombie then do
      lock
      .jump (.exitJoin cur p.pid rest)
    else do
      change fun k => wakeup1 (k.set s ({ · with killed := true })) (.proc s)
      .jump (.exitScan cur rest)

def exitJoin (cur : Slot) (pid : Nat) (rest : List Slot) : KPath Int :=
  joinLoop cur pid (fun k _ => .ok k) (.exitJoin cur pid rest) (.jump (.exitScan cur rest))

/-- The process a thread belongs to, unless it is exiting already. -/
def motherLeft (cur : Slot) (k : Kernel) : Except Stop (Option Slot × Kernel) :=
  if (k.ptable cur).isthread then
    match (k.ptable cur).parent with
    | none => .error .fault
    | some q => .ok (if (k.ptable q).exiting then none else some q, k)
  else .ok (none, k)

/-- A thread that exits asks the process it belongs to to exit. -/
def exitMother (cur : Slot) : KPath Unit := do
  match ← perform .plain (motherLeft cur) with
  | none => pure ()
  | some q => do
    lock
    change fun k => k.set q ({ · with killed := true, exiting := true })
    unlock

/-- What `exit` gives back before it takes the lock. -/
def exitFiles (cur : Slot) (k : Kernel) : Except Stop (Unit × Kernel) := do
  let k := giveBack k cur
  let fref ← closeRefs (k.ptable cur).files k.fref
  let k ← putCwd ({ k with fref }.set cur ({ · with ofile := fun _ => none })) cur
  .ok ((), k)

def exitRest (cur : Slot) : KPath Int := do
  exitMother cur
  perform .plain (exitFiles cur)
  die cur fun k => (k.ptable cur).retVal

def exit (cur : Slot) : KPath Int :=
  if cur = initproc then .stop (.panic "init exiting")
  else do
    let hasthread ← perform .plain fun k =>
      let p := k.ptable cur
      .ok (p.hasthread, if p.hasthread then k.set cur ({ · with exiting := true }) else k)
    if hasthread then .jump (.exitScan cur (List.finRange NPROC)) else exitRest cur

def kill (pid : Int) : KPath Int := do
  lock
  let r ← perform .plain fun k =>
    match (List.finRange NPROC).find? fun s => ((k.ptable s).pid : Int) = pid with
    | none => .ok (-1, k)
    | some s => .ok (0, k.set s fun p =>
      { p with killed := true, state := if p.state = .sleeping then .runnable else p.state })
  unlock
  pure r

def killLwpgroup (pid : Nat) (np : Slot) : KPath Int := do
  lock
  let r ← perform .plain fun k =>
    .ok (if (k.ptable np).isthread then 0 else -1, Kern.killLwpgroup k pid np)
  unlock
  pure r

end KPath

/-- The code of the kernel that takes `ptable.lock`. -/
def kernelCode : Code Tag Point Stop Kernel Int where
  path
    | .fork cur => KPath.fork cur
    | .threadCreate cur thread start arg => KPath.threadCreate cur thread start arg
    | .threadJoin cur thread retval => KPath.threadJoin cur thread retval
    | .joinLoop cur thread retval => KPath.threadJoinLoop cur thread retval
    | .threadExit cur retVal => KPath.threadExit cur retVal
    | .wait cur => KPath.wait cur
    | .waitLoop cur => KPath.waitLoop cur
    | .exit cur => KPath.exit cur
    | .exitScan cur rest => KPath.exitScan cur rest
    | .exitJoin cur pid rest => KPath.exitJoin cur pid rest
    | .exitRest cur => KPath.exitRest cur
    | .kill pid => KPath.kill pid
    | .killLwpgroup pid np => KPath.killLwpgroup pid np
    | .forkret => do
      Path.unlock
      pure 0
  need
    | .joinLoop .. | .waitLoop _ | .exitJoin .. | .forkret => true
    | _ => false
  timer
    | .timer cur, k => yield k cur
    | _, k => k

/-! ### The discipline -/

/-- A process that forks has had no threads, and there is room for a new stack. -/
def Spare : Tag → Kernel → Prop
  | .forkTest cur, k => (k.ptable cur).hasthread = false
  | .stack _ sz, k => sz + 3 * PGSIZE < KERNBASE ∧ 6 ≤ k.mem.freelist.length
  | _, _ => True

/-- The path starts and ends as `kernelCode` says of points. -/
def Obeys {α : Type} (p : KPath α) (h : Bool) : Prop :=
  Path.Obeys Spare kernelCode.need (fun _ h => h = false) p h

section

open Support.Path (obeys_bind obeys_lock obeys_unlock obeys_perform)

theorem allocproc_obeys : Obeys KPath.allocproc false := by
  refine obeys_lock (obeys_perform fun _ o _ _ _ => obeys_unlock ?_)
  cases o with
  | none => exact rfl
  | some s =>
    intro k _
    beta_reduce
    split
    · exact rfl
    · trivial

theorem fork_obeys (cur : Slot) : Obeys (KPath.fork cur) false := by
  refine obeys_bind (allocproc_obeys.mono ?_)
  rintro (_ | np) _ rfl
  · exact rfl
  refine obeys_perform fun _ o _ _ _ => ?_
  cases o with
  | none => exact rfl
  | some pid =>
    refine obeys_lock (obeys_perform fun _ _ _ _ _ => obeys_perform fun k b _ hs hb => ?_)
    obtain ⟨rfl, -⟩ := Prod.mk.inj (Except.ok.inj hb)
    have hs : (k.ptable cur).hasthread = false := hs
    rw [hs]
    exact obeys_unlock rfl

theorem stackTop_obeys (d : Page) (sz base : Nat) :
    Path.Obeys Spare kernelCode.need (fun o h => o ≠ none ∧ h = false) (KPath.stackTop d sz base)
      false := by
  rw [KPath.stackTop]
  split
  · refine obeys_lock ?_
    refine obeys_perform ?_
    intro k r _ hs hr
    obtain ⟨⟨r', m⟩, hr', hr⟩ := Support.bind_ok.mp hr
    cases hr
    have hs : base + 3 * PGSIZE < KERNBASE ∧ 6 ≤ k.mem.freelist.length := hs
    have hne : r ≠ 0 := by
      rintro rfl
      rw [Nat.mod_eq_of_lt (hs.1.trans (by decide))] at hr'
      exact Vm.allocuvm_three hs.1 hs.2 hr'
    rw [if_neg hne]
    exact obeys_unlock ⟨by simp, rfl⟩
  · exact ⟨by simp, rfl⟩

theorem giveStack_obeys (cur np : Slot) (d : Page) : Path.Obeys Spare kernelCode.need
    (fun ok h => ok = true ∧ h = false) (KPath.giveStack cur np d) false := by
  refine obeys_perform fun _ o _ _ _ => ?_
  obtain _ | ⟨i, sz, base⟩ := o
  · exact ⟨rfl, rfl⟩
  · refine obeys_bind ((stackTop_obeys d sz base).mono ?_)
    rintro (_ | top) _ ⟨hne, rfl⟩
    · exact absurd rfl hne
    · exact obeys_perform fun _ _ _ _ _ => ⟨rfl, rfl⟩

theorem threadCreate_obeys (cur : Slot) (thread start arg : Nat) :
    Obeys (KPath.threadCreate cur thread start arg) false := by
  refine obeys_perform fun _ _ _ _ _ => obeys_bind (allocproc_obeys.mono ?_)
  rintro (_ | np) _ rfl
  · exact rfl
  refine obeys_perform fun _ d _ _ _ => obeys_bind ((giveStack_obeys cur np d).mono ?_)
  rintro _ _ ⟨rfl, rfl⟩
  refine obeys_perform fun _ ok _ _ _ => ?_
  cases ok with
  | false => exact rfl
  | true => exact obeys_lock (obeys_perform fun _ _ _ _ _ => obeys_unlock rfl)

theorem waitLoop_obeys (cur : Slot) : Obeys (KPath.waitLoop cur) true := by
  refine obeys_perform fun _ r _ _ _ => ?_
  cases r with
  | some r => exact obeys_unlock rfl
  | none => exact ⟨rfl, obeys_perform fun _ _ _ _ _ => rfl⟩

theorem joinLoop_obeys {cur : Slot} {thread : Int} {store : Kernel → Nat → Except Stop Kernel}
    {again : Point} {back : KPath Int} (ha : kernelCode.need again = true) (hb : Obeys back false) :
    Obeys (KPath.joinLoop cur thread store again back) true := by
  refine obeys_perform fun _ r _ _ _ => ?_
  cases r with
  | true => exact obeys_unlock hb
  | false => exact ⟨rfl, obeys_perform fun _ _ _ _ _ => ha⟩

theorem die_obeys (cur : Slot) (retVal : Kernel → Nat) : Obeys (KPath.die cur retVal) false :=
  obeys_lock (obeys_perform fun _ _ _ _ _ => ⟨rfl, trivial⟩)

theorem exitScan_obeys (cur : Slot) (rest : List Slot) : Obeys (KPath.exitScan cur rest) false := by
  cases rest with
  | nil =>
    refine obeys_perform fun _ children _ _ _ => ?_
    split
    · exact rfl
    · exact rfl
  | cons s rest =>
    refine obeys_perform fun _ p _ _ _ => ?_
    split
    · exact rfl
    · split
      · exact obeys_lock rfl
      · exact obeys_perform fun _ _ _ _ _ => rfl

theorem exitMother_obeys (cur : Slot) : Obeys (KPath.exitMother cur) false := by
  refine obeys_perform fun _ mother _ _ _ => ?_
  cases mother with
  | none => exact rfl
  | some q => exact obeys_lock (obeys_perform fun _ _ _ _ _ => ⟨rfl, rfl⟩)

theorem exitRest_obeys (cur : Slot) : Obeys (KPath.exitRest cur) false := by
  refine obeys_bind ((exitMother_obeys cur).mono ?_)
  rintro _ _ rfl
  exact obeys_perform fun _ _ _ _ _ => die_obeys ..

/-- The code at every point obeys. -/
theorem kernelCode_obeys (r : Point) : Obeys (kernelCode.path r) (kernelCode.need r) := by
  cases r with
  | fork cur => exact fork_obeys cur
  | threadCreate cur thread start arg => exact threadCreate_obeys cur thread start arg
  | threadJoin cur thread retval => exact obeys_lock (joinLoop_obeys rfl rfl)
  | joinLoop cur thread retval => exact joinLoop_obeys rfl rfl
  | threadExit cur retVal =>
    change Obeys (KPath.threadExit cur retVal) false
    rw [KPath.threadExit]
    split
    · trivial
    · exact obeys_perform fun _ _ _ _ _ => die_obeys ..
  | wait cur => exact obeys_lock (waitLoop_obeys cur)
  | waitLoop cur => exact waitLoop_obeys cur
  | exit cur =>
    change Obeys (KPath.exit cur) false
    rw [KPath.exit]
    split
    · trivial
    · refine obeys_perform fun _ b _ _ _ => ?_
      cases b with
      | true => exact rfl
      | false => exact exitRest_obeys cur
  | exitScan cur rest => exact exitScan_obeys cur rest
  | exitJoin cur pid rest => exact joinLoop_obeys rfl rfl
  | exitRest cur => exact exitRest_obeys cur
  | kill pid => exact obeys_lock (obeys_perform fun _ _ _ _ _ => obeys_unlock rfl)
  | killLwpgroup pid np => exact obeys_lock (obeys_perform fun _ _ _ _ _ => obeys_unlock rfl)
  | forkret => exact obeys_unlock rfl

end

/-! ### Runs -/

instance (t : Tag) (k : Kernel) : Decidable (Spare t k) := by
  cases t <;> unfold Spare <;> infer_instance

abbrev KCpus (C : Type) := Cpus C Tag Point Stop Kernel Int

/-- All CPUs are in the scheduler, and init waits there for its first turn. -/
def bootCpus (C : Type) (k : Kernel) : KCpus C :=
  ⟨k, none, fun _ => none, [kernelCode.path .forkret]⟩

/-- A run on the CPUs `C`, all of whose actions meet `G`. -/
def CpuRun {C : Type} [DecidableEq C] (G : Tag → Kernel → Prop) (k : Kernel) (S : KCpus C) : Prop :=
  Run (fun (S : KCpus C) m S' => S.step kernelCode m = some S') (Cpus.Meets G) (bootCpus C k) S

/-- **`ptable.lock`.**  On any number of CPUs, where no process that has had threads forks and there is
room for every new stack: a CPU that is about to take the lock does not hold it, one that is about to
release it or to enter the scheduler does, and none holds it when an operation has returned. -/
theorem ptable_lock_discipline {C : Type} [DecidableEq C] {k : Kernel} {S : KCpus C}
    (r : CpuRun Spare k S) (c : C) :
    (∀ next, S.path c = some (.acquire next) → S.owner ≠ some c) ∧
      (∀ next, S.path c = some (.release next) → S.owner = some c) ∧
      (∀ next, S.path c = some (.sched next) → S.owner = some c) ∧
      ∀ v, S.path c = some (.ret v) → S.owner ≠ some c := by
  have hboot : Cpus.Disciplined Spare kernelCode (bootCpus C k) := by
    refine ⟨fun _ _ => (nomatch ·), fun _ _ => (nomatch ·), fun p hp => ?_⟩
    obtain rfl := List.mem_singleton.mp hp
    exact kernelCode_obeys .forkret
  have h := hboot.run kernelCode_obeys r
  refine ⟨fun next hp => ?_, fun next hp => ?_, fun next hp => ?_, fun v hp => ?_⟩
  · exact of_decide_eq_false (h.path c _ hp).1
  · exact of_decide_eq_true (h.path c _ hp).1
  · exact of_decide_eq_true (h.path c _ hp).1
  · exact of_decide_eq_false (h.path c _ hp)

/-- A run that can be computed, from a boot on `n` pages. -/
theorem exists_cpuRun (G : Tag → Kernel → Prop) [∀ t k, Decidable (G t k)] (n : Nat)
    (ms : List (Move (Fin 2) Tag Point)) (P : KCpus (Fin 2) → Bool)
    (h : ∃ k, userinit (.blank (List.range n)) [] = .ok k ∧
      ∃ S, Support.exec (fun (S : KCpus (Fin 2)) m => S.step kernelCode m)
        (fun S m => decide (Cpus.Meets G S m)) (bootCpus (Fin 2) k) ms = some S ∧ P S = true) :
    ∃ k S, Booted k ∧ CpuRun G k S ∧ P S = true := by
  obtain ⟨k, hk, h⟩ := h
  obtain ⟨S, r, hP⟩ := Support.exists_run _ (Cpus.Meets G) _ ms _ h
  exact ⟨k, S, ⟨_, _, List.nodup_range, hk⟩, r, hP⟩

/-- The value a call on the way `p` is about to return. -/
def returned : Option (KPath Int) → Option Int
  | some (.ret v) => some v
  | _ => none

theorem returned_eq_some {p : Option (KPath Int)} {v : Int} (h : returned p = some v) :
    p = some (.ret v) := by
  unfold returned at h
  split at h
  · cases h
    rfl
  · cases h

/-- The way `p` stands before an `acquire`. -/
def acquiring : Option (KPath Int) → Bool
  | some (.acquire _) => true
  | _ => false

theorem exists_acquire {p : Option (KPath Int)} (h : acquiring p = true) :
    ∃ next, p = some (.acquire next) := by
  unfold acquiring at h
  split at h
  · exact ⟨_, rfl⟩
  · cases h

/-- Init starts `thread_create` on CPU 0, the timer comes, and it goes on and ends on CPU 1. -/
theorem ptable_lock_discipline_timer : ∃ k S, Booted k ∧ CpuRun Spare k S ∧
    (∃ v, S.path (1 : Fin 2) = some (.ret v)) ∧ S.owner ≠ some 1 := by
  obtain ⟨k, S, hb, r, h⟩ := exists_cpuRun Spare 90
    ([.resume 0 0, .step 0, .start 0 (.threadCreate 0 0 0 0), .step 0, .timer 0 (.timer 0), .step 0,
      .step 0, .step 0, .resume 1 0, .step 1] ++ List.replicate 14 (.step 1))
    (fun S => (returned (S.path 1)).isSome) (by decide +kernel)
  obtain ⟨v, hv⟩ := Option.isSome_iff_exists.mp h
  have hp := returned_eq_some hv
  exact ⟨k, S, hb, r, ⟨v, hp⟩, (ptable_lock_discipline r 1).2.2.2 v hp⟩

/-- Without memory for a stack `thread_create` returns with the lock; and a process that has had
threads takes it a second time in `fork`. -/
theorem ptable_lock_kept :
    (∃ k S, Booted k ∧ CpuRun (fun _ _ => True) k S ∧
      S.path (0 : Fin 2) = some (.ret (-1)) ∧ S.owner = some 0) ∧
      ∃ k S, Booted k ∧ CpuRun (fun _ _ => True) k S ∧
        (∃ next, S.path (0 : Fin 2) = some (.acquire next)) ∧ S.owner = some 0 := by
  constructor
  · obtain ⟨k, S, hb, r, h⟩ := exists_cpuRun (fun _ _ => True) 70
      ([.resume 0 0, .step 0, .start 0 (.threadCreate 0 0 0 0)] ++ List.replicate 9 (.step 0))
      (fun S => returned (S.path 0) = some (-1) ∧ S.owner = some 0) (by decide +kernel)
    obtain ⟨hv, ho⟩ := of_decide_eq_true h
    exact ⟨k, S, hb, r, returned_eq_some hv, ho⟩
  · obtain ⟨k, S, hb, r, h⟩ := exists_cpuRun (fun _ _ => True) 200
      ([.resume 0 0, .step 0, .start 0 (.threadCreate 0 0 0 0)] ++ List.replicate 15 (.step 0) ++
        [.start 0 (.fork 0)] ++ List.replicate 9 (.step 0))
      (fun S => acquiring (S.path 0) ∧ S.owner = some 0) (by decide +kernel)
    obtain ⟨hp, ho⟩ := of_decide_eq_true h
    exact ⟨k, S, hb, r, exists_acquire hp, ho⟩

end Xv6.Kern
