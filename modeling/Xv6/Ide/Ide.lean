import Xv6.Param
import Xv6.Support.Machine

/-!
# Ide — the disk queue (`ide.c`)

The driver, the device behind its ports, and the processes that have a request to it.  A buffer is
locked by the process that calls `iderw` for it, so there is at most one such call for a buffer, and
the buffer stands for the process: `pc b` says where the call for `b` is.  What is done under
`idelock` is one step: a call of `iderw` up to its `sleep`, the way from there to the return, and
`ideintr`.

The device takes a command through its registers, finishes it at some time with success or with an
error, and then raises an interrupt.  A command it finishes with success it has performed; one that
it finishes with an error may have left anything in the sector or in the data port.

A block has `BSIZE` bytes, which is one sector; the data of a block is of any type `D`.  `arrived` and
`started` are the requests so far, in the order in which they were queued and in which the device was
given them.
-/

namespace Xv6.Ide

abbrev SECTOR_SIZE : Nat := 512

/-- A buffer as the driver sees it. -/
structure Buf (B D : Type) where
  dev : UInt32
  blockno : UInt32
  /-- `B_VALID` -/
  valid : Bool
  /-- `B_DIRTY` -/
  dirty : Bool
  data : D
  /-- disk queue -/
  qnext : Option B

/-- `(b->flags & (B_VALID|B_DIRTY)) == B_VALID` -/
def Buf.clean {B D : Type} (b : Buf B D) : Bool := b.valid && !b.dirty

/-! ### The device -/

/-- `IDE_CMD_READ`, and `IDE_CMD_WRITE` with what `outsl` has given the device. -/
inductive Cmd (D : Type) where
  | read
  | write (data : D)

structure Device (D : Type) where
  /-- 0x3f6 -/
  control : Nat
  /-- 0x1f2 -/
  count : Nat
  /-- 0x1f3 -/
  lba0 : Nat
  /-- 0x1f4 -/
  lba1 : Nat
  /-- 0x1f5 -/
  lba2 : Nat
  /-- 0x1f6 -/
  drive : Nat
  /-- the command that it is busy with -/
  cmd : Option (Cmd D)
  /-- `IDE_DF` or `IDE_ERR` is set in the status -/
  err : Bool
  /-- what `insl` will get from 0x1f0 -/
  port : D
  irq : Bool
  /-- the sectors of disk 0 and disk 1 -/
  disk : Nat → Nat → D

variable {B D : Type}

/-- The disk that the registers select. -/
def Device.unit (d : Device D) : Nat := (d.drive >>> 4) &&& 1

/-- The sector that the registers select. -/
def Device.sector (d : Device D) : Nat :=
  d.lba0 + (d.lba1 <<< 8) + (d.lba2 <<< 16) + ((d.drive &&& 0x0f) <<< 24)

/-- The sector selected gets the data `x`. -/
def Device.store (d : Device D) (x : D) : Nat → Nat → D :=
  Function.update d.disk d.unit (Function.update (d.disk d.unit) d.sector x)

/-- The device finishes its command.  `junk` is what a command that fails leaves. -/
def Device.finish (d : Device D) (ok : Bool) (junk : D) : Option (Device D) :=
  match d.cmd with
  | none => none
  | some .read =>
    some { d with
      cmd := none, err := !ok, irq := d.control == 0
      port := if ok && d.count == 1 then d.disk d.unit d.sector else junk }
  | some (.write x) =>
    some { d with
      cmd := none, err := !ok, irq := d.control == 0
      disk := d.store (if ok && d.count == 1 then x else junk) }

/-- The `outb`s of `idestart`, and the command. -/
def Device.start (d : Device D) (dev sector count : Nat) (cmd : Cmd D) : Device D :=
  { d with
    control := 0
    count := count
    lba0 := sector &&& 0xff
    lba1 := (sector >>> 8) &&& 0xff
    lba2 := (sector >>> 16) &&& 0xff
    drive := 0xe0 ||| ((dev &&& 1) <<< 4) ||| ((sector >>> 24) &&& 0x0f)
    cmd := some cmd }

/-! ### The driver -/

/-- Where the `iderw` for a buffer is. -/
inductive Pc where
  | outside
  /-- at the test of the last loop, or in its `sleep` -/
  | waiting
  /-- it has just returned -/
  | returned
  deriving DecidableEq

structure System (B D : Type) where
  idequeue : Option B
  havedisk1 : Bool
  buf : B → Buf B D
  dev : Device D
  pc : B → Pc
  /-- SLEEPING on the buffer -/
  sleeping : B → Bool
  arrived : List B
  started : List B

variable [DecidableEq B]

def System.set (s : System B D) (b : B) (x : Buf B D) : System B D :=
  { s with buf := Function.update s.buf b x }

/-- Start the request for `b`. -/
def System.idestart (s : System B D) : Option B → Except Stop (System B D)
  | none => .error (.panic "idestart")
  | some b =>
    let x := s.buf b
    if x.blockno.toNat ≥ FSSIZE then .error (.panic "incorrect blockno")
    else
      let sectorPerBlock := BSIZE / SECTOR_SIZE
      let sector := x.blockno.toNat * sectorPerBlock
      -- idewait(0)
      if s.dev.cmd.isSome then .error .hang
      else
        .ok { s with
          dev := s.dev.start x.dev.toNat sector sectorPerBlock
            (if x.dirty then .write x.data else .read)
          started := s.started ++ [b] }

/-- `ideintr` for the first buffer of the queue, up to the `wakeup`. -/
def System.complete (s : System B D) (b : B) : System B D :=
  let x := s.buf b
  let data := if !x.dirty && !s.dev.err then s.dev.port else x.data
  { s.set b { x with data := data, valid := true, dirty := false } with
    idequeue := x.qnext
    dev := { s.dev with irq := false }
    sleeping := Function.update s.sleeping b false }

/-- The interrupt handler. -/
def System.ideintr (s : System B D) : Except Stop (System B D) :=
  match s.idequeue with
  | none => .ok { s with dev := { s.dev with irq := false } }
  | some b =>
    -- idewait(1)
    if !(s.buf b).dirty && s.dev.cmd.isSome then .error .hang
    else
      let s := s.complete b
      if s.idequeue ≠ none then s.idestart s.idequeue else .ok s

/-- `for(pp = &c->qnext; *pp; pp = &(*pp)->qnext)`: the node in which the walk ends. -/
def System.last (s : System B D) : Nat → B → Option B
  | 0, _ => none
  | k + 1, c =>
    match (s.buf c).qnext with
    | none => some c
    | some c' => s.last k c'

/-- `b->qnext = 0`, for a request that has come. -/
def System.enter (s : System B D) (b : B) : System B D :=
  { s.set b { s.buf b with qnext := none } with arrived := s.arrived ++ [b] }

/-- Append `b` to `idequeue`; a walk over more buffers than there are does not end. -/
def System.append [Fintype B] (s : System B D) (b : B) : Except Stop (System B D) :=
  let s := s.enter b
  match s.idequeue with
  | none => .ok { s with idequeue := some b }
  | some c =>
    match s.last (Fintype.card B) c with
    | none => .error .hang
    | some t => .ok (s.set t { s.buf t with qnext := some b })

/-- Start disk if necessary. -/
def System.startFirst (s : System B D) (b : B) : Except Stop (System B D) :=
  if s.idequeue = some b then s.idestart (some b) else .ok s

/-- The last loop of `iderw`: return, or sleep. -/
def System.wait (s : System B D) (b : B) : System B D :=
  if (s.buf b).clean then { s with pc := Function.update s.pc b .returned }
  else
    { s with
      pc := Function.update s.pc b .waiting
      sleeping := Function.update s.sleeping b true }

/-- `iderw`, up to the first `sleep`. -/
def System.iderw [Fintype B] (s : System B D) (b : B) : Except Stop (System B D) :=
  if (s.buf b).clean then .error (.panic "iderw: nothing to do")
  else if (s.buf b).dev ≠ 0 ∧ s.havedisk1 = false then
    .error (.panic "iderw: ide disk 1 not present")
  else do
    let s ← s.append b
    let s ← s.startFirst b
    .ok (s.wait b)

/-! ### Runs -/

inductive Act (B D : Type) where
  /-- the holder of a buffer that is not in `iderw` changes it -/
  | hold (b : B) (dev blockno : UInt32) (valid dirty : Bool) (data : D)
  | iderw (b : B)
  /-- a process that was woken goes on -/
  | resume (b : B)
  /-- a process is killed, which ends its `sleep` -/
  | kill (b : B)
  /-- the device finishes its command -/
  | finish (ok : Bool) (junk : D)
  | ideintr

/-- One step; none where the kernel stops. -/
def System.step [Fintype B] (s : System B D) : Act B D → Option (System B D)
  | .hold b dev blockno valid dirty data =>
    if s.pc b = .waiting then none
    else
      some { s.set b { s.buf b with dev, blockno, valid, dirty, data } with
        pc := Function.update s.pc b .outside }
  | .iderw b => if s.pc b = .waiting then none else (s.iderw b).toOption
  | .resume b => if s.pc b = .waiting ∧ s.sleeping b = false then some (s.wait b) else none
  | .kill b => some { s with sleeping := Function.update s.sleeping b false }
  | .finish ok junk => (s.dev.finish ok junk).map fun d => { s with dev := d }
  | .ideintr => if s.dev.irq then s.ideintr.toOption else none

/-- After `ideinit`: nothing is queued, and the device is idle. -/
structure Initial (s : System B D) : Prop where
  idequeue : s.idequeue = none
  pc : ∀ b, s.pc b = .outside
  cmd : s.dev.cmd = none
  irq : s.dev.irq = false
  arrived : s.arrived = []
  started : s.started = []

/-- A run of the driver. -/
def IdeRun [Fintype B] (G : System B D → Act B D → Prop) (s : System B D) : Prop :=
  ∃ s₀, Initial s₀ ∧ Support.Run (fun s a s' => System.step s a = some s') G s₀ s

end Xv6.Ide
