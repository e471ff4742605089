import Xv6.Param
import Xv6.Support.Machine
import Xv6.Support.Ring

/-!
# Bio — the buffer cache (`bio.c`, `memide.c`)

A buffer belongs to a block of a device from the `bget` that recycles it on.  `refcnt` counts those
who use it or wait for it, and the sleep lock lets one of them have its bytes at a time.  `bget`
looks for the block from the most recently used buffer on, and recycles from the other end a buffer
that nobody uses and that is not `B_DIRTY`; `log_write` pins a buffer by that flag.

Processes run interleaved.  What one does under `bcache.lock` is one step; so is a call of `iderw`,
which only touches the buffer whose lock the caller has and that buffer's block of the disk.  A
process between two steps of a call is at a program point `Pc`.  It may have any number of buffers
locked, as a commit has two of them at a time.  A commit is a process like any other here: it reads
blocks, overwrites them and passes them to `bwrite`.

Who has a buffer may change its bytes, and is to pass it to `log_write` or `bwrite` before it lets
the buffer go; `unsaved` says that this is still to be done.
-/

namespace Xv6.Bio

open Support (Links)

/-- `struct buf`, without its lock and its pointers. -/
structure Buf (D : Type) where
  /-- `B_VALID`: buffer has been read from disk -/
  valid : Bool
  /-- `B_DIRTY`: buffer needs to be written to disk -/
  dirty : Bool
  dev : Nat
  blockno : Nat
  refcnt : Nat
  data : D

/-- Where a process is between two steps of a call. -/
inductive Pc where
  | idle
  /-- in `bread` of block `n`, for which `bget` has chosen `b`: before `acquiresleep` -/
  | waiting (n : Nat) (b : Fin NBUF)
  /-- in `bread` of block `n`, with the lock of `b`: before the test of `B_VALID` -/
  | checking (n : Nat) (b : Fin NBUF)
  /-- in `brelse`, between `releasesleep` and `b->refcnt--` -/
  | releasing (b : Fin NBUF)
  deriving DecidableEq

/-- The buffers with their locks and pointers, the disk, and the processes. -/
structure Cache (P D : Type) where
  buf : Fin NBUF → Buf D
  lock : Fin NBUF → Option P
  links : Links (Fin NBUF)
  disk : Nat → D
  pc : P → Pc
  unsaved : Fin NBUF → Bool

variable {P D : Type} [DecidableEq P]

/-- Change buffer `b`. -/
def Cache.setBuf (c : Cache P D) (b : Fin NBUF) (f : Buf D → Buf D) : Cache P D :=
  { c with buf := Function.update c.buf b (f (c.buf b)) }

/-- The process goes on to `pc`. -/
def Cache.goto (c : Cache P D) (p : P) (pc : Pc) : Cache P D :=
  { c with pc := Function.update c.pc p pc }

/-- Create linked list of buffers. -/
def linkAll : Links (Fin NBUF) :=
  (List.finRange NBUF).foldl Links.pushFront ⟨fun _ => none, fun _ => none⟩

/-- The cache after `binit`, with the given blocks on the disk.  What an unused buffer holds does
not matter. -/
def binit (zero : D) (disk : Nat → D) : Cache P D where
  buf := fun _ => ⟨false, false, 0, 0, 0, zero⟩
  lock := fun _ => none
  links := linkAll
  disk := disk
  pc := fun _ => .idle
  unsaved := fun _ => false

/-- Look through buffer cache for block on device dev.  If not found, allocate a buffer.  This is
the part under `bcache.lock`; `none` is the panic. -/
def bget (c : Cache P D) (dev blockno : Nat) : Option (Fin NBUF × Cache P D) :=
  -- Is the block already cached?
  match c.links.scanNext (fun b => (c.buf b).dev = dev ∧ (c.buf b).blockno = blockno) (NBUF + 1)
      (c.links.next none) with
  | some b => some (b, c.setBuf b fun buf => { buf with refcnt := buf.refcnt + 1 })
  | none =>
    -- Not cached; recycle an unused buffer.
    match c.links.scanPrev (fun b => (c.buf b).refcnt = 0 ∧ (c.buf b).dirty = false) (NBUF + 1)
        (c.links.prev none) with
    | some b => some (b, c.setBuf b
        ({ · with dev, blockno, valid := false, dirty := false, refcnt := 1 }))
    | none => none

/-- Sync buf with disk.  If B_DIRTY is set, write buf to disk, clear B_DIRTY, set B_VALID.  Else if
B_VALID is not set, read buf from disk, set B_VALID.  `none` is a panic. -/
def iderw (disksize : Nat) (c : Cache P D) (b : Fin NBUF) : Option (Cache P D) :=
  if (c.buf b).valid ∧ (c.buf b).dirty = false then none
  else if (c.buf b).dev ≠ 1 then none
  else if disksize ≤ (c.buf b).blockno then none
  else if (c.buf b).dirty then
    some { c.setBuf b ({ · with dirty := false, valid := true }) with
      disk := Function.update c.disk (c.buf b).blockno (c.buf b).data }
  else some (c.setBuf b ({ · with data := c.disk (c.buf b).blockno, valid := true }))

/-- The part of `brelse` under `bcache.lock`. -/
def unref (c : Cache P D) (b : Fin NBUF) : Cache P D :=
  let c := c.setBuf b fun buf => { buf with refcnt := buf.refcnt - 1 }
  -- no one is waiting for it.
  if (c.buf b).refcnt = 0 then { c with links := c.links.moveFront b } else c

/-- A step of process `p`. -/
inductive Step (P D : Type) where
  | bget (p : P) (n : Nat)
  | acquire (p : P)
  | check (p : P)
  | store (p : P) (b : Fin NBUF) (d : D)
  | logWrite (p : P) (b : Fin NBUF)
  | bwrite (p : P) (b : Fin NBUF)
  | brelse (p : P) (b : Fin NBUF)
  | unref (p : P)

/-- The process is between calls and has the lock of `b`. -/
def Cache.Has (c : Cache P D) (p : P) (b : Fin NBUF) : Prop := c.pc p = .idle ∧ c.lock b = some p

instance (c : Cache P D) (p : P) (b : Fin NBUF) : Decidable (c.Has p b) :=
  inferInstanceAs (Decidable (_ ∧ _))

/-- One step. -/
def step (disksize : Nat) (c : Cache P D) : Step P D → Option (Cache P D)
  | .bget p n =>
    if c.pc p = .idle then (bget c ROOTDEV n).map fun r => r.2.goto p (.waiting n r.1) else none
  | .acquire p =>
    match c.pc p with
    | .waiting n b =>
      if c.lock b = none then
        some ({ c with lock := Function.update c.lock b (some p) }.goto p (.checking n b))
      else none
    | _ => none
  | .check p =>
    match c.pc p with
    | .checking _ b =>
      if (c.buf b).valid then some (c.goto p .idle)
      else (iderw disksize c b).map (·.goto p .idle)
    | _ => none
  | .store p b d =>
    if c.Has p b then
      some { c.setBuf b ({ · with data := d }) with unsaved := Function.update c.unsaved b true }
    else none
  | .logWrite p b =>
    if c.Has p b then
      some { c.setBuf b ({ · with dirty := true }) with
        unsaved := Function.update c.unsaved b false }
    else none
  | .bwrite p b =>
    if c.Has p b then
      (iderw disksize (c.setBuf b ({ · with dirty := true })) b).map fun c =>
        { c with unsaved := Function.update c.unsaved b false }
    else none
  | .brelse p b =>
    if c.Has p b ∧ c.unsaved b = false then
      some ({ c with lock := Function.update c.lock b none }.goto p (.releasing b))
    else none
  | .unref p =>
    match c.pc p with
    | .releasing b => some ((unref c b).goto p .idle)
    | _ => none

/-- The steps of a run, the latest first, each with the cache it was taken in. -/
abbrev History (P D : Type) := List (Cache P D × Step P D)

/-- **The bytes most recently stored in block `n`** by a holder of its buffer, or those the disk
started with. -/
def stored (disk : Nat → D) : History P D → Nat → D
  | [], n => disk n
  | (c, .store _ b d) :: l, n => if (c.buf b).blockno = n then d else stored disk l n
  | _ :: l, n => stored disk l n

end Xv6.Bio
