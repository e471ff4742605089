import Xv6.Fs.Files
import Xv6.Support.Machine

/-!
# Icache — the inode cache (`fs.c`)

An entry belongs to an inode of a device from the `iget` that recycles it on.  `ref` counts the
references to it, and the sleep lock lets one process have the copy of the disk inode at a time.

Processes run interleaved.  What one does under `icache.lock` is one step, and so is what it does
with the copy and the disk inode under the sleep lock.  `iput` is five steps: it takes the sleep
lock; it tests `valid`, `nlink` and `ref`; it truncates and frees the inode; it lets the lock go; it
drops the reference.  `ialloc` is two, since it marks the inode on the disk before it calls `iget`.
Which free inode its loop comes to depends on the others, so any one may be taken.

A reference is in a file, a working directory or a variable of the kernel, and not tied to a
process: `refs` counts these, and a process in `iput` has the one that it is about to drop.  There
are fewer references than an `int` can count.  The blocks that `itrunc` frees are left out here.  A
call that would panic is no step.
-/

namespace Xv6.Icache

open Function (update)

open Fs (Dinode FileType blankDinode)

/-- maximum number of active i-nodes -/
abbrev NINODE : Nat := 50

/-- `struct inode`, without its lock. -/
structure Inode where
  dev : Nat
  inum : Nat
  ref : Nat
  /-- inode has been read from disk? -/
  valid : Bool
  /-- copy of disk inode -/
  copy : Dinode

/-- Which inode an entry holds. -/
def Inode.key (ip : Inode) : Nat × Nat := (ip.dev, ip.inum)

/-- How far `iput` is. -/
inductive Stage where
  /-- it has the sleep lock: before the test -/
  | checking
  /-- no links and no other references: before `itrunc` -/
  | freeing
  /-- before `releasesleep` -/
  | unlocking
  /-- before `ip->ref--` -/
  | dropping
  deriving DecidableEq

/-- Where a process is between two steps of a call. -/
inductive Pc where
  | idle
  /-- in `ialloc`, with the inode marked on the disk: before `iget` -/
  | allocating (k : Nat × Nat)
  | iput (s : Stage) (e : Fin NINODE)
  deriving DecidableEq

structure Cache (P : Type) where
  inode : Fin NINODE → Inode
  lock : Fin NINODE → Option P
  /-- the inodes on the disk, seen through the buffer cache -/
  disk : Nat × Nat → Dinode
  pc : P → Pc
  /-- the references that no `iput` is about to drop -/
  refs : Fin NINODE → Nat

variable {P : Type} [DecidableEq P]

def Cache.setInode (c : Cache P) (e : Fin NINODE) (f : Inode → Inode) : Cache P :=
  { c with inode := update c.inode e (f (c.inode e)) }

def Cache.setLock (c : Cache P) (e : Fin NINODE) (o : Option P) : Cache P :=
  { c with lock := update c.lock e o }

def Cache.setRefs (c : Cache P) (e : Fin NINODE) (n : Nat) : Cache P :=
  { c with refs := update c.refs e n }

/-- The process goes on to `pc`. -/
def Cache.goto (c : Cache P) (p : P) (pc : Pc) : Cache P :=
  { c with pc := update c.pc p pc }

/-- Copy a modified in-memory inode to disk. -/
def Cache.iupdate (c : Cache P) (e : Fin NINODE) : Cache P :=
  { c with disk := update c.disk (c.inode e).key (c.inode e).copy }

/-! ### `iget` -/

/-- The loop of `iget`: the entry of the inode, or else the first one that is empty. -/
def Cache.scan (c : Cache P) (k : Nat × Nat) :
    List (Fin NINODE) → Option (Fin NINODE) → Option (Fin NINODE × Bool)
  | [], empty => empty.map (·, false)
  | e :: es, empty =>
    if 0 < (c.inode e).ref ∧ (c.inode e).key = k then some (e, true)
    else c.scan k es (if empty = none ∧ (c.inode e).ref = 0 then some e else empty)

/-- Find the inode with number inum on device dev and return the in-memory copy.  `none` is the
panic. -/
def Cache.iget (c : Cache P) (k : Nat × Nat) : Option (Cache P) :=
  match c.scan k (List.finRange NINODE) none with
  | none => none
  -- Is the inode already cached?
  | some (e, true) =>
    some ((c.setInode e fun ip => { ip with ref := ip.ref + 1 }).setRefs e (c.refs e + 1))
  -- Recycle an inode cache entry.
  | some (e, false) =>
    some ((c.setInode e ({ · with dev := k.1, inum := k.2, ref := 1, valid := false })).setRefs e
      (c.refs e + 1))

/-! ### Steps -/

/-- A step of process `p`. -/
inductive Step (P : Type) where
  | iget (p : P) (k : Nat × Nat)
  | ialloc (p : P) (k : Nat × Nat) (type : FileType)
  /-- the `iget` at the end of `ialloc` -/
  | allocated (p : P)
  | idup (p : P) (e : Fin NINODE)
  | ilock (p : P) (e : Fin NINODE)
  /-- a change to the copy, and `iupdate` -/
  | change (p : P) (e : Fin NINODE) (d : Dinode)
  | iunlock (p : P) (e : Fin NINODE)
  | iput (p : P) (e : Fin NINODE)
  | check (p : P)
  | free (p : P)
  | unlock (p : P)
  | drop (p : P)

/-- `ip->valid && ip->nlink == 0`, and `ip->ref == 1`: truncate and free. -/
def Inode.Goes (ip : Inode) : Prop := ip.valid = true ∧ ip.copy.nlink = 0 ∧ ip.ref = 1

instance (ip : Inode) : Decidable ip.Goes := inferInstanceAs (Decidable (_ ∧ _))

/-- What `itrunc` leaves of the inode. -/
def truncated (d : Dinode) : Dinode := { d with size := 0, addrs := fun _ => 0 }

/-- One step. -/
def Cache.step (c : Cache P) : Step P → Option (Cache P)
  | .iget p k => if c.pc p = .idle then c.iget k else none
  | .ialloc p k type =>
    if c.pc p = .idle ∧ (c.disk k).type = .free ∧ type ≠ .free then
      some ({ c with disk := update c.disk k (blankDinode type) }.goto p (.allocating k))
    else none
  | .allocated p =>
    match c.pc p with
    | .allocating k => (c.iget k).map (·.goto p .idle)
    | _ => none
  | .idup p e =>
    if c.pc p = .idle ∧ 0 < c.refs e then
      some ((c.setInode e fun ip => { ip with ref := ip.ref + 1 }).setRefs e (c.refs e + 1))
    else none
  | .ilock p e =>
    if c.pc p = .idle ∧ 0 < c.refs e ∧ c.lock e = none then
      if (c.inode e).valid then some (c.setLock e (some p))
      else if (c.disk (c.inode e).key).type = .free then none
      else
        some ((c.setInode e fun ip => { ip with copy := c.disk ip.key, valid := true }).setLock e
          (some p))
    else none
  | .change p e d =>
    if c.pc p = .idle ∧ c.lock e = some p ∧ d.type = (c.inode e).copy.type then
      some ((c.setInode e ({ · with copy := d })).iupdate e)
    else none
  | .iunlock p e =>
    if c.pc p = .idle ∧ c.lock e = some p then some (c.setLock e none) else none
  | .iput p e =>
    if c.pc p = .idle ∧ 0 < c.refs e ∧ c.lock e = none then
      some (((c.setLock e (some p)).setRefs e (c.refs e - 1)).goto p (.iput .checking e))
    else none
  | .check p =>
    match c.pc p with
    | .iput .checking e =>
      some (c.goto p (.iput (if (c.inode e).Goes then .freeing else .unlocking) e))
    | _ => none
  | .free p =>
    match c.pc p with
    | .iput .freeing e =>
      let c := (c.setInode e fun ip =>
        { ip with copy := { truncated ip.copy with type := .free } }).iupdate e
      some ((c.setInode e ({ · with valid := false })).goto p (.iput .unlocking e))
    | _ => none
  | .unlock p =>
    match c.pc p with
    | .iput .unlocking e => some ((c.setLock e none).goto p (.iput .dropping e))
    | _ => none
  | .drop p =>
    match c.pc p with
    | .iput .dropping e =>
      some ((c.setInode e fun ip => { ip with ref := ip.ref - 1 }).goto p .idle)
    | _ => none

/-- What the step that frees an inode leaves. -/
structure Freed (c : Cache P) (p : P) (e : Fin NINODE) (c' : Cache P) : Prop where
  inode : c'.inode = update c.inode e { c.inode e with
    copy := { truncated (c.inode e).copy with type := .free }, valid := false }
  disk : c'.disk = update c.disk (c.inode e).key
    { truncated (c.inode e).copy with type := .free }
  lock : c'.lock = c.lock
  refs : c'.refs = c.refs
  pc : c'.pc = update c.pc p (.iput .unlocking e)

/-- The steps that are taken, and what they leave. -/
inductive Moved (c : Cache P) : Step P → Cache P → Prop where
  | iget {p k c'} (get : c.iget k = some c') : Moved c (.iget p k) c'
  | ialloc {p k type} (idle : c.pc p = .idle) (free : (c.disk k).type = .free)
      (some : type ≠ .free) : Moved c (.ialloc p k type)
        ({ c with disk := update c.disk k (blankDinode type) }.goto p (.allocating k))
  | allocated {p k c₁} (pc : c.pc p = .allocating k) (get : c.iget k = some c₁) :
      Moved c (.allocated p) (c₁.goto p .idle)
  | idup {p e} (refs : 0 < c.refs e) : Moved c (.idup p e)
      ((c.setInode e fun ip => { ip with ref := ip.ref + 1 }).setRefs e (c.refs e + 1))
  /-- the copy is the one that was valid, or has been read -/
  | ilock {p e d} (idle : c.pc p = .idle) (refs : 0 < c.refs e) (lock : c.lock e = none)
      (copy : (c.inode e).valid = true ∧ d = (c.inode e).copy ∨
        d = c.disk (c.inode e).key ∧ d.type ≠ .free) : Moved c (.ilock p e)
        ((c.setInode e fun ip => { ip with copy := d, valid := true }).setLock e (some p))
  | change {p e d} (idle : c.pc p = .idle) (lock : c.lock e = some p)
      (type : d.type = (c.inode e).copy.type) :
      Moved c (.change p e d) ((c.setInode e ({ · with copy := d })).iupdate e)
  | iunlock {p e} (idle : c.pc p = .idle) (lock : c.lock e = some p) :
      Moved c (.iunlock p e) (c.setLock e none)
  | iput {p e} (idle : c.pc p = .idle) (refs : 0 < c.refs e) (lock : c.lock e = none) :
      Moved c (.iput p e)
        (((c.setLock e (some p)).setRefs e (c.refs e - 1)).goto p (.iput .checking e))
  | check {p e} (pc : c.pc p = .iput .checking e) : Moved c (.check p)
      (c.goto p (.iput (if (c.inode e).Goes then .freeing else .unlocking) e))
  | free {p e c'} (pc : c.pc p = .iput .freeing e) (freed : Freed c p e c') : Moved c (.free p) c'
  | unlock {p e} (pc : c.pc p = .iput .unlocking e) :
      Moved c (.unlock p) ((c.setLock e none).goto p (.iput .dropping e))
  | drop {p e} (pc : c.pc p = .iput .dropping e) :
      Moved c (.drop p) ((c.setInode e fun ip => { ip with ref := ip.ref - 1 }).goto p .idle)

theorem step_moved {c c' : Cache P} {a : Step P} (hs : c.step a = some c') : Moved c a c' := by
  cases a with
  | iget p k => exact .iget (Option.ite_none_right_eq_some.mp hs).2
  | ialloc p k type =>
    obtain ⟨⟨hp, hfree, htype⟩, ⟨⟩⟩ := Option.ite_none_right_eq_some.mp hs
    exact .ialloc hp hfree htype
  | idup p e =>
    obtain ⟨⟨-, hr⟩, ⟨⟩⟩ := Option.ite_none_right_eq_some.mp hs
    exact .idup hr
  | ilock p e =>
    obtain ⟨⟨hp, hr, hl⟩, hs⟩ := Option.ite_none_right_eq_some.mp hs
    split at hs
    · rename_i hv
      cases hs
      have hsame : c.setInode e
          (fun ip => { ip with copy := (c.inode e).copy, valid := true }) = c := by
        have hip : { c.inode e with valid := true } = c.inode e := by rw [← hv]
        rw [Cache.setInode, hip, Function.update_eq_self]
      have hm : Moved c (.ilock p e) _ := .ilock hp hr hl (.inl ⟨hv, rfl⟩)
      rwa [hsame] at hm
    · obtain ⟨htype, ⟨⟩⟩ := Option.ite_none_left_eq_some.mp hs
      exact .ilock hp hr hl (.inr ⟨rfl, htype⟩)
  | change p e d =>
    obtain ⟨⟨hp, hl, hd⟩, ⟨⟩⟩ := Option.ite_none_right_eq_some.mp hs
    exact .change hp hl hd
  | iunlock p e =>
    obtain ⟨⟨hp, hl⟩, ⟨⟩⟩ := Option.ite_none_right_eq_some.mp hs
    exact .iunlock hp hl
  | iput p e =>
    obtain ⟨⟨hp, hr, hl⟩, ⟨⟩⟩ := Option.ite_none_right_eq_some.mp hs
    exact .iput hp hr hl
  | allocated p =>
    rw [Cache.step] at hs
    split at hs
    · rename_i hp
      obtain ⟨c₁, hget, rfl⟩ := Option.map_eq_some_iff.mp hs
      exact .allocated hp hget
    · cases hs
  | check p =>
    rw [Cache.step] at hs
    split at hs
    · rename_i hp
      cases hs
      exact .check hp
    · cases hs
  | free p =>
    rw [Cache.step] at hs
    split at hs
    · rename_i hp
      cases hs
      refine .free hp ⟨?_, ?_, rfl, rfl, rfl⟩
      · simp [Cache.goto, Cache.setInode, Cache.iupdate]
      · simp [Cache.goto, Cache.setInode, Cache.iupdate, Inode.key]
    · cases hs
  | unlock p =>
    rw [Cache.step] at hs
    split at hs
    · rename_i hp
      cases hs
      exact .unlock hp
    · cases hs
  | drop p =>
    rw [Cache.step] at hs
    split at hs
    · rename_i hp
      cases hs
      exact .drop hp
    · cases hs

/-- The inode is allocated and has no link, and no `ialloc` has it yet to return. -/
def Cache.Orphan (c : Cache P) (k : Nat × Nat) : Prop :=
  (c.disk k).type ≠ .free ∧ (c.disk k).nlink = 0 ∧ ∀ p, c.pc p ≠ .allocating k

/-- After `iinit`, with a disk on which every inode that is allocated has a link. -/
structure Initial (c : Cache P) : Prop where
  ref : ∀ e, (c.inode e).ref = 0
  refs : ∀ e, c.refs e = 0
  lock : ∀ e, c.lock e = none
  pc : ∀ p, c.pc p = .idle
  links : ∀ k, (c.disk k).type ≠ .free → (c.disk k).nlink ≠ 0

/-- A run, all of whose steps meet the guard. -/
def IcacheRun (G : Cache P → Step P → Prop) (c : Cache P) : Prop :=
  ∃ c₀, Initial c₀ ∧ Support.Run (fun c a c' => Cache.step c a = some c') G c₀ c

end Xv6.Icache
