import Mathlib
import Xv6.Support.Machine

/-!
# Malloc — the user heap (`umalloc.c`)

The allocator's memory is what its headers hold: `ptr a` and `size a` are the two fields of the
header at the address `a`.  Headers of blocks that do not overlap do not overlap either, so the
fields of different blocks are independent.  Addresses and sizes are 32-bit numbers, and the sums
are taken modulo `2 ^ 32`; a header is 8 bytes.

`sbrk` is the kernel's: it is given a signed number of bytes, and fails, or returns the address of
fresh memory of that size above all that it gave before.  For a number that is not positive there is
none.  `regions` is the memory obtained so far, as address and bytes, and `live` are the blocks that
`malloc` has returned and that were not freed, as address of the header and units.

The loops have a bound on their rounds, which no list of blocks reaches.
-/

namespace Xv6.Malloc

/-- `sizeof(Header)` -/
abbrev UNIT : Nat := 8

structure Heap where
  /-- `&base` -/
  base : Nat
  /-- `p->s.ptr` -/
  ptr : Nat → Nat
  /-- `p->s.size` -/
  size : Nat → Nat
  /-- 0 before the first call of `malloc` -/
  freep : Nat
  /-- the end of the memory that `sbrk` has given -/
  brk : Nat
  regions : List (Nat × Nat)
  live : List (Nat × Nat)

/-- `p + n` for a `Header *p` -/
def plus (p n : Nat) : Nat := (p + UNIT * n) % 2 ^ 32

/-- The bound on the rounds of a loop. -/
def ROUNDS : Nat := 2 ^ 33

def Heap.setPtr (h : Heap) (p x : Nat) : Heap := { h with ptr := Function.update h.ptr p x }

def Heap.setSize (h : Heap) (p n : Nat) : Heap := { h with size := Function.update h.size p n }

/-! ### `free` -/

/-- The loop of `free`: where the block `bp` belongs. -/
def Heap.seek (h : Heap) (bp : Nat) : Nat → Nat → Option Nat
  | 0, _ => none
  | k + 1, p =>
    if bp > p ∧ bp < h.ptr p then some p
    else if p ≥ h.ptr p ∧ (bp > p ∨ bp < h.ptr p) then some p
    else h.seek bp k (h.ptr p)

/-- `free` for the block `bp`, behind the block `p`: join to the upper neighbour. -/
def Heap.joinUpper (h : Heap) (bp p : Nat) : Heap :=
  let next := h.ptr p
  if plus bp (h.size bp) = next then
    (h.setSize bp ((h.size bp + h.size next) % 2 ^ 32)).setPtr bp (h.ptr next)
  else h.setPtr bp next

/-- Join to the lower neighbour. -/
def Heap.joinLower (h : Heap) (bp p : Nat) : Heap :=
  if plus p (h.size p) = bp then
    (h.setSize p ((h.size p + h.size bp) % 2 ^ 32)).setPtr p (h.ptr bp)
  else h.setPtr p bp

/-- `free(bp + 1)` -/
def Heap.free (h : Heap) (bp : Nat) : Option Heap :=
  (h.seek bp ROUNDS h.freep).map fun p => { (h.joinUpper bp p).joinLower bp p with freep := p }

/-! ### `malloc` -/

/-- The kernel gives `n` bytes at the address `a`. -/
def Heap.grant (h : Heap) (a n : Nat) : Heap :=
  { h with brk := a + n, regions := (a, n) :: h.regions }

/-- `sbrk(n)`; `a` is the address that the kernel has for it, if any. -/
def Heap.sbrk (h : Heap) (n : Int) (a : Option Nat) : Option (Heap × Nat) :=
  match a with
  | none => none
  | some a =>
    if h.brk ≤ a ∧ a + n.toNat < 2 ^ 32 then some (h.grant a n.toNat, a) else none

/-- `(int)x` -/
def toInt (x : Nat) : Int :=
  if x % 2 ^ 32 < 2 ^ 31 then (x % 2 ^ 32 : Nat) else (x % 2 ^ 32 : Nat) - 2 ^ 32

/-- `morecore`; `some (h, false)` is the null pointer. -/
def Heap.morecore (h : Heap) (nu : Nat) (a : Option Nat) : Option (Heap × Bool) :=
  let nu := if nu < 4096 then 4096 else nu
  match h.sbrk (toInt (nu * UNIT)) a with
  | none => some (h, false)
  | some (h, hp) => ((h.setSize hp nu).free hp).map fun h => (h, true)

/-- The block `p`, behind `prevp`, is large enough: take it, or its tail. -/
def Heap.take (h : Heap) (prevp p nunits : Nat) : Heap × Nat :=
  if h.size p = nunits then ({ h.setPtr prevp (h.ptr p) with freep := prevp }, p)
  else
    let h := h.setSize p (h.size p - nunits)
    let p := plus p (h.size p)
    ({ h.setSize p nunits with freep := prevp }, p)

/-- The loop of `malloc`; `as` are the addresses that the kernel has for the calls of `sbrk`, in
order, and a call for which it has none fails. -/
def Heap.search (nunits : Nat) :
    Nat → Heap → List Nat → Nat → Nat → Option (Heap × Option Nat)
  | 0, _, _, _, _ => none
  | k + 1, h, as, prevp, p =>
    if h.size p ≥ nunits then
      let (h, p) := h.take prevp p nunits
      some ({ h with live := (p, nunits) :: h.live }, some p)
    else if p = h.freep then
      match h.morecore nunits as.head? with
      | none => none
      | some (h, false) => some (h, none)
      | some (h, true) => Heap.search nunits k h as.tail h.freep (h.ptr h.freep)
    else Heap.search nunits k h as p (h.ptr p)

/-- `(nbytes + sizeof(Header) - 1) / sizeof(Header) + 1` -/
def units (nbytes : UInt32) : Nat := ((nbytes.toNat + UNIT - 1) % 2 ^ 32 / UNIT + 1) % 2 ^ 32

/-- The list is empty before the first call. -/
def Heap.begin (h : Heap) : Heap :=
  if h.freep = 0 then { (h.setPtr h.base h.base).setSize h.base 0 with freep := h.base } else h

/-- `malloc(nbytes)`: the block that it returns, by the address of its header. -/
def Heap.malloc (h : Heap) (nbytes : UInt32) (as : List Nat) : Option (Heap × Option Nat) :=
  let h := h.begin
  Heap.search (units nbytes) ROUNDS h as h.freep (h.ptr h.freep)

/-! ### Runs -/

inductive Act where
  /-- a call of `malloc`, with what the kernel has for it -/
  | malloc (nbytes : UInt32) (as : List Nat)
  /-- a call of `free` for a block that is live -/
  | free (bp : Nat)

/-- One call; none where a loop does not end, or where the block is not live. -/
def Heap.step (h : Heap) : Act → Option Heap
  | .malloc nbytes as => (h.malloc nbytes as).map Prod.fst
  | .free bp =>
    if bp ∈ h.live.map Prod.fst then
      (h.free bp).map fun h => { h with live := h.live.filter fun b => b.1 ≠ bp }
    else none

/-- Before the first call: the heap begins above the program's own memory, where `base` is. -/
structure Initial (h : Heap) : Prop where
  base : 0 < h.base
  above : h.base + UNIT ≤ h.brk
  brk : h.brk < 2 ^ 32
  freep : h.freep = 0
  regions : h.regions = []
  live : h.live = []

/-- A run of calls. -/
def HeapRun (G : Heap → Act → Prop) (h : Heap) : Prop :=
  ∃ h₀, Initial h₀ ∧ Support.Run (fun h a h' => Heap.step h a = some h') G h₀ h

end Xv6.Malloc
