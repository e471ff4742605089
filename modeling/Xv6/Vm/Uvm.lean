import Xv6.Param
import Xv6.Support.Words

/-!
# Vm — physical pages and page directories (`kalloc.c`, `vm.c`)

The pages of the allocator, numbered; the free list; and the two-level page tables built from
them.  A page directory is known by the page it lies in, as a `pde_t *` is, so that two processes
may hold the same one and a process may go on holding one that has been freed.

The kernel part of a directory is the same in each, and only its page tables count: `PHYSTOP`
and `DEVSPACE` lie on the boundary of a page table, so each of them is full (`kvmTables`).  A user
entry names its page and carries `PTE_W` and `PTE_U`.

A function stops (`Stop`) where the source panics, and where it would use memory that has been
freed: there the C is undefined, and the model has no next state.  Only a second `freevm` of a
directory goes on, with nothing done, so that the states after it show that it was called.
Addresses are in pages (`vpn`) where the source keeps them aligned, and sizes are in bytes, below
`2 ^ 32`.
-/

namespace Xv6

open Function (update)

open Support (Bytes putBytes)

namespace Vm

/-- A page of the allocator. -/
abbrev Page := Nat

/-- A present page-table entry: a mapping of `kmap`, or a user page. -/
inductive Pte where
  | kern
  | user (page : Page) (w u : Bool)
  deriving DecidableEq

/-- A page table: the page it lies in and its present entries, by `PTX`. -/
structure PageTab where
  page : Page
  pte : Nat → Option Pte

/-- A page directory: its present page tables, by `PDX`. -/
abbrev PageDir := Nat → Option PageTab

/-- The entry of a virtual page. -/
def PageDir.pte (D : PageDir) (vpn : Nat) : Option Pte :=
  (D (vpn / NPTENTRIES)).bind fun T => T.pte (vpn % NPTENTRIES)

/-- What has happened to a page directory. -/
inductive DirEvent where
  | made (d : Page)
  | freed (d : Page)
  deriving DecidableEq

/-- `kmem.freelist`, the contents of the pages, and which of them hold a page directory.
`history` records, the latest first, the directories `setupkvm` made and `freevm` was called on;
no function reads it. -/
structure Mem where
  freelist : List Page
  data : Page → Bytes
  dirs : Page → Option PageDir
  history : List DirEvent

/-! ### The allocator -/

def kalloc (m : Mem) : Option Page × Mem :=
  match m.freelist with
  | [] => (none, m)
  | r :: rest => (some r, { m with freelist := rest })

/-- A page that is free already makes the C's list circular. -/
def kfree (m : Mem) (p : Page) : Except Stop Mem :=
  if p ∈ m.freelist then .error .fault
  else .ok { m with
    freelist := p :: m.freelist
    data := update m.data p fun _ => 1
    dirs := update m.dirs p none }

def memset (m : Mem) (p : Page) (b : UInt8) : Mem :=
  { m with data := update m.data p fun _ => b }

def Mem.setDir (m : Mem) (d : Page) (D : PageDir) : Mem :=
  { m with dirs := update m.dirs d (some D) }

/-- The directory at `d`, read through a pointer. -/
def Mem.dir (m : Mem) (d : Page) : Except Stop PageDir :=
  match m.dirs d with
  | some D => .ok D
  | none => .error .fault

/-! ### Walking and mapping -/

/-- The page table a virtual page belongs to; with `alloc`, one is made where there is none. -/
def walkpgdir (m : Mem) (d : Page) (vpn : Nat) (alloc : Bool) :
    Except Stop (Option PageTab × Mem) := do
  let D ← m.dir d
  match D (vpn / NPTENTRIES) with
  | some T => .ok (some T, m)
  | none =>
    if alloc then
      match kalloc m with
      | (none, m) => .ok (none, m)
      | (some t, m) =>
        let T : PageTab := ⟨t, fun _ => none⟩
        .ok (some T, (memset m t 0).setDir d (update D (vpn / NPTENTRIES) (some T)))
    else .ok (none, m)

/-- Overwrite the entry of a virtual page whose page table is `T`. -/
def setPte (m : Mem) (d : Page) (vpn : Nat) (T : PageTab) (e : Option Pte) : Except Stop Mem := do
  let D ← m.dir d
  .ok (m.setDir d (update D (vpn / NPTENTRIES)
    (some { T with pte := update T.pte (vpn % NPTENTRIES) e })))

/-- `mappages` of one page, the way every caller but `setupkvm` calls it. -/
def mappages (m : Mem) (d : Page) (vpn : Nat) (e : Pte) : Except Stop (Bool × Mem) := do
  match ← walkpgdir m d vpn true with
  | (none, m) => .ok (false, m)
  | (some T, m) =>
    match T.pte (vpn % NPTENTRIES) with
    | some _ => .error (.panic "remap")
    | none => do
      let m ← setPte m d vpn T (some e)
      .ok (true, m)

/-! ### Shrinking and freeing -/

/-- The loop of `deallocuvm` from page `vpn`, over `n` pages at most; it leaps over the rest of a
page table that is not there. -/
def deallocLoop (m : Mem) (d : Page) (oldsz : Nat) : Nat → Nat → Except Stop Mem
  | 0, _ => .ok m
  | n + 1, vpn =>
    if vpn * PGSIZE < oldsz then do
      match ← walkpgdir m d vpn false with
      | (none, m) => deallocLoop m d oldsz n ((vpn / NPTENTRIES + 1) * NPTENTRIES)
      | (some T, m) =>
        match T.pte (vpn % NPTENTRIES) with
        | none => deallocLoop m d oldsz n (vpn + 1)
        | some .kern => .error (.panic "kfree")
        | some (.user p _ _) => do
          let m ← kfree m p
          let m ← setPte m d vpn T none
          deallocLoop m d oldsz n (vpn + 1)
    else .ok m

/-- The number of the first page at or above an address: `PGROUNDUP`, in pages. -/
def pageUp (a : Nat) : Nat := (a + (PGSIZE - 1)) / PGSIZE

def deallocuvm (m : Mem) (d : Page) (oldsz newsz : Nat) : Except Stop (Nat × Mem) :=
  if oldsz ≤ newsz then .ok (oldsz, m)
  else do
    let m ← deallocLoop m d oldsz (pageUp oldsz) (pageUp newsz)
    .ok (newsz, m)

/-- The second loop of `freevm`: the page tables, in order. -/
def freeTabs (D : PageDir) : List Nat → Mem → Except Stop Mem
  | [], m => .ok m
  | i :: is, m =>
    match D i with
    | none => freeTabs D is m
    | some T => do
      let m ← kfree m T.page
      freeTabs D is m

/-- `freevm`.  Where `d` holds no directory any more the record of the call is all that is left. -/
def freevm (m : Mem) (d : Page) : Except Stop Mem :=
  let m := { m with history := .freed d :: m.history }
  match m.dirs d with
  | none => .ok m
  | some _ => do
    let (_, m) ← deallocuvm m d KERNBASE 0
    let D ← m.dir d
    let m ← freeTabs D (List.range NPDENTRIES) m
    kfree m d

/-! ### Building -/

/-- The page tables of `kmap`: `KERNBASE` to `KERNBASE + PHYSTOP`, and `DEVSPACE` to the top. -/
def kvmTables : List Nat := List.range' 512 56 ++ List.range' 1016 8

/-- The loop of `setupkvm` over `kmap`, a page table at a time. -/
def mapKvm (d : Page) : List Nat → Mem → Except Stop (Bool × Mem)
  | [], m => .ok (true, m)
  | i :: is, m => do
    match ← walkpgdir m d (i * NPTENTRIES) true with
    | (none, m) => .ok (false, m)
    | (some T, m) => do
      let D ← m.dir d
      mapKvm d is (m.setDir d (update D i (some { T with pte := fun _ => some .kern })))

def setupkvm (m : Mem) : Except Stop (Option Page × Mem) :=
  match kalloc m with
  | (none, m) => .ok (none, m)
  | (some d, m) => do
    let m := { (memset m d 0).setDir d fun _ => none with history := .made d :: m.history }
    match ← mapKvm d kvmTables m with
    | (true, m) => .ok (some d, m)
    | (false, m) => do
      let m ← freevm m d
      .ok (none, m)

/-- The loop of `allocuvm` from page `vpn`, over `n` pages at most; on a failure it gives back
what lies between `oldsz` and `newsz`. -/
def allocLoop (d : Page) (oldsz newsz : Nat) : Nat → Nat → Mem → Except Stop (Nat × Mem)
  | 0, _, m => .ok (newsz, m)
  | n + 1, vpn, m =>
    if vpn * PGSIZE < newsz then
      match kalloc m with
      | (none, m) => do
        let (_, m) ← deallocuvm m d newsz oldsz
        .ok (0, m)
      | (some p, m) => do
        match ← mappages (memset m p 0) d vpn (.user p true true) with
        | (true, m) => allocLoop d oldsz newsz n (vpn + 1) m
        | (false, m) => do
          let (_, m) ← deallocuvm m d newsz oldsz
          let m ← kfree m p
          .ok (0, m)
    else .ok (newsz, m)

def allocuvm (m : Mem) (d : Page) (oldsz newsz : Nat) : Except Stop (Nat × Mem) :=
  if KERNBASE ≤ newsz then .ok (0, m)
  else if newsz < oldsz then .ok (oldsz, m)
  else allocLoop d oldsz newsz (pageUp newsz) (pageUp oldsz) m

/-- The loop of `copyuvm` from page `vpn`, over `n` pages at most. -/
def copyLoop (src d : Page) (sz : Nat) : Nat → Nat → Mem → Except Stop (Bool × Mem)
  | 0, _, m => .ok (true, m)
  | n + 1, vpn, m =>
    if vpn * PGSIZE < sz then do
      match ← walkpgdir m src vpn false with
      | (none, _) => .error (.panic "copyuvm: pte should exist")
      | (some T, m) =>
        match T.pte (vpn % NPTENTRIES) with
        | none => .error (.panic "copyuvm: page not present")
        | some e =>
          match kalloc m with
          | (none, m) => .ok (false, m)
          | (some p, m) => do
            -- the same flags; a kernel entry is in the copy already
            let (bytes, e') := match e with
              | .user q w u => (m.data q, Pte.user p w u)
              | .kern => (fun _ => 0, Pte.user p true false)
            let m := { m with data := update m.data p bytes }
            match ← mappages m d vpn e' with
            | (true, m) => copyLoop src d sz n (vpn + 1) m
            | (false, m) => do
              let m ← kfree m p
              .ok (false, m)
    else .ok (true, m)

def copyuvm (m : Mem) (src : Page) (sz : Nat) : Except Stop (Option Page × Mem) := do
  match ← setupkvm m with
  | (none, m) => .ok (none, m)
  | (some d, m) =>
    match ← copyLoop src d sz (pageUp sz) 0 m with
    | (true, m) => .ok (some d, m)
    | (false, m) => do
      let m ← freevm m d
      .ok (none, m)

/-! ### User memory -/

def Mem.put (m : Mem) (p : Page) (o : Nat) (l : List UInt8) : Mem :=
  { m with data := update m.data p (putBytes (m.data p) o l) }

/-- `*pte` is read also where `walkpgdir` has returned 0. -/
def uva2ka (m : Mem) (d : Page) (vpn : Nat) : Except Stop (Option Page) := do
  match ← walkpgdir m d vpn false with
  | (none, _) => .error .fault
  | (some T, _) =>
    match T.pte (vpn % NPTENTRIES) with
    | some (.user p _ true) => .ok (some p)
    | _ => .ok none

/-- The loop of `copyout`, a page at a time. -/
def copyoutLoop (d : Page) : Nat → Nat → List UInt8 → Mem → Except Stop (Bool × Mem)
  | _, _, [], m => .ok (true, m)
  | 0, _, _, m => .ok (true, m)
  | fuel + 1, va, buf, m => do
    match ← uva2ka m d (va / PGSIZE) with
    | none => .ok (false, m)
    | some p =>
      let n := min (PGSIZE - va % PGSIZE) buf.length
      copyoutLoop d fuel ((va / PGSIZE + 1) * PGSIZE % 2 ^ 32) (buf.drop n)
        (m.put p (va % PGSIZE) (buf.take n))

def copyout (m : Mem) (d : Page) (va : Nat) (buf : List UInt8) : Except Stop (Bool × Mem) :=
  copyoutLoop d buf.length va buf m

/-- The bytes of a word, the lowest first. -/
def wordBytes (w : Nat) : List UInt8 := (List.range 4).map fun i => UInt8.ofNat (w / 256 ^ i)

def clearpteu (m : Mem) (d : Page) (vpn : Nat) : Except Stop Mem := do
  match ← walkpgdir m d vpn false with
  | (none, _) => .error (.panic "clearpteu")
  | (some T, m) =>
    match T.pte (vpn % NPTENTRIES) with
    | some (.user p w _) => setPte m d vpn T (some (.user p w false))
    | _ => .ok m

/-- A regular file, as `readi` sees it. -/
structure File where
  size : Nat
  data : Nat → UInt8

/-- The bytes `readi` delivers; `none` is its -1. -/
def File.readi (f : File) (off n : Nat) : Option (List UInt8) :=
  if f.size < off ∨ 2 ^ 32 ≤ off + n then none
  else some ((List.range (min n (f.size - off))).map fun i => f.data (off + i))

/-- The loop of `loaduvm` from the offset `i` on, over `n` pages at most. -/
def loadLoop (d : Page) (addr : Nat) (f : File) (off sz : Nat) :
    Nat → Nat → Mem → Except Stop (Bool × Mem)
  | 0, _, m => .ok (true, m)
  | n + 1, i, m =>
    if i < sz then do
      match ← walkpgdir m d ((addr + i) / PGSIZE) false with
      | (none, _) => .error (.panic "loaduvm: address should exist")
      | (some T, m) =>
        match T.pte ((addr + i) / PGSIZE % NPTENTRIES) with
        | some (.user p _ _) =>
          let len := min (sz - i) PGSIZE
          match f.readi ((off + i) % 2 ^ 32) len with
          | none => .ok (false, m)
          | some buf =>
            let m := m.put p 0 buf
            if buf.length = len then loadLoop d addr f off sz n (i + PGSIZE) m
            else .ok (false, m)
        | _ => .error .fault
    else .ok (true, m)

def loaduvm (m : Mem) (d : Page) (addr : Nat) (f : File) (off sz : Nat) :
    Except Stop (Bool × Mem) :=
  if addr % PGSIZE ≠ 0 then .error (.panic "loaduvm: addr must be page aligned")
  else loadLoop d addr f off sz (pageUp sz) 0 m

def inituvm (m : Mem) (d : Page) (init : List UInt8) : Except Stop Mem :=
  if PGSIZE ≤ init.length then .error (.panic "inituvm: more than a page")
  else match kalloc m with
    | (none, _) => .error .fault
    | (some p, m) => do
      let (_, m) ← mappages (memset m p 0) d 0 (.user p true true)
      .ok (m.put p 0 init)

end Vm

end Xv6
