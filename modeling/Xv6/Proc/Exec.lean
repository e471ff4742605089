import Xv6.Proc.Calls

/-!
# Proc — exec (`exec.c`)

`exec` reads an ELF image into a new page directory, pushes the arguments, and only then puts the
directory in the process.  The old directory is freed unless the caller is a thread.

The file is given by its bytes (`none` where `namei` fails).  A path through the source to `bad`
is a `none` here, with the new directory freed by `exec` itself.
-/

namespace Xv6.Kern

open Vm (Page Mem File)

/-- A little-endian field of a header: `n` bytes at offset `o`. -/
def field (l : List UInt8) (o n : Nat) : Nat :=
  ((l.drop o).take n).foldr (fun b a => b.toNat + 256 * a) 0

/-- `readi(ip, buf, off, n) == n` -/
def readExact (f : File) (off n : Nat) : Option (List UInt8) :=
  match f.readi off n with
  | some l => if l.length = n then some l else none
  | none => none

/-- Load program into memory: the loop over the program headers, `n` of them left. -/
def loadSegs (d : Page) (f : File) : Nat → Nat → Nat → Mem → Except Stop (Option Nat × Mem)
  | 0, _, sz, m => .ok (some sz, m)
  | n + 1, off, sz, m =>
    match readExact f off 32 with
    | none => .ok (none, m)
    | some ph =>
      let vaddr := field ph 8 4
      let filesz := field ph 16 4
      let memsz := field ph 20 4
      if field ph 0 4 ≠ 1 then loadSegs d f n ((off + 32) % 2 ^ 32) sz m
      else if memsz < filesz then .ok (none, m)
      else if 2 ^ 32 ≤ vaddr + memsz then .ok (none, m)
      else do
        let (sz, m) ← Vm.allocuvm m d sz (vaddr + memsz)
        if sz = 0 then .ok (none, m)
        else if vaddr % PGSIZE ≠ 0 then .ok (none, m)
        else
          match ← Vm.loaduvm m d vaddr f (field ph 4 4) filesz with
          | (false, m) => .ok (none, m)
          | (true, m) => loadSegs d f n ((off + 32) % 2 ^ 32) sz m

/-- Push argument strings: the stack pointer and the addresses of the strings so far. -/
def pushArgs (d : Page) : List (List UInt8) → Nat → List Nat → Mem →
    Except Stop (Option (Nat × List Nat) × Mem)
  | [], sp, ptrs, m => .ok (some (sp, ptrs), m)
  | a :: as, sp, ptrs, m =>
    if MAXARG ≤ ptrs.length then .ok (none, m)
    else do
      let sp := (sp + 2 ^ 32 - (a.length + 1) % 2 ^ 32) % 2 ^ 32 / 4 * 4
      match ← Vm.copyout m d sp (a ++ [0]) with
      | (false, m) => .ok (none, m)
      | (true, m) => pushArgs d as sp (ptrs ++ [sp]) m

/-- The user stack of the new image: its size, the stack pointer, or `none` at `bad`. -/
def buildStack (d : Page) (argv : List (List UInt8)) (sz : Nat) (m : Mem) :
    Except Stop (Option (Nat × Nat) × Mem) := do
  let base := Vm.pageUp sz * PGSIZE % 2 ^ 32
  let (sz, m) ← Vm.allocuvm m d base ((base + 2 * PGSIZE) % 2 ^ 32)
  if sz = 0 then .ok (none, m)
  else
    let m ← Vm.clearpteu m d ((sz - 2 * PGSIZE) / PGSIZE)
    match ← pushArgs d argv sz [] m with
    | (none, m) => .ok (none, m)
    | (some (sp, ptrs), m) =>
      let argc := ptrs.length
      let ustack := [0xffffffff, argc, (sp + 2 ^ 32 - (argc + 1) * 4) % 2 ^ 32] ++ ptrs ++ [0]
      let sp := (sp + 2 ^ 32 - (3 + argc + 1) * 4) % 2 ^ 32
      match ← Vm.copyout m d sp (ustack.flatMap Vm.wordBytes) with
      | (false, m) => .ok (none, m)
      | (true, m) => .ok (some (sz, sp), m)

/-- The two pages of `buildStack`, the lower one made inaccessible. -/
def stackPages (d : Page) (sz : Nat) (m : Mem) : Except Stop (Option Nat × Mem) := do
  let base := Vm.pageUp sz * PGSIZE % 2 ^ 32
  let (sz, m) ← Vm.allocuvm m d base ((base + 2 * PGSIZE) % 2 ^ 32)
  if sz = 0 then .ok (none, m)
  else
    let m ← Vm.clearpteu m d ((sz - 2 * PGSIZE) / PGSIZE)
    .ok (some sz, m)

/-- What `buildStack` puts in them: the strings and the frame; the stack pointer. -/
def pushStack (d : Page) (argv : List (List UInt8)) (sz : Nat) (m : Mem) :
    Except Stop (Option Nat × Mem) := do
  match ← pushArgs d argv sz [] m with
  | (none, m) => .ok (none, m)
  | (some (sp, ptrs), m) =>
    let argc := ptrs.length
    let ustack := [0xffffffff, argc, (sp + 2 ^ 32 - (argc + 1) * 4) % 2 ^ 32] ++ ptrs ++ [0]
    let sp := (sp + 2 ^ 32 - (3 + argc + 1) * 4) % 2 ^ 32
    match ← Vm.copyout m d sp (ustack.flatMap Vm.wordBytes) with
    | (false, m) => .ok (none, m)
    | (true, m) => .ok (some sp, m)

/-- The segments of a file, and the pages of the stack. -/
def loadPart (d : Page) (f : File) (elf : List UInt8) (m : Mem) :
    Except Stop (Option Nat × Mem) := do
  match ← loadSegs d f (field elf 44 2) (field elf 28 4) 0 m with
  | (none, m) => .ok (none, m)
  | (some sz, m) => stackPages d sz m

theorem buildStack_eq (d : Page) (argv : List (List UInt8)) (sz : Nat) (m : Mem) :
    buildStack d argv sz m = stackPages d sz m >>= fun r => match r with
      | (none, m) => .ok (none, m)
      | (some sz, m) => (pushStack d argv sz m).map fun r => (r.1.map (sz, ·), r.2) := by
  rw [buildStack, stackPages]
  rcases Vm.allocuvm m d _ _ with _ | ⟨sz, m⟩
  · rfl
  simp only [bind, Except.bind]
  split
  · rfl
  rcases Vm.clearpteu m d _ with _ | m
  · rfl
  simp only [pushStack, bind, Except.bind]
  rcases pushArgs d argv sz [] m with _ | ⟨_ | ⟨sp, ptrs⟩, m⟩
  · rfl
  · rfl
  simp only
  rcases Vm.copyout m d _ _ with _ | ⟨_ | _, m⟩ <;> rfl

/-- The new image of a process. -/
structure Image where
  pgdir : Page
  sz : Nat
  entry : Nat
  esp : Nat

/-- `exec` up to its commit: the image, or `none` at `bad`, where the new directory is freed. -/
def buildImage (m : Mem) (file : Option File) (argv : List (List UInt8)) :
    Except Stop (Option Image × Mem) :=
  match file.bind fun f => (readExact f 0 52).map (f, ·) with
  | none => .ok (none, m)
  | some (f, elf) =>
    if field elf 0 4 ≠ 0x464C457F then .ok (none, m)
    else do
      match ← Vm.setupkvm m with
      | (none, m) => .ok (none, m)
      | (some d, m) => do
        let (built, m) ←
          match ← loadSegs d f (field elf 44 2) (field elf 28 4) 0 m with
          | (none, m) => .ok (none, m)
          | (some sz, m) => buildStack d argv sz m
        match built with
        | some (sz, esp) => .ok (some ⟨d, sz, field elf 24 4, esp⟩, m)
        | none => do
          let m ← Vm.freevm m d
          .ok (none, m)

/-- `kill_lwpgroup`: the other threads of the process with this pid. -/
def killLwpgroup (k : Kernel) (pid : Nat) (np : Slot) : Kernel :=
  if (k.ptable np).isthread then
    { k with ptable := fun s =>
        let p := k.ptable s
        if p.isthread ∧ (p.mother.map fun q => (k.ptable q).pid) = some pid ∧
            p.pid ≠ (k.ptable np).pid then
          { p with killed := true, state := if p.state = .sleeping then .runnable else p.state }
        else p }
  else k

/-- Save program name for debugging: what follows the last slash, cut to fit. -/
def baseName (path : String) : String := (((path.splitOn "/").getLast?).getD "").take 15 |>.toString

/-- Commit to the user image. -/
def execCommit (k : Kernel) (cur : Slot) (name : String) (im : Image) : Except Stop Kernel := do
  let old := (k.ptable cur).pgdir
  let k := k.set cur fun p =>
    { p with
      name
      pgdir := some im.pgdir
      sz := im.sz
      tf := { p.tf with eip := im.entry, esp := im.esp } }
  if (k.ptable cur).isthread then .ok k
  else
    match old with
    | none => .error (.panic "freevm: no pgdir")
    | some d => do
      let m ← Vm.freevm k.mem d
      .ok (k.setMem m)

/-- A thread that calls `exec` first kills the other threads of its process. -/
def execKill (k : Kernel) (cur : Slot) : Except Stop Kernel :=
  if (k.ptable cur).isthread then
    match (k.ptable cur).mother with
    | none => .error .fault
    | some q => do
      acquire k
      .ok (killLwpgroup k (k.ptable q).pid cur)
  else .ok k

def exec (k : Kernel) (cur : Slot) (path : String) (file : Option File)
    (argv : List (List UInt8)) : Except Stop (Int × Kernel) := do
  let k ← execKill k cur
  match ← buildImage k.mem file argv with
  | (none, m) => .ok (-1, k.setMem m)
  | (some im, m) => do
    let k ← execCommit (k.setMem m) cur (baseName path) im
    .ok (0, k)

end Xv6.Kern
