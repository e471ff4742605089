import Xv6.Proc.Table
import Xv6.Vm.Works

/-!
# Proc — arguments of system calls (`syscall.c`)

`fetchint`, `fetchstr`, `argint`, `argptr` and `argstr`.  They test an address against the size of the
process and nothing else, and then read through the page directory: a page that is not there is a
trap in the kernel.  Where every page below the size is a user page, what they accept is user memory
(`accepted_user`).

The contents of the kernel's own memory are not part of the model; a read of it stops like a read of
a page that is not there.
-/

namespace Xv6.Kern

open Support (bind_ok)
open Vm (Page Mem Full Mapped)

/-- A load by the kernel through a user address. -/
def peek (m : Mem) (d : Page) (va : Nat) : Except Stop UInt8 := do
  let D ← m.dir d
  match D.pte (va / PGSIZE) with
  | some (.user p _ _) => .ok (m.data p (va % PGSIZE))
  | _ => .error (.panic "trap")

/-- The loads of the bytes of a word, the lowest first. -/
def peekBytes (m : Mem) (d : Page) : Nat → Nat → Except Stop (List UInt8)
  | 0, _ => .ok []
  | n + 1, va => do
    let b ← peek m d va
    let bs ← peekBytes m d n ((va + 1) % 2 ^ 32)
    .ok (b :: bs)

/-- The word the bytes make. -/
def wordOf (bs : List UInt8) : Nat := bs.foldr (fun b a => b.toNat + 256 * a) 0

/-- Fetch the int at addr from the current process; `none` is -1. -/
def fetchint (k : Kernel) (cur : Slot) (addr : Nat) : Except Stop (Option Nat) := do
  let sz := (k.ptable cur).sz
  if sz ≤ addr ∨ sz < (addr + 4) % 2 ^ 32 then .ok none
  else
    let d ← pgdirOf k cur
    let bs ← peekBytes k.mem d 4 addr
    .ok (some (wordOf bs))

/-- The loop of `fetchstr` over `n` bytes from `s` on: where the nul is. -/
def scanStr (m : Mem) (d : Page) : Nat → Nat → Except Stop (Option Nat)
  | 0, _ => .ok none
  | n + 1, s => do
    let b ← peek m d s
    if b = 0 then .ok (some s) else scanStr m d n (s + 1)

/-- Fetch the nul-terminated string at addr from the current process: its length, not including
nul. -/
def fetchstr (k : Kernel) (cur : Slot) (addr : Nat) : Except Stop (Option Nat) := do
  let sz := (k.ptable cur).sz
  if sz ≤ addr then .ok none
  else
    let d ← pgdirOf k cur
    let e ← scanStr k.mem d (sz - addr) addr
    .ok (e.map (· - addr))

/-- Fetch the nth 32-bit system call argument. -/
def argint (k : Kernel) (cur : Slot) (n : Nat) : Except Stop (Option Nat) :=
  fetchint k cur (((k.ptable cur).tf.esp + 4 + 4 * n) % 2 ^ 32)

/-- Fetch the nth word-sized system call argument as a pointer to a block of memory of size
bytes. -/
def argptr (k : Kernel) (cur : Slot) (n : Nat) (size : Int) : Except Stop (Option Nat) := do
  match ← argint k cur n with
  | none => .ok none
  | some i =>
    let sz := (k.ptable cur).sz
    if size < 0 ∨ sz ≤ i ∨ sz < (i + size.toNat) % 2 ^ 32 then .ok none else .ok (some i)

/-- Fetch the nth word-sized system call argument as a string pointer: the pointer and the
length. -/
def argstr (k : Kernel) (cur : Slot) (n : Nat) : Except Stop (Option (Nat × Nat)) := do
  match ← argint k cur n with
  | none => .ok none
  | some addr => do
    let len ← fetchstr k cur addr
    .ok (len.map (addr, ·))

/-! ### What they accept -/

/-- The bytes from `a` to `b` are user memory of the process, below the kernel. -/
def UserRange (k : Kernel) (cur : Slot) (a b : Nat) : Prop :=
  ∃ d, (k.ptable cur).pgdir = some d ∧
    ∀ x, a ≤ x → x < b → x < KERNBASE ∧ Mapped k.mem d (x / PGSIZE)

section

variable {k : Kernel} {cur : Slot} {d : Page}

theorem userRange_of_full (hdir : (k.ptable cur).pgdir = some d)
    (hfull : Full k.mem d (k.ptable cur).sz) (hsz : (k.ptable cur).sz ≤ KERNBASE) {a b : Nat}
    (hb : b ≤ (k.ptable cur).sz) : UserRange k cur a b := by
  refine ⟨d, hdir, fun x _ hx => ⟨by omega, hfull _ ?_⟩⟩
  have := Nat.div_mul_le_self x PGSIZE
  omega

theorem fetchint_bound {addr v : Nat} (hsz : (k.ptable cur).sz ≤ KERNBASE)
    (h : fetchint k cur addr = .ok (some v)) : addr + 4 ≤ (k.ptable cur).sz := by
  rw [fetchint] at h
  split at h
  · cases h
  · rename_i hno
    unfold KERNBASE at hsz
    omega

theorem scanStr_bound {m : Mem} {n s e : Nat} (h : scanStr m d n s = .ok (some e)) :
    s ≤ e ∧ e < s + n := by
  induction n generalizing s with
  | zero => cases h
  | succ n ih =>
    rw [scanStr] at h
    obtain ⟨b, -, h⟩ := bind_ok.mp h
    split at h
    · cases h
      omega
    · have := ih h
      omega

theorem fetchstr_bound {addr len : Nat} (h : fetchstr k cur addr = .ok (some len)) :
    addr + len < (k.ptable cur).sz := by
  rw [fetchstr] at h
  split at h
  · cases h
  obtain ⟨d, -, h⟩ := bind_ok.mp h
  obtain ⟨e, he, h⟩ := bind_ok.mp h
  obtain ⟨s, rfl, rfl⟩ := Option.map_eq_some_iff.mp (Except.ok.inj h)
  have := scanStr_bound he
  omega

theorem argptr_bound {n i : Nat} {size : Int} (hsz : (k.ptable cur).sz ≤ KERNBASE)
    (hsize : size < 2 ^ 31) (h : argptr k cur n size = .ok (some i)) :
    0 ≤ size ∧ i + size.toNat ≤ (k.ptable cur).sz := by
  rw [argptr] at h
  obtain ⟨o, -, h⟩ := bind_ok.mp h
  cases o with
  | none => cases h
  | some j =>
    simp only at h
    split at h
    · cases h
    · rename_i hno
      cases h
      unfold KERNBASE at hsz
      omega

/-- What `fetchint`, `argptr` and `argstr` accept is user memory, where every page below the size
is. -/
theorem accepted_user (hdir : (k.ptable cur).pgdir = some d)
    (hfull : Full k.mem d (k.ptable cur).sz) (hsz : (k.ptable cur).sz ≤ KERNBASE) :
    (∀ addr v, fetchint k cur addr = .ok (some v) → UserRange k cur addr (addr + 4)) ∧
      (∀ n (size : BitVec 32) i, argptr k cur n size.toInt = .ok (some i) →
        UserRange k cur i (i + size.toInt.toNat)) ∧
      ∀ n addr len, argstr k cur n = .ok (some (addr, len)) →
        UserRange k cur addr (addr + len + 1) := by
  refine ⟨fun addr v h => ?_, fun n size i h => ?_, fun n addr len h => ?_⟩
  · exact userRange_of_full hdir hfull hsz (fetchint_bound hsz h)
  · exact userRange_of_full hdir hfull hsz (argptr_bound hsz BitVec.toInt_lt h).2
  rw [argstr] at h
  obtain ⟨o, -, h⟩ := bind_ok.mp h
  cases o with
  | none => cases h
  | some a =>
    obtain ⟨l, hl, h⟩ := bind_ok.mp h
    obtain ⟨l', rfl, he⟩ := Option.map_eq_some_iff.mp (Except.ok.inj h)
    cases he
    exact userRange_of_full hdir hfull hsz (fetchstr_bound hl)

end

end Xv6.Kern
