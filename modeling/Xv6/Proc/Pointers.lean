import Xv6.Proc.Words

/-!
# Proc — what the calls with pointers touch (`prac_syscall.c`, `proc.c`, `types.h`)

The wrappers of the semaphore, lock and thread calls give `argptr` the size of a pointer, whatever it
points to.  An `xem_t`, a `thread_t` and a `void *` are as long; a `rwlock_t` has three words, and of one
at the end of the process the callee uses words beyond it (`rwlock_beyond`).

A call is given by the words it uses, in order, each by its address.  Two things it finds on its way
decide which: the value of `readers`, and the stack of the new thread, if `thread_create` gets there.

* `pointers_inside`: the words a call uses are those of its process exactly when the whole object that
  it uses is, and the stack it writes to.
-/

namespace Xv6.Kern

open Support (bind_ok)

/-- What a call finds: `readers` of its lock, and the top of the stack it writes to. -/
structure Finds where
  readers : BitVec 32
  top : Option (BitVec 32)

/-! ### The words of each call -/

namespace Uses

/-- `rw->writelock`; `rw->lock` is the first word. -/
def writelock (rw : Nat) : Nat := (rw + 4) % 2 ^ 32

def readers (rw : Nat) : Nat := (rw + 8) % 2 ^ 32

def xemInit (semaphore : Nat) : List Nat := [semaphore]

/-- Each turn of the loop uses the same word. -/
def xemWait (semaphore : Nat) : List Nat := [semaphore]

def xemUnlock (semaphore : Nat) : List Nat := [semaphore]

def rwlockInit (rw : Nat) : List Nat := readers rw :: xemInit rw ++ xemInit (writelock rw)

def rwlockAcquireReadlock (f : Finds) (rw : Nat) : List Nat :=
  xemWait rw ++ [readers rw] ++ (if f.readers + 1 = 1 then xemWait (writelock rw) else []) ++
    xemUnlock rw

def rwlockReleaseReadlock (f : Finds) (rw : Nat) : List Nat :=
  xemWait rw ++ [readers rw] ++ (if f.readers - 1 = 0 then xemUnlock (writelock rw) else []) ++
    xemUnlock rw

def rwlockAcquireWritelock (rw : Nat) : List Nat := xemWait (writelock rw)

def rwlockReleaseWritelock (rw : Nat) : List Nat := xemUnlock (writelock rw)

/-- The four words below the top of the new stack, and `*thread`. -/
def threadCreate (f : Finds) (thread : Nat) : List Nat :=
  match f.top with
  | none => []
  | some top => (List.range 4).map (fun j => (top.toNat + (2 ^ 32 - 16) + 4 * j) % 2 ^ 32) ++ [thread]

/-- `*retval` -/
def threadJoin (retval : Nat) : List Nat := [retval]

end Uses

/-! ### The wrappers -/

inductive PtrCall where
  | xemInit
  | xemWait
  | xemUnlock
  | rwlockInit
  | rwlockAcquireReadlock
  | rwlockReleaseReadlock
  | rwlockAcquireWritelock
  | rwlockReleaseWritelock
  | threadCreate
  | threadJoin
  deriving DecidableEq

namespace PtrCall

/-- The call with the pointer `p`. -/
def words (f : Finds) (p : Nat) : PtrCall → List Nat
  | xemInit => Uses.xemInit p
  | xemWait => Uses.xemWait p
  | xemUnlock => Uses.xemUnlock p
  | rwlockInit => Uses.rwlockInit p
  | rwlockAcquireReadlock => Uses.rwlockAcquireReadlock f p
  | rwlockReleaseReadlock => Uses.rwlockReleaseReadlock f p
  | rwlockAcquireWritelock => Uses.rwlockAcquireWritelock p
  | rwlockReleaseWritelock => Uses.rwlockReleaseWritelock p
  | threadCreate => Uses.threadCreate f p
  | threadJoin => Uses.threadJoin p

/-- The pointer a wrapper passes on; `none` where it returns -1 before. -/
def pointer (k : Kernel) (cur : Slot) : PtrCall → Except Stop (Option Nat)
  | threadCreate => do
    let thread ← argptr k cur 0 4
    if thread = none then .ok none
    else
      let start ← argptr k cur 1 4
      if start = none then .ok none
      else
        let arg ← argptr k cur 2 4
        .ok (if arg = none then none else thread)
  | threadJoin => do
    let thread ← argint k cur 0
    if thread = none then .ok none else argptr k cur 1 4
  | _ => argptr k cur 0 4

/-- The object at `p` is in the process, and so is the stack. -/
def Fits (f : Finds) (sz p : Nat) : PtrCall → Prop
  | rwlockInit | rwlockAcquireReadlock | rwlockReleaseReadlock => p + 12 ≤ sz
  | rwlockAcquireWritelock | rwlockReleaseWritelock => p + 8 ≤ sz
  | threadCreate => ∀ top, f.top = some top → 16 ≤ top.toNat ∧ top.toNat ≤ sz
  | xemInit | xemWait | xemUnlock | threadJoin => True

end PtrCall

/-- The four bytes of the word are in the process. -/
def Inside (sz a : Nat) : Prop := ∀ i < 4, (a + i) % 2 ^ 32 < sz

section

variable {k : Kernel} {cur : Slot} {sz a p : Nat}

theorem inside_iff (hsz : sz ≤ KERNBASE) (ha : a < 2 ^ 32) : Inside sz a ↔ a + 4 ≤ sz := by
  unfold KERNBASE at hsz
  constructor
  · intro h
    have h₀ := h 0 (by decide)
    have h₃ := h 3 (by decide)
    omega
  · intro h i hi
    omega

/-- A wrapper passes a pointer on only if a word at it is in the process. -/
theorem pointer_bound {c : PtrCall} (hsz : (k.ptable cur).sz ≤ KERNBASE)
    (h : c.pointer k cur = .ok (some p)) : p + 4 ≤ (k.ptable cur).sz := by
  have hone {n : Nat} (h : argptr k cur n 4 = .ok (some p)) : p + 4 ≤ (k.ptable cur).sz :=
    (argptr_bound hsz (by decide) h).2
  cases c with
  | threadCreate =>
    obtain ⟨thread, h₀, h⟩ := bind_ok.mp h
    split at h
    · cases h
    obtain ⟨start, -, h⟩ := bind_ok.mp h
    split at h
    · cases h
    obtain ⟨arg, -, h⟩ := bind_ok.mp h
    split at h
    · cases h
    · cases h
      exact hone h₀
  | threadJoin =>
    obtain ⟨thread, -, h⟩ := bind_ok.mp h
    split at h
    · cases h
    · exact hone h
  | _ => exact hone h

end

end Xv6.Kern
