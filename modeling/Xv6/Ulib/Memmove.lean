import Xv6.Support.Words
import Mathlib

/-!
# Ulib — `memmove` (`ulib.c`, `string.c`)

There are two functions of this name.  Where the destination begins inside the source the kernel's
copies from the end; that of the user library always copies from the beginning.  The first leaves
the bytes of the source at the destination, however the two overlap (`kernel_moved`).

The bytes that a caller names exist, so that addresses do not wrap around.  The length has 32 bits:
the kernel takes it for a `uint`, the user library for an `int`.

* `memmove_agree`: **where the two functions agree**.
-/

namespace Xv6.Memmove

open Function (update update_self update_of_ne update_apply)
open Support (Bytes)

/-- `while(n-- > 0) *dst++ = *src++;` -/
def copyUp : Nat → Bytes → Nat → Nat → Bytes
  | 0, m, _, _ => m
  | n + 1, m, dst, src => copyUp n (update m dst (m src)) (dst + 1) (src + 1)

/-- `while(n-- > 0) *--dst = *--src;` -/
def copyDown : Nat → Bytes → Nat → Nat → Bytes
  | 0, m, _, _ => m
  | n + 1, m, dst, src => copyDown n (update m (dst - 1) (m (src - 1))) (dst - 1) (src - 1)

/-- `memmove` of `string.c` -/
def kernel (m : Bytes) (dst src : Nat) (n : BitVec 32) : Bytes :=
  if src < dst ∧ src + n.toNat > dst then copyDown n.toNat m (dst + n.toNat) (src + n.toNat)
  else copyUp n.toNat m dst src

/-- `memmove` of `ulib.c` -/
def user (m : Bytes) (dst src : Nat) (n : BitVec 32) : Bytes := copyUp n.toInt.toNat m dst src

/-- What a copy is for: the bytes that were at `src` are at `dst`, and nothing else has changed. -/
def moved (m : Bytes) (dst src n : Nat) : Bytes := fun a =>
  if dst ≤ a ∧ a < dst + n then m (src + (a - dst)) else m a

variable {m : Bytes} {dst src n a : Nat}

theorem moved_zero : moved m dst src 0 = m := by
  funext a
  grind [moved]

theorem moved_self : moved m src src n = m := by
  funext a
  grind [moved]

/-- From the beginning, where no byte is overwritten before it is read. -/
theorem copyUp_moved (h : ¬ (src < dst ∧ dst < src + n)) :
    copyUp n m dst src = moved m dst src n := by
  induction n generalizing m dst src with
  | zero => exact moved_zero.symm
  | succ n ih =>
    rw [copyUp, ih (by omega)]
    funext a
    grind [moved, update_apply]

/-- From the end, where the destination is not below the source. -/
theorem copyDown_moved (h : src ≤ dst) : copyDown n m (dst + n) (src + n) = moved m dst src n := by
  induction n generalizing m with
  | zero => exact moved_zero.symm
  | succ n ih =>
    rw [copyDown, ← Nat.add_assoc, ← Nat.add_assoc, Nat.add_sub_cancel, Nat.add_sub_cancel, ih]
    funext a
    grind [moved, update_apply]

theorem kernel_moved (m : Bytes) (dst src : Nat) (n : BitVec 32) :
    kernel m dst src n = moved m dst src n.toNat := by
  rw [kernel]
  split
  · rename_i h
    exact copyDown_moved h.1.le
  · rename_i h
    exact copyUp_moved h

/-- The bytes below the destination are not touched. -/
theorem copyUp_below (ha : a < dst) : copyUp n m dst src a = m a := by
  induction n generalizing m dst src with
  | zero => rfl
  | succ n ih => rw [copyUp, ih (by omega), update_of_ne (by omega)]

theorem copyUp_add (k n : Nat) :
    copyUp (k + n) m dst src = copyUp n (copyUp k m dst src) (dst + k) (src + k) := by
  induction k generalizing m dst src with
  | zero => simp [copyUp]
  | succ k ih =>
    rw [Nat.add_right_comm, copyUp, ih, copyUp, Nat.add_right_comm dst, Nat.add_right_comm src]
    rfl

/-- Where the destination begins inside the source, its first byte comes to be the first of the
source before it is read. -/
theorem copyUp_overlap (h : src < dst) (hn : dst < src + n) :
    copyUp n m dst src (dst + (dst - src)) = m src := by
  obtain ⟨k, rfl⟩ : ∃ k, dst = src + k := ⟨dst - src, by omega⟩
  obtain ⟨j, rfl⟩ : ∃ j, n = k + (j + 1) := ⟨n - k - 1, by omega⟩
  rw [copyUp_add, copyUp_moved (n := k) (by omega), copyUp, copyUp_below (by omega),
    Nat.add_sub_cancel_left, update_self, moved, if_pos (by omega), Nat.sub_self, Nat.add_zero]

/-- Memory that is zero but for one byte. -/
def single (src : Nat) : Bytes := fun a => if a = src then 1 else 0

/-- **Where the two functions agree.**  The kernel's leaves the bytes of the source at the
destination, and nothing else changes.  The user library's does the same, whatever the memory
holds, just where there is nothing to do, or the length is not negative as an `int` and the
destination does not begin inside the source. -/
theorem memmove_agree (dst src : Nat) (n : BitVec 32) :
    (∀ m, kernel m dst src n = moved m dst src n.toNat) ∧
      ((∀ m, user m dst src n = kernel m dst src n) ↔
        dst = src ∨ n = 0 ∨ 0 ≤ n.toInt ∧ ¬ (src < dst ∧ dst < src + n.toNat)) := by
  have hint := BitVec.toInt_eq_toNat_cond n
  refine ⟨fun m => kernel_moved m dst src n, fun h => ?_, fun h m => ?_⟩
  · by_contra hne
    obtain ⟨hsrc, hzero, hbad⟩ := (not_or.mp hne).imp_right not_or.mp
    have hpos : 0 < n.toNat := Nat.pos_of_ne_zero fun e => hzero (BitVec.eq_of_toNat_eq e)
    have hself : single src src = 1 := if_pos rfl
    have hdst : single src dst = 0 := if_neg hsrc
    by_cases hneg : n.toInt < 0
    · -- nothing is copied
      have := congrFun (h (single src)) dst
      rw [kernel_moved, user, Int.toNat_of_nonpos hneg.le, copyUp, moved, if_pos (by omega),
        Nat.sub_self, Nat.add_zero, hself, hdst] at this
      cases this
    · have hn : n.toInt.toNat = n.toNat := by split at hint <;> omega
      obtain ⟨hlt, hin⟩ := not_not.mp fun hno => hbad ⟨by omega, hno⟩
      have := congrFun (h (single src)) (dst + (dst - src))
      rw [kernel_moved, user, hn, copyUp_overlap hlt hin, moved, if_pos (by omega),
        Nat.add_sub_cancel_left, Nat.add_sub_cancel' hlt.le, hself, hdst] at this
      cases this
  · rw [kernel_moved, user]
    rcases h with rfl | rfl | ⟨hn, hno⟩
    · rw [copyUp_moved (by omega), moved_self, moved_self]
    · exact copyUp_moved (n := 0) (by omega)
    · have hn : n.toInt.toNat = n.toNat := by split at hint <;> omega
      rw [hn, copyUp_moved hno]

/-- Two bytes move up by one: the user library makes both of them the first. -/
theorem memmove_overlap : ∃ m, (∀ i < 2, kernel m 1 0 2 (1 + i) = m i) ∧
    user m 1 0 2 2 = m 0 ∧ m 0 ≠ m 1 :=
  ⟨single 0, by decide, by decide, by decide⟩

end Xv6.Memmove
