import Xv6.Support.Words

/-!
# Support — Bits

A bitmap in a block of bytes: bit `i` is bit `i % 8` of byte `i / 8`, reached through a mask as C
code does.
-/

namespace Xv6.Support

/-- The mask of bit `i` in its byte. -/
def bitMask (i : Nat) : UInt8 := 1 <<< UInt8.ofNat (i % 8)

/-- Bit `i` of `b`. -/
def getBit (b : Bytes) (i : Nat) : Bool := b (i / 8) &&& bitMask i != 0

/-- `b` with bit `i` set. -/
def setBit (b : Bytes) (i : Nat) : Bytes := fun j => if j = i / 8 then b j ||| bitMask i else b j

/-- `b` with bit `i` cleared. -/
def clearBit (b : Bytes) (i : Nat) : Bytes := fun j => if j = i / 8 then b j &&& ~~~bitMask i else b j

theorem getLsbD_bitMask (i : Nat) {k : Nat} (hk : k < 8) :
    (bitMask i).toBitVec.getLsbD k = decide (k = i % 8) := by
  have h : ∀ r < 8, ∀ k < 8, ((1 <<< UInt8.ofNat r : UInt8)).toBitVec.getLsbD k = decide (k = r) := by
    decide
  exact h (i % 8) (Nat.mod_lt _ (by decide)) k hk

/-- Reading a bit through its mask. -/
theorem getBit_eq (b : Bytes) (i : Nat) : getBit b i = (b (i / 8)).toBitVec.getLsbD (i % 8) := by
  have hlt : i % 8 < 8 := Nat.mod_lt _ (by decide)
  -- the byte under the mask has no bit but bit `i`
  have hand (k : Nat) (hk : k < 8) : (b (i / 8) &&& bitMask i).toBitVec.getLsbD k =
      ((b (i / 8)).toBitVec.getLsbD k && decide (k = i % 8)) := by
    rw [UInt8.toBitVec_and, BitVec.getLsbD_and, getLsbD_bitMask i hk]
  cases hb : (b (i / 8)).toBitVec.getLsbD (i % 8) with
  | true =>
    have hne : b (i / 8) &&& bitMask i ≠ 0 := by
      intro h0
      have h := hand _ hlt
      rw [h0, hb] at h
      simp at h
    simp [getBit, hne]
  | false =>
    have h0 : b (i / 8) &&& bitMask i = 0 := by
      refine UInt8.toBitVec_inj.mp (BitVec.eq_of_getLsbD_eq fun k hk => ?_)
      rw [hand k hk]
      by_cases e : k = i % 8
      · subst e; simp [hb]
      · simp [e]
    simp [getBit, h0]

/-- Two bits of one byte with one mask are the same bit. -/
theorem bit_eq_iff {i j : Nat} (h : j / 8 = i / 8) : j % 8 = i % 8 ↔ j = i := by omega

theorem getBit_setBit (b : Bytes) (i j : Nat) :
    getBit (setBit b i) j = (decide (j = i) || getBit b j) := by
  have hlt : j % 8 < 8 := Nat.mod_lt _ (by decide)
  rw [getBit_eq, getBit_eq]
  by_cases h : j / 8 = i / 8
  · rw [setBit, if_pos h, UInt8.toBitVec_or, BitVec.getLsbD_or, getLsbD_bitMask i hlt, Bool.or_comm]
    simp only [bit_eq_iff h]
  · have hne : j ≠ i := fun e => h (e ▸ rfl)
    simp [setBit, h, hne]

theorem getBit_clearBit (b : Bytes) (i j : Nat) :
    getBit (clearBit b i) j = (!decide (j = i) && getBit b j) := by
  have hlt : j % 8 < 8 := Nat.mod_lt _ (by decide)
  rw [getBit_eq, getBit_eq]
  by_cases h : j / 8 = i / 8
  · rw [clearBit, if_pos h, UInt8.toBitVec_and, UInt8.toBitVec_not, BitVec.getLsbD_and,
      BitVec.getLsbD_not, getLsbD_bitMask i hlt, Bool.and_comm]
    simp only [bit_eq_iff h, hlt, decide_true, Bool.true_and]
  · have hne : j ≠ i := fun e => h (e ▸ rfl)
    simp [clearBit, h, hne]

end Xv6.Support
