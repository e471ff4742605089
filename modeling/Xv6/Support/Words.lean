import Mathlib

/-!
# Support — Words

Little-endian 32-bit words in a block of bytes: word `i` is the bytes `4i, …, 4i + 3`, the
lowest first.  A block is a function of the byte's offset; only the offsets a caller's block
has are ever read or written.
-/

namespace Xv6.Support

/-- The bytes of a block, by offset. -/
abbrev Bytes := Nat → UInt8

/-- Word `i` of `b`. -/
def getWord (b : Bytes) (i : Nat) : Nat :=
  (b (4 * i)).toNat + 256 * (b (4 * i + 1)).toNat + 65536 * (b (4 * i + 2)).toNat
    + 16777216 * (b (4 * i + 3)).toNat

/-- `b` with word `i` set to `v`. -/
def setWord (b : Bytes) (i v : Nat) : Bytes := fun j =>
  if j / 4 = i then UInt8.ofNat (v / 256 ^ (j % 4) % 256) else b j

theorem getWord_lt (b : Bytes) (i : Nat) : getWord b i < 2 ^ 32 := by
  have h (j : Nat) : (b j).toNat < 256 := (b j).toNat_lt
  have h₀ := h (4 * i)
  have h₁ := h (4 * i + 1)
  have h₂ := h (4 * i + 2)
  have h₃ := h (4 * i + 3)
  unfold getWord
  omega

/-- Reading back the word written. -/
theorem getWord_setWord_self (b : Bytes) (i : Nat) {v : Nat} (hv : v < 2 ^ 32) :
    getWord (setWord b i v) i = v := by
  have hd (k : Nat) (hk : k < 4) : (4 * i + k) / 4 = i ∧ (4 * i + k) % 4 = k := by omega
  have h (k : Nat) (hk : k < 4) : (setWord b i v (4 * i + k)).toNat = v / 256 ^ k % 256 := by
    obtain ⟨h₁, h₂⟩ := hd k hk
    simp only [setWord, h₁, h₂, if_true]
    simp
  have h₀ := h 0 (by decide)
  have h₁ := h 1 (by decide)
  have h₂ := h 2 (by decide)
  have h₃ := h 3 (by decide)
  simp only [Nat.add_zero, pow_zero, Nat.div_one, pow_one] at h₀ h₁ h₂ h₃
  unfold getWord
  rw [h₀, h₁, h₂, h₃]
  omega

/-- The other words are as they were. -/
theorem getWord_setWord_of_ne (b : Bytes) {i j : Nat} (v : Nat) (h : j ≠ i) :
    getWord (setWord b i v) j = getWord b j := by
  have hd (k : Nat) (hk : k < 4) : setWord b i v (4 * j + k) = b (4 * j + k) := by
    have : (4 * j + k) / 4 ≠ i := by omega
    simp [setWord, this]
  have h₀ := hd 0 (by decide)
  simp only [Nat.add_zero] at h₀
  unfold getWord
  rw [h₀, hd 1 (by decide), hd 2 (by decide), hd 3 (by decide)]

/-- The block whose words are `v 0, v 1, …`. -/
def ofWords (v : Nat → Nat) : Bytes := fun j => UInt8.ofNat (v (j / 4) / 256 ^ (j % 4) % 256)

theorem setWord_ofWords (v : Nat → Nat) (i : Nat) : setWord (ofWords v) i (v i) = ofWords v := by
  funext j
  rw [setWord, ofWords]
  split
  · rename_i h
    rw [h]
  · rfl

theorem getWord_ofWords (v : Nat → Nat) {i : Nat} (h : v i < 2 ^ 32) :
    getWord (ofWords v) i = v i := by
  rw [← setWord_ofWords v i, getWord_setWord_self _ _ h]

/-- `b` with the bytes from offset `o` on overwritten by `l`. -/
def putBytes (b : Bytes) (o : Nat) (l : List UInt8) : Bytes := fun i =>
  if o ≤ i ∧ i < o + l.length then l.getD (i - o) 0 else b i

theorem putBytes_nil (b : Bytes) (o : Nat) : putBytes b o [] = b := by
  funext i
  rw [putBytes, List.length_nil, if_neg (by omega)]

theorem putBytes_append (b : Bytes) (o : Nat) (x y : List UInt8) :
    putBytes (putBytes b o x) (o + x.length) y = putBytes b o (x ++ y) := by
  funext k
  simp only [putBytes, List.length_append]
  by_cases hx : k < o + x.length
  · rw [if_neg (by omega)]
    by_cases hk : o ≤ k
    · rw [if_pos ⟨hk, hx⟩, if_pos ⟨hk, by omega⟩, List.getD_append _ _ _ _ (by omega)]
    · rw [if_neg (by omega), if_neg (by omega)]
  · by_cases hy : k < o + x.length + y.length
    · rw [if_pos ⟨by omega, hy⟩, if_pos ⟨by omega, by omega⟩,
        List.getD_append_right _ _ _ _ (by omega), Nat.sub_sub]
    · rw [if_neg (by omega), if_neg (by omega), if_neg (by omega)]

/-- Every word of the zero block is `0`. -/
theorem getWord_zero (i : Nat) : getWord (fun _ => 0) i = 0 := rfl

end Xv6.Support
