import Mathlib

/-!
# Support — Slots

A finite map kept in an array of slots.  A slot is free or has a key; the map's value at a key is
in the first slot with that key.  As long as no two slots have the same key the array is a map: a
key that is absent may be put in a free slot, or in a new one at the end, and a slot may be cleared,
and every other key is found where it was.
-/

namespace Xv6.Support

variable {E K : Type*}

/-- No two of the slots have the same key. -/
def DistinctKeys (key : E → Option K) (e : Nat → E) (n : Nat) : Prop :=
  ∀ i < n, ∀ j < n, ∀ k, key (e i) = some k → key (e j) = some k → i = j

variable {key : E → Option K} {e e' : Nat → E} {n n' i : Nat} {k : K}

/-- Slot `i`, which was free or is new, has the key `k`, and every other slot is as it was. -/
structure PutSlot (key : E → Option K) (e e' : Nat → E) (n n' i : Nat) (k : K) : Prop where
  free : i < n → key (e i) = none
  size : n' = max n (i + 1)
  le : i ≤ n
  put : key (e' i) = some k
  other : ∀ j < n, j ≠ i → e' j = e j

theorem PutSlot.iff (h : PutSlot key e e' n n' i k) {j : Nat} {k' : K} :
    (j < n' ∧ key (e' j) = some k') ↔ (j = i ∧ k' = k) ∨ (j < n ∧ key (e j) = some k') := by
  have hsize := h.size
  have hle := h.le
  by_cases hj : j = i
  · subst hj
    rw [h.put]
    constructor
    · rintro ⟨-, hk⟩
      exact .inl ⟨rfl, (Option.some.inj hk).symm⟩
    · rintro (⟨-, rfl⟩ | ⟨hlt, hk⟩)
      · exact ⟨by omega, rfl⟩
      · rw [h.free hlt] at hk
        cases hk
  · constructor
    · rintro ⟨hlt, hk⟩
      have hn : j < n := by omega
      exact .inr ⟨hn, h.other j hn hj ▸ hk⟩
    · rintro (⟨hi, -⟩ | ⟨hlt, hk⟩)
      · exact absurd hi hj
      · exact ⟨by omega, (h.other j hlt hj).symm ▸ hk⟩

/-- Slot `i` is free, and every other slot is as it was. -/
structure ClearSlot (key : E → Option K) (e e' : Nat → E) (n i : Nat) : Prop where
  clear : key (e' i) = none
  other : ∀ j < n, j ≠ i → e' j = e j

theorem ClearSlot.iff (h : ClearSlot key e e' n i) {j : Nat} {k : K} :
    (j < n ∧ key (e' j) = some k) ↔ j ≠ i ∧ j < n ∧ key (e j) = some k := by
  by_cases hj : j = i
  · subst hj
    simp [h.clear]
  constructor
  · rintro ⟨hlt, hk⟩
    exact ⟨hj, hlt, h.other j hlt hj ▸ hk⟩
  · rintro ⟨-, hlt, hk⟩
    exact ⟨hlt, (h.other j hlt hj).symm ▸ hk⟩

theorem ClearSlot.distinct (h : ClearSlot key e e' n i) (hd : DistinctKeys key e n) :
    DistinctKeys key e' n := by
  intro a ha b hb k hka hkb
  obtain ⟨-, ha, hka⟩ := h.iff.mp ⟨ha, hka⟩
  obtain ⟨-, hb, hkb⟩ := h.iff.mp ⟨hb, hkb⟩
  exact hd a ha b hb k hka hkb

variable [DecidableEq K]

/-- The first of the slots `0, …, n - 1` with the key `k`. -/
def findSlot (key : E → Option K) (e : Nat → E) (n : Nat) (k : K) : Option Nat :=
  (List.range n).find? fun i => decide (key (e i) = some k)

theorem findSlot_eq_none : findSlot key e n k = none ↔ ∀ i < n, key (e i) ≠ some k := by
  simp [findSlot, List.find?_eq_none]

theorem of_findSlot (h : findSlot key e n k = some i) : i < n ∧ key (e i) = some k := by
  have hmem := List.mem_of_find?_eq_some h
  have hkey := List.find?_some h
  exact ⟨List.mem_range.mp hmem, of_decide_eq_true hkey⟩

theorem findSlot_eq_some (hd : DistinctKeys key e n) :
    findSlot key e n k = some i ↔ i < n ∧ key (e i) = some k := by
  refine ⟨of_findSlot, fun ⟨hi, hk⟩ => ?_⟩
  cases h : findSlot key e n k with
  | none => exact absurd hk (findSlot_eq_none.mp h i hi)
  | some j =>
    obtain ⟨hj, hkj⟩ := of_findSlot h
    rw [hd j hj i hi k hkj hk]

/-- A key that is in the same slots is found in the same slot. -/
theorem findSlot_congr (hd : DistinctKeys key e n) (hd' : DistinctKeys key e' n')
    (h : ∀ j, (j < n' ∧ key (e' j) = some k) ↔ (j < n ∧ key (e j) = some k)) :
    findSlot key e' n' k = findSlot key e n k := by
  refine Option.ext fun j => ?_
  rw [findSlot_eq_some hd', findSlot_eq_some hd]
  exact h j

/-- A key that is absent may be put. -/
theorem PutSlot.distinct (h : PutSlot key e e' n n' i k) (hd : DistinctKeys key e n)
    (hk : findSlot key e n k = none) : DistinctKeys key e' n' := by
  intro a ha b hb k' hka hkb
  rcases h.iff.mp ⟨ha, hka⟩ with ⟨rfl, rfl⟩ | ⟨ha, hka⟩
  · rcases h.iff.mp ⟨hb, hkb⟩ with ⟨rfl, -⟩ | ⟨hb, hkb⟩
    · rfl
    · exact absurd hkb (findSlot_eq_none.mp hk b hb)
  · rcases h.iff.mp ⟨hb, hkb⟩ with ⟨rfl, rfl⟩ | ⟨hb, hkb⟩
    · exact absurd hka (findSlot_eq_none.mp hk a ha)
    · exact hd a ha b hb k' hka hkb

end Xv6.Support
