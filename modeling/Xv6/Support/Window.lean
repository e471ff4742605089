import Mathlib

/-!
# Support — Window

A ring of `N` cells under free-running 32-bit counters.  The items that were ever put in the ring are
a stream; the counters are indices of the stream, modulo `2 ^ 32`, and item `i` is in the cell
`i % N` from when it is put until it is taken.  `Window N cells r l` says that the items of the
stream `l` from index `r` on are in their cells.

* `counter_eq_iff`, `counter_mod`: indices that are less than `2 ^ 32` apart are told apart by their
  counters, and a size that divides `2 ^ 32` makes the wrap of a counter invisible.
* `Window.push`, `Window.pop`, `Window.take`: an item is put, the first is taken, the last ones are
  dropped; `Window.slice`: the items at consecutive indices.
-/

namespace Xv6.Support

/-! ### Counters -/

theorem counter_eq_iff {a b : Nat} (h : a ≤ b) (hlt : b < a + 2 ^ 32) :
    UInt32.ofNat a = UInt32.ofNat b ↔ a = b := by
  constructor
  · intro e
    have hm := congrArg UInt32.toNat e
    rw [UInt32.toNat_ofNat', UInt32.toNat_ofNat'] at hm
    omega
  · intro e
    rw [e]

theorem counter_mod {N : Nat} (hN : N ∣ 2 ^ 32) (a : Nat) : (UInt32.ofNat a).toNat % N = a % N := by
  rw [UInt32.toNat_ofNat', Nat.mod_mod_of_dvd a hN]

theorem counter_add (a b : Nat) : UInt32.ofNat a + UInt32.ofNat b = UInt32.ofNat (a + b) :=
  (UInt32.ofNat_add ..).symm

theorem counter_sub {a b : Nat} (h : a ≤ b) (hlt : b < a + 2 ^ 32) :
    (UInt32.ofNat b - UInt32.ofNat a).toNat = b - a := by
  rw [UInt32.toNat_sub, UInt32.toNat_ofNat', UInt32.toNat_ofNat']
  omega

theorem counter_pred (a : Nat) : UInt32.ofNat (a + 1) - 1 = UInt32.ofNat a := by
  rw [← counter_add a 1]
  exact UInt32.add_sub_cancel ..

/-! ### The ring -/

variable {α : Type*} {N r : Nat} {cells : Nat → α} {l : List α}

/-- The items of `l` from index `r` on, `N` at most, are in their cells. -/
structure Window (N : Nat) (cells : Nat → α) (r : Nat) (l : List α) : Prop where
  start : r ≤ l.length
  fits : l.length ≤ r + N
  cell : ∀ i x, r ≤ i → l[i]? = some x → cells (i % N) = x

namespace Window

theorem nil (N : Nat) (cells : Nat → α) : Window N cells 0 [] :=
  ⟨Nat.le_refl _, Nat.zero_le _, fun _ _ _ h => nomatch h⟩

section

variable (h : Window N cells r l)
include h

/-- The item at index `r` is in its cell. -/
theorem head (hr : r < l.length) : l[r]? = some (cells (r % N)) := by
  rw [List.getElem?_eq_getElem hr]
  exact congrArg some (h.cell r _ (Nat.le_refl r) (List.getElem?_eq_getElem hr)).symm

/-- The next item goes to a cell that no item in the ring is in. -/
theorem push (hroom : l.length < r + N) (x : α) :
    Window N (Function.update cells (l.length % N) x) r (l ++ [x]) where
  start := by
    rw [List.length_append]
    exact Nat.le_add_right_of_le h.start
  fits := by
    rw [List.length_append, List.length_singleton]
    exact hroom
  cell i y hi hy := by
    rcases Nat.lt_trichotomy i l.length with hlt | rfl | hgt
    · rw [List.getElem?_append_left hlt] at hy
      have hne : i % N ≠ l.length % N := by
        intro e
        have hz := Nat.sub_mod_eq_zero_of_mod_eq e.symm
        rw [Nat.mod_eq_of_lt (show l.length - i < N by omega)] at hz
        omega
      rw [Function.update_of_ne hne]
      exact h.cell i y hi hy
    · rw [List.getElem?_append_right (Nat.le_refl _), Nat.sub_self] at hy
      cases hy
      rw [Function.update_self]
    · rw [List.getElem?_eq_none (by rw [List.length_append, List.length_singleton]; omega)] at hy
      cases hy

theorem pop (hr : r < l.length) : Window N cells (r + 1) l :=
  ⟨hr, by have := h.fits; omega, fun i x hi hx => h.cell i x (by omega) hx⟩

theorem take {m : Nat} (hm : r ≤ m) (hl : m ≤ l.length) : Window N cells r (l.take m) where
  start := by rw [List.length_take_of_le hl]; exact hm
  fits := by
    rw [List.length_take_of_le hl]
    exact hl.trans h.fits
  cell i x hi hx := by
    rw [List.getElem?_take] at hx
    split at hx
    · exact h.cell i x hi hx
    · cases hx

/-- The cells of consecutive indices. -/
theorem slice {a b : Nat} (ha : r ≤ a) (hb : b ≤ l.length) :
    (List.range (b - a)).map (fun k => cells ((a + k) % N)) = (l.take b).drop a := by
  refine List.ext_getElem? fun k => ?_
  rw [List.getElem?_map, List.getElem?_drop, List.getElem?_take]
  by_cases hk : k < b - a
  · have hlt : a + k < l.length := by omega
    rw [List.getElem?_range hk, if_pos (by omega), List.getElem?_eq_getElem hlt, Option.map_some]
    exact congrArg some (h.cell _ _ (by omega) (List.getElem?_eq_getElem hlt))
  · rw [List.getElem?_eq_none (by rw [List.length_range]; omega), if_neg (by omega),
      Option.map_none]

end

end Window

/-- The next item of a stream, after a first part of it. -/
theorem prefix_snoc {g : List α} {x : α} (h : g <+: l) (hx : l[g.length]? = some x) :
    g ++ [x] <+: l := by
  obtain ⟨t, rfl⟩ := h
  rw [List.getElem?_append_right (Nat.le_refl _), Nat.sub_self] at hx
  cases t with
  | nil => cases hx
  | cons y t =>
    cases hx
    exact ⟨t, by simp⟩

end Xv6.Support
