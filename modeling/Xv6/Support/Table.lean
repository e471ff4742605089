import Mathlib

/-!
# Support — Table

Tables: functions of a finite index, changed one entry at a time.  A quantity added up over the
entries changes by the difference at the entry that changed (`sum_update`, `sum_of_eq_off`).  A
table in which every entry weighs something is taken apart at an entry into the weight there and the
weight of the rest, which a change at that entry leaves alone (`total_eq`, `rest_update`).
-/

namespace Xv6.Support

open Function (update update_self update_of_ne)

/-- What stands before the first index that a search finds does not pass the test. -/
theorem find?_finRange_lt {n : ℕ} {p : Fin n → Bool} {i j : Fin n}
    (h : (List.finRange n).find? p = some i) (hj : j < i) : p j = false := by
  obtain ⟨-, k, hk, he, hmin⟩ := List.find?_eq_some_iff_getElem.mp h
  obtain rfl : k = i.val := by
    have hv := congrArg Fin.val he
    simpa using hv
  simpa using hmin j.val hj

variable {ι α : Type*} [DecidableEq ι]

variable {j i : ι} {a : α} {t : ι → Option α}

/-- An entry of a table after one change: the new one, or an old one elsewhere. -/
theorem update_cases {β : Type*} {f : ι → β} {v w : β} (h : update f i v j = w) :
    j = i ∧ v = w ∨ j ≠ i ∧ f j = w := by
  by_cases e : j = i
  · subst e
    rw [update_self] at h
    exact .inl ⟨rfl, h⟩
  · rw [update_of_ne e] at h
    exact .inr ⟨e, h⟩

theorem update_some {b : α}
    (h : update t i (some b) j = some a) : j = i ∧ a = b ∨ j ≠ i ∧ t j = some a :=
  (update_cases h).imp_left fun h => ⟨h.1, (Option.some.inj h.2).symm⟩

theorem update_none (h : update t i none j = some a) : j ≠ i ∧ t j = some a :=
  (update_cases h).elim (fun h => by cases h.2) id

/-- An entry that is lost is the one taken away, and not one that was set. -/
theorem eq_none_of_update_some {b : α}
    (h : update t i (some b) j = none) : t j = none :=
  (update_cases h).elim (fun h => nomatch h.2) And.right

theorem eq_of_update_none (hj : t j = some a) (h : update t i none j = none) : j = i := by
  by_contra e
  rw [update_of_ne e, hj] at h
  cases h

variable [Fintype ι]

/-- A sum over a table, after one entry has changed. -/
theorem sum_update (g : α → ℤ) (t : ι → α) (i : ι) (a : α) :
    ∑ j, g (update t i a j) = ∑ j, g (t j) - g (t i) + g a := by
  have h : (fun j => g (update t i a j)) = update (fun j => g (t j)) i (g a) := by
    funext j
    by_cases e : j = i
    · subst e; simp
    · simp [e]
  rw [h, Finset.sum_update_of_mem (Finset.mem_univ i)]
  have hs : ∑ j, g (t j) = g (t i) + ∑ j ∈ Finset.univ \ {i}, g (t j) := by
    rw [← Finset.add_sum_erase _ _ (Finset.mem_univ i), Finset.erase_eq]
  omega

/-- Two sums that agree off one index. -/
theorem sum_of_eq_off {f g : ι → ℤ} (i : ι) (h : ∀ j, j ≠ i → f j = g j) :
    ∑ j, f j = ∑ j, g j - g i + f i := by
  have hf : f = update g i (f i) := by
    funext j
    by_cases e : j = i
    · subst e; simp
    · rw [update_of_ne e, h j e]
  have hs := sum_update id g i (f i)
  simp only [id] at hs
  rw [← hs, ← hf]

/-! ### Weights -/

/-- What the entries of a table weigh together. -/
def total (w : α → ℕ) (t : ι → α) : ℕ := ∑ i, w (t i)

/-- What the entries other than `i` weigh together. -/
def rest (w : α → ℕ) (t : ι → α) (i : ι) : ℕ := ∑ j ∈ Finset.univ.erase i, w (t j)

variable {w : α → ℕ} {t : ι → α}

theorem total_eq (w : α → ℕ) (t : ι → α) (i : ι) : total w t = rest w t i + w (t i) :=
  (Finset.sum_erase_add _ _ (Finset.mem_univ i)).symm

@[simp] theorem rest_update (w : α → ℕ) (t : ι → α) (i : ι) (a : α) :
    rest w (update t i a) i = rest w t i := by
  refine Finset.sum_congr rfl fun j hj => ?_
  rw [update_of_ne (Finset.ne_of_mem_erase hj)]

theorem total_update (w : α → ℕ) (t : ι → α) (i : ι) (a : α) :
    total w (update t i a) = rest w t i + w a := by
  rw [total_eq w _ i, rest_update, update_self]

theorem le_rest (h : j ≠ i) : w (t j) ≤ rest w t i :=
  Finset.single_le_sum (f := fun j => w (t j)) (fun _ _ => Nat.zero_le _)
    (Finset.mem_erase.mpr ⟨h, Finset.mem_univ j⟩)

theorem le_total (w : α → ℕ) (t : ι → α) (i : ι) : w (t i) ≤ total w t := by
  rw [total_eq w t i]
  exact Nat.le_add_left ..

/-- Of two entries that weigh something, in a table that weighs one at most, both are the same. -/
theorem eq_of_total_le (h : total w t ≤ 1) (hi : 0 < w (t i)) (hj : 0 < w (t j)) : i = j := by
  by_contra e
  have := total_eq w t j
  have := le_rest (w := w) (t := t) e
  omega

omit [DecidableEq ι] in
theorem exists_of_total (h : total w t ≠ 0) : ∃ j, 0 < w (t j) := by
  by_contra hn
  refine h (Finset.sum_eq_zero fun j _ => ?_)
  by_contra hj
  exact hn ⟨j, Nat.pos_of_ne_zero hj⟩

omit [DecidableEq ι] in
/-- A weight of one for the entries that pass a test counts them. -/
theorem total_card (p : α → Prop) [DecidablePred p] (t : ι → α) :
    total (fun a => if p a then 1 else 0) t = (Finset.univ.filter fun i => p (t i)).card :=
  (Finset.card_filter ..).symm

end Xv6.Support
