import Mathlib

/-!
# Support — Writes

Lists of writes to a store `A → V`, applied in order.  A crash cuts such a list after some
prefix; what recovery can rely on afterwards is which addresses a list touches
(`applyWrites_of_not_mem`) and that a prefix followed by the whole list is the whole list
(`applyWrites_take`).
-/

namespace Xv6.Support

variable {A V : Type*} [DecidableEq A]

/-- The store after the writes `ws`, the first of the list first. -/
def applyWrites (ws : List (A × V)) (d : A → V) : A → V :=
  ws.foldl (fun d w => Function.update d w.1 w.2) d

@[simp] theorem applyWrites_nil (d : A → V) : applyWrites [] d = d := rfl

@[simp] theorem applyWrites_cons (w : A × V) (ws : List (A × V)) (d : A → V) :
    applyWrites (w :: ws) d = applyWrites ws (Function.update d w.1 w.2) := rfl

theorem applyWrites_append (ws vs : List (A × V)) (d : A → V) :
    applyWrites (ws ++ vs) d = applyWrites vs (applyWrites ws d) := by
  simp [applyWrites]

/-- An address no write names keeps its value. -/
theorem applyWrites_of_not_mem {ws : List (A × V)} {x : A} (h : ∀ w ∈ ws, w.1 ≠ x)
    (d : A → V) : applyWrites ws d x = d x := by
  induction ws generalizing d with
  | nil => rfl
  | cons w ws ih =>
    rw [applyWrites_cons, ih fun v hv => h v (List.mem_cons_of_mem _ hv)]
    exact Function.update_of_ne (h w List.mem_cons_self).symm _ _

/-- Two stores that agree off the addresses written agree everywhere after the writes. -/
theorem applyWrites_congr {ws : List (A × V)} {d d' : A → V} {x : A}
    (h : (∀ w ∈ ws, w.1 ≠ x) → d x = d' x) : applyWrites ws d x = applyWrites ws d' x := by
  induction ws generalizing d d' with
  | nil => exact h (by simp)
  | cons w ws ih =>
    rw [applyWrites_cons, applyWrites_cons]
    refine ih fun hws => ?_
    by_cases e : x = w.1
    · subst e; simp
    rw [Function.update_of_ne e, Function.update_of_ne e]
    refine h fun v hv => ?_
    rcases List.mem_cons.mp hv with rfl | hv
    · exact fun e' => e e'.symm
    · exact hws v hv

/-- A list of writes cut short and then done in full is the list done once. -/
theorem applyWrites_take (ws : List (A × V)) (k : Nat) (d : A → V) :
    applyWrites ws (applyWrites (ws.take k) d) = applyWrites ws d := by
  funext x
  refine applyWrites_congr fun h => applyWrites_of_not_mem (fun w hw => h w ?_) d
  exact List.mem_of_mem_take hw

/-- Writes whose value at `a` is `f a` leave `f` on the addresses they name. -/
theorem applyWrites_map (f : A → V) (as : List A) (d : A → V) (x : A) :
    applyWrites (as.map fun a => (a, f a)) d x = if x ∈ as then f x else d x := by
  induction as generalizing d with
  | nil => rfl
  | cons a as ih =>
    rw [List.map_cons, applyWrites_cons, ih]
    by_cases hx : x ∈ as
    · simp [hx]
    · by_cases e : x = a
      · subst e; simp [hx]
      · simp [hx, e]

end Xv6.Support
