import Mathlib

/-!
# Support — Machine

Runs of a labelled machine, and the one induction every safety argument rests on.  A machine is
a relation `step : σ → α → σ → Prop`: in the state `s` the label `a` may lead to `s'`.  A run is
*guarded* by `G : σ → α → Prop` when each of its steps is taken in a state and with a label that
meet `G`; at `G := fun _ _ => True` it is any run.

* `Run.invariant`: what holds at the start and is kept by every guarded step holds at the end.
* `Run.mono`: a guard that implies another.
* `exec_run`, `exists_run`: the machine of a function, run on a list of labels, is a run.
* `Trace`: a run with the list of the steps it took.
-/

namespace Xv6.Support

variable {σ α : Type*}

/-- A run from `s` all of whose steps meet the guard `G`. -/
inductive Run (step : σ → α → σ → Prop) (G : σ → α → Prop) (s : σ) : σ → Prop where
  | refl : Run step G s s
  | more {t u : σ} {a : α} (r : Run step G s t) (g : G t a) (h : step t a u) : Run step G s u

namespace Run

variable {step : σ → α → σ → Prop} {G G' : σ → α → Prop} {s t u : σ}

/-- **Invariants.**  A property of the start that every guarded step keeps holds in every state
a guarded run reaches. -/
theorem invariant {I : σ → Prop} (h₀ : I s)
    (hstep : ∀ t a u, I t → G t a → step t a u → I u) (r : Run step G s t) : I t := by
  induction r with
  | refl => exact h₀
  | more _ g h ih => exact hstep _ _ _ ih g h

theorem mono (hG : ∀ t a, G t a → G' t a) (r : Run step G s t) : Run step G' s t := by
  induction r with
  | refl => exact .refl
  | more _ g h ih => exact .more ih (hG _ _ g) h

theorem trans (r : Run step G s t) (r' : Run step G t u) : Run step G s u := by
  induction r' with
  | refl => exact r
  | more _ g h ih => exact .more ih g h

end Run

/-- A guarded run with its steps, the last one first: each as the state it was taken in and its
label. -/
inductive Trace (step : σ → α → σ → Prop) (G : σ → α → Prop) (s : σ) : List (σ × α) → σ → Prop where
  | refl : Trace step G s [] s
  | more {t u : σ} {a : α} {l : List (σ × α)} (r : Trace step G s l t) (g : G t a)
      (h : step t a u) : Trace step G s ((t, a) :: l) u

namespace Trace

variable {step : σ → α → σ → Prop} {G : σ → α → Prop} {s t : σ} {l : List (σ × α)}

theorem run (r : Trace step G s l t) : Run step G s t := by
  induction r with
  | refl => exact .refl
  | more _ g h ih => exact .more ih g h

end Trace

theorem Run.trace {step : σ → α → σ → Prop} {G : σ → α → Prop} {s t : σ} (r : Run step G s t) :
    ∃ l, Trace step G s l t := by
  induction r with
  | refl => exact ⟨[], .refl⟩
  | more _ g h ih =>
    obtain ⟨l, r⟩ := ih
    exact ⟨_, .more r g h⟩

/-- The labels `as`, taken one after the other by the function `f`, each where the check `g`
lets it; `none` when one of them cannot be taken. -/
def exec (f : σ → α → Option σ) (g : σ → α → Bool) (s : σ) : List α → Option σ
  | [] => some s
  | a :: as => if g s a then (f s a).bind fun t => exec f g t as else none

/-- A list of labels the function takes is a run, guarded by the check. -/
theorem exec_run {f : σ → α → Option σ} {g : σ → α → Bool} :
    ∀ (as : List α) {s t u : σ},
      Run (fun s a s' => f s a = some s') (fun s a => g s a = true) s t →
      exec f g t as = some u →
      Run (fun s a s' => f s a = some s') (fun s a => g s a = true) s u
  | [], s, t, u, r, h => by
    cases h
    exact r
  | a :: as, s, t, u, r, h => by
    by_cases hg : g t a = true
    · rw [exec, if_pos hg] at h
      obtain ⟨t', h₁, h₂⟩ := Option.bind_eq_some_iff.mp h
      exact exec_run as (.more r hg h₁) h₂
    · rw [exec, if_neg hg] at h
      cases h

/-- **A run that can be computed**, and what it comes to. -/
theorem exists_run (f : σ → α → Option σ) (G : σ → α → Prop) [∀ s a, Decidable (G s a)] (s : σ)
    (as : List α) (P : σ → Prop) (h : ∃ t, exec f (fun s a => decide (G s a)) s as = some t ∧ P t) :
    ∃ t, Run (fun s a s' => f s a = some s') G s t ∧ P t := by
  obtain ⟨t, ht, hP⟩ := h
  exact ⟨t, (exec_run as .refl ht).mono fun _ _ => of_decide_eq_true, hP⟩

end Xv6.Support
