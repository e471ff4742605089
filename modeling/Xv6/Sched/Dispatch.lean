import Xv6.Sched.Rounds

/-!
# Sched — dispatching only what is ready

`scheduler` runs whatever its scan returns.  When the scan has nothing to choose it returns slot
0, and the round puts that slot in RUNNING whatever it was doing: asleep, or on another CPU.

* `Chooses`: the rounds that have something to choose, or find slot 0 RUNNABLE.
* `dispatch_runnable`: while every round is such a one, what is on a CPU is RUNNING and on no
  other CPU; and a round dispatches a RUNNABLE process exactly when it is one.
-/

namespace Xv6.Sched

open Kern

section

variable {C : Type}

/-- A round that has a process of its mode to choose, or finds slot 0 RUNNABLE. -/
def Chooses (σ : Sys C) : Ev C → Prop
  | .round _ => (σ.k.ptable initproc).state = .runnable ∨
      ∃ s, Selectable (σ.k.ptable s) (scheMode σ.k)
  | _ => True

instance (σ : Sys C) : DecidablePred (Chooses σ)
  | .round _ => inferInstanceAs (Decidable (_ ∨ ∃ _ : Slot, _))
  | .call .. | .forkAlloc _ | .forkEnd _ => .isTrue trivial

variable [DecidableEq C]

/-- **Dispatch.**  In every system reached by rounds that have something to choose, whatever the
processes do in between: a process on a CPU is RUNNING, and on no other CPU.  The process the next
round of a CPU dispatches is RUNNABLE exactly when that round has something to choose too. -/
theorem dispatch_runnable {σ : Sys C} (r : SchedRun Chooses σ) :
    (∀ c s m, σ.cpu c = some (s, m) → (σ.k.ptable s).state = .running) ∧
    (∀ c c' s m m', σ.cpu c = some (s, m) → σ.cpu c' = some (s, m') → c = c') ∧
    ∀ c σ', step σ (.round c) = some σ' → ∃ s m, σ'.cpu c = some (s, m) ∧
      ((σ.k.ptable s).state = .runnable ↔ Chooses σ (.round c)) := by
  have h : Sound (fun _ => False) σ := by
    refine r.invariant (fun _ => sound_start) fun σ e σ' h hg hs => ?_
    refine sound_step (fun _ => False.elim) h (fun c e' _ => ?_) hs
    subst e'
    exact (pick_runnable_iff σ.k).mpr hg
  refine ⟨fun c s m hc => h.cur c s m hc id,
    fun c c' s m m' hc hc' => h.uniq c c' s m m' hc hc' id, fun c σ' hs => ?_⟩
  obtain ⟨-, rfl⟩ := step_round hs
  exact ⟨_, _, Function.update_self .., pick_runnable_iff σ.k⟩

end

/-- init is put on a CPU and forks; its child is put on another. -/
theorem dispatch_runnable_two : ∃ σ : Sys (Fin 2), SchedRun Chooses σ ∧
    σ.cpu 0 = some (0, .mlfq) ∧ σ.cpu 1 = some (1, .mlfq) ∧
    ((σ.k.ptable 0).state = .running ∧ (σ.k.ptable 1).state = .running) := by
  obtain ⟨σ, r, h₀, h₁⟩ := exists_schedRun Chooses 140
    [.round 0, .forkAlloc 0, .forkEnd 0, .round (1 : Fin 2)]
    (fun σ => σ.cpu 0 = some (0, .mlfq) ∧ σ.cpu 1 = some (1, .mlfq)) (by decide +kernel)
  obtain ⟨hrun, -, -⟩ := dispatch_runnable r
  exact ⟨σ, r, h₀, h₁, hrun 0 0 _ h₀, hrun 1 1 _ h₁⟩

/-- Two CPUs run init at once; and one CPU runs init while it is asleep. -/
theorem dispatch_not_runnable :
    (∃ σ : Sys (Fin 2), SchedRun (fun _ _ => True) σ ∧ σ.cpu 0 = some (0, .mlfq) ∧
      σ.cpu 1 = some (0, .mlfq)) ∧
    ∃ σ : Sys Unit, SchedRun (fun _ _ => True) σ ∧ (σ.k.ptable 0).state = .sleeping ∧
      ∃ σ', step σ (.round ()) = some σ' ∧ σ'.cpu () = some (0, .mlfq) := by
  constructor
  · exact exists_schedRun (fun _ _ => True) 70 [.round 0, .round (1 : Fin 2)] _ (by decide +kernel)
  · exact exists_schedRun (fun _ _ => True) 70 [.round (), .call () (.sleep 1)] _ (by decide +kernel)

end Xv6.Sched
