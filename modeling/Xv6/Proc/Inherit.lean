import Xv6.Proc.Ftable

/-!
# Proc — the descriptors a child inherits

`fork` copies those descriptors of the parent that are open, into a slot that `allocproc` has not
cleared.  So the child has the parent's descriptors exactly when the slot had none of its own; and a
free slot has none, as long as only a process without descriptors calls `thread_exit`.

* `fork_inherits`: the child's descriptors are the parent's.
* `fork_inherits_stale`: `thread_exit` and `thread_join` leave descriptors in a slot, and a child of
  another process, forked into it, has them.
-/

namespace Xv6.Kern

open Support (bind_ok)

section

variable {k k' : Kernel} {cur np : Slot} {r : Int}

/-- **The child of a `fork` that returns a pid** has that pid, in a slot that was free. -/
theorem fork_child (h : fork k cur = .ok (r, k')) (hr : r ≠ -1) :
    ∃ np, ((k'.ptable np).pid : Int) = r ∧ Copied k cur np k' := by
  rw [fork] at h
  obtain ⟨⟨o, k₁⟩, h₁, h⟩ := bind_ok.mp h
  have ha := allocproc_cards h₁
  cases o with
  | none =>
    cases h
    exact absurd rfl hr
  | some np =>
    obtain ⟨-, hu, hs⟩ := ha
    have hf := forkFinish_cards h
    rw [hs.self] at hf
    rcases hf with ⟨rfl, -⟩ | ⟨rfl, hf⟩
    · exact absurd rfl hr
    · exact ⟨np, rfl, (hf.after hs rfl).copied hu rfl rfl⟩

theorem Copied.ofile (h : Copied k cur np k') (s : Slot) : (k'.ptable s).ofile =
    if s = np then fun fd => ((k.ptable cur).ofile fd).or ((k.ptable np).ofile fd)
    else (k.ptable s).ofile := by
  have hs : (k'.ptable s).ofile = _ := congrFun h.ofiles s
  rw [hs]
  by_cases e : s = np
  · rw [if_pos e, e, Function.update_self]
  · rw [if_neg e, Function.update_of_ne e]
    rfl

end

/-- **A child has the descriptors of its parent, and no others.**  As long as only a process without
descriptors calls `thread_exit`. -/
theorem fork_inherits {F : Ftable} (run : FileRun Closing F) {cur : Slot} {r : Int} {k' : Kernel}
    (hcur : (F.kern.ptable cur).state = .running) (h : fork F.kern cur = .ok (r, k'))
    (hr : r ≠ -1) : ∃ np, ((k'.ptable np).pid : Int) = r ∧ (k'.ptable np).state = .runnable ∧
      ∀ fd, (k'.ptable np).ofile fd = (k'.ptable cur).ofile fd := by
  obtain ⟨k, hb, run⟩ := run
  have hbal : Balanced F.kern := run.invariant (I := fun F => Balanced F.kern) hb.balanced
    fun F a F' h hG hs => h.step hG hs
  obtain ⟨np, hpid, hc⟩ := fork_child h hr
  refine ⟨np, hpid, hc.runs, fun fd => ?_⟩
  have hne : cur ≠ np := by
    rintro rfl
    rw [hc.free] at hcur
    cases hcur
  rw [hc.ofile np, hc.ofile cur, if_pos rfl, if_neg hne, hbal.closed np (.inl hc.free) fd,
    Option.or_none]

/-- Init opens a file, makes a pipe, closes the file and forks. -/
theorem fork_inherits_pipe : ∃ F k', FileRun Closing F ∧ fork F.kern 0 = .ok (2, k') ∧
    ∃ np, ((k'.ptable np).pid : Int) = 2 ∧
      ∀ fd, (k'.ptable np).ofile fd = (k'.ptable 0).ofile fd := by
  obtain ⟨F, run, k', hf, hrun⟩ := exists_fileRun Closing 200
    [.event (.dispatch 0), .file 0 (.open (some 1)), .file 0 (.pipe (some 0)), .file 0 (.close 0)]
    (fun F => ∃ k', fork F.kern 0 = .ok (2, k') ∧ (F.kern.ptable 0).state = .running)
    (by decide +kernel)
  obtain ⟨np, hpid, -, hfd⟩ := fork_inherits run hrun hf (by decide)
  exact ⟨F, k', run, hf, np, hpid, hfd⟩

/-- Init has no descriptors.  Its child opens a file and creates a thread, which ends by
`thread_exit` and is joined, and closes the file.  Then init forks: the new child is in the slot of
the thread and has the descriptor. -/
theorem fork_inherits_stale : ∃ F k', FileRun (fun _ _ => True) F ∧
    fork F.kern 0 = .ok (4, k') ∧ (k'.ptable 2).pid = 4 ∧ (k'.ptable 0).ofile 0 = none ∧
    (k'.ptable 2).ofile 0 = some 0 := by
  obtain ⟨F, run, k', h⟩ := exists_fileRun (fun _ _ => True) 300
    [.event (.dispatch 0), .event (.call 0 .fork), .event (.dispatch 1),
      .file 1 (.open (some 1)), .event (.call 1 (.threadCreate 0 0 0)), .event (.dispatch 2),
      .event (.call 2 (.threadExit 0)), .event (.call 1 (.threadJoin 3 0)), .file 1 (.close 0)]
    (fun F => ∃ k', fork F.kern 0 = .ok (4, k') ∧ (k'.ptable 2).pid = 4 ∧
      (k'.ptable 0).ofile 0 = none ∧ (k'.ptable 2).ofile 0 = some 0) (by decide +kernel)
  exact ⟨F, k', run, h⟩

end Xv6.Kern
