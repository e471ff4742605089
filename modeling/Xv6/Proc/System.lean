import Xv6.Proc.Moves
import Xv6.Support.Machine

/-!
# Proc — the system

The kernel as a machine.  It starts as `userinit` leaves it, on any list of free pages.  A step
puts a process on a CPU or is a system call of one that is running; any number of processes run at
once, and their calls come in any order.

Which runnable process comes next is left open here, and so are the two cases in which the
schedulers take slot 0 without a look at its state; what they really choose is modelled under
`Sched`.
-/

namespace Xv6.Kern

open Support (Run bind_ok)
open Vm (Page)

/-- The kernel before `userinit`, with these pages free. -/
def Kernel.blank (pages : List Page) : Kernel where
  ptable := fun _ => .zero
  nextpid := 1
  locked := false
  cpuShareStride := 0
  passMlfq := 0
  passStride := 0
  maxStrideProcPass := 0
  totalTicksMlfq := 0
  mem := ⟨pages, fun _ _ => 0, fun _ => none, []⟩
  fref := fun _ => 0
  iref := fun _ => 0
  freed := []

/-- Set up first user process. -/
def userinit (k : Kernel) (initcode : List UInt8) : Except Stop Kernel := do
  match ← allocproc k with
  | (none, _) => .error .fault
  | (some s, k) => do
    match ← Vm.setupkvm k.mem with
    | (none, _) => .error (.panic "userinit: out of memory?")
    | (some d, m) => do
      let m ← Vm.inituvm m d initcode
      -- the root directory is entry 0 of the inode cache
      .ok { (k.setMem m).set s fun p =>
              { p with
                pgdir := some d
                sz := PGSIZE
                tf := ⟨0, PGSIZE, 0⟩
                name := "initcode"
                cwd := some 0
                state := .runnable }
            with iref := Function.update k.iref 0 (k.iref 0 + 1) }

/-- A kernel that has just been set up. -/
def Booted (k : Kernel) : Prop :=
  ∃ pages initcode, pages.Nodup ∧ userinit (.blank pages) initcode = .ok k

inductive Event where
  | dispatch (s : Slot)
  | call (s : Slot) (c : Call)

/-- The loop of `exit` of a process with threads is done when it has no child left. -/
def Call.Ready (k : Kernel) (cur : Slot) : Call → Prop
  | .exit => (k.ptable cur).hasthread = true → k.slots (fun p => p.parent = some cur) = []
  | _ => True

instance (k : Kernel) (cur : Slot) : DecidablePred (Call.Ready k cur)
  | .exit => inferInstanceAs (Decidable (_ → _))
  | .fork | .exitVisit _ | .wait | .threadCreate .. | .threadExit _ | .threadJoin .. => .isTrue trivial
  | .setCpuShare _ | .sbrk _ | .exec .. | .kill _ | .sleep _ | .wakeup _ | .yield => .isTrue trivial

/-- A process the schedulers may run. -/
def MayRun (k : Kernel) (s : Slot) : Prop :=
  (k.ptable s).state = .runnable ∨
    s = initproc ∧ ((k.ptable s).state = .sleeping ∨ (k.ptable s).state = .running)

instance (k : Kernel) (s : Slot) : Decidable (MayRun k s) := inferInstanceAs (Decidable (_ ∨ _))

def step (k : Kernel) : Event → Option Kernel
  | .dispatch s => if MayRun k s then some (k.set s ({ · with state := .running })) else none
  | .call s c =>
    if (k.ptable s).state = .running ∧ c.Ready k s then (call k s c).toOption.map Prod.snd
    else none

/-- The kernel `k` can be reached, every step meeting the guard. -/
def SysRun (G : Kernel → Event → Prop) (k : Kernel) : Prop :=
  ∃ k₀, Booted k₀ ∧ Run (fun k e k' => step k e = some k') G k₀ k

variable {s : Slot} {k : Kernel}

theorem step_dispatch {k' : Kernel} (h : step k (.dispatch s) = some k') :
    MayRun k s ∧ k' = k.set s ({ · with state := .running }) := by
  rw [step] at h
  split at h
  · rename_i hm
    cases h
    exact ⟨hm, rfl⟩
  · cases h

theorem step_call {k' : Kernel} {c : Call} (h : step k (.call s c) = some k') :
    (k.ptable s).state = .running ∧ c.Ready k s ∧ ∃ o, call k s c = .ok (o, k') := by
  rw [step] at h
  split at h
  · rename_i hr
    cases hc : call k s c with
    | error e => rw [hc] at h; cases h
    | ok r =>
      rw [hc] at h
      cases h
      exact ⟨hr.1, hr.2, r.1, rfl⟩
  · cases h

/-- What holds after `userinit` and is kept by every step that meets the guard holds in every
reachable kernel. -/
theorem SysRun.invariant {G : Kernel → Event → Prop} {I : Kernel → Prop}
    (r : SysRun G k) (h₀ : ∀ k, Booted k → I k)
    (hstep : ∀ k e k', I k → G k e → step k e = some k' → I k') : I k := by
  obtain ⟨k₀, hb, r⟩ := r
  exact r.invariant (h₀ k₀ hb) hstep

/-- The kernel after `userinit` on `n` free pages and then the given steps, each let by `g`. -/
def bootRun (n : Nat) (g : Kernel → Event → Bool) (es : List Event) : Option Kernel :=
  (userinit (.blank (List.range n)) []).toOption.bind fun k => Support.exec step g k es

/-- A run that can be computed is a run. -/
theorem exists_sysRun (G : Kernel → Event → Prop) [∀ k e, Decidable (G k e)] (n : Nat)
    (es : List Event) (P : Kernel → Prop)
    (h : ∃ k, bootRun n (fun k e => decide (G k e)) es = some k ∧ P k) : ∃ k, SysRun G k ∧ P k := by
  obtain ⟨k, hk, hP⟩ := h
  obtain ⟨k₀, hu, he⟩ := Option.bind_eq_some_iff.mp hk
  have hb : Booted k₀ := ⟨_, _, List.nodup_range, Support.toOption_eq_some.mp hu⟩
  exact ⟨k, ⟨k₀, hb, (Support.exec_run es .refl he).mono fun _ _ => of_decide_eq_true⟩, hP⟩

/-- After `userinit` there is one process, in slot 0. -/
theorem Booted.cards (h : Booted k) :
    (k.ptable initproc).card = ⟨.runnable, 1, none, false, false, none, 0, fun _ => none, .fresh⟩ ∧
      (∀ q, q ≠ initproc → (k.ptable q).card = Proc.zero.card) ∧
      k.globals = ⟨⟨0, 0, 0, 0, 0⟩, fun _ => 0, false⟩ := by
  obtain ⟨pages, initcode, -, h⟩ := h
  rw [userinit] at h
  obtain ⟨⟨s, k₁⟩, h₁, h⟩ := bind_ok.mp h
  cases s with
  | none => cases h
  | some s =>
    obtain ⟨hs, -, hr⟩ := allocproc_cards h₁
    -- in the zeroed table the first slot is free
    obtain rfl : s = initproc := by
      have h₀ : ((List.finRange NPROC).find? fun s =>
          ((Kernel.blank pages).ptable s).state = .unused) = some initproc := rfl
      rw [hs] at h₀
      exact Option.some.inj h₀
    obtain ⟨⟨d, m⟩, -, h⟩ := bind_ok.mp h
    cases d with
    | none => cases h
    | some d =>
      obtain ⟨m', -, h⟩ := bind_ok.mp h
      have hr' : Redealt initproc { (k₁.ptable initproc).card with state := .runnable } k₁ k := by
        cases h
        exact .update rfl rfl rfl
      rw [hr.self] at hr'
      exact ⟨hr'.self, (hr.trans hr').other, (hr.trans hr').globals⟩

/-- The scheduling fields after `userinit`: one runnable process, in slot 0. -/
theorem Booted.view (h : Booted k) : (k.ptable initproc).view = .fresh .runnable ∧
      (∀ q, q ≠ initproc → (k.ptable q).view = Proc.zero.view) ∧ k.counters = ⟨0, 0, 0, 0, 0⟩ := by
  obtain ⟨hself, hother, hglob⟩ := h.cards
  exact ⟨congrArg Card.view hself, fun q e => congrArg Card.view (hother q e),
    congrArg Globals.counters hglob⟩

theorem Booted.opens (h : Booted k) : k.opens = (fun _ _ => none, fun _ => 0) := by
  obtain ⟨hself, hother, hglob⟩ := h.cards
  refine Prod.ext (funext fun q => ?_) (congrArg Globals.fref hglob)
  by_cases e : q = initproc
  · subst e
    exact congrArg Card.ofile hself
  · exact congrArg Card.ofile (hother q e)

theorem Booted.unlocked (h : Booted k) : k.locked = false := congrArg Globals.locked h.cards.2.2

theorem MayRun.live (h : MayRun k s) : Live k s := by
  rcases h with h | ⟨-, h | h⟩ <;> simp [Live, h]

end Xv6.Kern
