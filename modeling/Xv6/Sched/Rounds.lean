import Xv6.Proc.System
import Xv6.Sched.Select
import Xv6.Support.Table

/-!
# Sched — the rounds of the schedulers (`proc.c`)

Any number of CPUs, each of which runs `scheduler`.  A round begins when a CPU chooses a process
and puts it in RUNNING; it goes on while the process makes calls, and ends when a call comes back
to the scheduler, which charges the process for the round (`roundEnd`).  From the `sched` of the
process to the end of the round `ptable.lock` is held, so this is one step.

`fork` is also taken in two steps, as its lock is free between them: the slot is taken first
(`forkAlloc`), and the child made runnable later (`forkEnd`).  In between its process may lose the
CPU.

* `sound_of_run`: whatever the rounds choose, a process other than init that is on a CPU is
  RUNNING and on no other CPU, and init is never unused, in the making, or a zombie.
-/

namespace Xv6.Sched

open Function (update_self update_of_ne)
open Kern
open Support (Run bind_ok update_cases)

/-! ### The end of a round -/

/-- `adjust_MLFQ_state` -/
def adjustMlfqState (k : Kernel) (s : Slot) : Kernel :=
  { k.set s fun p =>
      let t := wrap (p.tick + 1)
      if p.mlfqLv = .high ∧ 5 ≤ t then { p with mlfqLv := .mid, tick := 0 }
      else if p.mlfqLv = .mid ∧ 10 ≤ t then { p with mlfqLv := .low, tick := 0 }
      else { p with tick := t }
    with totalTicksMlfq := wrap (k.totalTicksMlfq + 1) }

/-- `init_MLFQ_state`: priority boosting. -/
def initMlfqState (k : Kernel) : Kernel :=
  if 100 ≤ k.totalTicksMlfq then
    { k with
      ptable := fun s =>
        let p := k.ptable s
        if p.state = .runnable then { p with tick := 0, mlfqLv := .high } else p
      totalTicksMlfq := 0 }
  else k

/-- `int` division; by zero the CPU traps, which in the kernel is a panic. -/
def idiv (a b : Int) : Except Stop Int :=
  if b = 0 then .error (.panic "trap") else .ok (a.tdiv b)

/-- `adjust_Stride_state` -/
def adjustStrideState (k : Kernel) (s : Slot) : Except Stop Kernel := do
  let q ← idiv 10000 (k.ptable s).cpuShare
  let pass := (k.ptable s).pass + q
  .ok { k.set s ({ · with pass }) with
    maxStrideProcPass := if k.maxStrideProcPass < pass then toInt pass else k.maxStrideProcPass }

/-- `revaluate_PASS` -/
def revaluatePass (k : Kernel) (m : Mode) : Except Stop Kernel :=
  let cpuS := k.cpuShareStride
  if cpuS = 0 then .ok { k with passMlfq := 0, passStride := 0, maxStrideProcPass := 0 }
  else
    match m with
    | .mlfq => do
      let q ← idiv 10000 (wrap (100 - cpuS))
      .ok { k with passMlfq := k.passMlfq + q }
    | .stride => do
      let q ← idiv 10000 cpuS
      .ok { k with passStride := k.passStride + q }

/-- What `scheduler` does when the process `s` has come back from a round in mode `m`. -/
def roundEnd (k : Kernel) (s : Slot) (m : Mode) : Except Stop Kernel :=
  match m with
  | .mlfq => revaluatePass (initMlfqState (adjustMlfqState k s)) .mlfq
  | .stride => do
    let k ← adjustStrideState k s
    revaluatePass k .stride

/-! ### The machine -/

/-- The kernel, what each CPU runs and in which mode, and the slot a `fork` has taken. -/
structure Sys (C : Type) where
  k : Kernel
  cpu : C → Option (Slot × Mode)
  pend : Slot → Option Slot

inductive Ev (C : Type) where
  | round (c : C)
  | call (c : C) (op : Call)
  | forkAlloc (c : C)
  | forkEnd (c : C)

/-- Only the timer takes a process out of the middle of a `fork`. -/
def midFork (op : Call) : Bool :=
  match op with
  | .yield => true
  | _ => false

section

variable {C : Type} [DecidableEq C]

/-- A round can begin: the lock is free and `switchuvm` does not panic. -/
def CanSwitch (k : Kernel) (s : Slot) : Prop :=
  k.locked = false ∧ (k.ptable s).kstack ≠ none ∧ (k.ptable s).pgdir ≠ none

instance (k : Kernel) (s : Slot) : Decidable (CanSwitch k s) := inferInstanceAs (Decidable (_ ∧ _ ∧ _))

/-- The process `s` of CPU `c` has made a call. -/
def afterCall (σ : Sys C) (c : C) (s : Slot) (m : Mode) : Outcome × Kernel → Option (Sys C)
  | (.stays, k) => some { σ with k }
  | (_, k) => (roundEnd k s m).toOption.map fun k => { σ with k, cpu := Function.update σ.cpu c none }

def step (σ : Sys C) : Ev C → Option (Sys C)
  | .round c =>
    if σ.cpu c = none ∧ CanSwitch σ.k (pick σ.k) then
      some { σ with
        k := σ.k.set (pick σ.k) ({ · with state := .running })
        cpu := Function.update σ.cpu c (some (pick σ.k, scheMode σ.k)) }
    else none
  | .call c op =>
    (σ.cpu c).bind fun (s, m) =>
      if (σ.pend s = none ∨ midFork op) ∧ op.Ready σ.k s then
        (call σ.k s op).toOption.bind (afterCall σ c s m)
      else none
  | .forkAlloc c =>
    (σ.cpu c).bind fun (s, _) =>
      if σ.pend s = none then
        (allocproc σ.k).toOption.map fun (r, k) =>
          { σ with k, pend := Function.update σ.pend s r }
      else none
  | .forkEnd c =>
    (σ.cpu c).bind fun (s, _) =>
      (σ.pend s).bind fun np =>
        (forkFinish σ.k s np).toOption.map fun (_, k) =>
          { σ with k, pend := Function.update σ.pend s none }

/-- Every CPU idle after `userinit`. -/
def Start (σ : Sys C) : Prop := Booted σ.k ∧ σ.cpu = (fun _ => none) ∧ σ.pend = fun _ => none

/-- The system `σ` can be reached, every step meeting the guard. -/
def SchedRun (G : Sys C → Ev C → Prop) (σ : Sys C) : Prop :=
  ∃ σ₀, Start σ₀ ∧ Run (fun σ e σ' => step σ e = some σ') G σ₀ σ

variable {σ σ' : Sys C} {c : C}

theorem SchedRun.invariant {G : Sys C → Ev C → Prop} {I : Sys C → Prop}
    (r : SchedRun G σ) (h₀ : ∀ σ, Start σ → I σ)
    (hstep : ∀ σ e σ', I σ → G σ e → step σ e = some σ' → I σ') : I σ := by
  obtain ⟨σ₀, hs, r⟩ := r
  exact r.invariant (h₀ σ₀ hs) hstep

/-! ### What a step does -/

theorem step_round (h : step σ (.round c) = some σ') :
    σ.cpu c = none ∧ σ' = { σ with
      k := σ.k.set (pick σ.k) ({ · with state := .running })
      cpu := Function.update σ.cpu c (some (pick σ.k, scheMode σ.k)) } := by
  rw [step] at h
  split at h
  · rename_i hc
    cases h
    exact ⟨hc.1, rfl⟩
  · cases h

theorem step_call {op : Call} (h : step σ (.call c op) = some σ') :
    ∃ s m o k₁, σ.cpu c = some (s, m) ∧ (σ.pend s = none ∨ midFork op = true) ∧
      op.Ready σ.k s ∧ call σ.k s op = .ok (o, k₁) ∧
      (o = .stays ∧ σ' = { σ with k := k₁ } ∨
        o ≠ .stays ∧ ∃ k₂, roundEnd k₁ s m = .ok k₂ ∧
          σ' = { σ with k := k₂, cpu := Function.update σ.cpu c none }) := by
  obtain ⟨⟨s, m⟩, hcpu, h⟩ := Option.bind_eq_some_iff.mp h
  dsimp only at h
  split at h
  · rename_i hg
    obtain ⟨⟨o, k₁⟩, hcall, h⟩ := Option.bind_eq_some_iff.mp h
    refine ⟨s, m, o, k₁, hcpu, hg.1, hg.2, Support.toOption_eq_some.mp hcall, ?_⟩
    cases o with
    | stays =>
      cases h
      exact .inl ⟨rfl, rfl⟩
    | leaves | ends =>
      obtain ⟨k₂, he, rfl⟩ := Option.map_eq_some_iff.mp h
      exact .inr ⟨Outcome.noConfusion, k₂, Support.toOption_eq_some.mp he, rfl⟩
  · cases h

theorem step_forkAlloc (h : step σ (.forkAlloc c) = some σ') :
    ∃ s m r k₁, σ.cpu c = some (s, m) ∧ σ.pend s = none ∧ allocproc σ.k = .ok (r, k₁) ∧
      σ' = { σ with k := k₁, pend := Function.update σ.pend s r } := by
  obtain ⟨⟨s, m⟩, hcpu, h⟩ := Option.bind_eq_some_iff.mp h
  dsimp only at h
  split at h
  · rename_i hp
    obtain ⟨⟨r, k₁⟩, ha, rfl⟩ := Option.map_eq_some_iff.mp h
    exact ⟨s, m, r, k₁, hcpu, hp, Support.toOption_eq_some.mp ha, rfl⟩
  · cases h

theorem step_forkEnd (h : step σ (.forkEnd c) = some σ') :
    ∃ s m np r k₁, σ.cpu c = some (s, m) ∧ σ.pend s = some np ∧
      forkFinish σ.k s np = .ok (r, k₁) ∧
      σ' = { σ with k := k₁, pend := Function.update σ.pend s none } := by
  obtain ⟨⟨s, m⟩, hcpu, h⟩ := Option.bind_eq_some_iff.mp h
  obtain ⟨np, hp, h⟩ := Option.bind_eq_some_iff.mp h
  obtain ⟨⟨r, k₁⟩, ha, rfl⟩ := Option.map_eq_some_iff.mp h
  exact ⟨s, m, np, r, k₁, hcpu, hp, Support.toOption_eq_some.mp ha, rfl⟩

/-- The system after `userinit` on `n` free pages and then the given steps. -/
def bootSched (n : Nat) (g : Sys C → Ev C → Bool) (es : List (Ev C)) : Option (Sys C) :=
  (userinit (.blank (List.range n)) []).toOption.bind fun k =>
    Support.exec step g ⟨k, fun _ => none, fun _ => none⟩ es

/-- A run that can be computed is a run. -/
theorem exists_schedRun (G : Sys C → Ev C → Prop) [∀ σ e, Decidable (G σ e)] (n : Nat)
    (es : List (Ev C)) (P : Sys C → Prop)
    (h : ∃ σ, bootSched n (fun σ e => decide (G σ e)) es = some σ ∧ P σ) :
    ∃ σ, SchedRun G σ ∧ P σ := by
  obtain ⟨σ, hσ, hP⟩ := h
  obtain ⟨k, hk, he⟩ := Option.bind_eq_some_iff.mp hσ
  have hb : Booted k := ⟨_, _, List.nodup_range, Support.toOption_eq_some.mp hk⟩
  exact ⟨σ, ⟨_, ⟨hb, rfl, rfl⟩, (Support.exec_run es .refl he).mono fun _ _ => of_decide_eq_true⟩, hP⟩

end

/-! ### What the end of a round does -/

/-- The process of the round, and the runnable ones, may have other ticks, levels and passes. -/
structure Charged (s : Slot) (k k' : Kernel) : Prop where
  state : ∀ q, (k'.ptable q).state = (k.ptable q).state
  procMode : ∀ q, (k'.ptable q).procMode = (k.ptable q).procMode
  cpuShare : ∀ q, (k'.ptable q).cpuShare = (k.ptable q).cpuShare
  view : ∀ q, q ≠ s → (k.ptable q).state ≠ .runnable → (k'.ptable q).view = (k.ptable q).view
  total : k'.cpuShareStride = k.cpuShareStride

namespace Charged

variable {s : Slot} {k k' k'' : Kernel}

theorem trans (h : Charged s k k') (h' : Charged s k' k'') : Charged s k k'' where
  state := fun q => (h'.state q).trans (h.state q)
  procMode := fun q => (h'.procMode q).trans (h.procMode q)
  cpuShare := fun q => (h'.cpuShare q).trans (h.cpuShare q)
  view := fun q e hr => (h'.view q e (by rw [h.state q]; exact hr)).trans (h.view q e hr)
  total := h'.total.trans h.total

theorem of_ptable (hp : k'.ptable = k.ptable) (ht : k'.cpuShareStride = k.cpuShareStride) :
    Charged s k k' :=
  ⟨fun _ => by rw [hp], fun _ => by rw [hp], fun _ => by rw [hp], fun _ _ _ => by rw [hp], ht⟩

/-- A change to the process of the round. -/
theorem update {p : Proc} (hp : k'.ptable = Function.update k.ptable s p)
    (hs : p.state = (k.ptable s).state) (hm : p.procMode = (k.ptable s).procMode)
    (hc : p.cpuShare = (k.ptable s).cpuShare) (ht : k'.cpuShareStride = k.cpuShareStride) :
    Charged s k k' := by
  have at_s : ∀ {α : Type} (f : Proc → α), f p = f (k.ptable s) →
      ∀ q, f (k'.ptable q) = f (k.ptable q) := by
    intro α f hf q
    rw [hp]
    by_cases e : q = s
    · subst e; rw [update_self, hf]
    · rw [update_of_ne e]
  exact ⟨at_s _ hs, at_s _ hm, at_s _ hc, fun q e _ => by rw [hp, update_of_ne e], ht⟩

end Charged

theorem adjustMlfqState_charged (k : Kernel) (s : Slot) : Charged s k (adjustMlfqState k s) := by
  refine .update rfl ?_ ?_ ?_ rfl <;> dsimp only <;> split
  all_goals first
    | rfl
    | split <;> rfl

theorem initMlfqState_charged (k : Kernel) (s : Slot) : Charged s k (initMlfqState k) := by
  rw [initMlfqState]
  split
  · refine ⟨fun q => ?_, fun q => ?_, fun q => ?_, fun q _ hr => ?_, rfl⟩
    · dsimp only; split <;> rfl
    · dsimp only; split <;> rfl
    · dsimp only; split <;> rfl
    · dsimp only; rw [if_neg hr]
  · exact .of_ptable rfl rfl

variable {s : Slot} {k k' : Kernel} {m : Mode}

theorem adjustStrideState_charged (h : adjustStrideState k s = .ok k') : Charged s k k' := by
  obtain ⟨q, -, h⟩ := bind_ok.mp h
  cases h
  exact .update rfl rfl rfl rfl rfl

theorem revaluatePass_charged (s : Slot) (h : revaluatePass k m = .ok k') : Charged s k k' := by
  cases m with
  | mlfq | stride =>
    simp only [revaluatePass] at h
    split at h
    · cases h
      exact .of_ptable rfl rfl
    · obtain ⟨q, -, h⟩ := bind_ok.mp h
      cases h
      exact .of_ptable rfl rfl

theorem roundEnd_charged (h : roundEnd k s m = .ok k') : Charged s k k' := by
  cases m with
  | mlfq =>
    have hr : revaluatePass (initMlfqState (adjustMlfqState k s)) .mlfq = .ok k' := h
    exact ((adjustMlfqState_charged k s).trans (initMlfqState_charged _ s)).trans
      (revaluatePass_charged s hr)
  | stride =>
    obtain ⟨k₁, h₁, h⟩ := bind_ok.mp h
    exact (adjustStrideState_charged h₁).trans (revaluatePass_charged s h)

/-- Of the record of a process only the tick, the level and the pass may be others. -/
def Billed (p p' : Proc) : Prop :=
  ∃ tick lv pass, p' = { p with tick := tick, mlfqLv := lv, pass := pass }

namespace Billed

theorem refl (p : Proc) : Billed p p := ⟨p.tick, p.mlfqLv, p.pass, rfl⟩

theorem trans {p p' p'' : Proc} (h : Billed p p') (h' : Billed p' p'') : Billed p p'' := by
  obtain ⟨t, l, a, rfl⟩ := h
  obtain ⟨t', l', a', rfl⟩ := h'
  exact ⟨t', l', a', rfl⟩

end Billed

theorem adjustMlfqState_billed (k : Kernel) (s q : Slot) :
    Billed (k.ptable q) ((adjustMlfqState k s).ptable q) := by
  by_cases e : q = s
  · subst e
    simp only [adjustMlfqState, Kernel.set_ptable, update_self]
    split
    · exact ⟨_, _, _, rfl⟩
    · split
      · exact ⟨_, _, _, rfl⟩
      · exact ⟨_, _, _, rfl⟩
  · simp only [adjustMlfqState, Kernel.set_ptable, update_of_ne e]
    exact .refl _

theorem initMlfqState_billed (k : Kernel) (q : Slot) :
    Billed (k.ptable q) ((initMlfqState k).ptable q) := by
  rw [initMlfqState]
  split
  · dsimp only
    split
    · exact ⟨_, _, _, rfl⟩
    · exact .refl _
  · exact .refl _

theorem initMlfqState_locked (k : Kernel) : (initMlfqState k).locked = k.locked := by
  rw [initMlfqState]
  split
  · rfl
  · rfl

theorem revaluatePass_ptable (h : revaluatePass k m = .ok k') :
    k'.ptable = k.ptable ∧ k'.locked = k.locked := by
  simp only [revaluatePass.eq_def] at h
  split at h
  · cases h
    exact ⟨rfl, rfl⟩
  cases m with
  | mlfq | stride =>
    obtain ⟨q, -, h⟩ := bind_ok.mp h
    cases h
    exact ⟨rfl, rfl⟩

theorem roundEnd_billed (h : roundEnd k s m = .ok k') :
    k'.locked = k.locked ∧ ∀ q, Billed (k.ptable q) (k'.ptable q) := by
  cases m with
  | mlfq =>
    have hr : revaluatePass (initMlfqState (adjustMlfqState k s)) .mlfq = .ok k' := h
    obtain ⟨hp, hl⟩ := revaluatePass_ptable hr
    refine ⟨hl.trans (initMlfqState_locked _), fun q => ?_⟩
    rw [hp]
    exact (adjustMlfqState_billed k s q).trans (initMlfqState_billed _ q)
  | stride =>
    obtain ⟨k₁, h₁, h⟩ := bind_ok.mp h
    obtain ⟨hp, hl⟩ := revaluatePass_ptable h
    obtain ⟨q₁, -, h₁⟩ := bind_ok.mp h₁
    cases h₁
    refine ⟨hl, fun q => ?_⟩
    rw [hp]
    by_cases e : q = s
    · subst e
      rw [Kernel.set_ptable, update_self]
      exact ⟨_, _, _, rfl⟩
    · rw [Kernel.set_ptable, update_of_ne e]
      exact .refl _

/-! ### Who is on a CPU -/

/-- A call touches another process only in its sleep, after its end, or before its making. -/
theorem other_eq {v v' : View} (h : Other v v') (hs : v.state ≠ .sleeping) (hz : v.state ≠ .zombie)
    (hu : v.state ≠ .unused) : v' = v := by
  cases h with
  | same => rfl
  | wake h => exact absurd h hs
  | reap h => exact absurd h hz
  | join h => exact absurd h hz
  | alloc h => exact absurd h hu

/-- Asleep, ready or running. -/
def Awake (st : State) : Prop := st = .sleeping ∨ st = .runnable ∨ st = .running

section

variable {C : Type}

/-- Who is on a CPU is RUNNING and on no other CPU, but for the exempted; init lives; and the
slots the `fork`s in progress have taken are theirs alone. -/
structure Sound (E : Slot → Prop) (σ : Sys C) : Prop where
  cur : ∀ c s m, σ.cpu c = some (s, m) → ¬ E s → (σ.k.ptable s).state = .running
  uniq : ∀ c c' s m m', σ.cpu c = some (s, m) → σ.cpu c' = some (s, m') → ¬ E s → c = c'
  init : Awake (σ.k.ptable initproc).state
  pend : ∀ s np, σ.pend s = some np → (σ.k.ptable np).view = .fresh .embryo
  inj : ∀ s s' np, σ.pend s = some np → σ.pend s' = some np → s = s'

variable {E : Slot → Prop} {σ σ' : Sys C}

theorem sound_start (h : Start σ) : Sound E σ := by
  obtain ⟨hb, hc, hp⟩ := h
  obtain ⟨h₀, -, -⟩ := hb.view
  refine ⟨fun c s m e => ?_, fun c c' s m m' e => ?_, ?_, fun s np e => ?_, fun s s' np e => ?_⟩
  · rw [hc] at e; cases e
  · rw [hc] at e; cases e
  · exact .inr (.inl (congrArg View.state h₀))
  · rw [hp] at e; cases e
  · rw [hp] at e; cases e

variable {s : Slot} {c : C} {st : State}

/-- Who is on a CPU is awake. -/
theorem Sound.awake (hE : ∀ s, E s → s = initproc) (h : Sound E σ) {m : Mode}
    (hc : σ.cpu c = some (s, m)) : Awake (σ.k.ptable s).state := by
  by_cases hs : E s
  · rw [hE s hs]; exact h.init
  · exact .inr (.inr (h.cur c s m hc hs))

theorem Awake.live {k : Kernel} (h : Awake (k.ptable s).state) : Live k s := by
  rcases h with h | h | h <;> rw [Live, h] <;> decide

/-- A slot in the making is not that of a process awake. -/
theorem Sound.pend_ne (h : Sound E σ) {np q : Slot} (hp : σ.pend s = some np)
    (hq : Awake (σ.k.ptable q).state) : np ≠ q := by
  rintro rfl
  have he : (σ.k.ptable np).state = .embryo := congrArg View.state (h.pend s np hp)
  rw [he] at hq
  rcases hq with hq | hq | hq <;> cases hq

/-- A new process in a slot that was unused or in the making: nobody on a CPU is concerned. -/
theorem sound_founded (hE : ∀ s, E s → s = initproc) (h : Sound E σ) {np : Slot}
    {k' : Kernel} {p' : Slot → Option Slot} (hf : Founded np st σ.k k')
    (hnp : ¬ Awake (σ.k.ptable np).state)
    (hp : ∀ s q, p' s = some q → (k'.ptable q).view = .fresh .embryo)
    (hi : ∀ s s' q, p' s = some q → p' s' = some q → s = s') :
    Sound E { σ with k := k', pend := p' } := by
  have hne : ∀ {q}, Awake (σ.k.ptable q).state → q ≠ np := by
    rintro q hq rfl
    exact hnp hq
  have hst : ∀ {q}, Awake (σ.k.ptable q).state → (k'.ptable q).state = (σ.k.ptable q).state :=
    fun hq => congrArg View.state (hf.view _ (hne hq))
  refine ⟨fun c s m hc hs => ?_, h.uniq, ?_, hp, hi⟩
  · exact (hst (h.awake hE hc)).trans (h.cur c s m hc hs)
  · show Awake (k'.ptable initproc).state
    rw [hst h.init]
    exact h.init

variable [DecidableEq C]

theorem sound_forkAlloc (hE : ∀ s, E s → s = initproc) (h : Sound E σ)
    (hs : step σ (.forkAlloc c) = some σ') : Sound E σ' := by
  obtain ⟨s, m, r, k₁, hc, hp, ha, rfl⟩ := step_forkAlloc hs
  have hf := allocproc_founded ha
  -- the slots taken before are neither the new one nor changed
  have old : ∀ {np st}, (σ.k.ptable np).state = .unused → Founded np st σ.k k₁ →
      ∀ s' q, σ.pend s' = some q → q ≠ np ∧ (k₁.ptable q).view = .fresh .embryo := by
    intro np st hu hf s' q hq
    have hne : q ≠ np := by
      rintro rfl
      have he : (σ.k.ptable q).state = .embryo := congrArg View.state (h.pend s' q hq)
      rw [hu] at he
      cases he
    exact ⟨hne, (hf.view q hne).trans (h.pend s' q hq)⟩
  have notAwake : ∀ {np : Slot}, (σ.k.ptable np).state = .unused →
      ¬ Awake (σ.k.ptable np).state := by
    intro np hu ha
    rw [hu] at ha
    rcases ha with ha | ha | ha <;> cases ha
  cases r with
  | none =>
    have hpend : Function.update σ.pend s none = σ.pend := by
      rw [← hp, Function.update_eq_self]
    rw [hpend]
    rcases hf with rfl | ⟨np, hu, hf⟩
    · exact h
    · exact sound_founded hE h hf (notAwake hu) (fun s' q hq => (old hu hf s' q hq).2) h.inj
  | some np =>
    obtain ⟨-, hu, hf⟩ := hf
    refine sound_founded hE h hf (notAwake hu) (fun s' q hq => ?_) fun s₁ s₂ q h₁ h₂ => ?_
    · rcases update_cases hq with ⟨-, hq⟩ | ⟨-, hq⟩
      · cases hq
        exact hf.self
      · exact (old hu hf s' q hq).2
    · rcases update_cases h₁ with ⟨e₁, h₁⟩ | ⟨-, h₁⟩ <;>
        rcases update_cases h₂ with ⟨e₂, h₂⟩ | ⟨-, h₂⟩
      · rw [e₁, e₂]
      · cases h₁
        exact absurd rfl (old hu hf s₂ _ h₂).1
      · cases h₂
        exact absurd rfl (old hu hf s₁ _ h₁).1
      · exact h.inj s₁ s₂ q h₁ h₂

theorem sound_forkEnd (hE : ∀ s, E s → s = initproc) (h : Sound E σ)
    (hs : step σ (.forkEnd c) = some σ') : Sound E σ' := by
  obtain ⟨s, m, np, r, k₁, hc, hp, hf, rfl⟩ := step_forkEnd hs
  have hview := h.pend s np hp
  have hself : Founded np .embryo σ.k σ.k := ⟨hview, fun _ _ => rfl, rfl⟩
  have hna : ¬ Awake (σ.k.ptable np).state := fun ha => h.pend_ne hp ha rfl
  obtain ⟨st, hfd⟩ : ∃ st, Founded np st σ.k k₁ := by
    rcases forkFinish_founded hself hf with hf | hf
    · exact ⟨_, hf⟩
    · exact ⟨_, hf⟩
  -- a slot still taken is another process's, so it is another slot
  have old : ∀ {s' q}, Function.update σ.pend s none s' = some q → s' ≠ s ∧ σ.pend s' = some q := by
    intro s' q hq
    rcases update_cases hq with ⟨-, hq⟩ | hq
    · cases hq
    · exact hq
  refine sound_founded hE h hfd hna (fun s' q hq => ?_) fun s₁ s₂ q h₁ h₂ => ?_
  · obtain ⟨e, hq⟩ := old hq
    have hne : q ≠ np := by
      rintro rfl
      exact e (h.inj s' s q hq hp)
    exact (hfd.view q hne).trans (h.pend s' q hq)
  · exact h.inj s₁ s₂ q (old h₁).2 (old h₂).2

/-- A round keeps this when it takes a RUNNABLE process, or an exempted one. -/
theorem sound_round (h : Sound E σ)
    (hpick : ¬ E (pick σ.k) → (σ.k.ptable (pick σ.k)).state = .runnable)
    (hlive : Awake (σ.k.ptable (pick σ.k)).state)
    (hs : step σ (.round c) = some σ') : Sound E σ' := by
  obtain ⟨hc, rfl⟩ := step_round hs
  generalize hp : pick σ.k = p at *
  have hstate : ∀ q, q ≠ p →
      (σ.k.set p ({ · with state := .running })).ptable q = σ.k.ptable q :=
    fun q e => by rw [Kernel.set_ptable, update_of_ne e]
  have hself : ((σ.k.set p ({ · with state := .running })).ptable p).state = .running := by
    rw [Kernel.set_ptable, update_self]
  -- a process that was on a CPU is RUNNING, so the one taken was on none
  have hfree : ∀ c' m', σ.cpu c' = some (p, m') → E p := by
    intro c' m' hc'
    by_contra hE
    have := h.cur c' p m' hc' hE
    rw [hpick hE] at this
    cases this
  refine ⟨fun c' s m hcpu hns => ?_, fun c₁ c₂ s m₁ m₂ h₁ h₂ hns => ?_, ?_, fun s np hpend => ?_,
    h.inj⟩
  · by_cases e : s = p
    · rw [e]; exact hself
    rw [hstate s e]
    rcases update_cases hcpu with ⟨-, hcpu⟩ | ⟨-, hcpu⟩
    · cases hcpu
      exact absurd rfl e
    · exact h.cur c' s m hcpu hns
  · rcases update_cases h₁ with ⟨e₁, h₁⟩ | ⟨-, h₁⟩ <;>
      rcases update_cases h₂ with ⟨e₂, h₂⟩ | ⟨-, h₂⟩
    · rw [e₁, e₂]
    · cases h₁
      exact absurd (hfree c₂ m₂ h₂) hns
    · cases h₂
      exact absurd (hfree c₁ m₁ h₁) hns
    · exact h.uniq c₁ c₂ s m₁ m₂ h₁ h₂ hns
  · by_cases e : initproc = p
    · rw [e]
      exact .inr (.inr hself)
    · rw [hstate _ e]
      exact h.init
  · rw [hstate np (h.pend_ne hpend hlive)]
    exact h.pend s np hpend

/-- A call that leaves its caller where it was. -/
theorem awake_of_ownState {o : Outcome} {st' : State} (h : OwnState o st st') (ho : o ≠ .ends)
    (ha : Awake st) : Awake st' := by
  cases h with
  | same => exact ha
  | wake => exact .inr (.inl rfl)
  | leave _ h => exact h.elim .inl fun h => .inr (.inl h)
  | die => exact absurd rfl ho

theorem awake_of_other {v v' : View} (h : Other v v') (ha : Awake v.state) : Awake v'.state := by
  cases h with
  | same => exact ha
  | wake => exact .inr (.inl rfl)
  | reap h | join h | alloc h =>
    rw [h] at ha
    rcases ha with ha | ha | ha <;> cases ha

theorem sound_call (hE : ∀ s, E s → s = initproc) (h : Sound E σ) {op : Call}
    (hs : step σ (.call c op) = some σ') : Sound E σ' := by
  obtain ⟨s, m, o, k₁, hc, -, -, hcall, hafter⟩ := step_call hs
  have hsa := h.awake hE hc
  obtain ⟨hown, hother⟩ := call_states hsa.live hcall
  -- the others: who is running stays so, and so does who is in the making
  have hrun : ∀ q, q ≠ s → (σ.k.ptable q).state = .running → (k₁.ptable q).state = .running := by
    intro q e hq
    have hv : (σ.k.ptable q).view.state = .running := hq
    have := other_eq (hother q e) (by rw [hv]; decide) (by rw [hv]; decide) (by rw [hv]; decide)
    exact (congrArg View.state this).trans hq
  have hemb : ∀ s' np, σ.pend s' = some np → np ≠ s ∧ (k₁.ptable np).view = .fresh .embryo := by
    intro s' np hp
    have hv : (σ.k.ptable np).view.state = .embryo := congrArg View.state (h.pend s' np hp)
    have hne := h.pend_ne hp hsa
    refine ⟨hne, ?_⟩
    rw [other_eq (hother np hne) (by rw [hv]; decide) (by rw [hv]; decide) (by rw [hv]; decide)]
    exact h.pend s' np hp
  have hinit : Awake (k₁.ptable initproc).state := by
    by_cases e : initproc = s
    · refine e ▸ awake_of_ownState hown (fun ho => ?_) hsa
      subst ho
      exact call_ends_ne_init hcall e.symm
    · exact awake_of_other (hother initproc e) h.init
  rcases hafter with ⟨rfl, rfl⟩ | ⟨ho, k₂, hend, rfl⟩
  · refine ⟨fun c' s' m' hc' hns => ?_, h.uniq, hinit, fun s' np hp => (hemb s' np hp).2, h.inj⟩
    by_cases e : s' = s
    · subst e
      have hr := h.cur c' s' m' hc' hns
      rw [hr] at hown
      show (k₁.ptable s').state = .running
      cases hown' : (k₁.ptable s').state with
      | running => rfl
      | _ => rw [hown'] at hown; cases hown
    · exact hrun s' e (h.cur c' s' m' hc' hns)
  · -- the round is over: the CPU is free, and the end of the round shows in no state
    have hch := roundEnd_charged hend
    have hcpu : ∀ {c' s' m'}, Function.update σ.cpu c none c' = some (s', m') →
        c' ≠ c ∧ σ.cpu c' = some (s', m') := by
      intro c' s' m' hc'
      rcases update_cases hc' with ⟨-, hc'⟩ | hc'
      · cases hc'
      · exact hc'
    refine ⟨fun c' s' m' hc' hns => ?_, fun c₁ c₂ s' m₁ m₂ h₁ h₂ hns => ?_, ?_,
      fun s' np hp => ?_, h.inj⟩
    · obtain ⟨hne, hc'⟩ := hcpu hc'
      have e : s' ≠ s := by
        rintro rfl
        exact hne (h.uniq c' c s' m' m hc' hc hns)
      exact (hch.state s').trans (hrun s' e (h.cur c' s' m' hc' hns))
    · exact h.uniq c₁ c₂ s' m₁ m₂ (hcpu h₁).2 (hcpu h₂).2 hns
    · show Awake (k₂.ptable initproc).state
      rw [hch.state]
      exact hinit
    · obtain ⟨hne, hv⟩ := hemb s' np hp
      have hst : (k₁.ptable np).state = .embryo := congrArg View.state hv
      exact (hch.view np hne (by rw [hst]; decide)).trans hv

/-- A step keeps this, when a round takes a RUNNABLE process or an exempted one. -/
theorem sound_step (hE : ∀ s, E s → s = initproc) (h : Sound E σ) {e : Ev C}
    (hround : ∀ c, e = .round c → ¬ E (pick σ.k) → (σ.k.ptable (pick σ.k)).state = .runnable)
    (hs : step σ e = some σ') : Sound E σ' := by
  cases e with
  | round c =>
    refine sound_round h (hround c rfl) ?_ hs
    by_cases hp : E (pick σ.k)
    · rw [hE _ hp]; exact h.init
    · exact .inr (.inl (hround c rfl hp))
  | call c op => exact sound_call hE h hs
  | forkAlloc c => exact sound_forkAlloc hE h hs
  | forkEnd c => exact sound_forkEnd hE h hs

theorem Awake.not_vacant (h : Awake st) : ¬ Vacant st := by
  rintro (rfl | rfl)
  · rcases h with h | h | h <;> cases h
  · rcases h with h | h | h <;> cases h

/-- The two halves of a `fork`: a slot that nobody runs is founded, or nothing is. -/
theorem step_founds {e : Ev C} (hsd : Sound (· = initproc) σ)
    (he : e = .forkAlloc c ∨ e = .forkEnd c) (hs : step σ e = some σ') :
    σ'.cpu = σ.cpu ∧ σ.cpu c ≠ none ∧ (σ'.k = σ.k ∨
      ∃ np st, Vacant (σ.k.ptable np).state ∧ st ≠ .running ∧ Founded np st σ.k σ'.k) := by
  rcases he with rfl | rfl
  · obtain ⟨s, m, r, k₁, hc, -, ha, rfl⟩ := step_forkAlloc hs
    refine ⟨rfl, by simp [hc], ?_⟩
    have hf := allocproc_founded ha
    cases r with
    | none => exact hf.imp_right fun ⟨np, hu, hf⟩ => ⟨np, .unused, .inl hu, by decide, hf⟩
    | some np => exact .inr ⟨np, .embryo, .inl hf.2.1, by decide, hf.2.2⟩
  · obtain ⟨s, m, np, r, k₁, hc, hp, hf, rfl⟩ := step_forkEnd hs
    have hview := hsd.pend s np hp
    have hself : Founded np .embryo σ.k σ.k := ⟨hview, fun _ _ => rfl, rfl⟩
    have hv : Vacant (σ.k.ptable np).state := .inr (congrArg View.state hview)
    refine ⟨rfl, by simp [hc], .inr ?_⟩
    rcases forkFinish_founded hself hf with hf | hf
    · exact ⟨np, .unused, hv, by decide, hf⟩
    · exact ⟨np, .runnable, hv, by decide, hf⟩

/-- In every run, with init exempted: the scans take a RUNNABLE process or slot 0. -/
theorem sound_of_run {G : Sys C → Ev C → Prop} (r : SchedRun G σ) : Sound (· = initproc) σ := by
  refine r.invariant (fun _ => sound_start) fun σ e σ' h _ hs => ?_
  refine sound_step (fun _ => id) h (fun c _ hp => ?_) hs
  rcases pick_spec σ.k with ⟨-, hr, -⟩ | ⟨-, e⟩
  · exact hr
  · exact absurd e hp

/-- An invariant whose steps may use who is on a CPU. -/
theorem SchedRun.sound_invariant {G : Sys C → Ev C → Prop} {I : Sys C → Prop} {σ : Sys C}
    (r : SchedRun G σ) (h₀ : ∀ σ, Start σ → I σ)
    (hstep : ∀ σ e σ', Sound (· = initproc) σ → I σ → G σ e → step σ e = some σ' → I σ') : I σ := by
  obtain ⟨σ₀, hs, r⟩ := r
  induction r with
  | refl => exact h₀ σ₀ hs
  | more r hg hst ih => exact hstep _ _ _ (sound_of_run ⟨σ₀, hs, r⟩) ih hg hst

end

end Xv6.Sched
