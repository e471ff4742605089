import Xv6.Proc.Share
import Xv6.Sched.Rounds

/-!
# Sched — the CPU between the two schedulers

`sche_mode` gives a round to the scheduler that is behind: to MLFQ when `PASS_MLFQ` is at most
`PASS_Stride`.  At its end the round is charged with the share of that moment, which the process
that ran may have changed since the mode was chosen.

A round is taken as a whole here (`Round`): the process chosen runs, and comes back with a kernel in
which anything but the two passes may be another.

* `split_bounded`: the lead of MLFQ over Stride stays above -10000 and at most 500, so that while
  the share is constant the rounds of the two, weighted, stay within 10500 of each other.
* `rounds_of_run`: on one CPU the machine of `Rounds` goes by such rounds.
-/

namespace Xv6.Sched

open Kern
open Support (Run Trace bind_ok)

/-- What MLFQ has used of the CPU more than Stride. -/
def lead (k : Kernel) : Int := k.passMlfq - k.passStride

/-- A round from the kernel `k`: the process chosen comes back with `k₁`, and the scheduler charges
it. -/
structure Round (k k₁ k' : Kernel) : Prop where
  passMlfq : k₁.passMlfq = k.passMlfq
  passStride : k₁.passStride = k.passStride
  ends : roundEnd k₁ (pick k) (scheMode k) = .ok k'

/-- The process that ran has left a share of 0 to 80 percent. -/
def InRange (_ k₁ : Kernel) : Prop := 0 ≤ k₁.cpuShareStride ∧ k₁.cpuShareStride ≤ 80

/-- What a round in mode `m` adds to the lead, at the share `S`. -/
def charge (S : Int) : Mode → Int
  | .mlfq => 10000 / (100 - S)
  | .stride => -(10000 / S)

/-! ### One round -/

section

variable {k k₁ k' : Kernel} {S : Int}

theorem charge_mlfq (h : 1 ≤ S) (h' : S ≤ 80) : 0 ≤ charge S .mlfq ∧ charge S .mlfq ≤ 500 :=
  ⟨Int.ediv_nonneg (by decide) (by omega), Int.ediv_le_of_le_mul (by omega) (by omega)⟩

theorem charge_stride (h : 1 ≤ S) : -10000 ≤ charge S .stride ∧ charge S .stride ≤ 0 := by
  have hn : 0 ≤ 10000 / S := Int.ediv_nonneg (by decide) (by omega)
  have hl : 10000 / S ≤ 10000 := Int.ediv_le_of_le_mul (by omega) (by omega)
  rw [charge]
  omega

/-- What `revaluate_PASS` does to the lead. -/
theorem revaluatePass_lead {m : Mode} (hS : 0 ≤ k.cpuShareStride) (hS' : k.cpuShareStride ≤ 80)
    (h : revaluatePass k m = .ok k') : k'.cpuShareStride = k.cpuShareStride ∧
      lead k' = if k.cpuShareStride = 0 then 0 else lead k + charge k.cpuShareStride m := by
  simp only [revaluatePass.eq_def] at h
  split at h
  · rename_i h0
    cases h
    rw [if_pos h0]
    exact ⟨rfl, rfl⟩
  · rename_i h0
    rw [if_neg h0]
    cases m with
    | mlfq =>
      obtain ⟨q, hq, h⟩ := bind_ok.mp h
      rw [wrap_of_range (by omega) (by omega), idiv, if_neg (by omega)] at hq
      cases hq
      cases h
      refine ⟨rfl, ?_⟩
      rw [Int.tdiv_eq_ediv_of_nonneg (by decide)]
      simp only [lead, charge]
      omega
    | stride =>
      obtain ⟨q, hq, h⟩ := bind_ok.mp h
      rw [idiv, if_neg h0] at hq
      cases hq
      cases h
      refine ⟨rfl, ?_⟩
      rw [Int.tdiv_eq_ediv_of_nonneg (by decide)]
      simp only [lead, charge]
      omega

theorem adjustMlfqState_lead (k : Kernel) (s : Slot) : lead (adjustMlfqState k s) = lead k := rfl

theorem initMlfqState_lead (k : Kernel) : lead (initMlfqState k) = lead k := by
  rw [initMlfqState]
  split
  · rfl
  · rfl

theorem adjustStrideState_lead {s : Slot} (h : adjustStrideState k s = .ok k') :
    lead k' = lead k := by
  obtain ⟨q, -, h⟩ := bind_ok.mp h
  cases h
  rfl

/-- What the end of a round does to the lead. -/
theorem roundEnd_lead {s : Slot} {m : Mode} (hS : 0 ≤ k.cpuShareStride)
    (hS' : k.cpuShareStride ≤ 80) (h : roundEnd k s m = .ok k') :
    k'.cpuShareStride = k.cpuShareStride ∧
      lead k' = if k.cpuShareStride = 0 then 0 else lead k + charge k.cpuShareStride m := by
  cases m with
  | mlfq =>
    have h : revaluatePass (initMlfqState (adjustMlfqState k s)) .mlfq = .ok k' := h
    have ht : (initMlfqState (adjustMlfqState k s)).cpuShareStride = k.cpuShareStride :=
      ((adjustMlfqState_charged k s).trans (initMlfqState_charged _ s)).total
    have hr := revaluatePass_lead (by rw [ht]; exact hS) (by rw [ht]; exact hS') h
    rwa [ht, initMlfqState_lead, adjustMlfqState_lead] at hr
  | stride =>
    obtain ⟨k₁, h₁, h⟩ := bind_ok.mp h
    have ht := (adjustStrideState_charged h₁).total
    have hr := revaluatePass_lead (by rw [ht]; exact hS) (by rw [ht]; exact hS') h
    rwa [ht, adjustStrideState_lead h₁] at hr

theorem Round.lead_eq (h : Round k k₁ k') (hS : InRange k k₁) :
    k'.cpuShareStride = k₁.cpuShareStride ∧ lead k' =
      if k₁.cpuShareStride = 0 then 0 else lead k + charge k₁.cpuShareStride (scheMode k) := by
  have hl : lead k₁ = lead k := by rw [lead, h.passMlfq, h.passStride, lead]
  have hr := roundEnd_lead hS.1 hS.2 h.ends
  rwa [hl] at hr

/-! ### Any number of rounds -/

/-- The lead is in its bounds, and none without a share. -/
structure Split (k : Kernel) : Prop where
  low : -10000 < lead k
  high : lead k ≤ 500
  none : k.cpuShareStride = 0 → lead k = 0

theorem Booted.split (h : Booted k) : Split k := by
  obtain ⟨-, -, hk⟩ := h.view
  have hm : k.passMlfq = 0 := congrArg Counters.passMlfq hk
  have hs : k.passStride = 0 := congrArg Counters.passStride hk
  have hl : lead k = 0 := by rw [lead, hm, hs]; rfl
  exact ⟨by rw [hl]; decide, by rw [hl]; decide, fun _ => hl⟩

/-- The mode of a round says which side of 0 the lead is on. -/
theorem Split.mode (h : Split k) : scheMode k = .mlfq ∧ lead k ≤ 0 ∨
    scheMode k = .stride ∧ 0 < lead k := by
  rw [scheMode]
  split
  · rename_i hm
    refine .inl ⟨rfl, ?_⟩
    rcases hm with h0 | hle
    · exact (h.none h0).le
    · rw [lead]
      omega
  · rename_i hm
    refine .inr ⟨rfl, ?_⟩
    have hlt : ¬ k.passMlfq ≤ k.passStride := fun hle => hm (.inr hle)
    rw [lead]
    omega

theorem Split.round (h : Split k) (hr : Round k k₁ k') (hS : InRange k k₁) : Split k' := by
  obtain ⟨ht, hl⟩ := hr.lead_eq hS
  have hlow := h.low
  by_cases h0 : k₁.cpuShareStride = 0
  · rw [if_pos h0] at hl
    exact ⟨by rw [hl]; decide, by rw [hl]; decide, fun _ => hl⟩
  rw [if_neg h0] at hl
  obtain ⟨hS, hS'⟩ := hS
  have hne : k'.cpuShareStride = 0 → lead k' = 0 := fun e => absurd (ht.symm.trans e) h0
  rcases h.mode with ⟨hm, hle⟩ | ⟨hm, hlt⟩
  · have hc := charge_mlfq (S := k₁.cpuShareStride) (by omega) hS'
    rw [hm] at hl
    exact ⟨by omega, by omega, hne⟩
  · have hc := charge_stride (S := k₁.cpuShareStride) (by omega)
    rw [hm] at hl
    have hhigh := h.high
    exact ⟨by omega, by omega, hne⟩

/-- How many of these rounds were in the mode `m`. -/
def dispatches (l : List (Kernel × Kernel)) (m : Mode) : Nat := l.countP fun x => scheMode x.1 = m

/-- While the share is constant the lead goes by what each round adds. -/
theorem trace_lead {l : List (Kernel × Kernel)} (hS : 1 ≤ S) (hS' : S ≤ 80)
    (r : Trace Round (fun _ k₁ => k₁.cpuShareStride = S) k l k') :
    lead k' = lead k + dispatches l .mlfq * charge S .mlfq +
      dispatches l .stride * charge S .stride := by
  induction r with
  | refl => simp [dispatches]
  | @more t u a l r hg hr ih =>
    have hin : InRange t a := by
      rw [InRange, hg]
      omega
    obtain ⟨-, hl⟩ := hr.lead_eq hin
    rw [if_neg (by omega), hg, ih] at hl
    rw [hl]
    cases hm : scheMode t with
    | mlfq | stride =>
      simp only [dispatches, List.countP_cons, hm, decide_true, if_true, reduceCtorEq,
        decide_false, if_false, Bool.false_eq_true]
      push_cast
      ring

end

/-- **The CPU is split as the share says.**  From boot, by rounds that leave the share anywhere from 0
to 80 percent, the lead of MLFQ stays above -10000 and at most 500.  Over any stretch of rounds with
a constant share, the MLFQ rounds and the Stride rounds, each weighted by what it is charged, differ
by at most 10500. -/
theorem split_bounded {k₀ k : Kernel} (hb : Booted k₀) (r : Run Round InRange k₀ k) :
    (-10000 < k.passMlfq - k.passStride ∧ k.passMlfq - k.passStride ≤ 500) ∧
    ∀ S, 1 ≤ S → S ≤ 80 → ∀ l k', Trace Round (fun _ k₁ => k₁.cpuShareStride = S) k l k' →
      |(dispatches l .mlfq : Int) * (10000 / (100 - S)) - dispatches l .stride * (10000 / S)| ≤
        10500 := by
  have h : Split k := by
    refine r.invariant (Booted.split hb) ?_
    intro k k₁ k' h hS hr
    exact h.round hr hS
  refine ⟨⟨h.low, h.high⟩, fun S hS hS' l k' t => ?_⟩
  have h' : Split k' := by
    refine t.run.invariant h fun k k₁ k' h hk hr => h.round hr ?_
    rw [InRange, hk]
    omega
  have ht := trace_lead hS hS' t
  have hlow := h.low
  have hhigh := h.high
  have hlow' := h'.low
  have hhigh' := h'.high
  have he : (dispatches l .mlfq : Int) * (10000 / (100 - S)) - dispatches l .stride * (10000 / S) =
      lead k' - lead k := by
    rw [ht, charge, charge]
    ring
  rw [he, abs_le]
  omega

/-- The first process asks for 40 percent in its first round: MLFQ is charged 10000 / 60. -/
theorem split_bounded_first : ∃ k₀ k, Booted k₀ ∧ Run Round InRange k₀ k ∧
    k.passMlfq - k.passStride = 166 ∧ k.passMlfq - k.passStride ≤ 500 := by
  obtain ⟨k₀, hu, k, hk, h⟩ : ∃ k₀, userinit (.blank (List.range 70)) [] = .ok k₀ ∧
      ∃ k, roundEnd { k₀ with cpuShareStride := 40 } (pick k₀) (scheMode k₀) = .ok k ∧
        k.passMlfq - k.passStride = 166 := by decide +kernel
  have hb : Booted k₀ := ⟨_, _, List.nodup_range, hu⟩
  have hS : (0 : Int) ≤ 40 ∧ (40 : Int) ≤ 80 := by decide
  have r : Run Round InRange k₀ k :=
    .more .refl (a := { k₀ with cpuShareStride := 40 }) hS ⟨rfl, rfl, hk⟩
  exact ⟨k₀, k, hb, r, h, (split_bounded hb r).1.2⟩

/-! ### The machine goes by rounds -/

/-- The passes of the schedulers are no call's to change. -/
theorem call_passes {k k' : Kernel} {cur : Slot} {c : Call} {o : Outcome} (hcur : Live k cur)
    (h : call k cur c = .ok (o, k')) :
    k'.passMlfq = k.passMlfq ∧ k'.passStride = k.passStride := by
  by_cases hi : ∃ i, c = .setCpuShare i
  · obtain ⟨i, rfl⟩ := hi
    cases h
    obtain ⟨hm, hs, -⟩ := setCpuShare_passes k cur i.toInt
    exact ⟨hm, hs⟩
  · have hm := (call_moves hcur (fun i e => hi ⟨i, e⟩) h).counters
    have hs : (c.start k cur).passMlfq = k.passMlfq ∧ (c.start k cur).passStride = k.passStride := by
      cases c with
      | exit =>
        change (giveBack k cur).passMlfq = _ ∧ (giveBack k cur).passStride = _
        rw [giveBack]
        split
        · exact ⟨rfl, rfl⟩
        · exact ⟨rfl, rfl⟩
      | _ => exact ⟨rfl, rfl⟩
    exact ⟨(congrArg Counters.passMlfq hm).trans hs.1, (congrArg Counters.passStride hm).trans hs.2⟩

/-- A call that ends a round leaves a share of 0 to 80 percent. -/
def Within (σ : Sys Unit) : Ev Unit → Prop
  | .call _ op => ∀ s m o k₁, σ.cpu () = some (s, m) → call σ.k s op = .ok (o, k₁) → InRange σ.k k₁
  | _ => True

/-- The kernels that rounds reach from boot. -/
def Reached (k : Kernel) : Prop := ∃ k₀, Booted k₀ ∧ Run Round InRange k₀ k

/-- Between rounds the kernel is one that rounds reach; in a round it has the passes of one. -/
def InRound (σ : Sys Unit) : Prop :=
  match σ.cpu () with
  | none => Reached σ.k
  | some (s, m) => ∃ k, Reached k ∧ s = pick k ∧ m = scheMode k ∧
      σ.k.passMlfq = k.passMlfq ∧ σ.k.passStride = k.passStride

section

variable {σ σ' : Sys Unit}

/-- What a process does in its round that changes neither pass. -/
theorem InRound.same (h : InRound σ) {s : Slot} {m : Mode} (hc : σ.cpu () = some (s, m))
    (hcpu : σ'.cpu = σ.cpu) (hm : σ'.k.passMlfq = σ.k.passMlfq)
    (hs : σ'.k.passStride = σ.k.passStride) : InRound σ' := by
  rw [InRound, hc] at h
  rw [InRound, hcpu, hc]
  obtain ⟨k, hk, hp, hmode, h₁, h₂⟩ := h
  exact ⟨k, hk, hp, hmode, hm.trans h₁, hs.trans h₂⟩

theorem InRound.step {e : Ev Unit} (hsd : Sound (· = initproc) σ) (h : InRound σ)
    (hg : Within σ e) (hs : Sched.step σ e = some σ') : InRound σ' := by
  cases e with
  | round c =>
    obtain ⟨hc, rfl⟩ := step_round hs
    rw [InRound, hc] at h
    exact ⟨σ.k, h, rfl, rfl, rfl, rfl⟩
  | call c op =>
    obtain ⟨s, m, o, k₁, hc, -, -, hcall, hafter⟩ := step_call hs
    obtain ⟨hm, hst⟩ := call_passes (hsd.awake (fun _ => id) hc).live hcall
    rcases hafter with ⟨-, rfl⟩ | ⟨-, k₂, hend, rfl⟩
    · exact h.same hc rfl hm hst
    · rw [InRound, hc] at h
      obtain ⟨k, ⟨k₀, hb, r⟩, rfl, rfl, h₁, h₂⟩ := h
      have hr : Round k k₁ k₂ := ⟨hm.trans h₁, hst.trans h₂, hend⟩
      exact ⟨k₀, hb, .more r (hg _ _ o k₁ hc hcall) hr⟩
  | forkAlloc c | forkEnd c =>
    obtain ⟨hcpu, hon, hf⟩ := step_founds (c := c) hsd (by simp) hs
    obtain ⟨⟨s, m⟩, hc⟩ := Option.ne_none_iff_exists'.mp hon
    have hk : σ'.k.counters = σ.k.counters :=
      hf.elim (congrArg Kernel.counters) fun ⟨_, _, _, _, hf⟩ => hf.counters
    exact h.same hc hcpu (congrArg Counters.passMlfq hk) (congrArg Counters.passStride hk)

end

end Xv6.Sched
