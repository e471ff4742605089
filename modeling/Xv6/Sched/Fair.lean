import Xv6.Proc.Share
import Xv6.Sched.Rounds

/-!
# Sched — fairness among the Stride processes

On one CPU the Stride scan takes the process with the least `PASS`, and the end of the round adds the
stride `10000 / CPU_SHARE` of that process.  `max_stride_proc_pass` is the greatest value ever
reached, and a process that asks for a share for the first time starts there.  So all passes lie
within one stride below that maximum, whoever reached it, and whether or not it is still there.

* `Fair D`: the steps of a run in which Stride processes are RUNNABLE between their rounds, join by
  `set_cpu_share` and leave at any time, with strides of at most `D`.
* `stride_fair`: in such a run any two passes differ by at most `D`, and the rounds of two processes,
  weighted by their strides, drift apart by at most `2 * D`.
-/

namespace Xv6.Sched

open Function (update_self update_of_ne)
open Kern
open Support (Trace bind_ok)

/-! ### The scan -/

section

variable {t : Slot → Proc} {s : Slot}

/-- The process is RUNNABLE and of Stride. -/
def StrideReady (p : Proc) : Prop := p.state = .runnable ∧ p.procMode = .stride

theorem toInt_of_range {x : Int} (h : 0 ≤ x) (h' : x < 2 ^ 31) : toInt x = x := by
  rw [toInt, if_pos (by omega)]

theorem strideVisit_eq (b : Slot × Int) (h : StrideReady (t s)) :
    strideVisit t b s = if (t s).pass < b.2 then (s, toInt (t s).pass) else b := by
  rw [strideVisit, if_pos (show _ ∧ _ from h)]

theorem strideVisit_other (b : Slot × Int) (h : ¬ StrideReady (t s)) : strideVisit t b s = b := by
  rw [strideVisit, if_neg (show ¬ (_ ∧ _) from h)]

/-- What the scan holds: nothing yet, or the pass of a process it can take. -/
def Candidate (t : Slot → Proc) (b : Slot × Int) : Prop :=
  b.2 = 2147483645 ∨ StrideReady (t b.1) ∧ b.2 = (t b.1).pass

theorem strideVisit_candidate (hp : ∀ q, StrideReady (t q) → 0 ≤ (t q).pass ∧ (t q).pass < 2147483645)
    (b : Slot × Int) (hb : Candidate t b) (q : Slot) : Candidate t (strideVisit t b q) := by
  by_cases hq : StrideReady (t q)
  · rw [strideVisit_eq b hq]
    split
    · obtain ⟨h0, h1⟩ := hp q hq
      exact .inr ⟨hq, toInt_of_range h0 (by omega)⟩
    · exact hb
  · rw [strideVisit_other b hq]
    exact hb

/-- The scan takes a process with the least pass. -/
theorem findRunnableStride_min
    (hp : ∀ q, StrideReady (t q) → 0 ≤ (t q).pass ∧ (t q).pass < 2147483645)
    (hs : StrideReady (t s)) : StrideReady (t (findRunnableStride t)) ∧
      (t (findRunnableStride t)).pass ≤ (t s).pass := by
  have hcand : Candidate t ((List.finRange NPROC).foldl (strideVisit t) (initproc, 2147483645)) :=
    Support.scan_good (fun b q hb => strideVisit_candidate hp b hb q) _ (.inl rfl)
  -- from the visit to `s` on, the bound is at most its pass
  have hle : ((List.finRange NPROC).foldl (strideVisit t) (initproc, 2147483645)).2 ≤
      (t s).pass := by
    refine Support.scan_reaches (S := fun q => q = s) (W := fun _ => True)
      (G := fun b : Slot × Int => b.2 ≤ (t s).pass) (fun _ _ h => h) ?_ ?_ trivial
      (List.mem_finRange s) rfl
    · intro b q hb
      by_cases hq : StrideReady (t q)
      · obtain ⟨h0, h1⟩ := hp q hq
        rw [strideVisit_eq b hq]
        split
        · rw [toInt_of_range h0 (by omega)]
          omega
        · exact hb
      · rw [strideVisit_other b hq]
        exact hb
    · rintro b q - rfl
      obtain ⟨h0, h1⟩ := hp q hs
      rw [strideVisit_eq b hs]
      split
      · rw [toInt_of_range h0 (by omega)]
      · omega
  have hlt := (hp s hs).2
  rcases hcand with hd | ⟨hr, hpass⟩
  · omega
  · exact ⟨hr, hpass ▸ hle⟩

end

/-! ### The members -/

/-- A Stride process that is ready or running. -/
def Member (k : Kernel) (s : Slot) : Prop :=
  (k.ptable s).procMode = .stride ∧ ((k.ptable s).state = .runnable ∨ (k.ptable s).state = .running)

/-- What a process is charged for a Stride round. -/
def stride (k : Kernel) (s : Slot) : Int := 10000 / (k.ptable s).cpuShare

/-- The members have shares and strides of at most `D`, the Stride total is positive while there is
one, and no pass comes to the bound of the scan. -/
structure Kept (D : Int) (k : Kernel) : Prop where
  share : ∀ s, Member k s → 1 ≤ (k.ptable s).cpuShare ∧ stride k s ≤ D
  total : ∀ s, Member k s → 0 < k.cpuShareStride
  pass : ∀ s, (k.ptable s).procMode = .stride → (k.ptable s).pass < 2147483645

/-- The process that asks for a share in this step. -/
def joiner (σ : Sys Unit) : Ev Unit → Option Slot
  | .call _ (.setCpuShare _) => (σ.cpu ()).map Prod.fst
  | _ => none

/-- A step after which the members are some of those before it, or the process that has asked for a
share for the first time. -/
structure Fair (D : Int) (σ : Sys Unit) (e : Ev Unit) : Prop where
  first : ∀ s ∈ joiner σ e, (σ.k.ptable s).procMode ≠ .stride
  joins : ∀ σ' ∈ step σ e, ∀ s, Member σ'.k s → Member σ.k s ∨ s ∈ joiner σ e
  kept : ∀ σ' ∈ step σ e, Kept D σ'.k

instance (k : Kernel) (s : Slot) : Decidable (Member k s) := inferInstanceAs (Decidable (_ ∧ (_ ∨ _)))

instance (D : Int) (k : Kernel) : Decidable (Kept D k) :=
  decidable_of_iff ((∀ s, Member k s → 1 ≤ (k.ptable s).cpuShare ∧ stride k s ≤ D) ∧
    (∀ s, Member k s → 0 < k.cpuShareStride) ∧
    ∀ s, (k.ptable s).procMode = .stride → (k.ptable s).pass < 2147483645)
    ⟨fun h => ⟨h.1, h.2.1, h.2.2⟩, fun h => ⟨h.share, h.total, h.pass⟩⟩

instance (D : Int) (σ : Sys Unit) (e : Ev Unit) : Decidable (Fair D σ e) :=
  decidable_of_iff ((∀ s ∈ joiner σ e, (σ.k.ptable s).procMode ≠ .stride) ∧
    (∀ σ' ∈ step σ e, ∀ s, Member σ'.k s → Member σ.k s ∨ s ∈ joiner σ e) ∧
    ∀ σ' ∈ step σ e, Kept D σ'.k)
    ⟨fun h => ⟨h.1, h.2.1, h.2.2⟩, fun h => ⟨h.first, h.joins, h.kept⟩⟩

/-! ### What a step does to the members -/

/-- A process of MLFQ has no share. -/
def Plain (v : View) : Prop := v.procMode = .mlfq → v.cpuShare = 0

variable {v v' : View} {o : Outcome} {k k' : Kernel}

theorem Other.plain (h : Other v v') (hp : Plain v) : Plain v' := by
  cases h with
  | same | wake | reap => exact hp
  | join | alloc => exact fun _ => rfl

theorem Own.plain (h : Own o v v') (hp : Plain v) : Plain v' := by
  cases h with
  | same | wake | leave | die => exact hp

theorem Other.running (h : Other v v') (hr : v'.state = .running) : v.state = .running := by
  cases h with
  | same => exact hr
  | wake | reap | join => cases hr
  | alloc _ hst =>
    rcases hst with rfl | rfl | rfl
    · cases hr
    · cases hr
    · cases hr

theorem Own.view_eq (h : Own o v v') : v' = { v with state := v'.state } := by
  cases h with
  | same | wake | leave | die => rfl

theorem Own.running (h : Own .stays v v') (hr : v.state = .running) : v'.state = .running := by
  cases h with
  | same => exact hr
  | wake hs => rw [hr] at hs; cases hs

theorem Own.not_running (h : Own o v v') (ho : o ≠ .stays) : v'.state ≠ .running := by
  cases h with
  | same | wake => exact absurd rfl ho
  | leave _ hst => rcases hst with rfl | rfl <;> nofun
  | die => nofun

/-- A call other than `set_cpu_share`, by a process that runs. -/
structure Quiet (cur : Slot) (o : Outcome) (k k' : Kernel) : Prop where
  other : ∀ q, q ≠ cur → (k.ptable q).state = .runnable ∨ (k.ptable q).state = .running →
    (k'.ptable q).view = (k.ptable q).view
  running : ∀ q, q ≠ cur → (k'.ptable q).state = .running → (k.ptable q).state = .running
  own : (k'.ptable cur).view = { (k.ptable cur).view with state := (k'.ptable cur).state }
  stays : o = .stays → (k'.ptable cur).state = .running
  leaves : o ≠ .stays → (k'.ptable cur).state ≠ .running
  plain : (∀ q, Plain (k.ptable q).view) → ∀ q, Plain (k'.ptable q).view
  top : k'.maxStrideProcPass = k.maxStrideProcPass

theorem call_quiet {cur : Slot} {c : Call}
    (hcur : (k.ptable cur).state = .running) (hc : ∀ i, c ≠ .setCpuShare i)
    (h : call k cur c = .ok (o, k')) : Quiet cur o k k' := by
  have hl : Live k cur := by simp [Live, hcur]
  have m := call_moves hl hc h
  have hp : (c.start k cur).ptable = k.ptable := by
    cases c with
    | exit => exact giveBack_ptable k cur
    | _ => rfl
  have ht : (c.start k cur).maxStrideProcPass = k.maxStrideProcPass := by
    cases c with
    | exit =>
      change (giveBack k cur).maxStrideProcPass = _
      rw [giveBack]
      split
      · rfl
      · rfl
    | _ => rfl
  have hown := m.own
  have hother := m.other
  rw [hp] at hown hother
  refine ⟨fun q e hq => ?_, fun q e hq => ?_, ?_, fun ho => ?_, fun ho => ?_, fun hpl q => ?_, ?_⟩
  · refine other_eq (hother q e) ?_ ?_ ?_
    all_goals
      change (k.ptable q).state ≠ _
      rcases hq with hq | hq <;> rw [hq] <;> decide
  · exact Other.running (hother q e) hq
  · exact Own.view_eq hown
  · subst ho
    exact Own.running hown hcur
  · exact Own.not_running hown ho
  · by_cases e : q = cur
    · rw [e]
      exact Own.plain hown (hpl cur)
    · exact Other.plain (hother q e) (hpl q)
  · exact (congrArg Counters.maxStrideProcPass m.counters).trans ht

/-- The end of a round: the states, modes and shares are the same, and the passes too but for that of
the process of a Stride round. -/
structure Ended (s : Slot) (m : Mode) (k k' : Kernel) : Prop where
  charged : Charged s k k'
  pass : ∀ q, (m = .stride → q ≠ s) → (k'.ptable q).pass = (k.ptable q).pass
  own : m = .stride → (k.ptable s).cpuShare ≠ 0 ∧
    (k'.ptable s).pass = (k.ptable s).pass + Int.tdiv 10000 (k.ptable s).cpuShare
  top : k'.maxStrideProcPass = if k.cpuShareStride = 0 then 0
    else if m = .stride ∧ k.maxStrideProcPass < (k'.ptable s).pass then toInt (k'.ptable s).pass
    else k.maxStrideProcPass

theorem revaluatePass_ended {m : Mode} (h : revaluatePass k m = .ok k') :
    k'.ptable = k.ptable ∧ k'.maxStrideProcPass =
      if k.cpuShareStride = 0 then 0 else k.maxStrideProcPass := by
  simp only [revaluatePass.eq_def] at h
  split at h
  · rename_i h0
    cases h
    rw [if_pos h0]
    exact ⟨rfl, rfl⟩
  · rename_i h0
    rw [if_neg h0]
    cases m with
    | mlfq | stride =>
      obtain ⟨q, -, h⟩ := bind_ok.mp h
      cases h
      exact ⟨rfl, rfl⟩

theorem adjustMlfqState_pass (k : Kernel) (s q : Slot) :
    ((adjustMlfqState k s).ptable q).pass = (k.ptable q).pass := by
  by_cases e : q = s
  · subst e
    simp only [adjustMlfqState, Kernel.set_ptable, update_self]
    split
    · rfl
    · split
      · rfl
      · rfl
  · simp only [adjustMlfqState, Kernel.set_ptable, update_of_ne e]

theorem initMlfqState_pass (k : Kernel) (q : Slot) :
    ((initMlfqState k).ptable q).pass = (k.ptable q).pass := by
  rw [initMlfqState]
  split
  · dsimp only
    split
    · rfl
    · rfl
  · rfl

theorem roundEnd_ended {s : Slot} {m : Mode} (h : roundEnd k s m = .ok k') : Ended s m k k' := by
  have hch := roundEnd_charged h
  cases m with
  | mlfq =>
    have h : revaluatePass (initMlfqState (adjustMlfqState k s)) .mlfq = .ok k' := h
    obtain ⟨hp, ht⟩ := revaluatePass_ended h
    refine ⟨hch, fun q _ => ?_, nofun, ?_⟩
    · rw [hp, initMlfqState_pass, adjustMlfqState_pass]
    have hS : (initMlfqState (adjustMlfqState k s)).cpuShareStride = k.cpuShareStride :=
      ((adjustMlfqState_charged k s).trans (initMlfqState_charged _ s)).total
    have hM : (initMlfqState (adjustMlfqState k s)).maxStrideProcPass = k.maxStrideProcPass := by
      rw [initMlfqState]
      split
      · rfl
      · rfl
    rw [ht, hS, hM]
    simp
  | stride =>
    obtain ⟨k₁, h₁, h⟩ := bind_ok.mp h
    obtain ⟨hp, ht⟩ := revaluatePass_ended h
    obtain ⟨q, hq, h₁⟩ := bind_ok.mp h₁
    rw [idiv] at hq
    split at hq
    · cases hq
    rename_i hne
    cases hq
    cases h₁
    refine ⟨hch, fun q hq => ?_, fun _ => ⟨hne, ?_⟩, ?_⟩
    · rw [hp, Kernel.set_ptable, update_of_ne (hq rfl)]
    · rw [hp, Kernel.set_ptable, update_self]
    · rw [ht, hp, Kernel.set_ptable, update_self]
      simp only [true_and]
      rfl

/-! ### What a step does -/

/-- A change in the course of a round that concerns no process that is ready or running. -/
structure Calm (k k' : Kernel) : Prop where
  view : ∀ q, (k.ptable q).state = .runnable ∨ (k.ptable q).state = .running →
    (k'.ptable q).view = (k.ptable q).view
  running : ∀ q, (k'.ptable q).state = .running → (k.ptable q).state = .running
  plain : (∀ q, Plain (k.ptable q).view) → ∀ q, Plain (k'.ptable q).view
  top : k'.maxStrideProcPass = k.maxStrideProcPass

theorem Calm.refl (k : Kernel) : Calm k k := ⟨fun _ _ => rfl, fun _ => id, id, rfl⟩

theorem Founded.calm {np : Slot} {st : State} (h : Founded np st k k') (hst : st ≠ .running)
    (hnp : ¬ ((k.ptable np).state = .runnable ∨ (k.ptable np).state = .running)) : Calm k k' := by
  have hne : ∀ q, (k.ptable q).state = .runnable ∨ (k.ptable q).state = .running → q ≠ np := by
    rintro q hq rfl
    exact hnp hq
  refine ⟨fun q hq => h.view q (hne q hq), fun q hq => ?_, fun hp q => ?_,
    congrArg Counters.maxStrideProcPass h.counters⟩
  · have e : q ≠ np := by
      rintro rfl
      exact hst ((congrArg View.state h.self).symm.trans hq)
    exact (congrArg View.state (h.view q e)).symm.trans hq
  · by_cases e : q = np
    · rw [e, h.self]
      exact fun _ => rfl
    · rw [h.view q e]
      exact hp q

/-- What a step on one CPU does to the Stride processes. -/
inductive Turned (σ σ' : Sys Unit) : Ev Unit → Prop where
  | begins (c : Unit) (hc : σ.cpu () = none) (hc' : σ'.cpu () = some (pick σ.k, scheMode σ.k))
      (hk : σ'.k = σ.k.set (pick σ.k) ({ · with state := .running })) : Turned σ σ' (.round c)
  | stays {e : Ev Unit} (s : Slot) (m : Mode) (hc : σ.cpu () = some (s, m))
      (hc' : σ'.cpu () = some (s, m)) (h : Calm σ.k σ'.k) (he : ∀ c, e ≠ .round c) : Turned σ σ' e
  | joins (c : Unit) (i : BitVec 32) (s : Slot) (m : Mode) (hc : σ.cpu () = some (s, m))
      (hc' : σ'.cpu () = some (s, m)) (hi : 0 < i.toInt)
      (hs : (σ'.k.ptable s).view = { (σ.k.ptable s).view with
        cpuShare := i.toInt, procMode := .stride, pass := σ.k.maxStrideProcPass })
      (ho : ∀ q, q ≠ s → σ'.k.ptable q = σ.k.ptable q)
      (ht : σ'.k.maxStrideProcPass = σ.k.maxStrideProcPass) :
      Turned σ σ' (.call c (.setCpuShare i))
  | ends (c : Unit) (op : Call) (s : Slot) (m : Mode) (o : Outcome) (k₁ : Kernel)
      (hc : σ.cpu () = some (s, m)) (hc' : σ'.cpu () = none) (ho : o ≠ .stays)
      (hop : ∀ i, op ≠ .setCpuShare i) (hq : Quiet s o σ.k k₁) (he : Ended s m k₁ σ'.k) :
      Turned σ σ' (.call c op)

theorem step_turned {D : Int} {σ σ' : Sys Unit} {e : Ev Unit}
    (hsd : Sound (· = initproc) σ)
    (hcur : ∀ s m, σ.cpu () = some (s, m) → (σ.k.ptable s).state = .running)
    (hf : Fair D σ e) (hs : step σ e = some σ') : Turned σ σ' e := by
  cases e with
  | round c =>
    obtain ⟨hc, rfl⟩ := step_round hs
    exact .begins c hc rfl rfl
  | call c op =>
    obtain ⟨s, m, o, k₁, hc, -, -, hcall, hafter⟩ := step_call hs
    by_cases hi : ∃ i, op = .setCpuShare i
    · obtain ⟨i, rfl⟩ := hi
      have hj : s ∈ joiner σ (.call c (.setCpuShare i)) := by rw [joiner, hc]; rfl
      have hfirst := hf.first s hj
      cases hcall
      rcases hafter with ⟨-, rfl⟩ | ⟨ho, -⟩
      · rcases setCpuShare_cases σ.k s i.toInt with ⟨hk, -⟩ | ⟨hi, -, -, -, hv, ho⟩ | ⟨-, hm, -⟩
        · refine .stays s m hc hc ?_ nofun
          rw [hk]
          exact .refl _
        · exact .joins c i s m hc hc hi hv ho (setCpuShare_passes σ.k s i.toInt).2.2
        · exact absurd hm hfirst
      · exact absurd rfl ho
    · have hop : ∀ i, op ≠ .setCpuShare i := fun i e => hi ⟨i, e⟩
      have hq := call_quiet (hcur s m hc) hop hcall
      rcases hafter with ⟨rfl, rfl⟩ | ⟨ho, k₂, hend, rfl⟩
      · refine .stays s m hc hc ⟨fun q hq' => ?_, fun q hq' => ?_, hq.plain, hq.top⟩ nofun
        · by_cases e : q = s
          · subst e
            rw [hq.own, hq.stays rfl, ← hcur q m hc]
            rfl
          · exact hq.other q e hq'
        · by_cases e : q = s
          · rw [e]
            exact hcur s m hc
          · exact hq.running q e hq'
      · have hc' : Function.update σ.cpu c none () = none := update_self ..
        exact .ends c op s m o k₁ hc hc' ho hop hq (roundEnd_ended hend)
  | forkAlloc c | forkEnd c =>
    obtain ⟨hcpu, hon, h⟩ := step_founds (c := c) hsd (by simp) hs
    obtain ⟨⟨s, m⟩, hc⟩ := Option.ne_none_iff_exists'.mp hon
    refine .stays s m hc (by rw [hcpu]; exact hc) ?_ nofun
    rcases h with hk | ⟨np, st, hv, hst, hf⟩
    · rw [hk]
      exact .refl _
    · exact Founded.calm hf hst fun hr => Awake.not_vacant (.inr hr) hv

/-! ### The invariant -/

/-- The passes of the members lie within `D` below the greatest pass ever reached.  In a Stride round
the process that runs has the least of them, and without one that is ready it runs alone. -/
structure Near (D : Int) (σ : Sys Unit) : Prop where
  kept : Kept D σ.k
  zero : 0 ≤ σ.k.maxStrideProcPass
  pass : ∀ s, Member σ.k s → 0 ≤ (σ.k.ptable s).pass ∧
    (σ.k.ptable s).pass ≤ σ.k.maxStrideProcPass ∧ σ.k.maxStrideProcPass ≤ (σ.k.ptable s).pass + D
  least : ∀ s, σ.cpu () = some (s, .stride) → ∀ t, Member σ.k t →
    (σ.k.ptable s).procMode = .stride ∧ (σ.k.ptable s).pass ≤ (σ.k.ptable t).pass
  cur : ∀ s m, σ.cpu () = some (s, m) → (σ.k.ptable s).state = .running
  run : ∀ s, (σ.k.ptable s).state = .running → ∃ m, σ.cpu () = some (s, m)
  plain : ∀ s, Plain (σ.k.ptable s).view

section

variable {D : Int} {σ σ' : Sys Unit}

theorem near_start (h : Start σ) : Near D σ := by
  obtain ⟨hb, hc, -⟩ := h
  obtain ⟨h₀, hq, hk⟩ := hb.view
  have hview : ∀ s, (σ.k.ptable s).procMode = .mlfq ∧ (σ.k.ptable s).cpuShare = 0 ∧
      (σ.k.ptable s).state ≠ .running := by
    intro s
    change (σ.k.ptable s).view.procMode = _ ∧ (σ.k.ptable s).view.cpuShare = _ ∧
      (σ.k.ptable s).view.state ≠ _
    by_cases e : s = initproc
    · rw [e, h₀]
      exact ⟨rfl, rfl, by decide⟩
    · rw [hq s e]
      exact ⟨rfl, rfl, by decide⟩
  have hno : ∀ s, ¬ Member σ.k s := by
    intro s hm
    have := hm.1
    rw [(hview s).1] at this
    cases this
  have ht : σ.k.maxStrideProcPass = 0 := congrArg Counters.maxStrideProcPass hk
  refine ⟨⟨fun s hm => absurd hm (hno s), fun s hm => absurd hm (hno s), fun s hm => ?_⟩, ht.symm.le,
    fun s hm => absurd hm (hno s), fun s hs => ?_, fun s m hs => ?_, fun s hs => ?_,
    fun s _ => (hview s).2.1⟩
  · rw [(hview s).1] at hm
    cases hm
  · rw [hc] at hs
    cases hs
  · rw [hc] at hs
    cases hs
  · exact absurd hs (hview s).2.2

variable {s q : Slot} {k k' k₁ : Kernel} {m : Mode} {o : Outcome} {e : Ev Unit}

/-- A stride that is kept is not negative. -/
theorem Kept.stride_nonneg (h : Kept D k) (hs : Member k s) : 0 ≤ stride k s ∧ stride k s ≤ D := by
  obtain ⟨h1, hD⟩ := h.share s hs
  exact ⟨Int.ediv_nonneg (by decide) (by omega), hD⟩

theorem member_of_view (h : (k'.ptable q).view = (k.ptable q).view) : Member k' q ↔ Member k q := by
  have hm : (k'.ptable q).procMode = (k.ptable q).procMode := congrArg View.procMode h
  have hs : (k'.ptable q).state = (k.ptable q).state := congrArg View.state h
  rw [Member, Member, hm, hs]

theorem near_begins (h : Near D σ) (hc : σ.cpu () = none)
    (hc' : σ'.cpu () = some (pick σ.k, scheMode σ.k))
    (hk : σ'.k = σ.k.set (pick σ.k) ({ · with state := .running }))
    (hj : ∀ s, Member σ'.k s → Member σ.k s) (hkept : Kept D σ'.k) : Near D σ' := by
  have hself : ∀ {α : Type} (f : Proc → α), (∀ p st, f { p with state := st } = f p) →
      ∀ q, f (σ'.k.ptable q) = f (σ.k.ptable q) := by
    intro α f hf q
    rw [hk, Kernel.set_ptable]
    by_cases e : q = pick σ.k
    · rw [e, update_self, hf]
    · rw [update_of_ne e]
  have hpass := hself Proc.pass fun _ _ => rfl
  have hmode := hself Proc.procMode fun _ _ => rfl
  have hshare := hself Proc.cpuShare fun _ _ => rfl
  have htop : σ'.k.maxStrideProcPass = σ.k.maxStrideProcPass := by rw [hk]; rfl
  have hrun : (σ'.k.ptable (pick σ.k)).state = .running := by
    rw [hk, Kernel.set_ptable, update_self]
  -- nobody was running, so every member was ready
  have hready : ∀ s, Member σ.k s → StrideReady (σ.k.ptable s) := by
    intro s hs
    refine ⟨hs.2.resolve_right fun hr => ?_, hs.1⟩
    obtain ⟨m, hm⟩ := h.run s hr
    rw [hc] at hm
    cases hm
  refine ⟨hkept, htop ▸ h.zero, fun s hs => ?_, fun s hs t ht => ?_, fun s m hs => ?_, fun s hs => ?_,
    fun s hs => ?_⟩
  · rw [hpass, htop]
    exact h.pass s (hj s hs)
  · rw [hc'] at hs
    obtain ⟨rfl, hm⟩ := Prod.mk.inj (Option.some.inj hs)
    have hmin := findRunnableStride_min (t := σ.k.ptable) (s := t)
      (fun q hq => ⟨(h.pass q ⟨hq.2, .inl hq.1⟩).1, h.kept.pass q hq.2⟩) (hready t (hj t ht))
    have hp : findRunnableStride σ.k.ptable = pick σ.k := by rw [pick, hm]
    rw [hp] at hmin
    rw [hmode, hpass, hpass]
    exact ⟨hmin.1.2, hmin.2⟩
  · rw [hc'] at hs
    cases hs
    exact hrun
  · refine ⟨scheMode σ.k, ?_⟩
    by_cases e : s = pick σ.k
    · rw [hc', e]
    · rw [hk, Kernel.set_ptable, update_of_ne e] at hs
      obtain ⟨m, hm⟩ := h.run s hs
      rw [hc] at hm
      cases hm
  · have hp := h.plain s
    have hs' : (σ'.k.ptable s).procMode = .mlfq := hs
    change (σ'.k.ptable s).cpuShare = 0
    rw [hshare]
    rw [hmode] at hs'
    exact hp hs'

theorem near_stays (h : Near D σ) (hc : σ.cpu () = some (s, m))
    (hc' : σ'.cpu () = some (s, m)) (hk : Calm σ.k σ'.k)
    (hj : ∀ s, Member σ'.k s → Member σ.k s) (hkept : Kept D σ'.k) : Near D σ' := by
  have hview : ∀ q, Member σ.k q → (σ'.k.ptable q).view = (σ.k.ptable q).view :=
    fun q hq => hk.view q hq.2
  have hcur := h.cur s m hc
  have hs : (σ'.k.ptable s).view = (σ.k.ptable s).view := hk.view s (.inr hcur)
  refine ⟨hkept, hk.top ▸ h.zero, fun q hq => ?_, fun q hq t ht => ?_, fun q m' hq => ?_,
    fun q hq => ?_, hk.plain h.plain⟩
  · have hp : (σ'.k.ptable q).pass = (σ.k.ptable q).pass := congrArg View.pass (hview q (hj q hq))
    rw [hp, hk.top]
    exact h.pass q (hj q hq)
  · rw [hc'] at hq
    cases hq
    have hp : (σ'.k.ptable t).pass = (σ.k.ptable t).pass := congrArg View.pass (hview t (hj t ht))
    have hps : (σ'.k.ptable s).pass = (σ.k.ptable s).pass := congrArg View.pass hs
    have hms : (σ'.k.ptable s).procMode = (σ.k.ptable s).procMode := congrArg View.procMode hs
    rw [hp, hps, hms]
    exact h.least s hc t (hj t ht)
  · rw [hc'] at hq
    cases hq
    exact (congrArg View.state hs).trans hcur
  · obtain ⟨m', hm'⟩ := h.run q (hk.running q hq)
    rw [hc] at hm'
    cases hm'
    exact ⟨m, hc'⟩

theorem near_joins (h : Near D σ) {i : Int} (hc : σ.cpu () = some (s, m))
    (hc' : σ'.cpu () = some (s, m)) (hfirst : (σ.k.ptable s).procMode ≠ .stride)
    (hs : (σ'.k.ptable s).view = { (σ.k.ptable s).view with
      cpuShare := i, procMode := .stride, pass := σ.k.maxStrideProcPass })
    (ho : ∀ q, q ≠ s → σ'.k.ptable q = σ.k.ptable q)
    (ht : σ'.k.maxStrideProcPass = σ.k.maxStrideProcPass) (hkept : Kept D σ'.k) : Near D σ' := by
  have hcur := h.cur s m hc
  have hps : (σ'.k.ptable s).pass = σ.k.maxStrideProcPass := congrArg View.pass hs
  have hms : (σ'.k.ptable s).procMode = .stride := congrArg View.procMode hs
  have hss : (σ'.k.ptable s).state = .running := (congrArg View.state hs).trans hcur
  have hmem : Member σ'.k s := ⟨hms, .inr hss⟩
  have hD := hkept.stride_nonneg hmem
  have hold : ∀ q, q ≠ s → Member σ'.k q → Member σ.k q := by
    intro q e hq
    exact (member_of_view (by rw [ho q e])).mp hq
  refine ⟨hkept, ht ▸ h.zero, fun q hq => ?_, fun q hq t hmt => ?_, fun q m' hq => ?_, fun q hq => ?_,
    fun q => ?_⟩
  · by_cases e : q = s
    · rw [e, hps, ht]
      have := h.zero
      omega
    · rw [ho q e, ht]
      exact h.pass q (hold q e hq)
  · rw [hc'] at hq
    cases hq
    refine ⟨hms, ?_⟩
    by_cases e : t = s
    · rw [e]
    · -- a Stride round of a process of MLFQ: there was no member
      exact absurd (h.least s hc t (hold t e hmt)).1 hfirst
  · rw [hc'] at hq
    cases hq
    exact hss
  · by_cases e : q = s
    · exact ⟨m, by rw [hc', e]⟩
    rw [ho q e] at hq
    obtain ⟨m', hm'⟩ := h.run q hq
    rw [hc] at hm'
    cases hm'
    exact absurd rfl e
  · by_cases e : q = s
    · intro hq
      rw [e, hs] at hq
      cases hq
    · rw [ho q e]
      exact h.plain q

/-- What the end of a round adds to the pass of its process. -/
theorem Ended.own_pass (hq : Quiet s o k k₁) (he : Ended s .stride k₁ k') :
    (k.ptable s).cpuShare ≠ 0 ∧ (k'.ptable s).pass = (k.ptable s).pass + stride k s := by
  obtain ⟨hne, hp⟩ := he.own rfl
  have hp₁ : (k₁.ptable s).pass = (k.ptable s).pass := congrArg View.pass hq.own
  have hs₁ : (k₁.ptable s).cpuShare = (k.ptable s).cpuShare := congrArg View.cpuShare hq.own
  rw [hs₁] at hne hp
  rw [hp, hp₁, stride, Int.tdiv_eq_ediv_of_nonneg (by decide)]
  exact ⟨hne, rfl⟩

/-- The end of a round leaves the other members' passes. -/
theorem Ended.other_pass
    (hq : Quiet s o k k₁) (he : Ended s m k₁ k') (e : q ≠ s) (hm : Member k q) :
    (k'.ptable q).pass = (k.ptable q).pass :=
  (he.pass q fun _ => e).trans (congrArg View.pass (hq.other q e hm.2))

theorem near_ends (h : Near D σ)
    (hc : σ.cpu () = some (s, m)) (hc' : σ'.cpu () = none) (ho : o ≠ .stays)
    (hq : Quiet s o σ.k k₁) (he : Ended s m k₁ σ'.k)
    (hj : ∀ s, Member σ'.k s → Member σ.k s) (hkept : Kept D σ'.k) : Near D σ' := by
  have hch := he.charged
  have hcur := h.cur s m hc
  have hzero := h.zero
  have hms : (σ'.k.ptable s).procMode = (σ.k.ptable s).procMode :=
    (hch.procMode s).trans (congrArg View.procMode hq.own)
  -- a process charged for a Stride round is of Stride, so its pass is in the range of an int
  have hint : m = .stride → σ.k.maxStrideProcPass < (σ'.k.ptable s).pass →
      toInt (σ'.k.ptable s).pass = (σ'.k.ptable s).pass := by
    rintro rfl hlt
    have hne := (Ended.own_pass hq he).1
    have hst : (σ'.k.ptable s).procMode = .stride := by
      rw [hms]
      cases hmode : (σ.k.ptable s).procMode with
      | mlfq => exact absurd (h.plain s hmode) hne
      | stride => rfl
    have := hkept.pass s hst
    exact toInt_of_range (by omega) (by omega)
  have htop : σ'.k.maxStrideProcPass = 0 ∧ σ'.k.cpuShareStride = 0 ∨ σ'.k.maxStrideProcPass =
      if m = .stride then max σ.k.maxStrideProcPass (σ'.k.ptable s).pass
      else σ.k.maxStrideProcPass := by
    have ht := he.top
    rw [hq.top] at ht
    split at ht
    · rename_i h0
      exact .inl ⟨ht, hch.total.trans h0⟩
    right
    rw [ht]
    by_cases hm : m = .stride
    · by_cases hlt : σ.k.maxStrideProcPass < (σ'.k.ptable s).pass
      · rw [if_pos ⟨hm, hlt⟩, if_pos hm, hint hm hlt, max_eq_right hlt.le]
      · rw [if_neg fun x => hlt x.2, if_pos hm, max_eq_left (not_lt.mp hlt)]
    · rw [if_neg fun x => hm x.1, if_neg hm]
  refine ⟨hkept, ?_, fun q hmq => ?_, fun q hs => ?_, fun q m' hs => ?_, fun q hr => ?_, fun q hm => ?_⟩
  · rcases htop with ⟨ht, -⟩ | ht
    · exact ht.symm.le
    · rw [ht]
      split
      · exact le_max_of_le_left hzero
      · exact hzero
  · have hold := hj q hmq
    have hp := h.pass q hold
    have hpos := hkept.total q hmq
    rcases htop with ⟨-, h0⟩ | ht
    · omega
    rw [ht]
    cases m with
    | mlfq =>
      have hpq : (σ'.k.ptable q).pass = (σ.k.ptable q).pass := by
        by_cases e : q = s
        · rw [he.pass q nofun, e]
          exact congrArg View.pass hq.own
        · exact Ended.other_pass hq he e hold
      rw [if_neg nofun, hpq]
      exact hp
    | stride =>
      obtain ⟨hst, hle⟩ := h.least s hc q hold
      have hD := h.kept.stride_nonneg (s := s) ⟨hst, .inr hcur⟩
      have hown := (Ended.own_pass hq he).2
      rw [if_pos rfl]
      by_cases e : q = s
      · subst e
        omega
      · rw [Ended.other_pass hq he e hold]
        omega
  · rw [hc'] at hs
    cases hs
  · rw [hc'] at hs
    cases hs
  · rw [hch.state q] at hr
    by_cases e : q = s
    · subst e
      exact absurd hr (hq.leaves ho)
    · obtain ⟨m', hm'⟩ := h.run q (hq.running q e hr)
      rw [hc] at hm'
      cases hm'
      exact absurd rfl e
  · have hm : (σ'.k.ptable q).procMode = .mlfq := hm
    rw [hch.procMode q] at hm
    exact (hch.cpuShare q).trans (hq.plain h.plain q hm)

theorem joiner_eq (hc : σ.cpu () = some (s, m)) (hj : q ∈ joiner σ e) : s = q := by
  rw [joiner.eq_def] at hj
  split at hj
  · rw [hc] at hj
    exact Option.some.inj hj
  · cases hj

theorem near_step (hsd : Sound (· = initproc) σ) (h : Near D σ) (hf : Fair D σ e)
    (hs : step σ e = some σ') : Near D σ' := by
  have hkept := hf.kept σ' hs
  have hjoin := hf.joins σ' hs
  cases step_turned hsd h.cur hf hs with
  | begins c hc hc' hk =>
    exact near_begins h hc hc' hk (fun s hm => (hjoin s hm).resolve_right nofun) hkept
  | stays s m hc hc' hk he =>
    refine near_stays h hc hc' hk (fun q hm => (hjoin q hm).elim id fun hj => ?_) hkept
    obtain rfl := joiner_eq hc hj
    exact (member_of_view (hk.view s (.inr (h.cur s m hc)))).mp hm
  | joins c i s m hc hc' hi hv ho ht =>
    exact near_joins h hc hc' (hf.first s (by rw [joiner, hc]; rfl)) hv ho ht hkept
  | ends c op s m o k₁ hc hc' ho hop hq he =>
    have hn : joiner σ (.call c op) = none := by
      cases op with
      | setCpuShare i => exact absurd rfl (hop i)
      | _ => rfl
    refine near_ends h hc hc' ho hq he (fun q hm => (hjoin q hm).resolve_right fun hj => ?_) hkept
    rw [hn] at hj
    cases hj

theorem near_of_run (r : SchedRun (Fair D) σ) : Sound (· = initproc) σ ∧ Near D σ := by
  exact ⟨sound_of_run r, r.sound_invariant (fun _ => near_start)
    fun _ _ _ hsd h hg hs => near_step hsd h hg hs⟩

/-! ### Counting rounds -/

/-- The step is the beginning of a Stride round of the process `s`. -/
def dispatchOf (s : Slot) : Sys Unit × Ev Unit → Bool
  | (σ, .round _) => pick σ.k = s ∧ scheMode σ.k = .stride
  | _ => false

/-- What the process `s` is still to be charged for the round it is in. -/
def due (σ : Sys Unit) (s : Slot) : Int := if σ.cpu () = some (s, .stride) then stride σ.k s else 0

/-- A member's pass goes up by its stride for each of its Stride rounds. -/
theorem pass_step (hsd : Sound (· = initproc) σ) (h : Near D σ)
    (hf : Fair D σ e) (hs : step σ e = some σ') (hm : Member σ.k s) :
    stride σ'.k s = stride σ.k s ∧ (σ'.k.ptable s).pass + due σ' s =
      (σ.k.ptable s).pass + due σ s + if dispatchOf s (σ, e) then stride σ.k s else 0 := by
  cases step_turned hsd h.cur hf hs with
  | begins c hc hc' hk =>
    have hp : (σ'.k.ptable s).pass = (σ.k.ptable s).pass ∧
        (σ'.k.ptable s).cpuShare = (σ.k.ptable s).cpuShare := by
      rw [hk, Kernel.set_ptable]
      by_cases e : s = pick σ.k
      · rw [e, update_self]
        exact ⟨rfl, rfl⟩
      · rw [update_of_ne e]
        exact ⟨rfl, rfl⟩
    have hst : stride σ'.k s = stride σ.k s := by rw [stride, hp.2, stride]
    refine ⟨hst, ?_⟩
    simp only [due, hc, hc', hst, hp.1, dispatchOf, Option.some.injEq, Prod.mk.injEq,
      decide_eq_true_eq, reduceCtorEq, if_false, add_zero]
  | stays q m hc hc' hk he =>
    have hv := hk.view s hm.2
    have hst : stride σ'.k s = stride σ.k s := by
      rw [stride, stride, show (σ'.k.ptable s).cpuShare = _ from congrArg View.cpuShare hv]
      rfl
    have hd : dispatchOf s (σ, e) = false := by
      cases e with
      | round c => exact absurd rfl (he c)
      | call | forkAlloc | forkEnd => rfl
    have hp : (σ'.k.ptable s).pass = (σ.k.ptable s).pass := congrArg View.pass hv
    refine ⟨hst, ?_⟩
    rw [hd, due, due, hc, hc', hst, hp, if_neg Bool.false_ne_true, add_zero]
  | joins c i q m hc hc' hi hv ho ht =>
    have e : s ≠ q := by
      rintro rfl
      exact hf.first s (by rw [joiner, hc]; rfl) hm.1
    have hst : stride σ'.k s = stride σ.k s := by rw [stride, ho s e, stride]
    refine ⟨hst, ?_⟩
    rw [dispatchOf, due, due, hc, hc', hst, ho s e, if_neg Bool.false_ne_true, add_zero]
    exact nofun
  | ends c op q m o k₁ hc hc' ho hop hq he =>
    have hsh : (σ'.k.ptable s).cpuShare = (σ.k.ptable s).cpuShare := by
      refine (he.charged.cpuShare s).trans ?_
      by_cases e : s = q
      · subst e
        exact congrArg View.cpuShare hq.own
      · exact congrArg View.cpuShare (hq.other s e hm.2)
    have hst : stride σ'.k s = stride σ.k s := by rw [stride, hsh, stride]
    have hd : due σ' s = 0 := by rw [due, hc', if_neg nofun]
    have hn : dispatchOf s (σ, .call c op) = false := rfl
    refine ⟨hst, ?_⟩
    rw [hd, hn, if_neg Bool.false_ne_true, due, hc, add_zero, add_zero]
    by_cases e : s = q
    · subst e
      cases m with
      | mlfq =>
        rw [if_neg nofun, he.pass s nofun, add_zero]
        exact congrArg View.pass hq.own
      | stride =>
        rw [if_pos rfl]
        exact (Ended.own_pass hq he).2
    · rw [if_neg fun hs => e (Prod.mk.inj (Option.some.inj hs)).1.symm, add_zero]
      exact Ended.other_pass hq he e hm

/-- Over a stretch in which `s` is always a member. -/
theorem pass_trace {l : List (Sys Unit × Ev Unit)} (hsd : Sound (· = initproc) σ)
    (h : Near D σ) (r : Trace (fun σ e σ' => step σ e = some σ') (Fair D) σ l σ')
    (hl : ∀ x ∈ l, Member x.1.k s) :
    (Sound (· = initproc) σ' ∧ Near D σ') ∧ stride σ'.k s = stride σ.k s ∧
      (σ'.k.ptable s).pass + due σ' s =
        (σ.k.ptable s).pass + due σ s + l.countP (dispatchOf s) * stride σ.k s := by
  induction r with
  | refl => exact ⟨⟨hsd, h⟩, rfl, by simp⟩
  | @more t u a l r hg hs ih =>
    obtain ⟨⟨hsd', h'⟩, hst, hp⟩ := ih fun x hx => hl x (List.mem_cons_of_mem _ hx)
    obtain ⟨hst', hp'⟩ := pass_step hsd' h' hg hs (hl (t, a) List.mem_cons_self)
    refine ⟨⟨?_, near_step hsd' h' hg hs⟩, hst'.trans hst, ?_⟩
    · refine sound_step (fun _ => id) hsd' (fun c _ hp => ?_) hs
      rcases pick_spec t.k with ⟨-, hr, -⟩ | ⟨-, e⟩
      · exact hr
      · exact absurd e hp
    · rw [hp', hp, hst, List.countP_cons]
      split
      · push_cast
        ring
      · push_cast
        ring

end

/-- **Stride fairness.**  In a run on one CPU in which Stride processes are ready between their rounds,
join by their first `set_cpu_share` and leave at any time, while there is a Stride total and no pass
comes to the bound of the scan: the passes of any two members differ by at most `D`, when no member
has had a stride `10000 / CPU_SHARE` above `D`.  Over any stretch from one moment between rounds to
another, in which two processes are always members, their Stride rounds weighted by their strides
differ by at most `2 * D`. -/
theorem stride_fair {D : Int} {σ : Sys Unit} (r : SchedRun (Fair D) σ) :
    (∀ s t, Member σ.k s → Member σ.k t →
      |(σ.k.ptable s).pass - (σ.k.ptable t).pass| ≤ D) ∧
    ∀ l σ', Trace (fun σ e σ' => step σ e = some σ') (Fair D) σ l σ' → σ.cpu () = none →
      σ'.cpu () = none → ∀ s t, (∀ x ∈ l, Member x.1.k s ∧ Member x.1.k t) →
      Member σ.k s → Member σ.k t → Member σ'.k s → Member σ'.k t →
      |l.countP (dispatchOf s) * (10000 / (σ.k.ptable s).cpuShare) -
        l.countP (dispatchOf t) * (10000 / (σ.k.ptable t).cpuShare)| ≤ 2 * D := by
  obtain ⟨hsd, h⟩ := near_of_run r
  have hclose : ∀ {σ : Sys Unit}, Near D σ → ∀ s t, Member σ.k s → Member σ.k t →
      |(σ.k.ptable s).pass - (σ.k.ptable t).pass| ≤ D := by
    intro σ h s t hs ht
    have hps := h.pass s hs
    have hpt := h.pass t ht
    rw [abs_le]
    omega
  refine ⟨hclose h, fun l σ' tr hc hc' s t hl hs ht hs' ht' => ?_⟩
  obtain ⟨⟨-, h'⟩, -, hps⟩ := pass_trace hsd h tr fun x hx => (hl x hx).1
  obtain ⟨-, -, hpt⟩ := pass_trace hsd h tr fun x hx => (hl x hx).2
  have hdue : ∀ q, due σ q = 0 ∧ due σ' q = 0 := by
    intro q
    rw [due, due, hc, hc']
    exact ⟨if_neg nofun, if_neg nofun⟩
  rw [(hdue s).1, (hdue s).2] at hps
  rw [(hdue t).1, (hdue t).2] at hpt
  have h₁ := abs_le.mp (hclose h s t hs ht)
  have h₂ := abs_le.mp (hclose h' s t hs' ht')
  change |_ * stride σ.k s - _ * stride σ.k t| ≤ _
  rw [abs_le]
  constructor
  · linarith
  · linarith

/-- init asks for 40 percent and its child for 10; after two Stride rounds of init the passes are 500
and 250. -/
theorem stride_fair_two : ∃ σ : Sys Unit, SchedRun (Fair 1000) σ ∧
    (σ.k.ptable 0).pass = 500 ∧ (σ.k.ptable 1).pass = 250 ∧ Member σ.k 0 ∧ Member σ.k 1 ∧
    |(σ.k.ptable 0).pass - (σ.k.ptable 1).pass| ≤ 1000 := by
  obtain ⟨σ, r, h₀, h₁, hm₀, hm₁⟩ := exists_schedRun (Fair 1000) 140
    [.round (), .call () .fork, .call () (.setCpuShare 40), .call () .yield, .round (),
      .call () .yield, .round (), .call () (.setCpuShare 10), .call () .yield, .round (),
      .call () .yield]
    (fun σ => (σ.k.ptable 0).pass = 500 ∧ (σ.k.ptable 1).pass = 250 ∧ Member σ.k 0 ∧ Member σ.k 1)
    (by decide +kernel)
  exact ⟨σ, r, h₀, h₁, hm₀, hm₁, (stride_fair r).1 0 1 hm₀ hm₁⟩

end Xv6.Sched
