import Xv6.Proc.Share
import Xv6.Sched.Rounds

/-!
# Sched — the divisions at the end of a round

A round charges its process with `10000 / CPU_SHARE` and its scheduler with `10000` over the share
of that scheduler (`divisors`).  The process of a Stride round is what the Stride scan returned:
a Stride process, whose share is positive, or slot 0, whose share is 0 when it has asked for none.
The share of the MLFQ scheduler is `100 - CPU_share_Stride`, where `CPU_share_Stride` stays at
most 80 until an `exit` takes it below the range of an `int`.

* `divisors_ne_zero`: while every Stride round has a process to choose or finds a share in slot
  0, and no `exit` leaves the range, no divisor is zero.
-/

namespace Xv6.Sched

open Kern
open Support (bind_ok update_cases)

/-- What the end of a round divides by. -/
def divisors (k : Kernel) (s : Slot) (m : Mode) : List Int :=
  (if m = .stride then [(k.ptable s).cpuShare] else []) ++
    if k.cpuShareStride = 0 then []
    else if m = .mlfq then [wrap (100 - k.cpuShareStride)]
    else [k.cpuShareStride]

theorem idiv_ok {a b : Int} (h : b ≠ 0) : idiv a b = .ok (a.tdiv b) := if_neg h

theorem idiv_zero {a b q : Int} (h : idiv a b = .ok q) : b ≠ 0 := by
  rintro rfl
  cases h

/-- The end of a round does not trap exactly when no divisor is zero. -/
theorem roundEnd_ok_iff (k : Kernel) (s : Slot) (m : Mode) :
    (∃ k', roundEnd k s m = .ok k') ↔ ∀ d ∈ divisors k s m, d ≠ 0 := by
  cases m with
  | mlfq =>
    have ht : (initMlfqState (adjustMlfqState k s)).cpuShareStride = k.cpuShareStride :=
      ((adjustMlfqState_charged k s).trans (initMlfqState_charged _ s)).total
    simp only [roundEnd, revaluatePass, divisors, ht]
    by_cases h0 : k.cpuShareStride = 0
    · simp [h0]
    simp only [h0, if_false, if_true, reduceCtorEq, List.nil_append, List.mem_singleton, forall_eq]
    constructor
    · rintro ⟨k', h⟩
      obtain ⟨q, hq, -⟩ := bind_ok.mp h
      exact idiv_zero hq
    · intro hd
      exact ⟨_, bind_ok.mpr ⟨_, idiv_ok hd, rfl⟩⟩
  | stride =>
    simp only [roundEnd, divisors, if_true, reduceCtorEq, if_false]
    constructor
    · rintro ⟨k', h⟩ d hd
      obtain ⟨k₁, h₁, h⟩ := bind_ok.mp h
      obtain ⟨q, hq, -⟩ := bind_ok.mp h₁
      rcases List.mem_append.mp hd with hd | hd
      · rw [List.mem_singleton.mp hd]
        exact idiv_zero hq
      split at hd
      · cases hd
      · rename_i h0
        rw [List.mem_singleton.mp hd]
        exact h0
    · intro hd
      have hshare := hd _ (List.mem_append_left _ (List.mem_singleton.mpr rfl))
      have h₁ : ∃ k₁, adjustStrideState k s = .ok k₁ := ⟨_, bind_ok.mpr ⟨_, idiv_ok hshare, rfl⟩⟩
      obtain ⟨k₁, h₁⟩ := h₁
      have ht := (adjustStrideState_charged h₁).total
      have h₂ : ∃ k₂, revaluatePass k₁ .stride = .ok k₂ := by
        simp only [revaluatePass]
        split
        · exact ⟨_, rfl⟩
        · rename_i h0
          exact ⟨_, bind_ok.mpr ⟨_, idiv_ok h0, rfl⟩⟩
      obtain ⟨k₂, h₂⟩ := h₂
      exact ⟨k₂, bind_ok.mpr ⟨k₁, h₁, h₂⟩⟩

/-! ### The invariant -/

section

variable {C : Type}

/-- A Stride round has a process to choose, or finds a share in slot 0; an `exit` does not take
the Stride total out of the range of an `int`. -/
def Divisible (σ : Sys C) : Ev C → Prop
  | .round _ => scheMode σ.k = .stride →
      (∃ s, Selectable (σ.k.ptable s) .stride) ∨ (σ.k.ptable initproc).cpuShare ≠ 0
  | .call c .exit => ∀ p ∈ σ.cpu c, (σ.k.ptable p.1).procMode = .stride →
      -2 ^ 31 ≤ σ.k.cpuShareStride - (σ.k.ptable p.1).cpuShare
  | _ => True

instance (σ : Sys C) : DecidablePred (Divisible σ)
  | .round _ => inferInstanceAs (Decidable (_ → (∃ _ : Slot, _) ∨ _))
  | .call c .exit => inferInstanceAs (Decidable (∀ p ∈ σ.cpu c, _))
  | .call _ .fork | .call _ (.exitVisit _) | .call _ .wait | .call _ (.threadCreate ..)
  | .call _ (.threadExit _) | .call _ (.threadJoin ..) | .call _ (.setCpuShare _)
  | .call _ (.sbrk _) | .call _ (.exec ..) | .call _ (.kill _) | .call _ (.sleep _)
  | .call _ (.wakeup _) | .call _ .yield | .forkAlloc _ | .forkEnd _ => .isTrue trivial

/-- The share of a Stride process is positive. -/
def SharePos (v : View) : Prop := v.procMode = .stride → v.state ≠ .unused → 1 ≤ v.cpuShare

/-- Stride processes and Stride rounds have shares, and the Stride total is at most 80. -/
structure Shared (σ : Sys C) : Prop where
  share : ∀ s, SharePos (σ.k.ptable s).view
  cur : ∀ c s, σ.cpu c = some (s, .stride) → (σ.k.ptable s).cpuShare ≠ 0
  low : -2 ^ 31 ≤ σ.k.cpuShareStride
  high : σ.k.cpuShareStride ≤ 80

variable {σ σ' : Sys C}

theorem shared_start (h : Start σ) : Shared σ := by
  obtain ⟨hb, hc, -⟩ := h
  obtain ⟨h₀, hq, hk⟩ := hb.view
  have ht : σ.k.cpuShareStride = 0 := congrArg Counters.cpuShareStride hk
  refine ⟨fun s hm => ?_, fun c s e => ?_, by rw [ht]; decide, by rw [ht]; decide⟩
  · by_cases e : s = initproc
    · rw [e, h₀] at hm; cases hm
    · rw [hq s e] at hm; cases hm
  · rw [hc] at e; cases e

variable {v v' : View} {o : Outcome} {s : Slot} {c : C}

theorem Other.sharePos (h : Other v v') (hp : SharePos v) : SharePos v' := by
  cases h with
  | same => exact hp
  | wake hs => exact fun hm _ => hp hm (by rw [hs]; decide)
  | reap => exact fun _ hu => absurd rfl hu
  | join | alloc => exact fun hm => nomatch hm

theorem Own.sharePos (h : Own o v v') (hu : v.state ≠ .unused)
    (hp : SharePos v) : SharePos v' ∧ v'.cpuShare = v.cpuShare := by
  cases h with
  | same => exact ⟨hp, rfl⟩
  | wake | leave | die => exact ⟨fun hm _ => hp hm hu, rfl⟩

/-- The share of a process awake is its own to change. -/
theorem Other.cpuShare (h : Other v v') (ha : Awake v.state) : v'.cpuShare = v.cpuShare := by
  cases h with
  | same | wake | reap => rfl
  | join h | alloc h =>
    rw [h] at ha
    rcases ha with ha | ha | ha <;> cases ha

/-- What `divisors_ne_zero` needs of the kernel a call has left. -/
structure AfterCall (σ : Sys C) (s : Slot) (k₁ : Kernel) : Prop where
  share : ∀ q, SharePos (k₁.ptable q).view
  other : ∀ q, q ≠ s → Awake (σ.k.ptable q).state → (k₁.ptable q).cpuShare = (σ.k.ptable q).cpuShare
  own : (σ.k.ptable s).cpuShare ≠ 0 → (k₁.ptable s).cpuShare ≠ 0
  low : -2 ^ 31 ≤ k₁.cpuShareStride
  high : k₁.cpuShareStride ≤ 80

theorem wrap_low (x : Int) : -2 ^ 31 ≤ wrap x := Int.le_bmod (by decide)

/-- `set_cpu_share` leaves a positive share, and a total it has checked. -/
theorem after_setCpuShare (h : Shared σ) (i : Int) : AfterCall σ s (setCpuShare σ.k s i).2 := by
  have hlow := h.low
  have hhigh := h.high
  rcases setCpuShare_cases σ.k s i with ⟨hk, -⟩ | ⟨hi, -, h80, ht, hv, ho⟩ | ⟨hi, hm, -, ht, hv, ho⟩
  · rw [hk]
    exact ⟨h.share, fun _ _ _ => rfl, id, hlow, hhigh⟩
  · refine ⟨fun q => ?_, fun q e _ => by rw [ho q e], fun _ => ?_, ?_, ?_⟩
    · by_cases e : q = s
      · subst e; rw [hv]; exact fun _ _ => hi
      · rw [ho q e]; exact h.share q
    · have : ((setCpuShare σ.k s i).2.ptable s).cpuShare = i := congrArg View.cpuShare hv
      omega
    · rw [ht]; exact wrap_low _
    · rw [ht]; exact h80
  · rw [show σ.k.cpuShareStride + i - i = σ.k.cpuShareStride by omega,
      wrap_of_range hlow (by omega)] at ht
    refine ⟨fun q => ?_, fun q e _ => by rw [ho q e], fun _ => ?_, by rw [ht]; exact hlow,
      by rw [ht]; exact hhigh⟩
    · by_cases e : q = s
      · subst e; rw [hv]; exact fun _ _ => hi
      · rw [ho q e]; exact h.share q
    · have : ((setCpuShare σ.k s i).2.ptable s).cpuShare = i := congrArg View.cpuShare hv
      omega

/-- The total `exit` starts from is at most 80, when it stays in range. -/
theorem giveBack_total {k : Kernel} (hlow : -2 ^ 31 ≤ k.cpuShareStride)
    (hhigh : k.cpuShareStride ≤ 80) (hpos : (k.ptable s).procMode = .stride → 1 ≤ (k.ptable s).cpuShare)
    (hrange : (k.ptable s).procMode = .stride →
      -2 ^ 31 ≤ k.cpuShareStride - (k.ptable s).cpuShare) :
    -2 ^ 31 ≤ (giveBack k s).cpuShareStride ∧ (giveBack k s).cpuShareStride ≤ 80 := by
  rw [giveBack]
  split
  · rename_i hm
    have hp := hpos hm
    have hr := hrange hm
    show -2 ^ 31 ≤ wrap _ ∧ wrap _ ≤ 80
    rw [wrap_of_range hr (by omega)]
    omega
  · exact ⟨hlow, hhigh⟩

/-- A call that is not `set_cpu_share`, from a kernel with the same table. -/
theorem after_moves (h : Shared σ) {k₀ k₁ : Kernel}
    (hs : Awake (σ.k.ptable s).state) (hp : k₀.ptable = σ.k.ptable) (m : Moves o s k₀ k₁)
    (hlow : -2 ^ 31 ≤ k₀.cpuShareStride) (hhigh : k₀.cpuShareStride ≤ 80) :
    AfterCall σ s k₁ := by
  have ht : k₁.cpuShareStride = k₀.cpuShareStride := congrArg Counters.cpuShareStride m.counters
  have hother : ∀ q, q ≠ s → Other (σ.k.ptable q).view (k₁.ptable q).view := by
    intro q e
    rw [← hp]
    exact m.other q e
  have hown := m.own
  rw [hp] at hown
  obtain ⟨hshare, heq⟩ := Own.sharePos hown hs.live.1 (h.share s)
  refine ⟨fun q => ?_, fun q e ha => Other.cpuShare (hother q e) ha, fun hne => ?_,
    by rw [ht]; exact hlow, by rw [ht]; exact hhigh⟩
  · by_cases e : q = s
    · subst e; exact hshare
    · exact Other.sharePos (hother q e) (h.share q)
  · have hc : (k₁.ptable s).cpuShare = (σ.k.ptable s).cpuShare := heq
    rw [hc]
    exact hne

theorem after_call (h : Shared σ) {m : Mode} {op : Call}
    {k₁ : Kernel} (hs : Awake (σ.k.ptable s).state) (hc : σ.cpu c = some (s, m))
    (hg : Divisible σ (.call c op)) (hcall : call σ.k s op = .ok (o, k₁)) : AfterCall σ s k₁ := by
  by_cases hi : ∃ i, op = .setCpuShare i
  · obtain ⟨i, rfl⟩ := hi
    cases hcall
    exact after_setCpuShare h i.toInt
  have hm := call_moves hs.live (fun i e => hi ⟨i, e⟩) hcall
  by_cases hx : op = .exit
  · subst hx
    have hpos : (σ.k.ptable s).procMode = .stride → 1 ≤ (σ.k.ptable s).cpuShare :=
      fun hmode => h.share s hmode hs.live.1
    obtain ⟨hlow, hhigh⟩ := giveBack_total h.low h.high hpos (hg (s, m) hc)
    exact after_moves h hs (giveBack_ptable σ.k s) hm hlow hhigh
  · have hstart : op.start σ.k s = σ.k := by
      cases op with
      | exit => exact absurd rfl hx
      | _ => rfl
    rw [hstart] at hm
    exact after_moves h hs rfl hm h.low h.high

/-! ### One step -/

/-- A new process has no share; nobody else's changes. -/
theorem shared_founded (hsd : Sound (· = initproc) σ) (h : Shared σ) {np : Slot} {st : State}
    (hcpu : σ'.cpu = σ.cpu) (hf : Founded np st σ.k σ'.k) (hv : Vacant (σ.k.ptable np).state) :
    Shared σ' := by
  have ht : σ'.k.cpuShareStride = σ.k.cpuShareStride := congrArg Counters.cpuShareStride hf.counters
  refine ⟨fun s => ?_, fun c s hc => ?_, by rw [ht]; exact h.low, by rw [ht]; exact h.high⟩
  · by_cases e : s = np
    · rw [e, hf.self]
      exact fun hm => nomatch hm
    · rw [hf.view s e]
      exact h.share s
  · rw [hcpu] at hc
    have e : s ≠ np := by
      rintro rfl
      exact (hsd.awake (fun _ => id) hc).not_vacant hv
    have hshare : (σ'.k.ptable s).cpuShare = (σ.k.ptable s).cpuShare :=
      congrArg View.cpuShare (hf.view s e)
    rw [hshare]
    exact h.cur c s hc

variable [DecidableEq C]

theorem shared_round (hsd : Sound (· = initproc) σ) (h : Shared σ) (hg : Divisible σ (.round c))
    (hs : step σ (.round c) = some σ') : Shared σ' := by
  obtain ⟨-, rfl⟩ := step_round hs
  have hview : ∀ q, ((σ.k.set (pick σ.k) ({ · with state := .running })).ptable q).cpuShare
      = (σ.k.ptable q).cpuShare := by
    intro q
    by_cases e : q = pick σ.k
    · subst e; rw [Kernel.set_ptable, Function.update_self]
    · rw [Kernel.set_ptable, Function.update_of_ne e]
  have hused : (σ.k.ptable (pick σ.k)).state ≠ .unused := by
    rcases pick_spec σ.k with ⟨-, hr, -⟩ | ⟨-, e⟩
    · rw [hr]; decide
    · rw [e]; exact hsd.init.live.1
  -- the process chosen for a Stride round has a share
  have hpick : scheMode σ.k = .stride → (σ.k.ptable (pick σ.k)).cpuShare ≠ 0 := by
    intro hm
    rcases pick_spec σ.k with ⟨-, -, hmode⟩ | ⟨hn, e⟩
    · have := h.share (pick σ.k) (hmode.trans hm) hused
      have hv : (σ.k.ptable (pick σ.k)).view.cpuShare = (σ.k.ptable (pick σ.k)).cpuShare := rfl
      omega
    · rcases hg hm with ⟨s, hs⟩ | h₀
      · exact absurd (hm ▸ hs) (hn s)
      · rw [e]; exact h₀
  refine ⟨fun s hm hu => ?_, fun c' s hc' => ?_, h.low, h.high⟩
  · by_cases e : s = pick σ.k
    · subst e
      rw [Kernel.set_ptable, Function.update_self] at hm ⊢
      exact h.share _ hm hused
    · rw [Kernel.set_ptable, Function.update_of_ne e] at hm hu ⊢
      exact h.share s hm hu
  · show ((σ.k.set (pick σ.k) ({ · with state := .running })).ptable s).cpuShare ≠ 0
    rw [hview]
    rcases update_cases hc' with ⟨-, hc'⟩ | ⟨-, hc'⟩
    · obtain ⟨rfl, hm⟩ := Prod.mk.inj (Option.some.inj hc')
      exact hpick hm
    · exact h.cur c' s hc'

theorem shared_call (hsd : Sound (· = initproc) σ) (h : Shared σ) {op : Call}
    (hg : Divisible σ (.call c op)) (hs : step σ (.call c op) = some σ') : Shared σ' := by
  obtain ⟨s, m, o, k₁, hc, -, -, hcall, hafter⟩ := step_call hs
  have ha := after_call h (hsd.awake (fun _ => id) hc) hc hg hcall
  have hcur : ∀ c' s', σ.cpu c' = some (s', .stride) → (k₁.ptable s').cpuShare ≠ 0 := by
    intro c' s' hc'
    have h₀ := h.cur c' s' hc'
    by_cases e : s' = s
    · subst e; exact ha.own h₀
    · rw [ha.other s' e (hsd.awake (fun _ => id) hc')]
      exact h₀
  rcases hafter with ⟨-, rfl⟩ | ⟨-, k₂, hend, rfl⟩
  · exact ⟨ha.share, hcur, ha.low, ha.high⟩
  have hch := roundEnd_charged hend
  refine ⟨fun q hm hu => ?_, fun c' s' hc' => ?_, by rw [hch.total]; exact ha.low,
    by rw [hch.total]; exact ha.high⟩
  · have := ha.share q ((hch.procMode q).symm.trans hm) (by
      rw [show (k₁.ptable q).view.state = (k₂.ptable q).view.state from (hch.state q).symm]
      exact hu)
    exact this.trans (hch.cpuShare q).symm.le
  · show (k₂.ptable s').cpuShare ≠ 0
    rw [hch.cpuShare]
    rcases update_cases hc' with ⟨-, hc'⟩ | ⟨-, hc'⟩
    · cases hc'
    · exact hcur c' s' hc'

theorem shared_step (hsd : Sound (· = initproc) σ) (h : Shared σ) {e : Ev C}
    (hg : Divisible σ e) (hs : step σ e = some σ') : Shared σ' := by
  cases e with
  | round c => exact shared_round hsd h hg hs
  | call c op => exact shared_call hsd h hg hs
  | forkAlloc c | forkEnd c =>
    obtain ⟨hcpu, -, hk | ⟨np, st, hv, -, hf⟩⟩ := step_founds (c := c) hsd (by simp) hs
    · exact ⟨hk ▸ h.share, fun c' s hc => hk ▸ h.cur c' s (hcpu ▸ hc), hk ▸ h.low, hk ▸ h.high⟩
    · exact shared_founded hsd h hcpu hf hv

/-- **The divisions.**  In every system reached while every Stride round has a process to choose
or finds a share in slot 0, and no `exit` takes the Stride total out of range: when a process comes
back from a call to the scheduler, nothing the end of its round divides by is zero. -/
theorem divisors_ne_zero {σ : Sys C} (r : SchedRun Divisible σ) {c : C} {s : Slot} {m : Mode}
    {op : Call} {o : Outcome} {k₁ : Kernel} (hc : σ.cpu c = some (s, m))
    (hg : Divisible σ (.call c op)) (hcall : call σ.k s op = .ok (o, k₁)) :
    ∀ d ∈ divisors k₁ s m, d ≠ 0 := by
  have hsd := sound_of_run r
  have h : Shared σ := r.sound_invariant (fun _ => shared_start)
    fun _ _ _ hsd h hg hs => shared_step hsd h hg hs
  have ha := after_call h (hsd.awake (fun _ => id) hc) hc hg hcall
  intro d hmem
  rcases List.mem_append.mp hmem with hd | hd
  · split at hd
    · rename_i hm
      subst hm
      rw [List.mem_singleton.mp hd]
      exact ha.own (h.cur c s hc)
    · cases hd
  · split at hd
    · cases hd
    rename_i h0
    split at hd
    · have hlow := ha.low
      have hhigh := ha.high
      rw [List.mem_singleton.mp hd]
      by_cases hov : 100 - k₁.cpuShareStride < 2 ^ 31
      · rw [wrap_of_range (by omega) hov]
        omega
      · rw [wrap_of_over (by omega) (by omega)]
        omega
    · rw [List.mem_singleton.mp hd]
      exact h0

end

/-- init asks for 10 percent and gives up the CPU; its next round is a Stride round, which charges
`10000 / 10` twice. -/
theorem divisors_ne_zero_yield : ∃ σ : Sys Unit, SchedRun Divisible σ ∧
    σ.cpu () = some (0, .stride) ∧ ∃ k₁, call σ.k 0 .yield = .ok (.leaves, k₁) ∧
      divisors k₁ 0 .stride = [10, 10] ∧ ∀ d ∈ divisors k₁ 0 .stride, d ≠ 0 := by
  obtain ⟨σ, r, hc, k₁, hcall, hd⟩ := exists_schedRun Divisible 70
    [.round (), .call () (.setCpuShare 10), .call () .yield, .round ()]
    (fun σ => σ.cpu () = some (0, .stride) ∧
      ∃ k₁, call σ.k 0 .yield = .ok (.leaves, k₁) ∧ divisors k₁ 0 .stride = [10, 10])
    (by decide +kernel)
  have hg : Divisible σ (.call () .yield) := trivial
  exact ⟨σ, r, hc, k₁, hcall, hd, divisors_ne_zero r hc hg hcall⟩

/-- A Stride round whose only Stride process sleeps charges slot 0, whose share is 0; and an `exit`
takes the Stride total out of range to 100, so that an MLFQ round divides by 100 - 100. -/
theorem divisors_zero :
    (∃ σ : Sys Unit, SchedRun (fun _ _ => True) σ ∧ σ.cpu () = some (0, .stride) ∧
      ∃ k₁, call σ.k 0 .yield = .ok (.leaves, k₁) ∧ (k₁.ptable 0).cpuShare = 0 ∧
        0 ∈ divisors k₁ 0 .stride) ∧
    ∃ σ : Sys Unit, SchedRun (fun _ _ => True) σ ∧ σ.cpu () = some (3, .mlfq) ∧
      ∃ k₁, call σ.k 3 .exit = .ok (.ends, k₁) ∧ k₁.cpuShareStride = 100 ∧
        0 ∈ divisors k₁ 3 .mlfq := by
  constructor
  · exact exists_schedRun (fun _ _ => True) 140
      [.round (), .call () .fork, .call () .yield, .round (), .call () (.setCpuShare 10),
        .call () (.sleep 1), .round ()] _ (by decide +kernel)
  exact exists_schedRun (fun _ _ => True) 290
    [.round (), .call () .fork, .call () .fork, .call () .fork, .call () (.sleep 1), .round (),
      .call () (.setCpuShare 40), .call () .yield, .round (), .call () (.sleep 5), .round (),
      .call () (.setCpuShare 40), .call () (.setCpuShare 2147483639), .call () .exit, .round (),
      .call () (.setCpuShare 2), .call () (.setCpuShare 2147483639)] _ (by decide +kernel)

end Xv6.Sched
