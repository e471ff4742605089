import Xv6.Proc.System
import Xv6.Support.Table

/-!
# Proc — the Stride shares

`num_Stride.CPU_share_Stride` is a counter, kept by hand, of the shares of the Stride processes.
Three calls change the shares it should count.  `set_cpu_share` by a process that is not in Stride
mode adds to both, unless the sum passes the range of an `int`; by one that is, it sets the share
and then subtracts from the counter the share just set, which leaves the counter as it was.
`exit` subtracts from both.  `thread_exit` ends a process and leaves its share in the counter.

* `KeepsShare`: the steps on which the counter stays right.
* `share_total_iff`: in every run of such steps the counter is the sum of the shares and between 0
  and 80; and a step that is not one makes it wrong.
-/

namespace Xv6.Kern

open Function (update_self update_of_ne)

/-- The share of a process that is in Stride mode and neither unused nor a zombie. -/
def View.stake (v : View) : Int :=
  if v.procMode = .stride ∧ v.state ≠ .unused ∧ v.state ≠ .zombie then v.cpuShare else 0

/-- The sum of these shares. -/
def shares (k : Kernel) : Int := ∑ s, (k.ptable s).view.stake

/-- The counter is the sum of the shares, and this is between 0 and 80. -/
def ShareOk (k : Kernel) : Prop := k.cpuShareStride = shares k ∧ 0 ≤ shares k ∧ shares k ≤ 80

/-- The steps on which the counter stays right. -/
def KeepsShare (k : Kernel) : Event → Prop
  | .call s (.setCpuShare i) =>
    let p := k.ptable s
    i.toInt ≤ 0 ∨
      if p.procMode = .stride then
        i.toInt = p.cpuShare ∨ 80 < wrap (k.cpuShareStride + i.toInt - p.cpuShare)
      else k.cpuShareStride + i.toInt < 2 ^ 31
  | .call s (.threadExit _) => (k.ptable s).procMode ≠ .stride
  | _ => True

instance (k : Kernel) : DecidablePred (KeepsShare k)
  | .dispatch _ => .isTrue trivial
  | .call s c =>
    match c with
    | .setCpuShare i => inferInstanceAs (Decidable (i.toInt ≤ 0 ∨ ite _ _ _))
    | .threadExit _ => inferInstanceAs (Decidable ((k.ptable s).procMode ≠ .stride))
    | .fork | .exit | .exitVisit _ | .wait | .threadCreate .. | .threadJoin .. => .isTrue trivial
    | .sbrk _ | .exec .. | .kill _ | .sleep _ | .wakeup _ | .yield => .isTrue trivial

/-! ### Arithmetic -/

theorem wrap_of_range {x : Int} (h : -2 ^ 31 ≤ x) (h' : x < 2 ^ 31) : wrap x = x :=
  Int.bmod_eq_of_le (by omega) (by omega)

/-- Past the range, `int` arithmetic is negative. -/
theorem wrap_of_over {x : Int} (h : 2 ^ 31 ≤ x) (h' : x < 2 ^ 32) : wrap x = x - 2 ^ 32 := by
  rw [wrap, ← Int.sub_bmod_right]
  exact Int.bmod_eq_of_le (by omega) (by omega)

/-! ### The views -/

/-- A share that counts is at least one. -/
def View.Pos (v : View) : Prop :=
  v.procMode = .stride → v.state ≠ .unused → v.state ≠ .zombie → 1 ≤ v.cpuShare

variable {v v' : View} {o : Outcome} {k k' : Kernel} {cur : Slot}

theorem View.stake_nonneg (h : v.Pos) : 0 ≤ v.stake := by
  rw [View.stake]
  split
  · rename_i hc
    exact le_trans (by decide) (h hc.1 hc.2.1 hc.2.2)
  · exact le_refl 0

/-- No call changes the stake of another process. -/
theorem Other.stake (h : Other v v') : v'.stake = v.stake := by
  cases h with
  | same => rfl
  | wake hs => simp [View.stake, hs]
  | reap hs => simp [View.stake, hs]
  | join hs => simp [View.stake, View.fresh, hs]
  | alloc hu hst => simp [View.stake, View.fresh, hu]

theorem Other.pos (h : Other v v') (hp : v.Pos) : v'.Pos := by
  cases h with
  | same => exact hp
  | wake hs =>
    intro hm _ _
    exact hp hm (by rw [hs]; decide) (by rw [hs]; decide)
  | reap hs => exact fun _ hu => absurd rfl hu
  | join hs => exact fun hm => nomatch hm
  | alloc hu hst => exact fun hm => nomatch hm

/-- A running process stays counted until it ends. -/
theorem Own.stake (h : Own o v v') (hr : v.state = .running) :
    v'.stake = if o = .ends then 0 else v.stake := by
  cases h with
  | same => rfl
  | wake hs => rw [hr] at hs; cases hs
  | leave _ hst => rcases hst with rfl | rfl <;> simp [View.stake, hr]
  | die => simp [View.stake]

theorem Own.pos (h : Own o v v') (hr : v.state = .running) (hp : v.Pos) : v'.Pos := by
  have hv : v.procMode = .stride → 1 ≤ v.cpuShare := fun hm =>
    hp hm (by rw [hr]; decide) (by rw [hr]; decide)
  cases h with
  | same => exact hp
  | wake => exact fun hm _ _ => hv hm
  | leave => exact fun hm _ _ => hv hm
  | die => exact fun hm _ _ => hv hm

/-! ### The invariant -/

/-- The counter is right, and every share that counts is at least one. -/
structure ShareInv (k : Kernel) : Prop where
  total : k.cpuShareStride = shares k
  le : shares k ≤ 80
  pos : ∀ s, (k.ptable s).view.Pos

namespace ShareInv

variable {k : Kernel}

theorem nonneg (h : ShareInv k) : 0 ≤ shares k :=
  Finset.sum_nonneg fun s _ => View.stake_nonneg (h.pos s)

theorem ok (h : ShareInv k) : ShareOk k := ⟨h.total, h.nonneg, h.le⟩

/-- One stake is part of the sum. -/
theorem stake_le (h : ShareInv k) (s : Slot) : (k.ptable s).view.stake ≤ shares k :=
  Finset.single_le_sum (f := fun s => (k.ptable s).view.stake)
    (fun q _ => View.stake_nonneg (h.pos q)) (Finset.mem_univ s)

end ShareInv

/-- The sum after a step on which the stake of one process has changed. -/
theorem shares_of_eq_off (s : Slot)
    (h : ∀ q, q ≠ s → (k'.ptable q).view.stake = (k.ptable q).view.stake) :
    shares k' = shares k - (k.ptable s).view.stake + (k'.ptable s).view.stake :=
  Support.sum_of_eq_off s h

/-- The stake of a running Stride process. -/
theorem stake_running (hr : v.state = .running) :
    v.stake = if v.procMode = .stride then v.cpuShare else 0 := by
  simp [View.stake, hr]

/-- What a call other than `set_cpu_share` does to the sum. -/
theorem Moves.shares (m : Moves o cur k k') (hr : (k.ptable cur).state = .running) :
    shares k' = shares k - if o = .ends then (k.ptable cur).view.stake else 0 := by
  rw [shares_of_eq_off cur fun q e => (m.other q e).stake, m.own.stake hr]
  by_cases ho : o = .ends
  · rw [if_pos ho, if_pos ho, add_zero]
  · rw [if_neg ho, if_neg ho, sub_add_cancel, sub_zero]

theorem Moves.pos (m : Moves o cur k k')
    (hr : (k.ptable cur).state = .running) (hp : ∀ s, (k.ptable s).view.Pos) (s : Slot) :
    (k'.ptable s).view.Pos := by
  by_cases e : s = cur
  · subst e; exact m.own.pos hr (hp s)
  · exact (m.other s e).pos (hp s)

/-- `set_cpu_share` refuses, or takes a first share, or changes one. -/
theorem setCpuShare_cases (k : Kernel) (cur : Slot) (i : Int) :
    let p := k.ptable cur
    let k' := (setCpuShare k cur i).2
    (k' = k ∧ (i ≤ 0 ∨ (p.procMode ≠ .stride ∧ 80 < wrap (k.cpuShareStride + i)) ∨
        (p.procMode = .stride ∧ 80 < wrap (k.cpuShareStride + i - p.cpuShare)))) ∨
    (0 < i ∧ p.procMode ≠ .stride ∧ wrap (k.cpuShareStride + i) ≤ 80 ∧
      k'.cpuShareStride = wrap (k.cpuShareStride + i) ∧
      (k'.ptable cur).view = { p.view with
        cpuShare := i, procMode := .stride, pass := k.maxStrideProcPass } ∧
      ∀ q, q ≠ cur → k'.ptable q = k.ptable q) ∨
    (0 < i ∧ p.procMode = .stride ∧ wrap (k.cpuShareStride + i - p.cpuShare) ≤ 80 ∧
      k'.cpuShareStride = wrap (k.cpuShareStride + i - i) ∧
      (k'.ptable cur).view = { p.view with cpuShare := i, pass := k.maxStrideProcPass } ∧
      ∀ q, q ≠ cur → k'.ptable q = k.ptable q) := by
  intro p k'
  by_cases hi : i ≤ 0
  · refine .inl ⟨?_, .inl hi⟩
    simp only [k', setCpuShare, if_pos hi]
  by_cases hm : p.procMode = .stride
  · by_cases h80 : 80 < wrap (k.cpuShareStride + i - p.cpuShare)
    · refine .inl ⟨?_, .inr (.inr ⟨hm, h80⟩)⟩
      simp only [k', setCpuShare, if_neg hi, if_neg (not_not.mpr hm), if_pos h80, p]
    refine .inr (.inr ⟨not_le.mp hi, hm, not_lt.mp h80, ?_⟩)
    simp only [k', setCpuShare, if_neg hi, if_neg (not_not.mpr hm), if_neg h80, p,
      Kernel.set_ptable, update_self]
    refine ⟨rfl, rfl, fun q e => ?_⟩
    rw [update_of_ne e, update_of_ne e]
  · by_cases h80 : 80 < wrap (k.cpuShareStride + i)
    · refine .inl ⟨?_, .inr (.inl ⟨hm, h80⟩)⟩
      simp only [k', setCpuShare, if_neg hi, if_pos hm, if_pos h80, p]
    · refine .inr (.inl ⟨not_le.mp hi, hm, not_lt.mp h80, ?_⟩)
      simp only [k', setCpuShare, if_neg hi, if_pos hm, if_neg h80, p, Kernel.set_ptable,
        update_self]
      exact ⟨trivial, rfl, fun q e => update_of_ne e _ _⟩

/-- `set_cpu_share` changes no pass of the schedulers. -/
theorem setCpuShare_passes (k : Kernel) (cur : Slot) (i : Int) :
    (setCpuShare k cur i).2.passMlfq = k.passMlfq ∧
      (setCpuShare k cur i).2.passStride = k.passStride ∧
      (setCpuShare k cur i).2.maxStrideProcPass = k.maxStrideProcPass := by
  rw [setCpuShare]
  dsimp only
  split
  · exact ⟨rfl, rfl, rfl⟩
  split
  · split
    · exact ⟨rfl, rfl, rfl⟩
    · exact ⟨rfl, rfl, rfl⟩
  · split
    · exact ⟨rfl, rfl, rfl⟩
    · exact ⟨rfl, rfl, rfl⟩

/-! ### One step -/

theorem share_dispatch {s : Slot} (h : ShareInv k) (hm : MayRun k s) :
    ShareInv (k.set s ({ · with state := .running })) := by
  have hlive : (k.ptable s).state ≠ .unused ∧ (k.ptable s).state ≠ .zombie := by
    rcases hm with hs | ⟨-, hs | hs⟩ <;> rw [hs] <;> decide
  have hview : ∀ q, ((k.set s ({ · with state := .running })).ptable q).view.stake
      = (k.ptable q).view.stake ∧ ((k.set s ({ · with state := .running })).ptable q).view.Pos := by
    intro q
    by_cases e : q = s
    · subst e
      rw [Kernel.set_ptable, update_self]
      refine ⟨?_, fun hp _ _ => h.pos q hp hlive.1 hlive.2⟩
      simp [View.stake, Proc.view, hlive.1, hlive.2]
    · rw [Kernel.set_ptable, update_of_ne e]
      exact ⟨rfl, h.pos q⟩
  have hsum : shares (k.set s ({ · with state := .running })) = shares k :=
    Finset.sum_congr rfl fun q _ => (hview q).1
  exact ⟨h.total.trans hsum.symm, hsum ▸ h.le, fun q => (hview q).2⟩

/-- The sum after `set_cpu_share` has set a share. -/
theorem shares_set {i : Int} (hr : (k.ptable cur).state = .running)
    (hv : (k'.ptable cur).view = v) (hs : v.state = (k.ptable cur).view.state)
    (hm : v.procMode = .stride) (hi : v.cpuShare = i)
    (ho : ∀ q, q ≠ cur → k'.ptable q = k.ptable q) :
    shares k' = shares k - (k.ptable cur).view.stake + i := by
  have h : shares k' = shares k - (k.ptable cur).view.stake + (k'.ptable cur).view.stake :=
    shares_of_eq_off cur fun q e => by rw [ho q e]
  rw [h, hv, stake_running (hs.trans hr), if_pos hm, hi]

section

variable (h : ShareInv k) (hr : (k.ptable cur).state = .running)
include h hr

theorem share_setCpuShare {i : BitVec 32} :
    (KeepsShare k (.call cur (.setCpuShare i)) → ShareInv (setCpuShare k cur i.toInt).2) ∧
      (¬ KeepsShare k (.call cur (.setCpuShare i)) → ¬ ShareOk (setCpuShare k cur i.toInt).2) := by
  have hlt : i.toInt < 2 ^ 31 := BitVec.toInt_lt
  have hnn := h.nonneg
  have hle := h.le
  have htot := h.total
  have hst := h.stake_le cur
  rw [stake_running hr] at hst
  rcases setCpuShare_cases k cur i.toInt with ⟨hk, hc⟩ | ⟨hi, hm, h80, ht, hv, ho⟩ |
    ⟨hi, hm, h80, ht, hv, ho⟩
  · -- refused
    rw [hk]
    refine ⟨fun _ => h, fun hn => absurd ?_ hn⟩
    rcases hc with hc | ⟨hm, hc⟩ | ⟨hm, hc⟩
    · exact .inl hc
    · refine .inr ?_
      rw [if_neg hm]
      by_contra hov
      rw [wrap_of_over (by omega) (by omega)] at hc
      omega
    · exact .inr (by rw [if_pos hm]; exact .inr hc)
  · -- a first share
    have hsum : shares (setCpuShare k cur i.toInt).2
        = shares k - (k.ptable cur).view.stake + i.toInt := shares_set hr hv rfl rfl rfl ho
    rw [stake_running hr, if_neg (show (k.ptable cur).view.procMode ≠ .stride from hm)] at hsum
    constructor
    · rintro (h0 | hk)
      · omega
      rw [if_neg hm] at hk
      rw [wrap_of_range (by omega) (by omega)] at ht h80
      refine ⟨by omega, by omega, fun s => ?_⟩
      by_cases e : s = cur
      · subst e
        rw [hv]
        exact fun _ _ _ => hi
      · rw [ho s e]
        exact h.pos s
    · intro hn hok
      have hov : 2 ^ 31 ≤ k.cpuShareStride + i.toInt := by
        by_contra hlt'
        exact hn (.inr (by rw [if_neg hm]; omega))
      rw [wrap_of_over hov (by omega)] at ht
      have := hok.1
      omega
  · -- a changed share: the counter stays
    have hsum : shares (setCpuShare k cur i.toInt).2
        = shares k - (k.ptable cur).view.stake + i.toInt := shares_set hr hv rfl hm rfl ho
    have hm' : (k.ptable cur).view.procMode = .stride := hm
    rw [stake_running hr, if_pos hm'] at hsum
    rw [if_pos hm'] at hst
    rw [show k.cpuShareStride + i.toInt - i.toInt = k.cpuShareStride by omega,
      wrap_of_range (by omega) (by omega)] at ht
    constructor
    · rintro (h0 | hk)
      · omega
      rw [if_pos hm] at hk
      rcases hk with hk | hk
      · have hk' : i.toInt = (k.ptable cur).view.cpuShare := hk
        refine ⟨by omega, by omega, fun s => ?_⟩
        by_cases e : s = cur
        · subst e
          rw [hv]
          exact fun _ _ _ => hi
        · rw [ho s e]
          exact h.pos s
      · omega
    · intro hn hok
      have hne : i.toInt ≠ (k.ptable cur).view.cpuShare := fun e =>
        hn (.inr (by rw [if_pos hm]; exact .inl e))
      have := hok.1
      omega

/-- `exit` takes the share of the caller off the counter and off the sum. -/
theorem share_exit (m : Moves .ends cur (giveBack k cur) k') : ShareInv k' := by
  have hp := giveBack_ptable k cur
  have hsum : shares k' = shares k - (k.ptable cur).view.stake := by
    have hs := m.shares (by rw [hp]; exact hr)
    rw [if_pos rfl, hp] at hs
    rw [hs, shares, shares, hp]
  have hst := h.stake_le cur
  have hnn := View.stake_nonneg (h.pos cur)
  have htot : k'.cpuShareStride = k.cpuShareStride - (k.ptable cur).view.stake := by
    have hc := congrArg Counters.cpuShareStride m.counters
    have hle := h.le
    have ht := h.total
    rw [stake_running hr] at hst hnn ⊢
    simp only [Kernel.counters, giveBack] at hc
    rw [hc]
    by_cases hmode : (k.ptable cur).procMode = .stride
    · have hmode' : (k.ptable cur).view.procMode = .stride := hmode
      rw [if_pos hmode'] at hst hnn ⊢
      rw [if_pos hmode]
      exact wrap_of_range (by simp only [Proc.view] at hst hnn; omega)
        (by simp only [Proc.view] at hst hnn; omega)
    · rw [if_neg hmode, if_neg (show ¬ (k.ptable cur).view.procMode = .stride from hmode), sub_zero]
  have hle := h.le
  have ht := h.total
  exact ⟨by omega, by omega, m.pos (by rw [hp]; exact hr) (by rw [hp]; exact h.pos)⟩

/-- A call that ends nobody and is not `set_cpu_share` keeps the counter and the sum. -/
theorem share_keeps (m : Moves o cur k k') (ho : o ≠ .ends) : ShareInv k' := by
  have hsum : shares k' = shares k := by
    rw [m.shares hr, if_neg ho, sub_zero]
  have htot : k'.cpuShareStride = k.cpuShareStride := congrArg Counters.cpuShareStride m.counters
  exact ⟨by rw [htot, hsum]; exact h.total, by rw [hsum]; exact h.le, m.pos hr h.pos⟩

/-- `thread_exit` takes the share of the caller off the sum alone. -/
theorem share_threadExit (m : Moves .ends cur k k') :
    ((k.ptable cur).procMode ≠ .stride → ShareInv k') ∧
      ((k.ptable cur).procMode = .stride → ¬ ShareOk k') := by
  have hsum : shares k' = shares k - (k.ptable cur).view.stake := by
    rw [m.shares hr, if_pos rfl]
  have htot : k'.cpuShareStride = k.cpuShareStride := congrArg Counters.cpuShareStride m.counters
  have ht := h.total
  rw [stake_running hr] at hsum
  constructor
  · intro hm
    rw [if_neg (show (k.ptable cur).view.procMode ≠ .stride from hm), sub_zero] at hsum
    exact ⟨by rw [htot, hsum]; exact ht, by rw [hsum]; exact h.le, m.pos hr h.pos⟩
  intro hm hok
  rw [if_pos (show (k.ptable cur).view.procMode = .stride from hm)] at hsum
  have hpos := h.pos cur hm (by rw [show (k.ptable cur).view.state = .running from hr]; decide)
    (by rw [show (k.ptable cur).view.state = .running from hr]; decide)
  have := hok.1
  omega

end

/-- A step keeps the counter right exactly when it is one of `KeepsShare`. -/
theorem share_step {e : Event} (h : ShareInv k) (hs : step k e = some k') :
    (KeepsShare k e → ShareInv k') ∧ (¬ KeepsShare k e → ¬ ShareOk k') := by
  cases e with
  | dispatch s =>
    obtain ⟨hm, rfl⟩ := step_dispatch hs
    exact ⟨fun _ => share_dispatch h hm, fun hn => absurd trivial hn⟩
  | call s c =>
    obtain ⟨hr, -, o, hc⟩ := step_call hs
    have hlive : Live k s := by rw [Live, hr]; decide
    cases c with
    | setCpuShare i =>
      cases hc
      exact share_setCpuShare h hr
    | exit =>
      have hm := call_moves hlive (fun i => Call.noConfusion) hc
      obtain ⟨k₁, -, hc⟩ := Support.bind_ok.mp hc
      cases hc
      exact ⟨fun _ => share_exit h hr hm, fun hn => absurd trivial hn⟩
    | threadExit v =>
      have hm := call_moves hlive (fun i => Call.noConfusion) hc
      obtain ⟨k₁, -, hc⟩ := Support.bind_ok.mp hc
      cases hc
      obtain ⟨hk, hb⟩ := share_threadExit h hr hm
      exact ⟨hk, fun hn => hb (not_not.mp hn)⟩
    | fork | exitVisit | wait | threadCreate | threadJoin | sbrk | exec | kill | sleep | wakeup
    | yield =>
      have ho : o ≠ .ends := call_not_ends hc Call.noConfusion fun v => Call.noConfusion
      exact ⟨fun _ => share_keeps h hr (call_moves hlive (fun i => Call.noConfusion) hc) ho,
        fun hn => absurd trivial hn⟩

/-- Before any call the counter and the shares are zero. -/
theorem share_boot (hb : Booted k) : ShareInv k := by
  obtain ⟨h₀, hq, hc⟩ := hb.view
  have hmode : ∀ s, (k.ptable s).view.procMode = .mlfq := by
    intro s
    by_cases e : s = initproc
    · rw [e, h₀]; rfl
    · rw [hq s e]; rfl
  have hz : shares k = 0 := by
    refine Finset.sum_eq_zero fun s _ => ?_
    rw [View.stake, if_neg]
    rintro ⟨hm, -⟩
    rw [hmode s] at hm
    cases hm
  refine ⟨(congrArg Counters.cpuShareStride hc).trans hz.symm, hz ▸ by decide, fun s hm => ?_⟩
  rw [hmode s] at hm
  cases hm

/-- **The Stride counter.**  In every run whose steps are all of `KeepsShare` the counter is the
sum of the shares of the Stride processes that are neither unused nor zombies, and this sum is
between 0 and 80.  A step of the last kernel keeps this exactly when it is one of them too. -/
theorem share_total_iff {k : Kernel} (r : SysRun KeepsShare k) :
    ShareOk k ∧ ∀ e k', step k e = some k' → (ShareOk k' ↔ KeepsShare k e) := by
  have h : ShareInv k := r.invariant (fun _ => share_boot) fun _ _ _ h hk hs => (share_step h hs).1 hk
  refine ⟨h.ok, fun e k' hs => ?_⟩
  obtain ⟨hk, hb⟩ := share_step h hs
  exact ⟨fun hok => by_contra fun hn => hb hn hok, fun he => (hk he).ok⟩

/-- init takes a share of 10 and then asks for 60: the counter stays at 10. -/
theorem share_total_wrong : ∃ k, SysRun (fun _ _ => True) k ∧ k.cpuShareStride = 10 ∧
    shares k = 60 ∧ ¬ ShareOk k := by
  obtain ⟨k, r, ht, hs⟩ := exists_sysRun (fun _ _ => True) 70
    [.dispatch 0, .call 0 (.setCpuShare 10), .call 0 (.setCpuShare 60)]
    (fun k => k.cpuShareStride = 10 ∧ shares k = 60) (by decide +kernel)
  refine ⟨k, r, ht, hs, fun hok => ?_⟩
  have := hok.1
  omega

/-- init takes a share of 10, forks, and the child takes one of 70 and exits. -/
theorem share_total_iff_run : ∃ k, SysRun KeepsShare k ∧ k.cpuShareStride = 10 ∧ ShareOk k := by
  obtain ⟨k, r, h⟩ := exists_sysRun KeepsShare 140
    [.dispatch 0, .call 0 (.setCpuShare 10), .call 0 .fork, .dispatch 1,
      .call 1 (.setCpuShare 70), .call 1 .exit]
    (fun k => k.cpuShareStride = 10) (by decide +kernel)
  exact ⟨k, r, h, (share_total_iff r).1⟩

end Xv6.Kern
