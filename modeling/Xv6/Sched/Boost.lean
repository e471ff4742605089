import Xv6.Proc.Share
import Xv6.Sched.Rounds

/-!
# Sched — no process of MLFQ starves

Without a Stride share every round is MLFQ's.  Every 100 rounds the boost puts all processes that are
RUNNABLE at the top level with no tick, and from there the next rounds take each of them once, since
one that has run has a tick and the others have none.

* `no_starvation`: processes that only yield are each dispatched in any window of 100 + N rounds,
  where N is their number.
* `starved_below_zero`: a count of rounds below 0 puts the boost off.
-/

namespace Xv6.Sched

open Kern
open Support (bind_ok)

/-- A round whose process yields. -/
def yieldRound (k : Kernel) : Except Stop Kernel :=
  roundEnd (yield (k.set (pick k) ({ · with state := .running })) (pick k)) (pick k) (scheMode k)

/-- So many such rounds. -/
def rounds : Nat → Kernel → Except Stop Kernel
  | 0, k => .ok k
  | n + 1, k => do
    let k ← yieldRound k
    rounds n k

theorem rounds_add {m n : Nat} {k k' : Kernel} (h : rounds m k = .ok k') :
    rounds (m + n) k = rounds n k' := by
  induction m generalizing k with
  | zero =>
    cases h
    rw [Nat.zero_add]
  | succ m ih =>
    obtain ⟨k₁, h₁, h⟩ := bind_ok.mp h
    rw [Nat.succ_add, rounds, h₁]
    exact ih h

/-! ### One round -/

/-- The processes of `A` are the RUNNABLE ones of MLFQ, and there is no Stride share.  No tick is out
of the reach of the scan before the next boost. -/
structure Turn (A : Finset Slot) (k : Kernel) : Prop where
  ready : ∀ s, s ∈ A ↔ (k.ptable s).state = .runnable ∧ (k.ptable s).procMode = .mlfq
  share : k.cpuShareStride = 0
  low : ∀ s ∈ A, -2 ^ 31 ≤ (k.ptable s).tick
  high : ∀ s ∈ A, (k.ptable s).tick < 900 + k.totalTicksMlfq
  total : 0 ≤ k.totalTicksMlfq
  boost : k.totalTicksMlfq < 100

/-- All processes of `A` are at the top level, those of `B` with one tick and the others with none. -/
structure Dealt (A B : Finset Slot) (k : Kernel) : Prop where
  turn : Turn A k
  sub : B ⊆ A
  top : ∀ s ∈ A, (k.ptable s).mlfqLv = .high
  tick : ∀ s ∈ A, (k.ptable s).tick = if s ∈ B then 1 else 0
  total : k.totalTicksMlfq = B.card

/-- The process of a round after it has yielded and been charged. -/
def charged (p : Proc) : Proc :=
  let t := wrap (p.tick + 1)
  if p.mlfqLv = .high ∧ 5 ≤ t then { p with mlfqLv := .mid, tick := 0, state := .runnable }
  else if p.mlfqLv = .mid ∧ 10 ≤ t then { p with mlfqLv := .low, tick := 0, state := .runnable }
  else { p with tick := t, state := .runnable }

section

variable {A B : Finset Slot} {k k' : Kernel} {s : Slot}

theorem charged_state (p : Proc) : (charged p).state = .runnable := by
  rw [charged]
  split
  · rfl
  · split
    · rfl
    · rfl

theorem charged_procMode (p : Proc) : (charged p).procMode = p.procMode := by
  rw [charged]
  split
  · rfl
  · split
    · rfl
    · rfl

theorem charged_tick (p : Proc) (h : -2 ^ 31 ≤ p.tick) (h' : p.tick < 2 ^ 31 - 1) :
    -2 ^ 31 ≤ (charged p).tick ∧ (charged p).tick ≤ max 0 (p.tick + 1) := by
  have hw : wrap (p.tick + 1) = p.tick + 1 := wrap_of_range (by omega) (by omega)
  have h0 : (-2 ^ 31 : Int) ≤ 0 := by decide
  rw [charged]
  split
  · exact ⟨h0, le_max_left ..⟩
  · split
    · exact ⟨h0, le_max_left ..⟩
    · simp only [hw]
      omega

/-- The level stays where the allotment is not used up. -/
theorem charged_high (p : Proc) (hl : p.mlfqLv = .high) (ht : p.tick = 0) :
    (charged p).mlfqLv = .high ∧ (charged p).tick = 1 := by
  rw [charged, hl, ht]
  exact ⟨rfl, rfl⟩

theorem scheMode_mlfq (h : k.cpuShareStride = 0) : scheMode k = .mlfq := by
  rw [scheMode, if_pos (.inl h)]

theorem Turn.mode (h : Turn A k) : scheMode k = .mlfq := scheMode_mlfq h.share

/-- The round takes a process of `A`. -/
theorem Turn.pick_mem (h : Turn A k) (hs : s ∈ A) : pick k ∈ A := by
  rw [h.ready]
  have hsel : Selectable (k.ptable s) (scheMode k) := by
    obtain ⟨hr, hm⟩ := (h.ready s).mp hs
    rw [h.mode]
    refine ⟨hr, hm, .inr ?_⟩
    have ht := h.high s hs
    have hb := h.boost
    have hq : (k.ptable s).tick.tdiv 4 ≤ 249 := by
      rw [Int.tdiv_eq_ediv]
      split
      · omega
      · have h4 : Int.sign 4 = 1 := rfl
        omega
    exact lt_of_le_of_lt hq (by decide)
  rcases pick_spec k with ⟨-, hr, hm⟩ | ⟨hn, -⟩
  · exact ⟨hr, hm.trans h.mode⟩
  · exact absurd hsel (hn s)

/-- The kernel when the process of the round has yielded and is charged. -/
def adjusted (k : Kernel) : Kernel :=
  adjustMlfqState (yield (k.set (pick k) ({ · with state := .running })) (pick k)) (pick k)

theorem adjusted_ptable (k : Kernel) : (adjusted k).ptable =
    Function.update k.ptable (pick k) (charged (k.ptable (pick k))) := by
  simp only [adjusted, adjustMlfqState, yield, Kernel.set_ptable, Function.update_idem,
    Function.update_self]
  rfl

theorem adjusted_self (k : Kernel) :
    (adjusted k).ptable (pick k) = charged (k.ptable (pick k)) := by
  rw [adjusted_ptable, Function.update_self]

theorem adjusted_of_ne (k : Kernel) (e : s ≠ pick k) : (adjusted k).ptable s = k.ptable s := by
  rw [adjusted_ptable, Function.update_of_ne e]

/-- Without a share the round ends as the boost leaves it, with the passes at 0. -/
theorem yieldRound_eq (h : k.cpuShareStride = 0) : yieldRound k = .ok { initMlfqState (adjusted k) with
    passMlfq := 0, passStride := 0, maxStrideProcPass := 0 } := by
  have hS : (initMlfqState (adjusted k)).cpuShareStride = 0 :=
    ((initMlfqState_charged _ (pick k)).total).trans h
  rw [yieldRound, scheMode_mlfq h, roundEnd]
  change revaluatePass (initMlfqState (adjusted k)) .mlfq = _
  simp only [revaluatePass]
  rw [if_pos hS]

theorem Turn.adjusted_total (h : Turn A k) :
    (adjusted k).totalTicksMlfq = k.totalTicksMlfq + 1 := by
  have h0 := h.total
  have hb := h.boost
  change wrap (k.totalTicksMlfq + 1) = _
  exact wrap_of_range (by omega) (by omega)

/-- The processes of `A` are RUNNABLE again after a round, and no other is. -/
theorem Turn.adjusted_ready (h : Turn A k) (hs : s ∈ A) (q : Slot) :
    q ∈ A ↔ ((adjusted k).ptable q).state = .runnable ∧ ((adjusted k).ptable q).procMode = .mlfq := by
  by_cases e : q = pick k
  · subst e
    have hp := h.pick_mem hs
    rw [adjusted_self, charged_state, charged_procMode]
    exact ⟨fun _ => ⟨rfl, ((h.ready _).mp hp).2⟩, fun _ => hp⟩
  · rw [adjusted_of_ne k e]
    exact h.ready q

/-- A round before the boost changes the process that ran. -/
theorem Turn.before (h : Turn A k) (hs : s ∈ A) (ht : k.totalTicksMlfq < 99) :
    ∃ k', yieldRound k = .ok k' ∧ Turn A k' ∧ k'.ptable = (adjusted k).ptable ∧
      k'.totalTicksMlfq = k.totalTicksMlfq + 1 := by
  have htot := h.adjusted_total
  have h0 := h.total
  have hi : initMlfqState (adjusted k) = adjusted k := by
    rw [initMlfqState, if_neg (by omega)]
  refine ⟨_, yieldRound_eq h.share, ?_, ?_, ?_⟩
  · rw [hi]
    have htick : ∀ q ∈ A, -2 ^ 31 ≤ ((adjusted k).ptable q).tick ∧
        ((adjusted k).ptable q).tick < 900 + (k.totalTicksMlfq + 1) := by
      intro q hq
      have hlow := h.low q hq
      have hhigh := h.high q hq
      by_cases e : q = pick k
      · subst e
        rw [adjusted_self]
        have := charged_tick _ hlow (by omega)
        omega
      · rw [adjusted_of_ne k e]
        omega
    refine ⟨h.adjusted_ready hs, h.share, fun q hq => (htick q hq).1, fun q hq => ?_, ?_, ?_⟩
    · change _ < 900 + (adjusted k).totalTicksMlfq
      rw [htot]
      exact (htick q hq).2
    · change 0 ≤ (adjusted k).totalTicksMlfq
      omega
    · change (adjusted k).totalTicksMlfq < 100
      omega
  · rw [hi]
  · rw [hi]
    exact htot

/-- The round of the boost lifts every process of `A`. -/
theorem Turn.boosted (h : Turn A k) (hs : s ∈ A) (ht : k.totalTicksMlfq = 99) :
    ∃ k', yieldRound k = .ok k' ∧ Dealt A ∅ k' := by
  have htot := h.adjusted_total
  have hready := h.adjusted_ready hs
  have hi : initMlfqState (adjusted k) = { adjusted k with
      ptable := fun s =>
        let p := (adjusted k).ptable s
        if p.state = .runnable then { p with tick := 0, mlfqLv := .high } else p
      totalTicksMlfq := 0 } := by
    rw [initMlfqState, if_pos (by omega)]
  have hA : ∀ q ∈ A, ((initMlfqState (adjusted k)).ptable q).tick = 0 ∧
      ((initMlfqState (adjusted k)).ptable q).mlfqLv = .high := by
    intro q hq
    rw [hi]
    dsimp only
    rw [if_pos ((hready q).mp hq).1]
    exact ⟨rfl, rfl⟩
  have htotal : (initMlfqState (adjusted k)).totalTicksMlfq = 0 := by rw [hi]
  have hch := initMlfqState_charged (adjusted k) (pick k)
  refine ⟨_, yieldRound_eq h.share, ⟨fun q => ?_, ?_, fun q hq => ?_, fun q hq => ?_, ?_, ?_⟩,
    Finset.empty_subset A, fun q hq => ?_, fun q hq => ?_, ?_⟩
  · rw [hready q]
    change _ ↔ ((initMlfqState (adjusted k)).ptable q).state = _ ∧
      ((initMlfqState (adjusted k)).ptable q).procMode = _
    rw [hch.state, hch.procMode]
  · exact hch.total.trans h.share
  · change _ ≤ ((initMlfqState (adjusted k)).ptable q).tick
    rw [(hA q hq).1]
    decide
  · change ((initMlfqState (adjusted k)).ptable q).tick < 900 + (initMlfqState _).totalTicksMlfq
    rw [(hA q hq).1, htotal]
    decide
  · exact htotal.symm.le
  · change (initMlfqState (adjusted k)).totalTicksMlfq < 100
    rw [htotal]
    decide
  · exact (hA q hq).2
  · rw [if_neg (Finset.notMem_empty q)]
    exact (hA q hq).1
  · exact htotal

/-! ### After the boost -/

/-- A visit to a process at the top level. -/
theorem mlfqVisit_top {t : Slot → Proc} (hr : (t s).state = .runnable ∧ (t s).procMode = .mlfq)
    (hl : (t s).mlfqLv = .high) (b : Best) : mlfqVisit t b s =
      if b.lv = .high ∧ b.tick ≤ (t s).tick then b else ⟨s, .high, (t s).tick⟩ := by
  obtain ⟨rp, lv, tick⟩ := b
  rw [mlfqVisit, if_pos hr, hl]
  cases lv with
  | low | mid => rfl
  | high =>
    by_cases ht : tick ≤ (t s).tick
    · simp [quantum, ht]
    · simp [quantum, ht]

/-- What the scan holds: nothing of the top level, a tick above 0, or a process that has not run. -/
def Holds (B : Finset Slot) (b : Best) : Prop := b.lv = .high → 0 < b.tick ∨ b.tick = 0 ∧ b.rp ∉ B

/-- The scan holds a process that has not run. -/
def HoldsFresh (B : Finset Slot) (b : Best) : Prop := b.lv = .high ∧ b.tick = 0 ∧ b.rp ∉ B

/-- One visit of the scan after the boost. -/
theorem Dealt.visit (h : Dealt A B k) (b : Best) (q : Slot) :
    (Holds B b → Holds B (mlfqVisit k.ptable b q)) ∧
      (HoldsFresh B b → HoldsFresh B (mlfqVisit k.ptable b q)) ∧
      (Holds B b → q ∈ A ∧ q ∉ B → HoldsFresh B (mlfqVisit k.ptable b q)) := by
  by_cases hA : q ∈ A
  · have htick := h.tick q hA
    rw [mlfqVisit_top ((h.turn.ready q).mp hA) (h.top q hA)]
    by_cases hk : b.lv = .high ∧ b.tick ≤ (k.ptable q).tick
    · rw [if_pos hk]
      refine ⟨id, id, fun hb hq => ?_⟩
      rw [if_neg hq.2] at htick
      rcases hb hk.1 with hb | ⟨hb, hB⟩
      · omega
      · exact ⟨hk.1, hb, hB⟩
    · rw [if_neg hk, htick]
      refine ⟨fun _ _ => ?_, fun hb => ?_, fun _ hq => ?_⟩
      · by_cases hB : q ∈ B
        · rw [if_pos hB]
          exact .inl Int.one_pos
        · rw [if_neg hB]
          exact .inr ⟨rfl, hB⟩
      · refine absurd ⟨hb.1, ?_⟩ hk
        rw [hb.2.1, htick]
        split
        · decide
        · exact le_refl _
      · rw [if_neg hq.2]
        exact ⟨rfl, rfl, hq.2⟩
  · have hv : mlfqVisit k.ptable b q = b := by
      rw [mlfqVisit, if_neg fun hr => hA ((h.turn.ready q).mpr hr)]
    rw [hv]
    exact ⟨id, id, fun _ hq => absurd hq.1 hA⟩

/-- The scan takes one that has not run, while there is one. -/
theorem Dealt.pick_fresh (h : Dealt A B k) (hs : s ∈ A) (hB : s ∉ B) : pick k ∉ B := by
  rw [pick, h.turn.mode]
  have hfold : HoldsFresh B ((List.finRange NPROC).foldl (mlfqVisit k.ptable)
      ⟨initproc, .low, 1000⟩) :=
    Support.scan_reaches (fun b q => (h.visit b q).1) (fun b q => (h.visit b q).2.1)
      (fun b q => (h.visit b q).2.2) (fun h => by cases h) (List.mem_finRange s) ⟨hs, hB⟩
  exact hfold.2.2

/-- A round after the boost deals a tick to one that had none. -/
theorem Dealt.round (h : Dealt A B k) (hs : s ∈ A) (hB : s ∉ B) :
    ∃ k', yieldRound k = .ok k' ∧ Dealt A (insert (pick k) B) k' := by
  have hp := h.turn.pick_mem hs
  have hf := h.pick_fresh hs hB
  have hcard : B.card < A.card := Finset.card_lt_card ⟨h.sub, fun hAB => hB (hAB hs)⟩
  have hA : A.card ≤ NPROC := (Finset.card_le_univ A).trans (Fintype.card_fin NPROC).le
  have htot := h.total
  obtain ⟨k', hk', ht, hpt, htot'⟩ := h.turn.before hs (by rw [htot]; simp only [NPROC] at hA; omega)
  have hone := charged_high (k.ptable (pick k)) (h.top _ hp) (by rw [h.tick _ hp, if_neg hf])
  refine ⟨k', hk', ht, Finset.insert_subset hp h.sub, fun q hq => ?_, fun q hq => ?_, ?_⟩
  · rw [hpt]
    by_cases e : q = pick k
    · rw [e, adjusted_self]
      exact hone.1
    · rw [adjusted_of_ne k e]
      exact h.top q hq
  · rw [hpt]
    by_cases e : q = pick k
    · rw [e, adjusted_self, if_pos (Finset.mem_insert_self ..)]
      exact hone.2
    · rw [adjusted_of_ne k e, h.tick q hq]
      simp only [Finset.mem_insert, e, false_or]
  · rw [htot', htot, Finset.card_insert_of_notMem hf]
    push_cast
    rfl

/-- After the boost every process that has not run is dispatched before any other runs twice. -/
theorem Dealt.dispatched (hs : s ∈ A) : ∀ (n : Nat) {B : Finset Slot} {k : Kernel},
    Dealt A B k → s ∉ B → A.card ≤ B.card + n →
    ∃ i < n, ∃ k', rounds i k = .ok k' ∧ pick k' = s := by
  intro n
  induction n with
  | zero =>
    intro B k h hB hn
    have := Finset.card_lt_card ⟨h.sub, fun hAB => hB (hAB hs)⟩
    omega
  | succ n ih =>
    intro B k h hB hn
    by_cases e : pick k = s
    · exact ⟨0, Nat.succ_pos n, k, rfl, e⟩
    obtain ⟨k₁, hk₁, h₁⟩ := h.round hs hB
    have hc := Finset.card_insert_of_notMem (h.pick_fresh hs hB)
    have hs' : s ∉ insert (pick k) B := by
      simp only [Finset.mem_insert, not_or]
      exact ⟨Ne.symm e, hB⟩
    obtain ⟨i, hi, k', hk', hp⟩ := ih h₁ hs' (by omega)
    exact ⟨i + 1, by omega, k', bind_ok.mpr ⟨k₁, hk₁, hk'⟩, hp⟩

/-! ### Any window -/

/-- The boost comes within 100 rounds. -/
theorem Turn.boost_comes (hs : s ∈ A) : ∀ (n : Nat) {k : Kernel}, Turn A k →
    k.totalTicksMlfq + n = 99 → ∃ k', rounds (n + 1) k = .ok k' ∧ Dealt A ∅ k' := by
  intro n
  induction n with
  | zero =>
    intro k h hn
    obtain ⟨k', hk', hd⟩ := h.boosted hs (by omega)
    exact ⟨k', bind_ok.mpr ⟨k', hk', rfl⟩, hd⟩
  | succ n ih =>
    intro k h hn
    obtain ⟨k₁, hk₁, h₁, -, ht⟩ := h.before hs (by omega)
    obtain ⟨k', hk', hd⟩ := ih h₁ (by omega)
    exact ⟨k', bind_ok.mpr ⟨k₁, hk₁, hk'⟩, hd⟩

/-- A round keeps the processes of `A` ready. -/
theorem Turn.next (h : Turn A k) (hs : s ∈ A) : ∃ k', yieldRound k = .ok k' ∧ Turn A k' := by
  have hb := h.boost
  by_cases ht : k.totalTicksMlfq = 99
  · obtain ⟨k', hk', hd⟩ := h.boosted hs ht
    exact ⟨k', hk', hd.turn⟩
  · obtain ⟨k', hk', hd, -⟩ := h.before hs (by omega)
    exact ⟨k', hk', hd⟩

theorem Turn.rounds (hs : s ∈ A) : ∀ (n : Nat) {k : Kernel}, Turn A k →
    ∃ k', Sched.rounds n k = .ok k' ∧ Turn A k' := by
  intro n
  induction n with
  | zero =>
    intro k h
    exact ⟨k, rfl, h⟩
  | succ n ih =>
    intro k h
    obtain ⟨k₁, hk₁, h₁⟩ := h.next hs
    obtain ⟨k', hk', h'⟩ := ih h₁
    exact ⟨k', bind_ok.mpr ⟨k₁, hk₁, hk'⟩, h'⟩

end

/-- **No process of MLFQ starves.**  Let `A` be the RUNNABLE processes of MLFQ, with ticks below 900
and any levels, each of which yields when it runs, let there be no Stride share, and let
`total_ticks_MLFQ` be from 0 to 99.  Then in every window of 100 + N rounds, N the number of
processes, every one of them is dispatched. -/
theorem no_starvation {A : Finset Slot} {k : Kernel}
    (hA : ∀ s, s ∈ A ↔ (k.ptable s).state = .runnable ∧ (k.ptable s).procMode = .mlfq)
    (hshare : k.cpuShareStride = 0)
    (hint : ∀ s ∈ A, -2 ^ 31 ≤ (k.ptable s).tick) (htick : ∀ s ∈ A, (k.ptable s).tick < 900)
    (htotal : 0 ≤ k.totalTicksMlfq) (htotal' : k.totalTicksMlfq < 100) :
    ∀ n, ∀ s ∈ A, ∃ i < 100 + A.card, ∃ k', rounds (n + i) k = .ok k' ∧ pick k' = s := by
  intro n s hs
  have h : Turn A k := ⟨hA, hshare, hint, fun q hq => by have := htick q hq; omega, htotal, htotal'⟩
  obtain ⟨k₁, hk₁, h₁⟩ := h.rounds hs n
  have ht := h₁.total
  have hb := h₁.boost
  obtain ⟨k₂, hk₂, hd⟩ := h₁.boost_comes hs (99 - k₁.totalTicksMlfq).toNat (by omega)
  obtain ⟨i, hi, k₃, hk₃, hp⟩ := hd.dispatched hs A.card (Finset.notMem_empty s) (by simp)
  refine ⟨(99 - k₁.totalTicksMlfq).toNat + 1 + i, by omega, k₃, ?_, hp⟩
  rw [rounds_add hk₁, rounds_add hk₂]
  exact hk₃

/-- Two processes at the bottom level, with the boost at hand. -/
theorem no_starvation_two : ∃ (A : Finset Slot) (k : Kernel), A.card = 2 ∧
    k.totalTicksMlfq = 99 ∧
    ∀ n, ∀ s ∈ A, ∃ i < 102, ∃ k', rounds (n + i) k = .ok k' ∧ pick k' = s := by
  let k : Kernel := { Kernel.blank [] with
    ptable := fun s =>
      if s.val < 2 then { Proc.zero with state := .runnable, tick := 899 } else .zero
    totalTicksMlfq := 99 }
  exact ⟨{0, 1}, k, rfl, rfl, no_starvation (k := k) (by decide) rfl (by decide) (by decide)
    (by decide) (by decide)⟩

/-! ### A count below zero -/

/-- Slot 1 at the top level and slot 0 at the bottom, after `n` rounds. -/
structure Hog (n : Nat) (k : Kernel) : Prop where
  share : k.cpuShareStride = 0
  top : (k.ptable 1).state = .runnable ∧ (k.ptable 1).procMode = .mlfq ∧
    (k.ptable 1).mlfqLv = .high ∧ (k.ptable 1).tick = n - 200
  low : (k.ptable 0).mlfqLv = .low
  none : ∀ s, s ≠ 0 → s ≠ 1 → (k.ptable s).state ≠ .runnable
  total : k.totalTicksMlfq = n - 200

/-- A visit to a process at the bottom level does not move the scan from the top. -/
theorem mlfqVisit_low {t : Slot → Proc} {s : Slot} (hl : (t s).mlfqLv = .low) (b : Best) :
    (mlfqVisit t b s).lv = b.lv ∧ (b.lv = .high → mlfqVisit t b s = b) := by
  rw [mlfqVisit, hl]
  cases hlv : b.lv with
  | low =>
    refine ⟨?_, fun h => by cases h⟩
    split
    · rw [if_neg (Nat.lt_irrefl _), if_pos rfl]
      split
      · exact hlv
      · rfl
    · exact hlv
  | mid =>
    simp [Level.toNat, hlv]
  | high =>
    simp [Level.toNat, hlv]

theorem Hog.pick {n : Nat} {k : Kernel} (h : Hog n k) : pick k = 1 := by
  obtain ⟨hr, hm, hl, -⟩ := h.top
  -- once slot 1 is seen nothing takes its place
  have hvisit : ∀ (b : Best) (q : Slot), (b.lv = .high → b.rp = 1) →
      ((mlfqVisit k.ptable b q).lv = .high → (mlfqVisit k.ptable b q).rp = 1) ∧
        (b.lv = .high ∨ q = 1 → (mlfqVisit k.ptable b q).lv = .high) := by
    intro b q hb
    by_cases e₁ : q = 1
    · subst e₁
      rw [mlfqVisit_top ⟨hr, hm⟩ hl]
      split
      · rename_i hk
        exact ⟨hb, fun _ => hk.1⟩
      · exact ⟨fun _ => rfl, fun _ => rfl⟩
    · by_cases e₀ : q = 0
      · subst e₀
        obtain ⟨hlv, heq⟩ := mlfqVisit_low h.low b
        rw [hlv]
        refine ⟨fun hb' => ?_, fun hq => hq.resolve_right e₁⟩
        rw [heq hb']
        exact hb hb'
      · have hv : mlfqVisit k.ptable b q = b := by
          rw [mlfqVisit, if_neg fun hr => h.none q e₀ e₁ hr.1]
        rw [hv]
        exact ⟨hb, fun hq => hq.resolve_right e₁⟩
  have hfold := Support.scan_reaches (f := mlfqVisit k.ptable) (S := fun q => q = 1)
    (W := fun b => b.lv = .high → b.rp = 1) (G := fun b => b.lv = .high ∧ b.rp = 1)
    (b := ⟨initproc, .low, 1000⟩) (fun b q hb => (hvisit b q hb).1) ?_ ?_ (fun h => by cases h)
    (List.mem_finRange (1 : Slot)) rfl
  · rw [Sched.pick, scheMode_mlfq h.share]
    exact hfold.2
  · intro b q hb
    obtain ⟨hrp, hlv⟩ := hvisit b q fun _ => hb.2
    have hh := hlv (.inl hb.1)
    exact ⟨hh, hrp hh⟩
  · intro b q hb hq
    obtain ⟨hrp, hlv⟩ := hvisit b q hb
    have hh := hlv (.inr hq)
    exact ⟨hh, hrp hh⟩

theorem Hog.next {n : Nat} {k : Kernel} (h : Hog n k) (hn : n < 200) :
    ∃ k', yieldRound k = .ok k' ∧ Hog (n + 1) k' := by
  obtain ⟨hr, hm, hl, ht⟩ := h.top
  have htot : (adjusted k).totalTicksMlfq = k.totalTicksMlfq + 1 := by
    have := h.total
    change wrap (k.totalTicksMlfq + 1) = _
    exact wrap_of_range (by omega) (by omega)
  have hi : initMlfqState (adjusted k) = adjusted k := by
    rw [initMlfqState, if_neg (by have := h.total; omega)]
  have hself : (adjusted k).ptable 1 = charged (k.ptable 1) := by
    have := adjusted_self k
    rwa [h.pick] at this
  have hother : ∀ s, s ≠ 1 → (adjusted k).ptable s = k.ptable s := by
    intro s e
    exact adjusted_of_ne k (by rwa [h.pick])
  have hw : wrap ((k.ptable 1).tick + 1) = n + 1 - 200 := by
    rw [wrap_of_range (by omega) (by omega)]
    omega
  have hc : charged (k.ptable 1) = { k.ptable 1 with tick := n + 1 - 200, state := .runnable } := by
    simp only [charged, hw, hl]
    rw [if_neg (by omega), if_neg fun h => by cases h.1]
  refine ⟨_, yieldRound_eq h.share, ?_⟩
  rw [hi]
  refine ⟨h.share, ?_, ?_, fun s e₀ e₁ => ?_, ?_⟩
  · change ((adjusted k).ptable 1).state = _ ∧ ((adjusted k).ptable 1).procMode = _ ∧
      ((adjusted k).ptable 1).mlfqLv = _ ∧ ((adjusted k).ptable 1).tick = _
    rw [hself, hc]
    refine ⟨rfl, hm, hl, ?_⟩
    push_cast
    rfl
  · change ((adjusted k).ptable 0).mlfqLv = _
    rw [hother 0 (by decide)]
    exact h.low
  · change ((adjusted k).ptable s).state ≠ _
    rw [hother s e₁]
    exact h.none s e₀ e₁
  · change (adjusted k).totalTicksMlfq = _
    rw [htot, h.total]
    push_cast
    omega

theorem Hog.rounds {m : Nat} : ∀ (i : Nat) {k : Kernel}, Hog m k → m + i ≤ 200 →
    ∃ k', Sched.rounds i k = .ok k' ∧ Hog (m + i) k' := by
  intro i
  induction i generalizing m with
  | zero =>
    intro k h _
    exact ⟨k, rfl, h⟩
  | succ i ih =>
    intro k h hm
    obtain ⟨k₁, hk₁, h₁⟩ := h.next (by omega)
    obtain ⟨k', hk', h'⟩ := ih h₁ (by omega)
    refine ⟨k', bind_ok.mpr ⟨k₁, hk₁, hk'⟩, ?_⟩
    rwa [show m + (i + 1) = m + 1 + i by omega]

/-- With `total_ticks_MLFQ` at -200 and a process of the top level at the tick -200, the other one is
not dispatched in the first 102 rounds. -/
theorem starved_below_zero : ∃ (A : Finset Slot) (k : Kernel),
    (∀ s, s ∈ A ↔ (k.ptable s).state = .runnable ∧ (k.ptable s).procMode = .mlfq) ∧
    k.cpuShareStride = 0 ∧ (∀ s ∈ A, (k.ptable s).tick < 900) ∧ k.totalTicksMlfq < 100 ∧
    ∃ s ∈ A, ∀ i < 100 + A.card, ∃ k', rounds i k = .ok k' ∧ pick k' ≠ s := by
  let k : Kernel := { Kernel.blank [] with
    ptable := fun s =>
      if s = 0 then { Proc.zero with state := .runnable }
      else if s = 1 then { Proc.zero with state := .runnable, mlfqLv := .high, tick := -200 }
      else .zero
    totalTicksMlfq := -200 }
  have h : Hog 0 k := ⟨rfl, ⟨rfl, rfl, rfl, rfl⟩, rfl, by decide, rfl⟩
  refine ⟨{0, 1}, k, by decide, rfl, by decide, by decide, 0, by decide, fun i hi => ?_⟩
  have hi : i < 102 := hi
  obtain ⟨k', hk', h'⟩ := h.rounds i (by omega)
  refine ⟨k', hk', ?_⟩
  rw [h'.pick]
  decide

end Xv6.Sched
