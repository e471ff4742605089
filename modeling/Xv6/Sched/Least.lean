import Xv6.Sched.Boost
import Xv6.Sched.Divide
import Xv6.Sched.Fair
import Xv6.Sched.Split

/-!
# Sched — which process the scans return

`find_runnable_MLFQ` prefers the higher level, and within a level the lower number of the time
quantum; `find_runnable_Stride` prefers the lower `PASS`.  Each takes a process only when it is
better than what it holds, so of equally good ones it returns the first.

Both begin with a bound in place of a process.  The ticks of MLFQ stay below theirs.  A `PASS` grows
without end, and where all of them have come to 2147483645 the Stride scan returns slot 0.

* `findRunnableMlfq_first`: with ticks below 1000, the MLFQ scan returns the first of the best.
* `findRunnableStride_least`: in every run, the Stride scan returns a process with the least `PASS`
  exactly when some `PASS` is below the bound, or slot 0 is such a process.
* `Climb.climbs`: a Stride process that yields in each of its rounds comes to the bound.
-/

namespace Xv6.Sched

open Kern
open Support (Run FirstLeast bind_ok)

/-! ### The MLFQ scan -/

section

variable {t : Slot → Proc}

/-- The process is RUNNABLE and of MLFQ. -/
def MlfqReady (p : Proc) : Prop := p.state = .runnable ∧ p.procMode = .mlfq

instance (p : Proc) : Decidable (MlfqReady p) := inferInstanceAs (Decidable (_ ∧ _))

/-- The place of a level and a tick in the order of the scan: the higher level comes first, and
within it the lower number of the quantum. -/
def mlfqKey (lv : Level) (tick : Int) : ℤ ×ₗ ℤ := toLex (-(lv.toNat : Int), quantum lv tick)

theorem Level.toNat_inj {lv lv' : Level} (h : lv.toNat = lv'.toNat) : lv = lv' := by
  cases lv <;> cases lv' <;> first | rfl | cases h

theorem mlfqKey_lt {lv lv' : Level} {tick tick' : Int} :
    mlfqKey lv tick < mlfqKey lv' tick' ↔
      lv'.toNat < lv.toNat ∨ lv = lv' ∧ quantum lv tick < quantum lv' tick' := by
  rw [mlfqKey, mlfqKey, Prod.Lex.toLex_lt_toLex, neg_lt_neg_iff, Nat.cast_lt, neg_inj, Nat.cast_inj]
  constructor
  · rintro (h | ⟨h, hq⟩)
    · exact .inl h
    · exact .inr ⟨Level.toNat_inj h, hq⟩
  · rintro (h | ⟨rfl, hq⟩)
    · exact .inl h
    · exact .inr ⟨rfl, hq⟩

/-- A visit takes a process exactly when it comes before what is held. -/
theorem mlfqVisit_eq (b : Best) (s : Slot) : mlfqVisit t b s =
    if MlfqReady (t s) ∧ mlfqKey (t s).mlfqLv (t s).tick < mlfqKey b.lv b.tick then
      ⟨s, (t s).mlfqLv, (t s).tick⟩ else b := by
  simp only [mlfqVisit]
  by_cases hr : MlfqReady (t s)
  · rw [if_pos (show _ ∧ _ from hr)]
    by_cases hlv : b.lv.toNat < (t s).mlfqLv.toNat
    · rw [if_pos hlv, if_pos ⟨hr, mlfqKey_lt.mpr (.inl hlv)⟩]
    rw [if_neg hlv]
    by_cases he : (t s).mlfqLv = b.lv
    · rw [if_pos he]
      by_cases hq : quantum b.lv b.tick ≤ quantum b.lv (t s).tick
      · rw [if_pos hq, if_neg]
        rintro ⟨-, h⟩
        rcases mlfqKey_lt.mp h with h | ⟨-, h⟩
        · exact hlv h
        · rw [he] at h
          exact absurd hq (not_le.mpr h)
      · have hlt : quantum (t s).mlfqLv (t s).tick < quantum b.lv b.tick := by
          rw [he]
          exact not_le.mp hq
        rw [if_neg hq, if_pos ⟨hr, mlfqKey_lt.mpr (.inr ⟨he, hlt⟩)⟩, he]
    · rw [if_neg he, if_neg]
      rintro ⟨-, h⟩
      rcases mlfqKey_lt.mp h with h | ⟨h, -⟩
      · exact hlv h
      · exact he h
  · rw [if_neg (show ¬(_ ∧ _) from hr), if_neg fun h => hr h.1]

/-- The tick the scan begins with is above every tick below 1000. -/
theorem mlfqKey_lt_start (lv : Level) {tick : Int} (h0 : 0 ≤ tick) (h : tick < 1000) :
    mlfqKey lv tick < mlfqKey .low 1000 := by
  rw [mlfqKey_lt]
  cases lv with
  | low =>
    refine .inr ⟨rfl, ?_⟩
    rw [quantum, quantum, Int.tdiv_eq_ediv_of_nonneg h0, Int.tdiv_eq_ediv_of_nonneg (by decide)]
    omega
  | mid => exact .inl (by decide)
  | high => exact .inl (by decide)

/-- What the scan holds at its end. -/
theorem findRunnableMlfq_firstLeast (h : ∃ s, MlfqReady (t s))
    (ht : ∀ s, MlfqReady (t s) → 0 ≤ (t s).tick ∧ (t s).tick < 1000) :
    FirstLeast (fun s => MlfqReady (t s)) (fun s => mlfqKey (t s).mlfqLv (t s).tick)
      (List.finRange NPROC) (findRunnableMlfq t) := by
  obtain ⟨s, hs⟩ := h
  have hscan := Support.scan_firstLeast (f := mlfqVisit t) (S := fun s => MlfqReady (t s))
    (fun s => mlfqKey (t s).mlfqLv (t s).tick) Best.rp (fun b => mlfqKey b.lv b.tick)
    (fun b a _ hn => by rw [mlfqVisit_eq, if_neg hn])
    (fun b a _ hr hlt => by rw [mlfqVisit_eq, if_pos ⟨hr, hlt⟩]; exact ⟨rfl, rfl⟩)
    (List.finRange NPROC) (b := ⟨initproc, .low, 1000⟩) (le_refl _)
  rcases hscan with ⟨hle, -⟩ | ⟨hfirst, -⟩
  · -- the process that is ready comes before the bound
    have hlt := mlfqKey_lt_start (t s).mlfqLv (ht s hs).1 (ht s hs).2
    exact absurd (hle s (List.mem_finRange s) hs) (not_le.mpr hlt)
  · exact hfirst

/-- **The choice of MLFQ.**  Where some RUNNABLE process is of MLFQ and the ticks of all of them are
from 0 to 999, the scan returns one of them, of the highest level there is; within that level none
has a lower number of the quantum, and those before it in the table have a higher one. -/
theorem findRunnableMlfq_first (t : Slot → Proc) (h : ∃ s, MlfqReady (t s))
    (ht : ∀ s, MlfqReady (t s) → 0 ≤ (t s).tick ∧ (t s).tick < 1000) :
    MlfqReady (t (findRunnableMlfq t)) ∧
    ∀ q, MlfqReady (t q) → (t q).mlfqLv.toNat ≤ (t (findRunnableMlfq t)).mlfqLv.toNat ∧
      ((t q).mlfqLv = (t (findRunnableMlfq t)).mlfqLv →
        quantum (t (findRunnableMlfq t)).mlfqLv (t (findRunnableMlfq t)).tick ≤
            quantum (t q).mlfqLv (t q).tick ∧
        (q < findRunnableMlfq t →
          quantum (t (findRunnableMlfq t)).mlfqLv (t (findRunnableMlfq t)).tick <
            quantum (t q).mlfqLv (t q).tick)) := by
  have hf := findRunnableMlfq_firstLeast h ht
  refine ⟨hf.qualifies, fun q hq => ?_⟩
  have hle := not_lt.mpr (hf.le (List.mem_finRange q) hq)
  rw [mlfqKey_lt, not_or] at hle
  refine ⟨not_lt.mp hle.1, fun he => ⟨not_lt.mp fun hlt => hle.2 ⟨he, hlt⟩, fun hb => ?_⟩⟩
  have hlt := hf.lt (List.pairwise_lt_finRange NPROC) (List.mem_finRange q) hb.ne hb.asymm hq
  rcases mlfqKey_lt.mp hlt with hlv | ⟨-, hqu⟩
  · rw [he] at hlv
    exact absurd hlv (lt_irrefl _)
  · exact hqu

end

/-- Two processes of the top level with the ticks 3 and 1, and one below them: the second is
returned. -/
theorem findRunnableMlfq_first_second : ∃ t : Slot → Proc, (∃ s, MlfqReady (t s)) ∧
    findRunnableMlfq t = 1 ∧ MlfqReady (t 1) ∧ ∀ q, MlfqReady (t q) →
      (t q).mlfqLv.toNat ≤ (t 1).mlfqLv.toNat := by
  let t : Slot → Proc := fun s =>
    if s = 0 then { Proc.zero with state := .runnable, mlfqLv := .high, tick := 3 }
    else if s = 1 then { Proc.zero with state := .runnable, mlfqLv := .high, tick := 1 }
    else if s = 2 then { Proc.zero with state := .runnable, mlfqLv := .low, tick := 0 }
    else .zero
  have h : ∃ s, MlfqReady (t s) := ⟨0, by decide⟩
  have he : findRunnableMlfq t = 1 := by decide +kernel
  have hf := findRunnableMlfq_first t h (by decide)
  rw [he] at hf
  exact ⟨t, h, he, hf.1, fun q hq => (hf.2 q hq).1⟩

/-! ### The Stride scan -/

/-- A RUNNABLE process of Stride with the least `PASS` of them all. -/
def LeastPass (t : Slot → Proc) (s : Slot) : Prop :=
  StrideReady (t s) ∧ ∀ q, StrideReady (t q) → (t s).pass ≤ (t q).pass

instance (p : Proc) : Decidable (StrideReady p) := inferInstanceAs (Decidable (_ ∧ _))

instance (t : Slot → Proc) (s : Slot) : Decidable (LeastPass t s) :=
  inferInstanceAs (Decidable (_ ∧ ∀ _, _))

section

variable {t : Slot → Proc}

/-- The conversion of a `PASS` to `int` where the scan takes it. -/
theorem toInt_of_below {x y : Int} (h : -2 ^ 31 ≤ x) (hxy : x < y) (hy : y < 2 ^ 31) :
    toInt x = x := if_pos ⟨h, hxy.trans hy⟩

/-- With no `PASS` below the least `int`, the scan returns a process with the least one, or slot 0
where none is below the bound. -/
theorem findRunnableStride_cases (hp : ∀ q, -2 ^ 31 ≤ (t q).pass) :
    (∀ q, StrideReady (t q) → 2147483645 ≤ (t q).pass) ∧ findRunnableStride t = initproc ∨
      LeastPass t (findRunnableStride t) ∧ (t (findRunnableStride t)).pass < 2147483645 := by
  have hvisit : ∀ (b : Slot × Int) (s : Slot), strideVisit t b s =
      if StrideReady (t s) ∧ (t s).pass < b.2 then (s, toInt (t s).pass) else b := by
    intro b s
    by_cases hr : StrideReady (t s)
    · rw [strideVisit_eq b hr]
      by_cases hlt : (t s).pass < b.2
      · rw [if_pos hlt, if_pos ⟨hr, hlt⟩]
      · rw [if_neg hlt, if_neg fun h => hlt h.2]
    · rw [strideVisit_other b hr, if_neg fun h => hr h.1]
  have hscan := Support.scan_firstLeast (f := strideVisit t) (S := fun s => StrideReady (t s))
    (fun s => (t s).pass) Prod.fst Prod.snd
    (fun b a _ hn => by rw [hvisit, if_neg hn])
    (fun b a hb hr hlt => by
      rw [hvisit, if_pos ⟨hr, hlt⟩]
      exact ⟨rfl, toInt_of_below (hp a) hlt (hb.trans_lt (by decide))⟩)
    (List.finRange NPROC) (b := (initproc, 2147483645)) (le_refl _)
  rcases hscan with ⟨hle, he⟩ | ⟨hfirst, hlt⟩
  · refine .inl ⟨fun q hq => hle q (List.mem_finRange q) hq, ?_⟩
    rw [findRunnableStride, he]
  · exact .inr ⟨⟨hfirst.qualifies, fun q hq => hfirst.le (List.mem_finRange q) hq⟩, hlt⟩

end

/-! ### No pass is below the least `int` -/

/-- The `PASS` is one an `int` can hold from below, and the share is not negative. -/
def View.Low (v : View) : Prop := -2 ^ 31 ≤ v.pass ∧ 0 ≤ v.cpuShare

theorem View.Low.fresh (st : State) : View.Low (.fresh st) :=
  ⟨show (-2 ^ 31 : Int) ≤ 0 by decide, show (0 : Int) ≤ 0 by decide⟩

theorem View.Low.other {v v' : View} (h : Other v v') (hv : View.Low v) : View.Low v' := by
  cases h with
  | same => exact hv
  | wake _ => exact hv
  | reap _ => exact hv
  | join _ => exact .fresh _
  | alloc _ _ => exact .fresh _

theorem View.Low.own {o : Outcome} {v v' : View} (h : Own o v v') (hv : View.Low v) :
    View.Low v' := by
  cases h with
  | same => exact hv
  | wake _ => exact hv
  | leave _ _ => exact hv
  | die _ => exact hv

/-- The same of every process, and of the greatest `PASS`. -/
structure Passes (k : Kernel) : Prop where
  view : ∀ q, View.Low (k.ptable q).view
  top : -2 ^ 31 ≤ k.maxStrideProcPass

theorem toInt_low (x : Int) : -2 ^ 31 ≤ toInt x := by
  rw [toInt]
  split
  case isTrue h => exact h.1
  case isFalse => exact le_refl _

variable {k k' : Kernel}

theorem Passes.founded {np : Slot} {st : State} (h : Passes k)
    (hf : Founded np st k k') : Passes k' := by
  refine ⟨fun q => ?_, ?_⟩
  · by_cases e : q = np
    · rw [e, hf.self]
      exact .fresh st
    · rw [hf.view q e]
      exact h.view q
  · have ht : k'.maxStrideProcPass = k.maxStrideProcPass :=
      congrArg Counters.maxStrideProcPass hf.counters
    exact ht ▸ h.top

/-- The end of a round adds to a pass, and a share is not negative. -/
theorem Passes.ended {s : Slot} {m : Mode} (h : Passes k) (he : Ended s m k k') : Passes k' := by
  have hpass : ∀ q, -2 ^ 31 ≤ (k'.ptable q).pass := by
    intro q
    by_cases hq : m = .stride ∧ q = s
    · obtain ⟨hm, rfl⟩ := hq
      have hdiv : 0 ≤ Int.tdiv 10000 (k.ptable q).cpuShare :=
        Int.tdiv_nonneg (by decide) (h.view q).2
      have hlow : -2 ^ 31 ≤ (k.ptable q).pass := (h.view q).1
      rw [(he.own hm).2]
      omega
    · rw [he.pass q fun hm hqs => hq ⟨hm, hqs⟩]
      exact (h.view q).1
  refine ⟨fun q => ⟨hpass q, ?_⟩, ?_⟩
  · have hc : (k'.ptable q).view.cpuShare = (k.ptable q).view.cpuShare := he.charged.cpuShare q
    rw [hc]
    exact (h.view q).2
  rw [he.top]
  split
  · decide
  · split
    · exact toInt_low _
    · exact h.top

theorem Passes.setCpuShare (h : Passes k) (cur : Slot) (i : Int) :
    Passes (setCpuShare k cur i).2 := by
  have htop := (setCpuShare_passes k cur i).2.2
  refine ⟨fun q => ?_, htop.symm ▸ h.top⟩
  rcases setCpuShare_cases k cur i with ⟨hk, -⟩ | ⟨hi, -, -, -, hv, ho⟩ | ⟨hi, -, -, -, hv, ho⟩
  · rw [hk]
    exact h.view q
  all_goals
    by_cases e : q = cur
    · rw [e, hv]
      exact ⟨h.top, hi.le⟩
    · rw [ho q e]
      exact h.view q

theorem Passes.call {cur : Slot} {c : Call} {o : Outcome} (h : Passes k)
    (hl : Live k cur) (hc : call k cur c = .ok (o, k')) : Passes k' := by
  by_cases hs : ∃ i, c = .setCpuShare i
  · obtain ⟨i, rfl⟩ := hs
    cases hc
    exact h.setCpuShare cur i.toInt
  have hm := call_moves hl (fun i e => hs ⟨i, e⟩) hc
  -- what `exit` gives back shows neither in a view nor in the greatest pass
  have hstart : (c.start k cur).ptable = k.ptable ∧
      (c.start k cur).maxStrideProcPass = k.maxStrideProcPass := by
    cases c with
    | exit =>
      refine ⟨giveBack_ptable k cur, ?_⟩
      rw [Call.start, giveBack]
      split
      · rfl
      · rfl
    | _ => exact ⟨rfl, rfl⟩
  refine ⟨fun q => ?_, ?_⟩
  · by_cases e : q = cur
    · have hown := hm.own
      rw [hstart.1] at hown
      exact e ▸ View.Low.own hown (h.view cur)
    · have hother := hm.other q e
      rw [hstart.1] at hother
      exact View.Low.other hother (h.view q)
  · have ht : k'.maxStrideProcPass = (c.start k cur).maxStrideProcPass :=
      congrArg Counters.maxStrideProcPass hm.counters
    rw [ht, hstart.2]
    exact h.top

section

variable {C : Type} {σ σ' : Sys C}

theorem Passes.start (h : Start σ) : Passes σ.k := by
  obtain ⟨hb, -, -⟩ := h
  obtain ⟨h₀, hq, hk⟩ := hb.view
  refine ⟨fun q => ?_, ?_⟩
  · by_cases e : q = initproc
    · rw [e, h₀]
      exact .fresh _
    · rw [hq q e]
      exact ⟨by decide, by decide⟩
  · have ht : σ.k.maxStrideProcPass = 0 := congrArg Counters.maxStrideProcPass hk
    rw [ht]
    decide

variable [DecidableEq C]

theorem Passes.step {e : Ev C} (hsd : Sound (· = initproc) σ) (h : Passes σ.k)
    (hs : step σ e = some σ') : Passes σ'.k := by
  cases e with
  | round c =>
    obtain ⟨-, rfl⟩ := step_round hs
    refine ⟨fun q => ?_, h.top⟩
    by_cases e : q = pick σ.k
    · subst e
      simp only [Kernel.set_ptable, Function.update_self]
      exact h.view (pick σ.k)
    · simp only [Kernel.set_ptable, Function.update_of_ne e]
      exact h.view q
  | call c op =>
    obtain ⟨s, m, o, k₁, hc, -, -, hcall, hafter⟩ := step_call hs
    have h₁ := h.call (hsd.awake (fun _ => id) hc).live hcall
    rcases hafter with ⟨-, rfl⟩ | ⟨-, k₂, hend, rfl⟩
    · exact h₁
    · exact h₁.ended (roundEnd_ended hend)
  | forkAlloc c | forkEnd c =>
    obtain ⟨-, -, hk | ⟨np, st, -, -, hf⟩⟩ := step_founds (c := c) hsd (by simp) hs
    · exact hk ▸ h
    · exact h.founded hf

theorem passes_of_run {G : Sys C → Ev C → Prop} (r : SchedRun G σ) : Passes σ.k :=
  r.sound_invariant (I := fun σ => Passes σ.k) (fun _ hs => .start hs)
    fun _ _ _ hsd h _ hs => h.step hsd hs

/-- **The choice of Stride.**  In every system reached by any steps, the scan returns a RUNNABLE
Stride process with the least `PASS` of them all exactly when one of them has a `PASS` below
2147483645, or slot 0 is itself one with the least. -/
theorem findRunnableStride_least (r : SchedRun (fun _ _ => True) σ) :
    LeastPass σ.k.ptable (findRunnableStride σ.k.ptable) ↔
      (∃ s, StrideReady (σ.k.ptable s) ∧ (σ.k.ptable s).pass < 2147483645) ∨
        LeastPass σ.k.ptable initproc := by
  rcases findRunnableStride_cases fun q => ((passes_of_run r).view q).1 with ⟨hge, he⟩ | ⟨hl, hlt⟩
  · rw [he]
    refine ⟨.inr, ?_⟩
    rintro (⟨s, hs, hlt⟩ | hl)
    · exact absurd (hge s hs) (not_le.mpr hlt)
    · exact hl
  · exact ⟨fun _ => .inl ⟨_, hl.1, hlt⟩, fun _ => hl⟩

end

/-! ### A pass at the bound -/

/-- A RUNNABLE process that is run and yields is as it was, until it is charged. -/
theorem yieldRound_of_runnable (h : (k.ptable (pick k)).state = .runnable) :
    yieldRound k = roundEnd k (pick k) (scheMode k) := by
  have hsame : yield (k.set (pick k) ({ · with state := .running })) (pick k) = k := by
    simp only [yield, Kernel.set, Function.update_idem, Function.update_self]
    rw [← h, Function.update_eq_self]
  rw [yieldRound, hsame]

/-- A round whose process yields, on an idle CPU, is two steps of the machine. -/
theorem run_yieldRound {σ : Sys Unit} (hc : σ.cpu () = none)
    (hs : CanSwitch σ.k (pick σ.k)) (h : yieldRound σ.k = .ok k') :
    Run (fun σ e σ' => step σ e = some σ') (fun _ _ => True) σ { σ with k := k' } := by
  let σ₁ : Sys Unit := { σ with
    k := σ.k.set (pick σ.k) ({ · with state := .running })
    cpu := Function.update σ.cpu () (some (pick σ.k, scheMode σ.k)) }
  have hround : step σ (.round ()) = some σ₁ := if_pos ⟨hc, hs⟩
  have hyield : step σ₁ (.call () .yield) = some { σ with k := k' } := by
    have hcpu : σ₁.cpu () = some (pick σ.k, scheMode σ.k) := Function.update_self () _ σ.cpu
    rw [step]
    refine Option.bind_eq_some_iff.mpr ⟨_, hcpu, ?_⟩
    dsimp only
    rw [if_pos ⟨.inr rfl, trivial⟩]
    refine Option.bind_eq_some_iff.mpr ⟨_, Support.toOption_eq_some.mpr
      (bind_ok.mpr ⟨(), if_neg (Bool.eq_false_iff.mp hs.1), rfl⟩), ?_⟩
    refine Option.map_eq_some_iff.mpr ⟨k', Support.toOption_eq_some.mpr h, ?_⟩
    have hcpu : Function.update (Function.update σ.cpu () (some (pick σ.k, scheMode σ.k))) () none =
        σ.cpu := by
      rw [Function.update_idem, ← hc, Function.update_eq_self]
    rw [hcpu]
  exact .more (.more .refl trivial hround) trivial hyield

/-- On an idle CPU, init is RUNNABLE and of MLFQ, the process in slot 1 is RUNNABLE and of Stride
with the one share and the pass `P`, and nobody else is RUNNABLE. -/
structure Climb (P : Int) (σ : Sys Unit) : Prop where
  cpu : σ.cpu () = none
  free : σ.k.locked = false
  share : σ.k.cpuShareStride = 1
  zero : MlfqReady (σ.k.ptable 0)
  one : StrideReady (σ.k.ptable 1)
  own : (σ.k.ptable 1).cpuShare = 1
  pass : (σ.k.ptable 1).pass = P
  rest : ∀ s, s ≠ 0 → s ≠ 1 → (σ.k.ptable s).state ≠ .runnable
  built : ∀ s, s = 0 ∨ s = 1 → (σ.k.ptable s).kstack ≠ none ∧ (σ.k.ptable s).pgdir ≠ none

namespace Climb

variable {P : Int} {σ : Sys Unit}

section

variable (h : Climb P σ)
include h

/-- Who is RUNNABLE is init or the other. -/
theorem slot {s : Slot} (hr : (σ.k.ptable s).state = .runnable) : s = 0 ∨ s = 1 := by
  by_contra hs
  exact h.rest s (fun e => hs (.inl e)) (fun e => hs (.inr e)) hr

theorem pick_mlfq (hm : scheMode σ.k = .mlfq) : pick σ.k = 0 := by
  rcases pick_spec σ.k with ⟨-, hr, hp⟩ | ⟨-, he⟩
  · rcases h.slot hr with he | he
    · exact he
    · rw [he, h.one.2, hm] at hp
      cases hp
  · exact he

theorem pick_stride (hm : scheMode σ.k = .stride) (hP : P < 2147483645) : pick σ.k = 1 := by
  rcases pick_spec σ.k with ⟨-, hr, hp⟩ | ⟨hn, -⟩
  · rcases h.slot hr with he | he
    · rw [he, h.zero.2, hm] at hp
      cases hp
    · exact he
  · refine absurd ?_ (hn 1)
    rw [hm]
    exact ⟨h.one.1, h.one.2, h.pass ▸ hP⟩

/-- A round charges the process it has taken, and leaves the rest as it was. -/
theorem round (hr : (σ.k.ptable (pick σ.k)).state = .runnable)
    (hone : scheMode σ.k = .stride → pick σ.k = 1) :
    ∃ k', Run (fun σ e σ' => step σ e = some σ') (fun _ _ => True) σ { σ with k := k' } ∧
      Climb (if scheMode σ.k = .stride then P + 10000 else P) { σ with k := k' } ∧
      lead k' = lead σ.k + charge 1 (scheMode σ.k) := by
  have hslot := h.slot hr
  have hround : ∀ k', roundEnd σ.k (pick σ.k) (scheMode σ.k) = .ok k' →
      Run (fun σ e σ' => step σ e = some σ') (fun _ _ => True) σ { σ with k := k' } :=
    fun k' hk' => run_yieldRound h.cpu ⟨h.free, h.built _ hslot⟩
      ((yieldRound_of_runnable hr).trans hk')
  generalize pick σ.k = s at hround hslot hone
  generalize scheMode σ.k = m at hround hone
  have hdiv : ∀ d ∈ divisors σ.k s m, d ≠ 0 := by
    rw [divisors, h.share]
    cases m with
    | mlfq =>
      change ∀ d ∈ [wrap 99], d ≠ 0
      decide
    | stride =>
      rw [hone rfl, h.own]
      decide
  obtain ⟨k', hk'⟩ := (roundEnd_ok_iff σ.k s m).mpr hdiv
  have he := roundEnd_ended hk'
  obtain ⟨hlock, hbill⟩ := roundEnd_billed hk'
  have hlead := (roundEnd_lead (by rw [h.share]; decide) (by rw [h.share]; decide) hk').2
  rw [h.share, if_neg (by decide)] at hlead
  refine ⟨k', hround k' hk', ?_, hlead⟩
  have hready : ∀ q, (k'.ptable q).state = (σ.k.ptable q).state ∧
      (k'.ptable q).procMode = (σ.k.ptable q).procMode :=
    fun q => ⟨he.charged.state q, he.charged.procMode q⟩
  refine ⟨h.cpu, hlock.trans h.free, he.charged.total.trans h.share, ?_, ?_,
    (he.charged.cpuShare 1).trans h.own, ?_, fun q h0 h1 => ?_, fun q hq => ?_⟩
  · exact ⟨(hready 0).1.trans h.zero.1, (hready 0).2.trans h.zero.2⟩
  · exact ⟨(hready 1).1.trans h.one.1, (hready 1).2.trans h.one.2⟩
  · cases m with
    | mlfq => exact (he.pass 1 fun h => by cases h).trans h.pass
    | stride =>
      obtain rfl := hone rfl
      refine (he.own rfl).2.trans ?_
      rw [h.own, h.pass]
      rfl
  · change (k'.ptable q).state ≠ _
    rw [(hready q).1]
    exact h.rest q h0 h1
  · change (k'.ptable q).kstack ≠ _ ∧ (k'.ptable q).pgdir ≠ _
    obtain ⟨tick, lv, pass, he⟩ := hbill q
    rw [he]
    exact h.built q hq

/-- The mode of a round says which side of 0 the lead is on. -/
theorem mode : scheMode σ.k = .mlfq ∧ lead σ.k ≤ 0 ∨ scheMode σ.k = .stride ∧ 0 < lead σ.k := by
  have hs : σ.k.cpuShareStride ≠ 0 := by
    rw [h.share]
    decide
  rw [scheMode, lead]
  by_cases hle : σ.k.passMlfq ≤ σ.k.passStride
  · exact .inl ⟨if_pos (.inr hle), by omega⟩
  · exact .inr ⟨if_neg fun hm => hm.elim hs hle, by omega⟩

/-- A Stride round adds its stride to the pass. -/
theorem round_stride (hP : P < 2147483645) (hm : scheMode σ.k = .stride) :
    ∃ σ', Run (fun σ e σ' => step σ e = some σ') (fun _ _ => True) σ σ' ∧ Climb (P + 10000) σ' := by
  have hp := h.pick_stride hm hP
  obtain ⟨k', hr, hc, -⟩ := h.round (by rw [hp]; exact h.one.1) fun _ => hp
  rw [if_pos hm] at hc
  exact ⟨_, hr, hc⟩

end

/-- Rounds of MLFQ go by, each for the lead of MLFQ, until one of Stride comes. -/
theorem up (n : Nat) (hP : P < 2147483645) (h : Climb P σ) (hn : -lead σ.k < n) :
    ∃ σ', Run (fun σ e σ' => step σ e = some σ') (fun _ _ => True) σ σ' ∧ Climb (P + 10000) σ' := by
  induction n generalizing σ with
  | zero =>
    rcases h.mode with ⟨-, hle⟩ | ⟨hm, -⟩
    · omega
    · exact h.round_stride hP hm
  | succ n ih =>
    rcases h.mode with ⟨hm, -⟩ | ⟨hm, -⟩
    · have hp := h.pick_mlfq hm
      obtain ⟨k', hr, hc, hl⟩ := h.round (by rw [hp]; exact h.zero.1)
        fun hs => nomatch hm.symm.trans hs
      rw [hm] at hc hl
      have h101 : charge 1 .mlfq = 101 := rfl
      obtain ⟨σ', hr', hc'⟩ := ih hc (show -lead k' < n by omega)
      exact ⟨σ', hr.trans hr', hc'⟩
    · exact h.round_stride hP hm

/-- **The climb.**  So many Stride rounds later the pass is so many strides higher, as long as it
was below the bound before the last of them. -/
theorem climbs (h : Climb 0 σ) (n : Nat) (hn : 10000 * (n - 1) < 2147483645) :
    ∃ σ', Run (fun σ e σ' => step σ e = some σ') (fun _ _ => True) σ σ' ∧ Climb (10000 * n) σ' := by
  induction n with
  | zero => exact ⟨σ, .refl, h⟩
  | succ n ih =>
    obtain ⟨σ₁, hr, hc⟩ := ih (by omega)
    obtain ⟨σ₂, hr', hc'⟩ := hc.up (-lead σ₁.k + 1).toNat (by omega) (by omega)
    refine ⟨σ₂, hr.trans hr', ?_⟩
    rw [Nat.cast_succ, mul_add]
    exact hc'

end Climb

instance (P : Int) (σ : Sys Unit) : Decidable (Climb P σ) :=
  decidable_of_iff (σ.cpu () = none ∧ σ.k.locked = false ∧ σ.k.cpuShareStride = 1 ∧
    MlfqReady (σ.k.ptable 0) ∧ StrideReady (σ.k.ptable 1) ∧ (σ.k.ptable 1).cpuShare = 1 ∧
    (σ.k.ptable 1).pass = P ∧ (∀ s, s ≠ 0 → s ≠ 1 → (σ.k.ptable s).state ≠ .runnable) ∧
    ∀ s, s = 0 ∨ s = 1 → (σ.k.ptable s).kstack ≠ none ∧ (σ.k.ptable s).pgdir ≠ none)
    ⟨by
      rintro ⟨h₁, h₂, h₃, h₄, h₅, h₆, h₇, h₈, h₉⟩
      exact ⟨h₁, h₂, h₃, h₄, h₅, h₆, h₇, h₈, h₉⟩,
      fun h => ⟨h.cpu, h.free, h.share, h.zero, h.one, h.own, h.pass, h.rest, h.built⟩⟩

/-- Init forks, and the child takes a share of 1 and yields. -/
theorem exists_climb : ∃ σ : Sys Unit, SchedRun (fun _ _ => True) σ ∧ Climb 0 σ :=
  exists_schedRun (fun _ _ => True) 140
    [.round (), .call () .fork, .call () .yield, .round (), .call () (.setCpuShare 1),
      .call () .yield] _ (by decide +kernel)

/-- In the same run, some rounds on: the child is returned. -/
theorem findRunnableStride_least_one : ∃ σ : Sys Unit, SchedRun (fun _ _ => True) σ ∧
    StrideReady (σ.k.ptable 1) ∧ LeastPass σ.k.ptable (findRunnableStride σ.k.ptable) := by
  obtain ⟨σ, r, hc⟩ := exists_climb
  refine ⟨σ, r, hc.one, (findRunnableStride_least r).mpr (.inl ⟨1, hc.one, ?_⟩)⟩
  rw [hc.pass]
  decide

/-- After 214749 rounds of Stride the child has a `PASS` of 2147490000.  It is the only RUNNABLE
process of Stride, and the scan returns init. -/
theorem findRunnableStride_not_least : ∃ σ : Sys Unit, SchedRun (fun _ _ => True) σ ∧
    StrideReady (σ.k.ptable 1) ∧ (σ.k.ptable 1).pass = 2147490000 ∧
    findRunnableStride σ.k.ptable = 0 ∧ ¬StrideReady (σ.k.ptable 0) := by
  obtain ⟨σ₀, ⟨σ₁, hs, r⟩, h₀⟩ := exists_climb
  obtain ⟨σ, hr, hc⟩ := h₀.climbs 214749 (by decide)
  have r' : SchedRun (fun _ _ => True) σ := ⟨σ₁, hs, r.trans hr⟩
  have hpass : (σ.k.ptable 1).pass = 2147490000 := hc.pass
  have hzero : ¬StrideReady (σ.k.ptable 0) := fun h => nomatch hc.zero.2.symm.trans h.2
  refine ⟨σ, r', hc.one, hpass, ?_, hzero⟩
  rcases findRunnableStride_cases fun q => ((passes_of_run r').view q).1 with ⟨-, he⟩ | ⟨hl, hlt⟩
  · exact he
  -- only slot 1 is of Stride, and its pass is not below the bound
  rcases hc.slot hl.1.1 with he | he
  · exact absurd (he ▸ hl.1) hzero
  · rw [he, hpass] at hlt
    exact absurd hlt (by decide)

end Xv6.Sched
