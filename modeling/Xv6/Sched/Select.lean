import Xv6.Proc.Table
import Xv6.Support.Scan

/-!
# Sched — choosing the next process (`proc.c`)

`sche_mode` says which of the two schedulers a round belongs to, and `find_runnable_MLFQ` or
`find_runnable_Stride` scans the table for a process of that mode.  Both scans begin with slot 0
as their result, whatever its state, and with a bound that no process is expected to reach.

* `pick_runnable_iff`: the process chosen is RUNNABLE exactly when some RUNNABLE process of the
  mode is below the bound, or slot 0 is RUNNABLE itself.
-/

namespace Xv6.Sched

open Kern

/-- `sche_mode` -/
def scheMode (k : Kernel) : Mode :=
  if k.cpuShareStride = 0 ∨ k.passMlfq ≤ k.passStride then .mlfq else .stride

/-- The number of the time quantum a process is in, by its level. -/
def quantum : Level → Int → Int
  | .high, tick => tick
  | .mid, tick => tick.tdiv 2
  | .low, tick => tick.tdiv 4

/-- `rp`, `lv` and `tick` of `find_runnable_MLFQ`. -/
structure Best where
  rp : Slot
  lv : Level
  tick : Int

/-- One process in the loop of `find_runnable_MLFQ`. -/
def mlfqVisit (t : Slot → Proc) (b : Best) (s : Slot) : Best :=
  let p := t s
  if p.state = .runnable ∧ p.procMode = .mlfq then
    if b.lv.toNat < p.mlfqLv.toNat then ⟨s, p.mlfqLv, p.tick⟩
    else if p.mlfqLv = b.lv then
      if quantum b.lv b.tick ≤ quantum b.lv p.tick then b
      else { b with rp := s, tick := p.tick }
    else b
  else b

def findRunnableMlfq (t : Slot → Proc) : Slot :=
  ((List.finRange NPROC).foldl (mlfqVisit t) ⟨initproc, .low, 1000⟩).rp

/-- One process in the loop of `find_runnable_Stride`: `rp` and `min_PASS`. -/
def strideVisit (t : Slot → Proc) (b : Slot × Int) (s : Slot) : Slot × Int :=
  let p := t s
  if p.state = .runnable ∧ p.procMode = .stride then
    if p.pass < b.2 then (s, toInt p.pass) else b
  else b

def findRunnableStride (t : Slot → Proc) : Slot :=
  ((List.finRange NPROC).foldl (strideVisit t) (initproc, 2147483645)).1

/-- The process `scheduler` chooses. -/
def pick (k : Kernel) : Slot :=
  match scheMode k with
  | .mlfq => findRunnableMlfq k.ptable
  | .stride => findRunnableStride k.ptable

/-- A process the scan of its mode can choose. -/
def Selectable (p : Proc) : Mode → Prop
  | .mlfq => p.state = .runnable ∧ p.procMode = .mlfq ∧
      (p.mlfqLv ≠ .low ∨ quantum .low p.tick < quantum .low 1000)
  | .stride => p.state = .runnable ∧ p.procMode = .stride ∧ p.pass < 2147483645

instance (p : Proc) : DecidablePred (Selectable p)
  | .mlfq => inferInstanceAs (Decidable (_ ∧ _ ∧ (_ ∨ _)))
  | .stride => inferInstanceAs (Decidable (_ ∧ _ ∧ _))

/-! ### The scans -/

section

variable (t : Slot → Proc)

theorem mlfqVisit_skip (s : Slot) (h : ¬ Selectable (t s) .mlfq) :
    mlfqVisit t ⟨initproc, .low, 1000⟩ s = ⟨initproc, .low, 1000⟩ := by
  simp only [mlfqVisit]
  split
  · rename_i hp
    have hlow : (t s).mlfqLv = .low := by
      by_contra hl
      exact h ⟨hp.1, hp.2, .inl hl⟩
    have hq : quantum .low 1000 ≤ quantum .low (t s).tick := by
      by_contra hq
      exact h ⟨hp.1, hp.2, .inr (not_le.mp hq)⟩
    rw [hlow, if_neg (Nat.lt_irrefl _), if_pos rfl, if_pos hq]
  · rfl

theorem mlfqVisit_take (s : Slot) (h : Selectable (t s) .mlfq) :
    (mlfqVisit t ⟨initproc, .low, 1000⟩ s).rp = s := by
  obtain ⟨hr, hm, hq⟩ := h
  simp only [mlfqVisit, if_pos (And.intro hr hm)]
  cases hl : (t s).mlfqLv with
  | low =>
    rcases hq with hq | hq
    · exact absurd hl hq
    · rw [if_neg (Nat.lt_irrefl _), if_pos rfl, if_neg (not_le.mpr hq)]
  | mid => rfl
  | high => rfl

/-- A visit keeps the choice or takes a RUNNABLE process of the mode. -/
theorem mlfqVisit_rp (b : Best) (s : Slot) :
    (mlfqVisit t b s).rp = b.rp ∨
      (mlfqVisit t b s).rp = s ∧ (t s).state = .runnable ∧ (t s).procMode = .mlfq := by
  simp only [mlfqVisit]
  split
  · rename_i hp
    split
    · exact .inr ⟨rfl, hp⟩
    split
    · split
      · exact .inl rfl
      · exact .inr ⟨rfl, hp⟩
    · exact .inl rfl
  · exact .inl rfl

/-- What the MLFQ scan returns: a RUNNABLE process of the mode, or slot 0 when there is none to
choose. -/
theorem findRunnableMlfq_spec :
    (∃ s, Selectable (t s) .mlfq) ∧ (t (findRunnableMlfq t)).state = .runnable ∧
        (t (findRunnableMlfq t)).procMode = .mlfq ∨
      (∀ s, ¬ Selectable (t s) .mlfq) ∧ findRunnableMlfq t = initproc := by
  by_cases h : ∃ s, Selectable (t s) .mlfq
  · obtain ⟨s, hs⟩ := h
    refine .inl ⟨⟨s, hs⟩, ?_⟩
    refine Support.scan_taken (S := fun s => Selectable (t s) .mlfq)
      (G := fun b : Best => (t b.rp).state = .runnable ∧ (t b.rp).procMode = .mlfq)
      (mlfqVisit_skip t) (fun a ha => ?_) (fun b a hb => ?_) (List.mem_finRange s) hs
    · rw [mlfqVisit_take t a ha]
      exact ⟨ha.1, ha.2.1⟩
    · rcases mlfqVisit_rp t b a with e | ⟨e, ha⟩
      · rw [e]; exact hb
      · rw [e]; exact ha
  · have hn : ∀ s, ¬ Selectable (t s) .mlfq := fun s hs => h ⟨s, hs⟩
    refine .inr ⟨hn, ?_⟩
    rw [findRunnableMlfq, Support.scan_default (mlfqVisit_skip t) fun s _ => hn s]

theorem strideVisit_skip (s : Slot) (h : ¬ Selectable (t s) .stride) :
    strideVisit t (initproc, 2147483645) s = (initproc, 2147483645) := by
  simp only [strideVisit]
  split
  · rename_i hp
    rw [if_neg fun hlt => h ⟨hp.1, hp.2, hlt⟩]
  · rfl

theorem strideVisit_take (s : Slot) (h : Selectable (t s) .stride) :
    (strideVisit t (initproc, 2147483645) s).1 = s := by
  obtain ⟨hr, hm, hlt⟩ := h
  simp only [strideVisit, if_pos (And.intro hr hm), if_pos hlt]

theorem strideVisit_rp (b : Slot × Int) (s : Slot) :
    (strideVisit t b s).1 = b.1 ∨
      (strideVisit t b s).1 = s ∧ (t s).state = .runnable ∧ (t s).procMode = .stride := by
  simp only [strideVisit]
  split
  · rename_i hp
    split
    · exact .inr ⟨rfl, hp⟩
    · exact .inl rfl
  · exact .inl rfl

/-- What the Stride scan returns, likewise. -/
theorem findRunnableStride_spec :
    (∃ s, Selectable (t s) .stride) ∧ (t (findRunnableStride t)).state = .runnable ∧
        (t (findRunnableStride t)).procMode = .stride ∨
      (∀ s, ¬ Selectable (t s) .stride) ∧ findRunnableStride t = initproc := by
  by_cases h : ∃ s, Selectable (t s) .stride
  · obtain ⟨s, hs⟩ := h
    refine .inl ⟨⟨s, hs⟩, ?_⟩
    refine Support.scan_taken (S := fun s => Selectable (t s) .stride)
      (G := fun b : Slot × Int => (t b.1).state = .runnable ∧ (t b.1).procMode = .stride)
      (strideVisit_skip t) (fun a ha => ?_) (fun b a hb => ?_) (List.mem_finRange s) hs
    · rw [strideVisit_take t a ha]
      exact ⟨ha.1, ha.2.1⟩
    · rcases strideVisit_rp t b a with e | ⟨e, ha⟩
      · rw [e]; exact hb
      · rw [e]; exact ha
  · have hn : ∀ s, ¬ Selectable (t s) .stride := fun s hs => h ⟨s, hs⟩
    refine .inr ⟨hn, ?_⟩
    rw [findRunnableStride, Support.scan_default (strideVisit_skip t) fun s _ => hn s]

end

/-- What `scheduler` chooses: a RUNNABLE process of the mode of the round, or slot 0. -/
theorem pick_spec (k : Kernel) :
    (∃ s, Selectable (k.ptable s) (scheMode k)) ∧ (k.ptable (pick k)).state = .runnable ∧
        (k.ptable (pick k)).procMode = scheMode k ∨
      (∀ s, ¬ Selectable (k.ptable s) (scheMode k)) ∧ pick k = initproc := by
  rw [pick]
  cases scheMode k with
  | mlfq => exact findRunnableMlfq_spec k.ptable
  | stride => exact findRunnableStride_spec k.ptable

/-- The process chosen is RUNNABLE exactly when there is one to choose or slot 0 is RUNNABLE. -/
theorem pick_runnable_iff (k : Kernel) : (k.ptable (pick k)).state = .runnable ↔
    (k.ptable initproc).state = .runnable ∨ ∃ s, Selectable (k.ptable s) (scheMode k) := by
  rcases pick_spec k with ⟨hs, hr, -⟩ | ⟨hn, e⟩
  · exact ⟨fun _ => .inr hs, fun _ => hr⟩
  rw [e]
  refine ⟨.inl, ?_⟩
  rintro (h | ⟨s, hs⟩)
  · exact h
  · exact absurd hs (hn s)

end Xv6.Sched
