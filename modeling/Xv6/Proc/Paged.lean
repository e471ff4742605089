import Xv6.Proc.Spaces
import Xv6.Vm.Supply

/-!
# Proc — the pages of a running system

No page has two uses in any reachable kernel (`SysRun.paged`), so every call has one of the effects
in every reachable kernel, and an invariant is proved by cases on them (`run_effects`).
-/

namespace Xv6.Kern

open Support (Run bind_ok update_some update_none)
open Vm (Page Full Bare)

section

variable {k k' : Kernel} {cur : Slot} {c : Kin} {p : Page}

/-- A step that gives no process another kernel stack. -/
theorem Paged.of_sub (hp : Paged k) (ho : Vm.Own k'.mem k'.stackPages)
    (h : ∀ t y', k'.kins t = some y' → ∃ y, k.kins t = some y ∧ y.kstack = y'.kstack) :
    Paged k' := by
  refine ⟨ho, fun s t x' y' p hx' hy' hxp hyp => ?_⟩
  obtain ⟨x, hx, ex⟩ := h s x' hx'
  obtain ⟨y, hy, ey⟩ := h t y' hy'
  exact hp.stack s t x y p hx hy (ex.trans hxp) (ey.trans hyp)

/-- The process in `cur` changes, but not its kernel stack. -/
theorem Paged.update (hp : Paged k) (hc : k.kins cur = some c) {c' : Kin}
    (hk : k'.kins = Function.update k.kins cur (some c')) (hs : c'.kstack = c.kstack)
    (ho : Vm.Own k'.mem k.stackPages) : Paged k' := by
  refine hp.of_sub (by rwa [stackPages_update hc hk hs]) fun t y' hy' => ?_
  rw [hk] at hy'
  rcases update_some hy' with ⟨rfl, rfl⟩ | ⟨-, hy⟩
  · exact ⟨c, hc, hs.symm⟩
  · exact ⟨y', hy, rfl⟩

/-- A process is added, with a kernel stack of its own. -/
theorem Paged.add (hp : Paged k) (np : Slot) (x : Kin) (hst : p ∉ k.stackPages) (hx : x.kstack = some p)
    (h : ∀ t y', k'.kins t = some y' →
      t = np ∧ y' = x ∨ ∃ y, k.kins t = some y ∧ y.kstack = y'.kstack)
    (ho : Vm.Own k'.mem (insert p k.stackPages)) : Paged k' := by
  refine ⟨ho.mono ?_, fun s t y' z' q hy' hz' hyq hzq => ?_⟩
  · rintro q ⟨t, y', hy', hq⟩
    rcases h t y' hy' with ⟨-, rfl⟩ | ⟨y, hy, e⟩
    · rw [hx] at hq
      cases hq
      exact Set.mem_insert ..
    · exact Set.mem_insert_of_mem _ ⟨t, y, hy, e.trans hq⟩
  · rcases h s y' hy' with ⟨rfl, rfl⟩ | ⟨y, hy, ey⟩
    · rcases h t z' hz' with ⟨rfl, rfl⟩ | ⟨z, hz, ez⟩
      · rfl
      · rw [hx] at hyq
        cases hyq
        exact absurd ⟨t, z, hz, ez.trans hzq⟩ hst
    · rcases h t z' hz' with ⟨rfl, rfl⟩ | ⟨z, hz, ez⟩
      · rw [hx] at hzq
        cases hzq
        exact absurd ⟨s, y, hy, ey.trans hyq⟩ hst
      · exact hp.stack s t y z q hy hz (ey.trans hyq) (ez.trans hzq)

theorem Still.paged (h : Still k k') (hp : Paged k) : Paged k' := by
  refine hp.of_sub ?_ fun t y hy => ⟨y, h.kins ▸ hy, rfl⟩
  rw [Kernel.stackPages, h.kins, h.mem]
  exact hp.own

theorem Effect.paged {call : Call} (hp : Paged k) (hc : k.kins cur = some c)
    (h : Effect k cur c call k') : Paged k' := by
  have hsame : k'.kins = k.kins → k'.stackPages = k.stackPages := fun e => by
    rw [Kernel.stackPages, e]
    rfl
  cases h with
  | quiet kins mem _ _ =>
    refine hp.of_sub ?_ fun t y hy => ⟨y, kins ▸ hy, rfl⟩
    rw [hsame kins]
    exact hp.own.congr mem.freelist mem.dirs
  | gaveUp kins mem _ _ =>
    refine hp.of_sub ?_ fun t y hy => ⟨y, kins ▸ hy, rfl⟩
    rw [hsame kins]
    exact mem.own
  | died _ _ kins mem _ _ =>
    have hsub : ∀ t y', k'.kins t = some y' → ∃ y, k.kins t = some y ∧ y.kstack = y'.kstack := by
      intro t y' hy'
      rw [kins] at hy'
      obtain ⟨y, hy, rfl⟩ := Option.map_eq_some_iff.mp hy'
      exact ⟨y, hy, rfl⟩
    refine hp.of_sub (mem ▸ hp.own.mono ?_) hsub
    rintro p ⟨t, y', hy', hp'⟩
    obtain ⟨y, hy, e⟩ := hsub t y' hy'
    exact ⟨t, y, hy, e.trans hp'⟩
  | @born np d p n v _ _ _ stack kins mem _ _ _ _ =>
    refine hp.add np ⟨.alive, some d, some p, some cur, false, none, c.sz, k.nextpid, n, v⟩
      stack rfl (fun t y hy => ?_) mem.own
    rw [kins] at hy
    exact (update_some hy).imp_right fun h => ⟨y, h.2, rfl⟩
  | reaped _ _ _ _ _ kins mem _ _ =>
    refine hp.of_sub mem.own fun t y hy => ⟨y, ?_, rfl⟩
    rw [kins] at hy
    exact (update_none hy).2
  | joined _ h =>
    refine hp.of_sub h.own fun t y' hy' => ?_
    rw [h.kins] at hy'
    rcases update_some hy' with ⟨rfl, rfl⟩ | ⟨-, hy⟩
    · exact ⟨c, hc, rfl⟩
    · exact ⟨y', (update_none hy).2, rfl⟩
  | barren kins mem _ _ => exact hp.update hc kins rfl (mem ▸ hp.own)
  | @threaded _ _ _ np _ _ x _ _ _ _ _ _ _ _ stack _ _ _ _ _ _ _ kins _ kstack _ mem _ _ =>
    refine hp.add np x stack kstack (fun t y hy => ?_) mem.own
    rw [kins] at hy
    refine (update_some hy).imp_right fun h => ?_
    rcases update_some h.2 with ⟨rfl, rfl⟩ | ⟨-, h⟩
    · exact ⟨c, hc, rfl⟩
    · exact ⟨y, h, rfl⟩
  | left _ kins mem | resized _ _ kins _ mem => exact hp.update hc kins rfl mem.own
  | replaced _ _ kins _ _ gone => exact hp.update hc kins rfl gone.own
  | moved _ kins mem => exact hp.update hc kins rfl (mem ▸ hp.own)

end

/-! ### Boot -/

variable {k : Kernel} {G : Kernel → Event → Prop}

/-- The kernel after `userinit`: init, with its first page if there is memory for it. -/
theorem userinit_kin {pages : List Page} {initcode : List UInt8} (hnd : pages.Nodup)
    (h : userinit (.blank pages) initcode = .ok k) : ∃ d p, Vm.Own k.mem {p} ∧
    k.kins = Function.update (fun _ => none) initproc
      (some ⟨.alive, some d, some p, none, false, none, PGSIZE, 1, 0, 0⟩) ∧
    k.nextpid = 2 ∧ k.freed = [] ∧ k.mem.history = [.made d] ∧
    (∀ e, (k.mem.dirs e).isSome ↔ e = d) ∧ Bare k.mem d PGSIZE ∧
    (68 ≤ pages.length → Full k.mem d PGSIZE) := by
  have ho : Vm.Own (Kernel.blank pages).mem ∅ :=
    ⟨fun _ => .free, ⟨hnd, fun _ _ => rfl, by rintro _ _ ⟨⟩, by rintro _ _ _ _ ⟨⟩,
      by rintro _ _ _ _ _ _ ⟨⟩⟩, fun _ h => h.elim⟩
  have hno : (Kernel.blank pages).stackPages = ∅ :=
    Set.eq_empty_of_forall_notMem (by rintro _ ⟨_, _, ⟨⟩, _⟩)
  rw [userinit] at h
  obtain ⟨⟨o, k₁⟩, h₁, h⟩ := bind_ok.mp h
  rcases allocproc_taken (hno ▸ ho) h₁ with ⟨rfl, -⟩ | ⟨s, p, rfl, ht⟩
  · cases h
  obtain rfl : s = initproc := by
    have h₀ : (Kernel.blank pages).freeSlot = some initproc := rfl
    rw [ht.slot] at h₀
    exact Option.some.inj h₀
  obtain ⟨⟨o, m⟩, h₂, h⟩ := bind_ok.mp h
  have hown : Vm.Own k₁.mem {p} := by
    have := ht.own
    rwa [hno, insert_empty_eq] at this
  obtain ⟨_, _, hs, hspec⟩ := Vm.setupkvm_spec hown
  cases hs.symm.trans h₂
  rcases hspec with ⟨d, rfl, hb, hbare, -⟩ | ⟨rfl, -⟩
  · obtain ⟨m', h₃, h⟩ := bind_ok.mp h
    have hk := (Except.ok.inj h).symm
    obtain ⟨S', hS', hg⟩ := Vm.inituvm_works hb.own h₃
    have hdirs : k₁.mem.dirs = fun _ => none := ht.dirs
    have hmem : k.mem = m' := by rw [hk]; rfl
    have hhist : m'.history = [.made d] := by
      rw [hg.history, hb.history, ht.history]
      rfl
    refine ⟨d, p, hmem ▸ hg.own.mono hS', ?_, ?_, ?_, hmem ▸ hhist, fun e => ?_, ?_, fun hlen v hv => ?_⟩
    · funext t
      rw [hk]
      by_cases e : t = initproc
      · subst e
        simp only [Kernel.kins, Kernel.set_ptable, Kernel.setMem_ptable, Function.update_self, ht.self]
        rfl
      · simp only [Kernel.kins, Kernel.set_ptable, Kernel.setMem_ptable, Function.update_of_ne e,
          ht.other e]
        rfl
    · rw [hk]
      exact ht.next
    · rw [hk]
      have hh : m'.history = [.made d] ++ k₁.mem.history := by
        rw [hhist, ht.history]
        rfl
      exact (setMem_freed hh).trans (by rw [ht.freed]; rfl)
    · rw [hmem]
      by_cases he : e = d
      · rw [he, hg.self]
        exact ⟨fun _ => rfl, fun _ => hb.self⟩
      · rw [hg.other e he, hb.other e he, hdirs]
        simp [he]
    · rw [hmem]
      refine hg.bare ?_ (hbare.mono (Nat.zero_le _))
      rintro _ rfl
      decide
    · have hfree : pages = p :: k₁.mem.freelist := ht.free
      rw [hfree, List.length_cons] at hlen
      have htakes := Vm.setupkvm_takes h₂
      obtain ⟨q, hq⟩ := Vm.inituvm_mapped hb.own (by omega) h₃
      obtain rfl : v = 0 := by
        unfold PGSIZE at hv
        omega
      rw [hmem]
      exact Vm.mapped_iff.mpr ⟨q, true, true, hq⟩
  · cases h

/-! ### Runs -/

theorem Booted.paged (h : Booted k) : Paged k := by
  obtain ⟨pages, initcode, hnd, h⟩ := h
  obtain ⟨d, p, ho, hk, -⟩ := userinit_kin hnd h
  have hcases : ∀ t y, k.kins t = some y → t = initproc ∧ y.kstack = some p := by
    intro t y hy
    rw [hk] at hy
    rcases update_some hy with ⟨rfl, rfl⟩ | ⟨-, h⟩
    · exact ⟨rfl, rfl⟩
    · cases h
  refine ⟨ho.mono ?_, fun s t x y q hx hy _ _ => (hcases s x hx).1.trans (hcases t y hy).1.symm⟩
  rintro q ⟨t, y, hy, hq⟩
  exact (Option.some.inj ((hcases t y hy).2.symm.trans hq)).symm

/-- **Invariants by effects.**  What holds at the start, is not disturbed by steps that do not show,
and is kept by every effect of a call that meets the guard, holds in every kernel a run reaches. -/
theorem run_effects {I : Kernel → Prop} {k₀ : Kernel}
    (r : Run (fun k e k' => step k e = some k') G k₀ k) (hp : Paged k₀) (h₀ : I k₀)
    (hstill : ∀ k k', Still k k' → I k → I k')
    (hcall : ∀ k k' cur c e, Paged k → G k (.call cur e) → e.Ready k cur → k.kins cur = some c →
      c.stage = .alive → Effect k cur c e k' → I k → I k') : Paged k ∧ I k := by
  refine r.invariant (I := fun k => Paged k ∧ I k) ⟨hp, h₀⟩ ?_
  rintro k e k' ⟨hp, hI⟩ hG h
  cases e with
  | dispatch s =>
    obtain ⟨hm, rfl⟩ := step_dispatch h
    have hs := dispatch_still hm
    exact ⟨hs.paged hp, hstill _ _ hs hI⟩
  | call cur e =>
    obtain ⟨hrun, hready, o, h⟩ := step_call h
    obtain ⟨c, hc, ha⟩ := running_kin hrun
    have he := call_effect hp hrun hc h
    exact ⟨he.paged hp hc, hcall k k' cur c e hp hG hready hc ha he hI⟩

theorem SysRun.effects {I : Kernel → Prop}
    (r : SysRun G k) (h₀ : ∀ k, Booted k → I k) (hstill : ∀ k k', Still k k' → I k → I k')
    (hcall : ∀ k k' cur c e, Paged k → G k (.call cur e) → e.Ready k cur → k.kins cur = some c →
      c.stage = .alive → Effect k cur c e k' → I k → I k') : Paged k ∧ I k := by
  obtain ⟨k₀, hb, r⟩ := r
  exact run_effects r hb.paged (h₀ k₀ hb) hstill hcall

/-- No page has two uses in any reachable kernel. -/
theorem SysRun.paged (r : SysRun G k) : Paged k :=
  (r.effects (I := fun _ => True) (fun _ _ => trivial) (fun _ _ _ h => h)
    fun _ _ _ _ _ _ _ _ _ _ _ h => h).1

end Xv6.Kern
