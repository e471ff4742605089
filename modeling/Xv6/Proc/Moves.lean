import Xv6.Proc.Cards

/-!
# Proc — what a call does to what the schedulers read

What the schedulers read of a process is part of its card, so what a system call can do to it
follows from what the call can do to the card: to that of the process that calls (`Own`) and to that
of any other (`Other`).  The invariants of the schedulers rest on `call_moves` and never look inside
a call.

* `call_moves`: every call but `set_cpu_share` moves the views as `Own` and `Other` allow, and
  only `exit` touches a counter of the schedulers.
-/

namespace Xv6.Kern

open Support (bind_ok)

/-- What a call does to the view of another process. -/
inductive Other : View → View → Prop where
  | same (v : View) : Other v v
  | wake {v : View} (h : v.state = .sleeping) : Other v { v with state := .runnable }
  | reap {v : View} (h : v.state = .zombie) : Other v { v with state := .unused }
  | join {v : View} (h : v.state = .zombie) : Other v (.fresh .unused)
  | alloc {v : View} {st : State} (h : v.state = .unused)
      (hst : st = .unused ∨ st = .embryo ∨ st = .runnable) : Other v (.fresh st)

/-- What a call does to the view of the process that makes it.  A process that runs is not woken;
one that was put on a CPU in its sleep may be. -/
inductive Own : Outcome → View → View → Prop where
  | same (v : View) : Own .stays v v
  | wake {v : View} (h : v.state = .sleeping) : Own .stays v { v with state := .runnable }
  | leave (v : View) {st : State} (h : st = .sleeping ∨ st = .runnable) :
      Own .leaves v { v with state := st }
  | die (v : View) : Own .ends v { v with state := .zombie }

/-- A slot that held no process holds a new one, in the state `st`. -/
structure Founded (np : Slot) (st : State) (k k' : Kernel) : Prop where
  self : (k'.ptable np).view = .fresh st
  view : ∀ q, q ≠ np → (k'.ptable q).view = (k.ptable q).view
  counters : k'.counters = k.counters

section

variable {k k₁ k' : Kernel} {cur np q : Slot} {st st' : State} {o : Outcome} {c : Call} {x y : Card}

/-- A slot was taken. -/
theorem Remade.founded (h : Remade np y k k') (hst : y.state = st) (hy : y.turns = .fresh) :
    Founded np st k k' := by
  refine ⟨?_, fun q e => congrArg Card.view (h.other q e), h.counters⟩
  have hv : (k'.ptable np).view = y.view := congrArg Card.view h.self
  rw [hv, Card.view, hst, hy]
  rfl

/-- The new process goes to another state. -/
theorem Founded.remade (h : Founded np st k k₁) (h' : Remade np y k₁ k') (hst : y.state = st')
    (hy : y.turns = (k₁.ptable np).card.turns) : Founded np st' k k' := by
  refine ⟨?_, fun q e => (congrArg Card.view (h'.other q e)).trans (h.view q e),
    h'.counters.trans h.counters⟩
  have hv : (k'.ptable np).view = y.view := congrArg Card.view h'.self
  have hold : (k₁.ptable np).card.view = .fresh st := h.self
  rw [hv, show y.view = { (k₁.ptable np).card.view with state := st' } by
    rw [Card.view, hst, hy]; rfl, hold]
  rfl

/-- `allocproc` finds an unused slot, or leaves every slot as it was but for the reset fields of
one that stays unused. -/
theorem allocproc_founded {r : Option Slot} (h : allocproc k = .ok (r, k')) :
    match r with
    | some s => ((List.finRange NPROC).find? fun s => (k.ptable s).state = .unused) = some s ∧
        (k.ptable s).state = .unused ∧ Founded s .embryo k k'
    | none => k' = k ∨ ∃ s, (k.ptable s).state = .unused ∧ Founded s .unused k k' := by
  have ha := allocproc_cards h
  cases r with
  | none => exact ha.imp_right fun ⟨s, hu, hr⟩ => ⟨s, hu, hr.remade.founded rfl rfl⟩
  | some s => exact ⟨ha.1, ha.2.1, ha.2.2.remade.founded rfl rfl⟩

theorem forkFinish_founded {r : Int} (hf : Founded np .embryo k k₁)
    (h : forkFinish k₁ cur np = .ok (r, k')) :
    Founded np .unused k k' ∨ Founded np .runnable k k' := by
  rcases forkFinish_cards h with ⟨-, hr⟩ | ⟨-, hr⟩
  · exact .inl (hf.remade hr.remade rfl rfl)
  · exact .inr (hf.remade hr.toRemade rfl rfl)

/-- What a call leaves of the views and the counters. -/
structure Moves (o : Outcome) (cur : Slot) (k k' : Kernel) : Prop where
  own : Own o (k.ptable cur).view (k'.ptable cur).view
  other : ∀ q, q ≠ cur → Other (k.ptable q).view (k'.ptable q).view
  counters : k'.counters = k.counters

theorem Deal.other (h : Deal k cur o c q x y) (hne : q ≠ cur) : Other x.view y.view := by
  cases h with
  | kept h =>
    have ht : y.turns = x.turns := h.turns.resolve_right fun e => hne e.1
    rcases h.state with hs | ⟨hs, hs'⟩ | ⟨e, -⟩
    · rw [show y.view = x.view by rw [Card.view, hs, ht]; rfl]
      exact .same _
    · rw [show y.view = { x.view with state := .runnable } by rw [Card.view, hs', ht]; rfl]
      exact .wake hs
    · exact absurd e hne
  | taken unused turns _ _ fresh =>
    rw [show y.view = .fresh y.state by rw [Card.view, turns]; rfl]
    refine .alloc unused ?_
    cases fresh with
    | failed state => exact state.imp_right .inl
    | child _ state => exact .inr (.inr state)
    | thread _ state => exact .inr (.inr state)
  | reaped _ zombie _ => exact .reap zombie
  | joined _ zombie _ => exact .join zombie

/-- A live caller is neither taken nor freed. -/
theorem Deal.touched (h : Deal k cur o c q x y) (hu : x.state ≠ .unused)
    (hz : x.state ≠ .zombie) : Touched k cur o c q x y := by
  cases h with
  | kept h => exact h
  | taken unused => exact absurd unused hu
  | reaped _ zombie => exact absurd zombie hz
  | joined _ zombie => exact absurd zombie hz

theorem Touched.own_view (h : Touched k cur o c cur x y) (hc : ∀ i, c ≠ .setCpuShare i) :
    Own o x.view y.view := by
  have ht : y.turns = x.turns := h.turns.resolve_right fun ⟨_, i, e⟩ => hc i e
  have hv : y.view = { x.view with state := y.state } := by
    rw [Card.view, ht]
    rfl
  rw [hv]
  have hs := h.own rfl
  generalize y.state = st' at hs
  generalize hx : x.state = st at hs
  cases hs with
  | same =>
    subst hx
    exact .same _
  | wake => exact .wake hx
  | leave _ h => exact .leave _ h
  | die => exact .die _

/-- **What a call does.**  Every call of a live process but `set_cpu_share` moves the views as
`Own` and `Other` allow, and changes no counter of the schedulers but that `exit` gives its share
back. -/
theorem call_moves (hcur : Live k cur) (hc : ∀ i, c ≠ .setCpuShare i)
    (h : call k cur c = .ok (o, k')) : Moves o cur (c.start k cur) k' := by
  have hd := call_dealt h
  have hp : (c.start k cur).ptable = k.ptable := by
    cases c with
    | exit => exact giveBack_ptable k cur
    | _ => rfl
  refine ⟨?_, fun q e => ?_, hd.counters hc⟩
  · rw [hp]
    exact ((hd.card cur).touched hcur.1 hcur.2).own_view hc
  · rw [hp]
    exact (hd.card q).other e

/-- What any call does to the state of its caller and to the views of the others. -/
theorem call_states (hcur : Live k cur) (h : call k cur c = .ok (o, k')) :
    OwnState o (k.ptable cur).state (k'.ptable cur).state ∧
      ∀ q, q ≠ cur → Other (k.ptable q).view (k'.ptable q).view :=
  have hd := call_dealt h
  ⟨((hd.card cur).touched hcur.1 hcur.2).own rfl, fun q e => (hd.card q).other e⟩

end

/-- Only `exit` and `thread_exit` end the caller. -/
theorem call_not_ends {k k' : Kernel} {cur : Slot} {c : Call} {o : Outcome}
    (h : call k cur c = .ok (o, k')) (hx : c ≠ .exit) (ht : ∀ v, c ≠ .threadExit v) :
    o ≠ .ends := by
  rintro rfl
  cases c with
  | exit => exact hx rfl
  | threadExit v => exact ht v rfl
  | setCpuShare i => cases h
  | fork | threadCreate | sbrk | exec | kill =>
    obtain ⟨⟨r, k₁⟩, -, h⟩ := bind_ok.mp h
    cases h
  | exitVisit | wait | threadJoin =>
    obtain ⟨⟨r, k₁⟩, -, h⟩ := bind_ok.mp h
    cases r <;> cases h
  | sleep | wakeup | yield =>
    obtain ⟨-, -, h⟩ := bind_ok.mp h
    cases h

/-- init does not end. -/
theorem call_ends_ne_init {k k' : Kernel} {cur : Slot} {c : Call}
    (h : call k cur c = .ok (.ends, k')) : cur ≠ initproc := by
  rintro rfl
  by_cases hx : c = .exit
  · subst hx
    obtain ⟨k₁, h₁, -⟩ := bind_ok.mp h
    cases h₁
  by_cases ht : ∃ v, c = .threadExit v
  · obtain ⟨v, rfl⟩ := ht
    obtain ⟨k₁, h₁, -⟩ := bind_ok.mp h
    cases h₁
  · exact call_not_ends h hx (fun v e => ht ⟨v, e⟩) rfl

end Xv6.Kern
