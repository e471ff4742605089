import Xv6.Sched.Rounds

/-!
# Sched — whom `kill` marks (`proc.c`)

`kill` takes the first slot with the pid, used or not, and `allocproc` leaves `killed` as it finds
it.  The pid of a slot is 0 when it was never used or was reaped, and that of the last process when
its `fork` failed; so a pid that is nobody's can be the pid of an unused slot.  `kill_lwpgroup`
takes a slot that was reaped by `wait` for the thread it was.

* `clean_of_run`: while `kill` and `exec` only mark processes that are there (`Aimed`), no slot that
  is unused or in the making is marked.
* `kill_spares_unused`: in such runs a process always begins unmarked, and a `kill` of a pid is
  right exactly when the slot it takes is not unused.
* `kill_marks_unused`: `kill(0)` marks an unused slot, and what is made in it next begins marked.
-/

namespace Xv6.Sched

open Kern

/-- The call, of the process in `cur`, marks nobody who is not there. -/
def CallAimed (k : Kernel) (cur : Slot) : Call → Prop
  | .kill pid => ∀ q, k.holder pid.toInt = some q → ¬ Vacant (k.ptable q).state
  | .exec .. => (k.ptable cur).isthread = true → ∀ m, (k.ptable cur).mother = some m →
      ∀ q, k.InGroup (k.ptable m).pid cur q → ¬ Vacant (k.ptable q).state
  | _ => True

instance (k : Kernel) (cur : Slot) : DecidablePred (CallAimed k cur)
  | .kill _ => inferInstanceAs (Decidable (∀ _, _ → _))
  | .exec .. => inferInstanceAs (Decidable (_ → ∀ _, _ → ∀ _, _ → _))
  | .fork | .exit | .exitVisit _ | .wait | .threadCreate .. | .threadExit _ => .isTrue trivial
  | .threadJoin .. | .setCpuShare _ | .sbrk _ | .sleep _ | .wakeup _ | .yield => .isTrue trivial

/-- No slot that is unused or in the making is marked or has a parent; who is a parent is awake. -/
structure Clean (k : Kernel) : Prop where
  vacant : ∀ q, Vacant (k.ptable q).state → (k.ptable q).killed = false ∧ (k.ptable q).parent = none
  parent : ∀ q m, (k.ptable q).parent = some m → Awake (k.ptable m).state

/-! ### Changes to one card -/

section

variable {k k' : Kernel} {np : Slot} {y : Card}

theorem Clean.same (h : Clean k) (hs : ∀ q, (k'.ptable q).state = (k.ptable q).state ∧
    (k'.ptable q).killed = (k.ptable q).killed ∧ (k'.ptable q).parent = (k.ptable q).parent) :
    Clean k' := by
  refine ⟨fun q hq => ?_, fun q m hm => ?_⟩
  · obtain ⟨hst, hk, hp⟩ := hs q
    rw [hst] at hq
    rw [hk, hp]
    exact h.vacant q hq
  · rw [(hs m).1]
    exact h.parent q m ((hs q).2.2.symm.trans hm)

/-- A slot that was vacant, and is so still or has a process in it now. -/
theorem Clean.remade (h : Clean k) (hr : Remade np y k k') (hv : Vacant (k.ptable np).state)
    (hk : y.killed = (k.ptable np).killed)
    (hy : y.parent = none ∨ ∃ m, y.parent = some m ∧ Awake (k.ptable m).state ∧ ¬ Vacant y.state) :
    Clean k' := by
  obtain ⟨hself, hother, -⟩ := hr
  -- nobody awake is in the slot
  have awake : ∀ {m}, Awake (k.ptable m).state → Awake (k'.ptable m).state := by
    intro m hm
    have hne : m ≠ np := by
      rintro rfl
      exact hm.not_vacant hv
    rw [show (k'.ptable m).state = (k.ptable m).state from congrArg Card.state (hother m hne)]
    exact hm
  refine ⟨fun q hq => ?_, fun q m hm => ?_⟩
  · by_cases e : q = np
    · subst e
      refine ⟨(congrArg Card.killed hself).trans (hk.trans (h.vacant q hv).1), ?_⟩
      rcases hy with hp | ⟨m, -, -, hn⟩
      · exact (congrArg Card.parent hself).trans hp
      · rw [show (k'.ptable q).state = y.state from congrArg Card.state hself] at hq
        exact absurd hq hn
    · rw [show (k'.ptable q).state = (k.ptable q).state from congrArg Card.state (hother q e)] at hq
      obtain ⟨hk, hp⟩ := h.vacant q hq
      exact ⟨(congrArg Card.killed (hother q e)).trans hk,
        (congrArg Card.parent (hother q e)).trans hp⟩
  · by_cases e : q = np
    · subst e
      have hm : y.parent = some m := (congrArg Card.parent hself).symm.trans hm
      rcases hy with hp | ⟨m', hp, ha, -⟩
      · rw [hp] at hm
        cases hm
      · rw [hp] at hm
        cases hm
        exact awake ha
    · exact awake (h.parent q m ((congrArg Card.parent (hother q e)).symm.trans hm))

theorem Clean.allocproc {o : Option Slot} (h : Clean k) (ha : allocproc k = .ok (o, k')) :
    Clean k' := by
  have ha := allocproc_cards ha
  cases o with
  | none =>
    rcases ha with rfl | ⟨s, hu, hr⟩
    · exact h
    · exact h.remade hr.remade (.inl hu) rfl (.inl (h.vacant s (.inl hu)).2)
  | some s =>
    obtain ⟨-, hu, hr⟩ := ha
    exact h.remade hr.remade (.inl hu) rfl (.inl (h.vacant s (.inl hu)).2)

theorem Clean.alloc_unmarked {s : Slot} (h : Clean k)
    (ha : Kern.allocproc k = .ok (some s, k')) : (k'.ptable s).killed = false :=
  ((h.allocproc ha).vacant s (.inr (congrArg Card.state (allocproc_cards ha).2.2.self))).1

theorem Clean.forkFinish {cur : Slot} {r : Int} (h : Clean k)
    (hf : forkFinish k cur np = .ok (r, k')) (hv : Vacant (k.ptable np).state)
    (hcur : Awake (k.ptable cur).state) : Clean k' := by
  rcases forkFinish_cards hf with ⟨-, hr⟩ | ⟨-, hr⟩
  · exact h.remade hr.remade hv rfl (.inl (h.vacant np hv).2)
  · refine h.remade hr.toRemade hv rfl (.inr ⟨cur, rfl, hcur, ?_⟩)
    rintro (hc | hc) <;> cases hc

end

/-! ### Calls -/

section

variable {k k' : Kernel} {cur q : Slot} {e : Call} {o : Outcome}

/-- Who is marked by a call that meets the condition is there. -/
theorem Clean.marked (h : Clean k) (he : CallAimed k cur e) (hm : Mark k cur q e) :
    ¬ Vacant (k.ptable q).state := by
  cases hm with
  | kill holder => exact he q holder
  | exec thread mother group => exact he thread _ mother q group
  | visit parent _ =>
    intro hv
    rw [(h.vacant q hv).2] at parent
    cases parent
  | mother _ parent => exact (h.parent cur q parent).not_vacant

/-- Who is awake stays so, unless the call was to end it. -/
theorem awake_of_deal {x y : Card} (h : Deal k cur o e q x y) (ha : Awake x.state)
    (hne : ¬ (q = cur ∧ e.Ends)) : Awake y.state := by
  cases h with
  | kept h =>
    rcases h.state with hs | ⟨-, hs⟩ | ⟨hq, (hs | hs) | ⟨-, he⟩⟩
    · rw [hs]
      exact ha
    · exact .inr (.inl hs)
    · exact .inl hs
    · exact .inr (.inl hs)
    · exact absurd ⟨hq, he⟩ hne
  | taken unused => exact absurd (.inl unused) ha.not_vacant
  | reaped _ zombie | joined _ zombie =>
    rw [zombie] at ha
    rcases ha with ha | ha | ha <;> cases ha

/-- A slot that a call leaves vacant was so before, unless the call has freed it. -/
theorem Clean.unmarked_of_deal {y : Card} (h : Clean k) (he : CallAimed k cur e)
    (hd : Deal k cur o e q (k.ptable q).card y) (hy : Vacant y.state) : y.killed = false := by
  cases hd with
  | kept hd =>
    have hv := hd.vacant hy
    rcases hd.killed with e | ⟨-, hm⟩
    · exact e.trans (h.vacant q hv).1
    · exact absurd hv (h.marked he hm)
  | taken unused _ _ killed _ => exact killed.trans (h.vacant q (.inl unused)).1
  | reaped => rfl
  | joined => rfl

/-- A parent after the call was one before, or is the caller or init. -/
theorem Clean.parent_of_deal {y : Card} {m : Slot} (h : Clean k)
    (hinit : Awake (k.ptable initproc).state) (hcur : Awake (k.ptable cur).state)
    (hd : Deal k cur o e q (k.ptable q).card y) (hm : y.parent = some m) :
    Awake (k.ptable m).state := by
  cases hd with
  | kept hd =>
    rcases hd.parent with e | ⟨-, e, -⟩
    · exact h.parent q m (e.symm.trans hm)
    · rw [hm] at e
      cases e
      exact hinit
  | taken unused _ _ _ fresh =>
    cases fresh with
    | failed _ parent _ => exact h.parent q m (parent.symm.trans hm)
    | child _ _ parent | thread _ _ parent =>
      rw [hm] at parent
      cases parent
      exact hcur
  | reaped => cases hm
  | joined => cases hm

theorem Clean.call (h : Clean k) (hinit : Awake (k.ptable initproc).state)
    (hcur : Awake (k.ptable cur).state) (he : CallAimed k cur e)
    (hc : Kern.call k cur e = .ok (o, k')) : Clean k' := by
  have hd := call_cards hc
  refine ⟨fun q hq => ⟨h.unmarked_of_deal he (hd q) hq,
    (hd q).vacant_parent (fun hv => (h.vacant q hv).2) hq⟩, fun q m hm => ?_⟩
  refine awake_of_deal (hd m) (h.parent_of_deal hinit hcur (hd q) hm) ?_
  rintro ⟨rfl, hends⟩
  exact (call_orphans hc hends).2 q hm

end

/-! ### Runs -/

section

variable {C : Type} [DecidableEq C] {σ σ' : Sys C}

/-- A step in which nobody is marked who is not there. -/
def Aimed (σ : Sys C) : Ev C → Prop
  | .call c op => ∀ s m, σ.cpu c = some (s, m) → CallAimed σ.k s op
  | _ => True

omit [DecidableEq C] in
instance (σ : Sys C) : DecidablePred (Aimed σ)
  | .call c op => decidable_of_iff (∀ x ∈ σ.cpu c, CallAimed σ.k x.1 op)
    ⟨fun h s m e => h (s, m) e, fun h x e => h x.1 x.2 e⟩
  | .round _ | .forkAlloc _ | .forkEnd _ => .isTrue trivial

omit [DecidableEq C] in
theorem clean_start (h : Start σ) : Clean σ.k := by
  obtain ⟨hself, hother, -⟩ := h.1.cards
  have hcard : ∀ q, (σ.k.ptable q).killed = false ∧ (σ.k.ptable q).parent = none := by
    intro q
    by_cases e : q = initproc
    · subst e
      exact ⟨congrArg Card.killed hself, congrArg Card.parent hself⟩
    · exact ⟨congrArg Card.killed (hother q e), congrArg Card.parent (hother q e)⟩
  refine ⟨fun q _ => hcard q, fun q m hm => ?_⟩
  rw [(hcard q).2] at hm
  cases hm

/-- A process awake is put on a CPU. -/
theorem Clean.run {k : Kernel} {s : Slot} (h : Clean k) (hs : Awake (k.ptable s).state) :
    Clean (k.set s ({ · with state := .running })) := by
  have hr : Redealt s { (k.ptable s).card with state := .running } k
      (k.set s ({ · with state := .running })) := .update rfl rfl rfl
  generalize k.set s ({ · with state := .running }) = k' at hr
  obtain ⟨hself, hother, -⟩ := hr
  have hst : ∀ q, Awake (k.ptable q).state ∧ Awake (k'.ptable q).state ∨
      (k'.ptable q).card = (k.ptable q).card := by
    intro q
    by_cases e : q = s
    · subst e
      exact .inl ⟨hs, .inr (.inr (congrArg Card.state hself))⟩
    · exact .inr (hother q e)
  refine ⟨fun q hq => ?_, fun q m hm => ?_⟩
  · rcases hst q with ⟨-, ha⟩ | hc
    · exact absurd hq ha.not_vacant
    · rw [show (k'.ptable q).state = (k.ptable q).state from congrArg Card.state hc] at hq
      obtain ⟨hk, hp⟩ := h.vacant q hq
      exact ⟨(congrArg Card.killed hc).trans hk, (congrArg Card.parent hc).trans hp⟩
  · have hm : (k.ptable q).parent = some m := by
      by_cases e : q = s
      · subst e
        exact (congrArg Card.parent hself).symm.trans hm
      · exact (congrArg Card.parent (hother q e)).symm.trans hm
    rcases hst m with ⟨-, ha⟩ | hc
    · exact ha
    · have ha := h.parent q m hm
      rw [← show (k'.ptable m).state = (k.ptable m).state from congrArg Card.state hc] at ha
      exact ha

theorem clean_step (hs : Sound (· = initproc) σ) (h : Clean σ.k) {e : Ev C} (ha : Aimed σ e)
    (hst : step σ e = some σ') : Clean σ'.k := by
  cases e with
  | round c =>
    obtain ⟨-, rfl⟩ := step_round hst
    refine h.run ?_
    rcases pick_spec σ.k with ⟨-, hr, -⟩ | ⟨-, hi⟩
    · exact .inr (.inl hr)
    · rw [hi]
      exact hs.init
  | call c op =>
    obtain ⟨s, m, o, k₁, hc, -, -, hcall, hafter⟩ := step_call hst
    have hk₁ := h.call hs.init (hs.awake (fun _ => id) hc) (ha s m hc) hcall
    rcases hafter with ⟨-, rfl⟩ | ⟨-, k₂, hend, rfl⟩
    · exact hk₁
    · refine hk₁.same fun q => ?_
      obtain ⟨t, l, a, hp⟩ := (roundEnd_billed hend).2 q
      rw [hp]
      exact ⟨rfl, rfl, rfl⟩
  | forkAlloc c =>
    obtain ⟨s, m, r, k₁, -, -, halloc, rfl⟩ := step_forkAlloc hst
    exact h.allocproc halloc
  | forkEnd c =>
    obtain ⟨s, m, np, r, k₁, hc, hp, hf, rfl⟩ := step_forkEnd hst
    exact h.forkFinish hf (.inr (congrArg View.state (hs.pend s np hp))) (hs.awake (fun _ => id) hc)

theorem clean_of_run (r : SchedRun Aimed σ) : Clean σ.k :=
  r.sound_invariant (I := fun σ => Clean σ.k) (fun _ => clean_start)
    fun _ _ _ hs h ha hst => clean_step hs h ha hst

end

/-! ### kill and allocproc -/

/-- `kill(pid)` returns 0 only when a process that is not UNUSED has the pid, and changes no UNUSED
slot. -/
def KillRight (k : Kernel) (pid : BitVec 32) : Prop :=
  ∀ r k', kill k pid.toInt = .ok (r, k') →
    (r = 0 → ∃ q, (k.ptable q).state ≠ .unused ∧ ((k.ptable q).pid : Int) = pid.toInt) ∧
      ∀ q, (k.ptable q).state = .unused → k'.ptable q = k.ptable q

theorem holder_pid {k : Kernel} {pid : Int} {q : Slot} (h : k.holder pid = some q) :
    ((k.ptable q).pid : Int) = pid := by
  simpa using List.find?_some h

/-- Where no unused slot is marked, `kill` is right when it takes no such slot, and only then. -/
theorem killRight_iff {k : Kernel} {pid : BitVec 32} (hl : k.locked = false)
    (hk : ∀ q, (k.ptable q).state = .unused → (k.ptable q).killed = false) :
    KillRight k pid ↔ ∀ q, k.holder pid.toInt = some q → (k.ptable q).state ≠ .unused := by
  rw [KillRight, kill_eq k _ hl]
  cases hq : k.holder pid.toInt with
  | none =>
    refine ⟨fun _ q h => (nomatch h), fun _ r k' h => ?_⟩
    cases h
    exact ⟨fun h => absurd h (by decide), fun _ _ => rfl⟩
  | some s =>
    refine ⟨fun h q e hu => ?_, fun h r k' hr => ?_⟩
    · -- the slot taken is marked, and it was not
      cases e
      have hsame := (h 0 _ rfl).2 s hu
      have hkilled := hk s hu
      rw [← hsame, Kernel.set_ptable, Function.update_self] at hkilled
      cases hkilled
    · cases hr
      refine ⟨fun _ => ⟨s, h s rfl, holder_pid hq⟩, fun q hu => ?_⟩
      have hne : q ≠ s := by
        rintro rfl
        exact h q rfl hu
      rw [Kernel.set_ptable, Function.update_of_ne hne]

/-- **Marks and unused slots.**  While `kill` and `exec` only mark processes that are there,
whatever `allocproc` returns begins unmarked, also when `thread_create` has set up its table before,
and `kill(pid)` is right exactly when the slot it takes is not UNUSED. -/
theorem kill_spares_unused {C : Type} [DecidableEq C] {σ : Sys C} (r : SchedRun Aimed σ) :
    (∀ cur s k', allocproc σ.k = .ok (some s, k') ∨
        allocproc (σ.k.set cur Proc.initThreads) = .ok (some s, k') →
          (k'.ptable s).killed = false) ∧
      ∀ pid, σ.k.locked = false →
        (KillRight σ.k pid ↔
          ∀ q, σ.k.holder pid.toInt = some q → (σ.k.ptable q).state ≠ .unused) := by
  have hc := clean_of_run r
  refine ⟨fun cur s k' ha => ?_,
    fun pid hl => killRight_iff hl fun q hu => (hc.vacant q (.inl hu)).1⟩
  have hs : SameCards σ.k (σ.k.set cur Proc.initThreads) := .update rfl (initThreads_card _) rfl
  have hthread : Clean (σ.k.set cur Proc.initThreads) :=
    hc.same fun q => ⟨hs.state q, congrArg Card.killed (hs.card q), hs.parent q⟩
  exact ha.elim hc.alloc_unmarked hthread.alloc_unmarked

/-- init kills its child, which is there; the next process begins unmarked. -/
theorem kill_spares_unused_child : ∃ σ : Sys Unit, SchedRun Aimed σ ∧
    (σ.k.ptable 1).killed = true ∧
    (∃ k', allocproc σ.k = .ok (some 2, k') ∧ (k'.ptable 2).killed = false) ∧
    KillRight σ.k 2 ∧ ¬ KillRight σ.k 0 := by
  obtain ⟨σ, r, k', ha, hk, hl, h₂, hu₂, h₀, hu₀⟩ := exists_schedRun Aimed 140
    [.round (), .call () .fork, .call () (.kill 2)]
    (fun σ => ∃ k', allocproc σ.k = .ok (some 2, k') ∧ (σ.k.ptable 1).killed = true ∧
      σ.k.locked = false ∧ σ.k.holder 2 = some 1 ∧ (σ.k.ptable 1).state ≠ .unused ∧
      σ.k.holder 0 = some 2 ∧ (σ.k.ptable 2).state = .unused) (by decide +kernel)
  obtain ⟨hspare, hright⟩ := kill_spares_unused r
  refine ⟨σ, r, hk, ⟨k', ha, hspare 2 2 k' (.inl ha)⟩,
    (hright 2 hl).mpr fun q hq => ?_, fun hr => ?_⟩
  · rw [show (2 : BitVec 32).toInt = 2 from rfl, h₂] at hq
    cases hq
    exact hu₂
  · exact (hright 0 hl).mp hr 2 h₀ hu₀

/-- `kill(0)` by init returns 0 though no process has the pid 0; it marks the unused slot 1, and
what `allocproc` returns next begins marked. -/
theorem kill_marks_unused : ∃ σ : Sys Unit, SchedRun (fun _ _ => True) σ ∧ ¬ KillRight σ.k 0 ∧
    ∃ k', kill σ.k 0 = .ok (0, k') ∧ (k'.ptable 1).state = .unused ∧
      ∃ k₂, allocproc k' = .ok (some 1, k₂) ∧ (k₂.ptable 1).killed = true := by
  obtain ⟨σ, r, hpid, k', hk, h⟩ := exists_schedRun (fun _ _ => True) 140 [.round ()]
    (fun σ => (∀ q, (σ.k.ptable q).state ≠ .unused → (σ.k.ptable q).pid ≠ 0) ∧
      ∃ k', kill σ.k 0 = .ok (0, k') ∧ (k'.ptable 1).state = .unused ∧
        ∃ k₂, allocproc k' = .ok (some 1, k₂) ∧ (k₂.ptable 1).killed = true) (by decide +kernel)
  refine ⟨σ, r, fun hright => ?_, k', hk, h⟩
  obtain ⟨q, hq, hp⟩ := (hright 0 k' hk).1 rfl
  exact hpid q hq (Int.ofNat_eq_zero.mp hp)

end Xv6.Sched
