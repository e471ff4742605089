import Xv6.Proc.Parents

/-!
# Proc — the exit of a process with threads (`proc.c`)

`exit` of a process with threads scans the table until it has no child left.  A child that has ended
is joined.  Every other child `p` is marked, and `wakeup1(p)` wakes who sleeps on the child's own
address: a thread that waits or joins, but none that reads from a pipe or sleeps for some ticks.  And
the scan asks for the parent only, so it takes the children made by `fork` for threads.

* `exitPass_kills_iff`: after one scan the threads of the caller are as after a `kill` of each,
  exactly when those asleep sleep on the address of one of its children.
* `exit_spares_iff`: such an `exit` marks and frees threads only, and leaves its other children to
  init, exactly when it has no other children.
-/

namespace Xv6.Kern

open Function (update_self update_of_ne)
open Support (Trace bind_ok)

/-! ### One scan -/

/-- One scan of the table by `exit`. -/
def exitPass (k : Kernel) (cur : Slot) : Except Stop Kernel :=
  (List.finRange NPROC).foldlM (fun k s => do let (_, k) ← exitVisit k cur s; .ok k) k

/-- A child that has not ended. -/
def Child (k : Kernel) (cur q : Slot) : Prop :=
  (k.ptable q).parent = some cur ∧ (k.ptable q).state ≠ .zombie

instance (k : Kernel) (cur q : Slot) : Decidable (Child k cur q) :=
  inferInstanceAs (Decidable (_ ∧ _))

/-- A process after some visits, that may mark it and may wake it. -/
def Proc.treated (p : Proc) (mark wake : Bool) : Proc :=
  { p with
    killed := p.killed || mark
    state := if wake = true ∧ p.state = .sleeping then .runnable else p.state }

theorem treated_false (p : Proc) : p.treated false false = p := by
  simp [Proc.treated]

theorem treated_treated (p : Proc) (a b c d : Bool) :
    (p.treated a b).treated c d = p.treated (a || c) (b || d) := by
  cases b with
  | false => simp [Proc.treated, Bool.or_assoc]
  | true =>
    by_cases hs : p.state = .sleeping
    · simp [Proc.treated, Bool.or_assoc, hs]
    · simp [Proc.treated, Bool.or_assoc, hs]

/-- To be marked and woken is to be killed. -/
theorem treated_true (p : Proc) : p.treated true true = p.marked := by
  simp [Proc.treated, Proc.marked]

theorem treated_eq_marked {p : Proc} {wake : Bool} :
    p.treated true wake = p.marked ↔ (p.state = .sleeping → wake = true) := by
  rw [← treated_true]
  cases wake with
  | true => simp
  | false =>
    refine ⟨fun h hs => ?_, fun h => ?_⟩
    · have hst := congrArg Proc.state h
      simp [Proc.treated, hs] at hst
    · have hs : p.state ≠ .sleeping := fun hs => Bool.false_ne_true (h hs)
      simp [Proc.treated, hs]

section

variable {k k' : Kernel} {cur s t : Slot}

/-- The join of `s` shows in no other process but the caller. -/
theorem joinReap_other (h : joinReap k cur s = .ok k') (hs : t ≠ s) (hc : t ≠ cur) :
    k'.ptable t = k.ptable t := by
  rw [joinReap] at h
  obtain ⟨k₁, h₁, h⟩ := bind_ok.mp h
  obtain ⟨c, -, h⟩ := bind_ok.mp h
  cases h
  obtain ⟨p, m, -, -, rfl⟩ := kfreeStack_ok h₁
  simp only [Kernel.set_ptable, Kernel.setMem_ptable, update_of_ne hs, update_of_ne hc]

theorem child_congr (hp : (k'.ptable t).parent = (k.ptable t).parent)
    (hs : Roused (k.ptable t).state (k'.ptable t).state) : Child k' cur t ↔ Child k cur t := by
  rw [Child, Child, hp]
  rcases hs with hs | ⟨hs, hs'⟩
  · rw [hs]
  · rw [hs, hs']
    simp

/-- A visit leaves who is a child that has not ended. -/
theorem exitVisit_children {r : Option Nat} (h : exitVisit k cur s = .ok (r, k')) (t : Slot) :
    Child k' cur t ↔ Child k cur t := by
  have hk := exiting_cards k cur
  rcases (exitVisit_cases h).2 with ⟨-, rfl⟩ | ⟨-, -, q, -, -, hz, hr⟩ | ⟨-, -, rfl⟩
  · exact child_congr (hk.parent t) (.inl (hk.state t))
  · have hr := (joinReap_cards hr).after hk
    by_cases e : t = q
    · -- neither a zombie nor a slot without a parent is one
      subst e
      have hp : (k'.ptable t).parent = none := congrArg Card.parent hr.self
      rw [Child, Child, hp, hz]
      simp
    · exact child_congr (congrArg Card.parent (hr.other t e))
        (.inl (congrArg Card.state (hr.other t e)))
  · obtain ⟨st, hc, hst⟩ := wakeup1_cards ((k.set cur ({ · with exiting := true })).set s
      ({ · with killed := true })) (.proc s) t
    -- the mark shows in neither field
    have hm : ∀ t, (((k.set cur ({ · with exiting := true })).set s
        ({ · with killed := true })).ptable t).parent = (k.ptable t).parent ∧
        (((k.set cur ({ · with exiting := true })).set s
        ({ · with killed := true })).ptable t).state = (k.ptable t).state := by
      intro t
      rw [← hk.parent t, ← hk.state t, Kernel.set_ptable]
      by_cases e : t = s
      · subst e
        rw [update_self]
        exact ⟨rfl, rfl⟩
      · rw [update_of_ne e]
        exact ⟨rfl, rfl⟩
    rw [(hm t).2] at hst
    refine child_congr ((congrArg Card.parent hc).trans (hm t).1) ?_
    rw [show ((wakeup1 ((k.set cur ({ · with exiting := true })).set s ({ · with killed := true }))
      (.proc s)).ptable t).state = st from congrArg Card.state hc]
    exact hst

/-- What a visit of `s` does to a child that has not ended. -/
theorem exitVisit_child {r : Option Nat} (h : exitVisit k cur s = .ok (r, k')) (hne : t ≠ cur)
    (ht : Child k cur t) : k'.ptable t = (k.ptable t).treated (decide (t = s))
      (decide (Child k cur s ∧ (k.ptable t).chan = some (.proc s))) := by
  have hset : (k.set cur ({ · with exiting := true })).ptable t = k.ptable t := by
    rw [Kernel.set_ptable, update_of_ne hne]
  -- who is passed over or freed is another process
  have other : ¬ Child k cur s → (k.ptable t).treated (decide (t = s))
      (decide (Child k cur s ∧ (k.ptable t).chan = some (.proc s))) = k.ptable t := by
    intro hs
    have e : t ≠ s := by
      rintro rfl
      exact hs ht
    rw [decide_eq_false e, decide_eq_false fun h => hs h.1, treated_false]
  rcases (exitVisit_cases h).2 with ⟨hp, rfl⟩ | ⟨-, hz, q, -, -, hzq, hr⟩ | ⟨hp, hz, rfl⟩
  · rw [hset, other fun hs => hp hs.1]
  · have e : t ≠ q := by
      rintro rfl
      exact ht.2 hzq
    rw [joinReap_other hr e hne, hset, other fun hs => hs.2 hz]
  · have hs : Child k cur s := ⟨hp, hz⟩
    by_cases e : t = s
    · subst e
      simp only [wakeup1, Kernel.set_ptable, update_self, update_of_ne hne,
        Proc.treated, hs, true_and, decide_true, Bool.or_true, decide_eq_true_eq, and_comm]
      split
      · rfl
      · rfl
    · simp only [wakeup1, Kernel.set_ptable, update_of_ne e, update_of_ne hne,
        Proc.treated, hs, true_and, decide_eq_false e, Bool.or_false, decide_eq_true_eq, and_comm]
      split
      · rfl
      · rfl

/-- The same for visits of the slots of a list, one after the other. -/
theorem visits_child {l : List Slot}
    (h : l.foldlM (fun k s => do let (_, k) ← exitVisit k cur s; .ok k) k = .ok k')
    (hne : t ≠ cur) (ht : Child k cur t) : k'.ptable t = (k.ptable t).treated (decide (t ∈ l))
      (decide (∃ q ∈ l, Child k cur q ∧ (k.ptable t).chan = some (.proc q))) := by
  induction l generalizing k with
  | nil =>
    cases h
    simp [treated_false]
  | cons s l ih =>
    obtain ⟨k₁, h₁, h⟩ := bind_ok.mp h
    obtain ⟨⟨r, k₂⟩, hv, h₁⟩ := bind_ok.mp h₁
    cases h₁
    have hself := exitVisit_child hv hne ht
    have hchan : (k₁.ptable t).chan = (k.ptable t).chan := by rw [hself]; rfl
    rw [ih h ((exitVisit_children hv t).mpr ht), hchan, hself, treated_treated]
    simp only [exitVisit_children hv, List.mem_cons, exists_eq_or_imp, Bool.decide_or]

/-- A thread of `cur` that has not ended. -/
def LiveThread (k : Kernel) (cur t : Slot) : Prop :=
  t ≠ cur ∧ (k.ptable t).isthread = true ∧ (k.ptable t).state ≠ .unused ∧ Child k cur t

instance (k : Kernel) (cur t : Slot) : Decidable (LiveThread k cur t) :=
  inferInstanceAs (Decidable (_ ∧ _ ∧ _ ∧ _))

end

/-- **A scan of `exit` against `kill`.**  `kill` of the pid of a process, where it takes that
process, leaves it as `Proc.marked` says.  After one scan of `exit` every thread of the caller that
has not ended is left so, and none asleep, exactly when each of those asleep sleeps on the address of
a child that has not ended. -/
theorem exitPass_kills_iff {k k' : Kernel} {cur : Slot} (h : exitPass k cur = .ok k') :
    (∀ t k₂, k.holder (k.ptable t).pid = some t → kill k (k.ptable t).pid = .ok (0, k₂) →
      k₂.ptable t = (k.ptable t).marked) ∧
    ((∀ t, LiveThread k cur t →
        k'.ptable t = (k.ptable t).marked ∧ (k'.ptable t).state ≠ .sleeping) ↔
      ∀ t, LiveThread k cur t → (k.ptable t).state = .sleeping →
        ∃ q, Child k cur q ∧ (k.ptable t).chan = some (.proc q)) := by
  refine ⟨fun t k₂ hh hk => ?_, ?_⟩
  · rw [kill_eq k _ (kill_unlocked hk), hh] at hk
    cases hk
    rw [Kernel.set_ptable, update_self]
  refine forall_congr' fun t => forall_congr' fun ht => ?_
  have hpass := visits_child h ht.1 ht.2.2.2
  rw [decide_eq_true (List.mem_finRange t)] at hpass
  -- a process that was killed is not asleep
  have hand : (k'.ptable t = (k.ptable t).marked ∧ (k'.ptable t).state ≠ .sleeping) ↔
      k'.ptable t = (k.ptable t).marked :=
    ⟨fun h => h.1, fun h => ⟨h, h ▸ marked_awake _⟩⟩
  rw [hand, hpass, treated_eq_marked]
  simp only [List.mem_finRange, true_and, decide_eq_true_eq]

/-- A child of init has a thread, which waits for a thread of its own: the scan wakes it. -/
theorem exitPass_kills_iff_joining : ∃ k k', SysRun (fun _ _ => True) k ∧
    exitPass k 1 = .ok k' ∧ LiveThread k 1 2 ∧ (k.ptable 2).state = .sleeping ∧
    k'.ptable 2 = (k.ptable 2).marked ∧ (k'.ptable 2).state ≠ .sleeping := by
  obtain ⟨k, r, k', hpass, ht, hs, hc, hall⟩ := exists_sysRun (fun _ _ => True) 200
    [.dispatch 0, .call 0 .fork, .dispatch 1, .call 1 (.threadCreate 0 0 0), .dispatch 2,
      .call 2 (.threadJoin 9 0)]
    (fun k => ∃ k', exitPass k 1 = .ok k' ∧ LiveThread k 1 2 ∧ (k.ptable 2).state = .sleeping ∧
      (k.ptable 2).chan = some (.proc 2) ∧ ∀ t, LiveThread k 1 t → t = 2) (by decide +kernel)
  refine ⟨k, k', r, hpass, ht, hs, (exitPass_kills_iff hpass).2.mpr (fun t ht' _ => ?_) 2 ht⟩
  rw [hall t ht']
  exact ⟨2, ht.2.2.2, hc⟩

/-- A child of init has a thread, which sleeps on something else: after the scan it is marked, and
asleep still. -/
theorem exitPass_leaves_sleeper : ∃ k k', SysRun (fun _ _ => True) k ∧
    (k.ptable 1).hasthread = true ∧ exitPass k 1 = .ok k' ∧ LiveThread k 1 2 ∧
    (k'.ptable 2).killed = true ∧ (k'.ptable 2).state = .sleeping ∧
    ∃ k₂, kill k (k.ptable 2).pid = .ok (0, k₂) ∧ (k₂.ptable 2).state = .runnable := by
  obtain ⟨k, r, hth, k', h⟩ := exists_sysRun (fun _ _ => True) 200
    [.dispatch 0, .call 0 .fork, .dispatch 1, .call 1 (.threadCreate 0 0 0), .dispatch 2,
      .call 2 (.sleep 5)]
    (fun k => (k.ptable 1).hasthread = true ∧ ∃ k', exitPass k 1 = .ok k' ∧ LiveThread k 1 2 ∧
      (k'.ptable 2).killed = true ∧ (k'.ptable 2).state = .sleeping ∧
      ∃ k₂, kill k (k.ptable 2).pid = .ok (0, k₂) ∧ (k₂.ptable 2).state = .runnable)
    (by decide +kernel)
  exact ⟨k, k', r, hth, h⟩

/-! ### The whole exit -/

/-- A child that was made by `fork`. -/
def Forked (k : Kernel) (cur q : Slot) : Prop :=
  (k.ptable q).state ≠ .unused ∧ (k.ptable q).parent = some cur ∧ (k.ptable q).isthread = false

instance (k : Kernel) (cur q : Slot) : Decidable (Forked k cur q) :=
  inferInstanceAs (Decidable (_ ∧ _ ∧ _))

/-- While `cur` goes round its children it does nothing else; it may lose the CPU. -/
def Looping (cur : Slot) (_ : Kernel) : Event → Prop
  | .dispatch _ => True
  | .call s e => s = cur → e = .yield ∨ ∃ q, e = .exitVisit q

/-- If the step is a visit of `cur`, it marks and frees threads of `cur` only, and leaves the children
made by `fork` as they are. -/
def Spares (cur : Slot) (k : Kernel) (e : Event) : Prop :=
  ∀ s k', e = .call cur (.exitVisit s) → step k e = some k' →
    (∀ q, ((k.ptable q).killed = false ∧ (k'.ptable q).killed = true ∨ Reaps q k k') →
      (k.ptable q).isthread = true ∧ (k.ptable q).parent = some cur) ∧
    ∀ q, Forked k cur q → (k'.ptable q).killed = (k.ptable q).killed ∧
      (k'.ptable q).state = (k.ptable q).state ∧ (k'.ptable q).pgdir = (k.ptable q).pgdir ∧
      (k'.ptable q).pid = (k.ptable q).pid

section

variable {k k' : Kernel} {cur q : Slot} {e : Event}

theorem Looping.not_ends {s : Slot} {op : Call} (h : Looping cur k (.call s op)) (hs : s = cur) :
    ¬ op.Ends := by
  rcases h hs with rfl | ⟨q, rfl⟩
  · exact id
  · exact id

/-- A child made by `fork` stays one until it is freed by a visit. -/
theorem Forked.step (hf : Forked k cur q) (hL : Looping cur k e) (hS : Spares cur k e)
    (h : step k e = some k') : Forked k' cur q := by
  obtain ⟨hu, hp, hth⟩ := hf
  cases e with
  | dispatch s =>
    obtain ⟨-, rfl⟩ := step_dispatch h
    rw [Forked, Kernel.set_ptable]
    by_cases e : q = s
    · subst e
      rw [update_self]
      exact ⟨State.noConfusion, hp, hth⟩
    · rw [update_of_ne e]
      exact ⟨hu, hp, hth⟩
  | call s op =>
    obtain ⟨-, -, o, hc⟩ := step_call h
    have hd := call_cards hc q
    -- who frees a child, or passes it on, is its parent
    have own : ∀ {m}, (k.ptable q).card.parent = some m → m = cur := fun h =>
      Option.some.inj (h.symm.trans hp)
    generalize hy : (k'.ptable q).card = y at hd
    cases hd with
    | kept hd =>
      refine ⟨fun hu' => hu (hd.unused (hy ▸ hu')), ?_, ?_⟩
      · rcases hd.parent with hpar | ⟨hs, -, hends⟩
        · exact (congrArg Card.parent hy).trans (hpar.trans hp)
        · exact absurd hends (hL.not_ends (own hs))
      · exact (congrArg Card.isthread hy).trans (hd.isthread.trans hth)
    | taken unused => exact absurd unused hu
    | reaped wait _ parent =>
      subst wait
      rcases hL (own parent) with hw | ⟨_, hw⟩
      · cases hw
      · cases hw
    | joined which _ parent =>
      obtain rfl := own parent
      rcases hL rfl with rfl | ⟨p, rfl⟩
      · rcases which with ⟨_, _, hw, -⟩ | ⟨_, hw, -⟩
        · cases hw
        · cases hw
      · have hreap : Reaps q k k' := ⟨hu, congrArg Card.state hy⟩
        have := ((hS p k' rfl h).1 q (.inr hreap)).1
        rw [hth] at this
        cases this

/-- The slots that are unused or in the making have no parent. -/
theorem SysRun.vacant_parent {G : Kernel → Event → Prop} {k : Kernel} (r : SysRun G k) :
    ∀ q, Vacant (k.ptable q).state → (k.ptable q).parent = none := by
  refine r.invariant (I := fun k => ∀ q, Vacant (k.ptable q).state → (k.ptable q).parent = none)
    (fun k hb q _ => ?_) fun k e k' hI _ h q hq => ?_
  · obtain ⟨hself, hother, -⟩ := hb.cards
    by_cases e : q = initproc
    · subst e
      exact congrArg Card.parent hself
    · exact congrArg Card.parent (hother q e)
  · cases e with
    | dispatch s =>
      obtain ⟨-, rfl⟩ := step_dispatch h
      rw [Kernel.set_ptable] at hq ⊢
      by_cases e : q = s
      · subst e
        rw [update_self] at hq
        rcases hq with hq | hq <;> cases hq
      · rw [update_of_ne e] at hq ⊢
        exact hI q hq
    | call s op =>
      obtain ⟨-, -, o, hc⟩ := step_call h
      exact (call_cards hc q).vacant_parent (hI q) hq

/-- While `cur` goes round its children no child made by `fork` is added. -/
theorem forked_of_step (hv : ∀ q, Vacant (k.ptable q).state → (k.ptable q).parent = none)
    (hinit : cur ≠ initproc) (hL : Looping cur k e) (h : step k e = some k')
    (hf : Forked k' cur q) : Forked k cur q := by
  obtain ⟨-, hp, hth⟩ := hf
  -- a slot with a parent is not unused
  have used : (k.ptable q).parent = some cur → (k.ptable q).state ≠ .unused := by
    intro hpar hu
    rw [hv q (.inl hu)] at hpar
    cases hpar
  cases e with
  | dispatch s =>
    obtain ⟨-, rfl⟩ := step_dispatch h
    rw [Kernel.set_ptable] at hp hth
    by_cases e : q = s
    · subst e
      rw [update_self] at hp hth
      exact ⟨used hp, hp, hth⟩
    · rw [update_of_ne e] at hp hth
      exact ⟨used hp, hp, hth⟩
  | call s op =>
    obtain ⟨-, -, o, hc⟩ := step_call h
    have hd := call_cards hc q
    have hp : (k'.ptable q).card.parent = some cur := hp
    have hth : (k'.ptable q).card.isthread = false := hth
    generalize (k'.ptable q).card = y at hd hp hth
    cases hd with
    | kept hd =>
      rcases hd.parent with hpar | ⟨-, hi, -⟩
      · have hpar : (k.ptable q).parent = some cur := hpar.symm.trans hp
        exact ⟨used hpar, hpar, hd.isthread.symm.trans hth⟩
      · exact absurd (Option.some.inj (hp.symm.trans hi)) hinit
    | taken unused _ _ _ fresh =>
      cases fresh with
      | failed _ parent _ =>
        have hpar : (k.ptable q).parent = some cur := parent.symm.trans hp
        exact absurd unused (used hpar)
      | child fork _ parent _ =>
        subst fork
        rcases hL (Option.some.inj (parent.symm.trans hp)) with hw | ⟨_, hw⟩
        · cases hw
        · cases hw
      | thread _ _ _ isthread _ =>
        rw [isthread] at hth
        cases hth
    | reaped => cases hp
    | joined => cases hp

/-- Who is marked or freed by a visit is a child of the caller. -/
theorem exitVisit_marks {s : Slot} {o : Outcome} (hc : call k cur (.exitVisit s) = .ok (o, k'))
    (h : (k.ptable q).killed = false ∧ (k'.ptable q).killed = true ∨ Reaps q k k') :
    (k.ptable q).parent = some cur := by
  have hd := call_cards hc q
  have h : (k.ptable q).killed = false ∧ (k'.ptable q).card.killed = true ∨
      (k.ptable q).state ≠ .unused ∧ (k'.ptable q).card.state = .unused := h
  generalize (k'.ptable q).card = y at hd h
  cases hd with
  | kept hd =>
    rcases h with ⟨hk, hk'⟩ | ⟨hu, hu'⟩
    · rcases hd.killed with hsame | ⟨-, hm⟩
      · rw [hk', show (k.ptable q).card.killed = false from hk] at hsame
        cases hsame
      · cases hm with
        | visit parent _ => exact parent
    · exact absurd (hd.unused hu') hu
  | taken unused _ _ killed _ =>
    rcases h with ⟨hk, hk'⟩ | ⟨hu, -⟩
    · rw [hk', show (k.ptable q).card.killed = false from hk] at killed
      cases killed
    · exact absurd unused hu
  | reaped _ _ parent => exact parent
  | joined _ _ parent => exact parent

/-- A visit spares the children made by `fork` where there is none. -/
theorem spares_of_none (hn : ∀ q, ¬ Forked k cur q)
    (hv : ∀ q, Vacant (k.ptable q).state → (k.ptable q).parent = none) : Spares cur k e := by
  rintro s k' rfl h
  obtain ⟨-, -, o, hc⟩ := step_call h
  refine ⟨fun q hq => ?_, fun q hf => absurd hf (hn q)⟩
  have hpar := exitVisit_marks hc hq
  refine ⟨?_, hpar⟩
  by_contra hth
  refine hn q ⟨fun hu => ?_, hpar, Bool.eq_false_iff.mpr hth⟩
  rw [hv q (.inl hu)] at hpar
  cases hpar

/-! ### The caller -/

/-- A process that a call does not end, and that has had threads, is alive and has had threads. -/
theorem Effect.busy {c x : Kin} {op : Call} {s t : Slot} (hc : k.kins s = some c)
    (h : Effect k s c op k') (hx : k.kins t = some x) (ha : x.stage = .alive)
    (hF : x.threads.isSome = true) (hne : t = s → ¬ op.Ends) :
    ∃ x', k'.kins t = some x' ∧ x'.stage = .alive ∧ x'.threads.isSome = true := by
  obtain ⟨x', hx'⟩ := Option.ne_none_iff_exists'.mp fun hnone =>
    nomatch ha.symm.trans (h.freed_zombie hx hnone)
  refine ⟨x', hx', ?_⟩
  cases h.source hx' with
  | same old =>
    cases hx.symm.trans old
    exact ⟨ha, hF⟩
  | self slot kept threads =>
    subst slot
    cases hc.symm.trans hx
    exact ⟨(congrArg Kin.stage kept).trans ha, threads hF⟩
  | after old which eq =>
    cases hx.symm.trans old
    subst eq
    have hts : t ≠ s := by
      intro hts
      refine hne hts ?_
      rcases which with ⟨rfl, -⟩ | rfl
      · trivial
      · trivial
    exact ⟨(if_neg hts).trans ha, hF⟩
  | new free => exact nomatch free.symm.trans hx

end

section

variable {k k₁ k' : Kernel} {cur : Slot} {l : List (Kernel × Event)}

/-- While `cur` goes round its children it is alive and has had threads. -/
theorem Looping.busy (r : SysRun (fun _ _ => True) k) (hrun : (k.ptable cur).state = .running)
    (hth : (k.ptable cur).hasthread = true)
    (tr : Trace (fun k e k' => step k e = some k') (Looping cur) k l k₁) :
    SysRun (fun _ _ => True) k₁ ∧ ∃ c, k₁.kins cur = some c ∧ c.stage = .alive ∧
      c.threads.isSome = true := by
  induction tr with
  | refl =>
    obtain ⟨c, hc, ha⟩ := running_kin hrun
    exact ⟨r, c, hc, ha, (kin_hasthread hc).symm.trans hth⟩
  | @more k₂ k₃ e l tr hL h ih =>
    obtain ⟨r₂, c, hc, ha, hF⟩ := ih
    refine ⟨r₂.steps (.more .refl trivial h), ?_⟩
    cases e with
    | dispatch s =>
      obtain ⟨hm, rfl⟩ := step_dispatch h
      exact ⟨c, (dispatch_still hm).kins ▸ hc, ha, hF⟩
    | call s op =>
      obtain ⟨hrun, -, o, hcall⟩ := step_call h
      obtain ⟨c', hc', -⟩ := running_kin hrun
      exact (call_effect r₂.paged hrun hc' hcall).busy hc' hc ha hF fun e => hL.not_ends e.symm

/-- Who calls `exit` and comes to its end has no child left, if it has had threads. -/
theorem exit_ready {c : Kin} (hc : k₁.kins cur = some c) (hF : c.threads.isSome = true)
    (h : step k₁ (.call cur .exit) = some k') (q : Slot) : (k₁.ptable q).parent ≠ some cur := by
  intro hp
  obtain ⟨-, hready, -⟩ := step_call h
  have hnil := hready ((kin_hasthread hc).trans hF)
  have hmem : q ∈ k₁.slots fun p => p.parent = some cur :=
    List.mem_filter.mpr ⟨List.mem_finRange q, decide_eq_true hp⟩
  rw [hnil] at hmem
  cases hmem

end

/-- **The exit of a process with threads, and its other children.**  From the call of `exit` by `cur`
on, whatever the other processes do: the visits of `cur` mark and free threads only and leave the
children made by `fork` as they are, and at the end these have their pid and init as their parent,
exactly when there is no such child at the call. -/
theorem exit_spares_iff {k k₁ k' : Kernel} {cur : Slot} {l : List (Kernel × Event)}
    (r : SysRun (fun _ _ => True) k) (hrun : (k.ptable cur).state = .running)
    (hth : (k.ptable cur).hasthread = true)
    (tr : Trace (fun k e k' => step k e = some k') (Looping cur) k l k₁)
    (hexit : step k₁ (.call cur .exit) = some k') :
    ((∀ p ∈ l, Spares cur p.1 p.2) ∧ ∀ q, Forked k cur q →
        (k'.ptable q).pid = (k.ptable q).pid ∧ (k'.ptable q).parent = some initproc) ↔
      ∀ q, ¬ Forked k cur q := by
  have hinit : cur ≠ initproc := by
    obtain ⟨-, -, o, hc⟩ := step_call hexit
    exact (call_orphans hc trivial).1
  constructor
  · rintro ⟨hS, -⟩ q hf
    obtain ⟨-, c, hc, -, hF⟩ := Looping.busy r hrun hth tr
    -- spared by every visit, the child is there still
    have hf₁ : Forked k₁ cur q := by
      clear hexit hc hF c
      induction tr with
      | refl => exact hf
      | more tr hL h ih =>
        exact (ih fun p hp => hS p (List.mem_cons_of_mem _ hp)).step hL (hS _ List.mem_cons_self) h
    exact exit_ready hc hF hexit q hf₁.2.1
  · intro hn
    refine ⟨?_, fun q hf => absurd hf (hn q)⟩
    have hall : (∀ q, ¬ Forked k₁ cur q) ∧ ∀ p ∈ l, Spares cur p.1 p.2 := by
      clear hexit
      induction tr with
      | refl => exact ⟨hn, fun p hp => nomatch hp⟩
      | more tr hL h ih =>
        obtain ⟨hn', hS⟩ := ih
        have hv := (Looping.busy r hrun hth tr).1.vacant_parent
        refine ⟨fun q hf => hn' q (forked_of_step hv hinit hL h hf), fun p hp => ?_⟩
        rcases List.mem_cons.mp hp with rfl | hp
        · exact spares_of_none hn' hv
        · exact hS p hp
    exact hall.2

/-- The steps of a list, of which those of slot 1 are visits. -/
def visiting (_ : Kernel) : Event → Bool
  | .call s op => s ≠ 1 || (match op with | .exitVisit _ => true | _ => false)
  | .dispatch _ => true

theorem looping_of_visiting {k : Kernel} {e : Event} (h : visiting k e = true) : Looping 1 k e := by
  cases e with
  | dispatch s => exact trivial
  | call s op =>
    rintro rfl
    cases op with
    | exitVisit q => exact .inr ⟨q, rfl⟩
    | _ => cases h

/-- A computed run from a computed kernel, up to the end of an exit of slot 1. -/
theorem exists_exitRun (n : Nat) (es es' : List Event) (P : Kernel → Kernel → Prop)
    (h : ∃ k, bootRun n (fun _ _ => decide True) es = some k ∧
      ∃ k₁, Support.exec step visiting k es' = some k₁ ∧
        ∃ k', step k₁ (.call 1 .exit) = some k' ∧ P k k') :
    ∃ k l k₁ k', SysRun (fun _ _ => True) k ∧
      Trace (fun k e k' => step k e = some k') (Looping 1) k l k₁ ∧
      step k₁ (.call 1 .exit) = some k' ∧ P k k' := by
  obtain ⟨k, r, k₁, hk₁, k', hk', h⟩ := exists_sysRun (fun _ _ => True) n es _ h
  obtain ⟨l, tr⟩ := ((Support.exec_run es' .refl hk₁).mono fun _ _ => looping_of_visiting).trace
  exact ⟨k, l, k₁, k', r, tr, hk', h⟩

/-- A child of init with one thread exits: the thread is marked, ends and is joined. -/
theorem exit_spares_iff_thread : ∃ k l k₁ k', SysRun (fun _ _ => True) k ∧
    (k.ptable 1).hasthread = true ∧
    Trace (fun k e k' => step k e = some k') (Looping 1) k l k₁ ∧
    step k₁ (.call 1 .exit) = some k' ∧ ∀ p ∈ l, Spares 1 p.1 p.2 := by
  obtain ⟨k, l, k₁, k', r, tr, hexit, hrun, hth, hn⟩ := exists_exitRun 200
    [.dispatch 0, .call 0 .fork, .dispatch 1, .call 1 (.threadCreate 0 0 0)]
    [.call 1 (.exitVisit 2), .dispatch 2, .call 2 (.threadExit 0), .call 1 (.exitVisit 2)]
    (fun k _ => (k.ptable 1).state = .running ∧ (k.ptable 1).hasthread = true ∧
      ∀ q, ¬ Forked k 1 q) (by decide +kernel)
  exact ⟨k, l, k₁, k', r, hth, tr, hexit, ((exit_spares_iff r hrun hth tr hexit).mpr hn).1⟩

/-- A child of init forks, creates a thread and exits.  The exit marks the forked child and frees
it. -/
theorem exit_takes_forked : ∃ k l k₁ k', SysRun (fun _ _ => True) k ∧
    (k.ptable 1).state = .running ∧ (k.ptable 1).hasthread = true ∧
    Forked k 1 2 ∧ (k.ptable 2).state = .runnable ∧ (k.ptable 2).killed = false ∧
    (∃ k₂, step k (.call 1 (.exitVisit 2)) = some k₂ ∧ (k₂.ptable 2).killed = true) ∧
    Trace (fun k e k' => step k e = some k') (Looping 1) k l k₁ ∧
    step k₁ (.call 1 .exit) = some k' ∧ (k'.ptable 2).state = .unused := by
  obtain ⟨k, l, k₁, k', r, tr, hexit, hu, hrun, hth, hf, hst, hk, hv⟩ := exists_exitRun 300
    [.dispatch 0, .call 0 .fork, .dispatch 1, .call 1 .fork, .call 1 (.threadCreate 0 0 0)]
    [.call 1 (.exitVisit 2), .call 1 (.exitVisit 3), .dispatch 2, .call 2 .exit, .dispatch 3,
      .call 3 (.threadExit 0), .call 1 (.exitVisit 2), .call 1 (.exitVisit 3)]
    (fun k k' => (k'.ptable 2).state = .unused ∧ (k.ptable 1).state = .running ∧
      (k.ptable 1).hasthread = true ∧ Forked k 1 2 ∧ (k.ptable 2).state = .runnable ∧
      (k.ptable 2).killed = false ∧
      ∃ k₂, step k (.call 1 (.exitVisit 2)) = some k₂ ∧ (k₂.ptable 2).killed = true)
    (by decide +kernel)
  exact ⟨k, l, k₁, k', r, hrun, hth, hf, hst, hk, hv, tr, hexit, hu⟩

end Xv6.Kern
