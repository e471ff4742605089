import Xv6.Proc.Sizes

/-!
# Proc — what `thread_join` finds

`thread_join` looks for a zombie child with a pid, and asks neither whether it is a thread nor
whether there is such a child.

* `join_reaps_created`: where it names threads that its caller has created, and `thread_create`
  finds a free entry, what it frees was made by `thread_create` of the caller, and the entry of
  `ex_thread` that it clears is the one set then.  Otherwise it frees a process made by `fork`, and
  clears what the slot's old number names (`join_frees_forked`).
* `joiner_has_child`: where it names children, whoever is in it has such a child as long as it is in
  it; otherwise it goes to sleep for nobody (`join_sleeps_alone`).
-/

namespace Xv6.Kern

open Function (update_self update_of_ne)
open Support (Trace bind_ok)

/-! ### The history of a thread -/

/-- The pid that a call looks for among the zombie children of its caller. -/
def Call.joinId (k : Kernel) : Call → Option Int
  | .threadJoin t _ => some t.toInt
  | .exitVisit s => some (k.ptable s).pid
  | _ => none

/-- `thread_create` finds an entry that is not in use, and the children that `thread_join` may free
are threads its caller has created. -/
def Paired (k : Kernel) : Event → Prop
  | .dispatch _ => True
  | .call cur e =>
    (match e with
      | .threadCreate .. => (k.ptable cur).initThreads.freeThread ≠ none
      | _ => True) ∧
    ∀ q, e.joinId k = some ((k.ptable q).pid : Int) → (k.ptable q).parent = some cur →
      (k.ptable q).state = .zombie → (k.ptable q).isthread = true ∧ (k.ptable q).mother = some cur

instance (k : Kernel) : DecidablePred (Paired k)
  | .dispatch _ => .isTrue trivial
  | .call cur e => by
    match e with
    | .fork | .exit | .exitVisit _ | .wait | .threadCreate .. | .threadExit _ | .threadJoin ..
    | .setCpuShare _ | .sbrk _ | .exec .. | .kill _ | .sleep _ | .wakeup _ | .yield =>
      unfold Paired
      infer_instance

/-- In one of the steps the process `M`, with the pid `mpid`, has made the thread in the slot `s` by
`thread_create`, and set its entry `i` for it. -/
def Created (l : List (Kernel × Event)) (M : Slot) (mpid : Nat) (s : Slot) (pid : Nat)
    (i : Fin NTHREAD) : Prop :=
  ∃ k k' thread start arg, (k, Event.call M (.threadCreate thread start arg)) ∈ l ∧
    step k (.call M (.threadCreate thread start arg)) = some k' ∧ (k.ptable M).pid = mpid ∧
    ((k.ptable s).state = .unused ∧ (k'.ptable s).state = .runnable ∧ (k'.ptable s).pid = pid) ∧
    (k.ptable M).initThreads.exThread i = false ∧ (k'.ptable M).exThread i = true ∧
    (k'.ptable s).threadNum = i.val

/-- Where the thread in the slot `q` comes from: `M` has created it for the entry `i`, and is its
parent still, or has ended. -/
structure Origin (l : List (Kernel × Event)) (k : Kernel) (q M : Slot) (i : Fin NTHREAD) :
    Prop where
  mother : (k.ptable q).mother = some M
  num : (k.ptable q).threadNum = i.val
  parent : (k.ptable q).parent = some M ∧ Live k M ∧
      Created l M (k.ptable M).pid q (k.ptable q).pid i ∨
    (k.ptable q).parent = some initproc ∧ M ≠ initproc

section

variable {k k' : Kernel} {cur q M : Slot} {e : Call} {x y : Card} {l : List (Kernel × Event)}
  {i : Fin NTHREAD}

/-- A live process that does not end is the same one after a call, and alive. -/
theorem Deal.live (h : Deal k cur o e q x y) (hx : x.state ≠ .unused ∧ x.state ≠ .zombie)
    (hne : q = cur → ¬ e.Ends) : y.pid = x.pid ∧ y.state ≠ .unused ∧ y.state ≠ .zombie := by
  cases h with
  | kept h =>
    refine ⟨h.pid, ?_⟩
    rcases h.state with hs | ⟨-, hs⟩ | ⟨hq, (hs | hs) | ⟨-, he⟩⟩
    · rwa [hs]
    · simp [hs]
    · simp [hs]
    · simp [hs]
    · exact absurd he (hne hq)
  | taken unused => exact absurd unused hx.1
  | reaped _ zombie => exact absurd zombie hx.2
  | joined _ zombie => exact absurd zombie hx.2

theorem Created.cons {mpid pid : Nat} {p : Kernel × Event} (h : Created l M mpid q pid i) :
    Created (p :: l) M mpid q pid i := by
  obtain ⟨k, k', thread, start, arg, hm, h⟩ := h
  exact ⟨k, k', thread, start, arg, List.mem_cons_of_mem _ hm, h⟩

/-- The thread is left as it is, and its mother lives on. -/
theorem Origin.step {p : Kernel × Event} (h : Origin l k q M i)
    (hm : (k'.ptable q).mother = (k.ptable q).mother)
    (hn : (k'.ptable q).threadNum = (k.ptable q).threadNum)
    (hid : (k'.ptable q).pid = (k.ptable q).pid)
    (hp : (k'.ptable q).parent = (k.ptable q).parent)
    (hM : (k.ptable q).parent = some M → Live k M →
      (k'.ptable M).pid = (k.ptable M).pid ∧ Live k' M) : Origin (p :: l) k' q M i := by
  refine ⟨hm.trans h.mother, hn.trans h.num, ?_⟩
  rcases h.parent with ⟨hpar, hl, hc⟩ | ⟨hpar, hne⟩
  · obtain ⟨hmid, hl'⟩ := hM hpar hl
    rw [hmid, hid]
    exact .inl ⟨hp.trans hpar, hl', hc.cons⟩
  · exact .inr ⟨hp.trans hpar, hne⟩

/-- The entry that `thread_create` finds free is set when it has made a thread, and the number of the
thread is the place of the entry. -/
theorem threadCreate_entry {thread start arg : Nat} (hp : Paged k)
    (h : step k (.call cur (.threadCreate thread start arg)) = some k')
    (hfree : (k.ptable cur).initThreads.freeThread ≠ none) (hu : (k.ptable q).state = .unused)
    (hr : (k'.ptable q).state = .runnable) :
    ∃ i : Fin NTHREAD, (k.ptable cur).initThreads.exThread i = false ∧
      (k'.ptable cur).exThread i = true ∧ (k'.ptable q).threadNum = i.val := by
  obtain ⟨hrun, -, o, h⟩ := step_call h
  obtain ⟨c, hc, ha⟩ := running_kin hrun
  have hqc : q ≠ cur := by
    rintro rfl
    rw [hu] at hrun
    cases hrun
  have hnone : k.kins q = none := kin_eq_none.mpr hu
  -- a call that makes nobody leaves the slot unused
  have hmade : k'.kins q ≠ none := fun h => nomatch hr.symm.trans (kin_eq_none.mp h)
  cases call_effect hp hrun hc h with
  | quiet kins => exact absurd (kins ▸ hnone) hmade
  | gaveUp kins => exact absurd (kins ▸ hnone) hmade
  | died _ which => rcases which with ⟨h, -⟩ | h <;> cases h
  | joined which => rcases which with ⟨_, _, h, -⟩ | ⟨_, h⟩ <;> cases h
  | barren kins => exact absurd ((congrFun kins q).trans ((update_of_ne hqc ..).trans hnone)) hmade
  | @threaded _ _ _ np _ _ x F _ _ _ _ _ _ _ _ _ _ _ _ given made _ kins =>
    obtain rfl : q = np := by
      by_contra hne
      exact hmade ((congrFun kins q).trans
        ((update_of_ne hne ..).trans ((update_of_ne hqc ..).trans hnone)))
    have hx : k'.kins q = some x := (congrFun kins q).trans (update_self ..)
    have hcur : k'.kins cur = some { c with threads := some F } :=
      (congrFun kins cur).trans ((update_of_ne hqc.symm ..).trans (update_self ..))
    obtain ⟨-, hF⟩ := kin_threads hcur rfl
    obtain ⟨-, hF₀⟩ := kin_threads (initThreads_kin hc) rfl
    -- the entry given is the first free one
    have entry : ∀ {j top}, (c.threads.getD .none).free = some j →
        F = (c.threads.getD .none).give j top → x.threadNum = j.val →
        ∃ i : Fin NTHREAD, (k.ptable cur).initThreads.exThread i = false ∧
          (k'.ptable cur).exThread i = true ∧ (k'.ptable q).threadNum = i.val := by
      intro j top hj hg hn
      refine ⟨j, ?_, ?_, (kin_threadNum hx).trans hn⟩
      · have := List.find?_some hj
        rw [hF₀] at this
        exact of_decide_eq_true this
      · have : (k'.ptable cur).exThread = Function.update _ j true :=
          congrArg Threads.ex (hF.symm.trans hg)
        rw [this, update_self]
    have hst : x.stage ≠ .embryo := by
      intro h
      have := (kin_some hx).1
      rw [hr, h] at this
      cases this
    generalize hs : x.sz = s, hn : x.threadNum = n at given
    cases given with
    | full hno => exact absurd ((kin_initThreads hc).1.trans hno) hfree
    | again hi => exact entry hi rfl hn
    | fresh hi => exact entry hi rfl hn
    | short =>
      cases made with
      | short stage => exact absurd stage hst

end

/-- Every thread in the table has its origin in the history. -/
theorem thread_origin {k₀ k : Kernel} {l : List (Kernel × Event)} {q : Slot} (hb : Booted k₀)
    (r : Trace (fun k e k' => step k e = some k') Paired k₀ l k)
    (hu : (k.ptable q).state ≠ .unused) (hth : (k.ptable q).isthread = true) :
    ∃ M i, Origin l k q M i := by
  induction r with
  | refl =>
    obtain ⟨hself, hother, -⟩ := hb.cards
    by_cases e : q = initproc
    · subst e
      cases hth.symm.trans (congrArg Card.isthread hself)
    · cases hth.symm.trans (congrArg Card.isthread (hother q e))
  | @more k k' e l r hG hstep ih =>
    have hp : Paged k := SysRun.paged ⟨k₀, hb, r.run.mono fun _ _ _ => trivial⟩
    cases e with
    | dispatch s =>
      obtain ⟨hm, rfl⟩ := step_dispatch hstep
      have hc := dispatch_card k s
      have hused : (k.ptable q).state ≠ .unused := by
        by_cases e : q = s
        · exact e ▸ hm.live.1
        · rw [Kernel.set_ptable, update_of_ne e] at hu
          exact hu
      obtain ⟨M, i, ho⟩ := ih hused ((congrArg Card.isthread (hc q)).symm.trans hth)
      refine ⟨M, i, ho.step (congrArg Card.mother (hc q)) (congrArg Card.threadNum (hc q))
        (congrArg Card.pid (hc q)) (congrArg Card.parent (hc q)) fun _ hl => ?_⟩
      refine ⟨congrArg Card.pid (hc M), ?_⟩
      by_cases e : M = s
      · subst e
        simp [Live]
      · rw [Live, Kernel.set_ptable, update_of_ne e]
        exact hl
    | call cur op =>
      obtain ⟨hrun, -, o, hc⟩ := step_call hstep
      have hd := call_cards hc q
      generalize hy : (k'.ptable q).card = y at hd
      have hyu : y.state ≠ .unused := hy ▸ hu
      have hyth : y.isthread = true := hy ▸ hth
      cases hd with
      | kept hd =>
        -- a slot that is used was used: else it is that of the caller, who runs
        have hused : (k.ptable q).state ≠ .unused := by
          intro h
          rcases hd.state with hs | ⟨hs, -⟩ | ⟨rfl, -⟩
          · exact hyu (hs.trans h)
          · cases h.symm.trans hs
          · cases h.symm.trans hrun
        obtain ⟨M, i, ho⟩ := ih hused (hd.isthread.symm.trans hyth)
        refine ⟨M, i, ?_⟩
        have hm : (k'.ptable q).mother = (k.ptable q).mother :=
          (congrArg Card.mother hy).trans hd.mother
        have hn : (k'.ptable q).threadNum = (k.ptable q).threadNum :=
          (congrArg Card.threadNum hy).trans hd.threadNum
        rcases hd.parent with hpar | ⟨hpar, hpar', hends⟩
        · have hpar : (k'.ptable q).parent = (k.ptable q).parent :=
            (congrArg Card.parent hy).trans hpar
          refine ho.step hm hn ((congrArg Card.pid hy).trans hd.pid) hpar fun hM hl => ?_
          refine (call_cards hc M).live hl ?_
          rintro rfl hends
          exact (call_orphans hc hends).2 q (hpar.trans hM)
        · -- the parent ends: it is the mother, and not init
          have hne := (call_orphans hc hends).1
          refine ⟨hm.trans ho.mother, hn.trans ho.num,
            .inr ⟨(congrArg Card.parent hy).trans hpar', ?_⟩⟩
          rcases ho.parent with ⟨h, -⟩ | ⟨h, hM⟩
          · exact Option.some.inj (h.symm.trans hpar) ▸ hne
          · exact hM
      | taken unused _ pid _ fresh =>
        cases fresh with
        | failed _ _ isthread => cases hyth.symm.trans isthread
        | child _ _ _ isthread => cases hyth.symm.trans isthread
        | @thread thread start arg create state parent _ mother =>
          subst create
          have hstate : (k'.ptable q).state = .runnable := (congrArg Card.state hy).trans state
          obtain ⟨i, hi, hi', hn⟩ := threadCreate_entry hp hstep hG.1 unused hstate
          have hcur := (call_cards hc cur).live (x := (k.ptable cur).card)
            (by rw [show (k.ptable cur).card.state = .running from hrun]; exact ⟨by decide, by decide⟩)
            fun _ => id
          refine ⟨cur, i, (congrArg Card.mother hy).trans mother, hn,
            .inl ⟨(congrArg Card.parent hy).trans parent, hcur.2, ?_⟩⟩
          exact ⟨k, k', thread, start, arg, List.mem_cons_self .., hstep, hcur.1.symm,
            ⟨unused, hstate, rfl⟩, hi, hi', hn⟩
      | reaped => exact absurd rfl hyu
      | joined => exact absurd rfl hyu

/-! ### What a join frees -/

section

variable {k k' : Kernel} {cur q : Slot} {e : Call}

theorem joinReap_clears {i : Fin NTHREAD} (h : joinReap k cur q = .ok k') (hne : cur ≠ q)
    (hn : (k.ptable q).threadNum = i.val) :
    (k'.ptable cur).exThread = Function.update (k.ptable cur).exThread i false := by
  rw [joinReap] at h
  obtain ⟨k₁, h₁, h⟩ := bind_ok.mp h
  obtain ⟨p, m, -, -, rfl⟩ := kfreeStack_ok h₁
  obtain ⟨c, h₂, h⟩ := bind_ok.mp h
  cases h
  simp only [Kernel.set_ptable, Kernel.setMem_ptable, update_self, update_of_ne hne,
    Proc.clearEx, hn] at h₂ ⊢
  rw [dif_pos ⟨Int.natCast_nonneg _, by omega⟩] at h₂
  cases h₂
  rfl

/-- A slot freed by a join was that of a zombie child with the pid, and the join cleared the entry
its number names. -/
theorem join_frees {t : Int} (he : e.joinId k = some t) (h : step k (.call cur e) = some k')
    (hr : Reaps q k k') :
    (k.ptable q).parent = some cur ∧ ((k.ptable q).pid : Int) = t ∧ (k.ptable q).state = .zombie ∧
      ∀ i : Fin NTHREAD, (k.ptable q).threadNum = i.val →
        (k'.ptable cur).exThread = Function.update (k.ptable cur).exThread i false := by
  obtain ⟨hrun, -, o, hc⟩ := step_call h
  obtain ⟨hu, hu'⟩ := hr
  have hd := call_cards hc q
  have hdu : (k'.ptable q).card.state = .unused := hu'
  generalize (k'.ptable q).card = y at hd hdu
  -- of what a call can do to a slot, this is a join
  cases hd with
  | kept hd => exact absurd (hd.unused hdu) hu
  | taken unused => exact absurd unused hu
  | reaped wait =>
    subst wait
    cases he
  | joined which zombie parent =>
    -- it freed the child it found
    have clears : ∀ {k₁ k₂ s}, SameCards k k₁ →
        (k₁.ptable cur).exThread = (k.ptable cur).exThread → joinReap k₁ cur s = .ok k₂ →
        k'.ptable = k₂.ptable → ∀ i : Fin NTHREAD, (k.ptable q).threadNum = i.val →
        (k'.ptable cur).exThread = Function.update (k.ptable cur).exThread i false := by
      intro k₁ k₂ s hs hex hj hk i hi
      obtain rfl : q = s := by
        by_contra hne
        have := congrArg Card.state ((joinReap_cards hj).other q hne)
        rw [← hk] at this
        exact hu ((hs.state q).symm.trans (this.symm.trans hu'))
      rw [hk, ← hex]
      refine joinReap_clears hj ?_ ((congrArg Card.threadNum (hs.card q)).trans hi)
      rintro rfl
      exact nomatch zombie.symm.trans hrun
    rcases which with ⟨t, a, rfl, hid⟩ | ⟨s, rfl, hps, hzs, hid⟩
    · cases he
      refine ⟨parent, hid, zombie, ?_⟩
      obtain ⟨⟨r, k₁⟩, h₁, hc⟩ := bind_ok.mp hc
      cases hc
      rw [joinCall] at h₁
      obtain ⟨⟨v, k₂⟩, h₂, h₁⟩ := bind_ok.mp h₁
      rcases threadJoin_frees h₂ with ⟨s, -, -, -, rfl, hj⟩ | ⟨hno, -⟩
      · obtain ⟨d, -, h₁⟩ := bind_ok.mp h₁
        obtain ⟨m, -, h₁⟩ := bind_ok.mp h₁
        cases h₁
        exact clears (.refl k) rfl hj rfl
      · exact absurd zombie (hno q parent hid)
    · cases he
      refine ⟨parent, congrArg _ hid, zombie, ?_⟩
      obtain ⟨⟨r, k₁⟩, h₁, hc⟩ := bind_ok.mp hc
      cases hc
      rcases (exitVisit_cases h₁).2 with ⟨hne, -⟩ | ⟨-, -, s', -, -, -, hj⟩ | ⟨-, hne, -⟩
      · exact absurd hps hne
      · refine clears (exiting_cards k cur) ?_ hj rfl
        rw [Kernel.set_ptable, update_self]
      · exact absurd hzs hne

end

/-- **What `thread_join` frees.**  In every run in which `thread_create` finds a free entry and the
children that `thread_join` may free are threads its caller has created: what a `thread_join`, or
one that `exit` makes, frees was made by `thread_create` of its caller, its number is a place in
`ex_thread`, and the entry that is cleared is the one that was set then. -/
theorem join_reaps_created {k₀ k k' : Kernel} {l : List (Kernel × Event)} {cur q : Slot} {e : Call}
    (hb : Booted k₀) (r : Trace (fun k e k' => step k e = some k') Paired k₀ l k)
    (hG : Paired k (.call cur e)) (hj : (e.joinId k).isSome)
    (h : step k (.call cur e) = some k') (hr : Reaps q k k') :
    ∃ i : Fin NTHREAD, Created l cur (k.ptable cur).pid q (k.ptable q).pid i ∧
      (k.ptable q).threadNum = i.val ∧
      (k'.ptable cur).exThread = Function.update (k.ptable cur).exThread i false := by
  obtain ⟨t, ht⟩ := Option.isSome_iff_exists.mp hj
  obtain ⟨hp, hid, hz, hclear⟩ := join_frees ht h hr
  obtain ⟨hth, hm⟩ := hG.2 q (hid ▸ ht) hp hz
  obtain ⟨M, i, ho⟩ := thread_origin hb r hr.1 hth
  cases hm.symm.trans ho.mother
  rcases ho.parent with ⟨-, -, hc⟩ | ⟨hi, hne⟩
  · exact ⟨i, hc, ho.num, hclear i ho.num⟩
  · exact absurd (Option.some.inj (hp.symm.trans hi)) hne

/-- Init creates a thread, which ends and is joined. -/
theorem join_reaps_created_thread : ∃ k₀ l k k', Booted k₀ ∧
    Trace (fun k e k' => step k e = some k') Paired k₀ l k ∧
    step k (.call 0 (.threadJoin 2 0)) = some k' ∧ Reaps 1 k k' ∧
    ∃ i, Created l 0 (k.ptable 0).pid 1 (k.ptable 1).pid i := by
  obtain ⟨k, ⟨k₀, hb, r⟩, hG, k', hk', hr⟩ := exists_sysRun Paired 90
    [.dispatch 0, .call 0 (.threadCreate 0 0 0), .dispatch 1, .call 1 (.threadExit 7)]
    (fun k => Paired k (.call 0 (.threadJoin 2 0)) ∧
      ∃ k', step k (.call 0 (.threadJoin 2 0)) = some k' ∧
        (k.ptable 1).state ≠ .unused ∧ (k'.ptable 1).state = .unused) (by decide +kernel)
  obtain ⟨l, tr⟩ := r.trace
  obtain ⟨i, hc, -⟩ := join_reaps_created hb tr hG rfl hk' hr
  exact ⟨k₀, l, k, k', hb, tr, hk', hr, i, hc⟩

/-- A child of init creates a thread in slot 2 and joins it; then init forks a process into the slot
and joins that one when it has ended: made by `fork`, and with the number -1. -/
theorem join_frees_forked : ∃ k k', SysRun (fun _ _ => True) k ∧
    step k (.call 0 (.threadJoin 4 0)) = some k' ∧ Reaps 2 k k' ∧
    (k.ptable 2).isthread = false ∧ (k.ptable 2).threadNum = -1 := by
  obtain ⟨k, r, k', h⟩ := exists_sysRun (fun _ _ => True) 300
    [.dispatch 0, .call 0 .fork, .dispatch 1, .call 1 (.threadCreate 0 0 0), .dispatch 2,
      .call 2 (.threadExit 0), .call 1 (.threadJoin 3 0), .call 0 .fork, .dispatch 2, .call 2 .exit]
    (fun k => ∃ k', step k (.call 0 (.threadJoin 4 0)) = some k' ∧
      ((k.ptable 2).state ≠ .unused ∧ (k'.ptable 2).state = .unused) ∧
      (k.ptable 2).isthread = false ∧ (k.ptable 2).threadNum = -1) (by decide +kernel)
  exact ⟨k, k', r, h⟩

/-! ### Who is in `thread_join` -/

/-- The last call of the process in the slot `cur`, and the kernel it was made in. -/
def lastCall (cur : Slot) : List (Kernel × Event) → Option (Kernel × Call)
  | [] => none
  | (_, .dispatch _) :: l => lastCall cur l
  | (k, .call s e) :: l => if s = cur then some (k, e) else lastCall cur l

/-- The process in the slot `cur` is in `thread_join(t)`: it has gone to sleep there, and has made no
call since; when it is woken, its next call is another scan. -/
def InJoin (l : List (Kernel × Event)) (cur : Slot) (t : BitVec 32) : Prop :=
  ∃ k a k', lastCall cur l = some (k, .threadJoin t a) ∧
    call k cur (.threadJoin t a) = .ok (.leaves, k')

/-- The process has a child with the pid, which is not UNUSED. -/
def HasChild (k : Kernel) (cur : Slot) (t : BitVec 32) : Prop :=
  ∃ q, (k.ptable q).parent = some cur ∧ ((k.ptable q).pid : Int) = t.toInt ∧
    (k.ptable q).state ≠ .unused

instance (k : Kernel) (cur : Slot) (t : BitVec 32) : Decidable (HasChild k cur t) :=
  inferInstanceAs (Decidable (∃ _, _))

/-- `thread_join` names a child of its caller. -/
def Named (k : Kernel) : Event → Prop
  | .call cur (.threadJoin t _) => HasChild k cur t
  | _ => True

instance (k : Kernel) : DecidablePred (Named k)
  | .dispatch _ => .isTrue trivial
  | .call cur e => by
    match e with
    | .fork | .exit | .exitVisit _ | .wait | .threadCreate .. | .threadExit _ | .threadJoin ..
    | .setCpuShare _ | .sbrk _ | .exec .. | .kill _ | .sleep _ | .wakeup _ | .yield =>
      unfold Named
      infer_instance

section

variable {k k' : Kernel} {cur : Slot} {t : BitVec 32}

/-- A change of one process that leaves its parent and its pid, and does not free it. -/
theorem hasChild_set {s : Slot} {f : Proc → Proc}
    (hp : (f (k.ptable s)).parent = (k.ptable s).parent)
    (hid : (f (k.ptable s)).pid = (k.ptable s).pid) (hu : (k.ptable s).state ≠ .unused)
    (hu' : (f (k.ptable s)).state ≠ .unused) : HasChild (k.set s f) cur t ↔ HasChild k cur t := by
  refine exists_congr fun q => ?_
  rw [Kernel.set_ptable]
  by_cases e : q = s
  · subst e
    rw [update_self, hp, hid]
    simp only [ne_eq, hu, hu', not_false_eq_true]
  · rw [update_of_ne e]

/-- What another process does leaves a process its children. -/
theorem HasChild.other {s : Slot} {e : Call} (h : HasChild k cur t) (hne : s ≠ cur)
    (hstep : step k (.call s e) = some k') : HasChild k' cur t := by
  obtain ⟨-, -, o, hc⟩ := step_call hstep
  obtain ⟨q, hp, hid, hu⟩ := h
  have own : (k.ptable q).card.parent ≠ some s := fun h => hne (Option.some.inj (h.symm.trans hp))
  have hd := call_cards hc q
  generalize hy : (k'.ptable q).card = y at hd
  cases hd with
  | kept hd =>
    refine ⟨q, ?_, ?_, fun h => hu (hd.unused (hy ▸ h))⟩
    · rcases hd.parent with hpar | ⟨hpar, -⟩
      · exact (congrArg Card.parent hy).trans (hpar.trans hp)
      · exact absurd hpar own
    · rw [show (k'.ptable q).pid = (k.ptable q).pid from (congrArg Card.pid hy).trans hd.pid, hid]
  | taken unused => exact absurd unused hu
  | reaped _ _ parent => exact absurd parent own
  | joined _ _ parent => exact absurd parent own

/-- A scan that found nothing changes the state of the caller and nothing else. -/
theorem join_sleeps {a : Nat} (h : call k cur (.threadJoin t a) = .ok (.leaves, k')) :
    k' = sleep k cur (.proc cur) := by
  obtain ⟨⟨r, k₁⟩, h₁, h⟩ := bind_ok.mp h
  rw [joinCall] at h₁
  obtain ⟨⟨v, k₂⟩, h₂, h₁⟩ := bind_ok.mp h₁
  rcases threadJoin_frees h₂ with ⟨s, -, -, -, rfl, -⟩ | ⟨-, rfl, rfl⟩
  · obtain ⟨d, -, h₁⟩ := bind_ok.mp h₁
    obtain ⟨m, -, h₁⟩ := bind_ok.mp h₁
    cases h₁
    cases h
  · cases h₁
    cases h
    rfl

end

/-- **Who is in `thread_join`.**  In every run in which `thread_join` names children of its caller,
whoever is in `thread_join(t)`, asleep or woken for another scan, has a child with the pid `t` that
is not UNUSED.  And a scan for a pid that no child has goes to sleep. -/
theorem joiner_has_child {k₀ k : Kernel} {l : List (Kernel × Event)}
    (r : Trace (fun k e k' => step k e = some k') Named k₀ l k) :
    (∀ cur t, InJoin l cur t → HasChild k cur t) ∧
      ∀ cur t a k', step k (.call cur (.threadJoin t a)) = some k' → ¬ HasChild k cur t →
        (k'.ptable cur).state = .sleeping ∧ ¬ HasChild k' cur t := by
  refine ⟨fun cur t hin => ?_, fun cur t a k' hstep hno => ?_⟩
  · induction r with
    | refl =>
      obtain ⟨_, _, _, h, -⟩ := hin
      cases h
    | @more k k' e l r hG hstep ih =>
      cases e with
      | dispatch s =>
        obtain ⟨hm, rfl⟩ := step_dispatch hstep
        refine (hasChild_set rfl rfl hm.live.1 ?_).mpr (ih hin)
        exact State.noConfusion
      | call s op =>
        obtain ⟨k₁, a, k₂, hlast, hcall⟩ := hin
        rw [lastCall] at hlast
        by_cases e : s = cur
        · subst e
          rw [if_pos rfl] at hlast
          cases hlast
          obtain ⟨hrun, -, o, hc⟩ := step_call hstep
          cases hc.symm.trans hcall
          obtain rfl := join_sleeps hcall
          refine (hasChild_set rfl rfl (by rw [hrun]; decide) ?_).mpr hG
          exact State.noConfusion
        · rw [if_neg e] at hlast
          exact (ih ⟨k₁, a, k₂, hlast, hcall⟩).other e hstep
  · obtain ⟨hrun, -, o, hc⟩ := step_call hstep
    -- no zombie is found, so the scan sleeps
    obtain rfl : o = .leaves := by
      obtain ⟨⟨v, k₁⟩, h₁, hc⟩ := bind_ok.mp hc
      cases hc
      rw [joinCall] at h₁
      obtain ⟨⟨w, k₂⟩, h₂, h₁⟩ := bind_ok.mp h₁
      rcases threadJoin_frees h₂ with ⟨s, hp, hid, hz, -⟩ | ⟨-, rfl, -⟩
      · exact absurd ⟨s, hp, hid, by rw [hz]; decide⟩ hno
      · cases h₁
        rfl
    obtain rfl := join_sleeps hc
    refine ⟨by rw [sleep, Kernel.set_ptable, update_self], fun h => hno ?_⟩
    refine (hasChild_set rfl rfl (by rw [hrun]; decide) ?_).mp h
    exact State.noConfusion

/-- Init joins a thread that has not ended, and is asleep in it. -/
theorem joiner_has_child_thread : ∃ k₀ l k, Booted k₀ ∧
    Trace (fun k e k' => step k e = some k') Named k₀ l k ∧ InJoin l 0 2 ∧
    (k.ptable 0).state = .sleeping ∧ HasChild k 0 2 := by
  obtain ⟨k, ⟨k₀, hb, r⟩, hrun, hG, k', hcall, hs⟩ := exists_sysRun Named 90
    [.dispatch 0, .call 0 (.threadCreate 0 0 0)]
    (fun k => (k.ptable 0).state = .running ∧ HasChild k 0 2 ∧
      ∃ k', call k 0 (.threadJoin 2 0) = .ok (.leaves, k') ∧ (k'.ptable 0).state = .sleeping)
    (by decide +kernel)
  have hstep : step k (.call 0 (.threadJoin 2 0)) = some k' := by
    rw [step, if_pos ⟨hrun, trivial⟩, hcall]
    rfl
  obtain ⟨l, tr⟩ := r.trace
  have tr' := tr.more (show Named k (.call 0 (.threadJoin 2 0)) from hG) hstep
  have hin : InJoin ((k, .call 0 (.threadJoin 2 0)) :: l) 0 2 := ⟨k, 0, k', if_pos rfl, hcall⟩
  exact ⟨k₀, _, k', hb, tr', hin, hs, (joiner_has_child tr').1 0 2 hin⟩

/-- Init joins a pid that nobody has, and sleeps. -/
theorem join_sleeps_alone : ∃ k k', SysRun (fun _ _ => True) k ∧
    step k (.call 0 (.threadJoin 9 0)) = some k' ∧ (k'.ptable 0).state = .sleeping ∧
    (k'.ptable 0).chan = some (.proc 0) ∧ ¬ HasChild k' 0 9 := by
  obtain ⟨k, r, k', h⟩ := exists_sysRun (fun _ _ => True) 90 [.dispatch 0]
    (fun k => ∃ k', step k (.call 0 (.threadJoin 9 0)) = some k' ∧ (k'.ptable 0).state = .sleeping ∧
      (k'.ptable 0).chan = some (.proc 0) ∧ ¬ HasChild k' 0 9) (by decide +kernel)
  exact ⟨k, k', r, h⟩

end Xv6.Kern
