import Xv6.Proc.Sizes

/-!
# Proc — threads and their numbers

`ex_thread` of a process says which of its stacks are in use; the number of a stack is kept in the
slot of the thread.  Under the discipline of `Tidy` the entries that are set are the numbers of the
threads that are not joined, one each (`Team`).
-/

namespace Xv6.Kern

open Function (update_self update_of_ne)
open Support (update_some update_none)
open Vm (Page Mem)

/-- `y` is the kin of a thread of `M` that has not been joined. -/
def Kin.ThreadOf (y : Kin) (M : Slot) : Prop := y.isthread = true ∧ y.parent = some M

/-- The thread table of a process names each of its threads, and nobody else. -/
structure Team (kins : Slot → Option Kin) : Prop where
  mother : ∀ t y, kins t = some y → y.isthread = true → ∃ M z F i, y.parent = some M ∧
    kins M = some z ∧ z.stage = .alive ∧ z.isthread = false ∧ z.threads = some F ∧
    y.pgdir = z.pgdir ∧ y.threadNum = (i : Fin NTHREAD).val ∧ F.ex i = true ∧ y.sz = F.sz i
  distinct : ∀ M t u y w, t ≠ u → kins t = some y → kins u = some w → y.ThreadOf M →
    w.ThreadOf M → y.threadNum ≠ w.threadNum
  used : ∀ M z F i, kins M = some z → z.stage = .alive → z.threads = some F → F.ex i = true →
    ∃ t y, kins t = some y ∧ y.ThreadOf M ∧ y.threadNum = i.val

namespace Team

variable {kins : Slot → Option Kin} {cur s np : Slot} {c x : Kin}

section

variable (h : Team kins)
include h

/-- A process that is no thread changes, but not its table; or it has none, and gets an empty one. -/
theorem update (hc : kins cur = some c) {c' : Kin} (hth : c.isthread = false)
    (hth' : c'.isthread = false) (hst : c'.stage = c.stage)
    (hF : c'.threads = c.threads ∧ c'.pgdir = c.pgdir ∨
      c.threads = none ∧ ∀ F, c'.threads = some F → ∀ i, F.ex i = false) :
    Team (Function.update kins cur (some c')) := by
  have hthread : ∀ t y, Function.update kins cur (some c') t = some y → y.isthread = true →
      t ≠ cur ∧ kins t = some y := by
    intro t y hy ht
    rcases update_some hy with ⟨rfl, rfl⟩ | h
    · rw [hth'] at ht
      cases ht
    · exact h
  constructor
  · intro t y hy ht
    obtain ⟨M, z, F, i, hp, hz, hza, hzt, hzF, hd, hn, hex, hsz⟩ := h.mother t y (hthread t y hy ht).2 ht
    by_cases e : M = cur
    · subst e
      rw [hc] at hz
      cases hz
      rcases hF with ⟨hF, hdir⟩ | ⟨hF, -⟩
      · exact ⟨M, c', F, i, hp, update_self .., hst.trans hza, hth', hF.trans hzF,
          hd.trans hdir.symm, hn, hex, hsz⟩
      · rw [hF] at hzF
        cases hzF
    · exact ⟨M, z, F, i, hp, by rw [update_of_ne e, hz], hza, hzt, hzF, hd, hn, hex, hsz⟩
  · intro M t u y w hne hy hw hty huw
    exact h.distinct M t u y w hne (hthread t y hy hty.1).2 (hthread u w hw huw.1).2 hty huw
  intro M z F i hz hza hzF hex
  have hstay : ∀ t y, kins t = some y → y.isthread = true →
      Function.update kins cur (some c') t = some y := by
    intro t y hy ht
    rw [update_of_ne, hy]
    rintro rfl
    rw [hc] at hy
    cases hy
    rw [hth] at ht
    cases ht
  have hM : ∃ z, kins M = some z ∧ z.stage = .alive ∧ z.threads = some F := by
    rcases update_some hz with ⟨rfl, rfl⟩ | ⟨-, hz⟩
    · rcases hF with ⟨hF, -⟩ | ⟨-, hF⟩
      · exact ⟨c, hc, hst.symm.trans hza, hF.symm.trans hzF⟩
      · rw [hF F hzF i] at hex
        cases hex
    · exact ⟨z, hz, hza, hzF⟩
  obtain ⟨z, hz, hza, hzF⟩ := hM
  obtain ⟨t, y, hy, hty, hn⟩ := h.used M z F i hz hza hzF hex
  exact ⟨t, y, hstay t y hy hty.1, hty, hn⟩

/-- A zombie that is no thread goes. -/
theorem remove (hx : kins s = some x) (hz : x.stage = .zombie)
    (hth : x.isthread = false) : Team (Function.update kins s none) := by
  constructor
  · intro t y hy ht
    obtain ⟨M, z, F, i, hp, hM, hza, hrest⟩ := h.mother t y (update_none hy).2 ht
    refine ⟨M, z, F, i, hp, ?_, hza, hrest⟩
    rw [update_of_ne, hM]
    rintro rfl
    rw [hx] at hM
    cases hM
    rw [hz] at hza
    cases hza
  · intro M t u y w hne hy hw
    exact h.distinct M t u y w hne (update_none hy).2 (update_none hw).2
  intro M z F i hM hza hzF hex
  obtain ⟨t, y, hy, hty, hn⟩ := h.used M z F i (update_none hM).2 hza hzF hex
  refine ⟨t, y, ?_, hty, hn⟩
  rw [update_of_ne, hy]
  rintro rfl
  rw [hx] at hy
  cases hy
  have := hty.1
  rw [hth] at this
  cases this

/-- A process without threads is added. -/
theorem add (hnew : kins np = none) (hth : x.isthread = false)
    (hF : x.threads = none) : Team (Function.update kins np (some x)) := by
  have hstay : ∀ t y, kins t = some y → Function.update kins np (some x) t = some y := by
    intro t y hy
    rw [update_of_ne, hy]
    rintro rfl
    rw [hnew] at hy
    cases hy
  have hthread : ∀ t y, Function.update kins np (some x) t = some y → y.isthread = true →
      kins t = some y := by
    intro t y hy ht
    rcases update_some hy with ⟨rfl, rfl⟩ | h
    · rw [hth] at ht
      cases ht
    · exact h.2
  constructor
  · intro t y hy ht
    obtain ⟨M, z, F, i, hp, hM, hrest⟩ := h.mother t y (hthread t y hy ht) ht
    exact ⟨M, z, F, i, hp, hstay M z hM, hrest⟩
  · intro M t u y w hne hy hw hty huw
    exact h.distinct M t u y w hne (hthread t y hy hty.1) (hthread u w hw huw.1) hty huw
  intro M z F i hM hza hzF hex
  rcases update_some hM with ⟨rfl, rfl⟩ | ⟨-, hM⟩
  · rw [hF] at hzF
    cases hzF
  · obtain ⟨t, y, hy, hty, hn⟩ := h.used M z F i hM hza hzF hex
    exact ⟨t, y, hstay t y hy, hty, hn⟩

/-- A thread with a number that was not in use. -/
theorem addThread {F : Threads} {i : Fin NTHREAD} {top : Nat}
    (hnew : kins np = none) (hc : kins cur = some c)
    (ha : c.stage = .alive) (hth : c.isthread = false)
    (hF : c.threads = some F ∨ c.threads = none ∧ ∀ i, F.ex i = false) (hi : F.ex i = false)
    (hx : x.ThreadOf cur) (hdir : x.pgdir = c.pgdir) (hnum : x.threadNum = i.val)
    (hsz : x.sz = top) (hxF : x.threads = none) :
    Team (Function.update (Function.update kins cur (some { c with threads := some (F.give i top) }))
      np (some x)) := by
  have hnc : np ≠ cur := by
    rintro rfl
    rw [hc] at hnew
    cases hnew
  have hcases : ∀ t y, Function.update (Function.update kins cur
      (some { c with threads := some (F.give i top) })) np (some x) t = some y →
      (t = np ∧ y = x) ∨ (t = cur ∧ y = { c with threads := some (F.give i top) }) ∨
        t ≠ cur ∧ t ≠ np ∧ kins t = some y := by
    intro t y hy
    rcases update_some hy with h | ⟨h₁, hy⟩
    · exact .inl h
    · rcases update_some hy with h | ⟨h₂, hy⟩
      · exact .inr (.inl h)
      · exact .inr (.inr ⟨h₂, h₁, hy⟩)
  have hstay : ∀ t y, t ≠ cur → kins t = some y → Function.update (Function.update kins cur
      (some { c with threads := some (F.give i top) })) np (some x) t = some y := by
    intro t y htc hy
    rw [update_of_ne, update_of_ne htc, hy]
    rintro rfl
    rw [hnew] at hy
    cases hy
  have hcur : Function.update (Function.update kins cur
      (some { c with threads := some (F.give i top) })) np (some x) cur =
      some { c with threads := some (F.give i top) } := by
    rw [update_of_ne hnc.symm, update_self]
  -- a thread that was there has a number of its own
  have hold : ∀ t y, kins t = some y → y.ThreadOf cur → y.threadNum ≠ x.threadNum := by
    intro t y hy hty e
    obtain ⟨M, z, F', j, hp, hz, -, -, hzF, -, hn, hex, -⟩ := h.mother t y hy hty.1
    rw [hty.2] at hp
    cases hp
    rw [hc] at hz
    cases hz
    rcases hF with hF | ⟨hF, -⟩
    · rw [hF] at hzF
      cases hzF
      have hji : j = i := Fin.ext (by rw [hn, hnum] at e; exact_mod_cast e)
      rw [hji, hi] at hex
      cases hex
    · rw [hF] at hzF
      cases hzF
  constructor
  · intro t y hy ht
    rcases hcases t y hy with ⟨rfl, rfl⟩ | ⟨rfl, rfl⟩ | ⟨htc, -, hy⟩
    · exact ⟨cur, _, F.give i top, i, hx.2, hcur, ha, hth, rfl, hdir, hnum,
        update_self .., hsz.trans (update_self i top F.sz).symm⟩
    · exact nomatch hth.symm.trans ht
    obtain ⟨M, z, F', j, hp, hz, hza, hzt, hzF, hd, hn, hex, hs⟩ := h.mother t y hy ht
    by_cases e : M = cur
    · subst e
      rw [hc] at hz
      cases hz
      rcases hF with hF | ⟨hF, -⟩
      · rw [hF] at hzF
        cases hzF
        have hji : j ≠ i := by
          rintro rfl
          rw [hi] at hex
          cases hex
        exact ⟨M, _, F.give i top, j, hp, hcur, ha, hth, rfl, hd, hn,
          (update_of_ne hji ..).trans hex, hs.trans (update_of_ne hji _ F.sz).symm⟩
      · rw [hF] at hzF
        cases hzF
    · exact ⟨M, z, F', j, hp, hstay M z e hz, hza, hzt, hzF, hd, hn, hex, hs⟩
  · intro M t u y w hne hy hw hty huw
    rcases hcases t y hy with ⟨rfl, rfl⟩ | ⟨rfl, rfl⟩ | ⟨-, -, hyt⟩
    · rcases hcases u w hw with ⟨rfl, rfl⟩ | ⟨rfl, rfl⟩ | ⟨-, -, hw⟩
      · exact absurd rfl hne
      · exact nomatch hth.symm.trans huw.1
      · have hM := hty.2.symm.trans hx.2
        cases hM
        exact (hold u w hw huw).symm
    · exact nomatch hth.symm.trans hty.1
    rcases hcases u w hw with ⟨rfl, rfl⟩ | ⟨rfl, rfl⟩ | ⟨-, -, hw⟩
    · have hM := huw.2.symm.trans hx.2
      cases hM
      exact hold t y hyt hty
    · exact nomatch hth.symm.trans huw.1
    · exact h.distinct M t u y w hne hyt hw hty huw
  · intro M z F' j hz hza hzF hex
    rcases hcases M z hz with ⟨rfl, rfl⟩ | ⟨rfl, rfl⟩ | ⟨hMc, -, hz⟩
    · rw [hxF] at hzF
      cases hzF
    · cases hzF
      by_cases e : j = i
      · subst e
        exact ⟨np, x, update_self .., hx, hnum⟩
      have hexj : F.ex j = true := (update_of_ne e ..).symm.trans hex
      rcases hF with hF | ⟨-, hF⟩
      · obtain ⟨t, y, hy, hty, hn⟩ := h.used M c F j hc ha hF hexj
        refine ⟨t, y, hstay t y ?_ hy, hty, hn⟩
        rintro rfl
        rw [hc] at hy
        cases hy
        exact nomatch hth.symm.trans hty.1
      · rw [hF] at hexj
        cases hexj
    · obtain ⟨t, y, hy, hty, hn⟩ := h.used M z F' j hz hza hzF hex
      refine ⟨t, y, hstay t y ?_ hy, hty, hn⟩
      rintro rfl
      rw [hc] at hy
      cases hy
      exact nomatch hth.symm.trans hty.1

/-- A thread is joined, and its number is free again. -/
theorem join (hc : kins cur = some c) (hx : kins s = some x) (hth : x.ThreadOf cur) :
    Team (Function.update (Function.update kins s none) cur
      (some { c with threads := c.threads.map (·.clear x.threadNum) })) := by
  obtain ⟨M, z, F, i, hp, hz, ha, hct, hF, -, hnum, hex, -⟩ := h.mother s x hx hth.1
  rw [hth.2] at hp
  cases hp
  rw [hc] at hz
  cases hz
  have hclear : F.clear x.threadNum = { F with ex := Function.update F.ex i false } := by
    rw [hnum, Threads.clear, dif_pos ⟨by omega, by have := i.isLt; omega⟩]
    rfl
  rw [hF, Option.map_some, hclear]
  have hcases : ∀ t y, Function.update (Function.update kins s none) cur
      (some { c with threads := some { F with ex := Function.update F.ex i false } }) t = some y →
      y.isthread = true → t ≠ s ∧ kins t = some y := by
    intro t y hy ht
    rcases update_some hy with ⟨rfl, rfl⟩ | ⟨-, hy⟩
    · cases hct.symm.trans ht
    · exact update_none hy
  have hstay : ∀ t y, t ≠ s → kins t = some y → y.isthread = true →
      Function.update (Function.update kins s none) cur
        (some { c with threads := some { F with ex := Function.update F.ex i false } }) t =
          some y := by
    intro t y hts hy ht
    rw [update_of_ne, update_of_ne hts, hy]
    rintro rfl
    rw [hc] at hy
    cases hy
    cases hct.symm.trans ht
  constructor
  · intro t y hy ht
    obtain ⟨hts, hyt⟩ := hcases t y hy ht
    obtain ⟨M, z, F', j, hp, hz, hza, hzt, hzF, hd, hn, hexj, hs⟩ := h.mother t y hyt ht
    by_cases e : M = cur
    · subst e
      rw [hc] at hz
      cases hz
      rw [hF] at hzF
      cases hzF
      have hji : j ≠ i := by
        rintro rfl
        exact h.distinct M t s y x hts hyt hx ⟨ht, hp⟩ hth (hn.trans hnum.symm)
      exact ⟨M, _, _, j, hp, update_self .., ha, hct, rfl, hd, hn,
        (update_of_ne hji ..).trans hexj, hs⟩
    · have hMs : M ≠ s := by
        rintro rfl
        rw [hx] at hz
        cases hz
        cases hzt.symm.trans hth.1
      exact ⟨M, z, F', j, hp, by rw [update_of_ne e, update_of_ne hMs, hz], hza, hzt,
        hzF, hd, hn, hexj, hs⟩
  · intro M t u y w hne hy hw hty huw
    exact h.distinct M t u y w hne (hcases t y hy hty.1).2 (hcases u w hw huw.1).2 hty huw
  intro M z F' j hz hza hzF hexj
  rcases update_some hz with ⟨rfl, rfl⟩ | ⟨hMc, hz⟩
  · cases hzF
    have hexj : Function.update F.ex i false j = true := hexj
    have hji : j ≠ i := by
      rintro rfl
      rw [update_self] at hexj
      cases hexj
    rw [update_of_ne hji] at hexj
    obtain ⟨t, y, hy, hty, hn⟩ := h.used M c F j hc ha hF hexj
    refine ⟨t, y, hstay t y ?_ hy hty.1, hty, hn⟩
    rintro rfl
    rw [hx] at hy
    cases hy
    exact hji (Fin.ext (by rw [hn] at hnum; exact_mod_cast hnum))
  · obtain ⟨hMs, hz⟩ := update_none hz
    obtain ⟨t, y, hy, hty, hn⟩ := h.used M z F' j hz hza hzF hexj
    refine ⟨t, y, hstay t y ?_ hy hty.1, hty, hn⟩
    rintro rfl
    rw [hx] at hy
    cases hy
    exact hMc (Option.some.inj (hty.2.symm.trans hth.2))

end

section

variable (h : Team kins) (hc : kins cur = some c)
  (hgo : c.isthread = true ∨ (c.threads.isSome → ∀ t y, kins t = some y → y.parent ≠ some cur))
include h hc hgo

/-- The parent of a thread has threads and is none, so it does not end like this. -/
theorem not_parent
    {t : Slot} {y : Kin} (hy : kins t = some y) (ht : y.isthread = true) : y.parent ≠ some cur := by
  intro e
  obtain ⟨M, z, F, i, hp, hz, -, hzt, hzF, -⟩ := h.mother t y hy ht
  rw [e] at hp
  cases hp
  rw [hc] at hz
  cases hz
  rcases hgo with hgo | hgo
  · exact nomatch hzt.symm.trans hgo
  · exact hgo (by rw [hzF]; rfl) t y hy e

/-- A thread ends, or a process that has no children if it has had threads. -/
theorem die (v : Nat) : Team fun s => (kins s).map (·.after cur v s) := by
  have hafter : ∀ t y, kins t = some y → y.isthread = true → (y.after cur v t).parent = y.parent :=
    fun t y hy ht => if_neg (h.not_parent hc hgo hy ht)
  constructor
  · intro t y' hy' ht
    obtain ⟨y, hy, rfl⟩ := Option.map_eq_some_iff.mp hy'
    have ht : y.isthread = true := ht
    obtain ⟨M, z, F, i, hp, hz, hza, hrest⟩ := h.mother t y hy ht
    have hM : M ≠ cur := fun e => h.not_parent hc hgo hy ht (e ▸ hp)
    exact ⟨M, z.after cur v M, F, i, (hafter t y hy ht).trans hp, by simp only [hz, Option.map_some],
      (if_neg hM).trans hza, hrest⟩
  · intro M t u y' w' hne hy' hw' hty huw
    obtain ⟨y, hy, rfl⟩ := Option.map_eq_some_iff.mp hy'
    obtain ⟨w, hw, rfl⟩ := Option.map_eq_some_iff.mp hw'
    exact h.distinct M t u y w hne hy hw ⟨hty.1, (hafter t y hy hty.1).symm.trans hty.2⟩
      ⟨huw.1, (hafter u w hw huw.1).symm.trans huw.2⟩
  · intro M z' F i hz' hza hzF hex
    obtain ⟨z, hz, rfl⟩ := Option.map_eq_some_iff.mp hz'
    have hM : M ≠ cur := by
      intro e
      rw [Kin.after, if_pos e] at hza
      cases hza
    obtain ⟨t, y, hy, hty, hn⟩ := h.used M z F i hz ((if_neg hM).symm.trans hza) hzF hex
    exact ⟨t, y.after cur v t, by simp only [hy, Option.map_some],
      ⟨hty.1, (hafter t y hy hty.1).trans hty.2⟩, hn⟩

end

end Team

/-- A stack that no thread uses is given, unless every one is in use. -/
theorem Given.gives {d : Page} {csz sz sz' : Nat} {num num' : Int} {F F' : Threads} {m m' : Mem}
    (h : Given d csz F m sz num F' sz' num' m' true) (hfree : F.free ≠ none) :
    ∃ i top, F.ex i = false ∧ F' = F.give i top ∧ sz' = top ∧ num' = (i : Fin NTHREAD).val := by
  have hex : ∀ i, F.free = some i → F.ex i = false := fun i hi => by
    simpa using List.find?_some hi
  cases h with
  | full h => exact absurd h hfree
  | again h _ => exact ⟨_, _, hex _ h, rfl, rfl, rfl⟩
  | fresh h _ _ _ _ => exact ⟨_, _, hex _ h, rfl, rfl, rfl⟩

/-! ### The discipline -/

/-- Steady, and: a thread neither moves its size nor calls `exec`, and `thread_join` finds a thread. -/
def Tidy (k : Kernel) : Event → Prop
  | .dispatch _ => True
  | .call cur e => Steady k (.call cur e) ∧
      match e with
      | .sbrk n => (k.ptable cur).isthread = true → n.toInt = 0
      | .exec .. => (k.ptable cur).isthread = false
      | .threadJoin thread _ => ∀ s, (k.ptable s).parent = some cur → (k.ptable s).state = .zombie →
          ((k.ptable s).pid : Int) = thread.toInt → (k.ptable s).isthread = true
      | .exitVisit _ => ∀ s, (k.ptable s).parent = some cur → (k.ptable s).state = .zombie →
          (k.ptable s).isthread = true
      | _ => True

instance (k : Kernel) : DecidablePred (Tidy k)
  | .dispatch _ => .isTrue trivial
  | .call cur e => by
    match e with
    | .fork | .exit | .exitVisit _ | .wait | .threadCreate .. | .threadExit _ | .threadJoin ..
    | .setCpuShare _ | .sbrk _ | .exec .. | .kill _ | .sleep _ | .wakeup _ | .yield =>
      unfold Tidy
      infer_instance

theorem Tidy.steady {k : Kernel} {e : Event} (h : Tidy k e) : Steady k e := by
  cases e with
  | dispatch s => trivial
  | call cur e => exact h.1

section

variable {k k' : Kernel} {cur s : Slot} {c x : Kin} {d : Page}

/-- Whom `thread_join` frees is a thread of the caller. -/
theorem Tidy.joined {e : Call} (hG : Tidy k (.call cur e))
    (which : (∃ t a, e = .threadJoin t a ∧ (x.pid : Int) = t.toInt) ∨ ∃ t, e = .exitVisit t)
    (h : Joined k cur c s x k') : x.ThreadOf cur := by
  refine ⟨?_, h.parent⟩
  have hpar := (kin_parent h.kin).trans h.parent
  have hst : (k.ptable s).state = .zombie := by
    have hs := (kin_some h.kin).1
    rw [h.zombie] at hs
    cases hst : (k.ptable s).state <;> rw [hst] at hs <;> simp [State.stage] at hs ⊢
  have hpid : (k.ptable s).pid = x.pid := by
    rw [(kin_some h.kin).2]
    rfl
  rw [← kin_isthread h.kin]
  rcases which with ⟨t, a, rfl, hp⟩ | ⟨t, rfl⟩
  · exact hG.2 s hpar hst (by rw [hpid, hp])
  · exact hG.2 s hpar hst

/-- The size of a thread stays. -/
theorem Tidy.moved {n : BitVec 32} (hG : Tidy k (.call cur (.sbrk n))) (hc : k.kins cur = some c)
    (hf : Family k) (hz : Sizes k) (hth : c.isthread = true) : uadd c.sz n.toInt = c.sz := by
  have hn := hG.2 ((kin_isthread hc).trans hth)
  obtain ⟨d, hd, -⟩ := hf.live cur c hc (hz cur c hc).formed
  have hk := ((hz cur c hc).size d hd).1
  unfold KERNBASE at hk
  have hu := uadd_nonneg (a := c.sz) (n := n.toInt) (by omega) (by omega)
  omega

theorem Effect.team {e : Call} (hf : Family k) (hz : Sizes k) (hG : Tidy k (.call cur e))
    (hr : e.Ready k cur) (hc : k.kins cur = some c) (ha : c.stage = .alive)
    (h : Effect k cur c e k') (ht : Team k.kins) : Team k'.kins := by
  cases h with
  | quiet kins | gaveUp kins => exact kins ▸ ht
  | died _ which kins _ _ _ =>
    rw [kins]
    exact ht.die hc (hG.steady.orderly.ends hr hc which) _
  | born _ new _ kins _ _ _ _ _ =>
    rw [kins]
    exact ht.add new rfl rfl
  | reaped found kin zombie _ _ kins _ _ _ =>
    rw [kins]
    exact ht.remove kin zombie ((kin_isthread kin).symm.trans (hG.steady.orderly.2 _ found))
  | joined which h =>
    rw [h.kins]
    exact ht.join hc h.kin (hG.joined which h)
  | barren kins _ _ _ =>
    rw [kins]
    have hth := (hG.steady.orderly.isthread hc).1 _ _ _ rfl
    refine ht.update hc hth hth rfl ?_
    cases hF : c.threads with
    | none => exact .inr ⟨rfl, by rintro _ ⟨⟩ _; rfl⟩
    | some F => exact .inl ⟨rfl, rfl⟩
  | threaded new _ dir free dirs own given made _ kins shared _ _ _ _ _ =>
    rw [kins]
    obtain ⟨rfl, -, -, -, -, stage, thread, parent, threads⟩ :=
      hz.created hG.steady hc ha dir free dirs own given made
    obtain ⟨j, top, hex, rfl, hsz, hnum⟩ := given.gives (hG.steady.room hc).1
    refine ht.addThread new hc ha ((hG.steady.orderly.isthread hc).1 _ _ _ rfl) ?_ hex
      ⟨thread, parent⟩ (shared.trans dir.symm) hnum hsz threads
    cases hF : c.threads with
    | none => exact .inr ⟨rfl, fun _ => rfl⟩
    | some F => exact .inl rfl
  | left thread _ _ _ _ _ =>
    exact nomatch thread.symm.trans ((kin_isthread hc).symm.trans hG.2)
  | replaced process _ kins _ _ _ _ _ =>
    rw [kins]
    have hs := hG.steady.exec hc
    exact ht.update hc process process rfl (.inr ⟨hs, fun F hF => nomatch hs.symm.trans hF⟩)
  | moved thread kins _ _ _ =>
    rw [kins, hG.moved hc hf hz thread, ← hc, Function.update_eq_self]
    exact ht
  | resized process _ kins _ _ _ _ =>
    rw [kins]
    exact ht.update hc process process rfl (.inl ⟨rfl, rfl⟩)

end

end Xv6.Kern
