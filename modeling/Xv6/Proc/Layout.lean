import Xv6.Proc.Team

/-!
# Proc — where the stacks of threads lie

`sz_thread` of a process says which stacks it has mapped: three pages each, the first from the size of
the process on and each other from the one before.  Under the discipline of `Tidy` they lie one above
the other with nothing mapped above the last (`Layout`); so the stacks of two threads are disjoint, and
a new one is mapped where nothing is.

`thread_create` does not notice that all stacks are in use: the new thread then runs on whatever size
its slot had before (`thread_without_stack`).
-/

namespace Xv6.Kern

open Function (update_self update_of_ne)
open Support (Run update_some update_none find?_finRange_lt)
open Vm (Page Mem Bare)

/-! ### Layout -/

/-- The stacks of a process of size `sz` stand one above the other, with their guard page below and
a page above, and nothing is mapped above the last. -/
structure Layout (m : Mem) (d : Page) (sz : Nat) (F : Threads) : Prop where
  used : ∀ i, F.ex i = true → F.sz i ≠ 0
  above : ∀ i, F.sz i ≠ 0 → sz + 2 * PGSIZE ≤ F.sz i
  order : ∀ i j, i < j → F.sz i = 0 → F.sz j = 0
  spaced : ∀ i j, i < j → F.sz j ≠ 0 → F.sz i + 3 * PGSIZE ≤ F.sz j
  bare : ∀ b, sz ≤ b → (∀ i, F.sz i ≠ 0 → F.sz i + PGSIZE ≤ b) → Bare m d b

namespace Layout

variable {m m' : Mem} {d : Page} {sz : Nat} {F : Threads} {i : Fin NTHREAD}

theorem none (h : Bare m d sz) : Layout m d sz .none where
  used := fun _ h => nomatch h
  above := fun _ h => absurd rfl h
  order := fun _ _ _ _ => rfl
  spaced := fun _ _ _ h => absurd rfl h
  bare := fun _ hb _ => h.mono hb

section

variable (h : Layout m d sz F)
include h

theorem congr (hd : m'.dirs d = m.dirs d) : Layout m' d sz F :=
  { h with bare := fun b hb htop => (h.bare b hb htop).congr hd }

theorem clear {n : Int} (hn : 0 ≤ n ∧ n < NTHREAD) : Layout m d sz (F.clear n) := by
  rw [Threads.clear, dif_pos hn]
  refine { h with used := fun j hj => h.used j ?_ }
  by_contra hex
  refine hex ?_
  have hj : Function.update F.ex ⟨n.toNat, by omega⟩ false j = true := hj
  rw [Function.update_apply] at hj
  split at hj
  · cases hj
  · exact hj

/-- A new stack goes above all the others. -/
theorem base_above (hs : Stacks m d F) (hi : F.free = some i) :
    sz ≤ F.base sz i ∧ ∀ j, j < i → F.sz j + PGSIZE ≤ F.base sz i := by
  rw [Threads.base]
  split
  · rename_i h₀
    refine ⟨Nat.le_refl _, fun j hj => ?_⟩
    rw [Fin.lt_def] at hj
    omega
  · rename_i hpos
    have hlt : (⟨i.val - 1, by omega⟩ : Fin NTHREAD) < i := by
      rw [Fin.lt_def]
      simp only
      omega
    have hex : F.ex ⟨i.val - 1, by omega⟩ = true := by simpa using find?_finRange_lt hi hlt
    have hne := h.used _ hex
    have hk := (hs.top _ hne).1
    have ha := h.above _ hne
    rw [Nat.mod_eq_of_lt (by unfold KERNBASE at hk; omega)]
    refine ⟨by omega, fun j hj => ?_⟩
    by_cases e : j = ⟨i.val - 1, by omega⟩
    · rw [e]
    have hj' : j < ⟨i.val - 1, by omega⟩ := by
      rw [Fin.lt_def] at hj ⊢
      have hv : j.val ≠ i.val - 1 := fun hv => e (Fin.ext hv)
      simp only
      omega
    have := h.spaced j _ hj' hne
    omega

/-- Nothing is mapped where a new stack goes. -/
theorem base_bare (hs : Stacks m d F) (hi : F.free = some i)
    (hz : F.sz i = 0) : Bare m d (F.base sz i) := by
  obtain ⟨ha, hb⟩ := h.base_above hs hi
  refine h.bare _ ha fun j hj => hb j ?_
  rcases lt_trichotomy j i with hlt | rfl | hgt
  · exact hlt
  · exact absurd hz hj
  · exact absurd (h.order i j hgt hz) hj

/-- A stack that was given before. -/
theorem again (hz : F.sz i ≠ 0) : Layout m d sz (F.give i (F.sz i)) := by
  rw [Threads.give, Function.update_eq_self]
  refine { h with used := fun j hj => ?_ }
  by_cases e : j = i
  · subst e
    exact hz
  · exact h.used j ((update_of_ne e ..).symm.trans hj)

/-- A new stack. -/
theorem fresh (hs : Stacks m d F) (hi : F.free = some i) (hz : F.sz i = 0)
    (hb : Bare m' d (F.base sz i + 3 * PGSIZE)) :
    Layout m' d sz (F.give i (F.base sz i + 2 * PGSIZE)) := by
  obtain ⟨ha, hbelow⟩ := h.base_above hs hi
  have hself : (F.give i (F.base sz i + 2 * PGSIZE)).sz i = F.base sz i + 2 * PGSIZE :=
    update_self ..
  have hne : ∀ j, j ≠ i → (F.give i (F.base sz i + 2 * PGSIZE)).sz j = F.sz j :=
    fun j hj => update_of_ne hj ..
  have hpos : F.base sz i + 2 * PGSIZE ≠ 0 := by unfold PGSIZE; omega
  have hbefore : ∀ j, j < i → F.sz j ≠ 0 := fun j hj =>
    h.used j (by simpa using find?_finRange_lt hi hj)
  have hafter : ∀ j, i < j → F.sz j = 0 := fun j hj => h.order i j hj hz
  constructor
  · intro j hj
    by_cases e : j = i
    · subst e
      rwa [hself]
    · rw [hne j e]
      exact h.used j ((update_of_ne e ..).symm.trans hj)
  · intro j hj
    by_cases e : j = i
    · subst e
      rw [hself]
      omega
    · rw [hne j e] at hj ⊢
      exact h.above j hj
  · intro j l hjl hj
    by_cases e : j = i
    · subst e
      rw [hself] at hj
      exact absurd hj hpos
    · rw [hne j e] at hj
      have hij : i < j := lt_of_le_of_ne (le_of_not_gt fun hji => hbefore j hji hj) (Ne.symm e)
      rw [hne l (hij.trans hjl).ne']
      exact hafter l (hij.trans hjl)
  · intro j l hjl hl
    by_cases e : l = i
    · subst e
      rw [hself, hne j hjl.ne]
      have := hbelow j hjl
      omega
    · rw [hne l e] at hl ⊢
      have hli : l < i := lt_of_le_of_ne (le_of_not_gt fun hil => hl (hafter l hil)) e
      rw [hne j (hjl.trans hli).ne]
      exact h.spaced j l hjl hl
  · intro b hsz hb'
    refine hb.mono ?_
    have := hb' i (by rwa [hself])
    rw [hself] at this
    omega

end

end Layout

variable {d : Page} {sz : Nat} {m : Mem} {k : Kernel}

theorem Given.layout {csz sz' : Nat} {num num' : Int} {F F' : Threads}
    {m' : Mem} {S : Set Page} (h : Given d csz F m sz num F' sz' num' m' true) (ho : Vm.Own m S)
    (hs : Stacks m d F) (hl : Layout m d csz F) (hfree : F.free ≠ none)
    (hroom : ∀ i, F.free = some i → F.sz i = 0 → F.base csz i + 3 * PGSIZE < KERNBASE) :
    Layout m' d csz F' := by
  cases h with
  | full h => exact absurd h hfree
  | again h hi => exact hl.again hi
  | fresh h hi alloc hr htop =>
    obtain ⟨alloc, hreq, rfl⟩ := stack_alloc (hroom _ h hi) alloc hr htop
    have hb := (Vm.allocuvm_spec ho alloc).bare (hl.base_bare hs h hi)
    rw [if_neg hr, hreq] at hb
    exact hl.fresh hs h hi hb

/-- After `sbrk` nothing is mapped above the size, if nothing was. -/
theorem Resized.bare {S : Set Page} {m' : Mem} {sz' : Nat} {n : Int}
    (h : Resized d m sz n sz' m') (ho : Vm.Own m S) (hb : Bare m d sz) : Bare m' d sz' := by
  cases h with
  | same _ => exact hb
  | grown _ alloc => exact (Vm.allocuvm_spec ho alloc).bare hb
  | shrunk _ dealloc =>
    have hr := (Vm.deallocuvm_works ho dealloc).2.1
    refine (Vm.deallocuvm_bare ho hb dealloc).mono ?_
    split
    · exact Nat.min_le_left ..
    · rw [hr]
      split <;> omega

/-! ### The invariant -/

def Laid (k : Kernel) : Prop :=
  ∀ s x d, k.kins s = some x → x.stage = .alive → x.isthread = false → x.pgdir = some d →
    Layout k.mem d x.sz (x.threads.getD .none)

section

variable {k k' : Kernel} {cur s t : Slot} {c x y : Kin} {d : Page}

/-- A call of another process leaves the directory of a process alone. -/
theorem Effect.untouched {e : Call} (hp : Paged k) (hf : Family k) (hz : Sizes k)
    (hG : Steady k (.call cur e)) (hc : k.kins cur = some c)
    (h : Effect k cur c e k') (htc : t ≠ cur) (hy : k.kins t = some y) (hth : y.isthread = false)
    (hst : y.stage = .alive) (hd : y.pgdir = some d) : k'.mem.dirs d = k.mem.dirs d := by
  have hformed : ∀ s x, k.kins s = some x → x.stage ≠ .embryo := fun s x hx => (hz s x hx).formed
  -- no other process shares the directory, unless it is a thread
  have halone : ∀ u w, k.kins u = some w → u ≠ t → w.isthread = false → w.pgdir ≠ some d := by
    intro u w hw hut hwt hwd
    rcases hf.shared.under hy hst hth hw (hformed u w hw) (hwd.trans hd.symm) with rfl | ⟨h, -⟩
    · exact hut rfl
    · exact nomatch hwt.symm.trans h
  have hfresh : ∀ p, p ∈ k.mem.freelist → d ≠ p := fun p hpf e =>
    hf.fresh hp.own hpf hy (hformed t y hy) (e ▸ hd)
  cases h with
  | quiet _ mem | gaveUp _ mem => rw [mem.dirs]
  | died _ _ _ mem | barren _ mem | moved _ _ mem => rw [mem]
  | born _ _ _ _ mem | left _ _ mem => exact mem.other d (hfresh _ mem.fresh)
  | reaped found kin zombie _ dir _ mem _ _ =>
    refine mem.other d fun e => ?_
    refine halone _ _ kin ?_ ((kin_isthread kin).symm.trans (hG.orderly.2 _ found)) (e ▸ dir)
    rintro rfl
    rw [hy] at kin
    cases kin
    exact nomatch hst.symm.trans zombie
  | joined _ h => rw [h.dirs]
  | threaded _ _ dir _ _ _ _ _ _ _ _ _ _ mem _ _ =>
    refine mem.other d fun e => ?_
    exact halone cur c hc htc.symm ((hG.orderly.isthread hc).1 _ _ _ rfl) (e ▸ dir)
  | replaced process old _ built _ gone _ _ =>
    rw [gone.other d fun e => halone cur c hc htc.symm process (e ▸ old),
      built.other d (hfresh _ built.fresh)]
  | resized process dir _ _ mem _ _ =>
    exact mem.other d fun e => halone cur c hc htc.symm process (e ▸ dir)

theorem Effect.laid {e : Call} (hp : Paged k) (hf : Family k) (hz : Sizes k)
    (hG : Tidy k (.call cur e)) (hc : k.kins cur = some c) (ha : c.stage = .alive)
    (h : Effect k cur c e k') (ht : Team k.kins) (hl : Laid k) : Laid k' := by
  have hother : ∀ t y d, t ≠ cur → k.kins t = some y → y.stage = .alive → y.isthread = false →
      y.pgdir = some d → Layout k'.mem d y.sz (y.threads.getD .none) :=
    fun t y d htc hy hst hth hd => (hl t y d hy hst hth hd).congr
      (h.untouched hp hf hz hG.steady hc htc hy hth hst hd)
  intro t y d hy hst hth hd
  cases h with
  | quiet kins mem | gaveUp kins mem =>
    exact (hl t y d (kins ▸ hy) hst hth hd).congr (by rw [mem.dirs])
  | died _ _ kins _ _ _ =>
    rw [kins] at hy
    obtain ⟨y, hyt, rfl⟩ := Option.map_eq_some_iff.mp hy
    have htc : t ≠ cur := by
      intro e
      rw [Kin.after, if_pos e] at hst
      cases hst
    exact hother t y d htc hyt ((if_neg htc).symm.trans hst) hth hd
  | born _ new _ kins mem _ bare _ _ =>
    rw [kins] at hy
    rcases update_some hy with ⟨rfl, rfl⟩ | ⟨-, hyt⟩
    · cases hd
      exact .none bare
    · by_cases htc : t = cur
      · refine (hl t y d hyt hst hth hd).congr (mem.other d fun e => ?_)
        exact hf.fresh hp.own mem.fresh hyt (by rw [hst]; simp) (e ▸ hd)
      · exact hother t y d htc hyt hst hth hd
  | reaped found kin zombie _ dir kins mem _ _ =>
    rw [kins] at hy
    obtain ⟨hts, hyt⟩ := update_none hy
    have hpth := (kin_isthread kin).symm.trans (hG.steady.orderly.2 _ found)
    refine (hl t y d hyt hst hth hd).congr (mem.other d fun e => hts ?_)
    exact hf.shared.alone kin zombie hpth hyt (by rw [hst]; simp) (hd.trans (e ▸ dir.symm))
  | joined which h =>
    rw [h.kins] at hy
    rcases update_some hy with ⟨rfl, rfl⟩ | ⟨htc, hyt⟩
    · have hlc := (hl t c d hc hst hth hd).congr (congrFun h.dirs d)
      obtain ⟨M, z, F, i, -, -, -, -, -, -, hnum, -⟩ := ht.mother _ _ h.kin (hG.joined which h).1
      cases hF : c.threads with
      | none => rw [hF] at hlc; exact hlc
      | some F =>
        rw [hF] at hlc
        exact hlc.clear (by rw [hnum]; have := i.isLt; omega)
    · exact hother t y d htc (update_none hyt).2 hst hth hd
  | barren kins mem _ _ =>
    rw [kins] at hy
    rcases update_some hy with ⟨rfl, rfl⟩ | ⟨htc, hyt⟩
    · rw [mem]
      exact hl t c d hc hst hth hd
    · exact hother t y d htc hyt hst hth hd
  | threaded _ _ dir free dirs own given made writes kins shared _ _ _ _ _ =>
    obtain ⟨rfl, -, -, -, -, stage, thread, -⟩ :=
      hz.created hG.steady hc ha dir free dirs own given made
    rw [kins] at hy
    rcases update_some hy with ⟨rfl, rfl⟩ | ⟨-, hyt⟩
    · cases hth.symm.trans thread
    rcases update_some hyt with ⟨rfl, rfl⟩ | ⟨htc, hyt⟩
    · cases dir.symm.trans hd
      have hold : ∀ {F}, Layout k.mem d c.sz F → Layout _ d c.sz F :=
        fun h => h.congr (congrFun dirs d)
      refine .congr (given.layout own ?_ (hold (hl t c d hc ha hth dir)) (hG.steady.room hc).1
        fun i hi hzero => ((hG.steady.room hc).2 i hi hzero).1) (congrFun writes.dirs d)
      exact ((hz t c hc).table dir ha).congr (congrFun dirs d)
    · exact hother t y d htc hyt hst hth hd
  | left thread _ _ _ _ _ =>
    cases thread.symm.trans ((kin_isthread hc).symm.trans hG.2)
  | replaced _ old kins built sized gone _ _ =>
    rw [kins] at hy
    rcases update_some hy with ⟨rfl, rfl⟩ | ⟨htc, hyt⟩
    · cases hd
      change Layout _ d _ (c.threads.getD .none)
      rw [hG.steady.exec hc]
      refine .congr (.none sized.bare) (gone.other d ?_)
      rintro rfl
      exact hf.fresh hp.own built.fresh hc (by rw [ha]; simp) old
    · exact hother t y d htc hyt hst hth hd
  | moved thread kins _ _ _ =>
    rw [kins] at hy
    rcases update_some hy with ⟨rfl, rfl⟩ | ⟨htc, hyt⟩
    · cases hth.symm.trans thread
    · exact hother t y d htc hyt hst hth hd
  | resized process dir kins size mem _ _ =>
    rw [kins] at hy
    rcases update_some hy with ⟨rfl, rfl⟩ | ⟨htc, hyt⟩
    · cases dir.symm.trans hd
      have hlc := hl t c d hc ha hth dir
      rcases hG.steady.sbrk hc process with hn | ⟨hs, -⟩
      · rw [hn] at size
        obtain ⟨rfl, hmem⟩ := size.zero
        rw [hmem]
        exact hlc
      · change Layout _ d _ (c.threads.getD .none)
        rw [hs] at hlc ⊢
        exact .none (size.bare hp.own (hlc.bare c.sz (Nat.le_refl _) fun _ h => absurd rfl h))
    · exact hother t y d htc hyt hst hth hd

end

/-! ### Runs -/

theorem BootedOn.team {n : Nat} (h : BootedOn n k) : Team k.kins ∧ Laid k := by
  obtain ⟨pages, initcode, hnd, -, h⟩ := h
  obtain ⟨d, p, -, hk, -, -, -, -, hbare, -⟩ := userinit_kin hnd h
  have hcases : ∀ t y, k.kins t = some y → y.isthread = false ∧ y.threads = none ∧ y.sz = PGSIZE ∧
      y.pgdir = some d := by
    intro t y hy
    rw [hk] at hy
    rcases update_some hy with ⟨rfl, rfl⟩ | ⟨-, h⟩
    · exact ⟨rfl, rfl, rfl, rfl⟩
    · cases h
  refine ⟨⟨fun t y hy ht => ?_, fun _ t _ y _ _ hy _ ht => ?_, fun M z F i hz _ hF => ?_⟩, ?_⟩
  · exact nomatch (hcases t y hy).1.symm.trans ht
  · exact nomatch (hcases t y hy).1.symm.trans ht.1
  · exact nomatch (hcases M z hz).2.1.symm.trans hF
  intro s x e hx _ _ he
  obtain ⟨-, hF, hsz, hd⟩ := hcases s x hx
  cases hd.symm.trans he
  rw [hF, hsz]
  exact .none hbare

/-- The invariants in every tidy run. -/
theorem tidy_team {k₀ : Kernel} (hb : BootedOn 68 k₀)
    (r : Run (fun k e k' => step k e = some k') Tidy k₀ k) :
    Family k ∧ Sizes k ∧ Team k.kins ∧ Laid k := by
  refine (run_effects (I := fun k => Family k ∧ Sizes k ∧ Team k.kins ∧ Laid k) r hb.booted.paged
    ⟨hb.booted.family, hb.sizes, hb.team⟩ ?_ ?_).2
  · rintro k k' hs ⟨hf, hz, ht, hl⟩
    refine ⟨hs.family hf, hs.sizes hz, hs.kins ▸ ht, fun s x d hx => ?_⟩
    rw [hs.mem]
    exact hl s x d (hs.kins ▸ hx)
  · rintro k k' cur c e hp hG hr hc ha he ⟨hf, hz, ht, hl⟩
    exact ⟨he.family hp hG.steady.orderly hr hc ha hf, he.sizes hp hf hG.steady hc ha hz,
      he.team hf hz hG hr hc ha ht, he.laid hp hf hz hG hc ha ht hl⟩

/-- No call of a steady run keeps `ptable.lock`. -/
theorem steady_unlocked {k₀ : Kernel} (hb : BootedOn 68 k₀)
    (r : Run (fun k e k' => step k e = some k') Steady k₀ k) : k.locked = false := by
  induction r with
  | refl => exact hb.booted.unlocked
  | @more k k' e r hG h ih =>
    cases e with
    | dispatch s =>
      obtain ⟨-, rfl⟩ := step_dispatch h
      exact ih
    | call cur e =>
      obtain ⟨-, -, o, hcall⟩ := step_call h
      rcases (call_dealt hcall).locked with hl | ⟨s, hs⟩
      · exact hl.trans ih
      · have hx : k'.kins s = some ((k'.ptable s).kinAt .embryo) := kin_of_state (by rw [hs]; rfl)
        exact absurd rfl ((steady_sizes hb (r.more hG h)).2 s _ hx).formed

/-- A slot that a thread runs in, and that has not been joined. -/
def Kernel.IsThread (k : Kernel) (s : Slot) : Prop :=
  (k.ptable s).state ≠ .unused ∧ (k.ptable s).isthread = true

theorem isThread_kin {s : Slot} (h : k.IsThread s) :
    ∃ y, k.kins s = some y ∧ y.isthread = true := by
  obtain ⟨hst, hth⟩ := h
  cases hy : k.kins s with
  | none => exact absurd (kin_eq_none.mp hy) hst
  | some y => exact ⟨y, rfl, (kin_isthread hy).symm.trans hth⟩

/-- The two pages below the size of a thread. -/
def Kernel.stackRange (k : Kernel) (s : Slot) : Set Nat :=
  Set.Ico ((k.ptable s).sz - 2 * PGSIZE) (k.ptable s).sz

/-- There is no slot or page for another process, or the slot `allocproc` takes has no user page
below its old size, in the directory of the caller. -/
def Refused (k : Kernel) (cur : Slot) : Prop :=
  ∀ np d, k.freeSlot = some np → (k.ptable cur).pgdir = some d → k.mem.freelist ≠ [] →
    Vm.uva2ka k.mem d (((k.ptable np).sz + (2 ^ 32 - 16)) % 2 ^ 32 / PGSIZE) = .ok none

section

variable {k : Kernel} {cur : Slot}

theorem initThreads_state (p : Proc) :
    p.initThreads.state = p.state ∧ p.initThreads.pgdir = p.pgdir := by
  rw [Proc.initThreads]
  split
  · exact ⟨rfl, rfl⟩
  · exact ⟨rfl, rfl⟩

theorem freeSlot_initThreads (k : Kernel) (cur : Slot) :
    (k.set cur Proc.initThreads).freeSlot = k.freeSlot := by
  have hst : ∀ s, ((k.set cur Proc.initThreads).ptable s).state = (k.ptable s).state := by
    intro s
    rw [Kernel.set_ptable]
    by_cases e : s = cur
    · rw [e, update_self, (initThreads_state _).1]
    · rw [update_of_ne e]
  simp only [Kernel.freeSlot, hst]

/-- Without the lock, `allocproc` returns. -/
theorem allocproc_returns (hl : k.locked = false) : ∃ r, allocproc k = .ok r := by
  rw [allocproc, acquire, hl]
  cases (List.finRange NPROC).find? fun s => (k.ptable s).state = .unused with
  | none => exact ⟨_, rfl⟩
  | some s =>
    cases hm : Vm.kalloc { k.set s (·.embryo k.nextpid) with nextpid := k.nextpid + 1 }.mem with
    | mk o m => cases o <;> simp only [hm] <;> exact ⟨_, rfl⟩

/-- `thread_create` of a process all of whose stacks are in use. -/
theorem threadCreate_refused (hl : k.locked = false) (hrun : (k.ptable cur).state = .running)
    (hdir : (k.ptable cur).pgdir ≠ none) (hfull : (k.ptable cur).initThreads.freeThread = none)
    (h : Refused k cur) (thread start arg : Nat) :
    ∃ k', threadCreate k cur thread start arg = .ok (-1, k') := by
  have hl₀ : (k.set cur Proc.initThreads).locked = false := hl
  obtain ⟨⟨o, k₁⟩, ha⟩ := allocproc_returns hl₀
  rw [threadCreate, ha]
  rcases allocproc_kin ha with ⟨rfl, -⟩ | ⟨np, p, rfl, hslot, hnew, hk, -, -, htab⟩
  · exact ⟨k₁, rfl⟩
  have hne : cur ≠ np := by
    rintro rfl
    have hu := kin_eq_none.mp hnew
    rw [Kernel.set_ptable, update_self, (initThreads_state _).1, hrun] at hu
    cases hu
  have hcur : k₁.ptable cur = (k.ptable cur).initThreads := by
    rw [htab, update_of_ne hne, Kernel.set_ptable, update_self]
  have hnp : (k₁.ptable np).sz = (k.ptable np).sz := by
    rw [htab, update_self, Kernel.set_ptable, update_of_ne hne.symm]
    rfl
  obtain ⟨d, hd⟩ := Option.ne_none_iff_exists'.mp hdir
  have hd₁ : pgdirOf k₁ cur = .ok d := by
    rw [pgdirOf, hcur, (initThreads_state _).2, hd]
  rw [freeSlot_initThreads] at hslot
  have hfree := Vm.kalloc_freelist hk
  have hout := h np d hslot hd (by
    intro e
    rw [set_mem, e] at hfree
    cases hfree)
  have hdirs : k₁.mem.dirs d = k.mem.dirs d := congrFun (Vm.kalloc_dirs hk) d
  rw [← Vm.uva2ka_congr hdirs, ← hnp] at hout
  -- no stack is given, and the slot keeps its size
  generalize hk₂ : k₁.set np ({ · with pgdir := some d, tf := (k₁.ptable cur).tf }) = k₂
  have hgive : giveStack k₂ cur np d = .ok (true, k₂) := by
    rw [giveStack, ← hk₂, Kernel.set_ptable, update_of_ne hne, hcur, hfull]
  have hcopy : Vm.copyout k₂.mem d (((k₂.ptable np).sz + (2 ^ 32 - 16)) % 2 ^ 32)
      ([0xffffffff, arg, 0, arg].flatMap Vm.wordBytes) = .ok (false, k₂.mem) := by
    refine Vm.copyout_none (by simp [Vm.wordBytes]) ?_
    rw [← hk₂, Kernel.set_ptable, update_self]
    exact hout
  change ∃ k', threadFinish k₁ cur np thread start arg = .ok (-1, k')
  refine ⟨k₂.setMem k₂.mem, ?_⟩
  rw [threadFinish, hd₁]
  change (giveStack (k₁.set np _) cur np d >>= _) = _
  rw [hk₂, hgive]
  change (Vm.copyout k₂.mem d _ _ >>= _) = _
  rw [hcopy]
  rfl

end

/-- What is known of a thread in a tidy run: its stack is one of its process, and in use. -/
theorem thread_stack {s : Slot} {y : Kin} (hf : Family k) (ht : Team k.kins)
    (hl : Laid k) (hy : k.kins s = some y) (hth : y.isthread = true) :
    ∃ M z F d, ∃ i : Fin NTHREAD, y.parent = some M ∧ k.kins M = some z ∧ z.stage = .alive ∧
      z.threads = some F ∧ z.pgdir = some d ∧ y.pgdir = some d ∧ y.threadNum = i.val ∧
      y.sz = F.sz i ∧ F.sz i ≠ 0 ∧ Layout k.mem d z.sz F := by
  obtain ⟨M, z, F, i, hp, hz, hza, hzt, hF, hd, hn, hex, hs⟩ := ht.mother s y hy hth
  obtain ⟨d, hzd, -⟩ := hf.live M z hz (by rw [hza]; simp)
  have hlay := hl M z d hz hza hzt hzd
  rw [hF] at hlay
  exact ⟨M, z, F, d, i, hp, hz, hza, hF, hzd, hd.trans hzd, hn, hs, hlay.used i hex, hlay⟩

/-- Stacks with different numbers do not meet. -/
theorem Layout.disjoint {F : Threads} (h : Layout m d sz F)
    {i j : Fin NTHREAD} (hij : i ≠ j) (hi : F.sz i ≠ 0) (hj : F.sz j ≠ 0) :
    Disjoint (Set.Ico (F.sz i - 2 * PGSIZE) (F.sz i)) (Set.Ico (F.sz j - 2 * PGSIZE) (F.sz j)) := by
  rw [Set.disjoint_left]
  intro a ha hb
  rw [Set.mem_Ico] at ha hb
  rcases lt_or_gt_of_ne hij with hlt | hlt
  · have := h.spaced i j hlt hj
    omega
  · have := h.spaced j i hlt hi
    omega

/-- **Processes and threads.**  In a tidy run pids are distinct and parents live, only a process and
its threads share a directory, and a thread table names the threads, each by its number, and nobody
else. -/
theorem tidy_processes {k₀ : Kernel} (hb : BootedOn 68 k₀)
    (r : Run (fun k e k' => step k e = some k') Tidy k₀ k) :
    Lineage k.kins k.nextpid ∧ Shared k.kins ∧ Team k.kins := by
  obtain ⟨hf, -, ht, -⟩ := tidy_team hb r
  exact ⟨SysRun.lineage ⟨k₀, hb.booted, r⟩, hf.shared, ht⟩

/-- Init creates a thread. -/
theorem tidy_processes_one : ∃ k₀ k, BootedOn 68 k₀ ∧
    Run (fun k e k' => step k e = some k') Tidy k₀ k ∧ (k.ptable 1).isthread ∧ Team k.kins := by
  obtain ⟨k₀, k, hb, r, h⟩ := exists_bootedRun Tidy 68 22
    [.dispatch 0, .call 0 (.threadCreate 0 0 0)] (fun k => (k.ptable 1).isthread) (by decide +kernel)
  exact ⟨k₀, k, hb, r, h, (tidy_processes hb r).2.2⟩

end Xv6.Kern
