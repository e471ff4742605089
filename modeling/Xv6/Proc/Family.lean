import Xv6.Proc.Parents

/-!
# Proc — shared page directories

A thread runs on the directory of the process that created it, and four places free a directory or
decline to.  Under the discipline of `Orderly` two processes in the table share a directory only when
both are one live process and its threads (`Shared`), and that process frees it only when it has no
threads: so no directory is freed twice, and none while somebody runs on it.

Without the discipline `wait` and `exec` free a directory that threads still run on
(`freevm_while_held`).
-/

namespace Xv6.Kern

open Function (update_self update_of_ne)
open Support (update_some update_none)
open Vm (Page Mem DirEvent Works Built Unbuilt Gone)

/-! ### Who shares a directory -/

/-- The process in the slot `s` is `M` or a thread of it. -/
def Under (s : Slot) (x : Kin) (M : Slot) : Prop := s = M ∨ x.isthread = true ∧ x.parent = some M

/-- Two processes that share a directory are one live process that has threads, and its threads. -/
def Shared (kins : Slot → Option Kin) : Prop :=
  ∀ s t x y, s ≠ t → kins s = some x → kins t = some y → x.stage ≠ .embryo → y.stage ≠ .embryo →
    x.pgdir = y.pgdir → ∃ M z, kins M = some z ∧ z.stage = .alive ∧ z.isthread = false ∧
      z.threads.isSome ∧ Under s x M ∧ Under t y M

namespace Shared

variable {kins : Slot → Option Kin} {cur s np : Slot} {c x : Kin}

section

variable (h : Shared kins)
include h

/-- Nobody is added, and nobody who leads a group changes. -/
theorem of_sub {kins' : Slot → Option Kin}
    (hold : ∀ t y', kins' t = some y' → y'.stage ≠ .embryo → ∃ y, kins t = some y ∧
      y.stage ≠ .embryo ∧ y'.pgdir = y.pgdir ∧ ∀ M, Under t y M → Under t y' M)
    (hlead : ∀ M z, kins M = some z → z.stage = .alive → z.isthread = false → z.threads.isSome →
      ∃ z', kins' M = some z' ∧ z'.stage = .alive ∧ z'.isthread = false ∧ z'.threads.isSome) :
    Shared kins' := by
  intro t u y' w' hne hy' hw' hye hwe e
  obtain ⟨y, hy, hye, ey, hyu⟩ := hold t y' hy' hye
  obtain ⟨w, hw, hwe, ew, hwu⟩ := hold u w' hw' hwe
  obtain ⟨M, z, hz, hza, hzt, hzs, hty, huw⟩ := h t u y w hne hy hw hye hwe (by rw [← ey, ← ew, e])
  obtain ⟨z', hz', hza', hzt', hzs'⟩ := hlead M z hz hza hzt hzs
  exact ⟨M, z', hz', hza', hzt', hzs', hyu M hty, hwu M huw⟩

/-- The process in `cur` changes, but not its place in the group. -/
theorem update (hc : kins cur = some c) {c' : Kin} (hst : c'.stage = c.stage)
    (hdir : c'.pgdir = c.pgdir) (hth : c'.isthread = c.isthread) (hpar : c'.parent = c.parent)
    (hs : c.threads.isSome → c'.threads.isSome) : Shared (Function.update kins cur (some c')) := by
  refine h.of_sub (fun t y' hy' hne => ?_) fun M z hz hza hzt hzs => ?_
  · rcases update_some hy' with ⟨rfl, rfl⟩ | ⟨-, hy⟩
    · refine ⟨c, hc, hst ▸ hne, hdir, fun M => ?_⟩
      rw [Under, Under, hth, hpar]
      exact id
    · exact ⟨y', hy, hne, rfl, fun _ => id⟩
  · by_cases e : M = cur
    · subst e
      rw [hc] at hz
      cases hz
      exact ⟨c', update_self .., hst.trans hza, hth.trans hzt, hs hzs⟩
    · exact ⟨z, by rw [update_of_ne e, hz], hza, hzt, hzs⟩

theorem remove (hx : kins s = some x) (hz : x.stage = .zombie) :
    Shared (Function.update kins s none) := by
  refine h.of_sub (fun t y hy hne => ⟨y, (update_none hy).2, hne, rfl, fun _ => id⟩)
    fun M z hM hza hzt hzs => ⟨z, ?_, hza, hzt, hzs⟩
  rw [update_of_ne, hM]
  rintro rfl
  rw [hx] at hM
  cases hM
  rw [hza] at hz
  cases hz

/-- A process on a directory of its own. -/
theorem add (hnew : kins np = none)
    (hdir : ∀ t y, kins t = some y → y.stage ≠ .embryo → y.pgdir ≠ x.pgdir) :
    Shared (Function.update kins np (some x)) := by
  intro t u y w hne hy hw hye hwe e
  rcases update_some hy with ⟨rfl, rfl⟩ | ⟨-, hyt⟩
  · rcases update_some hw with ⟨rfl, rfl⟩ | ⟨-, hw⟩
    · exact absurd rfl hne
    · exact absurd e.symm (hdir u w hw hwe)
  rcases update_some hw with ⟨rfl, rfl⟩ | ⟨-, hw⟩
  · exact absurd e (hdir t y hyt hye)
  obtain ⟨M, z, hz, hrest⟩ := h t u y w hne hyt hw hye hwe e
  refine ⟨M, z, ?_, hrest⟩
  rw [update_of_ne, hz]
  rintro rfl
  rw [hnew] at hz
  cases hz

/-- Whoever shares the directory of a process that is no thread is a thread of it. -/
theorem under (hc : kins cur = some c) (ha : c.stage = .alive)
    (hth : c.isthread = false) {t : Slot} {y : Kin} (hy : kins t = some y)
    (hne : y.stage ≠ .embryo) (hdir : y.pgdir = c.pgdir) : Under t y cur := by
  by_cases e : t = cur
  · exact .inl e
  have hce : c.stage ≠ .embryo := by rw [ha]; simp
  obtain ⟨M, z, -, -, -, -, ht, hcur⟩ := h t cur y c e hy hc hne hce hdir
  rcases hcur with rfl | ⟨hth', -⟩
  · exact ht
  · rw [hth] at hth'
    cases hth'

/-- A thread of a live process, or a slot that became none. -/
theorem addThread (hnew : kins np = none) (hc : kins cur = some c)
    (ha : c.stage = .alive) (hth : c.isthread = false) (hs : c.threads.isSome)
    (hdir : x.pgdir = c.pgdir)
    (hx : x.stage = .embryo ∨ x.isthread = true ∧ x.parent = some cur) :
    Shared (Function.update kins np (some x)) := by
  have hstay : ∀ t y, kins t = some y → Function.update kins np (some x) t = some y := by
    intro t y hy
    rw [update_of_ne, hy]
    rintro rfl
    rw [hnew] at hy
    cases hy
  intro t u y w hne hy hw hye hwe e
  rcases update_some hy with ⟨rfl, rfl⟩ | ⟨-, hyt⟩
  · rcases update_some hw with ⟨rfl, rfl⟩ | ⟨-, hw⟩
    · exact absurd rfl hne
    · exact ⟨cur, c, hstay cur c hc, ha, hth, hs, .inr (hx.resolve_left hye),
        h.under hc ha hth hw hwe (e.symm.trans hdir)⟩
  · rcases update_some hw with ⟨rfl, rfl⟩ | ⟨-, hw⟩
    · exact ⟨cur, c, hstay cur c hc, ha, hth, hs, h.under hc ha hth hyt hye (e.trans hdir),
        .inr (hx.resolve_left hwe)⟩
    · obtain ⟨M, z, hz, hrest⟩ := h t u y w hne hyt hw hye hwe e
      exact ⟨M, z, hstay M z hz, hrest⟩

/-- A process goes to a directory of its own. -/
theorem move (hc : kins cur = some c) (ha : c.stage = .alive) {c' : Kin}
    (hdir : ∀ t y, kins t = some y → y.stage ≠ .embryo → y.pgdir ≠ c'.pgdir)
    (hst : c'.stage = c.stage) (hth : c'.isthread = c.isthread) (hs : c'.threads = c.threads) :
    Shared (Function.update kins cur (some c')) := by
  intro t u y w hne hy hw hye hwe e
  rcases update_some hy with ⟨rfl, rfl⟩ | ⟨-, hyt⟩
  · rcases update_some hw with ⟨rfl, rfl⟩ | ⟨-, hw⟩
    · exact absurd rfl hne
    · exact absurd e.symm (hdir u w hw hwe)
  rcases update_some hw with ⟨rfl, rfl⟩ | ⟨-, hw⟩
  · exact absurd e (hdir t y hyt hye)
  obtain ⟨M, z, hz, hza, hzt, hzs, hunder⟩ := h t u y w hne hyt hw hye hwe e
  by_cases hM : M = cur
  · subst hM
    rw [hc] at hz
    cases hz
    exact ⟨M, c', update_self .., hst.trans ha, hth.trans hzt, hs ▸ hzs, hunder⟩
  · exact ⟨M, z, by rw [update_of_ne hM, hz], hza, hzt, hzs, hunder⟩

/-- A thread ends, or a process that has no children if it has had threads. -/
theorem die (hc : kins cur = some c)
    (hgo : c.isthread = true ∨ (c.threads.isSome → ∀ t y, kins t = some y → y.parent ≠ some cur))
    (ha : c.stage = .alive) (v : Nat) :
    Shared fun s => (kins s).map (·.after cur v s) := by
  intro t u y' w' hne hy' hw' hye hwe e
  obtain ⟨y, hy, rfl⟩ := Option.map_eq_some_iff.mp hy'
  obtain ⟨w, hw, rfl⟩ := Option.map_eq_some_iff.mp hw'
  have hformed : ∀ t y, kins t = some y → (y.after cur v t).stage ≠ .embryo → y.stage ≠ .embryo := by
    intro t y hy hne
    by_cases e : t = cur
    · subst e
      rw [hc] at hy
      cases hy
      rw [ha]
      simp
    · rwa [Kin.after, if_neg e] at hne
  obtain ⟨M, z, hz, hza, hzt, hzs, hty, huw⟩ :=
    h t u y w hne hy hw (hformed t y hy hye) (hformed u w hw hwe) e
  -- the leader of a group is not the one that ends
  have hM : M ≠ cur := by
    rintro rfl
    rw [hc] at hz
    cases hz
    rcases hgo with hth | hgo
    · rw [hzt] at hth
      cases hth
    rcases hty with rfl | ⟨-, hp⟩
    · rcases huw with rfl | ⟨-, hp⟩
      · exact hne rfl
      · exact hgo hzs u w hw hp
    · exact hgo hzs t y hy hp
  have hunder : ∀ t y, Under t y M → Under t (y.after cur v t) M := by
    rintro t y (rfl | ⟨ht, hp⟩)
    · exact .inl rfl
    · refine .inr ⟨ht, ?_⟩
      rw [Kin.after, hp, if_neg fun h => hM (Option.some.inj h)]
  exact ⟨M, z.after cur v M, by simp only [hz, Option.map_some], by rw [Kin.after, if_neg hM, hza], hzt,
    hzs, hunder t y hty, hunder u w huw⟩

end

end Shared

/-! ### The calls of setupkvm and freevm -/

/-- Of the two, the later that was called on `d` is `setupkvm`. -/
def Standing (d : Page) : List DirEvent → Prop
  | [] => False
  | .made e :: es => e = d ∨ Standing d es
  | .freed e :: es => e ≠ d ∧ Standing d es

/-- Every `freevm` of a directory comes after a `setupkvm` of its own. -/
def FreedOnce : List DirEvent → Prop
  | [] => True
  | .made _ :: es => FreedOnce es
  | .freed d :: es => Standing d es ∧ FreedOnce es

/-- The directories in memory are those that stand. -/
structure Recorded (m : Mem) : Prop where
  standing : ∀ d, (m.dirs d).isSome ↔ Standing d m.history
  once : FreedOnce m.history

namespace Recorded

variable {S S' : Set Page} {d : Page} {m m' : Mem} {T : Nat → Prop}

section

variable (h : Recorded m)
include h

theorem of_isSome (hd : ∀ e, (m'.dirs e).isSome = (m.dirs e).isSome)
    (hh : m'.history = m.history) : Recorded m' :=
  ⟨fun e => by rw [hd, hh]; exact h.standing e, hh ▸ h.once⟩

theorem works (hw : Works S S' d T m m') : Recorded m' := by
  refine h.of_isSome (fun e => ?_) hw.history
  by_cases he : e = d
  · rw [he, hw.self]
  · rw [hw.other e he]

theorem built (hb : Built S d m m') : Recorded m' := by
  refine ⟨fun e => ?_, by rw [hb.history]; exact h.once⟩
  rw [hb.history]
  by_cases he : e = d
  · subst he
    exact ⟨fun _ => .inl rfl, fun _ => hb.self⟩
  · rw [hb.other e he, h.standing e]
    exact ⟨.inr, fun h => h.resolve_left (Ne.symm he)⟩

theorem gone (hd : (m.dirs d).isSome) (hg : Gone S d m m') : Recorded m' := by
  refine ⟨fun e => ?_, by rw [hg.history]; exact ⟨(h.standing d).mp hd, h.once⟩⟩
  rw [hg.history]
  by_cases he : e = d
  · subst he
    rw [hg.self]
    exact ⟨(nomatch ·), fun h => absurd rfl h.1⟩
  · rw [hg.other e he, h.standing e]
    exact ⟨fun h => ⟨Ne.symm he, h⟩, And.right⟩

theorem unbuilt (ho : Vm.Own m S) (hu : Unbuilt S m m') : Recorded m' := by
  rcases hu.history with hh | ⟨d, hd, hh⟩
  · exact h.of_isSome (fun e => by rw [hu.dirs]) hh
  have hnone := (ho.fresh hd).1
  refine ⟨fun e => ?_, by rw [hh]; exact ⟨.inl rfl, h.once⟩⟩
  rw [hh, hu.dirs]
  by_cases he : e = d
  · subst he
    rw [hnone]
    exact ⟨(nomatch ·), fun h => absurd rfl h.1⟩
  · rw [h.standing e]
    exact ⟨fun h => ⟨Ne.symm he, .inr h⟩, fun h => h.2.resolve_left (Ne.symm he)⟩

end

end Recorded

/-! ### The discipline -/

/-- No thread creates a thread and no process ends by `thread_exit`; `wait` finds a process and not a
thread; a process that calls `exec` has no thread left.  No slot is left half made by a
`thread_create` that failed, and the slot `fork` takes does not name a page that is free. -/
def Orderly (k : Kernel) : Event → Prop
  | .dispatch _ => True
  | .call cur e => (∀ s, (k.ptable s).state ≠ .embryo) ∧
      match e with
      | .threadCreate .. => (k.ptable cur).isthread = false
      | .threadExit _ => (k.ptable cur).isthread = true
      | .wait => ∀ s, k.zombieChild cur = some s → (k.ptable s).isthread = false
      | .exec .. => (k.ptable cur).isthread = true ∨ ∀ s, (k.ptable s).state ≠ .unused →
          ¬((k.ptable s).isthread = true ∧ (k.ptable s).parent = some cur)
      | .fork => ∀ s, k.freeSlot = some s → ∀ d ∈ k.mem.freelist, (k.ptable s).pgdir ≠ some d
      | _ => True

instance (k : Kernel) : DecidablePred (Orderly k)
  | .dispatch _ => .isTrue trivial
  | .call cur e => by
    cases e <;> unfold Orderly <;> infer_instance

/-- Every process is on a directory that is there; those that share one are a process and its
threads; and no directory was freed twice, or under a process that runs on it. -/
structure Family (k : Kernel) : Prop where
  live : ∀ s x, k.kins s = some x → x.stage ≠ .embryo →
    ∃ d, x.pgdir = some d ∧ (k.mem.dirs d).isSome
  shared : Shared k.kins
  recorded : Recorded k.mem
  unheld : ∀ f ∈ k.freed, f.2 = []

section

variable {k k' : Kernel} {cur s : Slot} {c x : Kin} {d : Page}

theorem kins_state (hx : k.kins s = some x) : (k.ptable s).state ≠ .unused := fun h =>
  nomatch hx.symm.trans (kin_eq_none.mpr h)

theorem not_embryo (hG : ∀ s, (k.ptable s).state ≠ .embryo) (hx : k.kins s = some x) :
    x.stage ≠ .embryo := by
  intro e
  have h := (kin_some hx).1
  rw [e] at h
  refine hG s ?_
  cases hs : (k.ptable s).state <;> rw [hs] at h <;> simp [State.stage] at h ⊢

/-- The size of the caller changes, or what it knows of its threads. -/
theorem Family.update (hf : Family k) (hc : k.kins cur = some c) {c' : Kin}
    (hk : k'.kins = Function.update k.kins cur (some c')) (hst : c'.stage = c.stage)
    (hdir : c'.pgdir = c.pgdir) (hth : c'.isthread = c.isthread) (hpar : c'.parent = c.parent)
    (hs : c.threads.isSome → c'.threads.isSome)
    (hd : ∀ e, (k'.mem.dirs e).isSome = (k.mem.dirs e).isSome)
    (hh : k'.mem.history = k.mem.history) (hfr : k'.freed = k.freed) : Family k' where
  live := by
    intro t y hy hne
    rw [hk] at hy
    rcases update_some hy with ⟨rfl, rfl⟩ | ⟨-, hy⟩
    · obtain ⟨d, hd', hl⟩ := hf.live t c hc (hst ▸ hne)
      exact ⟨d, hdir.trans hd', (hd d).trans hl⟩
    · obtain ⟨d, hd', hl⟩ := hf.live t y hy hne
      exact ⟨d, hd', (hd d).trans hl⟩
  shared := hk ▸ hf.shared.update hc hst hdir hth hpar hs
  recorded := hf.recorded.of_isSome hd hh
  unheld := hfr ▸ hf.unheld

/-- A directory that was a free page is nobody's. -/
theorem Family.fresh {S : Set Page} (hf : Family k) (ho : Vm.Own k.mem S) (hd : d ∈ k.mem.freelist)
    (hx : k.kins s = some x) (hne : x.stage ≠ .embryo) : x.pgdir ≠ some d := by
  intro e
  obtain ⟨d', hd', hl⟩ := hf.live s x hx hne
  rw [e] at hd'
  cases hd'
  rw [(ho.fresh hd).1] at hl
  cases hl

variable {m : Mem} {e : Call}

theorem works_isSome {S S' : Set Page} {T : Nat → Prop} {m' : Mem} (h : Works S S' d T m m')
    (e : Page) : (m'.dirs e).isSome = (m.dirs e).isSome := by
  by_cases he : e = d
  · rw [he, h.self]
  · rw [h.other e he]

/-- A process that goes from the table, or to another directory, leaves its directory to nobody:
what becomes of the directories then. -/
theorem Family.live_other (hf : Family k) (hformed : ∀ s x, k.kins s = some x → x.stage ≠ .embryo)
    (hother : ∀ e, e ≠ d → m.dirs e = k.mem.dirs e) {t : Slot} {y : Kin}
    (hy : k.kins t = some y) (hne : y.pgdir ≠ some d) :
    ∃ e, y.pgdir = some e ∧ (m.dirs e).isSome := by
  obtain ⟨e, he, hl⟩ := hf.live t y hy (hformed t y hy)
  exact ⟨e, he, by rw [hother e fun h => hne (h ▸ he)]; exact hl⟩

/-- A zombie that is no thread has its directory to itself. -/
theorem Shared.alone {kins : Slot → Option Kin} (h : Shared kins) (hx : kins s = some x)
    (hz : x.stage = .zombie) (hth : x.isthread = false) {t : Slot} {y : Kin} (hy : kins t = some y)
    (hye : y.stage ≠ .embryo) (hdir : y.pgdir = x.pgdir) : t = s := by
  by_contra hne
  have hxe : x.stage ≠ .embryo := by rw [hz]; simp
  obtain ⟨M, z, hM, hza, -, -, -, hs⟩ := h t s y x hne hy hx hye hxe hdir
  rcases hs with rfl | ⟨hs, -⟩
  · rw [hx] at hM
    cases hM
    rw [hz] at hza
    cases hza
  · rw [hth] at hs
    cases hs

theorem Family.reap (hf : Family k) (hformed : ∀ s x, k.kins s = some x → x.stage ≠ .embryo)
    (hx : k.kins s = some x) (hz : x.stage = .zombie) (hth : x.isthread = false)
    (hdir : x.pgdir = some d) (hk : k'.kins = Function.update k.kins s none)
    (hg : Gone k'.stackPages d k.mem k'.mem) (hfr : k'.freed = k.freed ++ [(d, k.holders d)]) :
    Family k' := by
  have halone : ∀ t y, k.kins t = some y → y.pgdir = some d → t = s := fun t y hy hd =>
    hf.shared.alone hx hz hth hy (hformed t y hy) (hd.trans hdir.symm)
  refine ⟨fun t y hy _ => ?_, hk ▸ hf.shared.remove hx hz, ?_, ?_⟩
  · rw [hk] at hy
    obtain ⟨hts, hy⟩ := update_none hy
    exact hf.live_other hformed hg.other hy fun hd => hts (halone t y hy hd)
  · obtain ⟨e, he, hl⟩ := hf.live s x hx (hformed s x hx)
    rw [hdir] at he
    cases he
    exact hf.recorded.gone hl hg
  · rw [hfr]
    intro f hfm
    rcases List.mem_append.mp hfm with hfm | hfm
    · exact hf.unheld f hfm
    obtain rfl := List.mem_singleton.mp hfm
    refine List.eq_nil_iff_forall_not_mem.mpr fun t ht => ?_
    obtain ⟨y, hy, hyd, hyz⟩ := mem_holders.mp ht
    obtain rfl := halone t y hy hyd
    rw [hx] at hy
    cases hy
    exact hyz hz

/-- A process without threads goes to a new directory and frees its old one. -/
theorem Family.replace {d₀ : Page} {sz : Nat} (hf : Family k) (hp : Paged k)
    (hformed : ∀ s x, k.kins s = some x → x.stage ≠ .embryo) (hc : k.kins cur = some c)
    (ha : c.stage = .alive) (hth : c.isthread = false) (hold : c.pgdir = some d₀)
    (hk : k'.kins = Function.update k.kins cur (some { c with pgdir := some d, sz := sz }))
    (hb : Built k.stackPages d k.mem m) (hg : Gone k.stackPages d₀ m k'.mem)
    (hfr : k'.freed = k.freed ++ [(d₀, k'.holders d₀)])
    (hno : ∀ s, (k.ptable s).state ≠ .unused →
      ¬((k.ptable s).isthread = true ∧ (k.ptable s).parent = some cur)) : Family k' := by
  obtain ⟨e, he, hl⟩ := hf.live cur c hc (hformed cur c hc)
  rw [hold] at he
  cases he
  have hdd : d₀ ≠ d := by
    rintro rfl
    exact hf.fresh hp.own hb.fresh hc (hformed cur c hc) hold
  -- whoever else were on the old directory would be a thread of the caller
  have halone : ∀ t y, k.kins t = some y → y.pgdir = some d₀ → t = cur := by
    intro t y hy hd
    refine (hf.shared.under hc ha hth hy (hformed t y hy) (hd.trans hold.symm)).resolve_right ?_
    rintro ⟨ht, hpar⟩
    exact hno t (kins_state hy) ⟨(kin_isthread hy).trans ht, (kin_parent hy).trans hpar⟩
  have hfresh : ∀ t y, k.kins t = some y → y.stage ≠ .embryo → y.pgdir ≠ some d := fun t y hy hye =>
    hf.fresh hp.own hb.fresh hy hye
  have hcases : ∀ t y, k'.kins t = some y → y.pgdir ≠ some d₀ ∧
      (t = cur ∧ y.pgdir = some d ∨ k.kins t = some y) := by
    intro t y hy
    rw [hk] at hy
    rcases update_some hy with ⟨rfl, rfl⟩ | ⟨htc, hy⟩
    · exact ⟨fun h => hdd (Option.some.inj h).symm, .inl ⟨rfl, rfl⟩⟩
    · exact ⟨fun h => htc (halone t y hy h), .inr hy⟩
  refine ⟨fun t y hy _ => ?_, ?_, (hf.recorded.built hb).gone ?_ hg, ?_⟩
  · obtain ⟨hne, ⟨-, hd⟩ | hy⟩ := hcases t y hy
    · exact ⟨d, hd, by rw [hg.other d hdd.symm]; exact hb.self⟩
    · obtain ⟨e, he, hl⟩ := hf.live_other hformed hb.other hy (hfresh t y hy (hformed t y hy))
      exact ⟨e, he, by rw [hg.other e fun h => hne (h ▸ he)]; exact hl⟩
  · rw [hk]
    exact hf.shared.move hc ha hfresh rfl rfl rfl
  · rw [hb.other d₀ hdd]
    exact hl
  rw [hfr]
  intro f hfm
  rcases List.mem_append.mp hfm with hfm | hfm
  · exact hf.unheld f hfm
  · obtain rfl := List.mem_singleton.mp hfm
    refine List.eq_nil_iff_forall_not_mem.mpr fun t ht => ?_
    obtain ⟨y, hy, hyd, -⟩ := mem_holders.mp ht
    exact (hcases t y hy).1 hyd

theorem Family.join (hf : Family k) (hc : k.kins cur = some c) (ha : c.stage = .alive)
    (h : Joined k cur c s x k') : Family k' := by
  have hne : cur ≠ s := h.ne hc ha
  have hc' : Function.update k.kins s none cur = some c := (update_of_ne hne ..).trans hc
  refine ⟨fun t y hy hye => ?_, ?_, hf.recorded.of_isSome (fun e => by rw [h.dirs]) h.history,
    h.freed ▸ hf.unheld⟩
  · rw [h.kins] at hy
    rw [h.dirs]
    rcases update_some hy with ⟨rfl, rfl⟩ | ⟨-, hy⟩
    · exact hf.live t c hc hye
    · exact hf.live t y (update_none hy).2 hye
  · rw [h.kins]
    refine (hf.shared.remove h.kin h.zombie).update hc' rfl rfl rfl rfl fun hs => ?_
    rwa [Option.isSome_map]

/-- The kin of a caller that is told by its slot. -/
theorem Orderly.isthread (hG : Orderly k (.call cur e)) (hc : k.kins cur = some c) :
    (∀ a b f, e = .threadCreate a b f → c.isthread = false) ∧
      ∀ v, e = .threadExit v → c.isthread = true := by
  rw [← kin_isthread hc]
  constructor
  · rintro a b f rfl
    exact hG.2
  · rintro v rfl
    exact hG.2

/-- A process that ends by `exit` has no children if it has had threads, and only threads call
`thread_exit`. -/
theorem Orderly.ends {v : Nat} (hG : Orderly k (.call cur e)) (hready : e.Ready k cur)
    (hc : k.kins cur = some c) (which : e = .exit ∧ v = c.retVal ∨ e = .threadExit v) :
    c.isthread = true ∨ (c.threads.isSome → ∀ t y, k.kins t = some y → y.parent ≠ some cur) := by
  rcases which with ⟨rfl, -⟩ | rfl
  · refine .inr fun hs t y hy hpar => ?_
    have hmem : t ∈ k.slots fun p => p.parent = some cur := by
      rw [Kernel.slots, List.mem_filter]
      exact ⟨List.mem_finRange t, decide_eq_true ((kin_parent hy).trans hpar)⟩
    rw [hready ((kin_hasthread hc).trans hs)] at hmem
    cases hmem
  · exact .inl ((hG.isthread hc).2 _ rfl)

theorem Effect.family (hp : Paged k) (hG : Orderly k (.call cur e))
    (hready : e.Ready k cur) (hc : k.kins cur = some c) (ha : c.stage = .alive)
    (h : Effect k cur c e k') (hf : Family k) : Family k' := by
  have hformed : ∀ s x, k.kins s = some x → x.stage ≠ .embryo := fun s x => not_embryo hG.1
  have hce := hformed cur c hc
  cases h with
  | quiet kins mem freed _ =>
    refine ⟨fun t y hy hne => ?_, kins ▸ hf.shared,
      hf.recorded.of_isSome (fun e => by rw [mem.dirs]) mem.history, freed ▸ hf.unheld⟩
    rw [mem.dirs]
    exact hf.live t y (kins ▸ hy) hne
  | gaveUp kins mem freed _ =>
    refine ⟨fun t y hy hne => ?_, kins ▸ hf.shared, hf.recorded.unbuilt hp.own mem, ?_⟩
    · rw [mem.dirs]
      exact hf.live t y (kins ▸ hy) hne
    rcases freed with freed | ⟨d, hs, hd, freed, hh⟩
    · exact freed ▸ hf.unheld
    rw [freed]
    intro f hfm
    rcases List.mem_append.mp hfm with hfm | hfm
    · exact hf.unheld f hfm
    -- nobody holds a page that was free
    obtain rfl := List.mem_singleton.mp hfm
    refine List.eq_nil_iff_forall_not_mem.mpr fun t ht => ?_
    rcases hh t ht with ht | ⟨rfl, hslot, hdir⟩
    · obtain ⟨x, hx, hxd, -⟩ := mem_holders.mp ht
      exact hf.fresh hp.own hd hx (hformed t x hx) hxd
    · exact hG.2 t hslot d hd hdir
  | died _ which kins mem freed _ =>
    refine ⟨fun t y' hy' hne => ?_, ?_, mem ▸ hf.recorded, freed ▸ hf.unheld⟩
    · rw [kins] at hy'
      obtain ⟨y, hy, rfl⟩ := Option.map_eq_some_iff.mp hy'
      rw [mem]
      exact hf.live t y hy (hformed t y hy)
    · rw [kins]
      exact hf.shared.die hc (hG.ends hready hc which) ha _
  | born _ new _ kins mem _ _ freed _ =>
    refine ⟨fun t y hy hne => ?_, ?_, hf.recorded.built mem, freed ▸ hf.unheld⟩
    · rw [kins] at hy
      rcases update_some hy with ⟨rfl, rfl⟩ | ⟨-, hy⟩
      · exact ⟨_, rfl, mem.self⟩
      · obtain ⟨e, he, hl⟩ := hf.live t y hy hne
        refine ⟨e, he, ?_⟩
        rw [mem.other e fun h => hf.fresh hp.own mem.fresh hy hne (h ▸ he)]
        exact hl
    · rw [kins]
      exact hf.shared.add new fun t y hy hne => hf.fresh hp.own mem.fresh hy hne
  | reaped found kin zombie _ dir kins mem freed _ =>
    have hth := (kin_isthread kin).symm.trans (hG.2 _ found)
    exact hf.reap hformed kin zombie hth dir kins mem freed
  | joined _ h => exact hf.join hc ha h
  | barren kins mem freed _ =>
    exact hf.update hc kins rfl rfl rfl rfl (fun _ => rfl) (fun e => by rw [mem])
      (by rw [mem]) freed
  | threaded new _ dir _ _ _ _ made _ kins shared _ _ mem freed _ =>
    refine ⟨fun t y hy hye => ?_, ?_, hf.recorded.works mem, freed ▸ hf.unheld⟩
    · obtain ⟨e, he, hl⟩ : ∃ e, y.pgdir = some e ∧ (k.mem.dirs e).isSome := by
        rw [kins] at hy
        rcases update_some hy with ⟨rfl, rfl⟩ | ⟨-, hy⟩
        · rw [shared, ← dir]
          exact hf.live cur c hc hce
        · rcases update_some hy with ⟨rfl, rfl⟩ | ⟨-, hy⟩
          · exact hf.live t c hc hce
          · exact hf.live t y hy hye
      exact ⟨e, he, (works_isSome mem e).trans hl⟩
    · rw [kins]
      refine .addThread (.update hf.shared hc rfl rfl rfl rfl fun _ => rfl)
        ((update_of_ne (ne_of_new hc new) ..).trans new) (update_self ..) ha ((hG.isthread hc).1 _ _ _ rfl) rfl (shared.trans dir.symm) ?_
      cases made with
      | short stage => exact .inl stage
      | torn stage _ _ => exact .inl stage
      | done _ thread parent _ _ => exact .inr ⟨thread, parent⟩
  | left _ kins mem _ freed _ =>
    refine ⟨fun t y hy hye => ?_, ?_, hf.recorded.built mem, freed ▸ hf.unheld⟩
    · rw [kins] at hy
      rcases update_some hy with ⟨rfl, rfl⟩ | ⟨-, hy⟩
      · exact ⟨_, rfl, mem.self⟩
      · exact hf.live_other hformed mem.other hy (hf.fresh hp.own mem.fresh hy hye)
    · rw [kins]
      exact hf.shared.move hc ha (fun t y hy hye => hf.fresh hp.own mem.fresh hy hye) rfl rfl rfl
  | replaced process old kins built _ gone freed _ =>
    exact hf.replace hp hformed hc ha process old kins built gone freed
      (hG.2.resolve_left fun h => by rw [kin_isthread hc, process] at h; cases h)
  | moved _ kins mem freed _ =>
    exact hf.update hc kins rfl rfl rfl rfl id (fun e => by rw [mem]) (by rw [mem]) freed
  | resized _ _ kins _ mem freed _ =>
    exact hf.update hc kins rfl rfl rfl rfl id (works_isSome mem) mem.history freed

end

/-! ### Runs -/

theorem Booted.family {k : Kernel} (h : Booted k) : Family k := by
  obtain ⟨pages, initcode, hnd, h⟩ := h
  obtain ⟨d, p, -, hk, -, hf, hh, hd, -⟩ := userinit_kin hnd h
  have hcases : ∀ t y, k.kins t = some y → t = initproc ∧ y.pgdir = some d := by
    intro t y hy
    rw [hk] at hy
    rcases update_some hy with ⟨rfl, rfl⟩ | ⟨-, h⟩
    · exact ⟨rfl, rfl⟩
    · cases h
  refine ⟨fun s x hx _ => ⟨d, (hcases s x hx).2, (hd d).mpr rfl⟩, fun s t x y hne hx hy => ?_,
    ⟨fun e => ?_, by rw [hh]; trivial⟩, by rw [hf]; exact fun _ h => by cases h⟩
  · exact absurd ((hcases s x hx).1.trans (hcases t y hy).1.symm) hne
  · rw [hd, hh]
    exact ⟨fun h => .inl h.symm, fun h => (h.resolve_right id).symm⟩

theorem Still.family {k k' : Kernel} (hs : Still k k') (hf : Family k) : Family k' :=
  ⟨fun s x hx hne => hs.mem ▸ hf.live s x (hs.kins ▸ hx) hne, hs.kins ▸ hf.shared,
    hs.mem ▸ hf.recorded, hs.freed ▸ hf.unheld⟩

/-- The invariant in every orderly run. -/
theorem SysRun.family {k : Kernel} (r : SysRun Orderly k) : Family k :=
  (r.effects (fun _ hb => hb.family) (fun _ _ hs hf => hs.family hf)
    fun _ _ _ _ _ hp hG hr hc ha he hf => he.family hp hG hr hc ha hf).2

end Xv6.Kern
