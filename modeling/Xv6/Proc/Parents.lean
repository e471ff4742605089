import Xv6.Proc.Paged

/-!
# Proc — parents

A process that ends passes its children to init, and init never ends; a slot is freed only when its
process has ended.  So the parent of every process is alive (`Lineage.parent`), and since a pid is
never given twice (`Lineage.pids`, `Lineage.next`), a process is reaped once at most
(`Forgotten.step`).
-/

namespace Xv6.Kern

open Function (update_self update_of_ne)
open Support (Run update_some update_none eq_none_of_update_some eq_of_update_none)

/-- Who is whose child, in a table of processes with the next pid to give. -/
structure Lineage (kins : Slot → Option Kin) (next : Nat) : Prop where
  init : ∃ x, kins initproc = some x ∧ x.stage = .alive
  parent : ∀ s x, s ≠ initproc → kins s = some x → x.stage ≠ .embryo →
    ∃ q y, x.parent = some q ∧ kins q = some y ∧ y.stage = .alive
  pids : ∀ s t x y, kins s = some x → kins t = some y → x.pid = y.pid → s = t
  next : ∀ s x, kins s = some x → x.pid < next

namespace Lineage

variable {kins : Slot → Option Kin} {next next' : Nat} {cur s np : Slot} {c x : Kin}

section

variable (h : Lineage kins next)
include h

theorem later (hn : next ≤ next') : Lineage kins next' :=
  { h with next := fun s x hx => (h.next s x hx).trans_le hn }

/-- The process in `cur` changes, but not its stage, parent and pid. -/
theorem update (hc : kins cur = some c) {c' : Kin}
    (hst : c'.stage = c.stage) (hpar : c'.parent = c.parent) (hpid : c'.pid = c.pid)
    (hn : next ≤ next') : Lineage (Function.update kins cur (some c')) next' := by
  -- whatever is in the table was in it before, with the same three fields
  have hold : ∀ t y', Function.update kins cur (some c') t = some y' → ∃ y, kins t = some y ∧
      y'.stage = y.stage ∧ y'.parent = y.parent ∧ y'.pid = y.pid := by
    intro t y' hy'
    rcases update_some hy' with ⟨rfl, rfl⟩ | ⟨-, hy⟩
    · exact ⟨c, hc, hst, hpar, hpid⟩
    · exact ⟨y', hy, rfl, rfl, rfl⟩
  have hnew : ∀ t y, kins t = some y → y.stage = .alive →
      ∃ y', Function.update kins cur (some c') t = some y' ∧ y'.stage = .alive := by
    intro t y hy ha
    by_cases e : t = cur
    · subst e
      rw [hc] at hy
      cases hy
      exact ⟨c', update_self .., hst.trans ha⟩
    · exact ⟨y, by rw [update_of_ne e, hy], ha⟩
  constructor
  · obtain ⟨y, hy, ha⟩ := h.init
    exact hnew initproc y hy ha
  · intro t y' ht hy' hne
    obtain ⟨y, hy, est, epar, -⟩ := hold t y' hy'
    obtain ⟨q, z, hq, hz, ha⟩ := h.parent t y ht hy (est ▸ hne)
    obtain ⟨z', hz', ha'⟩ := hnew q z hz ha
    exact ⟨q, z', epar.trans hq, hz', ha'⟩
  · intro t u y' z' hy' hz' e
    obtain ⟨y, hy, -, -, ey⟩ := hold t y' hy'
    obtain ⟨z, hz, -, -, ez⟩ := hold u z' hz'
    exact h.pids t u y z hy hz (by rw [← ey, ← ez, e])
  · intro t y' hy'
    obtain ⟨y, hy, -, -, ey⟩ := hold t y' hy'
    rw [ey]
    exact (h.next t y hy).trans_le hn

/-- A process that has ended is nobody's parent, and goes. -/
theorem remove (hx : kins s = some x) (hz : x.stage = .zombie) :
    Lineage (Function.update kins s none) next := by
  have hstay : ∀ t y, kins t = some y → y.stage = .alive →
      Function.update kins s none t = some y := by
    intro t y hy ha
    rw [update_of_ne, hy]
    rintro rfl
    rw [hx] at hy
    cases hy
    rw [ha] at hz
    cases hz
  constructor
  · obtain ⟨y, hy, ha⟩ := h.init
    exact ⟨y, hstay initproc y hy ha, ha⟩
  · intro t y ht hy hne
    obtain ⟨q, z, hq, hz, ha⟩ := h.parent t y ht (update_none hy).2 hne
    exact ⟨q, z, hq, hstay q z hz ha, ha⟩
  · intro t u y z hy hz
    exact h.pids t u y z (update_none hy).2 (update_none hz).2
  · intro t y hy
    exact h.next t y (update_none hy).2

/-- A child of a live process, with a new pid. -/
theorem add (hnew : kins np = none) (hc : kins cur = some c)
    (ha : c.stage = .alive) (hx : x.stage = .embryo ∨ x.parent = some cur) (hpid : x.pid = next)
    (hn : next < next') : Lineage (Function.update kins np (some x)) next' := by
  have hstay : ∀ t y, kins t = some y → Function.update kins np (some x) t = some y := by
    intro t y hy
    rw [update_of_ne, hy]
    rintro rfl
    rw [hnew] at hy
    cases hy
  constructor
  · obtain ⟨y, hy, hi⟩ := h.init
    exact ⟨y, hstay initproc y hy, hi⟩
  · intro t y ht hy hne
    rcases update_some hy with ⟨rfl, rfl⟩ | ⟨-, hy⟩
    · exact ⟨cur, c, hx.resolve_left hne, hstay cur c hc, ha⟩
    · obtain ⟨q, z, hq, hz, hza⟩ := h.parent t y ht hy hne
      exact ⟨q, z, hq, hstay q z hz, hza⟩
  · intro t u y z hy hz e
    rcases update_some hy with ⟨rfl, rfl⟩ | ⟨-, hyt⟩
    · rcases update_some hz with ⟨rfl, rfl⟩ | ⟨-, hz⟩
      · rfl
      · have := h.next u z hz
        omega
    · rcases update_some hz with ⟨rfl, rfl⟩ | ⟨-, hz⟩
      · have := h.next _ _ hyt
        omega
      · exact h.pids t u y z hyt hz e
  · intro t y hy
    rcases update_some hy with ⟨rfl, rfl⟩ | ⟨-, hy⟩
    · omega
    · exact (h.next t y hy).trans hn

/-- A process other than init ends. -/
theorem die (hinit : cur ≠ initproc) (hc : kins cur = some c) (ha : c.stage = .alive) (v : Nat) :
    Lineage (fun s => (kins s).map (·.after cur v s)) next := by
  have hstay : ∀ t y, kins t = some y → y.stage = .alive → t ≠ cur →
      ∃ y', (kins t).map (·.after cur v t) = some y' ∧ y'.stage = .alive := by
    intro t y hy hya hne
    exact ⟨y.after cur v t, by rw [hy, Option.map_some], by rw [Kin.after, if_neg hne, hya]⟩
  constructor
  · obtain ⟨y, hy, hi⟩ := h.init
    exact hstay initproc y hy hi hinit.symm
  · intro t y' ht hy' hne
    obtain ⟨y, hy, rfl⟩ := Option.map_eq_some_iff.mp hy'
    have hne : y.stage ≠ .embryo := by
      by_cases e : t = cur
      · subst e
        rw [hc] at hy
        cases hy
        rw [ha]
        simp
      · rwa [Kin.after, if_neg e] at hne
    obtain ⟨q, z, hq, hz, hza⟩ := h.parent t y ht hy hne
    by_cases e : q = cur
    · -- its parent ends: init is the new one
      obtain ⟨i, hi, hia⟩ := h.init
      obtain ⟨i', hi', hia'⟩ := hstay initproc i hi hia hinit.symm
      exact ⟨initproc, i', by rw [Kin.after, hq, e, if_pos rfl], hi', hia'⟩
    · obtain ⟨z', hz', hza'⟩ := hstay q z hz hza e
      refine ⟨q, z', ?_, hz', hza'⟩
      rw [Kin.after, hq, if_neg (fun h => e (Option.some.inj h))]
  · intro t u y' z' hy' hz' e
    obtain ⟨y, hy, rfl⟩ := Option.map_eq_some_iff.mp hy'
    obtain ⟨z, hz, rfl⟩ := Option.map_eq_some_iff.mp hz'
    exact h.pids t u y z hy hz e
  · intro t y' hy'
    obtain ⟨y, hy, rfl⟩ := Option.map_eq_some_iff.mp hy'
    exact h.next t y hy

end

end Lineage

theorem Made.embryo_or_child {cur : Slot} {d : Vm.Page} {x : Kin} {m : Vm.Mem} {ok : Bool}
    (h : Made cur d x m ok) : x.stage = .embryo ∨ x.parent = some cur := by
  cases h with
  | short stage => exact .inl stage
  | torn stage _ _ => exact .inl stage
  | done _ _ parent _ _ => exact .inr parent

section

variable {k k' : Kernel} {cur s : Slot} {c x : Kin}

/-- The caller is not the zombie it reaps. -/
theorem Joined.ne (h : Joined k cur c s x k') (hc : k.kins cur = some c) (ha : c.stage = .alive) :
    cur ≠ s := by
  rintro rfl
  have hx := h.kin
  rw [hc] at hx
  cases hx
  have hz := h.zombie
  rw [ha] at hz
  cases hz

theorem ne_of_new {np : Slot} (hc : k.kins cur = some c) (hnew : k.kins np = none) : np ≠ cur := by
  rintro rfl
  rw [hc] at hnew
  cases hnew

theorem Effect.lineage {call : Call} (hc : k.kins cur = some c) (ha : c.stage = .alive)
    (h : Effect k cur c call k') (hl : Lineage k.kins k.nextpid) : Lineage k'.kins k'.nextpid := by
  cases h with
  | quiet kins _ _ next | gaveUp kins _ _ next =>
    rw [kins]
    exact hl.later next
  | died init _ kins _ _ next =>
    rw [kins]
    exact (hl.die init hc ha _).later next
  | born _ new _ kins _ _ _ _ next =>
    rw [kins]
    exact hl.add new hc ha (.inr rfl) rfl next
  | reaped _ kin zombie _ _ kins _ _ next =>
    rw [kins]
    exact (hl.remove kin zombie).later next
  | joined _ h =>
    rw [h.kins]
    have hc' := (update_of_ne (h.ne hc ha) none k.kins).trans hc
    exact (hl.remove h.kin h.zombie).update hc' rfl rfl rfl h.next
  | threaded new _ _ _ _ _ _ made _ kins _ _ pid _ _ next =>
    rw [kins]
    refine .add (.update hl hc rfl rfl rfl (Nat.le_refl _)) ?_ (update_self ..) ha
      made.embryo_or_child pid next
    exact (update_of_ne (ne_of_new hc new) ..).trans new
  | barren kins _ _ next | left _ kins _ _ _ next | replaced _ _ kins _ _ _ _ next
  | moved _ kins _ _ next | resized _ _ kins _ _ _ next =>
    rw [kins]
    exact hl.update hc rfl rfl rfl next

end

variable {k k' : Kernel}

theorem Booted.lineage (h : Booted k) : Lineage k.kins k.nextpid := by
  obtain ⟨pages, initcode, hnd, h⟩ := h
  obtain ⟨d, p, -, hk, hn, -⟩ := userinit_kin hnd h
  have hcases : ∀ t y, k.kins t = some y → t = initproc ∧ y.pid = 1 := by
    intro t y hy
    rw [hk] at hy
    rcases update_some hy with ⟨rfl, rfl⟩ | ⟨-, h⟩
    · exact ⟨rfl, rfl⟩
    · cases h
  refine ⟨⟨_, by rw [hk]; exact update_self .., rfl⟩, fun s x hs hx => ?_,
    fun s t x y hx hy _ => (hcases s x hx).1.trans (hcases t y hy).1.symm, fun s x hx => ?_⟩
  · exact absurd (hcases s x hx).1 hs
  · rw [(hcases s x hx).2, hn]
    decide

/-- In every reachable kernel the parent of every process is alive, and pids are unique. -/
theorem SysRun.lineage {G : Kernel → Event → Prop} (r : SysRun G k) :
    Lineage k.kins k.nextpid :=
  (r.effects (I := fun k => Lineage k.kins k.nextpid) (fun _ hb => hb.lineage)
    (fun _ _ hs hl => (hs.kins ▸ hl).later hs.next)
    fun _ _ _ _ _ _ _ _ hc ha he hl => he.lineage hc ha hl).2

/-! ### Reaping -/

/-- The slot `s`, which was in use, is unused after the step. -/
def Reaps (s : Slot) (k k' : Kernel) : Prop :=
  (k.ptable s).state ≠ .unused ∧ (k'.ptable s).state = .unused

/-- A pid that was given, and that no process has any more. -/
def Forgotten (pid : Nat) (k : Kernel) : Prop :=
  pid < k.nextpid ∧ ∀ s x, k.kins s = some x → x.pid ≠ pid

theorem Reaps.forgotten {s : Slot} (h : Reaps s k k')
    (hl : Lineage k.kins k.nextpid) (hn : k.nextpid ≤ k'.nextpid)
    (hk : ∀ t x', k'.kins t = some x' →
      (∃ x, k.kins t = some x ∧ x'.pid = x.pid) ∨ k.nextpid ≤ x'.pid) :
    Forgotten (k.ptable s).pid k' := by
  obtain ⟨hs, hs'⟩ := h
  cases hx : k.kins s with
  | none => exact absurd (kin_eq_none.mp hx) hs
  | some x =>
    rw [kin_pid hx]
    refine ⟨(hl.next s x hx).trans_le hn, fun t y' hy' e => ?_⟩
    rcases hk t y' hy' with ⟨y, hy, ey⟩ | hge
    · obtain rfl := hl.pids t s y x hy hx (by rw [← ey, e])
      have hnone : k'.kins t = none := kin_eq_none.mpr hs'
      rw [hnone] at hy'
      cases hy'
    · have := hl.next s x hx
      omega

/-! ### Where a process comes from -/

/-- Where the kin `y` of the slot `t` after a call comes from. -/
inductive Source (k : Kernel) (cur : Slot) (c : Kin) (e : Call) (t : Slot) (y : Kin) : Prop where
  | same (old : k.kins t = some y)
  /-- the caller, with another image or another table of threads -/
  | self (slot : t = cur) (kept : y = { c with pgdir := y.pgdir, threads := y.threads, sz := y.sz })
      (threads : c.threads.isSome = true → y.threads.isSome = true)
  /-- the caller has ended -/
  | after {x : Kin} {v : Nat} (old : k.kins t = some x)
      (which : e = .exit ∧ v = c.retVal ∨ e = .threadExit v) (eq : y = x.after cur v t)
  | new (free : k.kins t = none) (pid : y.pid = k.nextpid) (stage : y.stage ≠ .zombie)
      (kstack : y.kstack ≠ none)

section

variable {k k' : Kernel} {cur t : Slot} {c x y : Kin} {e : Call}

theorem Effect.source (h : Effect k cur c e k') (hy : k'.kins t = some y) :
    Source k cur c e t y := by
  -- a call that changes the caller only
  have hupd : ∀ {f : Slot → Option Kin} {c' : Kin}, Function.update f cur (some c') t = some y →
      (f t = some y → k.kins t = some y) →
      c' = { c with pgdir := c'.pgdir, threads := c'.threads, sz := c'.sz } →
      (c.threads.isSome = true → c'.threads.isSome = true) → Source k cur c e t y := by
    intro f c' hf hold hc' hth
    rcases update_some hf with ⟨rfl, rfl⟩ | ⟨-, hy⟩
    · exact .self rfl hc' hth
    · exact .same (hold hy)
  cases h with
  | quiet kins | gaveUp kins => exact .same (kins ▸ hy)
  | died _ which kins =>
    rw [kins] at hy
    obtain ⟨x, hx, rfl⟩ := Option.map_eq_some_iff.mp hy
    exact .after hx which rfl
  | born _ new _ kins =>
    rw [kins] at hy
    rcases update_some hy with ⟨rfl, rfl⟩ | ⟨-, hy⟩
    · exact .new new rfl nofun nofun
    · exact .same hy
  | reaped _ _ _ _ _ kins =>
    rw [kins] at hy
    exact .same (update_none hy).2
  | joined _ h =>
    rw [h.kins] at hy
    exact hupd hy (fun h => (update_none h).2) rfl fun hth => (Option.isSome_map ..).trans hth
  | barren kins => exact hupd ((congrFun kins t).symm.trans hy) id rfl fun _ => rfl
  | threaded new _ _ _ _ _ _ made _ kins _ kstack pid =>
    rw [kins] at hy
    rcases update_some hy with ⟨rfl, rfl⟩ | ⟨-, hy⟩
    · refine .new new pid ?_ (kstack ▸ Option.some_ne_none _)
      cases made with
      | short stage | torn stage | done stage =>
        rw [stage]
        exact nofun
    · exact hupd hy id rfl fun _ => rfl
  | left _ kins | replaced _ _ kins | moved _ kins | resized _ _ kins =>
    exact hupd ((congrFun kins t).symm.trans hy) id rfl id

/-- A call frees zombies only. -/
theorem Effect.freed_zombie (h : Effect k cur c e k') (hx : k.kins t = some x)
    (hnone : k'.kins t = none) : x.stage = .zombie := by
  have hlost : k.kins t ≠ none := by
    rw [hx]
    simp
  cases h with
  | quiet kins | gaveUp kins => exact absurd (kins ▸ hnone) hlost
  | died _ _ kins =>
    rw [kins] at hnone
    exact absurd (Option.map_eq_none_iff.mp hnone) hlost
  | reaped _ kin zombie _ _ kins =>
    obtain rfl := eq_of_update_none hx (kins ▸ hnone)
    cases hx.symm.trans kin
    exact zombie
  | joined _ h =>
    obtain rfl := eq_of_update_none hx (eq_none_of_update_some (h.kins ▸ hnone))
    cases hx.symm.trans h.kin
    exact h.zombie
  | threaded _ _ _ _ _ _ _ _ _ kins =>
    exact absurd (eq_none_of_update_some (eq_none_of_update_some (kins ▸ hnone))) hlost
  | born _ _ _ kins | barren kins | left _ kins | replaced _ _ kins | moved _ kins
  | resized _ _ kins => exact absurd (eq_none_of_update_some (kins ▸ hnone)) hlost

theorem Effect.next (h : Effect k cur c e k') : k.nextpid ≤ k'.nextpid := by
  cases h with
  | joined _ h => exact h.next
  | born _ _ _ _ _ _ _ _ next | threaded _ _ _ _ _ _ _ _ _ _ _ _ _ _ _ next => exact next.le
  | quiet _ _ _ next | gaveUp _ _ _ next | barren _ _ _ next | died _ _ _ _ _ next
  | reaped _ _ _ _ _ _ _ _ next | left _ _ _ _ _ next | replaced _ _ _ _ _ _ _ next
  | moved _ _ _ _ next | resized _ _ _ _ _ _ next => exact next

/-- A process in the table after a step was there with its pid before, or has a new pid. -/
theorem Effect.pids (hc : k.kins cur = some c) (h : Effect k cur c e k') :
    k.nextpid ≤ k'.nextpid ∧ ∀ t x', k'.kins t = some x' →
      (∃ x, k.kins t = some x ∧ x'.pid = x.pid) ∨ k.nextpid ≤ x'.pid := by
  refine ⟨h.next, fun t x' hx' => ?_⟩
  cases h.source hx' with
  | same old => exact .inl ⟨x', old, rfl⟩
  | self slot kept => exact .inl ⟨c, slot ▸ hc, by rw [kept]⟩
  | after old _ eq => exact .inl ⟨_, old, by rw [eq]; rfl⟩
  | new _ pid => exact .inr pid.ge

end

theorem step_pids {e : Event} (hp : Paged k) (h : step k e = some k') :
    k.nextpid ≤ k'.nextpid ∧ ∀ t x', k'.kins t = some x' →
      (∃ x, k.kins t = some x ∧ x'.pid = x.pid) ∨ k.nextpid ≤ x'.pid := by
  cases e with
  | dispatch s =>
    obtain ⟨hm, rfl⟩ := step_dispatch h
    have hs := dispatch_still hm
    exact ⟨hs.next, fun t x hx => .inl ⟨x, hs.kins ▸ hx, rfl⟩⟩
  | call cur e =>
    obtain ⟨hrun, -, o, h⟩ := step_call h
    obtain ⟨c, hc, -⟩ := running_kin hrun
    exact (call_effect hp hrun hc h).pids hc

theorem Forgotten.step {e : Event} {pid : Nat} (hf : Forgotten pid k)
    (hp : Paged k) (h : step k e = some k') : Forgotten pid k' := by
  obtain ⟨hn, hk⟩ := step_pids hp h
  refine ⟨hf.1.trans_le hn, fun t x' hx' => ?_⟩
  rcases hk t x' hx' with ⟨x, hx, e⟩ | hge
  · rw [e]
    exact hf.2 t x hx
  · have := hf.1
    omega

/-- A run of the kernel. -/
abbrev Steps : Kernel → Kernel → Prop := Run (fun k e k' => step k e = some k') fun _ _ => True

theorem SysRun.steps (r : SysRun (fun _ _ => True) k) (h : Steps k k') :
    SysRun (fun _ _ => True) k' := by
  obtain ⟨k₀, hb, r⟩ := r
  exact ⟨k₀, hb, r.trans h⟩

theorem Forgotten.steps {pid : Nat} (r : SysRun (fun _ _ => True) k)
    (hf : Forgotten pid k) (h : Steps k k') : Forgotten pid k' := by
  induction h with
  | refl => exact hf
  | more h' _ hstep ih => exact ih.step (r.steps h').paged hstep

/-- **Parents, and reaping once.**  Every process other than init that is runnable, running,
sleeping or a zombie has a parent that is neither unused nor a zombie; and when a run frees the slot
of a process and later the slot of a process again, the two have different pids. -/
theorem parents_live_and_reaped_once :
    (∀ k, SysRun (fun _ _ => True) k → ∀ s, s ≠ initproc →
      (k.ptable s).state ∈ [State.runnable, .running, .sleeping, .zombie] →
      ∃ q, (k.ptable s).parent = some q ∧ (k.ptable q).state ≠ .unused ∧
        (k.ptable q).state ≠ .zombie) ∧
    ∀ k₁ e k₂ k₃ e' k₄ s s', SysRun (fun _ _ => True) k₁ → step k₁ e = some k₂ → Steps k₂ k₃ →
      step k₃ e' = some k₄ → Reaps s k₁ k₂ → Reaps s' k₃ k₄ →
      (k₁.ptable s).pid ≠ (k₃.ptable s').pid := by
  refine ⟨fun k r s hs hst => ?_, fun k₁ e k₂ k₃ e' k₄ s s' r h₁ h₂ h₃ hr hr' => ?_⟩
  · cases hx : k.kins s with
    | none =>
      rw [kin_eq_none.mp hx] at hst
      simp at hst
    | some x =>
      have hne : x.stage ≠ .embryo := by
        intro e
        have := (kin_some hx).1
        rw [e] at this
        cases hq : (k.ptable s).state <;> rw [hq] at this hst <;> simp [State.stage] at this hst
      obtain ⟨q, y, hq, hy, ha⟩ := r.lineage.parent s x hs hx hne
      have hst' := (kin_some hy).1
      rw [ha] at hst'
      refine ⟨q, (kin_parent hx).trans hq, ?_, ?_⟩ <;> intro e <;> rw [e] at hst' <;> cases hst'
  · have hp := step_pids r.paged h₁
    have hf := hr.forgotten r.lineage hp.1 hp.2
    have hf' := hf.steps (r.steps (.more .refl trivial h₁)) h₂
    obtain ⟨hs', -⟩ := hr'
    cases hx : k₃.kins s' with
    | none => exact absurd (kin_eq_none.mp hx) hs'
    | some x =>
      rw [kin_pid hx]
      exact (hf'.2 s' x hx).symm

/-- Init forks, the child ends, and is a zombie with a live parent. -/
theorem parents_live_and_reaped_once_zombie : ∃ k, SysRun (fun _ _ => True) k ∧
    (k.ptable 1).state = .zombie ∧ ∃ q, (k.ptable 1).parent = some q ∧
      (k.ptable q).state ≠ .unused ∧ (k.ptable q).state ≠ .zombie := by
  obtain ⟨k, r, hz⟩ := exists_sysRun (fun _ _ => True) 200
    [.dispatch 0, .call 0 .fork, .dispatch 1, .call 1 .exit]
    (fun k => (k.ptable 1).state = .zombie) (by decide +kernel)
  exact ⟨k, r, hz, parents_live_and_reaped_once.1 k r 1 (by decide) (by rw [hz]; simp)⟩

end Xv6.Kern
