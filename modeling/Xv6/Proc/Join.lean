import Xv6.Proc.Layout

/-!
# Proc — what `thread_join` returns

A thread ends once: its slot keeps the value it passed to `thread_exit` until it is freed, and no
other process ever gets its pid (`Dead`).  So when a thread is joined, the value stored is that one.
The history of a run is the list of its steps (`Support.Trace`).

`thread_join` does not ask whether the child it frees is a thread, and clears the entry of
`ex_thread` that the slot's old number names (`join_of_process`).
-/

namespace Xv6.Kern

open Support (Run Trace bind_ok update_some)

section

variable {k k' : Kernel} {cur s t : Slot} {c x x' : Kin} {e : Call} {pid v : Nat}

/-! ### Ended processes -/

/-- The process with this pid has ended with the value `v`, and perhaps been freed. -/
def Dead (pid v : Nat) (k : Kernel) : Prop :=
  pid < k.nextpid ∧ ∀ s x, k.kins s = some x → x.pid = pid → x.stage = .zombie ∧ x.retVal = v

theorem Effect.dead (hc : k.kins cur = some c) (ha : c.stage = .alive) (h : Effect k cur c e k')
    (hd : Dead pid v k) : Dead pid v k' := by
  refine ⟨hd.1.trans_le (h.pids hc).1, fun t x' hx' hpid => ?_⟩
  cases h.source hx' with
  | new _ new =>
    have := hd.1
    omega
  | same old => exact hd.2 t x' old hpid
  | self slot kept =>
    rw [kept]
    rw [kept] at hpid
    exact hd.2 t c (slot ▸ hc) hpid
  | after old _ eq =>
    subst eq
    obtain ⟨hz, hv⟩ := hd.2 t _ old hpid
    -- the caller is alive
    have htc : t ≠ cur := by
      rintro rfl
      cases hc.symm.trans old
      exact nomatch hz.symm.trans ha
    exact ⟨(if_neg htc).trans hz, (if_neg htc).trans hv⟩

theorem step_dead {ev : Event} (hp : Paged k) (h : step k ev = some k') (hd : Dead pid v k) :
    Dead pid v k' := by
  cases ev with
  | dispatch s =>
    obtain ⟨hm, rfl⟩ := step_dispatch h
    have hs := dispatch_still hm
    refine ⟨hd.1.trans_le hs.next, fun t x hx => hd.2 t x (hs.kins ▸ hx)⟩
  | call cur e =>
    obtain ⟨hrun, -, o, h⟩ := step_call h
    obtain ⟨c, hc, ha⟩ := running_kin hrun
    exact (call_effect hp hrun hc h).dead hc ha hd

/-- After `thread_exit(v)` its caller is dead. -/
theorem threadExit_dead (hl : Lineage k.kins k.nextpid)
    (h : step k (.call cur (.threadExit v)) = some k') : Dead (k.ptable cur).pid v k' := by
  obtain ⟨hrun, -, o, h⟩ := step_call h
  obtain ⟨c, hc, ha⟩ := running_kin hrun
  obtain ⟨k₁, h₁, h⟩ := bind_ok.mp h
  cases h
  obtain ⟨-, hkins, -, -, hn⟩ := threadExit_kins hc h₁
  rw [kin_pid hc]
  refine ⟨(hl.next cur c hc).trans_le hn, fun t x' hx' hpid => ?_⟩
  rw [hkins] at hx'
  obtain ⟨x, hx, rfl⟩ := Option.map_eq_some_iff.mp hx'
  obtain rfl := hl.pids t cur x c hx hc hpid
  exact ⟨if_pos rfl, if_pos rfl⟩

end

/-! ### Histories -/

/-- Tidy, and threads end with `thread_exit`. -/
def Joining (k : Kernel) (e : Event) : Prop :=
  Tidy k e ∧
    match e with
    | .call cur .exit => (k.ptable cur).isthread = false
    | _ => True

instance (k : Kernel) (e : Event) : Decidable (Joining k e) := by
  unfold Joining
  match e with
  | .dispatch _ => infer_instance
  | .call _ e =>
    match e with
    | .fork | .exit | .exitVisit _ | .wait | .threadCreate .. | .threadExit _ | .threadJoin ..
    | .setCpuShare _ | .sbrk _ | .exec .. | .kill _ | .sleep _ | .wakeup _ | .yield =>
      infer_instance

/-- A run of the kernel with its steps, each under the discipline. -/
abbrev History : Kernel → List (Kernel × Event) → Kernel → Prop :=
  Trace (fun k e k' => step k e = some k') Joining

/-- In one of the steps a thread with the pid has called `thread_exit(v)`. -/
def Exited (l : List (Kernel × Event)) (pid v : Nat) : Prop :=
  ∃ k s, (k, Event.call s (.threadExit v)) ∈ l ∧ k.IsThread s ∧ (k.ptable s).pid = pid

/-- In one of the steps the slot of a process with the pid was freed. -/
def Freed (l : List (Kernel × Event)) (pid : Nat) : Prop :=
  ∃ k e k' s, (k, e) ∈ l ∧ step k e = some k' ∧ Reaps s k k' ∧ (k.ptable s).pid = pid

section

variable {k₀ k k' : Kernel} {l : List (Kernel × Event)} {s : Slot} {x : Kin} {pid v : Nat}

theorem Trace.sysRun (hb : BootedOn 68 k₀) (r : History k₀ l k) : SysRun (fun _ _ => True) k :=
  ⟨k₀, hb.booted, r.run.mono fun _ _ _ => trivial⟩

theorem Exited.dead (hb : BootedOn 68 k₀) (r : History k₀ l k) (h : Exited l pid v) :
    Dead pid v k := by
  obtain ⟨k₁, s, hm, hs, rfl⟩ := h
  induction r with
  | refl => cases hm
  | more r hG hstep ih =>
    have hr := Trace.sysRun hb r
    rcases List.mem_cons.mp hm with h | h
    · cases h
      exact threadExit_dead hr.lineage hstep
    · exact step_dead hr.paged hstep (ih h)

theorem Exited.cons {p : Kernel × Event} (h : Exited l pid v) : Exited (p :: l) pid v := by
  obtain ⟨k₁, s, hm, h⟩ := h
  exact ⟨k₁, s, List.mem_cons_of_mem _ hm, h⟩

/-- A thread that has ended has called `thread_exit` with the value in its slot. -/
theorem zombie_exited (hb : BootedOn 68 k₀) (r : History k₀ l k) (hx : k.kins s = some x)
    (hth : x.isthread = true) (hz : x.stage = .zombie) : Exited l x.pid x.retVal := by
  induction r generalizing s x with
  | refl =>
    obtain ⟨pages, initcode, hnd, -, h⟩ := hb
    obtain ⟨d, p, -, hk, -⟩ := userinit_kin hnd h
    rw [hk] at hx
    rcases update_some hx with ⟨rfl, rfl⟩ | ⟨-, h⟩
    · cases hth
    · cases h
  | @more k k' e l r hG hstep ih =>
    have hr := Trace.sysRun hb r
    cases e with
    | dispatch t =>
      obtain ⟨hm, rfl⟩ := step_dispatch hstep
      exact (ih ((dispatch_still hm).kins ▸ hx) hth hz).cons
    | call cur e =>
      obtain ⟨hrun, -, o, h⟩ := step_call hstep
      obtain ⟨c, hc, ha⟩ := running_kin hrun
      cases (call_effect hr.paged hrun hc h).source hx with
      | new _ _ stage => exact absurd hz stage
      | same old => exact (ih old hth hz).cons
      | self _ kept => exact nomatch (hz.symm.trans (congrArg Kin.stage kept)).trans ha
      | @after y v old which eq =>
        subst eq
        by_cases hs : s = cur
        · have hv : (y.after cur v s).retVal = v := if_pos hs
          subst hs
          rw [hv]
          rcases which with ⟨rfl, -⟩ | rfl
          · exact nomatch hth.symm.trans ((kin_isthread old).symm.trans hG.2)
          · refine ⟨k, s, List.mem_cons_self .., ⟨?_, (kin_isthread old).trans hth⟩,
              (kin_pid old :)⟩
            rw [hrun]
            simp
        · have hv : (y.after cur v s).retVal = y.retVal := if_neg hs
          rw [hv]
          exact (ih old hth ((if_neg hs).symm.trans hz)).cons

/-- A pid whose slot was freed is not used again. -/
theorem Freed.forgotten (hb : BootedOn 68 k₀) (r : History k₀ l k) (h : Freed l pid) :
    Forgotten pid k := by
  obtain ⟨k₁, e₁, k₂, s, hm, h₁, hreap, rfl⟩ := h
  induction r with
  | refl => cases hm
  | more r _ hstep ih =>
    have hr := Trace.sysRun hb r
    rcases List.mem_cons.mp hm with h | h
    · cases h
      cases h₁.symm.trans hstep
      obtain ⟨hn, hk⟩ := step_pids hr.paged hstep
      exact hreap.forgotten hr.lineage hn hk
    · exact (ih h).step hr.paged hstep

/-- A step frees zombies only. -/
theorem Reaps.zombie {e : Event} (hp : Paged k) (h : step k e = some k') (hr : Reaps s k k') :
    ∃ x, k.kins s = some x ∧ x.stage = .zombie := by
  obtain ⟨hs, hs'⟩ := hr
  have hnone : k'.kins s = none := kin_eq_none.mpr hs'
  cases hx : k.kins s with
  | none => exact absurd (kin_eq_none.mp hx) hs
  | some x =>
    refine ⟨x, rfl, ?_⟩
    cases e with
    | dispatch t =>
      obtain ⟨hm, rfl⟩ := step_dispatch h
      rw [(dispatch_still hm).kins, hx] at hnone
      cases hnone
    | call cur e =>
      obtain ⟨hrun, -, o, h⟩ := step_call h
      obtain ⟨c, hc, ha⟩ := running_kin hrun
      exact (call_effect hp hrun hc h).freed_zombie hx hnone

end

/-! ### Numbers of threads -/

/-- The threads of the process in slot `M` that are not joined. -/
def Kernel.threadsOf (k : Kernel) (M : Slot) : Finset Slot :=
  Finset.univ.filter fun s =>
    ((k.ptable s).state ≠ .unused ∧ (k.ptable s).isthread = true) ∧ (k.ptable s).parent = some M

/-- The entries of `ex_thread` that are set. -/
def Proc.exThreads (p : Proc) : Finset (Fin NTHREAD) := Finset.univ.filter fun i => p.exThread i = true

section

variable {k : Kernel} {s M : Slot}

theorem mem_threadsOf : s ∈ k.threadsOf M ↔ ∃ y, k.kins s = some y ∧ y.ThreadOf M := by
  rw [Kernel.threadsOf, Finset.mem_filter_univ]
  constructor
  · rintro ⟨h, hp⟩
    obtain ⟨y, hy, hth⟩ := isThread_kin h
    exact ⟨y, hy, hth, (kin_parent hy).symm.trans hp⟩
  · rintro ⟨y, hy, hth, hp⟩
    refine ⟨⟨fun hu => ?_, (kin_isthread hy).trans hth⟩, (kin_parent hy).trans hp⟩
    exact nomatch (kin_eq_none.mpr hu).symm.trans hy

/-- Each thread of a process has an entry of its own. -/
theorem Team.card (ht : Team k.kins) {z : Kin} {F : Threads} (hz : k.kins M = some z)
    (ha : z.stage = .alive) (hF : z.threads = some F) :
    (k.ptable M).exThreads.card = (k.threadsOf M).card := by
  obtain ⟨-, rfl⟩ := kin_threads hz hF
  have hnum : ∀ s ∈ k.threadsOf M, ∃ i : Fin NTHREAD, (k.ptable s).threadNum = i.val ∧
      (k.ptable M).exThread i = true := by
    intro s hs
    obtain ⟨y, hy, hth, hp⟩ := mem_threadsOf.mp hs
    obtain ⟨M', z', F, i, hp', hz', -, -, hF', -, hn, hi, -⟩ := ht.mother s y hy hth
    cases hp.symm.trans hp'
    cases hz.symm.trans hz'
    cases hF.symm.trans hF'
    exact ⟨i, (kin_threadNum hy).trans hn, hi⟩
  have hof : ∀ (s : Slot) (i : Fin NTHREAD), (k.ptable s).threadNum = i.val →
      Fin.ofNat NTHREAD (k.ptable s).threadNum.toNat = i := by
    intro s i h
    rw [h, Int.toNat_natCast]
    exact Fin.ext (Nat.mod_eq_of_lt i.isLt)
  symm
  refine Finset.card_nbij (fun s => Fin.ofNat NTHREAD (k.ptable s).threadNum.toNat) ?_ ?_ ?_
  · intro s hs
    obtain ⟨i, hn, hi⟩ := hnum s hs
    change Fin.ofNat NTHREAD (k.ptable s).threadNum.toNat ∈ _
    rw [hof s i hn, Finset.mem_coe, Proc.exThreads, Finset.mem_filter_univ]
    exact hi
  · intro s hs t ht' e
    obtain ⟨i, hi, -⟩ := hnum s hs
    obtain ⟨j, hj, -⟩ := hnum t ht'
    simp only [hof s i hi, hof t j hj] at e
    obtain ⟨y, hy, hty⟩ := mem_threadsOf.mp hs
    obtain ⟨w, hw, htw⟩ := mem_threadsOf.mp ht'
    by_contra hne
    refine ht.distinct M s t y w hne hy hw hty htw ?_
    rw [← kin_threadNum hy, ← kin_threadNum hw, hi, hj, e]
  · intro i hi
    rw [Finset.mem_coe, Proc.exThreads, Finset.mem_filter_univ] at hi
    obtain ⟨s, y, hy, hth, hn⟩ := ht.used M z _ i hz ha hF hi
    exact ⟨s, mem_threadsOf.mpr ⟨y, hy, hth⟩, hof s i ((kin_threadNum hy).trans hn)⟩

end

end Xv6.Kern
