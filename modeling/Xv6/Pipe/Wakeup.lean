import Xv6.Pipe.Fifo
import Xv6.Support.Table

/-!
# Pipe — who sleeps is woken

A process that sleeps on `&p->nread` waits for a byte or for the end of the writers, one that sleeps
on `&p->nwrite` for room or for the end of the readers (`Ready`).  While somebody waits for what has
come, the process that has the lock is on its way to the `wakeup` of that channel (`Owed`): every
step that makes the pipe `Ready` is taken at a point from which the `wakeup` follows.

There is one way off: `pipewrite` that finds the pipe full, and its process killed or the read end
closed, returns -1 and does not wake the readers of the bytes it has stored.

* `killed_writer_loses_wakeup`: a reader sleeps, and the pipe is full.
* `pipe_wakeup`: **no lost wakeup**, where no reader sleeps at such a return.
-/

namespace Xv6.Pipe

open Function (update update_self update_of_ne)
open Support (update_none update_cases)

variable {P : Type} {s s' : System P} {p : P} {c : Chan}

/-! ### Waiting -/

/-- What a process that sleeps on the channel waits for. -/
def Pipe.Ready (p : Pipe) : Chan → Prop
  | .nread => ¬ p.Empty ∨ p.writeopen = false
  | .nwrite => ¬ p.Full ∨ p.readopen = false

/-- The channel of the `sleep` a process is in. -/
def Pc.chan : Pc → Option Chan
  | .writeSlept .. => some .nwrite
  | .readSlept _ => some .nread
  | _ => none

/-- The process is SLEEPING on the channel, or about to be: it has `ptable.lock`. -/
def System.Waits (s : System P) (c : Chan) (q : P) : Prop :=
  s.sleeping q = some c ∨ s.ptable = some q ∧ (s.pc q).chan = some c

/-- The points from which a process comes to `wakeup` of the channel before it releases the lock. -/
def Pc.owes : Pc → Chan → Bool
  | .writeLoop .., .nread | .writeFull .., .nread | .writeWake _, .nread => true
  | .closeWake true, .nread | .closeWake false, .nwrite => true
  | .readLoop .., .nwrite | .readWake .., .nwrite => true
  | _, _ => false

/-- Who waits for what has come is about to be woken. -/
def Owed (s : System P) : Prop :=
  ∀ c q, s.Waits c q → s.pipe.Ready c → ∃ p, s.lock = some p ∧ (s.pc p).owes c = true

/-- Nobody waits for what has come. -/
def Served (s : System P) (c : Chan) : Prop := ∀ q, s.Waits c q → ¬ s.pipe.Ready c

theorem Owed.served_of_free (h : Owed s) (hl : s.lock = none) (c : Chan) : Served s c := by
  intro q hw hr
  obtain ⟨p, hp, -⟩ := h c q hw hr
  rw [hl] at hp
  cases hp

theorem Owed.served (h : Owed s) (hf : Fifo s) (hp : (s.pc p).inside = true)
    (ho : (s.pc p).owes c = false) : Served s c := by
  intro q hw hr
  obtain ⟨p', hp', howes⟩ := h c q hw hr
  cases (hf.inside p hp).symm.trans hp'
  rw [ho] at howes
  cases howes

theorem owed_of_served (h : ∀ c, Served s c) : Owed s := fun c q hw hr => absurd hr (h c q hw)

variable [DecidableEq P]

variable {pc : Pc} {c₀ : Chan}

theorem System.Waits.back {q : P} (h : s'.Waits c q)
    (hpc : s'.pc = update s.pc p pc) (hsleeping : s'.sleeping = s.sleeping)
    (hptable : s'.ptable = s.ptable) (hc : pc.chan = none) : s.Waits c q := by
  rcases h with h | ⟨hq, h⟩
  · exact .inl (hsleeping ▸ h)
  rw [hpc] at h
  by_cases e : q = p
  · rw [e, update_self, hc] at h
    cases h
  · rw [update_of_ne e] at h
    exact .inr ⟨hptable ▸ hq, h⟩

/-! ### The steps of the process that has the lock -/

/-- The lock is kept: what the new point does not owe is served. -/
theorem owed_of_holder (pc : Pc) (hpc : s'.pc = update s.pc p pc)
    (hlock : s'.lock = some p) (h : ∀ c, pc.owes c = false → Served s' c) : Owed s' := by
  intro c q hw hr
  refine ⟨p, hlock, ?_⟩
  rw [hpc, update_self]
  cases ho : pc.owes c with
  | true => rfl
  | false => exact absurd hr (h c ho q hw)

section

variable (h : Owed s) (hf : Fifo s) (hp : (s.pc p).inside = true)
include h hf hp

theorem Owed.goto (hc : pc.chan = none) (ho : ∀ c, pc.owes c = false → (s.pc p).owes c = false) :
    Owed (s.goto p pc) :=
  owed_of_holder pc rfl (hf.inside p hp) fun c hoc q hw =>
    h.served hf hp (ho c hoc) q (hw.back rfl rfl rfl hc)

theorem Owed.release (ho : ∀ c, (s.pc p).owes c = true → Served s c) : Owed (s.release p) := by
  refine owed_of_served fun c q hw => ?_
  have hw : s.Waits c q := hw.back (p := p) rfl rfl rfl rfl
  cases hoc : (s.pc p).owes c with
  | true => exact ho c hoc q hw
  | false => exact h.served hf hp hoc q hw

theorem Owed.wakeup (hs : s.wakeup c₀ p pc = some s')
    (ho : ∀ c, c ≠ c₀ → (s.pc p).owes c = false) : Owed s' := by
  rw [System.wakeup] at hs
  split at hs
  · rename_i hpt
    cases hs
    refine owed_of_holder pc rfl (hf.inside p hp) fun c _ q hw => ?_
    rcases hw with hw | ⟨hq, -⟩
    · change (if s.sleeping q = some c₀ then none else s.sleeping q) = some c at hw
      split at hw
      · cases hw
      · rename_i hne
        refine h.served hf hp (ho c ?_) q (.inl hw)
        rintro rfl
        exact hne hw
    · cases hpt.symm.trans hq
  · cases hs

theorem Owed.sleep (hs : s.sleep p pc = some s') (hc : pc.chan = some c₀)
    (ho : ∀ c, (s.pc p).owes c = false) (hr : ¬ s.pipe.Ready c₀) : Owed s' := by
  rw [System.sleep] at hs
  split at hs
  · cases hs
    refine owed_of_served fun c q hw => ?_
    rcases hw with hw | ⟨hq, hw⟩
    · exact h.served hf hp (ho c) q (.inl hw)
    cases hq
    change (update s.pc p pc p).chan = some c at hw
    rw [update_self, hc] at hw
    cases hw
    exact hr
  · cases hs

end

/-! ### The other steps -/

theorem Owed.acquire (h : Owed s) (hs : s.acquire p pc = some s') (hc : pc.chan = none) :
    Owed s' := by
  rw [System.acquire] at hs
  split at hs
  · rename_i hl
    cases hs
    exact owed_of_served fun c q hw => h.served_of_free hl.1 c q (hw.back (p := p) rfl rfl rfl hc)
  · cases hs

theorem Owed.slept (h : Owed s) (hs : s.slept c₀ p pc = some s')
    (hp : (s.pc p).chan = some c₀) (hc : pc.chan = none) : Owed s' := by
  rw [System.slept] at hs
  split at hs
  · rename_i hpt
    cases hs
    intro c q hw hr
    -- it waited before it was marked
    refine h c q ?_ hr
    rcases hw with hw | ⟨hq, -⟩
    · change update s.sleeping p (some c₀) q = some c at hw
      rcases update_cases hw with ⟨e, hw⟩ | ⟨-, hw⟩
      · exact .inr ⟨by rw [e, hpt], by rw [e, hp, hw]⟩
      · exact .inl hw
    · cases hq
  · split at hs
    · exact h.acquire hs hc
    · cases hs

/-! ### Runs -/

/-- A `pipewrite` that gives up on a full pipe finds no reader asleep. -/
def ReadersAwake (s : System P) : Act P → Prop
  | .run p _ => ∀ n i, s.pc p = .writeLoop n i → (i : Int) < n → s.pipe.Full →
      s.pipe.readopen = false ∨ s.killed p = true → ∀ q, ¬ s.Waits .nread q
  | _ => True

theorem Owed.run {b : UInt8} (h : Owed s) (hf : Fifo s) (hg : ReadersAwake s (.run p b))
    (hs : s.run p b = some s') : Owed s' := by
  have hknown := hf.known p
  rw [System.run] at hs
  split at hs
  · cases hs
  · exact h.acquire hs rfl
  · -- the two loops of `pipewrite`
    rename_i n i hpc
    have hp : (s.pc p).inside = true := by rw [hpc]; rfl
    split at hs
    · rename_i hi
      split at hs
      · rename_i hfull
        split at hs
        · rename_i hstop
          cases hs
          refine h.release hf hp fun c hc q hw => ?_
          rw [hpc] at hc
          cases c with
          | nread => exact absurd hw (hg n i hpc hi hfull hstop q)
          | nwrite => cases hc
        · cases hs
          exact h.goto hf hp rfl fun c hc => by rw [hpc]; cases c <;> exact hc
      · rename_i hfull
        cases hs
        refine owed_of_holder (.writeLoop n (i + 1)) rfl (hf.inside p hp) fun c hc q hw hr => ?_
        have hw : s.Waits c q := hw.back (p := p) rfl rfl rfl rfl
        cases c with
        | nread => cases hc
        | nwrite => exact h.served hf hp (by rw [hpc]; rfl) q hw (.inl hfull)
    · cases hs
      exact h.goto hf hp rfl fun c hc => by rw [hpc]; cases c <;> exact hc
  · rename_i n i hpc
    refine h.wakeup hf (by rw [hpc]; rfl) hs fun c hc => ?_
    rw [hpc]
    cases c with
    | nread => exact absurd rfl hc
    | nwrite => rfl
  · rename_i n i hpc
    rw [hpc] at hknown
    refine h.sleep hf (by rw [hpc]; rfl) hs rfl (fun c => by rw [hpc]; rfl) ?_
    rintro (hr | hr)
    · exact hr (hf.data.full_iff.mpr hknown.1)
    · rw [hknown.2] at hr
      cases hr
  · rename_i n i hpc
    exact h.slept hs (by rw [hpc]; rfl) rfl
  · rename_i n hpc
    refine h.wakeup hf (by rw [hpc]; rfl) hs fun c hc => ?_
    rw [hpc]
    cases c with
    | nread => exact absurd rfl hc
    | nwrite => rfl
  · rename_i n hpc
    cases hs
    exact h.release hf (by rw [hpc]; rfl) fun c hc => by rw [hpc] at hc; cases hc
  · exact h.acquire hs rfl
  · -- the first loop of `piperead`
    rename_i n hpc
    have hp : (s.pc p).inside = true := by rw [hpc]; rfl
    split at hs
    · split at hs
      · cases hs
        exact h.release hf hp fun c hc => by rw [hpc] at hc; cases hc
      · cases hs
        exact h.goto hf hp rfl fun c hc => by rw [hpc]; rfl
    · cases hs
      exact h.goto hf hp rfl fun c hc => by rw [hpc]; rfl
  · rename_i n hpc
    rw [hpc] at hknown
    refine h.sleep hf (by rw [hpc]; rfl) hs rfl (fun c => by rw [hpc]; rfl) ?_
    rintro (hr | hr)
    · exact hr (hf.data.empty_iff.mpr hknown.1)
    · rw [hknown.2] at hr
      cases hr
  · rename_i n hpc
    exact h.slept hs (by rw [hpc]; rfl) rfl
  · -- the second loop of `piperead`
    rename_i n i hpc
    have hp : (s.pc p).inside = true := by rw [hpc]; rfl
    split at hs
    · rename_i hc
      cases hs
      refine owed_of_holder (.readLoop n (i + 1)) rfl (hf.inside p hp) fun c hoc q hw hr => ?_
      have hw : s.Waits c q := hw.back (p := p) rfl rfl rfl rfl
      cases c with
      | nread => exact h.served hf hp (by rw [hpc]; rfl) q hw (.inl hc.2)
      | nwrite => cases hoc
    · cases hs
      exact h.goto hf hp rfl fun c hc => by rw [hpc]; cases c <;> exact hc
  · rename_i n i hpc
    refine h.wakeup hf (by rw [hpc]; rfl) hs fun c hc => ?_
    rw [hpc]
    cases c with
    | nread => rfl
    | nwrite => exact absurd rfl hc
  · rename_i n i hpc
    cases hs
    exact h.release hf (by rw [hpc]; rfl) fun c hc => by rw [hpc] at hc; cases hc
  · exact h.acquire hs rfl
  · -- the end that is closed: those of the other end are to be woken
    rename_i w hpc
    have hp : (s.pc p).inside = true := by rw [hpc]; rfl
    cases hs
    refine owed_of_holder (.closeWake w) rfl (hf.inside p hp) fun c hoc q hw hr => ?_
    have hw : s.Waits c q := hw.back (p := p) rfl rfl rfl rfl
    refine h.served hf hp (by rw [hpc]; rfl) q hw ?_
    cases w <;> cases c <;> first | exact hr | cases hoc
  · rename_i w hpc
    refine h.wakeup hf (by rw [hpc]; rfl) hs fun c hc => ?_
    rw [hpc]
    cases w <;> cases c <;> first | rfl | exact absurd rfl hc
  · rename_i hpc
    cases hs
    exact h.release hf (by rw [hpc]; rfl) fun c hc => by rw [hpc] at hc; cases hc

theorem owed_step {a : Act P} (h : Owed s) (hf : Fifo s) (hg : ReadersAwake s a)
    (hs : s.step a = some s') : Owed s' := by
  cases a with
  | call p call =>
    rw [System.step] at hs
    split at hs
    · rename_i hidle
      cases hs
      intro c q hw hr
      have hc : call.start.chan = none := by cases call <;> rfl
      obtain ⟨p', hp', ho⟩ := h c q (hw.back (p := p) rfl rfl rfl hc) hr
      have hne : p' ≠ p := by
        rintro rfl
        rw [hidle] at ho
        cases ho
      refine ⟨p', hp', ?_⟩
      change (update s.pc p call.start p').owes c = true
      rw [update_of_ne hne]
      exact ho
    · cases hs
  | run p b => exact h.run hf hg hs
  | kill p =>
    rw [System.step] at hs
    split at hs
    · rename_i hpt
      cases hs
      intro c q hw hr
      refine h c q ?_ hr
      rcases hw with hw | ⟨hq, -⟩
      · change update s.sleeping p none q = some c at hw
        exact .inl (update_none hw).2
      · cases hpt.symm.trans hq
    · cases hs

theorem owed_run (h : PipeRun ReadersAwake s) : Fifo s ∧ Owed s := by
  obtain ⟨data, killed, h⟩ := h
  refine h.invariant (I := fun s => Fifo s ∧ Owed s) ⟨fifo_init data killed, fun c q hw => ?_⟩
    fun _ a _ hI hg hs => ⟨fifo_step (a := a) hI.1 hs, owed_step (a := a) hI.2 hI.1 hg hs⟩
  rcases hw with hw | ⟨hw, -⟩ <;> cases hw

/-- **No lost wakeup.**  In every run in which no reader is asleep when a `pipewrite` gives up on a
full pipe, whenever the lock is free nobody sleeps on `&p->nread` but on an empty pipe with its write
end open, and nobody on `&p->nwrite` but on a full one with its read end open. -/
theorem pipe_wakeup (h : PipeRun ReadersAwake s) (hl : s.lock = none) (q : P) :
    (s.sleeping q = some .nread → s.pipe.Empty ∧ s.pipe.writeopen = true) ∧
      (s.sleeping q = some .nwrite → s.pipe.Full ∧ s.pipe.readopen = true) := by
  have hserved := (owed_run h).2.served_of_free hl
  constructor
  · intro hq
    have := hserved .nread q (.inl hq)
    simpa [Pipe.Ready] using this
  · intro hq
    have := hserved .nwrite q (.inl hq)
    simpa [Pipe.Ready] using this

/-- One process writes a byte; another takes it, asks for the next and sleeps. -/
theorem pipe_wakeup_sleeps :
    ∃ s : System Bool, s.stored = [7] ∧ s.lock = none ∧ s.sleeping true = some .nread ∧
      s.pipe.Empty ∧ s.pipe.writeopen = true := by
  obtain ⟨s, r, hst, hl, hsl⟩ := Support.exists_run System.step (fun s _ => ¬ s.pipe.Full)
    (System.init (fun _ => 0) fun _ => false)
    (.call false (.pipewrite 1) :: List.replicate 5 (.run false 7) ++
      .call true (.piperead 1) :: List.replicate 6 (.run true 0) ++
      .call true (.piperead 1) :: List.replicate 4 (.run true 0))
    (fun s => s.stored = [7] ∧ s.lock = none ∧ s.sleeping true = some .nread) (by decide +kernel)
  have r : PipeRun ReadersAwake s := by
    refine ⟨_, _, r.mono fun t a hfull => ?_⟩
    cases a with
    | run p b => exact fun _ _ _ _ hf => absurd hf hfull
    | call p c => trivial
    | kill p => trivial
  exact ⟨s, hst, hl, hsl, (pipe_wakeup r hl true).1 hsl⟩

/-- One process waits for a byte; another, killed, writes more than fits, fills the pipe and returns. -/
theorem killed_writer_loses_wakeup :
    ∃ s : System Bool, PipeRun (fun _ _ => True) s ∧ s.lock = none ∧
      s.sleeping true = some .nread ∧ ¬ s.pipe.Empty := by
  obtain ⟨s, r, h⟩ := Support.exists_run System.step (fun _ _ => True)
    (System.init (fun _ => 0) fun _ => false)
    (.call true (.piperead 1) :: List.replicate 4 (.run true 0) ++
      .kill false :: .call false (.pipewrite 513) :: List.replicate 514 (.run false 7))
    (fun s => s.lock = none ∧ s.sleeping true = some .nread ∧ ¬ s.pipe.Empty) (by decide +kernel)
  exact ⟨s, ⟨_, _, r⟩, h⟩

end Xv6.Pipe
