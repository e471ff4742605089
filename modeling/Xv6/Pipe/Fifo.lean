import Xv6.Pipe.Pipe
import Xv6.Support.Result
import Xv6.Support.Window

/-!
# Pipe — bytes come out in the order they went in

The bytes stored and the bytes delivered are two streams, of which the counters are the lengths
modulo `2 ^ 32` and the ring holds what the first is ahead of the second (`Data`).  Who is between
`acquire` and `release` has the lock, and nobody else has it; so what it has found out about the pipe
stays true until it releases the lock (`Known`).

* `pipe_fifo`: **first in, first out**, for any number of readers and writers, and what it means that
  `piperead` returns 0.
-/

namespace Xv6.Pipe

open Support (Window counter_eq_iff counter_add counter_mod)

variable {P : Type}

/-! ### The ring -/

/-- The pipe holds what was stored and not delivered. -/
structure Data (p : Pipe) (stored got : List UInt8) : Prop where
  nread : p.nread = UInt32.ofNat got.length
  nwrite : p.nwrite = UInt32.ofNat stored.length
  order : got <+: stored
  window : Window PIPESIZE p.data got.length stored

namespace Data

variable {p : Pipe} {stored got : List UInt8}

theorem empty_iff (h : Data p stored got) : p.Empty ↔ got = stored := by
  have hle := h.window.fits
  have hlt : stored.length < got.length + 2 ^ 32 := by
    simp only [PIPESIZE] at hle
    omega
  rw [Pipe.Empty, h.nread, h.nwrite, counter_eq_iff h.window.start hlt]
  exact ⟨h.order.eq_of_length, congrArg List.length⟩

theorem full_iff (h : Data p stored got) : p.Full ↔ stored.length = got.length + PIPESIZE := by
  have hle := h.window.fits
  have hlt : got.length + PIPESIZE < stored.length + 2 ^ 32 := by
    have := h.window.start
    simp only [PIPESIZE]
    omega
  rw [Pipe.Full, h.nread, h.nwrite, counter_add, counter_eq_iff hle hlt]

end Data

section

variable {s s' : System P} {p : P}

section

variable (h : Data s.pipe s.stored s.got)
include h

theorem Data.put {b : UInt8} (hf : ¬ s.pipe.Full) :
    Data (s.put b).pipe (s.put b).stored (s.put b).got where
  nread := h.nread
  nwrite := by
    change s.pipe.nwrite + 1 = _
    rw [h.nwrite, System.put, List.length_append]
    exact counter_add _ 1
  order := h.order.trans (List.prefix_append ..)
  window := by
    have hroom : s.stored.length < s.got.length + PIPESIZE :=
      Nat.lt_of_le_of_ne h.window.fits fun e => hf (h.full_iff.mpr e)
    have hw := h.window.push hroom b
    rwa [← counter_mod (by decide), ← h.nwrite] at hw

theorem Data.take (he : ¬ s.pipe.Empty) : Data s.take.pipe s.take.stored s.take.got := by
  have hlt : s.got.length < s.stored.length :=
    Nat.lt_of_le_of_ne h.window.start fun e => he (h.empty_iff.mpr (h.order.eq_of_length e))
  have hlen : (s.take).got.length = s.got.length + 1 := by simp [System.take]
  have hcell := h.window.head hlt
  rw [← counter_mod (by decide), ← h.nread] at hcell
  refine ⟨?_, h.nwrite, Support.prefix_snoc h.order hcell, ?_⟩
  · change s.pipe.nread + 1 = _
    rw [h.nread, hlen]
    exact counter_add _ 1
  · rw [hlen]
    exact h.window.pop hlt

theorem Data.shut {w : Bool} : Data (s.shut w).pipe (s.shut w).stored (s.shut w).got := by
  cases w <;> exact ⟨h.nread, h.nwrite, h.order, h.window⟩

end

/-! ### The invariant -/

/-- The points between `acquire` and `release`. -/
def Pc.inside : Pc → Bool
  | .writeLoop .. | .writeFull .. | .writeSleep .. | .writeWake _ | .writeDone _ | .readWait _
  | .readSleep _ | .readLoop .. | .readWake .. | .readDone .. | .closeEnd _ | .closeWake _
  | .closeDone => true
  | _ => false

/-- What a process at a point has found out about the pipe. -/
def Known (p : Pipe) (stored got : List UInt8) : Pc → Prop
  | .writeFull .. | .writeSleep .. => stored.length = got.length + PIPESIZE ∧ p.readopen = true
  | .readSleep _ => got = stored ∧ p.writeopen = true
  | .readLoop _ 0 => got ≠ stored ∨ p.writeopen = false
  | .readWake n 0 | .readDone n 0 => 0 < n → got = stored ∧ p.writeopen = false
  | _ => True

variable {pc : Pc}

theorem known_of_outside {p : Pipe} {stored got : List UInt8} (h : pc.inside = false) :
    Known p stored got pc := by
  cases pc <;> trivial

/-- The lock and the ring are in order. -/
structure Fifo (s : System P) : Prop where
  inside : ∀ p, (s.pc p).inside = true → s.lock = some p
  data : Data s.pipe s.stored s.got
  known : ∀ p, Known s.pipe s.stored s.got (s.pc p)

variable [DecidableEq P]

/-- A step of process `p` to the point `pc`, with what it is to establish. -/
theorem Fifo.moves (h : Fifo s) (hpc : s'.pc = Function.update s.pc p pc)
    (hin : pc.inside = true → s'.lock = some p) (hother : ∀ q, q ≠ p → (s.pc q).inside = true →
      s'.lock = some q ∧ s'.pipe = s.pipe ∧ s'.stored = s.stored ∧ s'.got = s.got)
    (hdata : Data s'.pipe s'.stored s'.got) (hknown : Known s'.pipe s'.stored s'.got pc) :
    Fifo s' where
  inside q hq := by
    rw [hpc] at hq
    by_cases e : q = p
    · subst e
      rw [Function.update_self] at hq
      exact hin hq
    · rw [Function.update_of_ne e] at hq
      exact (hother q e hq).1
  data := hdata
  known q := by
    rw [hpc]
    by_cases e : q = p
    · rw [e, Function.update_self]
      exact hknown
    rw [Function.update_of_ne e]
    cases hq : (s.pc q).inside with
    | false => exact known_of_outside hq
    | true =>
      obtain ⟨-, h₁, h₂, h₃⟩ := hother q e hq
      rw [h₁, h₂, h₃]
      exact h.known q

section

variable (h : Fifo s) (hp : (s.pc p).inside = true)
include h hp

/-- A step of the process that has the lock: no other is inside. -/
theorem Fifo.alone
    (hpc : s'.pc = Function.update s.pc p pc) (hin : pc.inside = true → s'.lock = some p)
    (hdata : Data s'.pipe s'.stored s'.got) (hknown : Known s'.pipe s'.stored s'.got pc) :
    Fifo s' := by
  refine h.moves hpc hin (fun q hq hqin => ?_) hdata hknown
  have := (h.inside p hp).symm.trans (h.inside q hqin)
  exact absurd (Option.some.inj this).symm hq

theorem Fifo.goto (hknown : Known s.pipe s.stored s.got pc) : Fifo (s.goto p pc) :=
  h.alone hp rfl (fun _ => h.inside p hp) h.data hknown

theorem Fifo.release : Fifo (s.release p) := h.alone hp rfl (fun hc => nomatch hc) h.data trivial

theorem Fifo.wakeup {c : Chan}
    (hs : s.wakeup c p pc = some s') (hknown : Known s.pipe s.stored s.got pc) : Fifo s' := by
  rw [System.wakeup] at hs
  split at hs
  · cases hs
    exact h.alone hp rfl (fun _ => h.inside p hp) h.data hknown
  · cases hs

theorem Fifo.sleep (hs : s.sleep p pc = some s') (hout : pc.inside = false) : Fifo s' := by
  rw [System.sleep] at hs
  split at hs
  · cases hs
    refine h.alone hp rfl (fun hc => ?_) h.data (known_of_outside hout)
    rw [hout] at hc
    cases hc
  · cases hs

end

theorem Fifo.acquire (h : Fifo s) (hs : s.acquire p pc = some s')
    (hknown : Known s.pipe s.stored s.got pc) : Fifo s' := by
  rw [System.acquire] at hs
  split at hs
  · rename_i hl
    cases hs
    refine h.moves rfl (fun _ => rfl) (fun q _ hq => ?_) h.data hknown
    rw [h.inside q hq] at hl
    cases hl.1
  · cases hs

theorem Fifo.slept {c : Chan} (h : Fifo s) (hs : s.slept c p pc = some s')
    (hknown : Known s.pipe s.stored s.got pc) : Fifo s' := by
  rw [System.slept] at hs
  split at hs
  · cases hs
    exact ⟨h.inside, h.data, h.known⟩
  · split at hs
    · exact h.acquire hs hknown
    · cases hs

theorem Fifo.run {b : UInt8} (h : Fifo s) (hs : s.run p b = some s') : Fifo s' := by
  have hknown := h.known p
  rw [System.run] at hs
  split at hs
  · cases hs
  · exact h.acquire hs trivial
  · -- the two loops of `pipewrite`
    rename_i n i hpc
    have hp : (s.pc p).inside = true := by rw [hpc]; rfl
    split at hs
    · split at hs
      · rename_i hfull
        split at hs
        · cases hs
          exact h.release hp
        · rename_i hopen
          cases hs
          exact h.goto hp ⟨h.data.full_iff.mp hfull, by simpa using fun hc => hopen (.inl hc)⟩
      · rename_i hfull
        cases hs
        exact h.alone hp rfl (fun _ => h.inside p hp) (h.data.put hfull) trivial
    · cases hs
      exact h.goto hp trivial
  · rename_i n i hpc
    rw [hpc] at hknown
    exact h.wakeup (by rw [hpc]; rfl) hs hknown
  · rename_i n i hpc
    exact h.sleep (by rw [hpc]; rfl) hs rfl
  · exact h.slept hs trivial
  · rename_i n hpc
    exact h.wakeup (by rw [hpc]; rfl) hs trivial
  · rename_i n hpc
    cases hs
    exact h.release (by rw [hpc]; rfl)
  · exact h.acquire hs trivial
  · -- the first loop of `piperead`
    rename_i n hpc
    have hp : (s.pc p).inside = true := by rw [hpc]; rfl
    split at hs
    · rename_i hwait
      split at hs
      · cases hs
        exact h.release hp
      · cases hs
        exact h.goto hp ⟨h.data.empty_iff.mp hwait.1, hwait.2⟩
    · rename_i hwait
      cases hs
      refine h.goto hp ?_
      by_cases he : s.got = s.stored
      · exact .inr (by simpa using fun hw => hwait ⟨h.data.empty_iff.mpr he, hw⟩)
      · exact .inl he
  · rename_i n hpc
    exact h.sleep (by rw [hpc]; rfl) hs rfl
  · exact h.slept hs trivial
  · -- the second loop of `piperead`
    rename_i n i hpc
    have hp : (s.pc p).inside = true := by rw [hpc]; rfl
    split at hs
    · rename_i hc
      cases hs
      exact h.alone hp rfl (fun _ => h.inside p hp) (h.data.take hc.2) trivial
    rename_i hc
    cases hs
    refine h.goto hp ?_
    rw [hpc] at hknown
    cases i with
    | zero =>
      intro hn
      have he : s.pipe.Empty := by
        by_contra he
        exact hc ⟨hn, he⟩
      have he := h.data.empty_iff.mp he
      exact ⟨he, hknown.resolve_left fun hne => hne he⟩
    | succ i => trivial
  · rename_i n i hpc
    rw [hpc] at hknown
    refine h.wakeup (by rw [hpc]; rfl) hs ?_
    cases i with
    | zero => exact hknown
    | succ i => trivial
  · rename_i n i hpc
    cases hs
    exact h.release (by rw [hpc]; rfl)
  · exact h.acquire hs trivial
  · -- the end that is closed; the bytes stay
    rename_i w hpc
    have hp : (s.pc p).inside = true := by rw [hpc]; rfl
    cases hs
    exact h.alone hp rfl (fun _ => h.inside p hp) h.data.shut trivial
  · rename_i w hpc
    exact h.wakeup (by rw [hpc]; rfl) hs trivial
  · rename_i hpc
    cases hs
    have hr := h.release (p := p) (by rw [hpc]; rfl)
    exact ⟨hr.inside, hr.data, hr.known⟩

theorem fifo_step {a : Act P} (h : Fifo s) (hs : s.step a = some s') : Fifo s' := by
  cases a with
  | call p c =>
    rw [System.step] at hs
    split at hs
    · rename_i hidle
      cases hs
      have hc : c.start.inside = false := by cases c <;> rfl
      refine h.moves rfl (fun hin => ?_) (fun q _ hq => ⟨h.inside q hq, rfl, rfl, rfl⟩) h.data
        (known_of_outside hc)
      rw [hc] at hin
      cases hin
    · cases hs
  | run p b => exact h.run hs
  | kill p =>
    rw [System.step] at hs
    split at hs
    · cases hs
      exact ⟨h.inside, h.data, h.known⟩
    · cases hs

end

theorem fifo_init (data : Nat → UInt8) (killed : P → Bool) : Fifo (System.init data killed) where
  inside _ h := nomatch h
  data := ⟨rfl, rfl, List.prefix_rfl, Window.nil ..⟩
  known _ := trivial

section

variable [DecidableEq P]

theorem fifo_run {G : System P → Act P → Prop} {s : System P} (h : PipeRun G s) : Fifo s := by
  obtain ⟨data, killed, h⟩ := h
  exact h.invariant (fifo_init data killed) fun _ _ _ h _ hs => fifo_step h hs

/-- **First in, first out.**  In every state of every run the bytes that readers got are the first of
the bytes that writers stored, at most `PIPESIZE` fewer; and a `piperead` of at least one byte that
is about to return 0 has found the pipe drained and its write end closed. -/
theorem pipe_fifo {s : System P} (h : PipeRun (fun _ _ => True) s) :
    s.got <+: s.stored ∧ s.stored.length ≤ s.got.length + PIPESIZE ∧
      ∀ p n, 0 < n → s.pc p = .readDone n 0 → s.got = s.stored ∧ s.pipe.writeopen = false := by
  have hf := fifo_run h
  refine ⟨hf.data.order, hf.data.window.fits, fun p n hn hpc => ?_⟩
  have hk := hf.known p
  rw [hpc] at hk
  exact hk hn

end

/-- One process writes a byte and closes the write end; another reads the byte, and then nothing. -/
theorem pipe_fifo_drained :
    ∃ s : System Bool, s.stored = [7] ∧ s.pc true = .readDone 1 0 ∧ s.got = s.stored ∧
      s.pipe.writeopen = false := by
  obtain ⟨s, r, hst, hpc⟩ := Support.exists_run System.step (fun _ _ => True)
    (System.init (fun _ => 0) fun _ => false)
    (.call false (.pipewrite 1) :: List.replicate 5 (.run false 7) ++
      .call false (.pipeclose true) :: List.replicate 4 (.run false 0) ++
      .call true (.piperead 2) :: List.replicate 6 (.run true 0) ++
      .call true (.piperead 1) :: List.replicate 4 (.run true 0))
    (fun s => s.stored = [7] ∧ s.pc true = .readDone 1 0) (by decide +kernel)
  exact ⟨s, hst, hpc, (pipe_fifo ⟨_, _, r⟩).2.2 true 1 (by decide) hpc⟩

end Xv6.Pipe
