import Xv6.Support.Machine
import Xv6.Support.Result
import Xv6.Support.Table

/-!
# Sync — semaphores and the reader-writer lock (`proc.c`)

`xem_wait`, `xem_unlock` and the four functions of `rwlock_t`, a step at a time: each `xchg` is one
step, and each load or store of `readers`.  Any number of threads use one lock; a thread calls a
release only after the acquire it belongs to.  A thread that spins has tried its `xchg` in vain and
tries again; the `yield` between is no step of its own.

`readers` counts threads, of which there are never more than `NPROC`, and is an integer here.

Neither semaphore has an owner: `writelock` is taken by the first reader and given back by the last.
The invariant (`Inv`) therefore counts: the value of `lock` and the threads between its `xem_wait`
and `xem_unlock` make one; the value of `writelock`, the writers, and one for all readers together
make one.
-/

namespace Xv6.Sync

open Support (Run total rest total_eq total_update le_total eq_of_total_le)

/-! ### Semaphores -/

/-- `xem_t` -/
structure Xem where
  value : Nat
  deriving DecidableEq

/-- Initial value should be 1. -/
def xemInit : Xem := ⟨1⟩

/-- One turn of the loop of `xem_wait`: `xchg(&semaphore->value,0)==1`. -/
def xemWait (x : Xem) : Bool × Xem := (decide (x.value = 1), ⟨0⟩)

/-- One turn of the loop of `xem_unlock`: `xchg(&semaphore->value,1)==0`. -/
def xemUnlock (x : Xem) : Bool × Xem := (decide (x.value = 0), ⟨1⟩)

@[simp] theorem xemWait_ok (x : Xem) : (xemWait x).1 = true ↔ x.value = 1 := decide_eq_true_iff

@[simp] theorem xemUnlock_ok (x : Xem) : (xemUnlock x).1 = true ↔ x.value = 0 := decide_eq_true_iff

/-! ### The lock -/

/-- `rwlock_t` -/
structure Rwlock where
  lock : Xem
  writelock : Xem
  readers : Int
  deriving DecidableEq

def rwlockInit : Rwlock := ⟨xemInit, xemInit, 0⟩

/-- Where a thread is: the next thing it does. -/
inductive Pc where
  /-- it does not use the lock -/
  | outside
  /-- `rwlock_acquire_readlock`: `xem_wait(&rw->lock)` -/
  | acqLock
  /-- `rw->readers++`, the load -/
  | acqLoad
  /-- `rw->readers++`, the store after the load of `r` -/
  | acqStore (r : Int)
  /-- `if(rw->readers == 1)` -/
  | acqTest
  /-- `xem_wait(&rw->writelock)` -/
  | acqWritelock
  /-- `xem_unlock(&rw->lock)` -/
  | acqUnlock
  /-- it holds the read lock -/
  | reading
  /-- `rwlock_release_readlock`: `xem_wait(&rw->lock)` -/
  | relLock
  /-- `rw->readers--`, the load -/
  | relLoad
  /-- `rw->readers--`, the store after the load of `r` -/
  | relStore (r : Int)
  /-- `if(rw->readers == 0)` -/
  | relTest
  /-- `xem_unlock(&rw->writelock)` -/
  | relWritelock
  /-- `xem_unlock(&rw->lock)` -/
  | relUnlock
  /-- `rwlock_acquire_writelock`: `xem_wait(&rw->writelock)` -/
  | writeLock
  /-- it holds the write lock -/
  | writing
  /-- `rwlock_release_writelock`: `xem_unlock(&rw->writelock)` -/
  | writeUnlock
  deriving DecidableEq

/-- The functions a thread calls. -/
inductive Call where
  | acquireReadlock
  | releaseReadlock
  | acquireWritelock
  | releaseWritelock
  deriving DecidableEq

/-- A call, where it may be made: a release belongs to an acquire. -/
def enter : Pc → Call → Option Pc
  | .outside, .acquireReadlock => some .acqLock
  | .reading, .releaseReadlock => some .relLock
  | .outside, .acquireWritelock => some .writeLock
  | .writing, .releaseWritelock => some .writeUnlock
  | _, _ => none

/-- The next step in a function of the lock. -/
def advance (rw : Rwlock) : Pc → Option (Rwlock × Pc)
  | .outside | .reading | .writing => none
  | .acqLock =>
    let (ok, lock) := xemWait rw.lock
    some ({ rw with lock }, if ok then .acqLoad else .acqLock)
  | .acqLoad => some (rw, .acqStore rw.readers)
  | .acqStore r => some ({ rw with readers := r + 1 }, .acqTest)
  | .acqTest => some (rw, if rw.readers = 1 then .acqWritelock else .acqUnlock)
  | .acqWritelock =>
    let (ok, writelock) := xemWait rw.writelock
    some ({ rw with writelock }, if ok then .acqUnlock else .acqWritelock)
  | .acqUnlock =>
    let (ok, lock) := xemUnlock rw.lock
    some ({ rw with lock }, if ok then .reading else .acqUnlock)
  | .relLock =>
    let (ok, lock) := xemWait rw.lock
    some ({ rw with lock }, if ok then .relLoad else .relLock)
  | .relLoad => some (rw, .relStore rw.readers)
  | .relStore r => some ({ rw with readers := r - 1 }, .relTest)
  | .relTest => some (rw, if rw.readers = 0 then .relWritelock else .relUnlock)
  | .relWritelock =>
    let (ok, writelock) := xemUnlock rw.writelock
    some ({ rw with writelock }, if ok then .relUnlock else .relWritelock)
  | .relUnlock =>
    let (ok, lock) := xemUnlock rw.lock
    some ({ rw with lock }, if ok then .outside else .relUnlock)
  | .writeLock =>
    let (ok, writelock) := xemWait rw.writelock
    some ({ rw with writelock }, if ok then .writing else .writeLock)
  | .writeUnlock =>
    let (ok, writelock) := xemUnlock rw.writelock
    some ({ rw with writelock }, if ok then .outside else .writeUnlock)

/-- It is in a function of the readers, or holds the read lock. -/
def Pc.reader : Pc → Bool
  | .outside | .writeLock | .writing | .writeUnlock => false
  | _ => true

variable {p : Pc}

theorem advance_reader {rw rw' : Rwlock} {q : Pc} (hp : p.reader = true)
    (h : advance rw p = some (rw', q)) : q.reader = true ∨ q = .outside := by
  cases p with
  | outside | reading | writing => cases h
  | writeLock | writeUnlock => cases hp
  | _ =>
    cases h
    first | exact .inl rfl | (split <;> simp [Pc.reader])

/-- The lock, and where each thread is. -/
structure State (τ : Type) where
  rw : Rwlock
  pc : τ → Pc

/-- What a thread does in a step. -/
inductive Act where
  | call (c : Call)
  | advance
  deriving DecidableEq

variable {τ : Type} [DecidableEq τ]

def act (rw : Rwlock) (p : Pc) : Act → Option (Rwlock × Pc)
  | .call c => (enter p c).map fun q => (rw, q)
  | .advance => advance rw p

/-- A step of the thread `t`. -/
def step (s : State τ) : τ × Act → Option (State τ)
  | (t, a) => (act s.rw (s.pc t) a).map fun (rw, q) => ⟨rw, Function.update s.pc t q⟩

theorem step_eq_some {s s' : State τ} {t : τ} {a : Act} : step s (t, a) = some s' ↔
    ∃ rw q, act s.rw (s.pc t) a = some (rw, q) ∧ s' = ⟨rw, Function.update s.pc t q⟩ := by
  rw [step, Option.map_eq_some_iff]
  constructor
  · rintro ⟨⟨rw, q⟩, ha, rfl⟩
    exact ⟨rw, q, ha, rfl⟩
  · rintro ⟨rw, q, ha, rfl⟩
    exact ⟨(rw, q), ha, rfl⟩

/-- After `rwlock_init`. -/
def State.init : State τ := ⟨rwlockInit, fun _ => .outside⟩

/-! ### What the threads hold -/

/-- It is between `xem_wait(&rw->lock)` and `xem_unlock(&rw->lock)`. -/
@[simp] def Pc.locks : Pc → ℕ
  | .acqLoad | .acqStore _ | .acqTest | .acqWritelock | .acqUnlock => 1
  | .relLoad | .relStore _ | .relTest | .relWritelock | .relUnlock => 1
  | _ => 0

/-- It is counted in `readers`, and the readers have `writelock`. -/
@[simp] def Pc.reads : Pc → ℕ
  | .acqUnlock | .reading | .relLock | .relLoad | .relStore _ => 1
  | _ => 0

/-- It is counted in `readers`, and has not seen yet whether the readers have `writelock`. -/
@[simp] def Pc.arrives : Pc → ℕ
  | .acqTest | .acqWritelock => 1
  | _ => 0

/-- It is not counted any more, and the readers still have `writelock`. -/
@[simp] def Pc.departs : Pc → ℕ
  | .relTest | .relWritelock => 1
  | _ => 0

/-- It has `writelock` for itself. -/
@[simp] def Pc.writes : Pc → ℕ
  | .writing | .writeUnlock => 1
  | _ => 0

/-- What a thread that holds `lock` knows of `readers`. -/
@[simp] def Pc.Sees (readers : Int) : Pc → Prop
  | .acqStore r | .relStore r => r = readers
  | .acqWritelock => readers = 1
  | .relWritelock => readers = 0
  | _ => True

theorem Pc.Sees.of_locks (h : p.locks = 0) (readers : Int) : p.Sees readers := by
  cases p with
  | acqStore | relStore | acqWritelock | relWritelock => cases h
  | _ => trivial

theorem Pc.arrives_departs_le (p : Pc) : p.arrives + p.departs ≤ p.locks := by
  cases p <;> simp [arrives, departs, locks]

/-! ### One thread -/

/-- The invariant as one thread at `p` sees it, the others holding `H` times `lock` and so on. -/
structure Local (rw : Rwlock) (H N A D W : ℕ) (p : Pc) : Prop where
  lock : rw.lock.value + (H + p.locks) = 1
  readers : rw.readers = (N + p.reads : ℕ) + (A + p.arrives : ℕ)
  free : N + p.reads + (D + p.departs) = 0 → rw.writelock.value + (W + p.writes) = 1
  taken : N + p.reads + (D + p.departs) ≠ 0 → rw.writelock.value + (W + p.writes) = 0
  sees : p.Sees rw.readers
  bound : A + D ≤ H

section

variable {rw rw' : Rwlock} {H N A D W : ℕ} {p q : Pc} {a : Act}

theorem Local.advance (h : Local rw H N A D W p) (ha : advance rw p = some (rw', q)) :
    Local rw' H N A D W q := by
  obtain ⟨hl, hr, hf, ht, hs, hb⟩ := h
  cases p with
  | outside | reading | writing => cases ha
  | acqLoad | relLoad =>
    cases ha
    exact ⟨hl, hr, hf, ht, rfl, hb⟩
  | acqStore r | relStore r =>
    cases ha
    refine ⟨?_, ?_, ?_, ?_, trivial, hb⟩ <;> simp at hl hr hf ht hs ⊢ <;> omega
  | acqTest | relTest =>
    -- nobody else holds `lock`: whether the others read is what `readers` says
    cases ha
    split <;> refine ⟨?_, ?_, ?_, ?_, ?_, hb⟩ <;> simp at hl hr hf ht ⊢ <;> omega
  | acqLock | relLock | acqUnlock | relUnlock | writeLock | writeUnlock =>
    -- the `xchg` succeeds, or writes the value that was there
    cases ha
    split <;> rename_i hv <;> refine ⟨?_, ?_, ?_, ?_, trivial, hb⟩ <;>
      simp at hv hl hr hf ht ⊢ <;> omega
  | acqWritelock | relWritelock =>
    cases ha
    split <;> rename_i hv <;> refine ⟨?_, ?_, ?_, ?_, ?_, hb⟩ <;>
      simp at hv hl hr hf ht hs ⊢ <;> omega

theorem Local.enter {c : Call} (h : Local rw H N A D W p) (he : enter p c = some q) :
    Local rw H N A D W q := by
  obtain ⟨hl, hr, hf, ht, -, hb⟩ := h
  cases p <;> cases c <;> cases he
  all_goals exact ⟨hl, hr, hf, ht, trivial, hb⟩

theorem Local.act (h : Local rw H N A D W p) (ha : act rw p a = some (rw', q)) :
    Local rw' H N A D W q := by
  cases a with
  | call c =>
    obtain ⟨q, he, hq⟩ := Option.map_eq_some_iff.mp ha
    cases hq
    exact h.enter he
  | advance => exact h.advance ha

/-- Only who holds `lock` changes `readers`. -/
theorem act_readers (ha : act rw p a = some (rw', q)) : rw'.readers = rw.readers ∨ p.locks = 1 := by
  cases a with
  | call c =>
    obtain ⟨q, -, hq⟩ := Option.map_eq_some_iff.mp ha
    cases hq
    exact .inl rfl
  | advance =>
    cases p with
    | outside | reading | writing => cases ha
    | acqStore | relStore => exact .inr rfl
    | acqLock | acqLoad | acqTest | acqWritelock | acqUnlock | relLock | relLoad | relTest
    | relWritelock | relUnlock | writeLock | writeUnlock =>
      cases ha
      exact .inl rfl

end

/-! ### All threads -/

variable [Fintype τ]

/-- `lock` is free or held by one thread; `writelock` is free, held by one writer, or held by the
readers together; `readers` counts them. -/
structure Inv (s : State τ) : Prop where
  lock : s.rw.lock.value + total Pc.locks s.pc = 1
  readers : s.rw.readers = (total Pc.reads s.pc : ℕ) + (total Pc.arrives s.pc : ℕ)
  free : total Pc.reads s.pc + total Pc.departs s.pc = 0 →
    s.rw.writelock.value + total Pc.writes s.pc = 1
  taken : total Pc.reads s.pc + total Pc.departs s.pc ≠ 0 →
    s.rw.writelock.value + total Pc.writes s.pc = 0
  sees : ∀ t, (s.pc t).Sees s.rw.readers

omit [DecidableEq τ] in
theorem inv_init : Inv (State.init : State τ) := by
  have h : ∀ w : Pc → ℕ, w .outside = 0 → total w (State.init : State τ).pc = 0 :=
    fun w hw => Finset.sum_eq_zero fun _ _ => hw
  refine ⟨?_, ?_, fun _ => ?_, fun hn => ?_, fun _ => trivial⟩
  · rw [h _ rfl]
    rfl
  · rw [h _ rfl, h _ rfl]
    rfl
  · rw [h _ rfl]
    rfl
  · rw [h _ rfl, h _ rfl] at hn
    exact absurd rfl hn

section

variable {s s' : State τ} {t u : τ}

/-- The invariant as the thread `t` sees it. -/
theorem Inv.local (h : Inv s) (t : τ) : Local s.rw (rest Pc.locks s.pc t) (rest Pc.reads s.pc t)
    (rest Pc.arrives s.pc t) (rest Pc.departs s.pc t) (rest Pc.writes s.pc t) (s.pc t) := by
  obtain ⟨hl, hr, hf, ht, hs⟩ := h
  simp only [total_eq _ _ t] at hl hr hf ht
  refine ⟨hl, hr, hf, ht, hs t, ?_⟩
  exact Finset.sum_add_distrib.ge.trans (Finset.sum_le_sum fun j _ => Pc.arrives_departs_le _)

/-- Two threads that hold `lock` are one. -/
theorem Inv.one_locks (h : Inv s) (ht : 0 < (s.pc t).locks) (hu : 0 < (s.pc u).locks) : t = u :=
  eq_of_total_le (w := Pc.locks) (h.lock ▸ Nat.le_add_left ..) ht hu

theorem Inv.step {a : Act} (h : Inv s) (hs : step s (t, a) = some s') : Inv s' := by
  obtain ⟨rw, q, ha, rfl⟩ := step_eq_some.mp hs
  have hl := (h.local t).act ha
  constructor
  · rw [total_update]
    exact hl.lock
  · rw [total_update, total_update]
    exact hl.readers
  · rw [total_update, total_update, total_update]
    exact hl.free
  · rw [total_update, total_update, total_update]
    exact hl.taken
  intro u
  change Pc.Sees rw.readers (Function.update s.pc t q u)
  by_cases e : u = t
  · rw [e, Function.update_self]
    exact hl.sees
  rw [Function.update_of_ne e]
  rcases act_readers ha with hr | hlt
  · rw [hr]
    exact h.sees u
  · -- `t` holds `lock`, so `u` does not
    refine .of_locks ?_ _
    by_contra hu
    exact e (h.one_locks (Nat.pos_of_ne_zero hu) (by omega))

end

/-- A run of the threads from `rwlock_init` on. -/
abbrev Reached (s : State τ) : Prop :=
  Run (fun s a s' => step s a = some s') (fun _ _ => True) State.init s

theorem Reached.inv {s : State τ} (r : Reached s) : Inv s :=
  Run.invariant (I := Inv) inv_init (fun _ _ _ h _ hs => h.step hs) r

/-! ### Exclusion -/

/-- It has the read lock: its acquire is complete, and its release has not counted it out. -/
def Pc.holdsRead : Pc → Bool
  | .reading | .relLock | .relLoad | .relStore _ => true
  | _ => false

/-- It has the write lock: its acquire is complete, and its release is not. -/
def Pc.holdsWrite : Pc → Bool
  | .writing | .writeUnlock => true
  | _ => false

theorem Pc.reads_of_holdsRead (h : p.holdsRead = true) : p.reads = 1 := by
  cases p <;> first | rfl | cases h

theorem Pc.writes_of_holdsWrite (h : p.holdsWrite = true) : p.writes = 1 := by
  cases p <;> first | rfl | cases h

theorem Pc.reads_of_locks (h : p.locks = 0) : p.reads = if p.holdsRead = true then 1 else 0 := by
  cases p <;> first | rfl | cases h

/-- **Exclusion.**  However many threads use the lock and however their steps interleave: one thread
at most has the write lock, no thread has the read lock then, and while `lock` is free `readers` is
the number of threads that have the read lock. -/
theorem rwlock_exclusion {s : State τ} (r : Reached s) :
    (∀ t u, (s.pc t).holdsWrite = true → (s.pc u).holdsWrite = true → t = u) ∧
    (∀ t u, (s.pc t).holdsWrite = true → (s.pc u).holdsRead = false) ∧
    (s.rw.lock.value = 1 →
      s.rw.readers = (Finset.univ.filter fun t => (s.pc t).holdsRead = true).card) := by
  have h := r.inv
  have hle : total Pc.writes s.pc ≤ 1 := by
    by_cases e : total Pc.reads s.pc + total Pc.departs s.pc = 0
    · have := h.free e
      omega
    · have := h.taken e
      omega
  refine ⟨fun t u ht hu => ?_, fun t u ht => ?_, fun hlock => ?_⟩
  · have ht := Pc.writes_of_holdsWrite ht
    have hu := Pc.writes_of_holdsWrite hu
    exact eq_of_total_le (w := Pc.writes) hle (by omega) (by omega)
  · rw [Bool.eq_false_iff]
    intro hu
    have ht := Pc.writes_of_holdsWrite ht
    have hu := Pc.reads_of_holdsRead hu
    have hw := le_total Pc.writes s.pc t
    have hr := le_total Pc.reads s.pc u
    have := h.taken (by omega)
    omega
  · -- nobody is between `xem_wait(&rw->lock)` and `xem_unlock(&rw->lock)`
    have hlocks : total Pc.locks s.pc = 0 := by
      have := h.lock
      omega
    have hzero : ∀ t, (s.pc t).locks = 0 := fun t => by
      have := le_total Pc.locks s.pc t
      omega
    have harr : total Pc.arrives s.pc = 0 := Finset.sum_eq_zero fun t _ => by
      have := Pc.arrives_departs_le (s.pc t)
      have := hzero t
      omega
    have hcard : total Pc.reads s.pc = (Finset.univ.filter fun t => (s.pc t).holdsRead = true).card :=
      (Finset.sum_congr rfl fun t _ => Pc.reads_of_locks (hzero t)).trans
        (Support.total_card (fun p : Pc => p.holdsRead = true) s.pc)
    rw [h.readers, harr, hcard]
    simp

/-- A thread writes while another waits for `writelock` as the first reader. -/
theorem rwlock_exclusion_writer : ∃ s : State (Fin 3), Reached s ∧ s.pc 0 = .writing ∧
    s.pc 1 = .acqWritelock ∧ s.rw.readers = 1 ∧ ∀ u, (s.pc u).holdsRead = false := by
  obtain ⟨s, r, h₀, h₁, hr⟩ := Support.exists_run step (fun _ _ => True) State.init
    [((0 : Fin 3), .call .acquireWritelock), (1, .call .acquireReadlock), (0, .advance),
      (1, .advance), (1, .advance), (1, .advance), (1, .advance), (1, .advance)]
    (fun s => s.pc 0 = .writing ∧ s.pc 1 = .acqWritelock ∧ s.rw.readers = 1) (by decide +kernel)
  exact ⟨s, r, h₀, h₁, hr, fun u => (rwlock_exclusion r).2.1 0 u (by rw [h₀]; rfl)⟩

/-! ### Progress -/

/-- Whether the `xchg` that comes next succeeds; `none` where no `xchg` comes next. -/
def xchg (rw : Rwlock) : Pc → Option Bool
  | .acqLock | .relLock => some (xemWait rw.lock).1
  | .acqUnlock | .relUnlock => some (xemUnlock rw.lock).1
  | .acqWritelock | .writeLock => some (xemWait rw.writelock).1
  | .relWritelock | .writeUnlock => some (xemUnlock rw.writelock).1
  | _ => none

/-- It is in one of the four functions. -/
def Pc.inside : Pc → Bool
  | .outside | .reading | .writing => false
  | _ => true

/-- It is at an `xem_unlock`. -/
def Pc.unlocks : Pc → Bool
  | .acqUnlock | .relUnlock | .relWritelock | .writeUnlock => true
  | _ => false

/-- The steps to the next `xchg`, for a thread that holds `lock`. -/
def Pc.ahead : Pc → ℕ
  | .acqLoad | .relLoad => 3
  | .acqStore _ | .relStore _ => 2
  | .acqTest | .relTest => 1
  | _ => 0

/-- A thread that holds `lock` and does no `xchg` next comes closer to one. -/
theorem advance_ahead (rw : Rwlock) (h : p.ahead ≠ 0) : xchg rw p = none ∧
    p.writes = 0 ∧ ∃ rw' q, advance rw p = some (rw', q) ∧ q.locks = 1 ∧ q.writes = 0 ∧
      q.ahead < p.ahead := by
  cases p with
  | acqLoad | relLoad | acqStore | relStore => exact ⟨rfl, rfl, _, _, rfl, rfl, rfl, by simp [Pc.ahead]⟩
  | acqTest | relTest =>
    refine ⟨rfl, rfl, _, _, rfl, ?_⟩
    split <;> exact ⟨rfl, rfl, Nat.zero_lt_one⟩
  | _ => exact absurd rfl h

/-- The next `xchg` of the thread `t` succeeds: it takes the steps to it, and there it does. -/
def Succeeds (s : State τ) (t : τ) : Prop :=
  ∃ s', Run (fun s a s' => step s a = some s')
    (fun s a => a = (t, .advance) ∧ xchg s.rw (s.pc t) = none) s s' ∧
    xchg s'.rw (s'.pc t) = some true

section

variable {s s' : State τ} {t : τ}

/-- No `xem_unlock` of the lock spins. -/
theorem Inv.unlock (h : Inv s) (ht : (s.pc t).unlocks = true) : xchg s.rw (s.pc t) = some true := by
  obtain ⟨hl, -, hfree, htaken, -, -⟩ := h.local t
  cases hp : s.pc t with
  | acqUnlock | relUnlock | relWritelock | writeUnlock =>
    simp only [hp, Pc.locks, Pc.reads, Pc.departs, Pc.writes] at hl hfree htaken
    simp [xchg]
    omega
  | _ =>
    rw [hp] at ht
    cases ht

omit [Fintype τ] in
/-- A step to the next `xchg`. -/
theorem Succeeds.step (hn : xchg s.rw (s.pc t) = none) (hs : step s (t, .advance) = some s')
    (h : Succeeds s' t) : Succeeds s t := by
  obtain ⟨u, r, hu⟩ := h
  exact ⟨u, Run.trans (.more .refl ⟨rfl, hn⟩ hs) r, hu⟩

/-- While no writer has `writelock`, whoever holds `lock` goes on. -/
theorem Inv.holder (h : Inv s) (hw : total Pc.writes s.pc = 0) (ht : 0 < (s.pc t).locks) :
    Succeeds s t := by
  induction hn : (s.pc t).ahead using Nat.strong_induction_on generalizing s with
  | _ n ih =>
    by_cases h₀ : (s.pc t).ahead = 0
    · refine ⟨s, .refl, ?_⟩
      by_cases hu : (s.pc t).unlocks = true
      · exact h.unlock hu
      -- the first reader, and there is no other
      obtain ⟨hl, hr, hf, -, hs, hb⟩ := h.local t
      rw [total_eq Pc.writes s.pc t] at hw
      cases hp : s.pc t with
      | acqWritelock =>
        simp only [hp, Pc.locks, Pc.reads, Pc.arrives, Pc.departs, Pc.writes, Pc.Sees] at *
        simp [xchg]
        omega
      | _ => simp_all [Pc.ahead, Pc.unlocks]
    · obtain ⟨hx, hwp, rw', q, ha, hlq, hwq, hlt⟩ := advance_ahead s.rw h₀
      have hstep : Sync.step s (t, .advance) = some ⟨rw', Function.update s.pc t q⟩ :=
        step_eq_some.mpr ⟨rw', q, ha, rfl⟩
      have hq : (State.mk rw' (Function.update s.pc t q)).pc t = q := Function.update_self ..
      refine Succeeds.step hx hstep (ih q.ahead (hn ▸ hlt) (h.step hstep) ?_ ?_ ?_)
      · rw [total_eq Pc.writes s.pc t, hwp] at hw
        rw [total_update, hwq]
        exact hw
      · rw [hq, hlq]
        exact Nat.zero_lt_one
      · rw [hq]

end

/-- **No deadlock.**  Whenever a thread is in one of the four functions, some thread has the lock and
may release it, or the next `xchg` of some thread succeeds; and the `xchg` of an `xem_unlock` succeeds
at once. -/
theorem rwlock_progress {s : State τ} (r : Reached s) :
    ((∃ t, (s.pc t).inside = true) →
      (∃ t, s.pc t = .reading ∨ s.pc t = .writing) ∨ ∃ t, Succeeds s t) ∧
    ∀ t, (s.pc t).unlocks = true → xchg s.rw (s.pc t) = some true := by
  have h := r.inv
  refine ⟨?_, fun t ht => h.unlock ht⟩
  rintro ⟨t, ht⟩
  by_cases hc : ∃ u, s.pc u = .reading ∨ s.pc u = .writing
  · exact .inl hc
  have hnot : ∀ u, s.pc u ≠ .reading ∧ s.pc u ≠ .writing := fun u =>
    ⟨fun e => hc ⟨u, .inl e⟩, fun e => hc ⟨u, .inr e⟩⟩
  right
  by_cases hw : total Pc.writes s.pc = 0
  · by_cases hl : total Pc.locks s.pc = 0
    · have hlock : s.rw.lock.value = 1 := by
        have := h.lock
        omega
      by_cases hrel : ∃ u, s.pc u = .relLock
      · obtain ⟨u, hu⟩ := hrel
        refine ⟨u, s, .refl, ?_⟩
        rw [hu, xchg]
        simpa using hlock
      · -- there are no readers at all, so `writelock` is free too
        have hzero : ∀ u, (s.pc u).locks = 0 ∧ (s.pc u).writes = 0 := fun u => by
          have := le_total Pc.locks s.pc u
          have := le_total Pc.writes s.pc u
          omega
        have hreads : total Pc.reads s.pc = 0 := Finset.sum_eq_zero fun u _ => by
          have := (hzero u).1
          cases hp : s.pc u with
          | reading => exact absurd hp (hnot u).1
          | relLock => exact absurd ⟨u, hp⟩ hrel
          | _ => simp_all
        have hdeparts : total Pc.departs s.pc = 0 := Finset.sum_eq_zero fun u _ => by
          have := Pc.arrives_departs_le (s.pc u)
          have := (hzero u).1
          omega
        have hfree := h.free (by omega)
        refine ⟨t, s, .refl, ?_⟩
        obtain ⟨hlt, hwt⟩ := hzero t
        cases hp : s.pc t with
        | acqLock =>
          rw [xchg]
          simpa using hlock
        | writeLock =>
          rw [xchg]
          simp only [Option.some.injEq, xemWait_ok]
          omega
        | relLock => exact absurd ⟨t, hp⟩ hrel
        | _ => simp_all [Pc.inside]
    · obtain ⟨u, hu⟩ := Support.exists_of_total hl
      exact ⟨u, h.holder hw hu⟩
  · -- a writer that gives `writelock` back
    obtain ⟨u, hu⟩ := Support.exists_of_total hw
    refine ⟨u, s, .refl, h.unlock ?_⟩
    cases hp : s.pc u with
    | writing => exact absurd hp (hnot u).2
    | writeUnlock => rfl
    | _ =>
      rw [hp] at hu
      cases hu

/-- Two readers have come and the first is leaving, while a writer waits. -/
theorem rwlock_progress_waiting : ∃ s : State (Fin 3), Reached s ∧ s.pc 0 = .writeLock ∧
    s.pc 1 = .relLoad ∧ s.pc 2 = .acqLock ∧
    ((∃ t, s.pc t = .reading ∨ s.pc t = .writing) ∨ ∃ t, Succeeds s t) := by
  obtain ⟨s, r, h₀, h₁, h₂⟩ := Support.exists_run step (fun _ _ => True) State.init
    [((1 : Fin 3), .call .acquireReadlock), (1, .advance), (1, .advance), (1, .advance),
      (1, .advance), (1, .advance), (1, .advance), (0, .call .acquireWritelock), (0, .advance),
      (1, .call .releaseReadlock), (1, .advance), (2, .call .acquireReadlock), (2, .advance)]
    (fun s => s.pc 0 = .writeLock ∧ s.pc 1 = .relLoad ∧ s.pc 2 = .acqLock) (by decide +kernel)
  exact ⟨s, r, h₀, h₁, h₂, (rwlock_progress r).1 ⟨0, by rw [h₀]; rfl⟩⟩

end Xv6.Sync
