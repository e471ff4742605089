import Xv6.Fs.Content
import Xv6.Fs.Files
import Xv6.Support.Scan
import Xv6.Sync.Rwlock

/-!
# Sync — the thread-safe guard of a file (`thread_safe_guard.c`, `file.c`)

Any number of threads call `thread_safe_pread` and `thread_safe_pwrite` on one guard, and reach the
file in no other way.  A step is one of the lock's, one transaction of `filepwrite`, or the `readi`
of `filepread`: the latter two hold the lock of the inode.  The file is its bytes.

Two things are written down that the program does not keep: `done`, the calls of
`thread_safe_pwrite` whose release is complete, in that order; and `log`, for each transaction the
number of the call it belongs to.
-/

namespace Xv6.Sync

open Function (update_self update_of_ne)
open Support (Run Together EndsIn)
open Fs (Content CHUNK)

/-! ### `filepread` and `filepwrite` -/

/-- What `struct file` says of an inode that is open. -/
structure Mode where
  readable : Bool
  writable : Bool

/-- The arguments of `pread`, and whether `sys_pread` accepts them for their addresses. -/
structure Pread where
  valid : Bool
  n : BitVec 32
  off : BitVec 32

/-- The arguments of `pwrite`: `buf` is the memory from `addr` on. -/
structure Pwrite where
  valid : Bool
  buf : Nat → UInt8
  n : BitVec 32
  off : BitVec 32

/-- `sys_pread` and `filepread`; `none` is -1. -/
def filepread (f : Mode) (c : Content) (a : Pread) : Option (List UInt8) :=
  if a.valid = false ∨ a.n.toInt < 0 then none
  else if f.readable = false then none
  else c.readi a.off.toNat a.n.toNat

/-- Where `filepwrite` is: before a turn of its loop, or at its end. -/
inductive Loop where
  | more (offset i : Nat)
  | stop (ret : Int)

/-- `sys_pwrite` and `filepwrite`, up to the loop. -/
def filepwriteBegin (f : Mode) (w : Pwrite) : Loop :=
  if w.valid = false ∨ w.n.toInt < 0 then .stop (-1)
  else if f.writable = false then .stop (-1)
  else .more w.off.toNat 0

/-- The bytes of the transaction after the first `i`. -/
def Pwrite.chunk (w : Pwrite) (i : Nat) : List UInt8 :=
  (List.range (min (w.n.toNat - i) CHUNK)).map fun j => w.buf (i + j)

/-- One turn of the loop, which is one transaction while bytes are left. -/
def filepwriteTurn (w : Pwrite) (c : Content) (offset i : Nat) : Content × Loop :=
  if i < w.n.toNat then
    match c.writei (w.chunk i) offset with
    | none => (c, .stop (-1))
    | some c => (c, .more (offset + (w.chunk i).length) (i + (w.chunk i).length))
  else (c, .stop w.n.toNat)

theorem Pwrite.length_chunk (w : Pwrite) (i : Nat) :
    (w.chunk i).length = min (w.n.toNat - i) CHUNK := by
  rw [chunk, List.length_map, List.length_range]

/-- The loop, alone. -/
def filepwriteLoop (w : Pwrite) (c : Content) (offset i : Nat) : Content × Int :=
  if _h : i < w.n.toNat then
    match c.writei (w.chunk i) offset with
    | none => (c, -1)
    | some c => filepwriteLoop w c (offset + (w.chunk i).length) (i + (w.chunk i).length)
  else (c, w.n.toNat)
  termination_by w.n.toNat - i
  decreasing_by
    have := w.length_chunk i
    have : 0 < CHUNK := by decide
    omega

/-- What is left of `filepwrite`, alone. -/
def finish (w : Pwrite) (c : Content) : Loop → Content × Int
  | .more offset i => filepwriteLoop w c offset i
  | .stop ret => (c, ret)

/-- `filepwrite` with nobody else at the file. -/
def filepwrite (f : Mode) (c : Content) (w : Pwrite) : Content × Int :=
  finish w c (filepwriteBegin f w)

/-- The file after some calls, one after the other. -/
def after (f : Mode) (c : Content) (ws : List Pwrite) : Content :=
  ws.foldl (fun c w => (filepwrite f c w).1) c

theorem finish_turn (w : Pwrite) (c : Content) (offset i : Nat) :
    finish w (filepwriteTurn w c offset i).1 (filepwriteTurn w c offset i).2 =
      filepwriteLoop w c offset i := by
  rw [filepwriteLoop, filepwriteTurn]
  split
  · cases c.writei (w.chunk i) offset with
    | none => rfl
    | some c => rfl
  · rfl

theorem after_append (f : Mode) (c : Content) (ws : List Pwrite) (w : Pwrite) :
    after f c (ws ++ [w]) = (filepwrite f (after f c ws) w).1 := by
  rw [after, List.foldl_append]
  rfl

/-! ### Threads -/

/-- What a thread was last called to do. -/
inductive Job where
  | none
  /-- `thread_safe_pread`, with its result when it has one -/
  | pread (a : Pread) (got : Option (Option (List UInt8)))
  /-- `thread_safe_pwrite`, with its number -/
  | pwrite (id : Nat) (w : Pwrite) (l : Loop)

structure Thread where
  pc : Pc
  job : Job

/-- The guard, the file and the threads. -/
structure Guarded (τ : Type) where
  rw : Rwlock
  content : Content
  thread : τ → Thread
  done : List Pwrite
  log : List Nat
  calls : Nat

inductive Event where
  | pread (a : Pread)
  | pwrite (w : Pwrite)
  /-- the next step of the call the thread is in -/
  | go

variable {τ : Type} [DecidableEq τ]

def Guarded.set (s : Guarded τ) (t : τ) (x : Thread) : Guarded τ :=
  { s with thread := Function.update s.thread t x }

/-- The step of a thread in one of the lock's functions.  A `thread_safe_pwrite` is complete when it
has released the lock. -/
def lockStep (s : Guarded τ) (t : τ) : Option (Guarded τ) :=
  let x := s.thread t
  (advance s.rw x.pc).map fun (rw, q) =>
    { s.set t { x with pc := q } with
      rw
      done := match x.job with
        | .pwrite _ w _ => if x.pc = .writeUnlock ∧ q = .outside then s.done ++ [w] else s.done
        | _ => s.done }

/-- The next step of a thread that is in a call. -/
def go (f : Mode) (s : Guarded τ) (t : τ) : Option (Guarded τ) :=
  let x := s.thread t
  match x.pc, x.job with
  | .reading, .pread a none =>
    some (s.set t { x with job := .pread a (some (filepread f s.content a)) })
  | .reading, _ => some (s.set t { x with pc := .relLock })
  | .writing, .pwrite id w (.more offset i) =>
    let (content, l) := filepwriteTurn w s.content offset i
    some { s.set t { x with job := .pwrite id w l } with
      content, log := if i < w.n.toNat then s.log ++ [id] else s.log }
  | .writing, _ => some (s.set t { x with pc := .writeUnlock })
  | _, _ => lockStep s t

/-- A step of the thread `t`. -/
def guardStep (f : Mode) (s : Guarded τ) : τ × Event → Option (Guarded τ)
  | (t, .pread a) =>
    if (s.thread t).pc = .outside then some (s.set t ⟨.acqLock, .pread a none⟩) else none
  | (t, .pwrite w) =>
    if (s.thread t).pc = .outside then
      some { s.set t ⟨.writeLock, .pwrite s.calls w (filepwriteBegin f w)⟩ with
        calls := s.calls + 1 }
    else none
  | (t, .go) => go f s t

/-- After `thread_safe_guard_init`, on a file with the bytes `c`. -/
def Guarded.init (c : Content) : Guarded τ := ⟨rwlockInit, c, fun _ => ⟨.outside, .none⟩, [], [], 0⟩

/-! ### What a step does -/

/-- The lock, and where the threads are in it. -/
def Guarded.lock (s : Guarded τ) : State τ := ⟨s.rw, fun t => (s.thread t).pc⟩

/-- **What a step can do.** -/
inductive Does (f : Mode) (s : Guarded τ) (t : τ) : Guarded τ → Prop where
  | callRead (a : Pread) (pc : (s.thread t).pc = .outside) :
      Does f s t (s.set t ⟨.acqLock, .pread a none⟩)
  | callWrite (w : Pwrite) (pc : (s.thread t).pc = .outside) :
      Does f s t { s.set t ⟨.writeLock, .pwrite s.calls w (filepwriteBegin f w)⟩ with
        calls := s.calls + 1 }
  | reads {a : Pread} (pc : (s.thread t).pc = .reading) (job : (s.thread t).job = .pread a none) :
      Does f s t (s.set t ⟨.reading, .pread a (some (filepread f s.content a))⟩)
  | hasRead (pc : (s.thread t).pc = .reading) : Does f s t (s.set t ⟨.relLock, (s.thread t).job⟩)
  | turns {id : Nat} {w : Pwrite} {offset i : Nat} (pc : (s.thread t).pc = .writing)
      (job : (s.thread t).job = .pwrite id w (.more offset i)) :
      Does f s t { s.set t ⟨.writing, .pwrite id w (filepwriteTurn w s.content offset i).2⟩ with
        content := (filepwriteTurn w s.content offset i).1
        log := if i < w.n.toNat then s.log ++ [id] else s.log }
  | hasWritten (pc : (s.thread t).pc = .writing)
      (job : ∀ id w offset i, (s.thread t).job ≠ .pwrite id w (.more offset i)) :
      Does f s t (s.set t ⟨.writeUnlock, (s.thread t).job⟩)
  | moves {rw : Rwlock} {q : Pc} (adv : advance s.rw (s.thread t).pc = some (rw, q))
      (stays : (s.thread t).pc ≠ .writeUnlock ∨ q ≠ .outside) :
      Does f s t { s.set t ⟨q, (s.thread t).job⟩ with rw }
  | returns {rw : Rwlock} {id : Nat} {w : Pwrite} {l : Loop} (pc : (s.thread t).pc = .writeUnlock)
      (adv : advance s.rw .writeUnlock = some (rw, .outside))
      (job : (s.thread t).job = .pwrite id w l) :
      Does f s t { s.set t ⟨.outside, (s.thread t).job⟩ with rw, done := s.done ++ [w] }

section

variable {f : Mode} {s s' : Guarded τ} {t : τ} {e : Event}

/-- In a function of the lock, a thread has a job that fits. -/
def Thread.Fits (f : Mode) (x : Thread) : Prop :=
  match x.pc with
  | .outside => True
  | .writeLock => ∃ id w, x.job = .pwrite id w (filepwriteBegin f w)
  | .writing => ∃ id w l, x.job = .pwrite id w l
  | .writeUnlock => ∃ id w ret, x.job = .pwrite id w (.stop ret)
  | _ => ∃ a got, x.job = .pread a got

theorem fits_of_reader {x : Thread} (hp : x.pc.reader = true)
    (hj : ∃ a got, x.job = .pread a got) : x.Fits f := by
  rw [Thread.Fits]
  cases hq : x.pc with
  | outside | writeLock | writing | writeUnlock =>
    rw [hq] at hp
    cases hp
  | _ => exact hj

theorem lockStep_does (hx : (s.thread t).Fits f) (h : lockStep s t = some s') : Does f s t s' := by
  obtain ⟨⟨rw, q⟩, ha, rfl⟩ := Option.map_eq_some_iff.mp h
  by_cases hq : (s.thread t).pc = .writeUnlock ∧ q = .outside
  · obtain ⟨hp, rfl⟩ := hq
    rw [Thread.Fits, hp] at hx
    obtain ⟨id, w, ret, hj⟩ := hx
    have hr := Does.returns (f := f) hp (hp ▸ ha) hj
    simp only [hj, hp, true_and, if_true] at hr ⊢
    exact hr
  · have hm := Does.moves (f := f) ha (not_and_or.mp hq)
    have hd : (match (s.thread t).job with
        | .pwrite _ w _ =>
          if (s.thread t).pc = .writeUnlock ∧ q = .outside then s.done ++ [w] else s.done
        | _ => s.done) = s.done := by
      split
      · rw [if_neg hq]
      · rfl
    dsimp only
    rw [hd]
    exact hm

theorem guardStep_does (hx : (s.thread t).Fits f) (h : guardStep f s (t, e) = some s') :
    Does f s t s' := by
  cases e with
  | pread a =>
    rw [guardStep] at h
    split at h
    · rename_i hp
      cases h
      exact .callRead a hp
    · cases h
  | pwrite w =>
    rw [guardStep] at h
    split at h
    · rename_i hp
      cases h
      exact .callWrite w hp
    · cases h
  | go =>
    rw [guardStep, go] at h
    split at h
    · rename_i a hp hj
      cases h
      rw [hp]
      exact .reads hp hj
    · rename_i hp _
      cases h
      exact .hasRead hp
    · rename_i id w offset i hp hj
      cases h
      rw [hp]
      exact .turns hp hj
    · rename_i hp hj
      cases h
      exact .hasWritten hp hj
    · exact lockStep_does hx h

end

/-! ### The invariant -/

/-- What is known of a thread: when it has the write lock, what is left of its call does to the file
what the whole call does after those that are complete; what it has read is the file after some of
them; and the number of its call is not among others in the log. -/
structure Good (f : Mode) (c₀ : Content) (s : Guarded τ) (x : Thread) : Prop where
  fits : x.Fits f
  busy : ∀ id w l, x.pc.holdsWrite = true → x.job = .pwrite id w l →
    finish w s.content l = filepwrite f (after f c₀ s.done) w
  result : ∀ a got, x.job = .pread a (some got) →
    ∃ ws, ws <+: s.done ∧ got = filepread f (after f c₀ ws) a
  number : ∀ id w l, x.job = .pwrite id w l → id < s.calls
  waits : ∀ id w l, x.pc = .writeLock → x.job = .pwrite id w l → id ∉ s.log
  turn : ∀ id w l, x.pc = .writing → x.job = .pwrite id w l → EndsIn s.log id

structure Safe (f : Mode) (c₀ : Content) (s : Guarded τ) : Prop where
  good : ∀ t, Good f c₀ s (s.thread t)
  quiet : (∀ t, (s.thread t).pc.holdsWrite = false) → s.content = after f c₀ s.done
  numbers : ∀ t u, t ≠ u → ∀ id w l w' l', (s.thread t).job = .pwrite id w l →
    (s.thread u).job ≠ .pwrite id w' l'
  logged : ∀ id ∈ s.log, id < s.calls
  grouped : Together s.log

section

variable {f : Mode} {c₀ : Content} {s s' : Guarded τ} {t u : τ} {x : Thread} {e : Event}

omit [DecidableEq τ] in
/-- A thread without the write lock, after a step of another. -/
theorem Good.other (ws : List Pwrite) {ids : List Nat} (h : Good f c₀ s x)
    (hw : x.pc.holdsWrite = false) (hdone : s'.done = s.done ++ ws) (hlog : s'.log = s.log ++ ids)
    (hids : ∀ id w l, x.job = .pwrite id w l → id ∉ ids) (hcalls : s.calls ≤ s'.calls) :
    Good f c₀ s' x where
  fits := h.fits
  busy := fun _ _ _ hw' => nomatch hw.symm.trans hw'
  result := fun a got hj => by
    obtain ⟨ws', hws, hg⟩ := h.result a got hj
    exact ⟨ws', hws.trans (hdone ▸ List.prefix_append ..), hg⟩
  number := fun id w l hj => (h.number id w l hj).trans_le hcalls
  waits := fun id w l hp hj hm => by
    rw [hlog, List.mem_append] at hm
    exact hm.elim (h.waits id w l hp hj) (hids id w l hj)
  turn := fun _ _ _ hp => by
    rw [hp] at hw
    cases hw

omit [DecidableEq τ] in
/-- A thread after a step of another that leaves the file alone. -/
theorem Good.same (h : Good f c₀ s x) (hc : s'.content = s.content) (hdone : s'.done = s.done)
    (hlog : s'.log = s.log) (hcalls : s.calls ≤ s'.calls) : Good f c₀ s' x where
  fits := h.fits
  busy := by
    rw [hc, hdone]
    exact h.busy
  result := by
    rw [hdone]
    exact h.result
  number := fun id w l hj => (h.number id w l hj).trans_le hcalls
  waits := by
    rw [hlog]
    exact h.waits
  turn := by
    rw [hlog]
    exact h.turn

section

variable (h : Safe f c₀ s)
include h

/-- A thread changes. -/
theorem Safe.update (ht : s'.thread = Function.update s.thread t x)
    (hx : Good f c₀ s' x) (ho : ∀ u, u ≠ t → Good f c₀ s' (s.thread u))
    (hn : ∀ u, u ≠ t → ∀ id w l w' l', x.job = .pwrite id w l → (s.thread u).job ≠ .pwrite id w' l')
    (hq : x.pc.holdsWrite = false → (∀ u, u ≠ t → (s.thread u).pc.holdsWrite = false) →
      s'.content = after f c₀ s'.done)
    (hlogged : ∀ id ∈ s'.log, id < s'.calls)
    (hgrouped : Together s'.log) : Safe f c₀ s' := by
  have hself : s'.thread t = x := by rw [ht, update_self]
  have hother : ∀ u, u ≠ t → s'.thread u = s.thread u := fun u hu => by
    rw [ht, update_of_ne hu]
  refine ⟨fun u => ?_, fun hall => ?_, fun u v huv id w l w' l' hu hv => ?_, hlogged, hgrouped⟩
  · by_cases e : u = t
    · rw [e, hself]
      exact hx
    · rw [hother u e]
      exact ho u e
  · exact hq (hself ▸ hall t) fun u hu => hother u hu ▸ hall u
  by_cases e : u = t
  · subst e
    rw [hself] at hu
    rw [hother v huv.symm] at hv
    exact hn v huv.symm id w l w' l' hu hv
  · rw [hother u e] at hu
    by_cases e' : v = t
    · subst e'
      rw [hself] at hv
      exact hn u e id w' l' w l hv hu
    · rw [hother v e'] at hv
      exact h.numbers u v huv id w l w' l' hu hv

omit [DecidableEq τ] in
/-- The file while nobody has the write lock. -/
theorem Safe.idle (ht : (s.thread t).pc.holdsWrite = false)
    (ho : ∀ u, u ≠ t → (s.thread u).pc.holdsWrite = false) : s.content = after f c₀ s.done := by
  refine h.quiet fun u => ?_
  by_cases e : u = t
  · rw [e]
    exact ht
  · exact ho u e

/-- A thread moves on in its call, and the file stays. -/
theorem Safe.goesOn {q : Pc} (rw : Rwlock) (hx : Good f c₀ s ⟨q, (s.thread t).job⟩)
    (hq : q.holdsWrite = false → (s.thread t).pc.holdsWrite = false) :
    Safe f c₀ { s.set t ⟨q, (s.thread t).job⟩ with rw } := by
  refine h.update rfl (hx.same rfl rfl rfl le_rfl) (fun u _ => (h.good u).same rfl rfl rfl le_rfl)
    (fun u hu id w l w' l' hj => ?_) (fun hn ho => h.idle (hq hn) ho) h.logged h.grouped
  exact h.numbers t u hu.symm id w l w' l' hj

/-- A transaction, of the one thread that has the write lock. -/
theorem Safe.turns {id : Nat} {w : Pwrite} {offset i : Nat}
    (hp : (s.thread t).pc = .writing) (hj : (s.thread t).job = .pwrite id w (.more offset i))
    (hone : ∀ u, u ≠ t → (s.thread u).pc.holdsWrite = false) :
    Safe f c₀ { s.set t ⟨.writing, .pwrite id w (filepwriteTurn w s.content offset i).2⟩ with
      content := (filepwriteTurn w s.content offset i).1
      log := if i < w.n.toNat then s.log ++ [id] else s.log } := by
  have hg := h.good t
  have hends := hg.turn id w _ hp hj
  -- the numbers that the step adds to the log
  obtain ⟨ids, hids, hlog, hends, htog⟩ : ∃ ids, (∀ b ∈ ids, b = id) ∧
      (if i < w.n.toNat then s.log ++ [id] else s.log) = s.log ++ ids ∧
      EndsIn (s.log ++ ids) id ∧ Together (s.log ++ ids) := by
    split
    · exact ⟨[id], fun b hb => List.mem_singleton.mp hb, rfl, hends.concat, h.grouped.concat hends⟩
    · refine ⟨[], nofun, (List.append_nil _).symm, ?_⟩
      rw [List.append_nil]
      exact ⟨hends, h.grouped⟩
  rw [hlog]
  refine h.update rfl ⟨⟨id, w, _, rfl⟩, ?_, nofun, ?_, nofun, ?_⟩ (fun u hu => ?_)
    (fun u hu id' w₁ l₁ w₂ l₂ hx => ?_) nofun ?_ ?_
  · rintro id' w' l' - hx
    cases hx
    exact (finish_turn ..).trans (hg.busy id w _ (by rw [hp]; rfl) hj)
  · rintro id' w' l' hx
    cases hx
    exact hg.number id w _ hj
  · rintro id' w' l' - hx
    cases hx
    exact hends
  · refine (h.good u).other [] (hone u hu) (List.append_nil _).symm rfl ?_ le_rfl
    intro id' w' l' hu' hm
    rw [hids id' hm] at hu'
    exact h.numbers t u hu.symm id w _ w' l' hj hu'
  · cases hx
    exact h.numbers t u hu.symm id w _ w₂ l₂ hj
  · intro b hb
    rcases List.mem_append.mp hb with hb | hb
    · exact h.logged b hb
    · rw [hids b hb]
      exact hg.number id w _ hj
  · exact htog

/-- The lock lets a thread go on. -/
theorem Safe.moves {rw : Rwlock} {q : Pc} (adv : advance s.rw (s.thread t).pc = some (rw, q))
    (stays : (s.thread t).pc ≠ .writeUnlock ∨ q ≠ .outside)
    (hone : q = .writing → ∀ u, u ≠ t → (s.thread u).pc.holdsWrite = false) :
    Safe f c₀ { s.set t ⟨q, (s.thread t).job⟩ with rw } := by
  have hg := h.good t
  have hfits := hg.fits
  rw [Thread.Fits] at hfits
  cases hp : (s.thread t).pc with
  | outside | reading | writing =>
    rw [hp] at adv
    cases adv
  | writeLock =>
    rw [hp] at adv hfits
    obtain ⟨id, w, hj⟩ := hfits
    have hout : (s.thread t).pc.holdsWrite = false := by
      rw [hp]
      rfl
    have hq : q = .writing ∨ q = .writeLock := by
      cases adv
      split <;> simp
    rcases hq with rfl | rfl
    · -- it has the write lock now, and nobody had it before
      refine h.goesOn rw ⟨⟨id, w, _, hj⟩, ?_, hg.result, hg.number, nofun, ?_⟩ fun _ => hout
      · intro id' w' l' _ hj'
        cases hj.symm.trans hj'
        rw [h.idle hout (hone rfl)]
        rfl
      · intro id' w' l' _ hj'
        exact .of_not_mem (hg.waits id' w' l' hp hj')
    · exact h.goesOn rw ⟨⟨id, w, hj⟩, nofun, hg.result, hg.number,
        fun id w l _ => hg.waits id w l hp, nofun⟩ fun _ => hout
  | writeUnlock =>
    rw [hp] at adv hfits stays
    have hq : q = .writeUnlock := by
      cases adv
      split at stays
      · simp at stays
      · rename_i hn
        rw [if_neg hn]
    subst hq
    exact h.goesOn rw ⟨hfits, fun id w l _ => hg.busy id w l (by rw [hp]; rfl), hg.result, hg.number,
      nofun, nofun⟩ nofun
  | _ =>
    -- in the functions of the readers
    rw [hp] at adv hfits
    obtain ⟨a, got, hj⟩ := hfits
    have hq : q.reader = true ∨ q = .outside := advance_reader rfl adv
    refine h.goesOn rw ⟨?_, fun _ _ _ _ hx => ?_, hg.result, hg.number, fun _ _ _ _ hx => ?_,
      fun _ _ _ _ hx => ?_⟩ fun _ => by rw [hp]; rfl
    · rcases hq with hq | rfl
      · exact fits_of_reader hq ⟨a, got, hj⟩
      · trivial
    all_goals cases hj.symm.trans hx

/-- A `thread_safe_pwrite` is complete. -/
theorem Safe.returns {rw : Rwlock} {id : Nat} {w : Pwrite} {l : Loop}
    (hp : (s.thread t).pc = .writeUnlock) (hj : (s.thread t).job = .pwrite id w l)
    (hone : ∀ u, u ≠ t → (s.thread u).pc.holdsWrite = false) :
    Safe f c₀ { s.set t ⟨.outside, (s.thread t).job⟩ with rw, done := s.done ++ [w] } := by
  have hg := h.good t
  have hcontent : s.content = after f c₀ (s.done ++ [w]) := by
    have hfits := hg.fits
    rw [Thread.Fits, hp] at hfits
    obtain ⟨id', w', ret, hj'⟩ := hfits
    cases hj.symm.trans hj'
    have hb := hg.busy id w _ (by rw [hp]; rfl) hj
    rw [after_append, ← hb]
    rfl
  refine h.update rfl ⟨trivial, nofun, ?_, hg.number, nofun, nofun⟩ (fun u hu => ?_)
    (fun u hu id' w₁ l₁ w₂ l₂ hx => h.numbers t u hu.symm id' w₁ l₁ w₂ l₂ hx)
    (fun _ _ => hcontent) h.logged h.grouped
  · intro a got hx
    cases hj.symm.trans hx
  · exact (h.good u).other [w] (hone u hu) rfl (List.append_nil _).symm (fun _ _ _ _ => nofun) le_rfl

theorem Safe.step (hd : Does f s t s')
    (hone : ∀ u v, (s.thread u).pc.holdsWrite = true → (s.thread v).pc.holdsWrite = true → u = v)
    (hone' : ∀ u v, (s'.thread u).pc.holdsWrite = true → (s'.thread v).pc.holdsWrite = true → u = v)
    (hread : ∀ u v, (s.thread u).pc.holdsWrite = true → (s.thread v).pc.holdsRead = false) :
    Safe f c₀ s' := by
  have hg := h.good t
  have halone : (s.thread t).pc.holdsWrite = true → ∀ u, u ≠ t → (s.thread u).pc.holdsWrite = false :=
    fun ht u hu => by
      by_contra hw
      exact hu (hone u t (by simpa using hw) ht)
  cases hd with
  | callRead a hp =>
    exact h.update rfl ⟨⟨a, none, rfl⟩, nofun, nofun, nofun, nofun, nofun⟩
      (fun u _ => (h.good u).same rfl rfl rfl le_rfl) nofun
      (fun _ ho => h.idle (by rw [hp]; rfl) ho) h.logged h.grouped
  | callWrite w hp =>
    refine h.update rfl ⟨⟨_, w, rfl⟩, nofun, nofun, ?_, ?_, nofun⟩
      (fun u _ => (h.good u).same rfl rfl rfl (Nat.le_succ _)) ?_
      (fun _ ho => h.idle (by rw [hp]; rfl) ho)
      (fun id hid => (h.logged id hid).trans (Nat.lt_succ_self _)) h.grouped
    · rintro id w l hj
      cases hj
      exact Nat.lt_succ_self _
    · rintro id w l - hj hm
      cases hj
      exact Nat.lt_irrefl _ (h.logged _ hm)
    · rintro u - id w l w' l' hj hu
      cases hj
      exact Nat.lt_irrefl _ ((h.good u).number _ _ _ hu)
  | @reads a hp hj =>
    have hnone : ∀ u, (s.thread u).pc.holdsWrite = false := fun u => by
      by_contra hw
      have := hread u t (by simpa using hw)
      rw [hp] at this
      cases this
    refine h.update rfl ⟨⟨a, _, rfl⟩, nofun, ?_, nofun, nofun, nofun⟩
      (fun u _ => (h.good u).same rfl rfl rfl le_rfl) nofun
      (fun _ _ => h.quiet hnone) h.logged h.grouped
    rintro a got hj
    cases hj
    exact ⟨s.done, List.prefix_rfl, by rw [h.quiet hnone]⟩
  | hasRead hp =>
    refine h.goesOn s.rw ⟨?_, nofun, hg.result, hg.number, nofun, nofun⟩ fun _ => by rw [hp]; rfl
    have := hg.fits
    rw [Thread.Fits, hp] at this
    exact this
  | turns hp hj => exact h.turns hp hj (halone (by rw [hp]; rfl))
  | hasWritten hp hj =>
    refine h.goesOn s.rw ⟨?_, fun id w l _ => ?_, hg.result, hg.number, nofun, nofun⟩ nofun
    · have hfits := hg.fits
      rw [Thread.Fits, hp] at hfits
      obtain ⟨id, w, l, hl⟩ := hfits
      cases l with
      | more offset i => exact absurd hl (hj id w offset i)
      | stop ret => exact ⟨id, w, ret, hl⟩
    · exact hg.busy id w l (by rw [hp]; rfl)
  | moves adv stays =>
    refine h.moves adv stays ?_
    rintro rfl u hu
    by_contra hw
    refine hu (hone' u t ?_ ?_)
    · change (Function.update s.thread t _ u).pc.holdsWrite = true
      rw [update_of_ne hu]
      simpa using hw
    · change (Function.update s.thread t _ t).pc.holdsWrite = true
      rw [update_self]
      rfl
  | returns hp adv hj => exact h.returns hp hj (halone (by rw [hp]; rfl))

end

theorem update_pc (th : τ → Thread) (t : τ) (x : Thread) :
    (fun u => (Function.update th t x u).pc) = Function.update (fun u => (th u).pc) t x.pc := by
  funext u
  by_cases e : u = t
  · rw [e, update_self, update_self]
  · rw [update_of_ne e, update_of_ne e]

/-- A step is a step of the lock, or does not touch it. -/
theorem Does.lock (hd : Does f s t s') :
    s'.lock = s.lock ∨ ∃ a, Sync.step s.lock (t, a) = some s'.lock := by
  have hstays : ∀ job : Job, (⟨s.rw, fun u => (Function.update s.thread t ⟨(s.thread t).pc, job⟩ u).pc⟩ :
      State τ) = s.lock := fun job => by
    rw [update_pc, Function.update_eq_self]
    rfl
  have hmoves : ∀ (a : Act) (rw : Rwlock) (q : Pc) (job : Job), act s.rw (s.thread t).pc a = some (rw, q) →
      Sync.step s.lock (t, a) =
        some ⟨rw, fun u => (Function.update s.thread t ⟨q, job⟩ u).pc⟩ := fun a rw q job ha => by
    rw [update_pc]
    exact step_eq_some.mpr ⟨rw, q, ha, rfl⟩
  cases hd with
  | callRead a hp => exact .inr ⟨.call .acquireReadlock, hmoves _ _ _ _ (by rw [hp]; rfl)⟩
  | callWrite w hp => exact .inr ⟨.call .acquireWritelock, hmoves _ _ _ _ (by rw [hp]; rfl)⟩
  | reads hp hj =>
    rw [← hp]
    exact .inl (hstays _)
  | hasRead hp => exact .inr ⟨.call .releaseReadlock, hmoves _ _ _ _ (by rw [hp]; rfl)⟩
  | turns hp hj =>
    rw [← hp]
    exact .inl (hstays _)
  | hasWritten hp hj => exact .inr ⟨.call .releaseWritelock, hmoves _ _ _ _ (by rw [hp]; rfl)⟩
  | moves adv _ => exact .inr ⟨.advance, hmoves _ _ _ _ adv⟩
  | returns hp adv _ => exact .inr ⟨.advance, hmoves _ _ _ _ (by rw [hp]; exact adv)⟩

end

/-! ### Runs -/

/-- A run of the threads on a guard of a file with the bytes `c₀`. -/
abbrev GuardRun (f : Mode) (c₀ : Content) (s : Guarded τ) : Prop :=
  Run (fun s e s' => guardStep f s e = some s') (fun _ _ => True) (Guarded.init c₀) s

omit [DecidableEq τ] in
theorem safe_init (f : Mode) (c₀ : Content) : Safe f c₀ (Guarded.init c₀ : Guarded τ) where
  good := fun _ => ⟨trivial, nofun, nofun, nofun, nofun, nofun⟩
  quiet := fun _ => rfl
  numbers := nofun
  logged := nofun
  grouped := fun _ _ _ h => nomatch h

theorem GuardRun.safe [Fintype τ] {f : Mode} {c₀ : Content} {s : Guarded τ} (r : GuardRun f c₀ s) :
    Reached s.lock ∧ Safe f c₀ s := by
  induction r with
  | refl => exact ⟨.refl, safe_init f c₀⟩
  | @more s s' e r _ hstep ih =>
    obtain ⟨hr, hs⟩ := ih
    obtain ⟨t, e⟩ := e
    have hd := guardStep_does (hs.good t).fits hstep
    have hr' : Reached s'.lock := by
      rcases hd.lock with he | ⟨a, ha⟩
      · rw [he]
        exact hr
      · exact hr.more trivial ha
    obtain ⟨hone, hread, -⟩ := rwlock_exclusion hr
    exact ⟨hr', hs.step hd hone (rwlock_exclusion hr').1 hread⟩

/-- What the job, a `thread_safe_pread`, has read. -/
def Job.got : Job → Option (List UInt8)
  | .pread _ (some (some got)) => some got
  | _ => .none

theorem Job.exists_pread {j : Job} {got : List UInt8} (h : j.got = some got) :
    ∃ a, j = .pread a (some (some got)) := by
  unfold Job.got at h
  split at h
  · cases h
    exact ⟨_, rfl⟩
  · cases h

end Xv6.Sync
