import Xv6.Proc.Call

/-!
# Proc — what a call does to each record

Of the record of a process this module keeps what the schedulers read, who it is and whose it is,
whether it is to end, and its descriptors (`Card`).  `Deal` says once what a call can do to the card
of a slot: leave it but for a mark, a wakeup or a new parent (`Touched`), take the slot for a new
process, or free it.  A mark is `killed` being set, and `Mark` lists the four calls that do it, with
whom they take.  `Dealt` adds what a call does to the counters of the schedulers, to the open files
and to `ptable.lock`.

* `call_dealt`: every call deals with every card as `Deal` allows.  It changes no counter of the
  schedulers but that `set_cpu_share` takes a share and `exit` gives it back, and no descriptor but
  that `fork` and `thread_create` copy those of the caller to a free slot (`Copied`) and `exit` drops
  them (`Emptied`); and none but `thread_create` keeps the lock.
* `call_orphans`: who has ended is nobody's parent.
-/

namespace Xv6.Kern

open Function (update_self update_of_ne)
open Support (bind_ok)
open Vm (Page Mem File)

/-- What the schedulers read of a process besides its state. -/
structure Turns where
  tick : Int
  mlfqLv : Level
  procMode : Mode
  cpuShare : Int
  pass : Int

/-- Who a process is, whose it is, whether it is to end, what it has open, and what the schedulers
read of it. -/
structure Card where
  state : State
  pid : Nat
  parent : Option Slot
  killed : Bool
  isthread : Bool
  mother : Option Slot
  threadNum : Int
  ofile : Fin NOFILE → Option Nat
  turns : Turns

def Proc.card (p : Proc) : Card :=
  ⟨p.state, p.pid, p.parent, p.killed, p.isthread, p.mother, p.threadNum, p.ofile,
    ⟨p.tick, p.mlfqLv, p.procMode, p.cpuShare, p.pass⟩⟩

/-- What the card shows to the schedulers. -/
def Card.view (x : Card) : View :=
  ⟨x.state, x.turns.tick, x.turns.mlfqLv, x.turns.procMode, x.turns.cpuShare, x.turns.pass⟩

/-- What `allocproc` gives a process, and `thread_join` leaves of one. -/
def Turns.fresh : Turns := ⟨0, .high, .mlfq, 0, 0⟩

/-- The card of a thread that was joined. -/
def Card.left (x : Card) : Card :=
  ⟨.unused, 0, none, false, false, some initproc, -1, x.ofile, .fresh⟩

/-- What `fork` and `thread_create` leave of the descriptors of the slot they fill: those of the
caller `c`, and where it has none the slot's own. -/
def Card.heir (x c : Card) : Card :=
  { x with ofile := fun fd => (c.ofile fd).or (x.ofile fd) }

/-- The descriptors of all processes, and the counts of the file table. -/
def Kernel.opens (k : Kernel) : (Slot → Fin NOFILE → Option Nat) × (Nat → Nat) :=
  (fun s => (k.ptable s).ofile, k.fref)

/-- The slot `np`, which was free, has the descriptors of `cur` beside those it had. -/
structure Copied (k : Kernel) (cur np : Slot) (k' : Kernel) : Prop where
  free : (k.ptable np).state = .unused
  runs : (k'.ptable np).state = .runnable
  ofiles : k'.opens.1 = Function.update k.opens.1 np
    fun fd => ((k.ptable cur).ofile fd).or ((k.ptable np).ofile fd)
  refs : dupRefs (k.ptable cur).files k.fref = .ok k'.fref

/-- The process in slot `cur` has dropped its descriptors. -/
structure Emptied (k : Kernel) (cur : Slot) (k' : Kernel) : Prop where
  ofiles : k'.opens.1 = Function.update k.opens.1 cur fun _ => none
  refs : closeRefs (k.ptable cur).files k.fref = .ok k'.fref

/-- The slot that `kill` takes for the pid: the first that has it, used or not. -/
def Kernel.holder (k : Kernel) (pid : Int) : Option Slot :=
  (List.finRange NPROC).find? fun s => ((k.ptable s).pid : Int) = pid

/-- The slot `q` is one that `kill_lwpgroup(pid, np)` takes. -/
def Kernel.InGroup (k : Kernel) (pid : Nat) (np q : Slot) : Prop :=
  (k.ptable q).isthread ∧ ((k.ptable q).mother.map fun m => (k.ptable m).pid) = some pid ∧
    (k.ptable q).pid ≠ (k.ptable np).pid

instance (k : Kernel) (pid : Nat) (np q : Slot) : Decidable (k.InGroup pid np q) :=
  inferInstanceAs (Decidable (_ ∧ _ ∧ _))

/-- Why a call of `cur` sets `killed` in the slot `q`. -/
inductive Mark (k : Kernel) (cur q : Slot) : Call → Prop where
  | kill {pid : BitVec 32} (holder : k.holder pid.toInt = some q) : Mark k cur q (.kill pid)
  | exec {path : String} {file : Option File} {argv : List (List UInt8)} {m : Slot}
      (thread : (k.ptable cur).isthread = true) (mother : (k.ptable cur).mother = some m)
      (group : k.InGroup (k.ptable m).pid cur q) : Mark k cur q (.exec path file argv)
  | visit (parent : (k.ptable q).parent = some cur) (alive : (k.ptable q).state ≠ .zombie) :
      Mark k cur q (.exitVisit q)
  | mother (thread : (k.ptable cur).isthread = true) (parent : (k.ptable cur).parent = some q) :
      Mark k cur q .exit

/-- The calls that end their caller. -/
def Call.Ends : Call → Prop
  | .exit | .threadExit _ => True
  | _ => False

/-- The process in the slot `q` is left, but may be marked, woken or passed to init; the caller may
go to sleep, yield or end. -/
structure Touched (k : Kernel) (cur : Slot) (o : Outcome) (e : Call) (q : Slot) (x y : Card) :
    Prop where
  pid : y.pid = x.pid
  isthread : y.isthread = x.isthread
  mother : y.mother = x.mother
  threadNum : y.threadNum = x.threadNum
  state : y.state = x.state ∨ x.state = .sleeping ∧ y.state = .runnable ∨
    q = cur ∧ ((y.state = .sleeping ∨ y.state = .runnable) ∨ y.state = .zombie ∧ e.Ends)
  parent : y.parent = x.parent ∨ x.parent = some cur ∧ y.parent = some initproc ∧ e.Ends
  killed : y.killed = x.killed ∨ y.killed = true ∧ Mark k cur q e
  own : q = cur → OwnState o x.state y.state
  /-- only `set_cpu_share` changes what the schedulers read besides the state -/
  turns : y.turns = x.turns ∨ q = cur ∧ ∃ i, e = .setCpuShare i
  ofile : y.ofile = x.ofile ∨ q = cur ∧ e = .exit

/-- The card of a slot that was unused and was taken for a new process. -/
inductive Fresh (cur : Slot) (e : Call) (x y : Card) : Prop where
  /-- the call has failed: the slot is free again, or lost -/
  | failed (state : y.state = .unused ∨ y.state = .embryo) (parent : y.parent = x.parent)
      (isthread : y.isthread = false)
  | child (fork : e = .fork) (state : y.state = .runnable) (parent : y.parent = some cur)
      (isthread : y.isthread = false)
  | thread {thread start arg : Nat} (create : e = .threadCreate thread start arg)
      (state : y.state = .runnable) (parent : y.parent = some cur) (isthread : y.isthread = true)
      (mother : y.mother = some cur)

/-- **What a call can do to a card**, of the slot `q`, by the process in `cur`. -/
inductive Deal (k : Kernel) (cur : Slot) (o : Outcome) (e : Call) (q : Slot) (x : Card) :
    Card → Prop where
  | kept {y : Card} (h : Touched k cur o e q x y) : Deal k cur o e q x y
  | taken {y : Card} (unused : x.state = .unused) (turns : y.turns = .fresh)
      (pid : y.pid = k.nextpid) (killed : y.killed = x.killed) (fresh : Fresh cur e x y)
      (num : y.threadNum = x.threadNum ∨ ∃ i : Fin NTHREAD, y.threadNum = i.val) :
      Deal k cur o e q x y
  | reaped (wait : e = .wait) (zombie : x.state = .zombie) (parent : x.parent = some cur) :
      Deal k cur o e q x { x with state := .unused, pid := 0, parent := none, killed := false }
  | joined (which : (∃ t a, e = .threadJoin t a ∧ (x.pid : Int) = t.toInt) ∨
        ∃ s, e = .exitVisit s ∧ (k.ptable s).parent = some cur ∧ (k.ptable s).state = .zombie ∧
          x.pid = (k.ptable s).pid)
      (zombie : x.state = .zombie) (parent : x.parent = some cur) :
      Deal k cur o e q x x.left

/-- Every card is dealt with, and the counters are those the call has started from. -/
structure Dealt (k : Kernel) (cur : Slot) (o : Outcome) (e : Call) (k' : Kernel) : Prop where
  card : ∀ q, Deal k cur o e q (k.ptable q).card (k'.ptable q).card
  counters : (∀ i, e ≠ .setCpuShare i) → k'.counters = (e.start k cur).counters
  files : e ≠ .exit → k'.opens = k.opens ∨ o = .stays ∧ ∃ np, Copied k cur np k'
  dropped : e = .exit → Emptied k cur k'
  locked : k'.locked = k.locked ∨ ∃ s, (k'.ptable s).state = .embryo

/-- Unused or in the making. -/
def Vacant (st : State) : Prop := st = .unused ∨ st = .embryo

instance (st : State) : Decidable (Vacant st) := inferInstanceAs (Decidable (_ ∨ _))

section

variable {k : Kernel} {cur q : Slot} {o : Outcome} {e : Call} {x y : Card}

theorem Touched.refl (k : Kernel) (cur : Slot) (e : Call) (q : Slot) (x : Card) :
    Touched k cur .stays e q x x :=
  ⟨rfl, rfl, rfl, rfl, .inl rfl, .inl rfl, .inl rfl, fun _ => .same _, .inl rfl, .inl rfl⟩

/-- Another process may be left alone by any call. -/
theorem Touched.other (h : q ≠ cur) : Touched k cur o e q x x :=
  ⟨rfl, rfl, rfl, rfl, .inl rfl, .inl rfl, .inl rfl, fun e => absurd e h, .inl rfl, .inl rfl⟩

theorem Deal.same (k : Kernel) (cur : Slot) (e : Call) (q : Slot) (x : Card) :
    Deal k cur .stays e q x x :=
  .kept (.refl k cur e q x)

theorem Touched.vacant (h : Touched k cur o e q x y) (hy : Vacant y.state) : Vacant x.state := by
  rcases h.state with hs | ⟨-, hs⟩ | ⟨-, (hs | hs) | ⟨hs, -⟩⟩
  · rw [hs] at hy
    exact hy
  all_goals
    rw [hs] at hy
    rcases hy with hy | hy <;> cases hy

theorem Touched.unused (h : Touched k cur o e q x y) (hy : y.state = .unused) :
    x.state = .unused := by
  rcases h.state with hs | ⟨-, hs⟩ | ⟨-, (hs | hs) | ⟨hs, -⟩⟩
  · exact hs.symm.trans hy
  all_goals
    rw [hs] at hy
    cases hy

/-- Where no vacant slot had a parent, none has. -/
theorem Deal.vacant_parent (h : Deal k cur o e q x y) (hx : Vacant x.state → x.parent = none)
    (hy : Vacant y.state) : y.parent = none := by
  cases h with
  | kept h =>
    have hp := hx (h.vacant hy)
    rcases h.parent with e | ⟨hc, -, -⟩
    · exact e.trans hp
    · rw [hp] at hc
      cases hc
  | taken unused _ _ _ fresh =>
    cases fresh with
    | failed _ parent _ => exact parent.trans (hx (.inl unused))
    | child _ state | thread _ state =>
      rw [state] at hy
      rcases hy with hy | hy <;> cases hy
  | reaped => rfl
  | joined => rfl

end

/-! ### Changes that no card shows -/

/-- What the calls change besides the records, the pages and the next pid. -/
structure Globals where
  counters : Counters
  fref : Nat → Nat
  locked : Bool

def Kernel.globals (k : Kernel) : Globals := ⟨k.counters, k.fref, k.locked⟩

/-- Every card is the same, and so is everything else but pages and pids. -/
structure SameCards (k k' : Kernel) : Prop where
  card : ∀ q, (k'.ptable q).card = (k.ptable q).card
  globals : k'.globals = k.globals

namespace SameCards

variable {k k₁ k' : Kernel} {s : Slot}

theorem refl (k : Kernel) : SameCards k k := ⟨fun _ => rfl, rfl⟩

theorem trans (h : SameCards k k₁) (h' : SameCards k₁ k') : SameCards k k' :=
  ⟨fun q => (h'.card q).trans (h.card q), h'.globals.trans h.globals⟩

/-- A change to one process that its card does not show. -/
theorem update {p : Proc} (ht : k'.ptable = Function.update k.ptable s p)
    (hp : p.card = (k.ptable s).card) (hc : k'.globals = k.globals) : SameCards k k' := by
  refine ⟨fun q => ?_, hc⟩
  rw [ht]
  by_cases e : q = s
  · subst e
    rw [update_self, hp]
  · rw [update_of_ne e]

/-- Such a change, and then no other that shows. -/
theorem after {p : Proc} (h : SameCards k₁ k') (ht : k₁.ptable = Function.update k.ptable s p)
    (hp : p.card = (k.ptable s).card) (hc : k₁.globals = k.globals) : SameCards k k' :=
  (update ht hp hc).trans h

theorem setMem (k : Kernel) (m : Mem) : SameCards k (k.setMem m) := ⟨fun _ => rfl, rfl⟩

section

variable (h : SameCards k k') (q : Slot)
include h q

theorem state : (k'.ptable q).state = (k.ptable q).state := congrArg Card.state (h.card q)

theorem pid : (k'.ptable q).pid = (k.ptable q).pid := congrArg Card.pid (h.card q)

theorem parent : (k'.ptable q).parent = (k.ptable q).parent := congrArg Card.parent (h.card q)

end

end SameCards

theorem opens_congr {k k' : Kernel} (h : ∀ q, (k'.ptable q).ofile = (k.ptable q).ofile)
    (hg : k'.globals = k.globals) : k'.opens = k.opens :=
  Prod.ext (funext h) (congrArg Globals.fref hg)

section

variable {k k' : Kernel} {cur s : Slot}

theorem putCwd_cards (h : putCwd k cur = .ok k') : SameCards k k' := by
  rw [putCwd] at h
  split at h
  · cases h
  · cases h
    exact .update rfl rfl rfl

theorem kfreeStack_cards (h : kfreeStack k s = .ok k') : SameCards k k' := by
  obtain ⟨p, m, -, -, rfl⟩ := kfreeStack_ok h
  exact .update rfl rfl rfl

theorem clearEx_card {p p' : Proc} {n : Int} (h : p.clearEx n = .ok p') : p'.card = p.card := by
  rw [Proc.clearEx] at h
  split at h
  · cases h
    rfl
  · split at h
    · cases h
      rfl
    · cases h

theorem initThreads_card (p : Proc) : p.initThreads.card = p.card := by
  rw [Proc.initThreads]
  split
  · rfl
  · rfl

theorem growproc_cards {n r : Int} (h : growproc k cur n = .ok (r, k')) : SameCards k k' := by
  have hset : ∀ {sz : Nat} {m : Mem}, (if sz = 0 then .ok (-1, k.setMem m)
      else .ok (0, (k.setMem m).set cur ({ · with sz := sz })) : Except Stop (Int × Kernel)) =
        .ok (r, k') → SameCards k k' := by
    intro sz m h
    split at h
    · cases h
      exact .setMem k m
    · cases h
      exact .update rfl rfl rfl
  rw [growproc] at h
  obtain ⟨d, -, h⟩ := bind_ok.mp h
  split at h
  · obtain ⟨⟨sz, m⟩, -, h⟩ := bind_ok.mp h
    exact hset h
  split at h
  · obtain ⟨⟨sz, m⟩, -, h⟩ := bind_ok.mp h
    exact hset h
  · cases h
    exact .refl k

theorem sbrk_cards {n r : Int} (h : sbrk k cur n = .ok (r, k')) : SameCards k k' := by
  rw [sbrk] at h
  dsimp only at h
  split at h
  · cases h
    exact .update rfl rfl rfl
  · obtain ⟨⟨r₁, k₁⟩, h₁, h⟩ := bind_ok.mp h
    cases h
    exact growproc_cards h₁

theorem execCommit_cards {name : String} {im : Image} (h : execCommit k cur name im = .ok k') :
    SameCards k k' := by
  rw [execCommit] at h
  dsimp only at h
  split at h
  · cases h
    exact .update rfl rfl rfl
  split at h
  · cases h
  · obtain ⟨m, -, h⟩ := bind_ok.mp h
    cases h
    exact .update rfl rfl rfl

end

/-! ### New processes -/

/-- The card of the slot `np` has become `y`, and no other card and no counter has changed. -/
structure Remade (np : Slot) (y : Card) (k k' : Kernel) : Prop where
  self : (k'.ptable np).card = y
  other : ∀ q, q ≠ np → (k'.ptable q).card = (k.ptable q).card
  counters : k'.counters = k.counters

/-- The card of the slot `np` has become `y`, and nothing else has changed. -/
structure Redealt (np : Slot) (y : Card) (k k' : Kernel) : Prop where
  self : (k'.ptable np).card = y
  other : ∀ q, q ≠ np → (k'.ptable q).card = (k.ptable q).card
  globals : k'.globals = k.globals

/-- The slot `np` has the card `y` with copies of the descriptors of `cur`. -/
structure Endowed (cur np : Slot) (y : Card) (k k' : Kernel) : Prop
    extends Remade np (y.heir (k.ptable cur).card) k k' where
  refs : dupRefs (k.ptable cur).files k.fref = .ok k'.fref
  locked : k'.locked = k.locked

namespace Redealt

variable {k k₁ k' : Kernel} {np : Slot} {y y' : Card}

theorem same (h : Redealt np y k k₁) (h' : SameCards k₁ k') : Redealt np y k k' :=
  ⟨(h'.card np).trans h.self, fun q e => (h'.card q).trans (h.other q e),
    h'.globals.trans h.globals⟩

theorem after (h : Redealt np y k₁ k') (h' : SameCards k k₁) : Redealt np y k k' :=
  ⟨h.self, fun q e => (h.other q e).trans (h'.card q), h.globals.trans h'.globals⟩

theorem trans (h : Redealt np y k k₁) (h' : Redealt np y' k₁ k') : Redealt np y' k k' :=
  ⟨h'.self, fun q e => (h'.other q e).trans (h.other q e), h'.globals.trans h.globals⟩

theorem update {p : Proc} (ht : k'.ptable = Function.update k.ptable np p) (hp : p.card = y)
    (hc : k'.globals = k.globals) : Redealt np y k k' := by
  refine ⟨?_, fun q e => ?_, hc⟩
  · rw [ht, update_self, hp]
  · rw [ht, update_of_ne e]

section

variable (h : Redealt np y k k')
include h

theorem locked : k'.locked = k.locked := congrArg Globals.locked h.globals

theorem remade : Remade np y k k' := ⟨h.self, h.other, congrArg Globals.counters h.globals⟩

/-- The descriptors, where those of the slot are the same. -/
theorem ofile (hy : y.ofile = (k.ptable np).ofile) (q : Slot) :
    (k'.ptable q).ofile = (k.ptable q).ofile := by
  by_cases e : q = np
  · subst e
    exact (congrArg Card.ofile h.self).trans hy
  · exact congrArg Card.ofile (h.other q e)

theorem opens (hy : y.ofile = (k.ptable np).ofile) : k'.opens = k.opens :=
  opens_congr (h.ofile hy) h.globals

end

end Redealt

theorem Remade.trans {k k₁ k' : Kernel} {np : Slot} {y y' : Card} (h : Remade np y k k₁)
    (h' : Remade np y' k₁ k') : Remade np y' k k' :=
  ⟨h'.self, fun q e => (h'.other q e).trans (h.other q e), h'.counters.trans h.counters⟩

namespace Endowed

variable {k k₁ k' : Kernel} {cur np : Slot} {x y : Card}

theorem after (h : Endowed cur np y k₁ k') (h₁ : Redealt np x k k₁)
    (hx : x.ofile = (k.ptable np).ofile) : Endowed cur np y k k' := by
  have ho : (k₁.ptable cur).card.ofile = (k.ptable cur).card.ofile := h₁.ofile hx cur
  have hf : (k₁.ptable cur).files = (k.ptable cur).files := by
    rw [Proc.files, Proc.files, h₁.ofile hx cur]
  have hr := h₁.remade.trans h.toRemade
  have hrefs := h.refs
  rw [Card.heir, ho] at hr
  rw [hf, show k₁.fref = k.fref from congrArg Globals.fref h₁.globals] at hrefs
  exact ⟨hr, hrefs, h.locked.trans h₁.locked⟩

/-- A change to the slot before it gets the descriptors. -/
theorem before {p : Proc} (h : Endowed cur np (k₁.ptable np).card k₁ k')
    (ht : k₁.ptable = Function.update k.ptable np p) (hp : p.card = y)
    (hy : y.ofile = (k.ptable np).ofile) (hc : k₁.globals = k.globals) : Endowed cur np y k k' := by
  have hr : Redealt np y k k₁ := .update ht hp hc
  rw [hr.self] at h
  exact h.after hr hy

/-- The new process, with its descriptors, goes to another state. -/
theorem runs (h : Endowed cur np y k k₁)
    (h' : Redealt np { (k₁.ptable np).card with state := .runnable } k₁ k') :
    Endowed cur np { y with state := .runnable } k k' := by
  have hr := h.toRemade.trans h'.remade
  rw [h.self] at hr
  have hf : k'.fref = k₁.fref := congrArg Globals.fref h'.globals
  exact ⟨hr, hf ▸ h.refs, h'.locked.trans h.locked⟩

theorem copied (h : Endowed cur np y k k') (hfree : (k.ptable np).state = .unused)
    (hruns : y.state = .runnable) (hy : y.ofile = (k.ptable np).ofile) : Copied k cur np k' := by
  refine ⟨hfree, (congrArg Card.state h.self).trans hruns, funext fun q => ?_, h.refs⟩
  by_cases e : q = np
  · subst e
    rw [update_self, ← hy]
    exact congrArg Card.ofile h.self
  · rw [update_of_ne e]
    exact congrArg Card.ofile (h.other q e)

end Endowed

/-- The card of a slot that `allocproc` has taken, with the state it has come to. -/
def Card.opened (x : Card) (st : State) (pid : Nat) : Card :=
  { x with state := st, pid, isthread := false, turns := .fresh }

section

variable {k k' : Kernel} {cur np : Slot} {e : Call} {y : Card}

theorem start_eq (h : e ≠ .exit) : e.start k cur = k := by
  cases e with
  | exit => exact absurd rfl h
  | _ => rfl

/-- One card is dealt with, and everybody else is left. -/
theorem Remade.cards (h : Remade np y k k') (hd : Deal k cur .stays e np (k.ptable np).card y)
    (q : Slot) : Deal k cur .stays e q (k.ptable q).card (k'.ptable q).card := by
  by_cases e : q = np
  · subst e
    rw [h.self]
    exact hd
  · rw [h.other q e]
    exact .same ..

/-- A call that leaves all descriptors and everything else but the cards. -/
theorem Dealt.quiet {o : Outcome} (hx : e ≠ .exit)
    (hd : ∀ q, Deal k cur o e q (k.ptable q).card (k'.ptable q).card)
    (ho : ∀ q, (k'.ptable q).ofile = (k.ptable q).ofile) (hg : k'.globals = k.globals) :
    Dealt k cur o e k' where
  card := hd
  counters _ := by rw [start_eq hx]; exact congrArg Globals.counters hg
  files _ := .inl (opens_congr ho hg)
  dropped h := absurd h hx
  locked := .inl (congrArg Globals.locked hg)

theorem Redealt.dealt (h : Redealt np y k k') (hx : e ≠ .exit) (hy : y.ofile = (k.ptable np).ofile)
    (hd : Deal k cur .stays e np (k.ptable np).card y) : Dealt k cur .stays e k' :=
  .quiet hx (h.remade.cards hd) (h.ofile hy) h.globals

theorem SameCards.dealt (h : SameCards k k') (hx : e ≠ .exit) : Dealt k cur .stays e k' :=
  .quiet hx (fun q => by rw [h.card q]; exact .same ..) (fun q => congrArg Card.ofile (h.card q))
    h.globals

/-- Processes that are left but for marks and wakeups. -/
theorem Touched.dealt {o : Outcome} (hx : e ≠ .exit)
    (h : ∀ q, Touched k cur o e q (k.ptable q).card (k'.ptable q).card)
    (hg : k'.globals = k.globals) : Dealt k cur o e k' :=
  .quiet hx (fun q => .kept (h q)) (fun q => (h q).ofile.resolve_right fun e => hx e.2) hg

/-- A new process with copies of the descriptors of the caller. -/
theorem Endowed.dealt (h : Endowed cur np y k k') (hx : e ≠ .exit)
    (hu : (k.ptable np).state = .unused) (hr : y.state = .runnable)
    (hy : y.ofile = (k.ptable np).ofile)
    (hd : Deal k cur .stays e np (k.ptable np).card (y.heir (k.ptable cur).card)) :
    Dealt k cur .stays e k' where
  card := h.cards hd
  counters _ := by rw [start_eq hx]; exact h.counters
  files _ := .inr ⟨rfl, np, h.copied hu hr hy⟩
  dropped h := absurd h hx
  locked := .inl h.locked

theorem copyFiles_cards (h : copyFiles k cur np = .ok k') :
    Endowed cur np (k.ptable np).card k k' := by
  rw [copyFiles] at h
  obtain ⟨r, hr, h⟩ := bind_ok.mp h
  split at h
  · cases h
  have hu : Redealt np ((k.ptable np).card.heir (k.ptable cur).card) { k with fref := r } k' := by
    cases h
    exact .update rfl rfl rfl
  cases h
  exact ⟨⟨hu.self, hu.other, rfl⟩, hr, rfl⟩

/-- `allocproc` takes the first unused slot, or leaves every slot as it was but for the reset fields
of one that stays unused. -/
theorem allocproc_cards {o : Option Slot} (h : allocproc k = .ok (o, k')) :
    match o with
    | some s => ((List.finRange NPROC).find? fun s => (k.ptable s).state = .unused) = some s ∧
        (k.ptable s).state = .unused ∧ Redealt s ((k.ptable s).card.opened .embryo k.nextpid) k k'
    | none => k' = k ∨ ∃ s, (k.ptable s).state = .unused ∧
        Redealt s ((k.ptable s).card.opened .unused k.nextpid) k k' := by
  rw [allocproc] at h
  obtain ⟨-, -, h⟩ := bind_ok.mp h
  split at h
  · cases h
    exact .inl rfl
  rename_i s hs
  have hu : (k.ptable s).state = .unused := by simpa using List.find?_some hs
  have hopen : Redealt s ((k.ptable s).card.opened .embryo k.nextpid) k
      { k.set s (·.embryo k.nextpid) with nextpid := k.nextpid + 1 } := .update rfl rfl rfl
  dsimp only at h
  split at h
  · cases h
    refine .inr ⟨s, hu, hopen.trans (.update rfl ?_ rfl)⟩
    simp only [Kernel.set_ptable, update_self]
    rfl
  · cases h
    exact ⟨hs, hu, hopen.same (.update rfl rfl rfl)⟩

/-- The child gets its parent and the descriptors and becomes RUNNABLE, or its slot is free again. -/
theorem forkFinish_cards {r : Int} (h : forkFinish k cur np = .ok (r, k')) :
    r = -1 ∧ Redealt np { (k.ptable np).card with state := .unused } k k' ∨
      r = (k'.ptable np).pid ∧
        Endowed cur np { (k.ptable np).card with state := .runnable, parent := some cur } k k' := by
  rw [forkFinish] at h
  obtain ⟨d, -, h⟩ := bind_ok.mp h
  obtain ⟨⟨d', m⟩, -, h⟩ := bind_ok.mp h
  cases d' with
  | none =>
    obtain ⟨k₂, h₂, h⟩ := bind_ok.mp h
    cases h
    have hk : SameCards k k₂ := (kfreeStack_cards h₂).after rfl rfl rfl
    refine .inl ⟨rfl, .after (.update rfl ?_ rfl) hk⟩
    rw [← hk.card np]
    rfl
  | some d' =>
    obtain ⟨k₂, h₂, h⟩ := bind_ok.mp h
    obtain ⟨-, -, h⟩ := bind_ok.mp h
    split at h
    · cases h
    · have hp : Endowed cur np { (k.ptable np).card with parent := some cur } k k₂ :=
        (copyFiles_cards h₂).before rfl rfl rfl rfl
      cases h
      exact .inr ⟨rfl, hp.runs (.update rfl rfl rfl)⟩

/-- The thread gets its number; where it has no stack, the lock is kept. -/
theorem giveStack_cards {d : Page} {ok : Bool} (h : giveStack k cur np d = .ok (ok, k')) :
    ∃ n k₁, (n = (k.ptable np).threadNum ∨ ∃ i : Fin NTHREAD, n = i.val) ∧
      Redealt np { (k.ptable np).card with threadNum := n } k k₁ ∧
      (k' = k₁ ∨ ok = false ∧ k' = { k₁ with locked := true }) := by
  rw [giveStack] at h
  split at h
  · cases h
    exact ⟨_, k, .inl rfl, ⟨rfl, fun _ _ => rfl, rfl⟩, .inl rfl⟩
  rename_i i _
  obtain ⟨⟨top, k₁⟩, h₁, h⟩ := bind_ok.mp h
  have hk₁ : SameCards k k₁ := by
    rw [stackTop] at h₁
    split at h₁
    · obtain ⟨-, -, h₁⟩ := bind_ok.mp h₁
      obtain ⟨⟨sz, m⟩, -, h₁⟩ := bind_ok.mp h₁
      cases h₁
      exact .setMem k m
    · cases h₁
      exact .refl k
  cases top with
  | none =>
    cases h
    exact ⟨_, k₁, .inl rfl, ⟨hk₁.card np, fun q _ => hk₁.card q, hk₁.globals⟩, .inr ⟨rfl, rfl⟩⟩
  | some top =>
    cases h
    -- first the table of the caller, then the size and the number of the thread
    have hcur : SameCards k₁ (k₁.set cur fun p =>
        { p with
          szThread := Function.update p.szThread i top
          exThread := Function.update p.exThread i true }) := .update rfl rfl rfl
    have hall := hk₁.trans hcur
    refine ⟨i.val, _, .inr ⟨i, rfl⟩, ?_, .inl rfl⟩
    refine .after (.update rfl ?_ rfl) hall
    rw [← hall.card np]
    rfl

/-- The thread gets its parent and mother and the descriptors and becomes RUNNABLE, or its slot stays
in the making. -/
theorem threadFinish_cards {thread start arg : Nat} {r : Int}
    (h : threadFinish k cur np thread start arg = .ok (r, k')) :
    ∃ n, (n = (k.ptable np).threadNum ∨ ∃ i : Fin NTHREAD, n = i.val) ∧ ((∃ k₁, Redealt np { (k.ptable np).card with threadNum := n } k k₁ ∧
        (k' = k₁ ∨ k' = { k₁ with locked := true })) ∨
      Endowed cur np { (k.ptable np).card with
        state := .runnable, parent := some cur, isthread := true, mother := some cur,
        threadNum := n } k k') := by
  rw [threadFinish] at h
  obtain ⟨d, -, h⟩ := bind_ok.mp h
  obtain ⟨⟨ok, k₂⟩, h₂, h⟩ := bind_ok.mp h
  have hset : SameCards k (k.set np ({ · with pgdir := some d, tf := (k.ptable cur).tf })) :=
    .update rfl rfl rfl
  obtain ⟨n, k₁, hn, hg, hk₂⟩ := giveStack_cards h₂
  rw [show ((k.set np _).ptable np).threadNum = (k.ptable np).threadNum from
    congrArg Card.threadNum (hset.card np)] at hn
  rw [hset.card np] at hg
  have hg := hg.after hset
  refine ⟨n, hn, ?_⟩
  cases ok with
  | false =>
    cases h
    exact .inl ⟨k₁, hg, hk₂.imp_right And.right⟩
  | true =>
    obtain rfl : k₂ = k₁ := hk₂.resolve_right fun e => nomatch e.1
    obtain ⟨⟨ok, m⟩, -, h⟩ := bind_ok.mp h
    cases ok with
    | false =>
      cases h
      exact .inl ⟨_, hg.same (.setMem k₂ m), .inl rfl⟩
    | true =>
      obtain ⟨m', -, h⟩ := bind_ok.mp h
      obtain ⟨k₃, h₃, h⟩ := bind_ok.mp h
      obtain ⟨-, -, h⟩ := bind_ok.mp h
      cases h
      have hm : Endowed cur np { (k₂.ptable np).card with
          isthread := true, parent := some cur, mother := some cur } k₂ k₃ :=
        (copyFiles_cards h₃).before rfl rfl rfl rfl
      rw [hg.self] at hm
      exact .inr ((hm.after hg rfl).runs (.update rfl rfl rfl))

theorem fork_dealt {r : Int} (h : fork k cur = .ok (r, k')) : Dealt k cur .stays .fork k' := by
  rw [fork] at h
  obtain ⟨⟨o, k₁⟩, h₁, h⟩ := bind_ok.mp h
  have ha := allocproc_cards h₁
  cases o with
  | none =>
    cases h
    rcases ha with rfl | ⟨np, hu, hs⟩
    · exact (SameCards.refl _).dealt nofun
    · exact hs.dealt nofun rfl (.taken hu rfl rfl rfl (.failed (.inl rfl) rfl rfl) (.inl rfl))
  | some np =>
    obtain ⟨-, hu, hs⟩ := ha
    have hk := forkFinish_cards h
    rw [hs.self] at hk
    rcases hk with ⟨-, hk⟩ | ⟨-, hk⟩
    · exact (hs.trans hk).dealt nofun rfl (.taken hu rfl rfl rfl (.failed (.inl rfl) rfl rfl) (.inl rfl))
    · exact (hk.after hs rfl).dealt nofun hu rfl rfl (.taken hu rfl rfl rfl
        (.child rfl rfl rfl rfl) (.inl rfl))

theorem threadCreate_dealt {thread start arg : Nat} {r : Int}
    (h : threadCreate k cur thread start arg = .ok (r, k')) :
    Dealt k cur .stays (.threadCreate thread start arg) k' := by
  rw [threadCreate] at h
  obtain ⟨⟨o, k₁⟩, h₁, h⟩ := bind_ok.mp h
  -- the thread table of the caller does not show in its card
  have hk : SameCards k (k.set cur Proc.initThreads) := .update rfl (initThreads_card _) rfl
  have hset : ∀ {s st pid}, ((k.set cur Proc.initThreads).ptable s).card.opened st pid =
      (k.ptable s).card.opened st pid := fun {s _ _} => by rw [hk.card s]
  have ha := allocproc_cards h₁
  cases o with
  | none =>
    cases h
    rcases ha with rfl | ⟨np, hu, hs⟩
    · exact hk.dealt nofun
    · rw [hset] at hs
      exact (hs.after hk).dealt nofun rfl
        (.taken ((hk.state np).symm.trans hu) rfl rfl rfl (.failed (.inl rfl) rfl rfl) (.inl rfl))
  | some np =>
    obtain ⟨-, hu, hs⟩ := ha
    rw [hset] at hs
    have hs := hs.after hk
    have hu : (k.ptable np).state = .unused := (hk.state np).symm.trans hu
    obtain ⟨n, hn, hf⟩ := threadFinish_cards h
    rw [show (k₁.ptable np).threadNum = (k.ptable np).threadNum from
      congrArg Card.threadNum hs.self] at hn
    rw [hs.self] at hf
    rcases hf with ⟨k₂, hf, hk'⟩ | hf
    · have hr := hs.trans hf
      have hd : ∀ q, Deal k cur .stays (.threadCreate thread start arg) q (k.ptable q).card
          (k₂.ptable q).card :=
        hr.remade.cards (.taken hu rfl rfl rfl (.failed (.inr rfl) rfl rfl) hn)
      rcases hk' with rfl | rfl
      · exact .quiet nofun hd (hr.ofile rfl) hr.globals
      · exact ⟨hd, fun _ => hr.remade.counters, fun _ => .inl (hr.opens rfl), nofun,
          .inr ⟨np, congrArg Card.state hf.self⟩⟩
    · exact (hf.after hs rfl).dealt nofun hu rfl rfl
        (.taken hu rfl rfl rfl (.thread rfl rfl rfl rfl rfl) hn)

/-- `set_cpu_share` shows in what the schedulers read of its caller, and in no state. -/
theorem setCpuShare_dealt (k : Kernel) (cur : Slot) (i : BitVec 32) :
    Dealt k cur .stays (.setCpuShare i) (setCpuShare k cur i.toInt).2 := by
  have own : ∀ {k' : Kernel} {p : Proc}, k'.ptable = Function.update k.ptable cur p →
      p.card = { (k.ptable cur).card with turns := p.card.turns } →
      k'.fref = k.fref → k'.locked = k.locked → Dealt k cur .stays (.setCpuShare i) k' := by
    intro k' p ht hp hf hl
    have hd : ∀ q, Touched k cur .stays (.setCpuShare i) q (k.ptable q).card
        (k'.ptable q).card := by
      intro q
      rw [ht]
      by_cases e : q = cur
      · subst e
        rw [update_self, hp]
        exact ⟨rfl, rfl, rfl, rfl, .inl rfl, .inl rfl, .inl rfl, fun _ => .same _,
          .inr ⟨rfl, i, rfl⟩, .inl rfl⟩
      · rw [update_of_ne e]
        exact .refl ..
    have ho : ∀ q, (k'.ptable q).ofile = (k.ptable q).ofile :=
      fun q => (hd q).ofile.resolve_right nofun
    exact ⟨fun q => .kept (hd q), fun h => absurd rfl (h i), fun _ => .inl (Prod.ext (funext ho) hf),
      nofun, .inl hl⟩
  rw [setCpuShare]
  split
  · exact (SameCards.refl k).dealt nofun
  dsimp only
  split
  · split
    · exact (SameCards.refl k).dealt nofun
    · exact own rfl rfl rfl rfl
  split
  · exact (SameCards.refl k).dealt nofun
  · refine own (Function.update_idem ..) ?_ rfl rfl
    simp only [Kernel.set_ptable, update_self]
    rfl

end

/-! ### Marks and wakeups -/

/-- The state is the same, or a sleeper's that was woken. -/
def Roused (st st' : State) : Prop := st' = st ∨ st = .sleeping ∧ st' = .runnable

theorem Roused.trans {st st' st'' : State} (h : Roused st st') (h' : Roused st' st'') :
    Roused st st'' := by
  rcases h with rfl | ⟨hs, rfl⟩
  · exact h'
  · rcases h' with rfl | ⟨hs', -⟩
    · exact .inr ⟨hs, rfl⟩
    · cases hs'

theorem Roused.own {st st' : State} (h : Roused st st') : OwnState .stays st st' := by
  rcases h with rfl | ⟨rfl, rfl⟩
  · exact .same _
  · exact .wake

section

variable {k k' : Kernel} {cur : Slot} {e : Call}

theorem wakeup1_cards (k : Kernel) (c : Chan) (q : Slot) : ∃ st,
    ((wakeup1 k c).ptable q).card = { (k.ptable q).card with state := st } ∧
      Roused (k.ptable q).state st := by
  simp only [wakeup1]
  split
  case isTrue h => exact ⟨.runnable, rfl, .inr ⟨h.1, rfl⟩⟩
  case isFalse => exact ⟨(k.ptable q).state, rfl, .inl rfl⟩

/-- The effect of `kill` on the process it takes. -/
def Proc.marked (p : Proc) : Proc :=
  { p with killed := true, state := if p.state = .sleeping then .runnable else p.state }

theorem marked_roused (p : Proc) : Roused p.state p.marked.state := by
  rw [Proc.marked]
  dsimp only
  split
  case isTrue h => exact .inr ⟨h, rfl⟩
  case isFalse => exact .inl rfl

theorem marked_awake (p : Proc) : p.marked.state ≠ .sleeping := by
  rw [Proc.marked]
  dsimp only
  split
  case isTrue => exact State.noConfusion
  case isFalse h => exact h

/-- A process is woken at most. -/
theorem Touched.woken {q : Slot} {x : Card} {st : State} (h : Roused x.state st) :
    Touched k cur .stays e q x { x with state := st } :=
  ⟨rfl, rfl, rfl, rfl, h.imp_right .inl, .inl rfl, .inl rfl, fun _ => h.own, .inl rfl, .inl rfl⟩

/-- A process is marked, and woken at most. -/
theorem Touched.marked {q : Slot} {x : Card} {st : State} (h : Roused x.state st)
    (hm : Mark k cur q e) : Touched k cur .stays e q x { x with state := st, killed := true } :=
  ⟨rfl, rfl, rfl, rfl, h.imp_right .inl, .inl rfl, .inr ⟨rfl, hm⟩, fun _ => h.own, .inl rfl,
    .inl rfl⟩

/-- `kill` takes the first slot with the pid. -/
theorem kill_eq (k : Kernel) (pid : Int) (hl : k.locked = false) : kill k pid =
    match k.holder pid with
    | none => .ok (-1, k)
    | some s => .ok (0, k.set s Proc.marked) := by
  rw [kill, acquire, hl]
  rfl

theorem kill_unlocked {pid r : Int} (h : kill k pid = .ok (r, k')) : k.locked = false := by
  rw [kill] at h
  obtain ⟨u, ha, -⟩ := bind_ok.mp h
  exact acquire_ok ha

theorem kill_dealt {pid : BitVec 32} {r : Int} (h : kill k pid.toInt = .ok (r, k')) :
    Dealt k cur .stays (.kill pid) k' := by
  rw [kill_eq k _ (kill_unlocked h)] at h
  split at h
  · cases h
    exact (SameCards.refl k).dealt nofun
  · rename_i s hs
    cases h
    have hr : Redealt s (k.ptable s).marked.card k (k.set s Proc.marked) := .update rfl rfl rfl
    exact hr.dealt nofun rfl (.kept (.marked (marked_roused _) (.kill hs)))

/-- A thread that calls `exec` marks the others of its group. -/
theorem execKill_ok (h : execKill k cur = .ok k') : k' = k ∨ ∃ m, (k.ptable cur).isthread = true ∧
    (k.ptable cur).mother = some m ∧
    k' = { k with ptable := fun q =>
             if k.InGroup (k.ptable m).pid cur q then (k.ptable q).marked else k.ptable q } := by
  rw [execKill] at h
  split at h
  · rename_i hth
    split at h
    · cases h
    rename_i m hm
    obtain ⟨-, -, h⟩ := bind_ok.mp h
    cases h
    rw [killLwpgroup, if_pos hth]
    exact .inr ⟨m, hth, hm, rfl⟩
  · cases h
    exact .inl rfl

theorem exec_dealt {path : String} {file : Option File} {argv : List (List UInt8)} {r : Int}
    (h : exec k cur path file argv = .ok (r, k')) : Dealt k cur .stays (.exec path file argv) k' := by
  rw [exec] at h
  obtain ⟨k₁, h₁, h⟩ := bind_ok.mp h
  obtain ⟨⟨im, m⟩, -, h⟩ := bind_ok.mp h
  have hs : SameCards k₁ k' := by
    cases im with
    | none =>
      cases h
      exact .setMem k₁ m
    | some im =>
      obtain ⟨k₂, h₂, h⟩ := bind_ok.mp h
      cases h
      exact (SameCards.setMem k₁ m).trans (execCommit_cards h₂)
  rcases execKill_ok h₁ with rfl | ⟨m, hth, hm, rfl⟩
  · exact hs.dealt nofun
  refine Touched.dealt nofun (fun q => ?_) hs.globals
  rw [hs.card q]
  dsimp only
  split
  case isTrue hg => exact .marked (marked_roused _) (.exec hth hm hg)
  case isFalse => exact .refl ..

end

/-! ### Sleeping and freeing -/

section

variable {k k' : Kernel} {cur s : Slot} {e : Call}

/-- The caller goes to sleep or yields. -/
theorem Redealt.leaves {st : State} (h : Redealt cur { (k.ptable cur).card with state := st } k k')
    (hst : st = .sleeping ∨ st = .runnable) (hx : e ≠ .exit) : Dealt k cur .leaves e k' := by
  refine Touched.dealt hx (fun q => ?_) h.globals
  by_cases hq : q = cur
  · subst hq
    rw [h.self]
    exact ⟨rfl, rfl, rfl, rfl, .inr (.inr ⟨rfl, .inl hst⟩), .inl rfl, .inl rfl,
      fun _ => .leave _ hst, .inl rfl, .inl rfl⟩
  · rw [h.other q hq]
    exact .other hq

theorem sleep_dealt (k : Kernel) (cur : Slot) (c : Chan) (hx : e ≠ .exit) :
    Dealt k cur .leaves e (sleep k cur c) := by
  have h : Redealt cur { (k.ptable cur).card with state := .sleeping } k (sleep k cur c) :=
    .update rfl rfl rfl
  exact h.leaves (.inl rfl) hx

theorem reap_cards (h : reap k s = .ok k') : Redealt s { (k.ptable s).card with
    state := .unused, pid := 0, parent := none, killed := false } k k' := by
  rw [reap] at h
  obtain ⟨k₁, h₁, h⟩ := bind_ok.mp h
  have hs := kfreeStack_cards h₁
  split at h
  · cases h
  obtain ⟨m, -, h⟩ := bind_ok.mp h
  cases h
  refine .after (.update rfl ?_ rfl) (hs.trans (.setMem k₁ m))
  rw [← hs.card s]
  rfl

theorem wait_dealt {r : Option Int} (h : wait k cur = .ok (r, k')) :
    Dealt k cur (.ofResult r) .wait k' := by
  rw [wait] at h
  obtain ⟨-, -, h⟩ := bind_ok.mp h
  split at h
  · rename_i s hs
    obtain ⟨k₁, h₁, h⟩ := bind_ok.mp h
    cases h
    have hf := List.find?_some hs
    simp only [decide_eq_true_eq] at hf
    exact (reap_cards h₁).dealt nofun rfl (.reaped rfl hf.2 hf.1)
  · split at h
    · cases h
      exact (SameCards.refl k).dealt nofun
    · cases h
      exact sleep_dealt k cur _ nofun

theorem joinReap_cards (h : joinReap k cur s = .ok k') : Redealt s (k.ptable s).card.left k k' := by
  rw [joinReap] at h
  obtain ⟨k₁, h₁, h⟩ := bind_ok.mp h
  obtain ⟨c, h₂, h⟩ := bind_ok.mp h
  cases h
  have hs := kfreeStack_cards h₁
  have hsz : SameCards k₁ (k₁.set s ({ · with sz := (k₁.ptable cur).sz })) := .update rfl rfl rfl
  have hcx : SameCards (k₁.set s ({ · with sz := (k₁.ptable cur).sz }))
      ((k₁.set s ({ · with sz := (k₁.ptable cur).sz })).set cur fun _ => c) :=
    .update rfl (clearEx_card h₂) rfl
  have hall := (hs.trans hsz).trans hcx
  refine .after (.update rfl ?_ rfl) hall
  rw [← hall.card s]
  rfl

variable {r : Option Nat} {o : Outcome}

/-- `thread_join` frees a zombie child with the pid, or the caller goes to sleep. -/
theorem threadJoin_frees {t : Int} (h : threadJoin k cur t = .ok (r, k')) :
    (∃ s, (k.ptable s).parent = some cur ∧ ((k.ptable s).pid : Int) = t ∧
      (k.ptable s).state = .zombie ∧ r = some (k.ptable s).retVal ∧ joinReap k cur s = .ok k') ∨
    (∀ s, (k.ptable s).parent = some cur → ((k.ptable s).pid : Int) = t →
      (k.ptable s).state ≠ .zombie) ∧ r = none ∧ k' = sleep k cur (.proc cur) := by
  rw [threadJoin] at h
  obtain ⟨-, -, h⟩ := bind_ok.mp h
  split at h
  · rename_i s hs
    obtain ⟨k₁, h₁, h⟩ := bind_ok.mp h
    cases h
    have hf := List.find?_some hs
    simp only [decide_eq_true_eq] at hf
    obtain ⟨hp, ht, hz⟩ := hf
    exact .inl ⟨s, hp, ht, hz, rfl, h₁⟩
  · rename_i hn
    cases h
    refine .inr ⟨fun s hp ht hz => ?_, rfl, rfl⟩
    have hnone := List.find?_eq_none.mp hn s (List.mem_finRange s)
    exact hnone (decide_eq_true ⟨hp, ht, hz⟩)

theorem joinCall_dealt {t : BitVec 32} {a : Nat} (h : joinCall k cur t.toInt a = .ok (r, k')) :
    Dealt k cur (.ofResult r) (.threadJoin t a) k' := by
  rw [joinCall] at h
  obtain ⟨⟨r₁, k₁⟩, h₁, h⟩ := bind_ok.mp h
  rcases threadJoin_frees h₁ with ⟨s, hp, ht, hz, rfl, hj⟩ | ⟨-, rfl, rfl⟩
  · obtain ⟨d, -, h⟩ := bind_ok.mp h
    obtain ⟨m, -, h⟩ := bind_ok.mp h
    cases h
    exact ((joinReap_cards hj).same (.setMem k₁ m)).dealt nofun rfl
      (.joined (.inl ⟨t, a, rfl, ht⟩) hz hp)
  · cases h
    exact sleep_dealt k cur _ nofun

/-- The mark of a process that is exiting does not show. -/
theorem exiting_cards (k : Kernel) (cur : Slot) :
    SameCards k (k.set cur ({ · with exiting := true })) := .update rfl rfl rfl

/-- One child in the loop of `exit`: passed over, freed, or marked and woken. -/
theorem exitVisit_cases (h : exitVisit k cur s = .ok (r, k')) : (∃ v, r = some v) ∧
    (((k.ptable s).parent ≠ some cur ∧ k' = k.set cur ({ · with exiting := true })) ∨
    ((k.ptable s).parent = some cur ∧ (k.ptable s).state = .zombie ∧
      ∃ q, (k.ptable q).parent = some cur ∧ (k.ptable q).pid = (k.ptable s).pid ∧
        (k.ptable q).state = .zombie ∧
        joinReap (k.set cur ({ · with exiting := true })) cur q = .ok k') ∨
    (k.ptable s).parent = some cur ∧ (k.ptable s).state ≠ .zombie ∧
      k' = wakeup1 ((k.set cur ({ · with exiting := true })).set s ({ · with killed := true }))
        (.proc s)) := by
  have hk := exiting_cards k cur
  rw [exitVisit] at h
  split at h
  · cases h
  dsimp only at h
  split at h
  · rename_i hp
    rw [hk.parent s] at hp
    cases h
    exact ⟨⟨0, rfl⟩, .inl ⟨hp, rfl⟩⟩
  · rename_i hp
    rw [not_not, hk.parent s] at hp
    split at h
    · rename_i hz
      rcases threadJoin_frees h with ⟨q, hp', ht, hz', hv, hr⟩ | ⟨hn, -, -⟩
      · rw [hk.state s] at hz
        rw [hk.parent q] at hp'
        rw [hk.state q] at hz'
        rw [hk.pid q, hk.pid s] at ht
        exact ⟨⟨_, hv⟩, .inr (.inl ⟨hp, hz, q, hp', Int.ofNat_inj.mp ht, hz', hr⟩)⟩
      · -- the zombie just seen is one that is found
        exact absurd hz (hn s ((hk.parent s).trans hp) rfl)
    · rename_i hz
      rw [hk.state s] at hz
      cases h
      exact ⟨⟨0, rfl⟩, .inr (.inr ⟨hp, hz, rfl⟩)⟩

theorem exitVisit_dealt (h : exitVisit k cur s = .ok (r, k')) :
    Dealt k cur (.ofResult r) (.exitVisit s) k' := by
  have hk := exiting_cards k cur
  obtain ⟨⟨v, rfl⟩, hv⟩ := exitVisit_cases h
  rcases hv with ⟨-, rfl⟩ | ⟨hp, hz, s', hp', ht, hz', hj⟩ | ⟨hp, hz, rfl⟩
  · exact hk.dealt nofun
  · have hj := (joinReap_cards hj).after hk
    rw [hk.card s'] at hj
    exact hj.dealt nofun rfl (.joined (.inr ⟨s, rfl, hp, hz, ht⟩) hz' hp')
  refine Touched.dealt nofun (fun q => ?_) rfl
  obtain ⟨st, hc, hst⟩ := wakeup1_cards ((k.set cur ({ · with exiting := true })).set s
    ({ · with killed := true })) (.proc s) q
  rw [hc]
  by_cases e : q = s
  · subst e
    rw [Kernel.set_ptable, update_self] at hst ⊢
    have hst : Roused (k.ptable q).state st := (hk.state q) ▸ hst
    have hcard : Proc.card { (k.set cur ({ · with exiting := true })).ptable q with
        killed := true } = { (k.ptable q).card with killed := true } := by
      rw [← hk.card q]
      rfl
    rw [hcard]
    exact .marked hst (.visit hp hz)
  · rw [Kernel.set_ptable, update_of_ne e] at hst ⊢
    rw [hk.state q] at hst
    rw [hk.card q]
    exact .woken hst

/-! ### Ending -/

/-- The card of a slot after its caller, or another, has ended. -/
structure Bereft (cur q : Slot) (x y : Card) : Prop where
  pid : y.pid = x.pid
  isthread : y.isthread = x.isthread
  mother : y.mother = x.mother
  threadNum : y.threadNum = x.threadNum
  killed : y.killed = x.killed
  turns : y.turns = x.turns
  ofile : y.ofile = x.ofile
  state : q = cur ∧ y.state = .zombie ∨ q ≠ cur ∧ Roused x.state y.state
  parent : y.parent = if x.parent = some cur then some initproc else x.parent

theorem abandon_cards (k : Kernel) (cur q : Slot) : ∃ st, ((abandon k cur).ptable q).card =
    { (k.ptable q).card with
      state := st
      parent := if (k.ptable q).parent = some cur then some initproc else (k.ptable q).parent } ∧
    Roused (k.ptable q).state st := by
  have hp : (if (k.ptable q).parent = some cur then
      { k.ptable q with parent := some initproc } else k.ptable q).card =
      { (k.ptable q).card with
        parent := if (k.ptable q).parent = some cur then some initproc
          else (k.ptable q).parent } := by
    split
    · rfl
    · rfl
  rw [abandon]
  split
  · exact ⟨(k.ptable q).state, hp, .inl rfl⟩
  obtain ⟨st, hc, hst⟩ := wakeup1_cards
    { k with ptable := fun s =>
        if (k.ptable s).parent = some cur then { k.ptable s with parent := some initproc }
        else k.ptable s } (.proc initproc) q
  dsimp only at hc hst
  rw [hp] at hc
  have hs : (if (k.ptable q).parent = some cur then
      { k.ptable q with parent := some initproc } else k.ptable q).state = (k.ptable q).state :=
    congrArg Card.state hp
  exact ⟨st, hc, hs ▸ hst⟩

theorem die_cards (k : Kernel) (cur : Slot) (v : Nat) (q : Slot) :
    Bereft cur q (k.ptable q).card ((die k cur v).ptable q).card := by
  obtain ⟨st, hc, hst⟩ := abandon_cards k cur q
  have hz : ∃ st', (((abandon k cur).set cur ({ · with state := .zombie, retVal := v })).ptable
      q).card = { ((abandon k cur).ptable q).card with state := st' } ∧
      (q = cur ∧ st' = .zombie ∨ q ≠ cur ∧ st' = st) := by
    rw [Kernel.set_ptable]
    by_cases e : q = cur
    · subst e
      rw [update_self]
      exact ⟨.zombie, rfl, .inl ⟨rfl, rfl⟩⟩
    · rw [update_of_ne e]
      exact ⟨st, by rw [hc], .inr ⟨e, rfl⟩⟩
  obtain ⟨st', hc', hst'⟩ := hz
  rw [hc] at hc'
  -- the wakeup of the parent shows in nobody who has ended
  have hw : ∃ st'', ((die k cur v).ptable q).card = { (((abandon k cur).set cur
      ({ · with state := .zombie, retVal := v })).ptable q).card with state := st'' } ∧
      Roused st' st'' := by
    rw [die]
    split
    · exact ⟨st', by rw [hc'], .inl rfl⟩
    obtain ⟨st'', h₁, h₂⟩ := wakeup1_cards
      ((abandon k cur).set cur ({ · with state := .zombie, retVal := v })) _ q
    have hs : (((abandon k cur).set cur ({ · with state := .zombie, retVal := v })).ptable
        q).state = st' := congrArg Card.state hc'
    rw [hs] at h₂
    exact ⟨st'', h₁, h₂⟩
  obtain ⟨st'', hc'', hst''⟩ := hw
  rw [hc'', hc']
  refine ⟨rfl, rfl, rfl, rfl, rfl, rfl, rfl, ?_, rfl⟩
  rcases hst' with ⟨hq, rfl⟩ | ⟨hq, rfl⟩
  · refine .inl ⟨hq, ?_⟩
    rcases hst'' with h | ⟨h, -⟩
    · exact h
    · cases h
  · exact .inr ⟨hq, hst.trans hst''⟩

theorem die_globals (k : Kernel) (cur : Slot) (v : Nat) : (die k cur v).globals = k.globals := by
  have h : (abandon k cur).globals = k.globals := by
    rw [abandon]
    split <;> rfl
  rw [die]
  split <;> exact h

theorem Bereft.touched {q : Slot} {x y : Card} (h : Bereft cur q x y) (he : e.Ends) :
    Touched k cur .ends e q x y := by
  refine ⟨h.pid, h.isthread, h.mother, h.threadNum, ?_, ?_, .inl h.killed, fun hq => ?_, .inl h.turns,
    .inl h.ofile⟩
  · rcases h.state with ⟨hq, hz⟩ | ⟨-, hr⟩
    · exact .inr (.inr ⟨hq, .inr ⟨hz, he⟩⟩)
    · exact hr.imp_right .inl
  · rw [h.parent]
    split
    case isTrue hp => exact .inr ⟨hp, rfl, he⟩
    case isFalse => exact .inl rfl
  · rcases h.state with ⟨-, hz⟩ | ⟨hne, -⟩
    · rw [hz]
      exact .die _
    · exact absurd hq hne

theorem threadExit_dealt {v : Nat} (h : threadExit k cur v = .ok k') :
    Dealt k cur .ends (.threadExit v) k' := by
  obtain ⟨-, k₁, h₁, rfl⟩ := threadExit_ok h
  have hs := putCwd_cards h₁
  refine Touched.dealt nofun (fun q => ?_) ((die_globals k₁ cur v).trans hs.globals)
  rw [← hs.card q]
  exact (die_cards k₁ cur v q).touched trivial

/-- A thread that ends marks its parent, and nothing else shows. -/
theorem exitMother_cards (h : exitMother k cur = .ok k') :
    k'.globals = k.globals ∧ ∀ q, ∃ b, (k'.ptable q).card = { (k.ptable q).card with killed := b } ∧
      (b = (k.ptable q).killed ∨ b = true ∧ Mark k cur q .exit) := by
  rw [exitMother] at h
  split at h
  · rename_i hth
    split at h
    · cases h
    rename_i m hm
    split at h
    · cases h
      exact ⟨rfl, fun _ => ⟨_, rfl, .inl rfl⟩⟩
    obtain ⟨-, -, h⟩ := bind_ok.mp h
    cases h
    refine ⟨rfl, fun q => ?_⟩
    by_cases e : q = m
    · subst e
      rw [Kernel.set_ptable, update_self]
      exact ⟨true, rfl, .inr ⟨rfl, .mother hth hm⟩⟩
    · rw [Kernel.set_ptable, update_of_ne e]
      exact ⟨_, rfl, .inl rfl⟩
  · cases h
    exact ⟨rfl, fun _ => ⟨_, rfl, .inl rfl⟩⟩

theorem giveBack_rest (k : Kernel) (cur : Slot) :
    (giveBack k cur).fref = k.fref ∧ (giveBack k cur).locked = k.locked := by
  rw [giveBack]
  split
  · exact ⟨rfl, rfl⟩
  · exact ⟨rfl, rfl⟩

theorem giveBack_counters (hv : (k'.ptable cur).view = (k.ptable cur).view)
    (hc : k'.counters = k.counters) : (giveBack k' cur).counters = (giveBack k cur).counters := by
  have hmode : (k'.ptable cur).procMode = (k.ptable cur).procMode := congrArg View.procMode hv
  have hshare : (k'.ptable cur).cpuShare = (k.ptable cur).cpuShare := congrArg View.cpuShare hv
  rw [giveBack, giveBack, hmode]
  split
  · simp only [Kernel.counters, Counters.mk.injEq] at hc ⊢
    rw [hc.1, hshare]
    exact ⟨rfl, hc.2⟩
  · exact hc

/-- Between its start and its end `exit` marks the mother and empties the descriptors. -/
theorem exitFiles_cards {k₁ k₂ : Kernel} {fref : Nat → Nat} (h₁ : exitMother k cur = .ok k₁)
    (h₂ : putCwd ({ giveBack k₁ cur with fref := fref }.set cur ({ · with ofile := fun _ => none }))
      cur = .ok k₂) (q : Slot) :
    ∃ b, (k₂.ptable q).card = { (k.ptable q).card with
        killed := b
        ofile := if q = cur then fun _ => none else (k.ptable q).ofile } ∧
      (b = (k.ptable q).killed ∨ b = true ∧ Mark k cur q .exit) := by
  obtain ⟨b, hc, hb⟩ := (exitMother_cards h₁).2 q
  refine ⟨b, ?_, hb⟩
  rw [(putCwd_cards h₂).card q, Kernel.set_ptable]
  have hp : ({ giveBack k₁ cur with fref := fref } : Kernel).ptable = k₁.ptable :=
    giveBack_ptable k₁ cur
  rw [hp]
  by_cases e : q = cur
  · subst e
    rw [update_self, if_pos rfl]
    exact congrArg (fun x : Card => { x with ofile := fun _ => none }) hc
  · rw [update_of_ne e, if_neg e, hc]
    rfl

theorem exit_dealt (h : exit k cur = .ok k') : Dealt k cur .ends .exit k' := by
  obtain ⟨-, k₁, fref, k₂, h₁, hr, h₂, rfl⟩ := exit_ok h
  obtain ⟨hglob, hmother⟩ := exitMother_cards h₁
  obtain ⟨hbf, hbl⟩ := giveBack_rest k₁ cur
  have hg := (die_globals k₂ cur (k₂.ptable cur).retVal).trans (putCwd_cards h₂).globals
  have hd := fun q => die_cards k₂ cur (k₂.ptable cur).retVal q
  have hfiles := exitFiles_cards h₁ h₂
  have ho : ∀ q, (k₁.ptable q).ofile = (k.ptable q).ofile := fun q => by
    obtain ⟨b, hc, -⟩ := hmother q
    exact congrArg Card.ofile hc
  refine ⟨fun q => ?_, fun _ => ?_, fun h => absurd rfl h, fun _ => ⟨funext fun q => ?_, ?_⟩, .inl ?_⟩
  · obtain ⟨b, hc, hb⟩ := hfiles q
    have hq := hd q
    rw [hc] at hq
    have ht : Touched k cur .ends .exit q _ _ := hq.touched trivial
    refine .kept { ht with killed := ?_, ofile := ?_ }
    · rcases hb with rfl | ⟨rfl, hm⟩
      · exact .inl hq.killed
      · exact .inr ⟨hq.killed, hm⟩
    by_cases e : q = cur
    · exact .inr ⟨e, rfl⟩
    · have ho := hq.ofile
      rw [if_neg e] at ho
      exact .inl ho
  · refine (congrArg Globals.counters hg).trans
      (giveBack_counters ?_ (congrArg Globals.counters hglob))
    obtain ⟨b, hc, -⟩ := hmother cur
    exact congrArg Card.view hc
  · obtain ⟨b, hc, -⟩ := hfiles q
    have hq := (hd q).ofile.trans (congrArg Card.ofile hc)
    by_cases e : q = cur
    · subst e
      rw [update_self]
      rw [if_pos rfl] at hq
      exact hq
    · rw [update_of_ne e]
      rw [if_neg e] at hq
      exact hq
  · have hf : (k₁.ptable cur).files = (k.ptable cur).files := by rw [Proc.files, Proc.files, ho]
    rw [giveBack_ptable, hf, hbf, show k₁.fref = k.fref from congrArg Globals.fref hglob] at hr
    have hfref : (die k₂ cur (k₂.ptable cur).retVal).fref = fref := congrArg Globals.fref hg
    exact hfref ▸ hr
  · exact (congrArg Globals.locked hg).trans (hbl.trans (congrArg Globals.locked hglob))

section

variable (h : call k cur e = .ok (o, k'))
include h

/-- **What a call does.**  Each card is dealt with as `Deal` allows, and no counter of the schedulers
changes but that `set_cpu_share` takes a share and `exit` gives it back. -/
theorem call_dealt : Dealt k cur o e k' := by
  cases e with
  | fork =>
    obtain ⟨⟨r, k₁⟩, h₁, h⟩ := bind_ok.mp h
    cases h
    exact fork_dealt h₁
  | exit =>
    obtain ⟨k₁, h₁, h⟩ := bind_ok.mp h
    cases h
    exact exit_dealt h₁
  | exitVisit s =>
    obtain ⟨⟨r, k₁⟩, h₁, h⟩ := bind_ok.mp h
    cases h
    exact exitVisit_dealt h₁
  | wait =>
    obtain ⟨⟨r, k₁⟩, h₁, h⟩ := bind_ok.mp h
    cases h
    exact wait_dealt h₁
  | threadCreate thread start arg =>
    obtain ⟨⟨r, k₁⟩, h₁, h⟩ := bind_ok.mp h
    cases h
    exact threadCreate_dealt h₁
  | threadExit v =>
    obtain ⟨k₁, h₁, h⟩ := bind_ok.mp h
    cases h
    exact threadExit_dealt h₁
  | threadJoin t a =>
    obtain ⟨⟨r, k₁⟩, h₁, h⟩ := bind_ok.mp h
    cases h
    exact joinCall_dealt h₁
  | setCpuShare i =>
    cases h
    exact setCpuShare_dealt k cur i
  | sbrk n =>
    obtain ⟨⟨r, k₁⟩, h₁, h⟩ := bind_ok.mp h
    cases h
    exact (sbrk_cards h₁).dealt nofun
  | exec path file argv =>
    obtain ⟨⟨r, k₁⟩, h₁, h⟩ := bind_ok.mp h
    cases h
    exact exec_dealt h₁
  | kill pid =>
    obtain ⟨⟨r, k₁⟩, h₁, h⟩ := bind_ok.mp h
    cases h
    exact kill_dealt h₁
  | sleep n =>
    obtain ⟨-, -, h⟩ := bind_ok.mp h
    cases h
    exact sleep_dealt k cur _ nofun
  | wakeup n =>
    obtain ⟨-, -, h⟩ := bind_ok.mp h
    cases h
    refine Touched.dealt nofun (fun q => ?_) rfl
    obtain ⟨st, hc, hst⟩ := wakeup1_cards k (.other n) q
    rw [hc]
    exact .woken hst
  | yield =>
    obtain ⟨-, -, h⟩ := bind_ok.mp h
    have hr : Redealt cur { (k.ptable cur).card with state := .runnable } k k' := by
      cases h
      exact .update rfl rfl rfl
    cases h
    exact hr.leaves (.inr rfl) nofun

theorem call_cards (q : Slot) : Deal k cur o e q (k.ptable q).card (k'.ptable q).card :=
  (call_dealt h).card q

/-- Who has ended is nobody's parent; init does not end. -/
theorem call_orphans (he : e.Ends) : cur ≠ initproc ∧ ∀ q, (k'.ptable q).parent ≠ some cur := by
  -- both calls end in `die`, which passes the children to init
  have dead : ∀ {k₁ v}, cur ≠ initproc → k' = die k₁ cur v →
      cur ≠ initproc ∧ ∀ q, (k'.ptable q).parent ≠ some cur := by
    rintro k₁ v hne rfl
    refine ⟨hne, fun q hq => ?_⟩
    have hp := (die_cards k₁ cur v q).parent
    rw [show ((die k₁ cur v).ptable q).card.parent = some cur from hq] at hp
    split at hp
    case isTrue => exact hne (Option.some.inj hp)
    case isFalse hn => exact hn hp.symm
  cases e with
  | exit =>
    obtain ⟨k₁, h₁, h⟩ := bind_ok.mp h
    cases h
    obtain ⟨hne, -, -, k₂, -, -, -, hk⟩ := exit_ok h₁
    exact dead hne hk
  | threadExit v =>
    obtain ⟨k₁, h₁, h⟩ := bind_ok.mp h
    cases h
    obtain ⟨hne, k₂, -, hk⟩ := threadExit_ok h₁
    exact dead hne hk
  | _ => cases he

end

end

/-- A process is put on a CPU. -/
theorem dispatch_card (k : Kernel) (s q : Slot) :
    ((k.set s ({ · with state := .running })).ptable q).card =
      { (k.ptable q).card with state := if q = s then .running else (k.ptable q).state } := by
  rw [Kernel.set_ptable]
  by_cases e : q = s
  · subst e
    rw [update_self, if_pos rfl]
    rfl
  · rw [update_of_ne e, if_neg e]
    rfl

end Xv6.Kern
