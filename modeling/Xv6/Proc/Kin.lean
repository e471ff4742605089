import Xv6.Proc.System
import Xv6.Vm.Works

/-!
# Proc — memory and family of a process

Of each process in the table only its memory and its family count here (`Kin`): its directory, size
and kernel stack, its parent, and whether it is a thread or has had threads.  Many changes to the
table do not show in them (`Still`).

Every `freevm` is recorded in the kernel with the processes that held the directory; what each
change of memory adds to that record follows from the specifications of `vm.c`.
-/

namespace Xv6.Kern

open Support (bind_ok)
open Vm (Page Mem DirEvent Built Unbuilt Gone)

/-- How far a process in the table has come. -/
inductive Stage where
  | embryo
  | alive
  | zombie
  deriving DecidableEq

def State.stage : State → Option Stage
  | .unused => none
  | .embryo => some .embryo
  | .sleeping | .runnable | .running => some .alive
  | .zombie => some .zombie

/-- `sz_thread` and `ex_thread`. -/
structure Threads where
  sz : Fin NTHREAD → Nat
  ex : Fin NTHREAD → Bool

namespace Threads

/-- No stack was given yet. -/
def none : Threads := ⟨fun _ => 0, fun _ => false⟩

/-- The first stack that no thread uses. -/
def free (F : Threads) : Option (Fin NTHREAD) :=
  (List.finRange NTHREAD).find? fun i => F.ex i = false

theorem pred_lt (i : Fin NTHREAD) : i.val - 1 < NTHREAD := by omega

theorem toNat_lt {n : Int} (h : 0 ≤ n ∧ n < NTHREAD) : n.toNat < NTHREAD := by omega

/-- Where the three pages of stack `i` begin, in a process of size `sz`. -/
def base (F : Threads) (sz : Nat) (i : Fin NTHREAD) : Nat :=
  if _h : i.val = 0 then sz else (F.sz ⟨i.val - 1, pred_lt i⟩ + PGSIZE) % 2 ^ 32

/-- Stack `i`, with its top, goes to a thread. -/
def give (F : Threads) (i : Fin NTHREAD) (top : Nat) : Threads :=
  ⟨Function.update F.sz i top, Function.update F.ex i true⟩

/-- `ex_thread[n] = 0`; below the array stands the last entry of `sz_thread`. -/
def clear (F : Threads) (n : Int) : Threads :=
  if h : 0 ≤ n ∧ n < NTHREAD then { F with ex := Function.update F.ex ⟨n.toNat, toNat_lt h⟩ false }
  else { F with sz := Function.update F.sz (Fin.last (NTHREAD - 1)) 0 }

end Threads

/-- What a process holds of memory, and its place in its family. -/
structure Kin where
  stage : Stage
  pgdir : Option Page
  kstack : Option Page
  parent : Option Slot
  isthread : Bool
  /-- the thread table, of a process that has had threads -/
  threads : Option Threads
  sz : Nat
  pid : Nat
  threadNum : Int
  retVal : Nat

/-- The kin of a process at a stage. -/
def Proc.kinAt (p : Proc) (stage : Stage) : Kin :=
  ⟨stage, p.pgdir, p.kstack, p.parent, p.isthread,
    if p.hasthread then some ⟨p.szThread, p.exThread⟩ else none, p.sz, p.pid, p.threadNum, p.retVal⟩

/-- The kin of a process, none where the slot is unused. -/
def Proc.kin (p : Proc) : Option Kin := p.state.stage.map p.kinAt

def Kernel.kins (k : Kernel) (s : Slot) : Option Kin := (k.ptable s).kin

@[simp] theorem set_mem (k : Kernel) (s : Slot) (f : Proc → Proc) : (k.set s f).mem = k.mem := rfl

@[simp] theorem set_freed (k : Kernel) (s : Slot) (f : Proc → Proc) :
    (k.set s f).freed = k.freed := rfl

@[simp] theorem setMem_kins (k : Kernel) (m : Mem) : (k.setMem m).kins = k.kins := rfl

/-! ### Kin -/

variable {p : Proc} {x : Kin} {d : Page} {k : Kernel} {m : Mem} {S : Set Page}

theorem kin_of_state {st : Stage} (h : p.state.stage = some st) : p.kin = some (p.kinAt st) := by
  rw [Proc.kin, h, Option.map_some]

theorem kin_eq_none : p.kin = none ↔ p.state = .unused := by
  rw [Proc.kin]
  cases p.state <;> simp [State.stage]

section

variable (h : p.kin = some x)
include h

theorem kin_some : p.state.stage = some x.stage ∧ x = p.kinAt x.stage := by
  obtain ⟨st, hst, rfl⟩ := Option.map_eq_some_iff.mp h
  exact ⟨hst, rfl⟩

theorem kin_pgdir : p.pgdir = x.pgdir := by
  rw [(kin_some h).2]
  rfl

theorem kin_kstack : p.kstack = x.kstack := by
  rw [(kin_some h).2]
  rfl

theorem kin_parent : p.parent = x.parent := by
  rw [(kin_some h).2]
  rfl

theorem kin_pid : p.pid = x.pid := by
  rw [(kin_some h).2]
  rfl

theorem kin_isthread : p.isthread = x.isthread := by
  rw [(kin_some h).2]
  rfl

theorem kin_threadNum : p.threadNum = x.threadNum := by
  rw [(kin_some h).2]
  rfl

theorem kin_hasthread : p.hasthread = x.threads.isSome := by
  rw [(kin_some h).2, Proc.kinAt]
  cases hh : p.hasthread with
  | false => rfl
  | true => rfl

theorem kin_sz : p.sz = x.sz := by
  rw [(kin_some h).2]
  rfl

end

theorem kins_set (k : Kernel) (s : Slot) (f : Proc → Proc) :
    (k.set s f).kins = Function.update k.kins s (f (k.ptable s)).kin := by
  funext t
  by_cases e : t = s
  · subst e
    simp only [Kernel.kins, Kernel.set_ptable, Function.update_self]
  · simp only [Kernel.kins, Kernel.set_ptable, Function.update_of_ne e]

theorem mem_holders {t : Slot} :
    t ∈ k.holders d ↔ ∃ x, k.kins t = some x ∧ x.pgdir = some d ∧ x.stage ≠ .zombie := by
  rw [Kernel.holders, Kernel.slots, List.mem_filter]
  simp only [List.mem_finRange, true_and, decide_eq_true_eq]
  constructor
  · rintro ⟨hd, hu, hz⟩
    cases hx : (k.ptable t).kin with
    | none => exact absurd (kin_eq_none.mp hx) hu
    | some x =>
      have hst := (kin_some hx).1
      refine ⟨x, hx, (kin_pgdir hx).symm.trans hd, fun e => hz ?_⟩
      rw [e] at hst
      cases hs : (k.ptable t).state <;> rw [hs] at hst <;> simp [State.stage] at hst ⊢
  · rintro ⟨x, hx, hd, hz⟩
    have hst := (kin_some hx).1
    refine ⟨(kin_pgdir hx).trans hd, fun e => ?_, fun e => ?_⟩
    · rw [e] at hst
      cases hst
    · rw [e] at hst
      exact hz (Option.some.inj hst).symm

theorem holders_congr {k' : Kernel} (h : ∀ t, (k'.ptable t).pgdir = (k.ptable t).pgdir ∧
    (k'.ptable t).state = (k.ptable t).state) (d : Page) : k'.holders d = k.holders d := by
  rw [Kernel.holders, Kernel.holders, Kernel.slots, Kernel.slots]
  exact List.filter_congr fun t _ => by rw [(h t).1, (h t).2]

/-! ### The record of the calls of `freevm` -/

theorem setMem_freed {new : List DirEvent} (h : m.history = new ++ k.mem.history) :
    (k.setMem m).freed = k.freed ++ new.reverse.filterMap fun
      | .freed d => some (d, k.holders d)
      | .made _ => none := by
  have htake : m.history.take (m.history.length - k.mem.history.length) = new := by
    rw [h, List.length_append, Nat.add_sub_cancel]
    exact List.take_left' rfl
  exact congrArg (fun l : List DirEvent => k.freed ++ l.reverse.filterMap fun
    | .freed d => some (d, k.holders d)
    | .made _ => none) htake

theorem setMem_freed_same (h : m.history = k.mem.history) : (k.setMem m).freed = k.freed := by
  have hf : m.history = [] ++ k.mem.history := h
  rw [setMem_freed hf]
  exact List.append_nil _

theorem setMem_freed_gone
    (h : Gone S d k.mem m) : (k.setMem m).freed = k.freed ++ [(d, k.holders d)] := by
  have hf : m.history = [.freed d] ++ k.mem.history := h.history
  rw [setMem_freed hf]
  rfl

theorem setMem_freed_built (h : Built S d k.mem m) : (k.setMem m).freed = k.freed := by
  have hf : m.history = [.made d] ++ k.mem.history := h.history
  rw [setMem_freed hf]
  exact List.append_nil _

theorem setMem_freed_unbuilt (h : Unbuilt S k.mem m) : (k.setMem m).freed = k.freed ∨
      ∃ d ∈ k.mem.freelist, (k.setMem m).freed = k.freed ++ [(d, k.holders d)] := by
  rcases h.history with hf | ⟨d, hd, hf⟩
  · exact .inl (setMem_freed_same hf)
  · have hf : m.history = [.freed d, .made d] ++ k.mem.history := hf
    exact .inr ⟨d, hd, setMem_freed hf⟩

/-! ### Changes that do not show -/

/-- Kin and pages are the same. -/
structure Still (k k' : Kernel) : Prop where
  kins : k'.kins = k.kins
  mem : k'.mem = k.mem
  freed : k'.freed = k.freed
  next : k.nextpid ≤ k'.nextpid

namespace Still

variable {k k₁ k' : Kernel} {s : Slot}

theorem refl (k : Kernel) : Still k k := ⟨rfl, rfl, rfl, Nat.le_refl _⟩

theorem trans (h : Still k k₁) (h' : Still k₁ k') : Still k k' :=
  ⟨h'.kins.trans h.kins, h'.mem.trans h.mem, h'.freed.trans h.freed, h.next.trans h'.next⟩

theorem of_kin (h : ∀ s, (k'.ptable s).kin = (k.ptable s).kin) (hm : k'.mem = k.mem)
    (hf : k'.freed = k.freed) (hn : k.nextpid ≤ k'.nextpid) : Still k k' :=
  ⟨funext h, hm, hf, hn⟩

/-- A change to one process that its kin does not show. -/
theorem update {p : Proc} (ht : k'.ptable = Function.update k.ptable s p)
    (h : p.kin = (k.ptable s).kin) (hm : k'.mem = k.mem) (hf : k'.freed = k.freed)
    (hn : k.nextpid ≤ k'.nextpid) : Still k k' := by
  refine of_kin (fun t => ?_) hm hf hn
  rw [ht]
  by_cases e : t = s
  · subst e; rw [Function.update_self, h]
  · rw [Function.update_of_ne e]

/-- Such a change, and then no other that shows. -/
theorem after {p : Proc} (h : Still k₁ k') (ht : k₁.ptable = Function.update k.ptable s p)
    (hp : p.kin = (k.ptable s).kin) (hm : k₁.mem = k.mem) (hf : k₁.freed = k.freed)
    (hn : k.nextpid ≤ k₁.nextpid) : Still k k' :=
  (update ht hp hm hf hn).trans h

end Still

theorem kin_wake (h : p.state = .sleeping) :
    ({ p with state := .runnable } : Proc).kin = p.kin := by
  rw [kin_of_state (show p.state.stage = some .alive by rw [h]; rfl)]
  rfl

section

variable {k k' : Kernel} {cur s np : Slot}

theorem copyFiles_still (h : copyFiles k cur np = .ok k') : Still k k' := by
  rw [copyFiles] at h
  obtain ⟨r, -, h⟩ := bind_ok.mp h
  split at h
  · cases h
  · cases h
    exact .update rfl rfl rfl rfl (Nat.le_refl _)

theorem putCwd_still (h : putCwd k cur = .ok k') : Still k k' := by
  rw [putCwd] at h
  split at h
  · cases h
  · cases h
    exact .update rfl rfl rfl rfl (Nat.le_refl _)

theorem wakeup1_still (k : Kernel) (c : Chan) : Still k (wakeup1 k c) := by
  refine .of_kin (fun s => ?_) rfl rfl (Nat.le_refl _)
  simp only [wakeup1]
  split
  · rename_i h
    exact kin_wake h.1
  · rfl

/-- `kill` of one process. -/
theorem kin_kill (p : Proc) :
    ({ p with killed := true, state := if p.state = .sleeping then .runnable else p.state } : Proc).kin
      = p.kin := by
  by_cases h : p.state = .sleeping
  · rw [if_pos h]
    exact kin_wake h
  · rw [if_neg h]
    rfl

theorem kill_still {pid r : Int} (h : kill k pid = .ok (r, k')) : Still k k' := by
  rw [kill] at h
  obtain ⟨-, -, h⟩ := bind_ok.mp h
  split at h
  · cases h
    exact .refl k
  · cases h
    exact .update rfl (kin_kill _) rfl rfl (Nat.le_refl _)

theorem execKill_still (h : execKill k cur = .ok k') : Still k k' := by
  rcases execKill_ok h with rfl | ⟨m, -, -, rfl⟩
  · exact .refl _
  refine .of_kin (fun s => ?_) rfl rfl (Nat.le_refl _)
  simp only
  split
  · exact kin_kill _
  · rfl

theorem exitMother_still (h : exitMother k cur = .ok k') : Still k k' := by
  rw [exitMother] at h
  split at h
  · split at h
    · cases h
    split at h
    · cases h
      exact .refl k
    · obtain ⟨-, -, h⟩ := bind_ok.mp h
      cases h
      exact .update rfl rfl rfl rfl (Nat.le_refl _)
  · cases h
    exact .refl k

theorem giveBack_still (k : Kernel) (cur : Slot) : Still k (giveBack k cur) := by
  rw [giveBack]
  split
  · exact ⟨rfl, rfl, rfl, Nat.le_refl _⟩
  · exact .refl k

theorem setCpuShare_still (k : Kernel) (cur : Slot) (i : Int) : Still k (setCpuShare k cur i).2 := by
  rw [setCpuShare]
  split
  · exact .refl k
  simp only
  split
  · split
    · exact .refl k
    · exact .update rfl rfl rfl rfl (Nat.le_refl _)
  · split
    · exact .refl k
    · have h₁ : Still k (k.set cur ({ · with cpuShare := i })) := .update rfl rfl rfl rfl (Nat.le_refl _)
      exact h₁.trans (.update rfl rfl rfl rfl (Nat.le_refl _))

/-- A process that is alive changes its state and stays alive. -/
theorem set_alive_still {f : Proc → Proc} (hrun : (k.ptable cur).state.stage = some .alive)
    (hst : (f (k.ptable cur)).state.stage = some .alive)
    (h : (f (k.ptable cur)).kinAt .alive = (k.ptable cur).kinAt .alive) : Still k (k.set cur f) := by
  refine .update rfl ?_ rfl rfl (Nat.le_refl _)
  rw [kin_of_state hst, kin_of_state hrun, h]

end

end Xv6.Kern
