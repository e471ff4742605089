import Xv6.Proc.Kin
import Xv6.Vm.Bytes

/-!
# Proc — what a call does to memory and family

`Effect` lists what a system call can do to the kin of the processes and to the pages, each with the
specification of the function of `vm.c` that does it.  This module has the calls that make and end
processes; `call_effect`, which says that there is nothing else, stands in `Proc/Spaces`.
-/

namespace Xv6.Kern

open Function (update update_self update_of_ne)
open Support (bind_ok update_none update_some)
open Vm (Page Mem File Works Built Unbuilt Gone Full Bare Writes)

/-- Of the pages of a directory exactly those below `sz` are user pages. -/
structure Sized (m : Mem) (d : Page) (sz : Nat) : Prop where
  live : (m.dirs d).isSome
  full : Full m d sz
  bare : Bare m d sz
  bound : sz ≤ KERNBASE

/-! ### Slots and kernel stacks -/

/-- The pages of the kernel stacks. -/
def Kernel.stackPages (k : Kernel) : Set Page := {p | ∃ s x, k.kins s = some x ∧ x.kstack = some p}

/-- The slot `allocproc` takes. -/
def Kernel.freeSlot (k : Kernel) : Option Slot :=
  (List.finRange NPROC).find? fun s => (k.ptable s).state = .unused

/-- No page has two uses, and the kernel stacks are pages of their own. -/
structure Paged (k : Kernel) : Prop where
  own : Vm.Own k.mem k.stackPages
  stack : ∀ s t x y p, k.kins s = some x → k.kins t = some y → x.kstack = some p →
    y.kstack = some p → s = t

theorem kin_setState {p : Proc} {x : Kin} {st : State} {g : Stage} (h : p.kin = some x)
    (hst : st.stage = some g) : ({ p with state := st } : Proc).kin = some { x with stage := g } := by
  rw [(kin_some h).2]
  exact kin_of_state hst

/-- The kin of a process after the end of `cur` with the value `v`. -/
def Kin.after (x : Kin) (cur : Slot) (v : Nat) (s : Slot) : Kin :=
  { x with
    stage := if s = cur then .zombie else x.stage
    parent := if x.parent = some cur then some initproc else x.parent
    retVal := if s = cur then v else x.retVal }

/-- The zombie `wait` finds. -/
def Kernel.zombieChild (k : Kernel) (cur : Slot) : Option Slot :=
  (List.finRange NPROC).find? fun s => (k.ptable s).parent = some cur ∧ (k.ptable s).state = .zombie

/-- The zombie child `s` of `cur`, with the kin `x`, is freed without its directory. -/
structure Joined (k : Kernel) (cur : Slot) (c : Kin) (s : Slot) (x : Kin) (k' : Kernel) : Prop where
  kin : k.kins s = some x
  zombie : x.stage = .zombie
  parent : x.parent = some cur
  num : 0 ≤ x.threadNum ∧ x.threadNum < NTHREAD ∨ x.threadNum = -1
  kins : k'.kins = update (update k.kins s none) cur
    (some { c with threads := c.threads.map (·.clear x.threadNum) })
  own : Vm.Own k'.mem k'.stackPages
  dirs : k'.mem.dirs = k.mem.dirs
  history : k'.mem.history = k.mem.history
  freed : k'.freed = k.freed
  next : k.nextpid ≤ k'.nextpid

/-- What the loop of `thread_create` does with the thread table `F` of a caller of size `csz`, the
size and number the new slot had, and the directory `d`. -/
inductive Given (d : Page) (csz : Nat) (F : Threads) (m : Mem) (sz : Nat) (num : Int) :
    Threads → Nat → Int → Mem → Bool → Prop where
  /-- every stack is in use, and the slot keeps what it had -/
  | full (h : F.free = none) : Given d csz F m sz num F sz num m true
  /-- a stack that was given before -/
  | again {i : Fin NTHREAD} (h : F.free = some i) (hsz : F.sz i ≠ 0) :
      Given d csz F m sz num (F.give i (F.sz i)) (F.sz i) i.val m true
  /-- a new stack -/
  | fresh {i : Fin NTHREAD} {r top : Nat} {m' : Mem} (h : F.free = some i) (hsz : F.sz i = 0)
      (alloc : Vm.allocuvm m d (F.base csz i) ((F.base csz i + 3 * PGSIZE) % 2 ^ 32) = .ok (r, m'))
      (hr : r ≠ 0) (htop : top = (r + (2 ^ 32 - PGSIZE)) % 2 ^ 32) :
      Given d csz F m sz num (F.give i top) top i.val m' true
  /-- no memory for one -/
  | short {i : Fin NTHREAD} {m' : Mem} (h : F.free = some i) (hsz : F.sz i = 0)
      (alloc : Vm.allocuvm m d (F.base csz i) ((F.base csz i + 3 * PGSIZE) % 2 ^ 32) = .ok (0, m')) :
      Given d csz F m sz num F sz num m' false

/-- How far `thread_create` came with the slot of the new thread. -/
inductive Made (cur : Slot) (d : Page) (x : Kin) (m : Mem) : Bool → Prop where
  /-- it has no stack, and stays as it is -/
  | short (stage : x.stage = .embryo) : Made cur d x m false
  /-- its stack cannot be written to -/
  | torn {bytes : List UInt8} {m' : Mem} (stage : x.stage = .embryo) (len : bytes.length = 16)
      (out : Vm.copyout m d ((x.sz + (2 ^ 32 - 16)) % 2 ^ 32) bytes = .ok (false, m')) :
      Made cur d x m true
  | done (stage : x.stage = .alive) (thread : x.isthread = true) (parent : x.parent = some cur)
      (threads : x.threads = none) (retVal : x.retVal = 0) : Made cur d x m true

/-- What `sbrk` does to the size and the directory of a process. -/
inductive Resized (d : Page) (m : Mem) (sz : Nat) (n : Int) : Nat → Mem → Prop where
  | same (h : n = 0) : Resized d m sz n sz m
  | grown {r : Nat} {m' : Mem} (h : 0 < n) (alloc : Vm.allocuvm m d sz (uadd sz n) = .ok (r, m')) :
      Resized d m sz n (if r = 0 then sz else r) m'
  | shrunk {r : Nat} {m' : Mem} (h : n < 0)
      (dealloc : Vm.deallocuvm m d sz (uadd sz n) = .ok (r, m')) :
      Resized d m sz n (if r = 0 then sz else r) m'

/-- **What a call can do**, of a process in the slot `cur` with the kin `c`. -/
inductive Effect (k : Kernel) (cur : Slot) (c : Kin) : Call → Kernel → Prop where
  /-- nothing but a store to user memory -/
  | quiet {call : Call} {k' : Kernel} (kins : k'.kins = k.kins) (mem : Writes k.mem k'.mem)
      (freed : k'.freed = k.freed) (next : k.nextpid ≤ k'.nextpid) : Effect k cur c call k'
  /-- a new directory was given up -/
  | gaveUp {call : Call} {k' : Kernel} (kins : k'.kins = k.kins)
      (mem : Unbuilt k.stackPages k.mem k'.mem)
      (freed : k'.freed = k.freed ∨ ∃ d hs, d ∈ k.mem.freelist ∧ k'.freed = k.freed ++ [(d, hs)] ∧
        ∀ t ∈ hs, t ∈ k.holders d ∨
          call = .fork ∧ k.freeSlot = some t ∧ (k.ptable t).pgdir = some d)
      (next : k.nextpid ≤ k'.nextpid) : Effect k cur c call k'
  /-- the caller ends, and its children pass to init -/
  | died {call : Call} {v : Nat} {k' : Kernel} (init : cur ≠ initproc)
      (which : call = .exit ∧ v = c.retVal ∨ call = .threadExit v)
      (kins : k'.kins = fun s => (k.kins s).map (·.after cur v s)) (mem : k'.mem = k.mem)
      (freed : k'.freed = k.freed) (next : k.nextpid ≤ k'.nextpid) : Effect k cur c call k'
  /-- a child with a copy of the memory -/
  | born {np : Slot} {d p : Page} {n : Int} {v : Nat} {k' : Kernel} (single : c.threads = none)
      (new : k.kins np = none) (stack : p ∉ k.stackPages)
      (kins : k'.kins = update k.kins np
        (some ⟨.alive, some d, some p, some cur, false, none, c.sz, k.nextpid, n, v⟩))
      (mem : Built (insert p k.stackPages) d k.mem k'.mem) (full : Full k'.mem d c.sz)
      (bare : Bare k'.mem d c.sz) (freed : k'.freed = k.freed) (next : k.nextpid < k'.nextpid) :
      Effect k cur c .fork k'
  /-- a zombie child, freed with its directory -/
  | reaped {s : Slot} {x : Kin} {d : Page} {k' : Kernel} (found : k.zombieChild cur = some s)
      (kin : k.kins s = some x) (zombie : x.stage = .zombie) (parent : x.parent = some cur)
      (dir : x.pgdir = some d) (kins : k'.kins = update k.kins s none)
      (mem : Gone k'.stackPages d k.mem k'.mem)
      (freed : k'.freed = k.freed ++ [(d, k.holders d)]) (next : k.nextpid ≤ k'.nextpid) :
      Effect k cur c .wait k'
  /-- a zombie child, freed without its directory -/
  | joined {call : Call} {s : Slot} {x : Kin} {k' : Kernel}
      (which : (∃ t a, call = .threadJoin t a ∧ (x.pid : Int) = t.toInt) ∨ ∃ t, call = .exitVisit t)
      (h : Joined k cur c s x k') : Effect k cur c call k'
  /-- a thread table, and no thread -/
  | barren {thread start arg : Nat} {k' : Kernel}
      (kins : k'.kins = update k.kins cur (some { c with threads := some (c.threads.getD .none) }))
      (mem : k'.mem = k.mem) (freed : k'.freed = k.freed) (next : k.nextpid ≤ k'.nextpid) :
      Effect k cur c (.threadCreate thread start arg) k'
  /-- a thread in the directory of the caller, or what a failure leaves of it -/
  | threaded {thread start arg : Nat} {np : Slot} {d p : Page} {x : Kin} {F : Threads} {m m' : Mem}
      {sz : Nat} {num : Int} {ok : Bool} {k' : Kernel} (new : k.kins np = none)
      (stack : p ∉ k.stackPages) (dir : c.pgdir = some d)
      (free : k.mem.freelist = p :: m.freelist) (dirs : m.dirs = k.mem.dirs)
      (own : Vm.Own m (insert p k.stackPages))
      (given : Given d c.sz (c.threads.getD .none) m sz num F x.sz x.threadNum m' ok)
      (made : Made cur d x m' ok) (writes : Writes m' k'.mem)
      (kins : k'.kins = update (update k.kins cur (some { c with threads := some F })) np (some x))
      (shared : x.pgdir = some d) (kstack : x.kstack = some p) (pid : x.pid = k.nextpid)
      (mem : Works k.stackPages (insert p k.stackPages) d (fun _ => True) k.mem k'.mem)
      (freed : k'.freed = k.freed) (next : k.nextpid < k'.nextpid) :
      Effect k cur c (.threadCreate thread start arg) k'
  /-- a new image of a thread; its old directory stays -/
  | left {path : String} {file : Option File} {argv : List (List UInt8)} {d : Page} {sz : Nat}
      {k' : Kernel} (thread : c.isthread = true)
      (kins : k'.kins = update k.kins cur (some { c with pgdir := some d, sz := sz }))
      (mem : Built k.stackPages d k.mem k'.mem) (sized : Sized k'.mem d sz)
      (freed : k'.freed = k.freed) (next : k.nextpid ≤ k'.nextpid) :
      Effect k cur c (.exec path file argv) k'
  /-- a new image of a process; its old directory is freed -/
  | replaced {path : String} {file : Option File} {argv : List (List UInt8)} {d d₀ : Page}
      {sz : Nat} {m : Mem} {k' : Kernel} (process : c.isthread = false) (old : c.pgdir = some d₀)
      (kins : k'.kins = update k.kins cur (some { c with pgdir := some d, sz := sz }))
      (built : Built k.stackPages d k.mem m) (sized : Sized m d sz)
      (gone : Gone k.stackPages d₀ m k'.mem)
      (freed : k'.freed = k.freed ++ [(d₀, k'.holders d₀)]) (next : k.nextpid ≤ k'.nextpid) :
      Effect k cur c (.exec path file argv) k'
  /-- another size, of a thread without a look at its memory -/
  | moved {n : BitVec 32} {k' : Kernel} (thread : c.isthread = true)
      (kins : k'.kins = update k.kins cur (some { c with sz := uadd c.sz n.toInt }))
      (mem : k'.mem = k.mem) (freed : k'.freed = k.freed) (next : k.nextpid ≤ k'.nextpid) :
      Effect k cur c (.sbrk n) k'
  /-- another size, with the pages mapped or unmapped -/
  | resized {n : BitVec 32} {d : Page} {sz : Nat} {k' : Kernel} (process : c.isthread = false)
      (dir : c.pgdir = some d)
      (kins : k'.kins = update k.kins cur (some { c with sz := sz }))
      (size : Resized d k.mem c.sz n.toInt sz k'.mem)
      (mem : Works k.stackPages k.stackPages d (fun _ => True) k.mem k'.mem)
      (freed : k'.freed = k.freed) (next : k.nextpid ≤ k'.nextpid) : Effect k cur c (.sbrk n) k'

section

variable {k k' : Kernel} {cur s np : Slot} {c : Kin}

theorem allocproc_kin {o : Option Slot} (h : allocproc k = .ok (o, k')) :
    (o = none ∧ Still k k') ∨ ∃ s p, o = some s ∧ k.freeSlot = some s ∧ k.kins s = none ∧
      Vm.kalloc k.mem = (some p, k'.mem) ∧ k'.freed = k.freed ∧ k'.nextpid = k.nextpid + 1 ∧
      k'.ptable = update k.ptable s { (k.ptable s).embryo k.nextpid with kstack := some p } := by
  rw [allocproc] at h
  obtain ⟨-, -, h⟩ := bind_ok.mp h
  split at h
  · cases h
    exact .inl ⟨rfl, .refl k⟩
  rename_i s hs
  have hu : (k.ptable s).state = .unused := by simpa using List.find?_some hs
  simp only at h
  split at h
  · cases h
    refine .inl ⟨rfl, .of_kin (fun t => ?_) rfl rfl (Nat.le_succ _)⟩
    by_cases e : t = s
    · subst e
      rw [kin_eq_none.mpr hu, kin_eq_none]
      simp only [Kernel.set_ptable, update_self]
    · simp only [Kernel.set_ptable, update_of_ne e]
  · rename_i p m hk
    cases h
    have hm : m.history = k.mem.history := Vm.kalloc_history hk
    refine .inr ⟨s, p, rfl, hs, kin_eq_none.mpr hu, hk, setMem_freed_same hm, rfl, ?_⟩
    simp only [Kernel.set_ptable, Kernel.setMem_ptable, update_self, Function.update_idem]

/-- The slot `allocproc` took, with a page for its stack. -/
structure Taken (np : Slot) (p : Page) (k k₁ : Kernel) : Prop where
  slot : k.freeSlot = some np
  new : k.kins np = none
  stack : p ∉ k.stackPages
  free : k.mem.freelist = p :: k₁.mem.freelist
  own : Vm.Own k₁.mem (insert p k.stackPages)
  saves : Vm.Saves k.stackPages k.mem (insert p k.stackPages) k₁.mem
  sub : ∀ q ∈ k₁.mem.freelist, q ∈ k.mem.freelist
  dirs : k₁.mem.dirs = k.mem.dirs
  history : k₁.mem.history = k.mem.history
  freed : k₁.freed = k.freed
  next : k₁.nextpid = k.nextpid + 1
  ptable : k₁.ptable = update k.ptable np { (k.ptable np).embryo k.nextpid with kstack := some p }

theorem allocproc_taken {o : Option Slot} (ho : Vm.Own k.mem k.stackPages)
    (h : allocproc k = .ok (o, k')) :
    (o = none ∧ Still k k') ∨ ∃ np p, o = some np ∧ Taken np p k k' := by
  rcases allocproc_kin h with hn | ⟨np, p, rfl, hslot, hnew, hk, hf, hn, ht⟩
  · exact .inl hn
  · obtain ⟨hown, hp, -, hd, hh⟩ := Vm.kalloc_some ho hk
    exact .inr ⟨np, p, rfl, hslot, hnew, hp, Vm.kalloc_freelist hk, hown, Vm.kalloc_saves hk,
      Vm.kalloc_sub hk, hd, hh, hf, hn, ht⟩

namespace Taken

variable {p : Page} {k₁ : Kernel}

section

variable (h : Taken np p k k₁)
include h

theorem self : k₁.ptable np = { (k.ptable np).embryo k.nextpid with kstack := some p } := by
  rw [h.ptable, update_self]

theorem other {t : Slot} (e : t ≠ np) : k₁.ptable t = k.ptable t := by
  rw [h.ptable, update_of_ne e]

theorem ne (hc : k.kins cur = some c) : cur ≠ np := by
  rintro rfl
  rw [h.new] at hc
  cases hc

/-- The holders of a directory after it: those before, and the new slot where it still names it. -/
theorem holders {d : Page} {t : Slot} (ht : t ∈ k₁.holders d) :
    t ∈ k.holders d ∨ k.freeSlot = some t ∧ (k.ptable t).pgdir = some d := by
  obtain ⟨x, hx, hd, hz⟩ := mem_holders.mp ht
  by_cases e : t = np
  · subst e
    refine .inr ⟨h.slot, ?_⟩
    rw [← hd, ← kin_pgdir hx, h.self]
    rfl
  · rw [Kernel.kins, h.other e] at hx
    exact .inl (mem_holders.mpr ⟨x, hx, hd, hz⟩)

end

end Taken

/-! ### fork -/

theorem fork_effect {r : Int} (hp : Paged k) (hc : k.kins cur = some c)
    (h : fork k cur = .ok (r, k')) : Effect k cur c .fork k' := by
  rw [fork] at h
  obtain ⟨⟨o, k₁⟩, h₁, h⟩ := bind_ok.mp h
  rcases allocproc_taken hp.own h₁ with ⟨rfl, hs⟩ | ⟨np, p, rfl, ht⟩
  · cases h
    exact .quiet hs.kins (by rw [hs.mem]; exact .refl _) hs.freed hs.next
  have hne := ht.ne hc
  have h : forkFinish k₁ cur np = .ok (r, k') := h
  rw [forkFinish] at h
  obtain ⟨d, -, h⟩ := bind_ok.mp h
  obtain ⟨⟨o, m⟩, h₂, h⟩ := bind_ok.mp h
  rw [ht.other hne, kin_sz hc] at h₂
  rcases Vm.copyuvm_spec ht.own h₂ with ⟨d', rfl, hb, hpages, hbare⟩ | ⟨rfl, hu⟩
  · obtain ⟨k₂, h₃, h⟩ := bind_ok.mp h
    obtain ⟨-, -, h⟩ := bind_ok.mp h
    have hs := copyFiles_still h₃
    have hkin : (k₂.ptable np).kin = some ⟨.embryo, some d', some p, some cur, false, none, c.sz,
        k.nextpid, (k.ptable np).threadNum, (k.ptable np).retVal⟩ := by
      have := congrFun hs.kins np
      rw [kins_set, update_self, Kernel.setMem_ptable, ht.other hne, ht.self, kin_sz hc] at this
      exact this
    split at h
    · cases h
    rename_i hsingle
    cases h
    have hm : k₂.mem = m := hs.mem
    have hnone : c.threads = none := by
      rw [ht.other hne] at hsingle
      rw [(kin_some hc).2, Proc.kinAt, if_neg hsingle]
    refine .born (d := d') (n := (k.ptable np).threadNum) (v := (k.ptable np).retVal) hnone ht.new ht.stack (funext fun t => ?_) ?_ ?_ ?_ ?_ ?_
    · rw [kins_set, kin_setState hkin (g := .alive) rfl]
      by_cases e : t = np
      · rw [e, update_self, update_self]
      · rw [update_of_ne e, update_of_ne e, hs.kins, kins_set, update_of_ne e]
        exact congrArg Proc.kin (ht.other e)
    · rw [set_mem, hm]
      exact hb.toBuilt.before ht.sub ht.dirs ht.history
    · rw [set_mem, hm]
      intro v hv
      obtain ⟨p, w, u, hp, -⟩ := hpages v hv
      exact Vm.mapped_iff.mpr ⟨p, w, u, hp⟩
    · rw [set_mem, hm]
      exact hbare
    · rw [set_freed, hs.freed, set_freed, setMem_freed_built hb.toBuilt, ht.freed]
    · exact Nat.lt_of_lt_of_le (Nat.lt_of_lt_of_eq (Nat.lt_succ_self _) ht.next.symm) hs.next
  · obtain ⟨k₂, h₃, h⟩ := bind_ok.mp h
    cases h
    obtain ⟨q, m₂, hq, hm₂, rfl⟩ := kfreeStack_ok h₃
    obtain rfl : q = p := by
      rw [Kernel.set_ptable, update_self, Kernel.setMem_ptable, ht.self] at hq
      exact (Option.some.inj hq).symm
    have hm₂ : Vm.kfree m q = .ok m₂ := hm₂
    obtain ⟨ho, hd, hh, hs⟩ := Vm.kfree_ok hu.own ht.stack hm₂
    have hhist : m₂.history = k.mem.history ∨
        ∃ d ∈ k.mem.freelist, m₂.history = .freed d :: .made d :: k.mem.history := by
      rw [hh, ← ht.history]
      rcases hu.history with e | ⟨d, hd, e⟩
      · exact .inl e
      · exact .inr ⟨d, ht.sub d hd, e⟩
    refine .gaveUp (funext fun t => ?_) ⟨ho, hd.trans (hu.dirs.trans ht.dirs), hhist,
      ht.saves.trans (hu.saves.trans hs)⟩ ?_ ((Nat.le_succ _).trans ht.next.ge)
    · simp only [kins_set, setMem_kins]
      by_cases e : t = np
      · rw [e, update_self, ht.new, kin_eq_none]
      · simp only [update_of_ne e]
        exact congrArg Proc.kin (ht.other e)
    · have hfreed : (((k₁.setMem m).set np ({ · with pgdir := none })).setMem m₂).freed =
          (k₁.setMem m).freed := setMem_freed_same hh
      rw [set_freed, set_freed, hfreed]
      rcases setMem_freed_unbuilt hu with hf | ⟨d₀, hd₀, hf⟩
      · exact .inl (hf.trans ht.freed)
      · refine .inr ⟨d₀, _, ht.sub d₀ hd₀, by rw [hf, ht.freed], fun t hmem => ?_⟩
        exact (ht.holders hmem).imp_right fun h => ⟨rfl, h⟩

/-! ### exit and thread_exit -/

variable {v : Nat} {x : Kin} {m : Mem} {r : Option Nat}

section

variable (hc : k.kins cur = some c)
include hc

theorem die_kins : (die k cur v).kins = (fun s => (k.kins s).map (·.after cur v s)) ∧
      (die k cur v).mem = k.mem ∧ (die k cur v).freed = k.freed ∧
      k.nextpid ≤ (die k cur v).nextpid := by
  -- the children change hands
  have habandon : ∃ k₁, Still k₁ (abandon k cur) ∧ k₁.mem = k.mem ∧ k₁.freed = k.freed ∧
      k₁.nextpid = k.nextpid ∧ ∀ s, k₁.ptable s = if (k.ptable s).parent = some cur then
        { k.ptable s with parent := some initproc } else k.ptable s := by
    rw [abandon]
    split
    · exact ⟨_, .refl _, rfl, rfl, rfl, fun _ => rfl⟩
    · exact ⟨_, wakeup1_still _ _, rfl, rfl, rfl, fun _ => rfl⟩
  obtain ⟨k₁, hs, hm, hf, hn, ht⟩ := habandon
  have hkin : ∀ s, (abandon k cur).kins s = (k.kins s).map fun x =>
      { x with parent := if x.parent = some cur then some initproc else x.parent } := by
    intro s
    rw [hs.kins, Kernel.kins, ht, Kernel.kins, Proc.kin, Proc.kin]
    split
    · rename_i hpar
      cases (k.ptable s).state.stage <;> simp [Proc.kinAt, hpar]
    · rename_i hpar
      cases (k.ptable s).state.stage <;> simp [Proc.kinAt, hpar]
  have hdie : Still ((abandon k cur).set cur ({ · with state := .zombie, retVal := v }))
      (die k cur v) := by
    rw [die]
    split
    · exact .refl _
    · exact wakeup1_still _ _
  refine ⟨?_, hdie.mem.trans (hs.mem.trans hm), hdie.freed.trans (hs.freed.trans hf),
    hn.ge.trans (hs.next.trans hdie.next)⟩
  rw [hdie.kins, kins_set]
  funext s
  by_cases e : s = cur
  · subst e
    have hcur := hkin s
    rw [hc, Option.map_some] at hcur
    rw [update_self, hc, Option.map_some,
      kin_of_state (show State.stage .zombie = some .zombie from rfl)]
    have hx := (kin_some hcur).2
    simp only [Proc.kinAt, Kin.mk.injEq] at hx
    simp only [Kin.after, Proc.kinAt, if_pos, Option.some.injEq, Kin.mk.injEq]
    simp [hx]
  · rw [update_of_ne e, hkin s]
    simp [Kin.after, e]

theorem exit_effect (h : exit k cur = .ok k') : Effect k cur c .exit k' := by
  obtain ⟨hinit, k₁, fref, k₂, h₁, -, h₂, rfl⟩ := exit_ok h
  have hs₁ := (exitMother_still h₁).trans (giveBack_still k₁ cur)
  have hs₂ : Still (giveBack k₁ cur) k₂ := (putCwd_still h₂).after rfl rfl rfl rfl (Nat.le_refl _)
  have hs := hs₁.trans hs₂
  have hc₂ : k₂.kins cur = some c := hs.kins ▸ hc
  obtain ⟨hk, hm, hf, hn⟩ := die_kins (v := (k₂.ptable cur).retVal) hc₂
  have hv : (k₂.ptable cur).retVal = c.retVal := by
    rw [(kin_some hc₂).2]
    rfl
  exact .died hinit (.inl ⟨rfl, hv⟩) (by rw [hk, hs.kins]) (hm.trans hs.mem) (hf.trans hs.freed)
    (hs.next.trans hn)

theorem threadExit_kins (h : threadExit k cur v = .ok k') :
    cur ≠ initproc ∧ k'.kins = (fun s => (k.kins s).map (·.after cur v s)) ∧ k'.mem = k.mem ∧
      k'.freed = k.freed ∧ k.nextpid ≤ k'.nextpid := by
  obtain ⟨hinit, k₁, h₁, rfl⟩ := threadExit_ok h
  have hs := putCwd_still h₁
  obtain ⟨hk, hm, hf, hn⟩ := die_kins (v := v) (hs.kins ▸ hc)
  exact ⟨hinit, by rw [hk, hs.kins], hm.trans hs.mem, hf.trans hs.freed, hs.next.trans hn⟩

theorem threadExit_effect (h : threadExit k cur v = .ok k') :
    Effect k cur c (.threadExit v) k' := by
  obtain ⟨hinit, hk, hm, hf, hn⟩ := threadExit_kins hc h
  exact .died hinit (.inr rfl) hk hm hf hn

end

/-! ### wait and thread_join -/

/-- The stack of a process that goes is freed; it is no other's. -/
theorem freeStack_own {p : Page} (hp : Paged k) (hx : k.kins s = some x)
    (hk : x.kstack = some p) (hm : Vm.kfree k.mem p = .ok m)
    (h : ∀ t y', k'.kins t = some y' → t ≠ s ∧ ∃ y, k.kins t = some y ∧ y.kstack = y'.kstack) :
    Vm.Own m k'.stackPages ∧ m.dirs = k.mem.dirs ∧ m.history = k.mem.history := by
  have hsub : insert p k'.stackPages ⊆ k.stackPages := by
    rintro q (rfl | ⟨t, y', hy', hq⟩)
    · exact ⟨s, x, hx, hk⟩
    · obtain ⟨-, y, hy, e⟩ := h t y' hy'
      exact ⟨t, y, hy, e.trans hq⟩
  have hout : p ∉ k'.stackPages := by
    rintro ⟨t, y', hy', hq⟩
    obtain ⟨hne, y, hy, e⟩ := h t y' hy'
    exact hne (hp.stack t s y x p hy hx (e.trans hq) hk)
  obtain ⟨ho, hd, hh, -⟩ := Vm.kfree_ok (hp.own.mono hsub) hout hm
  exact ⟨ho, hd, hh⟩

theorem zombie_kin (h : (k.ptable s).state = .zombie) :
    ∃ x, k.kins s = some x ∧ x.stage = .zombie :=
  ⟨_, kin_of_state (show (k.ptable s).state.stage = some .zombie by rw [h]; rfl), rfl⟩

theorem reap_effect (hp : Paged k) (hf : k.zombieChild cur = some s) (h : reap k s = .ok k') :
    Effect k cur c .wait k' := by
  have hz : (k.ptable s).parent = some cur ∧ (k.ptable s).state = .zombie := by
    simpa using List.find?_some hf
  obtain ⟨x, hx, hxz⟩ := zombie_kin hz.2
  rw [reap] at h
  obtain ⟨k₁, h₁, h⟩ := bind_ok.mp h
  obtain ⟨p, m₁, hstack, hm₁, rfl⟩ := kfreeStack_ok h₁
  split at h
  · cases h
  rename_i d hd
  obtain ⟨m, hm, h⟩ := bind_ok.mp h
  have hk' := (Except.ok.inj h).symm
  have hdir : x.pgdir = some d := by
    rw [← kin_pgdir hx, ← hd]
    simp only [Kernel.set_ptable, Kernel.setMem_ptable, update_self]
  have hkins : k'.kins = update k.kins s none := by
    rw [hk']
    simp only [kins_set, setMem_kins, Function.update_idem]
    rw [kin_eq_none.mpr rfl]
  have hgo : ∀ t y', k'.kins t = some y' → t ≠ s ∧ ∃ y, k.kins t = some y ∧ y.kstack = y'.kstack := by
    intro t y' hy'
    rw [hkins] at hy'
    obtain ⟨e, hy'⟩ := update_none hy'
    exact ⟨e, y', hy', rfl⟩
  obtain ⟨ho, hd₁, hh₁⟩ := freeStack_own hp hx ((kin_kstack hx).symm.trans hstack) hm₁ hgo
  have hg : Gone k'.stackPages d m₁ m := (Vm.freevm_gone ho hm).1
  have hmem : k'.mem = m := by rw [hk']; rfl
  refine .reaped hf hx hxz ((kin_parent hx).symm.trans hz.1) hdir hkins
    ⟨hmem ▸ hg.own, fun e he => ?_, hmem ▸ hg.self, ?_⟩ ?_ (by rw [hk']; exact Nat.le_refl _)
  · rw [hmem, ← hd₁]
    exact hg.other e he
  · rw [hmem, ← hh₁]
    exact hg.history
  have hhold : ((k.setMem m₁).set s ({ · with kstack := none })).holders d = k.holders d := by
    refine holders_congr (fun t => ?_) d
    by_cases e : t = s
    · rw [e, Kernel.set_ptable, update_self]
      exact ⟨rfl, rfl⟩
    · rw [Kernel.set_ptable, update_of_ne e]
      exact ⟨rfl, rfl⟩
  have hg₁ : Gone k'.stackPages d ((k.setMem m₁).set s ({ · with kstack := none })).mem m := hg
  rw [hk', set_freed, setMem_freed_gone hg₁, hhold, set_freed, setMem_freed_same hh₁]

theorem wait_effect {r : Option Int} (hp : Paged k) (hrun : (k.ptable cur).state = .running)
    (h : wait k cur = .ok (r, k')) : Effect k cur c .wait k' := by
  rw [wait] at h
  obtain ⟨-, -, h⟩ := bind_ok.mp h
  split at h
  · rename_i s hs
    obtain ⟨k₁, h₁, h⟩ := bind_ok.mp h
    cases h
    exact reap_effect hp hs h₁
  · split at h
    · cases h
      exact .quiet rfl (.refl _) rfl (Nat.le_refl _)
    · cases h
      have hs : Still k (sleep k cur (.proc cur)) := set_alive_still (by rw [hrun]; rfl) rfl rfl
      exact .quiet hs.kins (by rw [hs.mem]; exact .refl _) hs.freed hs.next

/-- What `thread_join` does to the thread table of the caller. -/
theorem clearEx_kin {p q : Proc} {n : Int} (hc : p.kin = some c) (h : p.clearEx n = .ok q) :
    (0 ≤ n ∧ n < NTHREAD ∨ n = -1) ∧
      q.kin = some { c with threads := c.threads.map (·.clear n) } := by
  rw [Proc.clearEx] at h
  obtain ⟨st, hst, rfl⟩ := Option.map_eq_some_iff.mp hc
  split at h
  · rename_i hn
    cases h
    refine ⟨.inl hn, ?_⟩
    simp only [Proc.kin, hst, Option.map_some, Proc.kinAt, Threads.clear, dif_pos hn]
    split <;> rfl
  · rename_i hn
    split at h
    · rename_i hn'
      cases h
      refine ⟨.inr hn', ?_⟩
      simp only [Proc.kin, hst, Option.map_some, Proc.kinAt, Threads.clear, dif_neg hn]
      split <;> rfl
    · cases h

theorem Joined.still {k₁ : Kernel} (hs : Still k k₁) (h : Joined k₁ cur c s x k') :
    Joined k cur c s x k' where
  kin := hs.kins ▸ h.kin
  zombie := h.zombie
  parent := h.parent
  num := h.num
  kins := hs.kins ▸ h.kins
  own := h.own
  dirs := by rw [h.dirs, hs.mem]
  history := by rw [h.history, hs.mem]
  freed := h.freed.trans hs.freed
  next := hs.next.trans h.next

theorem Joined.writes (h : Joined k cur c s x k') (hw : Writes k'.mem m) :
    Joined k cur c s x (k'.setMem m) :=
  { h with
    own := h.own.congr hw.freelist hw.dirs
    dirs := hw.dirs.trans h.dirs
    history := hw.history.trans h.history
    freed := (setMem_freed_same hw.history).trans h.freed }

theorem joinReap_joined (hp : Paged k) (hc : k.kins cur = some c) (ha : c.stage = .alive)
    (hpar : (k.ptable s).parent = some cur) (hz : (k.ptable s).state = .zombie)
    (h : joinReap k cur s = .ok k') :
    Joined k cur c s ((k.ptable s).kinAt .zombie) k' := by
  have hx : k.kins s = some ((k.ptable s).kinAt .zombie) :=
    kin_of_state (show (k.ptable s).state.stage = some .zombie by rw [hz]; rfl)
  have hne : s ≠ cur := by
    rintro rfl
    rw [hc] at hx
    cases hx
    cases ha
  rw [joinReap] at h
  obtain ⟨k₁, h₁, h⟩ := bind_ok.mp h
  obtain ⟨p, m, hstack, hm, rfl⟩ := kfreeStack_ok h₁
  obtain ⟨q, hq, h⟩ := bind_ok.mp h
  have hk' := (Except.ok.inj h).symm
  -- the caller is another slot, which the freeing does not touch
  simp only [Kernel.set_ptable, Kernel.setMem_ptable, update_self, update_of_ne hne.symm] at hq
  obtain ⟨hnum, hqkin⟩ := clearEx_kin hc hq
  have hkins : k'.kins = update (update k.kins s none) cur
      (some { c with threads := c.threads.map (·.clear (k.ptable s).threadNum) }) := by
    rw [hk', kins_set, kin_eq_none.mpr rfl]
    funext t
    by_cases e : t = s
    · rw [e, update_self, update_of_ne hne, update_self]
    · rw [update_of_ne e, kins_set, hqkin]
      by_cases e' : t = cur
      · rw [e', update_self, update_self]
      · simp only [kins_set, setMem_kins, update_of_ne e, update_of_ne e']
  have hgo : ∀ t y', k'.kins t = some y' → t ≠ s ∧ ∃ y, k.kins t = some y ∧ y.kstack = y'.kstack := by
    intro t y' hy'
    rw [hkins] at hy'
    rcases update_some hy' with ⟨rfl, rfl⟩ | ⟨-, hy'⟩
    · exact ⟨hne.symm, c, hc, rfl⟩
    · obtain ⟨e, hy'⟩ := update_none hy'
      exact ⟨e, y', hy', rfl⟩
  obtain ⟨ho, hd, hh⟩ := freeStack_own hp hx ((kin_kstack hx).symm.trans hstack) hm hgo
  have hmem : k'.mem = m := by rw [hk']; rfl
  exact ⟨hx, rfl, hpar, hnum, hkins, hmem ▸ ho, hmem ▸ hd, hmem ▸ hh,
    by rw [hk']; exact setMem_freed_same hh, by rw [hk']; exact Nat.le_refl _⟩

/-- One scan of `thread_join` finds no thread and sleeps, or reaps one and returns its value. -/
theorem threadJoin_cases {thread : Int} (hp : Paged k) (hc : k.kins cur = some c)
    (ha : c.stage = .alive) (h : threadJoin k cur thread = .ok (r, k')) : (r = none ∧ Still k k') ∨
      ∃ s x, Joined k cur c s x k' ∧ (x.pid : Int) = thread ∧ r = some x.retVal := by
  rcases threadJoin_frees h with ⟨s, hpar, hpid, hz, rfl, hj⟩ | ⟨-, rfl, rfl⟩
  · exact .inr ⟨s, _, joinReap_joined hp hc ha hpar hz hj, hpid, rfl⟩
  · refine .inl ⟨rfl, set_alive_still ?_ rfl rfl⟩
    rw [← ha]
    exact (kin_some hc).1

theorem poke_writes {m' : Mem} {d : Page} {va : Nat} {bs : List UInt8}
    (h : poke m d va bs = .ok m') : Writes m m' := by
  induction bs generalizing m va with
  | nil =>
    cases h
    exact .refl _
  | cons b bs ih =>
    rw [poke] at h
    obtain ⟨D, -, h⟩ := bind_ok.mp h
    split at h
    · exact (Vm.put_writes m ..).trans (ih h)
    · cases h

theorem Still.quiet {call : Call} (h : Still k k') : Effect k cur c call k' :=
  .quiet h.kins (by rw [h.mem]; exact .refl _) h.freed h.next

/-- `thread_join` with its store: it sleeps, or returns the value of the thread it reaped. -/
theorem joinCall_cases {thread : Int} {retval : Nat} (hp : Paged k)
    (hc : k.kins cur = some c) (ha : c.stage = .alive)
    (h : joinCall k cur thread retval = .ok (r, k')) : (r = none ∧ Still k k') ∨
      ∃ s x, Joined k cur c s x k' ∧ (x.pid : Int) = thread ∧ r = some x.retVal := by
  rw [joinCall] at h
  obtain ⟨⟨r₁, k₁⟩, h₁, h⟩ := bind_ok.mp h
  rcases threadJoin_cases hp hc ha h₁ with ⟨rfl, hs⟩ | ⟨s, x, hj, hpid, rfl⟩
  · cases h
    exact .inl ⟨rfl, hs⟩
  · obtain ⟨d, -, h⟩ := bind_ok.mp h
    obtain ⟨m, hm, h⟩ := bind_ok.mp h
    cases h
    exact .inr ⟨s, x, hj.writes (poke_writes hm), hpid, rfl⟩

theorem exitVisit_effect (hp : Paged k) (hc : k.kins cur = some c)
    (ha : c.stage = .alive) (h : exitVisit k cur s = .ok (r, k')) :
    Effect k cur c (.exitVisit s) k' := by
  have hs : Still k (k.set cur ({ · with exiting := true })) := .update rfl rfl rfl rfl (Nat.le_refl _)
  rcases (exitVisit_cases h).2 with ⟨-, rfl⟩ | ⟨-, -, q, hpar, -, hz, hj⟩ | ⟨-, -, rfl⟩
  · exact hs.quiet
  · have hp' : Paged (k.set cur ({ · with exiting := true })) := by
      refine ⟨?_, by rw [hs.kins]; exact hp.stack⟩
      rw [Kernel.stackPages, hs.kins, hs.mem]
      exact hp.own
    have hk := exiting_cards k cur
    exact .joined (.inr ⟨s, rfl⟩) (.still hs (joinReap_joined hp' (hs.kins ▸ hc) ha
      ((hk.parent q).trans hpar) ((hk.state q).trans hz) hj))
  · have hk : Still (k.set cur ({ · with exiting := true }))
        ((k.set cur ({ · with exiting := true })).set s ({ · with killed := true })) :=
      .update rfl rfl rfl rfl (Nat.le_refl _)
    exact ((hs.trans hk).trans (wakeup1_still _ _)).quiet

end

end Xv6.Kern
