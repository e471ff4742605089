import Xv6.Proc.Args
import Xv6.Proc.Family
import Xv6.Vm.Stack

/-!
# Proc — sizes

Every check of a system call's arguments trusts `p->sz`.  Under the discipline of `Steady` each
process and thread has all the pages below its size (`Sizes`): a process that has had threads moves
neither its size nor its image, a thread only lowers its size, and there is memory for the stack of
a new thread.

Without it a thread moves its own size over memory that is not there (`thread_size_unmapped`).
-/

namespace Xv6.Kern

open Function (update_self update_of_ne)
open Support (Run update_some update_none find?_finRange_lt)
open Vm (Page Mem Grows Full Stack Mapped)

/-! ### The thread table -/

/-- The stacks of a thread table, as they lie in the directory `d`. -/
structure Stacks (m : Mem) (d : Page) (F : Threads) : Prop where
  top : ∀ i, F.sz i ≠ 0 →
    F.sz i + PGSIZE ≤ KERNBASE ∧ Full m d (F.sz i + PGSIZE) ∧ Stack m d (F.sz i)
  /-- `thread_join` may write 0 to the last entry -/
  used : ∀ i, F.ex i = true → i ≠ Fin.last (NTHREAD - 1) → F.sz i ≠ 0

namespace Stacks

variable {m m' : Mem} {d : Page} {F : Threads}

theorem none (m : Mem) (d : Page) : Stacks m d .none :=
  ⟨fun _ h => absurd rfl h, fun _ h => by cases h⟩

theorem congr (h : Stacks m d F) (hd : m'.dirs d = m.dirs d) : Stacks m' d F := by
  refine ⟨fun i hi => ?_, h.used⟩
  obtain ⟨hk, hf, hs⟩ := h.top i hi
  exact ⟨hk, hf.congr hd, hs.congr hd⟩

theorem clear (h : Stacks m d F) (n : Int) : Stacks m d (F.clear n) := by
  rw [Threads.clear]
  split
  · refine ⟨h.top, fun i hi hne => h.used i ?_ hne⟩
    by_contra hex
    refine absurd hi ?_
    simp only [Function.update_apply]
    split
    · simp
    · exact hex
  · refine ⟨fun i hi => ?_, fun i hi hne => ?_⟩
    · by_cases e : i = Fin.last (NTHREAD - 1)
      · subst e
        simp only [update_self, ne_eq, not_true_eq_false] at hi
      · simp only [update_of_ne e] at hi ⊢
        exact h.top i hi
    · simp only [update_of_ne hne]
      exact h.used i hi hne

/-- The first stack that is not in use stands above one that is, or above the process. -/
theorem base_eq (h : Stacks m d F) {sz : Nat} (hsz : sz ≤ KERNBASE) (hfull : Full m d sz)
    {i : Fin NTHREAD} (hi : F.free = some i) :
    F.base sz i ≤ KERNBASE ∧ Full m d (F.base sz i) := by
  rw [Threads.base]
  split
  · exact ⟨hsz, hfull⟩
  rename_i hpos
  have hex : F.ex ⟨i.val - 1, by omega⟩ = true := by
    have hlt : (⟨i.val - 1, by omega⟩ : Fin NTHREAD) < i := by
      rw [Fin.lt_def]
      simp only
      omega
    simpa using find?_finRange_lt hi hlt
  have hne : (⟨i.val - 1, by omega⟩ : Fin NTHREAD) ≠ Fin.last (NTHREAD - 1) := by
    intro e
    have hval := congrArg Fin.val e
    have := i.isLt
    simp only [Fin.val_last] at hval
    omega
  obtain ⟨hk, hf, -⟩ := h.top _ (h.used _ hex hne)
  rw [Nat.mod_eq_of_lt (by unfold KERNBASE at hk; omega)]
  exact ⟨hk, hf⟩

end Stacks

variable {d : Page} {m' m : Mem} {sz sz' : Nat} {k : Kernel}

/-- The three pages of a new stack, where there are addresses for it. -/
theorem stack_alloc {b r top : Nat} (hlt : b + 3 * PGSIZE < KERNBASE)
    (h : Vm.allocuvm m d b ((b + 3 * PGSIZE) % 2 ^ 32) = .ok (r, m')) (hr : r ≠ 0)
    (htop : top = (r + (2 ^ 32 - PGSIZE)) % 2 ^ 32) :
    Vm.allocuvm m d b (b + 3 * PGSIZE) = .ok (r, m') ∧ r = b + 3 * PGSIZE ∧
      top = b + 2 * PGSIZE := by
  rw [Nat.mod_eq_of_lt (hlt.trans (by decide))] at h
  have hval := Vm.allocuvm_value h hr
  have hreq : r = b + 3 * PGSIZE := by omega
  refine ⟨h, hreq, ?_⟩
  rw [htop, hreq]
  unfold KERNBASE at hlt
  unfold PGSIZE at hlt ⊢
  omega

/-- With room for it, a new thread has a stack, and nothing that was mapped is lost. -/
theorem Given.stacks {S : Set Page} {csz : Nat} {num num' : Int} {F F' : Threads} {ok : Bool}
    (h : Given d csz F m sz num F' sz' num' m' ok) (ho : Vm.Own m S)
    (hF : Stacks m d F) (hsz : csz ≤ KERNBASE) (hfull : Full m d csz) (hfree : F.free ≠ none)
    (hroom : ∀ i, F.free = some i → F.sz i = 0 →
      F.base csz i + 3 * PGSIZE < KERNBASE ∧ 6 ≤ m.freelist.length) :
    ok = true ∧ Grows S d m m' ∧ Stacks m' d F' ∧ sz' + PGSIZE ≤ KERNBASE ∧ Full m' d sz' ∧
      Stack m' d sz' := by
  cases h with
  | full h => exact absurd h hfree
  | @again i h hi =>
    obtain ⟨hk, hf, hs⟩ := hF.top i hi
    refine ⟨rfl, ⟨.refl ho, fun _ => id⟩, ⟨fun j hj => ?_, fun j hj hne => ?_⟩, hk,
      hf.mono (Nat.le_add_right ..), hs⟩
    · simp only [Threads.give, Function.update_eq_self] at hj ⊢
      exact hF.top j hj
    simp only [Threads.give, Function.update_eq_self] at hj ⊢
    by_cases e : j = i
    · subst e
      exact hi
    · rw [update_of_ne e] at hj
      exact hF.used j hj hne
  | @fresh i r top _ h hi alloc hr htop =>
    obtain ⟨hbase, hbfull⟩ := hF.base_eq hsz hfull h
    obtain ⟨hlt, -⟩ := hroom i h hi
    obtain ⟨alloc, hreq, htop⟩ := stack_alloc hlt alloc hr htop
    have hal := Vm.allocuvm_spec ho alloc
    have hg := hal.grows hr
    have hfull' : Full m' d (sz' + PGSIZE) := by
      have := hal.full hr hbfull
      rwa [hreq, show F.base csz i + 3 * PGSIZE = sz' + PGSIZE by omega] at this
    have hstack : Stack m' d sz' := htop ▸ Stack.alloc ho alloc hr
    have hbound : sz' + PGSIZE ≤ KERNBASE := by omega
    refine ⟨rfl, hg, ⟨fun j hj => ?_, fun j hj hne => ?_⟩, hbound,
      hfull'.mono (Nat.le_add_right ..), hstack⟩
    · by_cases e : j = i
      · subst e
        simp only [Threads.give, update_self]
        exact ⟨hbound, hfull', hstack⟩
      · simp only [Threads.give, update_of_ne e] at hj ⊢
        obtain ⟨hk, hf, hs⟩ := hF.top j hj
        exact ⟨hk, Vm.Grows.full hg hf, hs.keep ho alloc hr⟩
    · by_cases e : j = i
      · subst e
        simp only [Threads.give, update_self]
        unfold PGSIZE at htop
        omega
      · simp only [Threads.give, update_of_ne e] at hj ⊢
        exact hF.used j hj hne
  | @short i _ h hi alloc =>
    obtain ⟨hlt, hlen⟩ := hroom i h hi
    rw [Nat.mod_eq_of_lt (hlt.trans (by decide))] at alloc
    exact absurd alloc (Vm.allocuvm_three hlt hlen)

/-! ### sbrk -/

/-- A process of size `sz` that does not go to size 0 has all its pages after `sbrk`. -/
theorem Resized.full {S : Set Page} {n : Int}
    (h : Resized d m sz n sz' m') (ho : Vm.Own m S) (hmin : -2 ^ 31 ≤ n) (hsz : sz ≤ KERNBASE)
    (hne : (sz : Int) + n ≠ 0) (hfull : Full m d sz) : sz' ≤ KERNBASE ∧ Full m' d sz' := by
  cases h with
  | same h => exact ⟨hsz, hfull⟩
  | @grown r _ hpos alloc =>
    have hal := Vm.allocuvm_spec ho alloc
    by_cases hr : r = 0
    · rw [if_pos hr]
      exact ⟨hsz, fun v hv => hal.mapped (.inr hv) (hfull v hv)⟩
    · have hval := hal.value hr
      rw [if_neg hr]
      exact ⟨by omega, hal.full hr hfull⟩
  | @shrunk r _ hneg dealloc =>
    obtain ⟨hw, hr, -⟩ := Vm.deallocuvm_works ho dealloc
    have hkeep : ∀ v, v * PGSIZE < uadd sz n → Mapped m d v → Mapped m' d v := by
      intro v hv hm
      rw [Vm.mapped_iff] at hm ⊢
      rwa [hw.agree v fun h => absurd hv (Nat.not_lt.mpr h.1)]
    by_cases h₀ : (sz : Int) + n < 0
    · -- below zero the sum is a large `uint`, and nothing happens
      have hle : sz ≤ uadd sz n := hsz.trans (uadd_neg h₀ hmin)
      rw [if_pos hle] at hr
      have hsame : (if r = 0 then sz else r) = sz := by split <;> omega
      rw [hsame]
      exact ⟨hsz, fun v hv => hkeep v (Nat.lt_of_lt_of_le hv hle) (hfull v hv)⟩
    · have hu := uadd_nonneg (a := sz) (n := n) (by omega) (by unfold KERNBASE at hsz; omega)
      rw [if_neg (by omega)] at hr
      rw [if_neg (by omega), hr]
      exact ⟨by omega, fun v hv => hkeep v hv (hfull v (by omega))⟩

theorem Resized.zero (h : Resized d m sz 0 sz' m') : sz' = sz ∧ m' = m := by
  cases h with
  | same _ => exact ⟨rfl, rfl⟩
  | grown h _ => exact absurd h (Int.lt_irrefl 0)
  | shrunk h _ => exact absurd h (Int.lt_irrefl 0)

/-! ### The discipline -/

/-- Orderly, and: a process with threads neither moves its size nor calls `exec`, and none goes to
size 0; a thread only lowers its size; `thread_create` finds a stack that is not in use, and has
memory and addresses for it. -/
def Steady (k : Kernel) : Event → Prop
  | .dispatch _ => True
  | .call cur e => Orderly k (.call cur e) ∧
      let p := k.ptable cur
      match e with
      | .sbrk n =>
        if p.isthread then -(p.sz : Int) ≤ n.toInt ∧ n.toInt ≤ 0
        else n.toInt = 0 ∨ p.hasthread = false ∧ (p.sz : Int) + n.toInt ≠ 0
      | .exec .. => p.hasthread = false
      | .threadCreate .. => ∃ i, p.initThreads.freeThread = some i ∧
          (p.initThreads.szThread i = 0 →
            p.initThreads.stackBase i + 3 * PGSIZE < KERNBASE ∧ 7 ≤ k.mem.freelist.length)
      | _ => True

instance (k : Kernel) : DecidablePred (Steady k)
  | .dispatch _ => .isTrue trivial
  | .call cur e => by
    match e with
    | .fork | .exit | .exitVisit _ | .wait | .threadCreate .. | .threadExit _ | .threadJoin ..
    | .setCpuShare _ | .sbrk _ | .exec .. | .kill _ | .sleep _ | .wakeup _ | .yield =>
      unfold Steady
      infer_instance

theorem Steady.orderly {e : Event} (h : Steady k e) : Orderly k e := by
  cases e with
  | dispatch s => trivial
  | call cur e => exact h.1

/-! ### The invariant -/

/-- A process has the pages below its size, and those of the stacks of its threads. -/
structure Backed (m : Mem) (x : Kin) : Prop where
  formed : x.stage ≠ .embryo
  size : ∀ d, x.pgdir = some d → x.sz ≤ KERNBASE ∧ Full m d x.sz
  single : x.threads.isSome → x.isthread = false
  stack : ∀ F d, x.stage = .alive → x.threads = some F → x.pgdir = some d → Stacks m d F

def Sizes (k : Kernel) : Prop := ∀ s x, k.kins s = some x → Backed k.mem x

namespace Backed

variable {m m' : Mem} {x x' : Kin}

/-- The directory of the process is not touched. -/
theorem congr (h : Backed m x) (hd : ∀ d, x.pgdir = some d → m'.dirs d = m.dirs d) :
    Backed m' x where
  formed := h.formed
  size := fun d hx => ⟨(h.size d hx).1, (h.size d hx).2.congr (hd d hx)⟩
  single := h.single
  stack := fun F d ha hF hx => (h.stack F d ha hF hx).congr (hd d hx)

/-- The process ends, or lowers its size. -/
theorem lower (h : Backed m x) (hst : x'.stage = .zombie ∨ x'.stage = x.stage)
    (hdir : x'.pgdir = x.pgdir) (hsz : x'.sz ≤ x.sz) (hth : x'.isthread = x.isthread)
    (hs : x'.threads = x.threads) : Backed m x' where
  formed := by
    rcases hst with h' | h' <;> rw [h']
    · simp
    · exact h.formed
  size := fun d hx => by
    obtain ⟨hk, hf⟩ := h.size d (hdir ▸ hx)
    exact ⟨hsz.trans hk, hf.mono hsz⟩
  single := by
    rw [hth, hs]
    exact h.single
  stack := fun F d ha hF hx => by
    refine h.stack F d ?_ (hs ▸ hF) (hdir ▸ hx)
    rcases hst with h' | h'
    · rw [h'] at ha
      cases ha
    · exact h'.symm.trans ha

end Backed

section

variable {k k' : Kernel} {cur s : Slot} {c x : Kin} {d : Page}

/-- Nobody shares the directory of a process without threads. -/
theorem Family.unshared (hf : Family k) (hformed : ∀ s x, k.kins s = some x → x.stage ≠ .embryo)
    (hc : k.kins cur = some c) (hth : c.isthread = false) (hs : c.threads = none) {t : Slot}
    {y : Kin} (hy : k.kins t = some y) (hdir : y.pgdir = c.pgdir) : t = cur := by
  by_contra hne
  obtain ⟨M, z, hM, -, -, hzs, -, hcur⟩ :=
    hf.shared t cur y c hne hy hc (hformed t y hy) (hformed cur c hc) hdir
  rcases hcur with rfl | ⟨h, -⟩
  · rw [hc] at hM
    cases hM
    rw [hs] at hzs
    cases hzs
  · rw [hth] at h
    cases h

variable {m : Mem} {sz : Nat}

/-- The thread table `thread_create` starts from. -/
theorem Backed.table (h : Backed m c) (hd : c.pgdir = some d) (ha : c.stage = .alive) :
    Stacks m d (c.threads.getD .none) := by
  cases hF : c.threads with
  | none => exact .none m d
  | some F => exact h.stack F d ha hF hd

/-- A caller without threads goes to a directory of its own. -/
theorem Backed.image (h : Backed k.mem c) (hs : c.threads = none)
    (hd : Sized m d sz) : Backed m { c with pgdir := some d, sz := sz } where
  formed := h.formed
  size := by
    rintro _ ⟨⟩
    exact ⟨hd.bound, hd.full⟩
  single := h.single
  stack := fun F _ _ hF => nomatch hs.symm.trans hF

/-- The table `thread_create` starts from, as the slot of the caller has it. -/
theorem kin_initThreads (hc : k.kins cur = some c) :
    (k.ptable cur).initThreads.freeThread = (c.threads.getD .none).free ∧
      (k.ptable cur).initThreads.szThread = (c.threads.getD .none).sz ∧
      (k.ptable cur).initThreads.stackBase = (c.threads.getD .none).base c.sz := by
  have hi := initThreads_kin hc
  obtain ⟨-, hF⟩ := kin_threads hi rfl
  rw [hF]
  refine ⟨rfl, rfl, ?_⟩
  funext i
  have hsz : (k.ptable cur).initThreads.sz = c.sz := (kin_sz hi).trans rfl
  rw [Proc.stackBase, Threads.base, hsz]

/-- The stack `thread_create` finds, and the room it has for it. -/
theorem Steady.room {thread start arg : Nat}
    (hG : Steady k (.call cur (.threadCreate thread start arg))) (hc : k.kins cur = some c) :
    (c.threads.getD .none).free ≠ none ∧ ∀ i, (c.threads.getD .none).free = some i →
      (c.threads.getD .none).sz i = 0 →
        (c.threads.getD .none).base c.sz i + 3 * PGSIZE < KERNBASE ∧ 7 ≤ k.mem.freelist.length := by
  obtain ⟨hfree, hszs, hbase⟩ := kin_initThreads hc
  obtain ⟨i, hi, hroom⟩ := hG.2
  rw [hfree] at hi
  rw [hszs, hbase] at hroom
  refine ⟨by rw [hi]; simp, fun j hj => ?_⟩
  rw [hi] at hj
  cases hj
  exact hroom

theorem Steady.exec {path : String} {file : Option Vm.File} {argv : List (List UInt8)}
    (hG : Steady k (.call cur (.exec path file argv))) (hc : k.kins cur = some c) :
    c.threads = none := by
  have := (kin_hasthread hc).symm.trans hG.2
  simpa using this

theorem Steady.sbrk {n : BitVec 32} (hG : Steady k (.call cur (.sbrk n))) (hc : k.kins cur = some c)
    (hth : c.isthread = false) :
    n.toInt = 0 ∨ c.threads = none ∧ (c.sz : Int) + n.toInt ≠ 0 := by
  have hn := hG.2
  simp only [kin_isthread hc, hth, Bool.false_eq_true, if_false, kin_sz hc, kin_hasthread hc] at hn
  rcases hn with hn | ⟨hs, hne⟩
  · exact .inl hn
  · exact .inr ⟨by simpa using hs, hne⟩

/-- With the room `Steady` asks for, `thread_create` comes to its end. -/
theorem Sizes.created {p : Page} {F : Threads} {m' : Mem} {thread start arg : Nat} {num : Int}
    {ok : Bool} (hz : Sizes k)
    (hG : Steady k (.call cur (.threadCreate thread start arg))) (hc : k.kins cur = some c)
    (ha : c.stage = .alive) (dir : c.pgdir = some d) (free : k.mem.freelist = p :: m.freelist)
    (dirs : m.dirs = k.mem.dirs) (own : Vm.Own m (insert p k.stackPages))
    (given : Given d c.sz (c.threads.getD .none) m sz num F x.sz x.threadNum m' ok)
    (made : Made cur d x m' ok) :
    ok = true ∧ Grows (insert p k.stackPages) d m m' ∧ Stacks m' d F ∧ x.sz ≤ KERNBASE ∧ Full m' d x.sz ∧
      x.stage = .alive ∧ x.isthread = true ∧ x.parent = some cur ∧ x.threads = none := by
  have hbc := hz cur c hc
  obtain ⟨hk, hfull⟩ := hbc.size d dir
  obtain ⟨hsome, hroom⟩ := hG.room hc
  obtain ⟨rfl, hg, hF', hbound, hxfull, hstack⟩ := given.stacks own
    ((hbc.table dir ha).congr (congrFun dirs d)) hk (hfull.congr (congrFun dirs d)) hsome (by
      intro i hi hzero
      obtain ⟨h₁, h₂⟩ := hroom i hi hzero
      rw [free, List.length_cons] at h₂
      exact ⟨h₁, by omega⟩)
  cases made with
  | torn stage len out =>
    exact absurd (hstack.copyout (by unfold KERNBASE at hbound; omega) len out) (by simp)
  | done stage thread parent threads _ =>
    exact ⟨rfl, hg, hF', by omega, hxfull, stage, thread, parent, threads⟩

/-- A new thread. -/
theorem Sizes.thread {np : Slot} {p : Page} {F : Threads} {m' : Mem} {thread start arg : Nat}
    {num : Int} {ok : Bool} (hz : Sizes k) (hf : Family k)
    (hG : Steady k (.call cur (.threadCreate thread start arg))) (hc : k.kins cur = some c)
    (ha : c.stage = .alive) (dir : c.pgdir = some d) (free : k.mem.freelist = p :: m.freelist)
    (dirs : m.dirs = k.mem.dirs)
    (given : Given d c.sz (c.threads.getD .none) m sz num F x.sz x.threadNum m' ok)
    (made : Made cur d x m' ok) (writes : Vm.Writes m' k'.mem) (kins : k'.kins = Function.update
      (Function.update k.kins cur (some { c with threads := some F })) np (some x))
    (shared : x.pgdir = some d)
    (own : Vm.Own m (insert p k.stackPages)) : Sizes k' := by
  have hbc := hz cur c hc
  obtain ⟨hk, hfull⟩ := hbc.size d dir
  obtain ⟨-, hg, hF', hbound, hxfull, stage, -, -, threads⟩ :=
    hz.created hG hc ha dir free dirs own given made
  have hw : ∀ e, k'.mem.dirs e = m'.dirs e := fun e => congrFun writes.dirs e
  intro t y hy
  rw [kins] at hy
  rcases update_some hy with ⟨rfl, rfl⟩ | ⟨-, hy⟩
  · refine ⟨by rw [stage]; simp, ?_, fun h => (by rw [threads] at h; cases h),
      fun _ _ _ h => nomatch threads.symm.trans h⟩
    intro e he
    rw [shared] at he
    cases he
    exact ⟨hbound, hxfull.congr (hw d)⟩
  · rcases update_some hy with ⟨rfl, rfl⟩ | ⟨htc, hy⟩
    · refine ⟨hbc.formed, fun e he => ?_, fun _ => (hG.1.isthread hc).1 _ _ _ rfl, ?_⟩
      · have he : c.pgdir = some e := he
        rw [dir] at he
        cases he
        exact ⟨hk, (Vm.Grows.full hg (hfull.congr (congrFun dirs d))).congr (hw d)⟩
      · rintro _ e _ ⟨⟩ he
        have he : c.pgdir = some e := he
        rw [dir] at he
        cases he
        exact hF'.congr (hw d)
    · -- whoever else runs on the directory is a thread, and loses nothing
      have hb := hz t y hy
      by_cases hd : y.pgdir = some d
      · have hunder := hf.shared.under hc ha ((hG.1.isthread hc).1 _ _ _ rfl) hy hb.formed
          (hd.trans dir.symm)
        obtain ⟨hth, -⟩ := hunder.resolve_left htc
        refine ⟨hb.formed, fun e he => ?_, hb.single, fun F _ _ hF => ?_⟩
        · obtain ⟨h₁, h₂⟩ := hb.size e he
          rw [hd] at he
          cases he
          exact ⟨h₁, (Vm.Grows.full hg (h₂.congr (congrFun dirs d))).congr (hw d)⟩
        · have := hb.single (by rw [hF]; rfl)
          rw [hth] at this
          cases this
      · refine hb.congr fun e he => ?_
        rw [hw, hg.other e fun h => hd (h ▸ he), dirs]

theorem Effect.sizes {e : Call} (hp : Paged k) (hf : Family k) (hG : Steady k (.call cur e))
    (hc : k.kins cur = some c) (ha : c.stage = .alive) (h : Effect k cur c e k') (hz : Sizes k) :
    Sizes k' := by
  have hformed : ∀ s x, k.kins s = some x → x.stage ≠ .embryo := fun s x hx => (hz s x hx).formed
  have hbc := hz cur c hc
  cases h with
  | quiet kins mem | gaveUp kins mem =>
    intro t y hy
    exact (hz t y (kins ▸ hy)).congr fun d _ => by rw [mem.dirs]
  | died _ _ kins mem _ _ =>
    intro t y' hy'
    rw [kins] at hy'
    obtain ⟨y, hy, rfl⟩ := Option.map_eq_some_iff.mp hy'
    rw [mem]
    refine (hz t y hy).lower ?_ rfl (Nat.le_refl _) rfl rfl
    by_cases e : t = cur
    · exact .inl (by rw [Kin.after, if_pos e])
    · exact .inr (by rw [Kin.after, if_neg e])
  | born _ _ _ kins mem full _ _ _ =>
    intro t y hy
    rw [kins] at hy
    rcases update_some hy with ⟨rfl, rfl⟩ | ⟨-, hy⟩
    · obtain ⟨d₀, hd₀, -⟩ := hf.live cur c hc hbc.formed
      refine ⟨by simp, ?_, (fun h => by cases h), fun _ _ _ h => by cases h⟩
      rintro _ ⟨⟩
      exact ⟨(hbc.size d₀ hd₀).1, full⟩
    · refine (hz t y hy).congr fun d hd => mem.other d fun e => ?_
      exact hf.fresh hp.own mem.fresh hy (hformed t y hy) (e ▸ hd)
  | reaped found kin zombie _ dir kins mem _ _ =>
    intro t y hy
    rw [kins] at hy
    obtain ⟨hne, hy⟩ := update_none hy
    refine (hz t y hy).congr fun d hd => mem.other d fun e => ?_
    have hth := (kin_isthread kin).symm.trans (hG.1.2 _ found)
    exact hne (hf.shared.alone kin zombie hth hy (hformed t y hy) (hd.trans (e ▸ dir.symm)))
  | joined _ h =>
    intro t y hy
    rw [h.kins] at hy
    rcases update_some hy with ⟨rfl, rfl⟩ | ⟨-, hy⟩
    · have hb := hbc.congr fun d _ => congrFun h.dirs d
      refine ⟨hb.formed, hb.size, fun hs => hb.single (by rwa [Option.isSome_map] at hs), ?_⟩
      intro F' d _ hF' hd
      obtain ⟨F, hF, rfl⟩ := Option.map_eq_some_iff.mp hF'
      exact (hb.stack F d ha hF hd).clear _
    · exact (hz t y (update_none hy).2).congr fun d _ => congrFun h.dirs d
  | barren kins mem _ _ =>
    intro t y hy
    rw [kins] at hy
    rw [mem]
    rcases update_some hy with ⟨rfl, rfl⟩ | ⟨-, hy⟩
    · refine ⟨hbc.formed, hbc.size, fun _ => (hG.1.isthread hc).1 _ _ _ rfl, ?_⟩
      rintro _ d _ ⟨⟩ hd
      exact hbc.table hd ha
    · exact hz t y hy
  | threaded _ _ dir free dirs own given made writes kins shared _ _ _ _ _ =>
    exact hz.thread hf hG hc ha dir free dirs given made writes kins shared own
  | left _ kins mem sized _ _ =>
    have hs := hG.exec hc
    intro t y hy
    rw [kins] at hy
    rcases update_some hy with ⟨rfl, rfl⟩ | ⟨-, hy⟩
    · exact hbc.image hs sized
    · refine (hz t y hy).congr fun d hd => mem.other d fun e => ?_
      exact hf.fresh hp.own mem.fresh hy (hformed t y hy) (e ▸ hd)
  | replaced process old kins built sized gone _ _ =>
    have hs := hG.exec hc
    have hne : ∀ t y, t ≠ cur → k.kins t = some y → y.pgdir ≠ c.pgdir := fun t y htc hy hd =>
      htc (hf.unshared hformed hc process hs hy hd)
    have hcd := fun hd => hf.fresh hp.own built.fresh hc hbc.formed (old.trans hd)
    intro t y hy
    rw [kins] at hy
    rcases update_some hy with ⟨rfl, rfl⟩ | ⟨htc, hy⟩
    · refine (hbc.image hs sized).congr ?_
      rintro _ ⟨⟩
      exact gone.other _ fun e => hcd (congrArg some e.symm)
    · refine (hz t y hy).congr fun d hd => ?_
      rw [gone.other d fun e => hne t y htc hy (hd.trans (e ▸ old.symm)),
        built.other d fun e => hf.fresh hp.own built.fresh hy (hformed t y hy) (e ▸ hd)]
  | @moved n _ thread kins mem _ _ =>
    intro t y hy
    rw [kins] at hy
    rw [mem]
    rcases update_some hy with ⟨rfl, rfl⟩ | ⟨-, hy⟩
    · refine hbc.lower (.inr rfl) rfl ?_ rfl rfl
      have hn := hG.2
      simp only [kin_isthread hc, thread, if_true, kin_sz hc] at hn
      obtain ⟨d, hd, -⟩ := hf.live t c hc hbc.formed
      have hk := (hbc.size d hd).1
      unfold KERNBASE at hk
      have hu := uadd_nonneg (a := c.sz) (n := n.toInt) (by omega) (by omega)
      change uadd c.sz n.toInt ≤ c.sz
      omega
    · exact hz t y hy
  | @resized n d sz _ process dir kins size mem _ _ =>
    intro t y hy
    rw [kins] at hy
    rcases hG.sbrk hc process with hn | ⟨hs, hne⟩
    · -- sbrk(0)
      rw [hn] at size
      obtain ⟨hsz, hmem⟩ := size.zero
      rw [hmem]
      rcases update_some hy with ⟨rfl, rfl⟩ | ⟨-, hy⟩
      · exact hbc.lower (.inr rfl) rfl hsz.le rfl rfl
      · exact hz t y hy
    · rcases update_some hy with ⟨rfl, rfl⟩ | ⟨htc, hy⟩
      · refine ⟨hbc.formed, ?_, hbc.single, fun F _ _ hF => by cases hs.symm.trans hF⟩
        intro d' hd'
        have hd' : c.pgdir = some d' := hd'
        rw [dir] at hd'
        cases hd'
        obtain ⟨hk, hfull⟩ := hbc.size d dir
        exact size.full hp.own (BitVec.le_toInt n) hk hne hfull
      · refine (hz t y hy).congr fun e he => mem.other e fun h => ?_
        exact htc (hf.unshared hformed hc process hs hy (he.trans (h ▸ dir.symm)))

end

/-! ### Runs -/

/-- A kernel that has just been set up, with at least `n` pages free before. -/
def BootedOn (n : Nat) (k : Kernel) : Prop :=
  ∃ pages initcode, pages.Nodup ∧ n ≤ pages.length ∧ userinit (.blank pages) initcode = .ok k

theorem BootedOn.booted {n : Nat} (h : BootedOn n k) : Booted k := by
  obtain ⟨pages, initcode, hnd, -, h⟩ := h
  exact ⟨pages, initcode, hnd, h⟩

theorem BootedOn.sizes (h : BootedOn 68 k) : Sizes k := by
  obtain ⟨pages, initcode, hnd, hlen, h⟩ := h
  obtain ⟨d, p, -, hk, -, -, -, -, -, hfull⟩ := userinit_kin hnd h
  intro t y hy
  rw [hk] at hy
  rcases update_some hy with ⟨rfl, rfl⟩ | ⟨-, h⟩
  · refine ⟨by simp, ?_, (nomatch ·), fun _ _ _ => (nomatch ·)⟩
    rintro _ ⟨⟩
    exact ⟨show PGSIZE ≤ KERNBASE by decide, hfull hlen⟩
  · cases h

theorem Still.sizes {k' : Kernel} (h : Still k k') (hz : Sizes k) : Sizes k' := by
  intro t y hy
  rw [h.mem]
  exact hz t y (h.kins ▸ hy)

/-- The invariant in every steady run. -/
theorem steady_sizes {k₀ : Kernel} (hb : BootedOn 68 k₀)
    (r : Run (fun k e k' => step k e = some k') Steady k₀ k) : Family k ∧ Sizes k := by
  refine (run_effects (I := fun k => Family k ∧ Sizes k) r hb.booted.paged
    ⟨hb.booted.family, hb.sizes⟩ (fun _ _ hs h => ⟨hs.family h.1, hs.sizes h.2⟩) ?_).2
  rintro k k' cur c e hp hG hr hc ha he ⟨hf, hz⟩
  exact ⟨he.family hp hG.orderly hr hc ha hf, he.sizes hp hf hG hc ha hz⟩

/-- A run that can be computed, from a boot on `m` pages and `n` more. -/
theorem exists_bootedRun (G : Kernel → Event → Prop) [∀ k e, Decidable (G k e)] (m n : Nat)
    (es : List Event) (P : Kernel → Prop)
    (h : ∃ k, bootRun (m + n) (fun k e => decide (G k e)) es = some k ∧ P k) :
    ∃ k₀ k, BootedOn m k₀ ∧ Run (fun k e k' => step k e = some k') G k₀ k ∧ P k := by
  obtain ⟨k, hk, hP⟩ := h
  obtain ⟨k₀, hu, he⟩ := Option.bind_eq_some_iff.mp hk
  have hb : BootedOn m k₀ := ⟨_, _, List.nodup_range, by rw [List.length_range]; omega,
    Support.toOption_eq_some.mp hu⟩
  exact ⟨k₀, k, hb, (Support.exec_run es .refl he).mono fun _ _ => of_decide_eq_true, hP⟩

end Xv6.Kern
