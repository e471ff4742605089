import Xv6.Proc.Layout

/-!
# Proc — no page is mapped twice

`growproc` maps pages from `curproc->sz` on, and `thread_create` maps stacks above `curproc->sz`
without a trace in it.  In a tidy run the two do not meet: what is mapped next lies above everything
that is (`Layout`), so the panic of `mappages` is not reached by `sbrk`, `thread_create` or
`thread_join`.

A process that grows after it has created a thread maps the pages of the stack again (`remap_panic`).
-/

namespace Xv6.Kern

open Support (Run bind_error)
open Vm (Page Mem Bare)

/-- A computation does not end in the panic of `mappages`. -/
structure NoRemap {α : Type} (x : Except Stop α) : Prop where
  ne : x ≠ .error (.panic "remap")

namespace NoRemap

variable {α β : Type} {x : Except Stop α} {f : α → Except Stop β}

theorem bind (hx : NoRemap x) (hf : ∀ a, x = .ok a → NoRemap (f a)) : NoRemap (x >>= f) := by
  refine ⟨fun h => ?_⟩
  rcases bind_error.mp h with h | ⟨a, ha, h⟩
  · exact hx.ne h
  · exact (hf a ha).ne h

theorem ok (a : α) : NoRemap (.ok a) := ⟨nofun⟩

theorem fault : NoRemap (.error .fault : Except Stop α) := ⟨nofun⟩

theorem panic {msg : String} (h : msg ≠ "remap") :
    NoRemap (.error (.panic msg) : Except Stop α) :=
  ⟨fun e => h (Stop.panic.inj (Except.error.inj e))⟩

end NoRemap

section

variable {k : Kernel} {cur np s : Slot} {d : Page} {m : Mem}

/-! ### Functions that map nothing -/

theorem acquire_noRemap (k : Kernel) : NoRemap (acquire k) := by
  rw [acquire]
  split
  · exact .panic (by decide)
  · exact .ok ()

theorem pgdirOf_noRemap (k : Kernel) (s : Slot) : NoRemap (pgdirOf k s) := by
  rw [pgdirOf]
  split
  · exact .ok _
  · exact .fault

theorem kfree_noRemap (m : Mem) (p : Page) : NoRemap (Vm.kfree m p) := by
  rw [Vm.kfree]
  split
  · exact .fault
  · exact .ok _

theorem dir_noRemap (m : Mem) (d : Page) : NoRemap (m.dir d) := by
  rw [Mem.dir]
  split
  · exact .ok _
  · exact .fault

theorem uva2ka_noRemap (m : Mem) (d : Page) (v : Nat) : NoRemap (Vm.uva2ka m d v) := by
  rw [Vm.uva2ka]
  refine .bind ⟨fun h => by cases (Vm.walkpgdir_error h).1⟩ fun r _ => ?_
  obtain ⟨o, m'⟩ := r
  cases o with
  | none => exact .fault
  | some T =>
    dsimp only
    split
    · exact .ok _
    · exact .ok _

theorem copyoutLoop_noRemap (d : Page) (fuel va : Nat) (buf : List UInt8) (m : Mem) :
    NoRemap (Vm.copyoutLoop d fuel va buf m) := by
  fun_induction Vm.copyoutLoop d fuel va buf m with
  | case1 | case2 => exact .ok _
  | case3 fuel va buf m _ ih =>
    refine (uva2ka_noRemap ..).bind fun o _ => ?_
    cases o with
    | none => exact .ok _
    | some p => exact ih p

theorem poke_noRemap (m : Mem) (d : Page) (va : Nat) (bs : List UInt8) :
    NoRemap (poke m d va bs) := by
  induction bs generalizing m va with
  | nil => exact .ok m
  | cons b bs ih =>
    rw [poke]
    refine (dir_noRemap m d).bind fun D _ => ?_
    split
    · exact ih ..
    · exact .panic (by decide)

theorem dupRefs_noRemap (fs : List Nat) (r : Nat → Nat) : NoRemap (dupRefs fs r) := by
  induction fs generalizing r with
  | nil => exact .ok r
  | cons f fs ih =>
    rw [dupRefs]
    split
    · exact .panic (by decide)
    · exact ih _

theorem copyFiles_noRemap (k : Kernel) (cur np : Slot) : NoRemap (copyFiles k cur np) := by
  rw [copyFiles]
  refine (dupRefs_noRemap _ _).bind fun fref _ => ?_
  split
  · exact .fault
  · exact .ok _

theorem kfreeStack_noRemap (k : Kernel) (s : Slot) : NoRemap (kfreeStack k s) := by
  rw [kfreeStack]
  split
  · exact .panic (by decide)
  · exact (kfree_noRemap ..).bind fun m _ => .ok _

theorem clearEx_noRemap (p : Proc) (n : Int) : NoRemap (p.clearEx n) := by
  rw [Proc.clearEx]
  split
  · exact .ok _
  · split
    · exact .ok _
    · exact .fault

theorem joinReap_noRemap (k : Kernel) (cur s : Slot) : NoRemap (joinReap k cur s) := by
  rw [joinReap]
  exact (kfreeStack_noRemap ..).bind fun k _ => (clearEx_noRemap ..).bind fun p _ => .ok _

theorem joinCall_noRemap (k : Kernel) (cur : Slot) (t : Int) (a : Nat) :
    NoRemap (joinCall k cur t a) := by
  have hjoin : NoRemap (threadJoin k cur t) := by
    rw [threadJoin]
    refine (acquire_noRemap k).bind fun _ _ => ?_
    split
    · exact (joinReap_noRemap ..).bind fun k _ => .ok _
    · exact .ok _
  rw [joinCall]
  refine hjoin.bind fun r _ => ?_
  obtain ⟨o, k₁⟩ := r
  cases o with
  | none => exact .ok _
  | some v => exact (pgdirOf_noRemap ..).bind fun d _ => (poke_noRemap ..).bind fun m _ => .ok _

variable {S : Set Page}

theorem deallocuvm_noRemap (ho : Vm.Own m S) (d : Page) (a b : Nat) :
    NoRemap (Vm.deallocuvm m d a b) := by
  refine ⟨fun h => ?_⟩
  rcases Vm.deallocuvm_error ho h with ⟨h, -⟩ | ⟨h, -⟩
  · cases h
  · simp at h

/-! ### Functions that map pages -/

/-- `allocuvm` maps where nothing is mapped. -/
theorem allocuvm_noRemap {a b : Nat} (ho : Vm.Own m S) (hb : Bare m d a) :
    NoRemap (Vm.allocuvm m d a b) :=
  ⟨fun h => nomatch (Vm.allocuvm_error ho hb h).1⟩

theorem sbrk_noRemap {n : Int} (ho : Vm.Own k.mem S) (hb : (k.ptable cur).isthread = false → 0 < n →
    ∀ d, (k.ptable cur).pgdir = some d → Bare k.mem d (k.ptable cur).sz) : NoRemap (sbrk k cur n) := by
  rw [sbrk]
  split
  · exact .ok _
  rename_i hth
  refine .bind ?_ fun r _ => .ok _
  rw [growproc]
  refine (pgdirOf_noRemap k cur).bind fun d hd => ?_
  split
  · rename_i hn
    refine (allocuvm_noRemap ho (hb (by simpa using hth) hn d (pgdirOf_ok hd))).bind fun r _ => ?_
    obtain ⟨sz, m⟩ := r
    dsimp only
    split
    · exact .ok _
    · exact .ok _
  · split
    · refine (deallocuvm_noRemap ho ..).bind fun r _ => ?_
      obtain ⟨sz, m⟩ := r
      dsimp only
      split
      · exact .ok _
      · exact .ok _
    · exact .ok _

theorem giveStack_noRemap (ho : Vm.Own k.mem S) (hb : ∀ i, (k.ptable cur).freeThread = some i →
    (k.ptable cur).szThread i = 0 → Bare k.mem d ((k.ptable cur).stackBase i)) :
    NoRemap (giveStack k cur np d) := by
  rw [giveStack]
  split
  · exact .ok _
  rename_i i hi
  refine .bind ?_ fun r _ => ?_
  · rw [stackTop]
    split
    · rename_i hz
      exact (acquire_noRemap k).bind fun _ _ =>
        (allocuvm_noRemap ho (hb i hi hz)).bind fun r _ => .ok _
    · exact .ok _
  · obtain ⟨o, k₁⟩ := r
    cases o with
    | none => exact .ok _
    | some top => exact .ok _

theorem threadFinish_noRemap {thread start arg : Nat} (ho : Vm.Own k.mem S) (hne : cur ≠ np)
    (hb : ∀ d i, (k.ptable cur).pgdir = some d → (k.ptable cur).freeThread = some i →
      (k.ptable cur).szThread i = 0 → Bare k.mem d ((k.ptable cur).stackBase i)) :
    NoRemap (threadFinish k cur np thread start arg) := by
  rw [threadFinish]
  refine (pgdirOf_noRemap k cur).bind fun d hd =>
    (giveStack_noRemap (k := k.set np _) ho fun i hi hz => ?_).bind fun r _ => ?_
  · rw [Kernel.set_ptable, Function.update_of_ne hne] at hi hz ⊢
    exact hb d i (pgdirOf_ok hd) hi hz
  obtain ⟨ok, k₁⟩ := r
  cases ok with
  | false => exact .ok _
  | true =>
    refine (copyoutLoop_noRemap ..).bind fun r _ => ?_
    obtain ⟨ok, m⟩ := r
    cases ok with
    | false => exact .ok _
    | true => exact (poke_noRemap ..).bind fun m _ => (copyFiles_noRemap ..).bind fun k _ =>
      (acquire_noRemap k).bind fun _ _ => .ok _

end

/-! ### Runs -/

section

variable {k : Kernel} {cur : Slot}

theorem allocproc_noRemap (k : Kernel) : NoRemap (allocproc k) := by
  rw [allocproc]
  refine (acquire_noRemap k).bind fun _ _ => ?_
  split
  · exact .ok _
  · dsimp only
    split
    · exact .ok _
    · exact .ok _

theorem threadCreate_noRemap {c : Kin} {thread start arg : Nat} (hp : Paged k) (hz : Sizes k)
    (hl : Laid k)
    (hc : k.kins cur = some c) (ha : c.stage = .alive)
    (hG : Tidy k (.call cur (.threadCreate thread start arg))) :
    NoRemap (threadCreate k cur thread start arg) := by
  rw [threadCreate]
  refine (allocproc_noRemap _).bind fun r hr => ?_
  obtain ⟨o, k₁⟩ := r
  rcases allocproc_kin hr with ⟨rfl, -⟩ | ⟨np, p, rfl, -, hnew, hk, -, -, htab⟩
  · exact .ok _
  have hne : cur ≠ np := by
    rintro rfl
    have hu := kin_eq_none.mp hnew
    rw [Kernel.set_ptable, Function.update_self, (initThreads_state _).1] at hu
    cases (kin_eq_none.mpr hu).symm.trans hc
  have hcur : k₁.ptable cur = (k.ptable cur).initThreads := by
    rw [htab, Function.update_of_ne hne, Kernel.set_ptable, Function.update_self]
  obtain ⟨hfree, hszs, hbase⟩ := kin_initThreads hc
  refine threadFinish_noRemap (Vm.kalloc_some hp.own hk).1 hne fun d i hd hi hzero => ?_
  rw [hcur] at hd hi hzero ⊢
  rw [(initThreads_state _).2, kin_pgdir hc] at hd
  rw [hfree] at hi
  rw [hszs] at hzero
  rw [hbase]
  have hth := (hG.steady.orderly.isthread hc).1 _ _ _ rfl
  exact ((hl cur c d hc ha hth hd).base_bare ((hz cur c hc).table hd ha) hi hzero).congr
    (congrFun (Vm.kalloc_dirs hk) d)

end

end Xv6.Kern
