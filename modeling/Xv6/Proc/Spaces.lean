import Xv6.Proc.Effects

/-!
# Proc — the calls that change an address space

What `thread_create`, `exec` and `sbrk` do, and with it every call (`call_effect`).  The invariants
on shared page directories and on sizes rest on it.
-/

namespace Xv6.Kern

open Function (update update_self update_of_ne update_eq_self)
open Support (bind_ok update_some)
open Vm (Page Mem File Works Built Unbuilt Writes)

section

variable {k k' : Kernel} {cur s np : Slot} {c : Kin}

/-! ### thread_create -/

variable {p : Proc} {F : Threads} {d : Page} {S : Set Page} {r : Int}

section

variable (hc : p.kin = some c)
include hc

theorem initThreads_kin :
    p.initThreads.kin = some { c with threads := some (c.threads.getD .none) } := by
  obtain ⟨st, hst, rfl⟩ := Option.map_eq_some_iff.mp hc
  rw [Proc.initThreads]
  cases hth : p.hasthread with
  | true => simp [Proc.kin, Proc.kinAt, hst, hth]
  | false => simp [Proc.kin, Proc.kinAt, hst, hth, Threads.none]

/-- The thread table of a process that has one. -/
theorem kin_threads (hF : c.threads = some F) :
    p.hasthread = true ∧ F = ⟨p.szThread, p.exThread⟩ := by
  rw [(kin_some hc).2, Proc.kinAt] at hF
  simp only at hF
  split at hF
  · rename_i hth
    exact ⟨hth, (Option.some.inj hF).symm⟩
  · cases hF

theorem kin_setDir (d : Option Page) (tf : Trapframe) :
    ({ p with pgdir := d, tf := tf } : Proc).kin = some { c with pgdir := d } := by
  obtain ⟨st, hst, rfl⟩ := Option.map_eq_some_iff.mp hc
  simp only [Proc.kin, Proc.kinAt, hst, Option.map_some]

theorem kin_toThread (tf : Trapframe) (q : Option Slot) :
    ({ p with tf := tf, isthread := true, retVal := 0, parent := q, mother := q } : Proc).kin =
      some { c with isthread := true, parent := q, retVal := 0 } := by
  obtain ⟨st, hst, rfl⟩ := Option.map_eq_some_iff.mp hc
  simp only [Proc.kin, Proc.kinAt, hst, Option.map_some]

theorem kin_setThreads (hth : p.hasthread = true) (g : Fin NTHREAD → Nat) (e : Fin NTHREAD → Bool) :
    ({ p with szThread := g, exThread := e } : Proc).kin = some { c with threads := some ⟨g, e⟩ } := by
  obtain ⟨st, hst, rfl⟩ := Option.map_eq_some_iff.mp hc
  simp only [Proc.kin, Proc.kinAt, hst, Option.map_some, hth, if_true]

theorem kin_setTop (sz : Nat) (num : Int) : ({ p with sz := sz, threadNum := num } : Proc).kin =
      some { c with sz := sz, threadNum := num } := by
  obtain ⟨st, hst, rfl⟩ := Option.map_eq_some_iff.mp hc
  simp only [Proc.kin, Proc.kinAt, hst, Option.map_some]

end

theorem Given.works {csz sz sz' : Nat} {num num' : Int} {F' : Threads}
    {m m' : Mem} {ok : Bool} (ho : Vm.Own m S) (h : Given d csz F m sz num F' sz' num' m' ok) :
    Works S S d (fun _ => True) m m' := by
  cases h with
  | full | again => exact .refl ho
  | fresh _ _ alloc | short _ _ alloc => exact (Vm.allocuvm_spec ho alloc).works.mono fun _ _ => trivial

/-- What `stackTop` finds or maps. -/
theorem stackTop_cases {i : Fin NTHREAD} {top : Option Nat} (ho : Vm.Own k.mem S)
    (hc : k.kins cur = some c) (hF : c.threads = some F)
    (h : stackTop k cur d i = .ok (top, k')) : (F.sz i ≠ 0 ∧ top = some (F.sz i) ∧ k' = k) ∨
      ∃ r m, F.sz i = 0 ∧ k' = k.setMem m ∧ k'.freed = k.freed ∧
        Vm.allocuvm k.mem d (F.base c.sz i) ((F.base c.sz i + 3 * PGSIZE) % 2 ^ 32) = .ok (r, m) ∧
        top = if r = 0 then none else some ((r + (2 ^ 32 - PGSIZE)) % 2 ^ 32) := by
  obtain ⟨-, rfl⟩ := kin_threads hc hF
  have hsz := kin_sz hc
  rw [stackTop] at h
  split at h
  · rename_i hz
    obtain ⟨-, -, h⟩ := bind_ok.mp h
    obtain ⟨⟨r, m⟩, h₁, h⟩ := bind_ok.mp h
    cases h
    have hbase : (k.ptable cur).stackBase i =
        Threads.base ⟨(k.ptable cur).szThread, (k.ptable cur).exThread⟩ c.sz i := by
      rw [Proc.stackBase, Threads.base, hsz]
    rw [hbase] at h₁
    have hw := (Vm.allocuvm_spec ho h₁).works
    exact .inr ⟨r, m, hz, rfl, setMem_freed_same hw.history, h₁, rfl⟩
  · rename_i hz
    cases h
    exact .inl ⟨hz, rfl, rfl⟩

theorem giveStack_kin {x : Kin} {ok : Bool}
    (ho : Vm.Own k.mem S) (hne : cur ≠ np) (hc : k.kins cur = some { c with threads := some F })
    (hx : k.kins np = some x) (h : giveStack k cur np d = .ok (ok, k')) :
    ∃ F' sz num, Given d c.sz F k.mem x.sz x.threadNum F' sz num k'.mem ok ∧
      k'.kins = update (update k.kins cur (some { c with threads := some F' })) np
        (some { x with sz := sz, threadNum := num }) ∧
      k'.freed = k.freed ∧ k'.nextpid = k.nextpid := by
  have hsame : update (update k.kins cur (some { c with threads := some F })) np
      (some { x with sz := x.sz, threadNum := x.threadNum }) = k.kins := by
    rw [← hc, update_eq_self, ← hx, update_eq_self]
  obtain ⟨hhas, hFs⟩ := kin_threads hc rfl
  have hfree : (k.ptable cur).freeThread = F.free := by rw [Proc.freeThread, hFs]; rfl
  -- the table and the slot of the thread, once there is a top
  have hset : ∀ (k₁ : Kernel) (i : Fin NTHREAD) (top : Nat), k₁.ptable = k.ptable →
      ((k₁.set cur fun p => { p with
        szThread := update p.szThread i top
        exThread := update p.exThread i true }).set np
          ({ · with sz := top, threadNum := (i.val : Int) })).kins =
      update (update k.kins cur (some { c with threads := some (F.give i top) })) np
        (some { x with sz := top, threadNum := (i.val : Int) }) := by
    intro k₁ i top ht
    have hkins : k₁.kins = k.kins := funext fun t => by rw [Kernel.kins, ht]; rfl
    rw [kins_set, kins_set, hkins]
    simp only [Kernel.set_ptable, update_of_ne hne.symm, ht]
    congr 2
    · rw [hFs]
      exact kin_setThreads hc hhas _ _
    · exact kin_setTop hx _ _
  rw [giveStack, hfree] at h
  split at h
  · rename_i hf
    cases h
    exact ⟨F, x.sz, x.threadNum, .full hf, hsame.symm, rfl, rfl⟩
  rename_i i hf
  obtain ⟨⟨top, k₁⟩, h₁, h₂⟩ := bind_ok.mp h
  rcases stackTop_cases ho hc rfl h₁ with ⟨hsz, rfl, rfl⟩ | ⟨r, m, hsz, rfl, hfreed, halloc, rfl⟩
  · cases h₂
    exact ⟨_, _, _, .again hf hsz, hset _ i _ rfl, rfl, rfl⟩
  by_cases hr : r = 0
  · subst hr
    cases h₂
    exact ⟨F, x.sz, x.threadNum, .short hf hsz halloc, hsame.symm, hfreed, rfl⟩
  · rw [if_neg hr] at h₂
    cases h₂
    exact ⟨_, _, _, .fresh hf hsz halloc hr rfl, hset _ i _ rfl, hfreed, rfl⟩

/-- The stacks are the same when one process changes something else. -/
theorem stackPages_update {c' : Kin} (hc : k.kins cur = some c)
    (hk : k'.kins = update k.kins cur (some c')) (h : c'.kstack = c.kstack) :
    k'.stackPages = k.stackPages := by
  ext p
  constructor
  · rintro ⟨t, x, hx, hp⟩
    rw [hk] at hx
    rcases update_some hx with ⟨rfl, rfl⟩ | ⟨-, hx⟩
    · exact ⟨t, c, hc, h ▸ hp⟩
    · exact ⟨t, x, hx, hp⟩
  · rintro ⟨t, x, hx, hp⟩
    by_cases e : t = cur
    · rw [e, hc] at hx
      cases hx
      exact ⟨cur, c', by rw [hk, update_self], h.trans hp⟩
    · exact ⟨t, x, by rw [hk, update_of_ne e]; exact hx, hp⟩

theorem pgdirOf_ok (h : pgdirOf k s = .ok d) : (k.ptable s).pgdir = some d := by
  rw [pgdirOf] at h
  split at h
  · rename_i hd
    cases h
    exact hd
  · cases h

theorem pgdirOf_kin (hc : k.kins cur = some c) (h : pgdirOf k cur = .ok d) :
    c.pgdir = some d :=
  (kin_pgdir hc).symm.trans (pgdirOf_ok h)

theorem threadFinish_kin {y : Kin} {thread start arg : Nat} (ho : Vm.Own k.mem S) (hne : cur ≠ np)
    (hc : k.kins cur = some { c with threads := some F }) (hy : k.kins np = some y)
    (hst : y.stage = .embryo) (hth : y.threads = none)
    (h : threadFinish k cur np thread start arg = .ok (r, k')) :
    ∃ d F' x m ok, c.pgdir = some d ∧
      Given d c.sz F k.mem y.sz y.threadNum F' x.sz x.threadNum m ok ∧ Made cur d x m ok ∧
      Writes m k'.mem ∧
      k'.kins = update (update k.kins cur (some { c with threads := some F' })) np (some x) ∧
      x.pgdir = some d ∧ x.kstack = y.kstack ∧ x.pid = y.pid ∧ k'.freed = k.freed ∧
      k.nextpid ≤ k'.nextpid := by
  rw [threadFinish] at h
  obtain ⟨d, hd, h⟩ := bind_ok.mp h
  obtain ⟨⟨ok, k₂⟩, h₂, h⟩ := bind_ok.mp h
  -- the slot with the directory of the caller
  have ho₁ : Vm.Own (k.set np ({ · with pgdir := some d, tf := (k.ptable cur).tf })).mem S := ho
  have hc₁ : (k.set np ({ · with pgdir := some d, tf := (k.ptable cur).tf })).kins cur =
      some { c with threads := some F } := by
    rw [kins_set, update_of_ne hne, hc]
  have hy₁ : (k.set np ({ · with pgdir := some d, tf := (k.ptable cur).tf })).kins np =
      some { y with pgdir := some d } := by
    rw [kins_set, update_self]
    exact kin_setDir hy _ _
  obtain ⟨F', sz, num, hgiven, hk₂, hf, hn⟩ := giveStack_kin ho₁ hne hc₁ hy₁ h₂
  have hn : k₂.nextpid = k.nextpid := hn
  have hk : ∀ x, update k₂.kins np (some x) = update
      (update k.kins cur (some { c with threads := some F' })) np (some x) := by
    intro x
    rw [hk₂, Function.update_idem, kins_set, Function.update_comm hne.symm, Function.update_idem]
  refine ⟨d, F', ?_⟩
  have hdir : ({ c with threads := some F } : Kin).pgdir = some d := pgdirOf_kin hc hd
  have hnp : k₂.kins np = some { y with pgdir := some d, sz := sz, threadNum := num } := by
    rw [hk₂, update_self]
  have hsz : (k₂.ptable np).sz = sz := kin_sz hnp
  cases ok with
  | false =>
    cases h
    refine ⟨{ y with pgdir := some d, sz := sz, threadNum := num }, _, false, hdir, hgiven,
      .short hst, .refl _, ?_, rfl, rfl, rfl, hf, hn.ge⟩
    rw [← hk, ← hnp, update_eq_self]
  | true =>
    obtain ⟨⟨ok, m⟩, h₃, h⟩ := bind_ok.mp h
    rw [hsz] at h₃
    have hw₃ := Vm.copyout_writes (Nat.mod_lt _ (by decide)) h₃
    cases ok with
    | false =>
      cases h
      refine ⟨{ y with pgdir := some d, sz := sz, threadNum := num }, _, true, hdir, hgiven,
        .torn hst rfl h₃, hw₃, ?_, rfl, rfl, rfl, (setMem_freed_same hw₃.history).trans hf, hn.ge⟩
      rw [setMem_kins, ← hk, ← hnp, update_eq_self]
    | true =>
      obtain ⟨m₂, h₄, h⟩ := bind_ok.mp h
      obtain ⟨k₃, h₅, h⟩ := bind_ok.mp h
      obtain ⟨-, -, h⟩ := bind_ok.mp h
      cases h
      have hw₄ := hw₃.trans (poke_writes h₄)
      have hs := copyFiles_still h₅
      have hnp₃ : k₃.kins np = some { y with
          pgdir := some d, sz := sz, threadNum := num, isthread := true, parent := some cur,
          retVal := 0 } := by
        rw [hs.kins, kins_set, update_self]
        exact kin_toThread hnp _ _
      refine ⟨{ y with
        stage := .alive, pgdir := some d, sz := sz, threadNum := num, isthread := true,
        parent := some cur, retVal := 0 },
        _, true, hdir, hgiven, .done rfl rfl rfl hth rfl, ?_, ?_, rfl, rfl, rfl, ?_, ?_⟩
      · rw [set_mem, hs.mem]
        exact hw₄
      · rw [← hk, kins_set, kin_setState hnp₃ (g := .alive) rfl, hs.kins, kins_set,
          Function.update_idem]
        rfl
      · rw [set_freed, hs.freed, set_freed]
        exact (setMem_freed_same hw₄.history).trans hf
      · exact hn.ge.trans hs.next

theorem threadCreate_effect {thread start arg : Nat} (hp : Paged k)
    (hc : k.kins cur = some c) (h : threadCreate k cur thread start arg = .ok (r, k')) :
    Effect k cur c (.threadCreate thread start arg) k' := by
  rw [threadCreate] at h
  obtain ⟨⟨o, k₁⟩, h₁, h⟩ := bind_ok.mp h
  -- the thread table is set up first, whatever comes of it
  have hk₀ : (k.set cur Proc.initThreads).kins = update k.kins cur
      (some { c with threads := some (c.threads.getD .none) }) := by
    rw [kins_set, initThreads_kin hc]
  have hst₀ : (k.set cur Proc.initThreads).stackPages = k.stackPages := stackPages_update hc hk₀ rfl
  have hc₀ : (k.set cur Proc.initThreads).kins cur =
      some { c with threads := some (c.threads.getD .none) } := by
    rw [hk₀, update_self]
  rcases allocproc_taken (hst₀ ▸ hp.own) h₁ with ⟨rfl, hs⟩ | ⟨np, p, rfl, ht⟩
  · cases h
    exact .barren (hs.kins.trans hk₀) hs.mem hs.freed hs.next
  have hne := ht.ne hc₀
  have hc₁ : k₁.kins cur = some { c with threads := some (c.threads.getD .none) } := by
    rw [← hc₀, Kernel.kins, ht.other hne, Kernel.kins]
  have hown : Vm.Own k₁.mem (insert p k.stackPages) := hst₀ ▸ ht.own
  obtain ⟨d, F, x, m, ok, hdir, hgiven, hmade, hw, hkins, hxd, hxp, hpid, hf, hn⟩ :=
    threadFinish_kin hown hne hc₁ (congrArg Proc.kin ht.self) rfl rfl h
  have hnew : k.kins np = none := by
    rw [← ht.new, hk₀, update_of_ne hne.symm]
  have hw₁ : Works k.stackPages (insert p k.stackPages) d (fun _ => True) k.mem k₁.mem :=
    .same hown (hst₀ ▸ ht.saves) ht.dirs ht.history
  have hw₂ := hgiven.works hown
  refine .threaded hnew (hst₀ ▸ ht.stack) hdir ht.free ht.dirs hown hgiven hmade hw
    (hkins.trans (funext fun t => ?_)) hxd hxp hpid
    ((hw₁.trans hw₂).trans (hw.works hw₂.own)) (hf.trans ht.freed)
    (Nat.lt_of_lt_of_le (Nat.lt_of_lt_of_eq (Nat.lt_succ_self _) ht.next.symm) hn)
  by_cases e : t = np
  · rw [e, update_self, update_self]
  rw [update_of_ne e, update_of_ne e]
  by_cases e' : t = cur
  · rw [e', update_self, update_self]
  · rw [update_of_ne e', update_of_ne e', Kernel.kins, ht.other e]
    exact (congrFun hk₀ t).trans (update_of_ne e' ..)

/-! ### exec -/

section

variable {S : Set Page} {d : Page} {m m' : Mem}

variable {sz : Nat}

theorem Sized.writes (h : Sized m d sz) (hw : Writes m m') : Sized m' d sz :=
  ⟨by rw [hw.dirs]; exact h.live, hw.full h.full, h.bare.congr (congrFun hw.dirs d), h.bound⟩

/-- `allocuvm` that succeeds leaves the directory with its new size. -/
theorem Sized.alloc {newsz r : Nat} (h : Sized m d sz) (ho : Vm.Own m S)
    (ha : Vm.allocuvm m d sz newsz = .ok (r, m')) (hr : r ≠ 0) : Sized m' d r := by
  have hal := Vm.allocuvm_spec ho ha
  have hb := hal.bare h.bare
  have hval := hal.value hr
  have hbound := h.bound
  rw [if_neg hr] at hb
  exact ⟨hal.works.self.trans h.live, hal.full hr h.full, hb, by omega⟩

theorem Sized.dir (h : Sized m d sz) : m.dirs d ≠ none := Option.ne_none_iff_isSome.mpr h.live

theorem Sized.allocates (h : Sized m d sz) (ho : Vm.Own m S) (newsz : Nat) :
    ∃ r m', Vm.allocuvm m d sz newsz = .ok (r, m') := by
  cases ha : Vm.allocuvm m d sz newsz with
  | error x => exact absurd (Vm.allocuvm_error ho h.bare ha).2 h.dir
  | ok r => exact ⟨r.1, r.2, rfl⟩

/-- The bytes of `d` below `sz` are those of `c`, which has nothing above. -/
structure Holds (m : Mem) (d : Page) (sz : Nat) (c : Nat → UInt8) : Prop where
  bytes : ∀ x, x / PGSIZE * PGSIZE < sz → m.byteAt d x = some (c x)
  zero : ∀ x, sz ≤ x → c x = 0

theorem byteAt_congr {x : Nat} (hm : Vm.Mapped m d (x / PGSIZE))
    (hp : m'.pte d (x / PGSIZE) = m.pte d (x / PGSIZE))
    (hd : ∀ p w u, m.pte d (x / PGSIZE) = some (.user p w u) → m'.data p = m.data p) :
    m'.byteAt d x = m.byteAt d x := by
  obtain ⟨p, w, u, h⟩ := Vm.mapped_iff.mp hm
  rw [Mem.byteAt, Mem.byteAt, hp, h]
  dsimp only
  rw [hd p w u h]

/-- The new pages of `allocuvm` are zero, and the old ones as they were. -/
theorem Holds.alloc {newsz r : Nat} {c : Nat → UInt8} (hc : Holds m d sz c) (h : Sized m d sz)
    (ho : Vm.Own m S) (ha : Vm.allocuvm m d sz newsz = .ok (r, m')) (hr : r ≠ 0) :
    Holds m' d r c := by
  have hal := Vm.allocuvm_spec ho ha
  have hval := hal.value hr
  refine ⟨fun x hx => ?_, fun x hx => hc.zero x (by omega)⟩
  by_cases hold : x / PGSIZE * PGSIZE < sz
  · rw [byteAt_congr (h.full _ hold) (hal.agree (.inl hold)) fun p w u hp =>
      (hal.takes hr p (ho.not_free hp)).2, hc.bytes x hold]
  · obtain ⟨p, hp, hzero⟩ := (hal.pages hr _ (Nat.le_of_not_lt hold) (by omega)).2
    rw [Mem.byteAt, hp, hc.zero x ((Nat.le_of_not_lt hold).trans (Nat.div_mul_le_self x PGSIZE))]
    dsimp only
    rw [hzero]

/-- What the `n` program headers from `off` on put in memory: each loadable segment its bytes of
the file, over what was there. -/
def image (f : File) : Nat → Nat → (Nat → UInt8) → Nat → UInt8
  | 0, _, c => c
  | n + 1, off, c =>
    match readExact f off 32 with
    | none => c
    | some ph => image f n ((off + 32) % 2 ^ 32) fun x =>
        if field ph 0 4 = 1 ∧ field ph 8 4 ≤ x ∧ x < field ph 8 4 + field ph 16 4 then
          f.data ((field ph 4 4 + (x - field ph 8 4)) % 2 ^ 32)
        else c x

/-- The program headers load one after the other, and leave no hole. -/
theorem loadSegs_spec (f : File) (n off : Nat) (ho : Vm.Own m S) (hsz : Sized m d sz) : ∃ o m', loadSegs d f n off sz m = .ok (o, m') ∧ Works S S d (· * PGSIZE < KERNBASE) m m' ∧
      ∀ sz', o = some sz' → Sized m' d sz' ∧
        ∀ c, Holds m d sz c → Holds m' d sz' (image f n off c) := by
  induction n generalizing off sz m with
  | zero =>
    refine ⟨_, _, rfl, .refl ho, ?_⟩
    rintro _ ⟨⟩
    exact ⟨hsz, fun _ hc => hc⟩
  | succ n ih =>
    rw [loadSegs]
    split
    · exact ⟨_, _, rfl, .refl ho, by rintro _ ⟨⟩⟩
    rename_i ph hph
    simp only [image, hph]
    split
    · rename_i hload
      simp only [show ¬ field ph 0 4 = 1 from hload, false_and, if_false]
      exact ih _ ho hsz
    rename_i hload
    split
    · exact ⟨_, _, rfl, .refl ho, by rintro _ ⟨⟩⟩
    rename_i hmem
    split
    · exact ⟨_, _, rfl, .refl ho, by rintro _ ⟨⟩⟩
    obtain ⟨sz₁, m₁, h₁⟩ := hsz.allocates ho (field ph 8 4 + field ph 20 4)
    have hal := Vm.allocuvm_spec ho h₁
    have hw : Works S S d (· * PGSIZE < KERNBASE) m m₁ := hal.works.mono fun _ hv => hv.2.2
    simp only [h₁, bind, Except.bind]
    split
    · exact ⟨_, _, rfl, hw, by rintro _ ⟨⟩⟩
    rename_i hne
    have hval := hal.value hne
    have hsz₁ := hsz.alloc ho h₁ hne
    split
    · exact ⟨_, _, rfl, hw, by rintro _ ⟨⟩⟩
    rename_i haddr
    obtain ⟨ok, m₂, h₂, hwr, hbytes⟩ := Vm.loaduvm_spec f (field ph 4 4) (field ph 16 4)
      (hw.own.apart d) (not_not.mp haddr) fun v hv => hsz₁.full v (by omega)
    have hw₂ := hw.trans (hwr.works hw.own)
    simp only [h₂]
    cases ok with
    | false => exact ⟨_, _, rfl, hw₂, by rintro _ ⟨⟩⟩
    | true =>
      obtain ⟨o, m', h', hw₃, hs⟩ := ih ((off + 32) % 2 ^ 32) hw₂.own (hsz₁.writes hwr)
      refine ⟨o, m', h', hw₂.trans hw₃, fun sz' ho' => ⟨(hs sz' ho').1, fun c hc => ?_⟩⟩
      have hc₁ := hc.alloc hsz ho h₁ hne
      refine (hs sz' ho').2 _ ⟨fun x hx => ?_, fun x hx => ?_⟩
      · rw [hbytes rfl, hc₁.bytes x hx]
        simp only [not_not.mp hload, true_and]
        split <;> rfl
      · rw [if_neg (by omega)]
        exact hc₁.zero x hx

theorem pushArgs_writes {args : List (List UInt8)} {sp : Nat} {ptrs : List Nat}
    {o : Option (Nat × List Nat)} (h : pushArgs d args sp ptrs m = .ok (o, m')) : Writes m m' := by
  induction args generalizing sp ptrs m with
  | nil =>
    cases h
    exact .refl _
  | cons a as ih =>
    rw [pushArgs] at h
    split at h
    · cases h
      exact .refl _
    obtain ⟨⟨ok, m₁⟩, h₁, h⟩ := bind_ok.mp h
    have hw := Vm.copyout_writes (by omega) h₁
    cases ok with
    | false =>
      cases h
      exact hw
    | true => exact hw.trans (ih h)

theorem pushStack_writes {argv : List (List UInt8)} {o : Option Nat}
    (h : pushStack d argv sz m = .ok (o, m')) : Writes m m' := by
  rw [pushStack] at h
  obtain ⟨⟨o₁, m₁⟩, h₁, h⟩ := bind_ok.mp h
  have hw := pushArgs_writes h₁
  cases o₁ with
  | none =>
    cases h
    exact hw
  | some r =>
    obtain ⟨⟨ok, m₂⟩, h₂, h⟩ := bind_ok.mp h
    have hw₂ := hw.trans (Vm.copyout_writes (Nat.mod_lt _ (by decide)) h₂)
    cases ok with
    | false | true =>
      cases h
      exact hw₂

/-- Rounding up the size to a page leaves no hole either. -/
theorem Sized.round (h : Sized m d sz) :
    Sized m d (Vm.pageUp sz * PGSIZE) ∧ Vm.pageUp sz * PGSIZE % 2 ^ 32 = Vm.pageUp sz * PGSIZE := by
  have hsz := h.bound
  have hup : sz ≤ Vm.pageUp sz * PGSIZE ∧ Vm.pageUp sz * PGSIZE ≤ KERNBASE := by
    unfold Vm.pageUp
    unfold KERNBASE at hsz ⊢
    unfold PGSIZE
    omega
  refine ⟨⟨h.live, fun v hv => ?_, h.bare.mono hup.1, hup.2⟩, Nat.mod_eq_of_lt ?_⟩
  · exact h.full v (Vm.lt_pageUp.mp (Nat.lt_of_mul_lt_mul_right hv))
  · exact Nat.lt_of_le_of_lt hup.2 (by decide)

/-- A stack page at the top, and a page below it that is not the user's. -/
structure Room (m : Mem) (d : Page) (sz : Nat) : Prop where
  aligned : sz % PGSIZE = 0
  two : 2 * PGSIZE ≤ sz
  guard : ∀ x, sz ≤ x + 2 * PGSIZE → x + PGSIZE < sz → m.userPage d x = none
  stack : ∀ x, sz ≤ x + PGSIZE → x < sz → m.userPage d x ≠ none

theorem stackPages_spec (ho : Vm.Own m S) (hsz : Sized m d sz) :
    ∃ o m', stackPages d sz m = .ok (o, m') ∧ Works S S d (· * PGSIZE < KERNBASE) m m' ∧
      ∀ top, o = some top → Sized m' d top ∧ Room m' d top ∧
        ∀ c, Holds m d sz c → ∀ x, x + 2 * PGSIZE < top → m'.byteAt d x = some (c x) := by
  obtain ⟨hround, hmod⟩ := hsz.round
  have hup {v : Nat} : v * PGSIZE < Vm.pageUp sz * PGSIZE → v * PGSIZE < sz := fun h =>
    Vm.lt_pageUp.mp (Nat.lt_of_mul_lt_mul_right h)
  have hbound := hround.bound
  have hle : sz ≤ Vm.pageUp sz * PGSIZE := Vm.pageUp_le.mp (Nat.le_refl _)
  rw [stackPages, hmod, Nat.mod_eq_of_lt (Nat.lt_of_le_of_lt (Nat.add_le_add_right hbound _)
    (by decide))]
  generalize Vm.pageUp sz = v at hround hup hbound hle
  obtain ⟨r, m₁, h₁⟩ := hround.allocates ho (v * PGSIZE + 2 * PGSIZE)
  have hal := Vm.allocuvm_spec ho h₁
  have hw : Works S S d (· * PGSIZE < KERNBASE) m m₁ := hal.works.mono fun _ hv => hv.2.2
  simp only [h₁, bind, Except.bind]
  split
  · exact ⟨none, m₁, rfl, hw, fun _ h => by cases h⟩
  rename_i hne
  have hval := hal.value hne
  obtain rfl : r = v * PGSIZE + 2 * PGSIZE := by omega
  have hsz₁ := hround.alloc ho h₁ hne
  obtain ⟨p, hp, -⟩ := (hal.pages hne v (Nat.le_refl _) (by unfold PGSIZE; omega)).2
  obtain ⟨q, hq, -⟩ := (hal.pages hne (v + 1) (by unfold PGSIZE; omega) (by unfold PGSIZE; omega)).2
  obtain ⟨m₂, h₂, hw₂, hp₂, hdata⟩ := Vm.clearpteu_spec hw.own hp
  rw [Nat.add_sub_cancel, Nat.mul_div_cancel v (by decide), h₂]
  have hbelow : v * PGSIZE < v * PGSIZE + 2 * PGSIZE := by unfold PGSIZE; omega
  refine ⟨_, _, rfl, hw.trans (hw₂.mono ?_), ?_⟩
  · rintro _ rfl
    omega
  rintro _ ⟨⟩
  refine ⟨⟨hw₂.self.trans hsz₁.live, fun v' hv => ?_, hw₂.bare (by rintro _ rfl; exact hbelow)
    hsz₁.bare, hsz₁.bound⟩, ⟨?_, Nat.le_add_left .., fun x h₁ h₂ => ?_,
      fun x h₁ h₂ => ?_⟩, fun c hc x hx => ?_⟩
  · by_cases e : v' = v
    · exact Vm.mapped_iff.mpr ⟨p, true, false, e ▸ hp₂⟩
    · rw [Vm.mapped_iff, hw₂.agree v' e]
      exact Vm.mapped_iff.mp (hsz₁.full v' hv)
  · rw [← Nat.add_mul, Nat.mul_mod_left]
  · have hx : x / PGSIZE = v := by unfold PGSIZE at h₁ h₂ ⊢; omega
    rw [Mem.userPage, hx, hp₂]
  · have hx : x / PGSIZE = v + 1 := by unfold PGSIZE at h₁ h₂ ⊢; omega
    rw [Mem.userPage, hx, hw₂.agree (v + 1) (Nat.succ_ne_self v), hq]
    exact fun h => by cases h
  · have hx : x / PGSIZE * PGSIZE < v * PGSIZE :=
      Nat.lt_of_le_of_lt (Nat.div_mul_le_self x PGSIZE) (by omega)
    have hc₁ : Holds m d (v * PGSIZE) c :=
      ⟨fun x hx => hc.bytes x (hup hx), fun x hx => hc.zero x (hle.trans hx)⟩
    have hx₁ := hx.trans hbelow
    rw [byteAt_congr (hsz₁.full _ hx₁) (hw₂.agree _ fun e => by rw [e] at hx; omega)
      fun _ _ _ _ => by rw [hdata], (hc₁.alloc hround ho h₁ hne).bytes x hx₁]

theorem buildStack_spec {argv : List (List UInt8)} {o : Option (Nat × Nat)}
    (ho : Vm.Own m S) (hsz : Sized m d sz) (h : buildStack d argv sz m = .ok (o, m')) :
    Works S S d (· * PGSIZE < KERNBASE) m m' ∧ ∀ sz' sp, o = some (sz', sp) → Sized m' d sz' := by
  rw [buildStack_eq] at h
  obtain ⟨o₁, m₁, h₁, hw, hs⟩ := stackPages_spec ho hsz
  rw [h₁] at h
  cases o₁ with
  | none =>
    cases h
    exact ⟨hw, by rintro _ _ ⟨⟩⟩
  | some top =>
    cases h₂ : pushStack d argv top m₁ with
    | error x =>
      simp only [bind, Except.bind, h₂] at h
      cases h
    | ok r =>
      simp only [bind, Except.bind, h₂] at h
      cases h
      have hwr := pushStack_writes h₂
      refine ⟨hw.trans (hwr.works hw.own), fun sz' sp e => ?_⟩
      obtain ⟨_, -, ⟨⟩⟩ := Option.map_eq_some_iff.mp e
      exact (hs _ rfl).1.writes hwr

/-- `exec` up to its commit builds an image without holes, or gives back all it took. -/
theorem buildImage_spec {file : Option File} {argv : List (List UInt8)} {o : Option Image}
    (ho : Vm.Own m S) (h : buildImage m file argv = .ok (o, m')) :
    (∃ im, o = some im ∧ Built S im.pgdir m m' ∧ Sized m' im.pgdir im.sz) ∨
      o = none ∧ Unbuilt S m m' := by
  rw [buildImage] at h
  split at h
  · cases h
    exact .inr ⟨rfl, .refl ho⟩
  split at h
  · cases h
    exact .inr ⟨rfl, .refl ho⟩
  obtain ⟨⟨o₁, m₁⟩, h₁, h⟩ := bind_ok.mp h
  obtain ⟨_, _, hs, hspec⟩ := Vm.setupkvm_spec ho
  cases hs.symm.trans h₁
  rcases hspec with ⟨d, rfl, hb, hbare, -⟩ | ⟨rfl, hu⟩
  · obtain ⟨⟨o₃, m₃⟩, h₃, h⟩ := bind_ok.mp h
    have hempty : Sized m₁ d 0 := ⟨hb.self, fun v hv => absurd hv (Nat.not_lt_zero _), hbare,
      Nat.zero_le _⟩
    obtain ⟨_, _, h₃', hw₃, hs₃⟩ := loadSegs_spec _ _ _ hb.own hempty
    cases h₃'.symm.trans h₃
    cases o₃ with
    | none =>
      obtain ⟨_, h₀, h⟩ := bind_ok.mp h
      cases h₀
      obtain ⟨m₄, h₄, h⟩ := bind_ok.mp h
      cases h
      exact .inr ⟨rfl, (hb.works hw₃ fun _ => id).freevm ho h₄⟩
    | some sz =>
      obtain ⟨⟨built, m₂⟩, h₂, h⟩ := bind_ok.mp h
      obtain ⟨hw₄, hs₄⟩ := buildStack_spec hw₃.own (hs₃ sz rfl).1 h₂
      have hb₂ := hb.works (hw₃.trans hw₄) fun _ => id
      cases built with
      | some r =>
        cases h
        exact .inl ⟨_, rfl, hb₂.toBuilt, hs₄ r.1 r.2 rfl⟩
      | none =>
        obtain ⟨m₄, h₄, h⟩ := bind_ok.mp h
        cases h
        exact .inr ⟨rfl, hb₂.freevm ho h₄⟩
  · cases h
    exact .inr ⟨rfl, hu⟩

end

theorem kin_setImage (hc : p.kin = some c) (name : String) (d : Option Page) (sz : Nat)
    (tf : Trapframe) : ({ p with name := name, pgdir := d, sz := sz, tf := tf } : Proc).kin =
      some { c with pgdir := d, sz := sz } := by
  obtain ⟨st, hst, rfl⟩ := Option.map_eq_some_iff.mp hc
  simp only [Proc.kin, Proc.kinAt, hst, Option.map_some]

theorem exec_effect {path : String} {file : Option File} {argv : List (List UInt8)}
    (hp : Paged k) (hc : k.kins cur = some c) (h : exec k cur path file argv = .ok (r, k')) :
    Effect k cur c (.exec path file argv) k' := by
  rw [exec] at h
  obtain ⟨k₁, h₁, h⟩ := bind_ok.mp h
  obtain ⟨⟨o, m⟩, h₂, h⟩ := bind_ok.mp h
  have hs := execKill_still h₁
  have hst : k₁.stackPages = k.stackPages := by rw [Kernel.stackPages, hs.kins]; rfl
  have hown : Vm.Own k₁.mem k.stackPages := hs.mem ▸ hp.own
  have hc₁ : k₁.kins cur = some c := hs.kins ▸ hc
  rcases buildImage_spec hown h₂ with ⟨im, rfl, hb, hsz⟩ | ⟨rfl, hu⟩
  · obtain ⟨k₂, h₃, h⟩ := bind_ok.mp h
    cases h
    rw [execCommit] at h₃
    have hkins : ((k₁.setMem m).set cur fun p =>
        { p with
          name := baseName path
          pgdir := some im.pgdir
          sz := im.sz
          tf := { p.tf with eip := im.entry, esp := im.esp } }).kins =
        update k.kins cur (some { c with pgdir := some im.pgdir, sz := im.sz }) := by
      rw [kins_set, setMem_kins, hs.kins]
      congr 1
      exact kin_setImage hc₁ _ _ _ _
    have hth : (k₁.ptable cur).isthread = c.isthread := kin_isthread hc₁
    have hf₁ : (k₁.setMem m).freed = k.freed := (setMem_freed_built hb).trans hs.freed
    simp only [Kernel.set_ptable, update_self, Kernel.setMem_ptable] at h₃
    split at h₃
    · rename_i ht
      cases h₃
      exact .left (hth ▸ ht) hkins (hs.mem ▸ hb) hsz hf₁ hs.next
    rename_i ht
    split at h₃
    · cases h₃
    rename_i d₀ hd₀
    obtain ⟨m₂, h₄, h₃⟩ := bind_ok.mp h₃
    have hk' := (Except.ok.inj h₃).symm
    have hg := (Vm.freevm_gone hb.own h₄).1
    rw [hk']
    refine .replaced (by rw [← hth]; simpa using ht)
      ((kin_pgdir hc₁).symm.trans hd₀) hkins (hs.mem ▸ hb) hsz hg ?_ hs.next
    rw [setMem_freed_gone (S := k.stackPages) hg]
    simp only [set_freed, hf₁]
    rfl
  · cases h
    refine .gaveUp hs.kins (show Unbuilt k.stackPages k.mem m from hs.mem ▸ hu) ?_ hs.next
    rcases setMem_freed_unbuilt hu with hf | ⟨d, hd, hf⟩
    · exact .inl (hf.trans hs.freed)
    · refine .inr ⟨d, k₁.holders d, hs.mem ▸ hd, by rw [hf, hs.freed], fun t ht => .inl ?_⟩
      obtain ⟨x, hx, hrest⟩ := mem_holders.mp ht
      exact mem_holders.mpr ⟨x, hs.kins ▸ hx, hrest⟩

/-! ### sbrk -/

theorem kin_setSz (hc : p.kin = some c) (sz : Nat) :
    ({ p with sz := sz } : Proc).kin = some { c with sz := sz } := by
  obtain ⟨st, hst, rfl⟩ := Option.map_eq_some_iff.mp hc
  simp only [Proc.kin, Proc.kinAt, hst, Option.map_some]

theorem uadd_nonneg {a : Nat} {n : Int} (h₀ : 0 ≤ a + n) (h : (a : Int) + n < 2 ^ 32) :
    (uadd a n : Int) = a + n := by
  rw [uadd, Int.emod_eq_of_lt h₀ h]
  exact Int.toNat_of_nonneg h₀

/-- Below zero an `int` sum is as large as a `uint`. -/
theorem uadd_neg {a : Nat} {n : Int} (h₀ : (a : Int) + n < 0) (h : -2 ^ 31 ≤ n) :
    KERNBASE ≤ uadd a n := by
  have hmod : ((a : Int) + n) % 2 ^ 32 = a + n + 2 ^ 32 := by
    rw [← Int.add_emod_right, Int.emod_eq_of_lt] <;> omega
  rw [uadd, hmod]
  unfold KERNBASE
  omega

theorem growproc_effect {n : BitVec 32} (hp : Paged k) (hc : k.kins cur = some c)
    (hth : c.isthread = false) (h : growproc k cur n.toInt = .ok (r, k')) :
    Effect k cur c (.sbrk n) k' := by
  rw [growproc] at h
  obtain ⟨d, hd, h⟩ := bind_ok.mp h
  have hdir := pgdirOf_kin hc hd
  rw [kin_sz hc] at h
  have hsame : k.kins = update k.kins cur (some { c with sz := c.sz }) := by
    rw [← update_eq_self cur k.kins, hc]
    exact (Function.update_idem ..).symm
  -- both ways `growproc` keeps the size where it has failed
  have hset : ∀ {sz : Nat} {m : Mem}, Resized d k.mem c.sz n.toInt (if sz = 0 then c.sz else sz) m →
      Works k.stackPages k.stackPages d (fun _ => True) k.mem m →
      (if sz = 0 then .ok (-1, k.setMem m)
        else .ok (0, (k.setMem m).set cur ({ · with sz := sz })) : Except Stop (Int × Kernel)) =
          .ok (r, k') → Effect k cur c (.sbrk n) k' := by
    intro sz m hsize hw h
    split at h
    · rename_i hz
      cases h
      rw [if_pos hz] at hsize
      exact .resized hth hdir hsame hsize hw (setMem_freed_same hw.history) (Nat.le_refl _)
    · rename_i hne
      cases h
      rw [if_neg hne] at hsize
      refine .resized hth hdir ?_ hsize hw (setMem_freed_same hw.history) (Nat.le_refl _)
      rw [kins_set, setMem_kins]
      congr 1
      exact kin_setSz hc sz
  split at h
  · rename_i hpos
    obtain ⟨⟨sz, m⟩, h₁, h⟩ := bind_ok.mp h
    exact hset (.grown hpos h₁) ((Vm.allocuvm_spec hp.own h₁).works.mono fun _ _ => trivial) h
  split at h
  · rename_i hneg
    obtain ⟨⟨sz, m⟩, h₁, h⟩ := bind_ok.mp h
    exact hset (.shrunk hneg h₁) ((Vm.deallocuvm_works hp.own h₁).1.mono fun _ _ => trivial) h
  · cases h
    exact .resized hth hdir hsame (.same (by omega)) (.refl hp.own) rfl (Nat.le_refl _)

/-! ### Every call -/

/-- A process on a CPU is alive. -/
theorem running_kin (hrun : (k.ptable cur).state = .running) :
    ∃ c, k.kins cur = some c ∧ c.stage = .alive :=
  ⟨_, kin_of_state (show (k.ptable cur).state.stage = some .alive by rw [hrun]; rfl), rfl⟩

/-- **Every system call has one of the effects.** -/
theorem call_effect {e : Call} {o : Outcome} (hp : Paged k)
    (hrun : (k.ptable cur).state = .running) (hc : k.kins cur = some c)
    (h : call k cur e = .ok (o, k')) : Effect k cur c e k' := by
  have halive : (k.ptable cur).state.stage = some .alive := by rw [hrun]; rfl
  have ha : c.stage = .alive := by
    rw [(kin_some hc).1] at halive
    exact Option.some.inj halive
  cases e with
  | fork =>
    obtain ⟨r, h₁, h⟩ := bind_ok.mp h
    cases h
    exact fork_effect hp hc h₁
  | exit =>
    obtain ⟨r, h₁, h⟩ := bind_ok.mp h
    cases h
    exact exit_effect hc h₁
  | exitVisit s =>
    obtain ⟨r, h₁, h⟩ := bind_ok.mp h
    cases h
    exact exitVisit_effect hp hc ha h₁
  | wait =>
    obtain ⟨r, h₁, h⟩ := bind_ok.mp h
    cases h
    exact wait_effect hp hrun h₁
  | threadCreate thread start arg =>
    obtain ⟨r, h₁, h⟩ := bind_ok.mp h
    cases h
    exact threadCreate_effect hp hc h₁
  | threadExit v =>
    obtain ⟨r, h₁, h⟩ := bind_ok.mp h
    cases h
    exact threadExit_effect hc h₁
  | threadJoin t retval =>
    obtain ⟨r, h₁, h⟩ := bind_ok.mp h
    cases h
    rcases joinCall_cases hp hc ha h₁ with ⟨-, hs⟩ | ⟨s, x, hj, hpid, -⟩
    · exact hs.quiet
    · exact .joined (.inl ⟨t, retval, rfl, hpid⟩) hj
  | setCpuShare i =>
    cases h
    exact (setCpuShare_still k cur _).quiet
  | sbrk n =>
    obtain ⟨⟨r, k₁⟩, h₁, h⟩ := bind_ok.mp h
    cases h
    rw [sbrk] at h₁
    simp only [kin_isthread hc] at h₁
    split at h₁
    · rename_i hth
      cases h₁
      refine .moved hth ?_ rfl rfl (Nat.le_refl _)
      rw [kins_set, kin_sz hc, kin_setSz hc]
    · rename_i hth
      obtain ⟨⟨r₂, k₂⟩, h₂, h₁⟩ := bind_ok.mp h₁
      cases h₁
      exact growproc_effect hp hc (by simpa using hth) h₂
  | exec path file argv =>
    obtain ⟨r, h₁, h⟩ := bind_ok.mp h
    cases h
    exact exec_effect hp hc h₁
  | kill pid =>
    obtain ⟨r, h₁, h⟩ := bind_ok.mp h
    cases h
    exact (kill_still h₁).quiet
  | sleep n =>
    obtain ⟨-, -, h⟩ := bind_ok.mp h
    cases h
    have hs : Still k (sleep k cur (.other n)) := set_alive_still halive rfl rfl
    exact hs.quiet
  | wakeup n =>
    obtain ⟨-, -, h⟩ := bind_ok.mp h
    cases h
    exact (wakeup1_still k _).quiet
  | yield =>
    obtain ⟨-, -, h⟩ := bind_ok.mp h
    cases h
    have hs : Still k (yield k cur) := set_alive_still halive rfl rfl
    exact hs.quiet

theorem dispatch_still (h : MayRun k s) : Still k (k.set s ({ · with state := .running })) := by
  refine set_alive_still ?_ rfl rfl
  rcases h with h | ⟨-, h | h⟩ <;> rw [h] <;> rfl

end

end Xv6.Kern
