import Xv6.Proc.Join

/-!
# Proc — the words that pass through the thread calls (`prac_syscall.c`)

`sys_thread_create`, `sys_thread_exit` and `sys_thread_join` over the calls they wrap.  The argument of
a new thread and the value of an ending one are any words to the caller, but the wrappers fetch them
with `argptr`, which rejects a word that is no address of the process (`Accepted`).

* `thread_words`: in every state that calls and user code can reach, a word is passed on exactly when
  `argptr` accepts it.  Then the new thread has it as its first argument; a thread that ends does not
  come back; and the `thread_join` of its mother stores the value.
* `thread_exit_returns`: with a word that is not accepted `thread_exit` comes back to the thread.
-/

namespace Xv6.Kern

open Function (update_self update_of_ne)
open Support (Run bind_ok update_some)
open Vm (Page Mem Apart Stored)

/-! ### The wrappers -/

def sysThreadCreate (k : Kernel) (cur : Slot) : Except Stop (Int × Kernel) := do
  match ← argptr k cur 0 4 with
  | none => .ok (-1, k)
  | some thread =>
    match ← argptr k cur 1 4 with
    | none => .ok (-1, k)
    | some start =>
      match ← argptr k cur 2 4 with
      | none => .ok (-1, k)
      | some arg => threadCreate k cur thread start arg

/-- `none` when it does not return. -/
def sysThreadExit (k : Kernel) (cur : Slot) : Except Stop (Option Int × Kernel) := do
  match ← argptr k cur 0 4 with
  | none => .ok (some (-1), k)
  | some retval => do
    let k ← threadExit k cur retval
    .ok (none, k)

/-- `none` when it goes to sleep. -/
def sysThreadJoin (k : Kernel) (cur : Slot) : Except Stop (Option Int × Kernel) := do
  match ← argint k cur 0 with
  | none => .ok (some (-1), k)
  | some thread =>
    match ← argptr k cur 1 4 with
    | none => .ok (some (-1), k)
    | some retval => do
      let (r, k) ← joinCall k cur (BitVec.ofNat 32 thread).toInt retval
      .ok (r.map fun _ => 0, k)

/-! ### Loads and stores -/

section

variable {m m' : Mem} {d : Page} {va : Nat} {bs : List UInt8}

theorem peek_byteAt {b : UInt8} (h : m.byteAt d va = some b) : peek m d va = .ok b := by
  rw [Vm.Mem.byteAt] at h
  cases hp : m.pte d (va / PGSIZE) with
  | none =>
    rw [hp] at h
    cases h
  | some e =>
    obtain ⟨D, hD, he⟩ := Option.bind_eq_some_iff.mp hp
    rw [hp] at h
    simp only [peek, Vm.Mem.dir, hD, bind, Except.bind, he]
    cases e with
    | kern => cases h
    | user p w u =>
      cases h
      rfl

/-- The addresses after the first. -/
theorem next_address (va i : Nat) : ((va + 1) % 2 ^ 32 + i) % 2 ^ 32 = (va + (i + 1)) % 2 ^ 32 := by
  omega

theorem peekBytes_ok (hva : va < 2 ^ 32)
    (h : ∀ i (hi : i < bs.length), m.byteAt d ((va + i) % 2 ^ 32) = some bs[i]) :
    peekBytes m d bs.length va = .ok bs := by
  induction bs generalizing va with
  | nil => rfl
  | cons b bs ih =>
    have hb := h 0 (Nat.succ_pos _)
    rw [Nat.add_zero, Nat.mod_eq_of_lt hva] at hb
    have hrest := ih (Nat.mod_lt (va + 1) (by decide)) fun i hi => by
      rw [next_address]
      exact h (i + 1) (Nat.succ_lt_succ hi)
    rw [List.length_cons, peekBytes, peek_byteAt hb]
    simp only [bind, Except.bind, hrest]
    rfl

/-- The page the kernel writes to through a user pointer. -/
def writePage (m : Mem) (d : Page) (va : Nat) : Option Page :=
  match m.pte d (va / PGSIZE) with
  | some (.user p true _) => some p
  | _ => none

theorem poke_copied (hva : va < 2 ^ 32) (h : poke m d va bs = .ok m') :
    Vm.Copied (writePage m d) va bs bs.length m m' := by
  induction bs generalizing m va with
  | nil =>
    cases h
    exact .zero ..
  | cons b bs ih =>
    rw [poke] at h
    obtain ⟨D, hD, h⟩ := bind_ok.mp h
    split at h
    · rename_i p u hp
      have hpage : writePage m d va = some p := by
        rw [writePage, Vm.pte_of_dir (Vm.dir_ok.mp hD), hp]
      exact .cons hva hpage (ih (Nat.mod_lt _ (by decide)) h)
    · cases h

/-- A store by the kernel through a user pointer. -/
theorem poke_stored (ha : Apart m d) (hva : va < 2 ^ 32) (hlen : bs.length ≤ 2 ^ 32)
    (h : poke m d va bs = .ok m') : Stored d va bs m m' := by
  refine (poke_copied hva h).stored ha hlen fun x q hq => ?_
  rw [writePage] at hq
  split at hq
  · rename_i p u hp
    cases hq
    exact ⟨true, u, hp⟩
  · cases hq

/-- It does not fail where the pages are there and may be written to. -/
theorem poke_ok (h : ∀ i < bs.length, ∃ p u,
    m.pte d ((va + i) % 2 ^ 32 / PGSIZE) = some (.user p true u)) (hva : va < 2 ^ 32) :
    ∃ m', poke m d va bs = .ok m' := by
  induction bs generalizing m va with
  | nil => exact ⟨m, rfl⟩
  | cons b bs ih =>
    obtain ⟨p, u, hp⟩ := h 0 (Nat.succ_pos _)
    rw [Nat.add_zero, Nat.mod_eq_of_lt hva] at hp
    obtain ⟨D, hD, he⟩ := Option.bind_eq_some_iff.mp hp
    have hrest : ∃ m', poke (m.put p (va % PGSIZE) [b]) d ((va + 1) % 2 ^ 32) bs = .ok m' := by
      refine ih (fun i hi => ?_) (Nat.mod_lt _ (by decide))
      rw [next_address]
      exact h (i + 1) (Nat.succ_lt_succ hi)
    rw [poke, Vm.dir_ok.mpr hD]
    simp only [bind, Except.bind, he]
    exact hrest

theorem wordOf_wordBytes {w : Nat} (hw : w < 2 ^ 32) : wordOf (Vm.wordBytes w) = w := by
  have h : Vm.wordBytes w = [UInt8.ofNat w, UInt8.ofNat (w / 256), UInt8.ofNat (w / 65536),
      UInt8.ofNat (w / 16777216)] := by
    simp [Vm.wordBytes, List.range_succ]
  rw [h]
  simp only [wordOf, List.foldr_cons, List.foldr_nil, UInt8.toNat_ofNat']
  omega

theorem wordBytes_length (w : Nat) : (Vm.wordBytes w).length = 4 := by
  simp [Vm.wordBytes]

theorem peekWord_ok {w : Nat} (hva : va < 2 ^ 32) (h : ∀ i (hi : i < (Vm.wordBytes w).length),
    m.byteAt d ((va + i) % 2 ^ 32) = some (Vm.wordBytes w)[i]) :
    peekBytes m d 4 va = .ok (Vm.wordBytes w) := by
  rw [← peekBytes_ok hva h, wordBytes_length]

end

/-! ### Arguments -/

/-- The test of `argptr` for a pointer to a word, in a process of size `sz`. -/
def Accepted (sz a : Nat) : Prop := a < sz ∧ (a + 4) % 2 ^ 32 ≤ sz

instance (sz a : Nat) : Decidable (Accepted sz a) := inferInstanceAs (Decidable (_ ∧ _))

/-- The word at the user address. -/
def UserWord (k : Kernel) (s : Slot) (va w : Nat) : Prop :=
  ∃ d, (k.ptable s).pgdir = some d ∧ peekBytes k.mem d 4 va = .ok (Vm.wordBytes w)

instance (k : Kernel) (s : Slot) (va w : Nat) : Decidable (UserWord k s va w) :=
  decidable_of_iff ((k.ptable s).pgdir.any fun d =>
      decide ((peekBytes k.mem d 4 va).toOption = some (Vm.wordBytes w))) <| by
    simp only [Option.any_eq_true, decide_eq_true_eq, Support.toOption_eq_some, UserWord]

/-- The process has the words on its stack, as the arguments of a call. -/
def Asks (k : Kernel) (s : Slot) (ws : List Nat) : Prop :=
  ∀ i w, ws[i]? = some w → w < 2 ^ 32 ∧
    Accepted (k.ptable s).sz (((k.ptable s).tf.esp + 4 + 4 * i) % 2 ^ 32) ∧
    UserWord k s (((k.ptable s).tf.esp + 4 + 4 * i) % 2 ^ 32) w

instance (k : Kernel) (s : Slot) (ws : List Nat) : Decidable (Asks k s ws) :=
  decidable_of_iff (∀ i : Fin ws.length, ws[i] < 2 ^ 32 ∧
      Accepted (k.ptable s).sz (((k.ptable s).tf.esp + 4 + 4 * i) % 2 ^ 32) ∧
      UserWord k s (((k.ptable s).tf.esp + 4 + 4 * i) % 2 ^ 32) ws[i]) <| by
    constructor
    · intro h i w hw
      obtain ⟨hi, rfl⟩ := List.getElem?_eq_some_iff.mp hw
      exact h ⟨i, hi⟩
    · exact fun h i => h i _ (List.getElem?_eq_getElem i.isLt)

section

variable {k k' : Kernel} {cur s : Slot} {ws : List Nat} {i w : Nat}

theorem Asks.argint (h : Asks k s ws) (hi : ws[i]? = some w) : argint k s i = .ok (some w) := by
  obtain ⟨hw, ⟨hlt, hle⟩, d, hd, hpeek⟩ := h i w hi
  have hdir : pgdirOf k s = .ok d := by rw [pgdirOf, hd]
  rw [Kern.argint, fetchint, if_neg (by omega), hdir]
  simp only [bind, Except.bind, hpeek, wordOf_wordBytes hw]

/-- `argptr` passes a word on where it accepts it. -/
theorem Asks.argptr (h : Asks k s ws) (hi : ws[i]? = some w) :
    argptr k s i 4 = .ok (if Accepted (k.ptable s).sz w then some w else none) := by
  have htest : ((4 : Int) < 0 ∨ (k.ptable s).sz ≤ w ∨
      (k.ptable s).sz < (w + (4 : Int).toNat) % 2 ^ 32) ↔ ¬ Accepted (k.ptable s).sz w := by
    rw [Accepted, not_and_or, not_lt, not_le]
    exact or_iff_right (by decide)
  rw [Kern.argptr, h.argint hi]
  simp only [bind, Except.bind, htest]
  by_cases ha : Accepted (k.ptable s).sz w
  · rw [if_pos ha, if_neg (not_not.mpr ha)]
  · rw [if_neg ha, if_pos ha]

/-- `sys_thread_create` with two good pointers. -/
theorem sysThreadCreate_eq {thread start a : Nat} (h : Asks k cur [thread, start, a])
    (ht : Accepted (k.ptable cur).sz thread) (hs : Accepted (k.ptable cur).sz start) :
    sysThreadCreate k cur = if Accepted (k.ptable cur).sz a then threadCreate k cur thread start a
      else .ok (-1, k) := by
  have h₀ := h.argptr (i := 0) rfl
  have h₁ := h.argptr (i := 1) rfl
  have h₂ := h.argptr (i := 2) rfl
  rw [if_pos ht] at h₀
  rw [if_pos hs] at h₁
  simp only [sysThreadCreate, h₀, h₁, h₂, bind, Except.bind]
  by_cases ha : Accepted (k.ptable cur).sz a
  · simp only [if_pos ha]
  · simp only [if_neg ha]

theorem sysThreadExit_eq {v : Nat} (h : Asks k cur [v]) :
    sysThreadExit k cur = if Accepted (k.ptable cur).sz v then (threadExit k cur v).map (none, ·)
      else .ok (some (-1), k) := by
  have h₀ := h.argptr (i := 0) rfl
  simp only [sysThreadExit, h₀, bind, Except.bind]
  by_cases ha : Accepted (k.ptable cur).sz v
  · simp only [if_pos ha]
    cases threadExit k cur v with
    | error e => rfl
    | ok k' => rfl
  · simp only [if_neg ha]

theorem sysThreadJoin_eq {thread retval : Nat} (h : Asks k cur [thread, retval])
    (hr : Accepted (k.ptable cur).sz retval) : sysThreadJoin k cur =
      (joinCall k cur (BitVec.ofNat 32 thread).toInt retval).map
        fun x => (x.1.map fun _ => 0, x.2) := by
  have h₀ := h.argint (i := 0) rfl
  have h₁ := h.argptr (i := 1) rfl
  rw [if_pos hr] at h₁
  simp only [sysThreadJoin, h₀, h₁, bind, Except.bind]
  cases joinCall k cur (BitVec.ofNat 32 thread).toInt retval with
  | error e => rfl
  | ok x => rfl

end

/-! ### The kernel and user code -/

/-- User code of a process stores bytes and moves its stack pointer. -/
def userStore (k : Kernel) (s : Slot) (esp va : Nat) (bs : List UInt8) : Except Stop Kernel := do
  let d ← pgdirOf k s
  let m ← poke k.mem d va bs
  .ok ((k.setMem m).set s fun p => { p with tf := { p.tf with esp } })

/-- A step of the kernel, or of user code between two calls. -/
inductive Act where
  | event (e : Event)
  | user (s : Slot) (esp va : Nat) (bs : List UInt8)

def act (k : Kernel) : Act → Option Kernel
  | .event e => step k e
  | .user s esp va bs =>
    if (k.ptable s).state = .running then (userStore k s esp va bs).toOption else none

/-- The kernel `k'` is reached from `k`. -/
def Reaches (k k' : Kernel) : Prop := Run (fun k a k' => act k a = some k') (fun _ _ => True) k k'

section

variable {k k' : Kernel} {s : Slot} {esp va : Nat} {bs : List UInt8} {a : Act}

theorem userStore_ok (h : userStore k s esp va bs = .ok k') :
    ∃ m, Vm.Writes k.mem m ∧ k' = (k.setMem m).set s fun p => { p with tf := { p.tf with esp } } := by
  rw [userStore] at h
  obtain ⟨d, -, h⟩ := bind_ok.mp h
  obtain ⟨m, hm, h⟩ := bind_ok.mp h
  cases h
  exact ⟨m, poke_writes hm, rfl⟩

/-- What any step does to kin and memory; a store of user code is what some calls do. -/
theorem act_effect (hp : Paged k) (h : act k a = some k') : Still k k' ∨
    ∃ cur c e, k.kins cur = some c ∧ c.stage = .alive ∧ Effect k cur c e k' := by
  cases a with
  | event e =>
    cases e with
    | dispatch s =>
      obtain ⟨hm, rfl⟩ := step_dispatch h
      exact .inl (dispatch_still hm)
    | call cur e =>
      obtain ⟨hrun, -, o, h⟩ := step_call h
      obtain ⟨c, hc, ha⟩ := running_kin hrun
      exact .inr ⟨cur, c, e, hc, ha, call_effect hp hrun hc h⟩
  | user s esp va bs =>
    rw [act] at h
    split at h
    · rename_i hrun
      obtain ⟨c, hc, ha⟩ := running_kin hrun
      obtain ⟨m, hw, rfl⟩ := userStore_ok (Support.toOption_eq_some.mp h)
      have hs : Still (k.setMem m) ((k.setMem m).set s fun p => { p with tf := { p.tf with esp } }) :=
        .update rfl rfl rfl rfl (Nat.le_refl _)
      exact .inr ⟨s, c, .yield, hc, ha, .quiet hs.kins hw (hs.freed.trans (setMem_freed_same hw.history))
        hs.next⟩
    · cases h

/-- What any step does to the cards. -/
theorem act_cards (h : act k a = some k') (q : Slot) :
    (∃ st, (k'.ptable q).card = { (k.ptable q).card with state := st }) ∨
      ∃ cur o e, Deal k cur o e q (k.ptable q).card (k'.ptable q).card := by
  cases a with
  | event e =>
    cases e with
    | dispatch s =>
      obtain ⟨-, rfl⟩ := step_dispatch h
      exact .inl ⟨_, dispatch_card k s q⟩
    | call cur e =>
      obtain ⟨-, -, o, h⟩ := step_call h
      exact .inr ⟨cur, o, e, call_cards h q⟩
  | user s esp va bs =>
    rw [act] at h
    split at h
    · obtain ⟨m, -, rfl⟩ := userStore_ok (Support.toOption_eq_some.mp h)
      have hs : SameCards (k.setMem m)
          ((k.setMem m).set s fun p => { p with tf := { p.tf with esp } }) := .update rfl rfl rfl
      exact .inl ⟨_, hs.card q⟩
    · cases h

/-- Every process has a kernel stack. -/
theorem Effect.kstack {cur : Slot} {c : Kin} {e : Call} (hc : k.kins cur = some c)
    (h : Effect k cur c e k') (hs : ∀ s x, k.kins s = some x → x.kstack ≠ none) (s : Slot) (x : Kin)
    (hx : k'.kins s = some x) : x.kstack ≠ none := by
  cases h.source hx with
  | same old => exact hs s x old
  | self _ kept => exact kept ▸ hs cur c hc
  | after old _ eq =>
    subst eq
    exact (hs s _ old :)
  | new _ _ _ kstack => exact kstack

/-- What holds in every kernel that is reached. -/
structure Regular (k : Kernel) : Prop where
  paged : Paged k
  lineage : Lineage k.kins k.nextpid
  kstack : ∀ s x, k.kins s = some x → x.kstack ≠ none
  num : ∀ q, (k.ptable q).threadNum = -1 ∨ ∃ i : Fin NTHREAD, (k.ptable q).threadNum = i.val

theorem Booted.regular (hb : Booted k) : Regular k := by
  refine ⟨hb.paged, hb.lineage, fun s x hx => ?_, fun q => .inr ⟨0, ?_⟩⟩
  · obtain ⟨pages, initcode, hnd, h⟩ := hb
    obtain ⟨d, p, -, hk, -⟩ := userinit_kin hnd h
    rw [hk] at hx
    rcases update_some hx with ⟨rfl, rfl⟩ | ⟨-, hx⟩
    · exact Option.some_ne_none _
    · cases hx
  · obtain ⟨hself, hother, -⟩ := hb.cards
    by_cases e : q = initproc
    · subst e
      exact congrArg Card.threadNum hself
    · exact congrArg Card.threadNum (hother q e)

theorem Regular.step (h : Regular k) (ha : act k a = some k') : Regular k' := by
  have hnum : ∀ q, (k'.ptable q).threadNum = -1 ∨
      ∃ i : Fin NTHREAD, (k'.ptable q).threadNum = i.val := by
    intro q
    rcases act_cards ha q with ⟨st, hc⟩ | ⟨cur, o, e, hd⟩
    · rw [show (k'.ptable q).threadNum = (k.ptable q).threadNum from congrArg Card.threadNum hc]
      exact h.num q
    generalize hy : (k'.ptable q).card = y at hd
    rw [show (k'.ptable q).threadNum = y.threadNum from congrArg Card.threadNum hy]
    cases hd with
    | kept hd => exact hd.threadNum ▸ h.num q
    | taken _ _ _ _ _ num =>
      rcases num with hn | hn
      · exact hn ▸ h.num q
      · exact .inr hn
    | reaped => exact h.num q
    | joined => exact .inl rfl
  rcases act_effect h.paged ha with hs | ⟨cur, c, e, hc, hal, he⟩
  · exact ⟨hs.paged h.paged, (hs.kins ▸ h.lineage).later hs.next, hs.kins ▸ h.kstack, hnum⟩
  · exact ⟨he.paged h.paged hc, he.lineage hc hal h.lineage, he.kstack hc h.kstack, hnum⟩

theorem Regular.reaches (h : Regular k) (r : Reaches k k') : Regular k' :=
  r.invariant h fun _ _ _ h _ ha => h.step ha

/-- A process that has ended stays so. -/
theorem Dead.reaches {pid v : Nat} (hk : Regular k) (h : Dead pid v k) (r : Reaches k k') :
    Dead pid v k' := by
  refine (r.invariant (I := fun k => Regular k ∧ Dead pid v k) ⟨hk, h⟩ ?_).2
  rintro k a k' ⟨hk, h⟩ - ha
  refine ⟨hk.step ha, ?_⟩
  rcases act_effect hk.paged ha with hs | ⟨cur, c, e, hc, hal, he⟩
  · exact ⟨h.1.trans_le hs.next, fun t x hx => h.2 t x (hs.kins ▸ hx)⟩
  · exact he.dead hc hal h

end

/-! ### The argument of a new thread -/

/-- The top of the stack that `thread_create` gives a slot of size `sz`: of the first entry of
`ex_thread` that is free, and where there is none the size the slot has. -/
def Proc.nextTop (c : Proc) (sz : Nat) : Nat :=
  match c.freeThread with
  | none => sz
  | some i =>
    if c.szThread i = 0 then
      let top := (c.stackBase i + 3 * PGSIZE) % 2 ^ 32
      ((if top < c.stackBase i then c.stackBase i else top) + (2 ^ 32 - PGSIZE)) % 2 ^ 32
    else c.szThread i

/-- The top of the stack that the next `thread_create` gives. -/
def Kernel.nextTop (k : Kernel) (cur : Slot) : Nat :=
  (k.ptable cur).initThreads.nextTop (k.freeSlot.elim 0 fun np => (k.ptable np).sz)

/-- A thread that runs `start` was made, with `a` as its first argument: the word above the return
address. -/
def Started (k : Kernel) (start a : Nat) (k' : Kernel) : Prop :=
  ∃ np, (k.ptable np).state = .unused ∧ (k'.ptable np).state = .runnable ∧
    (k'.ptable np).isthread = true ∧ (k'.ptable np).tf.eip = start ∧
    UserWord k' np (((k'.ptable np).tf.esp + 4) % 2 ^ 32) a

section

variable {k k' : Kernel} {cur np : Slot} {d : Page}

/-- What the loop of `thread_create` gives the new slot. -/
theorem giveStack_slot (hne : np ≠ cur) (h : giveStack k cur np d = .ok (true, k')) :
    ∃ n, k'.ptable np =
      { k.ptable np with sz := (k.ptable cur).nextTop (k.ptable np).sz, threadNum := n } := by
  rw [giveStack] at h
  rw [Proc.nextTop]
  cases hf : (k.ptable cur).freeThread with
  | none =>
    rw [hf] at h
    cases h
    exact ⟨_, rfl⟩
  | some i =>
    rw [hf] at h
    obtain ⟨⟨top, k₁⟩, h₁, h⟩ := bind_ok.mp h
    cases top with
    | none => cases h
    | some top =>
      cases h
      refine ⟨i.val, ?_⟩
      rw [Kernel.set_ptable, update_self, Kernel.set_ptable, update_of_ne hne]
      rw [stackTop] at h₁
      dsimp only at h₁ ⊢
      split at h₁
      · rename_i hz
        rw [if_pos hz]
        obtain ⟨-, -, h₁⟩ := bind_ok.mp h₁
        obtain ⟨⟨r, m⟩, hr, h₁⟩ := bind_ok.mp h₁
        dsimp only at h₁
        split at h₁
        · cases h₁
        rename_i hnz
        obtain ⟨htop, hk₁⟩ := Prod.mk.inj (Except.ok.inj h₁)
        rw [← Option.some.inj htop, ← hk₁]
        rcases Vm.allocuvm_value hr hnz with ⟨hlt, hval⟩ | ⟨hle, hval, -⟩
        · rw [if_pos hlt, hval]
          rfl
        · rw [if_neg (Nat.not_lt.mpr hle), hval]
          rfl
      · rename_i hz
        cases h₁
        rw [if_neg hz]

theorem allocproc_sz (h : allocproc k = .ok (some np, k')) (q : Slot) :
    (k'.ptable q).sz = (k.ptable q).sz ∧ (q ≠ np → k'.ptable q = k.ptable q) := by
  rcases allocproc_kin h with ⟨h, -⟩ | ⟨s, p, hs, -, -, -, -, -, ht⟩
  · cases h
  cases hs
  rw [ht]
  by_cases e : q = np
  · subst e
    rw [update_self]
    exact ⟨rfl, fun h => absurd rfl h⟩
  · rw [update_of_ne e]
    exact ⟨rfl, fun _ => rfl⟩

/-- What `copyFiles` leaves of the new slot, and of the memory. -/
theorem copyFiles_ok (h : copyFiles k cur np = .ok k') : k'.mem = k.mem ∧
    ∃ o w n, k'.ptable np = { k.ptable np with ofile := o, cwd := w, name := n } := by
  rw [copyFiles] at h
  obtain ⟨fref, -, h⟩ := bind_ok.mp h
  split at h
  · cases h
  · cases h
    exact ⟨rfl, _, _, _, update_self ..⟩

theorem stackWords_length (a : Nat) : ([0xffffffff, a, 0, a].flatMap Vm.wordBytes).length = 16 := by
  simp [wordBytes_length]

/-- The second word of the stack is the argument. -/
theorem stackWords_arg (a i : Nat) (h : i < (Vm.wordBytes a).length)
    (h' : 4 + i < ([0xffffffff, a, 0, a].flatMap Vm.wordBytes).length) :
    ([0xffffffff, a, 0, a].flatMap Vm.wordBytes)[4 + i] = (Vm.wordBytes a)[i] := by
  simp only [List.flatMap_cons]
  rw [List.getElem_append_right (by rw [wordBytes_length]; omega)]
  simp only [wordBytes_length, Nat.add_sub_cancel_left]
  exact List.getElem_append_left h

/-- The word of the argument is where the thread looks for it, unless `*thread` is stored there. -/
theorem threadFinish_word {thread start a : Nat} (hne : np ≠ cur) (ho : Vm.Own k'.mem k'.stackPages)
    (hthread : thread < 2 ^ 32) (hout : ∀ i < 4, ∀ j < 4, (thread + i) % 2 ^ 32 ≠
      ((k.ptable cur).nextTop (k.ptable np).sz + (2 ^ 32 - 12) + j) % 2 ^ 32)
    (h : threadFinish k cur np thread start a = .ok (0, k')) :
    (k'.ptable np).state = .runnable ∧ (k'.ptable np).isthread = true ∧
      (k'.ptable np).tf.eip = start ∧ UserWord k' np (((k'.ptable np).tf.esp + 4) % 2 ^ 32) a := by
  rw [threadFinish] at h
  obtain ⟨d, -, h⟩ := bind_ok.mp h
  obtain ⟨⟨ok, k₂⟩, h₂, h⟩ := bind_ok.mp h
  cases ok with
  | false => cases h
  | true =>
    obtain ⟨⟨ok, m⟩, hcopy, h⟩ := bind_ok.mp h
    cases ok with
    | false => cases h
    | true =>
      obtain ⟨m', hpoke, h⟩ := bind_ok.mp h
      obtain ⟨k₃, h₃, h⟩ := bind_ok.mp h
      obtain ⟨-, -, h⟩ := bind_ok.mp h
      obtain ⟨hmem, o, w, n, hnp⟩ := copyFiles_ok h₃
      obtain ⟨num, hslot⟩ := giveStack_slot hne h₂
      rw [Kernel.set_ptable, update_of_ne hne.symm, update_self] at hslot
      have hslot' : (k'.ptable np).state = .runnable ∧ (k'.ptable np).isthread = true ∧
          (k'.ptable np).tf = ⟨start, ((k₂.ptable np).sz + (2 ^ 32 - 16)) % 2 ^ 32, 0⟩ ∧
          (k'.ptable np).pgdir = some d ∧ k'.mem = m' := by
        cases h
        rw [Kernel.set_ptable, update_self, hnp, Kernel.set_ptable, update_self]
        refine ⟨rfl, rfl, rfl, ?_, hmem⟩
        exact congrArg Proc.pgdir hslot
      obtain ⟨hst, hth, htf, hdir, hm'⟩ := hslot'
      refine ⟨hst, hth, by rw [htf], d, hdir, ?_⟩
      rw [htf, hm']
      -- the stack is written, and then the word at `thread`, which lies elsewhere
      have ha : Apart m' d := hm' ▸ ho.apart d
      have hw := poke_writes hpoke
      have hs₂ := poke_stored (ha.congr hw.dirs.symm) hthread (by rw [wordBytes_length]; decide) hpoke
      have hs₁ := Vm.copyout_stored (ha.congr (hw.dirs.trans (Vm.copyout_writes (Nat.mod_lt _ (by decide)) hcopy).dirs).symm)
        (Nat.mod_lt _ (by decide)) (by rw [stackWords_length]; decide) hcopy
      refine peekWord_ok (Nat.mod_lt _ (by decide)) fun i hi => ?_
      have hsz : (k₂.ptable np).sz = (k.ptable cur).nextTop (k.ptable np).sz :=
        congrArg Proc.sz hslot
      dsimp only
      rw [wordBytes_length] at hi
      rw [show ((((k₂.ptable np).sz + (2 ^ 32 - 16)) % 2 ^ 32 + 4) % 2 ^ 32 + i) % 2 ^ 32 =
        (((k₂.ptable np).sz + (2 ^ 32 - 16)) % 2 ^ 32 + (4 + i)) % 2 ^ 32 by omega,
        hs₂.off _ fun j hj => ?_, hs₁.bytes (4 + i) (by rw [stackWords_length]; omega),
        stackWords_arg]
      have hne := hout j (by rwa [wordBytes_length] at hj) i hi
      rw [← hsz] at hne
      omega

theorem threadCreate_started {thread start a : Nat} (hk : Regular k)
    (hrun : (k.ptable cur).state = .running) (hthread : thread < 2 ^ 32)
    (hout : ∀ i < 4, ∀ j < 4, (thread + i) % 2 ^ 32 ≠ (k.nextTop cur + (2 ^ 32 - 12) + j) % 2 ^ 32)
    (h : threadCreate k cur thread start a = .ok (0, k')) : Started k start a k' := by
  have hcall : call k cur (.threadCreate thread start a) = .ok (.stays, k') := by
    rw [call, h]
    rfl
  obtain ⟨c, hc, -⟩ := running_kin hrun
  have hp' := (call_effect hk.paged hrun hc hcall).paged hk.paged hc
  rw [threadCreate] at h
  obtain ⟨⟨o, k₁⟩, h₁, h⟩ := bind_ok.mp h
  cases o with
  | none => cases h
  | some np =>
    have hnp : k.freeSlot = some np := by
      rcases allocproc_kin h₁ with ⟨h, -⟩ | ⟨s, p, hs, hfree, -⟩
      · cases h
      · rw [← freeSlot_initThreads k cur, hfree, hs]
    have hun : (k.ptable np).state = .unused := by
      rw [Kernel.freeSlot] at hnp
      simpa using List.find?_some hnp
    have hne : np ≠ cur := by
      rintro rfl
      rw [hun] at hrun
      cases hrun
    obtain ⟨hsz, -⟩ := allocproc_sz h₁ np
    have hcur := (allocproc_sz h₁ cur).2 hne.symm
    rw [Kernel.set_ptable, update_of_ne hne] at hsz
    rw [Kernel.set_ptable, update_self] at hcur
    refine ⟨np, hun, threadFinish_word hne hp'.own hthread ?_ h⟩
    rw [Kernel.nextTop, hnp] at hout
    rw [hcur, hsz]
    exact hout

end

/-! ### The value of a thread -/

section

variable {k k' : Kernel} {cur s : Slot} {v : Nat}

theorem clearEx_ne_error {n : Int} {e : Stop} (hn : n = -1 ∨ ∃ i : Fin NTHREAD, n = i.val)
    (p : Proc) : p.clearEx n ≠ .error e := by
  rw [Proc.clearEx]
  rcases hn with hn | ⟨i, hn⟩
  · rw [dif_neg (by omega), if_pos hn]
    exact fun h => by cases h
  · rw [dif_pos (by have := i.isLt; omega)]
    exact fun h => by cases h

/-- `thread_join` can free any zombie. -/
theorem Regular.joinReap_ok (hk : Regular k) (hz : (k.ptable s).state = .zombie) (cur : Slot) :
    ∃ k', joinReap k cur s = .ok k' := by
  have hx : k.kins s = some ((k.ptable s).kinAt .zombie) :=
    kin_of_state (show (k.ptable s).state.stage = some .zombie by rw [hz]; rfl)
  obtain ⟨p, hp⟩ := Option.ne_none_iff_exists'.mp (hk.kstack s _ hx)
  obtain ⟨use, ht, hS⟩ := hk.paged.own
  have hfree : p ∉ k.mem.freelist := (ht.idle_of_kept (hS p ⟨s, _, hx, hp⟩)).1
  rw [joinReap, kfreeStack, show (k.ptable s).kstack = some p from hp]
  simp only [Vm.kfree, if_neg hfree, bind, Except.bind]
  split
  · rename_i h
    refine absurd h (clearEx_ne_error ?_ _)
    rw [Kernel.set_ptable, update_self, Kernel.set_ptable, update_self]
    exact hk.num s
  · exact ⟨_, rfl⟩

/-- The mother of a thread that has ended with `v` joins it, and `v` is stored. -/
theorem Dead.joined {M t : Slot} {d : Page} {retval : Nat} (hk : Regular k)
    (hd : Dead (k.ptable t).pid v k) (hlock : k.locked = false)
    (hrun : (k.ptable M).state = .running) (ht : (k.ptable t).state ≠ .unused)
    (hpar : (k.ptable t).parent = some M) (hdir : (k.ptable M).pgdir = some d)
    (hret : retval < 2 ^ 32)
    (hpage : ∀ i < 4, ∃ p u, k.mem.pte d ((retval + i) % 2 ^ 32 / PGSIZE) = some (.user p true u)) :
    ∃ k', joinCall k M (k.ptable t).pid retval = .ok (some v, k') ∧ UserWord k' M retval v := by
  -- the scan finds a zombie, the thread or one with its pid
  have hzt : (k.ptable t).state = .zombie := by
    cases hx : k.kins t with
    | none => exact absurd (kin_eq_none.mp hx) ht
    | some x =>
      have hz := (hd.2 t x hx (kin_pid hx).symm).1
      have hst := (kin_some hx).1
      rw [hz] at hst
      cases h : (k.ptable t).state <;> rw [h] at hst <;> first | rfl | cases hst
  obtain ⟨s, hs⟩ : ∃ s, ((List.finRange NPROC).find? fun s => (k.ptable s).parent = some M ∧
      ((k.ptable s).pid : Int) = (k.ptable t).pid ∧ (k.ptable s).state = .zombie) = some s := by
    rw [← Option.isSome_iff_exists, List.find?_isSome]
    exact ⟨t, List.mem_finRange t, by simp [hpar, hzt]⟩
  have hf := List.find?_some hs
  simp only [decide_eq_true_eq] at hf
  obtain ⟨hsp, hspid, hsz⟩ := hf
  obtain ⟨k₁, h₁⟩ := hk.joinReap_ok hsz M
  obtain ⟨c, hc, ha⟩ := running_kin hrun
  have hj := joinReap_joined hk.paged hc ha hsp hsz h₁
  have hv : (k.ptable s).retVal = v := (hd.2 s _ hj.kin (Int.ofNat.inj hspid)).2
  have hdir₁ : (k₁.ptable M).pgdir = some d := by
    rw [kin_pgdir (x := { c with threads := c.threads.map (·.clear (k.ptable s).threadNum) })]
    · exact (kin_pgdir hc).symm.trans hdir
    · change k₁.kins M = _
      rw [hj.kins, update_self]
      rfl
  -- and the pages of the mother are as before
  have hpoke : ∃ m, poke k₁.mem d retval (Vm.wordBytes v) = .ok m := by
    refine poke_ok (fun i hi => ?_) hret
    rw [wordBytes_length] at hi
    rw [Mem.pte, hj.dirs]
    exact hpage i hi
  obtain ⟨m, hm⟩ := hpoke
  refine ⟨k₁.setMem m, ?_, d, hdir₁, peekWord_ok hret
    (poke_stored (hj.own.apart d) hret (by rw [wordBytes_length]; decide) hm).bytes⟩
  have hdirOf : pgdirOf k₁ M = .ok d := by rw [pgdirOf, hdir₁]
  have hjoin : threadJoin k M (k.ptable t).pid = .ok (some v, k₁) := by
    rw [threadJoin, acquire, hlock, hs, ← hv]
    simp only [bind, Except.bind, h₁]
    rfl
  rw [joinCall, hjoin]
  simp only [bind, Except.bind, hdirOf, hm]

end

/-- **The words of the thread calls.**  In every state that calls and user code reach: where
`thread_create` makes a thread, `sys_thread_create` makes one with the argument `a` exactly when `a` is
accepted; `sys_thread_exit` does not come back exactly when its value is accepted; and then the mother
that joins the thread gets the value, whatever happens in between. -/
theorem thread_words {k₀ k : Kernel} (hb : Booted k₀) (r : Reaches k₀ k) :
    (∀ cur thread start a k₁, (k.ptable cur).state = .running → Asks k cur [thread, start, a] →
      Accepted (k.ptable cur).sz thread → Accepted (k.ptable cur).sz start →
      (∀ i < 4, ∀ j < 4, (thread + i) % 2 ^ 32 ≠ (k.nextTop cur + (2 ^ 32 - 12) + j) % 2 ^ 32) →
      threadCreate k cur thread start a = .ok (0, k₁) →
      ((∃ k', sysThreadCreate k cur = .ok (0, k') ∧ Started k start a k') ↔
        Accepted (k.ptable cur).sz a)) ∧
    (∀ s v, Asks k s [v] →
      ((∀ n k', sysThreadExit k s ≠ .ok (some n, k')) ↔ Accepted (k.ptable s).sz v)) ∧
    ∀ s v k', (k.ptable s).state = .running → Asks k s [v] → sysThreadExit k s = .ok (none, k') →
      ∀ k₂ M t d thread retval, Reaches k' k₂ → k₂.locked = false →
        (k₂.ptable M).state = .running → (k₂.ptable M).pgdir = some d →
        Asks k₂ M [thread, retval] → (BitVec.ofNat 32 thread).toInt = (k.ptable s).pid →
        (k₂.ptable t).state ≠ .unused → (k₂.ptable t).pid = (k.ptable s).pid →
        (k₂.ptable t).parent = some M → Accepted (k₂.ptable M).sz retval →
        (∀ i < 4, ∃ p u, k₂.mem.pte d ((retval + i) % 2 ^ 32 / PGSIZE) = some (.user p true u)) →
        ∃ k₃, sysThreadJoin k₂ M = .ok (some 0, k₃) ∧ UserWord k₃ M retval v := by
  have hk := hb.regular.reaches r
  refine ⟨fun cur thread start a k₁ hrun hasks ht hs hout h₁ => ?_, fun s v hasks => ?_, ?_⟩
  · rw [sysThreadCreate_eq hasks ht hs]
    by_cases ha : Accepted (k.ptable cur).sz a
    · rw [if_pos ha]
      have hthread : thread < 2 ^ 32 := (hasks 0 thread rfl).1
      exact iff_of_true ⟨k₁, h₁, threadCreate_started hk hrun hthread hout h₁⟩ ha
    · rw [if_neg ha]
      refine iff_of_false ?_ ha
      rintro ⟨k', h, -⟩
      cases h
  · rw [sysThreadExit_eq hasks]
    by_cases hv : Accepted (k.ptable s).sz v
    · rw [if_pos hv]
      refine iff_of_true (fun n k' h => ?_) hv
      cases hx : threadExit k s v with
      | error e =>
        rw [hx] at h
        cases h
      | ok k' =>
        rw [hx] at h
        cases h
    · rw [if_neg hv]
      exact iff_of_false (fun h => h _ _ rfl) hv
  · intro s v k' hrun hasks hexit k₂ M t d thread retval r₂ hlock hM hdir hask₂ hpid ht htpid hpar hret
      hpage
    rw [sysThreadExit_eq hasks] at hexit
    split at hexit
    · cases hx : threadExit k s v with
      | error e =>
        rw [hx] at hexit
        cases hexit
      | ok k'' =>
        rw [hx] at hexit
        cases hexit
        have hstep : step k (.call s (.threadExit v)) = some k' := by
          rw [step, if_pos ⟨hrun, trivial⟩, call, hx]
          rfl
        have hk' : Regular k' := hk.step (a := .event (.call s (.threadExit v))) hstep
        have hdead := (threadExit_dead hk.lineage hstep).reaches hk' r₂
        rw [← htpid] at hdead
        obtain ⟨k₃, hj, hw⟩ := hdead.joined (hk'.reaches r₂) hlock hM ht hpar hdir
          (hask₂ 1 retval rfl).1 hpage
        refine ⟨k₃, ?_, hw⟩
        rw [sysThreadJoin_eq hask₂ hret, hpid, ← htpid, hj]
        rfl
    · cases hexit

/-- A run of calls and user code that can be computed. -/
theorem exists_reaches (n : Nat) (as : List Act) (P : Kernel → Prop)
    (h : ∃ k₀, userinit (.blank (List.range n)) [] = .ok k₀ ∧
      ∃ k, Support.exec act (fun _ _ => decide True) k₀ as = some k ∧ P k) :
    ∃ k₀ k, Booted k₀ ∧ Reaches k₀ k ∧ P k := by
  obtain ⟨k₀, hk, h⟩ := h
  exact ⟨k₀, (Support.exists_run act _ k₀ as P h).imp fun k hk' => ⟨⟨_, _, List.nodup_range, hk⟩, hk'⟩⟩

/-- Init is about to make a second thread with the argument 5; its first thread ends with the value 7,
and is joined. -/
theorem thread_words_seven : ∃ k₀ k, Booted k₀ ∧ Reaches k₀ k ∧
    (∃ k', sysThreadCreate k 0 = .ok (0, k') ∧ Started k 0 5 k') ∧
    ∃ k' k₂ k₃, sysThreadExit k 1 = .ok (none, k') ∧ Reaches k' k₂ ∧
      sysThreadJoin k₂ 0 = .ok (some 0, k₃) ∧ UserWord k₃ 0 256 7 := by
  obtain ⟨k₀, k, hb, r, ⟨hrun, hasks, ht, hs, ha, hout⟩, ⟨k₁, hk₁, -⟩, ⟨hrun₁, hask₁, hpid⟩,
      k', hk', h⟩ := exists_reaches 90
    [.event (.dispatch 0), .user 0 64 68 ([256, 0, 5].flatMap Vm.wordBytes),
      .event (.call 0 (.threadCreate 256 0 5)), .event (.dispatch 1),
      .user 1 12224 12228 (Vm.wordBytes 7)]
    (fun k => ((k.ptable 0).state = .running ∧ Asks k 0 [256, 0, 5] ∧
        Accepted (k.ptable 0).sz 256 ∧ Accepted (k.ptable 0).sz 0 ∧ Accepted (k.ptable 0).sz 5 ∧
        (∀ i < 4, ∀ j < 4, (256 + i) % 2 ^ 32 ≠ (k.nextTop 0 + (2 ^ 32 - 12) + j) % 2 ^ 32)) ∧
      (∃ k₁, threadCreate k 0 256 0 5 = .ok (0, k₁) ∧ True) ∧
      ((k.ptable 1).state = .running ∧ Asks k 1 [7] ∧ (k.ptable 1).pid = 2) ∧
      ∃ k', sysThreadExit k 1 = .ok (none, k') ∧
        ∃ k₂, Support.exec act (fun _ _ => decide True) k'
            [.user 0 64 68 ([2, 256].flatMap Vm.wordBytes)] = some k₂ ∧
          (k₂.locked = false ∧ (k₂.ptable 0).state = .running ∧
            Asks k₂ 0 [2, 256] ∧ (k₂.ptable 1).state ≠ .unused ∧ (k₂.ptable 1).pid = 2 ∧
            (k₂.ptable 1).parent = some 0 ∧ Accepted (k₂.ptable 0).sz 256) ∧
          ∃ d, (k₂.ptable 0).pgdir = some d ∧ (match k₂.mem.pte d 0 with
            | some (.user _ true _) => true
            | _ => false) = true)
    (by decide +kernel)
  obtain ⟨hcreate, hexit, hjoin⟩ := thread_words hb r
  obtain ⟨k₂, r₂, ⟨hlock, hM, hask₂, hu, hpid₂, hpar, hret⟩, d, hd, hp⟩ :=
    Support.exists_run act (fun _ _ => True) k' _ _ h
  refine ⟨k₀, k, hb, r, (hcreate 0 256 0 5 k₁ hrun hasks ht hs hout hk₁).mpr ha, k', k₂, ?_⟩
  have hpage : ∀ i < 4, ∃ p u, k₂.mem.pte d ((256 + i) % 2 ^ 32 / PGSIZE) = some (.user p true u) := by
    intro i hi
    rw [show (256 + i) % 2 ^ 32 / PGSIZE = 0 by rw [PGSIZE]; omega]
    split at hp
    · rename_i p u hpte
      exact ⟨p, u, hpte⟩
    · cases hp
  obtain ⟨k₃, hj, hw⟩ := hjoin 1 7 k' hrun₁ hask₁ hk' k₂ 0 1 d 2 256 r₂ hlock hM hd hask₂
    (by rw [hpid]; rfl) hu (hpid₂.trans hpid.symm) hpar hret hpage
  exact ⟨k₃, hk', r₂, hj, hw⟩

/-- A thread that ends with the value `-1` goes on, and its mother cannot pass `-1` to a new thread. -/
theorem thread_exit_returns : ∃ k₀ k, Booted k₀ ∧ Reaches k₀ k ∧ (k.ptable 1).isthread = true ∧
    Asks k 1 [0xffffffff] ∧ sysThreadExit k 1 = .ok (some (-1), k) ∧
    Asks k 0 [256, 0, 0xffffffff] ∧ sysThreadCreate k 0 = .ok (-1, k) := by
  obtain ⟨k₀, k, hb, r, hth, hask₁, hv, hasks, ht, hs, ha⟩ := exists_reaches 90
    [.event (.dispatch 0), .user 0 64 68 ([256, 0, 0xffffffff].flatMap Vm.wordBytes),
      .event (.call 0 (.threadCreate 256 0 5)), .event (.dispatch 1),
      .user 1 12224 12228 (Vm.wordBytes 0xffffffff)]
    (fun k => (k.ptable 1).isthread = true ∧ Asks k 1 [0xffffffff] ∧
      ¬Accepted (k.ptable 1).sz 0xffffffff ∧ Asks k 0 [256, 0, 0xffffffff] ∧
      Accepted (k.ptable 0).sz 256 ∧ Accepted (k.ptable 0).sz 0 ∧
      ¬Accepted (k.ptable 0).sz 0xffffffff) (by decide +kernel)
  refine ⟨k₀, k, hb, r, hth, hask₁, ?_, hasks, ?_⟩
  · rw [sysThreadExit_eq hask₁, if_neg hv]
  · rw [sysThreadCreate_eq hasks ht hs, if_neg ha]

end Xv6.Kern
