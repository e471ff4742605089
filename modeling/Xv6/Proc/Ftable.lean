import Xv6.Proc.System
import Xv6.Support.Table

/-!
# Proc — the file table (`file.c`, `sysfile.c`, `pipe.c`)

`open`, `dup`, `pipe` and `close`, beside the calls of `Proc.Calls` that copy and drop the
descriptors of a process as a whole, and the count of each file against the descriptors that name
it.

Between two functions of one call the kernel holds references of its own: `filealloc` makes one,
`fdalloc` gives it to the process, `fileclose` drops it.  `Counts l` says that the counts are right
with the references `l` in hand, and every function moves from one such list to another (`Takes`).

* `file_refs_counted`: as long as only a process without descriptors calls `thread_exit`, the count
  of a file is the number of descriptors that name it, and a free slot has none.
* `file_refs_leaked`: `thread_exit` closes nothing and `thread_join` frees the slot.

What a file is besides its count (`Kind`) is what `fileclose` reads of it.  The sleepers that
`pipeclose` wakes are woken by a step of their own (`Call.wakeup`).
-/

namespace Xv6.Kern

open Function (update update_self update_of_ne)
open Support (Run bind_ok total total_eq total_update)
open Vm (Page)

/-! ### file.c and pipe.c -/

/-- `f->type`, with the fields that belong to it. -/
inductive Kind where
  | none
  | pipe (p : Page) (writable : Bool)
  | inode (ip : Nat)

/-- The kernel with its file table.  The counts `f->ref` are in the kernel. -/
structure Ftable where
  kern : Kernel
  kind : Nat → Kind
  /-- `readopen` and `writeopen` of the pipe in a page -/
  ends : Page → Bool × Bool

namespace Ftable

def setRef (F : Ftable) (f n : Nat) : Ftable :=
  { F with kern := { F.kern with fref := update F.kern.fref f n } }

/-- `myproc()->ofile[fd] = f` -/
def setFd (F : Ftable) (cur : Slot) (fd : Fin NOFILE) (f : Option Nat) : Ftable :=
  { F with kern := F.kern.set cur fun p => { p with ofile := update p.ofile fd f } }

/-- A reference to the inode, as `namei` and `create` return one. -/
def iget (F : Ftable) (i : Nat) : Ftable :=
  { F with kern := { F.kern with iref := update F.kern.iref i (F.kern.iref i + 1) } }

def iput (F : Ftable) (i : Nat) : Ftable :=
  { F with kern := { F.kern with iref := update F.kern.iref i (F.kern.iref i - 1) } }

/-- `filealloc` -/
def filealloc (F : Ftable) : Option Nat × Ftable :=
  match (List.range NFILE).find? fun f => F.kern.fref f = 0 with
  | none => (none, F)
  | some f => (some f, F.setRef f 1)

/-- `filedup` -/
def filedup (F : Ftable) (f : Nat) : Except Stop Ftable :=
  if F.kern.fref f < 1 then .error (.panic "filedup") else .ok (F.setRef f (F.kern.fref f + 1))

/-- `pipeclose` -/
def pipeclose (F : Ftable) (p : Page) (writable : Bool) : Except Stop Ftable :=
  let ends := if writable then ((F.ends p).1, false) else (false, (F.ends p).2)
  let F := { F with ends := update F.ends p ends }
  if ends = (false, false) then do
    let m ← Vm.kfree F.kern.mem p
    .ok { F with kern := F.kern.setMem m }
  else .ok F

/-- The end of `fileclose`, when the count has come to 0. -/
def closeLast (F : Ftable) (f : Nat) : Except Stop Ftable :=
  let ff := F.kind f
  let F := { F with kind := update F.kind f .none }
  match ff with
  | .none => .ok F
  | .pipe p writable => pipeclose F p writable
  | .inode i => .ok (F.iput i)

/-- `fileclose` -/
def fileclose (F : Ftable) (f : Nat) : Except Stop Ftable :=
  if F.kern.fref f < 1 then .error (.panic "fileclose")
  else
    let F := F.setRef f (F.kern.fref f - 1)
    if 0 < F.kern.fref f then .ok F else closeLast F f

/-- `pipealloc` -/
def pipealloc (F : Ftable) : Except Stop (Option (Nat × Nat) × Ftable) :=
  match filealloc F with
  | (none, F) => .ok (none, F)
  | (some f0, F) =>
    match filealloc F with
    | (none, F) => do
      let F ← fileclose F f0
      .ok (none, F)
    | (some f1, F) =>
      match Vm.kalloc F.kern.mem with
      | (none, _) => do
        let F ← fileclose F f0
        let F ← fileclose F f1
        .ok (none, F)
      | (some p, m) =>
        .ok (some (f0, f1), {
          kern := F.kern.setMem m
          kind := update (update F.kind f0 (.pipe p false)) f1 (.pipe p true)
          ends := update F.ends p (true, true) })

/-! ### sysfile.c -/

/-- `argfd`: the descriptor and its file. -/
def argfd (F : Ftable) (cur : Slot) (fd : Int) : Option (Fin NOFILE × Nat) :=
  if h : 0 ≤ fd ∧ fd < NOFILE then
    let fd : Fin NOFILE := ⟨fd.toNat, by omega⟩
    ((F.kern.ptable cur).ofile fd).map fun f => (fd, f)
  else none

/-- `fdalloc` -/
def fdalloc (F : Ftable) (cur : Slot) (f : Nat) : Option (Fin NOFILE) × Ftable :=
  match (List.finRange NOFILE).find? fun fd => (F.kern.ptable cur).ofile fd = none with
  | none => (none, F)
  | some fd => (some fd, F.setFd cur fd (some f))

def sysDup (F : Ftable) (cur : Slot) (fd : Int) : Except Stop (Int × Ftable) :=
  match F.argfd cur fd with
  | none => .ok (-1, F)
  | some (_, f) =>
    match F.fdalloc cur f with
    | (none, F) => .ok (-1, F)
    | (some fd, F) => do
      let F ← filedup F f
      .ok (fd.val, F)

def sysClose (F : Ftable) (cur : Slot) (fd : Int) : Except Stop (Int × Ftable) :=
  match F.argfd cur fd with
  | none => .ok (-1, F)
  | some (fd, f) => do
    let F ← fileclose (F.setFd cur fd none) f
    .ok (0, F)

/-- `sys_open`, given what `create` or `namei` found: `none` where it found nothing, or a directory
to write to. -/
def sysOpen (F : Ftable) (cur : Slot) : Option Nat → Except Stop (Int × Ftable)
  | none => .ok (-1, F)
  | some i =>
    match filealloc (F.iget i) with
    | (none, F) => .ok (-1, F.iput i)
    | (some f, F) =>
      match F.fdalloc cur f with
      | (none, F) => do
        let F ← fileclose F f
        .ok (-1, F.iput i)
      | (some fd, F) =>
        .ok (fd.val, { F with kind := update F.kind f (.inode i) })

/-- `sys_pipe`, given the address that `argptr` accepted, or `none`. -/
def sysPipe (F : Ftable) (cur : Slot) : Option Nat → Except Stop (Int × Ftable)
  | none => .ok (-1, F)
  | some a => do
    match ← pipealloc F with
    | (none, F) => .ok (-1, F)
    | (some (rf, wf), F) =>
      match F.fdalloc cur rf with
      | (none, F) => do
        let F ← fileclose F rf
        let F ← fileclose F wf
        .ok (-1, F)
      | (some fd0, F) =>
        match F.fdalloc cur wf with
        | (none, F) => do
          let F ← fileclose (F.setFd cur fd0 none) rf
          let F ← fileclose F wf
          .ok (-1, F)
        | (some fd1, F) => do
          let d ← pgdirOf F.kern cur
          let m ← poke F.kern.mem d a (Vm.wordBytes fd0)
          let m ← poke m d ((a + 4) % 2 ^ 32) (Vm.wordBytes fd1)
          .ok (0, { F with kern := F.kern.setMem m })

end Ftable

/-! ### The machine -/

/-- A call of `sysfile.c` with its arguments. -/
inductive FileCall where
  | open (ip : Option Nat)
  | dup (fd : BitVec 32)
  | pipe (addr : Option Nat)
  | close (fd : BitVec 32)

def Ftable.fileCall (F : Ftable) (cur : Slot) : FileCall → Except Stop (Int × Ftable)
  | .open ip => F.sysOpen cur ip
  | .dup fd => F.sysDup cur fd.toInt
  | .pipe addr => F.sysPipe cur addr
  | .close fd => F.sysClose cur fd.toInt

inductive Action where
  | event (e : Event)
  | file (cur : Slot) (c : FileCall)

/-- The end of `fileclose` for each file of a list. -/
def Ftable.closeLasts : List Nat → Ftable → Except Stop Ftable
  | [], F => .ok F
  | f :: fs, F => do
    let F ← F.closeLast f
    closeLasts fs F

/-- The files that `exit` closes, each at its last descriptor. -/
def Event.closes (k : Kernel) : Event → List Nat
  | .call s .exit => (k.ptable s).files.dedup
  | _ => []

/-- The table after a step of the kernel: `exit` lets go of the files whose count is now 0. -/
def Ftable.settle (F : Ftable) (e : Event) (k : Kernel) : Except Stop Ftable :=
  closeLasts ((e.closes F.kern).filter fun f => k.fref f = 0) { F with kern := k }

def Ftable.step (F : Ftable) : Action → Option Ftable
  | .event e => (Kern.step F.kern e).bind fun k => (F.settle e k).toOption
  | .file cur c =>
    if (F.kern.ptable cur).state = .running then (F.fileCall cur c).toOption.map Prod.snd else none

/-- The table as `fileinit` leaves it, in a kernel. -/
def Ftable.init (k : Kernel) : Ftable := ⟨k, fun _ => .none, fun _ => (false, false)⟩

/-- The table `F` can be reached, every step meeting the guard. -/
def FileRun (G : Ftable → Action → Prop) (F : Ftable) : Prop :=
  ∃ k, Booted k ∧ Run (fun F a F' => Ftable.step F a = some F') G (.init k) F

/-! ### Counting -/

/-- How many of these descriptors name the file `f`. -/
def held (f : Nat) (o : Fin NOFILE → Option Nat) : Nat := total (fun x => if x = some f then 1 else 0) o

/-- The count of a file is the number of descriptors that name it, and of the references `l`. -/
def Counts (l : List Nat) (k : Kernel) : Prop :=
  ∀ f, k.fref f = total (held f) k.opens.1 + l.count f

theorem held_none (f : Nat) : held f (fun _ => none) = 0 := by
  simp [held, total]

/-- A descriptor that changes. -/
theorem held_update (f : Nat) (o : Fin NOFILE → Option Nat) (fd : Fin NOFILE) (x : Option Nat) :
    held f (update o fd x) + (if o fd = some f then 1 else 0) =
      held f o + if x = some f then 1 else 0 := by
  have h := total_update (fun x => if x = some f then 1 else 0) o fd x
  have h' := total_eq (fun x => if x = some f then 1 else 0) o fd
  simp only [held] at *
  omega

theorem files_count (p : Proc) (f : Nat) : p.files.count f = held f p.ofile := by
  rw [Proc.files, List.count_filterMap, held, Support.total_card (fun x => x = some f),
    List.countP_eq_length_filter]
  exact congrArg List.length (List.filter_congr fun fd _ => (beq_eq_decide ..))

theorem dupRefs_count : ∀ {l : List Nat} {r r' : Nat → Nat}, dupRefs l r = .ok r' →
    ∀ f, r' f = r f + l.count f := by
  intro l
  induction l with
  | nil =>
    intro r r' h f
    cases h
    rfl
  | cons g l ih =>
    intro r r' h f
    rw [dupRefs] at h
    split at h
    · cases h
    rw [ih h f, List.count_cons]
    by_cases e : f = g
    · subst e
      simp
      omega
    · rw [update_of_ne e]
      simp [Ne.symm e]

theorem closeRefs_count : ∀ {l : List Nat} {r r' : Nat → Nat}, closeRefs l r = .ok r' →
    ∀ f, r f = r' f + l.count f := by
  intro l
  induction l with
  | nil =>
    intro r r' h f
    cases h
    rfl
  | cons g l ih =>
    intro r r' h f
    rw [closeRefs] at h
    split at h
    · cases h
    rename_i hr
    have hi := ih h f
    rw [List.count_cons]
    by_cases e : f = g
    · subst e
      rw [update_self] at hi
      simp
      omega
    · rw [update_of_ne e] at hi
      simp [Ne.symm e, hi]

/-! ### References in hand -/

/-- A step of the process in slot `cur`, which leaves all states and the descriptors of the others
alone and ends with the references `l'` in hand if it began with `l`. -/
structure Takes (cur : Slot) (l l' : List Nat) (k k' : Kernel) : Prop where
  counts : Counts l k → Counts l' k'
  state : ∀ s, (k'.ptable s).state = (k.ptable s).state
  other : ∀ s, s ≠ cur → (k'.ptable s).ofile = (k.ptable s).ofile

section

variable {cur : Slot} {l l' l'' : List Nat} {f : Nat} {k k' k'' : Kernel} {F F' : Ftable}
  {fd : Fin NOFILE}

theorem Takes.trans (h : Takes cur l l' k k') (h' : Takes cur l' l'' k' k'') :
    Takes cur l l'' k k'' :=
  ⟨fun c => h'.counts (h.counts c), fun s => (h'.state s).trans (h.state s),
    fun s e => (h'.other s e).trans (h.other s e)⟩

/-- A step that changes neither the table nor a count. -/
theorem Takes.same (ht : k'.ptable = k.ptable) (hf : k'.fref = k.fref) : Takes cur l l k k' := by
  have ho : k'.opens.1 = k.opens.1 := by
    funext s
    change (k'.ptable s).ofile = (k.ptable s).ofile
    rw [ht]
  refine ⟨fun c f => ?_, fun s => by rw [ht], fun s _ => by rw [ht]⟩
  rw [hf, ho]
  exact c f

theorem Takes.swap {f g : Nat} : Takes cur (f :: g :: l) (g :: f :: l) k k := by
  refine ⟨fun c h => ?_, fun _ => rfl, fun _ _ => rfl⟩
  rw [c h, (List.Perm.swap g f l).count_eq]

/-- A count goes up. -/
theorem setRef_push {n : Nat} (hn : n = F.kern.fref f + 1) :
    Takes cur l (f :: l) F.kern (F.setRef f n).kern := by
  refine ⟨fun c g => ?_, fun _ => rfl, fun _ _ => rfl⟩
  change update F.kern.fref f n g = total (held g) F.kern.opens.1 + _
  have := c g
  rw [List.count_cons]
  by_cases e : g = f
  · subst e
    rw [update_self, hn]
    simp
    omega
  · rw [update_of_ne e]
    simp [Ne.symm e, this]

/-- A count goes down. -/
theorem setRef_pop : Takes cur (f :: l) l F.kern (F.setRef f (F.kern.fref f - 1)).kern := by
  refine ⟨fun c g => ?_, fun _ => rfl, fun _ _ => rfl⟩
  change update F.kern.fref f _ g = total (held g) F.kern.opens.1 + _
  have := c g
  rw [List.count_cons] at this
  by_cases e : g = f
  · subst e
    rw [update_self]
    simp at this
    omega
  · rw [update_of_ne e, this]
    simp [Ne.symm e]

/-- A change to one process that sets its descriptors. -/
theorem update_ofiles {k k' : Kernel} {s : Slot} {p : Proc} {o : Fin NOFILE → Option Nat}
    (ht : k'.ptable = update k.ptable s p) (hp : p.ofile = o) :
    k'.opens.1 = update k.opens.1 s o := by
  funext t
  change (k'.ptable t).ofile = _
  rw [ht]
  by_cases e : t = s
  · rw [e, update_self, update_self, hp]
  · rw [update_of_ne e, update_of_ne e]
    rfl

/-- A descriptor is set: the file it names now leaves the hand, the one it named comes back. -/
theorem setFd_takes {x : Option Nat}
    (hl : ∀ g, l.count g + (if (F.kern.ptable cur).ofile fd = some g then 1 else 0) =
      l'.count g + if x = some g then 1 else 0) :
    Takes cur l l' F.kern (F.setFd cur fd x).kern := by
  refine ⟨fun c g => ?_, fun s => ?_, fun s e => ?_⟩
  · have ho : (F.setFd cur fd x).kern.opens.1 = update F.kern.opens.1 cur
        (update (F.kern.ptable cur).ofile fd x) := update_ofiles (s := cur) rfl rfl
    have hc := c g
    have hu := held_update g (F.kern.ptable cur).ofile fd x
    have ht := total_eq (held g) F.kern.opens.1 cur
    have hg := hl g
    rw [ho, total_update]
    change F.kern.fref g = _
    change _ = _ + held g (F.kern.ptable cur).ofile at ht
    omega
  · change (update F.kern.ptable cur _ s).state = _
    by_cases e : s = cur
    · rw [e, update_self]
    · rw [update_of_ne e]
  · change (update F.kern.ptable cur _ s).ofile = _
    rw [update_of_ne e]

/-! ### The calls on files -/

theorem filealloc_takes {o : Option Nat} (h : F.filealloc = (o, F')) :
    Takes cur l (o.toList ++ l) F.kern F'.kern := by
  rw [Ftable.filealloc] at h
  split at h
  · cases h
    exact .same rfl rfl
  · rename_i f hf
    have h0 : F.kern.fref f = 0 := by simpa using List.find?_some hf
    cases h
    exact setRef_push (by rw [h0])

theorem fdalloc_none (h : F.fdalloc cur f = (none, F')) : F' = F := by
  rw [Ftable.fdalloc] at h
  split at h
  · cases h
    rfl
  · cases h

theorem fdalloc_some (h : F.fdalloc cur f = (some fd, F')) :
    (F.kern.ptable cur).ofile fd = none ∧ F' = F.setFd cur fd (some f) := by
  rw [Ftable.fdalloc] at h
  split at h
  · cases h
  · rename_i hfd
    cases h
    exact ⟨by simpa using List.find?_some hfd, rfl⟩

/-- A free descriptor takes over a reference in hand. -/
theorem fill_takes (h : (F.kern.ptable cur).ofile fd = none) :
    Takes cur (f :: l) l F.kern (F.setFd cur fd (some f)).kern := by
  refine setFd_takes fun g => ?_
  rw [h, List.count_cons]
  simp

/-- A descriptor gives back its reference. -/
theorem clear_takes (h : (F.kern.ptable cur).ofile fd = some f) :
    Takes cur l (f :: l) F.kern (F.setFd cur fd none).kern := by
  refine setFd_takes fun g => ?_
  rw [h, List.count_cons]
  simp

/-- The end of a file changes neither the processes nor a count. -/
theorem pipeclose_same {p : Page} {w : Bool} (h : F.pipeclose p w = .ok F') :
    F'.kern.ptable = F.kern.ptable ∧ F'.kern.fref = F.kern.fref := by
  simp only [Ftable.pipeclose] at h
  generalize (if w then ((F.ends p).1, false) else (false, (F.ends p).2)) = ends at h
  split at h
  · obtain ⟨m, -, h⟩ := bind_ok.mp h
    cases h
    exact ⟨rfl, rfl⟩
  · cases h
    exact ⟨rfl, rfl⟩

theorem closeLast_same (h : F.closeLast f = .ok F') :
    F'.kern.ptable = F.kern.ptable ∧ F'.kern.fref = F.kern.fref := by
  simp only [Ftable.closeLast] at h
  split at h
  · cases h
    exact ⟨rfl, rfl⟩
  · exact (pipeclose_same h :)
  · cases h
    exact ⟨rfl, rfl⟩

theorem closeLasts_same : ∀ {fs : List Nat} {F : Ftable}, F.closeLasts fs = .ok F' →
    F'.kern.ptable = F.kern.ptable ∧ F'.kern.fref = F.kern.fref := by
  intro fs
  induction fs with
  | nil =>
    intro F h
    cases h
    exact ⟨rfl, rfl⟩
  | cons f fs ih =>
    intro F h
    obtain ⟨F₁, h₁, h⟩ := bind_ok.mp h
    obtain ⟨ht, hf⟩ := closeLast_same h₁
    obtain ⟨ht', hf'⟩ := ih h
    exact ⟨ht'.trans ht, hf'.trans hf⟩

theorem fileclose_takes (h : F.fileclose f = .ok F') : Takes cur (f :: l) l F.kern F'.kern := by
  rw [Ftable.fileclose] at h
  split at h
  · cases h
  dsimp only at h
  split at h
  · cases h
    exact setRef_pop
  · obtain ⟨ht, hf⟩ := closeLast_same h
    exact setRef_pop.trans (.same ht hf)

variable {n r : Int}

theorem argfd_ofile (h : F.argfd cur n = some (fd, f)) : (F.kern.ptable cur).ofile fd = some f := by
  rw [Ftable.argfd] at h
  split at h
  · obtain ⟨g, hg, h⟩ := Option.map_eq_some_iff.mp h
    cases h
    exact hg
  · cases h

theorem sysClose_takes (h : F.sysClose cur n = .ok (r, F')) : Takes cur l l F.kern F'.kern := by
  rw [Ftable.sysClose] at h
  split at h
  · cases h
    exact .same rfl rfl
  · rename_i fd f ha
    obtain ⟨F₁, h₁, h⟩ := bind_ok.mp h
    cases h
    exact (clear_takes (argfd_ofile ha)).trans (fileclose_takes h₁)

theorem sysDup_takes (h : F.sysDup cur n = .ok (r, F')) : Takes cur l l F.kern F'.kern := by
  rw [Ftable.sysDup] at h
  split at h
  · cases h
    exact .same rfl rfl
  rename_i f ha
  split at h
  · rename_i F₁ h₁
    cases h
    rw [fdalloc_none h₁]
    exact .same rfl rfl
  · rename_i fd F₁ h₁
    obtain ⟨hfd, rfl⟩ := fdalloc_some h₁
    obtain ⟨F₂, h₂, h⟩ := bind_ok.mp h
    cases h
    rw [Ftable.filedup] at h₂
    split at h₂
    · cases h₂
    · cases h₂
      -- the source fills the descriptor before it counts it; the other order ends the same
      exact (setRef_push (f := f) rfl).trans (fill_takes (F := F.setRef f _) hfd)

theorem sysOpen_takes {ip : Option Nat} (h : F.sysOpen cur ip = .ok (r, F')) :
    Takes cur l l F.kern F'.kern := by
  rw [Ftable.sysOpen.eq_def] at h
  split at h
  · cases h
    exact .same rfl rfl
  rename_i i
  have hi : Takes cur l l F.kern (F.iget i).kern := .same rfl rfl
  split at h
  · rename_i F₁ h₁
    cases h
    exact (hi.trans (filealloc_takes h₁)).trans (.same rfl rfl)
  rename_i f F₁ h₁
  have h₁ := hi.trans (filealloc_takes (l := l) h₁)
  split at h
  · rename_i F₂ h₂
    obtain rfl := fdalloc_none h₂
    obtain ⟨F₃, h₃, h⟩ := bind_ok.mp h
    cases h
    exact (h₁.trans (fileclose_takes h₃)).trans (.same rfl rfl)
  · rename_i fd F₂ h₂
    obtain ⟨hfd, rfl⟩ := fdalloc_some h₂
    cases h
    exact h₁.trans (fill_takes hfd)

theorem pipealloc_takes {o : Option (Nat × Nat)} (h : F.pipealloc = .ok (o, F')) :
    Takes cur l ((o.elim [] fun x => [x.2, x.1]) ++ l) F.kern F'.kern := by
  rw [Ftable.pipealloc] at h
  split at h
  · rename_i F₁ h₁
    cases h
    exact filealloc_takes h₁
  rename_i f0 F₁ h₁
  have h₁ : Takes cur l (f0 :: l) F.kern F₁.kern := filealloc_takes h₁
  split at h
  · rename_i F₂ h₂
    obtain ⟨F₃, h₃, h⟩ := bind_ok.mp h
    cases h
    exact (h₁.trans (filealloc_takes h₂)).trans (fileclose_takes h₃)
  · rename_i f1 F₂ h₂
    have h₂ := h₁.trans (filealloc_takes h₂)
    split at h
    · obtain ⟨F₃, h₃, h⟩ := bind_ok.mp h
      obtain ⟨F₄, h₄, h⟩ := bind_ok.mp h
      cases h
      exact ((h₂.trans .swap).trans (fileclose_takes h₃)).trans (fileclose_takes h₄)
    · cases h
      exact h₂.trans (.same rfl rfl)

theorem sysPipe_takes {addr : Option Nat} (h : F.sysPipe cur addr = .ok (r, F')) :
    Takes cur l l F.kern F'.kern := by
  rw [Ftable.sysPipe.eq_def] at h
  split at h
  · cases h
    exact .same rfl rfl
  obtain ⟨⟨o, F₁⟩, h₁, h⟩ := bind_ok.mp h
  cases o with
  | none =>
    cases h
    exact pipealloc_takes h₁
  | some x =>
    obtain ⟨rf, wf⟩ := x
    have h₁ : Takes cur l (wf :: rf :: l) F.kern F₁.kern := pipealloc_takes h₁
    dsimp only at h
    split at h
    · rename_i F₂ h₂
      obtain rfl := fdalloc_none h₂
      obtain ⟨F₃, h₃, h⟩ := bind_ok.mp h
      obtain ⟨F₄, h₄, h⟩ := bind_ok.mp h
      cases h
      exact ((h₁.trans .swap).trans (fileclose_takes h₃)).trans (fileclose_takes h₄)
    · rename_i fd0 F₂ h₂
      obtain ⟨hfd0, rfl⟩ := fdalloc_some h₂
      have h₂ := (h₁.trans .swap).trans (fill_takes hfd0)
      split at h
      · rename_i F₃ h₃
        obtain rfl := fdalloc_none h₃
        obtain ⟨F₄, h₄, h⟩ := bind_ok.mp h
        obtain ⟨F₅, h₅, h⟩ := bind_ok.mp h
        cases h
        refine ((h₂.trans (clear_takes ?_)).trans (fileclose_takes h₄)).trans (fileclose_takes h₅)
        change (update F₁.kern.ptable cur _ cur).ofile fd0 = _
        rw [update_self]
        exact update_self ..
      · rename_i fd1 F₃ h₃
        obtain ⟨hfd1, rfl⟩ := fdalloc_some h₃
        obtain ⟨d, -, h⟩ := bind_ok.mp h
        obtain ⟨m, -, h⟩ := bind_ok.mp h
        obtain ⟨m', -, h⟩ := bind_ok.mp h
        cases h
        exact (h₂.trans (fill_takes hfd1)).trans (.same rfl rfl)

theorem fileCall_takes {c : FileCall} (h : F.fileCall cur c = .ok (r, F')) :
    Takes cur l l F.kern F'.kern := by
  cases c with
  | «open» ip => exact sysOpen_takes h
  | dup fd => exact sysDup_takes h
  | pipe addr => exact sysPipe_takes h
  | close fd => exact sysClose_takes h

end

/-! ### The invariant -/

/-- A slot in which no process runs, waits or is about to. -/
def State.Idle (st : State) : Prop := st = .unused ∨ st = .embryo ∨ st = .zombie

/-- The counts are right, and where no process is there are no descriptors. -/
structure Balanced (k : Kernel) : Prop where
  counts : Counts [] k
  closed : ∀ s, (k.ptable s).state.Idle → ∀ fd, (k.ptable s).ofile fd = none

section

variable {cur : Slot} {k k' : Kernel} {F F' : Ftable}

theorem Balanced.takes (h : Balanced k) (t : Takes cur [] [] k k')
    (hcur : ¬ (k.ptable cur).state.Idle) : Balanced k' := by
  refine ⟨t.counts h.counts, fun s hs fd => ?_⟩
  rw [t.state s] at hs
  have e : s ≠ cur := by
    rintro rfl
    exact hcur hs
  rw [t.other s e]
  exact h.closed s hs fd

theorem OwnState.idle {o : Outcome} {st st' : State} (h : OwnState o st st') (hs : st'.Idle) :
    st.Idle ∨ o = .ends := by
  cases h with
  | same => exact .inl hs
  | wake => simp [State.Idle] at hs
  | leave _ hst => rcases hst with rfl | rfl <;> simp [State.Idle] at hs
  | die => exact .inr rfl

theorem Other.idle {v v' : View} (h : Other v v') (hs : v'.state.Idle) : v.state.Idle := by
  cases h with
  | same => exact hs
  | wake => simp [State.Idle] at hs
  | reap h | join h => exact .inr (.inr h)
  | alloc h => exact .inl h

/-- A slot without a process had none before, unless the caller has ended. -/
theorem call_idle {c : Call} {o : Outcome} {s : Slot} (hcur : Live k cur)
    (h : call k cur c = .ok (o, k')) (hs : (k'.ptable s).state.Idle) :
    (k.ptable s).state.Idle ∨ s = cur ∧ o = .ends := by
  obtain ⟨hown, hoth⟩ := call_states hcur h
  by_cases e : s = cur
  · subst e
    exact (hown.idle hs).imp_right fun ho => ⟨rfl, ho⟩
  · exact .inl ((hoth s e).idle hs)

theorem files_of_opens (h : k'.opens = k.opens) (s : Slot) :
    (k'.ptable s).ofile = (k.ptable s).ofile ∧ k'.fref = k.fref :=
  ⟨congrFun (congrArg Prod.fst h) s, congrArg Prod.snd h⟩

/-- A call that leaves every descriptor alone, by a process that does not end with descriptors. -/
theorem Balanced.quiet (h : Balanced k) (ho : k'.opens = k.opens)
    (hi : ∀ s, (k'.ptable s).state.Idle → (k.ptable s).state.Idle ∨
      ∀ fd, (k.ptable s).ofile fd = none) : Balanced k' := by
  refine ⟨fun f => ?_, fun s hs fd => ?_⟩
  · rw [ho, (files_of_opens ho initproc).2]
    exact h.counts f
  · rw [(files_of_opens ho s).1]
    exact (hi s hs).elim (fun hs => h.closed s hs fd) fun hn => hn fd

/-- The copies of a process's descriptors are counted. -/
theorem Balanced.copied {np : Slot} (h : Balanced k) (c : Copied k cur np k')
    (hi : ∀ s, (k'.ptable s).state.Idle → (k.ptable s).state.Idle) : Balanced k' := by
  have hnp : (fun fd => ((k.ptable cur).ofile fd).or ((k.ptable np).ofile fd)) =
      (k.ptable cur).ofile := by
    funext fd
    rw [h.closed np (.inl c.free) fd, Option.or_none]
  have ho := c.ofiles
  rw [hnp] at ho
  refine ⟨fun f => ?_, fun s hs fd => ?_⟩
  · have hd := dupRefs_count c.refs f
    have hc := h.counts f
    have ht := total_eq (held f) k.opens.1 np
    have h0 : held f (k.opens.1 np) = 0 := by
      rw [show k.opens.1 np = fun _ => none from funext (h.closed np (.inl c.free))]
      exact held_none f
    rw [files_count] at hd
    rw [ho, total_update]
    omega
  · have e : s ≠ np := by
      rintro rfl
      rw [c.runs] at hs
      simp [State.Idle] at hs
    have hs' : (k'.ptable s).ofile = (k.ptable s).ofile := by
      have := congrFun ho s
      rwa [update_of_ne e] at this
    rw [hs']
    exact h.closed s (hi s hs) fd

/-- A process that drops its descriptors is counted no more. -/
theorem Balanced.emptied (h : Balanced k) (c : Emptied k cur k')
    (hi : ∀ s, (k'.ptable s).state.Idle → (k.ptable s).state.Idle ∨ s = cur) : Balanced k' := by
  have ho := c.ofiles
  refine ⟨fun f => ?_, fun s hs fd => ?_⟩
  · have hd := closeRefs_count c.refs f
    have hc := h.counts f
    have ht := total_eq (held f) k.opens.1 cur
    have h0 : held f (k.opens.1 cur) = (k.ptable cur).files.count f := (files_count _ f).symm
    rw [ho, total_update, held_none]
    omega
  · have hs' : (k'.ptable s).ofile = update k.opens.1 cur (fun _ => none) s := congrFun ho s
    rw [hs']
    by_cases e : s = cur
    · rw [e, update_self]
    · rw [update_of_ne e]
      exact h.closed s ((hi s hs).resolve_right e) fd

/-- Only a process without descriptors calls `thread_exit`. -/
def Closing (F : Ftable) : Action → Prop
  | .event (.call s (.threadExit _)) => ∀ fd, (F.kern.ptable s).ofile fd = none
  | _ => True

instance (F : Ftable) : DecidablePred (Closing F)
  | .event (.call _ (.threadExit _)) => inferInstanceAs (Decidable (∀ _, _))
  | .event (.dispatch _) | .file .. => .isTrue trivial
  | .event (.call _ .fork) | .event (.call _ .exit) | .event (.call _ (.exitVisit _)) |
    .event (.call _ .wait) | .event (.call _ (.threadCreate ..)) |
    .event (.call _ (.threadJoin ..)) | .event (.call _ (.setCpuShare _)) |
    .event (.call _ (.sbrk _)) | .event (.call _ (.exec ..)) | .event (.call _ (.kill _)) |
    .event (.call _ (.sleep _)) | .event (.call _ (.wakeup _)) | .event (.call _ .yield) =>
      .isTrue trivial

theorem Balanced.call {c : Call} {o : Outcome} (h : Balanced k)
    (hcur : (k.ptable cur).state = .running)
    (hG : ∀ v, c = .threadExit v → ∀ fd, (k.ptable cur).ofile fd = none)
    (hc : Kern.call k cur c = .ok (o, k')) : Balanced k' := by
  have hl : Live k cur := by simp [Live, hcur]
  have hd := call_dealt hc
  by_cases hx : c = .exit
  · exact h.emptied (hd.dropped hx) fun s hs => (call_idle hl hc hs).imp_right And.left
  obtain ho | ⟨rfl, np, c'⟩ := hd.files hx
  · refine h.quiet ho fun s hs => (call_idle hl hc hs).imp_right ?_
    rintro ⟨rfl, rfl⟩
    -- only `thread_exit` ends the caller besides `exit`
    by_contra hn
    exact call_not_ends hc hx (fun v e => hn (hG v e)) rfl
  · exact h.copied c' fun s hs => (call_idle hl hc hs).resolve_right fun he => by cases he.2

theorem Balanced.step {a : Action} (h : Balanced F.kern) (hG : Closing F a)
    (hs : F.step a = some F') : Balanced F'.kern := by
  cases a with
  | event e =>
    obtain ⟨k, hk, hs⟩ := Option.bind_eq_some_iff.mp hs
    -- letting go of the files changes no count and no descriptor
    obtain ⟨ht, hf⟩ := closeLasts_same (Support.toOption_eq_some.mp hs)
    have hk' : Balanced k := by
      cases e with
      | dispatch s =>
        obtain ⟨hm, rfl⟩ := step_dispatch hk
        refine h.quiet (opens_congr (fun q => congrArg Card.ofile (dispatch_card ..)) rfl)
          fun t ht => .inl ?_
        by_cases e : t = s
        · subst e
          simp [State.Idle] at ht
        · rwa [Kernel.set_ptable, update_of_ne e] at ht
      | call s c =>
        obtain ⟨hr, -, o, hc⟩ := step_call hk
        refine h.call hr ?_ hc
        rintro v rfl
        exact hG
    have hsame : Takes initproc [] [] k F'.kern := .same ht hf
    refine ⟨hsame.counts hk'.counts, fun s hi fd => ?_⟩
    rw [ht] at hi ⊢
    exact hk'.closed s hi fd
  | file cur c =>
    rw [Ftable.step] at hs
    split at hs
    · rename_i hr
      obtain ⟨⟨r, F₁⟩, hc, rfl⟩ := Option.map_eq_some_iff.mp hs
      refine h.takes (fileCall_takes (Support.toOption_eq_some.mp hc)) ?_
      simp [State.Idle, hr]
    · cases hs

theorem Booted.balanced (h : Booted k) : Balanced k := by
  refine ⟨fun f => ?_, fun s _ fd => ?_⟩
  · have hf : k.fref f = 0 := congrFun (congrArg Prod.snd h.opens) f
    rw [hf, h.opens]
    simp [total, held_none]
  · exact congrFun (congrFun (congrArg Prod.fst h.opens) s) fd

/-- The descriptors that name a file, each with its process. -/
def Kernel.openings (k : Kernel) (f : Nat) : Finset (Slot × Fin NOFILE) :=
  Finset.univ.filter fun x => (k.ptable x.1).state ≠ .unused ∧ (k.ptable x.1).ofile x.2 = some f

theorem Balanced.openings (h : Balanced k) (f : Nat) : k.fref f = (k.openings f).card := by
  have hp : k.openings f = Finset.univ.filter fun x => (k.ptable x.1).ofile x.2 = some f := by
    refine Finset.filter_congr fun x _ => ⟨And.right, fun hx => ⟨fun hu => ?_, hx⟩⟩
    rw [h.closed x.1 (.inl hu) x.2] at hx
    cases hx
  rw [hp, Finset.card_filter, Fintype.sum_prod_type, h.counts f, List.count_nil, Nat.add_zero]
  rw [total]
  refine Finset.sum_congr rfl fun s _ => ?_
  rw [held, total]
  exact Finset.sum_congr rfl fun fd _ => if_congr Iff.rfl rfl rfl

end

/-- **The count of a file is the number of descriptors that name it.**  As long as only a process
without descriptors calls `thread_exit`. -/
theorem file_refs_counted {F : Ftable} (r : FileRun Closing F) :
    (∀ f, F.kern.fref f = (F.kern.openings f).card) ∧
      ∀ s, (F.kern.ptable s).state = .unused → ∀ fd, (F.kern.ptable s).ofile fd = none := by
  obtain ⟨k, hb, r⟩ := r
  have h : Balanced F.kern := r.invariant (I := fun F => Balanced F.kern) hb.balanced
    fun F a F' h hG hs => h.step hG hs
  exact ⟨h.openings, fun s hs => h.closed s (.inl hs)⟩

/-- A run that can be computed is a run. -/
theorem exists_fileRun (G : Ftable → Action → Prop) [∀ F a, Decidable (G F a)] (n : Nat)
    (as : List Action) (P : Ftable → Prop) (h : ∃ k, userinit (.blank (List.range n)) [] = .ok k ∧
      ∃ F, Support.exec Ftable.step (fun F a => decide (G F a)) (.init k) as = some F ∧ P F) :
    ∃ F, FileRun G F ∧ P F := by
  obtain ⟨k, hk, h⟩ := h
  obtain ⟨F, r, hP⟩ := Support.exists_run Ftable.step G (.init k) as P h
  exact ⟨F, ⟨k, ⟨_, _, List.nodup_range, hk⟩, r⟩, hP⟩

/-- Init opens a file, duplicates the descriptor, makes a pipe and forks; the child closes one
descriptor and exits. -/
theorem file_refs_counted_fork : ∃ F, FileRun Closing F ∧ F.kern.fref 0 = 2 ∧
    (F.kern.openings 0).card = 2 ∧ (F.kern.ptable 1).state = .zombie := by
  obtain ⟨F, r, hf, hs⟩ := exists_fileRun Closing 200
    [.event (.dispatch 0), .file 0 (.open (some 1)), .file 0 (.dup 0), .file 0 (.pipe (some 0)),
      .event (.call 0 .fork), .event (.dispatch 1), .file 1 (.close 0), .event (.call 1 .exit)]
    (fun F => F.kern.fref 0 = 2 ∧ (F.kern.ptable 1).state = .zombie) (by decide +kernel)
  refine ⟨F, r, hf, ?_, hs⟩
  rw [← (file_refs_counted r).1 0, hf]

/-- Init opens a file and creates a thread; the thread ends by `thread_exit` and is joined.  Its slot
is free and still names the file, which stays counted. -/
theorem file_refs_leaked : ∃ F, FileRun (fun _ _ => True) F ∧ F.kern.fref 0 = 2 ∧
    (F.kern.openings 0).card = 1 ∧ (F.kern.ptable 1).state = .unused ∧
    (F.kern.ptable 1).ofile 0 = some 0 :=
  exists_fileRun (fun _ _ => True) 90
    [.event (.dispatch 0), .file 0 (.open (some 1)), .event (.call 0 (.threadCreate 0 0 0)),
      .event (.dispatch 1), .event (.call 1 (.threadExit 0)), .event (.call 0 (.threadJoin 2 0))] _
    (by decide +kernel)

end Xv6.Kern
