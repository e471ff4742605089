import Xv6.Param
import Xv6.Support.Machine
import Xv6.Support.Table

/-!
# Log — group commit (`log.c`)

`begin_op`, `log_write` and `end_op` as steps of any number of processes, interleaved in any
order.  Each section under `log.lock` is one step; `commit()` runs without the lock and takes one
step for each iteration of its loops, so that any other process may step in between.

A process is idle, inside an operation (`inOp`, with the blocks it has logged), or in the commit
of an `end_op` (`commit`).  What a process must be doing to take a step is `Enabled`: `log_write`
and `end_op` are called inside an operation, as `log.c` asks of its callers, and `begin_op`
returns only when its waiting loop exits.

Three fields record history and are read by no step: the blocks the running commit has installed
(`installed`), the block lists of the operations that have ended since the last commit (`ended`),
and, for every finished commit, these two (`commits`).

* `group_commit`: no `log_write` while a commit runs, `outstanding` counts the operations in
  progress, and each commit installs exactly what the operations that ended since the previous
  one have logged.
-/

namespace Xv6.Log

open Function (update update_self update_of_ne)
open Support (Run)

/-- Where `commit()`, called by an `end_op`, has got to. -/
inductive Stage where
  | entry
  | writeLog (tail : Nat)
  | writeHead
  | install (tail : Nat)
  | clear
  | finish
  deriving DecidableEq

/-- Where a process is. -/
inductive Pc where
  | idle
  | inOp (logged : List Nat)
  | commit (stage : Stage)
  deriving DecidableEq

/-- The blocks an operation in progress has logged. -/
def Pc.logged : Pc → List Nat
  | .inOp l => l
  | _ => []

@[simp] theorem Pc.logged_idle : Pc.idle.logged = [] := rfl

@[simp] theorem Pc.logged_inOp (l : List Nat) : (Pc.inOp l).logged = l := rfl

@[simp] theorem Pc.logged_commit (st : Stage) : (Pc.commit st).logged = [] := rfl

/-- The process is between its `begin_op` and its `end_op`. -/
def Pc.InOp : Pc → Prop
  | .inOp _ => True
  | _ => False

instance : DecidablePred Pc.InOp
  | .inOp _ => .isTrue trivial
  | .idle => .isFalse id
  | .commit _ => .isFalse id

/-- `struct log`, the processes, and the history. -/
structure LogState (P : Type) where
  /-- how many FS sys calls are executing -/
  outstanding : Int
  /-- in commit(), please wait -/
  committing : Bool
  /-- `log.lh.block[0 .. log.lh.n - 1]` -/
  lh : List Nat
  pc : P → Pc
  installed : List Nat
  ended : List (List Nat)
  commits : List (List Nat × List (List Nat))

/-- No operation, an empty log. -/
def LogState.init {P : Type} : LogState P := ⟨0, false, [], fun _ => .idle, [], [], []⟩

inductive Event (P : Type) where
  | beginOp (p : P)
  | logWrite (p : P) (b : Nat)
  | endOp (p : P)
  | commit (p : P)

/-- The loop of `log_write`: block `b` absorbed by an entry that already names it, or appended. -/
def absorb (lh : List Nat) (b : Nat) : List Nat :=
  let i := lh.idxOf b
  if i = lh.length then lh ++ [b] else lh.set i b

section

variable {P : Type} [DecidableEq P]

/-- What the caller of a step is doing, and when the loop of `begin_op` exits. -/
def Enabled (s : LogState P) : Event P → Prop
  | .beginOp p => s.pc p = .idle ∧ s.committing = false ∧
      (s.lh.length : Int) + (s.outstanding + 1) * MAXOPBLOCKS ≤ LOGSIZE
  | .logWrite p _ => (s.pc p).InOp
  | .endOp p => (s.pc p).InOp
  | .commit p => ∃ st, s.pc p = .commit st

instance (s : LogState P) : DecidablePred (Enabled s)
  | .beginOp p => inferInstanceAs (Decidable (s.pc p = .idle ∧ s.committing = false ∧
      (s.lh.length : Int) + (s.outstanding + 1) * MAXOPBLOCKS ≤ LOGSIZE))
  | .logWrite p _ => inferInstanceAs (Decidable (s.pc p).InOp)
  | .endOp p => inferInstanceAs (Decidable (s.pc p).InOp)
  | .commit p =>
    match h : s.pc p with
    | .commit st => .isTrue ⟨st, h⟩
    | .idle => .isFalse fun ⟨st, h'⟩ => by rw [h] at h'; cases h'
    | .inOp _ => .isFalse fun ⟨st, h'⟩ => by rw [h] at h'; cases h'

/-- One iteration of `commit()` by `p`, at the given stage. -/
def commitStep (s : LogState P) (p : P) : Stage → LogState P
  | .entry =>
    let st := if 0 < s.lh.length then .writeLog 0 else .finish
    { s with pc := update s.pc p (.commit st) }
  | .writeLog tail =>
    let st := if tail < s.lh.length then .writeLog (tail + 1) else .writeHead
    { s with pc := update s.pc p (.commit st) }
  | .writeHead => { s with pc := update s.pc p (.commit (.install 0)) }
  | .install tail =>
    match s.lh[tail]? with
    | some b =>
      { s with
        installed := s.installed ++ [b]
        pc := update s.pc p (.commit (.install (tail + 1))) }
    | none => { s with pc := update s.pc p (.commit .clear) }
  | .clear => { s with lh := [], pc := update s.pc p (.commit .finish) }
  | .finish =>
    { s with
      committing := false
      pc := update s.pc p .idle
      installed := []
      ended := []
      commits := s.commits ++ [(s.installed, s.ended)] }

/-- The code of one step, with `log.size = size`: the state it leads to, or the text of its
panic. -/
def run (size : Int) (s : LogState P) : Event P → Except String (LogState P)
  | .beginOp p =>
    .ok { s with
      outstanding := s.outstanding + 1
      pc := update s.pc p (.inOp []) }
  | .logWrite p b =>
    if LOGSIZE ≤ s.lh.length ∨ size - 1 ≤ s.lh.length then .error "too big a transaction"
    else if s.outstanding < 1 then .error "log_write outside of trans"
    else .ok { s with
      lh := absorb s.lh b
      pc := update s.pc p (.inOp ((s.pc p).logged ++ [b])) }
  | .endOp p =>
    if s.committing then .error "log.committing"
    else if s.outstanding - 1 = 0 then
      .ok { s with
        outstanding := s.outstanding - 1
        committing := true
        ended := s.ended ++ [(s.pc p).logged]
        pc := update s.pc p (.commit .entry) }
    else
      .ok { s with
        outstanding := s.outstanding - 1
        ended := s.ended ++ [(s.pc p).logged]
        pc := update s.pc p .idle }
  | .commit p =>
    match s.pc p with
    | .commit st => .ok (commitStep s p st)
    | _ => .ok s

/-- A step: enabled, and not a panic. -/
def step (size : Int) (s : LogState P) (e : Event P) : Option (LogState P) :=
  if Enabled s e then (run size s e).toOption else none

/-- The machine's runs, under a guard. -/
abbrev LogRun (size : Int) (G : LogState P → Event P → Prop) (s : LogState P) : Prop :=
  Run (fun s e s' => step size s e = some s') G LogState.init s

theorem step_iff {size : Int} {s s' : LogState P} {e : Event P} :
    step size s e = some s' ↔ Enabled s e ∧ run size s e = .ok s' := by
  unfold step
  by_cases h : Enabled s e
  · rw [if_pos h]
    cases hr : run size s e with
    | error m => simp [Except.toOption]
    | ok t => simp [Except.toOption, h]
  · simp [h]

/-- The log after an operation has handed its blocks over to `ended`. -/
theorem mem_ended_snoc {s : LogState P} {p : P} (pc : Pc) (hpc : pc.logged = [])
    (hlh : ∀ b, b ∈ s.lh ↔ b ∈ s.ended.flatten ∨ ∃ p, b ∈ (s.pc p).logged) (b : Nat) :
    b ∈ s.lh ↔ b ∈ (s.ended ++ [(s.pc p).logged]).flatten ∨
      ∃ q, b ∈ (update s.pc p pc q).logged := by
  rw [hlh b, List.flatten_append, List.mem_append, List.flatten_singleton, or_assoc]
  refine or_congr_right ⟨fun ⟨q, hq⟩ => ?_, ?_⟩
  · by_cases e : q = p
    · subst e; exact .inl hq
    · exact .inr ⟨q, by simpa [e] using hq⟩
  rintro (h | ⟨q, hq⟩)
  · exact ⟨p, h⟩
  · by_cases e : q = p
    · subst e; rw [update_self, hpc] at hq; cases hq
    · exact ⟨q, by simpa [e] using hq⟩

end

/-! ### Absorption -/

theorem absorb_eq (lh : List Nat) (b : Nat) : absorb lh b = if b ∈ lh then lh else lh ++ [b] := by
  unfold absorb
  by_cases hb : b ∈ lh
  · have hlt : lh.idxOf b < lh.length := List.idxOf_lt_length_of_mem hb
    rw [if_pos hb, if_neg (Nat.ne_of_lt hlt)]
    -- the entry found is overwritten by the number it holds
    refine List.ext_getElem (by simp) fun i hi _ => ?_
    rw [List.getElem_set]
    split
    · rename_i e; subst e; exact (List.getElem_idxOf hlt).symm
    · rfl
  · rw [if_neg hb, if_pos (List.idxOf_eq_length hb)]

theorem mem_absorb {lh : List Nat} {b c : Nat} : c ∈ absorb lh b ↔ c ∈ lh ∨ c = b := by
  rw [absorb_eq]
  split
  · rename_i hb
    exact ⟨.inl, fun h => h.elim id fun e => e ▸ hb⟩
  · simp

theorem nodup_absorb {lh : List Nat} {b : Nat} (h : lh.Nodup) : (absorb lh b).Nodup := by
  rw [absorb_eq]
  split
  · exact h
  · rename_i hb
    exact List.nodup_append.mpr ⟨h, by simp, fun a ha c hc => by
      rw [List.mem_singleton.mp hc]; exact fun e => hb (e ▸ ha)⟩

/-! ### The invariant -/

section

variable {P : Type} [Fintype P]

/-- The blocks in the log are those of the operations that have ended since the last commit. -/
def LhEnded (s : LogState P) : Prop := ∀ b, b ∈ s.lh ↔ b ∈ s.ended.flatten

/-- What a commit has installed, by the stage it has reached. -/
def StageOk (s : LogState P) : Stage → Prop
  | .entry | .writeLog _ | .writeHead => s.installed = [] ∧ LhEnded s
  | .install tail => s.installed = s.lh.take tail ∧ LhEnded s
  | .clear => s.installed = s.lh ∧ LhEnded s
  | .finish => s.lh = [] ∧ ∀ b, b ∈ s.installed ↔ b ∈ s.ended.flatten

/-- Between commits the log holds the blocks of the operations ended and in progress; while one
process commits, every other process is idle. -/
inductive Phase (s : LogState P) : Prop where
  | opened (hc : s.committing = false) (hpc : ∀ p st, s.pc p ≠ .commit st) (hi : s.installed = [])
      (hlh : ∀ b, b ∈ s.lh ↔ b ∈ s.ended.flatten ∨ ∃ p, b ∈ (s.pc p).logged)
  | closing (p : P) (st : Stage) (hc : s.committing = true) (hp : s.pc p = .commit st)
      (ho : ∀ q, q ≠ p → s.pc q = .idle) (hst : StageOk s st)

/-- The invariant of the log. -/
structure Inv (s : LogState P) : Prop where
  phase : Phase s
  count : s.outstanding = ∑ p, if (s.pc p).InOp then 1 else 0
  nodup : s.lh.Nodup
  commits : ∀ c ∈ s.commits, ∀ b, b ∈ c.1 ↔ b ∈ c.2.flatten

theorem inv_init : Inv (LogState.init : LogState P) where
  phase := .opened rfl (fun _ _ => by simp [LogState.init]) rfl (by simp [LogState.init])
  count := by simp [LogState.init, Pc.InOp]
  nodup := List.nodup_nil
  commits := by simp [LogState.init]

/-- A count of zero counts nobody. -/
theorem not_inOp_of_count {pc : P → Pc} (h : (∑ p, if (pc p).InOp then (1 : Int) else 0) = 0)
    (p : P) : ¬ (pc p).InOp := by
  intro hp
  have hnn : ∀ q ∈ Finset.univ, (0 : Int) ≤ if (pc q).InOp then (1 : Int) else 0 := by
    intro q _
    split <;> decide
  have := (Finset.sum_eq_zero_iff_of_nonneg hnn).mp h p (Finset.mem_univ p)
  rw [if_pos hp] at this
  cases this

variable [DecidableEq P]

/-- The operations in progress after one process has moved. -/
theorem count_update (s : LogState P) (p : P) (pc : Pc) :
    (∑ q, if (update s.pc p pc q).InOp then (1 : Int) else 0)
      = (∑ q, if (s.pc q).InOp then (1 : Int) else 0) - (if (s.pc p).InOp then 1 else 0)
        + if pc.InOp then 1 else 0 :=
  Support.sum_update (fun pc : Pc => if pc.InOp then (1 : Int) else 0) s.pc p pc

theorem Pc.InOp.eq {pc : Pc} (h : pc.InOp) : ∃ l, pc = .inOp l := by
  cases pc with
  | inOp l => exact ⟨l, rfl⟩
  | idle => exact h.elim
  | commit st => exact h.elim

variable {s : LogState P} {p : P}

section

variable (hs : Inv s)
include hs

/-- A process inside an operation: the log is between commits. -/
theorem Inv.opened (hp : (s.pc p).InOp) :
    s.committing = false ∧ (∀ p st, s.pc p ≠ .commit st) ∧ s.installed = [] ∧
      ∀ b, b ∈ s.lh ↔ b ∈ s.ended.flatten ∨ ∃ p, b ∈ (s.pc p).logged := by
  cases hs.phase with
  | opened hc hpc hi hlh => exact ⟨hc, hpc, hi, hlh⟩
  | closing q st hc hq ho _ =>
    by_cases e : p = q
    · subst e; rw [hq] at hp; exact hp.elim
    · rw [ho p e] at hp; exact hp.elim

/-! ### One step -/

theorem inv_beginOp (hidle : s.pc p = .idle) (hcom : s.committing = false) : Inv { s with
      outstanding := s.outstanding + 1
      pc := update s.pc p (.inOp []) } := by
  refine ⟨?_, ?_, hs.nodup, hs.commits⟩
  · cases hs.phase with
    | closing q st hc _ _ _ => rw [hcom] at hc; cases hc
    | opened hc hpc hi hlh =>
      refine .opened hc (fun q st => ?_) hi fun b => ?_
      · by_cases e : q = p
        · subst e; simp
        · simpa [e] using hpc q st
      rw [hlh b]
      refine or_congr_right ⟨fun ⟨q, hq⟩ => ⟨q, ?_⟩, fun ⟨q, hq⟩ => ⟨q, ?_⟩⟩
      · by_cases e : q = p
        · subst e; rw [hidle] at hq; cases hq
        · simpa [e] using hq
      · by_cases e : q = p
        · subst e; simp at hq
        · simpa [e] using hq
  · show s.outstanding + 1 = _
    rw [count_update, hidle, hs.count]
    simp [Pc.InOp]

theorem inv_logWrite {b : Nat} (hp : (s.pc p).InOp) : Inv { s with
      lh := absorb s.lh b
      pc := update s.pc p (.inOp ((s.pc p).logged ++ [b])) } := by
  obtain ⟨hc, hpc, hi, hlh⟩ := hs.opened hp
  refine ⟨.opened hc (fun q st => ?_) hi fun c => ?_, ?_, nodup_absorb hs.nodup, hs.commits⟩
  · by_cases e : q = p
    · subst e; simp
    · simpa [e] using hpc q st
  · rw [mem_absorb, hlh c]
    constructor
    · rintro ((hc | ⟨q, hq⟩) | rfl)
      · exact .inl hc
      · refine .inr ⟨q, ?_⟩
        by_cases e : q = p
        · subst e; simp [hq]
        · simpa [e] using hq
      · exact .inr ⟨p, by simp⟩
    · rintro (hc | ⟨q, hq⟩)
      · exact .inl (.inl hc)
      by_cases e : q = p
      · subst e
        simp only [update_self, Pc.logged_inOp] at hq
        rcases List.mem_append.mp hq with hq | hq
        · exact .inl (.inr ⟨q, hq⟩)
        · exact .inr (List.mem_singleton.mp hq)
      · exact .inl (.inr ⟨q, by simpa [e] using hq⟩)
  · show s.outstanding = _
    rw [count_update, if_pos hp, hs.count]
    simp [Pc.InOp]

theorem inv_endOp_last (hp : (s.pc p).InOp) (h0 : s.outstanding - 1 = 0) : Inv { s with
      outstanding := s.outstanding - 1
      committing := true
      ended := s.ended ++ [(s.pc p).logged]
      pc := update s.pc p (.commit .entry) } := by
  obtain ⟨-, hpc, hi, hlh⟩ := hs.opened hp
  have hcount : s.outstanding - 1
      = ∑ q, if (update s.pc p (.commit .entry) q).InOp then 1 else 0 := by
    rw [count_update, if_pos hp, ← hs.count]
    simp [Pc.InOp]
  -- with the last operation gone, every other process is idle
  have hidle : ∀ q, q ≠ p → s.pc q = .idle := by
    intro q e
    have hq := not_inOp_of_count (hcount.symm.trans h0) q
    rw [update_of_ne e] at hq
    cases h : s.pc q with
    | idle => rfl
    | inOp l => rw [h] at hq; exact absurd trivial hq
    | commit st => exact absurd h (hpc q st)
  refine ⟨.closing p .entry rfl (by simp) (fun q e => ?_) ⟨hi, fun b => ?_⟩, hcount, hs.nodup,
    hs.commits⟩
  · show update s.pc p (.commit .entry) q = .idle
    rw [update_of_ne e, hidle q e]
  rw [mem_ended_snoc (p := p) (.commit .entry) rfl hlh b]
  refine ⟨?_, .inl⟩
  rintro (h | ⟨q, hq⟩)
  · exact h
  · by_cases e : q = p
    · subst e; rw [update_self] at hq; cases hq
    · rw [update_of_ne e, hidle q e] at hq; cases hq

theorem inv_endOp (hp : (s.pc p).InOp) : Inv { s with
      outstanding := s.outstanding - 1
      ended := s.ended ++ [(s.pc p).logged]
      pc := update s.pc p .idle } := by
  obtain ⟨hc, hpc, hi, hlh⟩ := hs.opened hp
  refine ⟨.opened hc (fun q st => ?_) hi (mem_ended_snoc .idle rfl hlh), ?_, hs.nodup, hs.commits⟩
  · by_cases e : q = p
    · subst e; simp
    · simpa [e] using hpc q st
  · show s.outstanding - 1 = _
    rw [count_update, if_pos hp, hs.count]
    simp [Pc.InOp]

/-- A commit moves on to the stage `st`, keeping every process out of its operations. -/
theorem inv_commit_move {s' : LogState P} {st st' : Stage}
    (hp : s.pc p = .commit st) (hpc : s'.pc = update s.pc p (.commit st'))
    (hout : s'.outstanding = s.outstanding) (hcom : s'.committing = s.committing)
    (hcs : s'.commits = s.commits) (hnd : s'.lh.Nodup) (hst : StageOk s st → StageOk s' st') :
    Inv s' := by
  cases hs.phase with
  | opened _ h _ _ => exact absurd hp (h p st)
  | closing q sq hc hq ho hsq =>
    obtain rfl : q = p := by
      by_contra e
      have := ho p fun e' => e e'.symm
      rw [hp] at this
      cases this
    rw [hp] at hq
    cases hq
    refine ⟨.closing q st' (hcom.trans hc) (by rw [hpc]; simp) (fun r e => ?_) (hst hsq), ?_,
      hnd, by rw [hcs]; exact hs.commits⟩
    · rw [hpc, update_of_ne e, ho r e]
    · rw [hpc, hout, count_update, hp, hs.count]
      simp [Pc.InOp]

theorem inv_commitStep {st : Stage} (hp : s.pc p = .commit st) : Inv (commitStep s p st) := by
  cases st with
  | entry =>
    by_cases hn : 0 < s.lh.length
    · rw [commitStep, if_pos hn]
      exact inv_commit_move hs hp rfl rfl rfl rfl hs.nodup id
    rw [commitStep, if_neg hn]
    refine inv_commit_move hs hp rfl rfl rfl rfl hs.nodup fun ⟨hi, hlh⟩ => ?_
    obtain hnil : s.lh = [] := List.length_eq_zero_iff.mp (by omega)
    refine ⟨hnil, fun b => ?_⟩
    show b ∈ s.installed ↔ _
    rw [hi, ← hlh b, hnil]
  | writeLog tail =>
    by_cases hn : tail < s.lh.length
    · rw [commitStep, if_pos hn]
      exact inv_commit_move hs hp rfl rfl rfl rfl hs.nodup id
    · rw [commitStep, if_neg hn]
      exact inv_commit_move hs hp rfl rfl rfl rfl hs.nodup id
  | writeHead =>
    refine inv_commit_move hs hp rfl rfl rfl rfl hs.nodup fun ⟨hi, hlh⟩ => ⟨?_, hlh⟩
    show s.installed = _
    rw [hi, List.take_zero]
  | install tail =>
    rw [commitStep]
    cases h : s.lh[tail]? with
    | some b =>
      refine inv_commit_move hs hp rfl rfl rfl rfl hs.nodup fun ⟨hi, hlh⟩ => ⟨?_, hlh⟩
      show s.installed ++ [b] = s.lh.take (tail + 1)
      rw [hi, List.take_add_one, h]
      rfl
    | none =>
      refine inv_commit_move hs hp rfl rfl rfl rfl hs.nodup fun ⟨hi, hlh⟩ => ⟨?_, hlh⟩
      show s.installed = s.lh
      rw [hi, List.take_of_length_le (List.getElem?_eq_none_iff.mp h)]
  | clear =>
    refine inv_commit_move hs hp rfl rfl rfl rfl List.nodup_nil fun ⟨hi, hlh⟩ => ⟨rfl, fun b => ?_⟩
    show b ∈ s.installed ↔ b ∈ s.ended.flatten
    rw [hi, hlh b]
  | finish =>
    cases hs.phase with
    | opened _ h _ _ => exact absurd hp (h p _)
    | closing q sq hc hq ho hsq =>
      obtain rfl : q = p := by
        by_contra e
        have := ho p fun e' => e e'.symm
        rw [hp] at this
        cases this
      rw [hp] at hq
      cases hq
      obtain ⟨hnil, hins⟩ := hsq
      -- every process is idle again
      have hall : ∀ r, update s.pc q .idle r = .idle := by
        intro r
        by_cases e : r = q
        · subst e; simp
        · rw [update_of_ne e, ho r e]
      refine ⟨.opened rfl (fun r st => ?_) rfl fun b => ?_, ?_, ?_, ?_⟩
      · show update s.pc q .idle r ≠ _
        rw [hall r]; simp
      · show b ∈ s.lh ↔ b ∈ [].flatten ∨ ∃ r, b ∈ (update s.pc q .idle r).logged
        simp only [hnil, hall, Pc.logged]
        simp
      · show s.outstanding = ∑ r, if (update s.pc q .idle r).InOp then 1 else 0
        rw [count_update, hp, hs.count]
        simp [Pc.InOp]
      · exact hs.nodup
      · intro c hcm
        rcases List.mem_append.mp hcm with h | h
        · exact hs.commits c h
        · rw [List.mem_singleton.mp h]; exact hins

/-- Every step keeps the invariant. -/
theorem inv_step {size : Int} {s' : LogState P} {e : Event P}
    (h : step size s e = some s') : Inv s' := by
  obtain ⟨hen, hrun⟩ := step_iff.mp h
  cases e with
  | beginOp p =>
    obtain ⟨hidle, hcom, -⟩ := hen
    cases hrun
    exact inv_beginOp hs hidle hcom
  | logWrite p b =>
    rw [run] at hrun
    split at hrun
    · cases hrun
    · split at hrun
      · cases hrun
      · cases hrun
        exact inv_logWrite hs hen
  | endOp p =>
    rw [run] at hrun
    split at hrun
    · cases hrun
    split at hrun
    · rename_i h0
      cases hrun
      exact inv_endOp_last hs hen h0
    · cases hrun
      exact inv_endOp hs hen
  | commit p =>
    obtain ⟨st, hp⟩ := hen
    rw [run, hp] at hrun
    cases hrun
    exact inv_commitStep hs hp

end

theorem inv_of_run {size : Int} {G : LogState P → Event P → Prop} (r : LogRun size G s) : Inv s :=
  r.invariant inv_init fun _ _ _ hs _ h => inv_step hs h

/-- **Group commit.**  In every state any interleaving of any number of processes reaches: while
a commit runs no process can take a `log_write` step; `outstanding` is the number of operations
begun and not ended; and every finished commit has installed exactly the blocks logged by the
operations that ended since the commit before it. -/
theorem group_commit {size : Int} {s : LogState P} (r : LogRun size (fun _ _ => True) s) :
    (s.committing = true → ∀ p b, ¬ Enabled s (.logWrite p b)) ∧
      s.outstanding = (Finset.univ.filter fun p => (s.pc p).InOp).card ∧
      ∀ c ∈ s.commits, ∀ b, b ∈ c.1 ↔ ∃ op ∈ c.2, b ∈ op := by
  have hs := inv_of_run r
  refine ⟨fun hc p b hp => ?_, ?_, fun c hcm b => ?_⟩
  · obtain ⟨hc', -⟩ := hs.opened hp
    rw [hc] at hc'
    cases hc'
  · rw [hs.count, Finset.card_filter]
    push_cast
    rfl
  · rw [hs.commits c hcm b, List.mem_flatten]

end

/-- Two operations that overlap and the commit of the second. -/
def twoOps : List (Event (Fin 2)) :=
  [.beginOp 0, .beginOp 1, .logWrite 0 7, .logWrite 1 7, .endOp 0, .logWrite 1 8, .endOp 1]
    ++ List.replicate 10 (.commit 1)

theorem group_commit_two : ∃ s : LogState (Fin 2), LogRun LOGSIZE (fun _ _ => True) s ∧
    s.commits = [([7, 8], [[7], [7, 8]])] ∧
    (s.committing = true → ∀ p b, ¬ Enabled s (.logWrite p b)) ∧
    s.outstanding = (Finset.univ.filter fun p => (s.pc p).InOp).card ∧
    ∀ c ∈ s.commits, ∀ b, b ∈ c.1 ↔ ∃ op ∈ c.2, b ∈ op := by
  obtain ⟨s, r, hc⟩ := Support.exists_run (step LOGSIZE) (fun _ _ => True) LogState.init twoOps
    (fun s => s.commits = [([7, 8], [[7], [7, 8]])]) ⟨_, rfl, rfl⟩
  exact ⟨s, r, hc, group_commit r⟩

end Xv6.Log
