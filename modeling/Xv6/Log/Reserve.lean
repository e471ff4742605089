import Xv6.Log.Group

/-!
# Log — the reservation of log space (`begin_op`, `log_write`)

`begin_op` admits an operation only when the log has room for `MAXOPBLOCKS` blocks of it and of
every operation in progress.  For operations that keep to this (`Within`) the blocks in the log
and those still reserved never exceed `LOGSIZE` (`reserved_of_run`).

`log_write` checks two bounds before it looks for the block in the log: `LOGSIZE`, and
`log.size - 1`, which leaves out the header.  `mkfs` sets `sb.nlog` to `LOGSIZE`, so the second
bound is one less than what `begin_op` has promised: `log_write` panics exactly when the
transaction holds `LOGSIZE - 1` blocks (`log_write_panics_iff`), also for a block the log would
absorb, and three operations that use their reservations get there (`log_write_panics`).
-/

namespace Xv6.Log

open Function (update)

section

variable {P : Type}

/-- The number of distinct blocks of a list. -/
def distinct (l : List Nat) : Nat := l.toFinset.card

/-- The operation has logged, with this block, at most `MAXOPBLOCKS` distinct ones. -/
def Within (s : LogState P) : Event P → Prop
  | .logWrite p b => distinct ((s.pc p).logged ++ [b]) ≤ MAXOPBLOCKS
  | _ => True

instance (s : LogState P) : DecidablePred (Within s)
  | .logWrite p b => inferInstanceAs (Decidable (distinct ((s.pc p).logged ++ [b]) ≤ MAXOPBLOCKS))
  | .beginOp _ => .isTrue trivial
  | .endOp _ => .isTrue trivial
  | .commit _ => .isTrue trivial

/-- What is left of the reservation of a process. -/
def Pc.left : Pc → Int
  | .inOp l => MAXOPBLOCKS - distinct l
  | _ => 0

/-- A commit step moves its process to a point outside every operation and logs nothing. -/
theorem commitStep_pc [DecidableEq P] (s : LogState P) (p : P) (st : Stage) :
    ∃ pc : Pc, (commitStep s p st).pc = update s.pc p pc ∧ pc.logged = [] ∧
      pc.left = 0 ∧ (commitStep s p st).lh.length ≤ s.lh.length := by
  cases st with
  | entry => exact ⟨_, rfl, rfl, rfl, Nat.le_refl _⟩
  | writeLog tail => exact ⟨_, rfl, rfl, rfl, Nat.le_refl _⟩
  | writeHead => exact ⟨_, rfl, rfl, rfl, Nat.le_refl _⟩
  | install tail =>
    rw [commitStep]
    cases s.lh[tail]? with
    | some b => exact ⟨_, rfl, rfl, rfl, Nat.le_refl _⟩
    | none => exact ⟨_, rfl, rfl, rfl, Nat.le_refl _⟩
  | clear => exact ⟨_, rfl, rfl, rfl, Nat.zero_le _⟩
  | finish => exact ⟨_, rfl, rfl, rfl, Nat.le_refl _⟩

variable [Fintype P]

/-- The distinct blocks logged since the last commit, by the operations that have ended and by
those in progress. -/
def txBlocks (s : LogState P) : Finset Nat :=
  s.ended.flatten.toFinset ∪ Finset.univ.biUnion fun p => (s.pc p).logged.toFinset

/-- What is left of all the reservations. -/
def left (s : LogState P) : Int := ∑ p, (s.pc p).left

/-! ### The reservations cover the log -/

/-- Every operation has kept to its reservation, and the log and the reservations fit. -/
structure Reserved (s : LogState P) : Prop where
  within : ∀ p, distinct (s.pc p).logged ≤ MAXOPBLOCKS
  fits : (s.lh.length : Int) + left s ≤ LOGSIZE

theorem Pc.left_le (pc : Pc) : pc.left ≤ MAXOPBLOCKS * if pc.InOp then 1 else 0 := by
  cases pc with
  | idle => decide
  | inOp l =>
    rw [if_pos (show (Pc.inOp l).InOp from trivial), Pc.left]
    omega
  | commit st => simp [Pc.left, Pc.InOp]

theorem Pc.left_nonneg {pc : Pc} (h : distinct pc.logged ≤ MAXOPBLOCKS) : 0 ≤ pc.left := by
  cases pc with
  | idle => exact Int.le_refl 0
  | inOp l =>
    rw [Pc.logged_inOp] at h
    rw [Pc.left]
    omega
  | commit st => exact Int.le_refl 0

variable {s : LogState P} {p : P}

/-- The operations in progress reserve at most `MAXOPBLOCKS` each. -/
theorem left_le (hs : Inv s) : left s ≤ MAXOPBLOCKS * s.outstanding := by
  rw [hs.count, Finset.mul_sum]
  exact Finset.sum_le_sum fun p _ => (s.pc p).left_le

theorem reserved_init : Reserved (LogState.init : LogState P) where
  within := fun _ => Nat.zero_le _
  fits := by simp [LogState.init, left, Pc.left]

variable [DecidableEq P]

/-- Between commits the log lists the distinct blocks of the transaction. -/
theorem card_txBlocks (hs : Inv s) (hp : (s.pc p).InOp) : (txBlocks s).card = s.lh.length := by
  obtain ⟨-, -, -, hlh⟩ := hs.opened hp
  rw [← List.toFinset_card_of_nodup hs.nodup]
  congr 1
  ext b
  simp [txBlocks, hlh b]

theorem left_update (s : LogState P) (p : P) (pc : Pc) :
    ∑ q, (update s.pc p pc q).left = left s - (s.pc p).left + pc.left :=
  Support.sum_update Pc.left s.pc p pc

theorem within_update (hr : Reserved s) (p : P) {pc : Pc}
    (h : distinct pc.logged ≤ MAXOPBLOCKS) (q : P) :
    distinct (update s.pc p pc q).logged ≤ MAXOPBLOCKS := by
  by_cases e : q = p
  · subst e; rw [Function.update_self]; exact h
  · rw [Function.update_of_ne e]; exact hr.within q

/-- A block logged by an operation in progress is in the log. -/
theorem logged_sub_lh (hs : Inv s) (hp : (s.pc p).InOp) {b : Nat}
    (hb : b ∈ (s.pc p).logged) : b ∈ s.lh := by
  obtain ⟨-, -, -, hlh⟩ := hs.opened hp
  exact (hlh b).mpr (.inr ⟨p, hb⟩)

/-- Logging a block takes from the reservation at least what it adds to the log. -/
theorem length_absorb_le (hs : Inv s) (hp : (s.pc p).InOp) (b : Nat) :
    ((absorb s.lh b).length : Int) + (Pc.inOp ((s.pc p).logged ++ [b])).left
      ≤ s.lh.length + (s.pc p).left := by
  obtain ⟨l, hl⟩ := hp.eq
  have hset : (l ++ [b]).toFinset = insert b l.toFinset := by
    ext c
    simp
  simp only [hl, Pc.logged_inOp, Pc.left, distinct, hset]
  rw [absorb_eq]
  by_cases hb : b ∈ s.lh
  · rw [if_pos hb]
    have := Finset.card_le_card (Finset.subset_insert b l.toFinset)
    omega
  · have hbl : b ∉ l.toFinset := fun h => hb (logged_sub_lh hs hp (by rw [hl]; simpa using h))
    rw [if_neg hb, Finset.card_insert_of_notMem hbl, List.length_append, List.length_singleton]
    omega

theorem reserved_step {size : Int} {s' : LogState P} {e : Event P} (hs : Inv s)
    (hr : Reserved s) (hw : Within s e) (h : step size s e = some s') : Reserved s' := by
  obtain ⟨hen, hrun⟩ := step_iff.mp h
  cases e with
  | beginOp p =>
    obtain ⟨hidle, -, hroom⟩ := hen
    cases hrun
    refine ⟨within_update hr p (Nat.zero_le _), ?_⟩
    show (s.lh.length : Int) + ∑ q, (update s.pc p (.inOp []) q).left ≤ LOGSIZE
    have hle := left_le hs
    rw [left_update, hidle, show (Pc.inOp []).left = MAXOPBLOCKS from rfl,
      show Pc.idle.left = 0 from rfl]
    rw [add_mul, one_mul, mul_comm] at hroom
    omega
  | logWrite p b =>
    rw [run] at hrun
    split at hrun
    · cases hrun
    split at hrun
    · cases hrun
    cases hrun
    refine ⟨within_update hr p hw, ?_⟩
    show ((absorb s.lh b).length : Int)
      + ∑ q, (update s.pc p (.inOp ((s.pc p).logged ++ [b])) q).left ≤ LOGSIZE
    have hfit := hr.fits
    have hle := length_absorb_le hs hen b
    rw [left_update]
    omega
  | endOp p =>
    have hnn := Pc.left_nonneg (hr.within p)
    have hfit := hr.fits
    rw [run] at hrun
    split at hrun
    · cases hrun
    split at hrun
    · cases hrun
      refine ⟨within_update hr p (Nat.zero_le _), ?_⟩
      show (s.lh.length : Int) + ∑ q, (update s.pc p (.commit .entry) q).left ≤ LOGSIZE
      rw [left_update, show (Pc.commit .entry).left = 0 from rfl]
      omega
    · cases hrun
      refine ⟨within_update hr p (Nat.zero_le _), ?_⟩
      show (s.lh.length : Int) + ∑ q, (update s.pc p .idle q).left ≤ LOGSIZE
      rw [left_update, show Pc.idle.left = 0 from rfl]
      omega
  | commit p =>
    obtain ⟨st, hp⟩ := hen
    rw [run, hp] at hrun
    cases hrun
    obtain ⟨pc, hpc, hlogged, hleft, hlen⟩ := commitStep_pc s p st
    refine ⟨fun q => ?_, ?_⟩
    · rw [hpc]
      exact within_update hr p (by rw [hlogged]; exact Nat.zero_le _) q
    · have hfit := hr.fits
      rw [left, hpc, left_update, hleft, hp, show (Pc.commit st).left = 0 from rfl]
      omega

theorem reserved_of_run {size : Int} (r : LogRun size Within s) : Inv s ∧ Reserved s := by
  refine r.invariant (I := fun s => Inv s ∧ Reserved s) ⟨inv_init, reserved_init⟩ ?_
  rintro s e s' ⟨hi, hr⟩ hw h
  exact ⟨inv_step hi h, reserved_step hi hr hw h⟩

/-- **Reservation.**  In every state operations within their reservations reach, a `log_write`
panics exactly when the transaction already holds `LOGSIZE - 1` distinct blocks or more, and then
at most one block of all the reservations is left. -/
theorem log_write_panics_iff {s : LogState P} (r : LogRun LOGSIZE Within s) {p : P} {b : Nat}
    (hp : Enabled s (.logWrite p b)) :
    (run LOGSIZE s (.logWrite p b) = .error "too big a transaction" ↔
      LOGSIZE - 1 ≤ (txBlocks s).card) ∧
    (LOGSIZE - 1 ≤ (txBlocks s).card → left s ≤ 1) := by
  obtain ⟨hi, hr⟩ := reserved_of_run r
  have hcard := card_txBlocks hi hp
  have hsize : LOGSIZE = 30 := rfl
  rw [hcard]
  refine ⟨?_, fun h => ?_⟩
  · rw [run]
    split
    · rename_i h
      exact ⟨fun _ => by omega, fun _ => rfl⟩
    rename_i h
    refine ⟨fun e => ?_, fun h' => absurd (.inr (by omega)) h⟩
    -- the other panic has another text
    split at e
    · simp at e
    · cases e
  · have hfit := hr.fits
    omega

end

/-- Three operations at once, which log ten, nine and ten blocks, all different. -/
def threeOps : List (Event (Fin 3)) :=
  [.beginOp 0, .beginOp 1, .beginOp 2]
    ++ (List.range 10).map (fun i => .logWrite 0 (100 + i))
    ++ (List.range 9).map (fun i => .logWrite 1 (200 + i))
    ++ (List.range 10).map (fun i => .logWrite 2 (300 + i))

/-- The tenth block of the second operation, well within its reservation, panics: the log holds
`LOGSIZE - 1` blocks, and `log.size` counts the header. -/
theorem log_write_panics : ∃ s : LogState (Fin 3), LogRun LOGSIZE Within s ∧
    Enabled s (.logWrite 1 209) ∧ Within s (.logWrite 1 209) ∧
    run LOGSIZE s (.logWrite 1 209) = .error "too big a transaction" := by
  exact Support.exists_run (step LOGSIZE) Within LogState.init threeOps _
    ⟨_, rfl, trivial, of_decide_eq_true rfl, rfl⟩

/-- One operation and its first block: the condition fails, and there is no panic. -/
theorem log_write_panics_iff_first : ∃ s : LogState (Fin 3), LogRun LOGSIZE Within s ∧
    Enabled s (.logWrite 0 7) ∧ ¬ LOGSIZE - 1 ≤ (txBlocks s).card ∧
    run LOGSIZE s (.logWrite 0 7) ≠ .error "too big a transaction" := by
  obtain ⟨s, r, hen, hcard⟩ := Support.exists_run (step LOGSIZE) Within LogState.init
    [.beginOp (0 : Fin 3)] (fun s => Enabled s (.logWrite 0 7) ∧ ¬ LOGSIZE - 1 ≤ (txBlocks s).card)
    ⟨_, rfl, by exact trivial, by decide⟩
  exact ⟨s, r, hen, hcard, fun h => hcard ((log_write_panics_iff r hen).1.mp h)⟩

end Xv6.Log
