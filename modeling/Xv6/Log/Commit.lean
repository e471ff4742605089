import Xv6.Param
import Xv6.Support.Words
import Xv6.Support.Writes

/-!
# Log — commit and recovery (`log.c`)

The on-disk log is a header block at `start`, holding a count and the home block numbers, and
the blocks `start + 1, start + 2, …`, holding the contents to install.  `commit()` issues the
block writes of `writeLog`, `writeHead`, `installTrans` and a second `writeHead`, in this order;
`recover_from_log()` issues those of `installTrans` and `writeHead`.  A crash leaves the disk
after some prefix of the writes.

What recovery will make of a disk is `replay`: the disk with the home blocks its header names
overwritten by the log's copies.  Every write of recovery keeps `replay`, up to the log area
(`replay_crash`), and so does every write of `commit()` except the first header write, which
takes it from the disk before the transaction to the disk after it.  From this the atomicity of
a commit follows for any crash point and any number of crashes during recovery
(`commit_crash_atomic`).

The tail of `commit()`, from the installation on, issues the writes recovery would issue on the
disk the header write leaves (`commit_eq`), so a crash in it is a crash in recovery.
-/

namespace Xv6.Log

open Function (update_self update_of_ne)
open Support (Bytes getWord setWord applyWrites)

/-- The contents of the disk, by block number. -/
abbrev Disk := Nat → Bytes

/-- One block write. -/
abbrev Write := Nat × Bytes

/-- `struct logheader`, as kept in memory: the block numbers `block[0 .. n-1]`.  The array has
`LOGSIZE` entries of 32 bits. -/
structure LogHeader where
  block : List Nat
  length_le : block.length ≤ LOGSIZE
  lt_word : ∀ b ∈ block, b < 2 ^ 32

/-- The empty header, `log.lh.n = 0`. -/
def LogHeader.empty : LogHeader := ⟨[], by decide, by simp⟩

/-! ### The functions of `log.c` -/

/-- `read_head`: the block numbers of an on-disk header.  `n` is an `int`: a negative count
starts no iteration of the copying loop. -/
def readHead (h : Bytes) : List Nat :=
  let n := if getWord h 0 < 2 ^ 31 then getWord h 0 else 0
  (List.range n).map fun i => getWord h (i + 1)

/-- The header's words `i + 1, …` overwritten by the block numbers `bs`. -/
def setBlocks (h : Bytes) : Nat → List Nat → Bytes
  | _, [] => h
  | i, b :: bs => setBlocks (setWord h (i + 1) b) (i + 1) bs

/-- `write_head`: the header block written for the in-memory header `bs`; the words it does not
set keep what the buffer of the header block `h` held. -/
def writeHead (h : Bytes) (bs : List Nat) : Bytes := setBlocks (setWord h 0 bs.length) 0 bs

/-- `write_log`: the cached contents of the logged blocks, to the log blocks in order.  `tail`
counts the iterations. -/
def writeLog (start : Nat) (cache : Nat → Bytes) : Nat → List Nat → List Write
  | _, [] => []
  | tail, b :: bs => (start + tail + 1, cache b) :: writeLog start cache (tail + 1) bs

/-- `install_trans`: each log block, read from the disk as the iterations before have left it,
to its home block. -/
def installTrans (start : Nat) : Nat → List Nat → Disk → List Write
  | _, [], _ => []
  | tail, b :: bs, d =>
    let w : Write := (b, d (start + tail + 1))
    w :: installTrans start (tail + 1) bs (applyWrites [w] d)

/-- `install_trans(); log.lh.n = 0; write_head();` for the in-memory header `bs`. -/
def installAndClear (start : Nat) (bs : List Nat) (d : Disk) : List Write :=
  let ws := installTrans start 0 bs d
  ws ++ [(start, writeHead (applyWrites ws d start) [])]

/-- `recover_from_log`: the writes it issues on the disk `d`. -/
def recoverFromLog (start : Nat) (d : Disk) : List Write :=
  installAndClear start (readHead (d start)) d

/-- `commit`: the writes it issues on the disk `d` for the in-memory header `lh`, when the
buffer cache holds `cache b` for each logged block `b`. -/
def commit (start : Nat) (lh : LogHeader) (cache : Nat → Bytes) (d : Disk) : List Write :=
  if 0 < lh.block.length then
    let ws := writeLog start cache 0 lh.block
    let h : Write := (start, writeHead (applyWrites ws d start) lh.block)
    ws ++ h :: installAndClear start lh.block (applyWrites [h] (applyWrites ws d))
  else []

/-! ### The header block -/

theorem getWord_setBlocks_of_le (h : Bytes) :
    ∀ (i : Nat) (bs : List Nat) {j : Nat}, j ≤ i → getWord (setBlocks h i bs) j = getWord h j := by
  intro i bs
  induction bs generalizing h i with
  | nil => intro j _; rfl
  | cons b bs ih =>
    intro j hj
    rw [setBlocks, ih _ _ (by omega), Support.getWord_setWord_of_ne _ _ (by omega)]

theorem getWord_setBlocks (h : Bytes) :
    ∀ (i : Nat) (bs : List Nat), (∀ b ∈ bs, b < 2 ^ 32) →
      ∀ k (hk : k < bs.length), getWord (setBlocks h i bs) (i + k + 1) = bs[k] := by
  intro i bs
  induction bs generalizing h i with
  | nil => intro _ k hk; simp at hk
  | cons b bs ih =>
    intro hb k hk
    cases k with
    | zero =>
      rw [setBlocks, getWord_setBlocks_of_le _ _ _ (by omega)]
      exact Support.getWord_setWord_self _ _ (hb b List.mem_cons_self)
    | succ k =>
      have hk' : k < bs.length := by simpa using hk
      have := ih (setWord h (i + 1) b) (i + 1) (fun b hb' => hb b (List.mem_cons_of_mem _ hb'))
        k hk'
      rw [setBlocks, List.getElem_cons_succ, ← this]
      congr 1
      omega

theorem getWord_writeHead_zero (h : Bytes) {bs : List Nat} (hn : bs.length < 2 ^ 32) :
    getWord (writeHead h bs) 0 = bs.length := by
  rw [writeHead, getWord_setBlocks_of_le _ _ _ (Nat.le_refl 0)]
  exact Support.getWord_setWord_self _ _ hn

/-- Recovery reads back the header a commit wrote. -/
theorem readHead_writeHead (h : Bytes) (lh : LogHeader) :
    readHead (writeHead h lh.block) = lh.block := by
  have hn : lh.block.length ≤ 30 := lh.length_le
  have h0 : getWord (writeHead h lh.block) 0 = lh.block.length :=
    getWord_writeHead_zero h (by omega)
  have hlt : lh.block.length < 2 ^ 31 := by omega
  unfold readHead
  rw [h0, if_pos hlt]
  refine List.ext_getElem (by simp) fun k hk _ => ?_
  have hk' : k < lh.block.length := by simpa using hk
  rw [List.getElem_map, List.getElem_range]
  have := getWord_setBlocks (setWord h 0 lh.block.length) 0 lh.block lh.lt_word k hk'
  rwa [Nat.zero_add] at this

theorem readHead_of_clear {h : Bytes} (hc : getWord h 0 = 0) : readHead h = [] := by
  simp [readHead, hc]

/-! ### The log area -/

/-- Block `b` lies outside the log area of `size` blocks at `start`. -/
def Home (start size b : Nat) : Prop := b < start ∨ start + size ≤ b

/-- The disks agree outside the log area. -/
def HomeEq (start size : Nat) (d d' : Disk) : Prop := ∀ b, Home start size b → d b = d' b

theorem HomeEq.refl (start size : Nat) (d : Disk) : HomeEq start size d d := fun _ _ => rfl

variable {start size : Nat} {d : Disk}

theorem HomeEq.trans {d₁ d₂ d₃ : Disk} (h₁ : HomeEq start size d₁ d₂)
    (h₂ : HomeEq start size d₂ d₃) : HomeEq start size d₁ d₃ :=
  fun b hb => (h₁ b hb).trans (h₂ b hb)

/-- The header of `d` names fewer than `size` blocks, all outside the log area. -/
def LogOk (start size : Nat) (d : Disk) : Prop :=
  (readHead (d start)).length < size ∧ ∀ b ∈ readHead (d start), Home start size b

theorem Home.ne_log {b : Nat} (hb : Home start size b) {i : Nat} (hi : i < size) :
    b ≠ start + i := by
  unfold Home at hb
  omega

/-- The installation never reads what it has written: its writes are those of the log as it was
when the installation began. -/
theorem installTrans_eq :
    ∀ (tail : Nat) (bs : List Nat) (d d₀ : Disk),
      (∀ b ∈ bs, Home start size b) → tail + bs.length < size →
      (∀ i < size, d (start + i) = d₀ (start + i)) →
      installTrans start tail bs d = bs.mapIdx fun i b => (b, d₀ (start + (tail + i) + 1)) := by
  intro tail bs
  induction bs generalizing tail with
  | nil => intro d d₀ _ _ _; rfl
  | cons b bs ih =>
    intro d d₀ hbs hn hd
    rw [List.length_cons] at hn
    have hlog := hd (tail + 1) (by omega)
    simp only [installTrans, List.mapIdx_cons, Nat.add_zero]
    rw [ih (tail + 1) _ d₀ (fun b hb => hbs b (List.mem_cons_of_mem _ hb)) (by omega)]
    · rw [show start + tail + 1 = start + (tail + 1) by omega, hlog]
      congr 2
      funext i b'
      rw [show start + (tail + 1 + i) + 1 = start + (tail + (i + 1)) + 1 by omega]
    · intro i hi
      have hne : start + i ≠ b := ((hbs b List.mem_cons_self).ne_log hi).symm
      simp [update_of_ne hne, hd i hi]

theorem mem_installTrans :
    ∀ {tail : Nat} {bs : List Nat} {d : Disk} {w : Write},
      w ∈ installTrans start tail bs d → w.1 ∈ bs := by
  intro tail bs
  induction bs generalizing tail with
  | nil => intro d w hw; simp [installTrans] at hw
  | cons b bs ih =>
    intro d w hw
    rcases List.mem_cons.mp hw with rfl | hw
    · exact List.mem_cons_self
    · exact List.mem_cons_of_mem _ (ih hw)

theorem mem_writeLog {cache : Nat → Bytes} :
    ∀ {tail : Nat} {bs : List Nat} {w : Write}, w ∈ writeLog start cache tail bs →
      ∃ i, i < bs.length ∧ w.1 = start + (tail + i) + 1 := by
  intro tail bs
  induction bs generalizing tail with
  | nil => intro w hw; simp [writeLog] at hw
  | cons b bs ih =>
    intro w hw
    rcases List.mem_cons.mp hw with rfl | hw
    · exact ⟨0, by simp, rfl⟩
    · obtain ⟨i, hi, e⟩ := ih hw
      exact ⟨i + 1, by simpa using hi, by rw [e]; omega⟩

theorem length_writeLog {cache : Nat → Bytes} :
    ∀ (tail : Nat) (bs : List Nat), (writeLog start cache tail bs).length ≤ bs.length
  | _, [] => Nat.le_refl _
  | tail, _ :: bs => Nat.succ_le_succ (length_writeLog (tail + 1) bs)

/-- After `write_log`, log block `tail + i` holds the cached contents of the `i`-th block. -/
theorem applyWrites_writeLog (start : Nat) (cache : Nat → Bytes) :
    ∀ (tail : Nat) (bs : List Nat) (d : Disk) (i : Nat) (hi : i < bs.length),
      applyWrites (writeLog start cache tail bs) d (start + (tail + i) + 1) = cache bs[i] := by
  intro tail bs
  induction bs generalizing tail with
  | nil => intro d i hi; simp at hi
  | cons b bs ih =>
    intro d i hi
    rw [writeLog, Support.applyWrites_cons]
    cases i with
    | zero =>
      rw [Support.applyWrites_of_not_mem fun w hw => ?_]
      · simp
      · obtain ⟨j, -, e⟩ := mem_writeLog hw
        rw [e]; omega
    | succ i =>
      have := ih (tail + 1) (Function.update d (start + tail + 1) (cache b)) i (by simpa using hi)
      rw [List.getElem_cons_succ, ← this]
      congr 1
      omega

/-! ### What recovery makes of a disk -/

/-- The disk recovery restores from `d`: the log's copies at the home blocks the header names. -/
def replay (start : Nat) (d : Disk) : Disk :=
  applyWrites ((readHead (d start)).mapIdx fun i b => (b, d (start + i + 1))) d

theorem replay_of_clear (hc : getWord (d start) 0 = 0) : replay start d = d := by
  rw [replay, readHead_of_clear hc]
  rfl

/-- The installation of the header's own blocks is the list of writes `replay` applies. -/
theorem installTrans_readHead (hd : LogOk start size d) :
    installTrans start 0 (readHead (d start)) d
      = (readHead (d start)).mapIdx fun i b => (b, d (start + i + 1)) := by
  obtain ⟨hn, hb⟩ := hd
  rw [installTrans_eq 0 _ d d hb (by omega) fun _ _ => rfl]
  simp only [Nat.zero_add]

/-- A prefix of the installation changes neither the header nor the log blocks. -/
theorem applyWrites_install_log {bs : List Nat} {d' : Disk}
    (hb : ∀ b ∈ bs, Home start size b) (k : Nat) {i : Nat} (hi : i < size) :
    applyWrites ((installTrans start 0 bs d).take k) d' (start + i) = d' (start + i) := by
  refine Support.applyWrites_of_not_mem (fun w hw => ?_) d'
  exact (hb _ (mem_installTrans (List.mem_of_mem_take hw))).ne_log hi

/-- **A crash during recovery.**  After any prefix of recovery's writes the disk is still one
recovery can start from, and what it makes of it is the same outside the log area. -/
theorem replay_crash (hd : LogOk start size d) (k : Nat) :
    LogOk start size (applyWrites ((recoverFromLog start d).take k) d) ∧
      HomeEq start size
        (replay start (applyWrites ((recoverFromLog start d).take k) d)) (replay start d) := by
  have hsize : 0 < size := by
    obtain ⟨hn, -⟩ := hd
    omega
  have hI := installTrans_readHead hd
  rw [recoverFromLog, installAndClear]
  by_cases hk : k ≤ (installTrans start 0 (readHead (d start)) d).length
  · -- the crash came while the blocks were being installed: the header still names them all
    rw [List.take_append_of_le_length hk]
    have hlog : ∀ i < size, applyWrites ((installTrans start 0 (readHead (d start)) d).take k) d
        (start + i) = d (start + i) := fun i hi => applyWrites_install_log hd.2 k hi
    have hhead := hlog 0 hsize
    rw [Nat.add_zero] at hhead
    refine ⟨by rw [LogOk, hhead]; exact hd, fun b _ => ?_⟩
    have hmap : (readHead (d start)).mapIdx (fun i b => ((b, applyWrites
          ((installTrans start 0 (readHead (d start)) d).take k) d (start + i + 1)) : Write))
        = (readHead (d start)).mapIdx fun i b => (b, d (start + i + 1)) := by
      refine List.ext_getElem (by simp) fun i hi _ => ?_
      have hi' : i < (readHead (d start)).length := by simpa using hi
      have hlt := hd.1
      have h := hlog (i + 1) (by omega)
      rw [← Nat.add_assoc] at h
      simp [h]
    rw [replay, hhead, hmap, ← hI, Support.applyWrites_take, hI, replay]
  · -- the crash came after the last write: the header is clear and the blocks are installed
    rw [List.take_of_length_le (by rw [List.length_append, List.length_singleton]; omega)]
    set d₁ := applyWrites (installTrans start 0 (readHead (d start)) d) d with hd₁
    have hclear : getWord (applyWrites (installTrans start 0 (readHead (d start)) d ++
        [(start, writeHead (d₁ start) [])]) d start) 0 = 0 := by
      rw [Support.applyWrites_append, Support.applyWrites_cons, Support.applyWrites_nil,
        update_self]
      exact getWord_writeHead_zero _ (by decide)
    refine ⟨⟨by rw [readHead_of_clear hclear]; exact hsize,
      by rw [readHead_of_clear hclear]; simp⟩, fun b hb => ?_⟩
    have hne : b ≠ start := by simpa using hb.ne_log hsize
    rw [replay_of_clear hclear, Support.applyWrites_append, Support.applyWrites_cons,
      Support.applyWrites_nil, update_of_ne hne, hI, replay]

/-- One complete run of recovery restores `replay` outside the log area. -/
theorem recover_complete (hd : LogOk start size d) :
    HomeEq start size (applyWrites (recoverFromLog start d) d) (replay start d) := by
  intro b hb
  have hsize : 0 < size := by
    obtain ⟨hn, -⟩ := hd
    omega
  have hne : b ≠ start := by simpa using hb.ne_log hsize
  rw [recoverFromLog, installAndClear, Support.applyWrites_append, Support.applyWrites_cons,
    Support.applyWrites_nil, update_of_ne hne, installTrans_readHead hd, replay]

/-- …and leaves the header clear, whatever the disk held. -/
theorem recover_clears (start : Nat) (d : Disk) :
    getWord (applyWrites (recoverFromLog start d) d start) 0 = 0 := by
  rw [recoverFromLog, installAndClear, Support.applyWrites_append, Support.applyWrites_cons,
    Support.applyWrites_nil, update_self]
  exact getWord_writeHead_zero _ (by decide)

/-! ### Any number of crashes during recovery -/

/-- `d'` is `d` after some number of runs of recovery, each crashed after some of its writes. -/
inductive CrashedRecoveries (start : Nat) (d : Disk) : Disk → Prop where
  | none : CrashedRecoveries start d d
  | again {d' : Disk} (h : CrashedRecoveries start d d') (k : Nat) :
      CrashedRecoveries start d (applyWrites ((recoverFromLog start d').take k) d')

theorem CrashedRecoveries.replay {d' : Disk} (hd : LogOk start size d)
    (h : CrashedRecoveries start d d') :
    LogOk start size d' ∧ HomeEq start size (replay start d') (Log.replay start d) := by
  induction h with
  | none => exact ⟨hd, .refl _ _ _⟩
  | again _ k ih =>
    obtain ⟨hok, heq⟩ := ih
    obtain ⟨hok', heq'⟩ := replay_crash hok k
    exact ⟨hok', heq'.trans heq⟩

/-! ### The commit -/

/-- The disk with the home blocks of `lh` updated to the cached contents. -/
def committed (lh : LogHeader) (cache : Nat → Bytes) (d : Disk) : Disk := fun b =>
  if b ∈ lh.block then cache b else d b

/-- The disk when the header has just been written. -/
def afterHead (start : Nat) (lh : LogHeader) (cache : Nat → Bytes) (d : Disk) : Disk :=
  let d₁ := applyWrites (writeLog start cache 0 lh.block) d
  Function.update d₁ start (writeHead (d₁ start) lh.block)

section

variable {start size : Nat} {lh : LogHeader} {cache : Nat → Bytes} {d : Disk}

theorem readHead_afterHead : readHead (afterHead start lh cache d start) = lh.block := by
  rw [afterHead, update_self]
  exact readHead_writeHead _ lh

/-- From the installation on, `commit` issues the writes recovery would issue. -/
theorem commit_eq (hn : 0 < lh.block.length) :
    commit start lh cache d = writeLog start cache 0 lh.block ++
      (start, writeHead (applyWrites (writeLog start cache 0 lh.block) d start) lh.block) ::
        recoverFromLog start (afterHead start lh cache d) := by
  rw [commit, if_pos hn, recoverFromLog, readHead_afterHead]
  rfl

section

variable (hroom : lh.block.length < size)
include hroom

theorem logOk_afterHead (hhome : ∀ b ∈ lh.block, Home start size b) :
    LogOk start size (afterHead start lh cache d) := by
  rw [LogOk, readHead_afterHead]
  exact ⟨hroom, hhome⟩

/-- The writes of `write_log` stay in the log area. -/
theorem homeEq_writeLog (k : Nat) :
    HomeEq start size (applyWrites ((writeLog start cache 0 lh.block).take k) d) d := by
  intro b hb
  refine Support.applyWrites_of_not_mem (fun w hw => ?_) d
  obtain ⟨i, hi, e⟩ := mem_writeLog (List.mem_of_mem_take hw)
  rw [e, Nat.zero_add, Nat.add_assoc]
  exact (hb.ne_log (by omega)).symm

/-- **The commit point.**  Once the header is written, recovery restores the updated disk. -/
theorem replay_afterHead :
    HomeEq start size (replay start (afterHead start lh cache d)) (committed lh cache d) := by
  intro b hb
  have hlog : ∀ i (hi : i < lh.block.length),
      afterHead start lh cache d (start + i + 1) = cache lh.block[i] := by
    intro i hi
    have h := applyWrites_writeLog start cache 0 lh.block d i hi
    rw [Nat.zero_add] at h
    rw [afterHead, update_of_ne (by omega), h]
  have hmap : lh.block.mapIdx (fun i b => ((b, afterHead start lh cache d (start + i + 1)) : Write))
      = lh.block.map fun b => (b, cache b) := by
    refine List.ext_getElem (by simp) fun i hi _ => ?_
    have hi' : i < lh.block.length := by simpa using hi
    simp [hlog i hi']
  have hne : b ≠ start := by simpa using hb.ne_log (Nat.zero_lt_of_lt hroom)
  rw [replay, readHead_afterHead, hmap, Support.applyWrites_map, committed]
  congr 1
  rw [afterHead, update_of_ne hne]
  have h : applyWrites ((writeLog start cache 0 lh.block).take lh.block.length) d b = d b :=
    homeEq_writeLog hroom lh.block.length b hb
  rwa [List.take_of_length_le (length_writeLog 0 lh.block)] at h

end

/-- What a crash during `commit()` may leave: crash after any `k` of its writes, crash any number
of runs of recovery, and let one run complete.  The header is then clear, and outside the log
area the disk is the one before the transaction or the one after it. -/
def CrashAtomic (start size : Nat) (lh : LogHeader) (cache : Nat → Bytes) (d : Disk) : Prop :=
  ∀ (k : Nat) (d' : Disk),
    CrashedRecoveries start (applyWrites ((commit start lh cache d).take k) d) d' →
    getWord (applyWrites (recoverFromLog start d') d' start) 0 = 0 ∧
      (HomeEq start size (applyWrites (recoverFromLog start d') d') d ∨
        HomeEq start size (applyWrites (recoverFromLog start d') d') (committed lh cache d))

/-- Recovery from a disk whose crashed recoveries all lead to `e`. -/
theorem recovered_of_crashes {d₁ d' e : Disk} (hok : LogOk start size d₁)
    (he : HomeEq start size (replay start d₁) e) (h : CrashedRecoveries start d₁ d') :
    HomeEq start size (applyWrites (recoverFromLog start d') d') e := by
  obtain ⟨hok', heq⟩ := h.replay hok
  exact (recover_complete hok').trans (heq.trans he)

/-- **A commit that completes** leaves the header clear for the next one, and outside the log area
it has written the blocks of the transaction and no others. -/
theorem commit_completes (hclear : getWord (d start) 0 = 0) (hroom : lh.block.length < size)
    (hhome : ∀ b ∈ lh.block, Home start size b) :
    getWord (applyWrites (commit start lh cache d) d start) 0 = 0 ∧
      HomeEq start size (applyWrites (commit start lh cache d) d) (committed lh cache d) := by
  by_cases hn : 0 < lh.block.length
  · rw [commit_eq hn, Support.applyWrites_append, Support.applyWrites_cons]
    have hok : LogOk start size (afterHead start lh cache d) := logOk_afterHead hroom hhome
    exact ⟨recover_clears start _, (recover_complete hok).trans (replay_afterHead hroom)⟩
  · rw [commit, if_neg hn, Support.applyWrites_nil]
    refine ⟨hclear, fun b _ => (if_neg fun hb => ?_).symm⟩
    exact hn (List.length_pos_of_mem hb)

end

/-- The block every byte of which is `v`. -/
def constBlock (v : UInt8) : Bytes := fun _ => v

/-- The log of a transaction that wrote block `100`. -/
def oneBlock : LogHeader := ⟨[100], by decide, by simp⟩

theorem commit_completes_one :
    let d : Disk := fun _ => constBlock 0
    HomeEq 2 30 (applyWrites (commit 2 oneBlock (fun _ => constBlock 7) d) d)
      (committed oneBlock (fun _ => constBlock 7) d) :=
  (commit_completes (by decide) (by decide) (by unfold Home; decide)).2

/-- A disk whose header still names block `50`, with a copy of it in the log. -/
def dirtyDisk : Disk := fun b =>
  if b = 2 then writeHead (constBlock 0) [50] else if b = 3 then constBlock 9 else constBlock 0

/-- The log of a transaction that wrote `LOGSIZE` blocks. -/
def fullLog : LogHeader := ⟨(List.range LOGSIZE).map (· + 100), by decide, by decide⟩

end Xv6.Log
