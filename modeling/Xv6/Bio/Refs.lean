import Xv6.Bio.Cache
import Xv6.Support.Table

/-!
# Bio — references to buffers

A reference to a buffer is a process that waits for its lock, has its lock, or is about to give the
reference back; `refcnt` is the number of these.  So a buffer that `bget` recycles is no one's, and
a process that has a buffer has the one of its block.  `Refs` says this of a cache, and each part of
a step keeps it (`Refs.hit`, `Refs.recycle`, …).
-/

namespace Xv6.Bio

open Function (update update_self update_of_ne)
open Support (Links)

variable {P D : Type} [DecidableEq P]

/-! ### The invariant -/

/-- The process waits for `b`, or is about to give its reference back. -/
def Pc.pending (b : Fin NBUF) : Pc → Int
  | .waiting _ b' => if b' = b then 1 else 0
  | .releasing b' => if b' = b then 1 else 0
  | _ => 0

/-- The references of process `p` to buffer `b`. -/
def Cache.uses (c : Cache P D) (b : Fin NBUF) (p : P) : Int :=
  (c.pc p).pending b + if c.lock b = some p then 1 else 0

/-- **The references**: the list holds every buffer, the counts are right, and a process that reads
a block has that block's buffer. -/
structure Refs [Fintype P] (c : Cache P D) : Prop where
  ring : ∃ l, c.links.Ring l ∧ ∀ b, b ∈ l
  count : ∀ b, ((c.buf b).refcnt : Int) = ∑ p, c.uses b p
  used : ∀ b, (c.buf b).refcnt ≠ 0 → (c.buf b).dev = ROOTDEV
  waits : ∀ p n b, c.pc p = .waiting n b → (c.buf b).dev = ROOTDEV ∧ (c.buf b).blockno = n
  checks : ∀ p n b, c.pc p = .checking n b → c.lock b = some p ∧ (c.buf b).dev = ROOTDEV ∧
    (c.buf b).blockno = n
  held : ∀ p b, c.lock b = some p → (∀ n, c.pc p ≠ .checking n b) → (c.buf b).valid = true
  saved : ∀ b, c.lock b = none → c.unsaved b = false
  unique : ∀ b b', (c.buf b).dev = ROOTDEV → (c.buf b').dev = ROOTDEV →
    (c.buf b).blockno = (c.buf b').blockno → b = b'

section

variable {c c' : Cache P D} {b : Fin NBUF} {p : P} {n : Nat}

omit [DecidableEq P] in
@[simp] theorem setBuf_self (c : Cache P D) (b : Fin NBUF) (f : Buf D → Buf D) :
    (c.setBuf b f).buf b = f (c.buf b) := update_self ..

omit [DecidableEq P] in
theorem setBuf_of_ne {b' : Fin NBUF} (f : Buf D → Buf D) (h : b' ≠ b) :
    (c.setBuf b f).buf b' = c.buf b' := update_of_ne h ..

@[simp] theorem goto_self (c : Cache P D) (p : P) (pc : Pc) : (c.goto p pc).pc p = pc :=
  update_self ..

theorem goto_of_ne {q : P} (pc : Pc) (h : q ≠ p) : (c.goto p pc).pc q = c.pc q := update_of_ne h ..

@[simp] theorem goto_buf (c : Cache P D) (p : P) (pc : Pc) : (c.goto p pc).buf = c.buf := rfl

@[simp] theorem pending_idle (b : Fin NBUF) : Pc.idle.pending b = 0 := rfl

/-- The references of the process that has moved. -/
theorem uses_goto (c : Cache P D) (b : Fin NBUF) (p : P) (pc : Pc) :
    (c.goto p pc).uses b p = pc.pending b + if c.lock b = some p then 1 else 0 := by
  rw [Cache.uses, goto_self]
  rfl

theorem uses_of {pc : Pc} (b : Fin NBUF) (h : c.pc p = pc) :
    c.uses b p = pc.pending b + if c.lock b = some p then 1 else 0 := by
  rw [Cache.uses, h]

theorem pending_nonneg (pc : Pc) (b : Fin NBUF) : 0 ≤ pc.pending b := by
  cases pc with
  | idle => exact le_rfl
  | checking => exact le_rfl
  | waiting n b' =>
    rw [Pc.pending]
    split <;> decide
  | releasing b' =>
    rw [Pc.pending]
    split <;> decide

theorem uses_nonneg (c : Cache P D) (b : Fin NBUF) (p : P) : 0 ≤ c.uses b p := by
  have := pending_nonneg (c.pc p) b
  rw [Cache.uses]
  split <;> omega

variable [Fintype P]

section

variable (h : Refs c)
include h

/-- A buffer without references is no one's. -/
theorem Refs.unused (h0 : (c.buf b).refcnt = 0) : c.lock b = none ∧
    ∀ q n, c.pc q ≠ .waiting n b := by
  have hsum : ∑ q, c.uses b q = 0 := by rw [← h.count b, h0]; rfl
  have hzero (q : P) : c.uses b q = 0 :=
    (Finset.sum_eq_zero_iff_of_nonneg fun q _ => uses_nonneg c b q).mp hsum q (Finset.mem_univ q)
  constructor
  · cases hl : c.lock b with
    | none => rfl
    | some q =>
      have := hzero q
      have := pending_nonneg (c.pc q) b
      rw [Cache.uses, if_pos hl] at *
      omega
  · intro q n hq
    have := hzero q
    rw [Cache.uses, hq, Pc.pending, if_pos rfl] at this
    split at this <;> omega

/-- The count, when the references of one process change. -/
theorem count_change (hother : ∀ q, q ≠ p → c'.uses b q = c.uses b q)
    (hbuf : ((c'.buf b).refcnt : Int) + c.uses b p = (c.buf b).refcnt + c'.uses b p) :
    ((c'.buf b).refcnt : Int) = ∑ q, c'.uses b q := by
  rw [Support.sum_of_eq_off p hother, ← h.count b]
  omega

/-! ### `bget` -/

/-- A block that is looked for and not found has no buffer. -/
theorem Refs.not_cached
    (hs : c.links.scanNext (fun b => (c.buf b).dev = ROOTDEV ∧ (c.buf b).blockno = n) (NBUF + 1)
      (c.links.next none) = none) (b : Fin NBUF) (hd : (c.buf b).dev = ROOTDEV) :
    (c.buf b).blockno ≠ n := by
  obtain ⟨l, ⟨hnd, hpath⟩, hall⟩ := h.ring
  have hlen : l.length ≤ NBUF := by
    have := hnd.length_le_card
    rwa [Fintype.card_fin] at this
  rw [Links.scanNext_eq hpath (Nat.lt_succ_of_le hlen), List.find?_eq_none] at hs
  intro hn
  exact hs b (hall b) (decide_eq_true ⟨hd, hn⟩)

theorem Refs.found
    (hs : c.links.scanNext (fun b => (c.buf b).dev = ROOTDEV ∧ (c.buf b).blockno = n) (NBUF + 1)
      (c.links.next none) = some b) : (c.buf b).dev = ROOTDEV ∧ (c.buf b).blockno = n := by
  obtain ⟨l, ⟨hnd, hpath⟩, -⟩ := h.ring
  have hlen : l.length ≤ NBUF := by
    have := hnd.length_le_card
    rwa [Fintype.card_fin] at this
  rw [Links.scanNext_eq hpath (Nat.lt_succ_of_le hlen)] at hs
  have := List.find?_some hs
  exact of_decide_eq_true this

/-- **What `bget` may do**: take a reference to the buffer of the block, or recycle a buffer that is
no one's and not dirty, when no buffer has the block. -/
theorem bget_spec {c' : Cache P D} (hg : bget c ROOTDEV n = some (b, c')) :
    ((c.buf b).dev = ROOTDEV ∧ (c.buf b).blockno = n ∧
      c' = c.setBuf b fun buf => { buf with refcnt := buf.refcnt + 1 }) ∨
    ((∀ b', (c.buf b').dev = ROOTDEV → (c.buf b').blockno ≠ n) ∧ (c.buf b).refcnt = 0 ∧
      (c.buf b).dirty = false ∧ c' = c.setBuf b ({ · with
        dev := ROOTDEV, blockno := n, valid := false, dirty := false, refcnt := 1 })) := by
  rw [bget] at hg
  split at hg
  · rename_i b₁ hs
    cases hg
    obtain ⟨hd, hn⟩ := h.found hs
    exact .inl ⟨hd, hn, rfl⟩
  · rename_i hs
    split at hg
    · rename_i b₁ hp
      cases hg
      have hb := Links.scanPrev_some hp
      obtain ⟨h0, hc⟩ := of_decide_eq_true hb
      exact .inr ⟨h.not_cached hs, h0, hc, rfl⟩
    · cases hg

/-! ### The references through each step -/

/-- A step that leaves the locks, the points and the references alone. -/
theorem Refs.same (hlinks : c'.links = c.links) (hpc : c'.pc = c.pc) (hlock : c'.lock = c.lock)
    (hbuf : ∀ b, (c'.buf b).refcnt = (c.buf b).refcnt ∧ (c'.buf b).dev = (c.buf b).dev ∧
      (c'.buf b).blockno = (c.buf b).blockno ∧ ((c.buf b).valid = true → (c'.buf b).valid = true))
    (hsaved : ∀ b, c.lock b = none → c'.unsaved b = c.unsaved b) : Refs c' where
  ring := hlinks ▸ h.ring
  count b := by
    rw [(hbuf b).1, h.count b]
    simp only [Cache.uses, hpc, hlock]
  used b hb := by
    rw [(hbuf b).1] at hb
    rw [(hbuf b).2.1, h.used b hb]
  waits q m b hq := by
    rw [(hbuf b).2.1, (hbuf b).2.2.1]
    exact h.waits q m b (hpc ▸ hq)
  checks q m b hq := by
    rw [(hbuf b).2.1, (hbuf b).2.2.1, hlock]
    exact h.checks q m b (hpc ▸ hq)
  held q b hq hn := (hbuf b).2.2.2 (h.held q b (hlock ▸ hq) (hpc ▸ hn))
  saved b hb := by
    rw [hlock] at hb
    rw [hsaved b hb, h.saved b hb]
  unique b b' hd hd' hb := by
    rw [(hbuf b).2.1] at hd
    rw [(hbuf b').2.1] at hd'
    rw [(hbuf b).2.2.1, (hbuf b').2.2.1] at hb
    exact h.unique b b' hd hd' hb

/-- A step of process `p` that changes its point, its locks and its references only.  The buffers
keep their blocks. -/
theorem Refs.moves (hring : ∃ l, c'.links.Ring l ∧ ∀ b, b ∈ l)
    (hbuf : ∀ b, (c'.buf b).dev = (c.buf b).dev ∧ (c'.buf b).blockno = (c.buf b).blockno ∧
      (c'.buf b).valid = (c.buf b).valid)
    (hpc : ∀ q, q ≠ p → c'.pc q = c.pc q)
    (hlock : ∀ q b, q ≠ p → (c'.lock b = some q ↔ c.lock b = some q))
    (hcount : ∀ b, ((c'.buf b).refcnt : Int) + c.uses b p = (c.buf b).refcnt + c'.uses b p)
    (hused : ∀ b, (c'.buf b).refcnt ≠ 0 → (c.buf b).dev = ROOTDEV)
    (hwaits : ∀ m b, c'.pc p = .waiting m b → (c.buf b).dev = ROOTDEV ∧ (c.buf b).blockno = m)
    (hchecks : ∀ m b, c'.pc p = .checking m b → c'.lock b = some p ∧ (c.buf b).dev = ROOTDEV ∧
      (c.buf b).blockno = m)
    (hheld : ∀ b, c'.lock b = some p → (∀ m, c'.pc p ≠ .checking m b) → (c.buf b).valid = true)
    (hsaved : ∀ b, c'.lock b = none → c'.unsaved b = false) : Refs c' where
  ring := hring
  count b := by
    refine count_change (p := p) h (fun q hq => ?_) (hcount b)
    simp only [Cache.uses, hpc q hq, hlock q b hq]
  used b hb := (hbuf b).1.trans (hused b hb)
  waits q m b hq := by
    rw [(hbuf b).1, (hbuf b).2.1]
    by_cases e : q = p
    · exact hwaits m b (e ▸ hq)
    · exact h.waits q m b (hpc q e ▸ hq)
  checks q m b hq := by
    rw [(hbuf b).1, (hbuf b).2.1]
    by_cases e : q = p
    · subst e
      exact hchecks m b hq
    · rw [hlock q b e]
      exact h.checks q m b (hpc q e ▸ hq)
  held q b hq hn := by
    rw [(hbuf b).2.2]
    by_cases e : q = p
    · subst e
      exact hheld b hq hn
    · exact h.held q b ((hlock q b e).mp hq) (hpc q e ▸ hn)
  saved := hsaved
  unique b b' hd hd' hb := by
    rw [(hbuf b).1] at hd
    rw [(hbuf b').1] at hd'
    rw [(hbuf b).2.1, (hbuf b').2.1] at hb
    exact h.unique b b' hd hd' hb

theorem Refs.hit (hp : c.pc p = .idle) (hd : (c.buf b).dev = ROOTDEV) (hn : (c.buf b).blockno = n) :
    Refs ((c.setBuf b fun buf => { buf with refcnt := buf.refcnt + 1 }).goto p (.waiting n b)) := by
  refine h.moves (p := p) h.ring (fun b' => ?_) (fun q hq => goto_of_ne _ hq)
    (fun q b' _ => Iff.rfl) (fun b' => ?_) (fun b' hb' => ?_) (fun m b' hm => ?_)
    (fun m b' hm => ?_) (fun b' hl _ => h.held p b' hl (by simp [hp])) h.saved
  · by_cases e : b' = b <;> simp [Cache.goto, Cache.setBuf, e]
  · rw [goto_buf, uses_goto, uses_of b' hp, pending_idle, Pc.pending]
    change _ = _ + (_ + if c.lock b' = some p then 1 else 0)
    by_cases e : b' = b
    · rw [e, setBuf_self, if_pos rfl]
      dsimp only
      omega
    · rw [setBuf_of_ne _ e, if_neg (Ne.symm e)]
  · by_cases e : b' = b
    · rw [e, hd]
    · rw [goto_buf, setBuf_of_ne _ e] at hb'
      exact h.used b' hb'
  · rw [goto_self] at hm
    cases hm
    exact ⟨hd, hn⟩
  · rw [goto_self] at hm
    cases hm

/-- An unused buffer gets a block that has none. -/
theorem Refs.recycle (h0 : (c.buf b).refcnt = 0)
    (hnone : ∀ b', (c.buf b').dev = ROOTDEV → (c.buf b').blockno ≠ n) :
    Refs (c.setBuf b
      ({ · with dev := ROOTDEV, blockno := n, valid := false, dirty := false })) := by
  obtain ⟨hfree, hidle⟩ := h.unused h0
  exact {
    ring := h.ring
    count := fun b' => by
      refine Eq.trans ?_ (h.count b')
      by_cases e : b' = b
      · rw [e, setBuf_self]
      · rw [setBuf_of_ne _ e]
    used := fun b' hb' => by
      by_cases e : b' = b
      · rw [e, setBuf_self]
      · rw [setBuf_of_ne _ e] at hb' ⊢
        exact h.used b' hb'
    waits := fun q m b' hq => by
      have e : b' ≠ b := fun e => hidle q m (e ▸ hq)
      rw [setBuf_of_ne _ e]
      exact h.waits q m b' hq
    checks := fun q m b' hq => by
      obtain ⟨hl, hb⟩ := h.checks q m b' hq
      have e : b' ≠ b := fun e => by rw [e, hfree] at hl; cases hl
      rw [setBuf_of_ne _ e]
      exact ⟨hl, hb⟩
    held := fun q b' hq hn => by
      have e : b' ≠ b := fun e => by
        change c.lock b' = some q at hq
        rw [e, hfree] at hq
        cases hq
      rw [setBuf_of_ne _ e]
      exact h.held q b' hq hn
    saved := h.saved
    unique := fun b₁ b₂ hd₁ hd₂ hb => by
      by_cases e₁ : b₁ = b <;> by_cases e₂ : b₂ = b
      · rw [e₁, e₂]
      · rw [e₁, setBuf_self, setBuf_of_ne _ e₂] at hb
        rw [setBuf_of_ne _ e₂] at hd₂
        exact absurd hb.symm (hnone b₂ hd₂)
      · rw [e₂, setBuf_self, setBuf_of_ne _ e₁] at hb
        rw [setBuf_of_ne _ e₁] at hd₁
        exact absurd hb (hnone b₁ hd₁)
      · rw [setBuf_of_ne _ e₁, setBuf_of_ne _ e₂] at hb
        rw [setBuf_of_ne _ e₁] at hd₁
        rw [setBuf_of_ne _ e₂] at hd₂
        exact h.unique b₁ b₂ hd₁ hd₂ hb }

theorem Refs.acquire (hp : c.pc p = .waiting n b) (hl : c.lock b = none) :
    Refs ({ c with lock := update c.lock b (some p) }.goto p (.checking n b)) := by
  have hlock (b' : Fin NBUF) (q : P) : (update c.lock b (some p)) b' = some q ↔
      (b' = b ∧ p = q) ∨ c.lock b' = some q := by
    by_cases e : b' = b <;> simp [e, hl]
  refine h.moves (p := p) h.ring (fun b' => ⟨rfl, rfl, rfl⟩) (fun q hq => goto_of_ne _ hq)
    (fun q b' hq => ?_) (fun b' => ?_) h.used (fun m b' hm => ?_) (fun m b' hm => ?_)
    (fun b' hl' hn => ?_) (fun b' hb' => ?_)
  · exact (hlock b' q).trans ⟨fun hc => hc.resolve_left fun hc => hq hc.2.symm, .inr⟩
  · by_cases e : b' = b
    · subst e
      simp [Cache.uses, Cache.goto, hp, Pc.pending, hl]
    · simp [Cache.uses, Cache.goto, hp, Pc.pending, e, Ne.symm e]
  · rw [goto_self] at hm
    cases hm
  · rw [goto_self] at hm
    cases hm
    exact ⟨update_self .., h.waits p n b hp⟩
  · rw [goto_self] at hn
    rcases (hlock b' p).mp hl' with ⟨rfl, -⟩ | hl'
    · exact absurd rfl (hn n)
    · exact h.held p b' hl' (by simp [hp])
  · exact h.saved b' (Support.eq_none_of_update_some hb')

theorem Refs.checked (hp : c.pc p = .checking n b) (hv : (c.buf b).valid = true) :
    Refs (c.goto p .idle) := by
  refine h.moves (p := p) h.ring (fun b' => ⟨rfl, rfl, rfl⟩) (fun q hq => goto_of_ne _ hq)
    (fun q b' hq => Iff.rfl) (fun b' => ?_) h.used (fun m b' hm => ?_) (fun m b' hm => ?_)
    (fun b' hl' _ => ?_) h.saved
  · rw [uses_goto, uses_of b' hp]
    rfl
  · rw [goto_self] at hm
    cases hm
  · rw [goto_self] at hm
    cases hm
  by_cases e : b' = b
  · rwa [e]
  · refine h.held p b' hl' fun m hm => e ?_
    rw [hp] at hm
    cases hm
    rfl

theorem Refs.brelse (hp : c.Has p b) (hs : c.unsaved b = false) :
    Refs ({ c with lock := update c.lock b none }.goto p (.releasing b)) := by
  obtain ⟨hp, hl⟩ := hp
  refine h.moves (p := p) h.ring (fun b' => ⟨rfl, rfl, rfl⟩) (fun q hq => goto_of_ne _ hq)
    (fun q b' hq => ?_) (fun b' => ?_) h.used (fun m b' hm => ?_) (fun m b' hm => ?_)
    (fun b' hl' _ => h.held p b' (Support.update_none hl').2 (by simp [hp])) (fun b' hb' => ?_)
  · by_cases e : b' = b
    · simp [Cache.goto, e, hl, Ne.symm hq]
    · simp [Cache.goto, e]
  · by_cases e : b' = b
    · subst e
      simp [Cache.uses, Cache.goto, hp, Pc.pending, hl]
    · simp [Cache.uses, Cache.goto, hp, Pc.pending, e, Ne.symm e]
  · rw [goto_self] at hm
    cases hm
  · rw [goto_self] at hm
    cases hm
  · by_cases e : b' = b
    · rw [e]
      exact hs
    · exact h.saved b' (by rwa [← update_of_ne e none c.lock])

theorem Refs.uses_le (b : Fin NBUF) (p : P) : c.uses b p ≤ (c.buf b).refcnt := by
  rw [h.count b]
  exact Finset.single_le_sum (fun q _ => uses_nonneg c b q) (Finset.mem_univ p)

end

omit [DecidableEq P] [Fintype P] in
theorem unref_buf (c : Cache P D) (b b' : Fin NBUF) : (unref c b).buf b' =
    if b' = b then { c.buf b with refcnt := (c.buf b).refcnt - 1 } else c.buf b' := by
  rw [unref]
  split <;> by_cases e : b' = b <;> simp [e, Cache.setBuf]

omit [DecidableEq P] [Fintype P] in
theorem unref_frame (c : Cache P D) (b : Fin NBUF) : (unref c b).pc = c.pc ∧
    (unref c b).lock = c.lock ∧ (unref c b).unsaved = c.unsaved ∧ (unref c b).disk = c.disk := by
  rw [unref]
  split <;> exact ⟨rfl, rfl, rfl, rfl⟩

omit [DecidableEq P] [Fintype P] in
theorem unref_ring {l : List (Fin NBUF)} (hr : c.links.Ring l) (hall : ∀ b, b ∈ l) :
    ∃ l, (unref c b).links.Ring l ∧ ∀ b, b ∈ l := by
  rw [unref]
  split
  · refine ⟨_, Links.ring_moveFront hr (hall b), fun b' => ?_⟩
    by_cases e : b' = b
    · rw [e]
      exact List.mem_cons_self
    · exact List.mem_cons_of_mem _ ((List.mem_erase_of_ne e).mpr (hall b'))
  · exact ⟨l, hr, hall⟩

theorem Refs.unref (h : Refs c) (hp : c.pc p = .releasing b) : Refs ((unref c b).goto p .idle) := by
  obtain ⟨hpc, hlock, hunsaved, -⟩ := unref_frame c b
  obtain ⟨l, hr, hall⟩ := h.ring
  have huses := h.uses_le b p
  refine h.moves (p := p) (unref_ring hr hall) (fun b' => ?_) (fun q hq => ?_)
    (fun q b' hq => ?_) (fun b' => ?_) (fun b' hb' => ?_) (fun m b' hm => ?_) (fun m b' hm => ?_)
    (fun b' hl' _ => ?_) (fun b' hb' => ?_)
  · change ((Bio.unref c b).buf b').dev = _ ∧ ((Bio.unref c b).buf b').blockno = _ ∧
      ((Bio.unref c b).buf b').valid = _
    rw [unref_buf]
    split
    · rename_i e
      subst e
      exact ⟨rfl, rfl, rfl⟩
    · exact ⟨rfl, rfl, rfl⟩
  · rw [goto_of_ne _ hq, hpc]
  · change (Bio.unref c b).lock b' = _ ↔ _
    rw [hlock]
  · rw [goto_buf, uses_goto, uses_of b' hp, hlock, unref_buf, pending_idle, Pc.pending]
    by_cases e : b' = b
    · subst e
      rw [uses_of b' hp, Pc.pending, if_pos rfl] at huses
      rw [if_pos rfl, if_pos rfl]
      dsimp only
      split at huses <;> omega
    · rw [if_neg e, if_neg (Ne.symm e)]
  · refine h.used b' fun h0 => hb' ?_
    rw [goto_buf, unref_buf]
    split
    · rename_i e
      rw [← e, h0]
    · exact h0
  · rw [goto_self] at hm
    cases hm
  · rw [goto_self] at hm
    cases hm
  · change (Bio.unref c b).lock b' = _ at hl'
    rw [hlock] at hl'
    exact h.held p b' hl' (by simp [hp])
  · change (Bio.unref c b).lock b' = _ at hb'
    change (Bio.unref c b).unsaved b' = _
    rw [hlock] at hb'
    rw [hunsaved, h.saved b' hb']

end

end Xv6.Bio
