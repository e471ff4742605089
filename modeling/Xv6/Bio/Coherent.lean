import Xv6.Bio.Refs
import Xv6.Support.Result

/-!
# Bio — the buffer cache is coherent

Of a block, the bytes last stored are in its buffer while that is valid, and on the disk while no
buffer of the block is valid, or while its buffer is neither dirty nor to be saved (`Current`).
Every step of any process keeps this, given that references are in order (`Refs`).

* `cache_coherent`: **coherence**, over any run of any number of processes.
-/

namespace Xv6.Bio

open Function (update_self update_of_ne)
open Support (Links)

variable {P D : Type} [DecidableEq P]

/-! ### The invariant -/

/-- **The bytes**: `last` is what was last stored in each block. -/
structure Current (c : Cache P D) (last : Nat → D) : Prop where
  dev : ∀ b, (c.buf b).valid = true → (c.buf b).dev = ROOTDEV
  pinned : ∀ b, (c.buf b).dirty = true → (c.buf b).valid = true
  data : ∀ b, (c.buf b).valid = true → (c.buf b).data = last (c.buf b).blockno
  clean : ∀ b, (c.buf b).valid = true → (c.buf b).dirty = false → c.unsaved b = false →
    c.disk (c.buf b).blockno = last (c.buf b).blockno
  absent : ∀ n, (∀ b, (c.buf b).valid = true → (c.buf b).blockno ≠ n) → c.disk n = last n

section

variable [Fintype P] {c c' : Cache P D} {b : Fin NBUF} {p : P} {n : Nat} {last : Nat → D}

/-! ### The bytes through each step -/

omit [Fintype P] [DecidableEq P] in
/-- A step that changes nothing of a buffer but its count. -/
theorem Current.same (h : Current c last) (hbuf : ∀ b, ∃ r, c'.buf b = { c.buf b with refcnt := r })
    (hdisk : c'.disk = c.disk) (hunsaved : c'.unsaved = c.unsaved) : Current c' last where
  dev b hv := by
    obtain ⟨r, hr⟩ := hbuf b
    rw [hr] at hv ⊢
    exact h.dev b hv
  pinned b hv := by
    obtain ⟨r, hr⟩ := hbuf b
    rw [hr] at hv ⊢
    exact h.pinned b hv
  data b hv := by
    obtain ⟨r, hr⟩ := hbuf b
    rw [hr] at hv ⊢
    exact h.data b hv
  clean b hv hd hu := by
    obtain ⟨r, hr⟩ := hbuf b
    rw [hunsaved] at hu
    rw [hr] at hv hd ⊢
    rw [hdisk]
    exact h.clean b hv hd hu
  absent m hm := by
    rw [hdisk]
    refine h.absent m fun b hv => ?_
    obtain ⟨r, hr⟩ := hbuf b
    have := hm b
    rw [hr] at this
    exact this hv

omit [Fintype P] [DecidableEq P] in
/-- A step at one buffer `b`, which has a block of its own and is valid afterwards. -/
theorem Current.change {last' : Nat → D} (h : Current c last)
    (halone : ∀ b', (c.buf b').valid = true → (c.buf b').blockno = (c.buf b).blockno → b' = b)
    (hbuf : ∀ b', b' ≠ b → c'.buf b' = c.buf b')
    (hsaved : ∀ b', b' ≠ b → c'.unsaved b' = c.unsaved b')
    (hdisk : ∀ m, m ≠ (c.buf b).blockno → c'.disk m = c.disk m)
    (hlast : ∀ m, m ≠ (c.buf b).blockno → last' m = last m)
    (hblock : (c'.buf b).blockno = (c.buf b).blockno) (hdev : (c'.buf b).dev = ROOTDEV)
    (hvalid : (c'.buf b).valid = true) (hdata : (c'.buf b).data = last' (c.buf b).blockno)
    (hclean : (c'.buf b).dirty = false → c'.unsaved b = false →
      c'.disk (c.buf b).blockno = last' (c.buf b).blockno) : Current c' last' where
  dev b' hv := by
    by_cases e : b' = b
    · rw [e, hdev]
    · rw [hbuf b' e] at hv ⊢
      exact h.dev b' hv
  pinned b' hv := by
    by_cases e : b' = b
    · rw [e, hvalid]
    · rw [hbuf b' e] at hv ⊢
      exact h.pinned b' hv
  data b' hv := by
    by_cases e : b' = b
    · rw [e, hblock, hdata]
    · rw [hbuf b' e] at hv ⊢
      rw [hlast _ fun hb => e (halone b' hv hb)]
      exact h.data b' hv
  clean b' hv hd hu := by
    by_cases e : b' = b
    · rw [e] at hd hu ⊢
      rw [hblock]
      exact hclean hd hu
    rw [hsaved b' e] at hu
    rw [hbuf b' e] at hv hd ⊢
    have hne : (c.buf b').blockno ≠ (c.buf b).blockno := fun hb => e (halone b' hv hb)
    rw [hlast _ hne, hdisk _ hne]
    exact h.clean b' hv hd hu
  absent m hm := by
    have hne : m ≠ (c.buf b).blockno := fun hb => hm b hvalid (hblock.trans hb.symm)
    rw [hlast _ hne, hdisk _ hne]
    refine h.absent m fun b' hv hb' => ?_
    have e : b' ≠ b := fun e => hne (by rw [← hb', e])
    refine hm b' ?_ ?_
    · rwa [hbuf b' e]
    · rwa [hbuf b' e]

/-- A buffer that is no one's and not dirty gets another block: what it held is on the disk. -/
theorem Current.recycle (h : Current c last) (hr : Refs c) (h0 : (c.buf b).refcnt = 0)
    (hclean : (c.buf b).dirty = false) : Current (c.setBuf b
      ({ · with dev := ROOTDEV, blockno := n, valid := false, dirty := false })) last where
  dev b' hv := by
    by_cases e : b' = b
    · rw [e, setBuf_self]
    · rw [setBuf_of_ne _ e] at hv ⊢
      exact h.dev b' hv
  pinned b' hv := by
    by_cases e : b' = b
    · rw [e, setBuf_self] at hv
      cases hv
    · rw [setBuf_of_ne _ e] at hv ⊢
      exact h.pinned b' hv
  data b' hv := by
    by_cases e : b' = b
    · rw [e, setBuf_self] at hv
      cases hv
    · rw [setBuf_of_ne _ e] at hv ⊢
      exact h.data b' hv
  clean b' hv hd hu := by
    by_cases e : b' = b
    · rw [e, setBuf_self] at hv
      cases hv
    · rw [setBuf_of_ne _ e] at hv hd ⊢
      exact h.clean b' hv hd hu
  absent m hm := by
    by_cases hb : (c.buf b).valid = true ∧ (c.buf b).blockno = m
    · obtain ⟨hv, rfl⟩ := hb
      exact h.clean b hv hclean (hr.saved b (hr.unused h0).1)
    refine h.absent m fun b' hv hb' => ?_
    by_cases e : b' = b
    · subst e
      exact hb ⟨hv, hb'⟩
    · have := hm b'
      rw [setBuf_of_ne _ e] at this
      exact this hv hb'

/-- A buffer of the device alone has its block. -/
theorem Refs.alone (h : Refs c) (hc : Current c last) (hd : (c.buf b).dev = ROOTDEV)
    (b' : Fin NBUF) (hv : (c.buf b').valid = true) (hb : (c.buf b').blockno = (c.buf b).blockno) :
    b' = b := h.unique b' b (hc.dev b' hv) hd hb

/-! ### `iderw` -/

omit [Fintype P] [DecidableEq P] in
theorem iderw_read {disksize : Nat} (hv : (c.buf b).valid = false) (hd : (c.buf b).dirty = false)
    (h : iderw disksize c b = some c') :
    c' = c.setBuf b ({ · with data := c.disk (c.buf b).blockno, valid := true }) := by
  rw [iderw, if_neg (by simp [hv])] at h
  split at h
  · cases h
  split at h
  · cases h
  · rw [if_neg (by simp [hd])] at h
    cases h
    rfl

omit [Fintype P] [DecidableEq P] in
theorem iderw_write {disksize : Nat} (hd : (c.buf b).dirty = true)
    (h : iderw disksize c b = some c') :
    c' = { c.setBuf b ({ · with dirty := false, valid := true }) with
      disk := Function.update c.disk (c.buf b).blockno (c.buf b).data } := by
  rw [iderw, if_neg (by simp [hd])] at h
  split at h
  · cases h
  · split at h
    · cases h
    · cases h
      rfl

/-! ### One step -/

theorem Refs.has_valid (h : Refs c) (hp : c.Has p b) : (c.buf b).valid = true :=
  h.held p b hp.2 fun m hm => by
    rw [hp.1] at hm
    cases hm

/-- What both invariants say of the steps taken so far. -/
structure Coherent (disk : Nat → D) (l : History P D) (c : Cache P D) : Prop where
  refs : Refs c
  current : Current c (stored disk l)

end

section

variable [Fintype P] {c c' : Cache P D} {b : Fin NBUF} {p : P} {n disksize : Nat} {disk : Nat → D}
  {l : History P D}

section

variable (h : Coherent disk l c)
include h

theorem Coherent.hit (hp : c.pc p = .idle) (hd : (c.buf b).dev = ROOTDEV)
    (hn : (c.buf b).blockno = n) : Coherent disk l
      ((c.setBuf b fun buf => { buf with refcnt := buf.refcnt + 1 }).goto p (.waiting n b)) := by
  refine ⟨h.refs.hit hp hd hn, h.current.same (fun b' => ?_) rfl rfl⟩
  rw [goto_buf]
  by_cases e : b' = b
  · exact ⟨(c.buf b).refcnt + 1, by rw [e, setBuf_self]⟩
  · exact ⟨(c.buf b').refcnt, by rw [setBuf_of_ne _ e]⟩

theorem Coherent.recycle (h0 : (c.buf b).refcnt = 0) (hclean : (c.buf b).dirty = false)
    (hnone : ∀ b', (c.buf b').dev = ROOTDEV → (c.buf b').blockno ≠ n) : Coherent disk l
      (c.setBuf b ({ · with dev := ROOTDEV, blockno := n, valid := false, dirty := false })) :=
  ⟨h.refs.recycle h0 hnone, h.current.recycle h.refs h0 hclean⟩

theorem Coherent.bget {r : Fin NBUF × Cache P D} (hp : c.pc p = .idle)
    (hg : bget c ROOTDEV n = some r) : Coherent disk l (r.2.goto p (.waiting n r.1)) := by
  obtain ⟨b, c₁⟩ := r
  rcases bget_spec h.refs hg with ⟨hd, hn, rfl⟩ | ⟨hnone, h0, hc, rfl⟩
  · exact h.hit hp hd hn
  -- the block is given first, the reference then
  have hr := (h.recycle h0 hc hnone).hit (p := p) (b := b) (n := n) hp (by rw [setBuf_self])
    (by rw [setBuf_self])
  have he : c.setBuf b (fun buf =>
      { buf with dev := ROOTDEV, blockno := n, valid := false, dirty := false, refcnt := 1 }) =
      (c.setBuf b fun buf =>
        { buf with dev := ROOTDEV, blockno := n, valid := false, dirty := false }).setBuf b
          fun buf => { buf with refcnt := buf.refcnt + 1 } := by
    simp only [Cache.setBuf, Function.update_idem, update_self, h0]
  dsimp only
  rw [he]
  exact hr

/-- A step at one buffer `b` of the device, by which it is valid afterwards and keeps its block and
its references.  Who stores says so by `l'`. -/
theorem Coherent.change (l' : History P D) (buf : Buf D) (u : Bool)
    (disk' : Nat → D) (hd : (c.buf b).dev = ROOTDEV)
    (hbuf : buf.refcnt = (c.buf b).refcnt ∧ buf.dev = (c.buf b).dev ∧
      buf.blockno = (c.buf b).blockno ∧ buf.valid = true)
    (hu : c.lock b = none → u = c.unsaved b)
    (hdisk : ∀ m, m ≠ (c.buf b).blockno → disk' m = c.disk m)
    (hlast : ∀ m, m ≠ (c.buf b).blockno → stored disk l' m = stored disk l m)
    (hdata : buf.data = stored disk l' (c.buf b).blockno)
    (hclean : buf.dirty = false → u = false →
      disk' (c.buf b).blockno = stored disk l' (c.buf b).blockno) :
    Coherent disk l' { c with
      buf := Function.update c.buf b buf
      unsaved := Function.update c.unsaved b u
      disk := disk' } := by
  obtain ⟨hr, hdev, hblock, hv⟩ := hbuf
  constructor
  · refine h.refs.same rfl rfl rfl (fun b' => ?_) fun b' hb' => ?_
    · dsimp only
      by_cases e : b' = b
      · rw [e, update_self]
        exact ⟨hr, hdev, hblock, fun _ => hv⟩
      · rw [update_of_ne e]
        exact ⟨rfl, rfl, rfl, id⟩
    · dsimp only
      by_cases e : b' = b
      · subst e
        rw [update_self, hu hb']
      · rw [update_of_ne e]
  · refine h.current.change (h.refs.alone h.current hd) (fun b' e => update_of_ne e ..)
      (fun b' e => update_of_ne e ..) hdisk hlast ?_ ?_ ?_ ?_ ?_
    all_goals dsimp only
    all_goals rw [update_self]
    · exact hblock
    · exact hdev.trans hd
    · exact hv
    · exact hdata
    · rw [update_self]
      exact hclean

/-- `bread` of a buffer that is not valid: the disk has the bytes, since no buffer has. -/
theorem Coherent.read (hd : (c.buf b).dev = ROOTDEV)
    (hv : (c.buf b).valid = false) : Coherent disk l
      (c.setBuf b ({ · with data := c.disk (c.buf b).blockno, valid := true })) := by
  have hb : c.disk (c.buf b).blockno = stored disk l (c.buf b).blockno := by
    refine h.current.absent _ fun b' hv' hb' => ?_
    rw [h.refs.alone h.current hd b' hv' hb', hv] at hv'
    cases hv'
  have hc := h.change l { c.buf b with data := c.disk (c.buf b).blockno, valid := true }
    (c.unsaved b) c.disk hd ⟨rfl, rfl, rfl, rfl⟩ (fun _ => rfl) (fun _ _ => rfl) (fun _ _ => rfl) hb
    fun _ _ => hb
  rwa [Function.update_eq_self] at hc

theorem Coherent.checked (hp : c.pc p = .checking n b)
    (hv : (c.buf b).valid = true) : Coherent disk l (c.goto p .idle) :=
  ⟨h.refs.checked hp hv, h.current.same (fun b' => ⟨(c.buf b').refcnt, rfl⟩) rfl rfl⟩

/-- **What `bread` does when it has the lock.** -/
theorem Coherent.check (hp : c.pc p = .checking n b)
    (hs : step disksize c (.check p) = some c') : Coherent disk l c' ∧ (c'.buf b).valid = true ∧
      (c'.buf b).dev = ROOTDEV ∧ (c'.buf b).blockno = n ∧ c'.lock b = some p := by
  obtain ⟨hl, hd, hn⟩ := h.refs.checks p n b hp
  simp only [step, hp] at hs
  split at hs
  · rename_i hv
    cases hs
    exact ⟨h.checked hp hv, hv, hd, hn, hl⟩
  rename_i hv
  rw [Bool.not_eq_true] at hv
  obtain ⟨c₁, hi, rfl⟩ := Option.map_eq_some_iff.mp hs
  have hdirty : (c.buf b).dirty = false := by
    by_contra hc
    rw [h.current.pinned b (by simpa using hc)] at hv
    cases hv
  obtain rfl := iderw_read hv hdirty hi
  refine ⟨(h.read hd hv).checked hp (by rw [setBuf_self]), ?_⟩
  rw [goto_buf, setBuf_self]
  exact ⟨rfl, hd, hn, hl⟩

end

omit [Fintype P] [DecidableEq P] in
theorem Cache.Has.locked {u : Bool} (hp : c.Has p b) (hl : c.lock b = none) : u = c.unsaved b := by
  rw [hp.2] at hl
  cases hl

section

variable (h : Coherent disk l c)
include h

theorem Coherent.store {d : D} (hp : c.Has p b) : Coherent disk ((c, .store p b d) :: l)
      { c.setBuf b ({ · with data := d }) with unsaved := Function.update c.unsaved b true } := by
  have hv := h.refs.has_valid hp
  refine h.change _ { c.buf b with data := d } true c.disk (h.current.dev b hv)
    ⟨rfl, rfl, rfl, hv⟩ hp.locked (fun _ _ => rfl) (fun m hm => ?_) ?_ fun _ hu => nomatch hu
  · rw [stored, if_neg (Ne.symm hm)]
  · rw [stored, if_pos rfl]

theorem Coherent.logWrite (hp : c.Has p b) : Coherent disk l
    { c.setBuf b ({ · with dirty := true }) with
      unsaved := Function.update c.unsaved b false } := by
  have hv := h.refs.has_valid hp
  exact h.change l { c.buf b with dirty := true } false c.disk (h.current.dev b hv)
    ⟨rfl, rfl, rfl, hv⟩ hp.locked (fun _ _ => rfl) (fun _ _ => rfl) (h.current.data b hv)
    fun hc => nomatch hc

theorem Coherent.bwrite (hp : c.Has p b)
    (hi : iderw disksize (c.setBuf b ({ · with dirty := true })) b = some c') :
    Coherent disk l { c' with unsaved := Function.update c'.unsaved b false } := by
  have hv := h.refs.has_valid hp
  obtain rfl := iderw_write (by rw [setBuf_self]) hi
  have hc := h.change l { c.buf b with dirty := false, valid := true } false
    (Function.update c.disk (c.buf b).blockno (c.buf b).data) (h.current.dev b hv)
    ⟨rfl, rfl, rfl, rfl⟩ hp.locked (fun m hm => update_of_ne hm ..) (fun _ _ => rfl)
    (h.current.data b hv) fun _ _ => by rw [update_self, h.current.data b hv]
  simpa only [Cache.setBuf, Function.update_idem, update_self] using hc

theorem Coherent.acquire (hp : c.pc p = .waiting n b) (hl : c.lock b = none) : Coherent disk l
      ({ c with lock := Function.update c.lock b (some p) }.goto p (.checking n b)) :=
  ⟨h.refs.acquire hp hl, h.current.same (fun b' => ⟨(c.buf b').refcnt, rfl⟩) rfl rfl⟩

theorem Coherent.brelse (hp : c.Has p b) (hs : c.unsaved b = false) :
    Coherent disk l ({ c with lock := Function.update c.lock b none }.goto p (.releasing b)) :=
  ⟨h.refs.brelse hp hs, h.current.same (fun b' => ⟨(c.buf b').refcnt, rfl⟩) rfl rfl⟩

theorem Coherent.unref (hp : c.pc p = .releasing b) :
    Coherent disk l ((unref c b).goto p .idle) := by
  obtain ⟨-, -, hunsaved, hdisk⟩ := unref_frame c b
  refine ⟨h.refs.unref hp, h.current.same (fun b' => ?_) hdisk hunsaved⟩
  rw [goto_buf, unref_buf]
  by_cases e : b' = b
  · rw [if_pos e, e]
    exact ⟨_, rfl⟩
  · rw [if_neg e]
    exact ⟨_, rfl⟩

/-- A step that stores nothing. -/
theorem Coherent.quiet {l' : History P D}
    (hl : ∀ n, stored disk l' n = stored disk l n) : Coherent disk l' c := by
  rw [← funext_iff] at hl
  exact ⟨h.refs, hl ▸ h.current⟩

theorem coherent_step {a : Step P D} (hs : step disksize c a = some c') :
    Coherent disk ((c, a) :: l) c' := by
  cases a with
  | bget p n =>
    rw [step] at hs
    split at hs
    · rename_i hp
      obtain ⟨r, hg, rfl⟩ := Option.map_eq_some_iff.mp hs
      exact (h.bget hp hg).quiet fun _ => rfl
    · cases hs
  | acquire p =>
    rw [step] at hs
    split at hs
    · rename_i n b hp
      split at hs
      · rename_i hl
        cases hs
        exact (h.acquire hp hl).quiet fun _ => rfl
      · cases hs
    · cases hs
  | check p =>
    cases hp : c.pc p with
    | checking n b => exact (h.check hp hs).1.quiet fun _ => rfl
    | _ =>
      simp only [step, hp] at hs
      cases hs
  | store p b d =>
    rw [step] at hs
    split at hs
    · rename_i hp
      cases hs
      exact h.store hp
    · cases hs
  | logWrite p b =>
    rw [step] at hs
    split at hs
    · rename_i hp
      cases hs
      exact (h.logWrite hp).quiet fun _ => rfl
    · cases hs
  | bwrite p b =>
    rw [step] at hs
    split at hs
    · rename_i hp
      obtain ⟨c₁, hi, rfl⟩ := Option.map_eq_some_iff.mp hs
      exact (h.bwrite hp hi).quiet fun _ => rfl
    · cases hs
  | brelse p b =>
    rw [step] at hs
    split at hs
    · rename_i hp
      cases hs
      exact (h.brelse hp.1 hp.2).quiet fun _ => rfl
    · cases hs
  | unref p =>
    rw [step] at hs
    split at hs
    · rename_i b hp
      cases hs
      exact (h.unref hp).quiet fun _ => rfl
    · cases hs

end

/-! ### Runs -/

/-- A run from `binit`, with its steps. -/
abbrev CacheRun (disksize : Nat) (zero : D) (disk : Nat → D) : History P D → Cache P D → Prop :=
  Support.Trace (fun c a c' => step disksize c a = some c') (fun _ _ => True) (binit zero disk)

/-- The list that is made from buffers that are all different has them all. -/
theorem ring_foldl : ∀ (bs l : List (Fin NBUF)) (k : Links (Fin NBUF)), k.Ring l →
    (bs ++ l).Nodup → ∃ l', (bs.foldl Links.pushFront k).Ring l' ∧ ∀ b, b ∈ bs ∨ b ∈ l → b ∈ l'
  | [], l, k, h, _ => ⟨l, h, fun b hb => hb.resolve_left List.not_mem_nil⟩
  | b :: bs, l, k, h, hnd => by
    obtain ⟨hb, hnd⟩ := List.nodup_cons.mp hnd
    have hb' := fun hbl => hb (List.mem_append_right bs hbl)
    obtain ⟨l', hl', hall⟩ := ring_foldl bs (b :: l) (k.pushFront b) (Links.ring_pushFront h hb')
      (List.nodup_middle.mpr (List.nodup_cons.mpr ⟨hb, hnd⟩))
    refine ⟨l', hl', fun b' hb' => hall b' ?_⟩
    rcases hb' with hb' | hb'
    · rcases List.mem_cons.mp hb' with rfl | hb'
      · exact .inr List.mem_cons_self
      · exact .inl hb'
    · exact .inr (List.mem_cons_of_mem _ hb')

theorem ring_linkAll : ∃ l, linkAll.Ring l ∧ ∀ b, b ∈ l := by
  obtain ⟨l, hl, hall⟩ := ring_foldl (List.finRange NBUF) [] ⟨fun _ => none, fun _ => none⟩
    ⟨List.nodup_nil, rfl, rfl⟩ (by rw [List.append_nil]; exact List.nodup_finRange NBUF)
  exact ⟨l, hl, fun b => hall b (.inl (List.mem_finRange b))⟩

theorem coherent_binit (zero : D) (disk : Nat → D) :
    Coherent disk [] (binit zero disk : Cache P D) where
  refs := {
    ring := ring_linkAll
    count := fun _ => (Finset.sum_eq_zero fun _ _ => rfl).symm
    used := fun _ hb => absurd rfl hb
    waits := fun _ _ _ hp => nomatch hp
    checks := fun _ _ _ hp => nomatch hp
    held := fun _ _ hp => nomatch hp
    saved := fun _ _ => rfl
    unique := fun _ _ hd => nomatch hd }
  current := {
    dev := fun _ hv => nomatch hv
    pinned := fun _ hv => nomatch hv
    data := fun _ hv => nomatch hv
    clean := fun _ hv => nomatch hv
    absent := fun _ _ => rfl }

theorem coherent_run {zero : D} (r : CacheRun disksize zero disk l c) : Coherent disk l c := by
  induction r with
  | refl => exact coherent_binit zero disk
  | more _ _ hs ih => exact coherent_step ih hs

/-- A buffer that is used or valid has a block of the device. -/
theorem Coherent.dev (h : Coherent disk l c) (hb : (c.buf b).refcnt ≠ 0 ∨ (c.buf b).valid = true) :
    (c.buf b).dev = ROOTDEV := by
  rcases hb with hb | hb
  · exact h.refs.used b hb
  · exact h.current.dev b hb

/-! ### Dirty buffers -/

/-- The buffer keeps its block, and stays valid. -/
def Buf.Keeps (buf buf' : Buf D) : Prop :=
  buf'.dev = buf.dev ∧ buf'.blockno = buf.blockno ∧ (buf.valid = true → buf'.valid = true)

theorem Buf.Keeps.refl (buf : Buf D) : buf.Keeps buf := ⟨rfl, rfl, id⟩

omit [Fintype P] [DecidableEq P] in
theorem keeps_setBuf {f : Buf D → Buf D} (hf : (c.buf b).Keeps (f (c.buf b))) (b' : Fin NBUF) :
    (c.buf b').Keeps ((c.setBuf b f).buf b') := by
  by_cases e : b' = b
  · rw [e, setBuf_self]
    exact hf
  · rw [setBuf_of_ne _ e]
    exact .refl _

omit [Fintype P] [DecidableEq P] in
theorem keeps_iderw (h : iderw disksize c b = some c') (b' : Fin NBUF) :
    (c.buf b').Keeps (c'.buf b') := by
  rw [iderw] at h
  split_ifs at h
  · cases h
    exact keeps_setBuf (f := ({ · with dirty := false, valid := true })) ⟨rfl, rfl, fun _ => rfl⟩ b'
  · cases h
    exact keeps_setBuf (f := ({ · with data := _, valid := true })) ⟨rfl, rfl, fun _ => rfl⟩ b'

/-- **A dirty buffer is not recycled.** -/
theorem Coherent.keeps {a : Step P D} (h : Coherent disk l c) (hb : (c.buf b).dirty = true)
    (hs : step disksize c a = some c') : (c.buf b).Keeps (c'.buf b) := by
  cases a with
  | bget p n =>
    rw [step] at hs
    split at hs
    · obtain ⟨⟨b₁, c₁⟩, hg, rfl⟩ := Option.map_eq_some_iff.mp hs
      rcases bget_spec h.refs hg with ⟨-, -, rfl⟩ | ⟨-, -, hc, rfl⟩
      · exact keeps_setBuf (f := fun buf => { buf with refcnt := buf.refcnt + 1 }) ⟨rfl, rfl, id⟩ b
      -- what is recycled is not dirty
      have e : b ≠ b₁ := fun e => by
        rw [e, hc] at hb
        cases hb
      rw [goto_buf, setBuf_of_ne _ e]
      exact .refl _
    · cases hs
  | acquire p =>
    rw [step] at hs
    split at hs
    · split at hs
      · cases hs
        exact .refl _
      · cases hs
    · cases hs
  | check p =>
    rw [step] at hs
    split at hs
    · split at hs
      · cases hs
        exact .refl _
      · obtain ⟨c₁, hi, rfl⟩ := Option.map_eq_some_iff.mp hs
        exact keeps_iderw hi b
    · cases hs
  | store p b₁ d =>
    rw [step] at hs
    split at hs
    · cases hs
      exact keeps_setBuf (f := ({ · with data := d })) ⟨rfl, rfl, id⟩ b
    · cases hs
  | logWrite p b₁ =>
    rw [step] at hs
    split at hs
    · cases hs
      exact keeps_setBuf (f := ({ · with dirty := true })) ⟨rfl, rfl, id⟩ b
    · cases hs
  | bwrite p b₁ =>
    rw [step] at hs
    split at hs
    · obtain ⟨c₁, hi, rfl⟩ := Option.map_eq_some_iff.mp hs
      obtain ⟨hd, hn, hv⟩ := keeps_iderw hi b
      obtain ⟨hd', hn', hv'⟩ : (c.buf b).Keeps ((c.setBuf b₁ ({ · with dirty := true })).buf b) :=
        keeps_setBuf ⟨rfl, rfl, id⟩ b
      exact ⟨hd.trans hd', hn.trans hn', fun h => hv (hv' h)⟩
    · cases hs
  | brelse p b₁ =>
    rw [step] at hs
    split at hs
    · cases hs
      exact .refl _
    · cases hs
  | unref p =>
    rw [step] at hs
    split at hs
    · rename_i b₁ hp
      cases hs
      rw [goto_buf, unref_buf]
      split
      · rename_i e
        rw [e]
        exact ⟨rfl, rfl, id⟩
      · exact .refl _
    · cases hs

/-! ### Coherence -/

/-- **The buffer cache is coherent.**  However many processes read blocks, store in them, pass them
to `log_write` or `bwrite` and release them, and however their steps interleave: no two buffers that
are in use or valid have the same block; a `bread` that returns has the lock of a valid buffer of
its block, with the bytes last stored there; a dirty buffer keeps its block and stays valid; and the
list holds every buffer once. -/
theorem cache_coherent {zero : D} (r : CacheRun disksize zero disk l c) :
    (∀ b b', (c.buf b).refcnt ≠ 0 ∨ (c.buf b).valid = true →
      (c.buf b').refcnt ≠ 0 ∨ (c.buf b').valid = true →
      (c.buf b).dev = (c.buf b').dev → (c.buf b).blockno = (c.buf b').blockno → b = b') ∧
    (∀ p n b c', c.pc p = .checking n b → step disksize c (.check p) = some c' →
      c'.lock b = some p ∧ (c'.buf b).dev = ROOTDEV ∧ (c'.buf b).blockno = n ∧
      (c'.buf b).valid = true ∧ (c'.buf b).data = stored disk l n) ∧
    (∀ b a c', (c.buf b).dirty = true → step disksize c a = some c' →
      (c'.buf b).dev = (c.buf b).dev ∧ (c'.buf b).blockno = (c.buf b).blockno ∧
      (c'.buf b).valid = true) ∧
    ∃ bs, c.links.Ring bs ∧ ∀ b, b ∈ bs := by
  have h := coherent_run r
  refine ⟨fun b b' hb hb' _ hn => h.refs.unique b b' (h.dev hb) (h.dev hb') hn,
    fun p n b c' hp hs => ?_, fun b a c' hb hs => ?_, h.refs.ring⟩
  · obtain ⟨h', hv, hd, hn, hl⟩ := h.check hp hs
    exact ⟨hl, hd, hn, hv, hn ▸ h'.current.data b hv⟩
  · obtain ⟨hd, hn, hv⟩ := h.keeps hb hs
    exact ⟨hd, hn, hv (h.current.pinned b hb)⟩

end

/-- Block 5 is read, overwritten and logged by one process, and read again by another, which finds
what was stored last. -/
theorem cache_coherent_reread : ∃ (l : History (Fin 2) Nat) (c : Cache (Fin 2) Nat),
    CacheRun 100 0 (fun n => n) l c ∧ c.pc 1 = .checking 5 0 ∧ stored (fun n => n) l 5 = 7 := by
  obtain ⟨c, r, hpc, c', hs, hd⟩ := Support.exists_run (step 100) (fun _ _ => True)
    (binit 0 fun n => n)
    [.bget (0 : Fin 2) 5, .acquire 0, .check 0, .store 0 0 7, .logWrite 0 0, .brelse 0 0,
      .bget 1 5, .unref 0, .acquire 1]
    (fun c => c.pc 1 = .checking 5 0 ∧ ∃ c', step 100 c (.check 1) = some c' ∧ (c'.buf 0).data = 7)
    (by decide +kernel)
  obtain ⟨l, r⟩ : ∃ l, CacheRun 100 0 (fun n => n) l c := r.trace
  obtain ⟨-, -, -, -, hl⟩ := (cache_coherent r).2.1 1 5 0 c' hpc hs
  exact ⟨l, c, r, hpc, hl.symm.trans hd⟩

end Xv6.Bio
