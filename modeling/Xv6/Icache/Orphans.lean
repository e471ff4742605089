import Xv6.Icache.Refs
import Xv6.Support.Result

/-!
# Icache — freeing inodes

An inode is to be freed just when it has no link and its last reference is dropped.  `iput` tests
this under the sleep lock and drops the reference after it has let the lock go.  So it may miss the
last reference: of two processes that drop the last two references to an inode without links, each
may see the other's reference (`two_puts_orphan`), and then nobody frees the inode.

* `Atomic`: no `iget` of an inode comes between the test of an `iput` and the freeing.
* `Good`: besides, when `iput` makes its test, no other `iput` of the inode has let the lock go and
  is still to drop its reference; and an inode fresh from `ialloc` is locked before it is put.
* `kept_run`: then an inode that is freed has no link and one reference, the one being dropped, and
  an inode without links that is not referenced is free.
-/

namespace Xv6.Icache

open Function (update update_self update_of_ne)
open Fs (Dinode blankDinode)
open Support (update_cases)

variable {P : Type}

/-- The part of `iput` under the sleep lock is not interrupted by an `iget` of the inode. -/
def Atomic (c : Cache P) : Step P → Prop
  | .iget _ k => ∀ q e, c.pc q = .iput .freeing e → (c.inode e).key ≠ k
  | .allocated p => ∀ q e, c.pc q = .iput .freeing e → c.pc p ≠ .allocating (c.inode e).key
  | _ => True

/-- The test of `iput` sees the references as they will be. -/
def Good (c : Cache P) : Step P → Prop
  | .check p => ∀ e, c.pc p = .iput .checking e → (∀ q, c.pc q ≠ .iput .dropping e) ∧
      ((c.inode e).valid = true ∨ (c.disk (c.inode e).key).type = .free ∨
        (c.disk (c.inode e).key).nlink ≠ 0)
  | a => Atomic c a

instance [Fintype P] (c : Cache P) : DecidablePred (Atomic c)
  | .iget _ k =>
    inferInstanceAs (Decidable (∀ q e, c.pc q = .iput .freeing e → (c.inode e).key ≠ k))
  | .allocated p => inferInstanceAs
      (Decidable (∀ q e, c.pc q = .iput .freeing e → c.pc p ≠ .allocating (c.inode e).key))
  | .ialloc .. | .idup .. | .ilock .. | .change .. | .iunlock .. | .iput .. | .check _ | .free _
  | .unlock _ | .drop _ => inferInstanceAs (Decidable True)

instance [Fintype P] (c : Cache P) : DecidablePred (Good c)
  | .check p => inferInstanceAs (Decidable (∀ e, c.pc p = .iput .checking e →
      (∀ q, c.pc q ≠ .iput .dropping e) ∧ ((c.inode e).valid = true ∨
        (c.disk (c.inode e).key).type = .free ∨ (c.disk (c.inode e).key).nlink ≠ 0)))
  | .iget p k => inferInstanceAs (Decidable (Atomic c (.iget p k)))
  | .allocated p => inferInstanceAs (Decidable (Atomic c (.allocated p)))
  | .ialloc .. | .idup .. | .ilock .. | .change .. | .iunlock .. | .iput .. | .free _
  | .unlock _ | .drop _ => inferInstanceAs (Decidable True)

/-- What the tests of `iput` keep. -/
structure Kept (c : Cache P) : Prop where
  /-- one process at a time is past the test -/
  alone : ∀ p q e s s', s ≠ .checking → s' ≠ .checking → c.pc p = .iput s e →
    c.pc q = .iput s' e → p = q
  last : ∀ p e, c.pc p = .iput .freeing e → (c.inode e).ref = 1
  /-- who is past the test and has the last reference leaves no orphan -/
  past : ∀ p e s, s = .unlocking ∨ s = .dropping → c.pc p = .iput s e → (c.inode e).ref = 1 →
    ¬ c.Orphan (c.inode e).key
  used : ∀ k, c.Orphan k → ∃ e, 0 < (c.inode e).ref ∧ (c.inode e).key = k

variable {c c' : Cache P} {e : Fin NINODE} {p : P} {k : Nat × Nat}

/-! ### Steps that leave the tests alone -/

/-- No process passes the test, no inode becomes an orphan, and entries in use stay in use. -/
theorem Kept.frame (h : Kept c)
    (hpc : ∀ q e s, s ≠ .checking → c'.pc q = .iput s e → c.pc q = .iput s e)
    (hlast : ∀ q e, c.pc q = .iput .freeing e → (c'.inode e).ref = (c.inode e).ref)
    (hone : ∀ q e s, c.pc q = .iput s e → (c'.inode e).ref = 1 →
      (c.inode e).ref = 1 ∧ (c'.inode e).key = (c.inode e).key)
    (huse : ∀ e, 0 < (c.inode e).ref → 0 < (c'.inode e).ref ∧ (c'.inode e).key = (c.inode e).key)
    (hor : ∀ k, c'.Orphan k → c.Orphan k) : Kept c' where
  alone p q e s s' hs hs' hp hq := h.alone p q e s s' hs hs' (hpc p e s hs hp) (hpc q e s' hs' hq)
  last p e hp := by
    have hp' := hpc p e _ (by decide) hp
    rw [hlast p e hp']
    exact h.last p e hp'
  past p e s hs hp href := by
    have hne : s ≠ .checking := by rcases hs with rfl | rfl <;> decide
    have hp' := hpc p e s hne hp
    obtain ⟨href', hkey⟩ := hone p e s hp' href
    rw [hkey]
    exact fun ho => h.past p e s hs hp' href' (hor _ ho)
  used k hk := by
    obtain ⟨e, hpos, hkey⟩ := h.used k (hor k hk)
    exact ⟨e, (huse e hpos).1, (huse e hpos).2.trans hkey⟩

theorem hit_inode_of_ne {i : Fin NINODE} (hne : i ≠ e) : (c.hit e).inode i = c.inode i :=
  update_of_ne hne ..

theorem hit_ref : ((c.hit e).inode e).ref = (c.inode e).ref + 1 := by
  simp [Cache.hit, Cache.setInode, Cache.setRefs]

theorem hit_key (i : Fin NINODE) : ((c.hit e).inode i).key = (c.inode i).key := by
  by_cases hne : i = e
  · subst hne
    simp [Cache.hit, Cache.setInode, Cache.setRefs, Inode.key]
  · rw [hit_inode_of_ne hne]

theorem Kept.hit (h : Kept c) (hpos : 0 < (c.inode e).ref)
    (hfree : ∀ q, c.pc q ≠ .iput .freeing e) : Kept (c.hit e) := by
  refine h.frame (fun _ _ _ _ hq => hq) (fun q i hq => ?_) (fun q i s _ href => ?_) (fun i hi => ?_)
    fun _ ho => ho
  · have hne : i ≠ e := by
      rintro rfl
      exact hfree q hq
    rw [hit_inode_of_ne hne]
  · by_cases hne : i = e
    · subst hne
      rw [hit_ref] at href
      omega
    · rw [hit_inode_of_ne hne] at href ⊢
      exact ⟨href, rfl⟩
  · refine ⟨?_, hit_key i⟩
    by_cases hne : i = e
    · subst hne
      rw [hit_ref]
      exact Nat.succ_pos _
    · rwa [hit_inode_of_ne hne]

theorem recycle_inode_of_ne {i : Fin NINODE} (hne : i ≠ e) :
    (c.recycle e k).inode i = c.inode i := update_of_ne hne ..

theorem recycle_self : ((c.recycle e k).inode e).ref = 1 ∧ ((c.recycle e k).inode e).key = k := by
  simp [Cache.recycle, Cache.setInode, Cache.setRefs, Inode.key]

/-- No process is in `iput` of an entry that is not in use. -/
theorem Refs.ne_of_unused [Fintype P] (r : Refs c) (h0 : (c.inode e).ref = 0) {i : Fin NINODE}
    {q : P} {s : Stage} (hq : c.pc q = .iput s i) : i ≠ e := by
  rintro rfl
  have hst := ((r.entry i).unused h0).2.2 q
  rw [Cache.stages, hq, stage_self] at hst
  cases hst

theorem Kept.recycle [Fintype P] (h : Kept c) (r : Refs c) (h0 : (c.inode e).ref = 0) :
    Kept (c.recycle e k) := by
  have hne : ∀ i, 0 < (c.inode i).ref → i ≠ e := by
    rintro i hi rfl
    omega
  refine h.frame (fun _ _ _ _ hq => hq) (fun q i hq => ?_) (fun q i s hq href => ?_)
    (fun i hi => ?_) fun _ ho => ho
  · rw [recycle_inode_of_ne (r.ne_of_unused h0 hq)]
  · rw [recycle_inode_of_ne (r.ne_of_unused h0 hq)] at href ⊢
    exact ⟨href, rfl⟩
  · rw [recycle_inode_of_ne (hne i hi)]
    exact ⟨hi, rfl⟩

/-- Where an entry changes, but not its count and its inode. -/
theorem same_of_update {ip : Inode} (hin : c'.inode = update c.inode e ip)
    (href : ip.ref = (c.inode e).ref) (hkey : ip.key = (c.inode e).key) (i : Fin NINODE) :
    (c'.inode i).ref = (c.inode i).ref ∧ (c'.inode i).key = (c.inode i).key := by
  rw [hin]
  by_cases hie : i = e
  · subst hie
    rw [update_self]
    exact ⟨href, hkey⟩
  · rw [update_of_ne hie]
    exact ⟨rfl, rfl⟩

/-! ### Steps of `ialloc` and on the disk -/

section

variable [DecidableEq P]

/-- Who is in `iput` after a process went on elsewhere was there before. -/
theorem iput_of_pc {q : P} {pc : Pc} {s : Stage} {i : Fin NINODE}
    (hq : c'.pc q = .iput s i) (hpc : c'.pc = update c.pc p pc) (hne : pc ≠ .iput s i) :
    q ≠ p ∧ c.pc q = .iput s i := by
  rw [hpc] at hq
  exact (update_cases hq).resolve_left fun h => hne h.2

/-- A process that is not in `ialloc` of the inode goes on. -/
theorem orphan_of_pc {pc : Pc} (ho : c'.Orphan k) (hpc : c'.pc = update c.pc p pc)
    (hdisk : c'.disk k = c.disk k) (hp : c.pc p ≠ .allocating k) : c.Orphan k := by
  refine ⟨hdisk ▸ ho.1, hdisk ▸ ho.2.1, fun q hq => ?_⟩
  by_cases hqp : q = p
  · exact hp (hqp ▸ hq)
  · exact ho.2.2 q (by rw [hpc, update_of_ne hqp, hq])

theorem Kept.ialloc (h : Kept c) {d : Dinode} (hp : c.pc p = .idle) :
    Kept ({ c with disk := update c.disk k d }.goto p (.allocating k)) := by
  refine h.frame (fun q i s _ hq => (iput_of_pc hq rfl nofun).2) (fun _ _ _ => rfl)
    (fun _ _ _ _ href => ⟨href, rfl⟩) (fun _ hi => ⟨hi, rfl⟩) fun k' ho => ?_
  have hne : k' ≠ k := by
    rintro rfl
    exact ho.2.2 p (update_self ..)
  exact orphan_of_pc ho rfl (update_of_ne hne ..) (by rw [hp]; exact nofun)

/-- `ialloc` returns: its inode may be an orphan now, and is in use. -/
theorem Kept.allocated [Fintype P] (h : Kept c) (r : Refs c) (hp : c.pc p = .allocating k)
    (hk : ∃ e, 0 < (c.inode e).ref ∧ (c.inode e).key = k ∧
      ∀ q s, c.pc q = .iput s e → (c.inode e).ref ≠ 1) : Kept (c.goto p .idle) := by
  obtain ⟨e₀, hpos₀, hkey₀, hone⟩ := hk
  have hor : ∀ k', k' ≠ k → (c.goto p .idle).Orphan k' → c.Orphan k' := fun k' hne ho =>
    orphan_of_pc ho rfl rfl (by rw [hp]; exact fun e => hne (Pc.allocating.inj e).symm)
  have hback : ∀ q s i, (c.goto p .idle).pc q = .iput s i → c.pc q = .iput s i :=
    fun q s i hq => (iput_of_pc hq rfl nofun).2
  refine ⟨fun q q' i s s' hs hs' hq hq' => ?_, fun q i hq => ?_, fun q i s hs hq href ho => ?_,
    fun k' ho => ?_⟩
  · exact h.alone q q' i s s' hs hs' (hback _ _ _ hq) (hback _ _ _ hq')
  · exact h.last q i (hback _ _ _ hq)
  · have hq' := hback _ _ _ hq
    have href' : (c.inode i).ref = 1 := href
    by_cases hkey : (c.inode i).key = k
    · -- the entry of the new inode has more references than that of the `iput`
      obtain rfl : i = e₀ := r.unique i e₀ (by omega) hpos₀ (hkey.trans hkey₀.symm)
      exact hone q s (hq') href'
    · exact h.past q i s hs hq' href' (hor _ hkey ho)
  · by_cases hkey : k' = k
    · exact ⟨e₀, hpos₀, hkey₀.trans hkey.symm⟩
    · exact h.used k' (hor k' hkey ho)

end

/-- Who has the lock changes the inode. -/
theorem Kept.change [Fintype P] (h : Kept c) (r : Refs c) {d : Dinode} (hp : c.pc p = .idle)
    (hl : c.lock e = some p) (hin : c'.inode = update c.inode e { c.inode e with copy := d })
    (hdisk : c'.disk = update c.disk (c.inode e).key d) (hpc : c'.pc = c.pc) : Kept c' := by
  have hpos := (r.entry e).locked hl
  have hsame := same_of_update hin rfl rfl
  have hor : ∀ k, k ≠ (c.inode e).key → c'.Orphan k → c.Orphan k := by
    rintro k hne ⟨htype, hlink, hal⟩
    rw [hdisk, update_of_ne hne] at htype hlink
    exact ⟨htype, hlink, hpc ▸ hal⟩
  refine ⟨hpc ▸ h.alone, fun q i hq => (hsame i).1.trans (h.last q i (hpc ▸ hq)),
    fun q i s hs hq href ho => ?_, fun k ho => ?_⟩
  · rw [hpc] at hq
    rw [(hsame i).1] at href
    rw [(hsame i).2] at ho
    by_cases hkey : (c.inode i).key = (c.inode e).key
    · -- besides the reference of the `iput` there is the one of the process that has the lock
      obtain rfl : i = e := r.unique i e (by omega) hpos hkey
      rcases (r.entry i).held p hl with ⟨s', -, hs'⟩ | ⟨-, hrefs, -⟩
      · rw [stages_idle hp] at hs'
        cases hs'
      · have := (r.entry i).ref_pos (stage_eq_some.mpr hq)
        omega
    · exact h.past q i s hs hq href (hor _ hkey ho)
  · by_cases hkey : k = (c.inode e).key
    · exact ⟨e, (hsame e).1 ▸ hpos, (hsame e).2.trans hkey.symm⟩
    · obtain ⟨i, hi, hik⟩ := h.used k (hor k hkey ho)
      exact ⟨i, (hsame i).1 ▸ hi, (hsame i).2.trans hik⟩

/-! ### Steps of `iput` -/

section

variable [DecidableEq P]

variable {s₀ s₁ : Stage}

/-- Where a process is after one has gone on in `iput`. -/
theorem iput_cases (hpc : c'.pc = update c.pc p (.iput s₁ e)) {q : P} {i : Fin NINODE}
    {s : Stage} (hq : c'.pc q = .iput s i) :
    (q = p ∧ i = e ∧ s = s₁) ∨ q ≠ p ∧ c.pc q = .iput s i := by
  rw [hpc] at hq
  rcases update_cases hq with ⟨hqp, hq⟩ | hq
  · obtain ⟨rfl, rfl⟩ := Pc.iput.inj hq
    exact .inl ⟨hqp, rfl, rfl⟩
  · exact .inr hq

section

variable (h : Kept c)
include h

/-- **A process goes on in `iput`** of an entry of which no other is past the test. -/
theorem Kept.goOn (hpc : c'.pc = update c.pc p (.iput s₁ e))
    (hothers : ∀ q s, q ≠ p → s ≠ .checking → c.pc q ≠ .iput s e)
    (hsame : ∀ i, (c'.inode i).ref = (c.inode i).ref ∧ (c'.inode i).key = (c.inode i).key)
    (hor : ∀ k, c'.Orphan k → c.Orphan k) (hlast : s₁ = .freeing → (c.inode e).ref = 1)
    (hpast : s₁ = .unlocking ∨ s₁ = .dropping → (c.inode e).ref = 1 →
      ¬ c'.Orphan (c.inode e).key) : Kept c' where
  alone q q' i s s' hs hs' hq hq' := by
    rcases iput_cases hpc hq with ⟨hqp, hi, -⟩ | ⟨hqp, hold⟩
    · rcases iput_cases hpc hq' with ⟨hqp', -, -⟩ | ⟨hqp', hold'⟩
      · rw [hqp, hqp']
      · exact absurd (hi ▸ hold') (hothers q' s' hqp' hs')
    · rcases iput_cases hpc hq' with ⟨-, hi, -⟩ | ⟨-, hold'⟩
      · exact absurd (hi ▸ hold) (hothers q s hqp hs)
      · exact h.alone q q' i s s' hs hs' hold hold'
  last q i hq := by
    rw [(hsame i).1]
    rcases iput_cases hpc hq with ⟨-, rfl, hs⟩ | ⟨-, hq⟩
    · exact hlast hs.symm
    · exact h.last q i hq
  past q i s hs hq href ho := by
    rw [(hsame i).1] at href
    rw [(hsame i).2] at ho
    rcases iput_cases hpc hq with ⟨-, rfl, rfl⟩ | ⟨-, hq⟩
    · exact hpast hs href ho
    · exact h.past q i s hs hq href (hor _ ho)
  used k ho := by
    obtain ⟨i, hi, hkey⟩ := h.used k (hor k ho)
    exact ⟨i, (hsame i).1 ▸ hi, (hsame i).2.trans hkey⟩

omit [DecidableEq P] in
/-- No other process is past the test. -/
theorem Kept.others (hs₀ : s₀ ≠ .checking) (hp : c.pc p = .iput s₀ e) (q : P)
    (s : Stage) (hqp : q ≠ p) (hs : s ≠ .checking) : c.pc q ≠ .iput s e :=
  fun hq => hqp (h.alone q p e s s₀ hs hs₀ hq hp)

/-- **The test.**  It is made with no other `iput` past it. -/
theorem Kept.check [Fintype P] (r : Refs c) (hg : Good c (.check p))
    (hp : c.pc p = .iput .checking e) :
    Kept (c.goto p (.iput (if (c.inode e).Goes then .freeing else .unlocking) e)) := by
  obtain ⟨hdrop, hvalid⟩ := hg e hp
  have hlock : c.lock e = some p := (r.entry e).locks p _ (stage_eq_some.mpr hp) (by decide)
  -- the others past the test of this entry would have its lock, or be about to drop it
  have hothers : ∀ q s, q ≠ p → s ≠ .checking → c.pc q ≠ .iput s e := by
    intro q s hqp hs hq
    by_cases hd : s = .dropping
    · exact hdrop q (hd ▸ hq)
    · have := (r.entry e).locks q s (stage_eq_some.mpr hq) hd
      rw [hlock] at this
      exact hqp (Option.some.inj this).symm
  have hor : ∀ k,
      (c.goto p (.iput (if (c.inode e).Goes then .freeing else .unlocking) e)).Orphan k →
      c.Orphan k := fun k ho => orphan_of_pc ho rfl rfl (by rw [hp]; exact nofun)
  refine h.goOn rfl hothers (fun _ => ⟨rfl, rfl⟩) hor (fun hs => ?_) fun hs href ho => ?_
  · split at hs
    case isTrue hgoes => exact hgoes.2.2
    case isFalse => cases hs
  have ho := hor _ ho
  have hgoes : ¬ (c.inode e).Goes := by
    intro hgoes
    rw [if_pos hgoes] at hs
    rcases hs with hs | hs <;> cases hs
  rcases hvalid with hv | htype | hlink
  · obtain ⟨hcopy, -⟩ := (r.entry e).sync (by omega) hv
    exact hgoes ⟨hv, hcopy ▸ ho.2.1, href⟩
  · exact ho.1 htype
  · exact hlink ho.2.1

/-- The inode is freed. -/
theorem Kept.free (hp : c.pc p = .iput .freeing e) (hf : Freed c p e c') : Kept c' := by
  have hfree : ¬ c'.Orphan (c.inode e).key := by
    intro ho
    refine ho.1 ?_
    rw [hf.disk, update_self]
  refine h.goOn hf.pc (h.others (by decide) hp) (same_of_update hf.inode rfl rfl) (fun k ho => ?_)
    nofun fun _ _ => hfree
  have hne : k ≠ (c.inode e).key := fun hk => hfree (hk ▸ ho)
  exact orphan_of_pc ho hf.pc (by rw [hf.disk, update_of_ne hne]) (by rw [hp]; exact nofun)

/-- The lock is let go. -/
theorem Kept.unlock (hp : c.pc p = .iput .unlocking e) :
    Kept ((c.setLock e none).goto p (.iput .dropping e)) := by
  have hor : ∀ k, ((c.setLock e none).goto p (.iput .dropping e)).Orphan k → c.Orphan k :=
    fun k ho => orphan_of_pc ho rfl rfl (by rw [hp]; exact nofun)
  exact h.goOn rfl (h.others (by decide) hp) (fun _ => ⟨rfl, rfl⟩) hor nofun fun _ href ho =>
    h.past p e .unlocking (.inl rfl) hp href (hor _ ho)

/-- **The reference is dropped**, and if it was the last one there is no orphan. -/
theorem Kept.drop (hp : c.pc p = .iput .dropping e) (hpos : 0 < (c.inode e).ref)
    (hin : c'.inode = update c.inode e { c.inode e with ref := (c.inode e).ref - 1 })
    (hdisk : c'.disk = c.disk) (hpc : c'.pc = update c.pc p .idle) : Kept c' := by
  have hother : ∀ i, i ≠ e → c'.inode i = c.inode i := fun i hie => by rw [hin, update_of_ne hie]
  have hback : ∀ q i s, c'.pc q = .iput s i → q ≠ p ∧ c.pc q = .iput s i := fun q i s hq =>
    iput_of_pc hq hpc nofun
  have hor : ∀ k, c'.Orphan k → c.Orphan k := fun k ho =>
    orphan_of_pc ho hpc (congrFun hdisk k) (by rw [hp]; exact nofun)
  -- no other process is past the test of this entry
  have hne : ∀ q i s, s ≠ .checking → q ≠ p → c.pc q = .iput s i → i ≠ e := by
    rintro q i s hs hqp hq rfl
    exact hqp (h.alone q p i s .dropping hs (by decide) hq hp)
  refine ⟨fun q q' i s s' hs hs' hq hq' => ?_, fun q i hq => ?_, fun q i s hs hq href ho => ?_,
    fun k ho => ?_⟩
  · exact h.alone q q' i s s' hs hs' (hback q i s hq).2 (hback q' i s' hq').2
  · obtain ⟨hqp, hq⟩ := hback q i _ hq
    rw [hother i (hne q i _ (by decide) hqp hq)]
    exact h.last q i hq
  · obtain ⟨hqp, hq⟩ := hback q i s hq
    have hs' : s ≠ .checking := by rcases hs with rfl | rfl <;> decide
    have ho := hor _ ho
    rw [hother i (hne q i s hs' hqp hq)] at href ho
    exact h.past q i s hs hq href ho
  · obtain ⟨i, hi, hkey⟩ := h.used k (hor k ho)
    refine ⟨i, ?_⟩
    by_cases hie : i = e
    · subst hie
      have hlast : (c.inode i).ref ≠ 1 := fun h1 =>
        h.past p i .dropping (.inr rfl) hp h1 (hkey ▸ hor k ho)
      rw [hin, update_self]
      exact ⟨show 0 < (c.inode i).ref - 1 by omega, hkey⟩
    · rw [hother i hie]
      exact ⟨hi, hkey⟩

end

end

/-! ### Runs -/

/-- The copy, its validity and the lock do not count. -/
theorem Kept.ilock (h : Kept c) {d : Dinode} {o : Option P} :
    Kept ((c.setInode e fun ip => { ip with copy := d, valid := true }).setLock e o) := by
  have hin : ((c.setInode e fun ip => { ip with copy := d, valid := true }).setLock e o).inode =
      update c.inode e { c.inode e with copy := d, valid := true } := rfl
  have hsame := same_of_update hin rfl rfl
  refine h.frame (fun _ _ _ _ hq => hq) (fun _ i _ => (hsame i).1) (fun _ i _ _ href => ?_)
    (fun i hi => ?_) fun _ ho => ho
  · exact ⟨(hsame i).1 ▸ href, (hsame i).2⟩
  · exact ⟨(hsame i).1.symm ▸ hi, (hsame i).2⟩

section

variable [Fintype P]

/-- `iget`, with no process about to free the inode. -/
theorem Kept.iget (h : Kept c) (r : Refs c)
    (ha : ∀ q e, c.pc q = .iput .freeing e → (c.inode e).key ≠ k) (hs : c.iget k = some c') :
    Kept c' ∧ ∃ e, 0 < (c'.inode e).ref ∧ (c'.inode e).key = k ∧
      ∀ q s, c'.pc q = .iput s e → (c'.inode e).ref ≠ 1 := by
  rcases iget_spec hs with ⟨e, hpos, hkey, rfl⟩ | ⟨e, h0, -, rfl⟩
  · refine ⟨h.hit hpos fun q hq => ha q e hq hkey, e, ?_, (hit_key e).trans hkey, fun _ _ _ => ?_⟩
    · rw [hit_ref]
      exact Nat.succ_pos _
    · rw [hit_ref]
      omega
  · refine ⟨h.recycle r h0, e, ?_, recycle_self.2, fun q s hq => ?_⟩
    · rw [recycle_self.1]
      exact Nat.one_pos
    · exact absurd rfl (r.ne_of_unused h0 (show c.pc q = .iput s e from hq))

variable [DecidableEq P]

theorem kept_step {a : Step P} (h : Kept c) (r : Refs c) (hg : Good c a)
    (hs : c.step a = some c') : Kept c' := by
  cases step_moved hs with
  | iget hget => exact (h.iget r hg hget).1
  | ialloc hp => exact h.ialloc hp
  | allocated hp hget =>
    obtain ⟨h₁, hk⟩ := h.iget r (fun q e hq hkey => hg q e hq (hkey.symm ▸ hp)) hget
    exact h₁.allocated (r.iget hget) (by rw [(iget_same hget).1, hp]) hk
  | idup hr =>
    refine h.hit (r.ref_pos hr) fun q hq => ?_
    -- who is about to free the inode has the only reference
    have h₁ := (r.entry _).ref_pos (stage_eq_some.mpr hq)
    have h₂ := h.last q _ hq
    omega
  | ilock => exact h.ilock
  | change hp hl => exact h.change r hp hl rfl (disk_change ..) rfl
  | iunlock => exact ⟨h.alone, h.last, h.past, h.used⟩
  | iput hp =>
    refine h.frame (fun q i s hne hq => ?_) (fun _ _ _ => rfl)
      (fun _ _ _ _ href => ⟨href, rfl⟩) (fun _ hi => ⟨hi, rfl⟩) fun k ho => ?_
    · exact (iput_of_pc hq rfl fun heq => hne (Pc.iput.inj heq).1.symm).2
    · exact orphan_of_pc ho rfl rfl (by rw [hp]; exact nofun)
  | check hp => exact h.check r hg hp
  | free hp hf => exact h.free hp hf
  | unlock hp => exact h.unlock hp
  | drop hp =>
    have := (r.entry _).ref_pos (stage_eq_some.mpr hp)
    exact h.drop hp (by omega) rfl rfl rfl

omit [Fintype P] [DecidableEq P] in
theorem Initial.toKept (h : Initial c) : Kept c := by
  have hno : ∀ q s i, c.pc q ≠ .iput s i := by
    intro q s i
    rw [h.pc q]
    exact Pc.noConfusion
  refine ⟨fun p _ e s _ _ _ hp => absurd hp (hno p s e), fun p e hp => absurd hp (hno p _ e),
    fun p e s _ hp => absurd hp (hno p s e), fun k ho => absurd ho.2.1 (h.links k ho.1)⟩

theorem kept_run (hr : IcacheRun Good c) : Kept c ∧ Refs c := by
  obtain ⟨c₀, h₀, r⟩ := hr
  exact r.invariant (I := fun c => Kept c ∧ Refs c) ⟨h₀.toKept, h₀.toRefs⟩
    fun _ _ _ h hg hs => ⟨kept_step h.1 h.2 hg hs, refs_step h.2 hs⟩

/-- Only `iput` frees an inode. -/
theorem freed_by_iput {a : Step P} (r : Refs c) (hs : c.step a = some c')
    (hk : (c.disk k).type ≠ .free) (hk' : (c'.disk k).type = .free) :
    ∃ p e, c.pc p = .iput .freeing e ∧ (c.inode e).key = k := by
  have hsame : c'.disk ≠ c.disk := fun e => hk (e ▸ hk')
  have hdisk {k₁ : Nat × Nat} {d : Dinode} (h : c'.disk = update c.disk k₁ d) :
      k₁ = k ∧ d.type = .free := by
    rw [h] at hk'
    by_cases hne : k = k₁
    · subst hne
      exact ⟨rfl, update_self k d c.disk ▸ hk'⟩
    · rw [update_of_ne hne] at hk'
      exact absurd hk' hk
  cases step_moved hs with
  | iget hget => exact absurd (iget_same hget).2 hsame
  | allocated _ hget => exact absurd (iget_same hget).2 hsame
  | ialloc _ _ htype => exact absurd (hdisk rfl).2 htype
  | change hp hl hd =>
    -- the type stays, and the copy of who has the lock is valid
    rcases (r.entry _).held _ hl with ⟨s, -, hs⟩ | ⟨-, -, hv⟩
    · rw [stages_idle hp] at hs
      cases hs
    · have htype := ((r.entry _).sync ((r.entry _).locked hl) hv).2
      exact absurd (hd.symm.trans (hdisk (disk_change ..)).2) htype
  | free hp hf => exact ⟨_, _, hp, (hdisk hf.disk).1⟩
  | idup | ilock | iunlock | iput | check | unlock | drop => exact absurd rfl hsame

omit [DecidableEq P] in
theorem sum_puts_card (st : P → Option Stage) :
    ∑ p, puts (st p) = ((Finset.univ.filter fun p => (st p).isSome).card : Int) := by
  rw [Finset.card_filter, Nat.cast_sum]
  refine Finset.sum_congr rfl fun p _ => ?_
  cases st p <;> rfl

end

/-- Nothing is cached, and inode 5 is a file with one link. -/
def sample : Cache Bool where
  inode := fun _ => ⟨0, 0, 0, false, blankDinode .free⟩
  lock := fun _ => none
  disk := fun k => if k = (1, 5) then { blankDinode .file with nlink := 1 } else blankDinode .free
  pc := fun _ => .idle
  refs := fun _ => 0

theorem sample_initial : Initial sample where
  ref _ := rfl
  refs _ := rfl
  lock _ := rfl
  pc _ := rfl
  links k hk := by
    by_cases h : k = (1, 5)
    · subst h
      decide
    · rw [show sample.disk k = blankDinode .free from if_neg h] at hk
      exact absurd rfl hk

end Xv6.Icache
