import Xv6.Icache.Icache
import Xv6.Support.Table

/-!
# Icache — references, and the copies of inodes

`Entry` says of one entry that its count is right, that who has its lock is in `iput` of it or uses
it through a reference, and that a copy that is valid is the inode on the disk.  What a step does to
an entry is a lemma about `Entry` alone (`Entry.hit`, `Entry.recycle`, …).  `Refs` says it of every
entry of the cache, and that no two entries in use hold the same inode.  A step changes one entry
and one process, and the other entries keep what they have (`Refs.touch`).

* `refs_run`: `Refs` holds over every run, whatever the processes do.
-/

namespace Xv6.Icache

open Function (update_self update_of_ne update_eq_self)
open Fs (Dinode)
open Support (update_cases)

variable {P : Type}

/-! ### Processes -/

/-- How far the process is in `iput` of entry `e`. -/
def Pc.stage (e : Fin NINODE) : Pc → Option Stage
  | .iput s e' => if e' = e then some s else none
  | _ => none

@[simp] theorem stage_idle (e : Fin NINODE) : Pc.idle.stage e = none := rfl

@[simp] theorem stage_allocating (e : Fin NINODE) (k : Nat × Nat) :
    (Pc.allocating k).stage e = none := rfl

@[simp] theorem stage_self (s : Stage) (e : Fin NINODE) : (Pc.iput s e).stage e = some s :=
  if_pos rfl

theorem stage_of_ne (s : Stage) {e e' : Fin NINODE} (h : e' ≠ e) : (Pc.iput s e').stage e = none :=
  if_neg h

theorem stage_eq_some {pc : Pc} {e : Fin NINODE} {s : Stage} :
    pc.stage e = some s ↔ pc = .iput s e := by
  cases pc with
  | idle => simp
  | allocating k => simp
  | iput s' e' =>
    by_cases h : e' = e
    · subst h
      simp
    · simp [stage_of_ne s' h, h]

/-- How far each process is in `iput` of the entry. -/
def Cache.stages (c : Cache P) (e : Fin NINODE) : P → Option Stage := fun p => (c.pc p).stage e

theorem stages_goto [DecidableEq P] (c : Cache P) (p : P) (pc : Pc) (e : Fin NINODE) :
    (c.goto p pc).stages e = Function.update (c.stages e) p (pc.stage e) := by
  funext q
  by_cases hq : q = p
  · subst hq
    simp [Cache.stages, Cache.goto]
  · simp [Cache.stages, Cache.goto, hq]

theorem stages_idle {c : Cache P} {p : P} (h : c.pc p = .idle) (e : Fin NINODE) :
    c.stages e p = none := by
  rw [Cache.stages, h, stage_idle]

/-- A process that goes on elsewhere is where it was for the entry. -/
theorem stages_goto_same [DecidableEq P] {c : Cache P} {p : P} {pc : Pc} {e : Fin NINODE}
    (h : pc.stage e = (c.pc p).stage e) : (c.goto p pc).stages e = c.stages e := by
  rw [stages_goto, h]
  exact update_eq_self p (c.stages e)

/-! ### One entry -/

/-- 1 for a process in `iput`. -/
def puts (s : Option Stage) : Int := if s = none then 0 else 1

@[simp] theorem puts_none : puts none = 0 := rfl

@[simp] theorem puts_some (s : Stage) : puts (some s) = 1 := rfl

theorem puts_nonneg (s : Option Stage) : 0 ≤ puts s := by
  rw [puts]
  split <;> decide

/-- The entry `ip`, with its lock `o` and `n` references outside `iput`, for processes that are at
`st` in `iput` of it, and the inode `d` on the disk. -/
structure Entry [Fintype P] (ip : Inode) (o : Option P) (n : Nat) (st : P → Option Stage)
    (d : Dinode) : Prop where
  count : (ip.ref : Int) = n + ∑ p, puts (st p)
  locks : ∀ p s, st p = some s → s ≠ .dropping → o = some p
  held : ∀ p, o = some p → (∃ s, s ≠ .dropping ∧ st p = some s) ∨
    st p = none ∧ 0 < n ∧ ip.valid = true
  sync : 0 < ip.ref → ip.valid = true → ip.copy = d ∧ ip.copy.type ≠ .free
  free : ∀ p, st p = some .freeing → ip.valid = true ∧ ip.copy.nlink = 0

namespace Entry

variable [Fintype P] {ip : Inode} {o : Option P} {n : Nat} {st : P → Option Stage} {d : Dinode}
  {p : P} {s : Stage}

section

variable (h : Entry ip o n st d)
include h

/-- A process in `iput` has a reference. -/
theorem ref_pos (hs : st p = some s) : n + 1 ≤ ip.ref := by
  have hle : puts (st p) ≤ ∑ q, puts (st q) :=
    Finset.single_le_sum (f := fun q => puts (st q)) (fun q _ => puts_nonneg _) (Finset.mem_univ p)
  have hcount := h.count
  rw [hs, puts_some] at hle
  omega

theorem refs_le : n ≤ ip.ref := by
  have hnn : 0 ≤ ∑ q, puts (st q) := Finset.sum_nonneg fun q _ => puts_nonneg _
  have hcount := h.count
  omega

/-- An entry that is not in use is no one's. -/
theorem unused (h0 : ip.ref = 0) : n = 0 ∧ o = none ∧ ∀ q, st q = none := by
  have hnone : ∀ q, st q = none := by
    intro q
    cases hs : st q with
    | none => rfl
    | some s =>
      have := h.ref_pos hs
      omega
  have hn : n = 0 := by
    have := h.refs_le
    omega
  refine ⟨hn, ?_, hnone⟩
  cases ho : o with
  | none => rfl
  | some q =>
    rcases h.held q ho with ⟨s, -, hs⟩ | ⟨-, hpos, -⟩
    · rw [hnone q] at hs
      cases hs
    · omega

/-- Who has the lock has a reference. -/
theorem locked (ho : o = some p) : 0 < ip.ref := by
  rcases h.held p ho with ⟨s, -, hs⟩ | ⟨-, hpos, -⟩
  · exact Nat.lt_of_lt_of_le (Nat.succ_pos n) (h.ref_pos hs)
  · exact Nat.lt_of_lt_of_le hpos h.refs_le

end

/-- While no one has the lock, those in `iput` are about to drop their reference. -/
theorem dropping_of_unlocked (h : Entry ip none n st d) (hs : st p = some s) : s = .dropping := by
  by_contra hne
  cases h.locks p s hs hne

/-- No other process is in `iput` with the lock. -/
theorem only (h : Entry ip (some p) n st d) {q : P} (hqp : q ≠ p) (hs : st q = some s) :
    s = .dropping := by
  by_contra hne
  exact hqp (Option.some.inj (h.locks q s hs hne)).symm

theorem hit (h : Entry ip o n st d) (hpos : 0 < ip.ref) :
    Entry { ip with ref := ip.ref + 1 } o (n + 1) st d where
  count := by
    have hcount := h.count
    push_cast
    omega
  locks := h.locks
  held q hq := (h.held q hq).imp_right fun ⟨hs, _, hv⟩ => ⟨hs, Nat.succ_pos n, hv⟩
  sync _ := h.sync hpos
  free := h.free

theorem recycle (h : Entry ip o n st d) (h0 : ip.ref = 0) (k : Nat × Nat) (d' : Dinode) :
    Entry { ip with dev := k.1, inum := k.2, ref := 1, valid := false } o (n + 1) st d' := by
  obtain ⟨hn, ho, hst⟩ := h.unused h0
  have hcount := h.count
  refine ⟨?_, h.locks, fun q hq => ?_, fun _ hv => ?_, fun q hq => ?_⟩
  · push_cast
    omega
  · rw [ho] at hq
    cases hq
  · cases hv
  · rw [hst q] at hq
    cases hq

/-- The lock is taken by a process that uses the entry through a reference; the copy is what it
was, or has been read. -/
theorem lock (h : Entry ip none n st d) (hp : st p = none) (hn : 0 < n) {d' : Dinode}
    (hd : d' = d ∧ d'.type ≠ .free) :
    Entry { ip with copy := d', valid := true } (some p) n st d := by
  refine ⟨h.count, fun q s hs hne => ?_, fun q hq => ?_, fun _ _ => hd, fun q hq => ?_⟩
  · exact absurd (h.dropping_of_unlocked hs) hne
  · obtain rfl := Option.some.inj hq
    exact .inr ⟨hp, hn, rfl⟩
  · cases h.dropping_of_unlocked hq

/-- Who has the lock, outside `iput`, changes the copy and the inode on the disk. -/
theorem change (h : Entry ip (some p) n st d) (hp : st p = none) {d' : Dinode}
    (hd : d'.type = ip.copy.type) : Entry { ip with copy := d' } (some p) n st d' := by
  have hno : ∀ q s, st q = some s → s ≠ .dropping → False := by
    intro q s hs hne
    obtain rfl := Option.some.inj (h.locks q s hs hne)
    rw [hp] at hs
    cases hs
  refine ⟨h.count, h.locks, h.held, fun hpos hv => ⟨rfl, ?_⟩, fun q hq => ?_⟩
  · exact hd ▸ (h.sync hpos hv).2
  · exact (hno q .freeing hq (by decide)).elim

theorem unlock (h : Entry ip (some p) n st d) (hp : st p = none) : Entry ip none n st d := by
  refine ⟨h.count, fun q s hs hne => ?_, (fun q hq => nomatch hq), h.sync, h.free⟩
  obtain rfl := Option.some.inj (h.locks q s hs hne)
  rw [hp] at hs
  cases hs

section

variable [DecidableEq P]

theorem sum_puts (st : P → Option Stage) (p : P) (o : Option Stage) :
    ∑ q, puts (Function.update st p o q) = ∑ q, puts (st q) - puts (st p) + puts o := by
  rw [Support.sum_of_eq_off (g := fun q => puts (st q)) p, update_self]
  intro q hq
  rw [update_of_ne hq]

/-- `iput` takes the lock, and one of the references is its own. -/
theorem iput (h : Entry ip none n st d) (hp : st p = none) (hn : 0 < n) :
    Entry ip (some p) (n - 1) (Function.update st p (some .checking)) d := by
  refine ⟨?_, fun q s hs hne => ?_, fun q hq => ?_, h.sync, fun q hq => ?_⟩
  · have hcount := h.count
    rw [sum_puts, hp, puts_none, puts_some]
    omega
  · rcases update_cases hs with ⟨rfl, -⟩ | ⟨hqp, hs⟩
    · rfl
    · exact absurd (h.dropping_of_unlocked hs) hne
  · obtain rfl := Option.some.inj hq
    exact .inl ⟨.checking, by decide, update_self ..⟩
  rcases update_cases hq with ⟨-, ⟨⟩⟩ | ⟨-, hq⟩
  cases h.dropping_of_unlocked hq

/-- `iput` goes on with the lock. -/
theorem goOn (h : Entry ip (some p) n st d) (hp : st p = some s) {s' : Stage} {ip' : Inode}
    {d' : Dinode} (hs' : s' ≠ .dropping) (href : ip'.ref = ip.ref)
    (hsync : ip'.valid = true → ip'.copy = d' ∧ ip'.copy.type ≠ .free)
    (hfree : s' = .freeing → ip'.valid = true ∧ ip'.copy.nlink = 0) :
    Entry ip' (some p) n (Function.update st p (some s')) d' := by
  refine ⟨?_, fun q s hs hne => ?_, fun q hq => ?_, fun _ => hsync, fun q hq => ?_⟩
  · have hcount := h.count
    rw [sum_puts, hp, puts_some, puts_some, href]
    omega
  · rcases update_cases hs with ⟨rfl, -⟩ | ⟨hqp, hs⟩
    · rfl
    · exact absurd (h.only hqp hs) hne
  · obtain rfl := Option.some.inj hq
    exact .inl ⟨s', hs', update_self ..⟩
  rcases update_cases hq with ⟨-, hq⟩ | ⟨hqp, hq⟩
  · exact hfree (Option.some.inj hq)
  · cases h.only hqp hq

/-- `iput` lets the lock go. -/
theorem release (h : Entry ip (some p) n st d) (hp : st p = some s) :
    Entry ip none n (Function.update st p (some .dropping)) d := by
  refine ⟨?_, fun q s hs hne => ?_, (fun q hq => nomatch hq), h.sync, fun q hq => ?_⟩
  · have hcount := h.count
    rw [sum_puts, hp, puts_some, puts_some]
    omega
  · rcases update_cases hs with ⟨-, hs⟩ | ⟨hqp, hs⟩
    · exact absurd (Option.some.inj hs).symm hne
    · exact absurd (h.only hqp hs) hne
  · rcases update_cases hq with ⟨-, ⟨⟩⟩ | ⟨hqp, hq⟩
    cases h.only hqp hq

/-- `iput` drops its reference. -/
theorem drop (h : Entry ip o n st d) (hp : st p = some .dropping) :
    Entry { ip with ref := ip.ref - 1 } o n (Function.update st p none) d := by
  have hpos := h.ref_pos hp
  refine ⟨?_, fun q s hs hne => ?_, fun q hq => ?_, fun _ => h.sync (by omega), fun q hq => ?_⟩
  · have hcount := h.count
    rw [sum_puts, hp, puts_some, puts_none]
    show ((ip.ref - 1 : Nat) : Int) = _
    omega
  · rcases update_cases hs with ⟨-, ⟨⟩⟩ | ⟨-, hs⟩
    exact h.locks q s hs hne
  · by_cases hqp : q = p
    · subst hqp
      rcases h.held q hq with ⟨s, hne, hs⟩ | ⟨hs, -⟩
      · rw [hp] at hs
        exact absurd (Option.some.inj hs).symm hne
      · rw [hp] at hs
        cases hs
    · rw [update_of_ne hqp]
      exact h.held q hq
  · rcases update_cases hq with ⟨-, ⟨⟩⟩ | ⟨-, hq⟩
    exact h.free q hq

end

end Entry

/-! ### The cache -/

/-- No two entries in use hold the same inode. -/
def Cache.Unique (c : Cache P) : Prop :=
  ∀ e e', 0 < (c.inode e).ref → 0 < (c.inode e').ref → (c.inode e).key = (c.inode e').key → e = e'

structure Refs [Fintype P] (c : Cache P) : Prop where
  entry : ∀ e, Entry (c.inode e) (c.lock e) (c.refs e) (c.stages e) (c.disk (c.inode e).key)
  unique : c.Unique

variable {c c' : Cache P} {e : Fin NINODE} {p : P} {k : Nat × Nat}

/-- Another entry comes to hold an inode that no entry in use holds, or entries keep theirs. -/
theorem Cache.Unique.update (h : c.Unique) {ip : Inode}
    (hin : c'.inode = Function.update c.inode e ip)
    (hip : 0 < ip.ref → ∀ i, i ≠ e → 0 < (c.inode i).ref → (c.inode i).key ≠ ip.key) :
    c'.Unique := by
  intro i j hi hj hkey
  rw [hin] at hi hj hkey
  by_cases hie : i = e
  · by_cases hje : j = e
    · rw [hie, hje]
    · rw [hie, update_self] at hi hkey
      rw [update_of_ne hje] at hj hkey
      exact absurd hkey.symm (hip hi j hje hj)
  · rw [update_of_ne hie] at hi hkey
    by_cases hje : j = e
    · rw [hje, update_self] at hj hkey
      exact absurd hkey (hip hj i hie hi)
    · rw [update_of_ne hje] at hj hkey
      exact h i j hi hj hkey

/-- An entry in use that keeps its inode. -/
theorem Cache.Unique.keep (h : c.Unique) {ip : Inode}
    (hin : c'.inode = Function.update c.inode e ip) (hpos : 0 < (c.inode e).ref)
    (hkey : ip.key = (c.inode e).key) : c'.Unique := by
  refine h.update hin fun _ i hie hi heq => hie ?_
  exact h i e hi hpos (heq.trans hkey)

section

variable [Fintype P]

/-- **A step touches one entry.**  The others keep what they have, where the inode on the disk
changes only if no other valid copy of it is in use. -/
theorem Refs.touch (h : Refs c) {x : Inode} {o : Option P} {n : Nat} {st : P → Option Stage}
    (hin : c'.inode = Function.update c.inode e x)
    (hl : c'.lock = Function.update c.lock e o) (hr : c'.refs = Function.update c.refs e n)
    (hst : c'.stages e = st) (hother : ∀ i, i ≠ e → c'.stages i = c.stages i)
    (hd : ∀ i, i ≠ e → 0 < (c.inode i).ref → (c.inode i).valid = true →
      c'.disk (c.inode i).key = c.disk (c.inode i).key)
    (hent : Entry x o n st (c'.disk x.key)) (hu : c'.Unique) : Refs c' where
  entry i := by
    by_cases hie : i = e
    · subst hie
      rw [hin, hl, hr, hst, update_self, update_self, update_self]
      exact hent
    rw [hin, hl, hr, hother i hie, update_of_ne hie, update_of_ne hie, update_of_ne hie]
    obtain ⟨hcount, hlocks, hheld, hsync, hfree⟩ := h.entry i
    refine ⟨hcount, hlocks, hheld, fun hpos hv => ?_, hfree⟩
    rw [hd i hie hpos hv]
    exact hsync hpos hv
  unique := hu

/-! ### `iget` and `idup` -/

/-- One more reference to an entry. -/
def Cache.hit (c : Cache P) (e : Fin NINODE) : Cache P :=
  (c.setInode e fun ip => { ip with ref := ip.ref + 1 }).setRefs e (c.refs e + 1)

/-- The entry is recycled for the inode. -/
def Cache.recycle (c : Cache P) (e : Fin NINODE) (k : Nat × Nat) : Cache P :=
  (c.setInode e ({ · with dev := k.1, inum := k.2, ref := 1, valid := false })).setRefs e
    (c.refs e + 1)

omit [Fintype P] in
theorem scan_spec {b : Bool} {es : List (Fin NINODE)} {empty : Option (Fin NINODE)}
    (hempty : ∀ i, empty = some i → (c.inode i).ref = 0) (hs : c.scan k es empty = some (e, b)) :
    (b = true ∧ 0 < (c.inode e).ref ∧ (c.inode e).key = k) ∨
      (b = false ∧ (c.inode e).ref = 0 ∧
        ∀ i ∈ es, ¬ (0 < (c.inode i).ref ∧ (c.inode i).key = k)) := by
  induction es generalizing empty with
  | nil =>
    obtain ⟨i, hi, heq⟩ := Option.map_eq_some_iff.mp hs
    cases heq
    exact .inr ⟨rfl, hempty e hi, fun i hi => nomatch hi⟩
  | cons i es ih =>
    rw [Cache.scan] at hs
    split at hs
    case isTrue hhit =>
        cases hs
        exact .inl ⟨rfl, hhit⟩
    case isFalse hmiss =>
        refine (ih (fun j hj => ?_) hs).imp_right fun ⟨hb, h0, hall⟩ =>
          ⟨hb, h0, List.forall_mem_cons.mpr ⟨hmiss, hall⟩⟩
        split at hj
        case isTrue h0 => exact Option.some.inj hj ▸ h0.2
        case isFalse => exact hempty j hj

omit [Fintype P] in
theorem iget_spec (hs : c.iget k = some c') :
    (∃ e, 0 < (c.inode e).ref ∧ (c.inode e).key = k ∧ c' = c.hit e) ∨
      ∃ e, (c.inode e).ref = 0 ∧ (∀ i, ¬ (0 < (c.inode i).ref ∧ (c.inode i).key = k)) ∧
        c' = c.recycle e k := by
  have hnone : ∀ i, none = some i → (c.inode i).ref = 0 := fun i h => nomatch h
  rw [Cache.iget] at hs
  split at hs
  case h_1 => cases hs
  case h_2 e hscan =>
      rcases scan_spec hnone hscan with ⟨-, hpos, hkey⟩ | ⟨hb, -⟩
      · exact .inl ⟨e, hpos, hkey, (Option.some.inj hs).symm⟩
      · cases hb
  case h_3 e hscan =>
      rcases scan_spec hnone hscan with ⟨hb, -⟩ | ⟨-, h0, hall⟩
      · cases hb
      · exact .inr ⟨e, h0, fun i => hall i (List.mem_finRange i), (Option.some.inj hs).symm⟩

omit [Fintype P] in
theorem iget_same (hs : c.iget k = some c') : c'.pc = c.pc ∧ c'.disk = c.disk := by
  rcases iget_spec hs with ⟨e, -, -, rfl⟩ | ⟨e, -, -, rfl⟩ <;> exact ⟨rfl, rfl⟩

theorem Refs.ref_pos (h : Refs c) (hr : 0 < c.refs e) : 0 < (c.inode e).ref :=
  Nat.lt_of_lt_of_le hr (h.entry e).refs_le

theorem Refs.hit (h : Refs c) (hpos : 0 < (c.inode e).ref) : Refs (c.hit e) :=
  h.touch rfl (update_eq_self ..).symm rfl rfl (fun _ _ => rfl) (fun _ _ _ _ => rfl)
    ((h.entry e).hit hpos) (h.unique.keep rfl hpos rfl)

theorem Refs.recycle (h : Refs c) (h0 : (c.inode e).ref = 0)
    (hall : ∀ i, ¬ (0 < (c.inode i).ref ∧ (c.inode i).key = k)) : Refs (c.recycle e k) :=
  h.touch rfl (update_eq_self ..).symm rfl rfl (fun _ _ => rfl) (fun _ _ _ _ => rfl)
    ((h.entry e).recycle h0 k _)
    (h.unique.update rfl fun _ i _ hi hkey => hall i ⟨hi, hkey⟩)

theorem Refs.iget (h : Refs c) (hs : c.iget k = some c') : Refs c' := by
  rcases iget_spec hs with ⟨e, hpos, -, rfl⟩ | ⟨e, h0, hall, rfl⟩
  · exact h.hit hpos
  · exact h.recycle h0 hall

/-! ### Steps -/

/-- The inode was free on the disk, so no copy of it that is in use is valid. -/
theorem Refs.mark (h : Refs c) (hk : (c.disk k).type = .free) (d : Dinode) :
    Refs { c with disk := Function.update c.disk k d } where
  entry i := by
    obtain ⟨hcount, hlocks, hheld, hsync, hfree⟩ := h.entry i
    refine ⟨hcount, hlocks, hheld, fun hpos hv => ?_, hfree⟩
    obtain ⟨hcopy, htype⟩ := hsync hpos hv
    have hne : (c.inode i).key ≠ k := fun hkey => htype (by rw [hcopy, hkey, hk])
    show _ = Function.update c.disk k d (c.inode i).key ∧ _
    rw [update_of_ne hne]
    exact ⟨hcopy, htype⟩
  unique := h.unique

variable [DecidableEq P]

/-- A process goes on outside `iput`. -/
theorem Refs.goto (h : Refs c) {pc : Pc} (hp : ∀ e, pc.stage e = (c.pc p).stage e) :
    Refs (c.goto p pc) where
  entry e := by
    rw [stages_goto_same (hp e)]
    exact h.entry e
  unique := h.unique

omit [DecidableEq P] in
theorem Refs.ilock (h : Refs c) {d : Dinode} (hp : c.pc p = .idle) (hr : 0 < c.refs e)
    (hl : c.lock e = none) (hd : d = c.disk (c.inode e).key ∧ d.type ≠ .free) :
    Refs ((c.setInode e fun ip => { ip with copy := d, valid := true }).setLock e (some p)) := by
  have hent := h.entry e
  rw [hl] at hent
  exact h.touch rfl rfl (update_eq_self ..).symm rfl (fun _ _ => rfl) (fun _ _ _ _ => rfl)
    (hent.lock (stages_idle hp e) hr hd) (h.unique.keep rfl (h.ref_pos hr) rfl)

omit [Fintype P] [DecidableEq P] in
theorem disk_change (c : Cache P) (e : Fin NINODE) (d : Dinode) :
    ((c.setInode e ({ · with copy := d })).iupdate e).disk =
      Function.update c.disk (c.inode e).key d := by
  simp [Cache.iupdate, Cache.setInode, Inode.key]

omit [DecidableEq P] in
theorem Refs.change (h : Refs c) {d : Dinode} (hp : c.pc p = .idle) (hl : c.lock e = some p)
    (hd : d.type = (c.inode e).copy.type) :
    Refs ((c.setInode e ({ · with copy := d })).iupdate e) := by
  have hent := h.entry e
  have hpos := hent.locked hl
  rw [hl] at hent
  have hdisk := disk_change c e d
  refine h.touch (x := { c.inode e with copy := d }) (o := some p) rfl ?_
    (update_eq_self ..).symm rfl (fun _ _ => rfl) (fun i hie hi _ => ?_) ?_
    (h.unique.keep rfl hpos rfl)
  · show c.lock = _
    rw [← hl, update_eq_self]
  · -- no other entry in use holds the inode
    rw [hdisk, update_of_ne fun hkey => hie (h.unique i e hi hpos hkey)]
  · rw [hdisk]
    show Entry _ _ _ _ (Function.update c.disk (c.inode e).key d (c.inode e).key)
    rw [update_self]
    exact hent.change (stages_idle hp e) hd

omit [DecidableEq P] in
theorem Refs.iunlock (h : Refs c) (hp : c.pc p = .idle) (hl : c.lock e = some p) :
    Refs (c.setLock e none) := by
  have hent := h.entry e
  rw [hl] at hent
  exact h.touch (update_eq_self ..).symm rfl (update_eq_self ..).symm rfl
    (fun _ _ => rfl) (fun _ _ _ _ => rfl) (hent.unlock (stages_idle hp e)) h.unique

omit [Fintype P] in
/-- For the entries that a process has nothing to do with. -/
theorem stages_other {s : Stage} (hp : ∀ i, i ≠ e → (c.pc p).stage i = none) (i : Fin NINODE)
    (hie : i ≠ e) : (c.goto p (.iput s e)).stages i = c.stages i :=
  stages_goto_same ((stage_of_ne s (Ne.symm hie)).trans (hp i hie).symm)

theorem Refs.iput (h : Refs c) (hp : c.pc p = .idle) (hr : 0 < c.refs e) (hl : c.lock e = none) :
    Refs (((c.setLock e (some p)).setRefs e (c.refs e - 1)).goto p (.iput .checking e)) := by
  have hent := h.entry e
  rw [hl] at hent
  refine h.touch (update_eq_self ..).symm rfl rfl (stages_goto ..) (fun i hie => ?_)
    (fun _ _ _ _ => rfl) ?_ h.unique
  · exact stages_other (c := (c.setLock e (some p)).setRefs e (c.refs e - 1))
      (fun i _ => show (c.pc p).stage i = none by rw [hp, stage_idle]) i hie
  · rw [stage_self]
    exact hent.iput (stages_idle hp e) hr

omit [Fintype P] [DecidableEq P] in
theorem stage_iput_of_ne {s : Stage} (hp : c.pc p = .iput s e) :
    ∀ i, i ≠ e → (c.pc p).stage i = none :=
  fun i hie => by rw [hp, stage_of_ne s (Ne.symm hie)]

theorem Refs.check (h : Refs c) (hp : c.pc p = .iput .checking e) :
    Refs (c.goto p (.iput (if (c.inode e).Goes then .freeing else .unlocking) e)) := by
  have hent := h.entry e
  have hst : c.stages e p = some .checking := stage_eq_some.mpr hp
  have hl : c.lock e = some p := hent.locks p _ hst (by decide)
  have hpos := hent.locked hl
  rw [hl] at hent
  refine h.touch (o := some p) (update_eq_self ..).symm ?_
    (update_eq_self ..).symm (stages_goto ..) (stages_other (stage_iput_of_ne hp))
    (fun _ _ _ _ => rfl) ?_ h.unique
  · show c.lock = _
    rw [← hl, update_eq_self]
  rw [stage_self]
  refine hent.goOn hst ?_ rfl (hent.sync hpos) fun hs => ?_
  · split <;> decide
  · split at hs
    case isTrue hgoes => exact ⟨hgoes.1, hgoes.2.1⟩
    case isFalse => cases hs

theorem Refs.free (h : Refs c) (hp : c.pc p = .iput .freeing e) (hf : Freed c p e c') :
    Refs c' := by
  obtain ⟨hin, hdisk, hlock, hrefs, hpc⟩ := hf
  have hent := h.entry e
  have hst : c.stages e p = some .freeing := stage_eq_some.mpr hp
  have hl : c.lock e = some p := hent.locks p _ hst (by decide)
  have hpos := hent.locked hl
  have hstages : ∀ i, c'.stages i = (c.goto p (.iput .unlocking e)).stages i := by
    intro i
    show (fun q => (c'.pc q).stage i) = _
    rw [hpc]
    rfl
  rw [hl] at hent
  refine h.touch (o := some p) (n := c.refs e) hin ?_ ?_ ((hstages e).trans (stages_goto ..))
    (fun i hie => (hstages i).trans (stages_other (stage_iput_of_ne hp) i hie))
    (fun i hie hi _ => ?_) ?_ (h.unique.keep hin hpos rfl)
  · rw [hlock, ← hl, update_eq_self]
  · rw [hrefs, update_eq_self]
  · rw [hdisk, update_of_ne fun hkey => hie (h.unique i e hi hpos hkey)]
  · rw [stage_self]
    exact hent.goOn hst (by decide) rfl (fun hv => nomatch hv) (fun hs => nomatch hs)

theorem Refs.release (h : Refs c) (hp : c.pc p = .iput .unlocking e) :
    Refs ((c.setLock e none).goto p (.iput .dropping e)) := by
  have hent := h.entry e
  have hst : c.stages e p = some .unlocking := stage_eq_some.mpr hp
  rw [hent.locks p _ hst (by decide)] at hent
  refine h.touch (update_eq_self ..).symm rfl (update_eq_self ..).symm
    (stages_goto ..) (stages_other (c := c.setLock e none) (stage_iput_of_ne hp))
    (fun _ _ _ _ => rfl) ?_ h.unique
  rw [stage_self]
  exact hent.release hst

theorem Refs.drop (h : Refs c) (hp : c.pc p = .iput .dropping e) :
    Refs ((c.setInode e fun ip => { ip with ref := ip.ref - 1 }).goto p .idle) := by
  have hst : c.stages e p = some .dropping := stage_eq_some.mpr hp
  have hpos : 0 < (c.inode e).ref := Nat.lt_of_lt_of_le (Nat.succ_pos _) ((h.entry e).ref_pos hst)
  refine h.touch rfl (update_eq_self ..).symm (update_eq_self ..).symm
    (stages_goto ..) (fun i hie => ?_) (fun _ _ _ _ => rfl) ?_ (h.unique.keep rfl hpos rfl)
  · exact stages_goto_same (stage_iput_of_ne (c := c) hp i hie).symm
  · rw [stage_idle]
    exact (h.entry e).drop hst

theorem refs_step {a : Step P} (h : Refs c) (hs : c.step a = some c') : Refs c' := by
  cases step_moved hs with
  | iget hget => exact h.iget hget
  | ialloc hp hfree _ =>
    refine (h.mark hfree _).goto fun e => ?_
    exact (stages_idle hp e).symm
  | allocated hp hget =>
    refine (h.iget hget).goto fun e => ?_
    rw [(iget_same hget).1, hp, stage_idle, stage_allocating]
  | idup hr => exact h.hit (h.ref_pos hr)
  | ilock hp hr hl hd =>
    refine h.ilock hp hr hl ?_
    rcases hd with ⟨hv, rfl⟩ | hd
    · exact (h.entry _).sync (h.ref_pos hr) hv
    · exact hd
  | change hp hl hd => exact h.change hp hl hd
  | iunlock hp hl => exact h.iunlock hp hl
  | iput hp hr hl => exact h.iput hp hr hl
  | check hp => exact h.check hp
  | free hp hf => exact h.free hp hf
  | unlock hp => exact h.release hp
  | drop hp => exact h.drop hp

omit [DecidableEq P] in
theorem Initial.toRefs (h : Initial c) : Refs c where
  entry e := by
    have hst : c.stages e = fun _ => none := by
      funext q
      rw [Cache.stages, h.pc q, stage_idle]
    rw [hst, h.lock e, h.refs e]
    refine ⟨?_, (fun _ _ hs => nomatch hs), (fun _ hq => nomatch hq), fun hpos => ?_,
      (fun _ hq => nomatch hq)⟩
    · rw [h.ref e]
      simp
    · rw [h.ref e] at hpos
      exact absurd hpos (Nat.lt_irrefl 0)
  unique e _ he := by
    rw [h.ref e] at he
    exact absurd he (Nat.lt_irrefl 0)

/-- **References and copies are right over every run.** -/
theorem refs_run {G : Cache P → Step P → Prop} (r : IcacheRun G c) : Refs c := by
  obtain ⟨c₀, h₀, r⟩ := r
  exact r.invariant h₀.toRefs fun _ _ _ h _ hs => refs_step h hs

end

end Xv6.Icache
