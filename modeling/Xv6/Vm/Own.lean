import Xv6.Support.Result
import Xv6.Support.Table
import Xv6.Vm.Uvm

/-!
# Vm — what each page is used for

A page is free, or holds a page directory, or one page table of one directory, or is mapped at one
place of one directory, or is kept by the rest of the kernel (a kernel stack, or a page in the
hands of a function of `vm.c`).  `Tagged m use` says that `use` is such a reading of `m`; since
`use` is a function, no page has two uses.  `Own m S` hides the reading and leaves the pages
`S` that are kept.

`Saves S m S' m'` says that no page is lost: one that is in use or in hand at first is in use or in
hand at last.
-/

namespace Xv6.Vm

open Function (update update_self update_of_ne)
open Support (update_some)

/-- What a page is used for. -/
inductive Use where
  | free
  | dir
  | table (d : Page) (i : Nat)
  | frame (d : Page) (vpn : Nat)
  | kept

/-- In `m` every page that is used is used as `use` says. -/
structure Tagged (m : Mem) (use : Page → Use) : Prop where
  nodup : m.freelist.Nodup
  free : ∀ p ∈ m.freelist, use p = .free
  dir : ∀ d D, m.dirs d = some D → use d = .dir
  table : ∀ d D i T, m.dirs d = some D → D i = some T → use T.page = .table d i
  frame : ∀ d D v p w u, m.dirs d = some D → D.pte v = some (.user p w u) → use p = .frame d v

/-- No page of `m` has two uses, and the pages `S` are kept outside. -/
def Own (m : Mem) (S : Set Page) : Prop := ∃ use, Tagged m use ∧ ∀ p ∈ S, use p = .kept

/-- The page has a use in `m`. -/
inductive Used (m : Mem) (p : Page) : Prop where
  | free (h : p ∈ m.freelist)
  | dir {D : PageDir} (h : m.dirs p = some D)
  | table {d : Page} {D : PageDir} {i : Nat} {T : PageTab} (hd : m.dirs d = some D)
      (hi : D i = some T) (hp : T.page = p)
  | frame {d : Page} {D : PageDir} {v : Nat} {w u : Bool} (hd : m.dirs d = some D)
      (hv : D.pte v = some (.user p w u))

/-- From `m` with the pages `S` in hand to `m'` with `S'` in hand no page is lost. -/
def Saves (S : Set Page) (m : Mem) (S' : Set Page) (m' : Mem) : Prop :=
  ∀ p, p ∈ S ∨ Used m p → p ∈ S' ∨ Used m' p

/-- A user page is mapped at `vpn`. -/
def Mapped (m : Mem) (d : Page) (vpn : Nat) : Prop :=
  ∃ D p w u, m.dirs d = some D ∧ D.pte vpn = some (.user p w u)

/-! ### Entries of a directory -/

variable {D : PageDir}

theorem pte_of_table {T : PageTab} {v : Nat} (h : D (v / NPTENTRIES) = some T) :
    D.pte v = T.pte (v % NPTENTRIES) := by
  rw [PageDir.pte, h]
  rfl

/-- A new page table has no entries. -/
theorem pte_newTable {i : Nat} (h : D i = none) (t : Page) (v : Nat) :
    PageDir.pte (update D i (some ⟨t, fun _ => none⟩)) v = D.pte v := by
  rw [PageDir.pte, PageDir.pte]
  by_cases e : v / NPTENTRIES = i
  · rw [e, update_self, h]
    rfl
  · rw [update_of_ne e]

/-- One entry of one page table is one entry of the directory. -/
theorem pte_setPte {T : PageTab} {v : Nat} (h : D (v / NPTENTRIES) = some T)
    (e : Option Pte) (v' : Nat) :
    PageDir.pte (update D (v / NPTENTRIES)
      (some { T with pte := update T.pte (v % NPTENTRIES) e })) v' =
      if v' = v then e else D.pte v' := by
  rw [PageDir.pte, PageDir.pte]
  by_cases hi : v' / NPTENTRIES = v / NPTENTRIES
  · rw [hi, update_self, h, Option.bind_some, Option.bind_some]
    by_cases hj : v' % NPTENTRIES = v % NPTENTRIES
    · have hv : v' = v := by
        rw [← Nat.div_add_mod v' NPTENTRIES, hi, hj, Nat.div_add_mod]
      rw [if_pos hv, hj]
      exact update_self ..
    · have hv : v' ≠ v := fun e => hj (by rw [e])
      rw [if_neg hv]
      exact update_of_ne hj ..
  · have hv : v' ≠ v := fun e => hi (by rw [e])
    rw [if_neg hv, update_of_ne hi]

theorem dir_ok {m : Mem} {d : Page} : m.dir d = .ok D ↔ m.dirs d = some D := by
  rw [Mem.dir]
  cases m.dirs d with
  | none =>
    constructor
    · intro h; cases h
    · intro h; cases h
  | some D' =>
    constructor
    · intro h; cases h; rfl
    · intro h; cases h; rfl

theorem setDir_self (m : Mem) (d : Page) (D : PageDir) : (m.setDir d D).dirs d = some D :=
  update_self ..

theorem setDir_other (m : Mem) {d e : Page} (D : PageDir) (h : e ≠ d) :
    (m.setDir d D).dirs e = m.dirs e :=
  update_of_ne h ..

/-! ### Readings -/

namespace Tagged

variable {m m' : Mem} {use : Page → Use} {d p : Page} {D : PageDir}

/-- `p` has no use in `m`. -/
def Idle (m : Mem) (p : Page) : Prop :=
  p ∉ m.freelist ∧ m.dirs p = none ∧ (∀ d D i T, m.dirs d = some D → D i = some T → T.page ≠ p) ∧
    ∀ d D v w u, m.dirs d = some D → D.pte v ≠ some (.user p w u)

section

variable (h : Tagged m use)
include h

theorem congr (hf : m'.freelist = m.freelist) (hd : m'.dirs = m.dirs) : Tagged m' use where
  nodup := hf ▸ h.nodup
  free := hf ▸ h.free
  dir := hd ▸ h.dir
  table := hd ▸ h.table
  frame := hd ▸ h.frame

theorem not_free (hp : use p ≠ .free) : p ∉ m.freelist := fun hf => hp (h.free p hf)

/-- A page has no use when the one use it could have is gone. -/
theorem idle (hf : p ∉ m.freelist) (hd : use p = .dir → m.dirs p = none)
    (ht : ∀ d i D, use p = .table d i → m.dirs d = some D → D i = none)
    (hv : ∀ d v D, use p = .frame d v → m.dirs d = some D → D.pte v = none) : Idle m p := by
  refine ⟨hf, ?_, fun d D i T hD hi e => ?_, fun d D v w u hD he => ?_⟩
  · cases hD : m.dirs p with
    | none => rfl
    | some D => rw [← hD, hd (h.dir p D hD)]
  · have hu := h.table d D i T hD hi
    rw [ht d i D (e ▸ hu) hD] at hi
    cases hi
  · rw [hv d v D (h.frame d D v p w u hD he) hD] at he
    cases he

theorem idle_of_kept (hp : use p = .kept) : Idle m p :=
  h.idle (h.not_free (by rw [hp]; simp)) (by simp [hp]) (by simp [hp]) (by simp [hp])

/-- A page without a use may be given one. -/
theorem retag (hp : Idle m p) (x : Use) : Tagged m (update use p x) where
  nodup := h.nodup
  free := by
    intro q hq
    rw [update_of_ne (fun e : q = p => hp.1 (e ▸ hq)), h.free q hq]
  dir := by
    intro d D hd
    have hne : d ≠ p := fun e => by rw [e, hp.2.1] at hd; cases hd
    rw [update_of_ne hne, h.dir d D hd]
  table := by
    intro d D i T hd hi
    rw [update_of_ne (hp.2.2.1 d D i T hd hi), h.table d D i T hd hi]
  frame := by
    intro d D v q w u hd hv
    have hne : q ≠ p := fun e => hp.2.2.2 d D v w u hd (e ▸ hv)
    rw [update_of_ne hne, h.frame d D v q w u hd hv]

/-- Pages without a use may be kept. -/
theorem keep (K : Set Page) (hK : ∀ q ∈ K, Idle m q) :
    ∃ use', Tagged m use' ∧ (∀ q ∈ K, use' q = .kept) ∧ ∀ q, q ∉ K → use' q = use q := by
  classical
  have hout : ∀ q, ¬ Idle m q → (if q ∈ K then Use.kept else use q) = use q :=
    fun q hq => if_neg fun hm => hq (hK q hm)
  refine ⟨fun q => if q ∈ K then .kept else use q, ?_, fun q hq => if_pos hq, fun q hq => if_neg hq⟩
  exact
    { nodup := h.nodup
      free := fun q hq => (hout q fun hi => hi.1 hq).trans (h.free q hq)
      dir := fun d D hd => (hout d fun hi => by rw [hi.2.1] at hd; cases hd).trans (h.dir d D hd)
      table := fun d D i T hd hi =>
        (hout _ fun hid => hid.2.2.1 d D i T hd hi rfl).trans (h.table d D i T hd hi)
      frame := fun d D v p w u hd hv =>
        (hout p fun hid => hid.2.2.2 d D v w u hd hv).trans (h.frame d D v p w u hd hv) }

/-- A page leaves the free list. -/
theorem pop {rest : List Page} (hl : m.freelist = p :: rest)
    (hf : m'.freelist = rest) (hd : m'.dirs = m.dirs) : Tagged m' (update use p .kept) := by
  have hu : use p = .free := h.free p (by rw [hl]; exact List.mem_cons_self)
  have hnd : (p :: rest).Nodup := hl ▸ h.nodup
  have hm : Tagged m' use :=
    { nodup := hf ▸ (List.nodup_cons.mp hnd).2
      free := fun q hq => h.free q (by rw [hl]; exact List.mem_cons_of_mem _ (hf ▸ hq))
      dir := hd ▸ h.dir
      table := hd ▸ h.table
      frame := hd ▸ h.frame }
  have hidle : Idle m' p :=
    hm.idle (hf ▸ (List.nodup_cons.mp hnd).1) (by simp [hu]) (by simp [hu]) (by simp [hu])
  exact hm.retag hidle .kept

/-- A page without a use goes to the free list. -/
theorem push (hp : Idle m p) (hf : m'.freelist = p :: m.freelist)
    (hd : m'.dirs = m.dirs) : Tagged m' (update use p .free) where
  nodup := hf ▸ List.nodup_cons.mpr ⟨hp.1, h.nodup⟩
  free := by
    intro q hq
    rw [hf] at hq
    rcases List.mem_cons.mp hq with rfl | hq
    · exact update_self ..
    · exact (h.retag hp .free).free q hq
  dir := hd ▸ (h.retag hp .free).dir
  table := hd ▸ (h.retag hp .free).table
  frame := hd ▸ (h.retag hp .free).frame

/-- A directory is overwritten by one whose pages have that use. -/
theorem setDir (hd : use d = .dir) (ht : ∀ i T, D i = some T → use T.page = .table d i)
    (hf : ∀ v p w u, D.pte v = some (.user p w u) → use p = .frame d v) :
    Tagged (m.setDir d D) use where
  nodup := h.nodup
  free := h.free
  dir := by
    intro e E he
    by_cases hed : e = d
    · rw [hed, hd]
    · rw [setDir_other m D hed] at he
      exact h.dir e E he
  table := by
    intro e E i T he hi
    by_cases hed : e = d
    · subst hed
      rw [setDir_self] at he
      cases he
      exact ht i T hi
    · rw [setDir_other m D hed] at he
      exact h.table e E i T he hi
  frame := by
    intro e E v p w u he hv
    by_cases hed : e = d
    · subst hed
      rw [setDir_self] at he
      cases he
      exact hf v p w u hv
    · rw [setDir_other m D hed] at he
      exact h.frame e E v p w u he hv

/-- An entry is overwritten. -/
theorem setEntry {T : PageTab} {v : Nat} {e : Option Pte}
    (hd : m.dirs d = some D) (hT : D (v / NPTENTRIES) = some T)
    (he : ∀ p w u, e = some (.user p w u) → use p = .frame d v) :
    Tagged (m.setDir d (update D (v / NPTENTRIES)
      (some { T with pte := update T.pte (v % NPTENTRIES) e }))) use := by
  refine h.setDir (h.dir d D hd) (fun i T' hi => ?_) (fun v' p w u hv => ?_)
  · rcases update_some hi with ⟨rfl, rfl⟩ | ⟨-, hi⟩
    · exact h.table d D _ T hd hT
    · exact h.table d D i T' hd hi
  · rw [pte_setPte hT] at hv
    split at hv
    · rename_i hvv
      subst hvv
      exact he p w u hv
    · exact h.frame d D v' p w u hd hv

end

end Tagged

/-! ### No page is lost -/

/-- A page is still used while no directory is gone, unless it was free. -/
theorem Used.mono {m m' : Mem} {p : Page} (h : Used m p)
    (hd : ∀ e E, m.dirs e = some E → m'.dirs e = some E) : p ∈ m.freelist ∨ Used m' p := by
  cases h with
  | free h => exact .inl h
  | dir h => exact .inr (.dir (hd _ _ h))
  | table h hi hp => exact .inr (.table (hd _ _ h) hi hp)
  | frame h hv => exact .inr (.frame (hd _ _ h) hv)

namespace Saves

variable {m m₁ m' : Mem} {S S₁ S' : Set Page} {d p : Page} {D D' : PageDir}

theorem trans (h : Saves S m S₁ m₁) (h' : Saves S₁ m₁ S' m') : Saves S m S' m' :=
  fun p hp => h' p (h p hp)

theorem same (hf : m'.freelist = m.freelist) (hd : m'.dirs = m.dirs) : Saves S m S m' := by
  rintro p (hp | hp)
  · exact .inl hp
  · exact .inr ((hp.mono fun e E h => hd ▸ h).elim (fun h => .free (hf ▸ h)) id)

/-- A directory is overwritten: its pages are in the new one or in hand. -/
theorem setDir (hD : m.dirs d = some D) (hS : ∀ p ∈ S, p ∈ S' ∨ Used (m.setDir d D') p)
    (ht : ∀ i T, D i = some T → ∃ j T', D' j = some T' ∧ T'.page = T.page)
    (hf : ∀ v p w u, D.pte v = some (.user p w u) →
      p ∈ S' ∨ ∃ v' w' u', D'.pte v' = some (.user p w' u')) : Saves S m S' (m.setDir d D') := by
  have hself : (m.setDir d D').dirs d = some D' := setDir_self m d D'
  rintro p (hp | hp)
  · exact hS p hp
  cases hp with
  | free h => exact .inr (.free h)
  | dir h =>
    by_cases e : p = d
    · subst e
      exact .inr (.dir hself)
    · exact .inr (.dir ((setDir_other m D' e).trans h))
  | @table e E i T h hi hp =>
    by_cases hed : e = d
    · subst hed
      cases hD.symm.trans h
      obtain ⟨j, T', hj, he⟩ := ht i T hi
      exact .inr (.table hself hj (he.trans hp))
    · exact .inr (.table ((setDir_other m D' hed).trans h) hi hp)
  | @frame e E v w u h hv =>
    by_cases hed : e = d
    · subst hed
      cases hD.symm.trans h
      exact (hf v p w u hv).imp_right fun ⟨v', w', u', hv'⟩ => .frame hself hv'
    · exact .inr (.frame ((setDir_other m D' hed).trans h) hv)

/-- An entry is overwritten. -/
theorem setEntry {T : PageTab} {v : Nat} {e : Option Pte} (hD : m.dirs d = some D)
    (hT : D (v / NPTENTRIES) = some T) (hS : ∀ p ∈ S, p ∈ S' ∨ ∃ w u, e = some (.user p w u))
    (he : ∀ p w u, T.pte (v % NPTENTRIES) = some (.user p w u) →
      p ∈ S' ∨ ∃ w' u', e = some (.user p w' u')) :
    Saves S m S' (m.setDir d (update D (v / NPTENTRIES)
      (some { T with pte := update T.pte (v % NPTENTRIES) e }))) := by
  have hnew : ∀ {p w u}, e = some (.user p w u) → PageDir.pte (update D (v / NPTENTRIES)
      (some { T with pte := update T.pte (v % NPTENTRIES) e })) v = some (.user p w u) := by
    intro p w u h
    rw [pte_setPte hT, if_pos rfl, h]
  refine setDir hD (fun p hp => ?_) (fun i T' hi => ?_) (fun v' p w u hv => ?_)
  · exact (hS p hp).imp_right fun ⟨w, u, h⟩ => .frame (setDir_self ..) (hnew h)
  · by_cases hiv : i = v / NPTENTRIES
    · subst hiv
      cases hT.symm.trans hi
      exact ⟨_, _, update_self .., rfl⟩
    · exact ⟨i, T', (update_of_ne hiv ..).trans hi, rfl⟩
  · by_cases hvv : v' = v
    · subst hvv
      exact (he p w u ((pte_of_table hT).symm.trans hv)).imp_right
        fun ⟨w', u', h⟩ => ⟨v', w', u', hnew h⟩
    · exact .inr ⟨v', w, u, by rw [pte_setPte hT, if_neg hvv, hv]⟩

end Saves

/-! ### The pages that are kept -/

section

variable {m m' : Mem} {S S' : Set Page} {d p : Page}

theorem Own.congr (h : Own m S) (hf : m'.freelist = m.freelist) (hd : m'.dirs = m.dirs) :
    Own m' S := by
  obtain ⟨use, ht, hS⟩ := h
  exact ⟨use, ht.congr hf hd, hS⟩

theorem Own.mono (h : Own m S) (hsub : S' ⊆ S) : Own m S' := by
  obtain ⟨use, ht, hS⟩ := h
  exact ⟨use, ht, fun p hp => hS p (hsub hp)⟩

/-- A free page holds no directory and is not kept. -/
theorem Own.fresh (h : Own m S) (hp : p ∈ m.freelist) : m.dirs p = none ∧ p ∉ S := by
  obtain ⟨use, ht, hS⟩ := h
  have hu := ht.free p hp
  constructor
  · cases hd : m.dirs p with
    | none => rfl
    | some D =>
      rw [ht.dir p D hd] at hu
      cases hu
  · intro hm
    rw [hS p hm] at hu
    cases hu

variable {o : Option Page} {D : PageDir} {T : PageTab} {u w : Bool} {v : Nat}

/-- `kalloc` takes the first page off the free list, if there is one. -/
theorem kalloc_eq (h : kalloc m = (o, m')) :
    m = { m' with freelist := o.toList ++ m'.freelist } := by
  obtain ⟨l, data, dirs, history⟩ := m
  cases l with
  | nil | cons => cases h; rfl

theorem kalloc_none (h : kalloc m = (none, m')) : m' = m := (kalloc_eq h).symm

theorem kalloc_history (h : kalloc m = (o, m')) : m'.history = m.history := by
  rw [kalloc_eq h]

theorem kalloc_dirs (h : kalloc m = (o, m')) : m'.dirs = m.dirs := by
  rw [kalloc_eq h]

theorem kalloc_freelist (h : kalloc m = (some p, m')) : m.freelist = p :: m'.freelist := by
  rw [kalloc_eq h]
  rfl

theorem kalloc_sub (h : kalloc m = (o, m')) : ∀ q ∈ m'.freelist, q ∈ m.freelist := by
  rw [kalloc_eq h]
  exact fun q hq => List.mem_append_right _ hq

theorem kalloc_saves (h : kalloc m = (some p, m')) : Saves S m (insert p S) m' := by
  rw [kalloc_eq h]
  rintro q (hq | hq)
  · exact .inl (.inr hq)
  · have hor : q ∈ p :: m'.freelist ∨ Used m' q := hq.mono fun _ _ h => h
    exact hor.elim (fun h => (List.mem_cons.mp h).imp .inl .free) .inr

/-- A free page is taken in hand. -/
theorem kalloc_some (ho : Own m S) (h : kalloc m = (some p, m')) :
    Own m' (insert p S) ∧ p ∉ S ∧ p ∈ m.freelist ∧ m'.dirs = m.dirs ∧ m'.history = m.history := by
  rw [kalloc] at h
  split at h
  · cases h
  rename_i q rest hl
  cases h
  have hp : p ∈ m.freelist := by rw [hl]; exact List.mem_cons_self
  have hfresh := ho.fresh hp
  obtain ⟨use, ht, hS⟩ := ho
  refine ⟨⟨_, ht.pop hl rfl rfl, ?_⟩, hfresh.2, hp, rfl, rfl⟩
  intro q hq
  rcases hq with rfl | hq
  · exact update_self ..
  · rw [update_of_ne (fun e : q = p => hfresh.2 (e ▸ hq)), hS q hq]

section

variable (ho : Own m (insert p S)) (hp : p ∉ S)
include ho hp

/-- A page in hand is given back. -/
theorem kfree_ok (h : kfree m p = .ok m') :
    Own m' S ∧ m'.dirs = m.dirs ∧ m'.history = m.history ∧ Saves (insert p S) m S m' := by
  rw [kfree] at h
  split at h
  · cases h
  cases h
  obtain ⟨use, ht, hS⟩ := ho
  have hidle := ht.idle_of_kept (hS p (Set.mem_insert p S))
  have hdirs : update m.dirs p none = m.dirs := by
    rw [← hidle.2.1, Function.update_eq_self]
  refine ⟨⟨_, ht.push hidle rfl hdirs, fun q hq => ?_⟩, hdirs, rfl, ?_⟩
  · rw [update_of_ne (fun e : q = p => hp (e ▸ hq)), hS q (Set.mem_insert_of_mem p hq)]
  rintro q ((rfl | hq) | hq)
  · exact .inr (.free List.mem_cons_self)
  · exact .inl hq
  · refine .inr ((hq.mono fun e E h => (congrFun hdirs e).trans h).elim (fun h => ?_) id)
    exact .free (List.mem_cons_of_mem _ h)

/-- A page in hand becomes an empty page table. -/
theorem Own.newTable {i : Nat} (hd : m.dirs d = some D) (hi : D i = none) :
    Own (m.setDir d (update D i (some ⟨p, fun _ => none⟩))) S := by
  obtain ⟨use, ht, hS⟩ := ho
  have htag := ht.retag (ht.idle_of_kept (hS p (Set.mem_insert p S))) (.table d i)
  refine ⟨update use p (.table d i), htag.setDir (htag.dir d D hd) (fun j T hj => ?_)
    (fun v q w u hv => ?_), fun q hq => ?_⟩
  · rcases update_some hj with ⟨rfl, rfl⟩ | ⟨-, hj⟩
    · exact update_self ..
    · exact htag.table d D j T hd hj
  · rw [pte_newTable hi] at hv
    exact htag.frame d D v q w u hd hv
  · rw [update_of_ne (fun e : q = p => hp (e ▸ hq)), hS q (Set.mem_insert_of_mem p hq)]

/-- A page in hand is mapped. -/
theorem Own.map (hd : m.dirs d = some D) (hT : D (v / NPTENTRIES) = some T) :
    Own (m.setDir d (update D (v / NPTENTRIES) (some { T with
      pte := update T.pte (v % NPTENTRIES) (some (.user p w u)) }))) S := by
  obtain ⟨use, ht, hS⟩ := ho
  have htag := ht.retag (ht.idle_of_kept (hS p (Set.mem_insert p S))) (.frame d v)
  refine ⟨_, htag.setEntry hd hT (fun q w' u' e => ?_), fun q hq => ?_⟩
  · cases e
    exact update_self ..
  · rw [update_of_ne (fun e : q = p => hp (e ▸ hq)), hS q (Set.mem_insert_of_mem p hq)]

end

section

variable (ho : Own m S) (hd : m.dirs d = some D) (hT : D (v / NPTENTRIES) = some T)
  (hv : T.pte (v % NPTENTRIES) = some (.user p w u))
include ho hd hT hv

/-- A page that was mapped is taken in hand. -/
theorem Own.unmap : Own (m.setDir d (update D (v / NPTENTRIES) (some { T with
      pte := update T.pte (v % NPTENTRIES) none }))) (insert p S) ∧ p ∉ S ∧ p ≠ d := by
  obtain ⟨use, ht, hS⟩ := ho
  have hu : use p = .frame d v := ht.frame d D v p w u hd ((pte_of_table hT).trans hv)
  have hpS : p ∉ S := fun hm => by rw [hS p hm] at hu; cases hu
  have hpd : p ≠ d := fun e => by rw [e, ht.dir d D hd] at hu; cases hu
  have htag := ht.setEntry hd hT (e := none) (fun _ _ _ e => by cases e)
  have hidle : Tagged.Idle (m.setDir d (update D (v / NPTENTRIES) (some { T with
      pte := update T.pte (v % NPTENTRIES) none }))) p := by
    refine htag.idle (htag.not_free (by rw [hu]; simp)) (by simp [hu]) (by simp [hu]) ?_
    rintro e v' E he hE
    rw [hu] at he
    cases he
    rw [setDir_self] at hE
    cases hE
    rw [pte_setPte hT, if_pos rfl]
  refine ⟨⟨_, htag.retag hidle .kept, fun q hq => ?_⟩, hpS, hpd⟩
  rcases hq with rfl | hq
  · exact update_self ..
  · rw [update_of_ne (fun e : q = p => hpS (e ▸ hq)), hS q hq]

/-- The flags of an entry change. -/
theorem Own.setFlags {w' u' : Bool} : Own (m.setDir d (update D (v / NPTENTRIES) (some { T with
      pte := update T.pte (v % NPTENTRIES) (some (.user p w' u')) }))) S := by
  obtain ⟨use, ht, hS⟩ := ho
  refine ⟨use, ht.setEntry hd hT (fun q _ _ e => ?_), hS⟩
  cases e
  exact ht.frame d D v p w u hd ((pte_of_table hT).trans hv)

end

/-- A page table is filled with kernel mappings. -/
theorem Own.fillKern {i : Nat} (ho : Own m S) (hd : m.dirs d = some D) (hT : D i = some T) :
    Own (m.setDir d (update D i (some { T with pte := fun _ => some .kern }))) S := by
  obtain ⟨use, ht, hS⟩ := ho
  refine ⟨use, ht.setDir (ht.dir d D hd) (fun j T' hj => ?_) (fun v p w u hv => ?_), hS⟩
  · rcases update_some hj with ⟨rfl, rfl⟩ | ⟨-, hj⟩
    · exact ht.table d D j T hd hT
    · exact ht.table d D j T' hd hj
  · by_cases e : v / NPTENTRIES = i
    · rw [PageDir.pte, e, update_self] at hv
      cases hv
    · rw [PageDir.pte, update_of_ne e] at hv
      exact ht.frame d D v p w u hd hv

end

end Xv6.Vm
