import Xv6.Vm.Sparse

/-!
# Vm — what the functions of `vm.c` do

One specification for each function of `vm.c`, in terms of what each page is used for and of the
entries of the directory it works on.

* `Works S S' d T m m'`: only the directory `d` changes, and of its entries those at the places `T`; no
  page gets a second use, and none is lost, with `S` in hand at first and `S'` at last.
* `Built S d m m'`: the directory `d` is new, and lies in a page that was free.
* `Unbuilt S m m'`: no directory has changed and no page is lost; a directory may have been made and
  freed in between.
-/

namespace Xv6.Vm

open Function (update update_self update_of_ne)
open Support (Meets bind_ok bind_error map_ok except_bind_map except_map_bind)

/-- The entry of a virtual page in the directory at `d`. -/
def Mem.pte (m : Mem) (d : Page) (vpn : Nat) : Option Pte := (m.dirs d).bind (·.pte vpn)

/-- The entries of `d` at the places `N` are the same. -/
def Agree (d : Page) (N : Nat → Prop) (m m' : Mem) : Prop := ∀ v, N v → m'.pte d v = m.pte d v

theorem pte_of_dir {m : Mem} {d : Page} {D : PageDir} (h : m.dirs d = some D) (v : Nat) :
    m.pte d v = D.pte v := by
  rw [Mem.pte, h, Option.bind_some]

theorem mapped_iff {m : Mem} {d : Page} {v : Nat} :
    Mapped m d v ↔ ∃ p w u, m.pte d v = some (.user p w u) := by
  constructor
  · rintro ⟨D, p, w, u, hD, hv⟩
    exact ⟨p, w, u, (pte_of_dir hD v).trans hv⟩
  · rintro ⟨p, w, u, h⟩
    obtain ⟨D, hD, hv⟩ := Option.bind_eq_some_iff.mp h
    exact ⟨D, p, w, u, hD, hv⟩

namespace Agree

variable {d : Page} {N N' : Nat → Prop} {m m₁ m' : Mem}

theorem of_dirs (h : m'.dirs d = m.dirs d) : Agree d N m m' := fun v _ => by
  rw [Mem.pte, Mem.pte, h]

theorem refl (m : Mem) : Agree d N m m := of_dirs rfl

theorem trans (h : Agree d N m m₁) (h' : Agree d N m₁ m') : Agree d N m m' :=
  fun v hv => (h' v hv).trans (h v hv)

theorem mono (h : Agree d N m m') (hN : ∀ v, N' v → N v) : Agree d N' m m' :=
  fun v hv => h v (hN v hv)

/-- The directory is overwritten. -/
theorem setDir {D D' : PageDir} (hd : m.dirs d = some D) (h : ∀ v, N v → D'.pte v = D.pte v) :
    Agree d N m (m.setDir d D') := fun v hv => by
  rw [pte_of_dir (setDir_self m d D'), pte_of_dir hd, h v hv]

end Agree

structure Works (S S' : Set Page) (d : Page) (T : Nat → Prop) (m m' : Mem) : Prop where
  own : Own m' S'
  saves : Saves S m S' m'
  other : ∀ e, e ≠ d → m'.dirs e = m.dirs e
  self : (m'.dirs d).isSome = (m.dirs d).isSome
  agree : Agree d (fun v => ¬T v) m m'
  /-- a new page table is one of a place in `T` -/
  tables : ∀ D D' i, m.dirs d = some D → m'.dirs d = some D' → (D' i).isSome →
    (D i).isSome ∨ ∃ v, T v ∧ v / NPTENTRIES = i
  /-- no entry below the kernel becomes one of the kernel -/
  kern : ∀ v, v * PGSIZE < KERNBASE → m'.pte d v = some .kern → m.pte d v = some .kern
  history : m'.history = m.history

/-- Pages are taken from the free list, and no other page is written. -/
def Takes (m m' : Mem) : Prop := ∀ p, p ∉ m.freelist → p ∉ m'.freelist ∧ m'.data p = m.data p

/-- Nothing that is mapped in `d` is lost. -/
structure Grows (S : Set Page) (d : Page) (m m' : Mem) : Prop
    extends Works S S d (fun _ => True) m m' where
  mapped : ∀ v, Mapped m d v → Mapped m' d v

/-- The page tables of `d` are those of a directory, and its user pages, and they alone, lie below
the kernel. -/
def Low (m : Mem) (d : Page) : Prop := ∀ D, m.dirs d = some D →
  (∀ i, (D i).isSome → i < NPDENTRIES) ∧
    (∀ v p w u, D.pte v = some (.user p w u) → v * PGSIZE < KERNBASE) ∧
    ∀ v, v * PGSIZE < KERNBASE → D.pte v ≠ some .kern

namespace Works

variable {S S₁ S' : Set Page} {d : Page} {T T' : Nat → Prop} {m m₁ m' : Mem}

theorem same (ho : Own m' S') (hs : Saves S m S' m') (hd : m'.dirs = m.dirs)
    (hh : m'.history = m.history) : Works S S' d T m m' where
  own := ho
  saves := hs
  other := fun _ _ => by rw [hd]
  self := by rw [hd]
  agree := .of_dirs (by rw [hd])
  tables := by
    intro D D' i hD hD' hi
    rw [hd, hD] at hD'
    cases hD'
    exact .inl hi
  kern := fun v _ h => by rwa [Mem.pte, hd] at h
  history := hh

theorem refl (ho : Own m S) : Works S S d T m m := same ho (.same rfl rfl) rfl rfl

theorem trans (h : Works S S₁ d T m m₁) (h' : Works S₁ S' d T m₁ m') : Works S S' d T m m' where
  own := h'.own
  saves := h.saves.trans h'.saves
  other := fun e he => (h'.other e he).trans (h.other e he)
  self := h'.self.trans h.self
  agree := h.agree.trans h'.agree
  tables := by
    intro D D' i hD hD' hi
    obtain ⟨D₁, hD₁⟩ := Option.isSome_iff_exists.mp (h'.self ▸ hD' ▸ rfl : (m₁.dirs d).isSome)
    rcases h'.tables D₁ D' i hD₁ hD' hi with hi | hi
    · exact h.tables D D₁ i hD hD₁ hi
    · exact .inr hi
  kern := fun v hv hk => h.kern v hv (h'.kern v hv hk)
  history := h'.history.trans h.history

theorem mono (h : Works S S' d T m m') (hT : ∀ v, T v → T' v) : Works S S' d T' m m' :=
  { h with
    agree := h.agree.mono fun v hv hTv => hv (hT v hTv)
    tables := fun D D' i hD hD' hi =>
      (h.tables D D' i hD hD' hi).imp_right fun ⟨v, hv, e⟩ => ⟨v, hT v hv, e⟩ }

/-- The directory is overwritten. -/
theorem setDir {D D' : PageDir} (ho : Own (m.setDir d D') S') (hs : Saves S m S' (m.setDir d D'))
    (hd : m.dirs d = some D) (hv : ∀ v, ¬T v → D'.pte v = D.pte v)
    (hk : ∀ v, v * PGSIZE < KERNBASE → D'.pte v = some .kern → D.pte v = some .kern)
    (ht : ∀ i, (D' i).isSome → (D i).isSome ∨ ∃ v, T v ∧ v / NPTENTRIES = i) :
    Works S S' d T m (m.setDir d D') where
  own := ho
  saves := hs
  other := fun e he => setDir_other m D' he
  self := by rw [setDir_self, hd]; rfl
  agree := .setDir hd hv
  tables := by
    intro E E' i hE hE' hi
    cases hd.symm.trans hE
    cases (setDir_self m d D').symm.trans hE'
    exact ht i hi
  kern := fun v hv h => by
    rw [pte_of_dir (setDir_self ..)] at h
    rw [pte_of_dir hd]
    exact hk v hv h
  history := rfl

/-- An entry is overwritten. -/
theorem setEntry {D : PageDir} {t : PageTab} {vpn : Nat} {e : Option Pte}
    (ho : Own (m.setDir d (update D (vpn / NPTENTRIES)
      (some { t with pte := update t.pte (vpn % NPTENTRIES) e }))) S')
    (hd : m.dirs d = some D) (ht : D (vpn / NPTENTRIES) = some t) (hk : e ≠ some .kern)
    (hS : ∀ p ∈ S, p ∈ S' ∨ ∃ w u, e = some (.user p w u))
    (he : ∀ p w u, t.pte (vpn % NPTENTRIES) = some (.user p w u) →
      p ∈ S' ∨ ∃ w' u', e = some (.user p w' u')) :
    Works S S' d (· = vpn) m (m.setDir d (update D (vpn / NPTENTRIES)
      (some { t with pte := update t.pte (vpn % NPTENTRIES) e }))) := by
  refine setDir ho (.setEntry hd ht hS he) hd (fun v hv => ?_) (fun v _ hv => ?_) fun i hi => ?_
  · rw [pte_setPte ht, if_neg hv]
  · rw [pte_setPte ht] at hv
    split at hv
    · exact absurd hv hk
    · exact hv
  · by_cases hiv : i = vpn / NPTENTRIES
    · exact .inr ⟨vpn, rfl, hiv.symm⟩
    · rw [update_of_ne hiv] at hi
      exact .inl hi

theorem gone (h : Works S S' d T m m') (hn : m'.dirs d = none) : m.dirs d = none := by
  rw [← Option.not_isSome_iff_eq_none, ← h.self, hn]
  nofun

/-- Work below the kernel keeps the user pages there, and the kernel's out. -/
theorem low (h : Works S S' d T m m') (hT : ∀ v, T v → v * PGSIZE < KERNBASE) (hl : Low m d) :
    Low m' d := by
  intro D' hD'
  obtain ⟨D, hD⟩ := Option.isSome_iff_exists.mp (h.self ▸ hD' ▸ rfl : (m.dirs d).isSome)
  refine ⟨fun i hi => ?_, fun v p w u hv => ?_, fun v hv hk => ?_⟩
  · rcases h.tables D D' i hD hD' hi with hi | ⟨v, hv, rfl⟩
    · exact (hl D hD).1 i hi
    · have := hT v hv
      unfold KERNBASE PGSIZE at this
      unfold NPTENTRIES NPDENTRIES
      omega
  · by_cases hTv : T v
    · exact hT v hTv
    · have hsame := h.agree v hTv
      rw [pte_of_dir hD', pte_of_dir hD, hv] at hsame
      exact (hl D hD).2.1 v p w u hsame.symm
  · have hold := h.kern v hv ((pte_of_dir hD' v).trans hk)
    exact (hl D hD).2.2 v hv ((pte_of_dir hD v).symm.trans hold)

end Works

section

variable {S : Set Page} {d p : Page} {m m' : Mem} {vpn : Nat}

/-! ### Walking and mapping -/

variable {u w ok : Bool} {m₁ : Mem} {x : Stop} {T : Nat → Prop} {D : PageDir}
    {n oldsz newsz r i sz : Nat} {is : List Nat}

theorem Own.not_free (ho : Own m S) (h : m.pte d vpn = some (.user p w u)) : p ∉ m.freelist := by
  obtain ⟨use, ht, -⟩ := ho
  obtain ⟨D, hD, hv⟩ := Option.bind_eq_some_iff.mp h
  exact ht.not_free (by rw [ht.frame d D vpn p w u hD hv]; nofun)

theorem Takes.trans (h : Takes m m₁) (h' : Takes m₁ m') : Takes m m' := fun q hq =>
  ⟨(h' q (h q hq).1).1, (h' q (h q hq).1).2.trans (h q hq).2⟩

theorem kalloc_takes (h : kalloc m = (some p, m₁)) (bytes : Support.Bytes) :
    Takes m { m₁ with data := update m₁.data p bytes } := by
  intro q hq
  rw [kalloc_eq h] at hq ⊢
  exact ⟨fun hm => hq (List.mem_cons_of_mem p hm),
    update_of_ne (fun e : q = p => hq (e ▸ List.mem_cons_self)) ..⟩

/-- `walkpgdir` with `alloc` changes no entry; it returns a page table of the directory, or has done
nothing. -/
theorem walkpgdir_works {o : Option PageTab} (ho : Own m S)
    (h : walkpgdir m d vpn true = .ok (o, m')) :
    (o = none ∧ m' = m) ∨ ∃ t D, o = some t ∧ m'.dirs d = some D ∧ D (vpn / NPTENTRIES) = some t ∧
      Works S S d (· = vpn) m m' ∧ (∀ v, m'.pte d v = m.pte d v) ∧ Takes m m' := by
  rw [walkpgdir] at h
  obtain ⟨D, hD, h⟩ := bind_ok.mp h
  have hd := dir_ok.mp hD
  split at h
  · rename_i t ht
    cases h
    exact .inr ⟨t, D, rfl, hd, ht, .refl ho, fun _ => rfl, fun _ h => ⟨h, rfl⟩⟩
  rename_i ht
  rw [if_pos rfl] at h
  split at h
  · rename_i m₁ hk
    cases h
    exact .inl ⟨rfl, kalloc_none hk⟩
  rename_i q m₁ hk
  cases h
  obtain ⟨ho₁, hq, -, hd₁, hh₁⟩ := kalloc_some ho hk
  have hd' : (memset m₁ q 0).dirs d = some D := (congrFun hd₁ d).trans hd
  have ho' : Own (memset m₁ q 0) (insert q S) := ho₁.congr rfl rfl
  have hpte : ∀ v, PageDir.pte (update D (vpn / NPTENTRIES)
      (some ⟨q, fun _ => none⟩)) v = D.pte v := pte_newTable ht q
  have hw : Works S (insert q S) d (· = vpn) m (memset m₁ q 0) :=
    .same ho' ((kalloc_saves hk).trans (.same rfl rfl)) hd₁ hh₁
  refine .inr ⟨_, _, rfl, setDir_self .., update_self ..,
    hw.trans (.setDir (ho'.newTable hq hd' ht) ?_ hd' (fun v _ => hpte v)
      (fun v _ h => (hpte v).symm.trans h) fun i hi => ?_), fun v => ?_, kalloc_takes hk _⟩
  · refine .setDir hd' ?_ (fun i t' hi => ⟨i, t', ?_, rfl⟩) fun v p w u hv =>
      .inr ⟨v, w, u, (hpte v).trans hv⟩
    · rintro p (rfl | hp)
      · exact .inr (.table (setDir_self ..) (update_self ..) rfl)
      · exact .inl hp
    · rw [update_of_ne, hi]
      rintro rfl
      rw [ht] at hi
      cases hi
  · by_cases e : i = vpn / NPTENTRIES
    · exact .inr ⟨vpn, rfl, e.symm⟩
    · rw [update_of_ne e] at hi
      exact .inl hi
  · rw [pte_of_dir (setDir_self ..), hpte, pte_of_dir hd]

theorem walkpgdir_error {alloc : Bool} (h : walkpgdir m d vpn alloc = .error x) :
    x = .fault ∧ m.dirs d = none := by
  rw [walkpgdir, Mem.dir] at h
  split at h
  · simp only [bind, Except.bind] at h
    split at h
    · cases h
    · split at h
      · split at h <;> cases h
      · cases h
  · rename_i hd
    exact ⟨(Except.error.inj h).symm, hd⟩

/-- Where no entry is present `mappages` stops only without a directory. -/
theorem mappages_error {e : Pte} (ho : Own m S) (hn : m.pte d vpn = none)
    (h : mappages m d vpn e = .error x) : x = .fault ∧ m.dirs d = none := by
  rw [mappages] at h
  rcases bind_error.mp h with h | ⟨⟨o, m₁⟩, h₁, h⟩
  · exact walkpgdir_error h
  rcases walkpgdir_works ho h₁ with ⟨rfl, -⟩ | ⟨T, D, rfl, hD, hT, -, hpte, -⟩
  · cases h
  · rw [← hpte, pte_of_dir hD, pte_of_table hT] at hn
    simp only [bind, Except.bind, hn, setPte, dir_ok.mpr hD] at h
    cases h

/-- A page in hand is mapped where no page is, or nothing is done. -/
theorem mappages_works (ho : Own m (insert p S)) (hp : p ∉ S)
    (h : mappages m d vpn (.user p w u) = .ok (ok, m')) :
    (ok = false ∧ m' = m) ∨ ok = true ∧ Works (insert p S) S d (· = vpn) m m' ∧
      m.pte d vpn = none ∧ m'.pte d vpn = some (.user p w u) ∧ Takes m m' := by
  rw [mappages] at h
  obtain ⟨⟨o, m₁⟩, h₁, h⟩ := bind_ok.mp h
  rcases walkpgdir_works ho h₁ with ⟨rfl, hm⟩ | ⟨t, D, rfl, hD, ht, hw, hpte, htk⟩
  · cases h
    exact .inl ⟨rfl, hm⟩
  simp only at h
  split at h
  · cases h
  rename_i hnone
  obtain ⟨m₂, h₂, h⟩ := bind_ok.mp h
  cases h
  rw [setPte, dir_ok.mpr hD] at h₂
  cases h₂
  refine .inr ⟨rfl, hw.trans (.setEntry (hw.own.map hp hD ht) hD ht nofun ?_
    fun q w' u' hq => ?_), ?_, ?_, htk⟩
  · rintro q (rfl | hq)
    · exact .inr ⟨w, u, rfl⟩
    · exact .inl hq
  · rw [hnone] at hq
    cases hq
  · rw [← hpte, pte_of_dir hD, pte_of_table ht, hnone]
  · rw [pte_of_dir (setDir_self ..), pte_setPte ht, if_pos rfl]

/-- A free page is taken in hand and written. -/
theorem kalloc_works (data : Page → Support.Bytes) (ho : Own m S)
    (hk : kalloc m = (some p, m₁)) : p ∉ S ∧ Works S (insert p S) d T m { m₁ with data := data } := by
  obtain ⟨ho₁, hpS, -, hd₁, hh₁⟩ := kalloc_some ho hk
  exact ⟨hpS, .same (ho₁.congr rfl rfl) ((kalloc_saves hk).trans (.same rfl rfl)) hd₁ hh₁⟩

/-- A page in hand is given back. -/
theorem kfree_works (ho : Own m (insert p S)) (hp : p ∉ S)
    (h : kfree m p = .ok m') : Works (insert p S) S d T m m' := by
  obtain ⟨ho', hd, hh, hs⟩ := kfree_ok ho hp h
  exact .same ho' hs hd hh

/-- A free page is taken, written and mapped, or stays in hand. -/
theorem mapFresh_works {bytes : Support.Bytes} (ho : Own m S) (hk : kalloc m = (some p, m₁))
    (h : mappages { m₁ with data := update m₁.data p bytes } d vpn (.user p w u) = .ok (ok, m')) :
    (ok = false ∧ m' = { m₁ with data := update m₁.data p bytes }) ∨ ok = true ∧
      Works S S d (· = vpn) m m' ∧ m.pte d vpn = none ∧ m'.pte d vpn = some (.user p w u) ∧
      Takes m m' ∧ p ∈ m.freelist ∧ m'.data p = bytes := by
  obtain ⟨hpS, hw⟩ := kalloc_works (d := d) (T := (· = vpn)) _ ho hk
  refine (mappages_works hw.own hpS h).imp_right fun ⟨hok, hw', hnone, hnew, htk⟩ => ?_
  obtain ⟨-, -, hfree, hd₁, -⟩ := kalloc_some ho hk
  refine ⟨hok, hw.trans hw', ?_, hnew, (kalloc_takes hk bytes).trans htk, hfree, ?_⟩
  · rw [Mem.pte, ← hd₁]
    exact hnone
  · refine (htk p fun hm => ?_).2.trans (update_self ..)
    exact (hw.own.fresh hm).2 (Set.mem_insert p S)

/-! ### Shrinking -/

theorem pageUp_le {v a : Nat} : pageUp a ≤ v ↔ a ≤ v * PGSIZE := by
  rw [← Nat.not_lt, lt_pageUp, Nat.not_lt]

/-- `deallocuvm` frees a page and then clears its entry; the other way round it is the same. -/
theorem kfree_setPte {T : PageTab} {m₂ : Mem} (hd : m.dirs d = some D)
    (hp : p ≠ d) (h₁ : kfree m p = .ok m₁) (h₂ : setPte m₁ d vpn T none = .ok m₂) :
    kfree (m.setDir d (update D (vpn / NPTENTRIES) (some { T with
      pte := update T.pte (vpn % NPTENTRIES) none }))) p = .ok m₂ := by
  rw [kfree] at h₁
  split at h₁
  · cases h₁
  rename_i hf
  cases h₁
  rw [setPte] at h₂
  obtain ⟨D', hD', h₂⟩ := bind_ok.mp h₂
  have hd' : update m.dirs p none d = some D' := dir_ok.mp hD'
  rw [update_of_ne hp.symm, hd] at hd'
  cases hd'
  cases h₂
  rw [kfree, if_neg (show p ∉ (m.setDir d _).freelist from hf)]
  simp only [Mem.setDir, Function.update_comm hp]

/-- A page of the directory is freed and its entry cleared. -/
theorem freePage_spec {T : PageTab} (ho : Own m S)
    (hd : m.dirs d = some D) (hT : D (vpn / NPTENTRIES) = some T)
    (hv : T.pte (vpn % NPTENTRIES) = some (.user p w u)) :
    ∃ m₂ m₃, kfree m p = .ok m₂ ∧ setPte m₂ d vpn T none = .ok m₃ ∧ Works S S d (· = vpn) m m₃ ∧
      m₃.pte d vpn = none := by
  obtain ⟨hun, hpS, hpd⟩ := ho.unmap hd hT hv
  have hfree : p ∉ m.freelist := fun h => (hun.fresh h).2 (Set.mem_insert p S)
  obtain ⟨m₂, h₂⟩ : ∃ m₂, kfree m p = .ok m₂ := ⟨_, if_neg hfree⟩
  have hd₂ : m₂.dirs d = some D := by
    rw [kfree, if_neg hfree] at h₂
    cases h₂
    exact (update_of_ne hpd.symm ..).trans hd
  obtain ⟨m₃, h₃⟩ : ∃ m₃, setPte m₂ d vpn T none = .ok m₃ := by
    rw [setPte, dir_ok.mpr hd₂]
    exact ⟨_, rfl⟩
  have hkf := kfree_setPte hd hpd h₂ h₃
  refine ⟨m₂, m₃, h₂, h₃, (Works.setEntry hun hd hT (fun h => by cases h) (fun q hq => .inl (.inr hq))
    fun q w' u' hq => ?_).trans (kfree_works hun hpS hkf), ?_⟩
  · rw [hv] at hq
    cases hq
    exact .inl (.inl rfl)
  · rw [Mem.pte, (kfree_ok hun hpS hkf).2.1, setDir_self, Option.bind_some, pte_setPte hT,
      if_pos rfl]

theorem clearPage_spec (ho : Own m S) : Meets (clearPage m d vpn)
    (fun r => Works S S d (· = vpn) m r.2 ∧ r.2.pte d vpn = none)
    fun x => x = .fault ∧ m.dirs d = none ∨ x = .panic "kfree" ∧ m.pte d vpn = some .kern := by
  rw [clearPage]
  cases h₁ : walkpgdir m d vpn false with
  | error x => exact .inl (walkpgdir_error h₁)
  | ok r =>
  obtain ⟨o, m₁⟩ := r
  obtain ⟨rfl, D, hd, hT⟩ := walkpgdir_false h₁
  cases o with
  | none => exact ⟨.refl ho, by rw [pte_of_dir hd, PageDir.pte, hT]; rfl⟩
  | some T =>
    have hv : m₁.pte d vpn = T.pte (vpn % NPTENTRIES) := (pte_of_dir hd vpn).trans (pte_of_table hT)
    simp only [bind, Except.bind]
    split
    · rename_i hnone
      exact ⟨.refl ho, hv.trans hnone⟩
    · rename_i hk
      exact .inr ⟨rfl, hv.trans hk⟩
    · rename_i p w u hp
      obtain ⟨m₂, m₃, h₂, h₃, hw⟩ := freePage_spec ho hd hT hp
      simp only [h₂, h₃]
      exact hw

/-- The pages are cleared; the visit stops only at an entry of the kernel, or without a directory. -/
theorem visit_spec (v : Nat) (ho : Own m S) : Meets (visit d (pageUp oldsz) v m)
    (fun m' => Works S S d (fun w => v ≤ w ∧ w * PGSIZE < oldsz) m m' ∧
      ∀ w, v ≤ w → w * PGSIZE < oldsz → m'.pte d w = none)
    fun x => x = .fault ∧ m.dirs d = none ∨
      x = .panic "kfree" ∧ ∃ w, v ≤ w ∧ w * PGSIZE < oldsz ∧ m.pte d w = some .kern := by
  generalize hn : pageUp oldsz - v = n
  induction n generalizing m v with
  | zero =>
    have hl := Nat.le_of_sub_eq_zero hn
    rw [visit_end hl]
    refine ⟨.refl ho, fun w hv hw => ?_⟩
    have := lt_pageUp.mpr hw
    omega
  | succ n ih =>
    have hlt : v < pageUp oldsz := by omega
    rw [visit_step hlt]
    cases h₁ : clearPage m d v with
    | error x =>
      exact ((clearPage_spec ho).error h₁).imp_right fun ⟨hx, hk⟩ => ⟨hx, v, Nat.le_refl v, lt_pageUp.mp hlt, hk⟩
    | ok r =>
      obtain ⟨hw, hnone⟩ := (clearPage_spec ho).ok h₁
      refine (ih (v + 1) hw.own (by omega)).mono (fun m' ⟨hw', hclear⟩ => ⟨(hw.mono ?_).trans
        (hw'.mono fun w hw => ⟨by omega, hw.2⟩), fun w hv hlt => ?_⟩)
          fun x => Or.imp (And.imp_right hw.gone) fun ⟨hx, w, hv, hlt, hk⟩ =>
            ⟨hx, w, by omega, hlt, (hw.agree w (by omega)).symm.trans hk⟩
      · rintro _ rfl
        exact ⟨Nat.le_refl _, lt_pageUp.mp hlt⟩
      · rcases Nat.eq_or_lt_of_le hv with rfl | hv
        · rw [hw'.agree v fun h => by omega, hnone]
        · exact hclear w hv hlt

/-- `deallocuvm` clears the entries between the sizes. -/
theorem deallocuvm_works (ho : Own m S) (h : deallocuvm m d oldsz newsz = .ok (r, m')) :
    Works S S d (fun v => newsz ≤ v * PGSIZE ∧ v * PGSIZE < oldsz) m m' ∧
      r = (if oldsz ≤ newsz then oldsz else newsz) ∧
      ∀ v, newsz ≤ v * PGSIZE → v * PGSIZE < oldsz → m'.pte d v = none := by
  rw [deallocuvm] at h
  split at h
  · rename_i hle
    cases h
    exact ⟨.refl ho, (if_pos hle).symm, fun v h₁ h₂ => by omega⟩
  rename_i hlt
  obtain ⟨m₁, h₁, h⟩ := bind_ok.mp h
  cases h
  rw [deallocLoop_eq (Nat.le_add_right ..)] at h₁
  obtain ⟨hw, hclear⟩ := (visit_spec _ ho).ok h₁
  refine ⟨hw.mono fun v hv => ⟨pageUp_le.mp hv.1, hv.2⟩, (if_neg hlt).symm, fun v hv hlt => ?_⟩
  exact hclear v (pageUp_le.mpr hv) hlt

theorem deallocuvm_error (ho : Own m S)
    (h : deallocuvm m d oldsz newsz = .error x) : x = .fault ∧ m.dirs d = none ∨
      x = .panic "kfree" ∧ ∃ v, newsz ≤ v * PGSIZE ∧ v * PGSIZE < oldsz ∧ m.pte d v = some .kern := by
  rw [deallocuvm] at h
  split at h
  · cases h
  · rcases bind_error.mp h with h | ⟨m₁, -, h⟩
    · rw [deallocLoop_eq (Nat.le_add_right ..)] at h
      rcases (visit_spec _ ho).error h with hx | ⟨hx, v, hv, hk⟩
      · exact .inl hx
      · exact .inr ⟨hx, v, pageUp_le.mp hv, hk⟩
    · cases h

theorem deallocuvm_total (ho : Own m S) (hd : m.dirs d ≠ none)
    (hk : ∀ v, newsz ≤ v * PGSIZE → v * PGSIZE < oldsz → m.pte d v ≠ some .kern) :
    ∃ r, deallocuvm m d oldsz newsz = .ok r := by
  cases h : deallocuvm m d oldsz newsz with
  | ok r => exact ⟨r, rfl⟩
  | error x =>
    rcases deallocuvm_error ho h with ⟨-, hn⟩ | ⟨-, v, h₁, h₂, hv⟩
    · exact absurd hn hd
    · exact absurd hv (hk v h₁ h₂)

/-! ### Freeing a directory -/

/-- The memory without the directory `d`. -/
def Mem.erase (m : Mem) (d : Page) : Mem := { m with dirs := update m.dirs d none }

theorem erase_self (m : Mem) (d : Page) : (m.erase d).dirs d = none := update_self ..

theorem erase_other (m : Mem) {d e : Page} (h : e ≠ d) : (m.erase d).dirs e = m.dirs e :=
  update_of_ne h ..

theorem Tagged.erase {use : Page → Use} (h : Tagged m use) (d : Page) : Tagged (m.erase d) use := by
  have hsub : ∀ e E, (m.erase d).dirs e = some E → m.dirs e = some E := by
    intro e E he
    by_cases hed : e = d
    · subst hed
      rw [erase_self] at he
      cases he
    · rwa [erase_other m hed] at he
  exact
    { nodup := h.nodup
      free := h.free
      dir := fun e E he => h.dir e E (hsub e E he)
      table := fun e E i T he => h.table e E i T (hsub e E he)
      frame := fun e E v p w u he => h.frame e E v p w u (hsub e E he) }

theorem kfree_erase : kfree (m.erase d) p = (kfree m p).map (·.erase d) := by
  rw [kfree, kfree]
  change (if p ∈ m.freelist then _ else _) = _
  split
  · rfl
  by_cases e : p = d
  · subst e
    rfl
  · simp only [Mem.erase, Except.map]
    rw [Function.update_comm e]

theorem kfree_erase_self (m : Mem) (d : Page) : kfree (m.erase d) d = kfree m d := by
  simp only [kfree, Mem.erase, Function.update_idem]

theorem freeTabs_erase : freeTabs D is (m.erase d) = (freeTabs D is m).map (·.erase d) := by
  induction is generalizing m with
  | nil => rfl
  | cons i is ih =>
    rw [freeTabs, freeTabs]
    split
    · exact ih
    · rw [kfree_erase, except_bind_map, except_map_bind]
      exact congrArg _ (funext fun _ => ih)

/-- The pages of some of the page tables of a directory. -/
def tablePages (D : PageDir) (is : List Nat) : Set Page := {p | ∃ i ∈ is, ∃ T, D i = some T ∧ T.page = p}

theorem tablePages_cons {T : PageTab} (h : D i = some T) (is : List Nat) :
    tablePages D (i :: is) = insert T.page (tablePages D is) := by
  ext p
  constructor
  · rintro ⟨j, hj, T', hT', rfl⟩
    rcases List.mem_cons.mp hj with rfl | hj
    · cases h.symm.trans hT'
      exact .inl rfl
    · exact .inr ⟨j, hj, T', hT', rfl⟩
  · rintro (rfl | ⟨j, hj, hp⟩)
    · exact ⟨i, List.mem_cons_self, T, h, rfl⟩
    · exact ⟨j, List.mem_cons_of_mem i hj, hp⟩

theorem tablePages_cons_none (h : D i = none) (is : List Nat) :
    tablePages D (i :: is) = tablePages D is := by
  ext p
  constructor
  · rintro ⟨j, hj, T', hT', hp⟩
    rcases List.mem_cons.mp hj with rfl | hj
    · cases h.symm.trans hT'
    · exact ⟨j, hj, T', hT', hp⟩
  · rintro ⟨j, hj, hp⟩
    exact ⟨j, List.mem_cons_of_mem i hj, hp⟩

/-- Without the directory, its page and its page tables are in hand. -/
theorem Own.erase (ho : Own m S) (hd : m.dirs d = some D) (is : List Nat) :
    Own (m.erase d) (tablePages D is ∪ insert d S) ∧ d ∉ S ∧
      (∀ i T, D i = some T → T.page ∉ insert d S) ∧
      ∀ i j T T', D i = some T → D j = some T' → T.page = T'.page → i = j := by
  obtain ⟨use, ht, hS⟩ := ho
  have hdir := ht.dir d D hd
  have htab := fun i T => ht.table d D i T hd
  have her : Tagged (m.erase d) use := ht.erase d
  refine ⟨?_, fun hm => ?_, fun i T hi hm => ?_, fun i j T T' hi hj e => ?_⟩
  · have hidle : ∀ q ∈ insert d (tablePages D is), Tagged.Idle (m.erase d) q := by
      rintro q (rfl | ⟨i, -, T, hi, rfl⟩)
      · exact her.idle (her.not_free (by simp [hdir])) (fun _ => erase_self m q) (by simp [hdir])
          (by simp [hdir])
      have hu := htab i T hi
      refine her.idle (her.not_free (by simp [hu])) (by simp [hu]) (fun e j E he hE => ?_)
        (by simp [hu])
      rw [hu] at he
      cases he
      rw [erase_self] at hE
      cases hE
    obtain ⟨use', ht', hK, hout⟩ := her.keep _ hidle
    refine ⟨use', ht', ?_⟩
    rintro q (hq | rfl | hq)
    · exact hK q (Set.mem_insert_of_mem d hq)
    · exact hK q (Set.mem_insert q _)
    · by_cases hq' : q ∈ insert d (tablePages D is)
      · exact hK q hq'
      · rw [hout q hq', hS q hq]
  · rw [hS d hm] at hdir
    cases hdir
  · have hu := htab i T hi
    rcases hm with e | hm
    · rw [e, hdir] at hu
      cases hu
    · rw [hS _ hm] at hu
      cases hu
  · have hu := htab i T hi
    rw [e, htab j T' hj] at hu
    cases hu
    rfl

/-- A directory without user pages is its page and its page tables. -/
theorem Saves.erase (hd : m.dirs d = some D)
    (hi : ∀ i, (D i).isSome → i < NPDENTRIES) (hno : ∀ v p w u, D.pte v ≠ some (.user p w u)) :
    Saves S m (tablePages D (List.range NPDENTRIES) ∪ insert d S) (m.erase d) := by
  rintro p (hp | hp)
  · exact .inl (.inr (.inr hp))
  cases hp with
  | free h => exact .inr (.free h)
  | dir h =>
    by_cases e : p = d
    · exact .inl (.inr (.inl e))
    · exact .inr (.dir ((erase_other m e).trans h))
  | @table e E i T h hT hp =>
    by_cases hed : e = d
    · subst hed
      cases hd.symm.trans h
      exact .inl (.inl ⟨i, List.mem_range.mpr (hi i (by rw [hT]; rfl)), T, hT, hp⟩)
    · exact .inr (.table ((erase_other m hed).trans h) hT hp)
  | @frame e E v w u h hv =>
    by_cases hed : e = d
    · subst hed
      cases hd.symm.trans h
      exact absurd hv (hno v p w u)
    · exact .inr (.frame ((erase_other m hed).trans h) hv)

/-- Page tables in hand, each in a page of its own, are freed. -/
theorem freeTabs_spec (hnd : is.Nodup) (hnS : ∀ i T, D i = some T → T.page ∉ S)
    (hinj : ∀ i j T T', D i = some T → D j = some T' → T.page = T'.page → i = j)
    (ho : Own m (tablePages D is ∪ S)) :
    ∃ m', freeTabs D is m = .ok m' ∧ Own m' S ∧ m'.dirs = m.dirs ∧ m'.history = m.history ∧
      Saves (tablePages D is ∪ S) m S m' := by
  induction is generalizing m with
  | nil =>
    refine ⟨m, rfl, ho.mono fun p hp => .inr hp, rfl, rfl, ?_⟩
    rintro p ((⟨i, hi, -⟩ | hp) | hp)
    · cases hi
    · exact .inl hp
    · exact .inr hp
  | cons i is ih =>
    obtain ⟨hi, hnd⟩ := List.nodup_cons.mp hnd
    rw [freeTabs]
    cases hT : D i with
    | none =>
      rw [tablePages_cons_none hT] at ho ⊢
      exact ih hnd ho
    | some T =>
      rw [tablePages_cons hT, Set.insert_union] at ho ⊢
      have hout : T.page ∉ tablePages D is ∪ S := by
        rintro (⟨j, hj, T', hT', e⟩ | hp)
        · exact hi (hinj i j T T' hT hT' e.symm ▸ hj)
        · exact hnS i T hT hp
      obtain ⟨m₁, h₁⟩ : ∃ m₁, kfree m T.page = .ok m₁ :=
        ⟨_, if_neg fun hm => (ho.fresh hm).2 (Set.mem_insert ..)⟩
      obtain ⟨ho₁, hd₁, hh₁, hs₁⟩ := kfree_ok ho hout h₁
      obtain ⟨m', h', ho', hd', hh', hs'⟩ := ih hnd ho₁
      exact ⟨m', bind_ok.mpr ⟨m₁, h₁, h'⟩, ho', hd'.trans hd₁, hh'.trans hh₁, hs₁.trans hs'⟩

/-- The directory `d` is gone, every other is as it was. -/
structure Gone (S : Set Page) (d : Page) (m m' : Mem) : Prop where
  own : Own m' S
  other : ∀ e, e ≠ d → m'.dirs e = m.dirs e
  self : m'.dirs d = none
  history : m'.history = .freed d :: m.history

/-- `freevm`, when the user pages are gone. -/
theorem freevm_spec (ho : Own m S) (hd₀ : m.dirs d ≠ none)
    (h₁ : deallocuvm { m with history := .freed d :: m.history } d KERNBASE 0 = .ok (r, m₁)) :
    ∃ m', freevm m d = .ok m' ∧ Gone S d m m' ∧ (Low m d → Saves S m S m') := by
  obtain ⟨D₀, hd₀⟩ := Option.ne_none_iff_exists'.mp hd₀
  have ho₀ : Own { m with history := .freed d :: m.history } S := ho.congr rfl rfl
  obtain ⟨hw, -, hclear⟩ := deallocuvm_works ho₀ h₁
  obtain ⟨D, hd⟩ := Option.isSome_iff_exists.mp (hw.self.trans (by rw [hd₀]; rfl))
  -- from here on the directory is only a list of pages to free
  obtain ⟨ho₁, hdn, hnS, hinj⟩ := hw.own.erase hd (List.range NPDENTRIES)
  obtain ⟨m₂, h₂, ho₂, hd₂, hh₂, hs₂⟩ := freeTabs_spec List.nodup_range hnS hinj ho₁
  obtain ⟨m', h⟩ : ∃ m', kfree m₂ d = .ok m' :=
    ⟨_, if_neg fun hm => (ho₂.fresh hm).2 (Set.mem_insert d S)⟩
  obtain ⟨ho', hd', hh', hs'⟩ := kfree_ok ho₂ hdn h
  rw [freeTabs_erase] at h₂
  obtain ⟨m₂, htabs, rfl⟩ := map_ok.mp h₂
  rw [kfree_erase_self] at h
  have hdirs := hd'.trans hd₂
  refine ⟨m', ?_, ⟨ho', fun e he => ?_, ?_, hh'.trans (hh₂.trans hw.history)⟩, fun hl => ?_⟩
  · simp only [freevm, hd₀, h₁, dir_ok.mpr hd, htabs, bind, Except.bind]
    exact h
  · rw [hdirs, erase_other m₁ he, hw.other e he]
  · rw [hdirs, erase_self]
  obtain ⟨hi, hlow, -⟩ := hw.low (fun v hv => hv.2) hl D hd
  have herase : Saves S m₁ _ (m₁.erase d) := .erase hd hi fun v p w u hv => by
    have hnone := hclear v (Nat.zero_le _) (hlow v p w u hv)
    rw [pte_of_dir hd, hv] at hnone
    cases hnone
  have hsame : Saves S m S { m with history := .freed d :: m.history } := .same rfl rfl
  exact (hsame.trans (hw.saves.trans herase)).trans (hs₂.trans hs')

/-- `freevm` frees the directory, and with it all its pages if they lie below the kernel. -/
theorem freevm_gone (ho : Own m S) (h : freevm m d = .ok m') :
    Gone S d m m' ∧ (Low m d → Saves S m S m') := by
  have hf := h
  rw [freevm] at h
  split at h
  · rename_i hd
    cases h
    exact ⟨⟨ho.congr rfl rfl, fun _ _ => rfl, hd, rfl⟩, fun _ => .same rfl rfl⟩
  rename_i hd
  obtain ⟨⟨r, m₁⟩, h₁, h⟩ := bind_ok.mp h
  obtain ⟨m'', h', hspec⟩ := freevm_spec ho (fun hn => nomatch hd.symm.trans hn) h₁
  cases h'.symm.trans hf
  exact hspec

/-- `freevm` returns: it meets no entry of the kernel. -/
theorem freevm_total (ho : Own m S) (hl : Low m d) : ∃ m', freevm m d = .ok m' := by
  cases hd : m.dirs d with
  | none => exact ⟨{ m with history := .freed d :: m.history }, by simp only [freevm, hd]⟩
  | some D =>
    have hne : m.dirs d ≠ none := fun hn => nomatch hd.symm.trans hn
    have ho₀ : Own { m with history := .freed d :: m.history } S := ho.congr rfl rfl
    obtain ⟨⟨r, m₁⟩, h₁⟩ : ∃ r, deallocuvm _ d KERNBASE 0 = .ok r := deallocuvm_total ho₀ hne
      fun v _ hv hk => (hl D hd).2.2 v hv ((pte_of_dir hd v).symm.trans hk)
    obtain ⟨m', h, -⟩ := freevm_spec ho hne h₁
    exact ⟨m', h⟩

/-! ### Building a directory -/

structure Built (S : Set Page) (d : Page) (m m' : Mem) : Prop where
  fresh : d ∈ m.freelist
  own : Own m' S
  other : ∀ e, e ≠ d → m'.dirs e = m.dirs e
  self : (m'.dirs d).isSome
  history : m'.history = .made d :: m.history

/-- A directory that can be given up again. -/
structure Building (S : Set Page) (d : Page) (m m' : Mem) : Prop extends Built S d m m' where
  saves : Saves S m S m'
  low : Low m' d

structure Unbuilt (S : Set Page) (m m' : Mem) : Prop where
  own : Own m' S
  dirs : m'.dirs = m.dirs
  history : m'.history = m.history ∨ ∃ d ∈ m.freelist, m'.history = .freed d :: .made d :: m.history
  saves : Saves S m S m'

theorem Unbuilt.refl (ho : Own m S) : Unbuilt S m m := ⟨ho, rfl, .inl rfl, .same rfl rfl⟩

theorem Building.works (h : Building S d m m₁)
    (hw : Works S S d T m₁ m') (hT : ∀ v, T v → v * PGSIZE < KERNBASE) : Building S d m m' where
  fresh := h.fresh
  own := hw.own
  other := fun e he => (hw.other e he).trans (h.other e he)
  self := hw.self.trans h.self
  history := hw.history.trans h.history
  saves := h.saves.trans hw.saves
  low := hw.low hT h.low

/-- What is taken from the free list before does not count. -/
theorem Built.before (h : Built S d m₁ m') (hsub : ∀ q ∈ m₁.freelist, q ∈ m.freelist)
    (hd : m₁.dirs = m.dirs) (hh : m₁.history = m.history) : Built S d m m' :=
  { h with
    fresh := hsub d h.fresh
    other := fun e he => (h.other e he).trans (congrFun hd e)
    history := h.history.trans (by rw [hh]) }

theorem Building.freevm (ho : Own m S) (h : Building S d m m₁)
    (hf : freevm m₁ d = .ok m') : Unbuilt S m m' := by
  obtain ⟨hg, hs⟩ := freevm_gone h.own hf
  refine ⟨hg.own, funext fun e => ?_, .inr ⟨d, h.fresh, hg.history.trans (by rw [h.history])⟩,
    h.saves.trans (hs h.low)⟩
  by_cases he : e = d
  · rw [he, hg.self, (ho.fresh h.fresh).1]
  · rw [hg.other e he, h.other e he]

/-- The loop of `setupkvm` on a directory without user pages. -/
theorem mapKvm_spec (ho : Own m S) (hdir : m.dirs d ≠ none)
    (his : ∀ v, v / NPTENTRIES ∈ is → KERNBASE ≤ v * PGSIZE)
    (hno : ∀ v p w u, m.pte d v ≠ some (.user p w u)) : ∃ ok m', mapKvm d is m = .ok (ok, m') ∧
      Works S S d (fun v => v / NPTENTRIES ∈ is) m m' ∧
      (∀ v p w u, m'.pte d v ≠ some (.user p w u)) ∧
      (ok = true → (∀ v, v / NPTENTRIES ∈ is → m'.pte d v = some .kern) ∧ Takes m m') := by
  induction is generalizing m with
  | nil =>
    exact ⟨_, _, rfl, .refl ho, hno, fun _ => ⟨fun v hv => (by cases hv), fun _ h => ⟨h, rfl⟩⟩⟩
  | cons i is ih =>
    rw [mapKvm]
    cases h₁ : walkpgdir m d (i * NPTENTRIES) true with
    | error x => exact absurd (walkpgdir_error h₁).2 hdir
    | ok r =>
    obtain ⟨o, m₁⟩ := r
    rcases walkpgdir_works ho h₁ with ⟨rfl, rfl⟩ | ⟨T, D, rfl, hD, hi, hw, hpte, htk⟩
    · exact ⟨_, _, rfl, .refl ho, hno, fun h => by cases h⟩
    rw [Nat.mul_div_cancel i (by decide)] at hi
    simp only [bind, Except.bind, dir_ok.mpr hD]
    have hown := hw.own.fillKern hD hi
    obtain ⟨E, hE⟩ : ∃ E : PageDir,
        E = update D i (some { T with pte := fun _ => some .kern }) := ⟨_, rfl⟩
    rw [← hE] at hown ⊢
    have hkern : ∀ v, E.pte v = if v / NPTENTRIES = i then some .kern else D.pte v := by
      intro v
      rw [hE, PageDir.pte, PageDir.pte]
      split
      · rename_i e
        rw [e, update_self]
        rfl
      · rename_i e
        rw [update_of_ne e]
    have hDno : ∀ v p w u, D.pte v ≠ some (.user p w u) := fun v p w u hv =>
      hno v p w u ((hpte v).symm.trans ((pte_of_dir hD v).trans hv))
    have hw₂ : Works S S d (fun v => v / NPTENTRIES ∈ i :: is) m₁ (m₁.setDir d E) := by
      refine .setDir hown (.setDir hD (fun p hp => .inl hp) (fun j t hj => ?_) fun v p w u hv =>
        absurd hv (hDno v p w u)) hD (fun v hv => ?_) (fun v hv h => ?_) fun j hj => ?_
      · by_cases e : j = i
        · subst e
          cases hi.symm.trans hj
          exact ⟨j, { T with pte := fun _ => some .kern }, by rw [hE, update_self], rfl⟩
        · exact ⟨j, t, by rw [hE, update_of_ne e, hj], rfl⟩
      · rw [hkern, if_neg fun e => hv (List.mem_cons.mpr (.inl e))]
      · rwa [hkern, if_neg fun e => absurd hv (Nat.not_lt.mpr (his v (by simp [e])))] at h
      by_cases e : j = i
      · exact .inr ⟨i * NPTENTRIES, by rw [Nat.mul_div_cancel i (by decide)]; exact List.mem_cons_self,
          by rw [Nat.mul_div_cancel i (by decide), e]⟩
      · rw [hE, update_of_ne e] at hj
        exact .inl hj
    have hpte₂ : ∀ v, (m₁.setDir d E).pte d v = E.pte v := pte_of_dir (setDir_self ..)
    obtain ⟨ok, m', h, hw', hno', hall⟩ := ih hw₂.own (by rw [setDir_self]; exact fun h => by cases h)
      (fun v hv => his v (List.mem_cons_of_mem i hv)) fun v p w u hv => by
      rw [hpte₂, hkern] at hv
      split at hv
      · cases hv
      · exact hDno v p w u hv
    refine ⟨ok, m', h, ((hw.mono ?_).trans hw₂).trans (hw'.mono fun v hv => List.mem_cons_of_mem i hv), hno',
      fun hok => ⟨fun v hv => ?_, htk.trans (hall hok).2⟩⟩
    · rintro _ rfl
      rw [Nat.mul_div_cancel i (by decide)]
      exact List.mem_cons_self
    · by_cases hmem : v / NPTENTRIES ∈ is
      · exact (hall hok).1 v hmem
      · rw [hw'.agree v hmem, hpte₂, hkern, if_pos ((List.mem_cons.mp hv).resolve_right hmem)]

/-- A page in hand becomes an empty directory. -/
theorem Own.newDir (ho : Own m (insert d S)) (hp : d ∉ S) : Own (m.setDir d fun _ => none) S := by
  obtain ⟨use, ht, hS⟩ := ho
  have htag := ht.retag (ht.idle_of_kept (hS d (Set.mem_insert d S))) .dir
  refine ⟨_, htag.setDir (update_self ..) (fun i T hi => ?_) (fun v p w u hv => ?_), fun q hq => ?_⟩
  · cases hi
  · cases hv
  · rw [update_of_ne (fun e : q = d => hp (e ▸ hq)), hS q (Set.mem_insert_of_mem d hq)]

theorem Saves.newDir (hn : m.dirs d = none) : Saves (insert d S) m S (m.setDir d fun _ => none) := by
  have hother : ∀ e E, m.dirs e = some E → (m.setDir d fun _ => none).dirs e = some E := by
    intro e E he
    rw [setDir_other, he]
    rintro rfl
    rw [hn] at he
    cases he
  rintro p ((rfl | hp) | hp)
  · exact .inr (.dir (setDir_self ..))
  · exact .inl hp
  · exact .inr ((hp.mono hother).elim (fun h => .free h) id)

/-- No user page of `d` is present from `sz` on. -/
def Bare (m : Mem) (d : Page) (sz : Nat) : Prop :=
  ∀ v, sz ≤ v * PGSIZE → v * PGSIZE < KERNBASE → m.pte d v = none

theorem mem_kvmTables : i ∈ kvmTables ↔ 512 ≤ i ∧ i < 568 ∨ 1016 ≤ i ∧ i < 1024 := by
  rw [kvmTables, List.mem_append, List.mem_range'_1, List.mem_range'_1]

/-- `setupkvm` makes a directory with the kernel part only, or gives back all it took. -/
theorem setupkvm_spec (ho : Own m S) : ∃ o m', setupkvm m = .ok (o, m') ∧
    ((∃ d, o = some d ∧ Building S d m m' ∧ Bare m' d 0 ∧
      m'.pte d (KERNBASE / PGSIZE) = some .kern ∧ Takes m m') ∨ o = none ∧ Unbuilt S m m') := by
  rw [setupkvm]
  split
  · rename_i m₁ hk
    rw [kalloc_none hk]
    exact ⟨_, _, rfl, .inr ⟨rfl, .refl ho⟩⟩
  rename_i d m₁ hk
  obtain ⟨ho₁, hdS, hfree, hd₁, hh₁⟩ := kalloc_some ho hk
  have hown : Own (memset m₁ d 0) (insert d S) := ho₁.congr rfl rfl
  have hnone : (memset m₁ d 0).dirs d = none := (congrFun hd₁ d).trans (ho.fresh hfree).1
  generalize hm₀ : ({ (memset m₁ d 0).setDir d fun _ => none with
    history := .made d :: m₁.history } : Mem) = m₀
  have hdir : m₀.dirs d = some fun _ => none := by
    rw [← hm₀]
    exact setDir_self ..
  have hempty : ∀ v, m₀.pte d v = none := pte_of_dir hdir
  have hb : Building S d m m₀ := by
    subst hm₀
    refine ⟨⟨hfree, (hown.newDir hdS).congr rfl rfl, fun e he => ?_, by rw [hdir]; rfl, by rw [hh₁]⟩,
      ?_, fun D hD => ?_⟩
    · exact (setDir_other (memset m₁ d 0) _ he).trans (congrFun hd₁ e)
    · have hsame : Saves (insert d S) m₁ (insert d S) (memset m₁ d 0) := .same rfl rfl
      exact ((kalloc_saves hk).trans hsame).trans ((Saves.newDir hnone).trans (.same rfl rfl))
    · cases hdir.symm.trans hD
      exact ⟨fun i hi => (nomatch hi), fun v p w u hv => (nomatch hv), fun v _ hv => nomatch hv⟩
  have hbelow (v : Nat) (hv : v / NPTENTRIES ∈ kvmTables) : KERNBASE ≤ v * PGSIZE := by
    rw [mem_kvmTables] at hv
    unfold NPTENTRIES at hv
    unfold KERNBASE PGSIZE
    omega
  obtain ⟨ok, m₂, h₂, hw, hno, hkern⟩ := mapKvm_spec hb.own (by rw [hdir]; nofun) hbelow
    fun v p w u hv => by
      rw [hempty] at hv
      cases hv
  -- the page tables of the kernel are those of a directory
  have hlow : Low m₂ d := by
    intro D hD
    refine ⟨fun i hi => ?_, fun v p w u hv => absurd ((pte_of_dir hD v).trans hv) (hno v p w u),
      fun v hv hk => ?_⟩
    · rcases hw.tables _ D i hdir hD hi with hi | ⟨v, hv, rfl⟩
      · cases hi
      · rw [mem_kvmTables] at hv
        unfold NPDENTRIES
        omega
    · have hold := hw.kern v hv ((pte_of_dir hD v).trans hk)
      rw [hempty] at hold
      cases hold
  have hb₂ : Building S d m m₂ := ⟨⟨hb.fresh, hw.own,
    fun e he => (hw.other e he).trans (hb.other e he), hw.self.trans hb.self,
    hw.history.trans hb.history⟩, hb.saves.trans hw.saves, hlow⟩
  cases ok with
  | true =>
    have htk : Takes m m₀ := by
      subst hm₀
      exact kalloc_takes hk _
    refine ⟨_, _, bind_ok.mpr ⟨_, h₂, rfl⟩, .inl ⟨d, rfl, hb₂, fun v _ hv => ?_, (hkern rfl).1 _ (by rw [mem_kvmTables]; decide),
      htk.trans (hkern rfl).2⟩⟩
    rw [hw.agree v fun h => absurd hv (Nat.not_lt.mpr (hbelow v h)), hempty]
  | false =>
    obtain ⟨m₃, h₃⟩ := freevm_total hb₂.own hb₂.low
    exact ⟨none, m₃, bind_ok.mpr ⟨_, h₂, bind_ok.mpr ⟨m₃, h₃, rfl⟩⟩, .inr ⟨rfl, hb₂.freevm ho h₃⟩⟩

/-! ### Growing -/

/-- Every page below `sz` is a user page. -/
def Full (m : Mem) (d : Page) (sz : Nat) : Prop := ∀ v, v * PGSIZE < sz → Mapped m d v

/-- The loop of `allocuvm` maps every page from `vpn` on, or none between the sizes stays; where no
page is present yet it stops only without a directory. -/
theorem allocLoop_spec (n vpn : Nat) (ho : Own m S) (hvpn : pageUp oldsz ≤ vpn) :
    Meets (allocLoop d oldsz newsz n vpn m)
    (fun r => Works S S d (fun v => oldsz ≤ v * PGSIZE ∧ v * PGSIZE < newsz) m r.2 ∧
      (r.1 ≠ 0 → Agree d (· < vpn) m r.2 ∧ Takes m r.2 ∧
        ∀ v, vpn ≤ v → v < vpn + n → v * PGSIZE < newsz → m.pte d v = none ∧
          ∃ p, r.2.pte d v = some (.user p true true) ∧ r.2.data p = fun _ => 0) ∧
      (r.1 = 0 → ∀ v, oldsz ≤ v * PGSIZE → v * PGSIZE < newsz → r.2.pte d v = none))
    fun x => newsz ≤ KERNBASE →
      (∀ v, oldsz ≤ v * PGSIZE → v * PGSIZE < newsz → m.pte d v ≠ some .kern) →
      (∀ v, vpn ≤ v → v * PGSIZE < newsz → m.pte d v = none) → x = .fault ∧ m.dirs d = none := by
  induction n generalizing m vpn with
  | zero =>
    exact ⟨.refl ho, fun _ => ⟨.refl _, fun _ h => ⟨h, rfl⟩, fun v h₁ h₂ => by omega⟩,
      fun hr v _ h => by rw [show newsz = 0 from hr] at h; omega⟩
  | succ n ih =>
    have hfree {m' : Mem} {S' : Set Page} {x : Stop} (ho : Own m' S') (hd : m'.dirs d = m.dirs d)
        (hk : ∀ v, oldsz ≤ v * PGSIZE → v * PGSIZE < newsz → m.pte d v ≠ some .kern)
        (h : deallocuvm m' d newsz oldsz = .error x) : x = .fault ∧ m.dirs d = none := by
      rcases deallocuvm_error ho h with ⟨hx, hn⟩ | ⟨-, v, h₁, h₂, h⟩
      · exact ⟨hx, hd ▸ hn⟩
      · rw [Mem.pte, hd] at h
        exact absurd h (hk v h₁ h₂)
    rw [allocLoop]
    split
    · rename_i hlt
      split
      · rename_i m₁ hkal
        rw [kalloc_none hkal]
        cases h₂ : deallocuvm m d newsz oldsz with
        | error x => exact fun _ hk _ => hfree ho rfl hk h₂
        | ok r =>
          obtain ⟨hw, -, hclear⟩ := deallocuvm_works ho h₂
          exact ⟨hw, fun h => absurd rfl h, fun _ => hclear⟩
      · rename_i p m₁ hkal
        have hd₁ : m₁.dirs d = m.dirs d := congrFun (kalloc_dirs hkal) d
        obtain ⟨hpS, hw₁⟩ := kalloc_works (d := d) (T := fun _ => False)
          (update m₁.data p fun _ => 0) ho hkal
        cases h₂ : mappages (memset m₁ p 0) d vpn (.user p true true) with
        | error x =>
          intro hn hk hb
          have hnone := (hw₁.agree vpn id).trans (hb vpn (Nat.le_refl _) hlt)
          exact (mappages_error hw₁.own hnone h₂).imp_right hd₁.symm.trans
        | ok r =>
        obtain ⟨ok, m₂⟩ := r
        rcases mapFresh_works ho hkal h₂ with ⟨rfl, rfl⟩ | ⟨rfl, hw, hnone, hnew, htk, -, hzero⟩
        · simp only [bind, Except.bind]
          split
          · rename_i x h₃
            exact fun _ hk _ => hfree hw₁.own hd₁ hk h₃
          rename_i r h₃
          obtain ⟨hw₃, -, hclear⟩ := deallocuvm_works hw₁.own h₃
          -- the page in hand is not free
          obtain ⟨m₄, h₄⟩ : ∃ m₄, kfree r.2 p = .ok m₄ :=
            ⟨_, if_neg fun hm => (hw₃.own.fresh hm).2 (Set.mem_insert p S)⟩
          rw [h₄]
          refine ⟨((hw₁.mono nofun).trans hw₃).trans (kfree_works hw₃.own hpS h₄),
            fun h => absurd rfl h, fun _ v h₁ h₂ => ?_⟩
          rw [Mem.pte, (kfree_ok hw₃.own hpS h₄).2.1]
          exact hclear v h₁ h₂
        · refine (ih _ hw.own (by omega)).mono (fun r ⟨hw', hr, hz⟩ => ⟨(hw.mono ?_).trans hw',
            fun hne => ?_, hz⟩) fun x h hn hk hb => (h hn (fun v h₁ h₂ h => hk v h₁ h₂
              (hw.kern v (h₂.trans_le hn) h)) fun v h₁ h₂ =>
                (hw.agree v (by omega)).trans (hb v (by omega) h₂)).imp_right hw.gone
          · rintro _ rfl
            exact ⟨pageUp_le.mp hvpn, hlt⟩
          obtain ⟨ha, htk', hpages⟩ := hr hne
          refine ⟨fun v hv => (ha v (by omega)).trans (hw.agree v (by omega)), htk.trans htk',
            fun v h₁ h₂ h₃ => ?_⟩
          rcases Nat.eq_or_lt_of_le h₁ with rfl | h₁
          · exact ⟨hnone, p, (ha _ (Nat.lt_succ_self _)).trans hnew,
              (htk' p (hw.own.not_free hnew)).2.trans hzero⟩
          · obtain ⟨hn, hp⟩ := hpages v h₁ (by omega) h₃
            exact ⟨(hw.agree v (by omega)).symm.trans hn, hp⟩
    · rename_i hge
      refine ⟨.refl ho, fun _ => ⟨.refl _, fun _ h => ⟨h, rfl⟩, fun v h₁ _ h₃ => ?_⟩,
        fun hr v _ h => by rw [show newsz = 0 from hr] at h; omega⟩
      exact absurd (Nat.lt_of_le_of_lt (Nat.mul_le_mul_right PGSIZE h₁) h₃) hge

theorem allocLoop_value (hr : r ≠ 0)
    (h : allocLoop d oldsz newsz n vpn m = .ok (r, m')) : r = newsz := by
  induction n generalizing m vpn with
  | zero =>
    cases h
    rfl
  | succ n ih =>
    rw [allocLoop] at h
    split at h
    · split at h
      · obtain ⟨⟨r₂, m₂⟩, -, h⟩ := bind_ok.mp h
        cases h
        exact absurd rfl hr
      obtain ⟨⟨ok, m₂⟩, -, h⟩ := bind_ok.mp h
      cases ok with
      | true => exact ih h
      | false =>
        obtain ⟨⟨r₃, m₃⟩, -, h⟩ := bind_ok.mp h
        obtain ⟨m₄, -, h⟩ := bind_ok.mp h
        cases h
        exact absurd rfl hr
    · cases h
      rfl

/-- The size `allocuvm` returns, if it succeeds. -/
theorem allocuvm_value (h : allocuvm m d oldsz newsz = .ok (r, m'))
    (hr : r ≠ 0) : newsz < oldsz ∧ r = oldsz ∨ oldsz ≤ newsz ∧ r = newsz ∧ newsz < KERNBASE := by
  rw [allocuvm] at h
  split at h
  · cases h
    exact absurd rfl hr
  rename_i hkern
  split at h
  · rename_i hlt
    cases h
    exact .inl ⟨hlt, rfl⟩
  · rename_i hge
    exact .inr ⟨Nat.le_of_not_lt hge, allocLoop_value hr h, Nat.lt_of_not_le hkern⟩

/-- What `allocuvm` does: the entries between the sizes are user pages when it succeeds, and not there,
or as they were, when it fails. -/
structure Alloced (S : Set Page) (d : Page) (oldsz newsz r : Nat) (m m' : Mem) : Prop where
  works : Works S S d
    (fun v => oldsz ≤ v * PGSIZE ∧ v * PGSIZE < newsz ∧ v * PGSIZE < KERNBASE) m m'
  pages : r ≠ 0 → ∀ v, oldsz ≤ v * PGSIZE → v * PGSIZE < newsz →
    m.pte d v = none ∧ ∃ p, m'.pte d v = some (.user p true true) ∧ m'.data p = fun _ => 0
  takes : r ≠ 0 → Takes m m'
  clear : r = 0 → ∀ v, oldsz ≤ v * PGSIZE → v * PGSIZE < newsz →
    m'.pte d v = none ∨ m'.pte d v = m.pte d v
  value : r ≠ 0 → newsz < oldsz ∧ r = oldsz ∨ oldsz ≤ newsz ∧ r = newsz ∧ newsz < KERNBASE

theorem allocuvm_spec (ho : Own m S)
    (h : allocuvm m d oldsz newsz = .ok (r, m')) : Alloced S d oldsz newsz r m m' := by
  have hval := allocuvm_value h
  rw [allocuvm] at h
  split at h
  · cases h
    exact ⟨.refl ho, fun h => absurd rfl h, fun h => absurd rfl h, fun _ _ _ _ => .inr rfl, hval⟩
  rename_i hkern
  split at h
  · rename_i hlt
    cases h
    exact ⟨.refl ho, fun _ v h₁ h₂ => by omega, fun _ _ h => ⟨h, rfl⟩, fun _ v h₁ h₂ => by omega,
      hval⟩
  · obtain ⟨hw, hr, hz⟩ := (allocLoop_spec _ _ ho (Nat.le_refl _)).ok h
    refine ⟨hw.mono fun v hv => ⟨hv.1, hv.2, by omega⟩, fun hne v hv hlt => ?_,
      fun hne => (hr hne).2.1, fun hr v hv hlt => .inl (hz hr v hv hlt), hval⟩
    exact (hr hne).2.2 v (pageUp_le.mpr hv) (Nat.lt_add_left _ (lt_pageUp.mpr hlt)) hlt

/-- Where nothing is present from the old size on, `allocuvm` stops only without a directory. -/
theorem allocuvm_error (ho : Own m S) (hb : Bare m d oldsz)
    (h : allocuvm m d oldsz newsz = .error x) : x = .fault ∧ m.dirs d = none := by
  rw [allocuvm] at h
  split at h
  · cases h
  rename_i hk
  split at h
  · cases h
  · refine (allocLoop_spec _ _ ho (Nat.le_refl _)).error h (Nat.le_of_not_le hk) (fun v h₁ h₂ h => ?_)
      fun v h₁ h₂ => hb v (pageUp_le.mp h₁) (by omega)
    cases (hb v h₁ (by omega)).symm.trans h

namespace Alloced

variable {oldsz newsz r : Nat}

section

variable (h : Alloced S d oldsz newsz r m m')
include h

/-- Outside the range the entries are the same. -/
theorem agree {v : Nat} (hv : v * PGSIZE < oldsz ∨ newsz ≤ v * PGSIZE) : m'.pte d v = m.pte d v :=
  h.works.agree v fun ⟨h₁, h₂, _⟩ => by omega

theorem mapped {v : Nat} (hv : r ≠ 0 ∨ v * PGSIZE < oldsz) (hm : Mapped m d v) : Mapped m' d v := by
  rw [mapped_iff] at hm ⊢
  by_cases hrange : oldsz ≤ v * PGSIZE ∧ v * PGSIZE < newsz
  · obtain ⟨p, hp, -⟩ :=
      (h.pages (hv.resolve_right (Nat.not_lt.mpr hrange.1)) v hrange.1 hrange.2).2
    exact ⟨p, true, true, hp⟩
  · rwa [h.agree (by omega)]

theorem grows (hr : r ≠ 0) : Grows S d m m' :=
  ⟨h.works.mono fun _ _ => trivial, fun _ => h.mapped (.inl hr)⟩

/-- All below the new size is mapped if all below the old was. -/
theorem full (hr : r ≠ 0) (hf : Full m d oldsz) : Full m' d r := by
  intro v hv
  by_cases hold : v * PGSIZE < oldsz
  · exact h.mapped (.inl hr) (hf v hold)
  · rcases h.value hr with ⟨-, rfl⟩ | ⟨-, rfl, -⟩
    · exact absurd hv hold
    · obtain ⟨p, hp, -⟩ := (h.pages hr v (Nat.le_of_not_lt hold) hv).2
      exact mapped_iff.mpr ⟨p, true, true, hp⟩

/-- Nothing is present from the new size on, if nothing was from the old. -/
theorem bare (hb : Bare m d oldsz) : Bare m' d (if r = 0 then oldsz else r) := by
  intro v hv hk
  split at hv
  · rename_i hz
    by_cases hn : newsz ≤ v * PGSIZE
    · exact (h.agree (.inr hn)).trans (hb v hv hk)
    · exact (h.clear hz v hv (Nat.lt_of_not_le hn)).elim id fun e => e.trans (hb v hv hk)
  · rename_i hz
    have hval := h.value hz
    exact (h.agree (.inr (by omega))).trans (hb v (by omega) hk)

end

end Alloced

/-! ### Copying -/

/-- The loop of `copyuvm` stops at the kernel, where there is a page already. -/
theorem copyLoop_works {src : Page} (ho : Own m S)
    (hk : m.pte d (KERNBASE / PGSIZE) = some .kern) (hv : vpn ≤ KERNBASE / PGSIZE)
    (h : copyLoop src d sz n vpn m = .ok (ok, m')) :
    Works S S d (fun v => vpn ≤ v ∧ v * PGSIZE < sz ∧ v * PGSIZE < KERNBASE) m m' ∧
      (ok = true → Takes m m' ∧ ∀ v, vpn ≤ v → v < vpn + n → v * PGSIZE < sz →
        ∃ p w u, m'.pte d v = some (.user p w u) ∧ p ∈ m.freelist ∧ ∀ q w' u', src ≠ d →
          m.pte src v = some (.user q w' u') → w = w' ∧ u = u' ∧ m'.data p = m.data q) := by
  induction n generalizing m vpn with
  | zero =>
    cases h
    exact ⟨.refl ho, fun _ => ⟨fun _ h => ⟨h, rfl⟩, fun v h₁ h₂ => by omega⟩⟩
  | succ n ih =>
    rw [copyLoop] at h
    split at h
    · rename_i hlt
      obtain ⟨⟨o, m₀⟩, h₀, h⟩ := bind_ok.mp h
      obtain ⟨rfl, D, hD, hT⟩ := walkpgdir_false h₀
      cases o with
      | none => cases h
      | some T =>
        simp only at h
        split at h
        · cases h
        rename_i e he
        have hsrc : m₀.pte src vpn = some e := by rw [pte_of_dir hD, pte_of_table hT, he]
        split at h
        · rename_i m₁ hk
          cases h
          rw [kalloc_none hk]
          exact ⟨.refl ho, fun h => by cases h⟩
        · rename_i p m₁ hkal
          obtain ⟨⟨ok₂, m₂⟩, h₂, h⟩ := bind_ok.mp h
          -- whatever is copied, the new entry names the new page
          have hmap : (ok₂ = false ∧ ∃ data, m₂ = { m₁ with data := data }) ∨ ok₂ = true ∧
              Works S S d (· = vpn) m₀ m₂ ∧ m₀.pte d vpn = none ∧ Takes m₀ m₂ ∧ p ∈ m₀.freelist ∧
              ∃ w u, m₂.pte d vpn = some (.user p w u) ∧ ∀ q w' u', e = .user q w' u' →
                w = w' ∧ u = u' ∧ m₂.data p = m₀.data q := by
            cases e with
            | kern =>
              exact (mapFresh_works ho hkal h₂).imp (fun ⟨h, hm⟩ => ⟨h, _, hm⟩)
                fun ⟨h, hw, hn, hp, htk, hf, _⟩ => ⟨h, hw, hn, htk, hf, _, _, hp, nofun⟩
            | user q w u =>
              refine (mapFresh_works ho hkal h₂).imp (fun ⟨h, hm⟩ => ⟨h, _, hm⟩)
                fun ⟨h, hw, hn, hp, htk, hf, hb⟩ => ⟨h, hw, hn, htk, hf, _, _, hp, ?_⟩
              rintro _ _ _ ⟨⟩
              exact ⟨rfl, rfl, by rw [hb, kalloc_eq hkal]⟩
          rcases hmap with ⟨rfl, data, rfl⟩ | ⟨rfl, hw, hnone, htk, hfree, w, u, hnew, hcopy⟩
          · obtain ⟨m₃, h₃, h⟩ := bind_ok.mp h
            cases h
            obtain ⟨hpS, hw⟩ := kalloc_works data ho hkal
            exact ⟨hw.trans (kfree_works hw.own hpS h₃), fun h => by cases h⟩
          · have hne : vpn ≠ KERNBASE / PGSIZE := by
              rintro rfl
              cases hk.symm.trans hnone
            have hbelow : vpn * PGSIZE < KERNBASE := by
              unfold KERNBASE PGSIZE at hne hv ⊢
              omega
            obtain ⟨hw', hpages⟩ := ih hw.own ((hw.agree _ hne.symm).trans hk) (by omega) h
            refine ⟨(hw.mono ?_).trans (hw'.mono fun v hv => ⟨by omega, hv.2⟩), fun hok => ?_⟩
            · rintro _ rfl
              exact ⟨Nat.le_refl _, hlt, hbelow⟩
            obtain ⟨htk', hpages⟩ := hpages hok
            refine ⟨htk.trans htk', fun v h₁ h₂ h₃ => ?_⟩
            rcases Nat.eq_or_lt_of_le h₁ with rfl | h₁
            · refine ⟨p, w, u, (hw'.agree vpn fun h => by omega).trans hnew, hfree,
                fun q w' u' _ hq => ?_⟩
              obtain ⟨hw'', hu'', hb⟩ := hcopy q w' u' (Option.some.inj (hsrc.symm.trans hq))
              exact ⟨hw'', hu'', (htk' p (hw.own.not_free hnew)).2.trans hb⟩
            · obtain ⟨p', w', u', hp, hf, hb⟩ := hpages v h₁ (by omega) h₃
              refine ⟨p', w', u', hp, by_contra fun hn => (htk p' hn).1 hf, fun q w'' u'' hsd hq => ?_⟩
              -- the page of the source is in use, so it has not been written since
              have hsame : m₂.pte src v = m₀.pte src v := by rw [Mem.pte, hw.other src hsd]; rfl
              obtain ⟨hw'', hu'', hb⟩ := hb q w'' u'' hsd (hsame.trans hq)
              exact ⟨hw'', hu'', hb.trans (htk q (ho.not_free hq)).2⟩
    · rename_i hge
      cases h
      exact ⟨.refl ho, fun _ => ⟨fun _ h => ⟨h, rfl⟩, fun v h₁ _ h₃ =>
        absurd (Nat.lt_of_le_of_lt (Nat.mul_le_mul_right PGSIZE h₁) h₃) hge⟩⟩

/-- `copyuvm` makes a directory with every page below `sz`, or gives back all it took. -/
theorem copyuvm_spec {src : Page} {o : Option Page} (ho : Own m S)
    (h : copyuvm m src sz = .ok (o, m')) :
    (∃ d, o = some d ∧ Building S d m m' ∧ (∀ v, v * PGSIZE < sz →
      ∃ p w u, m'.pte d v = some (.user p w u) ∧ p ∈ m.freelist ∧ ∀ q w' u',
        m.pte src v = some (.user q w' u') → w = w' ∧ u = u' ∧ m'.data p = m.data q) ∧
      Bare m' d sz) ∨ o = none ∧ Unbuilt S m m' := by
  rw [copyuvm] at h
  obtain ⟨⟨o₁, m₁⟩, h₁, h⟩ := bind_ok.mp h
  obtain ⟨_, _, hs, hspec⟩ := setupkvm_spec ho
  cases hs.symm.trans h₁
  rcases hspec with ⟨d, rfl, hb, hbare, hkern, htk⟩ | ⟨rfl, hu⟩
  · obtain ⟨⟨ok, m₂⟩, h₂, h⟩ := bind_ok.mp h
    obtain ⟨hw, hpages⟩ := copyLoop_works hb.own hkern (Nat.zero_le _) h₂
    have hb₂ := hb.works hw fun v hv => hv.2.2
    cases ok with
    | true =>
      cases h
      refine .inl ⟨d, rfl, hb₂, fun v hv => ?_, fun v hv hk => ?_⟩
      · obtain ⟨p, w, u, hp, hf, hb'⟩ := (hpages rfl).2 v (Nat.zero_le v)
          (by rw [Nat.zero_add]; exact lt_pageUp.mpr hv) hv
        refine ⟨p, w, u, hp, by_contra fun hn => (htk p hn).1 hf, fun q w' u' hq => ?_⟩
        have hsd : src ≠ d := by
          rintro rfl
          rw [Mem.pte, (ho.fresh hb.fresh).1] at hq
          cases hq
        have hsame : m₁.pte src v = m.pte src v := by rw [Mem.pte, hb.other src hsd]; rfl
        obtain ⟨hw', hu', hb'⟩ := hb' q w' u' hsd (hsame.trans hq)
        exact ⟨hw', hu', hb'.trans (htk q (ho.not_free hq)).2⟩
      · rw [hw.agree v fun h => by omega]
        exact hbare v (Nat.zero_le _) hk
    | false =>
      obtain ⟨m₃, h₃, h⟩ := bind_ok.mp h
      cases h
      exact .inr ⟨rfl, hb₂.freevm ho h₃⟩
  · cases h
    exact .inr ⟨rfl, hu⟩

/-! ### Writing to pages -/

/-- Only the contents of pages differ. -/
structure Writes (m m' : Mem) : Prop where
  freelist : m'.freelist = m.freelist
  dirs : m'.dirs = m.dirs
  history : m'.history = m.history

theorem Writes.refl (m : Mem) : Writes m m := ⟨rfl, rfl, rfl⟩

theorem Writes.trans (h : Writes m m₁) (h' : Writes m₁ m') : Writes m m' :=
  ⟨h'.freelist.trans h.freelist, h'.dirs.trans h.dirs, h'.history.trans h.history⟩

theorem Writes.works (h : Writes m m') (ho : Own m S) : Works S S d T m m' :=
  .same (ho.congr h.freelist h.dirs) (.same h.freelist h.dirs) h.dirs h.history

theorem Grows.full (h : Grows S d m m') (hf : Full m d sz) : Full m' d sz :=
  fun v hv => h.mapped v (hf v hv)

theorem Writes.full (h : Writes m m') (hf : Full m d sz) : Full m' d sz := by
  intro v hv
  obtain ⟨D, p, w, u, hD, hp⟩ := hf v hv
  exact ⟨D, p, w, u, by rw [h.dirs]; exact hD, hp⟩

theorem put_writes (m : Mem) (p : Page) (o : Nat) (l : List UInt8) : Writes m (m.put p o l) :=
  ⟨rfl, rfl, rfl⟩

/-- `clearpteu` takes `PTE_U` from a page that is there, and changes nothing else. -/
theorem clearpteu_spec (ho : Own m S) (hp : m.pte d vpn = some (.user p w u)) :
    ∃ m', clearpteu m d vpn = .ok m' ∧ Works S S d (· = vpn) m m' ∧
      m'.pte d vpn = some (.user p w false) ∧ m'.data = m.data := by
  obtain ⟨D, hD, hv⟩ := Option.bind_eq_some_iff.mp hp
  obtain ⟨T, hT, hv⟩ := Option.bind_eq_some_iff.mp hv
  have hset : clearpteu m d vpn = setPte m d vpn T (some (.user p w false)) := by
    simp only [clearpteu, walkpgdir, dir_ok.mpr hD, hT, hv, bind, Except.bind]
  rw [setPte, dir_ok.mpr hD] at hset
  refine ⟨_, hset, .setEntry (ho.setFlags hD hT hv) hD hT (fun h => by cases h) (fun q hq => .inl hq)
    fun q w' u' hq => ?_, ?_, rfl⟩
  · rw [hv] at hq
    cases hq
    exact .inr ⟨_, _, rfl⟩
  · rw [pte_of_dir (setDir_self ..), pte_setPte hT, if_pos rfl]

/-- The page of `inituvm` is lost where it cannot be mapped. -/
theorem inituvm_works {init : List UInt8} (ho : Own m S) (h : inituvm m d init = .ok m') :
    ∃ S', S ⊆ S' ∧ Works S S' d (· = 0) m m' := by
  rw [inituvm] at h
  split at h
  · cases h
  split at h
  · cases h
  rename_i p m₁ hk
  obtain ⟨⟨ok, m₂⟩, h₂, h⟩ := bind_ok.mp h
  cases h
  rcases mapFresh_works ho hk h₂ with ⟨-, rfl⟩ | ⟨-, hw, -⟩
  · obtain ⟨-, hw⟩ := kalloc_works _ ho hk
    exact ⟨_, Set.subset_insert p S, hw.trans ((put_writes _ p 0 init).works hw.own)⟩
  · exact ⟨S, subset_rfl, hw.trans ((put_writes m₂ p 0 init).works hw.own)⟩

end

end Xv6.Vm
