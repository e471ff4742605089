import Xv6.Vm.Extent

/-!
# Vm — user memory, byte by byte

What a directory shows at a user address (`Mem.byteAt`), and what a store of bytes does to it
(`Stored`): they are there, and nothing else has changed.  Since no page has two uses, a page is seen
at one address only, so that a store to a page is a store to one range of addresses.

A copy goes byte by byte through a translation of addresses (`Copied`), whether or not two of them
share their page.

* `loaduvm_spec`: `loaduvm` puts a part of a file at its address.
* `copyout_eq`: `copyout`, a page at a time, is the copy a byte at a time (`copyBytes`).
* `copyBytes_spec`: it stops at the first byte that has no user page, and reads an entry that does
  not exist where that byte has no page table (`Reaches`).

Addresses wrap around at `2 ^ 32`, as the sums of the source do.
-/

namespace Xv6.Vm

open Support (putBytes)

/-- The byte at a user address. -/
def Mem.byteAt (m : Mem) (d : Page) (va : Nat) : Option UInt8 :=
  match m.pte d (va / PGSIZE) with
  | some (.user p _ _) => some (m.data p (va % PGSIZE))
  | _ => none

/-- The bytes are stored from `va` on, and nothing else. -/
structure Stored (d : Page) (va : Nat) (bs : List UInt8) (m m' : Mem) : Prop where
  dirs : m'.dirs = m.dirs
  bytes : ∀ i (h : i < bs.length), m'.byteAt d ((va + i) % 2 ^ 32) = some bs[i]
  off : ∀ x, (∀ i < bs.length, x ≠ (va + i) % 2 ^ 32) → m'.byteAt d x = m.byteAt d x

/-- A page is seen at one place of the directory. -/
def Apart (m : Mem) (d : Page) : Prop :=
  ∀ v v' p w u w' u', m.pte d v = some (.user p w u) → m.pte d v' = some (.user p w' u') → v = v'

section

variable {m m₁ m' : Mem} {d p : Page} {va : Nat} {bs cs : List UInt8}

theorem Own.apart {S : Set Page} (ho : Own m S) (d : Page) : Apart m d := by
  obtain ⟨use, ht, -⟩ := ho
  intro v v' p w u w' u' hv hv'
  cases hD : m.dirs d with
  | none =>
    rw [Mem.pte, hD] at hv
    cases hv
  | some D =>
    rw [pte_of_dir hD] at hv hv'
    have h := (ht.frame d D v p w u hD hv).symm.trans (ht.frame d D v' p w' u' hD hv')
    cases h
    rfl

theorem Apart.congr (h : Apart m d) (hd : m'.dirs = m.dirs) : Apart m' d := by
  intro v v' p w u w' u' hv hv'
  rw [Mem.pte, hd] at hv hv'
  exact h v v' p w u w' u' hv hv'

/-- A page is written from its first byte on. -/
theorem put_byteAt {v : Nat} {w u : Bool} (ha : Apart m d) (hp : m.pte d v = some (.user p w u))
    (hlen : bs.length ≤ PGSIZE) (x : Nat) : (m.put p 0 bs).byteAt d x =
      if v * PGSIZE ≤ x ∧ x < v * PGSIZE + bs.length then some (bs.getD (x - v * PGSIZE) 0)
      else m.byteAt d x := by
  have hpte (v : Nat) : (m.put p 0 bs).pte d v = m.pte d v := rfl
  have hdiv := Nat.div_add_mod' x PGSIZE
  have hmod : x % PGSIZE < PGSIZE := Nat.mod_lt _ (by decide)
  rw [Mem.byteAt, Mem.byteAt, hpte]
  by_cases hv : x / PGSIZE = v
  · subst hv
    have hoff : x - x / PGSIZE * PGSIZE = x % PGSIZE := by omega
    simp only [hp, Mem.put, Function.update_self, putBytes, hoff]
    split
    · rw [if_pos (by omega)]
      rfl
    · rw [if_neg (by omega)]
  · have hout : ¬ (v * PGSIZE ≤ x ∧ x < v * PGSIZE + bs.length) := by
      rintro ⟨h₁, h₂⟩
      exact hv (Nat.div_eq_of_lt_le h₁ (by rw [Nat.succ_mul]; omega))
    rw [if_neg hout]
    split
    · rename_i q w' u' hq
      rw [Mem.put]
      dsimp only
      rw [Function.update_of_ne]
      rintro rfl
      exact hv (ha _ _ _ _ _ _ _ hq hp)
    · rfl

/-! ### `loaduvm` -/

theorem readi_bytes {f : File} {o len : Nat} (h : f.readi o len = some bs) (hlen : bs.length = len) :
    o + len < 2 ^ 32 ∧ ∀ j < len, bs.getD j 0 = f.data (o + j) := by
  rw [File.readi] at h
  split at h
  · cases h
  cases h
  rw [List.length_map, List.length_range] at hlen
  refine ⟨by omega, fun j hj => ?_⟩
  rw [List.getD_eq_getElem _ _ (by rw [List.length_map, List.length_range]; omega), List.getElem_map,
    List.getElem_range]

/-- **`loaduvm`** puts a part of the file at its address, where the pages are mapped. -/
theorem loaduvm_spec {addr : Nat} (f : File) (off sz : Nat) (ha : Apart m d)
    (haddr : addr % PGSIZE = 0) (hf : ∀ v, v * PGSIZE < addr + sz → Mapped m d v) :
    ∃ ok m', loaduvm m d addr f off sz = .ok (ok, m') ∧ Writes m m' ∧ (ok = true → ∀ x,
      m'.byteAt d x = if addr ≤ x ∧ x < addr + sz then some (f.data ((off + (x - addr)) % 2 ^ 32))
        else m.byteAt d x) := by
  -- by induction on the pages that are left, from the offset `k * PGSIZE` on
  have hloop {n k : Nat} {m : Mem} (ha : Apart m d) (hf : ∀ v, v * PGSIZE < addr + sz → Mapped m d v)
      (hn : pageUp sz = n + k) : ∃ ok m', loadLoop d addr f off sz n (k * PGSIZE) m = .ok (ok, m') ∧
      Writes m m' ∧ (ok = true → ∀ x, m'.byteAt d x = if addr + k * PGSIZE ≤ x ∧ x < addr + sz then
        some (f.data ((off + (x - addr)) % 2 ^ 32)) else m.byteAt d x) := by
    induction n generalizing k m with
    | zero =>
      have hle : sz ≤ k * PGSIZE := pageUp_le.mp (by omega)
      exact ⟨true, m, rfl, .refl m, fun _ x => by rw [if_neg (by omega)]⟩
    | succ n ih =>
      have hlt : k * PGSIZE < sz := lt_pageUp.mp (by omega)
      have hv : (addr + k * PGSIZE) / PGSIZE * PGSIZE = addr + k * PGSIZE :=
        Nat.div_mul_cancel (Nat.dvd_of_mod_eq_zero (by rw [Nat.add_mul_mod_self_right, haddr]))
      obtain ⟨D, p, w, u, hD, hp⟩ := hf ((addr + k * PGSIZE) / PGSIZE)
        (by rw [hv]; exact Nat.add_lt_add_left hlt addr)
      obtain ⟨T, hT, hT'⟩ := Option.bind_eq_some_iff.mp hp
      rw [loadLoop, if_pos hlt]
      simp only [walkpgdir, dir_ok.mpr hD, hT, hT', bind, Except.bind]
      split
      · exact ⟨false, m, rfl, .refl m, fun h => by cases h⟩
      rename_i buf hbuf
      split
      · rename_i hlen
        obtain ⟨ho, hget⟩ := readi_bytes hbuf hlen
        have hw := put_writes m p 0 buf
        obtain ⟨ok, m', h', hw', hbytes⟩ := ih (k := k + 1) (m := m.put p 0 buf) (ha.congr rfl)
          (fun v hv => hf v hv) (by omega)
        rw [Nat.succ_mul] at h' hbytes
        refine ⟨ok, m', h', hw.trans hw', fun hok x => ?_⟩
        rw [hbytes hok x, put_byteAt ha (p := p) ((pte_of_dir hD _).trans hp)
          (by rw [hlen]; exact Nat.min_le_right ..), hv, hlen]
        by_cases hx : addr + k * PGSIZE ≤ x ∧ x < addr + sz
        · rw [if_pos hx]
          split
          · rfl
          · rw [if_pos (by omega), hget _ (by omega)]
            congr 2
            omega
        · rw [if_neg hx, if_neg fun h => hx ⟨by omega, h.2⟩, if_neg fun h => hx ⟨h.1, by omega⟩]
      · exact ⟨false, _, rfl, put_writes m p 0 buf, fun h => by cases h⟩
  rw [loaduvm, if_neg (not_not.mpr haddr)]
  simpa only [Nat.zero_mul, Nat.add_zero] using hloop ha hf (Nat.add_zero _).symm

/-! ### Copies through a translation -/

/-- The page and the offset byte `i` of a copy to `va` goes to. -/
def place (tr : Nat → Option Page) (va i : Nat) : Option (Page × Nat) :=
  (tr ((va + i) % 2 ^ 32)).map fun p => (p, (va + i) % PGSIZE)

/-- The first `n` bytes have gone to their places, of two with one place the later one, and no
other byte has changed. -/
structure Copied (tr : Nat → Option Page) (va : Nat) (bs : List UInt8) (n : Nat) (m m' : Mem) :
    Prop where
  writes : Writes m m'
  there : ∀ i < n, place tr va i ≠ none
  last : ∀ i < n, ∀ q o, place tr va i = some (q, o) →
    (∀ j < n, i < j → place tr va j ≠ some (q, o)) → m'.data q o = bs.getD i 0
  other : ∀ q o, (∀ i < n, place tr va i ≠ some (q, o)) → m'.data q o = m.data q o

variable {tr : Nat → Option Page} {b : UInt8} {n : Nat}

theorem place_zero (hva : va < 2 ^ 32) : place tr va 0 = (tr va).map (·, va % PGSIZE) := by
  rw [place, Nat.add_zero, Nat.mod_eq_of_lt hva]

theorem place_next (va i : Nat) : place tr ((va + 1) % 2 ^ 32) i = place tr va (i + 1) := by
  have h₁ : ((va + 1) % 2 ^ 32 + i) % 2 ^ 32 = (va + (i + 1)) % 2 ^ 32 := by omega
  have h₂ : ((va + 1) % 2 ^ 32 + i) % PGSIZE = (va + (i + 1)) % PGSIZE := by
    unfold PGSIZE
    omega
  rw [place, place, h₁, h₂]

theorem put_data (m : Mem) (p q : Page) (o x : Nat) (b : UInt8) :
    (m.put p o [b]).data q x = if (p, o) = (q, x) then b else m.data q x := by
  simp only [Mem.put, Prod.mk.injEq]
  by_cases hq : q = p
  · subst hq
    rw [Function.update_self, putBytes, List.length_singleton]
    by_cases hx : o = x
    · subst hx
      simp
    · rw [if_neg (by omega), if_neg fun h => hx h.2]
  · rw [Function.update_of_ne hq, if_neg fun h => hq h.1.symm]

namespace Copied

theorem zero (tr : Nat → Option Page) (va : Nat) (bs : List UInt8) (m : Mem) :
    Copied tr va bs 0 m m :=
  ⟨.refl m, nofun, nofun, fun _ _ _ => rfl⟩

/-- One byte, and then the others. -/
theorem cons (hva : va < 2 ^ 32) (hp : tr va = some p)
    (h : Copied tr ((va + 1) % 2 ^ 32) bs n (m.put p (va % PGSIZE) [b]) m') :
    Copied tr va (b :: bs) (n + 1) m m' := by
  obtain ⟨hw, hthere, hlast, hother⟩ := h
  simp only [place_next] at hthere hlast hother
  have h₀ : place tr va 0 = some (p, va % PGSIZE) := by rw [place_zero hva, hp]; rfl
  refine ⟨(put_writes m ..).trans hw, fun i hi => ?_, fun i hi q o hq hj => ?_, fun q o hq => ?_⟩
  · cases i with
    | zero => simp [h₀]
    | succ i => exact hthere i (by omega)
  · cases i with
    | zero =>
      rw [hother q o fun j hjn => hj (j + 1) (by omega) (Nat.succ_pos j), put_data]
      exact if_pos (Option.some.inj (h₀.symm.trans hq))
    | succ i => exact hlast i (by omega) q o hq fun j hjn hij => hj (j + 1) (by omega) (by omega)
  · rw [hother q o fun i hi => hq (i + 1) (by omega), put_data]
    exact if_neg fun e => hq 0 (Nat.succ_pos n) (h₀.trans (congrArg some e))

/-- Where no page is seen twice, a copy is a store. -/
theorem stored (h : Copied tr va bs bs.length m m') (ha : Apart m d) (hlen : bs.length ≤ 2 ^ 32)
    (ht : ∀ x q, tr x = some q → ∃ w u, m.pte d (x / PGSIZE) = some (.user q w u)) :
    Stored d va bs m m' := by
  have hplace {i : Nat} {q : Page} {o : Nat} (hq : place tr va i = some (q, o)) :
      (∃ w u, m.pte d ((va + i) % 2 ^ 32 / PGSIZE) = some (.user q w u)) ∧
        (va + i) % 2 ^ 32 % PGSIZE = o := by
    obtain ⟨q, hp, ⟨⟩⟩ := Option.map_eq_some_iff.mp hq
    exact ⟨ht _ _ hp, by unfold PGSIZE; omega⟩
  -- an address is determined by the page and the offset
  have hsame {x y : Nat} {q : Page} (hx : ∃ w u, m.pte d (x / PGSIZE) = some (.user q w u))
      (hy : ∃ w u, m.pte d (y / PGSIZE) = some (.user q w u)) (ho : x % PGSIZE = y % PGSIZE) :
      x = y := by
    obtain ⟨w, u, hx⟩ := hx
    obtain ⟨w', u', hy⟩ := hy
    rw [← Nat.div_add_mod x PGSIZE, ← Nat.div_add_mod y PGSIZE, ho, ha _ _ _ _ _ _ _ hx hy]
  have hbyte (x : Nat) : m'.byteAt d x = match m.pte d (x / PGSIZE) with
      | some (.user q _ _) => some (m'.data q (x % PGSIZE))
      | _ => none := by
    rw [Mem.byteAt, Mem.pte, h.writes.dirs]
    rfl
  refine ⟨h.writes.dirs, fun i hi => ?_, fun x hx => ?_⟩
  · obtain ⟨⟨q, o⟩, hq⟩ := Option.ne_none_iff_exists'.mp (h.there i hi)
    obtain ⟨⟨w, u, hpte⟩, ho⟩ := hplace hq
    rw [hbyte, hpte, ho]
    dsimp only
    rw [h.last i hi q o hq fun j hj hij hqj => ?_, List.getD_eq_getElem _ _ hi]
    have := hsame ⟨w, u, hpte⟩ (hplace hqj).1 (ho.trans (hplace hqj).2.symm)
    omega
  · rw [hbyte, Mem.byteAt]
    split
    · rename_i q w u hpte
      rw [h.other q _ fun i hi hq => ?_]
      exact hx i hi (hsame ⟨w, u, hpte⟩ (hplace hq).1 (hplace hq).2.symm)
    · rfl

end Copied

/-! ### `copyout` -/

/-- The page of a user address, as `uva2ka` finds it. -/
def Mem.userPage (m : Mem) (d : Page) (va : Nat) : Option Page :=
  match m.pte d (va / PGSIZE) with
  | some (.user p _ true) => some p
  | _ => none

/-- The address has a page-table entry. -/
def HasTable (m : Mem) (d : Page) (va : Nat) : Prop :=
  ∃ D, m.dirs d = some D ∧ D (va / PGSIZE / NPTENTRIES) ≠ none

/-- `copyout`, a byte at a time. -/
def copyBytes (d : Page) : Nat → List UInt8 → Mem → Except Stop (Bool × Mem)
  | _, [], m => .ok (true, m)
  | va, b :: bs, m => do
    match ← uva2ka m d (va / PGSIZE) with
    | none => .ok (false, m)
    | some p => copyBytes d ((va + 1) % 2 ^ 32) bs (m.put p (va % PGSIZE) [b])

/-- Every byte up to the first one without a user page has a page-table entry. -/
def Reaches (m : Mem) (d : Page) (va len : Nat) : Prop :=
  ∀ i < len, (∀ j < i, place (m.userPage d) va j ≠ none) → HasTable m d ((va + i) % 2 ^ 32)

theorem userPage_congr (h : m'.dirs = m.dirs) : m'.userPage d = m.userPage d := by
  funext x
  rw [Mem.userPage, Mem.pte, h]
  rfl

theorem userPage_pte {x : Nat} (h : m.userPage d x = some p) :
    ∃ w u, m.pte d (x / PGSIZE) = some (.user p w u) := by
  rw [Mem.userPage] at h
  split at h
  · rename_i w hp
    cases h
    exact ⟨w, true, hp⟩
  · cases h

theorem uva2ka_congr (hd : m'.dirs d = m.dirs d) (v : Nat) : uva2ka m' d v = uva2ka m d v := by
  simp only [uva2ka, walkpgdir, Mem.dir, hd, bind, Except.bind]
  cases m.dirs d with
  | none => rfl
  | some D =>
    simp only
    cases D (v / NPTENTRIES) with
    | none => rfl
    | some T => rfl

theorem uva2ka_table (h : HasTable m d va) : uva2ka m d (va / PGSIZE) = .ok (m.userPage d va) := by
  obtain ⟨D, hD, hT⟩ := h
  obtain ⟨T, hT⟩ := Option.ne_none_iff_exists'.mp hT
  simp only [uva2ka, walkpgdir, Mem.dir, hD, hT, bind, Except.bind, Mem.userPage, pte_of_dir hD,
    pte_of_table hT]
  rcases T.pte (va / PGSIZE % NPTENTRIES) with _ | _ | ⟨p, w, _ | _⟩ <;> rfl

theorem uva2ka_fault (h : ¬ HasTable m d va) : uva2ka m d (va / PGSIZE) = .error .fault := by
  rw [uva2ka, walkpgdir, Mem.dir]
  cases hD : m.dirs d with
  | none => rfl
  | some D =>
    have hT : D (va / PGSIZE / NPTENTRIES) = none := by
      by_contra hT
      exact h ⟨D, hD, hT⟩
    simp only [bind, Except.bind, hT]
    rfl

theorem reaches_cons (hva : va < 2 ^ 32) : Reaches m d va (n + 1) ↔
    HasTable m d va ∧ (m.userPage d va ≠ none → Reaches m d ((va + 1) % 2 ^ 32) n) := by
  have hnext (i : Nat) : ((va + 1) % 2 ^ 32 + i) % 2 ^ 32 = (va + (i + 1)) % 2 ^ 32 := by omega
  have h₀ : place (m.userPage d) va 0 ≠ none ↔ m.userPage d va ≠ none := by
    rw [place_zero hva, ne_eq, Option.map_eq_none_iff]
  simp only [Reaches, place_next, hnext]
  constructor
  · intro h
    refine ⟨?_, fun hu i hi hj => h (i + 1) (by omega) fun j hji => ?_⟩
    · have hfirst := h 0 (Nat.succ_pos n) nofun
      rwa [Nat.add_zero, Nat.mod_eq_of_lt hva] at hfirst
    · cases j with
      | zero => exact h₀.mpr hu
      | succ j => exact hj j (by omega)
  · rintro ⟨hT, hu⟩ i hi hj
    cases i with
    | zero => rwa [Nat.add_zero, Nat.mod_eq_of_lt hva]
    | succ i =>
      exact hu (h₀.mp (hj 0 (Nat.succ_pos i))) i (by omega) fun j hji => hj (j + 1) (by omega)

/-- **What the copy does.**  By induction on the bytes: the first of them faults, ends the copy, or
is copied. -/
theorem copyBytes_spec (m : Mem) (d : Page) (bs : List UInt8) (hva : va < 2 ^ 32) :
    (¬ Reaches m d va bs.length → copyBytes d va bs m = .error .fault) ∧
    (Reaches m d va bs.length → ∃ n m', n ≤ bs.length ∧ Copied (m.userPage d) va bs n m m' ∧
      (n < bs.length → place (m.userPage d) va n = none) ∧
      copyBytes d va bs m = .ok (decide (n = bs.length), m')) := by
  induction bs generalizing va m with
  | nil => exact ⟨fun h => absurd nofun h, fun _ => ⟨0, m, Nat.le_refl _, .zero .., nofun, rfl⟩⟩
  | cons b bs ih =>
    rw [List.length_cons, reaches_cons hva, copyBytes]
    by_cases hT : HasTable m d va
    · rw [uva2ka_table hT]
      cases hu : m.userPage d va with
      | none =>
        refine ⟨fun h => absurd ⟨hT, fun h => absurd rfl h⟩ h, fun _ => ?_⟩
        refine ⟨0, m, Nat.zero_le _, .zero .., fun _ => ?_, rfl⟩
        rw [place_zero hva, hu]
        rfl
      | some p =>
        have hm₁ : (m.put p (va % PGSIZE) [b]).userPage d = m.userPage d := userPage_congr rfl
        have hR : Reaches (m.put p (va % PGSIZE) [b]) d ((va + 1) % 2 ^ 32) bs.length ↔
            Reaches m d ((va + 1) % 2 ^ 32) bs.length := by
          rw [Reaches, hm₁]
          rfl
        obtain ⟨hbad, hgood⟩ := ih (m.put p (va % PGSIZE) [b]) (Nat.mod_lt (va + 1) (by decide))
        rw [hR] at hbad hgood
        refine ⟨fun h => hbad fun hr => h ⟨hT, fun _ => hr⟩, fun h => ?_⟩
        obtain ⟨n, m', hn, hc, hnone, he⟩ := hgood (h.2 (Option.some_ne_none p))
        rw [hm₁] at hc hnone
        refine ⟨n + 1, m', Nat.succ_le_succ hn, hc.cons hva hu, fun hlt => ?_, ?_⟩
        · rw [← place_next]
          exact hnone (Nat.lt_of_succ_lt_succ hlt)
        · simp only [Nat.add_right_cancel_iff]
          exact he
    · rw [uva2ka_fault hT]
      exact ⟨fun _ => rfl, fun h => absurd h.1 hT⟩

/-- A page's worth of bytes at once. -/
theorem copyBytes_page {cs : List UInt8} (hva : va < 2 ^ 32)
    (hu : uva2ka m d (va / PGSIZE) = .ok (some p)) (hlen : va % PGSIZE + cs.length ≤ PGSIZE) :
    copyBytes d va (cs ++ bs) m =
      copyBytes d ((va + cs.length) % 2 ^ 32) bs (m.put p (va % PGSIZE) cs) := by
  induction cs using List.reverseRecOn generalizing bs with
  | nil =>
    rw [Mem.put, Support.putBytes_nil, Function.update_eq_self, List.length_nil, Nat.add_zero,
      Nat.mod_eq_of_lt hva]
    rfl
  | append_singleton cs c ih =>
    rw [List.length_append, List.length_singleton] at hlen
    have hdiv : (va + cs.length) % 2 ^ 32 / PGSIZE = va / PGSIZE ∧
        (va + cs.length) % 2 ^ 32 % PGSIZE = va % PGSIZE + cs.length ∧
        ((va + cs.length) % 2 ^ 32 + 1) % 2 ^ 32 = (va + (cs ++ [c]).length) % 2 ^ 32 := by
      rw [List.length_append, List.length_singleton]
      unfold PGSIZE at hlen ⊢
      omega
    have hdirs : (m.put p (va % PGSIZE) cs).dirs d = m.dirs d := rfl
    rw [List.append_assoc, ih (by omega), List.singleton_append, copyBytes, hdiv.1,
      uva2ka_congr hdirs, hu, hdiv.2.1]
    simp only [bind, Except.bind, hdiv.2.2]
    congr 1
    simp only [Mem.put, Function.update_self, Function.update_idem, Support.putBytes_append]

/-- **`copyout`** copies byte by byte. -/
theorem copyout_eq (hva : va < 2 ^ 32) : copyout m d va bs = copyBytes d va bs m := by
  have hloop {fuel : Nat} (hfuel : bs.length ≤ fuel) :
      copyoutLoop d fuel va bs m = copyBytes d va bs m := by
    induction fuel generalizing va bs m with
    | zero =>
      obtain rfl : bs = [] := List.length_eq_zero_iff.mp (by omega)
      rfl
    | succ fuel ih =>
      by_cases hbuf : bs = []
      · subst hbuf
        rfl
      have hpos := List.length_pos_iff.mpr hbuf
      have hmod : va % PGSIZE < PGSIZE := Nat.mod_lt _ (by decide)
      rw [copyoutLoop.eq_3 _ _ _ _ _ hbuf]
      generalize hn : min (PGSIZE - va % PGSIZE) bs.length = n
      have htake : (bs.take n).length = n := by rw [List.length_take]; omega
      cases hu : uva2ka m d (va / PGSIZE) with
      | error e =>
        obtain ⟨b, bs, rfl⟩ := List.exists_cons_of_ne_nil hbuf
        rw [copyBytes, hu]
        rfl
      | ok o =>
        cases o with
        | none =>
          obtain ⟨b, bs, rfl⟩ := List.exists_cons_of_ne_nil hbuf
          rw [copyBytes, hu]
          rfl
        | some p =>
          conv_rhs => rw [← List.take_append_drop n bs]
          rw [copyBytes_page hva hu (by rw [htake]; omega), htake]
          refine (ih (Nat.mod_lt _ (by decide)) (by rw [List.length_drop]; omega)).trans ?_
          by_cases hall : n = bs.length
          · rw [List.drop_eq_nil_of_le hall.ge]
            rfl
          · -- the next page begins where this one ends
            have hnext : (va / PGSIZE + 1) * PGSIZE = va + n := by unfold PGSIZE at hn ⊢; omega
            rw [hnext]
  exact hloop (Nat.le_refl _)

/-- What `copyout` has done where it returns. -/
theorem copyout_copied {ok : Bool} (hva : va < 2 ^ 32) (h : copyout m d va bs = .ok (ok, m')) :
    ∃ n ≤ bs.length, Copied (m.userPage d) va bs n m m' ∧ (ok = true ↔ n = bs.length) ∧
      (n < bs.length → place (m.userPage d) va n = none) := by
  rw [copyout_eq hva] at h
  obtain ⟨hbad, hgood⟩ := copyBytes_spec m d bs hva
  by_cases hr : Reaches m d va bs.length
  · obtain ⟨n, m₁, hn, hc, hnone, he⟩ := hgood hr
    rw [he] at h
    cases h
    exact ⟨n, hn, hc, decide_eq_true_iff, hnone⟩
  · rw [hbad hr] at h
    cases h

theorem copyout_writes {ok : Bool} (hva : va < 2 ^ 32) (h : copyout m d va bs = .ok (ok, m')) :
    Writes m m' := by
  obtain ⟨n, -, hc, -⟩ := copyout_copied hva h
  exact hc.writes

/-- **`copyout` is a store**, where it returns 0. -/
theorem copyout_stored (ha : Apart m d) (hva : va < 2 ^ 32) (hlen : bs.length ≤ 2 ^ 32)
    (h : copyout m d va bs = .ok (true, m')) : Stored d va bs m m' := by
  obtain ⟨n, -, hc, hok, -⟩ := copyout_copied hva h
  rw [hok.mp rfl] at hc
  exact hc.stored ha hlen fun _ _ => userPage_pte

end

end Xv6.Vm
