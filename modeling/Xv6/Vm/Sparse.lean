import Xv6.Vm.Own

/-!
# Sparse — page directories with holes (`deallocuvm`)

Where a page table is absent, the loop of `deallocuvm` sets the address to one page before the next
table and lets the step of the loop do the rest, in 32 bits.  `deallocRounds` has the addresses of
the source, and no result while the loop has not ended; `visit` looks at one page after the other.

* `deallocuvm_sparse`: **the loop ends, and does what a visit of every page does**; so does
  `deallocuvm` as it is modelled in pages.
-/

namespace Xv6.Vm

open Support (bind_ok)

def PDX (a : Nat) : Nat := a >>> 22 &&& 0x3FF

def PGADDR (d t o : Nat) : Nat := (d <<< 22 ||| t <<< 12 ||| o) % 2 ^ 32

/-- What is done at a page, and whether there is a page table for it. -/
def clearPage (m : Mem) (d : Page) (vpn : Nat) : Except Stop (Bool × Mem) := do
  match ← walkpgdir m d vpn false with
  | (none, m) => .ok (false, m)
  | (some T, m) =>
    match T.pte (vpn % NPTENTRIES) with
    | none => .ok (true, m)
    | some .kern => .error (.panic "kfree")
    | some (.user p _ _) => do
      let m ← kfree m p
      let m ← setPte m d vpn T none
      .ok (true, m)

/-- The loop of `deallocuvm` from the address `a` on; `none` where `n` rounds are not enough. -/
def deallocRounds (d : Page) (oldsz : Nat) : Nat → Nat → Mem → Option (Except Stop Mem)
  | 0, _, _ => none
  | n + 1, a, m =>
    if a < oldsz then
      match clearPage m d (a / PGSIZE) with
      | .error e => some (.error e)
      | .ok (present, m) =>
        let a := if present then a else (PGADDR (PDX a + 1) 0 0 + (2 ^ 32 - PGSIZE)) % 2 ^ 32
        deallocRounds d oldsz n ((a + PGSIZE) % 2 ^ 32) m
    else some (.ok m)

def PGROUNDUP (sz : Nat) : Nat := (sz + (PGSIZE - 1)) % 2 ^ 32 / PGSIZE * PGSIZE

/-- `deallocuvm`, in `n` rounds at most. -/
def deallocuvm32 (n : Nat) (m : Mem) (d : Page) (oldsz newsz : Nat) :
    Option (Except Stop (Nat × Mem)) :=
  if oldsz ≤ newsz then some (.ok (oldsz, m))
  else (deallocRounds d oldsz n (PGROUNDUP newsz) m).map (·.map (Prod.mk newsz))

/-- The pages from `v` to before `last`, one by one. -/
def visit (d : Page) (last v : Nat) (m : Mem) : Except Stop Mem :=
  (List.range' v (last - v)).foldlM (fun m vpn => (clearPage m d vpn).map Prod.snd) m

variable {m m' : Mem} {d : Page} {last oldsz n v : Nat}

theorem visit_end (h : last ≤ v) : visit d last v m = .ok m := by
  rw [visit, Nat.sub_eq_zero_of_le h]
  rfl

theorem visit_step (h : v < last) :
    visit d last v m = (clearPage m d v).map Prod.snd >>= visit d last (v + 1) := by
  have he : last - v = last - (v + 1) + 1 := by omega
  rw [visit, he, List.range'_succ, List.foldlM_cons]
  rfl

theorem walkpgdir_false {o : Option PageTab} (h : walkpgdir m d v false = .ok (o, m')) :
    m' = m ∧ ∃ D, m.dirs d = some D ∧ D (v / NPTENTRIES) = o := by
  rw [walkpgdir] at h
  obtain ⟨D, hD, h⟩ := bind_ok.mp h
  split at h
  · rename_i T hT
    cases h
    exact ⟨rfl, D, dir_ok.mp hD, hT⟩
  · rename_i hT
    cases h
    exact ⟨rfl, D, dir_ok.mp hD, hT⟩

/-- Where a page table is absent, it is for each page of the table, and nothing is done there. -/
theorem clearPage_absent (h : clearPage m d v = .ok (false, m')) :
    m' = m ∧ ∀ w, w / NPTENTRIES = v / NPTENTRIES → clearPage m d w = .ok (false, m) := by
  obtain ⟨⟨o, m₁⟩, h₁, h⟩ := bind_ok.mp h
  obtain ⟨rfl, D, hd, hT⟩ := walkpgdir_false h₁
  cases o with
  | none =>
    cases h
    refine ⟨rfl, fun w hw => ?_⟩
    rw [clearPage, walkpgdir, dir_ok.mpr hd]
    simp only [bind, Except.bind, hw, hT]
    rfl
  | some T =>
    dsimp only at h
    split at h
    · cases h
    · cases h
    · obtain ⟨m₁, -, h⟩ := bind_ok.mp h
      obtain ⟨m₂, -, h⟩ := bind_ok.mp h
      cases h

theorem visit_absent {w : Nat} (h : ∀ u, v ≤ u → u < w → clearPage m d u = .ok (false, m))
    (hw : v ≤ w) : visit d last v m = visit d last w m := by
  induction w, hw using Nat.le_induction with
  | base => rfl
  | succ w hw ih =>
    rw [ih fun u hv hu => h u hv (hu.trans (Nat.lt_succ_self w))]
    by_cases hl : w < last
    · rw [visit_step hl, h w hw (Nat.lt_succ_self w)]
      rfl
    · rw [visit_end (Nat.le_of_not_lt hl), visit_end (by omega)]

/-- The page that comes after `v`. -/
def next (present : Bool) (v : Nat) : Nat :=
  if present then v + 1 else (v / NPTENTRIES + 1) * NPTENTRIES

theorem lt_next {b : Bool} : v < next b v := by
  unfold next NPTENTRIES
  split <;> omega

theorem visit_next (h : v < last) :
    visit d last v m = clearPage m d v >>= fun r => visit d last (next r.1 v) r.2 := by
  rw [visit_step h]
  cases hc : clearPage m d v with
  | error e => rfl
  | ok r =>
    obtain ⟨_ | _, m'⟩ := r
    · obtain ⟨rfl, ha⟩ := clearPage_absent hc
      refine visit_absent (fun u hu hn => ha u ?_) lt_next
      simp only [next, NPTENTRIES] at hn ⊢
      simp at hn
      omega
    · rfl

theorem lt_pageUp {a : Nat} : v < pageUp a ↔ v * PGSIZE < a := by
  unfold pageUp PGSIZE
  omega

theorem deallocLoop_succ (h : v * PGSIZE < oldsz) : deallocLoop m d oldsz (n + 1) v =
    clearPage m d v >>= fun r => deallocLoop r.2 d oldsz n (next r.1 v) := by
  rw [deallocLoop, if_pos h, clearPage, bind_assoc]
  congr 1
  funext ⟨o, m₁⟩
  cases o with
  | none => rfl
  | some T =>
    simp only
    cases T.pte (v % NPTENTRIES) with
    | none => rfl
    | some e =>
      cases e with
      | kern => rfl
      | user p w u => simp only [bind_assoc]; rfl

theorem deallocLoop_eq (h : pageUp oldsz ≤ n + v) :
    deallocLoop m d oldsz n v = visit d (pageUp oldsz) v m := by
  induction n generalizing m v with
  | zero => exact (visit_end (by omega)).symm
  | succ n ih =>
    by_cases hv : v * PGSIZE < oldsz
    · rw [visit_next (lt_pageUp.mpr hv), deallocLoop_succ hv]
      congr 1
      funext r
      have := lt_next (b := r.1) (v := v)
      exact ih (by omega)
    · rw [deallocLoop, if_neg hv, visit_end (Nat.le_of_not_lt (lt_pageUp.not.mpr hv))]

theorem deallocuvm_eq {newsz : Nat} (h : newsz < oldsz) : deallocuvm m d oldsz newsz =
    (visit d (pageUp oldsz) (pageUp newsz) m).map (Prod.mk newsz) := by
  rw [deallocuvm, if_neg (Nat.not_le_of_lt h), deallocLoop_eq (Nat.le_add_right ..)]
  cases visit d (pageUp oldsz) (pageUp newsz) m <;> rfl

theorem next_address {b : Bool} (h : v * PGSIZE < KERNBASE) :
    ((if b then v * PGSIZE else (PGADDR (PDX (v * PGSIZE) + 1) 0 0 + (2 ^ 32 - PGSIZE)) % 2 ^ 32)
      + PGSIZE) % 2 ^ 32 = next b v * PGSIZE := by
  have hp : PDX (v * PGSIZE) = v / NPTENTRIES := by
    rw [PDX, Nat.shiftRight_eq_div_pow, Nat.and_two_pow_sub_one_eq_mod _ 10]
    unfold KERNBASE PGSIZE at h
    unfold PGSIZE NPTENTRIES
    omega
  unfold KERNBASE PGSIZE at h
  cases b with
  | true =>
    simp only [next, PGSIZE, if_true]
    omega
  | false =>
    simp only [hp, next, PGADDR, PGSIZE, NPTENTRIES, Nat.shiftLeft_eq, Nat.zero_mul, Nat.or_zero,
      Bool.false_eq_true, if_false]
    omega

theorem deallocRounds_eq (hk : oldsz ≤ KERNBASE) (h : pageUp oldsz ≤ n + v) :
    deallocRounds d oldsz (n + 1) (v * PGSIZE) m = some (visit d (pageUp oldsz) v m) := by
  induction n generalizing m v with
  | zero =>
    rw [visit_end (by omega), deallocRounds, if_neg (lt_pageUp.not.mp (by omega))]
  | succ n ih =>
    rw [deallocRounds]
    split
    · rename_i hv
      rw [visit_next (lt_pageUp.mpr hv), Nat.mul_div_cancel _ (by decide)]
      cases clearPage m d v with
      | error e => rfl
      | ok r =>
        have := lt_next (b := r.1) (v := v)
        simp only [next_address (hv.trans_le hk)]
        exact ih (by omega)
    · rename_i hv
      rw [visit_end (Nat.le_of_not_lt (lt_pageUp.not.mpr hv))]

/-- **`deallocuvm` ends, and does what a visit of every page does.** -/
theorem deallocuvm_sparse (m : Mem) (d : Page) (oldsz newsz : Nat) (h : newsz < oldsz)
    (hk : oldsz ≤ KERNBASE) :
    let visited := (visit d (pageUp oldsz) (pageUp newsz) m).map (Prod.mk newsz)
    (∃ n, deallocuvm32 n m d oldsz newsz = some visited) ∧ deallocuvm m d oldsz newsz = visited := by
  refine ⟨⟨pageUp oldsz + 1, ?_⟩, deallocuvm_eq h⟩
  have hup : PGROUNDUP newsz = pageUp newsz * PGSIZE := by
    unfold PGROUNDUP pageUp
    rw [Nat.mod_eq_of_lt (by unfold KERNBASE at hk; unfold PGSIZE; omega)]
  rw [deallocuvm32, if_neg (Nat.not_le_of_lt h), hup, deallocRounds_eq hk (Nat.le_add_right ..)]
  rfl

/-- A directory without page tables, from the first page to the kernel. -/
theorem deallocuvm_sparse_hole : let m : Mem := ⟨[], fun _ _ => 0, fun _ => some fun _ => none, []⟩
    ∃ n, deallocuvm32 n m 0 KERNBASE 0 = some (deallocuvm m 0 KERNBASE 0) := by
  intro m
  obtain ⟨⟨n, hn⟩, h⟩ := deallocuvm_sparse m 0 KERNBASE 0 (by decide) (by decide)
  exact ⟨n, hn.trans (congrArg some h.symm)⟩

end Xv6.Vm
