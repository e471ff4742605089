import Xv6.Fs.Single

/-!
# Fs — the path to a file block

A file block has one path: the entry of `addrs` of its region, and below it the digits to base 128
of its number in the region (`IsPath`).  `bmap` computes these digits in every region but the last,
where it takes `bn & (NINDIRECT*NINDIRECT)` for `bn % (NINDIRECT*NINDIRECT)`: there the path is right
for every 32768th block only (`follows_iff`).

* `bmap_distinct`: two file blocks get two disk blocks, each reached along its path, exactly when
  the code computes both paths.
* `bmap_collides`: two file blocks with one disk block, and an index beyond the block.
-/

namespace Xv6.Fs

open Support.Forest (Valid)

/-- The first file block of the region of entry `r`. -/
def regionStart (r : Fin (NDIRECT + 3)) : Nat :=
  match rootDepth r with
  | 0 => r
  | 1 => NDIRECT
  | 2 => NDIRECT + NINDIRECT
  | _ => DOUBLE

/-- **The path to file block `bn`**: an entry of `addrs`, and as many digits as the entry has levels
below it. -/
structure IsPath (bn : Nat) (r : Fin (NDIRECT + 3)) (xs : List Nat) : Prop where
  length : xs.length = rootDepth r
  digits : ∀ x ∈ xs, x < NINDIRECT
  number : regionStart r + Nat.ofDigits NINDIRECT xs.reverse = bn

/-- The path `bmap` computes is the path to the block. -/
def Follows (bn : Nat) : Prop := ∀ r xs, bmapPath bn = some (r, xs) ↔ IsPath bn r xs

/-- The block lies below the triple region, or is every 32768th block of it. -/
def Straight (bn : Nat) : Prop := bn < DOUBLE ∨ (bn - DOUBLE) % (2 * (NINDIRECT * NINDIRECT)) = 0

section

variable {sb : Superblock} {fs fs₁ fs' : Volume} {i bn : Nat}

/-- The four regions. -/
theorem region_cases (r : Fin (NDIRECT + 3)) :
    (rootDepth r = 0 ∧ regionStart r = r.val ∧ r.val < 10) ∨
    (rootDepth r = 1 ∧ regionStart r = 10 ∧ r.val = 10) ∨
    (rootDepth r = 2 ∧ regionStart r = 138 ∧ r.val = 11) ∨
    (rootDepth r = 3 ∧ regionStart r = 16522 ∧ r.val = 12) := by
  revert r
  decide

variable {xs : List Nat} {r : Fin (NDIRECT + 3)}

/-- A block with a path into a region lies in the region. -/
theorem IsPath.bounds (h : IsPath bn r xs) :
    regionStart r ≤ bn ∧ bn < regionStart r + NINDIRECT ^ rootDepth r := by
  have hlt := Nat.ofDigits_lt_base_pow_length (b := NINDIRECT) (l := xs.reverse) (by decide)
    fun x hx => h.digits x (List.mem_reverse.mp hx)
  rw [List.length_reverse, h.length] at hlt
  have := h.number
  omega

/-- There is one path to a block. -/
theorem IsPath.unique {r' : Fin (NDIRECT + 3)} {xs' : List Nat} (h : IsPath bn r xs)
    (h' : IsPath bn r' xs') : r = r' ∧ xs = xs' := by
  have hr : r = r' := by
    obtain ⟨hb, hb'⟩ := h.bounds
    obtain ⟨hc, hc'⟩ := h'.bounds
    refine Fin.ext ?_
    rcases region_cases r with ⟨hd, hs, hv⟩ | ⟨hd, hs, hv⟩ | ⟨hd, hs, hv⟩ | ⟨hd, hs, hv⟩ <;>
      rcases region_cases r' with ⟨he, ht, hw⟩ | ⟨he, ht, hw⟩ | ⟨he, ht, hw⟩ | ⟨he, ht, hw⟩ <;>
      rw [hd, hs] at hb' <;> rw [he, ht] at hc' <;> norm_num [NINDIRECT, BSIZE] at hb' hc' <;> omega
  subst hr
  have hnum : Nat.ofDigits NINDIRECT xs.reverse = Nat.ofDigits NINDIRECT xs'.reverse :=
    Nat.add_left_cancel (h.number.trans h'.number.symm)
  have hlen : xs.reverse.length = xs'.reverse.length := by
    rw [List.length_reverse, List.length_reverse, h.length, h'.length]
  refine ⟨rfl, List.reverse_injective ?_⟩
  exact Nat.ofDigits_inj_of_len_eq (by decide) hlen
    (fun x hx => h.digits x (List.mem_reverse.mp hx))
    (fun x hx => h'.digits x (List.mem_reverse.mp hx)) hnum

/-- What `bmap` computes, region by region. -/
theorem bmapPath_cases (h : bmapPath bn = some (r, xs)) : (bn < 10 ∧ r.val = bn ∧ xs = []) ∨
    (10 ≤ bn ∧ bn < 138 ∧ r.val = 10 ∧ xs = [bn - 10]) ∨
    (138 ≤ bn ∧ bn < 16522 ∧ r.val = 11 ∧ xs = [(bn - 138) / 128, (bn - 138) % 128]) ∨
    (16522 ≤ bn ∧ bn < 2113674 ∧ r.val = 12 ∧ xs = [(bn - 16522) / 16384,
      ((bn - 16522) / 16384 % 2 * 16384) / 128, ((bn - 16522) / 16384 % 2 * 16384) % 128]) := by
  rw [bmapPath] at h
  split at h
  · rename_i h₁
    cases h
    exact .inl ⟨h₁, rfl, rfl⟩
  rename_i h₁
  change ¬ bn < 10 at h₁
  dsimp only at h
  split at h
  · rename_i h₂
    change bn - 10 < 128 at h₂
    cases h
    exact .inr (.inl ⟨by omega, by omega, rfl, rfl⟩)
  · rename_i h₂
    change ¬ bn - 10 < 128 at h₂
    split at h
    · rename_i h₃
      change bn - 10 - 128 < 16384 at h₃
      cases h
      have e : bn - 10 - 128 = bn - 138 := by omega
      refine .inr (.inr (.inl ⟨by omega, by omega, rfl, ?_⟩))
      rw [← e]
      rfl
    · rename_i h₃
      change ¬ bn - 10 - 128 < 16384 at h₃
      split at h
      · rename_i h₄
        change bn - 10 - 128 - 16384 < 2097152 at h₄
        cases h
        have e : bn - 10 - 128 - 16384 = bn - 16522 := by omega
        have hand : (bn - 16522) &&& 16384 = (bn - 16522) / 16384 % 2 * 16384 := by
          have hp := Nat.and_two_pow (bn - 16522) 14
          rw [Nat.toNat_testBit] at hp
          exact hp
        refine .inr (.inr (.inr ⟨by omega, by omega, rfl, ?_⟩))
        rw [← hand, ← e]
        rfl
      · cases h

theorem regionStart_eq (r : Fin (NDIRECT + 3)) : regionStart r =
    if r.val < 10 then r.val else if r.val = 10 then 10 else if r.val = 11 then 138 else 16522 := by
  revert r
  decide

theorem straight_iff : Straight bn ↔ bn < 16522 ∨ (bn - 16522) % 32768 = 0 := by
  rw [Straight, show DOUBLE = 16522 from rfl, show 2 * (NINDIRECT * NINDIRECT) = 32768 from rfl]

/-- In the last region the digits are right when the ones that are lost are 0. -/
theorem digits_iff {b : Nat} : (b / 16384 % 2 * 16384 / 128 < 128 ∧
    b / 16384 % 2 * 16384 % 128 + 128 * (b / 16384 % 2 * 16384 / 128 + 128 * (b / 16384)) = b) ↔
      b % 32768 = 0 := by
  omega

/-- **Where the path is right.** -/
theorem isPath_iff (hp : bmapPath bn = some (r, xs)) : IsPath bn r xs ↔ Straight bn := by
  have hlen := bmapPath_length hp
  have hstart := regionStart_eq r
  have hN : NINDIRECT = 128 := rfl
  rw [straight_iff]
  rcases bmapPath_cases hp with ⟨h₁, hr, rfl⟩ | ⟨h₁, h₂, hr, rfl⟩ | ⟨h₁, h₂, hr, rfl⟩ |
    ⟨h₁, h₂, hr, rfl⟩
  · refine iff_of_true ⟨hlen, by simp, ?_⟩ (.inl (by omega))
    rw [hstart, if_pos (by omega), List.reverse_nil, Nat.ofDigits_nil, hr, Nat.add_zero]
  · refine iff_of_true ⟨hlen, fun x hx => ?_, ?_⟩ (.inl (by omega))
    · rw [List.mem_singleton.mp hx, hN]
      omega
    · simp [hstart, hr]
      omega
  · refine iff_of_true ⟨hlen, fun x hx => ?_, ?_⟩ (.inl (by omega))
    · rw [hN]
      simp only [List.mem_cons, List.not_mem_nil, or_false] at hx
      omega
    · rw [hN, hstart, hr, if_neg (by omega), if_neg (by omega), if_pos rfl]
      simp only [List.reverse_cons, List.reverse_nil, List.nil_append, List.cons_append,
        Nat.ofDigits_cons, Nat.ofDigits_nil]
      omega
  · obtain ⟨b, rfl⟩ := Nat.exists_eq_add_of_le h₁
    have hlt : b / 16384 < 128 := by omega
    have hbelow : ¬ 16522 + b < 16522 := by omega
    have hstart : regionStart r = 16522 := by
      rw [hstart, hr]
      rfl
    rw [Nat.add_sub_cancel_left, or_iff_right hbelow, ← digits_iff]
    have hlow : b / 16384 % 2 * 16384 % 128 < 128 := Nat.mod_lt _ (by decide)
    constructor
    · rintro ⟨-, hx, hnum⟩
      rw [hN] at hnum
      rw [hstart] at hnum
      refine ⟨hx _ (List.mem_cons_of_mem _ List.mem_cons_self), ?_⟩
      simpa [Nat.ofDigits] using Nat.add_left_cancel hnum
    · rintro ⟨hmid, hnum⟩
      refine ⟨by simpa using hlen, fun x hx => ?_, ?_⟩
      · rw [hN]
        simp only [List.mem_cons, List.not_mem_nil, or_false] at hx
        rcases hx with rfl | rfl | rfl
        · exact hlt
        · exact hmid
        · exact hlow
      · rw [hN, hstart]
        refine congrArg (16522 + ·) ?_
        simpa [Nat.ofDigits] using hnum

theorem follows_iff (h : bn < MAXFILE) : Follows bn ↔ Straight bn := by
  obtain ⟨r, xs, hp⟩ := bmapPath_some h
  rw [← isPath_iff hp]
  constructor
  · intro hf
    exact (hf r xs).mp hp
  intro hpath r' xs'
  constructor
  · intro hp'
    cases hp.symm.trans hp'
    exact hpath
  · intro hpath'
    obtain ⟨rfl, rfl⟩ := hpath.unique hpath'
    exact hp

/-! ### Two blocks -/

theorem IsPath.valid (h : IsPath bn r xs) (i : Nat) :
    Valid shape ((i, r), xs.reverse) :=
  ⟨(List.length_reverse.trans h.length).le, fun x hx => h.digits x (List.mem_reverse.mp hx)⟩

theorem IsPath.card_upTo (h : IsPath bn r xs) (i : Nat) : (upTo ((i, r), xs.reverse)).card ≤ 4 := by
  have hd : rootDepth r ≤ 3 := by
    rcases region_cases r with ⟨h, -⟩ | ⟨h, -⟩ | ⟨h, -⟩ | ⟨h, -⟩ <;> omega
  refine (List.toFinset_card_le _).trans ?_
  rw [List.length_map, List.length_tails, List.length_reverse, h.length]
  omega

/-- With the other inodes aside, `bmap` does the same. -/
theorem bmap_of_beside {g : Nat → Inode} {a : Nat} {v : Volume}
    (h : bmap sb (fs.beside i g) i bn = .ok (a, v)) :
    ∃ fs', bmap sb fs i bn = .ok (a, fs') ∧ v = fs'.beside i g := by
  rw [bmap_blind (blind_beside i _)] at h
  cases hb : bmap sb fs i bn with
  | error e =>
    rw [hb] at h
    cases h
  | ok r =>
    rw [hb] at h
    cases h
    exact ⟨r.2, rfl, rfl⟩

/-- `bmap` along two paths, in a volume in which all blocks are owned. -/
theorem bmap_two {bn' : Nat} {q q' : Place} (ho : Owned sb fs) (hm : MetaUsed sb fs)
    (hv : (fs.inode i).valid = true) (hroom : 8 ≤ (fs.freeBlocks sb).length)
    (hq : placeOf i bn = some q) (hq' : placeOf i bn' = some q')
    (hval : Valid shape q) (hval' : Valid shape q') (hc : (upTo q).card ≤ 4)
    (hc' : (upTo q').card ≤ 4) (hne : q ≠ q') :
    ∃ fs₁ fs₂, bmap sb fs i bn = .ok (fs₂.forest.get q, fs₁) ∧
      bmap sb fs₁ i bn' = .ok (fs₂.forest.get q', fs₂) ∧ fs₂.forest.get q ≠ 0 ∧
      fs₂.forest.get q' ≠ 0 ∧ fs₂.forest.get q ≠ fs₂.forest.get q' ∧
      (fs₂.inode i).valid = true := by
  have hS : ∀ p ∈ upTo q ∪ upTo q', Valid shape p := by
    have hup {q p : Place} (hval : Valid shape q) (hp : p ∈ upTo q) : Valid shape p := by
      obtain ⟨hr, hs⟩ := mem_upTo.mp hp
      exact ⟨by rw [hr]; exact hs.length_le.trans hval.1, fun x hx => hval.2 x (hs.mem hx)⟩
    intro p hp
    exact (Finset.mem_union.mp hp).elim (hup hval) (hup hval')
  have hR : Room sb fs (upTo q ∪ upTo q') :=
    (Finset.card_filter_le ..).trans ((Finset.card_union_le ..).trans (by omega))
  obtain ⟨a, fs₁, h₁⟩ := bmap_returns hS hR ho hm hv hq fun p hp => Finset.mem_union_left _ hp
  obtain ⟨q₁, hq₁, -, -, rfl, ha, -, N, e, hN⟩ := bmap_spec ho hm hv h₁
  cases hq.symm.trans hq₁
  obtain ⟨ho₁, hm₁⟩ := e.owned ho hm
  have hv₁ : (fs₁.inode i).valid = true := (e.valid i).trans hv
  have hR₁ : Room sb fs₁ (upTo q ∪ upTo q') := hR.edits e ho hm hS fun p hp =>
    Finset.mem_union_left _ (mem_upTo.mpr (hN p hp))
  obtain ⟨a', fs₂, h₂⟩ := bmap_returns hS hR₁ ho₁ hm₁ hv₁ hq' fun p hp =>
    Finset.mem_union_right _ hp
  obtain ⟨q₂, hq₂, -, -, rfl, ha', hs, N', e', -⟩ := bmap_spec ho₁ hm₁ hv₁ h₂
  cases hq'.symm.trans hq₂
  obtain ⟨ho₂, -⟩ := e'.owned ho₁ hm₁
  have hstay := (hs q hval ha).1
  refine ⟨fs₁, fs₂, by rw [hstay]; exact h₁, h₂, by rw [hstay]; exact ha, ha', fun heq => ?_,
    (e'.valid i).trans hv₁⟩
  exact hne (ho₂.inj q q' hval hval' (by rw [hstay]; exact ha) heq)

/-- **`bmap` gives different blocks to different file blocks.**  For an inode whose tree is in order,
on a disk with eight free blocks (a call takes four at most): both calls return, the two blocks
differ, the same calls return the same blocks again, and both paths are the paths to the blocks,
exactly when each block lies below the triple region or is every 32768th block of it. -/
theorem bmap_distinct (h : TreeOwned sb fs i) (hm : MetaUsed sb fs)
    (hv : (fs.inode i).valid = true) (hroom : 8 ≤ (fs.freeBlocks sb).length) {bn₁ bn₂ : Nat}
    (h₁ : bn₁ < MAXFILE) (h₂ : bn₂ < MAXFILE) (hne : bn₁ ≠ bn₂) :
    (Follows bn₁ ∧ Follows bn₂ ∧ ∃ a₁ a₂ fs₁ fs₂, bmap sb fs i bn₁ = .ok (a₁, fs₁) ∧
      bmap sb fs₁ i bn₂ = .ok (a₂, fs₂) ∧ a₁ ≠ a₂ ∧ bmap sb fs₂ i bn₁ = .ok (a₁, fs₂) ∧
      bmap sb fs₂ i bn₂ = .ok (a₂, fs₂)) ↔ Straight bn₁ ∧ Straight bn₂ := by
  rw [follows_iff h₁, follows_iff h₂]
  refine ⟨fun hf => ⟨hf.1, hf.2.1⟩, fun ⟨hs₁, hs₂⟩ => ⟨hs₁, hs₂, ?_⟩⟩
  obtain ⟨r₁, xs₁, hp₁⟩ := bmapPath_some h₁
  obtain ⟨r₂, xs₂, hp₂⟩ := bmapPath_some h₂
  have hi₁ := (isPath_iff hp₁).mpr hs₁
  have hi₂ := (isPath_iff hp₂).mpr hs₂
  have hq₁ : placeOf i bn₁ = some ((i, r₁), xs₁.reverse) := by rw [placeOf, hp₁]; rfl
  have hq₂ : placeOf i bn₂ = some ((i, r₂), xs₂.reverse) := by rw [placeOf, hp₂]; rfl
  have hq : (((i, r₁), xs₁.reverse) : Place) ≠ ((i, r₂), xs₂.reverse) := by
    intro e
    have hr : r₁ = r₂ := congrArg (·.1.2) e
    have hx : xs₁.reverse = xs₂.reverse := congrArg (·.2) e
    exact hne (by rw [← hi₁.number, ← hi₂.number, hr, hx])
  have ho := h.spread
  generalize (fun j => oneBlock (spreadBlock sb fs i j)) = g at ho
  obtain ⟨v₁, v₂, hb₁, hb₂, hz₁, hz₂, hd, hv₂⟩ := bmap_two ho hm (by rw [beside_self, hv]) hroom
    hq₁ hq₂ (hi₁.valid i) (hi₂.valid i) (hi₁.card_upTo i) (hi₂.card_upTo i) hq
  obtain ⟨fs₁, hc₁, rfl⟩ := bmap_of_beside hb₁
  obtain ⟨fs₂, hc₂, rfl⟩ := bmap_of_beside hb₂
  rw [get_beside_self] at hc₁ hz₁ hd
  rw [get_beside_self] at hc₂ hz₂ hd
  rw [beside_self] at hv₂
  exact ⟨_, _, fs₁, fs₂, hc₁, hc₂, hd, bmap_filled hv₂ hq₁ (hi₁.valid i) hz₁,
    bmap_filled hv₂ hq₂ (hi₂.valid i) hz₂⟩

end

theorem room_emptyFile : 8 ≤ (emptyFile.freeBlocks mkfsSb).length := by
  have hfree : ∀ b ∈ List.range' 68 8, b ∈ emptyFile.freeBlocks mkfsSb := by
    intro b hb
    refine List.mem_filter.mpr ⟨List.mem_range.mpr ?_, ?_⟩
    · have := List.mem_range'_1.mp hb
      exact Nat.lt_trans this.2 (by decide)
    · revert b
      decide +kernel
  exact (List.subperm_of_subset List.nodup_range' hfree).length_le

/-- The first and the last block below the triple region, and a block of that region. -/
theorem bmap_distinct_edge :
    (∃ a₁ a₂ fs₁ fs₂, bmap mkfsSb emptyFile 1 0 = .ok (a₁, fs₁) ∧
      bmap mkfsSb fs₁ 1 16521 = .ok (a₂, fs₂) ∧ a₁ ≠ a₂) ∧
    ¬ (Follows 16521 ∧ Follows 16523) := by
  have hw := wellFormed_emptyFile
  have ht := hw.owned.tree 1
  constructor
  · obtain ⟨-, -, a₁, a₂, fs₁, fs₂, h₁, h₂, hne, -⟩ :=
      (bmap_distinct ht hw.metaUsed rfl room_emptyFile (show 0 < MAXFILE by decide)
        (show 16521 < MAXFILE by decide) (by decide)).mpr ⟨.inl (by decide), .inl (by decide)⟩
    exact ⟨a₁, a₂, fs₁, fs₂, h₁, h₂, hne⟩
  · rintro ⟨-, h⟩
    have := (follows_iff (by decide)).mp h
    rw [straight_iff] at this
    omega

/-- The first two blocks of the triple region of the empty file share a disk block; and the index
taken into the middle block for its block 16384 is 128, where a block has 128 entries. -/
theorem bmap_collides : TreeOwned mkfsSb emptyFile 1 ∧ MetaUsed mkfsSb emptyFile ∧
    8 ≤ (emptyFile.freeBlocks mkfsSb).length ∧
    (∃ a fs₁ fs₂, bmap mkfsSb emptyFile 1 16522 = .ok (a, fs₁) ∧
      bmap mkfsSb fs₁ 1 16523 = .ok (a, fs₂)) ∧
    bmapPath (16522 + 16384) = some (12, [1, NINDIRECT, 0]) := by
  have hw := wellFormed_emptyFile
  obtain ⟨r, h₁, fs₂, h₂, -⟩ : ∃ r, bmap mkfsSb emptyFile 1 16522 = .ok r ∧
      ∃ fs₂, bmap mkfsSb r.2 1 16523 = .ok (r.1, fs₂) ∧ True := by decide +kernel
  exact ⟨hw.owned.tree 1, hw.metaUsed, room_emptyFile, ⟨r.1, r.2, fs₂, h₁, h₂⟩, by decide +kernel⟩

end Xv6.Fs
