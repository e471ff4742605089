import Xv6.Fs.Refine

/-!
# Fs — one inode

What `bmap` and `itrunc` do to an inode does not depend on the other inodes, and neither reads
them.  So a fact about volumes in which every block is owned (`Owned`) holds of an inode whose own
tree is in order, whatever the other inodes are (`TreeOwned`): give every other block that is marked
used to a file of its own (`TreeOwned.spread`).

* `itrunc_frees`: **what `itrunc` frees**, of any tree of blocks marked used, each at one place.
-/

namespace Xv6.Fs

open Function (update_self update_of_ne)
open Support (getWord bind_ok except_map_bind except_bind_map)
open Support.Forest (Valid)

/-- **The tree of inode `i`**: every block in it is at one place, and is a data block marked used. -/
structure TreeOwned (sb : Superblock) (fs : Volume) (i : Nat) : Prop where
  inj : ∀ r r' p p', Valid shape ((i, r), p) → Valid shape ((i, r'), p') →
    fs.forest.get ((i, r), p) ≠ 0 → fs.forest.get ((i, r), p) = fs.forest.get ((i, r'), p') →
    r = r' ∧ p = p'
  data : ∀ r p, Valid shape ((i, r), p) → fs.forest.get ((i, r), p) ≠ 0 →
    sb.nmeta ≤ fs.forest.get ((i, r), p) ∧ fs.forest.get ((i, r), p) < sb.size ∧
      fs.used sb (fs.forest.get ((i, r), p)) = true

/-- The block is in the tree of inode `i`, as data or as an index block. -/
def Volume.InTree (fs : Volume) (i b : Nat) : Prop :=
  b ≠ 0 ∧ ∃ r p, Valid shape ((i, r), p) ∧ fs.forest.get ((i, r), p) = b

/-- The volume with other inodes beside inode `i`. -/
def Volume.beside (fs : Volume) (i : Nat) (g : Nat → Inode) : Volume :=
  { fs with
    inode := Function.update g i (fs.inode i)
    dinode := Function.update (fun j => (g j).toDinode) i (fs.dinode i) }

section

variable {sb : Superblock} {fs fs' : Volume} {i : Nat} {g : Nat → Inode}

theorem Owned.tree (h : Owned sb fs) (i : Nat) : TreeOwned sb fs i where
  inj r r' p p' hp hp' hne heq := by
    have e := h.inj _ _ hp hp' hne heq
    exact ⟨congrArg (·.1.2) e, congrArg (·.2) e⟩
  data r p hp hne := h.data _ hp hne

/-! ### What `bmap` does not see -/

/-- `T` changes a volume where `bmap` on inode `i` neither reads nor writes. -/
structure Blind (i : Nat) (T : Volume → Volume) : Prop where
  disk : ∀ fs, (T fs).disk = fs.disk
  addrs : ∀ fs, ((T fs).inode i).addrs = (fs.inode i).addrs
  write : ∀ fs b v, (T fs).write b v = T (fs.write b v)
  setAddr : ∀ fs r b, (T fs).setAddr i r b = T (fs.setAddr i r b)

/-- Change the volume of a result. -/
def onVolume {α : Type} (T : Volume → Volume) (p : α × Volume) : α × Volume := (p.1, T p.2)

variable {T : Volume → Volume}

theorem findFree_congr (h : fs'.disk = fs.disk) (n b : Nat) :
    findFree sb fs' n b = findFree sb fs n b := by
  induction n generalizing b with
  | zero => rfl
  | succ n ih =>
    have hused : fs'.used sb b = fs.used sb b := by rw [Volume.used, h]; rfl
    rw [findFree, findFree, ih, hused]

section

variable (hT : Blind i T)
include hT

theorem balloc_blind : balloc sb (T fs) = (balloc sb fs).map (onVolume T) := by
  rw [balloc, balloc, findFree_congr (hT.disk fs)]
  cases findFree sb fs sb.size 0 with
  | none => rfl
  | some b =>
    simp only [bzero, hT.write, hT.disk]
    rfl

theorem rootEntry_blind (r : Fin (NDIRECT + 3)) :
    rootEntry sb (T fs) i r = (rootEntry sb fs i r).map (onVolume T) := by
  rw [rootEntry, rootEntry, hT.addrs]
  split
  · rw [balloc_blind hT, except_bind_map, except_map_bind]
    refine congrArg _ (funext fun p => ?_)
    simp only [onVolume, hT.setAddr]
    rfl
  · rfl

theorem indexEntry_blind (a x : Nat) :
    indexEntry sb (T fs) a x = (indexEntry sb fs a x).map (onVolume T) := by
  rw [indexEntry, indexEntry, hT.disk]
  split
  · rfl
  split
  · rw [balloc_blind hT, except_bind_map, except_map_bind]
    refine congrArg _ (funext fun p => ?_)
    simp only [onVolume, hT.write, hT.disk]
    rfl
  · rfl

theorem walk_blind (xs : List Nat) (a : Nat) :
    walk sb xs a (T fs) = (walk sb xs a fs).map (onVolume T) := by
  induction xs generalizing a fs with
  | nil => rfl
  | cons x xs ih =>
    rw [walk, walk, indexEntry_blind hT, except_bind_map, except_map_bind]
    exact congrArg _ (funext fun p => ih p.1)

theorem bmap_blind (bn : Nat) : bmap sb (T fs) i bn = (bmap sb fs i bn).map (onVolume T) := by
  rw [bmap, bmap]
  cases bmapPath bn with
  | none => rfl
  | some p =>
    dsimp only
    rw [rootEntry_blind hT, except_bind_map, except_map_bind]
    exact congrArg _ (funext fun q => walk_blind hT p.2 q.1)

end

/-! ### The other inodes are not read -/

@[simp] theorem beside_self (fs : Volume) (i : Nat) (g : Nat → Inode) :
    (fs.beside i g).inode i = fs.inode i := update_self ..

theorem beside_dinode_self (fs : Volume) (i : Nat) (g : Nat → Inode) :
    (fs.beside i g).dinode i = fs.dinode i := by simp only [Volume.beside, update_self]

theorem beside_setInode (fs : Volume) (f : Inode → Inode) :
    (fs.beside i g).setInode i f = (fs.setInode i f).beside i g := by
  simp only [Volume.setInode, Volume.beside, update_self, Function.update_idem]

theorem blind_beside (i : Nat) (g : Nat → Inode) : Blind i (Volume.beside · i g) :=
  ⟨fun _ => rfl, fun fs => by rw [beside_self], fun _ _ _ => rfl, fun fs _ _ => beside_setInode fs _⟩

theorem beside_bfree (fs : Volume) (b : Nat) :
    bfree sb (fs.beside i g) b = (bfree sb fs b).map (·.beside i g) := by
  rw [bfree, bfree]
  change (if fs.used sb b then _ else _) = _
  split <;> rfl

/-- A step that does not read the other inodes, after another. -/
theorem beside_bind {f : Volume → Except Stop Volume} (x : Except Stop Volume)
    (h : ∀ fs, f (fs.beside i g) = (f fs).map (·.beside i g)) :
    (x.map (·.beside i g) >>= f) = (x >>= f).map (·.beside i g) := by
  cases x with
  | error e => rfl
  | ok fs => exact h fs

/-- A loop whose body does not read the other inodes. -/
theorem beside_foldlM {α : Type} {f : Volume → α → Except Stop Volume} :
    ∀ (l : List α) (fs : Volume),
      (∀ fs, ∀ x ∈ l, f (fs.beside i g) x = (f fs x).map (·.beside i g)) →
      l.foldlM f (fs.beside i g) = (l.foldlM f fs).map (·.beside i g)
  | [], _, _ => rfl
  | x :: l, fs, h => by
    rw [List.foldlM_cons, List.foldlM_cons, h fs x List.mem_cons_self]
    exact beside_bind _ fun fs₁ => beside_foldlM l fs₁ fun fs y hy =>
      h fs y (List.mem_cons_of_mem x hy)

theorem beside_freeTree : ∀ (d a : Nat) (fs : Volume), freeTree sb d a (fs.beside i g) =
    (freeTree sb d a fs).map (·.beside i g)
  | 0, a, fs => beside_bfree fs a
  | d + 1, a, fs => by
    rw [freeTree, freeTree, beside_foldlM]
    · exact beside_bind _ fun fs₁ => beside_bfree fs₁ a
    intro fs x _
    change (if getWord (fs.disk a) x = 0 then _ else _) = _
    split
    · rfl
    · exact beside_freeTree d _ fs

theorem beside_freeRoot (fs : Volume) (r : Fin (NDIRECT + 3)) :
    freeRoot sb i (fs.beside i g) r = (freeRoot sb i fs r).map (·.beside i g) := by
  rw [freeRoot, freeRoot, beside_self]
  split
  · rfl
  · rw [beside_freeTree]
    exact beside_bind _ fun fs₁ => congrArg Except.ok (beside_setInode fs₁ _)

/-! ### A file for every other block -/

/-- A file with one block, or none. -/
def oneBlock (b : Nat) : Inode :=
  ⟨⟨.file, 0, 0, 1, 0, fun r => if r.val = 0 then b else 0⟩, 1, true⟩

theorem current_beside_self (fs : Volume) (i : Nat) (g : Nat → Inode) :
    (fs.beside i g).current i = fs.current i := by
  rw [Volume.current, Volume.current, beside_self, beside_dinode_self]

theorem get_beside_self (r : Fin (NDIRECT + 3)) (p : List Nat) :
    (fs.beside i g).forest.get ((i, r), p) = fs.forest.get ((i, r), p) := by
  induction p with
  | nil =>
    rw [Support.Forest.get_nil, Support.Forest.get_nil]
    change ((fs.beside i g).current i).addrs r = (fs.current i).addrs r
    rw [current_beside_self]
  | cons x p ih =>
    rw [Support.Forest.get_cons, Support.Forest.get_cons, ih]
    rfl

/-- The places of another inode: one of them, at most, holds a block. -/
theorem get_beside_other {f : Nat → Nat} {j : Nat} (hj : j ≠ i) {r : Fin (NDIRECT + 3)}
    {p : List Nat} (hv : Valid shape ((j, r), p))
    (hne : (fs.beside i fun j => oneBlock (f j)).forest.get ((j, r), p) ≠ 0) :
    r = 0 ∧ p = [] ∧ (fs.beside i fun j => oneBlock (f j)).forest.get ((j, r), p) = f j := by
  have hroot (s : Fin (NDIRECT + 3)) :
      (fs.beside i fun j => oneBlock (f j)).forest.get ((j, s), []) = if s = 0 then f j else 0 := by
    rw [Support.Forest.get_nil]
    simp [Volume.forest, Volume.current, Volume.beside, update_of_ne hj, oneBlock]
  have h0 : r = 0 := by
    by_contra e
    have := Support.Forest.get_of_suffix (List.nil_suffix (l := p)) hne
    rw [hroot r, if_neg e] at this
    exact this rfl
  subst h0
  have hp : p = [] := List.length_eq_zero_iff.mp (Nat.le_zero.mp hv.1)
  subst hp
  exact ⟨rfl, rfl, (hroot 0).trans (if_pos rfl)⟩

open Classical in
/-- The block of the file beside inode `i` with number `j`: the blocks are counted from `i + 1`
on. -/
noncomputable def spreadBlock (sb : Superblock) (fs : Volume) (i j : Nat) : Nat :=
  if i < j ∧ sb.nmeta ≤ j - (i + 1) ∧ j - (i + 1) < sb.size ∧ fs.used sb (j - (i + 1)) = true ∧
      ¬ fs.InTree i (j - (i + 1)) then j - (i + 1) else 0

theorem spreadBlock_ne_zero {j : Nat} (h : spreadBlock sb fs i j ≠ 0) :
    j = i + 1 + spreadBlock sb fs i j ∧ sb.nmeta ≤ spreadBlock sb fs i j ∧
      spreadBlock sb fs i j < sb.size ∧ fs.used sb (spreadBlock sb fs i j) = true ∧
      ¬ fs.InTree i (spreadBlock sb fs i j) := by
  rw [spreadBlock] at h ⊢
  split
  · rename_i hc
    obtain ⟨hlt, hc⟩ := hc
    exact ⟨by omega, hc⟩
  · rename_i hc
    rw [if_neg hc] at h
    exact absurd rfl h

/-- **A tree in order extends to a volume in order.** -/
theorem TreeOwned.spread (h : TreeOwned sb fs i) :
    Owned sb (fs.beside i fun j => oneBlock (spreadBlock sb fs i j)) := by
  refine ⟨?_, ?_, fun b hb hlt hu => ?_⟩
  · rintro ⟨⟨j, r⟩, p⟩ ⟨⟨j', r'⟩, p'⟩ hv hv' hne heq
    have hne' := hne
    rw [heq] at hne'
    -- a block of another inode is not in the tree of `i`
    have hapart {j r p r' p'} (hj : j ≠ i) (hv : Valid shape ((j, r), p))
        (hv' : Valid shape ((i, r'), p'))
        (hne : (fs.beside i fun j => oneBlock (spreadBlock sb fs i j)).forest.get ((j, r), p) ≠ 0)
        (heq : (fs.beside i fun j => oneBlock (spreadBlock sb fs i j)).forest.get ((j, r), p) =
          (fs.beside i fun j => oneBlock (spreadBlock sb fs i j)).forest.get ((i, r'), p')) :
        False := by
      obtain ⟨-, -, hget⟩ := get_beside_other hj hv hne
      rw [hget] at hne heq
      rw [get_beside_self] at heq
      exact (spreadBlock_ne_zero hne).2.2.2.2 ⟨hne, r', p', hv', heq.symm⟩
    by_cases hj : j = i
    · subst hj
      by_cases hj' : j' = j
      · subst hj'
        rw [get_beside_self] at hne heq
        rw [get_beside_self] at heq
        obtain ⟨rfl, rfl⟩ := h.inj r r' p p' hv hv' hne heq
        rfl
      · exact (hapart hj' hv' hv hne' heq.symm).elim
    · by_cases hj' : j' = i
      · subst hj'
        exact (hapart hj hv hv' hne heq).elim
      obtain ⟨rfl, rfl, hget⟩ := get_beside_other hj hv hne
      obtain ⟨rfl, rfl, hget'⟩ := get_beside_other hj' hv' hne'
      rw [hget, hget'] at heq
      rw [hget] at hne
      rw [hget'] at hne'
      have e := (spreadBlock_ne_zero hne).1
      have e' := (spreadBlock_ne_zero hne').1
      rw [heq, ← e'] at e
      rw [e]
  · rintro ⟨⟨j, r⟩, p⟩ hv hne
    by_cases hj : j = i
    · subst hj
      rw [get_beside_self] at hne ⊢
      exact h.data r p hv hne
    · obtain ⟨-, -, hget⟩ := get_beside_other hj hv hne
      rw [hget] at hne ⊢
      obtain ⟨-, h₁, h₂, h₃, -⟩ := spreadBlock_ne_zero hne
      exact ⟨h₁, h₂, h₃⟩
  · by_cases hin : fs.InTree i b
    · obtain ⟨-, r, p, hv, hget⟩ := hin
      exact ⟨((i, r), p), hv, (get_beside_self r p).trans hget⟩
    refine ⟨((i + 1 + b, 0), []), Support.Forest.valid_nil shape _, ?_⟩
    have hj : i + 1 + b ≠ i := by omega
    have hb' : i + 1 + b - (i + 1) = b := by omega
    have hs : spreadBlock sb fs i (i + 1 + b) = b := by
      rw [spreadBlock, hb', if_pos ⟨by omega, hb, hlt, hu, hin⟩]
    rw [Support.Forest.get_nil]
    simp [Volume.forest, Volume.current, Volume.beside, update_of_ne hj, oneBlock, hs]

/-! ### What `itrunc` leaves alone -/

/-- The other inodes and the blocks below the bitmap are as they were. -/
structure Aside (sb : Superblock) (i : Nat) (fs fs' : Volume) : Prop where
  inode : ∀ j, j ≠ i → fs'.inode j = fs.inode j
  dinode : ∀ j, j ≠ i → fs'.dinode j = fs.dinode j
  disk : ∀ c < sb.bmapstart, fs'.disk c = fs.disk c

theorem Aside.refl (sb : Superblock) (i : Nat) (fs : Volume) : Aside sb i fs fs :=
  ⟨fun _ _ => rfl, fun _ _ => rfl, fun _ _ => rfl⟩

theorem Aside.trans {fs₁ : Volume} (h : Aside sb i fs fs₁) (h' : Aside sb i fs₁ fs') :
    Aside sb i fs fs' where
  inode j hj := (h'.inode j hj).trans (h.inode j hj)
  dinode j hj := (h'.dinode j hj).trans (h.dinode j hj)
  disk c hc := (h'.disk c hc).trans (h.disk c hc)

theorem aside_setInode (fs : Volume) (f : Inode → Inode) : Aside sb i fs (fs.setInode i f) :=
  ⟨fun _ hj => update_of_ne hj .., fun _ _ => rfl, fun _ _ => rfl⟩

theorem aside_iupdate (fs : Volume) : Aside sb i fs (iupdate sb fs i) :=
  ⟨fun _ _ => rfl, fun _ hj => update_of_ne hj .., fun _ _ => rfl⟩

theorem aside_bfree {b : Nat} (h : bfree sb fs b = .ok fs') : Aside sb i fs fs' := by
  rw [bfree] at h
  split at h
  · cases h
    refine ⟨fun _ _ => rfl, fun _ _ => rfl, fun c hc => write_disk_of_ne _ fun e => ?_⟩
    have := bmapstart_le_bblock sb b
    omega
  · cases h

theorem aside_freeTree {d a : Nat} (h : freeTree sb d a fs = .ok fs') : Aside sb i fs fs' := by
  induction d generalizing a fs fs' with
  | zero => exact aside_bfree h
  | succ d ih =>
    obtain ⟨fs₁, h₁, h⟩ := bind_ok.mp h
    refine .trans ?_ (aside_bfree h)
    refine Support.foldlM_invariant (I := Aside sb i fs) (fun j _ s s' hs hj => ?_) (.refl ..) h₁
    split at hj
    · cases hj
      exact hs
    · exact hs.trans (ih hj)

theorem aside_itrunc (h : itrunc sb fs i = .ok fs') : Aside sb i fs fs' := by
  obtain ⟨fs₁, h₁, h⟩ := bind_ok.mp h
  cases h
  refine .trans ?_ ((aside_setInode fs₁ _).trans (aside_iupdate _))
  refine Support.foldlM_invariant (I := Aside sb i fs) (fun r _ s s' hs hr => ?_) (.refl ..) h₁
  rw [freeRoot] at hr
  split at hr
  · cases hr
    exact hs
  · obtain ⟨s₁, hs₁, hr⟩ := bind_ok.mp hr
    cases hr
    exact hs.trans ((aside_freeTree hs₁).trans (aside_setInode s₁ _))

/-! ### What `itrunc` frees -/

theorem inTree_iff {b : Nat} : fs.InTree i b ↔ ∃ r, b ∈ (fs.beside i g).rootBlocks (i, r) := by
  simp only [Volume.InTree, mem_rootBlocks, get_beside_self, exists_and_left]

/-- The loops of `itrunc`. -/
theorem freeRoots_tree (h : TreeOwned sb fs i) (hv : (fs.inode i).valid = true) :
    ∃ fs', (List.finRange (NDIRECT + 3)).foldlM (freeRoot sb i) fs = .ok fs' ∧
      (∀ b, fs'.used sb b = true ↔ fs.used sb b = true ∧ ¬ fs.InTree i b) ∧
      (∀ b, sb.nmeta ≤ b → fs'.disk b = fs.disk b) ∧
      fs'.inode i = { fs.inode i with addrs := fun _ => 0 } := by
  have ho := h.spread
  generalize (fun j => oneBlock (spreadBlock sb fs i j)) = g at ho
  have hv₀ : ((fs.beside i g).inode i).valid = true := by rw [beside_self, hv]
  obtain ⟨fs₁, h₁, -, hC⟩ := freeRoots_spec ho hv₀ (List.finRange (NDIRECT + 3))
  rw [beside_foldlM _ _ fun fs r _ => beside_freeRoot fs r] at h₁
  cases hr : (List.finRange (NDIRECT + 3)).foldlM (freeRoot sb i) fs with
  | error e =>
    rw [hr] at h₁
    cases h₁
  | ok fs' =>
    rw [hr] at h₁
    cases h₁
    have hi := hC.inode i
    rw [beside_self, beside_self] at hi
    have haddrs (r : Fin (NDIRECT + 3)) : (fs'.inode i).addrs r = 0 := by
      have hget := hC.get ((i, r), []) (Support.Forest.valid_nil shape _)
      rw [if_pos ⟨rfl, List.mem_finRange r⟩, get_beside_self] at hget
      have hv' : (fs'.inode i).valid = true := by rw [hi, hv]
      exact (congrArg (·.addrs r) (current_of_valid hv')).symm.trans hget
    refine ⟨fs', rfl, fun b => ?_, fun b hb => hC.disk b hb, ?_⟩
    · refine (hC.used b).trans (and_congr_right fun _ => ?_)
      rw [inTree_iff (g := g), not_exists]
      simp
    · rw [hi, funext haddrs]

/-- **What `itrunc` frees.**  For any tree of blocks that are marked used, each at one place,
`itrunc` returns; the bits of the blocks of the tree are clear, and every other bit is as it was; so
is every block outside the bitmap; and the inode has no blocks and size 0, in memory and on the disk,
the other inodes being as they were. -/
theorem itrunc_frees (h : TreeOwned sb fs i) (hv : (fs.inode i).valid = true) :
    ∃ fs', itrunc sb fs i = .ok fs' ∧
      (∀ b, fs'.used sb b = true ↔ fs.used sb b = true ∧ ¬ fs.InTree i b) ∧
      (∀ b, b < sb.bmapstart ∨ sb.nmeta ≤ b → fs'.disk b = fs.disk b) ∧
      fs'.inode i = { fs.inode i with addrs := fun _ => 0, size := 0 } ∧
      fs'.dinode i = { (fs.inode i).toDinode with addrs := fun _ => 0, size := 0 } ∧
      ∀ j, j ≠ i → fs'.inode j = fs.inode j ∧ fs'.dinode j = fs.dinode j := by
  obtain ⟨fs₁, h₁, hused, hdisk, hi⟩ := freeRoots_tree h hv
  have hr : itrunc sb fs i = .ok (iupdate sb (fs₁.setInode i ({ · with size := 0 })) i) :=
    bind_ok.mpr ⟨fs₁, h₁, rfl⟩
  have ha := aside_itrunc hr
  have hset : (fs₁.setInode i ({ · with size := 0 })).inode i =
      { fs.inode i with addrs := fun _ => 0, size := 0 } := by
    simp only [Volume.setInode, update_self, hi]
  refine ⟨_, hr, hused, fun b hb => hb.elim (ha.disk b) (hdisk b), hset, ?_,
    fun j hj => ⟨ha.inode j hj, ha.dinode j hj⟩⟩
  simp only [iupdate, update_self]
  rw [hset]

end

/-- A file with one block in its first index block is truncated: blocks 68 and 69, which it had, are
free again. -/
theorem itrunc_frees_index : ∃ fs fs', fs.InTree 1 68 ∧ fs.InTree 1 69 ∧
    itrunc mkfsSb fs 1 = .ok fs' ∧ fs'.used mkfsSb 68 = false ∧ fs'.used mkfsSb 69 = false := by
  have hw := wellFormed_emptyFile
  obtain ⟨⟨a, fs⟩, hb, h68, h69⟩ : ∃ r, bmap mkfsSb emptyFile 1 10 = .ok r ∧
      r.2.forest.get ((1, 10), []) = 68 ∧ r.2.forest.get ((1, 10), [0]) = 69 := by decide +kernel
  obtain ⟨-, -, -, -, -, -, -, N, e, -⟩ := bmap_spec hw.owned hw.metaUsed rfl hb
  obtain ⟨ho, -⟩ := e.owned hw.owned hw.metaUsed
  have hv : (fs.inode 1).valid = true := e.valid 1
  obtain ⟨fs', hr, hused, -⟩ := itrunc_frees (ho.tree 1) hv
  have hin : fs.InTree 1 68 := ⟨by decide, 10, [], Support.Forest.valid_nil shape _, h68⟩
  have hin' : fs.InTree 1 69 := ⟨by decide, 10, [0], ⟨by decide, by decide⟩, h69⟩
  refine ⟨fs, fs', hin, hin', hr, ?_, ?_⟩
  · rw [← Bool.not_eq_true, hused]
    exact fun hu => hu.2 hin
  · rw [← Bool.not_eq_true, hused]
    exact fun hu => hu.2 hin'

end Xv6.Fs
