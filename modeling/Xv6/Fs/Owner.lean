import Xv6.Fs.Tree
import Xv6.Support.Machine

/-!
# Fs — block ownership

Every block belongs to one place of one file, or is free.  `writei` keeps this, being a sequence of
edits; `itrunc` keeps it entry by entry: it frees the blocks of the tree under an entry, each
once, and then clears the entry (`freeRoot_spec`).

* `itrunc_spec`: `itrunc` returns, so `bfree` never finds a clear bit.
* `blocks_owned`: over any sequence of `writei` and `itrunc` on any inodes.
-/

namespace Xv6.Fs

open Support (Bytes getWord clearBit bind_ok follow tree Run)
open Support.Forest (Valid)

section

variable {sb : Superblock} {fs fs₁ fs' : Volume} {i : Nat}

/-! ### Freeing a list of blocks -/

/-- What freeing the blocks `bs` has done. -/
structure Freed (sb : Superblock) (fs fs' : Volume) (bs : List Nat) : Prop where
  used : ∀ c, fs'.used sb c = (!decide (c ∈ bs) && fs.used sb c)
  disk : ∀ c, sb.nmeta ≤ c → fs'.disk c = fs.disk c
  inode : fs'.inode = fs.inode
  dinode : fs'.dinode = fs.dinode
  logged : fs'.logged = (bs.map sb.bblock).reverse ++ fs.logged

theorem freed_nil (sb : Superblock) (fs : Volume) : Freed sb fs fs [] :=
  ⟨fun c => by simp, fun _ _ => rfl, rfl, rfl, rfl⟩

/-- Blocks that are marked used, each listed once, can be freed. -/
theorem bfree_all {bs : List Nat} (hnd : bs.Nodup) (hlt : ∀ b ∈ bs, b < sb.size)
    (hu : ∀ b ∈ bs, fs.used sb b = true) :
    ∃ fs', bs.foldlM (bfree sb) fs = .ok fs' ∧ Freed sb fs fs' bs := by
  induction bs generalizing fs with
  | nil => exact ⟨fs, rfl, freed_nil sb fs⟩
  | cons b bs ih =>
    obtain ⟨hb, hnd⟩ := List.nodup_cons.mp hnd
    have hused (c : Nat) : _ = (!decide (c = b) && fs.used sb c) := used_clearBit fs b c
    generalize hfs₁ : fs.write (sb.bblock b) (clearBit (fs.disk (sb.bblock b)) (b % BPB)) = fs₁
      at hused
    have hfree : bfree sb fs b = .ok fs₁ := by
      rw [bfree, if_pos (hu b List.mem_cons_self), hfs₁]
    have hu₁ : ∀ c ∈ bs, fs₁.used sb c = true := by
      intro c hc
      have hne : c ≠ b := fun e => hb (e ▸ hc)
      rw [hused, hu c (List.mem_cons_of_mem b hc)]
      simp [hne]
    obtain ⟨fs', hfold, hf⟩ := ih hnd (fun c hc => hlt c (List.mem_cons_of_mem b hc)) hu₁
    refine ⟨fs', bind_ok.mpr ⟨fs₁, hfree, hfold⟩, ⟨fun c => ?_, fun c hc => ?_, ?_, ?_, ?_⟩⟩
    · rw [hf.used, hused]
      by_cases e : c = b
      · subst e; simp
      · simp [e]
    · rw [hf.disk c hc, bfree_disk hfree (hlt b List.mem_cons_self) hc]
    · rw [hf.inode, ← hfs₁]; rfl
    · rw [hf.dinode, ← hfs₁]; rfl
    · rw [hf.logged, ← hfs₁]
      simp

/-- Freeing changes no data block. -/
theorem disk_of_bfree_all {bs : List Nat} (hlt : ∀ b ∈ bs, b < sb.size)
    (h : bs.foldlM (bfree sb) fs = .ok fs') {c : Nat} (hc : sb.nmeta ≤ c) :
    fs'.disk c = fs.disk c := by
  induction bs generalizing fs with
  | nil => cases h; rfl
  | cons b bs ih =>
    obtain ⟨fs₁, h₁, h⟩ := bind_ok.mp h
    rw [ih (fun d hd => hlt d (List.mem_cons_of_mem b hd)) h,
      bfree_disk h₁ (hlt b List.mem_cons_self) hc]

/-- The nested loops free the nodes of the tree in the order of `tree`; the index blocks they
read are not changed by freeing. -/
theorem freeTree_eq {child : Nat → Nat → Nat} {d a : Nat} (ha : a ≠ 0)
    (hchild : ∀ c, sb.nmeta ≤ c → ∀ x, getWord (fs.disk c) x = child c x)
    (hb : ∀ b ∈ tree child NINDIRECT d a, sb.nmeta ≤ b ∧ b < sb.size) :
    freeTree sb d a fs = (tree child NINDIRECT d a).foldlM (bfree sb) fs := by
  induction d generalizing a fs with
  | zero =>
    rw [freeTree, tree, List.foldlM_cons]
    cases bfree sb fs a <;> rfl
  | succ d ih =>
    have hself : a ∈ tree child NINDIRECT (d + 1) a := by simp [tree]
    have hsub {x : Nat} (hx : x ∈ List.range NINDIRECT) (b : Nat)
        (h : b ∈ if child a x = 0 then [] else tree child NINDIRECT d (child a x)) :
        sb.nmeta ≤ b ∧ b < sb.size := by
      refine hb b ?_
      rw [tree]
      exact List.mem_append_left _ (List.mem_flatMap.mpr ⟨x, hx, h⟩)
    have hloop : (List.range NINDIRECT).foldlM (fun fs j => if getWord (fs.disk a) j = 0 then .ok fs
        else freeTree sb d (getWord (fs.disk a) j) fs) fs =
        ((List.range NINDIRECT).flatMap fun x =>
          if child a x = 0 then [] else tree child NINDIRECT d (child a x)).foldlM (bfree sb) fs := by
      refine Support.foldlM_flatMap
        (I := fun s => ∀ c, sb.nmeta ≤ c → ∀ x, getWord (s.disk c) x = child c x)
        (fun x hx s hs => ?_) (fun x hx s s' hs h c hc y => ?_) hchild
      · rw [hs a (hb a hself).1 x]
        have hsub := hsub hx
        split
        · rfl
        · rename_i h0
          rw [if_neg h0] at hsub
          exact ih h0 hs hsub
      · rw [disk_of_bfree_all (fun b hb => (hsub hx b hb).2) h hc, hs c hc y]
    rw [freeTree, tree, List.foldlM_append, hloop]
    refine congrArg _ (funext fun fs₁ => ?_)
    rw [List.foldlM_cons]
    cases bfree sb fs₁ a <;> rfl

/-! ### `itrunc` -/

/-- The blocks of the tree under an entry of `addrs`. -/
def Volume.rootBlocks (fs : Volume) (r : Root) : List Nat :=
  if fs.forest.root r = 0 then []
  else tree fs.forest.child NINDIRECT (rootDepth r.2) (fs.forest.root r)

/-- The blocks under an entry are those at the places below it. -/
theorem mem_rootBlocks {r : Root} {b : Nat} : b ∈ fs.rootBlocks r ↔
    b ≠ 0 ∧ ∃ p, Valid shape (r, p) ∧ fs.forest.get (r, p) = b := by
  rw [Volume.rootBlocks]
  split
  · rename_i h0
    constructor
    · intro h; cases h
    · rintro ⟨hb, p, -, hp⟩
      change follow fs.forest.child (fs.forest.root r) p = b at hp
      rw [h0, Support.Forest.follow_zero] at hp
      exact absurd hp.symm hb
  · rename_i h0
    rw [Support.mem_tree h0]
    constructor
    · rintro ⟨hb, p, hl, hx, hp⟩
      exact ⟨hb, p, ⟨hl, hx⟩, hp⟩
    · rintro ⟨hb, p, ⟨hl, hx⟩, hp⟩
      exact ⟨hb, p, hl, hx, hp⟩

theorem nodup_rootBlocks (ho : Owned sb fs) (r : Root) : (fs.rootBlocks r).Nodup := by
  rw [Volume.rootBlocks]
  split
  · exact List.nodup_nil
  · rename_i h0
    refine Support.nodup_tree h0 fun p p' hl hl' hx hx' hne heq => ?_
    exact congrArg Prod.snd (ho.inj (r, p) (r, p') ⟨hl, hx⟩ ⟨hl', hx'⟩ hne heq)

theorem data_rootBlocks (ho : Owned sb fs) {r : Root} {b : Nat} (h : b ∈ fs.rootBlocks r) :
    sb.nmeta ≤ b ∧ b < sb.size ∧ fs.used sb b = true := by
  obtain ⟨hb, p, hv, rfl⟩ := mem_rootBlocks.mp h
  exact ho.data _ hv hb

/-- What `itrunc` does for one entry of `addrs`: the places under it are empty, and their blocks
are free. -/
structure Cut (sb : Superblock) (fs fs' : Volume) (r : Root) : Prop where
  get : ∀ q, Valid shape q → fs'.forest.get q = if q.1 = r then 0 else fs.forest.get q
  used : ∀ c, fs'.used sb c = (!decide (c ∈ fs.rootBlocks r) && fs.used sb c)
  disk : ∀ c, sb.nmeta ≤ c → fs'.disk c = fs.disk c
  inode : ∀ j, fs'.inode j = { fs.inode j with addrs := (fs'.inode j).addrs }
  root : ∀ s, fs'.forest.root s = if s = r then 0 else fs.forest.root s
  dinode : fs'.dinode = fs.dinode
  logged : fs'.logged = ((fs.rootBlocks r).map sb.bblock).reverse ++ fs.logged

theorem freeRoot_spec (ho : Owned sb fs) (hv : (fs.inode i).valid = true)
    (r : Fin (NDIRECT + 3)) : ∃ fs', freeRoot sb i fs r = .ok fs' ∧ Cut sb fs fs' (i, r) := by
  have hroot : fs.forest.root (i, r) = (fs.inode i).addrs r :=
    congrArg (·.addrs r) (current_of_valid hv)
  by_cases h0 : (fs.inode i).addrs r = 0
  · have hnil : fs.rootBlocks (i, r) = [] := if_pos (hroot.trans h0)
    have hsame (s : Root) : fs.forest.root s = if s = (i, r) then 0 else fs.forest.root s := by
      by_cases e : s = (i, r)
      · rw [if_pos e, e, hroot, h0]
      · rw [if_neg e]
    refine ⟨fs, if_pos h0, fun q hq => ?_, fun c => by simp [hnil], fun _ _ => rfl, fun _ => rfl,
      hsame, rfl, by simp [hnil]⟩
    exact Support.Forest.get_prune hsame (fun _ _ _ _ _ => rfl) hq
  · have hblocks : fs.rootBlocks (i, r) =
        tree fs.forest.child NINDIRECT (rootDepth r) ((fs.inode i).addrs r) := by
      rw [Volume.rootBlocks, hroot, if_neg h0]
    have hdata {b : Nat} (hb : b ∈ fs.rootBlocks (i, r)) := data_rootBlocks ho hb
    have hfree : freeTree sb (rootDepth r) ((fs.inode i).addrs r) fs =
        (fs.rootBlocks (i, r)).foldlM (bfree sb) fs := by
      rw [hblocks] at hdata ⊢
      exact freeTree_eq h0 (fun _ _ _ => rfl) fun b hb => ⟨(hdata hb).1, (hdata hb).2.1⟩
    obtain ⟨fs₁, hfold, hf⟩ := bfree_all (nodup_rootBlocks ho (i, r)) (fun b hb => (hdata hb).2.1)
      fun b hb => (hdata hb).2.2
    have hset (s : Root) : (fs₁.setAddr i r 0).forest.root s =
        if s = (i, r) then 0 else fs.forest.root s := by
      rw [root_setAddr hf.inode hf.dinode hv, Function.update_apply]
    refine ⟨fs₁.setAddr i r 0, ?_, fun q hq => ?_, hf.used, hf.disk,
      fun j => hf.inode ▸ inode_setAddr r 0 j, hset, hf.dinode, hf.logged⟩
    · rw [freeRoot, if_neg h0]
      exact bind_ok.mpr ⟨fs₁, hfree.trans hfold, rfl⟩
    · refine Support.Forest.get_prune hset (fun p hp hne x _ => ?_) hq
      exact congrArg (getWord · x) (hf.disk _ (ho.data p hp.valid hne).1)

theorem Cut.owned {r : Root} (h : Cut sb fs fs' r) (ho : Owned sb fs) : Owned sb fs' := by
  refine ⟨fun q q' hq hq' hne heq => ?_, fun q hq hne => ?_, fun b hb hlt hu => ?_⟩
  · rw [h.get q hq] at hne heq
    rw [h.get q' hq'] at heq
    split at hne
    · exact absurd rfl hne
    rename_i e
    rw [if_neg e] at heq
    by_cases e' : q'.1 = r
    · rw [if_pos e'] at heq
      exact absurd heq hne
    · rw [if_neg e'] at heq
      exact ho.inj q q' hq hq' hne heq
  · rw [h.get q hq] at hne ⊢
    split at hne
    · exact absurd rfl hne
    rename_i e
    obtain ⟨h₁, h₂, h₃⟩ := ho.data q hq hne
    -- a block at a place elsewhere is not one of those freed
    have hnot : fs.forest.get q ∉ fs.rootBlocks r := by
      intro hmem
      obtain ⟨-, p, hp, hget⟩ := mem_rootBlocks.mp hmem
      exact e (congrArg Prod.fst (ho.inj q (r, p) hq hp hne hget.symm))
    rw [if_neg e, h.used, h₃]
    exact ⟨h₁, h₂, by simp [hnot]⟩
  · rw [h.used, Bool.and_eq_true, Bool.not_eq_true', decide_eq_false_iff_not] at hu
    obtain ⟨q, hq, hget⟩ := ho.held b hb hlt hu.2
    have hb0 : b ≠ 0 := (Nat.lt_of_lt_of_le (nmeta_pos sb) hb).ne'
    have hne : q.1 ≠ r := by
      rintro rfl
      exact hu.1 (mem_rootBlocks.mpr ⟨hb0, q.2, hq, hget⟩)
    exact ⟨q, hq, by rw [h.get q hq, if_neg hne, hget]⟩

/-- The blocks under the other entries are still there. -/
theorem Cut.mem_rootBlocks {r s : Root} (h : Cut sb fs fs' r) {c : Nat} (hr : c ∉ fs.rootBlocks r) :
    c ∈ fs'.rootBlocks s ↔ c ∈ fs.rootBlocks s := by
  rw [Fs.mem_rootBlocks, Fs.mem_rootBlocks]
  refine and_congr_right fun hc => exists_congr fun p => and_congr_right fun hp => ?_
  rw [h.get _ hp]
  by_cases e : s = r
  · subst e
    rw [if_pos rfl]
    exact ⟨fun h0 => absurd h0.symm hc,
      fun hget => absurd (Fs.mem_rootBlocks.mpr ⟨hc, p, hp, hget⟩) hr⟩
  · rw [if_neg e]

/-- What `itrunc` has done when it has gone through the entries `L`. -/
structure Cuts (sb : Superblock) (i : Nat) (fs fs' : Volume) (L : List (Fin (NDIRECT + 3))) :
    Prop where
  get : ∀ q, Valid shape q → fs'.forest.get q = if q.1.1 = i ∧ q.1.2 ∈ L then 0 else fs.forest.get q
  used : ∀ c, fs'.used sb c = true ↔ fs.used sb c = true ∧ ∀ r ∈ L, c ∉ fs.rootBlocks (i, r)
  disk : ∀ c, sb.nmeta ≤ c → fs'.disk c = fs.disk c
  inode : ∀ j, fs'.inode j = { fs.inode j with addrs := (fs'.inode j).addrs }
  dinode : fs'.dinode = fs.dinode
  logged : ∀ b, b ∈ fs'.logged ↔ b ∈ fs.logged ∨ ∃ q, Valid shape q ∧ q.1.1 = i ∧ q.1.2 ∈ L ∧
    fs.forest.get q ≠ 0 ∧ sb.bblock (fs.forest.get q) = b

/-- **The entries of `addrs`**, one after the other. -/
theorem freeRoots_spec (ho : Owned sb fs) (hv : (fs.inode i).valid = true)
    (L : List (Fin (NDIRECT + 3))) :
    ∃ fs', L.foldlM (freeRoot sb i) fs = .ok fs' ∧ Owned sb fs' ∧ Cuts sb i fs fs' L := by
  induction L generalizing fs with
  | nil =>
    refine ⟨fs, rfl, ho, fun q _ => ?_, fun c => ?_, fun _ _ => rfl, fun _ => rfl, rfl, fun b => ?_⟩
    · simp
    · simp
    · simp
  | cons r L ih =>
    obtain ⟨fs₁, h₁, hc⟩ := freeRoot_spec ho hv r
    have hv₁ : (fs₁.inode i).valid = true := by rw [hc.inode i, hv]
    obtain ⟨fs', h₂, ho', hC⟩ := ih (hc.owned ho) hv₁
    refine ⟨fs', bind_ok.mpr ⟨fs₁, h₁, h₂⟩, ho', fun q hq => ?_, fun c => ?_, fun c hle => ?_,
      fun j => ?_, hC.dinode.trans hc.dinode, fun b => ?_⟩
    · rw [hC.get q hq, hc.get q hq]
      obtain ⟨⟨j, s⟩, p⟩ := q
      by_cases hj : j = i
      · by_cases hs : s = r
        · simp [hj, hs]
        · simp [hj, hs]
      · simp [hj]
    · rw [hC.used, hc.used, Bool.and_eq_true, Bool.not_eq_true', decide_eq_false_iff_not,
        List.forall_mem_cons, and_comm (a := c ∉ _), and_assoc]
      refine and_congr_right fun _ => and_congr_right fun hr => forall₂_congr fun s _ => ?_
      exact not_congr (hc.mem_rootBlocks hr)
    · rw [hC.disk c hle, hc.disk c hle]
    · rw [hC.inode j, hc.inode j]
    rw [hC.logged, hc.logged, List.mem_append, List.mem_reverse, List.mem_map]
    constructor
    · rintro ((⟨c, hmem, rfl⟩ | h) | ⟨q, hq, hi, hL, hne, rfl⟩)
      · obtain ⟨hc0, p, hp, rfl⟩ := mem_rootBlocks.mp hmem
        exact .inr ⟨((i, r), p), hp, rfl, List.mem_cons_self, hc0, rfl⟩
      · exact .inl h
      rw [hc.get q hq] at hne ⊢
      split at hne
      · exact absurd rfl hne
      · rename_i hqr
        rw [if_neg hqr]
        exact .inr ⟨q, hq, hi, List.mem_cons_of_mem r hL, hne, rfl⟩
    · rintro (h | ⟨q, hq, hi, hL, hne, rfl⟩)
      · exact .inl (.inr h)
      by_cases hqr : q.1 = (i, r)
      · refine .inl (.inl ⟨_, mem_rootBlocks.mpr ⟨hne, q.2, ?_, ?_⟩, rfl⟩)
        · rw [← hqr]; exact hq
        · rw [← hqr]
      have hL' : q.1.2 ∈ L := by
        rcases List.mem_cons.mp hL with e | hL
        · exact absurd (Prod.ext hi e) hqr
        · exact hL
      refine .inr ⟨q, hq, hi, hL', ?_, ?_⟩
      · rw [hc.get q hq, if_neg hqr]; exact hne
      · rw [hc.get q hq, if_neg hqr]

theorem Cuts.metaUsed {L : List (Fin (NDIRECT + 3))} (h : Cuts sb i fs fs' L) (ho : Owned sb fs)
    (hm : MetaUsed sb fs) : MetaUsed sb fs' := by
  intro c hc hlt
  refine (h.used c).mpr ⟨hm c hc hlt, fun r _ hmem => ?_⟩
  exact absurd (data_rootBlocks ho hmem).1 (Nat.not_le_of_lt hc)

section

variable (ho : Owned sb fs) (hm : MetaUsed sb fs) (hv : (fs.inode i).valid = true)
include ho hm hv

/-- **`itrunc`** returns, and leaves the inode empty and every other place as it was.  It logs
the bitmap blocks of the blocks it frees, and the block of the inode. -/
theorem itrunc_spec : ∃ fs', itrunc sb fs i = .ok fs' ∧ Owned sb fs' ∧ MetaUsed sb fs' ∧
      (∀ q, Valid shape q → fs'.forest.get q = if q.1.1 = i then 0 else fs.forest.get q) ∧
      (∀ j, fs'.inode j = { fs.inode j with
        addrs := (fs'.inode j).addrs, size := if j = i then 0 else (fs.inode j).size }) ∧
      fs'.dinode = Function.update fs.dinode i (fs'.inode i).toDinode ∧
      ∀ b, b ∈ fs'.logged ↔ b ∈ fs.logged ∨ b = sb.iblock i ∨ ∃ q, Valid shape q ∧ q.1.1 = i ∧
        fs.forest.get q ≠ 0 ∧ sb.bblock (fs.forest.get q) = b := by
  obtain ⟨fs₁, h₁, ho₁, hC⟩ := freeRoots_spec ho hv (List.finRange (NDIRECT + 3))
  have hm₁ := hC.metaUsed ho hm
  have hv₁ : (fs₁.inode i).valid = true := by rw [hC.inode i, hv]
  generalize hfs₂ : iupdate sb (fs₁.setInode i ({ · with size := 0 })) i = fs₂
  have hforest : fs₂.forest = fs₁.forest := hfs₂ ▸ forest_setSize hv₁ 0
  have hused (c : Nat) : fs₂.used sb c = fs₁.used sb c := by rw [← hfs₂]; rfl
  refine ⟨fs₂, bind_ok.mpr ⟨fs₁, h₁, congrArg _ hfs₂⟩, ho₁.congr (fun q _ => by rw [hforest])
    fun c _ => hused c, fun c hc hlt => (hused c).trans (hm₁ c hc hlt), fun q hq => ?_, fun j => ?_, ?_,
    fun b => ?_⟩
  · rw [hforest, hC.get q hq]
    simp
  · rw [← hfs₂, inode_setSize, hC.inode j]
  · rw [← hfs₂, ← hC.dinode]; rfl
  rw [← hfs₂]
  change b ∈ sb.iblock i :: fs₁.logged ↔ _
  rw [List.mem_cons, hC.logged b]
  simp only [List.mem_finRange, true_and]
  exact or_left_comm

/-! ### `writei` -/

/-- The checks of `writei` let the write through to the disk. -/
def Accepted (fs : Volume) (i n off : Nat) : Prop :=
  (fs.current i).type ≠ .dev ∧ off ≤ (fs.current i).size ∧ off ≤ (off + n) % 2 ^ 32 ∧
    (off + n) % 2 ^ 32 ≤ MAXFILE * BSIZE

instance (fs : Volume) (i n off : Nat) : Decidable (Accepted fs i n off) :=
  inferInstanceAs (Decidable (_ ∧ _))

/-- What `writei` does to the volume: nothing, or the edits of its loop and a new size. -/
theorem writei_spec {src : List UInt8} {off : Nat} {n : Int}
    (h : writei sb fs i src off = .ok (n, fs')) :
    ¬ Accepted fs i src.length off ∧ fs' = fs ∧ ((fs.current i).type = .dev ∨ n = -1) ∨
    Accepted fs i src.length off ∧ ∃ fs₁ N D, Edits sb fs fs₁ N D ∧ Spans i off src.length N D ∧
      fs' = if 0 < src.length ∧ (fs.inode i).size < off + src.length
        then iupdate sb (fs₁.setInode i ({ · with size := off + src.length })) i else fs₁ := by
  rw [writei] at h
  simp only [Accepted, current_of_valid hv]
  split at h
  · rename_i hd
    cases h
    exact .inl ⟨fun ha => ha.1 hd, rfl, .inl hd⟩
  rename_i hd
  split at h
  · rename_i hoff
    cases h
    exact .inl ⟨fun ha => hoff.elim (fun h => absurd ha.2.1 (Nat.not_le_of_lt h))
      fun h => absurd ha.2.2.1 (Nat.not_le_of_lt h), rfl, .inr rfl⟩
  rename_i hoff
  split at h
  · rename_i hmax
    cases h
    exact .inl ⟨fun ha => absurd ha.2.2.2 (Nat.not_le_of_lt hmax), rfl, .inr rfl⟩
  rename_i hmax
  obtain ⟨fs₁, hloop, h⟩ := bind_ok.mp h
  obtain ⟨N, D, e, hs⟩ := writeLoop_spec ho hm hv (Nat.le_refl _) hloop
  have hsize : (fs₁.inode i).size = (fs.inode i).size := by rw [e.inode.2 i]
  refine .inr ⟨⟨hd, by omega, by omega, by omega⟩, fs₁, N, D, e, hs, ?_⟩
  rw [hsize] at h
  split at h
  · rename_i hgrow
    cases h
    rw [if_pos hgrow]
  · rename_i hgrow
    cases h
    rw [if_neg hgrow]

/-- `writei` keeps ownership, and which inodes are valid. -/
theorem writei_owned {src : List UInt8} {off : Nat} {n : Int}
    (h : writei sb fs i src off = .ok (n, fs')) : Owned sb fs' ∧ MetaUsed sb fs' := by
  rcases writei_spec ho hm hv h with ⟨-, rfl, -⟩ | ⟨-, fs₁, N, D, e, -, rfl⟩
  · exact ⟨ho, hm⟩
  obtain ⟨ho₁, hm₁⟩ := e.owned ho hm
  have hv₁ : (fs₁.inode i).valid = true := by rw [e.valid, hv]
  split
  · exact ⟨ho₁.congr (fun q _ => by rw [forest_setSize hv₁]) fun _ _ => rfl, hm₁⟩
  · exact ⟨ho₁, hm₁⟩

/-- What `writei` leaves of the inodes. -/
theorem writei_frame {src : List UInt8} {off : Nat} {n : Int}
    (h : writei sb fs i src off = .ok (n, fs')) :
    (∀ j, fs'.inode j = { fs.inode j with addrs := (fs'.inode j).addrs, size := (fs'.inode j).size }) ∧
      ∀ j, j ≠ i → fs'.dinode j = fs.dinode j := by
  rcases writei_spec ho hm hv h with ⟨-, rfl, -⟩ | ⟨-, fs₁, N, D, e, -, rfl⟩
  · exact ⟨fun _ => rfl, fun _ _ => rfl⟩
  obtain ⟨hdi, hin⟩ := e.inode
  split
  · refine ⟨fun j => ?_, fun j hj => ?_⟩
    · rw [inode_setSize, hin j]
    · simp only [iupdate, Function.update_of_ne hj]
      exact congrFun hdi j
  · refine ⟨fun j => ?_, fun j _ => congrFun hdi j⟩
    rw [hin j]

end

/-! ### Runs -/

/-- What is done to the inodes: `writei` and `itrunc` on inodes locked before. -/
inductive FileOp where
  | lock (i : Nat)
  | write (i : Nat) (src : List UInt8) (off : Nat)
  | trunc (i : Nat)

def fileStep (sb : Superblock) (fs : Volume) : FileOp → Option Volume
  | .lock i => (ilock fs i).toOption
  | .write i src off =>
    if (fs.inode i).valid then (writei sb fs i src off).toOption.map Prod.snd else none
  | .trunc i => if (fs.inode i).valid then (itrunc sb fs i).toOption else none

/-- `fs'` is reached from `fs` by operations that all return. -/
def FileRun (sb : Superblock) : Volume → Volume → Prop :=
  Run (fun fs op fs' => fileStep sb fs op = some fs') fun _ _ => True

theorem ilock_forest (h : ilock fs i = .ok fs') : fs'.forest = fs.forest ∧ fs'.disk = fs.disk := by
  rw [ilock] at h
  dsimp only at h
  split at h
  · cases h
  split at h
  · cases h; exact ⟨rfl, rfl⟩
  rename_i hv
  split at h
  · cases h
  cases h
  refine ⟨forest_congr (fun j => ?_) rfl, rfl⟩
  by_cases e : j = i
  · subst e; simp [Volume.current, Volume.setInode, hv]
  · simp [Volume.current, Volume.setInode, e]

theorem owned_step {op : FileOp} (ho : Owned sb fs) (hm : MetaUsed sb fs)
    (h : fileStep sb fs op = some fs') : Owned sb fs' ∧ MetaUsed sb fs' := by
  cases op with
  | lock i =>
    obtain ⟨hf, hd⟩ := ilock_forest (Support.toOption_eq_some.mp h)
    have hused (c : Nat) : fs'.used sb c = fs.used sb c := by rw [Volume.used, hd]; rfl
    exact ⟨ho.congr (fun q _ => by rw [hf]) fun c _ => hused c,
      fun c hc hlt => (hused c).trans (hm c hc hlt)⟩
  | write i src off =>
    rw [fileStep] at h
    split at h
    · rename_i hv
      obtain ⟨⟨n, fs₁⟩, hw, rfl⟩ := Option.map_eq_some_iff.mp h
      exact writei_owned ho hm hv (Support.toOption_eq_some.mp hw)
    · cases h
  | trunc i =>
    rw [fileStep] at h
    split at h
    · rename_i hv
      obtain ⟨fs₁, h₁, ho₁, hm₁, -⟩ := itrunc_spec ho hm hv
      rw [h₁] at h
      cases h
      exact ⟨ho₁, hm₁⟩
    · cases h

/-- **Block ownership over whole runs.**  From a volume in which it holds, with the bits of the
blocks below the first data block set, it holds after any operations on any inodes; and `itrunc`
of any inode then returns, so that `bfree` never panics. -/
theorem blocks_owned {fs₀ : Volume} (ho : Owned sb fs₀) (hm : MetaUsed sb fs₀)
    (r : FileRun sb fs₀ fs) :
    Owned sb fs ∧ ∀ i, (fs.inode i).valid = true → ∃ fs', itrunc sb fs i = .ok fs' := by
  have h : Owned sb fs ∧ MetaUsed sb fs := by
    refine Run.invariant (I := fun fs => Owned sb fs ∧ MetaUsed sb fs) ⟨ho, hm⟩ ?_ r
    exact fun fs op fs' h _ hs => owned_step h.1 h.2 hs
  refine ⟨h.1, fun i hv => ?_⟩
  obtain ⟨fs', h', -⟩ := itrunc_spec h.1 h.2 hv
  exact ⟨fs', h'⟩

end

/-! ### A volume with an empty file -/

/-- Inode 1 is a file with no blocks; the first block of the bitmap is `bits`, the others are 0. -/
def emptyVolume (bits : Bytes) : Volume where
  disk := fun b => if b = mkfsSb.bmapstart then bits else fun _ => 0
  dinode := fun i => ⟨if i = 1 then .file else .free, 0, 0, 1, 0, fun _ => 0⟩
  inode := fun _ => ⟨⟨.free, 0, 0, 0, 0, fun _ => 0⟩, 1, false⟩
  logged := []

/-- The bits of the 68 blocks `mkfs` marks used. -/
def metaBits : Bytes := fun j => if j < 8 then 0xFF else if j = 8 then 0x0F else 0

theorem used_emptyVolume (bits : Bytes) (b : Nat) : (emptyVolume bits).used mkfsSb b =
    (decide (b < BPB) && Support.getBit bits (b % BPB)) := by
  rw [Volume.used, Superblock.bblock, emptyVolume]
  by_cases h : b < BPB
  · simp [h, Nat.div_eq_of_lt h]
  · have hne : b / BPB ≠ 0 := by
      rw [Nat.div_ne_zero_iff]
      exact ⟨by decide, Nat.le_of_not_lt h⟩
    simp [h, hne, Support.getBit]

theorem get_emptyVolume (bits : Bytes) (q : Place) : (emptyVolume bits).forest.get q = 0 :=
  Support.Forest.follow_zero _ q.2

/-- With no bit set for a data block, the empty file owns what there is to own. -/
theorem owned_emptyVolume {bits : Bytes} (h : ∀ b, 68 ≤ b → b < BPB → Support.getBit bits b = false) :
    Owned mkfsSb (emptyVolume bits) := by
  refine ⟨fun q _ _ _ hne => absurd (get_emptyVolume bits q) hne,
    fun q _ hne => absurd (get_emptyVolume bits q) hne, fun b hle _ hu => ?_⟩
  rw [used_emptyVolume, Bool.and_eq_true, decide_eq_true_eq] at hu
  rw [Nat.mod_eq_of_lt hu.1, h b hle hu.1] at hu
  exact absurd hu.2 (by decide)

theorem getBit_metaBits {b : Nat} (h : 68 ≤ b) : Support.getBit metaBits b = false := by
  by_cases hlt : b < 72
  · interval_cases b <;> decide
  · have h₁ : ¬ b / 8 < 8 := by omega
    have h₂ : b / 8 ≠ 8 := by omega
    simp [Support.getBit, metaBits, h₁, h₂]

theorem metaUsed_emptyVolume : MetaUsed mkfsSb (emptyVolume metaBits) := by
  intro b hb _
  rw [used_emptyVolume]
  revert b
  decide

/-- The empty file is locked, written and truncated. -/
theorem blocks_owned_write : ∃ fs, FileRun mkfsSb (emptyVolume metaBits) fs ∧
    fs.forest.get ((1, 0), []) = 68 ∧ Owned mkfsSb fs ∧ ∃ fs', itrunc mkfsSb fs 1 = .ok fs' := by
  have ho : Owned mkfsSb (emptyVolume metaBits) := owned_emptyVolume fun b hb _ => getBit_metaBits hb
  obtain ⟨fs, r, hget, hv⟩ := Support.exists_run (fileStep mkfsSb) (fun _ _ => True)
    (emptyVolume metaBits) [.lock 1, .write 1 [7, 8, 9] 0]
    (fun fs => fs.forest.get ((1, 0), []) = 68 ∧ (fs.inode 1).valid = true) (by decide +kernel)
  obtain ⟨ho', ht⟩ := blocks_owned ho metaUsed_emptyVolume r
  exact ⟨fs, r, hget, ho', ht 1 hv⟩

/-- A clear bit below the first data block: ownership holds, and a write stores block 1, the
superblock, in the file. -/
theorem blocks_not_owned : ∃ bits, Owned mkfsSb (emptyVolume bits) ∧
    ∃ fs, FileRun mkfsSb (emptyVolume bits) fs ∧ fs.forest.get ((1, 0), []) = 1 ∧
      ¬ Owned mkfsSb fs := by
  let bits : Bytes := fun j => if j = 0 then 1 else 0
  have hbits (b : Nat) (hb : 68 ≤ b) : Support.getBit bits b = false := by
    have h₁ : b / 8 ≠ 0 := by omega
    simp only [Support.getBit, bits, if_neg h₁]
    simp
  obtain ⟨fs, r, hget⟩ := Support.exists_run (fileStep mkfsSb) (fun _ _ => True) (emptyVolume bits)
    [.lock 1, .write 1 [7, 8, 9] 0] (fun fs => fs.forest.get ((1, 0), []) = 1) (by decide +kernel)
  refine ⟨bits, owned_emptyVolume fun b hb _ => hbits b hb, fs, r, hget, fun ho => ?_⟩
  have hdata := ho.data ((1, 0), []) (Support.Forest.valid_nil shape _) (by rw [hget]; decide)
  rw [hget] at hdata
  exact absurd hdata.1 (by decide)

end Xv6.Fs
