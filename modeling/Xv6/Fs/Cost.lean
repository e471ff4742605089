import Xv6.Fs.Owner

/-!
# Fs — the blocks a write logs

How many different blocks one `writei` passes to `log_write`, in terms of the volume before it
(`writeCost`): the data blocks of the bytes written, the index blocks above the places that are
missing, the bitmap blocks of as many of the first free blocks as places are missing, and the
block of the inode when the file grows.

The places that are missing are those on the paths to the data blocks that hold no block yet;
`writei` fills exactly these (`filled_eq_missing`), with the first free blocks in order
(`Edits.freeBlocks`), and no two of the blocks counted are the same, by ownership.
-/

namespace Xv6.Fs

open Support.Forest (Valid Inner)

section

variable {sb : Superblock} {fs fs₁ fs' : Volume} {i : Nat} {N D : List Place}

/-! ### The places after edits -/

variable {b n off : Nat} {q p : Place}

namespace Edits

section

variable (e : Edits sb fs fs' N D) (ho : Owned sb fs) (hm : MetaUsed sb fs)
include e ho hm

/-- The places filled are listed once; they were empty, and they are not any more.  Every other
place is as it was. -/
theorem get : N.Nodup ∧ (∀ q ∈ N, Valid shape q ∧ fs.forest.get q = 0 ∧ fs'.forest.get q ≠ 0) ∧
    ∀ q, Valid shape q → q ∉ N → fs'.forest.get q = fs.forest.get q := by
  induction e with
  | refl => exact ⟨List.nodup_nil, List.forall_mem_nil _, fun _ _ _ => rfl⟩
  | @fill fs₁ fs₂ N D q b e h ih =>
    obtain ⟨hnd, hmem, hother⟩ := ih
    have hq : q ∉ N := fun hq => (hmem q hq).2.2 h.graft.empty
    refine ⟨List.nodup_cons.mpr ⟨hq, hnd⟩, fun p hp => ?_, fun p hp hpN => ?_⟩
    · rcases List.mem_cons.mp hp with rfl | hp
      · refine ⟨h.graft.valid, ?_, ?_⟩
        · rw [← hother p h.graft.valid hq, h.graft.empty]
        · rw [h.get_self]
          exact h.ne_zero
      · obtain ⟨h₁, h₂, h₃⟩ := hmem p hp
        exact ⟨h₁, h₂, by rw [h.get h₁ h₃]; exact h₃⟩
    · have hne : p ≠ q := fun e => hpN (e ▸ List.mem_cons_self)
      rw [h.graft.get p hp, if_neg hne, hother p hp fun h => hpN (List.mem_cons_of_mem q h)]
  | @data fs₁ N D q e hv hl hne v ih =>
    obtain ⟨hnd, hmem, hother⟩ := ih
    have hget {p : Place} (hp : Valid shape p) := get_write_data (e.owned ho hm).1 hv hl v hp
    refine ⟨hnd, fun p hp => ?_, fun p hp hpN => by rw [hget hp, hother p hp hpN]⟩
    obtain ⟨h₁, h₂, h₃⟩ := hmem p hp
    exact ⟨h₁, h₂, by rw [hget h₁]; exact h₃⟩

/-- A place that holds a block keeps it. -/
theorem get_of_ne_zero {q : Place} (hq : Valid shape q) (hne : fs.forest.get q ≠ 0) :
    fs'.forest.get q = fs.forest.get q := by
  obtain ⟨-, hmem, hother⟩ := e.get ho hm
  exact hother q hq fun h => hne (hmem q h).2.1

theorem data_mem {q : Place}
    (hq : q ∈ D) : Valid shape q ∧ ¬ Inner shape q ∧ fs'.forest.get q ≠ 0 := by
  induction e with
  | refl => cases hq
  | @fill fs₁ fs₂ N D p b e h ih =>
    obtain ⟨h₁, h₂, h₃⟩ := ih hq
    exact ⟨h₁, h₂, by rw [h.get h₁ h₃]; exact h₃⟩
  | @data fs₁ N D p e hv hl hne v ih =>
    have hget {p' : Place} (hp : Valid shape p') := get_write_data (e.owned ho hm).1 hv hl v hp
    rcases List.mem_cons.mp hq with rfl | hq
    · exact ⟨hv, hl, by rw [hget hv]; exact hne⟩
    · obtain ⟨h₁, h₂, h₃⟩ := ih hq
      exact ⟨h₁, h₂, by rw [hget h₁]; exact h₃⟩

end

end Edits

/-! ### What edits log -/

theorem mem_parent : p ∈ parent q ↔ ∃ x, q = (p.1, x :: p.2) := by
  obtain ⟨r, l⟩ := q
  cases l with
  | nil => simp [parent]
  | cons x l =>
    rw [parent, List.mem_singleton]
    constructor
    · rintro rfl
      exact ⟨x, rfl⟩
    · rintro ⟨y, h⟩
      cases h
      rfl

/-- The parent of a place is the place of an index block. -/
theorem inner_parent (hq : Valid shape q) (hp : p ∈ parent q) : Inner shape p := by
  obtain ⟨x, rfl⟩ := mem_parent.mp hp
  exact (Support.Forest.valid_cons.mp hq).1

theorem parent_ne_zero (hp : p ∈ parent q) (hne : fs.forest.get q ≠ 0) : fs.forest.get p ≠ 0 := by
  obtain ⟨x, rfl⟩ := mem_parent.mp hp
  exact Support.Forest.get_of_suffix (List.suffix_cons x p.2) hne

/-- The places whose blocks are logged. -/
def marks (N D : List Place) : List Place := D ++ N ++ N.flatMap parent

theorem mem_marks : p ∈ marks N D ↔ p ∈ D ∨ p ∈ N ∨ ∃ q ∈ N, p ∈ parent q := by
  simp [marks]

theorem Edits.mark (e : Edits sb fs fs' N D) (ho : Owned sb fs) (hm : MetaUsed sb fs)
    (hp : p ∈ marks N D) : Valid shape p ∧ fs'.forest.get p ≠ 0 := by
  obtain ⟨-, hmem, -⟩ := e.get ho hm
  rcases mem_marks.mp hp with hp | hp | ⟨q, hq, hp⟩
  · exact ⟨(e.data_mem ho hm hp).1, (e.data_mem ho hm hp).2.2⟩
  · exact ⟨(hmem p hp).1, (hmem p hp).2.2⟩
  · exact ⟨(inner_parent (hmem q hq).1 hp).valid, parent_ne_zero hp (hmem q hq).2.2⟩

theorem mem_marks_fill : p ∈ marks (q :: N) D ↔ p = q ∨ p ∈ parent q ∨ p ∈ marks N D := by
  simp only [mem_marks, List.mem_cons, exists_eq_or_imp]
  tauto

theorem mem_marks_data : p ∈ marks N (q :: D) ↔ p = q ∨ p ∈ marks N D := by
  simp only [mem_marks, List.mem_cons, or_assoc]

/-- **What edits log**: the blocks marked, and the bitmap blocks of those filled in. -/
theorem Edits.logged (e : Edits sb fs fs' N D) (ho : Owned sb fs) (hm : MetaUsed sb fs) (b : Nat) :
    b ∈ fs'.logged ↔ b ∈ fs.logged ∨ (∃ p ∈ marks N D, fs'.forest.get p = b) ∨
      ∃ q ∈ N, sb.bblock (fs'.forest.get q) = b := by
  induction e with
  | refl => simp [marks]
  | @fill fs₁ fs₂ N D q c e h ih =>
    have hc := h.get_self
    -- the blocks logged before are where they were
    have hstay {p : Place} (hp : p ∈ marks N D) : fs₂.forest.get p = fs₁.forest.get p :=
      h.get (e.mark ho hm hp).1 (e.mark ho hm hp).2
    have hpar {p : Place} (hp : p ∈ parent q) : fs₂.forest.get p = fs₁.forest.get p := by
      have hpq : p ≠ q := by
        rintro rfl
        obtain ⟨x, hx⟩ := mem_parent.mp hp
        exact absurd (congrArg (·.2.length) hx) (by simp)
      rw [h.graft.get p (inner_parent h.graft.valid hp).valid, if_neg hpq]
    have hmarks : (∃ p ∈ marks (q :: N) D, fs₂.forest.get p = b) ↔ c = b ∨
        (∃ p ∈ parent q, fs₁.forest.get p = b) ∨ ∃ p ∈ marks N D, fs₁.forest.get p = b := by
      simp only [mem_marks_fill, or_and_right, exists_or, exists_eq_left, hc]
      refine or_congr_right (or_congr ?_ ?_)
      · exact exists_congr fun p => and_congr_right fun hp => by rw [hpar hp]
      · exact exists_congr fun p => and_congr_right fun hp => by rw [hstay hp]
    have hbits : (∃ p ∈ q :: N, sb.bblock (fs₂.forest.get p) = b) ↔ sb.bblock c = b ∨
        ∃ p ∈ N, sb.bblock (fs₁.forest.get p) = b := by
      simp only [List.mem_cons, exists_eq_or_imp, hc]
      refine or_congr_right (exists_congr fun p => and_congr_right fun hp => ?_)
      rw [hstay (mem_marks.mpr (.inr (.inl hp)))]
    rw [h.logged, List.mem_append, List.mem_map, List.mem_cons, List.mem_cons, ih, hmarks, hbits,
      eq_comm (b := c), eq_comm (b := sb.bblock c)]
    generalize (∃ p ∈ parent q, fs₁.forest.get p = b) = A
    generalize (∃ p ∈ marks N D, fs₁.forest.get p = b) = M
    generalize (∃ p ∈ N, sb.bblock (fs₁.forest.get p) = b) = B
    refine Eq.to_iff ?_
    ac_rfl
  | @data fs₁ N D q e hv hl hne v ih =>
    have hget {p : Place} (hp : Valid shape p) := get_write_data (e.owned ho hm).1 hv hl v hp
    have hstay {p : Place} (hp : p ∈ marks N D) := hget (e.mark ho hm hp).1
    have hmarks : (∃ p ∈ marks N (q :: D), (fs₁.write (fs₁.forest.get q) v).forest.get p = b) ↔
        fs₁.forest.get q = b ∨ ∃ p ∈ marks N D, fs₁.forest.get p = b := by
      simp only [mem_marks_data, or_and_right, exists_or, exists_eq_left, hget hv]
      exact or_congr_right (exists_congr fun p => and_congr_right fun hp => by rw [hstay hp])
    have hbits : (∃ p ∈ N, sb.bblock ((fs₁.write (fs₁.forest.get q) v).forest.get p) = b) ↔
        ∃ p ∈ N, sb.bblock (fs₁.forest.get p) = b := by
      refine exists_congr fun p => and_congr_right fun hp => ?_
      rw [hstay (mem_marks.mpr (.inr (.inl hp)))]
    rw [write_logged, List.mem_cons, ih, hmarks, hbits, or_left_comm, eq_comm, or_assoc]

/-! ### The blocks taken -/

/-- The free blocks, in the order in which `balloc` takes them. -/
def Volume.freeBlocks (sb : Superblock) (fs : Volume) : List Nat :=
  (List.range sb.size).filter fun b => !fs.used sb b

/-- The first number of a range that passes a test, before the others that do. -/
theorem filter_range_first {f g : Nat → Bool} (hb : b < n) (hf : f b = true)
    (hfirst : ∀ c < b, f c = false) (hg : ∀ c < n, g c = (f c && !decide (c = b))) :
    (List.range n).filter f = b :: (List.range n).filter g := by
  obtain ⟨k, rfl⟩ : ∃ k, n = b + (k + 1) := ⟨n - b - 1, by omega⟩
  have hlow {f' : Nat → Bool} (h : ∀ c < b, f' c = false) : (List.range b).filter f' = [] :=
    List.filter_eq_nil_iff.mpr fun c hc => by simp [h c (List.mem_range.mp hc)]
  have hglow (c : Nat) (hc : c < b) : g c = false := by rw [hg c (by omega), hfirst c hc]; rfl
  have hgb : g b = false := by simp [hg b hb]
  rw [List.range_add, List.filter_append, List.filter_append, hlow hfirst, hlow hglow,
    List.nil_append, List.nil_append, List.range_succ_eq_map, List.map_cons, Nat.add_zero,
    List.filter_cons_of_pos hf, List.filter_cons_of_neg (by simp [hgb])]
  refine congrArg _ (List.filter_congr fun c hc => ?_)
  simp only [List.mem_map, List.mem_range] at hc
  obtain ⟨_, ⟨d, hd, rfl⟩, rfl⟩ := hc
  rw [hg _ (by omega)]
  simp

theorem Filled.freeBlocks (h : Filled sb fs fs' q b) :
    fs.freeBlocks sb = b :: fs'.freeBlocks sb := by
  refine filter_range_first h.lt (by simp [h.clear]) (fun c hc => by simp [h.first c hc])
    fun c hc => ?_
  rw [h.used c hc, Bool.not_or, Bool.and_comm]

/-- Edits fill the places with the first free blocks. -/
theorem Edits.freeBlocks (e : Edits sb fs fs' N D) (ho : Owned sb fs) (hm : MetaUsed sb fs) :
    fs.freeBlocks sb = N.reverse.map fs'.forest.get ++ fs'.freeBlocks sb := by
  induction e with
  | refl => rfl
  | @fill fs₁ fs₂ N D q b e h ih =>
    obtain ⟨-, hmem, -⟩ := e.get ho hm
    have hstay : N.reverse.map fs₁.forest.get = N.reverse.map fs₂.forest.get := by
      refine List.map_congr_left fun p hp => ?_
      obtain ⟨h₁, -, h₃⟩ := hmem p (List.mem_reverse.mp hp)
      exact (h.get h₁ h₃).symm
    have hq := h.get_self
    rw [ih, h.freeBlocks, hstay, List.reverse_cons, List.map_append, List.append_assoc]
    simp [hq]
  | @data fs₁ N D q e hv hl hne v ih =>
    obtain ⟨ho₁, -⟩ := e.owned ho hm
    obtain ⟨-, hmem, -⟩ := e.get ho hm
    have hstay : N.reverse.map fs₁.forest.get =
        N.reverse.map (fs₁.write (fs₁.forest.get q) v).forest.get := by
      refine List.map_congr_left fun p hp => ?_
      exact (get_write_data ho₁ hv hl v (hmem p (List.mem_reverse.mp hp)).1).symm
    have hfree : fs₁.freeBlocks sb = (fs₁.write (fs₁.forest.get q) v).freeBlocks sb := by
      refine List.filter_congr fun c hc => ?_
      rw [used_write v (ho₁.data q hv hne).1 (List.mem_range.mp hc)]
    rw [ih, hstay, hfree]

/-! ### The cost of a write -/

/-- The file blocks that the bytes `off, …, off + n - 1` of a file lie in. -/
def fileBlocks (off n : Nat) : List Nat :=
  if n = 0 then [] else List.range' (off / BSIZE) ((off + n - 1) / BSIZE + 1 - off / BSIZE)

/-- The places of these blocks. -/
def leaves (i off n : Nat) : Finset Place := ((fileBlocks off n).filterMap (placeOf i)).toFinset

/-- The place and those of the index blocks above it. -/
def upTo (q : Place) : Finset Place := (q.2.tails.map fun p => (q.1, p)).toFinset

/-- The places on the paths to these blocks that hold no block. -/
def Volume.missing (fs : Volume) (i off n : Nat) : Finset Place :=
  ((leaves i off n).biUnion upTo).filter fun q => fs.forest.get q = 0

/-- The places of the index blocks in which an entry is missing. -/
def Volume.indexes (fs : Volume) (i off n : Nat) : Finset Place :=
  (fs.missing i off n).biUnion fun q => (parent q).toFinset

/-- The bitmap blocks of the blocks that will be taken. -/
def Volume.bitmaps (sb : Superblock) (fs : Volume) (i off n : Nat) : Finset Nat :=
  (((fs.freeBlocks sb).take (fs.missing i off n).card).map sb.bblock).toFinset

/-- The blocks a write of `n` bytes at `off` logs: data, index, bitmap and inode. -/
def writeCost (sb : Superblock) (fs : Volume) (i off n : Nat) : Nat :=
  (leaves i off n).card + (fs.indexes i off n).card + (fs.bitmaps sb i off n).card +
    if (fs.current i).size < off + n then 1 else 0

theorem mem_fileBlocks {bn : Nat} :
    bn ∈ fileBlocks off n ↔ ∃ o, off ≤ o ∧ o < off + n ∧ o / BSIZE = bn := by
  rw [fileBlocks]
  split
  · rename_i h0
    constructor
    · intro h; cases h
    · rintro ⟨o, h₁, h₂, -⟩
      omega
  · rename_i h0
    rw [List.mem_range'_1]
    simp only [BSIZE]
    constructor
    · rintro ⟨h₁, h₂⟩
      exact ⟨max off (bn * 512), by omega, by omega, by omega⟩
    · rintro ⟨o, h₁, h₂, rfl⟩
      omega

theorem mem_leaves : q ∈ leaves i off n ↔
    ∃ o, off ≤ o ∧ o < off + n ∧ placeOf i (o / BSIZE) = some q := by
  rw [leaves, List.mem_toFinset, List.mem_filterMap]
  constructor
  · rintro ⟨bn, hbn, hq⟩
    obtain ⟨o, h₁, h₂, rfl⟩ := mem_fileBlocks.mp hbn
    exact ⟨o, h₁, h₂, hq⟩
  · rintro ⟨o, h₁, h₂, hq⟩
    exact ⟨o / BSIZE, mem_fileBlocks.mpr ⟨o, h₁, h₂, rfl⟩, hq⟩

theorem Spans.leaves (h : Spans i off n N D) (q : Place) : q ∈ D ↔ q ∈ leaves i off n := by
  rw [h.data, mem_leaves]

theorem mem_upTo : p ∈ upTo q ↔ p.1 = q.1 ∧ p.2 <:+ q.2 := by
  rw [upTo, List.mem_toFinset, List.mem_map]
  constructor
  · rintro ⟨s, hs, rfl⟩
    exact ⟨rfl, (List.mem_tails _ _).mp hs⟩
  · rintro ⟨h₁, h₂⟩
    exact ⟨p.2, (List.mem_tails _ _).mpr h₂, Prod.ext h₁.symm rfl⟩

theorem mem_missing : p ∈ fs.missing i off n ↔
    (∃ q ∈ leaves i off n, p.1 = q.1 ∧ p.2 <:+ q.2) ∧ fs.forest.get p = 0 := by
  rw [Volume.missing, Finset.mem_filter, Finset.mem_biUnion]
  simp only [mem_upTo]

theorem mem_indexes : p ∈ fs.indexes i off n ↔ ∃ q ∈ fs.missing i off n, p ∈ parent q := by
  simp [Volume.indexes]

/-- A proper suffix can be made longer. -/
theorem cons_suffix {p l : List Nat} (h : p <:+ l) (hlt : p.length < l.length) :
    ∃ x, x :: p <:+ l := by
  obtain ⟨t, rfl⟩ := h
  rcases List.eq_nil_or_concat t with rfl | ⟨t, x, rfl⟩
  · exact absurd hlt (by simp)
  · exact ⟨x, t, by simp⟩

section

variable (e : Edits sb fs fs' N D) (ho : Owned sb fs) (hm : MetaUsed sb fs) (hs : Spans i off n N D)
include e ho hm hs

/-- **The places filled** by the edits of a write are those missing before it. -/
theorem filled_eq_missing : N.toFinset = fs.missing i off n := by
  obtain ⟨-, hmem, hother⟩ := e.get ho hm
  ext p
  rw [List.mem_toFinset, mem_missing]
  constructor
  · intro hp
    obtain ⟨q, hq, hpq⟩ := hs.above p hp
    exact ⟨⟨q, (hs.leaves q).mp hq, hpq⟩, (hmem p hp).2.1⟩
  rintro ⟨⟨q, hq, h₁, h₂⟩, h0⟩
  obtain ⟨hv, -, hne⟩ := e.data_mem ho hm ((hs.leaves q).mpr hq)
  obtain ⟨r, p⟩ := p
  obtain ⟨r', l⟩ := q
  cases h₁
  -- the place above a block written is not empty
  have hp : fs'.forest.get (r, p) ≠ 0 := Support.Forest.get_of_suffix h₂ hne
  have hpv : Valid shape (r, p) := ⟨h₂.length_le.trans hv.1, fun x hx => hv.2 x (h₂.subset hx)⟩
  by_contra hpN
  exact hp ((hother _ hpv hpN).trans h0)

/-- The blocks marked are the data blocks and the index blocks counted. -/
theorem marks_eq : (marks N D).toFinset = leaves i off n ∪ fs.indexes i off n := by
  have hmiss := filled_eq_missing e ho hm hs
  obtain ⟨-, hmem, -⟩ := e.get ho hm
  ext p
  rw [List.mem_toFinset, mem_marks, Finset.mem_union, mem_indexes, ← hmiss, hs.leaves]
  simp only [List.mem_toFinset]
  constructor
  · rintro (hp | hp | hp)
    · exact .inl hp
    · obtain ⟨q, hq, h₁, h₂⟩ := hs.above p hp
      by_cases hlt : p.2.length < q.2.length
      · -- an index block that is missing misses the entry on the path
        obtain ⟨x, hx⟩ := cons_suffix h₂ hlt
        refine .inr ⟨(p.1, x :: p.2), ?_, mem_parent.mpr ⟨x, rfl⟩⟩
        rw [← List.mem_toFinset, hmiss, mem_missing]
        refine ⟨⟨q, (hs.leaves q).mp hq, h₁, hx⟩, ?_⟩
        rw [Support.Forest.get_cons, if_pos (hmem p hp).2.1]
      · have he : p.2 = q.2 := h₂.eq_of_length (Nat.le_antisymm h₂.length_le (Nat.le_of_not_lt hlt))
        exact .inl ((Prod.ext h₁ he : p = q) ▸ (hs.leaves q).mp hq)
    · exact .inr hp
  · rintro (hp | hp)
    · exact .inl hp
    · exact .inr (.inr hp)

/-- The bitmap blocks of the places filled are those of the first free blocks. -/
theorem bitmaps_eq (b : Nat) :
    b ∈ fs.bitmaps sb i off n ↔ ∃ q ∈ N, sb.bblock (fs'.forest.get q) = b := by
  have hlen : (fs.missing i off n).card = (N.reverse.map fs'.forest.get).length := by
    rw [← filled_eq_missing e ho hm hs, List.toFinset_card_of_nodup (e.get ho hm).1, List.length_map,
      List.length_reverse]
  rw [Volume.bitmaps, e.freeBlocks ho hm, hlen, List.take_left, List.mem_toFinset, List.map_map,
    List.mem_map]
  simp only [List.mem_reverse, Function.comp_apply]

/-- **The edits of a write** log as many blocks as were counted before it. -/
theorem edits_cost (hl : fs.logged = []) : (∀ b ∈ fs'.logged, sb.bmapstart ≤ b) ∧ fs'.logged.toFinset.card =
      (leaves i off n).card + (fs.indexes i off n).card + (fs.bitmaps sb i off n).card := by
  have hmarks := marks_eq e ho hm hs
  obtain ⟨ho', -⟩ := e.owned ho hm
  have hmark {p : Place} (hp : p ∈ leaves i off n ∪ fs.indexes i off n) :=
    e.mark ho hm (List.mem_toFinset.mp (hmarks ▸ hp))
  have hset : fs'.logged.toFinset =
      (leaves i off n ∪ fs.indexes i off n).image fs'.forest.get ∪ fs.bitmaps sb i off n := by
    ext b
    rw [List.mem_toFinset, e.logged ho hm, hl, Finset.mem_union, Finset.mem_image, ← hmarks,
      bitmaps_eq e ho hm hs]
    simp
  -- the bitmap lies below the data blocks
  have hlow {b : Nat} (hb : b ∈ fs.bitmaps sb i off n) : sb.bmapstart ≤ b ∧ b < sb.nmeta := by
    obtain ⟨q, hq, rfl⟩ := (bitmaps_eq e ho hm hs b).mp hb
    obtain ⟨hv, -, hne⟩ := (e.get ho hm).2.1 q hq
    exact ⟨bmapstart_le_bblock sb _, bblock_lt_nmeta (ho'.data q hv hne).2.1⟩
  have hhigh {b : Nat} (hb : b ∈ (leaves i off n ∪ fs.indexes i off n).image fs'.forest.get) :
      sb.nmeta ≤ b := by
    obtain ⟨p, hp, rfl⟩ := Finset.mem_image.mp hb
    exact (ho'.data p (hmark hp).1 (hmark hp).2).1
  constructor
  · intro b hb
    rw [← List.mem_toFinset, hset, Finset.mem_union] at hb
    rcases hb with hb | hb
    · exact (Nat.le_add_right _ _).trans (hhigh hb)
    · exact (hlow hb).1
  · have hdisj : Disjoint ((leaves i off n ∪ fs.indexes i off n).image fs'.forest.get)
        (fs.bitmaps sb i off n) :=
      Finset.disjoint_left.mpr fun b hb hb' => absurd (hhigh hb) (Nat.not_le_of_lt (hlow hb').2)
    have hinj : Set.InjOn fs'.forest.get ↑(leaves i off n ∪ fs.indexes i off n) := by
      intro p hp q hq h
      have hp := hmark (Finset.mem_coe.mp hp)
      exact ho'.inj p q hp.1 (hmark (Finset.mem_coe.mp hq)).1 hp.2 h
    have hdisj' : Disjoint (leaves i off n) (fs.indexes i off n) := by
      refine Finset.disjoint_left.mpr fun p hp hp' => ?_
      obtain ⟨q, hq, hpq⟩ := mem_indexes.mp hp'
      rw [← filled_eq_missing e ho hm hs, List.mem_toFinset] at hq
      exact (e.data_mem ho hm ((hs.leaves p).mpr hp)).2.1 (inner_parent ((e.get ho hm).2.1 q hq).1 hpq)
    rw [hset, Finset.card_union_of_disjoint hdisj, Finset.card_image_of_injOn hinj,
      Finset.card_union_of_disjoint hdisj']

end

/-- **The cost of a write**: the blocks `writei` logs, counted in the volume before it. -/
theorem writei_cost {src : List UInt8} {r : Int} (ho : Owned sb fs)
    (hm : MetaUsed sb fs) (hv : (fs.inode i).valid = true) (hi : i < sb.ninodes)
    (hl : fs.logged = []) (h : writei sb fs i src off = .ok (r, fs')) :
    fs'.logged.toFinset.card =
      if Accepted fs i src.length off then writeCost sb fs i off src.length else 0 := by
  rcases writei_spec ho hm hv h with ⟨hna, rfl, -⟩ | ⟨ha, fs₁, N, D, e, hs, hfs'⟩
  · rw [if_neg hna, hl]
    rfl
  obtain ⟨hmap, hcard⟩ := edits_cost e ho hm hs hl
  have hcur : (fs.current i).size = (fs.inode i).size := by rw [current_of_valid hv]
  rw [if_pos ha, writeCost, hcur, ← hcard, hfs']
  have hgrow : (0 < src.length ∧ (fs.inode i).size < off + src.length) ↔
      (fs.inode i).size < off + src.length :=
    ⟨And.right, fun h => ⟨by have := ha.2.1; rw [hcur] at this; omega, h⟩⟩
  simp only [hgrow]
  split
  · have hnot : sb.iblock i ∉ fs₁.logged.toFinset := by
      intro hmem
      exact absurd (hmap _ (List.mem_toFinset.mp hmem)) (Nat.not_le_of_lt (iblock_lt_bmapstart hi))
    change (sb.iblock i :: fs₁.logged).toFinset.card = _
    rw [List.toFinset_cons, Finset.card_insert_of_notMem hnot]
  · rfl

end

end Xv6.Fs
