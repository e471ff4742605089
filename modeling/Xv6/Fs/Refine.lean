import Xv6.Fs.Content
import Xv6.Fs.Cost
import Xv6.Fs.Lookup

/-!
# Fs — the blocks of a file hold its bytes

A file is an array of bytes (`Volume.content`), cut into blocks that are found through the block
map.  `writei` and `readi` on the volume do to this array what `Content.writei` and `Content.readi`
do, and leave the arrays of all other inodes alone.

Two things are needed for that.  The walk to a block always ends: a place on the path is filled, or
there is a free block to fill it with (`Room`, `writeLoop_returns`).  And a write reaches the bytes
it is meant for and no others (`Wrote`): allocation leaves data blocks as they are, every block is
at one place, and below the triple region every file block has a place of its own (`placeOf_inj`).

* `content_refined`: `writei` and `readi` refine the operations on the array.
-/

namespace Xv6.Fs

open Support (bind_ok putBytes)
open Support.Forest (Valid Inner)

section

variable {sb : Superblock} {fs fs₁ fs' : Volume} {i j bn : Nat} {N D : List Place}

/-! ### Room for what is missing -/

variable {n off fuel a : Nat} {q : Place} {r : Root} {p : List Nat} {src : List UInt8}

theorem findFree_none {b : Nat} (h : findFree sb fs n b = none) {c : Nat} (hb : b ≤ c)
    (hc : c < b + n) : fs.used sb c = true := by
  induction n generalizing b with
  | zero => omega
  | succ n ih =>
    rw [findFree] at h
    split at h
    · rename_i hu
      rcases Nat.eq_or_lt_of_le hb with rfl | hb
      · exact hu
      · exact ih h hb (by omega)
    · cases h

theorem balloc_returns (h : fs.freeBlocks sb ≠ []) : ∃ b fs', balloc sb fs = .ok (b, fs') := by
  rw [balloc]
  split
  · rename_i hnone
    refine absurd (List.filter_eq_nil_iff.mpr fun c hc => ?_) h
    have hused := findFree_none hnone (Nat.zero_le c) (by simpa using List.mem_range.mp hc)
    simp [hused]
  · exact ⟨_, _, rfl⟩

/-- The places of `S` that hold no block. -/
def Volume.emptyOf (fs : Volume) (S : Finset Place) : Finset Place :=
  S.filter fun q => fs.forest.get q = 0

/-- There is a free block for each of the places `S` that holds none. -/
def Room (sb : Superblock) (fs : Volume) (S : Finset Place) : Prop :=
  (fs.emptyOf S).card ≤ (fs.freeBlocks sb).length

variable {S : Finset Place}

theorem Room.free (h : Room sb fs S) (hq : q ∈ S) (h0 : fs.forest.get q = 0) :
    fs.freeBlocks sb ≠ [] := by
  have hpos : 0 < (fs.emptyOf S).card := Finset.card_pos.mpr ⟨q, Finset.mem_filter.mpr ⟨hq, h0⟩⟩
  exact List.ne_nil_of_length_pos (Nat.lt_of_lt_of_le hpos h)

/-- A place filled takes one block, and was one of those missing. -/
theorem Room.edits (h : Room sb fs S) (e : Edits sb fs fs' N D) (ho : Owned sb fs)
    (hm : MetaUsed sb fs) (hS : ∀ q ∈ S, Valid shape q) (hN : ∀ q ∈ N, q ∈ S) : Room sb fs' S := by
  obtain ⟨hnd, hmem, hother⟩ := e.get ho hm
  have hlen := congrArg List.length (e.freeBlocks ho hm)
  rw [List.length_append, List.length_map, List.length_reverse] at hlen
  have hempty : fs'.emptyOf S = fs.emptyOf S \ N.toFinset := by
    ext q
    rw [Finset.mem_sdiff, Volume.emptyOf, Volume.emptyOf, Finset.mem_filter, Finset.mem_filter,
      List.mem_toFinset, and_assoc]
    refine and_congr_right fun hq => ?_
    by_cases hqN : q ∈ N
    · simp [hqN, (hmem q hqN).2.2]
    · simp [hqN, hother q (hS q hq) hqN]
  have hsub : N.toFinset ⊆ fs.emptyOf S := by
    intro q hq
    have hq := List.mem_toFinset.mp hq
    exact Finset.mem_filter.mpr ⟨hN q hq, (hmem q hq).2.1⟩
  have hcard := Finset.card_sdiff_add_card_eq_card hsub
  rw [List.toFinset_card_of_nodup hnd] at hcard
  rw [Room] at h ⊢
  rw [hempty]
  omega

/-! ### The walk returns -/

theorem rootEntry_returns (hR : Room sb fs S) (hv : (fs.inode i).valid = true)
    {r : Fin (NDIRECT + 3)} (hr : ((i, r), []) ∈ S) :
    ∃ a fs', rootEntry sb fs i r = .ok (a, fs') := by
  rw [rootEntry]
  split
  · rename_i h0
    have hroot : fs.forest.get ((i, r), []) = (fs.inode i).addrs r :=
      congrArg (·.addrs r) (current_of_valid hv)
    obtain ⟨b, fs', hb⟩ := balloc_returns (hR.free hr (hroot.trans h0))
    exact ⟨_, _, bind_ok.mpr ⟨(b, fs'), hb, rfl⟩⟩
  · exact ⟨_, _, rfl⟩

theorem indexEntry_returns (hR : Room sb fs S) {x : Nat}
    (hx : x < NINDIRECT) (hne : fs.forest.get (r, p) ≠ 0) (hS : (r, x :: p) ∈ S) :
    ∃ a fs', indexEntry sb fs (fs.forest.get (r, p)) x = .ok (a, fs') := by
  rw [indexEntry, if_neg (Nat.not_le_of_lt hx)]
  split
  · rename_i h0
    have hget : fs.forest.get (r, x :: p) = 0 := by
      rw [Support.Forest.get_cons, if_neg hne]
      exact h0
    obtain ⟨b, fs', hb⟩ := balloc_returns (hR.free hS hget)
    exact ⟨_, _, bind_ok.mpr ⟨(b, fs'), hb, rfl⟩⟩
  · exact ⟨_, _, rfl⟩

section

variable (hS : ∀ q ∈ S, Valid shape q) (hR : Room sb fs S) (ho : Owned sb fs) (hm : MetaUsed sb fs)
include hS hR ho hm

theorem walk_returns {xs : List Nat} (hne : fs.forest.get (r, p) ≠ 0)
    (hpath : ∀ s, s <:+ xs.reverse ++ p → (r, s) ∈ S) :
    ∃ a fs', walk sb xs (fs.forest.get (r, p)) fs = .ok (a, fs') := by
  induction xs generalizing fs p with
  | nil => exact ⟨_, _, rfl⟩
  | cons x xs ih =>
    have hrev : (x :: xs).reverse ++ p = xs.reverse ++ x :: p := by simp
    rw [hrev] at hpath
    have hxp : (r, x :: p) ∈ S := hpath _ (List.suffix_append _ _)
    have hi : Inner shape (r, p) := (Support.Forest.valid_cons.mp (hS _ hxp)).1
    have hx : x < NINDIRECT := (Support.Forest.valid_cons.mp (hS _ hxp)).2
    obtain ⟨b, fs₁, hb⟩ := indexEntry_returns hR hx hne hxp
    obtain ⟨-, rfl, hb0, -, ho₁, hm₁, N, e, hN⟩ := indexEntry_spec ho hm hi hne hb
    have hR₁ : Room sb fs₁ S := hR.edits e ho hm hS fun q hq => hN q hq ▸ hxp
    obtain ⟨a, fs', hw⟩ := ih hR₁ ho₁ hm₁ hb0 hpath
    exact ⟨a, fs', bind_ok.mpr ⟨_, hb, hw⟩⟩

/-- **`bmap` returns** when there is room for the places on the path to the block. -/
theorem bmap_returns (hv : (fs.inode i).valid = true)
    (hq : placeOf i bn = some q) (hup : ∀ p ∈ upTo q, p ∈ S) :
    ∃ a fs', bmap sb fs i bn = .ok (a, fs') := by
  rw [placeOf] at hq
  obtain ⟨⟨r, xs⟩, hpath, rfl⟩ := Option.map_eq_some_iff.mp hq
  have hroot : ((i, r), []) ∈ S := hup _ (mem_upTo.mpr ⟨rfl, List.nil_suffix⟩)
  obtain ⟨b, fs₁, hb⟩ := rootEntry_returns hR hv hroot
  obtain ⟨rfl, hb0, -, ho₁, hm₁, N, e, hN⟩ := rootEntry_spec ho hm hv hb
  have hR₁ : Room sb fs₁ S := hR.edits e ho hm hS fun q hq => hN q hq ▸ hroot
  have hsuf (s : List Nat) (hs : s <:+ xs.reverse ++ []) : ((i, r), s) ∈ S :=
    hup _ (mem_upTo.mpr ⟨rfl, by simpa using hs⟩)
  obtain ⟨a, fs', hw⟩ := walk_returns (r := (i, r)) hS hR₁ ho₁ hm₁ hb0 hsuf
  refine ⟨a, fs', ?_⟩
  rw [bmap, hpath]
  exact bind_ok.mpr ⟨(fs₁.forest.get ((i, r), []), fs₁), hb, hw⟩

/-- **The loop of `writei` returns** when there is room for the paths to all its blocks. -/
theorem writeLoop_returns (hv : (fs.inode i).valid = true)
    (hpaths : ∀ o, off ≤ o → o < off + src.length →
      ∃ q, placeOf i (o / BSIZE) = some q ∧ ∀ p ∈ upTo q, p ∈ S) :
    ∃ fs', writeLoop sb i fuel off src fs = .ok fs' := by
  induction fuel generalizing fs off src with
  | zero => exact ⟨fs, rfl⟩
  | succ fuel ih =>
    rw [writeLoop]
    split
    · exact ⟨fs, rfl⟩
    rename_i h0
    obtain ⟨q, hq, hup⟩ := hpaths off (Nat.le_refl off) (by omega)
    obtain ⟨a, fs₁, hb⟩ := bmap_returns hS hR ho hm hv hq hup
    obtain ⟨q₀, hq₀, hval, hleaf, rfl, ha0, -, N, e, hN⟩ := bmap_spec ho hm hv hb
    obtain rfl : q₀ = q := Option.some.inj (hq₀.symm.trans hq)
    have e₂ := Edits.data e hval hleaf ha0 (putBytes (fs₁.disk (fs₁.forest.get q₀))
      (off % BSIZE) (src.take (min src.length (BSIZE - off % BSIZE))))
    obtain ⟨ho₂, hm₂⟩ := e₂.owned ho hm
    have hR₂ := hR.edits e₂ ho hm hS fun p hp => hup p (mem_upTo.mpr (hN p hp))
    have hml := Nat.min_le_left src.length (BSIZE - off % BSIZE)
    have hpaths₂ (o : Nat) (h₁ : off + min src.length (BSIZE - off % BSIZE) ≤ o)
        (h₂ : o < off + min src.length (BSIZE - off % BSIZE) +
          (src.drop (min src.length (BSIZE - off % BSIZE))).length) :
        ∃ q, placeOf i (o / BSIZE) = some q ∧ ∀ p ∈ upTo q, p ∈ S := by
      rw [List.length_drop] at h₂
      exact hpaths o (by omega) (by omega)
    obtain ⟨fs', hl⟩ := ih hR₂ ho₂ hm₂ (by rw [e₂.valid, hv]) hpaths₂
    exact ⟨fs', bind_ok.mpr ⟨_, hb, hl⟩⟩

end

/-! ### The places of file blocks -/

/-- The file blocks below the triple region. -/
abbrev DOUBLE : Nat := NDIRECT + NINDIRECT + NINDIRECT * NINDIRECT

/-- The block is in the block map of the inode. -/
def Volume.Mapped (fs : Volume) (i bn : Nat) : Prop :=
  ∃ q, placeOf i bn = some q ∧ Valid shape q ∧ fs.forest.get q ≠ 0

theorem not_inner_placeOf (h : placeOf i bn = some q) : ¬ Inner shape q := by
  obtain ⟨⟨r, xs⟩, hpath, rfl⟩ := Option.map_eq_some_iff.mp h
  rintro ⟨hlt, -⟩
  change xs.reverse.length < rootDepth r at hlt
  rw [List.length_reverse, bmapPath_length hpath] at hlt
  exact Nat.lt_irrefl _ hlt

/-- Below the triple region every file block has a place. -/
theorem placeOf_valid (i : Nat) (h : bn < DOUBLE) : ∃ q, placeOf i bn = some q ∧ Valid shape q := by
  simp only [DOUBLE, NDIRECT, NINDIRECT, BSIZE] at h
  rw [placeOf, bmapPath]
  split
  · exact ⟨_, rfl, Support.Forest.valid_nil shape _⟩
  dsimp only
  split
  · rename_i hlt
    refine ⟨_, rfl, Nat.le_refl _, fun x hx => ?_⟩
    rw [List.mem_singleton.mp hx]
    exact hlt
  · split
    · rename_i hlt
      refine ⟨_, rfl, Nat.le_refl _, fun x hx => ?_⟩
      rcases List.mem_cons.mp (List.mem_reverse.mp hx) with rfl | hx
      · exact Nat.div_lt_of_lt_mul hlt
      · rw [List.mem_singleton.mp hx]
        exact Nat.mod_lt _ (by decide)
    · rename_i h₁ h₂ h₃
      simp only [NDIRECT, NINDIRECT, BSIZE] at h₁ h₂ h₃
      omega

/-- The file block a place below the triple region belongs to. -/
def blockOf (q : Place) : Nat :=
  match q.2 with
  | [] => q.1.2
  | [x] => NDIRECT + x
  | y :: x :: _ => NDIRECT + NINDIRECT + (NINDIRECT * x + y)

theorem blockOf_placeOf (hq : placeOf i bn = some q) (hr : q.1.2.val < NDIRECT + 2) :
    blockOf q = bn ∧ q.1.1 = i := by
  obtain ⟨⟨r, xs⟩, hpath, rfl⟩ := Option.map_eq_some_iff.mp hq
  refine ⟨?_, rfl⟩
  rw [bmapPath] at hpath
  split at hpath
  · cases hpath; rfl
  dsimp only at hpath
  split at hpath
  · cases hpath
    change NDIRECT + (bn - NDIRECT) = bn
    omega
  split at hpath
  · cases hpath
    change NDIRECT + NINDIRECT + (NINDIRECT * ((bn - NDIRECT - NINDIRECT) / NINDIRECT) +
      (bn - NDIRECT - NINDIRECT) % NINDIRECT) = bn
    rw [Nat.div_add_mod]
    omega
  · split at hpath
    · cases hpath
      exact absurd hr (Nat.lt_irrefl (NDIRECT + 2))
    · cases hpath

theorem root_placeOf (hq : placeOf i bn = some q) (h : bn < DOUBLE) : q.1.2.val < NDIRECT + 2 := by
  obtain ⟨⟨r, xs⟩, hpath, rfl⟩ := Option.map_eq_some_iff.mp hq
  rw [bmapPath] at hpath
  simp only [DOUBLE] at h
  split at hpath
  · rename_i hlt
    cases hpath
    exact Nat.lt_of_lt_of_le hlt (by decide)
  dsimp only at hpath
  split at hpath
  · cases hpath
    exact Nat.lt_add_of_pos_right (by decide)
  · split at hpath
    · cases hpath
      exact Nat.lt_succ_self (NDIRECT + 1)
    · omega

/-- **No two file blocks share a place**, when one of them lies below the triple region. -/
theorem placeOf_inj {bn' : Nat} (h : bn < DOUBLE) (hq : placeOf i bn = some q)
    (hq' : placeOf j bn' = some q) : j = i ∧ bn' = bn := by
  have hr := root_placeOf hq h
  obtain ⟨h₁, h₂⟩ := blockOf_placeOf hq hr
  obtain ⟨h₁', h₂'⟩ := blockOf_placeOf hq' hr
  exact ⟨h₂'.symm.trans h₂, h₁'.symm.trans h₁⟩

/-! ### What a write does to the bytes -/

/-- The bytes `src` stand at `off` in file `i`, and every other byte of every file is as it
was. -/
structure Wrote (fs fs' : Volume) (i off : Nat) (src : List UInt8) : Prop where
  mapped : ∀ j bn, fs.Mapped j bn → fs'.Mapped j bn
  inside : ∀ k < src.length, fs'.Mapped i ((off + k) / BSIZE)
  bytes : ∀ k < src.length, fs'.byteAt i (off + k) = src.getD k 0
  frame : ∀ j o, fs.Mapped j (o / BSIZE) → ¬ (j = i ∧ off ≤ o ∧ o < off + src.length) →
    fs'.byteAt j o = fs.byteAt j o

theorem wrote_nil (fs : Volume) (i off : Nat) : Wrote fs fs i off [] :=
  ⟨fun _ _ => id, fun _ hk => absurd hk (Nat.not_lt_zero _),
    fun _ hk => absurd hk (Nat.not_lt_zero _), fun _ _ _ _ => rfl⟩

/-- A write in two parts. -/
theorem Wrote.append {src' : List UInt8} (h : Wrote fs fs₁ i off src)
    (h' : Wrote fs₁ fs' i (off + src.length) src') : Wrote fs fs' i off (src ++ src') := by
  refine ⟨fun j bn hj => h'.mapped j bn (h.mapped j bn hj), fun k hk => ?_, fun k hk => ?_,
    fun j o hj ho => ?_⟩
  · rw [List.length_append] at hk
    by_cases hlt : k < src.length
    · exact h'.mapped _ _ (h.inside k hlt)
    · have hin := h'.inside (k - src.length) (by omega)
      rwa [show off + src.length + (k - src.length) = off + k by omega] at hin
  · rw [List.length_append] at hk
    by_cases hlt : k < src.length
    · rw [h'.frame i (off + k) (h.inside k hlt) (by omega), h.bytes k hlt,
        List.getD_append _ _ _ _ hlt]
    · have hb := h'.bytes (k - src.length) (by omega)
      rw [show off + src.length + (k - src.length) = off + k by omega] at hb
      rw [hb, List.getD_append_right _ _ _ _ (Nat.le_of_not_lt hlt)]
  · rw [List.length_append] at ho
    rw [h'.frame j o (h.mapped _ _ hj) (by omega), h.frame j o hj (by omega)]

/-- **One round of the loop of `writei`.**  The block written is at one place, and the place
belongs to one file block. -/
theorem wrote_round (ho : Owned sb fs) (hm : MetaUsed sb fs)
    (hv : (fs.inode i).valid = true) (hbn : off / BSIZE < DOUBLE)
    (hlen : src.length ≤ BSIZE - off % BSIZE) (hb : bmap sb fs i (off / BSIZE) = .ok (a, fs₁)) :
    Wrote fs (fs₁.write a (putBytes (fs₁.disk a) (off % BSIZE) src)) i off src := by
  obtain ⟨q, hq, hval, hleaf, rfl, ha0, hstay, N, e, -⟩ := bmap_spec ho hm hv hb
  obtain ⟨ho₁, -⟩ := e.owned ho hm
  have hget {p : Place} (hp : Valid shape p) := get_write_data ho₁ hval hleaf
    (putBytes (fs₁.disk (fs₁.forest.get q)) (off % BSIZE) src) hp
  have hmod := Nat.mod_lt off (show 0 < BSIZE by decide)
  have hround {k : Nat} (hk : k < src.length) : (off + k) / BSIZE = off / BSIZE ∧
      (off + k) % BSIZE = off % BSIZE + k := by
    simp only [BSIZE] at *
    omega
  refine ⟨fun j bn => ?_, fun k hk => ?_, fun k hk => ?_, fun j o => ?_⟩
  · rintro ⟨p, hp, hpv, hp0⟩
    refine ⟨p, hp, hpv, ?_⟩
    rw [hget hpv, (hstay p hpv hp0).1]
    exact hp0
  · rw [(hround hk).1]
    exact ⟨q, hq, hval, by rw [hget hval]; exact ha0⟩
  · rw [byteAt_of_place (by rw [(hround hk).1]; exact hq), hget hval, write_disk_self,
      (hround hk).2, putBytes, if_pos ⟨Nat.le_add_right _ _, Nat.add_lt_add_left hk _⟩,
      Nat.add_sub_cancel_left]
  rintro ⟨p, hp, hpv, hp0⟩ hout
  obtain ⟨hp₁, hdisk⟩ := hstay p hpv hp0
  rw [byteAt_of_place hp, byteAt_of_place hp, hget hpv, ← hdisk (not_inner_placeOf hp), ← hp₁]
  by_cases hpq : p = q
  · -- the same block of the same file, but not one of the bytes written
    subst hpq
    obtain ⟨rfl, hbo⟩ := placeOf_inj hbn hq hp
    rw [write_disk_self, putBytes, if_neg]
    intro hin
    refine hout ⟨rfl, ?_⟩
    simp only [BSIZE] at *
    omega
  · have hne : fs₁.forest.get p ≠ fs₁.forest.get q := by
      intro heq
      exact hpq (ho₁.inj p q hpv hval (hp₁ ▸ hp0) heq)
    rw [write_disk_of_ne _ hne]

/-- **The loop of `writei`** writes the bytes it is given at the offset it is given. -/
theorem writeLoop_wrote (ho : Owned sb fs)
    (hm : MetaUsed sb fs) (hv : (fs.inode i).valid = true) (hfuel : src.length ≤ fuel)
    (hend : off + src.length ≤ DOUBLE * BSIZE)
    (h : writeLoop sb i fuel off src fs = .ok fs') : Wrote fs fs' i off src := by
  refine writeLoop_induction
    (P := fun fs off src => off + src.length ≤ DOUBLE * BSIZE → Wrote fs fs' i off src)
    (fun off _ => wrote_nil _ _ _) (fun fs fs₁ off a x y ho hm hv hb h0 hx ih hend => ?_)
    ho hm hv hfuel h hend
  rw [List.length_append] at hend
  have hbn : off / BSIZE < DOUBLE := by
    simp only [DOUBLE, NDIRECT, NINDIRECT, BSIZE] at *
    omega
  exact (wrote_round ho hm hv hbn hx hb).append (ih (by omega))

/-! ### The content of a file -/

/-- The bytes of the file, up to its size. -/
def Volume.content (fs : Volume) (i : Nat) : Content :=
  (List.range (fs.current i).size).map (fs.byteAt i)

@[simp] theorem length_content (fs : Volume) (i : Nat) :
    (fs.content i).length = (fs.current i).size := by
  simp [Volume.content]

theorem getElem_content {o : Nat} (h : o < (fs.content i).length) :
    (fs.content i)[o] = fs.byteAt i o := by
  simp [Volume.content]

theorem byteAt_congr (hf : fs'.forest = fs.forest) (hd : fs'.disk = fs.disk) (i o : Nat) :
    fs'.byteAt i o = fs.byteAt i o := by
  simp only [Volume.byteAt, Volume.blockAt, hf, hd]

theorem mapped_congr (hf : fs'.forest = fs.forest) (i bn : Nat) :
    fs'.Mapped i bn ↔ fs.Mapped i bn := by
  simp only [Volume.Mapped, hf]

theorem Wrote.congr (h : Wrote fs fs₁ i off src) (hf : fs'.forest = fs₁.forest)
    (hd : fs'.disk = fs₁.disk) : Wrote fs fs' i off src := by
  have hmap (j bn : Nat) := mapped_congr hf j bn
  have hbyte (j o : Nat) := byteAt_congr hf hd j o
  refine ⟨fun j bn hj => (hmap j bn).mpr (h.mapped j bn hj),
    fun k hk => (hmap _ _).mpr (h.inside k hk), fun k hk => ?_, fun j o hj ho => ?_⟩
  · rw [hbyte, h.bytes k hk]
  · rw [hbyte, h.frame j o hj ho]

/-- **A well-formed file system**: every block is owned by one place, the bitmap agrees, and every
block of every file below its size is in its block map. -/
structure WellFormed (sb : Superblock) (fs : Volume) : Prop where
  owned : Owned sb fs
  metaUsed : MetaUsed sb fs
  mapped : ∀ i bn, bn * BSIZE < (fs.current i).size → fs.Mapped i bn
  /-- a `uint` -/
  size_lt : ∀ i, (fs.current i).size < 2 ^ 32

/-- Every byte of a file lies in a block of the file, which is there. -/
theorem WellFormed.byte (hw : WellFormed sb fs) {o : Nat} (ho : o < (fs.current i).size) :
    fs.Mapped i (o / BSIZE) :=
  hw.mapped i _ (Nat.lt_of_le_of_lt (Nat.div_mul_le_self o BSIZE) ho)

/-- So are the index blocks above it. -/
theorem WellFormed.path (hw : WellFormed sb fs) {o : Nat} (ho : o < (fs.current i).size)
    (hq : placeOf i (o / BSIZE) = some q) {p : Place} (hroot : p.1 = q.1) (hsuf : p.2 <:+ q.2) :
    fs.forest.get p ≠ 0 := by
  obtain ⟨q', hq', -, hne⟩ := hw.byte ho
  obtain rfl : q' = q := Option.some.inj (hq'.symm.trans hq)
  rw [show p = (q'.1, p.2) from Prod.ext hroot rfl]
  exact Support.Forest.get_of_suffix hsuf hne

theorem Edits.current (e : Edits sb fs fs' N D) (j : Nat) :
    (fs'.current j).size = (fs.current j).size := by
  rw [Volume.current, Volume.current, e.valid, e.inode.1]
  split
  · rw [e.inode.2 j]
  · rfl

theorem size_setSize (hv : (fs.inode i).valid = true) (n j : Nat) :
    ((iupdate sb (fs.setInode i ({ · with size := n })) i).current j).size =
      if j = i then n else (fs.current j).size := by
  by_cases e : j = i
  · subst e
    simp [Volume.current, iupdate, Volume.setInode, hv]
  · simp [Volume.current, iupdate, Volume.setInode, e]

/-- The content after a write of `src` at `off`, in a file that was no shorter. -/
theorem content_of_wrote (hw : WellFormed sb fs)
    (h : Wrote fs fs' i off src) (hoff : off ≤ (fs.current i).size)
    (hsize : ∀ j, (fs'.current j).size =
      if j = i then max (fs.current i).size (off + src.length) else (fs.current j).size) :
    fs'.content i = (fs.content i).take off ++ src ++ (fs.content i).drop (off + src.length) ∧
      ∀ j, j ≠ i → fs'.content j = fs.content j := by
  constructor
  · have hi : (fs'.current i).size = max (fs.current i).size (off + src.length) := by
      rw [hsize, if_pos rfl]
    refine List.ext_getElem ?_ fun o h₁ h₂ => ?_
    · simp only [List.length_append, List.length_take, List.length_drop, length_content]
      omega
    rw [length_content, hi] at h₁
    rw [getElem_content]
    by_cases hlt : o < off
    · have ho : o < (fs.current i).size := by omega
      have htake : o < ((fs.content i).take off).length := by
        rw [List.length_take, length_content]
        omega
      rw [h.frame i o (hw.byte ho) (by omega), List.getElem_append_left (by
        rw [List.length_append]; omega), List.getElem_append_left htake, List.getElem_take,
        getElem_content]
    · have htake : ((fs.content i).take off).length = off := by simpa using hoff
      by_cases hin : o < off + src.length
      · have hb := h.bytes (o - off) (by omega)
        rw [show off + (o - off) = o by omega] at hb
        rw [hb, List.getElem_append_left (by rw [List.length_append, htake]; exact hin),
          List.getElem_append_right (by omega)]
        simp only [htake]
        rw [List.getD_eq_getElem _ _ (by omega)]
      · have ho : o < (fs.current i).size := by omega
        have hlen : ((fs.content i).take off ++ src).length = off + src.length := by
          rw [List.length_append, htake]
        rw [List.getElem_append_right (by omega), List.getElem_drop, getElem_content,
          h.frame i o (hw.byte ho) (by omega)]
        congr 1
        omega
  · intro j hj
    rw [Volume.content, Volume.content, hsize, if_neg hj]
    refine List.map_congr_left fun o ho => ?_
    exact h.frame j o (hw.byte (List.mem_range.mp ho)) fun hc => hj hc.1

/-! ### Reading -/

/-- The loop of `readi` returns the bytes that are there. -/
theorem readLoop_eq (hv : (fs.inode i).valid = true) (hfuel : n ≤ fuel)
    (hmap : ∀ o, off ≤ o → o < off + n → fs.Mapped i (o / BSIZE)) :
    readLoop sb i fuel n off fs = .ok ((List.range n).map fun k => fs.byteAt i (off + k), fs) := by
  induction fuel generalizing n off with
  | zero =>
    rw [Nat.le_zero.mp hfuel]
    rfl
  | succ fuel ih =>
    rw [readLoop]
    split
    · rename_i h0
      rw [h0]
      rfl
    rename_i h0
    obtain ⟨q, hq, hqv, hne⟩ := hmap off (Nat.le_refl off) (by omega)
    have hmod := Nat.mod_lt off (show 0 < BSIZE by decide)
    have hmle := Nat.min_le_right n (BSIZE - off % BSIZE)
    have hmn := Nat.min_le_left n (BSIZE - off % BSIZE)
    have hm0 : 0 < min n (BSIZE - off % BSIZE) := by omega
    refine bind_ok.mpr ⟨_, bmap_filled hv hq hqv hne, ?_⟩
    dsimp only
    generalize min n (BSIZE - off % BSIZE) = m at hmle hmn hm0
    have hmap' (o : Nat) (h₁ : off + m ≤ o) (h₂ : o < off + m + (n - m)) :
        fs.Mapped i (o / BSIZE) := hmap o (by omega) (by omega)
    refine bind_ok.mpr ⟨_, ih (by omega) hmap', ?_⟩
    rw [bytes_of_round hq hmle hmn]

theorem take_drop_content (off n : Nat) : ((fs.content i).drop off).take n =
    (List.range (min n ((fs.current i).size - off))).map fun k => fs.byteAt i (off + k) := by
  refine List.ext_getElem (by simp) fun k h₁ h₂ => ?_
  rw [List.getElem_take, List.getElem_drop, getElem_content, List.getElem_map, List.getElem_range]

/-- **`readi`** of a file whose blocks are in place. -/
theorem readi_eq {input : List UInt8} (hv : (fs.inode i).valid = true)
    (hd : (fs.inode i).type ≠ .dev)
    (hmap : ∀ bn, bn * BSIZE < (fs.current i).size → fs.Mapped i bn) (hoff : off < 2 ^ 32)
    (hn : n < 2 ^ 32) : readi sb fs input i off n = .ok ((fs.content i).readi off n, fs) := by
  have hcur : (fs.current i).size = (fs.inode i).size := by rw [current_of_valid hv]
  rw [readi, Content.readi, length_content, hcur]
  dsimp only
  rw [if_neg hd]
  have hwrap : (off + n) % 2 ^ 32 < off ↔ 2 ^ 32 ≤ off + n := by omega
  simp only [hwrap]
  split
  · rfl
  rename_i hin
  rw [take_drop_content, hcur]
  have hcut : (if (fs.inode i).size < off + n then (fs.inode i).size - off else n) =
      min n ((fs.inode i).size - off) := by
    split <;> omega
  rw [hcut]
  refine bind_ok.mpr ⟨_, readLoop_eq hv (Nat.le_refl _) fun o h₁ h₂ => ?_, rfl⟩
  refine hmap _ (Nat.lt_of_le_of_lt (Nat.div_mul_le_self o BSIZE) ?_)
  omega

/-! ### `writei` and `readi` on the content -/

/-- **`writei`** below the triple region, with a block for every place that is missing. -/
theorem writei_wrote (hw : WellFormed sb fs)
    (hv : (fs.inode i).valid = true) (hd : (fs.inode i).type ≠ .dev)
    (hoff : off ≤ (fs.current i).size) (hend : off + src.length ≤ DOUBLE * BSIZE)
    (hroom : (fs.missing i off src.length).card ≤ (fs.freeBlocks sb).length) :
    ∃ fs', writei sb fs i src off = .ok (src.length, fs') ∧ Wrote fs fs' i off src ∧
      Owned sb fs' ∧ MetaUsed sb fs' ∧ (∀ j, fs'.inode j =
        { fs.inode j with addrs := (fs'.inode j).addrs, size := (fs'.inode j).size }) ∧
      ∀ j, (fs'.current j).size =
        if j = i then max (fs.current i).size (off + src.length) else (fs.current j).size := by
  have hcur : (fs.current i).size = (fs.inode i).size := by rw [current_of_valid hv]
  have hpaths (o : Nat) (h₁ : off ≤ o) (h₂ : o < off + src.length) :
      ∃ q, placeOf i (o / BSIZE) = some q ∧ Valid shape q := by
    refine placeOf_valid i ?_
    simp only [DOUBLE, NDIRECT, NINDIRECT, BSIZE] at *
    omega
  have hS : ∀ q ∈ (leaves i off src.length).biUnion upTo, Valid shape q := by
    intro p hp
    obtain ⟨q, hq, hpq⟩ := Finset.mem_biUnion.mp hp
    obtain ⟨o, h₁, h₂, ho⟩ := mem_leaves.mp hq
    obtain ⟨q', hq', hval⟩ := hpaths o h₁ h₂
    obtain rfl : q' = q := Option.some.inj (hq'.symm.trans ho)
    obtain ⟨hroot, hsuf⟩ := mem_upTo.mp hpq
    exact ⟨hroot ▸ hsuf.length_le.trans hval.1, fun x hx => hval.2 x (hsuf.subset hx)⟩
  obtain ⟨fs₁, hl⟩ : ∃ fs₁, writeLoop sb i src.length off src fs = .ok fs₁ := by
    refine writeLoop_returns hS hroom hw.owned hw.metaUsed hv fun o h₁ h₂ => ?_
    obtain ⟨q, hq, -⟩ := hpaths o h₁ h₂
    exact ⟨q, hq, fun p hp => Finset.mem_biUnion.mpr ⟨q, mem_leaves.mpr ⟨o, h₁, h₂, hq⟩, hp⟩⟩
  have hwrote := writeLoop_wrote hw.owned hw.metaUsed hv (Nat.le_refl _) hend hl
  obtain ⟨N, D, e, -⟩ := writeLoop_spec hw.owned hw.metaUsed hv (Nat.le_refl _) hl
  have hv₁ : (fs₁.inode i).valid = true := by rw [e.valid, hv]
  have hsize₁ : (fs₁.inode i).size = (fs.inode i).size := by rw [e.inode.2 i]
  have hlt : off + src.length < 2 ^ 32 := Nat.lt_of_le_of_lt hend (by decide)
  have hmax : off + src.length ≤ MAXFILE * BSIZE := hend.trans (by decide)
  obtain ⟨fs', hr, hforest, hdisk, hsize⟩ : ∃ fs', writei sb fs i src off = .ok (src.length, fs') ∧
      fs'.forest = fs₁.forest ∧ fs'.disk = fs₁.disk ∧ ∀ j, (fs'.current j).size =
        if j = i then max (fs.current i).size (off + src.length) else (fs.current j).size := by
    rw [writei]
    rw [if_neg hd, if_neg (by rw [Nat.mod_eq_of_lt hlt]; omega),
      if_neg (by rw [Nat.mod_eq_of_lt hlt]; omega), hl]
    by_cases hgrow : 0 < src.length ∧ (fs₁.inode i).size < off + src.length
    · refine ⟨_, if_pos hgrow, forest_setSize hv₁ _, rfl, fun j => ?_⟩
      rw [size_setSize hv₁, e.current]
      split
      · omega
      · rfl
    · refine ⟨_, if_neg hgrow, rfl, rfl, fun j => ?_⟩
      rw [e.current]
      split
      · rename_i hj
        subst hj
        omega
      · rfl
  obtain ⟨ho', hm'⟩ := writei_owned hw.owned hw.metaUsed hv hr
  exact ⟨fs', hr, hwrote.congr hforest hdisk, ho', hm',
    (writei_frame hw.owned hw.metaUsed hv hr).1, hsize⟩

/-- A write keeps the file system well formed. -/
theorem WellFormed.wrote (hw : WellFormed sb fs)
    (h : Wrote fs fs' i off src) (ho : Owned sb fs') (hm : MetaUsed sb fs')
    (hoff : off ≤ (fs.current i).size) (hend : off + src.length ≤ DOUBLE * BSIZE)
    (hsize : ∀ j, (fs'.current j).size =
      if j = i then max (fs.current i).size (off + src.length) else (fs.current j).size) :
    WellFormed sb fs' := by
  refine ⟨ho, hm, fun j bn hbn => ?_, fun j => ?_⟩
  · rw [hsize] at hbn
    by_cases hold : bn * BSIZE < (fs.current j).size
    · exact h.mapped j bn (hw.mapped j bn hold)
    split at hbn
    · rename_i hj
      subst hj
      -- a block that is new holds a byte that was written
      have hin := h.inside (bn * BSIZE - off) (by omega)
      rwa [show off + (bn * BSIZE - off) = bn * BSIZE by omega,
        Nat.mul_div_cancel bn (show 0 < BSIZE by decide)] at hin
    · exact absurd hbn hold
  · rw [hsize]
    have hi := hw.size_lt i
    have hj := hw.size_lt j
    have hlt : off + src.length < 2 ^ 32 := Nat.lt_of_le_of_lt hend (by decide)
    split <;> omega

/-- **Contents refine arrays of bytes.**  In a well-formed file system, `writei` to a regular file
below the triple region returns the number of bytes and does `Content.writei`, when there are
enough free blocks; the content of every other inode is as it was, and the file system is well
formed again.  `readi` does `Content.readi`, and changes nothing. -/
theorem content_refined (hw : WellFormed sb fs) (hv : (fs.inode i).valid = true)
    (hf : (fs.inode i).type = .file) :
    (∀ src off, off ≤ (fs.current i).size →
      off + src.length ≤ (NDIRECT + NINDIRECT + NINDIRECT ^ 2) * BSIZE →
      (fs.missing i off src.length).card ≤ (fs.freeBlocks sb).length →
      ∃ fs', writei sb fs i src off = .ok (src.length, fs') ∧
        (fs.content i).writei src off = some (fs'.content i) ∧
        (fs'.current i).size = max (fs.current i).size (off + src.length) ∧
        (∀ j, j ≠ i → fs'.content j = fs.content j) ∧
        WellFormed sb fs' ∧ (fs'.inode i).valid = true ∧ (fs'.inode i).type = .file) ∧
    ∀ input off n, off < 2 ^ 32 → n < 2 ^ 32 →
      readi sb fs input i off n = .ok ((fs.content i).readi off n, fs) := by
  have hd : (fs.inode i).type ≠ .dev := by rw [hf]; decide
  constructor
  · intro src off hoff hend hroom
    have hend : off + src.length ≤ DOUBLE * BSIZE := hend
    obtain ⟨fs', hr, hwrote, ho, hm, hinode, hsize⟩ := writei_wrote hw hv hd hoff hend hroom
    obtain ⟨hcontent, hother⟩ := content_of_wrote hw hwrote hoff hsize
    refine ⟨fs', hr, ?_, by rw [hsize, if_pos rfl], hother, hw.wrote hwrote ho hm hoff hend hsize,
      by rw [hinode i, hv], by rw [hinode i, hf]⟩
    have hlt : off + src.length < 2 ^ 32 := Nat.lt_of_le_of_lt hend (by decide)
    have hmax : off + src.length ≤ MAXFILE * BSIZE := hend.trans (by decide)
    rw [Content.writei, length_content, if_neg (by omega), if_neg (by omega), hcontent]
  · intro input off n
    exact readi_eq hv hd (hw.mapped i)

end

/-- The empty file, locked. -/
def emptyFile : Volume :=
  (emptyVolume metaBits).setInode 1 fun ip =>
    { ip with toDinode := (emptyVolume metaBits).dinode 1, valid := true }

theorem wellFormed_emptyFile : WellFormed mkfsSb emptyFile := by
  have hlock : ilock (emptyVolume metaBits) 1 = .ok emptyFile := rfl
  have ho : Owned mkfsSb (emptyVolume metaBits) := owned_emptyVolume fun b hb _ => getBit_metaBits hb
  have hstep : fileStep mkfsSb (emptyVolume metaBits) (.lock 1) = some emptyFile :=
    Support.toOption_eq_some.mpr hlock
  obtain ⟨ho', hm'⟩ := owned_step ho metaUsed_emptyVolume hstep
  have hsize (i : Nat) : (emptyFile.current i).size = 0 := by
    by_cases e : i = 1
    · subst e; rfl
    · simp [emptyFile, Volume.current, Volume.setInode, e, emptyVolume]
  refine ⟨ho', hm', fun i bn h => ?_, fun i => ?_⟩
  · rw [hsize] at h
    exact absurd h (Nat.not_lt_zero _)
  · rw [hsize]
    decide

/-- One byte is written to the empty file, and an empty file is read. -/
theorem content_refined_byte :
    (∃ fs', writei mkfsSb emptyFile 1 [7] 0 = .ok (1, fs') ∧ fs'.content 1 = [7]) ∧
      readi mkfsSb emptyFile [] 1 0 5 = .ok (some [], emptyFile) := by
  obtain ⟨hwrite, hread⟩ := content_refined wellFormed_emptyFile (i := 1) rfl rfl
  have hmiss : (emptyFile.missing 1 0 1).card = 1 := by decide +kernel
  have hfree : 68 ∈ emptyFile.freeBlocks mkfsSb :=
    List.mem_filter.mpr ⟨List.mem_range.mpr (by decide), by decide +kernel⟩
  have hroom : (emptyFile.missing 1 0 1).card ≤ (emptyFile.freeBlocks mkfsSb).length := by
    rw [hmiss]
    exact List.length_pos_of_mem hfree
  obtain ⟨fs', hr, hc, -⟩ := hwrite [7] 0 (Nat.zero_le _) (by decide) hroom
  have hc₀ : (emptyFile.content 1).writei [7] 0 = some [7] := rfl
  exact ⟨⟨fs', hr, Option.some.inj (hc.symm.trans hc₀)⟩, hread [] 0 5 (by decide) (by decide)⟩

end Xv6.Fs
