import Mathlib

/-!
# Support — Tiling

Blocks of memory.  A block is an address and a number of units of `w` bytes; blocks *tile* a set of
addresses when none is empty, they do not overlap, and together they are the set.  The order of the
blocks does not matter.

* `tiles_join`: two blocks that meet tile what their union tiles.  Read one way it joins blocks,
  read the other way it splits one.
* `Tiles.add`: a block above all that is tiled.
* `Tiles.bounds`, `Tiles.nodup`: blocks lie within the set's bounds, and their addresses differ.
-/

namespace Xv6.Support

variable {w : Nat} {b c x y : Nat × Nat} {bs bs' : List (Nat × Nat)} {S : Set Nat}

/-- The addresses of a block. -/
def extent (w : Nat) (b : Nat × Nat) : Set Nat := { z | b.1 ≤ z ∧ z < b.1 + w * b.2 }

/-- One block ends before the other begins. -/
def Apart (w : Nat) (b c : Nat × Nat) : Prop := b.1 + w * b.2 ≤ c.1 ∨ c.1 + w * c.2 ≤ b.1

theorem Apart.symm (h : Apart w b c) : Apart w c b := Or.symm h

structure Tiles (w : Nat) (bs : List (Nat × Nat)) (S : Set Nat) : Prop where
  pos : ∀ b ∈ bs, 0 < b.2
  apart : bs.Pairwise (Apart w)
  cover : ∀ z, (∃ b ∈ bs, z ∈ extent w b) ↔ z ∈ S

theorem Tiles.perm (h : Tiles w bs S) (hp : bs.Perm bs') : Tiles w bs' S where
  pos b hb := h.pos b (hp.mem_iff.mpr hb)
  apart := (hp.pairwise_iff fun h => Apart.symm h).mp h.apart
  cover z := by simp only [← h.cover z, hp.mem_iff]

theorem Tiles.bounds (h : Tiles w bs S) (hw : 0 < w) {m n : Nat}
    (hS : ∀ z ∈ S, m ≤ z ∧ z < n) (hb : b ∈ bs) : m ≤ b.1 ∧ b.1 + w * b.2 ≤ n := by
  have hpos : 0 < w * b.2 := Nat.mul_pos hw (h.pos b hb)
  have hfirst := hS b.1 ((h.cover _).mp ⟨b, hb, Nat.le_refl _, by omega⟩)
  have hlast := hS (b.1 + w * b.2 - 1) ((h.cover _).mp ⟨b, hb, by omega, by omega⟩)
  omega

theorem Tiles.nodup (h : Tiles w bs S) (hw : 0 < w) : (bs.map Prod.fst).Nodup := by
  rw [List.Nodup, List.pairwise_map]
  refine h.apart.imp_of_mem fun {b c} hb hc hbc e => ?_
  have hb : 0 < w * b.2 := Nat.mul_pos hw (h.pos b hb)
  have hc : 0 < w * c.2 := Nat.mul_pos hw (h.pos c hc)
  rcases hbc with hbc | hbc <;> omega

theorem apart_join (hx : 0 < w * x.2) (hy : 0 < w * y.2) (hc : 0 < w * c.2)
    (h : x.1 + w * x.2 = y.1) :
    Apart w (x.1, x.2 + y.2) c ↔ Apart w x c ∧ Apart w y c := by
  simp only [Apart, Nat.mul_add]
  omega

theorem extent_join (h : x.1 + w * x.2 = y.1) :
    extent w (x.1, x.2 + y.2) = extent w x ∪ extent w y := by
  ext z
  simp only [extent, Nat.mul_add, Set.mem_union, Set.mem_ofPred_eq]
  omega

/-- **Joining and splitting.** -/
theorem tiles_join (hw : 0 < w) (hx : 0 < x.2) (hy : 0 < y.2) (h : x.1 + w * x.2 = y.1) :
    Tiles w ((x.1, x.2 + y.2) :: bs) S ↔ Tiles w (x :: y :: bs) S := by
  have hap : ∀ c, 0 < c.2 → (Apart w (x.1, x.2 + y.2) c ↔ Apart w x c ∧ Apart w y c) := fun c hc =>
    apart_join (Nat.mul_pos hw hx) (Nat.mul_pos hw hy) (Nat.mul_pos hw hc) h
  have hcov : ∀ z, (∃ b ∈ (x.1, x.2 + y.2) :: bs, z ∈ extent w b) ↔
      ∃ b ∈ x :: y :: bs, z ∈ extent w b := by
    intro z
    simp only [List.exists_mem_cons_iff, extent_join h, Set.mem_union, or_assoc]
  constructor
  · intro ht
    have hpos : ∀ c ∈ bs, 0 < c.2 := fun c hc => ht.pos c (List.mem_cons_of_mem _ hc)
    obtain ⟨hall, hbs⟩ := List.pairwise_cons.mp ht.apart
    refine ⟨?_, ?_, fun z => (hcov z).symm.trans (ht.cover z)⟩
    · simpa [hx, hy] using hpos
    refine List.pairwise_cons.mpr ⟨?_, List.pairwise_cons.mpr ⟨fun c hc => ?_, hbs⟩⟩
    · intro c hc
      rcases List.mem_cons.mp hc with rfl | hc
      · exact .inl (Nat.le_of_eq h)
      · exact ((hap c (hpos c hc)).mp (hall c hc)).1
    · exact ((hap c (hpos c hc)).mp (hall c hc)).2
  · intro ht
    have hpos : ∀ c ∈ bs, 0 < c.2 := fun c hc =>
      ht.pos c (List.mem_cons_of_mem _ (List.mem_cons_of_mem _ hc))
    obtain ⟨hallx, hrest⟩ := List.pairwise_cons.mp ht.apart
    obtain ⟨hally, hbs⟩ := List.pairwise_cons.mp hrest
    refine ⟨?_, ?_, fun z => (hcov z).trans (ht.cover z)⟩
    · simpa [Nat.add_pos_left hx] using hpos
    · refine List.pairwise_cons.mpr ⟨fun c hc => (hap c (hpos c hc)).mpr ?_, hbs⟩
      exact ⟨hallx c (List.mem_cons_of_mem _ hc), hally c hc⟩

/-- A block above all that is tiled. -/
theorem Tiles.add (h : Tiles w bs S) (hw : 0 < w) (hb : 0 < b.2) (hS : ∀ z ∈ S, z < b.1) :
    Tiles w (b :: bs) (extent w b ∪ S) where
  pos := by simpa [hb] using h.pos
  apart := by
    refine List.pairwise_cons.mpr ⟨fun c hc => .inr ?_, h.apart⟩
    exact (h.bounds hw (m := 0) (fun z hz => ⟨Nat.zero_le z, hS z hz⟩) hc).2
  cover z := by simp only [List.exists_mem_cons_iff, h.cover z, Set.mem_union]

end Xv6.Support
