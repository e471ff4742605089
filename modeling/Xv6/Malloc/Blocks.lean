import Xv6.Malloc.Heap
import Xv6.Support.Segment
import Xv6.Support.Tiling

/-!
# Malloc — the free list, and `free`

`Laid h bs`: the blocks `bs`, free or in use, tile the memory that `sbrk` gave, and the header of
each has its size.  `Tidy h fs ls`: besides, from `base` the pointers lead through the free blocks
`fs` back to `base`, these are in the order of their addresses, and none ends where the next begins.

* `Laid.join`, `Laid.split`: the two things that happen to blocks.
* `seek_spec`: the loop of `free` ends, at the block behind which the new one belongs.
* `free_spec`: `free` of a block in use ends and keeps `Tidy`; the block is a free one then, or a
  part of one.

`free` is taken in two steps.  After the first the block has its own pointer, and is joined to its
upper neighbour, but nothing points to it yet (`Hanging`); the second links it, or joins it to its
lower neighbour.
-/

namespace Xv6.Malloc

open Function (update_self update_of_ne)
open Support

/-- The first block ends below the second and does not touch it. -/
def Below (b c : Nat × Nat) : Prop := b.1 + UNIT * b.2 < c.1

instance : IsTrans (Nat × Nat) Below where
  trans b c d h₁ h₂ := by
    simp only [Below] at *
    omega

/-- The pointer in a block's header. -/
def Heap.next (h : Heap) (b : Nat × Nat) : Nat := h.ptr b.1

/-- The memory that `sbrk` has given. -/
def Heap.obtained (h : Heap) : Set Nat := { x | ∃ r ∈ h.regions, r.1 ≤ x ∧ x < r.1 + r.2 }

/-- The blocks and, first, the header `base`. -/
def ring (h : Heap) (bs : List (Nat × Nat)) : List (Nat × Nat) := (h.base, 0) :: bs

structure Laid (h : Heap) (bs : List (Nat × Nat)) : Prop where
  sizes : ∀ b ∈ ring h bs, h.size b.1 = b.2
  tiles : Tiles UNIT bs h.obtained
  room : ∀ x ∈ h.obtained, h.base + UNIT ≤ x ∧ x < h.brk
  null : 0 < h.base
  above : h.base + UNIT ≤ h.brk
  brk : h.brk < 2 ^ 32

structure Tidy (h : Heap) (fs ls : List (Nat × Nat)) : Prop where
  laid : Laid h (fs ++ ls)
  circle : Seg Prod.fst h.next h.base (ring h fs) h.base
  order : (ring h fs).IsChain Below
  freep : h.freep ∈ (ring h fs).map Prod.fst

theorem unit_pos : 0 < UNIT := by decide

variable {h : Heap} {bs bs' fs ls : List (Nat × Nat)} {b c x y : Nat × Nat}

/-! ### Blocks in memory -/

section

variable (l : Laid h bs)
include l

theorem Laid.bounds (hb : b ∈ bs) : h.base + UNIT ≤ b.1 ∧ b.1 + UNIT * b.2 ≤ h.brk :=
  l.tiles.bounds unit_pos l.room hb

theorem Laid.perm (hp : bs.Perm bs') : Laid h bs' where
  sizes b hb := l.sizes b ((hp.cons _).mem_iff.mpr hb)
  tiles := l.tiles.perm hp
  room := l.room
  null := l.null
  above := l.above
  brk := l.brk

/-- The headers are at different addresses. -/
theorem Laid.nodup : ((ring h bs).map Prod.fst).Nodup := by
  refine List.nodup_cons.mpr ⟨fun hb => ?_, l.tiles.nodup unit_pos⟩
  obtain ⟨b, hb, e⟩ := List.mem_map.mp hb
  have := (l.bounds hb).1
  simp only [UNIT] at this
  omega

theorem Laid.end_lt (hb : b ∈ ring h bs) : b.1 + UNIT * b.2 < 2 ^ 32 := by
  have hbrk := l.brk
  have habove := l.above
  rcases List.mem_cons.mp hb with rfl | hb
  · simp only [UNIT] at *
    omega
  · have := (l.bounds hb).2
    omega

theorem Laid.plus_eq (hb : b ∈ ring h bs) : plus b.1 b.2 = b.1 + UNIT * b.2 :=
  Nat.mod_eq_of_lt (l.end_lt hb)

/-- There are fewer blocks than addresses. -/
theorem Laid.length_le : (ring h bs).length ≤ 2 ^ 32 := by
  have hsub : (ring h bs).map Prod.fst ⊆ List.range (2 ^ 32) := by
    intro a ha
    obtain ⟨b, hb, rfl⟩ := List.mem_map.mp ha
    have := l.end_lt hb
    exact List.mem_range.mpr (by omega)
  have hle := (List.subperm_of_subset l.nodup hsub).length_le
  rwa [List.length_map, List.length_range] at hle

end

variable {a bp k p : Nat} {l l₂ l₁ : List (Nat × Nat)}

/-- An address in a block, other than its first, is no header's. -/
theorem Laid.not_header (l : Laid h (b :: bs)) (hlo : b.1 < a)
    (hhi : a < b.1 + UNIT * b.2) : ∀ c ∈ ring h (b :: bs), c.1 ≠ a := by
  rintro c hc rfl
  have hb := l.bounds (List.mem_cons_self ..)
  rcases List.mem_cons.mp hc with rfl | hc
  · simp only [UNIT] at hb
    omega
  rcases List.mem_cons.mp hc with rfl | hc
  · exact absurd hlo (Nat.lt_irrefl _)
  · have hpos := l.tiles.pos c (List.mem_cons_of_mem _ hc)
    have hap := (List.pairwise_cons.mp l.tiles.apart).1 c hc
    simp only [Apart, UNIT] at *
    omega

/-- Two blocks that meet become one. -/
theorem Laid.join (l : Laid h (x :: y :: bs)) (e : x.1 + UNIT * x.2 = y.1) :
    Laid (h.setSize x.1 (x.2 + y.2)) ((x.1, x.2 + y.2) :: bs) where
  sizes b hb := by
    have hnd := l.nodup
    simp only [ring, List.map_cons, List.nodup_cons, List.mem_cons, not_or] at hnd
    simp only [ring, List.mem_cons] at hb
    rcases hb with rfl | rfl | hb
    · exact (update_of_ne hnd.1.1 ..).trans (l.sizes _ (List.mem_cons_self ..))
    · exact update_self ..
    · have hne : b.1 ≠ x.1 := fun e => hnd.2.1.2 (e ▸ List.mem_map_of_mem hb)
      exact (update_of_ne hne ..).trans (l.sizes b (by simp [ring, hb]))
  tiles := (tiles_join unit_pos (l.tiles.pos x (by simp)) (l.tiles.pos y (by simp)) e).mpr l.tiles
  room := l.room
  null := l.null
  above := l.above
  brk := l.brk

/-- A block becomes two. -/
theorem Laid.split (l : Laid h ((x.1, x.2 + y.2) :: bs)) (hx : 0 < x.2) (hy : 0 < y.2)
    (e : x.1 + UNIT * x.2 = y.1) :
    Laid ((h.setSize x.1 x.2).setSize y.1 y.2) (x :: y :: bs) where
  sizes b hb := by
    have hnd := l.nodup
    have hyh := l.not_header (a := y.1) (by simp only [UNIT] at *; omega)
      (by simp only [UNIT, Nat.mul_add] at *; omega)
    simp only [ring, List.map_cons, List.nodup_cons, List.mem_cons, not_or] at hnd
    simp only [ring, List.mem_cons] at hb
    have hold : ∀ c ∈ ring h ((x.1, x.2 + y.2) :: bs), c.1 ≠ x.1 →
        ((h.setSize x.1 x.2).setSize y.1 y.2).size c.1 = c.2 := fun c hc hne =>
      (update_of_ne (hyh c hc) ..).trans ((update_of_ne hne ..).trans (l.sizes c hc))
    rcases hb with rfl | rfl | rfl | hb
    · exact hold _ (List.mem_cons_self ..) hnd.1.1
    · have hne := hyh (b.1, b.2 + y.2) (by simp [ring])
      exact (update_of_ne hne ..).trans (update_self ..)
    · exact update_self ..
    · exact hold b (by simp [ring, hb]) fun e => hnd.2.1 (e ▸ List.mem_map_of_mem hb)
  tiles := (tiles_join unit_pos hx hy e).mp l.tiles
  room := l.room
  null := l.null
  above := l.above
  brk := l.brk

/-! ### The loop of `free` -/

/-- The loop ends at this block. -/
def Stops (h : Heap) (bp : Nat) (b : Nat × Nat) : Prop :=
  (bp > b.1 ∧ bp < h.next b) ∨ (b.1 ≥ h.next b ∧ (bp > b.1 ∨ bp < h.next b))

theorem seek_stop (hb : Stops h bp b) : h.seek bp (k + 1) b.1 = some b.1 := by
  rw [Heap.seek]
  rcases hb with hb | hb
  · exact if_pos hb
  · split
    · rfl
    · exact if_pos hb

theorem seek_next (hb : ¬ Stops h bp b) : h.seek bp (k + 1) b.1 = h.seek bp k (h.next b) := by
  rw [Heap.seek]
  exact (if_neg fun h₁ => hb (.inl h₁)).trans (if_neg fun h₂ => hb (.inr h₂))

/-- A walk that would come to a block where the loop ends, ends there or before. -/
theorem seek_walk (hc : Stops h bp c) (hs : Seg Prod.fst h.next a l c.1) (hk : l.length < k) :
    ∃ b ∈ l ++ [c], h.seek bp k a = some b.1 ∧ Stops h bp b := by
  induction l generalizing a k with
  | nil =>
    obtain ⟨k, rfl⟩ := Nat.exists_eq_succ_of_ne_zero (Nat.ne_of_gt hk)
    obtain rfl : a = c.1 := hs
    exact ⟨c, List.mem_singleton.mpr rfl, seek_stop hc, hc⟩
  | cons q l ih =>
    obtain ⟨k, rfl⟩ := Nat.exists_eq_succ_of_ne_zero (Nat.ne_of_gt (Nat.zero_lt_of_lt hk))
    obtain ⟨rfl, hs⟩ := hs
    by_cases hq : Stops h bp q
    · exact ⟨q, List.mem_cons_self .., seek_stop hq, hq⟩
    · obtain ⟨b, hb, e, hstop⟩ := ih hs (Nat.lt_of_succ_lt_succ hk)
      exact ⟨b, List.mem_cons_of_mem _ hb, (seek_next hq).trans e, hstop⟩

/-- The last element of a list before a property is lost for the first time. -/
theorem exists_boundary {α : Type*} {p : α → Prop} [DecidablePred p] {l : List α} {a : α}
    (ha : p a) : ∃ l₁ z l₂, a :: l = l₁ ++ z :: l₂ ∧ p z ∧ ∀ d ∈ l₂.head?, ¬ p d := by
  induction l generalizing a with
  | nil => exact ⟨[], a, [], rfl, ha, fun _ h => nomatch h⟩
  | cons d l ih =>
    by_cases hd : p d
    · obtain ⟨l₁, z, l₂, e, hz, hl⟩ := ih hd
      exact ⟨a :: l₁, z, l₂, by rw [e, List.cons_append], hz, hl⟩
    · refine ⟨[], a, d :: l, rfl, ha, fun d' hd' => ?_⟩
      obtain rfl : d = d' := Option.some.inj hd'
      exact hd

/-- Where a block's pointer leads. -/
theorem Tidy.next_eq (t : Tidy h fs ls)
    (e : ring h fs = l₁ ++ b :: l₂) : h.next b = (l₂.head?.map Prod.fst).getD h.base := by
  have hc := t.circle
  rw [e] at hc
  obtain ⟨_, _, _, hb⟩ := seg_append.mp hc
  cases l₂ with
  | nil => exact hb
  | cons c l => exact hb.1

theorem Tidy.base_le (t : Tidy h fs ls) (hb : b ∈ ring h fs) : h.base ≤ b.1 := by
  rcases List.mem_cons.mp hb with rfl | hb
  · exact Nat.le_refl _
  · exact Nat.le_trans (Nat.le_add_right ..) (t.laid.bounds (List.mem_append_left ls hb)).1

/-- The loop ends at a block just if the new one belongs behind it. -/
theorem Tidy.stops_iff (t : Tidy h fs ls) (e : ring h fs = l₁ ++ b :: l₂) (hbp : h.base < bp) :
    Stops h bp b ↔ b.1 < bp ∧ ∀ c ∈ l₂.head?, bp < c.1 := by
  have hnext := t.next_eq e
  have hord := t.order
  rw [e] at hord
  cases l₂ with
  | nil =>
    have hbase : h.base ≤ b.1 := t.base_le (by simp [e])
    simp only [List.head?_nil, Option.map_none, Option.getD_none] at hnext
    simp only [Stops, hnext, List.head?_nil, Option.mem_def, reduceCtorEq, false_implies,
      implies_true, and_true]
    omega
  | cons c l =>
    have hbc := (List.isChain_append_cons_cons.mp hord).2.1
    simp only [Below] at hbc
    simp only [List.head?_cons, Option.map_some, Option.getD_some] at hnext
    simp only [Stops, hnext, List.head?_cons, Option.mem_def, Option.some.injEq, forall_eq']
    omega

/-- **The loop of `free` ends**, at the block behind which the new one belongs. -/
theorem seek_spec (t : Tidy h fs (b :: ls)) :
    ∃ l₁ c l₂, ring h fs = l₁ ++ c :: l₂ ∧ h.seek b.1 ROUNDS h.freep = some c.1 ∧
      c.1 < b.1 ∧ ∀ d ∈ l₂.head?, b.1 < d.1 := by
  have hbase : h.base < b.1 := by
    have := (t.laid.bounds (b := b) (by simp)).1
    simp only [UNIT] at this
    omega
  have hmem : b.1 ∉ (ring h fs).map Prod.fst := by
    have hnd := t.laid.nodup
    rw [show ring h (fs ++ b :: ls) = ring h fs ++ b :: ls from rfl, List.map_append,
      List.map_cons] at hnd
    exact fun hb => List.disjoint_of_nodup_append hnd hb (List.mem_cons_self ..)
  obtain ⟨m₁, z, m₂, em, hz, hm⟩ :=
    exists_boundary (p := fun d : Nat × Nat => d.1 < b.1) (l := fs) (a := (h.base, 0)) hbase
  have hstop : Stops h b.1 z := by
    refine (t.stops_iff em hbase).mpr ⟨hz, fun d hd => ?_⟩
    have hne : d.1 ≠ b.1 := fun e => hmem (e ▸ List.mem_map_of_mem (by
      rw [show ring h fs = m₁ ++ z :: m₂ from em]
      exact List.mem_append_right _ (List.mem_cons_of_mem _ (List.mem_of_mem_head? hd))))
    have := hm d hd
    omega
  -- from `freep` one comes round to every block of the list
  obtain ⟨q, hq, hfreep⟩ := List.mem_map.mp t.freep
  obtain ⟨l, hround, hperm⟩ := t.circle.round hq
  have hzl : z ∈ q :: l := hperm.mem_iff.mpr (by rw [show ring h fs = _ from em]; simp)
  obtain ⟨k₁, k₂, ek⟩ := List.append_of_mem hzl
  have hwalk : Seg Prod.fst h.next q.1 (k₁ ++ z :: k₂) q.1 := ek ▸ ⟨rfl, hround⟩
  obtain ⟨_, hk₁, rfl, _⟩ := seg_append.mp hwalk
  have hlen : k₁.length < ROUNDS := by
    have h₁ : (k₁ ++ z :: k₂).length = (ring h fs).length := ek ▸ hperm.length_eq
    have h₂ := t.laid.length_le
    simp only [ring, List.length_append, List.length_cons, ROUNDS] at h₁ h₂ ⊢
    omega
  obtain ⟨c, hc, hseek, hstopc⟩ := seek_walk hstop hk₁ hlen
  have hcr : c ∈ ring h fs := hperm.mem_iff.mp (by
    rw [ek]
    rcases List.mem_append.mp hc with hc | hc
    · exact List.mem_append_left _ hc
    · exact List.mem_append_right _ (by simp [List.mem_singleton.mp hc]))
  obtain ⟨l₁, l₂, e⟩ := List.append_of_mem hcr
  exact ⟨l₁, c, l₂, e, hfreep ▸ hseek, (t.stops_iff e hbase).mp hstopc⟩

/-! ### Linking the block -/

/-- The block `x` belongs behind the block `c`, the last one of `ring h cs`, and before the blocks
`ds`, to which it points already. -/
structure Hanging (h : Heap) (cs ds ls : List (Nat × Nat)) (c x : Nat × Nat)
    (l : List (Nat × Nat)) : Prop where
  last : ring h cs = l ++ [c]
  laid : Laid h (x :: (cs ++ ds ++ ls))
  lower : Seg Prod.fst h.next h.base l c.1
  upper : Seg Prod.fst h.next x.1 (x :: ds) h.base
  orderLower : (ring h cs).IsChain Below
  orderUpper : (x :: ds).IsChain Below
  lt : c.1 < x.1

/-- Pointers at other addresses stay. -/
theorem seg_setPtr {d z : Nat} (hs : Seg Prod.fst h.next a l d)
    (hp : ∀ b ∈ l, b.1 ≠ p) : Seg Prod.fst (h.setPtr p z).next a l d :=
  (seg_congr fun b hb => update_of_ne (hp b hb) ..).mpr hs

@[simp] theorem next_setPtr_self {z n : Nat} : (h.setPtr p z).next (p, n) = z := update_self ..

theorem ne_of_nodup (hnd : ((l₁ ++ b :: l₂).map Prod.fst).Nodup) :
    (∀ d ∈ l₁, d.1 ≠ b.1) ∧ ∀ d ∈ l₂, d.1 ≠ b.1 := by
  rw [List.map_append, List.map_cons] at hnd
  obtain ⟨-, h₂, h₁₂⟩ := List.nodup_append.mp hnd
  refine ⟨fun d hd => ?_, fun d hd e => ?_⟩
  · exact h₁₂ d.1 (List.mem_map_of_mem hd) b.1 (List.mem_cons_self ..)
  · exact (List.nodup_cons.mp h₂).1 (e ▸ List.mem_map_of_mem hd)

/-- The sum of the sizes of two blocks that meet does not wrap. -/
theorem Laid.sum_eq (l : Laid h bs) (hx : x ∈ ring h bs) (hy : y ∈ ring h bs)
    (e : x.1 + UNIT * x.2 = y.1) : (h.size x.1 + h.size y.1) % 2 ^ 32 = x.2 + y.2 := by
  have hlt := l.end_lt hy
  rw [l.sizes x hx, l.sizes y hy]
  refine Nat.mod_eq_of_lt ?_
  simp only [UNIT] at *
  omega

section Upper

variable {cs es ds l : List (Nat × Nat)}

theorem ring_append (hl : ring h cs = l ++ [c]) : ring h (cs ++ es) = l ++ c :: es := by
  rw [show ring h (cs ++ es) = ring h cs ++ es from rfl, hl, List.append_assoc,
    List.singleton_append]

theorem ring_split (e : ring h fs = l ++ c :: ds) : ∃ cs, ring h cs = l ++ [c] ∧ fs = cs ++ ds := by
  obtain ⟨cs, hcs⟩ : ∃ cs, ring h cs = l ++ [c] := by
    cases l with
    | nil => exact ⟨[], by rw [ring, (List.cons.inj e).1]; rfl⟩
    | cons b l => exact ⟨l ++ [c], by rw [ring, (List.cons.inj e).1]; rfl⟩
  exact ⟨cs, hcs, (List.cons.inj (e.trans (ring_append hcs).symm)).2⟩

/-- The block gets its pointer, to the blocks `ds` of the list. -/
theorem Tidy.hang (t : Tidy h (cs ++ es) (x :: ls)) (hl : ring h cs = l ++ [c])
    (hlt : c.1 < x.1) {s : Nat → Nat} {n z : Nat} (hds : ds ⊆ es)
    (hlaid : Laid { h with size := s } ((x.1, n) :: (cs ++ ds ++ ls)))
    (hup : Seg Prod.fst h.next z ds h.base) (hord : ((x.1, n) :: ds).IsChain Below) :
    Hanging (({ h with size := s } : Heap).setPtr x.1 z) cs ds ls c (x.1, n) l := by
  have hnd : ((ring h (cs ++ es) ++ x :: ls).map Prod.fst).Nodup := t.laid.nodup
  have hne : ∀ d ∈ l ++ c :: es, d.1 ≠ x.1 := ring_append hl ▸ (ne_of_nodup hnd).1
  have hcircle := t.circle
  have horder := t.order
  rw [ring_append hl] at hcircle horder
  obtain ⟨_, hlow, rfl, -⟩ := seg_append.mp hcircle
  obtain ⟨hs, ht, hr, hn, ha, hb⟩ := hlaid
  refine ⟨hl, ⟨hs, ht, hr, hn, ha, hb⟩, ?_, ⟨rfl, ?_⟩, ?_, hord, hlt⟩
  · exact seg_setPtr (h := { h with size := s }) hlow fun d hd => hne d (by simp [hd])
  · rw [next_setPtr_self]
    exact seg_setPtr (h := { h with size := s }) hup fun d hd => hne d (by simp [hds hd])
  · exact hl.symm ▸ (List.isChain_split.mp horder).1

/-- The first step of `free`, for a block that does not meet its upper neighbour. -/
theorem Tidy.hang_alone (t : Tidy h (cs ++ es) (x :: ls)) (hl : ring h cs = l ++ [c])
    (hlt : c.1 < x.1) (hes : ∀ d ∈ es.head?, x.1 < d.1)
    (e : x.1 + UNIT * x.2 ≠ h.ptr c.1) :
    Hanging (h.setPtr x.1 (h.ptr c.1)) cs es ls c x l := by
  have hnext : h.ptr c.1 = (es.head?.map Prod.fst).getD h.base := t.next_eq (ring_append hl)
  have hlaid : Laid h (x :: (cs ++ es ++ ls)) := t.laid.perm List.perm_middle
  have hcircle := t.circle
  have horder := t.order
  rw [ring_append hl] at hcircle horder
  obtain ⟨_, -, rfl, hup⟩ := seg_append.mp hcircle
  refine t.hang hl hlt (s := h.size) (List.Subset.refl es) hlaid hup ?_
  cases es with
  | nil => exact List.isChain_singleton _
  | cons d ds =>
    refine List.isChain_cons_cons.mpr ⟨?_, (List.isChain_append_cons_cons.mp horder).2.2⟩
    have hxd := hes d rfl
    have hne : x.1 + UNIT * x.2 ≠ d.1 := fun e' => e (e'.trans hnext.symm)
    have hap := (List.pairwise_cons.mp hlaid.tiles.apart).1 d (by simp)
    simp only [Apart, Below, UNIT] at *
    omega

/-- The first step of `free`, for a block that meets its upper neighbour. -/
theorem Tidy.hang_joined {d : Nat × Nat} (t : Tidy h (cs ++ d :: ds) (x :: ls))
    (hl : ring h cs = l ++ [c]) (hlt : c.1 < x.1) (e : x.1 + UNIT * x.2 = d.1) :
    Hanging ((h.setSize x.1 (x.2 + d.2)).setPtr x.1 (h.ptr d.1)) cs ds ls c (x.1, x.2 + d.2) l := by
  have hp : (cs ++ d :: ds ++ x :: ls).Perm (x :: d :: (cs ++ ds ++ ls)) := by
    refine List.perm_middle.trans (List.Perm.cons x ?_)
    rw [List.append_assoc, List.append_assoc]
    exact List.perm_middle
  have hcircle := t.circle
  have horder := t.order
  rw [ring_append hl] at hcircle horder
  obtain ⟨_, -, -, -, hup⟩ := seg_append.mp hcircle
  refine t.hang hl hlt (List.subset_cons_self d ds) ((t.laid.perm hp).join e) hup ?_
  have hchain := (List.isChain_append_cons_cons.mp horder).2.2
  cases ds with
  | nil => exact List.isChain_singleton _
  | cons d₂ ds =>
    obtain ⟨h₁, h₂⟩ := List.isChain_cons_cons.mp hchain
    refine List.isChain_cons_cons.mpr ⟨?_, h₂⟩
    simp only [Below, UNIT] at *
    omega

/-- The first step of `free`. -/
theorem joinUpper_spec (t : Tidy h (cs ++ es) (x :: ls)) (hl : ring h cs = l ++ [c])
    (hlt : c.1 < x.1) (hes : ∀ d ∈ es.head?, x.1 < d.1) :
    ∃ n ds, x.2 ≤ n ∧ Hanging (h.joinUpper x.1 c.1) cs ds ls c (x.1, n) l := by
  have hx : x ∈ ring h (cs ++ es ++ x :: ls) := by simp [ring]
  have hsize : h.size x.1 = x.2 := t.laid.sizes x hx
  have hplus : plus x.1 (h.size x.1) = x.1 + UNIT * x.2 := by
    rw [hsize]
    exact t.laid.plus_eq hx
  have hnext : h.ptr c.1 = (es.head?.map Prod.fst).getD h.base := t.next_eq (ring_append hl)
  by_cases e : plus x.1 (h.size x.1) = h.ptr c.1
  · cases es with
    | nil =>
      -- the upper neighbour would be `base`, which is below
      rw [hplus, hnext] at e
      have := (t.laid.bounds (b := x) (by simp)).1
      simp only [List.head?_nil, Option.map_none, Option.getD_none, UNIT] at e this
      omega
    | cons d ds =>
      have hd : h.ptr c.1 = d.1 := hnext
      have hmeet : x.1 + UNIT * x.2 = d.1 := by rw [← hplus, e, hd]
      have hsum := t.laid.sum_eq hx (y := d) (by simp [ring]) hmeet
      have heq : h.joinUpper x.1 c.1 = (h.setSize x.1 (x.2 + d.2)).setPtr x.1 (h.ptr d.1) := by
        rw [← hsum, ← hd]
        exact if_pos e
      exact ⟨x.2 + d.2, ds, Nat.le_add_right .., heq ▸ t.hang_joined hl hlt hmeet⟩
  · have heq : h.joinUpper x.1 c.1 = h.setPtr x.1 (h.ptr c.1) := if_neg e
    exact ⟨x.2, es, Nat.le_refl _, heq ▸ t.hang_alone hl hlt hes (hplus ▸ e)⟩

end Upper

namespace Hanging

variable {cs ds l : List (Nat × Nat)}

section

variable (g : Hanging h cs ds ls c x l)
include g

theorem mem_ring : c ∈ ring h (x :: (cs ++ ds ++ ls)) := by
  have hc : c ∈ ring h cs := by simp [g.last]
  rcases List.mem_cons.mp hc with rfl | hc
  · exact List.mem_cons_self ..
  · simp [ring, hc]

theorem plus_eq : plus c.1 (h.size c.1) = c.1 + UNIT * c.2 := by
  rw [g.laid.sizes c g.mem_ring]
  exact g.laid.plus_eq g.mem_ring

theorem ne : (∀ d ∈ l, d.1 ≠ c.1) ∧ ∀ d ∈ x :: ds, d.1 ≠ c.1 := by
  have hp : (x :: (cs ++ ds ++ ls)).Perm (cs ++ (x :: ds ++ ls)) := by
    rw [List.append_assoc]
    exact List.perm_middle.symm
  have hnd := (g.laid.perm hp).nodup
  rw [show ring h (cs ++ (x :: ds ++ ls)) = ring h cs ++ (x :: ds ++ ls) from rfl, g.last,
    List.append_assoc, List.singleton_append] at hnd
  obtain ⟨h₁, h₂⟩ := ne_of_nodup hnd
  exact ⟨h₁, fun d hd => h₂ d (List.mem_append_left ls hd)⟩

/-- The block is linked behind `c`. -/
theorem link (e : plus c.1 (h.size c.1) ≠ x.1) :
    Tidy { h.setPtr c.1 x.1 with freep := c.1 } (cs ++ x :: ds) ls where
  laid := by
    have hp : (x :: (cs ++ ds ++ ls)).Perm (cs ++ x :: ds ++ ls) := by
      rw [List.append_assoc, List.append_assoc]
      exact List.perm_middle.symm
    obtain ⟨hs, ht, hr, hn, ha, hb⟩ := g.laid.perm hp
    exact ⟨hs, ht, hr, hn, ha, hb⟩
  circle := by
    have hlow := seg_setPtr (z := x.1) g.lower g.ne.1
    have hup := seg_setPtr (z := x.1) g.upper g.ne.2
    show Seg Prod.fst (h.setPtr c.1 x.1).next h.base (ring h cs ++ x :: ds) h.base
    rw [g.last]
    exact seg_append.mpr ⟨x.1, seg_snoc.mpr ⟨hlow, next_setPtr_self⟩, hup⟩
  order := by
    show (ring h cs ++ x :: ds).IsChain Below
    have hlow := g.orderLower
    rw [g.last] at hlow ⊢
    rw [List.append_assoc]
    refine List.isChain_append_cons_cons.mpr ⟨hlow, ?_, g.orderUpper⟩
    rw [g.plus_eq] at e
    have hlt := g.lt
    -- blocks do not overlap, so the lower one ends at `x` or below it
    rcases List.mem_cons.mp g.mem_ring with hc | hc
    · simp only [hc, Below, UNIT] at *
      omega
    rcases List.mem_cons.mp hc with rfl | hc
    · omega
    · have hap := (List.pairwise_cons.mp g.laid.tiles.apart).1 c hc
      simp only [Apart, Below, UNIT] at *
      omega
  freep := by
    show c.1 ∈ (ring h cs ++ x :: ds).map Prod.fst
    rw [g.last]
    simp

/-- The block is joined to `c`, which then is not `base`. -/
theorem merge (e : plus c.1 (h.size c.1) = x.1) : ∃ cs', cs = cs' ++ [c] ∧
      Tidy { (h.setSize c.1 (c.2 + x.2)).setPtr c.1 (h.ptr x.1) with freep := c.1 }
        (cs' ++ (c.1, c.2 + x.2) :: ds) ls := by
  rw [g.plus_eq] at e
  have hx := (g.laid.bounds (b := x) (by simp)).1
  obtain ⟨cs', rfl, hl⟩ : ∃ cs', cs = cs' ++ [c] ∧ l = ring h cs' := by
    rcases List.eq_nil_or_concat cs with rfl | ⟨cs', c', rfl⟩
    · have hbase : c = (h.base, 0) := by
        have hlast : [] ++ [(h.base, 0)] = l ++ [c] := g.last
        exact (List.cons.inj (List.append_inj' hlast rfl).2).1.symm
      simp only [hbase, UNIT] at e hx
      omega
    · have hlast : ring h cs' ++ [c'] = l ++ [c] := by
        rw [← g.last, List.concat_eq_append]
        rfl
      obtain ⟨h₁, h₂⟩ := List.append_inj' hlast rfl
      obtain ⟨rfl, -⟩ := List.cons.inj h₂
      exact ⟨cs', List.concat_eq_append, h₁.symm⟩
  refine ⟨cs', rfl, ?_⟩
  have hp : (x :: (cs' ++ [c] ++ ds ++ ls)).Perm (c :: x :: (cs' ++ (ds ++ ls))) := by
    refine (List.Perm.cons x ?_).trans (List.Perm.swap c x _)
    simp only [List.append_assoc, List.singleton_append]
    exact List.perm_middle
  have hp' : ((c.1, c.2 + x.2) :: (cs' ++ (ds ++ ls))).Perm
      (cs' ++ (c.1, c.2 + x.2) :: ds ++ ls) := by
    rw [List.append_assoc]
    exact List.perm_middle.symm
  obtain ⟨hs, ht, hr, hn, ha, hb⟩ := ((g.laid.perm hp).join e).perm hp'
  have hring : ring h (cs' ++ (c.1, c.2 + x.2) :: ds) = l ++ (c.1, c.2 + x.2) :: ds := by
    rw [hl]
    rfl
  refine ⟨⟨hs, ht, hr, hn, ha, hb⟩, ?_, ?_, ?_⟩
  · have hlow := seg_setPtr (h := h.setSize c.1 (c.2 + x.2)) (z := h.ptr x.1) g.lower g.ne.1
    have hup := seg_setPtr (h := h.setSize c.1 (c.2 + x.2)) (z := h.ptr x.1) g.upper.2
      fun d hd => g.ne.2 d (List.mem_cons_of_mem _ hd)
    show Seg Prod.fst ((h.setSize c.1 (c.2 + x.2)).setPtr c.1 (h.ptr x.1)).next h.base
      (ring h (cs' ++ (c.1, c.2 + x.2) :: ds)) h.base
    rw [hring]
    refine seg_append.mpr ⟨c.1, hlow, rfl, ?_⟩
    rw [next_setPtr_self]
    exact hup
  · show (ring h (cs' ++ (c.1, c.2 + x.2) :: ds)).IsChain Below
    have hlow := g.orderLower
    rw [g.last] at hlow
    rw [hring]
    refine List.isChain_split.mpr ⟨?_, ?_⟩
    · rw [List.isChain_append] at hlow ⊢
      refine ⟨hlow.1, List.isChain_singleton _, fun b hb d hd => ?_⟩
      obtain rfl : (c.1, c.2 + x.2) = d := Option.some.inj hd
      exact hlow.2.2 b hb c rfl
    · have hup := g.orderUpper
      cases ds with
      | nil => exact List.isChain_singleton _
      | cons d ds =>
        obtain ⟨h₁, h₂⟩ := List.isChain_cons_cons.mp hup
        refine List.isChain_cons_cons.mpr ⟨?_, h₂⟩
        simp only [Below, UNIT] at *
        omega
  · show c.1 ∈ (ring h (cs' ++ (c.1, c.2 + x.2) :: ds)).map Prod.fst
    rw [hring]
    simp

end

end Hanging

/-- The second step of `free`. -/
theorem joinLower_spec {cs ds : List (Nat × Nat)} (g : Hanging h cs ds ls c x l) :
    ∃ fs, Tidy { h.joinLower x.1 c.1 with freep := c.1 } fs ls ∧ ∃ b ∈ fs, x.2 ≤ b.2 := by
  by_cases e : plus c.1 (h.size c.1) = x.1
  · obtain ⟨cs', rfl, t⟩ := g.merge e
    have hmeet : c.1 + UNIT * c.2 = x.1 := g.plus_eq.symm.trans e
    have hsum := g.laid.sum_eq g.mem_ring (y := x) (by simp [ring]) hmeet
    have heq : h.joinLower x.1 c.1 = (h.setSize c.1 (c.2 + x.2)).setPtr c.1 (h.ptr x.1) := by
      rw [← hsum]
      exact if_pos e
    exact ⟨_, heq ▸ t, (c.1, c.2 + x.2), by simp, Nat.le_add_left ..⟩
  · have heq : h.joinLower x.1 c.1 = h.setPtr c.1 x.1 := if_neg e
    exact ⟨_, heq ▸ g.link e, x, by simp, Nat.le_refl _⟩

@[simp] theorem joinUpper_live : (h.joinUpper bp p).live = h.live := by
  rw [Heap.joinUpper]
  split <;> rfl

@[simp] theorem joinLower_live : (h.joinLower bp p).live = h.live := by
  rw [Heap.joinLower]
  split <;> rfl

/-- **`free` of a block in use ends**, and the block is a free one then, or a part of one. -/
theorem free_spec (t : Tidy h fs (x :: ls)) :
    ∃ h' fs', h.free x.1 = some h' ∧ h'.live = h.live ∧ Tidy h' fs' ls ∧ ∃ b ∈ fs', x.2 ≤ b.2 := by
  obtain ⟨l, c, ds, hring, hseek, hlt, hd⟩ := seek_spec t
  obtain ⟨cs, hcs, rfl⟩ := ring_split hring
  obtain ⟨n, ds', hn, g⟩ := joinUpper_spec t hcs hlt hd
  obtain ⟨fs', t', b, hb, hle⟩ := joinLower_spec g
  refine ⟨_, fs', ?_, ?_, t', b, hb, Nat.le_trans hn hle⟩
  · rw [Heap.free, hseek]
    rfl
  · simp

end Xv6.Malloc
