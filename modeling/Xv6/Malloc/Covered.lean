import Xv6.Malloc.Blocks
import Xv6.Support.Result

/-!
# Malloc — `malloc`, and runs of calls

`malloc` keeps the heap `Tidy` and ends, as long as the number of bytes that it asks `sbrk` for is
that of a positive `int`.

* `morecore_spec`: what `sbrk` gives is above all blocks; it is put into use and freed.
* `Tidy.unlink`, `Tidy.splitTail`: the two ways to take a block.
* `search_walk`: one round of the loop finds a block, or none is large enough.  After `morecore`
  there is one, so the second round finds it (`search_spec`).
* `heap_covered`: over every run of calls the free list is sound, and each call ends.

For larger sizes the heap is not sound.  The unit count of `malloc(2 ^ 32 - 8)` is `2 ^ 29`, which
does not wrap, but `2 ^ 29 * sizeof(Header)` does: `sbrk(0)` gives no memory, and the block that
`malloc` returns consists of addresses that nobody obtained (`large_block_uncovered`).
-/

namespace Xv6.Malloc

open Support

variable {h : Heap} {fs ls cs ds l : List (Nat × Nat)} {b c x : Nat × Nat}

/-! ### `morecore` -/

variable {n a p k : Nat} {as : List Nat}

theorem toInt_toNat (hn : n < 2 ^ 31) : (toInt n).toNat = n := by
  have hmod : n % 2 ^ 32 = n := Nat.mod_eq_of_lt (by omega)
  rw [toInt, hmod, if_pos hn, Int.toNat_natCast]

theorem obtained_grant :
    ((h.grant a (n * UNIT)).setSize a n).obtained = extent UNIT (a, n) ∪ h.obtained := by
  ext z
  simp [Heap.obtained, Heap.setSize, Heap.grant, extent, Nat.mul_comm]

/-- Fresh memory as one block. -/
theorem Laid.fresh {bs : List (Nat × Nat)} (t : Laid h bs) (hn : 0 < n)
    (ha : h.brk ≤ a) (hlt : a + n * UNIT < 2 ^ 32) :
    Laid ((h.grant a (n * UNIT)).setSize a n) ((a, n) :: bs) where
  sizes := by
    have hold : ∀ b ∈ ring h bs, ((h.grant a (n * UNIT)).setSize a n).size b.1 = b.2 := by
      intro b hb
      refine (Function.update_of_ne (fun e => ?_) ..).trans (t.sizes b hb)
      have habove := t.above
      rcases List.mem_cons.mp hb with rfl | hb
      · simp only [UNIT] at *
        omega
      · have hpos := t.tiles.pos b hb
        have hend := (t.bounds hb).2
        simp only [UNIT] at *
        omega
    intro b hb
    rcases List.mem_cons.mp hb with rfl | hb
    · exact hold _ (List.mem_cons_self ..)
    · rcases List.mem_cons.mp hb with rfl | hb
      · exact Function.update_self ..
      · exact hold b (List.mem_cons_of_mem _ hb)
  tiles := by
    rw [obtained_grant]
    exact t.tiles.add unit_pos hn fun z hz => Nat.lt_of_lt_of_le (t.room z hz).2 ha
  room := by
    intro z hz
    rw [obtained_grant] at hz
    show h.base + UNIT ≤ z ∧ z < a + n * UNIT
    have habove := t.above
    rcases hz with ⟨h₁, h₂⟩ | hz
    · simp only [UNIT] at *
      omega
    · have := t.room z hz
      omega
  null := t.null
  above := Nat.le_trans t.above (Nat.le_trans ha (Nat.le_add_right ..))
  brk := hlt

theorem Tidy.fresh (t : Tidy h fs ls) (hn : 0 < n) (ha : h.brk ≤ a) (hlt : a + n * UNIT < 2 ^ 32) :
    Tidy ((h.grant a (n * UNIT)).setSize a n) fs ((a, n) :: ls) where
  laid := (t.laid.fresh hn ha hlt).perm List.perm_middle.symm
  circle := t.circle
  order := t.order
  freep := t.freep

/-- `morecore` fails, or there is a free block of the size asked for. -/
theorem morecore_spec (t : Tidy h fs ls) {nu : Nat} (hnu : nu < 2 ^ 28) (a : Option Nat) :
    h.morecore nu a = some (h, false) ∨
      ∃ h' fs', h.morecore nu a = some (h', true) ∧ h'.live = h.live ∧ Tidy h' fs' ls ∧
        ∃ b ∈ fs', nu ≤ b.2 := by
  obtain ⟨n, hn, hle, hlt⟩ :
      ∃ n, (if nu < 4096 then 4096 else nu) = n ∧ nu ≤ n ∧ 0 < n ∧ n < 2 ^ 28 := by
    refine ⟨_, rfl, ?_⟩
    split <;> omega
  have hint : (toInt (n * UNIT)).toNat = n * UNIT := toInt_toNat (by simp only [UNIT]; omega)
  cases a with
  | none => exact .inl rfl
  | some a =>
    by_cases ha : h.brk ≤ a ∧ a + n * UNIT < 2 ^ 32
    · right
      obtain ⟨h', fs', hfree, hlive, t', b, hb, hbn⟩ := free_spec (t.fresh hlt.1 ha.1 ha.2)
      refine ⟨h', fs', ?_, hlive, t', b, hb, Nat.le_trans hle hbn⟩
      simp only [Heap.morecore, Heap.sbrk, hn, hint, if_pos ha, hfree, Option.map_some]
    · left
      simp only [Heap.morecore, Heap.sbrk, hn, hint, if_neg ha]

/-! ### Taking a block -/

/-- A block leaves the list. -/
theorem Tidy.unlink (t : Tidy h (cs ++ x :: ds) ls) (hl : ring h cs = l ++ [c]) :
    Tidy { h.setPtr c.1 (h.ptr x.1) with freep := c.1 } (cs ++ ds) (x :: ls) where
  laid := by
    have hp : (cs ++ x :: ds ++ ls).Perm (cs ++ ds ++ x :: ls) := by
      rw [List.append_assoc, List.append_assoc]
      exact (List.perm_middle.symm).append_left cs
    obtain ⟨hs, ht, hr, hn, ha, hb⟩ := t.laid.perm hp
    exact ⟨hs, ht, hr, hn, ha, hb⟩
  circle := by
    have hnd : ((l ++ c :: (x :: ds ++ ls)).map Prod.fst).Nodup := by
      rw [← ring_append hl]
      have := t.laid.nodup
      rwa [List.append_assoc] at this
    obtain ⟨hne₁, hne₂⟩ := ne_of_nodup hnd
    have hcircle := t.circle
    rw [ring_append hl] at hcircle
    obtain ⟨_, hlow, rfl, -, hup⟩ := seg_append.mp hcircle
    have hlow' := seg_setPtr (z := h.ptr x.1) hlow hne₁
    have hup' := seg_setPtr (z := h.ptr x.1) hup fun d hd => hne₂ d (by simp [hd])
    show Seg Prod.fst (h.setPtr c.1 (h.ptr x.1)).next h.base (ring h (cs ++ ds)) h.base
    rw [ring_append hl]
    refine seg_append.mpr ⟨c.1, hlow', rfl, ?_⟩
    rw [next_setPtr_self]
    exact hup'
  order := by
    have hord := List.isChain_iff_pairwise.mp t.order
    have hsub : (ring h (cs ++ ds)).Sublist (ring h (cs ++ x :: ds)) :=
      ((List.sublist_cons_self x ds).append_left cs).cons_cons _
    exact List.isChain_iff_pairwise.mpr (hord.sublist hsub)
  freep := by
    show c.1 ∈ (ring h (cs ++ ds)).map Prod.fst
    rw [ring_append hl]
    simp

/-- The tail of a block is put into use. -/
theorem Tidy.splitTail {m : Nat} (t : Tidy h (cs ++ x :: ds) ls) (hl : ring h cs = l ++ [c])
    (hm : 0 < m) (hn : 0 < n) (hx : x.2 = m + n) :
    Tidy { (h.setSize x.1 m).setSize (x.1 + UNIT * m) n with freep := c.1 } (cs ++ (x.1, m) :: ds)
      ((x.1 + UNIT * m, n) :: ls) where
  laid := by
    have hp : (cs ++ x :: ds ++ ls).Perm ((x.1, m + n) :: (cs ++ (ds ++ ls))) := by
      rw [List.append_assoc, ← hx]
      exact List.perm_middle
    have hp' : ((x.1, m) :: (x.1 + UNIT * m, n) :: (cs ++ (ds ++ ls))).Perm
        (cs ++ (x.1, m) :: ds ++ (x.1 + UNIT * m, n) :: ls) := by
      refine (List.Perm.swap _ _ _).trans (.trans (.cons _ ?_) List.perm_middle.symm)
      rw [List.append_assoc]
      exact List.perm_middle.symm
    obtain ⟨hs, ht, hr, hn, ha, hb⟩ := (((t.laid.perm hp).split (x := (x.1, m))
      (y := (x.1 + UNIT * m, n)) hm hn rfl).perm hp')
    exact ⟨hs, ht, hr, hn, ha, hb⟩
  circle := by
    have hcircle := t.circle
    rw [ring_append hl] at hcircle
    show Seg Prod.fst h.next h.base (ring h (cs ++ (x.1, m) :: ds)) h.base
    rw [ring_append hl]
    obtain ⟨_, hlow, rfl, hc, hup⟩ := seg_append.mp hcircle
    exact seg_append.mpr ⟨c.1, hlow, rfl, hc, hup⟩
  order := by
    have hord := t.order
    rw [ring_append hl] at hord
    show (ring h (cs ++ (x.1, m) :: ds)).IsChain Below
    rw [ring_append hl]
    obtain ⟨h₁, h₂, h₃⟩ := List.isChain_append_cons_cons.mp hord
    refine List.isChain_append_cons_cons.mpr ⟨h₁, h₂, ?_⟩
    cases ds with
    | nil => exact List.isChain_singleton _
    | cons d ds =>
      obtain ⟨h₄, h₅⟩ := List.isChain_cons_cons.mp h₃
      refine List.isChain_cons_cons.mpr ⟨?_, h₅⟩
      simp only [Below, UNIT] at *
      omega
  freep := by
    show c.1 ∈ (ring h (cs ++ (x.1, m) :: ds)).map Prod.fst
    rw [ring_append hl]
    simp

/-- What the loop of `malloc` returns for the block `p` behind `prevp`. -/
def Heap.found (h : Heap) (prevp p nunits : Nat) : Heap × Option Nat :=
  let (h, p) := h.take prevp p nunits
  ({ h with live := (p, nunits) :: h.live }, some p)

/-- A block that is large enough is taken. -/
theorem found_spec (t : Tidy h fs h.live) (hc : c ∈ ring h fs) (hx : x ∈ ring h fs)
    (hnext : h.next c = x.1) (hn : 0 < n) (hle : n ≤ h.size x.1) :
    ∃ fs', Tidy (h.found c.1 x.1 n).1 fs' (h.found c.1 x.1 n).1.live := by
  have hsub : ∀ b ∈ ring h fs, b ∈ ring h (fs ++ h.live) := fun b hb =>
    List.mem_append_left h.live hb
  have hsize : h.size x.1 = x.2 := t.laid.sizes x (hsub x hx)
  have hnd : ((ring h fs).map Prod.fst).Nodup := by
    have := t.laid.nodup
    rw [show ring h (fs ++ h.live) = ring h fs ++ h.live from rfl, List.map_append] at this
    exact this.of_append_left
  -- the block is not `base`, so it has a predecessor in the list, which is `c`
  obtain ⟨l, c', ds, e⟩ : ∃ l c' ds, ring h fs = l ++ c' :: x :: ds := by
    rcases List.mem_cons.mp hx with rfl | hx
    · rw [hsize] at hle
      exact absurd (Nat.lt_of_lt_of_le hn hle) (Nat.lt_irrefl 0)
    · obtain ⟨l₁, ds, rfl⟩ := List.append_of_mem hx
      obtain ⟨l, c', e⟩ : ∃ l c', ring h l₁ = l ++ [c'] :=
        ⟨_, _, (List.dropLast_append_getLast (List.cons_ne_nil _ _)).symm⟩
      exact ⟨l, c', ds, ring_append e⟩
  obtain rfl : c = c' := by
    refine t.circle.next_inj hnd hc (show c' ∈ ring h fs by simp [e]) ?_
    rw [hnext, t.next_eq e]
    rfl
  obtain ⟨cs, hl, rfl⟩ := ring_split e
  by_cases heq : h.size x.1 = n
  · have hxn : x = (x.1, n) := Prod.ext rfl (hsize.symm.trans heq)
    have hfound : h.found c.1 x.1 n =
        ({ h.setPtr c.1 (h.ptr x.1) with freep := c.1, live := (x.1, n) :: h.live }, some x.1) := by
      simp only [Heap.found, Heap.take, if_pos heq]
      rfl
    have tt := t.unlink hl
    rw [hfound]
    refine ⟨cs ++ ds, ?_⟩
    obtain ⟨⟨hs, ht, hr, hn, ha, hb⟩, hci, ho, hf⟩ := hxn ▸ tt
    exact ⟨⟨hs, ht, hr, hn, ha, hb⟩, hci, ho, hf⟩
  · obtain ⟨m, hm⟩ : ∃ m, x.2 = m + n := ⟨x.2 - n, by omega⟩
    have hm0 : 0 < m := by omega
    have hsub' : h.size x.1 - n = m := by omega
    have hplus : plus x.1 m = x.1 + UNIT * m := by
      have := t.laid.end_lt (hsub x hx)
      refine Nat.mod_eq_of_lt ?_
      simp only [UNIT] at *
      omega
    have hfound : h.found c.1 x.1 n =
        ({ (h.setSize x.1 m).setSize (x.1 + UNIT * m) n with
            freep := c.1, live := (x.1 + UNIT * m, n) :: h.live }, some (x.1 + UNIT * m)) := by
      have hself : (h.setSize x.1 m).size x.1 = m := Function.update_self ..
      simp only [Heap.found, Heap.take, if_neg heq, hsub', hself, hplus]
      rfl
    rw [hfound]
    refine ⟨cs ++ (x.1, m) :: ds, ?_⟩
    obtain ⟨⟨hs, ht, hr, hn, ha, hb⟩, hci, ho, hf⟩ := t.splitTail hl hm0 hn hm
    exact ⟨⟨hs, ht, hr, hn, ha, hb⟩, hci, ho, hf⟩

/-! ### The loop of `malloc` -/

/-- What the loop does when it has come round to `freep`. -/
def Heap.grow (nunits k : Nat) (h : Heap) (as : List Nat) : Option (Heap × Option Nat) :=
  match h.morecore nunits as.head? with
  | none => none
  | some (h, false) => some (h, none)
  | some (h, true) => Heap.search nunits k h as.tail h.freep (h.ptr h.freep)

theorem search_found {q : Nat} (hq : n ≤ h.size q) :
    Heap.search n (k + 1) h as p q = some (h.found p q n) := by
  rw [Heap.search, if_pos hq]
  rfl

theorem search_round (hq : ¬ n ≤ h.size h.freep) :
    Heap.search n (k + 1) h as p h.freep = Heap.grow n k h as := by
  rw [Heap.search, if_neg hq, if_pos rfl]
  rfl

theorem search_next {q : Nat} (hq : ¬ n ≤ h.size q) (hne : q ≠ h.freep) :
    Heap.search n (k + 1) h as p q = Heap.search n k h as q (h.ptr q) := by
  rw [Heap.search, if_neg hq, if_neg hne]

/-- From a block to the one at `freep`, the last of the walk, the loop finds a block, or comes there
with all of them too small. -/
theorem search_walk (n : Nat) (as : List Nat) {w z : Nat × Nat} (hz : z.1 = h.freep)
    (hs : Seg Prod.fst h.next (h.next w) l z.1) (hne : ∀ b ∈ l, b.1 ≠ h.freep) (hk : l.length < k) :
    (∃ c x, c ∈ w :: l ∧ x ∈ l ++ [z] ∧ h.next c = x.1 ∧ n ≤ h.size x.1 ∧
        Heap.search n k h as w.1 (h.next w) = some (h.found c.1 x.1 n)) ∨
      ((∀ x ∈ l ++ [z], ¬ n ≤ h.size x.1) ∧
        Heap.search n k h as w.1 (h.next w) = Heap.grow n (k - l.length - 1) h as) := by
  induction l generalizing w k with
  | nil =>
    obtain ⟨k, rfl⟩ := Nat.exists_eq_succ_of_ne_zero (Nat.ne_of_gt hk)
    have hw : h.next w = z.1 := hs
    by_cases hx : n ≤ h.size z.1
    · refine .inl ⟨w, z, List.mem_cons_self .., List.mem_singleton.mpr rfl, hw, hx, ?_⟩
      rw [hw]
      exact search_found hx
    · refine .inr ⟨fun x hx' => List.mem_singleton.mp hx' ▸ hx, ?_⟩
      rw [hw, hz]
      exact search_round (hz ▸ hx)
  | cons q l ih =>
    obtain ⟨k, rfl⟩ := Nat.exists_eq_succ_of_ne_zero (Nat.ne_of_gt (Nat.zero_lt_of_lt hk))
    obtain ⟨hq, hs⟩ := hs
    by_cases hx : n ≤ h.size q.1
    · refine .inl ⟨w, q, List.mem_cons_self .., List.mem_cons_self .., hq, hx, ?_⟩
      rw [hq]
      exact search_found hx
    have hstep : Heap.search n (k + 1) h as w.1 (h.next w) =
        Heap.search n k h as q.1 (h.next q) := by
      rw [hq]
      exact search_next hx (hne q (List.mem_cons_self ..))
    rw [Nat.succ_eq_add_one, hstep]
    have hne' : ∀ b ∈ l, b.1 ≠ h.freep := fun b hb => hne b (List.mem_cons_of_mem _ hb)
    rcases ih hs hne' (Nat.lt_of_succ_lt_succ hk) with
      ⟨c, x, hc, hxm, hcx, hn, e⟩ | ⟨hall, e⟩
    · exact .inl ⟨c, x, List.mem_cons_of_mem _ hc, List.mem_cons_of_mem _ hxm, hcx, hn, e⟩
    refine .inr ⟨fun x hxm => ?_, ?_⟩
    · rcases List.mem_cons.mp hxm with rfl | hxm
      · exact hx
      · exact hall x hxm
    · rw [e, List.length_cons, show k + 1 - (l.length + 1) - 1 = k - l.length - 1 by omega]

/-- One round of the loop, from `freep`: a block is found and taken, or all are too small. -/
theorem search_lap (t : Tidy h fs h.live) (as : List Nat) (hn : 0 < n) (hk : 2 ^ 32 ≤ k) :
    (∃ r fs', Heap.search n k h as h.freep (h.ptr h.freep) = some r ∧ Tidy r.1 fs' r.1.live) ∨
      ((∀ x ∈ ring h fs, x.2 < n) ∧ ∃ j, k ≤ j + 2 ^ 32 ∧
        Heap.search n k h as h.freep (h.ptr h.freep) = Heap.grow n j h as) := by
  obtain ⟨z, hz, hfreep⟩ := List.mem_map.mp t.freep
  obtain ⟨l, hround, hperm⟩ := t.circle.round hz
  have hnd : (([] ++ z :: l).map Prod.fst).Nodup := by
    refine (hperm.map Prod.fst).nodup_iff.mpr ?_
    have := t.laid.nodup
    rw [show ring h (fs ++ h.live) = ring h fs ++ h.live from rfl, List.map_append] at this
    exact this.of_append_left
  have hlen : l.length + 1 ≤ 2 ^ 32 := by
    have h₁ := hperm.length_eq
    have h₂ := t.laid.length_le
    simp only [ring, List.length_cons, List.length_append] at h₁ h₂
    omega
  have hne : ∀ b ∈ l, b.1 ≠ h.freep := hfreep ▸ (ne_of_nodup hnd).2
  have hmem : ∀ x ∈ l ++ [z], x ∈ ring h fs := fun x hx =>
    hperm.mem_iff.mp ((List.perm_append_singleton z l).mem_iff.mp hx)
  rw [← hfreep]
  rcases search_walk n as (k := k) hfreep hround hne (by omega) with
    ⟨c, x, hc, hx, hcx, hle, e⟩ | ⟨hall, e⟩
  · obtain ⟨fs', t'⟩ := found_spec t (hperm.mem_iff.mp hc) (hmem x hx) hcx hn hle
    exact .inl ⟨_, fs', e, t'⟩
  refine .inr ⟨fun x hx => ?_, _, ?_, e⟩
  · have hxl : x ∈ l ++ [z] := (List.perm_append_singleton z l).mem_iff.mpr (hperm.mem_iff.mpr hx)
    have hsize := t.laid.sizes x (List.mem_append_left h.live hx)
    have := hall x hxl
    omega
  · omega

/-- The loop of `malloc` ends, at the latest in its second round. -/
theorem search_spec (t : Tidy h fs h.live) (hn : 0 < n) (hlt : n < 2 ^ 28) (as : List Nat) :
    ∃ r fs', Heap.search n ROUNDS h as h.freep (h.ptr h.freep) = some r ∧
      Tidy r.1 fs' r.1.live := by
  rcases search_lap t (k := ROUNDS) as hn (by decide) with hfound | ⟨-, j, hj, e⟩
  · exact hfound
  rw [e]
  rcases morecore_spec t hlt as.head? with hm | ⟨h', fs', hm, hlive, t', b, hb, hbn⟩
  · exact ⟨(h, none), fs, by rw [Heap.grow, hm], t⟩
  rw [Heap.grow, hm]
  have hj' : 2 ^ 32 ≤ j := by
    simp only [ROUNDS] at hj
    omega
  rcases search_lap (hlive ▸ t') as.tail hn hj' with hfound | ⟨hall, -⟩
  · exact hfound
  · exact absurd (hall b (List.mem_cons_of_mem _ hb)) (Nat.not_lt.mpr hbn)

/-! ### Runs -/

/-- The sizes for which the bytes that `malloc` may ask for are a positive `int`. -/
def Fits : Act → Prop
  | .malloc nbytes _ => nbytes.toNat + 16 ≤ 2 ^ 31
  | .free _ => True

instance : DecidablePred Fits
  | .malloc nbytes _ => inferInstanceAs (Decidable (nbytes.toNat + 16 ≤ 2 ^ 31))
  | .free _ => inferInstanceAs (Decidable True)

/-- The sizes for which the unit count does not wrap. -/
def Counts : Act → Prop
  | .malloc nbytes _ => nbytes.toNat + UNIT - 1 < 2 ^ 32
  | .free _ => True

instance : DecidablePred Counts
  | .malloc nbytes _ => inferInstanceAs (Decidable (nbytes.toNat + UNIT - 1 < 2 ^ 32))
  | .free _ => inferInstanceAs (Decidable True)

theorem units_bounds {nbytes : UInt32} (hb : nbytes.toNat + 16 ≤ 2 ^ 31) :
    0 < units nbytes ∧ units nbytes < 2 ^ 28 := by
  simp only [units, UNIT]
  omega

/-- Before the first call, or a list. -/
def Inv (h : Heap) : Prop := Initial h ∨ ∃ fs, Tidy h fs h.live

theorem Initial.begin (i : Initial h) : Tidy h.begin [] h.begin.live := by
  have hbegin : h.begin =
      { (h.setPtr h.base h.base).setSize h.base 0 with freep := h.base } := if_pos i.freep
  rw [hbegin]
  refine ⟨⟨?_, ?_, ?_, i.base, i.above, i.brk⟩, ⟨rfl, ?_⟩, List.isChain_singleton _, ?_⟩
  · intro b hb
    have hb : b ∈ (h.base, 0) :: h.live := hb
    rw [i.live, List.mem_singleton] at hb
    rw [hb]
    exact Function.update_self ..
  · show Tiles UNIT h.live h.obtained
    rw [i.live]
    refine ⟨(fun _ hb => nomatch hb), .nil, fun z => ?_⟩
    simp [Heap.obtained, i.regions]
  · intro z hz
    obtain ⟨r, hr, -⟩ : ∃ r ∈ h.regions, r.1 ≤ z ∧ z < r.1 + r.2 := hz
    rw [i.regions] at hr
    cases hr
  · exact Function.update_self ..
  · exact List.mem_cons_self ..

theorem Tidy.begin (t : Tidy h fs ls) : h.begin = h := by
  refine if_neg fun e => ?_
  obtain ⟨b, hb, hf⟩ := List.mem_map.mp t.freep
  have := t.base_le hb
  have := t.laid.null
  omega

theorem malloc_spec (i : Inv h) {nbytes : UInt32} (hb : nbytes.toNat + 16 ≤ 2 ^ 31)
    (as : List Nat) : ∃ r, h.malloc nbytes as = some r ∧ Inv r.1 := by
  obtain ⟨hpos, hlt⟩ := units_bounds hb
  obtain ⟨fs, t⟩ : ∃ fs, Tidy h.begin fs h.begin.live := by
    rcases i with i | ⟨fs, t⟩
    · exact ⟨[], i.begin⟩
    · exact ⟨fs, t.begin.symm ▸ t⟩
  obtain ⟨r, fs', hr, t'⟩ := search_spec t hpos hlt as
  exact ⟨r, hr, .inr ⟨fs', t'⟩⟩

/-- A block that is freed is not live any more; the others are. -/
theorem live_perm {bs : List (Nat × Nat)} (hnd : (bs.map Prod.fst).Nodup) (hb : b ∈ bs) :
    bs.Perm (b :: bs.filter fun d => d.1 ≠ b.1) := by
  obtain ⟨l₁, l₂, rfl⟩ := List.append_of_mem hb
  obtain ⟨h₁, h₂⟩ := ne_of_nodup hnd
  have hf : (l₁ ++ b :: l₂).filter (fun d => d.1 ≠ b.1) = l₁ ++ l₂ := by
    rw [List.filter_append, List.filter_cons_of_neg (by simp),
      List.filter_eq_self.mpr fun d hd => decide_eq_true (h₁ d hd),
      List.filter_eq_self.mpr fun d hd => decide_eq_true (h₂ d hd)]
  rw [hf]
  exact List.perm_middle

theorem free_live (i : Inv h) {bp : Nat} (hbp : bp ∈ h.live.map Prod.fst) :
    ∃ h', h.free bp = some h' ∧ Inv { h' with live := h'.live.filter fun b => b.1 ≠ bp } := by
  rcases i with i | ⟨fs, t⟩
  · rw [i.live] at hbp
    cases hbp
  obtain ⟨b, hb, rfl⟩ := List.mem_map.mp hbp
  have hnd : (h.live.map Prod.fst).Nodup := by
    have := t.laid.tiles.nodup unit_pos
    rw [List.map_append] at this
    exact this.of_append_right
  have tp : Tidy h fs (b :: h.live.filter fun d => d.1 ≠ b.1) :=
    ⟨t.laid.perm ((live_perm hnd hb).append_left fs), t.circle, t.order, t.freep⟩
  obtain ⟨h', fs', hfree, hlive, t', -⟩ := free_spec tp
  refine ⟨h', hfree, .inr ⟨fs', ?_⟩⟩
  obtain ⟨⟨hs, ht, hr, hn, ha, hb⟩, hci, ho, hf⟩ := t'
  rw [hlive]
  exact ⟨⟨hs, ht, hr, hn, ha, hb⟩, hci, ho, hf⟩

theorem inv_step {a : Act} {h' : Heap} (i : Inv h) (ha : Fits a) (hs : h.step a = some h') :
    Inv h' := by
  cases a with
  | malloc nbytes as =>
    obtain ⟨r, hr, i'⟩ := malloc_spec i ha as
    rw [Heap.step, hr] at hs
    exact Option.some.inj hs ▸ i'
  | free bp =>
    rw [Heap.step] at hs
    split at hs
    case isTrue hbp =>
        obtain ⟨h₁, hfree, i'⟩ := free_live i hbp
        rw [hfree] at hs
        exact Option.some.inj hs ▸ i'
    case isFalse => cases hs

theorem inv_run (r : HeapRun (fun _ a => Fits a) h) : Inv h := by
  obtain ⟨h₀, h₀i, r⟩ := r
  exact r.invariant (.inl h₀i) fun _ _ _ i ha hs => inv_step i ha hs

/-! ### The free list -/

/-- The free list, and the memory that it and the live blocks are. -/
structure Sound (h : Heap) (fs : List (Nat × Nat)) : Prop where
  /-- from `base` the pointers lead through the free blocks back to `base` -/
  circle : Seg Prod.fst h.next h.base (ring h fs) h.base
  /-- and `freep` is in the circle -/
  freep : h.freep ∈ (ring h fs).map Prod.fst
  sizes : ∀ b ∈ ring h fs, h.size b.1 = b.2
  increasing : (ring h fs).Pairwise fun b c => b.1 < c.1
  wrap : ∃! b, b ∈ ring h fs ∧ h.next b ≤ b.1
  /-- free blocks do not overlap, and do not touch -/
  coalesced : fs.Pairwise fun b c => b.1 + UNIT * b.2 < c.1
  unused : ∀ b ∈ fs, ∀ c ∈ h.live, Apart UNIT b c
  live : h.live.Pairwise (Apart UNIT)
  cover : ∀ z, (∃ b ∈ fs ++ h.live, z ∈ extent UNIT b) ↔ z ∈ h.obtained

theorem Tidy.wraps_iff (t : Tidy h fs ls) {l₁ l₂ : List (Nat × Nat)}
    (e : ring h fs = l₁ ++ b :: l₂) : h.next b ≤ b.1 ↔ l₂ = [] := by
  have hnext := t.next_eq e
  have hord := t.order
  rw [e] at hord
  cases l₂ with
  | nil =>
    have hbase : h.base ≤ b.1 := t.base_le (by simp [e])
    simpa [hnext] using hbase
  | cons d l =>
    have hbd := (List.isChain_append_cons_cons.mp hord).2.1
    have hd : h.next b = d.1 := hnext
    simp only [Below] at hbd
    simp only [hd, reduceCtorEq, iff_false]
    omega

theorem Tidy.one_wrap (t : Tidy h fs ls) : ∃! b, b ∈ ring h fs ∧ h.next b ≤ b.1 := by
  obtain ⟨l, z, e⟩ : ∃ l z, ring h fs = l ++ [z] :=
    ⟨_, _, (List.dropLast_append_getLast (List.cons_ne_nil _ _)).symm⟩
  refine ⟨z, ⟨by simp [e], (t.wraps_iff e).mpr rfl⟩, ?_⟩
  rintro b ⟨hb, hwrap⟩
  obtain ⟨l₁, l₂, e'⟩ := List.append_of_mem hb
  obtain rfl := (t.wraps_iff e').mp hwrap
  exact (List.cons.inj (List.append_inj' (e'.symm.trans e) rfl).2).1

theorem Tidy.sound (t : Tidy h fs h.live) : Sound h fs := by
  have hord := List.isChain_iff_pairwise.mp t.order
  obtain ⟨-, hlive, happ⟩ := List.pairwise_append.mp t.laid.tiles.apart
  refine ⟨t.circle, t.freep, fun b hb => t.laid.sizes b (List.mem_append_left h.live hb), ?_,
    t.one_wrap, (List.pairwise_cons.mp hord).2, happ, hlive, t.laid.tiles.cover⟩
  refine hord.imp fun {b c} hbc => ?_
  simp only [Below] at hbc
  omega

/-- **The heap over every run of calls.**  Where each size that is asked for leaves the bytes a
positive `int`: before the first call there is nothing, and after it the free list is a circle in
the order of the addresses, fully coalesced, and with the live blocks it is the memory obtained.
Every call of `malloc` with such a size, and every `free` of a live block, ends. -/
theorem heap_covered (r : HeapRun (fun _ a => Fits a) h) :
    ((h.freep = 0 ∧ h.regions = [] ∧ h.live = []) ∨ ∃ fs, Sound h fs) ∧
      (∀ (nbytes : UInt32) (as : List Nat), nbytes.toNat + 16 ≤ 2 ^ 31 →
        (h.malloc nbytes as).isSome) ∧
      ∀ bp ∈ h.live.map Prod.fst, (h.free bp).isSome := by
  have i := inv_run r
  refine ⟨?_, fun nbytes as hb => ?_, fun bp hbp => ?_⟩
  · rcases i with i | ⟨fs, t⟩
    · exact .inl ⟨i.freep, i.regions, i.live⟩
    · exact .inr ⟨fs, t.sound⟩
  · obtain ⟨r, hr, -⟩ := malloc_spec i hb as
    rw [hr]
    rfl
  · obtain ⟨h', hfree, -⟩ := free_live i hbp
    rw [hfree]
    rfl

/-- A heap before the first call. -/
def sample : Heap :=
  { base := 4096, ptr := fun _ => 0, size := fun _ => 0, freep := 0, brk := 16384, regions := [],
    live := [] }

theorem sample_initial : Initial sample := by
  constructor <;> decide

/-- Two blocks are taken from the tail of the first region, and the first of them is freed. -/
theorem heap_covered_freed :
    ∃ h : Heap, h.regions = [(16384, 32768)] ∧ h.live = [(48976, 8)] ∧
      (∃ fs, Sound h fs) ∧ (h.malloc 100 []).isSome ∧ (h.free 48976).isSome := by
  obtain ⟨h, r, hr, hl⟩ := exists_run Heap.step (fun _ a => Fits a) sample
    [.malloc 100 [16384], .malloc 50 [], .free 49040]
    (fun h => h.regions = [(16384, 32768)] ∧ h.live = [(48976, 8)]) (by decide +kernel)
  obtain ⟨hlist, hmalloc, hfree⟩ := heap_covered ⟨sample, sample_initial, r⟩
  refine ⟨h, hr, hl, ?_, hmalloc 100 [] (by decide), hfree 48976 (by simp [hl])⟩
  rcases hlist with ⟨-, hr', -⟩ | hlist
  · rw [hr] at hr'
    cases hr'
  · exact hlist

/-- `malloc(2 ^ 32 - 8)` asks for no memory and returns a block of `2 ^ 29` units. -/
theorem large_block_uncovered :
    ∃ h : Heap, HeapRun (fun _ a => Counts a) h ∧ h.freep ≠ 0 ∧ h.regions = [(16384, 0)] ∧
      h.live = [(16384, 2 ^ 29)] ∧ ∀ fs, ¬ Sound h fs := by
  obtain ⟨h, r, hf, hr, hl⟩ := exists_run Heap.step (fun _ a => Counts a) sample
    [.malloc 4294967288 [16384]]
    (fun h => h.freep ≠ 0 ∧ h.regions = [(16384, 0)] ∧ h.live = [(16384, 2 ^ 29)])
    (by decide +kernel)
  refine ⟨h, ⟨sample, sample_initial, r⟩, hf, hr, hl, fun fs hsound => ?_⟩
  -- the first address of the block is in no region
  have hz : 16384 ∈ extent UNIT (16384, 2 ^ 29) := ⟨Nat.le_refl _, by decide⟩
  obtain ⟨q, hq, hlo, hhi⟩ := (hsound.cover 16384).mp ⟨_, by simp [hl], hz⟩
  rw [hr, List.mem_singleton] at hq
  subst hq
  exact absurd hhi (Nat.lt_irrefl _)

end Xv6.Malloc
