import Xv6.Fs.Refine
import Xv6.Support.Slots

/-!
# Fs — a directory is a map (`fs.c`, `sysfile.c`)

A directory is an array of slots of `DIRENT` bytes in a file.  A slot is free when its inode number
is 0; otherwise its key is the name, cut to `DIRSIZ` bytes (`direntKey`).  `dirlookup` finds the
first slot with the key of a name, `dirlink` puts a name into the first free slot or behind the last
one, and the write of `sys_unlink` clears a slot: the operations of `Support.Slots`.

The slots are read and written through `readi` and `writei`.  Below the triple region a write
changes the slot it is meant for only.

* `DirOk.dirlink`, `DirOk.clearEntry`: what the two operations do to the map.
-/

namespace Xv6.Fs

open Support (bind_ok findSlot DistinctKeys PutSlot ClearSlot)

/-! ### Names and entries -/

/-- The bytes of a name that count. -/
def cutName (s : List UInt8) : List UInt8 := (s.take DIRSIZ).takeWhile (· ≠ 0)

/-- The name of an entry that is in use. -/
def direntKey (de : List UInt8) : Option (List UInt8) :=
  if direntInum de = 0 then none else some (cutName (de.drop 2))

theorem sameName_iff {s t : List UInt8} : sameName s t = true ↔ cutName s = cutName t :=
  decide_eq_true_iff

theorem direntKey_eq_some {de name : List UInt8} : direntKey de = some (cutName name) ↔
    direntInum de ≠ 0 ∧ sameName name (de.drop 2) = true := by
  rw [direntKey, sameName_iff]
  split
  · rename_i h0
    simp [h0]
  · rename_i h0
    simp [h0, eq_comm]

theorem direntKey_eq_none {de : List UInt8} : direntKey de = none ↔ direntInum de = 0 := by
  rw [direntKey]
  split
  · rename_i h0
    simp [h0]
  · rename_i h0
    simp [h0]

theorem takeWhile_zeros (n : Nat) : (List.replicate n (0 : UInt8)).takeWhile (· ≠ 0) = [] := by
  cases n <;> rfl

/-- What `strncpy` copies is what `strncmp` compares. -/
theorem takeWhile_strncpy (t : List UInt8) (n : Nat) :
    (strncpy t n).takeWhile (· ≠ 0) = (t.take n).takeWhile (· ≠ 0) := by
  induction n generalizing t with
  | zero => cases t <;> rfl
  | succ n ih =>
    cases t with
    | nil => exact takeWhile_zeros (n + 1)
    | cons c t =>
      rw [strncpy]
      split
      · rename_i hc
        subst hc
        rw [takeWhile_zeros]
        rfl
      · rename_i hc
        simp only [List.take_succ_cons, List.takeWhile_cons, ne_eq, hc, not_false_eq_true,
          decide_true, if_true, ih]

theorem length_strncpy (t : List UInt8) (n : Nat) : (strncpy t n).length = n := by
  induction n generalizing t with
  | zero => cases t <;> rfl
  | succ n ih =>
    cases t with
    | nil => exact List.length_replicate
    | cons c t =>
      rw [strncpy]
      split
      · exact List.length_replicate
      · rw [List.length_cons, ih]

@[simp] theorem length_direntOf (name : List UInt8) (inum : Nat) :
    (direntOf name inum).length = DIRENT := by
  simp [direntOf, length_strncpy]

theorem direntInum_direntOf (name : List UInt8) {inum : Nat} (h : inum < 2 ^ 16) :
    direntInum (direntOf name inum) = inum := by
  simp only [direntInum, direntOf, List.getD_cons_zero, List.getD_cons_succ, UInt8.toNat_ofNat']
  omega

/-- The key of a new entry. -/
theorem direntKey_direntOf (name : List UInt8) {inum : Nat} (h0 : 0 < inum) (h : inum < 2 ^ 16) :
    direntKey (direntOf name inum) = some (cutName name) := by
  have hcut : cutName (strncpy name DIRSIZ) = cutName name := by
    rw [cutName, List.take_of_length_le (Nat.le_of_eq (length_strncpy _ _)), takeWhile_strncpy]
    rfl
  rw [direntKey, direntInum_direntOf name h, if_neg (by omega)]
  exact congrArg some hcut

/-! ### The slots of a directory -/

/-- Slot `k` of a directory. -/
def Volume.slot (fs : Volume) (dp k : Nat) : List UInt8 := fs.dirent dp (DIRENT * k)

/-- How many slots a directory has. -/
def Volume.slots (fs : Volume) (dp : Nat) : Nat := (fs.current dp).size / DIRENT

/-- No two entries in use have the same name. -/
def NamesDistinct (fs : Volume) (dp : Nat) : Prop :=
  DistinctKeys direntKey (fs.slot dp) (fs.slots dp)

/-- The first slot with the name. -/
def Volume.slotOf (fs : Volume) (dp : Nat) (name : List UInt8) : Option Nat :=
  findSlot direntKey (fs.slot dp) (fs.slots dp) (cutName name)

/-- **A directory that is locked**, in a well-formed file system whose inode cache agrees with the
disk. -/
structure DirOk (sb : Superblock) (fs : Volume) (dp : Nat) : Prop where
  wf : WellFormed sb fs
  cached : ∀ i, (fs.inode i).valid = true → (fs.inode i).toDinode = fs.dinode i
  ref : ∀ i, 0 ≤ (fs.inode i).ref
  held : 1 ≤ (fs.inode dp).ref
  valid : (fs.inode dp).valid = true
  dir : (fs.inode dp).type = .dir
  aligned : (fs.current dp).size % DIRENT = 0

section

variable {sb : Superblock} {fs fs₁ fs' : Volume} {dp : Nat}

theorem DirOk.size (h : DirOk sb fs dp) : (fs.current dp).size = DIRENT * fs.slots dp := by
  have := h.aligned
  rw [Volume.slots]
  simp only [DIRENT] at *
  omega

theorem DirOk.size_eq (h : DirOk sb fs dp) : (fs.inode dp).size = DIRENT * fs.slots dp := by
  rw [← h.size, current_of_valid h.valid]

theorem DirOk.lt_size {k : Nat} (h : DirOk sb fs dp) :
    DIRENT * k < (fs.inode dp).size ↔ k < fs.slots dp := by
  rw [h.size_eq]
  exact Nat.mul_lt_mul_left (by decide)

/-- The loops over the slots have enough rounds. -/
theorem DirOk.fuel (h : DirOk sb fs dp) : fs.slots dp - 0 < (fs.inode dp).size / DIRENT + 1 := by
  rw [h.size_eq, Nat.mul_div_cancel_left _ (by decide)]
  exact Nat.lt_succ_self _

theorem length_slot (fs : Volume) (dp k : Nat) : (fs.slot dp k).length = DIRENT := by
  simp [Volume.slot, Volume.dirent]

variable {k i off : Nat} {src name : List UInt8}

section

variable (h : DirOk sb fs dp)
include h

/-- **Reading a slot.** -/
theorem DirOk.readi (hk : k < fs.slots dp) :
    Fs.readi sb fs [] dp (DIRENT * k) DIRENT = .ok (some (fs.slot dp k), fs) := by
  have hsize := h.size
  have hlt := h.wf.size_lt dp
  simp only [DIRENT] at *
  have hd : (fs.inode dp).type ≠ .dev := by rw [h.dir]; decide
  rw [readi_eq h.valid hd (h.wf.mapped dp) (by omega) (by decide), Content.readi, length_content,
    if_neg (by omega), take_drop_content, Nat.min_eq_left (by omega)]
  rfl

/-- The loop of `dirlookup` looks through the slots from `k` on. -/
theorem DirOk.dirLoop (name : List UInt8) {fuel : Nat}
    (hk : k ≤ fs.slots dp) (hfuel : fs.slots dp - k < fuel) :
    Fs.dirLoop sb dp name fuel (DIRENT * k) fs = .ok
      (match (List.range' k (fs.slots dp - k)).find?
          (fun j => decide (direntKey (fs.slot dp j) = some (cutName name))) with
      | none => (none, fs)
      | some j => (some (direntInum (fs.slot dp j), DIRENT * j),
          iget fs (direntInum (fs.slot dp j)))) := by
  induction fuel generalizing k with
  | zero => exact absurd hfuel (Nat.not_lt_zero _)
  | succ fuel ih =>
    rw [Fs.dirLoop]
    by_cases hlt : k < fs.slots dp
    · rw [if_pos (h.lt_size.mpr hlt), h.readi hlt]
      have hrange : List.range' k (fs.slots dp - k) =
          k :: List.range' (k + 1) (fs.slots dp - (k + 1)) := by
        rw [show fs.slots dp - k = fs.slots dp - (k + 1) + 1 by omega, List.range'_succ]
      rw [hrange, List.find?_cons]
      dsimp only [bind, Except.bind]
      rw [if_neg (not_not_intro (length_slot fs dp k))]
      by_cases hkey : direntKey (fs.slot dp k) = some (cutName name)
      · rw [if_pos (direntKey_eq_some.mp hkey), decide_eq_true hkey]
      · rw [if_neg fun hc => hkey (direntKey_eq_some.mpr hc), decide_eq_false hkey]
        exact ih hlt (by omega)
    · rw [if_neg (h.lt_size.not.mpr hlt), show fs.slots dp - k = 0 by omega]
      rfl

/-- **`dirlookup`** finds the first slot with the name, and takes a reference to its inode. -/
theorem DirOk.dirlookup (name : List UInt8) : Fs.dirlookup sb fs dp name = .ok
      (match fs.slotOf dp name with
      | none => (none, fs)
      | some j => (some (direntInum (fs.slot dp j), DIRENT * j),
          iget fs (direntInum (fs.slot dp j)))) := by
  rw [Fs.dirlookup, if_neg (not_not_intro h.dir)]
  have hloop := h.dirLoop name (Nat.zero_le _) h.fuel
  rw [Nat.sub_zero, ← List.range_eq_range'] at hloop
  exact hloop

/-- The loop of `dirlink` stops at the first free slot. -/
theorem DirOk.dirlinkLoop {fuel : Nat} (hk : k ≤ fs.slots dp) (hfuel : fs.slots dp - k < fuel) :
    ∃ j, Fs.dirlinkLoop sb dp fuel (DIRENT * k) fs = .ok (DIRENT * j, fs) ∧ k ≤ j ∧
      j ≤ fs.slots dp ∧ (j < fs.slots dp → direntInum (fs.slot dp j) = 0) ∧
      ∀ l, k ≤ l → l < j → direntInum (fs.slot dp l) ≠ 0 := by
  induction fuel generalizing k with
  | zero => exact absurd hfuel (Nat.not_lt_zero _)
  | succ fuel ih =>
    rw [Fs.dirlinkLoop]
    by_cases hlt : k < fs.slots dp
    · rw [if_pos (h.lt_size.mpr hlt), h.readi hlt]
      dsimp only [bind, Except.bind]
      rw [if_neg (not_not_intro (length_slot fs dp k))]
      by_cases h0 : direntInum (fs.slot dp k) = 0
      · rw [if_pos h0]
        exact ⟨k, rfl, Nat.le_refl k, hk, fun _ => h0, fun l h₁ h₂ => by omega⟩
      rw [if_neg h0]
      obtain ⟨j, hj, hkj, hjn, hfree, hlow⟩ := ih hlt (by omega)
      refine ⟨j, hj, by omega, hjn, hfree, fun l h₁ h₂ => ?_⟩
      rcases Nat.eq_or_lt_of_le h₁ with rfl | h₁
      · exact h0
      · exact hlow l h₁ h₂
    · rw [if_neg (h.lt_size.not.mpr hlt)]
      exact ⟨k, rfl, Nat.le_refl k, hk, fun h => absurd h hlt, fun l h₁ h₂ => by omega⟩

end

/-! ### References -/

/-- The files are those on the disk and in the valid entries of the inode cache. -/
theorem WellFormed.same (hw : WellFormed sb fs) (hd : fs'.disk = fs.disk)
    (ha : ∀ j, (fs'.current j).addrs = (fs.current j).addrs)
    (hs : ∀ j, (fs'.current j).size = (fs.current j).size) : WellFormed sb fs' := by
  have hforest : fs'.forest = fs.forest := forest_congr ha hd
  have hused (c : Nat) : fs'.used sb c = fs.used sb c := by rw [Volume.used, hd]; rfl
  refine ⟨hw.owned.congr (fun q _ => by rw [hforest]) fun c _ => hused c,
    fun c hlt hc' => (hused c).trans (hw.metaUsed c hlt hc'), fun i bn h => ?_, fun i => ?_⟩
  · rw [hs] at h
    exact (mapped_congr hforest i bn).mpr (hw.mapped i bn h)
  · rw [hs]
    exact hw.size_lt i

theorem WellFormed.congr (hw : WellFormed sb fs) (hd : fs'.disk = fs.disk)
    (hc : ∀ j, fs'.current j = fs.current j) : WellFormed sb fs' :=
  hw.same hd (fun j => by rw [hc]) fun j => by rw [hc]

theorem slot_congr (hd : fs'.disk = fs.disk) (hc : ∀ j, fs'.current j = fs.current j) (dp : Nat) :
    fs'.slot dp = fs.slot dp ∧ fs'.slots dp = fs.slots dp := by
  have hforest : fs'.forest = fs.forest := forest_congr (fun j => by rw [hc]) hd
  refine ⟨funext fun k => ?_, by rw [Volume.slots, Volume.slots, hc]⟩
  simp only [Volume.slot, Volume.dirent, byteAt_congr hforest hd]

/-- A reference more, or one more and one less, on an inode other than the directory or on the
directory itself: nothing of the directory changes. -/
structure Touched (fs fs' : Volume) (dp : Nat) : Prop where
  disk : fs'.disk = fs.disk
  dinode : fs'.dinode = fs.dinode
  current : ∀ j, fs'.current j = fs.current j
  cached : ∀ j, (fs'.inode j).valid = true → (fs.inode j).valid = true ∧
    (fs'.inode j).toDinode = (fs.inode j).toDinode
  ref : ∀ j, (fs.inode j).ref ≤ (fs'.inode j).ref
  valid : (fs'.inode dp).valid = (fs.inode dp).valid
  type : (fs'.inode dp).type = (fs.inode dp).type

theorem Touched.dirOk (t : Touched fs fs' dp) (h : DirOk sb fs dp) : DirOk sb fs' dp := by
  refine ⟨h.wf.congr t.disk t.current, fun i hv => ?_, fun i => (h.ref i).trans (t.ref i),
    h.held.trans (t.ref dp), t.valid.trans h.valid, t.type.trans h.dir, ?_⟩
  · obtain ⟨hv', hi⟩ := t.cached i hv
    rw [hi, h.cached i hv', t.dinode]
  · rw [t.current]
    exact h.aligned

theorem Touched.slots (t : Touched fs fs' dp) :
    fs'.slot dp = fs.slot dp ∧ fs'.slots dp = fs.slots dp :=
  slot_congr t.disk t.current dp

/-- `k` references more; an entry without any is taken anew, and its disk copy stands for it. -/
theorem touched_ref (h : DirOk sb fs dp) (ip : Nat) {k : Int} (hk : 0 ≤ k) :
    Touched fs (fs.setInode ip fun ip => if 0 < ip.ref then { ip with ref := ip.ref + k }
      else { ip with ref := k, valid := false }) dp := by
  have hc := h.cached ip
  have hheld := h.held
  refine ⟨rfl, rfl, fun j => ?_, fun j => ?_, fun j => ?_, ?_, ?_⟩
  all_goals
    simp only [Volume.current, Volume.setInode, Function.update_apply]
    grind

theorem touched_iget (h : DirOk sb fs dp) (ip : Nat) : Touched fs (iget fs ip) dp :=
  touched_ref h ip Int.one_nonneg

/-- The reference that `iget` has taken is dropped; the inode is not freed. -/
theorem iput_iget (h : DirOk sb fs dp) (ip : Nat) :
    ∃ fs', iput sb (iget fs ip) ip = .ok fs' ∧ Touched fs fs' dp := by
  have href := h.ref ip
  have hno : ¬ (iget fs ip).Goes ip := by
    rintro ⟨hv, -, hr⟩
    by_cases hpos : 0 < (fs.inode ip).ref
    · simp only [iget, Volume.setInode, Function.update_self, hpos, if_true] at hr
      omega
    · simp [iget, Volume.setInode, hpos] at hv
  refine ⟨(iget fs ip).unref ip, if_neg hno, ?_⟩
  convert touched_ref h ip le_rfl using 1
  by_cases hpos : 0 < (fs.inode ip).ref
  · simp [Volume.unref, iget, Volume.setInode, hpos]
  · simp [Volume.unref, iget, Volume.setInode, hpos]

/-! ### Writing a slot -/

/-- The roots of the places that a write fills belong to its inode. -/
theorem inode_placeOf {bn : Nat} {q : Place} (h : placeOf i bn = some q) : q.1.1 = i := by
  obtain ⟨⟨r, xs⟩, -, rfl⟩ := Option.map_eq_some_iff.mp h
  rfl

theorem addrs_of_get (hv : (fs.inode i).valid = true) (hv' : (fs'.inode i).valid = true)
    (h : ∀ r, fs'.forest.get ((i, r), []) = fs.forest.get ((i, r), [])) :
    (fs'.inode i).addrs = (fs.inode i).addrs := by
  funext r
  have hr := h r
  change (fs'.current i).addrs r = (fs.current i).addrs r at hr
  rwa [current_of_valid hv, current_of_valid hv'] at hr

/-- **`writei` keeps the inode cache equal to the disk**: an inode whose block list has changed
has grown, and is written back. -/
theorem writei_cached {n : Int} (hw : WellFormed sb fs)
    (hc : ∀ j, (fs.inode j).valid = true → (fs.inode j).toDinode = fs.dinode j)
    (hv : (fs.inode i).valid = true) (h : writei sb fs i src off = .ok (n, fs')) :
    ∀ j, (fs'.inode j).valid = true → (fs'.inode j).toDinode = fs'.dinode j := by
  rcases writei_spec hw.owned hw.metaUsed hv h with ⟨-, rfl, -⟩ | ⟨ha, fs₁, N, D, e, ⟨hN, hD⟩, rfl⟩
  · exact hc
  have hcur : (fs.current i).size = (fs.inode i).size := by rw [current_of_valid hv]
  obtain ⟨-, hmem, hother⟩ := e.get hw.owned hw.metaUsed
  have hsame {j : Nat} (hj : (fs.inode j).valid = true) (hnot : ∀ r, ((j, r), []) ∉ N) :
      (fs₁.inode j).toDinode = fs₁.dinode j := by
    have hj₁ : (fs₁.inode j).valid = true := by rw [e.valid, hj]
    have haddrs := addrs_of_get hj hj₁ fun r => hother _ (Support.Forest.valid_nil shape _) (hnot r)
    rw [e.inode.1, e.inode.2 j, haddrs, ← hc j hj]
  have hroot {j : Nat} (hji : j ≠ i) (r : Fin (NDIRECT + 3)) : ((j, r), []) ∉ N := by
    intro hmemN
    obtain ⟨q, hq, hp, -⟩ := hN _ hmemN
    obtain ⟨o, -, -, ho⟩ := (hD q).mp hq
    exact hji ((congrArg Prod.fst hp).trans (inode_placeOf ho))
  intro j
  split
  · by_cases hji : j = i
    · subst hji
      intro _
      simp [iupdate, Volume.setInode]
    · intro hj
      simp only [iupdate, Volume.setInode, Function.update_of_ne hji] at hj ⊢
      exact hsame (e.valid j ▸ hj) (hroot hji)
  · rename_i hgrow
    intro hj
    refine hsame (e.valid j ▸ hj) fun r hmemN => ?_
    -- nothing was missing
    obtain ⟨q, hq, hp, hsuf⟩ := hN _ hmemN
    obtain ⟨o, h₁, h₂, ho⟩ := (hD q).mp hq
    exact hw.path (by omega) ho hp hsuf (hmem _ hmemN).2.1

theorem Wrote.dirent_self (h : Wrote fs fs' dp off src)
    (hlen : src.length = DIRENT) : fs'.dirent dp off = src := by
  refine List.ext_getElem (by simp [Volume.dirent, hlen]) fun k h₁ h₂ => ?_
  simp only [Volume.dirent, List.getElem_map, List.getElem_range]
  rw [h.bytes k h₂, List.getD_eq_getElem _ _ h₂]

theorem Wrote.dirent_other {off' : Nat} (h : Wrote fs fs' dp off src)
    (hlen : src.length = DIRENT) (hne : off' + DIRENT ≤ off ∨ off + DIRENT ≤ off')
    (hmap : ∀ o, off' ≤ o → o < off' + DIRENT → fs.Mapped dp (o / BSIZE)) :
    fs'.dirent dp off' = fs.dirent dp off' := by
  refine List.map_congr_left fun k hk => ?_
  have hk := List.mem_range.mp hk
  refine h.frame dp (off' + k) (hmap _ (by omega) (by omega)) ?_
  rw [hlen]
  omega

/-- **Writing slot `k`**, one of the directory or the next one. -/
theorem DirOk.write (h : DirOk sb fs dp) (hk : k ≤ fs.slots dp)
    (hlen : src.length = DIRENT) (hend : DIRENT * k + DIRENT ≤ DOUBLE * BSIZE)
    (hroom : k = fs.slots dp →
      (fs.missing dp (fs.current dp).size DIRENT).card ≤ (fs.freeBlocks sb).length) :
    ∃ fs', writei sb fs dp src (DIRENT * k) = .ok (DIRENT, fs') ∧ DirOk sb fs' dp ∧
      fs'.slots dp = max (fs.slots dp) (k + 1) ∧ fs'.slot dp k = src ∧
      ∀ j < fs.slots dp, j ≠ k → fs'.slot dp j = fs.slot dp j := by
  have hsize := h.size
  have hd : (fs.inode dp).type ≠ .dev := by rw [h.dir]; decide
  have hroom' : (fs.missing dp (DIRENT * k) src.length).card ≤ (fs.freeBlocks sb).length := by
    rw [hlen]
    rcases Nat.eq_or_lt_of_le hk with rfl | hlt
    · rw [← hsize]
      exact hroom rfl
    -- the slot is there
    have hnone : fs.missing dp (DIRENT * k) DIRENT = ∅ := by
      refine Finset.eq_empty_of_forall_notMem fun p hp => ?_
      obtain ⟨⟨q, hq, hroot, hsuf⟩, h0⟩ := mem_missing.mp hp
      obtain ⟨o, h₁, h₂, ho⟩ := mem_leaves.mp hq
      refine h.wf.path (show o < (fs.current dp).size from ?_) ho hroot hsuf h0
      simp only [DIRENT] at *
      omega
    rw [hnone]
    exact Nat.zero_le _
  have hoff : DIRENT * k ≤ (fs.current dp).size := by
    rw [hsize]
    exact Nat.mul_le_mul_left _ hk
  have hend' : DIRENT * k + src.length ≤ DOUBLE * BSIZE := by rw [hlen]; exact hend
  obtain ⟨fs', hr, hwrote, ho, hm, hinode, hsize'⟩ := writei_wrote h.wf h.valid hd hoff hend' hroom'
  have hslots : fs'.slots dp = max (fs.slots dp) (k + 1) := by
    rw [Volume.slots, hsize', if_pos rfl, hsize, hlen]
    simp only [DIRENT]
    omega
  have hcached := writei_cached h.wf h.cached h.valid hr
  refine ⟨fs', by rw [hr, hlen], ⟨h.wf.wrote hwrote ho hm hoff hend' hsize', hcached,
    fun i => ?_, ?_, ?_, ?_, ?_⟩, hslots, hwrote.dirent_self hlen, fun j hj hne => ?_⟩
  · rw [hinode i]; exact h.ref i
  · rw [hinode dp]; exact h.held
  · rw [hinode dp]; exact h.valid
  · rw [hinode dp]; exact h.dir
  · rw [hsize', if_pos rfl, hsize, hlen]
    simp only [DIRENT]
    omega
  refine hwrote.dirent_other hlen ?_ fun o h₁ h₂ => h.wf.byte ?_
  · simp only [DIRENT] at *
    omega
  · simp only [DIRENT] at *
    omega

/-! ### The operations of the map -/

/-- What `dirlookup` finds: the number of the inode. -/
def finds (sb : Superblock) (fs : Volume) (dp : Nat) (name : List UInt8) : Option (Option Nat) :=
  (dirlookup sb fs dp name).toOption.map fun p => p.1.map Prod.fst

theorem DirOk.finds (h : DirOk sb fs dp) (name : List UInt8) : Fs.finds sb fs dp name =
    some ((fs.slotOf dp name).map fun j => direntInum (fs.slot dp j)) := by
  rw [Fs.finds, h.dirlookup]
  cases fs.slotOf dp name <;> rfl

theorem Touched.finds (t : Touched fs fs' dp) (h : DirOk sb fs dp) (name : List UInt8) :
    Fs.finds sb fs' dp name = Fs.finds sb fs dp name := by
  rw [h.finds, (t.dirOk h).finds, Volume.slotOf, Volume.slotOf, t.slots.1, t.slots.2]

/-- A name that is in the same slots, with the same entries there, is found as before. -/
theorem DirOk.finds_congr (h : DirOk sb fs dp) (h' : DirOk sb fs' dp) (hd : NamesDistinct fs dp)
    (hd' : NamesDistinct fs' dp)
    (hiff : ∀ j, (j < fs'.slots dp ∧ direntKey (fs'.slot dp j) = some (cutName name)) ↔
      (j < fs.slots dp ∧ direntKey (fs.slot dp j) = some (cutName name)))
    (hsame : ∀ j < fs.slots dp, direntKey (fs.slot dp j) = some (cutName name) →
      fs'.slot dp j = fs.slot dp j) : Fs.finds sb fs' dp name = Fs.finds sb fs dp name := by
  have hslot : fs'.slotOf dp name = fs.slotOf dp name := Support.findSlot_congr hd hd' hiff
  rw [h.finds, h'.finds, hslot]
  cases hj : fs.slotOf dp name with
  | none => rfl
  | some j =>
    obtain ⟨hlt, hkey⟩ := Support.of_findSlot hj
    simp only [Option.map_some, hsame j hlt hkey]

/-- **`dirlink`.**  A name that is there is refused.  Another is found afterwards; every other name
is found as before; and the directory grows only when no slot was free. -/
theorem DirOk.dirlink (h : DirOk sb fs dp) (hd : NamesDistinct fs dp)
    {inum : Nat} (h0 : 0 < inum) (hi : inum < 2 ^ 16)
    (hsize : (fs.current dp).size < DOUBLE * BSIZE)
    (hroom : fs.slotOf dp name = none → (∀ k < fs.slots dp, direntInum (fs.slot dp k) ≠ 0) →
      (fs.missing dp (fs.current dp).size DIRENT).card ≤ (fs.freeBlocks sb).length) :
    ∃ r fs', Fs.dirlink sb fs dp name inum = .ok (r, fs') ∧ DirOk sb fs' dp ∧
      NamesDistinct fs' dp ∧ (r = -1 ↔ Fs.finds sb fs dp name ≠ some none) ∧
      (r ≠ -1 → r = 0 ∧ Fs.finds sb fs' dp name = some (some inum)) ∧
      (∀ other, r = -1 ∨ ¬ sameName other name → Fs.finds sb fs' dp other =
        Fs.finds sb fs dp other) ∧
      ((fs'.current dp).size ≠ (fs.current dp).size →
        ∀ k < fs.slots dp, direntInum (fs.slot dp k) ≠ 0) := by
  rw [Fs.dirlink, h.dirlookup, h.finds]
  cases hslot : fs.slotOf dp name with
  | some j =>
    obtain ⟨fs', hput, t⟩ := iput_iget h (direntInum (fs.slot dp j))
    refine ⟨-1, fs', bind_ok.mpr ⟨_, rfl, bind_ok.mpr ⟨fs', hput, rfl⟩⟩, t.dirOk h, ?_, by simp,
      by simp, fun other _ => t.finds h other, fun hne => absurd (by rw [t.current]) hne⟩
    rw [NamesDistinct, t.slots.1, t.slots.2]
    exact hd
  | none =>
    obtain ⟨k, hloop, -, hk, hfree, hlow⟩ := h.dirlinkLoop (Nat.zero_le _) h.fuel
    have hs := h.size
    have hend : DIRENT * k + DIRENT ≤ DOUBLE * BSIZE := by
      simp only [DOUBLE, NDIRECT, NINDIRECT, BSIZE, DIRENT] at *
      omega
    obtain ⟨fs', hr, h', hslots, hself, hother⟩ :=
      h.write hk (length_direntOf name inum) hend fun hkn =>
        hroom hslot fun l hl => hlow l (Nat.zero_le l) (hkn ▸ hl)
    have hput : PutSlot direntKey (fs.slot dp) (fs'.slot dp) (fs.slots dp) (fs'.slots dp) k
        (cutName name) :=
      ⟨fun hlt => direntKey_eq_none.mpr (hfree hlt), hslots, hk,
        by rw [hself, direntKey_direntOf name h0 hi], hother⟩
    have hd' : NamesDistinct fs' dp := hput.distinct hd hslot
    refine ⟨0, fs', ?_, h', hd', by simp, fun _ => ⟨rfl, ?_⟩, fun other hne => ?_, fun hgrow => ?_⟩
    · refine bind_ok.mpr ⟨_, rfl, bind_ok.mpr ⟨_, hloop, bind_ok.mpr ⟨_, hr, ?_⟩⟩⟩
      exact if_neg (not_not_intro rfl)
    · have hfound : fs'.slotOf dp name = some k :=
        (Support.findSlot_eq_some hd').mpr (hput.iff.mpr (.inl ⟨rfl, rfl⟩))
      rw [h'.finds, hfound, Option.map_some, hself, direntInum_direntOf name hi]
    · have hne : cutName other ≠ cutName name := fun e =>
        hne.resolve_left (by decide) (sameName_iff.mpr e)
      refine h.finds_congr h' hd hd' (fun j => ?_) fun j hj hkey => hother j hj ?_
      · rw [hput.iff]
        exact or_iff_right fun hc => hne hc.2
      · rintro rfl
        rw [direntKey_eq_none.mpr (hfree hj)] at hkey
        cases hkey
    · -- a free slot would have been used
      have hkn : k = fs.slots dp := by
        by_contra hne
        refine hgrow ?_
        rw [h'.size, h.size, hslots]
        congr 1
        omega
      intro l hl
      exact hlow l (Nat.zero_le l) (hkn ▸ hl)

/-- A write that has returned had the room it needed. -/
theorem room_of_writei {n : Int} (ho : Owned sb fs)
    (hm : MetaUsed sb fs) (hv : (fs.inode i).valid = true) (ha : Accepted fs i src.length off)
    (h : writei sb fs i src off = .ok (n, fs')) :
    (fs.missing i off src.length).card ≤ (fs.freeBlocks sb).length := by
  rcases writei_spec ho hm hv h with ⟨hna, -⟩ | ⟨-, fs₁, N, D, e, hs, -⟩
  · exact absurd ha hna
  have hlen := congrArg List.length (e.freeBlocks ho hm)
  rw [List.length_append, List.length_map, List.length_reverse] at hlen
  rw [← filled_eq_missing e ho hm hs, List.toFinset_card_of_nodup (e.get ho hm).1]
  omega

/-- A `dirlink` that has returned had the room it needed. -/
theorem DirOk.room_of_dirlink (h : DirOk sb fs dp) {inum : Nat} {r : Int}
    (hsize : (fs.current dp).size < DOUBLE * BSIZE)
    (hr : Fs.dirlink sb fs dp name inum = .ok (r, fs')) (hslot : fs.slotOf dp name = none)
    (hfull : ∀ k < fs.slots dp, direntInum (fs.slot dp k) ≠ 0) :
    (fs.missing dp (fs.current dp).size DIRENT).card ≤ (fs.freeBlocks sb).length := by
  have hs := h.size
  obtain ⟨k, hloop, -, hk, hfree, -⟩ := h.dirlinkLoop (Nat.zero_le _) h.fuel
  have hkn : k = fs.slots dp := by
    rcases Nat.eq_or_lt_of_le hk with hkn | hlt
    · exact hkn
    · exact absurd (hfree hlt) (hfull k hlt)
  rw [Fs.dirlink, h.dirlookup, hslot] at hr
  obtain ⟨_, ⟨⟩, hr⟩ := bind_ok.mp hr
  dsimp only at hr
  rw [← Nat.mul_zero DIRENT, hloop, hkn, ← hs] at hr
  obtain ⟨_, ⟨⟩, hr⟩ := bind_ok.mp hr
  obtain ⟨⟨n, fs₁⟩, hw, -⟩ := bind_ok.mp hr
  rw [← length_direntOf name inum]
  refine room_of_writei h.wf.owned h.wf.metaUsed h.valid ⟨?_, Nat.le_refl _, ?_, ?_⟩ hw
  · rw [current_of_valid h.valid, h.dir]
    decide
  · rw [length_direntOf]
    simp only [DOUBLE, NDIRECT, NINDIRECT, BSIZE, DIRENT] at *
    omega
  · rw [length_direntOf]
    simp only [DOUBLE, MAXFILE, NDIRECT, NINDIRECT, BSIZE, DIRENT] at *
    omega

/-- **The write of `sys_unlink`** at the entry `dirlookup` has found: the name is gone, and every
other name is found as before. -/
theorem DirOk.clearEntry (h : DirOk sb fs dp) (hd : NamesDistinct fs dp)
    {ip : Nat} (hsize : (fs.current dp).size ≤ DOUBLE * BSIZE)
    (hl : Fs.dirlookup sb fs dp name = .ok (some (ip, off), fs₁)) :
    ∃ fs', Fs.clearEntry sb fs₁ dp off = .ok fs' ∧ DirOk sb fs' dp ∧ NamesDistinct fs' dp ∧
      Fs.finds sb fs' dp name = some none ∧
      (∀ other, ¬ sameName other name → Fs.finds sb fs' dp other = Fs.finds sb fs dp other) ∧
      (fs'.current dp).size = (fs.current dp).size := by
  rw [h.dirlookup] at hl
  cases hslot : fs.slotOf dp name with
  | none =>
    rw [hslot] at hl
    cases hl
  | some k =>
    rw [hslot] at hl
    cases hl
    obtain ⟨hk, hkey⟩ := Support.of_findSlot hslot
    have t := touched_iget h (direntInum (fs.slot dp k))
    have h₁ := t.dirOk h
    obtain ⟨hslot₁, hslots₁⟩ := t.slots
    have hs := h.size
    have hend : DIRENT * k + DIRENT ≤ DOUBLE * BSIZE := by
      simp only [DIRENT] at *
      omega
    obtain ⟨fs', hr, h', hslots, hself, hother⟩ := h₁.write (by omega)
      (show (List.replicate DIRENT (0 : UInt8)).length = DIRENT from List.length_replicate) hend
      fun he => absurd he (by omega)
    rw [hslots₁, hslot₁] at hother
    have hslots' : fs'.slots dp = fs.slots dp := by rw [hslots, hslots₁]; omega
    have hclear : ClearSlot direntKey (fs.slot dp) (fs'.slot dp) (fs.slots dp) k :=
      ⟨by rw [hself]; rfl, hother⟩
    have hd' : NamesDistinct fs' dp := by
      rw [NamesDistinct, hslots']
      exact hclear.distinct hd
    refine ⟨fs', ?_, h', hd', ?_, fun other hne => ?_, ?_⟩
    · exact bind_ok.mpr ⟨_, hr, if_neg (not_not_intro rfl)⟩
    · have hnone : fs'.slotOf dp name = none := by
        refine Support.findSlot_eq_none.mpr fun j hj hkj => ?_
        obtain ⟨hne, hj, hkj⟩ := hclear.iff.mp ⟨hslots' ▸ hj, hkj⟩
        exact hne (hd j hj k hk _ hkj hkey)
      rw [h'.finds, hnone]
      rfl
    · refine h.finds_congr h' hd hd' (fun j => ?_) fun j hj hkj => hother j hj ?_
      · rw [hslots', hclear.iff]
        refine and_iff_right_of_imp ?_
        rintro ⟨-, hkj⟩ rfl
        rw [hkey] at hkj
        exact hne (sameName_iff.mpr (Option.some.inj hkj).symm)
      · rintro rfl
        rw [hkey] at hkj
        exact hne (sameName_iff.mpr (Option.some.inj hkj).symm)
    · rw [h'.size, hslots', h.size]

end

end Xv6.Fs
