import Xv6.Fs.Dir

/-!
# Fs — the file system over any sequence of operations

Every system call on files is a sequence of the same few operations on inodes: references are taken
and dropped, an inode is locked, allocated, given its links or device numbers, written, read, and
truncated when it goes.  A file system that is well formed, with an inode cache that agrees with
the disk and free inodes without blocks (`Steady`), stays so under each of them, whatever the order
(`steady_run`).  In particular no file has a hole, and `readi` changes nothing (`Steady.readi`).
-/

namespace Xv6.Fs

open Function (update_self update_of_ne)
open Support (bind_ok)

/-- **A steady file system.** -/
structure Steady (sb : Superblock) (fs : Volume) : Prop where
  wf : WellFormed sb fs
  cached : ∀ i, (fs.inode i).valid = true → (fs.inode i).toDinode = fs.dinode i
  ref : ∀ i, 0 ≤ (fs.inode i).ref
  /-- a free inode is not cached, and has neither blocks nor bytes -/
  idle : ∀ i, (fs.dinode i).type = .free →
    (fs.inode i).valid = false ∧ (fs.dinode i).size = 0 ∧ (fs.dinode i).addrs = fun _ => 0

section

variable {sb : Superblock} {fs fs₁ fs' : Volume} {i : Nat}

theorem current_of_cached
    (h : ∀ j, (fs.inode j).valid = true → (fs.inode j).toDinode = fs.dinode j) (j : Nat) :
    fs.current j = fs.dinode j := by
  rw [Volume.current]
  split
  · rename_i hv
    exact h j hv
  · rfl

namespace Steady

section

variable (h : Steady sb fs)
include h

theorem current (j : Nat) : fs.current j = fs.dinode j := current_of_cached h.cached j

/-- A cached inode is not free. -/
theorem type_ne (hv : (fs.inode i).valid = true) : (fs.inode i).type ≠ .free := by
  intro hfree
  have := (h.idle i (by rw [← h.cached i hv]; exact hfree)).1
  rw [hv] at this
  cases this

/-! ### References and locks -/

/-- Only the inode cache changes. -/
theorem recache (hd : fs'.disk = fs.disk) (hdi : fs'.dinode = fs.dinode)
    (hc : ∀ j, (fs'.inode j).valid = true → (fs'.inode j).toDinode = fs'.dinode j)
    (hr : ∀ j, 0 ≤ (fs'.inode j).ref)
    (hi : ∀ j, (fs'.dinode j).type = .free → (fs'.inode j).valid = false) : Steady sb fs' := by
  refine ⟨h.wf.congr hd fun j => ?_, hc, hr, fun j hj => ⟨hi j hj, ?_⟩⟩
  · rw [current_of_cached hc, h.current, hdi]
  · rw [hdi] at hj ⊢
    exact (h.idle j hj).2

/-- The cache entry of one inode changes. -/
theorem setInode {f : Inode → Inode} (hc : (f (fs.inode i)).valid = true →
      (f (fs.inode i)).toDinode = fs.dinode i ∧ (fs.dinode i).type ≠ .free)
    (hr : 0 ≤ (f (fs.inode i)).ref) : Steady sb (fs.setInode i f) := by
  refine h.recache rfl rfl (fun j hv => ?_) (fun j => ?_) fun j hj => ?_
  · by_cases hji : j = i
    · subst hji
      simp only [Volume.setInode, update_self] at hv ⊢
      exact (hc hv).1
    · simp only [Volume.setInode, update_of_ne hji] at hv ⊢
      exact h.cached j hv
  · by_cases hji : j = i
    · subst hji
      simp only [Volume.setInode, update_self]
      exact hr
    · simp only [Volume.setInode, update_of_ne hji]
      exact h.ref j
  · by_cases hji : j = i
    · subst hji
      simp only [Volume.setInode, update_self]
      exact Bool.eq_false_iff.mpr fun hv => (hc hv).2 hj
    · simp only [Volume.setInode, update_of_ne hji]
      exact (h.idle j hj).1

/-- A cached inode agrees with the disk, where it is not free. -/
theorem agrees (hv : (fs.inode i).valid = true) :
    (fs.inode i).toDinode = fs.dinode i ∧ (fs.dinode i).type ≠ .free :=
  ⟨h.cached i hv, by rw [← h.cached i hv]; exact h.type_ne hv⟩

theorem iget (i : Nat) : Steady sb (iget fs i) := by
  have href := h.ref i
  refine h.setInode ?_ ?_
  · split
    · exact h.agrees
    · intro hv
      cases hv
  · split
    · exact Int.le_add_one href
    · exact Int.one_nonneg

theorem setRef (i : Nat) {d : Int} (hd : 0 ≤ (fs.inode i).ref + d) :
    Steady sb (fs.setInode i fun ip => { ip with ref := ip.ref + d }) :=
  h.setInode h.agrees hd

theorem ilock (hl : Fs.ilock fs i = .ok fs') : Steady sb fs' := by
  rw [Fs.ilock] at hl
  dsimp only at hl
  split at hl
  · cases hl
  split at hl
  · cases hl
    exact h
  split at hl
  · cases hl
  · rename_i hfree
    cases hl
    exact h.setInode (fun _ => ⟨rfl, hfree⟩) (h.ref i)

/-! ### The inode on the disk -/

/-- The inode `i` changes on the disk, and in the cache if it is there, but neither its blocks nor
its size. -/
theorem renode {d : Dinode} (hd : fs'.disk = fs.disk)
    (hdi : fs'.dinode = Function.update fs.dinode i d)
    (hin : ∀ j, j ≠ i → fs'.inode j = fs.inode j)
    (hself : (fs'.inode i).valid = true → (fs'.inode i).toDinode = d)
    (hr : 0 ≤ (fs'.inode i).ref) (ha : d.addrs = (fs.dinode i).addrs)
    (hs : d.size = (fs.dinode i).size) (ht : d.type ≠ .free) : Steady sb fs' := by
  have hdi_self : fs'.dinode i = d := by rw [hdi, update_self]
  have hdi_other (j : Nat) (hj : j ≠ i) : fs'.dinode j = fs.dinode j := by
    rw [hdi, update_of_ne hj]
  have hcached (j : Nat) (hv : (fs'.inode j).valid = true) :
      (fs'.inode j).toDinode = fs'.dinode j := by
    by_cases hj : j = i
    · subst hj
      rw [hdi_self]
      exact hself hv
    · rw [hin j hj, hdi_other j hj]
      exact h.cached j (hin j hj ▸ hv)
  refine ⟨h.wf.same hd (fun j => ?_) fun j => ?_, hcached, fun j => ?_, fun j hj => ?_⟩
  · rw [current_of_cached hcached, h.current]
    by_cases hj : j = i
    · rw [hj, hdi_self, ha]
    · rw [hdi_other j hj]
  · rw [current_of_cached hcached, h.current]
    by_cases hj : j = i
    · rw [hj, hdi_self, hs]
    · rw [hdi_other j hj]
  · by_cases hj : j = i
    · rw [hj]
      exact hr
    · rw [hin j hj]
      exact h.ref j
  · have hne : j ≠ i := fun e => ht (by rw [← hdi_self, ← e]; exact hj)
    rw [hin j hne, hdi_other j hne]
    exact h.idle j (hdi_other j hne ▸ hj)

end

theorem findInode_free {n k : Nat} (h : findInode fs n k = some i) : (fs.dinode i).type = .free := by
  induction n generalizing k with
  | zero => cases h
  | succ n ih =>
    rw [findInode] at h
    split at h
    · cases h
      assumption
    · exact ih h

theorem ialloc (h : Steady sb fs) {t : FileType} (ht : t ≠ .free)
    (ha : Fs.ialloc sb fs t = .ok (i, fs')) : Steady sb fs' := by
  rw [Fs.ialloc] at ha
  split at ha
  · cases ha
  rename_i k hk
  cases ha
  obtain ⟨hv, hs, haddrs⟩ := h.idle i (findInode_free hk)
  have hnew : Steady sb { fs with
      dinode := Function.update fs.dinode i (blankDinode t)
      logged := sb.iblock i :: fs.logged } := by
    refine h.renode rfl rfl (fun _ _ => rfl) (fun hv' => ?_) (h.ref i) haddrs.symm hs.symm ht
    change (fs.inode i).valid = true at hv'
    rw [hv] at hv'
    cases hv'
  exact hnew.iget i

/-- `ip->major`, `ip->minor` and `ip->nlink` are set, and the inode is written back. -/
theorem relink (h : Steady sb fs) (hv : (fs.inode i).valid = true) (major minor nlink : Int) :
    Steady sb (iupdate sb (fs.setInode i ({ · with major, minor, nlink })) i) := by
  have hd := h.cached i hv
  refine h.renode rfl rfl (fun j hj => ?_) (fun _ => rfl) ?_ ?_ ?_ ?_
  · exact update_of_ne hj ..
  · simpa [iupdate, Volume.setInode] using h.ref i
  · simp [Volume.setInode, ← hd]
  · simp [Volume.setInode, ← hd]
  · simpa [Volume.setInode] using h.type_ne hv

end Steady

/-! ### Writing -/

theorem placeOf_of_lt {bn : Nat} (i : Nat) (h : bn < MAXFILE) : ∃ q, placeOf i bn = some q := by
  cases hp : bmapPath bn with
  | some p => exact ⟨_, by rw [placeOf, hp]; rfl⟩
  | none =>
    exfalso
    rw [bmapPath] at hp
    split at hp
    · cases hp
    dsimp only at hp
    split at hp
    · cases hp
    split at hp
    · cases hp
    · split at hp
      · cases hp
      · simp only [MAXFILE, NDIRECT, NINDIRECT, BSIZE] at *
        omega

/-- An accepted write ends below the largest file. -/
theorem Accepted.end_le {n off : Nat} (ha : Accepted fs i n off) (hw : WellFormed sb fs)
    (hn : n < 2 ^ 32) : off + n ≤ MAXFILE * BSIZE := by
  obtain ⟨-, hoff, hle, hmax⟩ := ha
  have := hw.size_lt i
  have hlt : off + n < 2 ^ 32 := by
    by_contra hge
    have hmod : (off + n) % 2 ^ 32 = off + n - 2 ^ 32 := by
      rw [Nat.mod_eq_sub_mod (Nat.le_of_not_lt hge), Nat.mod_eq_of_lt (by omega)]
    omega
  rwa [Nat.mod_eq_of_lt hlt] at hmax

/-- **`writei` leaves no hole**: it starts inside the file or at its end, and fills every block up
to its own end. -/
theorem writei_wellFormed {off : Nat} {src : List UInt8} {n : Int} (hw : WellFormed sb fs)
    (hv : (fs.inode i).valid = true) (hlen : src.length < 2 ^ 32)
    (h : writei sb fs i src off = .ok (n, fs')) : WellFormed sb fs' := by
  obtain ⟨ho', hm'⟩ := writei_owned hw.owned hw.metaUsed hv h
  rcases writei_spec hw.owned hw.metaUsed hv h with ⟨-, rfl, -⟩ | ⟨ha, fs₁, N, D, e, ⟨-, hD⟩, heq⟩
  · exact hw
  have hend := ha.end_le hw hlen
  have hoff := ha.2.1
  have hcur : (fs.current i).size = (fs.inode i).size := by rw [current_of_valid hv]
  have hv₁ : (fs₁.inode i).valid = true := by rw [e.valid, hv]
  have hforest : fs'.forest = fs₁.forest := by
    rw [heq]
    split
    · exact forest_setSize hv₁ _
    · rfl
  have hsize (j : Nat) : (fs'.current j).size ≤ if j = i then
      max (fs.current i).size (off + src.length) else (fs.current j).size := by
    rw [heq]
    split
    · rw [size_setSize hv₁, e.current]
      split
      · exact Nat.le_max_right _ _
      · exact le_rfl
    · rw [e.current]
      split
      · rename_i hji
        rw [hji]
        exact Nat.le_max_left _ _
      · exact le_rfl
  -- a block that was there is there
  have hkeep (j bn : Nat) (hm : fs.Mapped j bn) : fs'.Mapped j bn := by
    obtain ⟨q, hq, hvq, hne⟩ := hm
    refine ⟨q, hq, hvq, ?_⟩
    rw [hforest, e.get_of_ne_zero hw.owned hw.metaUsed hvq hne]
    exact hne
  refine ⟨ho', hm', fun j bn hbn => ?_, fun j => ?_⟩
  · have := hsize j
    split at this
    · rename_i hji
      subst hji
      by_cases hold : bn * BSIZE < (fs.current j).size
      · exact hkeep j bn (hw.mapped j bn hold)
      have hlt : bn * BSIZE < off + src.length := by omega
      have hmax : bn < MAXFILE := Nat.lt_of_mul_lt_mul_right (Nat.lt_of_lt_of_le hlt hend)
      obtain ⟨q, hq⟩ := placeOf_of_lt j hmax
      have hqD : q ∈ D := (hD q).mpr ⟨bn * BSIZE, by omega, hlt, by
        rw [Nat.mul_div_cancel _ (by decide)]; exact hq⟩
      obtain ⟨hvq, -, hne⟩ := e.data_mem hw.owned hw.metaUsed hqD
      exact ⟨q, hq, hvq, by rw [hforest]; exact hne⟩
    · exact hkeep j bn (hw.mapped j bn (Nat.lt_of_lt_of_le hbn this))
  · have := hsize j
    have h₁ := hw.size_lt i
    have h₂ := hw.size_lt j
    have h₃ : MAXFILE * BSIZE < 2 ^ 32 := by decide
    split at this
    · have : max (fs.current i).size (off + src.length) < 2 ^ 32 := by
        rw [Nat.max_lt]
        omega
      omega
    · omega

namespace Steady

theorem writei (h : Steady sb fs) {off : Nat} {src : List UInt8} {n : Int}
    (hv : (fs.inode i).valid = true) (hlen : src.length < 2 ^ 32)
    (hw : Fs.writei sb fs i src off = .ok (n, fs')) : Steady sb fs' := by
  obtain ⟨hin, hdi⟩ := writei_frame h.wf.owned h.wf.metaUsed hv hw
  have hcached := writei_cached h.wf h.cached hv hw
  refine ⟨writei_wellFormed h.wf hv hlen hw, hcached, fun j => ?_, fun j hj => ?_⟩
  · rw [hin j]
    exact h.ref j
  have hne : j ≠ i := by
    rintro rfl
    have hv' : (fs'.inode j).valid = true := by rw [hin j]; exact hv
    rw [← hcached j hv', hin j] at hj
    exact h.type_ne hv hj
  rw [hdi j hne] at hj ⊢
  rw [hin j]
  exact h.idle j hj

/-! ### Reading -/

/-- **A read changes nothing.** -/
theorem readi (h : Steady sb fs) (input : List UInt8) {off n : Nat}
    (hv : (fs.inode i).valid = true) (hoff : off < 2 ^ 32) (hn : n < 2 ^ 32) :
    ∃ got, Fs.readi sb fs input i off n = .ok (got, fs) := by
  by_cases ht : (fs.inode i).type = .dev
  · exact ⟨_, by rw [Fs.readi, if_pos ht]⟩
  · exact ⟨_, readi_eq hv ht (h.wf.mapped i) hoff hn⟩

/-! ### Truncation -/

/-- **The inode goes**: it is left free, uncached and without blocks. -/
theorem truncateAndFree (h : Steady sb fs) (hv : (fs.inode i).valid = true)
    (ht : Fs.truncateAndFree sb fs i = .ok fs') :
    Steady sb fs' ∧ (fs'.inode i).ref = (fs.inode i).ref := by
  obtain ⟨fs₁, h₁, ht⟩ := bind_ok.mp ht
  cases ht
  obtain ⟨fs₁', h₁', ho, hm, hget, hin, hdi, -⟩ := itrunc_spec h.wf.owned h.wf.metaUsed hv
  rw [h₁] at h₁'
  cases h₁'
  have hv₁ : (fs₁.inode i).valid = true := by rw [hin i]; exact hv
  have haddrs : (fs₁.inode i).addrs = fun _ => 0 := by
    funext r
    have := hget ((i, r), []) (Support.Forest.valid_nil _ _)
    rw [if_pos rfl, Support.Forest.get_nil] at this
    change (fs₁.current i).addrs r = 0 at this
    rwa [current_of_valid hv₁] at this
  have hsize : (fs₁.inode i).size = 0 := by
    rw [hin i]
    exact if_pos rfl
  -- the other inodes are as they were
  have hother (j : Nat) (hj : j ≠ i) : fs₁.dinode j = fs.dinode j := by
    rw [hdi, update_of_ne hj]
  have hcached (j : Nat) (hj : j ≠ i) (hvj : (fs₁.inode j).valid = true) :
      (fs₁.inode j).toDinode = fs₁.dinode j := by
    have hvj₀ : (fs.inode j).valid = true := by rw [hin j] at hvj; exact hvj
    have ha : (fs₁.inode j).addrs = (fs.inode j).addrs := addrs_of_get hvj₀ hvj fun r => by
      rw [hget _ (Support.Forest.valid_nil _ _), if_neg hj]
    rw [hother j hj, ← h.cached j hvj₀, hin j, if_neg hj, ha]
  generalize hfs' : (iupdate sb (fs₁.setInode i ({ · with type := .free })) i).setInode i
    ({ · with valid := false }) = fs'
  have hdisk : fs'.disk = fs₁.disk := by
    rw [← hfs']
    rfl
  have hin_self : fs'.inode i = { fs₁.inode i with type := .free, valid := false } := by
    rw [← hfs']
    simp [iupdate, Volume.setInode]
  have hin_other (j : Nat) (hj : j ≠ i) : fs'.inode j = fs₁.inode j := by
    rw [← hfs']
    simp [iupdate, Volume.setInode, hj]
  have hdi_self : fs'.dinode i = { (fs₁.inode i).toDinode with type := .free } := by
    rw [← hfs']
    simp [iupdate, Volume.setInode]
  have hdi_other (j : Nat) (hj : j ≠ i) : fs'.dinode j = fs.dinode j := by
    rw [← hother j hj, ← hfs']
    simp [iupdate, Volume.setInode, hj]
  have hcached' (j : Nat) (hvj : (fs'.inode j).valid = true) :
      (fs'.inode j).toDinode = fs'.dinode j := by
    by_cases hj : j = i
    · subst hj
      rw [hin_self] at hvj
      cases hvj
    · rw [hin_other j hj] at hvj ⊢
      rw [hcached j hj hvj, hother j hj, hdi_other j hj]
  have hcur₁ (j : Nat) (hj : j ≠ i) : fs₁.current j = fs.dinode j := by
    rw [Volume.current]
    split
    · rename_i hvj
      rw [hcached j hj hvj, hother j hj]
    · exact hother j hj
  have hforest : fs'.forest = fs₁.forest := by
    refine forest_congr (fun j => ?_) hdisk
    rw [current_of_cached hcached']
    by_cases hj : j = i
    · rw [hj, hdi_self, current_of_valid hv₁]
    · rw [hdi_other j hj, hcur₁ j hj]
  have hsize' (j : Nat) : (fs'.current j).size = if j = i then 0 else (fs.current j).size := by
    rw [current_of_cached hcached', h.current]
    by_cases hj : j = i
    · rw [if_pos hj, hj, hdi_self]
      exact hsize
    · rw [if_neg hj, hdi_other j hj]
  have hused (c : Nat) : fs'.used sb c = fs₁.used sb c := by rw [Volume.used, Volume.used, hdisk]
  refine ⟨⟨⟨ho.congr (fun q _ => by rw [hforest]) fun c _ => hused c, fun b hb hbs => ?_,
    fun j bn hbn => ?_, fun j => ?_⟩, hcached', fun j => ?_, fun j hj => ?_⟩, ?_⟩
  · rw [hused]
    exact hm b hb hbs
  · rw [hsize'] at hbn
    split at hbn
    · exact absurd hbn (Nat.not_lt_zero _)
    rename_i hj
    obtain ⟨q, hq, hvq, hne⟩ := h.wf.mapped j bn hbn
    refine ⟨q, hq, hvq, ?_⟩
    rw [hforest, hget q hvq, if_neg (by rw [inode_placeOf hq]; exact hj)]
    exact hne
  · rw [hsize']
    split
    · decide
    · exact h.wf.size_lt j
  · by_cases hj : j = i
    · rw [hj, hin_self, hin i]
      exact h.ref i
    · rw [hin_other j hj, hin j]
      exact h.ref j
  · by_cases hji : j = i
    · subst hji
      exact ⟨by rw [hin_self], by rw [hdi_self]; exact hsize, by rw [hdi_self]; exact haddrs⟩
    · rw [hdi_other j hji] at hj ⊢
      rw [hin_other j hji, hin j]
      exact h.idle j hj
  · rw [hin_self, hin i]

theorem iput (h : Steady sb fs) (href : 1 ≤ (fs.inode i).ref) (hp : Fs.iput sb fs i = .ok fs') :
    Steady sb fs' := by
  rw [Fs.iput] at hp
  split at hp
  · rename_i hg
    obtain ⟨fs₁, ht, hp⟩ := bind_ok.mp hp
    cases hp
    obtain ⟨h₁, href₁⟩ := h.truncateAndFree hg.1 ht
    refine h₁.setRef i ?_
    rw [href₁]
    omega
  · cases hp
    exact h.setRef i (by omega)

end Steady

/-! ### Runs -/

/-- An operation on an inode, as the system calls make them. -/
inductive KernelOp where
  | get (i : Nat)
  | dup (i : Nat)
  | lock (i : Nat)
  | put (i : Nat)
  | alloc (type : FileType)
  | relink (i : Nat) (major minor nlink : Int)
  | write (i : Nat) (src : List UInt8) (off : Nat)
  | read (i off n : Nat)

/-- One operation.  A reference is copied or dropped by who has one; an inode is changed, read or
written by who has locked it; sizes and offsets are `uint`s. -/
def kernelStep (sb : Superblock) (fs : Volume) : KernelOp → Option Volume
  | .get i => some (iget fs i)
  | .dup i => if 1 ≤ (fs.inode i).ref then some (idup fs i) else none
  | .lock i => (ilock fs i).toOption
  | .put i => if 1 ≤ (fs.inode i).ref then (iput sb fs i).toOption else none
  | .alloc type => if type = .free then none else (ialloc sb fs type).toOption.map Prod.snd
  | .relink i major minor nlink =>
    if (fs.inode i).valid then
      some (iupdate sb (fs.setInode i ({ · with major, minor, nlink })) i)
    else none
  | .write i src off =>
    if (fs.inode i).valid ∧ src.length < 2 ^ 32 then
      (writei sb fs i src off).toOption.map Prod.snd
    else none
  | .read i off n =>
    if (fs.inode i).valid ∧ off < 2 ^ 32 ∧ n < 2 ^ 32 then
      (readi sb fs [] i off n).toOption.map Prod.snd
    else none

/-- Any sequence of operations. -/
def KernelRun (sb : Superblock) : Volume → Volume → Prop :=
  Support.Run (fun fs op fs' => kernelStep sb fs op = some fs') fun _ _ => True

theorem steady_step {op : KernelOp} (h : Steady sb fs) (hs : kernelStep sb fs op = some fs') :
    Steady sb fs' := by
  cases op with
  | get i =>
    cases hs
    exact h.iget i
  | dup i =>
    simp only [kernelStep] at hs
    split at hs
    · cases hs
      exact h.setRef i (by omega)
    · cases hs
  | lock i => exact h.ilock (Support.toOption_eq_some.mp hs)
  | put i =>
    simp only [kernelStep] at hs
    split at hs
    · rename_i href
      exact h.iput href (Support.toOption_eq_some.mp hs)
    · cases hs
  | alloc type =>
    simp only [kernelStep] at hs
    split at hs
    · cases hs
    · rename_i ht
      obtain ⟨⟨i, fs₁⟩, ha, rfl⟩ := Option.map_eq_some_iff.mp hs
      exact h.ialloc ht (Support.toOption_eq_some.mp ha)
  | relink i major minor nlink =>
    simp only [kernelStep] at hs
    split at hs
    · rename_i hv
      cases hs
      exact h.relink hv major minor nlink
    · cases hs
  | write i src off =>
    simp only [kernelStep] at hs
    split at hs
    · rename_i hc
      obtain ⟨⟨n, fs₁⟩, hw, rfl⟩ := Option.map_eq_some_iff.mp hs
      exact h.writei hc.1 hc.2 (Support.toOption_eq_some.mp hw)
    · cases hs
  | read i off n =>
    simp only [kernelStep] at hs
    split at hs
    · rename_i hc
      obtain ⟨got, hr⟩ := h.readi [] hc.1 hc.2.1 hc.2.2
      rw [hr] at hs
      cases hs
      exact h
    · cases hs

/-- **A steady file system stays steady.** -/
theorem steady_run {fs₀ : Volume} (h : Steady sb fs₀) (r : KernelRun sb fs₀ fs) : Steady sb fs :=
  Support.Run.invariant h (fun _ _ _ h _ hs => steady_step h hs) r

end

end Xv6.Fs
