import Xv6.Fs.Files
import Xv6.Fs.Tree

/-!
# Fs — looking up a path

In a consistent volume (`Consistent`) a lookup changes nothing but the inode cache.  Reading a
directory finds every block in place, so `bmap` allocates nothing (`readi_spec`); and an inode the
lookup lets go has a link or is held by somebody else, so `iput` truncates nothing (`Calm.iput`).
What is left is how many references the lookup has taken, and on which inodes: `Calm sb fs₀ fs h`
says that `fs` is `fs₀` but for the references `h`.

* `unlinkFind_calm`: the lookup of `unlink` holds the parent and the inode found.
-/

namespace Xv6.Fs

open Function (update_self update_of_ne)
open Support (bind_ok)
open Support.Forest (Valid)

/-- The block of file block `bn`. -/
def Volume.blockAt (fs : Volume) (i bn : Nat) : Nat := (placeOf i bn).elim 0 fs.forest.get

/-- Byte `o` of a file. -/
def Volume.byteAt (fs : Volume) (i o : Nat) : UInt8 := fs.disk (fs.blockAt i (o / BSIZE)) (o % BSIZE)

/-- The bytes of the directory entry at `off`. -/
def Volume.dirent (fs : Volume) (dp off : Nat) : List UInt8 :=
  (List.range DIRENT).map fun j => fs.byteAt dp (off + j)

/-- The file blocks below the size of inode `i` are there. -/
def NoHoles (fs : Volume) (i : Nat) : Prop :=
  ∀ bn q, placeOf i bn = some q → Valid shape q → bn * BSIZE < (fs.current i).size →
    fs.forest.get q ≠ 0

section

variable {sb : Superblock} {fs fs₁ fs' : Volume} {i : Nat}

/-! ### Reading what is there -/

theorem indexEntry_filled {r : Root} {p : List Nat} {x : Nat} (hx : x < NINDIRECT)
    (hp : fs.forest.get (r, p) ≠ 0) (hne : fs.forest.get (r, x :: p) ≠ 0) :
    indexEntry sb fs (fs.forest.get (r, p)) x = .ok (fs.forest.get (r, x :: p), fs) := by
  rw [Support.Forest.get_cons, if_neg hp] at hne ⊢
  rw [indexEntry, if_neg (Nat.not_le_of_lt hx)]
  exact if_neg hne

theorem walk_filled {r : Root} {xs p : List Nat} (hv : Valid shape (r, xs.reverse ++ p))
    (hne : fs.forest.get (r, xs.reverse ++ p) ≠ 0) :
    walk sb xs (fs.forest.get (r, p)) fs = .ok (fs.forest.get (r, xs.reverse ++ p), fs) := by
  induction xs generalizing p with
  | nil => rfl
  | cons x xs ih =>
    have hrev : (x :: xs).reverse ++ p = xs.reverse ++ x :: p := by simp
    rw [hrev] at hv hne ⊢
    have hx : x < NINDIRECT := hv.2 x (by simp)
    have hxp : fs.forest.get (r, x :: p) ≠ 0 :=
      Support.Forest.get_of_suffix (List.suffix_append _ _) hne
    have hp : fs.forest.get (r, p) ≠ 0 := Support.Forest.get_of_suffix (List.suffix_cons x p) hxp
    rw [walk]
    exact bind_ok.mpr ⟨_, indexEntry_filled hx hp hxp, ih hv hne⟩

variable {q : Place} {off n : Nat}

/-- `bmap` of a block that is there changes nothing. -/
theorem bmap_filled (hval : (fs.inode i).valid = true) {bn : Nat}
    (hq : placeOf i bn = some q) (hv : Valid shape q) (hne : fs.forest.get q ≠ 0) :
    bmap sb fs i bn = .ok (fs.forest.get q, fs) := by
  rw [placeOf] at hq
  obtain ⟨⟨r, xs⟩, hpath, rfl⟩ := Option.map_eq_some_iff.mp hq
  have hroot : fs.forest.get ((i, r), []) = (fs.inode i).addrs r :=
    congrArg (·.addrs r) (current_of_valid hval)
  have hr : fs.forest.get ((i, r), []) ≠ 0 := Support.Forest.get_of_suffix List.nil_suffix hne
  have hw : walk sb xs (fs.forest.get ((i, r), [])) fs =
      .ok (fs.forest.get ((i, r), xs.reverse ++ []), fs) :=
    walk_filled (by simpa using hv) (by simpa using hne)
  rw [List.append_nil, hroot] at hw
  rw [hroot] at hr
  rw [bmap, hpath]
  refine bind_ok.mpr ⟨((fs.inode i).addrs r, fs), ?_, hw⟩
  rw [rootEntry, if_neg hr]

theorem byteAt_of_place {o : Nat} (hq : placeOf i (o / BSIZE) = some q) :
    fs.byteAt i o = fs.disk (fs.forest.get q) (o % BSIZE) := by
  rw [Volume.byteAt, Volume.blockAt, hq]
  rfl

/-- The bytes of a round of the loop of `readi`, before those of the other rounds. -/
theorem bytes_of_round {m : Nat} (hq : placeOf i (off / BSIZE) = some q)
    (hm : m ≤ BSIZE - off % BSIZE) (hmn : m ≤ n) :
    ((List.range m).map fun j => fs.disk (fs.forest.get q) (off % BSIZE + j)) ++
      ((List.range (n - m)).map fun j => fs.byteAt i (off + m + j)) =
      (List.range n).map fun j => fs.byteAt i (off + j) := by
  have hsplit : n = m + (n - m) := by omega
  conv_rhs => rw [hsplit, List.range_add, List.map_append, List.map_map]
  congr 1
  · refine List.map_congr_left fun j hj => ?_
    have hj := List.mem_range.mp hj
    have hdiv : (off + j) / BSIZE = off / BSIZE :=
      div_of_round hm (Nat.le_add_right off j) (by omega)
    have hoff : (off + j) % BSIZE = off % BSIZE + j := by
      simp only [BSIZE] at *
      omega
    rw [byteAt_of_place (hdiv ▸ hq), hoff]
  · refine List.map_congr_left fun j _ => ?_
    rw [Function.comp_apply, Nat.add_assoc]

/-- The loop of `readi` returns the bytes of the file, and changes nothing. -/
theorem readLoop_spec {fuel : Nat} {got : List UInt8} (ho : Owned sb fs)
    (hm : MetaUsed sb fs) (hval : (fs.inode i).valid = true) (hh : NoHoles fs i) (hfuel : n ≤ fuel)
    (hsize : off + n ≤ (fs.current i).size) (h : readLoop sb i fuel n off fs = .ok (got, fs')) :
    fs' = fs ∧ got = (List.range n).map fun j => fs.byteAt i (off + j) := by
  induction fuel generalizing n off got with
  | zero =>
    cases h
    rw [Nat.le_zero.mp hfuel]
    exact ⟨rfl, rfl⟩
  | succ fuel ih =>
    rw [readLoop] at h
    split at h
    · rename_i h0
      cases h
      rw [h0]
      exact ⟨rfl, rfl⟩
    · rename_i h0
      obtain ⟨⟨a, fs₁⟩, hb, h⟩ := bind_ok.mp h
      obtain ⟨q, hq, hv, -⟩ := bmap_spec ho hm hval hb
      have hin : off / BSIZE * BSIZE < (fs.current i).size := by
        have := Nat.div_mul_le_self off BSIZE
        omega
      have hb' : bmap sb fs i (off / BSIZE) = _ := bmap_filled hval hq hv (hh _ q hq hv hin)
      rw [hb] at hb'
      cases hb'
      dsimp only at h
      obtain ⟨⟨rest, fs₂⟩, hr, h⟩ := bind_ok.mp h
      have hmod := Nat.mod_lt off (show 0 < BSIZE by decide)
      have hmle := Nat.min_le_right n (BSIZE - off % BSIZE)
      have hmn := Nat.min_le_left n (BSIZE - off % BSIZE)
      have hm0 : 0 < min n (BSIZE - off % BSIZE) := by omega
      generalize min n (BSIZE - off % BSIZE) = m at h hr hmle hmn hm0
      have hfuel' : n - m ≤ fuel := by omega
      have hsize' : off + m + (n - m) ≤ (fs.current i).size := by omega
      simp only [Except.ok.injEq, Prod.mk.injEq] at h
      obtain ⟨rfl, rfl⟩ := h
      obtain ⟨hfs, rfl⟩ := ih hfuel' hsize' hr
      exact ⟨hfs, bytes_of_round hq hmle hmn⟩

/-- **`readi`** of a directory or file with no holes changes nothing, and what it returns is in
the file. -/
theorem readi_spec {input : List UInt8} {got : Option (List UInt8)} (ho : Owned sb fs)
    (hm : MetaUsed sb fs) (hval : (fs.inode i).valid = true) (hh : NoHoles fs i)
    (hd : (fs.inode i).type ≠ .dev) (h : readi sb fs input i off n = .ok (got, fs')) :
    fs' = fs ∧ ∀ l, got = some l → off + l.length ≤ (fs.current i).size ∧
      l = (List.range l.length).map fun j => fs.byteAt i (off + j) := by
  have hcur : (fs.current i).size = (fs.inode i).size := by rw [current_of_valid hval]
  rw [readi] at h
  rw [if_neg hd] at h
  split at h
  · cases h
    exact ⟨rfl, fun l hl => nomatch hl⟩
  rename_i hoff
  obtain ⟨⟨l, fs₁⟩, hr, h⟩ := bind_ok.mp h
  cases h
  have hn : off + (if (fs.inode i).size < off + n then (fs.inode i).size - off else n) ≤
      (fs.current i).size := by
    rw [hcur]
    split <;> omega
  obtain ⟨rfl, rfl⟩ := readLoop_spec ho hm hval hh (Nat.le_refl _) hn hr
  refine ⟨rfl, ?_⟩
  rintro _ ⟨⟩
  rw [List.length_map, List.length_range]
  exact ⟨hn, rfl⟩

/-! ### Consistent volumes -/

/-- **The invariants of the file system** between two operations: ownership, no holes, the cache
a copy of the disk, a free inode where nothing is left of one, and the links of directories. -/
structure Consistent (sb : Superblock) (fs : Volume) : Prop where
  owned : Owned sb fs
  metaUsed : MetaUsed sb fs
  noHoles : ∀ i, NoHoles fs i
  cached : ∀ i, (fs.inode i).valid = true →
    (fs.inode i).toDinode = fs.dinode i ∧ (fs.dinode i).type ≠ .free
  ref : ∀ i, 0 ≤ (fs.inode i).ref
  /-- an inode without links is in use by somebody -/
  linked : ∀ i, (fs.dinode i).type ≠ .free → (fs.dinode i).nlink = 0 → 1 ≤ (fs.inode i).ref
  inum : ∀ i, (fs.dinode i).type ≠ .free → i < sb.ninodes
  /-- a directory has its own name and the `..` of each directory in it -/
  subdir : ∀ dp off, off % DIRENT = 0 → off + DIRENT ≤ (fs.dinode dp).size →
    ¬ sameName ((fs.dirent dp off).drop 2) [46] → ¬ sameName ((fs.dirent dp off).drop 2) [46, 46] →
    direntInum (fs.dirent dp off) ≠ 0 → (fs.dinode (direntInum (fs.dirent dp off))).type = .dir →
    2 ≤ (fs.dinode dp).nlink ∧ (fs.dinode dp).nlink < 2 ^ 15
  /-- no operation is in progress -/
  idle : fs.logged = []

theorem Consistent.current (h : Consistent sb fs) (i : Nat) : fs.current i = fs.dinode i := by
  rw [Volume.current]
  split
  · rename_i hv
    exact (h.cached i hv).1
  · rfl

/-! ### Lookups -/

/-- `fs` is `fs₀` but for the inode cache, with `h j` more references to inode `j`. -/
structure Calm (fs₀ fs : Volume) (h : Nat → Int) : Prop where
  disk : fs.disk = fs₀.disk
  dinode : fs.dinode = fs₀.dinode
  logged : fs.logged = fs₀.logged
  cached : ∀ j, (fs.inode j).valid = true →
    (fs.inode j).toDinode = fs₀.dinode j ∧ (fs₀.dinode j).type ≠ .free
  ref : ∀ j, (fs.inode j).ref = (fs₀.inode j).ref + h j
  held : ∀ j, 0 ≤ h j

namespace Calm

variable {fs₀ : Volume} {h : Nat → Int} {j : Nat}

theorem refl (hc : Consistent sb fs₀) : Calm fs₀ fs₀ 0 :=
  ⟨rfl, rfl, rfl, hc.cached, fun j => by simp, fun _ => le_rfl⟩

theorem current (hc : Calm fs₀ fs h) (j : Nat) : fs.current j = fs₀.dinode j := by
  rw [Volume.current]
  split
  · rename_i hv
    exact (hc.cached j hv).1
  · rw [hc.dinode]

section

variable (hc : Calm fs₀ fs h) (h₀ : Consistent sb fs₀)
include hc h₀

theorem forest : fs.forest = fs₀.forest :=
  forest_congr (fun j => by rw [hc.current, h₀.current]) hc.disk

theorem owned : Owned sb fs :=
  h₀.owned.congr (fun q _ => by rw [hc.forest h₀]) fun c _ => by rw [Volume.used, hc.disk]; rfl

theorem metaUsed : MetaUsed sb fs := by
  intro b hb hlt
  rw [Volume.used, hc.disk]
  exact h₀.metaUsed b hb hlt

theorem noHoles (j : Nat) : NoHoles fs j := by
  intro bn q hq hv hlt
  rw [hc.current] at hlt
  rw [hc.forest h₀]
  exact h₀.noHoles j bn q hq hv (by rw [h₀.current]; exact hlt)

theorem iget (j : Nat) : Calm fs₀ (Fs.iget fs j) (h + Pi.single j 1) := by
  have href := hc.ref j
  have hle := hc.held j
  have hle₀ := h₀.ref j
  refine ⟨hc.disk, hc.dinode, hc.logged, fun k => ?_, fun k => ?_, fun k => ?_⟩
  · by_cases e : k = j
    · subst e
      simp only [Fs.iget, Volume.setInode, update_self]
      split
      · exact hc.cached k
      · intro hv; cases hv
    · simp only [Fs.iget, Volume.setInode, update_of_ne e]
      exact hc.cached k
  · by_cases e : k = j
    · subst e
      simp only [Fs.iget, Volume.setInode, update_self, Pi.add_apply, Pi.single_eq_same]
      split
      · dsimp only
        omega
      · dsimp only
        omega
    · simp only [Fs.iget, Volume.setInode, update_of_ne e, Pi.add_apply,
        Pi.single_eq_of_ne e, add_zero]
      exact hc.ref k
  · by_cases e : k = j
    · subst e
      simp only [Pi.add_apply, Pi.single_eq_same]
      omega
    · simp only [Pi.add_apply, Pi.single_eq_of_ne e, add_zero]
      exact hc.held k

end

/-- A reference more or less. -/
theorem setRef (hc : Calm fs₀ fs h) (j : Nat) (d : Int) (hd : 0 ≤ h j + d) :
    Calm fs₀ (fs.setInode j fun ip => { ip with ref := ip.ref + d }) (h + Pi.single j d) := by
  refine ⟨hc.disk, hc.dinode, hc.logged, fun k => ?_, fun k => ?_, fun k => ?_⟩
  · by_cases e : k = j
    · subst e
      simp only [Volume.setInode, update_self]
      exact hc.cached k
    · simp only [Volume.setInode, update_of_ne e]
      exact hc.cached k
  · by_cases e : k = j
    · subst e
      simp only [Volume.setInode, update_self, Pi.add_apply, Pi.single_eq_same, hc.ref k]
      omega
    · simp only [Volume.setInode, update_of_ne e, Pi.add_apply, Pi.single_eq_of_ne e, add_zero]
      exact hc.ref k
  · by_cases e : k = j
    · subst e
      simpa only [Pi.add_apply, Pi.single_eq_same] using hd
    · simpa only [Pi.add_apply, Pi.single_eq_of_ne e, add_zero] using hc.held k

theorem ilock (hc : Calm fs₀ fs h) (hl : Fs.ilock fs j = .ok fs') :
    Calm fs₀ fs' h ∧ (fs'.inode j).valid = true ∧
      ∀ k, (fs.inode k).valid = true → (fs'.inode k).valid = true := by
  rw [Fs.ilock] at hl
  dsimp only at hl
  split at hl
  · cases hl
  split at hl
  · rename_i hv
    cases hl
    exact ⟨hc, hv, fun _ => id⟩
  split at hl
  · cases hl
  rename_i hfree
  cases hl
  refine ⟨⟨hc.disk, hc.dinode, hc.logged, fun k => ?_, fun k => ?_, hc.held⟩, ?_, fun k => ?_⟩
  · by_cases e : k = j
    · subst e
      simp only [Volume.setInode, update_self, ← hc.dinode]
      exact fun _ => ⟨trivial, hfree⟩
    · simp only [Volume.setInode, update_of_ne e]
      exact hc.cached k
  · rw [← hc.ref k]
    by_cases e : k = j
    · subst e; simp [Volume.setInode]
    · simp [Volume.setInode, e]
  · simp [Volume.setInode]
  · by_cases e : k = j
    · subst e; simp [Volume.setInode]
    · simp [Volume.setInode, e]

section

variable (hc : Calm fs₀ fs h) (h₀ : Consistent sb fs₀)
include hc h₀

/-- An inode let go by the lookup is not truncated. -/
theorem iput (hj : 1 ≤ h j) (hp : Fs.iput sb fs j = .ok fs') :
    Calm fs₀ fs' (h - Pi.single j 1) ∧ ∀ k, (fs'.inode k).valid = (fs.inode k).valid := by
  have hno : ¬ fs.Goes j := by
    rintro ⟨hv, hn, hr⟩
    obtain ⟨hd, hfree⟩ := hc.cached j hv
    have hlink := h₀.linked j hfree (hd ▸ hn)
    have := hc.ref j
    omega
  rw [Fs.iput, if_neg hno] at hp
  cases hp
  have hr := hc.setRef j (-1) (by omega)
  refine ⟨?_, fun k => ?_⟩
  · rw [sub_eq_add_neg, ← Pi.single_neg]
    exact hr
  · by_cases e : k = j
    · subst e; simp [Volume.unref, Volume.setInode]
    · simp [Volume.unref, Volume.setInode, e]

theorem iunlockput (hj : 1 ≤ h j) (hp : Fs.iunlockput sb fs j = .ok fs') :
    Calm fs₀ fs' (h - Pi.single j 1) ∧ ∀ k, (fs'.inode k).valid = (fs.inode k).valid := by
  rw [Fs.iunlockput] at hp
  split at hp
  · cases hp
  · exact hc.iput h₀ hj hp

theorem dirent (dp off : Nat) : fs.dirent dp off = fs₀.dirent dp off := by
  simp only [Volume.dirent, Volume.byteAt, Volume.blockAt, hc.forest h₀, hc.disk]

variable {dp off fuel : Nat}

/-- Reading a directory entry. -/
theorem readDirent
    (hv : (fs.inode dp).valid = true) (hdir : (fs.inode dp).type ≠ .dev) {de : List UInt8}
    (hr : readi sb fs [] dp off DIRENT = .ok (some de, fs')) (hlen : de.length = DIRENT) :
    fs' = fs ∧ off + DIRENT ≤ (fs₀.dinode dp).size ∧ de = fs₀.dirent dp off := by
  obtain ⟨rfl, hde⟩ := readi_spec (hc.owned h₀) (hc.metaUsed h₀) hv (hc.noHoles h₀ dp) hdir hr
  obtain ⟨hle, heq⟩ := hde de rfl
  rw [hlen] at hle heq
  rw [hc.current] at hle
  exact ⟨rfl, hle, heq.trans (hc.dirent h₀ dp off)⟩

/-- The loop of `dirlookup`: nothing has changed, or the inode of an entry has one reference
more. -/
theorem dirLoop {name : List UInt8} {r : Option (Nat × Nat)} (hv : (fs.inode dp).valid = true)
    (hdir : (fs.inode dp).type ≠ .dev) (hoff : off % DIRENT = 0)
    (hl : Fs.dirLoop sb dp name fuel off fs = .ok (r, fs')) :
    r = none ∧ fs' = fs ∨ ∃ o, r = some (direntInum (fs₀.dirent dp o), o) ∧
      fs' = Fs.iget fs (direntInum (fs₀.dirent dp o)) ∧ o % DIRENT = 0 ∧
      o + DIRENT ≤ (fs₀.dinode dp).size ∧ direntInum (fs₀.dirent dp o) ≠ 0 ∧
      sameName name ((fs₀.dirent dp o).drop 2) = true := by
  induction fuel generalizing off with
  | zero =>
    cases hl
    exact .inl ⟨rfl, rfl⟩
  | succ fuel ih =>
    rw [Fs.dirLoop] at hl
    split at hl
    · obtain ⟨⟨de, fs₁⟩, hr, hl⟩ := bind_ok.mp hl
      cases de with
      | none => cases hl
      | some de =>
        dsimp only at hl
        split at hl
        · cases hl
        rename_i hlen
        obtain ⟨rfl, hle, rfl⟩ := hc.readDirent h₀ hv hdir hr (not_ne_iff.mp hlen)
        split at hl
        · rename_i hname
          cases hl
          exact .inr ⟨off, rfl, rfl, hoff, hle, hname.1, hname.2⟩
        · refine ih ?_ hl
          simp only [DIRENT] at *
          omega
    · cases hl
      exact .inl ⟨rfl, rfl⟩

theorem dirlookup {name : List UInt8} {r : Option (Nat × Nat)} (hv : (fs.inode dp).valid = true)
    (hl : Fs.dirlookup sb fs dp name = .ok (r, fs')) :
    (fs₀.dinode dp).type = .dir ∧ (r = none ∧ fs' = fs ∨
      ∃ o, r = some (direntInum (fs₀.dirent dp o), o) ∧
      fs' = Fs.iget fs (direntInum (fs₀.dirent dp o)) ∧ o % DIRENT = 0 ∧
      o + DIRENT ≤ (fs₀.dinode dp).size ∧ direntInum (fs₀.dirent dp o) ≠ 0 ∧
      sameName name ((fs₀.dirent dp o).drop 2) = true) := by
  rw [Fs.dirlookup] at hl
  split at hl
  · cases hl
  · rename_i hdir
    have hdir := not_ne_iff.mp hdir
    refine ⟨?_, hc.dirLoop h₀ hv (by rw [hdir]; decide) rfl hl⟩
    rw [← (hc.cached dp hv).1, hdir]

end

/-- The loop of `namex` holds one inode at a time. -/
theorem namexLoop (hc : Calm fs₀ fs (Pi.single j 1)) (h₀ : Consistent sb fs₀)
    {path : List UInt8} {r : Option (Nat × List UInt8)}
    (hl : Fs.namexLoop sb fuel j path fs = .ok (r, fs')) :
    (∃ h, Calm fs₀ fs' h) ∧ ∀ dp name, r = some (dp, name) →
      Calm fs₀ fs' (Pi.single dp 1) ∧ (fs'.inode dp).valid = true := by
  have hone (j : Nat) : (1 : Int) ≤ (Pi.single j 1 : Nat → Int) j := by simp
  induction fuel generalizing fs j path with
  | zero =>
    cases hl
    exact ⟨⟨_, hc⟩, fun dp name e => nomatch e⟩
  | succ fuel ih =>
    rw [Fs.namexLoop] at hl
    split at hl
    · obtain ⟨fs₁, hp, hl⟩ := bind_ok.mp hl
      cases hl
      exact ⟨⟨_, (hc.iput h₀ (hone j) hp).1⟩, fun dp name e => nomatch e⟩
    obtain ⟨fs₁, hlock, hl⟩ := bind_ok.mp hl
    obtain ⟨hc₁, hv₁, -⟩ := hc.ilock hlock
    split at hl
    · obtain ⟨fs₂, hp, hl⟩ := bind_ok.mp hl
      cases hl
      exact ⟨⟨_, (hc₁.iunlockput h₀ (hone j) hp).1⟩, fun dp name e => nomatch e⟩
    split at hl
    · cases hl
      refine ⟨⟨_, hc₁⟩, fun dp name e => ?_⟩
      cases e
      exact ⟨hc₁, hv₁⟩
    · obtain ⟨⟨next, fs₂⟩, hd, hl₂⟩ := bind_ok.mp hl
      obtain ⟨fs₃, hp, hl₃⟩ := bind_ok.mp hl₂
      obtain ⟨-, ⟨rfl, rfl⟩ | ⟨o, rfl, rfl, -⟩⟩ := hc₁.dirlookup h₀ hv₁ hd
      · cases hl₃
        exact ⟨⟨_, (hc₁.iunlockput h₀ (hone j) hp).1⟩, fun dp name e => nomatch e⟩
      -- the next inode is held before this one is let go
      have hc₂ := hc₁.iget h₀ (direntInum (fs₀.dirent j o))
      have hone' : (1 : Int) ≤ (Pi.single j 1 + Pi.single (direntInum (fs₀.dirent j o)) 1 :
          Nat → Int) j := by
        by_cases e : j = direntInum (fs₀.dirent j o)
        · rw [← e]; simp
        · simp [e]
      have hc₃ := (hc₂.iunlockput h₀ hone' hp).1
      rw [add_sub_cancel_left] at hc₃
      exact ih hc₃ hl₃

theorem idup (hc : Calm fs₀ fs h) (j : Nat) : Calm fs₀ (Fs.idup fs j) (h + Pi.single j 1) :=
  hc.setRef j 1 (by have := hc.held j; omega)

theorem nameiparent (h₀ : Consistent sb fs₀) {cwd : Nat} {path : List UInt8}
    {r : Option (Nat × List UInt8)} (hl : Fs.nameiparent sb fs₀ cwd path = .ok (r, fs')) :
    (∃ h, Calm fs₀ fs' h) ∧ ∀ dp name, r = some (dp, name) →
      Calm fs₀ fs' (Pi.single dp 1) ∧ (fs'.inode dp).valid = true := by
  rw [Fs.nameiparent] at hl
  split at hl
  · have hc := (Calm.refl h₀).iget h₀ ROOTINO
    rw [zero_add] at hc
    exact hc.namexLoop h₀ hl
  · have hc := (Calm.refl h₀).idup cwd
    rw [zero_add] at hc
    exact hc.namexLoop h₀ hl

theorem emptyLoop (hc : Calm fs₀ fs h) (h₀ : Consistent sb fs₀) {r : Bool}
    (hv : (fs.inode dp).valid = true) (hdir : (fs.inode dp).type ≠ .dev)
    (hl : Fs.emptyLoop sb dp fuel off fs = .ok (r, fs')) : fs' = fs := by
  induction fuel generalizing off with
  | zero => cases hl; rfl
  | succ fuel ih =>
    rw [Fs.emptyLoop] at hl
    split at hl
    · obtain ⟨⟨de, fs₁⟩, hr, hrest⟩ := bind_ok.mp hl
      cases de with
      | none => cases hrest
      | some de =>
        dsimp only at hrest
        split at hrest
        · cases hrest
        rename_i hlen
        obtain ⟨rfl, -⟩ := hc.readDirent h₀ hv hdir hr (not_ne_iff.mp hlen)
        split at hrest
        · cases hrest; rfl
        · exact ih hrest
    · cases hl; rfl

end Calm

/-- What the lookup of `unlink` has found. -/
structure Found (fs₀ fs : Volume) (dp ip off : Nat) : Prop where
  calm : Calm fs₀ fs (Pi.single dp 1 + Pi.single ip 1)
  ne : ip ≠ dp
  validDp : (fs.inode dp).valid = true
  validIp : (fs.inode ip).valid = true
  dir : (fs₀.dinode dp).type = .dir
  aligned : off % DIRENT = 0
  inside : off + DIRENT ≤ (fs₀.dinode dp).size
  /-- a directory is not found through `.` or `..` -/
  links : (fs₀.dinode ip).type = .dir → 2 ≤ (fs₀.dinode dp).nlink ∧ (fs₀.dinode dp).nlink < 2 ^ 15

/-- What the lookup of `unlink` has left, for each of its ends. -/
def Target.Calm (fs₀ fs : Volume) : Target → Prop
  | .none => ∃ h, Fs.Calm fs₀ fs h
  | .bad dp => Fs.Calm fs₀ fs (Pi.single dp 1)
  | .notEmpty dp ip => Fs.Calm fs₀ fs (Pi.single dp 1 + Pi.single ip 1) ∧ ip ≠ dp
  | .entry dp ip off => Found fs₀ fs dp ip off

theorem sameName_trans {s t u : List UInt8} (h : sameName s t = true) (h' : sameName t u = true) :
    sameName s u = true := by
  simp only [sameName, decide_eq_true_eq] at *
  rw [h, h']

theorem unlinkCheck_calm {fs₀ : Volume} (h₀ : Consistent sb fs₀) {dp ip : Nat} {t : Target}
    (hc : Calm fs₀ (iget fs ip) (Pi.single dp 1 + Pi.single ip 1))
    (hv : (fs.inode dp).valid = true) (hdp : (fs₀.dinode dp).type = .dir) (hal : off % DIRENT = 0)
    (hin : off + DIRENT ≤ (fs₀.dinode dp).size) (hlinks : (fs₀.dinode ip).type = .dir →
      2 ≤ (fs₀.dinode dp).nlink ∧ (fs₀.dinode dp).nlink < 2 ^ 15)
    (hl : unlinkCheck sb (iget fs ip) dp ip off = .ok (t, fs')) : t.Calm fs₀ fs' := by
  rw [unlinkCheck] at hl
  split at hl
  · cases hl
  rename_i hne
  obtain ⟨fs₁, hlock, h₁⟩ := bind_ok.mp hl
  obtain ⟨hc₁, hvi, hkeep⟩ := hc.ilock hlock
  have hvd : (fs₁.inode dp).valid = true := by
    refine hkeep dp ?_
    simp only [iget, Volume.setInode, update_of_ne (Ne.symm hne), hv]
  have hfound : Found fs₀ fs₁ dp ip off := ⟨hc₁, hne, hvd, hvi, hdp, hal, hin, hlinks⟩
  split at h₁
  · cases h₁
  split at h₁
  · rename_i hdir
    obtain ⟨⟨empty, fs₂⟩, he, h₂⟩ := bind_ok.mp h₁
    have hsame : fs₂ = fs₁ := hc₁.emptyLoop h₀ hvi (by rw [hdir]; decide) he
    cases h₂
    cases empty with
    | true => exact hsame ▸ hfound
    | false => exact hsame ▸ ⟨hc₁, hne⟩
  · cases h₁
    exact hfound

/-- **The lookup of `unlink`** changes nothing but the references it takes, to the parent and to
the inode found. -/
theorem unlinkFind_calm {fs₀ : Volume} (h₀ : Consistent sb fs₀) {cwd : Nat} {path : List UInt8}
    {t : Target} (hl : unlinkFind sb fs₀ cwd path = .ok (t, fs')) : t.Calm fs₀ fs' := by
  rw [unlinkFind] at hl
  obtain ⟨⟨found, fs₁⟩, hn, h₁⟩ := bind_ok.mp hl
  obtain ⟨⟨h, hcalm⟩, hsome⟩ := Calm.nameiparent h₀ hn
  cases found with
  | none => cases h₁; exact ⟨h, hcalm⟩
  | some p =>
    obtain ⟨dp, name⟩ := p
    obtain ⟨hc₁, -⟩ := hsome dp name rfl
    obtain ⟨fs₂, hlock, h₂⟩ := bind_ok.mp h₁
    obtain ⟨hc₂, hv₂, -⟩ := hc₁.ilock hlock
    split at h₂
    · cases h₂; exact hc₂
    rename_i hdots
    obtain ⟨⟨found, fs₃⟩, hd, h₃⟩ := bind_ok.mp h₂
    obtain ⟨hdir, ⟨rfl, rfl⟩ | ⟨o, rfl, rfl, hal, hin, hne0, hname⟩⟩ := hc₂.dirlookup h₀ hv₂ hd
    · cases h₃; exact hc₂
    have hc₃ := hc₂.iget h₀ (direntInum (fs₀.dirent dp o))
    have hlinks := h₀.subdir dp o hal hin
      (fun e => hdots (.inl (sameName_trans hname e)))
      (fun e => hdots (.inr (sameName_trans hname e))) hne0
    exact unlinkCheck_calm h₀ hc₃ hv₂ hdir hal hin hlinks h₃

end

end Xv6.Fs
