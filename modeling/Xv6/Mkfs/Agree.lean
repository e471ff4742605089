import Xv6.Mkfs.Returns

/-!
# Mkfs — the kernel reads what `mkfs` wrote

The finished image differs from the image with the files in it (`Built`) in the size of the root
directory, which is rounded up, and in the bitmap (`Finish`).  The kernel's volume therefore has the
blocks, the bits and the files of that image.

* `image_agrees`: **the kernel finds the files of the command line** (`Agrees`) exactly when
  each of them lies within the reach of `iappend`, there is an inode block for each inode, and the
  names are distinct as a directory keeps them (`Fits`).
* `image_overrun`: `iappend` indexes beyond its array of indirect block numbers.
-/

namespace Xv6.Mkfs

open Support (getWord getBit bind_ok bind_error)
open Support.Forest (Valid Inj)
open Fs (mkfsSb Volume Owned MetaUsed ROOTINO DIRENT direntKey direntInum cutName)

/-! ### The last two steps -/

/-- The image `img` is `img₁` with the size of the root directory fixed and the bitmap written. -/
structure Finish (img₁ img : Image) : Prop where
  full : img₁.freeblock < BPB
  data : ∀ b, mkfsSb.nmeta ≤ b → img.sect b = img₁.sect b
  bitmap : img.sect mkfsSb.bmapstart = markLoop img₁.freeblock
  rest : ∀ b, mkfsSb.bmapstart < b → b < mkfsSb.nmeta → img.sect b = img₁.sect b
  root : img.dinode ROOTINO =
    { img₁.dinode ROOTINO with size := ((img₁.dinode ROOTINO).size / BSIZE + 1) * BSIZE }
  other : ∀ j < INODES, j ≠ ROOTINO → img.dinode j = img₁.dinode j

section

variable {files : List HostFile} {img img₁ : Image} {i : Nat}

theorem balloc_ok {n : Nat} (h : balloc img₁ n = .ok img) :
    n < BPB ∧ img = img₁.wsect mkfsSb.bmapstart (markLoop n) := by
  rw [balloc] at h
  split at h
  · rename_i hn
    cases h
    exact ⟨hn, rfl⟩
  · cases h

theorem finish_ok {img₂ : Image} (hsize : (img₁.dinode ROOTINO).size < REACH * BSIZE)
    (h : fixRoot img₁ = .ok img₂) (hb : balloc img₂ img₂.freeblock = .ok img) :
    Finish img₁ img := by
  obtain ⟨din, hr, hw⟩ := bind_ok.mp h
  obtain rfl := rinode_ok hr
  have hin := inRange_dinode img₁ ROOTINO
  have hlt : ((img₁.dinode ROOTINO).size / BSIZE + 1) * BSIZE < 2 ^ 32 := by
    change _ < 138 * 512 at hsize
    change ((img₁.dinode ROOTINO).size / 512 + 1) * 512 < 2 ^ 32
    omega
  have hrange : ({ img₁.dinode ROOTINO with
      size := ((img₁.dinode ROOTINO).size / BSIZE + 1) * BSIZE } : Dinode).InRange :=
    ⟨hin.type, hin.major, hin.minor, hin.nlink, hlt, hin.addrs⟩
  have hroot : ROOTINO < INODES := by decide
  have hp := winode_ok hroot hrange hw
  obtain ⟨hfull, rfl⟩ := balloc_ok hb
  rw [hp.freeblock] at hfull
  -- no inode lies in the bitmap
  have hinode {j : Nat} (hj : j < INODES) :
      (img₂.wsect mkfsSb.bmapstart (markLoop img₂.freeblock)).dinode j = img₂.dinode j := by
    rw [Image.dinode, Image.dinode, sect_wsect_of_ne _ (iblock_lt hj).ne]
  refine ⟨hfull, fun b hb => ?_, ?_, fun b hb _ => ?_, ?_, fun j hj hne => ?_⟩
  · have hlt : mkfsSb.bmapstart < b := Nat.lt_of_lt_of_le (by decide) hb
    rw [sect_wsect_of_ne _ hlt.ne', hp.sect b hlt.le]
  · rw [sect_wsect_self, hp.freeblock]
  · rw [sect_wsect_of_ne _ hb.ne', hp.sect b hb.le]
  · rw [hinode (by decide), hp.self]
  · rw [hinode hj, hp.other j hne]

theorem Built.size_root (h : Built files img) :
    (img.dinode ROOTINO).size = DIRENT * (files.length + 2) := by
  rw [size_of_content (by decide), h.root, length_rootBytes]

theorem Finish.type_root (h : Finish img₁ img) (hb : Built files img₁) :
    (img.volume.dinode ROOTINO).type = .dir := by
  rw [volume_dinode (by decide), h.root, hb.rootMade]
  rfl

/-- **What `mkfs` has written**, when the inodes have room. -/
theorem mkfs_ok (hn : files.length + 2 ≤ INODES) (h : mkfs files = .ok img) :
    ∃ img₁, Built files img₁ ∧ Finish img₁ img := by
  obtain ⟨img₀, h₀, h⟩ := bind_ok.mp h
  obtain ⟨img₁, h₁, h⟩ := bind_ok.mp h
  obtain ⟨img₂, h₂, h⟩ := bind_ok.mp h
  have hb : Built ([] ++ files) img₁ := addFiles_ok (makeRoot_ok h₀)
    (by rw [List.length_nil, Nat.zero_add]; exact hn) h₁
  rw [List.nil_append] at hb
  refine ⟨img₁, hb, finish_ok ?_ h₂ h⟩
  rw [hb.size_root]
  change files.length + 2 ≤ 208 at hn
  change 16 * (files.length + 2) < 138 * 512
  omega

/-- `mkfs` indexes beyond the array only for a file beyond reach. -/
theorem mkfs_fault (hn : files.length + 2 ≤ INODES) (h : mkfs files = .error .fault) :
    ∃ f ∈ files, REACH * BSIZE < f.data.length := by
  rcases bind_error.mp h with h₀ | ⟨img₀, h₀, h⟩
  · exact absurd h₀ makeRoot_fault
  have hn' : ([] : List HostFile).length + files.length + 2 ≤ INODES := by
    rw [List.length_nil, Nat.zero_add]
    exact hn
  rcases bind_error.mp h with h₁ | ⟨img₁, -, h⟩
  · exact addFiles_fault (makeRoot_ok h₀) hn' h₁
  rcases bind_error.mp h with h₂ | ⟨img₂, -, h₂⟩
  · rcases bind_error.mp h₂ with h₂ | ⟨_, -, h₂⟩
    · exact absurd h₂ rinode_fault
    · exact absurd h₂ winode_fault
  · rw [balloc] at h₂
    split at h₂ <;> cases h₂

/-! ### The volume -/

namespace Finish

theorem dinode (h : Finish img₁ img) (i : Nat) :
    img.volume.dinode i = { img₁.view.current i with size := (img.volume.dinode i).size } := by
  rw [current_view]
  by_cases hi : i < INODES
  · rw [volume_dinode hi, volume_dinode hi]
    by_cases hr : i = ROOTINO
    · rw [hr, h.root]
      simp only [Dinode.read]
    · rw [h.other i hi hr]
  · have (m : Image) : m.volume.dinode i = ⟨.free, 0, 0, 0, 0, fun _ => 0⟩ := if_neg hi
    rw [this, this]

theorem size_of_ne (h : Finish img₁ img) (hi : i ≠ ROOTINO) :
    (img.volume.dinode i).size = (img₁.view.current i).size := by
  rw [current_view]
  by_cases hlt : i < INODES
  · rw [volume_dinode hlt, volume_dinode hlt, h.other i hlt hi]
  · have (m : Image) : m.volume.dinode i = ⟨.free, 0, 0, 0, 0, fun _ => 0⟩ := if_neg hlt
    rw [this, this]

section

variable (h : Finish img₁ img) (hs : Sound img₁)
include h hs

/-- The bitmap the kernel finds is the one that was not kept. -/
theorem used {b : Nat} (hb : b < FSSIZE) : img.volume.used mkfsSb b = img₁.view.used mkfsSb b := by
  have hview : img₁.view.used mkfsSb b = decide (b < img₁.freeblock) :=
    used_of_shown (show img₁.view.disk = img₁.shown from rfl) hb
  rw [hview]
  change getBit (img.sect (mkfsSb.bblock b)) (b % BPB) = _
  by_cases hfirst : b < BPB
  · have hblock : mkfsSb.bblock b = mkfsSb.bmapstart := by
      rw [Fs.Superblock.bblock, Nat.div_eq_of_lt hfirst, Nat.zero_add]
    rw [hblock, h.bitmap, markLoop_eq h.full.le, ← getBit_bitBlock, Nat.div_eq_of_lt hfirst]
  have hlt : mkfsSb.bmapstart < mkfsSb.bblock b := by
    have : 0 < b / BPB := Nat.div_pos (Nat.le_of_not_lt hfirst) (by decide)
    rw [Fs.Superblock.bblock]
    omega
  have hmeta : mkfsSb.bblock b < mkfsSb.nmeta := Fs.bblock_lt_nmeta hb
  rw [h.rest _ hlt hmeta, hs.bits _ hlt.le hmeta]
  have : ¬ b < img₁.freeblock := by
    have := h.full
    omega
  rw [decide_eq_false this]
  simp [getBit]

theorem get {q : Fs.Place} (hq : Valid Fs.shape q) :
    img.volume.forest.get q = img₁.view.forest.get q := by
  refine Support.Forest.get_congr (F := img₁.view.forest) (G := img.volume.forest) ?_
    (fun p hp hne x _ => ?_) hq
  · funext r
    change (img.volume.dinode r.1).addrs r.2 = _
    rw [h.dinode]
    rfl
  · have hle := (hs.wf.owned.data p hp.valid hne).1
    change getWord (img.sect _) x = getWord (img₁.shown _) x
    rw [h.data _ hle, shown_of_le hle]

theorem owned : Owned mkfsSb img.volume :=
  hs.wf.owned.congr (fun _ hq => h.get hs hq) fun _ hc => h.used hs hc

theorem metaUsed : MetaUsed mkfsSb img.volume := by
  intro b hb hlt
  rw [h.used hs hlt]
  exact hs.wf.metaUsed b hb hlt

theorem mapped (j bn : Nat) : img.volume.Mapped j bn ↔ img₁.view.Mapped j bn := by
  constructor
  · rintro ⟨q, hq, hv, hne⟩
    exact ⟨q, hq, hv, by rwa [h.get hs hv] at hne⟩
  · rintro ⟨q, hq, hv, hne⟩
    exact ⟨q, hq, hv, by rwa [h.get hs hv]⟩

theorem byteAt {j o : Nat}
    (hm : img₁.view.Mapped j (o / BSIZE)) : img.volume.byteAt j o = img₁.view.byteAt j o := by
  obtain ⟨q, hq, hv, hne⟩ := hm
  have hle := (hs.wf.owned.data q hv hne).1
  rw [Fs.byteAt_of_place hq, Fs.byteAt_of_place hq, h.get hs hv]
  change img.sect _ _ = img₁.shown _ _
  rw [h.data _ hle, shown_of_le hle]

end

end Finish

/-! ### Locking an inode of a fresh volume -/

/-- The first `iget` and `ilock` of an inode read it from the disk. -/
theorem lock_fresh (ht : (img.volume.dinode i).type ≠ .free) :
    ∃ fs, Fs.ilock (Fs.iget img.volume i) i = .ok fs ∧ fs.disk = img.sect ∧
      fs.inode i = ⟨img.volume.dinode i, 1, true⟩ ∧ (∀ j, fs.current j = img.volume.dinode j) ∧
      fs.logged = [] := by
  have hget : Fs.iget img.volume i =
      img.volume.setInode i fun ip => { ip with ref := 1, valid := false } := by
    rw [Fs.iget, Volume.setInode, Volume.setInode]
    rfl
  have href : ((Fs.iget img.volume i).inode i).ref = 1 := by
    rw [hget]
    simp [Volume.setInode]
  have hval : ((Fs.iget img.volume i).inode i).valid = false := by
    rw [hget]
    simp [Volume.setInode]
  have hlock : Fs.ilock (Fs.iget img.volume i) i = .ok ((Fs.iget img.volume i).setInode i
      fun ip => { ip with toDinode := img.volume.dinode i, valid := true }) := by
    rw [Fs.ilock]
    dsimp only
    rw [href, hval, if_neg (by decide), if_neg (by decide)]
    exact if_neg ht
  have hself : ((Fs.iget img.volume i).setInode i
      fun ip => { ip with toDinode := img.volume.dinode i, valid := true }).inode i =
      ⟨img.volume.dinode i, 1, true⟩ := by
    rw [Volume.setInode]
    dsimp only
    rw [Function.update_self, href]
  refine ⟨_, hlock, rfl, hself, fun j => ?_, rfl⟩
  by_cases hj : j = i
  · subst hj
    rw [Volume.current, hself]
    rfl
  have hother : ((Fs.iget img.volume i).setInode i
      fun ip => { ip with toDinode := img.volume.dinode i, valid := true }).inode j =
      img.volume.inode j := by
    rw [hget]
    simp [Volume.setInode, hj]
  rw [Volume.current, hother]
  rfl

/-! ### What agreement means -/

/-- **The kernel finds what `mkfs` was given**: every file under its name, with its bytes, read
without a change to the volume; and every block that an inode reaches is a data block marked used
that is reached once. -/
structure Agrees (files : List HostFile) (img : Image) : Prop where
  found : ∀ k (h : k < files.length), ∃ fs, Fs.ilock (Fs.iget img.volume ROOTINO) ROOTINO = .ok fs ∧
    Fs.finds mkfsSb fs ROOTINO files[k].fsName = some (some (k + 2))
  regular : ∀ k (h : k < files.length), (img.dinode (k + 2)).type = T_FILE ∧
    (img.dinode (k + 2)).size = files[k].data.length ∧
    ∃ fs, Fs.ilock (Fs.iget img.volume (k + 2)) (k + 2) = .ok fs ∧
      Fs.readi mkfsSb fs [] (k + 2) 0 files[k].data.length = .ok (some files[k].data, fs)
  once : Inj Fs.shape img.volume.forest
  used : ∀ q, Valid Fs.shape q → img.volume.forest.get q ≠ 0 →
    mkfsSb.nmeta ≤ img.volume.forest.get q ∧ img.volume.forest.get q < mkfsSb.size ∧
      img.volume.used mkfsSb (img.volume.forest.get q) = true

/-- The names of the entries of the root directory, as it keeps them. -/
def rootNames (files : List HostFile) : List (List UInt8) :=
  [46] :: [46, 46] :: files.map fun f => cutName f.fsName

/-- **The files that `mkfs` can take.** -/
structure Fits (files : List HostFile) : Prop where
  /-- `iappend` reaches the end of each file -/
  reach : ∀ f ∈ files, f.data.length ≤ (NDIRECT + NINDIRECT) * BSIZE
  /-- the inode blocks have room for the inodes, from `ROOTINO + 1` on -/
  inodes : files.length + 2 ≤ INODES
  /-- no two entries of the root directory have one name -/
  names : (rootNames files).Nodup

/-! ### The files -/

theorem Built.agrees_regular (hb : Built files img₁) (h : Finish img₁ img)
    (hn : files.length + 2 ≤ INODES) {k : Nat} (hk : k < files.length) :
    (img.dinode (k + 2)).type = T_FILE ∧ (img.dinode (k + 2)).size = files[k].data.length ∧
    ∃ fs, Fs.ilock (Fs.iget img.volume (k + 2)) (k + 2) = .ok fs ∧
      Fs.readi mkfsSb fs [] (k + 2) 0 files[k].data.length = .ok (some files[k].data, fs) := by
  have hi : k + 2 < INODES := by omega
  have hne : k + 2 ≠ ROOTINO := by
    change _ ≠ 1
    omega
  have hsame : img.dinode (k + 2) = img₁.dinode (k + 2) := h.other _ hi hne
  have htype : (img.dinode (k + 2)).type = T_FILE := by
    rw [hsame, hb.dataMade k hk]
    rfl
  have hsize : (img.dinode (k + 2)).size = files[k].data.length := by
    rw [hsame, size_of_content hi, hb.data k hk]
  have hvol : img.volume.dinode (k + 2) = (img.dinode (k + 2)).read := volume_dinode hi
  have hfile : (img.volume.dinode (k + 2)).type = .file := by
    rw [hvol]
    change fileType (img.dinode (k + 2)).type = _
    rw [htype]
    rfl
  obtain ⟨fs, hlock, hdisk, hinode, hcur, -⟩ := lock_fresh (by rw [hfile]; decide)
  have hvalid : (fs.inode (k + 2)).valid = true := by rw [hinode]
  have hforest : fs.forest = img.volume.forest := Fs.forest_congr (fun j => by rw [hcur]; rfl) hdisk
  have hfsize : (fs.current (k + 2)).size = (img₁.view.current (k + 2)).size := by
    rw [hcur, h.size_of_ne hne]
  have hmap (bn : Nat) (hbn : bn * BSIZE < (fs.current (k + 2)).size) :
      img₁.view.Mapped (k + 2) bn := hb.sound.wf.mapped _ _ (hfsize ▸ hbn)
  have hcontent : fs.content (k + 2) = files[k].data := by
    rw [← hb.data k hk, Volume.content, Volume.content, hfsize]
    refine List.map_congr_left fun o ho => ?_
    rw [Fs.byteAt_congr hforest hdisk, h.byteAt hb.sound (hb.sound.wf.byte (List.mem_range.mp ho))]
  have hlen : files[k].data.length < 2 ^ 32 :=
    Nat.lt_of_le_of_lt (hb.reach _ (List.getElem_mem hk)) (by decide)
  refine ⟨htype, hsize, fs, hlock, ?_⟩
  rw [Fs.readi_eq hvalid (by rw [hinode]; change (img.volume.dinode _).type ≠ _; rw [hfile]; decide)
    (fun bn hbn => (Fs.mapped_congr hforest _ _).mpr ((h.mapped hb.sound _ _).mpr (hmap bn hbn)))
    (by decide) hlen, Fs.Content.readi, hcontent, if_neg (by omega), List.drop_zero,
    List.take_length]

/-! ### The root directory -/

/-- Piece `k` of pieces of one length. -/
theorem slice_flatten {α : Type*} {d : Nat} {L : List (List α)} (hL : ∀ l ∈ L, l.length = d)
    {k : Nat} (hk : k < L.length) : (L.flatten.drop (d * k)).take d = L[k] := by
  induction L generalizing k with
  | nil => exact absurd hk (Nat.not_lt_zero _)
  | cons l L ih =>
    have hl := hL l List.mem_cons_self
    cases k with
    | zero =>
      rw [Nat.mul_zero, List.drop_zero, List.flatten_cons, ← hl, List.take_left']
      · rfl
      · rfl
    | succ k =>
      have hk' : k < L.length := Nat.lt_of_succ_lt_succ hk
      rw [List.flatten_cons, Nat.mul_succ, Nat.add_comm, ← List.drop_drop, List.drop_left' hl,
        ih (fun l hl => hL l (List.mem_cons_of_mem _ hl)) hk', List.getElem_cons_succ]

/-- The inode numbers of the entries of the root directory. -/
def rootInum (k : Nat) : Nat := if k < 2 then ROOTINO else k

theorem length_rootEntries (files : List HostFile) :
    (rootEntries files).length = files.length + 2 := by
  simp [rootEntries]

theorem length_rootNames (files : List HostFile) : (rootNames files).length = files.length + 2 := by
  simp [rootNames]

/-- Entry `k` has name `k`. -/
theorem rootEntries_getElem (hn : files.length + 2 ≤ INODES) {k : Nat}
    (hk : k < (rootEntries files).length) :
    direntKey (rootEntries files)[k] = (rootNames files)[k]? ∧
      direntInum (rootEntries files)[k] = rootInum k := by
  match k with
  | 0 => exact ⟨rfl, rfl⟩
  | 1 => exact ⟨rfl, rfl⟩
  | k + 2 =>
    rw [length_rootEntries] at hk
    have hk' : k < files.length := Nat.lt_of_succ_lt_succ (Nat.lt_of_succ_lt_succ hk)
    change files.length + 2 ≤ 208 at hn
    have hlt : k + 2 < 2 ^ 16 := by omega
    have hname : (rootNames files)[k + 2]? = some (cutName files[k].fsName) := by
      simp [rootNames, hk']
    simp only [rootEntries, List.getElem_cons_succ, List.getElem_mapIdx]
    rw [hname, Fs.direntKey_direntOf _ (Nat.succ_pos _) hlt, Fs.direntInum_direntOf _ hlt]
    exact ⟨rfl, (if_neg (by omega)).symm⟩

/-- Reading a slot whose blocks are there. -/
theorem readi_slot {fs : Volume} {dp k : Nat} (hv : (fs.inode dp).valid = true)
    (ht : (fs.inode dp).type ≠ .dev) (hend : DIRENT * (k + 1) ≤ (fs.inode dp).size)
    (hlt : (fs.inode dp).size < 2 ^ 32)
    (hmap : ∀ o < DIRENT * (k + 1), fs.Mapped dp (o / BSIZE)) :
    Fs.readi mkfsSb fs [] dp (DIRENT * k) DIRENT = .ok (some (fs.slot dp k), fs) := by
  rw [Nat.mul_succ] at hend hmap
  rw [Fs.readi]
  dsimp only
  rw [if_neg ht, if_neg (by omega), if_neg (by omega), Fs.readLoop_eq hv le_rfl fun o _ ho => hmap o ho]
  rfl

/-- The loop of `dirlookup` returns at the first slot with the name; the directory need not be
mapped beyond it. -/
theorem dirLoop_first {fs : Volume} {dp k j fuel : Nat} {name : List UInt8}
    (hv : (fs.inode dp).valid = true) (ht : (fs.inode dp).type ≠ .dev)
    (hend : DIRENT * (j + 1) ≤ (fs.inode dp).size) (hlt : (fs.inode dp).size < 2 ^ 32)
    (hmap : ∀ o < DIRENT * (j + 1), fs.Mapped dp (o / BSIZE)) (hkj : k ≤ j) (hfuel : j - k < fuel)
    (hbefore : ∀ l, k ≤ l → l < j → direntKey (fs.slot dp l) ≠ some (cutName name))
    (hj : direntKey (fs.slot dp j) = some (cutName name)) :
    Fs.dirLoop mkfsSb dp name fuel (DIRENT * k) fs = .ok
      (some (direntInum (fs.slot dp j), DIRENT * j), Fs.iget fs (direntInum (fs.slot dp j))) := by
  induction fuel generalizing k with
  | zero => exact absurd hfuel (Nat.not_lt_zero _)
  | succ fuel ih =>
    have hle : DIRENT * (k + 1) ≤ DIRENT * (j + 1) := Nat.mul_le_mul_left _ (Nat.succ_le_succ hkj)
    have hin : DIRENT * k < (fs.inode dp).size := by
      rw [Nat.mul_succ] at hle
      change _ + 16 ≤ _ at hle
      omega
    rw [Fs.dirLoop, if_pos hin, readi_slot hv ht (le_trans hle hend) hlt fun o ho =>
      hmap o (Nat.lt_of_lt_of_le ho hle)]
    dsimp only [bind, Except.bind]
    rw [if_neg (not_not_intro (Fs.length_slot fs dp k))]
    rcases Nat.eq_or_lt_of_le hkj with rfl | hlt'
    · rw [if_pos (Fs.direntKey_eq_some.mp hj)]
    · rw [if_neg fun hc => hbefore k le_rfl hlt' (Fs.direntKey_eq_some.mpr hc)]
      exact ih hlt' (by omega) fun l h₁ h₂ => hbefore l (Nat.le_of_succ_le h₁) h₂

/-- **The root directory, locked**: its slots are the entries that were written. -/
theorem Built.root_locked (hb : Built files img₁) (h : Finish img₁ img) :
    ∃ fs, Fs.ilock (Fs.iget img.volume ROOTINO) ROOTINO = .ok fs ∧
      (fs.inode ROOTINO).valid = true ∧ (fs.inode ROOTINO).type = .dir ∧
      (fs.inode ROOTINO).size = (DIRENT * (files.length + 2) / BSIZE + 1) * BSIZE ∧
      (∀ o < DIRENT * (files.length + 2), fs.Mapped ROOTINO (o / BSIZE)) ∧
      ∀ k (hk : k < (rootEntries files).length), fs.slot ROOTINO k = (rootEntries files)[k] := by
  have hroot : ROOTINO < INODES := by decide
  have hvol : img.volume.dinode ROOTINO = (img.dinode ROOTINO).read := volume_dinode hroot
  have htype := h.type_root hb
  have hsize₁ : (img₁.view.current ROOTINO).size = DIRENT * (files.length + 2) := by
    rw [size_view hroot, hb.size_root]
  obtain ⟨fs, hlock, hdisk, hinode, hcur, -⟩ := lock_fresh (by rw [htype]; decide)
  have hforest : fs.forest = img.volume.forest := Fs.forest_congr (fun j => by rw [hcur]; rfl) hdisk
  have hmap (o : Nat) (ho : o < DIRENT * (files.length + 2)) :
      img₁.view.Mapped ROOTINO (o / BSIZE) := hb.sound.wf.byte (hsize₁ ▸ ho)
  refine ⟨fs, hlock, by rw [hinode], by rw [hinode]; exact htype, ?_, fun o ho => ?_, fun k hk => ?_⟩
  · rw [hinode]
    change (img.volume.dinode ROOTINO).size = _
    rw [hvol, h.root, ← hb.size_root]
    rfl
  · exact (Fs.mapped_congr hforest _ _).mpr ((h.mapped hb.sound _ _).mpr (hmap o ho))
  have hk' : k < files.length + 2 := by rwa [length_rootEntries] at hk
  have hend : DIRENT * k + DIRENT ≤ DIRENT * (files.length + 2) := Nat.mul_le_mul_left DIRENT hk'
  have hslice := slice_flatten (fun l hl => length_of_mem_rootEntries hl) hk
  rw [← hb.root, Fs.take_drop_content, hsize₁, Nat.min_eq_left (by omega)] at hslice
  rw [← hslice]
  refine List.map_congr_left fun j hj => ?_
  have hj' := List.mem_range.mp hj
  rw [Fs.byteAt_congr hforest hdisk, h.byteAt hb.sound (hmap _ (by omega))]

section

variable (hb : Built files img₁) (h : Finish img₁ img) (hn : files.length + 2 ≤ INODES)
include hb h hn

/-- `dirlookup` in the root directory finds the first entry with the name. -/
theorem Built.finds_first : ∃ fs, Fs.ilock (Fs.iget img.volume ROOTINO) ROOTINO = .ok fs ∧
      ∀ name k, (rootNames files)[k]? = some (cutName name) →
        (∀ l < k, (rootNames files)[l]? ≠ some (cutName name)) →
        Fs.finds mkfsSb fs ROOTINO name = some (some (rootInum k)) := by
  obtain ⟨fs, hlock, hvalid, htype, hsize, hmap, hslot⟩ := hb.root_locked h
  refine ⟨fs, hlock, fun name k hname hbefore => ?_⟩
  obtain ⟨hk, -⟩ := List.getElem?_eq_some_iff.mp hname
  rw [length_rootNames] at hk
  have hend : DIRENT * (k + 1) ≤ DIRENT * (files.length + 2) := Nat.mul_le_mul_left _ hk
  have hsize' : DIRENT * (files.length + 2) ≤ (fs.inode ROOTINO).size := by
    rw [hsize]
    change 16 * (files.length + 2) ≤ (16 * (files.length + 2) / 512 + 1) * 512
    omega
  have hlt : (fs.inode ROOTINO).size < 2 ^ 32 := by
    rw [hsize]
    change files.length + 2 ≤ 208 at hn
    change (16 * (files.length + 2) / 512 + 1) * 512 < 2 ^ 32
    omega
  have hkey (l : Nat) (hl : l < files.length + 2) :
      direntKey (fs.slot ROOTINO l) = (rootNames files)[l]? ∧
        direntInum (fs.slot ROOTINO l) = rootInum l := by
    have hl' : l < (rootEntries files).length := by rwa [length_rootEntries]
    rw [hslot l hl']
    exact rootEntries_getElem hn hl'
  have hfuel : k - 0 < (fs.inode ROOTINO).size / DIRENT + 1 := by
    have : DIRENT * (k + 1) ≤ (fs.inode ROOTINO).size := le_trans hend hsize'
    change 16 * (k + 1) ≤ _ at this
    change k - 0 < (fs.inode ROOTINO).size / 16 + 1
    omega
  have hloop : Fs.dirLoop mkfsSb ROOTINO name ((fs.inode ROOTINO).size / DIRENT + 1) (DIRENT * 0) fs
      = .ok (some (direntInum (fs.slot ROOTINO k), DIRENT * k),
        Fs.iget fs (direntInum (fs.slot ROOTINO k))) := by
    refine dirLoop_first hvalid (by rw [htype]; decide) (le_trans hend hsize') hlt
      (fun o ho => hmap o (Nat.lt_of_lt_of_le ho hend)) (Nat.zero_le k) hfuel (fun l _ hl hc => ?_) ?_
    · rw [(hkey l (by omega)).1] at hc
      exact hbefore l hl hc
    · rw [(hkey k hk).1, hname]
  rw [Nat.mul_zero] at hloop
  rw [Fs.finds, Fs.dirlookup, if_neg (not_not_intro htype), hloop, (hkey k hk).2]
  rfl

/-! ### Agreement -/

theorem Built.agrees (hnames : (rootNames files).Nodup) : Agrees files img := by
  obtain ⟨fs, hlock, hfinds⟩ := hb.finds_first h hn
  refine ⟨fun k hk => ⟨fs, hlock, ?_⟩, fun k hk => hb.agrees_regular h hn hk, (h.owned hb.sound).inj,
    (h.owned hb.sound).data⟩
  have hname : (rootNames files)[k + 2]? = some (cutName files[k].fsName) := by
    simp [rootNames, hk]
  rw [hfinds _ (k + 2) hname fun l hl he => ?_, rootInum, if_neg (by omega)]
  obtain ⟨hlt, -⟩ := List.getElem?_eq_some_iff.mp hname
  exact List.nodup_iff_getElem?_ne_getElem?.mp hnames l (k + 2) hl hlt (he.trans hname.symm)

/-- With two entries of one name, the later file is not found. -/
theorem Built.names (ha : Agrees files img) : (rootNames files).Nodup := by
  obtain ⟨fs, hlock, hfinds⟩ := hb.finds_first h hn
  rw [List.nodup_iff_getElem?_ne_getElem?]
  intro j k hjk hk he
  rw [length_rootNames] at hk
  match k with
  | 0 => exact absurd hjk (Nat.not_lt_zero _)
  | 1 =>
    obtain rfl : j = 0 := by omega
    cases he
  | k + 2 =>
    have hk' : k < files.length := by omega
    have hname : (rootNames files)[k + 2]? = some (cutName files[k].fsName) := by
      simp [rootNames, hk']
    -- the first entry with the name comes before it
    have hex : ∃ l, (rootNames files)[l]? = some (cutName files[k].fsName) := ⟨j, he.trans hname⟩
    have hfirst := hfinds _ (Nat.find hex) (Nat.find_spec hex) fun l hl => Nat.find_min hex hl
    have hle : Nat.find hex ≤ j := Nat.find_min' hex (he.trans hname)
    obtain ⟨fs', hlock', hfound⟩ := ha.found k hk'
    rw [hlock] at hlock'
    cases hlock'
    rw [hfirst, rootInum] at hfound
    simp only [Option.some.injEq] at hfound
    split at hfound
    · change 1 = k + 2 at hfound
      omega
    · omega

end

/-- The first inode beyond the inode blocks lies in the bitmap, whose first bit is set when its
second is. -/
theorem type_in_bitmap {n : Nat} (hn : n ≤ BPB) : (getDinode (markLoop n) 0).type ≠ T_FILE := by
  intro h
  change getWord (markLoop n) 0 % 2 ^ 16 = 2 at h
  have hbyte : (markLoop n 0).toNat = 2 := by
    have h₀ := (markLoop n 0).toNat_lt
    have h₁ := (markLoop n 1).toNat_lt
    rw [getWord] at h
    simp only [Nat.mul_zero, Nat.zero_add] at h
    omega
  have heq : markLoop n 0 = 2 := UInt8.toNat_inj.mp hbyte
  have hbit (b : Nat) (hb : b < BPB) : getBit (markLoop n) b = decide (b < n) := by
    rw [markLoop_eq hn, ← getBit_bitBlock, Nat.div_eq_of_lt hb, Nat.mod_eq_of_lt hb]
  have h₀ : getBit (markLoop n) 0 = false := by
    rw [getBit, heq]
    decide
  have h₁ : getBit (markLoop n) 1 = true := by
    rw [getBit, heq]
    decide
  rw [hbit _ (by decide)] at h₀ h₁
  have := of_decide_eq_false h₀
  have := of_decide_eq_true h₁
  omega

/-- More inodes than the inode blocks hold. -/
theorem inodes_of_agrees (h : mkfs files = .ok img) (ha : Agrees files img) :
    files.length + 2 ≤ INODES := by
  by_contra hn
  have hk : INODES - 2 < files.length := by
    change ¬ files.length + 2 ≤ 208 at hn
    change 206 < files.length
    omega
  obtain ⟨htype, -, -⟩ := ha.regular (INODES - 2) hk
  obtain ⟨img₀, -, h⟩ := bind_ok.mp h
  obtain ⟨img₁, -, h⟩ := bind_ok.mp h
  obtain ⟨img₂, -, h⟩ := bind_ok.mp h
  obtain ⟨hlt, rfl⟩ := balloc_ok h
  have hsect : (img₂.wsect mkfsSb.bmapstart (markLoop img₂.freeblock)).dinode (INODES - 2 + 2) =
      getDinode (markLoop img₂.freeblock) 0 := by
    rw [Image.dinode]
    exact congrArg (getDinode · 0) (sect_wsect_self ..)
  rw [hsect] at htype
  exact type_in_bitmap hlt.le htype

/-- **The image agrees with the kernel** on a command line at which no assertion fails, exactly when
the files fit. -/
theorem image_agrees (files : List HostFile) (hassert : ∀ e, mkfs files = .error e → e = .fault) :
    (∃ img, mkfs files = .ok img ∧ Agrees files img) ↔ Fits files := by
  constructor
  · rintro ⟨img, h, ha⟩
    have hn := inodes_of_agrees h ha
    obtain ⟨img₁, hb, hf⟩ := mkfs_ok hn h
    exact ⟨hb.reach, hn, hb.names hf hn ha⟩
  · intro hfits
    cases h : mkfs files with
    | error e =>
      rw [hassert e h] at h
      obtain ⟨f, hf, hbig⟩ := mkfs_fault hfits.inodes h
      exact absurd (hfits.reach f hf) (Nat.not_le.mpr hbig)
    | ok img =>
      obtain ⟨img₁, hb, hf⟩ := mkfs_ok hfits.inodes h
      exact ⟨img, rfl, hb.agrees hf hfits.inodes hfits.names⟩

/-- Two files, `_a` and `b`. -/
def twoFiles : List HostFile := [⟨[95, 97], [1, 2, 3]⟩, ⟨[98], []⟩]

theorem image_agrees_two : ∃ img, mkfs twoFiles = .ok img ∧ Agrees twoFiles img := by
  have hreach : ∀ f ∈ twoFiles, f.data.length ≤ REACH * BSIZE := by decide
  obtain ⟨img, h⟩ : ∃ img, mkfs twoFiles = .ok img :=
    mkfs_returns (by decide) (by decide) hreach (by decide)
  exact (image_agrees twoFiles fun e he => by rw [h] at he; cases he).mpr
    ⟨hreach, by decide, by decide⟩

/-- **`iappend` overruns its array** on a file of one byte more than it can reach.  And of the files
`_a` and `a`, which the image holds under one name, the kernel finds only the first. -/
theorem image_overrun :
    mkfs [⟨[97], List.replicate ((NDIRECT + NINDIRECT) * BSIZE + 1) 0⟩] = .error .fault ∧
    ∃ img, mkfs [⟨[95, 97], [1]⟩, ⟨[97], [2]⟩] = .ok img ∧
      ¬ Agrees [⟨[95, 97], [1]⟩, ⟨[97], [2]⟩] img := by
  constructor
  · obtain ⟨img₀, h₀, hfree₀⟩ := makeRoot_returns
    have hbig : REACH * BSIZE <
        (List.replicate ((NDIRECT + NINDIRECT) * BSIZE + 1) (0 : UInt8)).length := by
      rw [List.length_replicate]
      exact Nat.lt_succ_self _
    have hroom : img₀.freeblock + 2 + 2 * REACH < FSSIZE := by
      change img₀.freeblock ≤ 72 at hfree₀
      change img₀.freeblock + 2 + 2 * 138 < 40000
      omega
    have hfault : addFile img₀ ⟨[97], List.replicate ((NDIRECT + NINDIRECT) * BSIZE + 1) 0⟩ =
        .error .fault := addFile_faults (makeRoot_ok h₀) (by decide) (by decide) hbig hroom
    rw [mkfs, h₀]
    dsimp only [bind, Except.bind]
    rw [List.foldlM_cons, hfault]
    rfl
  · obtain ⟨img, h⟩ : ∃ img, mkfs [⟨[95, 97], [1]⟩, ⟨[97], [2]⟩] = .ok img :=
      mkfs_returns (by decide) (by decide) (by decide) (by decide)
    refine ⟨img, h, fun ha => ?_⟩
    have hn := inodes_of_agrees h ha
    obtain ⟨img₁, hb, hf⟩ := mkfs_ok hn h
    exact absurd (hb.names hf hn ha) (by decide)

end

end Xv6.Mkfs
