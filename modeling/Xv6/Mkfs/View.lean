import Xv6.Fs.Chunks
import Xv6.Mkfs.Image

/-!
# Mkfs — the unfinished image as a volume

`mkfs` allocates as the kernel does: the next block it takes is the first that the kernel's
`balloc` would find free, if the bitmap were kept up to date.  So an image that is being written is
read as a volume with such a bitmap (`Image.view`), in which every inode is cached, and the loop of
`iappend` on the image is the loop of `writei` on this volume (`iappendLoop_sim`).  What is known of
`writei` then holds of `iappend`.

The sectors of the inodes are no part of the view's disk: a volume keeps its inodes decoded.
-/

namespace Xv6.Mkfs

open Function (update_self update_of_ne)
open Support (Bytes getWord setWord putBytes getBit setBit ofWords bind_ok)
open Support.Forest (Valid)
open Fs (mkfsSb Volume Owned MetaUsed)

/-! ### Inodes in a block -/

/-- The numbers fit their fields. -/
structure Dinode.InRange (d : Dinode) : Prop where
  type : d.type < 2 ^ 16
  major : d.major < 2 ^ 16
  minor : d.minor < 2 ^ 16
  nlink : d.nlink < 2 ^ 16
  size : d.size < 2 ^ 32
  addrs : ∀ r, d.addrs r < 2 ^ 32

theorem inRange_getDinode (buf : Bytes) (k : Nat) : (getDinode buf k).InRange := by
  have h (w : Nat) : getWord buf w / 2 ^ 16 < 2 ^ 16 := by
    have := Support.getWord_lt buf w
    omega
  exact ⟨Nat.mod_lt _ (by decide), h _, Nat.mod_lt _ (by decide), h _, Support.getWord_lt _ _,
    fun r => Support.getWord_lt _ _⟩

theorem Dinode.InRange.word {d : Dinode} (h : d.InRange) (w : Nat) : d.word w < 2 ^ 32 := by
  match w with
  | 0 =>
    have := h.type
    have := h.major
    rw [Dinode.word]
    omega
  | 1 =>
    have := h.minor
    have := h.nlink
    rw [Dinode.word]
    omega
  | 2 => exact h.size
  | w + 3 =>
    rw [Dinode.word]
    split
    · exact h.addrs _
    · decide

/-- The bytes of a word lie in the `struct dinode` the word lies in. -/
theorem getWord_putDinode_self (buf : Bytes) (k : Nat) {d : Dinode} (hd : d.InRange) {w : Nat}
    (hw : w < 16) : getWord (putDinode buf k d) (16 * k + w) = d.word w := by
  have hbyte (c : Nat) (hc : c < 4) :
      putDinode buf k d (4 * (16 * k + w) + c) = ofWords d.word (4 * w + c) := by
    have h₁ : (4 * (16 * k + w) + c) / 64 = k := by omega
    have h₂ : (4 * (16 * k + w) + c) % 64 = 4 * w + c := by omega
    rw [putDinode, if_pos h₁, h₂]
  have h₀ := hbyte 0 (by decide)
  simp only [Nat.add_zero] at h₀
  rw [← Support.getWord_ofWords d.word (hd.word w), getWord, getWord, h₀, hbyte 1 (by decide),
    hbyte 2 (by decide), hbyte 3 (by decide)]

theorem getWord_putDinode_of_ne (buf : Bytes) {k l : Nat} (d : Dinode) (h : l ≠ k) {w : Nat}
    (hw : w < 16) : getWord (putDinode buf k d) (16 * l + w) = getWord buf (16 * l + w) := by
  have hbyte (c : Nat) (hc : c < 4) :
      putDinode buf k d (4 * (16 * l + w) + c) = buf (4 * (16 * l + w) + c) := by
    have h₁ : (4 * (16 * l + w) + c) / 64 ≠ k := by omega
    rw [putDinode, if_neg h₁]
  have h₀ := hbyte 0 (by decide)
  simp only [Nat.add_zero] at h₀
  rw [getWord, getWord, h₀, hbyte 1 (by decide), hbyte 2 (by decide), hbyte 3 (by decide)]

/-- **An inode is read back as it was written.** -/
theorem getDinode_putDinode_self (buf : Bytes) (k : Nat) {d : Dinode} (hd : d.InRange) :
    getDinode (putDinode buf k d) k = d := by
  have hw (w : Nat) (h : w < 16) := getWord_putDinode_self buf k hd h
  have h₀ := hw 0 (by decide)
  have := hd.type
  have := hd.minor
  rw [Nat.add_zero] at h₀
  rw [getDinode, h₀, hw 1 (by decide), hw 2 (by decide)]
  simp only [Dinode.word]
  have haddrs : (fun r : Fin (NDIRECT + 3) =>
      getWord (putDinode buf k d) (16 * k + (r.val + 3))) = d.addrs := by
    funext r
    have hr : r.val < 13 := r.isLt
    rw [hw (r.val + 3) (by omega), Dinode.word, dif_pos r.isLt]
  rw [haddrs, show (d.type + 2 ^ 16 * d.major) % 2 ^ 16 = d.type by omega,
    show (d.type + 2 ^ 16 * d.major) / 2 ^ 16 = d.major by omega,
    show (d.minor + 2 ^ 16 * d.nlink) % 2 ^ 16 = d.minor by omega,
    show (d.minor + 2 ^ 16 * d.nlink) / 2 ^ 16 = d.nlink by omega]

/-- The other inodes of the block are as they were. -/
theorem getDinode_putDinode_of_ne (buf : Bytes) {k l : Nat} (d : Dinode) (h : l ≠ k) :
    getDinode (putDinode buf k d) l = getDinode buf l := by
  have hw (w : Nat) (hlt : w < 16) := getWord_putDinode_of_ne buf d h hlt
  have h₀ := hw 0 (by decide)
  rw [Nat.add_zero] at h₀
  have haddrs : (fun r : Fin (NDIRECT + 3) =>
      getWord (putDinode buf k d) (16 * l + (r.val + 3))) =
      fun r => getWord buf (16 * l + (r.val + 3)) := by
    funext r
    have hr : r.val < 13 := r.isLt
    exact hw _ (by omega)
  rw [getDinode, h₀, hw 1 (by decide), hw 2 (by decide), haddrs, getDinode]

/-! ### The bitmap that `mkfs` does not keep -/

/-- Block `c` of a bitmap in which the first `n` blocks are used. -/
def bitBlock : Nat → Nat → Bytes
  | 0, _ => fun _ => 0
  | n + 1, c => if n / BPB = c then setBit (bitBlock n c) (n % BPB) else bitBlock n c

theorem getBit_bitBlock (n b : Nat) : getBit (bitBlock n (b / BPB)) (b % BPB) = decide (b < n) := by
  induction n with
  | zero =>
    rw [bitBlock, getBit]
    simp
  | succ n ih =>
    rw [bitBlock]
    split
    · rename_i h
      have hiff : b % BPB = n % BPB ↔ b = n := by
        refine ⟨fun hm => ?_, fun e => e ▸ rfl⟩
        rw [← Nat.div_add_mod b BPB, ← Nat.div_add_mod n BPB, h, hm]
      rw [Support.getBit_setBit, ih]
      simp only [hiff, ← Bool.decide_or]
      exact decide_eq_decide.mpr (by omega)
    · rename_i h
      rw [ih]
      exact decide_eq_decide.mpr ⟨by omega, fun hlt => by
        rcases Nat.lt_succ_iff_lt_or_eq.mp hlt with h' | h'
        · exact h'
        · exact absurd (h' ▸ rfl) h⟩

/-- What `balloc` writes in the end is this bitmap. -/
theorem markLoop_eq {n : Nat} (h : n ≤ BPB) : markLoop n = bitBlock n 0 := by
  induction n with
  | zero => rfl
  | succ n ih =>
    rw [markLoop, bitBlock, if_pos (Nat.div_eq_of_lt h), Nat.mod_eq_of_lt h,
      ih (Nat.le_of_succ_le h)]

/-! ### The view -/

/-- The disk with the bitmap kept up to date; nothing is shown below it. -/
def Image.shown (img : Image) : Nat → Bytes := fun b =>
  if b < mkfsSb.bmapstart then fun _ => 0
  else if b < mkfsSb.nmeta then bitBlock img.freeblock (b - mkfsSb.bmapstart)
  else img.sect b

/-- An image that is being written, as a volume in which every inode is cached. -/
def Image.view (img : Image) : Volume where
  disk := img.shown
  dinode := img.volume.dinode
  inode := fun i => ⟨img.volume.dinode i, 1, true⟩
  logged := []

section

variable {img img' : Image} {b : Nat}

theorem sect_wsect_self (img : Image) (b : Nat) (v : Bytes) : (img.wsect b v).sect b = v :=
  update_self ..

theorem sect_wsect_of_ne {c : Nat} (v : Bytes) (h : c ≠ b) :
    (img.wsect b v).sect c = img.sect c := update_of_ne h ..

theorem shown_of_le (h : mkfsSb.nmeta ≤ b) : img.shown b = img.sect b := by
  have h₁ : ¬ b < mkfsSb.bmapstart := Nat.not_lt.mpr (le_trans (by decide) h)
  rw [Image.shown, if_neg h₁, if_neg (Nat.not_lt.mpr h)]

theorem shown_bblock (h : b < FSSIZE) :
    img.shown (mkfsSb.bblock b) = bitBlock img.freeblock (b / BPB) := by
  have h₁ : ¬ mkfsSb.bblock b < mkfsSb.bmapstart := Nat.not_lt.mpr (Fs.bmapstart_le_bblock _ _)
  have h₂ : mkfsSb.bblock b < mkfsSb.nmeta := Fs.bblock_lt_nmeta h
  rw [Image.shown, if_neg h₁, if_pos h₂]
  simp only [Fs.Superblock.bblock, Nat.add_sub_cancel]

/-- A volume that shows the image has the blocks taken marked used. -/
theorem used_of_shown {fs : Volume} (h : fs.disk = img.shown) (hb : b < FSSIZE) :
    fs.used mkfsSb b = decide (b < img.freeblock) := by
  rw [Volume.used, h, shown_bblock hb, getBit_bitBlock]

/-- Setting the bit of the next block makes the bitmap that of the next image. -/
theorem shown_succ (img : Image) (hn : img.freeblock < FSSIZE) :
    ({ img with freeblock := img.freeblock + 1 } : Image).shown =
      Function.update img.shown (mkfsSb.bblock img.freeblock)
        (setBit (img.shown (mkfsSb.bblock img.freeblock)) (img.freeblock % BPB)) := by
  funext b
  by_cases hb : b = mkfsSb.bblock img.freeblock
  · subst hb
    rw [update_self, shown_bblock hn, shown_bblock hn, bitBlock, if_pos rfl]
  rw [update_of_ne hb]
  simp only [Image.shown]
  split
  · rfl
  split
  · rename_i h₁ h₂
    have hne : img.freeblock / BPB ≠ b - mkfsSb.bmapstart := by
      intro he
      apply hb
      rw [Fs.Superblock.bblock, he]
      omega
    rw [bitBlock, if_neg hne]
  · rfl

theorem shown_wsect {v : Bytes} (h : mkfsSb.nmeta ≤ b) :
    (img.wsect b v).shown = Function.update img.shown b v := by
  funext c
  by_cases hc : c = b
  · subst hc
    rw [shown_of_le h, update_self, sect_wsect_self]
  · rw [update_of_ne hc]
    simp only [Image.shown, sect_wsect_of_ne v hc]
    rfl

/-- A sector below the bitmap is not shown. -/
theorem shown_wsect_of_lt {v : Bytes} (h : b < mkfsSb.bmapstart) :
    (img.wsect b v).shown = img.shown := by
  funext c
  by_cases hc : c = b
  · subst hc
    simp only [Image.shown, if_pos h]
  · simp only [Image.shown, sect_wsect_of_ne v hc]
    rfl

/-! ### One step of the loop -/

/-- The blocks from `freeblock` on are free, and still zero. -/
structure Fresh (img : Image) : Prop where
  le : mkfsSb.nmeta ≤ img.freeblock
  le_size : img.freeblock ≤ FSSIZE
  zero : ∀ b, img.freeblock ≤ b → img.sect b = fun _ => 0

/-- The volume shows the image, and its inode `i` has the addresses of `din`. -/
structure Shows (i : Nat) (img : Image) (din : Dinode) (fs : Volume) : Prop where
  disk : fs.disk = img.shown
  addrs : (fs.inode i).addrs = din.addrs
  valid : (fs.inode i).valid = true
  fresh : Fresh img

/-- What a step on inode `i` leaves as it was, on both sides. -/
structure Frame (i : Nat) (img : Image) (din : Dinode) (fs : Volume) (img' : Image) (din' : Dinode)
    (fs' : Volume) : Prop where
  din : din' = { din with addrs := din'.addrs }
  dinode : fs'.dinode = fs.dinode
  inode : ∀ j, j ≠ i → fs'.inode j = fs.inode j
  freeinode : img'.freeinode = img.freeinode
  low : ∀ b < mkfsSb.nmeta, img'.sect b = img.sect b

variable {i : Nat} {din din' : Dinode} {fs fs' : Volume}

theorem Frame.refl (i : Nat) (img : Image) (din : Dinode) (fs : Volume) :
    Frame i img din fs img din fs :=
  ⟨rfl, rfl, fun _ _ => rfl, rfl, fun _ _ => rfl⟩

theorem Frame.trans {img₂ : Image} {din₂ : Dinode} {fs₂ : Volume}
    (h : Frame i img din fs img' din' fs') (h' : Frame i img' din' fs' img₂ din₂ fs₂) :
    Frame i img din fs img₂ din₂ fs₂ := by
  refine ⟨?_, h'.dinode.trans h.dinode, fun j hj => (h'.inode j hj).trans (h.inode j hj),
    h'.freeinode.trans h.freeinode, fun b hb => (h'.low b hb).trans (h.low b hb)⟩
  rw [h'.din, h.din]

/-- `freeblock++` is what `balloc` does on the volume. -/
theorem balloc_sim (hd : fs.disk = img.shown) (hf : Fresh img) (hn : img.freeblock < FSSIZE) :
    ∃ fs', Fs.balloc mkfsSb fs = .ok (img.freeblock, fs') ∧
      fs'.disk = ({ img with freeblock := img.freeblock + 1 } : Image).shown ∧
      fs'.inode = fs.inode ∧ fs'.dinode = fs.dinode := by
  have hclear : fs.used mkfsSb img.freeblock = false := by
    rw [used_of_shown hd hn]
    exact decide_eq_false (Nat.lt_irrefl _)
  have hfind : Fs.findFree mkfsSb fs mkfsSb.size 0 = some img.freeblock := by
    cases h : Fs.findFree mkfsSb fs mkfsSb.size 0 with
    | none =>
      have hu := Fs.findFree_none h (Nat.zero_le img.freeblock) (by rw [Nat.zero_add]; exact hn)
      rw [hclear] at hu
      cases hu
    | some c =>
      obtain ⟨hc, hfree, hbefore⟩ := Fs.findFree_some h
      rw [Nat.zero_add] at hc
      rw [used_of_shown hd hc, decide_eq_false_iff_not, Nat.not_lt] at hfree
      rcases Nat.eq_or_lt_of_le hfree with h | h
      · rw [h]
      · rw [hbefore _ (Nat.zero_le _) h] at hclear
        cases hclear
  have hb : Fs.balloc mkfsSb fs = .ok (img.freeblock, Fs.bzero
      (fs.write (mkfsSb.bblock img.freeblock)
        (setBit (fs.disk (mkfsSb.bblock img.freeblock)) (img.freeblock % BPB))) img.freeblock) := by
    rw [Fs.balloc, hfind]
  refine ⟨_, hb, ?_, rfl, rfl⟩
  -- the new block was zero before
  have hzero : ({ img with freeblock := img.freeblock + 1 } : Image).shown img.freeblock =
      fun _ => 0 := by
    rw [shown_of_le hf.le]
    exact hf.zero _ le_rfl
  change Function.update (Function.update fs.disk _ _) img.freeblock (fun _ => 0) = _
  rw [hd, ← shown_succ img hn, ← hzero, Function.update_eq_self]

theorem Fresh.succ (h : Fresh img) (hn : img.freeblock < FSSIZE) :
    Fresh { img with freeblock := img.freeblock + 1 } :=
  ⟨Nat.le_succ_of_le h.le, hn, fun b hb => h.zero b (Nat.le_of_succ_le hb)⟩

theorem Fresh.wsect (h : Fresh img) (hb : b < img.freeblock) (v : Bytes) :
    Fresh (img.wsect b v) := by
  refine ⟨h.le, h.le_size, fun c hc => ?_⟩
  have hne : c ≠ b := (Nat.lt_of_lt_of_le hb hc).ne'
  exact (sect_wsect_of_ne v hne).trans (h.zero c hc)

section

variable (hs : Shows i img din fs)
include hs

/-- An entry of `addrs` is taken as `bmap` takes it. -/
theorem takeAddr_sim (r : Fin (NDIRECT + 3)) (hlt : (takeAddr img din r).1.addrs r < FSSIZE) :
    ∃ fs', Fs.rootEntry mkfsSb fs i r = .ok ((takeAddr img din r).1.addrs r, fs') ∧
      Shows i (takeAddr img din r).2 (takeAddr img din r).1 fs' ∧
      Frame i img din fs (takeAddr img din r).2 (takeAddr img din r).1 fs' := by
  by_cases h0 : din.addrs r = 0
  · have ht : takeAddr img din r = ({ din with addrs := Function.update din.addrs r img.freeblock },
        { img with freeblock := img.freeblock + 1 }) := if_pos h0
    rw [ht] at hlt ⊢
    simp only [update_self] at hlt ⊢
    obtain ⟨fs₁, hb, hdisk, hinode, hdinode⟩ := balloc_sim hs.disk hs.fresh hlt
    have hroot : Fs.rootEntry mkfsSb fs i r =
        .ok (img.freeblock, fs₁.setAddr i r img.freeblock) := by
      rw [Fs.rootEntry, if_pos (by rw [hs.addrs]; exact h0), hb]
      rfl
    refine ⟨_, hroot, ⟨hdisk, ?_, ?_, hs.fresh.succ hlt⟩, ⟨rfl, hdinode, fun j hj => ?_, rfl,
      fun _ _ => rfl⟩⟩
    · simp only [Volume.setAddr, Volume.setInode, update_self, hinode, hs.addrs]
    · simp only [Volume.setAddr, Volume.setInode, update_self, hinode, hs.valid]
    · simp only [Volume.setAddr, Volume.setInode, update_of_ne hj, hinode]
  · have ht : takeAddr img din r = (din, img) := if_neg h0
    rw [ht]
    refine ⟨fs, ?_, hs, .refl ..⟩
    rw [Fs.rootEntry, if_neg (by rw [hs.addrs]; exact h0), hs.addrs]

/-- A data block that is in use, as the image has it. -/
theorem Shows.lt_freeblock (ho : Owned mkfsSb fs) {q : Fs.Place}
    (hq : Valid Fs.shape q) (hne : fs.forest.get q ≠ 0) :
    mkfsSb.nmeta ≤ fs.forest.get q ∧ fs.forest.get q < img.freeblock := by
  obtain ⟨hle, hlt, hu⟩ := ho.data q hq hne
  rw [used_of_shown hs.disk hlt] at hu
  exact ⟨hle, of_decide_eq_true hu⟩

/-- Writing a data block in use. -/
theorem Shows.wsect (hb : mkfsSb.nmeta ≤ b) (hlt : b < img.freeblock)
    (v : Bytes) : Shows i (img.wsect b v) din (fs.write b v) ∧
      Frame i img din fs (img.wsect b v) din (fs.write b v) := by
  refine ⟨⟨?_, hs.addrs, hs.valid, hs.fresh.wsect hlt v⟩, ⟨rfl, rfl, fun _ _ => rfl, rfl,
    fun c hc => sect_wsect_of_ne v (Nat.lt_of_lt_of_le hc hb).ne⟩⟩
  rw [shown_wsect hb, ← hs.disk]
  rfl

/-- An entry of the indirect block is taken as `bmap` takes it. -/
theorem takeIndirect_sim {a x y : Nat} (ha : mkfsSb.nmeta ≤ a)
    (hlt : a < img.freeblock) (h : takeIndirect img a x = .ok (y, img')) (hy : y < FSSIZE) :
    x < NINDIRECT ∧ ∃ fs', Fs.indexEntry mkfsSb fs a x = .ok (y, fs') ∧ Shows i img' din fs' ∧
      Frame i img din fs img' din fs' := by
  rw [takeIndirect, bind_ok] at h
  obtain ⟨indirect, hr, h⟩ := h
  have hind : indirect = fs.disk a := by
    rw [Image.rsect] at hr
    split at hr
    · cases hr
      rw [hs.disk, shown_of_le ha]
    · cases hr
  subst hind
  split at h
  · cases h
  rename_i hx
  refine ⟨Nat.lt_of_not_le hx, ?_⟩
  rw [Fs.indexEntry, if_neg hx]
  split at h
  · rename_i h0
    cases h
    obtain ⟨fs₁, hb, hdisk, hinode, hdinode⟩ := balloc_sim hs.disk hs.fresh hy
    have hs₁ : Shows i { img with freeblock := img.freeblock + 1 } din fs₁ :=
      ⟨hdisk, by rw [hinode, hs.addrs], by rw [hinode, hs.valid], hs.fresh.succ hy⟩
    obtain ⟨hs₂, hf₂⟩ := hs₁.wsect ha (Nat.lt_succ_of_lt hlt) (setWord (fs.disk a) x img.freeblock)
    have hsame : fs₁.disk a = fs.disk a := by
      rw [hdisk, hs.disk, shown_of_le ha, shown_of_le ha]
    refine ⟨_, ?_, hs₂, ⟨rfl, hdinode, fun j hj => ?_, rfl, hf₂.low⟩⟩
    · rw [if_pos h0, hb]
      simp only [bind, Except.bind, hsame]
    · rw [hf₂.inode j hj, hinode]
  · rename_i h0
    cases h
    exact ⟨fs, by rw [if_neg h0], hs, .refl ..⟩

end

/-- The blocks `mkfs` can give to one file. -/
abbrev REACH : Nat := NDIRECT + NINDIRECT

theorem bmapPath_direct {fbn : Nat} (h : fbn < NDIRECT) :
    Fs.bmapPath fbn = some (⟨fbn, Nat.lt_add_right 3 h⟩, []) := dif_pos h

theorem bmapPath_indirect {fbn : Nat} (h : ¬ fbn < NDIRECT) (hlt : fbn - NDIRECT < NINDIRECT) :
    Fs.bmapPath fbn = some (⟨NDIRECT, by decide⟩, [fbn - NDIRECT]) := by
  rw [Fs.bmapPath, dif_neg h]
  exact if_pos hlt

section

variable (hs : Shows i img din fs) (ho : Owned mkfsSb fs) (hm : MetaUsed mkfsSb fs)
include hs ho hm

/-- The block of an entry of `addrs`, taken or found, is a data block in use. -/
theorem takeAddr_used (r : Fin (NDIRECT + 3)) (hlt : (takeAddr img din r).1.addrs r < FSSIZE) :
    ∃ fs', Fs.rootEntry mkfsSb fs i r = .ok ((takeAddr img din r).1.addrs r, fs') ∧
      Shows i (takeAddr img din r).2 (takeAddr img din r).1 fs' ∧
      Frame i img din fs (takeAddr img din r).2 (takeAddr img din r).1 fs' ∧ Owned mkfsSb fs' ∧
      fs'.forest.get ((i, r), []) = (takeAddr img din r).1.addrs r ∧
      (takeAddr img din r).1.addrs r ≠ 0 ∧ mkfsSb.nmeta ≤ (takeAddr img din r).1.addrs r ∧
      (takeAddr img din r).1.addrs r < (takeAddr img din r).2.freeblock := by
  obtain ⟨fs₁, hroot, hs₁, hf₁⟩ := takeAddr_sim hs r hlt
  obtain ⟨hget, hne, -, ho₁, -⟩ := Fs.rootEntry_spec ho hm hs.valid hroot
  have hused := hs₁.lt_freeblock ho₁ (Support.Forest.valid_nil _ _) (hget ▸ hne)
  rw [hget] at hused
  exact ⟨fs₁, hroot, hs₁, hf₁, ho₁, hget, hne, hused.1, hused.2⟩

/-- **The sector of a file block is the one `bmap` finds.** -/
theorem fileBlock_sim
    {fbn x : Nat} (h : fileBlock img din fbn = .ok (x, din', img')) (hx : x < FSSIZE) :
    fbn < REACH ∧ ∃ fs', Fs.bmap mkfsSb fs i fbn = .ok (x, fs') ∧ Shows i img' din' fs' ∧
      Frame i img din fs img' din' fs' := by
  rw [fileBlock] at h
  split at h
  · rename_i hfbn
    cases h
    obtain ⟨fs₁, hroot, hs₁, hf₁⟩ := takeAddr_sim hs ⟨fbn, Nat.lt_add_right 3 hfbn⟩ hx
    refine ⟨Nat.lt_add_right _ hfbn, fs₁, ?_, hs₁, hf₁⟩
    rw [Fs.bmap, bmapPath_direct hfbn]
    simp only [hroot, bind, Except.bind]
    rfl
  · rename_i hfbn
    obtain ⟨⟨y, img₂⟩, ht, h⟩ := bind_ok.mp h
    cases h
    have hlt : (takeAddr img din ⟨NDIRECT, by decide⟩).1.addrs ⟨NDIRECT, by decide⟩ < FSSIZE := by
      rw [takeIndirect, bind_ok] at ht
      obtain ⟨indirect, hr, -⟩ := ht
      rw [Image.rsect] at hr
      split at hr
      · assumption
      · cases hr
    obtain ⟨fs₁, hroot, hs₁, hf₁, -, -, -, hle, hlt₁⟩ := takeAddr_used hs ho hm _ hlt
    obtain ⟨hfbn', fs₂, hindex, hs₂, hf₂⟩ := takeIndirect_sim hs₁ hle hlt₁ ht hx
    have hreach : fbn < REACH := by
      change fbn - 10 < 128 at hfbn'
      change fbn < 138
      omega
    refine ⟨hreach, fs₂, ?_, hs₂, hf₁.trans hf₂⟩
    rw [Fs.bmap, bmapPath_indirect hfbn hfbn']
    simp only [hroot, bind, Except.bind, Fs.walk, hindex]

/-! ### The loop -/

/-- **The loop of `iappend` is the loop of `writei`.** -/
theorem iappendLoop_sim {fuel off off' : Nat} {p : List UInt8} (hfuel : p.length ≤ fuel)
    (h : iappendLoop fuel off p din img = .ok (off', din', img')) :
    off' = off + p.length ∧ (p ≠ [] → off' ≤ REACH * BSIZE) ∧
      ∃ fs', Fs.writeLoop mkfsSb i fuel off p fs = .ok fs' ∧ Shows i img' din' fs' ∧
        Frame i img din fs img' din' fs' := by
  induction fuel generalizing off p din img fs with
  | zero =>
    obtain rfl := List.eq_nil_of_length_eq_zero (Nat.le_zero.mp hfuel)
    cases h
    exact ⟨rfl, fun hp => absurd rfl hp, fs, rfl, hs, .refl ..⟩
  | succ fuel ih =>
    rw [iappendLoop] at h
    split at h
    · rename_i hp
      obtain rfl := List.eq_nil_of_length_eq_zero hp
      cases h
      exact ⟨rfl, fun hp => absurd rfl hp, fs, rfl, hs, .refl ..⟩
    · rename_i hp
      split at h
      · cases h
      obtain ⟨⟨x, din₁, img₁⟩, hblock, h⟩ := bind_ok.mp h
      obtain ⟨buf, hr, h⟩ := bind_ok.mp h
      rw [Image.rsect] at hr
      split at hr
      · rename_i hx
        cases hr
        obtain ⟨hreach, fs₁, hbmap, hs₁, hf₁⟩ := fileBlock_sim hs ho hm hblock hx
        obtain ⟨q, hq, hv, hleaf, hget, hne, -, N, he, -⟩ := Fs.bmap_spec ho hm hs.valid hbmap
        obtain ⟨ho₁, -⟩ := he.owned ho hm
        subst hget
        obtain ⟨hle, hlt⟩ := hs₁.lt_freeblock ho₁ hv hne
        have hmod : off - off / BSIZE * BSIZE = off % BSIZE := by
          change off - off / 512 * 512 = off % 512
          omega
        have hn1 : (off / BSIZE + 1) * BSIZE - off = BSIZE - off % BSIZE := by
          change (off / 512 + 1) * 512 - off = 512 - off % 512
          omega
        have hpos : 0 < BSIZE - off % BSIZE := Nat.sub_pos_of_lt (Nat.mod_lt _ (by decide))
        have hbuf : img₁.sect (fs₁.forest.get q) = fs₁.disk (fs₁.forest.get q) := by
          rw [hs₁.disk, shown_of_le hle]
        simp only [hmod, hn1, hbuf] at h
        obtain ⟨hs₂, hf₂⟩ := hs₁.wsect hle hlt (putBytes (fs₁.disk (fs₁.forest.get q))
          (off % BSIZE) (p.take (min p.length (BSIZE - off % BSIZE))))
        obtain ⟨ho₂, hm₂⟩ := (he.data hv hleaf hne _).owned ho hm
        have hlen : (p.drop (min p.length (BSIZE - off % BSIZE))).length ≤ fuel := by
          rw [List.length_drop]
          omega
        obtain ⟨hoff, hend, fs', hw, hs', hf'⟩ := ih hs₂ ho₂ hm₂ hlen h
        rw [List.length_drop] at hoff
        refine ⟨by omega, fun _ => ?_, fs', ?_, hs', (hf₁.trans hf₂).trans hf'⟩
        · by_cases hrest : p.drop (min p.length (BSIZE - off % BSIZE)) = []
          · have : (p.drop (min p.length (BSIZE - off % BSIZE))).length = 0 := by rw [hrest]; rfl
            rw [List.length_drop] at this
            have : off / BSIZE + 1 ≤ REACH := hreach
            simp only [REACH, NDIRECT, NINDIRECT, BSIZE] at *
            omega
          · exact hend hrest
        · rw [Fs.writeLoop, if_neg hp, hbmap]
          exact hw
      · cases hr

end

end

end Xv6.Mkfs
