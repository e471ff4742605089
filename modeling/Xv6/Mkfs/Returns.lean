import Xv6.Mkfs.Built

/-!
# Mkfs — when an image is finished

Every `iappend` that `mkfs` makes stays inside one block of the file: the entries of a directory
are aligned, and a file is read block by block.  It takes at most two blocks and returns, as long as
the block lies within reach and the disk has two blocks left (`iappend_returns`); beyond reach it
indexes outside the array (`iappend_faults`).

* `mkfs_returns`: with files within reach, few enough of them and of their blocks, `mkfs` finishes.
* `copyLoop_faults`: a file beyond reach is never copied to its end.
-/

namespace Xv6.Mkfs

open Support (getWord)
open Fs (mkfsSb Volume Owned MetaUsed ROOTINO SLASH direntOf DIRENT)

section

variable {img img' : Image} {i : Nat} {din : Dinode} {fs : Volume}

theorem rsect_ok {b : Nat} (h : b < FSSIZE) : img.rsect b = .ok (img.sect b) := if_pos h

theorem winode_returns (img : Image) (hi : i < INODES) (d : Dinode) :
    ∃ img', winode img i d = .ok img' ∧ img'.freeblock = img.freeblock := by
  have h : mkfsSb.iblock i < FSSIZE := Nat.lt_trans (iblock_lt hi) (by decide)
  refine ⟨img.wsect (mkfsSb.iblock i) (putDinode (img.sect (mkfsSb.iblock i)) (i % IPB) d), ?_, rfl⟩
  rw [winode, rsect_ok h]
  rfl

theorem rinode_returns (hi : i < INODES) : rinode img i = .ok (img.dinode i) := by
  have h : mkfsSb.iblock i < FSSIZE := Nat.lt_trans (iblock_lt hi) (by decide)
  rw [rinode, rsect_ok h]
  rfl

/-! ### One block -/

theorem takeAddr_lt (hs : Shows i img din fs) (ho : Owned mkfsSb fs) (r : Fin (NDIRECT + 3))
    (hroom : img.freeblock < FSSIZE) : (takeAddr img din r).1.addrs r < FSSIZE ∧
      (takeAddr img din r).2.freeblock ≤ img.freeblock + 1 := by
  rw [takeAddr]
  split
  · refine ⟨?_, le_rfl⟩
    change Function.update din.addrs r img.freeblock r < FSSIZE
    rwa [Function.update_self]
  rename_i hne
  have hget : fs.forest.get ((i, r), []) = din.addrs r := by
    rw [Support.Forest.get_nil, ← hs.addrs]
    exact congrArg (fun d => Fs.Dinode.addrs d r) (Fs.current_of_valid hs.valid)
  have := (ho.data _ (Support.Forest.valid_nil _ _) (hget ▸ hne)).2.1
  rw [hget] at this
  exact ⟨this, Nat.le_succ _⟩

theorem takeIndirect_returns (img : Image) {a x : Nat} (ha : a < FSSIZE) (hx : x < NINDIRECT) :
    ∃ y img', takeIndirect img a x = .ok (y, img') ∧ img'.freeblock ≤ img.freeblock + 1 ∧
      (y = img.freeblock ∨ y = getWord (img.sect a) x ∧ y ≠ 0) := by
  rw [takeIndirect, rsect_ok ha]
  dsimp only [bind, Except.bind]
  rw [if_neg (Nat.not_le.mpr hx)]
  by_cases h0 : getWord (img.sect a) x = 0
  · rw [if_pos h0]
    exact ⟨_, _, rfl, le_rfl, .inl rfl⟩
  · rw [if_neg h0]
    exact ⟨_, _, rfl, Nat.le_succ _, .inr ⟨rfl, h0⟩⟩

theorem fileBlock_returns (hs : Shows i img din fs) (ho : Owned mkfsSb fs)
    (hm : MetaUsed mkfsSb fs) {fbn : Nat} (hreach : fbn < REACH)
    (hroom : img.freeblock + 2 ≤ FSSIZE) :
    ∃ x din' img', fileBlock img din fbn = .ok (x, din', img') ∧ x < FSSIZE ∧
      img'.freeblock ≤ img.freeblock + 2 := by
  rw [fileBlock]
  split
  · rename_i hfbn
    obtain ⟨hlt, hfree⟩ := takeAddr_lt hs ho ⟨fbn, Nat.lt_add_right 3 hfbn⟩
      (Nat.lt_of_succ_lt hroom)
    exact ⟨_, _, _, rfl, hlt, Nat.le_succ_of_le hfree⟩
  · rename_i hfbn
    obtain ⟨hlt, hfree⟩ := takeAddr_lt hs ho ⟨NDIRECT, by decide⟩ (Nat.lt_of_succ_lt hroom)
    obtain ⟨fs₁, -, hs₁, -, ho₁, hget, hne, hle, -⟩ := takeAddr_used hs ho hm _ hlt
    have hx : fbn - NDIRECT < NINDIRECT := by
      change fbn < 138 at hreach
      change fbn - 10 < 128
      omega
    obtain ⟨y, img₂, hy, hfree₂, hcase⟩ := takeIndirect_returns
      (takeAddr img din ⟨NDIRECT, by decide⟩).2 hlt hx
    refine ⟨y, (takeAddr img din ⟨NDIRECT, by decide⟩).1, img₂, ?_, ?_, by omega⟩
    · dsimp only
      rw [hy]
      rfl
    rcases hcase with rfl | ⟨hword, h0⟩
    · exact Nat.lt_of_le_of_lt hfree hroom
    -- the entry is a place of the tree
    have hplace : fs₁.forest.get ((i, ⟨NDIRECT, by decide⟩), [fbn - NDIRECT]) = y := by
      rw [Support.Forest.get_cons, hget, if_neg hne, hword]
      change getWord (fs₁.disk _) _ = _
      rw [hs₁.disk, shown_of_le hle]
    have hv : Support.Forest.Valid Fs.shape
        ((i, ⟨NDIRECT, by decide⟩), [fbn - NDIRECT]) :=
      ⟨le_rfl, fun x hx' => by rw [List.mem_singleton.mp hx']; exact hx⟩
    have := (ho₁.data _ hv (hplace ▸ h0)).2.1
    rwa [hplace] at this

/-- **An `iappend` inside one block returns**, and takes at most two blocks. -/
theorem iappend_returns {p : List UInt8} (hs : Sound img) (hi : i < INODES) (hp : p ≠ [])
    (hblock : p.length ≤ BSIZE - (img.dinode i).size % BSIZE)
    (hreach : (img.dinode i).size / BSIZE < REACH) (hroom : img.freeblock + 2 ≤ FSSIZE) :
    ∃ img', iappend img i p = .ok img' ∧ img'.freeblock ≤ img.freeblock + 2 := by
  obtain ⟨x, din', img₁, hb, hx, hfree⟩ :=
    fileBlock_returns (hs.shows hi) hs.wf.owned hs.wf.metaUsed hreach hroom
  have hmax : ¬ MAXFILE ≤ (img.dinode i).size / BSIZE :=
    Nat.not_le.mpr (Nat.lt_trans hreach (by decide))
  obtain ⟨c, p, rfl⟩ := List.exists_cons_of_ne_nil hp
  have hn1 : min (c :: p).length (((img.dinode i).size / BSIZE + 1) * BSIZE - (img.dinode i).size) =
      (c :: p).length := by
    change (c :: p).length ≤ 512 - (img.dinode i).size % 512 at hblock
    change min (c :: p).length (((img.dinode i).size / 512 + 1) * 512 - (img.dinode i).size) = _
    omega
  -- the second round finds nothing left
  have hdone (fuel off : Nat) (d : Dinode) (m : Image) :
      iappendLoop fuel off [] d m = .ok (off, d, m) := by
    cases fuel <;> rfl
  obtain ⟨img₂, hw, hfree₂⟩ := winode_returns
    (img₁.wsect x (Support.putBytes (img₁.sect x)
      ((img.dinode i).size - (img.dinode i).size / BSIZE * BSIZE) (c :: p))) hi
    { din' with size := (img.dinode i).size + (c :: p).length }
  refine ⟨img₂, ?_, hfree₂ ▸ hfree⟩
  rw [iappend, rinode_returns hi]
  dsimp only [bind, Except.bind]
  rw [List.length_cons, iappendLoop,
    if_neg (show ¬ (c :: p).length = 0 from Nat.succ_ne_zero _), if_neg hmax, hb]
  dsimp only [bind, Except.bind]
  rw [rsect_ok hx, hn1, List.take_length, List.drop_length]
  dsimp only [bind, Except.bind]
  rw [hdone]
  exact hw

/-- An `iappend` where the blocks within reach are full. -/
theorem iappend_faults {p : List UInt8} (hs : Sound img) (hi : i < INODES) (hp : p ≠ [])
    (hsize : (img.dinode i).size = REACH * BSIZE) (hroom : img.freeblock < FSSIZE) :
    iappend img i p = .error .fault := by
  obtain ⟨hlt, -⟩ := takeAddr_lt (hs.shows hi) hs.wf.owned ⟨NDIRECT, by decide⟩ hroom
  obtain ⟨c, p, rfl⟩ := List.exists_cons_of_ne_nil hp
  have hfbn : (img.dinode i).size / BSIZE = REACH := by
    rw [hsize]
    exact Nat.mul_div_cancel _ (by decide)
  have hblock : fileBlock img (img.dinode i) REACH = .error .fault := by
    rw [fileBlock, dif_neg (by decide)]
    dsimp only
    rw [takeIndirect, rsect_ok hlt]
    rfl
  rw [iappend, rinode_returns hi]
  dsimp only [bind, Except.bind]
  rw [List.length_cons, iappendLoop,
    if_neg (show ¬ (c :: p).length = 0 from Nat.succ_ne_zero _), hfbn, if_neg (by decide), hblock]
  rfl

/-! ### A file -/

/-- The blocks a file of `n` bytes fills. -/
def blocksFor (n : Nat) : Nat := (n + (BSIZE - 1)) / BSIZE

theorem length_chunk (data : List UInt8) : (data.take BSIZE).length = min BSIZE data.length :=
  List.length_take

variable {data : List UInt8} {files : List HostFile}

/-- One round of the copy, when the block is within reach. -/
theorem copyRound (hs : Sound img) (hi : i < INODES) (hlt : i < img.freeinode)
    (halign : (img.dinode i).size % BSIZE = 0) (hd : data.length ≠ 0)
    (hreach : (img.dinode i).size < REACH * BSIZE) (hroom : img.freeblock + 2 ≤ FSSIZE) :
    ∃ img', iappend img i (data.take BSIZE) = .ok img' ∧ img'.freeblock ≤ img.freeblock + 2 ∧
      Sound img' ∧ i < img'.freeinode ∧
      (img'.dinode i).size = (img.dinode i).size + min BSIZE data.length := by
  have hblock : (data.take BSIZE).length ≤ BSIZE - (img.dinode i).size % BSIZE := by
    rw [length_chunk, halign]
    exact Nat.min_le_left _ _
  obtain ⟨img', h, hfree⟩ := iappend_returns hs hi (chunk_ne_nil hd) hblock
    (Nat.div_lt_of_lt_mul (Nat.mul_comm REACH BSIZE ▸ hreach)) hroom
  have ha := iappend_ok hs hi hlt (chunk_ne_nil hd) h
  refine ⟨img', h, hfree, ha.sound, ha.freeinode ▸ hlt, ?_⟩
  rw [size_of_content hi, ha.self, List.length_append, ← size_of_content hi, length_chunk]

theorem copyLoop_returns (fuel : Nat) (hs : Sound img) (hi : i < INODES)
    (hlt : i < img.freeinode) (halign : (img.dinode i).size % BSIZE = 0)
    (hreach : (img.dinode i).size + data.length ≤ REACH * BSIZE)
    (hroom : img.freeblock + 2 * blocksFor data.length ≤ FSSIZE) :
    ∃ img', copyLoop i fuel data img = .ok img' ∧
      img'.freeblock ≤ img.freeblock + 2 * blocksFor data.length := by
  induction fuel generalizing data img with
  | zero => exact ⟨img, rfl, Nat.le_add_right _ _⟩
  | succ fuel ih =>
    rw [copyLoop]
    split
    · exact ⟨img, rfl, Nat.le_add_right _ _⟩
    rename_i hd
    have hblocks : blocksFor data.length = blocksFor (data.length - BSIZE) + 1 := by
      change (data.length + 511) / 512 = (data.length - 512 + 511) / 512 + 1
      omega
    obtain ⟨img₁, h₁, hfree₁, hs₁, hlt₁, hsize₁⟩ :=
      copyRound hs hi hlt halign hd (by omega) (by omega)
    rw [h₁]
    by_cases hlong : BSIZE ≤ data.length
    · have halign₁ : (img₁.dinode i).size % BSIZE = 0 := by
        rw [hsize₁, Nat.min_eq_left hlong, Nat.add_mod_right, halign]
      have hreach₁ : (img₁.dinode i).size + (data.drop BSIZE).length ≤ REACH * BSIZE := by
        rw [hsize₁, Nat.min_eq_left hlong, List.length_drop, Nat.add_assoc,
          Nat.add_sub_cancel' hlong]
        exact hreach
      obtain ⟨img', h', hfree'⟩ := ih hs₁ hlt₁ halign₁ hreach₁ (by rw [List.length_drop]; omega)
      refine ⟨img', h', ?_⟩
      rw [List.length_drop] at hfree'
      omega
    · have hnil : data.drop BSIZE = [] := List.drop_eq_nil_of_le (Nat.le_of_not_le hlong)
      have hdone : copyLoop i fuel (data.drop BSIZE) img₁ = .ok img₁ := by
        rw [hnil]
        cases fuel <;> rfl
      exact ⟨img₁, hdone, by omega⟩

/-- **A file beyond reach** is not copied to its end: the array is indexed beyond its bounds. -/
theorem copyLoop_faults {fuel : Nat} (hs : Sound img) (hi : i < INODES)
    (hlt : i < img.freeinode) (halign : (img.dinode i).size % BSIZE = 0)
    (hle : (img.dinode i).size ≤ REACH * BSIZE)
    (hbig : REACH * BSIZE < (img.dinode i).size + data.length) (hfuel : data.length ≤ fuel)
    (hroom : img.freeblock + 2 * (REACH - (img.dinode i).size / BSIZE) < FSSIZE) :
    copyLoop i fuel data img = .error .fault := by
  induction fuel generalizing data img with
  | zero => omega
  | succ fuel ih =>
    have hd : data.length ≠ 0 := by omega
    rw [copyLoop, if_neg hd]
    rcases Nat.eq_or_lt_of_le hle with hfull | hless
    · rw [iappend_faults hs hi (chunk_ne_nil hd) hfull (by omega)]
      rfl
    have hdiv : (img.dinode i).size / BSIZE < REACH :=
      Nat.div_lt_of_lt_mul (Nat.mul_comm REACH BSIZE ▸ hless)
    obtain ⟨img₁, h₁, hfree₁, hs₁, hlt₁, hsize₁⟩ := copyRound hs hi hlt halign hd hless (by omega)
    rw [h₁]
    have hlong : BSIZE ≤ data.length := by
      change (img.dinode i).size % 512 = 0 at halign
      change (img.dinode i).size < 138 * 512 at hless
      change 138 * 512 < _ at hbig
      change 512 ≤ data.length
      omega
    rw [Nat.min_eq_left hlong] at hsize₁
    refine ih hs₁ hlt₁ ?_ ?_ ?_ ?_ ?_
    · rw [hsize₁, Nat.add_mod_right, halign]
    · rw [hsize₁]
      change (img.dinode i).size % 512 = 0 at halign
      change (img.dinode i).size < 138 * 512 at hless
      change (img.dinode i).size + 512 ≤ 138 * 512
      omega
    · rw [hsize₁, List.length_drop]
      omega
    · rw [List.length_drop]
      change data.length - 512 ≤ fuel
      omega
    · rw [hsize₁, Nat.add_div_right _ (by decide)]
      omega

/-! ### The files -/

/-- The most blocks that `addFile` takes. -/
def HostFile.cost (f : HostFile) : Nat := 2 + 2 * blocksFor f.data.length

section

variable (hb : Built files img) (hn : files.length + 2 < INODES)
include hb hn

/-- The image once the file has its inode and its entry. -/
theorem addEntry_returns (hroom : img.freeblock + 2 ≤ FSSIZE) (name : List UInt8) :
    ∃ img₁ img₂, ialloc img T_FILE = .ok (files.length + 2, img₁) ∧
      iappend img₁ ROOTINO (direntOf name (files.length + 2)) = .ok img₂ ∧
      img₂.freeblock ≤ img.freeblock + 2 ∧ Sound img₂ ∧ files.length + 2 < img₂.freeinode ∧
      (img₂.dinode (files.length + 2)).size = 0 := by
  obtain ⟨img₁, hw, hfree₁⟩ := winode_returns { img with freeinode := img.freeinode + 1 }
    (hb.freeinode ▸ hn) (newDinode T_FILE)
  have hal : ialloc img T_FILE = .ok (img.freeinode, img₁) := by
    rw [ialloc, hw]
    rfl
  obtain ⟨-, hs₁, hnext, -, -, hnil, hcont⟩ :=
    ialloc_ok hb.sound (hb.freeinode ▸ hn) (by decide) hal
  rw [hb.freeinode] at hal hnext hnil
  have hsize : (img₁.dinode ROOTINO).size = 16 * (files.length + 2) := by
    rw [size_of_content (by decide), hcont, hb.root, length_rootBytes]
  change files.length + 2 < 208 at hn
  have hblock : (direntOf name (files.length + 2)).length ≤
      BSIZE - (img₁.dinode ROOTINO).size % BSIZE := by
    rw [length_direntOf, hsize]
    change 16 ≤ 512 - 16 * (files.length + 2) % 512
    omega
  have hreach : (img₁.dinode ROOTINO).size / BSIZE < REACH := by
    rw [hsize]
    change 16 * (files.length + 2) / 512 < 138
    omega
  have hroom₁ : img₁.freeblock + 2 ≤ FSSIZE := by
    rw [hfree₁]
    exact hroom
  obtain ⟨img₂, h₂, hfree₂⟩ := iappend_returns hs₁ (by decide) (direntOf_ne_nil _ _) hblock hreach
    hroom₁
  have hroot : ROOTINO < img₁.freeinode := by
    rw [hnext]
    exact Nat.succ_lt_succ (Nat.succ_pos _)
  have ha := iappend_ok hs₁ (by decide) hroot (direntOf_ne_nil _ _) h₂
  have hne : files.length + 2 ≠ ROOTINO := by
    change _ ≠ 1
    omega
  refine ⟨img₁, img₂, hal, h₂, ?_, ha.sound, ?_, ?_⟩
  · rw [hfree₁] at hfree₂
    exact hfree₂
  · rw [ha.freeinode, hnext]
    exact Nat.lt_succ_self _
  · rw [size_of_content hn, ha.other _ hne, hnil]
    rfl

theorem addFile_returns {f : HostFile} (hname : SLASH ∉ f.name)
    (hreach : f.data.length ≤ REACH * BSIZE) (hroom : img.freeblock + f.cost ≤ FSSIZE) :
    ∃ img', addFile img f = .ok img' ∧ img'.freeblock ≤ img.freeblock + f.cost := by
  rw [HostFile.cost] at hroom ⊢
  obtain ⟨img₁, img₂, hal, hroot, hfree, hs, hlt, hsize⟩ :=
    addEntry_returns hb hn (by omega) f.fsName
  obtain ⟨img', h, hfree'⟩ := copyLoop_returns f.data.length hs hn hlt
    (by rw [hsize, Nat.zero_mod]) (by rw [hsize, Nat.zero_add]; exact hreach) (by omega)
  refine ⟨img', ?_, by omega⟩
  rw [addFile, if_neg hname, hal]
  dsimp only [bind, Except.bind]
  rw [hroot]
  exact h

theorem addFile_faults {f : HostFile} (hname : SLASH ∉ f.name)
    (hbig : REACH * BSIZE < f.data.length) (hroom : img.freeblock + 2 + 2 * REACH < FSSIZE) :
    addFile img f = .error .fault := by
  obtain ⟨img₁, img₂, hal, hroot, hfree, hs, hlt, hsize⟩ :=
    addEntry_returns hb hn (by omega) f.fsName
  have h := copyLoop_faults hs hn hlt (by rw [hsize, Nat.zero_mod]) (by rw [hsize]; exact Nat.zero_le _)
    (by rw [hsize, Nat.zero_add]; exact hbig) le_rfl
    (by rw [hsize, Nat.zero_div, Nat.sub_zero]; omega)
  rw [addFile, if_neg hname, hal]
  dsimp only [bind, Except.bind]
  rw [hroot]
  exact h

end

theorem addFiles_returns {rest : List HostFile} (hb : Built files img)
    (hn : files.length + rest.length + 2 ≤ INODES) (hname : ∀ f ∈ rest, SLASH ∉ f.name)
    (hreach : ∀ f ∈ rest, f.data.length ≤ REACH * BSIZE)
    (hroom : img.freeblock + (rest.map HostFile.cost).sum ≤ FSSIZE) :
    ∃ img', rest.foldlM addFile img = .ok img' ∧
      img'.freeblock ≤ img.freeblock + (rest.map HostFile.cost).sum := by
  induction rest generalizing files img with
  | nil => exact ⟨img, rfl, Nat.le_add_right _ _⟩
  | cons f rest ih =>
    rw [List.length_cons] at hn
    rw [List.map_cons, List.sum_cons] at hroom ⊢
    obtain ⟨img₁, h₁, hfree₁⟩ := addFile_returns hb (by omega) (hname f List.mem_cons_self)
      (hreach f List.mem_cons_self) (by omega)
    obtain ⟨img', h', hfree'⟩ := ih (addFile_ok hb (by omega) h₁)
      (by rw [List.length_append, List.length_singleton]; omega)
      (fun g hg => hname g (List.mem_cons_of_mem f hg))
      (fun g hg => hreach g (List.mem_cons_of_mem f hg)) (by omega)
    refine ⟨img', ?_, by omega⟩
    rw [List.foldlM_cons, h₁]
    exact h'

theorem makeRoot_returns : ∃ img, makeRoot blank = .ok img ∧ img.freeblock ≤ mkfsSb.nmeta + 4 := by
  have hi : blank.freeinode < INODES := by decide
  obtain ⟨img₁, hw, hfree₁⟩ := winode_returns { blank with freeinode := blank.freeinode + 1 } hi
    (newDinode T_DIR)
  have hal : ialloc blank T_DIR = .ok (blank.freeinode, img₁) := by
    rw [ialloc, hw]
    rfl
  obtain ⟨-, hs₁, hnext, -, -, hnil, -⟩ := ialloc_ok sound_blank hi (by decide) hal
  have hsize₁ : (img₁.dinode blank.freeinode).size = 0 := by
    rw [size_of_content hi, hnil]
    rfl
  have hfree₁' : img₁.freeblock = mkfsSb.nmeta := hfree₁
  have hlt₁ : blank.freeinode < img₁.freeinode := by
    rw [hnext]
    exact Nat.lt_succ_self _
  obtain ⟨img₂, h₂, hfree₂⟩ := iappend_returns hs₁ hi (direntOf_ne_nil [46] blank.freeinode)
    (by rw [hsize₁, length_direntOf]; decide) (by rw [hsize₁]; decide) (by rw [hfree₁']; decide)
  have ha := iappend_ok hs₁ hi hlt₁ (direntOf_ne_nil _ _) h₂
  have hsize₂ : (img₂.dinode blank.freeinode).size = DIRENT := by
    rw [size_of_content hi, ha.self, hnil, List.nil_append, length_direntOf]
  have hroom₂ : img₂.freeblock + 2 ≤ FSSIZE := by
    rw [hfree₁'] at hfree₂
    exact le_trans (Nat.add_le_add_right hfree₂ 2) (by decide)
  obtain ⟨img₃, h₃, hfree₃⟩ := iappend_returns ha.sound hi
    (direntOf_ne_nil [46, 46] blank.freeinode)
    (by rw [hsize₂, length_direntOf]; decide) (by rw [hsize₂]; decide) hroom₂
  refine ⟨img₃, ?_, by omega⟩
  rw [makeRoot, hal]
  dsimp only [bind, Except.bind]
  rw [if_neg (show ¬ blank.freeinode ≠ ROOTINO from not_not.mpr rfl), h₂]
  exact h₃

/-- **`mkfs` finishes** with few enough files and blocks, each file within reach. -/
theorem mkfs_returns (hn : files.length + 2 ≤ INODES)
    (hname : ∀ f ∈ files, SLASH ∉ f.name) (hreach : ∀ f ∈ files, f.data.length ≤ REACH * BSIZE)
    (hroom : mkfsSb.nmeta + 4 + (files.map HostFile.cost).sum < BPB) :
    ∃ img, mkfs files = .ok img := by
  obtain ⟨img₀, h₀, hfree₀⟩ := makeRoot_returns
  have hle : BPB ≤ FSSIZE := by decide
  obtain ⟨img₁, h₁, hfree₁⟩ := addFiles_returns (makeRoot_ok h₀)
    (by rw [List.length_nil, Nat.zero_add]; exact hn) hname hreach (by omega)
  have hroot : ROOTINO < INODES := by decide
  obtain ⟨img₂, h₂, hfree₂⟩ := winode_returns img₁ hroot
    { img₁.dinode ROOTINO with size := ((img₁.dinode ROOTINO).size / BSIZE + 1) * BSIZE }
  have hbits : img₂.freeblock < BSIZE * 8 := by
    rw [hfree₂]
    change _ < BPB
    omega
  refine ⟨img₂.wsect mkfsSb.bmapstart (markLoop img₂.freeblock), ?_⟩
  rw [mkfs, h₀]
  dsimp only [bind, Except.bind]
  rw [h₁]
  dsimp only [fixRoot]
  rw [rinode_returns hroot]
  dsimp only [bind, Except.bind]
  rw [h₂]
  dsimp only
  rw [balloc, if_pos hbits]

end

end Xv6.Mkfs
