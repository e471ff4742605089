import Xv6.Fs.Cost
import Xv6.Fs.Lookup

/-!
# Fs — the blocks a transaction logs

`begin_op` reserves room for `MAXOPBLOCKS` blocks.  What the three kinds of transactions that write
file contents or drop inodes really log, counted in the consistent volume before them:

* one chunk of a `write`: `writeCost`;
* `fileclose`: nothing, or, when `iput` drops the inode, its block and every bitmap block that
  covers a block of the file;
* `unlink`: the directory block, the block of the inode (and of the parent, for a directory), and
  the bitmap blocks when the inode is dropped.

`transaction_fits_iff` says when each of them stays within the reservation.  A disk of `FSSIZE`
blocks has ten bitmap blocks, so a file spread over all of them is too much for one `iput`
(`transaction_too_big`).
-/

namespace Xv6.Fs

open Support (bind_ok)
open Support.Forest (Valid)

section

variable {sb : Superblock} {fs fs₀ fs₁ fs' : Volume} {i : Nat}

/-! ### Dropping an inode -/

/-- The blocks of a file, index blocks included. -/
def Volume.blocksOf (fs : Volume) (i : Nat) : List Nat :=
  (List.finRange (NDIRECT + 3)).flatMap fun r => fs.rootBlocks (i, r)

/-- The bitmap blocks that cover a block of the file. -/
def Volume.fileBitmaps (sb : Superblock) (fs : Volume) (i : Nat) : Finset Nat :=
  ((fs.blocksOf i).map sb.bblock).toFinset

variable {b off dp ip : Nat}

theorem mem_blocksOf : b ∈ fs.blocksOf i ↔
    ∃ q, Valid shape q ∧ q.1.1 = i ∧ fs.forest.get q ≠ 0 ∧ fs.forest.get q = b := by
  rw [Volume.blocksOf, List.mem_flatMap]
  constructor
  · rintro ⟨r, -, h⟩
    obtain ⟨hb, p, hv, rfl⟩ := mem_rootBlocks.mp h
    exact ⟨((i, r), p), hv, rfl, hb, rfl⟩
  · rintro ⟨⟨⟨j, r⟩, p⟩, hv, rfl, hne, rfl⟩
    exact ⟨r, List.mem_finRange r, mem_rootBlocks.mpr ⟨hne, p, hv, rfl⟩⟩

theorem mem_fileBitmaps : b ∈ fs.fileBitmaps sb i ↔
    ∃ q, Valid shape q ∧ q.1.1 = i ∧ fs.forest.get q ≠ 0 ∧ sb.bblock (fs.forest.get q) = b := by
  rw [Volume.fileBitmaps, List.mem_toFinset, List.mem_map]
  constructor
  · rintro ⟨c, hc, rfl⟩
    obtain ⟨q, hv, hi, hne, rfl⟩ := mem_blocksOf.mp hc
    exact ⟨q, hv, hi, hne, rfl⟩
  · rintro ⟨q, hv, hi, hne, rfl⟩
    exact ⟨_, mem_blocksOf.mpr ⟨q, hv, hi, hne, rfl⟩, rfl⟩

theorem fileBitmaps_congr (h : ∀ q, Valid shape q → fs'.forest.get q = fs.forest.get q) (i : Nat) :
    fs'.fileBitmaps sb i = fs.fileBitmaps sb i := by
  ext b
  rw [mem_fileBitmaps, mem_fileBitmaps]
  refine exists_congr fun q => and_congr_right fun hv => ?_
  rw [h q hv]

theorem iput_of_not_goes (hg : ¬ fs.Goes i) (h : iput sb fs i = .ok fs') : fs' = fs.unref i := by
  rw [iput, if_neg hg] at h
  cases h
  rfl

/-- **What `iput` logs.** -/
theorem iput_logged (ho : Owned sb fs) (hm : MetaUsed sb fs) (h : iput sb fs i = .ok fs') (b : Nat) :
    b ∈ fs'.logged ↔ b ∈ fs.logged ∨ fs.Goes i ∧ (b = sb.iblock i ∨ b ∈ fs.fileBitmaps sb i) := by
  by_cases hg : fs.Goes i
  · rw [iput, if_pos hg] at h
    obtain ⟨fs₂, h₂, h⟩ := bind_ok.mp h
    cases h
    rw [truncateAndFree] at h₂
    obtain ⟨fs₁, h₁, h₂⟩ := bind_ok.mp h₂
    cases h₂
    obtain ⟨fs₁', h₁', -, -, -, -, -, hlog⟩ := itrunc_spec ho hm hg.1
    rw [h₁] at h₁'
    cases h₁'
    change b ∈ sb.iblock i :: fs₁.logged ↔ _
    rw [List.mem_cons, hlog, mem_fileBitmaps]
    simp only [hg, true_and]
    constructor
    · rintro (h | h | h | h)
      · exact .inr (.inl h)
      · exact .inl h
      · exact .inr (.inl h)
      · exact .inr (.inr h)
    · rintro (h | h | h)
      · exact .inr (.inl h)
      · exact .inl h
      · exact .inr (.inr (.inr h))
  · rw [iput_of_not_goes hg h]
    simp [hg, Volume.unref, Volume.setInode]

/-- The bitmap blocks lie between the inodes and the data. -/
theorem fileBitmaps_range (ho : Owned sb fs) (h : b ∈ fs.fileBitmaps sb i) :
    sb.bmapstart ≤ b ∧ b < sb.nmeta := by
  obtain ⟨q, hv, -, hne, rfl⟩ := mem_fileBitmaps.mp h
  exact ⟨bmapstart_le_bblock sb _, bblock_lt_nmeta (ho.data q hv hne).2.1⟩

theorem beginOp_of_idle (h : fs.logged = []) : beginOp fs = fs := by rw [beginOp, ← h]

/-- **`fileclose`** logs the bitmap blocks of the file and the block of its inode, if the inode
goes. -/
theorem fileclose_cost (hc : Consistent sb fs) {f f' : OpenFile}
    (h : fileclose sb fs f = .ok (f', fs')) : fs'.logged.toFinset.card =
      if f.ref = 1 ∧ f.type = .inode ∧ fs.Goes f.ip then (fs.fileBitmaps sb f.ip).card + 1 else 0 := by
  rw [fileclose] at h
  split at h
  · cases h
  split at h
  · cases h
    rw [if_neg (by omega), hc.idle]
    rfl
  have href : f.ref = 1 := by omega
  split at h
  · rename_i hty
    obtain ⟨fs₁, h₁, h⟩ := bind_ok.mp h
    cases h
    rw [beginOp_of_idle hc.idle] at h₁
    have hlog := iput_logged hc.owned hc.metaUsed h₁
    by_cases hg : fs.Goes f.ip
    · have hset : fs'.logged.toFinset = insert (sb.iblock f.ip) (fs.fileBitmaps sb f.ip) := by
        ext b
        rw [List.mem_toFinset, hlog, hc.idle, Finset.mem_insert]
        simp [hg]
      have hi : f.ip < sb.ninodes := hc.inum _ (hc.cached _ hg.1).2
      have hnot : sb.iblock f.ip ∉ fs.fileBitmaps sb f.ip := fun hmem =>
        absurd (fileBitmaps_range hc.owned hmem).1 (Nat.not_le_of_lt (iblock_lt_bmapstart hi))
      rw [if_pos ⟨href, hty, hg⟩, hset, Finset.card_insert_of_notMem hnot]
    · have hset : fs'.logged.toFinset = ∅ := by
        ext b
        rw [List.mem_toFinset, hlog, hc.idle]
        simp [hg]
      rw [if_neg fun h => hg h.2.2, hset]
      rfl
  · rename_i hty
    cases h
    rw [if_neg fun h => hty h.2.1, hc.idle]
    rfl

/-! ### One chunk of a write -/

theorem fileChunk_cost (hc : Consistent sb fs) {src : List UInt8} {r : Int}
    (h : fileChunk sb fs i src off = .ok (r, fs')) : fs'.logged.toFinset.card =
      if Accepted fs i (src.take CHUNK).length off
        then writeCost sb fs i off (src.take CHUNK).length else 0 := by
  rw [fileChunk, beginOp_of_idle hc.idle] at h
  obtain ⟨fs₁, hlock, h⟩ := bind_ok.mp h
  obtain ⟨hc₁, hv, -⟩ := (Calm.refl hc).ilock hlock
  have hi : i < sb.ninodes := hc.inum i (hc₁.cached i hv).2
  have hcost := writei_cost (hc₁.owned hc) (hc₁.metaUsed hc) hv hi (hc₁.logged.trans hc.idle) h
  -- the cost is read from the places, the bits and the size, which the lock has not changed
  have hcur : fs₁.current i = fs.current i := by rw [hc₁.current, hc.current]
  have hfree : fs₁.freeBlocks sb = fs.freeBlocks sb := by
    refine List.filter_congr fun b _ => ?_
    rw [Volume.used, hc₁.disk]
    rfl
  have hmiss (off n : Nat) : fs₁.missing i off n = fs.missing i off n := by
    rw [Volume.missing, hc₁.forest hc]
    rfl
  simp only [Accepted, writeCost, Volume.indexes, Volume.bitmaps, hcur, hfree, hmiss] at hcost
  exact hcost

/-! ### `unlink` -/

/-- Clearing the entry logs one directory block, and moves none. -/
theorem unlinkWrite (h₀ : Consistent sb fs₀) (hf : Found fs₀ fs dp ip off)
    (h : writei sb fs dp (List.replicate DIRENT 0) off = .ok (16, fs₁)) :
    Owned sb fs₁ ∧ MetaUsed sb fs₁ ∧ (∀ q, Valid shape q → fs₁.forest.get q = fs₀.forest.get q) ∧
      (∀ j, fs₁.inode j = { fs.inode j with addrs := (fs₁.inode j).addrs }) ∧
      ∃ a, sb.nmeta ≤ a ∧ ∀ b, b ∈ fs₁.logged ↔ b = a := by
  have ho := hf.calm.owned h₀
  have hm := hf.calm.metaUsed h₀
  have hsize : off + DIRENT ≤ (fs.inode dp).size := by
    rw [(hf.calm.cached dp hf.validDp).1]
    exact hf.inside
  rcases writei_spec ho hm hf.validDp h with ⟨-, -, hdev | hn⟩ | ⟨ha, fs₂, N, D, e, ⟨hN, hD⟩, rfl⟩
  · rw [hf.calm.current, hf.dir] at hdev
    cases hdev
  · cases hn
  -- the entry lies in one block, which is there
  have hround (o : Nat) (h₁ : off ≤ o) (h₂ : o < off + DIRENT) : o / BSIZE = off / BSIZE := by
    refine div_of_round ?_ h₁ h₂
    have := hf.aligned
    simp only [DIRENT, BSIZE] at *
    omega
  have hpath : ∃ q, placeOf dp (off / BSIZE) = some q := by
    obtain ⟨r, xs, hx⟩ := @bmapPath_some (off / BSIZE) (by
      have h₁ := ha.2.2.1
      have h₂ := ha.2.2.2
      rw [List.length_replicate] at h₁ h₂
      simp only [MAXFILE, NDIRECT, NINDIRECT, BSIZE, DIRENT] at *
      omega)
    exact ⟨_, by rw [placeOf, hx]; rfl⟩
  obtain ⟨q, hq⟩ := hpath
  have hmemD (p : Place) : p ∈ D ↔ p = q := by
    rw [hD, List.length_replicate]
    constructor
    · rintro ⟨o, h₁, h₂, hp⟩
      rw [hround o h₁ h₂, hq] at hp
      exact (Option.some.inj hp).symm
    · rintro rfl
      exact ⟨off, Nat.le_refl _, by simp only [DIRENT]; omega, hq⟩
  obtain ⟨hqv, -, hqne⟩ := e.data_mem ho hm ((hmemD q).mpr rfl)
  have hthere : fs.forest.get q ≠ 0 := by
    refine hf.calm.noHoles h₀ dp _ q hq hqv ?_
    rw [hf.calm.current]
    have := hf.inside
    simp only [DIRENT, BSIZE] at *
    omega
  have hnone : N = [] := by
    refine List.eq_nil_iff_forall_not_mem.mpr fun p hp => ?_
    obtain ⟨p', hp', h₁, h₂⟩ := hN p hp
    rw [(hmemD p').mp hp'] at h₁ h₂
    obtain ⟨r, s⟩ := p
    cases h₁
    exact Support.Forest.get_of_suffix h₂ hthere ((e.get ho hm).2.1 _ hp).2.1
  subst hnone
  have hno : ¬(0 < (List.replicate DIRENT (0 : UInt8)).length ∧
      (fs.inode dp).size < off + (List.replicate DIRENT (0 : UInt8)).length) := by
    rw [List.length_replicate]
    omega
  rw [if_neg hno]
  obtain ⟨ho₂, hm₂⟩ := e.owned ho hm
  refine ⟨ho₂, hm₂, fun p hp => ?_, e.inode.2, fs₂.forest.get q, (ho₂.data q hqv hqne).1, fun b => ?_⟩
  · rw [(e.get ho hm).2.2 p hp List.not_mem_nil, hf.calm.forest h₀]
  · rw [e.logged ho hm, hf.calm.logged, h₀.idle]
    simp only [mem_marks, hmemD, List.not_mem_nil, false_and, exists_false, or_false, false_or,
      exists_eq_left]
    exact eq_comm

/-- `ip->nlink--; iupdate(ip);` moves no block. -/
theorem forest_dropLink (hv : (fs.inode i).valid = true) : (dropLink sb fs i).forest = fs.forest := by
  rw [dropLink, forest_iupdate, forest_setInode rfl rfl]
  simp [Volume.setInode, hv]

theorem unref_forest (fs : Volume) (i : Nat) : (fs.unref i).forest = fs.forest :=
  forest_setInode rfl rfl

/-- The disk is as it was and the places too. -/
theorem owned_of_forest (hf : fs'.forest = fs.forest) (hd : fs'.disk = fs.disk)
    (h : Owned sb fs ∧ MetaUsed sb fs) : Owned sb fs' ∧ MetaUsed sb fs' := by
  have hused (c : Nat) : fs'.used sb c = fs.used sb c := by rw [Volume.used, hd]; rfl
  exact ⟨h.1.congr (fun q _ => by rw [hf]) fun c _ => hused c,
    fun c hc hlt => (hused c).trans (h.2 c hc hlt)⟩

/-- The inode loses its last link and nobody else has it. -/
def Volume.LastLink (fs : Volume) (i : Nat) : Prop :=
  short ((fs.dinode i).nlink - 1) = 0 ∧ (fs.inode i).ref = 0

instance (fs : Volume) (i : Nat) : Decidable (fs.LastLink i) := inferInstanceAs (Decidable (_ ∧ _))

/-- The inodes whose blocks `unlink` logs. -/
def Volume.unlinkInodes (sb : Superblock) (fs : Volume) (dp ip : Nat) : Finset Nat :=
  if (fs.dinode ip).type = .dir then {sb.iblock dp, sb.iblock ip} else {sb.iblock ip}

/-- The blocks logged by the `unlink` of an entry of `dp` that names `ip`: the directory block,
inodes and bitmap. -/
def unlinkCost (sb : Superblock) (fs : Volume) (dp ip : Nat) : Nat :=
  1 + (fs.unlinkInodes sb dp ip).card + if fs.LastLink ip then (fs.fileBitmaps sb ip).card else 0

theorem short_of_range {x : Int} (h₁ : -2 ^ 15 ≤ x) (h₂ : x < 2 ^ 15) : short x = x :=
  Int.bmod_eq_of_le (by omega) (by omega)

section

variable (h₀ : Consistent sb fs₀) (hf : Found fs₀ fs dp ip off)
  (h : unlinkEntry sb fs dp ip off = .ok fs')
include h₀ hf h

/-- **Clearing an entry** and dropping the link: the blocks logged. -/
theorem unlinkEntry_logged :
    ∃ a, sb.nmeta ≤ a ∧ ∀ b, b ∈ fs'.logged ↔ b = a ∨ b ∈ fs₀.unlinkInodes sb dp ip ∨
      fs₀.LastLink ip ∧ b ∈ fs₀.fileBitmaps sb ip := by
  rw [unlinkEntry] at h
  obtain ⟨⟨n, fs₁⟩, hw, h⟩ := bind_ok.mp h
  dsimp only at h
  split at h
  · cases h
  rename_i hn
  rw [not_ne_iff.mp hn] at hw
  obtain ⟨ho₁, hm₁, hget₁, hino₁, a, ha, hlog₁⟩ := unlinkWrite h₀ hf hw
  have hdp := (hf.calm.cached dp hf.validDp).1
  have hip := (hf.calm.cached ip hf.validIp).1
  have hty : (fs₁.inode ip).type = (fs₀.dinode ip).type := by rw [hino₁ ip, ← hip]
  have hvd : (fs₁.inode dp).valid = true := by rw [hino₁ dp, hf.validDp]
  have hvi : (fs₁.inode ip).valid = true := by rw [hino₁ ip, hf.validIp]
  have hrd : (fs₁.inode dp).ref = (fs₀.inode dp).ref + 1 := by
    rw [hino₁ dp, hf.calm.ref dp]
    simp [hf.ne.symm]
  have hri : (fs₁.inode ip).ref = (fs₀.inode ip).ref + 1 := by
    rw [hino₁ ip, hf.calm.ref ip]
    simp [hf.ne]
  have hnd : (fs₁.inode dp).nlink = (fs₀.dinode dp).nlink := by rw [hino₁ dp, ← hdp]
  have hni : (fs₁.inode ip).nlink = (fs₀.dinode ip).nlink := by rw [hino₁ ip, ← hip]
  -- the parent, with one link less when a directory goes, stays
  have hparent : ∃ fs₂, (if (fs₁.inode ip).type = .dir then dropLink sb fs₁ dp else fs₁) = fs₂ ∧
      fs₂.forest = fs₁.forest ∧ fs₂.disk = fs₁.disk ∧ fs₂.inode ip = fs₁.inode ip ∧ ¬ fs₂.Goes dp ∧
      ∀ b, b ∈ fs₂.logged ↔ b = a ∨ (fs₀.dinode ip).type = .dir ∧ b = sb.iblock dp := by
    refine ⟨_, rfl, ?_⟩
    rw [hty]
    split
    · rename_i hdir
      obtain ⟨hle, hlt⟩ := hf.links hdir
      refine ⟨forest_dropLink hvd, rfl, ?_, ?_, fun b => ?_⟩
      · simp [dropLink, iupdate, Volume.setInode, hf.ne]
      · rintro ⟨-, hlink, -⟩
        simp only [dropLink, iupdate, Volume.setInode, Function.update_self, hnd] at hlink
        rw [short_of_range (by omega) (by omega)] at hlink
        omega
      · change b ∈ sb.iblock dp :: fs₁.logged ↔ _
        rw [List.mem_cons, hlog₁, or_comm]
        simp [hdir]
    · rename_i hdir
      refine ⟨rfl, rfl, rfl, ?_, fun b => by simp [hlog₁, hdir]⟩
      rintro ⟨-, hlink, href⟩
      have := h₀.linked dp (by rw [hf.dir]; decide) (hnd ▸ hlink)
      omega
  obtain ⟨fs₂, hfs₂, hfo₂, hdk₂, hin₂, hgo₂, hlog₂⟩ := hparent
  rw [hfs₂] at h
  obtain ⟨fs₃, h₃, h₄⟩ := bind_ok.mp h
  rw [iunlockput] at h₃ h₄
  split at h₃
  · cases h₃
  split at h₄
  · cases h₄
  have hfs₃ := iput_of_not_goes hgo₂ h₃
  have hin₃ : fs₃.inode ip = fs₁.inode ip := by
    rw [hfs₃, ← hin₂]
    simp [Volume.unref, Volume.setInode, hf.ne]
  have hv₃ : (fs₃.inode ip).valid = true := by rw [hin₃, hvi]
  have hfo₄ : (dropLink sb fs₃ ip).forest = fs₁.forest := by
    rw [forest_dropLink hv₃, hfs₃, unref_forest, hfo₂]
  have hdk₄ : (dropLink sb fs₃ ip).disk = fs₁.disk := by
    rw [← hdk₂, hfs₃]
    rfl
  obtain ⟨ho₄, hm₄⟩ := owned_of_forest hfo₄ hdk₄ ⟨ho₁, hm₁⟩
  have hgoes : (dropLink sb fs₃ ip).Goes ip ↔ fs₀.LastLink ip := by
    simp only [Volume.Goes, Volume.LastLink, dropLink, iupdate, Volume.setInode,
      Function.update_self, hin₃, hvi, hni, hri, true_and]
    refine and_congr_right fun _ => ?_
    omega
  have hmaps : (dropLink sb fs₃ ip).fileBitmaps sb ip = fs₀.fileBitmaps sb ip :=
    fileBitmaps_congr (fun q hq => by rw [hfo₄, hget₁ q hq]) ip
  have hlog₄ (b : Nat) : b ∈ (dropLink sb fs₃ ip).logged ↔ b = sb.iblock ip ∨ b ∈ fs₂.logged := by
    rw [hfs₃]
    exact List.mem_cons
  refine ⟨a, ha, fun b => ?_⟩
  rw [iput_logged ho₄ hm₄ h₄, hgoes, hmaps, hlog₄, hlog₂, Volume.unlinkInodes]
  by_cases hdir : (fs₀.dinode ip).type = .dir
  · simp only [hdir, true_and, if_true, Finset.mem_insert, Finset.mem_singleton]
    tauto
  · simp only [hdir, false_and, or_false, if_false, Finset.mem_singleton]
    tauto

theorem unlinkEntry_cost : fs'.logged.toFinset.card = unlinkCost sb fs₀ dp ip := by
  obtain ⟨a, ha, hlog⟩ := unlinkEntry_logged h₀ hf h
  have hdi := iblock_lt_bmapstart (h₀.inum dp (hf.calm.cached dp hf.validDp).2)
  have hii := iblock_lt_bmapstart (h₀.inum ip (hf.calm.cached ip hf.validIp).2)
  have hinodes {b : Nat} (hb : b ∈ fs₀.unlinkInodes sb dp ip) : b < sb.bmapstart := by
    rw [Volume.unlinkInodes] at hb
    split at hb
    · rcases Finset.mem_insert.mp hb with rfl | hb
      · exact hdi
      · rw [Finset.mem_singleton.mp hb]
        exact hii
    · rw [Finset.mem_singleton.mp hb]
      exact hii
  have hmaps {b : Nat} (hb : b ∈ if fs₀.LastLink ip then fs₀.fileBitmaps sb ip else ∅) :
      sb.bmapstart ≤ b ∧ b < sb.nmeta := by
    split at hb
    · exact fileBitmaps_range h₀.owned hb
    · cases hb
  have hle : sb.bmapstart ≤ sb.nmeta := Nat.le_add_right ..
  have hset : fs'.logged.toFinset = insert a (fs₀.unlinkInodes sb dp ip ∪
      if fs₀.LastLink ip then fs₀.fileBitmaps sb ip else ∅) := by
    ext b
    rw [List.mem_toFinset, hlog, Finset.mem_insert, Finset.mem_union]
    by_cases hl : fs₀.LastLink ip
    · simp [hl]
    · simp [hl]
  have hnot : a ∉ fs₀.unlinkInodes sb dp ip ∪
      if fs₀.LastLink ip then fs₀.fileBitmaps sb ip else ∅ := by
    intro hmem
    rcases Finset.mem_union.mp hmem with hb | hb
    · have := hinodes hb
      omega
    · have := (hmaps hb).2
      omega
  have hdisj : Disjoint (fs₀.unlinkInodes sb dp ip)
      (if fs₀.LastLink ip then fs₀.fileBitmaps sb ip else ∅) :=
    Finset.disjoint_left.mpr fun b hb hb' => absurd (hmaps hb').1 (Nat.not_le_of_lt (hinodes hb))
  rw [hset, Finset.card_insert_of_notMem hnot, Finset.card_union_of_disjoint hdisj, unlinkCost]
  split
  · omega
  · rw [Finset.card_empty]
    omega

end

/-- **`unlink`** logs nothing, or what the entry found costs. -/
theorem sysUnlink_cost (hc : Consistent sb fs) {cwd : Nat} {path : List UInt8} {r : Int}
    (h : sysUnlink sb fs cwd path = .ok (r, fs')) :
    (∃ dp ip off fs₁, unlinkFind sb fs cwd path = .ok (.entry dp ip off, fs₁) ∧
      fs'.logged.toFinset.card = unlinkCost sb fs dp ip) ∨
    (∀ dp ip off fs₁, unlinkFind sb fs cwd path ≠ .ok (.entry dp ip off, fs₁)) ∧
      fs'.logged = [] := by
  rw [sysUnlink, beginOp_of_idle hc.idle] at h
  obtain ⟨⟨t, fs₁⟩, hfind, h₁⟩ := bind_ok.mp h
  have hcalm := unlinkFind_calm hc hfind
  have hone (j : Nat) : (1 : Int) ≤ (Pi.single j 1 : Nat → Int) j := by simp
  rw [hfind]
  cases t with
  | none =>
    cases h₁
    obtain ⟨k, hk⟩ := hcalm
    exact .inr ⟨by rintro _ _ _ _ ⟨⟩, hk.logged.trans hc.idle⟩
  | bad dp =>
    obtain ⟨fs₂, hp, h₂⟩ := bind_ok.mp h₁
    cases h₂
    have hk := (Calm.iunlockput hcalm hc (hone dp) hp).1
    exact .inr ⟨by rintro _ _ _ _ ⟨⟩, hk.logged.trans hc.idle⟩
  | notEmpty dp ip =>
    obtain ⟨fs₂, hp, h₂⟩ := bind_ok.mp h₁
    obtain ⟨fs₃, hp', h₃⟩ := bind_ok.mp h₂
    cases h₃
    obtain ⟨hcalm, hne⟩ := hcalm
    have hk := (hcalm.iunlockput hc (by simp [hne]) hp).1
    rw [add_sub_cancel_right] at hk
    have hk := (hk.iunlockput hc (hone dp) hp').1
    exact .inr ⟨by rintro _ _ _ _ ⟨⟩, hk.logged.trans hc.idle⟩
  | entry dp ip off =>
    obtain ⟨fs₂, he, h₂⟩ := bind_ok.mp h₁
    cases h₂
    exact .inl ⟨dp, ip, off, fs₁, rfl, unlinkEntry_cost hc hcalm he⟩

/-- **Reservations.**  In a consistent volume a transaction stays within the `MAXOPBLOCKS` blocks
reserved for it exactly when: for a chunk of a write, the data blocks, the index blocks with a
missing entry, the bitmap blocks of the first free blocks and the inode are together that few; for
`fileclose`, the file is not dropped or its blocks lie under fewer bitmap blocks; for `unlink`,
what the entry found costs is that little. -/
theorem transaction_fits_iff (hc : Consistent sb fs) :
    (∀ i src off r fs', fileChunk sb fs i src off = .ok (r, fs') →
      (fs'.logged.toFinset.card ≤ MAXOPBLOCKS ↔ (Accepted fs i (src.take CHUNK).length off →
        writeCost sb fs i off (src.take CHUNK).length ≤ MAXOPBLOCKS))) ∧
    (∀ f f' fs', fileclose sb fs f = .ok (f', fs') →
      (fs'.logged.toFinset.card ≤ MAXOPBLOCKS ↔ (f.ref = 1 ∧ f.type = .inode ∧ fs.Goes f.ip →
        (fs.fileBitmaps sb f.ip).card < MAXOPBLOCKS))) ∧
    ∀ cwd path r fs', sysUnlink sb fs cwd path = .ok (r, fs') →
      (fs'.logged.toFinset.card ≤ MAXOPBLOCKS ↔ ∀ dp ip off fs₁,
        unlinkFind sb fs cwd path = .ok (.entry dp ip off, fs₁) →
          unlinkCost sb fs dp ip ≤ MAXOPBLOCKS) := by
  refine ⟨fun i src off r fs' h => ?_, fun f f' fs' h => ?_, fun cwd path r fs' h => ?_⟩
  · rw [fileChunk_cost hc h]
    by_cases ha : Accepted fs i (src.take CHUNK).length off
    · rw [if_pos ha]
      exact ⟨fun h _ => h, fun h => h ha⟩
    · rw [if_neg ha]
      exact ⟨fun _ h => absurd h ha, fun _ => Nat.zero_le _⟩
  · rw [fileclose_cost hc h]
    by_cases hd : f.ref = 1 ∧ f.type = .inode ∧ fs.Goes f.ip
    · rw [if_pos hd]
      exact ⟨fun h _ => h, fun h => h hd⟩
    · simp [hd]
  · rcases sysUnlink_cost hc h with ⟨dp, ip, off, fs₁, hfind, hcost⟩ | ⟨hnone, hlog⟩
    · rw [hcost, hfind]
      constructor
      · rintro h _ _ _ _ ⟨⟩
        exact h
      · exact fun h => h dp ip off fs₁ rfl
    · rw [hlog]
      exact ⟨fun _ dp ip off fs₁ e => absurd e (hnone dp ip off fs₁), fun _ => Nat.zero_le _⟩

end

/-! ### A file spread over the disk -/

/-- Inode 1 has ten blocks, one under each bitmap block; it has no link and one reference. -/
def scattered : Volume where
  disk := fun b =>
    if b = 58 then Support.setBit metaBits 100
    else if 58 < b ∧ b < 68 then Support.setBit (fun _ => 0) 100
    else fun _ => 0
  dinode := fun i =>
    if i = 1 then ⟨.file, 0, 0, 0, 5120, fun r => if r.val < 10 then 100 + 4096 * r.val else 0⟩
    else ⟨.free, 0, 0, 0, 0, fun _ => 0⟩
  inode := fun i =>
    if i = 1 then
      ⟨⟨.file, 0, 0, 0, 5120, fun r => if r.val < 10 then 100 + 4096 * r.val else 0⟩, 1, true⟩
    else ⟨⟨.free, 0, 0, 0, 0, fun _ => 0⟩, 0, false⟩
  logged := []

theorem getBit_metaBits_eq (x : Nat) : Support.getBit metaBits x = decide (x < 68) := by
  by_cases h : x < 68
  · have hall : ∀ x < 68, Support.getBit metaBits x = true := by decide
    rw [hall x h, decide_eq_true h]
  · rw [getBit_metaBits (Nat.le_of_not_lt h), decide_eq_false h]

theorem used_scattered {b : Nat} (h : b < FSSIZE) :
    scattered.used mkfsSb b = true ↔ b % 4096 = 100 ∨ b < 68 := by
  have hlt : b / 4096 < 10 := by simp only [FSSIZE] at h; omega
  have hmod : b % BPB = b % 4096 := rfl
  rw [Volume.used, hmod]
  change Support.getBit (scattered.disk (b / 4096 + 58)) (b % 4096) = true ↔ _
  by_cases h0 : b / 4096 = 0
  · have hsame : b % 4096 = b := by omega
    simp only [scattered, h0, if_true, Nat.zero_add, Support.getBit_setBit, getBit_metaBits_eq, hsame]
    simp
  have h₁ : b / 4096 + 58 ≠ 58 := by omega
  have h₂ : 58 < b / 4096 + 58 ∧ b / 4096 + 58 < 68 := by omega
  have h₃ : ¬ b < 68 := by omega
  simp only [scattered, if_neg h₁, if_pos h₂, Support.getBit_setBit, h₃, or_false]
  simp [Support.getBit]

/-- The places of the ten blocks, and no others, hold something. -/
theorem get_scattered {q : Place} (hv : Valid shape q) : scattered.forest.get q ≠ 0 ↔
    q.2 = [] ∧ q.1.1 = 1 ∧ q.1.2.val < 10 := by
  obtain ⟨⟨i, r⟩, p⟩ := q
  have hroot : scattered.forest.root (i, r) = if i = 1 ∧ r.val < 10 then 100 + 4096 * r.val else 0 := by
    by_cases hi : i = 1
    · subst hi
      simp [Volume.forest, Volume.current, scattered]
    · simp [Volume.forest, Volume.current, scattered, hi]
  by_cases h : i = 1 ∧ r.val < 10
  · have hp : p = [] := by
      have hl : p.length ≤ rootDepth r := hv.1
      have hd : rootDepth r = 0 := by simp only [rootDepth, NDIRECT]; omega
      exact List.length_eq_zero_iff.mp (by omega)
    subst hp
    rw [Support.Forest.get_nil, hroot, if_pos h]
    simp [h]
  · have h0 : scattered.forest.get ((i, r), p) = 0 := by
      change Support.follow scattered.forest.child (scattered.forest.root (i, r)) p = 0
      rw [hroot, if_neg h, Support.Forest.follow_zero]
    simp only [h0, ne_eq, not_true_eq_false, false_iff]
    exact fun h' => h h'.2

theorem get_scattered_eq {r : Fin (NDIRECT + 3)} (h : r.val < 10) :
    scattered.forest.get ((1, r), []) = 100 + 4096 * r.val := by
  simp [Volume.forest, Volume.current, scattered, h]

theorem owned_scattered : Owned mkfsSb scattered := by
  refine ⟨fun q q' hq hq' hne heq => ?_, fun q hq hne => ?_, fun b hle hlt hu => ?_⟩
  · obtain ⟨⟨i, r⟩, p⟩ := q
    obtain ⟨⟨i', r'⟩, p'⟩ := q'
    obtain ⟨rfl, rfl, hr⟩ := (get_scattered hq).mp hne
    obtain ⟨rfl, rfl, hr'⟩ := (get_scattered hq').mp (heq ▸ hne)
    have heq : 100 + 4096 * r.val = 100 + 4096 * r'.val := by
      rw [← get_scattered_eq hr, ← get_scattered_eq hr', heq]
    obtain rfl : r = r' := Fin.ext (by omega)
    rfl
  · obtain ⟨⟨i, r⟩, p⟩ := q
    obtain ⟨rfl, rfl, hr⟩ := (get_scattered hq).mp hne
    have hr : r.val < 10 := hr
    rw [get_scattered_eq hr]
    have hlt : 100 + 4096 * r.val < FSSIZE := by simp only [FSSIZE]; omega
    exact ⟨by change 68 ≤ _; omega, hlt, (used_scattered hlt).mpr (.inl (by omega))⟩
  · have hle : 68 ≤ b := hle
    have hlt : b < FSSIZE := hlt
    have hmod : b % 4096 = 100 := by
      rcases (used_scattered hlt).mp hu with h | h
      · exact h
      · omega
    have hr : b / 4096 < 10 := by simp only [FSSIZE] at hlt; omega
    refine ⟨((1, ⟨b / 4096, by simp only [NDIRECT]; omega⟩), []), Support.Forest.valid_nil _ _, ?_⟩
    rw [get_scattered_eq hr]
    change 100 + 4096 * (b / 4096) = b
    omega

theorem consistent_scattered : Consistent mkfsSb scattered := by
  refine ⟨owned_scattered, fun b hb hlt => (used_scattered hlt).mpr (.inr hb), fun i => ?_, fun i hv => ?_,
    fun i => ?_, fun i hf hl => ?_, fun i hf => ?_, fun dp off _ _ _ _ _ hdir => ?_, rfl⟩
  · intro bn q hq hv hlt
    rw [get_scattered hv]
    by_cases hi : i = 1
    · subst hi
      have hbn : bn < NDIRECT := by
        have hsize : (scattered.current 1).size = 5120 := rfl
        simp only [hsize, BSIZE, NDIRECT] at *
        omega
      have hpath : placeOf 1 bn = some ((1, ⟨bn, by omega⟩), []) := by
        rw [placeOf, bmapPath, dif_pos hbn]
        rfl
      rw [hpath] at hq
      cases hq
      exact ⟨rfl, rfl, hbn⟩
    · have hsize : (scattered.current i).size = 0 := by
        simp [Volume.current, scattered, hi]
      omega
  · by_cases hi : i = 1
    · subst hi; exact ⟨rfl, by decide⟩
    · simp [scattered, hi] at hv
  · by_cases hi : i = 1
    · subst hi; decide
    · simp [scattered, hi]
  · by_cases hi : i = 1
    · subst hi; decide
    · simp [scattered, hi] at hf
  · by_cases hi : i = 1
    · subst hi; decide
    · simp [scattered, hi] at hf
  · exfalso
    simp only [scattered] at hdir
    split at hdir <;> cases hdir

/-- Overwriting a byte of the file logs its one block. -/
theorem transaction_fits_iff_byte : ∃ fs', fileChunk mkfsSb scattered 1 [7] 0 = .ok (1, fs') ∧
    writeCost mkfsSb scattered 1 0 1 = 1 ∧ fs'.logged.toFinset.card ≤ MAXOPBLOCKS := by
  obtain ⟨fs', h, -⟩ : ∃ fs', fileChunk mkfsSb scattered 1 [7] 0 = .ok (1, fs') ∧ True := by
    decide +kernel
  have hcost : writeCost mkfsSb scattered 1 0 1 = 1 := by decide +kernel
  obtain ⟨hchunk, -, -⟩ := transaction_fits_iff consistent_scattered
  refine ⟨fs', h, hcost, (hchunk 1 [7] 0 1 fs' h).mpr fun _ => ?_⟩
  change writeCost mkfsSb scattered 1 0 1 ≤ MAXOPBLOCKS
  rw [hcost]
  decide

/-- Closing the file logs eleven blocks: ten bitmap blocks and the block of the inode. -/
theorem transaction_too_big : Consistent mkfsSb scattered ∧
    ∃ f' fs', fileclose mkfsSb scattered ⟨.inode, 1, true, true, 1, 0⟩ = .ok (f', fs') ∧
      fs'.logged.toFinset.card = 11 := by
  obtain ⟨r, h⟩ : ∃ r, fileclose mkfsSb scattered ⟨.inode, 1, true, true, 1, 0⟩ = .ok r ∧
      r.2.logged.toFinset.card = 11 := by decide +kernel
  exact ⟨consistent_scattered, r.1, r.2, h⟩

end Xv6.Fs
