import Xv6.Param
import Xv6.Support.Bits

/-!
# Fs — blocks (`fs.c`)

The blocks of the disk, as the buffer cache shows them, and the free bitmap in the blocks from
`bmapstart` on.  `balloc` takes the first block whose bit is clear and zeroes it; `bfree` clears a
bit and panics when it is clear already.  Every block a function changes it passes to `log_write`;
`logged` is the list of these, the latest first.

The inodes on the disk are kept decoded (`dinode`), beside the copies in the inode cache
(`inode`), one for each inode number.
-/

namespace Xv6.Fs

open Support (Bytes getBit setBit clearBit)

/-- `struct superblock`, without `nblocks`, which the kernel prints and does not use. -/
structure Superblock where
  size : Nat
  ninodes : Nat
  nlog : Nat
  logstart : Nat
  inodestart : Nat
  bmapstart : Nat
  /-- a `uint` -/
  size_lt : size < 2 ^ 32
  /-- the inode blocks end where the bitmap begins -/
  inodes_le : inodestart + ninodes / IPB + 1 ≤ bmapstart

/-- The superblock `mkfs` writes. -/
def mkfsSb : Superblock where
  size := FSSIZE
  ninodes := 200
  nlog := LOGSIZE
  logstart := 2
  inodestart := 2 + LOGSIZE
  bmapstart := 2 + LOGSIZE + (200 / IPB + 1)
  size_lt := by decide
  inodes_le := by decide

/-- Block containing inode i -/
def Superblock.iblock (sb : Superblock) (i : Nat) : Nat := i / IPB + sb.inodestart

/-- Block of free map containing bit for block b -/
def Superblock.bblock (sb : Superblock) (b : Nat) : Nat := b / BPB + sb.bmapstart

/-- The first data block: `nmeta` of `mkfs`. -/
def Superblock.nmeta (sb : Superblock) : Nat := sb.bmapstart + (sb.size / BPB + 1)

/-- The `type` of an inode: 0, `T_DIR`, `T_FILE` or `T_DEV`. -/
inductive FileType where
  | free
  | dir
  | file
  | dev
  deriving DecidableEq

/-- `struct dinode` -/
structure Dinode where
  type : FileType
  major : Int
  minor : Int
  nlink : Int
  size : Nat
  addrs : Fin (NDIRECT + 3) → Nat

/-- `struct inode`: what the cache adds to the copy of the disk inode. -/
structure Inode extends Dinode where
  ref : Int
  valid : Bool

/-- The disk, the inodes on it, the inode cache, and the blocks logged since `begin_op`. -/
structure Volume where
  disk : Nat → Bytes
  dinode : Nat → Dinode
  inode : Nat → Inode
  logged : List Nat

/-- The block is changed and passed to `log_write`. -/
def Volume.write (fs : Volume) (b : Nat) (v : Bytes) : Volume :=
  { fs with disk := Function.update fs.disk b v, logged := b :: fs.logged }

/-- The bit of block `b`. -/
def Volume.used (sb : Superblock) (fs : Volume) (b : Nat) : Bool := getBit (fs.disk (sb.bblock b)) (b % BPB)

/-- Zero a block. -/
def bzero (fs : Volume) (b : Nat) : Volume := fs.write b fun _ => 0

/-- The first of `n` blocks from `b` on whose bit is clear. -/
def findFree (sb : Superblock) (fs : Volume) : Nat → Nat → Option Nat
  | 0, _ => none
  | n + 1, b => if fs.used sb b then findFree sb fs n (b + 1) else some b

/-- Allocate a zeroed disk block.  The two loops visit the blocks in order. -/
def balloc (sb : Superblock) (fs : Volume) : Except Stop (Nat × Volume) :=
  match findFree sb fs sb.size 0 with
  | none => .error (.panic "balloc: out of blocks")
  | some b => .ok (b, bzero (fs.write (sb.bblock b) (setBit (fs.disk (sb.bblock b)) (b % BPB))) b)

/-- Free a disk block. -/
def bfree (sb : Superblock) (fs : Volume) (b : Nat) : Except Stop Volume :=
  if fs.used sb b then
    .ok (fs.write (sb.bblock b) (clearBit (fs.disk (sb.bblock b)) (b % BPB)))
  else .error (.panic "freeing free block")

/-! ### The bitmap -/

section

variable {sb : Superblock} {fs fs' : Volume} {b c : Nat}

section

variable (b) (v : Bytes)

@[simp] theorem write_dinode : (fs.write b v).dinode = fs.dinode := rfl

@[simp] theorem write_inode : (fs.write b v).inode = fs.inode := rfl

@[simp] theorem write_logged : (fs.write b v).logged = b :: fs.logged := rfl

@[simp] theorem write_disk_self : (fs.write b v).disk b = v := Function.update_self ..

end

theorem write_disk_of_ne (v : Bytes) (h : c ≠ b) : (fs.write b v).disk c = fs.disk c :=
  Function.update_of_ne h ..

/-- The bitmap lies below the data blocks. -/
theorem bblock_lt_nmeta (h : b < sb.size) : sb.bblock b < sb.nmeta := by
  have := Nat.div_le_div_right (c := BPB) (Nat.le_of_lt h)
  rw [Superblock.bblock, Superblock.nmeta]
  omega

theorem bmapstart_le_bblock (sb : Superblock) (b : Nat) : sb.bmapstart ≤ sb.bblock b :=
  Nat.le_add_left ..

theorem iblock_lt_bmapstart (h : b < sb.ninodes) : sb.iblock b < sb.bmapstart := by
  have := Nat.div_le_div_right (c := IPB) (Nat.le_of_lt h)
  have := sb.inodes_le
  rw [Superblock.iblock]
  omega

theorem nmeta_pos (sb : Superblock) : 0 < sb.nmeta :=
  Nat.lt_of_lt_of_le (Nat.succ_pos _) (Nat.le_add_left ..)

/-- A bit is found under one block only. -/
theorem eq_of_bblock (h : sb.bblock c = sb.bblock b) (hm : c % BPB = b % BPB) : c = b := by
  rw [Superblock.bblock, Superblock.bblock] at h
  rw [← Nat.div_add_mod c BPB, ← Nat.div_add_mod b BPB, hm, Nat.add_right_cancel h]

/-- A write outside the bitmap changes no bit. -/
theorem used_write (v : Bytes) (h : sb.nmeta ≤ b) (hc : c < sb.size) :
    (fs.write b v).used sb c = fs.used sb c := by
  have hne : sb.bblock c ≠ b := (Nat.lt_of_lt_of_le (bblock_lt_nmeta hc) h).ne
  rw [Volume.used, Volume.used, write_disk_of_ne v hne]

theorem used_setBit (fs : Volume) (b c : Nat) :
    (fs.write (sb.bblock b) (setBit (fs.disk (sb.bblock b)) (b % BPB))).used sb c =
      (decide (c = b) || fs.used sb c) := by
  rw [Volume.used, Volume.used]
  by_cases h : sb.bblock c = sb.bblock b
  · have hiff : c % BPB = b % BPB ↔ c = b := ⟨eq_of_bblock h, fun e => e ▸ rfl⟩
    rw [h, write_disk_self, Support.getBit_setBit]
    simp only [hiff]
  · have hne : c ≠ b := fun e => h (e ▸ rfl)
    rw [write_disk_of_ne _ h]
    simp [hne]

theorem used_clearBit (fs : Volume) (b c : Nat) :
    (fs.write (sb.bblock b) (clearBit (fs.disk (sb.bblock b)) (b % BPB))).used sb c =
      (!decide (c = b) && fs.used sb c) := by
  rw [Volume.used, Volume.used]
  by_cases h : sb.bblock c = sb.bblock b
  · have hiff : c % BPB = b % BPB ↔ c = b := ⟨eq_of_bblock h, fun e => e ▸ rfl⟩
    rw [h, write_disk_self, Support.getBit_clearBit]
    simp only [hiff]
  · have hne : c ≠ b := fun e => h (e ▸ rfl)
    rw [write_disk_of_ne _ h]
    simp [hne]

/-- The search returns the first clear bit of its range. -/
theorem findFree_some {n : Nat} (h : findFree sb fs n b = some c) :
    c < b + n ∧ fs.used sb c = false ∧ ∀ d, b ≤ d → d < c → fs.used sb d = true := by
  induction n generalizing b with
  | zero => cases h
  | succ n ih =>
    rw [findFree] at h
    split at h
    · rename_i hu
      obtain ⟨hc, hf, hd⟩ := ih h
      refine ⟨by omega, hf, fun d hb hdc => ?_⟩
      rcases Nat.eq_or_lt_of_le hb with rfl | hb
      · exact hu
      · exact hd d hb hdc
    · rename_i hu
      cases h
      exact ⟨by omega, by simpa using hu, fun d hb hd => absurd hd (by omega)⟩

/-- What `balloc` has done: the first clear bit, of block `b`, is set, and `b` is zeroed. -/
structure Balloc (sb : Superblock) (fs fs' : Volume) (b : Nat) : Prop where
  lt : b < sb.size
  first : ∀ c < b, fs.used sb c = true
  clear : fs.used sb b = false
  eq : fs' = bzero (fs.write (sb.bblock b) (setBit (fs.disk (sb.bblock b)) (b % BPB))) b

theorem balloc_ok (h : balloc sb fs = .ok (b, fs')) : Balloc sb fs fs' b := by
  rw [balloc] at h
  split at h
  · cases h
  · rename_i c hc
    cases h
    obtain ⟨hlt, hf, hd⟩ := findFree_some hc
    exact ⟨by simpa using hlt, fun d hd' => hd d (Nat.zero_le d) hd', hf, rfl⟩

namespace Balloc

section

variable (h : Balloc sb fs fs' b)
include h

theorem inode : fs'.inode = fs.inode := by rw [h.eq]; rfl

theorem dinode : fs'.dinode = fs.dinode := by rw [h.eq]; rfl

theorem logged : fs'.logged = b :: sb.bblock b :: fs.logged := by
  rw [h.eq]; rfl

theorem zeroed : fs'.disk b = fun _ => 0 := by
  rw [h.eq, bzero, write_disk_self]

theorem disk (hc : sb.nmeta ≤ c) (hne : c ≠ b) : fs'.disk c = fs.disk c := by
  have hm : c ≠ sb.bblock b := (Nat.lt_of_lt_of_le (bblock_lt_nmeta h.lt) hc).ne'
  rw [h.eq, bzero, write_disk_of_ne _ hne, write_disk_of_ne _ hm]

theorem used (hb : sb.nmeta ≤ b) (hc : c < sb.size) :
    fs'.used sb c = (decide (c = b) || fs.used sb c) := by
  rw [h.eq, bzero, used_write _ hb hc, used_setBit]

end

end Balloc

theorem bfree_disk (h : bfree sb fs b = .ok fs') (hb : b < sb.size) (hc : sb.nmeta ≤ c) :
    fs'.disk c = fs.disk c := by
  have hm : c ≠ sb.bblock b := (Nat.lt_of_lt_of_le (bblock_lt_nmeta hb) hc).ne'
  rw [bfree] at h
  split at h
  · cases h
    exact write_disk_of_ne _ hm
  · cases h

end

end Xv6.Fs
