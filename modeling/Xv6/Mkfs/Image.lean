import Xv6.Fs.Files

/-!
# Mkfs — the image and how it is written (`mkfs.c`)

`mkfs` runs on the host and writes the file system the kernel boots from, sector by sector.  It
takes blocks and inodes in order and never frees any, keeps no free map until the end, and knows
the direct blocks and the single indirect block of a file only.  The array `indirect` of `iappend`
has `NINDIRECT` entries, and the assertion before it lets the index go on to `MAXFILE`: an index
beyond the array is a `Stop.fault`.  A failed assertion and an `exit(1)` are a `Stop.panic` with the
text of the assertion or of the `perror`.

The integers of a `struct dinode` are stored in intel byte order, which is that of `Support.Words`;
`xint` and `xshort` are then the identity.
-/

namespace Xv6.Mkfs

open Support (Bytes getWord setWord putBytes setBit ofWords)
open Fs (mkfsSb direntOf ROOTINO SLASH)

/-! ### Inodes on the disk -/

/-- `struct dinode`, with the numbers as they are stored. -/
structure Dinode where
  type : Nat
  major : Nat
  minor : Nat
  nlink : Nat
  size : Nat
  addrs : Fin (NDIRECT + 3) → Nat

/-- The 16 words of a `struct dinode`; two `short`s share a word. -/
def Dinode.word (d : Dinode) : Nat → Nat
  | 0 => d.type + 2 ^ 16 * d.major
  | 1 => d.minor + 2 ^ 16 * d.nlink
  | 2 => d.size
  | w + 3 => if h : w < NDIRECT + 3 then d.addrs ⟨w, h⟩ else 0

/-- The `k`th `struct dinode` of a block. -/
def getDinode (buf : Bytes) (k : Nat) : Dinode where
  type := getWord buf (16 * k) % 2 ^ 16
  major := getWord buf (16 * k) / 2 ^ 16
  minor := getWord buf (16 * k + 1) % 2 ^ 16
  nlink := getWord buf (16 * k + 1) / 2 ^ 16
  size := getWord buf (16 * k + 2)
  addrs := fun r => getWord buf (16 * k + (r.val + 3))

/-- A block with its `k`th `struct dinode` replaced. -/
def putDinode (buf : Bytes) (k : Nat) (d : Dinode) : Bytes := fun j =>
  if j / 64 = k then ofWords d.word (j % 64) else buf j

/-- `T_DIR` -/
abbrev T_DIR : Nat := 1

/-- `T_FILE` -/
abbrev T_FILE : Nat := 2

/-! ### Sectors -/

/-- The image file, and the counters from which inodes and blocks are taken. -/
structure Image where
  sect : Nat → Bytes
  freeinode : Nat
  freeblock : Nat

/-- `wsect` -/
def Image.wsect (img : Image) (sec : Nat) (buf : Bytes) : Image :=
  { img with sect := Function.update img.sect sec buf }

/-- The file has `FSSIZE` sectors; a read beyond them comes back short. -/
def Image.rsect (img : Image) (sec : Nat) : Except Stop Bytes :=
  if sec < FSSIZE then .ok (img.sect sec) else .error (.panic "read")

def winode (img : Image) (inum : Nat) (ip : Dinode) : Except Stop Image := do
  let buf ← img.rsect (mkfsSb.iblock inum)
  .ok (img.wsect (mkfsSb.iblock inum) (putDinode buf (inum % IPB) ip))

def rinode (img : Image) (inum : Nat) : Except Stop Dinode := do
  let buf ← img.rsect (mkfsSb.iblock inum)
  .ok (getDinode buf (inum % IPB))

/-- The inode `ialloc` writes. -/
def newDinode (type : Nat) : Dinode where
  type := type
  major := 0
  minor := 0
  nlink := 1
  size := 0
  addrs := fun _ => 0

def ialloc (img : Image) (type : Nat) : Except Stop (Nat × Image) := do
  let inum := img.freeinode
  let img ← winode { img with freeinode := inum + 1 } inum (newDinode type)
  .ok (inum, img)

/-- The loop of `balloc`: the bits of the first `used` blocks. -/
def markLoop : Nat → Bytes
  | 0 => fun _ => 0
  | i + 1 => setBit (markLoop i) i

/-- Write the bitmap, which is one block here. -/
def balloc (img : Image) (used : Nat) : Except Stop Image :=
  if used < BSIZE * 8 then .ok (img.wsect mkfsSb.bmapstart (markLoop used))
  else .error (.panic "used < BSIZE*8")

/-! ### `iappend` -/

/-- `din.addrs[r]`, taken from `freeblock` if it is zero. -/
def takeAddr (img : Image) (din : Dinode) (r : Fin (NDIRECT + 3)) : Dinode × Image :=
  if din.addrs r = 0 then
    ({ din with addrs := Function.update din.addrs r img.freeblock },
      { img with freeblock := img.freeblock + 1 })
  else (din, img)

/-- `indirect[x]` of the block `a`, taken from `freeblock` if it is zero. -/
def takeIndirect (img : Image) (a x : Nat) : Except Stop (Nat × Image) := do
  let indirect ← img.rsect a
  if NINDIRECT ≤ x then .error .fault
  else if getWord indirect x = 0 then
    .ok (img.freeblock, { img with freeblock := img.freeblock + 1 }.wsect a
      (setWord indirect x img.freeblock))
  else .ok (getWord indirect x, img)

theorem direct_lt {fbn : Nat} (h : fbn < NDIRECT) : fbn < NDIRECT + 3 := by omega

theorem single_lt : NDIRECT < NDIRECT + 3 := by decide

/-- The sector of file block `fbn`, with the inode and the image after what was missing is taken. -/
def fileBlock (img : Image) (din : Dinode) (fbn : Nat) : Except Stop (Nat × Dinode × Image) :=
  if h : fbn < NDIRECT then
    let r : Fin (NDIRECT + 3) := ⟨fbn, direct_lt h⟩
    let (din, img) := takeAddr img din r
    .ok (din.addrs r, din, img)
  else do
    let r : Fin (NDIRECT + 3) := ⟨NDIRECT, single_lt⟩
    let (din, img) := takeAddr img din r
    let (x, img) ← takeIndirect img (din.addrs r) (fbn - NDIRECT)
    .ok (x, din, img)

/-- The loop of `iappend`, with `p` left to append at `off`; at most `fuel` blocks. -/
def iappendLoop : Nat → Nat → List UInt8 → Dinode → Image → Except Stop (Nat × Dinode × Image)
  | 0, off, _, din, img => .ok (off, din, img)
  | fuel + 1, off, p, din, img =>
    if p.length = 0 then .ok (off, din, img)
    else if MAXFILE ≤ off / BSIZE then .error (.panic "fbn < MAXFILE")
    else do
      let (x, din, img) ← fileBlock img din (off / BSIZE)
      let n1 := min p.length ((off / BSIZE + 1) * BSIZE - off)
      let buf ← img.rsect x
      let img := img.wsect x (putBytes buf (off - off / BSIZE * BSIZE) (p.take n1))
      iappendLoop fuel (off + n1) (p.drop n1) din img

def iappend (img : Image) (inum : Nat) (p : List UInt8) : Except Stop Image := do
  let din ← rinode img inum
  let (off, din, img) ← iappendLoop p.length din.size p din img
  winode img inum { din with size := off }

/-! ### `main` -/

/-- A file of the host: its name on the command line, and its bytes. -/
structure HostFile where
  name : List UInt8
  data : List UInt8

/-- The byte `_`. -/
abbrev UNDERSCORE : UInt8 := 95

/-- Skip leading _ in name when writing to file system. -/
def HostFile.fsName (f : HostFile) : List UInt8 :=
  if f.name.head? = some UNDERSCORE then f.name.drop 1 else f.name

/-- The loop that reads the file and appends what each `read` returns; at most `fuel` reads. -/
def copyLoop (inum : Nat) : Nat → List UInt8 → Image → Except Stop Image
  | 0, _, img => .ok img
  | fuel + 1, data, img =>
    if data.length = 0 then .ok img
    else do
      let img ← iappend img inum (data.take BSIZE)
      copyLoop inum fuel (data.drop BSIZE) img

/-- One round of the loop over the files. -/
def addFile (img : Image) (f : HostFile) : Except Stop Image :=
  if SLASH ∈ f.name then .error (.panic "index(argv[i], '/') == 0")
  else do
    let (inum, img) ← ialloc img T_FILE
    let img ← iappend img ROOTINO (direntOf f.fsName inum)
    copyLoop inum f.data.length f.data img

/-- The words of `struct superblock`. -/
def superWords : List Nat :=
  [mkfsSb.size, mkfsSb.size - mkfsSb.nmeta, mkfsSb.ninodes, mkfsSb.nlog, mkfsSb.logstart,
    mkfsSb.inodestart, mkfsSb.bmapstart]

/-- The image before the first inode: zeroes, and the superblock. -/
def blank : Image where
  sect := Function.update (fun _ _ => 0) 1 (ofWords (superWords.getD · 0))
  freeinode := 1
  freeblock := mkfsSb.nmeta

/-- fix size of root inode dir -/
def fixRoot (img : Image) : Except Stop Image := do
  let din ← rinode img ROOTINO
  winode img ROOTINO { din with size := (din.size / BSIZE + 1) * BSIZE }

/-- The root directory, with the entries `.` and `..`. -/
def makeRoot (img : Image) : Except Stop Image := do
  let (rootino, img) ← ialloc img T_DIR
  if rootino ≠ ROOTINO then .error (.panic "rootino == ROOTINO")
  else do
    let img ← iappend img rootino (direntOf [46] rootino)
    iappend img rootino (direntOf [46, 46] rootino)

/-- `mkfs fs.img files...` -/
def mkfs (files : List HostFile) : Except Stop Image := do
  let img ← makeRoot blank
  let img ← files.foldlM addFile img
  let img ← fixRoot img
  balloc img img.freeblock

/-! ### What the kernel sees -/

/-- The inode the kernel finds under a number.  The inode blocks end before the bitmap. -/
def Image.dinode (img : Image) (i : Nat) : Dinode :=
  getDinode (img.sect (mkfsSb.iblock i)) (i % IPB)

/-- The number of inodes that have room in the inode blocks. -/
abbrev INODES : Nat := (mkfsSb.bmapstart - mkfsSb.inodestart) * IPB

/-- The `type` of an inode, as the kernel compares it. -/
def fileType : Nat → Fs.FileType
  | 1 => .dir
  | 2 => .file
  | 3 => .dev
  | _ => .free

/-- An inode as the kernel reads it. -/
def Dinode.read (d : Dinode) : Fs.Dinode where
  type := fileType d.type
  major := Fs.short d.major
  minor := Fs.short d.minor
  nlink := Fs.short d.nlink
  size := d.size
  addrs := d.addrs

/-- The volume the kernel starts with: nothing is cached. -/
def Image.volume (img : Image) : Fs.Volume where
  disk := img.sect
  dinode := fun i => if i < INODES then (img.dinode i).read else ⟨.free, 0, 0, 0, 0, fun _ => 0⟩
  inode := fun _ => ⟨⟨.free, 0, 0, 0, 0, fun _ => 0⟩, 0, false⟩
  logged := []

end Xv6.Mkfs
