import Xv6.Fs.Blocks

/-!
# Fs — inodes and their contents (`fs.c`)

`bmap` walks from one of the 13 entries of `addrs` through up to three index blocks and allocates
what is missing on the way.  Which entry, and which index at each level, is `bmapPath`; the walk
itself is the same at every level (`indexEntry`).  An index beyond the 128 entries of a block is
out of the bounds of the array, and the walk stops there.

`itrunc` frees the tree under each entry.  Its loops nest once more for each level of index blocks,
and are one function of the depth here (`freeTree`).

The inode cache has an entry for every inode number; that the kernel has only `NINODE` of them at
a time, and panics when they are all in use, is left out.
-/

namespace Xv6.Fs

open Support (getWord setWord putBytes)

/-- Change the cached inode `i`. -/
def Volume.setInode (fs : Volume) (i : Nat) (f : Inode → Inode) : Volume :=
  { fs with inode := Function.update fs.inode i (f (fs.inode i)) }

/-- `ip->addrs[r] = b` -/
def Volume.setAddr (fs : Volume) (i : Nat) (r : Fin (NDIRECT + 3)) (b : Nat) : Volume :=
  fs.setInode i fun ip => { ip with addrs := Function.update ip.addrs r b }

/-- Copy a modified in-memory inode to disk. -/
def iupdate (sb : Superblock) (fs : Volume) (i : Nat) : Volume :=
  { fs with
    dinode := Function.update fs.dinode i (fs.inode i).toDinode
    logged := sb.iblock i :: fs.logged }

/-! ### `bmap` -/

/-- Entry `r` of `addrs`, allocated if it is zero. -/
def rootEntry (sb : Superblock) (fs : Volume) (i : Nat) (r : Fin (NDIRECT + 3)) :
    Except Stop (Nat × Volume) :=
  if (fs.inode i).addrs r = 0 then do
    let (b, fs) ← balloc sb fs
    .ok (b, fs.setAddr i r b)
  else .ok ((fs.inode i).addrs r, fs)

/-- Entry `x` of the index block `a`, allocated if it is zero. -/
def indexEntry (sb : Superblock) (fs : Volume) (a x : Nat) : Except Stop (Nat × Volume) :=
  if NINDIRECT ≤ x then .error .fault
  else if getWord (fs.disk a) x = 0 then do
    let (b, fs) ← balloc sb fs
    .ok (b, fs.write a (setWord (fs.disk a) x b))
  else .ok (getWord (fs.disk a) x, fs)

/-- The entry of `addrs` for file block `bn`, and the index at each level below it.  In the triple
region the middle index comes from `bn & (NINDIRECT*NINDIRECT)`. -/
def bmapPath (bn : Nat) : Option (Fin (NDIRECT + 3) × List Nat) :=
  if h : bn < NDIRECT then some (⟨bn, by omega⟩, [])
  else
    let bn := bn - NDIRECT
    if bn < NINDIRECT then some (⟨NDIRECT, by decide⟩, [bn])
    else
      let bn := bn - NINDIRECT
      if bn < NINDIRECT * NINDIRECT then
        some (⟨NDIRECT + 1, by decide⟩, [bn / NINDIRECT, bn % NINDIRECT])
      else
        let bn := bn - NINDIRECT * NINDIRECT
        if bn < NINDIRECT * NINDIRECT * NINDIRECT then
          let t := bn / (NINDIRECT * NINDIRECT)
          let bn := bn &&& (NINDIRECT * NINDIRECT)
          some (⟨NDIRECT + 2, by decide⟩, [t, bn / NINDIRECT, bn % NINDIRECT])
        else none

/-- From the block `a` down through the given indices. -/
def walk (sb : Superblock) : List Nat → Nat → Volume → Except Stop (Nat × Volume)
  | [], a, fs => .ok (a, fs)
  | x :: xs, a, fs => do
    let (b, fs) ← indexEntry sb fs a x
    walk sb xs b fs

/-- Return the disk block address of the nth block in inode ip. -/
def bmap (sb : Superblock) (fs : Volume) (i bn : Nat) : Except Stop (Nat × Volume) :=
  match bmapPath bn with
  | none => .error (.panic "bmap: out of range")
  | some (r, xs) => do
    let (a, fs) ← rootEntry sb fs i r
    walk sb xs a fs

/-! ### `itrunc` -/

/-- The levels of index blocks under entry `r` of `addrs`. -/
def rootDepth (r : Fin (NDIRECT + 3)) : Nat := r.val + 1 - NDIRECT

/-- Free the block `a`, `d` levels above the data, after what its entries name. -/
def freeTree (sb : Superblock) : Nat → Nat → Volume → Except Stop Volume
  | 0, a, fs => bfree sb fs a
  | d + 1, a, fs => do
    let fs ← (List.range NINDIRECT).foldlM
      (fun fs j =>
        if getWord (fs.disk a) j = 0 then .ok fs else freeTree sb d (getWord (fs.disk a) j) fs) fs
    bfree sb fs a

/-- Free what entry `r` of `addrs` names, and clear it. -/
def freeRoot (sb : Superblock) (i : Nat) (fs : Volume) (r : Fin (NDIRECT + 3)) :
    Except Stop Volume :=
  if (fs.inode i).addrs r = 0 then .ok fs
  else do
    let fs ← freeTree sb (rootDepth r) ((fs.inode i).addrs r) fs
    .ok (fs.setAddr i r 0)

/-- Truncate inode (discard contents). -/
def itrunc (sb : Superblock) (fs : Volume) (i : Nat) : Except Stop Volume := do
  let fs ← (List.finRange (NDIRECT + 3)).foldlM (freeRoot sb i) fs
  .ok (iupdate sb (fs.setInode i ({ · with size := 0 })) i)

/-! ### Reading and writing -/

/-- The loop of `readi`; at most `fuel` blocks. -/
def readLoop (sb : Superblock) (i : Nat) : Nat → Nat → Nat → Volume →
    Except Stop (List UInt8 × Volume)
  | 0, _, _, fs => .ok ([], fs)
  | fuel + 1, n, off, fs =>
    if n = 0 then .ok ([], fs)
    else do
      let (a, fs) ← bmap sb fs i (off / BSIZE)
      let m := min n (BSIZE - off % BSIZE)
      let got := (List.range m).map fun j => fs.disk a (off % BSIZE + j)
      let (rest, fs) ← readLoop sb i fuel (n - m) (off + m) fs
      .ok (got ++ rest, fs)

/-- Read data from inode.  The only device is the console, which has `input` to give; `none` is
the result -1. -/
def readi (sb : Superblock) (fs : Volume) (input : List UInt8) (i off n : Nat) :
    Except Stop (Option (List UInt8) × Volume) :=
  let ip := fs.inode i
  if ip.type = .dev then .ok (if ip.major = 1 then some (input.take n) else none, fs)
  else if ip.size < off ∨ (off + n) % 2 ^ 32 < off then .ok (none, fs)
  else do
    let n := if ip.size < off + n then ip.size - off else n
    let (got, fs) ← readLoop sb i n n off fs
    .ok (some got, fs)

/-- The loop of `writei`; at most `fuel` blocks. -/
def writeLoop (sb : Superblock) (i : Nat) : Nat → Nat → List UInt8 → Volume → Except Stop Volume
  | 0, _, _, fs => .ok fs
  | fuel + 1, off, src, fs =>
    if src.length = 0 then .ok fs
    else do
      let (a, fs) ← bmap sb fs i (off / BSIZE)
      let m := min src.length (BSIZE - off % BSIZE)
      let fs := fs.write a (putBytes (fs.disk a) (off % BSIZE) (src.take m))
      writeLoop sb i fuel (off + m) (src.drop m) fs

/-- Write data to inode.  The console takes whatever it is given. -/
def writei (sb : Superblock) (fs : Volume) (i : Nat) (src : List UInt8) (off : Nat) :
    Except Stop (Int × Volume) :=
  let ip := fs.inode i
  let n := src.length
  if ip.type = .dev then .ok (if ip.major = 1 then n else -1, fs)
  else if ip.size < off ∨ (off + n) % 2 ^ 32 < off then .ok (-1, fs)
  else if MAXFILE * BSIZE < (off + n) % 2 ^ 32 then .ok (-1, fs)
  else do
    let fs ← writeLoop sb i n off src fs
    if 0 < n ∧ (fs.inode i).size < off + n then
      .ok (n, iupdate sb (fs.setInode i ({ · with size := off + n })) i)
    else .ok (n, fs)

/-- Lock the given inode.  Reads the inode from disk if necessary. -/
def ilock (fs : Volume) (i : Nat) : Except Stop Volume :=
  let ip := fs.inode i
  if ip.ref < 1 then .error (.panic "ilock")
  else if ip.valid then .ok fs
  else if (fs.dinode i).type = .free then .error (.panic "ilock: no type")
  else .ok (fs.setInode i fun ip => { ip with toDinode := fs.dinode i, valid := true })

end Xv6.Fs
