import Xv6.Fs.Inode

/-!
# Fs — references, directories, paths and files (`fs.c`, `file.c`, `sysfile.c`)

The operations that run between a `begin_op` and an `end_op` and end in an `iput`: closing a file,
one chunk of a `write`, and `unlink` with the path lookup it begins with.  They are modelled as one
process runs them, with no other in between.  A sleep lock matters then only when the process
already holds it (`Stop.hang`).

A path is the bytes of the string, without its NUL, and a name is at most `DIRSIZ` bytes.  What a
directory holds is read through `readi`, which is where `bmap` would allocate a missing block.
-/

namespace Xv6.Fs

/-! ### References to inodes -/

/-- Find the inode with number inum and return the in-memory copy.  An entry without references
is taken anew. -/
def iget (fs : Volume) (i : Nat) : Volume :=
  fs.setInode i fun ip =>
    if 0 < ip.ref then { ip with ref := ip.ref + 1 } else { ip with ref := 1, valid := false }

/-- The first of `n` inodes from `i` on that is free on the disk. -/
def findInode (fs : Volume) : Nat → Nat → Option Nat
  | 0, _ => none
  | n + 1, i => if (fs.dinode i).type = .free then some i else findInode fs n (i + 1)

/-- The inode that `ialloc` writes. -/
def blankDinode (type : FileType) : Dinode := ⟨type, 0, 0, 0, 0, fun _ => 0⟩

/-- Allocate an inode.  Mark it as allocated by giving it type type. -/
def ialloc (sb : Superblock) (fs : Volume) (type : FileType) : Except Stop (Nat × Volume) :=
  match findInode fs (sb.ninodes - 1) 1 with
  | none => .error (.panic "ialloc: no inodes")
  | some i =>
    let fs := { fs with
      dinode := Function.update fs.dinode i (blankDinode type)
      logged := sb.iblock i :: fs.logged }
    .ok (i, iget fs i)

/-- Increment reference count for ip. -/
def idup (fs : Volume) (i : Nat) : Volume := fs.setInode i fun ip => { ip with ref := ip.ref + 1 }

/-- inode has no links and no other references: truncate and free. -/
def truncateAndFree (sb : Superblock) (fs : Volume) (i : Nat) : Except Stop Volume := do
  let fs ← itrunc sb fs i
  let fs := iupdate sb (fs.setInode i ({ · with type := .free })) i
  .ok (fs.setInode i ({ · with valid := false }))

/-- The test of `iput`: no link, and no reference but the one that is dropped. -/
def Volume.Goes (fs : Volume) (i : Nat) : Prop :=
  (fs.inode i).valid = true ∧ (fs.inode i).nlink = 0 ∧ (fs.inode i).ref = 1

instance (fs : Volume) (i : Nat) : Decidable (fs.Goes i) := inferInstanceAs (Decidable (_ ∧ _))

/-- `ip->ref--` -/
def Volume.unref (fs : Volume) (i : Nat) : Volume :=
  fs.setInode i fun ip => { ip with ref := ip.ref - 1 }

/-- Drop a reference to an in-memory inode. -/
def iput (sb : Superblock) (fs : Volume) (i : Nat) : Except Stop Volume :=
  if fs.Goes i then do
    let fs ← truncateAndFree sb fs i
    .ok (fs.unref i)
  else .ok (fs.unref i)

/-- Common idiom: unlock, then put. -/
def iunlockput (sb : Superblock) (fs : Volume) (i : Nat) : Except Stop Volume :=
  if (fs.inode i).ref < 1 then .error (.panic "iunlock") else iput sb fs i

/-- The blocks an operation logs are counted from its `begin_op`. -/
def beginOp (fs : Volume) : Volume := { fs with logged := [] }

/-! ### Directories and paths -/

/-- `sizeof(struct dirent)` -/
abbrev DIRENT : Nat := 16

/-- `de.inum` -/
def direntInum (de : List UInt8) : Nat := (de.getD 0 0).toNat + 256 * (de.getD 1 0).toNat

/-- `namecmp(s, t) == 0` -/
def sameName (s t : List UInt8) : Bool :=
  (s.take DIRSIZ).takeWhile (· ≠ 0) = (t.take DIRSIZ).takeWhile (· ≠ 0)

/-- The loop of `dirlookup` from offset `off` on; `fuel` counts the entries left. -/
def dirLoop (sb : Superblock) (dp : Nat) (name : List UInt8) : Nat → Nat → Volume →
    Except Stop (Option (Nat × Nat) × Volume)
  | 0, _, fs => .ok (none, fs)
  | fuel + 1, off, fs =>
    if off < (fs.inode dp).size then do
      let (de, fs) ← readi sb fs [] dp off DIRENT
      match de with
      | none => .error (.panic "dirlookup read")
      | some de =>
        if de.length ≠ DIRENT then .error (.panic "dirlookup read")
        else if direntInum de ≠ 0 ∧ sameName name (de.drop 2) then
          .ok (some (direntInum de, off), iget fs (direntInum de))
        else dirLoop sb dp name fuel (off + DIRENT) fs
    else .ok (none, fs)

/-- Look for a directory entry in a directory: the inode it names and its offset. -/
def dirlookup (sb : Superblock) (fs : Volume) (dp : Nat) (name : List UInt8) :
    Except Stop (Option (Nat × Nat) × Volume) :=
  if (fs.inode dp).type ≠ .dir then .error (.panic "dirlookup not DIR")
  else dirLoop sb dp name ((fs.inode dp).size / DIRENT + 1) 0 fs

/-- `strncpy`: the bytes of `t` up to its NUL, filled up with NULs to `n` bytes. -/
def strncpy : List UInt8 → Nat → List UInt8
  | _, 0 => []
  | [], n + 1 => List.replicate (n + 1) 0
  | c :: t, n + 1 => if c = 0 then List.replicate (n + 1) 0 else c :: strncpy t n

/-- The bytes of `struct dirent` with the name `name`; `inum` is a `ushort`. -/
def direntOf (name : List UInt8) (inum : Nat) : List UInt8 :=
  UInt8.ofNat (inum % 256) :: UInt8.ofNat (inum / 256 % 256) :: strncpy name DIRSIZ

/-- The loop of `dirlink` from offset `off` on: the offset of an empty entry, or the size; `fuel`
counts the entries left. -/
def dirlinkLoop (sb : Superblock) (dp : Nat) : Nat → Nat → Volume → Except Stop (Nat × Volume)
  | 0, off, fs => .ok (off, fs)
  | fuel + 1, off, fs =>
    if off < (fs.inode dp).size then do
      let (de, fs) ← readi sb fs [] dp off DIRENT
      match de with
      | none => .error (.panic "dirlink read")
      | some de =>
        if de.length ≠ DIRENT then .error (.panic "dirlink read")
        else if direntInum de = 0 then .ok (off, fs)
        else dirlinkLoop sb dp fuel (off + DIRENT) fs
    else .ok (off, fs)

/-- Write a new directory entry (name, inum) into the directory dp. -/
def dirlink (sb : Superblock) (fs : Volume) (dp : Nat) (name : List UInt8) (inum : Nat) :
    Except Stop (Int × Volume) := do
  -- Check that name is not present.
  let (found, fs) ← dirlookup sb fs dp name
  match found with
  | some (ip, _) => do
    let fs ← iput sb fs ip
    .ok (-1, fs)
  | none => do
    let (off, fs) ← dirlinkLoop sb dp ((fs.inode dp).size / DIRENT + 1) 0 fs
    let (n, fs) ← writei sb fs dp (direntOf name inum) off
    if n ≠ DIRENT then .error (.panic "dirlink") else .ok (0, fs)

/-- The write with which `sys_unlink` clears the entry at `off`. -/
def clearEntry (sb : Superblock) (fs : Volume) (dp off : Nat) : Except Stop Volume := do
  let (n, fs) ← writei sb fs dp (List.replicate DIRENT 0) off
  if n ≠ DIRENT then .error (.panic "unlink: writei") else .ok fs

/-- The byte `/`. -/
abbrev SLASH : UInt8 := 47

/-- Copy the next path element from path into name; the path that follows it. -/
def skipelem (path : List UInt8) : Option (List UInt8 × List UInt8) :=
  let path := path.dropWhile (· = SLASH)
  if path = [] then none
  else some ((path.takeWhile (· ≠ SLASH)).take DIRSIZ,
    (path.dropWhile (· ≠ SLASH)).dropWhile (· = SLASH))

/-- The loop of `namex` for `nameiparent`, from the inode `ip` on; `fuel` counts the elements left.
The last element is returned with the inode it is to be looked up in. -/
def namexLoop (sb : Superblock) : Nat → Nat → List UInt8 → Volume →
    Except Stop (Option (Nat × List UInt8) × Volume)
  | 0, _, _, fs => .ok (none, fs)
  | fuel + 1, ip, path, fs =>
    match skipelem path with
    | none => do
      let fs ← iput sb fs ip
      .ok (none, fs)
    | some (name, rest) => do
      let fs ← ilock fs ip
      if (fs.inode ip).type ≠ .dir then do
        let fs ← iunlockput sb fs ip
        .ok (none, fs)
      else if rest = [] then
        -- Stop one level early.
        .ok (some (ip, name), fs)
      else do
        let (next, fs) ← dirlookup sb fs ip name
        let fs ← iunlockput sb fs ip
        match next with
        | none => .ok (none, fs)
        | some (next, _) => namexLoop sb fuel next rest fs

/-- `ROOTINO` -/
abbrev ROOTINO : Nat := 1

/-- `nameiparent`, for a process whose current directory is `cwd`. -/
def nameiparent (sb : Superblock) (fs : Volume) (cwd : Nat) (path : List UInt8) :
    Except Stop (Option (Nat × List UInt8) × Volume) :=
  if path.head? = some SLASH then namexLoop sb (path.length + 1) ROOTINO path (iget fs ROOTINO)
  else namexLoop sb (path.length + 1) cwd path (idup fs cwd)

/-! ### `unlink` -/

/-- The loop of `isdirempty` from offset `off` on; `fuel` counts the entries left. -/
def emptyLoop (sb : Superblock) (dp : Nat) : Nat → Nat → Volume → Except Stop (Bool × Volume)
  | 0, _, fs => .ok (true, fs)
  | fuel + 1, off, fs =>
    if off < (fs.inode dp).size then do
      let (de, fs) ← readi sb fs [] dp off DIRENT
      match de with
      | none => .error (.panic "isdirempty: readi")
      | some de =>
        if de.length ≠ DIRENT then .error (.panic "isdirempty: readi")
        else if direntInum de ≠ 0 then .ok (false, fs)
        else emptyLoop sb dp fuel (off + DIRENT) fs
    else .ok (true, fs)

/-- Is the directory dp empty except for "." and ".." ? -/
def isdirempty (sb : Superblock) (fs : Volume) (dp : Nat) : Except Stop (Bool × Volume) :=
  emptyLoop sb dp ((fs.inode dp).size / DIRENT + 1) (2 * DIRENT) fs

/-- A value kept in a `short`. -/
def short (x : Int) : Int := Int.bmod x (2 ^ 16)

/-- `ip->nlink--; iupdate(ip);` -/
def dropLink (sb : Superblock) (fs : Volume) (i : Nat) : Volume :=
  iupdate sb (fs.setInode i fun ip => { ip with nlink := short (ip.nlink - 1) }) i

/-- What the lookup of `sys_unlink` ends in: no parent, an entry that may not or does not go, a
directory that is not empty, or the entry at `off` of `dp` that names `ip`. -/
inductive Target where
  | none
  | bad (dp : Nat)
  | notEmpty (dp ip : Nat)
  | entry (dp ip off : Nat)

/-- `ip`, found at `off` in `dp`, is locked; a directory must be empty. -/
def unlinkCheck (sb : Superblock) (fs : Volume) (dp ip off : Nat) :
    Except Stop (Target × Volume) :=
  -- `ilock` of the inode that is locked already
  if ip = dp then .error .hang
  else do
    let fs ← ilock fs ip
    if (fs.inode ip).nlink < 1 then .error (.panic "unlink: nlink < 1")
    else if (fs.inode ip).type = .dir then do
      let (empty, fs) ← isdirempty sb fs ip
      .ok (if empty then .entry dp ip off else .notEmpty dp ip, fs)
    else .ok (.entry dp ip off, fs)

/-- The lookup of `sys_unlink`, for a process whose current directory is `cwd`. -/
def unlinkFind (sb : Superblock) (fs : Volume) (cwd : Nat) (path : List UInt8) :
    Except Stop (Target × Volume) := do
  let (found, fs) ← nameiparent sb fs cwd path
  match found with
  | none => .ok (.none, fs)
  | some (dp, name) => do
    let fs ← ilock fs dp
    -- Cannot unlink "." or "..".
    if sameName name [46] ∨ sameName name [46, 46] then .ok (.bad dp, fs)
    else do
      let (found, fs) ← dirlookup sb fs dp name
      match found with
      | none => .ok (.bad dp, fs)
      | some (ip, off) => unlinkCheck sb fs dp ip off

/-- The entry at `off` of `dp`, which names `ip`, is cleared, and the link dropped. -/
def unlinkEntry (sb : Superblock) (fs : Volume) (dp ip off : Nat) : Except Stop Volume := do
  let (n, fs) ← writei sb fs dp (List.replicate DIRENT 0) off
  if n ≠ DIRENT then .error (.panic "unlink: writei")
  else do
    let fs := if (fs.inode ip).type = .dir then dropLink sb fs dp else fs
    let fs ← iunlockput sb fs dp
    iunlockput sb (dropLink sb fs ip) ip

/-- `sys_unlink` -/
def sysUnlink (sb : Superblock) (fs : Volume) (cwd : Nat) (path : List UInt8) :
    Except Stop (Int × Volume) := do
  let (target, fs) ← unlinkFind sb (beginOp fs) cwd path
  match target with
  | .none => .ok (-1, fs)
  | .bad dp => do
    let fs ← iunlockput sb fs dp
    .ok (-1, fs)
  | .notEmpty dp ip => do
    let fs ← iunlockput sb fs ip
    let fs ← iunlockput sb fs dp
    .ok (-1, fs)
  | .entry dp ip off => do
    let fs ← unlinkEntry sb fs dp ip off
    .ok (0, fs)

/-! ### Files -/

/-- `struct file`, an open file of the table. -/
inductive FdType where
  | none
  | pipe
  | inode
  deriving DecidableEq

structure OpenFile where
  type : FdType
  ref : Int
  readable : Bool
  writable : Bool
  ip : Nat
  off : Nat

/-- Close file f.  (Decrement ref count, close when reaches 0.) -/
def fileclose (sb : Superblock) (fs : Volume) (f : OpenFile) : Except Stop (OpenFile × Volume) :=
  if f.ref < 1 then .error (.panic "fileclose")
  else if 0 < f.ref - 1 then .ok ({ f with ref := f.ref - 1 }, fs)
  else if f.type = .inode then do
    let fs ← iput sb (beginOp fs) f.ip
    .ok ({ f with ref := 0, type := .none }, fs)
  else .ok ({ f with ref := 0, type := .none }, fs)

/-- The most bytes `filewrite` and `filepwrite` write in one transaction. -/
abbrev CHUNK : Nat := ((MAXOPBLOCKS - 1 - 1 - 2) / 2) * 512

/-- One round of the loop of `filewrite` or `filepwrite`, at offset `off` of the file, with `src`
left to write. -/
def fileChunk (sb : Superblock) (fs : Volume) (i : Nat) (src : List UInt8) (off : Nat) :
    Except Stop (Int × Volume) := do
  let fs ← ilock (beginOp fs) i
  writei sb fs i (src.take CHUNK) off

/-! ### Reading and writing open files

`src` is the `n` bytes from `addr` on.  What `piperead` and `pipewrite` do is a parameter: they do
not touch the volume.  `none` is the -1 of a read. -/

section

variable (sb : Superblock) (piperead : Nat → Except Stop (Option (List UInt8)))
  (pipewrite : List UInt8 → Except Stop Int)

/-- Read from file f. -/
def fileread (fs : Volume) (input : List UInt8) (f : OpenFile) (n : Nat) :
    Except Stop (Option (List UInt8) × OpenFile × Volume) :=
  if f.readable = false then .ok (none, f, fs)
  else
    match f.type with
    | .pipe => do
      let r ← piperead n
      .ok (r, f, fs)
    | .inode => do
      let fs ← ilock fs f.ip
      let (r, fs) ← readi sb fs input f.ip f.off n
      let got := (r.getD []).length
      .ok (r, if 0 < got then { f with off := (f.off + got) % 2 ^ 32 } else f, fs)
    | .none => .error (.panic "fileread")

/-- Read from file f at off. -/
def filepread (fs : Volume) (input : List UInt8) (f : OpenFile) (n off : Nat) :
    Except Stop (Option (List UInt8) × OpenFile × Volume) :=
  if f.readable = false then .ok (none, f, fs)
  else
    match f.type with
    | .pipe => do
      let r ← piperead n
      .ok (r, f, fs)
    | .inode => do
      let fs ← ilock fs f.ip
      let (r, fs) ← readi sb fs input f.ip off n
      .ok (r, f, fs)
    | .none => .error (.panic "fileread")

/-- The loop of `filewrite`, with `src` left to write; at most `fuel` rounds.  Whether it has
written everything. -/
def filewriteLoop : Nat → OpenFile → List UInt8 → Volume →
    Except Stop (Bool × OpenFile × Volume)
  | 0, f, _, fs => .ok (false, f, fs)
  | fuel + 1, f, src, fs =>
    if src.length = 0 then .ok (true, f, fs)
    else do
      let (r, fs) ← fileChunk sb fs f.ip src f.off
      let f := if 0 < r then { f with off := (f.off + r.toNat) % 2 ^ 32 } else f
      if r < 0 then .ok (false, f, fs)
      else if r ≠ (src.take CHUNK).length then .error (.panic "short filewrite")
      else filewriteLoop fuel f (src.drop r.toNat) fs

/-- Write to file f. -/
def filewrite (fs : Volume) (f : OpenFile) (src : List UInt8) :
    Except Stop (Int × OpenFile × Volume) :=
  if f.writable = false then .ok (-1, f, fs)
  else
    match f.type with
    | .pipe => do
      let r ← pipewrite src
      .ok (r, f, fs)
    | .inode => do
      let (all, f, fs) ← filewriteLoop sb (src.length + 1) f src fs
      .ok (if all then src.length else -1, f, fs)
    | .none => .error (.panic "filewrite")

/-- The loop of `filepwrite` on inode `ip`, which keeps the offset itself. -/
def filepwriteLoop (ip : Nat) : Nat → Nat → List UInt8 → Volume → Except Stop (Bool × Volume)
  | 0, _, _, fs => .ok (false, fs)
  | fuel + 1, offset, src, fs =>
    if src.length = 0 then .ok (true, fs)
    else do
      let (r, fs) ← fileChunk sb fs ip src offset
      let offset := if 0 < r then (offset + r.toNat) % 2 ^ 32 else offset
      if r < 0 then .ok (false, fs)
      else if r ≠ (src.take CHUNK).length then .error (.panic "short filewrite")
      else filepwriteLoop ip fuel offset (src.drop r.toNat) fs

/-- Write to file f at off. -/
def filepwrite (fs : Volume) (f : OpenFile) (src : List UInt8) (off : Nat) :
    Except Stop (Int × OpenFile × Volume) :=
  if f.writable = false then .ok (-1, f, fs)
  else
    match f.type with
    | .pipe => do
      let r ← pipewrite src
      .ok (r, f, fs)
    | .inode => do
      let (all, fs) ← filepwriteLoop sb f.ip (src.length + 1) off src fs
      .ok (if all then src.length else -1, f, fs)
    | .none => .error (.panic "filewrite")

end

end Xv6.Fs
