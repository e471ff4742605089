import Mathlib

/-!
# Param

The constants of `param.h`, `fs.h`, `mmu.h` and `memlayout.h` that the model uses, and the ways in
which a kernel function may not return.
-/

namespace Xv6

/-! ### `param.h` -/

/-- maximum number of processes -/
abbrev NPROC : Nat := 64

instance : NeZero NPROC := ⟨by decide⟩

/-- open files per process -/
abbrev NOFILE : Nat := 16

/-- open files per system -/
abbrev NFILE : Nat := 100

/-- max exec arguments -/
abbrev MAXARG : Nat := 32

/-- max # of blocks any FS op writes -/
abbrev MAXOPBLOCKS : Nat := 10

/-- max data blocks in on-disk log -/
abbrev LOGSIZE : Nat := MAXOPBLOCKS * 3

/-- size of disk block cache -/
abbrev NBUF : Nat := MAXOPBLOCKS * 3

/-- device number of file system root disk -/
abbrev ROOTDEV : Nat := 1

/-- size of file system in blocks -/
abbrev FSSIZE : Nat := 40000

/-- maximum number of threads -/
abbrev NTHREAD : Nat := 16

/-! ### `fs.h` -/

/-- block size -/
abbrev BSIZE : Nat := 512

abbrev NDIRECT : Nat := 10

/-- `BSIZE / sizeof(uint)` -/
abbrev NINDIRECT : Nat := BSIZE / 4

abbrev MAXFILE : Nat :=
  NDIRECT + NINDIRECT + NINDIRECT * NINDIRECT + NINDIRECT * NINDIRECT * NINDIRECT

/-- Inodes per block: a `struct dinode` is 64 bytes. -/
abbrev IPB : Nat := BSIZE / 64

/-- Bitmap bits per block. -/
abbrev BPB : Nat := BSIZE * 8

/-- Bytes of a file name in a directory. -/
abbrev DIRSIZ : Nat := 14

/-! ### `mmu.h` and `memlayout.h` -/

/-- bytes mapped by a page -/
abbrev PGSIZE : Nat := 4096

/-- # directory entries per page directory -/
abbrev NPDENTRIES : Nat := 1024

/-- PTEs per page table -/
abbrev NPTENTRIES : Nat := 1024

/-- First kernel virtual address -/
abbrev KERNBASE : Nat := 0x80000000

/-! ### Stopping -/

/-- Why a function of the kernel does not return. -/
inductive Stop where
  | panic (msg : String)
  /-- the C is undefined: a freed page is used, or an array is indexed out of its bounds -/
  | fault
  /-- the process sleeps for a lock it holds itself -/
  | hang
  deriving DecidableEq

end Xv6
