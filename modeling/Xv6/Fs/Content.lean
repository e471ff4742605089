import Xv6.Param

/-!
# Fs — the bytes of a file

What a regular file is for: an array of bytes, and what `readi` and `writei` do to it.  The blocks
and the inode that hold the bytes are those of `Fs.Inode`.
-/

namespace Xv6.Fs

/-- The bytes of a file. -/
abbrev Content := List UInt8

namespace Content

/-- `writei`: the bytes after the write of `src` at `off`; `none` is its -1. -/
def writei (c : Content) (src : List UInt8) (off : Nat) : Option Content :=
  if c.length < off ∨ 2 ^ 32 ≤ off + src.length then none
  else if MAXFILE * BSIZE < off + src.length then none
  else some (c.take off ++ src ++ c.drop (off + src.length))

/-- `readi`: the bytes it delivers; `none` is its -1. -/
def readi (c : Content) (off n : Nat) : Option (List UInt8) :=
  if c.length < off ∨ 2 ^ 32 ≤ off + n then none else some ((c.drop off).take n)

end Content

end Xv6.Fs
