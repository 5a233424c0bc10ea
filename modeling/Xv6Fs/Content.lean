import Xv6Fs.ReadWrite

/-!
# The content of an inode

What `readi` and `writei` are for: an inode holds `size` bytes, and its block map
says where each block-sized part of them lies on disk.  `blockAddr` follows the map
as `bmap` does but never allocates; where `bmap` would allocate a block, the
content reads as the zeroes of the block `balloc` would hand out.

This is the abstract view of the file system's data: the directory entries, the
round trip of `writei` and `readi`, and the frame conditions on other inodes are
all stated over it.
-/

namespace Xv6Fs

/-- The disk block holding logical block `bn` of an inode, found as `bmap` finds it
but without allocating: `0` where `bmap` would allocate. -/
def blockAddr (disk : Disk) (din : Dinode) (bn : Nat) : Nat :=
  if direct : bn < NDIRECT then din.addrs ⟨bn, by unfold NDIRECT at *; omega⟩
  else if bn - NDIRECT < NINDIRECT then
    let indirect := din.addrs indirectIndex
    if indirect = 0 then 0 else disk.word indirect (bn - NDIRECT)
  else
    let bn := bn - NDIRECT - NINDIRECT
    let doubly := din.addrs doublyIndex
    if doubly = 0 then 0
    else
      let single := disk.word doubly (bn / NINDIRECT)
      if single = 0 then 0 else disk.word single (bn % NINDIRECT)

/-- Byte `k` of an inode's content; a block the map does not hold yet reads as zero. -/
def contentByte (disk : Disk) (din : Dinode) (k : Nat) : UInt8 :=
  let addr := blockAddr disk din (k / BSIZE)
  if addr = 0 then 0 else disk.block addr (k % BSIZE)

/-- The content of an inode: its `size` bytes, read through its block map. -/
def content (disk : Disk) (din : Dinode) : List UInt8 :=
  (List.range din.size).map (contentByte disk din)

@[simp] theorem length_content (disk : Disk) (din : Dinode) : (content disk din).length = din.size := by
  simp [content]

end Xv6Fs
