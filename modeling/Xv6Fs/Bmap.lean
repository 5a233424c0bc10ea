import Xv6Fs.Balloc

/-!
# The block map and truncation

`bmap` translates a logical block index of an inode into a disk block through the
direct addresses, the singly-indirect block `addrs[NDIRECT]` and the
doubly-indirect block `addrs[NDIRECT+1]`, allocating every missing block on the
way.  `itrunc` frees every block reachable from the inode, leaf blocks before the
index blocks that hold them.

Both work on the disk and on the in-memory copy of the inode's `dinode` fields,
which the cache slot holds; `iupdate` writes that copy back.  The code repeats
two allocation idioms, once per level of the map, and each is one definition
here: `ensureAddr` for an entry of `ip->addrs` and `ensureWord` for an entry of
an index block.
-/

namespace Xv6Fs

/-- `iupdate`: copy the in-memory fields of inode `inum` to its `dinode`. -/
def iupdate (disk : Disk) (inum : Nat) (din : Dinode) : Disk :=
  disk.setDinode inum din

section BlockMap

variable (sb : Superblock)

/-- `if((addr = ip->addrs[k]) == 0) ip->addrs[k] = addr = balloc(ip->dev);` -/
def ensureAddr (disk : Disk) (din : Dinode) (k : Fin (NDIRECT + 2)) :
    Except Halt (Nat × Disk × Dinode) :=
  if din.addrs k = 0 then do
    let (disk, addr) ← balloc sb disk
    pure (addr, disk, { din with addrs := setAt din.addrs k addr })
  else pure (din.addrs k, disk, din)

/-- `if((addr = a[j]) == 0){ a[j] = addr = balloc(ip->dev); log_write(bp); }` for `a`
the words of index block `blk`. -/
def ensureWord (disk : Disk) (blk j : Nat) : Except Halt (Nat × Disk) :=
  if disk.word blk j = 0 then do
    let (disk, addr) ← balloc sb disk
    pure (addr, disk.setWord blk j addr)
  else pure (disk.word blk j, disk)

/-- `bmap(ip, bn)`: the disk block holding logical block `bn`.  The second-level
index block of the doubly-indirect range is read back from `a[bn / NINDIRECT]`,
as `bread(ip->dev, a[singlyIndirect])` does. -/
def bmap (disk : Disk) (din : Dinode) (bn : Nat) : Except Halt (Nat × Disk × Dinode) :=
  if direct : bn < NDIRECT then ensureAddr sb disk din ⟨bn, by unfold NDIRECT at *; omega⟩
  else if bn - NDIRECT < NINDIRECT then do
    let (indirect, disk, din) ← ensureAddr sb disk din indirectIndex
    let (addr, disk) ← ensureWord sb disk indirect (bn - NDIRECT)
    pure (addr, disk, din)
  else do
    let bn := bn - NDIRECT - NINDIRECT
    let (doubly, disk, din) ← ensureAddr sb disk din doublyIndex
    let (_, disk) ← ensureWord sb disk doubly (bn / NINDIRECT)
    let (addr, disk) ← ensureWord sb disk (disk.word doubly (bn / NINDIRECT)) (bn % NINDIRECT)
    pure (addr, disk, din)

/-- `for(j = 0; j < NINDIRECT; j++) if(a[j]) bfree(ip->dev, a[j]);` over the words
`a` of an index block as they were when it was read. -/
def freeEntries (disk : Disk) (a : Nat → Nat) : Except Halt Disk :=
  (List.range NINDIRECT).foldlM (fun disk j => if a j ≠ 0 then bfree sb disk (a j) else pure disk) disk

/-- The first loop of `itrunc`: free the direct blocks and clear their addresses. -/
def itruncDirect (disk : Disk) (din : Dinode) : Except Halt (Disk × Dinode) :=
  (List.finRange NDIRECT).foldlM (fun (disk, din) i =>
    let k := Fin.castAdd 2 i
    if din.addrs k ≠ 0 then do
      let disk ← bfree sb disk (din.addrs k)
      pure (disk, { din with addrs := setAt din.addrs k 0 })
    else pure (disk, din)) (disk, din)

/-- The singly-indirect part of `itrunc`. -/
def itruncIndirect (disk : Disk) (din : Dinode) : Except Halt (Disk × Dinode) :=
  if din.addrs indirectIndex ≠ 0 then do
    let blk := din.addrs indirectIndex
    let disk ← freeEntries sb disk (disk.word blk)
    let disk ← bfree sb disk blk
    pure (disk, { din with addrs := setAt din.addrs indirectIndex 0 })
  else pure (disk, din)

/-- The doubly-indirect part of `itrunc`: every second-level block's entries, then
the second-level block, then the doubly-indirect block itself. -/
def itruncDoubly (disk : Disk) (din : Dinode) : Except Halt (Disk × Dinode) :=
  if din.addrs doublyIndex ≠ 0 then do
    let blk := din.addrs doublyIndex
    let a := disk.word blk
    let disk ← (List.range NINDIRECT).foldlM (fun disk j =>
      if a j ≠ 0 then do
        let disk ← freeEntries sb disk (disk.word (a j))
        bfree sb disk (a j)
      else pure disk) disk
    let disk ← bfree sb disk blk
    pure (disk, { din with addrs := setAt din.addrs doublyIndex 0 })
  else pure (disk, din)

/-- `itrunc(ip)`: free the blocks of inode `inum`, set its size to zero and write
the inode back. -/
def itrunc (disk : Disk) (inum : Nat) (din : Dinode) : Except Halt (Disk × Dinode) := do
  let (disk, din) ← itruncDirect sb disk din
  let (disk, din) ← itruncIndirect sb disk din
  let (disk, din) ← itruncDoubly sb disk din
  let din := { din with size := 0 }
  pure (iupdate disk inum din, din)

end BlockMap

end Xv6Fs
