import Mathlib.Data.Int.Defs
import Mathlib.Data.BitVec

/-!
# Parameters of the file system

`fs.c` and `sysfile.c` include `param.h`, `fs.h`, `stat.h` and `fcntl.h`, which
are not among the sources.  The constants are modelled from the spec and from the
values those headers have in the file-system lab this kernel solves: 1024-byte
blocks, eleven direct block addresses beside one singly- and one doubly-indirect
address (so that `addrs[NDIRECT+1]` is the last entry), fourteen-byte names.

The superblock is read from disk once at mount and never written afterwards, so
it is a parameter of every operation rather than part of the mutable state.
-/

namespace Xv6Fs

/-- Modelled from the spec: the block size `BSIZE`. -/
def BSIZE : Nat := 1024

/-- Modelled from the spec: the number of direct addresses `NDIRECT`. -/
def NDIRECT : Nat := 11

/-- Modelled from the spec: addresses held by one index block, `BSIZE / sizeof(uint)`. -/
def NINDIRECT : Nat := BSIZE / 4

/-- Modelled from the spec: `MAXFILE = NDIRECT + NINDIRECT + NINDIRECT²` blocks. -/
def MAXFILE : Nat := NDIRECT + NINDIRECT + NINDIRECT * NINDIRECT

/-- Modelled from the spec: bitmap bits per block, `BSIZE * 8`. -/
def BPB : Nat := BSIZE * 8

/-- Modelled from the spec: the length of a directory entry name, `DIRSIZ`. -/
def DIRSIZ : Nat := 14

/-- Modelled from the spec: the size of one `struct dirent` (a `ushort` and a name). -/
def DIRENT_SIZE : Nat := 2 + DIRSIZ

/-- Modelled from the spec: the longest path argument, `MAXPATH`. -/
def MAXPATH : Nat := 128

/-- Modelled from the spec: the number of inode cache slots, `NINODE`. -/
def NINODE : Nat := 50

/-- Modelled from the spec: open files per process, `NOFILE`. -/
def NOFILE : Nat := 16

/-- Modelled from the spec: open files in the system, `NFILE`. -/
def NFILE : Nat := 100

/-- Modelled from the spec: the number of device majors, `NDEV`. -/
def NDEV : Int := 10

/-- Modelled from the spec: the root device `ROOTDEV`. -/
def ROOTDEV : Nat := 1

/-- Modelled from the spec: the root directory's inode number `ROOTINO`. -/
def ROOTINO : Nat := 1

/-- Modelled from the spec: the inode types of `stat.h`. -/
def T_DIR : Int := 1

/-- Modelled from the spec: regular file type. -/
def T_FILE : Int := 2

/-- Modelled from the spec: device type. -/
def T_DEVICE : Int := 3

/-- Modelled from the spec: symbolic link type. -/
def T_SYMLINK : Int := 4

/-- Modelled from the spec: the `open` mode bits of `fcntl.h`, as the `int` that
`argint` delivers. -/
def O_RDONLY : BitVec 32 := 0x000

/-- Modelled from the spec: write-only mode bit. -/
def O_WRONLY : BitVec 32 := 0x001

/-- Modelled from the spec: read-write mode bit. -/
def O_RDWR : BitVec 32 := 0x002

/-- Modelled from the spec: create mode bit. -/
def O_CREATE : BitVec 32 := 0x200

/-- Modelled from the spec: do-not-follow mode bit of the symlink lab. -/
def O_NOFOLLOW : BitVec 32 := 0x800

/-- C's conversion of an `int` into a `short` field: wrap into `[-32768, 32768)`. -/
def toShort (value : Int) : Int :=
  (value + 32768) % 65536 - 32768

theorem toShort_of_small {value : Int} (lower : -32768 ≤ value) (upper : value < 32768) :
    toShort value = value := by
  unfold toShort
  rw [Int.emod_eq_of_lt (by omega) (by omega)]
  omega

/-- The on-disk superblock, read at mount and immutable thereafter. -/
structure Superblock where
  magic : Nat
  size : Nat
  nblocks : Nat
  ninodes : Nat
  nlog : Nat
  logstart : Nat
  inodestart : Nat
  bmapstart : Nat
  deriving DecidableEq, Repr

namespace Superblock

/-- The first data block: everything below is boot, super, log, inode and bitmap
blocks. -/
def dataStart (sb : Superblock) : Nat :=
  sb.size - sb.nblocks

/-- The bitmap block holding the bit of block `b`, `BBLOCK(b, sb)`. -/
def BBLOCK (sb : Superblock) (b : Nat) : Nat :=
  b / BPB + sb.bmapstart

/-- The layout `[boot | super | log | inodes | bitmap | data]` as `mkfs` writes it: the
bitmap blocks that cover the disk lie below the data blocks, the root directory's
block and inode exist, block numbers fit a `uint` and inode numbers the `ushort` of a
directory entry. -/
structure WellFormed (sb : Superblock) : Prop where
  bitmapBelowData : ∀ b, b < sb.size → sb.BBLOCK b < sb.dataStart
  rootBlockFits : sb.dataStart < sb.size
  rootBelow : ROOTINO < sb.ninodes
  sizeFits : sb.size ≤ 4294967296
  inodesFit : sb.ninodes ≤ 65536

end Superblock

/-- The superblock `mkfs` writes for a disk of 1000 blocks and 200 inodes: two boot
and super blocks, thirty log blocks, thirteen inode blocks, one bitmap block, and
954 data blocks from block 46 on. -/
def fs1000 : Superblock :=
  ⟨0x10203040, 1000, 954, 200, 30, 2, 32, 45⟩

theorem fs1000_wellFormed : fs1000.WellFormed where
  bitmapBelowData b small := by
    simp only [fs1000, Superblock.BBLOCK, Superblock.dataStart, BPB, BSIZE] at *
    omega
  rootBlockFits := by decide
  rootBelow := by decide
  sizeFits := by decide
  inodesFit := by decide

end Xv6Fs
