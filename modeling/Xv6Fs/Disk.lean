import Xv6Fs.Param

/-!
# The disk

The disk holds one `struct dinode` record per inode number and the bytes of every
block.  Index blocks are read through `(uint*)bp->data`, so an address stored in
an index block is the little-endian `uint` of four bytes of that block: the same
bytes that a data block holds.  A block freed as data and reallocated as an index
block (or the other way round) is one and the same array of bytes; `bzero` is what
makes the reuse safe.

The byte layout of the inode blocks (`IBLOCK`, `IPB`) is not modelled: `dinode`
is indexed by inode number directly.
-/

namespace Xv6Fs

/-- The table `f` with the entry at `a` replaced by `v`: an array store.  Unlike
`Function.update` it is not dependent, so that it evaluates without a cast. -/
def setAt {α β : Type} [DecidableEq α] (f : α → β) (a : α) (v : β) : α → β :=
  fun x => if x = a then v else f x

section SetAt

variable {α β : Type} [DecidableEq α] (f : α → β) (a : α) (v : β)

@[simp] theorem setAt_same : setAt f a v a = v := if_pos rfl

@[simp] theorem setAt_ne {x : α} (other : x ≠ a) : setAt f a v x = f x := if_neg other

theorem setAt_apply (x : α) : setAt f a v x = if x = a then v else f x := rfl

@[simp] theorem setAt_setAt_same (w : β) : setAt (setAt f a v) a w = setAt f a w := by
  funext x
  by_cases same : x = a <;> simp [setAt_apply, same]

@[simp] theorem setAt_self : setAt f a (f a) = f := by
  funext x
  by_cases same : x = a <;> simp [setAt_apply, same]

theorem setAt_of_eq {v : β} (same : f a = v) : setAt f a v = f := by
  rw [← same, setAt_self]

@[simp] theorem setAt_const (v : β) : setAt (fun _ => v) a v = fun _ => v :=
  setAt_of_eq _ a rfl

end SetAt

/-- `struct dinode`: the on-disk inode.  `type`, `major`, `minor` and `nlink` are
`short`s, `size` and the addresses are `uint`s. -/
structure Dinode where
  type : Int
  major : Int
  minor : Int
  nlink : Int
  size : Nat
  addrs : Fin (NDIRECT + 2) → Nat

/-- The record `memset(dip, 0, sizeof(*dip))` leaves. -/
def Dinode.zero : Dinode :=
  ⟨0, 0, 0, 0, 0, fun _ => 0⟩

/-- The singly-indirect address `addrs[NDIRECT]`. -/
def indirectIndex : Fin (NDIRECT + 2) :=
  ⟨NDIRECT, by decide⟩

/-- The doubly-indirect address `addrs[NDIRECT+1]`. -/
def doublyIndex : Fin (NDIRECT + 2) :=
  ⟨NDIRECT + 1, by decide⟩

/-- The on-disk state: inode records and block contents. -/
structure Disk where
  dinode : Nat → Dinode
  block : Nat → Nat → UInt8

namespace Disk

/-- Overwrite byte `i` of block `b`. -/
def setByte (disk : Disk) (b i : Nat) (value : UInt8) : Disk :=
  { disk with block := setAt disk.block b (setAt (disk.block b) i value) }

/-- Fill block `b` with zeros, as `bzero` does through `memset`. -/
def zeroBlock (disk : Disk) (b : Nat) : Disk :=
  { disk with block := setAt disk.block b (fun _ => 0) }

/-- Overwrite the inode record of `inum`. -/
def setDinode (disk : Disk) (inum : Nat) (record : Dinode) : Disk :=
  { disk with dinode := setAt disk.dinode inum record }

/-- The `j`-th `uint` of block `b`, little-endian. -/
def word (disk : Disk) (b j : Nat) : Nat :=
  (disk.block b (4 * j)).toNat + 256 * (disk.block b (4 * j + 1)).toNat +
    65536 * (disk.block b (4 * j + 2)).toNat + 16777216 * (disk.block b (4 * j + 3)).toNat

/-- The four little-endian bytes of `value` stored at word `j` of a block. -/
def storeWord (bytes : Nat → UInt8) (j value : Nat) : Nat → UInt8 := fun i =>
  if i = 4 * j then UInt8.ofNat value
  else if i = 4 * j + 1 then UInt8.ofNat (value / 256)
  else if i = 4 * j + 2 then UInt8.ofNat (value / 65536)
  else if i = 4 * j + 3 then UInt8.ofNat (value / 16777216)
  else bytes i

/-- `a[j] = value` for `a = (uint*)bp->data` of block `b`. -/
def setWord (disk : Disk) (b j value : Nat) : Disk :=
  { disk with block := setAt disk.block b (storeWord (disk.block b) j value) }

/-- Copy `bytes` into block `b` from byte `start` on (one `memmove` of `writei`). -/
def writeBytes (disk : Disk) (b start : Nat) (bytes : List UInt8) : Disk :=
  { disk with
    block := setAt disk.block b (fun i =>
      if start ≤ i ∧ i < start + bytes.length then bytes.getD (i - start) 0 else disk.block b i) }

/-- The `len` bytes of block `b` from byte `start` on. -/
def readBytes (disk : Disk) (b start len : Nat) : List UInt8 :=
  (List.range len).map fun k => disk.block b (start + k)

@[simp] theorem setByte_dinode (disk : Disk) (b i : Nat) (value : UInt8) :
    (disk.setByte b i value).dinode = disk.dinode := rfl

@[simp] theorem zeroBlock_dinode (disk : Disk) (b : Nat) :
    (disk.zeroBlock b).dinode = disk.dinode := rfl

@[simp] theorem setWord_dinode (disk : Disk) (b j value : Nat) :
    (disk.setWord b j value).dinode = disk.dinode := rfl

@[simp] theorem writeBytes_dinode (disk : Disk) (b start : Nat) (bytes : List UInt8) :
    (disk.writeBytes b start bytes).dinode = disk.dinode := rfl

@[simp] theorem setDinode_block (disk : Disk) (inum : Nat) (record : Dinode) :
    (disk.setDinode inum record).block = disk.block := rfl

@[simp] theorem setDinode_dinode (disk : Disk) (inum : Nat) (record : Dinode) :
    (disk.setDinode inum record).dinode = setAt disk.dinode inum record := rfl

@[simp] theorem setDinode_setDinode (disk : Disk) (inum : Nat) (record record' : Dinode) :
    (disk.setDinode inum record).setDinode inum record' = disk.setDinode inum record' := by
  simp [setDinode]

@[simp] theorem setDinode_self (disk : Disk) (inum : Nat) : disk.setDinode inum (disk.dinode inum) = disk := by
  simp [setDinode]

theorem setByte_block_ne {disk : Disk} {b b' : Nat} (i : Nat) (value : UInt8)
    (other : b' ≠ b) : (disk.setByte b i value).block b' = disk.block b' := by
  simp [setByte, setAt_ne _ _ _ other]

theorem zeroBlock_block_ne {disk : Disk} {b b' : Nat} (other : b' ≠ b) :
    (disk.zeroBlock b).block b' = disk.block b' := by
  simp [zeroBlock, setAt_ne _ _ _ other]

theorem setWord_block_ne {disk : Disk} {b b' : Nat} (j value : Nat) (other : b' ≠ b) :
    (disk.setWord b j value).block b' = disk.block b' := by
  simp [setWord, setAt_ne _ _ _ other]

theorem writeBytes_block_ne {disk : Disk} {b b' : Nat} (start : Nat) (bytes : List UInt8)
    (other : b' ≠ b) : (disk.writeBytes b start bytes).block b' = disk.block b' := by
  simp [writeBytes, setAt_ne _ _ _ other]

/-! ## Words -/

theorem word_congr {disk disk' : Disk} {b b' : Nat} (same : disk.block b = disk'.block b')
    (j : Nat) : disk.word b j = disk'.word b' j := by
  simp only [word, same]

theorem byte_toNat_ofNat (value : Nat) : (UInt8.ofNat value).toNat = value % 256 :=
  BitVec.toNat_ofNat value 8

@[simp] theorem word_setWord_same (disk : Disk) (b j value : Nat) :
    (disk.setWord b j value).word b j = value % 4294967296 := by
  simp only [word, setWord, setAt_same, storeWord, if_pos, byte_toNat_ofNat,
    show 4 * j + 1 ≠ 4 * j by omega, show 4 * j + 2 ≠ 4 * j by omega,
    show 4 * j + 3 ≠ 4 * j by omega, show 4 * j + 2 ≠ 4 * j + 1 by omega,
    show 4 * j + 3 ≠ 4 * j + 1 by omega, show 4 * j + 3 ≠ 4 * j + 2 by omega,
    if_false, if_true]
  omega

theorem storeWord_outside (bytes : Nat → UInt8) (j value : Nat) {i : Nat}
    (outside : i < 4 * j ∨ 4 * j + 4 ≤ i) : storeWord bytes j value i = bytes i := by
  unfold storeWord
  rw [if_neg (by omega), if_neg (by omega), if_neg (by omega), if_neg (by omega)]

theorem word_setWord_ne (disk : Disk) (b j value k : Nat) (other : k ≠ j) :
    (disk.setWord b j value).word b k = disk.word b k := by
  simp only [word, setWord, setAt_same]
  rw [storeWord_outside _ _ _ (by omega), storeWord_outside _ _ _ (by omega),
    storeWord_outside _ _ _ (by omega), storeWord_outside _ _ _ (by omega)]

theorem word_setWord_block_ne (disk : Disk) {b b' : Nat} (j value k : Nat) (other : b' ≠ b) :
    (disk.setWord b j value).word b' k = disk.word b' k :=
  word_congr (setWord_block_ne j value other) k

@[simp] theorem word_zeroBlock_same (disk : Disk) (b j : Nat) :
    (disk.zeroBlock b).word b j = 0 := by
  simp [word, zeroBlock]

theorem word_lt (disk : Disk) (b j : Nat) : disk.word b j < 4294967296 := by
  have bounded : ∀ k, (disk.block b k).toNat < 256 := fun k => (disk.block b k).toNat_lt_size
  have := bounded (4 * j); have := bounded (4 * j + 1)
  have := bounded (4 * j + 2); have := bounded (4 * j + 3)
  unfold word
  omega

end Disk

end Xv6Fs
