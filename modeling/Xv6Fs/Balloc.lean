import Xv6Fs.Disk
import Mathlib.Tactic.IntervalCases

/-!
# The block allocator

`balloc` scans the bitmap one bitmap block at a time and, inside a block, one bit
at a time; the first clear bit is set, the block is zeroed through the log, and its
number is returned.  `bfree` clears the bit of a block, and panics if it is
already clear.  Both loops are written as recursion on the number of iterations
left, so that they evaluate.

`Disk.bit` reads a block's bit exactly as both functions address it: bitmap block
`BBLOCK(b, sb)`, byte `(b % BPB) / 8`, mask `1 << (b % BPB % 8)`.
-/

namespace Xv6Fs

/-- How a kernel computation ends without returning: `panic(msg)`, or an
`acquiresleep` that can never succeed because the lock is held by the caller
itself or by a process that has already returned to user space. -/
inductive Halt where
  | fatal (msg : String)
  | selfDeadlock
  | blocked
  deriving DecidableEq, Repr

/-- A bind in `Except` returns only when both parts do. -/
theorem bind_eq_ok {ε α β : Type} {x : Except ε α} {f : α → Except ε β} {b : β} :
    x >>= f = .ok b ↔ ∃ a, x = .ok a ∧ f a = .ok b := by
  cases x <;> simp [bind, Except.bind]

@[simp] theorem pure_eq_ok {ε α : Type} {a b : α} : (pure a : Except ε α) = .ok b ↔ a = b := by
  simp [pure, Except.pure]

/-- The mask `m = 1 << (bi % 8)`. -/
def bitMask (bi : Nat) : UInt8 :=
  1 <<< UInt8.ofNat (bi % 8)

section Allocator

variable (sb : Superblock)

/-- Whether the bitmap marks block `b` as in use. -/
def Disk.bit (disk : Disk) (b : Nat) : Bool :=
  disk.block (sb.BBLOCK b) (b % BPB / 8) &&& bitMask (b % BPB) != 0

/-- `bzero`: fill block `bno` with zeros. -/
def bzero (disk : Disk) (bno : Nat) : Disk :=
  disk.zeroBlock bno

/-- The inner loop of `balloc` over the bits `bi` of the bitmap block covering
blocks `b ..`; `remaining` bounds the iterations left. -/
def ballocBits (disk : Disk) (b : Nat) : (remaining bi : Nat) → Option (Disk × Nat)
  | 0, _ => none
  | remaining + 1, bi =>
    if bi < BPB ∧ b + bi < sb.size then
      let byte := disk.block (sb.BBLOCK b) (bi / 8)
      if byte &&& bitMask bi = 0 then
        let marked := disk.setByte (sb.BBLOCK b) (bi / 8) (byte ||| bitMask bi)
        some (bzero marked (b + bi), b + bi)
      else ballocBits disk b remaining (bi + 1)
    else none

/-- The outer loop of `balloc` over bitmap blocks, `b` stepping by `BPB`. -/
def ballocBlocks (disk : Disk) : (remaining b : Nat) → Option (Disk × Nat)
  | 0, _ => none
  | remaining + 1, b =>
    if b < sb.size then
      match ballocBits sb disk b BPB 0 with
      | some found => some found
      | none => ballocBlocks disk remaining (b + BPB)
    else none

/-- `balloc`: allocate a zeroed disk block. -/
def balloc (disk : Disk) : Except Halt (Disk × Nat) :=
  match ballocBlocks sb disk (sb.size / BPB + 1) 0 with
  | some found => .ok found
  | none => .error (.fatal "balloc: out of blocks")

/-- `bfree`: free a disk block. -/
def bfree (disk : Disk) (b : Nat) : Except Halt Disk :=
  let bi := b % BPB
  let byte := disk.block (sb.BBLOCK b) (bi / 8)
  if byte &&& bitMask bi = 0 then .error (.fatal "freeing free block")
  else .ok (disk.setByte (sb.BBLOCK b) (bi / 8) (byte &&& ~~~bitMask bi))

/-- Set the bitmap bit of block `b`, as `bp->data[bi/8] |= m` does. -/
def Disk.setBit (disk : Disk) (b : Nat) : Disk :=
  disk.setByte (sb.BBLOCK b) (b % BPB / 8)
    (disk.block (sb.BBLOCK b) (b % BPB / 8) ||| bitMask (b % BPB))

/-- Clear the bitmap bit of block `b`, as `bp->data[bi/8] &= ~m` does. -/
def Disk.clearBit (disk : Disk) (b : Nat) : Disk :=
  disk.setByte (sb.BBLOCK b) (b % BPB / 8)
    (disk.block (sb.BBLOCK b) (b % BPB / 8) &&& ~~~bitMask (b % BPB))

end Allocator

/-! ## Bits of a bitmap byte -/

theorem bitMask_toNat (k : Nat) : (bitMask k).toNat = 2 ^ (k % 8) := by
  have bound : k % 8 < 8 := Nat.mod_lt _ (by decide)
  unfold bitMask
  generalize k % 8 = r at bound ⊢
  interval_cases r <;> rfl

theorem uint8_toNat_or (x y : UInt8) : (x ||| y).toNat = x.toNat ||| y.toNat :=
  BitVec.toNat_or _ _

theorem uint8_toNat_not (x : UInt8) : (~~~x).toNat = 255 - x.toNat :=
  BitVec.toNat_not

theorem uint8_eq_zero_iff (x : UInt8) : x = 0 ↔ x.toNat = 0 :=
  ⟨fun zero => zero ▸ rfl, fun zero => UInt8.toNat.inj zero⟩

/-- The code's test `(byte & m) == 0` reads bit `bi % 8` of the byte. -/
theorem and_bitMask_eq_zero_iff (x : UInt8) (k : Nat) :
    (x &&& bitMask k = 0) ↔ x.toNat.testBit (k % 8) = false := by
  rw [uint8_eq_zero_iff, UInt8.and_toNat, bitMask_toNat]
  constructor
  · intro zero
    simpa [Nat.testBit_two_pow_self] using congrArg (fun n => n.testBit (k % 8)) zero
  · intro clear
    apply Nat.eq_of_testBit_eq
    intro i
    simp only [Nat.testBit_and, Nat.testBit_two_pow, Nat.zero_testBit]
    by_cases same : k % 8 = i
    · subst same; simp [clear]
    · simp [same]

theorem testBit_or_bitMask (x : UInt8) (k i : Nat) :
    (x ||| bitMask k).toNat.testBit i = (x.toNat.testBit i || decide (k % 8 = i)) := by
  rw [uint8_toNat_or, bitMask_toNat, Nat.testBit_or, Nat.testBit_two_pow]

theorem testBit_and_not_bitMask (x : UInt8) (k : Nat) {i : Nat} (small : i < 8) :
    (x &&& ~~~bitMask k).toNat.testBit i = (x.toNat.testBit i && !decide (k % 8 = i)) := by
  rw [UInt8.and_toNat, uint8_toNat_not, bitMask_toNat, Nat.testBit_and]
  congr 1
  have bound : k % 8 < 8 := Nat.mod_lt _ (by decide)
  generalize k % 8 = r at bound ⊢
  interval_cases r <;> interval_cases i <;> rfl

/-! ## The bitmap as a set of blocks -/

section Bitmap

variable (sb : Superblock)

theorem bit_eq_testBit (disk : Disk) (b : Nat) :
    disk.bit sb b = (disk.block (sb.BBLOCK b) (b % BPB / 8)).toNat.testBit (b % BPB % 8) := by
  have iff := and_bitMask_eq_zero_iff (disk.block (sb.BBLOCK b) (b % BPB / 8)) (b % BPB)
  unfold Disk.bit
  cases tested : (disk.block (sb.BBLOCK b) (b % BPB / 8)).toNat.testBit (b % BPB % 8) <;>
    simp_all

/-- Two blocks whose bits share a bitmap byte and a bit position are the same block. -/
theorem eq_of_same_bit {b c : Nat} (block : sb.BBLOCK c = sb.BBLOCK b)
    (byte : c % BPB / 8 = b % BPB / 8) (bit : c % BPB % 8 = b % BPB % 8) : c = b := by
  unfold Superblock.BBLOCK BPB BSIZE at *
  omega

theorem bit_congr {disk disk' : Disk} {b : Nat}
    (same : disk'.block (sb.BBLOCK b) = disk.block (sb.BBLOCK b)) :
    disk'.bit sb b = disk.bit sb b := by
  simp only [Disk.bit, same]

theorem bit_setBit (disk : Disk) (b c : Nat) :
    (disk.setBit sb b).bit sb c = (disk.bit sb c || decide (c = b)) := by
  by_cases block : sb.BBLOCK c = sb.BBLOCK b
  · rw [bit_eq_testBit, bit_eq_testBit, Disk.setBit]
    by_cases byte : c % BPB / 8 = b % BPB / 8
    · simp only [Disk.setByte, block, byte, setAt_same, testBit_or_bitMask]
      by_cases same : c = b
      · simp [same]
      · have : b % BPB % 8 ≠ c % BPB % 8 := fun bit => same (eq_of_same_bit sb block byte bit.symm)
        simp [same, this]
    · have : c = b ↔ False := ⟨fun same => byte (same ▸ rfl), False.elim⟩
      simp [Disk.setByte, block, setAt_ne _ _ _ byte, this]
  · have : c ≠ b := fun same => block (same ▸ rfl)
    rw [Disk.setBit, bit_congr sb (Disk.setByte_block_ne _ _ block)]
    simp [this]

theorem bit_clearBit (disk : Disk) (b c : Nat) :
    (disk.clearBit sb b).bit sb c = (disk.bit sb c && !decide (c = b)) := by
  by_cases block : sb.BBLOCK c = sb.BBLOCK b
  · rw [bit_eq_testBit, bit_eq_testBit, Disk.clearBit]
    by_cases byte : c % BPB / 8 = b % BPB / 8
    · have small : c % BPB % 8 < 8 := Nat.mod_lt _ (by decide)
      simp only [Disk.setByte, block, byte, setAt_same,
        testBit_and_not_bitMask _ _ small]
      by_cases same : c = b
      · simp [same]
      · have : b % BPB % 8 ≠ c % BPB % 8 := fun bit => same (eq_of_same_bit sb block byte bit.symm)
        simp [same, this]
    · have : c = b ↔ False := ⟨fun same => byte (same ▸ rfl), False.elim⟩
      simp [Disk.setByte, block, setAt_ne _ _ _ byte, this]
  · have : c ≠ b := fun same => block (same ▸ rfl)
    rw [Disk.clearBit, bit_congr sb (Disk.setByte_block_ne _ _ block)]
    simp [this]

/-- The blocks below `sb.size` whose bit is clear: those `balloc` can still hand out. -/
def freeBlocks (disk : Disk) : Finset Nat :=
  (Finset.range sb.size).filter fun c => disk.bit sb c = false

end Bitmap

/-! ## What `balloc` and `bfree` do -/

section Spec

variable {sb : Superblock}

theorem bfree_ok_iff {disk disk' : Disk} {b : Nat} :
    bfree sb disk b = .ok disk' ↔ disk.bit sb b = true ∧ disk' = disk.clearBit sb b := by
  rw [bit_eq_testBit]
  unfold bfree Disk.clearBit
  dsimp only
  by_cases clear : disk.block (sb.BBLOCK b) (b % BPB / 8) &&& bitMask (b % BPB) = 0
  · have unset := (and_bitMask_eq_zero_iff _ _).mp clear
    simp [clear, unset]
  · have set : (disk.block (sb.BBLOCK b) (b % BPB / 8)).toNat.testBit (b % BPB % 8) = true := by
      simpa using mt (and_bitMask_eq_zero_iff _ _).mpr clear
    simp [clear, set, eq_comm]

theorem bfree_error {disk : Disk} {b : Nat} {halt : Halt} (failed : bfree sb disk b = .error halt) :
    halt = .fatal "freeing free block" ∧ disk.bit sb b = false := by
  rw [bit_eq_testBit]
  unfold bfree at failed
  dsimp only at failed
  split at failed
  · cases failed
    exact ⟨rfl, (and_bitMask_eq_zero_iff _ _).mp ‹_›⟩
  · cases failed

/-- Within the bitmap block that starts at an aligned `b0`, bit `bi` is the bit of
block `b0 + bi`. -/
theorem aligned_bit_index (sb : Superblock) {b0 bi : Nat} (aligned : b0 % BPB = 0) (small : bi < BPB) :
    sb.BBLOCK (b0 + bi) = sb.BBLOCK b0 ∧ (b0 + bi) % BPB = bi := by
  unfold Superblock.BBLOCK BPB BSIZE at *
  omega

theorem bit_of_aligned (sb : Superblock) (disk : Disk) {b0 bi : Nat} (aligned : b0 % BPB = 0) (small : bi < BPB) :
    disk.bit sb (b0 + bi) = (disk.block (sb.BBLOCK b0) (bi / 8) &&& bitMask bi != 0) := by
  obtain ⟨block, index⟩ := aligned_bit_index sb aligned small
  simp only [Disk.bit, block, index]

theorem setBit_of_aligned (disk : Disk) {b0 bi : Nat} (aligned : b0 % BPB = 0) (small : bi < BPB) :
    disk.setBit sb (b0 + bi) = disk.setByte (sb.BBLOCK b0) (bi / 8)
      (disk.block (sb.BBLOCK b0) (bi / 8) ||| bitMask bi) := by
  obtain ⟨block, index⟩ := aligned_bit_index sb aligned small
  simp only [Disk.setBit, block, index]

theorem ballocBits_some {disk disk' : Disk} {b0 r : Nat} (aligned : b0 % BPB = 0) :
    ∀ {remaining bi : Nat}, ballocBits sb disk b0 remaining bi = some (disk', r) →
      b0 + bi ≤ r ∧ r < sb.size ∧ disk.bit sb r = false ∧
        (∀ c, b0 + bi ≤ c → c < r → disk.bit sb c = true) ∧
        disk' = bzero (disk.setBit sb r) r
  | 0, _, found => by cases found
  | remaining + 1, bi, found => by
    unfold ballocBits at found
    dsimp only at found
    split at found
    · rename_i guard
      have clearBit := bit_of_aligned sb disk aligned guard.1
      split at found
      · rename_i free
        cases found
        refine ⟨le_refl _, guard.2, by simp [clearBit, free], fun c low high => by omega, ?_⟩
        rw [setBit_of_aligned disk aligned guard.1]
      · rename_i used
        obtain ⟨low, bound, free, below, result⟩ := ballocBits_some aligned found
        refine ⟨by omega, bound, free, fun c lower upper => ?_, result⟩
        by_cases first : c = b0 + bi
        · subst first; simp [clearBit, used]
        · exact below c (by omega) upper
    · cases found

theorem ballocBits_none {disk : Disk} {b0 : Nat} (aligned : b0 % BPB = 0) :
    ∀ {remaining bi : Nat}, BPB ≤ bi + remaining → ballocBits sb disk b0 remaining bi = none →
      ∀ c, b0 + bi ≤ c → c < b0 + BPB → c < sb.size → disk.bit sb c = true
  | 0, bi, enough, _, c, lower, upper, _ => by omega
  | remaining + 1, bi, enough, missing, c, lower, upper, inDisk => by
    unfold ballocBits at missing
    dsimp only at missing
    split at missing
    · rename_i guard
      split at missing
      · cases missing
      · rename_i used
        by_cases first : c = b0 + bi
        · subst first; simp [bit_of_aligned sb disk aligned guard.1, used]
        · exact ballocBits_none aligned (by omega) missing c (by omega) upper inDisk
    · rename_i guard
      exfalso
      exact guard ⟨by omega, by omega⟩

theorem ballocBlocks_some {disk disk' : Disk} {r : Nat} :
    ∀ {remaining b : Nat}, b % BPB = 0 → ballocBlocks sb disk remaining b = some (disk', r) →
      b ≤ r ∧ r < sb.size ∧ disk.bit sb r = false ∧
        (∀ c, b ≤ c → c < r → disk.bit sb c = true) ∧ disk' = bzero (disk.setBit sb r) r
  | 0, _, _, found => by cases found
  | remaining + 1, b, aligned, found => by
    unfold ballocBlocks at found
    split at found
    · split at found
      · rename_i inBlock
        cases found
        simpa using ballocBits_some aligned inBlock
      · rename_i missing
        obtain ⟨low, bound, free, below, result⟩ :=
          ballocBlocks_some (by unfold BPB BSIZE at *; omega) found
        refine ⟨by omega, bound, free, fun c lower upper => ?_, result⟩
        by_cases early : c < b + BPB
        · exact ballocBits_none aligned (by omega) missing c (by omega) early (by omega)
        · exact below c (by omega) upper
    · cases found

theorem ballocBlocks_none {disk : Disk} :
    ∀ {remaining b : Nat}, b % BPB = 0 → sb.size ≤ b + remaining * BPB →
      ballocBlocks sb disk remaining b = none → ∀ c, b ≤ c → c < sb.size → disk.bit sb c = true
  | 0, b, _, enough, _, c, lower, upper => by omega
  | remaining + 1, b, aligned, enough, missing, c, lower, upper => by
    unfold ballocBlocks at missing
    split at missing
    · split at missing
      · cases missing
      · rename_i inBlock
        by_cases early : c < b + BPB
        · exact ballocBits_none aligned (by omega) inBlock c (by omega) early upper
        · exact ballocBlocks_none (by unfold BPB BSIZE at *; omega)
            (by rw [Nat.succ_mul] at enough; omega) missing c (by omega) upper
    · omega

/-- `balloc` returns the least block whose bit is clear, sets that bit and zeroes the
block. -/
theorem balloc_ok {disk disk' : Disk} {r : Nat} (allocated : balloc sb disk = .ok (disk', r)) :
    r < sb.size ∧ disk.bit sb r = false ∧ (∀ c, c < r → disk.bit sb c = true) ∧
      disk' = bzero (disk.setBit sb r) r := by
  unfold balloc at allocated
  split at allocated
  · rename_i found
    cases allocated
    obtain ⟨-, bound, free, below, result⟩ := ballocBlocks_some (Nat.zero_mod _) found
    exact ⟨bound, free, fun c upper => below c (Nat.zero_le _) upper, result⟩
  · cases allocated

/-- `balloc` panics only when every block of the disk is marked in use. -/
theorem balloc_error {disk : Disk} {halt : Halt} (failed : balloc sb disk = .error halt) :
    halt = .fatal "balloc: out of blocks" ∧ ∀ c, c < sb.size → disk.bit sb c = true := by
  unfold balloc at failed
  split at failed
  · cases failed
  · rename_i missing
    cases failed
    refine ⟨rfl, fun c upper => ballocBlocks_none (Nat.zero_mod _) ?_ missing c (Nat.zero_le _) upper⟩
    have : sb.size < sb.size / BPB * BPB + BPB := Nat.lt_div_mul_add (by unfold BPB BSIZE; omega)
    rw [Nat.add_mul, Nat.one_mul]
    omega

/-- On a disk where `balloc` panics, no block is free. -/
theorem freeBlocks_of_balloc_error {disk : Disk} {halt : Halt} (failed : balloc sb disk = .error halt) :
    freeBlocks sb disk = ∅ :=
  Finset.filter_false_of_mem fun c mem => by simp [(balloc_error failed).2 c (Finset.mem_range.1 mem)]

/-- `bfree` of a block whose bit is set clears exactly that bit. -/
theorem bfree_bits {disk : Disk} {b : Nat} (set : disk.bit sb b = true) :
    ∃ disk', bfree sb disk b = .ok disk' ∧ ∀ c, disk'.bit sb c = (disk.bit sb c && !decide (c = b)) :=
  ⟨_, bfree_ok_iff.2 ⟨set, rfl⟩, bit_clearBit sb disk b⟩

/-- On a bitmap that marks its own blocks in use (the block `BBLOCK(c)` that holds the
bit of every block `c < sb.size`) and has a clear bit below `sb.size`, `balloc` returns
the least block whose bit is clear, sets that bit and no other bit of the disk's
blocks, and zeroes the block; `bfree` of a set bit clears exactly that bit, so `bfree`
undoes `balloc` on the bitmap. -/
theorem balloc_bfree_bitmap {disk : Disk} (bitmapMarked : ∀ c < sb.size, disk.bit sb (sb.BBLOCK c) = true)
    (b : Nat) (clear : b < sb.size ∧ disk.bit sb b = false) :
    (∃ disk' r, balloc sb disk = .ok (disk', r) ∧ r < sb.size ∧ disk.bit sb r = false ∧
      (∀ c < r, disk.bit sb c = true) ∧ (∀ c < sb.size, disk'.bit sb c = (disk.bit sb c || decide (c = r))) ∧
      (∀ i, disk'.block r i = 0) ∧
      ∃ disk'', bfree sb disk' r = .ok disk'' ∧ ∀ c < sb.size, disk''.bit sb c = disk.bit sb c) ∧
    ∀ c, disk.bit sb c = true →
      ∃ disk', bfree sb disk c = .ok disk' ∧ ∀ c', disk'.bit sb c' = (disk.bit sb c' && !decide (c' = c)) := by
  refine ⟨?_, fun c set => bfree_bits set⟩
  cases allocated : balloc sb disk with
  | error halt =>
    have := (balloc_error allocated).2 b clear.1
    simp [clear.2] at this
  | ok result =>
    obtain ⟨disk', r⟩ := result
    obtain ⟨bound, free, below, rfl⟩ := balloc_ok allocated
    have bits : ∀ c < sb.size, (bzero (disk.setBit sb r) r).bit sb c = (disk.bit sb c || decide (c = r)) :=
      fun c small => by
        have other : sb.BBLOCK c ≠ r := fun same => by simp [← same, bitmapMarked c small] at free
        rw [bzero, bit_congr sb (Disk.zeroBlock_block_ne other), bit_setBit]
    refine ⟨_, r, rfl, bound, free, below, bits, fun i => by simp [bzero, Disk.zeroBlock], ?_⟩
    obtain ⟨disk'', freed, cleared⟩ := bfree_bits (show (bzero (disk.setBit sb r) r).bit sb r = true by
      simp [bits r bound])
    refine ⟨disk'', freed, fun c small => ?_⟩
    rw [cleared, bits c small]
    by_cases same : c = r
    · subst same
      simp [free]
    · simp [same]

/-- The `fs1000` layout's bitmap with blocks `0 .. 44` marked in use and the bitmap
block `45` itself left clear. -/
def unmarkedBitmap : Disk :=
  ⟨fun _ => Dinode.zero, fun b i => if b = 45 ∧ i < 5 then 255 else if b = 45 ∧ i = 5 then 31 else 0⟩

/-- The bitmap of `fs1000` with only its own block `45` marked in use. -/
def bitmapOnly : Disk :=
  (⟨fun _ => Dinode.zero, fun _ _ => 0⟩ : Disk).setBit fs1000 45

/-- Every block of `fs1000` has its bit in block `45`. -/
theorem fs1000_BBLOCK {c : Nat} (small : c < fs1000.size) : fs1000.BBLOCK c = 45 := by
  simp only [Superblock.BBLOCK, BPB, BSIZE, fs1000] at *
  omega

/-- On `bitmapOnly`, whose boot, super, log and inode blocks are all clear, `balloc`
hands out block `0`. -/
theorem balloc_bfree_bitmap_fs1000 :
    (∀ c < fs1000.size, bitmapOnly.bit fs1000 (fs1000.BBLOCK c) = true) ∧
      (0 < fs1000.size ∧ bitmapOnly.bit fs1000 0 = false) ∧
      ((∃ disk' r, balloc fs1000 bitmapOnly = .ok (disk', r) ∧ r < fs1000.size ∧ bitmapOnly.bit fs1000 r = false ∧
          (∀ c < r, bitmapOnly.bit fs1000 c = true) ∧
          (∀ c < fs1000.size, disk'.bit fs1000 c = (bitmapOnly.bit fs1000 c || decide (c = r))) ∧
          (∀ i, disk'.block r i = 0) ∧
          ∃ disk'', bfree fs1000 disk' r = .ok disk'' ∧ ∀ c < fs1000.size, disk''.bit fs1000 c = bitmapOnly.bit fs1000 c) ∧
        ∀ c, bitmapOnly.bit fs1000 c = true →
          ∃ disk', bfree fs1000 bitmapOnly c = .ok disk' ∧
            ∀ c', disk'.bit fs1000 c' = (bitmapOnly.bit fs1000 c' && !decide (c' = c))) := by
  have marked : ∀ c < fs1000.size, bitmapOnly.bit fs1000 (fs1000.BBLOCK c) = true := fun c small => by
    rw [fs1000_BBLOCK small]
    decide
  exact ⟨marked, ⟨by decide, by decide⟩, balloc_bfree_bitmap marked 0 ⟨by decide, by decide⟩⟩

/-- Without the bitmap block's own bit set, `balloc` hands out the bitmap block: it
returns `45` and zeroes it, which clears every bit of the bitmap, and `bfree` of the
block it returned panics. -/
theorem balloc_returns_bitmap_block :
    balloc fs1000 unmarkedBitmap = .ok (bzero (unmarkedBitmap.setBit fs1000 45) 45, 45) ∧
      (bzero (unmarkedBitmap.setBit fs1000 45) 45).bit fs1000 0 = false ∧
      bfree fs1000 (bzero (unmarkedBitmap.setBit fs1000 45) 45) 45 = .error (.fatal "freeing free block") :=
  ⟨rfl, rfl, rfl⟩

end Spec

end Xv6Fs
