import Xv6Fs.SysfileSpec

/-!
# No holes in the block maps of a running file system

In every state a run of system calls reaches, the map of an allocated inode covers its
content: at most `MAXFILE` blocks, and a non-zero block for each logical block below
`size`.  So every block `readi` asks `bmap` for is already there: no call allocates,
and `readi` writes nothing, to the log or elsewhere.  Both loops hand `bmap` only
logical blocks below `MAXFILE`, `readi` because the content is that short and
`writei` because it refuses a span that ends past it; the index `bmap` takes into the
doubly-indirect block, which it never checks, is then in range.

The calls are followed with the loops' own recursion: `readiLoopBlocks` and
`writeiLoopBlocks` list the logical block each pass of the loop hands to `bmap`.
-/

namespace Xv6Fs

/-! ## The blocks the loops ask for -/

section Blocks

variable (sb : Superblock)

/-- The logical blocks the loop of `readi` passes to `bmap`, one per pass, in order. -/
def readiLoopBlocks (dst : Nat → Bool) (n : Nat) :
    (fuel : Nat) → Disk → Dinode → (tot off : Nat) → List Nat
  | 0, _, _, _, _ => []
  | fuel + 1, disk, din, tot, off =>
    if tot < n then
      off / BSIZE :: match bmap sb disk din (off / BSIZE) with
        | .ok (_, disk, din) =>
          let m := min (n - tot) (BSIZE - off % BSIZE)
          if copyoutOk dst tot m then readiLoopBlocks dst n fuel disk din (tot + m) (off + m) else []
        | .error _ => []
    else []

/-- The logical blocks `readi(ip, dst, off, n)` passes to `bmap`. -/
def readiBlocks (disk : Disk) (din : Dinode) (dst : Nat → Bool) (off n : UInt32) : List Nat :=
  let off := off.toNat
  let n := n.toNat
  if off > din.size ∨ (off + n) % 4294967296 < off then []
  else
    let n := if off + n > din.size then din.size - off else n
    readiLoopBlocks sb dst n n disk din 0 off

/-- The logical blocks the loop of `writei` passes to `bmap`, one per pass, in order. -/
def writeiLoopBlocks (src : Nat → Option UInt8) (n : Nat) :
    (fuel : Nat) → Disk → Dinode → (tot off : Nat) → List Nat
  | 0, _, _, _, _ => []
  | fuel + 1, disk, din, tot, off =>
    if tot < n then
      off / BSIZE :: match bmap sb disk din (off / BSIZE) with
        | .ok (addr, disk, din) =>
          let m := min (n - tot) (BSIZE - off % BSIZE)
          match copyinBytes src tot m with
          | none => []
          | some bytes =>
            writeiLoopBlocks src n fuel (disk.writeBytes addr (off % BSIZE) bytes) din (tot + m) (off + m)
        | .error _ => []
    else []

/-- The logical blocks `writei(ip, src, off, n)` passes to `bmap`. -/
def writeiBlocks (disk : Disk) (din : Dinode) (src : Nat → Option UInt8) (off n : UInt32) : List Nat :=
  let off := off.toNat
  let n := n.toNat
  if off > din.size ∨ (off + n) % 4294967296 < off then []
  else if off + n > MAXFILE * BSIZE then []
  else writeiLoopBlocks sb src n n disk din 0 off

/-- A pass of either loop from offset `off` with `n - tot` bytes to go asks for a block
that starts before the end of the span. -/
theorem readiLoopBlocks_lt {dst : Nat → Bool} {n : Nat} :
    ∀ {fuel : Nat} {disk : Disk} {din : Dinode} {tot off bn : Nat},
      bn ∈ readiLoopBlocks sb dst n fuel disk din tot off → bn * BSIZE < off + (n - tot)
  | 0, _, _, _, _, _, mem => by cases mem
  | fuel + 1, disk, din, tot, off, bn, mem => by
    unfold readiLoopBlocks at mem
    split at mem
    · rcases List.mem_cons.1 mem with rfl | mem
      · have := Nat.div_mul_le_self off BSIZE
        omega
      split at mem
      · dsimp only at mem
        split at mem
        · have := readiLoopBlocks_lt mem
          omega
        · cases mem
      · cases mem
    · cases mem

theorem writeiLoopBlocks_lt {src : Nat → Option UInt8} {n : Nat} :
    ∀ {fuel : Nat} {disk : Disk} {din : Dinode} {tot off bn : Nat},
      bn ∈ writeiLoopBlocks sb src n fuel disk din tot off → bn * BSIZE < off + (n - tot)
  | 0, _, _, _, _, _, mem => by cases mem
  | fuel + 1, disk, din, tot, off, bn, mem => by
    unfold writeiLoopBlocks at mem
    split at mem
    · rcases List.mem_cons.1 mem with rfl | mem
      · have := Nat.div_mul_le_self off BSIZE
        omega
      split at mem
      · dsimp only at mem
        split at mem
        · cases mem
        · have := writeiLoopBlocks_lt mem
          omega
      · cases mem
    · cases mem

/-- `readi` asks only for blocks that start within the content. -/
theorem readiBlocks_lt {disk : Disk} {din : Dinode} {dst : Nat → Bool} {off n : UInt32} {bn : Nat}
    (mem : bn ∈ readiBlocks sb disk din dst off n) : bn * BSIZE < din.size := by
  unfold readiBlocks at mem
  dsimp only at mem
  split at mem
  · cases mem
  · have := readiLoopBlocks_lt sb mem
    split at this <;> omega

/-- `writei` asks only for blocks below `MAXFILE`. -/
theorem writeiBlocks_lt {disk : Disk} {din : Dinode} {src : Nat → Option UInt8} {off n : UInt32} {bn : Nat}
    (mem : bn ∈ writeiBlocks sb disk din src off n) : bn < MAXFILE := by
  unfold writeiBlocks at mem
  dsimp only at mem
  split at mem
  · cases mem
  split at mem
  · cases mem
  · have := writeiLoopBlocks_lt sb mem
    exact Nat.lt_of_mul_lt_mul_right (by omega : bn * BSIZE < MAXFILE * BSIZE)

end Blocks

/-! ## Maps without holes -/

/-- What the block map of an inode gives `readi` and `writei`: at most `MAXFILE` blocks,
a non-zero block already in place for each logical block below `size`, which `bmap`
returns without allocating; `readi` changes nothing, and every block either loop asks
for is below `MAXFILE`, with its index into the doubly-indirect block in range. -/
structure NoHoles (sb : Superblock) (disk : Disk) (din : Dinode) : Prop where
  size_le : din.size ≤ MAXFILE * BSIZE
  mapped : ∀ bn, bn * BSIZE < din.size → ∃ c, c ≠ 0 ∧ bmap sb disk din bn = .ok (c, disk, din)
  unchanged : ∀ dst off n, ∃ r out, readi sb disk din dst off n = .ok (r, out, disk, din)
  readBlocks : ∀ dst off n, ∀ bn ∈ readiBlocks sb disk din dst off n,
    bn < MAXFILE ∧ (bn - NDIRECT - NINDIRECT) / NINDIRECT < NINDIRECT ∧
      ∃ c, c ≠ 0 ∧ bmap sb disk din bn = .ok (c, disk, din)
  writeBlocks : ∀ src off n, ∀ bn ∈ writeiBlocks sb disk din src off n,
    bn < MAXFILE ∧ (bn - NDIRECT - NINDIRECT) / NINDIRECT < NINDIRECT

section Maps

variable {sb : Superblock}

/-- A map that covers its content has no holes. -/
theorem Shaped.noHoles {disk : Disk} {din : Dinode} (shaped : Shaped disk din) : NoHoles sb disk din := by
  have mapped : ∀ bn, bn * BSIZE < din.size → ∃ c, c ≠ 0 ∧ bmap sb disk din bn = .ok (c, disk, din) :=
    fun bn below => by
      obtain ⟨c, kept⟩ := Option.ne_none_iff_exists'.1 (shaped.mapped bn below)
      have small : bn < MAXFILE := Nat.lt_of_mul_lt_mul_right (lt_of_lt_of_le below shaped.size_le)
      exact ⟨c, ne_zero_of_ptrAt kept, bmap_of_ptrAt small kept⟩
  refine ⟨shaped.size_le, mapped, readi_keeps shaped, fun dst off n bn mem => ?_, fun src off n bn mem => ?_⟩
  · have below := readiBlocks_lt sb mem
    have small : bn < MAXFILE := Nat.lt_of_mul_lt_mul_right (lt_of_lt_of_le below shaped.size_le)
    exact ⟨small, doubly_index_lt small, mapped bn below⟩
  · have small := writeiBlocks_lt sb mem
    exact ⟨small, doubly_index_lt small⟩

/-- In every state a run of system calls reaches from the file system `mkfs` writes,
the map of every allocated inode has no holes. -/
theorem reachable_no_holes (wf : sb.WellFormed) {nproc : Nat} {s : Sys}
    (reach : Reachable sb nproc (boot sb nproc) s) {inum : Nat} (used : (s.disk.dinode inum).type ≠ 0) :
    NoHoles sb s.disk (s.disk.dinode inum) :=
  ((reach.inv wf).shaped inum used).noHoles

/-- Inode `2` once `/a` was written, unlinked and freed, and `/b` took it again. -/
theorem reachable_no_holes_reused :
    Reachable fs1000 1 (boot fs1000 1) blockReused ∧ (blockReused.disk.dinode 2).type ≠ 0 ∧
      NoHoles fs1000 blockReused.disk (blockReused.disk.dinode 2) :=
  ⟨blockReused_reachable_used.1, blockReused_reachable_used.2,
    reachable_no_holes fs1000_wellFormed blockReused_reachable_used.1 blockReused_reachable_used.2⟩

end Maps

end Xv6Fs
