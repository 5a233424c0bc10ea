import Xv6Fs.Bmap

/-!
# Reading and writing inode content

`readi` and `writei` move bytes between an inode's blocks and a caller's buffer,
one block-sized span at a time.  The caller's buffer is the external side of
`either_copyout` and `either_copyin`: a destination that may refuse a span (an
unmapped user page), and a source that gives the byte at each offset or nothing.
A span that faults ends the loop; bytes of a faulting span are not modelled as
partly copied.

Offsets and counts are the code's `uint`s, and the range checks are the code's
unsigned comparisons, wrap-around included.
-/

namespace Xv6Fs

/-- `either_copyout` for the span `[tot, tot + m)` of the destination: whether
every byte of it may be written. -/
def copyoutOk (dst : Nat → Bool) (tot m : Nat) : Bool :=
  (List.range m).all fun k => dst (tot + k)

/-- `either_copyin` for the span `[tot, tot + m)` of the source: its bytes, or a
fault. -/
def copyinBytes (src : Nat → Option UInt8) (tot m : Nat) : Option (List UInt8) :=
  (List.range m).mapM fun k => src (tot + k)

/-- A kernel buffer (`user_dst == 0`): `memmove` never faults. -/
def kernelDst : Nat → Bool := fun _ => true

/-- A kernel buffer holding `bytes`. -/
def kernelSrc (bytes : List UInt8) : Nat → Option UInt8 := fun i => bytes.get? i

section Content

variable (sb : Superblock)

/-- The loop of `readi`: `tot` bytes of the clamped count `n` are copied, `off` is
the current file offset, `out` the bytes delivered so far. -/
def readiLoop (dst : Nat → Bool) (n : Nat) :
    (fuel : Nat) → Disk → Dinode → (tot off : Nat) → List UInt8 →
      Except Halt (List UInt8 × Disk × Dinode)
  | 0, disk, din, _, _, out => pure (out, disk, din)
  | fuel + 1, disk, din, tot, off, out =>
    if tot < n then do
      let (addr, disk, din) ← bmap sb disk din (off / BSIZE)
      let m := min (n - tot) (BSIZE - off % BSIZE)
      if copyoutOk dst tot m then
        readiLoop dst n fuel disk din (tot + m) (off + m) (out ++ disk.readBytes addr (off % BSIZE) m)
      else pure (out, disk, din)
    else pure (out, disk, din)

/-- `readi(ip, user_dst, dst, off, n)`: the return value, the bytes delivered to
`dst`, and the disk and inode after the `bmap` calls. -/
def readi (disk : Disk) (din : Dinode) (dst : Nat → Bool) (off n : UInt32) :
    Except Halt (Int × List UInt8 × Disk × Dinode) :=
  let off := off.toNat
  let n := n.toNat
  if off > din.size ∨ (off + n) % 4294967296 < off then pure (-1, [], disk, din)
  else
    let n := if off + n > din.size then din.size - off else n
    do
      let (out, disk, din) ← readiLoop sb dst n n disk din 0 off []
      pure (n, out, disk, din)

/-- The loop of `writei`; it returns the file offset it stopped at. -/
def writeiLoop (src : Nat → Option UInt8) (n : Nat) :
    (fuel : Nat) → Disk → Dinode → (tot off : Nat) → Except Halt (Disk × Dinode × Nat)
  | 0, disk, din, _, off => pure (disk, din, off)
  | fuel + 1, disk, din, tot, off =>
    if tot < n then do
      let (addr, disk, din) ← bmap sb disk din (off / BSIZE)
      let m := min (n - tot) (BSIZE - off % BSIZE)
      match copyinBytes src tot m with
      | none => pure (disk, din, off)
      | some bytes => writeiLoop src n fuel (disk.writeBytes addr (off % BSIZE) bytes) din (tot + m) (off + m)
    else pure (disk, din, off)

/-- `writei(ip, user_src, src, off, n)` on inode `inum`: the return value, and the
disk and inode afterwards (written back by `iupdate` when `n > 0`). -/
def writei (disk : Disk) (inum : Nat) (din : Dinode) (src : Nat → Option UInt8) (off n : UInt32) :
    Except Halt (Int × Disk × Dinode) :=
  let off := off.toNat
  let n := n.toNat
  if off > din.size ∨ (off + n) % 4294967296 < off then pure (-1, disk, din)
  else if off + n > MAXFILE * BSIZE then pure (-1, disk, din)
  else do
    let (disk, din, off) ← writeiLoop sb src n n disk din 0 off
    if n > 0 then
      let din := if off > din.size then { din with size := off } else din
      pure (n, iupdate disk inum din, din)
    else pure (n, disk, din)

end Content

end Xv6Fs
