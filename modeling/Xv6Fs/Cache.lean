import Xv6Fs.Content

/-!
# The inode cache

The kernel state is the disk, the inode cache `icache`, the table of open files and
the processes, each with its current directory and file descriptors.  A kernel
computation takes the state and either halts or returns a result with the new
state.

Every cache slot keeps `ref`, `valid` and the sleep-lock beside its copy of the disk
inode, `din`, which `ilock` loads and `iupdate` writes back.  The slot also keeps the
`target` path of a symbolic link: `ilock` and `iupdate` do not copy it, so it lives
only in the slot.

A system call runs to completion before the next one starts; a sleep-lock that is
held when `acquiresleep` is called therefore belongs either to the caller itself or to
a process that returned to user space while holding it, and in both cases it is never
released.
-/

namespace Xv6Fs

/-- `struct inode`: a slot of the inode cache.  `holder` is the process holding the
sleep-lock, `din` the copy of the disk inode. -/
structure Slot where
  dev : Nat
  inum : Nat
  ref : Int
  valid : Bool
  holder : Option Nat
  din : Dinode
  target : List UInt8

/-- A slot as the zeroed static `icache` holds it at boot. -/
def Slot.empty : Slot :=
  ⟨0, 0, 0, false, none, Dinode.zero, []⟩

/-- Modelled from the spec: the `type` of a `struct file` (`file.h` is not among the
sources). -/
inductive FileType where
  | none
  | pipe
  | inode
  | device
  deriving DecidableEq, Repr

/-- Modelled from the spec: `struct file`, an open file object bound to a cache
slot `ip`. -/
structure File where
  type : FileType
  ref : Int
  readable : Bool
  writable : Bool
  ip : Nat
  off : Nat
  major : Int
  minor : Int

/-- A file table entry as the zeroed static `ftable` holds it at boot. -/
def File.empty : File :=
  ⟨.none, 0, false, false, 0, 0, 0, 0⟩

/-- The part of `struct proc` the file system uses: the current directory and the
open file descriptors. -/
structure Proc where
  cwd : Nat
  ofile : Nat → Option Nat

/-- The kernel state.  `cur` is the process on whose behalf the kernel runs,
`myproc()`. -/
structure Sys where
  disk : Disk
  icache : Nat → Slot
  ftable : Nat → File
  procs : Nat → Proc
  cur : Nat

namespace Sys

/-- Replace cache slot `ip`. -/
def setSlot (s : Sys) (ip : Nat) (slot : Slot) : Sys :=
  { s with icache := setAt s.icache ip slot }

@[simp] theorem setSlot_disk (s : Sys) (ip : Nat) (slot : Slot) : (s.setSlot ip slot).disk = s.disk :=
  rfl

@[simp] theorem setSlot_ftable (s : Sys) (ip : Nat) (slot : Slot) :
    (s.setSlot ip slot).ftable = s.ftable := rfl

@[simp] theorem setSlot_procs (s : Sys) (ip : Nat) (slot : Slot) : (s.setSlot ip slot).procs = s.procs :=
  rfl

@[simp] theorem setSlot_cur (s : Sys) (ip : Nat) (slot : Slot) : (s.setSlot ip slot).cur = s.cur :=
  rfl

@[simp] theorem setSlot_icache (s : Sys) (ip : Nat) (slot : Slot) :
    (s.setSlot ip slot).icache = setAt s.icache ip slot := rfl

end Sys

section Cache

variable (sb : Superblock)

/-- The scan of `iget`: the first slot caching `(dev, inum)` with `ref > 0`, or else
the first slot with `ref == 0` remembered on the way. -/
def igetScan (icache : Nat → Slot) (dev inum : Nat) :
    (remaining i : Nat) → Option Nat → Sum Nat (Option Nat)
  | 0, _, empty => .inr empty
  | remaining + 1, i, empty =>
    if (icache i).ref > 0 ∧ (icache i).dev = dev ∧ (icache i).inum = inum then .inl i
    else igetScan icache dev inum remaining (i + 1)
      (if empty = none ∧ (icache i).ref = 0 then some i else empty)

/-- `iget(dev, inum)`: a referenced slot for the inode, not locked and not read. -/
def iget (s : Sys) (dev inum : Nat) : Except Halt (Nat × Sys) :=
  match igetScan s.icache dev inum NINODE 0 none with
  | .inl ip => .ok (ip, s.setSlot ip { s.icache ip with ref := (s.icache ip).ref + 1 })
  | .inr none => .error (.fatal "iget: no inodes")
  | .inr (some ip) => .ok (ip, s.setSlot ip { s.icache ip with dev := dev, inum := inum, ref := 1, valid := false })

/-- `idup(ip)`. -/
def idup (s : Sys) (ip : Nat) : Sys :=
  s.setSlot ip { s.icache ip with ref := (s.icache ip).ref + 1 }

/-- `acquiresleep(&ip->lock)`: a lock that is held is never released. -/
def acquiresleep (s : Sys) (ip : Nat) : Except Halt Sys :=
  match (s.icache ip).holder with
  | some holder => .error (if holder = s.cur then .selfDeadlock else .blocked)
  | none => .ok (s.setSlot ip { s.icache ip with holder := some s.cur })

/-- `releasesleep(&ip->lock)`. -/
def releasesleep (s : Sys) (ip : Nat) : Sys :=
  s.setSlot ip { s.icache ip with holder := none }

/-- `ilock(ip)`: lock the slot and read the disk inode if the slot is not valid. -/
def ilock (s : Sys) (ip : Nat) : Except Halt Sys := do
  if (s.icache ip).ref < 1 then throw (.fatal "ilock")
  let s ← acquiresleep s ip
  let slot := s.icache ip
  if slot.valid then pure s
  else
    let din := s.disk.dinode slot.inum
    if din.type = 0 then throw (.fatal "ilock: no type")
    pure (s.setSlot ip { slot with din := din, valid := true })

/-- Modelled from the spec: `holdingsleep(&ip->lock)` of `sleeplock.c`, whether the
current process holds the slot's sleep-lock. -/
def holdingsleep (s : Sys) (ip : Nat) : Bool :=
  match (s.icache ip).holder with
  | some holder => holder == s.cur
  | none => false

/-- `iunlock(ip)`. -/
def iunlock (s : Sys) (ip : Nat) : Except Halt Sys :=
  if !holdingsleep s ip ∨ (s.icache ip).ref < 1 then .error (.fatal "iunlock")
  else .ok (releasesleep s ip)

/-- `iupdate(ip)` on cache slot `ip`. -/
def iupdateSlot (s : Sys) (ip : Nat) : Sys :=
  { s with disk := iupdate s.disk (s.icache ip).inum (s.icache ip).din }

/-- The freeing part of `iput`: truncate the inode, mark it free on disk and
invalidate the slot, under the slot's sleep-lock. -/
def ifree (s : Sys) (ip : Nat) : Except Halt Sys := do
  let s ← acquiresleep s ip
  let slot := s.icache ip
  let (disk, din) ← itrunc sb s.disk slot.inum slot.din
  let din := { din with type := 0 }
  let s := { s with disk := iupdate disk slot.inum din }.setSlot ip { slot with din := din, valid := false }
  pure (releasesleep s ip)

/-- `iput(ip)`: drop a reference; the last reference to an inode with no links
truncates and frees it. -/
def iput (s : Sys) (ip : Nat) : Except Halt Sys := do
  let slot := s.icache ip
  let s ← if slot.ref = 1 ∧ slot.valid ∧ slot.din.nlink = 0 then ifree sb s ip else pure s
  pure (s.setSlot ip { s.icache ip with ref := (s.icache ip).ref - 1 })

/-- `iunlockput(ip)`. -/
def iunlockput (s : Sys) (ip : Nat) : Except Halt Sys := do
  let s ← iunlock s ip
  iput sb s ip

/-- The scan of `ialloc` over inode numbers `1 ≤ inum < sb.ninodes`. -/
def iallocScan (disk : Disk) (type : Int) : (remaining inum : Nat) → Option (Disk × Nat)
  | 0, _ => none
  | remaining + 1, inum =>
    if inum < sb.ninodes then
      if (disk.dinode inum).type = 0 then
        some (disk.setDinode inum { Dinode.zero with type := type }, inum)
      else iallocScan disk type remaining (inum + 1)
    else none

/-- `ialloc(dev, type)`: mark the first free disk inode allocated and return a
referenced slot for it. -/
def ialloc (s : Sys) (dev : Nat) (type : Int) : Except Halt (Nat × Sys) :=
  match iallocScan sb s.disk type sb.ninodes 1 with
  | some (disk, inum) => iget { s with disk := disk } dev inum
  | none => .error (.fatal "ialloc: no inodes")

/-- `readi` on cache slot `ip`. -/
def readiSlot (s : Sys) (ip : Nat) (dst : Nat → Bool) (off n : UInt32) :
    Except Halt ((Int × List UInt8) × Sys) := do
  let (result, out, disk, din) ← readi sb s.disk (s.icache ip).din dst off n
  pure ((result, out), { s with disk := disk }.setSlot ip { s.icache ip with din := din })

/-- `writei` on cache slot `ip`. -/
def writeiSlot (s : Sys) (ip : Nat) (src : Nat → Option UInt8) (off n : UInt32) :
    Except Halt (Int × Sys) := do
  let (result, disk, din) ← writei sb s.disk (s.icache ip).inum (s.icache ip).din src off n
  pure (result, { s with disk := disk }.setSlot ip { s.icache ip with din := din })

end Cache

end Xv6Fs
