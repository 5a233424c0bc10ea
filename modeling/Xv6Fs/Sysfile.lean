import Xv6Fs.Path

/-!
# File-system system calls

The system calls of `sysfile.c` that act on the file system, and the parts of the
open-file layer they call.  `file.c` is not among the sources: `filealloc`,
`filedup`, `fileclose`, `fileread`, `filewrite` and `filestat` are modelled from the
spec and from the kernel this lab builds on.  The log is an external collaborator
whose contract is atomic commit; `begin_op` and `end_op` leave no trace in the model,
and a system call is one step.

Each system call returns the value the kernel hands back to user space, `-1` on
failure.  A `goto bad` of the source is a local function `bad` that every failing
branch calls.
-/

namespace Xv6Fs

/-- `argstr(n, buf, MAXPATH)`: the string at the argument's address, refused when it
has no `NUL` within `MAXPATH` bytes. -/
def argstr (arg : List UInt8) : Option (List UInt8) :=
  let str := arg.takeWhile (· ≠ 0)
  if str.length < MAXPATH then some str else none

/-- The C string `"."`. -/
def dotName : List UInt8 := [46]

/-- The C string `".."`. -/
def dotdotName : List UInt8 := [46, 46]

/-- `ip->nlink += delta` on the `short` field. -/
def addNlink (s : Sys) (ip : Nat) (delta : Int) : Sys :=
  s.setSlot ip { s.icache ip with
    din := { (s.icache ip).din with nlink := toShort ((s.icache ip).din.nlink + delta) } }

/-- Overwrite file table entry `f`. -/
def Sys.setFile (s : Sys) (f : Nat) (file : File) : Sys :=
  { s with ftable := setAt s.ftable f file }

/-- Overwrite the current process. -/
def Sys.setProc (s : Sys) (proc : Proc) : Sys :=
  { s with procs := setAt s.procs s.cur proc }

/-- The scan of `fdalloc` over descriptors `fd < NOFILE`. -/
def fdallocScan (ofile : Nat → Option Nat) : (remaining fd : Nat) → Option Nat
  | 0, _ => none
  | remaining + 1, fd => if ofile fd = none then some fd else fdallocScan ofile remaining (fd + 1)

/-- `fdalloc(f)`: the lowest free descriptor of the current process, now naming `f`. -/
def fdalloc (s : Sys) (f : Nat) : Option Nat × Sys :=
  let proc := s.procs s.cur
  match fdallocScan proc.ofile NOFILE 0 with
  | some fd => (some fd, s.setProc { proc with ofile := setAt proc.ofile fd (some f) })
  | none => (none, s)

/-- `argfd(n, &fd, &f)`: the open file of descriptor `fd` of the current process. -/
def argfd (s : Sys) (fd : Int) : Option (Nat × Nat) :=
  if fd < 0 ∨ fd ≥ NOFILE then none
  else ((s.procs s.cur).ofile fd.toNat).map fun f => (fd.toNat, f)

/-- The scan of `filealloc` over file table entries `f < NFILE`. -/
def fileallocScan (ftable : Nat → File) : (remaining f : Nat) → Option Nat
  | 0, _ => none
  | remaining + 1, f => if (ftable f).ref = 0 then some f else fileallocScan ftable remaining (f + 1)

/-- Modelled from the spec: `filealloc()`, the first unused entry of the file table,
now with `ref = 1`. -/
def filealloc (s : Sys) : Option Nat × Sys :=
  match fileallocScan s.ftable NFILE 0 with
  | some f => (some f, s.setFile f { s.ftable f with ref := 1 })
  | none => (none, s)

section Syscalls

variable (sb : Superblock)

/-- Modelled from the spec: `fileclose(f)`; the last close of an inode or device file
drops the file's inode reference. -/
def fileclose (s : Sys) (f : Nat) : Except Halt Sys :=
  let file := s.ftable f
  if file.ref < 1 then .error (.fatal "fileclose")
  else if file.ref - 1 > 0 then .ok (s.setFile f { file with ref := file.ref - 1 })
  else
    let s := s.setFile f { file with ref := 0, type := .none }
    if file.type = .inode ∨ file.type = .device then iput sb s file.ip else .ok s

/-- Modelled from the spec: one transaction of `filewrite` on an inode file: lock the
inode, `writei` at the file offset, advance the offset by what was written. -/
def filewriteChunk (s : Sys) (f : Nat) (src : Nat → Option UInt8) (n1 : Nat) :
    Except Halt (Int × Sys) := do
  let ip := (s.ftable f).ip
  let s ← ilock s ip
  let (written, s) ← writeiSlot sb s ip src (UInt32.ofNat (s.ftable f).off) (UInt32.ofNat n1)
  let s := if written > 0 then
      s.setFile f { s.ftable f with off := (s.ftable f).off + written.toNat }
    else s
  let s ← iunlock s ip
  pure (written, s)

/-- Modelled from the spec: the largest write one transaction may carry,
`((MAXOPBLOCKS-1-1-2) / 2) * BSIZE` with `MAXOPBLOCKS = 10`. -/
def maxWriteChunk : Nat :=
  (10 - 1 - 1 - 2) / 2 * BSIZE

/-- Modelled from the spec: the loop of `filewrite`, `i` bytes written so far. -/
def filewriteLoop (f : Nat) (src : Nat → Option UInt8) (n : Nat) :
    (fuel i : Nat) → Sys → Except Halt (Nat × Sys)
  | 0, i, s => pure (i, s)
  | fuel + 1, i, s => do
    if i < n then
      let n1 := min (n - i) maxWriteChunk
      let (written, s) ← filewriteChunk sb s f (fun k => src (i + k)) n1
      if written < 0 then pure (i, s)
      else if written ≠ n1 then throw (.fatal "short filewrite")
      else filewriteLoop f src n fuel (i + n1) s
    else pure (i, s)

/-- Modelled from the spec: `filewrite(f, addr, n)`.  Device writes go to a driver
outside the file system and change nothing here; pipes are not modelled. -/
def filewrite (s : Sys) (f : Nat) (src : Nat → Option UInt8) (n : Int) : Except Halt (Int × Sys) := do
  let file := s.ftable f
  if !file.writable then pure (-1, s)
  else
    match file.type with
    | .inode =>
      let (i, s) ← filewriteLoop sb f src n.toNat (n.toNat + 1) 0 s
      pure (if (i : Int) = n then n else -1, s)
    | .device => pure (if file.major < 0 ∨ file.major ≥ NDEV then -1 else n, s)
    | .pipe => pure (-1, s)
    | .none => throw (.fatal "filewrite")

/-- `sys_write(fd, addr, n)`. -/
def sys_write (s : Sys) (fd : Int) (src : Nat → Option UInt8) (n : Int) : Except Halt (Int × Sys) :=
  match argfd s fd with
  | none => pure (-1, s)
  | some (_, f) => filewrite sb s f src n

/-- `sys_close(fd)`. -/
def sys_close (s : Sys) (fd : Int) : Except Halt (Int × Sys) := do
  match argfd s fd with
  | none => pure (-1, s)
  | some (fd, f) =>
    let proc := s.procs s.cur
    let s ← fileclose sb (s.setProc { proc with ofile := setAt proc.ofile fd none }) f
    pure (0, s)

/-- C's conversion of an `int` argument into a `uint` parameter: wrap into `[0, 2^32)`. -/
def toUint (value : Int) : UInt32 :=
  UInt32.ofNat (value % 4294967296).toNat

/-- Modelled from the spec: `fileread(f, addr, n)`: the count and the bytes delivered to
`dst`.  An inode file is read under its lock at the file offset, which moves on by what
was read.  Device reads go to a driver outside the file system and change nothing
here; pipes are not modelled. -/
def fileread (s : Sys) (f : Nat) (dst : Nat → Bool) (n : Int) :
    Except Halt ((Int × List UInt8) × Sys) := do
  let file := s.ftable f
  if !file.readable then pure ((-1, []), s)
  else
    match file.type with
    | .inode =>
      let ip := file.ip
      let s ← ilock s ip
      let ((r, out), s) ← readiSlot sb s ip dst (UInt32.ofNat (s.ftable f).off) (toUint n)
      let s := if r > 0 then s.setFile f { s.ftable f with off := (s.ftable f).off + r.toNat } else s
      let s ← iunlock s ip
      pure ((r, out), s)
    | .device => pure ((if file.major < 0 ∨ file.major ≥ NDEV then -1 else n, []), s)
    | .pipe => pure ((-1, []), s)
    | .none => throw (.fatal "fileread")

/-- `sys_read(fd, addr, n)`. -/
def sys_read (s : Sys) (fd : Int) (dst : Nat → Bool) (n : Int) : Except Halt ((Int × List UInt8) × Sys) :=
  match argfd s fd with
  | none => pure ((-1, []), s)
  | some (_, f) => fileread sb s f dst n

/-- Modelled from the spec: `filedup(f)`, one more reference to the open file. -/
def filedup (s : Sys) (f : Nat) : Except Halt Sys :=
  if (s.ftable f).ref < 1 then .error (.fatal "filedup")
  else .ok (s.setFile f { s.ftable f with ref := (s.ftable f).ref + 1 })

/-- `sys_dup(fd)`: a second descriptor for the open file of `fd`. -/
def sys_dup (s : Sys) (fd : Int) : Except Halt (Int × Sys) := do
  match argfd s fd with
  | none => pure (-1, s)
  | some (_, f) =>
    match fdalloc s f with
    | (none, s) => pure (-1, s)
    | (some fd, s) =>
      let s ← filedup s f
      pure (fd, s)

/-- `struct stat`, the fields `stati` fills. -/
structure Stat where
  dev : Nat
  ino : Nat
  type : Int
  nlink : Int
  size : Nat
  deriving DecidableEq, Repr

/-- `stati(ip, st)` on cache slot `ip`. -/
def stati (s : Sys) (ip : Nat) : Stat :=
  let slot := s.icache ip
  ⟨slot.dev, slot.inum, slot.din.type, slot.din.nlink, slot.din.size⟩

/-- Modelled from the spec: `filestat(f, addr)`: the count and the record copied out,
where `copied` says whether `copyout` to `addr` succeeds. -/
def filestat (s : Sys) (f : Nat) (copied : Bool) : Except Halt ((Int × Option Stat) × Sys) := do
  let file := s.ftable f
  if file.type = .inode ∨ file.type = .device then
    let s ← ilock s file.ip
    let st := stati s file.ip
    let s ← iunlock s file.ip
    pure (if copied then ((0, some st), s) else ((-1, none), s))
  else pure ((-1, none), s)

/-- `sys_fstat(fd, st)`. -/
def sys_fstat (s : Sys) (fd : Int) (copied : Bool) : Except Halt ((Int × Option Stat) × Sys) :=
  match argfd s fd with
  | none => pure ((-1, none), s)
  | some (_, f) => filestat s f copied

/-- The rollback of `sys_link`, its `bad:` label: lower the link count again. -/
def linkUndo (s : Sys) (ip : Nat) : Except Halt (Int × Sys) := do
  let s ← ilock s ip
  let s := iupdateSlot (addNlink s ip (-1)) ip
  let s ← iunlockput sb s ip
  pure (-1, s)

/-- `sys_link(old, new)`: link `new` to the inode of `old`; the link count is raised
first and lowered again if the new name cannot be made. -/
def sys_link (s : Sys) (old new : List UInt8) : Except Halt (Int × Sys) := do
  match argstr old, argstr new with
  | some old, some new =>
    match ← namei sb s old with
    | (none, s) => pure (-1, s)
    | (some ip, s) =>
      let s ← ilock s ip
      if (s.icache ip).din.type = T_DIR then
        let s ← iunlockput sb s ip
        pure (-1, s)
      else
        let s ← iunlock (iupdateSlot (addNlink s ip 1) ip) ip
        match ← nameiparent sb s new with
        | (none, s) => linkUndo sb s ip
        | (some (dp, name), s) =>
          let s ← ilock s dp
          if (s.icache dp).dev ≠ (s.icache ip).dev then
            let s ← iunlockput sb s dp
            linkUndo sb s ip
          else
            let (linked, s) ← dirlink sb s dp name (s.icache ip).inum
            if linked < 0 then
              let s ← iunlockput sb s dp
              linkUndo sb s ip
            else
              let s ← iunlockput sb s dp
              let s ← iput sb s ip
              pure (0, s)
  | _, _ => pure (-1, s)

/-- The loop of `isdirempty` from byte offset `off` on. -/
def isdiremptyLoop (dp : Nat) : (fuel off : Nat) → Sys → Except Halt (Bool × Sys)
  | 0, _, s => pure (true, s)
  | fuel + 1, off, s => do
    if off < (s.icache dp).din.size then
      let ((read, bytes), s) ← readiSlot sb s dp kernelDst (UInt32.ofNat off) (UInt32.ofNat DIRENT_SIZE)
      if read ≠ DIRENT_SIZE then throw (.fatal "isdirempty: readi")
      if (Dirent.decode bytes).inum ≠ 0 then pure (false, s)
      else isdiremptyLoop dp fuel (off + DIRENT_SIZE) s
    else pure (true, s)

/-- `isdirempty(dp)`: every entry but `.` and `..` is free. -/
def isdirempty (s : Sys) (dp : Nat) : Except Halt (Bool × Sys) :=
  isdiremptyLoop sb dp ((s.icache dp).din.size / DIRENT_SIZE + 1) (2 * DIRENT_SIZE) s

/-- The part of `sys_unlink` after the entry's inode `ip` is locked: refuse a
non-empty directory, else clear the entry at `off` and drop the link counts it
accounted for. -/
def unlinkEntry (s : Sys) (dp ip off : Nat) : Except Halt (Int × Sys) := do
  if (s.icache ip).din.nlink < 1 then throw (.fatal "unlink: nlink < 1")
  let (empty, s) ← if (s.icache ip).din.type = T_DIR then isdirempty sb s ip else pure (true, s)
  if !empty then
    let s ← iunlockput sb s ip
    let s ← iunlockput sb s dp
    pure (-1, s)
  else
    let (written, s) ← writeiSlot sb s dp (kernelSrc (List.replicate DIRENT_SIZE 0))
      (UInt32.ofNat off) (UInt32.ofNat DIRENT_SIZE)
    if written ≠ DIRENT_SIZE then throw (.fatal "unlink: writei")
    let s := if (s.icache ip).din.type = T_DIR then iupdateSlot (addNlink s dp (-1)) dp else s
    let s ← iunlockput sb s dp
    let s ← iunlockput sb (iupdateSlot (addNlink s ip (-1)) ip) ip
    pure (0, s)

/-- `sys_unlink(path)`. -/
def sys_unlink (s : Sys) (path : List UInt8) : Except Halt (Int × Sys) := do
  match argstr path with
  | none => pure (-1, s)
  | some path =>
    match ← nameiparent sb s path with
    | (none, s) => pure (-1, s)
    | (some (dp, name), s) =>
      let s ← ilock s dp
      let bad (s : Sys) : Except Halt (Int × Sys) := do
        let s ← iunlockput sb s dp
        pure (-1, s)
      -- Cannot unlink "." or "..".
      if namecmp name dotName = 0 ∨ namecmp name dotdotName = 0 then bad s
      else
        match ← dirlookup sb s dp name with
        | (none, s) => bad s
        | (some (ip, off), s) =>
          let s ← ilock s ip
          unlinkEntry sb s dp ip off

/-- The part of `create` that makes a new inode for `name` in the locked directory
`dp`. -/
def createNew (s : Sys) (dp : Nat) (name : List UInt8) (type major minor : Int) :
    Except Halt (Option Nat × Sys) := do
  let (ip, s) ← ialloc sb s (s.icache dp).dev type
  let s ← ilock s ip
  let s := iupdateSlot (s.setSlot ip { s.icache ip with
    din := { (s.icache ip).din with major := major, minor := minor, nlink := 1 } }) ip
  let s ← if type = T_DIR then do
      -- Create . and .. entries; no ip->nlink++ for ".": avoid cyclic ref count.
      let s := iupdateSlot (addNlink s dp 1) dp
      let (dot, s) ← dirlink sb s ip dotName (s.icache ip).inum
      if dot < 0 then throw (.fatal "create dots")
      let (dotdot, s) ← dirlink sb s ip dotdotName (s.icache dp).inum
      if dotdot < 0 then throw (.fatal "create dots")
      pure s
    else pure s
  let (linked, s) ← dirlink sb s dp name (s.icache ip).inum
  if linked < 0 then throw (.fatal "create: dirlink")
  let s ← iunlockput sb s dp
  pure (some ip, s)

/-- `create(path, type, major, minor)`: the locked inode of a new entry, or of an
existing file when a file is asked for. -/
def create (s : Sys) (path : List UInt8) (type major minor : Int) : Except Halt (Option Nat × Sys) := do
  match ← nameiparent sb s path with
  | (none, s) => pure (none, s)
  | (some (dp, name), s) =>
    let s ← ilock s dp
    match ← dirlookup sb s dp name with
    | (some (ip, _), s) =>
      let s ← iunlockput sb s dp
      let s ← ilock s ip
      let found := (s.icache ip).din.type
      if type = T_FILE ∧ (found = T_FILE ∨ found = T_DEVICE) then pure (some ip, s)
      else
        let s ← iunlockput sb s ip
        pure (none, s)
    | (none, s) => createNew sb s dp name type major minor

/-- The loop of `symfollow`: `ip` is locked, `symlinks` links have been met. -/
def symfollowLoop : (fuel ip symlinks : Nat) → Sys → Except Halt (Option Nat × Sys)
  | 0, _, _, s => pure (none, s)
  | fuel + 1, ip, symlinks, s => do
    match ← namei sb s (s.icache ip).target with
    | (none, s) =>
      let s ← iunlock s ip
      pure (none, s)
    | (some t, s) =>
      let s ← iunlock s ip
      let s ← ilock s t
      if (s.icache t).din.type ≠ T_SYMLINK then pure (some t, s)
      else
        let symlinks := symlinks + 1
        if symlinks > 10 then pure (none, s)
        else symfollowLoop fuel t symlinks s

/-- `symfollow(ip)`: follow symbolic links from the locked link `ip`, at most ten. -/
def symfollow (s : Sys) (ip : Nat) : Except Halt (Option Nat × Sys) :=
  symfollowLoop sb 10 ip 1 s

/-- The path-resolving part of `sys_open` without `O_CREATE`: the locked inode to
open, following a symbolic link unless `O_NOFOLLOW` is given. -/
def openLookup (s : Sys) (path : List UInt8) (omode : BitVec 32) : Except Halt (Option Nat × Sys) := do
  match ← namei sb s path with
  | (none, s) => pure (none, s)
  | (some ip, s) =>
    let s ← ilock s ip
    let type := (s.icache ip).din.type
    if type = T_DIR ∧ omode ≠ O_RDONLY then
      let s ← iunlockput sb s ip
      pure (none, s)
    else if type = T_SYMLINK ∧ omode &&& O_NOFOLLOW = 0 then symfollow sb s ip
    else pure (some ip, s)

/-- The part of `sys_open` after the inode `ip` is found and locked: check a device's
major number, then bind a new file and descriptor to the inode. -/
def openFile (s : Sys) (ip : Nat) (omode : BitVec 32) : Except Halt (Int × Sys) := do
  let din := (s.icache ip).din
  if din.type = T_DEVICE ∧ (din.major < 0 ∨ din.major ≥ NDEV) then
    let s ← iunlockput sb s ip
    pure (-1, s)
  else
    match filealloc s with
    | (none, s) =>
      let s ← iunlockput sb s ip
      pure (-1, s)
    | (some f, s) =>
      match fdalloc s f with
      | (none, s) =>
        let s ← fileclose sb s f
        let s ← iunlockput sb s ip
        pure (-1, s)
      | (some fd, s) =>
        let file := s.ftable f
        let file := if din.type = T_DEVICE then
            { file with type := .device, major := din.major, minor := din.minor }
          else { file with type := .inode }
        let s := s.setFile f { file with
          ip := ip, off := 0,
          readable := omode &&& O_WRONLY = 0,
          writable := omode &&& O_WRONLY ≠ 0 ∨ omode &&& O_RDWR ≠ 0 }
        let s ← iunlock s ip
        pure (fd, s)

/-- `sys_open(path, omode)`. -/
def sys_open (s : Sys) (path : List UInt8) (omode : BitVec 32) : Except Halt (Int × Sys) := do
  match argstr path with
  | none => pure (-1, s)
  | some path =>
    let (opened, s) ←
      if omode &&& O_CREATE ≠ 0 then create sb s path T_FILE 0 0 else openLookup sb s path omode
    match opened with
    | none => pure (-1, s)
    | some ip => openFile sb s ip omode

/-- `sys_mkdir(path)`. -/
def sys_mkdir (s : Sys) (path : List UInt8) : Except Halt (Int × Sys) := do
  match argstr path with
  | none => pure (-1, s)
  | some path =>
    match ← create sb s path T_DIR 0 0 with
    | (none, s) => pure (-1, s)
    | (some ip, s) =>
      let s ← iunlockput sb s ip
      pure (0, s)

/-- `sys_mknod(path, major, minor)`; the `int` arguments become `short` fields. -/
def sys_mknod (s : Sys) (path : List UInt8) (major minor : Int) : Except Halt (Int × Sys) := do
  match argstr path with
  | none => pure (-1, s)
  | some path =>
    match ← create sb s path T_DEVICE (toShort major) (toShort minor) with
    | (none, s) => pure (-1, s)
    | (some ip, s) =>
      let s ← iunlockput sb s ip
      pure (0, s)

/-- `sys_chdir(path)`. -/
def sys_chdir (s : Sys) (path : List UInt8) : Except Halt (Int × Sys) := do
  match argstr path with
  | none => pure (-1, s)
  | some path =>
    match ← namei sb s path with
    | (none, s) => pure (-1, s)
    | (some ip, s) =>
      let s ← ilock s ip
      if (s.icache ip).din.type ≠ T_DIR then
        let s ← iunlockput sb s ip
        pure (-1, s)
      else
        let s ← iunlock s ip
        let s ← iput sb s (s.procs s.cur).cwd
        pure (0, s.setProc { s.procs s.cur with cwd := ip })

/-- `sys_symlink(target, path)`: the target is stored, zero-padded to `MAXPATH`
bytes, in the new inode's cache slot. -/
def sys_symlink (s : Sys) (target path : List UInt8) : Except Halt (Int × Sys) := do
  match argstr target, argstr path with
  | some target, some path =>
    match ← create sb s path T_SYMLINK 0 0 with
    | (none, s) => pure (-1, s)
    | (some ip, s) =>
      let l := min target.length MAXPATH
      let s := s.setSlot ip { s.icache ip with target := target.take l ++ List.replicate (MAXPATH - l) 0 }
      let s ← iunlockput sb s ip
      pure (0, s)
  | _, _ => pure (-1, s)

end Syscalls

end Xv6Fs
