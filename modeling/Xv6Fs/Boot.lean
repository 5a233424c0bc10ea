import Xv6Fs.Sysfile

/-!
# The file system at boot, and its runs

`mkfs` is not among the sources.  The disk at boot is modelled from the spec and
from the layout `mkfs` writes: the metadata blocks and the root directory's first
data block marked in the bitmap, and a root directory (inode `ROOTINO`) of one
block holding `.` and `..`, both naming the root, its size rounded up to `BSIZE`.

Processes `0 ≤ pid < nproc` start with the root directory as current directory,
all sharing cache slot `0`.  A run is any sequence of the file-system calls of
`sysfile.c`, each made by any process, each completing before the next begins.
-/

namespace Xv6Fs

/-- The bitmap byte covering `n` further used blocks: its low `min n 8` bits set. -/
def usedByte (n : Nat) : UInt8 :=
  UInt8.ofNat (2 ^ min n 8 - 1)

/-- The bytes of the root directory's first block: `.` and `..`, both naming
`ROOTINO`. -/
def rootDirBytes : List UInt8 :=
  Dirent.encode ⟨ROOTINO, strncpy dotName DIRSIZ⟩ ++ Dirent.encode ⟨ROOTINO, strncpy dotdotName DIRSIZ⟩

/-- Modelled from the spec: the root inode `mkfs` writes. -/
def rootDinode (sb : Superblock) : Dinode :=
  { Dinode.zero with
    type := T_DIR, nlink := 1, size := BSIZE,
    addrs := fun k => if k.val = 0 then sb.dataStart else 0 }

/-- Modelled from the spec: the disk `mkfs` writes, with the blocks below
`dataStart + 1` in use. -/
def mkfs (sb : Superblock) : Disk where
  dinode := fun inum => if inum = ROOTINO then rootDinode sb else Dinode.zero
  block := fun b i =>
    if sb.bmapstart ≤ b ∧ b < sb.dataStart then
      usedByte (sb.dataStart + 1 - ((b - sb.bmapstart) * BPB + 8 * i))
    else if b = sb.dataStart then rootDirBytes.getD i 0
    else 0

/-- The kernel state at boot: `nproc` processes whose current directory is the root,
cached unread in slot `0`. -/
def boot (sb : Superblock) (nproc : Nat) : Sys where
  disk := mkfs sb
  icache := fun i => if i = 0 then { Slot.empty with dev := ROOTDEV, inum := ROOTINO, ref := nproc }
    else Slot.empty
  ftable := fun _ => File.empty
  procs := fun _ => ⟨0, fun _ => none⟩
  cur := 0

/-- The file-system calls a process can make, with their arguments. -/
inductive Syscall where
  | link (old new : List UInt8)
  | unlink (path : List UInt8)
  | openFile (path : List UInt8) (omode : BitVec 32)
  | mkdir (path : List UInt8)
  | mknod (path : List UInt8) (major minor : Int)
  | symlink (target path : List UInt8)
  | chdir (path : List UInt8)
  | write (fd : Int) (src : Nat → Option UInt8) (n : Int)
  | close (fd : Int)

/-- The kernel entry point of each call. -/
def Syscall.run (sb : Superblock) : Syscall → Sys → Except Halt (Int × Sys)
  | .link old new, s => sys_link sb s old new
  | .unlink path, s => sys_unlink sb s path
  | .openFile path omode, s => sys_open sb s path omode
  | .mkdir path, s => sys_mkdir sb s path
  | .mknod path major minor, s => sys_mknod sb s path major minor
  | .symlink target path, s => sys_symlink sb s target path
  | .chdir path, s => sys_chdir sb s path
  | .write fd src n, s => sys_write sb s fd src n
  | .close fd, s => sys_close sb s fd

/-- One system call of process `pid` that returns to user space. -/
inductive Step (sb : Superblock) (nproc : Nat) : Sys → Sys → Prop
  | call {s s' : Sys} {result : Int} (pid : Nat) (call : Syscall) :
      pid < nproc → call.run sb { s with cur := pid } = .ok (result, s') → Step sb nproc s s'

/-- The states a run from `init` reaches. -/
inductive Reachable (sb : Superblock) (nproc : Nat) (init : Sys) : Sys → Prop
  | init : Reachable sb nproc init init
  | step {s s' : Sys} : Reachable sb nproc init s → Step sb nproc s s' → Reachable sb nproc init s'

/-- A run of the calls `(pid, call)` in order: the values they return and the final
state, or the halt that stops it. -/
def runCalls (sb : Superblock) : List (Nat × Syscall) → Sys → Except Halt (List Int × Sys)
  | [], s => .ok ([], s)
  | (pid, call) :: calls, s => do
    let (result, s) ← call.run sb { s with cur := pid }
    let (results, s) ← runCalls sb calls s
    pure (result :: results, s)

theorem reachable_of_runCalls {sb : Superblock} {nproc : Nat} {init : Sys} :
    ∀ {calls : List (Nat × Syscall)} {s s' : Sys} {results : List Int},
      Reachable sb nproc init s → (∀ call ∈ calls, call.1 < nproc) →
      runCalls sb calls s = .ok (results, s') → Reachable sb nproc init s'
  | [], _, _, _, reach, _, run => by cases run; exact reach
  | (pid, call) :: calls, s, s', results, reach, pids, run => by
    simp only [runCalls, bind, Except.bind] at run
    split at run
    · cases run
    · rename_i first
      split at run
      · cases run
      · rename_i rest
        exact reachable_of_runCalls (.step reach (.call pid call (pids _ (List.mem_cons_self _ _)) first))
          (fun c mem => pids c (List.mem_cons_of_mem _ mem)) (by cases run; exact rest)

end Xv6Fs

namespace Xv6Fs

/-- The references to cache slot `k` that outlive a system call: the open file
objects bound to it and the processes `pid < nproc` whose current directory it is. -/
def heldRefs (s : Sys) (nproc k : Nat) : Nat :=
  ((List.range NFILE).filter fun f =>
      (s.ftable f).ref > 0 ∧ ((s.ftable f).type = .inode ∨ (s.ftable f).type = .device) ∧
        (s.ftable f).ip = k).length +
    ((List.range nproc).filter fun pid => (s.procs pid).cwd = k).length

/-- Whether a run completed with the results `rs`. -/
def ranWith (rs : List Int) : Except Halt (List Int × Sys) → Bool
  | .ok (results, _) => results == rs
  | .error _ => false

/-- The final state of a run, `init` for a run that halted. -/
def finalState (init : Sys) : Except Halt (List Int × Sys) → Sys
  | .ok (_, s) => s
  | .error _ => init

/-- A computation that `toBool` shows completed. -/
theorem exists_ok_of_toBool {ε α : Type} (run : Except ε α) (ok : run.toBool = true) : ∃ a, run = .ok a := by
  cases run with
  | error => cases ok
  | ok a => exact ⟨a, rfl⟩

/-- A run that completed with the results `rs` ends in `finalState`. -/
theorem eq_ok_of_ranWith {rs : List Int} {run : Except Halt (List Int × Sys)} (init : Sys)
    (ran : ranWith rs run = true) : run = .ok (rs, finalState init run) := by
  cases run with
  | error => cases ran
  | ok result =>
    obtain ⟨results, s⟩ := result
    simpa [ranWith, finalState] using ran

/-- A run that completed with the results `rs` in a state where `p` holds ends in
`finalState`; one evaluation of the run shows both. -/
theorem eq_ok_of_ranWith_and {rs : List Int} {run : Except Halt (List Int × Sys)} (init : Sys)
    (p : Sys → Prop) [DecidablePred p] (check : (ranWith rs run && decide (p (finalState init run))) = true) :
    run = .ok (rs, finalState init run) ∧ p (finalState init run) := by
  rw [Bool.and_eq_true, decide_eq_true_iff] at check
  exact ⟨eq_ok_of_ranWith init check.1, check.2⟩

/-- A computation whose result starts with `a`, as evaluation shows. -/
theorem exists_ok_of_fst_eq {ε α β : Type} (run : Except ε (α × β)) (a : α)
    (ran : run.toOption.map Prod.fst = some a) : ∃ b, run = .ok (a, b) := by
  cases run with
  | error => cases ran
  | ok r =>
    cases ran
    exact ⟨r.2, rfl⟩

/-- Whether a computation halted with `halt`. -/
def haltsWith {α : Type} (halt : Halt) : Except Halt α → Bool
  | .error h => h == halt
  | .ok _ => false

theorem eq_error_of_haltsWith {α : Type} {halt : Halt} {run : Except Halt α}
    (halted : haltsWith halt run = true) : run = .error halt := by
  cases run with
  | error h => simpa [haltsWith] using halted
  | ok => cases halted

/-- A run that completed with the results `rs` in a state where `p` holds. -/
theorem exists_of_ranWith {rs : List Int} {run : Except Halt (List Int × Sys)} (init : Sys)
    (p : Sys → Prop) [DecidablePred p]
    (check : (ranWith rs run && decide (p (finalState init run))) = true) :
    ∃ s, run = .ok (rs, s) ∧ p s := by
  rw [Bool.and_eq_true, decide_eq_true_iff] at check
  refine ⟨finalState init run, ?_, check.2⟩
  cases run with
  | error => cases check.1
  | ok result =>
    obtain ⟨results, s⟩ := result
    simpa [ranWith, finalState] using check.1

/-- A property of the state a completed run ends in holds of some reachable state. -/
theorem exists_reachable_of_run {sb : Superblock} {nproc : Nat} {init : Sys}
    (calls : List (Nat × Syscall)) (rs : List Int) (p : Sys → Prop) [DecidablePred p]
    (pids : ∀ call ∈ calls, call.1 < nproc)
    (check : (ranWith rs (runCalls sb calls init) && decide (p (finalState init (runCalls sb calls init))))
      = true) :
    ∃ s, Reachable sb nproc init s ∧ p s :=
  let ⟨_, run, holds⟩ := exists_of_ranWith init p check
  ⟨_, reachable_of_runCalls .init pids run, holds⟩

/-! ## Runs from boot that the design rules out

Each run below starts from the file system `mkfs` writes and makes only calls that
return to user space, except the last where a halt is shown.  Paths are the bytes
of their C strings: `47` is `/`, `46` is `.`. -/

set_option maxHeartbeats 400000 in
set_option maxRecDepth 100000 in
/-- `create` adds entries to a directory that has been unlinked while it is a current
directory.  A file made there keeps `nlink = 1` after the directory is freed, with no
entry in any directory and no reference in the cache: it can never be reached again. -/
theorem create_in_unlinked_cwd_orphans_inode :
    ∃ s, Reachable fs1000 2 (boot fs1000 2) s ∧
      (s.disk.dinode 3).type = T_FILE ∧ (s.disk.dinode 3).nlink = 1 ∧
      (∀ d < fs1000.ninodes, (s.disk.dinode d).type = T_DIR →
        ∀ de ∈ direntries s.disk (s.disk.dinode d), de.inum ≠ 3) ∧
      ∀ k < NINODE, (s.icache k).ref > 0 → (s.icache k).inum ≠ 3 :=
  exists_reachable_of_run [(0, .mkdir [47, 100]), (1, .chdir [47, 100]), (0, .unlink [47, 100]),
      (1, .openFile [120] (O_CREATE ||| O_RDWR)), (1, .close 0), (1, .chdir [47])]
    [0, 0, 0, 0, 0, 0] _ (by decide) (by decide)

set_option maxHeartbeats 400000 in
set_option maxRecDepth 100000 in
/-- The target of a symbolic link lives only in the cache slot.  Once opening `/d`
has reused the slot of the link `/s → /d`, opening `/s` reloads the link with an
empty target, which names the current directory: the two opens bind different
inodes. -/
theorem open_symlink_after_eviction_loses_target :
    ∃ s, runCalls fs1000 [(0, .mkdir [47, 100]), (0, .symlink [47, 100] [47, 115]),
        (0, .openFile [47, 100] O_RDONLY), (0, .openFile [47, 115] O_RDONLY)] (boot fs1000 1) =
        .ok ([0, 0, 0, 1], s) ∧
      (s.icache (s.ftable 0).ip).inum ≠ (s.icache (s.ftable 1).ip).inum :=
  exists_of_ranWith (boot fs1000 1) _ (by decide)

set_option maxHeartbeats 400000 in
set_option maxRecDepth 100000 in
/-- `symfollow` unlocks each link it passes without `iput`: after a failed open of a
dangling link, the link's slot keeps a reference that no file and no current
directory accounts for. -/
theorem symfollow_leaks_reference :
    ∃ s, Reachable fs1000 1 (boot fs1000 1) s ∧ ∃ k < NINODE, (s.icache k).ref ≠ heldRefs s 1 k :=
  exists_reachable_of_run [(0, .symlink [47, 120] [47, 115]), (0, .openFile [47, 115] O_RDONLY)]
    [0, -1] _ (by decide) (by decide)

set_option maxHeartbeats 400000 in
set_option maxRecDepth 100000 in
/-- `symfollow` resolves the target while it still holds the link's sleep-lock: a link
whose target runs through the link itself makes the process lock it a second time. -/
theorem symfollow_relocks_link :
    runCalls fs1000 [(0, .symlink [47, 115, 47, 120] [47, 115]), (0, .openFile [47, 115] O_RDONLY)]
      (boot fs1000 1) = .error .selfDeadlock :=
  eq_error_of_haltsWith (by decide)

set_option maxHeartbeats 400000 in
set_option maxRecDepth 100000 in
/-- The directory check of `sys_open` looks at the link, not at what it names: a link
to a directory opens the directory writable. -/
theorem open_symlink_to_dir_writable :
    ∃ s, Reachable fs1000 1 (boot fs1000 1) s ∧
      ∃ f < NFILE, (s.ftable f).ref > 0 ∧ (s.ftable f).type = .inode ∧ (s.ftable f).writable = true ∧
        (s.disk.dinode (s.icache (s.ftable f).ip).inum).type = T_DIR :=
  exists_reachable_of_run [(0, .mkdir [47, 100]), (0, .symlink [47, 100] [47, 115]),
      (0, .openFile [47, 115] O_RDWR)] [0, 0, 0] _ (by decide) (by decide)

set_option maxHeartbeats 400000 in
set_option maxRecDepth 100000 in
/-- Unlinking `/a/b` while it is process 1's current directory lowers `/a`'s link count
for the `..` entry that `b` still holds; `/a` is then freed, and `..` from `b` names a
free inode. -/
theorem dotdot_of_unlinked_cwd_names_free_inode :
    runCalls fs1000 [(0, .mkdir [47, 97]), (0, .mkdir [47, 97, 47, 98]), (1, .chdir [47, 97, 47, 98]),
      (0, .unlink [47, 97, 47, 98]), (0, .unlink [47, 97]), (1, .chdir [46, 46])] (boot fs1000 2) =
      .error (.fatal "ilock: no type") :=
  eq_error_of_haltsWith (by decide)

end Xv6Fs
