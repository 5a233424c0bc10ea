import Xv6Fs.FileContent

/-!
# Reading, duplicating and inspecting open files

`sys_read`, `sys_dup` and `sys_fstat` complete the file-system calls of `sysfile.c`
beside those of `Syscall`; `exec` and `pipe` belong to other parts of the kernel.  The
three keep the invariant, so it holds in every state that runs of all these calls
reach.

On such states an open inode file reads as its inode's content: `sys_read` returns
what `readi`'s checks allow of the bytes from the file's offset on, and moves the
offset by the count.  `sys_fstat` copies out the record on disk of the file's inode.
-/

namespace Xv6Fs

/-! ## What locking leaves alone -/

/-- Only the sleep-locks, `valid` flags and cached copies of the cache slots changed. -/
structure Relocked (s s' : Sys) : Prop where
  disk : s'.disk = s.disk
  ftable : s'.ftable = s.ftable
  procs : s'.procs = s.procs
  cur : s'.cur = s.cur
  inum : ∀ k, (s'.icache k).inum = (s.icache k).inum
  ref : ∀ k, (s'.icache k).ref = (s.icache k).ref

namespace Relocked

variable {s s1 s2 : Sys}

theorem refl (s : Sys) : Relocked s s :=
  ⟨rfl, rfl, rfl, rfl, fun _ => rfl, fun _ => rfl⟩

theorem trans (first : Relocked s s1) (second : Relocked s1 s2) : Relocked s s2 :=
  ⟨second.disk.trans first.disk, second.ftable.trans first.ftable, second.procs.trans first.procs,
    second.cur.trans first.cur, fun k => (second.inum k).trans (first.inum k),
    fun k => (second.ref k).trans (first.ref k)⟩

/-- A new lock holder, `valid` flag or cached copy of slot `k`. -/
theorem setSlot (relocked : Relocked s s1) (k : Nat) {slot : Slot} (inum : slot.inum = (s1.icache k).inum)
    (ref : slot.ref = (s1.icache k).ref) : Relocked s (s1.setSlot k slot) := by
  refine ⟨relocked.disk, relocked.ftable, relocked.procs, relocked.cur, fun j => ?_, fun j => ?_⟩ <;>
    by_cases same : j = k
  all_goals first
    | (subst same; simp [inum, ref, relocked.inum, relocked.ref])
    | simp [setAt_ne _ _ _ same, relocked.inum, relocked.ref]

end Relocked

section Locking

variable {s s' : Sys} {k : Nat}

theorem acquiresleep_relocked (run : acquiresleep s k = .ok s') : Relocked s s' := by
  unfold acquiresleep at run
  split at run <;> cases run
  exact (Relocked.refl s).setSlot k rfl rfl

theorem ilock_relocked (run : ilock s k = .ok s') : Relocked s s' := by
  unfold ilock at run
  split at run
  · cases run
  · obtain ⟨_, -, run⟩ := bind_eq_ok.1 run
    obtain ⟨s1, acquired, run⟩ := bind_eq_ok.1 run
    have held := acquiresleep_relocked acquired
    dsimp only at run
    split at run
    · cases run
      exact held
    · split at run <;> cases run
      exact held.setSlot k rfl rfl

theorem iunlock_relocked (run : iunlock s k = .ok s') : Relocked s s' := by
  unfold iunlock releasesleep at run
  split at run <;> cases run
  exact (Relocked.refl s).setSlot k rfl rfl

end Locking

/-! ## The three calls keep the invariant -/

section Safety

variable {sb : Superblock} {nproc : Nat} {s : Sys} {L : Multiset Nat} {V : Finset Nat}

/-- `fileread` of an entry of the file table: `readi` of the locked inode changes
nothing, and only the offset moves on. -/
theorem fileread_safe (inv : Inv sb nproc s L V) {f : Nat} (small : f < NFILE) (dst : Nat → Bool) (n : Int) :
    Safe (fileread sb s f dst n) fun r => Inv sb nproc r.2 L V := by
  unfold fileread
  dsimp only
  split
  · exact safe_pure inv
  · split
    · refine Safe.bind ((ilock_safe inv _).mono fun s1 ⟨inv1, valid, _, pos, fresh⟩ => ?_)
      obtain ⟨⟨count, out⟩, read⟩ := readiSlot_keeps inv1 pos valid dst (UInt32.ofNat (s1.ftable f).off) (toUint n)
      rw [read, ok_bind]
      dsimp only
      have moved : Inv sb nproc (if count > 0 then
          s1.setFile f { s1.ftable f with off := (s1.ftable f).off + count.toNat } else s1) L V := by
        split
        · exact inv1.setFile small (inv1.closed f) (fun _ => le_rfl) fun m mem => (inv1.locked m mem).1
        · exact inv1
      refine Safe.bind ((iunlock_safe moved _).mono fun s2 unlocked => safe_pure ?_)
      rwa [Finset.erase_eq_of_not_mem fresh] at unlocked
    all_goals simp [inv]

/-- `sys_read`: `fileread` on the descriptor's file. -/
theorem sys_read_safe (inv : Inv sb nproc s 0 ∅) (fd : Int) (dst : Nat → Bool) (n : Int) :
    Safe (sys_read sb s fd dst n) fun r => Inv sb nproc r.2 0 ∅ := by
  unfold sys_read
  split
  · exact safe_pure inv
  · exact fileread_safe inv (argfd_lt inv ‹_›) dst n

/-- `filedup` of an open file: the file already holds its inode, so the cache keeps
its references. -/
theorem filedup_safe (inv : Inv sb nproc s L V) {f : Nat} (small : f < NFILE) :
    Safe (filedup s f) fun s' => Inv sb nproc s' L V := by
  unfold filedup
  split
  · simp
  · have open_ : (s.ftable f).ref > 0 := by omega
    refine inv.setFile small (fun free => absurd free (by simp only; omega)) (fun k => ?_)
      fun m mem => (inv.locked m mem).1
    simp [File.holds, open_, show (s.ftable f).ref + 1 > 0 by omega]

/-- `sys_dup`: a new descriptor of the current process for the file, which `filedup`
then counts. -/
theorem sys_dup_safe (inv : Inv sb nproc s 0 ∅) (fd : Int) :
    Safe (sys_dup s fd) fun r => Inv sb nproc r.2 0 ∅ := by
  unfold sys_dup
  split
  · exact safe_pure inv
  · rename_i fd' f found
    have small := argfd_lt inv found
    rcases fdalloc_cases s f with alloc | ⟨fd'', alloc⟩ <;> rw [alloc]
    · exact safe_pure inv
    · have inv1 : Inv sb nproc (s.setProc { s.procs s.cur with
          ofile := setAt (s.procs s.cur).ofile fd'' (some f) }) 0 ∅ :=
        inv.setProc_of_cwd rfl fun fd g opened => by
          by_cases eq : fd = fd''
          · subst eq
            simp only [setAt_same, Option.some.injEq] at opened
            exact opened ▸ small
          · simp only [setAt_ne _ _ _ eq] at opened
            exact inv.fds _ _ _ opened
      exact Safe.bind ((filedup_safe inv1 small).mono fun _ dup => safe_pure dup)

/-- `filestat`: lock, copy the cached inode's fields, unlock. -/
theorem filestat_safe (inv : Inv sb nproc s L V) (f : Nat) (copied : Bool) :
    Safe (filestat s f copied) fun r => Inv sb nproc r.2 L V := by
  unfold filestat
  dsimp only
  split
  · refine Safe.bind ((ilock_safe inv _).mono fun s1 ⟨inv1, _, _, _, fresh⟩ => ?_)
    refine Safe.bind ((iunlock_safe inv1 _).mono fun s2 unlocked => safe_pure ?_)
    rw [Finset.erase_eq_of_not_mem fresh] at unlocked
    split <;> exact unlocked
  · exact safe_pure inv

/-- `sys_fstat`: `filestat` on the descriptor's file. -/
theorem sys_fstat_safe (inv : Inv sb nproc s 0 ∅) (fd : Int) (copied : Bool) :
    Safe (sys_fstat s fd copied) fun r => Inv sb nproc r.2 0 ∅ := by
  unfold sys_fstat
  split
  · exact safe_pure inv
  · exact filestat_safe inv _ copied

end Safety

/-! ## What the three calls return -/

/-- The content on disk of the inode cached in the slot of open file `f`. -/
def fileBytes (s : Sys) (f : Nat) : List UInt8 :=
  content s.disk (s.disk.dinode (s.icache (s.ftable f).ip).inum)

/-- The `struct stat` of inode `inum` of the root device as its disk record has it. -/
def diskStat (disk : Disk) (inum : Nat) : Stat :=
  ⟨ROOTDEV, inum, (disk.dinode inum).type, (disk.dinode inum).nlink, (disk.dinode inum).size⟩

section Results

variable {sb : Superblock} {nproc : Nat} {s : Sys} {L : Multiset Nat} {V : Finset Nat}

/-- `ilock` from a state that satisfies the invariant: the slot it returns is valid,
held and referenced, and caches the allocated disk inode of its number. -/
theorem ilock_cached (inv : Inv sb nproc s L V) {k : Nat} {s1 : Sys} (locked : ilock s k = .ok s1) :
    Inv sb nproc s1 L V ∧ Relocked s s1 ∧ (s1.icache k).valid = true ∧ 0 < (s1.icache k).ref ∧ k ∉ V ∧
      (s1.icache k).din = s.disk.dinode (s.icache k).inum ∧ (s.disk.dinode (s.icache k).inum).type ≠ 0 ∧
      (s1.icache k).dev = ROOTDEV := by
  have safe := ilock_safe inv k
  rw [locked, safe_ok_iff] at safe
  obtain ⟨inv1, valid, -, pos, fresh⟩ := safe
  have relocked := ilock_relocked locked
  obtain ⟨used, same⟩ := inv1.coherent k pos valid
  rw [relocked.disk, relocked.inum] at same
  exact ⟨inv1, relocked, valid, pos, fresh, same.symm, same ▸ used, inv1.dev k pos⟩

/-- From a state that satisfies the invariant, `sys_fstat` of a descriptor whose file is
bound to an inode or a device copies out the record on disk of the file's inode, an
allocated one, and returns `0` when the copy succeeds; any other call returns `-1` and
copies nothing.  Neither the disk nor the file table changes. -/
theorem fstat_reports_disk (inv : Inv sb nproc s 0 ∅) {fd : Int} {copied : Bool} {r : Int} {st : Option Stat}
    {s' : Sys} (run : sys_fstat s fd copied = .ok ((r, st), s')) :
    s'.disk = s.disk ∧ s'.ftable = s.ftable ∧
      ((∃ fd' f, argfd s fd = some (fd', f) ∧ ((s.ftable f).type = .inode ∨ (s.ftable f).type = .device) ∧
          copied = true ∧ r = 0 ∧ st = some (diskStat s.disk (s.icache (s.ftable f).ip).inum) ∧
          (s.disk.dinode (s.icache (s.ftable f).ip).inum).type ≠ 0) ∨
        (r = -1 ∧ st = none)) := by
  unfold sys_fstat at run
  split at run
  · cases run
    exact ⟨rfl, rfl, .inr ⟨rfl, rfl⟩⟩
  rename_i fd' f found
  unfold filestat at run
  dsimp only at run
  split at run
  · rename_i bound
    obtain ⟨s1, locked, run⟩ := bind_eq_ok.1 run
    obtain ⟨-, relocked, -, -, -, cached, used, dev⟩ := ilock_cached inv locked
    obtain ⟨s2, unlocked, run⟩ := bind_eq_ok.1 run
    have relocked2 := iunlock_relocked unlocked
    have stat : stati s1 (s.ftable f).ip = diskStat s.disk (s.icache (s.ftable f).ip).inum := by
      simp only [stati, diskStat, cached, dev, relocked.inum]
    have disk : s2.disk = s.disk := relocked2.disk.trans relocked.disk
    have ftable : s2.ftable = s.ftable := relocked2.ftable.trans relocked.ftable
    cases copied
    · cases run
      exact ⟨disk, ftable, .inr ⟨rfl, rfl⟩⟩
    · cases run
      exact ⟨disk, ftable, .inl ⟨fd', f, found, bound, rfl, rfl, congrArg some stat, used⟩⟩
  · cases run
    exact ⟨rfl, rfl, .inr ⟨rfl, rfl⟩⟩

end Results

/-! ## On the root directory opened at boot -/

/-- The state after process `0` of `fs1000` opens the root directory read-only at boot:
descriptor `0` names file `0`, bound to the root's slot. -/
def rootOpened : Sys :=
  finalState (boot fs1000 1) (runCalls fs1000 [(0, .openFile [47] O_RDONLY)] (boot fs1000 1))

theorem rootOpened_reachable : Reachable fs1000 1 (boot fs1000 1) rootOpened :=
  @reachable_of_runCalls fs1000 1 (boot fs1000 1) [(0, .openFile [47] O_RDONLY)] (boot fs1000 1) rootOpened [0]
    .init (by decide) (eq_ok_of_ranWith _ (by decide))

/-- `sys_fstat` of descriptor `0` once the root directory is open. -/
theorem fstat_reports_disk_root :
    Inv fs1000 1 rootOpened 0 ∅ ∧ ∃ r st s', sys_fstat rootOpened 0 true = .ok ((r, st), s') ∧
      s'.disk = rootOpened.disk ∧ s'.ftable = rootOpened.ftable ∧
      ((∃ fd' f, argfd rootOpened 0 = some (fd', f) ∧
          ((rootOpened.ftable f).type = .inode ∨ (rootOpened.ftable f).type = .device) ∧
          true = true ∧ r = 0 ∧ st = some (diskStat rootOpened.disk (rootOpened.icache (rootOpened.ftable f).ip).inum) ∧
          (rootOpened.disk.dinode (rootOpened.icache (rootOpened.ftable f).ip).inum).type ≠ 0) ∨
        (r = -1 ∧ st = none)) := by
  have inv := rootOpened_reachable.inv fs1000_wellFormed
  obtain ⟨⟨⟨r, st⟩, s'⟩, run⟩ := exists_ok_of_toBool (sys_fstat rootOpened 0 true) (by decide)
  exact ⟨inv, r, st, s', run, fstat_reports_disk inv run⟩

/-- The file-system calls of `sysfile.c` a process can make: those of `Syscall`, and
the calls that read, duplicate and inspect an open file.  `copied` says whether the
`copyout` of the `struct stat` succeeds. -/
inductive FileCall where
  | base (call : Syscall)
  | read (fd : Int) (dst : Nat → Bool) (n : Int)
  | dup (fd : Int)
  | fstat (fd : Int) (copied : Bool)

/-- The kernel entry point of each call, with the value it returns to user space. -/
def FileCall.run (sb : Superblock) : FileCall → Sys → Except Halt (Int × Sys)
  | .base call, s => call.run sb s
  | .read fd dst n, s => (fun r => (r.1.1, r.2)) <$> sys_read sb s fd dst n
  | .dup fd, s => sys_dup s fd
  | .fstat fd copied, s => (fun r => (r.1.1, r.2)) <$> sys_fstat s fd copied

/-- One call of process `pid` that returns to user space. -/
inductive FileStep (sb : Superblock) (nproc : Nat) : Sys → Sys → Prop
  | call {s s' : Sys} {result : Int} (pid : Nat) (call : FileCall) :
      pid < nproc → call.run sb { s with cur := pid } = .ok (result, s') → FileStep sb nproc s s'

/-- Every run of the calls of `Syscall` is a run of file calls. -/
theorem Reachable.fileSteps {sb : Superblock} {nproc : Nat} {init s : Sys} (reach : Reachable sb nproc init s) :
    Relation.ReflTransGen (FileStep sb nproc) init s := by
  induction reach with
  | init => exact .refl
  | step _ step ih =>
    obtain ⟨pid, call, running, run⟩ := step
    exact ih.tail (.call pid (.base call) running run)

/-- A run of the file calls `(pid, call)` in order: the values they return and the final
state, or the halt that stops it. -/
def runFileCalls (sb : Superblock) : List (Nat × FileCall) → Sys → Except Halt (List Int × Sys)
  | [], s => .ok ([], s)
  | (pid, call) :: calls, s => do
    let (result, s) ← call.run sb { s with cur := pid }
    let (results, s) ← runFileCalls sb calls s
    pure (result :: results, s)

theorem fileSteps_of_runFileCalls {sb : Superblock} {nproc : Nat} {init : Sys} :
    ∀ {calls : List (Nat × FileCall)} {s s' : Sys} {results : List Int},
      Relation.ReflTransGen (FileStep sb nproc) init s → (∀ call ∈ calls, call.1 < nproc) →
      runFileCalls sb calls s = .ok (results, s') → Relation.ReflTransGen (FileStep sb nproc) init s'
  | [], _, _, _, reach, _, run => by cases run; exact reach
  | (pid, call) :: calls, s, s', results, reach, pids, run => by
    obtain ⟨⟨result, s1⟩, first, run⟩ := bind_eq_ok.1 run
    obtain ⟨⟨rest, s2⟩, later, run⟩ := bind_eq_ok.1 run
    cases run
    exact fileSteps_of_runFileCalls (reach.tail (.call pid call (pids _ (List.mem_cons_self _ _)) first))
      (fun c mem => pids c (List.mem_cons_of_mem _ mem)) later

section Runs

variable {sb : Superblock} {nproc : Nat} (wf : sb.WellFormed)
include wf

/-- A file call of a running process from a state that satisfies the invariant. -/
theorem FileCall.run_safe {s : Sys} (inv : Inv sb nproc s 0 ∅) (running : s.cur < nproc) :
    ∀ call : FileCall, Safe (call.run sb s) fun r => Inv sb nproc r.2 0 ∅
  | .base call => Syscall.run_safe wf inv running call
  | .read fd dst n => Safe.map (sys_read_safe inv fd dst n)
  | .dup fd => sys_dup_safe inv fd
  | .fstat fd copied => Safe.map (sys_fstat_safe inv fd copied)

theorem FileStep.inv {s s' : Sys} (step : FileStep sb nproc s s') (inv : Inv sb nproc s 0 ∅) :
    Inv sb nproc s' 0 ∅ := by
  obtain ⟨pid, call, running, run⟩ := step
  have safe := FileCall.run_safe wf (inv.withCur pid) running call
  rw [run] at safe
  exact safe

/-- Every state that runs of all the file calls reach from the file system `mkfs`
writes satisfies the invariant: the bitmap is in step with the block maps, the cache
with the disk and the references, and from it no call halts with `freeing free
block`. -/
theorem file_calls_keep_invariant {s : Sys} (reach : Relation.ReflTransGen (FileStep sb nproc) (boot sb nproc) s) :
    Inv sb nproc s 0 ∅ ∧ ∀ pid < nproc, ∀ (call : FileCall) (halt : Halt),
      call.run sb { s with cur := pid } = .error halt → halt ≠ .fatal "freeing free block" := by
  have inv : Inv sb nproc s 0 ∅ := by
    induction reach with
    | refl => exact boot_inv wf nproc
    | tail _ step ih => exact step.inv wf ih
  refine ⟨inv, fun pid running call halt run => ?_⟩
  have safe := FileCall.run_safe wf (inv.withCur pid) running call
  rw [run] at safe
  exact safe

end Runs

/-- The calls of process `0` of `fs1000` that open the root directory, read its first two
entries, duplicate the descriptor and inspect the copy. -/
def rootCalls : List (Nat × FileCall) :=
  [(0, .base (.openFile [47] O_RDONLY)), (0, .read 0 (fun _ => true) 32), (0, .dup 0), (0, .fstat 1 true)]

/-- The state the calls of `rootCalls` reach from boot. -/
def rootDuped : Sys :=
  finalState (boot fs1000 1) (runFileCalls fs1000 rootCalls (boot fs1000 1))

set_option maxRecDepth 100000 in
/-- The file system `mkfs` writes for `fs1000`, after a read, a `dup` and an `fstat`. -/
theorem file_calls_keep_invariant_duped :
    fs1000.WellFormed ∧ Relation.ReflTransGen (FileStep fs1000 1) (boot fs1000 1) rootDuped ∧
      Inv fs1000 1 rootDuped 0 ∅ ∧ ∀ pid < 1, ∀ (call : FileCall) (halt : Halt),
        call.run fs1000 { rootDuped with cur := pid } = .error halt → halt ≠ .fatal "freeing free block" := by
  have reach : Relation.ReflTransGen (FileStep fs1000 1) (boot fs1000 1) rootDuped :=
    @fileSteps_of_runFileCalls fs1000 1 (boot fs1000 1) rootCalls (boot fs1000 1) rootDuped [0, 32, 1, 0] .refl
      (by decide) (eq_ok_of_ranWith _ (by decide))
  exact ⟨fs1000_wellFormed, reach, file_calls_keep_invariant fs1000_wellFormed reach⟩

end Xv6Fs
