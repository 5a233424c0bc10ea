import Mathlib.Algebra.Order.BigOperators.Group.List
import Xv6Fs.Descriptors

/-!
# The file table counts the descriptors

The reference count `f->ref` of an entry of the file table is the number of descriptors
that name it.  `filealloc` hands out an entry with no reference and `fdalloc` binds one
descriptor to it, `filedup` adds the reference of the descriptor `sys_dup` binds, and
`sys_close` clears a descriptor before `fileclose` drops its reference; `sys_open` gives
the entry its type before it returns, and `fileclose` clears the type with the last
reference.  Every other call leaves the descriptors and the counts alone (`Kept`).

* `FilesCounted` is the invariant: the count of every entry is the number of descriptors of
  the processes that name it, and an entry in use has a type;
* every file call keeps it, so every state the file calls reach from boot has it;
* so a descriptor names an entry in use, `sys_dup` always returns, and the entry of the
  descriptor `sys_open` returns is named by no other descriptor of any process.
-/

namespace Xv6Fs

/-- The descriptors of process `proc` that name file table entry `f`. -/
def Proc.naming (proc : Proc) (f : Nat) : Nat :=
  ((List.range NOFILE).filter fun fd => proc.ofile fd = some f).length

/-- The descriptors of the processes `pid < nproc` that name file table entry `f`. -/
def naming (procs : Nat → Proc) (nproc f : Nat) : Nat :=
  ((List.range nproc).map fun pid => (procs pid).naming f).sum

/-! ## Counting descriptors -/

section Counting

/-- Replacing the value at `a < n` changes a sum over `range n` by the difference. -/
theorem sum_map_range_setAt {α : Type} (c : α → Nat) (g : Nat → α) {a n : Nat} (lt : a < n) (v : α) :
    ((List.range n).map fun x => c (setAt g a v x)).sum + c (g a) =
      ((List.range n).map fun x => c (g x)).sum + c v := by
  induction n with
  | zero => omega
  | succ n ih =>
    simp only [List.range_succ, List.map_append, List.sum_append, List.map_cons, List.map_nil,
      List.sum_cons, List.sum_nil, Nat.add_zero]
    rcases Nat.lt_or_eq_of_le (Nat.le_of_lt_succ lt) with lt | rfl
    · rw [setAt_ne _ _ _ (Nat.ne_of_gt lt)]
      have := ih lt
      omega
    · have same : ((List.range a).map fun x => c (setAt g a v x)) = (List.range a).map fun x => c (g x) :=
        List.map_congr_left fun x mem => by rw [setAt_ne _ _ _ (Nat.ne_of_lt (List.mem_range.1 mem))]
      rw [same, setAt_same]
      omega

/-- Rebinding descriptor `fd < NOFILE` of a process moves one count from the entry it
named to the one it names now. -/
theorem Proc.naming_set (proc : Proc) {fd : Nat} (small : fd < NOFILE) (v : Option Nat) (g : Nat) :
    ({ proc with ofile := setAt proc.ofile fd v } : Proc).naming g + (if proc.ofile fd = some g then 1 else 0) =
      proc.naming g + (if v = some g then 1 else 0) := by
  have moved := length_filter_range_update NOFILE fd
    (p := fun d => decide (setAt proc.ofile fd v d = some g)) (q := fun d => decide (proc.ofile d = some g))
    fun d other => by simp only [setAt_ne _ _ _ other]
  simp only [small, true_and, setAt_same, decide_eq_true_eq] at moved
  exact moved

/-- Rebinding descriptor `fd < NOFILE` of process `cur < nproc`. -/
theorem naming_rebind (procs : Nat → Proc) {nproc cur fd : Nat} (running : cur < nproc) (small : fd < NOFILE)
    (v : Option Nat) (g : Nat) :
    naming (setAt procs cur { procs cur with ofile := setAt (procs cur).ofile fd v }) nproc g +
        (if (procs cur).ofile fd = some g then 1 else 0) =
      naming procs nproc g + (if v = some g then 1 else 0) := by
  have outer := sum_map_range_setAt (fun proc : Proc => proc.naming g) procs running
    { procs cur with ofile := setAt (procs cur).ofile fd v }
  have inner := Proc.naming_set (procs cur) small v g
  unfold naming
  dsimp only at outer inner ⊢
  omega

/-- A process that names `f` at a descriptor of its table counts for `f`. -/
theorem naming_pos {procs : Nat → Proc} {nproc pid fd f : Nat} (running : pid < nproc) (small : fd < NOFILE)
    (named : (procs pid).ofile fd = some f) : 0 < naming procs nproc f := by
  have one : 0 < (procs pid).naming f :=
    List.length_pos.2 (List.ne_nil_of_mem (List.mem_filter.2 ⟨List.mem_range.2 small, by simpa using named⟩))
  exact Nat.lt_of_lt_of_le one (List.le_sum_of_mem (List.mem_map.2 ⟨pid, List.mem_range.2 running, rfl⟩))

/-- A new current directory changes no descriptor. -/
theorem naming_setCwd (procs : Nat → Proc) (cur ip nproc f : Nat) :
    naming (setAt procs cur { procs cur with cwd := ip }) nproc f = naming procs nproc f := by
  unfold naming
  congr 1
  refine List.map_congr_left fun pid _ => ?_
  rw [setAt_apply]
  split
  · subst_vars
    rfl
  · rfl

variable {s : Sys} {nproc fd f : Nat}

/-- `fdalloc`'s binding of the lowest free descriptor of the caller to `f`. -/
theorem naming_bindFd (running : s.cur < nproc) (lowest : LowestFree (s.procs s.cur).ofile fd) (g : Nat) :
    naming (bindFd s fd f) nproc g = naming s.procs nproc g + if f = g then 1 else 0 := by
  have moved := naming_rebind s.procs running lowest.lt (some f) g
  simp only [lowest.free, Option.some_inj, reduceCtorEq, if_false, Nat.add_zero] at moved
  exact moved

/-- `sys_close`'s clearing of descriptor `k` of the caller, which named `f`. -/
theorem naming_clear (running : s.cur < nproc) {k : Nat} (small : k < NOFILE) (named : (s.procs s.cur).ofile k = some f)
    (g : Nat) :
    naming (s.setProc { s.procs s.cur with ofile := setAt (s.procs s.cur).ofile k none }).procs nproc g +
      (if f = g then 1 else 0) = naming s.procs nproc g := by
  have moved := naming_rebind s.procs running small none g
  simp only [named, Option.some_inj, reduceCtorEq, if_false, Nat.add_zero] at moved
  exact moved

end Counting

/-! ## The invariant -/

/-- The count of every entry of the file table is the number of descriptors of the
processes `pid < nproc` that name it, and an entry in use has a type. -/
structure FilesCounted (nproc : Nat) (s : Sys) : Prop where
  refs : ∀ f, (s.ftable f).ref = naming s.procs nproc f
  typed : ∀ f, 0 < (s.ftable f).ref → (s.ftable f).type ≠ .none

namespace FilesCounted

variable {nproc : Nat} {s s' : Sys}

theorem kept (counted : FilesCounted nproc s) (kept : Kept s s') : FilesCounted nproc s' :=
  ⟨fun f => by rw [kept.ref, kept.procs, counted.refs], fun f pos => by
    rw [kept.type]
    exact counted.typed f (kept.ref f ▸ pos)⟩

/-- A state whose processes name entries as `P` does, with entry `f` rewritten to
`file` and the rest of the table as in a counted state. -/
theorem update {t : Sys} (P : Nat → Proc) {f : Nat} {file : File} (counted : FilesCounted nproc s)
    (procs : t.procs = P) (ftable : t.ftable = setAt s.ftable f file)
    (others : ∀ g ≠ f, naming P nproc g = naming s.procs nproc g)
    (ref : file.ref = naming P nproc f) (typed : 0 < file.ref → file.type ≠ .none) : FilesCounted nproc t := by
  subst procs
  constructor <;> intro g <;> rw [ftable, setAt_apply] <;> split
  · subst_vars
    exact ref
  · rw [others g ‹_›]
    exact counted.refs g
  · subst_vars
    exact typed
  · exact counted.typed g

theorem setCwd (counted : FilesCounted nproc s) (ip : Nat) : FilesCounted nproc (s.setProc { s.procs s.cur with cwd := ip }) :=
  ⟨fun f => (counted.refs f).trans (congrArg _ (naming_setCwd s.procs s.cur ip nproc f).symm), counted.typed⟩

/-- A descriptor of a process names an entry in use. -/
theorem named (counted : FilesCounted nproc s) {pid fd f : Nat} (running : pid < nproc) (small : fd < NOFILE)
    (named : (s.procs pid).ofile fd = some f) : 0 < (s.ftable f).ref := by
  have := naming_pos running small named
  have := counted.refs f
  omega

end FilesCounted

/-! ## The calls that bind and free descriptors -/

section Calls

variable {sb : Superblock} {nproc : Nat} {s : Sys}

theorem sys_close_counted (counted : FilesCounted nproc s) (running : s.cur < nproc) {fd : Int} {r : Int × Sys}
    (run : sys_close sb s fd = .ok r) : FilesCounted nproc r.2 := by
  unfold sys_close at run
  split at run
  · cases run
    exact counted
  rename_i k f found
  obtain ⟨-, small, named⟩ := argfd_eq_some found
  obtain ⟨s1, closed, run⟩ := bind_eq_ok.1 run
  cases run
  generalize cleared : s.setProc { s.procs s.cur with ofile := setAt (s.procs s.cur).ofile k none } = s0 at closed
  have moved := naming_clear running small named
  rw [cleared] at moved
  have table : s0.ftable = s.ftable := by rw [← cleared]; rfl
  obtain ⟨-, file, dropped, same, kept⟩ := fileclose_drops closed
  rw [table] at dropped same
  refine (counted.update (t := s0.setFile f file) s0.procs rfl (by rw [Sys.setFile, table]) (fun g other => ?_) ?_
    fun pos => ?_).kept kept
  · have := moved g
    rw [if_neg (Ne.symm other)] at this
    omega
  · have := moved f
    have := counted.refs f
    rw [if_pos rfl] at *
    omega
  · rw [same pos]
    exact counted.typed f (by omega)

theorem sys_dup_counted (counted : FilesCounted nproc s) (running : s.cur < nproc) {fd : Int} {r : Int × Sys}
    (run : sys_dup s fd = .ok r) : FilesCounted nproc r.2 := by
  obtain ⟨r, s'⟩ := r
  rcases sys_dup_cases fd run with ⟨-, rfl⟩ | ⟨k, f, new, found, -, lowest, duped⟩
  · exact counted
  obtain ⟨-, small, named⟩ := argfd_eq_some found
  unfold filedup at duped
  split at duped
  · cases duped
  cases duped
  refine counted.update (bindFd s new f) rfl rfl (fun g other => ?_) ?_
    fun _ => counted.typed f (counted.named running small named)
  · rw [naming_bindFd running lowest, if_neg (Ne.symm other), Nat.add_zero]
  · rw [naming_bindFd running lowest, if_pos rfl]
    have := counted.refs f
    push_cast
    omega

/-- `openFile` keeps the count, and a descriptor it returns is bound to an entry no
descriptor named before. -/
theorem openFile_counted (counted : FilesCounted nproc s) (running : s.cur < nproc) {ip : Nat} {omode : BitVec 32}
    {r : Int} {s' : Sys} (run : openFile sb s ip omode = .ok (r, s')) :
    FilesCounted nproc s' ∧ (r = -1 ∨ ∃ fd f : Nat, r = fd ∧ (s.ftable f).ref = 0 ∧ s'.procs = bindFd s fd f) := by
  rcases openFile_cases run with ⟨failed, procs, -, table⟩ | ⟨fd, f, rfl, opened⟩
  · refine ⟨⟨fun g => by rw [(table g).1, procs, counted.refs], fun g pos => ?_⟩, .inl failed⟩
    rw [(table g).1] at pos
    rw [(table g).2 pos]
    exact counted.typed g pos
  · refine ⟨counted.update (bindFd s fd f) opened.procs opened.ftable (fun g other => ?_) ?_ fun _ => opened.typed,
      .inr ⟨fd, f, rfl, opened.unused, opened.procs⟩⟩
    · rw [naming_bindFd running opened.lowest, if_neg (Ne.symm other), Nat.add_zero]
    · have unnamed := counted.refs f
      rw [opened.unused] at unnamed
      rw [opened.ref, naming_bindFd running opened.lowest, if_pos rfl]
      omega

theorem sys_open_counted (counted : FilesCounted nproc s) (running : s.cur < nproc) {path : List UInt8}
    {omode : BitVec 32} {r : Int} {s' : Sys} (run : sys_open sb s path omode = .ok (r, s')) :
    FilesCounted nproc s' ∧ (r = -1 ∨ ∃ fd f : Nat, r = fd ∧ (s.ftable f).ref = 0 ∧ s'.procs = bindFd s fd f) := by
  obtain ⟨s1, kept, ⟨failed, rfl⟩ | ⟨ip, opened⟩⟩ := sys_open_cases path omode run
  · exact ⟨counted.kept kept, .inl failed⟩
  obtain ⟨counted', fresh⟩ := openFile_counted (counted.kept kept) (kept.cur ▸ running) opened
  refine ⟨counted', fresh.imp_right ?_⟩
  rintro ⟨fd, f, rfl, free, procs⟩
  exact ⟨fd, f, rfl, (kept.ref f).symm.trans free, procs.trans (by rw [bindFd, bindFd, kept.procs, kept.cur])⟩

end Calls

/-! ## Every run of the file calls -/

section Runs

variable {sb : Superblock} {nproc : Nat}

theorem map_eq_ok {ε α β : Type} {f : α → β} {x : Except ε α} {b : β} (run : f <$> x = .ok b) :
    ∃ a, x = .ok a ∧ f a = b := by
  cases x with
  | error e => cases run
  | ok a => exact ⟨a, rfl, Except.ok.inj run⟩

theorem FilesCounted.withCur {s : Sys} (counted : FilesCounted nproc s) (pid : Nat) : FilesCounted nproc { s with cur := pid } :=
  ⟨counted.refs, counted.typed⟩

theorem boot_filesCounted (sb : Superblock) (nproc : Nat) : FilesCounted nproc (boot sb nproc) := by
  refine ⟨fun f => ?_, fun f pos => absurd pos (Int.lt_irrefl 0)⟩
  simp [boot, naming, Proc.naming, File.empty]

/-- A file call keeps the count. -/
theorem FileCall.run_counted {s : Sys} (counted : FilesCounted nproc s) (running : s.cur < nproc) :
    ∀ (call : FileCall) {r : Int × Sys}, call.run sb s = .ok r → FilesCounted nproc r.2
  | .base (.link _ _), _, run => counted.kept (sys_link_kept run)
  | .base (.unlink _), _, run => counted.kept (sys_unlink_kept run)
  | .base (.openFile _ _), (_, _), run => (sys_open_counted counted running run).1
  | .base (.mkdir _), _, run => counted.kept (sys_mkdir_kept run)
  | .base (.mknod _ _ _), _, run => counted.kept (sys_mknod_kept run)
  | .base (.symlink _ _), _, run => counted.kept (sys_symlink_kept run)
  | .base (.chdir _), (_, _), run => by
    obtain ⟨t, kept, rfl | ⟨ip, rfl⟩⟩ := sys_chdir_kept run
    · exact counted.kept kept
    · exact (counted.kept kept).setCwd ip
  | .base (.write _ _ _), _, run => counted.kept (sys_write_kept run)
  | .base (.close _), _, run => sys_close_counted counted running run
  | .read _ _ _, _, run => by
    obtain ⟨_, read, rfl⟩ := map_eq_ok run
    exact counted.kept (sys_read_kept read)
  | .dup _, _, run => sys_dup_counted counted running run
  | .fstat _ _, _, run => by
    obtain ⟨_, stat, rfl⟩ := map_eq_ok run
    exact counted.kept (sys_fstat_kept stat)

theorem FilesCounted.of_fileSteps {s : Sys} (reach : Relation.ReflTransGen (FileStep sb nproc) (boot sb nproc) s) :
    FilesCounted nproc s := by
  induction reach with
  | refl => exact boot_filesCounted sb nproc
  | tail _ step ih =>
    obtain ⟨pid, call, running, run⟩ := step
    exact FileCall.run_counted (ih.withCur pid) running call run

/-- In every state that runs of the file calls reach from boot, the reference count of
every entry of the file table is the number of descriptors of the processes that name
it, and an entry in use has a type. -/
theorem file_refs_count_descriptors {s : Sys} (reach : Relation.ReflTransGen (FileStep sb nproc) (boot sb nproc) s)
    (f : Nat) : (s.ftable f).ref = naming s.procs nproc f ∧ (0 < (s.ftable f).ref → (s.ftable f).type ≠ .none) :=
  ⟨(FilesCounted.of_fileSteps reach).refs f, (FilesCounted.of_fileSteps reach).typed f⟩

/-- `/a` opened twice: entry `0` is named by descriptor `0` alone. -/
theorem file_refs_count_descriptors_twice :
    Relation.ReflTransGen (FileStep fs1000 1) (boot fs1000 1) fileOpenedTwice ∧
      ((fileOpenedTwice.ftable 0).ref = naming fileOpenedTwice.procs 1 0 ∧
        (0 < (fileOpenedTwice.ftable 0).ref → (fileOpenedTwice.ftable 0).type ≠ .none)) :=
  ⟨fileOpenedTwice_reachable.fileSteps, file_refs_count_descriptors fileOpenedTwice_reachable.fileSteps 0⟩

/-- In every state that runs of the file calls reach from boot, a descriptor of a
process names an entry of the file table in use, of a type. -/
theorem descriptors_name_open_files {s : Sys} (reach : Relation.ReflTransGen (FileStep sb nproc) (boot sb nproc) s)
    {pid fd f : Nat} (running : pid < nproc) (small : fd < NOFILE) (named : (s.procs pid).ofile fd = some f) :
    0 < (s.ftable f).ref ∧ (s.ftable f).type ≠ .none :=
  have counted := FilesCounted.of_fileSteps reach
  ⟨counted.named running small named, counted.typed f (counted.named running small named)⟩

set_option maxRecDepth 100000 in
/-- Descriptor `1` of the process after `/a` is opened twice. -/
theorem descriptors_name_open_files_twice :
    Relation.ReflTransGen (FileStep fs1000 1) (boot fs1000 1) fileOpenedTwice ∧ 0 < 1 ∧ 1 < NOFILE ∧
      (fileOpenedTwice.procs 0).ofile 1 = some 1 ∧
        (0 < (fileOpenedTwice.ftable 1).ref ∧ (fileOpenedTwice.ftable 1).type ≠ .none) := by
  have named : (fileOpenedTwice.procs 0).ofile 1 = some 1 := by decide
  exact ⟨fileOpenedTwice_reachable.fileSteps, by decide, by decide, named,
    descriptors_name_open_files fileOpenedTwice_reachable.fileSteps (by decide) (by decide) named⟩

/-- The calls of `sys_dup` from a state the file calls reach. -/
theorem sys_dup_total {s : Sys} (counted : FilesCounted nproc s) {pid : Nat} (running : pid < nproc) (fd : Int) :
    ∃ r, sys_dup { s with cur := pid } fd = .ok r := by
  unfold sys_dup
  split
  · exact ⟨_, rfl⟩
  rename_i k f found
  obtain ⟨-, small, named⟩ := argfd_eq_some found
  rcases fdalloc_lowest { s with cur := pid } f with ⟨alloc, -⟩ | ⟨new, -, alloc⟩ <;> rw [alloc]
  · exact ⟨_, rfl⟩
  have used := counted.named running small named
  dsimp only
  rw [filedup]
  dsimp only
  rw [if_neg (by omega)]
  exact ⟨_, rfl⟩

/-- In every state that runs of the file calls reach from boot, `sys_dup` of any
process and any descriptor returns: the `filedup` it calls never halts. -/
theorem sys_dup_returns {s : Sys} (reach : Relation.ReflTransGen (FileStep sb nproc) (boot sb nproc) s)
    {pid : Nat} (running : pid < nproc) (fd : Int) : ∃ r, sys_dup { s with cur := pid } fd = .ok r :=
  sys_dup_total (FilesCounted.of_fileSteps reach) running fd

/-- Descriptor `0` of the process duplicated after `/a` is opened twice. -/
theorem sys_dup_returns_twice :
    Relation.ReflTransGen (FileStep fs1000 1) (boot fs1000 1) fileOpenedTwice ∧ 0 < 1 ∧
      ∃ r, sys_dup { fileOpenedTwice with cur := 0 } 0 = .ok r :=
  ⟨fileOpenedTwice_reachable.fileSteps, by decide,
    sys_dup_returns fileOpenedTwice_reachable.fileSteps (by decide) 0⟩

/-- In every state that runs of the file calls reach from boot, a descriptor that
`sys_open` returns names an entry of the file table that no other descriptor of any
process names: `open` never shares an open file. -/
theorem sys_open_entry_unshared {s : Sys} (reach : Relation.ReflTransGen (FileStep sb nproc) (boot sb nproc) s)
    {pid : Nat} (running : pid < nproc) {path : List UInt8} {omode : BitVec 32} {r : Int} {s' : Sys}
    (run : sys_open sb { s with cur := pid } path omode = .ok (r, s')) :
    r = -1 ∨ ∃ fd f : Nat, r = fd ∧ ∀ p < nproc, ∀ d < NOFILE, (s'.procs p).ofile d = some f ↔ p = pid ∧ d = fd := by
  have counted := FilesCounted.of_fileSteps reach
  refine (sys_open_counted (counted.withCur pid) running run).2.imp_right ?_
  rintro ⟨fd, f, rfl, free, procs⟩
  refine ⟨fd, f, rfl, fun p lt d small => ?_⟩
  have unnamed : (s.procs p).ofile d ≠ some f := fun named => by
    have := counted.named lt small named
    simp only at free
    omega
  rw [procs, bindFd]
  by_cases same : p = pid
  · subst same
    by_cases at_fd : d = fd
    · simp [at_fd]
    · simp [setAt_ne _ _ _ at_fd, unnamed, at_fd]
  · simp [setAt_ne _ _ _ same, unnamed, same]

set_option maxRecDepth 100000 in
/-- `/a` opened a third time by the process that opened it twice. -/
theorem sys_open_entry_unshared_third :
    Relation.ReflTransGen (FileStep fs1000 1) (boot fs1000 1) fileOpenedTwice ∧ 0 < 1 ∧
      ∃ r s', sys_open fs1000 { fileOpenedTwice with cur := 0 } [47, 97] O_RDONLY = .ok (r, s') ∧
        (r = -1 ∨ ∃ fd f : Nat, r = fd ∧ ∀ p < 1, ∀ d < NOFILE, (s'.procs p).ofile d = some f ↔ p = 0 ∧ d = fd) := by
  obtain ⟨⟨r, s'⟩, run⟩ :=
    exists_ok_of_toBool (sys_open fs1000 { fileOpenedTwice with cur := 0 } [47, 97] O_RDONLY) (by decide)
  exact ⟨fileOpenedTwice_reachable.fileSteps, by decide, r, s', run,
    sys_open_entry_unshared fileOpenedTwice_reachable.fileSteps (by decide) run⟩

end Runs

/-! ## The processes a call touches -/

/-- A frame rewrites the caller at most. -/
theorem Framed.touches {s s' : Sys} (framed : Framed s s') : ∃ proc, s'.procs = setAt s.procs s.cur proc :=
  ⟨s.procs s.cur, by rw [framed.procs, setAt_self]⟩

theorem sys_close_touches {sb : Superblock} {s : Sys} {fd : Int} {r : Int × Sys} (run : sys_close sb s fd = .ok r) :
    ∃ proc, r.2.procs = setAt s.procs s.cur proc := by
  unfold sys_close at run
  split at run
  · cases run
    exact (Framed.refl s).touches
  obtain ⟨s1, closed, run⟩ := bind_eq_ok.1 run
  cases run
  exact ⟨_, (fileclose_frame closed).procs⟩

/-- What a file call can do to the processes: rewrite the caller, and nothing else. -/
theorem FileCall.run_touches {sb : Superblock} {s : Sys} :
    ∀ (call : FileCall) {r : Int × Sys}, call.run sb s = .ok r → ∃ proc, r.2.procs = setAt s.procs s.cur proc
  | .base (.link _ _), _, run => (sys_link_kept run).framed.touches
  | .base (.unlink _), _, run => (sys_unlink_kept run).framed.touches
  | .base (.openFile path omode), (_, _), run => by
    obtain ⟨s1, kept, ⟨-, rfl⟩ | ⟨ip, opened⟩⟩ := sys_open_cases path omode run
    · exact kept.framed.touches
    rcases openFile_cases opened with ⟨-, procs, cur, -⟩ | ⟨_, _, -, opened⟩
    · exact ⟨s.procs s.cur, by rw [procs, kept.procs, setAt_self]⟩
    · exact ⟨_, by rw [opened.procs, bindFd, kept.procs, kept.cur]⟩
  | .base (.mkdir _), _, run => (sys_mkdir_kept run).framed.touches
  | .base (.mknod _ _ _), _, run => (sys_mknod_kept run).framed.touches
  | .base (.symlink _ _), _, run => (sys_symlink_kept run).framed.touches
  | .base (.chdir _), (_, _), run => by
    obtain ⟨t, kept, rfl | ⟨ip, rfl⟩⟩ := sys_chdir_kept run
    · exact kept.framed.touches
    · refine ⟨{ t.procs t.cur with cwd := ip }, ?_⟩
      show setAt t.procs t.cur _ = _
      rw [kept.procs, kept.cur]
  | .base (.write _ _ _), _, run => (sys_write_kept run).framed.touches
  | .base (.close _), _, run => sys_close_touches run
  | .read _ _ _, _, run => by
    obtain ⟨_, read, rfl⟩ := map_eq_ok run
    exact (sys_read_kept read).framed.touches
  | .dup fd, (_, _), run => by
    rcases sys_dup_cases fd run with ⟨-, rfl⟩ | ⟨_, _, _, -, -, -, duped⟩
    · exact (Framed.refl _).touches
    · exact ⟨_, (filedup_frame duped).procs⟩
  | .fstat _ _, _, run => by
    obtain ⟨_, stat, rfl⟩ := map_eq_ok run
    exact (sys_fstat_kept stat).framed.touches

/-- A file call of process `pid` leaves every other process as it was: its descriptors
and its current directory. -/
theorem file_calls_isolate_processes {sb : Superblock} {s s' : Sys} {pid : Nat} (call : FileCall) {r : Int}
    (run : call.run sb { s with cur := pid } = .ok (r, s')) {q : Nat} (other : q ≠ pid) : s'.procs q = s.procs q := by
  obtain ⟨proc, procs⟩ := FileCall.run_touches call run
  rw [procs]
  exact setAt_ne _ _ _ other

set_option maxRecDepth 100000 in
/-- Process `1` of two opens the root directory. -/
theorem file_calls_isolate_processes_root :
    ∃ r s', FileCall.run fs1000 (.base (.openFile [47] O_RDONLY)) { boot fs1000 2 with cur := 1 } = .ok (r, s') ∧
      (0 : Nat) ≠ 1 ∧ s'.procs 0 = (boot fs1000 2).procs 0 := by
  obtain ⟨⟨r, s'⟩, run⟩ :=
    exists_ok_of_toBool (FileCall.run fs1000 (.base (.openFile [47] O_RDONLY)) { boot fs1000 2 with cur := 1 })
      (by decide)
  exact ⟨r, s', run, by decide, file_calls_isolate_processes _ run (by decide)⟩

end Xv6Fs
