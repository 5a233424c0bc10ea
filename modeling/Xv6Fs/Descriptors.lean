import Xv6Fs.Frames

/-!
# Descriptors

`fdalloc` scans the caller's descriptors from `0` up and binds the first free one, and
no other part of `sys_open`, `sys_dup` or `sys_close` touches a process.  So:

* a `sys_open` or `sys_dup` that succeeds returns the lowest descriptor that was free,
  binds it, and leaves every other descriptor of every process as it was; one that
  fails leaves all of them as they were;
* after `sys_close(k)` with the descriptors below `k` open, a `sys_open` or `sys_dup`
  returns `k` or `-1`.  This is what the redirections of `nsh` count on:
  `close(1); open(...)` and `close(1); dup(p[1])` land on the descriptor closed.
-/

namespace Xv6Fs

/-! ## What `fileclose` leaves alone -/

section Frames

variable {sb : Superblock} {s : Sys}

theorem Framed.setFile {s s1 : Sys} (framed : Framed s s1) (f : Nat) (file : File) :
    Framed s (s1.setFile f file) :=
  ⟨framed.procs, framed.cur⟩

theorem fileclose_frame {f : Nat} {s' : Sys} (run : fileclose sb s f = .ok s') : Framed s s' := by
  unfold fileclose at run
  dsimp only at run
  split at run
  · cases run
  split at run
  · cases run
    exact ⟨rfl, rfl⟩
  split at run
  · exact ((Framed.refl s).setFile _ _).trans (iput_frame run)
  · cases run
    exact ⟨rfl, rfl⟩

/-- `fileclose` of an entry in use rewrites it with one reference less, freed and
untyped when that was the last, and what follows leaves the processes and the counts
alone. -/
theorem fileclose_drops {f : Nat} {s' : Sys} (run : fileclose sb s f = .ok s') :
    0 < (s.ftable f).ref ∧ ∃ file : File, file.ref = (s.ftable f).ref - 1 ∧
      (0 < file.ref → file.type = (s.ftable f).type) ∧ Kept (s.setFile f file) s' := by
  unfold fileclose at run
  dsimp only at run
  split at run
  · cases run
  refine ⟨by omega, ?_⟩
  split at run
  · cases run
    exact ⟨{ s.ftable f with ref := (s.ftable f).ref - 1 }, rfl, fun _ => rfl, .refl _⟩
  refine ⟨{ s.ftable f with ref := 0, type := .none }, by dsimp only; omega, fun pos => absurd pos (Int.lt_irrefl 0), ?_⟩
  split at run
  · exact iput_kept run
  · cases run
    exact .refl _

end Frames

/-! ## The lowest free descriptor -/

/-- `fd` is the lowest free descriptor of the descriptor table `ofile`. -/
structure LowestFree (ofile : Nat → Option Nat) (fd : Nat) : Prop where
  lt : fd < NOFILE
  free : ofile fd = none
  below : ∀ d < fd, ofile d ≠ none

/-- A free descriptor with every one below it open is the lowest: any lowest free one is
it, or there is none when it lies past the table. -/
theorem LowestFree.eq {ofile : Nat → Option Nat} {fd k : Nat} (lowest : LowestFree ofile fd)
    (below : ∀ d < k, ofile d ≠ none) (free : k < NOFILE → ofile k = none) : fd = k := by
  rcases Nat.lt_trichotomy fd k with lt | eq | gt
  · exact absurd lowest.free (below fd lt)
  · exact eq
  · exact absurd (free (by have := lowest.lt; omega)) (lowest.below k gt)

theorem fdallocScan_some {ofile : Nat → Option Nat} : ∀ {remaining fd0 fd : Nat},
    fdallocScan ofile remaining fd0 = some fd →
      fd < fd0 + remaining ∧ ofile fd = none ∧ ∀ d, fd0 ≤ d → d < fd → ofile d ≠ none
  | 0, _, _, found => by cases found
  | remaining + 1, fd0, fd, found => by
    unfold fdallocScan at found
    split at found
    · cases found
      exact ⟨by omega, ‹_›, fun d lo hi => absurd hi (by omega)⟩
    · obtain ⟨hi, free, below⟩ := fdallocScan_some found
      refine ⟨by omega, free, fun d lo' hi' => ?_⟩
      rcases Nat.eq_or_lt_of_le lo' with rfl | lt
      · assumption
      · exact below d lt hi'

theorem fdallocScan_none {ofile : Nat → Option Nat} : ∀ {remaining fd0 : Nat},
    fdallocScan ofile remaining fd0 = none → ∀ d, fd0 ≤ d → d < fd0 + remaining → ofile d ≠ none
  | 0, _, _, d, lo, hi => absurd hi (by omega)
  | remaining + 1, fd0, missing, d, lo, hi => by
    unfold fdallocScan at missing
    split at missing
    · cases missing
    · rcases Nat.eq_or_lt_of_le lo with rfl | lt
      · assumption
      · exact fdallocScan_none missing d lt (by omega)

/-- The caller's table with descriptor `fd` bound to file `f`. -/
def bindFd (s : Sys) (fd f : Nat) : Nat → Proc :=
  setAt s.procs s.cur { s.procs s.cur with ofile := setAt (s.procs s.cur).ofile fd (some f) }

/-- `fdalloc` binds the lowest free descriptor of the caller to `f`, or finds every
descriptor in use and changes nothing. -/
theorem fdalloc_lowest (s : Sys) (f : Nat) :
    (fdalloc s f = (none, s) ∧ ∀ d < NOFILE, (s.procs s.cur).ofile d ≠ none) ∨
      ∃ fd, LowestFree (s.procs s.cur).ofile fd ∧ fdalloc s f = (some fd, { s with procs := bindFd s fd f }) := by
  unfold fdalloc
  dsimp only
  split
  · rename_i fd found
    obtain ⟨hi, free, below⟩ := fdallocScan_some found
    exact .inr ⟨fd, ⟨by simpa using hi, free, fun d lt => below d (Nat.zero_le d) lt⟩, rfl⟩
  · rename_i missing
    exact .inl ⟨rfl, fun d lt => fdallocScan_none missing d (Nat.zero_le d) (by simpa using lt)⟩

/-- The call returned `fd`, the lowest descriptor that was free in the caller, and bound
it to file `f`; every other descriptor of every process is as it was. -/
structure BoundLowest (s : Sys) (f fd : Nat) (s' : Sys) : Prop where
  lowest : LowestFree (s.procs s.cur).ofile fd
  procs : s'.procs = bindFd s fd f
  cur : s'.cur = s.cur

namespace BoundLowest

variable {s s1 s' : Sys} {f fd : Nat}

theorem framed_left (framed : Framed s s1) (bound : BoundLowest s1 f fd s') : BoundLowest s f fd s' := by
  have same : bindFd s1 fd f = bindFd s fd f := by rw [bindFd, bindFd, framed.procs, framed.cur]
  exact ⟨framed.procs ▸ framed.cur ▸ bound.lowest, bound.procs.trans same, bound.cur.trans framed.cur⟩

theorem framed_right (bound : BoundLowest s f fd s1) (framed : Framed s1 s') : BoundLowest s f fd s' :=
  ⟨bound.lowest, framed.procs.trans bound.procs, framed.cur.trans bound.cur⟩

end BoundLowest

section Calls

variable {sb : Superblock} {s : Sys}

theorem filedup_frame {f : Nat} {s' : Sys} (run : filedup s f = .ok s') : Framed s s' := by
  unfold filedup at run
  split at run
  · cases run
  · cases run
    exact ⟨rfl, rfl⟩

/-- `openFile` bound the lowest free descriptor `fd` of the caller to the unused entry
`f`, now a typed entry of the inode of `ip` with one reference.  Nothing else of the
processes or the table changed, and every slot kept its inode number. -/
structure Opened (s : Sys) (ip fd f : Nat) (s' : Sys) : Prop where
  lowest : LowestFree (s.procs s.cur).ofile fd
  unused : (s.ftable f).ref = 0
  procs : s'.procs = bindFd s fd f
  cur : s'.cur = s.cur
  ftable : s'.ftable = setAt s.ftable f (s'.ftable f)
  ref : (s'.ftable f).ref = 1
  typed : (s'.ftable f).type ≠ .none
  ip : (s'.ftable f).ip = ip
  inum : ∀ k, (s'.icache k).inum = (s.icache k).inum

/-- What `openFile` can do: return `-1` with the processes, the counts and the type of
every entry in use as they were, or open the inode. -/
theorem openFile_cases {ip : Nat} {omode : BitVec 32} {r : Int} {s' : Sys}
    (run : openFile sb s ip omode = .ok (r, s')) :
    (r = -1 ∧ s'.procs = s.procs ∧ s'.cur = s.cur ∧ ∀ g, (s'.ftable g).ref = (s.ftable g).ref ∧
      (0 < (s.ftable g).ref → (s'.ftable g).type = (s.ftable g).type)) ∨
    ∃ fd f : Nat, r = fd ∧ Opened s ip fd f s' := by
  have unchanged : ∀ {t}, Kept s t → t.procs = s.procs ∧ t.cur = s.cur ∧ ∀ g, (t.ftable g).ref = (s.ftable g).ref ∧
      (0 < (s.ftable g).ref → (t.ftable g).type = (s.ftable g).type) :=
    fun kept => ⟨kept.procs, kept.cur, fun g => ⟨kept.ref g, fun _ => kept.type g⟩⟩
  unfold openFile at run
  dsimp only at run
  split at run
  · obtain ⟨s1, put, run⟩ := bind_eq_ok.1 run
    cases run
    exact .inl ⟨rfl, unchanged (iunlockput_kept put)⟩
  rcases filealloc_cases s with alloc | ⟨f, -, free, alloc⟩ <;> rw [alloc] at run
  · obtain ⟨s1, put, run⟩ := bind_eq_ok.1 run
    cases run
    exact .inl ⟨rfl, unchanged (iunlockput_kept put)⟩
  dsimp only at run
  rcases fdalloc_lowest (s.setFile f { s.ftable f with ref := 1 }) f with ⟨alloc, -⟩ | ⟨fd, lowest, alloc⟩ <;>
    rw [alloc] at run
  · -- Every descriptor is in use: the entry is closed again, back to no reference.
    obtain ⟨s1, closed, run⟩ := bind_eq_ok.1 run
    obtain ⟨s2, put, run⟩ := bind_eq_ok.1 run
    cases run
    obtain ⟨-, file, dropped, -, kept⟩ := fileclose_drops closed
    have kept' := kept.trans (iunlockput_kept put)
    refine .inl ⟨rfl, kept'.procs, kept'.cur, fun g => ?_⟩
    rw [kept'.ref, kept'.type]
    by_cases same : g = f
    · subst same
      simp only [Sys.setFile, setAt_same] at dropped ⊢
      exact ⟨by omega, fun pos => absurd pos (by omega)⟩
    · simp only [Sys.setFile, setAt_ne _ _ _ same, implies_true, and_self]
  · dsimp only at run
    obtain ⟨s1, unlocked, run⟩ := bind_eq_ok.1 run
    cases run
    have relocked := iunlock_relocked unlocked
    refine .inr ⟨fd, f, rfl, lowest, free, relocked.procs, relocked.cur, ?_, ?_, ?_, ?_, relocked.inum⟩ <;>
      rw [relocked.ftable] <;> simp only [Sys.setFile, setAt_setAt_same, setAt_same]
    · split <;> rfl
    · split <;> nofun

/-- The binding part of `sys_open`: it binds the lowest free descriptor, or returns `-1`
with every descriptor as it was. -/
theorem openFile_binds_lowest {ip : Nat} {omode : BitVec 32} {r : Int} {s' : Sys}
    (run : openFile sb s ip omode = .ok (r, s')) :
    (r = -1 ∧ Framed s s') ∨ ∃ fd f : Nat, r = fd ∧ BoundLowest s f fd s' := by
  rcases openFile_cases run with ⟨failed, procs, cur, -⟩ | ⟨fd, f, rfl, opened⟩
  · exact .inl ⟨failed, procs, cur⟩
  · exact .inr ⟨fd, f, rfl, opened.lowest, opened.procs, opened.cur⟩

/-- A descriptor that `argfd` accepts is in the table and names its open file. -/
theorem argfd_eq_some {fd : Int} {k f : Nat} (found : argfd s fd = some (k, f)) :
    fd = k ∧ k < NOFILE ∧ (s.procs s.cur).ofile k = some f := by
  unfold argfd at found
  split at found
  · cases found
  · rename_i inRange
    obtain ⟨g, opened, same⟩ := Option.map_eq_some'.1 found
    simp only [Prod.mk.injEq] at same
    obtain ⟨rfl, rfl⟩ := same
    exact ⟨by omega, by omega, opened⟩

/-- A descriptor in the table that `argfd` refuses is free. -/
theorem argfd_eq_none {k : Nat} (missing : argfd s k = none) (small : k < NOFILE) :
    (s.procs s.cur).ofile k = none := by
  unfold argfd at missing
  rw [if_neg (by omega), Option.map_eq_none'] at missing
  simpa using missing

/-- What `sys_open` can do: resolve or create the path, which keeps every descriptor,
every count and every type of the file table, and then return `-1` or run `openFile`
on the slot it found. -/
theorem sys_open_cases (path : List UInt8) (omode : BitVec 32) {r : Int} {s' : Sys}
    (run : sys_open sb s path omode = .ok (r, s')) :
    ∃ s1, Kept s s1 ∧ ((r = -1 ∧ s' = s1) ∨ ∃ ip, openFile sb s1 ip omode = .ok (r, s')) := by
  unfold sys_open at run
  split at run
  · cases run
    exact ⟨s, .refl s, .inl ⟨rfl, rfl⟩⟩
  lift_lets at run
  extract_lets finish at run
  have tail : ∀ opened s1, Kept s s1 → finish (opened, s1) = .ok (r, s') →
      ∃ s1, Kept s s1 ∧ ((r = -1 ∧ s' = s1) ∨ ∃ ip, openFile sb s1 ip omode = .ok (r, s')) := by
    rintro (_ | ip) s1 kept run
    · cases run
      exact ⟨_, kept, .inl ⟨rfl, rfl⟩⟩
    · exact ⟨s1, kept, .inr ⟨ip, run⟩⟩
  split at run
  · obtain ⟨⟨opened, s1⟩, found, run⟩ := bind_eq_ok.1 run
    exact tail opened s1 (create_kept found) run
  · obtain ⟨⟨opened, s1⟩, found, run⟩ := bind_eq_ok.1 run
    exact tail opened s1 (openLookup_kept found) run

/-- What `sys_dup` can do: return `-1` and change nothing, or bind the lowest free
descriptor of the caller to the open file of `fd` and count one more reference to it
with `filedup`. -/
theorem sys_dup_cases (fd : Int) {r : Int} {s' : Sys} (run : sys_dup s fd = .ok (r, s')) :
    (r = -1 ∧ s' = s) ∨ ∃ k f new : Nat, argfd s fd = some (k, f) ∧ r = new ∧
      LowestFree (s.procs s.cur).ofile new ∧ filedup { s with procs := bindFd s new f } f = .ok s' := by
  unfold sys_dup at run
  split at run
  · cases run
    exact .inl ⟨rfl, rfl⟩
  rename_i k f found
  rcases fdalloc_lowest s f with ⟨alloc, -⟩ | ⟨new, lowest, alloc⟩ <;> rw [alloc] at run
  · cases run
    exact .inl ⟨rfl, rfl⟩
  · obtain ⟨s1, duped, run⟩ := bind_eq_ok.1 run
    cases run
    exact .inr ⟨k, f, new, found, rfl, lowest, duped⟩

/-- A `sys_dup` that returns a descriptor returns the lowest one free in the caller,
now bound to the open file of the descriptor duplicated; one that returns `-1` leaves
every process as it was. -/
theorem sys_dup_binds_lowest (fd : Int) {r : Int} {s' : Sys} (run : sys_dup s fd = .ok (r, s')) :
    (r = -1 ∧ Framed s s') ∨
      ∃ k f new : Nat, argfd s fd = some (k, f) ∧ r = new ∧ BoundLowest s f new s' := by
  rcases sys_dup_cases fd run with ⟨failed, rfl⟩ | ⟨k, f, new, found, rfl, lowest, duped⟩
  · exact .inl ⟨failed, .refl _⟩
  · have framed := filedup_frame duped
    exact .inr ⟨k, f, new, found, rfl, lowest, framed.procs, framed.cur⟩

set_option maxRecDepth 100000 in
/-- Descriptor `0` duplicated, with descriptors `0` and `1` in use. -/
theorem sys_dup_binds_lowest_third :
    ∃ r s', sys_dup fileOpenedTwice 0 = .ok (r, s') ∧
      ((r = -1 ∧ Framed fileOpenedTwice s') ∨
        ∃ k f new : Nat, argfd fileOpenedTwice 0 = some (k, f) ∧ r = new ∧ BoundLowest fileOpenedTwice f new s') := by
  obtain ⟨⟨r, s'⟩, run⟩ := exists_ok_of_toBool (sys_dup fileOpenedTwice 0) (by decide)
  exact ⟨r, s', run, sys_dup_binds_lowest 0 run⟩

/-- After `sys_close(k)` descriptor `k` of the caller is free, if it lies in the table,
and every other descriptor is as it was. -/
theorem sys_close_frees {k : Nat} {c : Int} {s1 : Sys} (close : sys_close sb s k = .ok (c, s1)) :
    s1.cur = s.cur ∧ (k < NOFILE → (s1.procs s1.cur).ofile k = none) ∧
      ∀ d ≠ k, (s1.procs s1.cur).ofile d = (s.procs s.cur).ofile d := by
  unfold sys_close at close
  split at close
  · rename_i missing
    cases close
    exact ⟨rfl, argfd_eq_none missing, fun _ _ => rfl⟩
  · rename_i k' f found
    obtain ⟨same, -, -⟩ := argfd_eq_some found
    obtain rfl : k' = k := by omega
    obtain ⟨s2, closed, close⟩ := bind_eq_ok.1 close
    cases close
    have framed := fileclose_frame closed
    refine ⟨framed.cur, fun _ => ?_, fun d other => ?_⟩
    · simp [framed.procs, framed.cur, Sys.setProc]
    · simp [framed.procs, framed.cur, Sys.setProc, setAt_ne _ _ _ other]

/-- The redirection of `nsh`: after `sys_close(k)` with the descriptors below `k` open,
a `sys_open` returns `k` or fails. -/
theorem sys_open_after_close_reuses {k : Nat} (below : ∀ d < k, (s.procs s.cur).ofile d ≠ none)
    {c : Int} {s1 : Sys} (close : sys_close sb s k = .ok (c, s1)) {path : List UInt8} {omode : BitVec 32}
    {r : Int} {s2 : Sys} (reopen : sys_open sb s1 path omode = .ok (r, s2)) : r = -1 ∨ r = k := by
  obtain ⟨-, free, kept⟩ := sys_close_frees close
  obtain ⟨s3, kept3, ⟨failed, -⟩ | ⟨ip, opened⟩⟩ := sys_open_cases path omode reopen
  · exact .inl failed
  rcases openFile_binds_lowest opened with ⟨failed, -⟩ | ⟨fd, f, rfl, took⟩
  · exact .inl failed
  · have lowest := (took.framed_left kept3.framed).lowest
    exact .inr (congrArg _ (lowest.eq (fun d lt => kept d (by omega) ▸ below d lt) free))

set_option maxRecDepth 100000 in
/-- Descriptor `1` closed and `/a` opened again, with descriptor `0` in use. -/
theorem sys_open_after_close_reuses_one :
    (∀ d < 1, (fileOpenedTwice.procs fileOpenedTwice.cur).ofile d ≠ none) ∧
      ∃ c s1, sys_close fs1000 fileOpenedTwice (1 : Nat) = .ok (c, s1) ∧
        ∃ r s2, sys_open fs1000 s1 [47, 97] O_RDONLY = .ok (r, s2) ∧ (r = -1 ∨ r = (1 : Nat)) := by
  have below : ∀ d < 1, (fileOpenedTwice.procs fileOpenedTwice.cur).ofile d ≠ none := by decide
  obtain ⟨_, both⟩ := exists_ok_of_toBool (sys_close fs1000 fileOpenedTwice (1 : Nat) >>=
    fun r => sys_open fs1000 r.2 [47, 97] O_RDONLY) (by decide)
  obtain ⟨⟨c, s1⟩, close, reopen⟩ := bind_eq_ok.1 both
  exact ⟨below, c, s1, close, _, _, reopen, sys_open_after_close_reuses below close reopen⟩

/-- The pipe redirection of `nsh`: after `sys_close(k)` with the descriptors below `k`
open, a `sys_dup` returns `k` or fails. -/
theorem sys_dup_after_close_reuses {k : Nat} (below : ∀ d < k, (s.procs s.cur).ofile d ≠ none)
    {c : Int} {s1 : Sys} (close : sys_close sb s k = .ok (c, s1)) {fd : Int}
    {r : Int} {s2 : Sys} (redup : sys_dup s1 fd = .ok (r, s2)) : r = -1 ∨ r = k := by
  obtain ⟨-, free, kept⟩ := sys_close_frees close
  rcases sys_dup_cases fd redup with ⟨failed, -⟩ | ⟨_, _, new, -, rfl, lowest, -⟩
  · exact .inl failed
  · exact .inr (congrArg _ (lowest.eq (fun d lt => kept d (by omega) ▸ below d lt) free))

set_option maxRecDepth 100000 in
/-- Descriptor `1` closed and descriptor `0` duplicated, with descriptor `0` in use. -/
theorem sys_dup_after_close_reuses_one :
    (∀ d < 1, (fileOpenedTwice.procs fileOpenedTwice.cur).ofile d ≠ none) ∧
      ∃ c s1, sys_close fs1000 fileOpenedTwice (1 : Nat) = .ok (c, s1) ∧
        ∃ r s2, sys_dup s1 0 = .ok (r, s2) ∧ (r = -1 ∨ r = (1 : Nat)) := by
  have below : ∀ d < 1, (fileOpenedTwice.procs fileOpenedTwice.cur).ofile d ≠ none := by decide
  obtain ⟨_, both⟩ := exists_ok_of_toBool (sys_close fs1000 fileOpenedTwice (1 : Nat) >>=
    fun r => sys_dup r.2 0) (by decide)
  obtain ⟨⟨c, s1⟩, close, redup⟩ := bind_eq_ok.1 both
  exact ⟨below, c, s1, close, _, _, redup, sys_dup_after_close_reuses below close redup⟩

end Calls

end Xv6Fs
