import Xv6Fs.DirSpec
import Xv6Fs.PathElems
import Xv6Fs.Descriptors

/-!
# Path resolution

`namex` walks a path one element at a time.  It locks the current inode and refuses
one that is not a directory.  It looks the element up with `dirlookup`, takes a
reference to the entry's inode with `iget`, and puts the directory it leaves.
`resolve` is the walk the spec describes, over the directories on disk alone: from an
inode number, look each element up in turn, and fail at a missing entry or at a
non-directory with elements left.

* `skipelem` hands `namex` the elements of the path (`pathElems`), cut to `DIRSIZ`;
* from a state that satisfies the invariant and whose directories are sound, `namei`
  returns the slot of the inode `resolve` finds.  It starts from the root for an
  absolute path and from the caller's current directory otherwise, and it fails
  exactly when `resolve` does;
* `sys_chdir` succeeds exactly when the path resolves to a directory, and the caller's
  new current directory caches that directory's inode;
* a descriptor that `sys_open` without `O_CREATE` returns names the inode the path
  resolves to, unless that is a symbolic link the call follows.

A sound directory has a whole number of entries, no name twice, and a link.  The
links matter because the walk drops its reference to each directory it leaves, and
`iput` frees an unlinked inode when it drops the last reference.
-/

namespace Xv6Fs

/-- The walk of path resolution over the directories of `disk`: from inode `inum`,
look up each element in turn, cut to `DIRSIZ` bytes as `skipelem` cuts it. -/
def resolve (disk : Disk) : Nat → List (List UInt8) → Option Nat
  | inum, [] => some inum
  | inum, elem :: rest =>
    if (disk.dinode inum).type = T_DIR then
      match findEntry (elem.take DIRSIZ) (direntries disk (disk.dinode inum)) with
      | some (child, _) => resolve disk child rest
      | none => none
    else none

/-- A directory that `namex` walks through without changing the disk: its size is a
whole number of entries, no two entries in use have the same name, and it has a
link. -/
structure DirSound (disk : Disk) (din : Dinode) : Prop where
  aligned : din.size % DIRENT_SIZE = 0
  unique : NamesUnique (direntries disk din)
  linked : din.nlink ≠ 0

/-- The reference resolution of `nameiparent`: the directory that the path without its
last element resolves to, and the last element, cut to `DIRSIZ` bytes. -/
def resolveParent (disk : Disk) (inum : Nat) (elems : List (List UInt8)) : Option (Nat × List UInt8) :=
  match elems.getLast? with
  | none => none
  | some last => (resolve disk inum elems.dropLast).bind fun dp =>
      if (disk.dinode dp).type = T_DIR then some (dp, last.take DIRSIZ) else none

section Reference

variable {disk : Disk} {inum : Nat} {elem : List UInt8}

theorem resolveParent_single :
    resolveParent disk inum [elem] = if (disk.dinode inum).type = T_DIR then some (inum, elem.take DIRSIZ) else none :=
  rfl

theorem resolveParent_not_dir {elems : List (List UInt8)} (notDir : ¬(disk.dinode inum).type = T_DIR) :
    resolveParent disk inum (elem :: elems) = none := by
  cases elems with
  | nil => rw [resolveParent_single, if_neg notDir]
  | cons next elems =>
    simp only [resolveParent, List.getLast?_cons_cons, List.dropLast_cons₂, resolve, if_neg notDir, Option.none_bind]
    split <;> rfl

/-- With more elements to come, the parent is resolved from the first element's entry. -/
theorem resolveParent_cons {elems : List (List UInt8)} (more : elems ≠ []) (dir : (disk.dinode inum).type = T_DIR) :
    resolveParent disk inum (elem :: elems) =
      match findEntry (elem.take DIRSIZ) (direntries disk (disk.dinode inum)) with
      | some (child, _) => resolveParent disk child elems
      | none => none := by
  obtain ⟨next, elems, rfl⟩ := List.exists_cons_of_ne_nil more
  have last := List.getLast?_eq_getLast (next :: elems) more
  simp only [resolveParent, List.getLast?_cons_cons, last, List.dropLast_cons₂, resolve, if_pos dir]
  split <;> rfl

end Reference

/-! ## The elements `skipelem` hands out -/

theorem skipelem_eq_none {path : List UInt8} (ended : skipelem path = none) : pathElems path = [] := by
  unfold skipelem at ended
  dsimp only at ended
  split at ended
  · rw [← pathElems_dropWhile, pathElems_of_headD ‹_›]
  · cases ended

/-- `skipelem` takes the first element of the path, cut to `DIRSIZ` bytes, and leaves a
shorter path with the others. -/
theorem skipelem_eq_some {path name rest : List UInt8} (next : skipelem path = some (name, rest)) :
    ∃ elem, pathElems path = elem :: pathElems rest ∧ name = elem.take DIRSIZ ∧ rest.length < path.length ∧
      rest.headD 0 ≠ slash := by
  unfold skipelem at next
  dsimp only at next
  split at next
  · cases next
  · rename_i more
    cases next
    obtain ⟨elems, noSlash, shorter⟩ := pathElems_next (headD_dropWhile_slash path) more
    refine ⟨_, by rw [← pathElems_dropWhile, elems], rfl, ?_, noSlash⟩
    have := (List.dropWhile_suffix (fun c => decide (c = slash)) (l := path)).length_le
    omega

/-- `argstr` hands the system call the string up to the first `NUL`, which has the
elements and the first byte of the whole argument. -/
theorem argstr_eq_some {path str : List UInt8} (given : argstr path = some str) :
    pathElems str = pathElems path ∧ str.headD 0 = path.headD 0 := by
  unfold argstr at given
  dsimp only at given
  split at given
  · cases given
    refine ⟨by rw [pathElems, List.takeWhile_idem]; rfl, ?_⟩
    cases path with
    | nil => rfl
    | cons c path =>
      by_cases nul : c = 0
      · rw [List.takeWhile_cons_of_neg (by simpa using nul), nul]
        rfl
      · rw [List.takeWhile_cons_of_pos (by simpa using nul)]
        rfl
  · cases given

/-! ## What the walk leaves of the disk and the cache -/

section Cache

variable {sb : Superblock} {nproc : Nat} {s : Sys} {L : Multiset Nat} {V : Finset Nat}

theorem iget_disk {dev inum : Nat} {r : Nat × Sys} (run : iget s dev inum = .ok r) : r.2.disk = s.disk := by
  unfold iget at run
  split at run <;> cases run <;> rfl

/-- `iget` leaves the inode number of every referenced slot alone. -/
theorem iget_inum_held {dev inum k j : Nat} {s' : Sys} (run : iget s dev inum = .ok (k, s'))
    (held : 0 < (s.icache j).ref) : (s'.icache j).inum = (s.icache j).inum := by
  unfold iget at run
  split at run
  · cases run
    rw [Sys.setSlot_icache, setAt_apply]
    split <;> subst_vars <;> rfl
  · cases run
  · rename_i k' scan
    cases run
    obtain ⟨-, free⟩ := igetScan_inr scan
    rcases free k rfl with missing | ⟨-, zero⟩
    · cases missing
    · rw [Sys.setSlot_icache, setAt_ne _ _ _ fun same => by subst same; omega]

/-- `iput` of a slot that is not both valid and unlinked frees nothing: the disk and
the inode numbers of the cache stay. -/
theorem iput_of_linked {k : Nat} {s' : Sys} (run : iput sb s k = .ok s')
    (linked : (s.icache k).valid = true → (s.icache k).din.nlink ≠ 0) :
    s'.disk = s.disk ∧ ∀ j, (s'.icache j).inum = (s.icache j).inum := by
  unfold iput at run
  dsimp only at run
  split at run
  · rename_i last
    exact absurd last.2.2 (linked last.2.1)
  · rw [pure_bind] at run
    cases run
    refine ⟨rfl, fun j => ?_⟩
    rw [Sys.setSlot_icache, setAt_apply]
    split <;> subst_vars <;> rfl

/-- `iunlockput` of a referenced slot whose inode has a link on disk frees nothing. -/
theorem iunlockput_linked {k : Nat} {s' : Sys} (inv : Inv sb nproc s L V) (mem : k ∈ L)
    (linked : (s.disk.dinode (s.icache k).inum).nlink ≠ 0) (run : iunlockput sb s k = .ok s') :
    s'.disk = s.disk ∧ ∀ j, (s'.icache j).inum = (s.icache j).inum := by
  obtain ⟨s1, unlocked, put⟩ := bind_eq_ok.1 run
  have relocked := iunlock_relocked unlocked
  have inv1 := iunlock_safe inv k
  rw [unlocked, safe_ok_iff] at inv1
  have kept := iput_of_linked put fun valid => by
    obtain ⟨-, same⟩ := inv1.coherent k (inv1.ref_pos mem) valid
    rw [← same, relocked.disk, relocked.inum]
    exact linked
  exact ⟨kept.1.trans relocked.disk, fun j => (kept.2 j).trans (relocked.inum j)⟩

/-- `iput` keeps the inode number of every slot, also when it frees the inode. -/
theorem iput_inum {k : Nat} {s' : Sys} (run : iput sb s k = .ok s') (j : Nat) :
    (s'.icache j).inum = (s.icache j).inum := by
  unfold iput at run
  dsimp only at run
  split at run
  · obtain ⟨s1, freed, run⟩ := bind_eq_ok.1 run
    cases run
    unfold ifree at freed
    obtain ⟨s2, acquired, freed⟩ := bind_eq_ok.1 freed
    obtain ⟨⟨disk, din⟩, -, freed⟩ := bind_eq_ok.1 freed
    cases freed
    simp only [releasesleep, Sys.setSlot_icache, setAt_apply, apply_ite Slot.inum]
    split_ifs <;> subst_vars <;> exact (acquiresleep_relocked acquired).inum _
  · cases run
    simp only [Sys.setSlot_icache, setAt_apply, apply_ite Slot.inum]
    split_ifs <;> subst_vars <;> rfl

/-- `iunlockput` keeps the inode number of every slot. -/
theorem iunlockput_inum {k : Nat} {s' : Sys} (run : iunlockput sb s k = .ok s') (j : Nat) :
    (s'.icache j).inum = (s.icache j).inum := by
  obtain ⟨s1, unlocked, put⟩ := bind_eq_ok.1 run
  exact (iput_inum put j).trans ((iunlock_relocked unlocked).inum j)

end Cache

/-! ## Where a path starts -/

/-- Where the walk of a path starts: the root for an absolute path, and the inode of
the caller's current directory otherwise. -/
def pathStart (s : Sys) (path : List UInt8) : Nat :=
  if path.headD 0 = slash then ROOTINO else (s.icache (s.procs s.cur).cwd).inum

/-- The processes are as they were, and the slot of the caller's current directory and
each slot in `L`, the caller's local references, still cache the same inodes: a path
starts where it started. -/
structure Pinned (L : Multiset Nat) (s s' : Sys) : Prop where
  procs : s'.procs = s.procs
  cur : s'.cur = s.cur
  cwd : (s'.icache (s.procs s.cur).cwd).inum = (s.icache (s.procs s.cur).cwd).inum
  locals : ∀ j ∈ L, (s'.icache j).inum = (s.icache j).inum

namespace Pinned

variable {sb : Superblock} {L : Multiset Nat} {s s1 s2 : Sys}

theorem refl (L : Multiset Nat) (s : Sys) : Pinned L s s :=
  ⟨rfl, rfl, rfl, fun _ _ => rfl⟩

theorem trans (first : Pinned L s s1) (second : Pinned L s1 s2) : Pinned L s s2 := by
  have cwd := second.cwd
  rw [first.procs, first.cur] at cwd
  exact ⟨second.procs.trans first.procs, second.cur.trans first.cur, cwd.trans first.cwd,
    fun j mem => (second.locals j mem).trans (first.locals j mem)⟩

/-- A step that keeps the inode of every slot. -/
theorem of_kept (kept : Kept s s1) (inum : ∀ j, (s1.icache j).inum = (s.icache j).inum) : Pinned L s s1 :=
  ⟨kept.procs, kept.cur, inum _, fun j _ => inum j⟩

theorem pathStart_eq (pinned : Pinned L s s1) (path : List UInt8) : pathStart s1 path = pathStart s path := by
  unfold pathStart
  rw [pinned.procs, pinned.cur, pinned.cwd]

theorem of_iput {k : Nat} (run : iput sb s k = .ok s1) : Pinned L s s1 :=
  .of_kept (iput_kept run) (iput_inum run)

/-- Fewer local references. -/
theorem mono {L' : Multiset Nat} (pinned : Pinned L s s1) (sub : ∀ j ∈ L', j ∈ L) : Pinned L' s s1 :=
  ⟨pinned.procs, pinned.cur, pinned.cwd, fun j mem => pinned.locals j (sub j mem)⟩

theorem withDisk (pinned : Pinned L s s1) (disk : Disk) : Pinned L s { s1 with disk := disk } :=
  ⟨pinned.procs, pinned.cur, pinned.cwd, pinned.locals⟩

/-- Rewriting a slot with the inode it caches. -/
theorem setSlot (pinned : Pinned L s s1) (k : Nat) {slot : Slot} (same : slot.inum = (s1.icache k).inum) :
    Pinned L s (s1.setSlot k slot) :=
  pinned.trans (.of_kept ((Kept.refl s1).setSlot k slot) fun j => by
    rw [Sys.setSlot_icache, setAt_apply]
    split
    · subst_vars
      exact same
    · rfl)

theorem of_iunlockput {k : Nat} (run : iunlockput sb s k = .ok s1) : Pinned L s s1 :=
  .of_kept (iunlockput_kept run) (iunlockput_inum run)

end Pinned

theorem Relocked.pinned {L : Multiset Nat} {s s1 : Sys} (relocked : Relocked s s1) : Pinned L s s1 :=
  .of_kept relocked.kept relocked.inum

/-! ## `namei` against `resolve` -/

section Walk

variable {sb : Superblock} {nproc : Nat} (wf : sb.WellFormed) {d : Disk}
  (dirs : ∀ inum, (d.dinode inum).type = T_DIR → DirSound d (d.dinode inum))
include wf dirs

/-- The lookup step of the walk in the locked directory `ip`, whose inode `inum` is a
directory: the element has no entry, or the walk holds a new local reference to the
slot of the entry's inode once it has put `ip`, with the disk unchanged. -/
theorem walk_lookup {s1 : Sys} {ip inum : Nat} {L : Multiset Nat} {name : List UInt8}
    (inv1 : Inv sb nproc s1 (ip ::ₘ L) {ip}) (running : s1.cur < nproc) (disk1 : s1.disk = d)
    (din : (s1.icache ip).din = d.dinode inum)
    (inumEq : (s1.icache ip).inum = inum) (isDir : (d.dinode inum).type = T_DIR)
    {found : Option (Nat × Nat)} {s2 : Sys} (looked : dirlookup sb s1 ip name = .ok (found, s2)) :
    match found with
    | none => findEntry name (direntries d (d.dinode inum)) = none ∧ s2 = s1
    | some (next, _) => ∃ child k, findEntry name (direntries d (d.dinode inum)) = some (child, k) ∧
        ∀ {s3 : Sys}, iunlockput sb s2 ip = .ok s3 →
          Inv sb nproc s3 (next ::ₘ L) ∅ ∧ s3.disk = d ∧ (s3.icache next).inum = child ∧ Pinned L s1 s3 := by
  have mem : ip ∈ ip ::ₘ L := Multiset.mem_cons_self ip L
  have pos := inv1.ref_pos mem
  have sound := dirs _ isDir
  have wfDir : DirWf sb s1.disk (s1.icache ip) :=
    inv1.dirWf (Finset.mem_insert_self ip ∅) (by rw [din]; exact isDir) (by rw [din]; exact sound.aligned)
      (by rw [din, disk1]; exact sound.unique)
  have lookedInv := dirlookup_safe inv1 (Finset.mem_insert_self ip ∅) name
  rw [looked, safe_ok_iff] at lookedInv
  rcases found with _ | ⟨next, off⟩
  · obtain ⟨absent, rfl⟩ := dirlookup_none sb wfDir looked
    rw [disk1, din] at absent
    exact ⟨absent, rfl⟩
  · obtain ⟨child, k, entry, -, got⟩ := dirlookup_some sb wfDir looked
    rw [disk1, din] at entry
    refine ⟨child, k, entry, fun put => ?_⟩
    have gotInum := iget_safe inv1 (inv1.dev ip pos) child
    rw [got, safe_ok_iff] at gotInum
    have disk2 : s2.disk = d := (iget_disk got).trans disk1
    have putInv := iunlockput_safe wf lookedInv (Multiset.mem_cons_of_mem mem)
    rw [put, safe_ok_iff, cons_cons_erase, Finset.erase_singleton] at putInv
    have kept := iunlockput_linked lookedInv (Multiset.mem_cons_of_mem mem)
      (by rw [disk2, iget_inum_held got pos, inumEq]; exact sound.linked) put
    have cwd : 0 < (s1.icache (s1.procs s1.cur).cwd).ref := by
      have := inv1.refs (s1.procs s1.cur).cwd
      have := heldRefs_cwd_pos s1 running
      omega
    have frame := (dirlookup_kept looked).trans (iunlockput_kept put)
    exact ⟨putInv, kept.1.trans disk2, (kept.2 next).trans gotInum.2, ⟨frame.procs, frame.cur,
      (kept.2 _).trans (iget_inum_held got cwd), fun j held =>
        (kept.2 j).trans (iget_inum_held got (inv1.ref_pos (Multiset.mem_cons_of_mem held)))⟩⟩

/-- The walk of `namei`, from a local reference to slot `ip`: it ends with the slot of
the inode `resolve` finds from the inode of `ip`, or fails when `resolve` does.  A walk
that finds an inode leaves the disk as it was, and no walk moves the caller's current
directory. -/
theorem namexLoop_resolves : ∀ (fuel ip : Nat) (path name : List UInt8) {s : Sys} {L : Multiset Nat}
    {r : Option (Nat × List UInt8)} {s' : Sys}, Inv sb nproc s (ip ::ₘ L) ∅ → s.cur < nproc → s.disk = d →
    path.length < fuel → namexLoop sb false fuel ip path name s = .ok (r, s') →
    r.map (fun found => (s'.icache found.1).inum) = resolve d (s.icache ip).inum (pathElems path) ∧
      (r ≠ none → s'.disk = d) ∧ Pinned L s s'
  | 0, _, _, _, _, _, _, _, _, _, _, enough, _ => absurd enough (Nat.not_lt_zero _)
  | fuel + 1, ip, path, name, s, L, r, s', inv, running, disk, enough, run => by
    unfold namexLoop at run
    split at run
    · -- No element is left.
      rename_i ended
      cases run
      rw [skipelem_eq_none ended]
      exact ⟨rfl, fun _ => disk, .refl L s⟩
    rename_i elemName rest next
    obtain ⟨elem, elems, rfl, shorter, -⟩ := skipelem_eq_some next
    rw [elems]
    obtain ⟨s1, locked, run⟩ := bind_eq_ok.1 run
    obtain ⟨-, relocked, -, -, -, din, -, -⟩ := ilock_cached inv locked
    have lockedInv := ilock_locked inv (Multiset.mem_cons_self ip L)
    rw [locked, safe_ok_iff] at lockedInv
    rw [disk] at din
    split at run
    · -- Not a directory.
      rename_i notDir
      obtain ⟨s2, put, run⟩ := bind_eq_ok.1 run
      cases run
      rw [din] at notDir
      exact ⟨by simp only [resolve, if_neg notDir, Option.map_none'], fun found => absurd rfl found,
        relocked.pinned.trans (.of_iunlockput put)⟩
    rename_i isDir
    rw [not_not, din] at isDir
    split at run
    · rename_i early
      cases early.1
    obtain ⟨⟨found, s2⟩, looked, run⟩ := bind_eq_ok.1 run
    have step := walk_lookup wf dirs lockedInv.1 (relocked.cur ▸ running) (relocked.disk.trans disk) din
      (relocked.inum ip) isDir looked
    rcases found with _ | ⟨next, off⟩
    · obtain ⟨absent, same⟩ := step
      obtain ⟨s3, put, run⟩ := bind_eq_ok.1 run
      cases run
      rw [same] at put
      exact ⟨by simp only [resolve, if_pos isDir, absent, Option.map_none'], fun found => absurd rfl found,
        relocked.pinned.trans (.of_iunlockput put)⟩
    · obtain ⟨child, k, entry, put⟩ := step
      obtain ⟨s3, unlocked, run⟩ := bind_eq_ok.1 run
      obtain ⟨inv3, disk3, inum3, kept3⟩ := put unlocked
      have cwd3 := relocked.pinned.trans kept3
      obtain ⟨walk, diskEnd, kept⟩ :=
        namexLoop_resolves fuel next rest _ inv3 (cwd3.cur ▸ running) disk3 (by omega) run
      refine ⟨?_, diskEnd, cwd3.trans kept⟩
      rw [walk, inum3]
      simp only [resolve, if_pos isDir, entry]

/-- The walk of `nameiparent`, from a local reference to slot `ip`: it ends with the
slot of the directory and the last element `resolveParent` finds from the inode of
`ip`, or fails when `resolveParent` does.  No walk moves the caller's current
directory. -/
theorem namexLoop_parent : ∀ (fuel ip : Nat) (path name : List UInt8) {s : Sys} {L : Multiset Nat}
    {r : Option (Nat × List UInt8)} {s' : Sys}, Inv sb nproc s (ip ::ₘ L) ∅ → s.cur < nproc → s.disk = d →
    path.length < fuel → namexLoop sb true fuel ip path name s = .ok (r, s') →
    r.map (fun found => ((s'.icache found.1).inum, found.2)) = resolveParent d (s.icache ip).inum (pathElems path) ∧
      (r ≠ none → s'.disk = d) ∧ Pinned L s s'
  | 0, _, _, _, _, _, _, _, _, _, _, enough, _ => absurd enough (Nat.not_lt_zero _)
  | fuel + 1, ip, path, name, s, L, r, s', inv, running, disk, enough, run => by
    unfold namexLoop at run
    split at run
    · -- The path has no element at all.
      rename_i ended
      obtain ⟨s1, put, run⟩ := bind_eq_ok.1 (by simpa only [if_true] using run)
      cases run
      rw [skipelem_eq_none ended]
      exact ⟨rfl, fun found => absurd rfl found, .of_iput put⟩
    rename_i elemName rest next
    obtain ⟨elem, elems, rfl, shorter, noSlash⟩ := skipelem_eq_some next
    rw [elems]
    obtain ⟨s1, locked, run⟩ := bind_eq_ok.1 run
    obtain ⟨-, relocked, -, -, -, din, -, -⟩ := ilock_cached inv locked
    have lockedInv := ilock_locked inv (Multiset.mem_cons_self ip L)
    rw [locked, safe_ok_iff] at lockedInv
    rw [disk] at din
    split at run
    · -- Not a directory.
      rename_i notDir
      obtain ⟨s2, put, run⟩ := bind_eq_ok.1 run
      cases run
      rw [din] at notDir
      rw [resolveParent_not_dir notDir]
      exact ⟨rfl, fun found => absurd rfl found, relocked.pinned.trans (.of_iunlockput put)⟩
    rename_i isDir
    rw [not_not, din] at isDir
    split at run
    · -- The last element: the walk stops at its directory.
      rename_i last
      obtain ⟨s2, unlocked, run⟩ := bind_eq_ok.1 run
      cases run
      refine ⟨?_, fun _ => (iunlock_relocked unlocked).disk.trans (relocked.disk.trans disk),
        relocked.pinned.trans (iunlock_relocked unlocked).pinned⟩
      rw [pathElems_of_headD last.2, resolveParent_single, if_pos isDir, Option.map_some',
        (iunlock_relocked unlocked).inum, relocked.inum]
    rename_i notLast
    have more : pathElems rest ≠ [] := fun none => notLast ⟨rfl, (pathElems_eq_nil_iff noSlash).1 none⟩
    rw [resolveParent_cons more isDir]
    obtain ⟨⟨found, s2⟩, looked, run⟩ := bind_eq_ok.1 run
    have step := walk_lookup wf dirs lockedInv.1 (relocked.cur ▸ running) (relocked.disk.trans disk) din
      (relocked.inum ip) isDir looked
    rcases found with _ | ⟨next, off⟩
    · obtain ⟨absent, same⟩ := step
      obtain ⟨s3, put, run⟩ := bind_eq_ok.1 run
      cases run
      rw [same] at put
      exact ⟨by simp only [absent, Option.map_none'], fun found => absurd rfl found,
        relocked.pinned.trans (.of_iunlockput put)⟩
    · obtain ⟨child, k, entry, put⟩ := step
      obtain ⟨s3, unlocked, run⟩ := bind_eq_ok.1 run
      obtain ⟨inv3, disk3, inum3, kept3⟩ := put unlocked
      have cwd3 := relocked.pinned.trans kept3
      obtain ⟨walk, diskEnd, kept⟩ :=
        namexLoop_parent fuel next rest _ inv3 (cwd3.cur ▸ running) disk3 (by omega) run
      refine ⟨?_, diskEnd, cwd3.trans kept⟩
      rw [walk, inum3]
      simp only [entry]

end Walk

/-! ## From the root or the current directory -/

section Namei

variable {sb : Superblock} {nproc : Nat}

/-- Where `namex` starts its walk: a new local reference to the root for an absolute
path, and to the caller's current directory otherwise, with the disk unchanged. -/
theorem namex_start {s : Sys} {L : Multiset Nat} (inv : Inv sb nproc s L ∅) (running : s.cur < nproc)
    {path : List UInt8} {nameiparent : Bool} {r : Option (Nat × List UInt8)} {s' : Sys}
    (run : namex sb s path nameiparent = .ok (r, s')) :
    ∃ ip s0, Inv sb nproc s0 (ip ::ₘ L) ∅ ∧ s0.disk = s.disk ∧ Pinned L s s0 ∧
      (s0.icache ip).inum = pathStart s path ∧
      namexLoop sb nameiparent (path.length + 1) ip path [] s0 = .ok (r, s') := by
  have held := inv.refs (s.procs s.cur).cwd
  have cwd := heldRefs_cwd_pos s running
  unfold namex at run
  lift_lets at run
  extract_lets walk at run
  split at run
  · rename_i absolute
    obtain ⟨⟨ip, s0⟩, start, run⟩ := bind_eq_ok.1 run
    have got := iget_safe inv rfl ROOTINO
    rw [start, safe_ok_iff] at got
    have kept := iget_kept start
    exact ⟨ip, s0, got.1, iget_disk start, ⟨kept.procs, kept.cur, iget_inum_held start (by omega),
      fun j held => iget_inum_held start (inv.ref_pos held)⟩, by rw [pathStart, if_pos absolute, got.2], run⟩
  · rename_i relative
    rw [pure_bind] at run
    refine ⟨_, _, inv.raise (by omega), rfl, (Pinned.refl L s).setSlot _ rfl, ?_, run⟩
    simp only [pathStart, if_neg relative, Sys.setSlot_icache, setAt_same]

variable (wf : sb.WellFormed)
include wf

/-- `namei` against `resolve`; a lookup that finds an inode leaves the disk as it was,
and none moves the caller's current directory or its local references. -/
theorem namei_walk {s : Sys} {L : Multiset Nat} (inv : Inv sb nproc s L ∅) (running : s.cur < nproc)
    (dirs : ∀ inum, (s.disk.dinode inum).type = T_DIR → DirSound s.disk (s.disk.dinode inum))
    {path : List UInt8} {r : Option Nat} {s' : Sys} (run : namei sb s path = .ok (r, s')) :
    r.map (fun ip => (s'.icache ip).inum) = resolve s.disk (pathStart s path) (pathElems path) ∧
      (r ≠ none → s'.disk = s.disk) ∧ Pinned L s s' := by
  obtain ⟨⟨found, s1⟩, walked, run⟩ := bind_eq_ok.1 run
  cases run
  obtain ⟨ip, s0, inv0, disk0, kept0, start, walked⟩ := namex_start inv running walked
  obtain ⟨walk, diskEnd, kept⟩ :=
    namexLoop_resolves wf dirs _ _ _ _ inv0 (kept0.cur ▸ running) disk0 (Nat.lt_succ_self _) walked
  refine ⟨by rw [Option.map_map, ← start]; exact walk, fun found => diskEnd fun none => found ?_, kept0.trans kept⟩
  rw [none]
  rfl

/-- `nameiparent` against `resolveParent`; a lookup that finds a directory leaves the
disk as it was, and none moves the caller's current directory. -/
theorem nameiparent_walk {s : Sys} {L : Multiset Nat} (inv : Inv sb nproc s L ∅) (running : s.cur < nproc)
    (dirs : ∀ inum, (s.disk.dinode inum).type = T_DIR → DirSound s.disk (s.disk.dinode inum))
    {path : List UInt8} {r : Option (Nat × List UInt8)} {s' : Sys} (run : nameiparent sb s path = .ok (r, s')) :
    r.map (fun found => ((s'.icache found.1).inum, found.2)) = resolveParent s.disk (pathStart s path) (pathElems path) ∧
      (r ≠ none → s'.disk = s.disk) ∧ Pinned L s s' := by
  obtain ⟨ip, s0, inv0, disk0, kept0, start, walked⟩ := namex_start inv running run
  obtain ⟨walk, diskEnd, kept⟩ :=
    namexLoop_parent wf dirs _ _ _ _ inv0 (kept0.cur ▸ running) disk0 (Nat.lt_succ_self _) walked
  rw [← start]
  exact ⟨walk, diskEnd, kept0.trans kept⟩

/-- From a state that satisfies the invariant and whose directories are sound, a `namei`
that completes (one that neither panics nor waits on a lock) returns the slot of the
inode `resolve` finds from the root, for an absolute path, or from the caller's current
directory, and fails exactly when `resolve` does. -/
theorem namei_resolves {s : Sys} (inv : Inv sb nproc s 0 ∅) (running : s.cur < nproc)
    (dirs : ∀ inum, (s.disk.dinode inum).type = T_DIR → DirSound s.disk (s.disk.dinode inum))
    {path : List UInt8} {r : Option Nat} {s' : Sys} (run : namei sb s path = .ok (r, s')) :
    r.map (fun ip => (s'.icache ip).inum) =
      resolve s.disk (if path.headD 0 = slash then ROOTINO else (s.icache (s.procs s.cur).cwd).inum)
        (pathElems path) :=
  (namei_walk wf inv running dirs run).1

end Namei

/-! ## `sys_chdir` and `sys_open` against `resolve` -/

section Calls

variable {sb : Superblock} {nproc : Nat} (wf : sb.WellFormed)
include wf

/-- The lookup of `sys_open` without `O_CREATE` against `resolve`: an inode it hands on
was found by `resolve`.  Unless that inode is a symbolic link the lookup follows, the
locked slot caches it, and it is a directory only for a read-only open. -/
theorem openLookup_resolves {s : Sys} (inv : Inv sb nproc s 0 ∅) (running : s.cur < nproc)
    (dirs : ∀ inum, (s.disk.dinode inum).type = T_DIR → DirSound s.disk (s.disk.dinode inum))
    {path : List UInt8} {omode : BitVec 32} {ip : Nat} {s1 : Sys}
    (run : openLookup sb s path omode = .ok (some ip, s1)) :
    ∃ inum, resolve s.disk (if path.headD 0 = slash then ROOTINO else (s.icache (s.procs s.cur).cwd).inum)
        (pathElems path) = some inum ∧
      (((s.disk.dinode inum).type = T_SYMLINK ∧ omode &&& O_NOFOLLOW = 0) ∨
        (s1.icache ip).inum = inum ∧ ((s.disk.dinode inum).type = T_DIR → omode = O_RDONLY)) := by
  unfold openLookup at run
  obtain ⟨⟨found, s2⟩, walked, run⟩ := bind_eq_ok.1 run
  obtain ⟨walk, disk2, -⟩ := namei_walk wf inv running dirs walked
  rw [pathStart] at walk
  rcases found with _ | ip2
  · cases run
  have inv2 := namei_safe wf inv running path
  rw [walked, safe_ok_iff] at inv2
  obtain ⟨s3, locked, run⟩ := bind_eq_ok.1 run
  obtain ⟨-, relocked3, -, -, -, din, -, -⟩ := ilock_cached inv2 locked
  rw [disk2 nofun] at din
  refine ⟨(s2.icache ip2).inum, by rw [← walk]; rfl, ?_⟩
  dsimp only at run
  split at run
  · obtain ⟨s4, -, run⟩ := bind_eq_ok.1 run
    cases run
  rename_i readOnly
  split at run
  · rename_i followed
    rw [din] at followed
    exact .inl followed
  · cases run
    refine .inr ⟨relocked3.inum ip, fun dir => not_not.1 fun writable => readOnly ⟨?_, writable⟩⟩
    rwa [din]

/-- From a state that satisfies the invariant and whose directories are sound, a
`sys_open` without `O_CREATE` that returns a descriptor opened a path `resolve` finds.
Unless the inode found is a symbolic link the call follows, the descriptor names an
entry bound to a slot caching that inode, and a directory is open only for reading. -/
theorem sys_open_resolves {s : Sys} (inv : Inv sb nproc s 0 ∅) (running : s.cur < nproc)
    (dirs : ∀ inum, (s.disk.dinode inum).type = T_DIR → DirSound s.disk (s.disk.dinode inum))
    {path : List UInt8} {omode : BitVec 32} (noCreate : omode &&& O_CREATE = 0) {r : Int} {s' : Sys}
    (run : sys_open sb s path omode = .ok (r, s')) (opened : r ≠ -1) :
    ∃ inum, resolve s.disk (if path.headD 0 = slash then ROOTINO else (s.icache (s.procs s.cur).cwd).inum)
        (pathElems path) = some inum ∧
      (((s.disk.dinode inum).type = T_SYMLINK ∧ omode &&& O_NOFOLLOW = 0) ∨
        ∃ fd f : Nat, r = fd ∧ (s'.procs s'.cur).ofile fd = some f ∧ (s'.icache (s'.ftable f).ip).inum = inum ∧
          ((s.disk.dinode inum).type = T_DIR → omode = O_RDONLY)) := by
  unfold sys_open at run
  split at run
  · cases run
    exact absurd rfl opened
  rename_i str given
  obtain ⟨elemsEq, headEq⟩ := argstr_eq_some given
  lift_lets at run
  extract_lets finish at run
  rw [if_neg (not_not.2 noCreate)] at run
  obtain ⟨⟨found, s1⟩, looked, run⟩ := bind_eq_ok.1 run
  rcases found with _ | ip
  · cases run
    exact absurd rfl opened
  obtain ⟨inum, resolved, cases⟩ := openLookup_resolves wf inv running dirs looked
  rw [elemsEq, headEq] at resolved
  refine ⟨inum, resolved, cases.imp_right fun ⟨cached, dir⟩ => ?_⟩
  rcases openFile_cases run with ⟨failed, -⟩ | ⟨fd, f, rfl, bound⟩
  · exact absurd failed opened
  refine ⟨fd, f, rfl, ?_, by rw [bound.ip, bound.inum, cached], dir⟩
  rw [bound.procs, bound.cur, bindFd, setAt_same]
  exact setAt_same _ _ _

end Calls

/-- In a state that satisfies the invariant, the directories are sound when those within
the inode blocks are: the inodes beyond them are free. -/
theorem dirs_sound_of_inodes {sb : Superblock} {nproc : Nat} {s : Sys} {L : Multiset Nat} {V : Finset Nat}
    (inv : Inv sb nproc s L V)
    (inodes : ∀ inum < sb.ninodes, (s.disk.dinode inum).type = T_DIR →
      (s.disk.dinode inum).size % DIRENT_SIZE = 0 ∧ NamesUnique (direntries s.disk (s.disk.dinode inum)) ∧
        (s.disk.dinode inum).nlink ≠ 0) :
    ∀ inum, (s.disk.dinode inum).type = T_DIR → DirSound s.disk (s.disk.dinode inum) := fun inum dir => by
  have inside : inum < sb.ninodes := by
    by_contra beyond
    have free := inv.beyond inum (by omega)
    rw [free] at dir
    exact absurd dir (by decide)
  obtain ⟨aligned, unique, linked⟩ := inodes inum inside dir
  exact ⟨aligned, unique, linked⟩

/-- At boot the root is the only directory, and it is sound. -/
theorem boot_dirs_sound : ∀ inum, ((boot fs1000 1).disk.dinode inum).type = T_DIR →
    DirSound (boot fs1000 1).disk ((boot fs1000 1).disk.dinode inum) := by
  intro inum dir
  by_cases root : inum = ROOTINO
  · subst root
    exact ⟨by decide, by decide, by decide⟩
  · simp [boot, mkfs, root, Dinode.zero, T_DIR] at dir

set_option maxRecDepth 100000 in
/-- `/..` at boot: the root's `..` names the root. -/
theorem namei_resolves_root :
    ∃ r s', namei fs1000 (boot fs1000 1) [47, 46, 46] = .ok (r, s') ∧
      r.map (fun ip => (s'.icache ip).inum) =
        resolve (boot fs1000 1).disk
          (if [47, 46, 46].headD 0 = slash then ROOTINO
            else ((boot fs1000 1).icache ((boot fs1000 1).procs (boot fs1000 1).cur).cwd).inum)
          (pathElems [47, 46, 46]) := by
  obtain ⟨⟨r, s'⟩, run⟩ := exists_ok_of_toBool (namei fs1000 (boot fs1000 1) [47, 46, 46]) (by decide)
  exact ⟨r, s', run, namei_resolves fs1000_wellFormed (boot_inv fs1000_wellFormed 1) (by decide) boot_dirs_sound run⟩

set_option maxRecDepth 100000 in
/-- `open("/a", O_RDONLY)` once `/a` is created opens it on descriptor `1`. -/
theorem sys_open_resolves_created :
    ∃ s', sys_open fs1000 fileCreated [47, 97] O_RDONLY = .ok (1, s') ∧ O_RDONLY &&& O_CREATE = 0 ∧
      (1 : Int) ≠ -1 ∧ ∃ inum,
        resolve fileCreated.disk
            (if [47, 97].headD 0 = slash then ROOTINO
              else (fileCreated.icache (fileCreated.procs fileCreated.cur).cwd).inum)
            (pathElems [47, 97]) = some inum ∧
          (((fileCreated.disk.dinode inum).type = T_SYMLINK ∧ O_RDONLY &&& O_NOFOLLOW = 0) ∨
            ∃ fd f : Nat, (1 : Int) = fd ∧ (s'.procs s'.cur).ofile fd = some f ∧
              (s'.icache (s'.ftable f).ip).inum = inum ∧
              ((fileCreated.disk.dinode inum).type = T_DIR → O_RDONLY = O_RDONLY)) := by
  have inv := fileCreated_reachable.inv fs1000_wellFormed
  obtain ⟨s', run⟩ := exists_ok_of_fst_eq (sys_open fs1000 fileCreated [47, 97] O_RDONLY) 1 (by decide)
  exact ⟨s', run, by decide, by decide,
    sys_open_resolves fs1000_wellFormed inv (by decide) (dirs_sound_of_inodes inv (by decide)) (by decide) run
      (by decide)⟩

end Xv6Fs
