import Xv6Fs.FileWrite

/-!
# What the calls leave alone

Only `fdalloc`, `sys_close` and `sys_chdir` write a process, and only `filealloc`,
`filedup`, `fileclose` and the offset updates of `fileread` and `filewrite` write the
file table.  `Kept s s'` says that a computation left the processes, the running
caller, and the reference count and type of every file table entry as they were.
Every function of the inode cache, of the directory and path layers and of `create`
keeps it, and so does every system call that binds no descriptor: `sys_link`,
`sys_unlink`, `sys_mkdir`, `sys_mknod`, `sys_symlink`, `sys_read`, `sys_write` and
`sys_fstat`.  `sys_chdir` keeps it up to the caller's new current directory.
-/

namespace Xv6Fs

/-- A computation left the processes, the running caller, and the reference count and
type of every file table entry as they were. -/
structure Kept (s s' : Sys) : Prop where
  procs : s'.procs = s.procs
  cur : s'.cur = s.cur
  ref : ∀ f, (s'.ftable f).ref = (s.ftable f).ref
  type : ∀ f, (s'.ftable f).type = (s.ftable f).type

namespace Kept

variable {s s1 s2 : Sys}

theorem refl (s : Sys) : Kept s s :=
  ⟨rfl, rfl, fun _ => rfl, fun _ => rfl⟩

theorem trans (first : Kept s s1) (second : Kept s1 s2) : Kept s s2 :=
  ⟨second.procs.trans first.procs, second.cur.trans first.cur, fun f => (second.ref f).trans (first.ref f),
    fun f => (second.type f).trans (first.type f)⟩

theorem setSlot (kept : Kept s s1) (k : Nat) (slot : Slot) : Kept s (s1.setSlot k slot) :=
  ⟨kept.procs, kept.cur, kept.ref, kept.type⟩

theorem withDisk (kept : Kept s s1) (disk : Disk) : Kept s { s1 with disk := disk } :=
  ⟨kept.procs, kept.cur, kept.ref, kept.type⟩

/-- Moving the offset of an entry of the file table, as `fileread` and `filewrite` do. -/
theorem setOff (kept : Kept s s1) (f off : Nat) : Kept s (s1.setFile f { s1.ftable f with off := off }) := by
  refine ⟨kept.procs, kept.cur, fun g => ?_, fun g => ?_⟩ <;>
  · simp only [Sys.setFile, setAt_apply]
    split
    · subst_vars
      first | exact kept.ref _ | exact kept.type _
    · first | exact kept.ref _ | exact kept.type _

theorem updated (kept : Kept s s1) (ip : Nat) : Kept s (iupdateSlot s1 ip) :=
  ⟨kept.procs, kept.cur, kept.ref, kept.type⟩

theorem relinked (kept : Kept s s1) (ip : Nat) (delta : Int) : Kept s (addNlink s1 ip delta) :=
  ⟨kept.procs, kept.cur, kept.ref, kept.type⟩

theorem framed (kept : Kept s s1) : Framed s s1 :=
  ⟨kept.procs, kept.cur⟩

end Kept

theorem Relocked.kept {s s' : Sys} (relocked : Relocked s s') : Kept s s' :=
  ⟨relocked.procs, relocked.cur, fun f => by rw [relocked.ftable], fun f => by rw [relocked.ftable]⟩

/-! ## The inode cache -/

section Cache

variable {sb : Superblock} {s s' : Sys}

theorem iget_kept {dev inum : Nat} {r : Nat × Sys} (run : iget s dev inum = .ok r) : Kept s r.2 := by
  unfold iget at run
  split at run <;> cases run <;> exact (Kept.refl s).setSlot _ _

theorem ifree_kept {k : Nat} (run : ifree sb s k = .ok s') : Kept s s' := by
  unfold ifree at run
  obtain ⟨s1, acquired, run⟩ := bind_eq_ok.1 run
  obtain ⟨⟨disk, din⟩, -, run⟩ := bind_eq_ok.1 run
  cases run
  exact ((((acquiresleep_relocked acquired).kept.withDisk _).setSlot _ _).setSlot _ _)

theorem iput_kept {k : Nat} (run : iput sb s k = .ok s') : Kept s s' := by
  unfold iput at run
  dsimp only at run
  split at run
  · obtain ⟨s1, freed, run⟩ := bind_eq_ok.1 run
    cases run
    exact (ifree_kept freed).setSlot _ _
  · cases run
    exact (Kept.refl s).setSlot _ _

theorem iunlockput_kept {k : Nat} (run : iunlockput sb s k = .ok s') : Kept s s' := by
  obtain ⟨s1, unlocked, put⟩ := bind_eq_ok.1 run
  exact (iunlock_relocked unlocked).kept.trans (iput_kept put)

theorem readiSlot_kept {k : Nat} {dst : Nat → Bool} {off n : UInt32} {r : (Int × List UInt8) × Sys}
    (run : readiSlot sb s k dst off n = .ok r) : Kept s r.2 := by
  obtain ⟨_, -, run⟩ := bind_eq_ok.1 run
  cases run
  exact ((Kept.refl s).withDisk _).setSlot _ _

theorem writeiSlot_kept {k : Nat} {src : Nat → Option UInt8} {off n : UInt32} {r : Int × Sys}
    (run : writeiSlot sb s k src off n = .ok r) : Kept s r.2 := by
  obtain ⟨_, -, run⟩ := bind_eq_ok.1 run
  cases run
  exact ((Kept.refl s).withDisk _).setSlot _ _

theorem ialloc_kept {dev : Nat} {type : Int} {r : Nat × Sys} (run : ialloc sb s dev type = .ok r) :
    Kept s r.2 := by
  unfold ialloc at run
  split at run
  · exact ((Kept.refl s).withDisk _).trans (iget_kept run)
  · cases run

end Cache

/-! ## Directories and paths -/

section Paths

variable {sb : Superblock}

theorem dirlookupLoop_kept {dp : Nat} {name : List UInt8} :
    ∀ {fuel off : Nat} {s : Sys} {r : Option (Nat × Nat) × Sys},
      dirlookupLoop sb dp name fuel off s = .ok r → Kept s r.2
  | 0, _, s, _, run => by cases run; exact .refl s
  | fuel + 1, off, s, r, run => by
    unfold dirlookupLoop at run
    split at run
    · obtain ⟨⟨⟨_, _⟩, s1⟩, read, run⟩ := bind_eq_ok.1 run
      have kept := readiSlot_kept read
      dsimp only at run
      split at run
      · cases run
      · rw [pure_bind] at run
        split at run
        · exact kept.trans (dirlookupLoop_kept run)
        · split at run
          · obtain ⟨⟨_, s2⟩, got, run⟩ := bind_eq_ok.1 run
            cases run
            exact kept.trans (iget_kept got)
          · exact kept.trans (dirlookupLoop_kept run)
    · cases run
      exact .refl s

theorem dirlookup_kept {s : Sys} {dp : Nat} {name : List UInt8} {r : Option (Nat × Nat) × Sys}
    (run : dirlookup sb s dp name = .ok r) : Kept s r.2 := by
  unfold dirlookup at run
  split at run
  · cases run
  · exact dirlookupLoop_kept run

theorem namexLoop_kept (nameiparent : Bool) :
    ∀ {fuel ip : Nat} {path name : List UInt8} {s : Sys} {r : Option (Nat × List UInt8) × Sys},
      namexLoop sb nameiparent fuel ip path name s = .ok r → Kept s r.2
  | 0, _, _, _, s, _, run => by cases run; exact .refl s
  | fuel + 1, ip, path, name, s, r, run => by
    unfold namexLoop at run
    split at run
    · split at run
      · obtain ⟨s1, put, run⟩ := bind_eq_ok.1 run
        cases run
        exact iput_kept put
      · cases run
        exact .refl s
    · obtain ⟨s1, locked, run⟩ := bind_eq_ok.1 run
      have kept := (ilock_relocked locked).kept
      split at run
      · obtain ⟨s2, put, run⟩ := bind_eq_ok.1 run
        cases run
        exact kept.trans (iunlockput_kept put)
      · split at run
        · obtain ⟨s2, unlocked, run⟩ := bind_eq_ok.1 run
          cases run
          exact kept.trans (iunlock_relocked unlocked).kept
        · obtain ⟨⟨found, s2⟩, looked, run⟩ := bind_eq_ok.1 run
          have kept2 := kept.trans (dirlookup_kept looked)
          rcases found with _ | ⟨next, _⟩
          · obtain ⟨s3, put, run⟩ := bind_eq_ok.1 run
            cases run
            exact kept2.trans (iunlockput_kept put)
          · obtain ⟨s3, put, run⟩ := bind_eq_ok.1 run
            exact (kept2.trans (iunlockput_kept put)).trans (namexLoop_kept nameiparent run)

theorem namex_kept {s : Sys} {path : List UInt8} {nameiparent : Bool} {r : Option (Nat × List UInt8) × Sys}
    (run : namex sb s path nameiparent = .ok r) : Kept s r.2 := by
  unfold namex at run
  dsimp only at run
  split at run
  · obtain ⟨⟨ip, s1⟩, start, run⟩ := bind_eq_ok.1 run
    exact (iget_kept start).trans (namexLoop_kept nameiparent run)
  · exact ((Kept.refl s).setSlot _ _).trans (namexLoop_kept nameiparent run)

theorem namei_kept {s : Sys} {path : List UInt8} {r : Option Nat × Sys} (run : namei sb s path = .ok r) :
    Kept s r.2 := by
  obtain ⟨⟨found, s1⟩, walked, run⟩ := bind_eq_ok.1 run
  cases run
  exact namex_kept walked

theorem dirlinkScan_kept {dp : Nat} : ∀ {fuel off : Nat} {s : Sys} {r : Nat × Sys},
    dirlinkScan sb dp fuel off s = .ok r → Kept s r.2
  | 0, _, s, _, run => by cases run; exact .refl s
  | fuel + 1, off, s, r, run => by
    unfold dirlinkScan at run
    split at run
    · obtain ⟨⟨⟨_, _⟩, s1⟩, read, run⟩ := bind_eq_ok.1 run
      have kept := readiSlot_kept read
      dsimp only at run
      split at run
      · cases run
      · rw [pure_bind] at run
        split at run
        · cases run
          exact kept
        · exact kept.trans (dirlinkScan_kept run)
    · cases run
      exact .refl s

theorem dirlink_kept {s : Sys} {dp inum : Nat} {name : List UInt8} {r : Int × Sys}
    (run : dirlink sb s dp name inum = .ok r) : Kept s r.2 := by
  unfold dirlink at run
  obtain ⟨⟨found, s1⟩, looked, run⟩ := bind_eq_ok.1 run
  have kept := dirlookup_kept looked
  rcases found with _ | ⟨ip, _⟩
  · obtain ⟨⟨off, s2⟩, scanned, run⟩ := bind_eq_ok.1 run
    obtain ⟨⟨_, s3⟩, wrote, run⟩ := bind_eq_ok.1 run
    have kept3 := (kept.trans (dirlinkScan_kept scanned)).trans (writeiSlot_kept wrote)
    dsimp only at run
    split at run
    · cases run
    · cases run
      exact kept3
  · obtain ⟨s2, put, run⟩ := bind_eq_ok.1 run
    cases run
    exact kept.trans (iput_kept put)

end Paths

/-! ## `create` and the lookups of `sys_open` -/

section Create

variable {sb : Superblock} {s : Sys}

theorem createNew_kept {dp : Nat} {name : List UInt8} {type major minor : Int} {r : Option Nat × Sys}
    (run : createNew sb s dp name type major minor = .ok r) : Kept s r.2 := by
  unfold createNew at run
  obtain ⟨⟨ip, s1⟩, allocated, run⟩ := bind_eq_ok.1 run
  obtain ⟨s2, locked, run⟩ := bind_eq_ok.1 run
  have kept2 := (ialloc_kept allocated).trans (ilock_relocked locked).kept
  lift_lets at run
  extract_lets slot din s3 finish s3' at run
  -- The entry in `dp`, after the directory's own entries if it is one.
  have link : ∀ s4 r, Kept s s4 → finish s4 = .ok r → Kept s r.2 := by
    intro s4 r kept4 run
    obtain ⟨⟨_, s5⟩, linked, run⟩ := bind_eq_ok.1 run
    dsimp only at run
    split at run
    · cases run
    rw [pure_bind] at run
    obtain ⟨s6, put, run⟩ := bind_eq_ok.1 run
    cases run
    exact (kept4.trans (dirlink_kept linked)).trans (iunlockput_kept put)
  split at run
  · obtain ⟨⟨_, s4⟩, dot, run⟩ := bind_eq_ok.1 run
    dsimp only at run
    split at run
    · cases run
    rw [pure_bind] at run
    obtain ⟨⟨_, s5⟩, dotdot, run⟩ := bind_eq_ok.1 run
    dsimp only at run
    split at run
    · cases run
    rw [pure_bind, pure_bind] at run
    have kept4 : Kept s s4 := kept2.trans (Kept.trans (⟨rfl, rfl, fun _ => rfl, fun _ => rfl⟩ : Kept s2 s3') (dirlink_kept dot))
    exact link s5 r (kept4.trans (dirlink_kept dotdot)) run
  · rw [pure_bind] at run
    exact link s3 r (kept2.trans (⟨rfl, rfl, fun _ => rfl, fun _ => rfl⟩ : Kept s2 s3)) run

theorem create_kept {path : List UInt8} {type major minor : Int} {r : Option Nat × Sys}
    (run : create sb s path type major minor = .ok r) : Kept s r.2 := by
  unfold create at run
  obtain ⟨⟨parent, s1⟩, walked, run⟩ := bind_eq_ok.1 run
  have kept1 : Kept s s1 := namex_kept walked
  rcases parent with _ | ⟨dp, name⟩
  · cases run
    exact kept1
  obtain ⟨s2, locked, run⟩ := bind_eq_ok.1 run
  obtain ⟨⟨entry, s3⟩, looked, run⟩ := bind_eq_ok.1 run
  have kept3 : Kept s s3 := (kept1.trans (ilock_relocked locked).kept).trans (dirlookup_kept looked)
  rcases entry with _ | ⟨ip, _⟩
  · exact kept3.trans (createNew_kept run)
  obtain ⟨s4, put, run⟩ := bind_eq_ok.1 run
  obtain ⟨s5, locked5, run⟩ := bind_eq_ok.1 run
  have kept5 := (kept3.trans (iunlockput_kept put)).trans (ilock_relocked locked5).kept
  dsimp only at run
  split at run
  · cases run
    exact kept5
  · obtain ⟨s6, put6, run⟩ := bind_eq_ok.1 run
    cases run
    exact kept5.trans (iunlockput_kept put6)

theorem symfollowLoop_kept : ∀ {fuel ip symlinks : Nat} {s : Sys} {r : Option Nat × Sys},
    symfollowLoop sb fuel ip symlinks s = .ok r → Kept s r.2
  | 0, _, _, s, _, run => by cases run; exact .refl s
  | fuel + 1, ip, symlinks, s, r, run => by
    unfold symfollowLoop at run
    obtain ⟨⟨found, s1⟩, walked, run⟩ := bind_eq_ok.1 run
    have kept1 : Kept s s1 := namei_kept walked
    rcases found with _ | t
    · obtain ⟨s2, unlocked, run⟩ := bind_eq_ok.1 run
      cases run
      exact kept1.trans (iunlock_relocked unlocked).kept
    obtain ⟨s2, unlocked, run⟩ := bind_eq_ok.1 run
    obtain ⟨s3, locked, run⟩ := bind_eq_ok.1 run
    have kept3 := (kept1.trans (iunlock_relocked unlocked).kept).trans (ilock_relocked locked).kept
    dsimp only at run
    split at run
    · cases run
      exact kept3
    · split at run
      · cases run
        exact kept3
      · exact kept3.trans (symfollowLoop_kept run)

theorem openLookup_kept {path : List UInt8} {omode : BitVec 32} {r : Option Nat × Sys}
    (run : openLookup sb s path omode = .ok r) : Kept s r.2 := by
  unfold openLookup at run
  obtain ⟨⟨found, s1⟩, walked, run⟩ := bind_eq_ok.1 run
  have kept1 : Kept s s1 := namei_kept walked
  rcases found with _ | ip
  · cases run
    exact kept1
  obtain ⟨s2, locked, run⟩ := bind_eq_ok.1 run
  have kept2 := kept1.trans (ilock_relocked locked).kept
  dsimp only at run
  split at run
  · obtain ⟨s3, put, run⟩ := bind_eq_ok.1 run
    cases run
    exact kept2.trans (iunlockput_kept put)
  · split at run
    · exact kept2.trans (symfollowLoop_kept run)
    · cases run
      exact kept2

end Create

/-! ## The calls that bind no descriptor -/

section Calls

variable {sb : Superblock} {s : Sys}

theorem linkUndo_kept {ip : Nat} {r : Int × Sys} (run : linkUndo sb s ip = .ok r) : Kept s r.2 := by
  unfold linkUndo at run
  obtain ⟨s1, locked, run⟩ := bind_eq_ok.1 run
  obtain ⟨s2, put, run⟩ := bind_eq_ok.1 run
  cases run
  exact (((ilock_relocked locked).kept.relinked ip (-1)).updated ip).trans (iunlockput_kept put)

theorem sys_link_kept {old new : List UInt8} {r : Int × Sys} (run : sys_link sb s old new = .ok r) :
    Kept s r.2 := by
  unfold sys_link at run
  split at run
  swap
  · cases run
    exact .refl s
  obtain ⟨⟨found, s1⟩, walked, run⟩ := bind_eq_ok.1 run
  rcases found with _ | ip
  · cases run
    exact namei_kept walked
  obtain ⟨s2, locked, run⟩ := bind_eq_ok.1 run
  have kept2 := (namei_kept walked).trans (ilock_relocked locked).kept
  split at run
  · obtain ⟨s3, put, run⟩ := bind_eq_ok.1 run
    cases run
    exact kept2.trans (iunlockput_kept put)
  obtain ⟨s3, unlocked, run⟩ := bind_eq_ok.1 run
  have kept3 := ((kept2.relinked ip 1).updated ip).trans (iunlock_relocked unlocked).kept
  obtain ⟨⟨parent, s4⟩, walked4, run⟩ := bind_eq_ok.1 run
  have kept4 : Kept s s4 := kept3.trans (namex_kept walked4)
  rcases parent with _ | ⟨dp, name⟩
  · exact kept4.trans (linkUndo_kept run)
  obtain ⟨s5, locked5, run⟩ := bind_eq_ok.1 run
  have kept5 := kept4.trans (ilock_relocked locked5).kept
  -- The branches that give up after the parent is locked.
  have undo : ∀ {s6 : Sys} {r : Int × Sys}, Kept s s6 →
      (iunlockput sb s6 dp >>= fun s => linkUndo sb s ip) = .ok r → Kept s r.2 := by
    intro s6 r kept6 run
    obtain ⟨s7, put, run⟩ := bind_eq_ok.1 run
    exact (kept6.trans (iunlockput_kept put)).trans (linkUndo_kept run)
  split at run
  · exact undo kept5 run
  obtain ⟨⟨_, s6⟩, linked, run⟩ := bind_eq_ok.1 run
  have kept6 := kept5.trans (dirlink_kept linked)
  dsimp only at run
  split at run
  · exact undo kept6 run
  · obtain ⟨s7, put, run⟩ := bind_eq_ok.1 run
    obtain ⟨s8, put8, run⟩ := bind_eq_ok.1 run
    cases run
    exact (kept6.trans (iunlockput_kept put)).trans (iput_kept put8)

theorem isdiremptyLoop_kept {dp : Nat} : ∀ {fuel off : Nat} {s : Sys} {r : Bool × Sys},
    isdiremptyLoop sb dp fuel off s = .ok r → Kept s r.2
  | 0, _, s, _, run => by cases run; exact .refl s
  | fuel + 1, off, s, r, run => by
    unfold isdiremptyLoop at run
    split at run
    · obtain ⟨⟨⟨_, _⟩, s1⟩, read, run⟩ := bind_eq_ok.1 run
      have kept := readiSlot_kept read
      dsimp only at run
      split at run
      · cases run
      · rw [pure_bind] at run
        split at run
        · cases run
          exact kept
        · exact kept.trans (isdiremptyLoop_kept run)
    · cases run
      exact .refl s

theorem unlinkEntry_kept {dp ip off : Nat} {r : Int × Sys} (run : unlinkEntry sb s dp ip off = .ok r) :
    Kept s r.2 := by
  unfold unlinkEntry at run
  lift_lets at run
  extract_lets finish check at run
  -- What follows the emptiness check: give up, or clear the entry and drop both links.
  have finished : ∀ (p : Bool × Sys) {r : Int × Sys}, Kept s p.2 → finish p = .ok r → Kept s r.2 := by
    rintro ⟨empty, s1⟩ r kept1 run
    unfold finish at run
    dsimp only at run
    split at run
    · obtain ⟨s2, put, run⟩ := bind_eq_ok.1 run
      obtain ⟨s3, put3, run⟩ := bind_eq_ok.1 run
      cases run
      exact (kept1.trans (iunlockput_kept put)).trans (iunlockput_kept put3)
    obtain ⟨⟨_, s2⟩, wrote, run⟩ := bind_eq_ok.1 run
    have kept2 := kept1.trans (writeiSlot_kept wrote)
    dsimp only at run
    split at run
    · cases run
    rw [pure_bind] at run
    obtain ⟨s3, put, run⟩ := bind_eq_ok.1 run
    obtain ⟨s4, put4, run⟩ := bind_eq_ok.1 run
    cases run
    have kept3 : Kept s s3 := by
      refine Kept.trans ?_ (iunlockput_kept put)
      split
      · exact (kept2.relinked dp (-1)).updated dp
      · exact kept2
    exact Kept.trans ((kept3.relinked ip (-1)).updated ip) (iunlockput_kept put4)
  split at run
  · cases run
  rw [pure_bind] at run
  unfold check at run
  split at run
  · obtain ⟨p, checked, run⟩ := bind_eq_ok.1 run
    exact finished p (isdiremptyLoop_kept checked) run
  · rw [pure_bind] at run
    exact finished (true, s) (.refl s) run

theorem sys_unlink_kept {path : List UInt8} {r : Int × Sys} (run : sys_unlink sb s path = .ok r) :
    Kept s r.2 := by
  unfold sys_unlink at run
  split at run
  · cases run
    exact .refl s
  obtain ⟨⟨parent, s1⟩, walked, run⟩ := bind_eq_ok.1 run
  rcases parent with _ | ⟨dp, name⟩
  · cases run
    exact namex_kept walked
  obtain ⟨s2, locked, run⟩ := bind_eq_ok.1 run
  have kept2 : Kept s s2 := (namex_kept walked).trans (ilock_relocked locked).kept
  lift_lets at run
  extract_lets bad at run
  have refused : ∀ {s3 : Sys} {r : Int × Sys}, Kept s s3 → bad s3 = .ok r → Kept s r.2 := by
    intro s3 r kept3 run
    obtain ⟨s4, put, run⟩ := bind_eq_ok.1 run
    cases run
    exact kept3.trans (iunlockput_kept put)
  split at run
  · exact refused kept2 run
  obtain ⟨⟨entry, s3⟩, looked, run⟩ := bind_eq_ok.1 run
  have kept3 := kept2.trans (dirlookup_kept looked)
  rcases entry with _ | ⟨ip, off⟩
  · exact refused kept3 run
  obtain ⟨s4, locked4, run⟩ := bind_eq_ok.1 run
  exact (kept3.trans (ilock_relocked locked4).kept).trans (unlinkEntry_kept run)

/-- The end of `sys_mkdir`, `sys_mknod` and `sys_symlink`: `create`, then unlock and put
the new inode, a symbolic link's target stored in its slot on the way. -/
theorem created_kept {path : List UInt8} {type major minor : Int} (store : Nat → Sys → Sys)
    (stores : ∀ ip s1, Kept s1 (store ip s1)) {r : Int × Sys}
    (run : (create sb s path type major minor >>= fun r => match r with
      | (none, s) => pure (-1, s)
      | (some ip, s) => iunlockput sb (store ip s) ip >>= fun s => pure (0, s)) = .ok r) : Kept s r.2 := by
  obtain ⟨⟨found, s1⟩, created, run⟩ := bind_eq_ok.1 run
  rcases found with _ | ip
  · cases run
    exact create_kept created
  · obtain ⟨s2, put, run⟩ := bind_eq_ok.1 run
    cases run
    exact ((create_kept created).trans (stores ip s1)).trans (iunlockput_kept put)

theorem sys_mkdir_kept {path : List UInt8} {r : Int × Sys} (run : sys_mkdir sb s path = .ok r) : Kept s r.2 := by
  unfold sys_mkdir at run
  split at run
  · cases run
    exact .refl s
  · exact created_kept (fun _ s1 => s1) (fun _ s1 => .refl s1) run

theorem sys_mknod_kept {path : List UInt8} {major minor : Int} {r : Int × Sys}
    (run : sys_mknod sb s path major minor = .ok r) : Kept s r.2 := by
  unfold sys_mknod at run
  split at run
  · cases run
    exact .refl s
  · exact created_kept (fun _ s1 => s1) (fun _ s1 => .refl s1) run

theorem sys_symlink_kept {target path : List UInt8} {r : Int × Sys} (run : sys_symlink sb s target path = .ok r) :
    Kept s r.2 := by
  unfold sys_symlink at run
  split at run
  · rename_i target _ _ _
    exact created_kept _ (fun ip s1 => (Kept.refl s1).setSlot ip _) run
  · cases run
    exact .refl s

/-! ## The calls on an open file -/

theorem filewriteChunk_kept {f n1 : Nat} {src : Nat → Option UInt8} {r : Int × Sys}
    (run : filewriteChunk sb s f src n1 = .ok r) : Kept s r.2 := by
  obtain ⟨s1, locked, run⟩ := bind_eq_ok.1 run
  obtain ⟨⟨w, s2⟩, wrote, run⟩ := bind_eq_ok.1 run
  obtain ⟨s3, unlocked, run⟩ := bind_eq_ok.1 run
  cases run
  have kept2 := (ilock_relocked locked).kept.trans (writeiSlot_kept wrote)
  refine Kept.trans ?_ (iunlock_relocked unlocked).kept
  split
  · exact kept2.setOff f _
  · exact kept2

theorem filewriteLoop_kept {f n : Nat} {src : Nat → Option UInt8} :
    ∀ {fuel i : Nat} {s : Sys} {r : Nat × Sys}, filewriteLoop sb f src n fuel i s = .ok r → Kept s r.2
  | 0, _, s, _, run => by cases run; exact .refl s
  | fuel + 1, i, s, r, run => by
    unfold filewriteLoop at run
    split at run
    · obtain ⟨⟨w, s1⟩, chunk, run⟩ := bind_eq_ok.1 run
      have kept := filewriteChunk_kept chunk
      dsimp only at run
      split at run
      · cases run
        exact kept
      split at run
      · cases run
      · exact kept.trans (filewriteLoop_kept run)
    · cases run
      exact .refl s

theorem sys_write_kept {fd n : Int} {src : Nat → Option UInt8} {r : Int × Sys}
    (run : sys_write sb s fd src n = .ok r) : Kept s r.2 := by
  unfold sys_write filewrite at run
  split at run
  · cases run
    exact .refl s
  dsimp only at run
  split at run
  · cases run
    exact .refl s
  split at run
  · obtain ⟨⟨i, s1⟩, wrote, run⟩ := bind_eq_ok.1 run
    cases run
    exact filewriteLoop_kept wrote
  all_goals first | cases run; exact .refl s | cases run

theorem sys_read_kept {fd n : Int} {dst : Nat → Bool} {r : (Int × List UInt8) × Sys}
    (run : sys_read sb s fd dst n = .ok r) : Kept s r.2 := by
  unfold sys_read fileread at run
  split at run
  · cases run
    exact .refl s
  dsimp only at run
  split at run
  · cases run
    exact .refl s
  split at run
  · obtain ⟨s1, locked, run⟩ := bind_eq_ok.1 run
    obtain ⟨⟨⟨read, out⟩, s2⟩, took, run⟩ := bind_eq_ok.1 run
    obtain ⟨s3, unlocked, run⟩ := bind_eq_ok.1 run
    cases run
    have kept2 := (ilock_relocked locked).kept.trans (readiSlot_kept took)
    refine Kept.trans ?_ (iunlock_relocked unlocked).kept
    split
    · exact kept2.setOff _ _
    · exact kept2
  all_goals first | cases run; exact .refl s | cases run

theorem sys_fstat_kept {fd : Int} {copied : Bool} {r : (Int × Option Stat) × Sys}
    (run : sys_fstat s fd copied = .ok r) : Kept s r.2 := by
  unfold sys_fstat filestat at run
  split at run
  · cases run
    exact .refl s
  dsimp only at run
  split at run
  · obtain ⟨s1, locked, run⟩ := bind_eq_ok.1 run
    obtain ⟨s2, unlocked, run⟩ := bind_eq_ok.1 run
    have kept := (ilock_relocked locked).kept.trans (iunlock_relocked unlocked).kept
    split at run <;> cases run <;> exact kept
  · cases run
    exact .refl s

/-- `sys_chdir` changes no descriptor and no entry of the file table: it only moves the
caller's current directory. -/
theorem sys_chdir_kept {path : List UInt8} {r : Int × Sys} (run : sys_chdir sb s path = .ok r) :
    ∃ t, Kept s t ∧ (r.2 = t ∨ ∃ ip, r.2 = t.setProc { t.procs t.cur with cwd := ip }) := by
  unfold sys_chdir at run
  split at run
  · cases run
    exact ⟨s, .refl s, .inl rfl⟩
  obtain ⟨⟨found, s1⟩, walked, run⟩ := bind_eq_ok.1 run
  rcases found with _ | ip
  · cases run
    exact ⟨_, namei_kept walked, .inl rfl⟩
  obtain ⟨s2, locked, run⟩ := bind_eq_ok.1 run
  have kept2 := (namei_kept walked).trans (ilock_relocked locked).kept
  split at run
  · obtain ⟨s3, put, run⟩ := bind_eq_ok.1 run
    cases run
    exact ⟨_, kept2.trans (iunlockput_kept put), .inl rfl⟩
  · obtain ⟨s3, unlocked, run⟩ := bind_eq_ok.1 run
    obtain ⟨s4, put, run⟩ := bind_eq_ok.1 run
    cases run
    exact ⟨_, (kept2.trans (iunlock_relocked unlocked).kept).trans (iput_kept put), .inr ⟨ip, rfl⟩⟩

end Calls

end Xv6Fs
