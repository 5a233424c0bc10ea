import Xv6Fs.Resolve

/-!
# What `sys_link` does to the namespace

The namespace the file system offers is `resolve` over the directories on disk.  A
call that only adds names keeps it: every directory stays one, and every name found in
one is found again with the same inode (`Extends`).  Then every path `resolve` found
before leads to the same inode after.

* `sys_link(old, new)` that returns `0` links `new` to the inode `old` names, a
  non-directory, and raises its link count by one (as a `short`); the namespace only
  grows.

`sys_link` locks, updates and puts the inode of `old` and the parent directory of
`new`.  The proof follows its states one by one: the inode's link count goes up on disk
(`iupdate` writes no block), `nameiparent` walks the disk as it then is, `dirlink`
writes the new entry into the parent and no other inode, and the two puts free nothing
because both inodes keep a link.
-/

namespace Xv6Fs

/-! ## Disks that keep every name -/

/-- Disk `d'` keeps every directory of `d` and every name found in one, with its inode. -/
structure Extends (d d' : Disk) : Prop where
  dir : ∀ inum, (d.dinode inum).type = T_DIR → (d'.dinode inum).type = T_DIR
  found : ∀ inum, (d.dinode inum).type = T_DIR → ∀ name child k,
    findEntry name (direntries d (d.dinode inum)) = some (child, k) →
    ∃ k', findEntry name (direntries d' (d'.dinode inum)) = some (child, k')

namespace Extends

variable {d d1 d2 : Disk}

theorem refl (d : Disk) : Extends d d :=
  ⟨fun _ dir => dir, fun _ _ _ _ _ found => ⟨_, found⟩⟩

theorem trans (first : Extends d d1) (second : Extends d1 d2) : Extends d d2 :=
  ⟨fun inum dir => second.dir inum (first.dir inum dir), fun inum dir name child k found =>
    let ⟨k1, found1⟩ := first.found inum dir name child k found
    second.found inum (first.dir inum dir) name child k1 found1⟩

/-- A path `resolve` finds on `d` leads to the same inode on `d1`. -/
theorem resolve_eq (ext : Extends d d1) : ∀ {inum j : Nat} {elems : List (List UInt8)},
    resolve d inum elems = some j → resolve d1 inum elems = some j
  | _, _, [], found => found
  | inum, j, elem :: rest, found => by
    unfold resolve at found ⊢
    split at found
    · rename_i dir
      rw [if_pos (ext.dir inum dir)]
      split at found
      · rename_i child k entry
        obtain ⟨k', entry'⟩ := ext.found inum dir _ child k entry
        rw [entry']
        exact resolve_eq ext found
      · cases found
    · cases found

/-- A disk where only inode `p` changes, and keeps what its entries named if it is a
directory. -/
theorem of_one {p : Nat}
    (others : ∀ j ≠ p, (d.dinode j).type = T_DIR →
      d1.dinode j = d.dinode j ∧ direntries d1 (d.dinode j) = direntries d (d.dinode j))
    (dir : (d.dinode p).type = T_DIR → (d1.dinode p).type = T_DIR ∧ ∀ name child k,
      findEntry name (direntries d (d.dinode p)) = some (child, k) →
        findEntry name (direntries d1 (d1.dinode p)) = some (child, k)) :
    Extends d d1 := by
  refine ⟨fun j isDir => ?_, fun j isDir name child k entry => ?_⟩ <;> by_cases same : j = p
  · subst same
    exact (dir isDir).1
  · rw [(others j same isDir).1]
    exact isDir
  · subst same
    exact ⟨k, (dir isDir).2 name child k entry⟩
  · rw [(others j same isDir).1, (others j same isDir).2]
    exact ⟨k, entry⟩

end Extends

/-- Overwriting the record of a non-directory with another keeps every name: no block
changes, and the directories keep their records. -/
theorem Extends.setDinode {d : Disk} {i : Nat} {x : Dinode} (notDir : (d.dinode i).type ≠ T_DIR) :
    Extends d (d.setDinode i x) :=
  .of_one (p := i) (fun j other _ => ⟨by simp [setAt_ne _ _ _ other], rfl⟩) fun dir => absurd dir notDir

/-- A name linked where it was missing leaves every name found where it was. -/
theorem findEntry_placeEntry_found {n n' : List UInt8} {i : Nat} (live : i ≠ 0) {l : List Dirent}
    (absent : findEntry n l = none) {child k : Nat} (found : findEntry n' l = some (child, k)) :
    findEntry n' (placeEntry ⟨i, strncpy n DIRSIZ⟩ l) = some (child, k) := by
  by_cases same : namecmp n n' = 0
  · rw [findEntry_eq_none_iff] at absent
    have missing : findEntry n' l = none :=
      findEntry_eq_none_iff.2 fun de mem => by rw [Dirent.names_congr same]; exact absent de mem
    rw [missing] at found
    cases found
  · rw [findEntry_placeEntry_other live same]
    exact found

/-- The entries of a directory are read from its content. -/
theorem direntries_congr {d d' : Disk} {din : Dinode} (same : content d' din = content d din) :
    direntries d' din = direntries d din := by
  have byte : ∀ m < din.size, contentByte d' din m = contentByte d din m := fun m lt => by
    simpa [content, lt] using congrArg (fun bytes => bytes[m]?) same
  unfold direntries
  refine List.map_congr_left fun k kMem => congrArg Dirent.decode (List.map_congr_left fun i iMem => byte _ ?_)
  rw [List.mem_range] at kMem iMem
  have := Nat.div_mul_le_self din.size DIRENT_SIZE
  unfold DIRENT_SIZE DIRSIZ at *
  omega

/-! ## Paths through the parent -/

section Parent

variable {d : Disk} {inum : Nat}

/-- The walk of a path with one more element looks it up where the walk of the path
ends. -/
theorem resolve_concat (d : Disk) : ∀ (inum : Nat) (elems : List (List UInt8)) (last : List UInt8),
    resolve d inum (elems ++ [last]) = (resolve d inum elems).bind fun dp =>
      if (d.dinode dp).type = T_DIR then (findEntry (last.take DIRSIZ) (direntries d (d.dinode dp))).map Prod.fst
      else none
  | inum, [], last => by
    simp only [List.nil_append, resolve, Option.some_bind]
    split
    · cases findEntry (last.take DIRSIZ) (direntries d (d.dinode inum)) with
      | none => rfl
      | some entry => rfl
    · rfl
  | inum, elem :: rest, last => by
    simp only [List.cons_append, resolve]
    split
    · cases findEntry (elem.take DIRSIZ) (direntries d (d.dinode inum)) with
      | none => rfl
      | some entry => exact resolve_concat d entry.1 rest last
    · rfl

/-- What `resolveParent` finds: the directory where the walk of every element but the
last ends, and the last element cut to `DIRSIZ`. -/
theorem resolveParent_eq_some {elems : List (List UInt8)} {dp : Nat} {name : List UInt8}
    (parent : resolveParent d inum elems = some (dp, name)) :
    ∃ init last, elems = init ++ [last] ∧ name = last.take DIRSIZ ∧ resolve d inum init = some dp ∧
      (d.dinode dp).type = T_DIR := by
  unfold resolveParent at parent
  split at parent
  · cases parent
  rename_i last lastEq
  obtain ⟨init, rfl⟩ := List.getLast?_eq_some_iff.1 lastEq
  rw [List.dropLast_concat] at parent
  obtain ⟨dp', found, rest⟩ := Option.bind_eq_some.1 parent
  split at rest
  · cases rest
    exact ⟨init, last, rfl, rfl, found, ‹_›⟩
  · cases rest

/-- A name entered in the directory `resolveParent` finds, on a disk that keeps every
name: the whole path now leads to the entry's inode. -/
theorem resolve_of_parent {d' : Disk} (ext : Extends d d') {elems : List (List UInt8)} {dp : Nat}
    {name : List UInt8} (parent : resolveParent d inum elems = some (dp, name)) {child k : Nat}
    (entered : findEntry name (direntries d' (d'.dinode dp)) = some (child, k)) :
    resolve d' inum elems = some child := by
  obtain ⟨init, last, rfl, rfl, walk, dir⟩ := resolveParent_eq_some parent
  rw [resolve_concat, ext.resolve_eq walk, Option.some_bind, if_pos (ext.dir dp dir), entered]
  rfl

end Parent

/-! ## The tree on disk -/

/-- The directory tree on disk as the walks need it: every directory is sound, inode
`0`, the number of a free entry, is never allocated, and the link count of every
allocated inode is a non-negative `short`. -/
structure TreeSound (disk : Disk) : Prop where
  dirs : ∀ inum, (disk.dinode inum).type = T_DIR → DirSound disk (disk.dinode inum)
  zero : (disk.dinode 0).type = 0
  links : ∀ inum, (disk.dinode inum).type ≠ 0 → 0 ≤ (disk.dinode inum).nlink ∧ (disk.dinode inum).nlink < 32768

/-- The tree of a state that satisfies the invariant is sound when inode `0` is free and
every inode of the inode blocks is sound: the others are free. -/
theorem TreeSound.of_inodes {sb : Superblock} {nproc : Nat} {s : Sys} {L : Multiset Nat} {V : Finset Nat}
    (inv : Inv sb nproc s L V) (zero : (s.disk.dinode 0).type = 0)
    (inodes : ∀ inum < sb.ninodes, ((s.disk.dinode inum).type = T_DIR →
      (s.disk.dinode inum).size % DIRENT_SIZE = 0 ∧ NamesUnique (direntries s.disk (s.disk.dinode inum)) ∧
        (s.disk.dinode inum).nlink ≠ 0) ∧
      ((s.disk.dinode inum).type ≠ 0 → 0 ≤ (s.disk.dinode inum).nlink ∧ (s.disk.dinode inum).nlink < 32768)) :
    TreeSound s.disk := by
  have inside : ∀ inum, (s.disk.dinode inum).type ≠ 0 → inum < sb.ninodes := fun inum used => by
    by_contra beyond
    exact used (inv.beyond inum (by omega))
  exact ⟨dirs_sound_of_inodes inv fun inum lt => (inodes inum lt).1, zero,
    fun inum used => (inodes inum (inside inum used)).2 used⟩

@[simp] theorem direntries_setDinode (d : Disk) (i : Nat) (x din : Dinode) :
    direntries (d.setDinode i x) din = direntries d din :=
  rfl

/-- Overwriting the record of a non-directory with another keeps every directory sound. -/
theorem dirs_setDinode {d : Disk} (dirs : ∀ inum, (d.dinode inum).type = T_DIR → DirSound d (d.dinode inum))
    {i : Nat} {x : Dinode} (notDir : x.type ≠ T_DIR) :
    ∀ inum, ((d.setDinode i x).dinode inum).type = T_DIR → DirSound (d.setDinode i x) ((d.setDinode i x).dinode inum) := by
  intro inum dir
  by_cases same : inum = i
  · subst same
    simp only [Disk.setDinode_dinode, setAt_same] at dir
    exact absurd dir notDir
  · simp only [Disk.setDinode_dinode, setAt_ne _ _ _ same] at dir ⊢
    obtain ⟨aligned, unique, linked⟩ := dirs inum dir
    exact ⟨aligned, by simpa using unique, linked⟩

/-- A raised link count of a non-negative `short` is not zero. -/
theorem toShort_succ_ne_zero {nlink : Int} (lower : 0 ≤ nlink) (upper : nlink < 32768) : toShort (nlink + 1) ≠ 0 := by
  unfold toShort
  omega

/-- Raising or lowering a link count in a slot and writing it to disk keeps every
slot's inode. -/
theorem Pinned.of_addNlink_update {L : Multiset Nat} (s : Sys) (ip : Nat) (delta : Int) :
    Pinned L s (iupdateSlot (addNlink s ip delta) ip) :=
  .of_kept (((Kept.refl s).relinked ip delta).updated ip) fun j => by
    simp only [iupdateSlot, addNlink, Sys.setSlot_icache, setAt_apply, apply_ite Slot.inum]
    split_ifs <;> subst_vars <;> rfl

/-! ## `dirlink` and `sys_link` -/

section Link

variable {sb : Superblock} {nproc : Nat} {s : Sys} {L : Multiset Nat} {V : Finset Nat} (wf : sb.WellFormed)
include wf

omit wf in
/-- The rollback of `sys_link` always reports failure. -/
theorem linkUndo_refuses {ip : Nat} {r : Int} {s' : Sys} (run : linkUndo sb s ip = .ok (r, s')) : r = -1 := by
  unfold linkUndo at run
  obtain ⟨s1, -, run⟩ := bind_eq_ok.1 run
  obtain ⟨s2, -, run⟩ := bind_eq_ok.1 run
  cases run
  rfl

/-- `dirlink` of a name missing from the locked directory `dp`, to an inode `i` other
than `0` that fits an entry: the name now leads to `i`, every name found before in any
directory is found as before, and only `dp`'s record changes, keeping its link count. -/
theorem dirlink_extends (inv : Inv sb nproc s L V) {dp : Nat} (locked : dp ∈ V) (dir : DirWf sb s.disk (s.icache dp))
    {name : List UInt8} {i : Nat} (live : i ≠ 0) (fits : i < 65536) {s' : Sys}
    (run : dirlink sb s dp name i = .ok (0, s')) :
    Extends s.disk s'.disk ∧
      (∃ k, findEntry name (direntries s'.disk (s'.disk.dinode (s.icache dp).inum)) = some (i, k)) ∧
      (∀ j ≠ (s.icache dp).inum, s'.disk.dinode j = s.disk.dinode j) ∧
      (s'.disk.dinode (s.icache dp).inum).nlink = (s.disk.dinode (s.icache dp).inum).nlink ∧ Pinned L s s' := by
  have inv' := dirlink_safe wf inv locked name i
  rw [run, safe_ok_iff] at inv'
  rcases dirlink_cases sb wf dir run with ⟨refused, -⟩ | ⟨-, absent, state, entries, -, others, fields⟩
  · exact absurd refused (by decide)
  rw [Nat.mod_eq_of_lt fits] at entries
  have pinned : Pinned L s s' := by
    rw [state]
    exact ((Pinned.refl L s).withDisk _).setSlot dp rfl
  have slot : s'.icache dp = { s.icache dp with din := (s'.icache dp).din } := by
    rw [state]
    simp
  have pos := inv.ref_pos (inv.locked dp locked).1
  have valid := (inv.locked dp locked).2.1
  obtain ⟨-, coherent⟩ := inv.coherent dp pos valid
  obtain ⟨-, coherent'⟩ := inv'.coherent dp (by rw [slot]; exact pos) (by rw [slot]; exact valid)
  rw [slot] at coherent'
  dsimp only at coherent'
  rw [← coherent, ← coherent', Disk.setDinode_self, Disk.setDinode_self] at others
  rw [← coherent, ← coherent'] at entries
  rw [← coherent] at absent
  have other : ∀ j ≠ (s.icache dp).inum, s'.disk.dinode j = s.disk.dinode j := others.dinode
  refine ⟨.of_one (p := (s.icache dp).inum) (fun j ne isDir => ⟨other j ne, direntries_congr ?_⟩)
    fun _ => ⟨?_, fun n child k found => by rw [entries]; exact findEntry_placeEntry_found live absent found⟩,
    ⟨_, by rw [entries]; exact findEntry_placeEntry_same live ((namecmp_eq_zero_iff _ _).2 rfl) absent⟩,
    other, by rw [coherent', coherent, fields], pinned⟩
  · have used : (s.disk.dinode j).type ≠ 0 := by rw [isDir]; decide
    have content := others.content_eq (by by_contra beyond; exact used (inv.beyond j (by omega))) ne used
      (inv.shaped j used).size_le
    rwa [other j ne] at content
  · rw [coherent', fields]
    exact dir.dir

omit wf in
/-- The first half of `sys_link`: the inode of `old`, locked, gets its link count raised
on disk, and its slot is unlocked again. -/
theorem link_raise {s1 s2 s3 : Sys} {ip : Nat} (inv1 : Inv sb nproc s1 (ip ::ₘ 0) ∅) (locked : ilock s1 ip = .ok s2)
    (unlocked : iunlock (iupdateSlot (addNlink s2 ip 1) ip) ip = .ok s3) :
    Inv sb nproc s3 (ip ::ₘ 0) ∅ ∧ Pinned (ip ::ₘ 0) s1 s3 ∧
      (s2.icache ip).din = s1.disk.dinode (s1.icache ip).inum ∧ (s1.disk.dinode (s1.icache ip).inum).type ≠ 0 ∧
      (s1.icache ip).inum < sb.ninodes ∧
      s3.disk = s1.disk.setDinode (s1.icache ip).inum
        { s1.disk.dinode (s1.icache ip).inum with nlink := toShort ((s1.disk.dinode (s1.icache ip).inum).nlink + 1) } := by
  obtain ⟨-, relocked2, valid2, pos2, -, din2, used, -⟩ := ilock_cached inv1 locked
  have inv2 := ilock_locked inv1 (Multiset.mem_cons_self ip 0)
  rw [locked, safe_ok_iff] at inv2
  have inv3 := iunlock_safe (inv2.1.addNlink_update (Finset.mem_insert_self ip ∅) 1) ip
  rw [unlocked, safe_ok_iff, Finset.erase_insert (Finset.not_mem_empty ip)] at inv3
  have relocked3 := iunlock_relocked unlocked
  refine ⟨inv3, relocked2.pinned.trans ((Pinned.of_addNlink_update s2 ip 1).trans relocked3.pinned),
    din2, used, ?_, ?_⟩
  · rw [← relocked2.inum]
    exact inv2.1.inRange pos2 valid2
  · rw [relocked3.disk]
    simp only [iupdateSlot, addNlink, iupdate, Sys.setSlot_icache, Sys.setSlot_disk, setAt_same, relocked2.disk,
      relocked2.inum, din2]

/-- From a state that satisfies the invariant and whose tree is sound, a `sys_link(old,
new)` that returns `0` found a non-directory for `old`.  Afterwards `new` leads to it,
its record on disk has the link count one higher (as a `short`), and every path that
led to an inode before still does. -/
theorem sys_link_resolves (inv : Inv sb nproc s 0 ∅) (running : s.cur < nproc) (sound : TreeSound s.disk)
    {old new : List UInt8} {s' : Sys} (run : sys_link sb s old new = .ok (0, s')) :
    ∃ inum, resolve s.disk (pathStart s old) (pathElems old) = some inum ∧ (s.disk.dinode inum).type ≠ T_DIR ∧
      resolve s'.disk (pathStart s' new) (pathElems new) = some inum ∧
      s'.disk.dinode inum = { s.disk.dinode inum with nlink := toShort ((s.disk.dinode inum).nlink + 1) } ∧
      Extends s.disk s'.disk := by
  have refused : ∀ t : Sys, (Except.ok ((-1 : Int), t) : Except Halt (Int × Sys)) ≠ .ok (0, s') := by
    intro t same
    cases same
  unfold sys_link at run
  split at run
  swap
  · exact absurd run (refused s)
  rename_i old' new' oldGiven newGiven
  obtain ⟨oldElems, oldHead⟩ := argstr_eq_some oldGiven
  obtain ⟨newElems, newHead⟩ := argstr_eq_some newGiven
  -- `namei(old)`, and the link count raised.
  obtain ⟨⟨found, s1⟩, walked, run⟩ := bind_eq_ok.1 run
  rcases found with _ | ip
  · exact absurd run (refused s1)
  have inv1 := namei_safe wf inv running old'
  rw [walked, safe_ok_iff] at inv1
  obtain ⟨walk, disk1, pinned1⟩ := namei_walk wf inv running sound.dirs walked
  replace disk1 := disk1 nofun
  simp only [Option.map_some'] at walk
  obtain ⟨s2, locked, run⟩ := bind_eq_ok.1 run
  split at run
  · obtain ⟨s3, -, run⟩ := bind_eq_ok.1 run
    exact absurd run (refused s3)
  rename_i notDir
  obtain ⟨s3, unlocked, run⟩ := bind_eq_ok.1 run
  obtain ⟨inv3, pinned3, din2, used, inRange, disk3⟩ := link_raise inv1 locked unlocked
  rw [din2, disk1] at notDir
  rw [disk1] at used disk3
  have ipInum3 := pinned3.locals ip (Multiset.mem_cons_self ip 0)
  generalize iEq : (s1.icache ip).inum = i at walk notDir used inRange disk3 ipInum3
  have live : i ≠ 0 := fun zero => used (zero ▸ sound.zero)
  have running3 : s3.cur < nproc := by rw [pinned3.cur, pinned1.cur]; exact running
  have dirs3 : ∀ inum, (s3.disk.dinode inum).type = T_DIR → DirSound s3.disk (s3.disk.dinode inum) := by
    rw [disk3]
    exact dirs_setDinode sound.dirs notDir
  -- `nameiparent(new)` on the disk with the raised count.
  obtain ⟨⟨parent, s4⟩, parented, run⟩ := bind_eq_ok.1 run
  rcases parent with _ | ⟨dp, name⟩
  · exact absurd (linkUndo_refuses run) (by decide)
  have inv4 := nameiparent_safe wf inv3 running3 new'
  rw [parented, safe_ok_iff] at inv4
  obtain ⟨parentWalk, disk4, pinned4⟩ := nameiparent_walk wf inv3 running3 dirs3 parented
  replace disk4 := disk4 nofun
  simp only [Option.map_some'] at parentWalk
  obtain ⟨_, _, -, -, -, pDir⟩ := resolveParent_eq_some parentWalk.symm
  obtain ⟨s5, lockedDp, run⟩ := bind_eq_ok.1 run
  obtain ⟨-, relocked5, -, -, -, din5, -, -⟩ := ilock_cached inv4 lockedDp
  have inv5 := ilock_locked inv4 (Multiset.mem_cons_self dp _)
  rw [lockedDp, safe_ok_iff] at inv5
  rw [disk4] at din5
  split at run
  · obtain ⟨s6, -, run⟩ := bind_eq_ok.1 run
    exact absurd (linkUndo_refuses run) (by decide)
  -- `dirlink` enters the name in the parent.
  obtain ⟨⟨linked, s6⟩, linking, run⟩ := bind_eq_ok.1 run
  dsimp only at run
  split at run
  · obtain ⟨s7, -, run⟩ := bind_eq_ok.1 run
    exact absurd (linkUndo_refuses run) (by decide)
  rename_i nonneg
  obtain ⟨s7, putDp, run⟩ := bind_eq_ok.1 run
  obtain ⟨s8, putIp, run⟩ := bind_eq_ok.1 run
  cases run
  have ipInum5 : (s5.icache ip).inum = i := by
    rw [relocked5.inum, pinned4.locals ip (Multiset.mem_cons_self ip 0), ipInum3]
  have dirWf5 : DirWf sb s5.disk (s5.icache dp) := by
    obtain ⟨aligned, unique, -⟩ := dirs3 _ pDir
    refine inv5.1.dirWf (Finset.mem_insert_self dp ∅) ?_ ?_ ?_ <;> rw [din5] <;> [exact pDir; exact aligned;
      (rw [relocked5.disk, disk4]; exact unique)]
  rw [ipInum5] at linking
  rcases dirlink_cases sb wf dirWf5 linking with ⟨refused, -⟩ | ⟨zero, -⟩
  · exact absurd (refused ▸ nonneg) (by decide)
  subst zero
  have inv6 := dirlink_safe wf inv5.1 (Finset.mem_insert_self dp ∅) name i
  rw [linking, safe_ok_iff] at inv6
  obtain ⟨ext6, ⟨k, entered⟩, other6, nlink6, pinned6⟩ :=
    dirlink_extends wf inv5.1 (Finset.mem_insert_self dp ∅) dirWf5 live (by have := wf.inodesFit; omega) linking
  rw [relocked5.inum] at entered
  rw [relocked5.inum, relocked5.disk, disk4] at other6 nlink6
  rw [relocked5.disk, disk4] at ext6
  -- The puts of the parent and of the inode free nothing.
  have dpInum6 : (s6.icache dp).inum = (s4.icache dp).inum := by
    rw [pinned6.locals dp (Multiset.mem_cons_self _ _), relocked5.inum]
  have put7 := iunlockput_linked inv6 (Multiset.mem_cons_self _ _)
    (by rw [dpInum6, nlink6]; exact (dirs3 _ pDir).linked) putDp
  have inv7 := iunlockput_safe wf inv6 (Multiset.mem_cons_self _ _)
  rw [putDp, safe_ok_iff, Multiset.erase_cons_head, Finset.erase_insert (Finset.not_mem_empty dp)] at inv7
  have ipInum7 : (s7.icache ip).inum = i := by
    rw [put7.2, pinned6.locals ip (Multiset.mem_cons_of_mem (Multiset.mem_cons_self ip 0)), ipInum5]
  have other : i ≠ (s4.icache dp).inum := fun same => notDir (by
    rw [← same, disk3, Disk.setDinode_dinode, setAt_same] at pDir
    exact pDir)
  have raised : s6.disk.dinode i = { s.disk.dinode i with nlink := toShort ((s.disk.dinode i).nlink + 1) } := by
    rw [other6 i other, disk3, Disk.setDinode_dinode, setAt_same]
  have put8 := iput_of_linked putIp fun valid => by
    have pos := inv7.ref_pos (Multiset.mem_cons_self ip 0)
    rw [← (inv7.coherent ip pos valid).2, ipInum7, put7.1, raised]
    exact toShort_succ_ne_zero (sound.links i used).1 (sound.links i used).2
  -- What the namespace is after.
  have disk8 : s'.disk = s6.disk := put8.1.trans put7.1
  have ext3 : Extends s.disk s3.disk := by
    rw [disk3]
    exact Extends.setDinode notDir
  have pinned8 : Pinned 0 s3 s' := (pinned4.mono fun j mem => absurd mem (Multiset.not_mem_zero j)).trans
    (relocked5.pinned.trans ((pinned6.mono fun j mem => absurd mem (Multiset.not_mem_zero j)).trans
      ((Pinned.of_iunlockput putDp).trans (.of_iput putIp))))
  have startOld : pathStart s old = pathStart s old' := by
    unfold pathStart
    rw [oldHead]
  have startNew : pathStart s3 new = pathStart s3 new' := by
    unfold pathStart
    rw [newHead]
  refine ⟨i, by rw [startOld, ← oldElems, ← walk], notDir, ?_, by rw [disk8, raised], by rw [disk8]; exact ext3.trans ext6⟩
  rw [pinned8.pathStart_eq, startNew, ← newElems, disk8]
  exact resolve_of_parent ext6 parentWalk.symm entered

end Link

set_option maxRecDepth 100000 in
/-- `link("/a", "/b")` once `/a` is created. -/
theorem sys_link_resolves_created :
    Inv fs1000 1 fileCreated 0 ∅ ∧ TreeSound fileCreated.disk ∧
      ∃ s', sys_link fs1000 fileCreated [47, 97] [47, 98] = .ok (0, s') ∧
        ∃ inum, resolve fileCreated.disk (pathStart fileCreated [47, 97]) (pathElems [47, 97]) = some inum ∧
          (fileCreated.disk.dinode inum).type ≠ T_DIR ∧
          resolve s'.disk (pathStart s' [47, 98]) (pathElems [47, 98]) = some inum ∧
          s'.disk.dinode inum =
            { fileCreated.disk.dinode inum with nlink := toShort ((fileCreated.disk.dinode inum).nlink + 1) } ∧
          Extends fileCreated.disk s'.disk := by
  have inv := fileCreated_reachable.inv fs1000_wellFormed
  have sound := TreeSound.of_inodes inv (by decide) (by decide)
  obtain ⟨s', run⟩ := exists_ok_of_fst_eq (sys_link fs1000 fileCreated [47, 97] [47, 98]) 0 (by decide)
  exact ⟨inv, sound, s', run, sys_link_resolves fs1000_wellFormed inv (by decide) sound run⟩

end Xv6Fs
