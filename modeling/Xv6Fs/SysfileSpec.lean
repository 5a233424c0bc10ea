import Xv6Fs.PathSpec
import Mathlib.Tactic.LiftLets

/-!
# The system calls keep the invariant

Each system call of `sysfile.c`, started from a state that satisfies the invariant with
no locals, returns only into such a state and never halts with `freeing free block`.
The proofs follow the calls' code: each step is one of the cache, directory and path
lemmas, and the locals and locks of the call are traded as the code acquires and drops
them.  References a call leaks (`symfollow` does not `iput` the links it passes) are
simply forgotten: the invariant only bounds the count of a slot from below.

The path lookups inside a call start at the current directory of the running process,
so the calls made before them must leave the processes and the caller alone
(`Framed`).  By induction over the runs, every state reachable from the file system
`mkfs` writes satisfies the invariant, and the maps of its inodes have no holes.
-/

namespace Xv6Fs

/-! ## What the cache and path operations leave alone -/

/-- The processes and the running caller are as they were. -/
structure Framed (s s' : Sys) : Prop where
  procs : s'.procs = s.procs
  cur : s'.cur = s.cur

namespace Framed

variable {s s1 s2 : Sys}

theorem refl (s : Sys) : Framed s s :=
  ⟨rfl, rfl⟩

theorem trans (first : Framed s s1) (second : Framed s1 s2) : Framed s s2 :=
  ⟨second.procs.trans first.procs, second.cur.trans first.cur⟩

theorem setSlot (framed : Framed s s1) (k : Nat) (slot : Slot) : Framed s (s1.setSlot k slot) :=
  ⟨framed.procs, framed.cur⟩

theorem withDisk (framed : Framed s s1) (disk : Disk) : Framed s { s1 with disk := disk } :=
  ⟨framed.procs, framed.cur⟩

end Framed

section Frames

variable {sb : Superblock} {s s' : Sys}

theorem iget_frame {dev inum : Nat} {r : Nat × Sys} (run : iget s dev inum = .ok r) : Framed s r.2 := by
  unfold iget at run
  split at run <;> cases run <;> exact ⟨rfl, rfl⟩

theorem acquiresleep_frame {k : Nat} (run : acquiresleep s k = .ok s') : Framed s s' := by
  unfold acquiresleep at run
  split at run <;> cases run
  exact ⟨rfl, rfl⟩

theorem ilock_frame {k : Nat} (run : ilock s k = .ok s') : Framed s s' := by
  unfold ilock at run
  split at run
  · cases run
  · obtain ⟨_, -, run⟩ := bind_eq_ok.1 run
    obtain ⟨s1, acquired, run⟩ := bind_eq_ok.1 run
    have framed := acquiresleep_frame acquired
    dsimp only at run
    split at run
    · cases run
      exact framed
    · split at run <;> cases run
      exact framed.setSlot _ _

theorem iunlock_frame {k : Nat} (run : iunlock s k = .ok s') : Framed s s' := by
  unfold iunlock at run
  split at run <;> cases run
  exact ⟨rfl, rfl⟩

theorem ifree_frame {k : Nat} (run : ifree sb s k = .ok s') : Framed s s' := by
  unfold ifree at run
  obtain ⟨s1, acquired, run⟩ := bind_eq_ok.1 run
  obtain ⟨⟨disk, din⟩, -, run⟩ := bind_eq_ok.1 run
  cases run
  exact (((acquiresleep_frame acquired).withDisk _).setSlot _ _).setSlot _ _

theorem iput_frame {k : Nat} (run : iput sb s k = .ok s') : Framed s s' := by
  unfold iput at run
  dsimp only at run
  split at run
  · obtain ⟨s1, freed, run⟩ := bind_eq_ok.1 run
    cases run
    exact (ifree_frame freed).setSlot _ _
  · cases run
    exact (Framed.refl s).setSlot _ _

theorem iunlockput_frame {k : Nat} (run : iunlockput sb s k = .ok s') : Framed s s' := by
  obtain ⟨s1, unlocked, put⟩ := bind_eq_ok.1 run
  exact (iunlock_frame unlocked).trans (iput_frame put)

theorem readiSlot_frame {k : Nat} {dst : Nat → Bool} {off n : UInt32} {r : (Int × List UInt8) × Sys}
    (run : readiSlot sb s k dst off n = .ok r) : Framed s r.2 := by
  obtain ⟨_, -, run⟩ := bind_eq_ok.1 run
  cases run
  exact ((Framed.refl s).withDisk _).setSlot _ _

theorem dirlookupLoop_frame {dp : Nat} {name : List UInt8} :
    ∀ {fuel off : Nat} {s : Sys} {r : Option (Nat × Nat) × Sys},
      dirlookupLoop sb dp name fuel off s = .ok r → Framed s r.2
  | 0, _, s, _, run => by cases run; exact .refl s
  | fuel + 1, off, s, r, run => by
    unfold dirlookupLoop at run
    split at run
    · obtain ⟨⟨⟨_, _⟩, s1⟩, read, run⟩ := bind_eq_ok.1 run
      have framed := readiSlot_frame read
      dsimp only at run
      split at run
      · cases run
      · rw [pure_bind] at run
        split at run
        · exact framed.trans (dirlookupLoop_frame run)
        · split at run
          · obtain ⟨⟨_, s2⟩, got, run⟩ := bind_eq_ok.1 run
            cases run
            exact framed.trans (iget_frame got)
          · exact framed.trans (dirlookupLoop_frame run)
    · cases run
      exact .refl s

theorem dirlookup_frame {dp : Nat} {name : List UInt8} {r : Option (Nat × Nat) × Sys}
    (run : dirlookup sb s dp name = .ok r) : Framed s r.2 := by
  unfold dirlookup at run
  split at run
  · cases run
  · exact dirlookupLoop_frame run

theorem namexLoop_frame (nameiparent : Bool) :
    ∀ {fuel ip : Nat} {path name : List UInt8} {s : Sys} {r : Option (Nat × List UInt8) × Sys},
      namexLoop sb nameiparent fuel ip path name s = .ok r → Framed s r.2
  | 0, _, _, _, s, _, run => by cases run; exact .refl s
  | fuel + 1, ip, path, name, s, r, run => by
    unfold namexLoop at run
    split at run
    · split at run
      · obtain ⟨s1, put, run⟩ := bind_eq_ok.1 run
        cases run
        exact iput_frame put
      · cases run
        exact .refl s
    · obtain ⟨s1, locked, run⟩ := bind_eq_ok.1 run
      have framed := ilock_frame locked
      split at run
      · obtain ⟨s2, put, run⟩ := bind_eq_ok.1 run
        cases run
        exact framed.trans (iunlockput_frame put)
      · split at run
        · obtain ⟨s2, unlocked, run⟩ := bind_eq_ok.1 run
          cases run
          exact framed.trans (iunlock_frame unlocked)
        · obtain ⟨⟨found, s2⟩, looked, run⟩ := bind_eq_ok.1 run
          have framed2 := framed.trans (dirlookup_frame looked)
          rcases found with _ | ⟨next, _⟩
          · obtain ⟨s3, put, run⟩ := bind_eq_ok.1 run
            cases run
            exact framed2.trans (iunlockput_frame put)
          · obtain ⟨s3, put, run⟩ := bind_eq_ok.1 run
            exact (framed2.trans (iunlockput_frame put)).trans (namexLoop_frame nameiparent run)

theorem namex_frame {path : List UInt8} {nameiparent : Bool} {r : Option (Nat × List UInt8) × Sys}
    (run : namex sb s path nameiparent = .ok r) : Framed s r.2 := by
  unfold namex at run
  dsimp only at run
  split at run
  · obtain ⟨⟨ip, s1⟩, start, run⟩ := bind_eq_ok.1 run
    exact (iget_frame start).trans (namexLoop_frame nameiparent run)
  · exact ((Framed.refl s).setSlot _ _).trans (namexLoop_frame nameiparent run)

theorem namei_frame {path : List UInt8} {r : Option Nat × Sys} (run : namei sb s path = .ok r) :
    Framed s r.2 := by
  obtain ⟨⟨found, s1⟩, walked, run⟩ := bind_eq_ok.1 run
  cases run
  exact namex_frame walked

end Frames

/-! ## Trading locals, files and processes -/

theorem Safe.bind_ok {α β : Type} {post : β → Prop} {pre : α → Prop} {run : Except Halt α}
    {f : α → Except Halt β} (first : Safe run pre) (next : ∀ a, run = .ok a → pre a → Safe (f a) post) :
    Safe (run >>= f) post := by
  cases ran : run with
  | error => rw [ran] at first; exact first
  | ok a => exact next a ran (by rw [ran] at first; exact first)

namespace Inv

variable {sb : Superblock} {nproc : Nat} {s : Sys} {L : Multiset Nat} {V : Finset Nat}

/-- Locals that are not locked may be forgotten. -/
theorem forget (inv : Inv sb nproc s L V) {L' : Multiset Nat} (le : L' ≤ L) (locked : ∀ k ∈ V, k ∈ L') :
    Inv sb nproc s L' V :=
  { inv with
    refs := fun k => le_trans (by have := Multiset.count_le_of_le k le; omega) (inv.refs k)
    locked := fun k mem => ⟨locked k mem, (inv.locked k mem).2⟩ }

/-- Between calls the invariant does not depend on which process runs next. -/
theorem withCur (inv : Inv sb nproc s L ∅) (pid : Nat) : Inv sb nproc { s with cur := pid } L ∅ :=
  { inv with locked := fun _ mem => absurd mem (Finset.not_mem_empty _) }

/-- A change of the current process's descriptors, which keeps its current directory. -/
theorem setProc_of_cwd (inv : Inv sb nproc s L V) {proc : Proc} (same : proc.cwd = (s.procs s.cur).cwd)
    (fds : ∀ fd f, proc.ofile fd = some f → f < NFILE) : Inv sb nproc (s.setProc proc) L V :=
  { inv with
    refs := fun k => by rw [heldRefs_setProc_of_cwd s nproc same]; exact inv.refs k
    fds := fun pid fd f open_ => by
      by_cases running : pid = s.cur
      · subst running
        simp only [Sys.setProc, setAt_same] at open_
        exact fds fd f open_
      · simp only [Sys.setProc, setAt_ne _ _ _ running] at open_
        exact inv.fds pid fd f open_ }

/-- The target of a symbolic link lives in the slot only. -/
theorem setTarget (inv : Inv sb nproc s L V) (k : Nat) (target : List UInt8) :
    Inv sb nproc (s.setSlot k { s.icache k with target := target }) L V :=
  inv.setSlot (fun pos valid => inv.coherent k pos valid)
    (fun pos j other jpos same => other (inv.unique j k jpos pos same)) (fun pos => inv.dev k pos)
    (fun outside => inv.cached k outside) (inv.refs k) (fun _ _ => le_rfl) fun m mem => by
      by_cases eq : m = k
      · subst eq
        simpa using inv.locked m mem
      · simpa [setAt_ne _ _ _ eq] using inv.locked m mem

end Inv

section Files

variable {sb : Superblock} {nproc : Nat} {s : Sys} {L : Multiset Nat} {V : Finset Nat} (wf : sb.WellFormed)
include wf

/-- `fileclose` of an entry of the file table; the last close drops the reference the
file held. -/
theorem fileclose_safe (inv : Inv sb nproc s L V) {f : Nat} (small : f < NFILE)
    (keep : ∀ k, (s.ftable f).holds k = true → k ∈ V → k ∈ L) :
    Safe (fileclose sb s f) fun s' => Inv sb nproc s' L V := by
  unfold fileclose
  dsimp only
  split
  · simp
  · rename_i used
    split
    · rename_i shared
      refine inv.setFile small (fun free => absurd free (by simp only; omega)) (fun k => ?_)
        fun m mem => (inv.locked m mem).1
      have : (s.ftable f).ref > 0 := by omega
      simp [File.holds, shared, this]
    · rename_i last
      split
      · rename_i bound
        have inv1 : Inv sb nproc (s.setFile f { s.ftable f with ref := 0, type := .none })
            ((s.ftable f).ip ::ₘ L) V := by
          refine inv.setFile small (fun _ => rfl) (fun k => ?_) fun m mem =>
            Multiset.mem_cons_of_mem (inv.locked m mem).1
          by_cases eq : (s.ftable f).ip = k
          · subst eq
            simp [File.holds, bound, show (s.ftable f).ref > 0 by omega]
          · simp [File.holds, Multiset.count_cons_of_ne (Ne.symm eq), eq]
        refine (iput_safe wf inv1 (Multiset.mem_cons_self _ _) fun mem => ?_).mono fun _ put => ?_
        · rw [Multiset.erase_cons_head]
          exact keep _ (by simp [File.holds, bound, show (s.ftable f).ref > 0 by omega]) mem
        · rwa [Multiset.erase_cons_head] at put
      · rename_i other
        refine inv.setFile small (fun _ => rfl) (fun k => ?_) fun m mem => (inv.locked m mem).1
        simp [File.holds, other]

omit wf in
/-- The file of a descriptor is an entry of the file table. -/
theorem argfd_lt (inv : Inv sb nproc s L V) {fd : Int} {fd' f : Nat} (found : argfd s fd = some (fd', f)) :
    f < NFILE := by
  unfold argfd at found
  split at found
  · cases found
  · obtain ⟨g, opened, same⟩ := Option.map_eq_some'.1 found
    cases same
    exact inv.fds _ _ _ opened

/-- `sys_close`: clear the descriptor, then close its file. -/
theorem sys_close_safe (inv : Inv sb nproc s 0 ∅) (fd : Int) :
    Safe (sys_close sb s fd) fun r => Inv sb nproc r.2 0 ∅ := by
  unfold sys_close
  split
  · exact safe_pure inv
  · rename_i fd' f found
    have inv1 : Inv sb nproc (s.setProc { s.procs s.cur with ofile := setAt (s.procs s.cur).ofile fd' none }) 0 ∅ :=
      inv.setProc_of_cwd rfl fun fd g opened => by
        by_cases eq : fd = fd'
        · subst eq
          simp at opened
        · simp only [setAt_ne _ _ _ eq] at opened
          exact inv.fds _ _ _ opened
    exact Safe.bind ((fileclose_safe wf inv1 (argfd_lt inv found) fun _ _ mem => absurd mem (Finset.not_mem_empty _)).mono
      fun _ closed => safe_pure closed)

/-- One transaction of `filewrite`: `writei` under the inode's lock, and the offset
moved on. -/
theorem filewriteChunk_safe (inv : Inv sb nproc s L V) {f : Nat} (small : f < NFILE)
    (src : Nat → Option UInt8) (n1 : Nat) :
    Safe (filewriteChunk sb s f src n1) fun r => Inv sb nproc r.2 L V := by
  unfold filewriteChunk
  refine Safe.bind ((ilock_safe inv _).mono fun s1 ⟨inv1, valid, _, pos, fresh⟩ => ?_)
  refine Safe.bind ((writeiSlot_safe wf inv1 pos valid _ _ _).mono fun r written => ?_)
  obtain ⟨count, s2⟩ := r
  have moved : Inv sb nproc (if count > 0 then
      s2.setFile f { s2.ftable f with off := (s2.ftable f).off + count.toNat } else s2) L V := by
    split
    · exact written.setFile small (written.closed f) (fun _ => le_rfl) fun m mem => (written.locked m mem).1
    · exact written
  refine Safe.bind ((iunlock_safe moved _).mono fun s3 unlocked => safe_pure ?_)
  rwa [Finset.erase_eq_of_not_mem fresh] at unlocked

/-- The loop of `filewrite`. -/
theorem filewriteLoop_safe {f : Nat} (small : f < NFILE) (src : Nat → Option UInt8) (n : Nat) :
    ∀ (fuel i : Nat) {s : Sys} {L : Multiset Nat} {V : Finset Nat}, Inv sb nproc s L V →
      Safe (filewriteLoop sb f src n fuel i s) fun r => Inv sb nproc r.2 L V
  | 0, _, _, _, _, inv => safe_pure inv
  | fuel + 1, i, s, L, V, inv => by
    unfold filewriteLoop
    split
    · refine Safe.bind ((filewriteChunk_safe wf inv small _ _).mono fun r chunk => ?_)
      obtain ⟨written, s1⟩ := r
      dsimp only
      split
      · exact safe_pure chunk
      · split
        · simp
        · exact filewriteLoop_safe small src n fuel _ chunk
    · exact safe_pure inv

/-- `sys_write`: `filewrite` on the descriptor's file. -/
theorem sys_write_safe (inv : Inv sb nproc s 0 ∅) (fd : Int) (src : Nat → Option UInt8) (n : Int) :
    Safe (sys_write sb s fd src n) fun r => Inv sb nproc r.2 0 ∅ := by
  unfold sys_write
  split
  · exact safe_pure inv
  · rename_i fd' f found
    unfold filewrite
    dsimp only
    split
    · exact safe_pure inv
    · split
      · exact Safe.bind ((filewriteLoop_safe wf (argfd_lt inv found) src _ _ 0 inv).mono fun _ loop =>
          safe_pure loop)
      · exact safe_pure inv
      · exact safe_pure inv
      · simp

end Files

/-! ## Links -/

theorem ite_bind {α β : Type} {c : Prop} [Decidable c] (a b : Except Halt α) (f : α → Except Halt β) :
    (if c then a >>= f else b >>= f) = (if c then a else b) >>= f := by
  split <;> rfl

theorem Framed.lt {nproc : Nat} {s s' : Sys} (framed : Framed s s') (running : s.cur < nproc) : s'.cur < nproc :=
  framed.cur ▸ running

section Links

variable {sb : Superblock} {nproc : Nat} {s : Sys} {L : Multiset Nat} {V : Finset Nat} (wf : sb.WellFormed)
include wf

/-- `iunlockput` of the call's one locked local, then a return. -/
theorem iunlockput_return {β : Type} {ip : Nat} (inv : Inv sb nproc s (ip ::ₘ L) {ip}) (value : β) :
    Safe (iunlockput sb s ip >>= fun s => pure (value, s)) fun r => Inv sb nproc r.2 L ∅ :=
  Safe.bind ((iunlockput_safe wf inv (Multiset.mem_cons_self ip L)).mono fun _ put =>
    safe_pure (by simpa using put))

/-- The rollback of `sys_link` lowers the link count again and drops the reference. -/
theorem linkUndo_safe (inv : Inv sb nproc s L V) {ip : Nat} (mem : ip ∈ L) :
    Safe (linkUndo sb s ip) fun r => Inv sb nproc r.2 (L.erase ip) V := by
  unfold linkUndo
  refine Safe.bind ((ilock_locked inv mem).mono fun s1 ⟨inv1, fresh⟩ => ?_)
  refine Safe.bind ((iunlockput_safe wf (inv1.addNlink_update (Finset.mem_insert_self ip V) (-1)) mem).mono
    fun s2 put => ?_)
  rw [Finset.erase_insert fresh] at put
  exact safe_pure put

/-- `sys_link`. -/
theorem sys_link_safe (inv : Inv sb nproc s 0 ∅) (running : s.cur < nproc) (old new : List UInt8) :
    Safe (sys_link sb s old new) fun r => Inv sb nproc r.2 0 ∅ := by
  unfold sys_link
  split
  · rename_i old new _ _
    refine Safe.bind_ok (namei_safe wf inv running old) fun r found inv1 => ?_
    obtain ⟨_ | ip, s1⟩ := r
    · exact safe_pure inv1
    refine Safe.bind_ok (ilock_locked inv1 (Multiset.mem_cons_self ip 0)) fun s2 locked ⟨inv2, _⟩ => ?_
    split
    · exact iunlockput_return wf inv2 (-1)
    refine Safe.bind_ok (iunlock_safe (inv2.addNlink_update (Finset.mem_insert_self ip ∅) 1) ip)
      fun s3 unlocked inv3 => ?_
    rw [Finset.erase_insert (Finset.not_mem_empty ip)] at inv3
    have running3 : s3.cur < nproc :=
      (iunlock_frame unlocked).lt (((namei_frame found).trans (ilock_frame locked)).lt running)
    -- The branches that give up after the parent is locked.
    have undo : ∀ {s' : Sys} {dp : Nat}, Inv sb nproc s' (dp ::ₘ ip ::ₘ 0) {dp} →
        Safe (iunlockput sb s' dp >>= fun s => linkUndo sb s ip) fun r => Inv sb nproc r.2 0 ∅ :=
      fun inv' => Safe.bind ((iunlockput_safe wf inv' (Multiset.mem_cons_self _ _)).mono fun _ put => by
        rw [Multiset.erase_cons_head, Finset.erase_singleton] at put
        exact (linkUndo_safe wf put (Multiset.mem_cons_self ip 0)).mono fun _ undone => by simpa using undone)
    refine Safe.bind ((nameiparent_safe wf inv3 running3 new).mono fun r parent => ?_)
    obtain ⟨_ | ⟨dp, name⟩, s4⟩ := r
    · exact (linkUndo_safe wf parent (Multiset.mem_cons_self ip 0)).mono fun _ undone => by simpa using undone
    refine Safe.bind ((ilock_locked parent (Multiset.mem_cons_self dp _)).mono fun s5 ⟨inv5, _⟩ => ?_)
    split
    · exact undo inv5
    refine Safe.bind ((dirlink_safe wf inv5 (Finset.mem_insert_self dp ∅) _ _).mono fun r linked => ?_)
    obtain ⟨result, s6⟩ := r
    dsimp only
    split
    · exact undo linked
    · refine Safe.bind ((iunlockput_safe wf linked (Multiset.mem_cons_self _ _)).mono fun s7 put => ?_)
      rw [Multiset.erase_cons_head, Finset.erase_insert (Finset.not_mem_empty dp)] at put
      exact Safe.bind ((iput_safe wf put (Multiset.mem_cons_self ip 0) fun mem =>
        absurd mem (Finset.not_mem_empty ip)).mono fun _ dropped => safe_pure (by simpa using dropped))
  · exact safe_pure inv

omit wf in
/-- The loop of `isdirempty` over a locked directory only reads. -/
theorem isdiremptyLoop_keeps (inv : Inv sb nproc s L V) {dp : Nat} (locked : dp ∈ V) :
    ∀ fuel off, Safe (isdiremptyLoop sb dp fuel off s) fun r => r.2 = s
  | 0, _ => safe_pure rfl
  | fuel + 1, off => by
    unfold isdiremptyLoop
    dsimp only
    split
    · obtain ⟨r, read⟩ := readiSlot_keeps inv (inv.ref_pos (inv.locked dp locked).1) (inv.locked dp locked).2.1
        kernelDst (UInt32.ofNat off) (UInt32.ofNat DIRENT_SIZE)
      rw [read, ok_bind]
      split
      · simp
      · simp only [pure_bind]
        split
        · exact safe_pure rfl
        · exact isdiremptyLoop_keeps inv locked fuel _
    · exact safe_pure rfl

/-- The part of `sys_unlink` after both the directory `dp` and the entry's inode `ip`
are locked. -/
theorem unlinkEntry_safe {dp ip : Nat} {W : Finset Nat} (inv : Inv sb nproc s (ip ::ₘ dp ::ₘ L) W)
    (ipLocked : ip ∈ W) (dpLocked : dp ∈ W) (distinct : ip ≠ dp) (off : Nat) :
    Safe (unlinkEntry sb s dp ip off) fun r => Inv sb nproc r.2 L ((W.erase dp).erase ip) := by
  have dpLocal : dp ∈ ip ::ₘ dp ::ₘ L := Multiset.mem_cons_of_mem (Multiset.mem_cons_self dp L)
  have kept : Safe (if (s.icache ip).din.type = T_DIR then isdirempty sb s ip else pure (true, s))
      fun r => r.2 = s := by
    split
    · exact isdiremptyLoop_keeps inv ipLocked _ _
    · exact safe_pure rfl
  unfold unlinkEntry
  dsimp only
  by_cases linked : (s.icache ip).din.nlink < 1
  · rw [if_pos linked]
    simp
  rw [if_neg linked, pure_bind, ite_bind]
  refine Safe.bind (kept.mono fun r same => ?_)
  obtain ⟨empty, s1⟩ := r
  cases same
  split
  · refine Safe.bind ((iunlockput_safe wf inv (Multiset.mem_cons_self ip _)).mono fun s2 put => ?_)
    rw [Multiset.erase_cons_head] at put
    refine Safe.bind ((iunlockput_safe wf put (Multiset.mem_cons_self dp L)).mono fun _ put' => ?_)
    rw [Multiset.erase_cons_head, Finset.erase_right_comm] at put'
    exact safe_pure put'
  have dpPos := inv.ref_pos dpLocal
  refine Safe.bind ((writeiSlot_safe wf inv dpPos (inv.locked dp dpLocked).2.1 _ _ _).mono fun r written => ?_)
  obtain ⟨count, s2⟩ := r
  dsimp only
  split
  · simp
  simp only [pure_bind]
  have lowered : Inv sb nproc (if (s2.icache ip).din.type = T_DIR then iupdateSlot (addNlink s2 dp (-1)) dp
      else s2) (ip ::ₘ dp ::ₘ L) W := by
    split
    · exact written.addNlink_update dpLocked _
    · exact written
  refine Safe.bind ((iunlockput_safe wf lowered dpLocal).mono fun s3 put => ?_)
  rw [cons_cons_erase] at put
  refine Safe.bind ((iunlockput_safe wf (put.addNlink_update (Finset.mem_erase.2 ⟨distinct, ipLocked⟩) (-1))
    (Multiset.mem_cons_self ip L)).mono fun _ put' => ?_)
  rw [Multiset.erase_cons_head] at put'
  exact safe_pure put'

/-- `sys_unlink`. -/
theorem sys_unlink_safe (inv : Inv sb nproc s 0 ∅) (running : s.cur < nproc) (path : List UInt8) :
    Safe (sys_unlink sb s path) fun r => Inv sb nproc r.2 0 ∅ := by
  unfold sys_unlink
  split
  · exact safe_pure inv
  rename_i path _
  refine Safe.bind ((nameiparent_safe wf inv running path).mono fun r parent => ?_)
  obtain ⟨_ | ⟨dp, name⟩, s1⟩ := r
  · exact safe_pure parent
  refine Safe.bind ((ilock_locked parent (Multiset.mem_cons_self dp 0)).mono fun s2 ⟨inv2, _⟩ => ?_)
  dsimp only
  split
  · exact iunlockput_return wf inv2 (-1)
  refine Safe.bind ((dirlookup_safe inv2 (Finset.mem_insert_self dp ∅) name).mono fun r found => ?_)
  obtain ⟨_ | ⟨ip, off⟩, s3⟩ := r
  · exact iunlockput_return wf found (-1)
  refine Safe.bind ((ilock_locked found (Multiset.mem_cons_self ip _)).mono fun s4 ⟨inv4, fresh⟩ => ?_)
  have distinct : ip ≠ dp := fun same => fresh (same ▸ Finset.mem_insert_self dp ∅)
  refine (unlinkEntry_safe wf inv4 (Finset.mem_insert_self ip _)
    (Finset.mem_insert_of_mem (Finset.mem_insert_self dp ∅)) distinct off).mono fun _ done => ?_
  rwa [Finset.erase_insert_of_ne distinct, Finset.erase_insert (Finset.not_mem_empty dp),
    Finset.erase_insert (Finset.not_mem_empty ip)] at done

end Links

/-! ## Making and opening files -/

/-- What `create`, `openLookup` and `symfollow` return into: the slot of the inode they
found, locked and held by one more local, or nothing more. -/
def LockedResult (sb : Superblock) (nproc : Nat) (L : Multiset Nat) (r : Option Nat × Sys) : Prop :=
  match r.1 with
  | some ip => Inv sb nproc r.2 (ip ::ₘ L) {ip}
  | none => Inv sb nproc r.2 L ∅

section Create

variable {sb : Superblock} {nproc : Nat} {s : Sys} {L : Multiset Nat} (wf : sb.WellFormed)
include wf

/-- The part of `create` that makes a new inode for the entry, in the locked directory
`dp`. -/
theorem createNew_safe {dp : Nat} (inv : Inv sb nproc s (dp ::ₘ L) {dp}) (name : List UInt8)
    {type : Int} (used : type ≠ 0) (major minor : Int) :
    Safe (createNew sb s dp name type major minor) (LockedResult sb nproc L) := by
  unfold createNew
  refine Safe.bind ((ialloc_safe inv (inv.dev dp (inv.ref_pos (Multiset.mem_cons_self dp L))) used).mono
    fun r allocated => ?_)
  obtain ⟨ip, s1⟩ := r
  refine Safe.bind ((ilock_locked allocated (Multiset.mem_cons_self ip _)).mono fun s2 ⟨inv2, fresh⟩ => ?_)
  have ipLocked : ip ∈ insert ip {dp} := Finset.mem_insert_self ip _
  have dpLocked : dp ∈ insert ip {dp} := Finset.mem_insert_of_mem (Finset.mem_singleton_self dp)
  have distinct : ip ≠ dp := fun same => fresh (same ▸ Finset.mem_singleton_self dp)
  lift_lets
  intro slot din s3 finish s3'
  have inv3 : Inv sb nproc s3 (ip ::ₘ dp ::ₘ L) (insert ip {dp}) :=
    inv2.update (inv2.ref_pos (inv2.locked ip ipLocked).1) (inv2.locked ip ipLocked).2.1 rfl rfl rfl
  -- The entry in `dp`, after the directory's own entries if it is one.
  have link : ∀ s4, Inv sb nproc s4 (ip ::ₘ dp ::ₘ L) (insert ip {dp}) →
      Safe (finish s4) (LockedResult sb nproc L) := fun s4 inv4 => by
    refine Safe.bind ((dirlink_safe wf inv4 dpLocked _ _).mono fun r linked => ?_)
    obtain ⟨linkResult, s5⟩ := r
    dsimp only
    split
    · simp
    rw [pure_bind]
    refine Safe.bind ((iunlockput_safe wf linked (Multiset.mem_cons_of_mem (Multiset.mem_cons_self dp L))).mono
      fun s6 put => safe_pure ?_)
    rwa [cons_cons_erase, Finset.erase_insert_of_ne distinct, Finset.erase_singleton] at put
  split
  · refine Safe.bind ((dirlink_safe wf (inv3.addNlink_update dpLocked 1) ipLocked _ _).mono fun r dot => ?_)
    obtain ⟨dotResult, s4⟩ := r
    dsimp only
    split
    · simp
    rw [pure_bind]
    refine Safe.bind ((dirlink_safe wf dot ipLocked _ _).mono fun r dotdot => ?_)
    obtain ⟨dotdotResult, s5⟩ := r
    dsimp only
    split
    · simp
    · exact link s5 dotdot
  · exact link s3 inv3

/-- `create`: the locked inode of the entry it made, or of the file it found. -/
theorem create_safe (inv : Inv sb nproc s L ∅) (running : s.cur < nproc) (path : List UInt8)
    {type : Int} (used : type ≠ 0) (major minor : Int) :
    Safe (create sb s path type major minor) (LockedResult sb nproc L) := by
  unfold create
  refine Safe.bind ((nameiparent_safe wf inv running path).mono fun r parent => ?_)
  obtain ⟨_ | ⟨dp, name⟩, s1⟩ := r
  · exact safe_pure parent
  refine Safe.bind ((ilock_locked parent (Multiset.mem_cons_self dp L)).mono fun s2 ⟨inv2, _⟩ => ?_)
  refine Safe.bind ((dirlookup_safe inv2 (Finset.mem_insert_self dp ∅) name).mono fun r found => ?_)
  obtain ⟨_ | ⟨ip, off⟩, s3⟩ := r
  · exact createNew_safe wf found name used major minor
  refine Safe.bind ((iunlockput_safe wf found (Multiset.mem_cons_of_mem (Multiset.mem_cons_self dp L))).mono
    fun s4 put => ?_)
  rw [cons_cons_erase, Finset.erase_insert (Finset.not_mem_empty dp)] at put
  refine Safe.bind ((ilock_locked put (Multiset.mem_cons_self ip L)).mono fun s5 ⟨inv5, _⟩ => ?_)
  dsimp only
  split
  · exact safe_pure inv5
  · exact Safe.bind ((iunlockput_safe wf inv5 (Multiset.mem_cons_self ip L)).mono fun _ put' =>
      safe_pure (by simpa using put'))

/-- The loop of `symfollow` from a locked link `ip`.  The reference to each link it
passes is not dropped: the result forgets it. -/
theorem symfollowLoop_safe :
    ∀ (fuel ip symlinks : Nat) {s : Sys} {L : Multiset Nat}, Inv sb nproc s (ip ::ₘ L) {ip} → s.cur < nproc →
      Safe (symfollowLoop sb fuel ip symlinks s) (LockedResult sb nproc L)
  | 0, ip, _, _, L, inv, _ => safe_pure (inv.weaken (Multiset.le_cons_self L ip))
  | fuel + 1, ip, symlinks, s, L, inv, running => by
    unfold symfollowLoop
    refine Safe.bind_ok (namei_safe wf inv running _) fun r found inv1 => ?_
    obtain ⟨_ | t, s1⟩ := r
    · exact Safe.bind ((iunlock_safe inv1 ip).mono fun _ unlocked =>
        safe_pure (unlocked.weaken (Multiset.le_cons_self L ip)))
    refine Safe.bind_ok (iunlock_safe inv1 ip) fun s2 unlocked inv2 => ?_
    rw [Finset.erase_singleton] at inv2
    refine Safe.bind_ok (ilock_locked inv2 (Multiset.mem_cons_self t _)) fun s3 locked ⟨inv3, _⟩ => ?_
    have running3 : s3.cur < nproc :=
      (ilock_frame locked).lt ((iunlock_frame unlocked).lt ((namei_frame found).lt running))
    have inv3' : Inv sb nproc s3 (t ::ₘ L) {t} :=
      inv3.forget (Multiset.cons_le_cons t (Multiset.le_cons_self L ip)) fun k mem => by
        simp only [Finset.mem_insert, Finset.not_mem_empty, or_false] at mem
        exact mem ▸ Multiset.mem_cons_self t L
    dsimp only
    split
    · exact safe_pure inv3'
    · split
      · exact safe_pure (inv3'.weaken (Multiset.le_cons_self L t))
      · exact symfollowLoop_safe fuel t _ inv3' running3

/-- The lookup of `sys_open` without `O_CREATE`. -/
theorem openLookup_safe (inv : Inv sb nproc s L ∅) (running : s.cur < nproc) (path : List UInt8)
    (omode : BitVec 32) : Safe (openLookup sb s path omode) (LockedResult sb nproc L) := by
  unfold openLookup
  refine Safe.bind_ok (namei_safe wf inv running path) fun r found inv1 => ?_
  obtain ⟨_ | ip, s1⟩ := r
  · exact safe_pure inv1
  refine Safe.bind_ok (ilock_locked inv1 (Multiset.mem_cons_self ip L)) fun s2 locked ⟨inv2, _⟩ => ?_
  dsimp only
  split
  · exact Safe.bind ((iunlockput_safe wf inv2 (Multiset.mem_cons_self ip L)).mono fun _ put =>
      safe_pure (by simpa using put))
  · split
    · exact symfollowLoop_safe wf 10 ip 1 inv2 ((ilock_frame locked).lt ((namei_frame found).lt running))
    · exact safe_pure inv2

end Create

/-! ## Binding an open file -/

theorem fileallocScan_some {ftable : Nat → File} :
    ∀ {remaining f0 f : Nat}, fileallocScan ftable remaining f0 = some f → f < f0 + remaining ∧ (ftable f).ref = 0
  | 0, _, _, found => by cases found
  | remaining + 1, f0, f, found => by
    unfold fileallocScan at found
    split at found
    · cases found
      exact ⟨by omega, ‹_›⟩
    · have := fileallocScan_some found
      exact ⟨by omega, this.2⟩

/-- `filealloc` finds nothing, or an unused entry `f < NFILE` that it marks used. -/
theorem filealloc_cases (s : Sys) :
    filealloc s = (none, s) ∨
      ∃ f, f < NFILE ∧ (s.ftable f).ref = 0 ∧ filealloc s = (some f, s.setFile f { s.ftable f with ref := 1 }) := by
  unfold filealloc
  split
  · rename_i f found
    exact .inr ⟨f, by simpa using (fileallocScan_some found).1, (fileallocScan_some found).2, rfl⟩
  · exact .inl rfl

/-- `fdalloc` finds nothing, or a descriptor of the current process that it binds. -/
theorem fdalloc_cases (s : Sys) (f : Nat) :
    fdalloc s f = (none, s) ∨ ∃ fd, fdalloc s f =
      (some fd, s.setProc { s.procs s.cur with ofile := setAt (s.procs s.cur).ofile fd (some f) }) := by
  unfold fdalloc
  dsimp only
  split
  · exact .inr ⟨_, rfl⟩
  · exact .inl rfl

/-- `iunlock` looks at the cache only. -/
theorem iunlock_setFile (s : Sys) (f : Nat) (file : File) (k : Nat) :
    iunlock (s.setFile f file) k = (fun s' => s'.setFile f file) <$> iunlock s k := by
  have holding : holdingsleep (s.setFile f file) k = holdingsleep s k := rfl
  have icache : (s.setFile f file).icache = s.icache := rfl
  unfold iunlock
  rw [holding, icache]
  by_cases refused : (!holdingsleep s k) = true ∨ (s.icache k).ref < 1
  · simp only [refused, if_true]
    rfl
  · simp only [refused, if_false]
    rfl

theorem Safe.map {α β : Type} {post : β → Prop} {run : Except Halt α} {g : α → β}
    (safe : Safe run fun a => post (g a)) : Safe (g <$> run) post := by
  cases run <;> exact safe

section Open

variable {sb : Superblock} {nproc : Nat} {s : Sys} {L : Multiset Nat} (wf : sb.WellFormed)
include wf

/-- The part of `sys_open` after the inode is found and locked: a new file and
descriptor take over the local reference. -/
theorem openFile_safe {ip : Nat} (inv : Inv sb nproc s (ip ::ₘ L) {ip}) (omode : BitVec 32) :
    Safe (openFile sb s ip omode) fun r => Inv sb nproc r.2 L ∅ := by
  unfold openFile
  dsimp only
  split
  · exact iunlockput_return wf inv (-1)
  rcases filealloc_cases s with alloc | ⟨f, small, free, alloc⟩ <;> rw [alloc]
  · exact iunlockput_return wf inv (-1)
  have unused : (s.ftable f).type = .none := inv.closed f (by omega)
  have inv1 : Inv sb nproc (s.setFile f { s.ftable f with ref := 1 }) (ip ::ₘ L) {ip} :=
    inv.setFile small (fun used => absurd used (by simp only; omega)) (fun k => by simp [File.holds, unused])
      fun m mem => (inv.locked m mem).1
  dsimp only
  rcases fdalloc_cases (s.setFile f { s.ftable f with ref := 1 }) f with fds | ⟨fd, fds⟩ <;> rw [fds]
  · refine Safe.bind ((fileclose_safe wf inv1 small fun k holds => ?_).mono fun _ closed =>
      iunlockput_return wf closed (-1))
    simp [Sys.setFile, File.holds, unused] at holds
  have inv2 : Inv sb nproc ((s.setFile f { s.ftable f with ref := 1 }).setProc
      { (s.procs s.cur) with ofile := setAt (s.procs s.cur).ofile fd (some f) }) (ip ::ₘ L) {ip} :=
    inv1.setProc_of_cwd rfl fun fd' g opened => by
      by_cases eq : fd' = fd
      · subst eq
        simp only [setAt_same, Option.some.injEq] at opened
        exact opened ▸ small
      · simp only [setAt_ne _ _ _ eq] at opened
        exact inv1.fds _ _ _ opened
  dsimp only
  rw [iunlock_setFile]
  refine Safe.bind (Safe.map ((iunlock_safe inv2 ip).mono fun s3 unlocked => safe_pure ?_))
  rw [Finset.erase_singleton] at unlocked
  refine unlocked.setFile small (fun used => absurd used (by split <;> simp [Sys.setFile, Sys.setProc]))
    (fun k => ?_)
    fun m mem => absurd mem (Finset.not_mem_empty m)
  by_cases eq : k = ip
  · subst eq
    rw [Multiset.count_cons_self]
    split <;> split <;> omega
  · simp [File.holds, Ne.symm eq, Multiset.count_cons_of_ne eq]

/-- `sys_open`, with or without `O_CREATE`. -/
theorem sys_open_safe (inv : Inv sb nproc s 0 ∅) (running : s.cur < nproc) (path : List UInt8)
    (omode : BitVec 32) : Safe (sys_open sb s path omode) fun r => Inv sb nproc r.2 0 ∅ := by
  unfold sys_open
  split
  · exact safe_pure inv
  rename_i path _
  have found : Safe (if omode &&& O_CREATE ≠ 0 then create sb s path T_FILE 0 0 else openLookup sb s path omode)
      (LockedResult sb nproc 0) := by
    split
    · exact create_safe wf inv running path (by decide) 0 0
    · exact openLookup_safe wf inv running path omode
  dsimp only
  rw [ite_bind]
  refine Safe.bind (found.mono fun r opened => ?_)
  obtain ⟨_ | ip, s1⟩ := r
  · exact safe_pure opened
  · exact openFile_safe wf opened omode

/-- The end of `sys_mkdir`, `sys_mknod` and `sys_symlink`: the new inode is unlocked
and its reference dropped. -/
theorem created_safe (r : Option Nat × Sys) (made : LockedResult sb nproc 0 r) :
    Safe (match r with
      | (none, s) => pure (-1, s)
      | (some ip, s) => do
        let s ← iunlockput sb s ip
        pure (0, s)) fun r => Inv sb nproc r.2 0 ∅ := by
  obtain ⟨_ | ip, s1⟩ := r
  · exact safe_pure made
  · exact iunlockput_return wf made 0

/-- `sys_mkdir`. -/
theorem sys_mkdir_safe (inv : Inv sb nproc s 0 ∅) (running : s.cur < nproc) (path : List UInt8) :
    Safe (sys_mkdir sb s path) fun r => Inv sb nproc r.2 0 ∅ := by
  unfold sys_mkdir
  split
  · exact safe_pure inv
  · exact Safe.bind ((create_safe wf inv running _ (by decide) 0 0).mono (created_safe wf))

/-- `sys_mknod`. -/
theorem sys_mknod_safe (inv : Inv sb nproc s 0 ∅) (running : s.cur < nproc) (path : List UInt8)
    (major minor : Int) : Safe (sys_mknod sb s path major minor) fun r => Inv sb nproc r.2 0 ∅ := by
  unfold sys_mknod
  split
  · exact safe_pure inv
  · exact Safe.bind ((create_safe wf inv running _ (by decide) _ _).mono (created_safe wf))

/-- `sys_symlink`: the target goes into the new inode's slot. -/
theorem sys_symlink_safe (inv : Inv sb nproc s 0 ∅) (running : s.cur < nproc) (target path : List UInt8) :
    Safe (sys_symlink sb s target path) fun r => Inv sb nproc r.2 0 ∅ := by
  unfold sys_symlink
  split
  · refine Safe.bind ((create_safe wf inv running _ (by decide) 0 0).mono fun r made => ?_)
    obtain ⟨_ | ip, s1⟩ := r
    · exact safe_pure made
    · exact iunlockput_return wf (made.setTarget ip _) 0
  · exact safe_pure inv

end Open

/-! ## Changing directory -/

section Chdir

variable {sb : Superblock} {nproc : Nat} {s : Sys} {L : Multiset Nat}

theorem acquiresleep_setProc (s : Sys) (proc : Proc) (k : Nat) :
    acquiresleep (s.setProc proc) k = (fun s' => s'.setProc proc) <$> acquiresleep s k := by
  have icache : (s.setProc proc).icache = s.icache := rfl
  have cur : (s.setProc proc).cur = s.cur := rfl
  unfold acquiresleep
  rw [icache, cur]
  cases (s.icache k).holder <;> rfl

theorem ifree_setProc (s : Sys) (proc : Proc) (k : Nat) :
    ifree sb (s.setProc proc) k = (fun s' => s'.setProc proc) <$> ifree sb s k := by
  unfold ifree
  rw [acquiresleep_setProc]
  cases acquiresleep s k with
  | error => rfl
  | ok s1 =>
    have disk : (s1.setProc proc).disk = s1.disk := rfl
    have icache : (s1.setProc proc).icache = s1.icache := rfl
    simp only [Functor.map, Except.map, ok_bind, disk, icache]
    cases itrunc sb s1.disk (s1.icache k).inum (s1.icache k).din <;> rfl

/-- `iput` does not look at the processes. -/
theorem iput_setProc (s : Sys) (proc : Proc) (k : Nat) :
    iput sb (s.setProc proc) k = (fun s' => s'.setProc proc) <$> iput sb s k := by
  have icache : (s.setProc proc).icache = s.icache := rfl
  unfold iput
  dsimp only
  rw [icache]
  by_cases last : (s.icache k).ref = 1 ∧ (s.icache k).valid = true ∧ (s.icache k).din.nlink = 0
  · rw [if_pos last, if_pos last, ifree_setProc]
    cases ifree sb s k <;> rfl
  · rw [if_neg last, if_neg last]
    rfl

variable (wf : sb.WellFormed)
include wf

/-- The end of `sys_chdir`: the old current directory's reference is dropped, and the
local reference to the new one becomes the process's. -/
theorem iput_cwd_safe {ip : Nat} (inv : Inv sb nproc s (ip ::ₘ L) ∅) (running : s.cur < nproc) :
    Safe (iput sb s (s.procs s.cur).cwd >>= fun s' => pure ((0 : Int), s'.setProc { s'.procs s'.cur with cwd := ip }))
      fun r => Inv sb nproc r.2 L ∅ := by
  have moved : Inv sb nproc (s.setProc { s.procs s.cur with cwd := ip }) ((s.procs s.cur).cwd ::ₘ L) ∅ :=
    inv.setProc running (fun fd f opened => inv.fds _ fd f opened) (fun k => by
      simp only [Multiset.count_cons]
      split_ifs <;> omega) fun _ mem => absurd mem (Finset.not_mem_empty _)
  have dropped := iput_safe wf moved (Multiset.mem_cons_self _ L) fun mem => absurd mem (Finset.not_mem_empty _)
  rw [iput_setProc, Multiset.erase_cons_head] at dropped
  cases put : iput sb s (s.procs s.cur).cwd with
  | error => rw [put] at dropped; exact dropped
  | ok s' =>
    rw [put] at dropped
    have framed := iput_frame put
    rw [ok_bind, framed.procs, framed.cur]
    exact dropped

/-- `sys_chdir`. -/
theorem sys_chdir_safe (inv : Inv sb nproc s 0 ∅) (running : s.cur < nproc) (path : List UInt8) :
    Safe (sys_chdir sb s path) fun r => Inv sb nproc r.2 0 ∅ := by
  unfold sys_chdir
  split
  · exact safe_pure inv
  rename_i path _
  refine Safe.bind_ok (namei_safe wf inv running path) fun r found inv1 => ?_
  obtain ⟨_ | ip, s1⟩ := r
  · exact safe_pure inv1
  refine Safe.bind_ok (ilock_locked inv1 (Multiset.mem_cons_self ip 0)) fun s2 locked ⟨inv2, _⟩ => ?_
  split
  · exact iunlockput_return wf inv2 (-1)
  refine Safe.bind_ok (iunlock_safe inv2 ip) fun s3 unlocked inv3 => ?_
  rw [Finset.erase_insert (Finset.not_mem_empty ip)] at inv3
  exact iput_cwd_safe wf inv3 ((iunlock_frame unlocked).lt ((ilock_frame locked).lt ((namei_frame found).lt running)))

end Chdir

/-! ## Every reachable state -/

section Runs

variable {sb : Superblock} {nproc : Nat} (wf : sb.WellFormed)
include wf

/-- A system call of a running process from a state that satisfies the invariant. -/
theorem Syscall.run_safe {s : Sys} (inv : Inv sb nproc s 0 ∅) (running : s.cur < nproc) :
    ∀ call : Syscall, Safe (call.run sb s) fun r => Inv sb nproc r.2 0 ∅
  | .link old new => sys_link_safe wf inv running old new
  | .unlink path => sys_unlink_safe wf inv running path
  | .openFile path omode => sys_open_safe wf inv running path omode
  | .mkdir path => sys_mkdir_safe wf inv running path
  | .mknod path major minor => sys_mknod_safe wf inv running path major minor
  | .symlink target path => sys_symlink_safe wf inv running target path
  | .chdir path => sys_chdir_safe wf inv running path
  | .write fd src n => sys_write_safe wf inv fd src n
  | .close fd => sys_close_safe wf inv fd

theorem Step.inv {s s' : Sys} (step : Step sb nproc s s') (inv : Inv sb nproc s 0 ∅) : Inv sb nproc s' 0 ∅ := by
  obtain ⟨pid, call, running, run⟩ := step
  have safe := Syscall.run_safe wf (inv.withCur pid) running call
  rw [run] at safe
  exact safe

/-- Every state a run of system calls reaches from the file system `mkfs` writes
satisfies the invariant. -/
theorem Reachable.inv {s : Sys} (reach : Reachable sb nproc (boot sb nproc) s) : Inv sb nproc s 0 ∅ := by
  induction reach with
  | init => exact boot_inv wf nproc
  | step _ step ih => exact step.inv wf ih

/-- Between the calls of every run from the file system `mkfs` writes, the bitmap marks
exactly the metadata blocks and the blocks kept once among the pointers of the
allocated inodes.  So `balloc` hands out no block an inode keeps, and no call halts with
`freeing free block`. -/
theorem reachable_bitmap_exact {s : Sys} (reach : Reachable sb nproc (boot sb nproc) s) :
    (∀ b < sb.size, s.disk.bit sb b = true ↔ b < sb.dataStart ∨ (allPtrs sb s.disk).count b = 1) ∧
      (∀ disk' addr, balloc sb s.disk = .ok (disk', addr) → sb.dataStart ≤ addr ∧ addr ∉ allPtrs sb s.disk) ∧
      ∀ pid < nproc, ∀ (call : Syscall) (halt : Halt), call.run sb { s with cur := pid } = .error halt →
        halt ≠ .fatal "freeing free block" := by
  have inv := reach.inv wf
  have acc := inv.accounted
  refine ⟨fun b lt => ?_, fun disk' addr alloc => ?_, fun pid running call halt run => ?_⟩
  · have once : b ∈ allPtrs sb s.disk ↔ (allPtrs sb s.disk).count b = 1 :=
      ⟨Multiset.count_eq_one_of_mem acc.nodup, fun one => Multiset.count_pos.1 (by rw [one]; exact Nat.one_pos)⟩
    rw [acc.bit_iff b lt, once]
  · have acc0 : Accounted sb (s.disk.setDinode 0 (s.disk.dinode 0)) := by
      rw [Disk.setDinode_self]
      exact acc
    obtain ⟨-, -, fresh, data, -⟩ := balloc_fresh wf acc0 alloc
    rw [Disk.setDinode_self] at fresh
    exact ⟨data, fresh⟩
  · have safe := Syscall.run_safe wf (inv.withCur pid) running call
    rw [run] at safe
    exact safe

end Runs

/-- The calls of process `0` of `fs1000` that take a block, give it back and take it
again: create `/a` and write three bytes to it, close and unlink it, then create `/b`
and write two bytes to it, which takes the freed inode and block once more. -/
def reuseCalls : List (Nat × Syscall) :=
  [(0, .openFile [47, 97] (O_CREATE ||| O_RDWR)), (0, .write 0 (kernelSrc [1, 2, 3]) 3), (0, .close 0),
    (0, .unlink [47, 97]), (0, .openFile [47, 98] (O_CREATE ||| O_RDWR)), (0, .write 0 (kernelSrc [4, 5]) 2)]

/-- The state the calls of `reuseCalls` reach from boot. -/
def blockReused : Sys :=
  finalState (boot fs1000 1) (runCalls fs1000 reuseCalls (boot fs1000 1))

set_option maxRecDepth 100000 in
/-- `blockReused` is reachable, and `/b` holds inode `2` there. -/
theorem blockReused_reachable_used :
    Reachable fs1000 1 (boot fs1000 1) blockReused ∧ (blockReused.disk.dinode 2).type ≠ 0 :=
  have ran := @eq_ok_of_ranWith_and [0, 3, 0, 0, 0, 2] (runCalls fs1000 reuseCalls (boot fs1000 1)) (boot fs1000 1)
    (fun s => (s.disk.dinode 2).type ≠ 0) _ (by decide)
  ⟨@reachable_of_runCalls fs1000 1 (boot fs1000 1) reuseCalls (boot fs1000 1) blockReused [0, 3, 0, 0, 0, 2]
    .init (by decide) ran.1, ran.2⟩

/-- The file system `mkfs` writes for `fs1000`, after a block is taken, given back and
taken again. -/
theorem reachable_bitmap_exact_reused :
    fs1000.WellFormed ∧ Reachable fs1000 1 (boot fs1000 1) blockReused ∧
      (∀ b < fs1000.size, blockReused.disk.bit fs1000 b = true ↔
        b < fs1000.dataStart ∨ (allPtrs fs1000 blockReused.disk).count b = 1) ∧
      (∀ disk' addr, balloc fs1000 blockReused.disk = .ok (disk', addr) →
        fs1000.dataStart ≤ addr ∧ addr ∉ allPtrs fs1000 blockReused.disk) ∧
      ∀ pid < 1, ∀ (call : Syscall) (halt : Halt), call.run fs1000 { blockReused with cur := pid } = .error halt →
        halt ≠ .fatal "freeing free block" :=
  ⟨fs1000_wellFormed, blockReused_reachable_used.1,
    reachable_bitmap_exact fs1000_wellFormed blockReused_reachable_used.1⟩

end Xv6Fs
