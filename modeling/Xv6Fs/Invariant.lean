import Xv6Fs.Boot
import Xv6Fs.Truncate

/-!
# The invariant of a running file system

What holds between system calls, and inside a call while it runs, for the bitmap to
stay in step with the block maps.  Beside the disk (the accounting of `Pointers`,
block maps that cover their content, free inodes that are empty), the inode cache
must agree with it: a valid slot with references holds its disk inode, no two
referenced slots cache one inode, and a slot keeps at least one reference for each
open file, current directory and local variable that uses it.  Otherwise `idup` of a
current directory could revive a slot that `iget` has handed to another inode.

Inside a call, `L` is the multiset of slots the call holds references to in its local
variables and `V` the slots it has locked and found valid.  `Safe run post` says that
a computation returns only into `post` and never halts with `freeing free block`;
every other halt is a panic or a sleep that the design accepts.
-/

namespace Xv6Fs

/-! ## Computations that never free a free block -/

/-- A computation that returns only into `post` and never halts with
`freeing free block`. -/
def Safe {α : Type} (run : Except Halt α) (post : α → Prop) : Prop :=
  match run with
  | .ok a => post a
  | .error halt => halt ≠ .fatal "freeing free block"

section Safe

variable {α β : Type} {post : β → Prop}

theorem safe_pure {b : β} (holds : post b) : Safe (pure b) post :=
  holds

theorem safe_throw {halt : Halt} (other : halt ≠ .fatal "freeing free block") :
    Safe (throw halt : Except Halt β) post :=
  other

@[simp] theorem safe_ok_iff {b : β} : Safe (.ok b : Except Halt β) post ↔ post b :=
  Iff.rfl

@[simp] theorem safe_error_iff {halt : Halt} :
    Safe (.error halt : Except Halt β) post ↔ halt ≠ .fatal "freeing free block" :=
  Iff.rfl

@[simp] theorem safe_pure_iff {b : β} : Safe (pure b : Except Halt β) post ↔ post b :=
  Iff.rfl

@[simp] theorem safe_throw_iff {halt : Halt} :
    Safe (throw halt : Except Halt β) post ↔ halt ≠ .fatal "freeing free block" :=
  Iff.rfl

@[simp] theorem error_bind {halt : Halt} {f : α → Except Halt β} : (Except.error halt : Except Halt α) >>= f = .error halt :=
  rfl

@[simp] theorem map_throw {halt : Halt} {f : α → β} : f <$> (throw halt : Except Halt α) = throw halt :=
  rfl

@[simp] theorem throw_bind {halt : Halt} {f : α → Except Halt β} : (throw halt : Except Halt α) >>= f = throw halt :=
  rfl

theorem Safe.bind {run : Except Halt α} {f : α → Except Halt β} (first : Safe run fun a => Safe (f a) post) :
    Safe (run >>= f) post := by
  cases run <;> exact first

theorem Safe.mono {run : Except Halt β} {post' : β → Prop} (safe : Safe run post)
    (imp : ∀ b, post b → post' b) : Safe run post' := by
  cases run
  · exact safe
  · exact imp _ safe

end Safe

/-! ## The references that outlive a call -/

/-- Whether an open file holds a reference to cache slot `k`, as `heldRefs` counts it. -/
def File.holds (file : File) (k : Nat) : Bool :=
  file.ref > 0 ∧ (file.type = .inode ∨ file.type = .device) ∧ file.ip = k

theorem heldRefs_eq (s : Sys) (nproc k : Nat) :
    heldRefs s nproc k = ((List.range NFILE).filter fun f => (s.ftable f).holds k).length +
      ((List.range nproc).filter fun pid => (s.procs pid).cwd = k).length :=
  rfl

@[simp] theorem heldRefs_setSlot (s : Sys) (nproc ip : Nat) (slot : Slot) :
    heldRefs (s.setSlot ip slot) nproc = heldRefs s nproc :=
  rfl

@[simp] theorem heldRefs_withDisk (s : Sys) (nproc : Nat) (disk : Disk) :
    heldRefs { s with disk := disk } nproc = heldRefs s nproc :=
  rfl

/-- Counting the members of `[0, n)` that pass a test, before and after the test
changes at one point `a`. -/
theorem length_filter_range_update (n a : Nat) {p q : Nat → Bool} (agree : ∀ x, x ≠ a → p x = q x) :
    ((List.range n).filter p).length + (if a < n ∧ q a = true then 1 else 0) =
      ((List.range n).filter q).length + (if a < n ∧ p a = true then 1 else 0) := by
  induction n with
  | zero => simp
  | succ n ih =>
    simp only [List.range_succ, List.filter_append, List.length_append, List.filter_cons, List.filter_nil]
    by_cases same : n = a
    · subst same
      simp only [Nat.lt_irrefl, false_and, if_false, Nat.add_zero, Nat.lt_succ_self, true_and] at ih ⊢
      cases p n <;> cases q n <;> simp <;> omega
    · have lt : a < n + 1 ↔ a < n := ⟨fun lt => by omega, fun lt => by omega⟩
      rw [agree n same]
      simp only [lt]
      cases q n <;> simp <;> omega

/-- Replacing file table entry `f` trades the reference it held for the one the new
entry holds. -/
theorem heldRefs_setFile (s : Sys) (nproc : Nat) {f : Nat} (small : f < NFILE) (file : File) (k : Nat) :
    heldRefs (s.setFile f file) nproc k + (if (s.ftable f).holds k then 1 else 0) =
      heldRefs s nproc k + (if file.holds k then 1 else 0) := by
  have files := length_filter_range_update NFILE f (p := fun x => (setAt s.ftable f file x).holds k)
    (q := fun x => (s.ftable x).holds k) fun x other => by simp only [setAt_ne _ _ _ other]
  simp only [small, true_and, setAt_same] at files
  rw [heldRefs_eq, heldRefs_eq]
  simp only [Sys.setFile]
  omega

/-- Replacing the current process trades the reference its current directory held for
the new one's. -/
theorem heldRefs_setProc (s : Sys) {nproc : Nat} (running : s.cur < nproc) (proc : Proc) (k : Nat) :
    heldRefs (s.setProc proc) nproc k + (if (s.procs s.cur).cwd = k then 1 else 0) =
      heldRefs s nproc k + (if proc.cwd = k then 1 else 0) := by
  have cwds := length_filter_range_update nproc s.cur (p := fun x => (setAt s.procs s.cur proc x).cwd = k)
    (q := fun x => (s.procs x).cwd = k) fun x other => by simp only [setAt_ne _ _ _ other]
  simp only [running, true_and, setAt_same, decide_eq_true_eq] at cwds
  rw [heldRefs_eq, heldRefs_eq]
  simp only [Sys.setProc]
  omega

theorem heldRefs_setProc_of_cwd (s : Sys) (nproc : Nat) {proc : Proc} (same : proc.cwd = (s.procs s.cur).cwd) :
    heldRefs (s.setProc proc) nproc = heldRefs s nproc := by
  funext k
  rw [heldRefs_eq, heldRefs_eq]
  congr 2
  refine List.filter_congr fun pid _ => ?_
  by_cases running : pid = s.cur
  · subst running
    simp [Sys.setProc, same]
  · simp [Sys.setProc, setAt_ne _ _ _ running]

/-- The current directory of a running process holds a reference. -/
theorem heldRefs_cwd_pos (s : Sys) {nproc : Nat} (running : s.cur < nproc) :
    0 < heldRefs s nproc (s.procs s.cur).cwd := by
  rw [heldRefs_eq]
  exact Nat.add_pos_right _ (List.length_pos_of_mem (List.mem_filter.2 ⟨List.mem_range.2 running, by simp⟩))

/-- An open file bound to slot `k` holds a reference to it. -/
theorem heldRefs_file_pos (s : Sys) (nproc : Nat) {f k : Nat} (small : f < NFILE)
    (holds : (s.ftable f).holds k = true) : 0 < heldRefs s nproc k := by
  rw [heldRefs_eq]
  exact Nat.add_pos_left (List.length_pos_of_mem (List.mem_filter.2 ⟨List.mem_range.2 small, holds⟩)) _

/-! ## The invariant -/

/-- What holds between and within system calls.  `L` is the multiset of cache slots
the running call holds references to in local variables, `V` the slots it has locked
and found valid. -/
structure Inv (sb : Superblock) (nproc : Nat) (s : Sys) (L : Multiset Nat) (V : Finset Nat) : Prop where
  /-- The bitmap is in step with the block maps. -/
  accounted : Accounted sb s.disk
  /-- The map of an allocated inode covers its content. -/
  shaped : ∀ inum, (s.disk.dinode inum).type ≠ 0 → Shaped s.disk (s.disk.dinode inum)
  /-- A free inode is empty. -/
  freeEmpty : ∀ inum, (s.disk.dinode inum).type = 0 → (s.disk.dinode inum).size = 0
  /-- No inode past the inode blocks is ever allocated. -/
  beyond : ∀ inum, sb.ninodes ≤ inum → (s.disk.dinode inum).type = 0
  /-- A valid referenced slot holds its allocated disk inode. -/
  coherent : ∀ k, 0 < (s.icache k).ref → (s.icache k).valid = true →
    (s.icache k).din.type ≠ 0 ∧ s.disk.dinode (s.icache k).inum = (s.icache k).din
  /-- No two referenced slots cache the same inode. -/
  unique : ∀ j k, 0 < (s.icache j).ref → 0 < (s.icache k).ref → (s.icache j).inum = (s.icache k).inum → j = k
  /-- Every referenced slot is of the root device. -/
  dev : ∀ k, 0 < (s.icache k).ref → (s.icache k).dev = ROOTDEV
  /-- Only the `NINODE` slots of the cache are referenced. -/
  cached : ∀ k, NINODE ≤ k → (s.icache k).ref ≤ 0
  /-- A slot keeps a reference for each file, current directory and local that uses it. -/
  refs : ∀ k, ((heldRefs s nproc k + L.count k : Nat) : Int) ≤ (s.icache k).ref
  /-- An unused file table entry holds no inode. -/
  closed : ∀ f, (s.ftable f).ref ≤ 0 → (s.ftable f).type = .none
  /-- Descriptors name entries of the file table. -/
  fds : ∀ pid fd f, (s.procs pid).ofile fd = some f → f < NFILE
  /-- A slot the call has locked is one of its locals, valid, and held by it. -/
  locked : ∀ k ∈ V, k ∈ L ∧ (s.icache k).valid = true ∧ (s.icache k).holder = some s.cur

namespace Inv

variable {sb : Superblock} {nproc : Nat} {s : Sys} {L : Multiset Nat} {V : Finset Nat}

/-- A slot the call holds a reference to is referenced. -/
theorem ref_pos (inv : Inv sb nproc s L V) {k : Nat} (mem : k ∈ L) : 0 < (s.icache k).ref := by
  have := inv.refs k
  have := Multiset.count_pos.2 mem
  omega

/-- A valid referenced slot caches an inode of the inode blocks. -/
theorem inRange (inv : Inv sb nproc s L V) {k : Nat} (pos : 0 < (s.icache k).ref) (valid : (s.icache k).valid = true) :
    (s.icache k).inum < sb.ninodes := by
  obtain ⟨used, same⟩ := inv.coherent k pos valid
  by_contra beyond
  exact used (same ▸ inv.beyond _ (Nat.le_of_not_lt beyond))

/-- The locals may be forgotten, and the locks with them. -/
theorem weaken (inv : Inv sb nproc s L V) {L' : Multiset Nat} (le : L' ≤ L) : Inv sb nproc s L' ∅ :=
  { inv with
    refs := fun k => le_trans (by have := Multiset.count_le_of_le k le; omega) (inv.refs k)
    locked := fun _ mem => absurd mem (Finset.not_mem_empty _) }

/-- A lock may be forgotten. -/
theorem unlocked (inv : Inv sb nproc s L V) (k : Nat) : Inv sb nproc s L (V.erase k) :=
  { inv with locked := fun m mem => inv.locked m (Finset.mem_of_mem_erase mem) }

/-- A local the call has locked and found valid joins `V`. -/
theorem lock (inv : Inv sb nproc s L V) {k : Nat} (mem : k ∈ L) (valid : (s.icache k).valid = true)
    (holder : (s.icache k).holder = some s.cur) : Inv sb nproc s L (insert k V) :=
  { inv with
    locked := fun m mem' => by
      rcases Finset.mem_insert.1 mem' with rfl | mem'
      · exact ⟨mem, valid, holder⟩
      · exact inv.locked m mem' }

/-- One more local reference, where the slot's count allows it. -/
theorem push (inv : Inv sb nproc s L V) (k : Nat)
    (raised : ((heldRefs s nproc k + (k ::ₘ L).count k : Nat) : Int) ≤ (s.icache k).ref) :
    Inv sb nproc s (k ::ₘ L) V :=
  { inv with
    refs := fun m => by
      by_cases eq : m = k
      · subst eq; exact raised
      · rw [Multiset.count_cons_of_ne eq]; exact inv.refs m
    locked := fun m mem => ⟨Multiset.mem_cons_of_mem (inv.locked m mem).1, (inv.locked m mem).2⟩ }

/-- A change of one slot: the other slots keep what the invariant says of them, and
the new slot has to satisfy it on its own. -/
theorem setSlot (inv : Inv sb nproc s L V) {k : Nat} {slot : Slot} {L' : Multiset Nat} {V' : Finset Nat}
    (coherent : 0 < slot.ref → slot.valid = true → slot.din.type ≠ 0 ∧ s.disk.dinode slot.inum = slot.din)
    (unique : 0 < slot.ref → ∀ j, j ≠ k → 0 < (s.icache j).ref → (s.icache j).inum ≠ slot.inum)
    (dev : 0 < slot.ref → slot.dev = ROOTDEV) (cached : NINODE ≤ k → slot.ref ≤ 0)
    (refs : ((heldRefs s nproc k + L'.count k : Nat) : Int) ≤ slot.ref)
    (others : ∀ j, j ≠ k → L'.count j ≤ L.count j)
    (locked : ∀ m ∈ V', m ∈ L' ∧ (setAt s.icache k slot m).valid = true ∧
      (setAt s.icache k slot m).holder = some s.cur) :
    Inv sb nproc (s.setSlot k slot) L' V' where
  accounted := inv.accounted
  shaped := inv.shaped
  freeEmpty := inv.freeEmpty
  beyond := inv.beyond
  coherent m := by
    by_cases same : m = k
    · subst same
      simpa using coherent
    · simpa [setAt_ne _ _ _ same] using inv.coherent m
  unique i j := by
    simp only [Sys.setSlot_icache]
    by_cases hi : i = k <;> by_cases hj : j = k
    · exact fun _ _ _ => hi.trans hj.symm
    · subst hi
      simp only [setAt_same, setAt_ne _ _ _ hj]
      exact fun pos pos' same => absurd same.symm (unique pos j hj pos')
    · subst hj
      simp only [setAt_same, setAt_ne _ _ _ hi]
      exact fun pos pos' same => absurd same (unique pos' i hi pos)
    · simp only [setAt_ne _ _ _ hi, setAt_ne _ _ _ hj]
      exact inv.unique i j
  dev m := by
    by_cases same : m = k
    · subst same
      simpa using dev
    · simpa [setAt_ne _ _ _ same] using inv.dev m
  cached m := by
    by_cases same : m = k
    · subst same
      simpa using cached
    · simpa [setAt_ne _ _ _ same] using inv.cached m
  refs m := by
    by_cases same : m = k
    · subst same
      simpa using refs
    · have := inv.refs m
      have := others m same
      simp only [heldRefs_setSlot, Sys.setSlot_icache, setAt_ne _ _ _ same]
      omega
  closed := inv.closed
  fds := inv.fds
  locked := locked

end Inv

/-! ## The file system `mkfs` writes -/

section Boot

variable {sb : Superblock}

theorem Superblock.WellFormed.dataStart_pos (wf : sb.WellFormed) : 0 < sb.dataStart := by
  have := wf.bitmapBelowData 0 (by have := wf.rootBlockFits; omega)
  simp only [Superblock.BBLOCK, Nat.zero_div, Nat.zero_add] at this
  omega

/-- The bitmap `mkfs` writes marks exactly the blocks below `dataStart + 1`: the
metadata blocks and the root directory's block. -/
theorem mkfs_bit (wf : sb.WellFormed) {b : Nat} (bound : b < sb.size) :
    (mkfs sb).bit sb b = decide (b < sb.dataStart + 1) := by
  rw [bit_eq_testBit]
  simp only [mkfs]
  rw [if_pos ⟨by unfold Superblock.BBLOCK BPB BSIZE; omega, wf.bitmapBelowData b bound⟩]
  have index : (sb.BBLOCK b - sb.bmapstart) * BPB + 8 * (b % BPB / 8) = b - b % 8 := by
    unfold Superblock.BBLOCK BPB BSIZE
    omega
  have small : 2 ^ min (sb.dataStart + 1 - (b - b % 8)) 8 - 1 < 256 := by
    have := Nat.pow_le_pow_right (by norm_num : 2 > 0) (min_le_right (sb.dataStart + 1 - (b - b % 8)) 8)
    have : (2 : Nat) ^ 8 = 256 := by norm_num
    omega
  rw [index, usedByte, Disk.byte_toNat_ofNat, Nat.mod_eq_of_lt small, Nat.testBit_two_pow_sub_one]
  exact decide_eq_decide.2 (by unfold BPB BSIZE; omega)

/-- A dinode with no addresses keeps no pointer. -/
theorem ptrAt_of_addrs_zero (disk : Disk) {din : Dinode} (zero : ∀ k, din.addrs k = 0) (p : PtrPos) :
    ptrAt disk din p = none := by
  cases p <;> simp [ptrAt, zero]

theorem ptrs_eq_zero {disk : Disk} {din : Dinode} (none : ∀ p, ptrAt disk din p = none) : ptrs disk din = 0 :=
  Multiset.eq_zero_of_forall_not_mem fun _ mem => by
    obtain ⟨p, kept⟩ := mem_ptrs.1 mem
    rw [none p] at kept
    cases kept

/-- The root directory `mkfs` writes keeps one block, the first data block. -/
theorem ptrs_rootDinode (disk : Disk) (positive : 0 < sb.dataStart) :
    ptrs disk (rootDinode sb) = {sb.dataStart} := by
  have none : ∀ p, ptrAt disk Dinode.zero p = Option.none := ptrAt_of_addrs_zero disk fun _ => rfl
  have now : ptrAt disk (rootDinode sb) (.direct ⟨0, by decide⟩) = some sb.dataStart := by
    simp [ptrAt, rootDinode, nz, Nat.pos_iff_ne_zero.1 positive]
  have indirect : (rootDinode sb).addrs indirectIndex = 0 := rfl
  have doubly : (rootDinode sb).addrs doublyIndex = 0 := rfl
  have rest : ∀ p, p ≠ .direct ⟨0, by decide⟩ → ptrAt disk (rootDinode sb) p = ptrAt disk Dinode.zero p := by
    intro p other
    rw [none p]
    cases p with
    | direct k =>
      have : k.val ≠ 0 := fun zero => other (congrArg _ (Fin.ext zero))
      simp [ptrAt, rootDinode, this]
    | _ => simp [ptrAt, indirect, doubly]
  rw [ptrs_insert (none _) now rest, ptrs_eq_zero none]
  rfl

theorem allPtrs_mkfs (wf : sb.WellFormed) : allPtrs sb (mkfs sb) = {sb.dataStart} := by
  have dinode : ∀ i, (mkfs sb).dinode i = if i = ROOTINO then rootDinode sb else Dinode.zero := fun _ => rfl
  have root : inodePtrs (mkfs sb) ROOTINO = {sb.dataStart} := by
    rw [inodePtrs, dinode, if_pos rfl, if_neg (by simp [rootDinode, T_DIR]), ptrs_rootDinode _ wf.dataStart_pos]
  have others : ((Multiset.range sb.ninodes).erase ROOTINO).bind (inodePtrs (mkfs sb)) = 0 := by
    refine (Multiset.bind_congr fun i mem => ?_).trans (Multiset.bind_zero _)
    have other := ((Multiset.Nodup.mem_erase_iff (Multiset.nodup_range _)).1 mem).1
    rw [inodePtrs, dinode, if_neg other]
    exact if_pos rfl
  rw [allPtrs_eq_add wf.rootBelow, root, others, add_zero]

theorem accounted_mkfs (wf : sb.WellFormed) : Accounted sb (mkfs sb) := by
  refine ⟨?_, ?_, ?_⟩ <;> rw [allPtrs_mkfs wf]
  · exact Multiset.nodup_singleton _
  · intro b mem
    rw [Multiset.mem_singleton.1 mem]
    exact ⟨le_rfl, wf.rootBlockFits⟩
  · intro b bound
    rw [mkfs_bit wf bound, decide_eq_true_iff, Multiset.mem_singleton]
    omega

theorem shaped_rootDinode (wf : sb.WellFormed) : Shaped (mkfs sb) (rootDinode sb) := by
  refine ⟨by simp only [rootDinode]; decide, fun bn below => ?_⟩
  have zero : bn = 0 := by simp only [rootDinode, BSIZE] at below; omega
  subst zero
  rw [dataPos_of_direct (by decide)]
  simp [ptrAt, rootDinode, nz, Nat.pos_iff_ne_zero.1 wf.dataStart_pos]

/-- The file system at boot satisfies the invariant, with no call running. -/
theorem boot_inv (wf : sb.WellFormed) (nproc : Nat) : Inv sb nproc (boot sb nproc) 0 ∅ where
  accounted := accounted_mkfs wf
  shaped inum used := by
    by_cases root : inum = ROOTINO
    · subst root
      exact shaped_rootDinode wf
    · exact absurd (by simp [boot, mkfs, root, Dinode.zero]) used
  freeEmpty inum free := by
    by_cases root : inum = ROOTINO
    · subst root
      exact absurd free (by simp [boot, mkfs, rootDinode, T_DIR])
    · simp [boot, mkfs, root, Dinode.zero]
  beyond inum outside := by
    have : inum ≠ ROOTINO := by have := wf.rootBelow; omega
    simp [boot, mkfs, this, Dinode.zero]
  coherent k pos valid := by
    by_cases zero : k = 0 <;> simp_all [boot, Slot.empty]
  unique j k := by
    by_cases zj : j = 0 <;> by_cases zk : k = 0 <;> simp_all [boot, Slot.empty]
  dev k := by
    by_cases zero : k = 0 <;> simp_all [boot, Slot.empty]
  cached k outside := by
    have : k ≠ 0 := by unfold NINODE at outside; omega
    simp [boot, this, Slot.empty]
  refs k := by
    by_cases zero : k = 0 <;> simp [heldRefs_eq, boot, File.holds, File.empty, Slot.empty, zero, eq_comm]
  closed _ _ := rfl
  fds _ _ _ none := by cases none
  locked _ mem := absurd mem (Finset.not_mem_empty _)

end Boot

/-! ## The changes a call makes -/

@[simp] theorem ptrAt_setDinode (disk : Disk) (inum : Nat) (record : Dinode) :
    ptrAt (disk.setDinode inum record) = ptrAt disk :=
  rfl

/-- The accounting holds of a disk with the same blocks and the same pointers. -/
theorem Accounted.of_allPtrs_eq {sb : Superblock} {disk disk' : Disk} (acc : Accounted sb disk)
    (block : disk'.block = disk.block) (all : allPtrs sb disk' = allPtrs sb disk) : Accounted sb disk' := by
  refine ⟨all ▸ acc.nodup, fun b mem => acc.inData b (all ▸ mem), fun b lt => ?_⟩
  rw [all, bit_congr sb (congrFun block _)]
  exact acc.bit_iff b lt

/-- Another allocated inode keeps a map that covers its content. -/
theorem OthersKept.shaped {sb : Superblock} {disk disk' : Disk} {inum i : Nat} (kept : OthersKept sb disk inum disk')
    (iRange : i < sb.ninodes) (other : i ≠ inum) (allocated : (disk.dinode i).type ≠ 0)
    (shaped : Shaped disk (disk.dinode i)) : Shaped disk' (disk'.dinode i) := by
  refine ⟨kept.dinode i other ▸ shaped.size_le, fun bn below => ?_⟩
  rw [kept.ptrAt_eq iRange other allocated]
  exact shaped.mapped bn (kept.dinode i other ▸ below)

namespace Inv

variable {sb : Superblock} {nproc : Nat} {s : Sys} {L : Multiset Nat} {V : Finset Nat}

/-- A change of the disk and of one valid slot's copy of its inode, as `writei`,
`iupdate` and `ifree` make: the other inodes keep their dinodes and blocks, the slot
keeps its references, inode and lock, and it agrees with the disk if it stays
valid. -/
theorem rewrite (inv : Inv sb nproc s L V) {k : Nat} (pos : 0 < (s.icache k).ref)
    (valid : (s.icache k).valid = true) (disk : Disk) (slot : Slot) (ref : slot.ref = (s.icache k).ref)
    (inum : slot.inum = (s.icache k).inum) (dev : slot.dev = (s.icache k).dev)
    (holder : slot.holder = (s.icache k).holder)
    (kept : OthersKept sb s.disk slot.inum disk) (accounted : Accounted sb disk)
    (shaped : (disk.dinode slot.inum).type ≠ 0 → Shaped disk (disk.dinode slot.inum))
    (empty : (disk.dinode slot.inum).type = 0 → (disk.dinode slot.inum).size = 0)
    (coherent : slot.valid = true → slot.din.type ≠ 0 ∧ disk.dinode slot.inum = slot.din)
    (stays : k ∈ V → slot.valid = true) :
    Inv sb nproc ({ s with disk := disk }.setSlot k slot) L V := by
  have inRange : slot.inum < sb.ninodes := inum ▸ inv.inRange pos valid
  have view : ∀ m, (setAt s.icache k slot m).ref = (s.icache m).ref ∧
      (setAt s.icache k slot m).inum = (s.icache m).inum ∧ (setAt s.icache k slot m).dev = (s.icache m).dev ∧
      (setAt s.icache k slot m).holder = (s.icache m).holder := fun m => by
    by_cases same : m = k
    · subst same
      simp [ref, inum, dev, holder]
    · simp [setAt_ne _ _ _ same]
  refine ⟨accounted, fun i used => ?_, fun i free => ?_, fun i outside => ?_, fun m mpos mvalid => ?_,
    fun i j => ?_, fun m => ?_, fun m => ?_, fun m => ?_, inv.closed, inv.fds, fun m mem => ?_⟩
  · simp only [Sys.setSlot_disk] at used ⊢
    by_cases same : i = slot.inum
    · subst same
      exact shaped used
    · have iRange : i < sb.ninodes := by
        by_contra outside
        exact used (by rw [kept.dinode i same]; exact inv.beyond i (Nat.le_of_not_lt outside))
      rw [kept.dinode i same] at used
      exact kept.shaped iRange same used (inv.shaped i used)
  · simp only [Sys.setSlot_disk] at free ⊢
    by_cases same : i = slot.inum
    · subst same
      exact empty free
    · rw [kept.dinode i same] at free ⊢
      exact inv.freeEmpty i free
  · simp only [Sys.setSlot_disk]
    rw [kept.dinode i (by omega)]
    exact inv.beyond i outside
  · simp only [Sys.setSlot_icache, Sys.setSlot_disk] at mpos mvalid ⊢
    by_cases same : m = k
    · subst same
      simp only [setAt_same] at mvalid ⊢
      exact coherent mvalid
    · simp only [setAt_ne _ _ _ same] at mpos mvalid ⊢
      have other : (s.icache m).inum ≠ slot.inum := fun eq => same (inv.unique m k mpos pos (eq.trans inum))
      rw [kept.dinode _ other]
      exact inv.coherent m mpos mvalid
  · simp only [Sys.setSlot_icache, (view i).1, (view j).1, (view i).2.1, (view j).2.1]
    exact inv.unique i j
  · simp only [Sys.setSlot_icache, (view m).1, (view m).2.2.1]
    exact inv.dev m
  · simp only [Sys.setSlot_icache, (view m).1]
    exact inv.cached m
  · simp only [heldRefs_setSlot, heldRefs_withDisk, Sys.setSlot_icache, (view m).1]
    exact inv.refs m
  · obtain ⟨isLocal, mvalid, mholder⟩ := inv.locked m mem
    simp only [Sys.setSlot_icache, Sys.setSlot_cur, (view m).2.2.2]
    refine ⟨isLocal, ?_, mholder⟩
    by_cases same : m = k
    · subst same
      simpa using stays mem
    · simpa [setAt_ne _ _ _ same] using mvalid

/-- `iupdate` of a valid slot after a change that keeps the inode's type, size and
block map: a change of `nlink`, `major` or `minor`. -/
theorem update (inv : Inv sb nproc s L V) {k : Nat} (pos : 0 < (s.icache k).ref)
    (valid : (s.icache k).valid = true) {din : Dinode} (type : din.type = (s.icache k).din.type)
    (size : din.size = (s.icache k).din.size) (addrs : din.addrs = (s.icache k).din.addrs) :
    Inv sb nproc (iupdateSlot (s.setSlot k { s.icache k with din := din }) k) L V := by
  obtain ⟨used, same⟩ := inv.coherent k pos valid
  have state : iupdateSlot (s.setSlot k { s.icache k with din := din }) k =
      { s with disk := s.disk.setDinode (s.icache k).inum din }.setSlot k { s.icache k with din := din } := by
    simp [iupdateSlot, iupdate, Sys.setSlot]
  rw [state]
  have shaped := inv.shaped _ (same ▸ used)
  rw [same] at shaped
  refine inv.rewrite pos valid _ _ rfl rfl rfl rfl ⟨fun i other => by simp [setAt_ne _ _ _ other],
    fun _ _ _ _ _ => rfl⟩ (inv.accounted.congr rfl fun i => ?_) (fun _ => ?_) (fun free => ?_)
    (fun _ => ?_) fun _ => valid
  · by_cases eq : i = (s.icache k).inum
    · subst eq
      simp [same, type, addrs]
    · simp [setAt_ne _ _ _ eq]
  · simp only [Disk.setDinode_dinode, setAt_same, ptrAt_setDinode]
    refine ⟨size ▸ shaped.size_le, fun bn below => ?_⟩
    rw [ptrAt_addrs_congr addrs]
    exact shaped.mapped bn (size ▸ below)
  · simp only [Disk.setDinode_dinode, setAt_same] at free
    exact absurd (type ▸ free) used
  · exact ⟨type ▸ used, by simp⟩

/-- `ialloc` marks a free inode of the inode blocks allocated, with no blocks. -/
theorem allocDinode (inv : Inv sb nproc s L V) {inum : Nat} (inRange : inum < sb.ninodes)
    (free : (s.disk.dinode inum).type = 0) {type : Int} (used : type ≠ 0) :
    Inv sb nproc { s with disk := s.disk.setDinode inum { Dinode.zero with type := type } } L V := by
  have none : inodePtrs (s.disk.setDinode inum { Dinode.zero with type := type }) inum = inodePtrs s.disk inum := by
    simp only [inodePtrs, Disk.setDinode_dinode, setAt_same, free, if_true, used, if_false]
    exact ptrs_eq_zero (ptrAt_of_addrs_zero _ fun _ => rfl)
  have all : allPtrs sb (s.disk.setDinode inum { Dinode.zero with type := type }) = allPtrs sb s.disk := by
    rw [allPtrs_eq_add inRange, allPtrs_eq_add inRange, none]
    refine congrArg _ (others_bind_congr fun i _ other => ?_)
    simp only [inodePtrs, Disk.setDinode_dinode, setAt_ne _ _ _ other, ptrAt_setDinode, ptrs]
  refine { inv with
    accounted := inv.accounted.of_allPtrs_eq rfl all
    shaped := fun i used' => ?_
    freeEmpty := fun i free' => ?_
    beyond := fun i outside => ?_
    coherent := fun m pos valid => ?_ }
  · by_cases same : i = inum
    · subst same
      exact ⟨by simp [Dinode.zero], fun bn below => by simp [Dinode.zero] at below⟩
    · simp only [Disk.setDinode_dinode, setAt_ne _ _ _ same] at used' ⊢
      obtain ⟨size_le, mapped⟩ := inv.shaped i used'
      exact ⟨size_le, mapped⟩
  · by_cases same : i = inum
    · subst same
      simp at free'
      exact absurd free' used
    · simp only [Disk.setDinode_dinode, setAt_ne _ _ _ same] at free' ⊢
      exact inv.freeEmpty i free'
  · simp only [Disk.setDinode_dinode, setAt_ne _ _ _ (show i ≠ inum by omega)]
    exact inv.beyond i outside
  · obtain ⟨used', same⟩ := inv.coherent m pos valid
    have other : (s.icache m).inum ≠ inum := fun eq => used' (same ▸ eq ▸ free)
    simp only [Disk.setDinode_dinode, setAt_ne _ _ _ other]
    exact ⟨used', same⟩

/-- A change of one file table entry `f < NFILE`: the references it held and holds
are traded against the locals. -/
theorem setFile (inv : Inv sb nproc s L V) {f : Nat} (small : f < NFILE) {file : File} {L' : Multiset Nat}
    (closed : file.ref ≤ 0 → file.type = .none)
    (trade : ∀ k, L'.count k + (if file.holds k then 1 else 0) ≤ L.count k + (if (s.ftable f).holds k then 1 else 0))
    (locked : ∀ m ∈ V, m ∈ L') : Inv sb nproc (s.setFile f file) L' V :=
  { inv with
    refs := fun k => by
      have := heldRefs_setFile s nproc small file k
      have := trade k
      have := inv.refs k
      show ((heldRefs (s.setFile f file) nproc k + L'.count k : Nat) : Int) ≤ (s.icache k).ref
      omega
    closed := fun g free => by
      by_cases same : g = f
      · subst same
        simp only [Sys.setFile, setAt_same] at free ⊢
        exact closed free
      · simp only [Sys.setFile, setAt_ne _ _ _ same] at free ⊢
        exact inv.closed g free
    locked := fun m mem => ⟨locked m mem, (inv.locked m mem).2⟩ }

/-- A change of the current process: the reference its current directory held is
traded against the locals. -/
theorem setProc (inv : Inv sb nproc s L V) (running : s.cur < nproc) {proc : Proc} {L' : Multiset Nat}
    (fds : ∀ fd f, proc.ofile fd = some f → f < NFILE)
    (trade : ∀ k, L'.count k + (if proc.cwd = k then 1 else 0) ≤ L.count k + (if (s.procs s.cur).cwd = k then 1 else 0))
    (locked : ∀ m ∈ V, m ∈ L') : Inv sb nproc (s.setProc proc) L' V :=
  { inv with
    refs := fun k => by
      have := heldRefs_setProc s running proc k
      have := trade k
      have := inv.refs k
      show ((heldRefs (s.setProc proc) nproc k + L'.count k : Nat) : Int) ≤ (s.icache k).ref
      omega
    fds := fun pid fd f open_ => by
      by_cases same : pid = s.cur
      · subst same
        simp only [Sys.setProc, setAt_same] at open_
        exact fds fd f open_
      · simp only [Sys.setProc, setAt_ne _ _ _ same] at open_
        exact inv.fds pid fd f open_
    locked := fun m mem => ⟨locked m mem, (inv.locked m mem).2⟩ }

/-- One more reference to a referenced slot, held by a new local: `idup`, and `iget`
finding the inode cached. -/
theorem raise (inv : Inv sb nproc s L V) {k : Nat} (pos : 0 < (s.icache k).ref) :
    Inv sb nproc (s.setSlot k { s.icache k with ref := (s.icache k).ref + 1 }) (k ::ₘ L) V :=
  inv.setSlot (fun _ => inv.coherent k pos)
    (fun _ j other jpos same => other (inv.unique j k jpos pos same))
    (fun _ => inv.dev k pos) (fun outside => absurd (inv.cached k outside) (by omega))
    (by have := inv.refs k; simp only [Multiset.count_cons_self]; push_cast; omega)
    (fun j other => by rw [Multiset.count_cons_of_ne other])
    fun m mem => by
      refine ⟨Multiset.mem_cons_of_mem (inv.locked m mem).1, ?_⟩
      by_cases same : m = k
      · subst same
        simpa using (inv.locked m mem).2
      · simpa [setAt_ne _ _ _ same] using (inv.locked m mem).2

/-- An unreferenced cache slot taken for an inode no referenced slot caches: `iget`
not finding the inode. -/
theorem claim (inv : Inv sb nproc s L V) {k inum : Nat} (free : (s.icache k).ref = 0) (small : k < NINODE)
    (uncached : ∀ j, 0 < (s.icache j).ref → (s.icache j).inum ≠ inum) :
    Inv sb nproc (s.setSlot k { s.icache k with dev := ROOTDEV, inum := inum, ref := 1, valid := false })
      (k ::ₘ L) V :=
  inv.setSlot (fun _ invalid => absurd invalid (by simp)) (fun _ j _ jpos => uncached j jpos) (fun _ => rfl)
    (fun outside => absurd small (by omega))
    (by have := inv.refs k; simp only [Multiset.count_cons_self, free] at *; push_cast at *; omega)
    (fun j other => by rw [Multiset.count_cons_of_ne other])
    fun m mem => by
      have other : m ≠ k := fun same => by
        subst same
        have := inv.ref_pos (inv.locked m mem).1
        omega
      refine ⟨Multiset.mem_cons_of_mem (inv.locked m mem).1, ?_⟩
      simpa [setAt_ne _ _ _ other] using (inv.locked m mem).2

/-- A local reference dropped, with the slot's count: the last step of `iput`. -/
theorem drop (inv : Inv sb nproc s L V) {k : Nat} (mem : k ∈ L) (keep : k ∈ V → k ∈ L.erase k) :
    Inv sb nproc (s.setSlot k { s.icache k with ref := (s.icache k).ref - 1 }) (L.erase k) V :=
  inv.setSlot (fun pos => inv.coherent k (by simp at pos; omega))
    (fun pos j other jpos same => other (inv.unique j k jpos (by simp at pos; omega) same))
    (fun pos => inv.dev k (by simp at pos; omega))
    (fun outside => by have := inv.cached k outside; simp; omega)
    (by
      have := inv.refs k
      have := Multiset.count_erase_self k L
      have := Multiset.count_pos.2 mem
      simp only
      omega)
    (fun j other => by rw [Multiset.count_erase_of_ne other])
    fun m mem' => by
      have old := (inv.locked m mem').2
      by_cases same : m = k
      · subst same
        exact ⟨keep mem', by simpa using old⟩
      · exact ⟨(Multiset.mem_erase_of_ne same).2 (inv.locked m mem').1, by simpa [setAt_ne _ _ _ same] using old⟩

/-- A change of a slot's sleep-lock holder, which keeps the slots the call has locked
held. -/
theorem setHolder (inv : Inv sb nproc s L V) (k : Nat) (holder : Option Nat)
    (kept : k ∈ V → holder = some s.cur) :
    Inv sb nproc (s.setSlot k { s.icache k with holder := holder }) L V := by
  refine inv.setSlot (fun pos valid => inv.coherent k pos valid)
    (fun pos j other jpos same => other (inv.unique j k jpos pos same)) (fun pos => inv.dev k pos)
    (fun outside => inv.cached k outside) (inv.refs k) (fun _ _ => le_rfl) fun m mem => ?_
  obtain ⟨isLocal, valid, held⟩ := inv.locked m mem
  by_cases eq : m = k
  · subst eq
    refine ⟨isLocal, ?_⟩
    simpa [valid] using kept mem
  · simpa [setAt_ne _ _ _ eq] using ⟨isLocal, valid, held⟩

/-- `ilock` reading the disk inode into a referenced slot. -/
theorem load (inv : Inv sb nproc s L V) {k : Nat} (pos : 0 < (s.icache k).ref)
    (used : (s.disk.dinode (s.icache k).inum).type ≠ 0) :
    Inv sb nproc (s.setSlot k { s.icache k with din := s.disk.dinode (s.icache k).inum, valid := true }) L V :=
  inv.setSlot (fun _ _ => ⟨used, rfl⟩) (fun _ j other jpos same => other (inv.unique j k jpos pos same))
    (fun _ => inv.dev k pos) (fun outside => inv.cached k outside) (inv.refs k) (fun _ _ => le_rfl)
    fun m mem => by
      obtain ⟨isLocal, valid, held⟩ := inv.locked m mem
      by_cases eq : m = k
      · subst eq
        refine ⟨isLocal, ?_⟩
        simpa using held
      · simpa [setAt_ne _ _ _ eq] using ⟨isLocal, valid, held⟩

end Inv

end Xv6Fs
