import Xv6Fs.Invariant

/-!
# The inode cache keeps the invariant

One lemma per function of the cache: from a state that satisfies the invariant, the
function never halts with `freeing free block`, and it returns into a state that
satisfies it again, with the locals and locks it leaves.  `iget`, `idup` and `ialloc`
add a local, `iput` drops one, `ilock` adds a lock and `iunlock` drops it.  Reading
changes nothing; writing and freeing keep the accounting by the lemmas of `Transfer`
and `Truncate`.
-/

namespace Xv6Fs

/-! ## The scans -/

section Scans

variable {icache : Nat → Slot} {dev inum : Nat}

/-- The scan of `iget` returns a referenced slot caching the inode. -/
theorem igetScan_inl : ∀ {r i : Nat} {empty : Option Nat} {ip : Nat},
    igetScan icache dev inum r i empty = .inl ip →
      ip < i + r ∧ 0 < (icache ip).ref ∧ (icache ip).dev = dev ∧ (icache ip).inum = inum
  | 0, _, _, _, scan => by cases scan
  | r + 1, i, empty, ip, scan => by
    unfold igetScan at scan
    split at scan
    · cases scan
      rename_i found
      exact ⟨by omega, found⟩
    · have := igetScan_inl scan
      exact ⟨by omega, this.2⟩

/-- When the scan of `iget` meets no referenced slot caching the inode, it returns the
slot it remembered or the first unreferenced one it met. -/
theorem igetScan_inr : ∀ {r i : Nat} {empty found : Option Nat},
    igetScan icache dev inum r i empty = .inr found →
      (∀ j, i ≤ j → j < i + r → ¬(0 < (icache j).ref ∧ (icache j).dev = dev ∧ (icache j).inum = inum)) ∧
      ∀ ip, found = some ip → empty = some ip ∨ (ip < i + r ∧ (icache ip).ref = 0)
  | 0, _, _, _, scan => by
    cases scan
    exact ⟨fun j lo hi => by omega, fun ip eq => .inl eq⟩
  | r + 1, i, empty, found, scan => by
    unfold igetScan at scan
    split at scan
    · cases scan
    · rename_i miss
      obtain ⟨none, remembered⟩ := igetScan_inr scan
      refine ⟨fun j lo hi => ?_, fun ip eq => ?_⟩
      · by_cases first : j = i
        · subst first
          exact miss
        · exact none j (by omega) (by omega)
      · rcases remembered ip eq with mem | ⟨hi, free⟩
        · split at mem
          · rename_i cond
            obtain rfl := Option.some.inj mem
            exact .inr ⟨by omega, cond.2⟩
          · exact .inl mem
        · exact .inr ⟨by omega, free⟩

/-- The scan of `ialloc` marks a free inode of the inode blocks allocated. -/
theorem iallocScan_some {sb : Superblock} {disk disk' : Disk} {type : Int} :
    ∀ {r i inum : Nat}, iallocScan sb disk type r i = some (disk', inum) →
      inum < sb.ninodes ∧ (disk.dinode inum).type = 0 ∧ disk' = disk.setDinode inum { Dinode.zero with type := type }
  | 0, _, _, scan => by cases scan
  | r + 1, i, inum, scan => by
    unfold iallocScan at scan
    split at scan
    · split at scan
      · cases scan
        rename_i inRange free
        exact ⟨inRange, free, rfl⟩
      · exact iallocScan_some scan
    · cases scan

end Scans

/-! ## The halts of `readi` and `writei` -/

section Halts

variable {sb : Superblock}

/-- `readi` of an inode whose map covers its content reads without allocating: the disk
and the inode come back unchanged. -/
theorem readi_keeps {disk : Disk} {din : Dinode} (shaped : Shaped disk din) (dst : Nat → Bool) (off n : UInt32) :
    ∃ r out, readi sb disk din dst off n = .ok (r, out, disk, din) := by
  by_cases refused : off.toNat > din.size ∨ (off.toNat + n.toNat) % 4294967296 < off.toNat
  · exact ⟨-1, [], by unfold readi; simp only [refused, if_true]; rfl⟩
  · obtain ⟨t, -, run, -⟩ := readi_eq shaped dst (show off.toNat ≤ din.size by omega)
      (show off.toNat ≤ (off.toNat + n.toNat) % 4294967296 by omega)
    exact ⟨_, _, run⟩

/-- The loop of `writei` halts only when `balloc` finds no free block. -/
theorem writeiLoop_error {src : Nat → Option UInt8} {n : Nat} :
    ∀ {fuel : Nat} {disk : Disk} {din : Dinode} {tot off : Nat} {halt : Halt},
      writeiLoop sb src n fuel disk din tot off = .error halt → halt = .fatal "balloc: out of blocks"
  | 0, _, _, _, _, _, failed => by cases failed
  | fuel + 1, disk, din, tot, off, halt, failed => by
    unfold writeiLoop at failed
    split at failed
    · cases mapped : bmap sb disk din (off / BSIZE) with
      | error halt' =>
        rw [mapped, error_bind] at failed
        cases failed
        exact bmap_error mapped
      | ok result =>
        obtain ⟨addr, disk1, din1⟩ := result
        rw [mapped, ok_bind] at failed
        dsimp only at failed
        split at failed
        · cases failed
        · exact writeiLoop_error failed
    · cases failed

/-- `writei` halts only when `balloc` finds no free block. -/
theorem writei_error {disk : Disk} {inum : Nat} {din : Dinode} {src : Nat → Option UInt8} {off n : UInt32}
    {halt : Halt} (failed : writei sb disk inum din src off n = .error halt) : halt = .fatal "balloc: out of blocks" := by
  unfold writei at failed
  dsimp only at failed
  split at failed
  · cases failed
  · split at failed
    · cases failed
    · cases loop : writeiLoop sb src n.toNat n.toNat disk din 0 off.toNat with
      | error halt' =>
        rw [loop, error_bind] at failed
        cases failed
        exact writeiLoop_error loop
      | ok result =>
        obtain ⟨disk1, din1, off1⟩ := result
        rw [loop, ok_bind] at failed
        dsimp only at failed
        split at failed <;> cases failed

/-- Both loops stop at a refused span, but `readi` returns the clamped count and
`writei` the count it was given: on the root directory of `fs1000`, a destination
that refuses every byte receives none of sixteen, and a source that faults at once
gives none of sixteen, and both calls return `16`. -/
theorem copy_fault_returns_requested :
    readi fs1000 (mkfs fs1000) (rootDinode fs1000) (fun _ => false) 0 16 =
        .ok (16, [], mkfs fs1000, rootDinode fs1000) ∧
      ∃ disk, writei fs1000 (mkfs fs1000) ROOTINO (rootDinode fs1000) (fun _ => none) 0 16 =
        .ok (16, disk, rootDinode fs1000) :=
  ⟨rfl, _, rfl⟩

end Halts

/-! ## Cache operations -/

section Cache

variable {sb : Superblock} {nproc : Nat} {s : Sys} {L : Multiset Nat} {V : Finset Nat}

/-- `iget` of an inode of the root device: a local reference to a slot caching it. -/
theorem iget_safe (inv : Inv sb nproc s L V) {dev : Nat} (root : dev = ROOTDEV) (inum : Nat) :
    Safe (iget s dev inum) fun r => Inv sb nproc r.2 (r.1 ::ₘ L) V ∧ (r.2.icache r.1).inum = inum := by
  subst root
  unfold iget
  split
  · rename_i ip scan
    obtain ⟨-, pos, -, cached⟩ := igetScan_inl scan
    exact ⟨inv.raise pos, by simpa using cached⟩
  · simp
  · rename_i ip scan
    obtain ⟨miss, remembered⟩ := igetScan_inr scan
    obtain ⟨small, free⟩ := (remembered ip rfl).resolve_left (by simp)
    refine ⟨inv.claim free (by simpa using small) fun j pos same => ?_, by simp⟩
    have small' : j < NINODE := by
      by_contra outside
      have := inv.cached j (by omega)
      omega
    exact miss j (Nat.zero_le _) (by simpa using small') ⟨pos, inv.dev j pos, same⟩

/-- `ilock` leaves the slot valid and held by the caller. -/
theorem ilock_safe (inv : Inv sb nproc s L V) (k : Nat) :
    Safe (ilock s k) fun s' => Inv sb nproc s' L V ∧ (s'.icache k).valid = true ∧
      (s'.icache k).holder = some s'.cur ∧ 0 < (s'.icache k).ref ∧ k ∉ V := by
  unfold ilock acquiresleep
  dsimp only
  split
  · simp
  · rename_i held
    simp only [pure_bind]
    split
    · simp only [error_bind, safe_error_iff]
      split <;> simp
    · rename_i free
      have notLocked : k ∉ V := fun mem => by simp [(inv.locked k mem).2.2] at free
      have inv1 := inv.setHolder k (some s.cur) fun _ => rfl
      have pos : 0 < ((s.setSlot k { s.icache k with holder := some s.cur }).icache k).ref := by simp; omega
      simp only [ok_bind]
      split
      · exact ⟨inv1, ‹_›, by simp, pos, notLocked⟩
      · split
        · simp
        · exact ⟨inv1.load pos ‹_›, by simp, by simp, by simp; omega, notLocked⟩

/-- `ilock` of a local: the slot joins the call's locks, of which it was not one. -/
theorem ilock_locked (inv : Inv sb nproc s L V) {k : Nat} (mem : k ∈ L) :
    Safe (ilock s k) fun s' => Inv sb nproc s' L (insert k V) ∧ k ∉ V :=
  (ilock_safe inv k).mono fun _ ⟨inv', valid, held, _, fresh⟩ => ⟨inv'.lock mem valid held, fresh⟩

/-- `iunlock` releases the lock, which the call no longer counts as its own. -/
theorem iunlock_safe (inv : Inv sb nproc s L V) (k : Nat) :
    Safe (iunlock s k) fun s' => Inv sb nproc s' L (V.erase k) := by
  unfold iunlock releasesleep
  split
  · simp
  · exact (inv.unlocked k).setHolder k none fun mem => absurd mem (Finset.not_mem_erase k V)

variable (wf : sb.WellFormed)
include wf

/-- `ifree` of a valid referenced slot frees exactly the blocks of its inode, each
found marked in use, and marks the inode free. -/
theorem ifree_safe (inv : Inv sb nproc s L V) {k : Nat} (pos : 0 < (s.icache k).ref)
    (valid : (s.icache k).valid = true) :
    Safe (ifree sb s k) fun s' => Inv sb nproc s' L V ∧ (s'.icache k).ref = (s.icache k).ref := by
  obtain ⟨used, same⟩ := inv.coherent k pos valid
  have inRange := inv.inRange pos valid
  have acc : Accounted sb (s.disk.setDinode (s.icache k).inum (s.icache k).din) := by
    rw [← same, Disk.setDinode_self]
    exact inv.accounted
  obtain ⟨disk', frees, -⟩ := itrunc_frees wf acc inRange used
  obtain ⟨-, accounted, kept⟩ := itrunc_free wf acc inRange used frees
  rw [← same, Disk.setDinode_self, same] at kept
  unfold ifree
  cases held : (s.icache k).holder with
  | some h =>
    simp only [acquiresleep, held, error_bind, safe_error_iff]
    split <;> simp
  | none =>
    have notLocked : k ∉ V := fun mem => by simp [(inv.locked k mem).2.2] at held
    simp only [acquiresleep, held, ok_bind, Sys.setSlot_disk, Sys.setSlot_icache, setAt_same]
    rw [frees, ok_bind]
    have inv1 := inv.setHolder k (some s.cur) fun _ => rfl
    have inv2 := inv1.rewrite (by simpa using pos) (by simpa using valid)
      ((disk'.setDinode (s.icache k).inum (s.icache k).din.truncated).setDinode (s.icache k).inum
        { (s.icache k).din.truncated with type := 0 })
      { s.icache k with holder := some s.cur, din := { (s.icache k).din.truncated with type := 0 }, valid := false }
      (by simp) (by simp) (by simp) (by simp) kept accounted (by simp) (by simp [Dinode.truncated]) (by simp)
      (fun mem => absurd mem notLocked)
    exact safe_pure ⟨inv2.setHolder k none fun mem => absurd mem notLocked, by simp [releasesleep]⟩

/-- `iput` drops a local reference; the last reference to a valid unlinked inode frees
it first. -/
theorem iput_safe (inv : Inv sb nproc s L V) {k : Nat} (mem : k ∈ L) (keep : k ∈ V → k ∈ L.erase k) :
    Safe (iput sb s k) fun s' => Inv sb nproc s' (L.erase k) V := by
  unfold iput
  dsimp only
  split
  · rename_i last
    exact Safe.bind ((ifree_safe wf inv (inv.ref_pos mem) last.2.1).mono fun _ freed =>
      safe_pure (freed.1.drop mem keep))
  · exact safe_pure (inv.drop mem keep)

/-- `iunlockput` of a local. -/
theorem iunlockput_safe (inv : Inv sb nproc s L V) {k : Nat} (mem : k ∈ L) :
    Safe (iunlockput sb s k) fun s' => Inv sb nproc s' (L.erase k) (V.erase k) :=
  Safe.bind ((iunlock_safe inv k).mono fun _ unlocked =>
    iput_safe wf unlocked mem fun locked => absurd locked (Finset.not_mem_erase k V))

omit wf in
/-- Changing the link count of a locked slot and writing it back. -/
theorem Inv.addNlink_update (inv : Inv sb nproc s L V) {k : Nat} (locked : k ∈ V) (delta : Int) :
    Inv sb nproc (iupdateSlot (addNlink s k delta) k) L V :=
  inv.update (inv.ref_pos (inv.locked k locked).1) (inv.locked k locked).2.1 rfl rfl rfl

omit wf in
/-- Reading a valid slot's inode changes nothing and never halts. -/
theorem readiSlot_keeps (inv : Inv sb nproc s L V) {k : Nat} (pos : 0 < (s.icache k).ref)
    (valid : (s.icache k).valid = true) (dst : Nat → Bool) (off n : UInt32) :
    ∃ r, readiSlot sb s k dst off n = .ok (r, s) := by
  obtain ⟨used, same⟩ := inv.coherent k pos valid
  have shaped : Shaped s.disk (s.icache k).din := by
    rw [← same]
    exact inv.shaped _ (by rw [same]; exact used)
  obtain ⟨r, out, run⟩ := readi_keeps shaped dst off n
  refine ⟨(r, out), ?_⟩
  unfold readiSlot
  rw [run, ok_bind]
  show Except.ok ((r, out), s.setSlot k (s.icache k)) = _
  simp [Sys.setSlot]

/-- `writei` on a valid slot keeps the invariant; it halts only when the disk is full. -/
theorem writeiSlot_safe (inv : Inv sb nproc s L V) {k : Nat} (pos : 0 < (s.icache k).ref)
    (valid : (s.icache k).valid = true) (src : Nat → Option UInt8) (off n : UInt32) :
    Safe (writeiSlot sb s k src off n) fun r => Inv sb nproc r.2 L V := by
  obtain ⟨used, same⟩ := inv.coherent k pos valid
  have inRange := inv.inRange pos valid
  have acc : Accounted sb (s.disk.setDinode (s.icache k).inum (s.icache k).din) := by
    rw [← same, Disk.setDinode_self]
    exact inv.accounted
  have shaped : Shaped s.disk (s.icache k).din := by
    rw [← same]
    exact inv.shaped _ (by rw [same]; exact used)
  unfold writeiSlot
  cases run : writei sb s.disk (s.icache k).inum (s.icache k).din src off n with
  | error halt => simp [writei_error run]
  | ok result =>
    obtain ⟨r, disk', din'⟩ := result
    obtain ⟨acc', shaped', kept, fields, stored⟩ := writei_effect wf acc inRange used shaped run
    rw [ok_bind]
    rcases stored with stored | ⟨rfl, rfl⟩
    · rw [← stored, Disk.setDinode_self] at acc' kept
      rw [← same, Disk.setDinode_self] at kept
      have type : din'.type = (s.icache k).din.type := by rw [fields]
      exact safe_pure (inv.rewrite pos valid disk' { s.icache k with din := din' } rfl rfl rfl rfl kept acc'
        (fun _ => stored ▸ shaped') (fun free => absurd (type ▸ stored ▸ free) used)
        (fun _ => ⟨type ▸ used, stored⟩) fun _ => valid)
    · show Inv sb nproc (s.setSlot k (s.icache k)) L V
      simpa [Sys.setSlot] using inv

omit wf in
/-- `ialloc`: a local reference to a slot for a newly allocated inode. -/
theorem ialloc_safe (inv : Inv sb nproc s L V) {dev : Nat} (root : dev = ROOTDEV) {type : Int} (used : type ≠ 0) :
    Safe (ialloc sb s dev type) fun r => Inv sb nproc r.2 (r.1 ::ₘ L) V := by
  unfold ialloc
  split
  · rename_i disk inum scan
    obtain ⟨inRange, free, rfl⟩ := iallocScan_some scan
    exact (iget_safe (inv.allocDinode inRange free used) root inum).mono fun _ allocated => allocated.1
  · simp

end Cache

end Xv6Fs
