import Xv6Fs.CacheSpec

/-!
# Directories and path names keep the invariant

`dirlookup`, `dirlink` and the walk of `namex` from a state that satisfies the
invariant: each lookup that finds an entry leaves one more local reference, to the
slot of the entry's inode; `namex` ends with the slot it returns as its only new local
and with the locks it found.  Lookups read the directory with `readi`, which changes
nothing; `dirlink` writes one entry with `writei`.
-/

namespace Xv6Fs

section Directories

variable {sb : Superblock} {nproc : Nat} {L : Multiset Nat} {V : Finset Nat}

/-- The loop of `dirlookup` over a locked directory. -/
theorem dirlookupLoop_safe {dp : Nat} (name : List UInt8) :
    ∀ (fuel off : Nat) {s : Sys}, Inv sb nproc s L V → dp ∈ V →
      Safe (dirlookupLoop sb dp name fuel off s) fun r =>
        Inv sb nproc r.2 (match r.1 with | some (ip, _) => ip ::ₘ L | none => L) V
  | 0, _, _, inv, _ => safe_pure inv
  | fuel + 1, off, s, inv, locked => by
    have pos := inv.ref_pos (inv.locked dp locked).1
    have valid := (inv.locked dp locked).2.1
    unfold dirlookupLoop
    dsimp only
    split
    · obtain ⟨r, read⟩ := readiSlot_keeps inv pos valid kernelDst (UInt32.ofNat off) (UInt32.ofNat DIRENT_SIZE)
      rw [read, ok_bind]
      split
      · simp
      · simp only [pure_bind]
        split
        · exact dirlookupLoop_safe name fuel _ inv locked
        · split
          · exact Safe.bind ((iget_safe inv (inv.dev dp pos) _).mono fun _ got => safe_pure got.1)
          · exact dirlookupLoop_safe name fuel _ inv locked
    · exact safe_pure inv

/-- `dirlookup` on a locked directory. -/
theorem dirlookup_safe {s : Sys} (inv : Inv sb nproc s L V) {dp : Nat} (locked : dp ∈ V) (name : List UInt8) :
    Safe (dirlookup sb s dp name) fun r =>
      Inv sb nproc r.2 (match r.1 with | some (ip, _) => ip ::ₘ L | none => L) V := by
  unfold dirlookup
  split
  · simp
  · exact dirlookupLoop_safe name _ 0 inv locked

/-- The scan of `dirlink` only reads. -/
theorem dirlinkScan_keeps {s : Sys} (inv : Inv sb nproc s L V) {dp : Nat} (locked : dp ∈ V) :
    ∀ fuel off, Safe (dirlinkScan sb dp fuel off s) fun r => r.2 = s
  | 0, _ => safe_pure rfl
  | fuel + 1, off => by
    unfold dirlinkScan
    dsimp only
    split
    · obtain ⟨r, read⟩ := readiSlot_keeps inv (inv.ref_pos (inv.locked dp locked).1) (inv.locked dp locked).2.1
        kernelDst (UInt32.ofNat off) (UInt32.ofNat DIRENT_SIZE)
      rw [read, ok_bind]
      split
      · simp
      · simp only [pure_bind]
        split
        · exact safe_pure rfl
        · exact dirlinkScan_keeps inv locked fuel _
    · exact safe_pure rfl

/-- `dirlink` on a locked directory. -/
theorem dirlink_safe (wf : sb.WellFormed) {s : Sys} (inv : Inv sb nproc s L V) {dp : Nat} (locked : dp ∈ V)
    (name : List UInt8) (inum : Nat) : Safe (dirlink sb s dp name inum) fun r => Inv sb nproc r.2 L V := by
  unfold dirlink
  refine Safe.bind ((dirlookup_safe inv locked name).mono fun r found => ?_)
  rcases r with ⟨_ | ⟨ip, off⟩, s1⟩
  · dsimp only
    refine Safe.bind ((dirlinkScan_keeps found locked _ 0).mono fun r same => ?_)
    obtain ⟨off', s2⟩ := r
    cases same
    refine Safe.bind ((writeiSlot_safe wf found (found.ref_pos (found.locked dp locked).1)
      (found.locked dp locked).2.1 _ _ _).mono fun r written => ?_)
    split
    · simp
    · exact safe_pure written
  · dsimp only
    refine Safe.bind ((iput_safe wf found (Multiset.mem_cons_self ip L) fun mem => ?_).mono fun s2 put => ?_)
    · rw [Multiset.erase_cons_head]
      exact (inv.locked ip mem).1
    · rw [Multiset.erase_cons_head] at put
      exact safe_pure put

end Directories

theorem cons_cons_erase {α : Type} [DecidableEq α] (a b : α) (s : Multiset α) : (a ::ₘ b ::ₘ s).erase b = a ::ₘ s := by
  rw [Multiset.cons_swap, Multiset.erase_cons_head]

section Names

variable {sb : Superblock} {nproc : Nat} {V : Finset Nat} (wf : sb.WellFormed)
include wf

/-- The walk of `namex` from a local reference: it ends with the slot it returns as the
only local it adds, and drops the one it started from. -/
theorem namexLoop_safe (nameiparent : Bool) (parentFree : nameiparent = true → V = ∅) :
    ∀ (fuel ip : Nat) (path name : List UInt8) {s : Sys} {L : Multiset Nat}, Inv sb nproc s (ip ::ₘ L) V →
      Safe (namexLoop sb nameiparent fuel ip path name s) fun r =>
        Inv sb nproc r.2 (match r.1 with | some (ip', _) => ip' ::ₘ L | none => L) V
  | 0, _, _, _, _, _, inv => safe_pure inv
  | fuel + 1, ip, path, name, s, L, inv => by
    unfold namexLoop
    split
    · split
      · rename_i parent
        refine Safe.bind ((iput_safe wf inv (Multiset.mem_cons_self ip L) fun mem => ?_).mono fun s1 put => ?_)
        · rw [parentFree parent] at mem
          exact absurd mem (Finset.not_mem_empty ip)
        · rw [Multiset.erase_cons_head] at put
          exact safe_pure put
      · exact safe_pure inv
    · rename_i name' rest _
      refine Safe.bind ((ilock_locked inv (Multiset.mem_cons_self ip L)).mono fun s1 ⟨inv1, fresh⟩ => ?_)
      split
      · refine Safe.bind ((iunlockput_safe wf inv1 (Multiset.mem_cons_self ip L)).mono fun s2 put => ?_)
        rw [Multiset.erase_cons_head, Finset.erase_insert fresh] at put
        exact safe_pure put
      · split
        · refine Safe.bind ((iunlock_safe inv1 ip).mono fun s2 unlocked => ?_)
          rw [Finset.erase_insert fresh] at unlocked
          exact safe_pure unlocked
        · refine Safe.bind ((dirlookup_safe inv1 (Finset.mem_insert_self ip V) name').mono fun r found => ?_)
          rcases r with ⟨_ | ⟨next, off⟩, s2⟩
          · dsimp only
            refine Safe.bind ((iunlockput_safe wf found (Multiset.mem_cons_self ip L)).mono fun s3 put => ?_)
            rw [Multiset.erase_cons_head, Finset.erase_insert fresh] at put
            exact safe_pure put
          · dsimp only
            refine Safe.bind ((iunlockput_safe wf found
              (Multiset.mem_cons_of_mem (Multiset.mem_cons_self ip L))).mono fun s3 put => ?_)
            rw [cons_cons_erase, Finset.erase_insert fresh] at put
            exact namexLoop_safe nameiparent parentFree fuel next rest name' put

/-- `namex` from the root or from the current directory of a running process. -/
theorem namex_safe {s : Sys} {L : Multiset Nat} (inv : Inv sb nproc s L V) (running : s.cur < nproc)
    (path : List UInt8) (nameiparent : Bool) (parentFree : nameiparent = true → V = ∅) :
    Safe (namex sb s path nameiparent) fun r =>
      Inv sb nproc r.2 (match r.1 with | some (ip, _) => ip ::ₘ L | none => L) V := by
  unfold namex
  dsimp only
  split
  · exact Safe.bind ((iget_safe inv rfl ROOTINO).mono fun _ got =>
      namexLoop_safe wf nameiparent parentFree _ _ _ _ got.1)
  · have held := inv.refs (s.procs s.cur).cwd
    have cwd := heldRefs_cwd_pos s running
    exact namexLoop_safe wf nameiparent parentFree _ _ _ _ (inv.raise (by omega))

theorem namei_safe {s : Sys} {L : Multiset Nat} (inv : Inv sb nproc s L V) (running : s.cur < nproc)
    (path : List UInt8) :
    Safe (namei sb s path) fun r => Inv sb nproc r.2 (match r.1 with | some ip => ip ::ₘ L | none => L) V :=
  Safe.bind ((namex_safe wf inv running path false nofun).mono fun r found => by
    rcases r with ⟨_ | ⟨ip, name⟩, s1⟩ <;> exact safe_pure found)

theorem nameiparent_safe {s : Sys} {L : Multiset Nat} (inv : Inv sb nproc s L ∅) (running : s.cur < nproc)
    (path : List UInt8) :
    Safe (nameiparent sb s path) fun r =>
      Inv sb nproc r.2 (match r.1 with | some (ip, _) => ip ::ₘ L | none => L) ∅ :=
  namex_safe wf inv running path true fun _ => rfl

end Names

end Xv6Fs
