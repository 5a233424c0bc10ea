import Xv6Fs.Invariant

/-!
# The block map is injective and stable

From a state the block accounting holds of, every run of `bmap` calls on one inode
returns distinct blocks for distinct logical blocks below `MAXFILE`, and the same block
each time the same logical block is asked for.  No block it returns is one of the
inode's index blocks or a block of another allocated inode, and asking again after the
run returns the same block and allocates nothing.

Each call fills places of the map with fresh blocks and then keeps the block of the
logical block at its place (`grows_bmap`); the accounting, which every fill keeps,
makes the pointers of all allocated inodes distinct, and distinct logical blocks have
distinct places (`dataPos_inj`).
-/

namespace Xv6Fs

section Calls

variable (sb : Superblock)

/-- `bmap` called for each logical block of `bns` in turn, on the disk and the inode as
the calls before leave them: the blocks it returns. -/
def bmapAll : List Nat → Disk → Dinode → Except Halt (List Nat × Disk × Dinode)
  | [], disk, din => pure ([], disk, din)
  | bn :: bns, disk, din => do
    let (addr, disk, din) ← bmap sb disk din bn
    let (addrs, disk, din) ← bmapAll bns disk din
    pure (addr :: addrs, disk, din)

end Calls

section Run

variable {sb : Superblock} {inum : Nat} (wf : sb.WellFormed) (inRange : inum < sb.ninodes)
include wf inRange

/-- A run of `bmap` calls fills places of the map, and at its end the place of each
logical block it asked for keeps the block it returned for it. -/
theorem grows_bmapAll : ∀ (bns : List Nat) {disk disk' : Disk} {din din' : Dinode} {addrs : List Nat},
    Accounted sb (disk.setDinode inum din) → din.type ≠ 0 → (∀ bn ∈ bns, bn < MAXFILE) →
    bmapAll sb bns disk din = .ok (addrs, disk', din') →
    Grows sb disk din disk' din' ∧
      List.Forall₂ (fun bn a => bn < MAXFILE ∧ ptrAt disk' din' (dataPos bn) = some a) bns addrs
  | [], _, _, _, _, _, _, _, _, run => by
    cases run
    exact ⟨.refl _ _, .nil⟩
  | bn :: bns, disk, disk', din, din', addrs, acc, used, small, run => by
    obtain ⟨⟨a, disk1, din1⟩, first, run⟩ := bind_eq_ok.1 run
    obtain ⟨⟨addrs', disk2, din2⟩, rest, result⟩ := bind_eq_ok.1 run
    simp only [pure_eq_ok, Prod.mk.injEq] at result
    obtain ⟨rfl, rfl, rfl⟩ := result
    obtain ⟨grown, now, -⟩ := grows_bmap wf acc inRange used (small bn (List.mem_cons_self _ _)) first
    obtain ⟨grown', later⟩ := grows_bmapAll bns (grown.accounted acc inRange used) (grown.type_eq ▸ used)
      (fun b mem => small b (List.mem_cons_of_mem _ mem)) rest
    exact ⟨grown.trans grown', .cons ⟨small bn (List.mem_cons_self _ _), grown'.ptrAt_of_some now⟩ later⟩

end Run

section Mapped

variable {sb : Superblock} {disk : Disk} {inum : Nat} {din : Dinode}
  (acc : Accounted sb (disk.setDinode inum din)) (inRange : inum < sb.ninodes) (used : din.type ≠ 0)
include acc inRange used

/-- Two logical blocks below `MAXFILE` mapped to one block are one logical block. -/
theorem eq_of_mapped {bn bn' a : Nat} (small : bn < MAXFILE) (small' : bn' < MAXFILE)
    (mapped : ptrAt disk din (dataPos bn) = some a) (mapped' : ptrAt disk din (dataPos bn') = some a) : bn = bn' :=
  dataPos_inj small small' (eq_of_ptrAt_eq (nodup_ptrs acc inRange used) mapped mapped')

/-- A block that holds data is none of the inode's index blocks. -/
theorem not_index_of_mapped {bn a : Nat} (mapped : ptrAt disk din (dataPos bn) = some a) {p : PtrPos}
    (index : p.isIndex) : ptrAt disk din p ≠ some a := fun kept =>
  not_isIndex_dataPos bn (eq_of_ptrAt_eq (nodup_ptrs acc inRange used) mapped kept ▸ index)

end Mapped

/-- A run of `bmap` calls on an allocated inode, from a state the block accounting holds
of, returns for each logical block it asks for a block that `bmap` returns again at the
end without allocating, that is none of the inode's index blocks and no block of
another allocated inode; two of the blocks it returns are equal exactly when they were
asked for the same logical block. -/
theorem bmap_injective_stable {sb : Superblock} (wf : sb.WellFormed) {inum : Nat} {disk disk' : Disk}
    {din din' : Dinode} (acc : Accounted sb (disk.setDinode inum din)) (inRange : inum < sb.ninodes)
    (used : din.type ≠ 0) {bns addrs : List Nat} (small : ∀ bn ∈ bns, bn < MAXFILE)
    (run : bmapAll sb bns disk din = .ok (addrs, disk', din')) :
    List.Forall₂ (fun bn a => bmap sb disk' din' bn = .ok (a, disk', din') ∧
        (∀ p : PtrPos, p.isIndex → ptrAt disk' din' p ≠ some a) ∧
        ∀ i < sb.ninodes, i ≠ inum → a ∉ inodePtrs (disk'.setDinode inum din') i) bns addrs ∧
      ∀ bn a, (bn, a) ∈ bns.zip addrs → ∀ bn' a', (bn', a') ∈ bns.zip addrs → (a = a' ↔ bn = bn') := by
  obtain ⟨grown, mapped⟩ := grows_bmapAll wf inRange bns acc used small run
  have acc' := grown.accounted acc inRange used
  have used' : din'.type ≠ 0 := grown.type_eq ▸ used
  refine ⟨mapped.imp fun bn a ⟨lt, kept⟩ => ⟨bmap_of_ptrAt lt kept,
      fun p index => not_index_of_mapped acc' inRange used' kept index,
      fun i iRange other mem => not_ptrAt_of_other acc' inRange used' iRange other mem _ kept⟩,
    fun bn a mem bn' a' mem' => ?_⟩
  obtain ⟨lt, kept⟩ := List.forall₂_zip mapped mem
  obtain ⟨lt', kept'⟩ := List.forall₂_zip mapped mem'
  constructor
  · rintro rfl
    exact eq_of_mapped acc' inRange used' lt lt' kept kept'
  · rintro rfl
    exact Option.some.inj (kept.symm.trans kept')

/-- On the root directory of `fs1000`: a direct block it has, then blocks of the
singly- and doubly-indirect ranges, which `bmap` allocates, and one of them again. -/
theorem bmap_injective_stable_root :
    fs1000.WellFormed ∧ Accounted fs1000 ((mkfs fs1000).setDinode ROOTINO ((mkfs fs1000).dinode ROOTINO)) ∧
      ROOTINO < fs1000.ninodes ∧ ((mkfs fs1000).dinode ROOTINO).type ≠ 0 ∧ (∀ bn ∈ [0, 12, 300, 12], bn < MAXFILE) ∧
      ∃ addrs disk' din', bmapAll fs1000 [0, 12, 300, 12] (mkfs fs1000) ((mkfs fs1000).dinode ROOTINO) =
          .ok (addrs, disk', din') ∧
        List.Forall₂ (fun bn a => bmap fs1000 disk' din' bn = .ok (a, disk', din') ∧
            (∀ p : PtrPos, p.isIndex → ptrAt disk' din' p ≠ some a) ∧
            ∀ i < fs1000.ninodes, i ≠ ROOTINO → a ∉ inodePtrs (disk'.setDinode ROOTINO din') i)
          [0, 12, 300, 12] addrs ∧
        ∀ bn a, (bn, a) ∈ [0, 12, 300, 12].zip addrs → ∀ bn' a', (bn', a') ∈ [0, 12, 300, 12].zip addrs →
          (a = a' ↔ bn = bn') := by
  have acc : Accounted fs1000 ((mkfs fs1000).setDinode ROOTINO ((mkfs fs1000).dinode ROOTINO)) := by
    rw [Disk.setDinode_self]
    exact accounted_mkfs fs1000_wellFormed
  obtain ⟨⟨addrs, disk', din'⟩, run⟩ : ∃ r,
      bmapAll fs1000 [0, 12, 300, 12] (mkfs fs1000) ((mkfs fs1000).dinode ROOTINO) = .ok r := by
    have check : (bmapAll fs1000 [0, 12, 300, 12] (mkfs fs1000) ((mkfs fs1000).dinode ROOTINO)).toBool = true := by
      decide
    cases result : bmapAll fs1000 [0, 12, 300, 12] (mkfs fs1000) ((mkfs fs1000).dinode ROOTINO) with
    | error => rw [result] at check; cases check
    | ok r => exact ⟨r, rfl⟩
  exact ⟨fs1000_wellFormed, acc, by decide, by decide, by decide, addrs, disk', din', run,
    bmap_injective_stable fs1000_wellFormed acc (by decide) (by decide) (by decide) run⟩

end Xv6Fs
