import Xv6Fs.Content
import Mathlib.Data.Multiset.Bind
import Mathlib.Data.List.FinRange

/-!
# Block pointers and the free bitmap

The bitmap is kept in step with the block maps of the allocated inodes: a block is
marked in use exactly when it is a metadata block or a pointer of one allocated
inode, and no block is a pointer twice.  `Accounted` states this of a disk.

An inode keeps pointers at a fixed set of places (`PtrPos`): its direct addresses,
its two index addresses, and the entries of its index blocks.  `bmap` fills places
that held nothing with freshly allocated blocks, and `itrunc` frees every pointer
the inode keeps; both are stated here as changes to the multiset `allPtrs`.

While an inode is locked, its cache slot holds the current copy of its `dinode`
and the disk may hold an older one: the lemmas are stated over the disk with the
slot's copy written in, `disk.setDinode inum din`, which is what `iupdate` leaves.
-/

namespace Xv6Fs

/-- A place where an inode keeps a block pointer: a direct address, the singly- or
doubly-indirect address, or an entry of an index block.  `leaf j i` is entry `i` of
the second-level block that entry `j` of the doubly-indirect block names. -/
inductive PtrPos where
  | direct (k : Fin NDIRECT)
  | indirect
  | indirectEntry (j : Fin NINDIRECT)
  | doubly
  | doublyEntry (j : Fin NINDIRECT)
  | leaf (j i : Fin NINDIRECT)
  deriving DecidableEq

/-- Every place, each once.  Irreducible: its 66061 entries are never meant to be
computed. -/
@[irreducible] def PtrPos.all : List PtrPos :=
  (List.finRange NDIRECT).map .direct ++ .indirect :: (List.finRange NINDIRECT).map .indirectEntry ++
    .doubly :: (List.finRange NINDIRECT).map .doublyEntry ++
    (List.finRange NINDIRECT).flatMap fun j => (List.finRange NINDIRECT).map (.leaf j)

theorem PtrPos.mem_all (p : PtrPos) : p ∈ PtrPos.all := by
  unfold PtrPos.all
  cases p <;> simp only [List.mem_append, List.mem_cons, List.mem_map, List.mem_finRange, List.mem_flatMap,
    true_and, exists_eq, or_true, true_or, reduceCtorEq, PtrPos.leaf.injEq, PtrPos.direct.injEq,
    PtrPos.indirectEntry.injEq, PtrPos.doublyEntry.injEq, exists_eq_right, and_true, exists_const]

theorem PtrPos.nodup_all : PtrPos.all.Nodup := by
  unfold PtrPos.all
  have fin : ∀ {n : Nat} {f : Fin n → PtrPos}, Function.Injective f → ((List.finRange n).map f).Nodup :=
    fun inj => (List.nodup_finRange _).map inj
  have leaves : ((List.finRange NINDIRECT).flatMap fun j => (List.finRange NINDIRECT).map (PtrPos.leaf j)).Nodup :=
    List.nodup_flatMap.2 ⟨fun _ _ => fin fun _ _ same => (PtrPos.leaf.inj same).2,
      (List.nodup_finRange _).imp fun different _ mem mem' => by
        obtain ⟨i, -, rfl⟩ := List.mem_map.1 mem
        obtain ⟨i', -, same⟩ := List.mem_map.1 mem'
        cases same
        exact different rfl⟩
  -- the parts are disjoint: their places are built with different constructors
  refine List.nodup_append.2 ⟨List.nodup_append.2 ⟨List.nodup_append.2 ⟨fin fun _ _ => PtrPos.direct.inj,
    List.nodup_cons.2 ⟨?_, fin fun _ _ => PtrPos.indirectEntry.inj⟩, ?_⟩,
    List.nodup_cons.2 ⟨?_, fin fun _ _ => PtrPos.doublyEntry.inj⟩, ?_⟩, leaves, ?_⟩ <;>
  simp only [List.Disjoint, List.mem_cons, List.mem_append, List.mem_map, List.mem_flatMap, List.mem_finRange,
    true_and, reduceCtorEq, or_imp, forall_and, forall_exists_index, forall_apply_eq_imp_iff, forall_eq, not_or,
    not_exists, not_false_eq_true, imp_self, implies_true, and_self]

/-- The places whose pointer names an index block. -/
def PtrPos.isIndex : PtrPos → Prop
  | .indirect | .doubly | .doublyEntry _ => True
  | _ => False

/-- A block number read from an address field: `0` marks an absent block. -/
def nz (b : Nat) : Option Nat :=
  if b = 0 then none else some b

@[simp] theorem nz_zero : nz 0 = none := rfl

theorem nz_eq_some {b c : Nat} : nz b = some c ↔ b ≠ 0 ∧ b = c := by
  unfold nz
  split <;> simp_all

theorem nz_eq_none {b : Nat} : nz b = none ↔ b = 0 := by
  unfold nz
  split <;> simp_all

/-- Entry `j` of the index block `parent`, when the inode keeps one. -/
def entryAt (disk : Disk) (parent : Option Nat) (j : Nat) : Option Nat :=
  parent.bind fun b => nz (disk.word b j)

@[simp] theorem entryAt_none (disk : Disk) (j : Nat) : entryAt disk none j = none := rfl

@[simp] theorem entryAt_some (disk : Disk) (b j : Nat) : entryAt disk (some b) j = nz (disk.word b j) :=
  rfl

/-- The pointer an inode keeps at a place, `none` where it keeps none. -/
def ptrAt (disk : Disk) (din : Dinode) : PtrPos → Option Nat
  | .direct k => nz (din.addrs (Fin.castAdd 2 k))
  | .indirect => nz (din.addrs indirectIndex)
  | .indirectEntry j => entryAt disk (nz (din.addrs indirectIndex)) j
  | .doubly => nz (din.addrs doublyIndex)
  | .doublyEntry j => entryAt disk (nz (din.addrs doublyIndex)) j
  | .leaf j i => entryAt disk (entryAt disk (nz (din.addrs doublyIndex)) j) i

/-- The block pointers of an inode, one for each place that keeps one. -/
def ptrs (disk : Disk) (din : Dinode) : Multiset Nat :=
  (PtrPos.all : Multiset PtrPos).filterMap (ptrAt disk din)

theorem mem_ptrs {disk : Disk} {din : Dinode} {b : Nat} : b ∈ ptrs disk din ↔ ∃ p, ptrAt disk din p = some b := by
  simp [ptrs, PtrPos.mem_all]

/-- The pointers an inode keeps depend on the disk only through the words of its
index blocks. -/
theorem ptrAt_congr {disk disk' : Disk} {din : Dinode}
    (same : ∀ p c, p.isIndex → ptrAt disk din p = some c → disk'.word c = disk.word c) :
    ptrAt disk' din = ptrAt disk din := by
  have top : ∀ p c, p.isIndex → ptrAt disk din p = some c → ∀ j, entryAt disk' (some c) j = entryAt disk (some c) j :=
    fun p c index kept j => by simp [same p c index kept]
  funext p
  cases p with
  | direct => rfl
  | indirect => rfl
  | doubly => rfl
  | indirectEntry j =>
    show entryAt disk' _ j = entryAt disk _ j
    cases kept : nz (din.addrs indirectIndex) with
    | none => rfl
    | some c => exact top .indirect c trivial kept j
  | doublyEntry j =>
    show entryAt disk' _ j = entryAt disk _ j
    cases kept : nz (din.addrs doublyIndex) with
    | none => rfl
    | some c => exact top .doubly c trivial kept j
  | leaf j i =>
    have outer : entryAt disk' (nz (din.addrs doublyIndex)) j = entryAt disk (nz (din.addrs doublyIndex)) j := by
      cases kept : nz (din.addrs doublyIndex) with
      | none => rfl
      | some c => exact top .doubly c trivial kept j
    show entryAt disk' (entryAt disk' _ j) i = entryAt disk (entryAt disk _ j) i
    rw [outer]
    cases kept : entryAt disk (nz (din.addrs doublyIndex)) j with
    | none => rfl
    | some c => exact top (.doublyEntry j) c trivial kept i

theorem filterMap_congr_of_mem {α β : Type} {f g : α → Option β} {s : Multiset α}
    (same : ∀ a ∈ s, f a = g a) : s.filterMap f = s.filterMap g :=
  Quot.inductionOn s (fun _ same => congrArg ((↑) : List β → Multiset β) (List.filterMap_congr same)) same

/-- Filling one place that held nothing adds exactly its new pointer. -/
theorem ptrs_insert {disk disk' : Disk} {din din' : Dinode} {q : PtrPos} {b : Nat}
    (was : ptrAt disk din q = none) (now : ptrAt disk' din' q = some b)
    (rest : ∀ p, p ≠ q → ptrAt disk' din' p = ptrAt disk din p) :
    ptrs disk' din' = b ::ₘ ptrs disk din := by
  have other : ∀ p ∈ (PtrPos.all : Multiset PtrPos).erase q, p ≠ q :=
    fun p mem => ((Multiset.Nodup.mem_erase_iff (Multiset.coe_nodup.2 PtrPos.nodup_all)).1 mem).1
  unfold ptrs
  rw [← Multiset.cons_erase (Multiset.mem_coe.2 (PtrPos.mem_all q)), Multiset.filterMap_cons_some _ _ _ now,
    Multiset.filterMap_cons_none _ _ was]
  exact congrArg _ (filterMap_congr_of_mem fun p mem => rest p (other p mem))

/-! ## The accounting invariant -/

section Accounting

variable (sb : Superblock)

/-- The pointers inode `inum` contributes: its block pointers while it is allocated
(of a type other than `0`), none once it is free. -/
def inodePtrs (disk : Disk) (inum : Nat) : Multiset Nat :=
  if (disk.dinode inum).type = 0 then 0 else ptrs disk (disk.dinode inum)

/-- The pointers of every allocated inode, each as often as it is kept. -/
def allPtrs (disk : Disk) : Multiset Nat :=
  (Multiset.range sb.ninodes).bind (inodePtrs disk)

/-- The bitmap agrees with the block maps: every pointer is a data block, no block is
kept twice, and a block is marked in use exactly when it is a metadata block or
kept by an allocated inode. -/
structure Accounted (disk : Disk) : Prop where
  nodup : (allPtrs sb disk).Nodup
  inData : ∀ b ∈ allPtrs sb disk, sb.dataStart ≤ b ∧ b < sb.size
  bit_iff : ∀ b < sb.size, disk.bit sb b = true ↔ b < sb.dataStart ∨ b ∈ allPtrs sb disk

variable {sb}

/-- `allPtrs` split into what inode `inum` contributes and what the others do. -/
theorem allPtrs_eq_add {disk : Disk} {inum : Nat} (inRange : inum < sb.ninodes) :
    allPtrs sb disk = inodePtrs disk inum + ((Multiset.range sb.ninodes).erase inum).bind (inodePtrs disk) := by
  unfold allPtrs
  conv_lhs => rw [← Multiset.cons_erase (Multiset.mem_range.2 inRange)]
  rw [Multiset.cons_bind]

theorem others_bind_congr {disk disk' : Disk} {inum : Nat}
    (others : ∀ i < sb.ninodes, i ≠ inum → inodePtrs disk' i = inodePtrs disk i) :
    ((Multiset.range sb.ninodes).erase inum).bind (inodePtrs disk') =
      ((Multiset.range sb.ninodes).erase inum).bind (inodePtrs disk) :=
  Multiset.bind_congr fun i mem =>
    have ⟨other, inRange⟩ := (Multiset.Nodup.mem_erase_iff (Multiset.nodup_range _)).1 mem
    others i (Multiset.mem_range.1 inRange) other

theorem ptr_lt_of_mem {disk : Disk} {b : Nat} (acc : Accounted sb disk) (mem : b ∈ allPtrs sb disk) :
    sb.dataStart ≤ b ∧ b < sb.size :=
  acc.inData b mem

/-- `ptrAt` reads only the addresses of an inode. -/
theorem ptrAt_addrs_congr {disk : Disk} {din din' : Dinode} (same : din'.addrs = din.addrs) :
    ptrAt disk din' = ptrAt disk din := by
  funext p
  cases p <;> simp only [ptrAt, same]

/-- The accounting reads the blocks, and of each dinode only its type and addresses. -/
theorem allPtrs_congr {disk disk' : Disk} (block : disk'.block = disk.block)
    (dinode : ∀ i, (disk'.dinode i).type = (disk.dinode i).type ∧ (disk'.dinode i).addrs = (disk.dinode i).addrs) :
    allPtrs sb disk' = allPtrs sb disk := by
  unfold allPtrs
  refine Multiset.bind_congr fun i _ => ?_
  unfold inodePtrs ptrs
  rw [(dinode i).1, ptrAt_addrs_congr (dinode i).2,
    ptrAt_congr fun _ _ _ _ => funext fun j => Disk.word_congr (congrFun block _) j]

theorem Accounted.congr {disk disk' : Disk} (acc : Accounted sb disk) (block : disk'.block = disk.block)
    (dinode : ∀ i, (disk'.dinode i).type = (disk.dinode i).type ∧ (disk'.dinode i).addrs = (disk.dinode i).addrs) :
    Accounted sb disk' := by
  have all : allPtrs sb disk' = allPtrs sb disk := allPtrs_congr block dinode
  refine ⟨all ▸ acc.nodup, fun b mem => acc.inData b (all ▸ mem), fun b lt => ?_⟩
  rw [all, bit_congr sb (congrFun block _)]
  exact acc.bit_iff b lt

/-- A block whose bit is clear is no pointer and no metadata block. -/
theorem not_mem_of_bit_false {disk : Disk} {b : Nat} (acc : Accounted sb disk) (bound : b < sb.size)
    (free : disk.bit sb b = false) : b ∉ allPtrs sb disk ∧ sb.dataStart ≤ b := by
  have := acc.bit_iff b bound
  rw [free] at this
  simp only [Bool.false_eq_true, false_iff, not_or, not_lt] at this
  exact ⟨this.2, this.1⟩

/-- One more pointer `b` for inode `inum`, and the same pointers for the others. -/
theorem allPtrs_insert {disk disk' : Disk} {inum b : Nat} (inRange : inum < sb.ninodes)
    (grown : inodePtrs disk' inum = b ::ₘ inodePtrs disk inum)
    (others : ∀ i < sb.ninodes, i ≠ inum → inodePtrs disk' i = inodePtrs disk i) :
    allPtrs sb disk' = b ::ₘ allPtrs sb disk := by
  rw [allPtrs_eq_add inRange, allPtrs_eq_add inRange, grown, others_bind_congr others, Multiset.cons_add]

/-- Keeping one more block, freshly allocated, keeps the bitmap in step. -/
theorem accounted_insert {disk disk' : Disk} {b : Nat} (acc : Accounted sb disk)
    (all : allPtrs sb disk' = b ::ₘ allPtrs sb disk) (bound : b < sb.size) (free : disk.bit sb b = false)
    (bits : ∀ c < sb.size, disk'.bit sb c = (disk.bit sb c || decide (c = b))) :
    Accounted sb disk' := by
  obtain ⟨fresh, data⟩ := not_mem_of_bit_false acc bound free
  refine ⟨?_, ?_, ?_⟩
  · rw [all]
    exact Multiset.nodup_cons.2 ⟨fresh, acc.nodup⟩
  · intro c mem
    rw [all, Multiset.mem_cons] at mem
    rcases mem with rfl | mem
    · exact ⟨data, bound⟩
    · exact acc.inData c mem
  · intro c upper
    rw [bits c upper, all, Multiset.mem_cons, Bool.or_eq_true, acc.bit_iff c upper, decide_eq_true_iff,
      or_assoc, @or_comm (c ∈ allPtrs sb disk)]

/-- Dropping every pointer of a freed inode and clearing exactly their bits keeps the
bitmap in step. -/
theorem accounted_remove {disk disk' : Disk} {inum : Nat} (acc : Accounted sb disk)
    (inRange : inum < sb.ninodes) (freed : inodePtrs disk' inum = 0)
    (others : ∀ i < sb.ninodes, i ≠ inum → inodePtrs disk' i = inodePtrs disk i)
    (bits : ∀ c < sb.size, disk'.bit sb c = (disk.bit sb c && decide (c ∉ inodePtrs disk inum))) :
    Accounted sb disk' := by
  have all : allPtrs sb disk = inodePtrs disk inum + allPtrs sb disk' := by
    rw [allPtrs_eq_add inRange, @allPtrs_eq_add _ disk' _ inRange, freed, others_bind_congr others,
      zero_add]
  have nodup := acc.nodup
  rw [all] at nodup
  have mem_old : ∀ c ∈ allPtrs sb disk', c ∈ allPtrs sb disk := fun c mem => by
    rw [all]; exact Multiset.mem_add.2 (.inr mem)
  refine ⟨Multiset.nodup_of_le (Multiset.le_add_left _ _) nodup,
    fun c mem => acc.inData c (mem_old c mem), fun c upper => ?_⟩
  rw [bits c upper, Bool.and_eq_true, acc.bit_iff c upper, decide_eq_true_iff]
  constructor
  · rintro ⟨meta | mem, kept⟩
    · exact .inl meta
    · rw [all, Multiset.mem_add] at mem
      exact .inr (mem.resolve_left kept)
  · rintro (meta | mem)
    · refine ⟨.inl meta, fun gone => ?_⟩
      have := (acc.inData c (by rw [all]; exact Multiset.mem_add.2 (.inl gone))).1
      omega
    · exact ⟨.inr (mem_old c mem), fun gone => Multiset.disjoint_left.1 (Multiset.disjoint_of_nodup_add nodup) gone mem⟩

end Accounting

/-! ## Places and their pointers -/

/-- The place of address `addrs[k]`. -/
def PtrPos.ofAddr (k : Fin (NDIRECT + 2)) : PtrPos :=
  if direct : k.val < NDIRECT then .direct ⟨k.val, direct⟩
  else if k.val = NDIRECT then .indirect else .doubly

theorem ptrAt_ofAddr (disk : Disk) (din : Dinode) (k : Fin (NDIRECT + 2)) :
    ptrAt disk din (PtrPos.ofAddr k) = nz (din.addrs k) := by
  unfold PtrPos.ofAddr
  split
  · rfl
  · split
    · rename_i single
      have : k = indirectIndex := Fin.ext single
      subst this
      rfl
    · have : k = doublyIndex := Fin.ext (by have := k.isLt; simp only [doublyIndex]; omega)
      subst this
      rfl

/-- The place of entry `j` of the index block kept at place `par`. -/
def PtrPos.child : PtrPos → Fin NINDIRECT → PtrPos
  | .indirect, j => .indirectEntry j
  | .doubly, j => .doublyEntry j
  | .doublyEntry j0, j => .leaf j0 j
  | p, _ => p

theorem ptrAt_child (disk : Disk) (din : Dinode) {par : PtrPos} (index : par.isIndex) (j : Fin NINDIRECT) :
    ptrAt disk din (par.child j) = entryAt disk (ptrAt disk din par) j := by
  cases par <;> first | rfl | exact index.elim

/-- Within one inode, two places keep the same block only if they are one place. -/
theorem eq_of_ptrAt_eq {disk : Disk} {din : Dinode} (nodup : (ptrs disk din).Nodup) {p p' : PtrPos} {c : Nat}
    (at_p : ptrAt disk din p = some c) (at_p' : ptrAt disk din p' = some c) : p = p' := by
  by_contra different
  have mem : p' ∈ (PtrPos.all : Multiset PtrPos).erase p :=
    (Multiset.mem_erase_of_ne (Ne.symm different)).2 (Multiset.mem_coe.2 (PtrPos.mem_all p'))
  unfold ptrs at nodup
  rw [← Multiset.cons_erase (Multiset.mem_coe.2 (PtrPos.mem_all p)), ← Multiset.cons_erase mem,
    Multiset.filterMap_cons_some _ _ _ at_p, Multiset.filterMap_cons_some _ _ _ at_p'] at nodup
  exact (Multiset.nodup_cons.1 nodup).1 (Multiset.mem_cons_self _ _)

section Locked

variable {sb : Superblock} {disk : Disk} {inum : Nat} {din : Dinode}

/-- What an allocated inode, whose current copy is `din`, contributes to `allPtrs`. -/
theorem inodePtrs_setDinode (used : din.type ≠ 0) :
    inodePtrs (disk.setDinode inum din) inum = ptrs disk din := by
  simp [inodePtrs, used]
  rfl

theorem ptrs_le_allPtrs (inRange : inum < sb.ninodes) (used : din.type ≠ 0) :
    ptrs disk din ≤ allPtrs sb (disk.setDinode inum din) := by
  rw [allPtrs_eq_add inRange, inodePtrs_setDinode used]
  exact Multiset.le_add_right _ _

theorem nodup_ptrs (acc : Accounted sb (disk.setDinode inum din)) (inRange : inum < sb.ninodes)
    (used : din.type ≠ 0) : (ptrs disk din).Nodup :=
  Multiset.nodup_of_le (ptrs_le_allPtrs inRange used) acc.nodup

theorem mem_allPtrs_of_ptrAt (inRange : inum < sb.ninodes) (used : din.type ≠ 0) {p : PtrPos} {c : Nat}
    (kept : ptrAt disk din p = some c) : c ∈ allPtrs sb (disk.setDinode inum din) :=
  Multiset.mem_of_le (ptrs_le_allPtrs inRange used) (mem_ptrs.2 ⟨p, kept⟩)

/-- A pointer of another allocated inode is none of `din`'s. -/
theorem not_ptrAt_of_other (acc : Accounted sb (disk.setDinode inum din)) (inRange : inum < sb.ninodes)
    (used : din.type ≠ 0) {i c : Nat} (iRange : i < sb.ninodes) (other : i ≠ inum)
    (mem : c ∈ inodePtrs (disk.setDinode inum din) i) (p : PtrPos) : ptrAt disk din p ≠ some c := by
  intro kept
  have nodup := acc.nodup
  rw [allPtrs_eq_add inRange] at nodup
  have rest : c ∈ ((Multiset.range sb.ninodes).erase inum).bind (inodePtrs (disk.setDinode inum din)) :=
    Multiset.mem_bind.2 ⟨i, (Multiset.mem_erase_of_ne other).2 (Multiset.mem_range.2 iRange), mem⟩
  rw [inodePtrs_setDinode used] at nodup
  exact Multiset.disjoint_left.1 (Multiset.disjoint_of_nodup_add nodup) (mem_ptrs.2 ⟨p, kept⟩) rest

end Locked

/-- `(disk', din')` is `(disk, din)` with place `q` filled by block `b`, which was free
and is now marked in use: no other place changed, and the only blocks written are
`b`, bitmap blocks and index blocks of the inode. -/
structure Fills (sb : Superblock) (disk : Disk) (din : Dinode) (disk' : Disk) (din' : Dinode)
    (q : PtrPos) (b : Nat) : Prop where
  was : ptrAt disk din q = none
  now : ptrAt disk' din' q = some b
  rest : ∀ p, p ≠ q → ptrAt disk' din' p = ptrAt disk din p
  bound : b < sb.size
  free : disk.bit sb b = false
  bits : ∀ c < sb.size, disk'.bit sb c = (disk.bit sb c || decide (c = b))
  zero : ∀ i, disk'.block b i = 0
  blocks : ∀ c, disk'.block c ≠ disk.block c →
    c = b ∨ c < sb.dataStart ∨ ∃ p, p.isIndex ∧ ptrAt disk din p = some c
  dinodes : disk'.dinode = disk.dinode
  fields : din' = { din with addrs := din'.addrs }

theorem Fills.type {sb : Superblock} {disk disk' : Disk} {din din' : Dinode} {q : PtrPos} {b : Nat}
    (fills : Fills sb disk din disk' din' q b) : din'.type = din.type := by
  rw [fills.fields]

theorem Fills.size {sb : Superblock} {disk disk' : Disk} {din din' : Dinode} {q : PtrPos} {b : Nat}
    (fills : Fills sb disk din disk' din' q b) : din'.size = din.size := by
  rw [fills.fields]

/-- A fill takes exactly one free block, its own. -/
theorem Fills.card_freeBlocks {sb : Superblock} {disk disk' : Disk} {din din' : Dinode} {q : PtrPos} {b : Nat}
    (fills : Fills sb disk din disk' din' q b) : (freeBlocks sb disk).card = (freeBlocks sb disk').card + 1 := by
  have taken : freeBlocks sb disk = insert b (freeBlocks sb disk') := by
    ext c
    simp only [freeBlocks, Finset.mem_insert, Finset.mem_filter, Finset.mem_range]
    by_cases same : c = b
    · simp [same, fills.bound, fills.free]
    · by_cases small : c < sb.size
      · simp [same, small, fills.bits c small]
      · simp [same, small]
  rw [taken, Finset.card_insert_of_not_mem (by simp [freeBlocks, fills.bits b fills.bound])]

/-- A write that touches no pointer of another allocated inode: every block it changes
is kept by no inode, is a metadata block, or is one of `din`'s. -/
def WritesOwn (sb : Superblock) (disk : Disk) (inum : Nat) (din : Dinode) (disk' : Disk) : Prop :=
  ∀ c, disk'.block c ≠ disk.block c →
    c ∉ allPtrs sb (disk.setDinode inum din) ∨ c < sb.dataStart ∨ ∃ p, ptrAt disk din p = some c

section Others

variable {sb : Superblock} {disk disk' : Disk} {inum : Nat} {din din' : Dinode}
  (acc : Accounted sb (disk.setDinode inum din)) (inRange : inum < sb.ninodes) (used : din.type ≠ 0)
  (dinodes : disk'.dinode = disk.dinode) (writes : WritesOwn sb disk inum din disk')
  {i : Nat} (iRange : i < sb.ninodes) (other : i ≠ inum)
include acc inRange used dinodes writes iRange other

omit dinodes in
/-- Such a write leaves every block of another allocated inode as it was. -/
theorem block_of_writesOwn {c : Nat} (mem : c ∈ inodePtrs (disk.setDinode inum din) i) :
    disk'.block c = disk.block c := by
  have kept : c ∈ allPtrs sb (disk.setDinode inum din) :=
    Multiset.mem_bind.2 ⟨i, Multiset.mem_range.2 iRange, mem⟩
  by_contra changed
  rcases writes c changed with fresh | meta | ⟨p, own⟩
  · exact fresh kept
  · have := (acc.inData c kept).1
    omega
  · exact not_ptrAt_of_other acc inRange used iRange other mem p own

omit dinodes in
/-- Such a write leaves the pointers of another allocated inode as they were. -/
theorem ptrAt_of_writesOwn (allocated : ((disk.setDinode inum din).dinode i).type ≠ 0) :
    ptrAt disk' ((disk.setDinode inum din).dinode i) = ptrAt disk ((disk.setDinode inum din).dinode i) := by
  refine ptrAt_congr fun p c _ kept => funext fun j => Disk.word_congr ?_ j
  refine block_of_writesOwn acc inRange used writes iRange other ?_
  simp only [inodePtrs, allocated, if_false]
  exact mem_ptrs.2 ⟨p, kept⟩

theorem inodePtrs_of_writesOwn :
    inodePtrs (disk'.setDinode inum din') i = inodePtrs (disk.setDinode inum din) i := by
  have dinode : (disk'.setDinode inum din').dinode i = (disk.setDinode inum din).dinode i := by
    simp [setAt_ne _ _ _ other, dinodes]
  unfold inodePtrs
  rw [dinode]
  split
  · rfl
  · rename_i allocated
    exact congrArg (Multiset.filterMap · _) (ptrAt_of_writesOwn acc inRange used writes iRange other allocated)

end Others

theorem Fills.writesOwn {sb : Superblock} {disk disk' : Disk} {din din' : Dinode} {inum b : Nat}
    {q : PtrPos} (acc : Accounted sb (disk.setDinode inum din)) (fills : Fills sb disk din disk' din' q b) :
    WritesOwn sb disk inum din disk' := fun c changed => by
  rcases fills.blocks c changed with rfl | meta | ⟨p, _, own⟩
  · exact .inl (not_mem_of_bit_false acc fills.bound fills.free).1
  · exact .inr (.inl meta)
  · exact .inr (.inr ⟨p, own⟩)

/-- Filling a place adds exactly its block to `allPtrs`. -/
theorem allPtrs_of_fills {sb : Superblock} {disk disk' : Disk} {din din' : Dinode} {inum b : Nat}
    {q : PtrPos} (acc : Accounted sb (disk.setDinode inum din)) (inRange : inum < sb.ninodes)
    (used : din.type ≠ 0) (fills : Fills sb disk din disk' din' q b) :
    allPtrs sb (disk'.setDinode inum din') = b ::ₘ allPtrs sb (disk.setDinode inum din) := by
  have used' : din'.type ≠ 0 := fills.type ▸ used
  refine allPtrs_insert inRange ?_ fun i iRange other =>
    inodePtrs_of_writesOwn acc inRange used fills.dinodes (fills.writesOwn acc) iRange other
  rw [inodePtrs_setDinode used, inodePtrs_setDinode used']
  exact ptrs_insert fills.was fills.now fills.rest

theorem accounted_of_fills {sb : Superblock} {disk disk' : Disk} {din din' : Dinode} {inum b : Nat}
    {q : PtrPos} (acc : Accounted sb (disk.setDinode inum din)) (inRange : inum < sb.ninodes)
    (used : din.type ≠ 0) (fills : Fills sb disk din disk' din' q b) :
    Accounted sb (disk'.setDinode inum din') :=
  accounted_insert acc (allPtrs_of_fills acc inRange used fills) fills.bound fills.free fills.bits

/-! ## Filling a place: the steps of `bmap` -/

theorem PtrPos.ofAddr_castAdd (k : Fin NDIRECT) : PtrPos.ofAddr (Fin.castAdd 2 k) = .direct k := by
  simp [PtrPos.ofAddr, k.isLt]

theorem PtrPos.ofAddr_indirectIndex : PtrPos.ofAddr indirectIndex = .indirect := rfl

theorem PtrPos.ofAddr_doublyIndex : PtrPos.ofAddr doublyIndex = .doubly := rfl

/-- Storing a zeroed block into an empty address changes no place but its own. -/
theorem ptrAt_setAddr {disk : Disk} {din : Dinode} {k : Fin (NDIRECT + 2)} {b : Nat}
    (empty : din.addrs k = 0) (zeroed : ∀ j, disk.word b j = 0) {p : PtrPos}
    (other : p ≠ PtrPos.ofAddr k) :
    ptrAt disk { din with addrs := setAt din.addrs k b } p = ptrAt disk din p := by
  have keep : ∀ k', k' ≠ k → setAt din.addrs k b k' = din.addrs k' := fun _ different => setAt_ne _ _ _ different
  have below : ∀ j, entryAt disk (nz (setAt din.addrs k b k)) j = entryAt disk (nz (din.addrs k)) j := by
    intro j
    rw [setAt_same, empty]
    unfold nz
    split <;> simp [zeroed]
  cases p with
  | direct k' =>
    have : Fin.castAdd 2 k' ≠ k := by rintro rfl; exact other (PtrPos.ofAddr_castAdd k').symm
    simp only [ptrAt, keep _ this]
  | indirect =>
    have : indirectIndex ≠ k := by rintro rfl; exact other PtrPos.ofAddr_indirectIndex.symm
    simp only [ptrAt, keep _ this]
  | doubly =>
    have : doublyIndex ≠ k := by rintro rfl; exact other PtrPos.ofAddr_doublyIndex.symm
    simp only [ptrAt, keep _ this]
  | indirectEntry j =>
    by_cases same : indirectIndex = k
    · subst same; exact below j
    · simp only [ptrAt, keep _ same]
  | doublyEntry j =>
    by_cases same : doublyIndex = k
    · subst same; exact below j
    · simp only [ptrAt, keep _ same]
  | leaf j i =>
    by_cases same : doublyIndex = k
    · subst same
      show entryAt disk (entryAt disk _ j) i = entryAt disk (entryAt disk _ j) i
      rw [below j]
    · simp only [ptrAt, keep _ same]

theorem ensureAddr_cases {sb : Superblock} {disk disk' : Disk} {din din' : Dinode} {k : Fin (NDIRECT + 2)}
    {addr : Nat} (run : ensureAddr sb disk din k = .ok (addr, disk', din')) :
    (din.addrs k ≠ 0 ∧ addr = din.addrs k ∧ disk' = disk ∧ din' = din) ∨
      (din.addrs k = 0 ∧ balloc sb disk = .ok (disk', addr) ∧
        din' = { din with addrs := setAt din.addrs k addr }) := by
  unfold ensureAddr at run
  split at run
  · obtain ⟨⟨disk1, b⟩, alloc, result⟩ := bind_eq_ok.1 run
    simp only [pure_eq_ok, Prod.mk.injEq] at result
    obtain ⟨rfl, rfl, rfl⟩ := result
    exact .inr ⟨‹_›, alloc, rfl⟩
  · simp only [pure_eq_ok, Prod.mk.injEq] at run
    obtain ⟨rfl, rfl, rfl⟩ := run
    exact .inl ⟨‹_›, rfl, rfl, rfl⟩

theorem ensureWord_cases {sb : Superblock} {disk disk' : Disk} {blk j addr : Nat}
    (run : ensureWord sb disk blk j = .ok (addr, disk')) :
    (disk.word blk j ≠ 0 ∧ addr = disk.word blk j ∧ disk' = disk) ∨
      (disk.word blk j = 0 ∧ ∃ disk1, balloc sb disk = .ok (disk1, addr) ∧ disk' = disk1.setWord blk j addr) := by
  unfold ensureWord at run
  split at run
  · obtain ⟨⟨disk1, b⟩, alloc, result⟩ := bind_eq_ok.1 run
    simp only [pure_eq_ok, Prod.mk.injEq] at result
    obtain ⟨rfl, rfl⟩ := result
    exact .inr ⟨‹_›, disk1, alloc, rfl⟩
  · simp only [pure_eq_ok, Prod.mk.injEq] at run
    obtain ⟨rfl, rfl⟩ := run
    exact .inl ⟨‹_›, rfl, rfl⟩

section Steps

variable {sb : Superblock} {disk disk' : Disk} {inum addr : Nat} {din : Dinode}

/-- What `balloc` writes: the bitmap block of the new block, and the new block. -/
theorem block_balloc_ne (alloc : balloc sb disk = .ok (disk', addr)) {c : Nat} (notNew : c ≠ addr)
    (notBitmap : c ≠ sb.BBLOCK addr) : disk'.block c = disk.block c := by
  obtain ⟨-, -, -, rfl⟩ := balloc_ok alloc
  rw [bzero, Disk.zeroBlock_block_ne notNew, Disk.setBit, Disk.setByte_block_ne _ _ notBitmap]

theorem block_balloc_new (alloc : balloc sb disk = .ok (disk', addr)) (i : Nat) : disk'.block addr i = 0 := by
  obtain ⟨-, -, -, rfl⟩ := balloc_ok alloc
  simp [bzero, Disk.zeroBlock]

theorem word_balloc_new (alloc : balloc sb disk = .ok (disk', addr)) (j : Nat) : disk'.word addr j = 0 := by
  obtain ⟨-, -, -, rfl⟩ := balloc_ok alloc
  exact Disk.word_zeroBlock_same _ _ _

theorem dinode_balloc (alloc : balloc sb disk = .ok (disk', addr)) : disk'.dinode = disk.dinode := by
  obtain ⟨-, -, -, rfl⟩ := balloc_ok alloc
  rfl

variable (wf : sb.WellFormed) (acc : Accounted sb (disk.setDinode inum din)) (inRange : inum < sb.ninodes)
  (used : din.type ≠ 0)
include wf acc inRange used

omit inRange used in
/-- The block `balloc` returns is a data block no allocated inode keeps, and only the
bits of it change. -/
theorem balloc_fresh (alloc : balloc sb disk = .ok (disk', addr)) :
    addr < sb.size ∧ disk.bit sb addr = false ∧ addr ∉ allPtrs sb (disk.setDinode inum din) ∧
      sb.dataStart ≤ addr ∧ 0 < addr ∧ sb.BBLOCK addr < sb.dataStart ∧
      ∀ c < sb.size, disk'.bit sb c = (disk.bit sb c || decide (c = addr)) := by
  obtain ⟨bound, free, -, result⟩ := balloc_ok alloc
  obtain ⟨fresh, data⟩ := not_mem_of_bit_false acc bound free
  have bitmap : sb.BBLOCK addr < sb.dataStart := wf.bitmapBelowData addr bound
  have : 0 < sb.dataStart :=
    Nat.lt_of_le_of_lt (Nat.zero_le _) (wf.bitmapBelowData 0 (by have := wf.rootBlockFits; omega))
  refine ⟨bound, free, fresh, data, by omega, bitmap, fun c upper => ?_⟩
  have covered := wf.bitmapBelowData c upper
  subst result
  rw [bzero, bit_congr sb (Disk.zeroBlock_block_ne (by omega)), bit_setBit]

/-- An index block of the inode is untouched by `balloc`. -/
theorem word_balloc_index (alloc : balloc sb disk = .ok (disk', addr)) {p : PtrPos} {c : Nat}
    (kept : ptrAt disk din p = some c) : disk'.word c = disk.word c := by
  obtain ⟨-, -, fresh, data, -, bitmap, -⟩ := balloc_fresh wf acc alloc
  have mem := mem_allPtrs_of_ptrAt inRange used kept
  have := (acc.inData c mem).1
  exact funext fun j => Disk.word_congr
    (block_balloc_ne alloc (fun same => fresh (same ▸ mem)) (by omega)) j

/-- `ensureAddr` storing a fresh block fills the place of `addrs[k]`. -/
theorem fills_ensureAddr {k : Fin (NDIRECT + 2)} (empty : din.addrs k = 0)
    (alloc : balloc sb disk = .ok (disk', addr)) :
    Fills sb disk din disk' { din with addrs := setAt din.addrs k addr } (.ofAddr k) addr := by
  obtain ⟨bound, free, fresh, data, positive, bitmap, bits⟩ := balloc_fresh wf acc alloc
  have congr : ptrAt disk' din = ptrAt disk din :=
    ptrAt_congr fun _ _ _ kept => word_balloc_index wf acc inRange used alloc kept
  refine ⟨?_, ?_, fun p other => ?_, bound, free, bits, block_balloc_new alloc, fun c changed => ?_,
    dinode_balloc alloc, rfl⟩
  · rw [ptrAt_ofAddr, empty]
    rfl
  · rw [ptrAt_ofAddr]
    simp [nz, Nat.pos_iff_ne_zero.1 positive]
  · rw [ptrAt_setAddr empty (word_balloc_new alloc) other, congr]
  · by_cases notNew : c = addr
    · exact .inl notNew
    · refine .inr (.inl ?_)
      by_contra far
      exact changed (block_balloc_ne alloc notNew (by omega))

/-- `ensureWord` storing a fresh block into entry `j` of the index block kept at `par`
fills the place of that entry. -/
theorem fills_ensureWord {par : PtrPos} {blk : Nat} {disk1 : Disk} (index : par.isIndex)
    (atPar : ptrAt disk din par = some blk) (j : Fin NINDIRECT) (empty : disk.word blk j = 0)
    (alloc : balloc sb disk = .ok (disk1, addr)) :
    Fills sb disk din (disk1.setWord blk j addr) din (par.child j) addr := by
  obtain ⟨bound, free, fresh, data, positive, bitmap, bits⟩ := balloc_fresh wf acc alloc
  have nodup := nodup_ptrs acc inRange used
  have blkMem := mem_allPtrs_of_ptrAt inRange used atPar
  have blkData := (acc.inData blk blkMem).1
  have blkNew : blk ≠ addr := fun same => fresh (same ▸ blkMem)
  have stored : (disk1.setWord blk j addr).word blk j = addr := by
    rw [Disk.word_setWord_same]
    exact Nat.mod_eq_of_lt (by have := wf.sizeFits; omega)
  have zeroed : ∀ i, (disk1.setWord blk j addr).word addr i = 0 := fun i => by
    rw [Disk.word_setWord_block_ne _ _ _ _ (Ne.symm blkNew), word_balloc_new alloc]
  have atBlk : ∀ i, i ≠ (j : Nat) → (disk1.setWord blk j addr).word blk i = disk.word blk i := fun i other => by
    rw [Disk.word_setWord_ne _ _ _ _ _ other, word_balloc_index wf acc inRange used alloc atPar]
  have atIndex : ∀ p c, ptrAt disk din p = some c → c ≠ blk →
      (disk1.setWord blk j addr).word c = disk.word c := fun p c kept other => by
    funext i
    rw [Disk.word_setWord_block_ne _ _ _ _ other, word_balloc_index wf acc inRange used alloc kept]
  -- an entry of an index block keeps its pointer, entry `j` of `blk` apart
  have entries : ∀ q, (i : Nat) → (q = par → i ≠ j) →
      entryAt (disk1.setWord blk j addr) (ptrAt disk din q) i = entryAt disk (ptrAt disk din q) i := by
    intro q i notEntry
    cases top : ptrAt disk din q with
    | none => rfl
    | some c =>
      simp only [entryAt_some]
      by_cases isBlk : c = blk
      · subst isBlk
        rw [atBlk i (notEntry (eq_of_ptrAt_eq nodup top atPar))]
      · rw [atIndex q c top isBlk]
  -- so does every place but the filled one
  have rest : ∀ p, p ≠ par.child j → ptrAt (disk1.setWord blk j addr) din p = ptrAt disk din p := by
    intro p other
    cases p with
    | indirectEntry i =>
      exact entries .indirect i fun isPar same => other (by subst isPar; exact congrArg _ (Fin.ext same))
    | doublyEntry i =>
      exact entries .doubly i fun isPar same => other (by subst isPar; exact congrArg _ (Fin.ext same))
    | leaf j0 i =>
      show entryAt _ (entryAt _ (ptrAt disk din .doubly) j0) i = entryAt _ (entryAt _ (ptrAt disk din .doubly) j0) i
      by_cases filled : par = .doubly ∧ (j0 : Nat) = j
      · obtain ⟨rfl, here⟩ := filled
        rw [atPar, entryAt_some, entryAt_some, here, stored, empty, nz_zero, entryAt_none]
        simp [nz, Nat.pos_iff_ne_zero.1 positive, zeroed]
      · rw [entries .doubly j0 fun isPar same => filled ⟨isPar.symm, same⟩]
        exact entries (.doublyEntry j0) i fun isPar same => other (by subst isPar; exact congrArg _ (Fin.ext same))
    | _ => rfl
  have parKept : ptrAt (disk1.setWord blk j addr) din par = some blk := by
    rw [rest par (by cases par <;> first | exact index.elim | simp [PtrPos.child])]
    exact atPar
  refine ⟨?_, ?_, rest, bound, free, fun c upper => ?_, fun i => ?_, fun c changed => ?_, ?_, rfl⟩
  · rw [ptrAt_child _ _ index, atPar, entryAt_some, empty]
    rfl
  · rw [ptrAt_child _ _ index, parKept, entryAt_some, stored]
    simp [nz, Nat.pos_iff_ne_zero.1 positive]
  · have covered := wf.bitmapBelowData c upper
    rw [bit_congr sb (Disk.setWord_block_ne _ _ (by omega)), bits c upper]
  · rw [Disk.setWord_block_ne _ _ (Ne.symm blkNew), block_balloc_new alloc]
  · by_cases isBlk : c = blk
    · exact .inr (.inr ⟨par, index, isBlk ▸ atPar⟩)
    · by_cases notNew : c = addr
      · exact .inl notNew
      · refine .inr (.inl ?_)
        by_contra far
        exact changed ((Disk.setWord_block_ne _ _ isBlk).trans (block_balloc_ne alloc notNew (by omega)))
  · simp [dinode_balloc alloc]

end Steps

end Xv6Fs
