import Xv6Fs.Transfer

/-!
# What `itrunc` frees

`itrunc` walks the block map of an inode and frees every pointer it keeps: the direct
blocks, the entries of the singly-indirect block and the block itself, and for the
doubly-indirect block the entries of each second-level block, each second-level
block, and the block itself.  Over a disk whose bitmap is in step with the block
maps, every one of these `bfree` calls finds its bit set, so `itrunc` never panics
with `freeing free block`, and afterwards exactly the inode's pointers are free.

`Cleared V` is the disk part-way through: the pointers kept at the places `V` are
freed.  Each loop of `itrunc` adds the places it walks.
-/

namespace Xv6Fs

theorem PtrPos.child_inj {par : PtrPos} (index : par.isIndex) {j j' : Fin NINDIRECT}
    (same : par.child j = par.child j') : j = j' := by
  cases par <;> first | exact index.elim | simpa [PtrPos.child] using same

section Truncate

variable {sb : Superblock} {disk0 : Disk} {din0 : Dinode}

/-- The disk part-way through truncating `din0`: the pointers it keeps at the places
`V` are freed, and no block but a bitmap block changed. -/
structure Cleared (sb : Superblock) (disk0 : Disk) (din0 : Dinode) (V : PtrPos → Prop) (disk : Disk) : Prop where
  bit_iff : ∀ c, disk.bit sb c = true ↔ disk0.bit sb c = true ∧ ∀ p, V p → ptrAt disk0 din0 p ≠ some c
  block : ∀ c, sb.dataStart ≤ c → disk.block c = disk0.block c
  dinode : disk.dinode = disk0.dinode

namespace Cleared

variable {V W : PtrPos → Prop} {disk : Disk}

theorem start : Cleared sb disk0 din0 (fun _ => False) disk0 :=
  ⟨fun c => by simp, fun _ _ => rfl, rfl⟩

theorem congr (cleared : Cleared sb disk0 din0 V disk) (same : ∀ p, W p ↔ V p) : Cleared sb disk0 din0 W disk :=
  ⟨fun c => by simp only [cleared.bit_iff, same], cleared.block, cleared.dinode⟩

/-- Places that keep nothing are freed by doing nothing. -/
theorem skip (cleared : Cleared sb disk0 din0 V disk) (empty : ∀ p, W p → ptrAt disk0 din0 p = none) :
    Cleared sb disk0 din0 (fun p => W p ∨ V p) disk := by
  refine ⟨fun c => ?_, cleared.block, cleared.dinode⟩
  rw [cleared.bit_iff]
  refine ⟨fun ⟨set, rest⟩ => ⟨set, fun p held => ?_⟩, fun ⟨set, rest⟩ => ⟨set, fun p v => rest p (.inr v)⟩⟩
  rcases held with w | v
  · rw [empty p w]
    exact Option.noConfusion
  · exact rest p v

/-- The words of an index block are read as they were. -/
theorem word_eq (cleared : Cleared sb disk0 din0 V disk) {c : Nat} (data : sb.dataStart ≤ c) :
    disk.word c = disk0.word c :=
  funext fun j => Disk.word_congr (cleared.block c data) j

section Visit

variable {inum : Nat} (wf : sb.WellFormed) (acc : Accounted sb (disk0.setDinode inum din0))
  (inRange : inum < sb.ninodes) (used : din0.type ≠ 0)
include wf acc inRange used

/-- Freeing the pointer kept at a place not yet freed finds its bit set. -/
theorem visit (cleared : Cleared sb disk0 din0 V disk) {q : PtrPos} (fresh : ¬V q) {v : Nat}
    (value : nz v = ptrAt disk0 din0 q) :
    ∃ disk', (v ≠ 0 → bfree sb disk v = .ok disk') ∧ (v = 0 → disk' = disk) ∧
      Cleared sb disk0 din0 (fun p => p = q ∨ V p) disk' := by
  by_cases zero : v = 0
  · subst zero
    exact ⟨disk, fun nonzero => absurd rfl nonzero, fun _ => rfl,
      cleared.skip fun p (same : p = q) => by rw [same, ← value, nz_zero]⟩
  · have kept : ptrAt disk0 din0 q = some v := by rw [← value, nz_of_ne zero]
    have mem := mem_allPtrs_of_ptrAt inRange used kept
    obtain ⟨data, bound⟩ := acc.inData v mem
    have set : disk.bit sb v = true := (cleared.bit_iff v).2 ⟨(acc.bit_iff v bound).2 (.inr mem),
      fun p held at_p => fresh (eq_of_ptrAt_eq (nodup_ptrs acc inRange used) at_p kept ▸ held)⟩
    have bitmap := wf.bitmapBelowData v bound
    refine ⟨disk.clearBit sb v, fun _ => bfree_ok_iff.2 ⟨set, rfl⟩, fun zero' => absurd zero' zero,
      fun c => ?_, fun c upper => ?_, cleared.dinode⟩
    · rw [bit_clearBit, Bool.and_eq_true, cleared.bit_iff]
      constructor
      · rintro ⟨⟨set0, rest⟩, other⟩
        refine ⟨set0, fun p held at_p => ?_⟩
        rcases held with rfl | v'
        · rw [kept] at at_p
          cases at_p
          simp at other
        · exact rest p v' at_p
      · rintro ⟨set0, rest⟩
        refine ⟨⟨set0, fun p v' => rest p (.inr v')⟩, ?_⟩
        simp only [Bool.not_eq_true', decide_eq_false_iff_not]
        rintro rfl
        exact rest q (.inl rfl) kept
    · rw [Disk.clearBit, Disk.setByte_block_ne _ _ (by omega)]
      exact cleared.block c upper

/-- `freeEntries` on the index block kept at `par` frees the pointers of its entries. -/
theorem freeEntries_ok (cleared : Cleared sb disk0 din0 V disk) {par : PtrPos} (index : par.isIndex) {blk : Nat}
    (atPar : ptrAt disk0 din0 par = some blk) (fresh : ∀ j, ¬V (par.child j)) :
    ∃ disk', freeEntries sb disk (disk.word blk) = .ok disk' ∧
      Cleared sb disk0 din0 (fun p => (∃ j, p = par.child j) ∨ V p) disk' := by
  have data := (acc.inData blk (mem_allPtrs_of_ptrAt inRange used atPar)).1
  rw [cleared.word_eq data]
  suffices walk : ∀ (l : List Nat) (disk : Disk) (V : PtrPos → Prop), l.Nodup → (∀ j ∈ l, j < NINDIRECT) →
      Cleared sb disk0 din0 V disk → (∀ j (lt : j < NINDIRECT), j ∈ l → ¬V (par.child ⟨j, lt⟩)) →
      ∃ disk', l.foldlM (fun disk j => if disk0.word blk j ≠ 0 then bfree sb disk (disk0.word blk j) else pure disk)
        disk = .ok disk' ∧
        Cleared sb disk0 din0 (fun p => (∃ j ∈ l, ∃ lt : j < NINDIRECT, p = par.child ⟨j, lt⟩) ∨ V p) disk' by
    obtain ⟨disk', run, done⟩ := walk (List.range NINDIRECT) disk V (List.nodup_range _)
      (fun j mem => List.mem_range.1 mem) cleared (fun j lt _ => fresh ⟨j, lt⟩)
    exact ⟨disk', run, done.congr fun p => by
      constructor
      · rintro (⟨j, rfl⟩ | v)
        · exact .inl ⟨j, List.mem_range.2 j.isLt, j.isLt, rfl⟩
        · exact .inr v
      · rintro (⟨j, -, lt, rfl⟩ | v)
        · exact .inl ⟨_, rfl⟩
        · exact .inr v⟩
  intro l
  induction l with
  | nil => exact fun disk V _ _ cleared _ => ⟨disk, rfl, cleared.congr fun p => by simp⟩
  | cons j l ih =>
    intro disk V nodup bounded cleared fresh
    have lt := bounded j (List.mem_cons_self _ _)
    have value : nz (disk0.word blk j) = ptrAt disk0 din0 (par.child ⟨j, lt⟩) := by
      rw [ptrAt_child _ _ index, atPar, entryAt_some]
    obtain ⟨disk1, freed, same, cleared1⟩ :=
      cleared.visit wf acc inRange used (fresh j lt (List.mem_cons_self _ _)) value
    obtain ⟨disk', run, done⟩ := ih disk1 _ (List.nodup_cons.1 nodup).2
      (fun j' mem => bounded j' (List.mem_cons_of_mem _ mem)) cleared1 fun j' lt' mem held => by
        rcases held with same' | v
        · have := PtrPos.child_inj index same'
          simp only [Fin.mk.injEq] at this
          subst this
          exact (List.nodup_cons.1 nodup).1 mem
        · exact fresh j' lt' (List.mem_cons_of_mem _ mem) v
    refine ⟨disk', ?_, done.congr fun p => ?_⟩
    · rw [List.foldlM_cons]
      by_cases zero : disk0.word blk j = 0
      · rw [if_neg (not_not.2 zero), ← same zero]
        exact run
      · rw [if_pos zero, freed zero, ok_bind]
        exact run
    · constructor
      · rintro (⟨j', mem, lt', rfl⟩ | v)
        · rcases List.mem_cons.1 mem with rfl | mem
          · exact .inr (.inl rfl)
          · exact .inl ⟨j', mem, lt', rfl⟩
        · exact .inr (.inr v)
      · rintro (⟨j', mem, lt', rfl⟩ | rfl | v)
        · exact .inl ⟨j', List.mem_cons_of_mem _ mem, lt', rfl⟩
        · exact .inl ⟨j, List.mem_cons_self _ _, lt, rfl⟩
        · exact .inr v

/-- The first loop of `itrunc` frees the direct blocks. -/
theorem itruncDirect_ok (cleared : Cleared sb disk0 din0 V disk) (fresh : ∀ i, ¬V (.direct i)) {din : Dinode}
    (same : ∀ i : Fin NDIRECT, din.addrs (Fin.castAdd 2 i) = din0.addrs (Fin.castAdd 2 i)) :
    ∃ disk', itruncDirect sb disk din =
        .ok (disk', { din with addrs := fun k => if k.val < NDIRECT then 0 else din.addrs k }) ∧
      Cleared sb disk0 din0 (fun p => (∃ i, p = .direct i) ∨ V p) disk' := by
  suffices walk : ∀ (l : List (Fin NDIRECT)) (disk : Disk) (din : Dinode) (V : PtrPos → Prop), l.Nodup →
      Cleared sb disk0 din0 V disk → (∀ i ∈ l, ¬V (.direct i)) →
      (∀ i ∈ l, din.addrs (Fin.castAdd 2 i) = din0.addrs (Fin.castAdd 2 i)) →
      ∃ disk', l.foldlM (fun (disk, din) i =>
          let k := Fin.castAdd 2 i
          if din.addrs k ≠ 0 then do
            let disk ← bfree sb disk (din.addrs k)
            pure (disk, { din with addrs := setAt din.addrs k 0 })
          else pure (disk, din)) (disk, din) =
        .ok (disk', { din with addrs := fun k => if k ∈ l.map (Fin.castAdd 2) then 0 else din.addrs k }) ∧
        Cleared sb disk0 din0 (fun p => (∃ i ∈ l, p = .direct i) ∨ V p) disk' by
    obtain ⟨disk', run, done⟩ := walk (List.finRange NDIRECT) disk din V (List.nodup_finRange _) cleared
      (fun i _ => fresh i) (fun i _ => same i)
    refine ⟨disk', ?_, done.congr fun p => by simp⟩
    rw [itruncDirect, run]
    congr 3
    funext k
    have : k ∈ (List.finRange NDIRECT).map (Fin.castAdd 2) ↔ k.val < NDIRECT :=
      ⟨fun mem => by obtain ⟨i, -, rfl⟩ := List.mem_map.1 mem; exact i.isLt,
        fun lt => List.mem_map.2 ⟨⟨k.val, lt⟩, List.mem_finRange _, rfl⟩⟩
    simp only [this]
  intro l
  induction l with
  | nil => exact fun disk din V _ cleared _ _ => ⟨disk, rfl, cleared.congr fun p => by simp⟩
  | cons i l ih =>
    intro disk din V nodup cleared fresh same
    have value : nz (din.addrs (Fin.castAdd 2 i)) = ptrAt disk0 din0 (.direct i) := by
      rw [same i (List.mem_cons_self _ _)]
      rfl
    obtain ⟨disk1, freed, stay, cleared1⟩ :=
      cleared.visit wf acc inRange used (fresh i (List.mem_cons_self _ _)) value
    have distinct : ∀ i' ∈ l, Fin.castAdd 2 i' ≠ Fin.castAdd 2 i := fun i' mem same' =>
      (List.nodup_cons.1 nodup).1 (Fin.castAdd_injective _ _ same' ▸ mem)
    obtain ⟨disk', run, done⟩ := ih disk1 { din with addrs := setAt din.addrs (Fin.castAdd 2 i) 0 } _
      (List.nodup_cons.1 nodup).2 cleared1
      (fun i' mem held => held.elim (fun eq => distinct i' mem (by cases eq; rfl))
        (fresh i' (List.mem_cons_of_mem _ mem)))
      (fun i' mem => by
        simp only [setAt_ne _ _ _ (distinct i' mem)]
        exact same i' (List.mem_cons_of_mem _ mem))
    refine ⟨disk', ?_, done.congr fun p => by
      simp only [List.mem_cons, exists_eq_or_imp, or_assoc, or_left_comm]⟩
    rw [List.foldlM_cons]
    show (if din.addrs (Fin.castAdd 2 i) ≠ 0 then _ else _) >>= _ = _
    by_cases zero : din.addrs (Fin.castAdd 2 i) = 0
    · rw [if_neg (not_not.2 zero), pure_bind, ← stay zero]
      rw [show { din with addrs := setAt din.addrs (Fin.castAdd 2 i) 0 } = din by
        rw [← zero, setAt_self]] at run
      rw [run]
      congr 3
      funext k
      by_cases at_i : k = Fin.castAdd 2 i
      · subst at_i
        simp [zero]
      · simp [at_i]
    · rw [if_pos zero, freed zero, ok_bind, pure_bind, run]
      congr 3
      funext k
      by_cases at_i : k = Fin.castAdd 2 i
      · subst at_i
        simp
      · simp [at_i, setAt_ne _ _ _ at_i]

/-- The singly-indirect part of `itrunc` frees the entries and the block. -/
theorem itruncIndirect_ok (cleared : Cleared sb disk0 din0 V disk) (fresh : ¬V .indirect)
    (freshEntries : ∀ j, ¬V (.indirectEntry j)) {din : Dinode}
    (same : din.addrs indirectIndex = din0.addrs indirectIndex) :
    ∃ disk', itruncIndirect sb disk din = .ok (disk', { din with addrs := setAt din.addrs indirectIndex 0 }) ∧
      Cleared sb disk0 din0 (fun p => (p = .indirect ∨ ∃ j, p = .indirectEntry j) ∨ V p) disk' := by
  unfold Xv6Fs.itruncIndirect
  by_cases zero : din.addrs indirectIndex = 0
  · rw [if_neg (not_not.2 zero)]
    refine ⟨disk, by rw [← zero, setAt_self]; rfl, cleared.skip fun p held => ?_⟩
    have top : nz (din0.addrs indirectIndex) = none := by rw [← same, zero, nz_zero]
    rcases held with rfl | ⟨j, rfl⟩
    · exact top
    · show entryAt disk0 _ j = none
      rw [top, entryAt_none]
  · rw [if_pos zero]
    have atPar : ptrAt disk0 din0 .indirect = some (din.addrs indirectIndex) := by
      show nz (din0.addrs indirectIndex) = _
      rw [← same, nz_of_ne zero]
    obtain ⟨disk1, run1, cleared1⟩ :=
      cleared.freeEntries_ok wf acc inRange used (show PtrPos.indirect.isIndex from trivial) atPar freshEntries
    obtain ⟨disk2, freed, -, cleared2⟩ := cleared1.visit wf acc inRange used
      (fun held => held.elim (fun ⟨j, eq⟩ => by cases eq) fresh)
      (show nz (din.addrs indirectIndex) = ptrAt disk0 din0 .indirect by rw [atPar, nz_of_ne zero])
    refine ⟨disk2, ?_, cleared2.congr fun p => ?_⟩
    · simp only [run1, freed zero, ok_bind]
      rfl
    · simp only [PtrPos.child, or_assoc]

/-- One pass of the loop over the doubly-indirect block `blk`: the entries of the
second-level block `j`, then the block. -/
theorem doublyPass_ok {blk : Nat} (atPar : ptrAt disk0 din0 .doubly = some blk)
    (cleared : Cleared sb disk0 din0 V disk) (j : Fin NINDIRECT) (freshEntry : ¬V (.doublyEntry j))
    (freshLeaf : ∀ i, ¬V (.leaf j i)) :
    ∃ disk', (if disk0.word blk j ≠ 0 then do
        let disk ← Xv6Fs.freeEntries sb disk (disk.word (disk0.word blk j))
        bfree sb disk (disk0.word blk j)
      else pure disk) = .ok disk' ∧
      Cleared sb disk0 din0 (fun p => (p = .doublyEntry j ∨ ∃ i, p = .leaf j i) ∨ V p) disk' := by
  have value : nz (disk0.word blk j) = ptrAt disk0 din0 (.doublyEntry j) := by
    show _ = entryAt disk0 (ptrAt disk0 din0 .doubly) j
    rw [atPar, entryAt_some]
  by_cases zeroJ : disk0.word blk j = 0
  · rw [if_neg (not_not.2 zeroJ)]
    refine ⟨disk, rfl, cleared.skip fun p held => ?_⟩
    have entry : ptrAt disk0 din0 (.doublyEntry j) = none := by rw [← value, zeroJ, nz_zero]
    rcases held with rfl | ⟨i, rfl⟩
    · exact entry
    · show entryAt disk0 (ptrAt disk0 din0 (.doublyEntry j)) i = none
      rw [entry, entryAt_none]
  · have atEntry : ptrAt disk0 din0 (.doublyEntry j) = some (disk0.word blk j) := by
      rw [← value, nz_of_ne zeroJ]
    obtain ⟨disk1, run1, cleared1⟩ := cleared.freeEntries_ok wf acc inRange used
      (show (PtrPos.doublyEntry j).isIndex from trivial) atEntry freshLeaf
    obtain ⟨disk2, freed, -, cleared2⟩ := cleared1.visit wf acc inRange used
      (fun held => held.elim (fun ⟨i, eq⟩ => by cases eq) freshEntry) value
    refine ⟨disk2, by rw [if_pos zeroJ, run1, ok_bind, freed zeroJ], cleared2.congr fun p => ?_⟩
    simp only [PtrPos.child, or_assoc]

/-- The loop over the doubly-indirect block `blk`, run over the distinct second-level
blocks `l`, frees the entries of each and the block. -/
theorem doublyWalk_ok {blk : Nat} (atPar : ptrAt disk0 din0 .doubly = some blk) (l : List Nat) (nodup : l.Nodup)
    (bounded : ∀ j ∈ l, j < NINDIRECT) (cleared : Cleared sb disk0 din0 V disk)
    (fresh : ∀ j (lt : j < NINDIRECT), j ∈ l → ¬V (.doublyEntry ⟨j, lt⟩) ∧ ∀ i, ¬V (.leaf ⟨j, lt⟩ i)) :
    ∃ disk', l.foldlM (fun disk j =>
        if disk0.word blk j ≠ 0 then do
          let disk ← Xv6Fs.freeEntries sb disk (disk.word (disk0.word blk j))
          bfree sb disk (disk0.word blk j)
        else pure disk) disk = .ok disk' ∧
      Cleared sb disk0 din0 (fun p => (∃ j ∈ l, ∃ lt : j < NINDIRECT,
        p = .doublyEntry ⟨j, lt⟩ ∨ ∃ i, p = .leaf ⟨j, lt⟩ i) ∨ V p) disk' := by
  induction l generalizing disk V with
  | nil => exact ⟨disk, rfl, cleared.congr fun p => by simp⟩
  | cons j l ih =>
    have lt := bounded j (List.mem_cons_self _ _)
    obtain ⟨freshEntry, freshLeaf⟩ := fresh j lt (List.mem_cons_self _ _)
    obtain ⟨disk1, step, cleared1⟩ := cleared.doublyPass_ok wf acc inRange used atPar ⟨j, lt⟩ freshEntry freshLeaf
    obtain ⟨disk', run, done⟩ := ih (List.nodup_cons.1 nodup).2
      (fun j' mem => bounded j' (List.mem_cons_of_mem _ mem)) cleared1 fun j' lt' mem => by
        have other : j' ≠ j := fun same => (List.nodup_cons.1 nodup).1 (same ▸ mem)
        simpa [other] using fresh j' lt' (List.mem_cons_of_mem _ mem)
    refine ⟨disk', by rw [List.foldlM_cons, step, ok_bind, run], done.congr fun p => ?_⟩
    constructor
    · rintro (⟨j', mem, lt', held⟩ | v)
      · rcases List.mem_cons.1 mem with rfl | mem
        · exact .inr (.inl held)
        · exact .inl ⟨j', mem, lt', held⟩
      · exact .inr (.inr v)
    · rintro (⟨j', mem, lt', held⟩ | held | v)
      · exact .inl ⟨j', List.mem_cons_of_mem _ mem, lt', held⟩
      · exact .inl ⟨j, List.mem_cons_self _ _, lt, held⟩
      · exact .inr v

/-- The doubly-indirect part of `itrunc` frees the entries of each second-level block
and the block, then the doubly-indirect block itself. -/
theorem itruncDoubly_ok (cleared : Cleared sb disk0 din0 V disk) (fresh : ¬V .doubly)
    (freshEntries : ∀ j, ¬V (.doublyEntry j)) (freshLeaves : ∀ j i, ¬V (.leaf j i)) {din : Dinode}
    (same : din.addrs doublyIndex = din0.addrs doublyIndex) :
    ∃ disk', itruncDoubly sb disk din = .ok (disk', { din with addrs := setAt din.addrs doublyIndex 0 }) ∧
      Cleared sb disk0 din0
        (fun p => (p = .doubly ∨ (∃ j, p = .doublyEntry j) ∨ ∃ j i, p = .leaf j i) ∨ V p) disk' := by
  unfold Xv6Fs.itruncDoubly
  by_cases zero : din.addrs doublyIndex = 0
  · rw [if_neg (not_not.2 zero)]
    refine ⟨disk, by rw [← zero, setAt_self]; rfl, cleared.skip fun p held => ?_⟩
    have top : nz (din0.addrs doublyIndex) = none := by rw [← same, zero, nz_zero]
    rcases held with rfl | ⟨j, rfl⟩ | ⟨j, i, rfl⟩
    · exact top
    · show entryAt disk0 _ j = none
      rw [top, entryAt_none]
    · show entryAt disk0 (entryAt disk0 _ j) i = none
      rw [top, entryAt_none, entryAt_none]
  rw [if_pos zero]
  have atPar : ptrAt disk0 din0 .doubly = some (din.addrs doublyIndex) := by
    show nz (din0.addrs doublyIndex) = _
    rw [← same, nz_of_ne zero]
  have data := (acc.inData _ (mem_allPtrs_of_ptrAt inRange used atPar)).1
  obtain ⟨disk1, run1, cleared1⟩ := cleared.doublyWalk_ok wf acc inRange used atPar (List.range NINDIRECT)
    (List.nodup_range _) (fun j mem => List.mem_range.1 mem) fun j lt _ => ⟨freshEntries _, freshLeaves _⟩
  obtain ⟨disk2, freed, -, cleared2⟩ := cleared1.visit wf acc inRange used
    (fun held => held.elim (fun ⟨_, _, _, held⟩ => by rcases held with eq | ⟨_, eq⟩ <;> cases eq) fresh)
    (show nz (din.addrs doublyIndex) = ptrAt disk0 din0 .doubly by rw [atPar, nz_of_ne zero])
  refine ⟨disk2, ?_, cleared2.congr fun p => ?_⟩
  · simp only [cleared.word_eq data, run1, ok_bind, freed zero]
    rfl
  · constructor
    · rintro ((rfl | ⟨j, rfl⟩ | ⟨j, i, rfl⟩) | v)
      · exact .inl rfl
      · exact .inr (.inl ⟨j, List.mem_range.2 j.isLt, j.isLt, .inl rfl⟩)
      · exact .inr (.inl ⟨j, List.mem_range.2 j.isLt, j.isLt, .inr ⟨i, rfl⟩⟩)
      · exact .inr (.inr v)
    · rintro (rfl | ⟨j, -, lt, rfl | ⟨i, rfl⟩⟩ | v)
      · exact .inl (.inl rfl)
      · exact .inl (.inr (.inl ⟨_, rfl⟩))
      · exact .inl (.inr (.inr ⟨_, i, rfl⟩))
      · exact .inr v

end Visit

end Cleared

/-- The inode `itrunc` leaves: no block and size zero. -/
def Dinode.truncated (din : Dinode) : Dinode :=
  { din with size := 0, addrs := fun _ => 0 }

section Itrunc

variable {sb : Superblock} {disk : Disk} {inum : Nat} {din : Dinode} (wf : sb.WellFormed)
  (acc : Accounted sb (disk.setDinode inum din)) (inRange : inum < sb.ninodes) (used : din.type ≠ 0)
include wf acc inRange used

/-- `itrunc` frees every pointer the inode keeps, finding each bit set, and writes
back the inode with no block and size zero. -/
theorem itrunc_frees :
    ∃ disk', itrunc sb disk inum din = .ok (disk'.setDinode inum din.truncated, din.truncated) ∧
      Cleared sb disk din (fun _ => True) disk' := by
  obtain ⟨disk1, run1, cleared1⟩ :=
    Cleared.start.itruncDirect_ok wf acc inRange used (fun _ none => none) fun _ => rfl
  set din1 : Dinode := { din with addrs := fun k => if k.val < NDIRECT then 0 else din.addrs k }
  obtain ⟨disk2, run2, cleared2⟩ := cleared1.itruncIndirect_ok wf acc inRange used
    (by rintro (⟨_, eq⟩ | none) <;> first | cases eq | exact none)
    (by rintro j (⟨_, eq⟩ | none) <;> first | cases eq | exact none)
    (show din1.addrs indirectIndex = din.addrs indirectIndex by simp [din1, indirectIndex])
  set din2 : Dinode := { din1 with addrs := setAt din1.addrs indirectIndex 0 }
  obtain ⟨disk3, run3, cleared3⟩ := cleared2.itruncDoubly_ok wf acc inRange used
    (by rintro ((eq | ⟨_, eq⟩) | ⟨_, eq⟩ | none) <;> first | cases eq | exact none)
    (by rintro j ((eq | ⟨_, eq⟩) | ⟨_, eq⟩ | none) <;> first | cases eq | exact none)
    (by rintro j i ((eq | ⟨_, eq⟩) | ⟨_, eq⟩ | none) <;> first | cases eq | exact none)
    (show din2.addrs doublyIndex = din.addrs doublyIndex by
      simp only [din2, din1]
      rw [setAt_ne _ _ _ (by decide)]
      rfl)
  refine ⟨disk3, ?_, cleared3.congr fun p => by cases p <;> simp⟩
  have zeroed : ∀ k : Fin (NDIRECT + 2), setAt din2.addrs doublyIndex 0 k = 0 := by
    intro k
    by_cases doubly : k = doublyIndex
    · simp [doubly]
    · simp only [din2, din1, setAt_ne _ _ _ doubly]
      by_cases indirect : k = indirectIndex
      · simp [indirect]
      · rw [setAt_ne _ _ _ indirect]
        refine if_pos ?_
        have := k.isLt
        have := mt Fin.ext_iff.2 doubly
        have := mt Fin.ext_iff.2 indirect
        simp only [indirectIndex, doublyIndex, NDIRECT] at *
        omega
  unfold itrunc
  simp only [run1, run2, run3, ok_bind, Dinode.truncated, iupdate]
  congr 4 <;> exact funext zeroed

/-- Freeing an inode, as `iput` does: after `itrunc` and marking its dinode free, the
bitmap is in step again, exactly the inode's pointers are free, and no other inode
changed. -/
theorem itrunc_free {disk' : Disk} {din' : Dinode} (run : itrunc sb disk inum din = .ok (disk', din')) :
    din' = din.truncated ∧ Accounted sb (disk'.setDinode inum { din' with type := 0 }) ∧
      OthersKept sb (disk.setDinode inum din) inum (disk'.setDinode inum { din' with type := 0 }) := by
  obtain ⟨diskT, frees, cleared⟩ := itrunc_frees wf acc inRange used
  rw [frees] at run
  cases run
  have others : OthersKept sb (disk.setDinode inum din) inum
      ((diskT.setDinode inum din.truncated).setDinode inum { din.truncated with type := 0 }) :=
    ⟨fun i other => by simp [setAt_ne _ _ _ other, cleared.dinode], fun i _ _ c mem =>
      cleared.block c (acc.inData c (Multiset.mem_bind.2 ⟨i, Multiset.mem_range.2 ‹_›, mem⟩)).1⟩
  refine ⟨rfl, accounted_remove acc inRange ?_ (fun i iRange other => others.inodePtrs_eq iRange other)
    fun c _ => ?_, others⟩
  · simp [inodePtrs]
  · rw [inodePtrs_setDinode used]
    apply Bool.eq_iff_iff.2
    rw [Bool.and_eq_true, decide_eq_true_iff, mem_ptrs]
    exact (cleared.bit_iff c).trans (by simp [Disk.bit])

end Itrunc

end Truncate

end Xv6Fs
