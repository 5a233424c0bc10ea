import Xv6Fs.Pointers

/-!
# What `bmap` allocates

`bmap` fills the places on the way to a logical block that held nothing, each with a
block fresh from `balloc`: at most one address of the inode and two entries of index
blocks.  `Grows` is any number of such fills in a row.  Whatever it allocates, a
run of `bmap` keeps the bitmap in step with the block maps, writes no block of
another inode, and leaves every block the inode already kept at a data place as it
was; a data place it fills reads as zeroes.
-/

namespace Xv6Fs

/-! ## The place of a logical block -/

/-- The place where `bmap` keeps logical block `bn`, for `bn < MAXFILE`. -/
def dataPos (bn : Nat) : PtrPos :=
  if direct : bn < NDIRECT then .direct ⟨bn, direct⟩
  else if single : bn - NDIRECT < NINDIRECT then .indirectEntry ⟨bn - NDIRECT, single⟩
  else
    let q := bn - NDIRECT - NINDIRECT
    .leaf ⟨q / NINDIRECT % NINDIRECT, Nat.mod_lt _ (by decide)⟩ ⟨q % NINDIRECT, Nat.mod_lt _ (by decide)⟩

theorem dataPos_of_direct {bn : Nat} (direct : bn < NDIRECT) : dataPos bn = .direct ⟨bn, direct⟩ :=
  dif_pos direct

theorem dataPos_of_single {bn : Nat} (direct : ¬bn < NDIRECT) (single : bn - NDIRECT < NINDIRECT) :
    dataPos bn = .indirectEntry ⟨bn - NDIRECT, single⟩ := by
  rw [dataPos, dif_neg direct, dif_pos single]

theorem doubly_index_lt {bn : Nat} (small : bn < MAXFILE) :
    (bn - NDIRECT - NINDIRECT) / NINDIRECT < NINDIRECT := by
  unfold MAXFILE NINDIRECT BSIZE NDIRECT at *
  omega

theorem dataPos_of_doubly {bn : Nat} (direct : ¬bn < NDIRECT) (single : ¬bn - NDIRECT < NINDIRECT)
    (small : bn < MAXFILE) :
    dataPos bn = .leaf ⟨(bn - NDIRECT - NINDIRECT) / NINDIRECT, doubly_index_lt small⟩
      ⟨(bn - NDIRECT - NINDIRECT) % NINDIRECT, Nat.mod_lt _ (by decide)⟩ := by
  rw [dataPos, dif_neg direct, dif_neg single]
  exact congrArg₂ PtrPos.leaf (Fin.ext (Nat.mod_eq_of_lt (doubly_index_lt small))) rfl

theorem not_isIndex_dataPos (bn : Nat) : ¬(dataPos bn).isIndex := by
  unfold dataPos
  by_cases direct : bn < NDIRECT
  · rw [dif_pos direct]
    exact id
  · rw [dif_neg direct]
    by_cases single : bn - NDIRECT < NINDIRECT
    · rw [dif_pos single]
      exact id
    · rw [dif_neg single]
      exact id

@[simp] theorem getD_nz (b : Nat) : (nz b).getD 0 = b := by
  unfold nz
  split <;> simp_all

theorem nz_of_ne {b : Nat} (nonzero : b ≠ 0) : nz b = some b :=
  if_neg nonzero

/-- No place keeps block `0`. -/
theorem ne_zero_of_ptrAt {disk : Disk} {din : Dinode} {p : PtrPos} {c : Nat} (kept : ptrAt disk din p = some c) :
    c ≠ 0 := by
  have ofNz : ∀ {b}, nz b = some c → c ≠ 0 := fun held => (nz_eq_some.1 held).2 ▸ (nz_eq_some.1 held).1
  have ofEntry : ∀ {parent : Option Nat} {j : Nat}, entryAt disk parent j = some c → c ≠ 0 := by
    intro parent j held
    cases parent with
    | none => cases held
    | some b => exact ofNz held
  cases p <;> first | exact ofNz kept | exact ofEntry kept

/-- `blockAddr` reads the pointer at the place of the block. -/
theorem blockAddr_eq (disk : Disk) (din : Dinode) {bn : Nat} (small : bn < MAXFILE) :
    blockAddr disk din bn = (ptrAt disk din (dataPos bn)).getD 0 := by
  unfold blockAddr
  by_cases direct : bn < NDIRECT
  · rw [dif_pos direct, dataPos_of_direct direct]
    exact (getD_nz _).symm
  · rw [dif_neg direct]
    by_cases single : bn - NDIRECT < NINDIRECT
    · rw [if_pos single, dataPos_of_single direct single]
      show _ = (entryAt disk (nz (din.addrs indirectIndex)) (bn - NDIRECT)).getD 0
      by_cases zero : din.addrs indirectIndex = 0 <;> simp [zero, nz_of_ne]
    · rw [if_neg single, dataPos_of_doubly direct single small]
      show _ = (entryAt disk (entryAt disk (nz (din.addrs doublyIndex)) ((bn - NDIRECT - NINDIRECT) / NINDIRECT))
        ((bn - NDIRECT - NINDIRECT) % NINDIRECT)).getD 0
      by_cases zero : din.addrs doublyIndex = 0
      · simp [zero]
      · by_cases second : disk.word (din.addrs doublyIndex) ((bn - NDIRECT - NINDIRECT) / NINDIRECT) = 0 <;>
          simp [zero, second, nz_of_ne]

/-- Below `MAXFILE`, distinct logical blocks have distinct places. -/
theorem dataPos_inj {bn bn' : Nat} (small : bn < MAXFILE) (small' : bn' < MAXFILE)
    (same : dataPos bn = dataPos bn') : bn = bn' := by
  have cases : ∀ {n}, n < MAXFILE → (∃ h, dataPos n = .direct ⟨n, h⟩) ∨
      (∃ h', dataPos n = .indirectEntry ⟨n - NDIRECT, h'⟩ ∧ ¬n < NDIRECT) ∨
      (¬n < NDIRECT ∧ ¬n - NDIRECT < NINDIRECT ∧ ∃ j i, dataPos n = .leaf j i ∧
        j.val = (n - NDIRECT - NINDIRECT) / NINDIRECT ∧ i.val = (n - NDIRECT - NINDIRECT) % NINDIRECT) := by
    intro n small
    by_cases direct : n < NDIRECT
    · exact .inl ⟨direct, dataPos_of_direct direct⟩
    · by_cases single : n - NDIRECT < NINDIRECT
      · exact .inr (.inl ⟨single, dataPos_of_single direct single, direct⟩)
      · exact .inr (.inr ⟨direct, single, _, _, dataPos_of_doubly direct single small, rfl, rfl⟩)
  unfold MAXFILE NINDIRECT BSIZE NDIRECT at small small'
  rcases cases small with ⟨h, e⟩ | ⟨h, e, d⟩ | ⟨d, s, j, i, e, ej, ei⟩ <;>
    rcases cases small' with ⟨h', e'⟩ | ⟨h', e', d'⟩ | ⟨d', s', j', i', e', ej', ei'⟩ <;>
    rw [e, e'] at same <;>
    simp only [PtrPos.direct.injEq, PtrPos.indirectEntry.injEq, PtrPos.leaf.injEq, Fin.ext_iff,
      reduceCtorEq] at same <;>
    unfold NINDIRECT BSIZE NDIRECT at * <;> omega

/-! ## Fills one after another -/

/-- `(disk', din')` is `(disk, din)` with places filled one after another. -/
inductive Grows (sb : Superblock) : Disk → Dinode → Disk → Dinode → Prop
  | refl (disk : Disk) (din : Dinode) : Grows sb disk din disk din
  | fill {disk disk1 disk' : Disk} {din din1 din' : Dinode} {q : PtrPos} {b : Nat} :
      Fills sb disk din disk1 din1 q b → Grows sb disk1 din1 disk' din' → Grows sb disk din disk' din'

namespace Grows

variable {sb : Superblock} {disk disk' disk'' : Disk} {din din' din'' : Dinode}

theorem trans (first : Grows sb disk din disk' din') (second : Grows sb disk' din' disk'' din'') :
    Grows sb disk din disk'' din'' := by
  induction first with
  | refl => exact second
  | fill fills _ ih => exact .fill fills (ih second)

/-- Only the addresses of the inode change. -/
theorem fields (grows : Grows sb disk din disk' din') : din' = { din with addrs := din'.addrs } := by
  induction grows with
  | refl => rfl
  | fill fills _ ih => rw [ih, fills.fields]

theorem type_eq (grows : Grows sb disk din disk' din') : din'.type = din.type := by
  rw [grows.fields]

theorem size_eq (grows : Grows sb disk din disk' din') : din'.size = din.size := by
  rw [grows.fields]

theorem dinode_eq (grows : Grows sb disk din disk' din') : disk'.dinode = disk.dinode := by
  induction grows with
  | refl => rfl
  | fill fills _ ih => rw [ih, fills.dinodes]

/-- A place that keeps a block keeps it. -/
theorem ptrAt_of_some (grows : Grows sb disk din disk' din') {p : PtrPos} {c : Nat}
    (kept : ptrAt disk din p = some c) : ptrAt disk' din' p = some c := by
  induction grows with
  | refl => exact kept
  | @fill _ _ _ _ _ _ q _ fills _ ih =>
    refine ih ?_
    by_cases filled : p = q
    · subst filled
      rw [fills.was] at kept
      cases kept
    · rw [fills.rest p filled]
      exact kept

section Accounted

variable {inum : Nat} (acc : Accounted sb (disk.setDinode inum din)) (inRange : inum < sb.ninodes)
  (used : din.type ≠ 0)
include acc inRange used

theorem accounted (grows : Grows sb disk din disk' din') : Accounted sb (disk'.setDinode inum din') := by
  induction grows with
  | refl => exact acc
  | fill fills _ ih =>
    exact ih (accounted_of_fills acc inRange used fills) (fills.type ▸ used)

/-- The blocks fills write: fresh blocks, bitmap blocks and index blocks of the inode. -/
theorem changed (grows : Grows sb disk din disk' din') {c : Nat} (write : disk'.block c ≠ disk.block c) :
    c ∉ allPtrs sb (disk.setDinode inum din) ∨ c < sb.dataStart ∨
      ∃ p, p.isIndex ∧ ptrAt disk din p = some c := by
  induction grows with
  | refl => exact absurd rfl write
  | @fill disk disk1 _ din din1 _ q b fills _ ih =>
    have all := allPtrs_of_fills acc inRange used fills
    by_cases first : disk1.block c = disk.block c
    · rcases ih (accounted_of_fills acc inRange used fills) (fills.type ▸ used) (first ▸ write) with
        fresh | meta | ⟨p, index, own⟩
      · rw [all, Multiset.mem_cons, not_or] at fresh
        exact .inl fresh.2
      · exact .inr (.inl meta)
      · by_cases filled : p = q
        · subst filled
          rw [fills.now] at own
          cases own
          exact .inl (not_mem_of_bit_false acc fills.bound fills.free).1
        · rw [fills.rest p filled] at own
          exact .inr (.inr ⟨p, index, own⟩)
    · exact (fills.writesOwn acc c first).imp_right fun rest => rest.imp_right fun ⟨p, own⟩ => by
        rcases fills.blocks c first with rfl | meta | isIndex
        · exact absurd (mem_allPtrs_of_ptrAt inRange used own) (not_mem_of_bit_false acc fills.bound fills.free).1
        · exact absurd (acc.inData c (mem_allPtrs_of_ptrAt inRange used own)).1 (by omega)
        · exact isIndex

theorem writesOwn (grows : Grows sb disk din disk' din') : WritesOwn sb disk inum din disk' :=
  fun _ write => (changed acc inRange used grows write).imp_right
    fun rest => rest.imp_right fun ⟨p, _, own⟩ => ⟨p, own⟩

/-- A block the inode kept at a data place is not written. -/
theorem block_of_ptrAt (grows : Grows sb disk din disk' din') {p : PtrPos} {c : Nat}
    (data : ¬p.isIndex) (kept : ptrAt disk din p = some c) : disk'.block c = disk.block c := by
  by_contra write
  have mem := mem_allPtrs_of_ptrAt inRange used kept
  rcases changed acc inRange used grows write with fresh | meta | ⟨p', index, own⟩
  · exact fresh mem
  · exact absurd (acc.inData c mem).1 (by omega)
  · obtain rfl := eq_of_ptrAt_eq (nodup_ptrs acc inRange used) kept own
    exact data index

/-- A data place that is filled reads as zeroes. -/
theorem block_of_filled (grows : Grows sb disk din disk' din') {p : PtrPos} {c : Nat}
    (data : ¬p.isIndex) (was : ptrAt disk din p = none) (now : ptrAt disk' din' p = some c) (i : Nat) :
    disk'.block c i = 0 := by
  induction grows with
  | refl => rw [was] at now; cases now
  | @fill disk disk1 _ din din1 _ q b fills rest ih =>
    by_cases filled : p = q
    · subst filled
      have kept := fills.now
      rw [ptrAt_of_some rest kept] at now
      cases now
      rw [block_of_ptrAt (accounted_of_fills acc inRange used fills) inRange (fills.type ▸ used) rest data kept]
      exact fills.zero i
    · rw [← fills.rest p filled] at was
      exact ih (accounted_of_fills acc inRange used fills) (fills.type ▸ used) was now

end Accounted

end Grows

/-! ## `bmap` -/

section Bmap

variable {sb : Superblock} {disk disk' : Disk} {inum addr : Nat} {din din' : Dinode}
  (wf : sb.WellFormed) (acc : Accounted sb (disk.setDinode inum din)) (inRange : inum < sb.ninodes)
  (used : din.type ≠ 0)
include wf acc inRange used

theorem grows_ensureAddr {k : Fin (NDIRECT + 2)} (run : ensureAddr sb disk din k = .ok (addr, disk', din')) :
    Grows sb disk din disk' din' ∧ ptrAt disk' din' (.ofAddr k) = some addr ∧
      (freeBlocks sb disk).card ≤ (freeBlocks sb disk').card + 1 := by
  rcases ensureAddr_cases run with ⟨kept, rfl, rfl, rfl⟩ | ⟨empty, alloc, rfl⟩
  · rw [ptrAt_ofAddr]
    exact ⟨.refl _ _, nz_eq_some.2 ⟨kept, rfl⟩, Nat.le_add_right _ _⟩
  · have fills := fills_ensureAddr wf acc inRange used empty alloc
    exact ⟨.fill fills (.refl _ _), fills.now, fills.card_freeBlocks.le⟩

theorem grows_ensureWord {par : PtrPos} {blk : Nat} (index : par.isIndex) (atPar : ptrAt disk din par = some blk)
    (j : Fin NINDIRECT) (run : ensureWord sb disk blk j = .ok (addr, disk')) :
    Grows sb disk din disk' din ∧ ptrAt disk' din (par.child j) = some addr ∧
      (freeBlocks sb disk).card ≤ (freeBlocks sb disk').card + 1 := by
  rcases ensureWord_cases run with ⟨kept, rfl, rfl⟩ | ⟨empty, disk1, alloc, rfl⟩
  · rw [ptrAt_child _ _ index, atPar, entryAt_some]
    exact ⟨.refl _ _, nz_eq_some.2 ⟨kept, rfl⟩, Nat.le_add_right _ _⟩
  · have fills := fills_ensureWord wf acc inRange used index atPar j empty alloc
    exact ⟨.fill fills (.refl _ _), fills.now, fills.card_freeBlocks.le⟩

omit wf in
/-- One level down: from a grown map, `ensureWord` grows it further. -/
theorem grows_ensureWord_after {disk1 disk2 : Disk} {din1 : Dinode} {par : PtrPos} {blk : Nat}
    (wf : sb.WellFormed) (grown : Grows sb disk din disk1 din1) (index : par.isIndex)
    (atPar : ptrAt disk1 din1 par = some blk) (j : Fin NINDIRECT)
    (run : ensureWord sb disk1 blk j = .ok (addr, disk2)) :
    Grows sb disk din disk2 din1 ∧ ptrAt disk2 din1 (par.child j) = some addr ∧
      (freeBlocks sb disk1).card ≤ (freeBlocks sb disk2).card + 1 :=
  have ⟨more, now, taken⟩ := grows_ensureWord wf (grown.accounted acc inRange used) inRange
    (grown.type_eq ▸ used) index atPar j run
  ⟨grown.trans more, now, taken⟩

/-- `bmap` fills the places on the way to logical block `bn`, taking at most three free
blocks, and returns the block then kept at its place. -/
theorem grows_bmap {bn : Nat} (small : bn < MAXFILE) (run : bmap sb disk din bn = .ok (addr, disk', din')) :
    Grows sb disk din disk' din' ∧ ptrAt disk' din' (dataPos bn) = some addr ∧
      (freeBlocks sb disk).card ≤ (freeBlocks sb disk').card + 3 := by
  unfold bmap at run
  split at run
  · rename_i direct
    obtain ⟨grown, now, taken⟩ := grows_ensureAddr wf acc inRange used run
    exact ⟨grown, (congrArg (ptrAt disk' din') (by simp [PtrPos.ofAddr, dataPos, direct])).trans now, by omega⟩
  · rename_i direct
    split at run
    · rename_i single
      obtain ⟨⟨indirect, disk1, din1⟩, first, run⟩ := bind_eq_ok.1 run
      obtain ⟨⟨a, disk2⟩, second, result⟩ := bind_eq_ok.1 run
      simp only [pure_eq_ok, Prod.mk.injEq] at result
      obtain ⟨rfl, rfl, rfl⟩ := result
      obtain ⟨grown, atIndirect, taken1⟩ := grows_ensureAddr wf acc inRange used first
      obtain ⟨grown, now, taken2⟩ := grows_ensureWord_after acc inRange used wf grown
        (show PtrPos.indirect.isIndex from trivial) atIndirect ⟨bn - NDIRECT, single⟩ second
      exact ⟨grown, (congrArg (ptrAt disk2 din1) (by simp [PtrPos.child, dataPos, direct, single])).trans now,
        by omega⟩
    · rename_i single
      have below : (bn - NDIRECT - NINDIRECT) / NINDIRECT < NINDIRECT := by
        unfold MAXFILE NINDIRECT BSIZE NDIRECT at *
        omega
      obtain ⟨⟨doubly, disk1, din1⟩, first, run⟩ := bind_eq_ok.1 run
      obtain ⟨⟨a, disk2⟩, second, run⟩ := bind_eq_ok.1 run
      obtain ⟨⟨a', disk3⟩, third, result⟩ := bind_eq_ok.1 run
      simp only [pure_eq_ok, Prod.mk.injEq] at result
      obtain ⟨rfl, rfl, rfl⟩ := result
      obtain ⟨grown, atDoubly, taken1⟩ := grows_ensureAddr wf acc inRange used first
      obtain ⟨grown, atSingle, taken2⟩ := grows_ensureWord_after acc inRange used wf grown
        (show PtrPos.doubly.isIndex from trivial) atDoubly ⟨_, below⟩ second
      have entry : disk2.word doubly ((bn - NDIRECT - NINDIRECT) / NINDIRECT) = a := by
        rw [ptrAt_child _ _ (show PtrPos.doubly.isIndex from trivial),
          show ptrAt disk2 din1 .doubly = some doubly from atDoubly, entryAt_some, nz_eq_some] at atSingle
        exact atSingle.2
      rw [← entry] at atSingle
      obtain ⟨grown, now, taken3⟩ := grows_ensureWord_after acc inRange used wf grown
        (show (PtrPos.doubly.child ⟨_, below⟩).isIndex from trivial) atSingle
        ⟨(bn - NDIRECT - NINDIRECT) % NINDIRECT, Nat.mod_lt _ (by decide)⟩ third
      exact ⟨grown, (congrArg (ptrAt disk3 din1) (by
        simp [PtrPos.child, dataPos, direct, single, Nat.mod_eq_of_lt below])).trans now, by omega⟩

end Bmap

section Mapped

variable {sb : Superblock} {disk : Disk} {din : Dinode}

theorem ensureAddr_of_ne {k : Fin (NDIRECT + 2)} (kept : din.addrs k ≠ 0) :
    ensureAddr sb disk din k = .ok (din.addrs k, disk, din) :=
  if_neg kept

theorem ensureWord_of_ne {blk j : Nat} (kept : disk.word blk j ≠ 0) :
    ensureWord sb disk blk j = .ok (disk.word blk j, disk) :=
  if_neg kept

/-- Where the place of `bn` keeps a block, `bmap` returns it and allocates nothing. -/
theorem bmap_of_ptrAt {bn c : Nat} (small : bn < MAXFILE) (kept : ptrAt disk din (dataPos bn) = some c) :
    bmap sb disk din bn = .ok (c, disk, din) := by
  unfold bmap
  by_cases direct : bn < NDIRECT
  · rw [dataPos_of_direct direct] at kept
    obtain ⟨nonzero, rfl⟩ := nz_eq_some.1 kept
    rw [dif_pos direct]
    exact ensureAddr_of_ne nonzero
  · rw [dif_neg direct]
    by_cases single : bn - NDIRECT < NINDIRECT
    · rw [dataPos_of_single direct single] at kept
      change entryAt disk (nz (din.addrs indirectIndex)) (bn - NDIRECT) = some c at kept
      cases top : nz (din.addrs indirectIndex) with
      | none => rw [top] at kept; cases kept
      | some blk =>
        rw [top, entryAt_some] at kept
        obtain ⟨nonzero, rfl⟩ := nz_eq_some.1 top
        obtain ⟨nonzero', rfl⟩ := nz_eq_some.1 kept
        rw [if_pos single, ensureAddr_of_ne nonzero]
        show ensureWord sb disk _ _ >>= _ = _
        rw [ensureWord_of_ne nonzero']
        rfl
    · rw [dataPos_of_doubly direct single small] at kept
      change entryAt disk (entryAt disk (nz (din.addrs doublyIndex)) ((bn - NDIRECT - NINDIRECT) / NINDIRECT))
        ((bn - NDIRECT - NINDIRECT) % NINDIRECT) = some c at kept
      cases top : nz (din.addrs doublyIndex) with
      | none => rw [top] at kept; cases kept
      | some blk =>
        rw [top, entryAt_some] at kept
        obtain ⟨nonzero, rfl⟩ := nz_eq_some.1 top
        cases second : nz (disk.word (din.addrs doublyIndex) ((bn - NDIRECT - NINDIRECT) / NINDIRECT)) with
        | none => rw [second] at kept; cases kept
        | some single' =>
          rw [second, entryAt_some] at kept
          obtain ⟨nonzero', rfl⟩ := nz_eq_some.1 second
          obtain ⟨nonzero'', rfl⟩ := nz_eq_some.1 kept
          rw [if_neg single, ensureAddr_of_ne nonzero]
          show ensureWord sb disk _ _ >>= _ = _
          rw [ensureWord_of_ne nonzero']
          show ensureWord sb disk _ _ >>= _ = _
          rw [ensureWord_of_ne nonzero'']
          rfl

@[simp] theorem ok_bind {ε α β : Type} (a : α) (f : α → Except ε β) : (Except.ok a >>= f) = f a :=
  rfl

theorem bind_eq_error {ε α β : Type} {x : Except ε α} {f : α → Except ε β} {e : ε} :
    x >>= f = .error e ↔ x = .error e ∨ ∃ a, x = .ok a ∧ f a = .error e := by
  cases x <;> simp [bind, Except.bind]

theorem ensureAddr_error {k : Fin (NDIRECT + 2)} {halt : Halt}
    (failed : ensureAddr sb disk din k = .error halt) :
    halt = .fatal "balloc: out of blocks" ∧ freeBlocks sb disk = ∅ := by
  unfold ensureAddr at failed
  split at failed
  · rcases bind_eq_error.1 failed with failed | ⟨_, _, result⟩
    · exact ⟨(balloc_error failed).1, freeBlocks_of_balloc_error failed⟩
    · cases result
  · cases failed

theorem ensureWord_error {blk j : Nat} {halt : Halt}
    (failed : ensureWord sb disk blk j = .error halt) :
    halt = .fatal "balloc: out of blocks" ∧ freeBlocks sb disk = ∅ := by
  unfold ensureWord at failed
  split at failed
  · rcases bind_eq_error.1 failed with failed | ⟨_, _, result⟩
    · exact ⟨(balloc_error failed).1, freeBlocks_of_balloc_error failed⟩
    · cases result
  · cases failed

/-- `bmap` halts only when `balloc` finds the disk full. -/
theorem bmap_error {bn : Nat} {halt : Halt} (failed : bmap sb disk din bn = .error halt) :
    halt = .fatal "balloc: out of blocks" := by
  unfold bmap at failed
  split at failed
  · exact (ensureAddr_error failed).1
  · split at failed
    · rcases bind_eq_error.1 failed with failed | ⟨_, _, failed⟩
      · exact (ensureAddr_error failed).1
      · rcases bind_eq_error.1 failed with failed | ⟨_, _, result⟩
        · exact (ensureWord_error failed).1
        · cases result
    · rcases bind_eq_error.1 failed with failed | ⟨_, _, failed⟩
      · exact (ensureAddr_error failed).1
      · rcases bind_eq_error.1 failed with failed | ⟨_, _, failed⟩
        · exact (ensureWord_error failed).1
        · rcases bind_eq_error.1 failed with failed | ⟨_, _, result⟩
          · exact (ensureWord_error failed).1
          · cases result

end Mapped

section Full

variable {sb : Superblock} {disk : Disk} {inum : Nat} {din : Dinode}
  (wf : sb.WellFormed) (acc : Accounted sb (disk.setDinode inum din)) (inRange : inum < sb.ninodes)
  (used : din.type ≠ 0)
include wf acc inRange used

end Full

end Xv6Fs
