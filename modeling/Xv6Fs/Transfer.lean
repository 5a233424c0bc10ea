import Xv6Fs.Allocate

/-!
# `readi` and `writei` against the content of an inode

Over an inode whose block map covers its `size` bytes (`Shaped`), `readi` allocates
nothing and delivers the bytes of the content it is asked for, up to the first span
the destination refuses.  `writei` puts the source's bytes into the content from the
offset on, grows the size to cover them, and changes no other inode: not its
dinode, and none of the blocks it keeps (`OthersKept`).
-/

namespace Xv6Fs

/-- The block map covers the content: at most `MAXFILE` blocks, and every block
below `size` is kept. -/
structure Shaped (disk : Disk) (din : Dinode) : Prop where
  size_le : din.size ≤ MAXFILE * BSIZE
  mapped : ∀ bn, bn * BSIZE < din.size → ptrAt disk din (dataPos bn) ≠ none

/-- `len` bytes of the content from byte `off` on. -/
def bytesAt (disk : Disk) (din : Dinode) (off len : Nat) : List UInt8 :=
  (List.range len).map fun i => contentByte disk din (off + i)

@[simp] theorem length_bytesAt (disk : Disk) (din : Dinode) (off len : Nat) :
    (bytesAt disk din off len).length = len := by
  simp [bytesAt]

theorem bytesAt_add (disk : Disk) (din : Dinode) (off a b : Nat) :
    bytesAt disk din off (a + b) = bytesAt disk din off a ++ bytesAt disk din (off + a) b := by
  simp [bytesAt, List.range_add, Nat.add_assoc]

/-- The byte at offset `k` is read from the block kept at the place of `k / BSIZE`. -/
theorem contentByte_eq {disk : Disk} {din : Dinode} {k : Nat} (small : k < MAXFILE * BSIZE) :
    contentByte disk din k = match ptrAt disk din (dataPos (k / BSIZE)) with
      | some c => disk.block c (k % BSIZE)
      | none => 0 := by
  have below : k / BSIZE < MAXFILE := by
    unfold BSIZE at *
    omega
  unfold contentByte
  rw [blockAddr_eq disk din below]
  cases kept : ptrAt disk din (dataPos (k / BSIZE)) with
  | none => rfl
  | some c =>
    simp [ne_zero_of_ptrAt kept]

/-! ## What fills and writes do to the content -/

section Content

variable {sb : Superblock} {disk disk' : Disk} {inum : Nat} {din din' : Dinode}

/-- Filling places leaves the content as it was: a data place that is filled reads as
zeroes, as it read before. -/
theorem contentByte_of_grows (acc : Accounted sb (disk.setDinode inum din)) (inRange : inum < sb.ninodes)
    (used : din.type ≠ 0) (grows : Grows sb disk din disk' din') {k : Nat} (small : k < MAXFILE * BSIZE) :
    contentByte disk' din' k = contentByte disk din k := by
  rw [contentByte_eq small, contentByte_eq small]
  cases kept : ptrAt disk din (dataPos (k / BSIZE)) with
  | some c =>
    rw [grows.ptrAt_of_some kept]
    exact congrFun (grows.block_of_ptrAt acc inRange used (not_isIndex_dataPos _) kept) _
  | none =>
    cases now : ptrAt disk' din' (dataPos (k / BSIZE)) with
    | none => rfl
    | some c => exact grows.block_of_filled acc inRange used (not_isIndex_dataPos _) kept now _

theorem Disk.writeBytes_block_same (disk : Disk) (b start i : Nat) (bytes : List UInt8) :
    (disk.writeBytes b start bytes).block b i =
      if start ≤ i ∧ i < start + bytes.length then bytes.getD (i - start) 0 else disk.block b i := by
  simp [Disk.writeBytes]

/-- Writing a data block of the inode changes none of its pointers. -/
theorem ptrAt_writeBytes (nodup : (ptrs disk din).Nodup) {bn addr : Nat}
    (kept : ptrAt disk din (dataPos bn) = some addr) (start : Nat) (bytes : List UInt8) :
    ptrAt (disk.writeBytes addr start bytes) din = ptrAt disk din :=
  ptrAt_congr fun p c index own => funext fun j => Disk.word_congr (Disk.writeBytes_block_ne _ _ fun same => by
    subst same
    exact not_isIndex_dataPos bn (eq_of_ptrAt_eq nodup own kept ▸ index)) j

/-- Writing `bytes` into the block of logical block `bn` from byte `start` on changes
exactly those bytes of the content. -/
theorem contentByte_writeBytes (nodup : (ptrs disk din).Nodup) {bn addr : Nat} (below : bn < MAXFILE)
    (kept : ptrAt disk din (dataPos bn) = some addr) (start : Nat) (bytes : List UInt8) {k : Nat}
    (small : k < MAXFILE * BSIZE) :
    contentByte (disk.writeBytes addr start bytes) din k =
      if k / BSIZE = bn ∧ start ≤ k % BSIZE ∧ k % BSIZE < start + bytes.length then
        bytes.getD (k % BSIZE - start) 0
      else contentByte disk din k := by
  have kBelow : k / BSIZE < MAXFILE := by
    unfold BSIZE at *
    omega
  rw [contentByte_eq small, contentByte_eq small, ptrAt_writeBytes nodup kept]
  by_cases same : k / BSIZE = bn
  · subst same
    rw [kept]
    simp only [Disk.writeBytes_block_same, true_and]
  · rw [if_neg fun ⟨eq, _⟩ => same eq]
    cases at_k : ptrAt disk din (dataPos (k / BSIZE)) with
    | none => rfl
    | some c =>
      have : c ≠ addr := fun eq => by
        subst eq
        exact same (dataPos_inj kBelow below (eq_of_ptrAt_eq nodup at_k kept))
      exact congrFun (Disk.writeBytes_block_ne _ _ this) _

end Content

/-! ## Only one inode changes -/

/-- Only inode `inum` changed: every other inode keeps its dinode and the blocks it
keeps. -/
structure OthersKept (sb : Superblock) (disk : Disk) (inum : Nat) (disk' : Disk) : Prop where
  dinode : ∀ i, i ≠ inum → disk'.dinode i = disk.dinode i
  block : ∀ i < sb.ninodes, i ≠ inum → ∀ c ∈ inodePtrs disk i, disk'.block c = disk.block c

namespace OthersKept

variable {sb : Superblock} {disk disk' disk'' : Disk} {inum : Nat}

theorem refl (sb : Superblock) (disk : Disk) (inum : Nat) : OthersKept sb disk inum disk :=
  ⟨fun _ _ => rfl, fun _ _ _ _ _ => rfl⟩

/-- Another inode keeps its pointers. -/
theorem ptrAt_eq (kept : OthersKept sb disk inum disk') {i : Nat} (iRange : i < sb.ninodes) (other : i ≠ inum)
    (allocated : (disk.dinode i).type ≠ 0) : ptrAt disk' (disk'.dinode i) = ptrAt disk (disk.dinode i) := by
  rw [kept.dinode i other]
  refine ptrAt_congr fun p c _ own => funext fun j => Disk.word_congr (kept.block i iRange other c ?_) j
  simp only [inodePtrs, allocated, if_false]
  exact mem_ptrs.2 ⟨p, own⟩

theorem inodePtrs_eq (kept : OthersKept sb disk inum disk') {i : Nat} (iRange : i < sb.ninodes)
    (other : i ≠ inum) : inodePtrs disk' i = inodePtrs disk i := by
  unfold inodePtrs
  rw [kept.dinode i other]
  split
  · rfl
  · rename_i allocated
    unfold ptrs
    rw [← kept.dinode i other, kept.ptrAt_eq iRange other (by rwa [← kept.dinode i other] at allocated ⊢)]
    rw [kept.dinode i other]

theorem trans (first : OthersKept sb disk inum disk') (second : OthersKept sb disk' inum disk'') :
    OthersKept sb disk inum disk'' :=
  ⟨fun i other => (second.dinode i other).trans (first.dinode i other), fun i iRange other c mem =>
    (second.block i iRange other c (first.inodePtrs_eq iRange other ▸ mem)).trans
      (first.block i iRange other c mem)⟩

/-- Another inode keeps its content. -/
theorem content_eq (kept : OthersKept sb disk inum disk') {i : Nat} (iRange : i < sb.ninodes)
    (other : i ≠ inum) (allocated : (disk.dinode i).type ≠ 0) (bounded : (disk.dinode i).size ≤ MAXFILE * BSIZE) :
    content disk' (disk'.dinode i) = content disk (disk.dinode i) := by
  have pointers := kept.ptrAt_eq iRange other allocated
  rw [kept.dinode i other] at pointers ⊢
  unfold content
  refine List.map_congr_left fun k mem => ?_
  have small : k < MAXFILE * BSIZE := lt_of_lt_of_le (List.mem_range.1 mem) bounded
  rw [contentByte_eq small, contentByte_eq small, pointers]
  cases own : ptrAt disk (disk.dinode i) (dataPos (k / BSIZE)) with
  | none => rfl
  | some c =>
    refine congrFun (kept.block i iRange other c ?_) _
    simp only [inodePtrs, allocated, if_false]
    exact mem_ptrs.2 ⟨_, own⟩

end OthersKept

/-- A write confined to inode `inum`'s own blocks changes no other inode. -/
theorem othersKept_of_writesOwn {sb : Superblock} {disk disk' : Disk} {inum : Nat} {din din' : Dinode}
    (acc : Accounted sb (disk.setDinode inum din)) (inRange : inum < sb.ninodes) (used : din.type ≠ 0)
    (dinodes : disk'.dinode = disk.dinode) (writes : WritesOwn sb disk inum din disk') :
    OthersKept sb (disk.setDinode inum din) inum (disk'.setDinode inum din') :=
  ⟨fun i other => by simp [setAt_ne _ _ _ other, dinodes], fun i iRange other c mem =>
    block_of_writesOwn acc inRange used writes iRange other mem⟩

/-! ## `readi` -/

section Read

variable {sb : Superblock} {disk : Disk} {din : Dinode}

/-- A span within one block reads the content's bytes. -/
theorem readBytes_eq_bytesAt {off m c : Nat} (small : off < MAXFILE * BSIZE)
    (kept : ptrAt disk din (dataPos (off / BSIZE)) = some c) (within : off % BSIZE + m ≤ BSIZE) :
    disk.readBytes c (off % BSIZE) m = bytesAt disk din off m := by
  unfold Disk.readBytes bytesAt
  refine List.map_congr_left fun i mem => ?_
  have lt := List.mem_range.1 mem
  have sameBlock : (off + i) / BSIZE = off / BSIZE := by
    unfold BSIZE at *
    omega
  have offset : (off + i) % BSIZE = off % BSIZE + i := by
    unfold BSIZE at *
    omega
  rw [contentByte_eq (by unfold MAXFILE BSIZE at *; omega), sameBlock, kept, offset]

/-- The loop of `readi` over mapped blocks: it allocates nothing and delivers the
content's bytes until a span is refused. -/
theorem readiLoop_eq (dst : Nat → Bool) (n : Nat) :
    ∀ (fuel tot off : Nat) (out : List UInt8), n - tot ≤ fuel → off + (n - tot) ≤ MAXFILE * BSIZE →
      (∀ k, off ≤ k → k < off + (n - tot) → ptrAt disk din (dataPos (k / BSIZE)) ≠ none) →
      ∃ t ≤ n - tot, readiLoop sb dst n fuel disk din tot off out = .ok (out ++ bytesAt disk din off t, disk, din) ∧
        ((∀ k, tot ≤ k → k < n → dst k = true) → t = n - tot)
  | 0, tot, off, out, enough, _, _ => ⟨0, Nat.zero_le _, by simp [readiLoop, bytesAt], fun _ => by omega⟩
  | fuel + 1, tot, off, out, enough, bounded, mapped => by
    unfold readiLoop
    by_cases more : tot < n
    · rw [if_pos more]
      obtain ⟨c, kept⟩ := Option.ne_none_iff_exists'.1 (mapped off le_rfl (by omega))
      have below : off / BSIZE < MAXFILE := by
        unfold MAXFILE BSIZE at *
        omega
      have within : off % BSIZE + min (n - tot) (BSIZE - off % BSIZE) ≤ BSIZE := by
        unfold BSIZE
        omega
      have small : off < MAXFILE * BSIZE := by omega
      rw [bmap_of_ptrAt below kept, ok_bind]
      dsimp only
      have positive : 0 < min (n - tot) (BSIZE - off % BSIZE) := by
        unfold BSIZE
        omega
      have short := Nat.min_le_left (n - tot) (BSIZE - off % BSIZE)
      generalize min (n - tot) (BSIZE - off % BSIZE) = m at *
      by_cases copied : copyoutOk dst tot m = true
      · rw [if_pos copied]
        obtain ⟨t, le, run, complete⟩ := readiLoop_eq dst n fuel (tot + m) (off + m) _ (by omega) (by omega)
          (fun k lo hi => mapped k (by omega) (by omega))
        refine ⟨m + t, by omega, ?_, fun allOk => ?_⟩
        · rw [run, readBytes_eq_bytesAt small kept within, bytesAt_add, List.append_assoc]
        · have := complete fun k lo hi => allOk k (by omega) hi
          omega
      · rw [if_neg copied]
        refine ⟨0, Nat.zero_le _, by simp [bytesAt], fun allOk => absurd ?_ copied⟩
        simp only [copyoutOk, List.all_eq_true, List.mem_range]
        exact fun k lt => allOk _ (by omega) (by omega)
    · rw [if_neg more]
      exact ⟨0, Nat.zero_le _, by simp [bytesAt], fun _ => by omega⟩

/-- `readi` on an inode whose map covers its content, at an offset within it and a
count that does not wrap: it returns the count clamped to the end of the content,
delivers the content's bytes up to the first span the destination refuses, and
changes nothing. -/
theorem readi_eq (shaped : Shaped disk din) (dst : Nat → Bool) {off n : UInt32}
    (inside : off.toNat ≤ din.size) (noWrap : off.toNat ≤ (off.toNat + n.toNat) % 4294967296) :
    ∃ t ≤ min n.toNat (din.size - off.toNat),
      readi sb disk din dst off n =
        .ok (((min n.toNat (din.size - off.toNat) : Nat) : Int), bytesAt disk din off.toNat t, disk, din) ∧
      ((∀ k < min n.toNat (din.size - off.toNat), dst k = true) → t = min n.toNat (din.size - off.toNat)) := by
  have clamp : (if off.toNat + n.toNat > din.size then din.size - off.toNat else n.toNat) =
      min n.toNat (din.size - off.toNat) := by
    split <;> omega
  obtain ⟨t, le, run, complete⟩ := @readiLoop_eq sb disk din dst (min n.toNat (din.size - off.toNat))
    (min n.toNat (din.size - off.toNat)) 0 off.toNat [] (by omega) (by have := shaped.size_le; omega)
    (fun k lo hi => shaped.mapped _ (by unfold BSIZE at *; omega))
  refine ⟨t, by omega, ?_, fun allOk => complete fun k _ hi => allOk k hi⟩
  unfold readi
  rw [if_neg (by omega)]
  simp only [clamp, run, ok_bind, List.nil_append]
  rfl

end Read

/-! ## `writei` -/

section Copyin

theorem mapM_eq_some_map {α β : Type} {f : α → Option β} :
    ∀ {l : List α} {bs : List β}, l.mapM f = some bs → l.map f = bs.map some
  | [], bs, copied => by
    simp only [List.mapM_nil, Option.pure_def, Option.some.injEq] at copied
    subst copied
    rfl
  | a :: l, bs, copied => by
    rw [List.mapM_cons] at copied
    cases fa : f a with
    | none => simp only [fa, Option.bind_eq_bind, Option.none_bind, reduceCtorEq] at copied
    | some b =>
      cases rest : l.mapM f with
      | none => simp only [fa, rest, Option.bind_eq_bind, Option.some_bind, Option.none_bind, reduceCtorEq] at copied
      | some bs' =>
        simp only [fa, rest, Option.bind_eq_bind, Option.some_bind, Option.pure_def, Option.some.injEq] at copied
        subst copied
        simp [fa, mapM_eq_some_map rest]

theorem exists_none_of_mapM_eq_none {α β : Type} {f : α → Option β} :
    ∀ {l : List α}, l.mapM f = none → ∃ a ∈ l, f a = none
  | [], failed => by simp only [List.mapM_nil, Option.pure_def, reduceCtorEq] at failed
  | a :: l, failed => by
    rw [List.mapM_cons] at failed
    cases fa : f a with
    | none => exact ⟨a, List.mem_cons_self _ _, fa⟩
    | some b =>
      cases rest : l.mapM f with
      | none =>
        obtain ⟨a', mem, none⟩ := exists_none_of_mapM_eq_none rest
        exact ⟨a', List.mem_cons_of_mem _ mem, none⟩
      | some bs' =>
        simp only [fa, rest, Option.bind_eq_bind, Option.some_bind, Option.pure_def, reduceCtorEq] at failed

/-- What `either_copyin` gives: each byte of the span, or a fault at one of them. -/
theorem copyinBytes_some {src : Nat → Option UInt8} {tot m : Nat} {bytes : List UInt8}
    (copied : copyinBytes src tot m = some bytes) :
    bytes.length = m ∧ ∀ i < m, src (tot + i) = some (bytes.getD i 0) := by
  have same := mapM_eq_some_map copied
  have length := congrArg List.length same
  simp only [List.length_map, List.length_range] at length
  refine ⟨length.symm, fun i lt => ?_⟩
  have := congrArg (fun l => l[i]?) same
  simp only [List.getElem?_map, List.getElem?_range lt, List.getElem?_eq_getElem (by omega : i < bytes.length),
    Option.map_some', Option.some.injEq] at this
  simp [this, List.getD_eq_getElem?_getD, List.getElem?_eq_getElem (by omega : i < bytes.length)]

theorem copyinBytes_none {src : Nat → Option UInt8} {tot m : Nat} (failed : copyinBytes src tot m = none) :
    ∃ i < m, src (tot + i) = none := by
  obtain ⟨i, mem, none⟩ := exists_none_of_mapM_eq_none failed
  exact ⟨i, List.mem_range.1 mem, none⟩

end Copyin

section Write

variable {sb : Superblock} {inum : Nat}

/-- The effect of a run of `writei`'s loop from `(disk, din)` at byte `tot` of the
source and offset `off` of the file, stopping at offset `off'`. -/
structure Wrote (sb : Superblock) (inum : Nat) (src : Nat → Option UInt8) (tot off : Nat) (disk : Disk)
    (din : Dinode) (disk' : Disk) (din' : Dinode) (off' : Nat) : Prop where
  accounted : Accounted sb (disk'.setDinode inum din')
  fields : din' = { din with addrs := din'.addrs }
  others : OthersKept sb (disk.setDinode inum din) inum (disk'.setDinode inum din')
  advanced : off ≤ off'
  content : ∀ k < MAXFILE * BSIZE, contentByte disk' din' k =
    if off ≤ k ∧ k < off' then (src (tot + (k - off))).getD 0 else contentByte disk din k
  kept : ∀ p, ptrAt disk din p ≠ none → ptrAt disk' din' p ≠ none
  mapped : ∀ k, off ≤ k → k < off' → ptrAt disk' din' (dataPos (k / BSIZE)) ≠ none

theorem Wrote.type {src : Nat → Option UInt8} {tot off off' : Nat} {disk disk' : Disk} {din din' : Dinode}
    (wrote : Wrote sb inum src tot off disk din disk' din' off') : din'.type = din.type := by
  rw [wrote.fields]

theorem Wrote.size {src : Nat → Option UInt8} {tot off off' : Nat} {disk disk' : Disk} {din din' : Dinode}
    (wrote : Wrote sb inum src tot off disk din disk' din' off') : din'.size = din.size := by
  rw [wrote.fields]

theorem Wrote.trans {src : Nat → Option UInt8} {tot off tot1 off1 off2 : Nat} {disk disk1 disk2 : Disk}
    {din din1 din2 : Dinode} (first : Wrote sb inum src tot off disk din disk1 din1 off1)
    (second : Wrote sb inum src tot1 off1 disk1 din1 disk2 din2 off2) (aligned : tot1 = tot + (off1 - off)) :
    Wrote sb inum src tot off disk din disk2 din2 off2 := by
  have before := first.advanced
  have after := second.advanced
  refine ⟨second.accounted, by rw [second.fields, first.fields],
    first.others.trans second.others, le_trans before after, fun k small => ?_,
    fun p kept => second.kept p (first.kept p kept), fun k lo hi => ?_⟩
  · rw [second.content k small, first.content k small]
    by_cases late : off1 ≤ k
    · rw [if_neg (by omega : ¬(off ≤ k ∧ k < off1))]
      by_cases inside : k < off2
      · rw [if_pos ⟨late, inside⟩, if_pos ⟨by omega, inside⟩, aligned]
        congr 2
        omega
      · rw [if_neg (by omega), if_neg (by omega)]
    · rw [if_neg (by omega)]
      by_cases early : off ≤ k
      · rw [if_pos ⟨early, by omega⟩, if_pos ⟨early, by omega⟩]
      · rw [if_neg (by omega), if_neg (by omega)]
  · by_cases late : off1 ≤ k
    · exact second.mapped k late hi
    · exact second.kept _ (first.mapped k lo (by omega))

/-- Writing a data block of the inode keeps the bitmap in step: no pointer moves. -/
theorem accounted_writeBytes {disk : Disk} {din : Dinode} (wf : sb.WellFormed)
    (acc : Accounted sb (disk.setDinode inum din)) (inRange : inum < sb.ninodes) (used : din.type ≠ 0)
    {bn addr : Nat} (kept : ptrAt disk din (dataPos bn) = some addr) (start : Nat) (bytes : List UInt8) :
    Accounted sb ((disk.writeBytes addr start bytes).setDinode inum din) ∧
      OthersKept sb (disk.setDinode inum din) inum ((disk.writeBytes addr start bytes).setDinode inum din) := by
  have nodup := nodup_ptrs acc inRange used
  have writes : WritesOwn sb disk inum din (disk.writeBytes addr start bytes) := fun c changed => by
    by_cases same : c = addr
    · exact .inr (.inr ⟨dataPos bn, same ▸ kept⟩)
    · exact absurd (Disk.writeBytes_block_ne _ _ same) changed
  have others : OthersKept sb (disk.setDinode inum din) inum ((disk.writeBytes addr start bytes).setDinode inum din) :=
    othersKept_of_writesOwn acc inRange used (Disk.writeBytes_dinode _ _ _ _) writes
  have all : allPtrs sb ((disk.writeBytes addr start bytes).setDinode inum din) = allPtrs sb (disk.setDinode inum din) := by
    rw [allPtrs_eq_add inRange, allPtrs_eq_add inRange, inodePtrs_setDinode used, inodePtrs_setDinode used,
      others_bind_congr fun i iRange other => others.inodePtrs_eq iRange other]
    unfold ptrs
    rw [ptrAt_writeBytes nodup kept]
  have data := (acc.inData addr (mem_allPtrs_of_ptrAt inRange used kept)).1
  refine ⟨⟨all ▸ acc.nodup, fun b mem => acc.inData b (all ▸ mem), fun b lt => ?_⟩, others⟩
  have bitmap := wf.bitmapBelowData b lt
  rw [bit_congr sb (show ((disk.writeBytes addr start bytes).setDinode inum din).block (sb.BBLOCK b) =
    (disk.setDinode inum din).block (sb.BBLOCK b) from Disk.writeBytes_block_ne _ _ (by omega)), all]
  exact acc.bit_iff b lt

/-- Fills alone: nothing written, the content as it was. -/
theorem Wrote.of_grows {src : Nat → Option UInt8} {tot off : Nat} {disk disk' : Disk} {din din' : Dinode}
    (acc : Accounted sb (disk.setDinode inum din)) (inRange : inum < sb.ninodes) (used : din.type ≠ 0)
    (grows : Grows sb disk din disk' din') : Wrote sb inum src tot off disk din disk' din' off :=
  ⟨grows.accounted acc inRange used, grows.fields,
    othersKept_of_writesOwn acc inRange used grows.dinode_eq (grows.writesOwn acc inRange used), le_rfl,
    fun k small => by rw [if_neg (by omega), contentByte_of_grows acc inRange used grows small],
    fun _ kept => by
      obtain ⟨c, own⟩ := Option.ne_none_iff_exists'.1 kept
      rw [grows.ptrAt_of_some own]
      exact Option.some_ne_none c,
    fun _ lo hi => absurd hi (by omega)⟩

/-- One pass of the loop of `writei`: the span copied in goes into the block kept for its
first byte, within that block, and moves no pointer. -/
theorem Wrote.span {disk : Disk} {din : Dinode} (wf : sb.WellFormed) (acc : Accounted sb (disk.setDinode inum din))
    (inRange : inum < sb.ninodes) (used : din.type ≠ 0) {src : Nat → Option UInt8} {tot off addr m : Nat}
    {bytes : List UInt8} (below : off / BSIZE < MAXFILE) (atBlock : ptrAt disk din (dataPos (off / BSIZE)) = some addr)
    (within : off % BSIZE + m ≤ BSIZE) (copied : copyinBytes src tot m = some bytes) :
    Wrote sb inum src tot off disk din (disk.writeBytes addr (off % BSIZE) bytes) din (off + m) := by
  obtain ⟨length, bytesEq⟩ := copyinBytes_some copied
  obtain ⟨acc2, others2⟩ := accounted_writeBytes wf acc inRange used atBlock (off % BSIZE) bytes
  have nodup := nodup_ptrs acc inRange used
  refine ⟨acc2, rfl, others2, by omega, fun k small => ?_, fun p kept => by rwa [ptrAt_writeBytes nodup atBlock],
    fun k lo hi => ?_⟩
  · rw [contentByte_writeBytes nodup below atBlock _ _ small, length]
    by_cases inside : off ≤ k ∧ k < off + m
    · have sameBlock : k / BSIZE = off / BSIZE ∧ off % BSIZE ≤ k % BSIZE ∧ k % BSIZE < off % BSIZE + m := by
        unfold BSIZE at *
        omega
      have index : k % BSIZE - off % BSIZE = k - off := by
        unfold BSIZE at *
        omega
      rw [if_pos sameBlock, if_pos inside, index, bytesEq (k - off) (by omega)]
      rfl
    · have otherBlock : ¬(k / BSIZE = off / BSIZE ∧ off % BSIZE ≤ k % BSIZE ∧ k % BSIZE < off % BSIZE + m) := by
        unfold BSIZE at *
        omega
      rw [if_neg otherBlock, if_neg inside]
  · have sameBlock : k / BSIZE = off / BSIZE := by
      unfold BSIZE at *
      omega
    rw [sameBlock, ptrAt_writeBytes nodup atBlock, atBlock]
    exact Option.some_ne_none _

/-- The loop of `writei` writes the source's bytes from offset `off` on until the
count is reached or a span faults; every span it reaches gets a block. -/
theorem writeiLoop_wrote (wf : sb.WellFormed) (inRange : inum < sb.ninodes) (src : Nat → Option UInt8) (n : Nat) :
    ∀ (fuel : Nat) {disk disk' : Disk} {din din' : Dinode} {tot off off' : Nat},
      Accounted sb (disk.setDinode inum din) → din.type ≠ 0 → off + (n - tot) ≤ MAXFILE * BSIZE →
      writeiLoop sb src n fuel disk din tot off = .ok (disk', din', off') →
      Wrote sb inum src tot off disk din disk' din' off' ∧ off' ≤ off + (n - tot) ∧
        (n - tot ≤ fuel → (∀ k, tot ≤ k → k < n → src k ≠ none) → off' = off + (n - tot))
  | 0, disk, disk', din, din', tot, off, off', acc, used, _, run => by
    cases run
    exact ⟨.of_grows acc inRange used (.refl _ _), by omega, fun enough _ => by omega⟩
  | fuel + 1, disk, disk', din, din', tot, off, off', acc, used, bounded, run => by
    unfold writeiLoop at run
    by_cases more : tot < n
    · rw [if_pos more] at run
      obtain ⟨⟨addr, disk1, din1⟩, mapped, run⟩ := bind_eq_ok.1 run
      have below : off / BSIZE < MAXFILE := by
        unfold MAXFILE NINDIRECT BSIZE at bounded ⊢
        omega
      obtain ⟨grows, atBlock, -⟩ := grows_bmap wf acc inRange used below mapped
      have acc1 := grows.accounted acc inRange used
      have used1 : din1.type ≠ 0 := grows.type_eq ▸ used
      have stay : Wrote sb inum src tot off disk din disk1 din1 off := .of_grows acc inRange used grows
      dsimp only at run
      have positive : 0 < min (n - tot) (BSIZE - off % BSIZE) := by
        unfold BSIZE
        omega
      have within : off % BSIZE + min (n - tot) (BSIZE - off % BSIZE) ≤ BSIZE := by
        unfold BSIZE
        omega
      have short := Nat.min_le_left (n - tot) (BSIZE - off % BSIZE)
      generalize min (n - tot) (BSIZE - off % BSIZE) = m at *
      cases copied : copyinBytes src tot m with
      | none =>
        rw [copied] at run
        cases run
        refine ⟨stay, by omega, fun _ allSome => ?_⟩
        obtain ⟨i, lt, fault⟩ := copyinBytes_none copied
        exact absurd fault (allSome (tot + i) (by omega) (by omega))
      | some bytes =>
        rw [copied] at run
        have step := stay.trans (Wrote.span wf acc1 inRange used1 below atBlock within copied) (by omega)
        obtain ⟨rest, le, complete⟩ := writeiLoop_wrote wf inRange src n fuel step.accounted used1 (by omega) run
        refine ⟨step.trans rest (by omega), by omega, fun enough allSome => ?_⟩
        have := complete (by omega) fun k lo hi => allSome k (by omega) hi
        omega
    · rw [if_neg more] at run
      cases run
      exact ⟨.of_grows acc inRange used (.refl _ _), by omega, fun _ _ => by omega⟩

/-- What a run of `writei` can be: a refusal that changes nothing, or its loop from
offset `off`, with the inode's size raised to the offset reached and written back. -/
theorem writei_cases {disk disk' : Disk} {din din' : Dinode} {src : Nat → Option UInt8} {off n : UInt32}
    {r : Int} (run : writei sb disk inum din src off n = .ok (r, disk', din')) :
    (r = -1 ∧ disk' = disk ∧ din' = din) ∨
      (off.toNat ≤ din.size ∧ off.toNat + n.toNat ≤ MAXFILE * BSIZE ∧ r = n.toNat ∧
        ((n.toNat = 0 ∧ disk' = disk ∧ din' = din) ∨
          (0 < n.toNat ∧ ∃ disk1 din1 off', writeiLoop sb src n.toNat n.toNat disk din 0 off.toNat =
            .ok (disk1, din1, off') ∧ din' = (if off' > din1.size then { din1 with size := off' } else din1) ∧
            disk' = disk1.setDinode inum din'))) := by
  unfold writei at run
  dsimp only at run
  split at run
  · cases run
    exact .inl ⟨rfl, rfl, rfl⟩
  · rename_i inside
    split at run
    · cases run
      exact .inl ⟨rfl, rfl, rfl⟩
    · rename_i fits
      obtain ⟨⟨disk1, din1, off'⟩, loop, run⟩ := bind_eq_ok.1 run
      dsimp only at run
      refine .inr ⟨by omega, by omega, ?_⟩
      split at run
      · rename_i positive
        cases run
        exact ⟨rfl, .inr ⟨positive, disk1, din1, off', loop, rfl, rfl⟩⟩
      · rename_i zero
        cases run
        have : n.toNat = 0 := by omega
        rw [this] at loop
        cases loop
        exact ⟨rfl, .inl ⟨this, rfl, rfl⟩⟩

/-- A `writei` from an offset within the content, for a span that ends within
`MAXFILE` blocks, is not refused: it returns the count. -/
theorem writei_accepted {disk disk' : Disk} {din din' : Dinode} {src : Nat → Option UInt8} {off n : UInt32}
    {r : Int} (run : writei sb disk inum din src off n = .ok (r, disk', din')) (inside : off.toNat ≤ din.size)
    (fits : off.toNat + n.toNat ≤ MAXFILE * BSIZE) : r = n.toNat := by
  have small : MAXFILE * BSIZE < 4294967296 := by decide
  unfold writei at run
  dsimp only at run
  rw [if_neg (by omega), if_neg (by omega)] at run
  obtain ⟨⟨disk1, din1, off'⟩, -, run⟩ := bind_eq_ok.1 run
  dsimp only at run
  split at run <;> cases run <;> rfl

section Effect

variable {disk disk' : Disk} {din din' : Dinode} (wf : sb.WellFormed)
  (acc : Accounted sb (disk.setDinode inum din)) (inRange : inum < sb.ninodes) (used : din.type ≠ 0)
  (shaped : Shaped disk din)
include wf acc inRange used shaped

omit shaped in
/-- The loop of a `writei` that is not refused, and the size it leaves. -/
theorem writei_loop {src : Nat → Option UInt8} {off n : UInt32} {disk1 : Disk} {din1 : Dinode} {off' : Nat}
    (fits : off.toNat + n.toNat ≤ MAXFILE * BSIZE)
    (loop : writeiLoop sb src n.toNat n.toNat disk din 0 off.toNat = .ok (disk1, din1, off')) :
    Wrote sb inum src 0 off.toNat disk din disk1 din1 off' ∧ off' ≤ off.toNat + n.toNat ∧
      ((∀ k < n.toNat, src k ≠ none) → off' = off.toNat + n.toNat) := by
  obtain ⟨wrote, le, complete⟩ := writeiLoop_wrote wf inRange src n.toNat n.toNat acc used (by omega) loop
  exact ⟨wrote, by omega, fun allSome => by
    have := complete (by omega) fun k _ hi => allSome k hi
    omega⟩

/-- After `writei`, the inode with its new size keeps the bitmap in step, its map
covers its content, no other inode changed, only its size and addresses moved, and
the disk holds it unless the call changed nothing. -/
theorem writei_effect {src : Nat → Option UInt8} {off n : UInt32} {r : Int}
    (run : writei sb disk inum din src off n = .ok (r, disk', din')) :
    Accounted sb (disk'.setDinode inum din') ∧ Shaped disk' din' ∧
      OthersKept sb (disk.setDinode inum din) inum (disk'.setDinode inum din') ∧
      din' = { din with size := din'.size, addrs := din'.addrs } ∧
      (disk'.dinode inum = din' ∨ (disk' = disk ∧ din' = din)) := by
  rcases writei_cases run with ⟨-, rfl, rfl⟩ | ⟨inside, fits, -, ⟨-, rfl, rfl⟩ | ⟨-, disk1, din1, off', loop, rfl, rfl⟩⟩
  · exact ⟨acc, shaped, .refl _ _ _, rfl, .inr ⟨rfl, rfl⟩⟩
  · exact ⟨acc, shaped, .refl _ _ _, rfl, .inr ⟨rfl, rfl⟩⟩
  obtain ⟨wrote, le, -⟩ := writei_loop wf acc inRange used fits loop
  have sized : (if off' > din1.size then { din1 with size := off' } else din1) =
      { din1 with size := max din.size off' } := by
    have size := wrote.size
    by_cases grew : off' > din1.size
    · rw [if_pos grew, max_eq_right (by omega)]
    · rw [if_neg grew, max_eq_left (by omega), ← size]
  rw [sized]
  have fields := wrote.fields
  have pointers : ∀ d : Disk, d.block = disk1.block →
      ptrAt d { din1 with size := max din.size off' } = ptrAt disk1 din1 := fun d block =>
    (ptrAt_addrs_congr rfl).trans (ptrAt_congr fun _ _ _ _ => funext fun j => Disk.word_congr (congrFun block _) j)
  refine ⟨?_, ⟨?_, fun bn below => ?_⟩, ?_, ?_, .inl (by simp)⟩
  · rw [Disk.setDinode_setDinode]
    refine wrote.accounted.congr rfl fun i => ?_
    by_cases same : i = inum
    · subst same
      simp
    · simp [setAt_ne _ _ _ same]
  · simp only
    have := shaped.size_le
    omega
  · rw [pointers (disk1.setDinode inum _) rfl]
    by_cases old : bn * BSIZE < din.size
    · exact wrote.kept _ (shaped.mapped bn old)
    · have := wrote.mapped (bn * BSIZE) (by omega) (by simp only at below; omega)
      rwa [Nat.mul_div_cancel _ (by unfold BSIZE; omega)] at this
  · refine wrote.others.trans ⟨fun i other => by simp [setAt_ne _ _ _ other], fun _ _ _ _ _ => rfl⟩
  · rw [fields]

omit shaped in
/-- A `writei` that is not refused, from a source that delivers every byte, puts the
source's bytes into the content from `off` on and raises the size to cover them. -/
theorem writei_content {src : Nat → Option UInt8} {off n : UInt32} {r : Int}
    (run : writei sb disk inum din src off n = .ok (r, disk', din')) (accepted : r ≠ -1)
    (allSome : ∀ k < n.toNat, src k ≠ none) :
    din'.size = max din.size (off.toNat + n.toNat) ∧
      ∀ k < MAXFILE * BSIZE, contentByte disk' din' k =
        if off.toNat ≤ k ∧ k < off.toNat + n.toNat then (src (k - off.toNat)).getD 0
        else contentByte disk din k := by
  rcases writei_cases run with ⟨refused, -, -⟩ |
    ⟨inside, fits, -, ⟨zero, rfl, rfl⟩ | ⟨-, disk1, din1, off', loop, rfl, rfl⟩⟩
  · exact absurd refused accepted
  · exact ⟨by omega, fun k _ => (if_neg (by omega)).symm⟩
  obtain ⟨wrote, -, complete⟩ := writei_loop wf acc inRange used fits loop
  obtain rfl := complete allSome
  have size := wrote.size
  have kept : ∀ k, contentByte (disk1.setDinode inum
      (if off.toNat + n.toNat > din1.size then { din1 with size := off.toNat + n.toNat } else din1))
      (if off.toNat + n.toNat > din1.size then { din1 with size := off.toNat + n.toNat } else din1) k =
      contentByte disk1 din1 k := fun k => by
    split <;> rfl
  refine ⟨by split <;> simp only [size] <;> omega, fun k small => ?_⟩
  rw [kept, wrote.content k small, Nat.zero_add]

end Effect

end Write

end Xv6Fs
