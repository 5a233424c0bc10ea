import Xv6Fs.CacheSpec

/-!
# Directory entries: what `dirlookup` and `dirlink` do to them

A directory is read as the list of its entries, `direntries`.  Over that list the
search of `dirlookup` is `findEntry`, the first entry in use whose name `namecmp`
finds equal, and the write of `dirlink` is `placeEntry`, into the first free entry or
after the last one.

`namecmp` returns zero exactly where `strncpy` pads the two names alike, so it is an
equivalence, and the name `dirlink` stores compares as the name it was given.  The
entry stores the inode number as a `ushort`: only numbers below `65536` read back, and
a well-formed superblock has no more inodes than that.

`DirWf` is a well-formed directory held in a cache slot.  `dirlink` and the clearing
of an entry by `sys_unlink` keep it.
-/

namespace Xv6Fs

/-! ## Names -/

section Names

@[simp] theorem strncpy_zero (t : List UInt8) : strncpy t 0 = [] := by
  simp [strncpy]

@[simp] theorem strncpy_nil (n : Nat) : strncpy [] n = List.replicate n 0 := by
  simp [strncpy, List.take_replicate]

theorem strncpy_cons (a : UInt8) (t : List UInt8) (n : Nat) :
    strncpy (a :: t) (n + 1) = if a ≠ 0 then a :: strncpy t n else List.replicate (n + 1) 0 := by
  by_cases zero : a = 0
  · simp [strncpy, zero, List.take_replicate]
  · simp only [strncpy, List.takeWhile_cons, ne_eq, zero, not_false_eq_true, decide_True, if_true,
      List.cons_append, List.take_succ_cons, List.take_append_eq_append_take, List.take_replicate,
      List.cons.injEq, true_and]
    rw [Nat.min_eq_left (by omega), Nat.min_eq_left (Nat.sub_le _ _)]

theorem strncpy_succ (p : List UInt8) (n : Nat) :
    strncpy p (n + 1) = if p.headD 0 ≠ 0 then p.headD 0 :: strncpy p.tail n else List.replicate (n + 1) 0 := by
  cases p with
  | nil => simp
  | cons a t => exact strncpy_cons a t n

@[simp] theorem length_strncpy (t : List UInt8) (n : Nat) : (strncpy t n).length = n := by
  simp [strncpy]

theorem strncpy_replicate (m n : Nat) : strncpy (List.replicate m 0) n = List.replicate n 0 := by
  cases m <;> cases n <;> simp [List.replicate_succ, strncpy_cons]

/-- A padded name pads to itself. -/
theorem strncpy_strncpy (t : List UInt8) (n : Nat) : strncpy (strncpy t n) n = strncpy t n := by
  induction n generalizing t with
  | zero => simp
  | succ n ih =>
    cases t with
    | nil => simp [strncpy_replicate]
    | cons a t =>
      rw [strncpy_cons]
      split
      · rw [strncpy_cons, if_pos ‹_›, ih]
      · exact strncpy_replicate _ _

/-- `strncmp` finds two strings equal exactly where `strncpy` pads them alike. -/
theorem strncmp_eq_zero_iff (p q : List UInt8) (n : Nat) : strncmp p q n = 0 ↔ strncpy p n = strncpy q n := by
  induction n generalizing p q with
  | zero => simp [strncmp]
  | succ n ih =>
    have toNat_eq : ∀ a b : UInt8, ((a.toNat : Int) - b.toNat = 0 ↔ a = b) := fun a b => by
      rw [sub_eq_zero, Int.ofNat_inj]
      exact ⟨UInt8.toNat.inj, congrArg _⟩
    rw [strncmp, strncpy_succ p, strncpy_succ q]
    by_cases same : p.headD 0 ≠ 0 ∧ p.headD 0 = q.headD 0
    · rw [if_pos same, ih, if_pos same.1, if_pos (same.2 ▸ same.1), same.2, List.cons.injEq]
      simp
    · rw [if_neg same, toNat_eq, List.replicate_succ]
      generalize p.headD 0 = a at *
      generalize q.headD 0 = b at *
      by_cases a0 : a = 0 <;> by_cases b0 : b = 0
      · simp [a0, b0]
      · simp [a0, b0, Ne.symm b0]
      · simp [a0, b0, Ne.symm a0]
      · have differ : a ≠ b := fun h => same ⟨a0, h⟩
        simp [a0, b0, differ]

/-- `namecmp` returns zero exactly where `strncpy` pads the names to `DIRSIZ` bytes alike. -/
theorem namecmp_eq_zero_iff (s t : List UInt8) : namecmp s t = 0 ↔ strncpy s DIRSIZ = strncpy t DIRSIZ :=
  strncmp_eq_zero_iff s t DIRSIZ

/-- Names compare on their first `DIRSIZ` bytes only. -/
example : namecmp (List.replicate 15 97) (List.replicate DIRSIZ 97) = 0 := by decide

theorem namecmp_comm (s t : List UInt8) : namecmp s t = 0 ↔ namecmp t s = 0 := by
  rw [namecmp_eq_zero_iff, namecmp_eq_zero_iff, eq_comm]

/-- The name `dirlink` stores compares as the name it was given. -/
theorem namecmp_strncpy (s t : List UInt8) : namecmp s (strncpy t DIRSIZ) = 0 ↔ namecmp s t = 0 := by
  rw [namecmp_eq_zero_iff, namecmp_eq_zero_iff, strncpy_strncpy]

end Names

/-! ## The entries of a directory -/

section Entries

/-- Whether `de` is in use and `namecmp` finds its name equal to `name`: the entry the
loop of `dirlookup` stops at. -/
def Dirent.names (name : List UInt8) (de : Dirent) : Bool :=
  decide (de.inum ≠ 0 ∧ namecmp name de.name = 0)

/-- The search of `dirlookup` among a directory's entries: the inode number and the
index of the first entry in use that names `name`. -/
def findEntry (name : List UInt8) : List Dirent → Option (Nat × Nat)
  | [] => none
  | de :: rest =>
    if de.names name then some (de.inum, 0) else (findEntry name rest).map fun r => (r.1, r.2 + 1)

/-- The index of the first free entry, which the scan of `dirlink` stops at: the
number of entries when none is free. -/
def freeSlot : List Dirent → Nat
  | [] => 0
  | de :: rest => if de.inum = 0 then 0 else freeSlot rest + 1

/-- The entries once `de` is written into the first free entry, or after the last one
when none is free. -/
def placeEntry (de : Dirent) : List Dirent → List Dirent
  | [] => [de]
  | e :: rest => if e.inum = 0 then de :: rest else e :: placeEntry de rest

/-- No two entries in use carry names that `namecmp` finds equal. -/
def NamesUnique (entries : List Dirent) : Prop :=
  entries.Pairwise fun a b => a.inum ≠ 0 → b.inum ≠ 0 → namecmp a.name b.name ≠ 0

instance : DecidablePred NamesUnique := fun entries =>
  inferInstanceAs (Decidable (entries.Pairwise fun a b : Dirent =>
    a.inum ≠ 0 → b.inum ≠ 0 → namecmp a.name b.name ≠ 0))

/-- Names that `namecmp` finds equal name the same entries. -/
theorem Dirent.names_congr {n n' : List UInt8} (same : namecmp n n' = 0) (de : Dirent) :
    de.names n' = de.names n := by
  rw [namecmp_eq_zero_iff] at same
  simp only [Dirent.names, namecmp_eq_zero_iff, same]

/-- The entry `dirlink` writes for `n` names what `namecmp` finds equal to `n`. -/
theorem Dirent.names_stored {i : Nat} (live : i ≠ 0) (n n' : List UInt8) :
    (Dirent.mk i (strncpy n DIRSIZ)).names n' = decide (namecmp n n' = 0) := by
  simp only [Dirent.names, ne_eq, live, not_false_eq_true, true_and, namecmp_strncpy]
  exact decide_eq_decide.2 (namecmp_comm n' n)

theorem findEntry_eq_none_iff {name : List UInt8} {l : List Dirent} :
    findEntry name l = none ↔ ∀ de ∈ l, de.names name = false := by
  induction l with
  | nil => simp [findEntry]
  | cons de rest ih => by_cases hit : de.names name <;> simp [findEntry, hit, ih]

/-- The entry found is one of the entries. -/
theorem findEntry_lt {name : List UInt8} :
    ∀ {l : List Dirent} {inum k : Nat}, findEntry name l = some (inum, k) → k < l.length
  | [], _, _, found => by cases found
  | de :: rest, inum, k, found => by
    unfold findEntry at found
    split at found
    · obtain ⟨-, rfl⟩ := Prod.mk.inj (Option.some.inj found)
      simp
    · obtain ⟨⟨inum', k'⟩, found', eq⟩ := Option.map_eq_some'.1 found
      obtain ⟨-, rfl⟩ := Prod.mk.inj eq
      simpa using findEntry_lt found'

theorem freeSlot_le : ∀ l : List Dirent, freeSlot l ≤ l.length
  | [] => le_rfl
  | de :: rest => by
    have := freeSlot_le rest
    unfold freeSlot
    split <;> simp only [List.length_cons] <;> omega

theorem mem_placeEntry {de b : Dirent} : ∀ {l : List Dirent}, b ∈ placeEntry de l → b = de ∨ b ∈ l
  | [], mem => .inl (List.mem_singleton.1 mem)
  | e :: rest, mem => by
    unfold placeEntry at mem
    split at mem
    · rcases List.mem_cons.1 mem with rfl | mem
      · exact .inl rfl
      · exact .inr (List.mem_cons_of_mem e mem)
    · rcases List.mem_cons.1 mem with rfl | mem
      · exact .inr (List.mem_cons_self _ _)
      · exact (mem_placeEntry mem).imp_right (List.mem_cons_of_mem e)

/-- `placeEntry` replaces the first free entry, or appends after the last one. -/
theorem placeEntry_eq (de : Dirent) : ∀ l : List Dirent,
    placeEntry de l = if freeSlot l < l.length then l.set (freeSlot l) de else l ++ [de]
  | [] => rfl
  | e :: rest => by
    unfold placeEntry freeSlot
    split
    · simp
    · rw [placeEntry_eq de rest]
      by_cases inside : freeSlot rest < rest.length <;> simp [inside]

section Stored

variable {n : List UInt8} {i : Nat}

/-- After the write of `dirlink`, a name `namecmp` finds equal to the one linked is
found at the entry written. -/
theorem findEntry_placeEntry_same (live : i ≠ 0) {n' : List UInt8} (same : namecmp n n' = 0) :
    ∀ {l : List Dirent}, findEntry n l = none →
      findEntry n' (placeEntry ⟨i, strncpy n DIRSIZ⟩ l) = some (i, freeSlot l)
  | [], _ => by simp [placeEntry, findEntry, freeSlot, Dirent.names_stored live, same]
  | e :: rest, absent => by
    rw [findEntry_eq_none_iff, List.forall_mem_cons] at absent
    unfold placeEntry freeSlot
    split
    · simp [findEntry, Dirent.names_stored live, same]
    · rw [findEntry, Dirent.names_congr same, absent.1,
        findEntry_placeEntry_same live same (findEntry_eq_none_iff.2 absent.2)]
      rfl

/-- After the write of `dirlink`, any other name is found where it was found before. -/
theorem findEntry_placeEntry_other (live : i ≠ 0) {n' : List UInt8} (other : namecmp n n' ≠ 0) :
    ∀ l : List Dirent, findEntry n' (placeEntry ⟨i, strncpy n DIRSIZ⟩ l) = findEntry n' l
  | [] => by simp [placeEntry, findEntry, Dirent.names_stored live, other]
  | e :: rest => by
    unfold placeEntry
    split
    · rename_i free
      have head : e.names n' = false := by simp [Dirent.names, free]
      simp only [findEntry, Dirent.names_stored live, decide_eq_false other, head, Bool.false_eq_true,
        if_false]
    · simp only [findEntry, findEntry_placeEntry_other live other rest]

/-- `dirlink` writes a name no entry in use carries: the names stay distinct. -/
theorem namesUnique_placeEntry : ∀ {l : List Dirent}, NamesUnique l → findEntry n l = none →
    NamesUnique (placeEntry ⟨i, strncpy n DIRSIZ⟩ l)
  | [], _, _ => List.pairwise_singleton _ _
  | e :: rest, unique, absent => by
    rw [NamesUnique, List.pairwise_cons] at unique
    rw [findEntry_eq_none_iff, List.forall_mem_cons] at absent
    unfold placeEntry
    split
    · refine List.pairwise_cons.2 ⟨fun b mem _ live same => ?_, unique.2⟩
      rw [namecmp_comm, namecmp_strncpy, namecmp_comm] at same
      simpa [Dirent.names, live, same] using absent.2 b mem
    · rename_i used
      refine List.pairwise_cons.2 ⟨fun b mem => ?_, namesUnique_placeEntry unique.2
        (findEntry_eq_none_iff.2 absent.2)⟩
      rcases mem_placeEntry mem with rfl | mem
      · intro _ _ same
        rw [namecmp_strncpy, namecmp_comm] at same
        simpa [Dirent.names, used, same] using absent.1
      · exact unique.1 b mem

end Stored

/-- Clearing the entry found for `n` in a directory whose names are distinct leaves no
entry in use that names `n`, nor any name `namecmp` finds equal to it. -/
theorem findEntry_clear {n n' : List UInt8} (same : namecmp n n' = 0) (z : List UInt8) :
    ∀ {l : List Dirent} {inum k : Nat}, NamesUnique l → findEntry n l = some (inum, k) →
      findEntry n' (l.set k ⟨0, z⟩) = none
  | [], _, _, _, found => by cases found
  | de :: rest, inum, k, unique, found => by
    rw [NamesUnique, List.pairwise_cons] at unique
    unfold findEntry at found
    split at found
    · rename_i hit
      obtain ⟨rfl, rfl⟩ := Prod.mk.inj (Option.some.inj found)
      rw [List.set_cons_zero, findEntry, if_neg (by simp [Dirent.names]), Option.map_eq_none',
        findEntry_eq_none_iff]
      refine fun b mem => Bool.eq_false_iff.2 fun named => ?_
      simp only [Dirent.names, decide_eq_true_eq, namecmp_eq_zero_iff] at hit named
      rw [namecmp_eq_zero_iff] at same
      exact unique.1 b mem hit.1 named.1 ((namecmp_eq_zero_iff _ _).2 (hit.2.symm.trans (same.trans named.2)))
    · rename_i miss
      obtain ⟨⟨inum', k'⟩, found', eq⟩ := Option.map_eq_some'.1 found
      obtain ⟨-, rfl⟩ := Prod.mk.inj eq
      rw [List.set_cons_succ, findEntry, Dirent.names_congr same, if_neg miss,
        findEntry_clear same z unique.2 found']
      rfl

/-- A cleared entry is free: the names stay distinct. -/
theorem namesUnique_set_free (z : List UInt8) : ∀ {l : List Dirent}, NamesUnique l → ∀ k,
    NamesUnique (l.set k ⟨0, z⟩)
  | [], _, _ => List.Pairwise.nil
  | e :: rest, unique, k => by
    rw [NamesUnique, List.pairwise_cons] at unique
    cases k with
    | zero => exact List.pairwise_cons.2 ⟨fun _ _ free => absurd rfl free, unique.2⟩
    | succ k =>
      refine List.pairwise_cons.2 ⟨fun b mem => ?_, namesUnique_set_free z unique.2 k⟩
      rcases List.mem_or_eq_of_mem_set mem with mem | rfl
      · exact unique.1 b mem
      · exact fun _ free => absurd rfl free

end Entries

/-! ## The entries on disk -/

section Disk

theorem direntries_eq (disk : Disk) (din : Dinode) :
    direntries disk din =
      (List.range (din.size / DIRENT_SIZE)).map fun k => Dirent.decode (bytesAt disk din (DIRENT_SIZE * k) DIRENT_SIZE) :=
  rfl

@[simp] theorem length_direntries (disk : Disk) (din : Dinode) :
    (direntries disk din).length = din.size / DIRENT_SIZE := by
  simp [direntries]

theorem getElem_direntries {disk : Disk} {din : Dinode} {k : Nat} (lt : k < (direntries disk din).length) :
    (direntries disk din)[k] = Dirent.decode (bytesAt disk din (DIRENT_SIZE * k) DIRENT_SIZE) := by
  simp [direntries_eq]

/-- An entry whose inode number fits the `ushort` and whose name is `DIRSIZ` bytes long
reads back as written. -/
theorem Dirent.decode_encode {de : Dirent} (small : de.inum < 65536) (length : de.name.length = DIRSIZ) :
    Dirent.decode de.encode = de := by
  obtain ⟨inum, name⟩ := de
  dsimp only at small length
  simp only [Dirent.decode, Dirent.encode, List.getD_cons_zero, List.getD_cons_succ, List.drop_succ_cons,
    List.drop_zero, Disk.byte_toNat_ofNat, Dirent.mk.injEq]
  exact ⟨by omega, List.take_of_length_le (by rw [length])⟩

@[simp] theorem Dirent.length_encode (de : Dirent) : de.encode.length = de.name.length + 2 :=
  rfl

/-- The sixteen zero bytes `sys_unlink` writes over an entry are a free entry. -/
theorem Dirent.encode_free : (Dirent.mk 0 (List.replicate DIRSIZ 0)).encode = List.replicate DIRENT_SIZE 0 :=
  rfl

/-- The bytes of an entry written at entry `k` of a directory whose size is a whole
number of entries, `k` one of its entries or its end: that entry is replaced, or
appended. -/
theorem direntries_write {disk disk' : Disk} {din din' : Dinode} {k : Nat} {bytes : List UInt8}
    (length : bytes.length = DIRENT_SIZE) (aligned : din.size % DIRENT_SIZE = 0)
    (slot : k ≤ din.size / DIRENT_SIZE) (fits : din'.size ≤ MAXFILE * BSIZE)
    (size : din'.size = max din.size (DIRENT_SIZE * k + DIRENT_SIZE))
    (content : ∀ j < MAXFILE * BSIZE, contentByte disk' din' j =
      if DIRENT_SIZE * k ≤ j ∧ j < DIRENT_SIZE * k + DIRENT_SIZE then bytes.getD (j - DIRENT_SIZE * k) 0
      else contentByte disk din j) :
    direntries disk' din' = if k < din.size / DIRENT_SIZE then (direntries disk din).set k (Dirent.decode bytes)
      else direntries disk din ++ [Dirent.decode bytes] := by
  have entry : ∀ j, DIRENT_SIZE * j + DIRENT_SIZE ≤ din'.size →
      bytesAt disk' din' (DIRENT_SIZE * j) DIRENT_SIZE =
        if j = k then bytes else bytesAt disk din (DIRENT_SIZE * j) DIRENT_SIZE := fun j within => by
    split
    · rename_i same
      subst same
      refine List.ext_getElem (by simp [length]) fun i lt _ => ?_
      simp only [length_bytesAt] at lt
      simp only [bytesAt, List.getElem_map, List.getElem_range]
      rw [content _ (by omega), if_pos (by omega), Nat.add_sub_cancel_left, List.getD_eq_getElem?_getD,
        List.getElem?_eq_getElem (by omega), Option.getD_some]
    · rename_i other
      refine List.map_congr_left fun i mem => ?_
      have := List.mem_range.1 mem
      rw [content _ (by omega), if_neg (by unfold DIRENT_SIZE DIRSIZ at *; omega)]
  by_cases lt : k < din.size / DIRENT_SIZE
  · have same : din'.size = din.size := by
      rw [size]
      exact max_eq_left (by unfold DIRENT_SIZE DIRSIZ at *; omega)
    rw [if_pos lt]
    refine List.ext_getElem (by simp [same]) fun j h1 h2 => ?_
    simp only [length_direntries, same] at h1
    rw [getElem_direntries, List.getElem_set, entry j (by unfold DIRENT_SIZE DIRSIZ at *; omega)]
    split
    · rename_i eq
      rw [if_pos eq.symm]
    · rename_i ne
      rw [if_neg (Ne.symm ne), getElem_direntries]
  · have grown : din'.size / DIRENT_SIZE = din.size / DIRENT_SIZE + 1 := by
      rw [size]
      unfold DIRENT_SIZE DIRSIZ at *
      omega
    rw [if_neg lt, direntries_eq, direntries_eq, grown, List.range_succ, List.map_append, List.map_singleton,
      entry _ (by unfold DIRENT_SIZE DIRSIZ at *; omega), if_pos (by omega)]
    refine congrArg (· ++ _) (List.map_congr_left fun j mem => ?_)
    have := List.mem_range.1 mem
    rw [entry j (by unfold DIRENT_SIZE DIRSIZ at *; omega), if_neg (by omega)]

end Disk

/-! ## Well-formed directories -/

/-- A well-formed directory held in cache slot `slot`: a referenced slot holding a
directory whose size is a whole number of entries and whose map covers its content,
with its inode within the inode blocks and the bitmap in step with its map, and with
distinct names on its entries in use. -/
structure DirWf (sb : Superblock) (disk : Disk) (slot : Slot) : Prop where
  held : 0 < slot.ref
  dir : slot.din.type = T_DIR
  aligned : slot.din.size % DIRENT_SIZE = 0
  shaped : Shaped disk slot.din
  inRange : slot.inum < sb.ninodes
  accounted : Accounted sb (disk.setDinode slot.inum slot.din)
  unique : NamesUnique (direntries disk slot.din)

/-- A directory the running call has locked, whose size is a whole number of entries
and whose names are distinct, is well-formed. -/
theorem Inv.dirWf {sb : Superblock} {nproc : Nat} {s : Sys} {L : Multiset Nat} {V : Finset Nat}
    (inv : Inv sb nproc s L V) {dp : Nat} (locked : dp ∈ V) (dir : (s.icache dp).din.type = T_DIR)
    (aligned : (s.icache dp).din.size % DIRENT_SIZE = 0)
    (unique : NamesUnique (direntries s.disk (s.icache dp).din)) : DirWf sb s.disk (s.icache dp) := by
  have pos := inv.ref_pos (inv.locked dp locked).1
  have valid := (inv.locked dp locked).2.1
  obtain ⟨used, same⟩ := inv.coherent dp pos valid
  refine ⟨pos, dir, aligned, ?_, inv.inRange pos valid, ?_, unique⟩
  · rw [← same]
    exact inv.shaped _ (by rw [same]; exact used)
  · rw [← same, Disk.setDinode_self]
    exact inv.accounted

/-! ## `dirlookup` -/

section Lookup

variable (sb : Superblock) {s : Sys} {dp : Nat}

/-- Entry `k` of a well-formed directory reads in full and changes nothing. -/
theorem readiSlot_entry (dir : DirWf sb s.disk (s.icache dp)) {k : Nat}
    (lt : k < (s.icache dp).din.size / DIRENT_SIZE) :
    readiSlot sb s dp kernelDst (UInt32.ofNat (DIRENT_SIZE * k)) (UInt32.ofNat DIRENT_SIZE) =
      .ok ((DIRENT_SIZE, bytesAt s.disk (s.icache dp).din (DIRENT_SIZE * k) DIRENT_SIZE), s) := by
  have size_le := dir.shaped.size_le
  have small : MAXFILE * BSIZE < 4294967296 := by decide
  have within : DIRENT_SIZE * k + DIRENT_SIZE ≤ (s.icache dp).din.size := by
    have := dir.aligned
    unfold DIRENT_SIZE DIRSIZ at *
    omega
  have off : (UInt32.ofNat (DIRENT_SIZE * k)).toNat = DIRENT_SIZE * k := Nat.mod_eq_of_lt (by omega)
  have len : (UInt32.ofNat DIRENT_SIZE).toNat = DIRENT_SIZE := rfl
  have clamp : min (UInt32.ofNat DIRENT_SIZE).toNat
      ((s.icache dp).din.size - (UInt32.ofNat (DIRENT_SIZE * k)).toNat) = DIRENT_SIZE := by
    rw [off, len]
    omega
  obtain ⟨t, -, run, complete⟩ := @readi_eq sb s.disk (s.icache dp).din dir.shaped kernelDst
    (UInt32.ofNat (DIRENT_SIZE * k)) (UInt32.ofNat DIRENT_SIZE) (by omega) (by rw [off, len, Nat.mod_eq_of_lt (by omega)]; omega)
  have full : t = DIRENT_SIZE := (complete fun _ _ => rfl).trans clamp
  unfold readiSlot
  rw [run, ok_bind, clamp, full, off]
  show Except.ok ((_, _), s.setSlot dp (s.icache dp)) = _
  simp [Sys.setSlot]

/-- The loop of `dirlookup` from entry `j` on searches the entries from `j` on. -/
theorem dirlookupLoop_eq (dir : DirWf sb s.disk (s.icache dp)) (name : List UInt8) :
    ∀ (fuel j : Nat), (s.icache dp).din.size / DIRENT_SIZE ≤ j + fuel →
      dirlookupLoop sb dp name fuel (DIRENT_SIZE * j) s =
        match findEntry name ((direntries s.disk (s.icache dp).din).drop j) with
        | none => .ok (none, s)
        | some (inum, k) => do
          let (ip, s) ← iget s (s.icache dp).dev inum
          pure (some (ip, DIRENT_SIZE * (j + k)), s)
  | 0, j, enough => by
    rw [List.drop_eq_nil_of_le (by simpa using enough)]
    rfl
  | fuel + 1, j, enough => by
    have aligned := dir.aligned
    unfold dirlookupLoop
    by_cases lt : j < (s.icache dp).din.size / DIRENT_SIZE
    · have inside : DIRENT_SIZE * j < (s.icache dp).din.size := by
        unfold DIRENT_SIZE DIRSIZ at *
        omega
      rw [if_pos inside, readiSlot_entry sb dir lt, ok_bind]
      dsimp only
      rw [if_neg (not_not.2 rfl), pure_bind, ← getElem_direntries (by simpa using lt),
        List.drop_eq_getElem_cons (by simpa using lt), findEntry]
      have bound : j < (direntries s.disk (s.icache dp).din).length := by simpa using lt
      generalize (direntries s.disk (s.icache dp).din)[j] = e
      by_cases hit : e.names name = true
      · have found : e.inum ≠ 0 ∧ namecmp name e.name = 0 := by simpa [Dirent.names] using hit
        rw [if_neg found.1, if_pos found.2, if_pos hit]
        rfl
      · have next : DIRENT_SIZE * j + DIRENT_SIZE = DIRENT_SIZE * (j + 1) := (Nat.mul_succ _ _).symm
        have skip : ∀ {α : Type} (x y : α), (if e.inum = 0 then x else if namecmp name e.name = 0 then y else x) = x :=
          fun x y => by
            split_ifs with free same
            · rfl
            · exact absurd (by simp [Dirent.names, free, same]) hit
            · rfl
        rw [skip, if_neg hit, next, dirlookupLoop_eq dir name fuel (j + 1) (by omega)]
        cases findEntry name ((direntries s.disk (s.icache dp).din).drop (j + 1)) with
        | none => rfl
        | some r => simp only [Option.map_some', Nat.add_assoc, Nat.add_comm 1 r.2]
    · rw [if_neg (by unfold DIRENT_SIZE DIRSIZ at *; omega), List.drop_eq_nil_of_le (by simpa using lt)]
      rfl

/-- `dirlookup` in a well-formed directory is the search of its entries, followed by
`iget` of the inode found. -/
theorem dirlookup_eq (dir : DirWf sb s.disk (s.icache dp)) (name : List UInt8) :
    dirlookup sb s dp name =
      (match findEntry name (direntries s.disk (s.icache dp).din) with
      | none => .ok (none, s)
      | some (inum, k) => do
        let (ip, s) ← iget s (s.icache dp).dev inum
        pure (some (ip, DIRENT_SIZE * k), s)) := by
  unfold dirlookup
  rw [if_neg (not_not.2 dir.dir)]
  have loop := dirlookupLoop_eq sb dir name ((s.icache dp).din.size / DIRENT_SIZE + 1) 0 (by omega)
  simpa only [Nat.mul_zero, List.drop_zero, Nat.zero_add] using loop

/-- What `dirlookup` reports in a well-formed directory: the entry `findEntry` finds,
at its byte offset, and the slot `iget` hands out for its inode. -/
theorem dirlookup_some (dir : DirWf sb s.disk (s.icache dp)) {name : List UInt8} {ip off : Nat} {s1 : Sys}
    (found : dirlookup sb s dp name = .ok (some (ip, off), s1)) :
    ∃ inum k, findEntry name (direntries s.disk (s.icache dp).din) = some (inum, k) ∧ off = DIRENT_SIZE * k ∧
      iget s (s.icache dp).dev inum = .ok (ip, s1) := by
  rw [dirlookup_eq sb dir] at found
  split at found
  · cases found
  · rename_i inum k entry
    obtain ⟨⟨ip', s1'⟩, got, eq⟩ := bind_eq_ok.1 found
    cases eq
    exact ⟨inum, k, entry, rfl, got⟩

/-- `dirlookup` finds nothing in a well-formed directory only when no entry names the
name, and then changes nothing. -/
theorem dirlookup_none (dir : DirWf sb s.disk (s.icache dp)) {name : List UInt8} {s1 : Sys}
    (absent : dirlookup sb s dp name = .ok (none, s1)) :
    findEntry name (direntries s.disk (s.icache dp).din) = none ∧ s1 = s := by
  rw [dirlookup_eq sb dir] at absent
  split at absent
  · rename_i none
    cases absent
    exact ⟨none, rfl⟩
  · obtain ⟨_, _, eq⟩ := bind_eq_ok.1 absent
    cases eq

end Lookup

/-! ## `dirlink` -/

section Link

variable (sb : Superblock) {s : Sys} {dp : Nat}

/-- The scan of `dirlink` from entry `j` on stops at the first free entry from `j` on,
or at the end, and changes nothing. -/
theorem dirlinkScan_eq (dir : DirWf sb s.disk (s.icache dp)) :
    ∀ (fuel j : Nat), (s.icache dp).din.size / DIRENT_SIZE ≤ j + fuel → j ≤ (s.icache dp).din.size / DIRENT_SIZE →
      dirlinkScan sb dp fuel (DIRENT_SIZE * j) s =
        .ok (DIRENT_SIZE * (j + freeSlot ((direntries s.disk (s.icache dp).din).drop j)), s)
  | 0, j, enough, _ => by
    rw [List.drop_eq_nil_of_le (by simpa using enough)]
    rfl
  | fuel + 1, j, enough, bound => by
    have aligned := dir.aligned
    unfold dirlinkScan
    by_cases lt : j < (s.icache dp).din.size / DIRENT_SIZE
    · have inside : DIRENT_SIZE * j < (s.icache dp).din.size := by
        unfold DIRENT_SIZE DIRSIZ at *
        omega
      rw [if_pos inside, readiSlot_entry sb dir lt, ok_bind]
      dsimp only
      rw [if_neg (not_not.2 rfl), pure_bind, ← getElem_direntries (by simpa using lt),
        List.drop_eq_getElem_cons (by simpa using lt), freeSlot]
      split
      · rfl
      · rw [(Nat.mul_succ _ _).symm, dirlinkScan_eq dir fuel (j + 1) (by omega) lt, Nat.add_right_comm,
          Nat.add_assoc]
    · rw [if_neg (by unfold DIRENT_SIZE DIRSIZ at *; omega), List.drop_eq_nil_of_le (by simpa using lt)]
      rfl

/-- `iput` of a reference that is not the last one to an inode with no links only drops it. -/
theorem iput_of_kept {ip : Nat}
    (kept : ¬((s.icache ip).ref = 1 ∧ (s.icache ip).valid ∧ (s.icache ip).din.nlink = 0)) :
    iput sb s ip = .ok (s.setSlot ip { s.icache ip with ref := (s.icache ip).ref - 1 }) := by
  unfold iput
  rw [if_neg kept]
  rfl

/-- The reference `iget` has just handed out is never the last one to an inode `iput`
would free: the slot was referenced already, or it is not valid.  Dropping it leaves the
disk as it was, and every other referenced slot. -/
theorem iput_of_iget {s1 : Sys} {dev inum ip : Nat} (held : 0 < (s.icache dp).ref)
    (got : iget s dev inum = .ok (ip, s1)) :
    ∃ s2, iput sb s1 ip = .ok s2 ∧ s2.disk = s.disk ∧ s2.icache dp = s.icache dp := by
  unfold iget at got
  split at got
  · rename_i ip' scan
    cases got
    have pos := (igetScan_inl scan).2.1
    refine ⟨_, iput_of_kept sb (by simp; omega), rfl, ?_⟩
    by_cases same : dp = ip
    · subst same
      simp
    · simp [setAt_ne _ _ _ same]
  · cases got
  · rename_i ip' scan
    cases got
    have free : (s.icache ip).ref = 0 := by
      rcases (igetScan_inr scan).2 ip rfl with empty | ⟨-, free⟩
      · cases empty
      · exact free
    have other : dp ≠ ip := fun same => by rw [same] at held; omega
    refine ⟨_, iput_of_kept sb (by simp), rfl, ?_⟩
    simp [setAt_ne _ _ _ other]

/-- `iget` reads only the reference counts, devices and inode numbers of the slots. -/
theorem igetScan_congr {c c' : Nat → Slot}
    (keys : ∀ j, (c' j).ref = (c j).ref ∧ (c' j).dev = (c j).dev ∧ (c' j).inum = (c j).inum) (dev inum : Nat) :
    ∀ r i empty, igetScan c' dev inum r i empty = igetScan c dev inum r i empty
  | 0, _, _ => rfl
  | r + 1, i, empty => by
    simp only [igetScan, (keys i).1, (keys i).2.1, (keys i).2.2, igetScan_congr keys dev inum r]

/-- Slots with the same reference counts, devices and inode numbers make `iget` hand out
the same slot, or halt alike. -/
theorem iget_map_fst {s' : Sys}
    (keys : ∀ j, (s'.icache j).ref = (s.icache j).ref ∧ (s'.icache j).dev = (s.icache j).dev ∧
      (s'.icache j).inum = (s.icache j).inum) (dev inum : Nat) {β : Type} (f : Nat → β) :
    (iget s' dev inum).map (fun r => f r.1) = (iget s dev inum).map fun r => f r.1 := by
  unfold iget
  rw [igetScan_congr keys]
  split <;> rfl

omit sb in
theorem map_fst_found (x : Except Halt (Nat × Sys)) (off : Nat) :
    (x >>= fun r => (pure (some (r.1, off), r.2) : Except Halt (Option (Nat × Nat) × Sys))).map Prod.fst =
      x.map fun r => some (r.1, off) := by
  cases x <;> rfl

/-- `writei` on a slot from an offset within its content, for a span that ends within
`MAXFILE` blocks, is not refused. -/
theorem writeiSlot_accepted {src : Nat → Option UInt8} {off n : UInt32} {r : Int} {s' : Sys}
    (run : writeiSlot sb s dp src off n = .ok (r, s')) (inside : off.toNat ≤ (s.icache dp).din.size)
    (fits : off.toNat + n.toNat ≤ MAXFILE * BSIZE) : r = n.toNat := by
  unfold writeiSlot at run
  obtain ⟨⟨written, disk', din'⟩, wrote, eq⟩ := bind_eq_ok.1 run
  cases eq
  exact writei_accepted wrote inside fits

/-- Entry `de` written at entry `k` of a well-formed directory, `k` one of its entries or
its end: that entry is replaced, or appended, and only the directory's inode and content
change.  The directory stays well-formed when its names stay distinct. -/
theorem writeEntry (wf : sb.WellFormed) (dir : DirWf sb s.disk (s.icache dp)) {de : Dirent}
    (small : de.inum < 65536) (length : de.name.length = DIRSIZ) {k : Nat}
    (slot : k ≤ (s.icache dp).din.size / DIRENT_SIZE) {r : Int} {s' : Sys}
    (run : writeiSlot sb s dp (kernelSrc de.encode) (UInt32.ofNat (DIRENT_SIZE * k)) (UInt32.ofNat DIRENT_SIZE) =
      .ok (r, s'))
    (accepted : r ≠ -1) :
    s' = { s with disk := s'.disk }.setSlot dp { s.icache dp with din := (s'.icache dp).din } ∧
      direntries s'.disk (s'.icache dp).din =
        (if k < (s.icache dp).din.size / DIRENT_SIZE then (direntries s.disk (s.icache dp).din).set k de
          else direntries s.disk (s.icache dp).din ++ [de]) ∧
      (NamesUnique (direntries s'.disk (s'.icache dp).din) → DirWf sb s'.disk (s'.icache dp)) ∧
      OthersKept sb (s.disk.setDinode (s.icache dp).inum (s.icache dp).din) (s.icache dp).inum
        (s'.disk.setDinode (s.icache dp).inum (s'.icache dp).din) ∧
      (s'.icache dp).din = { (s.icache dp).din with size := (s'.icache dp).din.size, addrs := (s'.icache dp).din.addrs } := by
  unfold writeiSlot at run
  obtain ⟨⟨written, disk', din'⟩, wrote, eq⟩ := bind_eq_ok.1 run
  cases eq
  have used : (s.icache dp).din.type ≠ 0 := by rw [dir.dir]; decide
  have size_le := dir.shaped.size_le
  have maxBytes : MAXFILE * BSIZE < 4294967296 := by decide
  have aligned := dir.aligned
  have off : (UInt32.ofNat (DIRENT_SIZE * k)).toNat = DIRENT_SIZE * k :=
    Nat.mod_eq_of_lt (by unfold DIRENT_SIZE DIRSIZ at *; omega)
  have len : (UInt32.ofNat DIRENT_SIZE).toNat = DIRENT_SIZE := rfl
  have bytes : de.encode.length = DIRENT_SIZE := by simp [length, DIRENT_SIZE, Nat.add_comm]
  obtain ⟨acc', shaped', others, fields, -⟩ := writei_effect wf dir.accounted dir.inRange used dir.shaped wrote
  obtain ⟨size, content⟩ := writei_content wf dir.accounted dir.inRange used wrote accepted fun j lt => by
    rw [len] at lt
    simp [kernelSrc, List.get?_eq_none, bytes, lt]
  rw [off, len] at size content
  have entries := direntries_write bytes aligned slot shaped'.size_le size fun j lt => by
    rw [content j lt]
    rfl
  rw [Dirent.decode_encode small length] at entries
  simp only [Sys.setSlot_disk, Sys.setSlot_icache, setAt_same]
  refine ⟨trivial, entries, fun unique => ⟨dir.held, by rw [fields]; exact dir.dir, ?_, shaped', dir.inRange, acc',
    unique⟩, others, fields⟩
  simp only [size]
  unfold DIRENT_SIZE DIRSIZ at *
  omega

/-- What `dirlink` does in a well-formed directory: refuse a name already linked,
dropping the reference `dirlookup` took and leaving the disk and the directory's slot as
they were; or write the entry into the first free entry, or after the last one, keeping
the directory well-formed. -/
theorem dirlink_cases (wf : sb.WellFormed) (dir : DirWf sb s.disk (s.icache dp)) {name : List UInt8} {inum : Nat}
    {r : Int} {s' : Sys} (run : dirlink sb s dp name inum = .ok (r, s')) :
    (r = -1 ∧ (∃ ip off s1, dirlookup sb s dp name = .ok (some (ip, off), s1)) ∧
        s'.disk = s.disk ∧ s'.icache dp = s.icache dp) ∨
      (r = 0 ∧ findEntry name (direntries s.disk (s.icache dp).din) = none ∧
        s' = { s with disk := s'.disk }.setSlot dp { s.icache dp with din := (s'.icache dp).din } ∧
        direntries s'.disk (s'.icache dp).din =
          placeEntry ⟨inum % 65536, strncpy name DIRSIZ⟩ (direntries s.disk (s.icache dp).din) ∧
        DirWf sb s'.disk (s'.icache dp) ∧
        OthersKept sb (s.disk.setDinode (s.icache dp).inum (s.icache dp).din) (s.icache dp).inum
          (s'.disk.setDinode (s.icache dp).inum (s'.icache dp).din) ∧
        (s'.icache dp).din =
          { (s.icache dp).din with size := (s'.icache dp).din.size, addrs := (s'.icache dp).din.addrs }) := by
  unfold dirlink at run
  obtain ⟨⟨found, s1⟩, lookup, rest⟩ := bind_eq_ok.1 run
  rcases found with _ | ⟨ip, off⟩
  · obtain ⟨absent, rfl⟩ := dirlookup_none sb dir lookup
    have scan := dirlinkScan_eq sb dir ((s1.icache dp).din.size / DIRENT_SIZE + 1) 0 (by omega) (Nat.zero_le _)
    simp only [Nat.mul_zero, Nat.zero_add, List.drop_zero] at scan
    dsimp only at rest
    rw [scan, ok_bind] at rest
    dsimp only at rest
    obtain ⟨⟨written, s2⟩, write, rest⟩ := bind_eq_ok.1 rest
    dsimp only at rest
    split at rest
    · cases rest
    rename_i full
    cases rest
    have accepted : written ≠ -1 := by
      rw [not_not.1 full]
      decide
    obtain ⟨state, entries, wfOf, others, fields⟩ := writeEntry sb wf dir (Nat.mod_lt _ (by decide)) (length_strncpy _ _)
      ((freeSlot_le _).trans_eq (length_direntries _ _)) write accepted
    rw [← length_direntries s1.disk, ← placeEntry_eq] at entries
    exact .inr ⟨rfl, absent, state, entries, wfOf (entries ▸ namesUnique_placeEntry dir.unique absent), others,
      fields⟩
  · obtain ⟨inum', k, -, rfl, got⟩ := dirlookup_some sb dir lookup
    obtain ⟨s2, put, disk, slot⟩ := iput_of_iget sb dir.held got
    dsimp only at rest
    rw [put, ok_bind] at rest
    cases rest
    exact .inl ⟨rfl, ⟨ip, _, s1, lookup⟩, disk, slot⟩

theorem freeSlot_set_free (z : List UInt8) : ∀ {l : List Dirent} {k : Nat}, k < l.length →
    freeSlot (l.set k ⟨0, z⟩) ≤ k
  | [], _, lt => absurd lt (Nat.not_lt_zero _)
  | e :: rest, 0, _ => by simp [freeSlot]
  | e :: rest, k + 1, lt => by
    have := freeSlot_set_free z (l := rest) (k := k) (by simpa using lt)
    rw [List.set_cons_succ, freeSlot]
    split <;> omega

/-- `dirlink` refuses a name exactly when `dirlookup` finds it. -/
theorem dirlink_refused_iff (wf : sb.WellFormed) (dir : DirWf sb s.disk (s.icache dp)) (name : List UInt8)
    (inum : Nat) :
    (∃ s', dirlink sb s dp name inum = .ok (-1, s')) ↔
      ∃ ip off s1, dirlookup sb s dp name = .ok (some (ip, off), s1) := by
  refine ⟨fun ⟨s', run⟩ => ?_, fun ⟨ip, off, s1, found⟩ => ?_⟩
  · rcases dirlink_cases sb wf dir run with ⟨-, found, -⟩ | ⟨refused, -⟩
    · exact found
    · exact absurd refused (by decide)
  · obtain ⟨inum, k, -, rfl, got⟩ := dirlookup_some sb dir found
    obtain ⟨s2, put, -⟩ := iput_of_iget sb dir.held got
    refine ⟨s2, ?_⟩
    unfold dirlink
    rw [found, ok_bind]
    dsimp only
    rw [put, ok_bind]
    rfl

/-- After `dirlink` links `n` to `i`, the entry is in the first free entry or after the
last one; `dirlookup` finds every name `namecmp` finds equal to `n` there, and every other
name as before. -/
theorem dirlookup_after_dirlink (wf : sb.WellFormed) (dir : DirWf sb s.disk (s.icache dp)) {n : List UInt8}
    {i : Nat} (inode : 0 < i) (fits : i < 65536) {s' : Sys} (run : dirlink sb s dp n i = .ok (0, s')) :
    direntries s'.disk (s'.icache dp).din = placeEntry ⟨i, strncpy n DIRSIZ⟩ (direntries s.disk (s.icache dp).din) ∧
      ∀ n', (dirlookup sb s' dp n').map Prod.fst =
        if namecmp n n' = 0 then
          (iget s' (s.icache dp).dev i).map fun r =>
            some (r.1, DIRENT_SIZE * freeSlot (direntries s.disk (s.icache dp).din))
        else (dirlookup sb s dp n').map Prod.fst := by
  rcases dirlink_cases sb wf dir run with ⟨refused, -⟩ | ⟨-, absent, state, entries, dir', -, -⟩
  · exact absurd refused (by decide)
  rw [Nat.mod_eq_of_lt fits] at entries
  refine ⟨entries, fun n' => ?_⟩
  have keys : ∀ j, (s'.icache j).ref = (s.icache j).ref ∧ (s'.icache j).dev = (s.icache j).dev ∧
      (s'.icache j).inum = (s.icache j).inum := fun j => by
    rw [state]
    by_cases same : j = dp
    · subst same
      simp
    · simp [setAt_ne _ _ _ same]
  rw [dirlookup_eq sb dir', dirlookup_eq sb dir, entries, (keys dp).2.1]
  by_cases same : namecmp n n' = 0
  · rw [if_pos same, findEntry_placeEntry_same (by omega) same absent]
    exact map_fst_found _ _
  · rw [if_neg same, findEntry_placeEntry_other (by omega) same]
    cases findEntry n' (direntries s.disk (s.icache dp).din) with
    | none => rfl
    | some r =>
      simp only [map_fst_found]
      exact iget_map_fst keys _ _ fun ip => some (ip, DIRENT_SIZE * r.2)

/-- Clearing the entry found for `n`, as `sys_unlink` does, keeps the directory
well-formed, frees that entry, and leaves no entry naming a name equal to `n`. -/
theorem clearEntry (wf : sb.WellFormed) (dir : DirWf sb s.disk (s.icache dp)) {n : List UInt8} {inum k : Nat}
    (found : findEntry n (direntries s.disk (s.icache dp).din) = some (inum, k)) {r : Int} {s' : Sys}
    (run : writeiSlot sb s dp (kernelSrc (List.replicate DIRENT_SIZE 0)) (UInt32.ofNat (DIRENT_SIZE * k))
      (UInt32.ofNat DIRENT_SIZE) = .ok (r, s')) :
    DirWf sb s'.disk (s'.icache dp) ∧ freeSlot (direntries s'.disk (s'.icache dp).din) ≤ k ∧
      ∀ n', namecmp n n' = 0 → dirlookup sb s' dp n' = .ok (none, s') := by
  have lt : k < (s.icache dp).din.size / DIRENT_SIZE := by simpa using findEntry_lt found
  have size_le := dir.shaped.size_le
  have aligned := dir.aligned
  have maxBytes : MAXFILE * BSIZE < 4294967296 := by decide
  have off : (UInt32.ofNat (DIRENT_SIZE * k)).toNat = DIRENT_SIZE * k :=
    Nat.mod_eq_of_lt (by unfold DIRENT_SIZE DIRSIZ at *; omega)
  have len : (UInt32.ofNat DIRENT_SIZE).toNat = DIRENT_SIZE := rfl
  rw [← Dirent.encode_free] at run
  have accepted := writeiSlot_accepted sb run (by rw [off]; unfold DIRENT_SIZE DIRSIZ at *; omega)
    (by rw [off, len]; unfold DIRENT_SIZE DIRSIZ at *; omega)
  obtain ⟨-, entries, wfOf, -, -⟩ := writeEntry sb wf dir (by decide) (by simp) lt.le run (by rw [accepted]; decide)
  rw [if_pos lt] at entries
  have dir' := wfOf (entries ▸ namesUnique_set_free _ dir.unique k)
  refine ⟨dir', entries ▸ freeSlot_set_free _ (by simpa using lt), fun n' same => ?_⟩
  rw [dirlookup_eq sb dir', entries, findEntry_clear same _ dir.unique found]

end Link

/-! ## The root directory at boot -/

/-- The state at boot once process 0 has locked the root directory in slot 0 and read
its inode, as `ilock` leaves it. -/
def rootLocked : Sys :=
  (boot fs1000 1).setSlot 0
    { (boot fs1000 1).icache 0 with valid := true, holder := some 0, din := rootDinode fs1000 }

/-- The root directory `mkfs` writes is well-formed. -/
theorem rootLocked_wf : DirWf fs1000 rootLocked.disk (rootLocked.icache 0) where
  held := by decide
  dir := rfl
  aligned := by decide
  shaped := shaped_rootDinode fs1000_wellFormed
  inRange := by decide
  accounted := by
    show Accounted fs1000 ((mkfs fs1000).setDinode ROOTINO ((mkfs fs1000).dinode ROOTINO))
    rw [Disk.setDinode_self]
    exact accounted_mkfs fs1000_wellFormed
  unique := by decide

/-! ## `dirlink` and `dirlookup` agree -/

section Agreement

variable {sb : Superblock} {s : Sys} {dp : Nat}

/-- `dirlink` and `dirlookup` agree on a well-formed directory, for every inode number
of the file system, each of which fits the entry's `ushort`.  `dirlink` refuses a name
exactly when `dirlookup` finds it, and then changes neither the disk nor the directory's
slot.  After it links `n` to `i`, the new entry is in the first free entry, or after
the last one; `dirlookup` finds every name `namecmp` finds equal to `n` there, and every
other name as before.  Once `sys_unlink` has cleared the entry `dirlookup` reported for
`n`, no name equal to `n` is found, the directory is still well-formed, and its first
free entry, where the next `dirlink` writes, is at or before the entry cleared. -/
theorem dirlink_dirlookup_agree (wf : sb.WellFormed) (dir : DirWf sb s.disk (s.icache dp)) {i : Nat}
    (inode : 0 < i) (valid : i < sb.ninodes) (n : List UInt8) :
    ((∃ s', dirlink sb s dp n i = .ok (-1, s')) ↔ ∃ ip off s1, dirlookup sb s dp n = .ok (some (ip, off), s1)) ∧
    (∀ s', dirlink sb s dp n i = .ok (-1, s') → s'.disk = s.disk ∧ s'.icache dp = s.icache dp) ∧
    (∀ s', dirlink sb s dp n i = .ok (0, s') →
      direntries s'.disk (s'.icache dp).din = placeEntry ⟨i, strncpy n DIRSIZ⟩ (direntries s.disk (s.icache dp).din) ∧
      ∀ n', (dirlookup sb s' dp n').map Prod.fst =
        if namecmp n n' = 0 then
          (iget s' (s.icache dp).dev i).map fun r =>
            some (r.1, DIRENT_SIZE * freeSlot (direntries s.disk (s.icache dp).din))
        else (dirlookup sb s dp n').map Prod.fst) ∧
    (∀ ip off s1, dirlookup sb s dp n = .ok (some (ip, off), s1) →
      ∀ t r t', t.disk = s.disk → t.icache dp = s.icache dp →
        writeiSlot sb t dp (kernelSrc (List.replicate DIRENT_SIZE 0)) (UInt32.ofNat off) (UInt32.ofNat DIRENT_SIZE) =
          .ok (r, t') →
        DirWf sb t'.disk (t'.icache dp) ∧ freeSlot (direntries t'.disk (t'.icache dp).din) ≤ off / DIRENT_SIZE ∧
          ∀ n', namecmp n n' = 0 → dirlookup sb t' dp n' = .ok (none, t')) := by
  refine ⟨dirlink_refused_iff sb wf dir n i, fun s' run => ?_, fun s' run => dirlookup_after_dirlink sb wf dir inode (lt_of_lt_of_le valid wf.inodesFit) run,
    fun ip off s1 found t r t' disk slot run => ?_⟩
  · rcases dirlink_cases sb wf dir run with ⟨-, -, kept⟩ | ⟨refused, -⟩
    · exact kept
    · exact absurd refused (by decide)
  · obtain ⟨inum, k, entry, rfl, -⟩ := dirlookup_some sb dir found
    rw [← disk, ← slot] at entry
    rw [Nat.mul_div_cancel_left _ (by decide)]
    exact clearEntry sb wf (by rw [disk, slot]; exact dir) entry run

/-- Linking inode `1` under the name `a` in the root directory. -/
theorem dirlink_dirlookup_agree_root :
    fs1000.WellFormed ∧ DirWf fs1000 rootLocked.disk (rootLocked.icache 0) ∧ 0 < 1 ∧ 1 < fs1000.ninodes ∧
    ((∃ s', dirlink fs1000 rootLocked 0 [97] 1 = .ok (-1, s')) ↔
      ∃ ip off s1, dirlookup fs1000 rootLocked 0 [97] = .ok (some (ip, off), s1)) ∧
    (∀ s', dirlink fs1000 rootLocked 0 [97] 1 = .ok (-1, s') →
      s'.disk = rootLocked.disk ∧ s'.icache 0 = rootLocked.icache 0) ∧
    (∀ s', dirlink fs1000 rootLocked 0 [97] 1 = .ok (0, s') →
      direntries s'.disk (s'.icache 0).din =
        placeEntry ⟨1, strncpy [97] DIRSIZ⟩ (direntries rootLocked.disk (rootLocked.icache 0).din) ∧
      ∀ n', (dirlookup fs1000 s' 0 n').map Prod.fst =
        if namecmp [97] n' = 0 then
          (iget s' (rootLocked.icache 0).dev 1).map fun r =>
            some (r.1, DIRENT_SIZE * freeSlot (direntries rootLocked.disk (rootLocked.icache 0).din))
        else (dirlookup fs1000 rootLocked 0 n').map Prod.fst) ∧
    (∀ ip off s1, dirlookup fs1000 rootLocked 0 [97] = .ok (some (ip, off), s1) →
      ∀ t r t', t.disk = rootLocked.disk → t.icache 0 = rootLocked.icache 0 →
        writeiSlot fs1000 t 0 (kernelSrc (List.replicate DIRENT_SIZE 0)) (UInt32.ofNat off)
          (UInt32.ofNat DIRENT_SIZE) = .ok (r, t') →
        DirWf fs1000 t'.disk (t'.icache 0) ∧ freeSlot (direntries t'.disk (t'.icache 0).din) ≤ off / DIRENT_SIZE ∧
          ∀ n', namecmp [97] n' = 0 → dirlookup fs1000 t' 0 n' = .ok (none, t')) :=
  ⟨fs1000_wellFormed, rootLocked_wf, by decide, by decide,
    dirlink_dirlookup_agree fs1000_wellFormed rootLocked_wf (by decide) (by decide) [97]⟩

end Agreement

end Xv6Fs
