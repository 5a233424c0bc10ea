import Xv6Fs.CacheSpec

/-!
# The inode cache seen by its clients

`iget`, `idup`, `iput` and `ialloc` are the calls through which the kernel takes and
drops references to cache slots.  The first part says what `iget` returns on every
cache: the first referenced slot caching the inode, whatever free slots precede it,
or else the first free slot, and nothing else changes.

The second part follows the cache through a run of these calls from the zeroed cache
of boot in which each `idup` and `iput` is given a slot its caller holds: a reference
that an earlier `iget`, `idup` or `ialloc` handed out and no `iput` has given back.
Along such a run every slot's `ref` is the number of references held to it, and no
two referenced slots cache the same inode.  A client that duplicates a reference it
has already given back breaks the second property.
-/

namespace Xv6Fs

/-! ## What `iget` returns -/

section Iget

variable {icache : Nat → Slot} {dev inum : Nat}

/-- The scan of `iget` stops at the first referenced slot caching the inode. -/
theorem igetScan_of_first {ip : Nat} : ∀ {r i : Nat} {empty : Option Nat}, i ≤ ip → ip < i + r →
    (0 < (icache ip).ref ∧ (icache ip).dev = dev ∧ (icache ip).inum = inum) →
    (∀ j, i ≤ j → j < ip → ¬(0 < (icache j).ref ∧ (icache j).dev = dev ∧ (icache j).inum = inum)) →
    igetScan icache dev inum r i empty = .inl ip
  | 0, _, _, _, hi, _, _ => by omega
  | r + 1, i, empty, lo, hi, found, before => by
    unfold igetScan
    by_cases here : i = ip
    · subst here
      exact if_pos found
    · rw [if_neg (before i le_rfl (by omega))]
      exact igetScan_of_first (by omega) (by omega) found fun j lo' hi' => before j (by omega) hi'

/-- A scan that meets no referenced slot caching the inode returns the free slot it
remembered. -/
theorem igetScan_of_miss_some {e : Nat} : ∀ {r i : Nat},
    (∀ j, i ≤ j → j < i + r → ¬(0 < (icache j).ref ∧ (icache j).dev = dev ∧ (icache j).inum = inum)) →
    igetScan icache dev inum r i (some e) = .inr (some e)
  | 0, _, _ => rfl
  | r + 1, i, miss => by
    unfold igetScan
    rw [if_neg (miss i le_rfl (by omega)), if_neg fun remembered => nomatch remembered.1]
    exact igetScan_of_miss_some fun j lo hi => miss j (by omega) (by omega)

/-- A scan that meets no referenced slot caching the inode, and has remembered no free
slot, returns the first free slot it meets. -/
theorem igetScan_of_miss_free {ip : Nat} : ∀ {r i : Nat}, i ≤ ip → ip < i + r → (icache ip).ref = 0 →
    (∀ j, i ≤ j → j < ip → (icache j).ref ≠ 0) →
    (∀ j, i ≤ j → j < i + r → ¬(0 < (icache j).ref ∧ (icache j).dev = dev ∧ (icache j).inum = inum)) →
    igetScan icache dev inum r i none = .inr (some ip)
  | 0, _, _, hi, _, _, _ => by omega
  | r + 1, i, lo, hi, free, before, miss => by
    unfold igetScan
    rw [if_neg (miss i le_rfl (by omega))]
    by_cases here : i = ip
    · subst here
      rw [if_pos ⟨rfl, free⟩]
      exact igetScan_of_miss_some fun j lo' hi' => miss j (by omega) (by omega)
    · rw [if_neg fun remembered => before i le_rfl (by omega) remembered.2]
      exact igetScan_of_miss_free (by omega) (by omega) free (fun j lo' hi' => before j (by omega) hi')
        fun j lo' hi' => miss j (by omega) (by omega)

/-- A scan over referenced slots none of which caches the inode finds nothing. -/
theorem igetScan_of_full : ∀ {r i : Nat}, (∀ j, i ≤ j → j < i + r → (icache j).ref ≠ 0) →
    (∀ j, i ≤ j → j < i + r → ¬(0 < (icache j).ref ∧ (icache j).dev = dev ∧ (icache j).inum = inum)) →
    igetScan icache dev inum r i none = .inr none
  | 0, _, _, _ => rfl
  | r + 1, i, full, miss => by
    unfold igetScan
    rw [if_neg (miss i le_rfl (by omega)), if_neg fun remembered => full i le_rfl (by omega) remembered.2]
    exact igetScan_of_full (fun j lo hi => full j (by omega) (by omega)) fun j lo hi => miss j (by omega) (by omega)

variable {s : Sys} {ip : Nat}

/-- `iget` of an inode that a referenced slot caches returns the first such slot with
one more reference, even when a free slot precedes it, and changes no other slot. -/
theorem iget_of_cached (below : ip < NINODE)
    (found : 0 < (s.icache ip).ref ∧ (s.icache ip).dev = dev ∧ (s.icache ip).inum = inum)
    (first : ∀ j < ip, ¬(0 < (s.icache j).ref ∧ (s.icache j).dev = dev ∧ (s.icache j).inum = inum)) :
    iget s dev inum = .ok (ip, s.setSlot ip { s.icache ip with ref := (s.icache ip).ref + 1 }) := by
  unfold iget
  rw [igetScan_of_first (Nat.zero_le _) (by omega) found fun j _ hi => first j hi]

/-- `iget` of an inode that no referenced slot caches installs it, unread and with one
reference, in the first free slot, and changes no other slot. -/
theorem iget_of_uncached
    (miss : ∀ j < NINODE, ¬(0 < (s.icache j).ref ∧ (s.icache j).dev = dev ∧ (s.icache j).inum = inum))
    (below : ip < NINODE) (free : (s.icache ip).ref = 0) (first : ∀ j < ip, (s.icache j).ref ≠ 0) :
    iget s dev inum =
      .ok (ip, s.setSlot ip { s.icache ip with dev := dev, inum := inum, ref := 1, valid := false }) := by
  unfold iget
  rw [igetScan_of_miss_free (Nat.zero_le _) (by omega) free (fun j _ hi => first j hi)
    fun j _ hi => miss j (by omega)]

/-- `iget` panics when every slot is referenced and none caches the inode. -/
theorem iget_of_full
    (miss : ∀ j < NINODE, ¬(0 < (s.icache j).ref ∧ (s.icache j).dev = dev ∧ (s.icache j).inum = inum))
    (full : ∀ j < NINODE, (s.icache j).ref ≠ 0) :
    iget s dev inum = .error (.fatal "iget: no inodes") := by
  unfold iget
  rw [igetScan_of_full (fun j _ hi => full j (by omega)) fun j _ hi => miss j (by omega)]

end Iget

/-! ## Runs of the cache's clients -/

/-- A call on the inode cache. -/
inductive CacheCall where
  | iget (dev inum : Nat)
  | idup (ip : Nat)
  | iput (ip : Nat)
  | ialloc (dev : Nat) (type : Int)
  deriving DecidableEq, Repr

namespace CacheCall

/-- The call, with the slot it returns or is given. -/
def run (sb : Superblock) : CacheCall → Sys → Except Halt (Nat × Sys)
  | .iget dev inum, s => Xv6Fs.iget s dev inum
  | .idup ip, s => .ok (ip, Xv6Fs.idup s ip)
  | .iput ip, s => (Xv6Fs.iput sb s ip).map fun s => (ip, s)
  | .ialloc dev type, s => Xv6Fs.ialloc sb s dev type

/-- The references held after the call returned `r`: `iput` gives one back, the other
calls hand one out. -/
def held : CacheCall → Nat → Multiset Nat → Multiset Nat
  | .iput ip, _, H => H.erase ip
  | _, r, H => r ::ₘ H

/-- The caller holds the slot it passes to `idup` or `iput`. -/
def Holds : CacheCall → Multiset Nat → Prop
  | .idup ip, H => ip ∈ H
  | .iput ip, H => ip ∈ H
  | _, _ => True

instance (c : CacheCall) (H : Multiset Nat) : Decidable (c.Holds H) :=
  match c with
  | .idup ip => inferInstanceAs (Decidable (ip ∈ H))
  | .iput ip => inferInstanceAs (Decidable (ip ∈ H))
  | .iget _ _ => isTrue trivial
  | .ialloc _ _ => isTrue trivial

end CacheCall

/-- The zeroed cache of boot, beside any disk, file table and processes. -/
def Sys.emptyCache (s : Sys) : Sys :=
  { s with icache := fun _ => Slot.empty }

/-- The states and held references along a run of cache calls from the zeroed cache in
which every `idup` and `iput` is given a held slot. -/
inductive CacheRun (sb : Superblock) : Sys → Multiset Nat → Prop
  | empty (s : Sys) : CacheRun sb s.emptyCache 0
  | call {s s' : Sys} {H : Multiset Nat} {r : Nat} (c : CacheCall) :
      CacheRun sb s H → c.Holds H → c.run sb s = .ok (r, s') → CacheRun sb s' (c.held r H)

/-- A run of cache calls in order: the slots they return and the final state. -/
def runCache (sb : Superblock) : List CacheCall → Sys → Except Halt (List Nat × Sys)
  | [], s => .ok ([], s)
  | c :: calls, s => do
    let (r, s) ← c.run sb s
    let (rs, s) ← runCache sb calls s
    pure (r :: rs, s)

/-- The references held after calls that returned the slots `rs`, from the references
`H`; `none` when a call is given a slot that is not held. -/
def heldAlong : List CacheCall → List Nat → Multiset Nat → Option (Multiset Nat)
  | [], _, H => some H
  | c :: calls, r :: rs, H => if c.Holds H then heldAlong calls rs (c.held r H) else none
  | _ :: _, [], _ => none

/-- A completed run whose calls are each given a held slot extends a run of the cache. -/
theorem CacheRun.of_runCache {sb : Superblock} :
    ∀ {calls : List CacheCall} {rs : List Nat} {s s' : Sys} {H H' : Multiset Nat},
      CacheRun sb s H → heldAlong calls rs H = some H' → runCache sb calls s = .ok (rs, s') → CacheRun sb s' H'
  | [], _, _, _, _, _, run, held, ran => by
    cases ran
    cases held
    exact run
  | c :: calls, rs, s, s', H, H', run, held, ran => by
    obtain ⟨⟨r, s1⟩, first, ran⟩ := bind_eq_ok.1 ran
    obtain ⟨⟨rs', s2⟩, rest, result⟩ := bind_eq_ok.1 ran
    simp only [pure_eq_ok, Prod.mk.injEq] at result
    obtain ⟨rfl, rfl⟩ := result
    simp only [heldAlong] at held
    split at held
    · exact CacheRun.of_runCache (.call c run ‹_› first) held rest
    · cases held

/-- The cache as its clients leave it: each slot's count is the number of references
held to it, only the `NINODE` slots are handed out, no slot has been read from disk,
and no two referenced slots cache the same inode. -/
structure Counted (s : Sys) (H : Multiset Nat) : Prop where
  counted : ∀ k, (s.icache k).ref = H.count k
  small : ∀ k ∈ H, k < NINODE
  unread : ∀ k, (s.icache k).valid = false
  unique : ∀ j k, 0 < (s.icache j).ref → 0 < (s.icache k).ref → (s.icache j).dev = (s.icache k).dev →
    (s.icache j).inum = (s.icache k).inum → j = k

namespace Counted

variable {sb : Superblock} {s : Sys} {H : Multiset Nat}

theorem emptyCache (s : Sys) : Counted s.emptyCache 0 where
  counted _ := rfl
  small _ mem := absurd mem (Multiset.not_mem_zero _)
  unread _ := rfl
  unique _ _ pos := absurd pos (lt_irrefl 0)

/-- A slot beyond the `NINODE` of the cache is never referenced. -/
theorem ref_eq_zero (counted : Counted s H) {k : Nat} (beyond : NINODE ≤ k) : (s.icache k).ref = 0 := by
  rw [counted.counted, Multiset.count_eq_zero.2 fun mem => by have := counted.small k mem; omega]
  rfl

/-- One more reference to a slot that is referenced or handed out afresh. -/
theorem raise (counted : Counted s H) {ip : Nat} (below : ip < NINODE) (slot : Slot)
    (ref : slot.ref = (s.icache ip).ref + 1) (valid : slot.valid = false)
    (stays : ∀ k, 0 < (s.icache k).ref → k ≠ ip → ¬((s.icache k).dev = slot.dev ∧ (s.icache k).inum = slot.inum)) :
    Counted (s.setSlot ip slot) (ip ::ₘ H) where
  counted k := by
    by_cases same : k = ip
    · subst same
      simp [ref, counted.counted]
    · simp [setAt_ne _ _ _ same, counted.counted, Multiset.count_cons_of_ne same]
  small k mem := by
    rcases Multiset.mem_cons.1 mem with rfl | mem
    · exact below
    · exact counted.small k mem
  unread k := by
    by_cases same : k = ip
    · subst same
      simpa using valid
    · simp [setAt_ne _ _ _ same, counted.unread]
  unique j k jPos kPos dev inum := by
    by_cases jSame : j = ip <;> by_cases kSame : k = ip
    · exact jSame.trans kSame.symm
    · subst jSame
      simp only [Sys.setSlot_icache, setAt_same, setAt_ne _ _ _ kSame] at kPos dev inum
      exact absurd ⟨dev.symm, inum.symm⟩ (stays k kPos kSame)
    · subst kSame
      simp only [Sys.setSlot_icache, setAt_same, setAt_ne _ _ _ jSame] at jPos dev inum
      exact absurd ⟨dev, inum⟩ (stays j jPos jSame)
    · simp only [Sys.setSlot_icache, setAt_ne _ _ _ jSame, setAt_ne _ _ _ kSame] at jPos kPos dev inum
      exact counted.unique j k jPos kPos dev inum

/-- One reference fewer to a held slot. -/
theorem drop (counted : Counted s H) {ip : Nat} (holds : ip ∈ H) :
    Counted (s.setSlot ip { s.icache ip with ref := (s.icache ip).ref - 1 }) (H.erase ip) where
  counted k := by
    by_cases same : k = ip
    · subst same
      have := Multiset.count_pos.2 holds
      simp only [Sys.setSlot_icache, setAt_same, counted.counted, Multiset.count_erase_self]
      omega
    · simp [setAt_ne _ _ _ same, counted.counted, Multiset.count_erase_of_ne same]
  small k mem := counted.small k (Multiset.mem_of_mem_erase mem)
  unread k := by
    by_cases same : k = ip
    · subst same
      simp [counted.unread]
    · simp [setAt_ne _ _ _ same, counted.unread]
  unique j k jPos kPos dev inum := by
    have kept : ∀ m, 0 < ((s.setSlot ip { s.icache ip with ref := (s.icache ip).ref - 1 }).icache m).ref →
        0 < (s.icache m).ref ∧ ((s.setSlot ip { s.icache ip with ref := (s.icache ip).ref - 1 }).icache m).dev =
          (s.icache m).dev ∧ ((s.setSlot ip { s.icache ip with ref := (s.icache ip).ref - 1 }).icache m).inum =
          (s.icache m).inum := fun m pos => by
      by_cases same : m = ip
      · subst same
        simp only [Sys.setSlot_icache, setAt_same] at pos
        exact ⟨by omega, by simp, by simp⟩
      · simpa [setAt_ne _ _ _ same] using pos
    obtain ⟨jPos', jDev, jInum⟩ := kept j jPos
    obtain ⟨kPos', kDev, kInum⟩ := kept k kPos
    exact counted.unique j k jPos' kPos' (by rw [← jDev, ← kDev]; exact dev) (by rw [← jInum, ← kInum]; exact inum)

/-- `iget` hands out one more reference and keeps the cache counted. -/
theorem iget (counted : Counted s H) {dev inum r : Nat} {s' : Sys}
    (run : Xv6Fs.iget s dev inum = .ok (r, s')) : Counted s' (r ::ₘ H) := by
  unfold Xv6Fs.iget at run
  split at run
  · rename_i ip scan
    obtain ⟨rfl, rfl⟩ := Prod.mk.inj (Except.ok.inj run)
    obtain ⟨below, found⟩ := igetScan_inl scan
    refine counted.raise (by simpa using below) _ rfl (counted.unread ip) fun k kPos other same => other ?_
    exact counted.unique k ip kPos found.1 same.1 same.2
  · cases run
  · rename_i ip scan
    obtain ⟨rfl, rfl⟩ := Prod.mk.inj (Except.ok.inj run)
    obtain ⟨miss, remembered⟩ := igetScan_inr scan
    obtain ⟨below, free⟩ := (remembered ip rfl).resolve_left (by simp)
    refine counted.raise (by simpa using below) _ (by simp [free]) rfl fun k kPos _ same => ?_
    by_cases small : k < NINODE
    · exact miss k (Nat.zero_le _) (by simpa using small) ⟨kPos, same⟩
    · rw [counted.ref_eq_zero (by omega)] at kPos
      exact absurd kPos (by decide)

/-- A call that respects held references keeps the cache counted. -/
theorem call (counted : Counted s H) {c : CacheCall} {r : Nat} {s' : Sys} (holds : c.Holds H)
    (run : c.run sb s = .ok (r, s')) : Counted s' (c.held r H) := by
  cases c with
  | iget dev inum => exact counted.iget run
  | idup ip =>
    obtain ⟨rfl, rfl⟩ := Prod.mk.inj (Except.ok.inj run)
    have pos : 0 < (s.icache ip).ref := by
      rw [counted.counted]
      exact_mod_cast Multiset.count_pos.2 holds
    refine counted.raise (counted.small ip holds) _ rfl (counted.unread ip) fun k kPos other same => other ?_
    exact counted.unique k ip kPos pos same.1 same.2
  | iput ip =>
    have kept : Xv6Fs.iput sb s ip = .ok (s.setSlot ip { s.icache ip with ref := (s.icache ip).ref - 1 }) := by
      unfold Xv6Fs.iput
      rw [if_neg fun freeing => by simp [counted.unread ip] at freeing]
      rfl
    simp only [CacheCall.run, kept] at run
    obtain ⟨rfl, rfl⟩ := Prod.mk.inj (Except.ok.inj run)
    exact counted.drop holds
  | ialloc dev type =>
    simp only [CacheCall.run, Xv6Fs.ialloc] at run
    split at run
    · rename_i disk _ _
      exact Counted.iget (s := { s with disk := disk }) ⟨counted.counted, counted.small, counted.unread, counted.unique⟩
        run
    · cases run

end Counted

/-- Every state of a run keeps the cache counted. -/
theorem CacheRun.counted {sb : Superblock} {s : Sys} {H : Multiset Nat} (run : CacheRun sb s H) : Counted s H := by
  induction run with
  | empty s => exact Counted.emptyCache s
  | call c _ holds step ih => exact ih.call holds step

/-- Along a run of cache calls that respects held references, no slot's count is
negative and no two referenced slots cache the same inode; `iget` returns the slot
that caches the inode when there is one, with one more reference, and otherwise
installs the inode in the first free slot; no other slot changes. -/
theorem cache_identity {sb : Superblock} {s : Sys} {H : Multiset Nat} (run : CacheRun sb s H) :
    (∀ k, (s.icache k).ref = H.count k) ∧ (∀ k, 0 ≤ (s.icache k).ref) ∧
    (∀ j k, 0 < (s.icache j).ref → 0 < (s.icache k).ref → (s.icache j).dev = (s.icache k).dev →
      (s.icache j).inum = (s.icache k).inum → j = k) ∧
    (∀ dev inum ip, ip < NINODE → 0 < (s.icache ip).ref → (s.icache ip).dev = dev → (s.icache ip).inum = inum →
      iget s dev inum = .ok (ip, s.setSlot ip { s.icache ip with ref := (s.icache ip).ref + 1 })) ∧
    (∀ dev inum ip, (∀ j < NINODE, ¬(0 < (s.icache j).ref ∧ (s.icache j).dev = dev ∧ (s.icache j).inum = inum)) →
      ip < NINODE → (s.icache ip).ref = 0 → (∀ j < ip, (s.icache j).ref ≠ 0) →
      iget s dev inum = .ok (ip, s.setSlot ip { s.icache ip with dev := dev, inum := inum, ref := 1, valid := false })) := by
  have counted := run.counted
  refine ⟨counted.counted, fun k => by rw [counted.counted]; omega, counted.unique, fun dev inum ip below pos sameDev sameInum => ?_,
    fun dev inum ip miss below free first => iget_of_uncached miss below free first⟩
  refine iget_of_cached below ⟨pos, sameDev, sameInum⟩ fun j lower ⟨jPos, jDev, jInum⟩ => ?_
  have := counted.unique j ip jPos pos (jDev.trans sameDev.symm) (jInum.trans sameInum.symm)
  omega

/-- The cache after `iget` of `(1, 6)` and of `(1, 5)` and `iput` of the first slot, from
the zeroed cache beside the `fs1000` disk: slot `0` is free again before slot `1`,
which caches `(1, 5)` with one reference. -/
def cacheAfterPut : Sys :=
  match runCache fs1000 [.iget 1 6, .iget 1 5, .iput 0] (boot fs1000 1).emptyCache with
  | .ok (_, s) => s
  | .error _ => (boot fs1000 1).emptyCache

/-- The run to `cacheAfterPut`, holding one reference to slot `1`. -/
theorem cache_identity_put :
    CacheRun fs1000 cacheAfterPut {1} ∧
    (∀ k, (cacheAfterPut.icache k).ref = ({1} : Multiset Nat).count k) ∧ (∀ k, 0 ≤ (cacheAfterPut.icache k).ref) ∧
    (∀ j k, 0 < (cacheAfterPut.icache j).ref → 0 < (cacheAfterPut.icache k).ref →
      (cacheAfterPut.icache j).dev = (cacheAfterPut.icache k).dev →
      (cacheAfterPut.icache j).inum = (cacheAfterPut.icache k).inum → j = k) ∧
    (∀ dev inum ip, ip < NINODE → 0 < (cacheAfterPut.icache ip).ref →
      (cacheAfterPut.icache ip).dev = dev → (cacheAfterPut.icache ip).inum = inum →
      iget cacheAfterPut dev inum = .ok (ip, cacheAfterPut.setSlot ip
        { cacheAfterPut.icache ip with ref := (cacheAfterPut.icache ip).ref + 1 })) ∧
    (∀ dev inum ip, (∀ j < NINODE, ¬(0 < (cacheAfterPut.icache j).ref ∧
        (cacheAfterPut.icache j).dev = dev ∧ (cacheAfterPut.icache j).inum = inum)) →
      ip < NINODE → (cacheAfterPut.icache ip).ref = 0 → (∀ j < ip, (cacheAfterPut.icache j).ref ≠ 0) →
      iget cacheAfterPut dev inum = .ok (ip, cacheAfterPut.setSlot ip
        { cacheAfterPut.icache ip with dev := dev, inum := inum, ref := 1, valid := false })) := by
  have run : CacheRun fs1000 cacheAfterPut {1} :=
    @CacheRun.of_runCache fs1000 [.iget 1 6, .iget 1 5, .iput 0] [0, 1, 0] _ _ 0 {1} (.empty (boot fs1000 1))
      (by decide) rfl
  exact ⟨run, cache_identity run⟩

/-- A client that takes a second reference to a slot it has given back: slot `1` held
`(1, 5)` until its `iput`, slot `0` is then reused for `(1, 5)`, and `idup` of slot `1`
leaves two referenced slots caching the same inode, every `iput` matched by an
earlier `iget`. -/
theorem idup_after_iput_duplicates_inode :
    ∃ s, runCache fs1000 [.iget 1 6, .iget 1 5, .iput 1, .iput 0, .iget 1 5, .idup 1] (boot fs1000 1).emptyCache =
        .ok ([0, 1, 1, 0, 0, 1], s) ∧
      0 < (s.icache 0).ref ∧ 0 < (s.icache 1).ref ∧ (s.icache 0).dev = (s.icache 1).dev ∧
      (s.icache 0).inum = (s.icache 1).inum :=
  ⟨_, rfl, by decide, by decide, by decide, by decide⟩

end Xv6Fs
