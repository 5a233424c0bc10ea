import Xv6Fs.Balloc
import Mathlib.Algebra.BigOperators.Group.Finset
import Mathlib.Data.Fintype.Fin
import Mathlib.Data.Multiset.OrderedMonoid

/-!
# The per-CPU page allocator

`kalloc.c` of this kernel keeps one free list per CPU in `kmems[3]`, each under its
own spinlock.  A free page holds the list's `struct run`, whose `next` field is the
first word of the page.  `kfree` pushes a page onto the list of the CPU it runs on;
`kalloc` pops from its own list, and when that is empty it takes the first page of
another CPU's list through `steal`, while still holding its own lock.

This module models the calls one at a time, each running to completion under the
locks it takes: memory is the `next` word of every page and the three list heads.
A run starts from the zeroed `kmems` and makes any sequence of `kfree` and `kalloc`
calls on any CPU, `kinit`'s `freerange` among them, where `kfree` is given only pages
that are not free.  Along every run the lists are null-terminated chains through
distinct pages (`Chain`): they are acyclic and pairwise disjoint, no page on them is
handed out, and the pages on them are the pages freed minus the pages allocated.
-/

namespace Xv6Fs

/-- Modelled from the spec: `PGSIZE` (`riscv.h` is not among the sources). -/
def PGSIZE : Nat := 4096

/-- Modelled from the spec: `PGROUNDUP(sz)`, `((sz) + PGSIZE - 1) & ~(PGSIZE - 1)`. -/
def PGROUNDUP (sz : Nat) : Nat :=
  (sz + PGSIZE - 1) / PGSIZE * PGSIZE

/-- Modelled from the spec: the memory the allocator manages, from `end`, the first
address after the kernel (`kernel.ld`), to `PHYSTOP` (`memlayout.h`).  The kernel is
linked above address `0`. -/
structure Layout where
  kend : Nat
  PHYSTOP : Nat
  kend_pos : 0 < kend

/-- A CPU, and the index of its `struct kmem` in `kmems[3]`: `getcpu()` returns it. -/
abbrev Cpu := Fin 3

/-- The allocator's memory: the `next` word of each page (`((struct run*)p)->next`) and
the list heads `kmems[i].freelist`. -/
structure Kmems where
  next : Nat → Nat
  freelist : Cpu → Nat

/-- The first word of a page after `memset(r, 5, PGSIZE)`. -/
def junk5 : Nat := 0x0505050505050505

/-- `kfree(pa)` on CPU `hart`: the range and alignment check, then the page pushed onto
`kmems[hart].freelist`.  The junk fill `memset(pa, 1, PGSIZE)` is overwritten by
`r->next` in the page's first word. -/
def kfree (ly : Layout) (m : Kmems) (hart : Cpu) (pa : Nat) : Except Halt Kmems :=
  if pa % PGSIZE ≠ 0 ∨ pa < ly.kend ∨ pa ≥ ly.PHYSTOP then .error (.fatal "kfree")
  else .ok ⟨setAt m.next pa (m.freelist hart), setAt m.freelist hart pa⟩

/-- `kmems[i].freelist = r->next` for the first page `r` of list `i`. -/
def Kmems.pop (m : Kmems) (i : Cpu) : Kmems :=
  { m with freelist := setAt m.freelist i (m.next (m.freelist i)) }

/-- The loop of `steal` over `i`, run by a CPU that holds exactly the lock of its own
list `hart`, so that `holding(&kmems[i].lock)` is `i = hart`: the first page of the
first other non-empty list, or `0`; `remaining` bounds the iterations. -/
def stealLoop (m : Kmems) (hart : Cpu) : (remaining i : Nat) → Nat × Kmems
  | 0, _ => (0, m)
  | remaining + 1, i =>
    if h : i < 3 then
      if (⟨i, h⟩ : Cpu) = hart then stealLoop m hart remaining (i + 1)
      else if m.freelist ⟨i, h⟩ ≠ 0 then (m.freelist ⟨i, h⟩, m.pop ⟨i, h⟩)
      else stealLoop m hart remaining (i + 1)
    else (0, m)

/-- `steal(skip)`: the loop over `i = 0, 1, 2`. -/
def steal (m : Kmems) (hart : Cpu) : Nat × Kmems :=
  stealLoop m hart 3 0

/-- `kalloc()` on CPU `hart`: a page of its own list, or else one stolen from another
CPU's, filled with junk; `0` when `steal` finds none. -/
def kalloc (m : Kmems) (hart : Cpu) : Nat × Kmems :=
  let (r, m) := if m.freelist hart ≠ 0 then (m.freelist hart, m.pop hart) else steal m hart
  if r ≠ 0 then (r, { m with next := setAt m.next r junk5 }) else (r, m)

/-- The loop of `freerange`: `kfree(p)` for `p + PGSIZE ≤ pa_end`, `p` stepping by
`PGSIZE`; `fuel` bounds the iterations. -/
def freerangeLoop (ly : Layout) (hart : Cpu) (pa_end : Nat) : (fuel : Nat) → Kmems → Nat → Except Halt Kmems
  | 0, m, _ => .ok m
  | fuel + 1, m, p =>
    if p + PGSIZE ≤ pa_end then do
      let m ← kfree ly m hart p
      freerangeLoop ly hart pa_end fuel m (p + PGSIZE)
    else .ok m

/-- `freerange(pa_start, pa_end)` on CPU `hart`: `pa_end / PGSIZE + 1` iterations
outlast the loop. -/
def freerange (ly : Layout) (m : Kmems) (hart : Cpu) (pa_start pa_end : Nat) : Except Halt Kmems :=
  freerangeLoop ly hart pa_end (pa_end / PGSIZE + 1) m (PGROUNDUP pa_start)

/-- The zeroed `kmems` of boot, beside any memory. -/
def Kmems.zeroed (next : Nat → Nat) : Kmems :=
  ⟨next, fun _ => 0⟩

/-- `kinit()` on CPU `hart`: `freerange(end, PHYSTOP)` on the zeroed lists. -/
def kinit (ly : Layout) (next : Nat → Nat) (hart : Cpu) : Except Halt Kmems :=
  freerange ly (Kmems.zeroed next) hart ly.kend ly.PHYSTOP

/-! ## Lists as chains of pages -/

/-- `p` heads the null-terminated chain of `next` pointers through the pages `ps`, in
order. -/
def Chain (next : Nat → Nat) : Nat → List Nat → Prop
  | p, [] => p = 0
  | p, q :: ps => p = q ∧ q ≠ 0 ∧ Chain next (next q) ps

section Chain

variable {next : Nat → Nat}

/-- Rewriting the `next` word of a page off the chain keeps the chain. -/
theorem Chain.frame {q v : Nat} : ∀ {p : Nat} {ps : List Nat}, Chain next p ps → q ∉ ps →
    Chain (setAt next q v) p ps
  | _, [], chain, _ => chain
  | _, r :: ps, ⟨head, nonzero, chain⟩, off => by
    have other : r ≠ q := fun same => off (same ▸ List.mem_cons_self _ _)
    refine ⟨head, nonzero, ?_⟩
    rw [setAt_ne _ _ _ other]
    exact chain.frame fun mem => off (List.mem_cons_of_mem _ mem)

/-- A head has one chain. -/
theorem Chain.unique : ∀ {p : Nat} {ps qs : List Nat}, Chain next p ps → Chain next p qs → ps = qs
  | _, [], [], _, _ => rfl
  | _, [], _ :: _, empty, ⟨head, nonzero, _⟩ => absurd (head ▸ empty) nonzero
  | _, _ :: _, [], ⟨head, nonzero, _⟩, empty => absurd (head ▸ empty) nonzero
  | _, r :: ps, s :: qs, ⟨head, _, chain⟩, ⟨head', _, chain'⟩ => by
    obtain rfl : r = s := head.symm.trans head'
    rw [chain.unique chain']

/-- A chain is empty exactly when its head is null. -/
theorem Chain.eq_nil_iff : ∀ {p : Nat} {ps : List Nat}, Chain next p ps → (ps = [] ↔ p = 0)
  | _, [], empty => ⟨fun _ => empty, fun _ => rfl⟩
  | _, _ :: _, ⟨head, nonzero, _⟩ => ⟨(nomatch ·), fun zero => absurd (head ▸ zero) nonzero⟩

end Chain

/-- The pages on the free lists `L`. -/
def freePages (L : Cpu → List Nat) : Multiset Nat :=
  ∑ c, (L c : Multiset Nat)

theorem freePages_setAt (L : Cpu → List Nat) (c : Cpu) (l : List Nat) :
    freePages (setAt L c l) + (L c : Multiset Nat) = freePages L + (l : Multiset Nat) := by
  unfold freePages
  rw [← Finset.sum_erase_add _ _ (Finset.mem_univ c), ← Finset.sum_erase_add _ _ (Finset.mem_univ c),
    setAt_same, add_right_comm]
  congr 2
  exact Finset.sum_congr rfl fun d mem => by rw [setAt_ne _ _ _ (Finset.ne_of_mem_erase mem)]

theorem freePages_push (L : Cpu → List Nat) (c : Cpu) (pa : Nat) :
    freePages (setAt L c (pa :: L c)) = pa ::ₘ freePages L := by
  have := freePages_setAt L c (pa :: L c)
  rw [← Multiset.cons_coe, Multiset.add_cons, ← Multiset.cons_add] at this
  exact add_right_cancel this

theorem freePages_pop {L : Cpu → List Nat} {c : Cpu} {r : Nat} {t : List Nat} (head : L c = r :: t) :
    freePages L = r ::ₘ freePages (setAt L c t) := by
  have := freePages_setAt L c t
  rw [head, ← Multiset.cons_coe, Multiset.add_cons, ← Multiset.cons_add] at this
  exact (add_right_cancel this).symm

theorem mem_freePages {L : Cpu → List Nat} {p : Nat} : p ∈ freePages L ↔ ∃ c, p ∈ L c := by
  simp [freePages, Multiset.mem_sum]

/-! ## The allocator's invariant -/

/-- Whether page `p` is on a free list. -/
def Kmems.Free (m : Kmems) (p : Nat) : Prop :=
  ∃ c ps, Chain m.next (m.freelist c) ps ∧ p ∈ ps

/-- The lists `L` are the chains of `m`; they hold distinct pages, none of them handed
out (`O`), and with the pages allocated (`A`) they are the pages freed (`F`). -/
structure KInv (m : Kmems) (L : Cpu → List Nat) (F A : Multiset Nat) (O : Finset Nat) : Prop where
  chains : ∀ c, Chain m.next (m.freelist c) (L c)
  nodup : (freePages L).Nodup
  notOut : ∀ p ∈ freePages L, p ∉ O
  counted : ∀ p, (freePages L).count p + A.count p = F.count p

namespace KInv

variable {ly : Layout} {m : Kmems} {L : Cpu → List Nat} {F A : Multiset Nat} {O : Finset Nat}

theorem free_iff (inv : KInv m L F A O) {p : Nat} : m.Free p ↔ p ∈ freePages L := by
  rw [mem_freePages]
  exact ⟨fun ⟨c, ps, chain, mem⟩ => ⟨c, (chain.unique (inv.chains c)) ▸ mem⟩,
    fun ⟨c, mem⟩ => ⟨c, L c, inv.chains c, mem⟩⟩

theorem zeroed (next : Nat → Nat) : KInv (Kmems.zeroed next) (fun _ => []) 0 0 ∅ where
  chains _ := rfl
  nodup := by simp [freePages]
  notOut _ _ := Finset.not_mem_empty _
  counted _ := by simp [freePages]

/-- `kfree` of a page that is not free pushes it onto the list of the CPU. -/
theorem kfree (inv : KInv m L F A O) {hart : Cpu} {pa : Nat} {m' : Kmems} (notFree : ¬m.Free pa)
    (freed : Xv6Fs.kfree ly m hart pa = .ok m') :
    KInv m' (setAt L hart (pa :: L hart)) (pa ::ₘ F) A (O.erase pa) := by
  unfold Xv6Fs.kfree at freed
  split at freed
  · cases freed
  rename_i valid
  obtain rfl := (Except.ok.inj freed).symm
  have off : pa ∉ freePages L := fun mem => notFree (inv.free_iff.2 mem)
  have offList : ∀ c, pa ∉ L c := fun c mem => off (mem_freePages.2 ⟨c, mem⟩)
  have nonzero : pa ≠ 0 := by have := ly.kend_pos; omega
  refine ⟨fun c => ?_, ?_, fun p mem => ?_, fun p => ?_⟩
  · by_cases same : c = hart
    · subst same
      simp only [setAt_same]
      refine ⟨rfl, nonzero, ?_⟩
      rw [setAt_same]
      exact (inv.chains c).frame (offList c)
    · simp only [setAt_ne _ _ _ same]
      exact (inv.chains c).frame (offList c)
  · rw [freePages_push]
    exact Multiset.nodup_cons.2 ⟨off, inv.nodup⟩
  · rw [freePages_push] at mem
    rcases Multiset.mem_cons.1 mem with rfl | mem
    · exact Finset.not_mem_erase _ _
    · exact fun out => inv.notOut p mem (Finset.mem_of_mem_erase out)
  · rw [freePages_push, Multiset.count_cons, Multiset.count_cons, ← inv.counted p]
    omega

/-- Taking the first page `r` of list `c`, and filling it with junk, hands `r` out. -/
theorem take (inv : KInv m L F A O) {c : Cpu} {r : Nat} {t : List Nat} (head : L c = r :: t) :
    KInv { m.pop c with next := setAt (m.pop c).next r junk5 } (setAt L c t) F (r ::ₘ A) (insert r O) := by
  have popped := freePages_pop head
  have nodup := inv.nodup
  rw [popped] at nodup
  obtain ⟨off, nodup⟩ := Multiset.nodup_cons.1 nodup
  have chain := inv.chains c
  rw [head] at chain
  obtain ⟨first, -, rest⟩ := chain
  have offList : ∀ d, r ∉ (setAt L c t) d := fun d mem => off (mem_freePages.2 ⟨d, mem⟩)
  refine ⟨fun d => ?_, nodup, fun p mem out => ?_, fun p => ?_⟩
  · by_cases same : d = c
    · subst same
      have := rest.frame (v := junk5) (by simpa using offList d)
      simpa [Kmems.pop, ← first] using this
    · have := (inv.chains d).frame (v := junk5) (by simpa [setAt_ne _ _ _ same] using offList d)
      simpa [Kmems.pop, setAt_ne _ _ _ same] using this
  · rcases Finset.mem_insert.1 out with rfl | out
    · exact off mem
    · exact inv.notOut p (by rw [popped]; exact Multiset.mem_cons_of_mem mem) out
  · rw [← inv.counted p, popped, Multiset.count_cons, Multiset.count_cons]
    omega

end KInv

/-! ## What `kalloc` returns -/

section Kalloc

variable {m : Kmems} {hart : Cpu}

/-- The loop of `steal` returns the first page of a non-empty list other than its own,
or `0` when every other list it scans is empty. -/
theorem stealLoop_cases : ∀ (remaining i : Nat),
    (stealLoop m hart remaining i = (0, m) ∧ ∀ j : Cpu, i ≤ j.val → j.val < i + remaining → j ≠ hart → m.freelist j = 0) ∨
      ∃ j, j ≠ hart ∧ m.freelist j ≠ 0 ∧ stealLoop m hart remaining i = (m.freelist j, m.pop j)
  | 0, _ => .inl ⟨rfl, fun _ lo hi _ => by omega⟩
  | remaining + 1, i => by
    unfold stealLoop
    by_cases small : i < 3
    · rw [dif_pos small]
      have rest := stealLoop_cases remaining (i + 1)
      have next : ∀ j : Cpu, i ≤ j.val → j.val < i + (remaining + 1) → j ≠ hart → j ≠ ⟨i, small⟩ →
          i + 1 ≤ j.val ∧ j.val < i + 1 + remaining := fun j lo hi _ other =>
        ⟨Nat.lt_of_le_of_ne lo fun same => other (Fin.ext same.symm), by omega⟩
      by_cases own : (⟨i, small⟩ : Cpu) = hart
      · rw [if_pos own]
        refine rest.imp (fun ⟨run, empty⟩ => ⟨run, fun j lo hi other => ?_⟩) id
        exact empty j (next j lo hi other fun same => other (same.trans own)).1
          (next j lo hi other fun same => other (same.trans own)).2 other
      · rw [if_neg own]
        by_cases nonempty : m.freelist ⟨i, small⟩ ≠ 0
        · exact .inr ⟨_, own, nonempty, if_pos nonempty⟩
        · rw [if_neg nonempty]
          refine rest.imp (fun ⟨run, empty⟩ => ⟨run, fun j lo hi other => ?_⟩) id
          by_cases first : j = ⟨i, small⟩
          · exact first ▸ not_not.1 nonempty
          · exact empty j (next j lo hi other first).1 (next j lo hi other first).2 other
    · rw [dif_neg small]
      exact .inl ⟨rfl, fun j lo _ _ => absurd (lt_of_le_of_lt lo j.isLt) small⟩

/-- `kalloc` returns `0` and changes nothing when every list is empty; otherwise it
takes the first page of a non-empty list, its own if that is not empty. -/
theorem kalloc_cases (m : Kmems) (hart : Cpu) :
    (kalloc m hart = (0, m) ∧ ∀ c, m.freelist c = 0) ∨
      ∃ c, m.freelist c ≠ 0 ∧ (m.freelist hart ≠ 0 → c = hart) ∧
        kalloc m hart = (m.freelist c, { m.pop c with next := setAt (m.pop c).next (m.freelist c) junk5 }) := by
  unfold kalloc
  by_cases own : m.freelist hart ≠ 0
  · exact .inr ⟨hart, own, fun _ => rfl, by simp only [if_pos own]⟩
  · simp only [if_neg own]
    rcases @stealLoop_cases m hart 3 0 with ⟨run, empty⟩ | ⟨i, other, nonempty, run⟩
    · refine .inl ⟨by simp [steal, run], fun c => ?_⟩
      by_cases same : c = hart
      · exact same ▸ not_not.1 own
      · exact empty c (Nat.zero_le _) c.isLt same
    · exact .inr ⟨i, nonempty, fun nonempty' => absurd nonempty' own, by simp [steal, run, nonempty]⟩

end Kalloc

/-! ## Runs of the allocator -/

/-- The states of a run from the zeroed `kmems`, with the pages freed (`F`), the pages
allocated (`A`), and the pages handed out and not given back (`O`): `kfree` is given
only pages that are not free. -/
inductive KRun (ly : Layout) : Kmems → Multiset Nat → Multiset Nat → Finset Nat → Prop
  | zeroed (next : Nat → Nat) : KRun ly (Kmems.zeroed next) 0 0 ∅
  | kfree {m m' : Kmems} {F A : Multiset Nat} {O : Finset Nat} (hart : Cpu) (pa : Nat) :
      KRun ly m F A O → ¬m.Free pa → Xv6Fs.kfree ly m hart pa = .ok m' → KRun ly m' (pa ::ₘ F) A (O.erase pa)
  | kalloc {m : Kmems} {F A : Multiset Nat} {O : Finset Nat} (hart : Cpu) :
      KRun ly m F A O → (Xv6Fs.kalloc m hart).1 ≠ 0 →
      KRun ly (Xv6Fs.kalloc m hart).2 F ((Xv6Fs.kalloc m hart).1 ::ₘ A) (insert (Xv6Fs.kalloc m hart).1 O)
  | kallocNone {m : Kmems} {F A : Multiset Nat} {O : Finset Nat} (hart : Cpu) :
      KRun ly m F A O → (Xv6Fs.kalloc m hart).1 = 0 → KRun ly (Xv6Fs.kalloc m hart).2 F A O

/-- Every state of a run keeps the invariant, for some lists. -/
theorem KRun.inv {ly : Layout} {m : Kmems} {F A : Multiset Nat} {O : Finset Nat} (run : KRun ly m F A O) :
    ∃ L, KInv m L F A O := by
  induction run with
  | zeroed next => exact ⟨_, KInv.zeroed next⟩
  | kfree hart pa _ notFree freed ih =>
    obtain ⟨L, inv⟩ := ih
    exact ⟨_, inv.kfree notFree freed⟩
  | @kalloc m F A O hart _ nonzero ih =>
    obtain ⟨L, inv⟩ := ih
    rcases kalloc_cases m hart with ⟨run, -⟩ | ⟨c, nonempty, -, run⟩
    · rw [run] at nonzero
      exact absurd rfl nonzero
    · obtain ⟨t, head⟩ : ∃ t, L c = m.freelist c :: t := by
        have chain := inv.chains c
        cases list : L c with
        | nil => rw [list] at chain; exact absurd chain nonempty
        | cons r t => rw [list] at chain; exact ⟨t, by rw [chain.1]⟩
      rw [run]
      exact ⟨_, inv.take head⟩
  | @kallocNone m F A O hart _ zero ih =>
    obtain ⟨L, inv⟩ := ih
    rcases kalloc_cases m hart with ⟨run, -⟩ | ⟨c, nonempty, -, run⟩
    · rw [run]
      exact ⟨L, inv⟩
    · rw [run] at zero
      exact absurd zero nonempty


/-! ## `kinit` -/

section Kinit

variable {ly : Layout} {hart : Cpu}

/-- One more iteration than the loop runs changes nothing: the fuel of `freerange`
outlasts its loop. -/
theorem freerangeLoop_succ {pa_end : Nat} : ∀ {fuel : Nat} {m : Kmems} {p : Nat}, pa_end < p + (fuel + 1) * PGSIZE →
    freerangeLoop ly hart pa_end (fuel + 1) m p = freerangeLoop ly hart pa_end fuel m p
  | 0, m, p, beyond => by
    unfold freerangeLoop
    rw [if_neg (by omega)]
  | fuel + 1, m, p, beyond => by
    rw [freerangeLoop]
    split
    · rename_i fits
      conv_rhs => rw [freerangeLoop, if_pos fits]
      cases kfree ly m hart p with
      | error halt => rfl
      | ok m' => exact freerangeLoop_succ (by unfold PGSIZE at *; omega)
    · rw [freerangeLoop, if_neg ‹_›]

/-- The loop of `freerange` over pages of the layout, above every free page, frees each
of them with `kfree` and keeps the run going. -/
theorem freerangeLoop_run : ∀ {fuel : Nat} {m : Kmems} {p : Nat} {L : Cpu → List Nat} {F : Multiset Nat},
    KRun ly m F 0 ∅ → KInv m L F 0 ∅ → p % PGSIZE = 0 → ly.kend ≤ p → (∀ q ∈ freePages L, q < p) →
      ∃ m' F', freerangeLoop ly hart ly.PHYSTOP fuel m p = .ok m' ∧ KRun ly m' F' 0 ∅
  | 0, m, _, _, F, run, _, _, _, _ => ⟨m, F, rfl, run⟩
  | fuel + 1, m, p, L, F, run, inv, aligned, above, below => by
    unfold freerangeLoop
    split
    · rename_i fits
      have valid : ¬(p % PGSIZE ≠ 0 ∨ p < ly.kend ∨ p ≥ ly.PHYSTOP) := by
        unfold PGSIZE at *
        omega
      have freed : kfree ly m hart p = .ok ⟨setAt m.next p (m.freelist hart), setAt m.freelist hart p⟩ := by
        unfold kfree
        rw [if_neg valid]
      have notFree : ¬m.Free p := fun free => by
        have := below p (inv.free_iff.1 free)
        omega
      rw [freed]
      refine freerangeLoop_run (.kfree hart p run notFree freed) (inv.kfree notFree freed) ?_ (by omega)
        fun q mem => ?_
      · unfold PGSIZE at *
        omega
      · rw [freePages_push] at mem
        rcases Multiset.mem_cons.1 mem with rfl | mem
        · unfold PGSIZE
          omega
        · have := below q mem
          omega
    · exact ⟨m, F, rfl, run⟩

/-- `kinit` frees every page of the layout without a panic, in a run of the allocator. -/
theorem kinit_run (ly : Layout) (next : Nat → Nat) (hart : Cpu) :
    ∃ m F, kinit ly next hart = .ok m ∧ KRun ly m F 0 ∅ :=
  freerangeLoop_run (.zeroed next) (KInv.zeroed next) (by unfold PGROUNDUP; exact Nat.mul_mod_left _ _)
    (by unfold PGROUNDUP PGSIZE; omega) fun q mem => by simp [freePages] at mem

end Kinit

/-- Page conservation: `kinit` starts a run, and along every run of `kfree` and
`kalloc` calls on any CPUs in which `kfree` is given only pages that are not free, the
free lists are null-terminated chains through distinct pages (so each is acyclic and
no two share a page), no free page is handed out, the free pages are the pages freed
minus the pages allocated, and `kalloc` returns `0` only when every list is empty. -/
theorem page_conservation (ly : Layout) :
    (∀ next hart, ∃ m F, kinit ly next hart = .ok m ∧ KRun ly m F 0 ∅) ∧
    ∀ {m : Kmems} {F A : Multiset Nat} {O : Finset Nat}, KRun ly m F A O →
      ∃ L : Cpu → List Nat, (∀ c, Chain m.next (m.freelist c) (L c)) ∧ (freePages L).Nodup ∧
        (∀ p ∈ freePages L, p ∉ O) ∧ A ≤ F ∧ freePages L = F - A ∧
        ∀ hart, (kalloc m hart).1 = 0 → ∀ c, m.freelist c = 0 := by
  refine ⟨kinit_run ly, fun {m F A O} run => ?_⟩
  obtain ⟨L, inv⟩ := run.inv
  have le : A ≤ F := Multiset.le_iff_count.2 fun p => by have := inv.counted p; omega
  refine ⟨L, inv.chains, inv.nodup, inv.notOut, le, Multiset.ext' fun p => ?_, fun hart zero c => ?_⟩
  · rw [Multiset.count_sub, ← inv.counted p]
    omega
  · rcases kalloc_cases m hart with ⟨-, empty⟩ | ⟨d, nonempty, -, run⟩
    · exact empty c
    · rw [run] at zero
      exact absurd zero nonempty

/-- A layout of two pages, `PGSIZE` and `2 * PGSIZE`. -/
def twoPages : Layout :=
  ⟨PGSIZE, 3 * PGSIZE, by decide⟩

/-- The lists after `kinit` on CPU `0` of `twoPages`. -/
def kinitTwo : Kmems :=
  match kinit twoPages (fun _ => 0) 0 with
  | .ok m => m
  | .error _ => Kmems.zeroed fun _ => 0

/-- `kinit` on CPU `0`, then `kalloc` on CPU `1`, whose own list is empty: `steal` takes
a page of CPU `0`'s list. -/
theorem page_conservation_stolen :
    kinitTwo.freelist 1 = 0 ∧ (kalloc kinitTwo 1).1 ≠ 0 ∧
      ∃ F, KRun twoPages (kalloc kinitTwo 1).2 F ((kalloc kinitTwo 1).1 ::ₘ 0) (insert (kalloc kinitTwo 1).1 ∅) ∧
        ∃ L : Cpu → List Nat, (∀ c, Chain (kalloc kinitTwo 1).2.next ((kalloc kinitTwo 1).2.freelist c) (L c)) ∧
          (freePages L).Nodup ∧ (∀ p ∈ freePages L, p ∉ (insert (kalloc kinitTwo 1).1 ∅ : Finset Nat)) ∧
          (kalloc kinitTwo 1).1 ::ₘ 0 ≤ F ∧ freePages L = F - (kalloc kinitTwo 1).1 ::ₘ 0 ∧
          ∀ hart, (kalloc (kalloc kinitTwo 1).2 hart).1 = 0 → ∀ c, (kalloc kinitTwo 1).2.freelist c = 0 := by
  obtain ⟨m, F, init, run⟩ := (page_conservation twoPages).1 (fun _ => 0) 0
  obtain rfl : m = kinitTwo := Except.ok.inj (init.symm.trans rfl)
  have stolen : (kalloc kinitTwo 1).1 ≠ 0 := by decide
  exact ⟨by decide, stolen, F, .kalloc 1 run stolen, (page_conservation twoPages).2 (.kalloc 1 run stolen)⟩

end Xv6Fs
