import Xv6Fs.Disk

/-!
# The user allocator

`umalloc.c` is Kernighan and Ritchie's allocator.  The free list is circular, through
the static header `base`, in address order.  Every block starts with a `Header` whose
`ptr` is the next free block and whose `size` is the block's length in headers, its
own included.  `malloc` rounds the request up to whole headers and takes the first
block that fits; when it has gone round the list without one, `morecore` asks `sbrk`
for more and frees it into the list.

Addresses are byte addresses, and `Header *` arithmetic steps by `sizeof(Header)`,
sixteen bytes on RV64 (a pointer and a `uint`, aligned to `long`).  `size` and `nunits`
are `uint`s, the byte count `nu * sizeof(Header)` is an `unsigned long`, and `sbrk`
takes an `int`.  `fuel` bounds the passes of each search loop; a search that runs out
of it is `none`.
-/

namespace Xv6Fs

/-- `sizeof(Header)`. -/
def HSIZE : Nat := 16

/-- `union header`: the next free block and the block's size in headers. -/
structure Header where
  ptr : Nat
  size : Nat
  deriving DecidableEq, Repr

/-- The allocator's memory: the header stored at each address, `freep`, and the
program break. -/
structure Umem where
  hdr : Nat → Header
  freep : Nat
  brk : Nat

/-- `(int) x`: the low 32 bits of `x`, two's complement. -/
def toInt (x : Nat) : Int :=
  if x % 2 ^ 32 < 2 ^ 31 then (x % 2 ^ 32 : Nat) else (x % 2 ^ 32 : Nat) - 2 ^ 32

/-- Modelled from the spec: `sbrk(n)` (`sysproc.c` is not among the sources): the old
break, with the break moved by `n` bytes, or `-1` when the process cannot grow or shrink
that far; `limit` is the highest break the process can reach. -/
def sbrk (limit : Nat) (m : Umem) (n : Int) : Option (Nat × Umem) :=
  if 0 ≤ (m.brk : Int) + n ∧ (m.brk : Int) + n ≤ limit then some (m.brk, { m with brk := ((m.brk : Int) + n).toNat })
  else none

section Allocator

variable (base limit fuel : Nat)

/-- The loop of `free` for the block at `bp`: the free block `p` after which `bp`
belongs, between `p` and its successor or at the wrap-around of the list. -/
def freeScan (m : Umem) (bp : Nat) : (passes p : Nat) → Option Nat
  | 0, _ => none
  | passes + 1, p =>
    if bp > p ∧ bp < (m.hdr p).ptr then some p
    else if p ≥ (m.hdr p).ptr ∧ (bp > p ∨ bp < (m.hdr p).ptr) then some p
    else freeScan m bp passes (m.hdr p).ptr

/-- `free(ap)`: insert the block into the list after `p`, joining it to its upper
neighbour and then to `p` where they touch. -/
def free (m : Umem) (ap : Nat) : Option Umem := do
  let bp := ap - HSIZE
  let p ← freeScan m bp fuel m.freep
  let hdr := m.hdr
  let q := (hdr p).ptr
  let hdr := if bp + HSIZE * (hdr bp).size = q then setAt hdr bp ⟨(hdr q).ptr, ((hdr bp).size + (hdr q).size) % 2 ^ 32⟩
    else setAt hdr bp ⟨q, (hdr bp).size⟩
  let hdr := if p + HSIZE * (hdr p).size = bp then setAt hdr p ⟨(hdr bp).ptr, ((hdr p).size + (hdr bp).size) % 2 ^ 32⟩
    else setAt hdr p ⟨bp, (hdr p).size⟩
  pure { m with hdr := hdr, freep := p }

/-- `morecore(nu)`: at least 4096 headers from `sbrk`, freed into the list; the new
`freep`, or `0` when `sbrk` fails. -/
def morecore (m : Umem) (nu : Nat) : Option (Nat × Umem) :=
  let nu := if nu < 4096 then 4096 else nu
  match sbrk limit m (toInt (nu * HSIZE % 2 ^ 64)) with
  | none => some (0, m)
  | some (p, m) =>
    (free fuel { m with hdr := setAt m.hdr p { m.hdr p with size := nu } } (p + HSIZE)).map fun m => (m.freep, m)

/-- `nunits = (nbytes + sizeof(Header) - 1) / sizeof(Header) + 1`, stored in a `uint`. -/
def nunits (nbytes : Nat) : Nat :=
  ((nbytes + HSIZE - 1) / HSIZE + 1) % 2 ^ 32

/-- The search loop of `malloc` from `p`, the successor of `prevp`. -/
def mallocLoop (units : Nat) : (passes : Nat) → Umem → (prevp p : Nat) → Option (Nat × Umem)
  | 0, _, _, _ => none
  | passes + 1, m, prevp, p =>
    if (m.hdr p).size ≥ units then
      if (m.hdr p).size = units then
        some (p + HSIZE, { m with hdr := setAt m.hdr prevp { m.hdr prevp with ptr := (m.hdr p).ptr }, freep := prevp })
      else
        let hdr := setAt m.hdr p { m.hdr p with size := (m.hdr p).size - units }
        let p := p + HSIZE * ((m.hdr p).size - units)
        some (p + HSIZE, { m with hdr := setAt hdr p { hdr p with size := units }, freep := prevp })
    else if p = m.freep then
      match morecore limit fuel m units with
      | none => none
      | some (0, m) => some (0, m)
      | some (p, m) => mallocLoop units passes m p (m.hdr p).ptr
    else mallocLoop units passes m p (m.hdr p).ptr

/-- `malloc(nbytes)`: the pointer it returns, `0` when `sbrk` fails, and the memory
afterwards.  `base` is the address of the static `base`. -/
def malloc (m : Umem) (nbytes : UInt32) : Option (Nat × Umem) :=
  let m := if m.freep = 0 then { m with hdr := setAt m.hdr base ⟨base, 0⟩, freep := base } else m
  mallocLoop limit fuel (nunits nbytes.toNat) fuel m m.freep (m.hdr m.freep).ptr

end Allocator

/-! ## The byte count `morecore` hands `sbrk` -/

theorem toInt_lt (x : Nat) : toInt x < 2 ^ 31 := by
  unfold toInt
  split <;> omega

/-- From two gigabytes on, the `int` that `sbrk` receives is not the byte count of the
headers `morecore` asks for. -/
theorem sbrk_argument_wraps {nu : Nat} (large : 2 ^ 31 ≤ nu * HSIZE) :
    toInt (nu * HSIZE % 2 ^ 64) ≠ (nu * HSIZE : Nat) := by
  have := toInt_lt (nu * HSIZE % 2 ^ 64)
  omega

/-- `malloc(4294967295)` on a fresh heap: `nunits` is `2^28 + 1`, whose byte count
`2^32 + 16` reaches `sbrk` as `16`.  `sbrk` grows the heap by one header, `morecore`
records a block of `2^28 + 1` headers there, and `malloc` returns a pointer to the new
break: none of the bytes it hands out were obtained from `sbrk`. -/
theorem malloc_huge_beyond_break :
    (malloc 0x1000 (2 ^ 38) 8 ⟨fun _ => ⟨0, 0⟩, 0, 0x4000⟩ 4294967295).map
        (fun r => (r.1, r.2.brk, (r.2.hdr 0x4000).size)) = some (0x4010, 0x4010, 2 ^ 28 + 1) := by
  decide

end Xv6Fs
