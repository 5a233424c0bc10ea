import Xv6Fs.Kalloc
import Mathlib.Logic.Relation

/-!
# The locks of the per-CPU allocator

Each `kmems[i].lock` is a spinlock: `acquire` spins while another CPU holds it, and only
the holder releases it.  Here each CPU runs its `kalloc` or `kfree` call at the grain
of its lock operations: a step of a CPU takes it from one lock operation to the next,
or to the end of its call, and the steps of the CPUs interleave in any order.

`Locked` says which locks each CPU holds at each point of its call; every step keeps
it (`Locked.step`).  A CPU that runs a call alone, while no other CPU holds a lock,
computes the call of `Kalloc` (`kfree_solo`, `kalloc_solo`), so every run of that
module is an interleaving here too (`KRun.interleaved`).

`kalloc` calls `steal` while it holds its own lock, and `steal` acquires the other
CPUs' locks in index order, skipping only the locks the CPU holds.  Two CPUs whose own
lists are empty each take their own lock and then wait for the other's: once the pages
that `kinit` freed are handed out, the two spin forever (`kalloc_steal_deadlock`).
-/

namespace Xv6Fs

/-- Where a CPU is in its call. -/
inductive Pc where
  /-- In no call. -/
  | idle
  /-- `acquire(&kmems[hart].lock)` in `kfree(pa)`. -/
  | kfreeAcquire (pa : Nat)
  /-- Holding its lock in `kfree(pa)`: the push, then `release`. -/
  | kfreePush (pa : Nat)
  /-- `acquire(&kmems[hart].lock)` in `kalloc`. -/
  | kallocAcquire
  /-- Holding its lock in `kalloc`: the pop of its own list, or the call of `steal`. -/
  | kallocTake
  /-- The test `holding(&kmems[i].lock)` at the top of `steal`'s loop. -/
  | stealTest (i : Nat)
  /-- `acquire(&kmems[i].lock)` in `steal`. -/
  | stealAcquire (i : Cpu)
  /-- Holding lock `i` in `steal`: the pop of list `i`, then `release`. -/
  | stealTake (i : Cpu)
  /-- Back in `kalloc` with the page `r`: `release(&kmems[hart].lock)` and the junk fill. -/
  | kallocRelease (r : Nat)
  deriving DecidableEq, Repr

/-- The allocator and its locks: the memory, the CPU holding each `kmems[i].lock`, and
where each CPU is. -/
structure Cpus where
  mem : Kmems
  owner : Cpu → Option Cpu
  pc : Cpu → Pc

namespace Cpus

/-- All CPUs idle and every lock free. -/
def start (m : Kmems) : Cpus :=
  ⟨m, fun _ => none, fun _ => .idle⟩

/-- CPU `c` moves on to `pc`. -/
def goto (s : Cpus) (c : Cpu) (pc : Pc) : Cpus :=
  { s with pc := setAt s.pc c pc }

/-- `release(&kmems[i].lock)`. -/
def release (s : Cpus) (i : Cpu) : Cpus :=
  { s with owner := setAt s.owner i none }

/-- `acquire(&kmems[i].lock)` by CPU `c`, which then moves on to `pc`: it spins while the
lock is held.  (`acquire` panics on a lock the CPU holds itself; no call does that.) -/
def acquire (s : Cpus) (c i : Cpu) (pc : Pc) : Option Cpus :=
  match s.owner i with
  | none => some ({ s with owner := setAt s.owner i (some c) }.goto c pc)
  | some _ => none

@[simp] theorem goto_mem (s : Cpus) (c : Cpu) (pc : Pc) : (s.goto c pc).mem = s.mem := rfl

@[simp] theorem goto_owner (s : Cpus) (c : Cpu) (pc : Pc) : (s.goto c pc).owner = s.owner := rfl

@[simp] theorem goto_pc (s : Cpus) (c : Cpu) (pc : Pc) : (s.goto c pc).pc = setAt s.pc c pc := rfl

@[simp] theorem release_mem (s : Cpus) (i : Cpu) : (s.release i).mem = s.mem := rfl

@[simp] theorem release_owner (s : Cpus) (i : Cpu) : (s.release i).owner = setAt s.owner i none := rfl

@[simp] theorem release_pc (s : Cpus) (i : Cpu) : (s.release i).pc = s.pc := rfl

end Cpus

/-- CPU `c` runs from where it is to its next lock operation, or to the end of its
call; `none` when it is idle or spins in `acquire`. -/
def advance (s : Cpus) (c : Cpu) : Option Cpus :=
  match s.pc c with
  | .idle => none
  | .kfreeAcquire pa => s.acquire c c (.kfreePush pa)
  | .kfreePush pa =>
    some (({ s with mem := ⟨setAt s.mem.next pa (s.mem.freelist c), setAt s.mem.freelist c pa⟩ }.release c).goto
      c .idle)
  | .kallocAcquire => s.acquire c c .kallocTake
  | .kallocTake =>
    if s.mem.freelist c ≠ 0 then some ({ s with mem := s.mem.pop c }.goto c (.kallocRelease (s.mem.freelist c)))
    else some (s.goto c (.stealTest 0))
  | .stealTest i =>
    if h : i < 3 then
      if s.owner ⟨i, h⟩ = some c then some (s.goto c (.stealTest (i + 1)))
      else some (s.goto c (.stealAcquire ⟨i, h⟩))
    else some (s.goto c (.kallocRelease 0))
  | .stealAcquire i => s.acquire c i (.stealTake i)
  | .stealTake i =>
    if s.mem.freelist i ≠ 0 then
      some (({ s with mem := s.mem.pop i }.release i).goto c (.kallocRelease (s.mem.freelist i)))
    else some ((s.release i).goto c (.stealTest (i.val + 1)))
  | .kallocRelease r =>
    some (({ s with mem := if r ≠ 0 then { s.mem with next := setAt s.mem.next r junk5 } else s.mem }.release
      c).goto c .idle)

/-- What the scheduler does next: CPU `c` calls `kalloc`, calls `kfree(pa)` with a page
that passes `kfree`'s check (one that fails it panics the kernel), or runs on. -/
inductive Move where
  | kalloc (c : Cpu)
  | kfree (c : Cpu) (pa : Nat)
  | run (c : Cpu)
  deriving DecidableEq, Repr

/-- The CPU a move runs. -/
def Move.cpu : Move → Cpu
  | .kalloc c => c
  | .kfree c _ => c
  | .run c => c

/-- The state after a move, if the CPU can make it. -/
def Move.apply (ly : Layout) : Move → Cpus → Option Cpus
  | .kalloc c, s => if s.pc c = .idle then some (s.goto c .kallocAcquire) else none
  | .kfree c pa, s =>
    if s.pc c = .idle ∧ ¬(pa % PGSIZE ≠ 0 ∨ pa < ly.kend ∨ pa ≥ ly.PHYSTOP) then some (s.goto c (.kfreeAcquire pa))
    else none
  | .run c, s => advance s c

/-- One step of one CPU. -/
def CpuStep (ly : Layout) (s s' : Cpus) : Prop :=
  ∃ move : Move, move.apply ly s = some s'

/-- The moves of a schedule in order, while each can be made. -/
def runMoves (ly : Layout) : List Move → Cpus → Option Cpus
  | [], s => some s
  | move :: moves, s => (move.apply ly s).bind (runMoves ly moves)

theorem reach_of_runMoves {ly : Layout} : ∀ {moves : List Move} {s s' : Cpus},
    runMoves ly moves s = some s' → Relation.ReflTransGen (CpuStep ly) s s'
  | [], _, _, run => by cases run; exact .refl
  | move :: moves, s, s', run => by
    cases first : move.apply ly s with
    | none => simp [runMoves, first] at run
    | some s1 =>
      simp only [runMoves, first, Option.bind_some] at run
      exact .head ⟨move, first⟩ (reach_of_runMoves run)

/-! ## Who holds which lock -/

/-- Whether CPU `c` at `pc` holds lock `j`: its own lock from the `acquire` of its call
to the `release`, and lock `i` in `steal` from its `acquire` to its `release`. -/
def Pc.holds (c : Cpu) : Pc → Cpu → Bool
  | .idle, _ => false
  | .kfreeAcquire _, _ => false
  | .kallocAcquire, _ => false
  | .stealTake i, j => decide (j = c) || decide (j = i)
  | _, j => decide (j = c)

/-- `steal` never waits for, nor takes from, the CPU's own lock. -/
def Pc.Sane (c : Cpu) (pc : Pc) : Prop :=
  pc ≠ .stealAcquire c ∧ pc ≠ .stealTake c

/-- Each lock is held by the CPU whose point in its call holds it. -/
structure Locked (s : Cpus) : Prop where
  owned : ∀ i c, s.owner i = some c ↔ (s.pc c).holds c i = true
  sane : ∀ c, (s.pc c).Sane c

/-- What one step of CPU `e` does to the locks: nothing, an `acquire` of a free lock,
or the `release` of a lock it holds; no other CPU moves. -/
inductive Moved (e : Cpu) (s s' : Cpus) : Prop
  | keep : s'.owner = s.owner → (∀ j, (s'.pc e).holds e j = (s.pc e).holds e j) →
      s'.pc = setAt s.pc e (s'.pc e) → Moved e s s'
  | acquire (i : Cpu) : s.owner i = none → s'.owner = setAt s.owner i (some e) →
      (∀ j, (s'.pc e).holds e j = ((s.pc e).holds e j || decide (j = i))) →
      s'.pc = setAt s.pc e (s'.pc e) → Moved e s s'
  | release (i : Cpu) : (s.pc e).holds e i = true → s'.owner = setAt s.owner i none →
      (∀ j, (s'.pc e).holds e j = ((s.pc e).holds e j && !decide (j = i))) →
      s'.pc = setAt s.pc e (s'.pc e) → Moved e s s'

section Moves

variable {ly : Layout} {s s' : Cpus}

theorem Moved.pc_ne {e : Cpu} (moved : Moved e s s') {c : Cpu} (other : c ≠ e) : s'.pc c = s.pc c := by
  cases moved <;> rename_i pc <;> rw [pc, setAt_ne _ _ _ other]

/-- The locks of other CPUs stay with them. -/
theorem Moved.owner_of_ne {e : Cpu} (locked : Locked s) (moved : Moved e s s') {i d : Cpu}
    (held : s.owner i = some d) (other : d ≠ e) : s'.owner i = some d := by
  cases moved with
  | keep owner _ _ => rw [owner, held]
  | acquire j free owner _ _ =>
    have : i ≠ j := fun same => by rw [same, free] at held; cases held
    rw [owner, setAt_ne _ _ _ this, held]
  | release j mine owner _ _ =>
    have : i ≠ j := fun same => by
      rw [same, (locked.owned j e).2 mine] at held
      exact other (Option.some.inj held).symm
    rw [owner, setAt_ne _ _ _ this, held]

/-- A step that moves only CPU `e`, to a point that does not wait for its own lock,
keeps every lock with the CPU that holds it. -/
theorem Moved.locked {e : Cpu} (locked : Locked s) (moved : Moved e s s') (sane : (s'.pc e).Sane e) : Locked s' := by
  refine ⟨fun i c => ?_, fun c => ?_⟩
  · by_cases same : c = e
    · subst same
      cases moved with
      | keep owner holds _ => rw [owner, holds, locked.owned]
      | acquire j free owner holds _ =>
        rw [owner, holds, setAt_apply]
        by_cases at_j : i = j
        · simp [at_j]
        · simp [at_j, locked.owned]
      | release j mine owner holds _ =>
        rw [owner, holds, setAt_apply]
        by_cases at_j : i = j
        · simp [at_j]
        · simp [at_j, locked.owned]
    · rw [moved.pc_ne same]
      cases moved with
      | keep owner _ _ => rw [owner, locked.owned]
      | acquire j free owner _ _ =>
        rw [owner, setAt_apply]
        by_cases at_j : i = j
        · subst at_j
          have := (locked.owned i c).not.1 (by rw [free]; exact fun none => nomatch none)
          rw [if_pos rfl]
          exact ⟨fun eq => absurd (Option.some.inj eq).symm same, fun hold => absurd hold this⟩
        · rw [if_neg at_j, locked.owned]
      | release j mine owner _ _ =>
        rw [owner, setAt_apply]
        by_cases at_j : i = j
        · subst at_j
          have held := (locked.owned i e).2 mine
          have : (s.pc c).holds c i = false := by
            cases hold : (s.pc c).holds c i
            · rfl
            · have := (locked.owned i c).2 hold
              rw [held] at this
              exact absurd (Option.some.inj this).symm same
          simp [this]
        · rw [if_neg at_j, locked.owned]
  · by_cases same : c = e
    · exact same ▸ sane
    · rw [moved.pc_ne same]
      exact locked.sane c

/-- A step that moves CPU `e` on without a lock operation. -/
theorem Moved.goto {e : Cpu} {m : Kmems} {pc : Pc} (holds : ∀ j, pc.holds e j = (s.pc e).holds e j) :
    Moved e s ({ s with mem := m }.goto e pc) :=
  .keep rfl (by simpa using holds) (by simp)

/-- A step of CPU `e` that acquires the free lock `i`. -/
theorem Moved.acquire' {e i : Cpu} {pc : Pc} (free : s.owner i = none)
    (holds : ∀ j, pc.holds e j = ((s.pc e).holds e j || decide (j = i))) :
    Moved e s ({ s with owner := setAt s.owner i (some e) }.goto e pc) :=
  .acquire i free rfl (by simpa using holds) (by simp)

/-- A step of CPU `e` that releases the lock `i` it holds. -/
theorem Moved.release' {e i : Cpu} {m : Kmems} {pc : Pc} (mine : (s.pc e).holds e i = true)
    (holds : ∀ j, pc.holds e j = ((s.pc e).holds e j && !decide (j = i))) :
    Moved e s (({ s with mem := m }.release i).goto e pc) :=
  .release i mine rfl (by simpa using holds) (by simp)

/-- An `acquire` that returns takes the free lock `i` and moves CPU `e` to `pc`. -/
theorem Moved.of_acquire {e i : Cpu} {pc : Pc} (holds : ∀ j, pc.holds e j = ((s.pc e).holds e j || decide (j = i)))
    (sane : pc.Sane e) (apply : s.acquire e i pc = some s') : Moved e s s' ∧ (s'.pc e).Sane e := by
  unfold Cpus.acquire at apply
  split at apply
  · rename_i free
    obtain rfl := (Option.some.inj apply).symm
    exact ⟨Moved.acquire' free holds, by simpa using sane⟩
  · cases apply

/-- What a move can do: only its CPU moves, and it acquires a free lock, releases one
it holds, or neither; it never reaches a point that waits for its own lock. -/
theorem Move.moved (locked : Locked s) {move : Move} (apply : move.apply ly s = some s') :
    Moved move.cpu s s' ∧ (s'.pc move.cpu).Sane move.cpu := by
  cases move with
  | kalloc c =>
    simp only [Move.apply] at apply
    split at apply
    · rename_i idle
      obtain rfl := (Option.some.inj apply).symm
      exact ⟨Moved.goto (m := s.mem) fun j => by simp [Move.cpu, idle, Pc.holds], by simp [Move.cpu, Pc.Sane]⟩
    · cases apply
  | kfree c pa =>
    simp only [Move.apply] at apply
    split at apply
    · rename_i start
      obtain rfl := (Option.some.inj apply).symm
      exact ⟨Moved.goto (m := s.mem) fun j => by simp [Move.cpu, start.1, Pc.holds], by simp [Move.cpu, Pc.Sane]⟩
    · cases apply
  | run c =>
    have sane := locked.sane c
    simp only [Move.apply, advance, Move.cpu] at apply ⊢
    split at apply
    · cases apply
    · rename_i pa at_pc
      exact Moved.of_acquire (fun j => by simp [at_pc, Pc.holds]) (by simp [Pc.Sane]) apply
    · rename_i pa at_pc
      obtain rfl := (Option.some.inj apply).symm
      exact ⟨Moved.release' (by simp [at_pc, Pc.holds]) fun j => by simp [at_pc, Pc.holds], by simp [Pc.Sane]⟩
    · rename_i at_pc
      exact Moved.of_acquire (fun j => by simp [at_pc, Pc.holds]) (by simp [Pc.Sane]) apply
    · rename_i at_pc
      split at apply <;> obtain rfl := (Option.some.inj apply).symm
      · exact ⟨Moved.goto fun j => by simp [at_pc, Pc.holds], by simp [Pc.Sane]⟩
      · exact ⟨Moved.goto (m := s.mem) fun j => by simp [at_pc, Pc.holds], by simp [Pc.Sane]⟩
    · rename_i i at_pc
      split at apply
      · rename_i small
        split at apply <;> obtain rfl := (Option.some.inj apply).symm
        · exact ⟨Moved.goto (m := s.mem) fun j => by simp [at_pc, Pc.holds], by simp [Pc.Sane]⟩
        · rename_i notMine
          have own : (⟨i, small⟩ : Cpu) ≠ c := fun same => notMine (by
            rw [same]
            exact (locked.owned c c).2 (by simp [at_pc, Pc.holds]))
          exact ⟨Moved.goto (m := s.mem) fun j => by simp [at_pc, Pc.holds], by simp [Pc.Sane, own]⟩
      · obtain rfl := (Option.some.inj apply).symm
        exact ⟨Moved.goto (m := s.mem) fun j => by simp [at_pc, Pc.holds], by simp [Pc.Sane]⟩
    · rename_i i at_pc
      have other : i ≠ c := fun same => sane.1 (by rw [at_pc, same])
      exact Moved.of_acquire (fun j => by simp [at_pc, Pc.holds]) (by simp [Pc.Sane, other]) apply
    · rename_i i at_pc
      have other : i ≠ c := fun same => sane.2 (by rw [at_pc, same])
      have holds : ∀ j, Pc.holds c (.kallocRelease 0) j = ((s.pc c).holds c j && !decide (j = i)) := fun j => by
        by_cases at_i : j = i
        · subst at_i
          simp [at_pc, Pc.holds, other]
        · simp [at_pc, Pc.holds, at_i]
      split at apply <;> obtain rfl := (Option.some.inj apply).symm <;>
        exact ⟨Moved.release' (by simp [at_pc, Pc.holds]) fun j => by simpa [Pc.holds] using holds j,
          by simp [Pc.Sane]⟩
    · rename_i r at_pc
      obtain rfl := (Option.some.inj apply).symm
      exact ⟨Moved.release' (by simp [at_pc, Pc.holds]) fun j => by simp [at_pc, Pc.holds], by simp [Pc.Sane]⟩

/-- Every step keeps each lock with the CPU whose point in its call holds it. -/
theorem Locked.step (locked : Locked s) (step : CpuStep ly s s') : Locked s' :=
  let ⟨_, apply⟩ := step
  let ⟨moved, sane⟩ := Move.moved locked apply
  moved.locked locked sane

theorem Locked.start (m : Kmems) : Locked (Cpus.start m) where
  owned _ _ := by simp [Cpus.start, Pc.holds]
  sane _ := by simp [Cpus.start, Pc.Sane]

theorem Locked.reach (locked : Locked s) (reach : Relation.ReflTransGen (CpuStep ly) s s') : Locked s' := by
  induction reach with
  | refl => exact locked
  | tail _ step ih => exact ih.step step

end Moves


/-! ## Deadlock -/

/-- The lock CPU `c` spins on at `pc`, when `pc` is an `acquire`. -/
def Pc.waitsOn (c : Cpu) : Pc → Option Cpu
  | .kfreeAcquire _ => some c
  | .kallocAcquire => some c
  | .stealAcquire i => some i
  | _ => none

/-- Every CPU of the non-empty set `S` spins in `acquire` on a lock that another CPU of
`S` holds. -/
def Deadlock (owner : Cpu → Option Cpu) (pc : Cpu → Pc) (S : Finset Cpu) : Prop :=
  S.Nonempty ∧ ∀ c ∈ S, ∃ i d, (pc c).waitsOn c = some i ∧ owner i = some d ∧ d ≠ c ∧ d ∈ S

instance (owner : Cpu → Option Cpu) (pc : Cpu → Pc) (S : Finset Cpu) : Decidable (Deadlock owner pc S) := by
  unfold Deadlock
  infer_instance

section Deadlock

variable {ly : Layout} {s s' : Cpus} {S : Finset Cpu}

/-- A CPU that spins on a held lock can make no move. -/
theorem Move.apply_of_waits {move : Move} {i d : Cpu} (waits : (s.pc move.cpu).waitsOn move.cpu = some i)
    (held : s.owner i = some d) : move.apply ly s = none := by
  cases move with
  | kalloc c =>
    simp only [Move.cpu] at waits
    cases at_pc : s.pc c <;> simp_all [Move.apply, Pc.waitsOn]
  | kfree c pa =>
    simp only [Move.cpu] at waits
    cases at_pc : s.pc c <;> simp_all [Move.apply, Pc.waitsOn]
  | run c =>
    simp only [Move.cpu] at waits
    simp only [Move.apply, advance]
    cases at_pc : s.pc c <;> simp only [at_pc, Pc.waitsOn, reduceCtorEq] at waits <;>
      cases waits <;> simp [Cpus.acquire, held]

/-- A deadlocked set stays deadlocked: its CPUs cannot move, and the locks they wait on
stay with the CPUs of the set that hold them. -/
theorem Deadlock.step (locked : Locked s) (dead : Deadlock s.owner s.pc S) (step : CpuStep ly s s') :
    Deadlock s'.owner s'.pc S := by
  obtain ⟨move, apply⟩ := step
  have moved := (Move.moved locked apply).1
  have outside : move.cpu ∉ S := fun mem => by
    obtain ⟨i, d, waits, held, -⟩ := dead.2 _ mem
    rw [Move.apply_of_waits waits held] at apply
    cases apply
  refine ⟨dead.1, fun c mem => ?_⟩
  obtain ⟨i, d, waits, held, other, inS⟩ := dead.2 c mem
  have notMover : c ≠ move.cpu := fun same => outside (same ▸ mem)
  have holderNotMover : d ≠ move.cpu := fun same => outside (same ▸ inS)
  exact ⟨i, d, by rw [moved.pc_ne notMover]; exact waits, moved.owner_of_ne locked held holderNotMover, other, inS⟩

theorem Deadlock.reach (locked : Locked s) (dead : Deadlock s.owner s.pc S)
    (reach : Relation.ReflTransGen (CpuStep ly) s s') : Deadlock s'.owner s'.pc S := by
  induction reach with
  | refl => exact dead
  | tail first step ih => exact ih.step (locked.reach first) step

/-- With the lists of CPUs `0` and `1` empty, both call `kalloc`, take their own lock and
enter `steal`: CPU `0` skips its own lock and waits for lock `1`, CPU `1` waits for
lock `0`. -/
theorem deadlock_of_empty (m : Kmems) (empty0 : m.freelist 0 = 0) (empty1 : m.freelist 1 = 0) :
    ∃ s, Relation.ReflTransGen (CpuStep ly) (Cpus.start m) s ∧ Deadlock s.owner s.pc {0, 1} := by
  -- With the two heads written as stores of `0`, the schedule evaluates by reduction.
  have drained : m = ⟨m.next, setAt (setAt m.freelist 0 0) 1 0⟩ := by
    cases m
    simp only [Kmems.mk.injEq, true_and]
    funext c
    by_cases at1 : c = 1
    · subst at1
      simpa using empty1
    · by_cases at0 : c = 0
      · subst at0
        simpa using empty0
      · simp [setAt_ne _ _ _ at1, setAt_ne _ _ _ at0]
  rw [drained]
  let owner : Cpu → Option Cpu := setAt (setAt (fun _ => none) 0 (some 0)) 1 (some 1)
  let pc : Cpu → Pc := setAt (setAt (setAt (setAt (setAt (setAt (setAt (setAt (setAt (fun _ => .idle)
    0 .kallocAcquire) 1 .kallocAcquire) 0 .kallocTake) 1 .kallocTake) 0 (.stealTest 0)) 1 (.stealTest 0))
    0 (.stealTest 1)) 0 (.stealAcquire 1)) 1 (.stealAcquire 0)
  have run : runMoves ly [.kalloc 0, .kalloc 1, .run 0, .run 1, .run 0, .run 1, .run 0, .run 0, .run 1]
      (Cpus.start ⟨m.next, setAt (setAt m.freelist 0 0) 1 0⟩) =
        some ⟨⟨m.next, setAt (setAt m.freelist 0 0) 1 0⟩, owner, pc⟩ :=
    rfl
  exact ⟨_, reach_of_runMoves run, show Deadlock owner pc {0, 1} by decide⟩

end Deadlock

/-! ## Calls run alone -/

section Solo

variable {ly : Layout}

/-- The locks when only CPU `c` holds its own. -/
def ownLock (c : Cpu) : Cpu → Option Cpu :=
  setAt (fun _ => none) c (some c)

/-- `kfree` run alone is the call of `Kalloc`. -/
theorem kfree_solo {m m' : Kmems} {c : Cpu} {pa : Nat} (freed : kfree ly m c pa = .ok m') :
    runMoves ly [.kfree c pa, .run c, .run c] (Cpus.start m) = some (Cpus.start m') := by
  unfold kfree at freed
  split at freed
  · cases freed
  rename_i valid
  obtain rfl := (Except.ok.inj freed).symm
  simp [runMoves, Move.apply, advance, Cpus.acquire, Cpus.start, Cpus.goto, Cpus.release, valid]

/-- The loop of `steal` run alone, from `stealTest i` with only the CPU's own lock held,
computes the loop of `Kalloc`. -/
theorem steal_solo (c : Cpu) : ∀ (k i : Nat) (m : Kmems), i + k = 3 →
    Relation.ReflTransGen (CpuStep ly) ⟨m, ownLock c, setAt (fun _ => .idle) c (.stealTest i)⟩
      ⟨(stealLoop m c k i).2, ownLock c, setAt (fun _ => .idle) c (.kallocRelease (stealLoop m c k i).1)⟩
  | 0, i, m, sum => by
    obtain rfl : i = 3 := by omega
    exact .single ⟨.run c, by simp [Move.apply, advance, stealLoop, Cpus.goto]⟩
  | k + 1, i, m, sum => by
    have small : i < 3 := by omega
    have rest := steal_solo c k (i + 1) m (by omega)
    by_cases own : (⟨i, small⟩ : Cpu) = c
    · have step : advance ⟨m, ownLock c, setAt (fun _ => .idle) c (.stealTest i)⟩ c =
          some ⟨m, ownLock c, setAt (fun _ => .idle) c (.stealTest (i + 1))⟩ := by
        simp [advance, small, own, ownLock, Cpus.goto]
      simp only [stealLoop, dif_pos small, if_pos own]
      exact .head ⟨.run c, step⟩ rest
    · have free : ownLock c ⟨i, small⟩ = none := by simp [ownLock, setAt_ne _ _ _ own]
      have enter : runMoves ly [.run c, .run c] ⟨m, ownLock c, setAt (fun _ => .idle) c (.stealTest i)⟩ =
          some ⟨m, setAt (ownLock c) ⟨i, small⟩ (some c), setAt (fun _ => .idle) c (.stealTake ⟨i, small⟩)⟩ := by
        simp [runMoves, Move.apply, advance, small, free, Cpus.acquire, Cpus.goto]
      have released : setAt (setAt (ownLock c) ⟨i, small⟩ (some c)) ⟨i, small⟩ none = ownLock c := by
        rw [setAt_setAt_same, setAt_of_eq _ _ free]
      refine (reach_of_runMoves enter).trans ?_
      simp only [stealLoop, dif_pos small, if_neg own]
      by_cases nonempty : m.freelist ⟨i, small⟩ ≠ 0
      · simp only [if_pos nonempty]
        exact .single ⟨.run c, by simp [Move.apply, advance, nonempty, Cpus.goto, Cpus.release, released]⟩
      · simp only [if_neg nonempty]
        exact .head ⟨.run c, by simp [Move.apply, advance, nonempty, Cpus.goto, Cpus.release, released]⟩ rest

/-- `kalloc` run alone is the call of `Kalloc`. -/
theorem kalloc_solo (m : Kmems) (c : Cpu) :
    Relation.ReflTransGen (CpuStep ly) (Cpus.start m) (Cpus.start (kalloc m c).2) := by
  have release : ∀ (r : Nat) (m' : Kmems),
      advance ⟨m', ownLock c, setAt (fun _ => .idle) c (.kallocRelease r)⟩ c =
        some (Cpus.start (if r ≠ 0 then { m' with next := setAt m'.next r junk5 } else m')) := fun r m' => by
    simp [advance, Cpus.goto, Cpus.release, Cpus.start, ownLock]
  have finish : ∀ (r : Nat) (m' : Kmems),
      (if r ≠ 0 then { m' with next := setAt m'.next r junk5 } else m') =
        (if r ≠ 0 then (r, { m' with next := setAt m'.next r junk5 }) else (r, m')).2 := fun r m' => by
    split <;> rfl
  by_cases own : m.freelist c ≠ 0
  · have enter : runMoves ly [.kalloc c, .run c, .run c] (Cpus.start m) =
        some ⟨m.pop c, ownLock c, setAt (fun _ => .idle) c (.kallocRelease (m.freelist c))⟩ := by
      simp [runMoves, Move.apply, advance, Cpus.acquire, Cpus.goto, Cpus.start, own, ownLock]
    refine (reach_of_runMoves enter).tail ⟨.run c, ?_⟩
    rw [Move.apply, release, finish]
    simp only [kalloc, if_pos own]
  · have enter : runMoves ly [.kalloc c, .run c, .run c] (Cpus.start m) =
        some ⟨m, ownLock c, setAt (fun _ => .idle) c (.stealTest 0)⟩ := by
      simp [runMoves, Move.apply, advance, Cpus.acquire, Cpus.goto, Cpus.start, own, ownLock]
    refine ((reach_of_runMoves enter).trans (steal_solo c 3 0 m rfl)).tail ⟨.run c, ?_⟩
    rw [Move.apply, release, finish]
    simp only [kalloc, if_neg own]
    rfl

/-- Every run of `Kalloc`'s calls, one at a time, is an interleaving of the CPUs'
steps. -/
theorem KRun.interleaved {m : Kmems} {F A : Multiset Nat} {O : Finset Nat} (run : KRun ly m F A O) :
    ∃ next, Relation.ReflTransGen (CpuStep ly) (Cpus.start (Kmems.zeroed next)) (Cpus.start m) := by
  induction run with
  | zeroed next => exact ⟨next, .refl⟩
  | kfree hart pa _ _ freed ih =>
    obtain ⟨next, reach⟩ := ih
    exact ⟨next, reach.trans (reach_of_runMoves (kfree_solo freed))⟩
  | kalloc hart _ _ ih =>
    obtain ⟨next, reach⟩ := ih
    exact ⟨next, reach.trans (kalloc_solo _ hart)⟩
  | kallocNone hart _ _ ih =>
    obtain ⟨next, reach⟩ := ih
    exact ⟨next, reach.trans (kalloc_solo _ hart)⟩

end Solo

/-- Handing out every free page, one `kalloc` on CPU `0` after another, empties every
list. -/
theorem drain {ly : Layout} : ∀ (n : Nat) {m : Kmems} {L : Cpu → List Nat} {F A : Multiset Nat} {O : Finset Nat},
    KInv m L F A O → Multiset.card (freePages L) = n →
      ∃ m', (∀ c, m'.freelist c = 0) ∧ Relation.ReflTransGen (CpuStep ly) (Cpus.start m) (Cpus.start m')
  | 0, m, L, _, _, _, inv, zero => by
    refine ⟨m, fun c => ?_, .refl⟩
    have empty : L c = [] := List.eq_nil_iff_forall_not_mem.2 fun p mem => by
      have := mem_freePages.2 ⟨c, mem⟩
      rw [Multiset.card_eq_zero.1 zero] at this
      exact Multiset.not_mem_zero p this
    exact ((inv.chains c).eq_nil_iff).1 empty
  | n + 1, m, L, _, _, _, inv, count => by
    rcases kalloc_cases m 0 with ⟨-, empty⟩ | ⟨c, nonempty, -, run⟩
    · exfalso
      obtain ⟨p, mem⟩ := Multiset.card_pos_iff_exists_mem.1 (show 0 < Multiset.card (freePages L) by omega)
      obtain ⟨c, mem⟩ := mem_freePages.1 mem
      rw [((inv.chains c).eq_nil_iff).2 (empty c)] at mem
      cases mem
    · obtain ⟨t, head⟩ : ∃ t, L c = m.freelist c :: t := by
        have chain := inv.chains c
        cases list : L c with
        | nil => rw [list] at chain; exact absurd chain nonempty
        | cons r t => rw [list] at chain; exact ⟨t, by rw [chain.1]⟩
      have smaller : Multiset.card (freePages (setAt L c t)) = n := by
        rw [freePages_pop head, Multiset.card_cons] at count
        omega
      obtain ⟨m', empty, reach⟩ := drain n (inv.take head) smaller
      refine ⟨m', empty, (kalloc_solo m 0).trans ?_⟩
      rwa [run]

/-- `steal` waits for the other CPUs' locks while its caller holds its own: after
`kinit`, once every page is handed out, CPUs `0` and `1` both call `kalloc`, each takes
its own lock and waits in `steal` for the other's, and they wait forever. -/
theorem kalloc_steal_deadlock (ly : Layout) (next : Nat → Nat) (hart : Cpu) :
    ∃ m, kinit ly next hart = .ok m ∧ ∃ s, Relation.ReflTransGen (CpuStep ly) (Cpus.start m) s ∧
      Deadlock s.owner s.pc {0, 1} ∧
      ∀ s', Relation.ReflTransGen (CpuStep ly) s s' → Deadlock s'.owner s'.pc {0, 1} := by
  obtain ⟨m, F, init, run⟩ := kinit_run ly next hart
  obtain ⟨L, inv⟩ := run.inv
  obtain ⟨m', empty, drained⟩ := @drain ly _ _ _ _ _ _ inv rfl
  obtain ⟨s, reach, dead⟩ := @deadlock_of_empty ly m' (empty 0) (empty 1)
  exact ⟨m, init, s, drained.trans reach, dead,
    fun s' later => dead.reach ((Locked.start m).reach (drained.trans reach)) later⟩

end Xv6Fs
