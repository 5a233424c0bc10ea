import Xv6Fs.Disk

/-!
# The tokenizer of `nsh`

`getcmd` clears `main`'s `MAXLINE`-byte buffer and reads a line into it with `gets`, so
the line, with its `\n` when there is one, is followed by NULs to the end of the
buffer.  `setargs` splits the line in place: it skips whitespace, records the start of
a word in `argv`, scans to the next whitespace byte and overwrites it with a NUL.

Reading or writing `cmd[j]` past the buffer is a fault at `j`, as is a store into
`argv` past its `MAXARGS` entries.  `strchr` is the user library's, which stops at the
NUL of the string it searches before comparing it: NUL is not whitespace, so the scan
of a word runs on through the NUL padding, and the scan of whitespace stops there.
-/

namespace Xv6Fs

/-- `MAXARGS`, the entries of `main`'s `argv`. -/
def MAXARGS : Nat := 10

/-- `MAXLINE`, the size of `main`'s buffer. -/
def MAXLINE : Nat := 100

/-- `whitespace[] = " \t\r\n\v"`, without its NUL. -/
def whitespace : List UInt8 := [32, 9, 13, 10, 11]

/-- Modelled from the spec: `strchr(s, c)` of the user library (`ulib.c` is not among
the sources), for a string `s` without NUL bytes.  Its loop
`for(; *s; s++) if(*s == c) return s;` stops at the NUL of `s` before comparing it, so
it finds `c` only among the bytes of `s`. -/
def strchr (s : List UInt8) (c : UInt8) : Bool :=
  s.contains c

/-- `main`'s buffer `buf[MAXLINE]`. -/
structure Buf where
  bytes : List UInt8
  length_eq : bytes.length = MAXLINE

/-- An access outside an array: `cmd[j]` past the buffer, or `argv[i]` past its
entries. -/
inductive Fault where
  | cmd (j : Nat)
  | argv (i : Nat)
  deriving DecidableEq, Repr

/-- `cmd[j]`. -/
def Buf.read (buf : Buf) (j : Nat) : Except Fault UInt8 :=
  if j < MAXLINE then .ok (buf.bytes.getD j 0) else .error (.cmd j)

/-- `cmd[j] = c`. -/
def Buf.write (buf : Buf) (j : Nat) (c : UInt8) : Except Fault Buf :=
  if j < MAXLINE then .ok ⟨buf.bytes.set j c, by rw [List.length_set, buf.length_eq]⟩ else .error (.cmd j)

/-- Where an entry of `argv` points: `&args[k][0]`, `cmd + j`, or `0`. -/
inductive Arg where
  | args (k : Nat)
  | cmd (j : Nat)
  | null
  deriving DecidableEq, Repr

/-- `argv[i] = a`. -/
def storeArg (argv : Nat → Arg) (i : Nat) (a : Arg) : Except Fault (Nat → Arg) :=
  if i < MAXARGS then .ok (setAt argv i a) else .error (.argv i)

/-- `while (strchr(whitespace, cmd[j])) j++;`.  Each pass reads a further byte, so
`MAXLINE + 1` passes reach past the buffer. -/
def skipSpace (buf : Buf) : (fuel j : Nat) → Except Fault Nat
  | 0, j => .error (.cmd j)
  | fuel + 1, j => do
    let c ← buf.read j
    if strchr whitespace c then skipSpace buf fuel (j + 1) else pure j

/-- `while (strchr(whitespace, cmd[j]) == 0) j++;`. -/
def skipWord (buf : Buf) : (fuel j : Nat) → Except Fault Nat
  | 0, j => .error (.cmd j)
  | fuel + 1, j => do
    let c ← buf.read j
    if strchr whitespace c then pure j else skipWord buf fuel (j + 1)

/-- The loop `for (; cmd[j] != '\n' && cmd[j] != '\0'; j++)` of `setargs`, with `i`
the words recorded so far. -/
def setargsLoop : (fuel : Nat) → Buf → (Nat → Arg) → (i j : Nat) → Except Fault (Buf × (Nat → Arg) × Nat)
  | 0, _, _, _, j => .error (.cmd j)
  | fuel + 1, buf, argv, i, j => do
    let c ← buf.read j
    if c ≠ 10 ∧ c ≠ 0 then do
      let j ← skipSpace buf (MAXLINE + 1) j
      let argv ← storeArg argv i (.cmd j)
      let j ← skipWord buf (MAXLINE + 1) j
      let buf ← buf.write j 0
      setargsLoop fuel buf argv (i + 1) (j + 1)
    else pure (buf, argv, i)

/-- `setargs(cmd, argv, &argc)`: the buffer, `argv` and `argc` afterwards.  The first
loop points every entry at `args`; the entries past `MAXARGS` are outside the array,
and a store to them faults. -/
def setargs (buf : Buf) : Except Fault (Buf × (Nat → Arg) × Nat) := do
  let (buf, argv, argc) ← setargsLoop (MAXLINE + 1) buf (fun k => .args k) 0 0
  let argv ← storeArg argv argc .null
  pure (buf, argv, argc)

/-! ## The scans -/

section Scans

variable {buf : Buf}

/-- The byte at `j` of the buffer is whitespace to `strchr`. -/
def Buf.IsSpace (buf : Buf) (j : Nat) : Prop :=
  strchr whitespace (buf.bytes.getD j 0) = true

theorem Buf.read_of_lt {j : Nat} (small : j < MAXLINE) : buf.read j = .ok (buf.bytes.getD j 0) :=
  if_pos small

/-- The scan of whitespace stops at the first byte that is not whitespace, the NUL
padding included. -/
theorem skipSpace_stop : ∀ {fuel j k : Nat}, j ≤ k → k < MAXLINE → k < j + fuel →
    (∀ l, j ≤ l → l < k → buf.IsSpace l) → ¬buf.IsSpace k → skipSpace buf fuel j = .ok k
  | 0, _, _, _, _, enough, _, _ => by omega
  | fuel + 1, j, k, lo, small, enough, spaces, stop => by
    unfold skipSpace
    rw [Buf.read_of_lt (by omega)]
    show (if strchr whitespace (buf.bytes.getD j 0) = true then skipSpace buf fuel (j + 1) else pure j) = _
    by_cases here : j = k
    · subst here
      rw [if_neg (show ¬strchr whitespace (buf.bytes.getD j 0) = true from stop)]
      rfl
    · rw [if_pos (show strchr whitespace (buf.bytes.getD j 0) = true from spaces j le_rfl (by omega))]
      exact skipSpace_stop (by omega) small (by omega) (fun l lo' hi => spaces l (by omega) hi) stop

/-- The scan of a word over bytes none of which is whitespace runs past the buffer. -/
theorem skipWord_runs_off : ∀ {fuel j : Nat}, j ≤ MAXLINE → MAXLINE < j + fuel →
    (∀ l, j ≤ l → l < MAXLINE → ¬buf.IsSpace l) → skipWord buf fuel j = .error (.cmd MAXLINE)
  | 0, _, _, enough, _ => by omega
  | fuel + 1, j, le, enough, word => by
    unfold skipWord
    by_cases past : j = MAXLINE
    · subst past
      rfl
    · rw [Buf.read_of_lt (by omega)]
      show (if strchr whitespace (buf.bytes.getD j 0) = true then pure j else skipWord buf fuel (j + 1)) = _
      rw [if_neg (show ¬strchr whitespace (buf.bytes.getD j 0) = true from word j le_rfl (by omega))]
      exact skipWord_runs_off (by omega) (by omega) fun l lo hi => word l (by omega) hi

/-- Where the loop of `setargs` meets a blank other than `\n` that only whitespace and
then the NUL padding follow, it records an empty word at the first NUL and scans that
word past the buffer. -/
theorem setargsLoop_trailing_blanks {fuel i j e : Nat} {argv : Nat → Arg} (room : i < MAXARGS)
    (lo : j < e) (hi : e < MAXLINE) (blank : buf.IsSpace j) (notNewline : buf.bytes.getD j 0 ≠ 10)
    (blanks : ∀ l, j ≤ l → l < e → buf.IsSpace l) (padding : ∀ l, e ≤ l → l < MAXLINE → buf.bytes.getD l 0 = 0) :
    setargsLoop (fuel + 1) buf argv i j = .error (.cmd MAXLINE) := by
  have notSpace : ∀ l, e ≤ l → l < MAXLINE → ¬buf.IsSpace l := fun l lo' hi' => by
    unfold Buf.IsSpace
    rw [padding l lo' hi']
    decide
  have notNul : buf.bytes.getD j 0 ≠ 0 := fun nul => by
    have := blank
    unfold Buf.IsSpace at this
    rw [nul] at this
    exact absurd this (by decide)
  unfold setargsLoop
  rw [Buf.read_of_lt (by omega)]
  show (if buf.bytes.getD j 0 ≠ 10 ∧ buf.bytes.getD j 0 ≠ 0 then _ else _) = _
  rw [if_pos ⟨notNewline, notNul⟩, skipSpace_stop lo.le hi (by unfold MAXLINE at *; omega) blanks
    (notSpace e le_rfl hi)]
  show (do
    let argv ← storeArg argv i (.cmd e)
    let j ← skipWord buf (MAXLINE + 1) e
    let buf ← buf.write j 0
    setargsLoop fuel buf argv (i + 1) (j + 1)) = _
  rw [storeArg, if_pos room]
  show (do
    let j ← skipWord buf (MAXLINE + 1) e
    let buf ← buf.write j 0
    setargsLoop fuel buf (setAt argv i (.cmd e)) (i + 1) (j + 1)) = _
  rw [skipWord_runs_off hi.le (by omega) notSpace]
  rfl

end Scans

/-- Whether a computation faulted with `fault`. -/
def faultsWith {α : Type} (fault : Fault) : Except Fault α → Bool
  | .error f => f == fault
  | .ok _ => false

theorem eq_error_of_faultsWith {α : Type} {fault : Fault} {run : Except Fault α}
    (faulted : faultsWith fault run = true) : run = .error fault := by
  cases run with
  | error f => simpa [faultsWith] using faulted
  | ok => cases faulted

/-- A line of the buffer: its bytes, then NULs to `MAXLINE`. -/
def Buf.ofLine (line : List UInt8) (short : line.length ≤ MAXLINE) : Buf :=
  ⟨line ++ List.replicate (MAXLINE - line.length) 0, by simp; omega⟩

set_option maxRecDepth 10000 in
/-- `setargs` reads past the buffer on the line `ls` followed by two blanks and `\n`:
the second blank is skipped with the `\n`, an empty word starts at the NUL after it,
and the scan of that word runs through the padding to `cmd[MAXLINE]`.  The line `ls`
without `\n` runs past the buffer in the scan of its last word. -/
theorem setargs_runs_past_line :
    setargs (Buf.ofLine [108, 115, 32, 32, 10] (by decide)) = .error (.cmd MAXLINE) ∧
      setargs (Buf.ofLine [108, 115] (by decide)) = .error (.cmd MAXLINE) :=
  ⟨eq_error_of_faultsWith (by decide), eq_error_of_faultsWith (by decide)⟩

end Xv6Fs
