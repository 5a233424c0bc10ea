import Xv6Fs.Path
import Mathlib.Data.List.Basic

/-!
# The elements of a path

`skipelem` called on a path, then on each remainder it returns, until it returns `0`,
yields the elements of the path in order: the maximal non-empty runs of bytes other
than `'/'` in the string, which ends at the first NUL (`pathElems`).  Each call
shortens the path, so the calls end within `path.length + 1` of them, the fuel `namex`
gives its loop.  Each remainder starts with an element or is the empty string, and it
is empty exactly after the last element.

`skipelemName` is `skipelem` with the buffer `name` it writes: the first `DIRSIZ`
bytes of the element, and a NUL after them when the element is shorter.  What
`namecmp` and `strncpy` read of that buffer is the name `skipelem` returns, so the
results here hold of the walk in `namex` as it is modelled.
-/

namespace Xv6Fs

/-! ## The buffer `skipelem` writes -/

/-- `skipelem(path, name)` with the buffer `name` it writes: `memmove(name, s, DIRSIZ)`
when the element `s` has `DIRSIZ` bytes or more, and otherwise `memmove(name, s, len)`
and `name[len] = 0`, the other bytes of the buffer left as they were. -/
def skipelemName (name path : List UInt8) : Option (List UInt8 × List UInt8) :=
  let path := path.dropWhile (· = slash)
  if path.headD 0 = 0 then none
  else
    let s := path.takeWhile fun c => c ≠ slash ∧ c ≠ 0
    let len := s.length
    let name := if len ≥ DIRSIZ then s.take DIRSIZ ++ name.drop DIRSIZ else s ++ 0 :: name.drop (len + 1)
    some (name, (path.dropWhile fun c => c ≠ slash ∧ c ≠ 0).dropWhile (· = slash))

/-! ## The elements of a path -/

/-- The elements of a path as the spec describes them: the maximal non-empty runs of
bytes other than `'/'` in the string, which ends at the path's first NUL. -/
def pathElems (path : List UInt8) : List (List UInt8) :=
  ((path.takeWhile (· ≠ 0)).splitOn slash).filter (· ≠ [])

example : pathElems [47, 47, 47, 97, 47, 47, 98, 98, 0, 99] = [[97], [98, 98]] := by decide

/-- A leading `'/'` does not change the elements. -/
theorem pathElems_cons_slash (path : List UInt8) : pathElems (slash :: path) = pathElems path := by
  simp [pathElems, List.splitOn, slash]

/-- The string ends where the path has no more bytes or a NUL. -/
theorem takeWhile_of_headD {path : List UInt8} (last : path.headD 0 = 0) : path.takeWhile (· ≠ 0) = [] := by
  cases path with
  | nil => rfl
  | cons c path =>
    cases (show c = 0 from last)
    rfl

/-- The empty string has no elements. -/
theorem pathElems_of_headD {path : List UInt8} (last : path.headD 0 = 0) : pathElems path = [] := by
  rw [pathElems, takeWhile_of_headD last]
  rfl

/-- Nor do the leading `'/'`s `skipelem` skips. -/
theorem pathElems_dropWhile (path : List UInt8) : pathElems (path.dropWhile (· = slash)) = pathElems path := by
  induction path with
  | nil => rfl
  | cons c path ih =>
    rw [List.dropWhile_cons]
    by_cases lead : c = slash
    · rw [if_pos (decide_eq_true lead), ih, lead, pathElems_cons_slash]
    · rw [if_neg (by simpa using lead)]

/-- An element followed by the end of the string or by a `'/'` is the first element. -/
theorem pathElems_append {elem rest : List UInt8} (inElem : ∀ c ∈ elem, c ≠ slash ∧ c ≠ 0)
    (nonempty : elem ≠ []) (stop : rest.headD 0 = slash ∨ rest.headD 0 = 0) :
    pathElems (elem ++ rest) = elem :: pathElems rest := by
  have noSlash : ∀ c ∈ elem, ¬(c == slash) = true := fun c mem => by simpa using (inElem c mem).1
  have noZero : ∀ c ∈ elem, decide (c ≠ 0) = true := fun c mem => decide_eq_true (inElem c mem).2
  rcases stop with stop | stop
  · obtain ⟨r, rfl⟩ : ∃ r, rest = slash :: r := by
      cases rest with
      | nil => cases stop
      | cons c r => exact ⟨r, congrArg (· :: r) stop⟩
    rw [pathElems_cons_slash, pathElems, pathElems, List.takeWhile_append_of_pos noZero, List.takeWhile_cons,
      if_pos (by decide), List.splitOn, List.splitOnP_first _ _ noSlash _ (by decide), List.filter_cons,
      if_pos (decide_eq_true nonempty)]
    rfl
  · rw [pathElems_of_headD stop, pathElems, List.takeWhile_append_of_pos noZero, takeWhile_of_headD stop,
      List.append_nil, List.splitOn, List.splitOnP_eq_single _ _ noSlash]
    simp [nonempty]

/-- Where `dropWhile` stops, the list has ended or its first byte fails the test. -/
theorem headD_dropWhile (p : UInt8 → Bool) (path : List UInt8) :
    path.dropWhile p = [] ∨ p ((path.dropWhile p).headD 0) = false := by
  induction path with
  | nil => exact .inl rfl
  | cons c path ih =>
    rw [List.dropWhile_cons]
    split
    · exact ih
    · rename_i stopped
      exact .inr (Bool.eq_false_iff.2 stopped)

/-- After the `'/'`s are skipped, the path does not start with one. -/
theorem headD_dropWhile_slash (path : List UInt8) : (path.dropWhile (· = slash)).headD 0 ≠ slash := by
  rcases headD_dropWhile (· = slash) path with ended | stopped
  · rw [ended]
    decide
  · simpa using stopped

/-- The first element of a path that starts with one, and the remainder after it and
the `'/'`s that follow it: the element is the first of the path's elements and the
remainder holds the others; it starts with no `'/'` and is shorter than the path. -/
theorem pathElems_next {path : List UInt8} (noSlash : path.headD 0 ≠ slash) (more : path.headD 0 ≠ 0) :
    pathElems path = path.takeWhile (fun c => c ≠ slash ∧ c ≠ 0) ::
        pathElems ((path.dropWhile fun c => c ≠ slash ∧ c ≠ 0).dropWhile (· = slash)) ∧
      ((path.dropWhile fun c => c ≠ slash ∧ c ≠ 0).dropWhile (· = slash)).headD 0 ≠ slash ∧
      ((path.dropWhile fun c => c ≠ slash ∧ c ≠ 0).dropWhile (· = slash)).length < path.length := by
  have inElem : ∀ x ∈ path.takeWhile (fun c => c ≠ slash ∧ c ≠ 0), x ≠ slash ∧ x ≠ 0 :=
    fun x mem => by simpa using List.mem_takeWhile_imp mem
  have nonempty : path.takeWhile (fun c => c ≠ slash ∧ c ≠ 0) ≠ [] := by
    cases path with
    | nil => exact absurd rfl more
    | cons c path =>
      rw [List.takeWhile_cons, if_pos (decide_eq_true ⟨noSlash, more⟩)]
      exact List.cons_ne_nil _ _
  have stop : (path.dropWhile fun c => c ≠ slash ∧ c ≠ 0).headD 0 = slash ∨
      (path.dropWhile fun c => c ≠ slash ∧ c ≠ 0).headD 0 = 0 := by
    rcases headD_dropWhile (fun c => c ≠ slash ∧ c ≠ 0) path with ended | stopped
    · rw [ended]
      exact .inr rfl
    · simp only [decide_eq_false_iff_not, not_and, not_not] at stopped
      exact or_iff_not_imp_left.2 stopped
  have split := List.takeWhile_append_dropWhile (fun c => decide (c ≠ slash ∧ c ≠ 0)) path
  refine ⟨?_, headD_dropWhile_slash _, ?_⟩
  · conv_lhs => rw [← split]
    rw [pathElems_append inElem nonempty stop, pathElems_dropWhile]
  · have lengths := congrArg List.length split
    have := (List.dropWhile_suffix (fun c => decide (c = slash))
      (l := path.dropWhile fun c => c ≠ slash ∧ c ≠ 0)).length_le
    have := List.length_pos.2 nonempty
    rw [List.length_append] at lengths
    omega

/-- A path that does not start with `'/'` has no elements exactly when it is the empty
string. -/
theorem pathElems_eq_nil_iff {path : List UInt8} (noSlash : path.headD 0 ≠ slash) :
    pathElems path = [] ↔ path.headD 0 = 0 := by
  refine ⟨fun none => ?_, pathElems_of_headD⟩
  by_contra more
  rw [(pathElems_next noSlash more).1] at none
  cases none


/-! ## One call -/

/-- What `skipelem` leaves in the buffer for the element `s`: its first `DIRSIZ` bytes,
and a NUL after them when `s` is shorter. -/
theorem copied_name {name s buf : List UInt8}
    (copy : buf = if s.length ≥ DIRSIZ then s.take DIRSIZ ++ name.drop DIRSIZ else s ++ 0 :: name.drop (s.length + 1)) :
    s.take DIRSIZ <+: buf ∧ (s.length < DIRSIZ → buf[s.length]? = some 0) := by
  subst copy
  by_cases long : s.length ≥ DIRSIZ
  · rw [if_pos long]
    exact ⟨List.prefix_append _ _, fun short => absurd long (by omega)⟩
  · rw [if_neg long, List.take_of_length_le (by omega)]
    exact ⟨List.prefix_append _ _, fun _ => by rw [List.getElem?_append_right le_rfl, Nat.sub_self,
      List.getElem?_cons_zero]⟩

/-- `skipelem` returns `0` exactly when the path has no elements left. -/
theorem skipelemName_eq_none_iff (name path : List UInt8) :
    skipelemName name path = none ↔ pathElems path = [] := by
  rw [← pathElems_dropWhile, pathElems_eq_nil_iff (headD_dropWhile_slash path)]
  unfold skipelemName
  dsimp only
  split
  · exact iff_of_true rfl ‹_›
  · exact iff_of_false (Option.some_ne_none _) ‹_›

/-- One call of `skipelem` that finds an element: the element is the first of the
path's, the buffer holds its first `DIRSIZ` bytes and a NUL after a shorter one, and the
remainder holds the other elements, starts with no `'/'` and is shorter than the path. -/
theorem skipelemName_eq_some {name path buf rest : List UInt8} (call : skipelemName name path = some (buf, rest)) :
    ∃ elem, pathElems path = elem :: pathElems rest ∧ elem.take DIRSIZ <+: buf ∧
      (elem.length < DIRSIZ → buf[elem.length]? = some 0) ∧ rest.headD 0 ≠ slash ∧ rest.length < path.length := by
  unfold skipelemName at call
  dsimp only at call
  split at call
  · cases call
  · rename_i more
    simp only [Option.some.injEq, Prod.mk.injEq] at call
    obtain ⟨copy, rfl⟩ := call
    obtain ⟨elems, noSlash, shorter⟩ := pathElems_next (headD_dropWhile_slash path) more
    have copied := copied_name copy.symm
    have := (List.dropWhile_suffix (fun c => decide (c = slash)) (l := path)).length_le
    exact ⟨_, (pathElems_dropWhile path).symm.trans elems, copied.1, copied.2, noSlash, by omega⟩

/-- The bytes before the first NUL among the first `DIRSIZ` of the buffer are the first
`DIRSIZ` bytes of the element, which holds no NUL. -/
theorem read_copied_name {name s : List UInt8} (noZero : ∀ c ∈ s, c ≠ 0) :
    ((if s.length ≥ DIRSIZ then s.take DIRSIZ ++ name.drop DIRSIZ
      else s ++ 0 :: name.drop (s.length + 1)).take DIRSIZ).takeWhile (· ≠ 0) = s.take DIRSIZ := by
  have whole : ∀ l : List UInt8, (∀ c ∈ l, c ≠ 0) → ∀ rest, rest.headD 0 = 0 → (l ++ rest).takeWhile (· ≠ 0) = l :=
    fun l noZero rest last => by
      rw [List.takeWhile_append_of_pos fun c mem => decide_eq_true (noZero c mem), takeWhile_of_headD last,
        List.append_nil]
  by_cases long : s.length ≥ DIRSIZ
  · rw [if_pos long, List.take_append_of_le_length (by simp; omega), List.take_take, min_self]
    simpa using whole _ (fun c mem => noZero c (List.mem_of_mem_take mem)) [] rfl
  · rw [if_neg long, List.take_append_eq_append_take, List.take_of_length_le (by omega),
      show DIRSIZ - s.length = DIRSIZ - s.length - 1 + 1 by omega, List.take_succ_cons]
    exact whole s noZero _ rfl

/-- What `namecmp` and `strncpy` read of the buffer, its bytes before the first NUL and
at most `DIRSIZ` of them, is the name `skipelem` returns. -/
theorem skipelemName_view (name path : List UInt8) :
    (skipelemName name path).map (fun r => ((r.1.take DIRSIZ).takeWhile (· ≠ 0), r.2)) = skipelem path := by
  unfold skipelemName skipelem
  dsimp only
  split
  · rfl
  · simp only [Option.map_some', Option.some.injEq, Prod.mk.injEq, and_true]
    exact read_copied_name fun c mem => (by simpa using List.mem_takeWhile_imp mem : c ≠ slash ∧ c ≠ 0).2

/-! ## Calls until the end of the path -/

/-- `skipelem` called on `path`, then on each remainder it returns, with one buffer
`name`, at most `fuel` times: the buffer and the remainder after each call that finds an
element, until a call returns `0`; `none` when the calls run out first. -/
def skipelemCalls : (fuel : Nat) → (name path : List UInt8) → Option (List (List UInt8 × List UInt8))
  | 0, _, _ => none
  | fuel + 1, name, path =>
    match skipelemName name path with
    | none => some []
    | some (name, rest) => (skipelemCalls fuel name rest).map ((name, rest) :: ·)

example : skipelemCalls 9 (List.replicate DIRSIZ 0) [47, 47, 47, 97, 47, 47, 98, 98] =
    some [(97 :: List.replicate 13 0, [98, 98]), (98 :: 98 :: List.replicate 12 0, [])] := by
  decide

/-- More fuel changes nothing once the calls have reached the end. -/
theorem skipelemCalls_mono : ∀ {fuel fuel' : Nat} {name path : List UInt8} {calls : List (List UInt8 × List UInt8)},
    skipelemCalls fuel name path = some calls → fuel ≤ fuel' → skipelemCalls fuel' name path = some calls
  | 0, _, _, _, _, run, _ => by cases run
  | _ + 1, 0, _, _, _, _, le => absurd le (by omega)
  | fuel + 1, fuel' + 1, name, path, calls, run, le => by
    unfold skipelemCalls at run ⊢
    cases call : skipelemName name path with
    | none =>
      rw [call] at run
      exact run
    | some r =>
      obtain ⟨buf, rest⟩ := r
      rw [call] at run
      obtain ⟨calls', later, rfl⟩ := Option.map_eq_some'.1 run
      dsimp only
      rw [skipelemCalls_mono later (by omega)]
      rfl

/-- Each call shortens the path, so `path.length + 1` calls reach the one that returns `0`. -/
theorem skipelemCalls_ends : ∀ {fuel : Nat} (name path : List UInt8), path.length < fuel →
    ∃ calls, skipelemCalls fuel name path = some calls
  | 0, _, _, lt => absurd lt (Nat.not_lt_zero _)
  | fuel + 1, name, path, lt => by
    unfold skipelemCalls
    cases call : skipelemName name path with
    | none => exact ⟨[], rfl⟩
    | some r =>
      obtain ⟨buf, rest⟩ := r
      obtain ⟨_, -, -, -, -, shorter⟩ := skipelemName_eq_some call
      obtain ⟨calls, run⟩ := @skipelemCalls_ends fuel buf rest (by omega)
      dsimp only
      rw [run]
      exact ⟨_, rfl⟩

/-- Calls that reach the end copy the path's elements, in order, one per call, and
leave after the `i`-th call a remainder that holds the elements after it, starts with no
`'/'` and is the empty string exactly after the last element. -/
theorem skipelemCalls_spec : ∀ {fuel : Nat} {name path : List UInt8} {calls : List (List UInt8 × List UInt8)},
    skipelemCalls fuel name path = some calls →
      List.Forall₂ (fun elem (call : List UInt8 × List UInt8) => elem.take DIRSIZ <+: call.1 ∧
          (elem.length < DIRSIZ → call.1[elem.length]? = some 0)) (pathElems path) calls ∧
        ∀ i (lt : i < calls.length), pathElems calls[i].2 = (pathElems path).drop (i + 1) ∧
          calls[i].2.headD 0 ≠ slash ∧ (calls[i].2.headD 0 = 0 ↔ i + 1 = calls.length)
  | 0, _, _, _, run => by cases run
  | fuel + 1, name, path, calls, run => by
    unfold skipelemCalls at run
    cases call : skipelemName name path with
    | none =>
      rw [call] at run
      cases run
      rw [(skipelemName_eq_none_iff name path).1 call]
      exact ⟨.nil, fun i lt => absurd lt (Nat.not_lt_zero _)⟩
    | some r =>
      obtain ⟨buf, rest⟩ := r
      rw [call] at run
      obtain ⟨calls', later, rfl⟩ := Option.map_eq_some'.1 run
      obtain ⟨elem, elems, copied, nul, noSlash, -⟩ := skipelemName_eq_some call
      obtain ⟨each, indexed⟩ := skipelemCalls_spec later
      rw [elems]
      refine ⟨.cons ⟨copied, nul⟩ each, fun i lt => ?_⟩
      cases i with
      | zero =>
        refine ⟨rfl, noSlash, ?_⟩
        show rest.headD 0 = 0 ↔ 1 = calls'.length + 1
        rw [← pathElems_eq_nil_iff noSlash, ← List.length_eq_zero, each.length_eq]
        omega
      | succ k =>
        obtain ⟨drop, noSlash', last⟩ := indexed k (by simpa using lt)
        exact ⟨drop, noSlash', by simpa using last⟩

/-- `skipelem` called again on each remainder until it returns `0` ends, within
`path.length + 1` calls, after one call per element of the path: the `i`-th copies the
`i`-th element into `name`, its first `DIRSIZ` bytes and a NUL after a shorter one, and
returns a remainder with no leading `'/'` that holds the later elements and is empty
exactly when the element was the last. -/
theorem skipelem_splits_path (name path : List UInt8) :
    ∃ calls, (∀ fuel, path.length < fuel → skipelemCalls fuel name path = some calls) ∧
      List.Forall₂ (fun elem (call : List UInt8 × List UInt8) => elem.take DIRSIZ <+: call.1 ∧
          (elem.length < DIRSIZ → call.1[elem.length]? = some 0)) (pathElems path) calls ∧
        ∀ i (lt : i < calls.length), pathElems calls[i].2 = (pathElems path).drop (i + 1) ∧
          calls[i].2.headD 0 ≠ slash ∧ (calls[i].2.headD 0 = 0 ↔ i + 1 = calls.length) := by
  obtain ⟨calls, run⟩ := skipelemCalls_ends name path (Nat.lt_succ_self _)
  exact ⟨calls, fun fuel lt => skipelemCalls_mono run lt, skipelemCalls_spec run⟩

end Xv6Fs
