import Xv6Fs.Dir

/-!
# Path names

`skipelem` splits the next element off a path; `namex` walks a path one element at
a time, locking each directory only while it looks the element up, and stops one
level early when the caller asks for the parent.
-/

namespace Xv6Fs

/-- The byte `'/'`. -/
def slash : UInt8 := 47

/-- `skipelem(path, name)` as `namex` reads it: the name its buffer then holds as a
string, the next element truncated to `DIRSIZ` bytes, and the rest of the path without
its leading slashes; `none` when no element is left.  The buffer itself is
`skipelemName`, and `skipelemName_view` shows this is what `namecmp` reads of it. -/
def skipelem (path : List UInt8) : Option (List UInt8 × List UInt8) :=
  let path := path.dropWhile (· = slash)
  if path.headD 0 = 0 then none
  else
    let elem := path.takeWhile fun c => c ≠ slash ∧ c ≠ 0
    let rest := path.dropWhile fun c => c ≠ slash ∧ c ≠ 0
    some (elem.take DIRSIZ, rest.dropWhile (· = slash))

section Names

variable (sb : Superblock)

/-- The loop of `namex`, from the referenced slot `ip` and the rest of the path;
`name` is the last element copied. -/
def namexLoop (nameiparent : Bool) :
    (fuel : Nat) → (ip : Nat) → (path name : List UInt8) → Sys →
      Except Halt (Option (Nat × List UInt8) × Sys)
  | 0, ip, _, name, s => pure (some (ip, name), s)
  | fuel + 1, ip, path, name, s =>
    match skipelem path with
    | none =>
      if nameiparent then do
        let s ← iput sb s ip
        pure (none, s)
      else pure (some (ip, name), s)
    | some (name, rest) => do
      let s ← ilock s ip
      if (s.icache ip).din.type ≠ T_DIR then
        let s ← iunlockput sb s ip
        pure (none, s)
      else if nameiparent ∧ rest.headD 0 = 0 then
        -- Stop one level early.
        let s ← iunlock s ip
        pure (some (ip, name), s)
      else
        match ← dirlookup sb s ip name with
        | (none, s) =>
          let s ← iunlockput sb s ip
          pure (none, s)
        | (some (next, _), s) =>
          let s ← iunlockput sb s ip
          namexLoop nameiparent fuel next rest name s

/-- `namex(path, nameiparent, name)`: start at the root for an absolute path and at
the current directory otherwise. -/
def namex (s : Sys) (path : List UInt8) (nameiparent : Bool) :
    Except Halt (Option (Nat × List UInt8) × Sys) := do
  let (ip, s) ←
    if path.headD 0 = slash then iget s ROOTDEV ROOTINO
    else pure ((s.procs s.cur).cwd, idup s (s.procs s.cur).cwd)
  namexLoop sb nameiparent (path.length + 1) ip path [] s

/-- `namei(path)`. -/
def namei (s : Sys) (path : List UInt8) : Except Halt (Option Nat × Sys) := do
  let (found, s) ← namex sb s path false
  pure (found.map Prod.fst, s)

/-- `nameiparent(path, name)`: the parent directory and the last element. -/
def nameiparent (s : Sys) (path : List UInt8) : Except Halt (Option (Nat × List UInt8) × Sys) :=
  namex sb s path true

end Names

end Xv6Fs
