import Xv6Fs.Cache

/-!
# Directories

A directory's content is a sequence of `struct dirent` records: a `ushort` inode
number and a `char name[DIRSIZ]`, sixteen bytes in all, little-endian.  An entry
with inode number zero is free.  `dirlookup` reads the entries one at a time
through `readi`; `dirlink` refuses a name already present and otherwise writes the
new entry into the first free slot, or appends it at the end.

C strings are lists of bytes; the list ends where the string's `NUL` would be, and a
zero byte inside the list also ends the string.
-/

namespace Xv6Fs

/-- Modelled from the spec: `strncmp` of `string.c`, which is not among the
sources.  Bytes past the end of a list read as `NUL`. -/
def strncmp : List UInt8 → List UInt8 → Nat → Int
  | _, _, 0 => 0
  | p, q, n + 1 =>
    if p.headD 0 ≠ 0 ∧ p.headD 0 = q.headD 0 then strncmp p.tail q.tail n
    else ((p.headD 0).toNat : Int) - (q.headD 0).toNat

/-- Modelled from the spec: `strncpy(s, t, n)` of `string.c`: the bytes of `t` up
to its `NUL`, padded with zeros to `n` bytes. -/
def strncpy (t : List UInt8) (n : Nat) : List UInt8 :=
  (t.takeWhile (· ≠ 0) ++ List.replicate n 0).take n

/-- `namecmp(s, t)`: `strncmp(s, t, DIRSIZ)`. -/
def namecmp (s t : List UInt8) : Int :=
  strncmp s t DIRSIZ

/-- `struct dirent`. -/
structure Dirent where
  inum : Nat
  name : List UInt8

/-- The sixteen bytes of a directory entry, as `readi` delivers them. -/
def Dirent.decode (bytes : List UInt8) : Dirent :=
  ⟨(bytes.getD 0 0).toNat + 256 * (bytes.getD 1 0).toNat, (bytes.drop 2).take DIRSIZ⟩

/-- The bytes of a directory entry whose name is already `DIRSIZ` bytes long. -/
def Dirent.encode (de : Dirent) : List UInt8 :=
  UInt8.ofNat de.inum :: UInt8.ofNat (de.inum / 256) :: de.name

/-- The entries of a directory, one per `DIRENT_SIZE` bytes of its content, as the
loops of `dirlookup` and `dirlink` read them. -/
def direntries (disk : Disk) (din : Dinode) : List Dirent :=
  (List.range (din.size / DIRENT_SIZE)).map fun k =>
    Dirent.decode ((List.range DIRENT_SIZE).map fun i => contentByte disk din (DIRENT_SIZE * k + i))

section Directories

variable (sb : Superblock)

/-- The loop of `dirlookup` from byte offset `off` on. -/
def dirlookupLoop (dp : Nat) (name : List UInt8) :
    (fuel off : Nat) → Sys → Except Halt (Option (Nat × Nat) × Sys)
  | 0, _, s => pure (none, s)
  | fuel + 1, off, s => do
    if off < (s.icache dp).din.size then
      let ((read, bytes), s) ← readiSlot sb s dp kernelDst (UInt32.ofNat off) (UInt32.ofNat DIRENT_SIZE)
      if read ≠ DIRENT_SIZE then throw (.fatal "dirlookup read")
      let de := Dirent.decode bytes
      if de.inum = 0 then dirlookupLoop dp name fuel (off + DIRENT_SIZE) s
      else if namecmp name de.name = 0 then
        let (ip, s) ← iget s (s.icache dp).dev de.inum
        pure (some (ip, off), s)
      else dirlookupLoop dp name fuel (off + DIRENT_SIZE) s
    else pure (none, s)

/-- `dirlookup(dp, name, poff)`: the slot of the entry's inode and the entry's byte
offset. -/
def dirlookup (s : Sys) (dp : Nat) (name : List UInt8) : Except Halt (Option (Nat × Nat) × Sys) :=
  if (s.icache dp).din.type ≠ T_DIR then .error (.fatal "dirlookup not DIR")
  else dirlookupLoop sb dp name ((s.icache dp).din.size / DIRENT_SIZE + 1) 0 s

/-- The loop of `dirlink` looking for an empty entry; it returns the offset where the
loop stopped. -/
def dirlinkScan (dp : Nat) : (fuel off : Nat) → Sys → Except Halt (Nat × Sys)
  | 0, off, s => pure (off, s)
  | fuel + 1, off, s => do
    if off < (s.icache dp).din.size then
      let ((read, bytes), s) ← readiSlot sb s dp kernelDst (UInt32.ofNat off) (UInt32.ofNat DIRENT_SIZE)
      if read ≠ DIRENT_SIZE then throw (.fatal "dirlink read")
      if (Dirent.decode bytes).inum = 0 then pure (off, s)
      else dirlinkScan dp fuel (off + DIRENT_SIZE) s
    else pure (off, s)

/-- `dirlink(dp, name, inum)`: write a new entry into directory `dp`. -/
def dirlink (s : Sys) (dp : Nat) (name : List UInt8) (inum : Nat) : Except Halt (Int × Sys) := do
  match ← dirlookup sb s dp name with
  | (some (ip, _), s) =>
    let s ← iput sb s ip
    pure (-1, s)
  | (none, s) =>
    let (off, s) ← dirlinkScan sb dp ((s.icache dp).din.size / DIRENT_SIZE + 1) 0 s
    let de : Dirent := ⟨inum % 65536, strncpy name DIRSIZ⟩
    let (written, s) ← writeiSlot sb s dp (kernelSrc de.encode) (UInt32.ofNat off) (UInt32.ofNat DIRENT_SIZE)
    if written ≠ DIRENT_SIZE then throw (.fatal "dirlink")
    pure (0, s)

end Directories

end Xv6Fs
