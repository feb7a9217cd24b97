import Xv6.Fs.Inode

/-! # Directories and paths: the upper half of `fs.c`

This part of `fs.c`, `file.c` and `sysfile.c` use inodes only through the operations of the lower
half, and are written as programs over these (`Op`); `impl` says which program of the lower half an
operation is. So the same text can be run on the blocks of a disk, and on directories that are lists
of entries.

Where the source assigns to fields of an inode it calls `iupdate` right after, and the two are one
operation here (`update`). The entries of a directory are read and written whole; that it is a
directory has been checked before. -/

namespace Xv6.Fs

/-- The fields of an inode besides its block addresses. -/
structure Stat where
  type : ℕ
  major : ℕ
  minor : ℕ
  nlink : ℕ
  size : ℕ
deriving DecidableEq, Repr

def Dinode.stat (d : Dinode) : Stat := ⟨d.type, d.major, d.minor, d.nlink, d.size⟩

/-- The operations of the lower half. -/
inductive Op where
  | beginTrans
  | commitTrans
  | iget (i : ℕ)
  | ilock (i : ℕ)
  | iunlock (i : ℕ)
  | iput (i : ℕ)
  | stat (i : ℕ)
  | update (i : ℕ) (major minor nlink : ℕ)
  | ialloc (type : ℕ)
  | readDe (i off : ℕ)
  | writeDe (i off : ℕ) (e : Dirent)
  | readi (i off n : ℕ)
  | writei (i off : ℕ) (l : List UInt8)
  | tab (c : TabCmd)
  | panic (msg : String)

@[reducible] def Op.Resp : Op → Type
  | .stat _ => Stat
  | .ialloc _ => ℕ
  | .readDe _ _ => Option Dirent
  | .writeDe _ _ _ => Bool
  | .readi _ _ _ => Option (List UInt8)
  | .writei _ _ _ => Bool
  | .tab c => c.Resp
  | .panic _ => Empty
  | _ => Unit

/-- Programs over the operations on inodes. -/
abbrev Fsys := Prog Op Op.Resp

/-- The operations as programs of the lower half. -/
def impl : (o : Op) → Kern o.Resp
  | .beginTrans => beginTrans
  | .commitTrans => commitTrans
  | .iget i => iget i
  | .ilock i => ilock i
  | .iunlock i => iunlock i
  | .iput i => iput i
  | .stat i => do
    let c ← inode i
    pure c.din.stat
  | .update i major minor nlink => do
    let c ← inode i
    setInode i c.valid { c.din with major := major, minor := minor, nlink := nlink }
    iupdate i
  | .ialloc type => ialloc type
  | .readDe i off => do
    let r ← readFile i off 16
    pure (r.bind fun l => if l.length = 16 then some (getDirent fun j => l.getD j 0) else none)
  | .writeDe i off e => writeFile i off ((List.range 16).map e.byte)
  | .readi i off n => readi i off n
  | .writei i off l => writei i off l
  | .tab c => .op (.tab c) .ret
  | .panic msg => .op (.panic msg) .ret

/-- The program of the lower half. -/
def Fsys.kern {α : Type} (q : Fsys α) : Kern α := q.inline impl

namespace Names

def panic {α : Type} (msg : String) : Fsys α := .op (.panic msg) fun e => nomatch e
def beginTrans : Fsys Unit := .op .beginTrans .ret
def commitTrans : Fsys Unit := .op .commitTrans .ret
def iget (i : ℕ) : Fsys Unit := .op (.iget i) .ret
def ilock (i : ℕ) : Fsys Unit := .op (.ilock i) .ret
def iunlock (i : ℕ) : Fsys Unit := .op (.iunlock i) .ret
def iput (i : ℕ) : Fsys Unit := .op (.iput i) .ret
def getStat (i : ℕ) : Fsys Stat := .op (.stat i) .ret
def update (i major minor nlink : ℕ) : Fsys Unit := .op (.update i major minor nlink) .ret
def ialloc (type : ℕ) : Fsys ℕ := .op (.ialloc type) .ret
def readDe (i off : ℕ) : Fsys (Option Dirent) := .op (.readDe i off) .ret
def writeDe (i off : ℕ) (e : Dirent) : Fsys Bool := .op (.writeDe i off e) .ret
def readi (i off n : ℕ) : Fsys (Option (List UInt8)) := .op (.readi i off n) .ret
def writei (i off : ℕ) (l : List UInt8) : Fsys Bool := .op (.writei i off l) .ret
def tab (c : TabCmd) : Fsys c.Resp := .op (.tab c) .ret

def iunlockput (i : ℕ) : Fsys Unit := do
  iunlock i
  iput i

/-! ### Directories -/

/-- The loop of `dirlookup`, from offset `off` on: the inode and the offset of its entry. -/
def lookupLoop (dp : ℕ) (name : List UInt8) : ℕ → ℕ → Fsys (Option (ℕ × ℕ))
  | 0, _ => pure none
  | n + 1, off => do
    match ← readDe dp off with
    | none => panic "dirlink read"
    | some e =>
      if e.inum ≠ 0 ∧ nameEq name e.name = true then do
        iget e.inum
        pure (some (e.inum, off))
      else lookupLoop dp name n (off + 16)

/-- `dirlookup`, with a reference to the inode it finds. -/
def dirlookup (dp : ℕ) (name : List UInt8) : Fsys (Option (ℕ × ℕ)) := do
  let m ← getStat dp
  if m.type ≠ T_DIR then panic "dirlookup not DIR"
  else lookupLoop dp name ((m.size + 15) / 16) 0

/-- The loop of `dirlink`: the offset of the first empty entry, or the size. -/
def emptyLoop (dp : ℕ) : ℕ → ℕ → Fsys ℕ
  | 0, off => pure off
  | n + 1, off => do
    match ← readDe dp off with
    | none => panic "dirlink read"
    | some e => if e.inum = 0 then pure off else emptyLoop dp n (off + 16)

/-- `dirlink`: `false` for `-1`. -/
def dirlink (dp : ℕ) (name : List UInt8) (inum : ℕ) : Fsys Bool := do
  match ← dirlookup dp name with
  | some (i, _) => do
    iput i
    pure false
  | none => do
    let m ← getStat dp
    let off ← emptyLoop dp ((m.size + 15) / 16) 0
    let ok ← writeDe dp off ⟨inum, name.take DIRSIZ⟩
    if ok = false then panic "dirlink" else pure true

/-! ### Paths -/

def slash : UInt8 := 47

/-- `skipelem`: the next element, cut to `DIRSIZ` bytes, and the rest of the path. -/
def skipelem (path : List UInt8) : Option (List UInt8 × List UInt8) :=
  match path.dropWhile (· = slash) with
  | [] => none
  | s => some ((s.takeWhile (· ≠ slash)).take DIRSIZ,
      (s.dropWhile (· ≠ slash)).dropWhile (· = slash))

/-- The loop of `namex` at inode `ip`; it returns the inode and the last element. -/
def namexLoop (parent : Bool) : ℕ → List UInt8 → ℕ → Fsys (Option (ℕ × List UInt8))
  | 0, _, _ => pure none
  | n + 1, path, ip =>
    match skipelem path with
    | none =>
      if parent then do
        iput ip
        pure none
      else pure (some (ip, []))
    | some (name, path) => do
      ilock ip
      let m ← getStat ip
      if m.type ≠ T_DIR then do
        iunlockput ip
        pure none
      else if parent ∧ path = [] then do
        iunlock ip
        pure (some (ip, name))
      else do
        match ← dirlookup ip name with
        | none => do
          iunlockput ip
          pure none
        | some (next, _) => do
          iunlockput ip
          namexLoop parent n path next

def namex (path : List UInt8) (parent : Bool) : Fsys (Option (ℕ × List UInt8)) :=
  if path.head? = some slash then do
    iget ROOTINO
    namexLoop parent (path.length + 1) path ROOTINO
  else do
    let cwd ← (tab .cwd : Fsys ℕ)
    iget cwd
    namexLoop parent (path.length + 1) path cwd

def namei (path : List UInt8) : Fsys (Option ℕ) := do
  let r ← namex path false
  pure (r.map Prod.fst)

def nameiparent (path : List UInt8) : Fsys (Option (ℕ × List UInt8)) := namex path true

end Names

end Xv6.Fs
