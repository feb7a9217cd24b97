import Xv6.Fs.Names

/-! # Files and system calls: `file.c` and `sysfile.c`

Paths are the bytes of the string before its NUL.  A call that returns `-1` returns `none` or
`false` here. `short` counters wrap. The field `ip` of a file is read once where the source reads
it several times: it does not change while the file is open. -/

namespace Xv6.Fs.Names

def dot : List UInt8 := [46]
def dotdot : List UInt8 := [46, 46]

/-- `n++` and `n--` of a `short`, and `n < 1`. -/
def inc (n : ℕ) : ℕ := (n + 1) % 65536
def dec (n : ℕ) : ℕ := (n + 65535) % 65536
def belowOne (n : ℕ) : Bool := n = 0 || 32768 ≤ n

def setNlink (i : ℕ) (f : ℕ → ℕ) : Fsys Unit := do
  let m ← getStat i
  update i m.major m.minor (f m.nlink)

/-! ### Creating and removing entries -/

/-- The entries `.` and `..` of a new directory. -/
def dots (dp ip : ℕ) : Fsys Unit := do
  setNlink dp inc
  let ok ← dirlink ip dot ip
  if ok = false then panic "create dots"
  else do
    let ok ← dirlink ip dotdot dp
    if ok = false then panic "create dots" else pure ()

/-- `create`, if there is no entry `name` in `dp`. -/
def createNew (dp : ℕ) (name : List UInt8) (type major minor : ℕ) : Fsys (Option ℕ) := do
  let ip ← ialloc type
  ilock ip
  update ip major minor 1
  if type = T_DIR then dots dp ip
  let ok ← dirlink dp name ip
  if ok = false then panic "create: dirlink"
  else do
    iunlockput dp
    pure (some ip)

/-- `create`: the inode, locked, with a reference to it. -/
def create (path : List UInt8) (type major minor : ℕ) : Fsys (Option ℕ) := do
  match ← nameiparent path with
  | none => pure none
  | some (dp, name) => do
    ilock dp
    match ← dirlookup dp name with
    | some (ip, _) => do
      iunlockput dp
      ilock ip
      let m ← getStat ip
      if type = T_FILE ∧ m.type = T_FILE then pure (some ip)
      else do
        iunlockput ip
        pure none
    | none => createNew dp name type major minor

def sysLink (old new : List UInt8) : Fsys Bool := do
  match ← namei old with
  | none => pure false
  | some ip => do
    beginTrans
    ilock ip
    let m ← getStat ip
    if m.type = T_DIR then do
      iunlockput ip
      commitTrans
      pure false
    else do
      update ip m.major m.minor (inc m.nlink)
      iunlock ip
      match ← nameiparent new with
      | none => bad ip
      | some (dp, name) => do
        ilock dp
        if ← dirlink dp name ip then do
          iunlockput dp
          iput ip
          commitTrans
          pure true
        else do
          iunlockput dp
          bad ip
where
  /-- The label `bad`. -/
  bad (ip : ℕ) : Fsys Bool := do
    ilock ip
    setNlink ip dec
    iunlockput ip
    commitTrans
    pure false

/-- The loop of `isdirempty`. -/
def isdiremptyLoop (dp : ℕ) : ℕ → ℕ → Fsys Bool
  | 0, _ => pure true
  | n + 1, off => do
    match ← readDe dp off with
    | none => panic "isdirempty: readi"
    | some e => if e.inum ≠ 0 then pure false else isdiremptyLoop dp n (off + 16)

def isdirempty (dp : ℕ) : Fsys Bool := do
  let m ← getStat dp
  isdiremptyLoop dp ((m.size + 15) / 16 - 2) 32

/-- Whether `unlink` may remove the inode. -/
def removable (ip type : ℕ) : Fsys Bool := if type = T_DIR then isdirempty ip else pure true

/-- `unlink` erases the entry at `off`. -/
def eraseEntry (dp off : ℕ) : Fsys Unit := do
  let ok ← writeDe dp off Dirent.zero
  if ok = false then panic "unlink: writei"

/-- The end of `unlink`: the entry at `off` is erased. -/
def erase (dp ip off type : ℕ) : Fsys Bool := do
  eraseEntry dp off
  if type = T_DIR then setNlink dp dec
  iunlockput dp
  setNlink ip dec
  iunlockput ip
  commitTrans
  pure true

/-- `unlink` and `sys_unlink`. -/
def unlink (path : List UInt8) : Fsys Bool := do
  match ← nameiparent path with
  | none => pure false
  | some (dp, name) => do
    beginTrans
    ilock dp
    if nameEq name dot = true ∨ nameEq name dotdot = true then bad dp
    else do
      match ← dirlookup dp name with
      | none => bad dp
      | some (ip, off) => do
        ilock ip
        let m ← getStat ip
        if belowOne m.nlink = true then panic "unlink: nlink < 1"
        else do
          let empty ← removable ip m.type
          if empty = false then do
            iunlockput ip
            bad dp
          else erase dp ip off m.type
where
  /-- The label `bad`. -/
  bad (dp : ℕ) : Fsys Bool := do
    iunlockput dp
    commitTrans
    pure false

def sysMkdir (path : List UInt8) : Fsys Bool := do
  beginTrans
  match ← create path T_DIR 0 0 with
  | none => do
    commitTrans
    pure false
  | some ip => do
    iunlockput ip
    commitTrans
    pure true

def sysMknod (path : List UInt8) (major minor : ℕ) : Fsys Bool := do
  beginTrans
  match ← create path T_DEV (major % 65536) (minor % 65536) with
  | none => do
    commitTrans
    pure false
  | some ip => do
    iunlockput ip
    commitTrans
    pure true

def sysChdir (path : List UInt8) : Fsys Bool := do
  match ← namei path with
  | none => pure false
  | some ip => do
    ilock ip
    let m ← getStat ip
    if m.type ≠ T_DIR then do
      iunlockput ip
      pure false
    else do
      iunlock ip
      let cwd ← (tab .cwd : Fsys ℕ)
      iput cwd
      tab (.setCwd (some ip))
      pure true

/-! ### Open files -/

def O_RDONLY : ℕ := 0
def O_WRONLY : ℕ := 1
def O_RDWR : ℕ := 2
def O_CREATE : ℕ := 0x200

def fileclose (f : ℕ) : Fsys Unit := do
  match ← (tab (.fileDrop f) : Fsys (Option File)) with
  | none => pure ()
  | some ff =>
    if ff.type = .inode then do
      beginTrans
      iput ff.ip
      commitTrans

/-- The first half of `fileopen` and `sys_open`: the inode, locked. -/
def openInode (path : List UInt8) (omode : ℕ) : Fsys (Option ℕ) :=
  if omode &&& O_CREATE ≠ 0 then do
    beginTrans
    let ip ← create path T_FILE 0 0
    commitTrans
    pure ip
  else do
    match ← namei path with
    | none => pure none
    | some ip => do
      ilock ip
      let m ← getStat ip
      if m.type = T_DIR ∧ omode ≠ O_RDONLY then do
        iunlockput ip
        pure none
      else pure (some ip)

/-- The file that an open returns. -/
def openFile (ip omode : ℕ) : File where
  type := .inode
  ref := 1
  readable := omode &&& O_WRONLY = 0
  writable := omode &&& O_WRONLY ≠ 0 || omode &&& O_RDWR ≠ 0
  ip := ip
  off := 0

def fileopen (path : List UInt8) (omode : ℕ) : Fsys (Option ℕ) := do
  match ← openInode path omode with
  | none => pure none
  | some ip => do
    match ← (tab .filealloc : Fsys (Option ℕ)) with
    | none => do
      iunlockput ip
      pure none
    | some f => do
      iunlock ip
      tab (.fileSet f (openFile ip omode))
      pure (some f)

def sysOpen (path : List UInt8) (omode : ℕ) : Fsys (Option ℕ) := do
  match ← openInode path omode with
  | none => pure none
  | some ip => do
    match ← (tab .openFd : Fsys (Option (ℕ × ℕ))) with
    | none => do
      iunlockput ip
      pure none
    | some (f, fd) => do
      iunlock ip
      tab (.fileSet f (openFile ip omode))
      pure (some fd)

def sysClose (fd : ℕ) : Fsys Bool := do
  match ← (tab (.fd fd) : Fsys (Option ℕ)) with
  | none => pure false
  | some f => do
    tab (.fdSet fd none)
    fileclose f
    pure true

def sysDup (fd : ℕ) : Fsys (Option ℕ) := do
  match ← (tab (.fd fd) : Fsys (Option ℕ)) with
  | none => pure none
  | some f => do
    match ← (tab (.fdalloc f) : Fsys (Option ℕ)) with
    | none => pure none
    | some n => do
      let x ← (tab (.file f) : Fsys File)
      if x.ref < 1 then panic "filedup"
      else do
        tab (.fileSet f { x with ref := x.ref + 1 })
        pure (some n)

/-- `sys_read` of `n` bytes from a file that is not a pipe. -/
def sysRead (fd n : ℕ) : Fsys Bool := do
  match ← (tab (.fd fd) : Fsys (Option ℕ)) with
  | none => pure false
  | some f => do
    let x ← (tab (.file f) : Fsys File)
    if x.readable = false ∨ x.type ≠ .inode then pure false
    else do
      ilock x.ip
      let y ← (tab (.file f) : Fsys File)
      match ← readi x.ip y.off n with
      | none => do
        iunlock x.ip
        pure false
      | some l => do
        tab (.fileSet f { y with off := y.off + l.length })
        iunlock x.ip
        pure true

/-- Most bytes that `filewrite` writes in one transaction. -/
def maxWrite : ℕ := (LOGSIZE - 1 - 1 - 2) / 2 * 512

/-- The loop of `filewrite`. -/
def writeLoop (f : ℕ) : ℕ → List UInt8 → Fsys Bool
  | 0, l => pure (l = [])
  | n + 1, l =>
    if l = [] then pure true
    else do
      let x ← (tab (.file f) : Fsys File)
      beginTrans
      ilock x.ip
      let y ← (tab (.file f) : Fsys File)
      let ok ← writei x.ip y.off (l.take maxWrite)
      if ok then tab (.fileSet f { y with off := y.off + (l.take maxWrite).length })
      iunlock x.ip
      commitTrans
      if ok = false then pure false else writeLoop f n (l.drop maxWrite)

/-- `filewrite` to a file that is not a pipe. -/
def filewrite (f : ℕ) (l : List UInt8) : Fsys Bool := do
  let x ← (tab (.file f) : Fsys File)
  if x.writable = false ∨ x.type ≠ .inode then pure false
  else writeLoop f l.length l

def sysWrite (fd : ℕ) (l : List UInt8) : Fsys Bool := do
  match ← (tab (.fd fd) : Fsys (Option ℕ)) with
  | none => pure false
  | some f => filewrite f l

/-! ### Processes -/

/-- The loop of `exit` over the file descriptors, from `fd` on. -/
def closeLoop : ℕ → ℕ → Fsys Unit
  | 0, _ => pure ()
  | n + 1, fd => do
    match ← (tab (.fd fd) : Fsys (Option ℕ)) with
    | none => pure ()
    | some f => do
      fileclose f
      tab (.fdSet fd none)
    closeLoop n (fd + 1)

/-- What `exit` does with files. -/
def exit : Fsys Unit := do
  closeLoop NOFILE 0
  let cwd ← (tab .cwd : Fsys ℕ)
  iput cwd
  tab (.setCwd none)

/-- What `fork` does with files; the child is process `q`. -/
def fork (q : Slot) : Fsys Unit := do
  let cwd ← (tab .cwd : Fsys ℕ)
  iget cwd
  tab (.fork q)

/-- The reads of `exec`. -/
def readAll (ip : ℕ) : List (ℕ × ℕ) → Fsys Unit
  | [] => pure ()
  | (off, n) :: l => do
    let _ ← readi ip off n
    readAll ip l

/-- What `exec` does with files: it reads at places of the file that depend on its contents. -/
def exec (path : List UInt8) (reads : List (ℕ × ℕ)) : Fsys Bool := do
  match ← namei path with
  | none => pure false
  | some ip => do
    ilock ip
    readAll ip reads
    iunlockput ip
    pure true

/-! ### Swapping -/

/-- The loop of `swapOut` over the pages of the process. -/
def outLoop (f : ℕ) : List (List UInt8) → Fsys Unit
  | [] => fileclose f
  | page :: pages => do
    if ← filewrite f page then outLoop f pages

/-- What `swapOut` does with files: after an error the file stays open. -/
def swapOut (name : List UInt8) (pages : List (List UInt8)) : Fsys Unit := do
  match ← fileopen name (O_CREATE ||| O_RDWR) with
  | none => pure ()
  | some f => outLoop f pages

end Xv6.Fs.Names
