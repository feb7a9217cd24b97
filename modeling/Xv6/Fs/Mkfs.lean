import Xv6.Fs.Calls
import Xv6.Fs.Crash

/-! # Making a file system: `mkfs.c`

The image that `mkfs` writes for given files (a failing assertion or read is `none`), and the kernel
when it has started from an image. -/

namespace Xv6.Fs.Mkfs

open Function

/-- The file `fs.img` and the global variables of `mkfs`. -/
structure Img where
  disk : ℕ → Block
  freeblock : ℕ
  usedblocks : ℕ
  freeinode : ℕ

def nblocks : ℕ := 985
def nlog : ℕ := LOGSIZE
def ninodes : ℕ := 200
def size : ℕ := 1024
def bitblocks : ℕ := size / (512 * 8) + 1

/-- The blocks before the data. -/
def firstblock : ℕ := ninodes / IPB + 3 + bitblocks

/-- The super block. -/
def sb : Superblock := ⟨size, nblocks, ninodes, nlog⟩

def putSuper (s : Superblock) : Block := fun o =>
  if o < 4 then Bytes.le s.size o
  else if o < 8 then Bytes.le s.nblocks (o - 4)
  else if o < 12 then Bytes.le s.ninodes (o - 8)
  else if o < 16 then Bytes.le s.nlog (o - 12)
  else 0

namespace Img

def wsect (m : Img) (s : ℕ) (b : Block) : Img := { m with disk := update m.disk s b }

/-- `rsect`: a read past the end of the file fails. The file has `size` sectors, and does not grow, as
each sector is read before it is written. -/
def rsect (m : Img) (s : ℕ) : Option Block := if s < size then some (m.disk s) else none

def rinode (m : Img) (inum : ℕ) : Option Dinode := do
  let b ← m.rsect (IBLOCK inum)
  pure (getDinode b (inum % IPB))

def winode (m : Img) (inum : ℕ) (d : Dinode) : Option Img := do
  let b ← m.rsect (IBLOCK inum)
  pure (m.wsect (IBLOCK inum) (putDinode b (inum % IPB) d))

/-- `ialloc`: the inode is the value of `freeinode` before. -/
def ialloc (m : Img) (type : ℕ) : Option Img :=
  { m with freeinode := m.freeinode + 1 }.winode m.freeinode { Dinode.zero with type := type, nlink := 1 }

/-- A new block: the value of `freeblock` before. -/
def take (m : Img) : Img := { m with freeblock := m.freeblock + 1, usedblocks := m.usedblocks + 1 }

/-- Block address `j` of an inode, with a new block if there is none. -/
def addr (m : Img) (d : Dinode) (j : ℕ) : Img × Dinode :=
  if d.addrs j = 0 then (m.take, { d with addrs := update d.addrs j m.freeblock }) else (m, d)

/-- The block for block `fbn` of a file. -/
def fblock (m : Img) (d : Dinode) (fbn : ℕ) : Option (Img × Dinode × ℕ) :=
  if fbn < NDIRECT then
    let r := m.addr d fbn
    some (r.1, r.2, r.2.addrs fbn)
  else do
    let r := m.addr d NDIRECT
    let a := r.2.addrs NDIRECT
    let b ← r.1.rsect a
    let w := word b (4 * (fbn - NDIRECT))
    if w = 0 then
      pure (r.1.take.wsect a (setWord b (fbn - NDIRECT) r.1.freeblock), r.2, r.1.freeblock)
    else pure (r.1, r.2, w)

/-- The loop of `iappend`. -/
def appendLoop : ℕ → Img → Dinode → ℕ → List UInt8 → Option (Img × Dinode × ℕ)
  | 0, m, d, off, _ => some (m, d, off)
  | fuel + 1, m, d, off, l =>
    if l = [] then some (m, d, off)
    else if off / BSIZE < MAXFILE then do
      let r ← m.fblock d (off / BSIZE)
      let b ← r.1.rsect r.2.2
      let n := min l.length (BSIZE - off % BSIZE)
      appendLoop fuel (r.1.wsect r.2.2 fun o =>
          if off % BSIZE ≤ o ∧ o < off % BSIZE + n then l.getD (o - off % BSIZE) 0 else b o)
        r.2.1 (off + n) (l.drop n)
    else none

def iappend (m : Img) (inum : ℕ) (l : List UInt8) : Option Img := do
  let d ← m.rinode inum
  let r ← appendLoop l.length m d d.size l
  r.1.winode inum { r.2.1 with size := r.2.2 }

/-- An entry of the root directory. -/
def addEntry (m : Img) (inum : ℕ) (name : List UInt8) : Option Img :=
  m.iappend ROOTINO ((List.range 16).map (Dirent.mk inum (name.take DIRSIZ)).byte)

/-- A file is read in pieces of 512 bytes. -/
def appendAll : ℕ → Img → ℕ → List UInt8 → Option Img
  | 0, m, _, _ => some m
  | fuel + 1, m, inum, l =>
    if l = [] then some m
    else do
      let m ← m.iappend inum (l.take BSIZE)
      appendAll fuel m inum (l.drop BSIZE)

/-- The name of a file in the root directory: a leading `_` is skipped. -/
def entryName (name : List UInt8) : List UInt8 := if name.head? = some 95 then name.tail else name

/-- One file of the command line. -/
def addFile (m : Img) (name data : List UInt8) : Option Img :=
  if Names.slash ∈ name then none
  else do
    let inum := m.freeinode
    let m ← m.ialloc T_FILE
    let m ← m.addEntry inum (entryName name)
    appendAll data.length m inum data

def addFiles : Img → List (List UInt8 × List UInt8) → Option Img
  | m, [] => some m
  | m, (name, data) :: files => do
    let m ← m.addFile name data
    addFiles m files

/-- The size of the root directory is rounded up to the next block. -/
def fixRoot (m : Img) : Option Img := do
  let d ← m.rinode ROOTINO
  m.winode ROOTINO { d with size := (d.size / BSIZE + 1) * BSIZE }

/-- `balloc`: the first `used` blocks are allocated. -/
def balloc (m : Img) (used : ℕ) : Option Img :=
  if used < 512 * 8 then
    some (m.wsect (ninodes / IPB + 3) ((List.range used).foldl setBit zeroBlock))
  else none

end Img

/-- The image before any inode is written. -/
def blank : Img where
  disk := update (fun _ => zeroBlock) 1 (putSuper sb)
  freeblock := firstblock
  usedblocks := firstblock
  freeinode := 1

/-- `mkfs` for the given files, each with its name and its contents. -/
def mkfs (files : List (List UInt8 × List UInt8)) : Option Img := do
  let m ← blank.ialloc T_DIR
  let m ← m.addEntry ROOTINO Names.dot
  let m ← m.addEntry ROOTINO Names.dotdot
  let m ← m.addFiles files
  let m ← m.fixRoot
  m.balloc m.usedblocks

/-- The image for the given files. -/
def image (files : List (List UInt8 × List UInt8)) : Option (ℕ → Block) := (mkfs files).map Img.disk

/-- The image without files. -/
def plain : ℕ → Block := (image []).getD fun _ => zeroBlock

end Xv6.Fs.Mkfs

namespace Xv6.Fs

/-- The file system when `init` and the inswapper have been created, both in the root directory. The
log of the image is empty, and `initlog` finds nothing to recover. -/
def boot (d : ℕ → Block) : State :=
  { powerOn ((getSuper (d 1)).size - (getSuper (d 1)).nlog) (getSuper (d 1)).nlog d with
    inode := fun i => ⟨if i = ROOTINO then 2 else 0, false, Dinode.zero⟩
    tab := ⟨fun _ => ⟨.none, 0, false, false, 0, 0⟩,
      fun p => ⟨if p = initproc ∨ p = inswapper then some ROOTINO else none, fun _ => none⟩⟩ }

end Xv6.Fs
