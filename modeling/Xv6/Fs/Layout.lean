import Mathlib.Data.List.Basic
import Xv6.Lib.Bytes

/-! # The format of the disk

The constants of `fs.h` and `param.h`, and the structures that blocks hold, as functions of their
bytes: `struct superblock`, `struct dinode`, `struct dirent`, words, and the bits of the bitmap.
`short` and `uint` fields are stored with 2 and 4 bytes, the low one first. -/

namespace Xv6.Fs

open Bytes

def BSIZE : ℕ := 512
def NDIRECT : ℕ := 12
def NINDIRECT : ℕ := 128
def MAXFILE : ℕ := 140
def ROOTINO : ℕ := 1
def DIRSIZ : ℕ := 14
def LOGSIZE : ℕ := 10
def NFILE : ℕ := 100
def NOFILE : ℕ := 16

/-- Inodes per block, and bits per block. -/
def IPB : ℕ := 8
def BPB : ℕ := 4096

def T_DIR : ℕ := 1
def T_FILE : ℕ := 2
def T_DEV : ℕ := 3

/-- The contents of a block: offsets below `BSIZE` count. -/
abbrev Block := ℕ → UInt8

def zeroBlock : Block := fun _ => 0

def half (b : Block) (o : ℕ) : ℕ := val 2 fun j => b (o + j)
def word (b : Block) (o : ℕ) : ℕ := val 4 fun j => b (o + j)

/-- Word `i` of a block. -/
def setWord (b : Block) (i w : ℕ) : Block := fun o => if o / 4 = i then le w (o % 4) else b o

/-! ### The super block -/

structure Superblock where
  size : ℕ
  nblocks : ℕ
  ninodes : ℕ
  nlog : ℕ
deriving DecidableEq, Repr

def getSuper (b : Block) : Superblock := ⟨word b 0, word b 4, word b 8, word b 12⟩

/-- Block containing inode `i`. -/
def IBLOCK (i : ℕ) : ℕ := i / IPB + 2

/-- Block containing the bit for block `b`. -/
def BBLOCK (b ninodes : ℕ) : ℕ := b / BPB + ninodes / IPB + 3

/-! ### Inodes -/

/-- `struct dinode`; `addrs j` counts for `j ≤ NDIRECT`. -/
structure Dinode where
  type : ℕ
  major : ℕ
  minor : ℕ
  nlink : ℕ
  size : ℕ
  addrs : ℕ → ℕ

/-- A free inode. -/
def Dinode.zero : Dinode := ⟨0, 0, 0, 0, 0, fun _ => 0⟩

/-- The bytes of an inode. -/
def Dinode.byte (d : Dinode) (o : ℕ) : UInt8 :=
  if o < 2 then le d.type o
  else if o < 4 then le d.major (o - 2)
  else if o < 6 then le d.minor (o - 4)
  else if o < 8 then le d.nlink (o - 6)
  else if o < 12 then le d.size (o - 8)
  else le (d.addrs ((o - 12) / 4)) ((o - 12) % 4)

/-- Inode `j` of a block. -/
def getDinode (b : Block) (j : ℕ) : Dinode where
  type := half b (64 * j)
  major := half b (64 * j + 2)
  minor := half b (64 * j + 4)
  nlink := half b (64 * j + 6)
  size := word b (64 * j + 8)
  addrs i := if i ≤ NDIRECT then word b (64 * j + 12 + 4 * i) else 0

def putDinode (b : Block) (j : ℕ) (d : Dinode) : Block :=
  fun o => if o / 64 = j then d.byte (o % 64) else b o

/-! ### Directory entries -/

/-- `struct dirent`, with the name up to its first NUL. -/
structure Dirent where
  inum : ℕ
  name : List UInt8
deriving DecidableEq, Repr

/-- An erased entry. -/
def Dirent.zero : Dirent := ⟨0, []⟩

def getDirent (f : ℕ → UInt8) : Dirent where
  inum := val 2 f
  name := ((List.range DIRSIZ).map fun j => f (2 + j)).takeWhile (· ≠ 0)

def Dirent.byte (e : Dirent) (o : ℕ) : UInt8 :=
  if o < 2 then le e.inum o else e.name.getD (o - 2) 0

/-- `namecmp(s, t) == 0`. -/
def nameEq (s t : List UInt8) : Bool := s.take DIRSIZ == t.take DIRSIZ

/-! ### The bitmap -/

def getBit (b : Block) (i : ℕ) : Bool := (b (i / 8)).toNat.testBit (i % 8)

def setBit (b : Block) (i : ℕ) : Block := fun o =>
  if o = i / 8 then UInt8.ofNat ((b o).toNat ||| 2 ^ (i % 8)) else b o

def clearBit (b : Block) (i : ℕ) : Block := fun o =>
  if o = i / 8 then UInt8.ofNat ((b o).toNat &&& (255 ^^^ 2 ^ (i % 8))) else b o

end Xv6.Fs
