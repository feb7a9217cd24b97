import Xv6.Fs.Log

/-! # Blocks and inodes: the lower half of `fs.c`

The bitmap of free blocks, the inodes on disk and in memory, and their contents. Loops of the
source that only search a block are searches of a list here; the others are recursive functions over
the number of rounds that are left. -/

namespace Xv6.Fs

def readsb : Kern Superblock := do
  let b ← bread 1
  brelse 1
  pure (getSuper b)

def bzero (b : ℕ) : Kern Unit := do
  let _ ← bread b
  logWrite b zeroBlock
  brelse b

/-! ### Blocks -/

/-- The loop of `balloc` over the blocks of the bitmap, from the one for block `b` on. -/
def ballocLoop (sb : Superblock) : ℕ → ℕ → Kern ℕ
  | 0, _ => panic "balloc: out of blocks"
  | n + 1, b => do
    let d ← bread (BBLOCK b sb.ninodes)
    match (List.range (min BPB (sb.size - b))).find? fun bi => getBit d bi = false with
    | some bi => do
      logWrite (BBLOCK b sb.ninodes) (setBit d bi)
      brelse (BBLOCK b sb.ninodes)
      bzero (b + bi)
      pure (b + bi)
    | none => do
      brelse (BBLOCK b sb.ninodes)
      ballocLoop sb n (b + BPB)

def balloc : Kern ℕ := do
  let sb ← readsb
  ballocLoop sb ((sb.size + BPB - 1) / BPB) 0

def bfree (b : ℕ) : Kern Unit := do
  let sb ← readsb
  let d ← bread (BBLOCK b sb.ninodes)
  if getBit d (b % BPB) = false then panic "freeing free block"
  else do
    logWrite (BBLOCK b sb.ninodes) (clearBit d (b % BPB))
    brelse (BBLOCK b sb.ninodes)

/-! ### Inodes -/

/-- The loop of `ialloc`, from inode `i` on. -/
def iallocLoop (type : ℕ) : ℕ → ℕ → Kern ℕ
  | 0, _ => panic "ialloc: no inodes"
  | n + 1, i => do
    let d ← bread (IBLOCK i)
    if (getDinode d (i % IPB)).type = 0 then do
      logWrite (IBLOCK i) (putDinode d (i % IPB) { Dinode.zero with type := type })
      brelse (IBLOCK i)
      .op (.iref i) .ret
      pure i
    else do
      brelse (IBLOCK i)
      iallocLoop type n (i + 1)

/-- `ialloc`: the new inode, with a reference to it. -/
def ialloc (type : ℕ) : Kern ℕ := do
  let sb ← readsb
  iallocLoop type (sb.ninodes - 1) 1

def iupdate (i : ℕ) : Kern Unit := do
  let d ← bread (IBLOCK i)
  let c ← inode i
  logWrite (IBLOCK i) (putDinode d (i % IPB) c.din)
  brelse (IBLOCK i)

/-- `iget` and `idup`. -/
def iget (i : ℕ) : Kern Unit := .op (.iref i) .ret

def ilock (i : ℕ) : Kern Unit := do
  let c ← inode i
  if c.ref < 1 then panic "ilock"
  else do
    .op (.itake i) .ret
    let c ← inode i
    if c.valid = false then do
      let d ← bread (IBLOCK i)
      setInode i true (getDinode d (i % IPB))
      brelse (IBLOCK i)
      if (getDinode d (i % IPB)).type = 0 then panic "ilock: no type"

def iunlock (i : ℕ) : Kern Unit := .op (.ifree i) .ret

/-! ### The contents of inodes -/

/-- Set block address `j` of the copy in memory. -/
def setAddr (i j a : ℕ) : Kern Unit := do
  let c ← inode i
  setInode i c.valid { c.din with addrs := Function.update c.din.addrs j a }

/-- Block address `j` of the copy in memory, with a new block if there is none. -/
def allocAddr (i j : ℕ) : Kern ℕ := do
  let a ← getAddr i j
  if a = 0 then do
    let a ← balloc
    setAddr i j a
    pure a
  else pure a

def bmap (i bn : ℕ) : Kern ℕ :=
  if bn < NDIRECT then allocAddr i bn
  else if bn - NDIRECT < NINDIRECT then do
    let a ← allocAddr i NDIRECT
    let d ← bread a
    let w ← bword a (bn - NDIRECT)
    if w = 0 then do
      let b ← balloc
      logWrite a (setWord d (bn - NDIRECT) b)
      brelse a
      pure b
    else do
      brelse a
      pure w
  else panic "bmap: out of range"

/-- The loop of `itrunc` over the direct blocks, from `j` on. -/
def truncDirect (i : ℕ) : ℕ → ℕ → Kern Unit
  | 0, _ => pure ()
  | n + 1, j => do
    let c ← inode i
    if c.din.addrs j ≠ 0 then do
      bfree (c.din.addrs j)
      setAddr i j 0
    truncDirect i n (j + 1)

/-- The loop of `itrunc` over the words of the indirect block, from `j` on. -/
def truncIndirect (d : Block) : ℕ → ℕ → Kern Unit
  | 0, _ => pure ()
  | n + 1, j => do
    if word d (4 * j) ≠ 0 then bfree (word d (4 * j))
    truncIndirect d n (j + 1)

def itrunc (i : ℕ) : Kern Unit := do
  truncDirect i NDIRECT 0
  let c ← inode i
  if c.din.addrs NDIRECT ≠ 0 then do
    let d ← bread (c.din.addrs NDIRECT)
    truncIndirect d NINDIRECT 0
    brelse (c.din.addrs NDIRECT)
    bfree (c.din.addrs NDIRECT)
    setAddr i NDIRECT 0
  let c ← inode i
  setInode i c.valid { c.din with size := 0 }
  iupdate i

def iput (i : ℕ) : Kern Unit := do
  let free ← (.op (.iputStart i) .ret : Kern Bool)
  if free then do
    itrunc i
    let c ← inode i
    setInode i c.valid { c.din with type := 0 }
    iupdate i
    .op (.iputEnd i) .ret

/-- The loop of `readi` at offset `off`, with `n` bytes to go. -/
def readLoop (i : ℕ) : ℕ → ℕ → ℕ → Kern (List UInt8)
  | 0, _, _ => pure []
  | fuel + 1, off, n =>
    if n = 0 then pure []
    else do
      let b ← bmap i (off / BSIZE)
      let d ← bread b
      let m := min n (BSIZE - off % BSIZE)
      brelse b
      let l ← readLoop i fuel (off + m) (n - m)
      pure ((List.range m).map (fun j => d (off % BSIZE + j)) ++ l)

/-- `readi` from an inode that is not a device: `none` for `-1`. -/
def readFile (i off n : ℕ) : Kern (Option (List UInt8)) := do
  let c ← inode i
  if off > c.din.size ∨ 2 ^ 32 ≤ off + n then pure none
  else do
    let n := if off + n > c.din.size then c.din.size - off else n
    let l ← readLoop i n off n
    pure (some l)

/-- The console device. -/
def CONSOLE : ℕ := 1

/-- `readi`: `none` for `-1`. `consoleread` unlocks the inode and sleeps; what is typed is not
modelled. -/
def readi (i off n : ℕ) : Kern (Option (List UInt8)) := do
  let c ← inode i
  if c.din.type = T_DEV then
    if c.din.major = CONSOLE then do
      iunlock i
      .op .doze .ret
      ilock i
      pure (some [])
    else pure none
  else readFile i off n

/-- The loop of `writei` at offset `off`, with the bytes `l` to go. -/
def writeLoop (i : ℕ) : ℕ → ℕ → List UInt8 → Kern Unit
  | 0, _, _ => pure ()
  | fuel + 1, off, l =>
    if l = [] then pure ()
    else do
      let b ← bmap i (off / BSIZE)
      let d ← bread b
      let m := min l.length (BSIZE - off % BSIZE)
      logWrite b fun o => if off % BSIZE ≤ o ∧ o < off % BSIZE + m then
        l.getD (o - off % BSIZE) 0 else d o
      brelse b
      writeLoop i fuel (off + m) (l.drop m)

/-- `writei` to an inode that is not a device: `false` for `-1`. -/
def writeFile (i off : ℕ) (l : List UInt8) : Kern Bool := do
  let c ← inode i
  if off > c.din.size ∨ 2 ^ 32 ≤ off + l.length then pure false
  else if off + l.length > MAXFILE * BSIZE then pure false
  else do
    writeLoop i l.length off l
    let c ← inode i
    if 0 < l.length ∧ off + l.length > c.din.size then do
      setInode i c.valid { c.din with size := off + l.length }
      iupdate i
    pure true

/-- `writei`: `false` for `-1`. `consolewrite` unlocks the inode. -/
def writei (i off : ℕ) (l : List UInt8) : Kern Bool := do
  let c ← inode i
  if c.din.type = T_DEV then
    if c.din.major = CONSOLE then do
      iunlock i
      ilock i
      pure true
    else pure false
  else writeFile i off l

end Xv6.Fs
