import Xv6.Fs.Kernel

/-! # The log: `log.c`

`log_write` copies a buffer to the log area of the disk; `commit_trans` writes the header, which is
the commit, then the blocks to their places, and then an empty header. -/

namespace Xv6.Fs

open Bytes

/-- The header block with the sectors `l`; what lies behind them stays. -/
def putHeader (b : Block) (l : List ℕ) : Block := fun o =>
  if o < 4 then le l.length o
  else if o < 4 + 4 * l.length then le (l.getD ((o - 4) / 4) 0) ((o - 4) % 4)
  else b o

/-- The sectors in a header block. -/
def getHeader (b : Block) : List ℕ := (List.range (word b 0)).map fun i => word b (4 + 4 * i)

/-- The loop of `install_trans`, from block `tail` of the log on. -/
def installLoop (start : ℕ) : ℕ → List ℕ → Kern Unit
  | _, [] => pure ()
  | tail, s :: l => do
    let d ← bread (start + tail + 1)
    let _ ← bread s
    bset s d
    bwrite s
    brelse (start + tail + 1)
    brelse s
    installLoop start (tail + 1) l

def installTrans : Kern Unit := do
  let l ← getLog
  installLoop l.start 0 l.lh

def readHead : Kern Unit := do
  let l ← getLog
  let b ← bread l.start
  setLh (getHeader b)
  brelse l.start

def writeHead : Kern Unit := do
  let l ← getLog
  let b ← bread l.start
  bset l.start (putHeader b l.lh)
  bwrite l.start
  brelse l.start

def recoverFromLog : Kern Unit := do
  readHead
  installTrans
  setLh []
  writeHead

def beginTrans : Kern Unit := .op .logTake .ret

def commitTrans : Kern Unit := do
  let l ← getLog
  if 0 < l.lh.length then
    writeHead
    installTrans
    setLh []
    writeHead
  .op .logDrop .ret

/-- `log_write` of the buffer of sector `s`, whose data its caller has just changed to `d`. -/
def logWrite (s : ℕ) (d : Block) : Kern Unit := do
  bset s d
  let l ← logEntry
  if LOGSIZE ≤ l.lh.length ∨ l.size - 1 ≤ l.lh.length then panic "too big a transaction"
  else if l.busy = false then panic "write outside of trans"
  else do
    let i := l.lh.idxOf s
    let _ ← bread (l.start + i + 1)
    bset (l.start + i + 1) d
    bwrite (l.start + i + 1)
    brelse (l.start + i + 1)
    if i = l.lh.length then setLh (l.lh ++ [s])

end Xv6.Fs
