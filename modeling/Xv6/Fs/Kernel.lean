import Mathlib.Logic.Function.Basic
import Xv6.Fs.Layout
import Xv6.Lib.Prog
import Xv6.Param

/-! # What the file system works on

The code of `log.c` and of the lower half of `fs.c` is written as programs over the commands `Cmd`;
a command is one access to a buffer, to the log in memory, to the cache of inodes, or to the tables
of open files and processes. `exec p` is what a command does when process `p` issues it.

* **Buffers.**  `buf s` is what `bread` finds for sector `s`: the buffer if the sector is cached,
  else the disk. A buffer is only changed while it is locked, and is marked dirty by `log_write`
  before it is released, so that it is not lost before the transaction writes it. `bwrite` writes
  one sector; `past` lists the disks there were before each such write, the last one first.
* **Inodes.**  A pointer to an entry of the inode cache is the inode number: there is one device and
  at most one entry for an inode.
* **Locks** (`B_BUSY`, `I_BUSY`) have commands but no effect here: they matter only when several
  processes are in the file system. `doze` is a `sleep` outside the file system, for input from the
  console.
* **Panics** that are left out: a full inode cache (`iget`) and a buffer cache without clean buffers
  (`bget`). -/

namespace Xv6.Fs

open Function

/-- `struct log`: where it is, whether a transaction is active, and the sectors written so far. -/
structure LogMem where
  start : ℕ
  size : ℕ
  busy : Bool
  lh : List ℕ

/-- An entry of the inode cache: `ref`, the flag `I_VALID`, and the copy of the inode. -/
structure Cached where
  ref : ℕ
  valid : Bool
  din : Dinode

inductive FdType where
  | none
  | pipe
  | inode
deriving DecidableEq, Repr

/-- `struct file`. -/
structure File where
  type : FdType
  ref : ℕ
  readable : Bool
  writable : Bool
  ip : ℕ
  off : ℕ
deriving DecidableEq, Repr

/-- The fields of `struct proc` that file system calls use: an unused slot or a zombie has no `cwd`. -/
structure Proc where
  cwd : Option ℕ
  ofile : ℕ → Option ℕ

/-- The tables of open files and of processes. -/
structure Tables where
  file : ℕ → File
  proc : Slot → Proc

structure State where
  disk : ℕ → Block
  past : List (ℕ → Block)
  buf : ℕ → Block
  log : LogMem
  inode : ℕ → Cached
  tab : Tables

/-! ### Commands -/

/-- Accesses to the tables of files and processes. -/
inductive TabCmd where
  | cwd
  | setCwd (i : Option ℕ)
  | filealloc
  | file (f : ℕ)
  | fileSet (f : ℕ) (x : File)
  | fileDrop (f : ℕ)
  | fd (n : ℕ)
  | fdSet (n : ℕ) (f : Option ℕ)
  | fdalloc (f : ℕ)
  | openFd
  | fork (q : Slot)

/-- What they return. -/
@[reducible] def TabCmd.Resp : TabCmd → Type
  | .cwd => ℕ
  | .filealloc => Option ℕ
  | .file _ => File
  | .fileDrop _ => Option File
  | .fd _ => Option ℕ
  | .fdalloc _ => Option ℕ
  | .openFd => Option (ℕ × ℕ)
  | _ => Unit

inductive Cmd where
  | bread (s : ℕ)
  | bword (s j : ℕ)
  | bset (s : ℕ) (d : Block)
  | bwrite (s : ℕ)
  | brelse (s : ℕ)
  | logTake
  | logDrop
  | log
  | logEntry
  | setLh (l : List ℕ)
  | iref (i : ℕ)
  | iputStart (i : ℕ)
  | iputEnd (i : ℕ)
  | itake (i : ℕ)
  | ifree (i : ℕ)
  | inode (i : ℕ)
  | addr (i j : ℕ)
  | setInode (i : ℕ) (valid : Bool) (d : Dinode)
  | tab (c : TabCmd)
  | doze
  | panic (msg : String)

@[reducible] def Cmd.Resp : Cmd → Type
  | .bread _ => Block
  | .bword _ _ => ℕ
  | .log => LogMem
  | .logEntry => LogMem
  | .iputStart _ => Bool
  | .inode _ => Cached
  | .addr _ _ => ℕ
  | .tab c => c.Resp
  | .panic _ => Empty
  | _ => Unit

/-- Programs of the kernel. -/
abbrev Kern := Prog Cmd Cmd.Resp

/-! ### What the commands do -/

namespace Tables

def setFile (t : Tables) (f : ℕ) (x : File) : Tables := { t with file := update t.file f x }

def setProc (t : Tables) (p : Slot) (x : Proc) : Tables :=
  { t with proc := update t.proc p x }

/-- The first entry of `ftable` that is not in use. -/
def freeFile (t : Tables) : Option ℕ := (List.range NFILE).find? fun f => (t.file f).ref = 0

/-- The first file descriptor that is not in use. -/
def freeFd (q : Proc) : Option ℕ := (List.range NOFILE).find? fun n => (q.ofile n).isNone

/-- The number of file descriptors of a process for the file `f`. -/
def fds (q : Proc) (f : ℕ) : ℕ := (List.range NOFILE).countP fun n => q.ofile n = some f

/-- What process `p` does with a command on the tables. `fileDrop` is the locked part of
`fileclose`, and returns the file if this was its last reference; `openFd` is `filealloc` followed by
`fdalloc`, where a file without descriptor is closed again (its type is still `FD_NONE`); `fork` gives the open files and the
current directory of the process to process `q`. -/
def exec (p : Slot) : (c : TabCmd) → Tables → Except String c.Resp × Tables
  | .cwd, t => (.ok ((t.proc p).cwd.getD 0), t)
  | .setCwd i, t => (.ok (), t.setProc p { t.proc p with cwd := i })
  | .filealloc, t =>
    (.ok t.freeFile, match t.freeFile with
      | some f => t.setFile f { t.file f with ref := 1 }
      | none => t)
  | .file f, t => (.ok (t.file f), t)
  | .fileSet f x, t => (.ok (), t.setFile f x)
  | .fileDrop f, t =>
    if (t.file f).ref < 1 then (.error "fileclose", t)
    else if 1 < (t.file f).ref then
      (.ok none, t.setFile f { t.file f with ref := (t.file f).ref - 1 })
    else (.ok (some (t.file f)), t.setFile f { t.file f with ref := 0, type := .none })
  | .fd n, t => (.ok ((t.proc p).ofile n), t)
  | .fdSet n f, t =>
    (.ok (), t.setProc p { t.proc p with ofile := update (t.proc p).ofile n f })
  | .fdalloc f, t =>
    (.ok (freeFd (t.proc p)), match freeFd (t.proc p) with
      | some n => t.setProc p { t.proc p with ofile := update (t.proc p).ofile n (some f) }
      | none => t)
  | .openFd, t =>
    match t.freeFile, freeFd (t.proc p) with
    | some f, some n => (.ok (some (f, n)), (t.setFile f { t.file f with ref := 1 }).setProc p
        { t.proc p with ofile := update (t.proc p).ofile n (some f) })
    | _, _ => (.ok none, t)
  | .fork q, t =>
    (.ok (), { file := fun f => { t.file f with ref := (t.file f).ref + fds (t.proc p) f },
               proc := update t.proc q (t.proc p) })

end Tables

namespace State

@[simps -fullyApplied]
def setBuf (k : State) (s : ℕ) (d : Block) : State := { k with buf := update k.buf s d }

/-- Write the buffer of sector `s` to the disk. -/
@[simps -fullyApplied]
def write (k : State) (s : ℕ) : State :=
  { k with disk := update k.disk s (k.buf s), past := k.disk :: k.past }

@[simps -fullyApplied]
def setLog (k : State) (l : LogMem) : State := { k with log := l }

@[simps -fullyApplied]
def setInode (k : State) (i : ℕ) (c : Cached) : State :=
  { k with inode := update k.inode i c }

def setRef (k : State) (i n : ℕ) : State := k.setInode i { k.inode i with ref := n }

/-- `iput` frees the inode: this is the last reference, and there are no links. -/
def lastRef (k : State) (i : ℕ) : Prop :=
  (k.inode i).ref = 1 ∧ (k.inode i).valid = true ∧ (k.inode i).din.nlink = 0
deriving Decidable

end State

/-- What a command of process `p` does. `iref` (`iget` and `idup`) takes a new entry of the cache for
an inode without references. `iputStart` is the first locked part of `iput`: it drops
the reference, unless the inode is to be freed. -/
def exec (p : Slot) : Handler Cmd Cmd.Resp State String
  | .bread s, k => (.ok (k.buf s), k)
  | .bword s j, k => (.ok (word (k.buf s) (4 * j)), k)
  | .bset s d, k => (.ok (), k.setBuf s d)
  | .bwrite s, k => (.ok (), k.write s)
  | .brelse _, k => (.ok (), k)
  | .logTake, k => (.ok (), k.setLog { k.log with busy := true })
  | .logDrop, k => (.ok (), k.setLog { k.log with busy := false })
  | .log, k => (.ok k.log, k)
  | .logEntry, k => (.ok k.log, k)
  | .setLh l, k => (.ok (), k.setLog { k.log with lh := l })
  | .iref i, k => (.ok (), k.setInode i
      { k.inode i with ref := (k.inode i).ref + 1, valid := (k.inode i).valid && (k.inode i).ref ≠ 0 })
  | .iputStart i, k =>
    if k.lastRef i then (.ok true, k) else (.ok false, k.setRef i ((k.inode i).ref - 1))
  | .iputEnd i, k => (.ok (), k.setInode i { k.inode i with valid := false, ref := (k.inode i).ref - 1 })
  | .itake _, k => (.ok (), k)
  | .ifree _, k => (.ok (), k)
  | .inode i, k => (.ok (k.inode i), k)
  | .addr i j, k => (.ok ((k.inode i).din.addrs j), k)
  | .setInode i valid d, k => (.ok (), k.setInode i { k.inode i with valid := valid, din := d })
  | .tab c, k => (((k.tab.exec p c).1 : Except String c.Resp), { k with tab := (k.tab.exec p c).2 })
  | .doze, k => (.ok (), k)
  | .panic msg, k => (.error msg, k)

/-! ### Commands as programs -/

def panic {α : Type} (msg : String) : Kern α := .op (.panic msg) fun e => nomatch e

def bread (s : ℕ) : Kern Block := .op (.bread s) .ret
def bset (s : ℕ) (d : Block) : Kern Unit := .op (.bset s d) .ret
def bwrite (s : ℕ) : Kern Unit := .op (.bwrite s) .ret
def brelse (s : ℕ) : Kern Unit := .op (.brelse s) .ret
def getLog : Kern LogMem := .op .log .ret
def logEntry : Kern LogMem := .op .logEntry .ret
def bword (s j : ℕ) : Kern ℕ := .op (.bword s j) .ret
def getAddr (i j : ℕ) : Kern ℕ := .op (.addr i j) .ret
def setLh (l : List ℕ) : Kern Unit := .op (.setLh l) .ret
def inode (i : ℕ) : Kern Cached := .op (.inode i) .ret
def setInode (i : ℕ) (valid : Bool) (d : Dinode) : Kern Unit := .op (.setInode i valid d) .ret

section wp
variable {p : Slot} {k : State} {E : String → State → Prop} {Q : Unit → State → Prop} {s i : ℕ}

@[simp] theorem wp_panic {α : Type} {msg : String} {Q : α → State → Prop} :
    (panic msg).wp (exec p) Q E k ↔ E msg k := Iff.rfl

@[simp] theorem wp_bread {Q : Block → State → Prop} :
    (bread s).wp (exec p) Q E k ↔ Q (k.buf s) k := Iff.rfl

@[simp] theorem wp_bset {d : Block} :
    (bset s d).wp (exec p) Q E k ↔ Q () (k.setBuf s d) := Iff.rfl

@[simp] theorem wp_bwrite :
    (bwrite s).wp (exec p) Q E k ↔ Q () (k.write s) := Iff.rfl

@[simp] theorem wp_brelse :
    (brelse s).wp (exec p) Q E k ↔ Q () k := Iff.rfl

@[simp] theorem wp_getLog {Q : LogMem → State → Prop} :
    getLog.wp (exec p) Q E k ↔ Q k.log k := Iff.rfl

@[simp] theorem wp_logEntry {Q : LogMem → State → Prop} :
    logEntry.wp (exec p) Q E k ↔ Q k.log k := Iff.rfl

@[simp] theorem wp_bword {j : ℕ} {Q : ℕ → State → Prop} :
    (bword s j).wp (exec p) Q E k ↔ Q (word (k.buf s) (4 * j)) k := Iff.rfl

@[simp] theorem wp_getAddr {j : ℕ} {Q : ℕ → State → Prop} :
    (getAddr i j).wp (exec p) Q E k ↔ Q ((k.inode i).din.addrs j) k := Iff.rfl

@[simp] theorem wp_setLh {l : List ℕ} :
    (setLh l).wp (exec p) Q E k ↔ Q () (k.setLog { k.log with lh := l }) := Iff.rfl

@[simp] theorem wp_inode {Q : Cached → State → Prop} :
    (inode i).wp (exec p) Q E k ↔ Q (k.inode i) k := Iff.rfl

@[simp] theorem wp_setInode {v : Bool} {d : Dinode} :
    (setInode i v d).wp (exec p) Q E k ↔
      Q () (k.setInode i { k.inode i with valid := v, din := d }) := Iff.rfl

end wp

end Xv6.Fs
