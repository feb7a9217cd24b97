import Mathlib.Data.Fin.Basic

/-! # Constants and types shared by the subsystems

The constants of `param.h` and `memlayout.h`, and `enum procstate` of `proc.h`. -/

namespace Xv6

/-- Maximum number of processes (`NPROC`, `param.h`). -/
def NPROC : ℕ := 64

/-- Maximum number of shared segments, and of pages in one (`numOfSegs`, `param.h`). -/
def numOfSegs : ℕ := 100

/-- Bytes mapped by a page (`PGSIZE`, `mmu.h`). -/
def PGSIZE : ℕ := 4096

/-- First kernel virtual address (`KERNBASE`, `memlayout.h`). -/
def KERNBASE : ℕ := 0x80000000

/-- Top of physical memory (`PHYSTOP`, `memlayout.h`). -/
def PHYSTOP : ℕ := 0xE000000

/-- A slot of `ptable.proc`. -/
abbrev Slot := Fin NPROC

/-- `initproc`: `userinit` takes the first free slot. -/
def initproc : Slot := ⟨0, by decide⟩

/-- `inswapper`: `createInternalProcess` is called next and takes the second one. -/
def inswapper : Slot := ⟨1, by decide⟩

/-- `enum procstate`. -/
inductive ProcState where
  | unused
  | embryo
  | sleeping
  | runnable
  | running
  | zombie
  | sleepingSuspended
  | runnableSuspended
deriving DecidableEq, Repr

end Xv6
