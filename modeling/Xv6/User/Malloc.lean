import Mathlib.Algebra.Group.Nat.Defs
import Xv6.Lib.Loop
import Xv6.Lib.Runs

/-! # The user-level allocator

`malloc` and `free` of `umalloc.c`. Memory is seen through the headers: `hdr a` is the header at address
`a`, of two words. The user of a block may write anything into it behind its header (`Event.write`);
since blocks do not overlap (`heap_sound`), no header is hit by that.

* **Addresses** are 32-bit numbers and `uint` arithmetic wraps; `base` is the address of the static header,
  and a null pointer is `0`.
* **Loops.**  There are fewer than `2 ^ 32` headers, and a loop that has not ended after as many rounds has
  no result (`none`).
* **`sbrk`** returns `-1` or fresh memory above all the process has: `brk` is the end of that, and the
  answer is `none` or the distance of the new memory from `brk`. What was obtained is recorded in
  `regions`, as addresses and numbers of units. -/

namespace Xv6.Malloc

open Runs Function

/-- `sizeof(Header)`. -/
def HDR : ℕ := 8

def u32 (n : ℕ) : ℕ := n % 2 ^ 32

/-- `union header`. -/
structure Header where
  ptr : ℕ
  size : ℕ
deriving DecidableEq, Repr

structure Heap where
  hdr : ℕ → Header
  freep : ℕ
  brk : ℕ
  regions : List (ℕ × ℕ)

namespace Heap

/-- `p->s.ptr`. -/
def next (h : Heap) (p : ℕ) : ℕ := (h.hdr p).ptr

/-- `p->s.size`. -/
def size (h : Heap) (p : ℕ) : ℕ := (h.hdr p).size

/-- `p + p->s.size`. -/
def fin (h : Heap) (p : ℕ) : ℕ := u32 (p + HDR * h.size p)

def setPtr (h : Heap) (p q : ℕ) : Heap :=
  { h with hdr := update h.hdr p { h.hdr p with ptr := q } }

def setSize (h : Heap) (p n : ℕ) : Heap :=
  { h with hdr := update h.hdr p { h.hdr p with size := n } }

/-! ### `free` -/

/-- The loop of `free` ends at `p`, by its condition or by the `break`. -/
def stops (h : Heap) (bp p : ℕ) : Bool :=
  (bp > p ∧ bp < h.next p) ∨ (p ≥ h.next p ∧ (bp > p ∨ bp < h.next p))

/-- Join `bp` with the block behind it, or link it to that. -/
def joinUp (h : Heap) (bp p : ℕ) : Heap :=
  if h.fin bp = h.next p then
    (h.setSize bp (u32 (h.size bp + h.size (h.next p)))).setPtr bp (h.next (h.next p))
  else h.setPtr bp (h.next p)

/-- Join `bp` with the block before it, or link that to `bp`. -/
def joinDown (h : Heap) (bp p : ℕ) : Heap :=
  if h.fin p = bp then (h.setSize p (u32 (h.size p + h.size bp))).setPtr p (h.next bp)
  else h.setPtr p bp

def free (h : Heap) (ap : ℕ) : Option Heap :=
  let bp := u32 (ap + 2 ^ 32 - HDR)
  (Loop.walk h.next (h.stops bp) (2 ^ 32) h.freep).map fun p =>
    { (h.joinUp bp p).joinDown bp p with freep := p }

/-! ### `malloc` -/

def sbrk (h : Heap) (n : ℕ) : Option ℕ → Option ℕ × Heap
  | none => (none, h)
  | some gap =>
    if h.brk + gap + n < 2 ^ 32 then (some (h.brk + gap), { h with
        brk := h.brk + gap + n
        regions := (h.brk + gap, n / HDR) :: h.regions })
    else (none, h)

/-- `morecore(nu)`; `0` is the null pointer. -/
def morecore (h : Heap) (nu : ℕ) (answer : Option ℕ) : Option (ℕ × Heap) :=
  let nu := if nu < 4096 then 4096 else nu
  match h.sbrk (u32 (nu * HDR)) answer with
  | (none, h) => some (0, h)
  | (some hp, h) => ((h.setSize hp nu).free (u32 (hp + HDR))).map fun h => (h.freep, h)

/-- `malloc` has found `p` behind `prevp`. -/
def take (h : Heap) (nunits prevp p : ℕ) : ℕ × Heap :=
  if h.size p = nunits then
    (u32 (p + HDR), { h.setPtr prevp (h.next p) with freep := prevp })
  else
    let h := h.setSize p (h.size p - nunits)
    let p := h.fin p
    (u32 (p + HDR), { h.setSize p nunits with freep := prevp })

/-- The loop of `malloc` at `p`, with the answers `sbrk` will give. -/
def mallocLoop (nunits : ℕ) : ℕ → Heap → ℕ → ℕ → List (Option ℕ) → Option (ℕ × Heap)
  | 0, _, _, _, _ => none
  | n + 1, h, prevp, p, answers =>
    if h.size p ≥ nunits then some (h.take nunits prevp p)
    else if p = h.freep then
      match h.morecore nunits (answers.headD none) with
      | none => none
      | some (p, h) =>
        if p = 0 then some (0, h) else mallocLoop nunits n h p (h.next p) answers.tail
    else mallocLoop nunits n h p (h.next p) answers

/-- `nunits` of `malloc(nbytes)`. -/
def units (nbytes : ℕ) : ℕ := u32 (nbytes + HDR - 1) / HDR + 1

/-- The list with the static header only, if there is none. -/
def init (h : Heap) (base : ℕ) : Heap :=
  if h.freep = 0 then { h with hdr := update h.hdr base ⟨base, 0⟩, freep := base } else h

/-- `malloc(nbytes)`; `0` is the null pointer. -/
def malloc (h : Heap) (base nbytes : ℕ) (answers : List (Option ℕ)) : Option (ℕ × Heap) :=
  let h := h.init base
  mallocLoop (units nbytes) (2 ^ 32) h h.freep (h.next h.freep) answers

end Heap

/-! ### Sequences of calls -/

/-- A block in use: the address of its header and the number of bytes asked for. -/
structure Live where
  addr : ℕ
  nbytes : ℕ
deriving DecidableEq, Repr

structure System where
  heap : Heap
  live : List Live

inductive Event where
  | malloc (nbytes : ℕ) (answers : List (Option ℕ))
  | free (ap : ℕ)
  /-- The user writes to the block, behind its header. -/
  | write (b : Live) (words : ℕ → Header)

/-- What is read as a header at `a` when the block `b` has been written: something else, if it is not
outside of `b` and not the header of `b`. -/
def Heap.write (h : Heap) (b : Live) (words : ℕ → Header) : Heap :=
  { h with hdr := fun a =>
      if b.addr < a ∧ a < b.addr + HDR * h.size b.addr then words a else h.hdr a }

/-- A block is freed by the address that `malloc` returned for it, once. -/
def step (base : ℕ) (s : System) : Event → Option System
  | .malloc nbytes answers => (s.heap.malloc base nbytes answers).map fun r =>
      if r.1 = 0 then ⟨r.2, s.live⟩ else ⟨r.2, ⟨r.1 - HDR, nbytes⟩ :: s.live⟩
  | .free ap =>
    match s.live.find? fun b => b.addr + HDR = ap with
    | none => none
    | some b => (s.heap.free ap).map fun h => ⟨h, s.live.erase b⟩
  | .write b words => if b ∈ s.live then some { s with heap := s.heap.write b words } else none

/-- Neither the number of bytes asked for nor that passed to `sbrk` wraps. -/
def NoWrap (_ : System) : Event → Prop
  | .malloc nbytes _ => nbytes + HDR - 1 < 2 ^ 32 ∧ (Heap.units nbytes) * HDR < 2 ^ 32
  | _ => True

instance (s : System) (e : Event) : Decidable (NoWrap s e) :=
  match e with
  | .malloc nbytes _ =>
    inferInstanceAs (Decidable (nbytes + HDR - 1 < 2 ^ 32 ∧ (Heap.units nbytes) * HDR < 2 ^ 32))
  | .free _ | .write _ _ => inferInstanceAs (Decidable True)

/-- Before the first call: `freep` is `0`, and memory holds whatever it does. -/
def start (hdr : ℕ → Header) (brk : ℕ) : System := ⟨⟨hdr, 0, brk, []⟩, []⟩

end Xv6.Malloc
