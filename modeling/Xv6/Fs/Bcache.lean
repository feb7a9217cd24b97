import Mathlib.Algebra.Ring.Nat
import Mathlib.Data.List.FinRange
import Xv6.Lib.Links
import Xv6.Lib.Runs

/-! # The buffer cache

`bio.c` with its list of buffers as the code keeps it, in the `prev` and `next` pointers. A step is a
pass of `bget` between taking `bcache.lock` and giving it up (in `sleep` or with a buffer), or what the
holder of a buffer does to it: set `B_DIRTY`, as `log_write` and `bwrite` do, have it read or written by
`iderw`, as `bread` and `bwrite` do, or release it. A process passes on the pointers only that `bget`
has returned to it. One that sleeps in `bget` may make its next pass at any time.

Besides the cache the system records who holds which buffer, which buffers have ever been handed out and
when each was last released. -/

namespace Xv6.Bio

open Runs List Function

def NBUF : ℕ := 10

instance : NeZero NBUF := ⟨by decide⟩

/-- `(uint)-1`, the device of a buffer that was never used. -/
def NODEV : ℕ := 2 ^ 32 - 1

/-- `struct buf` without its links and its data; `flags` bit by bit. -/
structure Buf where
  busy : Bool
  valid : Bool
  dirty : Bool
  dev : ℕ
  sector : ℕ

/-- `bcache`; the node `none` is `bcache.head`. -/
structure Bcache where
  buf : Fin NBUF → Buf
  links : Links (Fin NBUF)

namespace Bcache

/-- The memory before `binit`. -/
def bss : Bcache := ⟨fun _ => ⟨false, false, false, 0, 0⟩, .nil⟩

def setBuf (c : Bcache) (b : Fin NBUF) (x : Buf) : Bcache := { c with buf := update c.buf b x }

/-- One turn of the loop of `binit`. -/
def add (c : Bcache) (b : Fin NBUF) : Bcache :=
  { c.setBuf b { c.buf b with dev := NODEV } with links := c.links.push b }

def binit (c : Bcache) : Bcache := (finRange NBUF).foldl add { c with links := .nil }

/-- `b->dev == dev && b->sector == sector`. -/
def isFor (c : Bcache) (dev sector : ℕ) (b : Fin NBUF) : Bool :=
  (c.buf b).dev = dev ∧ (c.buf b).sector = sector

/-- `(b->flags & B_BUSY) == 0 && (b->flags & B_DIRTY) == 0`. -/
def isIdle (c : Bcache) (b : Fin NBUF) : Bool := !(c.buf b).busy && !(c.buf b).dirty

end Bcache

/-- How a pass of `bget` ends. -/
inductive Got where
  | sleeps
  | gets (b : Fin NBUF) (c : Bcache)

/-- A pass of `bget` from `loop`; `none` if it panics. -/
def Bcache.bget (c : Bcache) (dev sector : ℕ) : Option Got := do
  match ← Links.scan c.links.next (c.isFor dev sector) (NBUF + 1) (c.links.next none) with
  | some b =>
    if (c.buf b).busy then return .sleeps
    else return .gets b (c.setBuf b { c.buf b with busy := true })
  | none =>
    match ← Links.scan c.links.prev c.isIdle (NBUF + 1) (c.links.prev none) with
    | some b => return .gets b (c.setBuf b ⟨true, false, false, dev, sector⟩)
    | none => none

/-- What `ideintr` does to the flags of the buffer `iderw` waits for; `none` if `iderw` panics. -/
def Buf.iderw (x : Buf) : Option Buf :=
  if !x.busy ∨ (x.valid ∧ !x.dirty) then none else some { x with valid := true, dirty := false }

/-- `brelse`, `none` if it panics. -/
def Bcache.brelse (c : Bcache) (b : Fin NBUF) : Option Bcache :=
  if (c.buf b).busy then
    some { c.setBuf b { c.buf b with busy := false } with links := (c.links.unlink b).push b }
  else none

structure System where
  cache : Bcache
  /-- The call of `bget` a process is in. -/
  call : ℕ → Option (ℕ × ℕ)
  /-- The buffers `bget` has returned to a process that it has not released. -/
  held : ℕ → Fin NBUF → Bool
  /-- The buffers `bget` has ever returned. -/
  used : Fin NBUF → Bool
  /-- Somebody has asked for the device `NODEV`. -/
  asked : Bool
  /-- How often a buffer was released. -/
  clock : ℕ
  /-- The value of `clock` after the last release of a buffer, `0` if there was none. -/
  stamp : Fin NBUF → ℕ

def System.start : System :=
  ⟨Bcache.binit .bss, fun _ => none, fun _ _ => false, fun _ => false, false, 0, fun _ => 0⟩

inductive Event where
  /-- Process `q` calls `bget`. -/
  | bget (q dev sector : ℕ)
  /-- It makes a pass. -/
  | pass (q : ℕ)
  | dirty (q : ℕ) (b : Fin NBUF)
  | iderw (q : ℕ) (b : Fin NBUF)
  | brelse (q : ℕ) (b : Fin NBUF)

namespace System

def setHeld (s : System) (q : ℕ) (b : Fin NBUF) (h : Bool) : ℕ → Fin NBUF → Bool :=
  update s.held q (update (s.held q) b h)

/-- A pass of `bget` by `q`. -/
def pass (s : System) (q dev sector : ℕ) : Option System := do
  match ← s.cache.bget dev sector with
  | .sleeps => return s
  | .gets b c =>
    return { s with
      cache := c, call := update s.call q none, held := s.setHeld q b true,
      used := update s.used b true }

def brelse (s : System) (q : ℕ) (b : Fin NBUF) : Option System := do
  let c ← s.cache.brelse b
  return { s with
    cache := c, held := s.setHeld q b false, clock := s.clock + 1,
    stamp := update s.stamp b (s.clock + 1) }

end System

def step (s : System) : Event → Option System
  | .bget q dev sector =>
    match s.call q with
    | none => some { s with
        call := update s.call q (some (dev, sector)), asked := s.asked || dev = NODEV }
    | some _ => none
  | .pass q =>
    match s.call q with
    | none => none
    | some (dev, sector) => s.pass q dev sector
  | .dirty q b =>
    if s.held q b then
      some { s with cache := s.cache.setBuf b { s.cache.buf b with dirty := true } }
    else none
  | .iderw q b =>
    if s.held q b then
      (s.cache.buf b).iderw.map fun x => { s with cache := s.cache.setBuf b x }
    else none
  | .brelse q b => if s.held q b then s.brelse q b else none

/-! ### The functions of `bio.c` -/

namespace Bcache

variable {c : Bcache} {order : List (Fin NBUF)} {dev sector : ℕ}

theorem setBuf_self (c : Bcache) (b : Fin NBUF) (x : Buf) : (c.setBuf b x).buf b = x :=
  update_self ..

theorem setBuf_of_ne {b b' : Fin NBUF} (h : b' ≠ b) (x : Buf) : (c.setBuf b x).buf b' = c.buf b' :=
  update_of_ne h ..

/-- The list of all buffers, in the order of `next`. -/
def Listed (c : Bcache) (order : List (Fin NBUF)) : Prop := c.links.Linked order ∧ ∀ b, b ∈ order

theorem Listed.length (h : c.Listed order) : order.length = NBUF := by
  have hperm : order.Perm (finRange NBUF) :=
    (perm_ext_iff_of_nodup h.1.nodup (nodup_finRange NBUF)).mpr fun b =>
      iff_of_true (h.2 b) (mem_finRange b)
  rw [hperm.length_eq, length_finRange]

/-- What a pass of `bget` does: it waits for the buffer of the sector, takes it, or takes another one if
there is none. -/
inductive Pass (c : Bcache) (dev sector : ℕ) : Got → Prop
  | sleeps : Pass c dev sector .sleeps
  | hit (b : Fin NBUF) : (c.buf b).dev = dev → (c.buf b).sector = sector → (c.buf b).busy = false →
      Pass c dev sector (.gets b (c.setBuf b { c.buf b with busy := true }))
  | recycle (b : Fin NBUF) : (∀ b', ¬ ((c.buf b').dev = dev ∧ (c.buf b').sector = sector)) →
      (c.buf b).busy = false → (c.buf b).dirty = false →
      Pass c dev sector (.gets b (c.setBuf b ⟨true, false, false, dev, sector⟩))

theorem Listed.bget (h : c.Listed order) {g : Got} (hg : c.bget dev sector = some g) :
    c.Pass dev sector g := by
  have hlen : order.length < NBUF + 1 := by rw [h.length]; exact Nat.lt_succ_self _
  simp only [Bcache.bget, h.1.scan_next _ hlen, h.1.scan_prev _ hlen, Option.bind_eq_bind,
    Option.bind_some] at hg
  cases hfind : order.find? (c.isFor dev sector) with
  | some b =>
    have hb : (c.buf b).dev = dev ∧ (c.buf b).sector = sector := by
      simpa [isFor] using find?_some hfind
    simp only [hfind] at hg
    cases hbusy : (c.buf b).busy with
    | true =>
      simp only [hbusy, if_pos, Option.pure_def, Option.some.injEq] at hg
      exact hg ▸ .sleeps
    | false =>
      simp only [hbusy, Bool.false_eq_true, if_false, Option.pure_def, Option.some.injEq] at hg
      exact hg ▸ .hit b hb.1 hb.2 hbusy
  | none =>
    have hnone : ∀ b', ¬ ((c.buf b').dev = dev ∧ (c.buf b').sector = sector) := fun b' hb' =>
      find?_eq_none.mp hfind b' (h.2 b') (decide_eq_true hb')
    simp only [hfind] at hg
    cases hidle : order.reverse.find? c.isIdle with
    | none => simp [hidle] at hg
    | some b =>
      have hb := find?_some hidle
      simp only [isIdle, Bool.and_eq_true, Bool.not_eq_true'] at hb
      simp only [hidle, Option.pure_def, Option.some.injEq] at hg
      exact hg ▸ .recycle b hnone hb.1 hb.2

end Bcache

/-- What a step does. -/
inductive Move (s : System) : System → Prop
  | call (q dev sector : ℕ) : Move s { s with
      call := update s.call q (some (dev, sector)), asked := s.asked || dev = NODEV }
  | sleeps : Move s s
  | gets (q dev sector : ℕ) (b : Fin NBUF) (c : Bcache) : s.call q = some (dev, sector) →
      s.cache.Pass dev sector (.gets b c) → Move s { s with
        cache := c, call := update s.call q none, held := s.setHeld q b true,
        used := update s.used b true }
  | flags (q : ℕ) (b : Fin NBUF) (x : Buf) : s.held q b = true → x.busy = (s.cache.buf b).busy →
      x.dev = (s.cache.buf b).dev → x.sector = (s.cache.buf b).sector →
      Move s { s with cache := s.cache.setBuf b x }
  | brelse (q : ℕ) (b : Fin NBUF) : s.held q b = true → Move s { s with
      cache := { s.cache.setBuf b { s.cache.buf b with busy := false } with
        links := (s.cache.links.unlink b).push b },
      held := s.setHeld q b false, clock := s.clock + 1,
      stamp := update s.stamp b (s.clock + 1) }

theorem step_move {s s' : System} {e : Event} {order : List (Fin NBUF)} (h : s.cache.Listed order)
    (hs : step s e = some s') : Move s s' := by
  cases e with
  | bget q dev sector =>
    simp only [step] at hs
    split at hs
    · cases hs
      exact .call q dev sector
    · cases hs
  | pass q =>
    simp only [step] at hs
    split at hs
    · cases hs
    · rename_i dev sector hcall
      obtain ⟨g, hg, hs⟩ := Option.bind_eq_some_iff.mp hs
      cases g with
      | sleeps =>
        cases hs
        exact .sleeps
      | gets b c =>
        cases hs
        exact .gets q dev sector b c hcall (h.bget hg)
  | dirty q b =>
    obtain ⟨hheld, ⟨⟩⟩ := Option.ite_none_right_eq_some.mp hs
    exact .flags q b _ hheld rfl rfl rfl
  | iderw q b =>
    obtain ⟨hheld, hs⟩ := Option.ite_none_right_eq_some.mp hs
    obtain ⟨x, hx, rfl⟩ := Option.map_eq_some_iff.mp hs
    obtain ⟨_, ⟨⟩⟩ := Option.ite_none_left_eq_some.mp hx
    exact .flags q b _ hheld rfl rfl rfl
  | brelse q b =>
    obtain ⟨hheld, hs⟩ := Option.ite_none_right_eq_some.mp hs
    obtain ⟨c, hc, ⟨⟩⟩ := Option.bind_eq_some_iff.mp hs
    obtain ⟨_, ⟨⟩⟩ := Option.ite_none_right_eq_some.mp hc
    exact .brelse q b hheld

/-! ### Every run -/

/-- `b` was released after `b'`, or neither ever was. -/
def System.Later (s : System) (b b' : Fin NBUF) : Prop :=
  s.stamp b' < s.stamp b ∨ (s.stamp b = 0 ∧ s.stamp b' = 0)

/-- The list of the buffers, the most recently released first. -/
structure Ordered (s : System) (order : List (Fin NBUF)) : Prop where
  listed : s.cache.Listed order
  later : order.Pairwise s.Later
  stamp : ∀ b, s.stamp b ≤ s.clock

/-- Two buffers are not for one sector, unless they were never used. -/
structure Distinct (s : System) : Prop where
  key : ∀ b b', b ≠ b' → (s.cache.buf b).dev = (s.cache.buf b').dev →
    (s.cache.buf b).sector = (s.cache.buf b').sector → (s.cache.buf b).dev = NODEV
  call : s.asked = false → ∀ q dev sector, s.call q = some (dev, sector) → dev ≠ NODEV
  used : s.asked = false → ∀ b, s.used b = true → (s.cache.buf b).dev ≠ NODEV

/-- A busy buffer has one holder. -/
structure Held (s : System) : Prop where
  one : ∀ q q' b, s.held q b = true → s.held q' b = true → q = q'
  busy : ∀ b, (s.cache.buf b).busy = true ↔ ∃ q, s.held q b = true

namespace Bcache.Pass

variable {c c' : Bcache} {dev sector : ℕ} {b : Fin NBUF}

theorem links (h : c.Pass dev sector (.gets b c')) : c'.links = c.links := by
  cases h <;> rfl

theorem buf_of_ne (h : c.Pass dev sector (.gets b c')) {b' : Fin NBUF} (hb : b' ≠ b) :
    c'.buf b' = c.buf b' := by
  cases h <;> exact setBuf_of_ne hb _

/-- A buffer that is handed out was not busy, is so now, and is for the sector asked for. -/
theorem buf_self (h : c.Pass dev sector (.gets b c')) :
    (c.buf b).busy = false ∧ (c'.buf b).busy = true ∧ (c'.buf b).dev = dev ∧
      (c'.buf b).sector = sector := by
  cases h with
  | hit _ hdev hsector hbusy => exact ⟨hbusy, by simp [setBuf_self, hdev, hsector]⟩
  | recycle _ _ hbusy _ => exact ⟨hbusy, by simp [setBuf_self]⟩

end Bcache.Pass

section moves
variable {s s' : System} {order : List (Fin NBUF)} {b : Fin NBUF}

theorem Ordered.move (h : Ordered s order) (hm : Move s s') : ∃ order', Ordered s' order' := by
  obtain ⟨⟨hlinked, hall⟩, hlater, hstamp⟩ := h
  cases hm with
  | call q dev sector => exact ⟨order, ⟨hlinked, hall⟩, hlater, hstamp⟩
  | sleeps => exact ⟨order, ⟨hlinked, hall⟩, hlater, hstamp⟩
  | gets q dev sector b c _ hpass => exact ⟨order, ⟨hpass.links ▸ hlinked, hall⟩, hlater, hstamp⟩
  | flags q b x _ _ _ _ => exact ⟨order, ⟨hlinked, hall⟩, hlater, hstamp⟩
  | brelse q b _ =>
    have hother : ∀ b' ∈ order.erase b, b' ≠ b := fun b' hb' =>
      (hlinked.nodup.mem_erase_iff.mp hb').1
    refine ⟨b :: order.erase b, ⟨hlinked.moveFront (hall b), fun b' => ?_⟩, ?_, fun b' => ?_⟩
    · by_cases hb' : b' = b
      · exact hb' ▸ mem_cons_self
      · exact mem_cons_of_mem _ ((mem_erase_of_ne hb').mpr (hall b'))
    · refine pairwise_cons.mpr ⟨fun b' hb' => .inl ?_, ?_⟩
      · simpa [hother b' hb'] using Nat.lt_succ_of_le (hstamp b')
      · refine (hlater.sublist erase_sublist).imp_of_mem fun hb1 hb2 hlt => ?_
        simpa [System.Later, hother _ hb1, hother _ hb2] using hlt
    · by_cases hb' : b' = b
      · simp [hb']
      · simpa [hb'] using Nat.le_succ_of_le (hstamp b')

/-- The sectors of the buffers: no step changes them but one that takes an idle buffer for a sector that
has none. -/
inductive Keys (s s' : System) : Prop
  | same : (∀ b, (s'.cache.buf b).dev = (s.cache.buf b).dev ∧
      (s'.cache.buf b).sector = (s.cache.buf b).sector) → Keys s s'
  | recycle (q : ℕ) (b : Fin NBUF) :
      s.call q = some ((s'.cache.buf b).dev, (s'.cache.buf b).sector) →
      (∀ b', ¬ ((s.cache.buf b').dev = (s'.cache.buf b).dev ∧
        (s.cache.buf b').sector = (s'.cache.buf b).sector)) →
      (s.cache.buf b).busy = false → (s.cache.buf b).dirty = false →
      (∀ b', b' ≠ b → s'.cache.buf b' = s.cache.buf b') → Keys s s'

theorem same_setBuf {c : Bcache} {x : Buf} (hdev : x.dev = (c.buf b).dev)
    (hsector : x.sector = (c.buf b).sector) (b' : Fin NBUF) :
    ((c.setBuf b x).buf b').dev = (c.buf b').dev ∧
      ((c.setBuf b x).buf b').sector = (c.buf b').sector := by
  by_cases hb : b' = b
  · subst hb
    rw [Bcache.setBuf_self]
    exact ⟨hdev, hsector⟩
  · rw [Bcache.setBuf_of_ne hb]
    exact ⟨rfl, rfl⟩

theorem Move.keys (hm : Move s s') : Keys s s' := by
  cases hm with
  | call q dev sector => exact .same fun _ => ⟨rfl, rfl⟩
  | sleeps => exact .same fun _ => ⟨rfl, rfl⟩
  | flags q b x _ _ hdev hsector => exact .same (same_setBuf hdev hsector)
  | brelse q b _ => exact .same (same_setBuf rfl rfl)
  | gets q dev sector b c hcall hpass =>
    cases hpass with
    | hit _ hdev hsector hbusy => exact .same (same_setBuf rfl rfl)
    | recycle _ hnone hbusy hdirty =>
      refine .recycle q b ?_ ?_ hbusy hdirty fun b' hb' => Bcache.setBuf_of_ne hb' _
      · simpa only [Bcache.setBuf_self] using hcall
      · simpa only [Bcache.setBuf_self] using hnone

/-- A buffer that is busy or dirty stays the buffer of its sector. -/
theorem Move.same_sector (hm : Move s s')
    (hb : (s.cache.buf b).busy = true ∨ (s.cache.buf b).dirty = true) :
    (s'.cache.buf b).dev = (s.cache.buf b).dev ∧ (s'.cache.buf b).sector = (s.cache.buf b).sector := by
  cases hm.keys with
  | same hsame => exact hsame b
  | recycle q b' _ _ hbusy hdirty hother =>
    have hne : b ≠ b' := by
      rintro rfl
      simp [hbusy, hdirty] at hb
    rw [hother b hne]
    exact ⟨rfl, rfl⟩

theorem Move.asked (hm : Move s s') (h : s'.asked = false) : s.asked = false := by
  cases hm with
  | call q dev sector => exact (Bool.or_eq_false_iff.mp h).1
  | sleeps => exact h
  | gets q dev sector b c _ _ => exact h
  | flags q b x _ _ _ _ => exact h
  | brelse q b _ => exact h

theorem Move.call_dev (hm : Move s s') (h : s'.asked = false)
    (hcall : ∀ q dev sector, s.call q = some (dev, sector) → dev ≠ NODEV) :
    ∀ q dev sector, s'.call q = some (dev, sector) → dev ≠ NODEV := by
  cases hm with
  | call q dev sector =>
    intro q' dev' sector' hq'
    by_cases hq : q' = q
    · subst hq
      obtain ⟨rfl, rfl⟩ : dev = dev' ∧ sector = sector' := by simpa using hq'
      simpa using (Bool.or_eq_false_iff.mp h).2
    · exact hcall q' dev' sector' (by simpa [hq] using hq')
  | sleeps => exact hcall
  | gets q dev sector b c _ _ =>
    intro q' dev' sector' hq'
    by_cases hq : q' = q
    · simp [hq] at hq'
    · exact hcall q' dev' sector' (by simpa [hq] using hq')
  | flags q b x _ _ _ _ => exact hcall
  | brelse q b _ => exact hcall

theorem Move.used_dev (hm : Move s s') (hcall : ∀ q dev sector, s.call q = some (dev, sector) → dev ≠ NODEV)
    (hused : ∀ b, s.used b = true → (s.cache.buf b).dev ≠ NODEV) :
    ∀ b, s'.used b = true → (s'.cache.buf b).dev ≠ NODEV := by
  cases hm with
  | call q dev sector => exact hused
  | sleeps => exact hused
  | gets q dev sector b c hq hpass =>
    intro b' hb'
    by_cases hb : b' = b
    · rw [hb, hpass.buf_self.2.2.1]
      exact hcall q dev sector hq
    · rw [hpass.buf_of_ne hb]
      exact hused b' (by simpa [hb] using hb')
  | flags q b x _ _ hdev hsector =>
    intro b' hb'
    rw [(same_setBuf hdev hsector b').1]
    exact hused b' hb'
  | brelse q b _ =>
    intro b' hb' hdev
    have hsame := same_setBuf (c := s.cache) (x := { s.cache.buf b with busy := false }) rfl rfl b'
    exact hused b' hb' (hsame.1.symm.trans hdev)

theorem Keys.distinct (hk : Keys s s') (h : ∀ b b', b ≠ b' → (s.cache.buf b).dev = (s.cache.buf b').dev →
      (s.cache.buf b).sector = (s.cache.buf b').sector → (s.cache.buf b).dev = NODEV)
    {b' : Fin NBUF} (hne : b ≠ b') (hdev : (s'.cache.buf b).dev = (s'.cache.buf b').dev)
    (hsector : (s'.cache.buf b).sector = (s'.cache.buf b').sector) :
    (s'.cache.buf b).dev = NODEV := by
  cases hk with
  | same hsame =>
    simp only [hsame] at hdev hsector ⊢
    exact h b b' hne hdev hsector
  | recycle q b0 _ hnone _ _ hother =>
    have hb : b ≠ b0 := by
      rintro rfl
      rw [hother b' hne.symm] at hdev hsector
      exact hnone b' ⟨hdev.symm, hsector.symm⟩
    have hb' : b' ≠ b0 := by
      rintro rfl
      rw [hother b hb] at hdev hsector
      exact hnone b ⟨hdev, hsector⟩
    rw [hother b hb] at hdev hsector ⊢
    rw [hother b' hb'] at hdev hsector
    exact h b b' hne hdev hsector

theorem Distinct.move (h : Distinct s) (hm : Move s s') : Distinct s' where
  key _ _ hne := hm.keys.distinct h.key hne
  call hasked := hm.call_dev hasked (h.call (hm.asked hasked))
  used hasked := hm.used_dev (h.call (hm.asked hasked)) (h.used (hm.asked hasked))

theorem setHeld_iff (s : System) (q : ℕ) (b : Fin NBUF) (v : Bool) (q' : ℕ) (b' : Fin NBUF) :
    s.setHeld q b v q' b' = if q' = q ∧ b' = b then v else s.held q' b' := by
  by_cases hq : q' = q
  · subst hq
    by_cases hb : b' = b
    · simp [System.setHeld, hb]
    · simp [System.setHeld, hb]
  · simp [System.setHeld, hq]

theorem Held.move (h : Held s) (hm : Move s s') : Held s' := by
  obtain ⟨hone, hbusy⟩ := h
  cases hm with
  | call q dev sector => exact ⟨hone, hbusy⟩
  | sleeps => exact ⟨hone, hbusy⟩
  | gets q dev sector b c _ hpass =>
    obtain ⟨hidle, hget, _, _⟩ := hpass.buf_self
    have hnone : ∀ q', s.held q' b = false := fun q' => by
      by_contra hq'
      have hb := (hbusy b).mpr ⟨q', by simpa using hq'⟩
      rw [hidle] at hb
      cases hb
    constructor
    · intro q1 q2 b' h1 h2
      simp only [setHeld_iff] at h1 h2
      by_cases hb : b' = b
      · subst hb
        simp only [and_true, hnone, Bool.if_false_right, Bool.and_true, decide_eq_true_eq] at h1 h2
        rw [h1, h2]
      · simp only [hb, and_false, if_false] at h1 h2
        exact hone q1 q2 b' h1 h2
    · intro b'
      by_cases hb : b' = b
      · subst hb
        exact iff_of_true hget ⟨q, by simp [setHeld_iff]⟩
      · simpa [setHeld_iff, hb, hpass.buf_of_ne hb] using hbusy b'
  | flags q b x _ hx _ _ =>
    refine ⟨hone, fun b' => ?_⟩
    by_cases hb : b' = b
    · subst hb
      rw [Bcache.setBuf_self, hx]
      exact hbusy b'
    · rw [Bcache.setBuf_of_ne hb]
      exact hbusy b'
  | brelse q b hheld =>
    constructor
    · intro q1 q2 b' h1 h2
      simp only [setHeld_iff, Bool.if_false_left, Bool.and_eq_true] at h1 h2
      exact hone q1 q2 b' h1.2 h2.2
    · intro b'
      by_cases hb : b' = b
      · subst hb
        refine iff_of_false (by simp [Bcache.setBuf_self]) ?_
        rintro ⟨q', hq'⟩
        simp only [setHeld_iff, and_true, Bool.if_false_left, Bool.and_eq_true, Bool.not_eq_true',
          decide_eq_false_iff_not] at hq'
        exact hq'.1 (hone q' q b' hq'.2 hheld)
      · simpa [setHeld_iff, hb, Bcache.setBuf_of_ne hb] using hbusy b'

end moves

/-- What holds in every state. -/
structure Inv (s : System) : Prop where
  ordered : ∃ order, Ordered s order
  distinct : Distinct s
  held : Held s

theorem Inv.step {s s' : System} {e : Event} (h : Inv s) (hs : step s e = some s') : Inv s' := by
  obtain ⟨order, horder⟩ := h.ordered
  have hm := step_move horder.listed hs
  exact ⟨horder.move hm, h.distinct.move hm, h.held.move hm⟩

theorem foldl_add {c : Bcache} {order : List (Fin NBUF)} (h : c.links.Linked order)
    (l : List (Fin NBUF)) (hl : (l ++ order).Nodup) :
    (l.foldl Bcache.add c).links.Linked (l.reverse ++ order) ∧
      ∀ b, (l.foldl Bcache.add c).buf b = if b ∈ l then { c.buf b with dev := NODEV } else c.buf b := by
  induction l generalizing c order with
  | nil => exact ⟨h, fun _ => by simp⟩
  | cons b l ih =>
    rw [cons_append] at hl
    have hb := (nodup_cons.mp hl).1
    rw [mem_append, not_or] at hb
    obtain ⟨hlinked, hbuf⟩ := ih (c := c.add b) (h.push hb.2) (nodup_middle.mpr hl)
    refine ⟨by simpa using hlinked, fun b' => ?_⟩
    rw [foldl_cons, hbuf b']
    by_cases hb' : b' = b
    · subst hb'
      simp [hb.1, Bcache.add, Bcache.setBuf_self]
    · simp [hb', Bcache.add, Bcache.setBuf_of_ne hb']

theorem binit_listed : (Bcache.binit .bss).Listed (finRange NBUF).reverse := by
  have h := (foldl_add (c := .bss) Links.linked_nil (finRange NBUF)
    (by simpa using nodup_finRange NBUF)).1
  rw [append_nil] at h
  exact ⟨h, fun b => mem_reverse.mpr (mem_finRange b)⟩

theorem binit_buf (b : Fin NBUF) : (Bcache.binit .bss).buf b = ⟨false, false, false, NODEV, 0⟩ := by
  have h := (foldl_add (c := .bss) Links.linked_nil (finRange NBUF)
    (by simpa using nodup_finRange NBUF)).2 b
  rw [if_pos (mem_finRange b)] at h
  exact h

theorem inv_start : Inv .start where
  ordered := ⟨_, binit_listed, pairwise_of_forall fun _ _ => .inr ⟨rfl, rfl⟩, fun _ => Nat.le_refl 0⟩
  distinct := ⟨fun b b' _ _ _ => by simp [System.start, binit_buf], fun _ _ _ _ h => (by cases h),
    fun _ _ h => (by cases h)⟩
  held := ⟨fun _ _ _ h => (by cases h), fun b => by simp [System.start, binit_buf]⟩

theorem inv_of_reaches {s : System} (h : Reaches step Always .start s) : Inv s :=
  h.invariant (fun _ _ _ hI _ hs => hI.step hs) inv_start

/-- The buffer cache in every state: the list goes once through all buffers, the most recently released
first, and back to the head, and `prev` is the inverse of `next`; no two buffers are for one sector,
unless they were never used; the busy buffers are those that have a holder, and they have one; and
no step gives a busy or dirty buffer to another sector. -/
theorem bcache_represents {s : System} (h : Reaches step Always .start s) :
    (∃ order : List (Fin NBUF), order.Nodup ∧ (∀ b, b ∈ order) ∧
      (∀ i ≤ NBUF, s.cache.links.next^[i + 1] none = order[i]?) ∧ order.Pairwise s.Later) ∧
    (∀ x, s.cache.links.prev (s.cache.links.next x) = x ∧
      s.cache.links.next (s.cache.links.prev x) = x) ∧
    (∀ b b', b ≠ b' → (s.cache.buf b).dev = (s.cache.buf b').dev →
      (s.cache.buf b).sector = (s.cache.buf b').sector →
      (s.cache.buf b).dev = NODEV ∧ (s.asked = false → s.used b = false ∧ s.used b' = false)) ∧
    (∀ b, ((s.cache.buf b).busy = true ↔ ∃ q, s.held q b = true) ∧
      ∀ q q', s.held q b = true → s.held q' b = true → q = q') ∧
    ∀ e s' b, step s e = some s' → (s.cache.buf b).busy = true ∨ (s.cache.buf b).dirty = true →
      (s'.cache.buf b).dev = (s.cache.buf b).dev ∧
        (s'.cache.buf b).sector = (s.cache.buf b).sector := by
  obtain ⟨⟨order, hord⟩, hdistinct, hheld⟩ := inv_of_reaches h
  obtain ⟨hlinked, hall⟩ := hord.listed
  have hnode : ∀ x : Option (Fin NBUF), x ∈ none :: order.map some := by
    rintro (_ | b)
    · exact mem_cons_self
    · exact mem_cons_of_mem _ (mem_map_of_mem (hall b))
  refine ⟨⟨order, hlinked.nodup, hall, fun i hi => hlinked.iterate (by rwa [hord.listed.length]), hord.later⟩,
    fun x => ⟨hlinked.prev_next (hnode x), hlinked.next_prev (hnode x)⟩, fun b b' hne hdev hsector => ?_,
    fun b => ⟨hheld.busy b, fun q q' => hheld.one q q' b⟩,
    fun e s' b hs hb => (step_move hord.listed hs).same_sector hb⟩
  have hnodev := hdistinct.key b b' hne hdev hsector
  refine ⟨hnodev, fun hasked => ⟨?_, ?_⟩⟩
  · exact Bool.eq_false_iff.mpr fun hused => hdistinct.used hasked b hused hnodev
  · exact Bool.eq_false_iff.mpr fun hused => hdistinct.used hasked b' hused (hdev ▸ hnodev)

/-- A sector is read and its buffer released while another process waits for it and then takes it. -/
theorem bcache_represents_handover : ∃ s, Reaches step Always .start s ∧
    ((s.cache.buf 0).sector = 5 ∧ s.cache.links.next none = some 0 ∧ s.held 1 0 = true) ∧
    ∀ q, s.held q 0 = true → q = 1 := by
  obtain ⟨s, hs, htest⟩ := reaches_of_exec step Always .start
    [.bget 0 1 5, .pass 0, .bget 1 1 5, .pass 1, .iderw 0 0, .dirty 0 0, .brelse 0 0, .pass 1]
    (fun s => (s.cache.buf 0).sector = 5 ∧ s.cache.links.next none = some 0 ∧ s.held 1 0 = true)
    (by decide +kernel)
  have hrun := of_decide_eq_true htest
  exact ⟨s, hs, hrun, fun q hq => ((bcache_represents hs).2.2.2.1 0).2 q 1 hq hrun.2.2⟩

end Xv6.Bio
