import Mathlib.Data.List.Nodup
import Mathlib.Logic.Function.Basic
import Xv6.Lib.Runs

/-! # Spin locks (`spinlock.c`)

Any number of CPUs and locks. The steps: `acquire` up to its loop, a turn of the loop, `lk->cpu = cpu`,
`release` up to `lk->cpu = 0`, the `xchg`, `popcli`. `held` and `chosen`, the interrupt flag a CPU last
set, are history. -/

namespace Xv6.Spinlock

open Runs Function Option

/-- Where a CPU is: in the loop of `acquire`, behind it, before the `xchg` of `release`, behind it. -/
inductive Pc (ι : Type) where
  | run
  | spin (l : ι)
  | got (l : ι)
  | clear (l : ι)
  | pop

structure Cpu (ι : Type) where
  ncli : Int
  intena : Bool
  fl : Bool
  pc : Pc ι
  held : List ι
  chosen : Bool

structure State (ι : Type) where
  locked : ι → Bool
  owner : ι → Option ℕ
  cpu : ℕ → Cpu ι

inductive Event (ι : Type) where
  | acquire (c : ℕ) (l : ι)
  | release (c : ℕ) (l : ι)
  | next (c : ℕ)
  | setif (c : ℕ) (b : Bool)
  | sched (c : ℕ) (l : ι) (b : Bool)

variable {ι : Type} {s s' : State ι} {c : ℕ} {x : Cpu ι}

def Cpu.pushcli (x : Cpu ι) : Cpu ι :=
  { x with fl := false, ncli := x.ncli + 1, intena := if x.ncli = 0 then x.fl else x.intena }

/-- `popcli()`; `none` if it panics. -/
def Cpu.popcli (x : Cpu ι) : Option (Cpu ι) :=
  if x.fl = true ∨ x.ncli - 1 < 0 then none
  else some { x with ncli := x.ncli - 1, fl := decide (x.ncli - 1 = 0) && x.intena }

def holding (s : State ι) (c : ℕ) (l : ι) : Bool := s.locked l && s.owner l = some c

def State.set (s : State ι) (c : ℕ) (x : Cpu ι) : State ι := { s with cpu := update s.cpu c x }

/-- The CPU goes on in `acquire` or `release`. -/
def next [DecidableEq ι] (s : State ι) (c : ℕ) : Option (State ι) :=
  let x := s.cpu c
  match x.pc with
  | .run => none
  | .spin l =>
    if s.locked l = true then some s
    else some { s.set c { x with pc := .got l, held := l :: x.held } with
      locked := update s.locked l true }
  | .got l => some { s.set c { x with pc := .run } with owner := update s.owner l (some c) }
  | .clear l => some { s.set c { x with pc := .pop, held := x.held.erase l } with
      locked := update s.locked l false }
  | .pop => x.popcli.map fun x => s.set c { x with pc := .run }

/-- A call; `none` is a panic. `setif` is `sti` or `cli`; `sched`, called with the lock of the
process table, comes back with the `intena` of another kernel thread. -/
def call [DecidableEq ι] (s : State ι) : Event ι → Option (State ι)
  | .acquire c l =>
    if holding s c l = true then none else some (s.set c { (s.cpu c).pushcli with pc := .spin l })
  | .release c l =>
    if holding s c l = true then
      some { s.set c { s.cpu c with pc := .clear l } with owner := update s.owner l none }
    else none
  | .next c => next s c
  | .setif c b => some (s.set c { s.cpu c with fl := b, chosen := b })
  | .sched c l b =>
    if holding s c l = true ∧ (s.cpu c).ncli = 1 ∧ (s.cpu c).fl = false then
      some (s.set c { s.cpu c with intena := b, chosen := b })
    else none

/-- No call is made inside `acquire` and `release`, and `sti` and `cli` only without a lock. -/
def CallOk (s : State ι) : Event ι → Prop
  | .next c => (s.cpu c).pc ≠ .run
  | .acquire c _ | .release c _ | .sched c _ _ => (s.cpu c).pc = .run
  | .setif c _ => (s.cpu c).pc = .run ∧ (s.cpu c).held = []

/-- The `pushcli`s outstanding besides those for locks the CPU has. -/
def Pc.pushes : Pc ι → ℕ
  | .spin _ | .pop => 1
  | _ => 0

structure Cpu.Inv (x : Cpu ι) : Prop where
  ncli : x.ncli = (x.held.length + x.pc.pushes : ℕ)
  flag : if x.ncli = 0 then x.fl = x.chosen else x.fl = false ∧ x.intena = x.chosen
  nodup : x.held.Nodup
  mem : ∀ l, x.pc = .got l ∨ x.pc = .clear l → l ∈ x.held

structure Inv (s : State ι) : Prop where
  cpu : ∀ c, (s.cpu c).Inv
  one : ∀ c c' l, l ∈ (s.cpu c).held → l ∈ (s.cpu c').held → c = c'
  word : ∀ l, s.locked l = true ↔ ∃ c, l ∈ (s.cpu c).held
  owner : ∀ l c, s.owner l = some c ↔
    l ∈ (s.cpu c).held ∧ (s.cpu c).pc ≠ .got l ∧ (s.cpu c).pc ≠ .clear l

/-- The `popcli` of `release` does not panic, and the last one restores the flag. -/
theorem Cpu.Inv.popcli (h : x.Inv) (hp : x.pc = .pop) :
    ∃ n b, x.popcli = some { x with ncli := n, fl := b } ∧
      Inv { x with ncli := n, fl := b, pc := .run } := by
  have hn := h.ncli
  have hf := h.flag
  simp only [hp, Pc.pushes] at hn
  rw [if_neg (by omega)] at hf
  refine ⟨_, _, if_neg (by simp [hf]; omega), ?_, ?_, h.nodup, by simp⟩
  · simp [hn, Pc.pushes]
  · simp_all

theorem Inv.holding (h : Inv s) (hr : (s.cpu c).pc = .run) (l : ι) :
    holding s c l = true ↔ l ∈ (s.cpu c).held := by
  simp only [Spinlock.holding, Bool.and_eq_true, decide_eq_true_eq, h.owner, h.word, hr]
  exact ⟨fun hh => hh.2.1, fun hl => ⟨⟨c, hl⟩, hl, by simp, by simp⟩⟩

theorem Inv.setCpu (h : Inv s) (hx : x.Inv) : ∀ c', (update s.cpu c x c').Inv :=
  (forall_update_iff _ _).mpr ⟨hx, fun c' _ => h.cpu c'⟩

/-- A step in which no lock changes. -/
theorem Inv.set (h : Inv s) (hx : x.Inv) (hh : x.held = (s.cpu c).held)
    (hp : ∀ l, x.pc ≠ .got l ∧ x.pc ≠ .clear l ∧ (s.cpu c).pc ≠ .got l ∧ (s.cpu c).pc ≠ .clear l) :
    Inv (s.set c x) := by
  refine ⟨h.setCpu hx, ?_, ?_, ?_⟩ <;> simp only [State.set, update_apply]
  all_goals grind [Inv]

variable [DecidableEq ι]

theorem Inv.next (h : Inv s) (hr : (s.cpu c).pc ≠ .run) : ∃ s', next s c = some s' ∧ Inv s' := by
  have hc := h.cpu c
  have hl := hc.mem
  have hn := hc.ncli
  have he l l' := hc.nodup.mem_erase_iff (a := l') (b := l)
  cases hp : (s.cpu c).pc <;> simp only [Spinlock.next, hp]
  case run => exact absurd hp hr
  case spin l =>
    split
    · exact ⟨s, rfl, h⟩
    · refine ⟨_, rfl, h.setCpu ⟨?_, ?_, ?_, ?_⟩, ?_, ?_, ?_⟩ <;> simp only [State.set, update_apply]
      all_goals grind [Pc.pushes, Cpu.Inv, Inv]
  case got l =>
    refine ⟨_, rfl, h.setCpu ⟨?_, hc.flag, hc.nodup, by simp⟩, ?_, ?_, ?_⟩ <;>
      simp only [State.set, update_apply]
    all_goals grind [Pc.pushes, Inv]
  case clear l =>
    refine ⟨_, rfl, h.setCpu ⟨?_, hc.flag, hc.nodup.erase l, by simp⟩, ?_, ?_, ?_⟩ <;>
      simp only [State.set, update_apply]
    all_goals grind [Pc.pushes, Inv]
  case pop =>
    obtain ⟨n, b, hy, hi⟩ := hc.popcli hp
    rw [hy]
    exact ⟨_, rfl, h.set hi rfl (by simp [hp])⟩

theorem Inv.call {e : Event ι} (h : Inv s) (he : CallOk s e) (hs : call s e = some s') :
    Inv s' := by
  cases e with
  | next c =>
    obtain ⟨_, hn, hi⟩ := h.next he
    obtain rfl := some.inj (hn.symm.trans hs)
    exact hi
  | acquire c l =>
    have hr : (s.cpu c).pc = .run := he
    have hc := h.cpu c
    simp only [Spinlock.call, ite_none_left_eq_some] at hs
    cases hs.2
    refine h.set ⟨?_, ?_, hc.nodup, by simp⟩ rfl (by simp [hr]) <;>
      grind [Cpu.pushcli, Cpu.Inv, Pc.pushes]
  | release c l =>
    have hr : (s.cpu c).pc = .run := he
    have hc := h.cpu c
    have hn := hc.ncli
    simp only [Spinlock.call, ite_none_right_eq_some, h.holding hr] at hs
    cases hs.2
    refine ⟨h.setCpu ⟨?_, hc.flag, hc.nodup, by simp [hs.1]⟩, ?_, ?_, ?_⟩ <;>
      simp only [State.set, update_apply]
    all_goals grind [Pc.pushes, Inv]
  | setif c b =>
    obtain ⟨hr, h0⟩ := he
    cases hs
    have hc := h.cpu c
    exact h.set ⟨hc.ncli, by simp [hc.ncli, h0, hr, Pc.pushes], hc.nodup, hc.mem⟩ rfl (by simp [hr])
  | sched c l b =>
    have hr : (s.cpu c).pc = .run := he
    simp only [Spinlock.call, ite_none_right_eq_some] at hs
    obtain ⟨⟨_, h1, hf⟩, ⟨⟩⟩ := hs
    have hc := h.cpu c
    exact h.set ⟨hc.ncli, by simp [h1, hf], hc.nodup, hc.mem⟩ rfl (by simp [hr])

/-- No lock is taken; `fl c` is the flag of CPU `c`. -/
def initlock (fl : ℕ → Bool) : State ι where
  locked _ := false
  owner _ := none
  cpu c := ⟨0, false, fl c, .run, [], fl c⟩

/-- **Mutual exclusion** in every interleaving: no two CPUs have one lock, one that has a lock is not
interrupted, one with none has the flag it chose. `acquire` panics just for a lock the CPU has,
`release` for one it has not, and nothing panics inside them. -/
theorem mutex {fl : ℕ → Bool} (h : Reaches call CallOk (initlock fl) s) :
    (∀ c c' l, l ∈ (s.cpu c).held → l ∈ (s.cpu c').held → c = c') ∧
    ∀ c, ((s.cpu c).held ≠ [] → (s.cpu c).fl = false) ∧
      ((s.cpu c).pc ≠ .run → (next s c).isSome) ∧
      ((s.cpu c).pc = .run → ((s.cpu c).held = [] → (s.cpu c).fl = (s.cpu c).chosen) ∧
        ∀ l, (call s (.acquire c l) = none ↔ l ∈ (s.cpu c).held) ∧
          (call s (.release c l) = none ↔ l ∉ (s.cpu c).held)) := by
  have hi : Inv s := by
    apply h.invariant (fun _ _ _ => Inv.call)
    refine ⟨fun c => ⟨rfl, ?_, ?_, ?_⟩, ?_, ?_, ?_⟩ <;> simp [initlock]
  refine ⟨hi.one, fun c => ⟨fun hh => ?_, fun hr => ?_, fun hr => ⟨fun hh => ?_, fun l => ?_⟩⟩⟩
  · have hc := hi.cpu c
    have hlen := List.length_pos_iff.mpr hh
    grind [Cpu.Inv]
  · obtain ⟨_, hn, _⟩ := hi.next hr
    simp [hn]
  · simpa [(hi.cpu c).ncli, hh, hr, Pc.pushes] using (hi.cpu c).flag
  · simp [call, ← hi.holding hr l]

theorem mutex_two : ∃ s : State Unit, () ∈ (s.cpu 1).held ∧ (s.cpu 1).fl = false := by
  have hr : Reaches call CallOk (initlock fun _ => true) _ :=
    ⟨[.acquire 0 (), .acquire 1 (), .next 1],
      .cons rfl rfl (.cons rfl rfl (.cons (fun h => by cases h) rfl (.nil _)))⟩
  exact ⟨_, .head _, ((mutex hr).2 1).1 (List.cons_ne_nil _ _)⟩

end Xv6.Spinlock
