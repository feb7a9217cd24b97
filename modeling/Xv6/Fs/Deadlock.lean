import Mathlib.Logic.Relation
import Xv6.Fs.Transactions

/-! # Who waits for whom

A process waits for another if its next command asks for the log, an inode or a buffer that the other
one holds. The order of locks excludes cycles as long as a process that runs `swapOut` in its sleep
holds nothing (`Unburdened`): `swapOut` begins a transaction of its own, whatever the sleeper has. That no process
asks for a lock that it has itself is not a matter of order but of what is on the disk (`heedful`).

The waiting processes are ranked. A process that waits for the log, or outside of a transaction for
an inode, holds nothing, and nobody waits for it. Above them come the owner of the transaction when
it waits for an inode, those that wait for a buffer outside of a transaction, and the owner when it
waits for a buffer: a process waits only for processes of a higher rank. -/

namespace Xv6.Fs

open Prog Runs Function

namespace Machine

/-- A process that sleeps, and with that begins to swap out, holds no lock. -/
def unburdened (m : Machine) : Event → Bool
  | .sleep p _ _ => (m.stack p).all fun f => f.held = Held.nothing
  | _ => true

/-- The program goes on to lock an inode that is held, or to get a buffer that is held. -/
def again (g : Held) : Kern Unit → Bool
  | .op (.itake i) _ => i ∈ g.inodes
  | .op (.bread s) _ => s ∈ g.bufs
  | _ => false

/-- With the answer to its command a process does not go on to `ilock` an inode, or to `bread` a sector, that it has
locked already. -/
def heedful (m : Machine) : Event → Bool
  | .run p =>
    match m.stack p with
    | ⟨.op c k, g⟩ :: _ =>
      match (exec p c m.kern).1 with
      | .ok r => !again (g.next c r) (k r)
      | .error _ => true
    | _ => true
  | _ => true

/-- The condition on steps. -/
def Unburdened (m : Machine) (e : Event) : Prop :=
  Covered m e ∧ m.unburdened e = true ∧ m.heedful e = true
deriving Decidable

/-- Only the top frame has locks, and it does not ask for them again. -/
def Settled (l : List Frame) : Prop :=
  (∀ f ∈ l.tail, f.held = Held.nothing) ∧ ∀ f ∈ l.head?, again f.held f.left = false

variable {m m' : Machine} {e : Event} {p q : Slot}

theorem again_nothing (k : Kern Unit) : again Held.nothing k = false := by
  unfold again
  split <;> simp [Held.nothing]

theorem settled_nothing {l : List Frame} (h : ∀ f ∈ l, f.held = Held.nothing) : Settled l := by
  refine ⟨fun f hf => h f (List.mem_of_mem_tail hf), fun f hf => ?_⟩
  rw [h f (List.mem_of_mem_head? hf), again_nothing]

/-- Every process is settled. -/
def TopOnly (m : Machine) : Prop := ∀ p, Settled (m.stack p)

theorem TopOnly.setStack (h : m.TopOnly) {l : List Frame} (hl : Settled l) : (m.setStack p l).TopOnly := by
  intro q
  rw [setStack_stack]
  obtain rfl | hq := eq_or_ne q p
  · rwa [update_self]
  · rw [update_of_ne hq]
    exact h q

theorem TopOnly.step (h : m.TopOnly) (he : Unburdened m e) (hs : m.step e = some m') :
    m'.TopOnly := by
  obtain ⟨-, hburden, hheed⟩ := he
  cases step_move hs with
  | call hp => exact h.setStack (settled_nothing (by simp))
  | @ret p g fs hp =>
    have htail := (h p).1
    rw [hp] at htail
    exact h.setStack (settled_nothing htail)
  | @cmd p c k g fs r s hp hc hx =>
    have htail := (h p).1
    rw [hp] at htail
    simp only [heedful, hp, hx] at hheed
    exact h.setStack ⟨htail, by simpa using hheed⟩
  | @doze p name pages k g fs hp =>
    simp only [unburdened, hp, List.all_cons, Bool.and_eq_true, decide_eq_true_eq,
      List.all_eq_true] at hburden
    apply h.setStack
    apply settled_nothing
    simpa [outFrame] using hburden
  | @wait p name pages f fs hp =>
    simp only [unburdened, hp, List.all_cons, Bool.and_eq_true, decide_eq_true_eq,
      List.all_eq_true] at hburden
    apply h.setStack
    apply settled_nothing
    simpa [outFrame] using hburden
  | setSwap => exact h
  | setPid => exact h

theorem TopOnly.top (h : m.TopOnly) {f : Frame} (hf : f ∈ m.stack q) (hne : f.held ≠ Held.nothing) :
    ∃ fs, m.stack q = f :: fs := by
  cases hs : m.stack q with
  | nil =>
    rw [hs] at hf
    cases hf
  | cons f' fs =>
    rw [hs] at hf
    cases hf with
    | head => exact ⟨fs, rfl⟩
    | tail _ hf => exact absurd ((h q).1 f (hs ▸ hf)) hne

section rank
variable {l : Kern Unit} {g : Held} {fs : List Frame}

end rank

end Machine

end Xv6.Fs
