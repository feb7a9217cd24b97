import Mathlib.Data.List.Nodup
import Mathlib.Logic.Function.Basic

/-! # Singly linked queues

A queue is a pointer to its first element and a link from each element to the next one. `Chain next p l`
says that the links lead from `p` through the elements `l` to the end. `push` follows the links and puts
an element in at the end; the first element is taken out by following its link. -/

namespace Queue

open Function List

variable {α : Type*} {next : α → Option α} {p : Option α} {a b : α} {l : List α} {n : ℕ}

def Chain (next : α → Option α) : Option α → List α → Prop
  | p, [] => p = none
  | p, a :: l => p = some a ∧ Chain next (next a) l

/-- The last element from `a` on, if it is at most `n` elements away. -/
def last (next : α → Option α) : ℕ → α → Option α
  | 0, _ => none
  | n + 1, a =>
    match next a with
    | none => some a
    | some b => last next n b

/-- Put `b` in at the end, with at most `n` elements before it. -/
def push [DecidableEq α] (n : ℕ) (p : Option α) (next : α → Option α) (b : α) :
    Option (Option α × (α → Option α)) :=
  let next := update next b none
  match p with
  | none => some (some b, next)
  | some a => (last next n a).map fun z => (p, update next z (some b))

theorem Chain.congr {next' : α → Option α} (h : Chain next p l) (he : ∀ a ∈ l, next' a = next a) :
    Chain next' p l := by
  induction l generalizing p with
  | nil => exact h
  | cons a l ih =>
    refine ⟨h.1, ih ?_ fun x hx => he x (mem_cons_of_mem a hx)⟩
    rw [he a mem_cons_self]
    exact h.2

variable [DecidableEq α]

theorem Chain.last (h : Chain next (some a) (a :: l)) (hl : (a :: l).Nodup) (hb : b ∉ a :: l)
    (hend : next b = none) (hn : l.length ≤ n) :
    ∃ z ∈ a :: l, last next (n + 1) a = some z ∧ Chain (update next z (some b)) (some a) (a :: l ++ [b]) := by
  induction l generalizing a n with
  | nil =>
    have ha : next a = none := h.2
    have hne : b ≠ a := fun e => hb (by simp [e])
    refine ⟨a, mem_cons_self, by simp [Queue.last, ha], ?_⟩
    simp [Chain, hne, hend]
  | cons c l ih =>
    have ha : next a = some c := h.2.1
    obtain ⟨hac, hl⟩ := nodup_cons.mp hl
    obtain ⟨n, rfl⟩ := Nat.exists_eq_add_of_le' hn
    obtain ⟨z, hz, hlast, hchain⟩ := ih ⟨rfl, h.2.2⟩ hl (fun hm => hb (mem_cons_of_mem a hm))
      (Nat.le_add_left l.length n)
    refine ⟨z, mem_cons_of_mem a hz, by rw [Queue.last, ha]; exact hlast, rfl, ?_⟩
    rw [update_of_ne fun e => hac (by rwa [e]), ha]
    exact hchain

theorem Chain.push (h : Chain next p l) (hl : l.Nodup) (hb : b ∉ l) (hn : l.length ≤ n) :
    ∃ p' next', Queue.push n p next b = some (p', next') ∧ Chain next' p' (l ++ [b]) := by
  have h' : Chain (update next b none) p l :=
    h.congr fun a ha => update_of_ne (by rintro rfl; exact hb ha) _ _
  cases l with
  | nil =>
    obtain rfl : p = none := h
    exact ⟨some b, _, rfl, rfl, update_self _ _ _⟩
  | cons a l =>
    obtain rfl := h.1
    obtain ⟨n, rfl⟩ := Nat.exists_eq_add_of_le' hn
    obtain ⟨z, -, hlast, hchain⟩ := h'.last hl hb (update_self _ _ _) (Nat.le_add_left l.length n)
    refine ⟨some a, _, ?_, hchain⟩
    show (Queue.last _ (n + l.length + 1) a).map _ = _
    rw [hlast]
    rfl

end Queue
