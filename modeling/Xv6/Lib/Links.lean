import Mathlib.Data.List.Chain
import Mathlib.Data.List.Nodup
import Mathlib.Logic.Function.Basic
import Mathlib.Logic.Function.Iterate

/-! # Circular doubly linked lists

Nodes are `some b` for the elements `b` of a type and `none` for the head of the list. `Linked L l` says
that the links `L` run from the head through the elements `l` back to the head, in both directions.

The two operations are taking an element out (`Links.unlink`) and putting one in after the head
(`Links.push`), each written as the assignments a program makes. A loop over the list is `scan`: along
`next` it finds the first element with a property, along `prev` the last one. -/

/-- The links of the nodes. -/
structure Links (ι : Type*) where
  next : Option ι → Option ι
  prev : Option ι → Option ι

namespace Links

open Function List

variable {ι : Type*} {L : Links ι} {b : ι} {x y u v : Option ι} {l l1 l2 : List ι} {fuel : ℕ}

/-- The links of `x` and `y` make them neighbours. -/
def Joined (L : Links ι) (x y : Option ι) : Prop := L.next x = y ∧ L.prev y = x

/-- The links run through the elements of `l`. -/
structure Linked (L : Links ι) (l : List ι) : Prop where
  nodup : l.Nodup
  chain : List.IsChain L.Joined (none :: (l.map some ++ [none]))

/-- The links with the two directions exchanged. -/
def flip (L : Links ι) : Links ι := ⟨L.prev, L.next⟩

/-- The links of a head alone. -/
def nil : Links ι := ⟨fun _ => none, fun _ => none⟩

theorem linked_nil : (nil : Links ι).Linked [] := ⟨nodup_nil, by simp [Joined, nil]⟩

theorem Linked.joined (h : L.Linked l) (hx : x ∈ none :: l.map some) : L.Joined x (L.next x) := by
  obtain ⟨as, bs, hsplit⟩ := append_of_mem hx
  have hchain := h.chain
  rw [← cons_append, hsplit, append_assoc, cons_append] at hchain
  obtain ⟨y, cs, hy⟩ : ∃ y cs, bs ++ [none] = y :: cs := exists_cons_of_ne_nil (by simp)
  rw [hy, isChain_append_cons_cons] at hchain
  have hxy := hchain.2.1
  rwa [← hxy.1] at hxy

theorem Linked.flip (h : L.Linked l) : L.flip.Linked l.reverse := by
  refine ⟨nodup_reverse.mpr h.nodup, ?_⟩
  have hrev : (none :: (l.reverse.map some ++ [none]) : List (Option ι)) =
      (none :: (l.map some ++ [none])).reverse := by simp
  rw [hrev, isChain_reverse]
  exact h.chain.imp fun _ _ hxy => ⟨hxy.2, hxy.1⟩

theorem Linked.prev_next (h : L.Linked l) (hx : x ∈ none :: l.map some) : L.prev (L.next x) = x :=
  (h.joined hx).2

theorem Linked.next_prev (h : L.Linked l) (hx : x ∈ none :: l.map some) : L.next (L.prev x) = x :=
  h.flip.prev_next (by simpa using hx)

/-- The node that `i + 1` steps from the head lead to; the head itself comes after all elements. -/
theorem Linked.iterate (h : L.Linked l) {i : ℕ} (hi : i ≤ l.length) : L.next^[i + 1] none = l[i]? := by
  have hstep := isChain_iff_getElem.mp h.chain
  have hnode : ∀ j, (hj : j < (none :: (l.map some ++ [none])).length) →
      L.next^[j] none = (none :: (l.map some ++ [none]))[j] := by
    intro j
    induction j with
    | zero => exact fun _ => rfl
    | succ j ih =>
      intro hj
      rw [iterate_succ_apply', ih (by omega)]
      exact (hstep j hj).1
  rw [hnode (i + 1) (by simp; omega), getElem_cons_succ]
  rcases Nat.lt_or_ge i l.length with hlt | hge
  · rw [getElem_append_left (by simpa using hlt), getElem_map, getElem?_eq_getElem hlt]
  · rw [getElem_append_right (by simpa using hge), getElem?_eq_none hge]
    simp

/-! ### Loops over the list -/

/-- The loop from node `x` along `succ`, up to the first element with the property `p` or to the head;
`none` if `fuel` steps were not enough. -/
def scan (succ : Option ι → Option ι) (p : ι → Bool) : ℕ → Option ι → Option (Option ι)
  | 0, _ => none
  | _ + 1, none => some none
  | fuel + 1, some b => if p b then some (some b) else scan succ p fuel (succ (some b))

theorem scan_chain (p : ι → Bool)
    (h : List.IsChain L.Joined (x :: (l.map some ++ [none]))) (hfuel : l.length < fuel) :
    scan L.next p fuel (L.next x) = some (l.find? p) := by
  induction l generalizing x fuel with
  | nil =>
    obtain ⟨fuel, rfl⟩ := Nat.exists_eq_add_one_of_ne_zero (Nat.ne_zero_of_lt hfuel)
    have hnext : L.next x = none := (isChain_cons_cons.mp h).1.1
    rw [hnext, scan, find?_nil]
  | cons b l ih =>
    obtain ⟨fuel, rfl⟩ := Nat.exists_eq_add_one_of_ne_zero (Nat.ne_zero_of_lt hfuel)
    rw [map_cons, cons_append, isChain_cons_cons] at h
    rw [h.1.1, scan, find?_cons]
    cases p b with
    | true => rfl
    | false => exact ih h.2 (Nat.lt_of_succ_lt_succ hfuel)

/-- Along `next`: the first element with the property. -/
theorem Linked.scan_next (h : L.Linked l) (p : ι → Bool) (hfuel : l.length < fuel) :
    scan L.next p fuel (L.next none) = some (l.find? p) :=
  scan_chain p h.chain hfuel

theorem Linked.scan_prev (h : L.Linked l) (p : ι → Bool) (hfuel : l.length < fuel) :
    scan L.prev p fuel (L.prev none) = some (l.reverse.find? p) :=
  h.flip.scan_next p (by simpa using hfuel)

/-! ### The two operations -/

variable [DecidableEq ι]

/-- `x->next = y`. -/
def setNext (L : Links ι) (x y : Option ι) : Links ι := { L with next := update L.next x y }

/-- `x->prev = y`. -/
def setPrev (L : Links ι) (x y : Option ι) : Links ι := { L with prev := update L.prev x y }

/-- Take `b` out of the list. -/
def unlink (L : Links ι) (b : ι) : Links ι :=
  let L := L.setPrev (L.next (some b)) (L.prev (some b))
  L.setNext (L.prev (some b)) (L.next (some b))

/-- Put `b` after the head. -/
def push (L : Links ι) (b : ι) : Links ι :=
  let L := L.setNext (some b) (L.next none)
  let L := L.setPrev (some b) none
  let L := L.setPrev (L.next none) (some b)
  L.setNext none (some b)

theorem Joined.unlink (h : L.Joined x y) (hx : x ≠ some b) (hy : y ≠ some b) (hu : L.Joined u (some b))
    (hv : L.Joined (some b) v) (hne : v ≠ some b) : (L.unlink b).Joined x y := by
  obtain ⟨hnext, hprev⟩ := h
  obtain ⟨hu, rfl⟩ := hu
  obtain ⟨rfl, hv⟩ := hv
  have hxu : x ≠ L.prev (some b) := by
    rintro rfl
    exact hy (hnext ▸ hu)
  have hyv : y ≠ L.next (some b) := by
    rintro rfl
    exact hx (hprev ▸ hv)
  simp [Links.unlink, Joined, setNext, setPrev, update_of_ne, hne.symm, hxu, hyv, hnext, hprev]

theorem joined_unlink (hu : L.Joined u (some b)) (hv : L.Joined (some b) v) (hne : v ≠ some b) :
    (L.unlink b).Joined u v := by
  obtain ⟨_, rfl⟩ := hu
  obtain ⟨rfl, _⟩ := hv
  simp [Links.unlink, Joined, setNext, setPrev, update_of_ne, hne.symm]

theorem Linked.unlink (h : L.Linked (l1 ++ b :: l2)) : (L.unlink b).Linked (l1 ++ l2) := by
  obtain ⟨hnodup, hb⟩ : (l1 ++ l2).Nodup ∧ b ∉ l1 ++ l2 := by
    have hmid := nodup_middle.mp h.nodup
    exact ⟨hmid.of_cons, hmid.notMem⟩
  obtain ⟨as, u, hu⟩ : ∃ as u, (none :: l1.map some : List (Option ι)) = as ++ [u] :=
    ⟨_, _, (dropLast_append_getLast (cons_ne_nil _ _)).symm⟩
  obtain ⟨v, cs, hv⟩ : ∃ v cs, l2.map some ++ [none] = v :: cs := exists_cons_of_ne_nil (by simp)
  have hleft : ∀ x ∈ as ++ [u], x ≠ some b := by
    rintro x hx rfl
    rw [← hu] at hx
    exact hb (mem_append_left _ (by simpa using hx))
  have hright : ∀ x ∈ v :: cs, x ≠ some b := by
    rintro x hx rfl
    rw [← hv] at hx
    exact hb (mem_append_right _ (by simpa using hx))
  have hchain := h.chain
  rw [map_append, map_cons, append_assoc, cons_append, ← cons_append, hu, hv,
    append_assoc, singleton_append, isChain_append_cons_cons,
    isChain_cons_cons] at hchain
  obtain ⟨hfront, hub, hbv, hback⟩ := hchain
  have hkeep : ∀ x y, x ≠ some b → y ≠ some b → L.Joined x y → (L.unlink b).Joined x y :=
    fun x y hx hy hxy => hxy.unlink hx hy hub hbv (hright v mem_cons_self)
  refine ⟨hnodup, ?_⟩
  rw [map_append, append_assoc, ← cons_append, hu, hv, append_assoc,
    singleton_append, isChain_append_cons_cons]
  refine ⟨hfront.imp_of_mem_imp fun x y hx hy => hkeep x y (hleft x hx) (hleft y hy),
    joined_unlink hub hbv (hright v mem_cons_self),
    hback.imp_of_mem_imp fun x y hx hy => hkeep x y (hright x hx) (hright y hy)⟩

theorem Joined.push (h : L.Joined x y) (h0 : L.prev (L.next none) = none) (hx : x ≠ none)
    (hxb : x ≠ some b) (hy : y ≠ some b) : (L.push b).Joined x y := by
  obtain ⟨hnext, hprev⟩ := h
  have hyv : y ≠ L.next none := by
    rintro rfl
    exact hx (hprev ▸ h0)
  simp [Links.push, Joined, setNext, setPrev, update_of_ne, hx, hxb, hy, hyv, hnext, hprev]

theorem joined_push_head (hb : L.next none ≠ some b) : (L.push b).Joined none (some b) := by
  simp [Links.push, Joined, setNext, setPrev, update_of_ne, hb.symm]

theorem joined_push_next : (L.push b).Joined (some b) (L.next none) := by
  simp [Links.push, Joined, setNext, setPrev]

theorem Linked.push (h : L.Linked l) (hb : b ∉ l) : (L.push b).Linked (b :: l) := by
  obtain ⟨v, cs, hv⟩ : ∃ v cs, l.map some ++ [none] = v :: cs := exists_cons_of_ne_nil (by simp)
  have hmem : ∀ y ∈ v :: cs, y ≠ some b := by
    rintro y hy rfl
    rw [← hv] at hy
    exact hb (by simpa using hy)
  have hnodup : (v :: cs).Nodup := by
    rw [← hv, nodup_append]
    refine ⟨h.nodup.map fun _ _ => Option.some.inj, nodup_singleton _, ?_⟩
    simp
  have hchain := h.chain
  rw [hv, isChain_cons_cons] at hchain
  obtain ⟨⟨rfl, _⟩, htail⟩ := hchain
  have hback : List.IsChain (L.push b).Joined (L.next none :: cs) := by
    refine htail.imp_of_mem_tail_imp fun x y hx hy hxy => ?_
    have hxn : x ≠ none := by
      rintro rfl
      exact (nodup_cons.mp hnodup).1 (hxy.1 ▸ hy)
    exact hxy.push (h.prev_next mem_cons_self) hxn (hmem x hx) (hmem y (mem_cons_of_mem _ hy))
  refine ⟨nodup_cons.mpr ⟨hb, h.nodup⟩, ?_⟩
  rw [map_cons, cons_append, hv, isChain_cons_cons, isChain_cons_cons]
  exact ⟨joined_push_head (hmem _ mem_cons_self), joined_push_next, hback⟩

theorem Linked.moveFront (h : L.Linked l) (hb : b ∈ l) :
    ((L.unlink b).push b).Linked (b :: l.erase b) := by
  obtain ⟨l1, l2, hnot, rfl, herase⟩ := exists_erase_eq hb
  rw [herase]
  exact h.unlink.push (nodup_middle.mp h.nodup).notMem

end Links
