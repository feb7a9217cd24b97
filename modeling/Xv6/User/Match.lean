import Mathlib.Data.List.Basic

/-! # The matcher of `grep`

`match`, `matchhere` and `matchstar` of `grep.c`. A string is the list of its characters up to the `NUL`, so
that `re[0] == '\0'` says that the list is empty and `re + 1` is its tail.

What a pattern means is said without backtracking: read from left to right it is a list of items (`items`),
and the items spell a part of the text (`Spells`). -/

namespace Xv6.Grep

open List

def star : UInt8 := '*'.toUInt8
def dot : UInt8 := '.'.toUInt8
def dollar : UInt8 := '$'.toUInt8
def caret : UInt8 := '^'.toUInt8

/-- `matchstar(c, re, text)`, where `here` is `matchhere(re, ·)`. -/
def matchstar (c : UInt8) (here : List UInt8 → Bool) : List UInt8 → Bool
  | [] => here []
  | x :: text => here (x :: text) || ((x == c || c == dot) && matchstar c here text)

/-- The last case of `matchhere`: one character, and `matchhere` for the rest of the pattern. -/
def matchchar (c : UInt8) (here : List UInt8 → Bool) : List UInt8 → Bool
  | [] => false
  | x :: text => (c == dot || c == x) && here text

def matchhere : List UInt8 → List UInt8 → Bool
  | [], _ => true
  | [c], text => if c = dollar then text.isEmpty else matchchar c (fun _ => true) text
  | c :: d :: re, text =>
    if d = star then matchstar c (matchhere re) text else matchchar c (matchhere (d :: re)) text

/-- The loop of `match`. -/
def matchLoop (re : List UInt8) : List UInt8 → Bool
  | [] => matchhere re []
  | x :: text => matchhere re (x :: text) || matchLoop re text

/-- `match(re, text)`. -/
def matchText (re text : List UInt8) : Bool :=
  if re.head? = some caret then matchhere re.tail text else matchLoop re text

/-! ### What a pattern means -/

inductive Item where
  /-- One character. -/
  | one (c : UInt8)
  /-- `c*`. -/
  | many (c : UInt8)
  /-- `$` at the end of the pattern. -/
  | eol

/-- The items of a pattern: `*` belongs to the character before it, whatever that is. -/
def items : List UInt8 → List Item
  | [] => []
  | [c] => if c = dollar then [.eol] else [.one c]
  | c :: d :: re => if d = star then .many c :: items re else .one c :: items (d :: re)

/-- `c` stands for `x`. -/
def Fits (c x : UInt8) : Prop := c = dot ∨ c = x

/-- The items spell `w`, with `rest` behind it in the text. -/
def Spells : List Item → List UInt8 → List UInt8 → Prop
  | [], w, _ => w = []
  | .one c :: l, w, rest => ∃ x v, w = x :: v ∧ Fits c x ∧ Spells l v rest
  | .many c :: l, w, rest => ∃ u v, w = u ++ v ∧ (∀ x ∈ u, Fits c x) ∧ Spells l v rest
  | .eol :: l, w, rest => rest = [] ∧ w = [] ∧ Spells l w rest

/-- A part of the text matches the pattern, one at its beginning if the pattern starts with `^`. -/
def Matches (re text : List UInt8) : Prop :=
  ∃ v w rest, text = v ++ (w ++ rest) ∧
    if re.head? = some caret then v = [] ∧ Spells (items re.tail) w rest else Spells (items re) w rest

section
variable {c : UInt8} {here : List UInt8 → Bool}

theorem matchstar_iff {text : List UInt8} : matchstar c here text = true ↔
    ∃ u v, text = u ++ v ∧ (∀ x ∈ u, Fits c x) ∧ here v = true := by
  induction text with
  | nil =>
    constructor
    · intro h
      exact ⟨[], [], rfl, nofun, h⟩
    · rintro ⟨u, v, e, -, h⟩
      obtain ⟨-, rfl⟩ := nil_eq_append_iff.mp e
      exact h
  | cons x text ih =>
    rw [matchstar, Bool.or_eq_true, Bool.and_eq_true, ih, Bool.or_eq_true, beq_iff_eq, beq_iff_eq]
    constructor
    · rintro (h | ⟨hx, u, v, rfl, hu, h⟩)
      · exact ⟨[], x :: text, rfl, nofun, h⟩
      · exact ⟨x :: u, v, rfl, forall_mem_cons.mpr ⟨hx.symm.imp id Eq.symm, hu⟩, h⟩
    · rintro ⟨u, v, e, hu, h⟩
      cases u with
      | nil =>
        obtain rfl : x :: text = v := e
        exact .inl h
      | cons y u =>
        obtain ⟨rfl, rfl⟩ := cons.inj e
        obtain ⟨hx, hu⟩ := forall_mem_cons.mp hu
        exact .inr ⟨hx.symm.imp Eq.symm id, u, v, rfl, hu, h⟩

theorem matchchar_iff {text : List UInt8} : matchchar c here text = true ↔
    ∃ x t, text = x :: t ∧ Fits c x ∧ here t = true := by
  cases text with
  | nil => exact iff_of_false nofun (by rintro ⟨_, _, e, -⟩; cases e)
  | cons x t =>
    rw [matchchar, Bool.and_eq_true, Bool.or_eq_true, beq_iff_eq, beq_iff_eq]
    constructor
    · rintro ⟨hx, h⟩
      exact ⟨x, t, rfl, hx, h⟩
    · rintro ⟨_, _, e, hx, h⟩
      obtain ⟨rfl, rfl⟩ := cons.inj e
      exact ⟨hx, h⟩

end

/-- `matchhere` finds the pattern at the beginning of the text, with the star taking any number of
characters. -/
theorem matchhere_iff : ∀ re text, matchhere re text = true ↔
    ∃ w rest, text = w ++ rest ∧ Spells (items re) w rest
  | [], text => iff_of_true rfl ⟨[], text, rfl, rfl⟩
  | [c], text => by
    rw [matchhere, items]
    split_ifs
    · rw [List.isEmpty_iff]
      constructor
      · rintro rfl
        exact ⟨[], [], rfl, rfl, rfl, rfl⟩
      · rintro ⟨w, rest, rfl, rfl, rfl, -⟩
        rfl
    · rw [matchchar_iff]
      constructor
      · rintro ⟨x, t, rfl, hx, -⟩
        exact ⟨[x], t, rfl, x, [], rfl, hx, rfl⟩
      · rintro ⟨w, rest, rfl, x, v, rfl, hx, rfl⟩
        exact ⟨x, rest, rfl, hx, rfl⟩
  | c :: d :: re, text => by
    rw [matchhere, items]
    split_ifs
    · rw [matchstar_iff]
      constructor
      · rintro ⟨u, v, rfl, hu, h⟩
        obtain ⟨w, rest, rfl, hw⟩ := (matchhere_iff re v).mp h
        exact ⟨u ++ w, rest, (append_assoc u w rest).symm, u, w, rfl, hu, hw⟩
      · rintro ⟨w, rest, rfl, u, v, rfl, hu, hw⟩
        exact ⟨u, v ++ rest, append_assoc u v rest, hu, (matchhere_iff re _).mpr ⟨v, rest, rfl, hw⟩⟩
    · rw [matchchar_iff]
      constructor
      · rintro ⟨x, t, rfl, hx, h⟩
        obtain ⟨w, rest, rfl, hw⟩ := (matchhere_iff (d :: re) t).mp h
        exact ⟨x :: w, rest, rfl, x, w, rfl, hx, hw⟩
      · rintro ⟨w, rest, rfl, x, v, rfl, hx, hw⟩
        exact ⟨x, v ++ rest, rfl, hx, (matchhere_iff (d :: re) _).mpr ⟨v, rest, rfl, hw⟩⟩

/-- The loop of `match` is that of `matchstar` for `.`. -/
theorem matchLoop_eq (re text : List UInt8) : matchLoop re text = matchstar dot (matchhere re) text := by
  induction text with
  | nil => rfl
  | cons x text ih => rw [matchLoop, matchstar, ih, beq_self_eq_true, Bool.or_true, Bool.true_and]

/-- **`match` decides its patterns.** -/
theorem match_decides (re text : List UInt8) : matchText re text = true ↔ Matches re text := by
  unfold matchText Matches
  split_ifs with hc
  · rw [matchhere_iff]
    constructor
    · rintro ⟨w, rest, rfl, h⟩
      exact ⟨[], w, rest, rfl, rfl, h⟩
    · rintro ⟨v, w, rest, rfl, rfl, h⟩
      exact ⟨w, rest, rfl, h⟩
  · rw [matchLoop_eq, matchstar_iff]
    constructor
    · rintro ⟨v, t, rfl, -, h⟩
      obtain ⟨w, rest, rfl, hw⟩ := (matchhere_iff re t).mp h
      exact ⟨v, w, rest, rfl, hw⟩
    · rintro ⟨v, w, rest, rfl, hw⟩
      exact ⟨v, w ++ rest, rfl, fun _ _ => .inl rfl, (matchhere_iff re _).mpr ⟨w, rest, rfl, hw⟩⟩

end Xv6.Grep
