import Mathlib.Data.List.Induction
import Xv6.Lib.Ring
import Xv6.Lib.Runs

/-! # The line discipline of the console

`consoleintr` and `consoleread` of `console.c`. A step is what happens between taking `input.lock` and
giving it up: one call of `consoleintr` with the characters `getc` has for it, or what a reader does
until it sleeps or returns. A reader that sleeps may go on at any time and tests its condition again, so
every waking is covered. What is echoed on the screen is left out.

`r`, `w` and `e` are unsigned words that are never reset. From `r` to `w` lie the bytes that readers may
have, from `w` to `e` the line that is being edited: a ring with a mark in it (`Input.Holds`).

The system also records the keys that were typed, each with the room there was in the buffer, the bytes
that were copied out, and what the calls of `consoleread` returned. What the keys mean is said without
the buffer by `edit`: a committed text and the current line. A character typed when there is no room is
dropped, and one that takes the last room ends the line (`console_lines`); with room for every character
the committed text is what was typed, with the edits of each line (`edit_typed`). -/

namespace Xv6.Console

open Runs Function List

def INPUT_BUF : ℕ := 128

/-- The number of values of a `uint`. -/
def UINT : ℕ := 2 ^ 32

/-- `C(x)`: Control-x. -/
def ctrl (x : Char) : UInt8 := x.toUInt8 - '@'.toUInt8

def newline : UInt8 := '\n'.toUInt8

/-- `'\x7f'`. -/
def DEL : UInt8 := 0x7f

/-- `input`; the lock is held throughout a step. -/
structure Input where
  buf : ℕ → UInt8
  r : ℕ
  w : ℕ
  e : ℕ

namespace Input

/-- `input.e - 1`. -/
def back (t : Input) : ℕ := (t.e + UINT - 1) % UINT

/-- `input.e - input.r`. -/
def used (t : Input) : ℕ := (t.e + UINT - t.r) % UINT

/-- The loop of `^U`, of which there are at most `e - w` rounds. -/
def killLoop : ℕ → Input → Input
  | 0, t => t
  | n + 1, t =>
    if t.e ≠ t.w ∧ t.buf (t.back % INPUT_BUF) ≠ newline then killLoop n { t with e := t.back } else t

/-- What `consoleintr` does for the character `c`. -/
def key (t : Input) (c : UInt8) : Input :=
  if c = ctrl 'P' then t
  else if c = ctrl 'U' then t.killLoop ((t.e + UINT - t.w) % UINT)
  else if c = ctrl 'H' ∨ c = DEL then if t.e ≠ t.w then { t with e := t.back } else t
  else if c ≠ 0 ∧ t.used < INPUT_BUF then
    let c := if c = '\r'.toUInt8 then newline else c
    let t := { t with buf := update t.buf (t.e % INPUT_BUF) c, e := (t.e + 1) % UINT }
    if c = newline ∨ c = ctrl 'D' ∨ t.e = (t.r + INPUT_BUF) % UINT then { t with w := t.e } else t
  else t

/-- The loop of `consoleread` with `n` bytes to go of `target`: the bytes it copies, how many are still
to go, and whether it has come to `sleep`. -/
def readLoop (target : ℕ) : ℕ → Input → Input × List UInt8 × ℕ × Bool
  | 0, t => (t, [], 0, false)
  | n + 1, t =>
    if t.r = t.w then (t, [], n + 1, true)
    else
      let c := t.buf (t.r % INPUT_BUF)
      let t := { t with r := (t.r + 1) % UINT }
      if c = ctrl 'D' then
        (if n + 1 < target then { t with r := (t.r + UINT - 1) % UINT } else t, [], n + 1, false)
      else if c = newline then (t, [c], n, false)
      else
        let (t, bytes, rest) := readLoop target n t
        (t, c :: bytes, rest)

/-- What readers may have: the cells from `r` up to `w`. -/
def pending (t : Input) : List UInt8 :=
  (range ((t.w + UINT - t.r) % UINT)).map fun i => t.buf ((t.r + i) % INPUT_BUF)

end Input

/-- Where a process is: in a call of `consoleread` for `target` bytes, of which `n` are to go and `got`
have been copied. -/
inductive Call where
  | none
  | read (id n target : ℕ) (got : List UInt8)

/-- A call that has returned `result`, with the bytes it has stored at `dst`. -/
structure Return where
  id : ℕ
  result : ℕ
  bytes : List UInt8
deriving DecidableEq

structure System where
  input : Input
  call : ℕ → Call
  calls : ℕ
  /-- The keys, with the room there was in the buffer when each was typed. -/
  typed : List (UInt8 × ℕ)
  /-- The bytes copied out, with the call they went to. -/
  delivered : List (ℕ × UInt8)
  returned : List Return

/-- After `consoleinit`. -/
def boot : System := ⟨⟨fun _ => 0, 0, 0, 0⟩, fun _ => .none, 0, [], [], []⟩

inductive Event where
  | consoleintr (cs : List UInt8)
  | consoleread (q : ℕ) (n : ℤ)
  /-- Process `q` runs in its call, with `killed` for `proc->killed`. -/
  | run (q : ℕ) (killed : Bool)

namespace System

def key (s : System) (c : UInt8) : System :=
  { s with input := s.input.key c, typed := s.typed ++ [(c, INPUT_BUF - s.input.used)] }

/-- `consoleintr(getc)`, for the characters that `getc` returns. -/
def consoleintr (s : System) (cs : List UInt8) : System := cs.foldl key s

/-- `consoleread`, from where it takes the lock; a killed process that finds no byte returns `-1`. -/
def runRead (s : System) (q : ℕ) (killed : Bool) (id n target : ℕ) (got : List UInt8) : System :=
  match s.input.readLoop target n with
  | (t, bytes, rest, sleeps) =>
    let got := got ++ bytes
    let s := { s with input := t, delivered := s.delivered ++ bytes.map (Prod.mk id) }
    if sleeps = true then
      { s with
        call := update s.call q (if killed = true then .none else .read id rest target got) }
    else
      { s with
        call := update s.call q .none
        returned := s.returned ++ [⟨id, target - rest, got⟩] }

end System

/-- A negative `n` is like `0`: the loop is not entered. -/
def step (s : System) : Event → Option System
  | .consoleintr cs => some (s.consoleintr cs)
  | .consoleread q n =>
    match s.call q with
    | .none => some { s with
        call := update s.call q (.read s.calls n.toNat n.toNat [])
        calls := s.calls + 1 }
    | .read .. => none
  | .run q killed =>
    match s.call q with
    | .none => none
    | .read id n target got => some (s.runRead q killed id n target got)

/-- The processes are not killed. -/
def Alive (_ : System) : Event → Prop
  | .run _ killed => killed = false
  | _ => True

/-- A call of `consoleread` begins when no other is in progress. -/
def Alone (s : System) : Event → Prop
  | .consoleread _ _ => ∀ q, s.call q = .none
  | _ => True

instance (s : System) (e : Event) : Decidable (Alive s e) :=
  match e with
  | .run _ killed => inferInstanceAs (Decidable (killed = false))
  | .consoleintr _ | .consoleread _ _ => inferInstanceAs (Decidable True)

/-! ### What is typed -/

structure Text where
  committed : List UInt8
  line : List UInt8
deriving DecidableEq

/-- A key with the room there is for it: an editing key, a character that is ignored, or one that is added
to the line and may end it. -/
def Text.key (x : Text) : UInt8 × ℕ → Text
  | (c, room) =>
    if c = ctrl 'P' then x
    else if c = ctrl 'U' then { x with line := [] }
    else if c = ctrl 'H' ∨ c = DEL then { x with line := x.line.dropLast }
    else if c = 0 ∨ room = 0 then x
    else
      let c := if c = '\r'.toUInt8 then newline else c
      if c = newline ∨ c = ctrl 'D' ∨ room = 1 then ⟨x.committed ++ (x.line ++ [c]), []⟩
      else { x with line := x.line ++ [c] }

/-- The committed text and the current line after the keys `keys`. -/
def edit (keys : List (UInt8 × ℕ)) : Text := keys.foldl Text.key ⟨[], []⟩

/-- The same without regard to the room in the buffer. -/
def typedText (keys : List (UInt8 × ℕ)) : Text := edit (keys.map fun k => (k.1, INPUT_BUF))

/-- The bytes a reader gets. -/
def text (bytes : List UInt8) : List UInt8 := bytes.filter (· ≠ ctrl 'D')

theorem edit_append (keys : List (UInt8 × ℕ)) (k : UInt8 × ℕ) :
    edit (keys ++ [k]) = (edit keys).key k := by
  rw [edit, foldl_append]
  rfl

variable {n id target rest : ℕ}

/-- Room for two characters is as good as an empty buffer. -/
theorem Text.key_room (x : Text) (c : UInt8) {m : ℕ} (hm : 2 ≤ m) (hn : 2 ≤ n) :
    x.key (c, m) = x.key (c, n) := by
  simp only [Text.key, show m ≠ 0 by omega, show n ≠ 0 by omega, show m ≠ 1 by omega,
    show n ≠ 1 by omega]

theorem edit_typed {keys : List (UInt8 × ℕ)} (h : ∀ k ∈ keys, 2 ≤ k.2) : edit keys = typedText keys := by
  induction keys using reverseRecOn with
  | nil => rfl
  | append_singleton keys k ih =>
    have hkeys : ∀ k ∈ keys, 2 ≤ k.2 := fun k hk => h k (mem_append_left _ hk)
    have hk : 2 ≤ k.2 := h k (by simp)
    rw [edit_append, ih hkeys, typedText, typedText, map_append, map_singleton, edit_append]
    exact Text.key_room _ k.1 hk (by decide)

/-! ### The ring and its mark -/

theorem size_lt : INPUT_BUF < UINT := by decide

theorem size_dvd : INPUT_BUF ∣ UINT := by decide

namespace Input

variable {t : Input} {xs line : List UInt8} {c : UInt8}

/-- The buffer holds the bytes `xs` for readers and the current line. -/
structure Holds (t : Input) (xs line : List UInt8) : Prop where
  ring : Ring.Holds INPUT_BUF UINT t.buf t.r t.e (xs ++ line)
  mark : t.w = (t.r + xs.length) % UINT

section
variable (h : t.Holds xs line)
include h

theorem Holds.readers : Ring.Holds INPUT_BUF UINT t.buf t.r t.w xs := by
  rw [h.mark]
  exact h.ring.front

theorem Holds.editor : Ring.Holds INPUT_BUF UINT t.buf t.w t.e line := by
  rw [h.mark]
  exact h.ring.back size_dvd

theorem Holds.pending : t.pending = xs := (h.readers.eq_map size_lt).symm

theorem Holds.used : t.used = xs.length + line.length := by
  rw [Input.used, h.ring.count_eq size_lt, length_append]

theorem Holds.at_mark : t.e = t.w ↔ line = [] :=
  eq_comm.trans (h.editor.eq_iff size_lt)

theorem Holds.add (hroom : t.used < INPUT_BUF) (c : UInt8) :
    Holds { t with buf := update t.buf (t.e % INPUT_BUF) c, e := (t.e + 1) % UINT } xs
      (line ++ [c]) := by
  have hlen : (xs ++ line).length < INPUT_BUF := by rwa [length_append, ← h.used]
  refine ⟨?_, h.mark⟩
  rw [← append_assoc]
  exact h.ring.push size_dvd hlen c

theorem Holds.commit : Holds { t with w := t.e } (xs ++ line) [] :=
  ⟨by rw [append_nil]; exact h.ring, h.ring.count⟩

end

theorem Holds.erase (h : t.Holds xs (line ++ [c])) :
    t.buf (t.back % INPUT_BUF) = c ∧ Holds { t with e := t.back } xs line := by
  have hring := h.ring
  rw [← append_assoc] at hring
  obtain ⟨hc, hrest⟩ := hring.unpush size_dvd
  exact ⟨hc, hrest, h.mark⟩

theorem Holds.killLoop (h : t.Holds xs line) (hline : newline ∉ line) :
    (t.killLoop line.length).Holds xs [] := by
  induction line using reverseRecOn generalizing t with
  | nil => exact h
  | append_singleton line c ih =>
    obtain ⟨hc, hrest⟩ := h.erase
    have hgo : t.e ≠ t.w ∧ t.buf (t.back % INPUT_BUF) ≠ newline := by
      refine ⟨mt h.at_mark.mp (by simp), ?_⟩
      rw [hc]
      rintro rfl
      exact hline (by simp)
    rw [length_append, length_singleton, Input.killLoop, if_pos hgo]
    exact ih hrest fun hmem => hline (mem_append_left _ hmem)

theorem killLoop_fixed (n : ℕ) (t : Input) :
    (t.killLoop n).r = t.r ∧ (t.killLoop n).w = t.w ∧ (t.killLoop n).buf = t.buf := by
  induction n generalizing t with
  | zero => exact ⟨rfl, rfl, rfl⟩
  | succ n ih =>
    rw [Input.killLoop]
    split
    · exact ih _
    · exact ⟨rfl, rfl, rfl⟩

theorem key_editing (t : Input) (hc : c = ctrl 'U' ∨ c = ctrl 'H' ∨ c = DEL) :
    (t.key c).r = t.r ∧ (t.key c).w = t.w ∧ (t.key c).buf = t.buf := by
  have hP : c ≠ ctrl 'P' := by
    rintro rfl
    exact absurd hc (by decide)
  rw [key, if_neg hP]
  split
  · exact t.killLoop_fixed _
  · next hU =>
      rw [if_pos (hc.resolve_left hU)]
      split <;> exact ⟨rfl, rfl, rfl⟩

/-- One key does to the buffer what it does to the text: the readers get what is committed. -/
theorem Holds.key (h : t.Holds xs line) (hline : newline ∉ line) (com : List UInt8) (c : UInt8) :
    ∃ ys, (t.key c).Holds (xs ++ ys) (Text.key ⟨com, line⟩ (c, INPUT_BUF - t.used)).line ∧
      (Text.key ⟨com, line⟩ (c, INPUT_BUF - t.used)).committed = com ++ ys ∧
      newline ∉ (Text.key ⟨com, line⟩ (c, INPUT_BUF - t.used)).line := by
  rw [Input.key, Text.key]
  by_cases hP : c = ctrl 'P'
  · rw [if_pos hP, if_pos hP]
    exact ⟨[], by rwa [append_nil], (append_nil com).symm, hline⟩
  rw [if_neg hP, if_neg hP]
  by_cases hU : c = ctrl 'U'
  · rw [if_pos hU, if_pos hU, h.editor.count_eq size_lt]
    exact ⟨[], by rw [append_nil]; exact h.killLoop hline, (append_nil com).symm, by simp⟩
  rw [if_neg hU, if_neg hU]
  by_cases hH : c = ctrl 'H' ∨ c = DEL
  · rw [if_pos hH, if_pos hH]
    refine ⟨[], ?_, (append_nil com).symm, fun hmem => hline (dropLast_subset line hmem)⟩
    rw [append_nil]
    cases line using reverseRecOn with
    | nil => rwa [if_neg (not_not_intro (h.at_mark.mpr rfl))]
    | append_singleton line c =>
      rw [if_pos (mt h.at_mark.mp (by simp)), dropLast_concat]
      exact h.erase.2
  rw [if_neg hH, if_neg hH]
  by_cases hroom : c ≠ 0 ∧ t.used < INPUT_BUF
  · have hkeep : ¬ (c = 0 ∨ INPUT_BUF - t.used = 0) := not_or.mpr ⟨hroom.1, by omega⟩
    rw [if_pos hroom, if_neg hkeep]
    generalize (if c = '\r'.toUInt8 then newline else c) = c
    have hadd := h.add hroom.2 c
    have hfull : (t.e + 1) % UINT = (t.r + INPUT_BUF) % UINT ↔ INPUT_BUF - t.used = 1 := by
      have hiff := hadd.ring.full_iff size_lt
      simp only [length_append, length_singleton] at hiff
      rw [h.used] at hroom ⊢
      omega
    simp only [hfull]
    by_cases hend : c = newline ∨ c = ctrl 'D' ∨ INPUT_BUF - t.used = 1
    · rw [if_pos hend, if_pos hend]
      exact ⟨line ++ [c], hadd.commit, rfl, by simp⟩
    · rw [if_neg hend, if_neg hend]
      refine ⟨[], by rwa [append_nil], (append_nil com).symm, ?_⟩
      rw [mem_append, mem_singleton]
      rintro (hmem | rfl)
      · exact hline hmem
      · exact hend (.inl rfl)
  · have hdrop : c = 0 ∨ INPUT_BUF - t.used = 0 := by
      rw [not_and_or, not_not] at hroom
      exact hroom.imp_right (by omega)
    rw [if_neg hroom, if_pos hdrop]
    exact ⟨[], by rwa [append_nil], (append_nil com).symm, hline⟩

/-- A reader takes bytes from the front, up to a newline or before a `^D`, which it may take as well. -/
theorem Holds.readLoop (h : t.Holds xs line) (target n : ℕ) :
    ∃ t' bytes rest sleeps ys, t.readLoop target n = (t', bytes, rest, sleeps) ∧ t'.Holds ys line ∧
      text xs = bytes ++ text ys ∧ rest + bytes.length = n := by
  induction n generalizing t xs with
  | zero => exact ⟨t, [], 0, false, xs, rfl, h, rfl, rfl⟩
  | succ n ih =>
    cases xs with
    | nil =>
      have hempty : t.r = t.w := (h.readers.eq_iff size_lt).mpr rfl
      exact ⟨t, [], n + 1, true, [], by rw [Input.readLoop, if_pos hempty], h, rfl, rfl⟩
    | cons c xs =>
      have hne : t.r ≠ t.w := mt (h.readers.eq_iff size_lt).mp (cons_ne_nil c xs)
      obtain ⟨hc, hpop⟩ := h.ring.pop size_dvd
      have hnext : Holds { t with r := (t.r + 1) % UINT } xs line :=
        ⟨hpop, (h.readers.pop size_dvd).2.count⟩
      rw [Input.readLoop, if_neg hne]
      simp only [hc]
      by_cases hD : c = ctrl 'D'
      · have hskip : text (c :: xs) = text xs := by simp [text, hD]
        rw [if_pos hD]
        by_cases hsave : n + 1 < target
        · have hr : ((t.r + 1) % UINT + UINT - 1) % UINT = t.r := by
            rw [Ring.pred_succ t.r (by decide), Nat.mod_eq_of_lt h.ring.bound]
          rw [if_pos hsave, hr]
          exact ⟨t, [], n + 1, false, c :: xs, rfl, h, rfl, rfl⟩
        · rw [if_neg hsave]
          exact ⟨_, [], n + 1, false, xs, rfl, hnext, hskip, rfl⟩
      · have htake : text (c :: xs) = c :: text xs := by simp [text, hD]
        rw [if_neg hD]
        by_cases hN : c = newline
        · rw [if_pos hN]
          exact ⟨_, [c], n, false, xs, rfl, hnext, htake, rfl⟩
        · rw [if_neg hN]
          obtain ⟨t', bytes, rest, sleeps, ys, heq, hold, htext, hlen⟩ := ih hnext
          refine ⟨t', c :: bytes, rest, sleeps, ys, by rw [heq], hold, ?_, ?_⟩
          · rw [htake, htext, cons_append]
          · rw [length_cons]
            omega

end Input

/-! ### Every run -/

variable {s s' : System}

/-- The keys of one interrupt keep what every key keeps. -/
theorem keys_induct {I : System → Prop} (hkey : ∀ s c, I s → I (s.key c)) (cs : List UInt8)
    (h : I s) : I (cs.foldl System.key s) := by
  induction cs generalizing s with
  | nil => exact h
  | cons c cs ih => exact ih (hkey s c h)

/-- The committed text is what has been delivered and what the buffer holds for readers. -/
structure Inv (s : System) : Prop where
  buffer : ∃ xs, s.input.Holds xs (edit s.typed).line ∧
    text (edit s.typed).committed = s.delivered.map Prod.snd ++ text xs
  line : newline ∉ (edit s.typed).line

theorem Inv.key (h : Inv s) (c : UInt8) : Inv (s.key c) := by
  obtain ⟨xs, hold, htext⟩ := h.buffer
  obtain ⟨ys, hold', hcom, hline⟩ := hold.key h.line (edit s.typed).committed c
  have hedit : edit (s.key c).typed =
      Text.key ⟨(edit s.typed).committed, (edit s.typed).line⟩ (c, INPUT_BUF - s.input.used) :=
    edit_append _ _
  refine ⟨⟨xs ++ ys, by rw [hedit]; exact hold', ?_⟩, by rw [hedit]; exact hline⟩
  rw [hedit, hcom, text, text, filter_append, filter_append, ← append_assoc]
  exact congrArg (· ++ _) htext

theorem Inv.runRead (h : Inv s) (q : ℕ) (killed : Bool) (id n target : ℕ)
    (got : List UInt8) : Inv (s.runRead q killed id n target got) := by
  obtain ⟨xs, hold, htext⟩ := h.buffer
  obtain ⟨t, bytes, rest, sleeps, ys, heq, hold', htake, -⟩ := hold.readLoop target n
  have hdelivered : text (edit s.typed).committed =
      (s.delivered ++ bytes.map (Prod.mk id)).map Prod.snd ++ text ys := by
    have hsnd : (bytes.map (Prod.mk id)).map Prod.snd = bytes := by simp
    rw [htext, htake, map_append, hsnd, append_assoc]
  simp only [System.runRead, heq]
  split <;> exact ⟨⟨ys, hold', hdelivered⟩, h.line⟩

variable {e : Event}

theorem Inv.step (h : Inv s) (hs : step s e = some s') : Inv s' := by
  cases e with
  | consoleintr cs =>
    obtain rfl := Option.some.inj hs
    exact keys_induct (I := Inv) (fun _ c h => h.key c) cs h
  | consoleread q n =>
    simp only [Console.step] at hs
    split at hs
    · obtain rfl := Option.some.inj hs
      exact ⟨h.buffer, h.line⟩
    · cases hs
  | run q killed =>
    simp only [Console.step] at hs
    split at hs
    · cases hs
    · obtain rfl := Option.some.inj hs
      exact h.runRead _ _ _ _ _ _

theorem inv_boot : Inv boot :=
  ⟨⟨[], ⟨Ring.Holds.nil _ (by decide), rfl⟩, rfl⟩, not_mem_nil⟩

/-- The process is in the call `id`. -/
def Call.Is (c : Call) (id : ℕ) : Prop := ∃ n target got, c = .read id n target got

variable {got : List UInt8} {q : ℕ}

section update
variable {call : ℕ → Call}

theorem is_update_read (hq : call q = .read id n target got)
    (n' target' : ℕ) (got' : List UInt8) (q' id' : ℕ) :
    (update call q (.read id n' target' got') q').Is id' ↔ (call q').Is id' := by
  by_cases hq' : q' = q
  · subst hq'
    rw [update_self, hq]
    constructor
    · rintro ⟨_, _, _, ⟨⟩⟩
      exact ⟨n, target, got, rfl⟩
    · rintro ⟨_, _, _, ⟨⟩⟩
      exact ⟨n', target', got', rfl⟩
  · rw [update_of_ne hq']

theorem is_update_none {q' id' : ℕ} :
    (update call q .none q').Is id' ↔ q' ≠ q ∧ (call q').Is id' := by
  by_cases hq' : q' = q
  · subst hq'
    rw [update_self]
    constructor
    · rintro ⟨_, _, _, ⟨⟩⟩
    · rintro ⟨hne, -⟩
      exact absurd rfl hne
  · rw [update_of_ne hq']
    exact (and_iff_right hq').symm

theorem is_update_begin (hq : call q = .none) (id n target : ℕ) (got : List UInt8) (q' id' : ℕ) :
    (update call q (.read id n target got) q').Is id' ↔
      (q' = q ∧ id' = id) ∨ (call q').Is id' := by
  by_cases hq' : q' = q
  · subst hq'
    rw [update_self, hq]
    constructor
    · rintro ⟨_, _, _, ⟨⟩⟩
      exact .inl ⟨rfl, rfl⟩
    · rintro (⟨-, rfl⟩ | ⟨_, _, _, ⟨⟩⟩)
      exact ⟨n, target, got, rfl⟩
  · rw [update_of_ne hq']
    exact (or_iff_right fun h => hq' h.1).symm

end update

/-- The bytes that went to the call `id`. -/
def System.deliveredTo (s : System) (id : ℕ) : List UInt8 :=
  (s.delivered.filter fun x => x.1 = id).map Prod.snd

/-- Which bytes went to which call. -/
structure Tracked (s : System) : Prop where
  fresh : ∀ x ∈ s.delivered, x.1 < s.calls
  reading : ∀ q id n target got, s.call q = .read id n target got →
    id < s.calls ∧ n + got.length = target ∧ s.deliveredTo id = got
  own : ∀ q q' id, (s.call q).Is id → (s.call q').Is id → q = q'
  returned : ∀ x ∈ s.returned, x.id < s.calls ∧ (∀ q, ¬ (s.call q).Is x.id) ∧
    x.bytes = s.deliveredTo x.id ∧ x.result = x.bytes.length
  once : (s.returned.map Return.id).Nodup
  accounted : ∀ x ∈ s.delivered, (∃ q, (s.call q).Is x.1) ∨ ∃ y ∈ s.returned, y.id = x.1

theorem deliveredTo_append (s : System) (id id' : ℕ) (bytes : List UInt8) :
    ((s.delivered ++ bytes.map (Prod.mk id)).filter fun x => x.1 = id').map Prod.snd =
      s.deliveredTo id' ++ if id = id' then bytes else [] := by
  rw [filter_append, map_append, System.deliveredTo]
  congr 1
  by_cases h : id = id'
  · simp [h, filter_map, comp_def]
  · simp [h, filter_map, comp_def]

theorem Tracked.deliver (h : Tracked s)
    (hq : s.call q = .read id n target got) (t : Input) {bytes : List UInt8}
    (hlen : rest + bytes.length = n) :
    Tracked { s with
      input := t
      delivered := s.delivered ++ bytes.map (Prod.mk id)
      call := update s.call q (.read id rest target (got ++ bytes)) } := by
  obtain ⟨hid, htarget, hgot⟩ := h.reading q id n target got hq
  have hIs := is_update_read hq rest target (got ++ bytes)
  have hdelivered : ∀ x ∈ s.delivered ++ bytes.map (Prod.mk id), x ∈ s.delivered ∨ x.1 = id := by
    intro x hx
    obtain hx | hx := mem_append.mp hx
    · exact .inl hx
    · obtain ⟨b, _, rfl⟩ := mem_map.mp hx
      exact .inr rfl
  constructor
  case fresh =>
    intro x hx
    obtain hx | hx := hdelivered x hx
    · exact h.fresh x hx
    · rw [hx]
      exact hid
  case reading =>
    intro q' id' n' target' got' hcall
    dsimp only at hcall
    rw [System.deliveredTo, deliveredTo_append]
    by_cases hq' : q' = q
    · subst hq'
      rw [update_self] at hcall
      cases hcall
      refine ⟨hid, ?_, by rw [hgot, if_pos rfl]⟩
      rw [length_append]
      omega
    · rw [update_of_ne hq'] at hcall
      have hne : id ≠ id' := fun heq => hq' (h.own q' q id' ⟨_, _, _, hcall⟩ (heq ▸ ⟨_, _, _, hq⟩))
      rw [if_neg hne, append_nil]
      exact h.reading q' id' n' target' got' hcall
  case own =>
    intro q1 q2 id' h1 h2
    exact h.own q1 q2 id' ((hIs q1 id').mp h1) ((hIs q2 id').mp h2)
  case returned =>
    intro x hx
    obtain ⟨hlt, hno, hbytes, hres⟩ := h.returned x hx
    have hne : id ≠ x.id := fun heq => hno q (heq ▸ ⟨_, _, _, hq⟩)
    refine ⟨hlt, fun q' => mt (hIs q' x.id).mp (hno q'), ?_, hres⟩
    rw [System.deliveredTo, deliveredTo_append, if_neg hne, append_nil]
    exact hbytes
  case once => exact h.once
  case accounted =>
    intro x hx
    simp only [hIs]
    obtain hx | hx := hdelivered x hx
    · exact h.accounted x hx
    · exact .inl ⟨q, hx ▸ ⟨_, _, _, hq⟩⟩

theorem Tracked.finish (h : Tracked s) (hq : s.call q = .read id rest target got) :
    Tracked { s with
      call := update s.call q .none
      returned := s.returned ++ [⟨id, target - rest, got⟩] } := by
  obtain ⟨hid, htarget, hgot⟩ := h.reading q id rest target got hq
  constructor
  case fresh => exact h.fresh
  case reading =>
    intro q' id' n' target' got' hcall
    dsimp only at hcall
    have hq' := (is_update_none.mp ⟨_, _, _, hcall⟩).1
    rw [update_of_ne hq'] at hcall
    exact h.reading q' id' n' target' got' hcall
  case own =>
    intro q1 q2 id' h1 h2
    exact h.own q1 q2 id' (is_update_none.mp h1).2 (is_update_none.mp h2).2
  case returned =>
    intro x hx
    obtain hx | hx := mem_append.mp hx
    · obtain ⟨hlt, hno, hbytes⟩ := h.returned x hx
      exact ⟨hlt, fun q' hIs => hno q' (is_update_none.mp hIs).2, hbytes⟩
    · obtain rfl := mem_singleton.mp hx
      have hresult : target - rest = got.length := by omega
      refine ⟨hid, fun q' hIs => ?_, hgot.symm, hresult⟩
      obtain ⟨hne, hIs⟩ := is_update_none.mp hIs
      exact hne (h.own q' q id hIs ⟨_, _, _, hq⟩)
  case once =>
    rw [map_append, map_singleton, nodup_append]
    refine ⟨h.once, pairwise_singleton _ _, fun i hi j hj hij => ?_⟩
    obtain ⟨y, hy, rfl⟩ := mem_map.mp hi
    obtain rfl := mem_singleton.mp hj
    exact (h.returned y hy).2.1 q (hij ▸ ⟨_, _, _, hq⟩)
  case accounted =>
    intro x hx
    obtain ⟨q', hIs⟩ | ⟨y, hy, hid⟩ := h.accounted x hx
    · by_cases hq' : q' = q
      · subst hq'
        rw [hq] at hIs
        obtain ⟨_, _, _, ⟨⟩⟩ := hIs
        exact .inr ⟨_, mem_append_right _ (mem_singleton_self _), rfl⟩
      · exact .inl ⟨q', is_update_none.mpr ⟨hq', hIs⟩⟩
    · exact .inr ⟨y, mem_append_left _ hy, hid⟩

theorem Tracked.begin (h : Tracked s) (hq : s.call q = .none) (n : ℕ) :
    Tracked { s with
      call := update s.call q (.read s.calls n n [])
      calls := s.calls + 1 } := by
  have hIs := is_update_begin hq s.calls n n []
  have hold : ∀ q' id', (s.call q').Is id' → id' < s.calls := by
    rintro q' id' ⟨_, _, _, hcall⟩
    exact (h.reading _ _ _ _ _ hcall).1
  constructor
  case fresh => exact fun x hx => Nat.lt_succ_of_lt (h.fresh x hx)
  case reading =>
    intro q' id' n' target' got' hcall
    dsimp only at hcall
    by_cases hq' : q' = q
    · subst hq'
      rw [update_self] at hcall
      cases hcall
      have hnone : s.deliveredTo s.calls = [] := by
        rw [System.deliveredTo, filter_eq_nil_iff.mpr, map_nil]
        intro x hx
        simpa using (h.fresh x hx).ne
      exact ⟨Nat.lt_succ_self _, rfl, hnone⟩
    · rw [update_of_ne hq'] at hcall
      obtain ⟨hlt, hrest⟩ := h.reading q' id' n' target' got' hcall
      exact ⟨Nat.lt_succ_of_lt hlt, hrest⟩
  case own =>
    intro q1 q2 id' h1 h2
    obtain ⟨rfl, rfl⟩ | hIs1 := (hIs q1 id').mp h1
    · obtain ⟨rfl, -⟩ | hIs2 := (hIs q2 _).mp h2
      · rfl
      · exact absurd (hold _ _ hIs2) (Nat.lt_irrefl _)
    · obtain ⟨rfl, rfl⟩ | hIs2 := (hIs q2 id').mp h2
      · exact absurd (hold _ _ hIs1) (Nat.lt_irrefl _)
      · exact h.own q1 q2 id' hIs1 hIs2
  case returned =>
    intro x hx
    obtain ⟨hlt, hno, hbytes⟩ := h.returned x hx
    refine ⟨Nat.lt_succ_of_lt hlt, fun q' hx => ?_, hbytes⟩
    obtain ⟨-, heq⟩ | hx := (hIs q' x.id).mp hx
    · omega
    · exact hno q' hx
  case once => exact h.once
  case accounted =>
    intro x hx
    exact (h.accounted x hx).imp_left fun ⟨q', hcall⟩ => ⟨q', (hIs q' x.1).mpr (.inr hcall)⟩

theorem Tracked.runRead (hI : Inv s) (h : Tracked s) (hq : s.call q = .read id n target got) :
    Tracked (s.runRead q false id n target got) := by
  obtain ⟨xs, hold, -⟩ := hI.buffer
  obtain ⟨t, bytes, rest, sleeps, ys, heq, -, -, hlen⟩ := hold.readLoop target n
  have hdeliver := h.deliver hq t hlen
  simp only [System.runRead, heq]
  split
  · exact hdeliver
  · have hfinish := hdeliver.finish (update_self q _ s.call)
    rwa [update_idem] at hfinish

theorem Tracked.step (hI : Inv s) (h : Tracked s) (ho : Alive s e)
    (hs : step s e = some s') : Tracked s' := by
  cases e with
  | consoleintr cs =>
    obtain rfl := Option.some.inj hs
    exact keys_induct (I := Tracked) (fun _ _ h => ⟨h.1, h.2, h.3, h.4, h.5, h.6⟩) cs h
  | consoleread q n =>
    simp only [Console.step] at hs
    split at hs
    · next hq =>
        obtain rfl := Option.some.inj hs
        exact h.begin hq n.toNat
    · cases hs
  | run q killed =>
    obtain rfl : killed = false := ho
    simp only [Console.step] at hs
    split at hs
    · cases hs
    · next hq =>
        obtain rfl := Option.some.inj hs
        exact Tracked.runRead hI h hq

theorem tracked_boot : Tracked boot :=
  ⟨by simp [boot], by simp [boot], by simp [boot, Call.Is], by simp [boot], by simp [boot], by simp [boot]⟩

/-- With one call at a time: what the calls have returned, and what the call in progress has so far, is
what was delivered. -/
structure Serial (s : System) : Prop where
  one : ∀ q q' id id', (s.call q).Is id → (s.call q').Is id' → q = q'
  idle : (∀ q, s.call q = .none) → s.returned.flatMap Return.bytes = s.delivered.map Prod.snd
  busy : ∀ q id n target got, s.call q = .read id n target got →
    s.returned.flatMap Return.bytes ++ got = s.delivered.map Prod.snd

theorem Serial.deliver (h : Serial s)
    (hq : s.call q = .read id n target got) (t : Input) (bytes : List UInt8) (rest : ℕ) :
    Serial { s with
      input := t
      delivered := s.delivered ++ bytes.map (Prod.mk id)
      call := update s.call q (.read id rest target (got ++ bytes)) } := by
  have hIs := is_update_read hq rest target (got ++ bytes)
  constructor
  case one =>
    intro q1 q2 id1 id2 h1 h2
    exact h.one q1 q2 id1 id2 ((hIs q1 id1).mp h1) ((hIs q2 id2).mp h2)
  case idle =>
    intro hnone
    have hcall : update s.call q (.read id rest target (got ++ bytes)) q = .none := hnone q
    rw [update_self] at hcall
    cases hcall
  case busy =>
    intro q' id' n' target' got' hcall
    obtain rfl : q' = q := h.one q' q id' id ((hIs q' id').mp ⟨_, _, _, hcall⟩) ⟨_, _, _, hq⟩
    dsimp only at hcall
    rw [update_self] at hcall
    cases hcall
    have hbytes : (bytes.map (Prod.mk id)).map Prod.snd = bytes := by simp
    rw [map_append, hbytes, ← h.busy q' id n target got hq, append_assoc]

theorem Serial.finish (h : Serial s) (hq : s.call q = .read id rest target got) (result : ℕ) :
    Serial { s with
      call := update s.call q .none
      returned := s.returned ++ [⟨id, result, got⟩] } := by
  have hnone : ∀ q' id', ¬ (update s.call q .none q').Is id' := by
    intro q' id' hIs
    obtain ⟨hne, hIs⟩ := is_update_none.mp hIs
    exact hne (h.one q' q id' id hIs ⟨_, _, _, hq⟩)
  constructor
  case one => exact fun q1 _ id1 _ h1 _ => absurd h1 (hnone q1 id1)
  case idle =>
    intro _
    rw [flatMap_append, flatMap_singleton]
    exact h.busy q id rest target got hq
  case busy => exact fun q' id' _ _ _ hcall => absurd ⟨_, _, _, hcall⟩ (hnone q' id')

theorem Serial.begin (h : Serial s) (hidle : ∀ q, s.call q = .none) (q id n m : ℕ) :
    Serial { s with call := update s.call q (.read id n n []), calls := m } := by
  have hIs : ∀ q' id', (update s.call q (.read id n n []) q').Is id' → q' = q := by
    intro q' id' hIs
    obtain ⟨heq, -⟩ | ⟨_, _, _, hcall⟩ := (is_update_begin (hidle q) id n n [] q' id').mp hIs
    · exact heq
    · rw [hidle q'] at hcall
      cases hcall
  constructor
  case one => exact fun q1 q2 id1 id2 h1 h2 => (hIs q1 id1 h1).trans (hIs q2 id2 h2).symm
  case idle => exact fun _ => h.idle hidle
  case busy =>
    intro q' id' n' target' got' hcall
    obtain rfl := hIs q' id' ⟨_, _, _, hcall⟩
    dsimp only at hcall
    rw [update_self] at hcall
    cases hcall
    rw [append_nil]
    exact h.idle hidle

theorem Serial.runRead (h : Serial s)
    (hq : s.call q = .read id n target got) : Serial (s.runRead q false id n target got) := by
  rw [System.runRead]
  split
  next t bytes rest sleeps heq =>
    have hdeliver := h.deliver hq t bytes rest
    dsimp only
    split
    · exact hdeliver
    · have hfinish := hdeliver.finish (update_self q _ s.call) (target - rest)
      rwa [update_idem] at hfinish

theorem Serial.step (h : Serial s) (ho : Alive s e ∧ Alone s e) (hs : step s e = some s') : Serial s' := by
  cases e with
  | consoleintr cs =>
    obtain rfl := Option.some.inj hs
    exact keys_induct (I := Serial) (fun _ _ h => ⟨h.1, h.2, h.3⟩) cs h
  | consoleread q n =>
    simp only [Console.step] at hs
    split at hs
    · obtain rfl := Option.some.inj hs
      exact h.begin ho.2 q s.calls n.toNat _
    · cases hs
  | run q killed =>
    obtain rfl : killed = false := ho.1
    simp only [Console.step] at hs
    split at hs
    · cases hs
    · next hq =>
        obtain rfl := Option.some.inj hs
        exact h.runRead hq

theorem serial_boot : Serial boot :=
  ⟨by simp [boot, Call.Is], fun _ => rfl, by simp [boot]⟩

/-- The console's lines. The counters are in order, and editing keys leave alone what readers may have.
The bytes delivered are the committed text without `^D`, in order, up to what is still in the buffer; each
goes to one call, which returns the bytes it got and their number, and calls that follow one another
return them in order. The committed text is what was typed, with the edits of the current line: a
character typed with no room is dropped, and one that takes the last room ends the line. -/
theorem console_lines (h : Reaches step Alive boot s) :
    ((s.input.w + UINT - s.input.r) % UINT ≤ s.input.used ∧ s.input.used ≤ INPUT_BUF) ∧
      (∀ c, c = ctrl 'U' ∨ c = ctrl 'H' ∨ c = DEL →
        (s.input.key c).r = s.input.r ∧ (s.input.key c).w = s.input.w ∧
          (s.input.key c).pending = s.input.pending) ∧
      (text (edit s.typed).committed = s.delivered.map Prod.snd ++ text s.input.pending ∧
        ((∀ k ∈ s.typed, 2 ≤ k.2) → edit s.typed = typedText s.typed)) ∧
      ((∀ x ∈ s.returned, x.bytes = s.deliveredTo x.id ∧ x.result = x.bytes.length) ∧
        (s.returned.map Return.id).Nodup ∧
        ∀ x ∈ s.delivered, (∃ q, (s.call q).Is x.1) ∨ ∃ y ∈ s.returned, y.id = x.1) ∧
      (Reaches step (fun s e => Alive s e ∧ Alone s e) boot s → (∀ q, s.call q = .none) →
        s.returned.flatMap Return.bytes = s.delivered.map Prod.snd) := by
  have hboth : Inv s ∧ Tracked s :=
    h.invariant (I := fun s => Inv s ∧ Tracked s)
      (fun _ _ _ hI ho hs => ⟨hI.1.step hs, hI.2.step hI.1 ho hs⟩) ⟨inv_boot, tracked_boot⟩
  obtain ⟨hI, hT⟩ := hboth
  obtain ⟨xs, hold, htext⟩ := hI.buffer
  refine ⟨⟨?_, ?_⟩, fun c hc => ?_, ⟨?_, edit_typed⟩, ⟨fun x hx => (hT.returned x hx).2.2, hT.once,
    hT.accounted⟩, fun hserial hidle => ?_⟩
  · rw [hold.readers.count_eq size_lt, hold.used]
    exact Nat.le_add_right _ _
  · rw [hold.used, ← length_append]
    exact hold.ring.fits
  · obtain ⟨hr, hw, hbuf⟩ := s.input.key_editing hc
    refine ⟨hr, hw, ?_⟩
    rw [Input.pending, Input.pending, hr, hw, hbuf]
  · rw [hold.pending, htext]
  · have hS : Serial s := hserial.invariant (fun _ _ _ hI ho hs => hI.step ho hs) serial_boot
    exact hS.idle hidle

/-- A line with a correction is read in two calls. -/
theorem console_lines_two_reads : ∃ s, Reaches step Alive boot s ∧
    (s.returned.map Return.bytes = [[97], [98, 10]] ∧
      s.typed.map Prod.fst = [97, 99, 8, 98, 13]) ∧
    text (edit s.typed).committed = s.delivered.map Prod.snd ++ text s.input.pending := by
  obtain ⟨s, hs, htest⟩ := reaches_of_exec step Alive boot
    [.consoleread 0 1, .run 0 false, .consoleintr [97, 99, 8], .run 0 false, .consoleintr [98, 13],
      .run 0 false, .consoleread 1 5, .run 1 false]
    (fun s => s.returned.map Return.bytes = [[97], [98, 10]] ∧
      s.typed.map Prod.fst = [97, 99, 8, 98, 13]) (by decide +kernel)
  exact ⟨s, hs, of_decide_eq_true htest, (console_lines hs).2.2.1.1⟩

/-- With 128 characters in the buffer the next ones are lost, also the newline: a reader that has taken
all there is has not got what was typed. -/
theorem console_drops : ∃ s, Reaches step Alive boot s ∧ s.input.r = s.input.w ∧
    (typedText s.typed).committed = replicate 128 97 ++ [98, 10] ∧
    s.delivered.map Prod.snd ≠ text (typedText s.typed).committed := by
  obtain ⟨s, hs, htest⟩ := reaches_of_exec step Alive boot
    [.consoleintr (replicate 128 97 ++ [98, 10]), .consoleread 0 128, .run 0 false]
    (fun s => s.input.r = s.input.w ∧
      (typedText s.typed).committed = replicate 128 97 ++ [98, 10] ∧
      s.delivered.map Prod.snd ≠ text (typedText s.typed).committed) (by decide +kernel)
  exact ⟨s, hs, of_decide_eq_true htest⟩

end Xv6.Console
