import Mathlib.Logic.Function.Iterate
import Xv6.Sh.Parse

/-! # The shell's language

What a line means, said without a cursor. `lex` cuts the bytes of a line into tokens: words are as long
as possible, and `>>` is one token. `Derives` is the grammar

    line  ::=  pipe '&'* [ ';' line ]
    pipe  ::=  exec [ '|' pipe ]
    exec  ::=  '(' line ')' redir*  |  redir* ( word redir* )*
    redir ::=  ( '<' | '>' | '>>' ) word

with the command of each derivation; a simple command has at most `MAXARGS - 1` words. -/

namespace Xv6.Sh

open List

/-! ### Tokens -/

inductive Token where
  | word (w : List UInt8)
  | bar
  | lpar
  | rpar
  | semi
  | amp
  | lt
  | gt
  | gtgt
deriving DecidableEq, Repr

/-- What `gettoken` returns for it. -/
def Token.kind : Token → Tok
  | .word _ => .word
  | .bar => .bar
  | .lpar => .lpar
  | .rpar => .rpar
  | .semi => .semi
  | .amp => .amp
  | .lt => .lt
  | .gt => .gt
  | .gtgt => .gtgt

/-- Its first character, unless it is a word. -/
def Token.sym : Token → Option UInt8
  | .word _ => none
  | .bar => some '|'.toUInt8
  | .lpar => some '('.toUInt8
  | .rpar => some ')'.toUInt8
  | .semi => some ';'.toUInt8
  | .amp => some '&'.toUInt8
  | .lt => some '<'.toUInt8
  | .gt => some '>'.toUInt8
  | .gtgt => some '>'.toUInt8

/-- The tokens that are one symbol and the beginning of no other token. -/
def symbolToken (c : UInt8) : Option Token :=
  if c = '|'.toUInt8 then some .bar
  else if c = '('.toUInt8 then some .lpar
  else if c = ')'.toUInt8 then some .rpar
  else if c = ';'.toUInt8 then some .semi
  else if c = '&'.toUInt8 then some .amp
  else if c = '<'.toUInt8 then some .lt
  else none

def flush (w : List UInt8) : List Token := if w = [] then [] else [.word w]

/-- The tokens of a text that comes after the letters `w` of a word. -/
def lexFrom : List UInt8 → List UInt8 → List Token
  | w, [] => flush w
  | w, c :: l =>
    if isSpace c = true then flush w ++ lexFrom [] l
    else if c = '>'.toUInt8 then
      match l with
      | [] => flush w ++ [.gt]
      | d :: l' =>
        if d = '>'.toUInt8 then flush w ++ .gtgt :: lexFrom [] l'
        else flush w ++ .gt :: lexFrom [] (d :: l')
    else match symbolToken c with
      | some t => flush w ++ t :: lexFrom [] l
      | none => lexFrom (w ++ [c]) l

/-- The tokens of a text. -/
def lex (l : List UInt8) : List Token := lexFrom [] l

/-! ### The grammar -/

/-- The mode and descriptor of a redirection. -/
inductive Redirects : Token → ℕ → ℕ → Prop
  | input : Redirects .lt O_RDONLY 0
  | output : Redirects .gt (O_WRONLY ||| O_CREATE) 1
  | append : Redirects .gtgt (O_WRONLY ||| O_CREATE) 1

/-- `redir*`. -/
inductive Redirs : List Token → List (Redir (List UInt8)) → Prop
  | nil : Redirs [] []
  | cons {t : Token} {mode fd : ℕ} {w : List UInt8} {ts : List Token} {rs : List (Redir (List UInt8))} :
      Redirects t mode fd → Redirs ts rs → Redirs (t :: .word w :: ts) (⟨w, mode, fd⟩ :: rs)

/-- `( word redir* )*`, with the words and the redirections. -/
inductive Args : List Token → List (List UInt8) → List (Redir (List UInt8)) → Prop
  | nil : Args [] [] []
  | cons {w : List UInt8} {us ts : List Token} {ws : List (List UInt8)}
      {rs rs' : List (Redir (List UInt8))} :
      Redirs us rs → Args ts ws rs' → Args (.word w :: (us ++ ts)) (w :: ws) (rs ++ rs')

inductive Nonterminal where
  | line
  | pipe
  | exec
deriving DecidableEq, Repr

inductive Derives : Nonterminal → List Token → Cmd (List UInt8) → Prop
  | line {ts : List Token} {t : Cmd (List UInt8)} (n : ℕ) :
      Derives .pipe ts t → Derives .line (ts ++ replicate n .amp) (Cmd.back^[n] t)
  | list {ts us : List Token} {t u : Cmd (List UInt8)} (n : ℕ) :
      Derives .pipe ts t → Derives .line us u →
      Derives .line (ts ++ (replicate n .amp ++ .semi :: us)) (.list (Cmd.back^[n] t) u)
  | exec {ts : List Token} {t : Cmd (List UInt8)} : Derives .exec ts t → Derives .pipe ts t
  | pipe {ts us : List Token} {t u : Cmd (List UInt8)} :
      Derives .exec ts t → Derives .pipe us u → Derives .pipe (ts ++ .bar :: us) (.pipe t u)
  | block {ts us : List Token} {t : Cmd (List UInt8)} {rs : List (Redir (List UInt8))} :
      Derives .line ts t → Redirs us rs → Derives .exec (.lpar :: (ts ++ .rpar :: us)) (t.wrap rs)
  | simple {ts us : List Token} {ws : List (List UInt8)} {rs rs' : List (Redir (List UInt8))} :
      Redirs ts rs → Args us ws rs' → ws.length ≤ MAXARGS - 1 →
      Derives .exec (ts ++ us) (Cmd.wrap (.exec ws) (rs ++ rs'))

/-- The tokens that may come after a part of a line. -/
def Nonterminal.follow : Nonterminal → List Tok
  | .line => [.rpar]
  | .pipe => [.rpar, .semi, .amp]
  | .exec => [.rpar, .semi, .amp, .bar]

/-- `rest` may come after a part of the line. -/
def Follows (x : Nonterminal) (rest : List Token) : Prop := ∀ t ∈ rest.head?, t.kind ∈ x.follow

/-! ### Cutting a text into tokens -/

theorem symbolToken_kind (c : UInt8) : (symbolToken c).map Token.kind = single c := by
  simp only [symbolToken, single]
  split_ifs <;> rfl

theorem mem_symbols (c : UInt8) : c ∈ symbols ↔ c = '>'.toUInt8 ∨ symbolToken c ≠ none := by
  simp only [symbols, chars, symbolToken]
  split_ifs <;> simp_all

variable {c : UInt8}

theorem symbols_space (h : c ∈ symbols) : isSpace c = false := by
  have hall : symbols.all (fun c => !isSpace c) = true := rfl
  simpa using all_eq_true.mp hall c h

/-- A letter of a word is no space and begins no other token. -/
theorem isWord_iff (c : UInt8) :
    isWord c = true ↔ isSpace c = false ∧ c ≠ '>'.toUInt8 ∧ symbolToken c = none := by
  have hsym := not_congr (mem_symbols c)
  rw [not_or, not_not] at hsym
  simp [isWord, isSpace, hsym]

theorem lexFrom_cons (w : List UInt8) (c : UInt8) (l : List UInt8) :
    lexFrom w (c :: l) =
      if isWord c = true then lexFrom (w ++ [c]) l else flush w ++ lex (c :: l) := by
  by_cases hspace : isSpace c = true
  · have hword : ¬ isWord c = true := by simp [isWord_iff, hspace]
    cases l <;> simp [lex, lexFrom, hspace, hword, flush]
  by_cases hgt : c = '>'.toUInt8
  · have hword : ¬ isWord c = true := by simp [isWord_iff, hgt]
    rw [if_neg hword, lex]
    subst hgt
    cases l with
    | nil => simp [lexFrom, hspace, flush]
    | cons d l => by_cases hd : d = '>'.toUInt8 <;> simp [lexFrom, hspace, hd, flush]
  · cases hsym : symbolToken c with
    | some t =>
      have hword : ¬ isWord c = true := by simp [isWord_iff, hsym]
      rw [if_neg hword, lex]
      cases l <;> simp [lexFrom, hspace, hgt, hsym, flush]
    | none =>
      have hword : isWord c = true := (isWord_iff c).mpr ⟨by simpa using hspace, hgt, hsym⟩
      rw [if_pos hword]
      cases l <;> simp [lexFrom, hspace, hgt, hsym]

theorem lex_space (hc : isSpace c = true) (l : List UInt8) : lex (c :: l) = lex l := by
  cases l <;> simp [lex, lexFrom, hc, flush]

theorem lex_dropWhile (l : List UInt8) : lex (l.dropWhile isSpace) = lex l := by
  induction l with
  | nil => rfl
  | cons c l ih =>
    rw [dropWhile_cons]
    split
    · next hc => rw [ih, lex_space hc]
    · rfl

theorem lex_symbol {t : Token} (ht : symbolToken c = some t) (l : List UInt8) :
    lex (c :: l) = t :: lex l := by
  have hspace : isSpace c = false := symbols_space ((mem_symbols c).mpr (.inr (by simp [ht])))
  have hgt : c ≠ '>'.toUInt8 := by
    rintro rfl
    cases ht
  cases l <;> simp [lex, lexFrom, hspace, hgt, ht, flush]

theorem lex_gtgt (l : List UInt8) : lex ('>'.toUInt8 :: '>'.toUInt8 :: l) = .gtgt :: lex l := rfl

theorem lex_gt {l : List UInt8} (hl : ∀ c ∈ l.head?, c ≠ '>'.toUInt8) :
    lex ('>'.toUInt8 :: l) = .gt :: lex l := by
  have hspace : isSpace '>'.toUInt8 = false := by decide
  cases l with
  | nil => rfl
  | cons d l =>
    have hd : d ≠ '>'.toUInt8 := hl d rfl
    simp [lex, lexFrom, hspace, hd, flush]

theorem lexFrom_letters (w l : List UInt8) :
    lexFrom w l = flush (w ++ l.takeWhile isWord) ++ lex (l.dropWhile isWord) := by
  induction l generalizing w with
  | nil => simp [lexFrom, lex, flush]
  | cons c l ih =>
    rw [lexFrom_cons, takeWhile_cons, dropWhile_cons]
    split
    · rw [ih, append_assoc, singleton_append]
    · rw [append_nil]

theorem lex_word (hc : isWord c = true) (l : List UInt8) :
    lex (c :: l) = .word (c :: l.takeWhile isWord) :: lex (l.dropWhile isWord) := by
  rw [lex, lexFrom_letters, takeWhile_cons_of_pos hc, dropWhile_cons_of_pos hc]
  rfl

theorem flush_length (w : List UInt8) : (flush w).length ≤ 1 := by
  rw [flush]
  split <;> simp

theorem lexFrom_length (w l : List UInt8) : (lexFrom w l).length ≤ (flush w).length + l.length := by
  fun_induction lexFrom w l
  case case1 => exact Nat.le_refl _
  case case7 w c l _ _ _ ih =>
    have := flush_length (w ++ [c])
    rw [length_cons]
    omega
  all_goals
    have hnil : (flush []).length = 0 := rfl
    simp_all only [length_append, length_cons, length_nil]
    omega

theorem lex_length (l : List UInt8) : (lex l).length ≤ l.length := by
  simpa [flush, lex] using lexFrom_length [] l

end Xv6.Sh
