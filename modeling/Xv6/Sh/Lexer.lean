import Mathlib.Data.List.GetD
import Mathlib.Data.List.TakeWhile
import Xv6.Lib.Fallible
import Xv6.Sh.Grammar

/-! # The cursor and the tokens

At each position the parser sees the tokens of the rest of the line (`Sees`). `gettoken` takes the first
one off (`Sees.gettoken`), `peek` looks at it (`Sees.peek`); neither reads behind the line. A word that
`gettoken` finds lies between two positions (`IsSpan`) that no other word's end comes between, so that
after `nulterminate` the words can still be read (`cstring_nulterminate`). -/

namespace Xv6.Sh

open Fallible List Function Option

section
variable {line : List UInt8} {s : ℕ} {ts : List Token}

/-! ### Scanning -/

theorem scanLoop_eq (p : UInt8 → Bool) :
    ∀ n s, line.length - s ≤ n → scanLoop line p n s = s + ((line.drop s).takeWhile p).length
  | 0, s, h => by
    rw [drop_eq_nil_of_le (by omega)]
    rfl
  | n + 1, s, h => by
    rw [scanLoop]
    by_cases hs : s < line.length
    · rw [drop_eq_getElem_cons hs, takeWhile_cons, ← getD_eq_getElem line 0 hs]
      by_cases hp : p (line.getD s 0) = true
      · rw [if_pos ⟨hs, hp⟩, if_pos hp, scanLoop_eq p n (s + 1) (by omega), length_cons]
        omega
      · rw [if_neg (fun h => hp h.2), if_neg hp]
        rfl
    · rw [if_neg (fun h => hs h.1), drop_eq_nil_of_le (by omega)]
      rfl

theorem scan_eq (p : UInt8 → Bool) (s : ℕ) :
    scan line p s = s + ((line.drop s).takeWhile p).length :=
  scanLoop_eq p _ s (Nat.le_refl _)

theorem drop_scan (line : List UInt8) (p : UInt8 → Bool) (s : ℕ) :
    line.drop (scan line p s) = (line.drop s).dropWhile p := by
  rw [scan_eq, ← drop_drop]
  calc (line.drop s).drop ((line.drop s).takeWhile p).length
      = ((line.drop s).takeWhile p ++ (line.drop s).dropWhile p).drop
          ((line.drop s).takeWhile p).length := by rw [takeWhile_append_dropWhile]
    _ = (line.drop s).dropWhile p := drop_left

theorem scan_le (p : UInt8 → Bool) (hs : s ≤ line.length) : scan line p s ≤ line.length := by
  have hlen := ( takeWhile_prefix p (l := line.drop s)).length_le
  rw [scan_eq]
  rw [length_drop] at hlen
  omega

theorem charAt_eq (hs : s ≤ line.length) : charAt line s = .ok (line.getD s 0) := if_pos hs

variable {c : UInt8}

theorem drop_eq_cons {l : List UInt8} (h : line.drop s = c :: l) :
    s < line.length ∧ line.getD s 0 = c ∧ line.drop (s + 1) = l := by
  have hs : s < line.length := by
    by_contra hge
    rw [drop_eq_nil_of_le (by omega)] at h
    cases h
  rw [drop_eq_getElem_cons hs, cons.injEq] at h
  exact ⟨hs, by rw [getD_eq_getElem line 0 hs, h.1], h.2⟩

theorem getD_of_drop_nil (h : line.drop s = []) : line.getD s 0 = 0 :=
  getD_eq_default _ _ (drop_eq_nil_iff.mp h)

/-! ### Words between positions -/

/-- The bytes between two positions. -/
def slice (line : List UInt8) (w : Span) : List UInt8 := (line.drop w.1).take (w.2 - w.1)

/-- The positions enclose a word: letters up to a character that is none, or to the end. -/
structure IsSpan (line : List UInt8) (w : Span) : Prop where
  le : w.1 ≤ w.2
  bound : w.2 ≤ line.length
  letters : ∀ i, w.1 ≤ i → i < w.2 → isWord (line.getD i 0) = true
  stop : w.2 = line.length ∨ isWord (line.getD w.2 0) = false

theorem slice_scan (line : List UInt8) (s : ℕ) :
    slice line (s, scan line isWord s) = (line.drop s).takeWhile isWord := by
  rw [slice, scan_eq, Nat.add_sub_cancel_left]
  calc (line.drop s).take ((line.drop s).takeWhile isWord).length
      = ((line.drop s).takeWhile isWord ++ (line.drop s).dropWhile isWord).take
          ((line.drop s).takeWhile isWord).length := by rw [takeWhile_append_dropWhile]
    _ = (line.drop s).takeWhile isWord := take_left

theorem isSpan_scan (hs : s ≤ line.length) : IsSpan line (s, scan line isWord s) := by
  refine ⟨by rw [scan_eq]; exact Nat.le_add_right _ _, scan_le isWord hs, fun i hsi hi => ?_, ?_⟩
  · have hmem : line.getD i 0 ∈ (line.drop s).takeWhile isWord := by
      have hlen : i - s < ((line.drop s).takeWhile isWord).length := by
        dsimp only at hsi hi
        rw [scan_eq] at hi
        omega
      have hget := ( takeWhile_prefix isWord (l := line.drop s)).getElem hlen
      have hi' : i < line.length := lt_of_lt_of_le hi (scan_le isWord hs)
      have hsum : s + (i - s) = i := Nat.add_sub_cancel' hsi
      rw [getD_eq_getElem line 0 hi']
      rw [getElem_drop] at hget
      simp only [hsum] at hget
      rw [← hget]
      exact getElem_mem hlen
    exact mem_takeWhile_imp hmem
  · have hdrop := drop_scan line isWord s
    cases hrest : (line.drop s).dropWhile isWord with
    | nil =>
      rw [hrest] at hdrop
      exact .inl (le_antisymm (scan_le isWord hs) (drop_eq_nil_iff.mp hdrop))
    | cons c l =>
      have hstop := head?_dropWhile_not isWord (line.drop s)
      rw [hrest] at hdrop hstop
      rw [(drop_eq_cons hdrop).2.1]
      exact .inr (by simpa using hstop)

/-! ### What the cursor sees -/

/-- From the position `s` on the line has the tokens `ts`. -/
structure Sees (line : List UInt8) (s : ℕ) (ts : List Token) : Prop where
  bound : s ≤ line.length
  tokens : lex (line.drop s) = ts

/-- The kind of the first token. -/
def kindOf : List Token → Tok
  | [] => .eof
  | t :: _ => t.kind

theorem eq_word_of_kindOf (h : kindOf ts = .word) : ∃ w r, ts = .word w :: r := by
  cases ts with
  | nil => cases h
  | cons t r =>
    cases t with
    | word w => exact ⟨w, r, rfl⟩
    | _ => cases h

/-- The first token begins with one of the symbols. -/
def starts (toks : String) : List Token → Bool
  | [] => false
  | t :: _ => t.sym.any (· ∈ chars toks)

theorem eq_cons_of_starts {toks : String} {x : Token}
    (honly : ∀ t ∈ [Token.bar, .lpar, .rpar, .semi, .amp, .lt, .gt, .gtgt],
      starts toks [t] = true → t = x) (h : starts toks ts = true) : ∃ r, ts = x :: r := by
  cases ts with
  | nil => cases h
  | cons t r =>
    have ht : t ∈ [Token.bar, .lpar, .rpar, .semi, .amp, .lt, .gt, .gtgt] := by
      cases t with
      | word w => cases h
      | _ => decide
    exact ⟨r, by rw [honly t ht h]⟩

theorem Sees.skip (h : Sees line s ts) : Sees line (scan line isSpace s) ts :=
  ⟨scan_le isSpace h.bound, by rw [drop_scan, lex_dropWhile, h.tokens]⟩

theorem head_skip (s : ℕ) : ∀ c ∈ (line.drop (scan line isSpace s)).head?, isSpace c = false := by
  intro c hc
  rw [drop_scan, mem_def] at hc
  have := head?_dropWhile_not isSpace (line.drop s)
  simpa [hc] using this

theorem symbolToken_ne_word {w : List UInt8} : symbolToken c ≠ some (.word w) := by
  rw [symbolToken]
  split_ifs <;> simp

/-- The `switch` of `gettoken` finds the first token. -/
theorem Sees.tokenAt (h : Sees line s ts) (hnul : 0 ∉ line)
    (hspace : ∀ c ∈ (line.drop s).head?, isSpace c = false) :
    ∃ e, tokenAt line s = .ok (kindOf ts, e) ∧ Sees line e ts.tail ∧
      ∀ w r, ts = .word w :: r → IsSpan line (s, e) ∧ slice line (s, e) = w := by
  obtain ⟨hs, rfl⟩ := h
  rw [Sh.tokenAt, charAt_eq hs, ok_bind]
  cases hl : line.drop s with
  | nil =>
    refine ⟨s, ?_, ⟨hs, by rw [hl]; rfl⟩, fun w r h => by cases h⟩
    rw [getD_of_drop_nil hl]
    rfl
  | cons c l =>
    obtain ⟨hlt, hc, hnext⟩ := drop_eq_cons hl
    have hc0 : c ≠ 0 := by
      rintro rfl
      exact hnul (hc ▸ getD_eq_getElem line 0 hlt ▸ getElem_mem hlt)
    have hsp : isSpace c = false := hspace c (by rw [hl]; rfl)
    have hkind := symbolToken_kind c
    rw [hc, if_neg hc0, ← hkind]
    cases hsym : symbolToken c with
    | some t =>
      rw [lex_symbol hsym]
      refine ⟨s + 1, rfl, ⟨hlt, by rw [hnext]; rfl⟩, fun w r h => ?_⟩
      obtain ⟨rfl, -⟩ := cons.inj h
      exact absurd hsym symbolToken_ne_word
    | none =>
      by_cases hgt : c = '>'.toUInt8
      · subst hgt
        simp only [map_none, if_pos, charAt_eq (Nat.succ_le_of_lt hlt), ok_bind]
        have hnone : ∀ t r w r', t ≠ .word w → (t :: r : List Token) ≠ .word w :: r' :=
          fun t r w r' hne h => hne (cons.inj h).1
        cases l with
        | nil =>
          rw [getD_of_drop_nil hnext, if_neg (by decide)]
          exact ⟨s + 1, rfl, ⟨hlt, by rw [hnext]; rfl⟩, fun w r h => absurd h (hnone _ _ _ _ nofun)⟩
        | cons d l =>
          obtain ⟨hlt', hd, hnext'⟩ := drop_eq_cons hnext
          rw [hd]
          by_cases hdgt : d = '>'.toUInt8
          · subst hdgt
            rw [if_pos rfl, lex_gtgt]
            exact ⟨s + 2, rfl, ⟨hlt', by rw [hnext']; rfl⟩, fun w r h => absurd h (hnone _ _ _ _ nofun)⟩
          · rw [if_neg hdgt, lex_gt (by simpa using hdgt)]
            exact ⟨s + 1, rfl, ⟨hlt, by rw [hnext]; rfl⟩, fun w r h => absurd h (hnone _ _ _ _ nofun)⟩
      · have hword : isWord c = true := (isWord_iff c).mpr ⟨hsp, hgt, hsym⟩
        have hslice := slice_scan line s
        have hdrop := drop_scan line isWord s
        rw [hl, takeWhile_cons_of_pos hword] at hslice
        rw [hl, dropWhile_cons_of_pos hword] at hdrop
        simp only [map_none, if_neg hgt, lex_word hword]
        refine ⟨scan line isWord s, rfl, ⟨scan_le isWord hs, by rw [hdrop]; rfl⟩, fun w r h => ?_⟩
        obtain ⟨hw, -⟩ := cons.inj h
        exact ⟨isSpan_scan hs, by rw [hslice, Token.word.inj hw]⟩

theorem Sees.gettoken (h : Sees line s ts) (hnul : 0 ∉ line) :
    ∃ w s', gettoken line s = .ok (kindOf ts, w, s') ∧ Sees line s' ts.tail ∧
      ∀ v r, ts = .word v :: r → IsSpan line w ∧ slice line w = v := by
  obtain ⟨e, htok, hrest, hword⟩ := h.skip.tokenAt hnul (head_skip s)
  refine ⟨(scan line isSpace s, e), scan line isSpace e, ?_, hrest.skip, hword⟩
  rw [Sh.gettoken, htok]
  rfl

theorem Sees.take {t : Token} {r : List Token} (h : Sees line s (t :: r)) (hnul : 0 ∉ line) :
    ∃ w s', Sh.gettoken line s = .ok (t.kind, w, s') ∧ Sees line s' r ∧
      ∀ v, t = .word v → IsSpan line w ∧ slice line w = v := by
  obtain ⟨w, s', htok, hrest, hword⟩ := h.gettoken hnul
  exact ⟨w, s', htok, hrest, fun v hv => hword v r (by rw [hv])⟩

/-- The first token begins with the character at the cursor. -/
theorem lex_sym (hc : isSpace c = false) (l : List UInt8) :
    ∃ t r, lex (c :: l) = t :: r ∧ ((isWord c = true ∧ t.sym = none) ∨ t.sym = some c) := by
  by_cases hword : isWord c = true
  · exact ⟨_, _, lex_word hword l, .inl ⟨hword, rfl⟩⟩
  by_cases hgt : c = '>'.toUInt8
  · subst hgt
    cases l with
    | nil => exact ⟨.gt, [], rfl, .inr rfl⟩
    | cons d l =>
      by_cases hd : d = '>'.toUInt8
      · subst hd
        exact ⟨.gtgt, _, lex_gtgt l, .inr rfl⟩
      · exact ⟨.gt, _, lex_gt (by simpa using hd), .inr rfl⟩
  · cases hsym : symbolToken c with
    | none => exact absurd ((isWord_iff c).mpr ⟨hc, hgt, hsym⟩) hword
    | some t =>
      refine ⟨t, _, lex_symbol hsym l, .inr ?_⟩
      revert hsym
      rw [symbolToken]
      split_ifs with h1 h2 h3 h4 h5 h6 <;> rintro ⟨⟩ <;> simp [Token.sym, *]

theorem Sees.first (h : Sees line s ts) (hspace : ∀ c ∈ (line.drop s).head?, isSpace c = false) :
    (s = line.length ∧ ts = []) ∨ ∃ t r, ts = t :: r ∧ s < line.length ∧
      ((isWord (line.getD s 0) = true ∧ t.sym = none) ∨ t.sym = some (line.getD s 0)) := by
  obtain ⟨hs, rfl⟩ := h
  cases hl : line.drop s with
  | nil => exact .inl ⟨Nat.le_antisymm hs (drop_eq_nil_iff.mp hl), rfl⟩
  | cons c l =>
    obtain ⟨hlt, hc, -⟩ := drop_eq_cons hl
    obtain ⟨t, r, hlex, hsym⟩ := lex_sym (hspace c (by rw [hl]; rfl)) l
    exact .inr ⟨t, r, hlex, hlt, by rwa [hc]⟩

theorem Sees.peek (h : Sees line s ts) (hnul : 0 ∉ line) (toks : String)
    (htoks : (chars toks).all (fun c => c ∈ symbols) = true) :
    ∃ s', peek line s toks = .ok (starts toks ts, s') ∧ Sees line s' ts ∧
      (s' = line.length ↔ ts = []) := by
  have hchar : charAt line (scan line isSpace s) = .ok (line.getD (scan line isSpace s) 0) :=
    charAt_eq h.skip.bound
  refine ⟨scan line isSpace s, ?_, h.skip, ?_⟩
  · rw [Sh.peek]
    simp only [hchar, ok_bind]
    obtain ⟨hend, rfl⟩ | ⟨t, r, rfl, hlt, hsym⟩ := h.skip.first (head_skip s)
    · rw [hend, getD_eq_default line 0 (Nat.le_refl _)]
      simp [starts]
    · have hc0 : line.getD (scan line isSpace s) 0 ≠ 0 := by
        intro hzero
        exact hnul (hzero ▸ getD_eq_getElem line 0 hlt ▸ getElem_mem hlt)
      revert hc0 hsym
      generalize line.getD (scan line isSpace s) 0 = c
      rintro (⟨hword, hnone⟩ | hsome) hc0
      · have hnot : c ∉ chars toks := by
          intro hmem
          have hsym : c ∈ symbols := of_decide_eq_true (all_eq_true.mp htoks c hmem)
          simp [isWord, hsym] at hword
        simp [starts, hnone, hnot]
      · simp [starts, hsome, hc0]
  · obtain ⟨hend, rfl⟩ | ⟨t, r, rfl, hlt, -⟩ := h.skip.first (head_skip s)
    · exact iff_of_true hend rfl
    · exact iff_of_false hlt.ne (cons_ne_nil t r)

/-! ### Reading the words back -/

/-- The words of a command. -/
def Cmd.words {α : Type} : Cmd α → List α
  | .exec argv => argv
  | .redir cmd r => r.file :: cmd.words
  | .pipe left right => left.words ++ right.words
  | .list left right => left.words ++ right.words
  | .back cmd => cmd.words

theorem Cmd.map_congr {α β : Type} {f g : α → β} (cmd : Cmd α) (h : ∀ w ∈ cmd.words, f w = g w) :
    cmd.map f = cmd.map g := by
  induction cmd with
  | exec argv => exact congrArg Cmd.exec (map_congr_left h)
  | redir cmd r ih =>
    have hr : f r.file = g r.file := h _ mem_cons_self
    rw [Cmd.map, Cmd.map, ih fun w hw => h w (mem_cons_of_mem _ hw), Redir.map, Redir.map, hr]
  | pipe left right ihl ihr =>
    rw [Cmd.map, Cmd.map, ihl fun w hw => h w (mem_append_left _ hw),
      ihr fun w hw => h w (mem_append_right _ hw)]
  | list left right ihl ihr =>
    rw [Cmd.map, Cmd.map, ihl fun w hw => h w (mem_append_left _ hw),
      ihr fun w hw => h w (mem_append_right _ hw)]
  | back cmd ih => rw [Cmd.map, Cmd.map, ih h]

theorem putNuls_apply (ws : List Span) (buf : ℕ → UInt8) (i : ℕ) :
    putNuls ws buf i = if i ∈ ws.map Prod.snd then 0 else buf i := by
  induction ws generalizing buf with
  | nil => rfl
  | cons w ws ih =>
    rw [putNuls, foldl_cons]
    refine (ih _).trans ?_
    rw [update_apply, map_cons]
    by_cases hi : i = w.2
    · simp [hi]
    · simp only [mem_cons, hi, false_or, if_false]

/-- `nulterminate` writes a `NUL` at the end of each word. -/
theorem nulterminate_apply (cmd : Cmd Span) (buf : ℕ → UInt8) (i : ℕ) :
    nulterminate cmd buf i = if i ∈ cmd.words.map Prod.snd then 0 else buf i := by
  induction cmd generalizing buf with
  | exec argv => exact putNuls_apply argv buf i
  | redir cmd r ih =>
    rw [nulterminate, update_apply, ih, Cmd.words, map_cons]
    by_cases hi : i = r.file.2
    · simp [hi]
    · simp only [mem_cons, hi, false_or, if_false]
  | pipe left right ihl ihr =>
    rw [nulterminate, ihr, ihl, Cmd.words, map_append]
    simp only [mem_append]
    split_ifs <;> tauto
  | list left right ihl ihr =>
    rw [nulterminate, ihr, ihl, Cmd.words, map_append]
    simp only [mem_append]
    split_ifs <;> tauto
  | back cmd ih => exact ih buf

theorem IsSpan.apart {w v : Span} (hw : IsSpan line w) (hv : IsSpan line v) {i : ℕ} (hi : w.1 ≤ i)
    (hlt : i < w.2) : i ≠ v.2 := by
  rintro rfl
  obtain hend | hstop := hv.stop
  · exact absurd hw.bound (by omega)
  · rw [hw.letters _ hi hlt] at hstop
    cases hstop

theorem cstring_eq {buf : ℕ → UInt8} {es q e : ℕ} (hqe : q ≤ e) (he : e ≤ es)
    (hletters : ∀ i, q ≤ i → i < e → buf i ≠ 0) (hstop : e = es ∨ buf e = 0) :
    cstring buf es q = (range (e - q)).map fun i => buf (q + i) := by
  have hsplit : es - q = (e - q) + (es - e) := by omega
  have hall : ∀ c ∈ (range (e - q)).map fun i => buf (q + i), (decide (c ≠ 0)) = true := by
    intro c hc
    obtain ⟨i, hi, rfl⟩ := mem_map.mp hc
    rw [mem_range] at hi
    exact decide_eq_true (hletters (q + i) (by omega) (by omega))
  rw [cstring, hsplit, range_add, map_append, takeWhile_append_of_pos hall,
    append_right_eq_self]
  obtain rfl | hnul := hstop
  · simp
  · cases hn : es - e with
    | zero => simp
    | succ n =>
      have hend : q + (e - q) = e := by omega
      simp [range_succ_eq_map, hend, hnul]

theorem cstring_nulterminate (hnul : 0 ∉ line) {cmd : Cmd Span} (hcmd : ∀ w ∈ cmd.words, IsSpan line w)
    {w : Span} (hw : w ∈ cmd.words) :
    cstring (nulterminate cmd fun i => line.getD i 0) line.length w.1 = slice line w := by
  have hspan := hcmd w hw
  have hkeep : ∀ i, w.1 ≤ i → i < w.2 → nulterminate cmd (fun i => line.getD i 0) i = line.getD i 0 := by
    intro i hi hlt
    rw [nulterminate_apply, if_neg]
    intro hmem
    obtain ⟨v, hv, rfl⟩ := mem_map.mp hmem
    exact hspan.apart (hcmd v hv) hi hlt rfl
  have hletters : ∀ i, w.1 ≤ i → i < w.2 → nulterminate cmd (fun i => line.getD i 0) i ≠ 0 := by
    intro i hi hlt hzero
    have hlen : i < line.length := Nat.lt_of_lt_of_le hlt hspan.bound
    rw [hkeep i hi hlt, getD_eq_getElem line 0 hlen] at hzero
    exact hnul (hzero ▸ getElem_mem hlen)
  have hend : nulterminate cmd (fun i => line.getD i 0) w.2 = 0 := by
    rw [nulterminate_apply, if_pos (mem_map_of_mem hw)]
  rw [cstring_eq hspan.le hspan.bound hletters (.inr hend), slice]
  apply ext_getElem
  · have := hspan.bound
    have := hspan.le
    simp
    omega
  · intro i hi hi'
    have hlt : i < w.2 - w.1 := by simpa using hi
    have := hspan.bound
    rw [getElem_map, getElem_range, hkeep _ (by omega) (by omega),
      getD_eq_getElem line 0 (by omega), getElem_take, getElem_drop]

/-- What `runcmd` sees of a command is the words between its positions. -/
theorem tree_nulterminate (hnul : 0 ∉ line) {cmd : Cmd Span} (hcmd : ∀ w ∈ cmd.words, IsSpan line w) :
    cmd.tree (nulterminate cmd fun i => line.getD i 0) line.length = cmd.map (slice line) :=
  cmd.map_congr fun _ hw => cstring_nulterminate hnul hcmd hw

end

end Xv6.Sh
