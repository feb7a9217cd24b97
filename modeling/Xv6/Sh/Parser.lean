import Xv6.Sh.Lexer

/-! # The parser accepts the grammar

For each function of the parser two facts, both about the tokens the cursor sees. It either panics or
returns the command of a derivation of the tokens it has taken (`parse_sound`), and when the tokens begin
with a derivation, and what comes after it may come there, it returns the command of that derivation
(`parse_complete`). In both there is enough fuel for the number of tokens. For a whole line: `parsecmd`
returns a tree just when the line can be derived, and panics otherwise (`parsecmd_grammar`). -/

namespace Xv6.Sh

open Fallible List Option

section
variable {line : List UInt8} {s n s1 k mode fd : ℕ} {ts rest r us : List Token} {cmd : Cmd Span} {t : Token}
  {x : Nonterminal} {α β : Type}

/-! ### What a call returns -/

/-- The call returns a command that reads `t` and leaves the tokens `rest`. -/
def Returns (line : List UInt8) (r : Except Fault (Cmd Span × ℕ)) (t : Cmd (List UInt8))
    (rest : List Token) : Prop :=
  ∃ cmd s, r = .ok (cmd, s) ∧ Sees line s rest ∧ cmd.map (slice line) = t ∧ ∀ w ∈ cmd.words, IsSpan line w

/-- The same for redirections. -/
def ReturnsRedirs (line : List UInt8) (r : Except Fault (List (Redir Span) × ℕ))
    (rs : List (Redir (List UInt8))) (rest : List Token) : Prop :=
  ∃ spans s, r = .ok (spans, s) ∧ Sees line s rest ∧ spans.map (Redir.map (slice line)) = rs ∧
    ∀ x ∈ spans, IsSpan line x.file

/-- The same for the words of a simple command and the redirections between them. -/
def ReturnsArgs (line : List UInt8) (r : Except Fault (List Span × List (Redir Span) × ℕ))
    (ws : List (List UInt8)) (rs : List (Redir (List UInt8))) (rest : List Token) : Prop :=
  ∃ words spans s, r = .ok (words, spans, s) ∧ Sees line s rest ∧ words.map (slice line) = ws ∧
    (∀ w ∈ words, IsSpan line w) ∧ spans.map (Redir.map (slice line)) = rs ∧
    ∀ x ∈ spans, IsSpan line x.file

/-- The call ends in `panic`. -/
def Panics {α : Type} (r : Except Fault α) : Prop := ∃ msg, r = .error (.panic msg)

theorem Panics.bind {r : Except Fault α} (h : Panics r) (f : α → Except Fault β) : Panics (r >>= f) := by
  obtain ⟨msg, rfl⟩ := h
  exact ⟨msg, rfl⟩

theorem map_wrap (f : α → β) (cmd : Cmd α) (rs : List (Redir α)) :
    (cmd.wrap rs).map f = (cmd.map f).wrap (rs.map (Redir.map f)) := by
  induction rs generalizing cmd with
  | nil => rfl
  | cons r rs ih => exact ih (.redir cmd r)

theorem mem_words_wrap {cmd : Cmd α} {rs : List (Redir α)} {w : α}
    (h : w ∈ (cmd.wrap rs).words) : w ∈ cmd.words ∨ ∃ r ∈ rs, r.file = w := by
  induction rs generalizing cmd with
  | nil => exact .inl h
  | cons r rs ih =>
    obtain h | ⟨x, hx, hw⟩ := ih h
    · obtain rfl | h := mem_cons.mp h
      · exact .inr ⟨r, mem_cons_self, rfl⟩
      · exact .inl h
    · exact .inr ⟨x, mem_cons_of_mem r hx, hw⟩

/-- The command a call has returned, with redirections around it. -/
theorem spans_wrap {rs : List (Redir Span)} (hcmd : ∀ w ∈ cmd.words, IsSpan line w)
    (hrs : ∀ x ∈ rs, IsSpan line x.file) : ∀ w ∈ (cmd.wrap rs).words, IsSpan line w := by
  intro w hw
  obtain hw | ⟨x, hx, rfl⟩ := mem_words_wrap hw
  · exact hcmd w hw
  · exact hrs x hx

/-! ### Redirections -/

theorem starts_redirects (h : starts "<>" (t :: r) = true) : ∃ mode fd, Redirects t mode fd := by
  cases t
  case lt => exact ⟨_, _, .input⟩
  case gt => exact ⟨_, _, .output⟩
  case gtgt => exact ⟨_, _, .append⟩
  all_goals cases h

theorem Redirects.starts (h : Redirects t mode fd) (r : List Token) : starts "<>" (t :: r) = true := by
  cases h <;> rfl

theorem Redirects.redirOf (h : Redirects t mode fd) (w : Span) : redirOf t.kind w = [⟨w, mode, fd⟩] := by
  cases h <;> rfl

theorem parseredirs_stop (hnul : 0 ∉ line) (h : Sees line s ts) (hts : starts "<>" ts = false) (n : ℕ) :
    ReturnsRedirs line (parseredirs line (n + 1) s) [] ts := by
  obtain ⟨s', hpeek, hs', -⟩ := h.peek hnul "<>" rfl
  refine ⟨[], s', ?_, hs', rfl, by simp⟩
  simp [parseredirs, hpeek, hts, ok_bind]

theorem parseredirs_more (hnul : 0 ∉ line) {w : List UInt8}
    (h : Sees line s (t :: .word w :: r)) (ht : Redirects t mode fd) (n : ℕ) :
    ∃ s' sp, Sees line s' r ∧ IsSpan line sp ∧ slice line sp = w ∧
      parseredirs line (n + 1) s =
        (do let (rs, s) ← parseredirs line n s'; .ok (⟨sp, mode, fd⟩ :: rs, s)) := by
  obtain ⟨s1, hpeek, hs1, -⟩ := h.peek hnul "<>" rfl
  obtain ⟨w1, s2, htok, hs2, -⟩ := hs1.take hnul
  obtain ⟨sp, s3, hword, hs3, hsp⟩ := hs2.take hnul
  obtain ⟨hspan, hslice⟩ := hsp w rfl
  refine ⟨s3, sp, hs3, hspan, hslice, ?_⟩
  have hkind : (Token.word w).kind = .word := rfl
  simp [parseredirs, hpeek, htok, hword, ok_bind, ht.starts, hkind, ht.redirOf]

theorem parseredirs_bad (hnul : 0 ∉ line)
    (h : Sees line s (t :: r)) (ht : Redirects t mode fd) (hr : kindOf r ≠ .word) (n : ℕ) :
    Panics (parseredirs line (n + 1) s) := by
  obtain ⟨s1, hpeek, hs1, -⟩ := h.peek hnul "<>" rfl
  obtain ⟨w1, s2, htok, hs2, -⟩ := hs1.take hnul
  obtain ⟨sp, s3, hword, -, -⟩ := hs2.gettoken hnul
  refine ⟨"missing file for redirection", ?_⟩
  simp [parseredirs, hpeek, htok, hword, ok_bind, ht.starts, hr]

variable {rs : List (Redir (List UInt8))}

theorem ReturnsRedirs.cons {s' : ℕ} {sp : Span} (h : ReturnsRedirs line (parseredirs line n s') rs rest) (hspan : IsSpan line sp) :
    ReturnsRedirs line (do let (rs, s) ← parseredirs line n s'; .ok (⟨sp, mode, fd⟩ :: rs, s))
      (⟨slice line sp, mode, fd⟩ :: rs) rest := by
  obtain ⟨spans, s, heq, hs, rfl, hspans⟩ := h
  exact ⟨⟨sp, mode, fd⟩ :: spans, s, by rw [heq]; rfl, hs, rfl,
    forall_mem_cons.mpr ⟨hspan, hspans⟩⟩

theorem parseredirs_sound (hnul : 0 ∉ line) (h : Sees line s ts) (hn : ts.length < n) :
    (∃ us rs rest, ts = us ++ rest ∧ Redirs us rs ∧ ReturnsRedirs line (parseredirs line n s) rs rest) ∨
      Panics (parseredirs line n s) := by
  induction n generalizing s ts with
  | zero => exact absurd hn (Nat.not_lt_zero _)
  | succ n ih =>
    cases hstart : starts "<>" ts with
    | false => exact .inl ⟨[], [], ts, rfl, .nil, parseredirs_stop hnul h hstart n⟩
    | true =>
      cases ts with
      | nil => cases hstart
      | cons t r =>
        obtain ⟨mode, fd, ht⟩ := starts_redirects hstart
        by_cases hr : kindOf r = .word
        · obtain ⟨w, r, rfl⟩ := eq_word_of_kindOf hr
          obtain ⟨s', sp, hs', hspan, rfl, heq⟩ := parseredirs_more hnul h ht n
          rw [heq]
          simp only [length_cons] at hn
          obtain ⟨us, rs, rest, rfl, hus, hret⟩ | hpanic := ih hs' (by omega)
          · exact .inl ⟨_, _, rest, rfl, .cons ht hus, hret.cons hspan⟩
          · exact .inr (hpanic.bind _)
        · exact .inr (parseredirs_bad hnul h ht hr n)

theorem parseredirs_complete (hnul : 0 ∉ line)
    (hus : Redirs us rs) (h : Sees line s (us ++ rest)) (hn : us.length < n)
    (hrest : starts "<>" rest = false) : ReturnsRedirs line (parseredirs line n s) rs rest := by
  induction hus generalizing n s with
  | nil =>
    obtain ⟨n, rfl⟩ := Nat.exists_eq_succ_of_ne_zero (Nat.ne_of_gt hn)
    exact parseredirs_stop hnul h hrest n
  | cons ht hus ih =>
    obtain ⟨n, rfl⟩ := Nat.exists_eq_succ_of_ne_zero (Nat.ne_zero_of_lt hn)
    obtain ⟨s', sp, hs', hspan, rfl, heq⟩ := parseredirs_more hnul h ht n
    rw [heq]
    simp only [length_cons] at hn
    exact (ih hs' (by omega)).cons hspan

/-! ### Words -/

theorem Follows.exec_cases (h : Follows .exec rest) :
    starts "<>" rest = false ∧ (rest = [] ∨ starts "|)&;" rest = true) := by
  cases rest with
  | nil => exact ⟨rfl, .inl rfl⟩
  | cons t r =>
    have ht : t.kind ∈ Nonterminal.exec.follow := h t rfl
    cases t <;> first | exact ⟨rfl, .inr rfl⟩ | simp [Token.kind, Nonterminal.follow] at ht

variable {ws : List (List UInt8)}

theorem Args.starts
    (h : Args us ws rs) (hrest : Follows .exec rest) : starts "<>" (us ++ rest) = false := by
  cases h with
  | nil => exact hrest.exec_cases.1
  | cons => rfl

theorem parseargs_stop (hnul : 0 ∉ line) (h : Sees line s ts)
    (hts : ts = [] ∨ starts "|)&;" ts = true) (argc n : ℕ) :
    ReturnsArgs line (parseargs line argc (n + 1) s) [] [] ts := by
  obtain ⟨s1, hpeek, hs1, -⟩ := h.peek hnul "|)&;" rfl
  obtain rfl | hstart := hts
  · obtain ⟨w, s2, htok, hs2, -⟩ := hs1.gettoken hnul
    refine ⟨[], [], s2, ?_, hs2, rfl, by simp, rfl, by simp⟩
    simp [parseargs, hpeek, htok, ok_bind, starts, kindOf]
  · refine ⟨[], [], s1, ?_, hs1, rfl, by simp, rfl, by simp⟩
    simp [parseargs, hpeek, ok_bind, hstart]

theorem parseargs_word (hnul : 0 ∉ line) {w : List UInt8} (h : Sees line s (.word w :: r)) (argc n : ℕ) :
    ∃ s' sp, Sees line s' r ∧ IsSpan line sp ∧ slice line sp = w ∧
      parseargs line argc (n + 1) s =
        if argc + 1 ≥ MAXARGS then .error (.panic "too many args")
        else parseredirs line n s' >>= fun x => parseargs line (argc + 1) n x.2 >>= fun y =>
          .ok (sp :: y.1, x.1 ++ y.2.1, y.2.2) := by
  obtain ⟨s1, hpeek, hs1, -⟩ := h.peek hnul "|)&;" rfl
  obtain ⟨sp, s2, htok, hs2, hsp⟩ := hs1.take hnul
  obtain ⟨hspan, hslice⟩ := hsp w rfl
  refine ⟨s2, sp, hs2, hspan, hslice, ?_⟩
  have hkind : (Token.word w).kind = .word := rfl
  have hstart : starts "|)&;" (.word w :: r) = false := rfl
  simp [parseargs, hpeek, htok, ok_bind, hkind, hstart]

theorem parseargs_bad (hnul : 0 ∉ line) (h : Sees line s (t :: r))
    (hstart : starts "|)&;" (t :: r) = false) (hword : t.kind ≠ .word) (argc n : ℕ) :
    Panics (parseargs line argc (n + 1) s) := by
  obtain ⟨s1, hpeek, hs1, -⟩ := h.peek hnul "|)&;" rfl
  obtain ⟨sp, s2, htok, -, -⟩ := hs1.take hnul
  have heof : t.kind ≠ .eof := by cases t <;> nofun
  refine ⟨"syntax", ?_⟩
  simp [parseargs, hpeek, htok, ok_bind, hstart, heof, hword]

/-- A word, its redirections, and the rest of the command. -/
theorem ReturnsArgs.cons {argc s2 : ℕ} {sp : Span} {spans : List (Redir Span)}
    {rs' : List (Redir (List UInt8))}
    (h : ReturnsArgs line (parseargs line (argc + 1) n s2) ws rs' rest) (hspan : IsSpan line sp)
    (heq : parseredirs line n s1 = .ok (spans, s2)) (hspans : ∀ x ∈ spans, IsSpan line x.file) :
    ReturnsArgs line (parseredirs line n s1 >>= fun x => parseargs line (argc + 1) n x.2 >>= fun y =>
        .ok (sp :: y.1, x.1 ++ y.2.1, y.2.2))
      (slice line sp :: ws) (spans.map (Redir.map (slice line)) ++ rs') rest := by
  obtain ⟨words, spans', s3, heq', hs3, rfl, hwords, rfl, hspans'⟩ := h
  refine ⟨sp :: words, spans ++ spans', s3, ?_, hs3, rfl, ?_, map_append, ?_⟩
  · simp only [heq, heq', ok_bind]
  · exact forall_mem_cons.mpr ⟨hspan, hwords⟩
  · exact forall_mem_append.mpr ⟨hspans, hspans'⟩

theorem parseargs_sound (hnul : 0 ∉ line) (argc : ℕ) (h : Sees line s ts) (hn : ts.length < n)
    (hargc : argc < MAXARGS) :
    (∃ us ws rs rest, ts = us ++ rest ∧ Args us ws rs ∧ argc + ws.length < MAXARGS ∧
      ReturnsArgs line (parseargs line argc n s) ws rs rest) ∨ Panics (parseargs line argc n s) := by
  induction n generalizing s ts argc with
  | zero => exact absurd hn (Nat.not_lt_zero _)
  | succ n ih =>
    have hstop : ts = [] ∨ starts "|)&;" ts = true →
        ∃ us ws rs rest, ts = us ++ rest ∧ Args us ws rs ∧ argc + ws.length < MAXARGS ∧
          ReturnsArgs line (parseargs line argc (n + 1) s) ws rs rest := fun hts =>
      ⟨[], [], [], ts, rfl, .nil, hargc, parseargs_stop hnul h hts argc n⟩
    cases ts with
    | nil => exact .inl (hstop (.inl rfl))
    | cons t r =>
      cases hstart : starts "|)&;" (t :: r) with
      | true => exact .inl (hstop (.inr hstart))
      | false =>
        by_cases hword : t.kind = .word
        · obtain ⟨w, r, ⟨⟩⟩ := eq_word_of_kindOf (show kindOf (t :: r) = .word from hword)
          obtain ⟨s1, sp, hs1, hspan, rfl, heq⟩ := parseargs_word hnul h argc n
          rw [heq]
          by_cases hmany : argc + 1 ≥ MAXARGS
          · exact .inr ⟨_, if_pos hmany⟩
          rw [if_neg hmany]
          simp only [length_cons] at hn
          obtain ⟨us, rs, mid, rfl, hus, hret⟩ | hpanic := parseredirs_sound hnul (n := n) hs1 (by omega)
          · obtain ⟨spans, s2, heq2, hs2, rfl, hspans⟩ := hret
            rw [length_append] at hn
            obtain ⟨us', ws, rs', rest, rfl, hus', hlen, hargs⟩ | hpanic :=
              ih (argc + 1) hs2 (by omega) (by omega)
            · exact .inl ⟨.word (slice line sp) :: (us ++ us'), _, _, rest, by simp, .cons hus hus',
                by rw [length_cons]; omega, hargs.cons hspan heq2 hspans⟩
            · rw [heq2]
              exact .inr (hpanic.bind _)
          · exact .inr (hpanic.bind _)
        · exact .inr (parseargs_bad hnul h hstart hword argc n)

theorem parseargs_complete (hnul : 0 ∉ line) (hus : Args us ws rs) (argc : ℕ)
    (h : Sees line s (us ++ rest)) (hn : us.length < n) (hargc : argc + ws.length < MAXARGS)
    (hrest : Follows .exec rest) : ReturnsArgs line (parseargs line argc n s) ws rs rest := by
  induction hus generalizing n s argc with
  | nil =>
    obtain ⟨n, rfl⟩ := Nat.exists_eq_succ_of_ne_zero (Nat.ne_zero_of_lt hn)
    exact parseargs_stop hnul h hrest.exec_cases.2 argc n
  | @cons w us us' ws rs rs' hus hus' ih =>
    obtain ⟨n, rfl⟩ := Nat.exists_eq_succ_of_ne_zero (Nat.ne_zero_of_lt hn)
    rw [cons_append, append_assoc] at h
    simp only [length_cons, length_append] at hn hargc
    obtain ⟨s1, sp, hs1, hspan, rfl, heq⟩ := parseargs_word hnul h argc n
    obtain ⟨spans, s2, heq2, hs2, rfl, hspans⟩ :=
      parseredirs_complete hnul hus (n := n) hs1 (by omega) (hus'.starts hrest)
    rw [heq, if_neg (by omega)]
    exact (ih (argc + 1) hs2 (by omega) (by omega)).cons hspan heq2 hspans

/-! ### Background commands -/

theorem exists_amps (ts : List Token) :
    ∃ k rest, ts = replicate k .amp ++ rest ∧ starts "&" rest = false := by
  induction ts with
  | nil => exact ⟨0, [], rfl, rfl⟩
  | cons t ts ih =>
    by_cases ht : t = .amp
    · obtain ⟨k, rest, rfl, hrest⟩ := ih
      exact ⟨k + 1, rest, by rw [ht]; rfl, hrest⟩
    · exact ⟨0, t :: ts, rfl, by cases t <;> first | rfl | exact absurd rfl ht⟩

theorem parseback_eq (hnul : 0 ∉ line)
    (h : Sees line s (replicate k .amp ++ rest)) (hk : k < n) (hrest : starts "&" rest = false)
    (cmd : Cmd Span) : ∃ s', parseback line n cmd s = .ok (Cmd.back^[k] cmd, s') ∧ Sees line s' rest := by
  induction n generalizing k s cmd with
  | zero => exact absurd hk (Nat.not_lt_zero _)
  | succ n ih =>
    obtain ⟨s1, hpeek, hs1, -⟩ := h.peek hnul "&" rfl
    cases k with
    | zero =>
      exact ⟨s1, by simp [parseback, hpeek, ok_bind, hrest], hs1⟩
    | succ k =>
      obtain ⟨w, s2, htok, hs2, -⟩ := Sees.take (r := replicate k .amp ++ rest) hs1 hnul
      obtain ⟨s3, heq, hs3⟩ := ih hs2 (by omega) (.back cmd)
      refine ⟨s3, ?_, hs3⟩
      have hstart : starts "&" (replicate (k + 1) .amp ++ rest) = true := rfl
      simp [parseback, hpeek, htok, ok_bind, hstart, heq]

theorem map_iterate_back (f : α → β) (k : ℕ) (cmd : Cmd α) :
    (Cmd.back^[k] cmd).map f = Cmd.back^[k] (cmd.map f) := by
  induction k generalizing cmd with
  | zero => rfl
  | succ k ih => exact ih (.back cmd)

theorem words_iterate_back (k : ℕ) (cmd : Cmd α) : (Cmd.back^[k] cmd).words = cmd.words := by
  induction k generalizing cmd with
  | zero => rfl
  | succ k ih => exact ih (.back cmd)

/-! ### One step of each function -/

theorem parseline_end (hnul : 0 ∉ line)
    (hpipe : parsepipe line n s = .ok (cmd, s1)) (hs1 : Sees line s1 (replicate k .amp ++ rest))
    (hk : k < n) (hamp : starts "&" rest = false) (hsemi : starts ";" rest = false) :
    ∃ s2, parseline line (n + 1) s = .ok (Cmd.back^[k] cmd, s2) ∧ Sees line s2 rest := by
  obtain ⟨s2, hback, hs2⟩ := parseback_eq hnul hs1 hk hamp cmd
  obtain ⟨s3, hpeek, hs3, -⟩ := hs2.peek hnul ";" rfl
  exact ⟨s3, by simp [parseline, hpipe, hback, hpeek, hsemi, ok_bind], hs3⟩

theorem parseline_more (hnul : 0 ∉ line) (hpipe : parsepipe line n s = .ok (cmd, s1))
    (hs1 : Sees line s1 (replicate k .amp ++ .semi :: r)) (hk : k < n) :
    ∃ s2, Sees line s2 r ∧ parseline line (n + 1) s =
      parseline line n s2 >>= fun x => .ok (.list (Cmd.back^[k] cmd) x.1, x.2) := by
  obtain ⟨s2, hback, hs2⟩ := parseback_eq hnul hs1 hk rfl cmd
  obtain ⟨s3, hpeek, hs3, -⟩ := hs2.peek hnul ";" rfl
  obtain ⟨w, s4, htok, hs4, -⟩ := hs3.take hnul
  have hstart : starts ";" (.semi :: r) = true := rfl
  exact ⟨s4, hs4, by simp [parseline, hpipe, hback, hpeek, hstart, htok, ok_bind]⟩

theorem parsepipe_end (hnul : 0 ∉ line)
    (hexec : parseexec line n s = .ok (cmd, s1)) (hs1 : Sees line s1 rest)
    (hbar : starts "|" rest = false) :
    ∃ s2, parsepipe line (n + 1) s = .ok (cmd, s2) ∧ Sees line s2 rest := by
  obtain ⟨s2, hpeek, hs2, -⟩ := hs1.peek hnul "|" rfl
  exact ⟨s2, by simp [parsepipe, hexec, hpeek, hbar, ok_bind], hs2⟩

theorem parsepipe_more (hnul : 0 ∉ line)
    (hexec : parseexec line n s = .ok (cmd, s1)) (hs1 : Sees line s1 (.bar :: r)) :
    ∃ s2, Sees line s2 r ∧ parsepipe line (n + 1) s =
      parsepipe line n s2 >>= fun x => .ok (.pipe cmd x.1, x.2) := by
  obtain ⟨s2, hpeek, hs2, -⟩ := hs1.peek hnul "|" rfl
  obtain ⟨w, s3, htok, hs3, -⟩ := hs2.take hnul
  have hstart : starts "|" (.bar :: r) = true := rfl
  exact ⟨s3, hs3, by simp [parsepipe, hexec, hpeek, hstart, htok, ok_bind]⟩

theorem parseexec_block (hnul : 0 ∉ line) (h : Sees line s (.lpar :: r)) (n : ℕ) :
    ∃ s', Sees line s' (.lpar :: r) ∧ parseexec line (n + 1) s = parseblock line n s' := by
  obtain ⟨s1, hpeek, hs1, -⟩ := h.peek hnul "(" rfl
  have hstart : starts "(" (.lpar :: r) = true := rfl
  exact ⟨s1, hs1, by simp [parseexec, hpeek, hstart, ok_bind]⟩

theorem parseexec_simple (hnul : 0 ∉ line) (h : Sees line s ts) (hts : starts "(" ts = false) (n : ℕ) :
    ∃ s', Sees line s' ts ∧ parseexec line (n + 1) s =
      parseredirs line n s' >>= fun x => parseargs line 0 n x.2 >>= fun y =>
        .ok (Cmd.wrap (.exec y.1) (x.1 ++ y.2.1), y.2.2) := by
  obtain ⟨s1, hpeek, hs1, -⟩ := h.peek hnul "(" rfl
  exact ⟨s1, hs1, by simp [parseexec, hpeek, hts, ok_bind]⟩

/-- `parseblock` after its line. -/
def blockEnd (line : List UInt8) (n : ℕ) (cmd : Cmd Span) (s : ℕ) : Except Fault (Cmd Span × ℕ) := do
  let (closed, s) ← peek line s ")"
  if closed = false then .error (.panic "syntax - missing )")
  else do
    let (_, _, s) ← gettoken line s
    let (rs, s) ← parseredirs line n s
    .ok (cmd.wrap rs, s)

theorem parseblock_eq (hnul : 0 ∉ line) (h : Sees line s (.lpar :: r)) (n : ℕ) :
    ∃ s', Sees line s' r ∧ parseblock line (n + 1) s =
      parseline line n s' >>= fun x => blockEnd line n x.1 x.2 := by
  obtain ⟨s1, hpeek, hs1, -⟩ := h.peek hnul "(" rfl
  obtain ⟨w, s2, htok, hs2, -⟩ := hs1.take hnul
  have hstart : starts "(" (.lpar :: r) = true := rfl
  exact ⟨s2, hs2, by simp [parseblock, blockEnd, hpeek, hstart, htok, ok_bind]⟩

theorem blockEnd_close (hnul : 0 ∉ line) (h : Sees line s (.rpar :: r)) (n : ℕ)
    (cmd : Cmd Span) : ∃ s', Sees line s' r ∧ blockEnd line n cmd s =
      parseredirs line n s' >>= fun x => .ok (cmd.wrap x.1, x.2) := by
  obtain ⟨s1, hpeek, hs1, -⟩ := h.peek hnul ")" rfl
  obtain ⟨w, s2, htok, hs2, -⟩ := hs1.take hnul
  have hstart : starts ")" (.rpar :: r) = true := rfl
  exact ⟨s2, hs2, by simp [blockEnd, hpeek, hstart, htok, ok_bind]⟩

theorem blockEnd_open (hnul : 0 ∉ line) (h : Sees line s ts) (hts : starts ")" ts = false) (n : ℕ)
    (cmd : Cmd Span) : Panics (blockEnd line n cmd s) := by
  obtain ⟨s1, hpeek, -, -⟩ := h.peek hnul ")" rfl
  exact ⟨"syntax - missing )", by simp [blockEnd, hpeek, hts, ok_bind]⟩

/-! ### Soundness -/

/-- The call panics, or it returns the command of a derivation of the tokens it has taken. -/
def Sound (line : List UInt8) (x : Nonterminal) (ts : List Token) (r : Except Fault (Cmd Span × ℕ)) :
    Prop :=
  (∃ us t rest, ts = us ++ rest ∧ Derives x us t ∧ Returns line r t rest) ∨ Panics r

/-- The call comes to its end with fuel for the tokens there are. -/
def SoundCall (line : List UInt8) (x : Nonterminal) (parse : ℕ → ℕ → Except Fault (Cmd Span × ℕ))
    (c n : ℕ) : Prop :=
  ∀ s ts, Sees line s ts → 4 * ts.length + c ≤ n → Sound line x ts (parse n s)

theorem parseline_sound (hnul : 0 ∉ line) (hpipe : SoundCall line .pipe (parsepipe line) 4 n)
    (hline : SoundCall line .line (parseline line) 5 n) :
    SoundCall line .line (parseline line) 5 (n + 1) := by
  intro s ts h hn
  obtain ⟨us, t, rest, rfl, hus, cmd, s1, heq, hs1, rfl, hspans⟩ | hpanic := hpipe s ts h (by omega)
  · obtain ⟨k, rest, rfl, hamp⟩ := exists_amps rest
    simp only [length_append, length_replicate] at hn
    by_cases hsemi : starts ";" rest = true
    · obtain ⟨r, rfl⟩ := eq_cons_of_starts (x := .semi) (by decide) hsemi
      obtain ⟨s2, hs2, heq2⟩ := parseline_more hnul heq hs1 (by omega)
      rw [length_cons] at hn
      obtain ⟨vs, u, rest, rfl, hvs, cmd', s3, heq3, hs3, rfl, hspans'⟩ | hpanic :=
        hline s2 r hs2 (by omega)
      · refine .inl ⟨us ++ (replicate k .amp ++ .semi :: vs), _, rest, by simp, .list k hus hvs,
          .list (Cmd.back^[k] cmd) cmd', s3, ?_, hs3, ?_, ?_⟩
        · rw [heq2, heq3]
          rfl
        · rw [Cmd.map, map_iterate_back]
        · rw [Cmd.words, words_iterate_back]
          exact forall_mem_append.mpr ⟨hspans, hspans'⟩
      · rw [heq2]
        exact .inr (hpanic.bind _)
    · obtain ⟨s2, heq2, hs2⟩ := parseline_end hnul heq hs1 (by omega) hamp (by simpa using hsemi)
      refine .inl ⟨us ++ replicate k .amp, _, rest, by simp, .line k hus, Cmd.back^[k] cmd, s2,
        heq2, hs2, map_iterate_back _ _ _, ?_⟩
      rwa [words_iterate_back]
  · right
    rw [parseline]
    exact hpanic.bind _

theorem parsepipe_sound (hnul : 0 ∉ line) (hexec : SoundCall line .exec (parseexec line) 3 n)
    (hpipe : SoundCall line .pipe (parsepipe line) 4 n) :
    SoundCall line .pipe (parsepipe line) 4 (n + 1) := by
  intro s ts h hn
  obtain ⟨us, t, rest, rfl, hus, cmd, s1, heq, hs1, rfl, hspans⟩ | hpanic := hexec s ts h (by omega)
  · simp only [length_append] at hn
    by_cases hbar : starts "|" rest = true
    · obtain ⟨r, rfl⟩ := eq_cons_of_starts (x := .bar) (by decide) hbar
      obtain ⟨s2, hs2, heq2⟩ := parsepipe_more hnul heq hs1
      rw [length_cons] at hn
      obtain ⟨vs, u, rest, rfl, hvs, cmd', s3, heq3, hs3, rfl, hspans'⟩ | hpanic :=
        hpipe s2 r hs2 (by omega)
      · refine .inl ⟨us ++ .bar :: vs, _, rest, by simp, .pipe hus hvs, .pipe cmd cmd', s3, ?_, hs3, rfl,
          forall_mem_append.mpr ⟨hspans, hspans'⟩⟩
        rw [heq2, heq3]
        rfl
      · rw [heq2]
        exact .inr (hpanic.bind _)
    · obtain ⟨s2, heq2, hs2⟩ := parsepipe_end hnul heq hs1 (by simpa using hbar)
      exact .inl ⟨us, _, rest, rfl, .exec hus, cmd, s2, heq2, hs2, rfl, hspans⟩
  · right
    rw [parsepipe]
    exact hpanic.bind _

theorem parseexec_sound (hnul : 0 ∉ line) (hblock : SoundCall line .exec (parseblock line) 2 n) :
    SoundCall line .exec (parseexec line) 3 (n + 1) := by
  intro s ts h hn
  by_cases hpar : starts "(" ts = true
  · obtain ⟨r, rfl⟩ := eq_cons_of_starts (x := .lpar) (by decide) hpar
    obtain ⟨s1, hs1, heq⟩ := parseexec_block hnul h n
    rw [heq]
    exact hblock s1 _ hs1 (by omega)
  · obtain ⟨s1, hs1, heq⟩ := parseexec_simple hnul h (by simpa using hpar) n
    rw [heq]
    obtain ⟨us, rs, mid, rfl, hus, spans, s2, heq2, hs2, rfl, hspans⟩ | hpanic :=
      parseredirs_sound hnul (n := n) hs1 (by omega)
    · rw [length_append] at hn
      obtain ⟨vs, ws, rs', rest, rfl, hvs, hlen, words, spans', s3, heq3, hs3, rfl, hwords, rfl, hspans'⟩ |
        hpanic := parseargs_sound hnul (n := n) 0 hs2 (by omega) (by decide)
      · refine .inl ⟨us ++ vs, _, rest, by simp, .simple hus hvs (by omega),
          Cmd.wrap (.exec words) (spans ++ spans'), s3, ?_, hs3, ?_,
          spans_wrap hwords (forall_mem_append.mpr ⟨hspans, hspans'⟩)⟩
        · simp only [heq2, heq3, ok_bind]
        · rw [map_wrap, map_append]
          rfl
      · rw [heq2, ok_bind]
        exact .inr (hpanic.bind _)
    · exact .inr (hpanic.bind _)

theorem parseblock_sound (hnul : 0 ∉ line) (hline : SoundCall line .line (parseline line) 5 n) :
    SoundCall line .exec (parseblock line) 2 (n + 1) := by
  intro s ts h hn
  by_cases hpar : starts "(" ts = true
  · obtain ⟨r, rfl⟩ := eq_cons_of_starts (x := .lpar) (by decide) hpar
    obtain ⟨s1, hs1, heq⟩ := parseblock_eq hnul h n
    rw [length_cons] at hn
    rw [heq]
    obtain ⟨us, t, rest, rfl, hus, cmd, s2, heq2, hs2, rfl, hspans⟩ | hpanic := hline s1 r hs1 (by omega)
    · rw [heq2, ok_bind]
      by_cases hclose : starts ")" rest = true
      · obtain ⟨r, rfl⟩ := eq_cons_of_starts (x := .rpar) (by decide) hclose
        obtain ⟨s3, hs3, heq3⟩ := blockEnd_close hnul hs2 n cmd
        simp only [length_append, length_cons] at hn
        rw [heq3]
        obtain ⟨vs, rs, rest, rfl, hvs, spans, s4, heq4, hs4, rfl, hspans'⟩ | hpanic :=
          parseredirs_sound hnul (n := n) hs3 (by omega)
        · refine .inl ⟨.lpar :: (us ++ .rpar :: vs), _, rest, by simp, .block hus hvs, cmd.wrap spans, s4,
            ?_, hs4, map_wrap _ _ _, spans_wrap hspans hspans'⟩
          rw [heq4, ok_bind]
        · exact .inr (hpanic.bind _)
      · exact .inr (blockEnd_open hnul hs2 (by simpa using hclose) n cmd)
    · exact .inr (hpanic.bind _)
  · obtain ⟨s1, hpeek, -, -⟩ := h.peek hnul "(" rfl
    have hclosed : starts "(" ts = false := by simpa using hpar
    exact .inr ⟨"parseblock", by simp [parseblock, hpeek, hclosed, ok_bind]⟩

theorem parse_sound (hnul : 0 ∉ line) (n : ℕ) :
    SoundCall line .line (parseline line) 5 n ∧ SoundCall line .pipe (parsepipe line) 4 n ∧
      SoundCall line .exec (parseexec line) 3 n ∧ SoundCall line .exec (parseblock line) 2 n := by
  induction n with
  | zero => exact ⟨fun _ _ _ h => by omega, fun _ _ _ h => by omega, fun _ _ _ h => by omega,
      fun _ _ _ h => by omega⟩
  | succ n ih =>
    obtain ⟨hline, hpipe, hexec, hblock⟩ := ih
    exact ⟨parseline_sound hnul hpipe hline, parsepipe_sound hnul hexec hpipe,
      parseexec_sound hnul hblock, parseblock_sound hnul hline⟩

/-! ### Completeness -/

theorem Follows.head (ht : t.kind ∈ x.follow) (r : List Token) : Follows x (t :: r) := by
  rintro _ ⟨⟩
  exact ht

theorem Follows.mono {y : Nonterminal} (h : Follows x rest)
    (hxy : ∀ k ∈ x.follow, k ∈ y.follow) : Follows y rest := fun t ht => hxy _ (h t ht)

/-- What may follow does not begin with a token that goes on. -/
theorem Follows.not_starts (h : Follows x rest) {toks : String}
    (htoks : ∀ t ∈ [Token.bar, .lpar, .rpar, .semi, .amp, .lt, .gt, .gtgt],
      starts toks [t] = true → t.kind ∉ x.follow) : starts toks rest = false := by
  cases rest with
  | nil => rfl
  | cons t r =>
    by_contra hstart
    have hfirst : starts toks [t] = true := by simpa [starts] using hstart
    have hmem : t ∈ [Token.bar, .lpar, .rpar, .semi, .amp, .lt, .gt, .gtgt] := by
      cases t with
      | word w => exact absurd rfl hstart
      | _ => decide
    exact htoks t hmem hfirst (h t rfl)

theorem follows_amps (h : Follows .pipe rest) (k : ℕ) : Follows .pipe (replicate k .amp ++ rest) := by
  cases k with
  | zero => exact h
  | succ k => exact Follows.head (by decide) _

theorem not_starts_simple {ts : List Token} {rs' : List (Redir (List UInt8))}
    (hts : Redirs ts rs) (hus : Args us ws rs') (hrest : Follows .exec rest) :
    starts "(" (ts ++ (us ++ rest)) = false := by
  cases hts with
  | nil =>
    cases hus with
    | nil => exact hrest.not_starts (by decide)
    | cons => rfl
  | cons ht => cases ht <;> rfl

/-- The function for a part of the line. -/
def parse (line : List UInt8) : Nonterminal → ℕ → ℕ → Except Fault (Cmd Span × ℕ)
  | .line => parseline line
  | .pipe => parsepipe line
  | .exec => parseexec line

/-- The fuel it needs besides that for its tokens. -/
def Nonterminal.extra : Nonterminal → ℕ
  | .line => 5
  | .pipe => 4
  | .exec => 3

theorem exists_fuel {m : ℕ} (hn : m + x.extra ≤ n) : ∃ n', n = n' + 1 :=
  Nat.exists_eq_succ_of_ne_zero (by cases x <;> rintro rfl <;> cases hn)

theorem parse_complete (hnul : 0 ∉ line) {t : Cmd (List UInt8)}
    (hus : Derives x us t) (h : Sees line s (us ++ rest))
    (hn : 4 * us.length + x.extra ≤ n) (hrest : Follows x rest) : Returns line (parse line x n s) t rest := by
  induction hus generalizing n s rest with
  | line k hts ih =>
    obtain ⟨n, rfl⟩ := exists_fuel hn
    simp only [length_append, length_replicate, Nonterminal.extra] at hn
    rw [append_assoc] at h
    obtain ⟨cmd, s1, heq, hs1, rfl, hspans⟩ := ih (n := n) h (by rw [Nonterminal.extra]; omega)
      (follows_amps (hrest.mono (by decide)) k)
    obtain ⟨s2, heq2, hs2⟩ := parseline_end hnul heq hs1 (by omega) (hrest.not_starts (by decide))
      (hrest.not_starts (by decide))
    exact ⟨Cmd.back^[k] cmd, s2, heq2, hs2, map_iterate_back _ _ _, by rwa [words_iterate_back]⟩
  | list k hts hvs iht ihv =>
    obtain ⟨n, rfl⟩ := exists_fuel hn
    simp only [length_append, length_replicate, length_cons, Nonterminal.extra] at hn
    rw [append_assoc, append_assoc, cons_append] at h
    obtain ⟨cmd, s1, heq, hs1, rfl, hspans⟩ := iht (n := n) h (by rw [Nonterminal.extra]; omega)
      (follows_amps (Follows.head (by decide) _) k)
    obtain ⟨s2, hs2, heq2⟩ := parseline_more hnul heq hs1 (by omega)
    obtain ⟨cmd', s3, heq3, hs3, rfl, hspans'⟩ := ihv (n := n) hs2 (by rw [Nonterminal.extra]; omega) hrest
    refine ⟨.list (Cmd.back^[k] cmd) cmd', s3, ?_, hs3, ?_, ?_⟩
    · rw [parse, heq2, show parseline line n s2 = .ok (cmd', s3) from heq3, ok_bind]
    · rw [Cmd.map, map_iterate_back]
    · rw [Cmd.words, words_iterate_back]
      exact forall_mem_append.mpr ⟨hspans, hspans'⟩
  | exec hts ih =>
    obtain ⟨n, rfl⟩ := exists_fuel hn
    rw [Nonterminal.extra] at hn
    obtain ⟨cmd, s1, heq, hs1, rfl, hspans⟩ := ih (n := n) h (by rw [Nonterminal.extra]; omega)
      (hrest.mono (by decide))
    obtain ⟨s2, heq2, hs2⟩ := parsepipe_end hnul heq hs1 (hrest.not_starts (by decide))
    exact ⟨cmd, s2, heq2, hs2, rfl, hspans⟩
  | pipe hts hvs iht ihv =>
    obtain ⟨n, rfl⟩ := exists_fuel hn
    simp only [length_append, length_cons, Nonterminal.extra] at hn
    rw [append_assoc, cons_append] at h
    obtain ⟨cmd, s1, heq, hs1, rfl, hspans⟩ := iht (n := n) h (by rw [Nonterminal.extra]; omega)
      (Follows.head (by decide) _)
    obtain ⟨s2, hs2, heq2⟩ := parsepipe_more hnul heq hs1
    obtain ⟨cmd', s3, heq3, hs3, rfl, hspans'⟩ := ihv (n := n) hs2 (by rw [Nonterminal.extra]; omega) hrest
    refine ⟨.pipe cmd cmd', s3, ?_, hs3, rfl, forall_mem_append.mpr ⟨hspans, hspans'⟩⟩
    rw [parse, heq2, show parsepipe line n s2 = .ok (cmd', s3) from heq3, ok_bind]
  | block hts hvs ih =>
    obtain ⟨n, rfl⟩ := exists_fuel hn
    simp only [length_append, length_cons, Nonterminal.extra] at hn
    obtain ⟨n, rfl⟩ := Nat.exists_eq_succ_of_ne_zero (show n ≠ 0 by omega)
    rw [cons_append, append_assoc, cons_append] at h
    obtain ⟨s1, hs1, heq1⟩ := parseexec_block hnul h (n + 1)
    obtain ⟨s2, hs2, heq2⟩ := parseblock_eq hnul hs1 n
    obtain ⟨cmd, s3, heq3, hs3, rfl, hspans⟩ := ih (n := n) hs2 (by rw [Nonterminal.extra]; omega)
      (Follows.head (by decide) _)
    obtain ⟨s4, hs4, heq4⟩ := blockEnd_close hnul hs3 n cmd
    obtain ⟨spans, s5, heq5, hs5, rfl, hspans'⟩ :=
      parseredirs_complete hnul hvs (n := n) hs4 (by omega) (hrest.not_starts (by decide))
    refine ⟨cmd.wrap spans, s5, ?_, hs5, map_wrap _ _ _, spans_wrap hspans hspans'⟩
    rw [parse, heq1, heq2, show parseline line n s2 = .ok (cmd, s3) from heq3, ok_bind, heq4, heq5,
      ok_bind]
  | simple hts hvs hlen =>
    obtain ⟨n, rfl⟩ := exists_fuel hn
    simp only [length_append, Nonterminal.extra] at hn
    rw [append_assoc] at h
    obtain ⟨s1, hs1, heq1⟩ := parseexec_simple hnul h (not_starts_simple hts hvs hrest) n
    obtain ⟨spans, s2, heq2, hs2, rfl, hspans⟩ :=
      parseredirs_complete hnul hts (n := n) hs1 (by omega) (hvs.starts hrest)
    have hmax : MAXARGS = 10 := rfl
    obtain ⟨words, spans', s3, heq3, hs3, rfl, hwords, rfl, hspans'⟩ :=
      parseargs_complete hnul hvs (n := n) 0 hs2 (by omega) (by omega) hrest
    refine ⟨Cmd.wrap (.exec words) (spans ++ spans'), s3, ?_, hs3, ?_,
      spans_wrap hwords (forall_mem_append.mpr ⟨hspans, hspans'⟩)⟩
    · rw [parse, heq1]
      simp only [heq2, heq3, ok_bind]
    · rw [map_wrap, map_append]
      rfl

/-! ### Whole lines -/

theorem sees_line (line : List UInt8) : Sees line 0 (lex line) := ⟨Nat.zero_le _, rfl⟩

/-- What `parsecmd` makes of the result of `parseline`. -/
theorem parsecmd_eq (hnul : 0 ∉ line)
    (heq : parseline line (4 * line.length + 5) 0 = .ok (cmd, s)) (hs : Sees line s rest) :
    parsecmd line = if rest = [] then .ok (cmd, nulterminate cmd fun i => line.getD i 0)
      else .error (.panic "syntax") := by
  obtain ⟨s', hpeek, -, hend⟩ := hs.peek hnul "" rfl
  by_cases hrest : rest = []
  · simp [parsecmd, heq, hpeek, ok_bind, hrest, hend.mpr hrest]
  · simp [parsecmd, heq, hpeek, ok_bind, hrest, mt hend.mp hrest]

/-- `parsecmd` panics, or it returns the command of a derivation of the line. -/
theorem parsecmd_cases (hnul : 0 ∉ line) :
    (∃ cmd, parsecmd line = .ok (cmd, nulterminate cmd fun i => line.getD i 0) ∧
      (∀ w ∈ cmd.words, IsSpan line w) ∧ Derives .line (lex line) (cmd.map (slice line))) ∨
    ∃ msg, parsecmd line = .error (.panic msg) := by
  have hlen := lex_length line
  obtain ⟨us, t, rest, hts, hus, cmd, s, heq, hs, hmap, hspans⟩ | ⟨msg, hpanic⟩ :=
    (parse_sound hnul (4 * line.length + 5)).1 0 (lex line) (sees_line line) (by omega)
  · have hcmd := parsecmd_eq hnul heq hs
    split at hcmd
    next hrest =>
      rw [hrest, append_nil] at hts
      exact .inl ⟨cmd, hcmd, hspans, by rw [hmap, hts]; exact hus⟩
    next => exact .inr ⟨_, hcmd⟩
  · exact .inr ⟨msg, by rw [parsecmd, hpanic]; rfl⟩

/-- The parser accepts exactly its grammar: on a line without `NUL` it returns a command just when the
tokens of the line can be derived, the strings of the command are those of every derivation, and
otherwise it panics; it always comes to its end and never reads behind the line. -/
theorem parsecmd_grammar (line : List UInt8) (hnul : 0 ∉ line) :
    (∀ t, Derives .line (lex line) t ↔
      ∃ cmd buf, parsecmd line = .ok (cmd, buf) ∧ cmd.tree buf line.length = t) ∧
    ((∀ t, ¬ Derives .line (lex line) t) → ∃ msg, parsecmd line = .error (.panic msg)) := by
  have hlen := lex_length line
  have hcomplete : ∀ t, Derives .line (lex line) t →
      ∃ cmd buf, parsecmd line = .ok (cmd, buf) ∧ cmd.tree buf line.length = t := by
    intro t ht
    have hsees := sees_line line
    rw [← append_nil (lex line)] at hsees
    obtain ⟨cmd, s, heq, hs, rfl, hspans⟩ := parse_complete hnul ht (n := 4 * line.length + 5) hsees
      (by rw [Nonterminal.extra]; omega) nofun
    exact ⟨cmd, _, parsecmd_eq hnul heq hs, tree_nulterminate hnul hspans⟩
  obtain ⟨cmd, hcmd, hspans, hder⟩ | ⟨msg, hcmd⟩ := parsecmd_cases hnul
  · refine ⟨fun t => ⟨hcomplete t, ?_⟩, fun hnone => absurd hder (hnone _)⟩
    rintro ⟨cmd', buf, hok, rfl⟩
    obtain ⟨rfl, rfl⟩ := pair_ok (hcmd.symm.trans hok)
    rw [tree_nulterminate hnul hspans]
    exact hder
  · refine ⟨fun t => ⟨hcomplete t, ?_⟩, fun _ => ⟨msg, hcmd⟩⟩
    rintro ⟨cmd', buf, hok, -⟩
    rw [hcmd] at hok
    cases hok

end

/-- The line `a x|(b;c&)>f`. -/
theorem parsecmd_grammar_block : 0 ∉ chars "a x|(b;c&)>f" ∧
    Derives .line (lex (chars "a x|(b;c&)>f")) (.pipe (.exec [chars "a", chars "x"])
        (.redir (.list (.exec [chars "b"]) (.back (.exec [chars "c"])))
          ⟨chars "f", O_WRONLY ||| O_CREATE, 1⟩)) := by
  have hnul : 0 ∉ chars "a x|(b;c&)>f" := by decide
  refine ⟨hnul, ((parsecmd_grammar _ hnul).1 _).mpr ?_⟩
  have hrun : (parsecmd (chars "a x|(b;c&)>f")).toOption.map (fun x => x.1.tree x.2 12) =
      some (.pipe (.exec [chars "a", chars "x"])
        (.redir (.list (.exec [chars "b"]) (.back (.exec [chars "c"])))
          ⟨chars "f", O_WRONLY ||| O_CREATE, 1⟩)) := by decide +kernel
  obtain ⟨⟨cmd, buf⟩, hok, htree⟩ := map_eq_some_iff.mp hrun
  exact ⟨cmd, buf, toOption_some hok, htree⟩

/-- `nulterminate` cuts exactly the words: the command is that of a derivation of the line, each of its
words is a longest run of letters in the line and is what the string at its position reads afterwards, and
no `NUL` is stored inside a word. -/
theorem nulterminate_words {line : List UInt8} (hnul : 0 ∉ line) {cmd : Cmd Span} {buf : ℕ → UInt8}
    (h : parsecmd line = .ok (cmd, buf)) :
    Derives .line (lex line) (cmd.map (slice line)) ∧
    ∀ w ∈ cmd.words, IsSpan line w ∧ cstring buf line.length w.1 = slice line w ∧
      ∀ v ∈ cmd.words, ∀ i, w.1 ≤ i → i < w.2 → i ≠ v.2 := by
  obtain ⟨cmd', hcmd, hspans, hder⟩ | ⟨msg, hcmd⟩ := parsecmd_cases hnul
  · obtain ⟨rfl, rfl⟩ := pair_ok (hcmd.symm.trans h)
    refine ⟨hder, fun w hw => ⟨hspans w hw, cstring_nulterminate hnul hspans hw, ?_⟩⟩
    intro v hv i hi hlt
    exact (hspans w hw).apart (hspans v hv) hi hlt
  · rw [hcmd] at h
    cases h

/-- The line `a>f|b`, where each `NUL` but the last takes the place of a symbol. -/
theorem nulterminate_words_symbols : ∃ cmd buf, parsecmd (chars "a>f|b") = .ok (cmd, buf) ∧
    cmd.words = [(2, 3), (0, 1), (4, 5)] ∧ cstring buf 5 0 = chars "a" ∧ cstring buf 5 2 = chars "f" ∧
      cstring buf 5 4 = chars "b" := by
  have hrun : (parsecmd (chars "a>f|b")).toOption.map (fun x => x.1.words) =
      some [(2, 3), (0, 1), (4, 5)] := by decide +kernel
  obtain ⟨⟨cmd, buf⟩, hok, hwords⟩ := map_eq_some_iff.mp hrun
  have hcut := (nulterminate_words (by decide) (toOption_some hok)).2
  rw [hwords] at hcut
  exact ⟨cmd, buf, toOption_some hok, hwords, (hcut (0, 1) (by simp)).2.1, (hcut (2, 3) (by simp)).2.1,
    (hcut (4, 5) (by simp)).2.1⟩

end Xv6.Sh
