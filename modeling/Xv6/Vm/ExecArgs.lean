import Mathlib.Algebra.Order.BigOperators.Group.List
import Xv6.Vm.Untrusted
import Xv6.Vm.UserBytes

/-! # The arguments of a new program

`execArgv` is `exec` with the bytes that it copies to the stack: the strings, from the top of the last page down, and
below them the words `ustack` that `main` finds. A block that `copyout` accepts lies in that page, since the guard page
is below it and the kernel half above (`Stacked.push`); so all blocks lie there one below the other, and what `main` finds
is what was given (`Layout`).

What is left is that `exec` returns at all when the arguments do not fit, and that is the condition on the arguments of
`File.Safe`. -/

namespace Xv6.Vm

open Fallible List

/-- A string in user memory. -/
structure ArgStr where
  chars : List UInt8
  nul : 0 ∉ chars
  le : chars.length + 1 ≤ KERNBASE

/-- The bytes of the string, with its `NUL`. -/
def ArgStr.bytes (a : ArgStr) : List UInt8 := a.chars ++ [0]

def ArgStr.arg (a : ArgStr) : Arg := ⟨a.chars.length + 1, Nat.succ_pos _, a.le⟩

theorem ArgStr.bytes_length (a : ArgStr) : a.bytes.length = a.arg.len := by
  unfold bytes arg
  rw [length_append, length_singleton]

/-- The stack pointer after a block of `len` bytes has been pushed. -/
def pushSp (sp len : ℕ) : ℕ := u32 (sp + 2 ^ 32 - len % 2 ^ 32) / 4 * 4

/-- Where the strings go. -/
def argPtrs : List ArgStr → ℕ → List ℕ
  | [], _ => []
  | a :: l, sp => pushSp sp a.arg.len :: argPtrs l (pushSp sp a.arg.len)

/-- The stack pointer after the strings. -/
def argSp (l : List ArgStr) (sp : ℕ) : ℕ := l.foldl (fun sp a => pushSp sp a.arg.len) sp

/-- The array `ustack`. -/
def ustack (argv : List ArgStr) (sz : ℕ) : List ℕ :=
  [0xffffffff, argv.length, u32 (argSp argv sz + 2 ^ 32 - (argv.length + 1) * 4)] ++ (argPtrs argv sz ++ [0])

def wordBytes (w : ℕ) : List UInt8 := (List.range 4).map (Bytes.le w)

/-- What `exec` copies: the strings, and then `ustack`. -/
def pushData (argv : List ArgStr) (sz j : ℕ) : ℕ → (ℕ → ℕ) → ℕ → ℕ :=
  match argv[j]? with
  | some a => putPiece ((argPtrs argv sz).getD j 0) a.bytes
  | none => putPiece (stackPtr sz (argv.map ArgStr.arg)) ((ustack argv sz).flatMap wordBytes)

/-- The size of the new space when the stack has been allocated, which `exec` pushes the arguments from. -/
def execTop (pgdir : ℕ) (phdrs : List (Option Phdr)) (k : Kernel) : ℕ :=
  match execLoad pgdir phdrs 0 k with
  | .ok (some sz, k) =>
    match allocuvm k pgdir (pgRoundUp sz) (u32 (pgRoundUp sz + 2 * PGSIZE)) with
    | .ok (sz, _) => sz
    | _ => 0
  | _ => 0

def File.top (f : File) (k : Kernel) : ℕ :=
  match f.elfhdr, setupkvm k with
  | some elf, .ok (some pgdir, k) =>
    execTop pgdir ((f.proghdrs elf.phnum elf.phoff).map (Option.map (Proghdr.segment f))) k
  | _, _ => 0

/-- `exec(path, argv)` of process `p`, on the file that `path` names. -/
def execArgv (k : Kernel) (p : Slot) (regs : Regs) (path : List UInt8) (f : File) (argv : List ArgStr) :
    Except Fault (ℤ × Kernel × Regs) :=
  execFile k p regs path f (argv.map ArgStr.arg) (pushData argv (f.top k))

/-! ### What the new program finds -/

/-- The memory of a process. -/
def Kernel.user (k : Kernel) (d a : ℕ) : UInt8 := k.byte (k.place d a)

/-- The word at an address. -/
def wordAt (u : ℕ → UInt8) (a : ℕ) : ℕ := Bytes.val 4 fun j => u (a + j)

/-- `argv` and its elements, as the arguments of `main` at the stack pointer. -/
def argvAt (u : ℕ → UInt8) (esp : ℕ) : ℕ := wordAt u (esp + 8)

def argAt (u : ℕ → UInt8) (esp i : ℕ) : ℕ := wordAt u (argvAt u esp + 4 * i)

/-- The page below `top` holds, one after the other, the words at the stack pointer, the vector and the strings. -/
structure Layout (u : ℕ → UInt8) (top esp : ℕ) (argv : List ArgStr) : Prop where
  aligned : esp % 4 = 0
  page : top ≤ esp + 4096
  ret : wordAt u esp = 0xffffffff
  argc : wordAt u (esp + 4) = argv.length
  vector : esp + 12 ≤ argvAt u esp
  null : argAt u esp argv.length = 0
  string : ∀ i a, argv[i]? = some a → ∀ b < a.bytes.length, u (argAt u esp i + b) = a.bytes.getD b 0
  within : ∀ i a, argv[i]? = some a →
    argvAt u esp + 4 * (argv.length + 1) ≤ argAt u esp i ∧ argAt u esp i + a.bytes.length ≤ top
  apart : ∀ i i' a a', argv[i]? = some a → argv[i']? = some a' → i < i' →
    argAt u esp i' + a'.bytes.length ≤ argAt u esp i
  room : argvAt u esp + 4 * (argv.length + 1) ≤ top

/-- How much of the stack the arguments take. -/
def stackRoom (argv : List ArgStr) : ℕ :=
  (argv.map fun a => (a.bytes.length + 3) / 4 * 4).sum + 4 * (3 + argv.length + 1)

section
variable {k0 k k' : Kernel} {P : Prop} {M top d sp : ℕ} {buf : List UInt8} {argv l : List ArgStr}

/-! ### One block -/

/-- The buffer is at the address. -/
def Holds (u : ℕ → UInt8) (a : ℕ) (buf : List UInt8) : Prop := ∀ b < buf.length, u (a + b) = buf.getD b 0

/-- A block that `copyout` accepts is in the last page below the stack pointer, and what was there above it stays. -/
theorem Stacked.push (h : Stacked k0 P M top d k) (hpos : 0 < buf.length) (hle : buf.length ≤ KERNBASE)
    (hlow : top ≤ sp + 4096) (hhigh : sp ≤ top) (h4 : sp % 4 = 0)
    (hr : copyout k d (pushSp sp buf.length) buf.length (putPiece (pushSp sp buf.length) buf) = .ok (true, k')) :
    pushSp sp buf.length + (buf.length + 3) / 4 * 4 = sp ∧ top ≤ pushSp sp buf.length + 4096 ∧
      Holds (k'.user d) (pushSp sp buf.length) buf ∧ (∀ a, sp ≤ a → a < top → k'.user d a = k.user d a) ∧
      Reach k' d (top / 4096 - 1) := by
  have hk := kernbase_eq
  have hal := h.aligned
  have hlo := h.low
  have hhi : top < 2 ^ 31 := h.high
  obtain ⟨va, hva⟩ : ∃ va, va = pushSp sp buf.length := ⟨_, rfl⟩
  rw [← hva] at hr ⊢
  have hreach : ∀ i < pieces va buf.length, Reach k d (va / 4096 + i) := by
    obtain ⟨c, -, hall, -, htrue⟩ := copyout_ok h.sealed hr
    rwa [htrue rfl] at hall
  rw [pieces, if_neg (by omega)] at hreach
  have hwhere : va + (buf.length + 3) / 4 * 4 = sp := by
    have hcase : va + (buf.length + 3) / 4 * 4 = sp ∨ 2 ^ 31 ≤ va ∧ va < 2 ^ 32 := by
      unfold pushSp u32 at hva
      omega
    refine hcase.resolve_right fun hkern => ?_
    obtain ⟨S, hS, -⟩ := h.saved
    have huser := hS.reach (hreach 0 (by omega))
    unfold userPages allPages at huser
    omega
  have hlast : top ≤ va + 4096 := by
    by_contra hlt
    have hpage : va / 4096 + (top / 4096 - 2 - va / 4096) = top / 4096 - 2 := by omega
    refine h.guard (top / 4096 - 2) (by omega) ?_
    rw [← hpage]
    exact hreach _ (by omega)
  have hone : ∀ i < buf.length, (va + i) / 4096 = top / 4096 - 1 := fun i hi => by omega
  have hdist : Distinct k d va buf.length := fun i hi i' hi' _ _ _ => by rw [hone i hi, hone i' hi']
  obtain ⟨hsame, hi, -, hwrote, -, htrue⟩ := copyout_wrote h.sealed hdist (by omega) hr
  obtain rfl := htrue rfl
  have hplace : ∀ a, k'.place d a = k.place d a := fun a => by
    unfold Kernel.place
    rw [hsame.entry]
  refine ⟨hwhere, hlast, fun b hb => ?_, fun a ha1 ha2 => ?_, ?_⟩
  · unfold Kernel.user
    rw [hplace]
    exact hwrote.done b (Nat.zero_le b) hb
  · unfold Kernel.user
    rw [hplace]
    refine hwrote.other _ fun i _ hi e => ?_
    have hoff : (va + i) % 4096 = a % 4096 := (Prod.mk.inj e).2
    omega
  · rw [hsame.reach, ← hone 0 hpos]
    exact hreach 0 (by omega)

/-! ### The strings -/

/-- The strings are at their addresses, one below the other between `lo` and `hi`. -/
structure Pushed (u : ℕ → UInt8) (l : List ArgStr) (ptrs : List ℕ) (lo hi : ℕ) : Prop where
  holds : ∀ i a, l[i]? = some a → Holds u (ptrs.getD i 0) a.bytes
  within : ∀ i a, l[i]? = some a → lo ≤ ptrs.getD i 0 ∧ ptrs.getD i 0 + a.bytes.length ≤ hi
  apart : ∀ i i' a a', l[i]? = some a → l[i']? = some a' → i < i' → ptrs.getD i' 0 + a'.bytes.length ≤ ptrs.getD i 0

variable {u u' : ℕ → UInt8}

theorem Holds.congr {a : ℕ} (h : Holds u a buf)
    (hu : ∀ b, a ≤ b → b < a + buf.length → u' b = u b) : Holds u' a buf := fun b hb => by
  rw [hu (a + b) (by omega) (by omega)]
  exact h b hb

theorem Pushed.congr {ptrs : List ℕ} {lo hi : ℕ} (h : Pushed u l ptrs lo hi)
    (hu : ∀ b, lo ≤ b → b < hi → u' b = u b) : Pushed u' l ptrs lo hi := by
  refine ⟨fun i a ha => (h.holds i a ha).congr fun b hb1 hb2 => ?_, h.within, h.apart⟩
  obtain ⟨h1, h2⟩ := h.within i a ha
  exact hu b (by omega) (by omega)

theorem Pushed.cons {ptrs : List ℕ} {lo mid hi : ℕ} (h : Pushed u l ptrs lo mid)
    {a : ArgStr} (ha : Holds u mid a.bytes) (hlo : lo ≤ mid) (hhi : mid + a.bytes.length ≤ hi) :
    Pushed u (a :: l) (mid :: ptrs) lo hi := by
  refine ⟨fun i => ?_, fun i => ?_, fun i i' => ?_⟩
  · cases i with
    | zero =>
      rintro _ ⟨⟩
      exact ha
    | succ i => exact h.holds i
  · cases i with
    | zero =>
      rintro _ ⟨⟩
      exact ⟨hlo, hhi⟩
    | succ i =>
      intro a' ha'
      obtain ⟨h1, h2⟩ := h.within i a' ha'
      exact ⟨h1, h2.trans (by omega)⟩
  · cases i' with
    | zero => exact fun _ _ _ _ hlt => absurd hlt (Nat.not_lt_zero i)
    | succ i' =>
      cases i with
      | zero => exact fun _ a' _ ha' _ => (h.within i' a' ha').2
      | succ i => exact fun a a' ha ha' hlt => h.apart i i' a a' ha ha' (by omega)

theorem execArgs_pushed {data : ℕ → ℕ → (ℕ → ℕ) → (ℕ → ℕ)} {j sp' : ℕ}
    (h : Stacked k0 P M top d k) (hlow : top ≤ sp + 4096) (hhigh : sp ≤ top) (h4 : sp % 4 = 0)
    (hdata : ∀ i a, l[i]? = some a → data (j + i) = putPiece ((argPtrs l sp).getD i 0) a.bytes)
    (hr : execArgs d data (l.map fun a => a.arg.len) j sp k = .ok (some sp', k')) :
    sp' = argSp l sp ∧ top ≤ sp' + 4096 ∧ sp' + (l.map fun a => (a.bytes.length + 3) / 4 * 4).sum = sp ∧
      sp' % 4 = 0 ∧ Stacked k0 P M top d k' ∧ Pushed (k'.user d) l (argPtrs l sp) sp' sp ∧
      ∀ a, sp ≤ a → a < top → k'.user d a = k.user d a := by
  induction l generalizing j sp k with
  | nil =>
    obtain ⟨e, rfl⟩ := pair_ok hr
    obtain rfl := Option.some.inj e
    exact ⟨rfl, hlow, rfl, h4, h, ⟨nofun, nofun, nofun⟩, fun _ _ _ => rfl⟩
  | cons a l ih =>
    rw [map_cons] at hr
    unfold execArgs at hr
    split_ifs at hr
    · cases (pair_ok hr).1
    obtain ⟨⟨b, k1⟩, e1, hr⟩ := bind_ok hr
    have hpiece := hdata 0 a rfl
    rw [Nat.add_zero, argPtrs, getD_cons_zero] at hpiece
    have hlen := a.bytes_length
    rw [hpiece, ← hlen] at e1
    cases b with
    | false => cases (pair_ok hr).1
    | true =>
      obtain ⟨hsp, hlast, hholds, habove, -⟩ := h.push (by rw [hlen]; exact a.arg.pos) (by rw [hlen]; exact a.arg.le)
        hlow hhigh h4 e1
      rw [← hlen] at hr
      have hrest : ∀ i a', l[i]? = some a' →
          data (j + 1 + i) = putPiece ((argPtrs l (pushSp sp a.bytes.length)).getD i 0) a'.bytes := fun i a' ha' => by
        rw [Nat.add_assoc, Nat.add_comm 1, hdata (i + 1) a' ha', argPtrs, getD_cons_succ, hlen]
      obtain ⟨hsp', hlast', hsum, h4', hst, hpushed, hkeep⟩ :=
        ih (h.after e1) hlast (by omega) (by omega) hrest hr
      have hptrs : argPtrs (a :: l) sp = pushSp sp a.bytes.length :: argPtrs l (pushSp sp a.bytes.length) := by
        rw [argPtrs, hlen]
      refine ⟨?_, hlast', ?_, h4', hst, ?_, fun b hb1 hb2 => ?_⟩
      · rw [hsp', hlen, argSp, argSp, foldl_cons]
      · rw [map_cons, sum_cons]
        omega
      · rw [hptrs]
        refine hpushed.cons (hholds.congr fun b hb1 hb2 => hkeep b hb1 (by omega)) (by omega) (by omega)
      · rw [hkeep b (by omega) hb2, habove b hb1 hb2]

/-! ### The vector -/

theorem getD_wordBytes (ws : List ℕ) {i j : ℕ} (hi : i < ws.length) (hj : j < 4) :
    (ws.flatMap wordBytes).getD (4 * i + j) 0 = Bytes.le (ws.getD i 0) j := by
  induction ws generalizing i with
  | nil => exact absurd hi (Nat.not_lt_zero i)
  | cons w ws ih =>
    have hlen : (wordBytes w).length = 4 := by rw [wordBytes, length_map, length_range]
    rw [flatMap_cons]
    cases i with
    | zero =>
      rw [getD_append _ _ _ _ (by omega), Nat.mul_zero, Nat.zero_add, getD_cons_zero, wordBytes,
        getD_eq_getElem _ _ (by rw [length_map, length_range]; exact hj), getElem_map,
        getElem_range]
    | succ i =>
      have hidx : 4 * (i + 1) + j - 4 = 4 * i + j := by omega
      rw [getD_append_right _ _ _ _ (by omega), hlen, hidx, getD_cons_succ]
      exact ih (Nat.lt_of_succ_lt_succ hi)

theorem length_wordBytes (ws : List ℕ) : (ws.flatMap wordBytes).length = 4 * ws.length := by
  induction ws with
  | nil => rfl
  | cons w ws ih =>
    rw [flatMap_cons, length_append, ih, length_cons, wordBytes, length_map, length_range]
    omega

theorem Holds.word {a : ℕ} {ws : List ℕ} (h : Holds u a (ws.flatMap wordBytes)) {i : ℕ}
    (hi : i < ws.length) (hw : ws.getD i 0 < 2 ^ 32) : wordAt u (a + 4 * i) = ws.getD i 0 := by
  have hbytes : ∀ j < 4, u (a + 4 * i + j) = Bytes.le (ws.getD i 0) j := fun j hj => by
    rw [Nat.add_assoc, h _ (by rw [length_wordBytes]; omega), getD_wordBytes ws hi hj]
  unfold wordAt
  rw [Bytes.val_congr hbytes, Bytes.val_le_of_lt hw]

theorem argPtrs_length (l : List ArgStr) (sp : ℕ) : (argPtrs l sp).length = l.length := by
  induction l generalizing sp with
  | nil => rfl
  | cons a l ih => rw [argPtrs, length_cons, length_cons, ih]

theorem Pushed.layout {esp : ℕ} (hsp : argSp argv top % 4 = 0)
    (hpushed : Pushed u argv (argPtrs argv top) (argSp argv top) top)
    (hesp : esp + 4 * (3 + argv.length + 1) = argSp argv top) (hpage : top ≤ esp + 4096) (hle : argSp argv top ≤ top)
    (htop : top < 2 ^ 31) (hvec : Holds u esp ((ustack argv top).flatMap wordBytes)) : Layout u top esp argv := by
  have hlen : (ustack argv top).length = 3 + argv.length + 1 := by
    unfold ustack
    rw [length_append, length_append, argPtrs_length]
    simp only [length_cons, length_nil]
    omega
  have hself : u32 (argSp argv top + 2 ^ 32 - (argv.length + 1) * 4) = esp + 12 := by
    unfold u32
    omega
  have hptr : ∀ i, (ustack argv top).getD (3 + i) 0 = (argPtrs argv top ++ [0]).getD i 0 := fun i => by
    unfold ustack
    rw [getD_append_right _ _ _ _ (by simp), length_cons, length_cons, length_singleton,
      Nat.add_sub_cancel_left]
  have hword : ∀ i < 3, ∀ w < 2 ^ 32, (ustack argv top).getD i 0 = w → wordAt u (esp + 4 * i) = w := fun i hi w hw e => by
    rw [hvec.word (by omega) (by rwa [e]), e]
  have h0 : wordAt u esp = 0xffffffff := hword 0 (by decide) _ (by decide) (by rw [ustack, cons_append, getD_cons_zero])
  have h1 : wordAt u (esp + 4) = argv.length := hword 1 (by decide) _ (by omega) (by
    rw [ustack, cons_append, getD_cons_succ, cons_append, getD_cons_zero])
  have h2 : argvAt u esp = esp + 12 := hword 2 (by decide) _ (by omega) (by
    rw [ustack, cons_append, getD_cons_succ, cons_append, getD_cons_succ, cons_append,
      getD_cons_zero, hself])
  have harg : ∀ i ≤ argv.length, (argPtrs argv top ++ [0]).getD i 0 < 2 ^ 32 →
      argAt u esp i = (argPtrs argv top ++ [0]).getD i 0 := fun i hi hlt => by
    have hidx : esp + 12 + 4 * i = esp + 4 * (3 + i) := by omega
    unfold argAt
    rw [h2, hidx, hvec.word (by omega) (by rw [hptr]; exact hlt), hptr]
  have hnull : (argPtrs argv top ++ [0]).getD argv.length 0 = 0 := by
    rw [getD_append_right _ _ _ _ (by rw [argPtrs_length]), argPtrs_length, Nat.sub_self, getD_cons_zero]
  have hstr : ∀ i a, argv[i]? = some a → argAt u esp i = (argPtrs argv top).getD i 0 := fun i a ha => by
    obtain ⟨hi, -⟩ := List.getElem?_eq_some_iff.mp ha
    have happ : (argPtrs argv top ++ [0]).getD i 0 = (argPtrs argv top).getD i 0 :=
      getD_append _ _ _ _ (by rw [argPtrs_length]; exact hi)
    have hw := hpushed.within i a ha
    rw [harg i hi.le (by rw [happ]; omega), happ]
  refine ⟨by omega, hpage, h0, h1, h2.ge, ?_, fun i a ha => ?_, fun i a ha => ?_, fun i i' a a' ha ha' => ?_, by omega⟩
  · rw [harg _ (le_refl _) (by rw [hnull]; decide), hnull]
  · rw [hstr i a ha]
    exact hpushed.holds i a ha
  · rw [hstr i a ha, h2]
    have hw := hpushed.within i a ha
    exact ⟨by omega, hw.2⟩
  · rw [hstr i a ha, hstr i' a' ha']
    exact hpushed.apart i i' a a' ha ha'

theorem Layout.congr {esp : ℕ} (h : Layout u top esp argv)
    (hu : ∀ a, esp ≤ a → a < top → u' a = u a) : Layout u' top esp argv := by
  have hword : ∀ a, esp ≤ a → a + 4 ≤ top → wordAt u' a = wordAt u a := fun a h1 h2 =>
    Bytes.val_congr fun j hj => hu (a + j) (by omega) (by omega)
  have hvec := h.vector
  have hroom := h.room
  have hv : argvAt u' esp = argvAt u esp := hword _ (by omega) (by omega)
  have harg : ∀ i ≤ argv.length, argAt u' esp i = argAt u esp i := fun i hi => by
    unfold argAt
    rw [hv, hword _ (by omega) (by omega)]
  have hidx : ∀ {i a}, argv[i]? = some a → i ≤ argv.length := fun ha =>
    (List.getElem?_eq_some_iff.mp ha).1.le
  refine ⟨h.aligned, h.page, ?_, ?_, ?_, ?_, fun i a ha b hb => ?_, fun i a ha => ?_, fun i i' a a' ha ha' => ?_, ?_⟩
  · rw [hword _ (by omega) (by omega), h.ret]
  · rw [hword _ (by omega) (by omega), h.argc]
  · rwa [hv]
  · rw [harg _ (le_refl _), h.null]
  · have hw := h.within i a ha
    rw [harg i (hidx ha), hu _ (by omega) (by omega)]
    exact h.string i a ha b hb
  · rw [harg i (hidx ha), hv]
    exact h.within i a ha
  · rw [harg i (hidx ha), harg i' (hidx ha')]
    exact h.apart i i' a a' ha ha'
  · rwa [hv]

theorem stackPtr_eq (argv : List ArgStr) (sz : ℕ) :
    stackPtr sz (argv.map ArgStr.arg) = u32 (argSp argv sz + 2 ^ 32 - (3 + argv.length + 1) * 4) := by
  unfold stackPtr
  dsimp only
  rw [foldl_map, length_map]
  rfl

theorem arg_lens (argv : List ArgStr) : (argv.map ArgStr.arg).map Arg.len = argv.map fun a => a.arg.len := by
  rw [map_map]
  rfl

theorem length_le_sum (argv : List ArgStr) :
    4 * argv.length ≤ (argv.map fun a => (a.bytes.length + 3) / 4 * 4).sum := by
  have h := (argv.map fun a => (a.bytes.length + 3) / 4 * 4).card_nsmul_le_sum 4 fun n hn => by
    obtain ⟨a, -, rfl⟩ := mem_map.mp hn
    have := a.bytes_length
    have := a.arg.pos
    omega
  rw [length_map, Nat.nsmul_eq_mul] at h
  omega

theorem execPush_layout {sz : ℕ} (h : Stacked k0 P M top d k)
    (hr : execPush d (pushData argv top) ((argv.map ArgStr.arg).map Arg.len) top k = .ok (some sz, k')) :
    sz = top ∧ Stacked k0 P M top d k' ∧ Layout (k'.user d) top (stackPtr top (argv.map ArgStr.arg)) argv ∧
      stackRoom argv ≤ 4096 ∧ Reach k' d (top / 4096 - 1) := by
  have hal := h.aligned
  have hhi : top < 2 ^ 31 := h.high
  rw [arg_lens] at hr
  obtain ⟨⟨r, k1⟩, e1, hr⟩ := bind_ok hr
  cases r with
  | none => cases (pair_ok hr).1
  | some sp =>
    obtain ⟨hsp, hlast, hsum, h4, hst, hpushed, -⟩ := execArgs_pushed h (by omega) (le_refl _) (by omega)
      (fun i a ha => by rw [Nat.zero_add, pushData, ha]) e1
    obtain ⟨⟨b, k2⟩, e2, hr⟩ := bind_ok hr
    obtain ⟨hb, rfl⟩ := pair_ok hr
    cases b with
    | false => cases hb
    | true =>
      obtain rfl := Option.some.inj hb
      have hlen : ((ustack argv top).flatMap wordBytes).length = (3 + argv.length + 1) * 4 := by
        rw [length_wordBytes, ustack, length_append, length_append, argPtrs_length]
        simp only [length_cons, length_nil]
        omega
      have hdata : pushData argv top argv.length =
          putPiece (stackPtr top (argv.map ArgStr.arg)) ((ustack argv top).flatMap wordBytes) := by
        rw [pushData, List.getElem?_eq_none (le_refl _)]
      have hfew := length_le_sum argv
      have hva : stackPtr top (argv.map ArgStr.arg) = pushSp sp ((3 + argv.length + 1) * 4) := by
        rw [stackPtr_eq, ← hsp]
        unfold pushSp u32
        omega
      rw [length_map, hdata, hsp, ← stackPtr_eq, hva, ← hlen] at e2
      obtain ⟨hesp, hpage, hholds, habove, hreach⟩ := hst.push (by omega) (by rw [KERNBASE]; omega) hlast (by omega) h4 e2
      rw [hlen, ← hva] at hesp hpage hholds
      refine ⟨rfl, hst.after e2, ?_, by unfold stackRoom; omega, hreach⟩
      rw [hsp] at hpushed h4 hesp habove
      exact (hpushed.congr habove).layout h4 (by omega) hpage (by omega) hhi hholds

theorem execBuild_layout {f : File} {l : List (Option Proghdr)} {sz : ℕ} (h : Laid k0 k d 0 M)
    (hgood : ∀ c ∈ execCopies d f l 0 k, c.Good k0.freelist)
    (hr : execBuild k d ⟨l.map (Option.map (Proghdr.segment f)), (argv.map ArgStr.arg).map Arg.len,
      pushData argv (execTop d (l.map (Option.map (Proghdr.segment f))) k)⟩ = .ok (some sz, k')) :
    (∃ P, Stacked k0 P M sz d k') ∧ Layout (k'.user d) sz (stackPtr sz (argv.map ArgStr.arg)) argv ∧
      stackRoom argv ≤ 4096 ∧ Reach k' d (sz / 4096 - 1) := by
  have hload := execLoad_laid (l := l) (f := f) h (by decide : 0 < KERNBASE)
  obtain ⟨⟨r, k1⟩, e1, hr⟩ := bind_ok hr
  dsimp only at e1
  cases hp : loadPlan M f l 0 with
  | none =>
    rw [hp] at hload
    obtain ⟨e, he⟩ | ⟨c, hc, hbad⟩ := hload
    · cases e1.symm.trans he
    · exact absurd (hgood c hc) hbad
  | some r' =>
    rw [hp] at hload
    obtain ⟨k2, e2, hload, -⟩ := hload
    obtain ⟨rfl, rfl⟩ := pair_ok (e2.symm.trans e1)
    cases r' with
    | none => cases (pair_ok hr).1
    | some s =>
      obtain ⟨hs, -, hlaid⟩ := hload
      obtain ⟨hgo, hstop⟩ := execStack_push hlaid hs
      change execStack d _ _ s k2 = _ at hr
      cases hgr : grow M (pgRoundUp s) (u32 (pgRoundUp s + 2 * PGSIZE)) with
      | none =>
        obtain ⟨k3, e3, -⟩ := hstop hgr
        rw [e3] at hr
        cases (pair_ok hr).1
      | some top =>
        obtain ⟨-, ⟨k3, e3⟩, k4, e4, hst⟩ := hgo top hgr
        have htop : execTop d (l.map (Option.map (Proghdr.segment f))) k = top := by
          rw [execTop, e1]
          dsimp only
          rw [e3]
        rw [e4, htop] at hr
        obtain ⟨rfl, hst', hlayout, hroom, hreach⟩ := execPush_layout hst hr
        exact ⟨⟨_, hst'⟩, hlayout, hroom, hreach⟩

end

/-! ### `exec` -/

/-- `exec` passes the arguments on: if it returns 0, the new program finds them in the page above the guard page; and if
there is not enough room for them, it returns -1. -/
def ArgsIntact (k : Kernel) (p : Slot) (regs : Regs) (path : List UInt8) (f : File) (argv : List ArgStr) : Prop :=
  (∀ k' regs', execArgv k p regs path f argv = .ok (0, k', regs') →
    Layout (k'.user (k'.dirOf p)) (k'.proc p).sz regs'.esp argv ∧ (k'.proc p).sz % 4096 = 0 ∧
      Reach k' (k'.dirOf p) ((k'.proc p).sz / 4096 - 1) ∧ ¬ Reach k' (k'.dirOf p) ((k'.proc p).sz / 4096 - 2)) ∧
  (4096 < stackRoom argv → ∃ k', execArgv k p regs path f argv = .ok (-1, k', regs))

section
variable {k : Kernel} {own : ℕ → Role} {p : Slot} {f : File} {argv : List ArgStr} {regs : Regs} {path : List UInt8}

theorem execArgv_layout {k' : Kernel} {regs' : Regs} (h : Inv k own) (hp : k.live p)
    (hgood : ∀ c ∈ f.copies k, c.Good k.freelist) (hr : execArgv k p regs path f argv = .ok (0, k', regs')) :
    (Layout (k'.user (k'.dirOf p)) (k'.proc p).sz regs'.esp argv ∧ (k'.proc p).sz % 4096 = 0 ∧
      Reach k' (k'.dirOf p) ((k'.proc p).sz / 4096 - 1) ∧ ¬ Reach k' (k'.dirOf p) ((k'.proc p).sz / 4096 - 2)) ∧
      stackRoom argv ≤ 4096 := by
  obtain ⟨⟨r, k3⟩, e3, hr⟩ := bind_ok hr
  obtain ⟨rfl, hr⟩ := Prod.mk.inj (Except.ok.inj hr)
  obtain ⟨rfl, rfl⟩ := Prod.mk.inj hr
  cases helf : f.elfhdr with
  | none =>
    rw [File.image, helf] at e3
    cases (pair_ok e3).1
  | some elf =>
    obtain ⟨-, d, k1, e1, hk⟩ | ⟨-, k1, e1, -, -⟩ := setupkvm_cases h.wf.freePages
    swap
    · rw [File.image, helf, Option.map_some, exec, e1] at e3
      cases (pair_ok e3).1
    obtain ⟨hexec, hcop⟩ := File.exec_eq p (argv.map ArgStr.arg) (pushData argv (f.top k)) helf e1
    have htop : f.top k = execTop d ((f.proghdrs elf.phnum elf.phoff).map (Option.map (Proghdr.segment f))) k1 := by
      rw [File.top, helf, e1]
    rw [hexec] at e3
    obtain ⟨⟨r, k2⟩, e2, e3⟩ := bind_ok e3
    cases r with
    | none =>
      obtain ⟨k4, -, e3⟩ := bind_ok e3
      cases (pair_ok e3).1
    | some sz =>
      rw [hcop] at hgood
      have hm2 := (setupkvm_memOnly.ok e1).trans (execBuild_memOnly.ok e2)
      rw [htop] at e2
      obtain ⟨⟨P, hst⟩, hlayout, hroom, hreach⟩ := execBuild_layout (hk.laid h.wf.freePages) hgood e2
      obtain ⟨k4, e4, e3⟩ := bind_ok e3
      obtain ⟨-, rfl⟩ := pair_ok e3
      obtain ⟨S, hS, -⟩ := hst.saved
      obtain ⟨k5, e5, hfree⟩ := hS.freeOld h hp sz
      have hpg : (k2.proc p).pgdir = k.dirOf p := by rw [hm2.proc]
      rw [hpg, e5] at e4
      obtain rfl := Except.ok.inj e4
      have hnew : ∀ v, InSpace k2 d v → k5.mem v = k2.mem v := fun v hv =>
        hfree v (hS.sub v ((hS.account v).mp (.inr hv)))
      obtain ⟨hent, -⟩ := InSpace.congr hnew
      have hproc : k5.proc p = { k2.proc p with pgdir := d, sz := sz } := by
        rw [(freevm_memOnly.ok e5).proc, Kernel.setProc_proc, Function.update_self]
      have hreach5 : ∀ m, Reach k5 d m ↔ Reach k2 d m := fun m => by
        unfold Reach
        rw [hent]
      have hlow := hst.low
      have hal := hst.aligned
      have hpage := hlayout.page
      refine ⟨?_, hroom⟩
      dsimp only [Kernel.dirOf]
      rw [hproc]
      dsimp only
      rw [hreach5, hreach5]
      refine ⟨hlayout.congr fun a ha1 ha2 => ?_, hal, hreach, hst.guard _ (by omega)⟩
      have hpa : a / 4096 = sz / 4096 - 1 := by omega
      have hmem : k5.mem (frame (k2.entry d (a / 4096))) = k2.mem (frame (k2.entry d (a / 4096))) := by
        refine hnew _ (.inr (.inr ⟨a / 4096, ?_, ?_, rfl⟩))
        · have : sz < 2 ^ 31 := hst.high
          unfold userPages
          omega
        · rw [hpa]
          exact hreach.1
      unfold Kernel.user Kernel.byte Kernel.place
      dsimp only
      rw [hent, hmem]

/-- Arguments that do not fit, and with which `exec` does not return. -/
theorem not_argsIntact (h : Inv k own) (hgood : ∀ c ∈ f.copies k, c.Good k.freelist) (hbig : 4096 < stackRoom argv)
    (hs : ¬ f.Safe (argv.map ArgStr.arg) k.freelist.length) : ¬ ArgsIntact k p regs path f argv := by
  rintro ⟨-, hfail⟩
  obtain ⟨k', hr⟩ := hfail hbig
  obtain ⟨⟨r, k2⟩, e2, -⟩ := bind_ok hr
  obtain ⟨e, he⟩ | ⟨c, hc, hbad⟩ := exec_unsafe (p := p) h.wf.freePages hs (pushData argv (f.top k))
  · cases e2.symm.trans he
  · exact hbad (hgood c hc)

/-- **`exec` passes its arguments on** exactly if they fit, or the file and the arguments are such that it returns. -/
theorem exec_args_intact_iff (h : Inv k own) (hp : k.live p) (hgood : ∀ c ∈ f.copies k, c.Good k.freelist) (regs : Regs)
    (path : List UInt8) : ArgsIntact k p regs path f argv ↔
      (stackRoom argv ≤ 4096 ∨ f.Safe (argv.map ArgStr.arg) k.freelist.length) := by
  constructor
  · intro hok
    by_contra hno
    push Not at hno
    exact not_argsIntact h hgood hno.1 hno.2 hok
  · intro hok
    refine ⟨fun k' regs' hr => (execArgv_layout h hp hgood hr).1, fun hbig => ?_⟩
    obtain ⟨r, k', regs', hr, hcase, -⟩ :=
      exec_secure h hp (hok.resolve_left (not_le.mpr hbig)) regs path (pushData argv (f.top k))
    obtain ⟨rfl, -⟩ | ⟨rfl, -, rfl⟩ := hcase
    · have := (execArgv_layout h hp hgood hr).2
      omega
    · exact ⟨k', hr⟩

end

theorem program_good : ∀ c ∈ (program 0 5000).copies boot, c.Good boot.freelist := by
  have hsafe := (program_safe_iff []).mpr (show cost (16384 / 4096) ≤ 56781 by decide)
  obtain ⟨-, -, -, -, -, hgood⟩ := exec_secure (p := initproc) inv_boot (by decide) hsafe ⟨[], 0, 0⟩ [] fun _ _ m => m
  exact hgood

/-- The string `hi`. -/
theorem exec_args_intact_hi :
    ArgsIntact boot initproc ⟨[], 0, 0⟩ [] (program 0 5000) [⟨[104, 105], by decide, by decide⟩] :=
  (exec_args_intact_iff inv_boot (by decide) program_good _ _).mpr (.inl (by decide))

/-- With a string of 32 megabytes the stack pointer is below 0, at an address of the kernel half without a page table. -/
theorem long_not_argsIntact {a : ArgStr} (h : a.arg.len = 0x2010000) :
    ¬ ArgsIntact boot initproc ⟨[], 0, 0⟩ [] (program 0 5000) [a] := by
  refine not_argsIntact inv_boot program_good ?_ fun hs => ?_
  · rw [stackRoom, map_singleton, sum_singleton, length_singleton, a.bytes_length, h]
    decide
  · have ha := (program_safe_iff _).mp hs
    rw [map_singleton, map_singleton, h] at ha
    obtain hmax | ha := ha
    · exact absurd hmax (by decide)
    · rw [if_neg (by decide), kernTables, Finset.mem_union, Finset.mem_Ico, Finset.mem_Ico] at ha
      exact absurd ha (by decide)

/-- A string of `n` letters. -/
def letters (n : ℕ) (h : n + 1 ≤ KERNBASE) : ArgStr where
  chars := List.replicate n 97
  nul := fun h => absurd (eq_of_mem_replicate h) (by decide)
  le := by rwa [length_replicate]

theorem letters_len {n : ℕ} (h : n + 1 ≤ KERNBASE) : (letters n h).arg.len = n + 1 := by
  show (List.replicate n (97 : UInt8)).length + 1 = n + 1
  rw [length_replicate]

theorem exec_long_string :
    ¬ ArgsIntact boot initproc ⟨[], 0, 0⟩ [] (program 0 5000) [letters 0x200ffff (by decide)] :=
  long_not_argsIntact (letters_len _)

end Xv6.Vm
