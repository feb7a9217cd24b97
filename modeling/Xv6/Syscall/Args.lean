import Xv6.Fs.Inode

/-! # Arguments of system calls

The checks of `syscall.c`, and what the calls of `sysfile.c` then do with the pointers they get. A
call is described by the user addresses that it loads or stores through such a pointer; `none` is an
argument that was refused. Registers are words of 32 bits: additions wrap, and the size of a buffer
is a signed number for its caller and an unsigned one for `readi`.

The result is that everything stays below `proc->sz` but for `sys_read` with a negative size
(`user_accesses`): `argptr` accepts it if the sum wraps, and `readi` reads to the end of the file. -/

namespace Xv6.Syscall

open List

open Fs (MAXFILE BSIZE NOFILE)

/-- A register. -/
abbrev Word := BitVec 32

/-- What the checks look at: `proc->sz`, the saved stack pointer, and the memory of the user. -/
structure User where
  sz : Word
  esp : Word
  mem : Word → UInt8

namespace User

/-- The word at an address. -/
def word (u : User) (a : Word) : Word :=
  (u.mem (a + 3)).toBitVec ++ (u.mem (a + 2)).toBitVec ++ (u.mem (a + 1)).toBitVec ++
    (u.mem a).toBitVec

def fetchint (u : User) (addr : Word) : Option Word :=
  if u.sz ≤ addr ∨ u.sz < addr + 4 then none else some (u.word addr)

/-- The loop of `fetchstr` at `s`, after `len` bytes. -/
def strLoop (u : User) : ℕ → Word → ℕ → Option ℕ
  | 0, _, _ => none
  | fuel + 1, s, len =>
    if s < u.sz then if u.mem s = 0 then some len else strLoop u fuel (s + 1) (len + 1) else none

/-- `fetchstr`: the string and its length. -/
def fetchstr (u : User) (addr : Word) : Option (Word × ℕ) :=
  if u.sz ≤ addr then none else (u.strLoop u.sz.toNat addr 0).map fun len => (addr, len)

/-- Where argument `n` lies. -/
def argAddr (u : User) (n : ℕ) : Word := u.esp + 4 + BitVec.ofNat 32 (4 * n)

def argint (u : User) (n : ℕ) : Option Word := u.fetchint (u.argAddr n)

def argptr (u : User) (n : ℕ) (size : Word) : Option Word := do
  let i ← u.argint n
  if u.sz ≤ i ∨ u.sz < i + size then none else some i

def argstr (u : User) (n : ℕ) : Option (Word × ℕ) := do
  let addr ← u.argint n
  u.fetchstr addr

end User

/-! ### What the calls touch -/

/-- The addresses of `n` bytes. -/
def span (p : Word) (n : ℕ) : List Word := (range n).map fun j => p + BitVec.ofNat 32 j

/-- The loops of `readi` and `writei`: block by block. -/
def moves : ℕ → Word → Word → Word → List Word
  | 0, _, _, _ => []
  | fuel + 1, off, p, n =>
    if n = 0 then []
    else
      let m := min n.toNat (512 - off.toNat % 512)
      span p m ++ moves fuel (off + BitVec.ofNat 32 m) (p + BitVec.ofNat 32 m) (n - BitVec.ofNat 32 m)

/-- What a file is read from and written to. A pipe and the console have some number of bytes, or
room for them. -/
inductive Kind where
  | pipe (avail : ℕ)
  | console (typed : ℕ)
  | file (size : Fin (MAXFILE * BSIZE + 1))

structure OpenFile where
  readable : Bool
  writable : Bool
  kind : Kind
  off : Word

/-- `readi` from a file: what it stores. -/
def readi (size off dst n : Word) : List Word :=
  if size < off ∨ off + n < off then []
  else
    let n := if size < off + n then size - off else n
    moves n.toNat off dst n

/-- `fileread`. `piperead` and `consoleread` count up to the signed number `n`. -/
def fileread (f : OpenFile) (addr n : Word) : List Word :=
  if f.readable = false then []
  else match f.kind with
    | .pipe avail => span addr (min avail n.toInt.toNat)
    | .console typed => span addr (min typed n.toInt.toNat)
    | .file size => readi (BitVec.ofNat 32 size) f.off addr n

/-- `writei` to a file: what it loads, or `none` for `-1`. -/
def writei (size off src n : Word) : Option (List Word) :=
  if size < off ∨ off + n < off then none
  else if BitVec.ofNat 32 (MAXFILE * BSIZE) < off + n then none
  else some (moves n.toNat off src n)

/-- The loop of `filewrite`, for `i` of `n` bytes. -/
def writeLoop : ℕ → Word → Word → Word → ℕ → ℕ → List Word
  | 0, _, _, _, _, _ => []
  | fuel + 1, size, off, addr, i, n =>
    if i < n then
      let m := min (n - i) 1536
      match writei size off (addr + BitVec.ofNat 32 i) (BitVec.ofNat 32 m) with
      | none => []
      | some l =>
        let off := off + BitVec.ofNat 32 m
        l ++ writeLoop fuel (if size < off then off else size) off addr (i + m) n
    else []

def filewrite (f : OpenFile) (addr n : Word) : List Word :=
  if f.writable = false then []
  else match f.kind with
    | .pipe room => span addr (min room n.toInt.toNat)
    | .console _ => span addr n.toInt.toNat
    | .file size => writeLoop n.toInt.toNat (BitVec.ofNat 32 size) f.off addr 0 n.toInt.toNat

/-- `stati`: the fields `type`, `dev`, `ino`, `nlink` and `size`. -/
def filestat (st : Word) : List Word :=
  span st 2 ++ span (st + 4) 4 ++ span (st + 8) 4 ++ span (st + 12) 2 ++ span (st + 16) 4

def argfd (u : User) (ofile : ℕ → Option OpenFile) (n : ℕ) : Option OpenFile := do
  let fd ← u.argint n
  if fd.toInt < 0 ∨ NOFILE ≤ fd.toInt then none else ofile fd.toNat

def sysRead (u : User) (ofile : ℕ → Option OpenFile) : Option (List Word) := do
  let f ← argfd u ofile 0
  let n ← u.argint 2
  let p ← u.argptr 1 n
  some (fileread f p n)

def sysWrite (u : User) (ofile : ℕ → Option OpenFile) : Option (List Word) := do
  let f ← argfd u ofile 0
  let n ← u.argint 2
  let p ← u.argptr 1 n
  some (filewrite f p n)

def sysFstat (u : User) (ofile : ℕ → Option OpenFile) : Option (List Word) := do
  let f ← argfd u ofile 0
  let st ← u.argptr 1 20
  some (match f.kind with
    | .pipe _ => []
    | _ => filestat st)

/-- `sys_pipe`: the two descriptors. -/
def sysPipe (u : User) : Option (List Word) := do
  let fd ← u.argptr 0 8
  some (span fd 4 ++ span (fd + 4) 4)

/-! ### Ranges of addresses -/

section span
variable {u : User} {p : Word} {n m : ℕ}

theorem span_add : span p (m + n) = span p m ++ span (p + BitVec.ofNat 32 m) n := by
  simp only [span, range_add, map_append, map_map]
  congr 1
  refine map_congr_left fun j _ => ?_
  simp [BitVec.ofNat_add, BitVec.add_assoc]

theorem moves_eq (fuel : ℕ) (off p n : Word) (h : n.toNat ≤ fuel) :
    moves fuel off p n = span p n.toNat := by
  induction fuel generalizing off p n with
  | zero =>
    have hn : n.toNat = 0 := by omega
    simp [moves, hn, span]
  | succ fuel ih =>
    unfold moves
    split_ifs with hn
    · simp [hn, span]
    · have hpos : n.toNat ≠ 0 := fun h0 => hn (BitVec.eq_of_toNat_eq h0)
      have hlt := n.isLt
      have hm : (n - BitVec.ofNat 32 (min n.toNat (512 - off.toNat % 512))).toNat =
          n.toNat - min n.toNat (512 - off.toNat % 512) := by
        rw [BitVec.toNat_sub_of_le, BitVec.toNat_ofNat, Nat.mod_eq_of_lt (by omega)]
        rw [BitVec.le_def, BitVec.toNat_ofNat, Nat.mod_eq_of_lt (by omega)]
        omega
      dsimp only
      rw [ih _ _ _ (by omega), hm, ← span_add]
      congr 1
      omega

theorem span_lt (hend : p.toNat + n ≤ u.sz.toNat) : ∀ a ∈ span p n, a < u.sz := by
  intro a ha
  obtain ⟨j, hj, rfl⟩ := mem_map.mp ha
  have hj := mem_range.mp hj
  have hsz := u.sz.isLt
  rw [BitVec.lt_def, BitVec.toNat_add, BitVec.toNat_ofNat, Nat.mod_eq_of_lt (by omega),
    Nat.mod_eq_of_lt (by omega)]
  omega

theorem span_take (h : m ≤ n) : ∀ a ∈ span p m, a ∈ span p n := by
  intro a ha
  obtain ⟨j, hj, rfl⟩ := mem_map.mp ha
  exact mem_map.mpr ⟨j, mem_range.mpr (by have := mem_range.mp hj; omega), rfl⟩

end span

/-! ### The checks -/

section checks
variable {u : User} (hsz : u.sz.toNat < KERNBASE) {n : ℕ}
include hsz

theorem fetchint_below {addr w : Word} (h : u.fetchint addr = some w) :
    addr.toNat + 4 ≤ u.sz.toNat := by
  unfold User.fetchint at h
  split_ifs at h with hc
  rw [BitVec.le_def, BitVec.lt_def, BitVec.toNat_add] at hc
  have h4 : (4 : Word).toNat = 4 := rfl
  rw [h4] at hc
  unfold KERNBASE at hsz
  omega

theorem argint_below {w : Word} (h : u.argint n = some w) :
    (u.argAddr n).toNat + 4 ≤ u.sz.toNat := fetchint_below hsz h

/-- The pointer is below `sz`, and so is the end of the buffer if its size is a small number. -/
theorem argptr_below {size p : Word} (h : u.argptr n size = some p) :
    p.toNat < u.sz.toNat ∧ (size.toNat < KERNBASE → p.toNat + size.toNat ≤ u.sz.toNat) := by
  obtain ⟨i, -, h⟩ := Option.bind_eq_some_iff.mp h
  split_ifs at h with hc
  obtain rfl := Option.some.inj h
  rw [BitVec.le_def, BitVec.lt_def, BitVec.toNat_add] at hc
  unfold KERNBASE at hsz ⊢
  omega

omit hsz in
theorem strLoop_below {fuel len : ℕ} {s : Word} (h : u.strLoop fuel s len = some n) :
    len ≤ n ∧ (∀ j, j ≤ n - len → s + BitVec.ofNat 32 j < u.sz) ∧
      u.mem (s + BitVec.ofNat 32 (n - len)) = 0 := by
  induction fuel generalizing s len with
  | zero => cases h
  | succ fuel ih =>
    unfold User.strLoop at h
    split_ifs at h with hs hz
    · obtain rfl := Option.some.inj h
      refine ⟨le_rfl, fun j hj => ?_, by simpa using hz⟩
      obtain rfl : j = 0 := by omega
      simpa using hs
    · obtain ⟨hle, hbelow, hnul⟩ := ih h
      have hshift : ∀ j, s + 1 + BitVec.ofNat 32 j = s + BitVec.ofNat 32 (j + 1) := by
        intro j
        rw [BitVec.add_assoc, Nat.add_comm, BitVec.ofNat_add]
        rfl
      refine ⟨by omega, fun j hj => ?_, ?_⟩
      · cases j with
        | zero => simpa using hs
        | succ j =>
          rw [← hshift]
          exact hbelow j (by omega)
      · rw [hshift, show n - (len + 1) + 1 = n - len by omega] at hnul
        exact hnul

omit hsz in
theorem argstr_below {len : ℕ} {s : Word} (h : u.argstr n = some (s, len)) :
    (∀ j, j ≤ len → s + BitVec.ofNat 32 j < u.sz) ∧ u.mem (s + BitVec.ofNat 32 len) = 0 := by
  obtain ⟨addr, -, h⟩ := Option.bind_eq_some_iff.mp h
  unfold User.fetchstr at h
  split_ifs at h
  obtain ⟨len', hloop, he⟩ := Option.map_eq_some_iff.mp h
  obtain ⟨rfl, rfl⟩ := Prod.mk.inj he
  exact (strLoop_below hloop).2

end checks

/-! ### What the calls touch lies below `sz` -/

section calls
variable {u : User} {p n : Word} {l : List Word}

/-- The number of bytes that `readi` stores. -/
def readLen (size off n : Word) : ℕ :=
  if size < off ∨ off + n < off then 0
  else if size < off + n then size.toNat - off.toNat else n.toNat

theorem readi_eq (size off dst n : Word) : readi size off dst n = span dst (readLen size off n) := by
  unfold readi readLen
  split_ifs with h1 h2
  · simp [span]
  · dsimp only
    rw [moves_eq _ _ _ _ le_rfl, BitVec.toNat_sub_of_le]
    rw [BitVec.le_def]
    rw [not_or, BitVec.not_lt, BitVec.le_def] at h1
    exact h1.1
  · exact moves_eq _ _ _ _ le_rfl

theorem readLen_le (size off n : Word) : readLen size off n ≤ n.toNat ∧
    readLen size off n ≤ size.toNat := by
  unfold readLen
  split_ifs with h1 h2
  · omega
  · rw [not_or, BitVec.not_lt, BitVec.not_lt, BitVec.le_def, BitVec.le_def, BitVec.toNat_add] at h1
    rw [BitVec.lt_def, BitVec.toNat_add] at h2
    have := off.isLt
    have := n.isLt
    omega
  · rw [not_or, BitVec.not_lt, BitVec.not_lt, BitVec.le_def, BitVec.le_def, BitVec.toNat_add] at h1
    rw [BitVec.lt_def, BitVec.toNat_add] at h2
    have := off.isLt
    have := n.isLt
    omega

theorem toInt_nonneg_iff : 0 ≤ n.toInt ↔ n.toNat < 2 ^ 31 := by
  rw [BitVec.toInt_eq_toNat_cond]
  have := n.isLt
  split_ifs <;> omega

theorem toNat_of_nonneg (h : 0 ≤ n.toInt) : n.toInt.toNat = n.toNat := by
  rw [BitVec.toInt_eq_toNat_cond]
  rw [toInt_nonneg_iff] at h
  split_ifs <;> omega

theorem toNat_of_neg (h : n.toInt < 0) : n.toInt.toNat = 0 := by omega

theorem writeLoop_mem (fuel : ℕ) (size off addr : Word) (i k : ℕ) :
    ∀ a ∈ writeLoop fuel size off addr i k, a ∈ span addr k := by
  induction fuel generalizing size off i with
  | zero => simp [writeLoop]
  | succ fuel ih =>
    intro a ha
    unfold writeLoop at ha
    split_ifs at ha with hi
    · dsimp only at ha
      split at ha
      · cases ha
      · rename_i l hl
        rcases mem_append.mp ha with ha | ha
        · unfold writei at hl
          split_ifs at hl
          obtain rfl := Option.some.inj hl
          rw [moves_eq _ _ _ _ le_rfl, BitVec.toNat_ofNat, Nat.mod_eq_of_lt (by omega)] at ha
          refine span_take (m := i + min (k - i) 1536) (by omega) a ?_
          rw [span_add]
          exact mem_append_right _ ha
        · exact ih _ _ _ a ha
    · cases ha

theorem filewrite_mem (f : OpenFile) (addr n : Word) :
    ∀ a ∈ filewrite f addr n, a ∈ span addr n.toInt.toNat := by
  intro a ha
  unfold filewrite at ha
  split_ifs at ha
  · cases ha
  · split at ha
    · exact span_take (by omega) a ha
    · exact ha
    · exact writeLoop_mem _ _ _ _ _ _ a ha

theorem argptr_span (hsz : u.sz.toNat < KERNBASE) {i : ℕ} (h : u.argptr i n = some p) :
    ∀ a ∈ span p n.toInt.toNat, a < u.sz := by
  obtain ⟨hp, hbuf⟩ := argptr_below hsz h
  apply span_lt
  rcases lt_or_ge n.toInt 0 with hneg | hpos
  · rw [toNat_of_neg hneg]
    omega
  · rw [toNat_of_nonneg hpos]
    exact hbuf (toInt_nonneg_iff.mp hpos)

/-- What `sys_read` got is a size that is not negative, or a pointer with room for the longest file
behind it. -/
def ReadSafe (u : User) : Prop :=
  ∀ fd n p, u.argint 0 = some fd → 0 ≤ fd.toInt → fd.toInt < NOFILE → u.argint 2 = some n →
    u.argptr 1 n = some p → 0 ≤ n.toInt ∨ p.toNat + MAXFILE * BSIZE ≤ u.sz.toNat

theorem fileread_below (hsz : u.sz.toNat < KERNBASE) {i : ℕ} (h : u.argptr i n = some p)
    (hn : 0 ≤ n.toInt ∨ p.toNat + MAXFILE * BSIZE ≤ u.sz.toNat) (f : OpenFile) :
    ∀ a ∈ fileread f p n, a < u.sz := by
  intro a ha
  unfold fileread at ha
  split_ifs at ha
  · cases ha
  · split at ha
    · exact argptr_span hsz h a (span_take (by omega) a ha)
    · exact argptr_span hsz h a (span_take (by omega) a ha)
    · rename_i size _
      rw [readi_eq] at ha
      obtain ⟨hlen, hsize⟩ := readLen_le (BitVec.ofNat 32 size) f.off n
      rcases hn with hpos | hroom
      · rw [← toNat_of_nonneg hpos] at hlen
        exact argptr_span hsz h a (span_take hlen a ha)
      · refine span_lt ?_ a ha
        have hle := size.isLt
        rw [BitVec.toNat_ofNat] at hsize
        have := Nat.mod_le size.val (2 ^ 32)
        omega

/-- A file of the greatest size, at its beginning. -/
def longest : OpenFile := ⟨true, true, .file (Fin.last _), 0⟩

/-- A negative size, and a pointer near the end of the memory. -/
theorem fileread_longest (hneg : n.toInt < 0) (hp : p.toNat < u.sz.toNat)
    (hend : u.sz.toNat < p.toNat + MAXFILE * BSIZE) : u.sz ∈ fileread longest p n := by
  have hsize : (BitVec.ofNat 32 (Fin.last (MAXFILE * BSIZE)).val).toNat = MAXFILE * BSIZE := by decide
  have hbig : 2 ^ 31 ≤ n.toNat := by
    by_contra hlt
    have := toInt_nonneg_iff.mpr (Nat.lt_of_not_ge hlt)
    omega
  have hmax : MAXFILE * BSIZE < 2 ^ 31 := by decide
  have hlen : readLen (BitVec.ofNat 32 (Fin.last (MAXFILE * BSIZE)).val) 0 n = MAXFILE * BSIZE := by
    unfold readLen
    rw [if_neg, if_pos, hsize]
    · rfl
    · rw [BitVec.lt_def, hsize, show (0 : Word) + n = n from BitVec.zero_add n]
      omega
    · rw [not_or, BitVec.not_lt, BitVec.not_lt, BitVec.le_def, BitVec.le_def]
      exact ⟨Nat.zero_le _, Nat.zero_le _⟩
  change u.sz ∈ readi _ 0 p n
  rw [readi_eq, hlen]
  refine mem_map.mpr ⟨u.sz.toNat - p.toNat, mem_range.mpr (by omega), ?_⟩
  apply BitVec.eq_of_toNat_eq
  have hlt := u.sz.isLt
  rw [BitVec.toNat_add, BitVec.toNat_ofNat, Nat.mod_eq_of_lt (by omega), Nat.mod_eq_of_lt (by omega)]
  omega

theorem sysRead_below_iff (hsz : u.sz.toNat < KERNBASE) :
    (∀ ofile l, sysRead u ofile = some l → ∀ a ∈ l, a < u.sz) ↔ ReadSafe u := by
  constructor
  · intro h fd n p hfd h0 h16 hn hp
    by_contra hsafe
    rw [not_or, not_le, not_le] at hsafe
    have hrun : sysRead u (fun _ => some longest) = some (fileread longest p n) := by
      have hfd' : ¬ (fd.toInt < 0 ∨ NOFILE ≤ fd.toInt) := by omega
      simp [sysRead, argfd, hfd, hfd', hn, hp]
    have hin := fileread_longest hsafe.1 (argptr_below hsz hp).1 hsafe.2
    exact absurd (h _ _ hrun u.sz hin) (BitVec.lt_irrefl _)
  · intro hsafe ofile l h
    obtain ⟨f, hf, h⟩ := Option.bind_eq_some_iff.mp h
    obtain ⟨n, hn, h⟩ := Option.bind_eq_some_iff.mp h
    obtain ⟨p, hp, h⟩ := Option.bind_eq_some_iff.mp h
    obtain rfl := Option.some.inj h
    obtain ⟨fd, hfd, hf⟩ := Option.bind_eq_some_iff.mp hf
    split_ifs at hf with hc
    exact fileread_below hsz hp (hsafe fd n p hfd (by omega) (by omega) hn hp) f

theorem sysWrite_below (hsz : u.sz.toNat < KERNBASE) {ofile : ℕ → Option OpenFile}
    (h : sysWrite u ofile = some l) : ∀ a ∈ l, a < u.sz := by
  obtain ⟨f, -, h⟩ := Option.bind_eq_some_iff.mp h
  obtain ⟨n, -, h⟩ := Option.bind_eq_some_iff.mp h
  obtain ⟨p, hp, h⟩ := Option.bind_eq_some_iff.mp h
  obtain rfl := Option.some.inj h
  exact fun a ha => argptr_span hsz hp a (filewrite_mem f p n a ha)

theorem span_within {len : ℕ} (k m : ℕ) (hk : k + m ≤ len) :
    ∀ a ∈ span (p + BitVec.ofNat 32 k) m, a ∈ span p len := by
  intro a ha
  refine span_take hk a ?_
  rw [span_add]
  exact mem_append_right _ ha

theorem sysFstat_below (hsz : u.sz.toNat < KERNBASE) {ofile : ℕ → Option OpenFile}
    (h : sysFstat u ofile = some l) : ∀ a ∈ l, a < u.sz := by
  obtain ⟨f, -, h⟩ := Option.bind_eq_some_iff.mp h
  obtain ⟨st, hst, h⟩ := Option.bind_eq_some_iff.mp h
  obtain rfl := Option.some.inj h
  have hbuf := argptr_span hsz hst
  have hpart : ∀ k m, k + m ≤ 20 → ∀ a ∈ span (st + BitVec.ofNat 32 k) m, a < u.sz :=
    fun k m hk a ha => hbuf a (span_within k m hk a ha)
  have hstat : ∀ a ∈ filestat st, a < u.sz := by
    intro a ha
    simp only [filestat, mem_append] at ha
    rcases ha with (((ha | ha) | ha) | ha) | ha
    · exact hpart 0 2 (by omega) a (by simpa using ha)
    · exact hpart 4 4 (by omega) a ha
    · exact hpart 8 4 (by omega) a ha
    · exact hpart 12 2 (by omega) a ha
    · exact hpart 16 4 (by omega) a ha
  split
  · simp
  · exact hstat

theorem sysPipe_below (hsz : u.sz.toNat < KERNBASE) (h : sysPipe u = some l) : ∀ a ∈ l, a < u.sz := by
  obtain ⟨fd, hfd, h⟩ := Option.bind_eq_some_iff.mp h
  obtain rfl := Option.some.inj h
  intro a ha
  rcases mem_append.mp ha with ha | ha
  · exact argptr_span hsz hfd a (span_take (by decide) a ha)
  · exact argptr_span hsz hfd a (span_within 4 4 (by decide) a ha)

/-- **Pointers of system calls.**  Whatever the stack pointer, the arguments and `proc->sz` are: the
words that `argint` reads, the strings that `argstr` accepts with their NUL, and what `sys_write`,
`sys_fstat` and `sys_pipe` touch lie below `proc->sz`; what `sys_read` stores lies there for all
files exactly if its size is not negative or there is room for the longest file. -/
theorem user_accesses (hsz : u.sz.toNat < KERNBASE) :
    (∀ i w, u.argint i = some w → ∀ a ∈ span (u.argAddr i) 4, a < u.sz) ∧
    (∀ i s len, u.argstr i = some (s, len) →
      (∀ a ∈ span s (len + 1), a < u.sz) ∧ u.mem (s + BitVec.ofNat 32 len) = 0) ∧
    (∀ ofile l, sysWrite u ofile = some l → ∀ a ∈ l, a < u.sz) ∧
    (∀ ofile l, sysFstat u ofile = some l → ∀ a ∈ l, a < u.sz) ∧
    (∀ l, sysPipe u = some l → ∀ a ∈ l, a < u.sz) ∧
    ((∀ ofile l, sysRead u ofile = some l → ∀ a ∈ l, a < u.sz) ↔ ReadSafe u) := by
  refine ⟨fun i w h => span_lt (argint_below hsz h), fun i s len h => ?_,
    fun _ _ => sysWrite_below hsz, fun _ _ => sysFstat_below hsz, fun _ => sysPipe_below hsz,
    sysRead_below_iff hsz⟩
  obtain ⟨hbelow, hnul⟩ := argstr_below h
  refine ⟨fun a ha => ?_, hnul⟩
  obtain ⟨j, hj, rfl⟩ := mem_map.mp ha
  exact hbelow j (by have := mem_range.mp hj; omega)

/-- A process with two pages that has called `read(0, 8191, n)`, with the arguments at address 4. -/
def reader (n : UInt8) (rest : UInt8) : User where
  sz := 8192
  esp := 0
  mem a :=
    if a = 8 then 255
    else if a = 9 then 31
    else if a = 12 then n
    else if a = 13 ∨ a = 14 ∨ a = 15 then rest
    else 0

/-- `read(0, 8191, 1)` stores one byte at most. -/
theorem user_accesses_one : (reader 1 0).sz.toNat < KERNBASE ∧
    ∀ ofile l, sysRead (reader 1 0) ofile = some l → ∀ a ∈ l, a < (reader 1 0).sz := by
  refine ⟨by decide, (user_accesses (by decide)).2.2.2.2.2.mpr ?_⟩
  intro fd n p _ _ _ hn _
  have hone : (reader 1 0).argint 2 = some 1 := by decide
  obtain rfl : 1 = n := Option.some.inj (hone.symm.trans hn)
  exact .inl (by decide)

/-- `read(0, 8191, -1)` from a file of two bytes stores the second one at `proc->sz`. -/
theorem read_stores_above : ∃ l, sysRead (reader 255 255)
    (fun _ => some ⟨true, false, .file 2, 0⟩) = some l ∧ (reader 255 255).sz ∈ l :=
  ⟨[8191, 8192], by decide, by decide⟩

end calls

end Xv6.Syscall
