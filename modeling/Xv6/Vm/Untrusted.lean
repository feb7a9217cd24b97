import Xv6.Vm.Elf
import Xv6.Vm.Filled

/-! # `exec` on an untrusted file

Whether `exec` is safe on a file is decided by the header fields and by the number of free pages.
It is not for a program header that is not page aligned, whose end wraps around the address space
so that its contents go elsewhere, or whose contents go to a page that `allocuvm` has lost; and not
when the arguments are stored in a lost page or, being too long, at an address without a table.

`loadPlan` and `Argue` follow `exec` through the headers and the arguments by arithmetic only;
`exec_untrusted` says that they are exact. -/

namespace Xv6.Vm

open Fallible List Function

/-! ### The condition -/

namespace Proghdr
variable (f : File) (ph : Proghdr)

/-- The number of pages that the contents take. -/
def count : ℕ := (ph.filesz + PGSIZE - 1) / PGSIZE

/-- The page number that piece `j` goes to. -/
def dest (j : ℕ) : ℕ := u32 (ph.vaddr + j * PGSIZE) / 4096

/-- A piece that can be read is the contents of a page of the new space. -/
def Lands (M hi j : ℕ) : Prop :=
  ph.dest j < held M hi ∨ HasTables M hi (ph.dest j / 1024) ∧ ph.piece f j = []
deriving Decidable

/-- The program header does no harm in a space of `hi` pages. -/
def Harmless (M hi : ℕ) : Prop :=
  ph.vaddr % PGSIZE = 0 ∧ ∀ j < ph.count, (∀ i < j, ph.whole f i = true) → ph.Lands f M hi j

instance (M hi : ℕ) : Decidable (ph.Harmless f M hi) := inferInstanceAs (Decidable (_ ∧ _))

/-- All of the contents can be read. -/
def Complete : Prop := ∀ j < ph.count, ph.whole f j = true

instance : Decidable (ph.Complete f) := inferInstanceAs (Decidable (∀ j < _, _))

end Proghdr

/-- The loop over the program headers: `none` if one does harm, and otherwise the size of the space,
or `none` for `goto bad`. -/
def loadPlan (M : ℕ) (f : File) : List (Option Proghdr) → ℕ → Option (Option ℕ)
  | [], sz => some (some sz)
  | none :: _, _ => some none
  | some ph :: l, sz =>
    if (ph.segment f).load = false then loadPlan M f l sz
    else if ph.memsz < ph.filesz then some none
    else
      match grow M sz (u32 (ph.vaddr + ph.memsz)) with
      | none => some none
      | some sz =>
        if ph.Harmless f M (pages sz) then
          if ph.Complete f then loadPlan M f l sz else some none
        else none

/-- The arguments from the `j`-th on, with the stack pointer at `sp` in the last page below `top`:
they are stored in the last page, which must not be lost, or the first address has a table. -/
def Argue (M top : ℕ) : List ℕ → ℕ → ℕ → Prop
  | [], _, _ => cost (top / 4096) ≤ M
  | len :: l, j, sp =>
    let sp := u32 (sp + 2 ^ 32 - len) / 4 * 4
    MAXARG ≤ j ∨
      if sp < top then
        sp + 4096 < top ∨ cost (top / 4096) ≤ M ∧ Argue M top l (j + 1) sp
      else sp / 4096 / 1024 ∈ kernTables

/-- The stack. -/
def StackPlan (M sz : ℕ) (args : List ℕ) : Prop :=
  ∀ top ∈ grow M (pgRoundUp sz) (u32 (pgRoundUp sz + 2 * PGSIZE)), Argue M top args 0 top

/-- Headers and arguments. -/
def Planned (M : ℕ) (f : File) (l : List (Option Proghdr)) (args : List ℕ) : Prop :=
  ∃ r, loadPlan M f l 0 = some r ∧ ∀ sz ∈ r, StackPlan M sz args

/-- Loading the file is safe with `free` free pages. -/
def File.Safe (f : File) (args : List Arg) (free : ℕ) : Prop :=
  ∀ elf ∈ f.elfhdr, 65 ≤ free →
    Planned (free - 65) f (f.proghdrs elf.phnum elf.phoff) (args.map Arg.len)

/-! ### Loading -/

/-- Bytes are copied to a page that was free, below the size of the space. -/
def Copy.Good (F : List ℕ) (c : Copy) : Prop := 0 < c.len → c.page ∈ F ∧ c.va + c.len ≤ c.sz

section
variable {M hi d : ℕ} {k0 k k' : Kernel} {f : File} {ph : Proghdr} {P : Prop}

variable {m j sz : ℕ}

theorem hasTables_of_lt (h : m < held M hi) : HasTables M hi (m / 1024) :=
  .inl (by omega)

/-- A page number with a table that is not mapped lies above the space. -/
theorem Laid.above (h : Laid k0 k d hi M) (hm : held M hi ≤ m)
    (ht : HasTables M hi (m / 1024)) : hi ≤ m := by
  by_contra hlt
  have htop := h.top
  rcases ht with ht | ht
  · rcases h.affords with hc | ⟨hc, h1⟩
    · rw [held, if_pos hc] at hm
      omega
    · rw [held, if_neg (by omega)] at hm ht
      omega
  · rw [kernTables, Finset.mem_union, Finset.mem_Ico, Finset.mem_Ico] at ht
    unfold userPages at htop
    omega

theorem Laid.held_user (h : Laid k0 k d hi M) (hm : m < held M hi) : m < userPages :=
  lt_of_lt_of_le (lt_of_lt_of_le hm (held_le M hi)) h.top

theorem Laid.fresh (h : Laid k0 k d hi M) (hm : m < held M hi) : frame (k.entry d m) ∈ k0.freelist := by
  obtain ⟨S, hS, -⟩ := h.saved
  have hmu := h.held_user hm
  exact hS.sub _ ((hS.account _).mp (.inr (.inr (.inr ⟨m, hmu, (h.mapped m hmu).mpr hm, rfl⟩))))

theorem Laid.write (h : Laid k0 k d hi M) (hm : m < held M hi) (g : ℕ → ℕ) :
    Laid k0 (k.setPage (frame (k.entry d m)) g) d hi M := by
  have hmu := h.held_user hm
  have hpr := (h.mapped m hmu).mpr hm
  obtain ⟨S, hS, -⟩ := h.saved
  exact h.sameTables (fun hS => (hS.write hmu hpr g).1) (hS.write hmu hpr g).2

theorem putBytes_nil (m : ℕ → ℕ) : putBytes m [] = m := by
  funext i
  rw [putBytes, length_nil, if_pos (Nat.zero_le _)]

theorem Proghdr.dest_lt (j : ℕ) : ph.dest j < allPages := by
  unfold dest u32 allPages
  omega

theorem Proghdr.va_eq (ha : ph.vaddr % PGSIZE = 0) (j : ℕ) :
    u32 (ph.vaddr + j * PGSIZE) = 4096 * ph.dest j := by
  unfold dest u32
  unfold PGSIZE at ha ⊢
  omega

theorem Proghdr.piece_le (j : ℕ) : (ph.piece f j).length ≤ ph.want j := by
  unfold piece File.readi
  split_ifs
  · exact Nat.zero_le _
  · rw [Option.getD_some, length_take]
    exact min_le_left _ _

/-- The pieces from the `j`-th on land, if they are reached. -/
def Proghdr.LandsFrom (f : File) (ph : Proghdr) (M hi j : ℕ) : Prop :=
  ∀ i, j ≤ i → i < ph.count → (∀ i' < i, ph.whole f i' = true) → ph.Lands f M hi i

theorem Proghdr.landsFrom_iff (hj : j < ph.count) (hprev : ∀ i < j, ph.whole f i = true) :
    ph.LandsFrom f M hi j ↔
      ph.Lands f M hi j ∧ (ph.whole f j = true → ph.LandsFrom f M hi (j + 1)) := by
  constructor
  · intro h
    exact ⟨h j (le_refl _) hj hprev, fun _ i hi => h i (by omega)⟩
  · rintro ⟨h1, h2⟩ i hji hi hw
    by_cases e : i = j
    · rw [e]
      exact h1
    · exact h2 (hw j (by omega)) i (by omega) hi hw

theorem loadLoop_laid (h : Laid k0 k d hi M) (ha : ph.vaddr % PGSIZE = 0) {n : ℕ}
    (hn : j + n = ph.count) (hprev : ∀ i < j, ph.whole f i = true) :
    (ph.LandsFrom f M hi j → ∃ b k', loadLoop d ph.vaddr (ph.segment f).data n j k = .ok (b, k') ∧
      Laid k0 k' d hi M ∧ (b = true ↔ ph.Complete f) ∧
      ∀ c ∈ loadCopies d f ph (4096 * hi) n j k, c.Good k0.freelist ∧ c.sz = 4096 * hi) ∧
    (¬ ph.LandsFrom f M hi j →
      (∃ e, loadLoop d ph.vaddr (ph.segment f).data n j k = .error e) ∨
        ∃ c ∈ loadCopies d f ph (4096 * hi) n j k, ¬ c.Good k0.freelist) := by
  induction n generalizing j k with
  | zero =>
    constructor
    · intro _
      exact ⟨true, k, rfl, h, by simp [Proghdr.Complete, ← hn]; exact hprev,
        by simp [loadCopies]⟩
    · intro hl
      exact absurd (fun i h1 h2 => by omega) hl
  | succ n ih =>
    rw [Proghdr.landsFrom_iff (by omega) hprev]
    have hwant : 0 < ph.want j ∧ ph.want j ≤ 4096 := by
      unfold Proghdr.want Proghdr.count PGSIZE at *
      omega
    have hlen := ph.piece_le (f := f) j
    have hva := ph.va_eq ha j
    have hpg : 4096 * ph.dest j / 4096 = ph.dest j := by omega
    have hpde := h.pde (ph.dest_lt j)
    unfold loadLoop loadCopies
    simp only [hva, walkpgdir_false, hpg]
    by_cases ht : HasTables M hi (ph.dest j / 1024)
    swap
    · rw [if_neg (mt hpde.mp ht)]
      have hno : ¬ ph.Lands f M hi j := by
        rintro (e | e)
        · exact ht (hasTables_of_lt e)
        · exact ht e.1
      exact ⟨fun e => absurd e.1 hno, fun _ => .inl ⟨_, rfl⟩⟩
    rw [if_pos (hpde.mpr ht)]
    dsimp only
    rw [← entry_of_present (hpde.mpr ht), frame_eq]
    by_cases hm : ph.dest j < held M hi
    · have h2 := h.write hm (putBytes (k.mem (frame (k.entry d (ph.dest j)))) (ph.piece f j))
      have hgood : Copy.Good k0.freelist ⟨4096 * ph.dest j, frame (k.entry d (ph.dest j)),
          (ph.piece f j).length, 4096 * hi⟩ := by
        intro _
        have hle := held_le M hi
        refine ⟨h.fresh hm, ?_⟩
        show 4096 * ph.dest j + (ph.piece f j).length ≤ 4096 * hi
        omega
      by_cases hw : ph.whole f j = true
      · obtain ⟨ih1, ih2⟩ := ih h2 (j := j + 1) (by omega) fun i hi => by
          by_cases e : i = j
          · rw [e]
            exact hw
          · exact hprev i (by omega)
        rw [if_pos hw]
        constructor
        · rintro ⟨_, hl⟩
          obtain ⟨b, k', e, hb, hc, hg⟩ := ih1 (hl hw)
          refine ⟨b, k', (if_pos hw).trans e, hb, hc, fun c hc => ?_⟩
          rcases mem_cons.mp hc with rfl | hc
          · exact ⟨hgood, rfl⟩
          · exact hg c hc
        · intro hl
          rcases ih2 (fun hl' => hl ⟨.inl hm, fun _ => hl'⟩) with ⟨e, he⟩ | ⟨c, hc, hg⟩
          · exact .inl ⟨e, (if_pos hw).trans he⟩
          · exact .inr ⟨c, mem_cons_of_mem _ hc, hg⟩
      · rw [if_neg hw]
        constructor
        · intro _
          refine ⟨false, _, if_neg hw, h2, ?_, fun c hc => ?_⟩
          · exact ⟨fun e => absurd e (by decide), fun hc => absurd (hc j (by omega)) hw⟩
          · rw [mem_singleton.mp hc]
            exact ⟨hgood, rfl⟩
        · intro hl
          exact absurd ⟨.inl hm, fun e => absurd e hw⟩ hl
    · have hle := h.above (not_lt.mp hm) ht
      by_cases hp : ph.piece f j = []
      · have hw : ¬ ph.whole f j = true := by
          unfold Proghdr.whole
          rw [hp, decide_eq_true_iff, length_nil]
          omega
        rw [if_neg hw]
        constructor
        · intro _
          refine ⟨false, k, (if_neg hw).trans ?_, h, ?_, fun c hc => ?_⟩
          · show Except.ok (false, k.setPage _ (putBytes _ (ph.piece f j))) = _
            rw [hp, putBytes_nil, Kernel.setPage, update_eq_self]
          · exact ⟨fun e => absurd e (by decide), fun hc => absurd (hc j (by omega)) hw⟩
          · rw [mem_singleton.mp hc]
            refine ⟨fun h0 => ?_, rfl⟩
            change 0 < (ph.piece f j).length at h0
            rw [hp] at h0
            cases h0
        · intro hl
          exact absurd ⟨.inr ⟨ht, hp⟩, fun e => absurd e hw⟩ hl
      · have hno : ¬ ph.Lands f M hi j := by
          rintro (e | e)
          · exact hm e
          · exact hp e.2
        refine ⟨fun e => absurd e.1 hno, fun _ => .inr ⟨_, mem_cons_self, fun hg => ?_⟩⟩
        have hpos := length_pos_iff.mpr hp
        have : 4096 * ph.dest j + (ph.piece f j).length ≤ 4096 * hi := (hg hpos).2
        omega

theorem loaduvm_laid (f : File) (ph : Proghdr) (h : Laid k0 k d hi M) :
    (ph.Harmless f M hi → ∃ b k', loaduvm k d ph.vaddr (ph.segment f).data ph.filesz = .ok (b, k') ∧
      Laid k0 k' d hi M ∧ (b = true ↔ ph.Complete f) ∧
      ∀ c ∈ loadCopies d f ph (4096 * hi) ph.count 0 k, c.Good k0.freelist ∧ c.sz = 4096 * hi) ∧
    (¬ ph.Harmless f M hi →
      (∃ e, loaduvm k d ph.vaddr (ph.segment f).data ph.filesz = .error e) ∨
        ph.vaddr % PGSIZE = 0 ∧ ∃ c ∈ loadCopies d f ph (4096 * hi) ph.count 0 k, ¬ c.Good k0.freelist) := by
  unfold loaduvm
  by_cases ha : ph.vaddr % PGSIZE = 0
  swap
  · rw [if_pos ha]
    exact ⟨fun e => absurd e.1 ha, fun _ => .inl ⟨_, rfl⟩⟩
  rw [if_neg (not_not.mpr ha)]
  obtain ⟨h1, h2⟩ := loadLoop_laid (f := f) h ha (Nat.zero_add _) fun i hi => by omega
  have hiff : ph.Harmless f M hi ↔ ph.LandsFrom f M hi 0 :=
    ⟨fun e i _ => e.2 i, fun e => ⟨ha, fun j => e j (Nat.zero_le _)⟩⟩
  rw [hiff]
  exact ⟨h1, fun hl => (h2 hl).imp id fun hc => ⟨ha, hc⟩⟩

/-- Where the pages end that `exec` asks for when the program headers end at `sz`. -/
def stackEnd (sz : ℕ) : ℕ := if 4096 * (pages sz + 2) < KERNBASE then pages sz + 2 else pages sz

/-- The number of user pages that `exec` asks for from these program headers on, were there memory. -/
def wants (f : File) : List (Option Proghdr) → ℕ → ℕ
  | [], sz => stackEnd sz
  | none :: _, sz => pages sz
  | some ph :: l, sz =>
    let newsz := u32 (ph.vaddr + ph.memsz)
    if (ph.segment f).load = false then wants f l sz
    else if ph.memsz < ph.filesz then pages sz
    else if newsz ≥ KERNBASE ∨ max sz newsz = 0 then pages sz
    else if ph.Complete f then wants f l (max sz newsz)
    else pages (max sz newsz)

theorem le_wants (f : File) (l : List (Option Proghdr)) (sz : ℕ) : pages sz ≤ wants f l sz := by
  induction l generalizing sz with
  | nil =>
    unfold wants stackEnd
    split_ifs
    · exact Nat.le_add_right _ _
    · exact le_refl _
  | cons ph l ih =>
    cases ph with
    | none => exact le_refl _
    | some ph =>
      unfold wants
      dsimp only
      split_ifs
      · exact ih sz
      · exact le_refl _
      · exact le_refl _
      · exact (pages_mono (le_max_left _ _)).trans (ih _)
      · exact pages_mono (le_max_left _ _)

/-- How the loop over the program headers ends, where `w` is the number of pages that `exec` asks for: with the size of
the space, or with none, as far as memory has gone. -/
def Loaded (k0 k : Kernel) (d M w : ℕ) : Option ℕ → Prop
  | none => Saved k0 k d (∃ m < w, EndsAt M m)
  | some sz => sz < KERNBASE ∧ w = stackEnd sz ∧ Laid k0 k d (pages sz) M

theorem pgRoundUp_pages (hsz : sz < KERNBASE) : pgRoundUp sz = 4096 * pages sz := by
  have hk := kernbase_eq
  unfold pgRoundUp u32 PGSIZE pages
  omega

theorem execLoad_laid {l : List (Option Proghdr)} (h : Laid k0 k d (pages sz) M) (hsz : sz < KERNBASE) :
    match loadPlan M f l sz with
    | none => (∃ e, execLoad d (l.map (Option.map (Proghdr.segment f))) sz k = .error e) ∨
        ∃ c ∈ execCopies d f l sz k, ¬ c.Good k0.freelist
    | some r => ∃ k', execLoad d (l.map (Option.map (Proghdr.segment f))) sz k = .ok (r, k') ∧
        Loaded k0 k' d M (wants f l sz) r ∧ (∀ c ∈ execCopies d f l sz k, c.Good k0.freelist) ∧
        ∀ s ∈ r, sz ≤ s ∧ ∀ c ∈ execCopies d f l sz k, c.sz ≤ 4096 * pages s := by
  induction l generalizing sz k with
  | nil =>
    refine ⟨k, rfl, ⟨hsz, rfl, h⟩, by simp [execCopies], fun s e => ?_⟩
    obtain rfl := Option.some.inj e
    exact ⟨le_refl _, by simp [execCopies]⟩
  | cons ph l ih =>
    cases ph with
    | none => exact ⟨k, rfl, h.saved, by simp [execCopies], by simp⟩
    | some ph =>
      rw [map_cons, Option.map_some]
      unfold loadPlan execLoad execCopies wants
      dsimp only
      by_cases h1 : (ph.segment f).load = false
      · simp only [if_pos h1]
        exact ih h hsz
      simp only [if_neg h1]
      by_cases h2 : ph.memsz < ph.filesz
      · rw [if_pos h2, if_pos h2, if_pos h2, if_pos (by exact h2)]
        exact ⟨k, rfl, h.saved, by simp, by simp⟩
      rw [if_neg h2, if_neg h2, if_neg h2, if_neg (by exact h2)]
      obtain ⟨r, k1, e1, hgo, hstop⟩ := h.allocuvm hsz (u32 (ph.vaddr + ph.memsz))
      have e1' : allocuvm k d sz (u32 ((ph.segment f).vaddr + (ph.segment f).memsz)) = .ok (r, k1) := e1
      rw [e1', e1]
      cases hgr : grow M sz (u32 (ph.vaddr + ph.memsz)) with
      | none =>
        obtain ⟨rfl, hsaved⟩ := hstop hgr
        refine ⟨k1, rfl, hsaved _ ?_, by simp, by simp⟩
        unfold Asks
        split_ifs
        · rfl
        · exact le_wants f l _
        · exact le_refl _
      | some sz1 =>
        obtain ⟨rfl, hz, hmax, hnew, hb1⟩ := hgo sz1 hgr
        have hlt : r < KERNBASE := hmax.trans_lt (max_lt hsz hnew)
        obtain ⟨hs1, hs2⟩ := loaduvm_laid f ph hb1
        have hasked : ¬ (u32 (ph.vaddr + ph.memsz) ≥ KERNBASE ∨ r = 0) := by omega
        rw [ok_bind, ← hmax, if_neg hasked]
        dsimp only
        rw [if_neg hz, pgRoundUp_pages hlt]
        by_cases hh : ph.Harmless f M (pages r)
        · obtain ⟨b, k2, e2, hb2, hc2, hg2⟩ := hs1 hh
          have hskip : ¬ (r = 0 ∨ ph.vaddr % PGSIZE ≠ 0) := by
            rintro (e | e)
            · exact hz e
            · exact e hh.1
          have e2' : loaduvm k1 d (ph.segment f).vaddr (ph.segment f).data
            (ph.segment f).filesz = .ok (b, k2) := e2
          rw [if_pos hh, if_neg hskip, e2', e2, ok_bind]
          cases b with
          | false =>
            rw [if_neg (mt hc2.mpr (by decide)), if_neg (mt hc2.mpr (by decide))]
            refine ⟨k2, rfl, hb2.saved, fun c hc => ?_, by simp⟩
            rw [append_nil] at hc
            exact (hg2 c hc).1
          | true =>
            rw [if_pos (hc2.mp rfl), if_pos (hc2.mp rfl)]
            have hih := ih hb2 hlt
            cases hp : loadPlan M f l r with
            | none =>
              rw [hp] at hih
              refine hih.imp id ?_
              rintro ⟨c, hc, hg⟩
              exact ⟨c, mem_append_right _ hc, hg⟩
            | some res =>
              rw [hp] at hih
              obtain ⟨k3, e3, hb3, hg3, hsz3⟩ := hih
              refine ⟨k3, e3, hb3, fun c hc => ?_, fun s hs => ?_⟩
              · obtain hc | hc := mem_append.mp hc
                · exact (hg2 c hc).1
                · exact hg3 c hc
              · obtain ⟨hle, hcs⟩ := hsz3 s hs
                refine ⟨by omega, fun c hc => ?_⟩
                obtain hc | hc := mem_append.mp hc
                · rw [(hg2 c hc).2]
                  have := pages_mono hle
                  omega
                · exact hcs c hc
        · rw [if_neg hh]
          obtain ⟨e, he⟩ | ⟨ha, c, hc, hg⟩ := hs2 hh
          · have he' : loaduvm k1 d (ph.segment f).vaddr (ph.segment f).data
              (ph.segment f).filesz = .error e := he
            exact .inl ⟨e, by rw [he', error_bind]⟩
          · have hskip : ¬ (r = 0 ∨ ph.vaddr % PGSIZE ≠ 0) := by
              rintro (e | e)
              · exact hz e
              · exact e ha
            rw [if_neg hskip]
            exact .inr ⟨c, mem_append_left _ hc, hg⟩

/-! ### The stack and the arguments -/

/-- A space with a stack below `top`: the last page, which may be lost, and the guard page. -/
structure Stacked (k0 : Kernel) (P : Prop) (M top d : ℕ) (k : Kernel) : Prop where
  saved : Saved k0 k d P
  tables : ∀ m < allPages, Present (k.pde d m) ↔ HasTables M (top / 4096) (m / 1024)
  user : ∀ m < held M (top / 4096), m + 2 ≠ top / 4096 → Reach k d m
  guard : ∀ m, m + 2 = top / 4096 → ¬ Reach k d m
  affords : Affords M (top / 4096)
  aligned : top % 4096 = 0
  low : 8192 ≤ top
  high : top < KERNBASE

theorem clearpteu_stacked {s : ℕ} (h : Laid k0 k d (s + 2) M) (hs : 4096 * (s + 2) < KERNBASE) :
    ∃ k', clearpteu k d (4096 * s) = .ok k' ∧
      Stacked k0 (∃ m < s + 2, EndsAt M m) M (4096 * (s + 2)) d k' := by
  have hua := userPages_le
  have htop : 4096 * (s + 2) / 4096 = s + 2 := by omega
  have hpg : 4096 * s / 4096 = s := by omega
  have hsu : s + 2 ≤ userPages := h.top
  have hheld : s < held M (s + 2) := by
    unfold held
    split_ifs <;> omega
  have hp : Present (k.entry d s) := (h.mapped s (by omega)).mpr hheld
  obtain ⟨k', e⟩ : ∃ k', clearpteu k d (4096 * s) = .ok k' := by
    unfold clearpteu
    rw [walkpgdir_false, hpg, if_pos (pde_of_entry hp)]
    exact ⟨_, rfl⟩
  have hsaved := h.saved.congr (fun hS => hS.clear (by omega) e) Iff.rfl
  obtain ⟨hps, rfl⟩ := clearpteu_store e
  rw [hpg] at hps hsaved e
  obtain ⟨hdir, hent⟩ := h.tree.rooted.entry_store (by omega : s < allPages) hps (k.entry d s - (k.entry d s &&& PTE_U))
  refine ⟨_, e, hsaved, fun m hm => ?_, fun m hm hne => ?_, fun m hm => ?_, ?_, by omega, by omega, hs⟩
  · rw [htop, pde_congr hdir]
    exact h.pde hm
  · rw [htop] at hm hne
    have hmu := h.held_user hm
    have hpm := (h.mapped m hmu).mpr hm
    unfold Reach
    rw [hent m (by omega), if_neg (by omega)]
    exact ⟨hpm, h.user m hmu hpm⟩
  · obtain rfl : m = s := by omega
    unfold Reach
    rw [hent m (by omega), if_pos rfl]
    rintro ⟨-, hu⟩
    obtain ⟨e, hno⟩ | ⟨e, hu'⟩ := clear_user (k.entry d m)
    · omega
    · omega
  · rw [htop]
    exact h.affords

section
variable {top len : ℕ} (h : Stacked k0 P M top d k) (data : ℕ → (ℕ → ℕ) → (ℕ → ℕ)) (va : ℕ)
include h

theorem Stacked.sealed : Sealed k d := by
  obtain ⟨S, hS, -⟩ := h.saved
  exact hS.sealed

theorem Stacked.last (hc : cost (top / 4096) ≤ M) (hlen : 0 < len) (hva : top ≤ va + 4096)
    (hend : va + len ≤ top) : ∃ k', copyout k d va len data = .ok (true, k') := by
  have h1 := h.aligned
  have h2 := h.low
  have hone : pieces va len = 1 := by
    rw [pieces, if_neg (by omega)]
    omega
  refine ⟨_, copyout_all h.sealed fun i hi => ?_⟩
  obtain rfl : i = 0 := by omega
  exact h.user (va / 4096) (by rw [held, if_pos hc]; omega) (by omega)

theorem Stacked.lost (hc : ¬ cost (top / 4096) ≤ M) (hlen : 0 < len) (hva : top ≤ va + 4096)
    (hend : va < top) : copyout k d va len data = .error .null := by
  have h1 := h.aligned
  have h3 : top < 2 ^ 31 := h.high
  have hno : ¬ Present (k.pde d (va / 4096)) := by
    rw [h.tables _ (by unfold allPages; omega)]
    have h4 := h.affords.resolve_left hc
    rintro (ht | ht)
    · rw [held, if_neg hc] at ht
      omega
    · rw [kernTables, Finset.mem_union, Finset.mem_Ico, Finset.mem_Ico] at ht
      omega
  rw [copyout_first h.sealed (by simp) (c := 0), Nat.add_zero, if_neg hno]
  · rw [pieces, if_neg (by omega)]
    omega
  · exact fun hr => hno (pde_of_entry hr.1)

/-- A block that comes down to the guard page is not copied. -/
theorem Stacked.guarded (hlen : 0 < len) (hva : va + 4096 < top)
    (hend : top ≤ va + len + 8191) : ∃ k', copyout k d va len data = .ok (false, k') := by
  have h1 := h.aligned
  have h2 := h.low
  have h3 : top < 2 ^ 31 := h.high
  have hheld : top / 4096 - 1 ≤ held M (top / 4096) := by
    unfold held
    split_ifs <;> omega
  have hpage : va / 4096 + (top / 4096 - 2 - va / 4096) = top / 4096 - 2 := by omega
  rw [copyout_first h.sealed (c := top / 4096 - 2 - va / 4096), hpage, if_pos]
  · exact ⟨_, rfl⟩
  · rw [h.tables _ (by unfold allPages; omega)]
    exact hasTables_of_lt (by omega)
  · exact fun i hi => h.user _ (by omega) (by omega)
  · rw [pieces, if_neg (by omega)]
    omega
  · rw [hpage]
    exact h.guard _ (by omega)

/-- A block in the kernel half is not copied, if there is a table. -/
theorem Stacked.kernel (hlen : 0 < len) (hva : KERNBASE ≤ va) (hlt : va < 2 ^ 32) :
    (va / 4096 / 1024 ∈ kernTables → ∃ k', copyout k d va len data = .ok (false, k')) ∧
    (va / 4096 / 1024 ∉ kernTables → copyout k d va len data = .error .null) := by
  have hva' : 2 ^ 31 ≤ va := hva
  have h3 : top < 2 ^ 31 := h.high
  have hpg : va / 4096 < allPages := by
    unfold allPages
    omega
  have ht : Present (k.pde d (va / 4096)) ↔ va / 4096 / 1024 ∈ kernTables := by
    rw [h.tables _ hpg]
    refine or_iff_right fun e => ?_
    have := held_le M (top / 4096)
    omega
  rw [copyout_first h.sealed nofun (c := 0)]
  · exact ⟨fun hk => ⟨_, if_pos (ht.mpr hk)⟩, fun hk => if_neg (mt ht.mp hk)⟩
  · rw [pieces, if_neg (by omega)]
    omega
  · intro hr
    obtain ⟨S, hS, -⟩ := h.saved
    have := hS.reach hr
    rw [Nat.add_zero, Nat.mod_eq_of_lt hpg] at this
    unfold userPages at this
    omega

end

theorem Stacked.after {top va len : ℕ} {data : ℕ → (ℕ → ℕ) → (ℕ → ℕ)} {b : Bool}
    (h : Stacked k0 P M top d k) (hr : copyout k d va len data = .ok (b, k')) : Stacked k0 P M top d k' := by
  obtain ⟨S, hS, -⟩ := h.saved
  have hs := (hS.copyout hr).2
  refine ⟨h.saved.congr (fun hS => (hS.copyout hr).1) Iff.rfl, ?_, ?_, ?_, h.affords, h.aligned, h.low, h.high⟩
  · simp only [pde_congr hs.dir]
    exact h.tables
  · simp only [hs.reach]
    exact h.user
  · simp only [hs.reach]
    exact h.guard

theorem execArgs_stacked {top : ℕ} (h : Stacked k0 P M top d k)
    (data : ℕ → ℕ → (ℕ → ℕ) → (ℕ → ℕ)) {l : List ℕ} (hargs : ∀ len ∈ l, 0 < len ∧ len ≤ KERNBASE)
    {sp : ℕ} (hj : j ≤ MAXARG) (hlow : top ≤ sp + 4096) (hhigh : sp ≤ top) (h4 : sp % 4 = 0) :
    (Argue M top l j sp → ∃ r k', execArgs d data l j sp k = .ok (r, k') ∧
      Stacked k0 P M top d k' ∧ ∀ sp' ∈ r, top ≤ sp' + 4096 ∧ sp' ≤ top ∧ sp' % 4 = 0 ∧
        j + l.length ≤ MAXARG ∧ cost (top / 4096) ≤ M) ∧
    (¬ Argue M top l j sp → (∃ e, execArgs d data l j sp k = .error e) ∨
      l = [] ∧ ¬ cost (top / 4096) ≤ M) := by
  have hk := kernbase_eq
  have hal := h.aligned
  have hlo := h.low
  have hhi : top < 2 ^ 31 := h.high
  induction l generalizing j sp k with
  | nil =>
    constructor
    · intro ha
      refine ⟨some sp, k, rfl, h, fun sp' e => ?_⟩
      obtain rfl := Option.some.inj e
      exact ⟨hlow, hhigh, h4, hj, ha⟩
    · intro ha
      exact .inr ⟨rfl, ha⟩
  | cons len l ih =>
    obtain ⟨hpos, hle⟩ := hargs len mem_cons_self
    unfold Argue execArgs
    by_cases hmax : j ≥ MAXARG
    · rw [if_pos hmax]
      exact ⟨fun _ => ⟨none, k, rfl, h, by simp⟩, fun e => absurd (.inl hmax) e⟩
    rw [if_neg hmax, Nat.mod_eq_of_lt (by omega : len < 2 ^ 32)]
    obtain ⟨sp', hsp⟩ : ∃ sp', sp' = u32 (sp + 2 ^ 32 - len) / 4 * 4 := ⟨_, rfl⟩
    rw [← hsp]
    dsimp only
    have hwhere : sp' + len ≤ sp ∧ sp < sp' + len + 4 ∧ sp' < top ∨ 2 ^ 31 ≤ sp' ∧ sp' < 2 ^ 32 := by
      unfold u32 at hsp
      omega
    rcases hwhere with ⟨he1, he2, hlt⟩ | ⟨hge, hlt⟩
    · rw [if_pos hlt]
      by_cases hguard : sp' + 4096 < top
      · obtain ⟨k1, e1⟩ := h.guarded (data j) sp' hpos hguard (by omega)
        rw [e1, ok_bind]
        exact ⟨fun _ => ⟨none, k1, rfl, h.after e1, by simp⟩, fun e => absurd (.inr (.inl hguard)) e⟩
      by_cases hc : cost (top / 4096) ≤ M
      · obtain ⟨k1, e1⟩ := h.last (data j) sp' hc hpos (by omega) (by omega)
        obtain ⟨ih1, ih2⟩ := ih (h.after e1) (fun len hm => hargs len (mem_cons_of_mem _ hm))
          (by omega : j + 1 ≤ MAXARG) (by omega : top ≤ sp' + 4096) (by omega) (by omega)
        rw [e1, ok_bind]
        constructor
        · intro ha
          obtain ⟨r, k2, e2, hs, hr⟩ := ih1 ((ha.resolve_left (by omega)).resolve_left hguard).2
          refine ⟨r, k2, e2, hs, fun sp'' hsp'' => ?_⟩
          obtain ⟨r1, r2, r3, r4, r5⟩ := hr sp'' hsp''
          exact ⟨r1, r2, r3, by rw [length_cons]; omega, r5⟩
        · intro ha
          rcases ih2 (fun ha' => ha (.inr (.inr ⟨hc, ha'⟩))) with ⟨e, he⟩ | ⟨_, hnc⟩
          · exact .inl ⟨e, he⟩
          · exact absurd hc hnc
      · rw [h.lost (data j) sp' hc hpos (by omega) (by omega)]
        refine ⟨fun ha => ?_, fun _ => .inl ⟨_, rfl⟩⟩
        rcases ha with ha | ha | ha
        · exact absurd ha hmax
        · exact absurd ha hguard
        · exact absurd ha.1 hc
    · rw [if_neg (by omega)]
      obtain ⟨hs1, hs2⟩ := h.kernel (data j) sp' hpos hge hlt
      by_cases ht : sp' / 4096 / 1024 ∈ kernTables
      · obtain ⟨k1, e1⟩ := hs1 ht
        rw [e1, ok_bind]
        exact ⟨fun _ => ⟨none, k1, rfl, h.after e1, by simp⟩, fun e => absurd (.inr ht) e⟩
      · rw [hs2 ht]
        refine ⟨fun ha => ?_, fun _ => .inl ⟨_, rfl⟩⟩
        rcases ha with ha | ha
        · exact absurd ha hmax
        · exact absurd ha ht

variable {args : List ℕ}

theorem execPush_stacked {top : ℕ} (h : Stacked k0 P M top d k) (data : ℕ → ℕ → (ℕ → ℕ) → (ℕ → ℕ))
    (hargs : ∀ len ∈ args, 0 < len ∧ len ≤ KERNBASE) :
    (Argue M top args 0 top → ∃ r k', execPush d data args top k = .ok (r, k') ∧
      Saved k0 k' d P ∧ ∀ sz ∈ r, sz = top) ∧
    (¬ Argue M top args 0 top → ∃ e, execPush d data args top k = .error e) := by
  have hmax : MAXARG = 32 := rfl
  have hal := h.aligned
  have hlo := h.low
  obtain ⟨h1, h2⟩ := execArgs_stacked h data hargs (Nat.zero_le _) (by omega) (le_refl _)
    (by omega : top % 4 = 0)
  unfold execPush
  constructor
  · intro ha
    obtain ⟨r, k1, e1, hs, hr⟩ := h1 ha
    rw [e1, ok_bind]
    cases r with
    | none => exact ⟨none, k1, rfl, hs.saved, by simp⟩
    | some sp =>
      obtain ⟨g1, g2, g3, g4, g5⟩ := hr sp rfl
      have hva : u32 (sp + 2 ^ 32 - (3 + args.length + 1) * 4) = sp - (3 + args.length + 1) * 4 := by
        have : top < 2 ^ 31 := h.high
        unfold u32
        omega
      dsimp only
      rw [hva]
      by_cases hlast : top ≤ sp - (3 + args.length + 1) * 4 + 4096
      · obtain ⟨k2, e2⟩ := hs.last (data args.length) (sp - (3 + args.length + 1) * 4) g5
          (by omega : 0 < (3 + args.length + 1) * 4) hlast (by omega)
        rw [e2, ok_bind]
        refine ⟨some top, k2, rfl, (hs.after e2).saved, fun sz e => ?_⟩
        exact (Option.some.inj e).symm
      · obtain ⟨k2, e2⟩ := hs.guarded (data args.length) (sp - (3 + args.length + 1) * 4)
          (by omega : 0 < (3 + args.length + 1) * 4) (by omega) (by omega)
        rw [e2, ok_bind]
        exact ⟨none, k2, rfl, (hs.after e2).saved, by simp⟩
  · intro ha
    rcases h2 ha with ⟨e, he⟩ | ⟨rfl, hc⟩
    · rw [he]
      exact ⟨e, rfl⟩
    · have hva : u32 (top + 2 ^ 32 - (3 + 0 + 1) * 4) = top - 16 := by
        have : top < 2 ^ 31 := h.high
        unfold u32
        omega
      rw [execArgs, ok_bind]
      dsimp only
      rw [length_nil, hva, h.lost (data 0) (top - 16) hc (by decide) (by omega) (by omega)]
      exact ⟨_, rfl⟩

/-- The stack is there when the arguments are pushed, or memory does not go that far. -/
theorem execStack_push (h : Laid k0 k d (pages sz) M) (hsz : sz < KERNBASE) :
    (∀ top ∈ grow M (pgRoundUp sz) (u32 (pgRoundUp sz + 2 * PGSIZE)), 4096 * pages sz ≤ top ∧
      (∃ k', allocuvm k d (pgRoundUp sz) (u32 (pgRoundUp sz + 2 * PGSIZE)) = .ok (top, k')) ∧
      ∃ k', (∀ data args, execStack d data args sz k = execPush d data args top k') ∧
        Stacked k0 (∃ m < stackEnd sz, EndsAt M m) M top d k') ∧
    (grow M (pgRoundUp sz) (u32 (pgRoundUp sz + 2 * PGSIZE)) = none →
      ∃ k', (∀ data args, execStack d data args sz k = .ok (none, k')) ∧
        Saved k0 k' d (∃ m < stackEnd sz, EndsAt M m)) := by
  have hk : KERNBASE = 2147483648 := by decide
  have hround := pgRoundUp_pages hsz
  have hle := pages_user hsz.le
  unfold execStack stackEnd
  dsimp only
  rw [hround]
  generalize pages sz = s at *
  have hnew : u32 (4096 * s + 2 * PGSIZE) = 4096 * (s + 2) := by
    unfold u32 PGSIZE
    unfold userPages at hle
    omega
  rw [hnew]
  by_cases hlt : 4096 * (s + 2) < KERNBASE
  swap
  · rw [grow, if_pos (by omega), if_neg hlt]
    refine ⟨nofun, fun _ => ⟨k, fun data args => ?_, h.saved⟩⟩
    rw [allocuvm, if_pos (by omega)]
    rfl
  obtain ⟨r, k2, e2, hgo, hstop⟩ := Laid.allocuvm (by rwa [pages_mul]) (by omega : 4096 * s < KERNBASE) (4096 * (s + 2))
  have hmax : max (4096 * s) (4096 * (s + 2)) = 4096 * (s + 2) := by omega
  rw [if_pos hlt]
  refine ⟨fun top hgr => ?_, fun hgr => ?_⟩
  · obtain ⟨rfl, hz, htop, -, hb2⟩ := hgo top hgr
    obtain rfl := htop.trans hmax
    rw [pages_mul] at hb2
    obtain ⟨k3, e3, hst⟩ := clearpteu_stacked hb2 hlt
    have hguard : u32 (4096 * (s + 2) + 2 ^ 32 - 2 * PGSIZE) = 4096 * s := by
      unfold u32 PGSIZE
      omega
    refine ⟨by omega, ⟨k2, e2⟩, k3, fun data args => ?_, hst⟩
    rw [e2, ok_bind]
    dsimp only
    rw [if_neg hz, hguard, e3, ok_bind]
  · obtain ⟨rfl, hsaved⟩ := hstop hgr
    refine ⟨k2, fun data args => ?_, hsaved _ ?_⟩
    · rw [e2]
      rfl
    · rw [Asks, hmax, if_neg (by omega), pages_mul]

theorem execStack_laid (h : Laid k0 k d (pages sz) M) (hsz : sz < KERNBASE)
    (hargs : ∀ len ∈ args, 0 < len ∧ len ≤ KERNBASE) (data : ℕ → ℕ → (ℕ → ℕ) → (ℕ → ℕ)) :
    (StackPlan M sz args → ∃ r k', execStack d data args sz k = .ok (r, k') ∧
      Saved k0 k' d (∃ m < stackEnd sz, EndsAt M m) ∧ ∀ sz' ∈ r, 4096 * pages sz ≤ sz') ∧
    (¬ StackPlan M sz args → ∃ e, execStack d data args sz k = .error e) := by
  obtain ⟨hgo, hstop⟩ := execStack_push h hsz
  unfold StackPlan
  cases hgr : grow M (pgRoundUp sz) (u32 (pgRoundUp sz + 2 * PGSIZE)) with
  | none =>
    obtain ⟨k', hr, hsaved⟩ := hstop hgr
    exact ⟨fun _ => ⟨none, k', hr data args, hsaved, nofun⟩, fun hno => absurd nofun hno⟩
  | some top =>
    obtain ⟨hle, -, k', hr, hst⟩ := hgo top hgr
    obtain ⟨hpush1, hpush2⟩ := execPush_stacked hst data hargs
    rw [hr]
    constructor
    · intro ha
      obtain ⟨res, k4, e4, hsaved, htop⟩ := hpush1 (ha _ rfl)
      refine ⟨res, k4, e4, hsaved, fun sz' hsz' => ?_⟩
      rw [htop sz' hsz']
      exact hle
    · intro ha
      refine hpush2 fun ha' => ha fun top e => ?_
      rw [← Option.some.inj e]
      exact ha'

theorem execBuild_laid (h : Laid k0 k d 0 M) {l : List (Option Proghdr)}
    (hargs : ∀ len ∈ args, 0 < len ∧ len ≤ KERNBASE) (data : ℕ → ℕ → (ℕ → ℕ) → (ℕ → ℕ)) :
    (Planned M f l args →
      ∃ r k', execBuild k d ⟨l.map (Option.map (Proghdr.segment f)), args, data⟩ = .ok (r, k') ∧
        Saved k0 k' d (∃ m < wants f l 0, EndsAt M m) ∧ (∀ c ∈ execCopies d f l 0 k, c.Good k0.freelist) ∧
        ∀ sz ∈ r, ∀ c ∈ execCopies d f l 0 k, c.sz ≤ sz) ∧
    (¬ Planned M f l args →
      (∃ e, execBuild k d ⟨l.map (Option.map (Proghdr.segment f)), args, data⟩ = .error e) ∨
        ∃ c ∈ execCopies d f l 0 k, ¬ c.Good k0.freelist) := by
  have h1 := execLoad_laid (l := l) (f := f) h (by decide : 0 < KERNBASE)
  unfold Planned execBuild
  cases hp : loadPlan M f l 0 with
  | none =>
    rw [hp] at h1
    refine ⟨fun ⟨_, e, _⟩ => absurd e (by simp), fun _ => h1.imp (fun ⟨e, he⟩ => ⟨e, ?_⟩) id⟩
    rw [he]
    rfl
  | some r =>
    rw [hp] at h1
    obtain ⟨k1, e1, hload, hg1, hsz1⟩ := h1
    dsimp only
    rw [e1, ok_bind]
    cases r with
    | none => exact ⟨fun _ => ⟨none, k1, rfl, hload, hg1, nofun⟩, fun e => absurd ⟨none, rfl, nofun⟩ e⟩
    | some sz =>
      obtain ⟨hsz, hw, hb⟩ := hload
      obtain ⟨-, hc⟩ := hsz1 sz rfl
      obtain ⟨hs1, hs2⟩ := execStack_laid hb hsz hargs data
      constructor
      · rintro ⟨r, e, ha⟩
        obtain ⟨res, k2, e2, hsaved, htop⟩ := hs1 (ha sz (Option.some.inj e ▸ rfl))
        rw [hw]
        exact ⟨res, k2, e2, hsaved, hg1, fun sz' hsz' c hc' => le_trans (hc c hc') (htop sz' hsz')⟩
      · intro ha
        obtain ⟨e, he⟩ := hs2 fun ha' => ha ⟨some sz, rfl, fun sz' e => by
          rw [← Option.some.inj e]
          exact ha'⟩
        exact .inl ⟨e, he⟩

end

/-! ### `exec` -/

/-- `exec` of the file returns; it has copied the file to pages that were free only, below the new
size; and it has either succeeded or changed nothing of the process. -/
def Secure (k : Kernel) (p : Slot) (regs : Regs) (path : List UInt8) (f : File) (args : List Arg)
    (data : ℕ → ℕ → (ℕ → ℕ) → (ℕ → ℕ)) : Prop :=
  ∃ r k' regs', execFile k p regs path f args data = .ok (r, k', regs') ∧
    (r = 0 ∧ (∀ c ∈ f.copies k, 0 < c.len → c.va + c.len ≤ (k'.proc p).sz) ∨
      r = -1 ∧ k'.proc p = k.proc p ∧ regs' = regs) ∧
    ∀ c ∈ f.copies k, c.Good k.freelist

section
variable {k : Kernel} {own : ℕ → Role} {p : Slot} {f : File} {args : List Arg}

theorem Wf.freePages (h : Wf k own) : FreePages k := by
  refine ⟨h.nodup, fun v hv => h.page v ?_⟩
  rw [(h.free v).mp hv]
  nofun

variable {d : ℕ}

/-- A directory stays one while other pages are written. -/
theorem Tabled.congr {k' : Kernel} (h : Tabled k d) (hmem : ∀ v, InSpace k d v → k'.mem v = k.mem v)
    (hfree : ∀ v ∈ k'.freelist, v ∈ k.freelist) : Tabled k' d := by
  obtain ⟨hent, -⟩ := InSpace.congr hmem
  have hpde : ∀ m, k'.pde d m = k.pde d m := pde_congr (hmem d (.inl rfl))
  have hno : ∀ v, NoTable k' d v ↔ NoTable k d v := fun v => by
    unfold NoTable
    simp only [hpde]
  refine ⟨(hno d).mpr h.self, ?_, fun v hv => ?_, ?_⟩
  · simp only [hpde]
    exact h.apart
  · rw [hno]
    exact h.free v (hfree v hv)
  · simp only [hent, hno]
    exact h.user

/-- `freevm` of a directory returns, and writes nothing but what it frees. -/
theorem Tabled.freevm (h : Tabled k d) (hd : Page d)
    (htab : ∀ x < 1024, Present (k.mem d x) → Page (frame (k.mem d x))) :
    ∃ k', Vm.freevm k d = .ok k' ∧ ∀ u, ¬ InSpace k d u → k'.mem u = k.mem u := by
  obtain ⟨k1, e1, hc⟩ := deallocuvm_cleared h (by decide : 0 < KERNBASE) (le_refl _)
  obtain ⟨l, k2, e2, -, hl, -, hmem⟩ := tablesTrace_spec (n := NPDENTRIES)
    (fun x hx hp => ⟨htab x hx hp, noTable_iff.mp h.self x hx hp⟩) hc.dir (by decide : 0 + 1024 ≤ 1024)
  have e2 : freeTables d NPDENTRIES 0 k1 = .ok k2 := by
    rw [← tablesTrace_erase, e2]
    rfl
  have hd0 : d ≠ 0 := by
    have := hd.ge
    omega
  refine ⟨k2.freed d, ?_, fun u hu => ?_⟩
  · rw [Vm.freevm, if_neg hd0, e1, ok_bind]
    dsimp only
    rw [e2, ok_bind, kfree_page hd]
  · have hne : u ≠ d := fun e => hu (.inl e)
    rw [k2.freed_mem_of_ne hne, hmem u fun hin => ?_]
    · refine hc.mem u hne (noTable_iff.mpr fun x hx hp e => hu (.inr (.inl ⟨x, hx, hp, e⟩))) fun m hm hpr e => ?_
      exact hu (.inr (.inr ⟨m, (visits_ge hm).2, hpr, e⟩))
    · rw [hl, mem_map] at hin
      obtain ⟨x, hx, e⟩ := hin
      rw [mem_filter, mem_range'_1] at hx
      exact hu (.inr (.inl ⟨x, by unfold NPDENTRIES at hx; omega, of_decide_eq_true hx.2, e⟩))

/-- When `exec` has built the new space, the old directory is still there to be freed. -/
theorem Held.freeOld {k2 : Kernel} {S : ℕ → Prop} (hS : Held k k2 d S) (h : Inv k own) (hp : k.live p) (sz : ℕ) :
    ∃ k', Vm.freevm (k2.setProc p fun q => { q with pgdir := d, sz := sz }) (k.dirOf p) = .ok k' ∧
      ∀ v ∈ k.freelist, k'.mem v = k2.mem v := by
  have hold := h.wf.apart (h.dir p hp)
  have hspace : ∀ v, InSpace k (k.dirOf p) v → k2.mem v = k.mem v := fun v hv => hS.mem v (hold.not_free hv)
  have hdir : k2.mem (k.dirOf p) = k.mem (k.dirOf p) := hspace _ (.inl rfl)
  have htab : Tabled (k2.setProc p fun q => { q with pgdir := d, sz := sz }) (k.dirOf p) :=
    hold.toTabled.congr hspace fun v hv => hS.sub v ((hS.account v).mp (.inl hv))
  obtain ⟨k', e, hmem⟩ := htab.freevm (h.wf.page _ (by rw [h.dir p hp]; nofun)) fun x hx hpx => by
    rw [Kernel.setProc_mem, hdir] at hpx ⊢
    exact h.wf.page _ (by rw [h.wf.tab _ x (h.dir p hp) hx hpx]; nofun)
  refine ⟨k', e, fun v hv => hmem v fun hin => hold.not_free (((InSpace.congr ?_).2 v).mp hin) hv⟩
  exact hspace

theorem arg_bounds (args : List Arg) : ∀ len ∈ args.map Arg.len, 0 < len ∧ len ≤ KERNBASE := by
  intro len hlen
  obtain ⟨a, _, rfl⟩ := mem_map.mp hlen
  exact ⟨a.pos, a.le⟩

/-- What `exec` makes of a file with an ELF header, from the new directory on. -/
theorem File.exec_eq (p : Slot) (args : List Arg) (data : ℕ → ℕ → (ℕ → ℕ) → (ℕ → ℕ)) {elf : Elfhdr}
    {k1 : Kernel} (helf : f.elfhdr = some elf) (e1 : setupkvm k = .ok (some d, k1)) :
    exec k p (f.image args data) = (do
      match ← execBuild k1 d ⟨(f.proghdrs elf.phnum elf.phoff).map (Option.map (Proghdr.segment f)),
        args.map Arg.len, data⟩ with
      | (none, k) => do
        let k ← freevm k d
        .ok (-1, k)
      | (some sz, k) => do
        let k ← freevm (k.setProc p fun q => { q with pgdir := d, sz := sz }) (k.proc p).pgdir
        .ok (0, k)) ∧
      f.copies k = execCopies d f (f.proghdrs elf.phnum elf.phoff) 0 k1 := by
  constructor
  · rw [File.image, helf, Option.map_some, exec, e1]
    rfl
  · rw [File.copies, helf, e1]

theorem exec_secure (h : Inv k own) (hp : k.live p) (hs : f.Safe args k.freelist.length) (regs : Regs)
    (path : List UInt8) (data : ℕ → ℕ → (ℕ → ℕ) → (ℕ → ℕ)) : Secure k p regs path f args data := by
  have hfail : ∀ k', MemOnly k k' → exec k p (f.image args data) = .ok (-1, k') →
      (∀ c ∈ f.copies k, c.Good k.freelist) → Secure k p regs path f args data := by
    intro k' hm e hg
    refine ⟨-1, k', regs, ?_, .inr ⟨rfl, by rw [hm.proc], rfl⟩, hg⟩
    rw [execFile, e]
    rfl
  cases helf : f.elfhdr with
  | none =>
    refine hfail k (.refl k) ?_ ?_
    · rw [File.image, helf]
      rfl
    · rw [File.copies, helf]
      simp
  | some elf =>
    obtain ⟨hfree, d, k1, e1, hk⟩ | ⟨-, k1, e1, -, -⟩ := setupkvm_cases h.wf.freePages
    swap
    · refine hfail k1 (setupkvm_memOnly.ok e1) ?_ ?_
      · rw [File.image, helf, Option.map_some, exec, e1]
        rfl
      · rw [File.copies, helf, e1]
        simp
    obtain ⟨hexec, hcop⟩ := File.exec_eq p args data helf e1
    obtain ⟨r, k2, e2, ⟨S, hS, -⟩, hg2, hsz2⟩ :=
      (execBuild_laid (hk.laid h.wf.freePages) (arg_bounds args) data).1 (hs elf helf hfree)
    rw [← hcop] at hg2 hsz2
    rw [e2, ok_bind] at hexec
    have hm2 := (setupkvm_memOnly.ok e1).trans (execBuild_memOnly.ok e2)
    cases r with
    | none =>
      obtain ⟨k3, e3, -⟩ := hS.freevm
      refine hfail k3 (hm2.trans (freevm_memOnly.ok e3)) ?_ hg2
      rw [hexec]
      dsimp only
      rw [e3]
      rfl
    | some sz =>
      obtain ⟨k4, e4, -⟩ := hS.freeOld h hp sz
      have hpg : (k2.proc p).pgdir = k.dirOf p := by rw [hm2.proc]
      have hexec : exec k p (f.image args data) = .ok (0, k4) := by
        rw [hexec]
        dsimp only
        rw [hpg, e4]
        rfl
      refine ⟨0, k4, _, by rw [execFile, hexec]; rfl, .inl ⟨rfl, fun c hc hlen => ?_⟩, hg2⟩
      have hsz4 : (k4.proc p).sz = sz := by
        rw [(freevm_memOnly.ok e4).proc, Kernel.setProc_proc, update_self]
      rw [hsz4]
      exact le_trans (hg2 c hc hlen).2 (hsz2 sz rfl c hc)

/-- A file that is not safe makes `exec` fail, or is copied elsewhere. -/
theorem exec_unsafe (h : FreePages k) (hs : ¬ f.Safe args k.freelist.length) (data : ℕ → ℕ → (ℕ → ℕ) → (ℕ → ℕ)) :
    (∃ e, exec k p (f.image args data) = .error e) ∨ ∃ c ∈ f.copies k, ¬ c.Good k.freelist := by
  unfold File.Safe at hs
  push Not at hs
  obtain ⟨elf, helf, hfree, hs⟩ := hs
  obtain ⟨-, d, k1, e1, hk⟩ | ⟨hlt, -⟩ := setupkvm_cases h
  · obtain ⟨hexec, hcop⟩ := File.exec_eq p args data helf e1
    rw [hexec, hcop]
    obtain ⟨e3, he3⟩ | hbad := (execBuild_laid (hk.laid h) (arg_bounds args) data).2 hs
    · rw [he3]
      exact .inl ⟨e3, rfl⟩
    · exact .inr hbad
  · omega

theorem exec_insecure (h : Inv k own) (hs : ¬ f.Safe args k.freelist.length) (regs : Regs)
    (path : List UInt8) (data : ℕ → ℕ → (ℕ → ℕ) → (ℕ → ℕ)) : ¬ Secure k p regs path f args data := by
  rintro ⟨r', k', regs', hr, -, hgood⟩
  obtain ⟨⟨r₂, k2⟩, e2, -⟩ := bind_ok hr
  obtain ⟨e, he⟩ | ⟨c, hc, hbad⟩ := exec_unsafe (p := p) h.wf.freePages hs data
  · cases e2.symm.trans he
  · exact hbad (hgood c hc)

/-- **`exec` on an untrusted file** is secure exactly if the headers, the arguments and the free
memory are such that it can be. -/
theorem exec_untrusted (h : Inv k own) (hp : k.live p) (regs : Regs) (path : List UInt8)
    (data : ℕ → ℕ → (ℕ → ℕ) → (ℕ → ℕ)) :
    Secure k p regs path f args data ↔ f.Safe args k.freelist.length := by
  constructor
  · intro hsec
    by_contra hs
    exact exec_insecure h hs regs path data hsec
  · intro hs
    exact exec_secure h hp hs regs path data

end

/-- An executable of 100 bytes with one program header, whose contents are the last 16. -/
def program (vaddr memsz : ℕ) : File :=
  [0x7f, 0x45, 0x4c, 0x46] ++ replicate 24 0 ++ [52, 0, 0, 0] ++ replicate 12 0 ++ [1, 0] ++
    replicate 6 0 ++ [1, 0, 0, 0, 84, 0, 0, 0] ++ (range 4).map (Bytes.le vaddr) ++
    [0, 0, 0, 0, 16, 0, 0, 0] ++ (range 4).map (Bytes.le memsz) ++ replicate 8 0 ++
    replicate 16 0x90

theorem program_safe_iff (args : List Arg) :
    (program 0 5000).Safe args boot.freelist.length ↔ Argue 56781 16384 (args.map Arg.len) 0 16384 := by
  have he : (program 0 5000).elfhdr = some ⟨0, 52, 1⟩ := by decide +kernel
  have hp : loadPlan 56781 (program 0 5000) ((program 0 5000).proghdrs 1 52) 0 = some (some 5000) := by decide +kernel
  have hg : grow 56781 (pgRoundUp 5000) (u32 (pgRoundUp 5000 + 2 * PGSIZE)) = some 16384 := by decide +kernel
  rw [boot_freelist_length]
  constructor
  · intro hs
    obtain ⟨r, hr, hstack⟩ := hs _ he (by decide)
    obtain rfl := Option.some.inj (hp.symm.trans hr)
    exact hstack 5000 rfl 16384 hg
  · intro ha elf helf _
    obtain rfl := Option.some.inj (he.symm.trans helf)
    refine ⟨_, hp, fun sz hsz top htop => ?_⟩
    obtain rfl := Option.some.inj hsz
    obtain rfl := Option.some.inj (hg.symm.trans htop)
    exact ha

/-- It is loaded at address 0, with its stack above. -/
theorem exec_untrusted_program :
    boot.live initproc ∧ Secure boot initproc ⟨[], 0, 0⟩ [] (program 0 5000) [] fun _ _ m => m := by
  have hsafe := (program_safe_iff []).mpr (show cost (16384 / 4096) ≤ 56781 by decide)
  exact ⟨by decide, (exec_untrusted inv_boot (by decide) _ _ _).mpr hsafe⟩

/-- A program header that is not page aligned makes `exec` panic. -/
theorem exec_unaligned : ¬ Secure boot initproc ⟨[], 0, 0⟩ [] (program 1 5000) [] fun _ _ m => m := by
  apply exec_insecure inv_boot
  intro hsafe
  have he : (program 1 5000).elfhdr = some ⟨0, 52, 1⟩ := by decide +kernel
  have hplan := hsafe _ he (by rw [boot_freelist_length]; decide)
  rw [boot_freelist_length] at hplan
  obtain ⟨r, hr, _⟩ := hplan
  have hnone : loadPlan 56781 (program 1 5000) ((program 1 5000).proghdrs 1 52) 0 = none := by
    decide +kernel
  cases hnone.symm.trans hr

end Xv6.Vm
