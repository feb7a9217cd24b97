import Xv6.Vm.Space
import Xv6.Vm.System

/-! # `setupkvm` table by table

`setupkvm` enters 65,546 pages one by one. What it leaves can be said table by table: a page from the
free list becomes the next table of the directory, and the rows of the table are in order (`kernelSpace`).
With this the system can be run through `fork` (`reaches_of_run`). -/

namespace Xv6.Vm

open Runs Fallible Function Option

/-- A table in which the rows from `i` on, `n` of them, map the pages from address `pa` on. -/
def fillRow (row : ℕ → ℕ) (i n pa perm : ℕ) : ℕ → ℕ := fun j =>
  if i ≤ j ∧ j < i + n then u32 (pa + 4096 * (j - i)) ||| (perm ||| PTE_P) else row j

/-- The page may be a table of directory `d` for `PDX` `x`. -/
def FitsTable (k : Kernel) (d x t : ℕ) : Prop := d ≠ t ∧ Page t ∧ ¬ Present (k.mem d x)
deriving Decidable

/-- `c` full tables from `PDX` `x` on. -/
def fillTables (d perm : ℕ) : ℕ → ℕ → ℕ → Kernel → Option Kernel
  | 0, _, _, k => some k
  | c + 1, x, pa, k =>
    match k.freelist with
    | [] => none
    | t :: l =>
      if FitsTable k d x t then
        fillTables d perm c (x + 1) (u32 (pa + 4096 * 1024))
          ((k.withTable d x t l).setPage t (fillRow (fun _ => 0) 0 1024 pa perm))
      else none

/-- The new directory, with the kernel half. -/
def kernelSpace (k : Kernel) : Option (ℕ × Kernel) :=
  match k.freelist with
  | d :: t :: l =>
    let k0 := ({ k with freelist := t :: l } : Kernel).setPage d fun _ => 0
    if FitsTable k0 d 512 t then do
      let row := fillRow (fillRow (fillRow (fun _ => 0) 0 256 0 PTE_W) 256 10 0x100000 0) 266 758 0x10a000 PTE_W
      let k ← fillTables d PTE_W 55 513 0x400000 ((k0.withTable d 512 t l).setPage t row)
      let k ← fillTables d PTE_W 8 1016 DEVSPACE k
      some (d, k)
    else none
  | _ => none

section
variable {k k' : Kernel} {d t x i n : ℕ}

/-! ### One table -/

theorem pdx_page (m : ℕ) : pdx (u32 (4096 * m)) = m / 1024 % 1024 := by
  unfold pdx u32
  omega

theorem ptx_page (m : ℕ) : ptx (u32 (4096 * m)) = m % 1024 := by
  unfold ptx u32
  omega

theorem u32_lt (m : ℕ) : u32 m < 2 ^ 32 := Nat.mod_lt m (by decide)

theorem u32_page_succ (m : ℕ) : u32 (u32 (4096 * m) + PGSIZE) = u32 (4096 * (m + 1)) := by
  unfold u32 PGSIZE
  omega

theorem fillRow_zero (row : ℕ → ℕ) (pa perm : ℕ) : fillRow row i 0 pa perm = row := by
  funext j
  exact if_neg (by omega)

variable {pa perm : ℕ}

theorem fillRow_succ (row : ℕ → ℕ) (perm : ℕ) (hpa : pa < 2 ^ 32) :
    fillRow (update row i (pa ||| (perm ||| PTE_P))) (i + 1) n (u32 (pa + PGSIZE)) perm =
      fillRow row i (n + 1) pa perm := by
  funext j
  unfold fillRow
  by_cases hj : j = i
  · subst hj
    have hself : u32 (pa + 4096 * (j - j)) = pa := by
      unfold u32
      omega
    rw [if_neg (by omega), if_pos (by omega), update_self, hself]
  · by_cases hin : i + 1 ≤ j ∧ j < i + 1 + n
    · rw [if_pos hin, if_pos (by omega), u32_next_page pa hin.1]
    · rw [if_neg hin, if_neg (by omega), update_of_ne hj]

theorem walkpgdir_row (hx : x < 1024) (hi : i < 1024) (hpde : Present (k.mem d x)) (ht : frame (k.mem d x) = t) :
    walkpgdir k d (u32 (4096 * (1024 * x + i))) true = (some (t, i), k) := by
  have hrow : (1024 * x + i) / 1024 % 1024 = x := by omega
  have hcol : (1024 * x + i) % 1024 = i := by omega
  unfold walkpgdir
  dsimp only
  rw [pdx_page, ptx_page, hrow, hcol, frame_eq, ht]
  exact if_pos ((present_and _).mpr hpde)

theorem mapLoop_row (perm r : ℕ) (hx : x < 1024) (hi : i + n ≤ 1024)
    (hpa : pa < 2 ^ 32) (hdt : d ≠ t) (hpde : Present (k.mem d x)) (ht : frame (k.mem d x) = t)
    (hnew : ∀ j, i ≤ j → j < i + n → ¬ Present (k.mem t j)) :
    mapLoop d perm (n + r) (u32 (4096 * (1024 * x + i))) pa k =
      mapLoop d perm r (u32 (4096 * (1024 * x + i + n))) (u32 (pa + 4096 * n))
        (k.setPage t (fillRow (k.mem t) i n pa perm)) := by
  induction n generalizing i pa k with
  | zero =>
    have hsame : k.setPage t (k.mem t) = k := by
      unfold Kernel.setPage
      rw [update_eq_self]
    have hpa' : u32 (pa + 4096 * 0) = pa := by
      unfold u32
      omega
    rw [fillRow_zero, hsame, hpa', Nat.zero_add, Nat.add_zero]
  | succ n ih =>
    have hfree : ¬ (k.mem t i &&& PTE_P ≠ 0) := mt (present_and _).mp (hnew i (le_refl i) (by omega))
    have hdir : (k.store t i (pa ||| (perm ||| PTE_P))).mem d = k.mem d := by
      rw [Kernel.store_mem, update_of_ne hdt]
    have htab : (k.store t i (pa ||| (perm ||| PTE_P))).mem t =
        update (k.mem t) i (pa ||| (perm ||| PTE_P)) := by
      rw [Kernel.store_mem, update_self]
    rw [show n + 1 + r = (n + r) + 1 by omega, mapLoop,
      walkpgdir_row hx (by omega) hpde ht]
    dsimp only
    rw [if_neg hfree, u32_page_succ, show 1024 * x + i + 1 = 1024 * x + (i + 1) by omega,
      ih (by omega) (u32_lt _) (by rw [hdir]; exact hpde) (by rw [hdir]; exact ht)
        fun j hj hj' => by
          rw [htab, update_of_ne (by omega)]
          exact hnew j (by omega) (by omega)]
    have hpage : (k.store t i (pa ||| (perm ||| PTE_P))).setPage t
        (fillRow ((k.store t i (pa ||| (perm ||| PTE_P))).mem t) (i + 1) n (u32 (pa + PGSIZE)) perm) =
        k.setPage t (fillRow (k.mem t) i (n + 1) pa perm) := by
      rw [htab, fillRow_succ _ _ hpa]
      unfold Kernel.setPage Kernel.store
      rw [update_idem]
    have hnext : u32 (u32 (pa + PGSIZE) + 4096 * n) = u32 (pa + 4096 * (n + 1)) := by
      unfold u32 PGSIZE
      omega
    rw [hpage, hnext, show 1024 * x + (i + 1) + n = 1024 * x + i + (n + 1) by omega]

variable {l : List ℕ}

theorem withTable_dir (hf : FitsTable k d x t) :
    Present ((k.withTable d x t l).mem d x) ∧ frame ((k.withTable d x t l).mem d x) = t := by
  have hmem : (k.withTable d x t l).mem d x = v2p t ||| (PTE_P ||| PTE_W ||| PTE_U) := by
    rw [Kernel.withTable, Kernel.store_mem, update_self, update_self]
  rw [hmem]
  exact ⟨hf.2.1.present_or (by decide) (by decide), hf.2.1.frame_or (by decide)⟩

theorem withTable_table (hdt : d ≠ t) : (k.withTable d x t l).mem t = fun _ => 0 := by
  rw [Kernel.withTable, Kernel.store_mem, update_of_ne hdt.symm]
  exact update_self _ _ _

/-- The first row of a table that does not exist yet. -/
theorem mapLoop_table (perm pa n : ℕ) (hx : x < 1024) (hi : i < 1024) (hl : k.freelist = t :: l)
    (hf : FitsTable k d x t) :
    mapLoop d perm (n + 1) (u32 (4096 * (1024 * x + i))) pa k =
      mapLoop d perm (n + 1) (u32 (4096 * (1024 * x + i))) pa (k.withTable d x t l) := by
  have hrow : (1024 * x + i) / 1024 % 1024 = x := by omega
  have hcol : (1024 * x + i) % 1024 = i := by omega
  obtain ⟨hpde, ht⟩ := withTable_dir hf (l := l)
  have hold : walkpgdir k d (u32 (4096 * (1024 * x + i))) true = (some (t, i), k.withTable d x t l) := by
    unfold walkpgdir
    rw [pdx_page, ptx_page, hrow, hcol]
    dsimp only
    rw [if_neg (mt (present_and _).mp hf.2.2), if_neg (by decide), kalloc, hl]
    rfl
  rw [mapLoop, mapLoop, hold, walkpgdir_row hx hi hpde ht]

/-! ### Full tables -/

theorem mapLoop_tables (r : ℕ) {c : ℕ} (hx : x + c ≤ 1024) (hpa : pa < 2 ^ 32)
    (hr : fillTables d perm c x pa k = some k') :
    mapLoop d perm (1024 * c + r) (u32 (4096 * (1024 * x))) pa k =
      mapLoop d perm r (u32 (4096 * (1024 * (x + c)))) (u32 (pa + 4096 * (1024 * c))) k' := by
  induction c generalizing x pa k with
  | zero =>
    obtain rfl := some.inj hr
    have hpa' : u32 (pa + 4096 * (1024 * 0)) = pa := by
      unfold u32
      omega
    rw [hpa', Nat.mul_zero, Nat.zero_add, Nat.add_zero]
  | succ c ih =>
    unfold fillTables at hr
    split at hr
    · cases hr
    · rename_i t l hl
      split_ifs at hr with hf
      obtain ⟨hpde, ht⟩ := withTable_dir hf (l := l)
      have hzero := withTable_table (k := k) (x := x) (l := l) hf.1
      have hfirst := mapLoop_table perm pa (1023 + (1024 * c + r)) (i := 0) (by omega) (by decide) hl hf
      have hrows := mapLoop_row perm (1024 * c + r) (n := 1024) (i := 0) (by omega) (by decide) hpa hf.1 hpde
        ht fun j _ _ => by
          rw [hzero]
          exact not_present_zero
      rw [hzero] at hrows
      have hnext : u32 (u32 (pa + 4096 * 1024) + 4096 * (1024 * c)) = u32 (pa + 4096 * (1024 * (c + 1))) := by
        unfold u32
        omega
      rw [show 1024 * (c + 1) + r = 1023 + (1024 * c + r) + 1 by omega, ← Nat.add_zero (1024 * x), hfirst,
        show 1023 + (1024 * c + r) + 1 = 1024 + (1024 * c + r) by omega, hrows,
        show 1024 * x + 0 + 1024 = 1024 * (x + 1) by omega, ih (by omega) (u32_lt _) hr, hnext,
        show x + 1 + c = x + (c + 1) by omega]

/-! ### The kernel half -/

/-- Rows of a table that has been filled up to there. -/
theorem mapLoop_rows (perm r : ℕ) {row : ℕ → ℕ} (hx : x < 1024) (hi : i + n ≤ 1024)
    (hpa : pa < 2 ^ 32) (hdt : d ≠ t) (hpde : Present (k.mem d x)) (ht : frame (k.mem d x) = t)
    (hnew : ∀ j, i ≤ j → row j = 0) :
    mapLoop d perm (n + r) (u32 (4096 * (1024 * x + i))) pa (k.setPage t row) =
      mapLoop d perm r (u32 (4096 * (1024 * x + i + n))) (u32 (pa + 4096 * n))
        (k.setPage t (fillRow row i n pa perm)) := by
  have hdir : (k.setPage t row).mem d = k.mem d := by
    rw [Kernel.setPage_mem, update_of_ne hdt]
  have htab : (k.setPage t row).mem t = row := by
    rw [Kernel.setPage_mem, update_self]
  have hrow := mapLoop_row perm r (k := k.setPage t row) hx hi hpa hdt (by rw [hdir]; exact hpde)
    (by rw [hdir]; exact ht) fun j hj _ => by
      rw [htab, hnew j hj]
      exact not_present_zero
  have hpage : (k.setPage t row).setPage t (fillRow row i n pa perm) = k.setPage t (fillRow row i n pa perm) := by
    unfold Kernel.setPage
    rw [update_idem]
  rw [hrow, htab, hpage]

theorem fillRow_above (row : ℕ → ℕ) (pa perm : ℕ) (hrow : ∀ j, i ≤ j → row j = 0) {j : ℕ} (hj : i + n ≤ j) :
    fillRow row i n pa perm j = 0 := by
  unfold fillRow
  rw [if_neg (by omega)]
  exact hrow j (by omega)

theorem mappages_eq {va size : ℕ} (n : ℕ) (ha : va % 4096 = 0)
    (hn : u32 (pgRoundDown (u32 (va + size + 2 ^ 32 - 1)) + 2 ^ 32 - va) / PGSIZE + 1 = n) :
    mappages k d va size pa perm = mapLoop d perm n va pa k := by
  have hdown : pgRoundDown va = va := by
    unfold pgRoundDown PGSIZE
    omega
  unfold mappages
  dsimp only
  rw [hdown, hn]

theorem kmapLoop_cons {virt lo hi : ℕ} {l : List (ℕ × ℕ × ℕ × ℕ)}
    (hm : mappages k d virt (u32 (hi + 2 ^ 32 - lo)) lo perm = .ok (true, k')) :
    kmapLoop d ((virt, lo, hi, perm) :: l) k = kmapLoop d l k' := by
  rw [kmapLoop, hm]
  rfl

/-- **`setupkvm` table by table.** -/
theorem setupkvm_of_kernelSpace (hr : kernelSpace k = some (d, k')) : setupkvm k = .ok (some d, k') := by
  unfold kernelSpace at hr
  split at hr
  · rename_i d' t l hl
    dsimp only at hr
    split_ifs at hr with hf
    obtain ⟨k1, h1, hr⟩ := bind_eq_some_iff.mp hr
    obtain ⟨k2, h2, hr⟩ := bind_eq_some_iff.mp hr
    obtain ⟨rfl, rfl⟩ := Prod.mk.inj (some.inj hr)
    set k0 : Kernel := ({ k with freelist := t :: l } : Kernel).setPage d' fun _ => 0 with hk0
    set k3 := k0.withTable d' 512 t l with hk3
    obtain ⟨hpde, ht⟩ := withTable_dir hf (l := l)
    have hzero := withTable_table (k := k0) (x := 512) (l := l) hf.1
    have hstart : k3.setPage t (fun _ => 0) = k3 := by
      unfold Kernel.setPage
      rw [← hzero, update_eq_self]
    have hrow0 : ∀ j, 0 ≤ j → (fun _ : ℕ => 0) j = 0 := fun _ _ => rfl
    have hrow1 : ∀ j, 256 ≤ j → fillRow (fun _ => 0) 0 256 0 PTE_W j = 0 :=
      fun j hj => fillRow_above _ _ _ hrow0 (by omega)
    have hrow2 : ∀ j, 266 ≤ j → fillRow (fillRow (fun _ => 0) 0 256 0 PTE_W) 256 10 0x100000 0 j = 0 :=
      fun j hj => fillRow_above _ _ _ hrow1 (by omega)
    have e1 : mappages k0 d' KERNBASE (u32 (EXTMEM + 2 ^ 32 - 0)) 0 PTE_W =
        .ok (true, k3.setPage t (fillRow (fun _ => 0) 0 256 0 PTE_W)) := by
      rw [mappages_eq 256 (by decide) (by decide)]
      have hfirst := mapLoop_table PTE_W 0 255 (k := k0) (i := 0) (by decide) (by decide) rfl hf
      have hrows := mapLoop_rows PTE_W 0 (n := 256) (i := 0) (by decide) (by decide) (by decide : 0 < 2 ^ 32)
        hf.1 hpde ht hrow0
      rw [hstart] at hrows
      exact hfirst.trans hrows
    have e2 : mappages (k3.setPage t (fillRow (fun _ => 0) 0 256 0 PTE_W)) d' KERNLINK
        (u32 (v2p dataAddr + 2 ^ 32 - v2p KERNLINK)) (v2p KERNLINK) 0 =
        .ok (true, k3.setPage t (fillRow (fillRow (fun _ => 0) 0 256 0 PTE_W) 256 10 0x100000 0)) := by
      have hrows := mapLoop_rows 0 0 (n := 10) (i := 256) (by decide) (by decide)
        (by decide : 0x100000 < 2 ^ 32) hf.1 hpde ht hrow1
      rw [mappages_eq 10 (by decide) (by decide)]
      exact hrows
    have e3 : mappages (k3.setPage t (fillRow (fillRow (fun _ => 0) 0 256 0 PTE_W) 256 10 0x100000 0)) d' dataAddr
        (u32 (PHYSTOP + 2 ^ 32 - v2p dataAddr)) (v2p dataAddr) PTE_W = .ok (true, k1) := by
      have hrows := mapLoop_rows PTE_W (1024 * 55 + 0) (n := 758) (i := 266) (by decide) (by decide)
        (by decide : 0x10a000 < 2 ^ 32) hf.1 hpde ht hrow2
      rw [show 1024 * 512 + 266 + 758 = 1024 * 513 by decide, show u32 (0x10a000 + 4096 * 758) = 0x400000 by decide,
        mapLoop_tables 0 (by decide) (by decide) h1, show 758 + (1024 * 55 + 0) = 57078 by decide,
        show u32 (4096 * (1024 * 512 + 266)) = dataAddr by decide] at hrows
      rw [mappages_eq 57078 (by decide) (by decide), show v2p dataAddr = 0x10a000 by decide, hrows]
      rfl
    have e4 : mappages k1 d' DEVSPACE (u32 (0 + 2 ^ 32 - DEVSPACE)) DEVSPACE PTE_W = .ok (true, k2) := by
      rw [mappages_eq (1024 * 8 + 0) (by decide) (by decide)]
      exact mapLoop_tables 0 (by decide) (by decide) h2
    have hkmap : kmapLoop d' kmap k0 = .ok (true, k2) := by
      unfold kmap
      rw [kmapLoop_cons e1, kmapLoop_cons e2, kmapLoop_cons e3, kmapLoop_cons e4]
      rfl
    unfold setupkvm kalloc
    rw [hl]
    dsimp only
    rw [← hk0, hkmap]
    rfl
  · cases hr

/-! ### Running `fork` -/

/-- `copyuvm` where it succeeds. -/
def copySpace (k : Kernel) (src sz : ℕ) : Option (ℕ × Kernel) :=
  (kernelSpace k).bind fun s =>
    match copyLoop src s.1 ((sz + PGSIZE - 1) / PGSIZE) 0 s.2 with
    | .ok (true, k) => some (s.1, k)
    | _ => none

theorem copyuvm_of_copySpace {src sz : ℕ} (hr : copySpace k src sz = some (d, k')) :
    copyuvm k src sz = .ok (some d, k') := by
  obtain ⟨⟨d', k1⟩, h1, hr⟩ := bind_eq_some_iff.mp hr
  dsimp only at hr
  split at hr
  · rename_i k2 h2
    obtain ⟨rfl, rfl⟩ := Prod.mk.inj (some.inj hr)
    unfold copyuvm
    rw [setupkvm_of_kernelSpace h1]
    show (copyLoop src d' _ 0 k1 >>= fun _ => _) = _
    rw [h2]
    rfl
  · cases hr

/-- `fork` where it succeeds. -/
def forkRun (k : Kernel) (p : Slot) : Option Kernel :=
  match unusedSlot k with
  | none => none
  | some np =>
    let k := { k.setProc np fun q => { q with state := .embryo, pid := k.nextpid } with nextpid := k.nextpid + 1 }
    match kalloc k with
    | (none, _) => none
    | (some kstack, k) =>
      let k := k.setProc np fun q => { q with kstack := kstack }
      (copySpace k (k.proc p).pgdir (k.proc p).sz).map fun s =>
        s.2.setProc np fun q => { q with pgdir := s.1, sz := (s.2.proc p).sz, parent := some p, state := .running }

theorem fork_of_forkRun {p : Slot} (hr : forkRun k p = some k') : fork k p = .ok ((k.nextpid : ℤ), k') := by
  unfold forkRun at hr
  unfold fork
  cases hnp : unusedSlot k with
  | none =>
    rw [hnp] at hr
    cases hr
  | some np =>
    rw [hnp] at hr
    dsimp only at hr ⊢
    set k0 : Kernel := { k.setProc np fun q => { q with state := .embryo, pid := k.nextpid } with
      nextpid := k.nextpid + 1 }
    rcases hk : kalloc k0 with ⟨r, k1⟩
    cases r with
    | none =>
      rw [hk] at hr
      cases hr
    | some kstack =>
      rw [hk] at hr
      obtain ⟨⟨d, k2⟩, h1, rfl⟩ := map_eq_some_iff.mp hr
      dsimp only
      rw [copyuvm_of_copySpace h1]
      rfl

/-- One step, with `fork` table by table. -/
def stepRun (k : Kernel) (o : Op) : Option Kernel :=
  match o with
  | .fork p => if k.mayCall (.fork p) then forkRun k p else none
  | o => step k o

theorem step_of_stepRun {o : Op} (hr : stepRun k o = some k') : step k o = some k' := by
  unfold stepRun at hr
  split at hr
  · rename_i p
    split_ifs at hr with hmay
    rw [step, if_pos ⟨hmay, trivial⟩, call, fork_of_forkRun hr]
    rfl
  · exact hr

/-- A run whose steps meet `ok`, to a state that passes the test. -/
theorem reaches_of_run (ok : Kernel → Op → Prop) [∀ k o, Decidable (ok k o)] (os : List Op) (test : Kernel → Bool)
    (h : (Runs.exec stepRun ok boot os).map test = some true) : ∃ k, Reachable ok k ∧ test k = true := by
  obtain ⟨k, hk, htest⟩ := reaches_of_exec stepRun ok boot os test h
  exact ⟨k, hk.of_steps fun _ _ _ => step_of_stepRun, htest⟩

/-- The slot of the first child of init. -/
def childproc : Slot := ⟨2, by decide⟩

end

end Xv6.Vm
