import Xv6.Vm.Budget
import Xv6.Vm.Mapping

/-! # `setupkvm`, exactly

With 65 free pages or more `setupkvm` takes 65 of them, for the directory and its 64 tables, and enters the
kernel's mappings, which are the same in every directory (`kernEntry`). With fewer it fails, and then
every page there was has become a part of the directory that nobody keeps (`setupkvm_cases`). -/

namespace Xv6.Vm

open Fallible Finset Function

/-- What an entry of `kmap` makes of entry `w` for page number `n`. -/
def rowEntry (m : ℕ × ℕ × ℕ × ℕ) (n w : ℕ) : ℕ :=
  if mapStart m ≤ n ∧ n < mapStart m + mapCount m then
    u32 (m.2.1 + 4096 * (n - mapStart m)) ||| (m.2.2.2 ||| PTE_P)
  else w

/-- What the entries make of it, one after the other. -/
def rowsEntry : List (ℕ × ℕ × ℕ × ℕ) → ℕ → ℕ → ℕ
  | [], _, w => w
  | m :: l, n, w => rowsEntry l n (rowEntry m n w)

/-- The entry for page number `n` in every directory, as far as the kernel is concerned. -/
def kernEntry (n : ℕ) : ℕ := rowsEntry kmap n 0

/-- What mapping a part of the kernel half leaves, all of it (`b`) or as far as memory goes. `new` are the tables
that are needed, and `g` says what becomes of an entry. -/
structure KernRows (k k' : Kernel) (d : ℕ) (new : Finset ℕ) (b : Bool) (g : ℕ → ℕ → ℕ) : Prop extends
    Takes k k' d where
  apart : Apart k' d
  user : ∀ n < userPages, k'.entry d n = k.entry d n
  entry : b = true → ∀ n < allPages, k'.entry d n = g n (k.entry d n)
  balance : k'.freelist.length + (tables k' d).card = k.freelist.length + (tables k d).card
  within : tables k' d ⊆ tables k d ∪ new
  above : tables k d ⊆ tables k' d
  done : b = true → new ⊆ tables k' d
  starved : b = false → k'.freelist = [] ∧ ¬ new ⊆ tables k' d
  account : ∀ u, Accounted k' d u ↔ Accounted k d u

section
variable {k k1 k' : Kernel} {d m n : ℕ} {A B : Finset ℕ} {b : Bool} {g g' : ℕ → ℕ → ℕ}

theorem KernRows.refl (h : Apart k d) : KernRows k k d ∅ true fun _ w => w :=
  ⟨.refl k d, h, fun _ _ => rfl, fun _ _ _ => rfl, rfl, subset_union_left, subset_rfl, fun _ => empty_subset _, by simp,
    fun _ => Iff.rfl⟩

theorem KernRows.trans (h : KernRows k k1 d A true g) (h' : KernRows k1 k' d B b g') :
    KernRows k k' d (A ∪ B) b fun n w => g' n (g n w) := by
  refine ⟨h.toTakes.trans h'.toTakes, h'.apart, fun n hn => (h'.user n hn).trans (h.user n hn), fun hb n hn => ?_,
    h'.balance.trans h.balance, ?_, h.above.trans h'.above, fun hb => ?_, fun hb => ?_,
    fun u => (h'.account u).trans (h.account u)⟩
  · rw [h'.entry hb n hn, h.entry rfl n hn]
  · rw [← union_assoc]
    exact h'.within.trans (union_subset_union_left h.within)
  · exact union_subset ((h.done rfl).trans h'.above) (h'.done hb)
  · obtain ⟨hnil, hns⟩ := h'.starved hb
    exact ⟨hnil, fun hs => hns (subset_union_right.trans hs)⟩

theorem KernRows.union (h : KernRows k k' d A false g) (B : Finset ℕ) (g' : ℕ → ℕ → ℕ) :
    KernRows k k' d (A ∪ B) false g' := by
  obtain ⟨hnil, hns⟩ := h.starved rfl
  refine ⟨h.toTakes, h.apart, h.user, by simp, h.balance, ?_, h.above, by simp,
    fun _ => ⟨hnil, fun hs => hns (subset_union_left.trans hs)⟩, h.account⟩
  rw [← union_assoc]
  exact h.within.trans subset_union_left

theorem KernRows.congr (h : KernRows k k' d A b g) (hg : ∀ n w, g n w = g' n w) : KernRows k k' d A b g' := by
  obtain rfl : g = g' := funext fun n => funext fun w => hg n w
  exact h

theorem Entered.kernRows {w : ℕ} (he : Entered k k' d m w) (hm : userPages ≤ m) (hm' : m < allPages) :
    KernRows k k' d {m / 1024} true fun n w' => if n = m then w else w' := by
  have hua := userPages_le
  have hlt : m / 1024 < 1024 := by
    unfold allPages at hm'
    omega
  have htab : Vm.tables k' d = insert (m / 1024) (Vm.tables k d) := by
    ext x
    rw [mem_insert, mem_tables, mem_tables]
    constructor
    · rintro ⟨hx, hp⟩
      exact ((he.tables x hx).mp hp).elim (fun hp => .inr ⟨hx, hp⟩) .inl
    · rintro (rfl | ⟨hx, hp⟩)
      · exact ⟨hlt, (he.tables _ hlt).mpr (.inr rfl)⟩
      · exact ⟨hx, (he.tables x hx).mpr (.inl hp)⟩
  refine ⟨he.toTakes, he.apart, fun n hn => ?_, fun _ n hn => he.entry n hn, ?_, ?_, ?_, fun _ => ?_, by simp,
    fun u => ?_⟩
  · rw [he.entry n (by omega), if_neg (by omega)]
  · have hlen := he.length
    rw [pde_eq_mem hm'] at hlen
    by_cases hp : Present (k.mem d (m / 1024))
    · rw [if_pos hp] at hlen
      rw [htab, insert_eq_of_mem (mem_tables.mpr ⟨hlt, hp⟩)]
      omega
    · rw [if_neg hp] at hlen
      rw [htab, card_insert_of_notMem fun e => hp (mem_tables.mp e).2]
      omega
  · rw [htab, insert_eq, union_comm]
  · rw [htab]
    exact subset_insert _ _
  · rw [htab]
    exact singleton_subset_iff.mpr (mem_insert_self _ _)
  · rw [he.account]
    exact or_iff_left fun hu => by omega

/-- The loop of `mappages` over pages of the kernel half. -/
theorem mapLoop_kernRows (perm : ℕ) {pa : ℕ} (h : Apart k d) (hm : userPages ≤ m) (hn : m + n ≤ allPages)
    (hpa : pa < 2 ^ 32) (hnew : ∀ i, m ≤ i → i < m + n → ¬ Present (k.entry d i)) :
    ∃ b k', mapLoop d perm n (4096 * m) pa k = .ok (b, k') ∧ KernRows k k' d (tablesOf m (m + n)) b fun i w =>
      if m ≤ i ∧ i < m + n then u32 (pa + 4096 * (i - m)) ||| (perm ||| PTE_P) else w := by
  induction n generalizing m pa k with
  | zero =>
    rw [tablesOf_self]
    exact ⟨true, k, rfl, (KernRows.refl h).congr fun i w => (if_neg (by omega)).symm⟩
  | succ n ih =>
    rw [tablesOf_succ]
    by_cases hroom : Present (k.pde d m) ∨ k.freelist ≠ []
    · obtain ⟨k1, he, hr⟩ := mapLoop_round (n := n) perm pa h (by omega : m < allPages)
        (hnew m (le_refl m) (by omega)) hroom fun hlt => by omega
      have h1 := he.kernRows hm (by omega)
      have hpa' : u32 (pa + PGSIZE) < 2 ^ 32 := Nat.mod_lt _ (by decide)
      obtain ⟨b, k2, hr2, h2⟩ := ih (m := m + 1) he.apart (by omega) (by omega) hpa'
        fun i hi1 hi2 => by
          rw [he.entry i (by omega), if_neg (by omega)]
          exact hnew i (by omega) (by omega)
      refine ⟨b, k2, ?_, (h1.trans h2).congr fun i w => ?_⟩
      · rw [hr, ← hr2]
        cases n with
        | zero => rw [mapLoop, mapLoop]
        | succ n =>
          rw [show u32 (4096 * m + PGSIZE) = 4096 * (m + 1) by unfold u32 PGSIZE; unfold allPages at hn; omega]
      · have hself : u32 (pa + 4096 * (m - m)) = pa := by
          unfold u32
          omega
        have hnext : m + 1 ≤ i → u32 (u32 (pa + PGSIZE) + 4096 * (i - (m + 1))) = u32 (pa + 4096 * (i - m)) := by
          intro hle
          unfold u32 PGSIZE
          omega
        obtain rfl | hne := eq_or_ne i m
        · rw [if_neg (by omega), if_pos rfl, if_pos (by omega), hself]
        · rw [if_neg hne]
          refine if_ctx_congr (by omega) (fun hin => ?_) fun _ => rfl
          rw [hnext (by omega)]
    · obtain ⟨hp, hnil⟩ := not_or.mp hroom
      have hnil := not_not.mp hnil
      refine ⟨false, k, mapLoop_full hp hnil, KernRows.union (A := {m / 1024}) (g := fun _ w => w) ?_ _ _⟩
      refine ⟨.refl k d, h, fun _ _ => rfl, by simp, rfl, subset_union_left, subset_rfl, by simp,
        fun _ => ⟨hnil, fun hs => ?_⟩, fun _ => Iff.rfl⟩
      rw [pde_eq_mem (by omega)] at hp
      exact hp (mem_tables.mp (hs (mem_singleton_self _))).2

/-- The entries of a list that lies below are not touched. -/
theorem rowsEntry_below {l : List (ℕ × ℕ × ℕ × ℕ)} {lo : ℕ} (hl : Ascending lo l) (hn : n < lo) (w : ℕ) :
    rowsEntry l n w = w := by
  induction l generalizing lo w with
  | nil => rfl
  | cons m l ih =>
    obtain ⟨-, hlo, hl⟩ := hl
    rw [rowsEntry, rowEntry, if_neg (by omega)]
    exact ih hl (by omega) w

theorem kmapLoop_kernRows {l : List (ℕ × ℕ × ℕ × ℕ)} {lo : ℕ} (h : Apart k d) (hl : Ascending lo l)
    (hb : ∀ m ∈ l, m.2.1 < 2 ^ 32) (hnew : ∀ m < allPages, lo ≤ m → ¬ Present (k.entry d m)) :
    ∃ b k', kmapLoop d l k = .ok (b, k') ∧ KernRows k k' d (kmapTables l) b (rowsEntry l) := by
  induction l generalizing lo k with
  | nil => exact ⟨true, k, rfl, .refl h⟩
  | cons m l ih =>
    obtain ⟨⟨h1, h2, h3, -⟩, hlo, hl⟩ := hl
    have hstart : 4096 * mapStart m = pgRoundDown m.1 := by
      unfold mapStart
      omega
    obtain ⟨b, k1, e1, hk1⟩ := mapLoop_kernRows (m := mapStart m) (n := mapCount m) m.2.2.2 h h2 h3
      (hb m List.mem_cons_self) fun q hq1 hq2 => hnew q (lt_of_lt_of_le hq2 h3) (le_trans hlo hq1)
    rw [hstart] at e1
    have hgo : kmapLoop d (m :: l) k = if b = true then kmapLoop d l k1 else .ok (false, k1) := by
      obtain ⟨virt, lo, hi, perm⟩ := m
      rw [kmapLoop, mappages]
      dsimp only
      unfold mapCount at e1
      dsimp only at e1
      rw [e1]
      rfl
    rw [hgo]
    cases b with
    | false => exact ⟨false, k1, rfl, hk1.union _ _⟩
    | true =>
      obtain ⟨b, k2, e2, hk2⟩ := ih hk1.apart hl (fun m hm => hb m (List.mem_cons_of_mem _ hm)) fun q hq1 hq2 => by
        rw [hk1.entry rfl q hq1, if_neg (by omega)]
        exact hnew q hq1 (by omega)
      exact ⟨b, k2, e2, hk1.trans hk2⟩

/-! ### The new directory -/

/-- The pages of the free list are different ones that `kfree` accepts. -/
structure FreePages (k : Kernel) : Prop where
  nodup : k.freelist.Nodup
  page : ∀ v ∈ k.freelist, Page v

/-- A directory from the free list with nothing but the kernel's mappings. -/
structure KernelHalf (k k' : Kernel) (d : ℕ) : Prop where
  apart : Apart k' d
  dir : d ∈ k.freelist
  entry : ∀ n < allPages, k'.entry d n = kernEntry n
  tables : tables k' d = kernTables
  length : k'.freelist.length + 65 = k.freelist.length
  suffix : k'.freelist <:+ k.freelist.tail
  rest : ∀ u ∈ k'.freelist, k'.mem u = k.mem u
  account : ∀ u, Accounted k' d u ↔ u ∈ k.freelist
  mem : ∀ u ∉ k.freelist, k'.mem u = k.mem u

theorem kernEntry_user (hn : n < userPages) : kernEntry n = 0 := rowsEntry_below kmap_ascending hn 0

theorem FreePages.emptyDir {l : List ℕ} (h : FreePages k) (hl : k.freelist = d :: l) :
    let k1 := ({ k with freelist := l } : Kernel).setPage d fun _ => 0
    Apart k1 d ∧ (∀ n, k1.entry d n = 0) ∧ tables k1 d = ∅ ∧ (∀ u, NoTable k1 d u) ∧
      (∀ u, Accounted k1 d u ↔ u ∈ k.freelist) ∧ ∀ u ≠ d, k1.mem u = k.mem u := by
  intro k1
  have hdir : k1.mem d = fun _ => 0 := update_self _ _ _
  have hno : ∀ x, ¬ Present (k1.mem d x) := fun x => by
    rw [hdir]
    exact not_present_zero
  have hent : ∀ n, k1.entry d n = 0 := fun n => by
    rw [Kernel.entry, if_neg]
    exact hno _
  have hpr : ∀ n, ¬ Present (k1.entry d n) := fun n => by
    rw [hent]
    exact not_present_zero
  have hnt : ∀ u, NoTable k1 d u := fun u m hp => absurd hp (hno _)
  have hnd := h.nodup
  rw [hl] at hnd
  obtain ⟨hdl, hndl⟩ := List.nodup_cons.mp hnd
  have hpage : ∀ v ∈ l, Page v := fun v hv => h.page v (by rw [hl]; exact List.mem_cons_of_mem d hv)
  refine ⟨⟨⟨?_, ?_, fun v hv => ⟨hpage v hv, ?_, hnt v⟩, fun m _ hp => absurd hp (hpr m)⟩, hndl, fun m _ hp => absurd hp (hpr m)⟩,
    hent, ?_, hnt, fun u => ?_, fun u hu => update_of_ne hu _ _⟩
  · exact hnt d
  · exact fun m _ hp => absurd hp (hno _)
  · rintro rfl
    exact hdl hv
  · unfold Vm.tables
    exact filter_eq_empty_iff.mpr fun x _ => hno x
  · unfold Accounted InSpace
    rw [hl, List.mem_cons, or_comm]
    refine or_congr_left (or_iff_left ?_)
    rintro (⟨x, -, hp, -⟩ | ⟨m, -, hp, -⟩)
    · exact hno x hp
    · exact hpr m hp

/-- **`setupkvm`** takes 65 pages, or fails. -/
theorem setupkvm_cases (h : FreePages k) :
    (65 ≤ k.freelist.length ∧ ∃ d k', setupkvm k = .ok (some d, k') ∧ KernelHalf k k' d) ∨
      (k.freelist.length < 65 ∧ ∃ k', setupkvm k = .ok (none, k') ∧ k'.freelist = [] ∧
        ∀ u ∉ k.freelist, k'.mem u = k.mem u) := by
  unfold setupkvm
  cases hl : k.freelist with
  | nil =>
    rw [kalloc_nil hl]
    exact .inr ⟨by simp, k, rfl, hl, fun _ _ => rfl⟩
  | cons d l =>
    rw [kalloc_cons hl, ← hl]
    obtain ⟨h1, hzero, htab, hnt, hacc, hmem⟩ := h.emptyDir hl
    set k1 : Kernel := ({ k with freelist := l } : Kernel).setPage d fun _ => 0 with hk₁
    obtain ⟨b, k2, e2, h2⟩ := kmapLoop_kernRows h1 kmap_ascending (by decide)
      fun m _ _ => by rw [hzero m]; exact not_present_zero
    have hlen : k2.freelist.length + (tables k2 d).card = l.length := by
      have := h2.balance
      rw [htab] at this
      exact this
    have hsub : tables k2 d ⊆ kernTables := by
      have := h2.within
      rwa [htab, empty_union, kmapTables_kmap] at this
    have hk : k.freelist.length = l.length + 1 := by rw [hl, List.length_cons]
    have hmem2 : ∀ u ∉ k.freelist, k2.mem u = k.mem u := fun u hu => by
      rw [hl] at hu
      have hud : u ≠ d := fun e => hu (by rw [e]; exact List.mem_cons_self)
      rw [h2.mem u (fun hin => hu (List.mem_cons_of_mem d hin)) hud (hnt u), hmem u hud]
    dsimp only
    rw [e2]
    cases b with
    | false =>
      obtain ⟨hnil, hns⟩ := h2.starved rfl
      rw [kmapTables_kmap] at hns
      have hlt := Finset.card_lt_card (Finset.ssubset_iff_subset_ne.mpr ⟨hsub, fun e => hns e.ge⟩)
      rw [kernTables_card] at hlt
      rw [hnil, List.length_nil] at hlen
      exact .inr ⟨by omega, k2, rfl, hnil, hmem2⟩
    | true =>
      have heq : tables k2 d = kernTables :=
        subset_antisymm hsub (by rw [← kmapTables_kmap]; exact h2.done rfl)
      rw [heq, kernTables_card] at hlen
      refine .inl ⟨by omega, d, k2, rfl, h2.apart, by rw [hl]; exact List.mem_cons_self, fun n hn => ?_, heq, by omega, ?_,
        fun u hu => ?_, fun u => (h2.account u).trans (hacc u), hmem2⟩
      · rw [h2.entry rfl n hn, hzero]
        rfl
      · rw [hl]
        exact h2.suffix
      · rw [h2.rest u hu, hmem u (h1.free u (h2.suffix.subset hu)).2.1]

theorem FreePages.setupkvm_some (h : FreePages k) (hr : setupkvm k = .ok (some d, k')) : KernelHalf k k' d := by
  obtain ⟨-, d', k1, e, hk⟩ | ⟨-, k1, e, -⟩ := setupkvm_cases h
  · obtain ⟨hd, rfl⟩ := pair_ok (hr.symm.trans e)
    obtain rfl := Option.some.inj hd
    exact hk
  · cases (pair_ok (hr.symm.trans e)).1

end

end Xv6.Vm
