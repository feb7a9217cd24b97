import Xv6.Lib.Access
import Xv6.Vm.Dealloc
import Xv6.Vm.Setup

/-! # `freevm` gives everything back once

A directory that `setupkvm` has made and `mappages` has filled with pages of its own (`Assembled`) is a tree: the
directory, its tables, and the pages mapped in the user half are different pages (`Tree`). `freevm` frees
the leaves, then the tables, and the root last. To say that it reads nothing that it has freed, the accesses it
makes are written down on the way (`freevmTrace`); apart from this it is the same function
(`freevmTrace_erase`). -/

namespace Xv6.Vm

open Fallible Access List Prod

/-! ### The accesses -/

/-- `deallocLoop`, with the pages it reads, writes and frees. -/
def deallocTrace (pgdir oldsz : ℕ) : ℕ → ℕ → Kernel → Except Fault (List (Access ℕ) × Kernel)
  | 0, _, k => .ok ([], k)
  | n + 1, a, k =>
    if a < oldsz then
      match (walkpgdir k pgdir a false).1 with
      | none => (deallocTrace pgdir oldsz n (a + (NPTENTRIES - 1) * PGSIZE + PGSIZE) k).map fun r =>
          (touch pgdir :: r.1, r.2)
      | some (t, i) =>
        if k.mem t i &&& PTE_P ≠ 0 then
          let pa := pteAddr (k.mem t i)
          if pa = 0 then .error (.panic "kfree")
          else do
            let k ← kfree k (p2v pa)
            (deallocTrace pgdir oldsz n (a + PGSIZE) (k.store t i 0)).map fun r =>
              (touch pgdir :: touch t :: free (p2v pa) :: touch t :: r.1, r.2)
        else
          (deallocTrace pgdir oldsz n (a + PGSIZE) k).map fun r => (touch pgdir :: touch t :: r.1, r.2)
    else .ok ([], k)

/-- `freeTables`, with its accesses. -/
def tablesTrace (pgdir : ℕ) : ℕ → ℕ → Kernel → Except Fault (List (Access ℕ) × Kernel)
  | 0, _, k => .ok ([], k)
  | n + 1, i, k =>
    if k.mem pgdir i &&& PTE_P ≠ 0 then do
      let v := p2v (pteAddr (k.mem pgdir i))
      let k ← kfree k v
      (tablesTrace pgdir n (i + 1) k).map fun r => (touch pgdir :: free v :: r.1, r.2)
    else (tablesTrace pgdir n (i + 1) k).map fun r => (touch pgdir :: r.1, r.2)

/-- `freevm`, with its accesses. -/
def freevmTrace (k : Kernel) (pgdir : ℕ) : Except Fault (List (Access ℕ) × Kernel) :=
  if pgdir = 0 then .error (.panic "freevm: no pgdir")
  else do
    let (l, k) ← deallocTrace pgdir KERNBASE (KERNBASE / PGSIZE + 1) (pgRoundUp 0) k
    let (l', k) ← tablesTrace pgdir NPDENTRIES 0 k
    let k ← kfree k pgdir
    .ok (l ++ l' ++ [free pgdir], k)

section
variable {k k' k1 : Kernel} {d m n v perm : ℕ}

theorem map_snd (x : Except Fault (List (Access ℕ) × Kernel)) (f : List (Access ℕ) → List (Access ℕ)) :
    (x.map fun r => (f r.1, r.2)).map Prod.snd = x.map Prod.snd := by
  cases x with
  | error e => rfl
  | ok r => rfl

theorem deallocTrace_erase (pgdir oldsz n a : ℕ) (k : Kernel) :
    (deallocTrace pgdir oldsz n a k).map Prod.snd = deallocLoop pgdir oldsz n a k := by
  induction n generalizing a k with
  | zero => rfl
  | succ n ih =>
    rw [deallocTrace, deallocLoop]
    split_ifs with ha
    · cases (walkpgdir k pgdir a false).1 with
      | none =>
        dsimp only
        rw [map_snd _ fun l => touch pgdir :: l, ih]
      | some ti =>
        dsimp only
        split_ifs with hp hpa
        · rfl
        · cases hk : kfree k (p2v (pteAddr (k.mem ti.1 ti.2))) with
          | error e => rfl
          | ok k1 =>
            rw [ok_bind, ok_bind, ← ih]
            exact map_snd _ fun l => touch pgdir :: touch ti.1 :: free _ :: touch ti.1 :: l
        · rw [map_snd _ fun l => touch pgdir :: touch ti.1 :: l, ih]
    · rfl

theorem tablesTrace_erase (pgdir n i : ℕ) (k : Kernel) :
    (tablesTrace pgdir n i k).map Prod.snd = freeTables pgdir n i k := by
  induction n generalizing i k with
  | zero => rfl
  | succ n ih =>
    rw [tablesTrace, freeTables]
    split_ifs with hp
    · dsimp only
      cases hk : kfree k (p2v (pteAddr (k.mem pgdir i))) with
      | error e => rfl
      | ok k1 =>
        rw [ok_bind, ok_bind, ← ih]
        exact map_snd _ fun l => touch pgdir :: free _ :: l
    · rw [map_snd _ fun l => touch pgdir :: l, ih]

theorem freevmTrace_erase (k : Kernel) (pgdir : ℕ) : (freevmTrace k pgdir).map Prod.snd = freevm k pgdir := by
  unfold freevmTrace freevm
  split_ifs with h0
  · rfl
  · have h1 := deallocTrace_erase pgdir KERNBASE (KERNBASE / PGSIZE + 1) (pgRoundUp 0) k
    rw [deallocuvm, if_neg (by decide), ← h1]
    cases deallocTrace pgdir KERNBASE (KERNBASE / PGSIZE + 1) (pgRoundUp 0) k with
    | error e => rfl
    | ok r =>
      obtain ⟨l, k1⟩ := r
      have h2 := tablesTrace_erase pgdir NPDENTRIES 0 k1
      show Except.map Prod.snd (tablesTrace pgdir NPDENTRIES 0 k1 >>= _) = (freeTables pgdir NPDENTRIES 0 k1 >>= _)
      rw [← h2]
      cases tablesTrace pgdir NPDENTRIES 0 k1 with
      | error e => rfl
      | ok r =>
        obtain ⟨l', k2⟩ := r
        show Except.map Prod.snd (kfree k2 pgdir >>= _) = kfree k2 pgdir
        cases kfree k2 pgdir with
        | error e => rfl
        | ok k3 => rfl

/-! ### What is accessed -/

/-- The address space is a tree: no page is used for two things. -/
structure Tree (k : Kernel) (d : ℕ) : Prop extends Apart k d where
  sole : ∀ m < userPages, ∀ m' < userPages, Present (k.entry d m) → Present (k.entry d m') →
    frame (k.entry d m) = frame (k.entry d m') → m = m'
  page : ∀ v, InSpace k d v → Page v

theorem deallocTrace_freelist {sz a : ℕ} {l : List (Access ℕ)} (hr : deallocTrace d sz n a k = .ok (l, k')) :
    k'.freelist = (frees l).reverse ++ k.freelist := by
  induction n generalizing a k l with
  | zero =>
    obtain ⟨rfl, rfl⟩ := pair_ok hr
    rfl
  | succ n ih =>
    rw [deallocTrace] at hr
    split_ifs at hr with ha
    · cases hw : (walkpgdir k d a false).1 with
      | none =>
        rw [hw] at hr
        obtain ⟨⟨l1, k1⟩, h1, e⟩ := map_ok hr
        obtain ⟨rfl, rfl⟩ := mk.inj e
        rw [ih h1]
        rfl
      | some ti =>
        rw [hw] at hr
        dsimp only at hr
        split_ifs at hr with hp hpa
        · obtain ⟨k2, h2, hr⟩ := bind_ok hr
          obtain ⟨⟨l1, k1⟩, h1, e⟩ := map_ok hr
          obtain ⟨rfl, rfl⟩ := mk.inj e
          have hl : k2.freelist = p2v (pteAddr (k.mem ti.1 ti.2)) :: k.freelist := by
            unfold kfree at h2
            split_ifs at h2
            obtain rfl := Except.ok.inj h2
            rfl
          rw [ih h1, Kernel.store_freelist, hl]
          simp [frees]
        · obtain ⟨⟨l1, k1⟩, h1, e⟩ := map_ok hr
          obtain ⟨rfl, rfl⟩ := mk.inj e
          rw [ih h1]
          rfl
    · obtain ⟨rfl, rfl⟩ := pair_ok hr
      rfl

/-- The loop of `deallocuvm` uses the directory and its tables. -/
theorem deallocTrace_touch {sz a : ℕ} {l : List (Access ℕ)} (h : Tabled k d) (hsz : sz ≤ KERNBASE)
    (hr : deallocTrace d sz n a k = .ok (l, k')) (hv : touch v ∈ l) :
    v = d ∨ ∃ x < 1024, Present (k.mem d x) ∧ frame (k.mem d x) = v := by
  have hk := kernbase_eq
  induction n generalizing a k l with
  | zero =>
    obtain ⟨rfl, rfl⟩ := pair_ok hr
    cases hv
  | succ n ih =>
    rw [deallocTrace] at hr
    split_ifs at hr with ha
    swap
    · obtain ⟨rfl, rfl⟩ := pair_ok hr
      cases hv
    rw [walkpgdir_false] at hr
    by_cases hp : Present (k.pde d (a / 4096))
    · rw [if_pos hp] at hr
      dsimp only at hr
      rw [← entry_of_present hp, frame_eq] at hr
      have htab : ∃ x < 1024, Present (k.mem d x) ∧ frame (k.mem d x) = frame (k.pde d (a / 4096)) :=
        ⟨_, Nat.mod_lt _ (by decide), hp, rfl⟩
      split_ifs at hr with hpr hpa
      · have hm : a / 4096 < userPages := by
          unfold userPages
          omega
        have hpr := (present_and _).mp hpr
        rw [kfree_page (h.user _ hm hpr).1, ok_bind] at hr
        obtain ⟨⟨l1, k1⟩, h1, e⟩ := map_ok hr
        obtain ⟨rfl, rfl⟩ := mk.inj e
        have hdir := (h.unmapped_entry hm hpr).1
        simp only [mem_cons, touch.injEq, reduceCtorEq, false_or] at hv
        obtain rfl | rfl | rfl | hv := hv
        · exact .inl rfl
        · exact .inr htab
        · exact .inr htab
        · have := ih (h.unmapped hm hpr) h1 hv
          rwa [hdir] at this
      · obtain ⟨⟨l1, k1⟩, h1, e⟩ := map_ok hr
        obtain ⟨rfl, rfl⟩ := mk.inj e
        simp only [mem_cons, touch.injEq] at hv
        obtain rfl | rfl | hv := hv
        · exact .inl rfl
        · exact .inr htab
        · exact ih h h1 hv
    · rw [if_neg hp] at hr
      obtain ⟨⟨l1, k1⟩, h1, e⟩ := map_ok hr
      obtain ⟨rfl, rfl⟩ := mk.inj e
      simp only [mem_cons, touch.injEq] at hv
      obtain rfl | hv := hv
      · exact .inl rfl
      · exact ih h h1 hv

/-- The second loop frees the tables in order, and uses only the directory. -/
theorem tablesTrace_spec {D : ℕ → ℕ} (hD : ∀ x < 1024, Present (D x) → Page (frame (D x)) ∧ frame (D x) ≠ d)
    (hdir : k.mem d = D) {i : ℕ} (hi : i + n ≤ 1024) :
    ∃ l k', tablesTrace d n i k = .ok (l, k') ∧ k'.freelist = (frees l).reverse ++ k.freelist ∧
      frees l = ((range' i n).filter fun x => Present (D x)).map (fun x => frame (D x)) ∧
      (∀ v, touch v ∈ l → v = d) ∧ ∀ u, u ∉ frees l → k'.mem u = k.mem u := by
  induction n generalizing i k with
  | zero => exact ⟨[], k, rfl, rfl, rfl, by simp, fun _ _ => rfl⟩
  | succ n ih =>
    rw [tablesTrace, hdir, frame_eq, range'_succ]
    by_cases hp : Present (D i)
    · obtain ⟨hpage, hne⟩ := hD i (by omega) hp
      rw [if_pos ((present_and _).mpr hp), filter_cons_of_pos (by simpa using hp)]
      dsimp only
      rw [kfree_page hpage, ok_bind]
      obtain ⟨l, k', hr, hl, hf, ht, hm⟩ := ih (k := k.freed (frame (D i)))
        (by rw [k.freed_mem_of_ne hne.symm]; exact hdir) (i := i + 1) (by omega)
      rw [hr]
      refine ⟨_, k', rfl, ?_, ?_, fun v hv => ?_, fun u hu => ?_⟩
      · rw [hl]
        simp [frees]
      · rw [frees, frees, hf]
        rfl
      · simp only [mem_cons, touch.injEq, reduceCtorEq, false_or] at hv
        exact hv.elim id (ht v)
      · rw [frees, frees, mem_cons, not_or] at hu
        rw [hm u hu.2, k.freed_mem_of_ne hu.1]
    · rw [if_neg (mt (present_and _).mp hp), filter_cons_of_neg (by simpa using hp)]
      obtain ⟨l, k', hr, hl, hf, ht, hm⟩ := ih hdir (i := i + 1) (by omega)
      rw [hr]
      refine ⟨_, k', rfl, hl, hf, fun v hv => ?_, hm⟩
      simp only [mem_cons, touch.injEq] at hv
      exact hv.elim id (ht v)

/-! ### `freevm` -/

/-- What `freevm` does, with its accesses. -/
structure FreesAll (k k' : Kernel) (d : ℕ) (l : List (Access ℕ)) : Prop where
  trace : freevmTrace k d = .ok (l, k')
  result : freevm k d = .ok k'
  orderly : Orderly l
  frees : ∀ v, v ∈ frees l ↔ InSpace k d v
  freelist : k'.freelist = (Access.frees l).reverse ++ k.freelist
  mem : ∀ u, ¬ InSpace k d u → k'.mem u = k.mem u

/-- The pages of the user half, in the order in which they are freed. -/
def Kernel.userFrames (k : Kernel) (d : ℕ) : List ℕ := (k.mapped d 0 userPages).map fun m => frame (k.entry d m)

theorem mem_userFrames : v ∈ k.userFrames d ↔ ∃ m < userPages, Present (k.entry d m) ∧ frame (k.entry d m) = v := by
  unfold Kernel.userFrames
  rw [mem_map]
  constructor
  · rintro ⟨m, hm, rfl⟩
    obtain ⟨-, hlt, hpr⟩ := mem_mapped.mp hm
    exact ⟨m, hlt, hpr, rfl⟩
  · rintro ⟨m, hlt, hpr, rfl⟩
    exact ⟨m, mem_mapped.mpr ⟨Nat.zero_le m, hlt, hpr⟩, rfl⟩

theorem Tree.userFrames_nodup (h : Tree k d) : (k.userFrames d).Nodup := by
  unfold Kernel.userFrames
  refine List.Nodup.map_on (fun m hm m' hm' e => ?_) ((nodup_range' 1).filter _)
  obtain ⟨-, hlt, hpr⟩ := mem_mapped.mp hm
  obtain ⟨-, hlt', hpr'⟩ := mem_mapped.mp hm'
  exact h.sole m hlt m' hlt' hpr hpr' e

/-- The tables, in the order in which they are freed. -/
def Kernel.tableFrames (k : Kernel) (d : ℕ) : List ℕ :=
  ((range' 0 1024).filter fun x => Present (k.mem d x)).map fun x => frame (k.mem d x)

theorem mem_tableFrames : v ∈ k.tableFrames d ↔ ∃ x < 1024, Present (k.mem d x) ∧ frame (k.mem d x) = v := by
  unfold Kernel.tableFrames
  simp only [mem_map, mem_filter, mem_range'_1, decide_eq_true_iff]
  constructor
  · rintro ⟨x, ⟨hx, hp⟩, rfl⟩
    exact ⟨x, by omega, hp, rfl⟩
  · rintro ⟨x, hx, hp, rfl⟩
    exact ⟨x, ⟨by omega, hp⟩, rfl⟩

theorem Tabled.tableFrames_nodup (h : Tabled k d) : (k.tableFrames d).Nodup := by
  unfold Kernel.tableFrames
  refine List.Nodup.map_on (fun x hx x' hx' e => ?_) ((nodup_range' 1).filter _)
  obtain ⟨hx, hp⟩ := mem_filter.mp hx
  obtain ⟨hx', hp'⟩ := mem_filter.mp hx'
  rw [mem_range'_1] at hx hx'
  have := h.apart (1024 * x) (1024 * x')
  unfold Kernel.pde at this
  rw [show 1024 * x / 1024 % 1024 = x by omega, show 1024 * x' / 1024 % 1024 = x' by omega] at this
  exact this (of_decide_eq_true hp) (of_decide_eq_true hp') e

theorem Tree.deallocTrace (h : Tree k d) : ∃ l k',
    deallocTrace d KERNBASE (KERNBASE / PGSIZE + 1) (pgRoundUp 0) k = .ok (l, k') ∧
      Cleared k k' d (k.mapped d 0 userPages) ∧ frees l = k.userFrames d := by
  obtain ⟨k', hr, hc⟩ := deallocuvm_mapped h.toTabled (by decide : 0 < KERNBASE) (le_refl _) fun m _ _ _ hpass => by
    have := hpass.1
    omega
  rw [deallocuvm, if_neg (by decide)] at hr
  obtain ⟨k1, hloop, e⟩ := bind_ok hr
  obtain ⟨-, rfl⟩ := pair_ok e
  rw [← deallocTrace_erase] at hloop
  obtain ⟨⟨l, k2⟩, htrace, rfl⟩ := map_ok hloop
  refine ⟨l, k2, htrace, hc, ?_⟩
  have hfree := deallocTrace_freelist htrace
  have hall := hc.freelist
  rw [hfree, append_left_inj, reverse_inj,
    filter_eq_self.mpr fun m hm => decide_eq_true (mem_mapped.mp hm).2.2] at hall
  exact hall

/-- **`freevm`** gives back every page of the space, once, and uses none after that. -/
theorem Tree.freesAll (h : Tree k d) : ∃ l k', FreesAll k k' d l := by
  have hpage : Page d := h.page d (.inl rfl)
  obtain ⟨l, k1, hr1, hc, hf⟩ := h.deallocTrace
  have htab : ∀ x < 1024, Present (k.mem d x) → Page (frame (k.mem d x)) ∧ frame (k.mem d x) ≠ d := fun x hx hp =>
    ⟨h.page _ (.inr (.inl ⟨x, hx, hp, rfl⟩)), noTable_iff.mp h.self x hx hp⟩
  obtain ⟨l', k2, hr2, hl', hf', ht', hm'⟩ := tablesTrace_spec (n := NPDENTRIES) htab hc.dir (by decide : 0 + 1024 ≤ 1024)
  have hf' : frees l' = k.tableFrames d := hf'
  have hl := deallocTrace_freelist hr1
  have htouch : ∀ v, touch v ∈ l → v = d ∨ v ∈ k.tableFrames d := fun v hv =>
    (deallocTrace_touch h.toTabled (le_refl _) hr1 hv).imp id mem_tableFrames.mpr
  have huser : ∀ v ∈ k.userFrames d, v ≠ d ∧ v ∉ k.tableFrames d := fun v hv => by
    obtain ⟨m, hm, hpr, rfl⟩ := mem_userFrames.mp hv
    obtain ⟨-, hne, hnt⟩ := h.user m hm hpr
    refine ⟨hne, fun hin => ?_⟩
    obtain ⟨x, hx, hp, e⟩ := mem_tableFrames.mp hin
    exact noTable_iff.mp hnt x hx hp e
  have htables : ∀ v ∈ k.tableFrames d, v ≠ d := fun v hv => by
    obtain ⟨x, hx, hp, rfl⟩ := mem_tableFrames.mp hv
    exact (htab x hx hp).2
  have htrace : freevmTrace k d = .ok (l ++ l' ++ [free d], k2.freed d) := by
    unfold freevmTrace
    rw [if_neg (by have := hpage.ge; omega), hr1]
    show (tablesTrace d NPDENTRIES 0 k1 >>= _) = _
    rw [hr2]
    show (kfree k2 d >>= _) = _
    rw [kfree_page hpage]
    rfl
  have hall : frees (l ++ l' ++ [free d]) = k.userFrames d ++ k.tableFrames d ++ [d] := by
    rw [frees_append, frees_append, hf, hf']
    rfl
  have hmem : ∀ v, v ∈ frees (l ++ l' ++ [free d]) ↔ InSpace k d v := fun v => by
    rw [hall, mem_append, mem_append, mem_singleton, mem_userFrames, mem_tableFrames]
    unfold InSpace
    rw [or_comm, or_comm (a := ∃ m < userPages, _)]
  refine ⟨_, _, htrace, ?_, ?_, hmem, ?_, fun u hu => ?_⟩
  · rw [← freevmTrace_erase, htrace]
    rfl
  · rw [orderly_append, orderly_append, frees_append, hf, hf']
    refine ⟨⟨?_, ?_, fun v hv b hb e => ?_⟩, pairwise_singleton _ _, fun v hv b hb e => ?_⟩
    · refine orderly_of_nodup (by rw [hf]; exact h.userFrames_nodup) fun v hv hin => ?_
      rw [hf] at hv
      obtain ⟨hne, hnt⟩ := huser v hv
      exact (htouch v hin).elim hne hnt
    · refine orderly_of_nodup (by rw [hf']; exact h.toTabled.tableFrames_nodup) fun v hv hin => ?_
      rw [hf'] at hv
      exact htables v hv (ht' v hin)
    · obtain ⟨hne, hnt⟩ := huser v hv
      subst e
      cases b with
      | touch w => exact hne (ht' w hb)
      | free w => exact hnt (hf' ▸ mem_frees.mpr hb)
    · obtain rfl := mem_singleton.mp hb
      subst e
      obtain hv | hv := mem_append.mp hv
      · exact (huser _ hv).1 rfl
      · exact htables _ hv rfl
  · rw [Kernel.freed_freelist, hl', hl, frees_append, frees_append, reverse_append, reverse_append]
    simp [frees]
  · have hud : u ≠ d := fun e => hu (.inl e)
    have hnt : NoTable k d u := noTable_iff.mpr fun x hx hp e => hu (.inr (.inl ⟨x, hx, hp, e⟩))
    rw [k2.freed_mem_of_ne hud, hm' u fun hin => hu (.inr (.inl (mem_tableFrames.mp (hf' ▸ hin)))),
      hc.mem u hud hnt fun m hm hpr e => hu (.inr (.inr ⟨m, (mem_mapped.mp hm).2.1, hpr, e⟩))]

/-! ### Directories as they are built -/

/-- A directory from `setupkvm`, filled by calls of `mappages` with pages at user addresses that are neither free nor in
use here. `clearpteu` may be called on it, and everybody else may do what they like with other memory. -/
inductive Assembled (d : ℕ) : Kernel → Prop
  | setup {k k' : Kernel} (h : FreePages k) (hr : setupkvm k = .ok (some d, k')) : Assembled d k'
  | map {k k' : Kernel} {va size v perm : ℕ} (h : Assembled d k) (hsize : 0 < size) (hva : va + size ≤ KERNBASE)
      (hperm : perm < 4096) (hv : ∀ j ≤ (va + size - 1) / 4096 - va / 4096, Page (v + 4096 * j) ∧
        ¬ Accounted k d (v + 4096 * j))
      (hr : mappages k d va size (v2p v) perm = .ok (true, k')) : Assembled d k'
  | clear {k k' : Kernel} {uva : ℕ} (h : Assembled d k) (hu : uva < KERNBASE) (hr : clearpteu k d uva = .ok k') :
      Assembled d k'
  | other {k k' : Kernel} (h : Assembled d k) (hdir : k'.mem d = k.mem d)
      (htab : ∀ x < 1024, Present (k.mem d x) → k'.mem (frame (k.mem d x)) = k.mem (frame (k.mem d x)))
      (hf : FreePages k') (hin : ∀ v, InSpace k d v → v ∉ k'.freelist) : Assembled d k'

theorem KernelHalf.tree (h : FreePages k) (hk : KernelHalf k k' d) : Tree k' d := by
  have hua := userPages_le
  refine ⟨hk.apart, fun m hm _ _ hpr => ?_, fun v hv => h.page v ((hk.account v).mp (.inr hv))⟩
  rw [hk.entry m (by omega), kernEntry_user hm] at hpr
  exact absurd hpr not_present_zero

theorem Tree.enter {w : ℕ} (h : Tree k d) (hm : m < userPages) (hv : Page (frame w))
    (hnew : ¬ Accounted k d (frame w)) (he : Entered k k' d m w) : Tree k' d := by
  have hua := userPages_le
  have hold : ∀ n < userPages, n ≠ m → Present (k'.entry d n) →
      k'.entry d n = k.entry d n ∧ frame (k'.entry d n) ≠ frame w := fun n hn hne hp => by
    have e := he.entry n (by omega)
    rw [if_neg hne] at e
    rw [e] at hp ⊢
    exact ⟨rfl, fun hf => hnew (.inr (.inr (.inr ⟨n, hn, hp, hf⟩)))⟩
  have hself : k'.entry d m = w := by rw [he.entry m (by omega), if_pos rfl]
  refine ⟨he.apart, fun n hn n' hn' hp hp' e => ?_, fun u hu => ?_⟩
  · by_contra hne
    obtain rfl | hnm := eq_or_ne n m
    · rw [hself] at e
      exact (hold n' hn' (fun e => hne e.symm) hp').2 e.symm
    · obtain ⟨e1, hf1⟩ := hold n hn hnm hp
      obtain rfl | hnm' := eq_or_ne n' m
      · rw [hself] at e
        exact hf1 e
      · obtain ⟨e2, -⟩ := hold n' hn' hnm' hp'
        rw [e1, e2] at e
        rw [e1] at hp
        rw [e2] at hp'
        exact hne (h.sole n hn n' hn' hp hp' e)
  · obtain (hfree | hin) | ⟨-, -, rfl⟩ := (he.account u).mp (.inr hu)
    · exact (h.free u hfree).1
    · exact h.page u hin
    · exact hv

theorem Tree.mapLoop (h : Tree k d) (hm : m + n ≤ userPages) (hperm : perm < 4096)
    (hv : ∀ j < n, Page (v + 4096 * j) ∧ ¬ Accounted k d (v + 4096 * j))
    (hr : mapLoop d perm n (4096 * m) (v2p v) k = .ok (true, k')) : Tree k' d := by
  have hua := userPages_le
  induction n generalizing m v k with
  | zero =>
    obtain ⟨-, rfl⟩ := pair_ok hr
    exact h
  | succ n ih =>
    obtain ⟨hpage, hnew⟩ := hv 0 (by omega)
    rw [Nat.mul_zero, Nat.add_zero] at hpage hnew
    obtain ⟨hfr, -⟩ := hpage.pte hperm
    by_cases hold : Present (k.entry d m)
    · rw [mapLoop_remap hold] at hr
      cases hr
    by_cases hroom : Present (k.pde d m) ∨ k.freelist ≠ []
    swap
    · obtain ⟨hp, hnil⟩ := not_or.mp hroom
      rw [mapLoop_full hp (not_not.mp hnil)] at hr
      cases hr
    obtain ⟨hfree, hin⟩ := not_or.mp hnew
    have huse : Usable k d v := ⟨hpage, fun e => hin (.inl e),
      noTable_iff.mpr fun x hx hp e => hin (.inr (.inl ⟨x, hx, hp, e⟩)), hfree⟩
    obtain ⟨k1, he, hr'⟩ := mapLoop_round (n := n) perm (v2p v) h.toApart (by omega : m < allPages) hold hroom
      fun _ => by rw [hfr]; exact huse
    have h1 : Tree k1 d := h.enter (by omega) (by rw [hfr]; exact hpage) (by rw [hfr]; exact hnew) he
    rw [hr'] at hr
    cases n with
    | zero =>
      obtain ⟨-, rfl⟩ := pair_ok hr
      exact h1
    | succ n =>
      obtain ⟨hpage1, -⟩ := hv 1 (by omega)
      rw [Nat.mul_one] at hpage1
      have ha : u32 (4096 * m + PGSIZE) = 4096 * (m + 1) := by
        unfold u32 PGSIZE
        unfold userPages at hm
        omega
      have hpa : u32 (v2p v + PGSIZE) = v2p (v + 4096) := by
        have hge := hpage.ge
        have hlt := hpage1.lt
        rw [hpage.v2p_eq, hpage1.v2p_eq]
        unfold u32 PGSIZE
        omega
      rw [ha, hpa] at hr
      refine ih (m := m + 1) (v := v + 4096) h1 (by omega) (fun j hj => ?_) hr
      obtain ⟨hpj, hnj⟩ := hv (j + 1) (by omega)
      rw [show v + 4096 + 4096 * j = v + 4096 * (j + 1) by omega]
      refine ⟨hpj, fun hacc => ?_⟩
      rw [he.account, hfr] at hacc
      obtain hacc | ⟨-, -, e⟩ := hacc
      · exact hnj hacc
      · omega

theorem mappages_pages {va size pa : ℕ} (hsize : 0 < size) (hva : va + size ≤ KERNBASE) :
    mappages k d va size pa perm =
      mapLoop d perm ((va + size - 1) / 4096 - va / 4096 + 1) (4096 * (va / 4096)) pa k := by
  have hk := kernbase_eq
  have ha : pgRoundDown va = 4096 * (va / 4096) := by
    unfold pgRoundDown PGSIZE
    omega
  have hlast : pgRoundDown (u32 (va + size + 2 ^ 32 - 1)) = 4096 * ((va + size - 1) / 4096) := by
    unfold pgRoundDown u32 PGSIZE
    omega
  have hn : u32 (4096 * ((va + size - 1) / 4096) + 2 ^ 32 - 4096 * (va / 4096)) / PGSIZE + 1 =
      (va + size - 1) / 4096 - va / 4096 + 1 := by
    unfold u32 PGSIZE
    omega
  unfold mappages
  dsimp only
  rw [hlast, ha, hn]

theorem Tree.congr (h : Tree k d) (hdir : k'.mem d = k.mem d)
    (hpr : ∀ m < userPages, (Present (k'.entry d m) ↔ Present (k.entry d m)) ∧ frame (k'.entry d m) = frame (k.entry d m))
    (hf : FreePages k') (hin : ∀ v, InSpace k d v → v ∉ k'.freelist) : Tree k' d := by
  have hspace : ∀ v, InSpace k' d v ↔ InSpace k d v := fun v => by
    unfold InSpace
    rw [hdir]
    refine or_congr_right (or_congr_right (exists_congr fun m => and_congr_right fun hm => ?_))
    rw [(hpr m hm).1, (hpr m hm).2]
  have htabled : Tabled k' d := by
    refine h.toTabled.edit hdir (fun v hv => ⟨hf.page v hv, ?_, ?_⟩) fun n hn hp => ?_
    · rintro rfl
      exact hin v (.inl rfl) hv
    · exact noTable_iff.mpr fun x hx hp e => hin v (.inr (.inl ⟨x, hx, hp, e⟩)) hv
    · rw [(hpr n hn).2]
      exact h.user n hn ((hpr n hn).1.mp hp)
  refine ⟨⟨htabled, hf.nodup, fun m hm hp => ?_⟩, fun m hm m' hm' hp hp' e => ?_, fun v hv => h.page v ((hspace v).mp hv)⟩
  · exact hin _ ((hspace _).mp (.inr (.inr ⟨m, hm, hp, rfl⟩)))
  · rw [(hpr m hm).2, (hpr m' hm').2] at e
    exact h.sole m hm m' hm' ((hpr m hm).1.mp hp) ((hpr m' hm').1.mp hp') e

theorem Tree.freePages (h : Tree k d) : FreePages k := ⟨h.nodup, fun v hv => (h.free v hv).1⟩

theorem Tree.clear {uva : ℕ} (h : Tree k d) (hu : uva < KERNBASE) (hr : clearpteu k d uva = .ok k') : Tree k' d := by
  have hua := userPages_le
  have hm : uva / 4096 < userPages := by
    have hk := kernbase_eq
    unfold userPages
    omega
  obtain ⟨hp, rfl⟩ := clearpteu_store hr
  generalize uva / 4096 = m at *
  obtain ⟨hdir, hent⟩ := h.rooted.entry_store (by omega : m < allPages) hp (k.entry d m - (k.entry d m &&& PTE_U))
  refine h.congr hdir (fun n hn => ?_) ⟨h.nodup, h.freePages.page⟩ fun v hv => h.not_free hv
  rw [hent n (by omega)]
  split_ifs with e
  · rw [e]
    exact ⟨present_clear_user _, frame_clear_user _⟩
  · exact ⟨Iff.rfl, rfl⟩

theorem Tree.other (h : Tree k d) (hdir : k'.mem d = k.mem d)
    (htab : ∀ x < 1024, Present (k.mem d x) → k'.mem (frame (k.mem d x)) = k.mem (frame (k.mem d x)))
    (hf : FreePages k') (hin : ∀ v, InSpace k d v → v ∉ k'.freelist) : Tree k' d := by
  refine h.congr hdir (fun m _ => ?_) hf hin
  have hent : k'.entry d m = k.entry d m := by
    unfold Kernel.entry
    rw [pde_congr hdir]
    split_ifs with hp
    · exact congrFun (htab _ (Nat.mod_lt _ (by decide)) hp) _
    · rfl
  rw [hent]
  exact ⟨Iff.rfl, rfl⟩

theorem Assembled.tree (h : Assembled d k) : Tree k d := by
  induction h with
  | setup h hr => exact (h.setupkvm_some hr).tree h
  | map h hsize hva hperm hv hr ih =>
    have hk := kernbase_eq
    rw [mappages_pages hsize hva] at hr
    exact ih.mapLoop (by unfold userPages; omega) hperm (fun j hj => hv j (by omega)) hr
  | clear h hu hr ih => exact ih.clear hu hr
  | other h hdir htab hf hin ih => exact ih.other hdir htab hf hin

/-- A page is taken from the free list, filled and mapped. -/
theorem Assembled.page {l : List ℕ} (h : Assembled d k) (hl : k.freelist = v :: l) (hm : m < userPages)
    (f : ℕ → ℕ) (hnew : ¬ Present (k.entry d m)) (hroom : Present (k.pde d m) ∨ l ≠ []) (hperm : perm < 4096) :
    ∃ k', mappages (({ k with freelist := l } : Kernel).setPage v f) d (4096 * m) PGSIZE (v2p v) perm = .ok (true, k') ∧
      Assembled d k' ∧ NewPage k k' d m v f perm := by
  have ht := h.tree
  obtain ⟨h1, huse, hdir, hent, -⟩ := ht.toApart.take hl f
  obtain ⟨k', hr, hn⟩ := mappages_new ht.toApart hl hm f hnew hroom hperm
  have htake : Assembled d (({ k with freelist := l } : Kernel).setPage v f) := by
    refine h.other hdir (fun x hx hp => ?_) ⟨h1.nodup, fun u hu => (h1.free u hu).1⟩ fun u hu hin => ht.not_free hu ?_
    · obtain ⟨-, -, hnt⟩ := ht.free v (by rw [hl]; exact mem_cons_self)
      rw [Kernel.setPage_mem, Function.update_of_ne (noTable_iff.mp hnt x hx hp)]
    · rw [hl]
      exact mem_cons_of_mem v hin
  refine ⟨k', hr, htake.map (by decide) ?_ hperm (fun j hj => ?_) hr, hn⟩
  · have hk := kernbase_eq
    unfold PGSIZE
    unfold userPages at hm
    omega
  · obtain rfl : j = 0 := by
      unfold PGSIZE at hj
      omega
    refine ⟨huse.page, not_or.mpr ⟨huse.free, fun hin => ht.not_free (v := v) ?_ (by rw [hl]; exact mem_cons_self)⟩⟩
    unfold InSpace at hin
    rw [hdir] at hin
    simp only [hent] at hin
    exact hin

/-- **`freevm` returns everything once.** -/
theorem freevm_once (h : Assembled d k) : ∃ l k', freevmTrace k d = .ok (l, k') ∧ freevm k d = .ok k' ∧
    (frees l).Nodup ∧ (∀ v, v ∈ frees l ↔ InSpace k d v) ∧ Orderly l ∧
    k'.freelist = (frees l).reverse ++ k.freelist := by
  obtain ⟨l, k', hf⟩ := h.tree.freesAll
  exact ⟨l, k', hf.trace, hf.result, hf.orderly.nodup, hf.frees, hf.orderly, hf.freelist⟩

/-- A new directory with one page. -/
theorem freevm_once_page : ∃ d k, Assembled d k ∧ Present (k.entry d 0) ∧ ∃ l k', freevmTrace k d = .ok (l, k') ∧
    freevm k d = .ok k' ∧ (frees l).Nodup ∧ (∀ v, v ∈ frees l ↔ InSpace k d v) ∧ Orderly l ∧
    k'.freelist = (frees l).reverse ++ k.freelist := by
  have hf : FreePages boot := ⟨boot_freelist_nodup, fun v hv => boot_freelist_page hv⟩
  have hlen := boot_freelist_length
  obtain ⟨-, d, k, hr, hk⟩ | ⟨hlt, -⟩ := setupkvm_cases hf
  · have hlen' := hk.length
    obtain ⟨v, l, hl⟩ := exists_cons_of_ne_nil (length_pos_iff.mp (by omega : 0 < k.freelist.length))
    have hne : l ≠ [] := fun e => by
      rw [hl, e, length_singleton] at hlen'
      omega
    have hnew : ¬ Present (k.entry d 0) := by
      rw [hk.entry 0 (by decide), kernEntry_user (by decide)]
      exact not_present_zero
    obtain ⟨k1, -, h1, hn⟩ := (Assembled.setup hf hr).page hl (by decide : 0 < userPages) (fun _ => 0) hnew (.inr hne)
      (by decide : PTE_W ||| PTE_U < 4096)
    refine ⟨d, k1, h1, ?_, freevm_once h1⟩
    rw [hn.entry 0 (by decide), if_pos rfl]
    exact ((hk.apart.free v (by rw [hl]; exact mem_cons_self)).1.pte (by decide)).2
  · omega

end

end Xv6.Vm
