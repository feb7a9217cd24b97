import Xv6.Vm.Grow
import Xv6.Vm.Setup
import Xv6.Vm.Tables

/-! # `copyuvm` copies into pages of its own

`copyuvm` fills a new directory from the free list, so the pages it uses are none of the parent's. What is free
or belongs to the new directory stays the same set of pages all along (`Accounted`), and no page outside of it is
written: this is what keeps the parent as it was (`Beside`), and so the copy true. -/

namespace Xv6.Vm

open Fallible Option

/-- No page of the address space `src` is free or belongs to `d`. -/
def Beside (k : Kernel) (d src : ℕ) : Prop := ∀ v, InSpace k src v → ¬ Accounted k d v

section
variable {k k' k1 : Kernel} {d src lo c m n v : ℕ} {f : ℕ → ℕ → ℕ}

theorem InSpace.congr (h : ∀ v, InSpace k src v → k'.mem v = k.mem v) :
    (∀ m, k'.entry src m = k.entry src m) ∧ ∀ v, InSpace k' src v ↔ InSpace k src v := by
  have hdir : k'.mem src = k.mem src := h src (.inl rfl)
  have hent : ∀ m, k'.entry src m = k.entry src m := fun m => by
    unfold Kernel.entry
    rw [pde_congr hdir]
    split_ifs with hp
    · exact congrFun (h _ (.inr (.inl ⟨m / 1024 % 1024, Nat.mod_lt _ (by decide), hp, rfl⟩))) _
    · rfl
  refine ⟨hent, fun v => ?_⟩
  unfold InSpace
  rw [hdir]
  simp only [hent]

/-- A page that is neither free nor the directory's is not written. -/
theorem NewPage.mem_other {perm : ℕ} {g : ℕ → ℕ} (hn : NewPage k k' d m v g perm) {u : ℕ} (hu : ¬ Accounted k d u) :
    k'.mem u = k.mem u := by
  obtain ⟨hfree, hin⟩ := not_or.mp hu
  exact hn.mem u hfree (fun e => hin (.inl e)) (noTable_iff.mpr fun x hx hp e => hin (.inr (.inl ⟨x, hx, hp, e⟩)))

theorem Grows.mem_other (hg : Grows k k' d lo c f) {u : ℕ} (hu : ¬ Accounted k d u) : k'.mem u = k.mem u := by
  obtain ⟨hfree, hin⟩ := not_or.mp hu
  exact hg.mem u hfree (fun e => hin (.inl e)) (noTable_iff.mpr fun x hx hp e => hin (.inr (.inl ⟨x, hx, hp, e⟩)))

/-- `src` is as before, and still beside `d`. -/
def Bystander (k k' : Kernel) (d src : ℕ) : Prop :=
  Beside k' d src ∧ (∀ m, k'.entry src m = k.entry src m) ∧ ∀ u, InSpace k src u → k'.mem u = k.mem u

theorem Bystander.of_mem (hmem : ∀ u, InSpace k src u → k'.mem u = k.mem u)
    (hb : ∀ u, InSpace k src u → ¬ Accounted k' d u) : Bystander k k' d src := by
  obtain ⟨hent, hin⟩ := InSpace.congr hmem
  exact ⟨fun u hu => hb u ((hin u).mp hu), hent, hmem⟩

theorem Beside.newPage {perm : ℕ} {g : ℕ → ℕ} (hb : Beside k d src) (hn : NewPage k k' d m v g perm) :
    Bystander k k' d src := by
  refine .of_mem (fun u hu => hn.mem_other (hb u hu)) fun u hu => ?_
  rw [hn.account]
  exact hb u hu

theorem Beside.grows (hb : Beside k d src) (hg : Grows k k' d lo c f) : Bystander k k' d src := by
  refine .of_mem (fun u hu => hg.mem_other (hb u hu)) fun u hu => ?_
  rw [hg.account]
  exact hb u hu

theorem Beside.of_kernelHalf (hk : KernelHalf k k' d) (huse : ∀ v, InSpace k src v → v ∉ k.freelist) :
    Bystander k k' d src := by
  refine .of_mem (fun u hu => hk.mem u (huse u hu)) fun u hu => ?_
  rw [hk.account]
  exact huse u hu

/-! ### The loop -/

/-- One round of the loop of `copyuvm`, without memory. -/
theorem copyLoop_full (hpr : Present (k.entry src m)) (hl : k.freelist = []) :
    copyLoop src d (n + 1) (4096 * m) k = .ok (false, k) := by
  have e4 : 4096 * m / 4096 = m := by omega
  have hp := pde_of_entry hpr
  rw [copyLoop, walkpgdir_false, e4, if_pos hp]
  dsimp only
  rw [← entry_of_present hp, if_neg (fun e => (present_and _).mpr hpr e), kalloc_nil hl]

/-- One round of the loop of `copyuvm`, when there is a page. -/
theorem copyLoop_round {b : Bool} {l : List ℕ} (hpr : Present (k.entry src m)) (hl : k.freelist = v :: l)
    (hr : mappages (({ k with freelist := l } : Kernel).setPage v (k.mem (frame (k.entry src m)))) d (4096 * m) PGSIZE
      (v2p v) (PTE_W ||| PTE_U) = .ok (b, k')) :
    copyLoop src d (n + 1) (4096 * m) k =
      if b = true then copyLoop src d n (4096 * (m + 1)) k' else .ok (false, k') := by
  have e4 : 4096 * m / 4096 = m := by omega
  have hnext : 4096 * m + PGSIZE = 4096 * (m + 1) := by unfold PGSIZE; omega
  have hp := pde_of_entry hpr
  rw [copyLoop, walkpgdir_false, e4, if_pos hp]
  dsimp only
  rw [← entry_of_present hp, if_neg (fun e => (present_and _).mpr hpr e), frame_eq, hnext, kalloc_cons hl]
  dsimp only
  rw [hr]
  rfl

/-- **The loop of `copyuvm`**: after `c` pages it is at its end, or there is no page left, or there is one left and a
table is missing. -/
theorem copyLoop_cases (h : Apart k d) (hb : Beside k d src) (hu : lo + n ≤ userPages)
    (hfull : ∀ m, lo ≤ m → m < lo + n → Present (k.entry src m))
    (hnew : ∀ m, lo ≤ m → m < lo + n → ¬ Present (k.entry d m)) :
    ∃ c k1, c ≤ n ∧ Grows k k1 d lo c (fun m => k.mem (frame (k.entry src m))) ∧
      ((c = n ∧ copyLoop src d n (4096 * lo) k = .ok (true, k1)) ∨
        (c < n ∧ k1.freelist = [] ∧ copyLoop src d n (4096 * lo) k = .ok (false, k1)) ∨
        ∃ v g, c < n ∧ k1.freelist = [v] ∧ ¬ Present (k1.pde d (lo + c)) ∧
          copyLoop src d n (4096 * lo) k = .ok (false, k1.lost v g)) := by
  have hua := userPages_le
  induction n generalizing lo k with
  | zero => exact ⟨0, k, le_refl 0, .zero h lo _, .inl ⟨rfl, rfl⟩⟩
  | succ n ih =>
    have hpr := hfull lo (le_refl lo) (by omega)
    cases hl : k.freelist with
    | nil => exact ⟨0, k, Nat.zero_le _, .zero h lo _, .inr (.inl ⟨by omega, hl, copyLoop_full hpr hl⟩)⟩
    | cons v l =>
      by_cases hroom : Present (k.pde d lo) ∨ l ≠ []
      · obtain ⟨k1, hr, hn⟩ := mappages_new (m := lo) h hl (by omega) (k.mem (frame (k.entry src lo)))
          (hnew lo (le_refl lo) (by omega)) hroom (by decide : PTE_W ||| PTE_U < 4096)
        obtain ⟨hb1, hent, hmem⟩ := hb.newPage hn
        obtain ⟨c, k2, hc, hg, hcase⟩ := ih hn.apart hb1 (by omega : lo + 1 + n ≤ userPages)
          (fun m hm1 hm2 => by rw [hent]; exact hfull m (by omega) (by omega)) fun m hm1 hm2 => by
            rw [hn.entry m (by omega), if_neg (by omega)]
            exact hnew m (by omega) (by omega)
        have hg : Grows k1 k2 d (lo + 1) c fun m => k.mem (frame (k.entry src m)) := by
          refine hg.congr fun m hm1 hm2 => ?_
          have hprm := hfull m (by omega) (by omega)
          rw [hent, hmem _ (.inr (.inr ⟨m, by omega, hprm, rfl⟩))]
        refine ⟨c + 1, k2, by omega, .succ (f := fun m => k.mem (frame (k.entry src m))) h hl (by omega) hn hg, ?_⟩
        rw [show lo + (c + 1) = lo + 1 + c by omega, Nat.add_right_cancel_iff, Nat.add_lt_add_iff_right,
          copyLoop_round hpr hl hr, if_pos rfl]
        exact hcase
      · obtain ⟨hp, hnil⟩ := not_or.mp hroom
        obtain rfl : l = [] := not_not.mp hnil
        refine ⟨0, k, Nat.zero_le _, .zero h lo _, .inr (.inr ⟨v, k.mem (frame (k.entry src lo)), by omega, hl, hp, ?_⟩)⟩
        exact copyLoop_round hpr hl (mappages_lost h hl (by omega) _ hp)

theorem copyLoop_add (a b i : ℕ) (k : Kernel) : copyLoop src d (a + b) i k = (do
    let (ok, k) ← copyLoop src d a i k
    if ok = true then copyLoop src d b (i + PGSIZE * a) k else .ok (false, k)) := by
  induction a generalizing i k with
  | zero =>
    rw [Nat.zero_add]
    rfl
  | succ a ih =>
    have hnext : i + PGSIZE + PGSIZE * a = i + PGSIZE * (a + 1) := by
      unfold PGSIZE
      omega
    rw [show a + 1 + b = a + b + 1 by omega, copyLoop, copyLoop]
    cases (walkpgdir k src i false).1 with
    | none => rfl
    | some tj =>
      dsimp only
      split_ifs
      · rfl
      · cases hl : k.freelist with
        | nil =>
          rw [kalloc_nil hl]
          rfl
        | cons v l =>
          rw [kalloc_cons hl]
          dsimp only
          cases hm : mappages (({ k with freelist := l } : Kernel).setPage v _) d i PGSIZE (v2p v) (PTE_W ||| PTE_U) with
          | error e => rfl
          | ok r =>
            obtain ⟨ok, k2⟩ := r
            cases ok with
            | false => rfl
            | true =>
              have := ih (i + PGSIZE) k2
              rw [hnext] at this
              exact this

theorem copyLoop_hole (hpr : ¬ Present (k.entry src m)) : ∃ e, copyLoop src d (n + 1) (4096 * m) k = .error e := by
  have e4 : 4096 * m / 4096 = m := by omega
  rw [copyLoop, walkpgdir_false, e4]
  by_cases hp : Present (k.pde src m)
  · rw [if_pos hp]
    dsimp only
    rw [← entry_of_present hp, if_pos (not_not.mp fun hne => hpr ((present_and _).mp hne))]
    exact ⟨_, rfl⟩
  · rw [if_neg hp]
    exact ⟨_, rfl⟩

/-- At the first page of the kernel half the loop ends, and if it returns at all then for want of memory. -/
theorem copyLoop_kernel {b : Bool} (h : Apart k d) (hpr : Present (k.entry d userPages))
    (hr : copyLoop src d (n + 1) (4096 * userPages) k = .ok (b, k')) : b = false ∧ k' = k ∧ k.freelist = [] := by
  by_cases hsrc : Present (k.entry src userPages)
  swap
  · obtain ⟨e, he⟩ := copyLoop_hole (d := d) (n := n) hsrc
    rw [he] at hr
    cases hr
  cases hl : k.freelist with
  | nil =>
    rw [copyLoop_full hsrc hl] at hr
    obtain ⟨rfl, rfl⟩ := pair_ok hr
    exact ⟨rfl, rfl, rfl⟩
  | cons v l =>
    obtain ⟨-, -, -, hent, -⟩ := h.take hl (k.mem (frame (k.entry src userPages)))
    have hmap : mappages (({ k with freelist := l } : Kernel).setPage v (k.mem (frame (k.entry src userPages)))) d
        (4096 * userPages) PGSIZE (v2p v) (PTE_W ||| PTE_U) = .error (.panic "remap") := by
      rw [mappages_eq 1 (by decide) (by decide), mapLoop_remap]
      rw [hent]
      exact hpr
    have e4 : 4096 * userPages / 4096 = userPages := by decide
    have hp := pde_of_entry hsrc
    rw [copyLoop, walkpgdir_false, e4, if_pos hp] at hr
    dsimp only at hr
    rw [← entry_of_present hp, if_neg (fun e => (present_and _).mpr hsrc e), frame_eq, kalloc_cons hl] at hr
    dsimp only at hr
    rw [hmap] at hr
    cases hr

/-! ### The copy -/

/-- The address space `d` is a copy of the first `sz` bytes of `src`, in pages of its own. -/
structure Isolated (k k' : Kernel) (src d sz : ℕ) : Prop where
  copied : ∀ m, 4096 * m < sz → ∃ v ∈ k.freelist, k'.entry d m = v2p v ||| (PTE_W ||| PTE_U ||| PTE_P) ∧
    k'.mem v = k.mem (frame (k.entry src m))
  frames : ∀ m < userPages, ∀ m' < userPages, Present (k'.entry d m) → Present (k'.entry d m') →
    frame (k'.entry d m) = frame (k'.entry d m') → m = m'
  tables : ∀ x < 1024, ∀ x' < 1024, Present (k'.mem d x) → Present (k'.mem d x') →
    frame (k'.mem d x) = frame (k'.mem d x') → x = x'
  apart : (∀ x < 1024, Present (k'.mem d x) → frame (k'.mem d x) ≠ d) ∧
    ∀ m < userPages, Present (k'.entry d m) → frame (k'.entry d m) ≠ d ∧
      ∀ x < 1024, Present (k'.mem d x) → frame (k'.mem d x) ≠ frame (k'.entry d m)
  space : ∀ v, InSpace k' d v → v ∈ k.freelist ∧ v ∉ k'.freelist ∧ ¬ InSpace k src v
  kernel : ∀ m, userPages ≤ m → m < allPages → k'.entry d m = kernEntry m ∧
    ∀ k0 k0' d0, FreePages k0 → setupkvm k0 = .ok (some d0, k0') → k'.entry d m = k0'.entry d0 m
  rest : ∀ m < userPages, sz ≤ 4096 * m → ¬ Present (k'.entry d m)
  parent : ∀ m, k'.entry src m = k.entry src m
  mem : ∀ v ∉ k.freelist, k'.mem v = k.mem v
  free : Linked k.mem k.freelist → Linked k'.mem k'.freelist

theorem kernEntry_first : Present (kernEntry userPages) := by decide

/-- In a directory that has only the kernel's mappings the loop goes no further than the user half. -/
theorem copyLoop_user (hk : KernelHalf k k1 d) (hb : Beside k1 d src) (hfull : ∀ m < n, Present (k1.entry src m))
    (hr : copyLoop src d n 0 k1 = .ok (true, k')) : n ≤ userPages := by
  have hua : userPages < allPages := by decide
  by_contra hlt
  obtain ⟨b, rfl⟩ := Nat.exists_eq_add_of_lt (not_le.mp hlt)
  rw [Nat.add_assoc, copyLoop_add] at hr
  obtain ⟨⟨ok, k2⟩, h2, hrest⟩ := bind_ok hr
  dsimp only at hrest
  obtain ⟨c, k3, hc, hg, hcase⟩ := copyLoop_cases hk.apart hb (by omega : 0 + userPages ≤ userPages)
    (fun m _ hm => hfull m (by omega)) fun m _ hm => by
      rw [hk.entry m (by omega), kernEntry_user (by omega)]
      exact not_present_zero
  obtain ⟨rfl, hr'⟩ | ⟨-, -, hr'⟩ | ⟨v, g, -, -, -, hr'⟩ := hcase
  · obtain ⟨rfl, rfl⟩ := pair_ok (h2.symm.trans hr')
    have hpr : Present (k2.entry d userPages) := by
      rw [hg.old _ hua (by omega), hk.entry _ hua]
      exact kernEntry_first
    cases (copyLoop_kernel hg.apart hpr hrest).1
  · obtain ⟨rfl, rfl⟩ := pair_ok (h2.symm.trans hr')
    cases hrest
  · obtain ⟨rfl, rfl⟩ := pair_ok (h2.symm.trans hr')
    cases hrest

/-- What the loop leaves in a new directory is a copy. -/
theorem Grows.isolated {sz : ℕ} (hk : KernelHalf k k1 d) (huse : ∀ v, InSpace k src v → v ∉ k.freelist)
    (hg : Grows k1 k' d 0 ((sz + 4095) / 4096) fun m => k.mem (frame (k.entry src m)))
    (hsz : (sz + 4095) / 4096 ≤ userPages) : Isolated k k' src d sz := by
  have hua := userPages_le
  obtain ⟨hb1, hent1, hmem1⟩ := Beside.of_kernelHalf hk huse
  obtain ⟨hb', hent', hmem'⟩ := hb1.grows hg
  have hsub : ∀ v ∈ k1.freelist, v ∈ k.freelist := fun v hv => List.mem_of_mem_tail (hk.suffix.subset hv)
  have hacc : ∀ v, Accounted k' d v ↔ v ∈ k.freelist := fun v => (hg.account v).trans (hk.account v)
  have hold : ∀ m < userPages, Present (k'.entry d m) → m < (sz + 4095) / 4096 := fun m hm hpr => by
    by_contra hge
    rw [hg.old m (by omega) (by omega), hk.entry m (by omega), kernEntry_user hm] at hpr
    exact not_present_zero hpr
  refine ⟨fun m hm => ?_, fun m hm m' hm' hpr hpr' e => ?_, fun x hx x' hx' hp hp' e => ?_, ⟨?_, fun m hm hpr => ?_⟩,
    fun v hv => ⟨?_, ?_, ?_⟩, fun m hm hm' => ?_, fun m hm hsz hpr => ?_, fun m => ?_, fun v hv => ?_, fun hl => ?_⟩
  · obtain ⟨v, hv, he, hf⟩ := hg.new m (Nat.zero_le m) (by omega)
    exact ⟨v, hsub v hv, he, hf⟩
  · have hlt := hold m hm hpr
    have hlt' := hold m' hm' hpr'
    exact hg.inj m m' (Nat.zero_le m) (by omega) (Nat.zero_le m') (by omega) e
  · have := hg.apart.apart (1024 * x) (1024 * x')
    unfold Kernel.pde at this
    rw [show 1024 * x / 1024 % 1024 = x by omega, show 1024 * x' / 1024 % 1024 = x' by omega] at this
    exact this hp hp' e
  · exact noTable_iff.mp hg.apart.self
  · obtain ⟨-, hne, hnt⟩ := hg.apart.user m hm hpr
    exact ⟨hne, noTable_iff.mp hnt⟩
  · exact (hacc v).mp (.inr hv)
  · exact hg.apart.not_free hv
  · exact fun hin => huse v hin ((hacc v).mp (.inr hv))
  · have hkern : k'.entry d m = kernEntry m := by rw [hg.old m hm' (by omega), hk.entry m hm']
    refine ⟨hkern, fun k0 k0' d0 h0 hr0 => ?_⟩
    rw [hkern, (h0.setupkvm_some hr0).entry m hm']
  · have := hold m hm hpr
    omega
  · rw [hent', hent1]
  · rw [hg.mem_other fun ha => hv ((hk.account v).mp ha), hk.mem v hv]
  · have hl1 := (hl.suffix (hk.suffix.trans (List.tail_suffix _))).congr hk.rest
    exact (hl1.suffix hg.suffix).congr hg.rest

/-- **`copyuvm` copies into isolation.** -/
theorem copyuvm_isolated {sz : ℕ} (h : FreePages k) (huse : ∀ v, InSpace k src v → v ∉ k.freelist)
    (hfull : ∀ m, 4096 * m < sz → Present (k.entry src m)) (hr : copyuvm k src sz = .ok (some d, k')) :
    Isolated k k' src d sz := by
  have hua := userPages_le
  have hpages : (sz + PGSIZE - 1) / PGSIZE = (sz + 4095) / 4096 := by
    unfold PGSIZE
    omega
  unfold copyuvm at hr
  rw [hpages] at hr
  obtain ⟨⟨r, k1⟩, e1, hr⟩ := bind_ok hr
  cases r with
  | none => cases hr
  | some d' =>
    have hk := h.setupkvm_some e1
    obtain ⟨⟨ok, k2⟩, e2, hr⟩ := bind_ok hr
    cases ok with
    | false =>
      obtain ⟨k3, -, hr⟩ := bind_ok hr
      cases hr
    | true =>
      obtain ⟨e, rfl⟩ := pair_ok hr
      obtain rfl := some.inj e
      obtain ⟨hb, hent, hmem⟩ := Beside.of_kernelHalf hk huse
      have hfull1 : ∀ m < (sz + 4095) / 4096, Present (k1.entry src m) := fun m hm => by
        rw [hent]
        exact hfull m (by omega)
      have hsz := copyLoop_user hk hb hfull1 e2
      obtain ⟨c, k3, hc, hg, hcase⟩ := copyLoop_cases hk.apart hb
        (by omega : 0 + (sz + 4095) / 4096 ≤ userPages)
        (fun m _ hm => hfull1 m (by omega)) fun m _ hm => by
          rw [hk.entry m (by omega), kernEntry_user (by omega)]
          exact not_present_zero
      obtain ⟨rfl, hr'⟩ | ⟨-, -, hr'⟩ | ⟨v, g, -, -, -, hr'⟩ := hcase
      · obtain ⟨-, rfl⟩ := pair_ok (e2.symm.trans hr')
        refine Grows.isolated hk huse (hg.congr fun m _ hm => ?_) hsz
        rw [hent, hmem _ (.inr (.inr ⟨m, by omega, hfull m (by omega), rfl⟩))]
      · cases (pair_ok (e2.symm.trans hr')).1
      · cases (pair_ok (e2.symm.trans hr')).1

/-- Init's memory is copied. -/
theorem copyuvm_isolated_init : ∃ d k', copyuvm boot (boot.dirOf initproc) 4096 = .ok (some d, k') ∧
    Isolated boot k' (boot.dirOf initproc) d 4096 := by
  have h : Apart boot (boot.dirOf initproc) := inv_boot.wf.apart (inv_boot.dir initproc (by decide))
  have htest : (copySpace boot (boot.dirOf initproc) 4096).isSome = true := by decide +kernel
  obtain ⟨⟨d, k'⟩, hs⟩ := isSome_iff_exists.mp htest
  have hr := copyuvm_of_copySpace hs
  refine ⟨d, k', hr, copyuvm_isolated ⟨h.nodup, fun v hv => (h.free v hv).1⟩ (fun v hv => h.not_free hv) (fun m hm => ?_) hr⟩
  obtain rfl : m = 0 := by omega
  decide +kernel

end

end Xv6.Vm
