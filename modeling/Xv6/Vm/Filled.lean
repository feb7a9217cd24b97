import Xv6.Vm.Held

/-! # How many pages an address space has taken

`fork` and `exec` fill a new directory from page number 0 on, so the number of free pages tells how far they have
got (`Laid`). The page for which `mappages` finds no table is lost, in `copyuvm` as well as in `allocuvm`; that
happens exactly if memory runs out at a page table (`EndsAt`), and it is the last page of the space then. -/

namespace Xv6.Vm

open Fallible Finset Option

/-- Memory runs out at the table of page number `m`. -/
def EndsAt (M m : ℕ) : Prop := m % 1024 = 0 ∧ M = cost m + 1
deriving Decidable

/-- The pages that were free in `k0` are free or in the directory, all of them unless one has been lost. -/
def Saved (k0 k : Kernel) (d : ℕ) (lost : Prop) : Prop :=
  ∃ S, Held k0 k d S ∧ ((∀ v ∈ k0.freelist, S v) ↔ ¬ lost)

/-- The first `p` pages of the space have been asked for when `M` pages were free. They are mapped, with their tables
and nothing else, but for the last one if it is lost. -/
structure Laid (k0 k : Kernel) (d p M : ℕ) : Prop where
  saved : Saved k0 k d (∃ m < p, EndsAt M m)
  top : p ≤ userPages
  mapped : ∀ m < userPages, Present (k.entry d m) ↔ m < held M p
  user : ∀ m < userPages, Present (k.entry d m) → k.entry d m / 4 % 2 = 1
  tables : ∀ x < 1024, Present (k.mem d x) ↔ HasTables M p x
  free : k.freelist.length = M - cost p
  affords : Affords M p

section
variable {k0 k k' k1 : Kernel} {d p c m n v M sz : ℕ} {P Q : Prop} {f : ℕ → ℕ → ℕ}

/-! ### Counting -/

theorem cost_mono {a b : ℕ} (h : a ≤ b) : cost a ≤ cost b := by
  unfold cost
  omega

theorem held_le (M p : ℕ) : held M p ≤ p := by
  unfold held
  split_ifs
  · exact le_refl p
  · exact Nat.sub_le p 1

/-- A page is lost if the pages and tables cost more than there was. -/
theorem endsAt_iff (h : Affords M p) : (∃ m < p, EndsAt M m) ↔ ¬ cost p ≤ M := by
  unfold EndsAt
  constructor
  · rintro ⟨m, hm, h0, hM⟩
    have := cost_mono (show m + 1 ≤ p from hm)
    unfold cost at *
    omega
  · intro hc
    obtain ⟨hM, h1⟩ := h.resolve_left hc
    refine ⟨p - 1, ?_⟩
    unfold cost at *
    omega

theorem not_endsAt (h : ¬ Affords M p) (hm : p ≤ m) : ¬ EndsAt M m := by
  rintro ⟨-, hM⟩
  have := cost_mono hm
  exact h (.inl (by omega))

theorem pages_mono {a b : ℕ} (h : a ≤ b) : pages a ≤ pages b := by
  unfold pages
  omega

theorem pages_user (h : sz ≤ KERNBASE) : pages sz ≤ userPages := by
  unfold pages userPages KERNBASE at *
  omega

theorem pages_mul (n : ℕ) : pages (4096 * n) = n := by
  unfold pages
  omega

/-! ### The space -/

theorem Saved.congr (h : Saved k0 k d P) (hh : ∀ {S}, Held k0 k d S → Held k0 k' d S) (hP : P ↔ Q) : Saved k0 k' d Q := by
  obtain ⟨S, hS, hall⟩ := h
  exact ⟨S, hh hS, hall.trans (not_congr hP)⟩

theorem Laid.tree (h : Laid k0 k d p M) : Tree k d := by
  obtain ⟨S, hS, -⟩ := h.saved
  exact hS.tree

theorem Laid.pde (h : Laid k0 k d p M) (hm : m < allPages) : Present (k.pde d m) ↔ HasTables M p (m / 1024) := by
  rw [pde_eq_mem hm]
  exact h.tables _ (by unfold allPages at hm; omega)

theorem KernelHalf.laid (h : FreePages k0) (hk : KernelHalf k0 k d) : Laid k0 k d 0 (k0.freelist.length - 65) := by
  have hua := userPages_le
  have hheld : Vm.held (k0.freelist.length - 65) 0 = 0 := if_pos (Nat.zero_le _)
  have hnone : ∀ m < userPages, ¬ Present (k.entry d m) := fun m hm => by
    rw [hk.entry m (by omega), kernEntry_user hm]
    exact not_present_zero
  refine ⟨⟨_, hk.held h, iff_of_true (fun _ hv => hv) nofun⟩, Nat.zero_le _, fun m hm => ?_,
    fun m hm hpr => absurd hpr (hnone m hm), fun x hx => ?_, ?_, .inl (Nat.zero_le _)⟩
  · rw [hheld]
    exact iff_of_false (hnone m hm) (Nat.not_lt_zero m)
  · have := congrArg (x ∈ ·) hk.tables
    simp only [mem_tables, hx, true_and, eq_iff_iff] at this
    rw [this, HasTables, hheld]
    simp
  · have := hk.length
    unfold cost
    omega

theorem Laid.sameTables (h : Laid k0 k d p M) (hh : ∀ {S}, Held k0 k d S → Held k0 k' d S)
    (hs : SameTables k k' d) : Laid k0 k' d p M := by
  refine ⟨h.saved.congr hh Iff.rfl, h.top, ?_, ?_, ?_, ?_, h.affords⟩
  · simp only [hs.entry]
    exact h.mapped
  · simp only [hs.entry]
    exact h.user
  · rw [hs.dir]
    exact h.tables
  · rw [hs.freelist]
    exact h.free

theorem Laid.grows (h : Laid k0 k d p M) (hc : cost p ≤ M) (hg : Grows k k' d p c f) (hu : p + c ≤ userPages) :
    cost (p + c) ≤ M ∧ Laid k0 k' d (p + c) M := by
  have hua := userPages_le
  have hheld : held M p = p := if_pos hc
  have hmiss : (missingTables k d p (p + c)).card = (p + c + 1023) / 1024 - (p + 1023) / 1024 := by
    have he : missingTables k d p (p + c) = Finset.Ico ((p + 1023) / 1024) ((p + c + 1023) / 1024) := by
      ext x
      unfold missingTables
      rw [mem_filter, mem_image, mem_Ico]
      unfold userPages at hu
      constructor
      · rintro ⟨⟨i, hi, rfl⟩, hp⟩
        rw [mem_Ico] at hi
        rw [h.tables _ (by omega), HasTables, not_or, hheld] at hp
        omega
      · rintro ⟨hx1, hx2⟩
        refine ⟨⟨1024 * x, mem_Ico.mpr (by omega), by omega⟩, ?_⟩
        rw [h.tables x (by omega), HasTables, hheld, kernTables, mem_union, mem_Ico, mem_Ico]
        omega
    rw [he, Nat.card_Ico]
  have hcost : k'.freelist.length + cost (p + c) = M := by
    have hlen := hg.length
    have hfree := h.free
    unfold cost at *
    omega
  have hc' : cost (p + c) ≤ M := by omega
  have hheld' : held M (p + c) = p + c := if_pos hc'
  refine ⟨hc', h.saved.congr (fun hS => hS.grows hg hu) ?_, hu, fun m hm => ?_, fun m hm => ?_, fun x hx => ?_,
    by omega, .inl hc'⟩
  · rw [endsAt_iff h.affords, endsAt_iff (.inl hc')]
    exact iff_of_false (not_not.mpr hc) (not_not.mpr hc')
  · rw [hheld']
    by_cases hin : p ≤ m ∧ m < p + c
    · exact iff_of_true (hg.page h.tree.toApart hin.1 hin.2).1 hin.2
    · rw [hg.old m (by omega) (by omega), h.mapped m hm, hheld]
      omega
  · by_cases hin : p ≤ m ∧ m < p + c
    · obtain ⟨v, hv, he, -⟩ := hg.new m hin.1 hin.2
      have hpage := (h.tree.free v hv).1
      have ha := hpage.v2p_aligned
      have e7 : PTE_W ||| PTE_U ||| PTE_P = 7 := by decide
      rw [he, hpage.or_flags (by decide), e7]
      omega
    · rw [hg.old m (by omega) (by omega)]
      exact h.user m hm
  · rw [hg.tables x hx, h.tables x hx, HasTables, HasTables, hheld, hheld', or_right_comm]
    refine or_congr_left ?_
    constructor
    · rintro (hx' | ⟨i, hi1, hi2, rfl⟩)
      · omega
      · omega
    · intro hx'
      obtain hlt | hge := Nat.lt_or_ge x ((p + 1023) / 1024)
      · exact .inl hlt
      · exact .inr ⟨1024 * x, by omega, by omega, by omega⟩

/-- The last free page is lost where its table is missing. -/
theorem Laid.lose (h : Laid k0 k d p M) (hl : k.freelist = [v]) (hu : p < userPages) (hp : ¬ Present (k.pde d p))
    (g : ℕ → ℕ) : EndsAt M p ∧ Laid k0 (k.lost v g) d (p + 1) M := by
  have hua := userPages_le
  have hlen := h.free
  rw [hl, List.length_singleton] at hlen
  have hheld : held M p = p := if_pos (by omega)
  rw [h.pde (by omega), HasTables, hheld, not_or] at hp
  have hend : EndsAt M p := ⟨by omega, by omega⟩
  have hcost : cost (p + 1) = M + 1 := by
    obtain ⟨h0, hM⟩ := hend
    unfold cost at *
    omega
  have hheld' : held M (p + 1) = p := if_neg (by omega)
  obtain ⟨-, -, hdir, hent, -⟩ := h.tree.toApart.take hl g
  have hdir : (k.lost v g).mem d = k.mem d := hdir
  have hent : ∀ n, (k.lost v g).entry d n = k.entry d n := hent
  refine ⟨hend, ?_, hu, ?_, ?_, ?_, ?_, .inr ⟨hcost, ?_⟩⟩
  · obtain ⟨S, hS, -⟩ := h.saved
    obtain ⟨hv, hlost⟩ := hS.lost hl g
    exact ⟨_, hlost, iff_of_false (fun hall => (hall v (hS.sub v hv)).2 rfl) (not_not.mpr ⟨p, by omega, hend⟩)⟩
  · simp only [hent, hheld']
    rw [← hheld]
    exact h.mapped
  · simp only [hent]
    exact h.user
  · rw [hdir]
    intro x hx
    rw [h.tables x hx, HasTables, HasTables, hheld, hheld']
  · show 0 = _
    omega
  · have := hend.1
    omega

/-! ### `allocuvm` -/

/-- To a larger size: memory goes that far, or everything is as it was but for a page that may be lost. -/
theorem Laid.allocuvm_up {newsz : ℕ} (h : Laid k0 k d (pages sz) M) (hle : sz ≤ newsz) (hlt : newsz < KERNBASE) :
    ∃ r k', allocuvm k d sz newsz = .ok (r, k') ∧
      (r = newsz ∧ (pages newsz = pages sz ∨ Affords M (pages newsz)) ∧ Laid k0 k' d (pages newsz) M ∨
        r = 0 ∧ ¬ (pages newsz = pages sz ∨ Affords M (pages newsz)) ∧
          Saved k0 k' d (∃ m < pages newsz, EndsAt M m)) := by
  have hu : pages newsz ≤ userPages := pages_user hlt.le
  have hua := userPages_le
  have hheld := held_le M (pages sz)
  have hnew : ∀ m, pages sz ≤ m → m < pages newsz → ¬ Present (k.entry d m) := fun m hm1 hm2 => by
    rw [h.mapped m (by omega)]
    omega
  obtain hmore | hsame := Nat.lt_or_ge (pages sz) (pages newsz)
  swap
  · have he : pages newsz = pages sz := le_antisymm hsame (pages_mono hle)
    have hz : (newsz + 4095) / 4096 - (sz + 4095) / 4096 = 0 := Nat.sub_eq_zero_of_le hsame
    refine ⟨newsz, k, ?_, .inl ⟨rfl, .inl he, he ▸ h⟩⟩
    rw [allocuvm_loop hle hlt, hz]
    rfl
  have hfree := h.free
  obtain ⟨c, k1, hc, hg, hcase⟩ := allocuvm_cases h.tree.toApart hle hlt hnew
  have hc : pages sz + c ≤ pages newsz := hc
  have hg : Grows k k1 d (pages sz) c fun _ _ => 0 := hg
  have hlen := hg.length
  have hgrow : cost (pages sz) ≤ M ∧ cost (pages sz + c) ≤ M ∧ Laid k0 k1 d (pages sz + c) M ∨
      M < cost (pages sz) ∧ c = 0 ∧ k1.freelist = [] := by
    obtain hcost | hcost := Nat.lt_or_ge M (cost (pages sz))
    · exact .inr ⟨hcost, by omega, List.length_eq_zero_iff.mp (by omega)⟩
    · exact .inl ⟨hcost, h.grows hcost hg (hc.trans hu)⟩
  obtain ⟨e, hr⟩ | ⟨hcl, hl, hr⟩ | ⟨v, hcl, hl, hp, hr⟩ := hcase
  · obtain ⟨-, hc1, h1⟩ | ⟨-, rfl, -⟩ := hgrow
    · rw [show pages sz + c = pages newsz from e] at hc1 h1
      exact ⟨newsz, k1, hr, .inl ⟨rfl, .inr (.inl hc1), h1⟩⟩
    · exact absurd e hmore.ne
  · have hs : Stuck k k1 k1 d (pages sz) c _ := ⟨hg, hg.apart.toTabled, rfl, fun _ => rfl⟩
    obtain ⟨k', hr', hcleared⟩ := hs.cleared h.tree.toApart hcl hlt hnew
    have hcl : pages sz + c < pages newsz := hcl
    have hcount : cost (pages sz) ≤ M ∧ M = cost (pages sz + c) ∨ cost (pages sz) = M + 1 ∧ pages sz % 1024 = 1 := by
      obtain ⟨h0, hc1, h1⟩ | ⟨h0, -, -⟩ := hgrow
      · have := h1.free
        rw [hl, List.length_nil] at this
        exact .inl ⟨h0, by omega⟩
      · exact .inr (h.affords.resolve_left (by omega))
    refine ⟨0, k', hr.trans hr', .inr ⟨rfl, ?_, h.saved.congr (fun hS => (hS.grows hg (by omega)).cleared hcleared hu) ?_⟩⟩
    · unfold Affords cost at *
      omega
    · rw [endsAt_iff h.affords]
      constructor
      · intro hlost
        obtain ⟨m, hm, he⟩ := (endsAt_iff h.affords).mpr hlost
        exact ⟨m, hm.trans hmore, he⟩
      · rintro ⟨m, hm, he⟩ hno
        unfold EndsAt cost at *
        omega
  · obtain ⟨-, hc1, h1⟩ | ⟨-, -, hnil⟩ := hgrow
    swap
    · rw [hnil] at hl
      cases hl
    have hcl : pages sz + c < pages newsz := hcl
    obtain ⟨hend, h2⟩ := h1.lose hl (by omega) hp fun _ => 0
    split_ifs at hr with hlast
    · rw [show pages sz + c + 1 = pages newsz from hlast] at h2
      exact ⟨newsz, _, hr, .inl ⟨rfl, .inr h2.affords, h2⟩⟩
    · have hlast : pages sz + c + 1 ≠ pages newsz := hlast
      obtain ⟨k', hr', hcleared⟩ := (Stuck.of_lost hg hl fun _ => 0).cleared h.tree.toApart hcl hlt hnew
      refine ⟨0, k', hr.trans hr', .inr ⟨rfl, ?_, h2.saved.congr (fun hS => hS.cleared hcleared hu) ?_⟩⟩
      · have := hend.2
        unfold Affords cost at *
        omega
      · exact iff_of_true ⟨_, Nat.lt_succ_self _, hend⟩ ⟨_, hcl, hend⟩

/-- A number of pages that is at least what `allocuvm` asks for; with a size that cannot be, it asks for none. -/
def Asks (sz newsz n : ℕ) : Prop :=
  if newsz ≥ KERNBASE ∨ max sz newsz = 0 then n = pages sz else pages (max sz newsz) ≤ n

/-- **What `allocuvm` does for `exec`.** -/
theorem Laid.allocuvm (h : Laid k0 k d (pages sz) M) (hsz : sz < KERNBASE) (newsz : ℕ) :
    ∃ r k', Vm.allocuvm k d sz newsz = .ok (r, k') ∧
      (∀ s ∈ grow M sz newsz, r = s ∧ s ≠ 0 ∧ s = max sz newsz ∧ newsz < KERNBASE ∧ Laid k0 k' d (pages s) M) ∧
      (grow M sz newsz = none → r = 0 ∧ ∀ n, Asks sz newsz n → Saved k0 k' d (∃ m < n, EndsAt M m)) := by
  unfold grow
  split_ifs with h1 h2 h3 h4
  · refine ⟨0, k, if_pos h1, by simp, fun _ => ⟨rfl, fun n hn => ?_⟩⟩
    rw [Asks, if_pos (.inl h1)] at hn
    exact hn ▸ h.saved
  · refine ⟨sz, k, ?_, fun s e => ?_, by simp⟩
    · rw [Vm.allocuvm, if_neg h1, if_pos h2]
    · obtain rfl := some.inj e
      exact ⟨rfl, by omega, by omega, by omega, h⟩
  · obtain rfl : sz = 0 := by omega
    obtain ⟨r, k', hr, ⟨rfl, -, h'⟩ | ⟨-, hno, -⟩⟩ := h.allocuvm_up (not_lt.mp h2) (not_le.mp h1)
    · refine ⟨r, k', hr, by simp, fun _ => ⟨h3, fun n hn => ?_⟩⟩
      rw [Asks, if_pos (.inr (by omega))] at hn
      rw [h3] at h'
      exact hn ▸ h'.saved
    · exact absurd (.inl (by rw [h3])) hno
  · obtain ⟨r, k', hr, ⟨rfl, -, h'⟩ | ⟨-, hno, -⟩⟩ := h.allocuvm_up (not_lt.mp h2) (not_le.mp h1)
    · refine ⟨r, k', hr, fun s e => ?_, by simp⟩
      obtain rfl := some.inj e
      exact ⟨rfl, h3, by omega, not_le.mp h1, h'⟩
    · exact absurd h4 hno
  · obtain ⟨r, k', hr, ⟨-, hyes, -⟩ | ⟨rfl, hno, hsaved⟩⟩ := h.allocuvm_up (not_lt.mp h2) (not_le.mp h1)
    · exact absurd hyes h4
    · refine ⟨0, k', hr, by simp, fun _ => ⟨rfl, fun n hn => ?_⟩⟩
      rw [Asks, if_neg (by omega), max_eq_right (not_lt.mp h2)] at hn
      refine hsaved.congr (fun hS => hS) ⟨?_, ?_⟩
      · rintro ⟨m, hm, he⟩
        exact ⟨m, hm.trans_le hn, he⟩
      · rintro ⟨m, hm, he⟩
        refine ⟨m, ?_, he⟩
        by_contra hge
        exact not_endsAt (fun ha => hno (.inr ha)) (not_lt.mp hge) he

end

end Xv6.Vm
