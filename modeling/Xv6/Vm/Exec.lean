import Xv6.Vm.Copy

/-! # The address space that `exec` builds

If the program headers do not wrap around the end of the address space, `exec` loads into pages of
the new directory only. An image it commits to has no holes: when `allocuvm` loses a page for want
of memory, none is left for the stack, and a lost stack page is found out by the last `copyout`. -/

namespace Xv6.Vm

open Fallible List Option

/-- No loadable program header wraps around. -/
def Image.fits (img : Image) : Prop :=
  ∀ ph ∈ img.phdrs, ∀ h ∈ ph, h.load = true → h.vaddr + h.memsz < 2 ^ 32

section
variable {d : ℕ} {k k' : Kernel} {own : ℕ → Role}

/-- All pages below `sz` are mapped, or memory has run out. -/
def Full (k : Kernel) (d sz : ℕ) : Prop :=
  NoHoles k d sz ∨ k.freelist = []

section
variable (h : Wf k own) (hd : own d = .dir) {r : Option ℕ}
include h hd

/-- `allocuvm` on a directory with pages of its own only. -/
theorem allocuvm_full {oldsz newsz r : ℕ} (hold : oldsz < KERNBASE)
    (hpriv : ∀ m < userPages, Priv k own d m) (hfull : Full k d oldsz)
    (hr : allocuvm k d oldsz newsz = .ok (r, k')) :
    ∃ own', Resized d k own k' own' ∧ (r ≠ 0 → Full k' d r ∧ r < KERNBASE ∧
      (r = newsz ∨ newsz < oldsz ∧ r = oldsz)) := by
  rcases allocuvm_grown h hd (fun hlt m _ hm => hpriv m (page_lt hlt.le (by omega))) hr with
    ⟨rfl, rfl⟩ | ⟨hlt, rfl, rfl⟩ | ⟨hle, hlt, own', hg⟩
  · exact ⟨own, .refl h hd, fun hr0 => absurd rfl hr0⟩
  · exact ⟨own, .refl h hd, fun _ => ⟨hfull, hold, .inr ⟨hlt, rfl⟩⟩⟩
  · refine ⟨own', hg.toResized, fun hr0 => ?_⟩
    have hrn := hg.result.resolve_left hr0
    have hround := pgRoundUp_div hold.le
    refine ⟨?_, by omega, .inl hrn⟩
    rcases hfull with hfull | hnil
    · by_cases hex : k'.freelist = []
      · exact .inr hex
      · refine .inl fun m hm => ?_
        by_cases hlo : m < pgRoundUp oldsz / 4096
        · rw [hg.below hr0 m hlo]
          exact hfull m (by omega)
        · rcases hg.filled hr0 m (by omega) (by omega) with e | ⟨_, _, e, _⟩
          · exact e
          · exact absurd e hex
    · rw [(hg.starved hnil hr0).1]
      exact .inr hnil

variable {sz top : ℕ}

theorem execLoad_full {l : List (Option Phdr)} (hl : ∀ ph ∈ l, ∀ h ∈ ph, h.load = true → h.vaddr + h.memsz < 2 ^ 32)
    (hsz : sz < KERNBASE) (hpriv : ∀ m < userPages, Priv k own d m) (hfull : Full k d sz)
    (hr : execLoad d l sz k = .ok (r, k')) :
    ∃ own', Resized d k own k' own' ∧ ∀ sz' ∈ r, sz' < KERNBASE ∧ Full k' d sz' := by
  induction l generalizing sz k own with
  | nil =>
    obtain ⟨rfl, rfl⟩ := pair_ok hr
    refine ⟨own, .refl h hd, fun sz' e => ?_⟩
    obtain rfl := some.inj e
    exact ⟨hsz, hfull⟩
  | cons ph l ih =>
    have hl' := fun ph hm => hl ph (mem_cons_of_mem _ hm)
    cases ph with
    | none =>
      obtain ⟨rfl, rfl⟩ := pair_ok hr
      exact ⟨own, .refl h hd, by simp⟩
    | some ph =>
      unfold execLoad at hr
      split_ifs at hr with h1 h2
      · exact ih h hd hl' hsz hpriv hfull hr
      · obtain ⟨rfl, rfl⟩ := pair_ok hr
        exact ⟨own, .refl h hd, by simp⟩
      · have hfit := hl (some ph) mem_cons_self ph rfl (by simpa using h1)
        have hu : u32 (ph.vaddr + ph.memsz) = ph.vaddr + ph.memsz := Nat.mod_eq_of_lt hfit
        obtain ⟨⟨sz1, k1⟩, e1, hr⟩ := bind_ok hr
        rw [hu] at e1
        obtain ⟨own1, hw1, hf1⟩ := allocuvm_full h hd hsz hpriv hfull e1
        dsimp only at hr
        split_ifs at hr with hz
        · obtain ⟨rfl, rfl⟩ := pair_ok hr
          exact ⟨own1, hw1, by simp⟩
        · obtain ⟨hf1, hlt1, hcase⟩ := hf1 hz
          obtain ⟨⟨b, k2⟩, e2, hr⟩ := bind_ok hr
          obtain ⟨hw2, he2, hfl2⟩ := loaduvm_resized hw1.wf hw1.dir (.inr (by omega)) e2
          have hw := hw1.trans hw2
          cases b with
          | false =>
            obtain ⟨rfl, rfl⟩ := pair_ok hr
            exact ⟨own1, hw, by simp⟩
          | true =>
            have hf2 : Full k2 d sz1 := by
              rcases hf1 with hf1 | hf1
              · exact .inl fun m hm => by rw [he2]; exact hf1 m hm
              · exact .inr (hfl2.trans hf1)
            obtain ⟨own3, hw3, h3⟩ := ih hw.wf hw.dir hl' hlt1
              (fun m hm => hw.priv m hm (hpriv m hm)) hf2 hr
            exact ⟨own3, hw.trans hw3, h3⟩

variable {data : ℕ → ℕ → (ℕ → ℕ) → (ℕ → ℕ)}

theorem execArgs_resized {l : List ℕ} {j sp : ℕ} (hr : execArgs d data l j sp k = .ok (r, k')) :
    Resized d k own k' own ∧ ∀ m, k'.entry d m = k.entry d m := by
  induction l generalizing j sp k with
  | nil =>
    obtain ⟨_, rfl⟩ := pair_ok hr
    exact ⟨.refl h hd, fun _ => rfl⟩
  | cons len l ih =>
    unfold execArgs at hr
    split_ifs at hr
    · obtain ⟨_, rfl⟩ := pair_ok hr
      exact ⟨.refl h hd, fun _ => rfl⟩
    · obtain ⟨⟨b, k1⟩, e1, hr⟩ := bind_ok hr
      obtain ⟨h1, he1⟩ := copyout_resized h hd e1
      cases b with
      | false =>
        obtain ⟨_, rfl⟩ := pair_ok hr
        exact ⟨h1, he1⟩
      | true =>
        obtain ⟨h2, he2⟩ := ih h1.wf hr
        exact ⟨h1.trans h2, fun m => (he2 m).trans (he1 m)⟩

/-- A block that ends at the top of the stack lies in its last page. -/
theorem copyout_top {data : ℕ → (ℕ → ℕ) → (ℕ → ℕ)}
    {len : ℕ} (ht : top % 4096 = 0) (hlt : top < KERNBASE) (h0 : 0 < top) (hlen : 0 < len)
    (hle : len ≤ KERNBASE) (hr : copyout k d (u32 (top + 2 ^ 32 - len) / 4 * 4) len data = .ok (true, k')) :
    Present (k.entry d (top / 4096 - 1)) := by
  have hk := kernbase_eq
  obtain ⟨c, -, hall, -, hall'⟩ := copyout_ok (h.sealed hd) hr
  obtain rfl := hall' rfl
  have hpos : pieces (u32 (top + 2 ^ 32 - len) / 4 * 4) len =
      (u32 (top + 2 ^ 32 - len) / 4 * 4 % 4096 + len + 4095) / 4096 := if_neg (by omega)
  by_cases hc : len ≤ top
  · have hva : u32 (top + 2 ^ 32 - len) = top - len := by
      unfold u32
      omega
    rw [hva] at hall hpos
    have hlast := hall (top / 4096 - 1 - (top - len) / 4 * 4 / 4096) (by omega)
    rw [Nat.add_sub_cancel' (by omega)] at hlast
    exact hlast.1
  · have hva : u32 (top + 2 ^ 32 - len) = top + 2 ^ 32 - len := by
      unfold u32
      omega
    rw [hva] at hall hpos
    obtain ⟨-, hu⟩ := hall 0 (by omega)
    rw [Nat.add_zero] at hu
    have hkern := h.kern d ((top + 2 ^ 32 - len) / 4 * 4 / 4096) hd
      (by unfold userPages; omega) (by unfold allPages; omega)
    omega

variable {args : List ℕ}

theorem execPush_resized (hr : execPush d data args top k = .ok (r, k')) :
    Resized d k own k' own ∧ (∀ m, k'.entry d m = k.entry d m) ∧ ∀ sz ∈ r, sz = top := by
  obtain ⟨⟨sp, k1⟩, e1, hr⟩ := bind_ok hr
  obtain ⟨h1, he1⟩ := execArgs_resized h hd e1
  cases sp with
  | none =>
    obtain ⟨rfl, rfl⟩ := pair_ok hr
    exact ⟨h1, he1, by simp⟩
  | some sp =>
    obtain ⟨⟨b, k2⟩, e2, hr⟩ := bind_ok hr
    obtain ⟨rfl, rfl⟩ := pair_ok hr
    obtain ⟨h2, he2⟩ := copyout_resized h1.wf h1.dir e2
    refine ⟨h1.trans h2, fun m => (he2 m).trans (he1 m), fun sz hsz => ?_⟩
    cases b with
    | false => cases hsz
    | true => exact (some.inj hsz).symm

/-- The last page of the stack holds the first argument, or the argument vector. -/
theorem execPush_top (ht : top % 4096 = 0)
    (hlt : top < KERNBASE) (h0 : 0 < top) (hargs : ∀ len ∈ args, 0 < len ∧ len ≤ KERNBASE)
    (hr : execPush d data args top k = .ok (some sz, k')) : Present (k.entry d (top / 4096 - 1)) := by
  have hk := kernbase_eq
  obtain ⟨⟨sp, k1⟩, e1, hr⟩ := bind_ok hr
  cases args with
  | nil =>
    obtain ⟨rfl, rfl⟩ := pair_ok e1
    obtain ⟨⟨b, k2⟩, e2, hr⟩ := bind_ok hr
    cases b with
    | false => cases (pair_ok hr).1
    | true =>
      have hva : u32 (top + 2 ^ 32 - (3 + 0 + 1) * 4) = u32 (top + 2 ^ 32 - 16) / 4 * 4 := by
        unfold u32
        omega
      rw [length_nil, hva] at e2
      exact copyout_top h hd ht hlt h0 (by decide) (by decide) e2
  | cons len l =>
    have hlen := hargs len mem_cons_self
    unfold execArgs at e1
    rw [if_neg (by decide)] at e1
    obtain ⟨⟨b, k2⟩, e2, e1⟩ := bind_ok e1
    rw [Nat.mod_eq_of_lt (by omega : len < 2 ^ 32)] at e2
    cases b with
    | false =>
      obtain ⟨rfl, rfl⟩ := pair_ok e1
      cases (pair_ok hr).1
    | true => exact copyout_top h hd ht hlt h0 hlen.1 hlen.2 e2

/-- The two pages for the stack: only the last one may be lost. -/
theorem allocuvm_stack {s r : ℕ} (hs : sz ≤ 4096 * s ∧ 4096 * s < sz + 4096)
    (hpriv : ∀ m < userPages, Priv k own d m) (hfull : Full k d sz)
    (hr : allocuvm k d (4096 * s) (4096 * (s + 2)) = .ok (r, k')) :
    ∃ own', Resized d k own k' own' ∧ (r ≠ 0 → r = 4096 * (s + 2) ∧ r < KERNBASE ∧
      ∀ m < s + 1, Present (k'.entry d m)) := by
  have hk := kernbase_eq
  rcases allocuvm_grown h hd (fun hlt m _ hm => hpriv m (page_lt hlt.le (by omega))) hr with
    ⟨rfl, rfl⟩ | ⟨hlt, -⟩ | ⟨-, hlt, own', hg⟩
  · exact ⟨own, .refl h hd, by simp⟩
  · omega
  · rw [pgRoundUp_div (by omega), show (4096 * s + 4095) / 4096 = s by omega,
      show max s ((4096 * (s + 2) + 4095) / 4096) = s + 2 by omega] at hg
    refine ⟨own', hg.toResized, fun hz => ⟨hg.result.resolve_left hz, ?_, fun m hm => ?_⟩⟩
    · rw [hg.result.resolve_left hz]
      exact hlt
    · rcases hfull with hfull | hnil
      · by_cases hms : m < s
        · rw [hg.below hz m hms]
          exact hfull m (by omega)
        · rcases hg.filled hz m (by omega) (by omega) with e | ⟨e, _⟩
          · exact e
          · omega
      · have := (hg.starved hnil hz).2
        omega

theorem execStack_full (hsz : sz < KERNBASE) (hpriv : ∀ m < userPages, Priv k own d m) (hfull : Full k d sz)
    (hargs : ∀ len ∈ args, 0 < len ∧ len ≤ KERNBASE) (hr : execStack d data args sz k = .ok (r, k')) :
    ∃ own', Resized d k own k' own' ∧ ∀ sz ∈ r, sz < KERNBASE ∧ NoHoles k' d sz := by
  have hk := kernbase_eq
  obtain ⟨s, hs⟩ : ∃ s, pgRoundUp sz = 4096 * s := ⟨pgRoundUp sz / 4096, by unfold pgRoundUp PGSIZE; omega⟩
  have hs1 : sz ≤ 4096 * s ∧ 4096 * s < sz + 4096 := by
    rw [← hs]
    unfold pgRoundUp u32 PGSIZE
    omega
  have hu : u32 (4096 * s + 2 * PGSIZE) = 4096 * (s + 2) := by
    unfold u32 PGSIZE
    omega
  obtain ⟨⟨top, k1⟩, e1, hr⟩ := bind_ok hr
  rw [hs, hu] at e1
  obtain ⟨own1, h1, hf1⟩ := allocuvm_stack h hd hs1 hpriv hfull e1
  dsimp only at hr
  split_ifs at hr with hz
  · obtain ⟨rfl, rfl⟩ := pair_ok hr
    exact ⟨own1, h1, by simp⟩
  · obtain ⟨rfl, hlt, hf1⟩ := hf1 hz
    obtain ⟨k2, e2, hr⟩ := bind_ok hr
    have hguard : u32 (4096 * (s + 2) + 2 ^ 32 - 2 * PGSIZE) / 4096 = s := by
      unfold u32 PGSIZE
      omega
    obtain ⟨h2, he2, -⟩ := clearpteu_resized h1.wf h1.dir (by rw [hguard]; unfold userPages; omega) e2
    obtain ⟨h3, he3, htop⟩ := execPush_resized h2.wf h2.dir hr
    refine ⟨own1, (h1.trans h2).trans h3, fun sz' e => ?_⟩
    obtain rfl := htop sz' e
    obtain rfl := e
    refine ⟨hlt, fun m hm => ?_⟩
    rw [he3]
    by_cases hm1 : m < s + 1
    · exact he2 m (by unfold allPages; omega) (hf1 m hm1)
    · obtain rfl : m = 4096 * (s + 2) / 4096 - 1 := by omega
      exact execPush_top h2.wf h2.dir (by omega) hlt (by omega) hargs hr

/-- **What `exec` builds** has only pages of its own, and no holes. -/
theorem execBuild_full {img : Image} (hempty : ∀ m < userPages, k.entry d m = 0) (hfit : img.fits)
    (hargs : ∀ len ∈ img.args, 0 < len ∧ len ≤ KERNBASE) (hr : execBuild k d img = .ok (r, k')) :
    ∃ own', Resized d k own k' own' ∧ ∀ sz ∈ r, sz < KERNBASE ∧ NoHoles k' d sz := by
  obtain ⟨⟨sz, k1⟩, e1, hr⟩ := bind_ok hr
  obtain ⟨own1, h1, hf1⟩ := execLoad_full h hd hfit (by decide) (priv_of_empty hempty)
    (.inl fun m hm => by omega) e1
  cases sz with
  | none =>
    obtain ⟨rfl, rfl⟩ := pair_ok hr
    exact ⟨own1, h1, by simp⟩
  | some sz =>
    obtain ⟨hsz, hf1⟩ := hf1 sz rfl
    obtain ⟨own2, h2, hf2⟩ := execStack_full h1.wf h1.dir hsz
      (fun m hm => h1.priv m hm (priv_of_empty hempty m hm)) hf1 hargs hr
    exact ⟨own2, h1.trans h2, hf2⟩

end

end

end Xv6.Vm
