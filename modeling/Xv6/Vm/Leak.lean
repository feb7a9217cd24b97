import Xv6.Vm.Untrusted

/-! # What a failed `fork` or `exec` leaves behind

`setupkvm` gives nothing back when it fails, and the page for which `mappages` finds no table is lost in
`copyuvm` as well as in `allocuvm`. So whether a call that returns -1 leaks is a matter of counting: the pages are
asked for in a fixed order, and memory is lost exactly if it runs out at a page table
(`failed_call_keeps_iff`). -/

namespace Xv6.Vm

open Fallible Function Option List

section
variable {k0 k k' k1 : Kernel} {d n M : ℕ} {P : Prop} {p : Slot}

/-! ### `fork` -/

theorem Laid.copyLoop {src : ℕ} (h : Laid k0 k d 0 M) (hb : Beside k d src)
    (hr : copyLoop src d n 0 k = .ok (false, k')) :
    Saved k0 k' d (∃ m < min n userPages, (∀ i ≤ m, Present (k.entry src i)) ∧ EndsAt M m) := by
  have hua : userPages < allPages := by decide
  have hex : ∃ a, a = min n userPages ∨ ¬ Present (k.entry src a) := ⟨_, .inl rfl⟩
  obtain ⟨a, ha, hbefore⟩ : ∃ a, (a = min n userPages ∨ ¬ Present (k.entry src a)) ∧
      ∀ m < a, m ≠ min n userPages ∧ Present (k.entry src m) := by
    classical
    refine ⟨Nat.find hex, Nat.find_spec hex, fun m hm => ?_⟩
    obtain ⟨h1, h2⟩ := not_or.mp (Nat.find_min hex hm)
    exact ⟨h1, not_not.mp h2⟩
  have hamin : a ≤ min n userPages := by
    by_contra hlt
    exact (hbefore _ (not_le.mp hlt)).1 rfl
  obtain ⟨b, rfl⟩ : ∃ b, n = a + b := ⟨n - a, by omega⟩
  rw [copyLoop_add] at hr
  obtain ⟨⟨ok, k1⟩, e1, hr⟩ := bind_ok hr
  dsimp only at hr
  obtain ⟨c, k2, hc, hg, hcase⟩ := copyLoop_cases h.tree.toApart hb (by omega : 0 + a ≤ userPages)
    (fun m _ hm => (hbefore m (by omega)).2) fun m _ hm => by
      rw [h.mapped m (by omega), held, if_pos (show cost 0 ≤ M from Nat.zero_le M)]
      omega
  obtain ⟨hcost, h2⟩ := h.grows (Nat.zero_le M) hg (by omega)
  rw [Nat.zero_add] at hcost h2
  have hout : k2.freelist = [] → Saved k0 k2 d
      (∃ m < min (a + b) userPages, (∀ i ≤ m, Present (k.entry src i)) ∧ EndsAt M m) := fun hl => by
    have hM := h2.free
    rw [hl, length_nil] at hM
    refine h2.saved.congr (fun hS => hS) (iff_of_false ?_ ?_)
    · rw [endsAt_iff h2.affords]
      exact not_not.mpr hcost
    · rintro ⟨m, -, -, h0, he⟩
      unfold cost at *
      omega
  obtain ⟨rfl, hr'⟩ | ⟨-, hl, hr'⟩ | ⟨v, g, hlt, hl, hp, hr'⟩ := hcase
  · obtain ⟨rfl, rfl⟩ := pair_ok (e1.symm.trans hr')
    rw [if_pos rfl, Nat.zero_add, PGSIZE] at hr
    obtain ⟨-, hent, -⟩ := hb.grows hg
    cases b with
    | zero => cases hr
    | succ b =>
      obtain e | e := ha
      · obtain rfl : c = userPages := by omega
        have hkern : Present (k1.entry d userPages) := by
          obtain ⟨S, hS, -⟩ := h2.saved
          rw [hS.kern _ (le_refl _) hua]
          exact kernEntry_first
        obtain ⟨-, rfl, hl⟩ := copyLoop_kernel h2.tree.toApart hkern hr
        exact hout hl
      · rw [← hent] at e
        obtain ⟨e', he⟩ := copyLoop_hole (d := d) (n := b) e
        rw [he] at hr
        cases hr
  · obtain ⟨rfl, rfl⟩ := pair_ok (e1.symm.trans hr')
    obtain ⟨-, rfl⟩ := pair_ok hr
    exact hout hl
  · obtain ⟨rfl, rfl⟩ := pair_ok (e1.symm.trans hr')
    obtain ⟨-, rfl⟩ := pair_ok hr
    rw [Nat.zero_add] at hp
    obtain ⟨hend, h3⟩ := h2.lose hl (by omega) hp g
    refine h3.saved.congr (fun hS => hS) (iff_of_true ⟨c, by omega, hend⟩ ⟨c, by omega, fun i hi => ?_, hend⟩)
    exact (hbefore i (by omega)).2

/-- The free list holds the pages that it held, and process `p` has its directory, its mappings and its size. -/
structure Kept (k k' : Kernel) (p : Slot) : Prop where
  free : ∀ v, v ∈ k'.freelist ↔ v ∈ k.freelist
  sz : (k'.proc p).sz = (k.proc p).sz
  pgdir : (k'.proc p).pgdir = (k.proc p).pgdir
  dir : k'.mem (k.proc p).pgdir = k.mem (k.proc p).pgdir
  entry : ∀ m, k'.entry (k.proc p).pgdir m = k.entry (k.proc p).pgdir m

/-- If nothing but free pages is written, all is kept that concerns the process itself. -/
theorem kept_iff (h : Apart k (k.proc p).pgdir) (hmem : ∀ u ∉ k.freelist, k'.mem u = k.mem u)
    (hproc : k'.proc p = k.proc p) : Kept k k' p ↔ ∀ v, v ∈ k'.freelist ↔ v ∈ k.freelist := by
  have hspace : ∀ v, InSpace k (k.proc p).pgdir v → k'.mem v = k.mem v := fun v hv => hmem v (h.not_free hv)
  refine ⟨Kept.free, fun hfree => ⟨hfree, by rw [hproc], by rw [hproc], hspace _ (.inl rfl), (InSpace.congr hspace).1⟩⟩

theorem Saved.returned (h : Saved k0 k d P) (hr : freevm k d = .ok k') :
    (∀ u ∉ k0.freelist, k'.mem u = k0.mem u) ∧ k'.freelist ⊆ k0.freelist ∧
      ((∀ v, v ∈ k'.freelist ↔ v ∈ k0.freelist) ↔ ¬ P) := by
  obtain ⟨S, hS, hP⟩ := h
  obtain ⟨k'', hr', hfree, hmem⟩ := hS.freevm
  obtain rfl := Except.ok.inj (hr.symm.trans hr')
  refine ⟨hmem, fun v hv => hS.sub v ((hfree v).mp hv), ?_⟩
  rw [← hP]
  simp only [hfree]
  exact ⟨fun h v hv => (h v).mpr hv, fun h v => ⟨hS.sub v, h v⟩⟩

/-- What a failed `copyuvm` leaves: none of the pages that were free if there are too few for the kernel's mappings, and
otherwise all of them unless memory runs out at a table. -/
theorem copyuvm_failed {src sz : ℕ} (h : FreePages k) (huse : ∀ v, InSpace k src v → v ∉ k.freelist)
    (hr : copyuvm k src sz = .ok (none, k')) :
    (∀ u ∉ k.freelist, k'.mem u = k.mem u) ∧
      (k.freelist.length < 65 ∧ k'.freelist = [] ∨
        65 ≤ k.freelist.length ∧ k'.freelist ⊆ k.freelist ∧ ((∀ v, v ∈ k'.freelist ↔ v ∈ k.freelist) ↔
          ¬ ∃ m < min (pages sz) userPages, (∀ i ≤ m, Present (k.entry src i)) ∧
            EndsAt (k.freelist.length - 65) m)) := by
  obtain ⟨⟨r, k1⟩, e1, hr⟩ := bind_ok hr
  obtain ⟨hlen, d, k2, e2, hk⟩ | ⟨hlen, k2, e2, hl, hmem⟩ := setupkvm_cases h
  · obtain ⟨rfl, rfl⟩ := pair_ok (e1.symm.trans e2)
    obtain ⟨⟨ok, k3⟩, e3, hr⟩ := bind_ok hr
    cases ok with
    | true => cases hr
    | false =>
      obtain ⟨k4, e4, hr⟩ := bind_ok hr
      obtain ⟨-, rfl⟩ := pair_ok hr
      obtain ⟨hb, hent, -⟩ := Beside.of_kernelHalf hk huse
      have hsaved := (hk.laid h).copyLoop (n := pages sz) hb e3
      simp only [hent] at hsaved
      obtain ⟨hmem, hfree⟩ := hsaved.returned e4
      exact ⟨hmem, .inr ⟨hlen, hfree⟩⟩
  · obtain ⟨rfl, rfl⟩ := pair_ok (e1.symm.trans e2)
    obtain ⟨-, rfl⟩ := pair_ok hr
    exact ⟨hmem, .inl ⟨hlen, hl⟩⟩

/-- Memory for `fork`: none beyond the kernel stack, or enough for the kernel's mappings and not so much that it runs
out at a page table. -/
def ForkSafe (k : Kernel) (p : Slot) : Prop :=
  unusedSlot k = none ∨ k.freelist.length ≤ 1 ∨ 66 ≤ k.freelist.length ∧
    ¬ ∃ m < min (pages (k.proc p).sz) userPages, (∀ i ≤ m, Present (k.entry (k.proc p).pgdir i)) ∧
      EndsAt (k.freelist.length - 66) m

/-- Memory for `exec` of a file with an ELF header: none at all, or enough for the kernel's mappings and not so much that
it runs out at a page table. -/
def ExecSafe (k : Kernel) (f : File) : Prop :=
  ∀ elf ∈ f.elfhdr, k.freelist = [] ∨ 65 ≤ k.freelist.length ∧
    ¬ ∃ m < wants f (f.proghdrs elf.phnum elf.phoff) 0, EndsAt (k.freelist.length - 65) m

/-- `fork` with a slot and a kernel stack fails as `copyuvm` does, and gives the stack back. -/
theorem fork_failed {np : Slot} {ks : ℕ} {l : List ℕ} (hnp : unusedSlot k = some np) (hne : p ≠ np)
    (hl : k.freelist = ks :: l) (hks : Page ks) (hr : fork k p = .ok (-1, k')) :
    ∃ k1 k2 : Kernel, k1.freelist = l ∧ k1.mem = k.mem ∧
      copyuvm k1 (k.proc p).pgdir (k.proc p).sz = .ok (none, k2) ∧ k'.freelist = ks :: k2.freelist ∧
      (∀ u ≠ ks, k'.mem u = k2.mem u) ∧ k'.proc p = k.proc p := by
  unfold fork at hr
  rw [hnp] at hr
  dsimp only at hr
  rw [kalloc_cons (v := ks) (l := l) (by exact hl)] at hr
  dsimp only at hr
  set k1 : Kernel := Kernel.setProc _ np fun q => { q with kstack := ks }
  have hproc : k1.proc p = k.proc p :=
    (update_of_ne hne _ _).trans (update_of_ne hne _ _)
  obtain ⟨hfree, hmem⟩ : k1.freelist = l ∧ k1.mem = k.mem := ⟨rfl, rfl⟩
  clear_value k1
  rw [hproc] at hr
  obtain ⟨⟨r, k2⟩, e2, hr⟩ := bind_ok hr
  cases r with
  | some d =>
    obtain ⟨e, -⟩ := pair_ok hr
    omega
  | none =>
    obtain ⟨k3, e3, hr⟩ := bind_ok hr
    obtain ⟨-, rfl⟩ := pair_ok hr
    rw [kfree_page hks] at e3
    obtain rfl := Except.ok.inj e3
    refine ⟨k1, k2, hfree, hmem, e2, rfl, fun u hu => k2.freed_mem_of_ne hu, ?_⟩
    rw [← hproc, ← (copyuvm_memOnly.ok e2).proc]
    exact update_of_ne hne _ _

theorem fork_kept_iff (h : Apart k (k.proc p).pgdir) (hp : (k.proc p).state ≠ .unused)
    (hr : fork k p = .ok (-1, k')) : Kept k k' p ↔ ForkSafe k p := by
  unfold ForkSafe
  cases hnp : unusedSlot k with
  | none =>
    unfold fork at hr
    rw [hnp] at hr
    obtain ⟨-, rfl⟩ := pair_ok hr
    exact iff_of_true ⟨fun _ => Iff.rfl, rfl, rfl, rfl, fun _ => rfl⟩ (.inl rfl)
  | some np =>
    have hne : p ≠ np := by
      rintro rfl
      exact hp (by simpa using (find?_eq_some_iff_append.mp hnp).1)
    cases hl : k.freelist with
    | nil =>
      unfold fork at hr
      rw [hnp] at hr
      dsimp only at hr
      rw [kalloc_nil (by exact hl)] at hr
      obtain ⟨-, rfl⟩ := pair_ok hr
      refine iff_of_true ((kept_iff h ?_ ?_).mpr ?_) (.inr (.inl (by simp)))
      · exact fun _ _ => rfl
      · exact (update_of_ne hne _ _).trans (update_of_ne hne _ _)
      · exact fun _ => Iff.rfl
    | cons ks l =>
      have hin : ∀ {v}, v ∈ k.freelist ↔ v = ks ∨ v ∈ l := fun {v} => by rw [hl, mem_cons]
      obtain ⟨hks, hnodup⟩ := nodup_cons.mp (hl ▸ h.nodup)
      obtain ⟨k1, k2, hfree1, hmem1, e2, hfree', hmem', hproc⟩ :=
        fork_failed hnp hne hl (h.free ks (hin.mpr (.inl rfl))).1 hr
      have hspace : ∀ v, InSpace k (k.proc p).pgdir v → k1.mem v = k.mem v := fun v _ => by rw [hmem1]
      obtain ⟨hent1, hin1⟩ := InSpace.congr hspace
      have hf1 : FreePages k1 := by
        refine ⟨hfree1 ▸ hnodup, fun v hv => (h.free v (hin.mpr (.inr ?_))).1⟩
        rwa [hfree1] at hv
      have huse : ∀ v, InSpace k1 (k.proc p).pgdir v → v ∉ k1.freelist := fun v hv hv' => by
        rw [hfree1] at hv'
        exact h.not_free ((hin1 v).mp hv) (hin.mpr (.inr hv'))
      obtain ⟨hmem2, hcase⟩ := copyuvm_failed hf1 huse e2
      rw [hfree1] at hcase
      simp only [hent1] at hcase
      rw [kept_iff h (fun u hu => ?_) hproc]
      swap
      · rw [hin, not_or] at hu
        rw [hmem' u hu.1, hmem2 u (by rw [hfree1]; exact hu.2), hmem1]
      simp only [hin, hfree', mem_cons, length_cons, reduceCtorEq, false_or]
      obtain ⟨hlen, hnil⟩ | ⟨hlen, hsub, hfree⟩ := hcase
      · rw [hnil]
        cases l with
        | nil => exact iff_of_true (fun v => Iff.rfl) (.inl (le_refl 1))
        | cons w l =>
          refine iff_of_false (fun hkept => ?_) (by simp only [length_cons] at *; omega)
          obtain e | e := (hkept w).mpr (.inr mem_cons_self)
          · exact hks (e ▸ mem_cons_self)
          · cases e
      · have hlen' : l.length + 1 - 66 = l.length - 65 := by omega
        rw [hlen', ← hfree, or_iff_right (by omega), and_iff_right (by omega)]
        refine ⟨fun hkept v => ?_, fun hkept v => by rw [hkept]⟩
        obtain rfl | hne := eq_or_ne v ks
        · exact iff_of_false (fun hin => hks (hsub hin)) hks
        · have := hkept v
          rwa [or_iff_right hne, or_iff_right hne] at this

theorem exec_kept_iff {f : File} {args : List Arg} {data : ℕ → ℕ → (ℕ → ℕ) → (ℕ → ℕ)}
    (h : Apart k (k.proc p).pgdir) (hs : f.Safe args k.freelist.length)
    (hr : exec k p (f.image args data) = .ok (-1, k')) : Kept k k' p ↔ ExecSafe k f := by
  have hf : FreePages k := ⟨h.nodup, fun v hv => (h.free v hv).1⟩
  cases helf : f.elfhdr with
  | none =>
    rw [File.image, helf] at hr
    obtain ⟨-, rfl⟩ := pair_ok hr
    refine iff_of_true ⟨fun _ => Iff.rfl, rfl, rfl, rfl, fun _ => rfl⟩ ?_
    simp [ExecSafe, helf]
  | some elf =>
    have hsafe : ExecSafe k f ↔ k.freelist = [] ∨ 65 ≤ k.freelist.length ∧
        ¬ ∃ m < wants f (f.proghdrs elf.phnum elf.phoff) 0, EndsAt (k.freelist.length - 65) m := by
      rw [ExecSafe, helf]
      simp
    rw [hsafe]
    obtain ⟨hlen, d, k1, e1, hk⟩ | ⟨hlen, k1, e1, hl, hmem⟩ := setupkvm_cases hf
    · obtain ⟨r, k2, e2, hsaved, -⟩ := (execBuild_laid (hk.laid hf) (arg_bounds args) data).1 (hs elf helf hlen)
      rw [(File.exec_eq p args data helf e1).1, e2, ok_bind] at hr
      have hm2 := (setupkvm_memOnly.ok e1).trans (execBuild_memOnly.ok e2)
      cases r with
      | some sz =>
        obtain ⟨k3, -, hr⟩ := bind_ok hr
        cases (pair_ok hr).1
      | none =>
        obtain ⟨k3, e3, hr⟩ := bind_ok hr
        obtain ⟨-, rfl⟩ := pair_ok hr
        obtain ⟨hmem, -, hfree⟩ := hsaved.returned e3
        have hne : k.freelist ≠ [] := fun e => by
          rw [e] at hlen
          cases hlen
        rw [kept_iff h hmem (by rw [(freevm_memOnly.ok e3).proc, hm2.proc]), hfree, or_iff_right hne, and_iff_right hlen]
    · rw [File.image, helf, map_some, exec, e1] at hr
      obtain ⟨-, rfl⟩ := pair_ok hr
      rw [kept_iff h hmem (by rw [(setupkvm_memOnly.ok e1).proc]), hl, or_iff_left fun hno => by omega]
      constructor
      · exact fun hkept => eq_nil_iff_forall_not_mem.mpr fun v hv => not_mem_nil ((hkept v).mpr hv)
      · intro e v
        rw [e]

/-- **When a call that fails gives all memory back.** -/
theorem failed_call_keeps_iff {p : Slot} (h : Apart k (k.proc p).pgdir) (hp : (k.proc p).state ≠ .unused) :
    (∀ k', fork k p = .ok (-1, k') → (Kept k k' p ↔ ForkSafe k p)) ∧
      ∀ (f : File) (args : List Arg) (data : ℕ → ℕ → (ℕ → ℕ) → (ℕ → ℕ)), f.Safe args k.freelist.length →
        ∀ k', exec k p (f.image args data) = .ok (-1, k') → (Kept k k' p ↔ ExecSafe k f) :=
  ⟨fun _ hr => fork_kept_iff h hp hr, fun _ _ _ hs _ hr => exec_kept_iff h hs hr⟩

/-- With one free page `fork` gives it back; `exec` makes it a directory, and loses it. -/
theorem failed_call_keeps_last : (∃ k', fork bootLast initproc = .ok (-1, k') ∧ Kept bootLast k' initproc) ∧
    ∃ k', exec bootLast initproc ((program 0 5000).image [] fun _ _ f => f) = .ok (-1, k') ∧
      ¬ Kept bootLast k' initproc := by
  obtain ⟨hfork, hexec⟩ := failed_call_keeps_iff (k := bootLast) (p := initproc) bootLast_apart (by decide)
  constructor
  · have htest : (fork bootLast initproc).toOption.map Prod.fst = some (-1) := by decide +kernel
    obtain ⟨⟨r, k'⟩, hr, rfl⟩ := map_eq_some_iff.mp htest
    exact ⟨k', toOption_some hr, (hfork k' (toOption_some hr)).mpr (.inr (.inl (le_refl 1)))⟩
  · have htest : (exec bootLast initproc ((program 0 5000).image [] fun _ _ f => f)).toOption.map Prod.fst =
        some (-1) := by
      decide +kernel
    obtain ⟨⟨r, k'⟩, hr, rfl⟩ := map_eq_some_iff.mp htest
    have hsafe : (program 0 5000).Safe [] bootLast.freelist.length := fun _ _ hlen => absurd hlen (by decide)
    have helf : (program 0 5000).elfhdr = some ⟨0, 52, 1⟩ := by decide +kernel
    refine ⟨k', toOption_some hr, ?_⟩
    rw [hexec _ _ _ hsafe k' (toOption_some hr)]
    intro hkept
    obtain e | ⟨hlen, -⟩ := hkept _ helf
    · cases e
    · exact absurd hlen (by decide)

/-- With two free pages `fork` fails, and the one that was to be the directory is not given back. -/
theorem fork_leaks_directory : ∃ k k', Apart k (k.proc initproc).pgdir ∧ (k.proc initproc).state ≠ .unused ∧
    fork k initproc = .ok (-1, k') ∧ k.freelist = [top 134, top 135] ∧ k'.freelist = [top 134] := by
  have hsub : [top 134, top 135].Sublist boot.freelist := by
    rw [show boot.freelist = top 134 :: top 135 :: boot.freelist.tail.tail from rfl]
    exact ((nil_sublist _).cons_cons _).cons_cons _
  have htest : (fork { boot with freelist := [top 134, top 135] } initproc).toOption.map
      (fun r => (r.1, r.2.freelist)) = some (-1, [top 134]) := by
    decide +kernel
  obtain ⟨⟨r, k'⟩, hr, hv⟩ := map_eq_some_iff.mp htest
  obtain ⟨rfl, hl⟩ := Prod.mk.inj hv
  exact ⟨{ boot with freelist := [top 134, top 135] }, k',
    (inv_boot.wf.apart (inv_boot.dir initproc (by decide))).of_sublist hsub, by decide, toOption_some hr, rfl, hl⟩

end

end Xv6.Vm
