import Xv6.Vm.Build
import Xv6.Vm.Copyout

/-! # New address spaces: `setupkvm`, `copyuvm`, and what `exec` builds

A new directory holds only pages of its own. `exec` writes through the entries of the directory it
builds; these refer to pages of the directory as long as the addresses lie in the user half, and
`uva2ka` gives no others, since the entries of the kernel half lack `PTE_U`. -/

namespace Xv6.Vm

open Fallible Function Option

section
variable {d n src sz : ℕ} {k k' : Kernel} {own : ℕ → Role} {b : Bool}

/-! ### The kernel half -/

theorem kern_entry {pa perm : ℕ} (hpa : pa % 4096 = 0) (hperm : perm < 4) :
    (pa ||| (perm ||| PTE_P)) / 4 % 2 = 0 := by
  have hf : perm ||| PTE_P < 2 ^ 2 := Nat.or_lt_two_pow hperm (by decide)
  rw [Words.or_eq_add (n := 12) hpa (by omega)]
  omega

/-- The loop of `mappages` over addresses of the kernel half. -/
theorem mapLoop_kern (h : Wf k own) (hd : own d = .dir) {perm a pa : ℕ}
    (ha : n = 0 ∨ a % 4096 = 0 ∧ userPages ≤ a / 4096 ∧ a / 4096 + n ≤ allPages)
    (hpa : pa % 4096 = 0) (hperm : perm < 4) (hr : mapLoop d perm n a pa k = .ok (b, k')) :
    ∃ own', Edits d k own k' own' ∧ ∀ m < userPages, k'.entry d m = k.entry d m := by
  have hua := userPages_le
  induction n generalizing a pa k own with
  | zero =>
    obtain ⟨_, rfl⟩ := pair_ok hr
    exact ⟨own, .refl h hd, fun _ _ => rfl⟩
  | succ n ih =>
    obtain ⟨ha1, ha2, ha3⟩ := ha.resolve_left (by omega)
    rcases mapLoop_succ h hd hr with ⟨_, rfl, _⟩ | ⟨k1, own1, ht, _, hr⟩
    · exact ⟨own, .refl h hd, fun _ _ => rfl⟩
    · have h1 := Edits.setEntry ht.wf ht.dir (n := a / 4096) (w := pa ||| (perm ||| PTE_P))
        (by omega) ht.present (fun e => by omega) (fun e => by omega)
        (fun _ => kern_entry hpa hperm)
      obtain ⟨own2, h2, he2⟩ := ih h1.wf h1.dir (by
        by_cases hn : n = 0
        · exact .inl hn
        · refine .inr ?_
          unfold u32 PGSIZE allPages at *
          omega) (by unfold u32 PGSIZE; omega) hr
      refine ⟨own2, (ht.toEdits.trans h1).trans h2, fun m hm => ?_⟩
      rw [he2 m hm, ht.wf.entry_store ht.dir (by omega) ht.present ht.dir (by omega),
        if_neg (by omega), ht.entry_eq]

/-- The pages of an entry of `kmap` all lie in the kernel half. -/
def KernMap (m : ℕ × ℕ × ℕ × ℕ) : Prop :=
  let a := pgRoundDown m.1
  let last := pgRoundDown (u32 (m.1 + u32 (m.2.2.1 + 2 ^ 32 - m.2.1) + 2 ^ 32 - 1))
  a % 4096 = 0 ∧ userPages ≤ a / 4096 ∧
    a / 4096 + (u32 (last + 2 ^ 32 - a) / PGSIZE + 1) ≤ allPages ∧ m.2.1 % 4096 = 0 ∧ m.2.2.2 < 4

instance (m : ℕ × ℕ × ℕ × ℕ) : Decidable (KernMap m) := by
  unfold KernMap
  infer_instance

theorem kmapLoop_edits (h : Wf k own) (hd : own d = .dir) {l : List (ℕ × ℕ × ℕ × ℕ)}
    (hl : ∀ m ∈ l, KernMap m) (hr : kmapLoop d l k = .ok (b, k')) :
    ∃ own', Edits d k own k' own' ∧ ∀ m < userPages, k'.entry d m = k.entry d m := by
  induction l generalizing k own with
  | nil =>
    obtain ⟨_, rfl⟩ := pair_ok hr
    exact ⟨own, .refl h hd, fun _ _ => rfl⟩
  | cons m l ih =>
    obtain ⟨⟨b1, k1⟩, e1, hr⟩ := bind_ok hr
    obtain ⟨h1, h2, h3, h4, h5⟩ := hl m List.mem_cons_self
    obtain ⟨own1, hw, he⟩ := mapLoop_kern h hd (.inr ⟨h1, h2, h3⟩) h4 h5 e1
    cases b1 with
    | false =>
      obtain ⟨_, rfl⟩ := pair_ok hr
      exact ⟨own1, hw, he⟩
    | true =>
      obtain ⟨own2, hw2, he2⟩ := ih hw.wf hw.dir
        (fun m hm => hl m (List.mem_cons_of_mem _ hm)) hr
      exact ⟨own2, hw.trans hw2, fun n hn => (he2 n hn).trans (he n hn)⟩

/-- Directories, kernel stacks and pages of segments. -/
def Fixed : Role → Prop
  | .dir => True
  | .kstack _ => True
  | .seg _ _ => True
  | _ => False

/-- Nothing happens to any directory, kernel stack or segment there is. -/
structure Spared (k : Kernel) (own : ℕ → Role) (k' : Kernel) (own' : ℕ → Role) : Prop where
  role : ∀ v, Fixed (own v) → own' v = own v
  entry : ∀ d, own d = .dir → ∀ n < allPages, k'.entry d n = k.entry d n
  pde : ∀ d, own d = .dir → k'.mem d = k.mem d
  back : ∀ v, own' v = .dir → own v = .dir

theorem Fixed.foreign {r : Role} (h : Fixed r) (d : ℕ) : Foreign d r := by
  cases r <;> trivial

theorem Spared.refl (k : Kernel) (own : ℕ → Role) : Spared k own k own :=
  ⟨fun _ _ => rfl, fun _ _ _ _ => rfl, fun _ _ => rfl, fun _ h => h⟩

theorem Local.spared {own' : ℕ → Role} (h : Local d k own k' own') (hd : ¬ Fixed (own d))
    (hd' : own' d ≠ .dir) : Spared k own k' own' := by
  have hne : ∀ {v}, Fixed (own v) → v ≠ d := by
    rintro v hv rfl
    exact hd hv
  have hdir : ∀ {v}, own v = .dir → Fixed (own v) := fun e => by rw [e]; trivial
  refine ⟨fun v hv => h.role v (hne hv) (hv.foreign d), fun d' hd' => h.entry d' (hne (hdir hd')) hd',
    fun d' hd' => h.pde d' (hne (hdir hd')) hd', fun v hv => h.back v ?_ hv⟩
  rintro rfl
  exact hd' hv

theorem Wf.makeDir (h : Wf k own) {l : List ℕ} (hl : k.freelist = d :: l) :
    own d = .free ∧
      Edits d k own (({ k with freelist := l } : Kernel).setPage d fun _ => 0)
        (update own d .dir) ∧
      ∀ m, (({ k with freelist := l } : Kernel).setPage d fun _ => 0).entry d m = 0 := by
  obtain ⟨h1, hv, hpage⟩ := h.alloc hl
  obtain ⟨h2, _⟩ := h1.write (v := d) (by simp) fun _ => 0
  have h3 := h2.newDir (v := d) (by simp) hpage (by simp)
  rw [update_idem] at h3
  set k1 : Kernel := ({ k with freelist := l } : Kernel).setPage d fun _ => 0 with hk1
  have hmem : ∀ v ≠ d, k1.mem v = k.mem v := fun v hv => by
    rw [hk1, Kernel.setPage_mem, update_of_ne hv]
  have hne : ∀ {v}, own v ≠ .free → v ≠ d := by
    rintro v hvf rfl
    exact hvf hv
  refine ⟨hv, ⟨⟨fun v hv _ => update_of_ne hv _ _, fun d' hd' hdir n _ => ?_,
    fun d' hd' _ => hmem d' hd', fun v hv e => by rwa [update_of_ne hv] at e⟩, h3,
    update_self _ _ _⟩, fun m => ?_⟩
  · exact h.entry_eq (fun v hv => hmem v (hne (by rcases hv with e | ⟨_, _, e⟩ <;> simp [e])))
      hdir n
  · rw [Kernel.entry, if_neg]
    rw [Kernel.pde, hk1, Kernel.setPage_mem, update_self]
    exact not_present_zero

/-- `setupkvm`: a new directory with an empty user half, or only lost pages. -/
theorem setupkvm_new (h : Wf k own) {r : Option ℕ} (hr : setupkvm k = .ok (r, k')) :
    match r with
    | none => ∃ own', Wf k' own' ∧ Spared k own k' own'
    | some d => own d = .free ∧ ∃ own', Edits d k own k' own' ∧
        ∀ m < userPages, k'.entry d m = 0 := by
  unfold setupkvm at hr
  cases hl : k.freelist with
  | nil =>
    rw [kalloc_nil hl] at hr
    obtain ⟨rfl, rfl⟩ := pair_ok hr
    exact ⟨own, h, .refl k own⟩
  | cons d l =>
    rw [kalloc_cons hl] at hr
    obtain ⟨⟨b, k2⟩, e2, hr⟩ := bind_ok hr
    obtain ⟨hv, h1, hzero⟩ := h.makeDir hl
    obtain ⟨own2, hw, he⟩ := kmapLoop_edits h1.wf h1.dir (by decide : ∀ m ∈ kmap, KernMap m) e2
    have h12 := h1.trans hw
    cases b with
    | false =>
      obtain ⟨rfl, rfl⟩ := pair_ok hr
      exact ⟨_, hw.wf.forget hw.dir,
        (h12.toLocal.trans .forget).spared (by simp [hv, Fixed]) (by simp)⟩
    | true =>
      obtain ⟨rfl, rfl⟩ := pair_ok hr
      exact ⟨hv, own2, h12, fun m hm => (he m hm).trans (hzero m)⟩

/-! ### `copyuvm` -/

/-- The entries that the loop makes are all for user code, to read and to write. -/
theorem copyLoop_filled (h : Wf k own) (hd : own d = .dir) {lo : ℕ}
    (hu : lo + n ≤ userPages) (hr : copyLoop src d n (4096 * lo) k = .ok (b, k')) :
    ∃ own', Resized d k own k' own' ∧ (∀ m < lo, k'.entry d m = k.entry d m) ∧
      (b = true → ∀ m, lo ≤ m → m < lo + n →
        ∃ v, Page v ∧ k'.entry d m = v2p v ||| (PTE_W ||| PTE_U ||| PTE_P)) := by
  have hua := userPages_le
  induction n generalizing lo k own with
  | zero =>
    obtain ⟨_, rfl⟩ := pair_ok hr
    exact ⟨own, .refl h hd, fun _ _ => rfl, fun _ m _ _ => by omega⟩
  | succ n ih =>
    unfold copyLoop at hr
    split at hr
    · cases hr
    · split_ifs at hr
      dsimp only at hr
      cases hl : k.freelist with
      | nil =>
        rw [kalloc_nil hl] at hr
        obtain ⟨rfl, rfl⟩ := pair_ok hr
        exact ⟨own, .refl h hd, fun _ _ => rfl, by simp⟩
      | cons v l =>
        obtain ⟨_, _, hpage⟩ := h.alloc hl
        rw [kalloc_cons hl] at hr
        obtain ⟨⟨b1, k2⟩, e2, hr⟩ := bind_ok hr
        obtain ⟨own2, h2, _, hcase⟩ := map_new h hd hl (by omega) e2
        rcases hcase with ⟨rfl, _, _, _, hent, _⟩ | ⟨rfl, hent, _, _, _, hnew⟩
        · obtain ⟨rfl, rfl⟩ := pair_ok hr
          exact ⟨own2, h2, fun m _ => hent m, by simp⟩
        · have hrest : copyLoop src d n (4096 * (lo + 1)) k2 = .ok (b, k') := by
            rw [show 4096 * (lo + 1) = 4096 * lo + PGSIZE by unfold PGSIZE; omega]
            exact hr
          obtain ⟨own3, h3, he3, hf3⟩ := ih h2.wf h2.dir (by omega) hrest
          refine ⟨own3, h2.trans h3, fun m hm => ?_, fun hb m hm1 hm2 => ?_⟩
          · rw [he3 m (by omega), hent m (by omega) (by omega)]
          · by_cases e : m = lo
            · subst e
              exact ⟨v, hpage, (he3 m (by omega)).trans hnew⟩
            · exact hf3 hb m (by omega) (by omega)

theorem copyLoop_resized (h : Wf k own) (hd : own d = .dir) {lo : ℕ}
    (hu : lo + n ≤ userPages) (hr : copyLoop src d n (4096 * lo) k = .ok (b, k')) :
    ∃ own', Resized d k own k' own' ∧ (∀ m < lo, k'.entry d m = k.entry d m) ∧
      (b = true → ∀ m, lo ≤ m → m < lo + n → Present (k'.entry d m)) := by
  obtain ⟨own', hrs, hbelow, hfill⟩ := copyLoop_filled h hd hu hr
  refine ⟨own', hrs, hbelow, fun hb m hm1 hm2 => ?_⟩
  obtain ⟨v, hpage, hent⟩ := hfill hb m hm1 hm2
  rw [hent]
  exact hpage.present_or (by decide) (by decide)

/-- The entries of the directory that `copyuvm` makes. -/
theorem copyuvm_filled (h : Wf k own) (hsz : sz ≤ KERNBASE) (hr : copyuvm k src sz = .ok (some d, k'))
    {m : ℕ} (hm : 4096 * m < sz) : ∃ v, Page v ∧ k'.entry d m = v2p v ||| (PTE_W ||| PTE_U ||| PTE_P) := by
  obtain ⟨⟨r, k1⟩, e1, hr⟩ := bind_ok hr
  have h1 := setupkvm_new h e1
  cases r with
  | none => cases (pair_ok hr).1
  | some d' =>
    obtain ⟨-, own1, h1, -⟩ := h1
    obtain ⟨⟨b, k2⟩, e2, hr⟩ := bind_ok hr
    have hpg : 0 + (sz + PGSIZE - 1) / PGSIZE ≤ userPages := by
      unfold PGSIZE userPages KERNBASE at *
      omega
    obtain ⟨own2, -, -, hfill⟩ := copyLoop_filled h1.wf h1.dir hpg e2
    cases b with
    | true =>
      obtain ⟨hd, rfl⟩ := pair_ok hr
      obtain rfl := some.inj hd
      refine hfill rfl m (Nat.zero_le m) ?_
      unfold PGSIZE
      omega
    | false =>
      obtain ⟨k3, -, hr⟩ := bind_ok hr
      cases (pair_ok hr).1

/-- A directory with an empty user half has only pages of its own. -/
theorem priv_of_empty (h : ∀ m < userPages, k.entry d m = 0) : ∀ m < userPages, Priv k own d m := by
  intro m hm hp
  rw [h m hm] at hp
  exact absurd hp not_present_zero

/-- `copyuvm`: a new directory with copies of all pages, or nothing but lost pages. -/
theorem copyuvm_new (h : Wf k own) {r : Option ℕ} (hsz : sz ≤ KERNBASE)
    (hr : copyuvm k src sz = .ok (r, k')) :
    match r with
    | none => ∃ own', Wf k' own' ∧ Spared k own k' own'
    | some d => own d = .free ∧ ∃ own', Edits d k own k' own' ∧
        (∀ m < userPages, Priv k' own' d m) ∧ NoHoles k' d sz := by
  obtain ⟨⟨m, k1⟩, e1, hr⟩ := bind_ok hr
  have h1 := setupkvm_new h e1
  cases m with
  | none =>
    obtain ⟨rfl, rfl⟩ := pair_ok hr
    exact h1
  | some d =>
    obtain ⟨hd, own1, h1, hz⟩ := h1
    obtain ⟨⟨b, k2⟩, e2, hr⟩ := bind_ok hr
    have hpg : 0 + (sz + PGSIZE - 1) / PGSIZE ≤ userPages := by
      unfold PGSIZE userPages KERNBASE at *
      omega
    obtain ⟨own2, h2, _, hf⟩ := copyLoop_resized h1.wf h1.dir hpg e2
    have hpriv : ∀ m < userPages, Priv k2 own2 d m := fun m hm =>
      h2.priv m hm (priv_of_empty hz m hm)
    have h12 := h1.trans h2.toEdits
    cases b with
    | true =>
      obtain ⟨rfl, rfl⟩ := pair_ok hr
      refine ⟨hd, own2, h12, hpriv, fun m hm => hf rfl m (Nat.zero_le _) ?_⟩
      unfold PGSIZE
      omega
    | false =>
      obtain ⟨k3, e3, hr⟩ := bind_ok hr
      obtain ⟨rfl, rfl⟩ := pair_ok hr
      obtain ⟨own3, h3, hl3, hd3⟩ := freevm_local h2.wf h2.dir hpriv e3
      exact ⟨own3, h3, (h12.toLocal.trans hl3).spared (by simp [hd, Fixed]) (by simp [hd3])⟩

/-! ### Writing through entries -/

/-- The empty entry refers to the first page of memory, which has no role. -/
theorem Wf.frame_zero (h : Wf k own) : own (frame 0) = .none := by
  by_contra hne
  have hpage := h.page _ hne
  have e : frame 0 = 0x80000000 := by
    unfold frame
    decide
  rw [e] at hpage
  exact absurd hpage (by decide)

section
variable (h : Wf k own) (hd : own d = .dir)
include h hd

/-- The page behind an entry of the user half is neither a directory nor a table. -/
theorem Wf.user_frame (hn : n < userPages) :
    own (frame (k.entry d n)) ≠ .dir ∧ ∀ d' x, own (frame (k.entry d n)) ≠ .tab d' x := by
  by_cases hp : Present (k.entry d n)
  · rcases h.user d n hd hn hp with e | ⟨key, i, e⟩ <;> simp [e]
  · rw [h.absent d n hd hn hp, h.frame_zero]
    simp

/-- What user code and `uva2ka` can reach are pages of the user half. -/
theorem Wf.reach_frame (hu : k.entry d n / 4 % 2 = 1) :
    own (frame (k.entry d n)) ≠ .dir ∧ ∀ d' x, own (frame (k.entry d n)) ≠ .tab d' x := by
  have hlt : n % allPages < allPages := Nat.mod_lt _ (by decide)
  by_cases hn : n % allPages < userPages
  · have := h.user_frame hd hn
    rwa [entry_mod (Nat.mod_mod n allPages)] at this
  · have := h.kern d _ hd (by omega) hlt
    rw [entry_mod (Nat.mod_mod n allPages)] at this
    omega

theorem loadLoop_resized {addr j : ℕ} {data : FileData} (ha : n = 0 ∨ addr + 4096 * (j + n - 1) < KERNBASE)
    (hr : loadLoop d addr data n j k = .ok (b, k')) :
    Resized d k own k' own ∧ (∀ m, k'.entry d m = k.entry d m) ∧ k'.freelist = k.freelist := by
  induction n generalizing j k with
  | zero =>
    obtain ⟨_, rfl⟩ := pair_ok hr
    exact ⟨.refl h hd, fun _ => rfl, rfl⟩
  | succ n ih =>
    have ha' := ha.resolve_left (by omega)
    unfold loadLoop at hr
    rw [walkpgdir_false] at hr
    split at hr
    · cases hr
    · rename_i t i hw
      dsimp only at hw hr
      split_ifs at hw with hp
      obtain ⟨rfl, rfl⟩ := Prod.mk.inj (some.inj hw)
      rw [← entry_of_present hp, frame_eq] at hr
      have hn : u32 (addr + j * PGSIZE) / 4096 < userPages := by
        unfold u32 PGSIZE userPages KERNBASE at *
        omega
      obtain ⟨h1, he1⟩ := Resized.write h hd (h.user_frame hd hn)
        (data j (k.mem (frame (k.entry d (u32 (addr + j * PGSIZE) / 4096))))).2
      split_ifs at hr
      · obtain ⟨h2, he2, hf2⟩ := ih h1.wf (by
          by_cases hn0 : n = 0
          · exact .inl hn0
          · exact .inr (by omega)) hr
        exact ⟨h1.trans h2, fun m => (he2 m).trans (he1 m), hf2⟩
      · obtain ⟨_, rfl⟩ := pair_ok hr
        exact ⟨h1, he1, rfl⟩

theorem loaduvm_resized {addr : ℕ} {data : FileData} (ha : sz = 0 ∨ addr + sz ≤ KERNBASE) (hr : loaduvm k d addr data sz = .ok (b, k')) :
    Resized d k own k' own ∧ (∀ m, k'.entry d m = k.entry d m) ∧ k'.freelist = k.freelist := by
  unfold loaduvm at hr
  split_ifs at hr
  refine loadLoop_resized h hd ?_ hr
  unfold PGSIZE
  omega

theorem Wf.sealed : Sealed k d := by
  intro m hm
  obtain ⟨hdir, htab⟩ := h.reach_frame hd hm.2
  refine ⟨?_, .of_role h hd htab⟩
  intro e
  rw [e] at hdir
  exact hdir hd

theorem copyout_resized {va len : ℕ} {data : ℕ → (ℕ → ℕ) → (ℕ → ℕ)}
    (hr : copyout k d va len data = .ok (b, k')) :
    Resized d k own k' own ∧ ∀ m, k'.entry d m = k.entry d m := by
  obtain ⟨c, -, hall, rfl, -⟩ := copyout_ok (h.sealed hd) hr
  refine ⟨?_, (copied_frame (h.sealed hd) hall).1.entry⟩
  clear hr
  generalize va / 4096 = m at *
  generalize 0 = j
  induction c generalizing k m j with
  | zero => exact .refl h hd
  | succ c ih =>
    have hm : Reach k d m := hall 0 (by omega)
    obtain ⟨h1, he1⟩ := Resized.write h hd (h.reach_frame hd hm.2) (data j (k.mem (frame (k.entry d m))))
    refine h1.trans (ih h1.wf (m + 1) (fun i hi => ?_) (j + 1))
    unfold Reach
    rw [he1, Nat.add_assoc, Nat.add_comm 1]
    exact hall (i + 1) (by omega)

end

theorem clear_user (w : ℕ) :
    w - (w &&& PTE_U) = w ∧ w / 4 % 2 ≠ 1 ∨ w - (w &&& PTE_U) + 4 = w ∧ w / 4 % 2 = 1 := by
  by_cases hu : w / 4 % 2 = 1
  · have h4 : w &&& PTE_U = 4 := by
      have e := Nat.and_two_pow w 2
      rw [Nat.testBit_eq_decide_div_mod_eq, hu] at e
      exact e
    right
    rw [h4]
    omega
  · left
    rw [not_not.mp (mt (user_iff w).mp hu), Nat.sub_zero]
    exact ⟨rfl, hu⟩

theorem present_clear_user (w : ℕ) : Present (w - (w &&& PTE_U)) ↔ Present w := by
  have := clear_user w
  unfold Present
  omega

theorem frame_clear_user (w : ℕ) : frame (w - (w &&& PTE_U)) = frame w := by
  have hbit := clear_user w
  have : pteAddr (w - (w &&& PTE_U)) = pteAddr w := by
    unfold pteAddr PGSIZE
    omega
  unfold frame
  rw [this]

theorem clearpteu_store {uva : ℕ} (hr : clearpteu k d uva = .ok k') : Present (k.pde d (uva / 4096)) ∧
    k' = k.store (frame (k.pde d (uva / 4096))) (uva / 4096 % 1024)
      (k.entry d (uva / 4096) - (k.entry d (uva / 4096) &&& PTE_U)) := by
  unfold clearpteu at hr
  rw [walkpgdir_false] at hr
  split at hr
  · cases hr
  · rename_i t i hw
    dsimp only at hw
    split_ifs at hw with hp
    obtain ⟨rfl, rfl⟩ := Prod.mk.inj (some.inj hw)
    rw [← entry_of_present hp] at hr
    exact ⟨hp, (Except.ok.inj hr).symm⟩

theorem clearpteu_resized (h : Wf k own) (hd : own d = .dir) {uva : ℕ}
    (hn : uva / 4096 < userPages) (hr : clearpteu k d uva = .ok k') :
    Resized d k own k' own ∧
      (∀ m < allPages, Present (k.entry d m) → Present (k'.entry d m)) ∧
      (∀ m < allPages, m ≠ uva / 4096 → k'.entry d m = k.entry d m) ∧
      k'.entry d (uva / 4096) / 4 % 2 = 0 ∧ k'.mem d = k.mem d ∧ k'.freelist = k.freelist := by
  have hua := userPages_le
  obtain ⟨hp, rfl⟩ := clearpteu_store hr
  generalize uva / 4096 = n at *
  obtain ⟨w, hw⟩ : ∃ w, w = k.entry d n := ⟨_, rfl⟩
  rw [← hw]
  have hbit := clear_user w
  have hpr := present_clear_user w
  have hfr := frame_clear_user w
  generalize w - (w &&& PTE_U) = w' at *
  have h1 := Edits.setEntry h hd (w := w') (by omega) hp
    (fun _ e => by rw [hfr, hw]; exact h.user d n hd hn (hw ▸ hpr.mp e))
    (fun _ e => by
      have h0 : w = 0 := by rw [hw]; exact h.absent d n hd hn (hw ▸ mt hpr.mpr e)
      omega) (fun e => by omega)
  have hent : ∀ m < allPages, (k.store (frame (k.pde d n)) (n % 1024) w').entry d m =
      if m = n then w' else k.entry d m := by
    intro m hm
    rw [h.entry_store hd (by omega) hp hd hm]
    simp
  refine ⟨⟨h1, fun m hm hpm => ?_, fun m hm => ?_⟩, fun m hm hpm => ?_, fun m hm hne => ?_, ?_,
    h.store_mem_dir hd hp hd, rfl⟩
  · unfold Priv
    rw [hent m (by omega)]
    split_ifs with e
    · rw [hpr, hfr, hw, ← e]
      exact hpm
    · exact hpm
  · rw [pde_congr (h.store_mem_dir hd hp hd)]
    exact hm
  · rw [hent m hm]
    split_ifs with e
    · rw [hpr, hw, ← e]
      exact hpm
    · exact hpm
  · rw [hent m hm, if_neg hne]
  · rw [hent n (by omega), if_pos rfl]
    omega

end

end Xv6.Vm
