import Xv6.Vm.Owner

/-! # Address spaces

What the functions of `vm.c` do to one directory `d`, in terms of roles and entries. Every one of
them is `Local`: it takes and gives back pages without a role of their own, pages of `d` and its
tables, and leaves the entries of all other directories as they are. -/

namespace Xv6.Vm

open Fallible Function

/-- The role of a page that has nothing to do with the directory `d`. -/
def Foreign (d : ℕ) : Role → Prop
  | .none => False
  | .free => False
  | .tab d' _ => d' ≠ d
  | .user d' _ => d' ≠ d
  | _ => True

/-- Nothing happens to other directories, to kernel stacks and to segments. -/
structure Local (d : ℕ) (k : Kernel) (own : ℕ → Role) (k' : Kernel) (own' : ℕ → Role) : Prop where
  role : ∀ v ≠ d, Foreign d (own v) → own' v = own v
  entry : ∀ d' ≠ d, own d' = .dir → ∀ n < allPages, k'.entry d' n = k.entry d' n
  pde : ∀ d' ≠ d, own d' = .dir → k'.mem d' = k.mem d'
  back : ∀ v ≠ d, own' v = .dir → own v = .dir

/-- The same, and `d` remains a directory. -/
structure Edits (d : ℕ) (k : Kernel) (own : ℕ → Role) (k' : Kernel) (own' : ℕ → Role) : Prop
    extends Local d k own k' own' where
  wf : Wf k' own'
  dir : own' d = .dir

/-- Page number `n` is unmapped or mapped to a private page. -/
def Priv (k : Kernel) (own : ℕ → Role) (d n : ℕ) : Prop :=
  Present (k.entry d n) → own (frame (k.entry d n)) = .user d n

/-- All pages below `sz` are mapped. -/
def NoHoles (k : Kernel) (d sz : ℕ) : Prop := ∀ m, 4096 * m < sz → Present (k.entry d m)

/-- An edit by which no page of a segment gets mapped and no table goes away. -/
structure Resized (d : ℕ) (k : Kernel) (own : ℕ → Role) (k' : Kernel) (own' : ℕ → Role) : Prop
    extends Edits d k own k' own' where
  priv : ∀ n < userPages, Priv k own d n → Priv k' own' d n
  tables : ∀ n, Present (k.pde d n) → Present (k'.pde d n)

section
variable {d : ℕ} {k k1 k2 : Kernel} {own own1 own2 : ℕ → Role}

theorem Local.refl (d : ℕ) (k : Kernel) (own : ℕ → Role) : Local d k own k own :=
  ⟨fun _ _ _ => rfl, fun _ _ _ _ _ => rfl, fun _ _ _ => rfl, fun _ _ h => h⟩

theorem Local.dir_of_dir (h : Local d k own k1 own1) {d' : ℕ} (hne : d' ≠ d) (hd : own d' = .dir) :
    own1 d' = .dir := by
  rw [h.role d' hne (by rw [hd]; trivial), hd]

theorem Local.trans (h : Local d k own k1 own1) (h' : Local d k1 own1 k2 own2) :
    Local d k own k2 own2 := by
  refine ⟨fun v hv hf => ?_, fun d' hne hd n hn => ?_, fun d' hne hd => ?_,
    fun v hv hd => h.back v hv (h'.back v hv hd)⟩
  · have e := h.role v hv hf
    rw [h'.role v hv (by rw [e]; exact hf), e]
  · rw [h'.entry d' hne (h.dir_of_dir hne hd) n hn, h.entry d' hne hd n hn]
  · rw [h'.pde d' hne (h.dir_of_dir hne hd), h.pde d' hne hd]

theorem Edits.refl (h : Wf k own) (hd : own d = .dir) : Edits d k own k own :=
  ⟨.refl d k own, h, hd⟩

theorem Edits.trans (h : Edits d k own k1 own1) (h' : Edits d k1 own1 k2 own2) :
    Edits d k own k2 own2 :=
  ⟨h.toLocal.trans h'.toLocal, h'.wf, h'.dir⟩

theorem Resized.refl (h : Wf k own) (hd : own d = .dir) : Resized d k own k own :=
  ⟨.refl h hd, fun _ _ hp => hp, fun _ hp => hp⟩

theorem Resized.trans (h : Resized d k own k1 own1) (h' : Resized d k1 own1 k2 own2) :
    Resized d k own k2 own2 :=
  ⟨h.toEdits.trans h'.toEdits, fun n hn hp => h'.priv n hn (h.priv n hn hp),
    fun n hp => h'.tables n (h.tables n hp)⟩

end

section
variable {d v n w perm a : ℕ} {k k' : Kernel} {own : ℕ → Role} {b : Bool}

/-! ### Elementary edits -/

theorem dir_of_update {r : Role} (hr : r ≠ .dir) (h : update own v r w = .dir) : own w = .dir := by
  by_cases e : w = v
  · subst e
    rw [update_self] at h
    exact absurd h hr
  · rwa [update_of_ne e] at h

theorem Resized.alloc (h : Wf k own) (hd : own d = .dir) {l : List ℕ} (hl : k.freelist = v :: l) :
    Resized d k own { k with freelist := l } (update own v .none) := by
  obtain ⟨hw, hv, _⟩ := h.alloc hl
  have hne : ∀ {w}, own w ≠ .free → w ≠ v := by
    rintro w hne rfl
    exact hne hv
  refine ⟨⟨⟨fun w _ hf => ?_, fun _ _ _ _ _ => rfl, fun _ _ _ => rfl,
    fun w _ hd' => dir_of_update (by simp) hd'⟩, hw, ?_⟩, fun n hn hp hpr => ?_, fun _ hp => hp⟩
  · refine update_of_ne (hne fun e => ?_) _ _
    rw [e] at hf
    exact hf
  · rw [update_of_ne (hne (by simp [hd])), hd]
  · have hu : own (frame (k.entry d n)) = .user d n := hp hpr
    show update own v .none (frame (k.entry d n)) = _
    rw [update_of_ne (hne (by simp [hu])), hu]

/-- A write to a page that is neither a directory nor a table. -/
theorem Resized.write (h : Wf k own) (hd : own d = .dir)
    (hv : own v ≠ .dir ∧ ∀ d x, own v ≠ .tab d x) (f : ℕ → ℕ) :
    Resized d k own (k.setPage v f) own ∧ ∀ n, (k.setPage v f).entry d n = k.entry d n := by
  obtain ⟨hw, he⟩ := h.write hv f
  have hmem : ∀ d', own d' = .dir → (k.setPage v f).mem d' = k.mem d' := by
    intro d' hd'
    rw [Kernel.setPage_mem, update_of_ne]
    rintro rfl
    exact hv.1 hd'
  refine ⟨⟨⟨⟨fun _ _ _ => rfl, fun d' _ hd' n _ => he d' n hd', fun d' _ hd' => hmem d' hd',
    fun _ _ h => h⟩, hw, hd⟩, fun n _ hp => ?_, fun n hp => ?_⟩, fun n => he d n hd⟩
  · unfold Priv
    rw [he d n hd]
    exact hp
  · rw [pde_congr (hmem d hd)]
    exact hp

theorem Local.freed (h : Wf k own) (hv : own v = .none) (hpage : Page v) :
    Local d k own (k.freed v) (update own v .free) := by
  obtain ⟨_, he⟩ := h.freed hv hpage
  have hne : ∀ {w}, own w ≠ .none → w ≠ v := by
    rintro w hw rfl
    exact hw hv
  refine ⟨fun w _ hf => update_of_ne (hne fun e => ?_) _ _, fun d' _ hd' n _ => he d' n hd',
    fun d' _ hd' => k.freed_mem_of_ne (hne (by simp [hd'])), fun w _ hd' =>
    dir_of_update (by simp) hd'⟩
  rw [e] at hf
  exact hf

theorem Edits.setEntry (h : Wf k own) (hd : own d = .dir) (hn : n < allPages) (hp : Present (k.pde d n))
    (hu : n < userPages → Present w → own (frame w) = .user d n ∨ ∃ key i, own (frame w) = .seg key i)
    (hz : n < userPages → ¬ Present w → w = 0) (hk : userPages ≤ n → w / 4 % 2 = 0) :
    Edits d k own (k.store (frame (k.pde d n)) (n % 1024) w) own := by
  refine ⟨⟨fun _ _ _ => rfl, fun d' hne hd' m hm => ?_, fun d' _ hd' => h.store_mem_dir hd hp hd',
    fun _ _ h => h⟩, h.setEntry hd hn hp hu hz hk, hd⟩
  rw [h.entry_store hd hn hp hd' hm, if_neg fun e => hne e.1]

/-- A page without a role, or of `d`, gets another such role. -/
theorem Local.relabel {r : Role} (hv : ¬ Foreign d (own v)) (hr : r ≠ .dir) :
    Local d k own k (update own v r) := by
  refine ⟨fun w _ hf => update_of_ne ?_ _ _, fun _ _ _ _ _ => rfl, fun _ _ _ => rfl,
    fun w _ h => dir_of_update hr h⟩
  rintro rfl
  exact hv hf

theorem Local.forget : Local d k own k (update own d .none) :=
  ⟨fun _ hv _ => update_of_ne hv _ _, fun _ _ _ _ _ => rfl, fun _ _ _ => rfl,
    fun _ _ h => dir_of_update (by simp) h⟩

/-! ### Making sure that there is a table -/

/-- The state in which the free page `v` has become the table `x` of `d`. -/
def Kernel.withTable (k : Kernel) (d x v : ℕ) (l : List ℕ) : Kernel :=
  (({ k with freelist := l } : Kernel).setPage v fun _ => 0).store d x (v2p v ||| (PTE_P ||| PTE_W ||| PTE_U))

/-- What `walkpgdir` with allocation leaves when it finds or makes a table for page number `n`. -/
structure HasTable (d n : ℕ) (k : Kernel) (own : ℕ → Role) (k' : Kernel) (own' : ℕ → Role) : Prop
    extends Resized d k own k' own' where
  present : Present (k'.pde d n)
  entry_eq : ∀ m, k'.entry d m = k.entry d m
  keep : ∀ v, own v ≠ .free → own' v = own v
  tables_iff : ∀ m, Present (k'.pde d m) ↔
    Present (k.pde d m) ∨ m / 1024 % 1024 = n / 1024 % 1024
  free : k'.freelist.length + (if Present (k.pde d n) then 0 else 1) = k.freelist.length

theorem HasTable.self (h : Wf k own) (hd : own d = .dir) (hp : Present (k.pde d n)) :
    HasTable d n k own k own := by
  refine ⟨.refl h hd, hp, fun _ => rfl, fun _ _ => rfl, fun m => ⟨.inl, ?_⟩, by rw [if_pos hp]; rfl⟩
  rintro (hm | hm)
  · exact hm
  · unfold Kernel.pde at hp ⊢
    rw [hm]
    exact hp

theorem HasTable.new (h : Wf k own) (hd : own d = .dir) {l : List ℕ}
    (hp : ¬ Present (k.pde d n)) (hl : k.freelist = v :: l) :
    HasTable d n k own (k.withTable d (n / 1024 % 1024) v l) (update own v (.tab d (n / 1024 % 1024))) ∧
    frame ((k.withTable d (n / 1024 % 1024) v l).pde d n) = v := by
  set x := n / 1024 % 1024 with hx
  have hx' : x < 1024 := Nat.mod_lt _ (by decide)
  obtain ⟨h1, hv, hpage⟩ := h.alloc hl
  have hdv : d ≠ v := by
    rintro rfl
    rw [hv] at hd
    cases hd
  set k1 : Kernel := { k with freelist := l } with hk1
  have hd1 : update own v .none d = .dir := by rw [update_of_ne hdv, hd]
  have hv1 : update own v .none v = .none := update_self _ _ _
  obtain ⟨h2, he2⟩ := h1.write (v := v) (by simp) fun _ => 0
  have h3 := h2.relabel (.of_none hv1) (by simp) (fun _ => hpage) (r := .tab d x) (by simp) (by simp)
    (by simp)
  rw [update_idem] at h3
  set own' := update own v (.tab d x) with hown
  have hd3 : own' d = .dir := by rw [hown, update_of_ne hdv, hd]
  have hmd : (k1.setPage v fun _ => 0).mem d = k.mem d := by
    rw [Kernel.setPage_mem, update_of_ne hdv]
  have hf7 : PTE_P ||| PTE_W ||| PTE_U < 4096 := by decide
  have hw := hpage.present_or hf7 (by decide)
  have hf : frame (v2p v ||| (PTE_P ||| PTE_W ||| PTE_U)) = v := hpage.frame_or hf7
  obtain ⟨h4, he4⟩ := h3.setPde hd3 hx' (by rw [hmd]; exact hp) (by simp [hown]) (by simp) hw hf
  have hpde : ∀ m, (k.withTable d x v l).pde d m =
      if m / 1024 % 1024 = x then v2p v ||| (PTE_P ||| PTE_W ||| PTE_U) else k.pde d m := by
    intro m
    unfold Kernel.withTable Kernel.pde
    rw [Kernel.store_mem, update_self]
    split_ifs with e
    · rw [e, update_self]
    · rw [update_of_ne e, hmd]
  have hentry : ∀ d' m, own d' = .dir → (k.withTable d x v l).entry d' m = k.entry d' m := by
    intro d' m hd'
    have hne : d' ≠ v := by
      rintro rfl
      rw [hv] at hd'
      cases hd'
    rw [Kernel.withTable, he4 d' m (by rw [hown, update_of_ne hne, hd']),
      he2 d' m (by rw [update_of_ne hne, hd'])]
    rfl
  have hkeep : ∀ w, own w ≠ .free → own' w = own w := by
    intro w hne
    rw [hown, update_of_ne]
    rintro rfl
    exact hne hv
  have htab : ∀ m, Present ((k.withTable d x v l).pde d m) ↔
      Present (k.pde d m) ∨ m / 1024 % 1024 = x := by
    intro m
    rw [hpde]
    split_ifs with e
    · simp [hw, e]
    · simp [e]
  refine ⟨⟨⟨⟨⟨fun w _ hf => hkeep w fun e => ?_, fun d' _ hd' m _ => hentry d' m hd',
    fun d' hne hd' => ?_, fun w _ h => dir_of_update (by simp) h⟩, h4, hd3⟩, fun m _ hpm => ?_, fun m hm => (htab m).mpr (.inl hm)⟩,
    ?_, fun m => hentry d m hd, hkeep, htab, ?_⟩, ?_⟩
  · rw [e] at hf
    exact hf
  · have hne' : d' ≠ v := by
      rintro rfl
      rw [hv] at hd'
      cases hd'
    rw [Kernel.withTable, Kernel.store_mem, update_of_ne hne, Kernel.setPage_mem,
      update_of_ne hne']
  · intro hpr
    rw [hentry d m hd] at hpr ⊢
    have hu := hpm hpr
    rw [hkeep _ (by simp [hu]), hu]
  · rw [hpde, if_pos rfl]
    exact hw
  · rw [if_neg hp, hl]
    rfl
  · rw [hpde, if_pos rfl]
    exact hf

theorem Wf.walk (h : Wf k own) (hd : own d = .dir) (va : ℕ) :
    (¬ Present (k.pde d (va / 4096)) ∧ k.freelist = [] ∧ walkpgdir k d va true = (none, k)) ∨
    ∃ k1 own1, walkpgdir k d va true =
        (some (frame (k1.pde d (va / 4096)), va / 4096 % 1024), k1) ∧
      HasTable d (va / 4096) k own k1 own1 := by
  unfold walkpgdir
  simp only [present_and, pdx_eq, ptx_eq, frame_eq, Bool.true_eq_false, if_false]
  by_cases hp : Present (k.pde d (va / 4096))
  · exact .inr ⟨k, own, if_pos hp, .self h hd hp⟩
  · have hp' : ¬ Present (k.mem d (va / 4096 / 1024 % 1024)) := hp
    simp only [if_neg hp']
    cases hl : k.freelist with
    | nil =>
      rw [kalloc_nil hl]
      exact .inl ⟨hp, rfl, rfl⟩
    | cons v l =>
      rw [kalloc_cons hl]
      obtain ⟨h1, h2⟩ := HasTable.new h hd hp hl
      exact .inr ⟨_, _, by rw [h2]; rfl, h1⟩

/-! ### Mapping -/

theorem mapLoop_succ (h : Wf k own) (hd : own d = .dir) {pa : ℕ}
    (hr : mapLoop d perm (n + 1) a pa k = .ok (b, k')) :
    (b = false ∧ k' = k ∧ k.freelist = [] ∧ ¬ Present (k.pde d (a / 4096))) ∨
    ∃ k1 own1, HasTable d (a / 4096) k own k1 own1 ∧ ¬ Present (k.entry d (a / 4096)) ∧
      mapLoop d perm n (u32 (a + PGSIZE)) (u32 (pa + PGSIZE))
        (k1.store (frame (k1.pde d (a / 4096))) (a / 4096 % 1024) (pa ||| (perm ||| PTE_P))) =
          .ok (b, k') := by
  unfold mapLoop at hr
  rcases h.walk hd a with ⟨hp, hl, hw⟩ | ⟨k1, own1, hw, ht⟩
  · rw [hw] at hr
    obtain ⟨rfl, rfl⟩ := pair_ok hr
    exact .inl ⟨rfl, rfl, hl, hp⟩
  · rw [hw] at hr
    simp only [present_and] at hr
    split_ifs at hr with hpr
    refine .inr ⟨k1, own1, ht, ?_, hr⟩
    rw [← ht.entry_eq, entry_of_present ht.present]
    exact hpr

theorem mappages_one {pa : ℕ} (ha : a % 4096 = 0) (hlt : a < 2 ^ 31) :
    mappages k d a PGSIZE pa perm = mapLoop d perm 1 a pa k := by
  have h1 : pgRoundDown a = a := by
    unfold pgRoundDown PGSIZE
    omega
  have h2 : pgRoundDown (u32 (a + PGSIZE + 2 ^ 32 - 1)) = a := by
    unfold pgRoundDown PGSIZE u32
    omega
  have h3 : u32 (a + 2 ^ 32 - a) / PGSIZE + 1 = 1 := by
    have : a + 2 ^ 32 - a = 2 ^ 32 := by omega
    rw [this]
    decide
  unfold mappages
  rw [h1, h2]
  dsimp only
  rw [h3]

/-- What mapping page number `n` by the entry `w` leaves. -/
structure Mapped (d n w : ℕ) (k : Kernel) (own : ℕ → Role) (k' : Kernel) (own' : ℕ → Role) : Prop
    extends Edits d k own k' own' where
  fresh : ¬ Present (k.entry d n)
  entry_eq : ∀ m < allPages, k'.entry d m = if m = n then w else k.entry d m
  keep : ∀ v ≠ frame w, own v ≠ .free → own' v = own v
  tables_iff : ∀ m, Present (k'.pde d m) ↔
    Present (k.pde d m) ∨ m / 1024 % 1024 = n / 1024 % 1024
  free : k'.freelist.length + (if Present (k.pde d n) then 0 else 1) = k.freelist.length

theorem HasTable.store_pde {k1 : Kernel} {own1 : ℕ → Role} (ht : HasTable d n k own k1 own1) (m : ℕ) :
    (k1.store (frame (k1.pde d n)) (n % 1024) w).pde d m = k1.pde d m :=
  congrFun (ht.wf.store_mem_dir ht.dir ht.present ht.dir) _

/-- Mapping a page in nobody's hands makes it private. -/
theorem map_private (h : Wf k own) (hd : own d = .dir)
    (hn : a / 4096 < userPages) (hv : own v = .none) (hpage : Page v)
    (hf : perm ||| PTE_P < 4096) (ho : (perm ||| PTE_P) % 2 = 1)
    (hr : mapLoop d perm 1 a (v2p v) k = .ok (b, k')) :
    (b = false ∧ k' = k ∧ k.freelist = [] ∧ ¬ Present (k.pde d (a / 4096))) ∨
    (b = true ∧ ∃ own', Mapped d (a / 4096) (v2p v ||| (perm ||| PTE_P)) k own k' own' ∧
      Resized d k own k' own' ∧ own' v = .user d (a / 4096)) := by
  have hua := userPages_le
  rcases mapLoop_succ h hd hr with hr | ⟨k1, own1, ht, hnp, hr⟩
  · exact .inl hr
  obtain ⟨rfl, rfl⟩ := pair_ok hr
  generalize a / 4096 = n at *
  have hw := hpage.present_or hf ho
  have hfr := hpage.frame_or hf
  set w := v2p v ||| (perm ||| PTE_P) with hw'
  have hv1 : own1 v = .none := by rw [ht.keep v (by simp [hv]), hv]
  have hvd : v ≠ d := by
    rintro rfl
    rw [hd] at hv
    cases hv
  have h2 := ht.wf.relabel (.of_none hv1) (by simp [hv1]) (fun _ => hpage) (r := .user d n)
    (by simp) (by simp) (by simp)
  set own' := update own1 v (.user d n) with hown
  have hd2 : own' d = .dir := by rw [hown, update_of_ne hvd.symm, ht.dir]
  have hl2 : Local d k1 own1 k1 own' := .relabel (by simp [hv1, Foreign]) (by simp)
  have hv2 : own' v = .user d n := by rw [hown, update_self]
  have h3 := Edits.setEntry h2 hd2 (w := w) (by omega) ht.present
    (fun _ _ => .inl (by rw [hfr, hv2])) (fun _ hnp => absurd hw hnp) (fun e => by omega)
  have hentry : ∀ m < allPages, (k1.store (frame (k1.pde d n)) (n % 1024) w).entry d m =
      if m = n then w else k.entry d m := by
    intro m hm
    rw [h2.entry_store hd2 (by omega) ht.present hd2 hm, ht.entry_eq]
    simp
  have hkeep : ∀ u ≠ v, own u ≠ .free → own' u = own u := by
    intro u hu huf
    rw [hown, update_of_ne hu, ht.keep u huf]
  have hed : Edits d k own (k1.store (frame (k1.pde d n)) (n % 1024) w) own' :=
    ⟨(ht.toLocal.trans hl2).trans h3.toLocal, h3.wf, h3.dir⟩
  refine .inr ⟨rfl, own', ⟨hed, hnp, hentry, by rwa [hfr], fun m => ?_, ?_⟩,
    ⟨hed, fun m hm hpm hpr => ?_, fun m hm => ?_⟩, hv2⟩
  · rw [ht.store_pde]
    exact ht.tables_iff m
  · exact ht.free
  · rw [hentry m (by omega)] at hpr ⊢
    split_ifs at hpr ⊢ with e
    · rw [hfr, hv2, e]
    · have hu := hpm hpr
      rw [hkeep _ _ (by simp [hu]), hu]
      intro e
      rw [e, hv] at hu
      cases hu
  · rw [ht.store_pde]
    exact ht.tables m hm

theorem map_seg (h : Wf k own) (hd : own d = .dir) {key i : ℕ}
    (hn : a / 4096 < userPages) (hv : own v = .seg key i)
    (hf : perm ||| PTE_P < 4096) (ho : (perm ||| PTE_P) % 2 = 1)
    (hr : mapLoop d perm 1 a (v2p v) k = .ok (b, k')) :
    (b = false ∧ k' = k ∧ k.freelist = [] ∧ ¬ Present (k.pde d (a / 4096))) ∨
    (b = true ∧ ∃ own', Mapped d (a / 4096) (v2p v ||| (perm ||| PTE_P)) k own k' own') := by
  have hua := userPages_le
  rcases mapLoop_succ h hd hr with hr | ⟨k1, own1, ht, hnp, hr⟩
  · exact .inl hr
  obtain ⟨rfl, rfl⟩ := pair_ok hr
  generalize a / 4096 = n at *
  have hpage := h.page v (by simp [hv])
  have hw := hpage.present_or hf ho
  have hfr := hpage.frame_or hf
  set w := v2p v ||| (perm ||| PTE_P) with hw'
  have hv1 : own1 v = .seg key i := by rw [ht.keep v (by simp [hv]), hv]
  have h3 := Edits.setEntry ht.wf ht.dir (w := w) (by omega) ht.present
    (fun _ _ => .inr ⟨key, i, by rw [hfr, hv1]⟩) (fun _ hnp => absurd hw hnp) (fun e => by omega)
  refine .inr ⟨rfl, own1, ⟨ht.toEdits.trans h3, hnp, fun m hm => ?_, fun u _ huf => ht.keep u huf,
    fun m => ?_, ht.free⟩⟩
  · rw [ht.wf.entry_store ht.dir (by omega) ht.present ht.dir hm, ht.entry_eq]
    simp
  · rw [ht.store_pde]
    exact ht.tables_iff m

/-! ### Unmapping -/

/-- Freeing a page and clearing a word of another one, in either order. -/
theorem freed_store {t i : ℕ} (h : t ≠ v) : (k.freed v).store t i w = (k.store t i w).freed v := by
  unfold Kernel.freed Kernel.store Kernel.setPage
  simp only [update_of_ne h, Kernel.mk.injEq, and_true]
  exact update_comm h.symm _ _ _

/-- Storing `0` in an entry takes the page out of the directory; a private page is then in nobody's
hands. -/
theorem clear_entry (h : Wf k own) (hd : own d = .dir) (hn : n < allPages) (hp : Present (k.pde d n)) :
    ∃ own', Resized d k own (k.store (frame (k.pde d n)) (n % 1024) 0) own' ∧
      (∀ v, own' v = own v ∨ own v = .user d n ∧ own' v = .none ∧ v = frame (k.entry d n)) ∧
      (n < userPages → Present (k.entry d n) → own' (frame (k.entry d n)) ≠ .user d n) := by
  have h1 := Edits.setEntry h hd (w := 0) hn hp (fun _ e => absurd e not_present_zero)
    (fun _ _ => rfl) (fun _ => rfl)
  set k1 := k.store (frame (k.pde d n)) (n % 1024) 0 with hk1
  have hentry : ∀ m < allPages, k1.entry d m = if m = n then 0 else k.entry d m := by
    intro m hm
    rw [hk1, h.entry_store hd hn hp hd hm]
    simp
  have hpde : ∀ m, k1.pde d m = k.pde d m := fun m => congrFun (h.store_mem_dir hd hp hd) _
  have hua := userPages_le
  by_cases hv : own (frame (k.entry d n)) = .user d n
  · set v := frame (k.entry d n) with hvf
    have hidle : Idle k1 own v := by
      refine ⟨by simp [hv], fun d' n' e _ hn' hpr => ?_, by simp [hv]⟩
      rw [hv] at e
      obtain ⟨rfl, rfl⟩ := Role.user.inj e
      rw [hentry n (by omega), if_pos rfl] at hpr
      exact absurd hpr not_present_zero
    have h2 := h1.wf.relabel hidle (by simp [hv]) (r := .none) (by simp) (by simp) (by simp)
      (by simp)
    have hvd : d ≠ v := by
      intro e
      rw [← e, hd] at hv
      cases hv
    have hl : Local d k1 own k1 (update own v .none) := .relabel (by simp [hv, Foreign]) (by simp)
    refine ⟨update own v .none, ⟨⟨h1.toLocal.trans hl, h2, ?_⟩, fun m hm hpm hpr => ?_,
      fun m hm => ?_⟩, fun u => ?_, fun _ _ => ?_⟩
    · rw [update_of_ne hvd, hd]
    · rw [hentry m (by omega)] at hpr ⊢
      split_ifs at hpr ⊢ with e
      · exact absurd hpr not_present_zero
      · have hu := hpm hpr
        rw [update_of_ne, hu]
        intro e'
        rw [e', hv] at hu
        exact e (Role.user.inj hu).2.symm
    · rw [hpde]
      exact hm
    · by_cases e : u = v
      · rw [e]
        exact .inr ⟨hv, update_self _ _ _, hvf⟩
      · exact .inl (update_of_ne e _ _)
    · rw [update_self]
      simp
  · refine ⟨own, ⟨h1, fun m hm hpm hpr => ?_, fun m hm => by rw [hpde]; exact hm⟩,
      fun _ => .inl rfl, fun _ _ => hv⟩
    rw [hentry m (by omega)] at hpr ⊢
    split_ifs at hpr ⊢ with e
    · exact absurd hpr not_present_zero
    · exact hpm hpr

/-- Only entries from page number `lo` up to `hi` change, and those become empty. -/
structure Shrunk (d lo hi : ℕ) (k : Kernel) (own : ℕ → Role) (k' : Kernel) (own' : ℕ → Role) : Prop
    extends Resized d k own k' own' where
  entry_or : ∀ m < allPages, k'.entry d m = k.entry d m ∨ lo ≤ m ∧ m < hi ∧ k'.entry d m = 0
  mem_eq : k'.mem d = k.mem d

theorem Shrunk.refl (h : Wf k own) (hd : own d = .dir) (lo hi : ℕ) : Shrunk d lo hi k own k own :=
  ⟨.refl h hd, fun _ _ => .inl rfl, rfl⟩

theorem Shrunk.trans {lo hi lo' hi' : ℕ} {k1 : Kernel} {own1 own' : ℕ → Role}
    (h : Shrunk d lo hi k own k1 own1) (h' : Shrunk d lo' hi' k1 own1 k' own') :
    Shrunk d (min lo lo') (max hi hi') k own k' own' := by
  refine ⟨h.toResized.trans h'.toResized, fun m hm => ?_, h'.mem_eq.trans h.mem_eq⟩
  rcases h'.entry_or m hm with e' | ⟨h1, h2, e'⟩
  · rw [e']
    rcases h.entry_or m hm with e | ⟨h1, h2, e⟩
    · exact .inl e
    · exact .inr ⟨by omega, by omega, e⟩
  · exact .inr ⟨by omega, by omega, e'⟩

theorem Shrunk.mono {lo hi lo' hi' : ℕ} {own' : ℕ → Role} (h : Shrunk d lo hi k own k' own')
    (hlo : lo' ≤ lo) (hhi : hi ≤ hi') : Shrunk d lo' hi' k own k' own' := by
  refine ⟨h.toResized, fun m hm => ?_, h.mem_eq⟩
  rcases h.entry_or m hm with e | ⟨h1, h2, e⟩
  · exact .inl e
  · exact .inr ⟨by omega, by omega, e⟩

theorem unmap_private (h : Wf k own) (hd : own d = .dir) (hn : n < userPages)
    (hpr : Present (k.entry d n)) (hpriv : Priv k own d n) :
    ∃ own', Shrunk d n (n + 1) k own
      ((k.freed (frame (k.entry d n))).store (frame (k.pde d n)) (n % 1024) 0) own' := by
  have hua := userPages_le
  have hp := pde_of_entry hpr
  have hv := hpriv hpr
  have hpage := h.page _ (by simp [hv] : own (frame (k.entry d n)) ≠ .none)
  have htv : frame (k.pde d n) ≠ frame (k.entry d n) := by
    intro e
    have ht := h.tab_pde hd hp
    rw [e, hv] at ht
    cases ht
  rw [freed_store htv]
  obtain ⟨own1, h1, h2, h3⟩ := clear_entry h hd (by omega) hp
  have hv1 : own1 (frame (k.entry d n)) = .none := by
    rcases h2 (frame (k.entry d n)) with e | ⟨_, e, _⟩
    · exact absurd (e.trans hv) (h3 hn hpr)
    · exact e
  obtain ⟨h4, h5⟩ := h1.wf.freed hv1 hpage
  have hne : ∀ {w}, own1 w ≠ .none → w ≠ frame (k.entry d n) := by
    intro w hw e
    rw [e] at hw
    exact hw hv1
  have hmem := (k.store (frame (k.pde d n)) (n % 1024) 0).freed_mem_of_ne
    (hne (by simp [h1.dir] : own1 d ≠ .none))
  refine ⟨_, h1.trans ⟨⟨.freed h1.wf hv1 hpage, h4, ?_⟩, fun m _ hpm hpr => ?_, fun m hm => ?_⟩,
    fun m hm => ?_, ?_⟩
  · rw [update_of_ne (hne (by simp [h1.dir])), h1.dir]
  · rw [h5 d m h1.dir] at hpr ⊢
    have hu := hpm hpr
    rw [update_of_ne (hne (by simp [hu])), hu]
  · rw [pde_congr hmem]
    exact hm
  · rw [h5 d m h1.dir, h.entry_store hd (by omega) hp hd hm]
    by_cases e : m = n
    · subst e
      exact .inr ⟨le_refl _, by omega, by simp⟩
    · exact .inl (if_neg fun e' => e e'.2)
  · rw [hmem, h.store_mem_dir hd hp hd]

/-- The loop of `deallocuvm` frees private pages only, if there are only such in its range. -/
theorem deallocLoop_shrunk (h : Wf k own) (hd : own d = .dir) {oldsz fuel hi : ℕ}
    (hhi : oldsz ≤ 4096 * hi) (hu : hi ≤ userPages) (ha : a % 4096 = 0)
    (hpriv : ∀ m, a / 4096 ≤ m → m < hi → Priv k own d m) (hr : deallocLoop d oldsz fuel a k = .ok k') :
    ∃ own', Shrunk d (a / 4096) hi k own k' own' := by
  induction fuel generalizing a k own with
  | zero =>
    obtain rfl := Except.ok.inj hr
    exact ⟨own, .refl h hd _ _⟩
  | succ fuel ih =>
    unfold deallocLoop at hr
    rw [walkpgdir_false] at hr
    by_cases hlt : a < oldsz
    swap
    · rw [if_neg hlt] at hr
      obtain rfl := Except.ok.inj hr
      exact ⟨own, .refl h hd _ _⟩
    rw [if_pos hlt] at hr
    by_cases hp : Present (k.pde d (a / 4096))
    · rw [if_pos hp] at hr
      dsimp only at hr
      rw [← entry_of_present hp, frame_eq] at hr
      by_cases hpr : Present (k.entry d (a / 4096))
      · rw [if_pos ((present_and _).mpr hpr)] at hr
        split_ifs at hr
        obtain ⟨k1, e1, hr⟩ := bind_ok hr
        have hv := hpriv _ (le_refl _) (by omega) hpr
        have hpage := h.page _ (by simp [hv] : own (frame (k.entry d (a / 4096))) ≠ .none)
        rw [kfree_page hpage] at e1
        obtain rfl := Except.ok.inj e1
        obtain ⟨own1, h1⟩ := unmap_private h hd (by omega) hpr (hpriv _ (le_refl _) (by omega))
        have ha' : (a + PGSIZE) / 4096 = a / 4096 + 1 := by
          unfold PGSIZE
          omega
        obtain ⟨own2, h2⟩ := ih h1.wf h1.dir (by unfold PGSIZE; omega)
          (fun m hm hm' => h1.priv m (by omega) (hpriv m (by omega) hm')) hr
        rw [ha'] at h2
        exact ⟨own2, (h1.trans h2).mono (by omega) (by omega)⟩
      · rw [if_neg (mt (present_and _).mp hpr)] at hr
        have ha' : (a + PGSIZE) / 4096 = a / 4096 + 1 := by
          unfold PGSIZE
          omega
        obtain ⟨own2, h2⟩ := ih h hd (by unfold PGSIZE; omega)
          (fun m hm hm' => hpriv m (by omega) hm') hr
        exact ⟨own2, h2.mono (by omega) (le_refl _)⟩
    · rw [if_neg hp] at hr
      have ha' : (a + (NPTENTRIES - 1) * PGSIZE + PGSIZE) / 4096 = a / 4096 + 1024 := by
        unfold PGSIZE NPTENTRIES
        omega
      obtain ⟨own2, h2⟩ := ih h hd (by unfold PGSIZE NPTENTRIES; omega)
        (fun m hm hm' => hpriv m (by omega) hm') hr
      exact ⟨own2, h2.mono (by omega) (le_refl _)⟩

theorem deallocuvm_shrunk (h : Wf k own) (hd : own d = .dir) {oldsz newsz hi r : ℕ}
    (hhi : oldsz ≤ 4096 * hi) (hu : hi ≤ userPages)
    (hpriv : ∀ m, pgRoundUp newsz / 4096 ≤ m → m < hi → Priv k own d m)
    (hr : deallocuvm k d oldsz newsz = .ok (r, k')) :
    (∃ own', Shrunk d (pgRoundUp newsz / 4096) hi k own k' own') ∧
      (newsz < oldsz ∧ r = newsz ∨ oldsz ≤ newsz ∧ r = oldsz ∧ k' = k) := by
  unfold deallocuvm at hr
  split_ifs at hr with hc
  · obtain ⟨rfl, rfl⟩ := pair_ok hr
    exact ⟨⟨own, .refl h hd _ _⟩, .inr ⟨hc, rfl, rfl⟩⟩
  · obtain ⟨k1, e1, hr⟩ := bind_ok hr
    obtain ⟨rfl, rfl⟩ := pair_ok hr
    refine ⟨deallocLoop_shrunk h hd hhi hu ?_ hpriv e1, .inl ⟨by omega, rfl⟩⟩
    unfold pgRoundUp PGSIZE
    omega

/-! ### The pages of the tables -/

/-- The page holds no table of the directory. -/
def NoTable (k : Kernel) (d v : ℕ) : Prop := ∀ m, Present (k.pde d m) → frame (k.pde d m) ≠ v

theorem NoTable.of_role (h : Wf k own) (hd : own d = .dir) (hv : ∀ d x, own v ≠ .tab d x) : NoTable k d v := by
  rintro m hp rfl
  exact hv _ _ (h.tab_pde hd hp)

end

end Xv6.Vm
