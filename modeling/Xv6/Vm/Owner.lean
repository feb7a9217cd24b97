import Xv6.Vm.Frame

/-! # Who owns a page

Every page has at most one use: it is free, a kernel stack, a page directory, a page table, a
private user page or a page of a live segment. `Role` names the use and `own : ℕ → Role` is a
ghost map from pages to uses; a page without a role is in nobody's hands (it may be on its way from
`kalloc` to a page table, or lost).

`Wf k own` says that the kernel's data agree with the map: what a pointer of a directory, a table,
the free list or `seg` refers to has the role that the pointer gives it. Two pointers with
different roles therefore never refer to the same page.

This module has the rules for the elementary changes; `Vm.Space` lifts them to the functions of
`vm.c`. -/

namespace Xv6.Vm

open Function

/-! ### The page tables as a map -/

/-- The entry is in use. -/
def Present (w : ℕ) : Prop := w % 2 = 1
deriving Decidable

/-- Page numbers, and those of the user half. -/
def allPages : ℕ := 2 ^ 20
def userPages : ℕ := 2 ^ 19

theorem userPages_le : userPages ≤ allPages := by decide

theorem kernbase_eq : KERNBASE = 2 ^ 31 := by decide

/-- The directory entry for page number `n`. -/
def Kernel.pde (k : Kernel) (d n : ℕ) : ℕ := k.mem d (n / 1024 % 1024)

/-- The page-table entry for page number `n`, and `0` if there is no table for it. -/
def Kernel.entry (k : Kernel) (d n : ℕ) : ℕ :=
  if Present (k.pde d n) then k.mem (frame (k.pde d n)) (n % 1024) else 0

theorem not_present_zero : ¬ Present 0 := by decide

theorem Page.present_or {v f : ℕ} (h : Page v) (hf : f < 4096) (ho : f % 2 = 1) :
    Present (v2p v ||| f) := by
  have ha := h.v2p_aligned
  rw [h.or_flags hf]
  unfold Present
  omega

theorem Page.pteAddr_ne {w : ℕ} (h : Page (frame w)) : pteAddr w ≠ 0 := by
  intro e
  have := h.ge
  unfold frame at this
  rw [e] at this
  exact absurd this (by decide)

theorem present_and (w : ℕ) : w &&& PTE_P ≠ 0 ↔ Present w := present_iff w

theorem pdx_eq (va : ℕ) : pdx va = va / 4096 / 1024 % 1024 := by
  unfold pdx
  omega

theorem ptx_eq (va : ℕ) : ptx va = va / 4096 % 1024 := rfl

theorem u32_next_page (pa : ℕ) {i j : ℕ} (h : i < j) :
    u32 (u32 (pa + PGSIZE) + 4096 * (j - (i + 1))) = u32 (pa + 4096 * (j - i)) := by
  unfold u32 PGSIZE
  omega

theorem page_ext {n m : ℕ} (hn : n < allPages) (hm : m < allPages)
    (h1 : n / 1024 % 1024 = m / 1024 % 1024) (h2 : n % 1024 = m % 1024) : n = m := by
  unfold allPages at hn hm
  omega

theorem walkpgdir_false (k : Kernel) (d va : ℕ) :
    walkpgdir k d va false =
      (if Present (k.pde d (va / 4096)) then some (frame (k.pde d (va / 4096)), va / 4096 % 1024)
        else none, k) := by
  unfold walkpgdir
  dsimp only
  simp only [present_and, pdx_eq, ptx_eq, frame_eq]
  show (if Present (k.pde d (va / 4096)) then _ else _) = _
  split_ifs <;> rfl

theorem entry_of_present {k : Kernel} {d n : ℕ} (h : Present (k.pde d n)) :
    k.entry d n = k.mem (frame (k.pde d n)) (n % 1024) := if_pos h

theorem pde_of_entry {k : Kernel} {d n : ℕ} (h : Present (k.entry d n)) : Present (k.pde d n) := by
  by_contra hp
  rw [Kernel.entry, if_neg hp] at h
  exact not_present_zero h

theorem pde_congr {k k' : Kernel} {d : ℕ} (h : k'.mem d = k.mem d) (n : ℕ) :
    k'.pde d n = k.pde d n := congrFun h _

theorem entry_congr {k k' : Kernel} (h : k'.mem = k.mem) : k'.entry = k.entry := by
  funext d n
  unfold Kernel.entry Kernel.pde
  rw [h]

/-! ### Roles -/

/-- The use of a page. -/
inductive Role where
  | none
  | free
  | kstack (p : Slot)
  | dir
  | tab (d x : ℕ)
  | user (d n : ℕ)
  | seg (key i : ℕ)
deriving DecidableEq

structure Wf (k : Kernel) (own : ℕ → Role) : Prop where
  page : ∀ v, own v ≠ .none → Page v
  free : ∀ v, v ∈ k.freelist ↔ own v = .free
  nodup : k.freelist.Nodup
  tab : ∀ d x, own d = .dir → x < 1024 → Present (k.mem d x) →
    own (frame (k.mem d x)) = .tab d x
  user : ∀ d n, own d = .dir → n < userPages → Present (k.entry d n) →
    own (frame (k.entry d n)) = .user d n ∨ ∃ key i, own (frame (k.entry d n)) = .seg key i
  absent : ∀ d n, own d = .dir → n < userPages → ¬ Present (k.entry d n) → k.entry d n = 0
  kern : ∀ d n, own d = .dir → userPages ≤ n → n < allPages → k.entry d n / 4 % 2 = 0
  seg : ∀ v key i, own v = .seg key i ↔
    key < numOfSegs ∧ (i : ℤ) < k.shm.pages key ∧ k.shm.seg key i = v

/-- No directory, table or segment refers to the page. -/
structure Idle (k : Kernel) (own : ℕ → Role) (v : ℕ) : Prop where
  notTab : ∀ d x, own v = .tab d x → own d ≠ .dir
  notUser : ∀ d n, own v = .user d n → own d = .dir → n < userPages → Present (k.entry d n) →
    frame (k.entry d n) ≠ v
  notSeg : ∀ key i, own v ≠ .seg key i

theorem Idle.of_none {k : Kernel} {own : ℕ → Role} {v : ℕ} (h : own v = .none) : Idle k own v := by
  constructor <;> simp [h]

theorem Idle.of_free {k : Kernel} {own : ℕ → Role} {v : ℕ} (h : own v = .free) : Idle k own v := by
  constructor <;> simp [h]

theorem Idle.of_dir {k : Kernel} {own : ℕ → Role} {v : ℕ} (h : own v = .dir) : Idle k own v := by
  constructor <;> simp [h]

theorem Idle.of_kstack {k : Kernel} {own : ℕ → Role} {v : ℕ} {p : Slot} (h : own v = .kstack p) :
    Idle k own v := by
  constructor <;> simp [h]

namespace Wf
variable {k k' : Kernel} {own : ℕ → Role} {v d : ℕ}

/-- The page that holds the table for page number `n`. -/
theorem tab_pde (h : Wf k own) {n : ℕ} (hd : own d = .dir) (hp : Present (k.pde d n)) :
    own (frame (k.pde d n)) = .tab d (n / 1024 % 1024) :=
  h.tab d _ hd (Nat.mod_lt _ (by decide)) hp

/-! ### Changes that the tables do not see -/

theorem entry_eq (h : Wf k own)
    (hmem : ∀ v, (own v = .dir ∨ ∃ d x, own v = .tab d x) → k'.mem v = k.mem v) (hd : own d = .dir) (n : ℕ) : k'.entry d n = k.entry d n := by
  have hpde : k'.pde d n = k.pde d n := by
    unfold Kernel.pde
    rw [hmem d (.inl hd)]
  unfold Kernel.entry
  rw [hpde]
  split_ifs with hp
  · rw [hmem _ (.inr ⟨_, _, h.tab_pde hd hp⟩)]
  · rfl

theorem congr (h : Wf k own) (hfree : k'.freelist = k.freelist) (hseg : SameSegs k k')
    (hmem : ∀ v, (own v = .dir ∨ ∃ d x, own v = .tab d x) → k'.mem v = k.mem v) :
    Wf k' own := by
  have he := fun {d} => h.entry_eq hmem (d := d)
  refine ⟨h.page, by rw [hfree]; exact h.free, by rw [hfree]; exact h.nodup,
    fun d x hd hx hp => ?_, fun d n hd hn hp => ?_, fun d n hd hn hp => ?_,
    fun d n hd h1 h2 => ?_, fun v key i => ?_⟩
  · rw [hmem d (.inl hd)] at hp ⊢
    exact h.tab d x hd hx hp
  · rw [he hd] at hp ⊢
    exact h.user d n hd hn hp
  · rw [he hd] at hp ⊢
    exact h.absent d n hd hn hp
  · rw [he hd]
    exact h.kern d n hd h1 h2
  · rw [h.seg v key i, hseg.pages, hseg.seg]

/-- Writing to a page that is neither a directory nor a table. -/
theorem write (h : Wf k own) (hv : own v ≠ .dir ∧ ∀ d x, own v ≠ .tab d x) (f : ℕ → ℕ) :
    Wf (k.setPage v f) own ∧ ∀ d n, own d = .dir → (k.setPage v f).entry d n = k.entry d n := by
  have hmem : ∀ w, (own w = .dir ∨ ∃ d x, own w = .tab d x) →
      (k.setPage v f).mem w = k.mem w := by
    intro w hw
    have hne : w ≠ v := by
      rintro rfl
      rcases hw with hw | ⟨d, x, hw⟩
      · exact hv.1 hw
      · exact hv.2 d x hw
    simp [hne]
  exact ⟨h.congr rfl ⟨rfl, rfl⟩ hmem, fun d n hd => h.entry_eq hmem hd n⟩

/-! ### Changes of role -/

/-- The general rule: a page that nothing refers to changes its role, and the free list with it. -/
theorem recast (h : Wf k own) {r : Role} {l : List ℕ} (hi : Idle k own v)
    (hpage : r ≠ .none → Page v) (hseg : ∀ key i, r ≠ .seg key i)
    (hdir : r = .dir → ∀ i, k.mem v i = 0) (hfree : ∀ w, w ∈ l ↔ update own v r w = .free)
    (hnd : l.Nodup) : Wf { k with freelist := l } (update own v r) := by
  have hd : ∀ {d}, update own v r d = .dir → own d = .dir ∨ d = v ∧ ∀ i, k.mem d i = 0 := by
    intro d e
    by_cases hdv : d = v
    · subst hdv
      rw [update_self] at e
      exact .inr ⟨rfl, hdir e⟩
    · rw [update_of_ne hdv] at e
      exact .inl e
  have hempty : ∀ {d}, (∀ i, k.mem d i = 0) → ∀ n, k.entry d n = 0 := by
    intro d hz n
    rw [Kernel.entry, if_neg]
    rw [Kernel.pde, hz]
    exact not_present_zero
  refine ⟨fun w hw => ?_, hfree, hnd, fun d x e hx (hp : Present (k.mem d x)) => ?_,
    fun d n e hn (hp : Present (k.entry d n)) => ?_, fun d n e hn hp => ?_,
    fun d n e h1 h2 => ?_, fun w key i => ?_⟩
  · by_cases e : w = v
    · subst e
      rw [update_self] at hw
      exact hpage hw
    · rw [update_of_ne e] at hw
      exact h.page w hw
  · rcases hd e with hdd | ⟨_, hz⟩
    · have ht := h.tab d x hdd hx hp
      have hne : frame (k.mem d x) ≠ v := by
        intro hf
        rw [hf] at ht
        exact hi.notTab d x ht hdd
      show update own v r (frame (k.mem d x)) = _
      rw [update_of_ne hne, ht]
    · rw [hz] at hp
      exact absurd hp not_present_zero
  · rcases hd e with e | ⟨_, hz⟩
    · have hu := h.user d n e hn hp
      have hne : frame (k.entry d n) ≠ v := by
        intro hf
        rw [hf] at hu
        rcases hu with hu | ⟨key, i, hu⟩
        · exact hi.notUser d n hu e hn hp hf
        · exact hi.notSeg key i hu
      show update own v r (frame (k.entry d n)) = _ ∨
        ∃ key i, update own v r (frame (k.entry d n)) = _
      rw [update_of_ne hne]
      exact hu
    · rw [hempty hz] at hp
      exact absurd hp not_present_zero
  · rcases hd e with e | ⟨_, hz⟩
    · exact h.absent d n e hn hp
    · exact hempty hz n
  · rcases hd e with e | ⟨_, hz⟩
    · exact h.kern d n e h1 h2
    · show k.entry d n / 4 % 2 = 0
      rw [hempty hz]
  · show _ ↔ key < numOfSegs ∧ (i : ℤ) < k.shm.pages key ∧ k.shm.seg key i = w
    rw [← h.seg]
    by_cases e : w = v
    · subst e
      simp [hseg key i, hi.notSeg key i]
    · rw [update_of_ne e]

theorem relabel (h : Wf k own) {r : Role} (hi : Idle k own v) (hv : own v ≠ .free)
    (hpage : r ≠ .none → Page v) (hfree : r ≠ .free) (hdir : r ≠ .dir)
    (hseg : ∀ key i, r ≠ .seg key i) : Wf k (update own v r) := by
  refine h.recast (l := k.freelist) hi hpage hseg (fun e => absurd e hdir) (fun w => ?_) h.nodup
  by_cases e : w = v
  · subst e
    rw [update_self, h.free]
    simp [hv, hfree]
  · rw [update_of_ne e, h.free]

theorem newDir (h : Wf k own) (hv : own v = .none) (hpage : Page v)
    (hz : ∀ i, k.mem v i = 0) : Wf k (update own v .dir) := by
  refine h.recast (l := k.freelist) (.of_none hv) (fun _ => hpage) (by simp) (fun _ => hz)
    (fun w => ?_) h.nodup
  by_cases e : w = v
  · subst e
    simp [h.free, hv]
  · rw [update_of_ne e, h.free]

theorem forget (h : Wf k own) (hd : own d = .dir) : Wf k (update own d .none) :=
  h.relabel (.of_dir hd) (by simp [hd]) (by simp) (by simp) (by simp) (by simp)

theorem alloc (h : Wf k own) {l : List ℕ} (hl : k.freelist = v :: l) :
    Wf { k with freelist := l } (update own v .none) ∧ own v = .free ∧ Page v := by
  have hv : own v = .free := (h.free v).mp (by rw [hl]; exact List.mem_cons_self)
  have hnd := h.nodup
  rw [hl] at hnd
  obtain ⟨hnv, hnd⟩ := List.nodup_cons.mp hnd
  refine ⟨h.recast (.of_free hv) (by simp) (by simp) (by simp) (fun w => ?_) hnd, hv,
    h.page v (by simp [hv])⟩
  by_cases e : w = v
  · subst e
    simp [hnv]
  · rw [update_of_ne e, ← h.free, hl]
    simp [e]

theorem freed (h : Wf k own) (hv : own v = .none) (hpage : Page v) :
    Wf (k.freed v) (update own v .free) ∧
      ∀ d n, own d = .dir → (k.freed v).entry d n = k.entry d n := by
  obtain ⟨hw, he⟩ := h.write (v := v) (by simp [hv])
    fun i => if i = 0 then k.freelist.headD 0 else 0x01010101
  refine ⟨hw.recast (l := v :: k.freelist) (.of_none hv) (fun _ => hpage) (by simp) (by simp)
    (fun w => ?_) (List.nodup_cons.mpr ⟨fun hm => ?_, h.nodup⟩), fun d n hd => ?_⟩
  · by_cases e : w = v
    · subst e
      simp
    · rw [update_of_ne e, ← h.free]
      simp [e]
  · rw [h.free, hv] at hm
    cases hm
  · rw [← he d n hd]
    exact congrFun (congrFun (entry_congr rfl) d) n

/-! ### Writing to tables and directories -/

section
variable {d n w : ℕ} (hd : own d = .dir) (hn : n < allPages) (hp : Present (k.pde d n))
include hd hp

theorem store_mem_dir (h : Wf k own) {d' : ℕ} (hd' : own d' = .dir) :
    (k.store (frame (k.pde d n)) (n % 1024) w).mem d' = k.mem d' := by
  have hne : d' ≠ frame (k.pde d n) := by
    intro e
    rw [e, h.tab_pde hd hp] at hd'
    cases hd'
  rw [Kernel.store_mem, update_of_ne hne]

include hn

theorem entry_store (h : Wf k own) {d' m : ℕ} (hd' : own d' = .dir) (hm : m < allPages) :
    (k.store (frame (k.pde d n)) (n % 1024) w).entry d' m =
      if d' = d ∧ m = n then w else k.entry d' m := by
  have hpde : (k.store (frame (k.pde d n)) (n % 1024) w).pde d' m = k.pde d' m := by
    unfold Kernel.pde
    exact congrFun (h.store_mem_dir hd hp hd') _
  unfold Kernel.entry
  rw [hpde]
  by_cases hp' : Present (k.pde d' m)
  · rw [if_pos hp', if_pos hp', Kernel.store_mem]
    by_cases ht : frame (k.pde d' m) = frame (k.pde d n)
    · have e := h.tab_pde hd' hp'
      rw [ht, h.tab_pde hd hp] at e
      obtain ⟨rfl, hx⟩ := Role.tab.inj e
      rw [ht, update_self]
      by_cases hmn : m = n
      · subst hmn
        simp
      · rw [if_neg fun e => hmn e.2, update_of_ne]
        exact fun e => hmn (page_ext hm hn hx.symm e)
    · rw [update_of_ne ht, if_neg]
      rintro ⟨rfl, rfl⟩
      exact ht rfl
  · rw [if_neg hp', if_neg hp', if_neg]
    rintro ⟨rfl, rfl⟩
    exact hp' hp

theorem setEntry (h : Wf k own)
    (hu : n < userPages → Present w → own (frame w) = .user d n ∨ ∃ key i, own (frame w) = .seg key i)
    (hz : n < userPages → ¬ Present w → w = 0) (hk : userPages ≤ n → w / 4 % 2 = 0) :
    Wf (k.store (frame (k.pde d n)) (n % 1024) w) own := by
  have hua := userPages_le
  refine ⟨h.page, h.free, h.nodup, fun d' x hd' hx hp' => ?_, fun d' m hd' hm hp' => ?_,
    fun d' m hd' hm hp' => ?_, fun d' m hd' h1 h2 => ?_, h.seg⟩
  · rw [h.store_mem_dir hd hp hd'] at hp' ⊢
    exact h.tab d' x hd' hx hp'
  · rw [h.entry_store hd hn hp hd' (by omega)] at hp' ⊢
    split_ifs at hp' ⊢ with e
    · obtain ⟨rfl, rfl⟩ := e
      exact hu hm hp'
    · exact h.user d' m hd' hm hp'
  · rw [h.entry_store hd hn hp hd' (by omega)] at hp' ⊢
    split_ifs at hp' ⊢ with e
    · obtain ⟨rfl, rfl⟩ := e
      exact hz hm hp'
    · exact h.absent d' m hd' hm hp'
  · rw [h.entry_store hd hn hp hd' h2]
    split_ifs with e
    · obtain ⟨rfl, rfl⟩ := e
      exact hk h1
    · exact h.kern d' m hd' h1 h2

end

/-- Entering an empty table into a directory changes no page-table entry. -/
theorem setPde (h : Wf k own) {x w : ℕ} (hd : own d = .dir) (hx : x < 1024)
    (hnp : ¬ Present (k.mem d x)) (hv : own v = .tab d x) (hz : ∀ i, k.mem v i = 0)
    (hw : Present w) (hf : frame w = v) :
    Wf (k.store d x w) own ∧ ∀ d' n, own d' = .dir → (k.store d x w).entry d' n = k.entry d' n := by
  have hvd : v ≠ d := by
    rintro rfl
    rw [hd] at hv
    cases hv
  have hmem : ∀ {d' i}, own d' = .dir → (d' ≠ d ∨ i ≠ x) →
      (k.store d x w).mem d' i = k.mem d' i := by
    intro d' i _ hne
    rw [Kernel.store_mem]
    by_cases e : d' = d
    · subst e
      rw [update_self, update_of_ne (hne.resolve_left fun h => h rfl)]
    · rw [update_of_ne e]
  have hself : (k.store d x w).mem d x = w := by simp
  have he : ∀ d' n, own d' = .dir → (k.store d x w).entry d' n = k.entry d' n := by
    intro d' n hd'
    by_cases e : d' = d ∧ n / 1024 % 1024 = x
    · obtain ⟨rfl, rfl⟩ := e
      have hw' : (k.store d' (n / 1024 % 1024) w).pde d' n = w := hself
      unfold Kernel.entry
      rw [hw', if_pos hw, hf, if_neg (by exact hnp), Kernel.store_mem, update_of_ne hvd, hz]
    · have hpde : (k.store d x w).pde d' n = k.pde d' n := hmem hd' (not_and_or.mp e)
      unfold Kernel.entry
      rw [hpde]
      split_ifs with hp
      · have hne : frame (k.pde d' n) ≠ d := by
          intro hfd
          have := h.tab_pde hd' hp
          rw [hfd, hd] at this
          cases this
        rw [Kernel.store_mem, update_of_ne hne]
      · rfl
  refine ⟨⟨h.page, h.free, h.nodup, fun d' y hd' hy hp => ?_, fun d' n hd' hn hp => ?_,
    fun d' n hd' hn hp => ?_, fun d' n hd' h1 h2 => ?_, h.seg⟩, he⟩
  · by_cases e : d' = d ∧ y = x
    · obtain ⟨rfl, rfl⟩ := e
      rw [hself, hf, hv]
    · rw [hmem hd' (not_and_or.mp e)] at hp ⊢
      exact h.tab d' y hd' hy hp
  · rw [he d' n hd'] at hp ⊢
    exact h.user d' n hd' hn hp
  · rw [he d' n hd'] at hp ⊢
    exact h.absent d' n hd' hn hp
  · rw [he d' n hd']
    exact h.kern d' n hd' h1 h2

end Wf

end Xv6.Vm
