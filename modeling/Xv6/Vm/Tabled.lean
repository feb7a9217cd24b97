import Xv6.Vm.Space

/-! # One directory and its tables

What the functions of `vm.c` do to one directory can be followed exactly without a role for every page, as
long as the directory and its tables are pages apart, neither free nor mapped (`Tabled`). A page that is
mapped or unmapped then changes one entry. -/

namespace Xv6.Vm

open Function

/-- The tables of the directory are different pages, and neither they nor the directory are on the free
list. -/
structure Rooted (k : Kernel) (d : ℕ) : Prop where
  self : NoTable k d d
  apart : ∀ m m', Present (k.pde d m) → Present (k.pde d m') → frame (k.pde d m) = frame (k.pde d m') →
    m / 1024 % 1024 = m' / 1024 % 1024
  free : ∀ v ∈ k.freelist, Page v ∧ v ≠ d ∧ NoTable k d v

/-- The tables of the directory are different pages, and neither they nor the directory are on the free list
or mapped. -/
structure Tabled (k : Kernel) (d : ℕ) : Prop where
  self : NoTable k d d
  apart : ∀ m m', Present (k.pde d m) → Present (k.pde d m') → frame (k.pde d m) = frame (k.pde d m') →
    m / 1024 % 1024 = m' / 1024 % 1024
  free : ∀ v ∈ k.freelist, Page v ∧ v ≠ d ∧ NoTable k d v
  user : ∀ m < userPages, Present (k.entry d m) → Page (frame (k.entry d m)) ∧ frame (k.entry d m) ≠ d ∧
    NoTable k d (frame (k.entry d m))

/-- The free page `v` is cleared and mapped at page number `m`; `l` is the rest of the free list. -/
def Kernel.withPage (k : Kernel) (d m v : ℕ) (l : List ℕ) : Kernel :=
  (({ k with freelist := l } : Kernel).setPage v fun _ => 0).store (frame (k.pde d m)) (m % 1024)
    (v2p v ||| (PTE_W ||| PTE_U ||| PTE_P))

/-- The page mapped at page number `m` is freed. -/
def Kernel.unmapped (k : Kernel) (d m : ℕ) : Kernel :=
  (k.freed (frame (k.entry d m))).store (frame (k.pde d m)) (m % 1024) 0

section
variable {k k' : Kernel} {own : ℕ → Role} {d m v : ℕ} {l : List ℕ}

theorem Wf.tabled (h : Wf k own) (hd : own d = .dir) : Tabled k d := by
  have hrole : ∀ {v}, own v ≠ .dir → (∀ d x, own v ≠ .tab d x) → v ≠ d ∧ NoTable k d v := by
    intro v hv htab
    refine ⟨?_, .of_role h hd htab⟩
    rintro rfl
    exact hv hd
  refine ⟨.of_role h hd (by simp [hd]), fun m m' hp hp' heq => ?_, fun v hv => ?_, fun m hm hpr => ?_⟩
  · have htab := h.tab_pde hd hp
    rw [heq, h.tab_pde hd hp'] at htab
    exact (Role.tab.inj htab).2.symm
  · have hown := (h.free v).mp hv
    exact ⟨h.page v (by simp [hown]), hrole (by simp [hown]) (by simp [hown])⟩
  · obtain hown | ⟨key, i, hown⟩ := h.user d m hd hm hpr
    · exact ⟨h.page _ (by simp [hown]), hrole (by simp [hown]) (by simp [hown])⟩
    · exact ⟨h.page _ (by simp [hown]), hrole (by simp [hown]) (by simp [hown])⟩

theorem entry_setPage (hv : v ≠ d) (hnt : NoTable k d v) (f : ℕ → ℕ) :
    (k.setPage v f).mem d = k.mem d ∧ ∀ n, (k.setPage v f).entry d n = k.entry d n := by
  have hdir : (k.setPage v f).mem d = k.mem d := by
    rw [Kernel.setPage_mem, update_of_ne hv.symm]
  refine ⟨hdir, fun n => ?_⟩
  unfold Kernel.entry
  rw [pde_congr hdir]
  split_ifs with hp
  · rw [Kernel.setPage_mem, update_of_ne (hnt n hp)]
  · rfl

theorem Tabled.rooted (h : Tabled k d) : Rooted k d := ⟨h.self, h.apart, h.free⟩

theorem Rooted.entry_store (h : Rooted k d) (hm : m < allPages) (hp : Present (k.pde d m)) (w : ℕ) :
    (k.store (frame (k.pde d m)) (m % 1024) w).mem d = k.mem d ∧
      ∀ n < allPages, (k.store (frame (k.pde d m)) (m % 1024) w).entry d n = if n = m then w else k.entry d n := by
  have hdir : (k.store (frame (k.pde d m)) (m % 1024) w).mem d = k.mem d := by
    rw [Kernel.store_mem, update_of_ne (h.self m hp).symm]
  refine ⟨hdir, fun n hn => ?_⟩
  unfold Kernel.entry
  rw [pde_congr hdir]
  obtain rfl | hne := eq_or_ne n m
  · rw [if_pos hp, if_pos rfl, Kernel.store_mem, update_self, update_self]
  · rw [if_neg hne]
    split_ifs with hpn
    · rw [Kernel.store_mem]
      by_cases heq : frame (k.pde d n) = frame (k.pde d m)
      · have hrow : n % 1024 ≠ m % 1024 := fun e => hne (page_ext hn hm (h.apart n m hpn hp heq) e)
        rw [heq, update_self, update_of_ne hrow]
      · rw [update_of_ne heq]
    · rfl

namespace Tabled

/-- A page that is no table gets new contents, and one row of a table a new entry. -/
theorem entry_edit (h : Tabled k d) (hv : v ≠ d) (hnt : NoTable k d v) (hm : m < allPages)
    (hp : Present (k.pde d m)) {f : ℕ → ℕ} {w : ℕ} {k1 : Kernel} (hk1 : k1.mem = update k.mem v f) :
    (k1.store (frame (k.pde d m)) (m % 1024) w).mem d = k.mem d ∧
      ∀ n < allPages, (k1.store (frame (k.pde d m)) (m % 1024) w).entry d n = if n = m then w else k.entry d n := by
  have hvt : v ≠ frame (k.pde d m) := (hnt m hp).symm
  have hmem : (k1.store (frame (k.pde d m)) (m % 1024) w).mem =
      ((k.store (frame (k.pde d m)) (m % 1024) w).setPage v f).mem := by
    rw [Kernel.store_mem, Kernel.setPage_mem, Kernel.store_mem, hk1, update_of_ne hvt.symm,
      update_comm hvt]
  obtain ⟨hdir, hent⟩ := h.rooted.entry_store hm hp w
  obtain ⟨hdir', hent'⟩ := entry_setPage (k := k.store (frame (k.pde d m)) (m % 1024) w) hv
    (fun n hpn => by rw [pde_congr hdir] at hpn ⊢; exact hnt n hpn) f
  refine ⟨by rw [hmem, hdir', hdir], fun n hn => ?_⟩
  rw [entry_congr hmem, hent', hent n hn]

theorem withPage_entry (h : Tabled k d) (hl : k.freelist = v :: l) (hm : m < allPages) (hp : Present (k.pde d m)) :
    (k.withPage d m v l).mem d = k.mem d ∧ ∀ n < allPages, (k.withPage d m v l).entry d n =
      if n = m then v2p v ||| (PTE_W ||| PTE_U ||| PTE_P) else k.entry d n := by
  obtain ⟨-, hne, hnt⟩ := h.free v (by rw [hl]; exact List.mem_cons_self)
  exact h.entry_edit hne hnt hm hp rfl

theorem unmapped_entry (h : Tabled k d) (hm : m < userPages) (hpr : Present (k.entry d m)) :
    (k.unmapped d m).mem d = k.mem d ∧ ∀ n < allPages, (k.unmapped d m).entry d n =
      if n = m then 0 else k.entry d n := by
  have hua := userPages_le
  obtain ⟨-, hne, hnt⟩ := h.user m hm hpr
  exact h.entry_edit hne hnt (by omega) (pde_of_entry hpr) rfl

/-- A change that keeps the directory, gives no table away and maps no table. -/
theorem edit (h : Tabled k d) (hdir : k'.mem d = k.mem d)
    (hfree : ∀ v ∈ k'.freelist, Page v ∧ v ≠ d ∧ NoTable k d v)
    (huser : ∀ n < userPages, Present (k'.entry d n) → Page (frame (k'.entry d n)) ∧ frame (k'.entry d n) ≠ d ∧
      NoTable k d (frame (k'.entry d n))) : Tabled k' d := by
  have hnt : ∀ {v}, NoTable k d v → NoTable k' d v := fun hv m hp => by
    rw [pde_congr hdir] at hp ⊢
    exact hv m hp
  refine ⟨hnt h.self, fun m m' hp hp' heq => ?_, fun v hv => ?_, fun n hn hpr => ?_⟩
  · rw [pde_congr hdir] at hp hp' heq
    rw [pde_congr hdir] at heq
    exact h.apart m m' hp hp' heq
  · obtain ⟨hpage, hne, hv⟩ := hfree v hv
    exact ⟨hpage, hne, hnt hv⟩
  · obtain ⟨hpage, hne, hv⟩ := huser n hn hpr
    exact ⟨hpage, hne, hnt hv⟩

theorem withPage (h : Tabled k d) (hl : k.freelist = v :: l) (hm : m < allPages) (hp : Present (k.pde d m)) :
    Tabled (k.withPage d m v l) d := by
  have hua := userPages_le
  obtain ⟨hdir, hent⟩ := h.withPage_entry hl hm hp
  have hv := h.free v (by rw [hl]; exact List.mem_cons_self)
  refine h.edit hdir (fun u hu => h.free u (by rw [hl]; exact List.mem_cons_of_mem v hu)) fun n hn hpr => ?_
  rw [hent n (by omega)] at hpr ⊢
  split_ifs at hpr ⊢
  · rwa [hv.1.frame_or (by decide)]
  · exact h.user n hn hpr

theorem unmapped (h : Tabled k d) (hm : m < userPages) (hpr : Present (k.entry d m)) : Tabled (k.unmapped d m) d := by
  have hua := userPages_le
  obtain ⟨hdir, hent⟩ := h.unmapped_entry hm hpr
  refine h.edit hdir (fun u hu => ?_) fun n hn hpn => ?_
  · obtain rfl | hu := List.mem_cons.mp hu
    · exact h.user m hm hpr
    · exact h.free u hu
  · rw [hent n (by omega)] at hpn ⊢
    split_ifs at hpn ⊢
    · exact absurd hpn not_present_zero
    · exact h.user n hn hpn

end Tabled

theorem Tabled.setPage (h : Tabled k d) (hm : m < userPages) (hpr : Present (k.entry d m)) (f : ℕ → ℕ) :
    Tabled (k.setPage (frame (k.entry d m)) f) d ∧ ∀ n, (k.setPage (frame (k.entry d m)) f).entry d n = k.entry d n := by
  obtain ⟨hpage, hne, hnt⟩ := h.user m hm hpr
  obtain ⟨hdir, hent⟩ := entry_setPage hne hnt f
  refine ⟨h.edit hdir h.free fun n hn hp => ?_, hent⟩
  rw [hent] at hp ⊢
  exact h.user n hn hp

end

end Xv6.Vm
