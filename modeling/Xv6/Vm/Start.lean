import Xv6.Vm.ShmCalls

/-! # The uses of pages at boot

`userinit` leaves 134 pages in use, counted from the top of memory: kernel stack, directory, 64
tables, user page and its table of init, and kernel stack, directory and 64 tables of the
inswapper. The others are free. -/

namespace Xv6.Vm

/-- The use of the `n`-th page from the top. -/
def bootUse (n : ℕ) : Role :=
  if n = 0 then .kstack initproc
  else if n = 1 ∨ n = 69 then .dir
  else if n = 66 then .user (top 1) 0
  else if n = 67 then .tab (top 1) 0
  else if n = 68 then .kstack inswapper
  else if n < 66 then .tab (top 1) (if n < 58 then n - 2 + 512 else n - 58 + 1016)
  else .tab (top 69) (if n < 126 then n - 70 + 512 else n - 126 + 1016)

def bootOwn (v : ℕ) : Role :=
  if v % 4096 = 0 ∧ top 133 ≤ v ∧ v < KERNBASE + PHYSTOP then
    bootUse ((KERNBASE + PHYSTOP - v) / PGSIZE - 1)
  else if v ∈ boot.freelist then .free
  else .none

theorem top_eq (n : ℕ) : top n = 0x8e000000 - 4096 * (n + 1) := rfl

variable {n d : ℕ}

theorem top_index (h : n < 134) : (KERNBASE + PHYSTOP - top n) / PGSIZE - 1 = n := by
  rw [top_eq]
  unfold KERNBASE PHYSTOP PGSIZE
  omega

theorem top_page (h : n < 134) : Page (top n) := by
  rw [top_eq]
  refine ⟨by omega, ?_, ?_⟩
  · unfold endAddr
    omega
  · unfold KERNBASE PHYSTOP
    omega

theorem bootOwn_top (h : n < 134) : bootOwn (top n) = bootUse n := by
  have e : top n % 4096 = 0 ∧ top 133 ≤ top n ∧ top n < KERNBASE + PHYSTOP := by
    rw [top_eq, top_eq]
    unfold KERNBASE PHYSTOP
    omega
  rw [bootOwn, if_pos e, top_index h]

theorem bootMem_top (h : n < 134) (i : ℕ) : boot.mem (top n) i = bootPage n (top n) i := by
  show bootMem (top n) i = _
  rw [bootMem, top_index h]

theorem bootOwn_used {v : ℕ} (h1 : bootOwn v ≠ .free) (h2 : bootOwn v ≠ .none) :
    ∃ n < 134, v = top n ∧ bootOwn v = bootUse n := by
  unfold bootOwn at h1 h2 ⊢
  split_ifs at h1 h2 ⊢ with hc
  · refine ⟨(KERNBASE + PHYSTOP - v) / PGSIZE - 1, ?_, ?_, rfl⟩
    · rw [top_eq] at hc
      unfold KERNBASE PHYSTOP PGSIZE at *
      omega
    · rw [top_eq] at hc ⊢
      unfold KERNBASE PHYSTOP PGSIZE at *
      omega
  · exact absurd rfl h1
  · exact absurd rfl h2

theorem bootUse_dir (h : bootUse n = .dir) : n = 1 ∨ n = 69 := by
  unfold bootUse at h
  split_ifs at h with h1 h2
  exact h2

theorem bootUse_ne (n : ℕ) : bootUse n ≠ .free ∧ bootUse n ≠ .none ∧
    ∀ key i, bootUse n ≠ .seg key i := by
  unfold bootUse
  split_ifs <;> simp

theorem bootOwn_dir (h : bootOwn d = .dir) : ∃ n, (n = 1 ∨ n = 69) ∧ d = top n := by
  obtain ⟨n, _, hd, hn⟩ := bootOwn_used (v := d) (by simp [h]) (by simp [h])
  exact ⟨n, bootUse_dir (hn.symm.trans h), hd⟩

/-- The table that an entry of the kernel half of a directory refers to. -/
theorem bootUse_kern {x j : ℕ} (hd : d = 1 ∨ d = 69) (h : kernTable x = some j) :
    d + 1 + j < 134 ∧ bootUse (d + 1 + j) = .tab (top d) x := by
  unfold kernTable at h
  unfold bootUse
  split_ifs at h with h1 h2 <;> obtain rfl := Option.some.inj h <;> rcases hd with rfl | rfl <;>
    refine ⟨by omega, ?_⟩ <;>
    rw [if_neg (by omega), if_neg (by omega), if_neg (by omega), if_neg (by omega), if_neg (by omega)]
  · rw [if_pos (by omega), if_pos (by omega)]
    congr 1
    omega
  · rw [if_neg (by omega), if_pos (by omega)]
    congr 1
    omega
  · rw [if_pos (by omega), if_neg (by omega)]
    congr 1
    omega
  · rw [if_neg (by omega), if_neg (by omega)]
    congr 1
    omega

theorem frame_top (h : n < 134) : frame (v2p (top n) + 7) = top n := by
  rw [← (top_page h).or_flags (by decide)]
  exact (top_page h).frame_or (by decide)

theorem boot_dir {x : ℕ} (hd : d = 1 ∨ d = 69) :
    boot.mem (top d) x = 0 ∨ (d = 1 ∧ x = 0 ∧ boot.mem (top d) x = v2p (top 67) + 7) ∨
      ∃ j, kernTable x = some j ∧ boot.mem (top d) x = v2p (top (d + 1 + j)) + 7 := by
  have hk : ∀ d, kernDir d x = 0 ∨ ∃ j, kernTable x = some j ∧
      kernDir d x = v2p (top (d + 1 + j)) + 7 := by
    intro d
    unfold kernDir
    cases h : kernTable x with
    | none => exact .inl rfl
    | some j => exact .inr ⟨j, rfl, rfl⟩
  rw [bootMem_top (by omega), bootPage]
  rcases hd with rfl | rfl
  · rw [if_pos rfl]
    split_ifs with h0
    · exact .inr (.inl ⟨rfl, h0, rfl⟩)
    · exact (hk 1).imp id .inr
  · rw [if_neg (by decide), if_pos rfl]
    exact (hk 69).imp id .inr

/-- The words of the tables for the kernel half have no user bit. -/
theorem boot_kern {i : ℕ} (hn : 2 ≤ n ∧ n < 66 ∨ 70 ≤ n ∧ n < 134) :
    boot.mem (top n) i / 4 % 2 = 0 := by
  have hk : ∀ m, kernPte m / 4 % 2 = 0 := by
    intro m
    unfold kernPte PGSIZE
    split_ifs <;> omega
  rw [bootMem_top (by omega), bootPage, if_neg (by omega), if_neg (by omega)]
  split_ifs
  · exact hk _
  · exact hk _
  · exact hk _
  · exact hk _
  all_goals omega

theorem boot_entry (hd : d = 1 ∨ d = 69) (hn : n < allPages) :
    boot.entry (top d) n = 0 ∨ (d = 1 ∧ n = 0 ∧ boot.entry (top d) n = v2p (top 66) + 7) ∨
      userPages ≤ n ∧ boot.entry (top d) n / 4 % 2 = 0 := by
  have hx : n / 1024 % 1024 = n / 1024 := by
    unfold allPages at hn
    omega
  unfold Kernel.entry Kernel.pde
  rw [hx]
  split_ifs with hp
  · rcases boot_dir hd (x := n / 1024) with e | ⟨rfl, h0, e⟩ | ⟨j, hj, e⟩
    · rw [e] at hp
      exact absurd hp not_present_zero
    · rw [e, frame_top (by decide), bootMem_top (by decide), bootPage, if_neg (by decide),
        if_neg (by decide), if_neg (by decide), if_neg (by decide), if_neg (by decide), if_neg (by decide),
        if_pos rfl]
      split_ifs with hi
      · exact .inr (.inl ⟨rfl, by omega, rfl⟩)
      · exact .inl rfl
    · obtain ⟨hlt, hu⟩ := bootUse_kern hd hj
      rw [e, frame_top hlt]
      refine .inr (.inr ⟨?_, boot_kern ?_⟩)
      · unfold kernTable at hj
        unfold userPages
        split_ifs at hj <;> omega
      · unfold kernTable at hj
        split_ifs at hj <;> obtain rfl := Option.some.inj hj <;> omega
  · exact .inl rfl

theorem wf_boot : Wf boot bootOwn := by
  have hua := userPages_le
  have hused : ∀ {v}, bootOwn v = .free → v ∈ boot.freelist := by
    intro v h
    unfold bootOwn at h
    split_ifs at h with h1 h2
    · exact absurd h (bootUse_ne _).1
    · exact h2
  refine ⟨fun v hv => ?_, fun v => ⟨fun hv => ?_, hused⟩, boot_freelist_nodup, fun d x hd hx hp => ?_,
    fun d n hd hn hp => ?_, fun d n hd hn hp => ?_, fun d n hd h1 h2 => ?_, fun v key i => ?_⟩
  · by_cases hf : bootOwn v = .free
    · exact boot_freelist_page (hused hf)
    · obtain ⟨n, hn, e, _⟩ := bootOwn_used hf hv
      rw [e]
      exact top_page hn
  · have h134 := top_134
    have h133 : top 133 = 0x8df7a000 := by decide
    have hm := mem_boot_freelist.mp hv
    rw [bootOwn, if_neg, if_pos hv]
    rw [h134] at hm
    rw [h133]
    omega
  · obtain ⟨e, he, hde⟩ := bootOwn_dir hd
    rw [hde] at hp ⊢
    rcases boot_dir he (x := x) with e0 | ⟨rfl, rfl, e0⟩ | ⟨j, hj, e0⟩
    · rw [e0] at hp
      exact absurd hp not_present_zero
    · rw [e0, frame_top (by decide), bootOwn_top (by decide)]
      decide
    · obtain ⟨hlt, hu⟩ := bootUse_kern he hj
      rw [e0, frame_top hlt, bootOwn_top hlt, hu]
  · obtain ⟨e, he, hde⟩ := bootOwn_dir hd
    rw [hde] at hp ⊢
    rcases boot_entry he (by omega : n < allPages) with e0 | ⟨rfl, rfl, e0⟩ | ⟨e0, _⟩
    · rw [e0] at hp
      exact absurd hp not_present_zero
    · rw [e0, frame_top (by decide), bootOwn_top (by decide)]
      exact .inl (by decide)
    · omega
  · obtain ⟨e, he, hde⟩ := bootOwn_dir hd
    rw [hde] at hp ⊢
    rcases boot_entry he (by omega : n < allPages) with e0 | ⟨rfl, rfl, e0⟩ | ⟨e0, _⟩
    · exact e0
    · refine absurd ?_ hp
      rw [e0]
      decide
    · omega
  · obtain ⟨e, he, hde⟩ := bootOwn_dir hd
    rw [hde]
    rcases boot_entry he h2 with e0 | ⟨rfl, rfl, e0⟩ | ⟨_, e0⟩
    · rw [e0]
    · unfold userPages at h1
      omega
    · exact e0
  · constructor
    · intro e
      obtain ⟨n, _, _, hn⟩ := bootOwn_used (v := v) (by simp [e]) (by simp [e])
      exact absurd (hn.symm.trans e) ((bootUse_ne n).2.2 key i)
    · rintro ⟨_, e, _⟩
      have h0 : boot.shm.pages key = 0 := rfl
      omega

theorem inv_boot : Inv boot bootOwn := by
  have hlive : ∀ {p}, boot.live p → p = initproc ∨ p = inswapper := by
    intro p hp
    by_contra hne
    push Not at hne
    refine hp ?_
    show (if p = initproc then _ else if p = inswapper then _ else _ : Proc).state = _
    rw [if_neg hne.1, if_neg hne.2]
  refine ⟨wf_boot, fun p hp => ?_, fun p hp => ?_, fun p q hp hq e => ?_, fun p hp => ?_,
    fun d hd => ?_⟩
  · rcases hlive hp with rfl | rfl
    · exact (bootOwn_top (n := 1) (by decide)).trans (by decide)
    · exact (bootOwn_top (n := 69) (by decide)).trans (by decide)
  · rcases hlive hp with rfl | rfl
    · exact (bootOwn_top (n := 0) (by decide)).trans (by decide)
    · exact (bootOwn_top (n := 68) (by decide)).trans (by decide)
  · rcases hlive hp with rfl | rfl <;> rcases hlive hq with rfl | rfl
    · rfl
    · exact absurd e (by decide)
    · exact absurd e (by decide)
    · rfl
  · rcases hlive hp with rfl | rfl <;> decide
  · obtain ⟨n, rfl | rfl, e⟩ := bootOwn_dir hd
    · exact ⟨initproc, by decide, e.symm⟩
    · exact ⟨inswapper, by decide, e.symm⟩

end Xv6.Vm
