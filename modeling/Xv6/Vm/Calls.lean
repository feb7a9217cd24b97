import Xv6.Vm.Procs

/-! # The calls, one by one

For every call that returns: the invariant after it, provided that no page of a segment is among
the pages it frees, and what has become of the address space of the process that it is about. -/

namespace Xv6.Vm

open Fallible Function

section
variable {k k' k1 : Kernel} {own own' : ℕ → Role} {p q : Slot} {r : ℤ} {v : ℕ}

theorem Spared.congr (h : k'.mem = k.mem) : Spared k own k' own :=
  ⟨fun _ _ => rfl, fun d _ n _ => by rw [entry_congr h], fun d _ => by rw [h], fun _ h => h⟩

/-- Changes that neither memory nor the process table sees. -/
theorem Inv.congr (h : Inv k own) (hmem : k'.mem = k.mem) (hfree : k'.freelist = k.freelist)
    (hseg : SameSegs k k') (hproc : k'.proc = k.proc) : Inv k' own :=
  (h.spared (h.wf.congr hfree hseg fun _ _ => by rw [hmem]) (.congr hmem)
    (fun q => .of_eq (by rw [hproc])) initproc).inv

/-- A call that edits the process's own directory, and then its entry in the process table. -/
theorem Inv.setProc (h : Inv k own) (hp : k.live p) (hm : MemOnly k k1)
    (he : Edits (k.dirOf p) k own k1 own') {f : Proc → Proc} (hst : (f (k.proc p)).state ≠ .unused)
    (hd : (f (k.proc p)).pgdir = k.dirOf p) (hs : (f (k.proc p)).kstack = (k.proc p).kstack)
    (hsz : (f (k.proc p)).sz ≤ KERNBASE) : Turn p k own (k1.setProc p f) own' := by
  have e : (k1.setProc p f).proc p = f (k.proc p) := by rw [setProc_self, hm.proc]
  refine h.edits hp (he.congr rfl rfl (.setProc _ _ _)) (fun q hq => .setProc (.of_eq ?_) hq) ?_ ?_
    ?_ ?_
  · rw [hm.proc]
  · rw [Kernel.live, e]
    exact hst
  · rw [Kernel.dirOf, e]
    exact hd
  · rw [e]
    exact hs
  · rw [e]
    exact hsz

/-! ### `growproc` -/

/-- The page lies between the old and the new size. -/
def Between (k : Kernel) (p : Slot) (n : ℤ) (m : ℕ) : Prop :=
  0 ≤ (k.proc p).sz + n ∧
    (min ((k.proc p).sz : ℤ) ((k.proc p).sz + n) ≤ 4096 * m ∧
      4096 * m < max ((k.proc p).sz : ℤ) ((k.proc p).sz + n))
deriving Decidable

/-- The first page number above the process, and above a process that has grown by `n`. -/
abbrev Kernel.topPage (k : Kernel) (p : Slot) : ℕ := ((k.proc p).sz + 4095) / 4096

abbrev Kernel.newTop (k : Kernel) (p : Slot) (n : ℤ) : ℕ := ((k.proc p).sz + n.toNat + 4095) / 4096

/-- `growproc` does not shrink the process to nothing, and when it extends it, memory does not run
out just before the table of the last page. -/
def GrowFits (k : Kernel) (p : Slot) (n : ℤ) : Prop :=
  (n < 0 → (k.proc p).sz + n ≠ 0) ∧
  (0 < n → k.topPage p < k.newTop p n → Present (k.pde (k.dirOf p) (k.newTop p n - 1)) ∨
    k.freelist.length + 1 ≠
      k.newTop p n - k.topPage p + (missingTables k (k.dirOf p) (k.topPage p) (k.newTop p n)).card)

/-- `allocuvm` from the size of the process up to `newsz`. -/
theorem grow_up (h : Inv k own) (hp : k.live p) {newsz r : ℕ} (hle : (k.proc p).sz ≤ newsz)
    (hpriv : ∀ m < userPages, (k.proc p).sz ≤ 4096 * m → 4096 * m < newsz →
      Priv k own (k.dirOf p) m) (hr : allocuvm k (k.dirOf p) (k.proc p).sz newsz = .ok (r, k')) :
    ∃ own', Resized (k.dirOf p) k own k' own' ∧ (r = 0 ∨ r = newsz ∧ newsz < KERNBASE) ∧
      (NoHoles k (k.dirOf p) (k.proc p).sz → NoHoles k' (k.dirOf p) (k.proc p).sz) ∧
      (r ≠ 0 → (∀ hi, hi = (newsz + 4095) / 4096 → k.topPage p < hi →
          Present (k.pde (k.dirOf p) (hi - 1)) ∨ k.freelist.length + 1 ≠
            hi - k.topPage p + (missingTables k (k.dirOf p) (k.topPage p) hi).card) →
        NoHoles k (k.dirOf p) (k.proc p).sz → NoHoles k' (k.dirOf p) newsz) := by
  have hsz := h.size p hp
  have hd := h.dir p hp
  have hua := userPages_le
  by_cases hkern : newsz < KERNBASE
  swap
  · rw [allocuvm, if_pos (by omega)] at hr
    obtain ⟨rfl, rfl⟩ := pair_ok hr
    exact ⟨own, .refl h.wf hd, .inl rfl, fun hf => hf, fun h0 => absurd rfl h0⟩
  have hup : ∀ m, 4096 * m < newsz → m < userPages := fun m => page_lt hkern.le
  have hlo : pgRoundUp (k.proc p).sz / 4096 = k.topPage p := pgRoundUp_div hsz
  have htop : ∀ m, k.topPage p ≤ m ↔ (k.proc p).sz ≤ 4096 * m := fun m => by
    unfold Kernel.topPage
    omega
  rcases allocuvm_grown h.wf hd (fun _ m hm hm' => hpriv m (hup m (by omega))
    ((htop m).mp (by omega)) (by omega)) hr with ⟨rfl, rfl⟩ | ⟨hlt, _⟩ | ⟨_, _, own1, hg⟩
  · exact ⟨own, .refl h.wf hd, .inl rfl, fun hf => hf, fun h0 => absurd rfl h0⟩
  · omega
  · rw [hlo, max_eq_right (by unfold Kernel.topPage; omega)] at hg
    refine ⟨own1, hg.toResized, hg.result.imp id fun e => ⟨e, hkern⟩, fun hf m hm => ?_,
      fun h0 hfit hf m hm => ?_⟩
    · have := htop m
      rw [hg.outside m (by have := hup m (by omega); omega) (.inl (by omega))]
      exact hf m hm
    · by_cases hml : m < k.topPage p
      · rw [hg.below h0 m hml]
        exact hf m (by have := htop m; omega)
      · rcases hg.filled h0 m (by omega) (by omega) with e | ⟨e1, e2, _, e3⟩
        · exact e
        · rcases hfit _ rfl (by omega) with e | e
          · rw [← e1, Nat.add_sub_cancel] at e
            exact absurd e e2
          · exact absurd e3 e

/-- `deallocuvm` from the size of the process down to `newsz`. -/
theorem grow_down (h : Inv k own) (hp : k.live p) {newsz r : ℕ} (hlt : newsz < (k.proc p).sz)
    (hpriv : ∀ m < userPages, newsz ≤ 4096 * m → 4096 * m < (k.proc p).sz →
      Priv k own (k.dirOf p) m) (hr : deallocuvm k (k.dirOf p) (k.proc p).sz newsz = .ok (r, k')) :
    ∃ own', Resized (k.dirOf p) k own k' own' ∧ r = newsz ∧
      (NoHoles k (k.dirOf p) (k.proc p).sz → NoHoles k' (k.dirOf p) newsz) := by
  have hsz := h.size p hp
  have hua := userPages_le
  have hup : ∀ m, 4096 * m < (k.proc p).sz → m < userPages := fun m => page_lt hsz
  have hhi : ((k.proc p).sz + 4095) / 4096 ≤ userPages := by
    unfold userPages KERNBASE at *
    omega
  have hlo : pgRoundUp newsz / 4096 = (newsz + 4095) / 4096 := pgRoundUp_div (by omega)
  have hle : (k.proc p).sz ≤ 4096 * (((k.proc p).sz + 4095) / 4096) := by omega
  obtain ⟨⟨own1, hsh⟩, hres⟩ := deallocuvm_shrunk h.wf (h.dir p hp) hle hhi
    (fun m hm hm' => hpriv m (hup m (by omega)) (by omega) (by omega)) hr
  refine ⟨own1, hsh.toResized, by omega, fun hf m hm => ?_⟩
  rcases hsh.entry_or m (by have := hup m (by omega); omega) with e | ⟨e, _⟩
  · rw [e]
    exact hf m (by omega)
  · omega

/-- `growproc`: the new size, and the address space up to it. -/
theorem growproc_ok (h : Inv k own) (hp : k.live p) {n : ℤ} (hn : -2 ^ 31 ≤ n ∧ n < 2 ^ 31)
    (hpriv : ∀ m < userPages, Between k p n m → Priv k own (k.dirOf p) m)
    (hr : growproc k p n = .ok (r, k')) :
    ∃ k1 own1 sz', MemOnly k k1 ∧ Resized (k.dirOf p) k own k1 own1 ∧ sz' ≤ KERNBASE ∧
      k' = k1.setProc p (fun q => { q with sz := sz' }) ∧
      (GrowFits k p n → NoHoles k (k.dirOf p) (k.proc p).sz → NoHoles k1 (k.dirOf p) sz') := by
  have hsz := h.size p hp
  have hkb := kernbase_eq
  have hrefl : Resized (k.dirOf p) k own k own := .refl h.wf (h.dir p hp)
  have hsame : ∀ {k1 : Kernel}, MemOnly k k1 →
      k1 = k1.setProc p (fun q => { q with sz := (k.proc p).sz }) := by
    intro k1 hm
    refine (setProc_eq ?_).symm
    rw [hm.proc]
  unfold growproc at hr
  obtain ⟨⟨sz', k1⟩, e1, hr1⟩ := bind_ok hr
  clear hr
  dsimp only at e1 hr1
  by_cases hpos : n > 0
  · have hnew : u32 ((k.proc p).sz + n + 2 ^ 32 : ℤ).toNat = (k.proc p).sz + n.toNat := by
      unfold u32
      omega
    rw [if_pos hpos, hnew] at e1
    have hmo := allocuvm_memOnly.ok e1
    obtain ⟨own1, hrs, hres, hf, hf'⟩ := grow_up h hp (by omega) (fun m hm h1 h2 =>
      hpriv m hm ⟨by omega, by omega, by omega⟩) e1
    by_cases h0 : sz' = 0
    · rw [if_pos ⟨by omega, h0⟩] at hr1
      obtain ⟨_, rfl⟩ := pair_ok hr1
      exact ⟨k1, own1, _, hmo, hrs, hsz, hsame hmo, fun _ => hf⟩
    · rw [if_neg fun e => h0 e.2] at hr1
      obtain ⟨_, rfl⟩ := pair_ok hr1
      obtain ⟨rfl, hlt⟩ := hres.resolve_left h0
      refine ⟨k1, own1, _, hmo, hrs, hlt.le, rfl, fun hfit => hf' h0 fun hi e hlo => ?_⟩
      subst e
      exact hfit.2 hpos hlo
  · by_cases hneg : n < 0
    swap
    · rw [if_neg hpos, if_neg hneg] at e1
      obtain ⟨rfl, rfl⟩ := pair_ok e1
      rw [if_neg fun e => e.1 (by omega)] at hr1
      obtain ⟨_, rfl⟩ := pair_ok hr1
      exact ⟨k, own, _, .refl k, hrefl, hsz, rfl, fun _ hf => hf⟩
    rw [if_neg hpos, if_pos hneg] at e1
    have hmo := deallocuvm_memOnly.ok e1
    obtain ⟨newsz, hnew⟩ : ∃ m, m = u32 ((k.proc p).sz + n + 2 ^ 32 : ℤ).toNat := ⟨_, rfl⟩
    rw [← hnew] at e1
    by_cases hlt : newsz < (k.proc p).sz
    · have hnz : (newsz : ℤ) = (k.proc p).sz + n := by
        unfold u32 at hnew
        omega
      obtain ⟨own1, hrs, rfl, hf⟩ := grow_down h hp hlt (fun m hm h1 h2 =>
        hpriv m hm ⟨by omega, by omega, by omega⟩) e1
      by_cases h0 : sz' = 0
      · rw [if_pos ⟨by omega, h0⟩] at hr1
        obtain ⟨_, rfl⟩ := pair_ok hr1
        exact ⟨k1, own1, _, hmo, hrs, hsz, hsame hmo, fun hfit => absurd (by omega) (hfit.1 hneg)⟩
      · rw [if_neg fun e => h0 e.2] at hr1
        obtain ⟨_, rfl⟩ := pair_ok hr1
        exact ⟨k1, own1, sz', hmo, hrs, by omega, rfl, fun _ => hf⟩
    · rw [deallocuvm, if_pos (by omega)] at e1
      obtain ⟨rfl, rfl⟩ := pair_ok e1
      refine ⟨k, own, _, .refl k, hrefl, hsz, ?_, fun _ hf => hf⟩
      split_ifs at hr1
      · rw [← (pair_ok hr1).2]
        exact hsame (.refl k)
      · exact (pair_ok hr1).2.symm

/-! ### `swapOut` and `swapIn` -/

section
variable (h : Inv k own) (hp : k.live p) (hpriv : ∀ m, 4096 * m < (k.proc p).sz → Priv k own (k.dirOf p) m)
include h hp hpriv

theorem swapOut_ok {opened : Bool} {writes : ℕ → Bool} (hr : swapOut k p opened writes = .ok k') :
    ∃ own', Shrunk (k.dirOf p) 0 userPages k own k' own' := by
  have hsz := h.size p hp
  have hd := h.dir p hp
  unfold swapOut at hr
  split_ifs at hr
  · obtain rfl := Except.ok.inj hr
    exact ⟨own, .refl h.wf hd _ _⟩
  · obtain ⟨ok, e1, hr⟩ := bind_ok hr
    split_ifs at hr
    · obtain ⟨⟨r, k1⟩, e2, hr⟩ := bind_ok hr
      obtain rfl := Except.ok.inj hr
      have hhi : ((k.proc p).sz + 4095) / 4096 ≤ userPages := by
        unfold userPages KERNBASE at *
        omega
      have hle : (k.proc p).sz ≤ 4096 * (((k.proc p).sz + 4095) / 4096) := by omega
      obtain ⟨⟨own1, hs⟩, _⟩ := deallocuvm_shrunk h.wf hd hle hhi (fun m _ hm => hpriv m (by omega)) e2
      exact ⟨own1, hs.mono (Nat.zero_le _) hhi⟩
    · obtain rfl := Except.ok.inj hr
      exact ⟨own, .refl h.wf hd _ _⟩

/-- `swapIn` leaves the process suspended, or it gives it all its pages again. -/
theorem swapIn_ok {opened : Bool} {data : FileData} (hr : swapIn k p opened data = .ok k') :
    ∃ k1 own1 st, MemOnly k k1 ∧ Resized (k.dirOf p) k own k1 own1 ∧
      k' = k1.setProc p (fun q => { q with state := st }) ∧
      (st = (k.proc p).state ∨ st = .running ∧
        ((∀ m, 4096 * m < (k.proc p).sz → Present (k.pde (k.dirOf p) m)) →
          NoHoles k1 (k.dirOf p) (k.proc p).sz)) := by
  have hsz := h.size p hp
  have hd := h.dir p hp
  have hsame : ∀ {k1 : Kernel}, MemOnly k k1 →
      k1 = k1.setProc p (fun q => { q with state := (k.proc p).state }) := by
    intro k1 hm
    refine (setProc_eq ?_).symm
    rw [hm.proc]
  unfold swapIn at hr
  split_ifs at hr
  · obtain rfl := Except.ok.inj hr
    exact ⟨_, own, _, .refl _, .refl h.wf hd, hsame (.refl _), .inl rfl⟩
  · obtain ⟨⟨sz', k1⟩, e1, hr1⟩ := bind_ok hr
    clear hr
    dsimp only at hr1
    have hm1 := allocuvm_memOnly.ok e1
    rcases allocuvm_grown h.wf hd (fun _ m _ hm => hpriv m (by omega)) e1 with
      ⟨rfl, rfl⟩ | ⟨hlt, _⟩ | ⟨_, _, own1, hg⟩
    · rw [if_pos rfl] at hr1
      obtain rfl := Except.ok.inj hr1
      exact ⟨_, own, _, .refl _, .refl h.wf hd, hsame (.refl _), .inl rfl⟩
    · omega
    · by_cases h0 : sz' = 0
      · rw [if_pos h0] at hr1
        obtain rfl := Except.ok.inj hr1
        exact ⟨_, own1, _, hm1, hg.toResized, hsame hm1, .inl rfl⟩
      · rw [if_neg h0] at hr1
        obtain ⟨⟨b, k2⟩, e2, hr2⟩ := bind_ok hr1
        obtain rfl := Except.ok.inj hr2
        rw [hm1.proc] at e2
        obtain ⟨h2, he2, _⟩ := loaduvm_resized hg.wf hg.dir (.inr (by rwa [zero_add])) e2
        refine ⟨k2, own1, .running, hm1.trans (loaduvm_memOnly.ok e2), hg.toResized.trans h2, rfl,
          .inr ⟨rfl, fun ht m hm => ?_⟩⟩
        have hzero : pgRoundUp 0 / 4096 = 0 := by decide
        rw [hzero, Nat.zero_max] at hg
        rw [he2]
        rcases hg.filled h0 m (Nat.zero_le _) (by omega) with e | ⟨_, e, _⟩
        · exact e
        · exact absurd (ht m hm) e

end

/-! ### `exec` -/

theorem Local.priv {d d' : ℕ} (hl : Local d k own k' own') (hne : d' ≠ d) (hd' : own d' = .dir)
    (hd : ∀ n, own d ≠ .user d' n) {m : ℕ} (hm : m < allPages) (hp : Priv k own d' m) :
    Priv k' own' d' m := by
  unfold Priv
  rw [hl.entry d' hne hd' m hm]
  intro hpr
  have hu := hp hpr
  rw [hl.role _ _ (by rw [hu]; exact hne), hu]
  intro e
  rw [e] at hu
  exact hd m hu

theorem Local.seg {d : ℕ} (hl : Local d k own k' own') (hd : ∀ key i, own d ≠ .seg key i) {key i : ℕ}
    (h : own v = .seg key i) : own' v = .seg key i := by
  rw [hl.role v _ (by rw [h]; trivial), h]
  rintro rfl
  exact hd key i h

theorem exec_ok (h : Inv k own) (hp : k.live p) {img : Option Image}
    (hfit : ∀ i ∈ img, i.fits ∧ ∀ len ∈ i.args, 0 < len ∧ len ≤ KERNBASE)
    (hpriv : ∀ m < userPages, Priv k own (k.dirOf p) m) (hr : exec k p img = .ok (r, k')) :
    ∃ own', Turn p k own k' own' ∧ (k'.proc p).state = (k.proc p).state ∧
      (NoHoles k (k.dirOf p) (k.proc p).sz → NoHoles k' (k'.dirOf p) (k'.proc p).sz) := by
  have hua := userPages_le
  have hup : ∀ m, 4096 * m < KERNBASE → m < userPages := fun m => page_lt (le_refl _)
  have hfail : ∀ {k1 own1}, Wf k1 own1 → Spared k own k1 own1 → MemOnly k k1 →
      ∃ own', Turn p k own k1 own' ∧ (k1.proc p).state = (k.proc p).state ∧
        (NoHoles k (k.dirOf p) (k.proc p).sz → NoHoles k1 (k1.dirOf p) (k1.proc p).sz) := by
    intro k1 own1 hw hs hm
    refine ⟨own1, h.spared hw hs (fun q => .of_eq (by rw [hm.proc])) p, by rw [hm.proc], ?_⟩
    have hd : k1.dirOf p = k.dirOf p := by rw [Kernel.dirOf, hm.proc]
    rw [hd, hm.proc]
    intro hf m hm'
    rw [hs.entry _ (h.dir p hp) m (by have := page_lt (h.size p hp) hm'; omega)]
    exact hf m hm'
  cases img with
  | none =>
    obtain ⟨_, rfl⟩ := pair_ok hr
    exact hfail h.wf (.refl _ _) (.refl _)
  | some img =>
    obtain ⟨hfits, hargs⟩ := hfit img rfl
    obtain ⟨⟨d, k1⟩, e1, hr1⟩ := bind_ok hr
    clear hr
    have h1 := setupkvm_new h.wf e1
    have hm1 := setupkvm_memOnly.ok e1
    cases d with
    | none =>
      obtain ⟨_, rfl⟩ := pair_ok hr1
      obtain ⟨own1, hw, hs⟩ := h1
      exact hfail hw hs hm1
    | some d =>
      obtain ⟨hd, own1, h1, hz⟩ := h1
      obtain ⟨⟨sz, k2⟩, e2, hr2⟩ := bind_ok hr1
      obtain ⟨own2, h2, hf2⟩ := execBuild_full h1.wf h1.dir hz hfits hargs e2
      have hm2 := hm1.trans (execBuild_memOnly.ok e2)
      have h12 := h1.toLocal.trans h2.toLocal
      have hold := h.dir p hp
      have hne : k.dirOf p ≠ d := by
        intro e
        rw [e, hd] at hold
        cases hold
      cases sz with
      | none =>
        obtain ⟨k3, e3, hr3⟩ := bind_ok hr2
        obtain ⟨_, rfl⟩ := pair_ok hr3
        obtain ⟨own3, hw, hl, hd3⟩ := freevm_local h2.wf h2.dir
          (fun m hm => h2.priv m hm (priv_of_empty hz m hm)) e3
        exact hfail hw ((h12.trans hl).spared (by simp [hd, Fixed]) (by simp [hd3]))
          (hm2.trans (freevm_memOnly.ok e3))
      | some sz =>
        obtain ⟨hsz, hholes⟩ := hf2 sz rfl
        obtain ⟨k4, e4, hr4⟩ := bind_ok hr2
        obtain ⟨_, rfl⟩ := pair_ok hr4
        have hpg : (k2.proc p).pgdir = k.dirOf p := by rw [hm2.proc]
        rw [hpg] at e4
        set k3 := k2.setProc p fun q => { q with pgdir := d, sz := sz } with hk3
        have hw3 : Wf k3 own2 := h2.wf.congr rfl (.setProc _ _ _) fun _ _ => rfl
        have hold2 : own2 (k.dirOf p) = .dir := h12.dir_of_dir hne hold
        have hpriv3 : ∀ m < userPages, Priv k3 own2 (k.dirOf p) m := fun m hm =>
          h12.priv hne hold (by simp [hd]) (by omega) (hpriv m hm)
        obtain ⟨own4, hw4, hl4, hd4⟩ := freevm_local hw3 hold2 hpriv3 e4
        have hm4 := freevm_memOnly.ok e4
        have hproc : k4.proc p = { k.proc p with pgdir := d, sz := sz } := by
          rw [hm4.proc, hk3, setProc_self, hm2.proc]
        have hother : ∀ q ≠ p, k4.proc q = k.proc q := fun q hq => by
          rw [hm4.proc, hk3, Kernel.setProc_proc, update_of_ne hq, hm2.proc]
        have hq1 : ∀ q, k.live q → k.dirOf q ≠ d := fun q hq e => by
          have := h.dir q hq
          rw [e, hd] at this
          cases this
        have hq2 : ∀ q ≠ p, k.live q → k.dirOf q ≠ k.dirOf p := fun q hq hl e =>
          hq (h.inj q p hl hp e)
        have hrole : ∀ v, v ≠ d → v ≠ k.dirOf p → (own v = .dir ∨ ∃ q, own v = .kstack q) →
            own4 v = own v := by
          intro v h1 h2 hv
          have e1 : own2 v = own v := h12.role v h1 (by rcases hv with e | ⟨_, e⟩ <;> rw [e] <;> trivial)
          rw [hl4.role v h2 (by rw [e1]; rcases hv with e | ⟨_, e⟩ <;> rw [e] <;> trivial), e1]
        have hstk : ∀ q, k.live q → own4 (k.proc q).kstack = .kstack q := fun q hq => by
          rw [hrole _ (h.stack_ne hq (.inr hd)) (h.stack_ne hq (.inl hold))
            (.inr ⟨q, h.stack q hq⟩), h.stack q hq]
        refine ⟨own4, h.enter hd hw4 ?_ (hstk p hp) (fun q hq => ⟨.of_eq (hother q hq),
          fun hl n hn => ?_, fun hl => ?_⟩) ?_ ?_ ?_ ?_ (fun q hq hl => ⟨?_, hstk q hl⟩)
          (fun d' hd' => ?_) (fun v key i e => ?_), ?_, fun _ m hm => ?_⟩
        · exact hl4.dir_of_dir hne.symm h2.dir
        · exact (hl4.entry _ (hq2 q hq hl) (h12.dir_of_dir (hq1 q hl) (h.dir q hl)) n hn).trans
            (h12.entry _ (hq1 q hl) (h.dir q hl) n hn)
        · exact (hl4.pde _ (hq2 q hq hl) (h12.dir_of_dir (hq1 q hl) (h.dir q hl))).trans
            (h12.pde _ (hq1 q hl) (h.dir q hl))
        · rw [Kernel.live, hproc]
          exact hp
        · rw [Kernel.dirOf, hproc]
        · rw [hproc]
        · rw [hproc]
          exact hsz.le
        · rw [hrole _ (hq1 q hl) (hq2 q hq hl) (.inl (h.dir q hl)), h.dir q hl]
        · have hne' : d' ≠ k.dirOf p := by
            rintro rfl
            rw [hd4] at hd'
            cases hd'
          by_cases e : d' = d
          · exact .inl e
          · exact .inr ⟨h12.back d' e (hl4.back d' hne' hd'), fun _ => hne'⟩
        · exact hl4.seg (by simp [hold2]) (h12.seg (by simp [hd]) e)
        · rw [hproc]
        · rw [hproc] at hm
          change 4096 * m < sz at hm
          rw [Kernel.dirOf, hproc, hl4.entry d hne.symm h2.dir m (by have := hup m (by omega); omega)]
          exact hholes m hm

/-! ### `fork` and `wait` -/

/-- Nothing has happened, except to a slot that is not in use. -/
theorem Inv.vacant (h : Inv k own) (hwf : Wf k' own') (hs : Spared k own k' own')
    (hp : ¬ k.live p) (hp' : ¬ k'.live p) (hq : ∀ q ≠ p, SameProc q k k') : Turn p k own k' own' := by
  refine h.turn hwf (fun q hqp => h.sameSpace hs (hq q hqp)) (fun q _ hl => ?_)
    (fun hl => absurd hl hp') (fun d hd => .inr ⟨hs.back d hd, fun hl => absurd hl hp⟩) (fun v key i e => ?_)
  · rw [hs.role _ (by rw [h.dir q hl]; trivial), hs.role _ (by rw [h.stack q hl]; trivial)]
    exact ⟨h.dir q hl, h.stack q hl⟩
  · rw [hs.role v (by rw [e]; trivial), e]

theorem Spared.trans {k1 k2 : Kernel} {own1 own2 : ℕ → Role} (h : Spared k own k1 own1)
    (h' : Spared k1 own1 k2 own2) : Spared k own k2 own2 := by
  refine ⟨fun v hv => ?_, fun d hd n hn => ?_, fun d hd => ?_, fun v hv => h.back v (h'.back v hv)⟩
  · rw [h'.role v (by rw [h.role v hv]; exact hv), h.role v hv]
  · have hd' : own1 d = .dir := by rw [h.role d (by rw [hd]; trivial), hd]
    rw [h'.entry d hd' n hn, h.entry d hd n hn]
  · have hd' : own1 d = .dir := by rw [h.role d (by rw [hd]; trivial), hd]
    rw [h'.pde d hd', h.pde d hd]

/-- A free page becomes the kernel stack of the process in slot `p`. -/
theorem Wf.takeStack (h : Wf k own) {l : List ℕ} (hl : k.freelist = v :: l) (p : Slot) :
    own v = .free ∧ Wf { k with freelist := l } (update own v (.kstack p)) ∧
      Spared k own { k with freelist := l } (update own v (.kstack p)) := by
  obtain ⟨h1, hv, hpage⟩ := h.alloc hl
  have h2 := h1.relabel (.of_none (update_self v Role.none own)) (by simp)
    (fun _ => hpage) (r := .kstack p) (by simp) (by simp) (by simp)
  rw [update_idem] at h2
  refine ⟨hv, h2, fun w hw => update_of_ne ?_ _ _, fun _ _ _ _ => rfl, fun _ _ => rfl,
    fun w hw => dir_of_update (by simp) hw⟩
  rintro rfl
  rw [hv] at hw
  exact hw

theorem Wf.freeStack (h : Wf k own) (hv : own v = .kstack p) (hr : kfree k v = .ok k') :
    Wf k' (update own v .free) ∧ (∀ d n, own d = .dir → k'.entry d n = k.entry d n) ∧
      ∀ w ≠ v, k'.mem w = k.mem w := by
  have hpage := h.page v (by simp [hv])
  rw [kfree_page hpage] at hr
  obtain rfl := Except.ok.inj hr
  have h1 := h.relabel (.of_kstack hv) (by simp [hv]) (r := .none) (by simp) (by simp) (by simp)
    (by simp)
  obtain ⟨h2, h3⟩ := h1.freed (v := v) (by simp) hpage
  rw [update_idem] at h2
  refine ⟨h2, fun d n hd => h3 d n ?_, fun w hw => k.freed_mem_of_ne hw⟩
  rw [update_of_ne, hd]
  rintro rfl
  rw [hd] at hv
  cases hv

/-- The stack of a process that has not been made goes back to the free list. -/
theorem Spared.freeStack (h : Spared k own k1 own') (hw : Wf k1 own') (hv : own v = .free)
    (hv' : own' v = .kstack p) (hr : kfree k1 v = .ok k') :
    Wf k' (update own' v .free) ∧ Spared k own k' (update own' v .free) := by
  obtain ⟨hw', he, hm⟩ := hw.freeStack hv' hr
  refine ⟨hw', fun w hw => ?_, fun d hd n hn => ?_, fun d hd => ?_, fun w hw =>
    h.back w (dir_of_update (by simp) hw)⟩
  · rw [update_of_ne, h.role w hw]
    rintro rfl
    rw [hv] at hw
    exact hw
  · rw [he d n (by rw [h.role d (by rw [hd]; trivial), hd]), h.entry d hd n hn]
  · rw [hm d, h.pde d hd]
    rintro rfl
    rw [hd] at hv
    cases hv

/-- A new process in slot `p`, with a stack and a directory made from free pages. -/
theorem Inv.forked {k2 : Kernel} {own1 own2 : ℕ → Role} {ks d : ℕ} (h : Inv k own) (hp : ¬ k.live p)
    (hs : Spared k own k1 own1) (hks : own1 ks = .kstack p) (hne : ks ≠ d) (hd : own d = .free)
    (he : Edits d k1 own1 k2 own2) (hq : ∀ q ≠ p, SameProc q k k2) {f : Proc → Proc}
    (hst : (f (k2.proc p)).state ≠ .unused) (hfd : (f (k2.proc p)).pgdir = d)
    (hfs : (f (k2.proc p)).kstack = ks) (hsz : (f (k2.proc p)).sz ≤ KERNBASE) :
    Turn p k own (k2.setProc p f) own2 := by
  have e : (k2.setProc p f).proc p = f (k2.proc p) := setProc_self k2 p f
  have hdne : ∀ q, k.live q → k.dirOf q ≠ d := fun q hq e => by
    have := h.dir q hq
    rw [e, hd] at this
    cases this
  have hdir : ∀ q, k.live q → own1 (k.dirOf q) = .dir := fun q hq => by
    rw [hs.role _ (by rw [h.dir q hq]; trivial), h.dir q hq]
  have hkeep : ∀ v, Fixed (own v) → own2 v = own v := fun v hv => by
    have e := hs.role v hv
    rw [he.role v _ (by rw [e]; exact hv.foreign d), e]
    rintro rfl
    rw [hd] at hv
    exact hv
  have hks2 : own2 ks = .kstack p := by rw [he.role ks hne (by rw [hks]; trivial), hks]
  refine h.enter hd (he.wf.congr rfl (.setProc _ _ _) fun _ _ => rfl) he.dir hks2
    (fun q hqp => ⟨.setProc (hq q hqp) hqp, fun hl n hn => ?_, fun hl => ?_⟩) ?_ ?_ ?_ ?_
    (fun q _ hl => ?_) (fun d' hd' => ?_) (fun v key i e => ?_)
  · rw [← hs.entry _ (h.dir q hl) n hn, ← he.entry _ (hdne q hl) (hdir q hl) n hn]
    exact congrFun (congrFun (entry_congr rfl) _) n
  · rw [← hs.pde _ (h.dir q hl), ← he.pde _ (hdne q hl) (hdir q hl)]
    rfl
  · rwa [Kernel.live, e]
  · rwa [Kernel.dirOf, e]
  · rwa [e]
  · rwa [e]
  · rw [hkeep _ (by rw [h.dir q hl]; trivial), hkeep _ (by rw [h.stack q hl]; trivial)]
    exact ⟨h.dir q hl, h.stack q hl⟩
  · by_cases e : d' = d
    · exact .inl e
    · exact .inr ⟨hs.back d' (he.back d' e hd'), fun hl => absurd hl hp⟩
  · rw [hkeep v (by rw [e]; trivial), e]

/-- `fork`: a new process with private copies of all pages, or none. -/
theorem fork_ok (h : Inv k own) (hp : k.live p) (hr : fork k p = .ok (r, k')) :
    k' = k ∨ ∃ np own', Turn np k own k' own' ∧ ¬ k.live np ∧ (k'.live np →
      (k'.proc np).state = .running ∧ (k'.proc np).hasShm = (k.proc np).hasShm ∧
      (∀ m < userPages, Priv k' own' (k'.dirOf np) m) ∧
      NoHoles k' (k'.dirOf np) (k'.proc np).sz) := by
  unfold fork at hr
  split at hr
  · exact .inl (pair_ok hr).2.symm
  · rename_i np hnp
    have hun : (k.proc np).state = .unused := by
      simpa using (List.find?_eq_some_iff_append.mp hnp).1
    have hnl : ¬ k.live np := fun hl => hl hun
    have hpn : p ≠ np := by
      rintro rfl
      exact hnl hp
    dsimp only at hr
    set k0 : Kernel := { k.setProc np fun q => { q with state := .embryo, pid := k.nextpid } with
      nextpid := k.nextpid + 1 } with hk0
    have hproc : ∀ q ≠ np, SameProc q k k0 := fun q hq => .of_eq (update_of_ne hq _ _)
    cases hl : k0.freelist with
    | nil =>
      rw [kalloc_nil hl] at hr
      obtain ⟨_, rfl⟩ := pair_ok hr
      have hv := setProc_dead (k := k0) (p := np) (f := fun q => { q with state := .unused, kstack := 0 }) rfl
      exact .inr ⟨np, own, h.vacant (h.wf.congr rfl ⟨rfl, rfl⟩ fun _ _ => rfl) (.congr rfl) hnl hv
        (fun q hq => (hproc q hq).setProc hq), hnl, fun hl => absurd hl hv⟩
    | cons ks l =>
      rw [kalloc_cons hl] at hr
      obtain ⟨⟨d, k3⟩, e3, hr3⟩ := bind_ok hr
      obtain ⟨hks, hw1, hs1⟩ := h.wf.takeStack (v := ks) (l := l) hl np
      set k2 := ({ k0 with freelist := l } : Kernel).setProc np fun q => { q with kstack := ks }
        with hk2
      set own1 := update own ks (.kstack np) with hown1
      have hw2 : Wf k2 own1 := hw1.congr rfl ⟨rfl, rfl⟩ fun _ _ => rfl
      have hs2 : Spared k own k2 own1 := hs1.trans (.congr rfl)
      have hks1 : own1 ks = .kstack np := update_self _ _ _
      have hm3 := copyuvm_memOnly.ok e3
      have hq3 : ∀ q ≠ np, SameProc q k k3 := fun q hq =>
        (hproc q hq).trans_eq (by rw [hm3.proc]; exact update_of_ne hq _ _)
      have hsp : (k2.proc p).sz = (k.proc p).sz := by
        rw [← hm3.proc]
        exact (hq3 p hpn).sz
      rw [hsp] at e3
      have h3 := copyuvm_new hw2 (h.size p hp) e3
      cases d with
      | none =>
        obtain ⟨own3, hw3, hs3⟩ := h3
        obtain ⟨k4, e4, hr4⟩ := bind_ok hr3
        obtain ⟨_, rfl⟩ := pair_ok hr4
        have hks3 : own3 ks = .kstack np := by rw [hs3.role ks (by rw [hks1]; trivial), hks1]
        obtain ⟨hw4, hs4⟩ := (hs2.trans hs3).freeStack hw3 hks hks3 e4
        have hm4 := kfree_memOnly.ok e4
        have hv := setProc_dead (k := k4) (p := np)
          (f := fun q => { q with pgdir := 0, kstack := 0, state := .unused }) rfl
        exact .inr ⟨np, _, h.vacant (hw4.congr rfl (.setProc _ _ _) fun _ _ => rfl)
          (hs4.trans (.congr rfl)) hnl hv (fun q hq => ((hq3 q hq).trans_eq (by rw [hm4.proc])).setProc hq),
          hnl, fun hl => absurd hl hv⟩
      | some d =>
        obtain ⟨hd, own3, h3, hpriv, hholes⟩ := h3
        obtain ⟨_, rfl⟩ := pair_ok hr3
        have hdks : ks ≠ d := by
          rintro rfl
          rw [hd] at hks1
          cases hks1
        rw [hown1, update_of_ne hdks.symm] at hd
        have hnp3 : k3.proc np = { k0.proc np with kstack := ks } := by
          rw [hm3.proc, hk2, setProc_self]
        refine .inr ⟨np, own3, h.forked hnl hs2 hks1 hdks hd h3 hq3 (by simp) rfl ?_ ?_, hnl, fun _ => ?_⟩
        · rw [hnp3]
        · rw [(hq3 p hpn).sz]
          exact h.size p hp
        · rw [Kernel.dirOf, setProc_self, (hq3 p hpn).sz]
          refine ⟨rfl, ?_, hpriv, hholes⟩
          simp only [hnp3, hk0, setProc_self]

theorem zombieChild_zombie (h : zombieChild k p = some q) : (k.proc q).state = .zombie := by
  have := (List.find?_eq_some_iff_append.mp h).1
  simp only [decide_eq_true_eq] at this
  exact this.2

theorem zombieChild_live (h : zombieChild k p = some q) : k.live q := by
  rw [Kernel.live, zombieChild_zombie h]
  simp

/-- `wait`: the zombie child, if there is one, is gone. -/
theorem wait_ok (h : Inv k own)
    (hpriv : ∀ q, zombieChild k p = some q → ∀ m < userPages, Priv k own (k.dirOf q) m)
    (hr : wait k p = .ok k') :
    k' = k ∨ ∃ q own', (k.proc q).state = .zombie ∧ Turn q k own k' own' ∧ ¬ k'.live q := by
  have hua := userPages_le
  unfold wait at hr
  split at hr
  · exact .inl (Except.ok.inj hr).symm
  · rename_i q hz
    have hl := zombieChild_live hz
    have hst := h.stack q hl
    have hdq := h.dir q hl
    obtain ⟨k1, e1, hr1⟩ := bind_ok hr
    obtain ⟨k2, e2, hr2⟩ := bind_ok hr1
    obtain rfl := Except.ok.inj hr2
    have hm1 := kfree_memOnly.ok e1
    have hm2 := hm1.trans (freevm_memOnly.ok e2)
    rw [hm1.proc] at e2
    obtain ⟨hw1, he1, hmem1⟩ := h.wf.freeStack hst e1
    set own1 := update own (k.proc q).kstack .free with hown1
    have hkeep1 : ∀ v ≠ (k.proc q).kstack, own1 v = own v := fun v hv => update_of_ne hv _ _
    have hne : ∀ {v}, (∀ s, own v ≠ .kstack s) → v ≠ (k.proc q).kstack := by
      rintro v hv rfl
      exact hv q hst
    have hd1 : own1 (k.dirOf q) = .dir := by rw [hkeep1 _ (hne (by simp [hdq])), hdq]
    obtain ⟨own2, hw2, hl2, hd2⟩ := freevm_local hw1 hd1 (fun m hm => by
      unfold Priv
      rw [he1 _ m hdq]
      intro hpr
      have hu := hpriv q hz m hm hpr
      rw [hkeep1 _ (hne (by simp [hu])), hu]) e2
    have hnl := setProc_dead (k := k2) (p := q)
      (f := fun r => { r with kstack := 0, state := .unused, pid := 0, parent := none }) rfl
    have hdne : ∀ r ≠ q, k.live r → k.dirOf r ≠ k.dirOf q := fun r hr hlr e =>
      hr (h.inj r q hlr hl e)
    have hdir1 : ∀ r, k.live r → own1 (k.dirOf r) = .dir := fun r hlr => by
      rw [hkeep1 _ (hne (by simp [h.dir r hlr])), h.dir r hlr]
    refine .inr ⟨q, own2, zombieChild_zombie hz, h.turn (hw2.congr rfl (.setProc _ _ _) fun _ _ => rfl)
      (fun r hr => ⟨.setProc (.of_eq (by rw [hm2.proc])) hr, fun hlr n hn => ?_, fun hlr => ?_⟩)
      (fun r hr hlr => ⟨?_, ?_⟩) (fun hl' => absurd hl' hnl) (fun d hd => .inr ⟨?_, fun _ => ?_⟩)
      (fun v key i e => ?_), hnl⟩
    · rw [← he1 _ n (h.dir r hlr), ← hl2.entry _ (hdne r hr hlr) (hdir1 r hlr) n hn]
      exact congrFun (congrFun (entry_congr rfl) _) n
    · rw [← hmem1 _ (hne (by simp [h.dir r hlr])), ← hl2.pde _ (hdne r hr hlr) (hdir1 r hlr)]
      rfl
    · exact hl2.dir_of_dir (hdne r hr hlr) (hdir1 r hlr)
    · have hs := h.stack r hlr
      have hne' : (k.proc r).kstack ≠ (k.proc q).kstack := by
        intro e
        rw [e, hst] at hs
        exact hr (Role.kstack.inj hs).symm
      have hs1 : own1 (k.proc r).kstack = .kstack r := by rw [hkeep1 _ hne', hs]
      rw [hl2.role _ (h.stack_ne hlr (.inl hdq)) (by rw [hs1]; trivial), hs1]
    · have hdne : d ≠ k.dirOf q := by
        rintro rfl
        rw [hd2] at hd
        cases hd
      exact dir_of_update (by simp) (hl2.back d hdne hd)
    · rintro rfl
      rw [hd2] at hd
      cases hd
    · refine hl2.seg (by simp [hd1]) ?_
      rw [hkeep1 _ (hne (by simp [e])), e]

end

end Xv6.Vm
