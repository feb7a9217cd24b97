import Mathlib.Tactic.Ring
import Xv6.Lib.Runs
import Xv6.Vm.Frame

/-! # Indices into the segment table

An index outside `seg` or `refs` ends a call with `Fault.bounds`. Keys and page counts come from
the user and the flags are indexed by pid; the only check is `0 ≤ key ≤ 1023`. In every reachable
state `BoundsOk` is the exact condition for a call to stay inside the two arrays and not to store
a flag over the counter.

That no segment has more pages than a row of `seg` holds is an invariant (`Rows`), since a call that
would create a longer one faults. -/

namespace Xv6.Vm

open Runs Fallible Function List Option

/-- The calls on the segment table. -/
def Op.isShm : Op → Bool
  | .shmget _ _ _ _ _ => true
  | .shmat _ _ _ => true
  | .shmdt _ _ => true
  | .shmdel _ _ => true
  | _ => false

/-- The call stores the flag `refs[key][0][i]`. -/
def FlagStore (k : Kernel) : Op → ℕ → ℕ → Prop
  | .shmat p shmid _, key, i =>
    k.shm.locked = false ∧ Attaches k p shmid key ∧ i = (k.proc p).pid
  | .shmdt p a, key, i => k.shm.locked = false ∧ Detaches k p a key ∧ i = (k.proc p).pid
  | _, _, _ => False

/-- Only entries of `key` differ. -/
def AtKey (key : ℕ) (k k' : Kernel) : Prop :=
  ∀ j ≠ key, k'.shm.seg j = k.shm.seg j ∧ k'.shm.refs j = k.shm.refs j

/-- The call makes no access outside the arrays, stores no flag over a counter, and changes the
entries of one key only. -/
structure InBounds (k : Kernel) (o : Op) : Prop where
  access : call k o ≠ .error .bounds
  flag : ∀ key i, FlagStore k o key i → i ≠ 64
  atKey : ∃ key, ∀ k', call k o = .ok k' → AtKey key k k'

/-- The condition: keys below `numOfSegs`; a new segment of at most `numOfSegs` pages, or too few
free pages to get that far; pids below 64 for processes that attach or detach. -/
def BoundsOk (k : Kernel) : Op → Prop
  | .shmget _ key size flg _ =>
    0 ≤ key → key ≤ 1023 → flg = CREAT ∨ flg = GET → key < numOfSegs ∧
      (flg = CREAT → k.shm.pages key.toNat = 0 →
        (size + 4095) / 4096 ≤ numOfSegs ∨ k.freelist.length < numOfSegs)
  | .shmat p shmid _ => k.shm.locked = false → (∃ key, Attaches k p shmid key) →
      (k.proc p).pid < 64
  | .shmdt p a => k.shm.locked = false → (∃ key, Detaches k p a key) → (k.proc p).pid < 64
  | _ => True

section
variable {k k' : Kernel} {pgdir key n i a size : ℕ} {p : Slot} {shmid r flg junk : ℤ}

/-! ### Which functions index the table -/

theorem kfree_ne_bounds {v : ℕ} : kfree k v ≠ .error .bounds := by
  unfold kfree
  split_ifs <;> simp

theorem mapLoop_ne_bounds {perm pa : ℕ} : mapLoop pgdir perm n a pa k ≠ .error .bounds := by
  induction n generalizing a pa k with
  | zero => simp [mapLoop]
  | succ n ih =>
    unfold mapLoop
    split
    · simp
    · split_ifs
      · simp
      · exact ih

theorem attachLoop_ne_bounds {perm : Option ℕ} (hn : i + n ≤ numOfSegs) :
    attachLoop pgdir key perm n i a k ≠ .error .bounds := by
  induction n generalizing i a k with
  | zero => simp [attachLoop]
  | succ n ih =>
    intro h
    unfold attachLoop at h
    split_ifs at h
    · cases perm with
      | none => exact ih (by omega) h
      | some perm =>
        rcases bind_error h with h | ⟨⟨b, k1⟩, _, h⟩
        · exact mapLoop_ne_bounds h
        · exact ih (by omega) h
    · omega

theorem clearLoop_ne_bounds : clearLoop pgdir n a k ≠ .error .bounds := by
  induction n generalizing a k with
  | zero => simp [clearLoop]
  | succ n ih =>
    unfold clearLoop
    split
    · simp
    · exact ih

theorem undoLoop_ne_bounds {j : ℕ} : undoLoop key n j k ≠ .error .bounds := by
  induction n generalizing j k with
  | zero => simp [undoLoop]
  | succ n ih =>
    intro h
    rcases bind_error h with h | ⟨k1, _, h⟩
    · exact kfree_ne_bounds h
    · exact ih h

theorem delLoop_ne_bounds (hn : i + n ≤ numOfSegs) : delLoop key n i k ≠ .error .bounds := by
  induction n generalizing i k with
  | zero => simp [delLoop]
  | succ n ih =>
    intro h
    unfold delLoop at h
    rw [if_pos (by omega)] at h
    rcases bind_error h with h | ⟨k1, _, h⟩
    · exact kfree_ne_bounds h
    · exact ih (by omega) h

/-- The loop of `shmget` leaves the row if it has to take more pages than the row holds, and there
are as many. -/
theorem creatLoop_bounds (hi : i ≤ numOfSegs) :
    creatLoop key n i k = .error .bounds ↔
      numOfSegs < i + n ∧ numOfSegs ≤ i + k.freelist.length := by
  induction n generalizing i k with
  | zero =>
    simp only [creatLoop, reduceCtorEq, false_iff]
    omega
  | succ n ih =>
    unfold creatLoop
    cases hl : k.freelist with
    | nil =>
      rw [kalloc_nil hl]
      dsimp only
      split_ifs with h
      · simp only [length_nil, false_iff]
        omega
      · simp only [length_nil, true_iff]
        omega
    | cons v l =>
      rw [kalloc_cons hl]
      dsimp only
      split_ifs with h
      · rw [ih (by omega)]
        simp only [Kernel.setSeg_freelist, length_cons]
        omega
      · simp only [length_cons, true_iff]
        omega

theorem creatLoop_full {m : ℕ} (h : creatLoop key n i k = .ok ((true, m), k')) : n = 0 ∨ i + n ≤ numOfSegs := by
  induction n generalizing i k with
  | zero => exact .inl rfl
  | succ n ih =>
    unfold creatLoop at h
    cases hl : kalloc k with
    | mk mem k1 =>
      rw [hl] at h
      dsimp only at h
      split_ifs at h with hi
      cases mem with
      | none => cases (pair_ok h).1
      | some v =>
        rcases ih h with rfl | h
        · exact .inr (by omega)
        · exact .inr (by omega)

/-! ### What the loops do to the table -/

theorem creatLoop_shm {r : Bool × ℕ} (h : creatLoop key n i k = .ok (r, k')) :
    k'.shm.refs = k.shm.refs ∧ ∀ j ≠ key, k'.shm.seg j = k.shm.seg j := by
  induction n generalizing i k with
  | zero =>
    obtain ⟨_, rfl⟩ := pair_ok h
    exact ⟨rfl, fun _ _ => rfl⟩
  | succ n ih =>
    unfold creatLoop at h
    cases hl : kalloc k with
    | mk mem k1 =>
      rw [hl] at h
      have hk := (kalloc_memOnly hl).shm
      have hset : ∀ v, ∀ j ≠ key, (k1.setSeg key i v).shm.seg j = k.shm.seg j := by
        intro v j hj
        rw [Kernel.setSeg_seg, update_of_ne hj, hk]
      dsimp only at h
      split_ifs at h
      cases mem with
      | none =>
        obtain ⟨_, rfl⟩ := pair_ok h
        exact ⟨by rw [Kernel.setSeg_refs, hk], hset _⟩
      | some v =>
        obtain ⟨h1, h2⟩ := ih h
        exact ⟨by rw [h1, Kernel.setSeg_refs, hk],
          fun j hj => (h2 j hj).trans (hset _ j hj)⟩

theorem delLoop_shm (h : delLoop key n i k = .ok k') :
    k'.shm.seg = k.shm.seg ∧ (∀ j ≠ key, k'.shm.refs j = k.shm.refs j) ∧
      k'.shm.pages key = k.shm.pages key - n := by
  induction n generalizing i k with
  | zero =>
    obtain rfl := Except.ok.inj h
    exact ⟨rfl, fun _ _ => rfl, by simp⟩
  | succ n ih =>
    unfold delLoop at h
    split_ifs at h
    obtain ⟨k1, e1, h⟩ := bind_ok h
    have hk := (kfree_memOnly.ok e1).shm
    obtain ⟨h1, h2, h3⟩ := ih h
    refine ⟨by rw [h1, Kernel.setRefs_seg, hk], fun j hj => ?_, ?_⟩
    · rw [h2 j hj, Kernel.setRefs_refs, update_of_ne hj, hk]
    · rw [h3, setRefs_pages, update_self, hk]
      push_cast
      ring

/-! ### The calls on the table -/

theorem AtKey.refl (key : ℕ) (k : Kernel) : AtKey key k k := fun _ _ => ⟨rfl, rfl⟩

theorem AtKey.noted (p : Slot) (d x : ℤ) : AtKey key k (k.noted p key d x) := by
  intro j hj
  refine ⟨rfl, ?_⟩
  simp [Kernel.noted, hj]

theorem AtKey.memOnly {k1 : Kernel} (h : AtKey key k k1) (hm : MemOnly k1 k') : AtKey key k k' := by
  intro j hj
  rw [hm.shm]
  exact h j hj

theorem shmcreat_atKey (h : shmcreat k key size = .ok (r, k')) :
    AtKey key k k' ∧ ∀ j, k'.shm.pages j = k.shm.pages j ∨
      0 ≤ k'.shm.pages j ∧ k'.shm.pages j ≤ numOfSegs := by
  unfold shmcreat at h
  split_ifs at h
  · obtain ⟨⟨⟨b, i⟩, k1⟩, e1, h⟩ := bind_ok h
    obtain ⟨h1, h2⟩ := creatLoop_shm e1
    have hk : AtKey key k k1 := fun j hj => ⟨h2 j hj, by rw [h1]⟩
    cases b with
    | false =>
      obtain ⟨k2, e2, h⟩ := bind_ok h
      have h2 := undoLoop_memOnly.ok e2
      obtain ⟨_, rfl⟩ := pair_ok h
      exact ⟨hk.memOnly h2, fun j => .inl (by rw [h2.shm, Shm.pages, h1]; rfl)⟩
    | true =>
      obtain ⟨_, rfl⟩ := pair_ok h
      refine ⟨fun j hj => ⟨h2 j hj, ?_⟩, fun j => ?_⟩
      · rw [Kernel.setRefs_refs, update_of_ne hj, h1]
      · rw [setRefs_pages]
        by_cases hj : j = key
        · subst hj
          have hfull := creatLoop_full e1
          generalize pgRoundUp size / PGSIZE = n at hfull
          rw [update_self]
          exact .inr (by omega)
        · rw [update_of_ne hj]
          exact .inl (by rw [Shm.pages, h1]; rfl)
  · obtain ⟨_, rfl⟩ := pair_ok h
    exact ⟨.refl key k, fun _ => .inl rfl⟩

theorem shmget_atKey {key : ℤ} (h : shmget k key size flg junk = .ok (r, k')) :
    AtKey key.toNat k k' ∧ ∀ j, k'.shm.pages j = k.shm.pages j ∨
      0 ≤ k'.shm.pages j ∧ k'.shm.pages j ≤ numOfSegs := by
  have hrefl : ∀ {r' : ℤ}, (.ok (r', k) : Except Fault (ℤ × Kernel)) = .ok (r, k') →
      AtKey key.toNat k k' ∧ ∀ j, k'.shm.pages j = k.shm.pages j ∨
        0 ≤ k'.shm.pages j ∧ k'.shm.pages j ≤ numOfSegs := by
    intro r' h
    obtain ⟨_, rfl⟩ := pair_ok h
    exact ⟨.refl _ k, fun _ => .inl rfl⟩
  unfold shmget at h
  split_ifs at h
  · exact hrefl h
  · exact shmcreat_atKey h
  · exact hrefl h
  · exact hrefl h
  · exact hrefl h

/-- No segment has more pages than a row of `seg` holds. -/
def Rows (k : Kernel) : Prop := ∀ key, 0 ≤ k.shm.pages key ∧ k.shm.pages key ≤ numOfSegs

theorem shmdel_atKey (hr : Rows k) (h : shmdel k shmid = .ok (r, k')) : (∃ key, AtKey key k k') ∧ Rows k' := by
  unfold shmdel at h
  split at h
  · obtain ⟨_, rfl⟩ := pair_ok h
    exact ⟨⟨0, .refl 0 k⟩, hr⟩
  · rename_i key hf
    split_ifs at h
    · obtain ⟨_, rfl⟩ := pair_ok h
      exact ⟨⟨0, .refl 0 k⟩, hr⟩
    · obtain ⟨k1, e1, h⟩ := bind_ok h
      obtain ⟨_, rfl⟩ := pair_ok h
      obtain ⟨h1, h2, h3⟩ := delLoop_shm e1
      refine ⟨⟨key, fun j hj => ⟨by rw [h1], h2 j hj⟩⟩, fun j => ?_⟩
      have hk := hr key
      by_cases hj : j = key
      · subst hj
        rw [h3]
        omega
      · rw [Shm.pages, h2 j hj]
        exact hr j

theorem Rows.step {o : Op} (hr : Rows k) (h : Vm.step k o = some k') : Rows k' := by
  unfold Vm.step at h
  split_ifs at h
  have h := toOption_some h
  cases ho : o.editsSegs with
  | false =>
    intro key
    rw [(call_sameSegs h ho).pages]
    exact hr key
  | true =>
    cases o with
    | shmget p key size flg junk =>
      obtain ⟨⟨r, k1⟩, h1, rfl⟩ := map_ok h
      intro j
      rcases (shmget_atKey h1).2 j with e | e
      · rw [e]
        exact hr j
      · exact e
    | shmdel p shmid =>
      obtain ⟨⟨r, k1⟩, h1, rfl⟩ := map_ok h
      exact (shmdel_atKey hr h1).2
    | _ => cases ho

theorem Reachable.rows {ok : Kernel → Op → Prop} (h : Reachable ok k) : Rows k :=
  h.invariant (fun _ _ _ hr _ hs => Rows.step hr hs)
    fun _ => ⟨le_refl (0 : ℤ), show (0 : ℤ) ≤ numOfSegs by decide⟩

/-! ### The condition for each call -/

theorem shmcreat_bounds (hs : size < 2 ^ 31) :
    shmcreat k key size = .error .bounds ↔ numOfSegs ≤ key ∨ k.shm.pages key = 0 ∧
      numOfSegs < (size + 4095) / 4096 ∧ numOfSegs ≤ k.freelist.length := by
  have hpg : pgRoundUp size / PGSIZE = (size + 4095) / 4096 := by
    unfold pgRoundUp u32 PGSIZE
    omega
  unfold shmcreat
  split_ifs with h1 h2
  · simp [h1]
  · rw [hpg]
    have hb := @creatLoop_bounds k key ((size + 4095) / 4096) 0 (Nat.zero_le numOfSegs)
    rw [zero_add, zero_add] at hb
    simp only [h1, h2, true_and, false_or]
    rw [← hb]
    refine ⟨fun h => ?_, fun h => by simp only [h]; rfl⟩
    rcases bind_error h with h | ⟨⟨⟨b, i⟩, k1⟩, _, h⟩
    · exact h
    · cases b with
      | true => cases h
      | false =>
        rcases bind_error h with h | ⟨k2, _, h⟩
        · exact absurd h undoLoop_ne_bounds
        · cases h
  · simp [h1, h2]

theorem shmget_bounds {key : ℤ} (hs : size < 2 ^ 31) :
    shmget k key size flg junk = .error .bounds ↔
      0 ≤ key ∧ key ≤ 1023 ∧ (flg = CREAT ∨ flg = GET) ∧ (numOfSegs ≤ key.toNat ∨ flg = CREAT ∧
        k.shm.pages key.toNat = 0 ∧ numOfSegs < (size + 4095) / 4096 ∧
          numOfSegs ≤ k.freelist.length) := by
  have hne : GET ≠ CREAT := by decide
  unfold shmget
  by_cases h1 : key < 0 ∨ key > 1023
  · rw [if_pos h1]
    simp only [reduceCtorEq, false_iff]
    omega
  · rw [if_neg h1]
    by_cases h2 : flg = CREAT
    · subst h2
      rw [if_pos rfl, shmcreat_bounds hs]
      simp only [true_or, true_and]
      omega
    · rw [if_neg h2]
      by_cases h3 : flg = GET
      · subst h3
        rw [if_pos rfl]
        by_cases h4 : numOfSegs ≤ key.toNat
        · rw [if_pos h4]
          simp only [hne, h4, true_iff, or_true, true_or, and_true]
          omega
        · rw [if_neg h4]
          simp [h4, hne]
      · rw [if_neg h3]
        simp [h2, h3]

theorem shmget_inBounds_iff {key : ℤ} (hs : size < 2 ^ 31) :
    InBounds k (.shmget p key size flg junk) ↔ BoundsOk k (.shmget p key size flg junk) := by
  have hget := @shmget_bounds k size flg junk key hs
  constructor
  · intro h h0 h1 hf
    have hb := mt map_error_iff.mpr h.access
    rw [hget] at hb
    refine ⟨?_, fun hc hp => ?_⟩
    · by_contra hn
      exact hb ⟨h0, h1, hf, .inl (by omega)⟩
    · by_contra hn
      exact hb ⟨h0, h1, hf, .inr ⟨hc, hp, by omega, by omega⟩⟩
  · intro h
    refine ⟨fun e => ?_, fun key i e => e.elim, key.toNat, fun k' e => ?_⟩
    · obtain ⟨h0, h1, hf, hb⟩ := hget.mp (map_error_iff.mp e)
      obtain ⟨h2, h3⟩ := h h0 h1 hf
      rcases hb with hb | ⟨hc, hp, hb⟩
      · omega
      · have := h3 hc hp
        omega
    · obtain ⟨⟨r, k1⟩, h1, rfl⟩ := map_ok e
      exact (shmget_atKey h1).1

theorem shmat_inBounds_iff (hr : Rows k) :
    InBounds k (.shmat p shmid flg) ↔ BoundsOk k (.shmat p shmid flg) := by
  constructor
  · rintro ⟨h1, h2, _⟩ hl ⟨key, ha⟩
    have hne := h2 key _ ⟨hl, ha, rfl⟩
    have hle : (k.proc p).pid ≤ 64 := by
      by_contra hp
      refine h1 (map_error_iff.mpr ?_)
      rw [shmat_some hl ha, if_neg hp]
    omega
  · intro h
    have hflag : ∀ key i, FlagStore k (.shmat p shmid flg) key i → i ≠ 64 := by
      rintro key i ⟨hl, ha, rfl⟩
      exact (h hl ⟨key, ha⟩).ne
    refine ⟨fun e => ?_, hflag, ?_⟩
    · have e := map_error_iff.mp e
      cases hl : k.shm.locked with
      | true =>
        rw [shmat, if_pos hl] at e
        cases e
      | false =>
        by_cases ha : ∃ key, Attaches k p shmid key
        · have hp := h hl ha
          obtain ⟨key, ha⟩ := ha
          have hk := hr key
          rw [shmat_some hl ha, if_pos (by omega), map_error_iff] at e
          exact attachLoop_ne_bounds (by omega) e
        · push Not at ha
          rw [shmat_none hl ha] at e
          cases e
    · by_cases ha : ∃ key, Attaches k p shmid key
      · obtain ⟨key, ha⟩ := ha
        refine ⟨key, fun k' e => ?_⟩
        obtain ⟨⟨r, k1⟩, e1, rfl⟩ := map_ok e
        rcases shmat_ok e1 with ⟨hn, _⟩ | ⟨key', a, k2, ha', _, h1, h2⟩
        · exact absurd ha (hn key)
        · obtain rfl : key = key' := some.inj (ha.1 ▸ ha'.1)
          have hk := (AtKey.noted (k := k) p 1 1).memOnly (attachLoop_memOnly.ok h1)
          rcases h2 with ⟨_, rfl⟩ | ⟨_, rfl⟩
          · exact hk
          · exact fun j hj => hk j hj
      · push Not at ha
        refine ⟨0, fun k' e => ?_⟩
        obtain ⟨⟨r, k1⟩, e1, rfl⟩ := map_ok e
        rcases shmat_ok e1 with ⟨_, rfl⟩ | ⟨key', a, k2, ha', _⟩
        · exact .refl 0 _
        · exact absurd ha' (ha key')

theorem shmdt_inBounds_iff : InBounds k (.shmdt p a) ↔ BoundsOk k (.shmdt p a) := by
  constructor
  · rintro ⟨h1, h2, _⟩ hl ⟨key, ha⟩
    have hne := h2 key _ ⟨hl, ha, rfl⟩
    have hle : (k.proc p).pid ≤ 64 := by
      by_contra hp
      refine h1 (map_error_iff.mpr ?_)
      rw [shmdt_some hl ha, if_neg hp]
    omega
  · intro h
    have hflag : ∀ key i, FlagStore k (.shmdt p a) key i → i ≠ 64 := by
      rintro key i ⟨hl, ha, rfl⟩
      exact (h hl ⟨key, ha⟩).ne
    refine ⟨fun e => ?_, hflag, ?_⟩
    · have e := map_error_iff.mp e
      by_cases ha : ∃ key, Detaches k p a key
      · cases hl : k.shm.locked with
        | true =>
          obtain ⟨key, t, i, hw, _⟩ := ha
          simp only [shmdt, hw, hl, if_true] at e
          cases e
        | false =>
          have hp := h hl ha
          obtain ⟨key, ha⟩ := ha
          rw [shmdt_some hl ha, if_pos (by omega), map_error_iff] at e
          exact clearLoop_ne_bounds e
      · push Not at ha
        exact shmdt_none_ne ha e
    · by_cases ha : ∃ key, Detaches k p a key
      · obtain ⟨key, ha⟩ := ha
        refine ⟨key, fun k' e => ?_⟩
        obtain ⟨⟨r, k1⟩, e1, rfl⟩ := map_ok e
        rcases shmdt_ok e1 with ⟨hn, _⟩ | ⟨key', ha', _, h1⟩
        · exact absurd ha (hn key)
        · obtain ⟨t, i, hw, hf, _⟩ := ha
          obtain ⟨t', i', hw', hf', _⟩ := ha'
          rw [hw] at hw'
          obtain ⟨rfl, rfl⟩ := Prod.mk.inj (some.inj hw')
          obtain rfl : key = key' := some.inj (hf ▸ hf')
          exact (AtKey.noted (k := k) p (-1) 0).memOnly (clearLoop_memOnly.ok h1)
      · push Not at ha
        refine ⟨0, fun k' e => ?_⟩
        obtain ⟨⟨r, k1⟩, e1, rfl⟩ := map_ok e
        rcases shmdt_ok e1 with ⟨_, rfl | rfl⟩ | ⟨key', ha', _⟩
        · exact .refl 0 _
        · exact fun _ _ => ⟨rfl, rfl⟩
        · exact absurd ha' (ha key')

theorem shmdel_inBounds (hr : Rows k) : InBounds k (.shmdel p shmid) := by
  refine ⟨fun e => ?_, fun key i e => e.elim, ?_⟩
  · have e := map_error_iff.mp e
    unfold shmdel at e
    split at e
    · cases e
    · rename_i key hf
      split_ifs at e
      have hk := hr key
      rcases bind_error e with e | ⟨k1, _, e⟩
      · exact delLoop_ne_bounds (by omega) e
      · cases e
  · cases hc : shmdel k shmid with
    | error e => exact ⟨0, fun k' e' => by rw [call, hc] at e'; cases e'⟩
    | ok r =>
      obtain ⟨key, hk⟩ := (shmdel_atKey hr hc).1
      refine ⟨key, fun k' e' => ?_⟩
      rw [call, hc] at e'
      obtain rfl := Except.ok.inj e'
      exact hk

/-! ### The condition is exact -/

/-- **Bounds of the segment table**: in every reachable state a call on the table stays inside the
arrays, stores no flag over a counter and touches one key only, exactly if `BoundsOk` holds. -/
theorem shm_inBounds_iff (h : Reachable Always k) {o : Op} (ho : o.isShm = true)
    (ha : o.admitted k) : InBounds k o ↔ BoundsOk k o := by
  have hr := h.rows
  cases o with
  | shmget p key size flg junk => exact shmget_inBounds_iff ha
  | shmat p shmid flg => exact shmat_inBounds_iff hr
  | shmdt p a => exact shmdt_inBounds_iff
  | shmdel p shmid => exact ⟨fun _ => trivial, fun _ => shmdel_inBounds hr⟩
  | _ => cases ho

end

/-- A segment of two pages. -/
theorem shm_inBounds_creat : InBounds boot (.shmget initproc 7 8192 CREAT 0) :=
  (shm_inBounds_iff (.refl boot) rfl (by decide)).mpr fun _ _ _ =>
    ⟨by decide, fun _ _ => .inl (by decide)⟩

/-- Key 100 passes the check of `shmget`, but there is no row 100. -/
theorem shmget_outOfBounds : Reachable Always boot ∧
    boot.mayCall (.shmget initproc 100 4096 CREAT 0) ∧
    (Op.shmget initproc 100 4096 CREAT 0).admitted boot ∧
    call boot (.shmget initproc 100 4096 CREAT 0) = .error .bounds :=
  ⟨.refl boot, by decide, by decide, rfl⟩

end Xv6.Vm
