import Xv6.Fs.Names

/-! # The loops over a directory

`dirlookup` and `dirlink` read the entries of a directory one after the other. What they do is stated for
any handler that reads entry `t` as `e t` (`Reads`): the first entry for the name is found
(`dirlookup_found`, `dirlookup_none`), and a new entry goes to the first one that is empty
(`dirlink_new`). -/

namespace Xv6.Fs.Names

open Prog

/-- `dirlookup` takes this entry for `name`. -/
def hit (name : List UInt8) (e : Dirent) : Prop := e.inum ≠ 0 ∧ nameEq name e.name = true
deriving Decidable

/-- The first `n` entries of directory `dp` are read as `e 0`, `e 1`, …, and nothing changes. -/
def Reads {σ : Type} (h : Handler Op Op.Resp σ String) (dp : ℕ) (e : ℕ → Dirent) (n : ℕ) (s : σ) : Prop :=
  ∀ t < n, h (.readDe dp (16 * t)) s = (.ok (some (e t)), s)

section
variable {σ : Type} {h : Handler Op Op.Resp σ String} {dp n t T : ℕ} {e : ℕ → Dirent} {s s' : σ}
  {name : List UInt8}

theorem Reads.mono (hr : Reads h dp e n s) (ht : t ≤ n) : Reads h dp e t s :=
  fun u hu => hr u (hu.trans_le ht)

theorem lookupLoop_succ (hr : h (.readDe dp (16 * t)) s = (.ok (some (e t)), s)) :
    (lookupLoop dp name (n + 1) (16 * t)).run h s =
      if hit name (e t) then (do iget (e t).inum; pure (some ((e t).inum, 16 * t)) : Fsys _).run h s
      else (lookupLoop dp name n (16 * (t + 1))).run h s := by
  have hread : (readDe dp (16 * t)).run h s = (.ok (some (e t)), s) := run_op hr
  rw [lookupLoop, run_seq hread]
  exact apply_ite (fun p : Fsys _ => p.run h s) _ _ _

/-- The entries from `t` up to the first one for `name`. -/
theorem lookupLoop_found (hr : Reads h dp e (T + 1) s) (hhit : hit name (e T))
    (hfirst : ∀ u < T, ¬ hit name (e u)) (hget : h (.iget (e T).inum) s = (.ok (), s'))
    (ht : t ≤ T) (hn : T < t + n) :
    (lookupLoop dp name n (16 * t)).run h s = (.ok (some ((e T).inum, 16 * T)), s') := by
  induction n generalizing t with
  | zero => omega
  | succ n ih =>
    rw [lookupLoop_succ (hr t (by omega))]
    obtain rfl | hlt := Nat.eq_or_lt_of_le ht
    · have higet : (iget (e t).inum).run h s = (.ok (), s') := run_op hget
      rw [if_pos hhit, run_seq higet]
      rfl
    · rw [if_neg (hfirst t hlt)]
      exact ih (by omega) (by omega)

theorem lookupLoop_none (hr : Reads h dp e (t + n) s) (hmiss : ∀ u < t + n, ¬ hit name (e u)) :
    (lookupLoop dp name n (16 * t)).run h s = (.ok none, s) := by
  induction n generalizing t with
  | zero => rfl
  | succ n ih =>
    rw [lookupLoop_succ (hr t (by omega)), if_neg (hmiss t (by omega))]
    have hsucc : t + 1 + n = t + (n + 1) := by omega
    exact ih (hsucc ▸ hr) (hsucc ▸ hmiss)

theorem emptyLoop_run (hr : Reads h dp e (t + n) s) (hT : t ≤ T ∧ T ≤ t + n)
    (hfull : ∀ u < T, (e u).inum ≠ 0) (hempty : T < t + n → (e T).inum = 0) :
    (emptyLoop dp n (16 * t)).run h s = (.ok (16 * T), s) := by
  induction n generalizing t with
  | zero =>
    obtain rfl : t = T := by omega
    rfl
  | succ n ih =>
    have hread : (readDe dp (16 * t)).run h s = (.ok (some (e t)), s) := run_op (hr t (by omega))
    rw [emptyLoop, run_seq hread]
    dsimp only
    obtain rfl | hlt := Nat.eq_or_lt_of_le hT.1
    · rw [if_pos (hempty (by omega))]
      rfl
    · rw [if_neg (hfull t hlt)]
      have hsucc : t + 1 + n = t + (n + 1) := by omega
      exact ih (t := t + 1) (hsucc ▸ hr) ⟨hlt, by omega⟩ fun hu => hempty (by omega)

section
variable {m : Stat} (hstat : h (.stat dp) s = (.ok m, s)) (htype : m.type = T_DIR)
include hstat htype

theorem dirlookup_run : (dirlookup dp name).run h s
    = (lookupLoop dp name ((m.size + 15) / 16) 0).run h s := by
  have hget : (getStat dp).run h s = (.ok m, s) := run_op hstat
  rw [dirlookup, run_seq hget, if_neg (not_not_intro htype)]

/-- **The first entry for `name`.** -/
theorem dirlookup_found (hr : Reads h dp e (T + 1) s) (hhit : hit name (e T))
    (hfirst : ∀ u < T, ¬ hit name (e u)) (hget : h (.iget (e T).inum) s = (.ok (), s'))
    (hT : 16 * T < m.size) :
    (dirlookup dp name).run h s = (.ok (some ((e T).inum, 16 * T)), s') := by
  rw [dirlookup_run hstat htype]
  exact lookupLoop_found (t := 0) hr hhit hfirst hget (Nat.zero_le _) (by omega)

/-- **No entry for `name`.** -/
theorem dirlookup_none (hsize : m.size = 16 * n) (hr : Reads h dp e n s)
    (hmiss : ∀ u < n, ¬ hit name (e u)) : (dirlookup dp name).run h s = (.ok none, s) := by
  have hn : (m.size + 15) / 16 = 0 + n := by omega
  rw [dirlookup_run hstat htype, hn]
  rw [Nat.zero_add]
  exact lookupLoop_none (t := 0) (by rwa [Nat.zero_add]) (by rwa [Nat.zero_add])

/-- **`dirlink` for a new name**: the entry is written to the first empty place. -/
theorem dirlink_new (hsize : m.size = 16 * n) (hr : Reads h dp e n s)
    (hmiss : ∀ u < n, ¬ hit name (e u)) (hT : T ≤ n) (hfull : ∀ u < T, (e u).inum ≠ 0)
    (hempty : T < n → (e T).inum = 0) {inum : ℕ}
    (hwrite : h (.writeDe dp (16 * T) ⟨inum, name.take DIRSIZ⟩) s = (.ok true, s')) :
    (dirlink dp name inum).run h s = (.ok true, s') := by
  have hget : (getStat dp).run h s = (.ok m, s) := run_op hstat
  have hloop : (emptyLoop dp ((m.size + 15) / 16) 0).run h s = (.ok (16 * T), s) := by
    have hn : (m.size + 15) / 16 = n := by omega
    rw [hn]
    exact emptyLoop_run (t := 0) (by rwa [Nat.zero_add]) ⟨Nat.zero_le _, by omega⟩ hfull
      fun hlt => hempty (by omega)
  have hde : (writeDe dp (16 * T) ⟨inum, name.take DIRSIZ⟩).run h s = (.ok true, s') := run_op hwrite
  rw [dirlink, run_seq (dirlookup_none hstat htype hsize hr hmiss)]
  dsimp only
  rw [run_seq hget, run_seq hloop, run_seq hde]
  rfl

end

end

end Xv6.Fs.Names
