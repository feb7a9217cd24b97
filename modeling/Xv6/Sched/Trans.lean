import Xv6.Sched.Wake

/-! # The cases of a step

`Trans s a s'` lists the steps of the system once, with their guards; every proof about
`step` starts from `step_trans` and never unfolds `step` again. -/

namespace Xv6.Sched

open Option

/-- The transitions of the system. -/
inductive Trans (s : Sys) : Act → Sys → Prop
  | acquire (c : ℕ) : s.lock = none → s.cpu c = .top →
      Trans s (.acquire c) { s.setCpu c (.scan 0) with lock := some c }
  | skip (c i : ℕ) (h : i < NPROC) : s.cpu c = .scan i → (s.proc ⟨i, h⟩).state ≠ .runnable →
      Trans s (.scan c) (s.setCpu c (.scan (i + 1)))
  | pick (c i : ℕ) (h : i < NPROC) : s.cpu c = .scan i → (s.proc ⟨i, h⟩).state = .runnable →
      Trans s (.scan c) (dispatch s c ⟨i, h⟩)
  | release (c i : ℕ) : s.cpu c = .scan i → ¬ i < NPROC →
      Trans s (.scan c) { s.setCpu c .top with lock := none }
  | yield (c : ℕ) (p : Slot) : s.cpu c = .run p → s.lock = none → (s.thr p).ctl = .exec →
      (s.proc p).state = .running →
      Trans s (.yield c) ((s.setState p .runnable).sched c p .yield)
  | sleep (c a : ℕ) (p : Slot) : s.cpu c = .run p → s.lock = none → s.maySleep p →
      Trans s (.sleep c a) (sleep s c p (.obj a) false)
  | swapped (c : ℕ) (p : Slot) (call : Call) (outs : List Call) : s.cpu c = .run p →
      s.lock = none → (s.thr p).ctl = .exec → (s.thr p).outs = call :: outs →
      Trans s (.swapped c) (swapped s c p call outs)
  | wait (c : ℕ) (p : Slot) : s.cpu c = .run p → s.lock = none → s.inSyscall p →
      Trans s (.wait c) (waitLoop s c p)
  | waitMore (c : ℕ) (p : Slot) : s.cpu c = .run p → s.lock = some c → (s.thr p).ctl = .wait →
      Trans s (.waitMore c) (waitLoop s c p)
  | initExit (c : ℕ) : s.cpu c = .run initproc → s.lock = none → s.inSyscall initproc →
      Trans s (.exit c) { s with mode := .panic "init exiting" }
  | exit (c : ℕ) (p : Slot) : s.cpu c = .run p → s.lock = none → s.inSyscall p → p ≠ initproc →
      Trans s (.exit c) (exit s c p)
  | forkFull (c : ℕ) (p : Slot) : s.cpu c = .run p → s.lock = none → s.inSyscall p →
      unusedSlot s = none → Trans s (.fork c) s
  | fork (c : ℕ) (p np : Slot) : s.cpu c = .run p → s.lock = none → s.inSyscall p →
      unusedSlot s = some np → Trans s (.fork c) (alloc s p np)
  | forked (c : ℕ) (ok : Bool) (p np : Slot) : s.cpu c = .run p → (s.thr p).ctl = .exec →
      (s.thr p).child = some np → Trans s (.forked c ok) (forked s p np ok)
  | wakeup (a : ℕ) : s.lock = none → Trans s (.wakeup a) (wakeup1 (.obj a) s)
  | kill (c : ℕ) (pid : ℤ) (p : Slot) : s.cpu c = .run p → s.lock = none → s.inSyscall p →
      Trans s (.kill c pid) (kill s pid).1
  | setSwap (b : Bool) : Trans s (.setSwap b) { s with swapFlag := b }
  | swapIn (c : ℕ) (ok : Bool) (s' : Sys) : s.cpu c = .run inswapper →
      (s.thr inswapper).ctl = .exec → swapIn s c ok = some s' → Trans s (.swapIn c ok) s'

theorem procStep_trans {s s' : Sys} {c : ℕ} {p : Slot} {a : Act} (hc : s.cpu c = .run p)
    (ha : a.cpu = some c) (h : procStep s c p a = some s') : Trans s a s' := by
  cases a with
  | acquire _ => cases h
  | scan _ => cases h
  | wakeup _ => cases h
  | setSwap _ => cases h
  | yield c' =>
    obtain rfl : c' = c := some.inj ha
    simp only [procStep, ite_none_right_eq_some, some.injEq] at h
    obtain ⟨⟨h1, h2, h3⟩, rfl⟩ := h
    exact .yield c' p hc h1 h2 h3
  | sleep c' a =>
    obtain rfl : c' = c := some.inj ha
    simp only [procStep, ite_none_right_eq_some, some.injEq] at h
    obtain ⟨⟨h1, h2⟩, rfl⟩ := h
    exact .sleep c' a p hc h1 h2
  | swapped c' =>
    obtain rfl : c' = c := some.inj ha
    simp only [procStep] at h
    split at h
    · rename_i call outs ho
      simp only [ite_none_right_eq_some, some.injEq] at h
      obtain ⟨⟨h1, h2⟩, rfl⟩ := h
      exact .swapped c' p call outs hc h1 h2 ho
    · cases h
  | wait c' =>
    obtain rfl : c' = c := some.inj ha
    simp only [procStep, ite_none_right_eq_some, some.injEq] at h
    obtain ⟨⟨h1, h2⟩, rfl⟩ := h
    exact .wait c' p hc h1 h2
  | waitMore c' =>
    obtain rfl : c' = c := some.inj ha
    simp only [procStep, ite_none_right_eq_some, some.injEq] at h
    obtain ⟨⟨h1, h2⟩, rfl⟩ := h
    exact .waitMore c' p hc h1 h2
  | exit c' =>
    obtain rfl : c' = c := some.inj ha
    simp only [procStep, ite_none_right_eq_some] at h
    obtain ⟨⟨h1, h2⟩, h⟩ := h
    split_ifs at h with hp
    · subst hp
      cases h
      exact .initExit c' hc h1 h2
    · cases h
      exact .exit c' p hc h1 h2 hp
  | fork c' =>
    obtain rfl : c' = c := some.inj ha
    simp only [procStep, ite_none_right_eq_some] at h
    obtain ⟨⟨h1, h2⟩, h⟩ := h
    split at h
    · rename_i hu
      cases h
      exact .forkFull c' p hc h1 h2 hu
    · rename_i np hu
      cases h
      exact .fork c' p np hc h1 h2 hu
  | forked c' ok =>
    obtain rfl : c' = c := some.inj ha
    simp only [procStep] at h
    split at h
    · rename_i np hn
      simp only [ite_none_right_eq_some, some.injEq] at h
      obtain ⟨h1, rfl⟩ := h
      exact .forked c' ok p np hc h1 hn
    · cases h
  | kill c' pid =>
    obtain rfl : c' = c := some.inj ha
    simp only [procStep, ite_none_right_eq_some, some.injEq] at h
    obtain ⟨⟨h1, h2⟩, rfl⟩ := h
    exact .kill c' pid p hc h1 h2
  | swapIn c' ok =>
    obtain rfl : c' = c := some.inj ha
    simp only [procStep, ite_none_right_eq_some] at h
    obtain ⟨⟨rfl, h2⟩, h⟩ := h
    exact .swapIn c' ok s' hc h2 h

theorem step_trans {s s' : Sys} {a : Act} (h : step s a = some s') :
    s.mode = .run ∧ Trans s a s' := by
  unfold step at h
  simp only [ite_none_right_eq_some] at h
  obtain ⟨hm, h⟩ := h
  refine ⟨hm, ?_⟩
  split at h
  · rename_i c
    simp only [ite_none_right_eq_some, some.injEq] at h
    obtain ⟨⟨h1, h2⟩, rfl⟩ := h
    exact .acquire c h1 h2
  · rename_i c
    split at h
    · rename_i i hi
      split_ifs at h with hlt hst
      · cases h
        exact .pick c i hlt hi hst
      · cases h
        exact .skip c i hlt hi hst
      · cases h
        exact .release c i hi hlt
    · cases h
  · rename_i a
    simp only [ite_none_right_eq_some, some.injEq] at h
    obtain ⟨h1, rfl⟩ := h
    exact .wakeup a h1
  · rename_i b
    cases h
    exact .setSwap b
  · split at h
    · rename_i c hc
      split at h
      · rename_i p hp
        exact procStep_trans hp hc h
      · cases h
    · cases h

end Xv6.Sched
