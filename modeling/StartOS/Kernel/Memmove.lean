import Mathlib.Logic.Function.Basic
import StartOS.Lib.ByteMem

/-! # Moving bytes

`memmove` copies from the last byte down when the destination begins inside the
source, and from the first byte up otherwise. Pointers are 64-bit numbers.
-/

namespace StartOS

/-- `while (n-- > 0) *--d = *--s;`. -/
def copyDown : ℕ → ℕ → ℕ → ByteMem → ByteMem
  | 0, _, _, m => m
  | n + 1, d, s, m =>
    let d := (d + (2 ^ 64 - 1)) % 2 ^ 64
    let s := (s + (2 ^ 64 - 1)) % 2 ^ 64
    copyDown n d s (Function.update m d (m s))

/-- `while (n-- > 0) *d++ = *s++;`. -/
def copyUp : ℕ → ℕ → ℕ → ByteMem → ByteMem
  | 0, _, _, m => m
  | n + 1, d, s, m =>
    copyUp n ((d + 1) % 2 ^ 64) ((s + 1) % 2 ^ 64) (Function.update m d (m s))

/-- `memmove`: the pointer it returns and the memory. -/
def memmove (m : ByteMem) (dst src n : ℕ) : ℕ × ByteMem :=
  if src < dst ∧ (src + n) % 2 ^ 64 > dst then
    (dst, copyDown n ((dst + n) % 2 ^ 64) ((src + n) % 2 ^ 64) m)
  else (dst, copyUp n dst src m)

variable {m : ByteMem} {dst src n d s i x : ℕ}

theorem update_eq_blit (m : ByteMem) (a : ℕ) (b : UInt8) :
    Function.update m a b = m.blit a 1 fun _ => b := by
  funext x
  by_cases hx : x = a
  · rw [hx, Function.update_self, ByteMem.blit_of_mem le_rfl (Nat.lt_succ_self a)]
  · rw [Function.update_of_ne hx, ByteMem.blit_of_not_mem (by omega)]

theorem copyDown_eq (hlt : s < d) (hd : d + n ≤ 2 ^ 64) :
    copyDown n ((d + n) % 2 ^ 64) ((s + n) % 2 ^ 64) m = m.blit d n fun i => m (s + i) := by
  induction n generalizing m with
  | zero => rw [copyDown, ByteMem.blit_zero]
  | succ n ih =>
    have hdst : ((d + (n + 1)) % 2 ^ 64 + (2 ^ 64 - 1)) % 2 ^ 64 = d + n := by omega
    have hsrc : ((s + (n + 1)) % 2 ^ 64 + (2 ^ 64 - 1)) % 2 ^ 64 = s + n := by omega
    have hread : ∀ i < n, Function.update m (d + n) (m (s + n)) (s + i) = m (s + i) := fun i hi =>
      Function.update_of_ne (by omega) _ _
    have hrest := ih (m := Function.update m (d + n) (m (s + n))) (by omega)
    rw [Nat.mod_eq_of_lt (show d + n < 2 ^ 64 by omega),
      Nat.mod_eq_of_lt (show s + n < 2 ^ 64 by omega), ByteMem.blit_congr hread] at hrest
    rw [copyDown, hdst, hsrc, hrest, update_eq_blit]
    refine ByteMem.blit_prepend fun i hi => ?_
    rw [Nat.lt_one_iff.mp hi, Nat.add_zero]

/-- From the start up no byte is read after it was overwritten, as the destination does not begin
behind the start of the source and before its end. -/
theorem copyUp_eq (h : d ≤ s ∨ s + n ≤ d) (hs : s + n ≤ 2 ^ 64) (hd : d + n ≤ 2 ^ 64) :
    copyUp n d s m = m.blit d n fun i => m (s + i) := by
  induction n generalizing m d s with
  | zero => rw [copyUp, ByteMem.blit_zero]
  | succ n ih =>
    rw [copyUp]
    by_cases hn : n = 0
    · subst hn
      rw [copyUp, update_eq_blit]
      refine ByteMem.blit_congr fun i hi => ?_
      rw [Nat.lt_one_iff.mp hi, Nat.add_zero]
    · have hread : ∀ i < n, Function.update m d (m s) (s + 1 + i) = m (s + (1 + i)) := by
        intro i hi
        rw [Function.update_of_ne (by omega), Nat.add_assoc]
      rw [Nat.mod_eq_of_lt (show d + 1 < 2 ^ 64 by omega),
        Nat.mod_eq_of_lt (show s + 1 < 2 ^ 64 by omega), ih (by omega) (by omega) (by omega),
        ByteMem.blit_congr hread, update_eq_blit, Nat.add_comm n 1]
      have hfirst : m.blit d 1 (fun _ => m s) = m.blit d 1 fun i => m (s + i) := by
        refine ByteMem.blit_congr fun i hi => ?_
        rw [Nat.lt_one_iff.mp hi, Nat.add_zero]
      rw [hfirst]
      exact ByteMem.blit_append fun i _ => rfl

theorem memmove_eq_blit (m : ByteMem) (hsrc : src + n ≤ 2 ^ 64) (hdst : dst + n ≤ 2 ^ 64) :
    memmove m dst src n = (dst, m.blit dst n fun i => m (src + i)) := by
  unfold memmove
  split
  · rename_i h
    rw [copyDown_eq h.1 hdst]
  · rename_i h
    have hsides : dst ≤ src ∨ src + n ≤ dst := by
      rcases Nat.lt_or_ge src dst with hlt | hge
      · -- behind the source there is room for the destination, so its end does not wrap
        have hwrap : (src + n) % 2 ^ 64 = src + n ∨ n = 0 := by omega
        rcases hwrap with hwrap | rfl
        · rw [hwrap] at h
          exact .inr (not_lt.mp fun hgt => h ⟨hlt, hgt⟩)
        · exact .inr hlt.le
      · exact .inl hge
    rw [copyUp_eq hsides hsrc hdst]

/-- After `memmove` the destination holds the bytes that the source held before, and all other
bytes are unchanged, in whatever way the two ranges overlap. -/
theorem memmove_correct (m : ByteMem) (dst src n : ℕ) (hsrc : src + n ≤ 2 ^ 64)
    (hdst : dst + n ≤ 2 ^ 64) :
    (memmove m dst src n).1 = dst ∧
      (∀ i < n, (memmove m dst src n).2 (dst + i) = m (src + i)) ∧
      ∀ x, x < dst ∨ dst + n ≤ x → (memmove m dst src n).2 x = m x := by
  rw [memmove_eq_blit m hsrc hdst]
  refine ⟨rfl, fun i hi => ?_, fun x hx => ?_⟩
  · dsimp only
    rw [ByteMem.blit_of_mem (Nat.le_add_right dst i) (by omega), Nat.add_sub_cancel_left]
  · dsimp only
    rw [ByteMem.blit_of_not_mem hx]

theorem memmove_correct_overlap :
    (∀ i < 3, (memmove UInt8.ofNat 5 4 3).2 (5 + i) = UInt8.ofNat (4 + i)) ∧
      (memmove UInt8.ofNat 5 4 3).2 4 = 4 :=
  have h := memmove_correct UInt8.ofNat 5 4 3 (by decide) (by decide)
  ⟨h.2.1, h.2.2 4 (.inl (by decide))⟩

end StartOS
