import Mathlib.Data.Finset.Card
import Mathlib.Order.Interval.Finset.Nat
import StartOS.Lib.ByteMem

/-! # Counting zero bytes

The number of zero bytes below a bound is a measure for a memory in which zero
words are filled: a word without a zero byte takes all of a word away from it, and
a word that is not zero gives less than a word back, wherever the two are.
-/

namespace ByteMem

def zeros (m : ByteMem) (N : ℕ) : Finset ℕ := {x ∈ Finset.range N | m x = 0}

variable {m : ByteMem} {a i k v N x : ℕ} {f : ℕ → UInt8}

theorem mem_zeros : x ∈ m.zeros N ↔ x < N ∧ m x = 0 := by
  rw [zeros, Finset.mem_filter, Finset.mem_range]

theorem card_zeros_blit_full (hN : a + k ≤ N) (hm : ∀ x, a ≤ x → x < a + k → m x = 0)
    (hf : ∀ i < k, f i ≠ 0) : ((m.blit a k f).zeros N).card + k = (m.zeros N).card := by
  have hsub : Finset.Ico a (a + k) ⊆ m.zeros N := by
    intro x hx
    rw [Finset.mem_Ico] at hx
    exact mem_zeros.mpr ⟨by omega, hm x hx.1 hx.2⟩
  have heq : (m.blit a k f).zeros N = m.zeros N \ Finset.Ico a (a + k) := by
    ext x
    rw [Finset.mem_sdiff, mem_zeros, mem_zeros, Finset.mem_Ico]
    by_cases hx : a ≤ x ∧ x < a + k
    · rw [blit_of_mem hx.1 hx.2]
      exact iff_of_false (fun h => hf _ (by omega) h.2) fun h => h.2 hx
    · rw [blit_of_not_mem (by omega)]
      exact (and_iff_left hx).symm
  have hcard := Finset.card_sdiff_add_card_eq_card hsub
  rw [← heq, Nat.card_Ico, Nat.add_sub_cancel_left] at hcard
  exact hcard

theorem card_zeros_blit_lt (hi : i < k) (hf : f i ≠ 0) :
    ((m.blit a k f).zeros N).card < (m.zeros N).card + k := by
  have hsub : (m.blit a k f).zeros N ⊆ m.zeros N ∪ (Finset.Ico a (a + k)).erase (a + i) := by
    intro x hx
    rw [mem_zeros] at hx
    rw [Finset.mem_union, mem_zeros, Finset.mem_erase, Finset.mem_Ico]
    by_cases hmem : a ≤ x ∧ x < a + k
    · rw [blit_of_mem hmem.1 hmem.2] at hx
      refine .inr ⟨fun he => hf ?_, hmem⟩
      rw [he, Nat.add_sub_cancel_left] at hx
      exact hx.2
    · rw [blit_of_not_mem (by omega)] at hx
      exact .inl hx
  have hle := (Finset.card_le_card hsub).trans (Finset.card_union_le _ _)
  rw [Finset.card_erase_of_mem (Finset.mem_Ico.mpr (by omega)), Nat.card_Ico] at hle
  omega

theorem exists_byte_ne_zero (hv : v % 2 ^ 32 ≠ 0) : ∃ i < 4, UInt8.ofNat (v / 256 ^ i) ≠ 0 := by
  by_contra hall
  push Not at hall
  have hbyte : ∀ i < 4, v / 256 ^ i % 256 = 0 := by
    intro i hi
    have := congrArg UInt8.toNat (hall i hi)
    simpa using this
  have h₀ := hbyte 0 (by decide)
  have h₁ := hbyte 1 (by decide)
  have h₂ := hbyte 2 (by decide)
  have h₃ := hbyte 3 (by decide)
  norm_num at h₀ h₁ h₂ h₃
  omega

end ByteMem
