import Mathlib.Data.Finset.Card
import Mathlib.Logic.Function.Basic
import Mathlib.Tactic.Common

/-! # Counting references

Finitely many slots each hold a reference to an object or nothing. Filling or
emptying one slot changes the number of references to one object by one.
-/

namespace Slots

variable {κ α : Type*} [DecidableEq α] {K : Finset κ} {f : κ → Option α} {k : κ}
  {a b : α}

def count (K : Finset κ) (f : κ → Option α) (a : α) : ℕ := (K.filter fun k => f k = some a).card

theorem count_congr {g : κ → Option α} (h : ∀ k ∈ K, g k = f k) : count K g a = count K f a := by
  unfold count
  congr 1
  exact Finset.filter_congr fun k hk => by rw [h k hk]

theorem count_pos (hk : k ∈ K) (h : f k = some a) : 0 < count K f a :=
  Finset.card_pos.mpr ⟨k, Finset.mem_filter.mpr ⟨hk, h⟩⟩

theorem count_eq_zero (h : ∀ k ∈ K, f k ≠ some a) : count K f a = 0 := by
  unfold count
  rw [Finset.filter_false_of_mem h, Finset.card_empty]

theorem count_le_count {g : κ → Option α} (h : ∀ k ∈ K, f k = some a → g k = some a) :
    count K f a ≤ count K g a := by
  apply Finset.card_le_card
  intro k hk
  obtain ⟨hmem, hf⟩ := Finset.mem_filter.mp hk
  exact Finset.mem_filter.mpr ⟨hmem, h k hmem hf⟩

variable [DecidableEq κ]

theorem count_fill (hk : k ∈ K) (h : f k = none) :
    count K (Function.update f k (some a)) b = count K f b + if b = a then 1 else 0 := by
  unfold count
  by_cases hba : b = a
  · subst hba
    have hnot : k ∉ K.filter fun k => f k = some b := by simp [h]
    rw [if_pos rfl, ← Finset.card_insert_of_notMem hnot]
    congr 1
    ext j
    by_cases hj : j = k
    · simp [hj, hk]
    · simp [hj]
  · rw [if_neg hba]
    congr 1
    refine Finset.filter_congr fun j _ => ?_
    by_cases hj : j = k
    · subst hj
      simp [h, Ne.symm hba]
    · simp [hj]

theorem count_empty (hk : k ∈ K) (h : f k = some a) :
    count K (Function.update f k none) b + (if b = a then 1 else 0) = count K f b := by
  have hself : Function.update (Function.update f k none) k (some a) = f := by
    rw [Function.update_idem, ← h, Function.update_eq_self]
  have := count_fill (a := a) (b := b) hk (Function.update_self k none f)
  rw [hself] at this
  exact this.symm

end Slots
