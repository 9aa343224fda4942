import Mathlib.Data.Nat.ModEq
import Mathlib.Data.List.Range
import Mathlib.Logic.Function.Basic
import Mathlib.Tactic.Common

/-! # Ring buffers

A queue kept in `cap` cells that are used in turn. The entry behind `k` others
lies `k` cells after the first one, and the counters that number the cells may
themselves wrap at a multiple of `cap`.
-/

namespace Ring

variable {α : Type*} {data : ℕ → α} {cap start len : ℕ}

def window (data : ℕ → α) (cap start len : ℕ) : List α :=
  (List.range len).map fun k => data ((start + k) % cap)

@[simp] theorem length_window : (window data cap start len).length = len := by simp [window]

theorem window_succ :
    window data cap start (len + 1) = data (start % cap) :: window data cap (start + 1) len := by
  unfold window
  rw [List.range_succ_eq_map, List.map_cons, List.map_map, Nat.add_zero]
  congr 1
  apply List.map_congr_left
  intro k _
  rw [Function.comp_apply, Nat.succ_eq_add_one, Nat.add_right_comm, Nat.add_assoc]

theorem window_succ_last :
    window data cap start (len + 1) =
      window data cap start len ++ [data ((start + len) % cap)] := by
  unfold window
  rw [List.range_succ, List.map_append, List.map_singleton]

theorem window_congr {start' : ℕ} (h : start % cap = start' % cap) :
    window data cap start len = window data cap start' len := by
  apply List.map_congr_left
  intro k _
  rw [Nat.add_mod, h, ← Nat.add_mod]

theorem window_mod {m : ℕ} (h : cap ∣ m) :
    window data cap (start % m) len = window data cap start len :=
  window_congr (Nat.mod_mod_of_dvd start h)

theorem index_ne {j k : ℕ} (hjk : j < k) (hk : k < cap) :
    (start + j) % cap ≠ (start + k) % cap := by
  intro h
  have hmod : j ≡ k [MOD cap] := Nat.ModEq.add_left_cancel' start h
  exact absurd (hmod.eq_of_lt_of_lt (hjk.trans hk) hk) hjk.ne

theorem window_update {x : α} (h : len < cap) :
    window (Function.update data ((start + len) % cap) x) cap start len =
      window data cap start len := by
  apply List.map_congr_left
  intro k hk
  exact Function.update_of_ne (index_ne (List.mem_range.mp hk) h) _ _

theorem window_push {x : α} (h : len < cap) :
    window (Function.update data ((start + len) % cap) x) cap start (len + 1) =
      window data cap start len ++ [x] := by
  rw [window_succ_last, window_update h, Function.update_self]

end Ring
