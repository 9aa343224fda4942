import Mathlib.Data.List.Induction
import Mathlib.Data.Option.Basic
import Mathlib.Tactic.Common

/-! # Trees of linked nodes

A store links nodes by a partial function `child`: a node and an index give the
node below. A path of indices from the root reaches at most one node; in a tree
different paths reach different nodes. Linking a fresh node without children
below an existing one adds exactly one path.
-/

namespace RadixTree

variable {α ι : Type*} {child child' : α → ι → Option α} {r n p : α} {i j : ι} {l l' : List ι}
  {d : ℕ}

def follow (child : α → ι → Option α) (r : α) : List ι → Option α
  | [] => some r
  | i :: l => (child r i).bind fun n => follow child n l

@[simp] theorem follow_nil : follow child r [] = some r := rfl

theorem follow_cons : follow child r (i :: l) = (child r i).bind fun n => follow child n l := rfl

theorem follow_append : follow child r (l ++ l') =
    (follow child r l).bind fun n => follow child n l' := by
  induction l generalizing r with
  | nil => rfl
  | cons i l ih =>
    rw [List.cons_append, follow_cons, follow_cons]
    cases child r i with
    | none => rfl
    | some m => exact ih

theorem follow_concat : follow child r (l ++ [i]) =
    (follow child r l).bind fun n => child n i := by
  rw [follow_append]
  refine congrArg _ (funext fun n => ?_)
  rw [follow_cons]
  cases child n i <;> rfl

def Unshared (child : α → ι → Option α) (r : α) (d : ℕ) : Prop :=
  ∀ l l' p, l.length ≤ d → l'.length ≤ d → follow child r l = some p →
    follow child r l' = some p → l = l'

theorem follow_congr (hd : l.length ≤ d)
    (h : ∀ k n i, k.length < d → follow child r k = some n → child' n i = child n i) :
    follow child' r l = follow child r l := by
  induction l using List.reverseRecOn with
  | nil => rfl
  | append_singleton l i ih =>
    have hl : l.length < d := by simp at hd; omega
    rw [follow_concat, follow_concat, ih (Nat.le_of_lt hl)]
    cases hf : follow child r l with
    | none => rfl
    | some n => exact h l n i hl hf

section Link

variable {k : List ι} (hU : Unshared child r d) (hkd : k.length < d)
  (hk : follow child r k = some n)
  (hn : child n i = none) (hp : ∀ l, l.length ≤ d → follow child r l ≠ some p)
  (hnew : child' n i = some p) (hleaf : ∀ j, child' p j = none)
  (hold : ∀ l m j, l.length ≤ d → follow child r l = some m → ¬ (m = n ∧ j = i) →
    child' m j = child m j)

include hU hkd hk hn hnew hleaf hold

/-- Linking the fresh node `p` below `n` adds the path to `n` followed by `i`. -/
theorem follow_link [DecidableEq ι] (hl : l.length ≤ d) :
    follow child' r l = if l = k ++ [i] then some p else follow child r l := by
  induction l using List.reverseRecOn with
  | nil => rw [if_neg (by simp)]; rfl
  | append_singleton l j ih =>
    have hl' : l.length ≤ d := by simp at hl; omega
    rw [follow_concat, follow_concat, ih hl']
    by_cases hlk : l = k ++ [i]
    · subst hlk
      have hne : k ++ [i] ++ [j] ≠ k ++ [i] := by simp
      rw [if_pos rfl, if_neg hne, follow_concat, hk]
      simp [hn, hleaf]
    · rw [if_neg hlk]
      cases hf : follow child r l with
      | none =>
        rw [if_neg]
        · rfl
        · intro he
          rw [(List.append_inj' he rfl).1, hk] at hf
          cases hf
      | some m =>
        by_cases hmn : m = n ∧ j = i
        · obtain ⟨rfl, rfl⟩ := hmn
          obtain rfl := hU l k m hl' (Nat.le_of_lt hkd) hf hk
          rw [if_pos rfl]
          exact hnew
        · rw [if_neg]
          · exact hold l m j hl' hf hmn
          · intro he
            obtain ⟨h₁, h₂⟩ := List.append_inj' he rfl
            rw [h₁, hk] at hf
            exact hmn ⟨(Option.some.inj hf).symm, List.singleton_inj.mp h₂⟩

include hp in
theorem unshared_link : Unshared child' r d := by
  classical
  intro l l' q hl hl' h h'
  rw [follow_link hU hkd hk hn hnew hleaf hold hl] at h
  rw [follow_link hU hkd hk hn hnew hleaf hold hl'] at h'
  split at h
  · split at h'
    · simp_all
    · rw [← h] at h'
      exact absurd h' (hp l' hl')
  · split at h'
    · rw [← h'] at h
      exact absurd h (hp l hl)
    · exact hU l l' q hl hl' h h'

end Link

end RadixTree
