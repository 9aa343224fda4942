import Mathlib.Data.List.Forall2
import Mathlib.Data.List.Nodup
import Mathlib.Data.Set.Insert
import Mathlib.Tactic.Common

/-! # Names with cells of their own

A store keeps a list of names, each with the cells of its file, and the cells that are free. A new name
takes a free cell and a name that is removed gives its cells back, so no cell is lost and none is in two
files. A list of names stands for a list of files where the two agree place by place.
-/

namespace NameStore

section Lists

variable {α β : Type*} {R S : α → β → Prop} {l : List α} {l₁ l₂ : List β}

theorem exists_forall₂_append (h : List.Forall₂ R l (l₁ ++ l₂)) :
    ∃ a b, l = a ++ b ∧ List.Forall₂ R a l₁ ∧ List.Forall₂ R b l₂ :=
  ⟨_, _, (List.take_append_drop l₁.length l).symm, List.forall₂_take_append _ _ _ h,
    List.forall₂_drop_append _ _ _ h⟩

theorem forall₂_imp_of_mem (h : List.Forall₂ R l l₁) (hRS : ∀ a ∈ l, ∀ b, R a b → S a b) :
    List.Forall₂ S l l₁ := by
  induction h with
  | nil => exact List.Forall₂.nil
  | cons hab _ ih =>
    exact List.Forall₂.cons (hRS _ List.mem_cons_self _ hab)
      (ih fun a ha b => hRS a (List.mem_cons_of_mem _ ha) b)

theorem exists_left_of_forall₂ (h : List.Forall₂ R l l₁) {b : β} (hb : b ∈ l₁) : ∃ a ∈ l, R a b := by
  induction h with
  | nil => exact absurd hb List.not_mem_nil
  | cons hab _ ih =>
    rcases List.mem_cons.mp hb with rfl | hb
    · exact ⟨_, List.mem_cons_self, hab⟩
    · obtain ⟨a, ha, hR⟩ := ih hb
      exact ⟨a, List.mem_cons_of_mem _ ha, hR⟩

theorem exists_right_of_forall₂ (h : List.Forall₂ R l l₁) {a : α} (ha : a ∈ l) : ∃ b ∈ l₁, R a b := by
  induction h with
  | nil => exact absurd ha List.not_mem_nil
  | cons hab _ ih =>
    rcases List.mem_cons.mp ha with rfl | ha
    · exact ⟨_, List.mem_cons_self, hab⟩
    · obtain ⟨b, hb, hR⟩ := ih ha
      exact ⟨b, List.mem_cons_of_mem _ hb, hR⟩

end Lists

end NameStore

/-- The names in order, each with the cells of its file, and the cells that are free. -/
structure NameStore (α γ : Type*) where
  files : List (List α × List γ)
  free : Set γ

namespace NameStore

variable {α γ : Type*} {σ σ' : NameStore α γ} {w : List α} {z : ℤ} {busy : Prop} {c : γ}

def cells (σ : NameStore α γ) : List γ := σ.files.flatMap Prod.snd

def all (σ : NameStore α γ) : Set γ := {c | c ∈ σ.cells ∨ c ∈ σ.free}

structure Sound (σ : NameStore α γ) : Prop where
  nodup : σ.cells.Nodup
  not_free : ∀ c ∈ σ.cells, c ∉ σ.free

/-- A new name somewhere in the list, with a cell that was free. -/
inductive Creates (w : List α) : NameStore α γ → NameStore α γ → Prop
  | intro {pre post c free} (hc : c ∈ free) :
    Creates w ⟨pre ++ post, free⟩ ⟨pre ++ (w, [c]) :: post, free \ {c}⟩

/-- The first name that begins with `w` is removed and its cells are free, unless the file is in use. -/
inductive Unlinks (busy : Prop) (w : List α) : NameStore α γ → ℤ → NameStore α γ → Prop
  | removed {pre post w' lf free} (hw : w <+: w') (hpre : ∀ e ∈ pre, ¬w <+: e.1) :
    Unlinks busy w ⟨pre ++ (w', lf) :: post, free⟩ 0 ⟨pre ++ post, free ∪ {c | c ∈ lf}⟩
  | refused {τ : NameStore α γ} {e : List α × List γ} (hb : busy) (he : e ∈ τ.files)
    (hw : w <+: e.1) :
    Unlinks busy w τ (-1) τ
  | missing {τ : NameStore α γ} (h : ∀ e ∈ τ.files, ¬w <+: e.1) : Unlinks busy w τ 0 τ

theorem mem_cells_insert {pre post : List (List α × List γ)} {e : List α × List γ} {free : Set γ} :
    c ∈ cells ⟨pre ++ e :: post, free⟩ ↔ c ∈ e.2 ∨ c ∈ cells ⟨pre ++ post, free⟩ := by
  simp only [cells, List.flatMap_append, List.flatMap_cons, List.mem_append]
  exact or_left_comm

theorem nodup_cells_insert {pre post : List (List α × List γ)} {e : List α × List γ}
    {free free' : Set γ} :
    (cells ⟨pre ++ e :: post, free⟩).Nodup ↔
      e.2.Nodup ∧ (cells ⟨pre ++ post, free'⟩).Nodup ∧ ∀ c ∈ e.2, c ∉ cells ⟨pre ++ post, free'⟩ := by
  have hperm : List.Perm (cells ⟨pre ++ e :: post, free⟩) (e.2 ++ cells ⟨pre ++ post, free'⟩) := by
    simp only [cells, List.flatMap_append, List.flatMap_cons]
    rw [← List.append_assoc, ← List.append_assoc]
    exact (List.perm_append_comm).append_right _
  rw [hperm.nodup_iff, List.nodup_append']
  rfl

theorem Creates.spec (h : Creates w σ σ') (hs : σ.Sound) : σ'.Sound ∧ σ'.all = σ.all := by
  cases h with
  | @intro pre post c free hc =>
    have hout : c ∉ cells ⟨pre ++ post, free⟩ := fun hmem => hs.not_free c hmem hc
    refine ⟨⟨nodup_cells_insert.mpr ⟨List.nodup_singleton c, hs.nodup, ?_⟩, ?_⟩, ?_⟩
    · intro d hd
      rw [List.mem_singleton.mp hd]
      exact hout
    · intro d hd
      rcases mem_cells_insert.mp hd with hd | hd
      · exact fun hfree => hfree.2 (List.mem_singleton.mp hd)
      · exact fun hfree => hs.not_free d hd hfree.1
    · ext d
      simp only [all, Set.mem_ofPred_eq, mem_cells_insert, List.mem_singleton, Set.mem_sdiff,
        Set.mem_singleton_iff]
      by_cases hd : d = c
      · simp [hd, hc]
      · simp [hd, cells]

theorem Unlinks.spec (h : Unlinks busy w σ z σ') (hs : σ.Sound) : σ'.Sound ∧ σ'.all = σ.all := by
  cases h with
  | @removed pre post w' lf free hw hpre =>
    obtain ⟨-, hnodup, hapart⟩ := nodup_cells_insert.mp hs.nodup
    refine ⟨⟨hnodup, ?_⟩, ?_⟩
    · rintro d hd (hfree | hlf)
      · exact hs.not_free d (mem_cells_insert.mpr (.inr hd)) hfree
      · exact hapart d hlf hd
    · ext d
      simp only [all, Set.mem_ofPred_eq, mem_cells_insert, Set.mem_union]
      simp only [cells]
      tauto
  | refused => exact ⟨hs, rfl⟩
  | missing => exact ⟨hs, rfl⟩

end NameStore
