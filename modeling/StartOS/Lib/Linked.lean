import Mathlib.Data.List.Nodup
import Mathlib.Data.List.Range
import Mathlib.Data.List.Perm.Basic
import Mathlib.Logic.Function.Basic
import Mathlib.Tactic.Common

/-! # Lists threaded through a successor function

A store links its cells by a function `next` and ends a list by the value `t`.
`Path next t a l b` reads the cells `l` from `a` up to `b`; a list of the store
is a path to the terminator. A finite list never meets a cell twice.
-/

namespace Linked

variable {α : Type*} {next next' : α → α} {t a b c : α} {l l' l₁ l₂ : List α}

/-- Following `next` from `a` visits the cells `l`, none of them `t`, and arrives at `b`. -/
def Path (next : α → α) (t : α) : α → List α → α → Prop
  | a, [], b => a = b
  | a, c :: l, b => a = c ∧ c ≠ t ∧ Path next t (next c) l b

abbrev Chain (next : α → α) (t a : α) (l : List α) : Prop := Path next t a l t

@[simp] theorem path_nil : Path next t a [] b ↔ a = b := Iff.rfl

@[simp] theorem path_cons :
    Path next t a (c :: l) b ↔ a = c ∧ c ≠ t ∧ Path next t (next c) l b := Iff.rfl

theorem path_append :
    Path next t a (l₁ ++ l₂) c ↔ ∃ b, Path next t a l₁ b ∧ Path next t b l₂ c := by
  induction l₁ generalizing a with
  | nil => simp
  | cons d l₁ ih =>
    simp only [List.cons_append, path_cons, ih]
    constructor
    · rintro ⟨h, ht, b, hp, hq⟩; exact ⟨b, ⟨h, ht, hp⟩, hq⟩
    · rintro ⟨b, ⟨h, ht, hp⟩, hq⟩; exact ⟨h, ht, b, hp, hq⟩

theorem Path.congr (h : Path next t a l b) (he : ∀ c ∈ l, next' c = next c) :
    Path next' t a l b := by
  induction l generalizing a with
  | nil => exact h
  | cons c l ih =>
    obtain ⟨rfl, ht, hp⟩ := h
    refine ⟨rfl, ht, ?_⟩
    rw [he a (by simp)]
    exact ih hp fun d hd => he d (by simp [hd])

theorem Path.ne_of_mem (h : Path next t a l b) (hc : c ∈ l) : c ≠ t := by
  induction l generalizing a with
  | nil => simp at hc
  | cons d l ih =>
    obtain ⟨rfl, ht, hp⟩ := h
    rcases List.mem_cons.mp hc with rfl | hc
    · exact ht
    · exact ih hp hc

theorem chain_unique (h : Chain next t a l) (h' : Chain next t a l') : l = l' := by
  induction l generalizing a l' with
  | nil =>
    cases l' with
    | nil => rfl
    | cons c l' => exact absurd (h'.1.symm.trans h) h'.2.1
  | cons c l ih =>
    obtain ⟨rfl, ht, hp⟩ := h
    cases l' with
    | nil => exact absurd h' ht
    | cons d l' =>
      obtain ⟨rfl, -, hp'⟩ := h'
      rw [ih hp hp']

theorem Chain.nodup (h : Chain next t a l) : l.Nodup := by
  induction l generalizing a with
  | nil => exact List.nodup_nil
  | cons c l ih =>
    obtain ⟨rfl, ht, hp⟩ := h
    refine List.nodup_cons.mpr ⟨fun hm => ?_, ih hp⟩
    obtain ⟨l₁, l₂, rfl⟩ := List.append_of_mem hm
    obtain ⟨b, -, hb⟩ := path_append.mp hp
    obtain ⟨rfl, -, hb⟩ := hb
    have hlen := congrArg List.length (chain_unique hp hb)
    simp at hlen
    omega

theorem Chain.head_mem (h : Chain next t a l) (ha : a ≠ t) : a ∈ l := by
  cases l with
  | nil => exact absurd h ha
  | cons c l => exact h.1 ▸ List.mem_cons_self

theorem chain_nil_iff : Chain next t t l ↔ l = [] := by
  constructor
  · intro h
    cases l with
    | nil => rfl
    | cons c l => exact absurd h.1.symm h.2.1
  · rintro rfl; rfl

theorem Chain.of_append_cons (h : Chain next t a (l₁ ++ c :: l₂)) :
    Path next t a l₁ c ∧ Chain next t (next c) l₂ := by
  obtain ⟨b, hp, hb⟩ := path_append.mp h
  obtain ⟨rfl, -, hc⟩ := hb
  exact ⟨hp, hc⟩

theorem Chain.getElem_zero (h : Chain next t a l) (hl : 0 < l.length) : l[0] = a := by
  cases l with
  | nil => simp at hl
  | cons c l => exact h.1.symm

theorem Chain.next_getElem (h : Chain next t a l) {i : ℕ} (hi : i + 1 < l.length) :
    next l[i] = l[i + 1] := by
  induction l generalizing a i with
  | nil => simp at hi
  | cons c l ih =>
    obtain ⟨-, -, hp⟩ := h
    cases i with
    | zero =>
      have hl : 0 < l.length := by simpa using hi
      simpa using (Chain.getElem_zero hp hl).symm
    | succ i => simpa using ih hp (by simpa using hi)

theorem Chain.next_last (h : Chain next t a l) {i : ℕ} (hi : i + 1 = l.length) :
    next l[i] = t := by
  induction l generalizing a i with
  | nil => simp at hi
  | cons c l ih =>
    obtain ⟨-, -, hp⟩ := h
    cases i with
    | zero =>
      obtain rfl : l = [] := by simpa using hi.symm
      exact hp
    | succ i => simpa using ih hp (by simpa using hi)

theorem Chain.push (h : Chain next t a l) (hc : c ≠ t) (hn : next' c = a)
    (he : ∀ d ∈ l, next' d = next d) : Chain next' t c (c :: l) := by
  refine ⟨rfl, hc, ?_⟩
  rw [hn]
  exact h.congr he

theorem Chain.snoc (h : Chain next t a (l ++ [b])) (hc : c ≠ t) (hb : next' b = c)
    (hn : next' c = t) (he : ∀ d ∈ l, next' d = next d) : Chain next' t a (l ++ [b, c]) := by
  obtain ⟨hp, -⟩ := h.of_append_cons
  have hbt : b ≠ t := h.ne_of_mem (by simp)
  refine path_append.mpr ⟨b, hp.congr he, rfl, hbt, ?_⟩
  rw [hb]
  exact ⟨rfl, hc, hn⟩

theorem Chain.unlink (h : Chain next t a (l₁ ++ b :: c :: l₂)) (hb : next' b = next c)
    (he : ∀ d ∈ l₁ ++ l₂, next' d = next d) : Chain next' t a (l₁ ++ b :: l₂) := by
  have hbt : b ≠ t := h.ne_of_mem (by simp)
  obtain ⟨hp, -, -, hq⟩ := h.of_append_cons
  refine path_append.mpr ⟨b, hp.congr fun d hd => he d (by simp [hd]), rfl, hbt, ?_⟩
  rw [hb]
  exact hq.congr fun d hd => he d (by simp [hd])

theorem length_lt_of_nodup {l : List ℕ} {n : ℕ} (h : l.Nodup) (hn : 0 < n)
    (hl : ∀ c ∈ l, 0 < c ∧ c < n) : l.length < n := by
  have hsub : l ⊆ List.range' 1 (n - 1) := by
    intro c hc
    obtain ⟨h₁, h₂⟩ := hl c hc
    exact List.mem_range'_1.mpr ⟨h₁, by omega⟩
  have hle := (List.subperm_of_subset h hsub).length_le
  rw [List.length_range'] at hle
  omega

end Linked
