import Mathlib.Algebra.Ring.Nat
import Mathlib.Data.Nat.Bitwise
import Mathlib.Data.Set.Pairwise.Lattice
import Mathlib.Order.CompletePartialOrder
import Mathlib.Order.Interval.Set.Disjoint
import Mathlib.Tactic.Linarith
import Mathlib.Tactic.Ring

/-! # Dyadic blocks and tilings

A block of level `k` is an interval of `2 ^ k` cells that starts at a multiple
of its length. Its buddy is found by flipping bit `k` of the address; the two
together are one block of the next level. A set of blocks tiles a region when
its blocks are pairwise disjoint and cover exactly that region.
-/

namespace DyadicBlocks

/-- An interval of `2 ^ level` cells. -/
@[ext] structure Block where
  addr : ℕ
  level : ℕ
  deriving DecidableEq, Repr

namespace Block

variable {b c : Block} {x : ℕ}

def span (b : Block) : Set ℕ := Set.Ico b.addr (b.addr + 2 ^ b.level)

def Aligned (b : Block) : Prop := 2 ^ b.level ∣ b.addr

def buddy (b : Block) : Block := ⟨b.addr ^^^ 2 ^ b.level, b.level⟩

def merge (b : Block) : Block := ⟨min b.addr b.buddy.addr, b.level + 1⟩

@[simp] theorem mem_span : x ∈ b.span ↔ b.addr ≤ x ∧ x < b.addr + 2 ^ b.level := Iff.rfl

@[simp] theorem buddy_level (b : Block) : b.buddy.level = b.level := rfl

@[simp] theorem merge_level (b : Block) : b.merge.level = b.level + 1 := rfl

theorem addr_mem_span (b : Block) : b.addr ∈ b.span :=
  ⟨le_rfl, Nat.lt_add_of_pos_right (Nat.two_pow_pos _)⟩

@[simp] theorem buddy_buddy (b : Block) : b.buddy.buddy = b := by
  ext
  · simp [buddy]
  · rfl

/-- An aligned block is the lower or the upper half of an aligned block. -/
theorem Aligned.cases (h : b.Aligned) :
    (2 ^ (b.level + 1) ∣ b.addr ∧ b.buddy.addr = b.addr + 2 ^ b.level) ∨
      (2 ^ (b.level + 1) ∣ b.buddy.addr ∧ b.addr = b.buddy.addr + 2 ^ b.level) := by
  obtain ⟨q, hq⟩ := h
  have hx : b.buddy.addr = 2 ^ b.level * (q ^^^ 1) := by
    have h₁ : b.addr = q <<< b.level := by rw [hq, Nat.shiftLeft_eq, mul_comm]
    have h₂ : 2 ^ b.level = 1 <<< b.level := by rw [Nat.shiftLeft_eq, one_mul]
    change b.addr ^^^ 2 ^ b.level = _
    rw [h₁, h₂, ← Nat.shiftLeft_xor_distrib, Nat.shiftLeft_eq, ← h₂, mul_comm]
  rcases Nat.even_or_odd q with he | ho
  · left
    obtain ⟨r, hr⟩ := he
    refine ⟨⟨r, by rw [hq, hr, pow_succ]; ring⟩, ?_⟩
    rw [hx, Nat.xor_one_of_even ⟨r, hr⟩, hq]; ring
  · right
    obtain ⟨r, hr⟩ := ho
    rw [hx, Nat.xor_one_of_odd ⟨r, hr⟩, hq, hr, Nat.add_sub_cancel]
    exact ⟨⟨r, by rw [pow_succ]; ring⟩, by ring⟩

theorem dvd_of_dvd_succ {k a : ℕ} (h : 2 ^ (k + 1) ∣ a) : 2 ^ k ∣ a :=
  (pow_dvd_pow 2 (Nat.le_succ k)).trans h

theorem Aligned.buddy (h : b.Aligned) : b.buddy.Aligned := by
  rcases h.cases with ⟨hd, he⟩ | ⟨hd, -⟩
  · rw [Aligned, he]
    exact Nat.dvd_add (dvd_of_dvd_succ hd) dvd_rfl
  · exact dvd_of_dvd_succ hd

theorem Aligned.merge (h : b.Aligned) : b.merge.Aligned := by
  rcases h.cases with ⟨hd, he⟩ | ⟨hd, he⟩
  · rw [Aligned, Block.merge, he, min_eq_left (Nat.le_add_right _ _)]
    exact hd
  · have hm : min b.addr b.buddy.addr = b.buddy.addr := by omega
    rw [Aligned, Block.merge, hm]
    exact hd

theorem Aligned.ne_buddy (h : b.Aligned) : b ≠ b.buddy := by
  intro he
  have ha : b.addr = b.buddy.addr := congrArg Block.addr he
  have hp := Nat.two_pow_pos b.level
  rcases h.cases with ⟨-, h⟩ | ⟨-, h⟩ <;> omega

theorem Aligned.disjoint_buddy (h : b.Aligned) : Disjoint b.span b.buddy.span := by
  rw [Set.disjoint_left]
  intro x hx hx'
  rw [mem_span] at hx hx'
  rw [buddy_level] at hx'
  rcases h.cases with ⟨-, h⟩ | ⟨-, h⟩ <;> omega

theorem Aligned.span_merge (h : b.Aligned) : b.merge.span = b.span ∪ b.buddy.span := by
  ext x
  simp only [Set.mem_union, mem_span, Block.merge, buddy_level, pow_succ]
  rcases h.cases with ⟨-, h⟩ | ⟨-, h⟩ <;> omega

theorem Aligned.span_subset (hb : b.Aligned) (hc : c.Aligned) (hl : b.level ≤ c.level)
    (hx : x ∈ b.span) (hx' : x ∈ c.span) : b.span ⊆ c.span := by
  obtain ⟨d, hd⟩ : 2 ^ b.level ∣ 2 ^ c.level := pow_dvd_pow 2 hl
  obtain ⟨p, hp⟩ := hb
  obtain ⟨q, hq⟩ := hc
  rw [mem_span] at hx hx'
  have hpos := Nat.two_pow_pos b.level
  rw [hp] at hx
  rw [hq, hd] at hx'
  have h₁ : d * q ≤ p := by
    by_contra hlt
    have : 2 ^ b.level * (p + 1) ≤ 2 ^ b.level * (d * q) := Nat.mul_le_mul_left _ (by omega)
    have e : 2 ^ b.level * d * q = 2 ^ b.level * (d * q) := mul_assoc ..
    rw [mul_add] at this
    omega
  have h₂ : p + 1 ≤ d * q + d := by
    by_contra hlt
    have : 2 ^ b.level * (d * q + d) ≤ 2 ^ b.level * p := Nat.mul_le_mul_left _ (by omega)
    have e : 2 ^ b.level * d * q + 2 ^ b.level * d = 2 ^ b.level * (d * q + d) := by ring
    omega
  intro y hy
  rw [mem_span, hp] at hy
  rw [mem_span, hq, hd]
  have e₁ : 2 ^ b.level * (d * q) ≤ 2 ^ b.level * p := Nat.mul_le_mul_left _ h₁
  have e₂ : 2 ^ b.level * (p + 1) ≤ 2 ^ b.level * (d * q + d) := Nat.mul_le_mul_left _ h₂
  have e₃ : 2 ^ b.level * d * q = 2 ^ b.level * (d * q) := mul_assoc ..
  rw [mul_add] at e₂
  rw [mul_add] at e₂
  omega

theorem eq_of_span_subset (h : b.span ⊆ c.span) (hl : b.level = c.level) : b = c := by
  have h₁ := h b.addr_mem_span
  have hlast : b.addr + 2 ^ b.level - 1 ∈ b.span := by
    have := Nat.two_pow_pos b.level
    rw [mem_span]; omega
  have h₂ := h hlast
  rw [mem_span] at h₁ h₂
  have hp := Nat.two_pow_pos b.level
  rw [← hl] at h₁ h₂
  exact Block.ext (by omega) hl

end Block

/-- The blocks `B` are aligned, pairwise disjoint and cover exactly `U`. -/
structure Tiles (B : Set Block) (U : Set ℕ) : Prop where
  aligned : ∀ b ∈ B, b.Aligned
  disjoint : B.PairwiseDisjoint Block.span
  cover : ∀ x, x ∈ U ↔ ∃ b ∈ B, x ∈ b.span

namespace Tiles

variable {B : Set Block} {U : Set ℕ} {b : Block}

theorem empty : Tiles ∅ ∅ := ⟨by simp, by simp, by simp⟩

theorem span_subset (h : Tiles B U) (hb : b ∈ B) : b.span ⊆ U :=
  fun x hx => (h.cover x).mpr ⟨b, hb, hx⟩

theorem insert (h : Tiles B U) (ha : b.Aligned) (hd : Disjoint b.span U) :
    Tiles (insert b B) (b.span ∪ U) where
  aligned c hc := by
    rcases hc with rfl | hc
    · exact ha
    · exact h.aligned c hc
  disjoint := h.disjoint.insert fun c hc _ => hd.mono_right (h.span_subset hc)
  cover x := by
    simp only [Set.mem_union, Set.mem_insert_iff, h.cover x]
    constructor
    · rintro (hx | ⟨c, hc, hx⟩)
      · exact ⟨b, Or.inl rfl, hx⟩
      · exact ⟨c, Or.inr hc, hx⟩
    · rintro ⟨c, rfl | hc, hx⟩
      · exact Or.inl hx
      · exact Or.inr ⟨c, hc, hx⟩

theorem remove (h : Tiles (Insert.insert b B) U) (hb : b ∉ B) : Tiles B (U \ b.span) where
  aligned c hc := h.aligned c (Or.inr hc)
  disjoint := h.disjoint.subset (Set.subset_insert b B)
  cover x := by
    have hne : ∀ c ∈ B, Disjoint b.span c.span := fun c hc =>
      h.disjoint (Or.inl rfl) (Or.inr hc) (by rintro rfl; exact hb hc)
    rw [Set.mem_sdiff, h.cover x]
    constructor
    · rintro ⟨⟨c, rfl | hc, hx⟩, hn⟩
      · exact absurd hx hn
      · exact ⟨c, hc, hx⟩
    · rintro ⟨c, hc, hx⟩
      exact ⟨⟨c, Or.inr hc, hx⟩, fun hx' => Set.disjoint_left.mp (hne c hc) hx' hx⟩

theorem split {c : Block} (h : Tiles (Insert.insert c.merge B) U) (hb : c.merge ∉ B)
    (hc : c.Aligned) : Tiles (Insert.insert c (Insert.insert c.buddy B)) U := by
  have hr := h.remove hb
  have hs := hc.span_merge
  have hU : c.merge.span ⊆ U := h.span_subset (Or.inl rfl)
  have h₁ := hr.insert hc.buddy (by
    rw [hs]; exact Set.disjoint_left.mpr fun x hx hx' => hx'.2 (Or.inr hx))
  have h₂ := h₁.insert hc (by
    rw [hs, Set.disjoint_left]
    rintro x hx (hx' | hx')
    · exact Set.disjoint_left.mp hc.disjoint_buddy hx hx'
    · exact hx'.2 (Or.inl hx))
  have he : c.span ∪ (c.buddy.span ∪ U \ c.merge.span) = U := by
    rw [← Set.union_assoc, ← hs, Set.union_sdiff_self, Set.union_eq_right.mpr hU]
  rwa [he] at h₂

theorem merge {c : Block} (h : Tiles (Insert.insert c (Insert.insert c.buddy B)) U)
    (hc : c ∉ B) (hb : c.buddy ∉ B) : Tiles (Insert.insert c.merge B) U := by
  have ha : c.Aligned := h.aligned c (Or.inl rfl)
  have h₁ : c ∉ Insert.insert c.buddy B := by
    rintro (he | hm)
    · exact ha.ne_buddy he
    · exact hc hm
  have h₂ := (h.remove h₁).remove hb
  have hs := ha.span_merge
  have hU : c.merge.span ⊆ U := by
    rw [hs]
    exact Set.union_subset (h.span_subset (Or.inl rfl)) (h.span_subset (Or.inr (Or.inl rfl)))
  rw [Set.sdiff_sdiff, ← hs] at h₂
  have h₃ := h₂.insert ha.merge (Set.disjoint_sdiff_right)
  rwa [Set.union_sdiff_self, Set.union_eq_right.mpr hU] at h₃

theorem eq_of_mem {c : Block} {x : ℕ} (h : Tiles B U) (hb : b ∈ B) (hc : c ∈ B)
    (hx : x ∈ b.span) (hx' : x ∈ c.span) : b = c := by
  by_contra hne
  exact Set.disjoint_left.mp (h.disjoint hb hc hne) hx hx'

/-- An aligned block that lies in a tiled region is one of the tiles as soon as no tile
inside it has its buddy among the tiles. -/
theorem mem_of_no_buddies (h : Tiles B U) (hb : b.Aligned) (hU : b.span ⊆ U)
    (hl : ∀ c ∈ B, ∀ x ∈ c.span, x ∈ b.span → c.level ≤ b.level)
    (hn : ∀ c ∈ B, c.span ⊆ b.span → c.level < b.level → c.buddy ∉ B) : b ∈ B := by
  classical
  let P : ℕ → Prop := fun k => ∃ c ∈ B, c.level = k ∧ ∃ x ∈ c.span, x ∈ b.span
  have hex : ∃ k, P k := by
    obtain ⟨c, hc, hx⟩ := (h.cover b.addr).mp (hU b.addr_mem_span)
    exact ⟨c.level, c, hc, rfl, b.addr, hx, b.addr_mem_span⟩
  obtain ⟨c, hc, hk, x, hx, hxb⟩ := Nat.find_spec hex
  have hmin : ∀ d ∈ B, ∀ y ∈ d.span, y ∈ b.span → c.level ≤ d.level := fun d hd y hy hyb =>
    hk ▸ Nat.find_min' hex ⟨d, hd, rfl, y, hy, hyb⟩
  have hca := h.aligned c hc
  have hcb : c.span ⊆ b.span := hca.span_subset hb (hl c hc x hx hxb) hx hxb
  rcases (hl c hc x hx hxb).lt_or_eq with hlt | heq
  · exfalso
    have hm : c.merge.span ⊆ b.span := by
      refine hca.merge.span_subset hb hlt (x := x) ?_ hxb
      rw [hca.span_merge]; exact Or.inl hx
    have hsub : c.buddy.span ⊆ b.span := by
      rw [hca.span_merge] at hm
      exact Set.subset_union_right.trans hm
    have hy := c.buddy.addr_mem_span
    obtain ⟨d, hd, hyd⟩ := (h.cover _).mp (hU (hsub hy))
    have hda := h.aligned d hd
    have hdl := hmin d hd _ hyd (hsub hy)
    rcases hdl.lt_or_eq with hdl | hdl
    · -- a larger tile would also cover `c`
      have hmd : c.merge.span ⊆ d.span := by
        refine hca.merge.span_subset hda hdl (x := c.buddy.addr) ?_ hyd
        rw [hca.span_merge]; exact Or.inr hy
      have hxd : x ∈ d.span := hmd (by rw [hca.span_merge]; exact Or.inl hx)
      obtain rfl := h.eq_of_mem hc hd hx hxd
      exact lt_irrefl _ hdl
    · have hbd : c.buddy.span ⊆ d.span :=
        hca.buddy.span_subset hda hdl.le hy hyd
      exact hn c hc hcb hlt (Block.eq_of_span_subset hbd hdl ▸ hd)
  · exact Block.eq_of_span_subset hcb heq ▸ hc

end Tiles

end DyadicBlocks
