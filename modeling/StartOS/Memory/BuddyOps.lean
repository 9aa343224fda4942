import Mathlib.Data.Finset.Card
import Mathlib.Data.Finset.Range
import StartOS.Memory.BuddyInvariant

/-! # Allocation and release keep the tiling

`alloc` and `free` are followed through their loops: the search, the split of
the block found, the scan of a free list and the merges. Each turn of a loop
keeps the invariant with one block in hand.
-/

namespace StartOS.BuddyAllocator

open Linked DyadicBlocks

variable {s s' : BuddyAllocator} {fl : ℕ → List ℕ} {O : Set Block} {b : Block} {i x p : ℕ}

theorem region_cons (p : ℕ) (P : List ℕ) :
    region (p :: P) = (⟨p, maxLevel⟩ : Block).span ∪ region P := by
  ext x
  simp [region, pgSize, maxLevel]

theorem disjoint_region {P : List ℕ} (hp : p ∉ P) (ha : p % pgSize = 0)
    (hP : ∀ q ∈ P, q % pgSize = 0) : Disjoint (⟨p, maxLevel⟩ : Block).span (region P) := by
  rw [Set.disjoint_left]
  rintro x ⟨h₁, h₂⟩ ⟨q, hq, h₃, h₄⟩
  have hq' := hP q hq
  have hne : p ≠ q := fun h => hp (h ▸ hq)
  simp only [pgSize, maxLevel] at *
  omega

theorem region_perm {P Q : List ℕ} (h : P.Perm Q) : region P = region Q := by
  ext x
  simp [region, h.mem_iff]

theorem region_erase {P : List ℕ} (hp : p ∈ P) (hn : P.Nodup) (hP : ∀ q ∈ P, q % pgSize = 0) :
    region (P.erase p) = region P \ (⟨p, maxLevel⟩ : Block).span := by
  have hperm := List.perm_cons_erase hp
  have hd : Disjoint (⟨p, maxLevel⟩ : Block).span (region (P.erase p)) :=
    disjoint_region (hn.not_mem_erase) (hP p hp) fun q hq => hP q (List.mem_of_mem_erase hq)
  rw [region_perm hperm, region_cons, Set.union_sdiff_left, sdiff_eq_left.mpr hd.symm]

namespace Core

theorem fill_page_eq (h : Core s fl O) (hp : p ∉ held s.calls) (ha : p % pgSize = 0)
    (hb : b ∈ freeBlocks fl ∪ O) (hx : x ∈ b.span) (v : UInt8) :
    s.pages.mem.fill p pgSize v x = s.pages.mem x := by
  refine ByteMem.fill_of_not_mem ?_
  by_contra hn
  have hr := h.tiles.span_subset hb hx
  refine Set.disjoint_left.mp (disjoint_region hp ha fun q hq => (h.held_page q hq).aligned) ?_ hr
  simp only [Block.mem_span, maxLevel, pgSize] at hn ⊢
  omega

/-- A page taken from the page allocator is a block in use of the top level. -/
theorem newPage (h : Core s fl O) {l : List ℕ} (hl : s.pages.freeList = p :: l) :
    ∃ s', s.newPage = .ok (p, s') ∧ Core s' fl (insert ⟨p, maxLevel⟩ O) ∧
      (⟨p, maxLevel⟩ : Block) ∉ O ∧ Keeps s s' O := by
  have hpl : p ∈ s.pages.freeList := by simp [hl]
  have hpg := h.wf.isPage p hpl
  have hp0 : p ≠ 0 := by have := hpg.kend_le; have := h.wf.kend_pos; omega
  have hph : p ∉ held s.calls := fun hm => h.held_taken p hm hpl
  have hnd := h.wf.nodup
  rw [hl, List.nodup_cons] at hnd
  obtain ⟨q, rfl⟩ : ∃ q, p = q + 1 := ⟨p - 1, by omega⟩
  have hd := disjoint_region hph hpg.aligned fun q hq => (h.held_page q hq).aligned
  have ht := h.tiles.insert (b := ⟨q + 1, maxLevel⟩) (by
    have := hpg.aligned
    simp only [pgSize] at this
    exact Nat.dvd_of_mod_eq_zero this) hd
  have hpO : (⟨q + 1, maxLevel⟩ : Block) ∉ freeBlocks fl ∪ O := fun hm =>
    Set.disjoint_left.mp hd (Block.addr_mem_span _)
      (h.tiles.span_subset hm (Block.addr_mem_span _))
  have hm := h.setMem (m := s.pages.mem.fill (q + 1) pgSize 5) fun b hb x hx =>
    h.fill_page_eq hph hpg.aligned (Or.inl hb) hx 5
  have heq : s.newPage = .ok (q + 1,
      { s with pages := s.pages.alloc.2, calls := .take (q + 1) :: s.calls }) := by
    simp only [BuddyAllocator.newPage, MemAllocator.alloc, hl]
  simp only [MemAllocator.alloc, hl] at heq
  refine ⟨_, heq, ?_,
    fun hm => hpO (Or.inr hm), fun b hb x hx => h.fill_page_eq hph hpg.aligned (Or.inr hb) hx 5⟩
  refine ⟨⟨h.wf.kend_pos, hnd.2, fun r hr => ?_⟩, ?_, ?_, ?_, hm.chain, h.free_level, ?_, ?_, ?_,
    h.no_buddies⟩
  · have := h.wf.isPage r (by simp [hl, hr])
    exact ⟨this.aligned, this.kend_le, this.lt_top⟩
  · exact h.history.take hph
  · intro r hr
    have : s.pages.IsPage r := by
      rcases List.mem_cons.mp hr with rfl | hr
      · exact hpg
      · exact h.held_page r hr
    exact ⟨this.aligned, this.kend_le, this.lt_top⟩
  · intro r hr hr'
    rcases List.mem_cons.mp hr with rfl | hr
    · exact hnd.1 hr'
    · exact h.held_taken r hr (by rw [hl]; exact List.mem_cons_of_mem _ hr')
  · rintro b (rfl | hb)
    · exact ⟨by norm_num [minLevel, maxLevel], le_rfl⟩
    · exact h.used_level b hb
  · simp only [held]
    rw [Set.union_insert, region_cons]
    exact ht
  · rw [Set.disjoint_insert_right]
    exact ⟨fun hm => hpO (Or.inl hm), h.separate⟩

theorem mem_held (h : Core s fl O) (hb : (⟨p, maxLevel⟩ : Block) ∈ freeBlocks fl ∪ O) :
    p ∈ held s.calls := by
  obtain ⟨q, hq, h₁, h₂⟩ := h.tiles.span_subset hb (Block.addr_mem_span _)
  have ha := h.tiles.aligned _ hb
  have hqa := (h.held_page q hq).aligned
  simp only [Block.Aligned, maxLevel] at ha
  simp only [pgSize] at *
  obtain rfl : p = q := by omega
  exact hq

theorem givePage (h : Core s fl (insert ⟨p, maxLevel⟩ O)) (hp : (⟨p, maxLevel⟩ : Block) ∉ O) :
    ∃ pages, s.pages.free p = .ok pages ∧
      Core { s with pages := pages, calls := .give p :: s.calls } fl O ∧
      Keeps s { s with pages := pages, calls := .give p :: s.calls } O := by
  have hpt : (⟨p, maxLevel⟩ : Block) ∈ freeBlocks fl ∪ insert ⟨p, maxLevel⟩ O := Or.inr (Or.inl rfl)
  have hph := h.mem_held hpt
  have hpg := h.held_page p hph
  have hpf : (⟨p, maxLevel⟩ : Block) ∉ freeBlocks fl := fun hf =>
    Set.disjoint_left.mp h.separate hf (Or.inl rfl)
  have hother : ∀ b ∈ freeBlocks fl ∪ O, ∀ x ∈ b.span,
      s.pages.mem.fill p pgSize 5 x = s.pages.mem x := by
    intro b hb x hx
    refine ByteMem.fill_of_not_mem ?_
    by_contra hn
    have hxp : x ∈ (⟨p, maxLevel⟩ : Block).span := by
      simp only [Block.mem_span, maxLevel, pgSize] at hn ⊢
      omega
    have hb' : b ∈ freeBlocks fl ∪ insert ⟨p, maxLevel⟩ O := by
      rcases hb with hb | hb
      · exact Or.inl hb
      · exact Or.inr (Or.inr hb)
    have := h.tiles.eq_of_mem hb' hpt hx hxp
    subst this
    rcases hb with hb | hb
    · exact hpf hb
    · exact hp hb
  have hm := h.setMem (m := s.pages.mem.fill p pgSize 5) fun b hb => hother b (Or.inl hb)
  have hsub : ∀ q ∈ (held s.calls).erase p, q ∈ held s.calls := fun q hq => List.mem_of_mem_erase hq
  refine ⟨_, hpg.free_eq, ⟨⟨h.wf.kend_pos, ?_, ?_⟩, ?_, ?_, ?_, hm.chain, h.free_level, ?_, ?_,
    ?_, h.no_buddies⟩, fun b hb => hother b (Or.inr hb)⟩
  · exact List.nodup_cons.mpr ⟨h.held_taken p hph, h.wf.nodup⟩
  · intro q hq
    have : s.pages.IsPage q := by
      rcases List.mem_cons.mp hq with rfl | hq
      · exact hpg
      · exact h.wf.isPage q hq
    exact ⟨this.aligned, this.kend_le, this.lt_top⟩
  · exact h.history.give hph
  · intro q hq
    have := h.held_page q (hsub q hq)
    exact ⟨this.aligned, this.kend_le, this.lt_top⟩
  · intro q hq hq'
    rcases List.mem_cons.mp hq' with rfl | hq'
    · exact h.history.held_nodup.not_mem_erase hq
    · exact h.held_taken q (hsub q hq) hq'
  · exact fun b hb => h.used_level b (Or.inr hb)
  · have ht := h.tiles
    rw [Set.union_insert] at ht
    have := ht.remove fun hm => hm.elim hpf hp
    rw [← region_erase hph h.history.held_nodup fun q hq => (h.held_page q hq).aligned] at this
    exact this
  · exact h.separate.mono_right (Set.subset_insert _ _)

/-- Trade a block in hand for its lower half, with the upper half free. -/
theorem splitOnce {a k : ℕ} (h : Core s fl (insert ⟨a, k + 1⟩ O)) (hb : (⟨a, k + 1⟩ : Block) ∉ O)
    (hk : minLevel ≤ k) :
    ∃ fl', Core (s.push k (getBuddy a k)) fl' (insert ⟨a, k⟩ O) ∧ (⟨a, k⟩ : Block) ∉ O ∧
      Keeps s (s.push k (getBuddy a k)) O := by
  have ht : (⟨a, k + 1⟩ : Block) ∈ freeBlocks fl ∪ insert ⟨a, k + 1⟩ O := Or.inr (Or.inl rfl)
  have hal : 2 ^ (k + 1) ∣ a := h.tiles.aligned _ ht
  have hca : (⟨a, k⟩ : Block).Aligned := Block.dvd_of_dvd_succ hal
  have hbud : getBuddy a k = a + 2 ^ k := by
    rcases hca.cases with ⟨-, he⟩ | ⟨hd, he⟩
    · exact he
    · exfalso
      change 2 ^ (k + 1) ∣ _ at hd
      simp only at he
      have h' : 2 ^ (k + 1) ∣ 2 ^ k := by
        rw [he] at hal
        exact (Nat.dvd_add_right hd).mp hal
      have := Nat.le_of_dvd (Nat.two_pow_pos k) h'
      rw [pow_succ] at this
      have := Nat.two_pow_pos k
      omega
  have hmerge : (⟨a, k⟩ : Block).merge = ⟨a, k + 1⟩ := by
    simp only [Block.merge, Block.buddy]
    rw [show a ^^^ 2 ^ k = a + 2 ^ k from hbud, min_eq_left (Nat.le_add_right _ _)]
  have hnf : (⟨a, k + 1⟩ : Block) ∉ freeBlocks fl := fun hf =>
    Set.disjoint_left.mp h.separate hf (Or.inl rfl)
  have hsub := Block.Aligned.span_merge hca
  rw [hmerge] at hsub
  have hfresh : ∀ c : Block, c.span ⊆ (⟨a, k + 1⟩ : Block).span → c.level = k →
      c ∉ freeBlocks fl ∪ O := by
    intro c hc hck hm
    have hm' : c ∈ freeBlocks fl ∪ insert ⟨a, k + 1⟩ O := by
      rcases hm with hm | hm
      · exact Or.inl hm
      · exact Or.inr (Or.inr hm)
    have := h.tiles.eq_of_mem hm' ht c.addr_mem_span (hc c.addr_mem_span)
    rw [this] at hck
    simp at hck
  have hlo := hfresh ⟨a, k⟩ (by rw [hsub]; exact Set.subset_union_left) rfl
  have hhi := hfresh (⟨a, k⟩ : Block).buddy (by rw [hsub]; exact Set.subset_union_right) rfl
  have htiles := h.tiles
  rw [Set.union_insert, ← hmerge] at htiles
  have hsplit := htiles.split (by rw [hmerge]; exact fun hm => hm.elim hnf hb) hca
  have hlv := h.used_level _ (Or.inl rfl)
  have hcore : Core s fl (insert (⟨a, k⟩ : Block).buddy (insert ⟨a, k⟩ O)) := by
    refine ⟨h.wf, h.history, h.held_page, h.held_taken, h.chain, h.free_level, ?_, ?_, ?_,
      h.no_buddies⟩
    · rintro c (rfl | rfl | hc)
      · exact ⟨hk, by simp only [Block.buddy_level]; simp only at hlv; omega⟩
      · exact ⟨hk, by simp only at hlv ⊢; omega⟩
      · exact h.used_level c (Or.inr hc)
    · rw [Set.union_insert, Set.union_insert, Set.insert_comm]
      exact hsplit
    · rw [Set.disjoint_insert_right, Set.disjoint_insert_right]
      exact ⟨fun hm => hhi (Or.inl hm), fun hm => hlo (Or.inl hm),
        h.separate.mono_right (Set.subset_insert _ _)⟩
  have hnb : (⟨a, k⟩ : Block).buddy ∉ insert ⟨a, k⟩ O := by
    rintro (he | hm)
    · exact hca.ne_buddy he.symm
    · exact hhi (Or.inr hm)
  obtain ⟨h₁, h₂⟩ := hcore.push hnb (by simp only [Block.buddy_level]; simp only at hlv; omega)
    (by rw [Block.buddy_buddy]; exact fun hm => hlo (Or.inl hm))
  exact ⟨_, h₁, fun hm => hlo (Or.inr hm), h₂.mono (Set.subset_insert _ _)⟩

theorem split {a lv n : ℕ} (h : Core s fl (insert ⟨a, lv + n⟩ O)) (hb : (⟨a, lv + n⟩ : Block) ∉ O)
    (hlv : minLevel ≤ lv) :
    ∃ fl', Core (s.split a lv n) fl' (insert ⟨a, lv⟩ O) ∧ (⟨a, lv⟩ : Block) ∉ O ∧
      Keeps s (s.split a lv n) O := by
  induction n generalizing s fl with
  | zero => exact ⟨fl, h, hb, Keeps.refl s O⟩
  | succ n ih =>
    obtain ⟨fl₁, h₁, hb₁, hk₁⟩ := h.splitOnce hb (Nat.le_add_right_of_le hlv)
    obtain ⟨fl₂, h₂, hb₂, hk₂⟩ := ih h₁ hb₁
    exact ⟨fl₂, h₂, hb₂, hk₁.trans hk₂⟩

/-- The search ends at a free block of some level or at the top without one. -/
theorem takeBlock_spec (h : Core s fl O) {n : ℕ} (hi : i ≤ maxLevel) (hn : maxLevel < n + i) :
    (∃ j x rest, i ≤ j ∧ x ≠ 0 ∧ PointsAt (fl j) none x rest ∧
      s.takeBlock n i = .ok (j, x, s.assign j none (s.next x))) ∨
      s.takeBlock n i = .ok (maxLevel, 0, s) := by
  induction n generalizing i with
  | zero => omega
  | succ n ih =>
    rw [BuddyAllocator.takeBlock, if_neg (by omega)]
    by_cases hf : s.freelist i = 0
    · rw [if_neg (by simpa using hf)]
      by_cases htop : i = maxLevel
      · subst htop
        exact Or.inr (if_pos le_rfl)
      · rw [if_neg (by omega)]
        rcases ih (i := i + 1) (by omega) (by omega) with ⟨j, x, rest, hj, h₁⟩ | h₁
        · exact Or.inl ⟨j, x, rest, by omega, h₁⟩
        · exact Or.inr h₁
    · left
      have hc := h.chain i
      rcases hl : fl i with _ | ⟨x, rest⟩ <;> rw [hl] at hc
      · exact absurd hc hf
      · obtain ⟨hx, h0, -⟩ := hc
        refine ⟨i, x, rest, le_rfl, h0, by rw [hl]; exact .head x rest, ?_⟩
        rw [if_pos hf, hx]
        rfl

/-- `alloc` returns a block in use of its own, large enough for the header and the request,
unless a page is needed and none is left. -/
theorem alloc_spec (h : Core s fl O) {sz : ℕ} (hsz : sz ≤ 4088) :
    (s.alloc sz = .error (.panic "buddy alloc") ∧ s.pages.freeList = []) ∨
      ∃ a k s' fl', s.alloc sz = .ok (a + 8, s') ∧ Core s' fl' (insert ⟨a, k⟩ O) ∧
        (⟨a, k⟩ : Block) ∉ O ∧ sz + 8 ≤ 2 ^ k ∧ (s'.pages.mem a).toNat = k ∧ Keeps s s' O := by
  obtain ⟨lv, hlv, hmin, hmax, hfit⟩ := calcLevel_spec hsz
  have finish : ∀ {s₁ : BuddyAllocator} {fl₁ : ℕ → List ℕ} {a j : ℕ}, lv ≤ j →
      Core s₁ fl₁ (insert ⟨a, j⟩ O) → (⟨a, j⟩ : Block) ∉ O → Keeps s s₁ O →
      ∃ fl', Core ((s₁.split a lv (j - lv)).setLevel a lv) fl' (insert ⟨a, lv⟩ O) ∧
        (⟨a, lv⟩ : Block) ∉ O ∧
        (((s₁.split a lv (j - lv)).setLevel a lv).pages.mem a).toNat = lv ∧
        Keeps s ((s₁.split a lv (j - lv)).setLevel a lv) O := by
    intro s₁ fl₁ a j hj h₁ hb hk
    obtain ⟨d, rfl⟩ : ∃ d, j = lv + d := ⟨j - lv, by omega⟩
    rw [Nat.add_sub_cancel_left]
    obtain ⟨fl₂, h₂, hb₂, hk₂⟩ := h₁.split hb hmin
    have hat : (⟨a, lv⟩ : Block) ∈ freeBlocks fl₂ ∪ insert ⟨a, lv⟩ O := Or.inr (Or.inl rfl)
    have hout : ∀ x, x ∉ (⟨a, lv⟩ : Block).span →
        ((s₁.split a lv d).setLevel a lv).pages.mem x = (s₁.split a lv d).pages.mem x := by
      intro x hx
      rw [setLevel, setMem_mem]
      refine ByteMem.blit_of_not_mem ?_
      by_contra hn
      exact hx ⟨by simp only; omega, by have := Nat.two_pow_pos lv; simp only; omega⟩
    refine ⟨fl₂, h₂.setMem fun b hb x hx => hout x fun hx' => ?_, hb₂, ?_,
      (hk.trans hk₂).trans (h₂.keeps_of_agree hb₂ hout)⟩
    · have := h₂.tiles.eq_of_mem (Or.inl hb) hat hx hx'
      subst this
      exact Set.disjoint_left.mp h₂.separate hb (Or.inl rfl)
    · have : lv < 256 := by simp only [maxLevel] at hmax; omega
      simp [setLevel, ByteMem.blit, Nat.mod_eq_of_lt this]
  unfold BuddyAllocator.alloc
  rw [hlv]
  rcases h.takeBlock_spec (n := maxLevel + 1) hmax (by omega) with
    ⟨j, x, rest, hj, hx0, hp, ht⟩ | ht
  · right
    obtain ⟨h₁, hb, hk⟩ := h.take hp
    obtain ⟨fl', h₂, hb₂, hm, hk₂⟩ := finish hj h₁ hb hk
    exact ⟨x, lv, _, fl', by simp [ht, hx0], h₂, hb₂, hfit, hm, hk₂⟩
  · rcases hl : s.pages.freeList with _ | ⟨p, l⟩
    · left
      exact ⟨by simp [ht, BuddyAllocator.newPage, MemAllocator.alloc, hl], rfl⟩
    · right
      obtain ⟨s₁, hn, h₁, hb, hk⟩ := h.newPage hl
      obtain ⟨fl', h₂, hb₂, hm, hk₂⟩ := finish hmax h₁ hb hk
      exact ⟨p, lv, _, fl', by simp [ht, hn], h₂, hb₂, hfit, hm, hk₂⟩

/-- Scanning a free list ends at the cell that points at the block sought, or at the end. -/
theorem seek_aux {y n : ℕ} {pre r : List ℕ} {cell : Option ℕ} (hl : fl i = pre ++ r)
    (hcell : (cell = none ∧ pre = []) ∨ ∃ l₁ p, cell = some p ∧ pre = l₁ ++ [p])
    (hr : Chain s.next 0 (s.deref i cell) r) (hn : r.length < n) :
    ∃ cell', s.seek i y n cell = .ok cell' ∧
      ((∃ rest, PointsAt (fl i) cell' y rest) ∨ (y ∉ r ∧ s.deref i cell' = 0)) := by
  induction r generalizing n pre cell with
  | nil =>
    obtain ⟨n, rfl⟩ : ∃ m, n = m + 1 := ⟨n - 1, by simp at hn; omega⟩
    have h0 : s.deref i cell = 0 := hr
    exact ⟨cell, by rw [seek, if_neg (by simp [h0])], Or.inr ⟨by simp, h0⟩⟩
  | cons z r ih =>
    obtain ⟨n, rfl⟩ : ∃ m, n = m + 1 := ⟨n - 1, by simp at hn; omega⟩
    obtain ⟨hz, hz0, hr⟩ := hr
    rw [seek, hz]
    by_cases hzy : z = y
    · subst hzy
      refine ⟨cell, by rw [if_neg (by simp)], Or.inl ?_⟩
      rcases hcell with ⟨rfl, rfl⟩ | ⟨l₁, p, rfl, rfl⟩
      · exact ⟨r, by rw [hl]; exact .head z r⟩
      · refine ⟨l₁ ++ p :: r, ?_⟩
        rw [hl, List.append_assoc]
        exact .after l₁ p z r
    · rw [if_pos ⟨hz0, hzy⟩]
      obtain ⟨cell', h₁, h₂⟩ := @ih _ (pre ++ [z]) (some z) (by rw [hl]; simp)
        (Or.inr ⟨pre, z, rfl, rfl⟩) hr (by simpa using hn)
      refine ⟨cell', h₁, h₂.imp id fun ⟨hm, h0⟩ => ⟨?_, h0⟩⟩
      simp only [List.mem_cons, not_or]
      exact ⟨fun he => hzy he.symm, hm⟩

theorem seek_spec (h : Core s fl O) (i y : ℕ) :
    ∃ cell, s.seek i y physTop none = .ok cell ∧
      ((∃ rest, PointsAt (fl i) cell y rest) ∨ (y ∉ fl i ∧ s.deref i cell = 0)) := by
  refine seek_aux (List.nil_append _).symm (Or.inl ⟨rfl, rfl⟩) (h.chain i) ?_
  have hsub : (0 :: fl i).toFinset ⊆ Finset.range physTop := by
    intro a ha
    rw [List.mem_toFinset, List.mem_cons] at ha
    rw [Finset.mem_range]
    rcases ha with rfl | ha
    · norm_num [physTop]
    · exact (h.addr_bounds (b := ⟨a, i⟩) (Or.inl ha)).2
  have hnd : (0 :: fl i).Nodup :=
    List.nodup_cons.mpr ⟨fun h0 => (h.chain i).ne_of_mem h0 rfl, (h.chain i).nodup⟩
  have := Finset.card_le_card hsub
  rw [List.toFinset_card_of_nodup hnd, Finset.card_range, List.length_cons] at this
  exact this

theorem buddy_ne_zero (h : Core s fl O) (hb : b ∈ freeBlocks fl ∪ O) (hl : b.level < maxLevel) :
    getBuddy b.addr b.level ≠ 0 := by
  obtain ⟨p, hp, h₁, h₂⟩ := h.tiles.span_subset hb b.addr_mem_span
  have hpg := h.held_page p hp
  have hba := h.tiles.aligned b hb
  have hpa : (⟨p, maxLevel⟩ : Block).Aligned := Nat.dvd_of_mod_eq_zero hpg.aligned
  have hsub := hba.merge.span_subset hpa hl (x := b.addr)
    (by rw [hba.span_merge]; exact Or.inl b.addr_mem_span) ⟨h₁, h₂⟩
  have hm : b.buddy.addr ∈ b.merge.span := by
    rw [hba.span_merge]; exact Or.inr b.buddy.addr_mem_span
  have hle : p ≤ getBuddy b.addr b.level := (hsub hm).1
  have := hpg.kend_le
  have := h.wf.kend_pos
  omega

/-- The merge loop ends with the block back on a free list or its page given back. -/
theorem mergeUp_spec (h : Core s fl (insert b O)) (hb : b ∉ O) {n : ℕ}
    (hn : maxLevel < n + b.level) :
    ∃ s' fl', s.mergeUp n b.addr b.level = .ok s' ∧ Core s' fl' O ∧ Keeps s s' O := by
  induction n generalizing s fl b with
  | zero => have := (h.used_level b (Or.inl rfl)).2; omega
  | succ n ih =>
    have hlv := h.used_level b (Or.inl rfl)
    have hbt : b ∈ freeBlocks fl ∪ insert b O := Or.inr (Or.inl rfl)
    rw [BuddyAllocator.mergeUp]
    by_cases htop : b.level = maxLevel
    · obtain ⟨a, k⟩ := b
      obtain rfl : k = maxLevel := htop
      obtain ⟨pages, hf, h₁, hk⟩ := h.givePage hb
      exact ⟨_, fl, by simp [hf], h₁, hk⟩
    · rw [if_neg htop, if_neg (by omega)]
      have hba := h.tiles.aligned b hbt
      obtain ⟨cell, hs, hcase⟩ := h.seek_spec b.level (getBuddy b.addr b.level)
      rcases hcase with ⟨rest, hp⟩ | ⟨hm, h0⟩
      · -- the buddy is free: both become one block of the next level
        obtain ⟨h₁, hb₁, hk₁⟩ := h.take hp
        change Core _ _ (insert b.buddy (insert b O)) at h₁
        have hbb : b.buddy ∉ insert b O := hb₁
        have hm : Core (s.assign b.level cell (s.next (getBuddy b.addr b.level)))
            (Function.update fl b.level rest) (insert b.merge O) := by
          have hnf := h.not_mem_rest hp
          have hbf : b ∉ freeBlocks (Function.update fl b.level rest) := fun hf =>
            Set.disjoint_left.mp h₁.separate hf (Or.inr (Or.inl rfl))
          have ht := h₁.tiles
          rw [Set.union_insert, Set.union_insert, Set.insert_comm] at ht
          have hmt := ht.merge (fun hm => hm.elim hbf hb)
            (fun hm => hm.elim hnf fun hO => hbb (Or.inr hO))
          refine ⟨h₁.wf, h₁.history, h₁.held_page, h₁.held_taken, h₁.chain, h₁.free_level,
            ?_, ?_, ?_, h₁.no_buddies⟩
          · rintro c (rfl | hc)
            · exact ⟨by simp only [Block.merge_level]; omega, by
                simp only [Block.merge_level]; omega⟩
            · exact h.used_level c (Or.inr hc)
          · rw [Set.union_insert]
            exact hmt
          · rw [Set.disjoint_insert_right]
            refine ⟨fun hf => ?_, h₁.separate.mono_right
              ((Set.subset_insert _ _).trans (Set.subset_insert _ _))⟩
            have he := h₁.tiles.eq_of_mem (Or.inl hf) (Or.inr (Or.inr (Or.inl rfl)))
              (x := b.addr) (by rw [hba.span_merge]; exact Or.inl b.addr_mem_span)
              b.addr_mem_span
            have := congrArg Block.level he
            simp at this
        have hmO : b.merge ∉ O := by
          intro hO
          have he := h.tiles.eq_of_mem (Or.inr (Or.inr hO)) hbt (x := b.addr)
            (by rw [hba.span_merge]; exact Or.inl b.addr_mem_span) b.addr_mem_span
          have := congrArg Block.level he
          simp at this
        obtain ⟨s', fl', h₂, h₃, hk₃⟩ := ih hm hmO (by rw [Block.merge_level]; omega)
        refine ⟨s', fl', ?_, h₃, (hk₁.mono (Set.subset_insert _ _)).trans hk₃⟩
        rw [hs]
        simp only [Kernel.ok_bind, h.deref_eq hp, ne_eq, not_true_eq_false, if_false]
        exact h₂
      · have hne := h.buddy_ne_zero hbt (by omega)
        have hbud : b.buddy ∉ freeBlocks fl := hm
        obtain ⟨h₁, hk⟩ := h.push hb (by omega) hbud
        refine ⟨_, _, ?_, h₁, hk⟩
        rw [hs]
        simp [h0, hne.symm]

theorem free_spec (h : Core s fl (insert b O)) (hb : b ∉ O)
    (hm : (s.pages.mem b.addr).toNat = b.level) :
    ∃ s' fl', s.free (b.addr + 8) = .ok s' ∧ Core s' fl' O ∧ Keeps s s' O := by
  rw [BuddyAllocator.free, Nat.add_sub_cancel, hm]
  exact h.mergeUp_spec hb (by omega)

end Core

end StartOS.BuddyAllocator
