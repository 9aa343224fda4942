import StartOS.Memory.BuddyRun

/-! # The kernel's `operator new`

`operator new` admits every size up to a page and hands it to the buddy
allocator, which adds its header first. The bytes nobody uses are those of the
free pages and of the free blocks; they are what a call takes from and what its
`operator delete` has to give back.
-/

namespace StartOS.BuddyAllocator

open Linked DyadicBlocks

/-- The body of the two forms of `operator new`, which name themselves in the panic. -/
def newChecked (who : String) (s : BuddyAllocator) (size : ℕ) : Kernel (ℕ × BuddyAllocator) :=
  if size > pgSize then .error (.panic who) else s.alloc size

def operatorNew : BuddyAllocator → ℕ → Kernel (ℕ × BuddyAllocator) := newChecked "operator new"

/-- `operator new[]`. -/
def operatorNewArray : BuddyAllocator → ℕ → Kernel (ℕ × BuddyAllocator) :=
  newChecked "operator new[]"

def operatorDelete (s : BuddyAllocator) (p : ℕ) : Kernel BuddyAllocator := s.free p

/-- `operator delete[]`. -/
def operatorDeleteArray (s : BuddyAllocator) (p : ℕ) : Kernel BuddyAllocator := s.free p

def freeSpace (s : BuddyAllocator) : Set ℕ :=
  region s.pages.freeList ∪
    {x | ∃ i l, Chain s.next 0 (s.freelist i) l ∧ ∃ a ∈ l, x ∈ (⟨a, i⟩ : Block).span}

/-- A request is served: the search starts at an index of `freelist`, the bytes after the
pointer were free and are so no longer, and deleting the pointer frees what was free. -/
def Served (new : BuddyAllocator → ℕ → Kernel (ℕ × BuddyAllocator))
    (delete : BuddyAllocator → ℕ → Kernel BuddyAllocator) (s : BuddyAllocator) (size : ℕ) : Prop :=
  (∃ lv, calcLevel ((size + 8) % 2 ^ 64) = .ok lv ∧ minLevel ≤ lv ∧ lv ≤ maxLevel) ∧
    ∃ p s', new s size = .ok (p, s') ∧
      Set.Ico p (p + size) ⊆ s.freeSpace \ s'.freeSpace ∧
      ∃ s'', delete s' p = .ok s'' ∧ s''.freeSpace = s.freeSpace

variable {s s' : BuddyAllocator} {fl : ℕ → List ℕ} {O : Set Block} {p sz : ℕ}

def allPages (s : BuddyAllocator) : List ℕ := s.pages.freeList ++ held s.calls

theorem allPages_congr (hf : s'.pages.freeList = s.pages.freeList) (hc : s'.calls = s.calls) :
    s'.allPages = s.allPages := by
  rw [allPages, allPages, hf, hc]

theorem region_append (P Q : List ℕ) : region (P ++ Q) = region P ∪ region Q := by
  ext x
  simp [region, or_and_right, exists_or]

namespace Core

theorem mem_freeLists (h : Core s fl O) {x : ℕ} :
    (∃ i l, Chain s.next 0 (s.freelist i) l ∧ ∃ a ∈ l, x ∈ (⟨a, i⟩ : Block).span) ↔
      ∃ b ∈ freeBlocks fl, x ∈ b.span := by
  constructor
  · rintro ⟨i, l, hl, a, ha, hx⟩
    rw [chain_unique hl (h.chain i)] at ha
    exact ⟨⟨a, i⟩, ha, hx⟩
  · rintro ⟨b, hb, hx⟩
    exact ⟨b.level, fl b.level, h.chain _, b.addr, hb, hx⟩

theorem region_free_disjoint (h : Core s fl O) :
    Disjoint (region s.pages.freeList) (region (held s.calls)) := by
  rw [Set.disjoint_left]
  rintro x ⟨p, hp, h₁, h₂⟩ hx
  have hph : p ∉ held s.calls := fun hm => h.held_taken p hm hp
  refine Set.disjoint_left.mp (disjoint_region hph (h.wf.isPage p hp).aligned
    fun q hq => (h.held_page q hq).aligned) ⟨h₁, ?_⟩ hx
  simpa [pgSize, maxLevel] using h₂

theorem freeSpace_eq (h : Core s fl O) :
    s.freeSpace = region s.allPages \ {x | ∃ b ∈ O, x ∈ b.span} := by
  have hd := Set.disjoint_left.mp h.region_free_disjoint
  ext x
  rw [freeSpace, Set.mem_union, Set.mem_ofPred_eq, h.mem_freeLists, allPages, region_append]
  constructor
  · rintro (hx | ⟨b, hb, hx⟩)
    · refine ⟨Or.inl hx, ?_⟩
      rintro ⟨b, hb, hxb⟩
      exact hd hx (h.tiles.span_subset (Or.inr hb) hxb)
    · refine ⟨Or.inr (h.tiles.span_subset (Or.inl hb) hx), ?_⟩
      rintro ⟨c, hc, hxc⟩
      have := h.tiles.eq_of_mem (Or.inl hb) (Or.inr hc) hx hxc
      exact Set.disjoint_left.mp h.separate hb (this ▸ hc)
  · rintro ⟨hx | hx, hn⟩
    · exact Or.inl hx
    · obtain ⟨b, hb, hxb⟩ := (h.tiles.cover x).mp hx
      rcases hb with hb | hb
      · exact Or.inr ⟨b, hb, hxb⟩
      · exact absurd ⟨b, hb, hxb⟩ hn

theorem freeSpace_congr {fl' : ℕ → List ℕ} (h : Core s fl O) (h' : Core s' fl' O)
    (hp : s'.allPages.Perm s.allPages) : s'.freeSpace = s.freeSpace := by
  rw [h.freeSpace_eq, h'.freeSpace_eq, region_perm hp]

end Core

section Pages

theorem takeBlock_allPages {n i j x : ℕ} (h : s.takeBlock n i = .ok (j, x, s')) :
    s'.allPages = s.allPages := by
  induction n generalizing i with
  | zero => cases h
  | succ n ih =>
    rw [takeBlock] at h
    split at h
    · cases h
    split at h
    · cases h
      rfl
    split at h
    · cases h
      rfl
    · exact ih h

theorem newPage_allPages (h : s.newPage = .ok (p, s')) : s'.allPages.Perm s.allPages := by
  cases hl : s.pages.freeList with
  | nil => simp [newPage, MemAllocator.alloc, hl] at h
  | cons q l =>
    cases q with
    | zero => simp [newPage, MemAllocator.alloc, hl] at h
    | succ q =>
      simp only [newPage, MemAllocator.alloc, hl, Except.ok.injEq, Prod.mk.injEq] at h
      obtain ⟨rfl, rfl⟩ := h
      simp only [allPages, held, hl]
      exact List.perm_middle

theorem split_allPages (s : BuddyAllocator) (block lv n : ℕ) :
    (s.split block lv n).allPages = s.allPages := by
  induction n generalizing s with
  | zero => rfl
  | succ n ih => exact ih _

theorem alloc_allPages (h : s.alloc sz = .ok (p, s')) : s'.allPages.Perm s.allPages := by
  obtain ⟨lv, -, h⟩ := Kernel.bind_ok.mp h
  obtain ⟨⟨i, block, s₁⟩, ht, h⟩ := Kernel.bind_ok.mp h
  rw [← takeBlock_allPages ht]
  simp only at h
  split at h
  · obtain ⟨⟨block', s₂⟩, hn, h⟩ := Kernel.bind_ok.mp h
    cases h
    exact (List.Perm.of_eq (split_allPages s₂ block' lv (i - lv))).trans (newPage_allPages hn)
  · cases h
    exact List.Perm.of_eq (split_allPages s₁ block lv (i - lv))

/-- The merge loop gives back at most one page, with its last turn. -/
theorem mergeUp_pages {n block i : ℕ} (h : s.mergeUp n block i = .ok s') :
    (s'.pages.freeList = s.pages.freeList ∧ s'.calls = s.calls) ∨
      ∃ q, s'.pages.freeList = q :: s.pages.freeList ∧ s'.calls = .give q :: s.calls := by
  induction n generalizing s block i with
  | zero => cases h
  | succ n ih =>
    rw [mergeUp] at h
    split at h
    · obtain ⟨pages, hf, h⟩ := Kernel.bind_ok.mp h
      cases h
      rw [MemAllocator.free] at hf
      split at hf
      · cases hf
      · cases hf
        exact Or.inr ⟨block, rfl, rfl⟩
    split at h
    · cases h
    obtain ⟨cell, -, h⟩ := Kernel.bind_ok.mp h
    split at h
    · cases h
      exact Or.inl ⟨rfl, rfl⟩
    · simpa using ih h

theorem Core.free_allPages (h' : Core s' fl O) (h : s.free p = .ok s') :
    s'.allPages.Perm s.allPages := by
  rcases mergeUp_pages h with ⟨hf, hc⟩ | ⟨q, hf, hc⟩
  · rw [allPages_congr hf hc]
  · have hq : q ∈ held s.calls := by
      have hh := h'.history
      rw [hc] at hh
      cases hh with
      | give _ hm => exact hm
    simp only [allPages, hf, hc, held, List.cons_append]
    exact List.perm_middle.symm.trans ((List.perm_cons_erase hq).symm.append_left _)

end Pages

theorem calcLevelFrom_of_gt {size n sz lv : ℕ} (hs : sz = 2 ^ lv) (h : 2 ^ (lv + n) < size) :
    calcLevelFrom size (n + 2) sz lv = calcLevelFrom size 1 (2 ^ (lv + n + 1)) (lv + n + 1) := by
  induction n generalizing sz lv with
  | zero =>
    subst hs
    rw [calcLevelFrom, if_pos (by simpa using h), ← pow_succ, Nat.add_zero]
  | succ n ih =>
    have hlt : 2 ^ lv < size := lt_of_le_of_lt (Nat.pow_le_pow_right (by norm_num) (by omega)) h
    rw [calcLevelFrom, if_pos (by rw [hs]; exact hlt),
      ih (by rw [hs, pow_succ]) (by rwa [show lv + 1 + n = lv + (n + 1) by omega])]
    rw [show lv + 1 + n + 1 = lv + (n + 1) + 1 by omega]

theorem calcLevel_of_gt (h : 4088 < sz) (h' : sz ≤ pgSize) :
    calcLevel ((sz + 8) % 2 ^ 64) = .ok 13 := by
  simp only [pgSize] at h'
  have hm : (sz + 8) % 2 ^ 64 = sz + 8 := Nat.mod_eq_of_lt (by omega)
  have hlt : 2 ^ (minLevel + 8) < sz + 8 := by
    norm_num [minLevel]
    omega
  have hend : calcLevelFrom (sz + 8) 1 (2 ^ (minLevel + 8 + 1)) (minLevel + 8 + 1) = .ok 13 := by
    rw [calcLevelFrom, if_neg]
    · rfl
    · norm_num [minLevel]
      omega
  rw [hm]
  refine calcLevelFrom_mono (n := 10) ?_ (by norm_num)
  rw [calcLevelFrom_of_gt rfl hlt, hend]

theorem not_served_of_gt {new : BuddyAllocator → ℕ → Kernel (ℕ × BuddyAllocator)}
    {delete : BuddyAllocator → ℕ → Kernel BuddyAllocator} (h : 4088 < sz) (h' : sz ≤ pgSize) :
    ¬ Served new delete s sz := by
  rintro ⟨⟨lv, hlv, -, hmax⟩, -⟩
  rw [calcLevel_of_gt h h'] at hlv
  cases hlv
  norm_num [maxLevel] at hmax

theorem alloc_of_gt (h : 4088 < sz) (h' : sz ≤ pgSize) : s.alloc sz = .error .fault := by
  rw [alloc, calcLevel_of_gt h h']
  rfl

theorem Core.served (h : Core s fl O) (hp : s.pages.freeList ≠ []) (hsz : sz ≤ 4088)
    (who : String) : Served (newChecked who) free s sz := by
  have hnew : newChecked who s sz = s.alloc sz := by
    rw [newChecked, if_neg]
    simp only [pgSize]
    omega
  obtain ⟨lv, hlv, hmin, hmax, -⟩ := calcLevel_spec hsz
  rcases h.alloc_spec hsz with ⟨-, he⟩ | ⟨a, k, s', fl', he, hc, hb, hfit, hm, -⟩
  · exact absurd he hp
  obtain ⟨s'', fl'', hf, hc', -⟩ := hc.free_spec hb hm
  have hpages := alloc_allPages he
  have hspace := h.freeSpace_congr hc' ((hc'.free_allPages hf).trans hpages)
  refine ⟨⟨lv, hlv, hmin, hmax⟩, a + 8, s', hnew.trans he, fun x hx => ?_, s'', hf, hspace⟩
  have hxb : x ∈ (⟨a, k⟩ : Block).span := by
    obtain ⟨h₁, h₂⟩ := hx
    constructor
    · simp only
      omega
    · simp only
      omega
  have hxa : x ∈ region s.allPages := by
    rw [← region_perm hpages, allPages, region_append]
    exact Or.inr (hc.tiles.span_subset (Or.inr (Or.inl rfl)) hxb)
  rw [h.freeSpace_eq, hc.freeSpace_eq]
  refine ⟨⟨hxa, ?_⟩, fun hx' => hx'.2 ⟨_, Or.inl rfl, hxb⟩⟩
  rintro ⟨c, hcO, hxc⟩
  have := hc.tiles.eq_of_mem (Or.inr (Or.inr hcO)) (Or.inr (Or.inl rfl)) hxc hxb
  exact hb (this ▸ hcO)

namespace Sys

variable {s : Sys} {size : ℕ}

theorem Step.operatorNew {who : String} {p : ℕ} {a : BuddyAllocator}
    (h : newChecked who s.alloc size = .ok (p, a)) : Step s ⟨a, ⟨p, size⟩ :: s.live⟩ := by
  rw [newChecked] at h
  split at h
  · cases h
  by_cases hsz : size ≤ 4088
  · exact .alloc hsz h
  · rw [alloc_of_gt (by omega) (by omega)] at h
    cases h

/-- With a free page left, the sizes the two forms of `operator new` admit are served up to
`4088` bytes, where the header still fits into a page, and not beyond. -/
theorem operatorNew_served_iff (h : Reachable s) (hp : s.alloc.pages.freeList ≠ [])
    (hsize : size ≤ pgSize) :
    (Served operatorNew operatorDelete s.alloc size ↔ size ≤ 4088) ∧
      (Served operatorNewArray operatorDeleteArray s.alloc size ↔ size ≤ 4088) := by
  obtain ⟨fl, hi⟩ := h.inv
  have hbad : ¬ size ≤ 4088 → 4088 < size := by omega
  constructor
  · exact ⟨fun hs => by_contra fun hn => not_served_of_gt (hbad hn) hsize hs,
      fun hs => hi.core.served hp hs _⟩
  · exact ⟨fun hs => by_contra fun hn => not_served_of_gt (hbad hn) hsize hs,
      fun hs => hi.core.served hp hs _⟩

theorem operatorNew_served_onePage : Served operatorNew operatorDelete onePage.alloc 24 :=
  (operatorNew_served_iff ⟨onePage, init_onePage, .refl⟩ (by decide) (by decide)).1.mpr
    (by decide)

/-- A request for a whole page reads `freelist[13]`. -/
theorem operatorNew_page_fault : ∃ s : Sys, Reachable s ∧ s.alloc.pages.freeList ≠ [] ∧
    BuddyAllocator.operatorNew s.alloc pgSize = .error .fault ∧
    ¬ Served BuddyAllocator.operatorNew operatorDelete s.alloc pgSize := by
  refine ⟨onePage, ⟨onePage, init_onePage, .refl⟩, by decide, ?_, ?_⟩
  · exact alloc_of_gt (by decide) le_rfl
  · exact not_served_of_gt (by decide) le_rfl

end Sys

end StartOS.BuddyAllocator
