import StartOS.Lib.DyadicBlocks
import StartOS.Lib.Linked
import StartOS.Memory.BuddyAllocator

/-! # The blocks of the buddy allocator

The free blocks and the blocks in use tile the pages the allocator holds. The
invariant is stated for any set of blocks in use, so that it also covers the
moments inside `alloc` and `free` when one block is in neither place.
-/

namespace StartOS.BuddyAllocator

open Linked DyadicBlocks

def held : List PageCall → List ℕ
  | [] => []
  | .take p :: c => p :: held c
  | .give p :: c => (held c).erase p

/-- Only pages not held are taken and only held pages are given back. -/
inductive History : List PageCall → Prop
  | nil : History []
  | take {p : ℕ} {c : List PageCall} : History c → p ∉ held c → History (.take p :: c)
  | give {p : ℕ} {c : List PageCall} : History c → p ∈ held c → History (.give p :: c)

theorem History.held_nodup {c : List PageCall} (h : History c) : (held c).Nodup := by
  induction h with
  | nil => exact List.nodup_nil
  | take _ hp ih => exact List.nodup_cons.mpr ⟨hp, ih⟩
  | give _ _ ih => exact ih.erase _

def region (P : List ℕ) : Set ℕ := {x | ∃ p ∈ P, p ≤ x ∧ x < p + pgSize}

def freeBlocks (fl : ℕ → List ℕ) : Set Block := {b | b.addr ∈ fl b.level}

/-- The free lists hold `fl` and, with the blocks `O` in use, tile the pages held. -/
structure Core (s : BuddyAllocator) (fl : ℕ → List ℕ) (O : Set Block) : Prop where
  wf : s.pages.WellFormed
  history : History s.calls
  held_page : ∀ p ∈ held s.calls, s.pages.IsPage p
  held_taken : ∀ p ∈ held s.calls, p ∉ s.pages.freeList
  chain : ∀ i, Chain s.next 0 (s.freelist i) (fl i)
  free_level : ∀ i, fl i ≠ [] → minLevel ≤ i ∧ i < maxLevel
  used_level : ∀ b ∈ O, minLevel ≤ b.level ∧ b.level ≤ maxLevel
  tiles : Tiles (freeBlocks fl ∪ O) (region (held s.calls))
  separate : Disjoint (freeBlocks fl) O
  no_buddies : ∀ b ∈ freeBlocks fl, b.buddy ∉ freeBlocks fl

def Keeps (s s' : BuddyAllocator) (O : Set Block) : Prop :=
  ∀ b ∈ O, ∀ x ∈ b.span, s'.pages.mem x = s.pages.mem x

variable {s s' : BuddyAllocator} {fl : ℕ → List ℕ} {O : Set Block} {b c : Block} {i x : ℕ}

theorem Keeps.refl (s : BuddyAllocator) (O : Set Block) : Keeps s s O := fun _ _ _ _ => rfl

theorem Keeps.trans {s'' : BuddyAllocator} (h : Keeps s s' O) (h' : Keeps s' s'' O) :
    Keeps s s'' O := fun b hb x hx => (h' b hb x hx).trans (h b hb x hx)

theorem Keeps.mono {O' : Set Block} (h : Keeps s s' O) (hs : O' ⊆ O) : Keeps s s' O' :=
  fun b hb => h b (hs hb)

@[simp] theorem mem_freeBlocks : b ∈ freeBlocks fl ↔ b.addr ∈ fl b.level := Iff.rfl

theorem freeBlocks_update (l : List ℕ) :
    b ∈ freeBlocks (Function.update fl i l) ↔
      (b.level = i ∧ b.addr ∈ l) ∨ (b.level ≠ i ∧ b ∈ freeBlocks fl) := by
  by_cases h : b.level = i
  · subst h; simp
  · simp [h]

theorem freeBlocks_push (i x : ℕ) :
    freeBlocks (Function.update fl i (x :: fl i)) = insert ⟨x, i⟩ (freeBlocks fl) := by
  ext b
  rw [freeBlocks_update, Set.mem_insert_iff, Block.ext_iff, List.mem_cons]
  by_cases h : b.level = i
  · subst h; simp
  · simp [h]

namespace Core

theorem level_bounds (h : Core s fl O) (hb : b ∈ freeBlocks fl ∪ O) :
    minLevel ≤ b.level ∧ b.level ≤ maxLevel := by
  rcases hb with hb | hb
  · have := h.free_level b.level (List.ne_nil_of_mem hb)
    exact ⟨this.1, this.2.le⟩
  · exact h.used_level b hb

theorem sixteen_le (h : Core s fl O) (hb : b ∈ freeBlocks fl ∪ O) : 16 ≤ 2 ^ b.level :=
  Nat.pow_le_pow_right (n := 2) (by norm_num) (h.level_bounds hb).1

theorem addr_bounds (h : Core s fl O) (hb : b ∈ freeBlocks fl ∪ O) :
    pgSize ≤ b.addr ∧ b.addr < physTop := by
  obtain ⟨p, hp, h₁, h₂⟩ := (h.tiles.cover b.addr).mpr ⟨b, hb, b.addr_mem_span⟩
  have hpg := h.held_page p hp
  have := hpg.aligned; have := hpg.kend_le; have := hpg.lt_top; have := h.wf.kend_pos
  simp only [pgSize, physTop] at *
  omega

theorem freelist_lt (h : Core s fl O) (i : ℕ) : s.freelist i < 256 ^ 8 := by
  have hc := h.chain i
  rcases hz : fl i with _ | ⟨a, l⟩ <;> rw [hz] at hc
  · rw [show s.freelist i = 0 from hc]; norm_num
  · have hm : (⟨a, i⟩ : Block) ∈ freeBlocks fl := by simp [hz]
    rw [hc.1]
    exact (h.addr_bounds (Or.inl hm)).2.trans (by norm_num [physTop])

theorem setMem (h : Core s fl O) {m : ByteMem}
    (hm : ∀ b ∈ freeBlocks fl, ∀ x ∈ b.span, m x = s.pages.mem x) : Core (s.setMem m) fl O where
  wf := ⟨h.wf.kend_pos, h.wf.nodup, fun p hp =>
    ⟨(h.wf.isPage p hp).aligned, (h.wf.isPage p hp).kend_le, (h.wf.isPage p hp).lt_top⟩⟩
  history := h.history
  held_page p hp :=
    ⟨(h.held_page p hp).aligned, (h.held_page p hp).kend_le, (h.held_page p hp).lt_top⟩
  held_taken := h.held_taken
  chain i := by
    refine (h.chain i).congr fun a ha => ?_
    have hb : (⟨a, i⟩ : Block) ∈ freeBlocks fl := ha
    have h16 := h.sixteen_le (Or.inl hb)
    refine ByteMem.readLE_congr fun x hx hx' => hm ⟨a, i⟩ hb x ⟨hx, ?_⟩
    simp only at h16 ⊢
    omega
  free_level := h.free_level
  used_level := h.used_level
  tiles := h.tiles
  separate := h.separate
  no_buddies := h.no_buddies

theorem keeps_of_agree (h : Core s fl (insert b O)) (hb : b ∉ O)
    (hm : ∀ x, x ∉ b.span → s'.pages.mem x = s.pages.mem x) : Keeps s s' O := by
  intro c hc x hx
  refine hm x fun hx' => ?_
  have := h.tiles.eq_of_mem (Or.inr (Or.inr hc)) (Or.inr (Or.inl rfl)) hx hx'
  exact hb (this ▸ hc)

/-- Putting a block in use on its free list, when its buddy is not there. -/
theorem push (h : Core s fl (insert b O)) (hb : b ∉ O) (hl : b.level < maxLevel)
    (hbud : b.buddy ∉ freeBlocks fl) :
    Core (s.push b.level b.addr) (Function.update fl b.level (b.addr :: fl b.level)) O ∧
      Keeps s (s.push b.level b.addr) O := by
  have hbO : b ∈ freeBlocks fl ∪ insert b O := Or.inr (Or.inl rfl)
  have h16 := h.sixteen_le hbO
  have hnf : b ∉ freeBlocks fl := fun hf => Set.disjoint_left.mp h.separate hf (Or.inl rfl)
  -- the link word lies in `b`, so the other blocks do not change
  have hmem : ∀ x, x ∉ b.span →
      (s.push b.level b.addr).pages.mem x = s.pages.mem x := by
    intro x hx
    refine ByteMem.writeLE_of_not_mem ?_
    by_contra hn
    exact hx ⟨by omega, by omega⟩
  have hfree : ∀ c ∈ freeBlocks fl, ∀ x ∈ c.span,
      s.pages.mem.writeLE b.addr 8 (s.freelist b.level) x = s.pages.mem x := by
    intro c hc x hx
    refine hmem x fun hx' => hnf ?_
    exact h.tiles.eq_of_mem (Or.inl hc) hbO hx hx' ▸ hc
  have h' := h.setMem hfree
  have hset : insert b (freeBlocks fl) ∪ O = freeBlocks fl ∪ insert b O := by
    rw [Set.insert_union, Set.union_insert]
  refine ⟨⟨h'.wf, h'.history, h'.held_page, h'.held_taken, ?_, ?_, ?_, ?_, ?_, ?_⟩,
    h.keeps_of_agree hb hmem⟩
  · intro i
    by_cases hi : i = b.level
    · subst hi
      simp only [BuddyAllocator.push, Function.update_self]
      refine ⟨rfl, ?_, ?_⟩
      · have := (h.addr_bounds hbO).1
        simp only [pgSize] at this
        omega
      · have hn : (s.push b.level b.addr).next b.addr = s.freelist b.level :=
          ByteMem.readLE_writeLE_of_lt (h.freelist_lt b.level)
        change Path _ 0 ((s.push b.level b.addr).next b.addr) _ 0
        rw [hn]
        exact h'.chain b.level
    · simp only [BuddyAllocator.push, Function.update_of_ne hi]
      exact h'.chain i
  · intro i hi
    by_cases hib : i = b.level
    · subst hib
      exact ⟨(h.level_bounds hbO).1, hl⟩
    · rw [Function.update_of_ne hib] at hi
      exact h.free_level i hi
  · exact fun c hc => h.used_level c (Or.inr hc)
  · rw [freeBlocks_push, hset]
    exact h.tiles
  · rw [freeBlocks_push, Set.disjoint_insert_left]
    exact ⟨hb, h.separate.mono_right (Set.subset_insert _ _)⟩
  · rw [freeBlocks_push]
    have hba := h.tiles.aligned b hbO
    rintro c (rfl | hc) (he | hm)
    · exact hba.ne_buddy he.symm
    · exact hbud hm
    · have he : c.buddy = b := he
      exact hbud (by rw [← he, Block.buddy_buddy]; exact hc)
    · exact h.no_buddies c hc hm

end Core

/-- The cursor `cell` into a list points at `x`; unlinking `x` leaves `rest`. -/
inductive PointsAt : List ℕ → Option ℕ → ℕ → List ℕ → Prop
  | head (x : ℕ) (l : List ℕ) : PointsAt (x :: l) none x l
  | after (l₁ : List ℕ) (p x : ℕ) (l₂ : List ℕ) :
      PointsAt (l₁ ++ p :: x :: l₂) (some p) x (l₁ ++ p :: l₂)

namespace PointsAt

variable {l rest : List ℕ} {cell : Option ℕ}

theorem mem_iff (h : PointsAt l cell x rest) (y : ℕ) : y ∈ l ↔ y = x ∨ y ∈ rest := by
  cases h with
  | head => simp
  | after l₁ p x l₂ => simp only [List.mem_append, List.mem_cons]; tauto

theorem not_mem (h : PointsAt l cell x rest) (hn : l.Nodup) : x ∉ rest := by
  cases h with
  | head => exact (List.nodup_cons.mp hn).1
  | after l₁ p x l₂ =>
    intro hm
    have hd := List.nodup_append.mp hn
    have h₁ := List.nodup_cons.mp hd.2.1
    have h₂ := List.nodup_cons.mp h₁.2
    rcases List.mem_append.mp hm with hm | hm
    · exact hd.2.2 x hm x (by simp) rfl
    · rcases List.mem_cons.mp hm with rfl | hm
      · exact h₁.1 (by simp)
      · exact h₂.1 hm

end PointsAt

namespace Core

variable {cell : Option ℕ} {rest : List ℕ}

theorem deref_eq (h : Core s fl O) (hp : PointsAt (fl i) cell x rest) : s.deref i cell = x := by
  have hc := h.chain i
  generalize hl : fl i = l at hp hc
  cases hp with
  | head => exact hc.1
  | after l₁ p x l₂ => exact (hc.of_append_cons.2).1

theorem mem_of_pointsAt (hp : PointsAt (fl i) cell x rest) : (⟨x, i⟩ : Block) ∈ freeBlocks fl :=
  (hp.mem_iff x).mpr (Or.inl rfl)

theorem freeBlocks_rest (hp : PointsAt (fl i) cell x rest) :
    freeBlocks fl = insert ⟨x, i⟩ (freeBlocks (Function.update fl i rest)) := by
  ext b
  rw [Set.mem_insert_iff, freeBlocks_update, Block.ext_iff, mem_freeBlocks]
  by_cases hb : b.level = i
  · subst hb; simp [hp.mem_iff]
  · simp [hb]

theorem not_mem_rest (h : Core s fl O) (hp : PointsAt (fl i) cell x rest) :
    (⟨x, i⟩ : Block) ∉ freeBlocks (Function.update fl i rest) := by
  rw [freeBlocks_update]
  simp [hp.not_mem (h.chain i).nodup]

@[simp] theorem assign_kend (s : BuddyAllocator) (i : ℕ) (cell : Option ℕ) (v : ℕ) :
    (s.assign i cell v).pages.kend = s.pages.kend := by cases cell <;> rfl

@[simp] theorem assign_freeList (s : BuddyAllocator) (i : ℕ) (cell : Option ℕ) (v : ℕ) :
    (s.assign i cell v).pages.freeList = s.pages.freeList := by cases cell <;> rfl

@[simp] theorem assign_calls (s : BuddyAllocator) (i : ℕ) (cell : Option ℕ) (v : ℕ) :
    (s.assign i cell v).calls = s.calls := by cases cell <;> rfl

/-- Unlinking changes at most the link word of a free block of the same level. -/
theorem assign_mem_eq (h : Core s fl O) (hp : PointsAt (fl i) cell x rest)
    (hb : b ∈ freeBlocks fl ∪ O) (hne : cell ≠ some b.addr ∨ b.level ≠ i) {y v : ℕ}
    (hy : y ∈ b.span) : (s.assign i cell v).pages.mem y = s.pages.mem y := by
  generalize hl : fl i = l at hp
  cases hp with
  | head => rfl
  | after l₁ p x l₂ =>
    have hpf : (⟨p, i⟩ : Block) ∈ freeBlocks fl := by simp [hl]
    have h16 := h.sixteen_le (Or.inl hpf)
    refine ByteMem.writeLE_of_not_mem ?_
    by_contra hn
    have hy' : y ∈ (⟨p, i⟩ : Block).span := by
      simp only [Block.mem_span] at h16 ⊢
      omega
    have := h.tiles.eq_of_mem hb (Or.inl hpf) hy hy'
    subst this
    simp at hne

theorem assign_next_eq (h : Core s fl O) (hp : PointsAt (fl i) cell x rest)
    (hb : b ∈ freeBlocks fl) (hne : cell ≠ some b.addr ∨ b.level ≠ i) {v : ℕ} :
    (s.assign i cell v).next b.addr = s.next b.addr := by
  have h16 := h.sixteen_le (Or.inl hb)
  exact ByteMem.readLE_congr fun y hy hy' =>
    h.assign_mem_eq hp (Or.inl hb) hne ⟨hy, by omega⟩

theorem assign_chain (h : Core s fl O) (hp : PointsAt (fl i) cell x rest) :
    Chain (s.assign i cell (s.next x)).next 0 ((s.assign i cell (s.next x)).freelist i) rest := by
  have hc := h.chain i
  generalize hl : fl i = l at hp hc
  have hp' : PointsAt (fl i) cell x rest := hl ▸ hp
  cases hp with
  | head =>
    have hf : (s.assign i none (s.next x)).freelist i = s.next x := Function.update_self ..
    rw [hf]
    exact hc.2.2
  | after l₁ p x l₂ =>
    refine hc.unlink (ByteMem.readLE_writeLE_of_lt (ByteMem.readLE_lt _ _ _)) fun d hd => ?_
    have hdp : d ≠ p := by
      rintro rfl
      have h₁ := List.nodup_append.mp hc.nodup
      rcases List.mem_append.mp hd with hd | hd
      · exact h₁.2.2 d hd d (by simp) rfl
      · exact (List.nodup_cons.mp h₁.2.1).1 (by simp [hd])
    have hdf : (⟨d, i⟩ : Block) ∈ freeBlocks fl := by
      simp only [mem_freeBlocks, hl, List.mem_append, List.mem_cons] at hd ⊢
      tauto
    exact h.assign_next_eq hp' hdf (Or.inl (by simpa using hdp.symm))

theorem take (h : Core s fl O) (hp : PointsAt (fl i) cell x rest) :
    Core (s.assign i cell (s.next x)) (Function.update fl i rest) (insert ⟨x, i⟩ O) ∧
      (⟨x, i⟩ : Block) ∉ O ∧ Keeps s (s.assign i cell (s.next x)) O := by
  have hxi := mem_of_pointsAt hp
  have hfb := freeBlocks_rest hp
  have hsub : freeBlocks (Function.update fl i rest) ⊆ freeBlocks fl := by
    rw [hfb]; exact Set.subset_insert _ _
  have hpage : ∀ p, s.pages.IsPage p → (s.assign i cell (s.next x)).pages.IsPage p :=
    fun p hp => ⟨hp.aligned, by rw [assign_kend]; exact hp.kend_le, hp.lt_top⟩
  refine ⟨?_, Set.disjoint_left.mp h.separate hxi, ?_⟩
  · refine ⟨⟨by simpa using h.wf.kend_pos, by simpa using h.wf.nodup, ?_⟩,
      by simpa using h.history, ?_, by simpa using h.held_taken, ?_, ?_, ?_, ?_, ?_, ?_⟩
    · simpa using fun p hp => hpage p (h.wf.isPage p hp)
    · simpa using fun p hp => hpage p (h.held_page p hp)
    · intro j
      by_cases hj : j = i
      · subst hj
        rw [Function.update_self]
        exact h.assign_chain hp
      · have hfl : (s.assign i cell (s.next x)).freelist j = s.freelist j := by
          cases cell with
          | none => exact Function.update_of_ne hj _ _
          | some p => rfl
        rw [Function.update_of_ne hj, hfl]
        exact (h.chain j).congr fun d hd => h.assign_next_eq (b := ⟨d, j⟩) hp hd (Or.inr hj)
    · intro j hj
      by_cases hji : j = i
      · subst hji
        exact h.free_level j (List.ne_nil_of_mem hxi)
      · rw [Function.update_of_ne hji] at hj
        exact h.free_level j hj
    · rintro b (rfl | hb)
      · exact h.level_bounds (Or.inl hxi)
      · exact h.used_level b hb
    · have := h.tiles
      rw [hfb, Set.insert_union, ← Set.union_insert] at this
      simpa using this
    · rw [Set.disjoint_insert_right]
      exact ⟨h.not_mem_rest hp, h.separate.mono_left hsub⟩
    · exact fun b hb hb' => h.no_buddies b (hsub hb) (hsub hb')
  · intro b hb y hy
    refine h.assign_mem_eq hp (Or.inr hb) ?_ hy
    by_contra hn
    obtain ⟨hcell, rfl⟩ : cell = some b.addr ∧ b.level = i := by tauto
    subst hcell
    have hbf : b ∈ freeBlocks fl := by
      generalize hl : fl b.level = l at hp
      cases hp with
      | after l₁ p x l₂ => simp [hl]
    exact Set.disjoint_left.mp h.separate hbf hb

end Core

end StartOS.BuddyAllocator
