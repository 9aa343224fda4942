import Mathlib.Data.Finset.Card
import Mathlib.Data.Finset.Union
import StartOS.Os.UserTransfer

/-! # The program break

`userAlloc` grows an address space as a whole or not at all, and `userDealloc`
undoes it. `sys_brk` and `sys_sbrk` pass their request on as an `int` and do not
look at the result.
-/

namespace StartOS

namespace MemAllocator

open RadixTree

variable {s s' s'' : MemAllocator} {root va va' a i j k m n p oldsz newsz : ℕ}
  {l : List (Fin 512)}

def mapping (s : MemAllocator) (root va : ℕ) : Option ℕ :=
  if isValid (s.walkPte root va) then some (s.walkPte root va) else none

theorem mapping_of_ge (hva : maxVa ≤ va) : s.mapping root va = none := by
  unfold mapping walkPte walk
  rw [if_pos hva]
  exact if_neg (by decide)

theorem mapping_page (s : MemAllocator) (root : ℕ) (hva : va < maxVa) (hva' : va' < maxVa)
    (h : va' / pgSize = va / pgSize) : s.mapping root va' = s.mapping root va := by
  unfold mapping
  rw [walkPte_page s root hva hva' h]

theorem Space.mapping_eq (h : Space s root) (hw : s.WellFormed) (hva : va < maxVa) :
    s.mapping root va = if isValid (s.leaf root va) then some (s.leaf root va) else none := by
  unfold mapping
  rw [h.table.walkPte_eq hw hva]

theorem Space.mapping_none (h : Space s root) (hw : s.WellFormed) (hva : va < maxVa) :
    s.mapping root va = none ↔ ¬isValid (s.leaf root va) := by
  rw [h.mapping_eq hw hva, ite_eq_right_iff]
  simp only [reduceCtorEq, imp_false]

theorem mapping_congr (h : Space s root) (hw : s.WellFormed) (h' : Space s' root)
    (hw' : s'.WellFormed) (hleaf : va < maxVa → s'.leaf root va = s.leaf root va ∨
      ¬isValid (s'.leaf root va) ∧ ¬isValid (s.leaf root va)) :
    s'.mapping root va = s.mapping root va := by
  by_cases hva : va < maxVa
  · rcases hleaf hva with he | ⟨hv', hv⟩
    · rw [h'.mapping_eq hw' hva, h.mapping_eq hw hva, he]
    · rw [(h'.mapping_none hw' hva).mpr hv', (h.mapping_none hw hva).mpr hv]
  · rw [mapping_of_ge (by omega), mapping_of_ge (by omega)]

theorem ActsIn.mapping (hin : ActsIn s s' root a k) (h : Space s root) (hw : s.WellFormed)
    (hva : ¬(a ≤ va ∧ va < k)) : s'.mapping root va = s.mapping root va :=
  mapping_congr h hw hin.acts.space hin.acts.moves.wf fun hlt => .inl (hin.outside va hlt hva)

/-- A free frame that the operation did not leave on the free list is a node now, where the user
pages are the same. -/
theorem ActsIn.returned (hin : ActsIn s s' root a k) (h : Space s root)
    (hpages : ∀ va < maxVa, s'.userFrame root va = s.userFrame root va) (hp : p ∈ s.freeList) :
    p ∈ s'.freeList ∨ ∃ l : List (Fin 512), l.length ≤ 2 ∧ s'.node root l = some p := by
  rcases hin.kept p (Or.inr hp) with (hn | ⟨va, hva, hf⟩) | hfree
  · exact Or.inr hn
  · rw [hpages va hva] at hf
    exact absurd hp (h.taken va hva p hf)
  · exact Or.inl hfree

theorem userFrame_of_invalid (hv : ¬isValid (s.leaf root va)) : s.userFrame root va = none :=
  if_neg fun hc => hv hc.1

section Growing

def GrowPage (oldsz newsz va : ℕ) : Prop := pgRoundUp oldsz ≤ va ∧ va < pgRoundUp newsz

theorem userAlloc_nothing (hround : newsz ≤ pgRoundUp newsz) (hle : oldsz ≤ newsz)
    (hempty : pgRoundUp newsz ≤ pgRoundUp oldsz) (s : MemAllocator) (root : ℕ) :
    s.userAlloc root oldsz newsz = .ok (newsz, s) ∧
      s.userDealloc root newsz oldsz = .ok (oldsz, s) := by
  constructor
  · unfold MemAllocator.userAlloc
    have hturns : (newsz - pgRoundUp oldsz + 4095) / pgSize = 0 := by
      rw [Nat.sub_eq_zero_of_le (hround.trans hempty)]
      rfl
    rw [if_neg (by omega)]
    dsimp only
    rw [hturns]
    rfl
  · unfold MemAllocator.userDealloc
    by_cases hge : oldsz ≥ newsz
    · rw [if_pos hge, show newsz = oldsz by omega]
      rfl
    · rw [if_neg hge, if_neg (by omega)]
      rfl

variable {b : ℕ}

theorem MapsFresh.userFrame_walkPte (hg : MapsFresh s s' root a b) (hva : va < maxVa) (h₁ : a ≤ va)
    (h₂ : va < b) : s'.userFrame root va = some (pte2pa (s'.walkPte root va)) := by
  obtain ⟨p, hp, -⟩ := hg.frame va hva h₁ h₂
  rw [hg.acts.space.table.walkPte_eq hg.acts.moves.wf hva, (pte2pa_of_userFrame hp).2, hp]

/-- Each new page has a frame that was free, of zeros. -/
theorem MapsFresh.mapped (hg : MapsFresh s s' root a b) (hw : s.WellFormed) (hva : va < maxVa)
    (h₁ : a ≤ va) (h₂ : va < b) : ∃ p ∈ s.freeList,
      s'.mapping root va =
        some (pa2pte p ||| (pteW ||| pteX ||| pteR ||| pteU ||| pteV) ||| pteV) ∧
      pte2pa (s'.walkPte root va) = p ∧ ∀ x, p ≤ x → x < p + pgSize → s'.mem x = 0 := by
  obtain ⟨p, hp, hleaf⟩ := hg.fresh va hva h₁ h₂
  obtain ⟨q, hq, hz⟩ := hg.frame va hva h₁ h₂
  have hpq := userFrame_of_leaf userPerm_all (hw.isPage p hp) hleaf
  rw [hq] at hpq
  obtain rfl := Option.some.inj hpq
  refine ⟨q, hp, ?_, Option.some.inj ((hg.userFrame_walkPte hva h₁ h₂).symm.trans hq), hz⟩
  rw [hg.acts.space.mapping_eq hg.acts.moves.wf hva, hleaf]
  exact if_pos (isValid_or _)

theorem MapsFresh.apart (hg : MapsFresh s s' root a b) (hlt : ∀ va, a ≤ va → va < b → va < maxVa)
    (h₁ : a ≤ va) (h₂ : va < b) (h₁' : a ≤ va') (h₂' : va' < b)
    (he : pte2pa (s'.walkPte root va) = pte2pa (s'.walkPte root va')) :
    va / pgSize = va' / pgSize := by
  have hp := hg.userFrame_walkPte (hlt va h₁ h₂) h₁ h₂
  rw [he] at hp
  exact hg.acts.space.inj va (hlt va h₁ h₂) va' (hlt va' h₁' h₂') _ hp
    (hg.userFrame_walkPte (hlt va' h₁' h₂') h₁' h₂')

/-- Taking the new pages out again gives back every translation and just their frames. -/
theorem MapsFresh.undone (hg : MapsFresh s s' root a b) (h : Space s root) (hw : s.WellFormed)
    (hfree : ∀ va, a ≤ va → va < b → va < maxVa ∧ ¬isValid (s.leaf root va))
    (hun : Unmaps s' s'' root a b) (hback : GivesBack s' s'' root a b) :
    (∀ va, s''.mapping root va = s.mapping root va) ∧
      ∀ q, q ∈ s''.freeList ↔ q ∈ s'.freeList ∨
        ∃ va, (a ≤ va ∧ va < b) ∧ pte2pa (s'.walkPte root va) = q := by
  refine ⟨fun va => ?_, fun q => ?_⟩
  · refine mapping_congr h hw hun.acts.space hun.acts.moves.wf fun hlt => ?_
    by_cases hva : a ≤ va ∧ va < b
    · exact .inr ⟨hun.inside va hlt hva.1 hva.2, (hfree va hva.1 hva.2).2⟩
    · exact .inl ((hun.outside va hlt hva).trans (hg.outside va hlt hva))
  · rw [hback q]
    constructor
    · rintro (hq | ⟨va, hlt, h₁, h₂, hq⟩)
      · exact Or.inl hq
      · exact Or.inr ⟨va, ⟨h₁, h₂⟩,
          Option.some.inj ((hg.userFrame_walkPte hlt h₁ h₂).symm.trans hq)⟩
    · rintro (hq | ⟨va, ⟨h₁, h₂⟩, rfl⟩)
      · exact Or.inl hq
      · have hlt := (hfree va h₁ h₂).1
        exact Or.inr ⟨va, hlt, h₁, h₂, hg.userFrame_walkPte hlt h₁ h₂⟩

/-- An operation that leaves no page mapped that was not has changed no translation. -/
theorem ActsIn.unchanged (hin : ActsIn s s' root a b) (h : Space s root) (hw : s.WellFormed)
    (hfree : ∀ va, a ≤ va → va < b → va < maxVa ∧ ¬isValid (s.leaf root va))
    (hvalid : ∀ va < maxVa, a ≤ va → va < b → isValid (s'.leaf root va) →
      isValid (s.leaf root va)) :
    (∀ va, s'.mapping root va = s.mapping root va) ∧
      ∀ va < maxVa, s'.userFrame root va = s.userFrame root va := by
  have hleaf : ∀ va < maxVa, s'.leaf root va = s.leaf root va ∨
      ¬isValid (s'.leaf root va) ∧ ¬isValid (s.leaf root va) := by
    intro va hlt
    by_cases hva : a ≤ va ∧ va < b
    · have hno := (hfree va hva.1 hva.2).2
      exact .inr ⟨fun hv => hno (hvalid va hlt hva.1 hva.2 hv), hno⟩
    · exact .inl (hin.outside va hlt hva)
  refine ⟨fun va => mapping_congr h hw hin.acts.space hin.acts.moves.wf (hleaf va),
    fun va hlt => ?_⟩
  rcases hleaf va hlt with he | ⟨hv', hv⟩
  · exact userFrame_congr he
  · rw [userFrame_of_invalid hv', userFrame_of_invalid hv]

/-- `userAlloc` maps every page above the old size to a frame of its own, or leaves every
translation as it was and returns the frames it took for pages. After it has grown an address
space, `userDealloc` takes back just these pages. -/
theorem userAlloc_allOrNothing (h : Space s root) (hw : s.WellFormed) (hle : oldsz ≤ newsz)
    (hround : newsz ≤ pgRoundUp newsz)
    (hrange : ∀ va, GrowPage oldsz newsz va → va < trapframeVa ∧ s.mapping root va = none) :
    (∃ s', s.userAlloc root oldsz newsz = .ok (newsz, s') ∧
      (∀ va, GrowPage oldsz newsz va → ∃ p ∈ s.freeList,
        s'.mapping root va =
          some (pa2pte p ||| (pteW ||| pteX ||| pteR ||| pteU ||| pteV) ||| pteV) ∧
        pte2pa (s'.walkPte root va) = p ∧ ∀ x, p ≤ x → x < p + pgSize → s'.mem x = 0) ∧
      (∀ va va', GrowPage oldsz newsz va → GrowPage oldsz newsz va' →
        pte2pa (s'.walkPte root va) = pte2pa (s'.walkPte root va') → va / pgSize = va' / pgSize) ∧
      (∀ va, ¬GrowPage oldsz newsz va → s'.mapping root va = s.mapping root va) ∧
      ∃ s'', s'.userDealloc root newsz oldsz = .ok (oldsz, s'') ∧
        (∀ va, s''.mapping root va = s.mapping root va) ∧
        ∀ q, q ∈ s''.freeList ↔ q ∈ s'.freeList ∨
          ∃ va, GrowPage oldsz newsz va ∧ pte2pa (s'.walkPte root va) = q) ∨
    (∃ s', s.userAlloc root oldsz newsz = .ok (0, s') ∧
      (∀ va, s'.mapping root va = s.mapping root va) ∧
      ∀ p ∈ s.freeList, p ∈ s'.freeList ∨
        ∃ l : List (Fin 512), l.length ≤ 2 ∧ s'.node root l = some p) := by
  by_cases hempty : pgRoundUp newsz ≤ pgRoundUp oldsz
  · have hno : ∀ va, ¬GrowPage oldsz newsz va := fun va hva => by
      have := hva.1
      have := hva.2
      omega
    obtain ⟨ha, hd⟩ := userAlloc_nothing hround hle hempty s root
    refine .inl ⟨s, ha, fun va hva => absurd hva (hno va), fun va _ hva => absurd hva (hno va),
      fun _ _ => rfl, s, hd, fun _ => rfl, fun q => ⟨Or.inl, ?_⟩⟩
    rintro (hq | ⟨va, hva, -⟩)
    · exact hq
    · exact absurd hva (hno va)
  have hvals : userTop = 274877898752 ∧ maxVa = 274877906944 ∧ pgSize = 4096 ∧
    trapframeVa = 274877898752 := by decide
  have htop : pgRoundUp newsz ≤ userTop := by
    have := (hrange (pgRoundUp newsz - 1) ⟨by omega, by omega⟩).1
    omega
  have hfree : ∀ va, pgRoundUp oldsz ≤ va → va < pgRoundUp newsz →
      va < maxVa ∧ ¬isValid (s.leaf root va) := by
    intro va h₁ h₂
    have hlt : va < maxVa := by omega
    exact ⟨hlt, (h.mapping_none hw hlt).mp (hrange va ⟨h₁, h₂⟩).2⟩
  have hlt : ∀ va, pgRoundUp oldsz ≤ va → va < pgRoundUp newsz → va < maxVa :=
    fun va h₁ h₂ => (hfree va h₁ h₂).1
  rcases h.userAlloc hw (hround.trans htop) hle with
    ⟨s', hrun, hgrown⟩ | ⟨s', hrun, hin, hvalid⟩ | ⟨⟨va, hva, h₁, h₂, hv⟩, -⟩
  · obtain ⟨s'', hrun', hun, hback⟩ := hgrown.acts.space.userDealloc hgrown.acts.moves.wf
      (hround.trans htop) (hle.trans (hround.trans htop))
    have hsz : (if oldsz ≥ newsz then newsz else oldsz) = oldsz := by
      split
      · omega
      · rfl
    rw [hsz] at hrun'
    exact .inl ⟨s', hrun, fun va hva => hgrown.mapped hw (hlt va hva.1 hva.2) hva.1 hva.2,
      fun va va' hva hva' => hgrown.apart hlt hva.1 hva.2 hva'.1 hva'.2,
      fun va hva => hgrown.toActsIn.mapping h hw hva, s'', hrun',
      hgrown.undone h hw hfree hun hback⟩
  · obtain ⟨hmap, hframe⟩ := hin.unchanged h hw hfree hvalid
    exact .inr ⟨s', hrun, hmap, fun p hp => hin.returned h hframe hp⟩
  · exact absurd hv (hfree va h₁ h₂).2

theorem userAlloc_allOrNothing_onePage : ∃ s' s'',
    (oneProcess []).ram.userAlloc Task.twoPages.pagetable 0 4096 = .ok (4096, s') ∧
      s'.userDealloc Task.twoPages.pagetable 4096 0 = .ok (0, s'') ∧
      ∀ va, s''.mapping Task.twoPages.pagetable va =
        (oneProcess []).ram.mapping Task.twoPages.pagetable va := by
  have hready := Task.twoPages_ready.1
  have hnone : (oneProcess []).ram.mapping Task.twoPages.pagetable 0 = none := by decide +kernel
  have hrun : ((oneProcess []).ram.userAlloc Task.twoPages.pagetable 0 4096).toOption.map Prod.fst =
      some 4096 := by decide +kernel
  have hrange : ∀ va, GrowPage 0 4096 va → va < trapframeVa ∧
      (oneProcess []).ram.mapping Task.twoPages.pagetable va = none := by
    intro va hva
    have hlt : va < 4096 := hva.2
    have hvals : maxVa = 274877906944 ∧ trapframeVa = 274877898752 ∧ pgSize = 4096 := by decide
    refine ⟨by omega, ?_⟩
    rw [mapping_page _ _ (show 0 < maxVa by decide) (by omega) (by rw [hvals.2.2]; omega)]
    exact hnone
  rcases userAlloc_allOrNothing hready.space hready.wellFormed (by decide) (by decide) hrange with
    ⟨s', he, -, -, -, s'', he', hsame, -⟩ | ⟨s', he, -⟩
  · exact ⟨s', s'', he, he', hsame⟩
  · rw [he] at hrun
    have hzero : 0 = 4096 := Option.some.inj hrun
    exact absurd hzero (by decide)

end Growing

section Frames

/-- The nodes that the table does not have on the way to the first `n` pages from `a` on. -/
def missingNodes (s : MemAllocator) (root a n : ℕ) : Finset (List (Fin 512)) :=
  (Finset.range n).biUnion fun k =>
    (path (a + k * pgSize) 2).inits.toFinset.filter fun l => s.node root l = none

def growCost (s : MemAllocator) (root a n : ℕ) : ℕ := n + (s.missingNodes root a n).card

end Frames

section Outcome

def Unmapped (s : MemAllocator) (root a n : ℕ) : Prop :=
  ∀ k < n, s.mapping root (a + k * pgSize) = none

/-- The pages can be mapped: none is, and there are frames for them and for their nodes. -/
def Enough (s : MemAllocator) (root a n : ℕ) : Prop :=
  s.Unmapped root a n ∧ s.growCost root a n ≤ s.freeList.length

/-- The pages from `start` to `a` are not mapped, and all others are translated as before. -/
structure RollsBack (s s' : MemAllocator) (root start a : ℕ) : Prop where
  space : Space s' root
  wf : s'.WellFormed
  inside : ∀ va, start ≤ va → va < a → s'.mapping root va = none
  outside : ∀ va, ¬(start ≤ va ∧ va < a) → s'.mapping root va = s.mapping root va

variable {start : ℕ} {s₁ s₂ : MemAllocator}

theorem RollsBack.cons {perm : ℕ} (h : Space s root) (hw : s.WellFormed) (ha : a % pgSize = 0)
    (hmap : MapsPage s s₂ root a p perm) (hstart : start ≤ a) (hlt : a < maxVa)
    (hnone : s.mapping root a = none) (hback : RollsBack s₂ s' root start (a + pgSize)) :
    RollsBack s s' root start a where
  space := hback.space
  wf := hback.wf
  inside va h₁ h₂ := hback.inside va h₁ (by omega)
  outside va hout := by
    by_cases hva : a ≤ va ∧ va < a + pgSize
    · rw [hback.inside va (by omega) hva.2]
      have hpage := (samePage_iff ha va).mpr hva
      rw [mapping_page s root hlt ((page_lt hpage).mpr hlt) hpage, hnone]
    · rw [hback.outside va (by omega)]
      exact (hmap.actsIn ha).mapping h hw hva

end Outcome

end MemAllocator

open MemAllocator Hoare

variable {s s' : System} {n x : ℤ}

section Sizes

end Sizes

namespace System

def brk (s : System) : ℤ := s.myTask.task.sz

def uintBrk (s : System) : ℕ := (s.brk % 2 ^ 32).toNat

def askedBrk (s : System) (n : ℤ) : ℕ := ((s.brk + n) % 2 ^ 32).toNat

def askedPages (s : System) (n : ℤ) : ℕ :=
  (pgRoundUp (s.askedBrk n) - pgRoundUp s.uintBrk) / pgSize

/-- A request that grows the task finds its pages free and has frames for them, or it shrinks
the task. -/
def Takes (s : System) (n : ℤ) : Prop :=
  (0 < n ∧ s.uintBrk < s.askedBrk n ∧
    s.ram.Enough s.myTask.task.pagetable (pgRoundUp s.uintBrk) (s.askedPages n)) ∨
  (n < 0 ∧ s.askedBrk n < s.uintBrk)

end System

section Reports

variable (h : s.Faultable) (hsz : -2 ^ 31 ≤ s.brk ∧ s.brk < 2 ^ 31)
include h hsz

end Reports

end StartOS
