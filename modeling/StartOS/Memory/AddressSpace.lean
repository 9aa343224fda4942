import Mathlib.Data.Set.Basic
import StartOS.Memory.PageMap

/-! # Address spaces

A page table with the frames of its user pages. An operation moves frames
between an address space and the free list and writes to no other frame, so
address spaces that share no frame do not see each other.
-/

namespace StartOS

/-- `TRAPFRAME`: the pages from here on belong to the kernel. -/
def userTop : ℕ := maxVa - 2 * pgSize

namespace MemAllocator

open RadixTree

variable {s s' s'' : MemAllocator} {root root' va va' p q n v x : ℕ} {i : Fin 512}
  {l : List (Fin 512)} {O O' O'' : Set ℕ}

theorem IsPage.disjoint (hp : s.IsPage p) (hq : s'.IsPage q) (hne : p ≠ q) (hx : p ≤ x)
    (hx' : x < p + pgSize) : x < q ∨ q + pgSize ≤ x := by
  have := hp.aligned
  have := hq.aligned
  simp only [pgSize] at *
  omega

theorem IsPage.of_kend (h : s.IsPage p) (hk : s'.kend = s.kend) : s'.IsPage p :=
  ⟨h.aligned, hk ▸ h.kend_le, h.lt_top⟩

theorem pteAddr_mem (i : Fin 512) (hx : pteAddr n i ≤ x) (hx' : x < pteAddr n i + 8) :
    n ≤ x ∧ x < n + pgSize := by
  have := i.isLt
  simp only [pteAddr, pgSize] at *
  omega

def userFrame (s : MemAllocator) (root va : ℕ) : Option ℕ :=
  if isValid (s.leaf root va) ∧ s.leaf root va &&& pteU ≠ 0 then some (pte2pa (s.leaf root va))
  else none

/-- A page table whose user pages have frames of their own. The pages of the kernel are at the
top, every entry gives some access, and the upper half of the root, which no address below
`MAXVA` leads to, is not used. -/
structure Space (s : MemAllocator) (root : ℕ) : Prop where
  table : Table s root
  isPage : ∀ va < maxVa, ∀ p, s.userFrame root va = some p → s.IsPage p
  taken : ∀ va < maxVa, ∀ p, s.userFrame root va = some p → p ∉ s.freeList
  notNode : ∀ va < maxVa, ∀ p, s.userFrame root va = some p →
    ∀ l : List (Fin 512), l.length ≤ 2 → s.node root l ≠ some p
  inj : ∀ va < maxVa, ∀ va' < maxVa, ∀ p, s.userFrame root va = some p →
    s.userFrame root va' = some p → va / pgSize = va' / pgSize
  access : ∀ va < maxVa, isValid (s.leaf root va) →
    s.leaf root va &&& (pteR ||| pteW ||| pteX) ≠ 0
  kernel : ∀ va < maxVa, isValid (s.leaf root va) → s.userFrame root va = none → userTop ≤ va
  below : ∀ va < maxVa, ∀ p, s.userFrame root va = some p → va < userTop
  upper : ∀ i : Fin 512, 256 ≤ (i : ℕ) → ¬isValid (s.pteAt (pteAddr root i))

def footprint (s : MemAllocator) (root : ℕ) : Set ℕ :=
  {p | (∃ l : List (Fin 512), l.length ≤ 2 ∧ s.node root l = some p) ∨
    ∃ va < maxVa, s.userFrame root va = some p}

theorem Space.footprint_isPage (h : Space s root) (hp : p ∈ s.footprint root) : s.IsPage p := by
  rcases hp with ⟨l, hl, hn⟩ | ⟨va, hva, hf⟩
  · exact h.table.isPage l p hl hn
  · exact h.isPage va hva p hf

theorem Space.footprint_taken (h : Space s root) (hp : p ∈ s.footprint root) :
    p ∉ s.freeList := by
  rcases hp with ⟨l, hl, hn⟩ | ⟨va, hva, hf⟩
  · exact h.table.taken l p hl hn
  · exact h.taken va hva p hf

theorem leaf_congr (hn : s'.node root (path va 2) = s.node root (path va 2))
    (ha : ∀ n i, s.node root (path va 2) = some n →
      s'.pteAt (pteAddr n i) = s.pteAt (pteAddr n i)) : s'.leaf root va = s.leaf root va := by
  cases hs : s.node root (path va 2) with
  | none => rw [leaf_of_none hs, leaf_of_none (hn.trans hs)]
  | some n => rw [leaf_of_node hs, leaf_of_node (hn.trans hs), ha n _ hs]

/-- What the memory says about a table depends on the frames of its nodes. -/
theorem node_agree (hmem : ∀ l n, l.length ≤ 2 → s.node root l = some n →
      ∀ x, n ≤ x → x < n + pgSize → s'.mem x = s.mem x) :
    (∀ l, l.length ≤ 2 → s'.node root l = s.node root l) ∧
      (∀ l n i, l.length ≤ 2 → s.node root l = some n →
        s'.pteAt (pteAddr n i) = s.pteAt (pteAddr n i)) ∧
      ∀ va, s'.leaf root va = s.leaf root va := by
  have hat : ∀ l n i, l.length ≤ 2 → s.node root l = some n →
      s'.pteAt (pteAddr n i) = s.pteAt (pteAddr n i) := by
    intro l n i hl hn
    apply ByteMem.readLE_congr
    intro x hx hx'
    obtain ⟨h₁, h₂⟩ := pteAddr_mem i hx hx'
    exact hmem l n hl hn x h₁ h₂
  have hnode : ∀ l, l.length ≤ 2 → s'.node root l = s.node root l := by
    intro l hl
    apply follow_congr hl
    intro k n i hk hn
    unfold child
    rw [hat k n i hk.le hn]
  have hl2 : ∀ va, (path va 2).length ≤ 2 := fun va => by simp [path]
  exact ⟨hnode, hat, fun va => leaf_congr (hnode _ (hl2 va)) fun n i hn => hat _ n i (hl2 va) hn⟩

theorem userFrame_congr (h : s'.leaf root va = s.leaf root va) :
    s'.userFrame root va = s.userFrame root va := by
  unfold userFrame
  rw [h]

theorem footprint_congr (hn : ∀ l : List (Fin 512), l.length ≤ 2 → s'.node root l = s.node root l)
    (hl : ∀ va < maxVa, s'.leaf root va = s.leaf root va) :
    s'.footprint root = s.footprint root := by
  ext p
  constructor
  · rintro (⟨l, hlen, h⟩ | ⟨va, hva, h⟩)
    · exact Or.inl ⟨l, hlen, (hn l hlen).symm.trans h⟩
    · exact Or.inr ⟨va, hva, (userFrame_congr (hl va hva)).symm.trans h⟩
  · rintro (⟨l, hlen, h⟩ | ⟨va, hva, h⟩)
    · exact Or.inl ⟨l, hlen, (hn l hlen).trans h⟩
    · exact Or.inr ⟨va, hva, (userFrame_congr (hl va hva)).trans h⟩

theorem Space.of_agree (h : Space s root) (hk : s'.kend = s.kend)
    (hfree : ∀ p ∈ s.footprint root, p ∉ s'.freeList)
    (hmem : ∀ l n, l.length ≤ 2 → s.node root l = some n →
      ∀ x, n ≤ x → x < n + pgSize → s'.mem x = s.mem x) :
    Space s' root ∧ s'.footprint root = s.footprint root ∧
      ∀ va, s'.leaf root va = s.leaf root va := by
  obtain ⟨hnode, hat, hleaf⟩ := node_agree hmem
  have hframe : ∀ va, s'.userFrame root va = s.userFrame root va := fun va =>
    userFrame_congr (hleaf va)
  refine ⟨⟨⟨?_, ?_, ?_, ?_⟩, ?_, ?_, ?_, ?_, ?_, ?_, ?_, ?_⟩,
    footprint_congr hnode fun va _ => hleaf va, hleaf⟩
  · intro l l' p hl hl' hp hp'
    exact h.table.unshared l l' p hl hl' ((hnode l hl).symm.trans hp) ((hnode l' hl').symm.trans hp')
  · intro l n hl hn
    exact (h.table.isPage l n hl ((hnode l hl).symm.trans hn)).of_kend hk
  · intro l n hl hn
    exact hfree n (Or.inl ⟨l, hl, (hnode l hl).symm.trans hn⟩)
  · intro l n i hl hn hv
    have hn' := (hnode l hl.le).symm.trans hn
    rw [hat l n i hl.le hn'] at hv ⊢
    exact h.table.interior l n i hl hn' hv
  · intro va hva p hp
    exact (h.isPage va hva p ((hframe va).symm.trans hp)).of_kend hk
  · intro va hva p hp
    exact hfree p (Or.inr ⟨va, hva, (hframe va).symm.trans hp⟩)
  · intro va hva p hp l hl hn
    exact h.notNode va hva p ((hframe va).symm.trans hp) l hl ((hnode l hl).symm.trans hn)
  · intro va hva va' hva' p hp hp'
    exact h.inj va hva va' hva' p ((hframe va).symm.trans hp) ((hframe va').symm.trans hp')
  · intro va hva hv
    rw [hleaf] at hv ⊢
    exact h.access va hva hv
  · intro va hva hv hnone
    rw [hleaf] at hv
    rw [hframe] at hnone
    exact h.kernel va hva hv hnone
  · intro va hva p hp
    exact h.below va hva p ((hframe va).symm.trans hp)
  · intro i hi
    rw [hat [] root i (by simp) rfl]
    exact h.upper i hi

/-- An operation whose frames are `O` before and `O'` after. It takes frames from the free list
and gives frames back, and writes to frames of its own and free ones only. -/
structure Moves (s s' : MemAllocator) (O O' : Set ℕ) : Prop where
  wf : s'.WellFormed
  kend : s'.kend = s.kend
  frames : ∀ p, p ∈ O' ∨ p ∈ s'.freeList → p ∈ O ∨ p ∈ s.freeList
  apart : ∀ p ∈ O', p ∉ s'.freeList
  mem : ∀ x, (∀ p, p ∈ O ∨ p ∈ s.freeList → x < p ∨ p + pgSize ≤ x) → s'.mem x = s.mem x

def Kept (s s' : MemAllocator) (O O' : Set ℕ) : Prop :=
  ∀ p, p ∈ O ∨ p ∈ s.freeList → p ∈ O' ∨ p ∈ s'.freeList

theorem Kept.trans (h : Kept s s' O O') (h' : Kept s' s'' O' O'') : Kept s s'' O O'' :=
  fun p hp => h' p (h p hp)

namespace Moves

theorem refl (hw : s.WellFormed) (h : ∀ p ∈ O, p ∉ s.freeList) : Moves s s O O :=
  ⟨hw, rfl, fun _ hp => hp, h, fun _ _ => rfl⟩

theorem trans (h : Moves s s' O O') (h' : Moves s' s'' O' O'') : Moves s s'' O O'' where
  wf := h'.wf
  kend := h'.kend.trans h.kend
  frames p hp := h.frames p (h'.frames p hp)
  apart := h'.apart
  mem x hx := (h'.mem x fun p hp => hx p (h.frames p hp)).trans (h.mem x hx)

theorem mem_frame (h : Moves s s' O O') (hO : ∀ q ∈ O, s.IsPage q) (hw : s.WellFormed)
    (hp : s.IsPage p) (hpO : p ∉ O) (hpf : p ∉ s.freeList) (hx : p ≤ x) (hx' : x < p + pgSize) :
    s'.mem x = s.mem x := by
  apply h.mem
  rintro q (hq | hq)
  · exact hp.disjoint (hO q hq) (fun he => hpO (he ▸ hq)) hx hx'
  · exact hp.disjoint (hw.isPage q hq) (fun he => hpf (he ▸ hq)) hx hx'

theorem frame (h : Moves s s' O O') (hO : ∀ q ∈ O, s.IsPage q) (hw : s.WellFormed)
    (hs : Space s root) (hd : ∀ p ∈ s.footprint root, p ∉ O) :
    Space s' root ∧ s'.footprint root = s.footprint root ∧
      (∀ va, s'.leaf root va = s.leaf root va) ∧
      ∀ p ∈ s.footprint root, ∀ x, p ≤ x → x < p + pgSize → s'.mem x = s.mem x := by
  have hmem : ∀ p ∈ s.footprint root, ∀ x, p ≤ x → x < p + pgSize → s'.mem x = s.mem x :=
    fun p hp x hx hx' => h.mem_frame hO hw (hs.footprint_isPage hp) (hd p hp)
      (hs.footprint_taken hp) hx hx'
  have hfree : ∀ p ∈ s.footprint root, p ∉ s'.freeList := by
    intro p hp hf
    rcases h.frames p (Or.inr hf) with hp' | hp'
    · exact hd p hp hp'
    · exact hs.footprint_taken hp hp'
  obtain ⟨h₁, h₂, h₃⟩ := hs.of_agree h.kend hfree fun l n hl hn => hmem n (Or.inl ⟨l, hl, hn⟩)
  exact ⟨h₁, h₂, h₃, hmem⟩

end Moves

structure Acts (s s' : MemAllocator) (root : ℕ) : Prop where
  space : Space s' root
  moves : Moves s s' (s.footprint root) (s'.footprint root)

namespace Acts

theorem refl (hw : s.WellFormed) (h : Space s root) : Acts s s root :=
  ⟨h, .refl hw fun _ hp => h.footprint_taken hp⟩

theorem trans (h : Acts s s' root) (h' : Acts s' s'' root) : Acts s s'' root :=
  ⟨h'.space, h.moves.trans h'.moves⟩

end Acts

def KeptIn (s s' : MemAllocator) (root : ℕ) : Prop :=
  Kept s s' (s.footprint root) (s'.footprint root)

theorem Space.write (h : Space s root) (hw : s.WellFormed) (hva : va < maxVa)
    (hp : s.userFrame root va = some p) {m : ByteMem}
    (hm : ∀ x, x < p ∨ p + pgSize ≤ x → m x = s.mem x) :
    Acts s { s with mem := m } root ∧ KeptIn s { s with mem := m } root ∧
      ∀ va, ({ s with mem := m } : MemAllocator).leaf root va = s.leaf root va := by
  have hnode : ∀ l n, l.length ≤ 2 → s.node root l = some n → ∀ x, n ≤ x → x < n + pgSize →
      m x = s.mem x := by
    intro l n hl hn x hx hx'
    apply hm
    refine (h.table.isPage l n hl hn).disjoint (h.isPage va hva p hp) ?_ hx hx'
    rintro rfl
    exact h.notNode va hva n hp l hl hn
  obtain ⟨hs, hfoot, hleaf⟩ := h.of_agree
    (show ({ s with mem := m } : MemAllocator).kend = s.kend from rfl)
    (fun q hq => h.footprint_taken hq) hnode
  refine ⟨⟨hs, ⟨hw.kend_pos, hw.nodup, fun q hq => (hw.isPage q hq).of_kend rfl⟩, rfl, ?_, ?_, ?_⟩,
    ?_, hleaf⟩
  · intro q hq
    rw [hfoot] at hq
    exact hq
  · intro q hq
    rw [hfoot] at hq
    exact h.footprint_taken hq
  · intro x hx
    exact hm x (hx p (Or.inl (Or.inr ⟨va, hva, hp⟩)))
  · intro q hq
    rw [hfoot]
    exact hq

end MemAllocator

end StartOS
