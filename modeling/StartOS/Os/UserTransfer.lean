import StartOS.Os.UserCopy

/-! # Copies through any page table

`copyout` and `copyin` translate each page of the range by `walkAddr`. Where the
pages of a program have frames of their own the translation is injective, and
the copies are stores and loads of single bytes through it.
-/

namespace StartOS

namespace MemAllocator

open RadixTree

variable {s s' s'' : MemAllocator} {root va va' a i j k m n p x len fuel : ℕ} {src f : ℕ → UInt8}
  {mem : ByteMem} {dst : List UInt8}

/-- The entry for `va` has `PTE_V` and `PTE_U`, and `va` is below `MAXVA`. -/
def Accessible (s : MemAllocator) (root va : ℕ) : Prop :=
  va < maxVa ∧ isValid (s.walkPte root va) ∧ s.walkPte root va &&& pteU ≠ 0

/-- The frame `walkAddr` finds for `va`. A frame at address 0 is taken for none. -/
def userPage (s : MemAllocator) (root va : ℕ) : Option ℕ :=
  let pte := s.walkPte root va
  if va < maxVa ∧ isValid pte ∧ pte &&& pteU ≠ 0 ∧ pte2pa pte ≠ 0 then some (pte2pa pte) else none

def image (s : MemAllocator) (root va : ℕ) : Option ℕ := (s.userPage root va).map (· + va % pgSize)

/-- A page table whose user pages have frames of their own: no frame is null, none holds a node of
the table and none belongs to two pages. -/
structure PagesApart (s : MemAllocator) (root : ℕ) : Prop where
  table : Table s root
  frame_ne_zero : ∀ va, s.Accessible root va → pte2pa (s.walkPte root va) ≠ 0
  notNode : ∀ va, s.Accessible root va →
    ∀ l : List (Fin 512), l.length ≤ 2 → s.node root l ≠ some (pte2pa (s.walkPte root va))
  inj : ∀ va va', s.Accessible root va → s.Accessible root va' →
    pte2pa (s.walkPte root va) = pte2pa (s.walkPte root va') → va / pgSize = va' / pgSize

section Translation

theorem walkPte_eq_follow (s : MemAllocator) (root : ℕ) (hva : va < maxVa) :
    s.walkPte root va = match s.node root (path va 2) with
      | none => 0
      | some n => if pteAddr n (px 0 va) = 0 then 0 else s.pteAt (pteAddr n (px 0 va)) := by
  rw [walkPte, walk, if_neg (by omega), walkFrom_false]
  unfold node
  cases follow s.child root (path va 2) with
  | none => rfl
  | some n => rfl

theorem walkPte_page (s : MemAllocator) (root : ℕ) (hva : va < maxVa) (hva' : va' < maxVa)
    (h : va' / pgSize = va / pgSize) : s.walkPte root va' = s.walkPte root va := by
  obtain ⟨hpath, hpx⟩ := (path_eq_iff hva hva').mpr h
  rw [walkPte_eq_follow s root hva, walkPte_eq_follow s root hva', hpath, hpx]

theorem page_lt (h : va' / pgSize = va / pgSize) : va' < maxVa ↔ va < maxVa := by
  have hvals : maxVa = 274877906944 ∧ pgSize = 4096 := by decide
  rw [hvals.2] at h
  omega

theorem userPage_page (s : MemAllocator) (root : ℕ) (h : va' / pgSize = va / pgSize) :
    s.userPage root va' = s.userPage root va := by
  unfold userPage
  by_cases hva : va < maxVa
  · have hva' := (page_lt h).mpr hva
    rw [walkPte_page s root hva hva' h]
    simp only [hva, hva']
  · have hva' := (page_lt h).not.mpr hva
    simp only [hva, hva', false_and, if_false]

theorem walkAddr_eq_walkPte (s : MemAllocator) (root : ℕ) (hva : va < maxVa) :
    s.walkAddr root va = .ok (if !isValid (s.walkPte root va) then 0
      else if s.walkPte root va &&& pteU = 0 then 0 else pte2pa (s.walkPte root va)) := by
  have hzero : (if !isValid 0 then 0 else if 0 &&& pteU = 0 then 0 else pte2pa 0) = 0 := by decide
  rw [walkAddr, if_neg (by omega), walkPte_eq_follow s root hva, walk, if_neg (by omega),
    walkFrom_false, Kernel.ok_bind]
  unfold node
  cases follow s.child root (path va 2) with
  | none => exact congrArg Except.ok hzero.symm
  | some n =>
    dsimp only
    by_cases he : pteAddr n (px 0 va) = 0
    · simp only [if_pos he]
      exact congrArg Except.ok hzero.symm
    · simp only [if_neg he, apply_ite Except.ok, Kernel.pure_eq]

theorem walkAddr_eq_userPage (s : MemAllocator) (root va : ℕ) :
    s.walkAddr root va = .ok ((s.userPage root va).getD 0) := by
  by_cases hva : va < maxVa
  · rw [walkAddr_eq_walkPte s root hva, userPage]
    generalize s.walkPte root va = pte
    simp only [hva, true_and]
    by_cases hv : isValid pte
    swap
    · rw [if_pos (by simpa using hv), if_neg fun hc => hv hc.1]
      rfl
    rw [if_neg (by simpa using hv)]
    by_cases hu : pte &&& pteU = 0
    · rw [if_pos hu, if_neg fun hc => hc.2.1 hu]
      rfl
    rw [if_neg hu]
    by_cases hp : pte2pa pte = 0
    · rw [if_neg fun hc => hc.2.2 hp, hp]
      rfl
    · rw [if_pos ⟨hv, hu, hp⟩]
      rfl
  · rw [walkAddr, if_pos (by omega), userPage]
    simp only [hva, false_and, if_false]
    rfl

theorem userPage_some : s.userPage root va = some p ↔
    s.Accessible root va ∧ p = pte2pa (s.walkPte root va) ∧ p ≠ 0 := by
  unfold userPage Accessible
  dsimp only
  split
  · rename_i h
    rw [Option.some.injEq]
    constructor
    · rintro rfl
      exact ⟨⟨h.1, h.2.1, h.2.2.1⟩, rfl, h.2.2.2⟩
    · rintro ⟨-, rfl, -⟩
      rfl
  · rename_i h
    constructor
    · intro hc
      cases hc
    · rintro ⟨⟨h₁, h₂, h₃⟩, rfl, h₄⟩
      exact absurd ⟨h₁, h₂, h₃, h₄⟩ h

theorem userPage_aligned (h : s.userPage root va = some p) : p % pgSize = 0 := by
  obtain ⟨-, rfl, -⟩ := userPage_some.mp h
  unfold pte2pa
  rw [show pgSize = 4096 from rfl]
  omega

theorem image_some : s.image root va = some x ↔
    ∃ p, s.userPage root va = some p ∧ p + va % pgSize = x := Option.map_eq_some_iff

end Translation

namespace PagesApart

variable (h : PagesApart s root)
include h

theorem userPage_of_accessible (ha : s.Accessible root va) :
    s.userPage root va = some (pte2pa (s.walkPte root va)) :=
  userPage_some.mpr ⟨ha, rfl, h.frame_ne_zero va ha⟩

theorem userPage_none : s.userPage root va = none ↔ ¬s.Accessible root va := by
  constructor
  · intro hn ha
    rw [h.userPage_of_accessible ha] at hn
    cases hn
  · intro ha
    cases hp : s.userPage root va with
    | none => rfl
    | some p => exact absurd (userPage_some.mp hp).1 ha

theorem userPage_inj (hp : s.userPage root va = some p) (hp' : s.userPage root va' = some p) :
    va / pgSize = va' / pgSize := by
  obtain ⟨ha, rfl, -⟩ := userPage_some.mp hp
  obtain ⟨ha', he, -⟩ := userPage_some.mp hp'
  exact h.inj va va' ha ha' he

theorem image_inj (hx : s.image root va = some x) (hx' : s.image root va' = some x) : va = va' := by
  obtain ⟨p, hp, rfl⟩ := image_some.mp hx
  obtain ⟨p', hp', he⟩ := image_some.mp hx'
  have ha := userPage_aligned hp
  have ha' := userPage_aligned hp'
  have hmod : va % pgSize < pgSize ∧ va' % pgSize < pgSize :=
    ⟨Nat.mod_lt _ (by decide), Nat.mod_lt _ (by decide)⟩
  have hpage : p' = p := by
    simp only [pgSize] at *
    omega
  subst hpage
  have hdiv := h.userPage_inj hp hp'
  simp only [pgSize] at *
  omega

theorem store (hp : s.userPage root va = some p)
    (hm : ∀ x, x < p ∨ p + pgSize ≤ x → mem x = s.mem x) :
    PagesApart { s with mem := mem } root ∧
      ∀ a, ({ s with mem := mem } : MemAllocator).walkPte root a = s.walkPte root a := by
  obtain ⟨ha, hpe, -⟩ := userPage_some.mp hp
  have halign := userPage_aligned hp
  have hmem : ∀ l n, l.length ≤ 2 → s.node root l = some n → ∀ x, n ≤ x → x < n + pgSize →
      ({ s with mem := mem } : MemAllocator).mem x = s.mem x := by
    intro l n hl hn x hx hx'
    have hne : n ≠ p := by
      rintro rfl
      exact h.notNode va ha l hl (hpe ▸ hn)
    have hn' := (h.table.isPage l n hl hn).aligned
    apply hm
    simp only [pgSize] at *
    omega
  obtain ⟨hnode, hat, -⟩ := node_agree hmem
  have hlen : ∀ a, (path a 2).length ≤ 2 := fun a => by simp [path]
  have hpte : ∀ a, ({ s with mem := mem } : MemAllocator).walkPte root a = s.walkPte root a := by
    intro a
    by_cases hlt : a < maxVa
    · rw [walkPte_eq_follow _ root hlt, walkPte_eq_follow s root hlt, hnode _ (hlen a)]
      cases hn : s.node root (path a 2) with
      | none => rfl
      | some n => exact if_congr Iff.rfl rfl (hat _ n _ (hlen a) hn)
    · unfold walkPte walk
      rw [if_pos (by omega), if_pos (by omega)]
  have hacc : ∀ a, ({ s with mem := mem } : MemAllocator).Accessible root a ↔
      s.Accessible root a := by
    intro a
    unfold Accessible
    rw [hpte]
  refine ⟨⟨⟨?_, ?_, ?_, ?_⟩, ?_, ?_, ?_⟩, hpte⟩
  · intro l l' q hl hl' hq hq'
    exact h.table.unshared l l' q hl hl' ((hnode l hl).symm.trans hq) ((hnode l' hl').symm.trans hq')
  · intro l n hl hn
    exact (h.table.isPage l n hl ((hnode l hl).symm.trans hn)).of_kend rfl
  · intro l n hl hn
    exact h.table.taken l n hl ((hnode l hl).symm.trans hn)
  · intro l n i hl hn hv
    have hn' := (hnode l hl.le).symm.trans hn
    rw [hat l n i hl.le hn'] at hv ⊢
    exact h.table.interior l n i hl hn' hv
  · intro a ha
    rw [hpte]
    exact h.frame_ne_zero a ((hacc a).mp ha)
  · intro a ha l hl
    rw [hpte, hnode l hl]
    exact h.notNode a ((hacc a).mp ha) l hl
  · intro a a' ha ha' he
    rw [hpte, hpte] at he
    exact h.inj a a' ((hacc a).mp ha) ((hacc a').mp ha') he

end PagesApart

theorem image_congr (h : ∀ a, s'.walkPte root a = s.walkPte root a) (a : ℕ) :
    s'.image root a = s.image root a := by
  unfold image userPage
  rw [h]

/-- The first `m` bytes of `f` have been put at the addresses of a program from `va` on. -/
structure CopiedOut (s s' : MemAllocator) (root va m : ℕ) (f : ℕ → UInt8) : Prop where
  same : s' = { s with mem := s'.mem }
  pte : ∀ a, s'.walkPte root a = s.walkPte root a
  bytes : ∀ j < m, ∃ x, s.image root (va + j) = some x ∧ s'.mem x = f j
  others : ∀ x, (∀ j < m, s.image root (va + j) ≠ some x) → s'.mem x = s.mem x

namespace CopiedOut

theorem refl (s : MemAllocator) (root va : ℕ) (f : ℕ → UInt8) : CopiedOut s s root va 0 f :=
  ⟨rfl, fun _ => rfl, fun j hj => absurd hj (Nat.not_lt_zero j), fun _ _ => rfl⟩

theorem accessible (h : CopiedOut s s' root va m f) (hj : j < m) : s.Accessible root (va + j) := by
  obtain ⟨x, hx, -⟩ := h.bytes j hj
  obtain ⟨p, hp, -⟩ := image_some.mp hx
  exact (userPage_some.mp hp).1

theorem append (hs : PagesApart s root) (h : CopiedOut s s' root va m f)
    (h' : CopiedOut s' s'' root (va + m) k fun j => f (m + j)) :
    CopiedOut s s'' root va (m + k) f where
  same := by rw [h'.same, h.same]
  pte a := (h'.pte a).trans (h.pte a)
  bytes j hj := by
    by_cases hjm : j < m
    · obtain ⟨x, hx, hb⟩ := h.bytes j hjm
      refine ⟨x, hx, (h'.others x fun i _ hi => ?_).trans hb⟩
      rw [image_congr h.pte] at hi
      have := hs.image_inj hx hi
      omega
    · obtain ⟨x, hx, hb⟩ := h'.bytes (j - m) (by omega)
      rw [image_congr h.pte, show va + m + (j - m) = va + j by omega] at hx
      rw [show m + (j - m) = j by omega] at hb
      exact ⟨x, hx, hb⟩
  others x hx := by
    have hleft : s'.mem x = s.mem x := h.others x fun j hj => hx j (by omega)
    rw [← hleft]
    apply h'.others
    intro j hj
    rw [image_congr h.pte, Nat.add_assoc]
    exact hx (m + j) (by omega)

end CopiedOut

section Loops

theorem pgRoundDown_div (va : ℕ) : pgRoundDown va / pgSize = va / pgSize := by
  unfold pgRoundDown
  rw [show pgSize = 4096 from rfl]
  omega

theorem sub_pgRoundDown (va : ℕ) : va - pgRoundDown va = va % pgSize := by
  unfold pgRoundDown
  rw [show pgSize = 4096 from rfl]
  omega

theorem image_of_userPage (hp : s.userPage root va = some p) (hj : va % pgSize + j < pgSize) :
    s.image root (va + j) = some (p + va % pgSize + j) := by
  rw [show pgSize = 4096 from rfl] at hj
  refine image_some.mpr ⟨p, ?_, ?_⟩
  · have hsame : (va + j) / pgSize = va / pgSize := by
      rw [show pgSize = 4096 from rfl]
      omega
    exact (userPage_page s root hsame).trans hp
  · rw [show pgSize = 4096 from rfl]
    omega

/-- A store of a run of bytes that ends with the page or before. -/
theorem PagesApart.copyPiece (h : PagesApart s root) (hp : s.userPage root va = some p)
    (hn : va % pgSize + n ≤ pgSize) :
    PagesApart { s with mem := s.mem.blit (p + va % pgSize) n f } root ∧
      CopiedOut s { s with mem := s.mem.blit (p + va % pgSize) n f } root va n f := by
  have hout : ∀ x, x < p ∨ p + pgSize ≤ x → s.mem.blit (p + va % pgSize) n f x = s.mem x :=
    fun x hx => ByteMem.blit_of_not_mem (by omega)
  obtain ⟨happ, hpte⟩ := h.store hp hout
  refine ⟨happ, rfl, hpte, fun j hj => ?_, fun x hx => ?_⟩
  · refine ⟨p + va % pgSize + j, image_of_userPage hp (by omega), ?_⟩
    refine (ByteMem.blit_of_mem (by omega) (by omega)).trans (congrArg f ?_)
    omega
  · apply ByteMem.blit_of_not_mem
    by_contra hc
    apply hx (x - (p + va % pgSize)) (by omega)
    rw [image_of_userPage hp (by omega)]
    congr 1
    omega

theorem lt_maxVa_of_userPage (hp : s.userPage root va = some p) : va < maxVa :=
  (userPage_some.mp hp).1.1

/-- The loop of `copyout`: bytes are copied up to the first address that is not accessible. -/
theorem PagesApart.copyoutFrom (h : PagesApart s root) (src : ℕ → UInt8) (vdst i len : ℕ)
    (hfuel : len < fuel) :
    ∃ r s' m, copyoutFrom root src fuel s vdst i len = .ok (r, s') ∧ m ≤ len ∧
      CopiedOut s s' root vdst m (fun j => src (i + j)) ∧
      ((r = 0 ∧ m = len) ∨ (r = -1 ∧ m < len ∧ s.userPage root (vdst + m) = none)) := by
  induction fuel generalizing s vdst i len with
  | zero => exact absurd hfuel (Nat.not_lt_zero _)
  | succ fuel ih =>
    rw [MemAllocator.copyoutFrom]
    by_cases hlen : len = 0
    · subst hlen
      exact ⟨0, s, 0, rfl, le_rfl, .refl .., .inl ⟨rfl, rfl⟩⟩
    rw [if_neg hlen]
    dsimp only
    rw [walkAddr_eq_userPage, userPage_page s root (pgRoundDown_div vdst), Kernel.ok_bind,
      sub_pgRoundDown]
    cases hp : s.userPage root vdst with
    | none => exact ⟨-1, s, 0, rfl, Nat.zero_le _, .refl .., .inr ⟨rfl, by omega, hp⟩⟩
    | some p =>
      have hne : p ≠ 0 := (userPage_some.mp hp).2.2
      have hlt := lt_maxVa_of_userPage hp
      have hmod : vdst % pgSize < pgSize := Nat.mod_lt _ (by decide)
      have hvals : maxVa = 274877906944 ∧ pgSize = 4096 := by decide
      rw [Option.getD_some, if_neg hne]
      obtain ⟨n, hn⟩ : ∃ n, n = min (pgSize - vdst % pgSize) len := ⟨_, rfl⟩
      rw [← hn]
      obtain ⟨happ, hpiece⟩ := h.copyPiece (f := fun j => src (i + j)) hp
        (show vdst % pgSize + n ≤ pgSize by omega)
      rw [Nat.mod_eq_of_lt (show vdst + n < 2 ^ 64 by omega)]
      obtain ⟨r, s', m, hrun, hm, hcopy, hres⟩ := ih happ (vdst + n) (i + n) (len - n) (by omega)
      simp only [Nat.add_assoc i n] at hcopy
      refine ⟨r, s', n + m, hrun, by omega, hpiece.append h hcopy, ?_⟩
      rcases hres with ⟨rfl, hm'⟩ | ⟨rfl, hm', hnone⟩
      · exact .inl ⟨rfl, by omega⟩
      · refine .inr ⟨rfl, by omega, ?_⟩
        unfold userPage at hnone ⊢
        rw [hpiece.pte, Nat.add_assoc] at hnone
        exact hnone

theorem copyinFrom_eq (y : ℕ → ℕ) (vsrc len : ℕ) (dst : List UInt8)
    (h : ∀ j < len, s.image root (vsrc + j) = some (y j)) (hfuel : len < fuel) :
    s.copyinFrom root fuel vsrc len dst =
      .ok (0, dst ++ (List.range len).map fun j => s.mem (y j)) := by
  induction fuel generalizing vsrc len dst y with
  | zero => exact absurd hfuel (Nat.not_lt_zero _)
  | succ fuel ih =>
    rw [copyinFrom]
    by_cases hlen : len = 0
    · subst hlen
      exact congrArg Except.ok (congrArg (Prod.mk 0) (List.append_nil dst).symm)
    rw [if_neg hlen]
    dsimp only
    obtain ⟨p, hp, -⟩ := image_some.mp (h 0 (by omega))
    rw [Nat.add_zero] at hp
    rw [walkAddr_eq_userPage, userPage_page s root (pgRoundDown_div vsrc), Kernel.ok_bind,
      sub_pgRoundDown, hp, Option.getD_some, if_neg (userPage_some.mp hp).2.2]
    have hlt := lt_maxVa_of_userPage hp
    have hmod : vsrc % pgSize < pgSize := Nat.mod_lt _ (by decide)
    have hvals : maxVa = 274877906944 ∧ pgSize = 4096 := by decide
    obtain ⟨n, hn⟩ : ∃ n, n = min (pgSize - vsrc % pgSize) len := ⟨_, rfl⟩
    rw [← hn, Nat.mod_eq_of_lt (show vsrc + n < 2 ^ 64 by omega),
      ih (fun j => y (n + j)) (vsrc + n) (len - n) _ (fun j hj => ?_) (by omega)]
    · have hpiece : ∀ j ∈ List.range n, s.mem (p + vsrc % pgSize + j) = s.mem (y j) := by
        intro j hj
        have hj' := List.mem_range.mp hj
        have hy := h j (by omega)
        rw [image_of_userPage hp (by omega)] at hy
        exact congrArg s.mem (Option.some.inj hy)
      rw [List.append_assoc, List.map_congr_left hpiece]
      obtain ⟨k, rfl⟩ : ∃ k, len = n + k := ⟨len - n, by omega⟩
      rw [Nat.add_sub_cancel_left, List.range_add, List.map_append, List.map_map]
      rfl
    · rw [Nat.add_assoc]
      exact h (n + j) (by omega)

theorem CopiedOut.copyin {bytes : List UInt8}
    (h : CopiedOut s s' root va bytes.length fun j => bytes.getD j 0) :
    s'.copyin root va bytes.length = .ok (0, bytes) := by
  have hbytes := h.bytes
  choose! y hy hb using hbytes
  have hread : (List.range bytes.length).map (fun j => s'.mem (y j)) = bytes := by
    apply List.ext_getElem (by simp)
    intro j hj hj'
    rw [List.getElem_map, List.getElem_range, hb j hj', List.getD_eq_getElem _ _ hj']
  refine (copyinFrom_eq y va bytes.length [] (fun j hj => ?_) (Nat.lt_succ_self _)).trans ?_
  · rw [image_congr h.pte]
    exact hy j hj
  · rw [List.nil_append, hread]

theorem PagesApart.copyout_copyin (h : PagesApart s root) (va : ℕ) (bytes : List UInt8)
    (hacc : ∀ j < bytes.length, s.Accessible root (va + j)) :
    ∃ s', s.copyout root va (fun j => bytes.getD j 0) bytes.length = .ok (0, s') ∧
      s'.copyin root va bytes.length = .ok (0, bytes) := by
  obtain ⟨r, s', m, hrun, -, hcopy, hres⟩ := h.copyoutFrom (fun j => bytes.getD j 0) va 0
    bytes.length (Nat.lt_succ_self _)
  simp only [Nat.zero_add] at hcopy
  rcases hres with ⟨rfl, rfl⟩ | ⟨-, hm, hnone⟩
  · exact ⟨s', hrun, hcopy.copyin⟩
  · exact absurd (hacc m hm) (h.userPage_none.mp hnone)

end Loops

theorem Space.accessible_iff (h : Space s root) (hw : s.WellFormed) :
    s.Accessible root va ↔ ¬s.Unloaded root va := by
  unfold Accessible Unloaded userFrame
  by_cases hva : va < maxVa
  · rw [h.table.walkPte_eq hw hva]
    simp only [hva, true_and, forall_const]
    constructor
    · intro hc hnone
      rw [if_pos hc] at hnone
      cases hnone
    · intro hnone
      by_contra hc
      exact hnone (if_neg hc)
  · simp only [hva, false_and, false_imp_iff, not_true_eq_false]

theorem Space.userFrame_of_accessible (h : Space s root) (hw : s.WellFormed)
    (ha : s.Accessible root va) : s.userFrame root va = some (pte2pa (s.walkPte root va)) := by
  have hc := ha.2
  rw [h.table.walkPte_eq hw ha.1] at hc ⊢
  exact if_pos hc

theorem Space.pagesApart (h : Space s root) (hw : s.WellFormed) : PagesApart s root where
  table := h.table
  frame_ne_zero va ha := h.frame_ne_zero hw ha.1 (h.userFrame_of_accessible hw ha)
  notNode va ha := h.notNode va ha.1 _ (h.userFrame_of_accessible hw ha)
  inj va va' ha ha' he := by
    have hp := h.userFrame_of_accessible hw ha
    rw [he] at hp
    exact h.inj va ha.1 va' ha'.1 _ hp (h.userFrame_of_accessible hw ha')

/-- `copyout` succeeds exactly when a program can reach the whole range. Then `copyin` reads what
was written, and nothing else has changed; otherwise a run of bytes in front of the first address
that it cannot reach may have changed. -/
theorem copyout_copyin_local (h : PagesApart s root) (va : ℕ) (bytes : List UInt8) :
    ∃ r s', s.copyout root va (fun j => bytes.getD j 0) bytes.length = .ok (r, s') ∧
      s' = { s with mem := s'.mem } ∧ (r = 0 ∨ r = -1) ∧
      (r = 0 ↔ ∀ a, va ≤ a → a < va + bytes.length → s.Accessible root a) ∧
      (r = 0 → s'.copyin root va bytes.length = .ok (0, bytes) ∧
        ∀ x, (∀ j < bytes.length, s.image root (va + j) ≠ some x) → s'.mem x = s.mem x) ∧
      (r = -1 → ∃ m < bytes.length, (∀ j < m, s.Accessible root (va + j)) ∧
        ¬s.Accessible root (va + m) ∧
        ∀ x, (∀ j < m, s.image root (va + j) ≠ some x) → s'.mem x = s.mem x) := by
  obtain ⟨r, s', m, hrun, -, hcopy, hres⟩ := h.copyoutFrom (fun j => bytes.getD j 0) va 0
    bytes.length (Nat.lt_succ_self _)
  simp only [Nat.zero_add] at hcopy
  refine ⟨r, s', hrun, hcopy.same, ?_, ?_, ?_, ?_⟩
  · exact hres.imp And.left And.left
  · rcases hres with ⟨rfl, rfl⟩ | ⟨rfl, hm, hnone⟩
    · refine iff_of_true rfl fun a h₁ h₂ => ?_
      have hacc := hcopy.accessible (show a - va < bytes.length by omega)
      rwa [Nat.add_sub_cancel' h₁] at hacc
    · exact iff_of_false (by decide) fun hall =>
        h.userPage_none.mp hnone (hall (va + m) (by omega) (by omega))
  · rintro rfl
    rcases hres with ⟨-, rfl⟩ | ⟨hc, -⟩
    · exact ⟨hcopy.copyin, hcopy.others⟩
    · exact absurd hc (by decide)
  · rintro rfl
    rcases hres with ⟨hc, -⟩ | ⟨-, hm, hnone⟩
    · exact absurd hc (by decide)
    · exact ⟨m, hm, fun j hj => hcopy.accessible hj, h.userPage_none.mp hnone, hcopy.others⟩

theorem userAlloc_twoPages : ∃ s₁,
    (oneProcess []).ram.userAlloc Task.twoPages.pagetable 0 8192 = .ok (8192, s₁) ∧
      Space s₁ Task.twoPages.pagetable ∧ s₁.WellFormed ∧
      ∀ a < 8192, s₁.Accessible Task.twoPages.pagetable a := by
  have hret : ((oneProcess []).ram.userAlloc Task.twoPages.pagetable 0 8192).toOption.map
      Prod.fst = some 8192 := by decide +kernel
  have hready := Task.twoPages_ready.1
  rcases hready.space.userAlloc hready.wellFormed (show 8192 ≤ userTop by decide)
    (Nat.zero_le 8192) with ⟨s₁, he, hmaps⟩ | ⟨s₁, he, -⟩ | ⟨-, he⟩
  · have hspace := hmaps.acts.space
    have hw := hmaps.acts.moves.wf
    refine ⟨s₁, he, hspace, hw, fun a ha => (hspace.accessible_iff hw).mpr fun hun => ?_⟩
    have hlt : a < maxVa := ha.trans (by decide)
    obtain ⟨p, hp, -⟩ := hmaps.frame a hlt (Nat.zero_le a) ha
    cases hp.symm.trans (hun hlt)
  · rw [he] at hret
    simp [Except.toOption] at hret
  · rw [he] at hret
    cases hret

theorem copyout_copyin_local_twoPages : ∃ s₁ s',
    (oneProcess []).ram.userAlloc Task.twoPages.pagetable 0 8192 = .ok (8192, s₁) ∧
      s₁.userFrame Task.twoPages.pagetable 4095 ≠ s₁.userFrame Task.twoPages.pagetable 4096 ∧
      s₁.copyout Task.twoPages.pagetable 4095 (fun j => [1, 2, 3].getD j 0) 3 = .ok (0, s') ∧
      s'.copyin Task.twoPages.pagetable 4095 3 = .ok (0, [1, 2, 3]) := by
  obtain ⟨s₁, halloc, hspace, hw, hacc⟩ := userAlloc_twoPages
  obtain ⟨r, s', hrun, -, -, hiff, hin, -⟩ :=
    copyout_copyin_local (hspace.pagesApart hw) 4095 [1, 2, 3]
  have hr : r = 0 := by
    refine hiff.mpr fun a _ h₂ => hacc a ?_
    simp only [List.length_cons, List.length_nil] at h₂
    omega
  subst hr
  refine ⟨s₁, s', halloc, fun he => ?_, hrun, (hin rfl).1⟩
  have hframe := hspace.userFrame_of_accessible hw (hacc 4095 (by norm_num))
  have hpage := hspace.inj 4095 (by decide) 4096 (by decide) _ hframe (he ▸ hframe)
  exact absurd hpage (by decide)

section Protection

theorem pte_and_pteW {perm : ℕ} (hperm : perm < 1024) (p : ℕ) :
    (pa2pte p ||| perm ||| pteV) &&& pteW = perm &&& pteW := by
  obtain ⟨h, -⟩ : pa2pte p ||| perm ||| pteV = 1024 * (p / 4096) + (perm ||| pteV) ∧ _ :=
    pa2pte_or hperm
  have hz : 1024 * (p / 4096) &&& pteW = 0 := by
    have hmod := Nat.and_mod_two_pow (a := 1024 * (p / 4096)) (b := 4) (n := 3)
    have hle : 1024 * (p / 4096) &&& 4 ≤ 4 := Nat.and_le_right
    rw [Nat.mod_eq_of_lt (a := _ &&& 4) (by omega),
      show 1024 * (p / 4096) % 2 ^ 3 = 0 by omega] at hmod
    exact hmod
  rw [Nat.and_or_distrib_right, Nat.and_or_distrib_right, pa2pte, mul_comm, hz, Nat.zero_or,
    show pteV &&& pteW = 0 from rfl, Nat.or_zero]

theorem protPerm_pteW (prot : ℕ) : protPerm prot &&& pteW ≠ 0 ↔ prot &&& 2 ≠ 0 := by
  unfold protPerm
  by_cases hw : prot &&& 2 ≠ 0
  · rw [if_pos hw]
    refine iff_of_true ?_ hw
    split <;> split <;> decide
  · rw [if_neg hw]
    refine iff_of_false ?_ hw
    split <;> split <;> decide

/-- A page that a mapping has loaded is open to the program, and has `PTE_W` when the mapping may
be written. -/
theorem MapsPage.accessible {v : Vma} (hmap : MapsPage s s' root (pgRoundDown va) p (protPerm v.prot))
    (hw : s.WellFormed) (hprot : v.prot &&& 7 ≠ 0) (hva : va < userTop)
    (ha : pgRoundDown a = pgRoundDown va) :
    s'.Accessible root a ∧ (s'.walkPte root a &&& pteW ≠ 0 ↔ v.prot &&& 2 ≠ 0) := by
  have hvals : userTop = 274877898752 ∧ maxVa = 274877906944 ∧ pgSize = 4096 := by decide
  have hlt : a < maxVa ∧ a / pgSize = pgRoundDown va / pgSize := by
    rw [hvals.2.2]
    unfold pgRoundDown at *
    omega
  have hperm := userPerm_prot hprot
  have hleaf := hmap.leaf a hlt.1
  rw [if_pos hlt.2] at hleaf
  have hframe := userFrame_of_leaf hperm (hw.isPage p hmap.fresh) hleaf
  have hw' := hmap.acts.moves.wf
  refine ⟨(hmap.acts.space.accessible_iff hw').mpr fun hun => ?_, ?_⟩
  · rw [hun hlt.1] at hframe
    cases hframe
  · rw [hmap.acts.space.table.walkPte_eq hw' hlt.1, hleaf, pte_and_pteW hperm.lt, protPerm_pteW]

/-- `copyout` looks at `PTE_V` and `PTE_U` only: the bytes of the addresses in front of the first
one that is not accessible become those of the source, with `PTE_W` or without it. A mapping
without `PROT_WRITE` is loaded without `PTE_W`, and its pages are accessible. -/
theorem copyout_ignores_pteW (h : PagesApart s root) (va len : ℕ) (src : ByteMem) :
    (∃ r s' m, s.copyout root va src len = .ok (r, s') ∧ m ≤ len ∧
      (∀ j < m, s.Accessible root (va + j)) ∧ (m < len → ¬s.Accessible root (va + m)) ∧
      r = (if m = len then 0 else -1) ∧ s' = { s with mem := s'.mem } ∧
      (∀ j < m, ∃ x, s.image root (va + j) = some x ∧ s'.mem x = src j) ∧
      ∀ x, (∀ j < m, s.image root (va + j) ≠ some x) → s'.mem x = s.mem x) ∧
    ∀ (v : Vma) (contents : ℕ → List UInt8) (page : ℕ), Space s root → s.WellFormed → Top s root →
      v.Aligned → v.Contains page → v.stop ≤ userTop → v.prot &&& 7 ≠ 0 →
      3 ≤ s.freeList.length → s.Unloaded root page →
      ∃ s₁, v.loadIfContain contents root page s = .ok (true, s₁) ∧ PagesApart s₁ root ∧
        ∀ a, pgRoundDown a = pgRoundDown page → s₁.Accessible root a ∧
          (s₁.walkPte root a &&& pteW ≠ 0 ↔ v.prot &&& 2 ≠ 0) := by
  constructor
  · obtain ⟨r, s', m, hrun, hm, hcopy, hres⟩ := h.copyoutFrom src va 0 len
      (Nat.lt_succ_self _)
    simp only [Nat.zero_add] at hcopy
    refine ⟨r, s', m, hrun, hm, fun j hj => hcopy.accessible hj, fun hlt => ?_, ?_, hcopy.same,
      hcopy.bytes, hcopy.others⟩
    · rcases hres with ⟨-, he⟩ | ⟨-, -, hnone⟩
      · exact absurd he hlt.ne
      · exact h.userPage_none.mp hnone
    · rcases hres with ⟨rfl, rfl⟩ | ⟨rfl, hlt, -⟩
      · rw [if_pos rfl]
      · rw [if_neg hlt.ne]
  · intro v contents page hs hw htop halign hc hstop hprot hframes hun
    have hpage : page < userTop := by
      have := hc.2
      unfold pgRoundUp at this
      have hvals : userTop = 274877898752 := by decide
      omega
    rcases Vma.loadIfContain_spec contents hc halign hs hw htop
        (userPerm_prot hprot) hun with ⟨e, -, hnil | hge⟩ | ⟨-, s₁, hrun, p, ⟨hmap, -⟩ | ⟨hfew, -⟩⟩
    · rw [hnil] at hframes
      exact absurd hframes (by decide)
    · omega
    · exact ⟨s₁, hrun, hmap.acts.space.pagesApart hmap.acts.moves.wf,
        fun a ha => hmap.accessible hw hprot hpage ha⟩
    · have := missing_le s root (pgRoundDown page)
      omega

def codeVma : Vma := ⟨4096, .prog, 1, 5, 2, some 0, 0⟩

theorem copyout_ignores_pteW_code : ∃ s₁ s₂ x,
    codeVma.loadIfContain (fun _ => [1]) Task.twoPages.pagetable 4096 (oneProcess []).ram =
        .ok (true, s₁) ∧
      s₁.copyout Task.twoPages.pagetable 4096 (fun _ => 7) 1 = .ok (0, s₂) ∧
      s₁.image Task.twoPages.pagetable 4096 = some x ∧ s₂.mem x = 7 := by
  obtain ⟨hready, hframes⟩ := Task.twoPages_ready
  have hs := hready.space
  have hw := hready.wellFormed
  have hun : (oneProcess []).ram.Unloaded Task.twoPages.pagetable 4096 := by
    rw [← walkAddr_eq_zero_iff hs hw]
    have hwalk : (match (oneProcess []).ram.walkAddr Task.twoPages.pagetable 4096 with
      | .ok p => decide (p = 0)
      | .error _ => false) = true := by decide +kernel
    split at hwalk
    · rename_i p he
      rw [he, of_decide_eq_true hwalk]
    · cases hwalk
  obtain ⟨s₁, hload, happ, hacc⟩ := (copyout_ignores_pteW (hs.pagesApart hw) 4096 1 fun _ => 7).2
    codeVma (fun _ => [1]) 4096 hs hw hready.top (show 4096 % pgSize = 0 from rfl) (by decide)
    (by decide) (by decide) hframes hun
  obtain ⟨r, s₂, m, hrun, hm, -, hstop, hr, -, hbytes, -⟩ :=
    (copyout_ignores_pteW happ 4096 1 fun _ => 7).1
  have hone : m = 1 := by
    by_contra hne
    have hz : m = 0 := by omega
    subst hz
    exact hstop (by decide) (hacc 4096 rfl).1
  subst hone
  obtain ⟨x, hx, hb⟩ := hbytes 0 (by decide)
  rw [if_pos rfl] at hr
  subst hr
  exact ⟨s₁, s₂, x, hload, hrun, hx, hb⟩

/-- A page of code is loaded, and `copyout` to it goes well. -/
def codeOverwritten : Bool :=
  match codeVma.loadIfContain (fun _ => [1]) Task.twoPages.pagetable 4096 (oneProcess []).ram with
  | .ok (true, s₁) =>
    match s₁.copyout Task.twoPages.pagetable 4096 (fun _ => 7) 1,
      s₁.image Task.twoPages.pagetable 4096 with
    | .ok (r, s₂), some x => decide (r = 0 ∧ s₁.mem x = 1 ∧ s₂.mem x = 7 ∧
        s₁.walkPte Task.twoPages.pagetable 4096 &&& pteW = 0)
    | _, _ => false
  | _ => false

/-- A byte of code is overwritten. -/
theorem copyout_overwrites_code : ∃ s₁ s₂ x,
    codeVma.loadIfContain (fun _ => [1]) Task.twoPages.pagetable 4096 (oneProcess []).ram =
        .ok (true, s₁) ∧
      s₁.walkPte Task.twoPages.pagetable 4096 &&& pteW = 0 ∧
      s₁.image Task.twoPages.pagetable 4096 = some x ∧ s₁.mem x = 1 ∧
      s₁.copyout Task.twoPages.pagetable 4096 (fun _ => 7) 1 = .ok (0, s₂) ∧ s₂.mem x = 7 := by
  have hrun : codeOverwritten = true := by decide +kernel
  unfold codeOverwritten at hrun
  split at hrun
  · rename_i s₁ hload
    split at hrun
    · rename_i r s₂ x hout hx
      obtain ⟨rfl, h₁, h₂, h₃⟩ := of_decide_eq_true hrun
      exact ⟨s₁, s₂, x, hload, h₃, hx, h₁, hout, h₂⟩
    · cases hrun
  · cases hrun

end Protection

end MemAllocator

end StartOS
