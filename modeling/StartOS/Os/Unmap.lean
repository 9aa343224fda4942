import StartOS.Memory.AddressMap
import StartOS.Os.UserMem

/-! # Unmapping pages

`userUnmap` clears the entries of a range and gives the frames of the user
pages among them back, each exactly once.
-/

namespace StartOS.MemAllocator

open RadixTree

variable {s s' s'' : MemAllocator} {root va va' a b p q n x npages : ℕ}

def SamePagesOutside (s s' : MemAllocator) (root a b : ℕ) : Prop :=
  ∀ va < maxVa, ¬(a ≤ va ∧ va < b) → ∀ p, s.userFrame root va = some p →
    ∀ x, p ≤ x → x < p + pgSize → s'.mem x = s.mem x

structure Unmaps (s s' : MemAllocator) (root a b : ℕ) : Prop where
  acts : Acts s s' root
  kept : KeptIn s s' root
  inside : ∀ va < maxVa, a ≤ va → va < b → ¬isValid (s'.leaf root va)
  outside : ∀ va < maxVa, ¬(a ≤ va ∧ va < b) → s'.leaf root va = s.leaf root va
  pages : SamePagesOutside s s' root a b

namespace Unmaps

theorem refl (h : Space s root) (hw : s.WellFormed) (ha : b ≤ a) : Unmaps s s root a b where
  acts := .refl hw h
  kept _ hp := hp
  inside va _ h₁ h₂ := absurd h₂ (by omega)
  outside _ _ _ := rfl
  pages _ _ _ _ _ _ _ _ := rfl

theorem userFrame (h : Unmaps s s' root a b) (hva : va < maxVa) (hout : ¬(a ≤ va ∧ va < b)) :
    s'.userFrame root va = s.userFrame root va := userFrame_congr (h.outside va hva hout)

theorem trans {c : ℕ} (h : Unmaps s s' root a c) (h' : Unmaps s' s'' root c b) (hac : a ≤ c)
    (hcb : c ≤ b) : Unmaps s s'' root a b where
  acts := h.acts.trans h'.acts
  kept := h.kept.trans h'.kept
  inside va hva ha hb := by
    by_cases hc : va < c
    · rw [h'.outside va hva (by omega)]
      exact h.inside va hva ha hc
    · exact h'.inside va hva (by omega) hb
  outside va hva hout := by
    rw [h'.outside va hva (by omega), h.outside va hva (by omega)]
  pages va hva hout p hp x hx hx' := by
    have hp' := (h.userFrame hva (by omega)).trans hp
    rw [h'.pages va hva (by omega) p hp' x hx hx', h.pages va hva (by omega) p hp x hx hx']

end Unmaps

/-- The frames of the user pages from `a` to `b` are on the free list, next to those that were. -/
def GivesBack (s s' : MemAllocator) (root a b : ℕ) : Prop :=
  ∀ q, q ∈ s'.freeList ↔
    q ∈ s.freeList ∨ ∃ va < maxVa, a ≤ va ∧ va < b ∧ s.userFrame root va = some q

theorem GivesBack.refl (ha : b ≤ a) : GivesBack s s root a b := by
  intro q
  constructor
  · exact Or.inl
  · rintro (hq | ⟨va, -, h₁, h₂, -⟩)
    · exact hq
    · omega

theorem Space.clearLeaf (h : Space s root) (hw : s.WellFormed) (hva : va < maxVa)
    (hn : s.node root (path va 2) = some n) :
    let s₁ := s.setPte (pteAddr n (px 0 va)) 0
    Space s₁ root ∧ s₁.WellFormed ∧
      (∀ va' < maxVa, s₁.leaf root va' =
        if va' / pgSize = va / pgSize then 0 else s.leaf root va') ∧
      (∀ va' < maxVa, s₁.userFrame root va' =
        if va' / pgSize = va / pgSize then none else s.userFrame root va') ∧
      (∀ l, l.length ≤ 2 → s₁.node root l = s.node root l) ∧
      ∀ x, x < n ∨ n + pgSize ≤ x → s₁.mem x = s.mem x := by
  intro s₁
  obtain ⟨htable, hnode, hat, hmem, hleaf⟩ := h.table.storeLeaf hva hn (v := 0) (by norm_num)
  have hframe : ∀ va' < maxVa, s₁.userFrame root va' =
      if va' / pgSize = va / pgSize then none else s.userFrame root va' := by
    intro va' hva'
    unfold userFrame
    rw [hleaf va' hva']
    split
    · rw [if_neg fun hc => by cases hc.1]
    · rfl
  have hframe' : ∀ va' < maxVa, ∀ p, s₁.userFrame root va' = some p →
      s.userFrame root va' = some p := by
    intro va' hva' p hp
    rw [hframe va' hva'] at hp
    split at hp
    · cases hp
    · exact hp
  refine ⟨⟨htable, ?_, ?_, ?_, ?_, ?_, ?_, ?_, ?_⟩, ⟨hw.kend_pos, hw.nodup, ?_⟩, hleaf, hframe, hnode,
    hmem⟩
  · exact fun va' hva' p hp => (h.isPage va' hva' p (hframe' va' hva' p hp)).of_kend rfl
  · exact fun va' hva' p hp => h.taken va' hva' p (hframe' va' hva' p hp)
  · intro va' hva' p hp l hl hn'
    exact h.notNode va' hva' p (hframe' va' hva' p hp) l hl ((hnode l hl).symm.trans hn')
  · intro c hc d hd p hp hp'
    exact h.inj c hc d hd p (hframe' c hc p hp) (hframe' d hd p hp')
  · intro va' hva' hv
    rw [hleaf va' hva'] at hv ⊢
    split at hv
    · cases hv
    · rename_i hne
      rw [if_neg hne]
      exact h.access va' hva' hv
  · intro va' hva' hv hnone
    rw [hleaf va' hva'] at hv
    rw [hframe va' hva'] at hnone
    split at hv
    · cases hv
    · rename_i hne
      rw [if_neg hne] at hnone
      exact h.kernel va' hva' hv hnone
  · exact fun va' hva' p hp => h.below va' hva' p (hframe' va' hva' p hp)
  · intro i hi
    have hroot : s.node root [] = some root := rfl
    rw [hat [] root i (by simp) hroot, if_neg]
    · exact h.upper i hi
    · rintro ⟨rfl, -⟩
      have := congrArg List.length (h.table.unshared _ _ root (by simp [path]) (by simp) hn hroot)
      simp [path] at this
  · exact fun q hq => (hw.isPage q hq).of_kend rfl

theorem setPte_fill_mem (s : MemAllocator) (pte p : ℕ) (l : List ℕ) (k : ℤ)
    (hx : x < p ∨ p + pgSize ≤ x) :
    (({ s with freeList := l, npage := k, mem := s.mem.fill p pgSize 5 } : MemAllocator).setPte
      pte 0).mem x = (s.setPte pte 0).mem x := by
  simp only [setPte, ByteMem.writeLE, ByteMem.blit]
  split
  · rfl
  · exact ByteMem.fill_of_not_mem hx

/-- With its entry cleared a page is no longer used, and nothing else comes into use. -/
theorem Space.footprint_cleared (h : Space s root) (hva : va < maxVa)
    (hp : s.userFrame root va = some p)
    (hframe : ∀ va' < maxVa, s'.userFrame root va' =
      if va' / pgSize = va / pgSize then none else s.userFrame root va')
    (hnode : ∀ l, l.length ≤ 2 → s'.node root l = s.node root l) :
    p ∉ s'.footprint root ∧ s'.footprint root ⊆ s.footprint root := by
  constructor
  · rintro (⟨l, hl, hl'⟩ | ⟨va', hva', hp'⟩)
    · exact h.notNode va hva p hp l hl ((hnode l hl).symm.trans hl')
    · rw [hframe va' hva'] at hp'
      split at hp'
      · cases hp'
      · rename_i hne
        exact hne (h.inj va' hva' va hva p hp' hp)
  · rintro q (⟨l, hl, hl'⟩ | ⟨va', hva', hq⟩)
    · exact Or.inl ⟨l, hl, (hnode l hl).symm.trans hl'⟩
    · rw [hframe va' hva'] at hq
      split at hq
      · cases hq
      · exact Or.inr ⟨va', hva', hq⟩

theorem Space.unmapOne (h : Space s root) (hw : s.WellFormed) (hva : va < maxVa)
    (ha : va % pgSize = 0) (hp : s.userFrame root va = some p)
    (hn : s.node root (path va 2) = some n) :
    Unmaps s (({ s with
      freeList := p :: s.freeList
      npage := s.npage + 1
      mem := s.mem.fill p pgSize 5 } : MemAllocator).setPte (pteAddr n (px 0 va)) 0) root va
      (va + pgSize) := by
  obtain ⟨h₁, hw₁, hleaf₁, hframe₁, hnode₁, hmem₁⟩ := h.clearLeaf hw hva hn
  set s₁ := s.setPte (pteAddr n (px 0 va)) 0 with hs₁
  set s' := ({ s with
      freeList := p :: s.freeList
      npage := s.npage + 1
      mem := s.mem.fill p pgSize 5 } : MemAllocator).setPte (pteAddr n (px 0 va)) 0 with hs'
  have hpage := h.isPage va hva p hp
  have hmem : ∀ x, x < p ∨ p + pgSize ≤ x → s'.mem x = s₁.mem x := fun x hx =>
    setPte_fill_mem s _ p _ _ hx
  obtain ⟨hgone, hsub⟩ := h.footprint_cleared hva hp hframe₁ hnode₁
  have hnodep : ∀ l m, l.length ≤ 2 → s₁.node root l = some m → ∀ x, m ≤ x → x < m + pgSize →
      s'.mem x = s₁.mem x := by
    intro l m hl hm x hx hx'
    refine hmem x ((h₁.table.isPage l m hl hm).disjoint hpage ?_ hx hx')
    rintro rfl
    exact hgone (Or.inl ⟨l, hl, hm⟩)
  have hfree : ∀ q ∈ s₁.footprint root, q ∉ s'.freeList := by
    intro q hq hqf
    rcases List.mem_cons.mp hqf with rfl | hqf
    · exact hgone hq
    · exact h₁.footprint_taken hq hqf
  obtain ⟨hspace, hfoot, hleaf⟩ := h₁.of_agree (show s'.kend = s₁.kend from rfl) hfree
    hnodep
  have hwf : s'.WellFormed := by
    refine ⟨hw.kend_pos, List.nodup_cons.mpr ⟨h.taken va hva p hp, hw.nodup⟩, fun q hq => ?_⟩
    rcases List.mem_cons.mp hq with rfl | hq
    · exact hpage.of_kend rfl
    · exact (hw.isPage q hq).of_kend rfl
  refine ⟨⟨hspace, hwf, rfl, ?_, ?_, ?_⟩, ?_, ?_, ?_, ?_⟩
  · rintro q (hq | hq)
    · rw [hfoot] at hq
      exact Or.inl (hsub hq)
    · rcases List.mem_cons.mp hq with rfl | hq
      · exact Or.inl (Or.inr ⟨va, hva, hp⟩)
      · exact Or.inr hq
  · exact fun q hq => hspace.footprint_taken hq
  · intro x hx
    rw [hmem x (hx p (Or.inl (Or.inr ⟨va, hva, hp⟩)))]
    exact hmem₁ x (hx n (Or.inl (Or.inl ⟨_, by simp [path], hn⟩)))
  · rintro q (hq | hq)
    · rcases hq with ⟨l, hl, hl'⟩ | ⟨va', hva', hq⟩
      · rw [hfoot]
        exact Or.inl (Or.inl ⟨l, hl, (hnode₁ l hl).trans hl'⟩)
      · by_cases hsame : va' / pgSize = va / pgSize
        · rw [userFrame_page s root hva hva' hsame, hp] at hq
          cases hq
          exact Or.inr List.mem_cons_self
        · rw [hfoot]
          exact Or.inl (Or.inr ⟨va', hva', (hframe₁ va' hva').trans ((if_neg hsame).trans hq)⟩)
    · exact Or.inr (List.mem_cons_of_mem p hq)
  · intro va' hva' hlo hhi hv
    rw [hleaf, hleaf₁ va' hva', if_pos ((samePage_iff ha va').mpr ⟨hlo, hhi⟩)] at hv
    cases hv
  · intro va' hva' hout
    rw [hleaf, hleaf₁ va' hva', if_neg fun hc => hout ((samePage_iff ha va').mp hc)]
  · intro va' hva' hout q hq x hx hx'
    have hqpage := h.isPage va' hva' q hq
    rw [hmem x (hqpage.disjoint hpage ?_ hx hx')]
    · refine hmem₁ x (hqpage.disjoint (h.table.isPage _ n (by simp [path]) hn) ?_ hx hx')
      rintro rfl
      exact h.notNode va' hva' q hq _ (by simp [path]) hn
    · rintro rfl
      exact hout ((samePage_iff ha va').mp (h.inj va' hva' va hva q hq hp))

/-- The entry of a page of the kernel is cleared and its frame stays. -/
theorem Space.unmapKernel (h : Space s root) (hw : s.WellFormed) (hva : va < maxVa)
    (ha : va % pgSize = 0) (hp : s.userFrame root va = none)
    (hn : s.node root (path va 2) = some n) :
    Unmaps s (s.setPte (pteAddr n (px 0 va)) 0) root va (va + pgSize) := by
  obtain ⟨h₁, hw₁, hleaf₁, hframe₁, hnode₁, hmem₁⟩ := h.clearLeaf hw hva hn
  have hframe : ∀ va' < maxVa, (s.setPte (pteAddr n (px 0 va)) 0).userFrame root va' =
      s.userFrame root va' := by
    intro va' hva'
    rw [hframe₁ va' hva']
    split
    · rename_i hsame
      rw [userFrame_page s root hva hva' hsame, hp]
    · rfl
  have hfoot : (s.setPte (pteAddr n (px 0 va)) 0).footprint root = s.footprint root := by
    ext q
    constructor
    · rintro (⟨l, hl, hq⟩ | ⟨va', hva', hq⟩)
      · exact Or.inl ⟨l, hl, (hnode₁ l hl).symm.trans hq⟩
      · exact Or.inr ⟨va', hva', (hframe va' hva').symm.trans hq⟩
    · rintro (⟨l, hl, hq⟩ | ⟨va', hva', hq⟩)
      · exact Or.inl ⟨l, hl, (hnode₁ l hl).trans hq⟩
      · exact Or.inr ⟨va', hva', (hframe va' hva').trans hq⟩
  refine ⟨⟨h₁, hw₁, rfl, ?_, fun q hq => h₁.footprint_taken hq, ?_⟩, ?_, ?_, ?_, ?_⟩
  · intro q hq
    rw [hfoot] at hq
    exact hq
  · intro x hx
    exact hmem₁ x (hx n (Or.inl (Or.inl ⟨_, by simp [path], hn⟩)))
  · intro q hq
    rw [hfoot]
    exact hq
  · intro va' hva' hlo hhi hv
    rw [hleaf₁ va' hva', if_pos ((samePage_iff ha va').mpr ⟨hlo, hhi⟩)] at hv
    cases hv
  · intro va' hva' hout
    rw [hleaf₁ va' hva', if_neg fun hc => hout ((samePage_iff ha va').mp hc)]
  · intro va' hva' hout q hq x hx hx'
    refine hmem₁ x ((h.isPage va' hva' q hq).disjoint (h.table.isPage _ n (by simp [path]) hn) ?_
      hx hx')
    rintro rfl
    exact h.notNode va' hva' q hq _ (by simp [path]) hn

theorem pteFlags_ne_of_access {e : ℕ} (h : e &&& (pteR ||| pteW ||| pteX) ≠ 0) :
    pteFlags e ≠ pteV := by
  intro he
  apply h
  have hmod := Nat.and_mod_two_pow (a := e) (b := 14) (n := 4)
  have hle : e &&& 14 ≤ 14 := Nat.and_le_right
  unfold pteFlags pteV at he
  rw [Nat.mod_eq_of_lt (a := _ &&& 14) (by omega), show e % 2 ^ 4 = 1 by omega] at hmod
  exact hmod

theorem unmapFrom_of_invalid (doFree : Bool) (ha : a < maxVa) (hv : ¬isValid (s.leaf root a)) :
    unmapFrom root doFree (n + 1) s a = unmapFrom root doFree n s (a + pgSize) := by
  rw [unmapFrom, walk, if_neg (by omega), walkFrom_false]
  simp only [Kernel.ok_bind]
  cases hm : follow s.child root (path a 2) with
  | none => exact if_pos (Or.inl rfl)
  | some m =>
    rw [leaf_of_node hm] at hv
    exact if_pos (Or.inr (by simpa using hv))

theorem unmapFrom_of_valid {m : ℕ} (h : Space s root) (hw : s.WellFormed) (doFree : Bool)
    (ha : a < maxVa) (hv : isValid (s.leaf root a)) (hm : s.node root (path a 2) = some m) :
    unmapFrom root doFree (n + 1) s a = (do
      let s ← if doFree then s.free (pte2pa (s.leaf root a)) else pure s
      unmapFrom root doFree n (s.setPte (pteAddr m (px 0 a)) 0) (a + pgSize)) := by
  have hpos := h.table.pos hw (by simp [path]) hm
  have hf := pteFlags_ne_of_access (h.access a ha hv)
  have hm' : follow s.child root (path a 2) = some m := hm
  rw [leaf_of_node hm] at hv hf ⊢
  rw [unmapFrom, walk, if_neg (by omega), walkFrom_false, hm']
  simp only [Kernel.ok_bind]
  rw [if_neg, if_neg hf]
  rintro (hz | hz)
  · simp only [pteAddr] at hz
    omega
  · rw [hv] at hz
    cases hz

theorem node_of_valid (hv : isValid (s.leaf root va)) : ∃ m, s.node root (path va 2) = some m := by
  cases hm : s.node root (path va 2) with
  | none =>
    rw [leaf_of_none hm] at hv
    cases hv
  | some m => exact ⟨m, rfl⟩

theorem pte2pa_of_userFrame (hp : s.userFrame root va = some p) :
    isValid (s.leaf root va) ∧ pte2pa (s.leaf root va) = p := by
  unfold userFrame at hp
  split at hp
  · rename_i hc
    exact ⟨hc.1, Option.some.inj hp⟩
  · cases hp

theorem GivesBack.cons {s₁ : MemAllocator} (h : Unmaps s s₁ root a (a + pgSize)) (hlt : a < maxVa)
    (ha : a % pgSize = 0) (hp : s.userFrame root a = some p)
    (hfree : s₁.freeList = p :: s.freeList) (hb : a + pgSize ≤ b)
    (hrest : GivesBack s₁ s' root (a + pgSize) b) : GivesBack s s' root a b := by
  intro q
  rw [hrest q, hfree, List.mem_cons]
  constructor
  · rintro ((rfl | hq) | ⟨va, hva, h₁, h₂, hq⟩)
    · have hpg : 0 < pgSize := by norm_num [pgSize]
      exact Or.inr ⟨a, hlt, le_rfl, by omega, hp⟩
    · exact Or.inl hq
    · exact Or.inr ⟨va, hva, by omega, h₂, (h.userFrame hva (by omega)).symm.trans hq⟩
  · rintro (hq | ⟨va, hva, h₁, h₂, hq⟩)
    · exact Or.inl (Or.inr hq)
    · by_cases hc : va < a + pgSize
      · rw [userFrame_page s root hlt hva ((samePage_iff ha va).mpr ⟨h₁, hc⟩), hp] at hq
        exact Or.inl (Or.inl (Option.some.inj hq).symm)
      · exact Or.inr ⟨va, hva, by omega, h₂, (h.userFrame hva (by omega)).trans hq⟩

theorem GivesBack.skip (hlt : a < maxVa) (ha : a % pgSize = 0) (hv : ¬isValid (s.leaf root a))
    (hrest : GivesBack s s' root (a + pgSize) b) : GivesBack s s' root a b := by
  intro q
  rw [hrest q]
  constructor
  · rintro (hq | ⟨va, hva, h₁, h₂, hq⟩)
    · exact Or.inl hq
    · exact Or.inr ⟨va, hva, by omega, h₂, hq⟩
  · rintro (hq | ⟨va, hva, h₁, h₂, hq⟩)
    · exact Or.inl hq
    · refine Or.inr ⟨va, hva, ?_, h₂, hq⟩
      by_contra hc
      rw [userFrame_page s root hlt hva ((samePage_iff ha va).mpr ⟨h₁, by omega⟩)] at hq
      exact hv (pte2pa_of_userFrame hq).1

theorem Space.unmapFrom (h : Space s root) (hw : s.WellFormed) (ha : a % pgSize = 0)
    (hle : a + n * pgSize ≤ maxVa) (huser : ∀ va < maxVa, a ≤ va → va < a + n * pgSize →
      isValid (s.leaf root va) → s.userFrame root va ≠ none) :
    ∃ s', MemAllocator.unmapFrom root true n s a = .ok s' ∧
      Unmaps s s' root a (a + n * pgSize) ∧ GivesBack s s' root a (a + n * pgSize) := by
  induction n generalizing s a with
  | zero => exact ⟨s, rfl, .refl h hw (by omega), .refl (by omega)⟩
  | succ n ih =>
    rw [add_mul, one_mul] at hle huser ⊢
    have hpg : 0 < pgSize := by norm_num [pgSize]
    have hlt : a < maxVa := by omega
    have hnext : (a + pgSize) % pgSize = 0 := by
      rw [Nat.add_mod_right]
      exact ha
    have hend : a + pgSize + n * pgSize = a + (n * pgSize + pgSize) := by omega
    by_cases hv : isValid (s.leaf root a)
    · obtain ⟨m, hm⟩ := node_of_valid hv
      obtain ⟨p, hp⟩ := Option.ne_none_iff_exists'.mp (huser a hlt le_rfl (by omega) hv)
      have hstep := h.unmapOne hw hlt ha hp hm
      obtain ⟨s', hs', hrest, hback⟩ := ih hstep.acts.space hstep.acts.moves.wf hnext (by omega) (by
        intro va hva hlo hhi hval
        have hout : ¬(a ≤ va ∧ va < a + pgSize) := by omega
        rw [hstep.outside va hva hout] at hval
        rw [hstep.userFrame hva hout]
        exact huser va hva (by omega) (by omega) hval)
      rw [hend] at hrest hback
      refine ⟨s', ?_, hstep.trans hrest (by omega) (by omega),
        .cons hstep hlt ha hp rfl (by omega) hback⟩
      rw [unmapFrom_of_valid h hw true hlt hv hm, (pte2pa_of_userFrame hp).2, if_pos rfl,
        (h.isPage a hlt p hp).free_eq]
      exact hs'
    · obtain ⟨s', hs', hrest, hback⟩ := ih h hw hnext (by omega) (by
        intro va hva hlo hhi
        exact huser va hva (by omega) (by omega))
      rw [hend] at hrest hback
      refine ⟨s', ?_, ⟨hrest.acts, hrest.kept, ?_, ?_, ?_⟩, .skip hlt ha hv hback⟩
      · rw [unmapFrom_of_invalid true hlt hv]
        exact hs'
      · intro va hva hlo hhi
        by_cases hc : va < a + pgSize
        · rw [hrest.outside va hva (by omega),
            leaf_page s root hlt hva ((samePage_iff ha va).mpr ⟨hlo, hc⟩)]
          exact hv
        · exact hrest.inside va hva (by omega) (by omega)
      · intro va hva hout
        exact hrest.outside va hva (by omega)
      · intro va hva hout
        exact hrest.pages va hva (by omega)

theorem Space.unmapFrom_over (h : Space s root) (hw : s.WellFormed) (ha : a % pgSize = 0)
    (hn : 0 < n) (hlt : maxVa < a + n * pgSize) (huser : ∀ va < maxVa, a ≤ va →
      isValid (s.leaf root va) → s.userFrame root va ≠ none) :
    MemAllocator.unmapFrom root true n s a = .error (.panic "walk") := by
  induction n generalizing s a with
  | zero => omega
  | succ n ih =>
    rw [add_mul, one_mul] at hlt
    by_cases hge : maxVa ≤ a
    · rw [MemAllocator.unmapFrom, walk, if_pos hge]
      rfl
    have hlt' : a < maxVa := by omega
    have hnext : (a + pgSize) % pgSize = 0 := by
      rw [Nat.add_mod_right]
      exact ha
    have hn' : 0 < n := by
      by_contra hz
      obtain rfl : n = 0 := by omega
      simp only [maxVa, pgSize] at *
      omega
    by_cases hv : isValid (s.leaf root a)
    · obtain ⟨m, hm⟩ := node_of_valid hv
      obtain ⟨p, hp⟩ := Option.ne_none_iff_exists'.mp (huser a hlt' le_rfl hv)
      have hstep := h.unmapOne hw hlt' ha hp hm
      rw [unmapFrom_of_valid h hw true hlt' hv hm, (pte2pa_of_userFrame hp).2, if_pos rfl,
        (h.isPage a hlt' p hp).free_eq]
      refine ih hstep.acts.space hstep.acts.moves.wf hnext hn' (by omega) fun va hva hlo hval => ?_
      have hout : ¬(a ≤ va ∧ va < a + pgSize) := by omega
      rw [hstep.outside va hva hout] at hval
      rw [hstep.userFrame hva hout]
      exact huser va hva (by omega) hval
    · rw [unmapFrom_of_invalid true hlt' hv]
      exact ih h hw hnext hn' (by omega) fun va hva hlo => huser va hva (by omega)

/-- The number of pages that `userUnmap` looks at. -/
def unmapCount (va npages : ℕ) : ℕ := ((va + npages * pgSize) % 2 ^ 64 - va) / pgSize

theorem userUnmap_eq (ha : va % pgSize = 0) (doFree : Bool) : s.userUnmap root va npages doFree =
    MemAllocator.unmapFrom root doFree (unmapCount va npages) s va := by
  unfold MemAllocator.userUnmap
  rw [if_neg (by omega)]
  rfl

/-- `userUnmap` of pages of the user: they are unmapped, or the range leaves the address space. -/
theorem Space.userUnmap (h : Space s root) (hw : s.WellFormed) (ha : va % pgSize = 0)
    (huser : ∀ a < maxVa, va ≤ a → a < va + unmapCount va npages * pgSize →
      isValid (s.leaf root a) → s.userFrame root a ≠ none) :
    (∃ s', s.userUnmap root va npages true = .ok s' ∧
        Unmaps s s' root va (va + unmapCount va npages * pgSize) ∧
        GivesBack s s' root va (va + unmapCount va npages * pgSize)) ∨
      (maxVa < va + unmapCount va npages * pgSize ∧
        s.userUnmap root va npages true = .error (.panic "walk")) := by
  rw [userUnmap_eq ha]
  generalize unmapCount va npages = n at *
  by_cases hn : n = 0
  · subst hn
    exact Or.inl ⟨s, rfl, .refl h hw (by omega), .refl (by omega)⟩
  by_cases hle : va + n * pgSize ≤ maxVa
  · exact Or.inl (h.unmapFrom hw ha hle huser)
  · exact Or.inr ⟨by omega, h.unmapFrom_over hw ha (by omega) (by omega) fun a hlt hlo =>
      huser a hlt hlo (by omega)⟩

theorem Unmaps.of_invalid (h : Space s root) (hw : s.WellFormed) (hva : va < maxVa)
    (ha : va % pgSize = 0) (hv : ¬isValid (s.leaf root va)) : Unmaps s s root va (va + pgSize) where
  acts := .refl hw h
  kept _ hp := hp
  inside a hlt h₁ h₂ := by
    rw [leaf_page s root hva hlt ((samePage_iff ha a).mpr ⟨h₁, h₂⟩)]
    exact hv
  outside _ _ _ := rfl
  pages _ _ _ _ _ _ _ _ := rfl

theorem Space.userUnmap_kernel (h : Space s root) (hw : s.WellFormed) (hva : va < maxVa)
    (ha : va % pgSize = 0) (htop : userTop ≤ va) :
    ∃ s', s.userUnmap root va 1 false = .ok s' ∧ Unmaps s s' root va (va + pgSize) := by
  have hcount : unmapCount va 1 = 1 := by
    simp only [unmapCount, maxVa, pgSize] at *
    omega
  rw [userUnmap_eq ha, hcount]
  by_cases hv : isValid (s.leaf root va)
  · obtain ⟨m, hm⟩ := node_of_valid hv
    have hnone : s.userFrame root va = none := by
      cases hp : s.userFrame root va with
      | none => rfl
      | some p =>
        have := h.below va hva p hp
        omega
    rw [unmapFrom_of_valid h hw false hva hv hm]
    exact ⟨_, rfl, h.unmapKernel hw hva ha hnone hm⟩
  · rw [unmapFrom_of_invalid false hva hv]
    exact ⟨s, rfl, .of_invalid h hw hva ha hv⟩

end StartOS.MemAllocator
