import StartOS.Os.FreeTable

/-! # The page table of a new task

`taskPagetable` makes a root with the two pages of the kernel and nothing else,
or gives back the frames that it has taken.
-/

namespace StartOS

theorem pa2pte_and {pa bits : ℕ} (h : bits < 2 ^ 10) : pa2pte pa &&& bits = 0 := by
  apply Nat.eq_of_testBit_eq
  intro i
  rw [Nat.testBit_and, Nat.zero_testBit, pa2pte, show (1024 : ℕ) = 2 ^ 10 from rfl,
    Nat.testBit_mul_two_pow]
  by_cases hi : 10 ≤ i
  · rw [Nat.testBit_lt_two_pow (h.trans_le (Nat.pow_le_pow_right (by norm_num) hi)), Bool.and_false]
  · rw [decide_eq_false hi, Bool.false_and, Bool.false_and]

namespace MemAllocator

open RadixTree

variable {s s' s'' : MemAllocator} {root va va' p q x pa perm : ℕ}

structure KernelPerm (perm : ℕ) : Prop where
  lt : perm < 1024
  kernel : perm &&& pteU = 0
  access : perm &&& (pteR ||| pteW ||| pteX) ≠ 0

theorem userFrame_of_kernel (hp : KernelPerm perm)
    (h : s.leaf root va = pa2pte pa ||| perm ||| pteV) : s.userFrame root va = none := by
  unfold userFrame
  rw [h, if_neg]
  rintro ⟨-, hu⟩
  apply hu
  rw [Nat.and_or_distrib_right, Nat.and_or_distrib_right, hp.kernel, pa2pte_and (by decide)]
  rfl

theorem Space.of_linked (hs : Space s' root) (hg : Grows s s' root)
    (hlink : Linked s s' root (path va 2))
    (hframe : ∀ va < maxVa, s'.userFrame root va = s.userFrame root va) :
    Acts s s' root ∧ KeptIn s s' root := by
  have hnode : ∀ l, l.length ≤ 2 → ∀ q, s'.node root l = some q →
      q ∈ s.footprint root ∨ q ∈ s.freeList := by
    intro l hlen q hq
    cases hold : s.node root l with
    | none => exact Or.inr (hg.node_new l q hlen hq hold).1
    | some q' =>
      rw [hg.node_old l q' hlen hold] at hq
      cases hq
      exact Or.inl (Or.inl ⟨l, hlen, hold⟩)
  refine ⟨⟨hs, hg.wf, hg.kend, ?_, fun q hq => hs.footprint_taken hq, ?_⟩, ?_⟩
  · rintro q ((⟨l, hlen, hn⟩ | ⟨va, hva, hq⟩) | hq)
    · exact hnode l hlen q hn
    · exact Or.inl (Or.inr ⟨va, hva, (hframe va hva).symm.trans hq⟩)
    · exact Or.inr (hg.freeList.mem hq)
  · intro x hx
    exact hg.mem x fun l n hlen hn => hx n (hnode l hlen n hn)
  · rintro q ((⟨l, hlen, hn⟩ | ⟨va, hva, hq⟩) | hq)
    · exact Or.inl (Or.inl ⟨l, hlen, hg.node_old l q hlen hn⟩)
    · exact Or.inl (Or.inr ⟨va, hva, (hframe va hva).trans hq⟩)
    · rcases hlink.frames q hq with hq | hq
      · exact Or.inr hq
      · exact Or.inl (Or.inl hq)

/-- A page of the kernel is mapped at the top of an address space. -/
theorem Space.mapKernel (h : Space s root) (hw : s.WellFormed) (htop : userTop ≤ va)
    (hva : va < maxVa) (ha : va % pgSize = 0) (hpa : pa < 2 ^ 64) (hperm : KernelPerm perm)
    (hv : ¬isValid (s.leaf root va)) :
    ∃ s', Acts s s' root ∧ KeptIn s s' root ∧
      ((s.mappages root va pgSize pa perm = .ok (-1, s') ∧
          s.freeList.length < s.missing va 2 root ∧ ∀ va', s'.leaf root va' = s.leaf root va') ∨
        (s.mappages root va pgSize pa perm = .ok (0, s') ∧
          s'.freeList.length + s.missing va 2 root = s.freeList.length ∧
          ∀ va' < maxVa, s'.leaf root va' =
            if va' / pgSize = va / pgSize then pa2pte pa ||| perm ||| pteV
            else s.leaf root va')) := by
  rcases h.table.mapPage hw hva ha hpa hperm.lt with
    ⟨hv', -⟩ | ⟨-, s', hg, hlink, ⟨he, hlen, hl⟩ | ⟨he, hcost, hl⟩⟩
  · exact absurd hv' hv
  · have hs' := h.grow_nodes hg hlink hva hl
    obtain ⟨hacts, hkept⟩ := hs'.of_linked hg hlink fun va' _ => userFrame_congr (hl va')
    exact ⟨s', hacts, hkept, Or.inl ⟨he, hlen, hl⟩⟩
  · have hframe : ∀ va' < maxVa, s'.userFrame root va' = s.userFrame root va' := by
      intro va' hva'
      by_cases hsame : va' / pgSize = va / pgSize
      · rw [userFrame_of_kernel hperm ((hl va' hva').trans (if_pos hsame))]
        unfold userFrame
        rw [leaf_page s root hva hva' hsame, if_neg fun hc => hv hc.1]
      · exact userFrame_congr ((hl va' hva').trans (if_neg hsame))
    have hs' : Space s' root := by
      refine h.of_grows hg ?_ ?_ ?_ ?_ ?_ hlink hva
      · intro va' hva' q hq
        exact Or.inl ((hframe va' hva').symm.trans hq)
      · intro a ha b hb q hq hqa hqb
        exact absurd (Or.inr ⟨a, ha, (hframe a ha).symm.trans hqa⟩) hq
      · intro va' hva' hv'
        rw [hl va' hva'] at hv' ⊢
        split
        · exact pte_and_ne_zero pa hperm.access
        · rename_i hne
          rw [if_neg hne] at hv'
          exact h.access va' hva' hv'
      · intro va' hva' hv' hnone
        by_cases hsame : va' / pgSize = va / pgSize
        · have := (samePage_iff ha va').mp hsame
          omega
        · rw [hl va' hva', if_neg hsame] at hv'
          rw [hframe va' hva'] at hnone
          exact h.kernel va' hva' hv' hnone
      · intro va' hva' q hq
        exact h.below va' hva' q ((hframe va' hva').symm.trans hq)
    obtain ⟨hacts, hkept⟩ := hs'.of_linked hg hlink hframe
    exact ⟨s', hacts, hkept, Or.inr ⟨he, hcost, hl⟩⟩

theorem Space.of_zero (hr : s.IsPage root) (hf : root ∉ s.freeList)
    (hz : ∀ i, isValid (s.pteAt (pteAddr root i)) = false) :
    Space s root ∧ (∀ va, ¬isValid (s.leaf root va)) ∧ (∀ va, s.missing va 2 root = 2) ∧
      s.footprint root = {root} := by
  have htable := Table.of_zero hr hf hz
  have hnode : ∀ i l, s.node root (i :: l) = none := by
    intro i l
    rw [node, follow_cons, child, hz i]
    rfl
  have hleaf : ∀ va, s.leaf root va = 0 := fun va => leaf_of_none (hnode _ _)
  have hv : ∀ va, ¬isValid (s.leaf root va) := by
    intro va hv
    rw [hleaf] at hv
    cases hv
  have hframe : ∀ va, s.userFrame root va = none := fun va => if_neg fun hc => hv va hc.1
  have hno : ∀ va p, s.userFrame root va ≠ some p := fun va p hp => by
    rw [hframe] at hp
    cases hp
  refine ⟨⟨htable, fun va _ p hp => absurd hp (hno va p), fun va _ p hp => absurd hp (hno va p),
    fun va _ p hp => absurd hp (hno va p), fun va _ _ _ p hp => absurd hp (hno va p),
    fun va _ h => absurd h (hv va), fun va _ h => absurd h (hv va),
    fun va _ p hp => absurd hp (hno va p), fun i _ h => ?_⟩, hv, fun va => ?_, ?_⟩
  · rw [hz i] at h
    cases h
  · rw [missing_eq, hnode, if_pos rfl]
  · ext p
    constructor
    · rintro (⟨l, -, hn⟩ | ⟨va, -, hp⟩)
      · cases l with
        | nil => exact (Option.some.inj hn).symm
        | cons i l =>
          rw [hnode] at hn
          cases hn
      · exact absurd hp (hno va p)
    · rintro rfl
      exact Or.inl ⟨[], by simp, rfl⟩

theorem zalloc_space (hw : s.WellFormed) : (s.freeList = [] ∧ s.zalloc = (0, s)) ∨
    ∃ root s', s.zalloc = (root, s') ∧ root ≠ 0 ∧ Space s' root ∧
      (∀ va, ¬isValid (s'.leaf root va)) ∧ (∀ va, s'.missing va 2 root = 2) ∧
      Moves s s' ∅ (s'.footprint root) ∧ Kept s s' ∅ (s'.footprint root) ∧
      s'.freeList.length + 1 = s.freeList.length := by
  cases hfl : s.freeList with
  | nil => exact Or.inl ⟨rfl, zalloc_nil hfl⟩
  | cons p fl =>
    right
    have hpage := hw.isPage p (by simp [hfl])
    have hnodup := hw.nodup
    rw [hfl, List.nodup_cons] at hnodup
    have hp0 : 0 < p := hw.kend_pos.trans_le hpage.kend_le
    obtain ⟨s', hz, hfl', hkend, hzero, hmem⟩ := zalloc_cons hfl hp0
    have hentry : ∀ i, s'.pteAt (pteAddr p i) = 0 := fun i =>
      ByteMem.readLE_eq_zero fun x hx hx' => hzero x (pteAddr_mem i hx hx').1 (pteAddr_mem i hx hx').2
    obtain ⟨hs', hv, hmiss, hfoot⟩ :=
      Space.of_zero (hpage.of_kend hkend) (hfl' ▸ hnodup.1) fun i => by
      rw [hentry i]
      rfl
    refine ⟨p, s', hz, by omega, hs', hv, hmiss, ⟨⟨hkend ▸ hw.kend_pos, hfl' ▸ hnodup.2, ?_⟩, hkend, ?_,
      fun q hq => hs'.footprint_taken hq, ?_⟩, ?_, by rw [hfl', List.length_cons]⟩
    · intro q hq
      rw [hfl'] at hq
      exact (hw.isPage q (by rw [hfl]; exact List.mem_cons_of_mem p hq)).of_kend hkend
    · rw [hfoot, hfl', hfl]
      rintro q (rfl | hq)
      · exact Or.inr List.mem_cons_self
      · exact Or.inr (List.mem_cons_of_mem p hq)
    · intro x hx
      exact hmem x (hx p (Or.inr (by simp [hfl])))
    · rw [hfoot]
      rintro q (hq | hq)
      · cases hq
      · rw [hfl] at hq
        rw [hfl']
        exact List.mem_cons.mp hq

structure NewTable (s s' : MemAllocator) (root : ℕ) : Prop where
  space : Space s' root
  moves : Moves s s' ∅ (s'.footprint root)
  kept : Kept s s' ∅ (s'.footprint root)
  user : ∀ va < maxVa, s'.userFrame root va = none
  top : ∀ va < maxVa, userTop ≤ va → isValid (s'.leaf root va)
  cost : s'.freeList.length + 3 = s.freeList.length

theorem Space.freeEmpty (h : Space s root) (hw : s.WellFormed)
    (hv : ∀ va < maxVa, ¬isValid (s.leaf root va)) :
    ∃ s', s.freeUserPageTable root 0 = .ok s' ∧ Moves s s' (s.footprint root) ∅ ∧
      Kept s s' (s.footprint root) ∅ := by
  rcases h.freeUserPageTable hw 0 fun va hva hv' => absurd hv' (hv va hva) with
    ⟨-, hfree⟩ | ⟨⟨va, hva, hv', -⟩, -⟩ | ⟨hlt, -⟩
  · exact hfree
  · exact absurd hv' (hv va hva)
  · exact absurd hlt (by decide)

theorem kernelPerm_trampoline : KernelPerm (pteR ||| pteX) := ⟨by decide, by decide, by decide⟩

theorem kernelPerm_trapframe : KernelPerm (pteR ||| pteW) := ⟨by decide, by decide, by decide⟩

theorem taskPagetable_of_root {trampoline trapframe : ℕ} (hz : s.zalloc = (root, s'))
    (hroot : root ≠ 0) : s.taskPagetable trampoline trapframe = (do
      let (r, s) ← s'.mappages root trampolineVa pgSize trampoline (pteR ||| pteX)
      if r < 0 then
        let s ← s.freeUserPageTable root 0
        return (0, s)
      let (r, s) ← s.mappages root trapframeVa pgSize trapframe (pteR ||| pteW)
      if r < 0 then
        let s ← s.userUnmap root trampolineVa 1 false
        let s ← s.freeUserPageTable root 0
        return (0, s)
      return (root, s)) := by
  obtain ⟨r, rfl⟩ := Nat.exists_eq_succ_of_ne_zero hroot
  unfold taskPagetable userCreate
  rw [hz]
  rfl

theorem taskPagetable_spec {trampoline trapframe : ℕ} (hw : s.WellFormed)
    (ht : trampoline < 2 ^ 64) (hf : trapframe < 2 ^ 64) :
    (s.freeList.length < 3 ∧ ∃ s', s.taskPagetable trampoline trapframe = .ok (0, s') ∧
        Moves s s' ∅ ∅ ∧ Kept s s' ∅ ∅) ∨
      ∃ root s', s.taskPagetable trampoline trapframe = .ok (root, s') ∧ root ≠ 0 ∧
        NewTable s s' root := by
  have hvals : userTop = 274877898752 ∧ trapframeVa = 274877898752 ∧ trampolineVa = 274877902848 ∧
      maxVa = 274877906944 ∧ pgSize = 4096 := by decide
  rcases zalloc_space hw with
    ⟨hnil, hz⟩ | ⟨root, s₁, hz, hroot, h₁, hv₁, hmiss₁, hm₁, hk₁, hcost₁⟩
  · refine Or.inl ⟨by simp [hnil], s, ?_, .refl hw fun p hp => absurd hp (Set.notMem_empty p),
      fun p hp => hp⟩
    unfold taskPagetable userCreate
    rw [hz]
    rfl
  rw [taskPagetable_of_root hz hroot]
  obtain ⟨s₂, hacts₂, hkept₂, hres₂⟩ := h₁.mapKernel hm₁.wf
    (show userTop ≤ trampolineVa by omega) (by omega) (by decide) ht kernelPerm_trampoline
      (hv₁ trampolineVa)
  rw [hmiss₁] at hres₂
  rcases hres₂ with ⟨he₂, hlen₂, hl₂⟩ | ⟨he₂, hcost₂, hl₂⟩
  · obtain ⟨s₃, he₃, hm₃, hk₃⟩ := hacts₂.space.freeEmpty hacts₂.moves.wf fun va _ => by
      rw [hl₂]
      exact hv₁ va
    refine Or.inl ⟨by omega, s₃, ?_, (hm₁.trans hacts₂.moves).trans hm₃,
      (hk₁.trans hkept₂).trans hk₃⟩
    rw [he₂]
    simp only [Kernel.ok_bind]
    rw [if_pos (by decide), he₃]
    rfl
  · have hfar : trapframeVa / pgSize ≠ trampolineVa / pgSize := by decide
    have hv₂ : ¬isValid (s₂.leaf root trapframeVa) := by
      rw [hl₂ _ (by omega), if_neg hfar]
      exact hv₁ trapframeVa
    have hmiss₂ : s₂.missing trapframeVa 2 root = 0 := by
      have hv : isValid (s₂.leaf root trampolineVa) := by
        rw [hl₂ _ (by omega), if_pos rfl]
        exact isValid_or _
      obtain ⟨m, hm⟩ := node_of_valid hv
      exact missing_of_node (show s₂.node root (path trapframeVa 2) = some m from hm)
    obtain ⟨s₃, hacts₃, hkept₃, hres₃⟩ := hacts₂.space.mapKernel hacts₂.moves.wf
      (show userTop ≤ trapframeVa by omega) (by omega) (by decide) hf kernelPerm_trapframe hv₂
    rw [hmiss₂] at hres₃
    rcases hres₃ with ⟨-, hlen₃, -⟩ | ⟨he₃, hcost₃, hl₃⟩
    · exact absurd hlen₃ (Nat.not_lt_zero _)
    · refine Or.inr ⟨root, s₃, ?_, hroot, hacts₃.space, (hm₁.trans hacts₂.moves).trans hacts₃.moves,
        (hk₁.trans hkept₂).trans hkept₃, fun va hva => ?_, fun va hva htop => ?_, by omega⟩
      · rw [he₂]
        simp only [Kernel.ok_bind]
        rw [if_neg (by decide), he₃]
        rfl
      · by_cases hsame : va / pgSize = trapframeVa / pgSize
        · exact userFrame_of_kernel kernelPerm_trapframe ((hl₃ va hva).trans (if_pos hsame))
        · rw [userFrame_congr ((hl₃ va hva).trans (if_neg hsame))]
          by_cases hsame' : va / pgSize = trampolineVa / pgSize
          · exact userFrame_of_kernel kernelPerm_trampoline ((hl₂ va hva).trans (if_pos hsame'))
          · rw [userFrame_congr ((hl₂ va hva).trans (if_neg hsame'))]
            exact if_neg fun hc => hv₁ va hc.1
      · rw [hl₃ va hva]
        split
        · exact isValid_or _
        · rename_i hne
          rw [hl₂ va hva, if_pos]
          · exact isValid_or _
          · rw [hvals.2.2.2.2] at hne ⊢
            omega

end MemAllocator

end StartOS
