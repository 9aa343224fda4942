import StartOS.Os.FreeWalk

/-! # Freeing an address space

`FreeTaskPagetable` unmaps the pages of the kernel and the pages below the size
of the process and frees the table. It gives back every frame of the address
space, or it meets a page above that size.
-/

namespace StartOS.MemAllocator

open RadixTree

variable {s s' : MemAllocator} {root n p va a sz L : ℕ} {i j : Fin 512}

theorem mem_nodesBelow_iff : p ∈ s.nodesBelow L n ↔
    ∃ l : List (Fin 512), l.length ≤ L ∧ follow s.child n l = some p := by
  induction L generalizing n with
  | zero =>
    constructor
    · intro hp
      exact ⟨[], le_rfl, congrArg some (List.mem_singleton.mp hp).symm⟩
    · rintro ⟨l, hl, hp⟩
      obtain rfl : l = [] := List.length_eq_zero_iff.mp (by omega)
      cases hp
      exact List.mem_singleton_self _
  | succ L ih =>
    rw [nodesBelow_succ, List.mem_append, List.mem_flatMap]
    constructor
    · rintro (⟨i, -, hp⟩ | hp)
      · change p ∈ s.entryBelow L n i at hp
        cases hm : s.child n i with
        | none =>
          rw [entryBelow_of_none hm] at hp
          cases hp
        | some m =>
          rw [entryBelow_of_some hm] at hp
          obtain ⟨l, hl, hf⟩ := ih.mp hp
          refine ⟨i :: l, by simpa using hl, ?_⟩
          rw [follow_cons, hm]
          exact hf
      · exact ⟨[], by simp, congrArg some (List.mem_singleton.mp hp).symm⟩
    · rintro ⟨l, hl, hp⟩
      cases l with
      | nil =>
        cases hp
        exact Or.inr (List.mem_singleton_self _)
      | cons i l =>
        rw [follow_cons] at hp
        obtain ⟨m, hm, hf⟩ := Option.bind_eq_some_iff.mp hp
        refine Or.inl ⟨i, List.mem_finRange i, ?_⟩
        change p ∈ s.entryBelow L n i
        rw [entryBelow_of_some hm]
        exact ih.mpr ⟨l, by simpa using hl, hf⟩

theorem nodesBelow_nodup (h : Unshared s.child n L) : (s.nodesBelow L n).Nodup := by
  induction L generalizing n with
  | zero => exact List.nodup_singleton n
  | succ L ih =>
    have hcons : ∀ i m, s.child n i = some m → ∀ l, l.length ≤ L → ∀ p,
        follow s.child m l = some p → follow s.child n (i :: l) = some p := by
      intro i m hm l _ p hp
      rw [follow_cons, hm]
      exact hp
    rw [nodesBelow_succ, List.nodup_append]
    refine ⟨List.nodup_flatMap.mpr ⟨fun i _ => ?_, ?_⟩, List.nodup_singleton n, ?_⟩
    · change (s.entryBelow L n i).Nodup
      cases hm : s.child n i with
      | none =>
        rw [entryBelow_of_none hm]
        exact List.nodup_nil
      | some m =>
        rw [entryBelow_of_some hm]
        apply ih
        intro l l' p hl hl' hp hp'
        have := h (i :: l) (i :: l') p (by simpa using hl) (by simpa using hl')
          (hcons i m hm l hl p hp) (hcons i m hm l' hl' p hp')
        exact (List.cons.inj this).2
    · refine (List.nodup_finRange 512).imp fun {i j} hij => ?_
      intro p hp hp'
      change p ∈ s.entryBelow L n i at hp
      change p ∈ s.entryBelow L n j at hp'
      cases hm : s.child n i with
      | none =>
        rw [entryBelow_of_none hm] at hp
        cases hp
      | some m =>
        cases hm' : s.child n j with
        | none =>
          rw [entryBelow_of_none hm'] at hp'
          cases hp'
        | some m' =>
          rw [entryBelow_of_some hm] at hp
          rw [entryBelow_of_some hm'] at hp'
          obtain ⟨l, hl, hf⟩ := mem_nodesBelow_iff.mp hp
          obtain ⟨l', hl', hf'⟩ := mem_nodesBelow_iff.mp hp'
          have := h (i :: l) (j :: l') p (by simpa using hl) (by simpa using hl')
            (hcons i m hm l hl p hf) (hcons j m' hm' l' hl' p hf')
          exact hij (List.cons.inj this).1
    · intro p hp q hq
      obtain rfl := List.mem_singleton.mp hq
      rintro rfl
      obtain ⟨i, -, hp⟩ := List.mem_flatMap.mp hp
      change p ∈ s.entryBelow L p i at hp
      cases hm : s.child p i with
      | none =>
        rw [entryBelow_of_none hm] at hp
        cases hp
      | some m =>
        rw [entryBelow_of_some hm] at hp
        obtain ⟨l, hl, hf⟩ := mem_nodesBelow_iff.mp hp
        have := h (i :: l) [] p (by simpa using hl) (by simp) (hcons i m hm l hl p hf) rfl
        cases this

theorem exists_va (hi : (i : ℕ) < 256) (j k : Fin 512) :
    ∃ va < maxVa, path va 2 = [i, j] ∧ px 0 va = k := by
  have hj := j.isLt
  have hk := k.isLt
  refine ⟨(i : ℕ) * 2 ^ 30 + j * 2 ^ 21 + k * 2 ^ 12, ?_, ?_, ?_⟩
  · simp only [maxVa]
    omega
  · simp only [path, px, List.cons.injEq, Fin.ext_iff, and_true]
    constructor
    · omega
    · omega
  · simp only [px, Fin.ext_iff]
    omega

namespace Space

theorem lt_of_child (h : Space s root) (hm : s.child root i = some n) : (i : ℕ) < 256 := by
  by_contra hge
  exact h.upper i (by omega) (child_eq_some hm).1

theorem leaf_eq (hva : path va 2 = [i, j]) {m : ℕ} (hm : s.child root i = some n)
    (hn : s.child n j = some m) : s.leaf root va = s.pteAt (pteAddr m (px 0 va)) := by
  apply leaf_of_node
  rw [hva, node, follow_cons, hm, Option.bind_some, follow_cons, hn]
  rfl

theorem proper (h : Space s root) : Proper s 2 root := by
  intro i n hn
  have hi := h.lt_of_child hn
  have hnode : s.node root [i] = some n := by
    rw [node, follow_cons, hn]
    rfl
  refine ⟨h.table.interior [] root i (by simp) rfl (child_eq_some hn).1, fun j m hm => ?_⟩
  refine ⟨h.table.interior [i] n j (by simp) hnode (child_eq_some hm).1, fun k hv => ?_⟩
  obtain ⟨va, hva, hpath, rfl⟩ := exists_va hi j k
  rw [← leaf_eq hpath hn hm] at hv ⊢
  exact h.access va hva hv

theorem clean_iff (h : Space s root) :
    Clean s 2 root ↔ ∀ va < maxVa, ¬isValid (s.leaf root va) := by
  constructor
  · intro hc va hva hv
    obtain ⟨m, hm⟩ := node_of_valid hv
    rw [leaf_of_node hm] at hv
    rw [node, path, path, path, follow_cons] at hm
    obtain ⟨n, hn, hm⟩ := Option.bind_eq_some_iff.mp hm
    rw [follow_cons] at hm
    obtain ⟨m', hm', he⟩ := Option.bind_eq_some_iff.mp hm
    cases he
    exact hc _ n hn _ m hm' (px 0 va) hv
  · intro hc i n hn j m hm k hv
    obtain ⟨va, hva, hpath, rfl⟩ := exists_va (h.lt_of_child hn) j k
    rw [← leaf_eq hpath hn hm] at hv
    exact hc va hva hv

/-- `freewalk` of a table: it gives all frames back, or meets a page. -/
theorem freewalk (h : Space s root) (hw : s.WellFormed) :
    ((∀ va < maxVa, ¬isValid (s.leaf root va)) ∧ ∃ s', MemAllocator.freewalk 64 s root = .ok s' ∧
        Moves s s' (s.footprint root) ∅ ∧ Kept s s' (s.footprint root) ∅) ∨
      ((∃ va < maxVa, isValid (s.leaf root va)) ∧
        MemAllocator.freewalk 64 s root = .error (.panic "freewalk: leaf")) := by
  have hnodes : ∀ p, p ∈ s.nodesBelow 2 root ↔
      ∃ l : List (Fin 512), l.length ≤ 2 ∧ s.node root l = some p := fun p => mem_nodesBelow_iff
  have hnodup := nodesBelow_nodup h.table.unshared
  have hpage : ∀ p ∈ s.nodesBelow 2 root, s.IsPage p := by
    intro p hp
    obtain ⟨l, hl, hn⟩ := (hnodes p).mp hp
    exact h.table.isPage l p hl hn
  rcases freesBelow 2 64 s root (by norm_num) h.proper hnodup hpage with
    ⟨hclean, s', he, hfreed⟩ | ⟨hdirty, he⟩
  · rw [h.clean_iff] at hclean
    have hfoot : ∀ p, p ∈ s.footprint root ↔ p ∈ s.nodesBelow 2 root := by
      intro p
      rw [hnodes]
      constructor
      · rintro (hp | ⟨va, hva, hp⟩)
        · exact hp
        · exact absurd (pte2pa_of_userFrame hp).1 (hclean va hva)
      · exact Or.inl
    have hfl : ∀ p, p ∈ s'.freeList ↔ p ∈ s.footprint root ∨ p ∈ s.freeList := by
      intro p
      rw [hfreed.freeList, List.mem_append, List.mem_reverse, hfoot]
    refine Or.inl ⟨hclean, s', he, ⟨?_, hfreed.kend, ?_, fun p hp => absurd hp (Set.notMem_empty p), ?_⟩,
      ?_⟩
    · refine ⟨hfreed.kend ▸ hw.kend_pos, ?_, fun p hp => ?_⟩
      · rw [hfreed.freeList]
        refine List.Nodup.append (List.nodup_reverse.mpr hnodup) hw.nodup ?_
        intro p hp hpf
        exact h.footprint_taken ((hfoot p).mpr (List.mem_reverse.mp hp)) hpf
      · rcases (hfl p).mp hp with hp | hp
        · exact (h.footprint_isPage hp).of_kend hfreed.kend
        · exact (hw.isPage p hp).of_kend hfreed.kend
    · rintro p (hp | hp)
      · exact absurd hp (Set.notMem_empty p)
      · exact (hfl p).mp hp
    · intro x hx
      exact hfreed.mem x fun p hp => hx p (Or.inl ((hfoot p).mpr hp))
    · intro p hp
      exact Or.inr ((hfl p).mpr hp)
  · right
    rw [h.clean_iff] at hdirty
    push Not at hdirty
    exact ⟨hdirty, he⟩

theorem freeUserPageTable (h : Space s root) (hw : s.WellFormed) (sz : ℕ)
    (hk : ∀ va < maxVa, isValid (s.leaf root va) → s.userFrame root va ≠ none) :
    ((∀ va < maxVa, isValid (s.leaf root va) → va < pgRoundUp sz) ∧
        ∃ s', s.freeUserPageTable root sz = .ok s' ∧ Moves s s' (s.footprint root) ∅ ∧
          Kept s s' (s.footprint root) ∅) ∨
      ((∃ va < maxVa, isValid (s.leaf root va) ∧ pgRoundUp sz ≤ va) ∧
        s.freeUserPageTable root sz = .error (.panic "freewalk: leaf")) ∨
      (maxVa < pgRoundUp sz ∧ s.freeUserPageTable root sz = .error (.panic "walk")) := by
  have hcount : 0 + unmapCount 0 (pgRoundUp sz / pgSize) * pgSize = pgRoundUp sz := by
    simp only [unmapCount, pgRoundUp, pgSize]
    omega
  have hrun : s.freeUserPageTable root sz = (do
      let s ← s.userUnmap root 0 (pgRoundUp sz / pgSize) true
      MemAllocator.freewalk 64 s root) := by
    unfold MemAllocator.freeUserPageTable
    split
    · rfl
    · rename_i hz
      obtain rfl : sz = 0 := by omega
      rfl
  rw [hrun]
  rcases (h.userUnmap hw (Nat.zero_mod pgSize) fun va hva _ _ => hk va hva :
      (∃ s', s.userUnmap root 0 (pgRoundUp sz / pgSize) true = .ok s' ∧ _) ∨ _) with
    ⟨s₁, he, hu, -⟩ | ⟨hlt, he⟩
  · rw [hcount] at hu
    rw [he, Kernel.ok_bind]
    rcases hu.acts.space.freewalk hu.acts.moves.wf with
      ⟨hclean, s', he', hm, hkept⟩ | ⟨⟨va, hva, hv⟩, he'⟩
    · refine Or.inl ⟨fun va hva hv => ?_, s', he', hu.acts.moves.trans hm, hu.kept.trans hkept⟩
      by_contra hge
      rw [← hu.outside va hva (by omega)] at hv
      exact hclean va hva hv
    · refine Or.inr (Or.inl ⟨⟨va, hva, ?_⟩, he'⟩)
      have hge : pgRoundUp sz ≤ va := by
        by_contra hlt
        exact hu.inside va hva (Nat.zero_le va) (by omega) hv
      rw [hu.outside va hva (by omega)] at hv
      exact ⟨hv, hge⟩
  · rw [hcount] at hlt
    rw [he]
    exact Or.inr (Or.inr ⟨hlt, rfl⟩)

/-- `FreeTaskPagetable`: every frame is given back, or there is a user page above the size, or
the size is larger than the address space. -/
theorem freeTaskPagetable (h : Space s root) (hw : s.WellFormed) (sz : ℕ) :
    ((∀ va < maxVa, s.userFrame root va ≠ none → va < pgRoundUp sz) ∧
        ∃ s', s.freeTaskPagetable root sz = .ok s' ∧ Moves s s' (s.footprint root) ∅ ∧
          Kept s s' (s.footprint root) ∅) ∨
      ((∃ va < maxVa, s.userFrame root va ≠ none ∧ pgRoundUp sz ≤ va) ∧
        s.freeTaskPagetable root sz = .error (.panic "freewalk: leaf")) ∨
      (maxVa < pgRoundUp sz ∧ s.freeTaskPagetable root sz = .error (.panic "walk")) := by
  obtain ⟨s₁, he₁, hu₁⟩ := h.userUnmap_kernel hw (show trampolineVa < maxVa by decide)
    (by decide) (by decide)
  obtain ⟨s₂, he₂, hu₂⟩ := hu₁.acts.space.userUnmap_kernel hu₁.acts.moves.wf
    (show trapframeVa < maxVa by decide) (by decide) (by decide)
  have hrun : s.freeTaskPagetable root sz = s₂.freeUserPageTable root sz := by
    unfold MemAllocator.freeTaskPagetable
    rw [he₁, Kernel.ok_bind, he₂, Kernel.ok_bind]
  have hvals : userTop = 274877898752 ∧ trapframeVa = 274877898752 ∧ trampolineVa = 274877902848 ∧
      maxVa = 274877906944 ∧ pgSize = 4096 := by decide
  have htop : ∀ va < maxVa, userTop ≤ va → ¬isValid (s₂.leaf root va) := by
    intro va hva hge hv
    by_cases hc : va < trampolineVa
    · exact hu₂.inside va hva (by omega) (by omega) hv
    · rw [hu₂.outside va hva (by omega)] at hv
      exact hu₁.inside va hva (by omega) (by omega) hv
  have hlow : ∀ va < maxVa, va < userTop → s₂.leaf root va = s.leaf root va := by
    intro va hva hlt
    rw [hu₂.outside va hva (by omega), hu₁.outside va hva (by omega)]
  have hleft : ∀ va < maxVa, isValid (s₂.leaf root va) ↔ s.userFrame root va ≠ none := by
    intro va hva
    constructor
    · intro hv hnone
      have hlt : va < userTop := by
        by_contra hge
        exact htop va hva (by omega) hv
      rw [hlow va hva hlt] at hv
      have := h.kernel va hva hv hnone
      omega
    · intro hne
      obtain ⟨p, hp⟩ := Option.ne_none_iff_exists'.mp hne
      rw [hlow va hva (h.below va hva p hp)]
      exact (pte2pa_of_userFrame hp).1
  have hk : ∀ va < maxVa, isValid (s₂.leaf root va) → s₂.userFrame root va ≠ none := by
    intro va hva hv
    have hlt : va < userTop := by
      by_contra hge
      exact htop va hva (by omega) hv
    rw [userFrame_congr (hlow va hva hlt)]
    exact (hleft va hva).mp hv
  rw [hrun]
  rcases hu₂.acts.space.freeUserPageTable hu₂.acts.moves.wf sz hk with
    ⟨hall, s', he, hm, hkept⟩ | ⟨⟨va, hva, hv, hge⟩, he⟩ | hover
  · refine Or.inl ⟨fun va hva hne => hall va hva ((hleft va hva).mpr hne), s', he, ?_, ?_⟩
    · exact (hu₁.acts.moves.trans hu₂.acts.moves).trans hm
    · exact (hu₁.kept.trans hu₂.kept).trans hkept
  · exact Or.inr (Or.inl ⟨⟨va, hva, (hleft va hva).mp hv, hge⟩, he⟩)
  · exact Or.inr (Or.inr hover)

end Space

end StartOS.MemAllocator
