import StartOS.Memory.PageTree

/-! # Mapping pages

`walk` with `alloc` links fresh cleared frames into the tree and `mappages`
fills entries that were invalid. Both only add to the table: no node moves, no
other entry changes and nothing outside the frames of the table is written.
-/

namespace StartOS.MemAllocator

open RadixTree

structure Grows (s s' : MemAllocator) (root : ℕ) : Prop where
  table : Table s' root
  wf : s'.WellFormed
  kend : s'.kend = s.kend
  freeList : s'.freeList <:+ s.freeList
  node_old : ∀ l n, l.length ≤ 2 → s.node root l = some n → s'.node root l = some n
  entry : ∀ l n i, l.length ≤ 2 → s.node root l = some n →
    s'.pteAt (pteAddr n i) = s.pteAt (pteAddr n i) ∨ isValid (s'.pteAt (pteAddr n i))
  node_new : ∀ l n, l.length ≤ 2 → s'.node root l = some n → s.node root l = none →
    n ∈ s.freeList ∧ ∀ i, ¬ isValid (s'.pteAt (pteAddr n i)) → s'.pteAt (pteAddr n i) = 0
  mem : ∀ x, (∀ l n, l.length ≤ 2 → s'.node root l = some n → x < n ∨ n + pgSize ≤ x) →
    s'.mem x = s.mem x

variable {s s' s'' : MemAllocator} {root va n m v p : ℕ} {i j : Fin 512} {l k : List (Fin 512)}

namespace Grows

theorem refl (h : Table s root) (hw : s.WellFormed) : Grows s s root where
  table := h
  wf := hw
  kend := rfl
  freeList := List.suffix_rfl
  node_old _ _ _ h := h
  entry _ _ _ _ _ := Or.inl rfl
  node_new l n _ h h' := by rw [h] at h'; cases h'
  mem _ _ := rfl

theorem trans (h : Grows s s' root) (h' : Grows s' s'' root) : Grows s s'' root where
  table := h'.table
  wf := h'.wf
  kend := h'.kend.trans h.kend
  freeList := h'.freeList.trans h.freeList
  node_old l n hl hn := h'.node_old l n hl (h.node_old l n hl hn)
  entry l n i hl hn := by
    rcases h'.entry l n i hl (h.node_old l n hl hn) with he | he
    · rw [he]
      exact h.entry l n i hl hn
    · exact Or.inr he
  node_new l n hl hn hnone := by
    rcases hn' : s'.node root l with _ | m
    · obtain ⟨hf, hz⟩ := h'.node_new l n hl hn hn'
      exact ⟨h.freeList.mem hf, hz⟩
    · have := h'.node_old l m hl hn'
      rw [hn] at this
      cases this
      obtain ⟨hf, hz⟩ := h.node_new l n hl hn' hnone
      refine ⟨hf, fun i hi => ?_⟩
      rcases h'.entry l n i hl hn' with he | he
      · rw [he] at hi ⊢
        exact hz i hi
      · exact absurd he hi
  mem x hx := by
    rw [h'.mem x hx]
    exact h.mem x fun l n hl hn => hx l n hl (h'.node_old l n hl hn)

end Grows

theorem zalloc_nil (h : s.freeList = []) : s.zalloc = (0, s) := by
  simp only [zalloc, alloc, h]

theorem zalloc_cons {fl : List ℕ} (h : s.freeList = p :: fl) (hp : 0 < p) :
    ∃ s', s.zalloc = (p, s') ∧ s'.freeList = fl ∧ s'.kend = s.kend ∧
      (∀ x, p ≤ x → x < p + pgSize → s'.mem x = 0) ∧
      ∀ x, x < p ∨ p + pgSize ≤ x → s'.mem x = s.mem x := by
  obtain ⟨q, rfl⟩ : ∃ q, p = q + 1 := ⟨p - 1, by omega⟩
  refine ⟨{ s.alloc.2 with mem := s.alloc.2.mem.fill (q + 1) pgSize 0 }, ?_, ?_, ?_, ?_, ?_⟩
  · simp only [zalloc, alloc, h]
  · simp only [alloc, h]
  · simp only [alloc, h]
  · exact fun x hx hx' => ByteMem.fill_of_mem hx hx'
  · intro x hx
    simp only [alloc, h]
    rw [ByteMem.fill_of_not_mem hx, ByteMem.fill_of_not_mem hx]

/-- The entries after a cleared frame `p` has been linked into entry `i` of `n`. -/
theorem pteAt_link (hw : s.WellFormed) {fl : List ℕ} (hfl : s.freeList = p :: fl)
    (hn : n % pgSize = 0) (i : Fin 512) :
    ∃ s₁ s', s.zalloc = (p, s₁) ∧ s' = s₁.setPte (pteAddr n i) (pa2pte p ||| pteV) ∧
      s'.freeList = fl ∧ s'.kend = s.kend ∧
      (∀ x, x < n ∨ n + pgSize ≤ x → x < p ∨ p + pgSize ≤ x → s'.mem x = s.mem x) ∧
      ∀ m j, m % pgSize = 0 → s'.pteAt (pteAddr m j) =
        if m = n ∧ j = i then pa2pte p ||| pteV
        else if m = p then 0 else s.pteAt (pteAddr m j) := by
  have hpp := hw.isPage p (by simp [hfl])
  have hp0 : 0 < p := by have := hpp.kend_le; have := hw.kend_pos; omega
  obtain ⟨s₁, hz, hfl₁, hkend, hzero, hmem⟩ := zalloc_cons hfl hp0
  have hlt : p < 2 ^ 64 := hpp.lt_top.trans (by norm_num [physTop])
  have hv : pa2pte p ||| pteV < 2 ^ 64 := by
    rw [link_eq]; exact pte_lt (by norm_num) hlt
  refine ⟨s₁, _, hz, rfl, hfl₁, hkend, fun x hx hx' => ?_, fun m j hm => ?_⟩
  · refine (ByteMem.writeLE_of_not_mem ?_).trans (hmem x hx')
    have := i.isLt
    simp only [pteAddr, pgSize] at *
    omega
  · rw [pteAt_setPte hn hm hv]
    split
    · rfl
    have hj := j.isLt
    have ha := hpp.aligned
    simp only [pgSize] at hm ha
    split
    · subst m
      exact ByteMem.readLE_eq_zero fun x hx hx' => hzero x (by simp only [pteAddr] at hx; omega)
        (by simp only [pteAddr, pgSize] at *; omega)
    · refine ByteMem.readLE_congr fun x hx hx' => hmem x ?_
      simp only [pteAddr, pgSize] at *
      omega

/-- The frame `p` is taken, cleared and linked into entry `i` of the node `n`, which is at `k` below
the root. -/
structure NodeAdded (s s' : MemAllocator) (root : ℕ) (k : List (Fin 512)) (n : ℕ) (i : Fin 512)
    (p : ℕ) : Prop where
  table : Table s root
  wf : s.WellFormed
  upper : k.length < 2
  node : s.node root k = some n
  unlinked : ¬ isValid (s.pteAt (pteAddr n i))
  freeList : s.freeList = p :: s'.freeList
  kend : s'.kend = s.kend
  mem : ∀ x, x < n ∨ n + pgSize ≤ x → x < p ∨ p + pgSize ≤ x → s'.mem x = s.mem x
  pteAt : ∀ m j, m % pgSize = 0 → s'.pteAt (pteAddr m j) =
    if m = n ∧ j = i then pa2pte p ||| pteV else if m = p then 0 else s.pteAt (pteAddr m j)

namespace NodeAdded

variable (h : NodeAdded s s' root k n i p)

include h

theorem mem_freeList : p ∈ s.freeList := by simp [h.freeList]

theorem isPage : s.IsPage p := h.wf.isPage p h.mem_freeList

theorem isPage_of {q : ℕ} (hq : s.IsPage q) : s'.IsPage q :=
  ⟨hq.aligned, by rw [h.kend]; exact hq.kend_le, hq.lt_top⟩

theorem fresh (l : List (Fin 512)) (hl : l.length ≤ 2) : s.node root l ≠ some p := fun he =>
  h.table.taken l p hl he h.mem_freeList

theorem entry : s'.pteAt (pteAddr n i) = pa2pte p ||| pteV :=
  (h.pteAt n i (h.table.isPage k n h.upper.le h.node).aligned).trans (if_pos ⟨rfl, rfl⟩)

theorem child_entry : s'.child n i = some p := by
  have hlt : p < 2 ^ 64 := h.isPage.lt_top.trans (by norm_num [physTop])
  rw [child, h.entry, if_pos (isValid_or _), link_eq, pte2pa_or (by norm_num) h.isPage.aligned hlt]

theorem pteAt_new (j : Fin 512) : s'.pteAt (pteAddr p j) = 0 := by
  have hne : p ≠ n := fun he => h.fresh k h.upper.le (he ▸ h.node)
  rw [h.pteAt p j h.isPage.aligned, if_neg fun hc => hne hc.1, if_pos rfl]

theorem child_new (j : Fin 512) : s'.child p j = none := by
  rw [child, h.pteAt_new j]
  rfl

theorem pteAt_of_ne {l : List (Fin 512)} {m : ℕ} {j : Fin 512} (hl : l.length ≤ 2)
    (hm : s.node root l = some m) (hmn : ¬ (m = n ∧ j = i)) :
    s'.pteAt (pteAddr m j) = s.pteAt (pteAddr m j) := by
  have hmp : m ≠ p := fun he => h.fresh l hl (he ▸ hm)
  rw [h.pteAt m j (h.table.isPage l m hl hm).aligned, if_neg hmn, if_neg hmp]

theorem child_of_ne (l : List (Fin 512)) (m : ℕ) (j : Fin 512) (hl : l.length ≤ 2)
    (hm : follow s.child root l = some m) (hmn : ¬ (m = n ∧ j = i)) :
    s'.child m j = s.child m j := by
  rw [child, h.pteAt_of_ne hl hm hmn]
  rfl

theorem child_unlinked : s.child n i = none := by rw [child, if_neg h.unlinked]

theorem node_eq {l : List (Fin 512)} (hl : l.length ≤ 2) :
    s'.node root l = if l = k ++ [i] then some p else s.node root l :=
  follow_link h.table.unshared h.upper h.node h.child_unlinked h.child_entry h.child_new h.child_of_ne
    hl

theorem node_unlinked : s.node root (k ++ [i]) = none := by
  rw [MemAllocator.node, follow_concat, show follow s.child root k = some n from h.node]
  exact h.child_unlinked

theorem node_linked : s'.node root (k ++ [i]) = some p := by
  have hk := h.upper
  rw [h.node_eq (by simp; omega), if_pos rfl]

theorem node_cases {l : List (Fin 512)} {m : ℕ} (hl : l.length ≤ 2) (hm : s'.node root l = some m) :
    (l = k ++ [i] ∧ m = p) ∨ (s.node root l = some m ∧ m ≠ p) := by
  rw [h.node_eq hl] at hm
  split at hm
  · exact Or.inl ⟨‹_›, (Option.some.inj hm).symm⟩
  · exact Or.inr ⟨hm, fun he => h.fresh l hl (he ▸ hm)⟩

theorem leaf (va : ℕ) : s'.leaf root va = s.leaf root va := by
  have hl2 : (path va 2).length ≤ 2 := by simp [path]
  cases hm : s'.node root (path va 2) with
  | none =>
    have hm' := hm
    rw [h.node_eq hl2] at hm'
    split at hm'
    · cases hm'
    · rw [leaf_of_none hm, leaf_of_none hm']
  | some m =>
    rw [leaf_of_node hm]
    rcases h.node_cases hl2 hm with ⟨he, rfl⟩ | ⟨hm', -⟩
    · rw [h.pteAt_new, leaf_of_none (he ▸ h.node_unlinked)]
    · rw [leaf_of_node hm', h.pteAt_of_ne hl2 hm']
      rintro ⟨rfl, -⟩
      have hlen := congrArg List.length (h.table.unshared _ _ m hl2 h.upper.le hm' h.node)
      have hk := h.upper
      simp [path] at hlen
      omega

theorem table' : Table s' root where
  unshared := unshared_link h.table.unshared h.upper h.node h.child_unlinked h.fresh h.child_entry
    h.child_new h.child_of_ne
  isPage l m hl hm := by
    rcases h.node_cases hl hm with ⟨-, rfl⟩ | ⟨hm, -⟩
    · exact h.isPage_of h.isPage
    · exact h.isPage_of (h.table.isPage l m hl hm)
  taken l m hl hm hmf := by
    have hnd := h.wf.nodup
    rw [h.freeList, List.nodup_cons] at hnd
    rcases h.node_cases hl hm with ⟨-, rfl⟩ | ⟨hm, -⟩
    · exact hnd.1 hmf
    · exact h.table.taken l m hl hm (by rw [h.freeList]; exact List.mem_cons_of_mem _ hmf)
  interior l m j hl hm hv := by
    rcases h.node_cases hl.le hm with ⟨-, rfl⟩ | ⟨hm, -⟩
    · rw [h.pteAt_new j] at hv
      cases hv
    · by_cases hmn : m = n ∧ j = i
      · obtain ⟨rfl, rfl⟩ := hmn
        rw [h.entry]
        exact link_interior p
      · rw [h.pteAt_of_ne hl.le hm hmn] at hv ⊢
        exact h.table.interior l m j hl hm hv

theorem wf' : s'.WellFormed where
  kend_pos := by rw [h.kend]; exact h.wf.kend_pos
  nodup := by
    have hnd := h.wf.nodup
    rw [h.freeList, List.nodup_cons] at hnd
    exact hnd.2
  isPage q hq := h.isPage_of (h.wf.isPage q (by rw [h.freeList]; exact List.mem_cons_of_mem _ hq))

theorem grows : Grows s s' root where
  table := h.table'
  wf := h.wf'
  kend := h.kend
  freeList := by rw [h.freeList]; exact List.suffix_cons _ _
  node_old l m hl hm := by
    rw [h.node_eq hl, if_neg, hm]
    rintro rfl
    rw [h.node_unlinked] at hm
    cases hm
  entry l m j hl hm := by
    by_cases hmn : m = n ∧ j = i
    · right
      obtain ⟨rfl, rfl⟩ := hmn
      rw [h.entry]
      exact isValid_or _
    · exact Or.inl (h.pteAt_of_ne hl hm hmn)
  node_new l m hl hm hm' := by
    rcases h.node_cases hl hm with ⟨-, rfl⟩ | ⟨hm, -⟩
    · exact ⟨h.mem_freeList, fun j _ => h.pteAt_new j⟩
    · rw [hm'] at hm
      cases hm
  mem x hx := by
    have hk := h.upper
    refine h.mem x (hx k n hk.le ?_) (hx (k ++ [i]) p (by simp; omega) h.node_linked)
    rw [h.node_eq hk.le, if_neg (by simp), h.node]

end NodeAdded

theorem Table.addNode (h : Table s root) (hw : s.WellFormed) {fl : List ℕ}
    (hfl : s.freeList = p :: fl) (hk : k.length < 2) (hn : s.node root k = some n)
    (hi : ¬ isValid (s.pteAt (pteAddr n i))) :
    ∃ s₁ s', s.zalloc = (p, s₁) ∧ s' = s₁.setPte (pteAddr n i) (pa2pte p ||| pteV) ∧
      Grows s s' root ∧ s'.node root (k ++ [i]) = some p ∧
      ∀ va, s'.leaf root va = s.leaf root va := by
  obtain ⟨s₁, s', hz, hs', hfl', hkend, hmem, hat⟩ :=
    pteAt_link hw hfl (h.isPage k n hk.le hn).aligned i
  have hadded : NodeAdded s s' root k n i p :=
    ⟨h, hw, hk, hn, hi, by rw [hfl, hfl'], hkend, hmem, hat⟩
  exact ⟨s₁, s', hz, hs', hadded.grows, hadded.node_linked, hadded.leaf⟩

theorem path_eq_iff {va' : ℕ} (hva : va < maxVa) (hva' : va' < maxVa) :
    path va' 2 = path va 2 ∧ px 0 va' = px 0 va ↔ va' / pgSize = va / pgSize := by
  simp only [path, px, List.cons.injEq, Fin.mk.injEq, pgSize, maxVa] at *
  norm_num
  omega

theorem Table.storeLeaf (h : Table s root) (hva : va < maxVa)
    (hn : s.node root (path va 2) = some n) (hlt : v < 2 ^ 64) :
    Table (s.setPte (pteAddr n (px 0 va)) v) root ∧
      (∀ l, l.length ≤ 2 → (s.setPte (pteAddr n (px 0 va)) v).node root l = s.node root l) ∧
      (∀ l m j, l.length ≤ 2 → s.node root l = some m →
        (s.setPte (pteAddr n (px 0 va)) v).pteAt (pteAddr m j) =
          if m = n ∧ j = px 0 va then v else s.pteAt (pteAddr m j)) ∧
      (∀ x, x < n ∨ n + pgSize ≤ x → (s.setPte (pteAddr n (px 0 va)) v).mem x = s.mem x) ∧
      ∀ va' < maxVa, (s.setPte (pteAddr n (px 0 va)) v).leaf root va' =
        if va' / pgSize = va / pgSize then v else s.leaf root va' := by
  set s' := s.setPte (pteAddr n (px 0 va)) v with hs'
  have hl2 : ∀ a, (path a 2).length = 2 := fun a => by simp [path]
  have hnp := h.isPage _ n (hl2 va).le hn
  have hat : ∀ l m j, l.length ≤ 2 → s.node root l = some m → s'.pteAt (pteAddr m j) =
      if m = n ∧ j = px 0 va then v else s.pteAt (pteAddr m j) := fun l m j hl hm =>
    pteAt_setPte hnp.aligned (h.isPage l m hl hm).aligned hlt
  have hup : ∀ l m, l.length < 2 → s.node root l = some m → m ≠ n := by
    rintro l m hl hm rfl
    have := congrArg List.length (h.unshared l _ m hl.le (hl2 va).le hm hn)
    rw [hl2] at this
    omega
  have hatup : ∀ l m j, l.length < 2 → s.node root l = some m →
      s'.pteAt (pteAddr m j) = s.pteAt (pteAddr m j) := fun l m j hl hm =>
    (hat l m j hl.le hm).trans (if_neg fun hc => hup l m hl hm hc.1)
  have hnode : ∀ l, l.length ≤ 2 → s'.node root l = s.node root l := fun l hl =>
    follow_congr hl fun k m i hk hm => by rw [child, hatup k m i hk hm]; rfl
  refine ⟨⟨?_, ?_, ?_, ?_⟩, hnode, hat, ?_, ?_⟩
  · intro l l' p hl hl' hp hp'
    exact h.unshared l l' p hl hl' ((hnode l hl).symm.trans hp) ((hnode l' hl').symm.trans hp')
  · intro l m hl hm
    have := h.isPage l m hl ((hnode l hl).symm.trans hm)
    exact ⟨this.aligned, this.kend_le, this.lt_top⟩
  · exact fun l m hl hm => h.taken l m hl ((hnode l hl).symm.trans hm)
  · intro l m j hl hm hv
    have hm := (hnode l hl.le).symm.trans hm
    rw [hatup l m j hl hm] at hv ⊢
    exact h.interior l m j hl hm hv
  · intro x hx
    refine ByteMem.writeLE_of_not_mem ?_
    have := (px 0 va).isLt
    simp only [pteAddr, pgSize] at *
    omega
  · intro va' hva'
    rw [← if_congr (path_eq_iff hva hva') rfl rfl]
    cases hm : s.node root (path va' 2) with
    | none =>
      rw [leaf_of_none ((hnode _ (hl2 va').le).trans hm), leaf_of_none hm, if_neg]
      rintro ⟨he, -⟩
      rw [he, hn] at hm
      cases hm
    | some m =>
      rw [leaf_of_node ((hnode _ (hl2 va').le).trans hm), leaf_of_node hm,
        hat _ m _ (hl2 va').le hm]
      refine if_congr (and_congr_left' ⟨?_, fun he => ?_⟩) rfl rfl
      · rintro rfl
        exact h.unshared _ _ m (hl2 va').le (hl2 va).le hm hn
      · rw [he, hn] at hm
        exact (Option.some.inj hm).symm

theorem Table.setLeaf (h : Table s root) (hw : s.WellFormed) (hva : va < maxVa)
    (hn : s.node root (path va 2) = some n) (hv : isValid v) (hlt : v < 2 ^ 64) :
    Grows s (s.setPte (pteAddr n (px 0 va)) v) root ∧
      ∀ va' < maxVa, (s.setPte (pteAddr n (px 0 va)) v).leaf root va' =
        if va' / pgSize = va / pgSize then v else s.leaf root va' := by
  obtain ⟨htable, hnode, hat, hmem, hleaf⟩ := h.storeLeaf hva hn hlt
  refine ⟨⟨htable, ⟨hw.kend_pos, hw.nodup, ?_⟩, rfl, List.suffix_rfl, ?_, ?_, ?_, ?_⟩, hleaf⟩
  · exact fun q hq => ⟨(hw.isPage q hq).aligned, (hw.isPage q hq).kend_le, (hw.isPage q hq).lt_top⟩
  · exact fun l m hl hm => (hnode l hl).trans hm
  · intro l m j hl hm
    rw [hat l m j hl hm]
    split
    · exact Or.inr hv
    · exact Or.inl rfl
  · intro l m hl hm hm'
    rw [hnode l hl, hm'] at hm
    cases hm
  · intro x hx
    have hl2 : (path va 2).length ≤ 2 := by simp [path]
    exact hmem x (hx _ n hl2 ((hnode _ hl2).trans hn))

/-- `walk` with `alloc` finds the entry, or runs out of frames; no translation changes. -/
theorem Table.walkFrom_true (va level : ℕ) (h : Table s root) (hw : s.WellFormed)
    (hk : k.length + level = 2) (hn : s.node root k = some n) :
    ∃ a s', s.walkFrom va true level n = (a, s') ∧ Grows s s' root ∧
      (∀ va', s'.leaf root va' = s.leaf root va') ∧
      ((a = 0 ∧ s'.freeList = []) ∨
        ∃ m, s'.node root (k ++ path va level) = some m ∧ a = pteAddr m (px 0 va)) := by
  induction level generalizing s k n with
  | zero =>
    exact ⟨_, s, rfl, .refl h hw, fun _ => rfl, Or.inr ⟨n, by simpa [path] using hn, rfl⟩⟩
  | succ level ih =>
    have hpath : ∀ i, k ++ i :: path va level = (k ++ [i]) ++ path va level := by simp
    rw [walkFrom, path, hpath]
    by_cases hv : isValid (s.pteAt (pteAddr n (px (level + 1) va)))
    · have hc : s.node root (k ++ [px (level + 1) va]) =
          some (pte2pa (s.pteAt (pteAddr n (px (level + 1) va)))) := by
        rw [node, follow_concat, show follow s.child root k = some n from hn, Option.bind_some,
          child, if_pos hv]
      simp only [if_pos hv]
      exact ih h hw (by simp; omega) hc
    · simp only [if_neg hv, Bool.not_true, Bool.false_eq_true, if_false]
      rcases hfl : s.freeList with _ | ⟨p, fl⟩
      · rw [zalloc_nil hfl]
        exact ⟨0, s, rfl, .refl h hw, fun _ => rfl, Or.inl ⟨rfl, hfl⟩⟩
      · obtain ⟨s₁, s', hz, rfl, hg, hp, hl⟩ := h.addNode hw hfl (by omega) hn hv
        obtain ⟨a, s'', hwalk, hg', hl', hres⟩ := ih hg.table hg.wf (by simp; omega) hp
        have hp0 : p ≠ 0 := by
          have := (hw.isPage p (by simp [hfl])).kend_le
          have := hw.kend_pos
          omega
        refine ⟨a, s'', ?_, hg.trans hg', fun va' => (hl' va').trans (hl va'), hres⟩
        rw [hz]
        obtain ⟨q, rfl⟩ : ∃ q, p = q + 1 := ⟨p - 1, by omega⟩
        exact hwalk

theorem samePage_iff {a : ℕ} (ha : a % pgSize = 0) (va : ℕ) :
    va / pgSize = a / pgSize ↔ a ≤ va ∧ va < a + pgSize := by
  simp only [pgSize] at *
  omega

theorem samePage_sub {a : ℕ} (h : a ≤ va ∧ va < a + pgSize) : (va - a) / pgSize = 0 :=
  Nat.div_eq_of_lt (by omega)

/-- One turn of the loop of `mappages`: no frame, or the entry of `a` filled. -/
theorem Table.mapOne {a : ℕ} (h : Table s root) (hw : s.WellFormed) (ha : a < maxVa)
    (hi : ¬ isValid (s.leaf root a)) (hv : isValid v) (hlt : v < 2 ^ 64) :
    (∃ s', s.walk root a true = .ok (0, s') ∧ Grows s s' root ∧
      ∀ va, s'.leaf root va = s.leaf root va) ∨
    ∃ pte s₁, s.walk root a true = .ok (pte, s₁) ∧ pte ≠ 0 ∧ ¬ isValid (s₁.pteAt pte) ∧
      Grows s (s₁.setPte pte v) root ∧
      ∀ va < maxVa, (s₁.setPte pte v).leaf root va =
        if va / pgSize = a / pgSize then v else s.leaf root va := by
  obtain ⟨pte, s₁, hwalk, hg, hl, hres⟩ :=
    h.walkFrom_true a 2 (k := []) hw rfl rfl
  have hwalk' : s.walk root a true = .ok (pte, s₁) := by rw [walk, if_neg (by omega), hwalk]
  rcases hres with ⟨rfl, -⟩ | ⟨m, hm, rfl⟩
  · exact Or.inl ⟨s₁, hwalk', hg, hl⟩
  · right
    have hm : s₁.node root (path a 2) = some m := hm
    have hpos := hg.table.pos hg.wf (by simp [path]) hm
    obtain ⟨hg', hl'⟩ := hg.table.setLeaf hg.wf ha hm hv hlt
    refine ⟨_, s₁, hwalk', by simp only [pteAddr]; omega, ?_, hg.trans hg', fun va hva => ?_⟩
    · rw [← leaf_of_node hm, hl]
      exact hi
    · rw [hl' va hva, hl va]

/-- The loop of `mappages` fills the entries of the first `M` pages, all of them unless a frame
is missing. -/
theorem Table.mapFrom_spec {N fuel a pa perm : ℕ} (h : Table s root) (hw : s.WellFormed)
    (ha : a % pgSize = 0) (hN : a + pgSize * N < maxVa) (hf : N < fuel) (hpa : pa < 2 ^ 64)
    (hperm : perm < 1024) (hinv : ∀ j ≤ N, ¬ isValid (s.leaf root (a + pgSize * j))) :
    ∃ r s' M, mapFrom root (a + pgSize * N) perm fuel s a pa = .ok (r, s') ∧ Grows s s' root ∧
      ((r = 0 ∧ M = N + 1) ∨ (r = -1 ∧ M ≤ N)) ∧
      ∀ va < maxVa, s'.leaf root va =
        if a ≤ va ∧ va < a + pgSize * M then
          pa2pte ((pa + (va - a) / pgSize * pgSize) % 2 ^ 64) ||| perm ||| pteV
        else s.leaf root va := by
  have hv := isValid_or (pa2pte pa ||| perm)
  have hlt := pte_lt hperm hpa
  induction N generalizing s a pa fuel with
  | zero =>
    obtain ⟨fuel, rfl⟩ : ∃ f, fuel = f + 1 := ⟨fuel - 1, by omega⟩
    have hi := hinv 0 le_rfl
    rw [mul_zero, add_zero] at hN hi ⊢
    rw [mapFrom]
    rcases h.mapOne hw hN hi hv hlt with ⟨s', he, hg, hl⟩ | ⟨pte, s₁, he, hp, hnv, hg, hl⟩
    · refine ⟨-1, s', 0, by simp [he], hg, Or.inr ⟨rfl, le_rfl⟩, fun va _ => ?_⟩
      rw [hl, if_neg (by omega)]
    · refine ⟨0, _, 1, by simp [he, hp, hnv], hg, Or.inl ⟨rfl, rfl⟩, fun va hva => ?_⟩
      rw [hl va hva, if_congr (samePage_iff ha va) rfl rfl, mul_one]
      split
      · rename_i hc
        rw [samePage_sub hc, zero_mul, add_zero, Nat.mod_eq_of_lt hpa]
      · rfl
  | succ N ih =>
    obtain ⟨fuel, rfl⟩ : ∃ f, fuel = f + 1 := ⟨fuel - 1, by omega⟩
    have hi := hinv 0 (by omega)
    rw [mul_zero, add_zero] at hi
    have hlast : a + pgSize * (N + 1) = a + pgSize + pgSize * N := by ring
    rw [hlast] at hN ⊢
    have hale : a < maxVa := by omega
    rw [mapFrom]
    rcases h.mapOne hw hale hi hv hlt with ⟨s', he, hg, hl⟩ | ⟨pte, s₁, he, hp, hnv, hg, hl⟩
    · refine ⟨-1, s', 0, by simp [he], hg, Or.inr ⟨rfl, Nat.zero_le _⟩, fun va _ => ?_⟩
      rw [hl, if_neg (by omega)]
    · have hmod : (a + pgSize) % 2 ^ 64 = a + pgSize := by
        simp only [maxVa, pgSize] at *
        omega
      have hrest : ∀ j ≤ N, ¬ isValid ((s₁.setPte pte (pa2pte pa ||| perm ||| pteV)).leaf root
          (a + pgSize + pgSize * j)) := by
        intro j hj
        have hlt' : a + pgSize + pgSize * j < maxVa := by
          have := Nat.mul_le_mul_left pgSize hj
          omega
        rw [hl _ hlt', if_neg]
        · have := hinv (j + 1) (by omega)
          rwa [show a + pgSize * (j + 1) = a + pgSize + pgSize * j by ring] at this
        · simp only [pgSize]
          omega
      obtain ⟨r, s', M, he', hg', hr, hl'⟩ := ih hg.table hg.wf
        (by simp only [pgSize] at *; omega) hN (show N < fuel by omega)
        (Nat.mod_lt (pa + pgSize) (by norm_num)) hrest (isValid_or _)
        (pte_lt hperm (Nat.mod_lt _ (by norm_num)))
      refine ⟨r, s', M + 1, ?_, hg.trans hg', by omega, fun va hva => ?_⟩
      · have hne : a ≠ a + pgSize + pgSize * N := by simp only [pgSize]; omega
        simp only [he, Kernel.ok_bind, if_neg hp, hnv, if_neg hne, hmod]
        exact he'
      · rw [hl' va hva, hl va hva, if_congr (samePage_iff ha va) rfl rfl]
        by_cases h₁ : a ≤ va ∧ va < a + pgSize
        · rw [if_neg (by omega), if_pos h₁, if_pos ⟨h₁.1, by rw [mul_add]; omega⟩, samePage_sub h₁,
            zero_mul, add_zero, Nat.mod_eq_of_lt hpa]
        · rw [if_neg h₁]
          refine if_ctx_congr ⟨fun hc => ⟨by omega, by rw [mul_add]; omega⟩, fun hc => ?_⟩
            (fun hc => ?_) fun _ => rfl
          · rw [mul_add] at hc
            omega
          · have hdiv : (va - a) / pgSize = (va - (a + pgSize)) / pgSize + 1 := by
              simp only [pgSize] at *
              omega
            rw [hdiv, Nat.mod_add_mod, add_mul, one_mul, add_assoc pa, add_comm pgSize]

/-- The entry for `va` is valid and holds `pa` and `flags`. -/
structure Mapped (s : MemAllocator) (root va pa flags : ℕ) : Prop where
  valid : isValid (s.walkPte root va) = true
  pa : pte2pa (s.walkPte root va) = pa
  flags : pteFlags (s.walkPte root va) = flags

/-- `mappages` over pages that are not mapped: on 0 the whole range is mapped, on -1 each page
of it is mapped or not, and either way the table has only grown inside the range. -/
theorem mappages_spec {size pa perm : ℕ} (h : Table s root) (hw : s.WellFormed) (hsize : 0 < size)
    (hva : va + size ≤ maxVa) (hpa : pa % pgSize = 0) (hpa' : pa < 2 ^ 64) (hperm : perm < 1024)
    (hinv : ∀ a, pgRoundDown va ≤ a → a < pgRoundDown (va + size - 1) + pgSize →
      isValid (s.walkPte root a) = false) :
    ∃ r s', s.mappages root va size pa perm = .ok (r, s') ∧ Grows s s' root ∧
      (∀ a < maxVa, a < pgRoundDown va ∨ pgRoundDown (va + size - 1) + pgSize ≤ a →
        s'.walkPte root a = s.walkPte root a) ∧
      ((r = 0 ∧ ∀ k, pgRoundDown va + k * pgSize ≤ pgRoundDown (va + size - 1) →
          Mapped s' root (pgRoundDown va + k * pgSize) ((pa + k * pgSize) % 2 ^ 64)
            (perm ||| pteV)) ∨
        (r = -1 ∧ ∀ k, pgRoundDown va + k * pgSize ≤ pgRoundDown (va + size - 1) →
          Mapped s' root (pgRoundDown va + k * pgSize) ((pa + k * pgSize) % 2 ^ 64)
            (perm ||| pteV) ∨ isValid (s'.walkPte root (pgRoundDown va + k * pgSize)) = false)) := by
  obtain ⟨N, hN⟩ : ∃ N, pgRoundDown (va + size - 1) = pgRoundDown va + pgSize * N :=
    ⟨(va + size - 1) / 4096 - va / 4096, by simp only [pgRoundDown, pgSize]; omega⟩
  have ha : pgRoundDown va % pgSize = 0 := by simp only [pgRoundDown, pgSize]; omega
  have hlast : pgRoundDown va + pgSize * N + pgSize ≤ maxVa := by
    rw [← hN]
    simp only [pgRoundDown, pgSize, maxVa] at *
    omega
  have hmod : (va + size + 2 ^ 64 - 1) % 2 ^ 64 = va + size - 1 := by
    simp only [maxVa] at hva
    omega
  have hfuel : N < maxVa / pgSize + 1 := by
    simp only [pgSize, maxVa] at *
    omega
  have hpg : 0 < pgSize := by norm_num [pgSize]
  rw [hN] at hinv ⊢
  have hle : ∀ j ≤ N, pgSize * j ≤ pgSize * N := fun j hj => Nat.mul_le_mul_left _ hj
  obtain ⟨r, s', M, he, hg, hr, hl⟩ := h.mapFrom_spec hw ha (by omega) hfuel hpa' hperm
    fun j hj => by
      have hj' := hle j hj
      rw [← h.walkPte_eq hw (by omega), hinv _ (by omega) (by omega)]
      decide
  have hM : M ≤ N + 1 := by omega
  have hMle : pgSize * M ≤ pgSize * N + pgSize := by
    have := Nat.mul_le_mul_left pgSize hM
    rwa [mul_add, mul_one] at this
  have hpte : ∀ k, pgRoundDown va + k * pgSize ≤ pgRoundDown va + pgSize * N →
      s'.walkPte root (pgRoundDown va + k * pgSize) = if k < M then
        pa2pte ((pa + k * pgSize) % 2 ^ 64) ||| perm ||| pteV
        else s.walkPte root (pgRoundDown va + k * pgSize) := by
    intro k hk
    have hlt : pgRoundDown va + k * pgSize < maxVa := by omega
    rw [hg.table.walkPte_eq hg.wf hlt, h.walkPte_eq hw hlt, hl _ hlt, Nat.add_sub_cancel_left,
      Nat.mul_div_cancel _ hpg]
    refine if_congr ⟨fun hc => ?_, fun hc => ⟨Nat.le_add_right _ _, ?_⟩⟩ rfl rfl
    · refine lt_of_mul_lt_mul_left (a := pgSize) ?_ (Nat.zero_le _)
      rw [mul_comm pgSize k]
      omega
    · have := Nat.mul_lt_mul_of_pos_left hc hpg
      rw [mul_comm pgSize k] at this
      omega
  have hmap : ∀ k, pgRoundDown va + k * pgSize ≤ pgRoundDown va + pgSize * N → k < M →
      Mapped s' root (pgRoundDown va + k * pgSize) ((pa + k * pgSize) % 2 ^ 64)
        (perm ||| pteV) := by
    intro k hk hkM
    have he := (hpte k hk).trans (if_pos hkM)
    have hpk : (pa + k * pgSize) % 2 ^ 64 % 4096 = 0 := by
      simp only [pgSize] at *
      omega
    exact ⟨by rw [he]; exact isValid_or _,
      by rw [he, pte2pa_or hperm hpk (Nat.mod_lt _ (by norm_num))],
      by rw [he, pteFlags_or hperm]⟩
  refine ⟨r, s', ?_, hg, fun a hlt hout => ?_, ?_⟩
  · rw [mappages, hmod, hN]
    exact he
  · rw [hg.table.walkPte_eq hg.wf hlt, h.walkPte_eq hw hlt, hl a hlt, if_neg (by omega)]
  · rcases hr with ⟨rfl, rfl⟩ | ⟨rfl, hMN⟩
    · refine Or.inl ⟨rfl, fun k hk => hmap k hk ?_⟩
      have : k * pgSize ≤ N * pgSize := by rw [mul_comm N]; omega
      have := Nat.le_of_mul_le_mul_right this hpg
      omega
    · refine Or.inr ⟨rfl, fun k hk => ?_⟩
      by_cases hkM : k < M
      · exact Or.inl (hmap k hk hkM)
      · right
        rw [hpte k hk, if_neg hkM]
        exact hinv _ (by omega) (by omega)

theorem Table.of_zero (hr : s.IsPage root) (hf : root ∉ s.freeList)
    (hz : ∀ i, isValid (s.pteAt (pteAddr root i)) = false) : Table s root := by
  have hnode : ∀ l n, s.node root l = some n → l = [] ∧ n = root := by
    intro l n hn
    cases l with
    | nil => exact ⟨rfl, (Option.some.inj hn).symm⟩
    | cons i l =>
      rw [node, follow_cons, child, hz i] at hn
      cases hn
  refine ⟨fun l l' p _ _ hp hp' => ?_, fun l n _ hn => ?_, fun l n _ hn => ?_,
    fun l n i _ hn hv => ?_⟩
  · rw [(hnode l p hp).1, (hnode l' p hp').1]
  · rw [(hnode l n hn).2]
    exact hr
  · rw [(hnode l n hn).2]
    exact hf
  · rw [(hnode l n hn).2, hz i] at hv
    cases hv

/-- Cleared memory with two free frames below the table at `0x80400000`. -/
def cleared : MemAllocator := ⟨0x80200000, fun _ => 0, [0x80300000, 0x80301000], 2⟩

theorem table_cleared : Table cleared 0x80400000 :=
  .of_zero ⟨by decide, by decide, by decide⟩ (by decide) fun i => by
    have : cleared.pteAt (pteAddr 0x80400000 i) = 0 := ByteMem.readLE_eq_zero fun _ _ _ => rfl
    rw [this]
    rfl

theorem wellFormed_cleared : cleared.WellFormed :=
  ⟨by decide, by decide, fun p hp => by
    have : p = 0x80300000 ∨ p = 0x80301000 := by simpa [cleared] using hp
    rcases this with rfl | rfl <;> exact ⟨by decide, by decide, by decide⟩⟩

theorem mappages_spec_cleared : ∃ s', cleared.mappages 0x80400000 0x1fff 2 0x80500000 22 =
    .ok (0, s') ∧ Mapped s' 0x80400000 0x1000 0x80500000 23 ∧
      Mapped s' 0x80400000 0x2000 0x80501000 23 := by
  have hz : ∀ va < maxVa, cleared.walkPte 0x80400000 va = 0 := by
    intro va hva
    rw [table_cleared.walkPte_eq wellFormed_cleared hva, leaf]
    split
    · rfl
    · exact ByteMem.readLE_eq_zero fun _ _ _ => rfl
  obtain ⟨r, s', he, -, -, hres⟩ := @mappages_spec cleared 0x80400000 0x1fff 2 0x80500000 22
    table_cleared wellFormed_cleared (by decide) (by decide) (by decide) (by decide)
    (by decide) fun a _ ha => by
      rw [hz a (ha.trans (by decide))]
      rfl
  have hr : (cleared.mappages 0x80400000 0x1fff 2 0x80500000 22).map Prod.fst = .ok 0 := by
    decide +kernel
  rw [he] at hr
  obtain rfl : r = 0 := by simpa [Except.map] using hr
  rcases hres with ⟨-, hm⟩ | ⟨hc, -⟩
  · exact ⟨s', he, hm 0 (by decide), hm 1 (by decide)⟩
  · cases hc

end StartOS.MemAllocator
