import StartOS.Memory.AddressSpace

/-! # Mapping a user page

A frame from the free list is given some content and mapped at a page that is
not in use. When a node of the table is missing and no frame is left for it the
table is as it was and the frame belongs to nobody.
-/

namespace StartOS.MemAllocator

open RadixTree

variable {s s₁ s' : MemAllocator} {root va va' p q n v x perm : ℕ} {k l : List (Fin 512)}

theorem leaf_page (s : MemAllocator) (root : ℕ) (hva : va < maxVa) (hva' : va' < maxVa)
    (h : va' / pgSize = va / pgSize) : s.leaf root va' = s.leaf root va := by
  obtain ⟨hpath, hpx⟩ := (path_eq_iff hva hva').mpr h
  unfold leaf
  rw [hpath, hpx]

theorem userFrame_page (s : MemAllocator) (root : ℕ) (hva : va < maxVa) (hva' : va' < maxVa)
    (h : va' / pgSize = va / pgSize) : s.userFrame root va' = s.userFrame root va := by
  unfold userFrame
  rw [leaf_page s root hva hva' h]

theorem walkFrom_of_follow (alloc : Bool) {level : ℕ} {m : ℕ}
    (h : follow s.child n (path va level) = some m) :
    s.walkFrom va alloc level n = (pteAddr m (px 0 va), s) := by
  induction level generalizing n with
  | zero =>
    cases h
    rfl
  | succ level ih =>
    rw [path, follow_cons, child] at h
    rw [walkFrom]
    by_cases hv : isValid (s.pteAt (pteAddr n (px (level + 1) va)))
    · rw [if_pos hv] at h ⊢
      exact ih h
    · rw [if_neg hv] at h
      cases h

/-- Every frame that leaves the free list has become a node, and the new nodes are on the path
`k`. -/
structure Linked (s s' : MemAllocator) (root : ℕ) (k : List (Fin 512)) : Prop where
  frames : ∀ p ∈ s.freeList, p ∈ s'.freeList ∨
    ∃ l : List (Fin 512), l.length ≤ 2 ∧ s'.node root l = some p
  path : ∀ l p, l.length ≤ 2 → s'.node root l = some p → s.node root l = none → l <+: k

theorem Linked.refl : Linked s s root k :=
  ⟨fun _ hp => Or.inl hp, fun l p _ h h' => by rw [h] at h'; cases h'⟩

/-- The number of nodes that `walk` has to make from `level` down. -/
def missing (s : MemAllocator) (va : ℕ) : ℕ → ℕ → ℕ
  | 0, _ => 0
  | level + 1, n =>
    match s.child n (px (level + 1) va) with
    | none => level + 1
    | some m => missing s va level m

theorem missing_of_none {level : ℕ} (h : s.child n (px (level + 1) va) = none) :
    s.missing va (level + 1) n = level + 1 := by
  rw [missing, h]

theorem missing_of_some {level m : ℕ} (h : s.child n (px (level + 1) va) = some m) :
    s.missing va (level + 1) n = s.missing va level m := by
  rw [missing, h]

theorem missing_eq (s : MemAllocator) (root va : ℕ) : s.missing va 2 root =
    if s.node root [px 2 va] = none then 2 else if s.node root (path va 2) = none then 1 else 0 := by
  have hone : s.node root [px 2 va] = s.child root (px 2 va) := by
    rw [node, follow_cons]
    cases s.child root (px 2 va) with
    | none => rfl
    | some m => rfl
  rw [hone, node, path, follow_cons]
  cases h : s.child root (px 2 va) with
  | none => rw [missing_of_none h, if_pos rfl]
  | some m =>
    rw [missing_of_some h, if_neg (by simp), Option.bind_some, path, follow_cons]
    cases h' : s.child m (px 1 va) with
    | none => rw [missing_of_none h', Option.bind_none, if_pos rfl]
    | some m' =>
      rw [missing_of_some h', Option.bind_some, if_neg (by simp [path])]
      rfl

theorem missing_congr (h : ∀ l : List (Fin 512), l.length ≤ 2 → s'.node root l = s.node root l) :
    s'.missing va 2 root = s.missing va 2 root := by
  rw [missing_eq, missing_eq, h _ (by simp), h _ (by simp [path])]

theorem missing_le (s : MemAllocator) (root va : ℕ) : s.missing va 2 root ≤ 2 := by
  rw [missing_eq]
  split
  · exact le_rfl
  · split
    · exact one_le_two
    · exact Nat.zero_le 2

theorem missing_of_node {m : ℕ} (h : s.node root (path va 2) = some m) :
    s.missing va 2 root = 0 := by
  rw [node, path, follow_cons] at h
  obtain ⟨n, hn, h⟩ := Option.bind_eq_some_iff.mp h
  rw [path, follow_cons] at h
  obtain ⟨n', hn', -⟩ := Option.bind_eq_some_iff.mp h
  rw [missing_of_some hn, missing_of_some hn']
  rfl

/-- `walk` takes a frame for each node that is missing, and fails when there are not so many. -/
structure Builds (s s' : MemAllocator) (root : ℕ) (k : List (Fin 512)) (a cost : ℕ) : Prop
    extends Linked s s' root k where
  fails : a = 0 ↔ s.freeList.length < cost
  taken : a ≠ 0 → s'.freeList.length + cost = s.freeList.length

theorem NodeAdded.eq_linked {i : Fin 512} (h : NodeAdded s s' root k n i p) (hl : l.length ≤ 2)
    (hq : s'.node root l = some q) (hnone : s.node root l = none) : l = k ++ [i] := by
  obtain ⟨he, -⟩ | ⟨hold, -⟩ := h.node_cases hl hq
  · exact he
  · rw [hnone] at hold
    cases hold

/-- The new node is empty. -/
theorem NodeAdded.missing_eq {i : Fin 512} (h : NodeAdded s s' root k n i p) (level : ℕ) :
    s'.missing va level p = level := by
  cases level with
  | zero => rfl
  | succ level => exact missing_of_none (h.child_new _)

theorem NodeAdded.builds {i : Fin 512} {a cost : ℕ} {j : List (Fin 512)}
    (h : NodeAdded s s₁ root k n i p) (hg : Grows s₁ s' root)
    (hb : Builds s₁ s' root (k ++ [i] ++ j) a cost) :
    Builds s s' root (k ++ [i] ++ j) a (cost + 1) := by
  have hk : (k ++ [i]).length ≤ 2 := by
    have := h.upper
    simp only [List.length_append, List.length_singleton]
    omega
  refine ⟨⟨fun q hq => ?_, fun l q hl hq hnone => ?_⟩, ?_, fun hne => ?_⟩
  · rw [h.freeList] at hq
    rcases List.mem_cons.mp hq with rfl | hq
    · exact Or.inr ⟨_, hk, hg.node_old _ _ hk h.node_linked⟩
    · exact hb.frames q hq
  · cases hmid : s₁.node root l with
    | none => exact hb.path l q hl hq hmid
    | some q' =>
      rw [h.eq_linked hl hmid hnone]
      exact List.prefix_append _ _
  · rw [h.freeList, List.length_cons, hb.fails]
    omega
  · rw [h.freeList, List.length_cons, ← hb.taken hne]
    rfl

theorem Table.walkFrom_builds (va level : ℕ) (h : Table s root) (hw : s.WellFormed)
    (hk : k.length + level = 2) (hn : s.node root k = some n) :
    Builds s (s.walkFrom va true level n).2 root (k ++ path va level)
      (s.walkFrom va true level n).1 (s.missing va level n) := by
  induction level generalizing s k n with
  | zero =>
    have hpos := h.pos hw (by omega) hn
    have hne : (s.walkFrom va true 0 n).1 ≠ 0 := by
      simp only [walkFrom, pteAddr]
      omega
    exact ⟨.refl, ⟨fun he => absurd he hne, fun hlt => absurd hlt (Nat.not_lt_zero _)⟩,
      fun _ => rfl⟩
  | succ level ih =>
    have hpath : ∀ i, k ++ i :: path va level = (k ++ [i]) ++ path va level := by simp
    rw [walkFrom, path, hpath]
    by_cases hv : isValid (s.pteAt (pteAddr n (px (level + 1) va)))
    · have hchild : s.child n (px (level + 1) va) =
          some (pte2pa (s.pteAt (pteAddr n (px (level + 1) va)))) := if_pos hv
      have hc : s.node root (k ++ [px (level + 1) va]) =
          some (pte2pa (s.pteAt (pteAddr n (px (level + 1) va)))) := by
        rw [node, follow_concat, show follow s.child root k = some n from hn, Option.bind_some,
          hchild]
      rw [missing_of_some hchild]
      simp only [if_pos hv]
      exact ih h hw (by simp; omega) hc
    · rw [missing_of_none (if_neg hv)]
      simp only [if_neg hv, Bool.not_true, Bool.false_eq_true, if_false]
      rcases hfl : s.freeList with _ | ⟨p, fl⟩
      · rw [zalloc_nil hfl]
        refine ⟨.refl, ⟨fun _ => ?_, fun _ => rfl⟩, fun hne => absurd rfl hne⟩
        rw [hfl]
        exact Nat.succ_pos level
      · have hk' : (k ++ [px (level + 1) va]).length + level = 2 := by simp; omega
        have hp0 := (hw.isPage p (by simp [hfl])).kend_le
        have hkend := hw.kend_pos
        obtain ⟨s₁, s₂, hz, hs₂, hfl', hkend', hmem, hat⟩ :=
          pteAt_link hw hfl (h.isPage k n (by omega) hn).aligned (px (level + 1) va)
        have hadded : NodeAdded s s₂ root k n (px (level + 1) va) p :=
          ⟨h, hw, by omega, hn, hv, by rw [hfl, hfl'], hkend', hmem, hat⟩
        have hb := ih hadded.grows.table hadded.grows.wf hk' hadded.node_linked
        rw [hadded.missing_eq] at hb
        obtain ⟨a, s', hwalk, hg, -, -⟩ :=
          hadded.grows.table.walkFrom_true va level hadded.grows.wf hk' hadded.node_linked
        obtain ⟨r, rfl⟩ : ∃ r, p = r + 1 := ⟨p - 1, by omega⟩
        rw [hz]
        change Builds s ((s₁.setPte _ _).walkFrom va true level (r + 1)).2 root _
          ((s₁.setPte _ _).walkFrom va true level (r + 1)).1 _
        rw [← hs₂]
        rw [hwalk] at hb ⊢
        exact hadded.builds hg hb

theorem mappages_page (pa : ℕ) (hva : va < maxVa) (ha : va % pgSize = 0) :
    s.mappages root va pgSize pa perm =
      if (s.walkFrom va true 2 root).1 = 0 then .ok (-1, (s.walkFrom va true 2 root).2)
      else if isValid ((s.walkFrom va true 2 root).2.pteAt (s.walkFrom va true 2 root).1) then
        .error (.panic "remap")
      else .ok (0, (s.walkFrom va true 2 root).2.setPte (s.walkFrom va true 2 root).1
        (pa2pte pa ||| perm ||| pteV)) := by
  have hlast : pgRoundDown ((va + pgSize + 2 ^ 64 - 1) % 2 ^ 64) = va := by
    simp only [pgRoundDown, pgSize, maxVa] at *
    omega
  have hstart : pgRoundDown va = va := by
    simp only [pgRoundDown, pgSize] at ha ⊢
    omega
  rw [mappages, hlast, hstart]
  generalize maxVa / pgSize = fuel
  rw [mapFrom, walk, if_neg (by omega)]
  simp only [Kernel.ok_bind, Kernel.pure_eq, if_true]
  split
  · rfl
  · split
    · rfl
    · rfl

/-- `mappages` of one page: the page is in use, a node cannot be made, or the entry is filled. -/
theorem Table.mapPage {pa : ℕ} (h : Table s root) (hw : s.WellFormed) (hva : va < maxVa)
    (ha : va % pgSize = 0) (hpa : pa < 2 ^ 64) (hperm : perm < 1024) :
    (isValid (s.leaf root va) ∧ s.mappages root va pgSize pa perm = .error (.panic "remap")) ∨
      ¬isValid (s.leaf root va) ∧ ∃ s', Grows s s' root ∧ Linked s s' root (path va 2) ∧
        ((s.mappages root va pgSize pa perm = .ok (-1, s') ∧
            s.freeList.length < s.missing va 2 root ∧
            ∀ va', s'.leaf root va' = s.leaf root va') ∨
          (s.mappages root va pgSize pa perm = .ok (0, s') ∧
            s'.freeList.length + s.missing va 2 root = s.freeList.length ∧
            ∀ va' < maxVa, s'.leaf root va' =
              if va' / pgSize = va / pgSize then pa2pte pa ||| perm ||| pteV
              else s.leaf root va')) := by
  rw [mappages_page pa hva ha]
  obtain ⟨hlink, hfails, htaken⟩ := h.walkFrom_builds va 2 (k := []) hw rfl rfl
  obtain ⟨a, s₁, hwalk, hg, hl, hres⟩ := h.walkFrom_true va 2 (k := []) hw rfl rfl
  rw [hwalk] at hlink hfails htaken ⊢
  by_cases hv : isValid (s.leaf root va)
  · left
    refine ⟨hv, ?_⟩
    cases hm : s.node root (path va 2) with
    | none =>
      rw [leaf_of_none hm] at hv
      cases hv
    | some m =>
      obtain ⟨rfl, rfl⟩ := Prod.mk.inj (hwalk.symm.trans (walkFrom_of_follow true hm))
      have := h.pos hw (by simp [path]) hm
      rw [if_neg (by simp only [pteAddr]; omega), if_pos]
      rwa [← leaf_of_node hm]
  · refine Or.inr ⟨hv, ?_⟩
    rcases hres with ⟨rfl, -⟩ | ⟨m, hm, rfl⟩
    · exact ⟨s₁, hg, hlink, Or.inl ⟨if_pos rfl, hfails.mp rfl, hl⟩⟩
    · have hm : s₁.node root (path va 2) = some m := hm
      have hpos := hg.table.pos hg.wf (by simp [path]) hm
      have he := isValid_or (pa2pte pa ||| perm)
      obtain ⟨hg', hl'⟩ := hg.table.setLeaf hg.wf hva hm he (pte_lt hperm hpa)
      obtain ⟨-, hnode, -⟩ := hg.table.storeLeaf hva hm (pte_lt hperm hpa)
      refine ⟨_, hg.trans hg', ⟨fun p hp => ?_, fun l p hlen hp hnone => ?_⟩,
        Or.inr ⟨?_, htaken ?_, fun va' hva' => ?_⟩⟩
      · rcases hlink.frames p hp with hp | ⟨l, hlen, hn⟩
        · exact Or.inl hp
        · exact Or.inr ⟨l, hlen, hg'.node_old l p hlen hn⟩
      · exact hlink.path l p hlen ((hnode l hlen).symm.trans hp) hnone
      · rw [if_neg (by simp only [pteAddr]; omega), if_neg]
        rwa [← leaf_of_node hm, hl]
      · simp only [pteAddr]
        omega
      · rw [hl' va' hva', hl va']

theorem pte_and_ne_zero (pa : ℕ) {bits : ℕ} (h : perm &&& bits ≠ 0) :
    (pa2pte pa ||| perm ||| pteV) &&& bits ≠ 0 := by
  intro hz
  rw [Nat.and_or_distrib_right, Nat.or_eq_zero_iff, Nat.and_or_distrib_right,
    Nat.or_eq_zero_iff] at hz
  exact h hz.1.2

/-- The permission of a user page: it is one of the ten flag bits, with the user bit and some
access. -/
structure UserPerm (perm : ℕ) : Prop where
  lt : perm < 1024
  user : perm &&& pteU ≠ 0
  access : perm &&& (pteR ||| pteW ||| pteX) ≠ 0

theorem userFrame_of_leaf (hp : UserPerm perm) (hpage : s.IsPage p)
    (h : s'.leaf root va = pa2pte p ||| perm ||| pteV) : s'.userFrame root va = some p := by
  have hlt : p < 2 ^ 64 := hpage.lt_top.trans (by norm_num [physTop])
  unfold userFrame
  rw [h, if_pos ⟨isValid_or _, pte_and_ne_zero p hp.user⟩,
    pte2pa_or hp.lt hpage.aligned hlt]

/-- The table has grown, and the frames of new user pages were nobody's. -/
theorem Space.of_grows (h : Space s root) (hg : Grows s s' root)
    (hframe : ∀ va < maxVa, ∀ q, s'.userFrame root va = some q → s.userFrame root va = some q ∨
      s.IsPage q ∧ q ∉ s.freeList ∧ q ∉ s.footprint root)
    (hinj : ∀ a < maxVa, ∀ b < maxVa, ∀ q, q ∉ s.footprint root → s'.userFrame root a = some q →
      s'.userFrame root b = some q → a / pgSize = b / pgSize)
    (haccess : ∀ va < maxVa, isValid (s'.leaf root va) →
      s'.leaf root va &&& (pteR ||| pteW ||| pteX) ≠ 0)
    (hkernel : ∀ va < maxVa, isValid (s'.leaf root va) → s'.userFrame root va = none →
      userTop ≤ va)
    (hbelow : ∀ va < maxVa, ∀ q, s'.userFrame root va = some q → va < userTop)
    (hlink : Linked s s' root (path va 2)) (hva : va < maxVa) : Space s' root := by
  have hnew : ∀ l, l.length ≤ 2 → ∀ q, s'.node root l = some q →
      s.node root l = some q ∨ q ∈ s.freeList := by
    intro l hlen q hq
    cases hs : s.node root l with
    | none => exact Or.inr (hg.node_new l q hlen hq hs).1
    | some q' =>
      rw [hg.node_old l q' hlen hs] at hq
      exact Or.inl hq
  refine ⟨hg.table, ?_, ?_, ?_, ?_, haccess, hkernel, hbelow, ?_⟩
  · intro va hva q hq
    rcases hframe va hva q hq with hq | ⟨hq, -, -⟩
    · exact (h.isPage va hva q hq).of_kend hg.kend
    · exact hq.of_kend hg.kend
  · intro va hva q hq hqf
    rcases hframe va hva q hq with hq | ⟨-, hq, -⟩
    · exact h.taken va hva q hq (hg.freeList.mem hqf)
    · exact hq (hg.freeList.mem hqf)
  · intro va hva q hq l hlen hn
    rcases hframe va hva q hq with hq | ⟨-, hqf, hqo⟩
    · rcases hnew l hlen q hn with hn | hn
      · exact h.notNode va hva q hq l hlen hn
      · exact h.taken va hva q hq hn
    · rcases hnew l hlen q hn with hn | hn
      · exact hqo (Or.inl ⟨l, hlen, hn⟩)
      · exact hqf hn
  · intro a ha b hb q hqa hqb
    by_cases hq : q ∈ s.footprint root
    · rcases hframe a ha q hqa with ha' | ⟨-, -, hno⟩
      · rcases hframe b hb q hqb with hb' | ⟨-, -, hno⟩
        · exact h.inj a ha b hb q ha' hb'
        · exact absurd hq hno
      · exact absurd hq hno
    · exact hinj a ha b hb q hq hqa hqb
  · intro i hi hv
    have hnode : s'.node root [i] = some (pte2pa (s'.pteAt (pteAddr root i))) := by
      rw [node, follow_cons, child, if_pos hv]
      rfl
    have hold : s.node root [i] = none := by
      rw [node, follow_cons, child, if_neg (h.upper i hi)]
      rfl
    have hpre := hlink.path [i] _ (by simp) hnode hold
    simp only [path, List.cons_prefix_cons] at hpre
    have hpx : ((px 2 va : Fin 512) : ℕ) < 256 := by
      simp only [px, maxVa] at *
      omega
    rw [← hpre.1] at hpx
    omega

theorem Space.grow_nodes (h : Space s root) (hg : Grows s s' root)
    (hlink : Linked s s' root (path va 2)) (hva : va < maxVa)
    (hl : ∀ va, s'.leaf root va = s.leaf root va) : Space s' root := by
  have hframe : ∀ va, s'.userFrame root va = s.userFrame root va := fun va =>
    userFrame_congr (hl va)
  refine h.of_grows hg ?_ ?_ ?_ ?_ ?_ hlink hva
  · intro va hva q hq
    exact Or.inl ((hframe va).symm.trans hq)
  · intro a ha b hb q hq hqa hqb
    exact absurd (Or.inr ⟨a, ha, (hframe a).symm.trans hqa⟩) hq
  · intro va hva hv
    rw [hl] at hv ⊢
    exact h.access va hva hv
  · intro va hva hv hnone
    rw [hl] at hv
    rw [hframe] at hnone
    exact h.kernel va hva hv hnone
  · intro va hva q hq
    exact h.below va hva q ((hframe va).symm.trans hq)

/-- The table has grown by nodes and by the entry of a user page. -/
theorem Space.grow (h : Space s root) (hg : Grows s s' root)
    (hlink : Linked s s' root (path va 2)) (hva : va < userTop) (hpage : s.IsPage p)
    (hfree : p ∉ s.freeList) (hfoot : p ∉ s.footprint root) (hperm : UserPerm perm)
    (hl : ∀ va' < maxVa, s'.leaf root va' =
      if va' / pgSize = va / pgSize then pa2pte p ||| perm ||| pteV else s.leaf root va') :
    Space s' root := by
  have hframe : ∀ va' < maxVa, s'.userFrame root va' =
      if va' / pgSize = va / pgSize then some p else s.userFrame root va' := by
    intro va' hva'
    split
    · rename_i hsame
      exact userFrame_of_leaf hperm hpage ((hl va' hva').trans (if_pos hsame))
    · rename_i hsame
      exact userFrame_congr ((hl va' hva').trans (if_neg hsame))
  have hold : ∀ va' < maxVa, ∀ q, q ∉ s.footprint root → s'.userFrame root va' = some q →
      va' / pgSize = va / pgSize := by
    intro va' hva' q hq hqa
    by_contra hne
    rw [hframe va' hva', if_neg hne] at hqa
    exact hq (Or.inr ⟨va', hva', hqa⟩)
  refine h.of_grows hg ?_ ?_ ?_ ?_ ?_ hlink (hva.trans (by decide))
  · intro va' hva' q hq
    rw [hframe va' hva'] at hq
    split at hq
    · cases hq
      exact Or.inr ⟨hpage, hfree, hfoot⟩
    · exact Or.inl hq
  · intro a ha b hb q hq hqa hqb
    rw [hold a ha q hq hqa, hold b hb q hq hqb]
  · intro va' hva' hv
    rw [hl va' hva'] at hv ⊢
    split
    · exact pte_and_ne_zero p hperm.access
    · rename_i hne
      rw [if_neg hne] at hv
      exact h.access va' hva' hv
  · intro va' hva' hv hnone
    rw [hframe va' hva'] at hnone
    split at hnone
    · cases hnone
    · rename_i hne
      rw [hl va' hva', if_neg hne] at hv
      exact h.kernel va' hva' hv hnone
  · intro va' hva' q hq
    rw [hframe va' hva'] at hq
    split at hq
    · rename_i hsame
      simp only [userTop, maxVa, pgSize] at *
      omega
    · exact h.below va' hva' q hq

/-- The memory after a frame is taken from the free list and filled. -/
structure Taken (s s₁ : MemAllocator) (p : ℕ) : Prop where
  freeList : s.freeList = p :: s₁.freeList
  kend : s₁.kend = s.kend
  mem : ∀ x, x < p ∨ p + pgSize ≤ x → s₁.mem x = s.mem x

namespace Taken

theorem mem_freeList (h : Taken s s₁ p) : p ∈ s.freeList := by
  rw [h.freeList]
  exact List.mem_cons_self

theorem sub (h : Taken s s₁ p) (hq : q ∈ s₁.freeList) : q ∈ s.freeList := by
  rw [h.freeList]
  exact List.mem_cons_of_mem p hq

theorem notMem (h : Taken s s₁ p) (hw : s.WellFormed) : p ∉ s₁.freeList := by
  have := hw.nodup
  rw [h.freeList] at this
  exact (List.nodup_cons.mp this).1

theorem isPage (h : Taken s s₁ p) (hw : s.WellFormed) : s.IsPage p := hw.isPage p h.mem_freeList

theorem wellFormed (h : Taken s s₁ p) (hw : s.WellFormed) : s₁.WellFormed := by
  have hnodup := hw.nodup
  rw [h.freeList] at hnodup
  exact ⟨h.kend ▸ hw.kend_pos, (List.nodup_cons.mp hnodup).2, fun q hq =>
    (hw.isPage q (h.sub hq)).of_kend h.kend⟩

theorem node_mem (h : Taken s s₁ p) (hw : s.WellFormed) (hs : Space s root) :
    ∀ l n, l.length ≤ 2 → s.node root l = some n → ∀ x, n ≤ x → x < n + pgSize →
      s₁.mem x = s.mem x := by
  intro l n hl hn x hx hx'
  refine h.mem x ((hs.table.isPage l n hl hn).disjoint (h.isPage hw) ?_ hx hx')
  rintro rfl
  exact hs.footprint_taken (Or.inl ⟨l, hl, hn⟩) h.mem_freeList

theorem space (h : Taken s s₁ p) (hw : s.WellFormed) (hs : Space s root) :
    Space s₁ root ∧ s₁.footprint root = s.footprint root ∧ p ∉ s.footprint root ∧
      ∀ va, s₁.leaf root va = s.leaf root va := by
  have hfoot : p ∉ s.footprint root := fun hp => hs.footprint_taken hp h.mem_freeList
  obtain ⟨h₁, h₂, h₃⟩ := hs.of_agree h.kend (fun q hq hf => hs.footprint_taken hq (h.sub hf))
    (h.node_mem hw hs)
  exact ⟨h₁, h₂, hfoot, h₃⟩

theorem missing (h : Taken s s₁ p) (hw : s.WellFormed) (hs : Space s root) :
    s₁.missing va 2 root = s.missing va 2 root :=
  missing_congr (node_agree (h.node_mem hw hs)).1

end Taken

def SamePages (s s' : MemAllocator) (root : ℕ) : Prop :=
  ∀ va < maxVa, ∀ p, s.userFrame root va = some p → ∀ x, p ≤ x → x < p + pgSize → s'.mem x = s.mem x

structure MapsPage (s s' : MemAllocator) (root va p perm : ℕ) : Prop where
  acts : Acts s s' root
  kept : KeptIn s s' root
  leaf : ∀ va' < maxVa, s'.leaf root va' =
    if va' / pgSize = va / pgSize then pa2pte p ||| perm ||| pteV else s.leaf root va'
  pages : SamePages s s' root
  fresh : p ∈ s.freeList
  cost : s'.freeList.length + s.missing va 2 root + 1 = s.freeList.length

/-- The frame `p` has left the free list and belongs to nobody. -/
structure LosesFrame (s s' : MemAllocator) (root p : ℕ) : Prop where
  acts : Acts s s' root
  leaf : ∀ va, s'.leaf root va = s.leaf root va
  pages : SamePages s s' root
  lost : ∀ q, q ∈ s.footprint root ∨ q ∈ s.freeList →
    q ∈ s'.footprint root ∨ q ∈ s'.freeList ∨ q = p
  notOwned : p ∉ s'.footprint root
  notFree : p ∉ s'.freeList
  isPage : s'.IsPage p
  fresh : p ∈ s.freeList

section MapUser

variable (h : Space s root) (hw : s.WellFormed) (ht : Taken s s₁ p) (hg : Grows s₁ s' root)

include h hw ht hg

/-- The frames of a table that has grown, apart from the frame for the page. -/
theorem Taken.grows_frames (hf : ∀ q ∈ s'.footprint root, q = p ∨
      (∃ l : List (Fin 512), l.length ≤ 2 ∧ s'.node root l = some q) ∨ q ∈ s.footprint root)
    (hs : Space s' root) : Moves s s' (s.footprint root) (s'.footprint root) := by
  obtain ⟨h₁, hfoot₁, hp, hleaf₁⟩ := ht.space hw h
  have hnode : ∀ l, l.length ≤ 2 → ∀ q, s'.node root l = some q →
      q ∈ s.footprint root ∨ q ∈ s.freeList := by
    intro l hlen q hq
    cases hs₁ : s₁.node root l with
    | none => exact Or.inr (ht.sub (hg.node_new l q hlen hq hs₁).1)
    | some q' =>
      rw [hg.node_old l q' hlen hs₁] at hq
      cases hq
      exact Or.inl (hfoot₁ ▸ Or.inl ⟨l, hlen, hs₁⟩)
  have hframes : ∀ q, q ∈ s'.footprint root ∨ q ∈ s'.freeList →
      q ∈ s.footprint root ∨ q ∈ s.freeList := by
    rintro q (hq | hq)
    · rcases hf q hq with rfl | ⟨l, hlen, hn⟩ | hq
      · exact Or.inr ht.mem_freeList
      · exact hnode l hlen q hn
      · exact Or.inl hq
    · exact Or.inr (ht.sub (hg.freeList.mem hq))
  refine ⟨hg.wf, hg.kend.trans ht.kend, hframes, fun q hq => hs.footprint_taken hq, ?_⟩
  intro x hx
  rw [hg.mem x fun l n hlen hn => hx n (hnode l hlen n hn)]
  exact ht.mem x (hx p (Or.inr ht.mem_freeList))

/-- Neither the user pages nor the new one are written to while the table grows. -/
theorem Taken.grows_pages : SamePages s s' root ∧
    ∀ x, p ≤ x → x < p + pgSize → s'.mem x = s₁.mem x := by
  obtain ⟨h₁, hfoot₁, hp, hleaf₁⟩ := ht.space hw h
  have hout : ∀ q, s.IsPage q → q ∉ s₁.freeList →
      (∀ l : List (Fin 512), l.length ≤ 2 → s₁.node root l ≠ some q) →
      ∀ x, q ≤ x → x < q + pgSize → s'.mem x = s₁.mem x := by
    intro q hq hqf hqn x hx hx'
    apply hg.mem
    intro l n hlen hn
    refine hq.disjoint (hg.table.isPage l n hlen hn) ?_ hx hx'
    rintro rfl
    cases hs₁ : s₁.node root l with
    | none => exact hqf (hg.node_new l q hlen hn hs₁).1
    | some q' =>
      rw [hg.node_old l q' hlen hs₁] at hn
      cases hn
      exact hqn l hlen hs₁
  constructor
  · intro va hva q hq x hx hx'
    have hq₁ : s₁.userFrame root va = some q := (userFrame_congr (hleaf₁ va)).trans hq
    rw [hout q (h.isPage va hva q hq) (h₁.taken va hva q hq₁) (h₁.notNode va hva q hq₁) x hx hx']
    refine ht.mem x ((h.isPage va hva q hq).disjoint (ht.isPage hw) ?_ hx hx')
    rintro rfl
    exact hp (Or.inr ⟨va, hva, hq⟩)
  · exact hout p (ht.isPage hw) (ht.notMem hw) fun l hlen hn =>
      hp (hfoot₁ ▸ Or.inl ⟨l, hlen, hn⟩)

end MapUser

theorem Space.mapUser (h : Space s root) (hw : s.WellFormed) (ht : Taken s s₁ p)
    (hva : va < userTop) (ha : va % pgSize = 0) (hperm : UserPerm perm) :
    (isValid (s.leaf root va) ∧ s₁.mappages root va pgSize p perm = .error (.panic "remap")) ∨
      ¬isValid (s.leaf root va) ∧ ∃ s',
        (s₁.mappages root va pgSize p perm = .ok (0, s') ∧ MapsPage s s' root va p perm ∧
          ∀ x, p ≤ x → x < p + pgSize → s'.mem x = s₁.mem x) ∨
        (s₁.mappages root va pgSize p perm = .ok (-1, s') ∧
          s.freeList.length < s.missing va 2 root + 1 ∧ LosesFrame s s' root p) := by
  obtain ⟨h₁, hfoot₁, hp, hleaf₁⟩ := ht.space hw h
  have hvam : va < maxVa := hva.trans (by decide)
  have hpage := ht.isPage hw
  have hlt : p < 2 ^ 64 := hpage.lt_top.trans (by norm_num [physTop])
  rcases h₁.table.mapPage (ht.wellFormed hw) hvam ha hlt hperm.lt with
    ⟨hv, he⟩ | ⟨hv, s', hg, hlink, ⟨he, hlen, hl⟩ | ⟨he, hcost, hl⟩⟩
  · exact Or.inl ⟨hleaf₁ va ▸ hv, he⟩
  · refine Or.inr ⟨hleaf₁ va ▸ hv, s', Or.inr ⟨he, ?_, ?_⟩⟩
    · rw [ht.freeList, List.length_cons, ← ht.missing hw h]
      omega
    have hframe : ∀ va, s'.userFrame root va = s₁.userFrame root va := fun va =>
      userFrame_congr (hl va)
    have hs' : Space s' root := h₁.grow_nodes hg hlink hvam hl
    refine ⟨⟨hs', ht.grows_frames h hw hg ?_ hs'⟩, fun va => (hl va).trans (hleaf₁ va),
      (ht.grows_pages h hw hg).1, ?_, ?_, fun hf => ht.notMem hw (hg.freeList.mem hf),
      hpage.of_kend (hg.kend.trans ht.kend), ht.mem_freeList⟩
    · rintro q (hq | ⟨va', hva', hq⟩)
      · exact Or.inr (Or.inl hq)
      · exact Or.inr (Or.inr (hfoot₁ ▸ Or.inr ⟨va', hva', (hframe va').symm.trans hq⟩))
    · rintro q (hq | hq)
      · rw [← hfoot₁] at hq
        rcases hq with ⟨l, hlen, hn⟩ | ⟨va', hva', hq⟩
        · exact Or.inl (Or.inl ⟨l, hlen, hg.node_old l q hlen hn⟩)
        · exact Or.inl (Or.inr ⟨va', hva', (hframe va').trans hq⟩)
      · rw [ht.freeList] at hq
        rcases List.mem_cons.mp hq with rfl | hq
        · exact Or.inr (Or.inr rfl)
        · rcases hlink.frames q hq with hq | hq
          · exact Or.inr (Or.inl hq)
          · exact Or.inl (Or.inl hq)
    · rintro (⟨l, hlen, hn⟩ | ⟨va', hva', hq⟩)
      · cases hs₁ : s₁.node root l with
        | none => exact ht.notMem hw (hg.node_new l p hlen hn hs₁).1
        | some q' =>
          rw [hg.node_old l q' hlen hs₁] at hn
          cases hn
          exact hp (hfoot₁ ▸ Or.inl ⟨l, hlen, hs₁⟩)
      · exact hp (hfoot₁ ▸ Or.inr ⟨va', hva', (hframe va').symm.trans hq⟩)
  · refine Or.inr ⟨hleaf₁ va ▸ hv, s', Or.inl ⟨he, ?_, (ht.grows_pages h hw hg).2⟩⟩
    have hs' : Space s' root :=
      h₁.grow hg hlink hva (hpage.of_kend ht.kend) (ht.notMem hw) (hfoot₁ ▸ hp) hperm hl
    have hframe : s'.userFrame root va = some p :=
      userFrame_of_leaf hperm hpage ((hl va hvam).trans (if_pos rfl))
    refine ⟨⟨hs', ht.grows_frames h hw hg ?_ hs'⟩, ?_, ?_, (ht.grows_pages h hw hg).1,
      ht.mem_freeList, ?_⟩
    · rintro q (hq | ⟨va', hva', hq⟩)
      · exact Or.inr (Or.inl hq)
      · by_cases hsame : va' / pgSize = va / pgSize
        · rw [userFrame_of_leaf hperm hpage ((hl va' hva').trans (if_pos hsame))] at hq
          exact Or.inl (Option.some.inj hq).symm
        · rw [userFrame_congr ((hl va' hva').trans (if_neg hsame))] at hq
          exact Or.inr (Or.inr (hfoot₁ ▸ Or.inr ⟨va', hva', hq⟩))
    · rintro q (hq | hq)
      · rw [← hfoot₁] at hq
        rcases hq with ⟨l, hlen, hn⟩ | ⟨va', hva', hq⟩
        · exact Or.inl (Or.inl ⟨l, hlen, hg.node_old l q hlen hn⟩)
        · have hne : va' / pgSize ≠ va / pgSize := by
            intro hsame
            unfold userFrame at hq
            rw [leaf_page s₁ root hvam hva' hsame, if_neg fun hc => hv hc.1] at hq
            cases hq
          exact Or.inl (Or.inr ⟨va', hva',
            (userFrame_congr ((hl va' hva').trans (if_neg hne))).trans hq⟩)
      · rw [ht.freeList] at hq
        rcases List.mem_cons.mp hq with rfl | hq
        · exact Or.inl (Or.inr ⟨va, hvam, hframe⟩)
        · rcases hlink.frames q hq with hq | hq
          · exact Or.inr hq
          · exact Or.inl (Or.inl hq)
    · intro va' hva'
      rw [hl va' hva', hleaf₁]
    · rw [ht.freeList, List.length_cons, ← ht.missing hw h, hcost]

end StartOS.MemAllocator
