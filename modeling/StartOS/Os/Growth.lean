import StartOS.Os.FreeTable

/-! # Growing and shrinking

`userAlloc` maps cleared frames above the old size and takes them back when
the frames run out; `userDealloc` unmaps the pages above the new size.
-/

namespace StartOS.MemAllocator

variable {s s₁ s' s'' : MemAllocator} {root va va' a b p q x n oldsz newsz perm : ℕ} {m : ByteMem}

theorem alloc_cases (hw : s.WellFormed) : (s.freeList = [] ∧ s.alloc = (0, s)) ∨
    ∃ p s₁, s.alloc = (p, s₁) ∧ p ≠ 0 ∧ Taken s s₁ p := by
  cases hfl : s.freeList with
  | nil =>
    left
    refine ⟨rfl, ?_⟩
    unfold alloc
    rw [hfl]
  | cons p fl =>
    right
    have hp := (hw.isPage p (by simp [hfl])).kend_le
    have := hw.kend_pos
    refine ⟨p, { s with freeList := fl, npage := s.npage - 1, mem := s.mem.fill p pgSize 5 }, ?_,
      by omega, hfl, rfl, fun x hx => ByteMem.fill_of_not_mem hx⟩
    unfold alloc
    rw [hfl]

theorem Taken.fill (h : Taken s s₁ p) (hm : ∀ x, x < p ∨ p + pgSize ≤ x → m x = s₁.mem x) :
    Taken s { s₁ with mem := m } p :=
  ⟨h.freeList, h.kend, fun x hx => (hm x hx).trans (h.mem x hx)⟩

theorem userPerm_all : UserPerm (pteW ||| pteX ||| pteR ||| pteU ||| pteV) :=
  ⟨by decide, by decide, by decide⟩

structure ActsIn (s s' : MemAllocator) (root a b : ℕ) : Prop where
  acts : Acts s s' root
  kept : KeptIn s s' root
  outside : ∀ va < maxVa, ¬(a ≤ va ∧ va < b) → s'.leaf root va = s.leaf root va
  pages : SamePagesOutside s s' root a b

namespace ActsIn

theorem refl (h : Space s root) (hw : s.WellFormed) : ActsIn s s root a b where
  acts := .refl hw h
  kept _ hp := hp
  outside _ _ _ := rfl
  pages _ _ _ _ _ _ _ _ := rfl

theorem userFrame (h : ActsIn s s' root a b) (hva : va < maxVa) (hout : ¬(a ≤ va ∧ va < b)) :
    s'.userFrame root va = s.userFrame root va := userFrame_congr (h.outside va hva hout)

theorem trans (h : ActsIn s s' root a b) (h' : ActsIn s' s'' root a b) : ActsIn s s'' root a b where
  acts := h.acts.trans h'.acts
  kept := h.kept.trans h'.kept
  outside va hva hout := (h'.outside va hva hout).trans (h.outside va hva hout)
  pages va hva hout p hp x hx hx' :=
    (h'.pages va hva hout p ((h.userFrame hva hout).trans hp) x hx hx').trans
      (h.pages va hva hout p hp x hx hx')

theorem mono {a' b' : ℕ} (h : ActsIn s s' root a b) (ha : a' ≤ a) (hb : b ≤ b') :
    ActsIn s s' root a' b' where
  acts := h.acts
  kept := h.kept
  outside va hva hout := h.outside va hva (by omega)
  pages va hva hout := h.pages va hva (by omega)

end ActsIn

theorem Unmaps.actsIn (h : Unmaps s s' root a b) : ActsIn s s' root a b :=
  ⟨h.acts, h.kept, h.outside, h.pages⟩

theorem MapsPage.actsIn (h : MapsPage s s' root va p perm) (ha : va % pgSize = 0) :
    ActsIn s s' root va (va + pgSize) where
  acts := h.acts
  kept := h.kept
  outside va' hva' hout := by
    rw [h.leaf va' hva', if_neg fun hc => hout ((samePage_iff ha va').mp hc)]
  pages va' hva' _ := h.pages va' hva'

/-- The pages from `a` to `b` were not mapped and are mapped now, with cleared frames. -/
structure MapsZero (s s' : MemAllocator) (root a b : ℕ) : Prop extends ActsIn s s' root a b where
  before : ∀ va < maxVa, a ≤ va → va < b → ¬isValid (s.leaf root va)
  frame : ∀ va < maxVa, a ≤ va → va < b → ∃ p, s'.userFrame root va = some p ∧
    ∀ x, p ≤ x → x < p + pgSize → s'.mem x = 0

/-- The frames were free, and the program may do anything with the pages. -/
structure MapsFresh (s s' : MemAllocator) (root a b : ℕ) : Prop extends MapsZero s s' root a b where
  fresh : ∀ va < maxVa, a ≤ va → va < b → ∃ p ∈ s.freeList,
    s'.leaf root va = pa2pte p ||| (pteW ||| pteX ||| pteR ||| pteU ||| pteV) ||| pteV

theorem walkFrom_freeList (alloc : Bool) (level : ℕ) :
    (s.walkFrom va alloc level n).2.freeList <:+ s.freeList := by
  induction level generalizing s n with
  | zero => exact List.suffix_rfl
  | succ level ih =>
    rw [walkFrom]
    by_cases hv : isValid (s.pteAt (pteAddr n (px (level + 1) va)))
    · rw [if_pos hv]
      exact ih
    rw [if_neg hv]
    cases alloc with
    | false => exact List.suffix_rfl
    | true =>
      have hz : s.zalloc.2.freeList <:+ s.freeList := by
        rcases hfl : s.freeList with _ | ⟨p, fl⟩
        · rw [zalloc_nil hfl, hfl]
        · unfold zalloc alloc
          rw [hfl]
          cases p with
          | zero => exact List.suffix_cons 0 fl
          | succ p => exact List.suffix_cons (p + 1) fl
      rcases hzalloc : s.zalloc with ⟨p, s₁⟩
      rw [hzalloc] at hz
      cases p with
      | zero => exact hz
      | succ p => exact ih.trans hz

theorem mappages_freeList {size pa : ℕ} {r : ℤ}
    (he : s.mappages root va size pa perm = .ok (r, s')) : s'.freeList <:+ s.freeList := by
  unfold mappages at he
  generalize maxVa / pgSize + 1 = fuel at he
  generalize pgRoundDown va = c at he
  induction fuel generalizing s c pa with
  | zero => cases he
  | succ fuel ih =>
    rw [mapFrom, walk] at he
    split at he
    · cases he
    have hwalk : (s.walkFrom c true 2 root).2.freeList <:+ s.freeList := walkFrom_freeList true 2
    rw [Kernel.ok_bind] at he
    generalize s.walkFrom c true 2 root = w at he hwalk
    obtain ⟨pte, s₁⟩ := w
    dsimp only at he hwalk
    split at he
    · cases he
      exact hwalk
    split at he
    · cases he
    split at he
    · cases he
      exact hwalk
    · exact (ih _ he).trans hwalk

theorem LosesFrame.free (h : LosesFrame s s' root p) :
    ∃ s'', s'.free p = .ok s'' ∧ Acts s s'' root ∧ KeptIn s s'' root ∧
      (∀ va, s''.leaf root va = s.leaf root va) ∧ SamePages s s'' root := by
  have hs := h.acts.space
  have hw := h.acts.moves.wf
  obtain ⟨hs'', hfoot, hleaf⟩ := hs.of_agree
    (show ({ s' with freeList := p :: s'.freeList, npage := s'.npage + 1,
                     mem := s'.mem.fill p pgSize 5 } : MemAllocator).kend = s'.kend from rfl) (by
      intro q hq hqf
      rcases List.mem_cons.mp hqf with rfl | hqf
      · exact h.notOwned hq
      · exact hs.footprint_taken hq hqf) (by
      intro l n hl hn x hx hx'
      refine ByteMem.fill_of_not_mem ((hs.table.isPage l n hl hn).disjoint h.isPage ?_ hx hx')
      rintro rfl
      exact h.notOwned (Or.inl ⟨l, hl, hn⟩))
  refine ⟨_, h.isPage.free_eq, ⟨hs'', ?_, h.acts.moves.kend, ?_, fun q hq => hs''.footprint_taken hq,
    ?_⟩, ?_, fun va => (hleaf va).trans (h.leaf va), ?_⟩
  · refine ⟨hw.kend_pos, List.nodup_cons.mpr ⟨h.notFree, hw.nodup⟩, fun q hq => ?_⟩
    rcases List.mem_cons.mp hq with rfl | hq
    · exact h.isPage.of_kend rfl
    · exact (hw.isPage q hq).of_kend rfl
  · rintro q (hq | hq)
    · rw [hfoot] at hq
      exact h.acts.moves.frames q (Or.inl hq)
    · rcases List.mem_cons.mp hq with rfl | hq
      · exact Or.inr h.fresh
      · exact h.acts.moves.frames q (Or.inr hq)
  · intro x hx
    exact (ByteMem.fill_of_not_mem (hx p (Or.inr h.fresh))).trans (h.acts.moves.mem x hx)
  · intro q hq
    rw [hfoot]
    rcases h.lost q hq with hq | hq | rfl
    · exact Or.inl hq
    · exact Or.inr (List.mem_cons_of_mem p hq)
    · exact Or.inr List.mem_cons_self
  · intro va hva q hq x hx hx'
    rw [← h.pages va hva q hq x hx hx']
    have hq' : s'.userFrame root va = some q := (userFrame_congr (h.leaf va)).trans hq
    refine ByteMem.fill_of_not_mem ((hs.isPage va hva q hq').disjoint h.isPage ?_ hx hx')
    rintro rfl
    exact h.notOwned (Or.inr ⟨va, hva, hq'⟩)

theorem Space.user_of_valid (h : Space s root) (hva : va < maxVa) (htop : va < userTop)
    (hv : isValid (s.leaf root va)) : s.userFrame root va ≠ none := by
  intro hnone
  have := h.kernel va hva hv hnone
  omega

theorem Space.userDealloc (h : Space s root) (hw : s.WellFormed) (hold : oldsz ≤ userTop)
    (hnew : newsz ≤ userTop) :
    ∃ s', s.userDealloc root oldsz newsz = .ok (if newsz ≥ oldsz then oldsz else newsz, s') ∧
      Unmaps s s' root (pgRoundUp newsz) (pgRoundUp oldsz) ∧
      GivesBack s s' root (pgRoundUp newsz) (pgRoundUp oldsz) := by
  have hvals : userTop = 274877898752 ∧ maxVa = 274877906944 ∧ pgSize = 4096 := by decide
  obtain ⟨ho, ho'⟩ : pgRoundUp oldsz = (oldsz + 4095) / 4096 * 4096 ∧ pgRoundUp oldsz ≤ userTop := by
    unfold pgRoundUp
    omega
  have hn : pgRoundUp newsz = (newsz + 4095) / 4096 * 4096 := by
    unfold pgRoundUp
    omega
  unfold MemAllocator.userDealloc
  by_cases hge : newsz ≥ oldsz
  · rw [if_pos hge, if_pos hge]
    exact ⟨s, rfl, .refl h hw (by omega), .refl (by omega)⟩
  rw [if_neg hge, if_neg hge]
  by_cases hlt : pgRoundUp newsz < pgRoundUp oldsz
  · rw [if_pos hlt]
    obtain ⟨k, hk⟩ : ∃ k, k = (pgRoundUp oldsz - pgRoundUp newsz) / pgSize := ⟨_, rfl⟩
    have hk' : k = (pgRoundUp oldsz - pgRoundUp newsz) / 4096 := by rw [hk, hvals.2.2]
    have hpages : toU64 (toInt32 k) = k := by
      rw [toInt32_of_lt (by omega) (by omega)]
      unfold toU64
      omega
    have hcount : pgRoundUp newsz + unmapCount (pgRoundUp newsz) k * pgSize = pgRoundUp oldsz := by
      unfold unmapCount
      rw [hvals.2.2]
      omega
    dsimp only
    rw [← hk, hpages]
    rcases (h.userUnmap hw (by rw [hvals.2.2]; omega)
        fun a ha _ hhi hv => h.user_of_valid ha (by omega) hv :
        (∃ s', s.userUnmap root (pgRoundUp newsz) k true = .ok s' ∧ _) ∨ _) with
      ⟨s', he, hu, hback⟩ | ⟨hover, -⟩
    · rw [hcount] at hu hback
      exact ⟨s', by rw [he]; rfl, hu, hback⟩
    · omega
  · rw [if_neg hlt]
    exact ⟨s, rfl, .refl h hw (by omega), .refl (by omega)⟩

theorem Taken.clearPage (h : Taken s s₁ p) : Taken s (s₁.clearPage p) p :=
  h.fill fun _ hx => ByteMem.fill_of_not_mem hx

theorem clearPage_mem (hx : p ≤ x) (hx' : x < p + pgSize) : (s.clearPage p).mem x = 0 :=
  ByteMem.fill_of_mem hx hx'

theorem MapsZero.cons (h : MapsPage s s' root a p perm) (hp : UserPerm perm) (ha : a % pgSize = 0)
    (hlt : a < maxVa) (hv : ¬isValid (s.leaf root a))
    (hz : ∀ x, p ≤ x → x < p + pgSize → s'.mem x = 0) (hb : a + pgSize ≤ b)
    (hw : s.WellFormed) (h' : MapsZero s' s'' root (a + pgSize) b) : MapsZero s s'' root a b where
  toActsIn := ((h.actsIn ha).mono le_rfl hb).trans (h'.toActsIn.mono (by omega) le_rfl)
  before va hva hlo hhi := by
    by_cases hc : va < a + pgSize
    · rw [leaf_page s root hlt hva ((samePage_iff ha va).mpr ⟨hlo, hc⟩)]
      exact hv
    · rw [← (h.actsIn ha).outside va hva (by omega)]
      exact h'.before va hva (by omega) hhi
  frame va hva hlo hhi := by
    by_cases hc : va < a + pgSize
    · have hsame := (samePage_iff ha va).mpr ⟨hlo, hc⟩
      have hframe : s'.userFrame root va = some p :=
        userFrame_of_leaf hp (hw.isPage p h.fresh) ((h.leaf va hva).trans (if_pos hsame))
      have hout : ¬(a + pgSize ≤ va ∧ va < b) := by omega
      refine ⟨p, (h'.userFrame hva hout).trans hframe, fun x hx hx' => ?_⟩
      rw [h'.pages va hva hout p hframe x hx hx']
      exact hz x hx hx'
    · exact h'.frame va hva (by omega) hhi

theorem MapsFresh.cons (h : MapsPage s s' root a p (pteW ||| pteX ||| pteR ||| pteU ||| pteV))
    (ha : a % pgSize = 0) (hlt : a < maxVa) (hv : ¬isValid (s.leaf root a))
    (hz : ∀ x, p ≤ x → x < p + pgSize → s'.mem x = 0) (hb : a + pgSize ≤ b) (hw : s.WellFormed)
    (hsub : ∀ q ∈ s'.freeList, q ∈ s.freeList) (h' : MapsFresh s' s'' root (a + pgSize) b) :
    MapsFresh s s'' root a b where
  toMapsZero := .cons h userPerm_all ha hlt hv hz hb hw h'.toMapsZero
  fresh va hva hlo hhi := by
    by_cases hc : va < a + pgSize
    · refine ⟨p, h.fresh, ?_⟩
      rw [h'.outside va hva (by omega), h.leaf va hva,
        if_pos ((samePage_iff ha va).mpr ⟨hlo, hc⟩)]
    · obtain ⟨q, hq, hl⟩ := h'.fresh va hva (by omega) hhi
      exact ⟨q, hsub q hq, hl⟩

theorem userAllocFrom_of_alloc {start : ℕ} (he : s.alloc = (p, s₁)) (hp : p ≠ 0) :
    userAllocFrom root start newsz (n + 1) s a = (do
      let (r, s) ← (s₁.clearPage p).mappages root a pgSize p
        (pteW ||| pteX ||| pteR ||| pteU ||| pteV)
      if r ≠ 0 then
        let s ← s.free p
        let (_, s) ← s.userDealloc root a start
        return (0, s)
      else userAllocFrom root start newsz n s (a + pgSize)) := by
  obtain ⟨r, rfl⟩ := Nat.exists_eq_succ_of_ne_zero hp
  conv_lhs => unfold MemAllocator.userAllocFrom
  rw [he]
  rfl

/-- The loop of `userAlloc`: the pages are mapped, the frames run out and everything from the old
size on is unmapped again, or a page is in use already. -/
theorem Space.userAllocFrom {start : ℕ} (h : Space s root) (hw : s.WellFormed)
    (ha : a % pgSize = 0) (hs : start % pgSize = 0) (hstart : start ≤ a)
    (hle : a + n * pgSize ≤ userTop) :
    (∃ s', userAllocFrom root start newsz n s a = .ok (newsz, s') ∧
        MapsFresh s s' root a (a + n * pgSize)) ∨
      (∃ s', userAllocFrom root start newsz n s a = .ok (0, s') ∧
        ActsIn s s' root start (a + n * pgSize) ∧ ∀ va < maxVa, start ≤ va →
          va < a + n * pgSize → isValid (s'.leaf root va) → a ≤ va ∧ isValid (s.leaf root va)) ∨
      ((∃ va < maxVa, a ≤ va ∧ va < a + n * pgSize ∧ isValid (s.leaf root va)) ∧
        userAllocFrom root start newsz n s a = .error (.panic "remap")) := by
  induction n generalizing s a with
  | zero =>
    refine Or.inl ⟨s, rfl, ⟨.refl h hw, fun va _ h₁ h₂ => ?_, fun va _ h₁ h₂ => ?_⟩,
      fun va _ h₁ h₂ => ?_⟩
    · omega
    · omega
    · omega
  | succ n ih =>
    have hvals : userTop = 274877898752 ∧ maxVa = 274877906944 ∧ pgSize = 4096 := by decide
    rw [add_mul, one_mul] at hle ⊢
    have hlt : a < userTop := by omega
    have hltm : a < maxVa := by omega
    have hround : pgRoundUp a = a ∧ pgRoundUp start = start := by
      rw [hvals.2.2] at ha hs
      unfold pgRoundUp
      omega
    -- what has been mapped is unmapped again
    have hback : ∀ s₁, ActsIn s s₁ root a (a + pgSize) → (∀ va < maxVa, a ≤ va →
        s₁.leaf root va = s.leaf root va) → ∃ s', s₁.userDealloc root a start = .ok s' ∧
          ActsIn s s'.2 root start (a + (n * pgSize + pgSize)) ∧ ∀ va < maxVa, start ≤ va →
            va < a + (n * pgSize + pgSize) → isValid (s'.2.leaf root va) →
            a ≤ va ∧ isValid (s.leaf root va) := by
      intro s₁ h₁ hsame
      obtain ⟨s', he, hu, -⟩ := h₁.acts.space.userDealloc h₁.acts.moves.wf (show a ≤ userTop by omega)
        (show start ≤ userTop by omega)
      rw [hround.1, hround.2] at hu
      refine ⟨_, he, (h₁.mono hstart (by omega)).trans (hu.actsIn.mono le_rfl (by omega)), ?_⟩
      intro va hva hlo _ hv
      have hge : a ≤ va := by
        by_contra hc
        exact hu.inside va hva hlo (by omega) hv
      rw [hu.outside va hva (by omega), hsame va hva hge] at hv
      exact ⟨hge, hv⟩
    rcases alloc_cases hw with ⟨-, he⟩ | ⟨p, s₁, he, hp, ht⟩
    · obtain ⟨s', hd, hacts, hvalid⟩ := hback s (.refl h hw) fun _ _ _ => rfl
      refine Or.inr (Or.inl ⟨s'.2, ?_, hacts, hvalid⟩)
      unfold MemAllocator.userAllocFrom
      rw [he]
      simp only [hd, Kernel.ok_bind, Kernel.pure_eq]
    · rw [userAllocFrom_of_alloc he hp]
      rcases h.mapUser hw ht.clearPage hlt ha userPerm_all with
        ⟨hv, hm⟩ | ⟨hv, s₂, ⟨hm, hmap, hmem⟩ | ⟨hm, -, hlost⟩⟩
      · rw [hm]
        exact Or.inr (Or.inr ⟨⟨a, hltm, le_rfl, by omega, hv⟩, rfl⟩)
      · rw [hm]
        simp only [Kernel.ok_bind, ne_eq, not_true_eq_false, if_false]
        have hend : a + pgSize + n * pgSize = a + (n * pgSize + pgSize) := by omega
        have hz : ∀ x, p ≤ x → x < p + pgSize → s₂.mem x = 0 := fun x hx hx' =>
          (hmem x hx hx').trans (clearPage_mem hx hx')
        have hout := (hmap.actsIn ha).outside
        rcases ih hmap.acts.space hmap.acts.moves.wf (by rw [Nat.add_mod_right]; exact ha)
            (by omega) (by omega) with ⟨s', he', hzero⟩ | ⟨s', he', hacts, hvalid⟩ |
              ⟨⟨va, hva, hlo, hhi, hval⟩, he'⟩
        · rw [hend] at hzero
          have hsub : ∀ q ∈ s₂.freeList, q ∈ s.freeList := fun q hq =>
            ht.clearPage.sub ((mappages_freeList hm).mem hq)
          exact Or.inl ⟨s', he', .cons hmap ha hltm hv hz (by omega) hw hsub hzero⟩
        · rw [hend] at hacts hvalid
          refine Or.inr (Or.inl ⟨s', he', ?_, fun va hva hlo hhi hval => ?_⟩)
          · exact ((hmap.actsIn ha).mono hstart (by omega)).trans hacts
          · obtain ⟨hge, hval'⟩ := hvalid va hva hlo hhi hval
            rw [hout va hva (by omega)] at hval'
            exact ⟨by omega, hval'⟩
        · rw [hout va hva (by omega)] at hval
          exact Or.inr (Or.inr ⟨⟨va, hva, by omega, by omega, hval⟩, he'⟩)
      · rw [hm]
        simp only [Kernel.ok_bind]
        rw [if_pos (by decide)]
        obtain ⟨s₃, hfree, hacts₃, hkept₃, hleaf₃, hpages₃⟩ := hlost.free
        have hin : ActsIn s s₃ root a (a + pgSize) :=
          ⟨hacts₃, hkept₃, fun va _ _ => hleaf₃ va, fun va hva _ => hpages₃ va hva⟩
        obtain ⟨s', hd, hacts, hvalid⟩ := hback s₃ hin fun va _ _ => hleaf₃ va
        refine Or.inr (Or.inl ⟨s'.2, ?_, hacts, hvalid⟩)
        simp only [hfree, hd, Kernel.ok_bind, Kernel.pure_eq]

/-- `userAlloc`: the pages up to the new size are mapped, the frames run out, or a page is in use
already. -/
theorem Space.userAlloc (h : Space s root) (hw : s.WellFormed) (hnew : newsz ≤ userTop)
    (hle : oldsz ≤ newsz) :
    (∃ s', s.userAlloc root oldsz newsz = .ok (newsz, s') ∧
        MapsFresh s s' root (pgRoundUp oldsz) (pgRoundUp newsz)) ∨
      (∃ s', s.userAlloc root oldsz newsz = .ok (0, s') ∧
        ActsIn s s' root (pgRoundUp oldsz) (pgRoundUp newsz) ∧ ∀ va < maxVa, pgRoundUp oldsz ≤ va →
          va < pgRoundUp newsz → isValid (s'.leaf root va) → isValid (s.leaf root va)) ∨
      ((∃ va < maxVa, pgRoundUp oldsz ≤ va ∧ va < pgRoundUp newsz ∧ isValid (s.leaf root va)) ∧
        s.userAlloc root oldsz newsz = .error (.panic "remap")) := by
  have hvals : userTop = 274877898752 ∧ maxVa = 274877906944 ∧ pgSize = 4096 := by decide
  obtain ⟨n, hn⟩ : ∃ n, n = (newsz - pgRoundUp oldsz + 4095) / pgSize := ⟨_, rfl⟩
  have hn' : n = (newsz - pgRoundUp oldsz + 4095) / 4096 := by rw [hn, hvals.2.2]
  have hold : pgRoundUp oldsz = (oldsz + 4095) / 4096 * 4096 := by
    unfold pgRoundUp
    omega
  have hend : pgRoundUp oldsz + n * pgSize = pgRoundUp newsz ∧ pgRoundUp newsz ≤ userTop := by
    rw [hvals.2.2, hn', hold]
    unfold pgRoundUp
    omega
  have hstart : pgRoundUp oldsz % pgSize = 0 := by
    rw [hvals.2.2, hold]
    omega
  have heq : s.userAlloc root oldsz newsz =
      MemAllocator.userAllocFrom root (pgRoundUp oldsz) newsz n s (pgRoundUp oldsz) := by
    unfold MemAllocator.userAlloc
    rw [if_neg (by omega), hn]
  rw [heq, ← hend.1]
  rcases h.userAllocFrom hw hstart hstart le_rfl (hend.1 ▸ hend.2) with
    hres | ⟨s', he, hacts, hvalid⟩ | hres
  · exact Or.inl hres
  · exact Or.inr (Or.inl ⟨s', he, hacts, fun va hva hlo hhi hv => (hvalid va hva hlo hhi hv).2⟩)
  · exact Or.inr (Or.inr hres)

end StartOS.MemAllocator
