import StartOS.Os.Growth

/-! # Page faults

`LoadIfValid` maps a fresh page at an address that is not loaded: for a mapping
that contains the address it has the bytes of the file, below the size of the
process it is clear. When a node of the table cannot be made, the frame for the
page is lost.
-/

namespace StartOS

variable {s s₁ s' : MemAllocator} {root va va' p q x i perm : ℕ} {m : ByteMem} {v : Vma} {t : Task}
  {contents : ℕ → List UInt8} {vmaTable : ℕ → Vma}

namespace MemAllocator

theorem Space.frame_ne_zero (h : Space s root) (hw : s.WellFormed) (hva : va < maxVa)
    (hp : s.userFrame root va = some p) : p ≠ 0 := by
  have := (h.isPage va hva p hp).kend_le
  have := hw.kend_pos
  omega

theorem walkAddr_eq (h : Space s root) (hw : s.WellFormed) (hva : va < maxVa) :
    s.walkAddr root va = .ok ((s.userFrame root va).getD 0) := by
  unfold walkAddr walk
  rw [if_neg (by omega), if_neg (by omega), walkFrom_false]
  simp only [Kernel.ok_bind]
  unfold userFrame
  cases hm : RadixTree.follow s.child root (path va 2) with
  | none =>
    rw [leaf_of_none hm]
    rfl
  | some n =>
    have hpos := h.table.pos hw (by simp [path]) hm
    rw [leaf_of_node hm, if_neg (by simp only [pteAddr]; omega)]
    by_cases hv : isValid (s.pteAt (pteAddr n (px 0 va)))
    · rw [if_neg (by simpa using hv)]
      by_cases hu : s.pteAt (pteAddr n (px 0 va)) &&& pteU = 0
      · rw [if_pos hu, if_neg fun hc => hc.2 hu]
        rfl
      · rw [if_neg hu, if_pos ⟨hv, hu⟩]
        rfl
    · rw [if_pos (by simpa using hv), if_neg fun hc => hv hc.1]
      rfl

def Unloaded (s : MemAllocator) (root va : ℕ) : Prop := va < maxVa → s.userFrame root va = none

theorem walkAddr_eq_zero_iff (h : Space s root) (hw : s.WellFormed) :
    s.walkAddr root va = .ok 0 ↔ s.Unloaded root va := by
  by_cases hva : va < maxVa
  · rw [walkAddr_eq h hw hva]
    constructor
    · intro he _
      cases hp : s.userFrame root va with
      | none => rfl
      | some p =>
        rw [hp] at he
        exact absurd (Except.ok.inj he) (h.frame_ne_zero hw hva hp)
    · intro hu
      rw [hu hva]
      rfl
  · unfold walkAddr
    rw [if_pos (by omega)]
    exact ⟨fun _ hc => absurd hc hva, fun _ => rfl⟩

theorem walkAddr_of_loaded (h : Space s root) (hw : s.WellFormed) (hl : ¬s.Unloaded root va) :
    ∃ p, p ≠ 0 ∧ s.walkAddr root va = .ok p := by
  have hva : va < maxVa := by
    by_contra hge
    exact hl fun hc => absurd hc hge
  cases hp : s.userFrame root va with
  | none => exact absurd (fun _ => hp) hl
  | some p =>
    refine ⟨p, h.frame_ne_zero hw hva hp, ?_⟩
    rw [walkAddr_eq h hw hva, hp]
    rfl

theorem MapsPage.write (h : MapsPage s s₁ root va p perm) (hw : s.WellFormed) (hs : Space s root)
    (hp : UserPerm perm) (hva : va < maxVa) (hm : ∀ x, x < p ∨ p + pgSize ≤ x → m x = s₁.mem x) :
    MapsPage s { s₁ with mem := m } root va p perm := by
  have hframe : s₁.userFrame root va = some p :=
    userFrame_of_leaf hp (hw.isPage p h.fresh) ((h.leaf va hva).trans (if_pos rfl))
  obtain ⟨hacts, hkept, hleaf⟩ := h.acts.space.write h.acts.moves.wf hva hframe hm
  refine ⟨h.acts.trans hacts, h.kept.trans hkept, fun va' hva' => ?_, ?_, h.fresh, h.cost⟩
  · rw [hleaf]
    exact h.leaf va' hva'
  · intro va' hva' q hq x hx hx'
    rw [← h.pages va' hva' q hq x hx hx']
    refine hm x ((hs.isPage va' hva' q hq).disjoint (hw.isPage p h.fresh) ?_ hx hx')
    rintro rfl
    exact hs.taken va' hva' q hq h.fresh

theorem LosesFrame.write (h : LosesFrame s s₁ root p) (hw : s.WellFormed) (hs : Space s root)
    (hm : ∀ x, x < p ∨ p + pgSize ≤ x → m x = s₁.mem x) :
    LosesFrame s { s₁ with mem := m } root p := by
  have hs₁ := h.acts.space
  have hw₁ := h.acts.moves.wf
  obtain ⟨hs', hfoot, hleaf⟩ := hs₁.of_agree
    (show ({ s₁ with mem := m } : MemAllocator).kend = s₁.kend from rfl)
    (fun q hq => hs₁.footprint_taken hq) fun l n hl hn x hx hx' => by
      refine hm x ((hs₁.table.isPage l n hl hn).disjoint h.isPage ?_ hx hx')
      rintro rfl
      exact h.notOwned (Or.inl ⟨l, hl, hn⟩)
  refine ⟨⟨hs', ⟨hw₁.kend_pos, hw₁.nodup, fun q hq => (hw₁.isPage q hq).of_kend rfl⟩,
    h.acts.moves.kend, ?_, fun q hq => hs'.footprint_taken hq, ?_⟩, fun va => ?_, ?_, ?_, ?_,
    h.notFree, h.isPage.of_kend rfl, h.fresh⟩
  · intro q hq
    rw [hfoot] at hq
    exact h.acts.moves.frames q hq
  · intro x hx
    exact (hm x (hx p (Or.inr h.fresh))).trans (h.acts.moves.mem x hx)
  · exact (hleaf va).trans (h.leaf va)
  · intro va' hva' q hq x hx hx'
    rw [← h.pages va' hva' q hq x hx hx']
    refine hm x ((hs.isPage va' hva' q hq).disjoint (hw.isPage p h.fresh) ?_ hx hx')
    rintro rfl
    exact hs.taken va' hva' q hq h.fresh
  · intro q hq
    rw [hfoot]
    exact h.lost q hq
  · rw [hfoot]
    exact h.notOwned

/-- A fresh page with the given bytes is mapped at `va`, or its frame is lost because a node is
missing and there is no frame for it. -/
def Loads (s s' : MemAllocator) (root va perm : ℕ) (byte : ℕ → UInt8) : Prop :=
  ∃ p, (MapsPage s s' root (pgRoundDown va) p perm ∧ ∀ j < pgSize, s'.mem (p + j) = byte j) ∨
    (s.freeList.length < s.missing (pgRoundDown va) 2 root + 1 ∧ LosesFrame s s' root p)

def Top (s : MemAllocator) (root : ℕ) : Prop :=
  ∀ va < maxVa, userTop ≤ va → isValid (s.leaf root va)

theorem mappages_of_ge {pa : ℕ} (h : maxVa ≤ pgRoundDown va) (size : ℕ) :
    s.mappages root va size pa perm = .error (.panic "walk") := by
  unfold mappages mapFrom walk
  rw [if_pos h]
  rfl

/-- A cleared frame is mapped at the page of `va`, which is not loaded. -/
theorem Space.mapCleared (h : Space s root) (hw : s.WellFormed) (hperm : UserPerm perm)
    (ht : Taken s s₁ p) (hva : va < userTop) (hu : s.Unloaded root va) :
    ∃ r s', (s₁.clearPage p).mappages root (pgRoundDown va) pgSize p perm = .ok (r, s') ∧
      ((MapsPage s s' root (pgRoundDown va) p perm ∧ ∀ x, p ≤ x → x < p + pgSize → s'.mem x = 0) ∨
        (s.freeList.length < s.missing (pgRoundDown va) 2 root + 1 ∧ LosesFrame s s' root p)) := by
  have hvals : userTop = 274877898752 ∧ maxVa = 274877906944 ∧ pgSize = 4096 := by decide
  have hpage : pgRoundDown va < userTop ∧ pgRoundDown va % pgSize = 0 ∧
      va / pgSize = pgRoundDown va / pgSize := by
    rw [hvals.2.2]
    unfold pgRoundDown
    omega
  rcases h.mapUser hw ht.clearPage hpage.1 hpage.2.1 hperm with
    ⟨hv, -⟩ | ⟨hv, s', ⟨he, hmap, hmem⟩ | ⟨he, hlen, hlost⟩⟩
  · rw [← leaf_page s root (by omega) (by omega) hpage.2.2] at hv
    exact absurd (hu (by omega)) (h.user_of_valid (by omega) hva hv)
  · exact ⟨0, s', he, Or.inl ⟨hmap, fun x hx hx' => (hmem x hx hx').trans (clearPage_mem hx hx')⟩⟩
  · exact ⟨-1, s', he, Or.inr ⟨hlen, hlost⟩⟩

theorem Space.mapTop (h : Space s root) (hw : s.WellFormed) (htop : Top s root)
    (hperm : UserPerm perm) (ht : Taken s s₁ p) (hva : userTop ≤ va) :
    ∃ e, (s₁.clearPage p).mappages root (pgRoundDown va) pgSize p perm = .error e := by
  have hvals : userTop = 274877898752 ∧ maxVa = 274877906944 ∧ pgSize = 4096 := by decide
  have hpage : userTop ≤ pgRoundDown va ∧ pgRoundDown va % pgSize = 0 ∧
      pgRoundDown (pgRoundDown va) = pgRoundDown va := by
    rw [hvals.2.2]
    unfold pgRoundDown
    omega
  by_cases hge : maxVa ≤ pgRoundDown va
  · exact ⟨_, mappages_of_ge (by rw [hpage.2.2]; exact hge) pgSize⟩
  · obtain ⟨h₁, -, -, hleaf⟩ := ht.clearPage.space hw h
    have hlt := (ht.isPage hw).lt_top.trans (show physTop < 2 ^ 64 by norm_num [physTop])
    have hw₁ := ht.clearPage.wellFormed hw
    rcases h₁.table.mapPage hw₁ (by omega) hpage.2.1 hlt hperm.lt with ⟨-, he⟩ | ⟨hv, -⟩
    · exact ⟨_, he⟩
    · rw [hleaf] at hv
      exact absurd (htop _ (by omega) hpage.1) hv

end MemAllocator

open MemAllocator

namespace Vma

def Contains (v : Vma) (va : ℕ) : Prop := pgRoundDown v.addr ≤ va ∧ va < pgRoundUp v.stop

instance (v : Vma) (va : ℕ) : Decidable (v.Contains va) := inferInstanceAs (Decidable (_ ∧ _))

/-- Byte `j` of the page at `page` when it is loaded. -/
def pageByte (v : Vma) (contents : ℕ → List UInt8) (page j : ℕ) : UInt8 :=
  match v.ip with
  | none => 0
  | some ip =>
    if page + j < v.stop then (contents ip).getD ((v.offset + (page - v.addr)) % 2 ^ 32 + j) 0 else 0

def Aligned (v : Vma) : Prop := v.addr % pgSize = 0

theorem Contains.bounds (h : v.Contains va) (ha : v.Aligned) :
    v.addr ≤ pgRoundDown va ∧ pgRoundDown va < v.stop ∧ pgRoundDown va + pgSize < 2 ^ 64 ∧
      v.stop < 2 ^ 64 ∧ va < 2 ^ 64 := by
  have hs : v.stop < 2 ^ 64 := Nat.mod_lt _ (by norm_num)
  obtain ⟨h₁, h₂⟩ := h
  unfold Aligned at ha
  unfold pgRoundDown at h₁ ⊢
  unfold pgRoundUp at h₂
  simp only [pgSize] at *
  omega

theorem Contains.clamp (h : v.Contains va) (ha : v.Aligned) :
    pgRoundDown (v.clamp va) = pgRoundDown va := by
  have hb := h.bounds ha
  obtain ⟨h₁, h₂⟩ := h
  unfold pgRoundDown pgRoundUp at *
  simp only [pgSize] at hb
  dsimp only [Vma.clamp]
  rw [if_neg (show ¬va < v.addr by omega)]
  split
  · omega
  · rfl

theorem fileBytes_eq (h : v.Contains va) (ha : v.Aligned) (content : List UInt8) :
    v.fileBytes content (pgRoundDown va) = (0, inodeBytes content
      ((v.offset + (pgRoundDown va - v.addr)) % 2 ^ 32) (min pgSize (v.stop - pgRoundDown va))) := by
  obtain ⟨h₁, h₂, h₃, h₄, -⟩ := h.bounds ha
  have hround : pgRoundDown (pgRoundDown va) = pgRoundDown va ∧
      pgRoundUp (pgRoundDown va + 1) = pgRoundDown va + pgSize := by
    simp only [pgSize] at h₃ ⊢
    unfold pgRoundUp pgRoundDown at *
    omega
  obtain ⟨n, hn⟩ : ∃ n : ℕ, n = min pgSize (v.stop - pgRoundDown va) := ⟨_, rfl⟩
  have hn' : n ≤ pgSize ∧ ((min (pgRoundDown va + pgSize) v.stop : ℕ) : ℤ) - pgRoundDown va = n := by
    simp only [pgSize] at *
    omega
  have hread : (min (toInt32 (((min (pgRoundDown va + pgSize) v.stop : ℕ) : ℤ) - pgRoundDown va))
      (pgSize : ℤ) % 2 ^ 32).toNat = n := by
    rw [hn'.2, toInt32_of_lt (by omega) (by simp only [pgSize] at *; omega)]
    simp only [pgSize] at *
    omega
  unfold fileBytes
  rw [max_eq_right h₁]
  dsimp only
  rw [hround.1, hround.2, hread, Nat.sub_self, hn]

theorem getD_inodeBytes (content : List UInt8) (off n j : ℕ) :
    (inodeBytes content off n).getD j 0 = if j < n then content.getD (off + j) 0 else 0 := by
  unfold inodeBytes
  rw [List.getD_eq_getElem?_getD, List.getElem?_take]
  split
  · rw [List.getElem?_drop, List.getD_eq_getElem?_getD]
  · rfl

end Vma

theorem MemAllocator.Unloaded.page (h : s.Unloaded root va)
    (he : pgRoundDown va' = pgRoundDown va) : s.Unloaded root va' := by
  intro hva'
  have hvals : maxVa = 274877906944 ∧ pgSize = 4096 := by decide
  have hva : va < maxVa ∧ va' / pgSize = va / pgSize := by
    rw [hvals.2]
    unfold pgRoundDown at he
    omega
  rw [userFrame_page s root hva.1 hva' hva.2]
  exact h hva.1

namespace Vma

theorem loadIfContain_of_alloc (hc : v.Contains va) (ha : v.Aligned) (h : Space s root)
    (hw : s.WellFormed) (hu : s.Unloaded root va) (he : s.alloc = (p, s₁)) (hp : p ≠ 0) :
    v.loadIfContain contents root va s = (do
      let (_, s) ← (s₁.clearPage p).mappages root (pgRoundDown va) pgSize p (protPerm v.prot)
      match v.ip with
      | none => return (true, s)
      | some ip =>
        let bytes := inodeBytes (contents ip)
          ((v.offset + (pgRoundDown va - v.addr)) % 2 ^ 32) (min pgSize (v.stop - pgRoundDown va))
        return (true, { s with mem := s.mem.blit p bytes.length fun j => bytes.getD j 0 })) := by
  have hout : ¬(va < pgRoundDown v.addr ∨ va ≥ pgRoundUp v.stop) := by
    obtain ⟨h₁, h₂⟩ := hc
    omega
  obtain ⟨r, rfl⟩ := Nat.exists_eq_succ_of_ne_zero hp
  unfold loadIfContain
  rw [if_neg hout]
  dsimp only
  rw [(walkAddr_eq_zero_iff h hw).mpr (hu.page (hc.clamp ha)), Kernel.ok_bind,
    if_neg (fun hne => hne rfl), he, hc.clamp ha]
  cases v.ip with
  | none => rfl
  | some ip =>
    simp only [fileBytes_eq hc ha]

theorem loadIfContain_spec (contents : ℕ → List UInt8) (hc : v.Contains va) (ha : v.Aligned)
    (h : Space s root) (hw : s.WellFormed) (htop : Top s root) (hperm : UserPerm (protPerm v.prot))
    (hu : s.Unloaded root va) :
    (∃ e, v.loadIfContain contents root va s = .error e ∧ (s.freeList = [] ∨ userTop ≤ va)) ∨
      (va < userTop ∧ ∃ s', v.loadIfContain contents root va s = .ok (true, s') ∧
        Loads s s' root va (protPerm v.prot) (v.pageByte contents (pgRoundDown va))) := by
  rcases alloc_cases hw with ⟨hnil, he⟩ | ⟨p, s₁, he, hp, ht⟩
  · have hout : ¬(va < pgRoundDown v.addr ∨ va ≥ pgRoundUp v.stop) := by
      obtain ⟨h₁, h₂⟩ := hc
      omega
    refine Or.inl ⟨.fault, ?_, Or.inl hnil⟩
    unfold loadIfContain
    rw [if_neg hout]
    dsimp only
    rw [(walkAddr_eq_zero_iff h hw).mpr (hu.page (hc.clamp ha)), Kernel.ok_bind,
      if_neg (fun hne => hne rfl), he]
    rfl
  rw [loadIfContain_of_alloc hc ha h hw hu he hp]
  by_cases hva : va < userTop
  · obtain ⟨r, s₂, hm, hres⟩ := h.mapCleared hw hperm ht hva hu
    have hlt : pgRoundDown va < maxVa := lt_of_le_of_lt (Nat.div_mul_le_self va 4096)
      (hva.trans (by decide))
    rw [hm, Kernel.ok_bind]
    cases hip : v.ip with
    | none =>
      refine Or.inr ⟨hva, s₂, rfl, p, ?_⟩
      rcases hres with ⟨hmap, hz⟩ | hlost
      · refine Or.inl ⟨hmap, fun j hj => ?_⟩
        unfold pageByte
        rw [hip, hz (p + j) (by omega) (by omega)]
      · exact Or.inr hlost
    | some ip =>
      set bytes := inodeBytes (contents ip) ((v.offset + (pgRoundDown va - v.addr)) % 2 ^ 32)
        (min pgSize (v.stop - pgRoundDown va)) with hbytes
      have hlen : bytes.length ≤ pgSize := by
        rw [hbytes, inodeBytes, List.length_take]
        omega
      have hout : ∀ x, x < p ∨ p + pgSize ≤ x →
          (s₂.mem.blit p bytes.length fun j => bytes.getD j 0) x = s₂.mem x := fun x hx =>
        ByteMem.blit_of_not_mem (by omega)
      refine Or.inr ⟨hva, _, rfl, p, ?_⟩
      rcases hres with ⟨hmap, hz⟩ | ⟨hfew, hlost⟩
      · refine Or.inl ⟨hmap.write hw h hperm hlt hout, fun j hj => ?_⟩
        have hbyte : (s₂.mem.blit p bytes.length fun j => bytes.getD j 0)
            (p + j) = bytes.getD j 0 := by
          by_cases hjl : j < bytes.length
          · rw [ByteMem.blit_of_mem (by omega) (by omega), Nat.add_sub_cancel_left]
          · rw [ByteMem.blit_of_not_mem (by omega), hz (p + j) (by omega) (by omega),
              List.getD_eq_default _ _ (by omega)]
        unfold pageByte
        rw [hip]
        dsimp only
        rw [hbyte, hbytes, getD_inodeBytes]
        have hiff : j < min pgSize (v.stop - pgRoundDown va) ↔ pgRoundDown va + j < v.stop := by
          omega
        simp only [hiff]
      · exact Or.inr ⟨hfew, hlost.write hw h hout⟩
  · obtain ⟨e, hm⟩ := h.mapTop hw htop hperm ht (show userTop ≤ va by omega)
    rw [hm]
    exact Or.inl ⟨e, rfl, Or.inr (by omega)⟩

theorem loadIfContain_of_not (hc : ¬v.Contains va) :
    v.loadIfContain contents root va s = .ok (false, s) := by
  unfold Contains at hc
  unfold loadIfContain
  rw [if_pos (by omega)]
  rfl

end Vma

namespace Task

def loaderIn (t : Task) (vmaTable : ℕ → Vma) (va : ℕ) : List ℕ → Option Vma
  | [] => none
  | i :: is =>
    match t.vma i with
    | none => loaderIn t vmaTable va is
    | some p => if (vmaTable p).Contains va then some (vmaTable p) else loaderIn t vmaTable va is

def faultPage (t : Task) (contents : ℕ → List UInt8) (vmaTable : ℕ → Vma) (va : ℕ) :
    Option (ℕ × (ℕ → UInt8)) :=
  match t.loaderIn vmaTable va (List.range nommapfile) with
  | some v => some (protPerm v.prot, v.pageByte contents (pgRoundDown va))
  | none => if va < toU64 t.sz then some (pteV ||| pteU ||| pteR ||| pteW, fun _ => 0) else none

def Aligned (t : Task) (vmaTable : ℕ → Vma) : Prop := ∀ i p, t.vma i = some p → (vmaTable p).Aligned

theorem loaderIn_some {is : List ℕ} (h : t.loaderIn vmaTable va is = some v) :
    ∃ i ∈ is, ∃ p, t.vma i = some p ∧ vmaTable p = v ∧ v.Contains va := by
  induction is with
  | nil => cases h
  | cons i is ih =>
    unfold loaderIn at h
    cases hi : t.vma i with
    | none =>
      rw [hi] at h
      obtain ⟨j, hj, hres⟩ := ih h
      exact ⟨j, List.mem_cons_of_mem i hj, hres⟩
    | some p =>
      rw [hi] at h
      dsimp only at h
      split at h
      · rename_i hc
        cases h
        exact ⟨i, List.mem_cons_self, p, hi, rfl, hc⟩
      · obtain ⟨j, hj, hres⟩ := ih h
        exact ⟨j, List.mem_cons_of_mem i hj, hres⟩

section Fault

variable (h : Space s t.pagetable) (hw : s.WellFormed) (htop : Top s t.pagetable)
  (ha : t.Aligned vmaTable) (hu : s.Unloaded t.pagetable va)

include h hw htop ha hu

/-- The loop over the mappings stops at the first that contains the address. -/
theorem loadFrom_eq (is : List ℕ)
    (hperm : ∀ v, t.loaderIn vmaTable va is = some v → UserPerm (protPerm v.prot)) :
    t.loadFrom contents vmaTable va is s =
      match t.loaderIn vmaTable va is with
      | none => .ok (false, s)
      | some v => v.loadIfContain contents t.pagetable va s := by
  induction is with
  | nil => rfl
  | cons i is ih =>
    unfold loadFrom loaderIn
    unfold loaderIn at hperm
    cases hi : t.vma i with
    | none =>
      rw [hi] at hperm
      exact ih hperm
    | some p =>
      rw [hi] at hperm
      dsimp only at hperm ⊢
      by_cases hc : (vmaTable p).Contains va
      · rw [if_pos hc] at hperm ⊢
        rcases (Vma.loadIfContain_spec _ hc (ha i p hi) h hw htop (hperm _ rfl) hu :
            (∃ e, (vmaTable p).loadIfContain contents _ _ s = .error e ∧ _) ∨ _) with
          ⟨e, he, -⟩ | ⟨-, s', he, -⟩
        · change _ = (vmaTable p).loadIfContain contents t.pagetable va s
          rw [he]
          rfl
        · change _ = (vmaTable p).loadIfContain contents t.pagetable va s
          rw [he]
          rfl
      · rw [if_neg hc] at hperm ⊢
        rw [Vma.loadIfContain_of_not hc, Kernel.ok_bind]
        exact ih hperm

end Fault

/-- `LoadIfValid`: the page is loaded or nothing is known about the address, or the page is
loaded now. -/
theorem loadIfValid_spec (h : Space s t.pagetable) (hw : s.WellFormed) (htop : Top s t.pagetable)
    (ha : t.Aligned vmaTable)
    (hperm : ∀ perm b, t.faultPage contents vmaTable va = some (perm, b) → UserPerm perm) :
    ((s.Unloaded t.pagetable va → t.faultPage contents vmaTable va = none) ∧
        t.loadIfValid contents vmaTable va s = .ok (false, s)) ∨
      s.Unloaded t.pagetable va ∧ ∃ perm byte,
        t.faultPage contents vmaTable va = some (perm, byte) ∧
        ((∃ e, t.loadIfValid contents vmaTable va s = .error e ∧
            (s.freeList = [] ∨ userTop ≤ va)) ∨
          (va < userTop ∧ ∃ s', t.loadIfValid contents vmaTable va s = .ok (true, s') ∧
            Loads s s' t.pagetable va perm byte)) := by
  by_cases hu : s.Unloaded t.pagetable va
  · have hv : ∀ v, t.loaderIn vmaTable va (List.range nommapfile) = some v →
        t.faultPage contents vmaTable va =
          some (protPerm v.prot, v.pageByte contents (pgRoundDown va)) := by
      intro v hv
      unfold faultPage
      rw [hv]
    have hloop : t.loadFrom contents vmaTable va (List.range nommapfile) s = _ :=
      loadFrom_eq h hw htop ha hu (List.range nommapfile) fun v hv' => hperm _ _ (hv v hv')
    unfold loadIfValid
    rw [(walkAddr_eq_zero_iff h hw).mpr hu, Kernel.ok_bind, if_neg (fun hne => hne rfl), hloop]
    cases hl : t.loaderIn vmaTable va (List.range nommapfile) with
    | some v =>
      obtain ⟨i, -, p, hi, rfl, hc⟩ := loaderIn_some hl
      refine Or.inr ⟨hu, _, _, hv _ hl, ?_⟩
      dsimp only
      rcases (Vma.loadIfContain_spec _ hc (ha i p hi) h hw htop (hperm _ _ (hv _ hl)) hu :
          (∃ e, (vmaTable p).loadIfContain contents _ _ s = .error e ∧ _) ∨ _) with
        ⟨e, he, hwhy⟩ | ⟨hva, s', he, hload⟩
      · rw [he]
        exact Or.inl ⟨e, rfl, hwhy⟩
      · rw [he]
        exact Or.inr ⟨hva, s', rfl, hload⟩
    | none =>
      dsimp only
      rw [Kernel.ok_bind, if_neg Bool.false_ne_true]
      by_cases hsz : va < toU64 t.sz
      · have hpage : t.faultPage contents vmaTable va =
            some (pteV ||| pteU ||| pteR ||| pteW, fun _ => 0) := by
          unfold faultPage
          rw [hl]
          exact if_pos hsz
        refine Or.inr ⟨hu, _, _, hpage, ?_⟩
        rw [if_pos hsz]
        rcases alloc_cases hw with ⟨hnil, he⟩ | ⟨p, s₁, he, hp, ht⟩
        · rw [he]
          exact Or.inl ⟨.fault, rfl, Or.inl hnil⟩
        · obtain ⟨r, rfl⟩ := Nat.exists_eq_succ_of_ne_zero hp
          rw [he]
          have hrun : ∀ {call : Kernel (ℤ × MemAllocator)}, (s₁.clearPage r.succ).mappages t.pagetable
              (pgRoundDown va) pgSize r.succ (pteV ||| pteU ||| pteR ||| pteW) = call → _ :=
            fun {_} hm => congrArg (fun call =>
              (call >>= fun q => pure (true, q.2) : Kernel (Bool × MemAllocator))) hm
          by_cases hva : va < userTop
          · obtain ⟨r', s₂, hm, hres⟩ := h.mapCleared hw (hperm _ _ hpage) ht hva hu
            refine Or.inr ⟨hva, s₂, ?_, r.succ, ?_⟩
            · exact hrun hm
            · rcases hres with ⟨hmap, hz⟩ | hlost
              · exact Or.inl ⟨hmap, fun j hj => hz _ (by omega) (by omega)⟩
              · exact Or.inr hlost
          · obtain ⟨e, hm⟩ := h.mapTop hw htop (hperm _ _ hpage) ht (show userTop ≤ va by omega)
            exact Or.inl ⟨e, hrun hm, Or.inr (by omega)⟩
      · rw [if_neg hsz]
        refine Or.inl ⟨fun _ => ?_, rfl⟩
        unfold faultPage
        rw [hl]
        exact if_neg hsz
  · obtain ⟨p, hp, he⟩ := walkAddr_of_loaded h hw hu
    refine Or.inl ⟨fun hc => absurd hc hu, ?_⟩
    unfold loadIfValid
    rw [he, Kernel.ok_bind, if_pos hp]
    rfl

end Task

/-- Some access is given by the permission of a mapping whose protection gives some. -/
theorem userPerm_prot {prot : ℕ} (h : prot &&& 7 ≠ 0) : UserPerm (protPerm prot) := by
  have hsplit : prot &&& 7 = (prot &&& 1) ||| (prot &&& 2) ||| (prot &&& 4) := by
    rw [← Nat.and_or_distrib_left, ← Nat.and_or_distrib_left]
    rfl
  unfold protPerm
  by_cases h₁ : prot &&& 1 ≠ 0
  · rw [if_pos h₁]
    split <;> split <;> exact ⟨by decide, by decide, by decide⟩
  · rw [if_neg h₁]
    by_cases h₂ : prot &&& 2 ≠ 0
    · rw [if_pos h₂]
      split <;> exact ⟨by decide, by decide, by decide⟩
    · rw [if_neg h₂]
      have h₄ : prot &&& 4 ≠ 0 := by
        intro hz
        rw [not_not] at h₁ h₂
        exact h (by rw [hsplit, h₁, h₂, hz]; rfl)
      rw [if_pos h₄]
      exact ⟨by decide, by decide, by decide⟩

namespace MemAllocator.Loads

variable {byte : ℕ → UInt8}

theorem acts (h : Loads s s' root va perm byte) : Acts s s' root := by
  obtain ⟨p, ⟨hm, -⟩ | ⟨-, hl⟩⟩ := h
  · exact hm.acts
  · exact hl.acts

theorem top (h : Loads s s' root va perm byte) (hva : va < userTop) (ht : Top s root) :
    Top s' root := by
  intro va' hva' htop
  obtain ⟨p, ⟨hm, -⟩ | ⟨-, hl⟩⟩ := h
  · rw [hm.leaf va' hva', if_neg]
    · exact ht va' hva' htop
    · have hvals : userTop = 274877898752 ∧ pgSize = 4096 := by decide
      rw [hvals.2]
      unfold pgRoundDown
      omega
  · rw [hl.leaf]
    exact ht va' hva' htop

theorem leaf_eq (h : Loads s s' root va perm byte) (hva' : va' < maxVa)
    (hne : pgRoundDown va' ≠ pgRoundDown va) : s'.leaf root va' = s.leaf root va' := by
  obtain ⟨p, ⟨hm, -⟩ | ⟨-, hl⟩⟩ := h
  · rw [hm.leaf va' hva', if_neg]
    rw [show pgSize = 4096 from rfl]
    unfold pgRoundDown at hne ⊢
    omega
  · exact hl.leaf va'

theorem userFrame_of (h : Loads s s' root va perm byte) (hu : s.Unloaded root va) (hva' : va' < maxVa)
    (hq : s.userFrame root va' = some q) : s'.userFrame root va' = some q := by
  rw [userFrame_congr (h.leaf_eq hva' ?_), hq]
  intro he
  rw [hu.page he hva'] at hq
  cases hq

end MemAllocator.Loads

theorem MemAllocator.alloc_freeList (he : s.alloc = (p, s')) :
    s'.freeList <:+ s.freeList := by
  unfold MemAllocator.alloc at he
  cases hl : s.freeList with
  | nil =>
    rw [hl] at he
    cases he
    rw [hl]
  | cons q fl =>
    rw [hl] at he
    obtain rfl := (Prod.mk.inj he).2
    exact List.suffix_cons q fl

theorem MemAllocator.clearPage_freeList (s : MemAllocator) (p : ℕ) :
    (s.clearPage p).freeList = s.freeList := rfl

theorem Vma.loadIfContain_freeList {b : Bool}
    (hok : v.loadIfContain contents root va s = .ok (b, s')) :
    s'.freeList <:+ s.freeList := by
  unfold Vma.loadIfContain at hok
  split at hok
  · cases hok
    exact List.suffix_rfl
  dsimp only at hok
  cases hw : s.walkAddr root (v.clamp va) with
  | error e =>
    rw [hw] at hok
    cases hok
  | ok q =>
    rw [hw, Kernel.ok_bind] at hok
    split at hok
    · cases hok
      exact List.suffix_rfl
    split at hok
    · cases hok
    · rename_i mem s₁ hne ha
      cases hm : (s₁.clearPage mem).mappages root (pgRoundDown (v.clamp va)) pgSize mem
          (protPerm v.prot) with
      | error e =>
        rw [hm] at hok
        cases hok
      | ok r =>
        rw [hm, Kernel.ok_bind] at hok
        have hmap := mappages_freeList hm
        rw [clearPage_freeList] at hmap
        have hsuf := hmap.trans (alloc_freeList ha)
        split at hok
        · cases hok
          exact hsuf
        · cases hok
          exact hsuf

theorem Task.loadFrom_freeList {b : Bool} {is : List ℕ}
    (hok : t.loadFrom contents vmaTable va is s = .ok (b, s')) : s'.freeList <:+ s.freeList := by
  induction is generalizing s with
  | nil =>
    cases hok
    exact List.suffix_rfl
  | cons i is ih =>
    unfold Task.loadFrom at hok
    cases hi : t.vma i with
    | none =>
      rw [hi] at hok
      exact ih hok
    | some p =>
      rw [hi] at hok
      dsimp only at hok
      cases hc : (vmaTable p).loadIfContain contents t.pagetable va s with
      | error e =>
        rw [hc] at hok
        cases hok
      | ok r =>
        rw [hc, Kernel.ok_bind] at hok
        split at hok
        · cases hok
          exact Vma.loadIfContain_freeList hc
        · exact (ih hok).trans (Vma.loadIfContain_freeList hc)

theorem Task.loadIfValid_freeList {b : Bool}
    (hok : t.loadIfValid contents vmaTable va s = .ok (b, s')) :
    s'.freeList <:+ s.freeList := by
  unfold Task.loadIfValid at hok
  cases hw : s.walkAddr t.pagetable va with
  | error e =>
    rw [hw] at hok
    cases hok
  | ok q =>
    rw [hw, Kernel.ok_bind] at hok
    split at hok
    · cases hok
      exact List.suffix_rfl
    cases hl : t.loadFrom contents vmaTable va (List.range nommapfile) s with
    | error e =>
      rw [hl] at hok
      cases hok
    | ok q =>
      obtain ⟨b', r⟩ := q
      rw [hl, Kernel.ok_bind] at hok
      have hsuf : r.freeList <:+ s.freeList := Task.loadFrom_freeList hl
      dsimp only at hok
      by_cases hr : b' = true
      · rw [if_pos hr] at hok
        cases hok
        exact hsuf
      rw [if_neg hr] at hok
      split at hok
      · split at hok
        · cases hok
        · rename_i mem s₁ hne ha
          cases hm : (s₁.clearPage mem).mappages t.pagetable (pgRoundDown va) pgSize mem
              (pteV ||| pteU ||| pteR ||| pteW) with
          | error e =>
            rw [hm] at hok
            cases hok
          | ok r' =>
            rw [hm, Kernel.ok_bind] at hok
            cases hok
            have hmap := mappages_freeList hm
            rw [clearPage_freeList] at hmap
            exact (hmap.trans (alloc_freeList ha)).trans hsuf
      · cases hok
        exact hsuf

/-- The address is in the mapping of some slot: a fault there loads a page. -/
theorem Task.faultPage_ne_none (hi : i < nommapfile) (hp : t.vma i = some p)
    (hc : (vmaTable p).Contains va) : t.faultPage contents vmaTable va ≠ none := by
  have hloader : ∀ is : List ℕ, i ∈ is → t.loaderIn vmaTable va is ≠ none := by
    intro is his
    induction is with
    | nil => cases his
    | cons j is ih =>
      unfold Task.loaderIn
      rcases List.mem_cons.mp his with rfl | his
      · rw [hp]
        dsimp only
        rw [if_pos hc]
        nofun
      · cases t.vma j with
        | none => exact ih his
        | some q =>
          dsimp only
          split
          · nofun
          · exact ih his
  unfold Task.faultPage
  cases hl : t.loaderIn vmaTable va (List.range nommapfile) with
  | none => exact absurd hl (hloader _ (List.mem_range.mpr hi))
  | some v => nofun

end StartOS
