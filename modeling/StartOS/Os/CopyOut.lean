import StartOS.Os.PageFault

/-! # Copies to user memory

`copyout` writes through a page table, one page after the other, and fails at
the first page that is not loaded.
-/

namespace StartOS

namespace MemAllocator

variable {s s' s'' : MemAllocator} {root va n off p : ℕ} {src : ByteMem}

def userByte (s : MemAllocator) (root va : ℕ) : Option UInt8 :=
  if va < maxVa then (s.userFrame root va).map fun p => s.mem (p + va % pgSize) else none

theorem Unloaded.userByte (h : s.Unloaded root va) : s.userByte root va = none := by
  unfold MemAllocator.userByte
  split
  · rename_i hva
    rw [h hva]
    rfl
  · rfl

/-- User pages have been written to; the page table is as it was. -/
structure Writes (s s' : MemAllocator) (root : ℕ) : Prop where
  acts : Acts s s' root
  kept : KeptIn s s' root
  leaf : ∀ va, s'.leaf root va = s.leaf root va

namespace Writes

theorem refl (h : Space s root) (hw : s.WellFormed) : Writes s s root :=
  ⟨.refl hw h, fun _ hp => hp, fun _ => rfl⟩

theorem trans (h : Writes s s' root) (h' : Writes s' s'' root) : Writes s s'' root :=
  ⟨h.acts.trans h'.acts, h.kept.trans h'.kept, fun va => (h'.leaf va).trans (h.leaf va)⟩

theorem userFrame (h : Writes s s' root) (va : ℕ) : s'.userFrame root va = s.userFrame root va :=
  userFrame_congr (h.leaf va)

theorem unloaded (h : Writes s s' root) : s'.Unloaded root va ↔ s.Unloaded root va := by
  unfold Unloaded
  rw [h.userFrame]

end Writes

theorem Space.writePage {f : ℕ → UInt8} (h : Space s root) (hw : s.WellFormed) (hva : va < maxVa)
    (hp : s.userFrame root va = some p) (hn : off + n ≤ pgSize) :
    Writes s { s with mem := s.mem.blit (p + off) n f } root ∧ ∀ va' < maxVa,
      ({ s with mem := s.mem.blit (p + off) n f } : MemAllocator).userByte root va' =
        if va' / pgSize = va / pgSize ∧ off ≤ va' % pgSize ∧ va' % pgSize < off + n then
          some (f (va' % pgSize - off)) else s.userByte root va' := by
  have hout : ∀ x, x < p ∨ p + pgSize ≤ x → s.mem.blit (p + off) n f x = s.mem x := fun x hx =>
    ByteMem.blit_of_not_mem (by omega)
  obtain ⟨hacts, hkept, hleaf⟩ := h.write hw hva hp hout
  refine ⟨⟨hacts, hkept, hleaf⟩, fun va' hva' => ?_⟩
  unfold userByte
  rw [if_pos hva', if_pos hva', userFrame_congr (hleaf va')]
  by_cases hpage : va' / pgSize = va / pgSize
  · rw [userFrame_page s root hva hva' hpage, hp]
    simp only [Option.map_some, hpage, true_and]
    split
    · rw [ByteMem.blit_of_mem (by omega) (by omega), show p + va' % pgSize - (p + off) =
        va' % pgSize - off by omega]
    · rw [ByteMem.blit_of_not_mem (by omega)]
  · rw [if_neg fun hc => hpage hc.1]
    cases hq : s.userFrame root va' with
    | none => rfl
    | some q =>
      have hne : q ≠ p := by
        rintro rfl
        exact hpage (h.inj va' hva' va hva q hq hp)
      have hmod : va' % pgSize < pgSize := Nat.mod_lt _ (by decide)
      have hx : q + va' % pgSize < q + pgSize := by omega
      exact congrArg some (hout _ ((h.isPage va' hva' q hq).disjoint (h.isPage va hva p hp) hne
        (Nat.le_add_right q _) hx))

theorem Space.copyoutFrom {fuel : ℕ} (vdst i len : ℕ) (h : Space s root) (hw : s.WellFormed)
    (hfuel : len < fuel) :
    ∃ r s', copyoutFrom root src fuel s vdst i len = .ok (r, s') ∧ Writes s s' root ∧
      ((r = 0 ∧ (∀ va, vdst ≤ va → va < vdst + len → ¬s.Unloaded root va) ∧
          ∀ va < maxVa, s'.userByte root va = if vdst ≤ va ∧ va < vdst + len then
            some (src (i + (va - vdst))) else s.userByte root va) ∨
        (r = -1 ∧ ∃ va, vdst ≤ va ∧ va < vdst + len ∧ s.Unloaded root va)) := by
  induction fuel generalizing s vdst i len with
  | zero => exact absurd hfuel (Nat.not_lt_zero _)
  | succ fuel ih =>
    rw [MemAllocator.copyoutFrom]
    by_cases hlen : len = 0
    · rw [if_pos hlen]
      refine ⟨0, s, rfl, .refl h hw, .inl ⟨rfl, fun va h₁ h₂ => ?_, fun va _ => ?_⟩⟩
      · omega
      · rw [if_neg (by omega)]
    rw [if_neg hlen]
    dsimp only
    have hvals : maxVa = 274877906944 ∧ pgSize = 4096 := by decide
    by_cases hu : s.Unloaded root (pgRoundDown vdst)
    · rw [(walkAddr_eq_zero_iff h hw).mpr hu]
      simp only [Kernel.ok_bind, if_true]
      refine ⟨-1, s, rfl, .refl h hw, .inr ⟨rfl, vdst, le_rfl, by omega, fun hva => ?_⟩⟩
      have hround : pgRoundDown vdst < maxVa := by
        unfold pgRoundDown
        omega
      rw [userFrame_page s root hround hva (by rw [hvals.2, pgRoundDown]; omega)]
      exact hu hround
    · obtain ⟨p, hp, he⟩ := walkAddr_of_loaded h hw hu
      have hround : pgRoundDown vdst < maxVa := by
        by_contra hge
        exact hu fun hc => absurd hc hge
      have hvdst : vdst < maxVa := by
        unfold pgRoundDown at hround
        omega
      have hframe : s.userFrame root (pgRoundDown vdst) = some p := by
        rw [walkAddr_eq h hw hround] at he
        cases hq : s.userFrame root (pgRoundDown vdst) with
        | none =>
          rw [hq] at he
          exact absurd (Except.ok.inj he).symm hp
        | some q =>
          rw [hq] at he
          exact congrArg some (Except.ok.inj he)
      rw [he]
      simp only [Kernel.ok_bind, if_neg hp]
      obtain ⟨off, hoff⟩ : ∃ off, off = vdst - pgRoundDown vdst := ⟨_, rfl⟩
      obtain ⟨k, hk⟩ : ∃ k, k = min (pgSize - (vdst - pgRoundDown vdst)) len := ⟨_, rfl⟩
      have hmod : off = vdst % 4096 ∧ pgRoundDown vdst + off = vdst := by
        unfold pgRoundDown at hoff ⊢
        omega
      rw [← hk, ← hoff]
      rw [← hoff, hvals.2] at hk
      have hle : off + k ≤ pgSize := by omega
      obtain ⟨hwr, hbyte⟩ := h.writePage hw hround hframe (f := fun j => src (i + j)) hle
      have hwrap : (vdst + k) % 2 ^ 64 = vdst + k := Nat.mod_eq_of_lt (by omega)
      rw [hwrap]
      obtain ⟨r, s', hrun, hwr', hres⟩ := ih (vdst + k) (i + k) (len - k)
        hwr.acts.space hwr.acts.moves.wf (by omega)
      refine ⟨r, s', hrun, hwr.trans hwr', ?_⟩
      rcases hres with ⟨rfl, hloaded, hbyte'⟩ | ⟨rfl, va, h₁, h₂, hun⟩
      · refine .inl ⟨rfl, fun va h₁ h₂ => ?_, fun va hva => ?_⟩
        · by_cases hk' : va < vdst + k
          · intro hun
            have hva : va < maxVa := by omega
            have hsame := hun hva
            rw [userFrame_page s root hround hva (by rw [hvals.2, pgRoundDown]; omega), hframe]
              at hsame
            cases hsame
          · exact fun hun => hloaded va (by omega) (by omega) (hwr.unloaded.mpr hun)
        · rw [hbyte' va hva]
          split
          · rename_i hc
            rw [if_pos (by omega), show i + k + (va - (vdst + k)) = i + (va - vdst) by omega]
          · rename_i hc
            rw [hbyte va hva, hvals.2]
            by_cases hin : vdst ≤ va ∧ va < vdst + len
            · rw [if_pos hin, if_pos (by unfold pgRoundDown; omega),
                show va % 4096 - off = va - vdst by omega]
            · rw [if_neg hin, if_neg (by unfold pgRoundDown; omega)]
      · exact .inr ⟨rfl, va, by omega, by omega, hwr.unloaded.mp hun⟩

theorem Space.copyout (src : ByteMem) (vdst len : ℕ) (h : Space s root) (hw : s.WellFormed) :
    ∃ r s', s.copyout root vdst src len = .ok (r, s') ∧ Writes s s' root ∧
      ((r = 0 ∧ (∀ va, vdst ≤ va → va < vdst + len → ¬s.Unloaded root va) ∧
          ∀ va < maxVa, s'.userByte root va = if vdst ≤ va ∧ va < vdst + len then
            some (src (va - vdst)) else s.userByte root va) ∨
        (r = -1 ∧ ∃ va, vdst ≤ va ∧ va < vdst + len ∧ s.Unloaded root va)) := by
  obtain ⟨r, s', hrun, hwr, hres⟩ := h.copyoutFrom vdst 0 len hw (Nat.lt_succ_self len)
  simp only [Nat.zero_add] at hres
  exact ⟨r, s', hrun, hwr, hres⟩

end MemAllocator

end StartOS
