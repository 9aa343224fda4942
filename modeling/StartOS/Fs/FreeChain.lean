import StartOS.Fs.Conforming

/-! # Which chains `FreeClusterChain` frees

The loop of `FreeClusterChain` reads an entry, clears it and goes on to the number
it has read, until that number is 0x0fffffff. An empty file starts at cluster 0,
whose entry is not one of a file, and another mark or a number with reserved bits
leads out of the table, where every entry reads as -1.
-/

namespace StartOS.Fat32FileSystem

open Linked Hoare

variable {s s' : Fat32FileSystem} {T : ℕ → ℕ} {total a c cur n v : ℕ} {l : List ℕ} {u : Unit}

/-- The call returns, the entries of the clusters of the file are 0 and no other entry has
changed. -/
def FreesChain (T : ℕ → ℕ) (s : Fat32FileSystem) (a : ℕ) (l : List ℕ) : Prop :=
  ∃ s', freeClusterChain a s = .ok ((), s') ∧ ∀ c, tableOf T s' c = if c ∈ l then 0 else T c

theorem freeFrom_turn (hg : s.info.FatGeometry) (hin : s.info.InCache cur) :
    freeFrom (n + 1) cur s = freeFrom n (s.entry cur) (s.setEntry cur 0) := by
  rw [freeFrom, if_neg (inCache_ne_end hin), bind_of_ok (getFatEntry_eq hg hin),
    bind_of_ok (setFatEntry_eq hg hin)]

theorem freeFrom_outside (hg : s.info.FatGeometry) (hin : ¬s.info.InCache cur)
    (hne : cur ≠ endOfCluster) : freeFrom n cur s ≠ .ok (u, s') := by
  have hcount := hg.clusterCount
  induction n generalizing cur with
  | zero =>
    intro hok
    cases hok
  | succ n ih =>
    intro hok
    rw [freeFrom, if_neg hne] at hok
    by_cases hgt : s.info.clusterCount < cur
    · have hget : getFatEntry cur s = .ok (minusOne, s) := by
        rw [getFatEntry, get_bind, if_pos hgt]
        rfl
      have hset : setFatEntry cur 0 s = .ok (-1, s) := by
        rw [setFatEntry, get_bind, if_pos hgt]
        rfl
      rw [bind_of_ok hget, bind_of_ok hset] at hok
      refine ih (fun h => ?_) (by decide) hok
      have := h.le_count
      rw [minusOne] at this
      omega
    · have hget : getFatEntry cur s = .error (.panic "get fat entry") := by
        have hsec : ¬s.fatSectorOfCluster cur < 1024 := by
          rw [fatSector_eq hg (by omega)]
          exact fun h => hin ⟨by omega, h⟩
        rw [getFatEntry, get_bind, if_neg hgt, if_neg hsec]
        rfl
      rw [bind_of_error hget] at hok
      cases hok

theorem freeFrom_zero (hg : s.info.FatGeometry) (hin : s.info.InCache 0) (h0 : s.entry 0 = 0) :
    freeFrom n 0 s ≠ .ok (u, s') := by
  induction n generalizing s with
  | zero =>
    intro hok
    cases hok
  | succ n ih =>
    rw [freeFrom_turn hg hin, h0]
    refine ih (s := s.setEntry 0 0) hg hin ?_
    rw [entry_setEntry (by norm_num), if_pos rfl]

theorem freeFrom_cleared (hg : s.info.FatGeometry) (h0 : s.entry c = 0)
    (hok : freeFrom n cur s = .ok (u, s')) : s'.info = s.info ∧ s'.entry c = 0 := by
  induction n generalizing s cur with
  | zero => cases hok
  | succ n ih =>
    by_cases hend : cur = endOfCluster
    · rw [freeFrom, if_pos hend] at hok
      cases hok
      exact ⟨rfl, h0⟩
    · by_cases hin : s.info.InCache cur
      · rw [freeFrom_turn hg hin] at hok
        refine ih (s := s.setEntry cur 0) hg ?_ hok
        rw [entry_setEntry (by norm_num)]
        split
        · rfl
        · exact h0
      · exact absurd hok (freeFrom_outside hg hin hend)

theorem not_freesChain_nil (h : Conforming total T s a []) : ¬FreesChain T s a [] := by
  have hg := h.geometry
  obtain ⟨rfl, -⟩ := h.clusters.resolve_right fun hl => hl.1 rfl
  rintro ⟨s', hok, htable⟩
  rw [freeClusterChain, get_bind] at hok
  by_cases hin : s.info.InCache 0
  · rw [freeFrom_turn hg hin] at hok
    have hself : (s.setEntry 0 0).entry 0 = 0 := by rw [entry_setEntry (by norm_num), if_pos rfl]
    obtain ⟨hinfo, hafter⟩ := freeFrom_cleared (s := s.setEntry 0 0) hg hself hok
    have hzero : T 0 = 0 := by
      have := htable 0
      have hin' : s'.info.InCache 0 := hinfo.symm ▸ hin
      rw [tableOf_of_inCache hin', hafter, if_neg List.not_mem_nil] at this
      exact this.symm
    rw [h.cache 0 hin, hzero] at hok
    exact freeFrom_zero (s := s.setEntry 0 0) hg hin hself hok
  · exact freeFrom_outside hg hin (by decide) hok

theorem link_outside (hne : T c ≠ fatNext T c) :
    ¬s.info.InCache (T c) ∧ T c ≠ endOfCluster := by
  have hbig : 0x0ffffff8 ≤ T c := by
    by_contra hlt
    exact hne (fatNext_of_lt (not_le.mp hlt)).symm
  refine ⟨fun h => ?_, fun he => hne (by rw [fatNext_of_end he, he])⟩
  have := inCache_lt h
  omega

/-- When the loop returns it has followed the chain of the file. -/
theorem freeFrom_chain (hg : s.info.FatGeometry) (hch : Chain (fatNext T) endOfCluster a l)
    (hT : ∀ c ∈ l, s.info.InCache c → s.entry c = T c)
    (hok : freeFrom n a s = .ok (u, s')) :
    Chain s.entry endOfCluster a l ∧ ∀ c ∈ l, s.info.InCache c := by
  induction l generalizing s a n with
  | nil => exact ⟨hch, fun c hc => absurd hc List.not_mem_nil⟩
  | cons d l ih =>
    have hnd := List.nodup_cons.mp hch.nodup
    obtain ⟨rfl, hne, htail⟩ := hch
    have hin : s.info.InCache a := by
      by_contra hout
      exact freeFrom_outside hg hout hne hok
    have hentry := hT a List.mem_cons_self hin
    obtain ⟨n, rfl⟩ : ∃ m, n = m + 1 := by
      cases n with
      | zero => cases hok
      | succ n => exact ⟨n, rfl⟩
    rw [freeFrom_turn hg hin, hentry] at hok
    have hnext : T a = fatNext T a := by
      by_contra hbad
      obtain ⟨hout, hend⟩ := link_outside (s := s) hbad
      exact freeFrom_outside (s := s.setEntry a 0) hg hout hend hok
    have hother : ∀ c ∈ l, (s.setEntry a 0).entry c = s.entry c := fun c hc => by
      have hca : c ≠ a := fun he => hnd.1 (he ▸ hc)
      rw [entry_setEntry (by norm_num), if_neg hca]
    rw [hnext] at hok
    obtain ⟨hchain, hall⟩ := ih (s := s.setEntry a 0) hg htail
      (fun c hc hi => (hother c hc).trans (hT c (List.mem_cons_of_mem a hc) hi)) hok
    refine ⟨⟨rfl, hne, ?_⟩, fun c hc => ?_⟩
    · rw [hentry, hnext]
      exact hchain.congr fun c hc => (hother c hc).symm
    · rcases List.mem_cons.mp hc with rfl | hc
      · exact hin
      · exact hall c hc

theorem freesChain_of_chain (h : Conforming total T s a l) (hch : Chain s.entry endOfCluster a l)
    (hin : ∀ c ∈ l, s.info.InCache c) : FreesChain T s a l := by
  have hlen : l.length ≤ s.info.clusterCount + 1 := by
    have hsub : l ⊆ List.range (s.info.clusterCount + 1) := fun c hc =>
      List.mem_range.mpr (Nat.lt_succ_of_le (hin c hc).le_count)
    simpa using (hch.nodup.subperm hsub).length_le
  obtain ⟨s', hok, hst, hentry⟩ := freeFrom_spec h.geometry hch hin
    (n := 2 * s.info.clusterCount + 4) (by omega)
  refine ⟨s', hok, fun c => ?_⟩
  have hinfo : s'.info = s.info := by rw [hst]
  by_cases hc : s.info.InCache c
  · have hc' : s'.info.InCache c := hinfo.symm ▸ hc
    rw [tableOf_of_inCache hc', hentry, h.cache c hc]
  · have hc' : ¬s'.info.InCache c := hinfo.symm ▸ hc
    rw [tableOf, if_neg hc', if_neg fun hm => hc (hin c hm)]

/-- `FreeClusterChain` frees the chain of a file of a conforming table exactly when there is one, its
entries are plain cluster numbers up to the one mark, and the cache holds them. -/
theorem freesChain_iff (h : Conforming total T s a l) : FreesChain T s a l ↔
    l ≠ [] ∧ Chain s.entry endOfCluster a l ∧ ∀ c ∈ l, s.info.InCache c := by
  constructor
  · intro hfree
    have hl : l ≠ [] := by
      rintro rfl
      exact not_freesChain_nil h hfree
    obtain ⟨s', hok, -⟩ := hfree
    exact ⟨hl, freeFrom_chain h.geometry (h.chain hl) (fun c _ hc => h.cache c hc) hok⟩
  · rintro ⟨-, hch, hin⟩
    exact freesChain_of_chain h hch hin

theorem freesChain_iff_smallVolume : FreesChain smallVolume.entry smallVolume 2 [2, 3] := by
  have h₂ : smallVolume.entry 2 = 3 := by decide
  have h₃ : smallVolume.entry 3 = endOfCluster := by decide
  have hlink : fatNext smallVolume.entry 2 = 3 := by
    rw [fatNext_of_lt (by rw [h₂]; norm_num), h₂]
  have h : Conforming 800 smallVolume.entry smallVolume 2 [2, 3] := by
    refine ⟨tableInv_smallVolume.geometry, fun _ _ => rfl, .inr ⟨by decide, rfl, by decide, hlink, by decide, ?_⟩, ?_⟩
    · exact fatNext_of_end h₃
    · decide
  refine (freesChain_iff h).mpr ⟨by decide, ⟨rfl, by decide, h₂, by decide, h₃⟩, fun c hc => ?_⟩
  refine inCache_smallVolume ?_
  rcases List.mem_pair.mp hc with rfl | rfl
  · norm_num
  · norm_num

/-- An empty file, whose start is 0, and a file that ends with another mark. -/
theorem not_freesChain_opened :
    (Conforming 800 (opened 0 0).entry (opened 0 0) 0 [] ∧
      ¬FreesChain (opened 0 0).entry (opened 0 0) 0 []) ∧
    (Conforming 800 (opened 5 0x0ffffff8).entry (opened 5 0x0ffffff8) 5 [5] ∧
      ¬FreesChain (opened 5 0x0ffffff8).entry (opened 5 0x0ffffff8) 5 [5]) := by
  have hmark : (opened 5 0x0ffffff8).entry 5 = 0x0ffffff8 := by decide +kernel
  have h₀ : Conforming 800 (opened 0 0).entry (opened 0 0) 0 [] :=
    conforming_opened (.inl ⟨rfl, rfl⟩) (by simp)
  have h₅ : Conforming 800 (opened 5 0x0ffffff8).entry (opened 5 0x0ffffff8) 5 [5] := by
    refine conforming_opened (.inr ⟨by decide, rfl, by decide, ?_⟩) (by simp)
    rw [path_nil, fatNext, hmark]
    rfl
  refine And.intro ⟨h₀, not_freesChain_nil h₀⟩ (And.intro h₅ ?_)
  rintro ⟨s', hok, -⟩
  rw [freeClusterChain, get_bind] at hok
  obtain ⟨⟨-, -, hend⟩, -⟩ := freeFrom_chain h₅.geometry (h₅.chain (List.cons_ne_nil _ _))
    (fun c _ hc => h₅.cache c hc) hok
  rw [path_nil, hmark] at hend
  exact absurd hend (by decide)

end StartOS.Fat32FileSystem
