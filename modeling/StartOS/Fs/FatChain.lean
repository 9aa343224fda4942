import Mathlib.Data.List.Basic
import StartOS.Fs.Fat32
import StartOS.Lib.Hoare
import StartOS.Lib.Linked

/-! # Cluster chains

The entries of `fat_cache_` link the clusters of a file into a chain that ends
in `kEndOfCluster32`. The files of a volume have disjoint chains; a free
cluster has entry 0 and is on no chain.
-/

namespace StartOS

/-- The geometry the table functions support: 512-byte sectors and 29-bit cluster numbers. -/
structure Fat32Info.FatGeometry (info : Fat32Info) : Prop where
  bytesPerSector : info.bytesPerSector = 512
  clusterCount : info.clusterCount < 2 ^ 29
  reserveSectors : info.reserveSectors < 2 ^ 16

/-- The geometry the buffer layer supports: clusters of 8 sectors. -/
structure Fat32Info.Geometry (info : Fat32Info) : Prop extends info.FatGeometry where
  sectorsPerCluster : info.sectorsPerCluster = 8
  bytesPerCluster : info.bytesPerCluster = 4096

/-- The entry of a cluster is in the part of the table that `fat_cache_` holds. -/
structure Fat32Info.InCache (info : Fat32Info) (c : ℕ) : Prop where
  le_count : c ≤ info.clusterCount
  sector_lt : info.reserveSectors + c * 4 / 512 < 1024

namespace Fat32FileSystem

open Linked Hoare

variable {s s' : Fat32FileSystem} {c d v n : ℕ}

def entry (s : Fat32FileSystem) (c : ℕ) : ℕ := s.fatCache.readLE (4 * c) 4

def setEntry (s : Fat32FileSystem) (c v : ℕ) : Fat32FileSystem :=
  { s with fatCache := s.fatCache.writeLE (4 * c) 4 v }

theorem entry_setEntry (hv : v < 2 ^ 32) :
    (s.setEntry c v).entry d = if d = c then v else s.entry d := by
  split
  · rename_i h
    subst h
    exact ByteMem.readLE_writeLE_of_lt hv
  · exact ByteMem.readLE_writeLE_disjoint (by omega)

theorem inCache_lt (h : s.info.InCache c) : c < 131072 := by
  have := h.sector_lt
  omega

theorem inCache_mono (h : s.info.InCache c) (hd : d ≤ c) : s.info.InCache d :=
  ⟨hd.trans h.le_count, by have := h.sector_lt; omega⟩

theorem inCache_ne_end (h : s.info.InCache c) : c ≠ endOfCluster := by
  have := inCache_lt h
  simp only [endOfCluster]
  omega

theorem fatSector_eq (hg : s.info.FatGeometry) (hc : c ≤ s.info.clusterCount) :
    s.fatSectorOfCluster c = s.info.reserveSectors + c * 4 / 512 := by
  have := hg.clusterCount
  have := hg.reserveSectors
  rw [fatSectorOfCluster, hg.bytesPerSector]
  omega

theorem fatIndex_eq (hg : s.info.FatGeometry) (hc : c ≤ s.info.clusterCount) :
    s.fatIndex c = 4 * c := by
  have := hg.clusterCount
  rw [fatIndex, fatSector_eq hg hc, fatOffsetOfCluster, hg.bytesPerSector]
  omega

theorem getFatEntry_eq (hg : s.info.FatGeometry) (hc : s.info.InCache c) :
    getFatEntry c s = .ok (s.entry c, s) := by
  have h₁ : ¬ c > s.info.clusterCount := by have := hc.le_count; omega
  have h₂ : s.fatSectorOfCluster c < 1024 := by rw [fatSector_eq hg hc.le_count]; exact hc.sector_lt
  simp only [getFatEntry, get_bind, if_neg h₁, if_pos h₂, fatIndex_eq hg hc.le_count, pure_apply,
    entry]

theorem setFatEntry_eq (hg : s.info.FatGeometry) (hc : s.info.InCache c) :
    setFatEntry c v s = .ok (0, s.setEntry c v) := by
  have h₁ : ¬ c > s.info.clusterCount := by have := hc.le_count; omega
  have h₂ : s.fatSectorOfCluster c < 1024 := by rw [fatSector_eq hg hc.le_count]; exact hc.sector_lt
  simp only [setFatEntry, get_bind, if_neg h₁, if_pos h₂, fatIndex_eq hg hc.le_count, set_bind,
    pure_apply, setEntry]

/-- The disk after `ZeroCluster`. -/
def clearCluster (s : Fat32FileSystem) (disk : ByteMem) (c : ℕ) : ByteMem :=
  (List.range s.info.sectorsPerCluster).foldl
    (fun disk i => storeSector (fun _ => 0) disk (s.firstSectorOfCluster c + i)) disk

theorem forM_writeSector (first : ℕ) (data : ByteMem) (l : List ℕ) (s : Fat32FileSystem) :
    l.forM (fun i => writeSector (first + i) data) s =
      .ok ((), { s with disk := l.foldl (fun d i => storeSector data d (first + i)) s.disk }) := by
  induction l generalizing s with
  | nil => rfl
  | cons i l ih =>
    have hw : writeSector (first + i) data s =
        .ok ((), { s with disk := storeSector data s.disk (first + i) }) := rfl
    rw [List.forM, bind_of_ok hw, ih, List.foldl_cons]

theorem zeroCluster_eq (c : ℕ) (s : Fat32FileSystem) :
    zeroCluster c s = .ok ((), { s with disk := s.clearCluster s.disk c }) := by
  rw [zeroCluster, get_bind, forM_writeSector]
  rfl

/-- A cluster `AllocCluster` may take. -/
structure Free (s : Fat32FileSystem) (c : ℕ) : Prop where
  two_le : 2 ≤ c
  inCache : s.info.InCache c
  entry_eq : s.entry c = 0

/-- The state after `AllocCluster` has taken `c`. -/
def claim (s : Fat32FileSystem) (c : ℕ) : Fat32FileSystem :=
  { s.setEntry c endOfCluster with disk := s.clearCluster s.disk c }

theorem entry_claim : (s.claim c).entry d = if d = c then endOfCluster else s.entry d :=
  entry_setEntry (s := s) (c := c) (by norm_num [endOfCluster])

def Searched (s : Fat32FileSystem) (c : ℕ) (r : Kernel (ℕ × Fat32FileSystem)) : Prop :=
  (∃ f, c ≤ f ∧ s.Free f ∧ (∀ d, c ≤ d → d < f → s.entry d ≠ 0) ∧ r = .ok (f, s.claim f)) ∨
    ((∃ e, r = .error e) ∧ ∀ f, c ≤ f → ¬ s.Free f)

theorem allocFrom_searched (hg : s.info.FatGeometry) (hc : 2 ≤ c)
    (hn : s.info.clusterCount < c + n) : s.Searched c (allocFrom n c s) := by
  induction n generalizing c with
  | zero =>
    refine Or.inr ⟨⟨_, rfl⟩, fun f hf hfree => ?_⟩
    have := hfree.inCache.le_count
    omega
  | succ n ih =>
    have hrec : allocFrom (n + 1) c s = allocFrom n (c + 1) s → ¬ s.Free c →
        (s.info.InCache c → s.entry c ≠ 0) → s.Searched c (allocFrom (n + 1) c s) := by
      intro heq hfree hne
      rcases ih (c := c + 1) (by omega) (by omega) with ⟨f, hf, hff, hmin, he⟩ | ⟨he, hno⟩
      · refine Or.inl ⟨f, by omega, hff, fun d hd hdf => ?_, heq.trans he⟩
        rcases Nat.eq_or_lt_of_le hd with rfl | hd
        · exact hne (inCache_mono hff.inCache hdf.le)
        · exact hmin d hd hdf
      · refine Or.inr ⟨by rw [heq]; exact he, fun f hf hff => ?_⟩
        rcases Nat.eq_or_lt_of_le hf with rfl | hf
        · exact hfree hff
        · exact hno f hf hff
    by_cases hcount : c > s.info.clusterCount
    · refine hrec ?_ (fun hf => ?_) (fun hi => ?_)
      · have : getFatEntry c s = .ok (minusOne, s) := by
          simp only [getFatEntry, get_bind, if_pos hcount, pure_apply]
        rw [allocFrom, bind_of_ok this, if_neg (by decide)]
      · have := hf.inCache.le_count
        omega
      · have := hi.le_count
        omega
    · by_cases hsec : s.info.reserveSectors + c * 4 / 512 < 1024
      · have hi : s.info.InCache c := ⟨by omega, hsec⟩
        by_cases h0 : s.entry c = 0
        · refine Or.inl ⟨c, le_rfl, ⟨hc, hi, h0⟩, fun d hd hdc => by omega, ?_⟩
          have hi' : (s.setEntry c endOfCluster).info.InCache c := hi
          rw [allocFrom, bind_of_ok (getFatEntry_eq hg hi), if_pos h0,
            bind_of_ok (setFatEntry_eq hg hi), bind_of_ok (zeroCluster_eq c _)]
          rfl
        · refine hrec ?_ (fun hf => h0 hf.entry_eq) fun _ => h0
          rw [allocFrom, bind_of_ok (getFatEntry_eq hg hi), if_neg h0]
      · refine Or.inr ⟨⟨.panic "get fat entry", ?_⟩, fun f hf hff => ?_⟩
        · have : getFatEntry c s = .error (.panic "get fat entry") := by
            simp only [getFatEntry, get_bind, if_neg hcount, fatSector_eq hg (not_lt.mp hcount),
              if_neg hsec, throw_apply]
          rw [allocFrom, bind_of_error this]
        · have := hff.inCache.sector_lt
          omega

theorem allocCluster_cases (hg : s.info.FatGeometry) :
    (∃ f, s.Free f ∧ (∀ d, 2 ≤ d → d < f → s.entry d ≠ 0) ∧
      allocCluster s = .ok (f, s.claim f)) ∨
    ((∃ e, allocCluster s = .error e) ∧ ∀ f, ¬ s.Free f) := by
  rcases allocFrom_searched hg (c := 2) (n := s.info.clusterCount) le_rfl (by omega) with
    ⟨f, -, hf, hmin, he⟩ | ⟨⟨e, he⟩, hno⟩
  · exact Or.inl ⟨f, hf, hmin, he⟩
  · exact Or.inr ⟨⟨e, he⟩, fun f hf => hno f hf.two_le hf⟩

/-- The files that start at the clusters `S` have the disjoint chains `ch`. -/
structure Chains (s : Fat32FileSystem) (S : Set ℕ) (ch : ℕ → List ℕ) : Prop where
  chain : ∀ a ∈ S, Chain s.entry endOfCluster a (ch a)
  start : ∀ a ∈ S, a ≠ endOfCluster
  two_le : ∀ a ∈ S, ∀ c ∈ ch a, 2 ≤ c
  inCache : ∀ a ∈ S, ∀ c ∈ ch a, s.info.InCache c
  disjoint : ∀ a ∈ S, ∀ b ∈ S, a ≠ b → List.Disjoint (ch a) (ch b)

variable {S : Set ℕ} {ch : ℕ → List ℕ} {a b f i : ℕ} {l ext : List ℕ}

namespace Chains

theorem start_mem (h : Chains s S ch) (ha : a ∈ S) : a ∈ ch a :=
  (h.chain a ha).head_mem (h.start a ha)

theorem entry_cases (h : Chains s S ch) (ha : a ∈ S) (hc : c ∈ ch a) :
    s.entry c = endOfCluster ∨ s.entry c ∈ ch a := by
  obtain ⟨i, hi, rfl⟩ := List.getElem_of_mem hc
  by_cases hn : i + 1 < (ch a).length
  · rw [(h.chain a ha).next_getElem hn]
    exact Or.inr (List.getElem_mem hn)
  · exact Or.inl ((h.chain a ha).next_last (by omega))

theorem entry_ne_zero (h : Chains s S ch) (ha : a ∈ S) (hc : c ∈ ch a) : s.entry c ≠ 0 := by
  rcases h.entry_cases ha hc with he | hm
  · rw [he]; decide
  · have := h.two_le a ha _ hm
    omega

theorem not_mem_of_free (h : Chains s S ch) (hf : s.Free f) (ha : a ∈ S) : f ∉ ch a :=
  fun hm => h.entry_ne_zero ha hm hf.entry_eq

theorem congr (h : Chains s S ch) (hi : s'.info = s.info)
    (he : ∀ a ∈ S, ∀ c ∈ ch a, s'.entry c = s.entry c) : Chains s' S ch where
  chain a ha := (h.chain a ha).congr (he a ha)
  start := h.start
  two_le := h.two_le
  inCache a ha c hc := by rw [hi]; exact h.inCache a ha c hc
  disjoint := h.disjoint

end Chains

def link (s : Fat32FileSystem) (b f : ℕ) : Fat32FileSystem := (s.claim f).setEntry b f

theorem entry_link (hf : s.Free f) : (s.link b f).entry d =
    if d = b then f else if d = f then endOfCluster else s.entry d := by
  have := inCache_lt hf.inCache
  rw [link, entry_setEntry (by omega), entry_claim]

namespace Chains

/-- Linking a free cluster behind the last one extends the chain. -/
theorem append (h : Chains s S ch) (ha : a ∈ S) (hl : ch a = l ++ [b]) (hf : s.Free f) :
    Chains (s.link b f) S (Function.update ch a (ch a ++ [f])) := by
  have hb : b ∈ ch a := by simp [hl]
  have hfa : ∀ x ∈ S, f ∉ ch x := fun x hx => h.not_mem_of_free hf hx
  have hbf : b ≠ f := fun he => hfa a ha (he ▸ hb)
  have hnd : (l ++ [b]).Nodup := hl ▸ (h.chain a ha).nodup
  have hbl : b ∉ l := fun hm => (List.nodup_append.mp hnd).2.2 b hm b (by simp) rfl
  have hother : ∀ d, d ≠ b → d ≠ f → (s.link b f).entry d = s.entry d := fun d h₁ h₂ => by
    rw [entry_link hf, if_neg h₁, if_neg h₂]
  have hmem : ∀ x, ∀ c ∈ Function.update ch a (ch a ++ [f]) x, c ∈ ch x ∨ c = f := by
    intro x c hc
    by_cases hx : x = a
    · subst hx
      simpa using hc
    · rw [Function.update_of_ne hx] at hc
      exact Or.inl hc
  refine ⟨fun x hx => ?_, h.start, fun x hx c hc => ?_, fun x hx c hc => ?_,
    fun x hx y hy hxy => ?_⟩
  · by_cases hxa : x = a
    · subst hxa
      rw [Function.update_self, hl, List.append_assoc]
      refine Chain.snoc (hl ▸ h.chain x ha) (inCache_ne_end hf.inCache) ?_ ?_ ?_
      · rw [entry_link hf, if_pos rfl]
      · rw [entry_link hf, if_neg hbf.symm, if_pos rfl]
      · exact fun d hd => hother d (fun he => hbl (he ▸ hd))
          (fun he => hfa x ha (by rw [hl, ← he]; simp [hd]))
    · rw [Function.update_of_ne hxa]
      refine (h.chain x hx).congr fun d hd => hother d (fun he => ?_) fun he => hfa x hx (he ▸ hd)
      exact h.disjoint x hx a ha hxa hd (he ▸ hb)
  · rcases hmem x c hc with hc | rfl
    · exact h.two_le x hx c hc
    · exact hf.two_le
  · rcases hmem x c hc with hc | rfl
    · exact h.inCache x hx c hc
    · exact hf.inCache
  · intro c hc hc'
    by_cases hxa : x = a
    · subst hxa
      rw [Function.update_of_ne (Ne.symm hxy)] at hc'
      rcases hmem x c hc with hc | rfl
      · exact h.disjoint x hx y hy hxy hc hc'
      · exact hfa y hy hc'
    · rw [Function.update_of_ne hxa] at hc
      rcases hmem y c hc' with hc' | rfl
      · exact h.disjoint x hx y hy hxy hc hc'
      · exact hfa x hx hc

end Chains

end Fat32FileSystem

end StartOS
