import Mathlib.Data.Finset.Card
import Mathlib.Data.Finset.Range
import StartOS.Fs.FatChain

/-! # Walking, extending and freeing chains

`bmap` starts at the cursor or at the first cluster, follows the links and
appends clusters where the chain ends; `FreeClusterChain` clears the entries of
a chain. Each is followed through its loop.
-/

namespace StartOS.Fat32FileSystem

open Linked Hoare

variable {s s' s'' : Fat32FileSystem} {S : Set ℕ} {ch : ℕ → List ℕ} {a b c d f i n cur : ℕ}
  {l ext : List ℕ}

def Room (s : Fat32FileSystem) (m : ℕ) : Prop :=
  ∃ l : List ℕ, l.Nodup ∧ m ≤ l.length ∧ ∀ c ∈ l, s.Free c

theorem Room.mono {m k : ℕ} (h : s.Room m) (hk : k ≤ m) : s.Room k := by
  obtain ⟨l, hn, hl, hf⟩ := h
  exact ⟨l, hn, hk.trans hl, hf⟩

theorem room_zero (s : Fat32FileSystem) : s.Room 0 := ⟨[], by simp, by simp, by simp⟩

theorem Room.exists_free {m : ℕ} (h : s.Room (m + 1)) : ∃ f, s.Free f := by
  obtain ⟨l, -, hl, hf⟩ := h
  cases l with
  | nil => simp at hl
  | cons c l => exact ⟨c, hf c (by simp)⟩

theorem Room.link {m : ℕ} (h : s.Room (m + 1)) (hf : s.Free f) (hb : s.entry b ≠ 0) :
    (s.link b f).Room m := by
  obtain ⟨l, hn, hl, hfree⟩ := h
  refine ⟨l.erase f, hn.erase f, ?_, fun c hc => ?_⟩
  · have := List.length_erase_of_mem (l := l) (a := f)
    by_cases hm : f ∈ l
    · rw [this hm]; omega
    · rw [List.erase_of_not_mem hm]; omega
  · have hc' := hfree c (List.mem_of_mem_erase hc)
    have hcf : c ≠ f := fun he => hn.not_mem_erase (he ▸ hc)
    have hcb : c ≠ b := fun he => hb (he ▸ hc'.entry_eq)
    exact ⟨hc'.two_le, hc'.inCache, by
      rw [entry_link hf, if_neg hcb, if_neg hcf]; exact hc'.entry_eq⟩

/-- `s'` is `s` with the free clusters `ext` appended to the chain of `a`. -/
structure Extended (s : Fat32FileSystem) (S : Set ℕ) (ch : ℕ → List ℕ) (a : ℕ) (ext : List ℕ)
    (s' : Fat32FileSystem) : Prop where
  chains : Chains s' S (Function.update ch a (ch a ++ ext))
  state : s' = { s with fatCache := s'.fatCache, disk := ext.foldl s.clearCluster s.disk }
  free : ∀ c ∈ ext, s.Free c
  entry : ∀ c, c ∉ ch a → c ∉ ext → s'.entry c = s.entry c

namespace Extended

theorem refl (h : Chains s S ch) (a : ℕ) : Extended s S ch a [] s where
  chains := by simpa using h
  state := rfl
  free := by simp
  entry _ _ _ := rfl

theorem cons (hb : b ∈ ch a) (hf : s.Free f)
    (h' : Extended (s.link b f) S (Function.update ch a (ch a ++ [f])) a ext s') :
    Extended s S ch a (f :: ext) s' where
  chains := by
    have := h'.chains
    rw [Function.update_idem, Function.update_self, List.append_assoc] at this
    exact this
  state := h'.state
  free c hc := by
    rcases List.mem_cons.mp hc with rfl | hc
    · exact hf
    · have hc' := h'.free c hc
      have h0 := hc'.entry_eq
      rw [entry_link hf] at h0
      split at h0
      · have := hf.two_le
        omega
      · split at h0
        · exact absurd h0 (by decide)
        · exact ⟨hc'.two_le, hc'.inCache, h0⟩
  entry c hc hc' := by
    have hcf : c ≠ f := fun he => hc' (he ▸ List.mem_cons_self)
    have hcb : c ≠ b := fun he => hc (he ▸ hb)
    rw [h'.entry c (by simpa using ⟨hc, hcf⟩) fun hm => hc' (List.mem_cons_of_mem _ hm),
      entry_link hf, if_neg hcb, if_neg hcf]

theorem info_eq (h : Extended s S ch a ext s') : s'.info = s.info := by rw [h.state]

theorem room_iff (h : Extended s S ch a ext s') (hc : Chains s S ch) (ha : a ∈ S) {m : ℕ} :
    s'.Room m ↔ s.Room (m + ext.length) := by
  have hself : Function.update ch a (ch a ++ ext) a = ch a ++ ext := Function.update_self ..
  constructor
  · rintro ⟨l, hn, hl, hfree⟩
    have hout : ∀ c ∈ l, c ∉ ch a ++ ext := fun c hc' =>
      hself ▸ h.chains.not_mem_of_free (hfree c hc') ha
    have hnd : (ch a ++ ext).Nodup := hself ▸ (h.chains.chain a ha).nodup
    refine ⟨l ++ ext, ?_, by rw [List.length_append]; omega, fun c hc' => ?_⟩
    · refine hn.append (List.nodup_append.mp hnd).2.1 fun c hc₁ hc₂ => hout c hc₁ ?_
      exact List.mem_append_right _ hc₂
    · rcases List.mem_append.mp hc' with hc' | hc'
      · have hcf := hfree c hc'
        have hnot := hout c hc'
        rw [List.mem_append, not_or] at hnot
        refine ⟨hcf.two_le, h.info_eq ▸ hcf.inCache, ?_⟩
        rw [← h.entry c hnot.1 hnot.2, hcf.entry_eq]
      · exact h.free c hc'
  · rintro ⟨l, hn, hl, hfree⟩
    refine ⟨(l.toFinset \ ext.toFinset).toList, Finset.nodup_toList _, ?_, fun c hc' => ?_⟩
    · have h₁ := Finset.le_card_sdiff ext.toFinset l.toFinset
      have h₂ := List.toFinset_card_le ext
      rw [List.toFinset_card_of_nodup hn] at h₁
      rw [Finset.length_toList]
      omega
    · simp only [Finset.mem_toList, Finset.mem_sdiff, List.mem_toFinset] at hc'
      have hcf := hfree c hc'.1
      refine ⟨hcf.two_le, by rw [h.info_eq]; exact hcf.inCache, ?_⟩
      rw [h.entry c (hc.not_mem_of_free hcf ha) hc'.2, hcf.entry_eq]

theorem inode?_eq (h : Extended s S ch a ext s') (r : InodeRef) : s'.inode? r = s.inode? r := by
  rw [h.state]
  cases r <;> rfl

end Extended

/-- Following `n` links from the `i`-th cluster of a chain arrives at the `i + n`-th one, with
clusters appended as needed; it stops only when there are not enough free clusters. -/
theorem bmapLoop_cases (hg : s.info.FatGeometry) (h : Chains s S ch) (ha : a ∈ S)
    (hi : (ch a)[i]? = some cur) :
    (∃ ext s' c, bmapLoop n cur s = .ok (c, s') ∧ Extended s S ch a ext s' ∧
      ext.length = i + n + 1 - (ch a).length ∧ (ch a ++ ext)[i + n]? = some c) ∨
    ((∃ e, bmapLoop n cur s = .error e) ∧ ¬ s.Room (i + n + 1 - (ch a).length)) := by
  induction n generalizing s ch i cur with
  | zero =>
    obtain ⟨hlt, -⟩ := List.getElem?_eq_some_iff.mp hi
    refine Or.inl ⟨[], s, cur, rfl, .refl h a, by simp; omega, ?_⟩
    simpa using hi
  | succ n ih =>
    obtain ⟨hlt, hcur⟩ := List.getElem?_eq_some_iff.mp hi
    have hmem : cur ∈ ch a := List.mem_of_getElem? hi
    have hne : cur ≠ endOfCluster := (h.chain a ha).ne_of_mem hmem
    have hic := h.inCache a ha cur hmem
    rw [bmapLoop, if_neg hne, bind_of_ok (getFatEntry_eq hg hic)]
    by_cases hn : i + 1 < (ch a).length
    · have hnext : s.entry cur = (ch a)[i + 1] := by rw [← hcur, (h.chain a ha).next_getElem hn]
      have hne' : s.entry cur ≠ endOfCluster := by
        rw [hnext]; exact (h.chain a ha).ne_of_mem (List.getElem_mem hn)
      rw [if_neg hne', show i + (n + 1) = i + 1 + n by omega]
      exact ih hg h (i := i + 1) (by rw [hnext]; exact List.getElem?_eq_getElem hn)
    · have hlast : i + 1 = (ch a).length := by omega
      have hend : s.entry cur = endOfCluster := by rw [← hcur, (h.chain a ha).next_last hlast]
      rw [if_pos hend]
      rcases allocCluster_cases hg with ⟨f, hf, -, he⟩ | ⟨⟨e, he⟩, hno⟩
      · have hl : ch a = (ch a).dropLast ++ [cur] := by
          have hne : ch a ≠ [] := List.ne_nil_of_mem hmem
          have := List.dropLast_append_getLast hne
          rw [List.getLast_eq_getElem] at this
          simp only [← hlast, Nat.add_sub_cancel, hcur] at this
          exact this.symm
        rw [bind_of_ok he, bind_of_ok (setFatEntry_eq (s := s.claim f) hg hic)]
        have hlink := h.append ha hl hf
        have hup : Function.update ch a (ch a ++ [f]) a = ch a ++ [f] := Function.update_self ..
        have hi' : (Function.update ch a (ch a ++ [f]) a)[i + 1]? = some f := by
          rw [hup, hlast]
          simp
        have hcount : i + 1 + n + 1 - (Function.update ch a (ch a ++ [f]) a).length + 1 =
            i + (n + 1) + 1 - (ch a).length := by
          rw [hup, List.length_append, List.length_singleton]
          omega
        rcases ih (s := s.link cur f) hg hlink hi' with
          ⟨ext, s', c, hok, hext, hlen, hres⟩ | ⟨herr, hroom⟩
        · refine Or.inl ⟨f :: ext, s', c, hok, .cons hmem hf hext, ?_, ?_⟩
          · rw [List.length_cons, hlen, hcount]
          · rw [hup, List.append_assoc, show i + 1 + n = i + (n + 1) by omega] at hres
            exact hres
        · refine Or.inr ⟨herr, fun hr => hroom ?_⟩
          rw [← hcount] at hr
          exact hr.link hf (by rw [hend]; decide)
      · refine Or.inr ⟨⟨e, bind_of_error he⟩, fun hr => ?_⟩
        rw [show i + (n + 1) + 1 - (ch a).length = n + 1 by omega] at hr
        obtain ⟨f, hf⟩ := hr.exists_free
        exact hno f hf

theorem inode_eq {r : InodeRef} {ip : Inode} (h : s.inode? r = some ip) :
    inode r s = .ok (ip, s) := by
  simp only [inode, get_bind, h, pure_apply]

theorem inode?_setInode (s : Fat32FileSystem) (r q : InodeRef) (ip : Inode) :
    (s.setInode r ip).inode? q = if q = r then some ip else s.inode? q := by
  cases r with
  | root =>
    cases q with
    | root => rfl
    | pos p => rfl
  | pos p =>
    cases q with
    | root => rfl
    | pos p' =>
      by_cases hp : p' = p
      · subst hp; simp [setInode, inode?]
      · simp [setInode, inode?, hp]

@[simp] theorem entry_setInode (s : Fat32FileSystem) (r : InodeRef) (ip : Inode) :
    (s.setInode r ip).entry = s.entry := by cases r <;> rfl

@[simp] theorem info_setInode (s : Fat32FileSystem) (r : InodeRef) (ip : Inode) :
    (s.setInode r ip).info = s.info := by cases r <;> rfl

theorem updateInodeWith_eq {r : InodeRef} {ip : Inode} {g : Inode → Inode}
    (h : s.inode? r = some ip) : updateInodeWith r g s = .ok ((), s.setInode r (g ip)) := by
  simp only [updateInodeWith, bind_of_ok (inode_eq h), modify_apply]

def startOf (s : Fat32FileSystem) (r : InodeRef) (ip : Inode) : ℕ :=
  if r = .root then s.info.rootDirectoryClusterStart else ip.iStart

theorem startOf_of_info {r : InodeRef} {ip : Inode} (h : s'.info = s.info) :
    s'.startOf r ip = s.startOf r ip := by
  rw [startOf, h]
  rfl

theorem Chains.length_le (h : Chains s S ch) (ha : a ∈ S) :
    (ch a).length ≤ s.info.clusterCount + 1 ∧ (ch a).length ≤ 131072 := by
  have hnd := (h.chain a ha).nodup
  have hle : ∀ m, (∀ c ∈ ch a, c < m) → (ch a).length ≤ m := by
    intro m hm
    have hsub : (ch a).toFinset ⊆ Finset.range m := fun c hc =>
      Finset.mem_range.mpr (hm c (List.mem_toFinset.mp hc))
    have := Finset.card_le_card hsub
    rwa [List.toFinset_card_of_nodup hnd, Finset.card_range] at this
  exact ⟨hle _ fun c hc => Nat.lt_succ_of_le (h.inCache a ha c hc).le_count,
    hle _ fun c hc => inCache_lt (h.inCache a ha c hc)⟩

/-- `bmap` finds the cluster that the plain walk from the first cluster finds, whether it
starts at the cursor or not. -/
theorem bmap_cases {r : InodeRef} {ip : Inode} (logi : ℕ) (hg : s.info.FatGeometry)
    (h : Chains s S ch) (hip : s.inode? r = some ip) (ha : s.startOf r ip ∈ S)
    (hcur : logi < ip.iLogi ∨ (ch (s.startOf r ip))[ip.iLogi]? = some ip.iClus) :
    (∃ ext s' c, Extended s S ch (s.startOf r ip) ext s' ∧
      ext.length = logi + 1 - (ch (s.startOf r ip)).length ∧
      (ch (s.startOf r ip) ++ ext)[logi]? = some c ∧
      bmap r logi s = .ok (c, s'.setInode r { ip with iLogi := logi, iClus := c })) ∨
    ((∃ e, bmap r logi s = .error e) ∧ ¬ s.Room (logi + 1 - (ch (s.startOf r ip)).length)) := by
  set a := s.startOf r ip with hadef
  obtain ⟨i, cur, hsel, hi, hle⟩ : ∃ i cur,
      (if logi ≥ ip.iLogi then (ip.iClus, signExtend ip.iLogi) else (a, 0)) = (cur, i) ∧
      (ch a)[i]? = some cur ∧ i ≤ logi := by
    by_cases hge : logi ≥ ip.iLogi
    · have hc := hcur.resolve_left (by omega)
      obtain ⟨hlt, -⟩ := List.getElem?_eq_some_iff.mp hc
      have hlen := (h.length_le ha).2
      refine ⟨ip.iLogi, ip.iClus, ?_, hc, hge⟩
      rw [if_pos hge, signExtend, if_pos (by omega)]
    · refine ⟨0, a, if_neg hge, ?_, Nat.zero_le _⟩
      have hpos : 0 < (ch a).length := List.length_pos_of_mem (h.start_mem ha)
      rw [List.getElem?_eq_getElem hpos, (h.chain a ha).getElem_zero hpos]
  have hstart : (if r = .root then s.info.rootDirectoryClusterStart else ip.iStart) = a := rfl
  have hrun : bmap r logi s = (do
      let cur ← bmapLoop (logi - i) cur
      if cur = endOfCluster then return minusOne
      updateInodeWith r fun ip => { ip with iLogi := logi, iClus := cur }
      return cur : FsM ℕ) s := by
    simp only [bmap, get_bind, bind_of_ok (inode_eq hip), hstart, hsel]
  have hsum : i + (logi - i) = logi := by omega
  rcases bmapLoop_cases (n := logi - i) hg h ha hi with
    ⟨ext, s', c, hok, hext, hlen, hres⟩ | ⟨⟨e, herr⟩, hroom⟩
  · rw [hsum] at hlen hres
    refine Or.inl ⟨ext, s', c, hext, hlen, hres, ?_⟩
    have hmem : c ∈ Function.update ch a (ch a ++ ext) a := by
      rw [Function.update_self]
      exact List.mem_of_getElem? hres
    have hne : c ≠ endOfCluster := (hext.chains.chain a ha).ne_of_mem hmem
    rw [hrun, bind_of_ok hok, if_neg hne,
      bind_of_ok (updateInodeWith_eq ((hext.inode?_eq r).trans hip)), pure_apply]
  · rw [hsum] at hroom
    refine Or.inr ⟨⟨e, ?_⟩, hroom⟩
    rw [hrun, bind_of_error herr]

theorem freeFrom_spec (hg : s.info.FatGeometry) (hc : Chain s.entry endOfCluster a l)
    (hi : ∀ c ∈ l, s.info.InCache c) (hn : l.length < n) :
    ∃ s', freeFrom n a s = .ok ((), s') ∧ s' = { s with fatCache := s'.fatCache } ∧
      ∀ c, s'.entry c = if c ∈ l then 0 else s.entry c := by
  induction l generalizing s a n with
  | nil =>
    obtain ⟨n, rfl⟩ : ∃ m, n = m + 1 := ⟨n - 1, by simp at hn; omega⟩
    have ha : a = endOfCluster := hc
    exact ⟨s, by rw [freeFrom, if_pos ha]; rfl, rfl, fun c => by simp⟩
  | cons d l ih =>
    obtain ⟨n, rfl⟩ : ∃ m, n = m + 1 := ⟨n - 1, by simp at hn; omega⟩
    have hnd := hc.nodup
    obtain ⟨rfl, hne, hp⟩ := hc
    rw [List.nodup_cons] at hnd
    have hia := hi a (by simp)
    have hset : ∀ c, (s.setEntry a 0).entry c = if c = a then 0 else s.entry c := fun c =>
      entry_setEntry (by norm_num)
    have hp' : Chain (s.setEntry a 0).entry endOfCluster (s.entry a) l := hp.congr fun c hc => by
      have hca : c ≠ a := fun he => hnd.1 (he ▸ hc)
      rw [hset, if_neg hca]
    obtain ⟨s', hok, hst, hent⟩ := ih (s := s.setEntry a 0) (n := n) hg hp'
      (fun c hc => hi c (List.mem_cons_of_mem _ hc)) (by simpa using hn)
    refine ⟨s', ?_, by rw [hst]; rfl, fun c => ?_⟩
    · rw [freeFrom, if_neg hne, bind_of_ok (getFatEntry_eq hg hia),
        bind_of_ok (setFatEntry_eq hg hia)]
      exact hok
    · rw [hent, hset]
      by_cases hca : c = a
      · subst hca; simp
      · simp [hca]

end StartOS.Fat32FileSystem
