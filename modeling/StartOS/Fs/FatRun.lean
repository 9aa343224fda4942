import Mathlib.Logic.Relation
import StartOS.Fs.FatBmap

/-! # Runs over the allocation table

Any sequence of `bmap` on open inodes, `AllocCluster` for new files and
`FreeClusterChain` of files without an inode keeps the chains disjoint and every
cursor on its chain.
-/

namespace StartOS.Fat32FileSystem

open Linked Hoare

/-- The files start at `S` and have the chains `ch`; the open inodes `R` belong to different
files and each cursor is on its chain. -/
structure TableInv (s : Fat32FileSystem) (S : Set ℕ) (ch : ℕ → List ℕ) (R : Set InodeRef) :
    Prop where
  geometry : s.info.FatGeometry
  chains : Chains s S ch
  cursor : ∀ r ∈ R, ∃ ip, s.inode? r = some ip ∧ s.startOf r ip ∈ S ∧
    (ch (s.startOf r ip))[ip.iLogi]? = some ip.iClus
  distinct : ∀ r ∈ R, ∀ q ∈ R, ∀ ip iq, s.inode? r = some ip → s.inode? q = some iq →
    s.startOf r ip = s.startOf q iq → r = q

inductive TableStep (R : Set InodeRef) :
    Fat32FileSystem × Set ℕ → Fat32FileSystem × Set ℕ → Prop
  | bmap {s s' : Fat32FileSystem} {S : Set ℕ} {r : InodeRef} {k c : ℕ} : r ∈ R →
      bmap r k s = .ok (c, s') → TableStep R (s, S) (s', S)
  | alloc {s s' : Fat32FileSystem} {S : Set ℕ} {c : ℕ} :
      allocCluster s = .ok (c, s') → TableStep R (s, S) (s', insert c S)
  | free {s s' : Fat32FileSystem} {S : Set ℕ} {a : ℕ} : a ∈ S →
      (∀ r ∈ R, ∀ ip, s.inode? r = some ip → s.startOf r ip ≠ a) →
      freeClusterChain a s = .ok ((), s') → TableStep R (s, S) (s', S \ {a})

namespace TableInv

variable {s s' : Fat32FileSystem} {S : Set ℕ} {ch : ℕ → List ℕ} {R : Set InodeRef}
  {r : InodeRef} {ip : Inode} {a k c : ℕ}

theorem cursor_of (h : TableInv s S ch R) (hr : r ∈ R) (hip : s.inode? r = some ip) :
    s.startOf r ip ∈ S ∧ (ch (s.startOf r ip))[ip.iLogi]? = some ip.iClus := by
  obtain ⟨ip', hip', h'⟩ := h.cursor r hr
  rw [hip] at hip'
  cases hip'
  exact h'

/-- The invariant only looks at the entries of the chains and at the inodes. -/
theorem of_state (h : TableInv s S ch R) {S' : Set ℕ} {ch' : ℕ → List ℕ}
    (hc : Chains s' S' ch') (hi : s'.info = s.info) (hn : ∀ r, s'.inode? r = s.inode? r)
    (hs : ∀ r ∈ R, ∀ ip, s.inode? r = some ip →
      s.startOf r ip ∈ S' ∧ ch (s.startOf r ip) <+: ch' (s.startOf r ip)) :
    TableInv s' S' ch' R := by
  have hst : ∀ r ip, s'.startOf r ip = s.startOf r ip := fun r ip => by rw [startOf, hi]; rfl
  refine ⟨hi ▸ h.geometry, hc, fun r hr => ?_, fun r hr q hq ip iq hip hiq he => ?_⟩
  · obtain ⟨ip, hip, -, hcur⟩ := h.cursor r hr
    obtain ⟨hS, t, ht⟩ := hs r hr ip hip
    refine ⟨ip, (hn r).trans hip, by rw [hst]; exact hS, ?_⟩
    obtain ⟨hlt, -⟩ := List.getElem?_eq_some_iff.mp hcur
    rw [hst, ← ht, List.getElem?_append_left hlt]
    exact hcur
  · rw [hn] at hip hiq
    rw [hst, hst] at he
    exact h.distinct r hr q hq ip iq hip hiq he

/-- An inode may change in all but its first cluster, with the cursor on the chain. -/
theorem setInode (h : TableInv s S ch R) {ip' : Inode} (hr : r ∈ R) (hip : s.inode? r = some ip)
    (hst : s.startOf r ip' = s.startOf r ip)
    (hcur : (ch (s.startOf r ip))[ip'.iLogi]? = some ip'.iClus) :
    TableInv (s.setInode r ip') S ch R := by
  have hstart : ∀ q iq, (s.setInode r ip').startOf q iq = s.startOf q iq := fun q iq => by
    rw [startOf, info_setInode]; rfl
  have hnode : ∀ q iq, (s.setInode r ip').inode? q = some iq →
      ∃ jq, s.inode? q = some jq ∧ s.startOf q iq = s.startOf q jq := by
    intro q iq hq
    rw [inode?_setInode] at hq
    split at hq
    · rename_i he
      cases hq
      subst he
      exact ⟨ip, hip, hst⟩
    · exact ⟨iq, hq, rfl⟩
  refine ⟨by rw [info_setInode]; exact h.geometry, h.chains.congr (info_setInode ..) (by simp),
    fun q hq => ?_, fun q hq q' hq' iq iq' hiq hiq' he => ?_⟩
  · by_cases hqr : q = r
    · subst hqr
      refine ⟨ip', by rw [inode?_setInode, if_pos rfl], ?_, ?_⟩
      · rw [hstart, hst]; exact (h.cursor_of hr hip).1
      · rw [hstart, hst]; exact hcur
    · obtain ⟨iq, hiq, hqS, hqc⟩ := h.cursor q hq
      exact ⟨iq, by rw [inode?_setInode, if_neg hqr]; exact hiq, by rw [hstart]; exact hqS,
        by rw [hstart]; exact hqc⟩
  · obtain ⟨jq, hjq, h₁⟩ := hnode q iq hiq
    obtain ⟨jq', hjq', h₂⟩ := hnode q' iq' hiq'
    rw [hstart, hstart, h₁, h₂] at he
    exact h.distinct q hq q' hq' jq jq' hjq hjq' he

/-- A chain has been extended and the cursor of its inode moved to cluster `k`. -/
theorem extend (h : TableInv s S ch R) {ext : List ℕ} (hr : r ∈ R) (hip : s.inode? r = some ip)
    (hext : Extended s S ch (s.startOf r ip) ext s')
    (hk : (ch (s.startOf r ip) ++ ext)[k]? = some c) :
    TableInv (s'.setInode r { ip with iLogi := k, iClus := c }) S
      (Function.update ch (s.startOf r ip) (ch (s.startOf r ip) ++ ext)) R := by
  set a := s.startOf r ip with ha
  have hst : ∀ q iq, s'.startOf q iq = s.startOf q iq := fun q iq => by
    rw [startOf, hext.info_eq]; rfl
  have h' : TableInv s' S (Function.update ch a (ch a ++ ext)) R := by
    refine h.of_state hext.chains hext.info_eq hext.inode?_eq fun q hq iq hiq => ?_
    refine ⟨(h.cursor_of hq hiq).1, ?_⟩
    by_cases he : s.startOf q iq = a
    · rw [he, Function.update_self]
      exact List.prefix_append ..
    · rw [Function.update_of_ne he]
  refine h'.setInode hr ((hext.inode?_eq r).trans hip) ?_ ?_
  · rw [hst, hst]
    rfl
  · rw [hst, ← ha, Function.update_self]
    exact hk

theorem bmap_inv (h : TableInv s S ch R) (hr : r ∈ R) (hip : s.inode? r = some ip) :
    (∃ ext c s', bmap r k s = .ok (c, s') ∧ (∀ d ∈ ext, s.Free d) ∧
      ext.length = k + 1 - (ch (s.startOf r ip)).length ∧
      (ch (s.startOf r ip) ++ ext)[k]? = some c ∧
      TableInv s' S (Function.update ch (s.startOf r ip) (ch (s.startOf r ip) ++ ext)) R) ∨
    ((∃ e, bmap r k s = .error e) ∧ ¬ s.Room (k + 1 - (ch (s.startOf r ip)).length)) := by
  obtain ⟨hS, hcur⟩ := h.cursor_of hr hip
  rcases bmap_cases k h.geometry h.chains hip hS (Or.inr hcur) with
    ⟨ext, s₁, c, hext, hlen, hres, hok⟩ | herr
  · exact Or.inl ⟨ext, c, _, hok, hext.free, hlen, hres, h.extend hr hip hext hres⟩
  · exact Or.inr herr

theorem alloc_inv (h : TableInv s S ch R) :
    (∃ c, allocCluster s = .ok (c, s.claim c) ∧ s.Free c ∧ (∀ a ∈ S, c ∉ ch a) ∧
      TableInv (s.claim c) (insert c S) (Function.update ch c [c]) R) ∨
    ((∃ e, allocCluster s = .error e) ∧ ∀ f, ¬ s.Free f) := by
  rcases allocCluster_cases h.geometry with ⟨f, hf, -, hok⟩ | herr
  · have hfa : ∀ a ∈ S, f ∉ ch a := fun a ha => h.chains.not_mem_of_free hf ha
    have hfS : f ∉ S := fun hm => hfa f hm (h.chains.start_mem hm)
    have hne : ∀ a ∈ S, a ≠ f := fun a ha he => hfS (he ▸ ha)
    refine Or.inl ⟨f, hok, hf, hfa, h.of_state ?_ rfl (fun r => by cases r <;> rfl) ?_⟩
    · have hold : Chains (s.claim f) S ch := h.chains.congr rfl fun a ha c hc => by
        have hcf : c ≠ f := fun he => hfa a ha (he ▸ hc)
        rw [entry_claim, if_neg hcf]
      have hnew : Function.update ch f [f] f = [f] := Function.update_self ..
      refine ⟨?_, ?_, ?_, ?_, ?_⟩
      · rintro a (rfl | ha)
        · rw [hnew]
          refine ⟨rfl, inCache_ne_end hf.inCache, ?_⟩
          exact (entry_claim (s := s)).trans (if_pos rfl)
        · rw [Function.update_of_ne (hne a ha)]
          exact hold.chain a ha
      · rintro a (rfl | ha)
        · exact inCache_ne_end hf.inCache
        · exact hold.start a ha
      · rintro a (rfl | ha) c hc
        · rw [hnew, List.mem_singleton] at hc
          exact hc ▸ hf.two_le
        · rw [Function.update_of_ne (hne a ha)] at hc
          exact hold.two_le a ha c hc
      · rintro a (rfl | ha) c hc
        · rw [hnew, List.mem_singleton] at hc
          exact hc ▸ hf.inCache
        · rw [Function.update_of_ne (hne a ha)] at hc
          exact hold.inCache a ha c hc
      · rintro a (rfl | ha) b (rfl | hb) hab
        · exact absurd rfl hab
        · rw [hnew, Function.update_of_ne (hne b hb)]
          simpa using hfa b hb
        · rw [hnew, Function.update_of_ne (hne a ha)]
          simpa using hfa a ha
        · rw [Function.update_of_ne (hne a ha), Function.update_of_ne (hne b hb)]
          exact hold.disjoint a ha b hb hab
    · intro r hr ip hip
      obtain ⟨hS, -⟩ := h.cursor_of hr hip
      exact ⟨Or.inr hS, by rw [Function.update_of_ne (hne _ hS)]⟩
  · exact Or.inr herr

theorem free_inv (h : TableInv s S ch R) (ha : a ∈ S)
    (hR : ∀ r ∈ R, ∀ ip, s.inode? r = some ip → s.startOf r ip ≠ a) :
    ∃ s', freeClusterChain a s = .ok ((), s') ∧
      (∀ c, s'.entry c = if c ∈ ch a then 0 else s.entry c) ∧ TableInv s' (S \ {a}) ch R := by
  have hlen := (h.chains.length_le ha).1
  obtain ⟨s', hok, hst, hent⟩ := freeFrom_spec (n := 2 * s.info.clusterCount + 4) h.geometry
    (h.chains.chain a ha) (h.chains.inCache a ha) (by omega)
  refine ⟨s', ?_, hent, h.of_state ?_ (by rw [hst]) (fun r => by rw [hst]; cases r <;> rfl) ?_⟩
  · rw [freeClusterChain, get_bind]
    exact hok
  · have hkeep : ∀ b ∈ S \ {a}, ∀ c ∈ ch b, s'.entry c = s.entry c := by
      rintro b ⟨hb, hne⟩ c hc
      rw [hent, if_neg fun hm => h.chains.disjoint b hb a ha hne hc hm]
    have hsub : Chains s (S \ {a}) ch := ⟨fun b hb => h.chains.chain b hb.1,
      fun b hb => h.chains.start b hb.1, fun b hb => h.chains.two_le b hb.1,
      fun b hb => h.chains.inCache b hb.1, fun b hb c hc => h.chains.disjoint b hb.1 c hc.1⟩
    exact hsub.congr (by rw [hst]) hkeep
  · intro r hr ip hip
    obtain ⟨hS, -⟩ := h.cursor_of hr hip
    exact ⟨⟨hS, hR r hr ip hip⟩, List.prefix_rfl⟩

theorem step {S' : Set ℕ} (h : TableInv s S ch R) (hs : TableStep R (s, S) (s', S')) :
    ∃ ch', TableInv s' S' ch' R := by
  cases hs with
  | @bmap _ _ _ r k c hr hok =>
    obtain ⟨ip, hip, -⟩ := h.cursor r hr
    rcases h.bmap_inv (k := k) hr hip with ⟨ext, c', s'', hok', -, -, -, h'⟩ | ⟨⟨e, he⟩, -⟩
    · rw [hok] at hok'
      cases hok'
      exact ⟨_, h'⟩
    · rw [hok] at he
      cases he
  | alloc hok =>
    rcases h.alloc_inv with ⟨c', hok', -, -, h'⟩ | ⟨⟨e, he⟩, -⟩
    · rw [hok] at hok'
      cases hok'
      exact ⟨_, h'⟩
    · rw [hok] at he
      cases he
  | free ha hR hok =>
    obtain ⟨s'', hok', -, h'⟩ := h.free_inv ha hR
    rw [hok] at hok'
    cases hok'
    exact ⟨_, h'⟩

theorem run {S' : Set ℕ} (h : TableInv s S ch R)
    (hr : Relation.ReflTransGen (TableStep R) (s, S) (s', S')) : ∃ ch', TableInv s' S' ch' R := by
  generalize hx : (s', S') = x at hr
  induction hr generalizing s' S' with
  | refl =>
    cases hx
    exact ⟨ch, h⟩
  | @tail y z _ hs ih =>
    obtain ⟨ch', h'⟩ := ih rfl
    subst hx
    exact h'.step hs

end TableInv

/-- In every state of every run the chains are disjoint and the cursors are on them. `bmap`
gives the cluster of the plain walk and only appends free clusters to its own chain,
`AllocCluster` gives a cluster of no chain and `FreeClusterChain` clears exactly its chain;
each of them returns as long as there are enough free clusters. -/
theorem reachable_table {s₀ s : Fat32FileSystem} {S₀ S : Set ℕ} {ch₀ : ℕ → List ℕ}
    {R : Set InodeRef} (h₀ : TableInv s₀ S₀ ch₀ R)
    (hr : Relation.ReflTransGen (TableStep R) (s₀, S₀) (s, S)) :
    ∃ ch, TableInv s S ch R ∧
      (∀ r ∈ R, ∀ ip k, s.inode? r = some ip →
        s.Room (k + 1 - (ch (s.startOf r ip)).length) →
        ∃ ext c s', bmap r k s = .ok (c, s') ∧ (∀ d ∈ ext, s.Free d) ∧
          ext.length = k + 1 - (ch (s.startOf r ip)).length ∧
          (ch (s.startOf r ip) ++ ext)[k]? = some c ∧
          TableInv s' S (Function.update ch (s.startOf r ip) (ch (s.startOf r ip) ++ ext)) R) ∧
      (s.Room 1 → ∃ c s', allocCluster s = .ok (c, s') ∧ (∀ a ∈ S, c ∉ ch a) ∧
        TableInv s' (insert c S) (Function.update ch c [c]) R) ∧
      ∀ a ∈ S, (∀ r ∈ R, ∀ ip, s.inode? r = some ip → s.startOf r ip ≠ a) →
        ∃ s', freeClusterChain a s = .ok ((), s') ∧
          (∀ c, s'.entry c = if c ∈ ch a then 0 else s.entry c) ∧ TableInv s' (S \ {a}) ch R := by
  obtain ⟨ch, h⟩ := h₀.run hr
  refine ⟨ch, h, fun r hr ip k hip hroom => ?_, fun hroom => ?_, fun a ha hR => h.free_inv ha hR⟩
  · exact (h.bmap_inv hr hip).resolve_right fun hc => hc.2 hroom
  · rcases h.alloc_inv with ⟨c, hok, -, hc, h'⟩ | ⟨-, hno⟩
    · exact ⟨c, _, hok, hc, h'⟩
    · obtain ⟨f, hf⟩ := hroom.exists_free
      exact absurd hf (hno f)

def diskEntry (s : Fat32FileSystem) (c : ℕ) : ℕ :=
  s.disk.readLE (s.info.reserveSectors * 512 + 4 * c) 4

def freshInode (a pos sz : ℕ) : Inode :=
  ⟨a, 0, a, pos, sz, 0o100000, 1, .root, fun _ => 0x20⟩

def smallVolume : Fat32FileSystem where
  info := ⟨100, 100, 4096, 512, 8, 32, 4⟩
  dev := 0
  disk := fun _ => 0
  fatCache := ((ByteMem.writeLE (fun _ => 0) 8 4 3).writeLE 12 4 endOfCluster).writeLE 16 4
    endOfCluster
  buffers := ⟨fun _ => ⟨false, 0, 0, 0, false, 0, fun _ => 0⟩, 100, 8, id, 0⟩
  root := freshInode 4 59392 0xffffffff
  inodes := fun p => if p = 59392 then some (freshInode 2 59392 8192) else none
  stamps := fun _ => ⟨0, 0, 0, 0⟩
  stampNo := 0
  junk := fun _ => 0

theorem inCache_smallVolume {c : ℕ} (hc : c ≤ 100) : smallVolume.info.InCache c :=
  ⟨hc, by change 32 + c * 4 / 512 < 1024; omega⟩

theorem tableInv_smallVolume : TableInv smallVolume {2, 4}
    (fun a => if a = 2 then [2, 3] else [4]) {.pos 59392} := by
  refine ⟨⟨rfl, by decide, by decide⟩, ⟨?_, ?_, ?_, ?_, ?_⟩, ?_, ?_⟩
  · rintro a (rfl | rfl)
    · have h₃ : smallVolume.entry 3 = endOfCluster := by decide
      exact ⟨rfl, by decide, by decide, by decide, h₃⟩
    · have h₄ : smallVolume.entry 4 = endOfCluster := by decide
      exact ⟨rfl, by decide, h₄⟩
  · rintro a (rfl | rfl) <;> decide
  · rintro a (rfl | rfl) <;> simp
  · rintro a (rfl | rfl) c hc
    · exact inCache_smallVolume (by simp at hc; omega)
    · exact inCache_smallVolume (by simp at hc; omega)
  · rintro a (rfl | rfl) b (rfl | rfl) hab
    · exact absurd rfl hab
    · simp
    · simp
    · exact absurd rfl hab
  · rintro r rfl
    exact ⟨freshInode 2 59392 8192, rfl, Or.inl rfl, rfl⟩
  · rintro r rfl q rfl ip iq - - -
    rfl

theorem room_smallVolume : smallVolume.Room 1 := ⟨[5], by simp, by simp, fun c hc => by
  obtain rfl : c = 5 := by simpa using hc
  exact ⟨by decide, ⟨by decide, by decide⟩, by decide⟩⟩

theorem reachable_table_smallVolume : ∃ ext c s', bmap (.pos 59392) 2 smallVolume = .ok (c, s') ∧
    ext.length = 1 ∧ ([2, 3] ++ ext)[2]? = some c := by
  obtain ⟨ch, h, hb, -⟩ := reachable_table tableInv_smallVolume .refl
  have hch : ch 2 = [2, 3] := chain_unique (h.chains.chain 2 (Or.inl rfl))
    (tableInv_smallVolume.chains.chain 2 (Or.inl rfl))
  have hst : ch (smallVolume.startOf (.pos 59392) (freshInode 2 59392 8192)) = [2, 3] := hch
  have := hb (.pos 59392) rfl (freshInode 2 59392 8192) 2 rfl (by rw [hst]; exact room_smallVolume)
  rw [hst] at this
  obtain ⟨ext, c, s', hok, -, hlen, hres, -⟩ := this
  exact ⟨ext, c, s', hok, hlen, hres⟩

/-- The table of `wideVolume`: a file in clusters 2 and 200000, the root directory in 4. -/
def wideDisk : ByteMem :=
  ((ByteMem.writeLE (fun _ => 0) (32 * 512 + 8) 4 200000).writeLE (32 * 512 + 800000) 4
    endOfCluster).writeLE (32 * 512 + 16) 4 endOfCluster

def wideVolume : Fat32FileSystem where
  info := ⟨6400, 300000, 4096, 512, 8, 32, 4⟩
  dev := 0
  disk := wideDisk
  fatCache := fun x => wideDisk (32 * 512 + x)
  buffers := ⟨fun _ => ⟨false, 0, 0, 0, false, 0, fun _ => 0⟩, 6400, 8, id, 0⟩
  root := freshInode 4 3284992 0xffffffff
  inodes := fun p => if p = 3284992 then some (freshInode 2 3284992 8192) else none
  stamps := fun _ => ⟨0, 0, 0, 0⟩
  stampNo := 0
  junk := fun _ => 0

/-- On a volume whose table reaches behind sector 1024 `bmap` need not return, although the
chain is well formed and a cluster is free. -/
theorem bmap_wideVolume : ¬ ∀ (s : Fat32FileSystem) (r : InodeRef) (ip : Inode) (l : List ℕ) (k : ℕ),
    s.info.FatGeometry →
    (∀ x < (1024 - s.info.reserveSectors) * 512,
      s.fatCache x = s.disk (s.info.reserveSectors * 512 + x)) →
    s.inode? r = some ip → Chain s.diskEntry endOfCluster (s.startOf r ip) l →
    (∀ c ∈ l, 2 ≤ c ∧ c ≤ s.info.clusterCount) → l[ip.iLogi]? = some ip.iClus →
    (∃ f, 2 ≤ f ∧ s.info.InCache f ∧ s.diskEntry f = 0) → k = l.length →
    ∃ c s', bmap r k s = .ok (c, s') := by
  intro h
  have hcex : bmap (.pos 3284992) 2 wideVolume = .error (.panic "get fat entry") := by rfl
  have hlast : wideVolume.diskEntry 200000 = endOfCluster := by decide +kernel
  obtain ⟨c, s', hok⟩ := h wideVolume (.pos 3284992) (freshInode 2 3284992 8192) [2, 200000] 2
    ⟨rfl, by decide, by decide⟩ (fun _ _ => rfl) rfl
    ⟨rfl, by decide, by decide +kernel, by decide, hlast⟩ (by simp [wideVolume]) rfl
    ⟨3, by decide, ⟨by decide, by decide⟩, by decide +kernel⟩ rfl
  rw [hcex] at hok
  cases hok

end StartOS.Fat32FileSystem
