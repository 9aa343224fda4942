import StartOS.Fs.DirLookup
import StartOS.Fs.FileRun

/-! # Writes into a directory at rest

A write of an entry goes through a buffer to the chain of the directory, and `UpdateInode` stores the
entry of the directory itself. Where that lies apart from the chain, the write sets the one entry and
leaves the others, the table and the other inodes as they are.
-/

namespace StartOS.Fat32FileSystem

open Linked Hoare BufferLayer

variable {s s' s'' : Fat32FileSystem} {r : InodeRef} {ip : Inode} {l K : List ℕ}
  {E E' : List ByteMem} {T T' : ℕ → ℕ} {data : ByteMem} {k : ℕ}

/-- The entry of the directory itself is where its inode says. It lies apart from the chain and below byte
`2 ^ 31`. -/
structure OwnEntry (info : Fat32Info) (r : InodeRef) (l : List ℕ) (ip : Inode) : Prop where
  pos : ∀ q, r = .pos q → q = ip.iPos
  sector : ip.iPos % 512 + 32 ≤ 512
  lt : ip.iPos / 512 * 512 + 512 < 2 ^ 31
  apart : ∀ c ∈ l, ∀ x, ip.iPos ≤ x → x < ip.iPos + 32 → ¬info.InCluster c x

def OwnApart (s : Fat32FileSystem) (r : InodeRef) (l : List ℕ) : Prop :=
  ∀ ip, s.inode? r = some ip → OwnEntry s.info r l ip

/-- What writes to the clusters `K`, those of the directory among them, leave as it is. The entries of the
directory are `E` after them and the table is `T`. -/
structure Rewritten (s : Fat32FileSystem) (r : InodeRef) (l K : List ℕ) (E : List ByteMem) (T : ℕ → ℕ)
    (s' : Fat32FileSystem) : Prop where
  rest : DirAtRest s' r l
  entries : s'.dirEntries l = E
  table : s'.entry = T
  info : s'.info = s.info
  junk : s'.junk = s.junk
  others : ∀ q, q ≠ r → s'.inode? q = s.inode? q
  self : ∃ ip k c, s.inode? r = some ip ∧ s'.inode? r = some { ip with iLogi := k, iClus := c }
  disk : ∀ y, (∀ c ∈ K, ¬s.info.InCluster c y) →
    (∀ ip, s.inode? r = some ip → y < ip.iPos ∨ ip.iPos + 32 ≤ y) → s'.disk y = s.disk y

theorem entry_of_fatCache (h : s'.fatCache = s.fatCache) : s'.entry = s.entry := by
  funext c
  rw [entry, entry, h]

theorem Stays.rewritten (h : DirAtRest s r l) (hs : Stays s r l s') :
    Rewritten s r l K (s.dirEntries l) s.entry s' := by
  obtain ⟨ip, hon, -⟩ := h.node
  obtain ⟨k, c, hk⟩ := hs.self ip hon.node
  exact ⟨hs.rest, hs.dirEntries, entry_of_fatCache hs.fatCache, hs.info, hs.junk, hs.others,
    ⟨ip, k, c, hon.node, hk⟩, fun _ _ _ => by rw [hs.disk]⟩

theorem Rewritten.trans (h : Rewritten s r l K E T s') (h' : Rewritten s' r l K E' T' s'') :
    Rewritten s r l K E' T' s'' where
  rest := h'.rest
  entries := h'.entries
  table := h'.table
  info := h'.info.trans h.info
  junk := h'.junk.trans h.junk
  others q hq := (h'.others q hq).trans (h.others q hq)
  self := by
    obtain ⟨ip, k, c, hip, hip'⟩ := h.self
    obtain ⟨iq, k', c', hiq, hiq'⟩ := h'.self
    rw [hip', Option.some.injEq] at hiq
    subst hiq
    exact ⟨ip, k', c', hip, hiq'⟩
  disk y hy hown := by
    obtain ⟨ip, k, c, hip, hip'⟩ := h.self
    rw [h'.disk y (by rwa [h.info]) ?_, h.disk y hy hown]
    intro iq hiq
    rw [hip', Option.some.injEq] at hiq
    subst hiq
    exact hown ip hip

theorem Rewritten.mono {K' : List ℕ} (h : Rewritten s r l K E T s') (hK : K ⊆ K') :
    Rewritten s r l K' E T s' :=
  { h with disk := fun y hy => h.disk y fun c hc => hy c (hK hc) }

theorem OwnApart.rewritten (ha : OwnApart s r l) (h : Rewritten s r l K E T s') :
    OwnApart s' r l := by
  obtain ⟨ip, k, c, hip, hip'⟩ := h.self
  intro iq hiq
  rw [hip', Option.some.injEq] at hiq
  subst hiq
  rw [h.info]
  exact { ha ip hip with }

def entryBytes (data : ByteMem) : ByteMem := fun x => if x < 32 then data x else 0

theorem dirEntries_set (hk : k < 128 * l.length) (hb : ∀ x < 4096 * l.length, fileByte s' l x =
    if 32 * k ≤ x ∧ x < 32 * k + 32 then data (x - 32 * k) else fileByte s l x) :
    s'.dirEntries l = (s.dirEntries l).set k (entryBytes data) := by
  refine List.ext_getElem? fun m => ?_
  rw [List.getElem?_set, length_dirEntries, if_pos hk]
  by_cases hm : m < 128 * l.length
  · rw [dirEntries_getElem? hm, dirEntries_getElem? hm]
    split
    · rename_i hkm
      subst hkm
      refine congrArg some (funext fun x => ?_)
      rw [entryBytes]
      split
      · rw [hb _ (by omega), if_pos (by omega), Nat.add_sub_cancel_left]
      · rfl
    · refine congrArg some (funext fun x => ?_)
      split
      · rw [hb _ (by omega), if_neg (by omega)]
      · rfl
  · have hle := not_lt.mp hm
    rw [List.getElem?_eq_none (by rwa [length_dirEntries]), if_neg (by omega),
      List.getElem?_eq_none (by rwa [length_dirEntries])]

theorem OnChain.nodup (h : s.OnChain r ip l) : l.Nodup := (h.chains.chain _ rfl).nodup

theorem DirAtRest.stores (h : DirAtRest s r l) (hk : k < 128 * l.length) (data : ByteMem) :
    ∃ s', writeLoop r (fun x => some (data x)) 32 33 0 (32 * k) s = .ok ((32, 32 * k + 32), s') ∧
      Rewritten s r l l ((s.dirEntries l).set k (entryBytes data)) s.entry s' := by
  obtain ⟨ip, hon, hsz⟩ := h.node
  have hlen := hon.length_le
  have hj : 32 * k / 4096 < l.length := by omega
  set c := l[32 * k / 4096] with hc
  have hcl : c ∈ l := List.getElem_mem hj
  have hcr := h.range c hcl
  obtain ⟨s₁, hbmap, hstay, -⟩ := h.mapped hj
  have hr₁ := hstay.rest
  obtain ⟨i, b, hread, hload, hrel⟩ := bufRead_spec hr₁.idle hr₁.matches' (hr₁.range c hcl)
  have hold := hr₁.loaded hcl hload
  set D := (b.bufCache i).data.blit (32 * k % 4096) 32 data with hD
  obtain ⟨hwrite, hstep, hidle⟩ := hrel D s₁.disk
  rw [← hc] at hbmap
  have hbmap' : bmap r (32 * k / 4096 % 2 ^ 32) s = .ok (c, s₁) := by
    rw [Nat.mod_eq_of_lt (by omega)]
    exact hbmap
  have hloop := @writeLoop_turn s s₁ _ r c i 32 (32 * k) 0 32 (fun x => some (data x))
    h.geometry.bytesPerCluster (by norm_num) hbmap' hread fun _ _ => rfl
  simp only [show min (32 - 0) (4096 - 32 * k % 4096) = 32 by omega, Nat.zero_add, Option.getD_some]
    at hloop
  set t : Fat32FileSystem := { s₁ with
    disk := s₁.disk.blit (s.info.clusterAddr c) 4096 D
    buffers := (b.setBuf i { b.bufCache i with data := D }).freeBuffer i } with ht
  have hrelease : ({ s₁ with buffers := b } : Fat32FileSystem).release i D = t := by
    rw [release, ht]
    simp only [hwrite, hstay.info]
  have hdisk : ∀ d ∈ l, ∀ x < 4096, t.disk (s.info.clusterAddr d + x) =
      if d = c then D x else s.disk (s.info.clusterAddr d + x) := by
    intro d hd x hx
    split
    · rename_i hdc
      have hin : t.disk (s.info.clusterAddr c + x) =
          D (s.info.clusterAddr c + x - s.info.clusterAddr c) :=
        ByteMem.blit_of_mem (Nat.le_add_right ..) (Nat.add_lt_add_left hx _)
      rw [hdc, hin, Nat.add_sub_cancel_left]
    · rename_i hdc
      have hout : ¬s.info.InCluster c (s.info.clusterAddr d + x) := fun hin =>
        hdc (Fat32Info.InCluster.eq ⟨by omega, by omega⟩ hin (h.range d hd).two_le hcr.two_le)
      rw [Fat32Info.InCluster] at hout
      rw [← hstay.disk]
      exact ByteMem.blit_of_not_mem (by omega)
  have hnode : ∀ q, t.inode? q = s₁.inode? q := fun q => by cases q <;> rfl
  refine ⟨t, ?_, ⟨?_, ?_, entry_of_fatCache hstay.fatCache, hstay.info, hstay.junk,
    fun q hq => (hnode q).trans (hstay.others q hq), ?_, fun y hy _ => ?_⟩⟩
  · rw [hloop, hrelease, writeLoop, if_neg (lt_irrefl 32)]
    rfl
  · obtain ⟨iq, hon', hsz'⟩ := hr₁.node
    refine ⟨hr₁.geometry, hr₁.range, hidle, ⟨hstep.firstDataSector.trans hr₁.matches'.firstDataSector,
      hstep.sectorsPerCluster.trans hr₁.matches'.sectorsPerCluster⟩,
      ⟨iq, hon'.congr rfl (hnode r) fun _ _ => rfl, hsz'⟩, fun d hd m hm x hx => ?_⟩
    rw [show t.info = s.info from hstay.info, hdisk d hd x hx]
    rcases hstep.holds m d hm with ⟨rfl, hdata⟩ | ⟨hne, hold', hdata⟩
    · rw [if_pos rfl]
      exact congrFun hdata x
    · rw [if_neg hne, ← hstay.disk, ← hstay.info]
      exact (congrFun hdata x).trans (hr₁.coherent d hd m hold' x hx)
  · refine dirEntries_set hk fun x hx => ?_
    have hxl : x / 4096 < l.length := by omega
    rw [fileByte, fileByte, show t.info = s.info from hstay.info, List.getD_eq_getElem _ _ hxl,
      hdisk _ (List.getElem_mem hxl) _ (Nat.mod_lt _ (by norm_num))]
    by_cases hjx : x / 4096 = 32 * k / 4096
    · simp only [hjx, ← hc, if_true, hD]
      by_cases hin : 32 * k ≤ x ∧ x < 32 * k + 32
      · rw [if_pos hin, ByteMem.blit_of_mem (by omega) (by omega)]
        exact congrArg data (by omega)
      · rw [if_neg hin, ByteMem.blit_of_not_mem (by omega), hold _ (Nat.mod_lt _ (by norm_num)),
          hstay.info,
          hstay.disk]
    · have hne : l[x / 4096] ≠ c := fun he => hjx ((hon.nodup.getElem_inj_iff).mp he)
      rw [if_neg hne, if_neg (by omega)]
  · obtain ⟨k', c', hself⟩ := hstay.self ip hon.node
    exact ⟨ip, k', c', hon.node, (hnode r).trans hself⟩
  · have hout : y < s.info.clusterAddr c ∨ s.info.clusterAddr c + 4096 ≤ y := by
      have hnot := hy c hcl
      rw [Fat32Info.InCluster] at hnot
      omega
    calc t.disk y = s₁.disk y := ByteMem.blit_of_not_mem hout
      _ = s.disk y := by rw [hstay.disk]

/-- A change beside the clusters of the directory, its inode and its entries of the table. -/
theorem DirAtRest.beside (h : DirAtRest s r l) (hi : s'.info = s.info) (hb : s'.buffers = s.buffers)
    (hj : s'.junk = s.junk) (hn : ∀ q, s'.inode? q = s.inode? q) (ht : s'.entry = T)
    (he : ∀ c ∈ l, T c = s.entry c)
    (hd : ∀ c ∈ l, ∀ x < 4096, s'.disk (s.info.clusterAddr c + x) = s.disk (s.info.clusterAddr c + x))
    (hK : ∀ y, (∀ c ∈ K, ¬s.info.InCluster c y) →
      (∀ ip, s.inode? r = some ip → y < ip.iPos ∨ ip.iPos + 32 ≤ y) → s'.disk y = s.disk y) :
    Rewritten s r l K (s.dirEntries l) T s' := by
  obtain ⟨ip, hon, hsz⟩ := h.node
  have hon' : s'.OnChain r ip l := hon.congr hi (hn r) (ht ▸ he)
  refine ⟨⟨hi ▸ h.geometry, hi ▸ h.range, hb ▸ h.idle, ?_, ⟨ip, hon', hsz⟩,
      fun c hc i hh x hx => ?_⟩, ?_, ht,
    hi, hj, fun q _ => hn q, ⟨ip, ip.iLogi, ip.iClus, hon.node, hon'.node⟩, hK⟩
  · rw [hb, hi]
    exact h.matches'
  · rw [hb] at hh ⊢
    rw [hi, hd c hc x hx]
    exact h.coherent c hc i hh x hx
  · refine List.ext_getElem? fun m => ?_
    by_cases hm : m < 128 * l.length
    · rw [dirEntries_getElem? hm, dirEntries_getElem? hm]
      refine congrArg some (funext fun x => ?_)
      split
      · have hxl : (32 * m + x) / 4096 < l.length := by omega
        rw [fileByte, fileByte, hi, List.getD_eq_getElem _ _ hxl,
          hd _ (List.getElem_mem hxl) _ (Nat.mod_lt _ (by norm_num))]
      · rfl
    · have hle := not_lt.mp hm
      rw [List.getElem?_eq_none (by rwa [length_dirEntries]),
        List.getElem?_eq_none (by rwa [length_dirEntries])]

theorem DirAtRest.updates (h : DirAtRest s r l) (ha : OwnApart s r l) :
    ∃ s', updateInode r s = .ok ((), s') ∧ Rewritten s r l l (s.dirEntries l) s.entry s' := by
  obtain ⟨ip, hon, -⟩ := h.node
  have hown := ha ip hon.node
  refine ⟨{ s with
    stampNo := s.stampNo + 1
    disk := s.disk.blit ip.iPos 32 (inodeEntry ip (s.stamps s.stampNo)) },
    updateInode_eq h.geometry.toFatGeometry hon.node hown.sector hown.lt,
    h.beside rfl rfl rfl (fun q => by cases q <;> rfl) rfl (fun _ _ => rfl) (fun d hd x hx => ?_)
      fun y _ hy => ?_⟩
  · refine ByteMem.blit_of_not_mem ?_
    by_contra hin
    exact hown.apart d hd (s.info.clusterAddr d + x) (by omega) (by omega)
      ⟨Nat.le_add_right .., by omega⟩
  · have hout := hy ip hon.node
    exact ByteMem.blit_of_not_mem (by omega)

theorem DirAtRest.writes (h : DirAtRest s r l) (ha : OwnApart s r l) (hk : k < 128 * l.length)
    (data : ByteMem) : ∃ s', writeBytes r data (32 * k) 32 s = .ok (32, s') ∧
      Rewritten s r l l ((s.dirEntries l).set k (entryBytes data)) s.entry s' := by
  obtain ⟨ip, hon, hsz⟩ := h.node
  have hlen := hon.length_le
  obtain ⟨s₁, hloop, hs₁⟩ := h.stores hk data
  obtain ⟨s₂, hup, hs₂⟩ := hs₁.rest.updates (ha.rewritten hs₁)
  obtain ⟨iq, k', c', hiq, hiq'⟩ := hs₁.self
  rw [hon.node, Option.some.injEq] at hiq
  subst hiq
  have htrans := hs₁.trans hs₂
  rw [hs₁.entries, hs₁.table] at htrans
  refine ⟨s₂, ?_, htrans⟩
  have hmax : max ip.sz (32 * k + 32) = ip.sz := max_eq_left (by rw [hsz, minusOne]; omega)
  refine Sim.writeInode_tail hon.node (by rw [hsz, minusOne]; omega) (by omega) hloop hiq'
    (by omega) ?_
  dsimp only
  rw [hmax, setInode_self hiq']
  exact hup

end StartOS.Fat32FileSystem
