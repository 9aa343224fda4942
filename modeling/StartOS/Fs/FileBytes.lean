import StartOS.Fs.DataArea
import StartOS.Fs.FatRun

/-! # The bytes of a file

The bytes of a file are those of its clusters in order. One turn of the loop of
`WriteInode` or `ReadInode` maps one cluster, loads it into a buffer and copies.
-/

namespace StartOS.Fat32FileSystem

open Linked Hoare BufferLayer

variable {s s' s'' : Fat32FileSystem} {c x n : ℕ} {D D' : ByteMem}

/-- The bytes a buffer shows for a cluster: those it holds already, else those on the disk. -/
def Loaded (s : Fat32FileSystem) (c : ℕ) (D : ByteMem) : Prop :=
  (∃ i, s.buffers.Holds i c ∧ (s.buffers.bufCache i).data = D) ∨
    ((∀ i, ¬ s.buffers.Holds i c) ∧ ∀ x < 4096, D x = s.disk (s.info.clusterAddr c + x))

structure BufStep (l : BufferLayer) (c : ℕ) (D : ByteMem) (l' : BufferLayer) : Prop where
  distinct : l'.Distinct
  firstDataSector : l'.firstDataSector = l.firstDataSector
  sectorsPerCluster : l'.sectorsPerCluster = l.sectorsPerCluster
  holds : ∀ j d, l'.Holds j d → (d = c ∧ (l'.bufCache j).data = D) ∨
    (d ≠ c ∧ l.Holds j d ∧ (l'.bufCache j).data = (l.bufCache j).data)

theorem bufRead_eq {i : ℕ} {l : BufferLayer} (h : s.buffers.read s.disk s.dev c = .ok (i, l)) :
    bufRead c s = .ok (i, { s with buffers := l }) := by
  simp only [bufRead, get_bind, h]
  rfl

/-- After a `read` only the buffer it returned has changed, and it may be changed further in
all but its block. -/
theorem bufStep_of_read {disk : ByteMem} {i : ℕ} {l l' l'' : BufferLayer} (hl : l.Distinct)
    (hd : ReadDone l disk c i l') (hb : (l''.bufCache i).blockno = c)
    (hD : (l''.bufCache i).data = D) (hother : ∀ j, j ≠ i → l''.bufCache j = l'.bufCache j)
    (hf : l''.firstDataSector = l'.firstDataSector)
    (hs : l''.sectorsPerCluster = l'.sectorsPerCluster) : BufStep l c D l'' := by
  have hold : ∀ j, j ≠ i → l''.bufCache j = l.bufCache j := fun j hj =>
    (hother j hj).trans (hd.other j hj)
  refine ⟨fun j k hj hk he hne => ?_, hf.trans hd.firstDataSector, hs.trans hd.sectorsPerCluster,
    fun j d hh => ?_⟩
  · by_cases hji : j = i
    · by_cases hki : k = i
      · rw [hji, hki]
      · rw [hji, hb, hold k hki] at he
        exact absurd he.symm (hd.alone k hk hki)
    · by_cases hki : k = i
      · rw [hki, hb, hold j hji] at he
        exact absurd he (hd.alone j hj hji)
      · rw [hold j hji, hold k hki] at he
        rw [hold j hji] at hne
        exact hl j k hj hk he hne
  · by_cases hji : j = i
    · subst hji
      refine Or.inl ⟨?_, hD⟩
      have := hh.blockno
      rw [hb] at this
      omega
    · have hb := hh.blockno
      have hv := hh.valid
      rw [hold j hji] at hb hv ⊢
      refine Or.inr ⟨fun he => hd.alone j hh.lt hji (by rw [hb, he]), ⟨hh.lt, hv, hb⟩, rfl⟩

theorem freeBuffer_self (l : BufferLayer) (i : ℕ) (D : ByteMem) :
    ((l.setBuf i { l.bufCache i with data := D }).freeBuffer i).bufCache i = { l.bufCache i with
      data := D
      refcnt := ((l.bufCache i).refcnt + 2 ^ 32 - 1) % 2 ^ 32
      locked := false } := by
  rw [freeBuffer, setBuf_self, setBuf_self]

theorem freeBuffer_of_ne (l : BufferLayer) {i j : ℕ} (D : ByteMem) (h : j ≠ i) :
    ((l.setBuf i { l.bufCache i with data := D }).freeBuffer i).bufCache j = l.bufCache j := by
  rw [freeBuffer, setBuf_of_ne _ _ h, setBuf_of_ne _ _ h]

theorem bufStep_release {disk : ByteMem} {i : ℕ} {l l' : BufferLayer} (hl : l.Distinct)
    (hd : ReadDone l disk c i l') (D : ByteMem) :
    BufStep l c D ((l'.setBuf i { l'.bufCache i with data := D }).freeBuffer i) := by
  refine bufStep_of_read hl hd ?_ ?_ (fun j hj => freeBuffer_of_ne l' D hj) rfl rfl
  · rw [freeBuffer_self]
    exact hd.blockno
  · rw [freeBuffer_self]

theorem idle_release {disk : ByteMem} {i : ℕ} {l l' : BufferLayer} (hl : l.Idle)
    (hd : ReadDone l disk c i l') (hr : (l'.bufCache i).refcnt = 1) (D : ByteMem) :
    ((l'.setBuf i { l'.bufCache i with data := D }).freeBuffer i).Idle := by
  refine ⟨fun j hj => ?_, fun j hj => ?_, (bufStep_release hl.distinct hd D).distinct⟩
  · by_cases hji : j = i
    · rw [hji, freeBuffer_self, hr]
      exact (by norm_num : (1 + 2 ^ 32 - 1) % 2 ^ 32 = 0)
    · rw [freeBuffer_of_ne l' D hji, hd.other j hji, hl.refcnt j hj]
  · by_cases hji : j = i
    · rw [hji, freeBuffer_self]
    · rw [freeBuffer_of_ne l' D hji, hd.other j hji, hl.unlocked j hj]

/-- `buffer_layer.read` gives a buffer with the bytes of the cluster. Whatever bytes `D` are put
into it, it can be written to the place of the cluster and let go. -/
theorem bufRead_spec (hi : s.buffers.Idle) (hm : s.buffers.Matches s.info)
    (hc : s.info.InRange c) :
    ∃ i l, bufRead c s = .ok (i, { s with buffers := l }) ∧ Loaded s c (l.bufCache i).data ∧
      ∀ D disk, (l.setBuf i { l.bufCache i with data := D }).write disk i =
          disk.blit (s.info.clusterAddr c) 4096 D ∧
        BufStep s.buffers c D ((l.setBuf i { l.bufCache i with data := D }).freeBuffer i) ∧
        ((l.setBuf i { l.bufCache i with data := D }).freeBuffer i).Idle := by
  have hlt := hc.lt
  have h2 := hc.two_le
  have hc31 : c < 2 ^ 31 := by simp only [Fat32Info.clusterAddr] at hlt; omega
  have h512 : s.info.clusterAddr c % 512 = 0 := by simp only [Fat32Info.clusterAddr]; omega
  obtain ⟨i, l, hread, hd, hr⟩ := hi.read_spec s.disk s.dev (c := c) (by omega) hc31
  refine ⟨i, l, bufRead_eq hread, ?_, fun D disk =>
    ⟨?_, bufStep_release hi.distinct hd D, idle_release hi hd hr D⟩⟩
  · rcases hd.data with ⟨hh, he⟩ | ⟨hno, old, he⟩
    · exact Or.inl ⟨i, hh, he.symm⟩
    · refine Or.inr ⟨hno, fun x hx => ?_⟩
      rw [he, offsetOf_eq hm hc, rwDevRead_eq (n := bsize) hlt h512 rfl]
      exact if_pos hx
  · have hm' : (l.setBuf i { l.bufCache i with data := D }).Matches s.info :=
      ⟨hd.firstDataSector.trans hm.firstDataSector,
        hd.sectorsPerCluster.trans hm.sectorsPerCluster⟩
    have hb : ((l.bufCache i).blockno % 2 ^ 32).toNat = c := by rw [hd.blockno]; omega
    simp only [write, setBuf_self, hb]
    rw [offsetOf_eq hm' hc]
    exact rwDevWrite_eq (n := bsize) hlt h512 rfl

/-- The regular files with the inodes `R` on a volume whose files start at `S` and have the
chains `ch`. Buffers of clusters of other files, or of free clusters, may be stale. -/
structure FilesInv (s : Fat32FileSystem) (S : Set ℕ) (ch : ℕ → List ℕ) (R : Set InodeRef) :
    Prop where
  table : TableInv s S ch R
  geometry : s.info.Geometry
  range : ∀ c, 2 ≤ c → s.info.InCache c → s.info.InRange c
  idle : s.buffers.Idle
  matches' : s.buffers.Matches s.info
  coherent : ∀ r ∈ R, ∀ ip, s.inode? r = some ip → ∀ c ∈ ch (s.startOf r ip), ∀ i,
    s.buffers.Holds i c → ∀ x < 4096,
      (s.buffers.bufCache i).data x = s.disk (s.info.clusterAddr c + x)
  size : ∀ r ∈ R, ∀ ip, s.inode? r = some ip → ip.sz ≤ 4096 * (ch (s.startOf r ip)).length
  entry : ∀ r ∈ R, ∀ ip, s.inode? r = some ip → ip.iPos % 512 + 32 ≤ 512 ∧
    ∃ d ∈ S, (∀ q ∈ R, ∀ iq, s.inode? q = some iq → s.startOf q iq ≠ d) ∧
      ∃ c ∈ ch d, s.info.clusterAddr c ≤ ip.iPos ∧ ip.iPos + 32 ≤ s.info.clusterAddr c + 4096

/-- The state after buffer `i` has been given the bytes `D`, written to the disk and let go. -/
def release (s : Fat32FileSystem) (i : ℕ) (D : ByteMem) : Fat32FileSystem :=
  let l := s.buffers.setBuf i { s.buffers.bufCache i with data := D }
  { s with
    disk := l.write s.disk i
    buffers := l.freeBuffer i }

/-- One turn of a loop: the cursor of `r` is at logical cluster `k`, which is cluster `c`, and
the bytes of that cluster are `D`. -/
structure Turned (s : Fat32FileSystem) (S : Set ℕ) (ch : ℕ → List ℕ) (R : Set InodeRef)
    (r : InodeRef) (ip : Inode) (ext : List ℕ) (k c : ℕ) (D : ByteMem) (s' : Fat32FileSystem) :
    Prop where
  inv : FilesInv s' S (Function.update ch (s.startOf r ip) (ch (s.startOf r ip) ++ ext)) R
  info : s'.info = s.info
  node : ∀ q, s'.inode? q =
    if q = r then some { ip with iLogi := k, iClus := c } else s.inode? q
  disk_self : ∀ x < 4096, s'.disk (s.info.clusterAddr c + x) = D x
  disk_other : ∀ y, ¬ s.info.InCluster c y → s'.disk y = s.disk y
  room : ∀ m, s'.Room m ↔ s.Room (m + ext.length)

@[simp] theorem buffers_setInode (s : Fat32FileSystem) (r : InodeRef) (ip : Inode) :
    (s.setInode r ip).buffers = s.buffers := by cases r <;> rfl

@[simp] theorem disk_setInode (s : Fat32FileSystem) (r : InodeRef) (ip : Inode) :
    (s.setInode r ip).disk = s.disk := by cases r <;> rfl

theorem room_congr {m : ℕ} (hi : s'.info = s.info) (he : s'.entry = s.entry) :
    s'.Room m ↔ s.Room m := by
  have hfree : ∀ c, s'.Free c ↔ s.Free c := fun c =>
    ⟨fun h => ⟨h.two_le, hi ▸ h.inCache, he ▸ h.entry_eq⟩,
      fun h => ⟨h.two_le, hi ▸ h.inCache, he ▸ h.entry_eq⟩⟩
  simp only [Room, hfree]

section Turn

variable {S : Set ℕ} {ch : ℕ → List ℕ} {R : Set InodeRef} {r : InodeRef} {ip : Inode} {k : ℕ}

theorem FilesInv.inRange (h : FilesInv s S ch R) {a : ℕ} (ha : a ∈ S) (hc : c ∈ ch a) :
    s.info.InRange c :=
  h.range c (h.table.chains.two_le a ha c hc) (h.table.chains.inCache a ha c hc)

theorem prefix_update_append (ch : ℕ → List ℕ) (a : ℕ) (ext : List ℕ) (b : ℕ) :
    ch b <+: Function.update ch a (ch a ++ ext) b := by
  by_cases hb : b = a
  · rw [hb, Function.update_self]
    exact List.prefix_append ..
  · rw [Function.update_of_ne hb]

/-- A chain has got at most the cluster `c`, this one has gone through a buffer, and `t` is the state
after that. -/
structure Turning (s s' t : Fat32FileSystem) (S : Set ℕ) (ch : ℕ → List ℕ) (R : Set InodeRef)
    (r : InodeRef) (ip : Inode) (ext : List ℕ) (k c : ℕ) (D : ByteMem) (l : BufferLayer) : Prop where
  files : FilesInv s S ch R
  mem : r ∈ R
  inode : s.inode? r = some ip
  extended : Extended s S ch (s.startOf r ip) ext s'
  cluster : (ch (s.startOf r ip) ++ ext)[k]? = some c
  only : ∀ e ∈ ext, e = c
  step : BufStep s.buffers c D l
  idle : l.Idle
  eq : t = { s'.setInode r { ip with iLogi := k, iClus := c } with
    disk := s'.disk.blit (s.info.clusterAddr c) 4096 D
    buffers := l }

namespace Turning

variable {t : Fat32FileSystem} {ext : List ℕ} {l : BufferLayer}
  (h : Turning s s' t S ch R r ip ext k c D l)

include h

theorem start_mem : s.startOf r ip ∈ S := (h.files.table.cursor_of h.mem h.inode).1

theorem info : t.info = s.info := by
  rw [h.eq]
  exact (info_setInode ..).trans h.extended.info_eq

theorem startOf_eq (q : InodeRef) (iq : Inode) : t.startOf q iq = s.startOf q iq := by
  rw [startOf, h.info]
  rfl

theorem entry : t.entry = s'.entry := by
  rw [h.eq]
  exact entry_setInode s' r { ip with iLogi := k, iClus := c }

theorem node (q : InodeRef) : t.inode? q =
    if q = r then some { ip with iLogi := k, iClus := c } else s.inode? q := by
  have hset : t.inode? q = (s'.setInode r { ip with iLogi := k, iClus := c }).inode? q := by
    rw [h.eq]
    cases q <;> rfl
  rw [hset, inode?_setInode, h.extended.inode?_eq]

theorem node_before {q : InodeRef} {iq : Inode} (hq : t.inode? q = some iq) :
    ∃ jq, s.inode? q = some jq ∧ t.startOf q iq = s.startOf q jq ∧ iq.sz = jq.sz ∧
      iq.iPos = jq.iPos := by
  rw [h.startOf_eq]
  rw [h.node] at hq
  split at hq
  · rename_i he
    cases hq
    subst he
    exact ⟨ip, h.inode, rfl, rfl, rfl⟩
  · exact ⟨iq, hq, rfl, rfl, rfl⟩

theorem inRange : s.info.InRange c := by
  have hmem : c ∈ Function.update ch (s.startOf r ip) (ch (s.startOf r ip) ++ ext)
      (s.startOf r ip) := by
    rw [Function.update_self]
    exact List.mem_of_getElem? h.cluster
  refine h.files.range c (h.extended.chains.two_le _ h.start_mem c hmem) ?_
  rw [← h.extended.info_eq]
  exact h.extended.chains.inCache _ h.start_mem c hmem

theorem disk_other (y : ℕ) (hy : ¬ s.info.InCluster c y) : t.disk y = s.disk y := by
  have hy' : y < s.info.clusterAddr c ∨ s.info.clusterAddr c + 4096 ≤ y := by
    simp only [Fat32Info.InCluster] at hy
    omega
  have hclear : s'.disk = ext.foldl s.clearCluster s.disk := by rw [h.extended.state]
  calc t.disk y = s'.disk y := by
        rw [h.eq]
        exact ByteMem.blit_of_not_mem hy'
    _ = s.disk y := by
        rw [hclear]
        exact foldl_clearCluster_of_not_mem h.files.geometry (fun e he => h.only e he ▸ h.inRange)
          (fun e he => h.only e he ▸ hy) _

theorem disk_self (x : ℕ) (hx : x < 4096) : t.disk (s.info.clusterAddr c + x) = D x := by
  have hblit : t.disk (s.info.clusterAddr c + x) =
      D (s.info.clusterAddr c + x - s.info.clusterAddr c) := by
    rw [h.eq]
    exact ByteMem.blit_of_mem (by omega) (by omega)
  rw [hblit, Nat.add_sub_cancel_left]

theorem mem_chain {b d : ℕ}
    (hd : d ∈ Function.update ch (s.startOf r ip) (ch (s.startOf r ip) ++ ext) b) (hdc : d ≠ c) :
    d ∈ ch b := by
  by_cases hb : b = s.startOf r ip
  · rw [hb, Function.update_self, List.mem_append] at hd
    exact hb ▸ hd.resolve_right fun he => hdc (h.only d he)
  · rwa [Function.update_of_ne hb] at hd

theorem table :
    TableInv t S (Function.update ch (s.startOf r ip) (ch (s.startOf r ip) ++ ext)) R := by
  have hext := h.files.table.extend h.mem h.inode h.extended h.cluster
  refine hext.of_state ?_ (by rw [h.eq]) (fun q => by rw [h.eq]; cases q <;> rfl)
    fun q hq iq hiq => ⟨?_, List.prefix_rfl⟩
  · exact h.extended.chains.congr (h.info.trans h.extended.info_eq.symm)
      fun _ _ d _ => congrFun h.entry d
  · exact (hext.cursor_of hq hiq).1

theorem coherent {q : InodeRef} (hq : q ∈ R) {iq : Inode} (hiq : t.inode? q = some iq) {d : ℕ}
    (hd : d ∈ Function.update ch (s.startOf r ip) (ch (s.startOf r ip) ++ ext) (t.startOf q iq))
    {i : ℕ} (hi : l.Holds i d) {x : ℕ} (hx : x < 4096) :
    (l.bufCache i).data x = t.disk (s.info.clusterAddr d + x) := by
  obtain ⟨jq, hjq, hse, -⟩ := h.node_before hiq
  rw [hse] at hd
  rcases h.step.holds i d hi with ⟨rfl, hD⟩ | ⟨hdc, hi', hD⟩
  · rw [h.disk_self x hx]
    exact congrFun hD x
  · have hd' := h.mem_chain hd hdc
    have hdr := h.files.inRange (h.files.table.cursor_of hq hjq).1 hd'
    have hy : ¬ s.info.InCluster c (s.info.clusterAddr d + x) := fun hc =>
      hdc (Fat32Info.InCluster.eq ⟨by omega, by omega⟩ hc hdr.two_le h.inRange.two_le)
    rw [h.disk_other _ hy, ← h.files.coherent q hq jq hjq d hd' i hi' x hx]
    exact congrFun hD x

theorem inv :
    FilesInv t S (Function.update ch (s.startOf r ip) (ch (s.startOf r ip) ++ ext)) R where
  table := h.table
  geometry := h.info ▸ h.files.geometry
  range := h.info ▸ h.files.range
  idle := by
    rw [h.eq]
    exact h.idle
  matches' := by
    rw [h.info, h.eq]
    exact ⟨h.step.firstDataSector.trans h.files.matches'.firstDataSector,
      h.step.sectorsPerCluster.trans h.files.matches'.sectorsPerCluster⟩
  coherent q hq iq hiq d hd i hi x hx := by
    have hbuf : t.buffers = l := by rw [h.eq]
    rw [hbuf] at hi ⊢
    rw [h.info]
    exact h.coherent hq hiq hd hi hx
  size q hq iq hiq := by
    obtain ⟨jq, hjq, hse, hsz, -⟩ := h.node_before hiq
    have hle := (prefix_update_append ch (s.startOf r ip) ext (s.startOf q jq)).length_le
    rw [hse, hsz]
    exact (h.files.size q hq jq hjq).trans (Nat.mul_le_mul_left _ hle)
  entry q hq iq hiq := by
    obtain ⟨jq, hjq, -, -, hpos⟩ := h.node_before hiq
    obtain ⟨h512, d, hd, hne, e, he, hpos'⟩ := h.files.entry q hq jq hjq
    refine ⟨hpos ▸ h512, d, hd, fun q' hq' iq' hiq' => ?_, e, (prefix_update_append ch _ ext d).subset he, ?_⟩
    · obtain ⟨jq', hjq', hse', -⟩ := h.node_before hiq'
      rw [hse']
      exact hne q' hq' jq' hjq'
    · rw [h.info, hpos]
      exact hpos'

theorem turned : Turned s S ch R r ip ext k c D t where
  inv := h.inv
  info := h.info
  node := h.node
  disk_self := h.disk_self
  disk_other := h.disk_other
  room m := by
    have hroom : t.Room m ↔ s'.Room m :=
      room_congr (h.info.trans h.extended.info_eq.symm) h.entry
    exact hroom.trans (h.extended.room_iff h.files.table.chains h.start_mem)

end Turning

/-- `bmap` and `buffer_layer.read` of a cluster at or just behind the end of a file. -/
theorem turn_spec (h : FilesInv s S ch R) (hr : r ∈ R) (hip : s.inode? r = some ip)
    (hk : k ≤ (ch (s.startOf r ip)).length)
    (hroom : s.Room (k + 1 - (ch (s.startOf r ip)).length)) :
    ∃ ext c s₁ i s₂, bmap r k s = .ok (c, s₁) ∧ bufRead c s₁ = .ok (i, s₂) ∧
      s₂.info = s.info ∧ ext.length = k + 1 - (ch (s.startOf r ip)).length ∧
      (ch (s.startOf r ip) ++ ext)[k]? = some c ∧
      (k < (ch (s.startOf r ip)).length → s₂.disk = s.disk ∧
        ∀ x < 4096, (s₂.buffers.bufCache i).data x = s.disk (s.info.clusterAddr c + x)) ∧
      ∀ D, Turned s S ch R r ip ext k c D (s₂.release i D) := by
  obtain ⟨hS, hcur⟩ := h.table.cursor_of hr hip
  obtain ⟨ext, s₁, c, hext, hlen, hres, hok⟩ := (bmap_cases k h.table.geometry
    h.table.chains hip hS (Or.inr hcur)).resolve_right fun hc => hc.2 hroom
  set a := s.startOf r ip with ha
  set t := s₁.setInode r { ip with iLogi := k, iClus := c } with ht
  have htinfo : t.info = s.info := by rw [info_setInode, hext.info_eq]
  have htbuf : t.buffers = s.buffers := by rw [buffers_setInode, hext.state]
  have hcmem : c ∈ Function.update ch a (ch a ++ ext) a := by
    rw [Function.update_self]
    exact List.mem_of_getElem? hres
  have hcr : s.info.InRange c := h.range c (hext.chains.two_le a hS c hcmem) (by
    rw [← hext.info_eq]; exact hext.chains.inCache a hS c hcmem)
  -- at most one cluster is new, and then it is the one asked for
  have hextc : ∀ e ∈ ext, e = c := by
    intro e he
    obtain ⟨j, hj, rfl⟩ := List.getElem_of_mem he
    have hkl : (ch a).length ≤ k := by omega
    rw [List.getElem?_append_right hkl] at hres
    obtain ⟨hk', rfl⟩ := List.getElem?_eq_some_iff.mp hres
    congr 1
    omega
  obtain ⟨i, l, hread, hload, hrel⟩ := bufRead_spec (s := t) (c := c) (by rw [htbuf]; exact h.idle)
    (by rw [htbuf, htinfo]; exact h.matches') (by rw [htinfo]; exact hcr)
  rw [htinfo, htbuf] at hrel
  refine ⟨ext, c, t, i, { t with buffers := l }, hok, hread, htinfo, hlen, hres, fun hlt => ?_,
    fun D => ?_⟩
  · have hnil : ext = [] := List.eq_nil_of_length_eq_zero (by omega)
    have hdisk : t.disk = s.disk := by rw [disk_setInode, hext.state, hnil]; rfl
    have hca : c ∈ ch a := by rw [hnil, List.append_nil] at hres; exact List.mem_of_getElem? hres
    refine ⟨hdisk, fun x hx => ?_⟩
    rcases hload with ⟨j, hj, hD⟩ | ⟨-, hD⟩
    · rw [htbuf] at hj hD
      rw [← h.coherent r hr ip hip c hca j hj x hx]
      exact congrFun hD.symm x
    · rw [hdisk, htinfo] at hD
      exact hD x hx
  · have heq : release { t with buffers := l } i D = { t with
        disk := s₁.disk.blit (s.info.clusterAddr c) 4096 D
        buffers := (l.setBuf i { l.bufCache i with data := D }).freeBuffer i } := by
      have hd : t.disk = s₁.disk := disk_setInode ..
      have hw := (hrel D s₁.disk).1
      simp only [release, hd, hw]
    rw [heq]
    exact Turning.turned ⟨h, hr, hip, hext, hres, hextc, (hrel D s.disk).2.1,
      (hrel D s.disk).2.2, rfl⟩

end Turn

end StartOS.Fat32FileSystem
