import StartOS.Fs.Coherence
import StartOS.Fs.DirScan
import StartOS.Fs.FileOps
import StartOS.Fs.ListingRun

/-! # The entries of a directory at rest

Between two operations no buffer is held. The entries of a directory are then the bytes of its
chain, a read of one succeeds and leaves it so, and the directory can be listed.
-/

namespace StartOS.Fat32FileSystem

open Linked Hoare BufferLayer

variable {s s' s'' : Fat32FileSystem} {r : InodeRef} {ip : Inode} {l : List ℕ} {c i j k : ℕ}

/-- No buffer is held, and the directory `r` is the chain `l`, whose buffers agree with the disk. -/
structure DirAtRest (s : Fat32FileSystem) (r : InodeRef) (l : List ℕ) : Prop where
  geometry : s.info.Geometry
  range : ∀ c ∈ l, s.info.InRange c
  idle : s.buffers.Idle
  matches' : s.buffers.Matches s.info
  node : ∃ ip, s.OnChain r ip l ∧ ip.sz = minusOne
  coherent : ∀ c ∈ l, ∀ i, s.buffers.Holds i c → ∀ x < 4096,
    (s.buffers.bufCache i).data x = s.disk (s.info.clusterAddr c + x)

/-- What a read of the directory leaves as it is: all but the cursor of its inode and the buffers. -/
structure Stays (s : Fat32FileSystem) (r : InodeRef) (l : List ℕ) (s' : Fat32FileSystem) : Prop where
  rest : DirAtRest s' r l
  info : s'.info = s.info
  fatCache : s'.fatCache = s.fatCache
  junk : s'.junk = s.junk
  disk : s'.disk = s.disk
  others : ∀ q, q ≠ r → s'.inode? q = s.inode? q
  self : ∀ ip, s.inode? r = some ip →
    ∃ k c, s'.inode? r = some { ip with iLogi := k, iClus := c }

theorem DirAtRest.stays (h : DirAtRest s r l) : Stays s r l s :=
  ⟨h, rfl, rfl, rfl, rfl, fun _ _ => rfl, fun ip hip => ⟨ip.iLogi, ip.iClus, hip⟩⟩

theorem Stays.trans (h : Stays s r l s') (h' : Stays s' r l s'') : Stays s r l s'' where
  rest := h'.rest
  info := h'.info.trans h.info
  fatCache := h'.fatCache.trans h.fatCache
  junk := h'.junk.trans h.junk
  disk := h'.disk.trans h.disk
  others q hq := (h'.others q hq).trans (h.others q hq)
  self ip hip := by
    obtain ⟨k, c, hk⟩ := h.self ip hip
    obtain ⟨k', c', hk'⟩ := h'.self _ hk
    exact ⟨k', c', hk'⟩

def dirEntries (s : Fat32FileSystem) (l : List ℕ) : List ByteMem :=
  entriesFrom (fileByte s l) 0 (128 * l.length)

theorem dirEntries_getElem? (hk : k < 128 * l.length) : (dirEntries s l)[k]? =
    some fun x => if x < 32 then fileByte s l (32 * k + x) else 0 := by
  rw [dirEntries, entriesFrom, List.getElem?_map, List.getElem?_range' hk, Nat.zero_add, Nat.one_mul]
  rfl

theorem length_dirEntries (s : Fat32FileSystem) (l : List ℕ) :
    (dirEntries s l).length = 128 * l.length := by
  rw [dirEntries, entriesFrom, List.length_map, List.length_range']

theorem Stays.dirEntries (h : Stays s r l s') : s'.dirEntries l = s.dirEntries l := by
  have hbytes : s'.fileByte l = s.fileByte l := by
    funext x
    rw [fileByte, fileByte, h.info, h.disk]
  rw [Fat32FileSystem.dirEntries, hbytes, Fat32FileSystem.dirEntries]

@[simp] theorem junk_setInode (s : Fat32FileSystem) (r : InodeRef) (ip : Inode) :
    (s.setInode r ip).junk = s.junk := by cases r <;> rfl

theorem DirAtRest.mapped (h : DirAtRest s r l) (hj : j < l.length) :
    ∃ s', bmap r j s = .ok (l[j], s') ∧ Stays s r l s' ∧ s'.buffers = s.buffers := by
  obtain ⟨ip, hon, hsz⟩ := h.node
  set s' := s.setInode r { ip with iLogi := j, iClus := l[j] } with hs'
  have hinfo : s'.info = s.info := info_setInode ..
  have hbuf : s'.buffers = s.buffers := buffers_setInode ..
  have hdisk : s'.disk = s.disk := disk_setInode ..
  have hon' : s'.OnChain r { ip with iLogi := j, iClus := l[j] } l :=
    hon.setInode rfl (.inl (List.getElem?_eq_getElem hj)) hon.sz_lt
  refine ⟨s', hon.bmap_inside h.geometry.toFatGeometry hj, ⟨?_, hinfo, fatCache_setInode ..,
    junk_setInode ..,
    hdisk, fun q hq => ?_,
    fun iq hiq => ⟨j, l[j], ?_⟩⟩, hbuf⟩
  · refine ⟨hinfo ▸ h.geometry, hinfo ▸ h.range, hbuf ▸ h.idle, ?_, ⟨_, hon', hsz⟩, ?_⟩
    · rw [hbuf, hinfo]
      exact h.matches'
    · rw [hbuf, hdisk, hinfo]
      exact h.coherent
  · rw [hs', inode?_setInode, if_neg hq]
  · rw [hon.node, Option.some.injEq] at hiq
    subst hiq
    exact hon'.node

theorem DirAtRest.loaded (h : DirAtRest s r l) {D : ByteMem} (hc : c ∈ l) (hD : Loaded s c D) :
    ∀ x < 4096, D x = s.disk (s.info.clusterAddr c + x) := by
  rcases hD with ⟨i, hi, rfl⟩ | ⟨-, hD⟩
  · exact h.coherent c hc i hi
  · exact hD

theorem DirAtRest.loads (h : DirAtRest s r l) (hc : c ∈ l) :
    ∃ i s', bufRead c s = .ok (i, s') ∧
      (∀ x < 4096, (s'.buffers.bufCache i).data x = s.disk (s.info.clusterAddr c + x)) ∧
      Stays s r l { s' with buffers := s'.buffers.freeBuffer i } := by
  obtain ⟨i, b, hread, hload, hrel⟩ := bufRead_spec h.idle h.matches' (h.range c hc)
  set D := (b.bufCache i).data with hDdef
  have hD := h.loaded hc hload
  obtain ⟨-, hstep, hidle⟩ := hrel D s.disk
  have hset : b.setBuf i { b.bufCache i with data := D } = b := by
    simp only [BufferLayer.setBuf, hDdef, Function.update_eq_self]
  rw [hset] at hstep hidle
  obtain ⟨ip, hon, hsz⟩ := h.node
  refine ⟨i, _, hread, hD, ⟨?_, rfl, rfl, rfl, rfl, fun _ _ => by cases ‹InodeRef› <;> rfl,
    fun ip hip => ⟨ip.iLogi, ip.iClus, ?_⟩⟩⟩
  · refine ⟨h.geometry, h.range, hidle, ?_, ⟨ip, hon.congr rfl (by cases r <;> rfl) fun _ _ => rfl, hsz⟩,
      fun d hd j hj x hx => ?_⟩
    · exact ⟨hstep.firstDataSector.trans h.matches'.firstDataSector,
        hstep.sectorsPerCluster.trans h.matches'.sectorsPerCluster⟩
    · rcases hstep.holds j d hj with ⟨rfl, hdata⟩ | ⟨-, hold, hdata⟩
      · exact (congrFun hdata x).trans (hD x hx)
      · exact (congrFun hdata x).trans (h.coherent d hd j hold x hx)
  · rw [← hip]
    cases r <;> rfl

theorem readLoop_done {fuel n off : ℕ} (out : List UInt8) (s : Fat32FileSystem) :
    readLoop r (fun _ => true) n (fuel + 1) n off out s = .ok ((toInt32 n, out), s) := by
  rw [readLoop, if_neg (lt_irrefl n)]
  rfl

theorem DirAtRest.readsInode (h : DirAtRest s r l) {e : ByteMem}
    (hk : (dirEntries s l)[k]? = some e) :
    ∃ out s', readInode r (fun _ => true) (32 * k) 32 s = .ok ((32, out), s') ∧
      overlay (fun _ => 0) out = e ∧ Stays s r l s' := by
  obtain ⟨ip, hon, hsz⟩ := h.node
  have hlen := hon.length_le
  obtain ⟨hlt, -⟩ := List.getElem?_eq_some_iff.mp hk
  rw [length_dirEntries] at hlt
  rw [dirEntries_getElem? hlt, Option.some.injEq] at hk
  have hj : 32 * k / 4096 < l.length := by omega
  obtain ⟨s₁, hbmap, hstay, -⟩ := h.mapped hj
  obtain ⟨i, s₂, hread, hD, hstay'⟩ := hstay.rest.loads (List.getElem_mem hj)
  have hbmap' : bmap r (32 * k / 4096 % 2 ^ 32) s = .ok (l[32 * k / 4096], s₁) := by
    rw [Nat.mod_eq_of_lt (by omega)]
    exact hbmap
  have hloop := @readLoop_turn s s₁ s₂ r _ i 32 (32 * k) 0 32 [] h.geometry.bytesPerCluster
    (by norm_num) hbmap' hread
  rw [show min (32 - 0) (4096 - 32 * k % 4096) = 32 by omega, Nat.zero_add, readLoop_done,
    List.nil_append] at hloop
  have hnot : ¬(32 * k > ip.sz ∨ (32 * k + 32) % 2 ^ 64 < 32 * k) := by
    rw [hsz, minusOne]
    omega
  have hnot' : ¬32 * k + 32 > ip.sz := by
    rw [hsz, minusOne]
    omega
  have hbytes : overlay (fun _ => 0) ((List.range 32).map fun j =>
      (s₂.buffers.bufCache i).data (32 * k % 4096 + j)) = e := by
    rw [← hk]
    funext x
    rw [overlay, getD_map_range]
    split
    · rw [hD _ (by omega), hstay.info, hstay.disk, fileByte,
        show (32 * k + x) / 4096 = 32 * k / 4096 by omega, List.getD_eq_getElem _ _ hj,
        show (32 * k + x) % 4096 = 32 * k % 4096 + x by omega]
    · rfl
  refine ⟨_, _, ?_, hbytes, hstay.trans hstay'⟩
  rw [readInode, bind_of_ok (inode_eq hon.node)]
  simp only [if_neg hnot, if_neg hnot']
  rw [hloop]
  rfl

theorem DirAtRest.reads (h : DirAtRest s r l) {e : ByteMem} (hk : (dirEntries s l)[k]? = some e) :
    ∃ s', readEntry r (32 * k) s = .ok (some e, s') ∧ Stays s r l s' := by
  obtain ⟨out, s', hread, rfl, hstay⟩ := h.readsInode hk
  refine ⟨s', ?_, hstay⟩
  rw [readEntry, bind_of_ok hread]
  rfl

theorem gives_dirEntries (s : Fat32FileSystem) (r : InodeRef) (l : List ℕ) :
    Gives (Stays s r l) (readEntry r) 0 (dirEntries s l) := by
  intro t ht k e hk
  rw [← ht.dirEntries] at hk
  obtain ⟨t', hread, hstay⟩ := ht.rest.reads hk
  rw [Nat.zero_add]
  exact ⟨t', hread, ht.trans hstay⟩

theorem Stays.node (ht : Stays s r l s') :
    ∃ ip, s'.inode? r = some ip ∧ (inum r ip = 1 ↔ decide (r = .root) = true) := by
  obtain ⟨ip, hon, -⟩ := ht.rest.node
  refine ⟨ip, hon.node, ?_⟩
  rw [decide_eq_true_iff, inum]
  split
  · rename_i hr
    exact iff_of_true rfl hr
  · rename_i hr
    have hstart := hon.chains.two_le _ rfl _ (hon.chains.start_mem rfl)
    rw [startOf, if_neg hr] at hstart
    exact iff_of_false (by omega) hr

section OneFile

def entryA : FileEntry where
  longs := []
  short := fun x => if x < 32 then fileByte oneFile [4] (32 * 0 + x) else 0
  long_attrib := by simp
  sequence := rfl
  length_le := by decide
  short_attrib := by decide +kernel
  not_deleted := by decide +kernel
  not_mark := by decide +kernel

theorem dirAtRest_oneFile : DirAtRest oneFile .root [4] where
  geometry := calm_oneFile (K := ∅) |>.geometry
  range c hc := by
    have hin : oneFile.info.InCache c := onChain_oneFile.chains.inCache _ rfl c hc
    exact (calm_oneFile (K := ∅)).range c (onChain_oneFile.chains.two_le _ rfl c hc) hin
  idle := ⟨fun _ _ => rfl, fun _ _ => rfl, calm_oneFile (K := ∅) |>.distinct⟩
  matches' := calm_oneFile (K := ∅) |>.matches'
  node := ⟨_, onChain_oneFile, rfl⟩
  coherent _ _ _ hi := by cases hi.valid

theorem dirEntries_oneFile : ∃ mark rest, mark 0 = 0 ∧
    dirEntries oneFile [4] = layout [.file entryA] ++ mark :: rest :=
  ⟨fun x => if x < 32 then fileByte oneFile [4] (32 * 1 + x) else 0,
    entriesFrom (fileByte oneFile [4]) 2 126, by decide +kernel, rfl⟩

end OneFile

end StartOS.Fat32FileSystem
