import StartOS.Fs.DirWrite
import StartOS.Fs.NameRoundTrip

/-! # When `Create` returns

Where the chain of a directory can be walked, a slot that `FindFreeEntry` has read can be
written and read again. `Create` then stops for one reason only: a name with more than 32
characters before its last dot is turned into capitals past the end of the short entry.
-/

namespace StartOS.Fat32FileSystem

open Linked Hoare BufferLayer

variable {s s' s₁ s₂ : Fat32FileSystem} {r : InodeRef} {ip : Inode} {c k m n off pos seq num : ℕ}
  {D disk data e : ByteMem} {L : List ByteMem} {name : CString} {mode : ℕ} {checksum : UInt8}

/-- No buffer is held, and the directory is a chain of clusters for at least `n` bytes. -/
structure Walkable (s : Fat32FileSystem) (r : InodeRef) (n : ℕ) : Prop where
  geometry : s.info.Geometry
  range : ∀ c, 2 ≤ c → s.info.InCache c → s.info.InRange c
  idle : s.buffers.Idle
  matches' : s.buffers.Matches s.info
  node : ∃ ip l, s.OnChain r ip l ∧ ip.sz = minusOne ∧ n ≤ 4096 * l.length

theorem readInode_eq_readLoop (hip : s.inode? r = some ip) (hoff : off + 32 ≤ ip.sz)
    (hlt : off + 32 < 2 ^ 64) : readInode r (fun _ => true) off 32 s =
      readLoop r (fun _ => true) 32 33 0 off [] s := by
  have hnot : ¬(off > ip.sz ∨ (off + 32) % 2 ^ 64 < off) := by omega
  have hnot' : ¬off + 32 > ip.sz := by omega
  rw [readInode, bind_of_ok (inode_eq hip)]
  simp only [if_neg hnot, if_neg hnot']

theorem writeLoop_done {src : ℕ → Option UInt8} {fuel : ℕ} (s : Fat32FileSystem) :
    writeLoop r src n (fuel + 1) n off s = .ok ((toInt32 n, off), s) := by
  rw [writeLoop, if_neg (lt_irrefl n)]
  rfl

theorem updateInode_returns (hip : s.inode? r = some ip) : ∃ disk, updateInode r s = .ok ((),
    { s with
      stampNo := s.stampNo + 1
      disk := disk }) := by
  have hstamp : stamp s = .ok (s.stamps s.stampNo, { s with stampNo := s.stampNo + 1 }) := rfl
  have hnode : ({ s with stampNo := s.stampNo + 1 } : Fat32FileSystem).inode? r = some ip := by
    rw [← hip]
    cases r <;> rfl
  refine ⟨storeSector ((rwDevRead s.disk (toInt32 (toInt32 (ip.iPos / s.info.bytesPerSector : ℕ) *
    s.info.bytesPerSector)) s.info.bytesPerSector s.junk).blit (ip.iPos % s.info.bytesPerSector) 32
      (inodeEntry ip (s.stamps s.stampNo))) s.disk (ip.iPos / s.info.bytesPerSector), ?_⟩
  rw [updateInode, bind_of_ok hstamp, get_bind, bind_of_ok (inode_eq hnode)]
  rfl

namespace Walkable

theorem beside (h : Walkable s r n) (hi : s'.info = s.info) (hb : s'.buffers = s.buffers)
    (hn : s'.inode? r = s.inode? r) (he : ∀ c, ¬s.Free c → s'.entry c = s.entry c) :
    Walkable s' r n := by
  obtain ⟨ip, l, hon, hsz, hlen⟩ := h.node
  refine ⟨hi ▸ h.geometry, hi ▸ h.range, hb ▸ h.idle, ?_, ip, l,
    hon.congr hi hn fun c hc => he c (hon.not_free hc), hsz, hlen⟩
  rw [hb, hi]
  exact h.matches'

theorem stamped (h : Walkable s r n) (k : ℕ) (disk : ByteMem) :
    Walkable { s with
      stampNo := k
      disk := disk } r n :=
  h.beside rfl rfl (by cases r <;> rfl) fun _ _ => rfl

theorem buffered (h : Walkable s r n) {b : BufferLayer} (hstep : BufStep s.buffers c D b)
    (hidle : b.Idle) (disk : ByteMem) :
    Walkable { s with
      disk := disk
      buffers := b } r n := by
  obtain ⟨ip, l, hon, hsz, hlen⟩ := h.node
  exact ⟨h.geometry, h.range, hidle, ⟨hstep.firstDataSector.trans h.matches'.firstDataSector,
    hstep.sectorsPerCluster.trans h.matches'.sectorsPerCluster⟩, ip, l,
    hon.congr rfl (by cases r <;> rfl) fun _ _ => rfl, hsz, hlen⟩

/-- `bmap` finds a cluster of the directory, which may be one that it has taken for it. -/
theorem bmap (h : Walkable s r n) (hk : k ≤ 2 ^ 21) (hok : bmap r k s = .ok (c, s')) :
    Walkable s' r (max n (4096 * (k + 1))) ∧ s'.info.InRange c := by
  obtain ⟨ip, l, hon, hsz, hlen⟩ := h.node
  rcases bmap_cases k h.geometry.toFatGeometry hon.chains hon.node rfl (hon.cursor_cases hk) with
    ⟨ext, s₁, d, hx, hext, hd, hok'⟩ | ⟨⟨e, he⟩, -⟩
  · rw [hok', Except.ok.injEq, Prod.mk.injEq] at hok
    obtain ⟨rfl, rfl⟩ := hok
    have hinfo : s₁.info = s.info := hx.info_eq
    have hbuf : s₁.buffers = s.buffers := by rw [hx.state]
    have hon₁ := hon.extended hx
    have hmem := List.mem_of_getElem? hd
    have hin := h.range d (hon₁.chains.two_le _ rfl d hmem)
      (hinfo ▸ hon₁.chains.inCache _ rfl d hmem)
    have hlen' : (l ++ ext).length = l.length + ext.length := List.length_append
    refine ⟨⟨?_, ?_, ?_, ?_, { ip with iLogi := k, iClus := d }, l ++ ext,
      hon₁.setInode rfl (.inl hd) hon.sz_lt, hsz, ?_⟩, ?_⟩
    · rw [info_setInode, hinfo]
      exact h.geometry
    · rw [info_setInode, hinfo]
      exact h.range
    · rw [buffers_setInode, hbuf]
      exact h.idle
    · rw [buffers_setInode, info_setInode, hbuf, hinfo]
      exact h.matches'
    · omega
    · rw [info_setInode, hinfo]
      exact hin
  · rw [he] at hok
    cases hok

theorem mono (h : Walkable s r n) (hm : m ≤ n) : Walkable s r m := by
  obtain ⟨ip, l, hon, hsz, hlen⟩ := h.node
  exact ⟨h.geometry, h.range, h.idle, h.matches', ip, l, hon, hsz, hm.trans hlen⟩

theorem mapped (h : Walkable s r n) (off : ℕ) (hoff : off < n) :
    off < 2 ^ 32 ∧ ∃ c s', Fat32FileSystem.bmap r (off / 4096 % 2 ^ 32) s = .ok (c, s') ∧
      Walkable s' r n ∧ s'.info.InRange c := by
  obtain ⟨ip, l, hon, hsz, hlen⟩ := h.node
  have hle := hon.length_le
  have hk : off / 4096 % 2 ^ 32 = off / 4096 := Nat.mod_eq_of_lt (by omega)
  have hin := hon.bmap_inside (k := off / 4096) h.geometry.toFatGeometry (by omega)
  rw [hk]
  obtain ⟨hs, hc⟩ := h.bmap (by omega) hin
  exact ⟨by omega, _, _, hin, hs.mono (le_max_left ..), hc⟩

theorem loads (h : Walkable s r n) (hc : s.info.InRange c) : ∃ i s', bufRead c s = .ok (i, s') ∧
    Walkable { s' with buffers := s'.buffers.freeBuffer i } r n := by
  obtain ⟨i, b, hread, -, hrel⟩ := bufRead_spec h.idle h.matches' hc
  obtain ⟨-, hstep, hidle⟩ := hrel (b.bufCache i).data s.disk
  have hset : b.setBuf i { b.bufCache i with data := (b.bufCache i).data } = b := by
    simp only [BufferLayer.setBuf, Function.update_eq_self]
  rw [hset] at hstep hidle
  exact ⟨i, _, hread, h.buffered hstep hidle s.disk⟩

theorem readsInode (h : Walkable s r n) (off : ℕ) (h32 : off % 32 = 0) (hoff : off + 32 ≤ n) :
    ∃ q s', readInode r (fun _ => true) off 32 s = .ok (q, s') ∧ Walkable s' r n := by
  obtain ⟨hlt, c, s₁, hbmap, h₁, hc⟩ := h.mapped off (by omega)
  obtain ⟨i, s₂, hread, h₂⟩ := h₁.loads hc
  obtain ⟨ip, l, hon, hsz, hlen⟩ := h.node
  have hle := hon.length_le
  have hloop := @readLoop_turn s s₁ s₂ r _ i 32 off 0 32 [] h.geometry.bytesPerCluster
    (by norm_num) hbmap hread
  rw [show min (32 - 0) (4096 - off % 4096) = 32 by omega, Nat.zero_add, readLoop_done] at hloop
  exact ⟨_, _, (readInode_eq_readLoop hon.node (by rw [hsz, minusOne]; omega) (by omega)).trans hloop,
    h₂⟩

theorem readEntry (h : Walkable s r n) (h32 : off % 32 = 0)
    (hok : readEntry r off s = .ok (some e, s')) : Walkable s' r (max n (off + 32)) := by
  obtain ⟨ip, l, hon, hsz, hlen⟩ := h.node
  obtain ⟨hin, -⟩ := readEntry_inside hon.node hok
  rw [hsz, minusOne] at hin
  obtain ⟨⟨q, out⟩, t, hread, hend⟩ := bind_eq_ok.mp hok
  rw [readInode_eq_readLoop hon.node (by rw [hsz, minusOne]; omega) (by omega)] at hread
  obtain ⟨c, s₁, hbmap⟩ : ∃ c s₁, Fat32FileSystem.bmap r (off / 4096 % 2 ^ 32) s = .ok (c, s₁) := by
    have hturn := hread
    rw [readLoop, if_pos (by norm_num), get_bind] at hturn
    simp only [h.geometry.bytesPerCluster] at hturn
    obtain ⟨c, s₁, hbmap, -⟩ := bind_eq_ok.mp hturn
    exact ⟨c, s₁, hbmap⟩
  obtain ⟨i, s₂, hbuf, -, rfl⟩ := readLoop_entry h.geometry.bytesPerCluster (by omega) hbmap hread
  rw [Nat.mod_eq_of_lt (by omega)] at hbmap
  obtain ⟨h₁, hc⟩ := h.bmap (by omega) hbmap
  obtain ⟨i', s₂', hbuf', h₂⟩ := h₁.loads hc
  rw [hbuf] at hbuf'
  cases hbuf'
  obtain rfl := congrArg Prod.snd (Except.ok.inj hend)
  exact h₂.mono (by omega)

theorem entriesRead (h : Walkable s r n) (h32 : off % 32 = 0) (hL : EntriesRead r s off L s') :
    Walkable s' r (max n (off + 32 * L.length)) ∨ L = [] ∧ s' = s := by
  induction hL generalizing n with
  | nil => exact .inr ⟨rfl, rfl⟩
  | @cons s s₁ s₂ off e L hread hrest ih =>
    left
    rcases ih (h.readEntry h32 hread) (by omega) with hs | ⟨rfl, rfl⟩
    · rw [List.length_cons]
      exact hs.mono (by omega)
    · exact h.readEntry h32 hread

theorem writes (h : Walkable s r n) (data : ByteMem) (off : ℕ) (h32 : off % 32 = 0)
    (hoff : off + 32 ≤ n) :
    ∃ s', writeBytes r data off 32 s = .ok (32, s') ∧ Walkable s' r n := by
  obtain ⟨hlt, c, s₁, hbmap, h₁, hc⟩ := h.mapped off (by omega)
  obtain ⟨i, b, hread, -, hrel⟩ := bufRead_spec h₁.idle h₁.matches' hc
  obtain ⟨-, hstep, hidle⟩ := hrel ((b.bufCache i).data.blit (off % 4096) 32 data) s₁.disk
  obtain ⟨ip, l, hon, hsz, hlen⟩ := h.node
  have hle := hon.length_le
  have hloop := @writeLoop_turn s s₁ _ r c i 32 off 0 32 (fun x => some (data x))
    h.geometry.bytesPerCluster (by norm_num) hbmap hread fun _ _ => rfl
  simp only [show min (32 - 0) (4096 - off % 4096) = 32 by omega, Nat.zero_add, Option.getD_some,
    release] at hloop
  have h₂ := h₁.buffered hstep hidle
    ((b.setBuf i { b.bufCache i with data := (b.bufCache i).data.blit (off % 4096) 32 data }).write
      s₁.disk i)
  generalize ({ s₁ with
    disk := (b.setBuf i { b.bufCache i with
      data := (b.bufCache i).data.blit (off % 4096) 32 data }).write s₁.disk i
    buffers := (b.setBuf i { b.bufCache i with
      data := (b.bufCache i).data.blit (off % 4096) 32 data }).freeBuffer i } : Fat32FileSystem) = t
    at hloop h₂
  have hdone : toInt32 (32 : ℕ) = 32 := toInt32_of_lt (by norm_num) (by norm_num)
  rw [writeLoop_done, hdone] at hloop
  obtain ⟨iq, lq, honq, hszq, -⟩ := h₂.node
  have hmax : max iq.sz (off + 32) = iq.sz := max_eq_left (by rw [hszq, minusOne]; omega)
  have hsame : t.setInode r { iq with sz := max iq.sz (off + 32) } = t := by
    rw [hmax]
    exact setInode_self honq.node
  obtain ⟨disk, hup⟩ := updateInode_returns honq.node
  exact ⟨_, Sim.writeInode_tail hon.node (by rw [hsz, minusOne]; omega) (by omega) hloop honq.node
    (by omega) (by rw [hsame]; exact hup), h₂.stamped _ disk⟩

theorem allocs (h : Walkable s r n) (hok : allocCluster s = .ok (c, s')) : Walkable s' r n := by
  rcases allocCluster_cases h.geometry.toFatGeometry with ⟨d, hd, -, hrun⟩ | ⟨⟨e, he⟩, -⟩
  · rw [hrun] at hok
    cases hok
    refine h.beside rfl rfl (by cases r <;> rfl) fun b hb => ?_
    rw [entry_claim, if_neg]
    rintro rfl
    exact hb hd
  · rw [he] at hok
    cases hok

theorem writesLongs (h : Walkable s r n) (name : CString) (checksum : UInt8) (num k seq off : ℕ)
    (hoff : k = 0 ∨ off % 32 = 0 ∧ off + 32 ≤ n ∧ 32 * k ≤ off + 32) :
    ∃ t s', longTrace r name checksum num k seq off s = .ok (t, s') := by
  induction k generalizing s off seq with
  | zero => exact ⟨_, _, rfl⟩
  | succ k ih =>
    obtain ⟨h32, hin, hk⟩ := hoff.resolve_left (Nat.succ_ne_zero k)
    obtain ⟨hlt, -⟩ := h.mapped off (by omega)
    obtain ⟨s₁, hwrite, h₁⟩ := h.writes (longEntry name checksum num seq) off h32 hin
    obtain ⟨t, s₂, hrest⟩ := ih h₁ (seq + 1) ((off + 2 ^ 32 - 32) % 2 ^ 32) (by omega)
    rw [longTrace, bind_of_ok hwrite, bind_of_ok hrest]
    exact ⟨_, _, rfl⟩

end Walkable

theorem fillShortFile_cases (name : CString) (cluster mode : ℕ) (s : Fat32FileSystem) :
    (name.baseLength ≤ 32 ∧ ∃ e, fillShortFile (fun _ _ => 0) name cluster mode s =
      .ok (e, { s with stampNo := s.stampNo + 1 })) ∨
    32 < name.baseLength ∧
      fillShortFile (fun _ _ => 0) name cluster mode s = .error .fault := by
  have hlen : (shortName (fun _ => 0) name).2 = name.baseLength := by
    rw [shortName, CString.baseLength]
    cases name.strrchr <;> rfl
  have hstamp : stamp s = .ok (s.stamps s.stampNo, { s with stampNo := s.stampNo + 1 }) := rfl
  rw [fillShortFile, bind_of_ok hstamp]
  dsimp only
  rw [hlen]
  by_cases hbase : name.baseLength ≤ 32
  · rw [if_neg (not_lt.mpr hbase)]
    exact .inl ⟨hbase, _, rfl⟩
  · rw [if_pos (not_le.mp hbase)]
    exact .inr ⟨not_le.mp hbase, rfl⟩

theorem createTrace_long (hbase : 32 < name.baseLength)
    (hfind : findFreeEntry r (name.lfnNum + 1) s = .ok (pos, s₁))
    (halloc : allocCluster s₁ = .ok (c, s₂)) : createTrace r name mode s = .error .fault := by
  rcases fillShortFile_cases name c mode s₂ with ⟨hle, -⟩ | ⟨-, hfault⟩
  · omega
  · rw [createTrace, createStart, bind_assoc, bind_of_ok hfind]
    dsimp only
    rw [bind_assoc, bind_of_ok halloc, bind_assoc, bind_of_error hfault]

theorem baseLength_le_of_createTrace {t : List (ℕ × ByteMem)}
    (hok : createTrace r name mode s = .ok (t, s')) : name.baseLength ≤ 32 := by
  obtain ⟨⟨last, short, checksum⟩, s₁, hstart, -⟩ := bind_eq_ok.mp hok
  obtain ⟨pos, s₂, -, hrun⟩ := bind_eq_ok.mp hstart
  obtain ⟨cluster, s₃, -, hrun⟩ := bind_eq_ok.mp hrun
  obtain ⟨entry, s₄, hfill, -⟩ := bind_eq_ok.mp hrun
  rcases fillShortFile_cases name cluster mode s₃ with ⟨hle, -⟩ | ⟨-, hfault⟩
  · exact hle
  · rw [hfault] at hfill
    cases hfill

/-- `Create` returns when the run of free slots and the cluster are found and the short entry is not
overrun. -/
theorem Walkable.creates (h : Walkable s r 0) (hbase : name.baseLength ≤ 32)
    (hlen : name.strlen ≤ 52) (hpos : 1 ≤ name.strlen)
    (hfind : findFreeEntry r (name.lfnNum + 1) s = .ok (pos, s₁))
    (halloc : allocCluster s₁ = .ok (c, s₂)) (mode : ℕ) :
    ∃ t s', createTrace r name mode s = .ok (t, s') := by
  obtain ⟨ip, L, hip, -, hL, hfree, hat, -⟩ := findFreeEntry_spec hfind
  have hne : L ≠ [] := List.ne_nil_of_length_pos (by omega)
  have h₁ : Walkable s₁ r (32 * L.length) := by
    rcases h.entriesRead (Nat.zero_mod 32) hL with hs | ⟨hnil, -⟩
    · exact hs.mono (by omega)
    · exact absurd hnil hne
  have h₂ := h₁.allocs halloc
  obtain ⟨e, hfill⟩ := ((fillShortFile_cases name c mode s₂).resolve_right (by omega)).2
  have h₃ : Walkable { s₂ with stampNo := s₂.stampNo + 1 } r (32 * L.length) :=
    h₂.stamped (s₂.stampNo + 1) s₂.disk
  obtain ⟨hlt, -⟩ := h₃.mapped (pos + name.lfnNum * 32) (by omega)
  have hoff : (pos + name.lfnNum * 32) % 2 ^ 32 = pos + name.lfnNum * 32 := Nat.mod_eq_of_lt hlt
  obtain ⟨s₄, hwrite, h₄⟩ := h₃.writes e (pos + name.lfnNum * 32) (by omega) (by omega)
  obtain ⟨⟨q, out⟩, s₅, hread, h₅⟩ :=
    h₄.readsInode (pos + name.lfnNum * 32) (by omega) (by omega)
  have hnum : 1 ≤ name.lfnNum ∧ name.lfnNum ≤ 4 := by
    rw [CString.lfnNum]
    omega
  have hstart : createStart r name mode s = .ok
      ((pos + name.lfnNum * 32, e, fatChecksum (overlay (fun _ => 0) out)), s₅) := by
    rw [createStart, bind_of_ok hfind]
    dsimp only
    rw [hoff, bind_of_ok halloc, bind_of_ok hfill, bind_of_ok hwrite, bind_of_ok hread]
    dsimp only
    rw [if_neg (by omega)]
    rfl
  obtain ⟨rest, s₆, hrest⟩ := h₅.writesLongs name (fatChecksum (overlay (fun _ => 0) out))
    name.lfnNum name.lfnNum 1 ((pos + name.lfnNum * 32 + 2 ^ 32 - 32) % 2 ^ 32) (by omega)
  rw [createTrace, bind_of_ok hstart]
  dsimp only
  rw [bind_of_ok hrest]
  exact ⟨_, _, rfl⟩

/-- What a call of `Create` that returns has written is as it should be. In a directory whose chain
can be walked, once the slots and the cluster are found, it returns and has written so exactly when
at most 32 characters come before the last dot. -/
theorem create_roundTrip_iff (hg : s.info.SectorGeometry) (hb : 32 ∣ s.info.bytesPerCluster)
    (hsz : ∀ ip, s.inode? r = some ip → ip.sz < 2 ^ 32) (hpos : 1 ≤ name.strlen)
    (hlen : name.strlen ≤ 52) (mode : ℕ) :
    (∀ t s', createTrace r name mode s = .ok (t, s') →
      name.baseLength ≤ 32 ∧ RoundTrip r name s t) ∧
    ∀ pos s₁ c s₂, Walkable s r 0 → findFreeEntry r (name.lfnNum + 1) s = .ok (pos, s₁) →
      allocCluster s₁ = .ok (c, s₂) →
      ((∃ t s', createTrace r name mode s = .ok (t, s') ∧ RoundTrip r name s t) ↔
        name.baseLength ≤ 32) := by
  have htrip : ∀ t s', createTrace r name mode s = .ok (t, s') → RoundTrip r name s t :=
    fun t s' hok => roundTrip_of_createTrace hg hb hsz hpos hlen hok
  refine ⟨fun t s' hok => ⟨baseLength_le_of_createTrace hok, htrip t s' hok⟩,
    fun pos s₁ c s₂ h hfind halloc => ⟨?_, fun hbase => ?_⟩⟩
  · rintro ⟨t, s', hok, -⟩
    exact baseLength_le_of_createTrace hok
  · obtain ⟨t, s', hok⟩ := h.creates hbase hlen hpos hfind halloc mode
    exact ⟨t, s', hok, htrip t s' hok⟩

/-- `FindFreeEntry` and `AllocCluster` find what they look for. -/
def findsRoom (r : InodeRef) (n : ℕ) (s : Fat32FileSystem) : Bool :=
  match findFreeEntry r n s with
  | .ok (_, s₁) => (allocCluster s₁).isOk
  | .error _ => false

theorem of_findsRoom (h : findsRoom r n s = true) : ∃ pos s₁ c s₂,
    findFreeEntry r n s = .ok (pos, s₁) ∧ allocCluster s₁ = .ok (c, s₂) := by
  rw [findsRoom] at h
  cases hfind : findFreeEntry r n s with
  | error e =>
    rw [hfind] at h
    cases h
  | ok q =>
    obtain ⟨pos, s₁⟩ := q
    rw [hfind] at h
    dsimp only at h
    cases halloc : allocCluster s₁ with
    | error e =>
      rw [halloc] at h
      cases h
    | ok q => exact ⟨pos, s₁, q.1, q.2, rfl, halloc⟩

theorem walkable_smallVolume : Walkable smallVolume .root 0 := by
  have h4 : (4 : ℕ) ∈ ({2, 4} : Set ℕ) := Or.inr rfl
  have hinv := filesInv_smallVolume
  exact ⟨hinv.geometry, hinv.range, hinv.idle, hinv.matches', freshInode 4 59392 0xffffffff, [4],
    ⟨rfl, tableInv_smallVolume.chains.single h4 rfl, .inl rfl, by decide⟩, rfl, Nat.zero_le _⟩

theorem create_roundTrip_iff_plainA :
    ∃ t s', createTrace .root plainA 0 smallVolume = .ok (t, s') ∧
      RoundTrip .root plainA smallVolume t := by
  have hroom : findsRoom .root (plainA.lfnNum + 1) smallVolume = true := by decide +kernel
  obtain ⟨pos, s₁, c, s₂, hfind, halloc⟩ := of_findsRoom hroom
  refine ((create_roundTrip_iff ⟨by decide, by decide, by decide⟩ (by decide) ?_ (by decide)
    (by decide) 0).2 pos s₁ c s₂ walkable_smallVolume hfind halloc).mpr (by decide)
  rintro ip hip
  cases hip
  decide

def name33 : CString :=
  ⟨fun i => if i < 33 then 0x61 else 0, 33, rfl, fun i hi => by rw [if_pos hi]; decide⟩

/-- The slots and the cluster are found, and the 33rd character is turned into a capital behind the
short entry. -/
theorem create_overruns_name33 : ∃ pos s₁ c s₂,
    findFreeEntry .root (name33.lfnNum + 1) smallVolume = .ok (pos, s₁) ∧
      allocCluster s₁ = .ok (c, s₂) ∧ createTrace .root name33 0 smallVolume = .error .fault ∧
      ¬∃ t s', createTrace .root name33 0 smallVolume = .ok (t, s') ∧
        RoundTrip .root name33 smallVolume t := by
  have hroom : findsRoom .root (name33.lfnNum + 1) smallVolume = true := by decide +kernel
  obtain ⟨pos, s₁, c, s₂, hfind, halloc⟩ := of_findsRoom hroom
  have hfault : createTrace .root name33 0 smallVolume = .error .fault :=
    createTrace_long (by decide +kernel) hfind halloc
  refine ⟨pos, s₁, c, s₂, hfind, halloc, hfault, ?_⟩
  rintro ⟨t, s', hok, -⟩
  rw [hfault] at hok
  cases hok

end StartOS.Fat32FileSystem
