import StartOS.Fs.Coherence
import StartOS.Fs.GeometryRun

/-! # Where the cluster size is wrong

With clusters of 128 sectors the size of a cluster is 0 as a 16-bit number, a
larger cluster than a buffer is read behind it, and the buffer of a smaller one
is stored over its neighbours.
-/

namespace StartOS

open Hoare

namespace GeometryM

open Fat32FileSystem Fat32Info

variable {g : Fat32Info} {total c : ℕ} {r : InodeRef} {ip : Inode} {s : Fat32FileSystem}
  {disk data : ByteMem}

section Failing

theorem bmap_zero (hip : s.inode? r = some ip) (hl : ip.iLogi = 0) (hc : ip.iClus ≠ endOfCluster) :
    bmap r 0 s = .ok (ip.iClus, s.setInode r { ip with iLogi := 0, iClus := ip.iClus }) := by
  rw [bmap, get_bind, bind_of_ok (inode_eq hip)]
  simp only [hl, ge_iff_le, le_refl, if_true, Nat.zero_sub, bmapLoop, pure_bind, if_neg hc]
  exact bind_of_ok (updateInodeWith_eq hip)

theorem bufRead_first (hc : (s.buffers.bufCache 0).blockno = toInt32 c)
    (hv : (s.buffers.bufCache 0).valid = true) (hl : (s.buffers.bufCache 0).locked = false) :
    ∃ l : BufferLayer, Fat32FileSystem.bufRead c s = .ok (0, { s with buffers := l }) ∧
      (l.bufCache 0).data = (s.buffers.bufCache 0).data := by
  have hscan : s.buffers.scan (toInt32 c) bufferNum none = .hit 0 := if_pos hc
  have halloc : s.buffers.allocBuffer s.dev (toInt32 c) =
      .ok (0, s.buffers.tick.2.setBuf 0 { s.buffers.bufCache 0 with
        refcnt := ((s.buffers.bufCache 0).refcnt + 1) % 2 ^ 32
        lastUseTick := s.buffers.tick.1
        locked := true }) := by
    rw [BufferLayer.allocBuffer, hscan]
    dsimp only
    rw [hl]
    rfl
  obtain ⟨l, hread, hdata⟩ : ∃ l, s.buffers.read s.disk s.dev c = .ok (0, l) ∧
      (l.bufCache 0).data = (s.buffers.bufCache 0).data := by
    refine ⟨_, BufferLayer.read_of_alloc halloc, ?_⟩
    rw [BufferLayer.setBuf_self, BufferLayer.setBuf_self, hv]
    rfl
  refine ⟨l, ?_, hdata⟩
  rw [Fat32FileSystem.bufRead, get_bind, hread]
  rfl

/-- The memory of a kernel that finds a buffer of cluster `c` from an earlier mount, and the cursor
of the root directory at this cluster. -/
def bootAt (c : ℕ) (data : ByteMem) : Boot where
  dev := 0
  fatCache := fun _ => 0
  buffers := ⟨fun i => if i = 0 then ⟨true, 0, toInt32 c, 0, false, 0, data⟩
    else ⟨false, 0, 0, 0, false, 0, fun _ => 0⟩, 0, 0, Nat.succ, 0⟩
  root := ⟨0, 0, c, 0, 0, 0, 0, .root, fun _ => 0⟩
  stamps := fun _ => ⟨0x5221, 0x6000, 0, 0⟩
  junk := fun _ => 0

theorem turn_bootAt (data disk : ByteMem) (hc : c ≠ endOfCluster) : ∃ s₁ l,
    GeometryM.lift (bmap .root 0) (mount (bootAt c data) disk) = .ok (c, s₁) ∧
    GeometryM.lift (Fat32FileSystem.bufRead c) s₁ = .ok (0, { s₁ with buffers := l }) ∧
    (l.bufCache 0).data = data ∧ HasInfo (infoOf disk) { s₁ with buffers := l } ∧
    (l.bufCache 0).blockno = toInt32 c ∧ s₁.disk = disk := by
  have hb := bmap_zero (s := mount (bootAt c data) disk) (r := .root) rfl rfl hc
  have hinfo : HasInfo (infoOf disk) (mount (bootAt c data) disk) := ⟨rfl, rfl, rfl⟩
  have hbuf : ((mount (bootAt c data) disk).setInode .root
      { (mount (bootAt c data) disk).root with iLogi := 0, iClus := c }).buffers.bufCache 0 =
      ⟨true, 0, toInt32 c, 0, false, 0, data⟩ := rfl
  obtain ⟨l, hl, hdata⟩ := bufRead_first (c := c) (by rw [hbuf]) (by rw [hbuf]) (by rw [hbuf])
  have hspec := HasInfo.bufRead_spec (hinfo.setInode _ _) hl
  exact ⟨_, l, embed_of_ok hb, embed_of_ok hl, by rw [hdata, hbuf], hspec.1, hspec.2, rfl⟩

theorem inode_bootAt : GeometryM.lift (inode .root) (mount (bootAt c data) disk) =
    .ok ((mount (bootAt c data) disk).root, mount (bootAt c data) disk) := rfl

theorem divisor_mount {b : Boot} (h : (infoOf disk).bytesPerCluster ≠ 0) :
    divisor (mount b disk).info.bytesPerCluster s = .ok ((infoOf disk).bytesPerCluster, s) :=
  congrFun (if_neg h) s

theorem read_division (data : ByteMem) (h : (infoOf disk).bytesPerCluster = 0) :
    runOp total (.read .root (fun _ => true) 0 1) (mount (bootAt c data) disk) =
      .error .division := by
  have hsz : (mount (bootAt c data) disk).root.sz = minusOne := rfl
  have hbpc : (mount (bootAt c data) disk).info.bytesPerCluster = 0 := h
  refine bind_of_error ?_
  rw [readInode, bind_of_ok inode_bootAt, hsz, if_neg (by decide), if_neg (by decide), readLoop,
    if_pos (by decide), get_bind, hbpc]
  rfl

theorem read_outside (data : ByteMem) (h : bsize < (infoOf disk).bytesPerCluster)
    (hc : c ≠ endOfCluster) :
    runOp total (.read .root (fun _ => true) bsize 1) (mount (bootAt c data) disk) =
      .error (.outside bsize) := by
  have hsz : (mount (bootAt c data) disk).root.sz = minusOne := rfl
  obtain ⟨s₁, l, hb, hl, hdata, -, -, -⟩ := turn_bootAt data disk hc
  refine bind_of_error ?_
  rw [readInode, bind_of_ok inode_bootAt, hsz, if_neg (by decide), if_neg (by decide), readLoop,
    if_pos (by decide), get_bind, bind_of_ok (divisor_mount (by omega)), Nat.div_eq_of_lt h]
  rw [Nat.zero_mod, bind_of_ok hb, bind_of_ok hl, get_bind]
  have hone : prefixLen (fun _ => true)
      (min (1 - 0) ((infoOf disk).bytesPerCluster - bsize)) = 1 := by
    rw [min_eq_left (by omega)]
    rfl
  refine bind_of_error ?_
  rw [Nat.mod_eq_of_lt h, hone, access, if_pos ⟨by decide, by omega⟩]
  rfl

theorem bufWrite_foreign {i : ℕ} (h : Holding g c i s) (ht : total < 2 ^ 32)
    (hc : g.DataCluster total c)
    (hf : g.Foreign c (toInt32 ((g.clusterSector c : ℤ) * 512)) s.disk
      (rwDevWrite s.disk (toInt32 ((g.clusterSector c : ℤ) * 512)) bsize
        (s.buffers.bufCache i).data)) :
    bufWrite total c i s = .error (.neighbour c) := by
  have hoff : s.buffers.offsetOf ((s.buffers.bufCache i).blockno % 2 ^ 32).toNat =
      toInt32 ((g.clusterSector c : ℤ) * 512) := by
    rw [h.2, offsetOf_eq ht h.1 hc]
  have hok : GeometryM.lift (Fat32FileSystem.bufWrite i) s =
      .ok ((), { s with disk := s.buffers.write s.disk i }) := rfl
  have hcond : StoresForeign total c i s { s with disk := s.buffers.write s.disk i } := by
    have hwrite : s.buffers.write s.disk i = rwDevWrite s.disk
        (s.buffers.offsetOf ((s.buffers.bufCache i).blockno % 2 ^ 32).toNat) bsize
        (s.buffers.bufCache i).data := rfl
    rw [StoresForeign, h.1.info]
    dsimp only
    rw [hwrite, hoff]
    exact And.intro hc hf
  rw [bufWrite, get_bind, bind_of_ok hok, get_bind, if_pos hcond]
  rfl

def stale (disk : ByteMem) (offset : ℤ) : ByteMem := fun j =>
  disk ((((sectorRange offset bsize).1 + (j / 512 : ℕ)) % 2 ^ 64).toNat * 512 + j % 512) + 1

theorem UInt8_add_one_ne (x : UInt8) : x + 1 ≠ x := by
  intro h
  have := congrArg UInt8.toNat h
  rw [UInt8.toNat_add] at this
  have := x.toNat_lt
  have h1 : UInt8.toNat 1 = 1 := rfl
  omega

theorem foreign_stale {offset : ℤ} {d : ByteMem} (h512 : offset % 512 = 0)
    (hle : (sectorRange offset bsize).2 ≤ 8) (hd : ∀ j, j % 512 = 1 → d j = stale disk offset j)
    (hx : ∃ x ∈ transferSectors offset, ¬g.HasSector c x) :
    g.Foreign c offset disk (rwDevWrite disk offset bsize d) := by
  obtain ⟨x, hx, hout⟩ := hx
  refine ⟨x, hx, hout, 1, by norm_num, ?_⟩
  obtain ⟨k, hk, rfl⟩ := List.mem_map.mp hx
  rw [List.mem_range] at hk
  generalize hr : sectorRange offset bsize = r at *
  have hk' : ((((((r.1 + (k : ℤ)) % 2 ^ 64).toNat * 512 + 1) / 512 : ℕ) - r.1) % 2 ^ 64).toNat = k := by
    omega
  rw [rwDevWrite, if_neg (by simp [bsize, h512]), hr]
  dsimp only
  rw [hk', if_pos ⟨by omega, hk⟩, hd _ (by omega), stale, hr]
  have h₁ : (512 * k + (((r.1 + (k : ℤ)) % 2 ^ 64).toNat * 512 + 1) % 512) / 512 = k := by omega
  have h₂ : (512 * k + (((r.1 + (k : ℤ)) % 2 ^ 64).toNat * 512 + 1) % 512) % 512 = 1 := by omega
  rw [h₁, h₂]
  exact UInt8_add_one_ne _

theorem write_neighbour (ht : total < 2 ^ 32) (hbpc : (infoOf disk).bytesPerCluster ≠ 0)
    (hspc : 0 < (infoOf disk).sectorsPerCluster) (hc : (infoOf disk).DataCluster total c)
    (hp : ¬(infoOf disk).Placed c) :
    ∃ data, runOp total (.write .root (fun _ => some 0) 0 1) (mount (bootAt c data) disk) =
      .error (.neighbour c) := by
  have hend : c ≠ endOfCluster := hc.ne_end
  have hoff := (transferSectors_own_iff hspc (hc.lt ht)).not.mpr hp
  generalize hofs : toInt32 (((infoOf disk).clusterSector c : ℤ) * 512) = offset at hoff
  push Not at hoff
  obtain ⟨s₁, l, hb, hl, hdata, hinfo, hno, hdisk⟩ :=
    turn_bootAt (stale disk offset) disk hend
  refine ⟨stale disk offset, bind_of_error ?_⟩
  have hsz : (mount (bootAt c (stale disk offset)) disk).root.sz = minusOne := rfl
  rw [writeInode, bind_of_ok inode_bootAt, hsz, if_neg (by decide)]
  refine bind_of_error ?_
  rw [writeLoop, if_pos (by decide), get_bind, bind_of_ok (divisor_mount hbpc), Nat.zero_div,
    Nat.zero_mod, bind_of_ok hb, bind_of_ok hl, get_bind]
  dsimp only
  have hmin : min (1 - 0) ((infoOf disk).bytesPerCluster - 0 % (infoOf disk).bytesPerCluster) = 1 := by
    rw [Nat.zero_mod, min_eq_left (by omega)]
  have hone : prefixLen (fun _ => true) 1 = 1 := rfl
  rw [Option.isSome_some, hmin, hone, Nat.zero_mod, access_eq (by decide), pure_bind, modify_bind]
  dsimp only
  rw [if_neg (by decide)]
  refine bind_of_error (bufWrite_foreign ⟨?_, ?_⟩ ht hc ?_)
  · exact ⟨hinfo.info, hinfo.firstDataSector, hinfo.sectorsPerCluster⟩
  · rw [BufferLayer.setBuf_self]
    exact hno
  · rw [BufferLayer.setBuf_self, hofs, hdisk]
    refine foreign_stale ?_ ?_ (fun j hj => ?_) hoff
    · exact hofs ▸ toInt32_sector_mod _
    · exact hofs ▸ sectorRange_le _
    · dsimp only
      rw [ByteMem.blit_of_not_mem (.inr (by omega)), hdata]

end Failing

def Sound (disk : ByteMem) : Prop :=
  ∀ (b : Boot) (ops : List FsOp) (e : GeometryFault),
    runOps (disk.readLE 32 4) ops (mount b disk) = .error e → IsHalt e

theorem sound_of_fits (h : Fits (infoOf disk) (disk.readLE 32 4)) : Sound disk := by
  intro b ops e he
  exact (Safe.runOps h ops (s := mount b disk) ⟨rfl, rfl, rfl⟩).1 e he

theorem not_sound_of_run {b : Boot} {op : FsOp} {e : GeometryFault} (he : ¬IsHalt e)
    (h : runOp (disk.readLE 32 4) op (mount b disk) = .error e) : ¬Sound disk := by
  intro hs
  exact he (hs b [op] e (bind_of_error h))

theorem bytesPerCluster_infoOf {k : ℕ} (hbps : disk.readLE 11 2 = 512)
    (hspc : disk.readLE 13 1 = 2 ^ k) : (infoOf disk).bytesPerCluster = 512 * 2 ^ k % 2 ^ 16 ∧
      (infoOf disk).sectorsPerCluster = 2 ^ k := by
  have h₁ : (infoOf disk).bytesPerCluster = disk.readLE 11 2 * disk.readLE 13 1 % 2 ^ 16 := rfl
  have h₂ : (infoOf disk).sectorsPerCluster = disk.readLE 13 1 := rfl
  rw [h₁, h₂, hbps, hspc]
  exact ⟨rfl, rfl⟩

/-- Clusters of the size 0 and clusters that are larger than a buffer. -/
theorem sectorsPerCluster_le_of_sound {k : ℕ} (hbps : disk.readLE 11 2 = 512) (hk : k ≤ 7)
    (hspc : disk.readLE 13 1 = 2 ^ k) (hs : Sound disk) :
    (infoOf disk).sectorsPerCluster ≤ 8 := by
  obtain ⟨hbpc, hn⟩ := bytesPerCluster_infoOf hbps hspc
  by_contra hgt
  rcases Nat.lt_or_eq_of_le hk with hlt | rfl
  · have hle : 2 ^ k ≤ 2 ^ 6 := Nat.pow_le_pow_right (by norm_num) (by omega)
    have hb : bsize = 4096 := rfl
    refine not_sound_of_run ?_ (read_outside (c := 2) (fun _ => 0) ?_ (by decide)) hs
    · rintro ⟨h, hh⟩
      cases hh
    · rw [hbpc, hb]
      generalize 2 ^ k = m at *
      omega
  · refine not_sound_of_run ?_ (read_division (c := 2) (fun _ => 0) hbpc) hs
    rintro ⟨h, hh⟩
    cases hh

/-- Clusters must not be larger than a buffer, and those of the volume must not be smaller. -/
theorem sound_iff {k : ℕ} (hbps : disk.readLE 11 2 = 512) (hk : k ≤ 7)
    (hspc : disk.readLE 13 1 = 2 ^ k) : Sound disk ↔ (infoOf disk).sectorsPerCluster ≤ 8 ∧
      ∀ c, (infoOf disk).DataCluster (disk.readLE 32 4) c → (infoOf disk).Placed c := by
  have ht : disk.readLE 32 4 < 2 ^ 32 := ByteMem.readLE_lt disk 32 4
  obtain ⟨hbpc, hn⟩ := bytesPerCluster_infoOf hbps hspc
  have hpos : 0 < 2 ^ k := Nat.two_pow_pos k
  have hmod : ∀ m, m ≤ 8 → 512 * m % 2 ^ 16 = 512 * m := fun m hm => Nat.mod_eq_of_lt (by omega)
  constructor
  · intro hs
    have hle := sectorsPerCluster_le_of_sound hbps hk hspc hs
    refine ⟨hle, fun c hc => ?_⟩
    by_contra hp
    have hne : (infoOf disk).bytesPerCluster ≠ 0 := by
      rw [hbpc, hmod _ (hn ▸ hle)]
      omega
    obtain ⟨data, hrun⟩ := write_neighbour ht hne (hn ▸ hpos) hc hp
    refine not_sound_of_run ?_ hrun hs
    rintro ⟨h, hh⟩
    cases hh
  · rintro ⟨hle, hplaced⟩
    have hb : bsize = 4096 := rfl
    have hsize : (infoOf disk).bytesPerCluster = 512 * 2 ^ k := by rw [hbpc, hmod _ (hn ▸ hle)]
    rw [hn] at hle
    exact sound_of_fits ⟨by omega, by omega, ht, hn ▸ hpos, hplaced⟩

theorem sound_oneFileDisk : Sound oneFileDisk := by
  refine (sound_iff (k := 3) (by decide +kernel) (by norm_num) (by decide +kernel)).mpr ?_
  rw [info_oneFile]
  refine ⟨le_refl 8, fun c hc => .inl ⟨le_refl 8, ?_⟩⟩
  have htotal : oneFileDisk.readLE 32 4 = 800 := by decide +kernel
  rw [htotal] at hc
  exact lt_of_le_of_lt (Nat.le_add_right _ _) (lt_of_le_of_lt hc.2.2 (by norm_num))

def clusterDisk (n : ℕ) : ByteMem :=
  let d : ByteMem := fun _ => 0
  let d := ((d.writeLE 11 2 512).writeLE 13 1 n).writeLE 14 2 1023
  let d := ((d.writeLE 16 1 1).writeLE 32 4 8192).writeLE 36 4 1
  let d := d.writeLE 44 4 3
  (d.writeLE (1023 * 512 + 12) 4 2).writeLE (1023 * 512 + 8) 4 endOfCluster

def faultOf {α : Type} (r : Except GeometryFault α) : Option GeometryFault :=
  match r with
  | .error e => some e
  | .ok _ => none

theorem eq_error_of_faultOf {α : Type} {m : Except GeometryFault α} {e : GeometryFault}
    (h : faultOf m = some e) : m = .error e := by
  cases m with
  | error e' =>
    cases h
    rfl
  | ok a => cases h

/-- The entry of the directory is stored in cluster 3 while a buffer has the bytes before it, and a
write to cluster 2 brings them back; a byte behind the buffer is read; the size of a cluster is
0. -/
theorem runs_of_clusterDisk :
    runOps 8192 [.read .root (fun _ => true) 512 1, .write .root (fun _ => some 0x41) 0 0,
      .write .root (fun _ => some 0x41) 512 1] (mount bootMemory (clusterDisk 1)) =
      .error (.neighbour 2) ∧
    runOps 8192 [.read .root (fun _ => true) 4096 1] (mount bootMemory (clusterDisk 16)) =
      .error (.outside 4096) ∧
    runOps 8192 [.read .root (fun _ => true) 0 1] (mount bootMemory (clusterDisk 128)) =
      .error .division :=
  ⟨eq_error_of_faultOf (by decide +kernel), eq_error_of_faultOf (by decide +kernel),
    eq_error_of_faultOf (by decide +kernel)⟩

/-- None of these sizes is right. -/
theorem not_sound_clusterDisk :
    ¬Sound (clusterDisk 1) ∧ ¬Sound (clusterDisk 16) ∧ ¬Sound (clusterDisk 128) := by
  have htotal : (clusterDisk 1).readLE 32 4 = 8192 ∧ (clusterDisk 16).readLE 32 4 = 8192 ∧
      (clusterDisk 128).readLE 32 4 = 8192 := by decide +kernel
  obtain ⟨h₁, h₂, h₃⟩ := runs_of_clusterDisk
  refine ⟨fun hs => ?_, fun hs => ?_, fun hs => ?_⟩
  · obtain ⟨h, hh⟩ := hs _ _ _ (htotal.1 ▸ h₁)
    cases hh
  · obtain ⟨h, hh⟩ := hs _ _ _ (htotal.2.1 ▸ h₂)
    cases hh
  · obtain ⟨h, hh⟩ := hs _ _ _ (htotal.2.2 ▸ h₃)
    cases hh

end GeometryM

end StartOS
