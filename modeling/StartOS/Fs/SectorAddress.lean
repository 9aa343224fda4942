import StartOS.Fs.EntryFrame
import StartOS.Fs.FatEntry

/-! # From sectors to the device

A sector number becomes a byte offset in an `int`, and the driver divides it
again. The last sector this works for is the one before the last that starts
below byte `2 ^ 31`; a cluster has to end before that byte.
-/

namespace StartOS

/-- The devices behind `RwDevRead` and `RwDevWrite`. A standard SD card is addressed in bytes. -/
inductive RwDevice
  | virtioDisk
  | sdCard (standard : Bool)
  deriving DecidableEq, Repr

namespace RwDevice

/-- What the device gets for a sector number: the sector of a `virtio_blk_req`, the argument of
`SD_CMD17` or `SD_CMD24`. -/
def address : RwDevice → ℤ → ℕ
  | .virtioDisk, sectorno => (sectorno % 2 ^ 64).toNat
  | .sdCard true, sectorno => (sectorno * 512 % 2 ^ 32).toNat
  | .sdCard false, sectorno => (sectorno % 2 ^ 32).toNat

def sectorAt : RwDevice → ℕ → ℕ
  | .sdCard true, address => address / 512
  | _, address => address

/-- The sectors that `VirtioDisk` and `SdCard` go through to read or write `n` bytes. -/
def sectors (d : RwDevice) (offset : ℤ) (n : ℕ) : List ℕ :=
  if n % 512 ≠ 0 ∨ offset % 512 ≠ 0 then []
  else (List.range (sectorRange offset n).2).map fun i : ℕ =>
    d.sectorAt (d.address ((sectorRange offset n).1 + i))

variable {disk buf : ByteMem} {o : ℤ} {n i k : ℕ}

theorem rwDevRead_eq_sectors : rwDevRead disk o n buf i =
    match (virtioDisk.sectors o n)[i / 512]? with
    | some k => disk (k * 512 + i % 512)
    | none => buf i := by
  rw [rwDevRead, sectors]
  split
  · rfl
  · rw [List.getElem?_map]
    by_cases hi : i < 512 * (sectorRange o n).2
    · rw [List.getElem?_range (by omega)]
      exact if_pos hi
    · rw [List.getElem?_eq_none (by rw [List.length_range]; omega)]
      exact if_neg hi

theorem rwDevWrite_of_not_mem {x : ℕ} (h : x / 512 ∉ virtioDisk.sectors o n) :
    rwDevWrite disk o n buf x = disk x := by
  rw [rwDevWrite]
  split
  · rfl
  · rename_i haligned
    rw [sectors, if_neg haligned] at h
    refine if_neg ?_
    rintro ⟨hx, hk⟩
    refine h (List.mem_map.mpr ⟨_, List.mem_range.mpr hk, ?_⟩)
    change (((sectorRange o n).1 + _) % 2 ^ 64).toNat = x / 512
    omega

theorem sectorAt_address (d : RwDevice) (hk : k < 2 ^ 22) : d.sectorAt (d.address k) = k := by
  cases d with
  | virtioDisk =>
    change ((k : ℤ) % 2 ^ 64).toNat = k
    omega
  | sdCard standard =>
    cases standard with
    | false =>
      change ((k : ℤ) % 2 ^ 32).toNat = k
      omega
    | true =>
      change ((k : ℤ) * 512 % 2 ^ 32).toNat / 512 = k
      omega

theorem sectors_one (d : RwDevice) (hk : k + 1 < 2 ^ 22) :
    d.sectors (toInt32 (512 * k : ℕ)) 512 = [k] := by
  have ho : toInt32 (512 * k : ℕ) = (512 * k : ℕ) := toInt32_of_lt (by omega) (by omega)
  have hone : List.range (512 / 512) = [0] := rfl
  rw [ho, sectors, if_neg (by omega), sectorRange_of_lt (by omega) (by omega) (by omega), hone,
    Nat.mul_div_cancel_left k (by decide), List.map_singleton]
  exact congrArg (fun j => [j]) (d.sectorAt_address (by omega))

end RwDevice

/-- The sectors of a cluster of the volume begin with sector `k`. -/
structure Fat32Info.BeginsAt (info : Fat32Info) (c k : ℕ) : Prop where
  two_le : 2 ≤ c
  lt : c < 2 ^ 32
  sector : info.firstDataSector + (c - 2) * info.sectorsPerCluster = k

structure BufferLayer.Knows (b : BufferLayer) (info : Fat32Info) : Prop where
  firstDataSector : b.firstDataSector = info.firstDataSector
  sectorsPerCluster : b.sectorsPerCluster = info.sectorsPerCluster

namespace Fat32FileSystem

open Hoare

/-- Every way from sector `k`, or from a cluster that begins there, to the device ends at the bytes
of the sector, on every volume with the numbers of `s`. -/
structure SectorExact (s : Fat32FileSystem) (k : ℕ) : Prop where
  device : ∀ d : RwDevice,
    d.sectors (toInt32 (s.info.bytesPerSector * k : ℕ)) s.info.bytesPerSector = [k]
  readSector : ∀ t data, t.info = s.info → ∃ out, readSector k data t = .ok (out, t) ∧
    ∀ i, out i = if i < t.info.bytesPerSector then t.disk (t.info.bytesPerSector * k + i) else data i
  writeSector : ∀ t data, t.info = s.info → ∃ t', writeSector k data t = .ok ((), t') ∧
    t'.disk = t.disk.blit (t.info.bytesPerSector * k) t.info.bytesPerSector data
  bufferRead : ∀ (b b' : BufferLayer) (c : ℕ) (disk : ByteMem) (dev : ℤ) (i : ℕ),
    b.Knows s.info → s.info.BeginsAt c k → b.allocBuffer dev (toInt32 c) = .ok (i, b') →
      (b'.bufCache i).valid = false → ∃ b'', b.read disk dev c = .ok (i, b'') ∧
        ∀ x, (b''.bufCache i).data x =
          if x < bsize then disk (s.info.bytesPerSector * k + x) else (b'.bufCache i).data x
  bufferWrite : ∀ (b : BufferLayer) (c : ℕ) (disk : ByteMem) (i : ℕ),
    b.Knows s.info → s.info.BeginsAt c k → (b.bufCache i).blockno = toInt32 c →
      b.write disk i = disk.blit (s.info.bytesPerSector * k) bsize (b.bufCache i).data
  lookup : ∀ t t' dir (g : Scanned) c, t.info = s.info → s.info.BeginsAt c k →
    bmap dir ((g.off - 32) / t.info.bytesPerCluster % 2 ^ 32) t = .ok (c, t') → entryPos dir g t =
      .ok (s.info.bytesPerSector * k + (g.off - 32) % t.info.bytesPerCluster, t')
  updateInode : ∀ t r ip, t.info = s.info → t.inode? r = some ip →
    ip.iPos / t.info.bytesPerSector = k →
      ip.iPos % t.info.bytesPerSector + 32 ≤ t.info.bytesPerSector →
        ∃ t', updateInode r t = .ok ((), t') ∧
          t'.disk = t.disk.blit ip.iPos 32 (inodeEntry ip (t.stamps t.stampNo))

/-- The sectors that can be reached: those that end below byte `2 ^ 31`, by one byte at least; and
where a cluster begins, the 4096 bytes of a buffer have to end there too. -/
structure Reachable (s : Fat32FileSystem) (k : ℕ) : Prop where
  bytesPerSector : s.info.bytesPerSector = 512
  sector : k + 1 < 2 ^ 22
  cluster : ∀ c, s.info.BeginsAt c k → k + 8 < 2 ^ 22

variable {s t t' : Fat32FileSystem} {k c i : ℕ} {data disk : ByteMem}

section Exact

theorem toInt32_mul (hk : k + 1 < 2 ^ 22) :
    toInt32 (toInt32 k * (512 : ℕ)) = (512 * k : ℕ) := by
  rw [toInt32_of_lt (x := k) (by omega) (by omega)]
  rw [toInt32_of_lt (by omega) (by omega)]
  omega

theorem readSector_exact (hb : t.info.bytesPerSector = 512) (hk : k + 1 < 2 ^ 22) :
    ∃ out, readSector k data t = .ok (out, t) ∧
      ∀ i, out i = if i < 512 then t.disk (512 * k + i) else data i := by
  refine ⟨_, rfl, fun i => ?_⟩
  rw [hb, toInt32_mul hk]
  exact rwDevRead_eq (by omega) (by omega) (by decide) i

theorem writeSector_disk (hrun : writeSector k data t = .ok ((), t')) :
    t'.disk = storeSector data t.disk k := by
  rw [writeSector, modify_apply, Except.ok.injEq, Prod.mk.injEq] at hrun
  rw [← hrun.2]

theorem storeSector_exact (hk : k + 1 < 2 ^ 22) :
    storeSector data disk k = disk.blit (512 * k) 512 data := by
  rw [storeSector_eq (by omega), Nat.mul_comm]

/-- The disk after a sector of ones is stored on a volume of zeros shows where it went. -/
theorem sector_eq_of_store {n a : ℕ} (hn : 0 < n)
    (h : storeSector (fun _ => 1) (fun _ => 0) k = ByteMem.blit (fun _ => 0) a n fun _ => 1) :
    n = 512 ∧ a = sectorOf (toInt32 (toInt32 k * (512 : ℕ))) * 512 ∧
      toInt32 (toInt32 k * (512 : ℕ)) ≠ lastSector := by
  have hoff : SectorOffset (toInt32 (toInt32 k * (512 : ℕ))) := sectorOffset_toInt32 _
  have hstore : storeSector (fun _ => 1) (fun _ => 0) k =
      rwDevWrite (fun _ => 0) (toInt32 (toInt32 k * (512 : ℕ))) 512 fun _ => 1 := rfl
  rw [hstore] at h
  generalize toInt32 (toInt32 k * (512 : ℕ)) = o at hoff h ⊢
  by_cases hlast : o = lastSector
  · have ha := congrFun h a
    rw [hlast, rwDevWrite_lastSector, ByteMem.blit_of_mem (Nat.le_refl a) (by omega)] at ha
    exact absurd ha (by decide)
  · rw [hoff.rwDevWrite_eq hlast] at h
    have hiff : ∀ x, (sectorOf o * 512 ≤ x ∧ x < sectorOf o * 512 + 512) ↔ (a ≤ x ∧ x < a + n) := by
      intro x
      have hx := congrFun h x
      rw [ByteMem.blit, ByteMem.blit] at hx
      split at hx
      · rename_i hin
        split at hx
        · rename_i hin'
          exact iff_of_true hin hin'
        · exact absurd hx (by decide)
      · rename_i hout
        split at hx
        · exact absurd hx (by decide)
        · rename_i hout'
          exact iff_of_false hout hout'
    have h₁ := hiff (sectorOf o * 512)
    have h₂ := hiff (sectorOf o * 512 + 511)
    have h₃ := hiff a
    have h₄ := hiff (a + n - 1)
    exact ⟨by omega, by omega, hlast⟩

theorem firstSectorOfCluster_beginsAt (hc : t.info.BeginsAt c k) (hk : k < 2 ^ 32) :
    t.firstSectorOfCluster c = k := by
  obtain ⟨h₂, hlt, hsec⟩ := hc
  rw [firstSectorOfCluster, show (c + 2 ^ 32 - 2) % 2 ^ 32 = c - 2 by omega, hsec,
    Nat.mod_eq_of_lt hk]

theorem offsetOf_beginsAt {b : BufferLayer} {info : Fat32Info} (hb : b.Knows info)
    (hc : info.BeginsAt c k) (hk : k < 2 ^ 22) : b.offsetOf c = (512 * k : ℕ) := by
  obtain ⟨h₂, hlt, hsec⟩ := hc
  rw [BufferLayer.offsetOf, BufferLayer.firstSectorOfCluster, hb.firstDataSector,
    hb.sectorsPerCluster, show (c + 2 ^ 32 - 2) % 2 ^ 32 = c - 2 by omega, hsec,
    Nat.mod_eq_of_lt (by omega), toInt32_of_lt (by omega) (by omega)]
  omega

theorem rwDevWrite_overflow {buf : ByteMem} (hk : k < 2 ^ 22) (hend : 2 ^ 22 ≤ k + 8) :
    rwDevWrite disk (512 * k : ℕ) bsize buf = disk := by
  have hnone : (sectorRange (512 * k : ℕ) bsize).2 = 0 := by
    have hle : -2 ^ 31 ≤ toInt32 ((512 * k : ℕ) + (bsize : ℕ)) := Int.le_bmod (by decide)
    have hlt : toInt32 ((512 * k : ℕ) + (bsize : ℕ)) < 2 ^ 31 := Int.bmod_lt (by decide)
    have hmod : toInt32 ((512 * k : ℕ) + (bsize : ℕ)) % 2 ^ 32 =
        ((512 * k : ℕ) + (bsize : ℕ) : ℤ) % 2 ^ 32 := Int.bmod_emod
    rw [sectorRange]
    generalize toInt32 ((512 * k : ℕ) + (bsize : ℕ)) = z at hle hlt hmod ⊢
    rw [bsize] at hmod
    simp only
    omega
  funext x
  rw [rwDevWrite, if_neg (by rw [bsize]; omega), hnone]
  exact if_neg fun hx => absurd hx.2 (Nat.not_lt_zero _)

theorem allocBuffer_knows {b b' : BufferLayer} {info : Fat32Info} {dev blockno : ℤ}
    (hb : b.Knows info) (h : b.allocBuffer dev blockno = .ok (i, b')) : b'.Knows info := by
  rcases BufferLayer.allocBuffer_cases h with ⟨-, -, rfl⟩ | ⟨-, -, rfl⟩
  · exact ⟨hb.firstDataSector, hb.sectorsPerCluster⟩
  · exact ⟨hb.firstDataSector, hb.sectorsPerCluster⟩

theorem bufferRead_exact {b b' : BufferLayer} {info : Fat32Info} {dev : ℤ} (hb : b.Knows info)
    (hc : info.BeginsAt c k) (hk : k + 8 < 2 ^ 22) (h : b.allocBuffer dev (toInt32 c) = .ok (i, b'))
    (hv : (b'.bufCache i).valid = false) : ∃ b'', b.read disk dev c = .ok (i, b'') ∧
      ∀ x, (b''.bufCache i).data x =
        if x < bsize then disk (512 * k + x) else (b'.bufCache i).data x := by
  refine ⟨_, BufferLayer.read_of_alloc h, fun x => ?_⟩
  rw [BufferLayer.setBuf_self, hv, offsetOf_beginsAt (allocBuffer_knows hb h) hc (by omega)]
  simp only [Bool.false_eq_true, if_false]
  exact rwDevRead_eq (by rw [bsize]; omega) (by omega) (by decide) x

theorem bufferWrite_exact {b : BufferLayer} {info : Fat32Info} (hb : b.Knows info)
    (hc : info.BeginsAt c k) (hk : k < 2 ^ 22) (hi : (b.bufCache i).blockno = toInt32 c) :
    b.write disk i = rwDevWrite disk (512 * k : ℕ) bsize (b.bufCache i).data := by
  have hblock : ((b.bufCache i).blockno % 2 ^ 32).toNat = c := by
    have hmod : toInt32 c % 2 ^ 32 = (c : ℤ) % 2 ^ 32 := Int.bmod_emod
    have hlt := hc.lt
    rw [hi, hmod]
    omega
  rw [BufferLayer.write, hblock, offsetOf_beginsAt hb hc hk]

theorem entryPos_exact {dir : InodeRef} {g : Scanned} (hc : t.info.BeginsAt c k) (hk : k < 2 ^ 23)
    (hrun : bmap dir ((g.off - 32) / t.info.bytesPerCluster % 2 ^ 32) t = .ok (c, t')) :
    entryPos dir g t = .ok (512 * k + (g.off - 32) % t.info.bytesPerCluster, t') := by
  have hinfo : t'.info = t.info := bmap_keeps_of (r := dir) (I := fun u => u.info = t.info)
    (fun _ _ _ h => h) (fun u ip _ _ _ h => (info_setInode u dir _).trans h) _ rfl hrun
  rw [entryPos, get_bind, bind_of_ok hrun, get_bind,
    firstSectorOfCluster_beginsAt (hinfo ▸ hc) (by omega), sectorSize, pure_apply,
    Nat.mod_eq_of_lt (by omega), Nat.mul_comm]

theorem updateInode_exact {r : InodeRef} {ip : Inode} (hb : t.info.bytesPerSector = 512)
    (hip : t.inode? r = some ip) (hk : ip.iPos / 512 + 1 < 2 ^ 22) (hpos : ip.iPos % 512 + 32 ≤ 512) :
    ∃ t', updateInode r t = .ok ((), t') ∧
      t'.disk = t.disk.blit ip.iPos 32 (inodeEntry ip (t.stamps t.stampNo)) := by
  obtain ⟨t', hrun, hdisk⟩ := updateInode_disk hb hip hpos
  have hlast : storeOffset ip ≠ lastSector := by
    rw [storeOffset, toInt32_mul hk, lastSector]
    omega
  rw [if_neg hlast, storeAddr_eq (by omega)] at hdisk
  exact ⟨t', hrun, hdisk⟩

end Exact

theorem SectorExact.sector (h : SectorExact s k) : s.info.bytesPerSector = 512 ∧ k + 1 < 2 ^ 22 := by
  -- the 32-bit address of a card bounds the sector, and one of no bytes has none
  have hlt : k < 2 ^ 32 := by
    have hcard := h.device (.sdCard false)
    rw [RwDevice.sectors] at hcard
    split at hcard
    · cases hcard
    · have hmem := List.mem_singleton_self k
      rw [← hcard] at hmem
      obtain ⟨j, -, hj⟩ := List.mem_map.mp hmem
      simp only [RwDevice.sectorAt, RwDevice.address] at hj
      omega
  have hpos : 0 < s.info.bytesPerSector := by
    by_contra hzero
    have hcard := h.device (.sdCard false)
    rw [show s.info.bytesPerSector = 0 by omega, RwDevice.sectors] at hcard
    split at hcard
    · cases hcard
    · have hnone : (sectorRange (toInt32 (0 * k : ℕ)) 0).2 = 0 := by
        rw [Nat.zero_mul]
        decide
      rw [hnone] at hcard
      cases hcard
  have hstore : storeSector (fun _ => 1) (fun _ => 0) k = ByteMem.blit (fun _ => 0)
      (s.info.bytesPerSector * k) s.info.bytesPerSector fun _ => 1 := by
    obtain ⟨t', hrun, hdisk⟩ := h.writeSector { s with disk := fun _ => 0 } (fun _ => 1) rfl
    rw [writeSector_disk hrun] at hdisk
    exact hdisk
  obtain ⟨h512, ha, hlast⟩ := sector_eq_of_store hpos hstore
  have hoff : SectorOffset (toInt32 (toInt32 k * (512 : ℕ))) := sectorOffset_toInt32 _
  rw [lastSector] at hlast
  rw [sectorOf] at ha
  rw [h512] at ha
  obtain ⟨h₁, h₂, h₃⟩ := hoff
  generalize toInt32 (toInt32 k * (512 : ℕ)) = o at ha hlast h₁ h₂ h₃
  constructor
  · exact h512
  · omega

def onesLayer (info : Fat32Info) (c : ℕ) : BufferLayer where
  bufCache _ := ⟨true, 0, toInt32 c, 0, false, 0, fun _ => 1⟩
  firstDataSector := info.firstDataSector
  sectorsPerCluster := info.sectorsPerCluster
  ticks _ := 0
  now := 0

/-- A sector and the cluster that begins there are addressed exactly when they can be reached. -/
theorem sectorExact_iff (s : Fat32FileSystem) (k : ℕ) : SectorExact s k ↔ Reachable s k := by
  constructor
  · intro h
    obtain ⟨hb, hk⟩ := h.sector
    refine ⟨hb, hk, fun c hc => ?_⟩
    by_contra hend
    have hknows : (onesLayer s.info c).Knows s.info := ⟨rfl, rfl⟩
    have hblock : ((onesLayer s.info c).bufCache 0).blockno = toInt32 c := by rw [onesLayer]
    have hwrite := h.bufferWrite (onesLayer s.info c) c (fun _ => 0) 0 hknows hc hblock
    rw [bufferWrite_exact hknows hc (by omega) hblock,
      rwDevWrite_overflow (by omega) (by omega)] at hwrite
    have hzero := congrFun hwrite (s.info.bytesPerSector * k)
    rw [ByteMem.blit_of_mem (Nat.le_refl _) (by rw [bsize]; omega)] at hzero
    have hne : (0 : UInt8) ≠ 1 := by decide
    exact hne hzero
  · rintro ⟨hb, hk, hcl⟩
    constructor
    · intro d
      rw [hb]
      exact d.sectors_one hk
    · intro t data ht
      rw [ht, hb]
      exact readSector_exact (ht ▸ hb) hk
    · intro t data ht
      have hrun : writeSector k data t = .ok ((), { t with disk := storeSector data t.disk k }) := rfl
      refine ⟨_, hrun, ?_⟩
      rw [writeSector_disk hrun, storeSector_exact hk, ht, hb]
    · intro b b' c disk dev i hbuf hc halloc hv
      rw [hb]
      exact bufferRead_exact hbuf hc (hcl c hc) halloc hv
    · intro b c disk i hbuf hc hi
      rw [bufferWrite_exact hbuf hc (by omega) hi, hb]
      have := hcl c hc
      exact rwDevWrite_eq (by rw [bsize]; omega) (by omega) (by decide)
    · intro t t' dir g c ht hc hrun
      rw [hb]
      exact entryPos_exact (ht ▸ hc) (by omega) hrun
    · intro t r ip ht hip hsec hpos
      rw [ht, hb] at hsec hpos
      exact updateInode_exact (ht ▸ hb) hip (by omega) hpos

/-- The sector at 2 GiB of a volume is asked for under another number. -/
theorem not_sectorExact_far : ¬SectorExact oneFile (2 ^ 22) := by
  intro h
  have hdev := h.device .virtioDisk
  rw [show oneFile.info.bytesPerSector = 512 by decide +kernel] at hdev
  exact absurd hdev (by decide)

end Fat32FileSystem

end StartOS
