import StartOS.Fs.BufferSpec
import StartOS.Fs.FatBmap

/-! # Where the bytes of a cluster are

As long as the data area ends below byte `2 ^ 31` of the device, every path to
the disk (buffers, `ZeroCluster`, `UpdateInode`) agrees on where a cluster lies.
-/

namespace StartOS

variable {info : Fat32Info}

def Fat32Info.clusterAddr (info : Fat32Info) (c : ℕ) : ℕ :=
  info.firstDataSector * 512 + (c - 2) * 4096

/-- A data cluster that ends below byte `2 ^ 31`. -/
structure Fat32Info.InRange (info : Fat32Info) (c : ℕ) : Prop where
  two_le : 2 ≤ c
  lt : info.clusterAddr c + 4096 < 2 ^ 31

def Fat32Info.InCluster (info : Fat32Info) (c x : ℕ) : Prop :=
  info.clusterAddr c ≤ x ∧ x < info.clusterAddr c + 4096

theorem Fat32Info.InCluster.eq {c d x : ℕ} (hc : info.InCluster c x) (hd : info.InCluster d x)
    (hc2 : 2 ≤ c) (hd2 : 2 ≤ d) : c = d := by
  have h₁ := hc.1; have h₂ := hc.2; have h₃ := hd.1; have h₄ := hd.2
  simp only [Fat32Info.clusterAddr] at h₁ h₂ h₃ h₄
  omega

/-- The buffer layer has been given the geometry of the volume. -/
structure BufferLayer.Matches (l : BufferLayer) (info : Fat32Info) : Prop where
  firstDataSector : l.firstDataSector = info.firstDataSector
  sectorsPerCluster : l.sectorsPerCluster = 8

theorem BufferLayer.offsetOf_eq {l : BufferLayer} {c : ℕ} (h : l.Matches info)
    (hc : info.InRange c) : l.offsetOf c = info.clusterAddr c := by
  have h₁ := hc.two_le
  have h₂ := hc.lt
  simp only [Fat32Info.clusterAddr] at h₂ ⊢
  have hs : l.firstSectorOfCluster c = info.firstDataSector + (c - 2) * 8 := by
    rw [firstSectorOfCluster, h.firstDataSector, h.sectorsPerCluster]
    omega
  rw [offsetOf, hs, toInt32_of_lt (by omega) (by omega)]
  omega

namespace Fat32FileSystem

open Hoare

variable {s : Fat32FileSystem} {disk data : ByteMem} {c x : ℕ}

theorem storeSector_eq {k : ℕ} (hk : k * 512 + 512 < 2 ^ 31) :
    storeSector data disk k = disk.blit (k * 512) 512 data := by
  have h₁ : toInt32 (k : ℤ) = k := toInt32_of_lt (by omega) (by omega)
  have h₂ : toInt32 ((k : ℤ) * (sectorSize : ℕ)) = ((k * 512 : ℕ) : ℤ) := by
    simp only [sectorSize]
    rw [toInt32_of_lt (by omega) (by omega)]
    push_cast
    rfl
  rw [storeSector, h₁, h₂]
  exact rwDevWrite_eq (n := 512) hk (by omega) rfl

theorem rwDevRead_sector {k : ℕ} (hk : k * 512 + 512 < 2 ^ 31) (i : ℕ) :
    rwDevRead disk (toInt32 (toInt32 (k : ℤ) * (512 : ℕ))) 512 data i =
      if i < 512 then disk (k * 512 + i) else data i := by
  have h₁ : toInt32 (k : ℤ) = k := toInt32_of_lt (by omega) (by omega)
  have h₂ : toInt32 ((k : ℤ) * (512 : ℕ)) = ((k * 512 : ℕ) : ℤ) := by
    rw [toInt32_of_lt (by omega) (by omega)]
    push_cast
    rfl
  rw [h₁, h₂]
  exact rwDevRead_eq hk (by omega) rfl i

theorem firstSectorOfCluster_eq (hg : s.info.Geometry) (hc : s.info.InRange c) :
    s.firstSectorOfCluster c = s.info.firstDataSector + (c - 2) * 8 := by
  have h₁ := hc.two_le
  have h₂ := hc.lt
  simp only [Fat32Info.clusterAddr] at h₂
  rw [firstSectorOfCluster, hg.sectorsPerCluster]
  omega

theorem clearSectors_eq {first n : ℕ} (h : (first + n) * 512 < 2 ^ 31) (disk : ByteMem) :
    (List.range n).foldl (fun d i => storeSector (fun _ => 0) d (first + i)) disk =
      disk.fill (first * 512) (n * 512) 0 := by
  induction n with
  | zero =>
    funext x
    rw [ByteMem.fill_of_not_mem (by omega)]
    rfl
  | succ n ih =>
    have hsum : (first + (n + 1)) * 512 = (first + n) * 512 + 512 := by ring
    have hk : (first + n) * 512 + 512 < 2 ^ 31 := hsum ▸ h
    have hn : (first + n) * 512 < 2 ^ 31 := lt_of_le_of_lt (Nat.le_add_right _ _) hk
    rw [List.range_succ, List.foldl_append, ih hn]
    simp only [List.foldl_cons, List.foldl_nil, storeSector_eq hk]
    funext x
    by_cases hx : (first + n) * 512 ≤ x ∧ x < (first + n) * 512 + 512
    · rw [ByteMem.blit_of_mem hx.1 hx.2, ByteMem.fill_of_mem (by omega) (by omega)]
    · rw [ByteMem.blit_of_not_mem (by omega)]
      by_cases hx' : first * 512 ≤ x ∧ x < first * 512 + n * 512
      · rw [ByteMem.fill_of_mem hx'.1 hx'.2, ByteMem.fill_of_mem hx'.1 (by omega)]
      · rw [ByteMem.fill_of_not_mem (by omega), ByteMem.fill_of_not_mem (by omega)]

theorem clearCluster_eq (hg : s.info.Geometry) (hc : s.info.InRange c) :
    s.clearCluster disk c = disk.fill (s.info.clusterAddr c) 4096 0 := by
  have h₂ := hc.lt
  simp only [Fat32Info.clusterAddr] at h₂
  have hsum : (s.info.firstDataSector + (c - 2) * 8 + 8) * 512 < 2 ^ 31 := by omega
  have haddr : (s.info.firstDataSector + (c - 2) * 8) * 512 = s.info.clusterAddr c := by
    rw [Fat32Info.clusterAddr]
    omega
  rw [clearCluster, hg.sectorsPerCluster, firstSectorOfCluster_eq hg hc, clearSectors_eq hsum,
    haddr]

theorem foldl_clearCluster_of_not_mem (hg : s.info.Geometry) {l : List ℕ}
    (hl : ∀ c ∈ l, s.info.InRange c) (hx : ∀ c ∈ l, ¬ s.info.InCluster c x) (disk : ByteMem) :
    l.foldl s.clearCluster disk x = disk x := by
  induction l generalizing disk with
  | nil => rfl
  | cons c l ih =>
    rw [List.foldl_cons, ih (fun d hd => hl d (by simp [hd])) (fun d hd => hx d (by simp [hd])),
      clearCluster_eq hg (hl c (by simp)), ByteMem.fill_of_not_mem]
    have := hx c (by simp)
    simp only [Fat32Info.InCluster] at this
    omega

/-- `UpdateInode` stores the 32 bytes of the entry at its position and nothing else. -/
theorem updateInode_eq {r : InodeRef} {ip : Inode} (hg : s.info.FatGeometry)
    (hip : s.inode? r = some ip) (hpos : ip.iPos % 512 + 32 ≤ 512)
    (hlt : ip.iPos / 512 * 512 + 512 < 2 ^ 31) :
    updateInode r s = .ok ((), { s with
      stampNo := s.stampNo + 1
      disk := s.disk.blit ip.iPos 32 (inodeEntry ip (s.stamps s.stampNo)) }) := by
  set t := s.stamps s.stampNo with ht
  set s₁ : Fat32FileSystem := { s with stampNo := s.stampNo + 1 } with hs₁
  set k := ip.iPos / 512 with hk
  have hk512 : k * 512 + 512 < 2 ^ 31 := by omega
  have hstamp : stamp s = .ok (t, s₁) := rfl
  have hip' : s₁.inode? r = some ip := by cases r <;> exact hip
  have hread : readSector k s.junk s₁ = .ok (fun i => if i < 512 then s.disk (k * 512 + i)
      else s.junk i, s₁) := by
    have hb : s₁.info.bytesPerSector = 512 := hg.bytesPerSector
    simp only [readSector, get_bind, hb, pure_apply]
    exact congrArg (fun d => Except.ok (d, s₁)) (funext fun i => rwDevRead_sector hk512 i)
  have hrun : updateInode r s = writeSector k (ByteMem.blit (fun i => if i < 512 then
      s.disk (k * 512 + i) else s.junk i) (ip.iPos % 512) 32 (inodeEntry ip t)) s₁ := by
    have hb : s₁.info.bytesPerSector = 512 := hg.bytesPerSector
    rw [updateInode, bind_of_ok hstamp, get_bind, bind_of_ok (inode_eq hip')]
    simp only [hb]
    rw [bind_of_ok hread]
  rw [hrun, writeSector, modify_apply, storeSector_eq hk512]
  refine congrArg (fun d => Except.ok ((), { s₁ with disk := d })) (funext fun x => ?_)
  by_cases hx : k * 512 ≤ x ∧ x < k * 512 + 512
  · rw [ByteMem.blit_of_mem hx.1 hx.2]
    by_cases hx' : ip.iPos ≤ x ∧ x < ip.iPos + 32
    · rw [ByteMem.blit_of_mem (by omega) (by omega), ByteMem.blit_of_mem hx'.1 hx'.2]
      congr 1
      omega
    · rw [ByteMem.blit_of_not_mem (by omega), ByteMem.blit_of_not_mem (by omega),
        if_pos (by omega)]
      congr 1
      omega
  · rw [ByteMem.blit_of_not_mem (by omega), ByteMem.blit_of_not_mem (by omega)]

end Fat32FileSystem

end StartOS
