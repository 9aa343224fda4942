import StartOS.Fs.Coherence

/-! # What `UpdateInode` changes

`UpdateInode` builds a directory entry from the inode and stores it over the one
on the disk. The name it stores has one byte more than the inode keeps, so the
byte that follows becomes the attribute, and the byte behind the attribute is
the one that was on the stack. The inode of the root has the position of its own
data. This module says for which inodes the store keeps all but the fields that
are meant to change.
-/

namespace StartOS

section Sector

variable {disk buf : ByteMem} {o : ℤ}

def sectorOf (o : ℤ) : ℕ := (o / 512 % 2 ^ 64).toNat

/-- The last sector below byte `2 ^ 31`. The end of a transfer there is not an `int`, and nothing
is moved. -/
def lastSector : ℤ := 2 ^ 31 - 512

/-- The offset of a sector is an `int`. -/
structure SectorOffset (o : ℤ) : Prop where
  le : -2 ^ 31 ≤ o
  lt : o < 2 ^ 31
  aligned : o % 512 = 0

theorem sectorOffset_toInt32 (z : ℤ) : SectorOffset (toInt32 (z * (512 : ℕ))) := by
  refine ⟨?_, ?_, ?_⟩
  · exact Int.le_bmod (by decide)
  · exact Int.bmod_lt (by decide)
  · have hmod : toInt32 (z * (512 : ℕ)) % 2 ^ 32 = z * (512 : ℕ) % 2 ^ 32 := Int.bmod_emod
    omega

namespace SectorOffset

variable (h : SectorOffset o)
include h

theorem sectorRange_eq (ho : o ≠ lastSector) : sectorRange o 512 = (o / 512, 1) := by
  obtain ⟨hle, hlt, hmod⟩ := h
  rw [lastSector] at ho
  have hend : toInt32 (o + (512 : ℕ)) = o + 512 := toInt32_of_lt (by omega) (by omega)
  rw [sectorRange, hend]
  exact Prod.ext rfl (by simp only; omega)

theorem rwDevRead_eq (ho : o ≠ lastSector) (i : ℕ) :
    rwDevRead disk o 512 buf i = if i < 512 then disk (sectorOf o * 512 + i) else buf i := by
  rw [rwDevRead, if_neg (by have := h.aligned; omega), h.sectorRange_eq ho]
  by_cases hi : i < 512
  · rw [if_pos (by simpa using hi), if_pos hi, Nat.div_eq_of_lt hi, Nat.mod_eq_of_lt hi]
    simp [sectorOf]
  · rw [if_neg (by simpa using hi), if_neg hi]

theorem rwDevWrite_eq (ho : o ≠ lastSector) :
    rwDevWrite disk o 512 buf = disk.blit (sectorOf o * 512) 512 buf := by
  funext x
  rw [rwDevWrite, if_neg (by have := h.aligned; omega), h.sectorRange_eq ho, ByteMem.blit]
  have hiff : x / 512 < 2 ^ 64 ∧ (((x / 512 : ℕ) - o / 512 : ℤ) % 2 ^ 64).toNat < 1 ↔
      sectorOf o * 512 ≤ x ∧ x < sectorOf o * 512 + 512 := by
    rw [sectorOf]
    omega
  by_cases hx : sectorOf o * 512 ≤ x ∧ x < sectorOf o * 512 + 512
  · have hcell : 512 * (((x / 512 : ℕ) - o / 512 : ℤ) % 2 ^ 64).toNat + x % 512 =
        x - sectorOf o * 512 := by
      rw [sectorOf] at hx ⊢
      omega
    exact (if_pos (hiff.mpr hx)).trans ((congrArg buf hcell).trans (if_pos hx).symm)
  · exact (if_neg fun h => hx (hiff.mp h)).trans (if_neg hx).symm

end SectorOffset

theorem rwDevWrite_lastSector : rwDevWrite disk lastSector 512 buf = disk := by
  funext x
  rw [rwDevWrite, if_neg (by decide)]
  have hnone : (sectorRange lastSector 512).2 = 0 := by decide
  simp [hnone]

end Sector

namespace Fat32FileSystem

open Hoare

variable {s s' : Fat32FileSystem} {r : InodeRef} {ip : Inode} {t : Stamp} {disk disk' : ByteMem}
  {k : ℕ}

/-- The byte offset `UpdateInode` gives to the driver. -/
def storeOffset (ip : Inode) : ℤ := toInt32 (toInt32 (ip.iPos / 512 : ℕ) * (512 : ℕ))

def storeAddr (ip : Inode) : ℕ := sectorOf (storeOffset ip) * 512 + ip.iPos % 512

theorem storeSector_patch (ip : Inode) (disk entry junk : ByteMem) (hpos : ip.iPos % 512 + 32 ≤ 512) :
    storeSector (ByteMem.blit (rwDevRead disk (storeOffset ip) 512 junk) (ip.iPos % 512) 32 entry)
        disk (ip.iPos / 512) =
      if storeOffset ip = lastSector then disk else disk.blit (storeAddr ip) 32 entry := by
  have hoff : SectorOffset (storeOffset ip) := sectorOffset_toInt32 _
  have hstore : ∀ data, storeSector data disk (ip.iPos / 512) =
      rwDevWrite disk (storeOffset ip) 512 data := fun _ => rfl
  rw [hstore]
  rw [storeAddr]
  generalize storeOffset ip = o at hoff ⊢
  by_cases hlast : o = lastSector
  · rw [if_pos hlast, hlast, rwDevWrite_lastSector]
  · rw [if_neg hlast, hoff.rwDevWrite_eq hlast]
    funext x
    have hread : ∀ i, rwDevRead disk o 512 junk i = _ := hoff.rwDevRead_eq hlast
    generalize rwDevRead disk o 512 junk = data at hread ⊢
    generalize sectorOf o = k at hread ⊢
    by_cases hx : k * 512 ≤ x ∧ x < k * 512 + 512
    · rw [ByteMem.blit_of_mem hx.1 hx.2, ByteMem.blit, ByteMem.blit]
      refine (if_congr (by omega) (congrArg entry (by omega)) ?_)
      rw [hread, if_pos (by omega)]
      congr 1
      omega
    · rw [ByteMem.blit_of_not_mem (by omega), ByteMem.blit_of_not_mem (by omega)]

/-- The effect of `UpdateInode` on the disk, wherever the entry lies. -/
theorem updateInode_disk (hb : s.info.bytesPerSector = 512) (hip : s.inode? r = some ip)
    (hpos : ip.iPos % 512 + 32 ≤ 512) :
    ∃ s', updateInode r s = .ok ((), s') ∧
      s'.disk = if storeOffset ip = lastSector then s.disk
        else s.disk.blit (storeAddr ip) 32 (inodeEntry ip (s.stamps s.stampNo)) := by
  set s₁ : Fat32FileSystem := { s with stampNo := s.stampNo + 1 } with hs₁
  have hstamp : stamp s = .ok (s.stamps s.stampNo, s₁) := rfl
  have hip' : s₁.inode? r = some ip := by cases r <;> exact hip
  have hb' : s₁.info.bytesPerSector = 512 := hb
  have hread : readSector (ip.iPos / 512) s.junk s₁ =
      .ok (rwDevRead s.disk (storeOffset ip) 512 s.junk, s₁) := by
    rw [readSector, get_bind, hb']
    rfl
  rw [updateInode, bind_of_ok hstamp, get_bind, bind_of_ok (inode_eq hip'), hb', bind_of_ok hread,
    writeSector, modify_apply]
  refine ⟨_, rfl, ?_⟩
  rw [← storeSector_patch ip s.disk _ s.junk hpos]

theorem storeAddr_eq (hlt : ip.iPos < 2 ^ 31) : storeAddr ip = ip.iPos := by
  have h₁ : toInt32 (ip.iPos / 512 : ℕ) = (ip.iPos / 512 : ℕ) :=
    toInt32_of_lt (by omega) (by omega)
  have h₂ : storeOffset ip = (ip.iPos / 512 : ℕ) * (512 : ℕ) := by
    rw [storeOffset, h₁]
    exact toInt32_of_lt (by omega) (by omega)
  rw [storeAddr, sectorOf, h₂]
  omega

theorem storeAddr_far (hle : 2 ^ 31 ≤ ip.iPos) (hlt : ip.iPos < 2 ^ 64) :
    storeAddr ip / 512 ≠ ip.iPos / 512 := by
  have hoff : SectorOffset (storeOffset ip) := sectorOffset_toInt32 _
  rw [storeAddr, sectorOf]
  generalize storeOffset ip = o at hoff ⊢
  obtain ⟨h₁, h₂, -⟩ := hoff
  omega

theorem inodeEntry_name (hk : k < 12) : inodeEntry ip t k = ip.testName k := by
  rw [inodeEntry, ByteMem.blit_of_mem (by omega) (by omega), Nat.sub_zero]

theorem inodeEntry_reserved : inodeEntry ip t 12 = t.reserved := by
  simp [inodeEntry, fillMeta, stackEntry, ByteMem.blit, ByteMem.writeLE]

/-- Nothing has changed but the times, the first cluster and the size in the entry of the inode,
and for the root nothing at all. -/
def EntryFrame (r : InodeRef) (ip : Inode) (disk disk' : ByteMem) : Prop :=
  ∀ x, r = .root ∨ x < ip.iPos + 13 ∨ ip.iPos + 32 ≤ x → disk' x = disk x

/-- The entry that is stored agrees with what is there: where it goes over the entry of the inode,
in the name, in the attribute, which is taken from behind the name, and in the reserved byte,
which is taken from the stack; else in all its bytes. -/
def StoreAgrees (s : Fat32FileSystem) (r : InodeRef) (ip : Inode) : Prop :=
  storeOffset ip = lastSector ∨
    if r = .root ∨ 2 ^ 31 ≤ ip.iPos then
      ∀ k < 32, inodeEntry ip (s.stamps s.stampNo) k = s.disk (storeAddr ip + k)
    else
      (∀ k < 12, ip.testName k = s.disk (ip.iPos + k)) ∧
        (s.stamps s.stampNo).reserved = s.disk (ip.iPos + 12)

/-- `UpdateInode` keeps everything else exactly when the entry it stores agrees with the disk. -/
theorem updateInode_frame_iff (hb : s.info.bytesPerSector = 512) (hip : s.inode? r = some ip)
    (hpos : ip.iPos % 32 = 0) (hu : ip.iPos < 2 ^ 64) :
    (∃ s', updateInode r s = .ok ((), s') ∧ EntryFrame r ip s.disk s'.disk) ↔
      s.StoreAgrees r ip := by
  obtain ⟨s', hrun, hdisk⟩ := updateInode_disk hb hip (by omega)
  have hiff : (∃ s', updateInode r s = .ok ((), s') ∧ EntryFrame r ip s.disk s'.disk) ↔
      EntryFrame r ip s.disk s'.disk := by
    constructor
    · rintro ⟨s'', hrun', h⟩
      rw [hrun] at hrun'
      cases hrun'
      exact h
    · exact fun h => ⟨s', hrun, h⟩
  rw [hiff, hdisk, StoreAgrees, EntryFrame]
  by_cases hlast : storeOffset ip = lastSector
  · rw [if_pos hlast]
    exact iff_of_true (fun _ _ => rfl) (.inl hlast)
  rw [if_neg hlast, or_iff_right hlast, ByteMem.blit_eq_iff]
  split
  · rename_i hfar
    refine forall₂_congr fun k hk => ?_
    rw [imp_iff_right]
    rcases hfar with hr | hfar
    · exact .inl hr
    · have hsec := storeAddr_far hfar hu
      have haddr : storeAddr ip % 512 = ip.iPos % 512 := by
        rw [storeAddr]
        omega
      exact .inr (by omega)
  · rename_i hnear
    rw [not_or] at hnear
    rw [storeAddr_eq (by omega)]
    constructor
    · intro h
      refine ⟨fun k hk => ?_, ?_⟩
      · rw [← inodeEntry_name hk]
        exact h k (by omega) (.inr (by omega))
      · exact inodeEntry_reserved.symm.trans (h 12 (by decide) (.inr (by omega)))
    · rintro ⟨hname, hres⟩ k hk hx
      have hk' : k < 12 ∨ k = 12 := by
        rcases hx with hr | hx
        · exact absurd hr hnear.1
        · omega
      rcases hk' with hk' | rfl
      · rw [inodeEntry_name hk']
        exact hname k hk'
      · rw [inodeEntry_reserved]
        exact hres

def oneDirDisk : ByteMem := oneFileDisk.fill (59392 + 11) 1 0x10

theorem updateInode_frame_iff_oneFile :
    ¬(∃ s', updateInode .root oneFile = .ok ((), s') ∧
      EntryFrame .root oneFile.root oneFile.disk s'.disk) := by
  have hpos : oneFile.root.iPos = 59392 := by decide +kernel
  rw [updateInode_frame_iff (by decide +kernel) rfl (by rw [hpos]) (by rw [hpos]; decide)]
  have hbyte : inodeEntry oneFile.root (oneFile.stamps oneFile.stampNo) 0 ≠
      oneFile.disk (59392 + 0) := by decide +kernel
  rintro (h | h)
  · exact absurd h (by decide +kernel)
  · rw [if_pos (.inl rfl), storeAddr_eq (by rw [hpos]; decide), hpos] at h
    exact hbyte (h 0 (by decide))

/-- The directory `A` loses its attribute, and the root overwrites the entry of `A`. -/
theorem updateInode_drops_attribute :
    (∃ s₁ s₂, lookup .root nameA (mount bootMemory oneDirDisk) = .ok (some (.pos 59392), s₁) ∧
      updateInode (.pos 59392) s₁ = .ok ((), s₂) ∧
      s₁.disk (59392 + 11) = 0x10 ∧ s₂.disk (59392 + 11) = 0) ∧
    ∃ s₂, updateInode .root oneFile = .ok ((), s₂) ∧
      oneFile.disk 59392 = 0x41 ∧ s₂.disk 59392 = 0x2f := by
  constructor
  · have hrun : (match lookup .root nameA (mount bootMemory oneDirDisk) with
        | .ok (v, s₁) => match updateInode (.pos 59392) s₁ with
          | .ok (_, s₂) => decide (v = some (.pos 59392) ∧ s₁.disk (59392 + 11) = 0x10 ∧
              s₂.disk (59392 + 11) = 0)
          | .error _ => false
        | .error _ => false) = true := by decide +kernel
    split at hrun
    · rename_i v s₁ h₁
      split at hrun
      · rename_i s₂ h₂
        obtain ⟨rfl, hbefore, hafter⟩ := of_decide_eq_true hrun
        exact ⟨s₁, s₂, h₁, h₂, hbefore, hafter⟩
      · cases hrun
    · cases hrun
  · have hrun : (match updateInode .root oneFile with
        | .ok (_, s₂) => decide (oneFile.disk 59392 = 0x41 ∧ s₂.disk 59392 = 0x2f)
        | .error _ => false) = true := by decide +kernel
    split at hrun
    · rename_i s₂ h₂
      exact ⟨s₂, h₂, of_decide_eq_true hrun⟩
    · cases hrun

end Fat32FileSystem

end StartOS
