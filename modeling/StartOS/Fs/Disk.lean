import StartOS.Kernel.Basic
import StartOS.Lib.ByteMem

/-! # The block device

`VirtioDisk::read` and `VirtioDisk::write` move whole sectors. The byte offset
is a C `int`, so a sector number past `2 ^ 22` arrives negative and reaches the
driver sign-extended. The sectors themselves are stored faithfully.
-/

namespace StartOS

/-- The sectors a transfer of `n` bytes at `offset` touches: the first one and their number. -/
def sectorRange (offset : ℤ) (n : ℕ) : ℤ × ℕ :=
  (offset / 512, (toInt32 (offset + n) / 512 - offset / 512).toNat)

/-- `RwDevRead` into a buffer. -/
def rwDevRead (disk : ByteMem) (offset : ℤ) (n : ℕ) (buf : ByteMem) : ByteMem :=
  if n % 512 ≠ 0 ∨ offset % 512 ≠ 0 then buf
  else fun i =>
    if i < 512 * (sectorRange offset n).2 then
      disk ((((sectorRange offset n).1 + (i / 512 : ℕ)) % 2 ^ 64).toNat * 512 + i % 512)
    else buf i

/-- `RwDevWrite` from a buffer. -/
def rwDevWrite (disk : ByteMem) (offset : ℤ) (n : ℕ) (buf : ByteMem) : ByteMem :=
  if n % 512 ≠ 0 ∨ offset % 512 ≠ 0 then disk
  else fun x =>
    let k := (((x / 512 : ℕ) - (sectorRange offset n).1) % 2 ^ 64).toNat
    if x / 512 < 2 ^ 64 ∧ k < (sectorRange offset n).2 then buf (512 * k + x % 512) else disk x

section

variable {disk buf : ByteMem} {a n : ℕ}

theorem sectorRange_of_lt (h : a + n < 2 ^ 31) (ha : a % 512 = 0) (hn : n % 512 = 0) :
    sectorRange a n = (((a / 512 : ℕ) : ℤ), n / 512) := by
  have h32 : toInt32 ((a : ℤ) + n) = a + n := toInt32_of_lt (by omega) (by omega)
  rw [sectorRange, h32]
  refine Prod.ext (by simp) ?_
  simp only
  omega

theorem rwDevRead_eq (h : a + n < 2 ^ 31) (ha : a % 512 = 0) (hn : n % 512 = 0) (i : ℕ) :
    rwDevRead disk a n buf i = if i < n then disk (a + i) else buf i := by
  rw [rwDevRead, if_neg (by omega), sectorRange_of_lt h ha hn]
  simp only
  by_cases hi : i < n
  · rw [if_pos hi, if_pos (by omega)]
    congr 1
    omega
  · rw [if_neg hi, if_neg (by omega)]

theorem rwDevWrite_eq (h : a + n < 2 ^ 31) (ha : a % 512 = 0) (hn : n % 512 = 0) :
    rwDevWrite disk a n buf = disk.blit a n buf := by
  funext x
  rw [rwDevWrite, if_neg (by omega), sectorRange_of_lt h ha hn, ByteMem.blit]
  simp only
  by_cases hx : a ≤ x ∧ x < a + n
  · have hk : (((x / 512 : ℕ) - (a / 512 : ℕ) : ℤ) % 2 ^ 64).toNat = x / 512 - a / 512 := by
      rw [Int.emod_eq_of_lt (by omega) (by omega)]
      omega
    rw [if_pos hx, hk, if_pos (by omega)]
    congr 1
    omega
  · rw [if_neg hx, if_neg]
    rintro ⟨h₁, h₂⟩
    by_cases hxa : a ≤ x
    · rw [Int.emod_eq_of_lt (by omega) (by omega)] at h₂
      omega
    · rw [← Int.add_emod_right, Int.emod_eq_of_lt (by omega) (by omega)] at h₂
      omega

end

end StartOS
