import StartOS.Fs.FatEntry
import StartOS.Fs.FatRun

/-! # When `AllocCluster` does what it should

The loop of `AllocCluster` has no end of its own: past the last cluster every entry
reads as -1. The number of clusters is that of all sectors, those of the table
among them, so the last numbers have no sectors in the volume. And the table in
memory has 512 bytes for each sector, so in a volume with larger sectors two
clusters can share an entry.
-/

namespace StartOS

namespace Fat32FileSystem

open Hoare

variable {s : Fat32FileSystem} {total c : ℕ}

section Spec

variable (s : Fat32FileSystem) (total : ℕ)

def Inside (c : ℕ) : Prop := s.firstSectorOfCluster c + s.info.sectorsPerCluster ≤ total

structure Allocatable (c : ℕ) : Prop where
  two_le : 2 ≤ c
  readable : s.Readable c
  free : s.slot c = 0
  inside : s.Inside total c

structure Marked (c : ℕ) (s' : Fat32FileSystem) : Prop where
  self : s'.slot c ≠ 0
  other : ∀ d, d ≠ c → s.Readable d → s'.slot d = s.slot d

/-- The call returns: with a cluster that it marks, or with a number that is none when there is
nothing to allocate. -/
def AllocBounded : Prop :=
  ∃ c s', allocCluster s = .ok (c, s') ∧
    (s.Allocatable total c ∧ s.Marked c s' ∨
      (∀ d, ¬s.Allocatable total d) ∧ (c < 2 ∨ s.info.clusterCount < c))

def Alone (c : ℕ) : Prop :=
  ∀ d, d ≠ c → s.Readable d → s.fatIndex d + 4 ≤ s.fatIndex c ∨ s.fatIndex c + 4 ≤ s.fatIndex d

/-- The search gets to a free entry, which is alone, and the cluster lies in the volume. -/
def AllocFits : Prop := ∃ c, s.Finding 2 c ∧ s.Inside total c ∧ s.Alone c

end Spec

theorem Finding.allocatable (h : s.Finding 2 c) (hin : s.Inside total c) : s.Allocatable total c :=
  ⟨h.le, h.readable c h.le le_rfl, h.free, hin⟩

theorem endOfCluster_byte {i : ℕ} (hi : i < 4) : UInt8.ofNat (endOfCluster / 256 ^ i) ≠ 0 := by
  rcases i with _ | _ | _ | _ | i
  · decide
  · decide
  · decide
  · decide
  · omega

/-- Taking a free cluster marks it, and no other exactly when its entry is alone. -/
theorem marked_taken_iff (hfree : s.slot c = 0) : s.Marked c (s.taken c) ↔ s.Alone c := by
  have hslot (d : ℕ) : (s.taken c).slot d =
      (s.fatCache.writeLE (s.fatIndex c) 4 endOfCluster).readLE (s.fatIndex d) 4 := rfl
  constructor
  · rintro ⟨-, hother⟩ d hne hread
    by_contra hmeet
    have hsame := hother d hne hread
    rw [hslot, slot, ByteMem.readLE_eq_iff] at hsame
    -- a byte of both entries was 0 and is one of the mark
    obtain ⟨x, hx, hx', hy, hy'⟩ : ∃ x, s.fatIndex c ≤ x ∧ x < s.fatIndex c + 4 ∧
        s.fatIndex d ≤ x ∧ x < s.fatIndex d + 4 :=
      ⟨max (s.fatIndex c) (s.fatIndex d), by omega, by omega, by omega, by omega⟩
    have hnew := hsame x hy hy'
    rw [ByteMem.writeLE, ByteMem.blit_of_mem hx hx',
      ByteMem.readLE_eq_zero_iff.mp hfree x hx hx'] at hnew
    exact endOfCluster_byte (by omega) hnew
  · intro halone
    constructor
    · rw [hslot, ByteMem.readLE_writeLE_of_lt (by decide)]
      decide
    · intro d hne hread
      rw [hslot]
      exact ByteMem.readLE_writeLE_disjoint (halone d hne hread)

/-- `AllocCluster` is bounded and returns a cluster of the volume under these conditions only. -/
theorem allocBounded_iff : s.AllocBounded total ↔ s.AllocFits total := by
  constructor
  · rintro ⟨c, s', hok, hcase⟩
    obtain ⟨hfind, rfl⟩ := allocCluster_eq_ok.mp hok
    rcases hcase with ⟨hal, hmark⟩ | ⟨-, hbad⟩
    · exact ⟨c, hfind, hal.inside, (marked_taken_iff hfind.free).mp hmark⟩
    · have hle := hfind.le
      have hcount := (hfind.readable c hfind.le le_rfl).le_count
      omega
  · rintro ⟨c, hfind, hin, halone⟩
    exact ⟨c, s.taken c, allocCluster_eq_ok.mpr ⟨hfind, rfl⟩,
      .inl ⟨hfind.allocatable hin, (marked_taken_iff hfind.free).mpr halone⟩⟩

theorem alone_of_512 (hb : s.info.bytesPerSector = 512) (hr : s.info.reserveSectors < 2 ^ 16)
    (hcount : s.info.clusterCount < 2 ^ 30) (hc : s.Readable c) : s.Alone c := by
  have hindex (d : ℕ) (hd : s.Readable d) : s.fatIndex d = 4 * d := by
    have hle := hd.le_count
    rw [fatIndex, fatSectorOfCluster, fatOffsetOfCluster, hb]
    omega
  intro d hne hd
  rw [hindex d hd, hindex c hc]
  omega

/-- The clusters of a volume end long before the number of all its sectors does. -/
theorem inside_iff (hspc : 0 < s.info.sectorsPerCluster) (h₂ : 2 ≤ c)
    (hlt : s.info.firstDataSector + (c - 2) * s.info.sectorsPerCluster < 2 ^ 32) :
    s.Inside total c ↔ c < 2 + (total - s.info.firstDataSector) / s.info.sectorsPerCluster := by
  have hle : c - 2 ≤ (c - 2) * s.info.sectorsPerCluster := Nat.le_mul_of_pos_right _ hspc
  have hfirst : s.firstSectorOfCluster c =
      s.info.firstDataSector + (c - 2) * s.info.sectorsPerCluster := by
    rw [firstSectorOfCluster, show (c + 2 ^ 32 - 2) % 2 ^ 32 = c - 2 by omega, Nat.mod_eq_of_lt hlt]
  have hdiv := Nat.le_div_iff_mul_le (x := c - 2 + 1) (y := total - s.info.firstDataSector) hspc
  rw [Nat.succ_mul] at hdiv
  rw [Inside, hfirst]
  constructor
  · intro h
    have := hdiv.mpr (by omega)
    omega
  · intro h
    have := hdiv.mp (by omega)
    omega

/-- `smallVolume` with every entry of the table in use. -/
def fullVolume : Fat32FileSystem := { smallVolume with fatCache := fun _ => 0xff }

theorem allocCluster_fullVolume : allocCluster fullVolume = .error .hang := by
  rw [allocCluster, get_bind]
  refine allocFrom_hang fun d _ _ => ?_
  rcases Nat.lt_or_ge 100 d with hout | hle
  · exact .inr hout
  · refine .inl ⟨⟨hle, ?_⟩, ?_⟩
    · change (32 + d * 4 % 2 ^ 32 / 512) % 2 ^ 32 < 1024
      omega
    · change ByteMem.readLE (fun _ => 0xff) _ 4 ≠ 0
      simp [ByteMem.readLE]

/-- On a full volume the search does not end. -/
theorem not_allocBounded_fullVolume : ¬fullVolume.AllocBounded 800 := by
  rintro ⟨c, s', hok, -⟩
  rw [allocCluster_fullVolume] at hok
  cases hok

end Fat32FileSystem

end StartOS
