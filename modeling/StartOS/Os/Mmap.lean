import Mathlib.Data.List.Basic
import Mathlib.Order.CompletePartialOrder
import Mathlib.Order.Interval.Set.Disjoint
import StartOS.Lib.Hoare
import StartOS.Os.Task

/-! # Where `sys_mmap` puts a mapping

The address of a new mapping is computed from the sum of the lengths of the
mappings that are live at that moment. Whether its pages are free depends on
how that sum relates to the places of the live ones.
-/

namespace StartOS

open Hoare

/-- The pages of a mapping, as `vma::LoadIfContain` sees them. -/
def Vma.pages (v : Vma) : Set ℕ :=
  Set.Ico (pgRoundDown v.addr) (pgRoundUp ((v.addr + toU64 v.length) % 2 ^ 64))

namespace Machine

variable {m m' : Machine} {i j p q : ℕ} {v : Vma} {length : ℤ}

/-- Slot `i` of the task has a mapping made by `sys_mmap`, at `p` in the pool. -/
structure Mapped (m : Machine) (i p : ℕ) : Prop where
  lt : i < nommapfile
  slot : m.task.vma i = some p
  ip : (m.vmaTable p).ip = none

/-- The mappings made by `sys_mmap` use different pages. -/
def MapsDisjoint (m : Machine) : Prop :=
  ∀ i j p q, i ≠ j → m.Mapped i p → m.Mapped j q →
    Disjoint (m.vmaTable p).pages (m.vmaTable q).pages

/-- Different slots have different mappings, and those made by `sys_mmap` are whole pages
below `2 ^ 40`. -/
structure MapInv (m : Machine) : Prop where
  inj : ∀ i j p, i < nommapfile → j < nommapfile → m.task.vma i = some p →
    m.task.vma j = some p → i = j
  pos : ∀ i p, m.Mapped i p → 0 < (m.vmaTable p).length
  lt : ∀ i p, m.Mapped i p → (m.vmaTable p).length < 2 ^ 31
  aligned : ∀ i p, m.Mapped i p → (m.vmaTable p).addr % pgSize = 0
  addr_lt : ∀ i p, m.Mapped i p → (m.vmaTable p).addr < 2 ^ 40

def mapTop : ℤ := maxVa - pgSize * 1024

def roundUp (n : ℤ) : ℤ := (n + 4095) / 4096 * 4096

/-- Every live mapping is above the pages that a mapping of the given length has when it ends
as far below `mapTop` as the live lengths add up to, or below them. -/
def Fits (m : Machine) (length : ℤ) : Prop :=
  ∀ i p, m.Mapped i p →
    mapTop - roundUp m.vmaSum - pgRoundUpInt length + roundUp length ≤ (m.vmaTable p).addr ∨
      (m.vmaTable p).addr + roundUp (m.vmaTable p).length ≤
        mapTop - roundUp m.vmaSum - pgRoundUpInt length

theorem pages_eq (h0 : 0 < v.length) (hl : v.length < 2 ^ 31) (ha : v.addr % pgSize = 0)
    (hlt : v.addr < 2 ^ 40) :
    v.pages = Set.Ico v.addr (v.addr + (roundUp v.length).toNat) := by
  simp only [pgSize] at ha
  have h₁ : toU64 v.length = v.length.toNat := by rw [toU64]; omega
  rw [Vma.pages, pgRoundDown, pgRoundUp, h₁, roundUp]
  congr 1 <;> omega

theorem maxVa_sub_eq : (maxVa : ℤ) - pgSize * 1024 = 274873712640 := by
  have hm : (maxVa : ℤ) = 274877906944 := by norm_num [maxVa]
  have hp : (pgSize : ℤ) = 4096 := by norm_num [pgSize]
  have hsub : (274877906944 : ℤ) - 4096 * 1024 = 274873712640 := by norm_num
  rw [hm, hp]
  exact hsub

theorem mapTop_eq : mapTop = 274873712640 := maxVa_sub_eq

theorem mapAddr_eq {x y : ℤ} (hx : -2 ^ 31 ≤ x ∧ x < 2 ^ 31) (hy : -2 ^ 31 ≤ y ∧ y < 2 ^ 31) :
    (toU64 ((maxVa - pgSize * 1024 - x - y / 4096 * 4096) / 4096 * 4096) : ℤ) =
      mapTop - roundUp x - y / 4096 * 4096 := by
  rw [toU64, mapTop_eq, roundUp, maxVa_sub_eq]
  omega

theorem vmaSum_bounds (m : Machine) : -2 ^ 31 ≤ m.vmaSum ∧ m.vmaSum < 2 ^ 31 := by
  rw [vmaSum]
  refine List.foldlRecOn (motive := fun x : ℤ => -2 ^ 31 ≤ x ∧ x < 2 ^ 31) _ _ (by norm_num) ?_
  intro acc hacc i _
  cases m.task.vma i with
  | none => exact hacc
  | some p => exact toInt32_bounds _

theorem vmaSum_congr (ht : m'.task = m.task)
    (hv : ∀ i p, i < nommapfile → m.task.vma i = some p → m'.vmaTable p = m.vmaTable p) :
    m'.vmaSum = m.vmaSum := by
  rw [vmaSum, vmaSum, ht]
  refine List.foldl_ext _ _ _ fun acc i hi => ?_
  cases h : m.task.vma i with
  | none => rfl
  | some p => simp only [hv i p (List.mem_range.mp hi) h]

def addMap (m : Machine) (i p : ℕ) (v : Vma) : Machine :=
  { m with
    vmaTable := Function.update m.vmaTable p v
    task := { m.task with vma := Function.update m.task.vma i (some p) } }

theorem getFileByfd_ok {fd : ℤ} {f : Option ℕ} (h : getFileByfd fd m = .ok (f, m')) : m' = m := by
  rw [getFileByfd] at h
  split at h
  · cases h
    rfl
  · cases h
    rfl

theorem allocVma_ok (h : allocVma m = .ok (p, m')) : m' = m ∧ (m.vmaTable p).ip = none ∧
    (m.vmaTable p).addr = 0 ∧ (m.vmaTable p).length = 0 := by
  rw [allocVma, get_bind] at h
  cases hq : m.freeVma with
  | none =>
    rw [hq] at h
    cases h
  | some q =>
    rw [hq] at h
    cases h
    exact ⟨rfl, by simpa using List.find?_some hq⟩

/-- `sys_mmap` has put the mapping `v` at the unused place `p` of the pool and into the empty slot
`i`. -/
structure MapsNew (m m' : Machine) (length : ℤ) (prot : ℕ) (flags : ℤ) (i p : ℕ) (v : Vma) :
    Prop where
  lt : i < nommapfile
  slot : m.task.vma i = none
  fresh : ∀ j < nommapfile, m.task.vma j ≠ some p
  unused : (m.vmaTable p).ip = none ∧ (m.vmaTable p).addr = 0 ∧ (m.vmaTable p).length = 0
  ip : v.ip = none
  len : v.length = length
  access : v.prot = prot ||| 7
  flag : v.flag = flags
  addr : (v.addr : ℤ) = mapTop - roundUp m.vmaSum - pgRoundUpInt length
  eq : m' = m.addMap i p v
  first : m.freeSlot = some i

theorem mapVma_ok {prot a : ℕ} {flags fd : ℤ}
    (hused : ∀ j q, m.Mapped j q → ¬((m.vmaTable q).addr = 0 ∧ (m.vmaTable q).length = 0))
    (hok : mapVma length prot flags fd m = .ok (a, m')) :
    ∃ i p v, MapsNew m m' length prot flags i p v := by
  rw [mapVma, bind_eq_ok] at hok
  obtain ⟨f, m₁, hf, hok⟩ := hok
  obtain rfl := getFileByfd_ok hf
  split at hok
  · cases hok
  rw [bind_eq_ok] at hok
  obtain ⟨p, m₂, hp, hok⟩ := hok
  obtain ⟨rfl, hip, haddr, hlen⟩ := allocVma_ok hp
  have hfresh : ∀ j < nommapfile, m₂.task.vma j ≠ some p := fun j hj hs =>
    hused j p ⟨hj, hs, hip⟩ ⟨haddr, hlen⟩
  simp only [setVma, get_bind, modify_bind] at hok
  set a' : Vma := { m₂.vmaTable p with ip := none, length := length } with ha'
  have hsum : vmaSum { m₂ with vmaTable := Function.update m₂.vmaTable p a' } = m₂.vmaSum :=
    vmaSum_congr rfl fun j q hj hs => by
      have hqp : q ≠ p := fun he => hfresh j hj (he ▸ hs)
      exact Function.update_of_ne hqp _ _
  rw [hsum, Function.update_idem] at hok
  set v : Vma := { a' with
    addr := toU64 ((maxVa - pgSize * 1024 - m₂.vmaSum - pgRoundUpInt length) / 4096 * 4096)
    prot := prot ||| 7
    flag := flags } with hv
  have hslot : freeSlot { m₂ with vmaTable := Function.update m₂.vmaTable p v } = m₂.freeSlot := rfl
  rw [hslot] at hok
  cases hi : m₂.freeSlot with
  | none =>
    rw [hi] at hok
    cases hok
  | some i =>
    rw [hi] at hok
    simp only [setSlot, modify_bind, pure_apply, Except.ok.injEq, Prod.mk.injEq] at hok
    obtain ⟨-, rfl⟩ := hok
    have hmem := List.mem_of_find?_eq_some hi
    refine ⟨i, p, v, List.mem_range.mp hmem, by simpa using List.find?_some hi, hfresh,
      ⟨hip, haddr, hlen⟩, rfl, rfl, rfl, rfl,
      mapAddr_eq m₂.vmaSum_bounds (toInt32_bounds _), ?_, hi⟩
    simp only [addMap]

section AddMap

variable (hi : i < nommapfile) (hp : ∀ j < nommapfile, m.task.vma j ≠ some p) (hv : v.ip = none)

include hi hp hv

theorem mapped_addMap : (m.addMap i p v).Mapped j q ↔ (j = i ∧ q = p) ∨ (j ≠ i ∧ m.Mapped j q) := by
  constructor
  · rintro ⟨hlt, hs, hip⟩
    by_cases hji : j = i
    · subst hji
      have hs' : Function.update m.task.vma j (some p) j = some q := hs
      rw [Function.update_self] at hs'
      exact Or.inl ⟨rfl, (Option.some.inj hs').symm⟩
    · have hs' : Function.update m.task.vma i (some p) j = some q := hs
      rw [Function.update_of_ne hji] at hs'
      have hqp : q ≠ p := fun he => hp j hlt (he ▸ hs')
      have hip' : (Function.update m.vmaTable p v q).ip = none := hip
      rw [Function.update_of_ne hqp] at hip'
      exact Or.inr ⟨hji, hlt, hs', hip'⟩
  · rintro (⟨rfl, rfl⟩ | ⟨hji, h⟩)
    · refine ⟨hi, Function.update_self .., ?_⟩
      change (Function.update m.vmaTable q v q).ip = none
      rw [Function.update_self, hv]
    · have hqp : q ≠ p := fun he => hp j h.lt (he ▸ h.slot)
      refine ⟨h.lt, (Function.update_of_ne hji ..).trans h.slot, ?_⟩
      change (Function.update m.vmaTable p v q).ip = none
      rw [Function.update_of_ne hqp, h.ip]

omit hi hv in
theorem vmaTable_addMap_of_mapped (h : m.Mapped j q) :
    (m.addMap i p v).vmaTable q = m.vmaTable q := by
  have hqp : q ≠ p := fun he => hp j h.lt (he ▸ h.slot)
  exact Function.update_of_ne hqp ..

theorem forall_mapped_addMap {P : Vma → Prop} (hPv : P v)
    (hP : ∀ j q, m.Mapped j q → P (m.vmaTable q)) :
    ∀ j q, (m.addMap i p v).Mapped j q → P ((m.addMap i p v).vmaTable q) := by
  intro j q hm
  rcases (mapped_addMap hi hp hv).mp hm with ⟨rfl, rfl⟩ | ⟨-, hm⟩
  · change P (Function.update m.vmaTable q v q)
    rwa [Function.update_self]
  · rw [vmaTable_addMap_of_mapped hp hm]
    exact hP j q hm

omit hi hv in
theorem inj_addMap (hinj : ∀ i j p, i < nommapfile → j < nommapfile → m.task.vma i = some p →
      m.task.vma j = some p → i = j) (j k q : ℕ) (hj : j < nommapfile) (hk : k < nommapfile)
    (hsj : (m.addMap i p v).task.vma j = some q) (hsk : (m.addMap i p v).task.vma k = some q) :
    j = k := by
  change Function.update m.task.vma i (some p) j = some q at hsj
  change Function.update m.task.vma i (some p) k = some q at hsk
  by_cases hji : j = i
  · by_cases hki : k = i
    · rw [hji, hki]
    · rw [hji, Function.update_self] at hsj
      rw [Function.update_of_ne hki, ← hsj] at hsk
      exact absurd hsk (hp k hk)
  · rw [Function.update_of_ne hji] at hsj
    by_cases hki : k = i
    · rw [hki, Function.update_self] at hsk
      rw [← hsk] at hsj
      exact absurd hsj (hp j hj)
    · rw [Function.update_of_ne hki] at hsk
      exact hinj j k q hj hk hsj hsk

theorem MapInv.addMap (h : MapInv m) (h0 : 0 < v.length) (hl : v.length < 2 ^ 31)
    (ha : v.addr % pgSize = 0) (hlt : v.addr < 2 ^ 40) : MapInv (m.addMap i p v) where
  inj := inj_addMap hp h.inj
  pos := forall_mapped_addMap hi hp hv (P := (0 < ·.length)) h0 h.pos
  lt := forall_mapped_addMap hi hp hv (P := (·.length < 2 ^ 31)) hl h.lt
  aligned := forall_mapped_addMap hi hp hv (P := (·.addr % pgSize = 0)) ha h.aligned
  addr_lt := forall_mapped_addMap hi hp hv (P := (·.addr < 2 ^ 40)) hlt h.addr_lt

/-- A new mapping keeps the pages of the mappings apart exactly when it fits. -/
theorem mapsDisjoint_addMap (h : MapInv m) (h0 : 0 < v.length) (hl : v.length < 2 ^ 31)
    (ha : v.addr % pgSize = 0) (hlt : v.addr < 2 ^ 40)
    (haddr : (v.addr : ℤ) = mapTop - roundUp m.vmaSum - pgRoundUpInt v.length)
    (hnone : m.task.vma i = none) :
    (m.addMap i p v).MapsDisjoint ↔ m.MapsDisjoint ∧ m.Fits v.length := by
  have hself : (m.addMap i p v).vmaTable p = v := Function.update_self ..
  have hnew : (m.addMap i p v).Mapped i p := (mapped_addMap hi hp hv).mpr (Or.inl ⟨rfl, rfl⟩)
  have hold : ∀ j q, m.Mapped j q → j ≠ i ∧ (m.addMap i p v).Mapped j q := by
    intro j q hm
    have hji : j ≠ i := fun he => by
      have := hm.slot
      rw [he, hnone] at this
      cases this
    exact ⟨hji, (mapped_addMap hi hp hv).mpr (Or.inr ⟨hji, hm⟩)⟩
  have hpair : ∀ j q, m.Mapped j q → (Disjoint v.pages (m.vmaTable q).pages ↔
      v.addr + roundUp v.length ≤ (m.vmaTable q).addr ∨
        (m.vmaTable q).addr + roundUp (m.vmaTable q).length ≤ v.addr) := by
    intro j q hm
    have h₁ := h.pos j q hm
    rw [pages_eq h0 hl ha hlt, pages_eq h₁ (h.lt j q hm) (h.aligned j q hm) (h.addr_lt j q hm),
      Set.Ico_disjoint_Ico]
    simp only [roundUp]
    omega
  constructor
  · intro hd
    refine ⟨fun j k q r hjk hq hr => ?_, fun j q hm => ?_⟩
    · have := hd j k q r hjk (hold j q hq).2 (hold k r hr).2
      rwa [vmaTable_addMap_of_mapped hp hq, vmaTable_addMap_of_mapped hp hr] at this
    · have := hd i j p q (hold j q hm).1.symm hnew (hold j q hm).2
      rw [hself, vmaTable_addMap_of_mapped hp hm, hpair j q hm, haddr] at this
      exact this
  · rintro ⟨hd, hf⟩ j k q r hjk hq hr
    have hv' : ∀ j q, m.Mapped j q → Disjoint v.pages (m.vmaTable q).pages := fun j q hm => by
      rw [hpair j q hm, haddr]
      exact hf j q hm
    rcases (mapped_addMap hi hp hv).mp hq with ⟨hj, hqp⟩ | ⟨-, hq'⟩
    · rcases (mapped_addMap hi hp hv).mp hr with ⟨hk, -⟩ | ⟨-, hr'⟩
      · exact absurd (hj.trans hk.symm) hjk
      · rw [hqp, hself, vmaTable_addMap_of_mapped hp hr']
        exact hv' k r hr'
    · rw [vmaTable_addMap_of_mapped hp hq']
      rcases (mapped_addMap hi hp hv).mp hr with ⟨-, hrp⟩ | ⟨-, hr'⟩
      · rw [hrp, hself]
        exact (hv' j q hq').symm
      · rw [vmaTable_addMap_of_mapped hp hr']
        exact hd j k q r hjk hq' hr'

end AddMap

def removeMap (m : Machine) (i p : ℕ) (ram : MemAllocator) : Machine :=
  { m with
    ram := ram
    vmaTable := Function.update m.vmaTable p .zero
    task := { m.task with vma := Function.update m.task.vma i none } }

/-- `sys_munmap` returns from a slot that has the address: it leaves a program segment as it is and
takes away a mapping made by `sys_mmap`. -/
theorem unmapVma_cases {addr : ℕ} {z : ℤ} (hok : unmapVma addr m = .ok (z, m')) :
    ∃ i p, m.slotOf addr = some i ∧ m.task.vma i = some p ∧
      (((m.vmaTable p).ip ≠ none ∧ m' = m) ∨ ∃ ram, m.Mapped i p ∧
        m.ram.userUnmap m.task.pagetable (m.vmaTable p).addr
          (toU64 (pgRoundUpInt (m.vmaTable p).length / pgSize)) true = .ok ram ∧
        m' = m.removeMap i p ram) := by
  rw [unmapVma, get_bind] at hok
  cases hi : m.slotOf addr with
  | none =>
    rw [hi] at hok
    cases hok
  | some i =>
    rw [hi] at hok
    simp only at hok
    cases hs : m.task.vma i with
    | none =>
      rw [hs] at hok
      cases hok
    | some p =>
      rw [hs] at hok
      simp only at hok
      refine ⟨i, p, rfl, hs, ?_⟩
      cases hip : (m.vmaTable p).ip with
      | some f =>
        rw [hip, Option.isSome_some, if_pos rfl] at hok
        cases hok
        exact Or.inl ⟨by simp, rfl⟩
      | none =>
        rw [hip, Option.isSome_none, if_neg (by simp), bind_eq_ok] at hok
        obtain ⟨ram, m₁, hram, hok⟩ := hok
        have hm₁ : m₁ = m ∧ m.ram.userUnmap m.task.pagetable (m.vmaTable p).addr
            (toU64 (pgRoundUpInt (m.vmaTable p).length / pgSize)) true = .ok ram := by
          cases hu : m.ram.userUnmap m.task.pagetable (m.vmaTable p).addr
              (toU64 (pgRoundUpInt (m.vmaTable p).length / pgSize)) true with
          | error e =>
            rw [hu] at hram
            cases hram
          | ok r =>
            rw [hu] at hram
            cases hram
            exact ⟨rfl, rfl⟩
        obtain ⟨rfl, hunmap⟩ := hm₁
        cases hok
        exact Or.inr ⟨ram, ⟨List.mem_range.mp (List.mem_of_find?_eq_some hi), hs, hip⟩, hunmap, rfl⟩

theorem unmapVma_ok {addr : ℕ} {z : ℤ} (hok : unmapVma addr m = .ok (z, m')) :
    m' = m ∨ ∃ i p ram, m.Mapped i p ∧
      m.ram.userUnmap m.task.pagetable (m.vmaTable p).addr
        (toU64 (pgRoundUpInt (m.vmaTable p).length / pgSize)) true = .ok ram ∧
      m' = m.removeMap i p ram := by
  obtain ⟨i, p, -, -, ⟨-, rfl⟩ | ⟨ram, hm, hunmap, rfl⟩⟩ := unmapVma_cases hok
  · exact Or.inl rfl
  · exact Or.inr ⟨i, p, ram, hm, hunmap, rfl⟩

section RemoveMap

variable (hinj : ∀ i j p, i < nommapfile → j < nommapfile → m.task.vma i = some p →
  m.task.vma j = some p → i = j)

include hinj

theorem mapped_removeMap (hm : m.Mapped i p) {ram : MemAllocator}
    (hj : (m.removeMap i p ram).Mapped j q) :
    m.Mapped j q ∧ (m.removeMap i p ram).vmaTable q = m.vmaTable q := by
  have hs : Function.update m.task.vma i none j = some q := hj.slot
  have hji : j ≠ i := fun he => by
    rw [he, Function.update_self] at hs
    cases hs
  rw [Function.update_of_ne hji] at hs
  have hqp : q ≠ p := fun he => hji (hinj j i p hj.lt hm.lt (he ▸ hs) hm.slot)
  have hv : (m.removeMap i p ram).vmaTable q = m.vmaTable q := Function.update_of_ne hqp ..
  exact ⟨⟨hj.lt, hs, hv ▸ hj.ip⟩, hv⟩

theorem inj_removeMap (i p : ℕ) (ram : MemAllocator) (j k q : ℕ) (hj : j < nommapfile)
    (hk : k < nommapfile) (hsj : (m.removeMap i p ram).task.vma j = some q)
    (hsk : (m.removeMap i p ram).task.vma k = some q) : j = k := by
  have hold : ∀ j, (m.removeMap i p ram).task.vma j = some q → m.task.vma j = some q := by
    intro j hs
    have hs' : Function.update m.task.vma i none j = some q := hs
    by_cases hji : j = i
    · rw [hji, Function.update_self] at hs'
      cases hs'
    · rwa [Function.update_of_ne hji] at hs'
  exact hinj j k q hj hk (hold j hsj) (hold k hsk)

end RemoveMap

theorem MapInv.removeMap (h : MapInv m) (hm : m.Mapped i p) (ram : MemAllocator) :
    MapInv (m.removeMap i p ram) := by
  refine ⟨inj_removeMap h.inj i p ram, fun j q hq => ?_, fun j q hq => ?_, fun j q hq => ?_,
    fun j q hq => ?_⟩
  all_goals
    obtain ⟨hq', hv⟩ := mapped_removeMap h.inj hm hq
    rw [hv]
  · exact h.pos j q hq'
  · exact h.lt j q hq'
  · exact h.aligned j q hq'
  · exact h.addr_lt j q hq'

theorem MapInv.mapsDisjoint_removeMap (h : MapInv m) (hm : m.Mapped i p) (ram : MemAllocator)
    (hd : m.MapsDisjoint) : (m.removeMap i p ram).MapsDisjoint := by
  intro j k q r hjk hq hr
  obtain ⟨hq', hvq⟩ := mapped_removeMap h.inj hm hq
  obtain ⟨hr', hvr⟩ := mapped_removeMap h.inj hm hr
  rw [hvq, hvr]
  exact hd j k q r hjk hq' hr'

/-- A call by the process. Between two calls its pages may come and go, which only changes the
memory. -/
inductive MapCall
  | mmap (length : ℤ) (prot : ℕ) (flags fd : ℤ) (h0 : 0 < length) (hl : length < 2 ^ 31)
  | munmap (addr : ℕ)
  | touch (ram : MemAllocator)

namespace MapCall

def run : MapCall → SysM Unit
  | mmap length prot flags fd _ _ => do
    let _ ← mapVma length prot flags fd
  | munmap addr => do
    let _ ← unmapVma addr
  | touch ram => modify fun m => { m with ram := ram }

def Fits (m : Machine) : MapCall → Prop
  | mmap length _ _ _ _ _ => m.Fits length
  | munmap _ => True
  | touch _ => True

theorem step_iff (h : MapInv m) {c : MapCall} (hok : c.run m = .ok ((), m')) :
    MapInv m' ∧ (m.MapsDisjoint → (m'.MapsDisjoint ↔ c.Fits m)) := by
  cases c with
  | mmap length prot flags fd h0 hl =>
    rw [run, bind_eq_ok] at hok
    obtain ⟨a, m₁, hok, hm'⟩ := hok
    cases hm'
    obtain ⟨i, p, v, hi, hnone, hp, -, hv, rfl, -, -, haddr, rfl, -⟩ :=
      mapVma_ok (fun j q hm hc => (h.pos j q hm).ne' hc.2) hok
    have hsum := m.vmaSum_bounds
    have hr := toInt32_bounds (v.length + 4095)
    have ha : v.addr % pgSize = 0 := by
      simp only [mapTop_eq, Machine.roundUp, pgRoundUpInt] at haddr
      simp only [pgSize]
      omega
    have hlt : v.addr < 2 ^ 40 := by
      simp only [mapTop_eq, Machine.roundUp, pgRoundUpInt] at haddr
      omega
    refine ⟨h.addMap hi hp hv h0 hl ha hlt, fun hd => ?_⟩
    rw [mapsDisjoint_addMap hi hp hv h h0 hl ha hlt haddr hnone]
    exact and_iff_right hd
  | munmap addr =>
    rw [run, bind_eq_ok] at hok
    obtain ⟨z, m₁, hok, hm'⟩ := hok
    cases hm'
    rcases unmapVma_ok hok with rfl | ⟨i, p, ram, hm, -, rfl⟩
    · exact ⟨h, fun hd => iff_of_true hd trivial⟩
    · exact ⟨h.removeMap hm ram, fun hd =>
        iff_of_true (h.mapsDisjoint_removeMap hm ram hd) trivial⟩
  | touch ram =>
    cases hok
    exact ⟨⟨h.inj, fun i p hp => h.pos i p ⟨hp.1, hp.2, hp.3⟩, fun i p hp => h.lt i p ⟨hp.1, hp.2, hp.3⟩,
      fun i p hp => h.aligned i p ⟨hp.1, hp.2, hp.3⟩, fun i p hp => h.addr_lt i p ⟨hp.1, hp.2, hp.3⟩⟩,
      fun hd => iff_of_true (fun i j p q hij hp hq =>
        hd i j p q hij ⟨hp.1, hp.2, hp.3⟩ ⟨hq.1, hq.2, hq.3⟩) trivial⟩

end MapCall

def runMaps : List MapCall → SysM Unit
  | [] => return ()
  | c :: cs => do
    c.run
    runMaps cs

theorem runMaps_cons {c : MapCall} {cs : List MapCall} : runMaps (c :: cs) m = .ok ((), m') ↔
    ∃ m₁, c.run m = .ok ((), m₁) ∧ runMaps cs m₁ = .ok ((), m') := by
  rw [runMaps, bind_eq_ok]
  exact ⟨fun ⟨_, m₁, h⟩ => ⟨m₁, h⟩, fun ⟨m₁, h⟩ => ⟨(), m₁, h⟩⟩

structure OnlySegments (m : Machine) : Prop where
  inj : ∀ i j p, i < nommapfile → j < nommapfile → m.task.vma i = some p →
    m.task.vma j = some p → i = j
  ip : ∀ i p, i < nommapfile → m.task.vma i = some p → (m.vmaTable p).ip ≠ none

end Machine

end StartOS
