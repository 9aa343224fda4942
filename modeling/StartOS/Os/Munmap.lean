import StartOS.Os.Mmap
import StartOS.Os.UserCopy

/-! # `sys_munmap`

The system call takes the first mapping that has the address. A mapping that
`sys_mmap` has made is removed with its pages, unless its length does not round
up in an `int` or its pages reach those of the kernel.
-/

namespace StartOS

open Hoare MemAllocator

namespace MemAllocator

variable {s s' : MemAllocator} {root a n : ℕ}

theorem unmapFrom_add (doFree : Bool) (n k : ℕ) (s : MemAllocator) (a : ℕ) :
    unmapFrom root doFree (n + k) s a = (do
      let s ← unmapFrom root doFree n s a
      unmapFrom root doFree k s (a + n * pgSize)) := by
  induction n generalizing s a with
  | zero =>
    rw [Nat.zero_add, Nat.zero_mul, Nat.add_zero]
    rfl
  | succ n ih =>
    have hnext : a + (n + 1) * pgSize = a + pgSize + n * pgSize := by ring
    rw [Nat.succ_add, unmapFrom, unmapFrom, hnext]
    cases s.walk root a false with
    | error e => rfl
    | ok w =>
      obtain ⟨pte, s₁⟩ := w
      simp only [Kernel.ok_bind]
      split
      · exact ih ..
      · split
        · rfl
        · cases doFree with
          | false => exact ih ..
          | true =>
            simp only [if_true]
            cases s₁.free (pte2pa (s₁.pteAt pte)) with
            | error e => rfl
            | ok s₂ => exact ih ..

theorem free_ok {p : ℕ} (hok : s.free p = .ok s') : s'.freeList = p :: s.freeList := by
  unfold MemAllocator.free at hok
  split at hok
  · cases hok
  · cases hok
    rfl

theorem free_suffix {p : ℕ} (hok : s.free p = .ok s') : s.freeList <:+ s'.freeList := by
  rw [free_ok hok]
  exact List.suffix_cons p _

theorem unmapFrom_suffix (doFree : Bool) (hok : unmapFrom root doFree n s a = .ok s') :
    s.freeList <:+ s'.freeList := by
  induction n generalizing s a with
  | zero =>
    cases hok
    exact List.suffix_rfl
  | succ n ih =>
    rw [unmapFrom, walk] at hok
    by_cases hge : a ≥ maxVa
    · rw [if_pos hge] at hok
      cases hok
    have hsame := congrArg Prod.snd (walkFrom_false s a 2 root)
    rw [if_neg hge, Kernel.ok_bind] at hok
    generalize s.walkFrom a false 2 root = w at hok hsame
    obtain ⟨pte, s₀⟩ := w
    obtain rfl : s₀ = s := hsame
    dsimp only at hok
    split at hok
    · exact ih hok
    split at hok
    · cases hok
    cases doFree with
    | false => exact ih (s := s₀.setPte pte 0) hok
    | true =>
      rw [if_pos rfl] at hok
      cases hfree : s₀.free (pte2pa (s₀.pteAt pte)) with
      | error e =>
        rw [hfree] at hok
        cases hok
      | ok s₁ =>
        rw [hfree] at hok
        exact (free_suffix hfree).trans (ih (s := s₁.setPte pte 0) hok)

/-- A range that comes to the pages of the kernel: `walk` ends, or the frame of one of them goes to
the free list. -/
theorem Space.frees_kernel (h : Space s root) (hw : s.WellFormed) (htop : Top s root)
    (ha : a % pgSize = 0) (hn : 0 < n) (hend : userTop < a + n * pgSize)
    (hok : MemAllocator.unmapFrom root true n s a = .ok s') (hw' : s'.WellFormed) :
    ∃ c < maxVa, userTop ≤ c ∧ pte2pa (s.leaf root c) ∈ s'.freeList ∧
      ¬(pte2pa (s.leaf root c) ∈ s.freeList ∨ ∃ va < maxVa, a ≤ va ∧ va < userTop ∧
        s.userFrame root va = some (pte2pa (s.leaf root c))) := by
  have hvals : userTop = 274877898752 ∧ maxVa = 274877906944 ∧ pgSize = 4096 := by decide
  obtain ⟨hu, hm, hp⟩ := hvals
  obtain ⟨k, l, c, hnk, hc, hca, hle, hcut⟩ : ∃ k l c, n = k + (l + 1) ∧ c = a + k * pgSize ∧
      c % pgSize = 0 ∧ userTop ≤ c ∧ ∀ va, a ≤ va → va < c → va < userTop := by
    by_cases hlt : a < userTop
    · refine ⟨(userTop - a) / pgSize, n - (userTop - a) / pgSize - 1, userTop, ?_⟩
      rw [hp] at ha hend ⊢
      exact ⟨by omega, by omega, by omega, le_rfl, fun va _ h₂ => h₂⟩
    · exact ⟨0, n - 1, a, by omega, by omega, ha, by omega, fun va h₁ h₂ => by omega⟩
  subst hnk
  by_cases hge : maxVa ≤ c
  · obtain rfl : k = 0 := by
      by_contra hk
      have := hcut (c - 1) (by rw [hp] at hc; omega) (by omega)
      omega
    rw [Nat.zero_add, MemAllocator.unmapFrom, walk, if_pos (by omega)] at hok
    cases hok
  · have hlt : c < maxVa := by omega
    obtain ⟨s₁, hrun, hunmaps, hback₁⟩ : ∃ s₁, MemAllocator.unmapFrom root true k s a = .ok s₁ ∧
        Unmaps s s₁ root a c ∧ GivesBack s s₁ root a c := by
      rw [hc] at hlt ⊢
      refine h.unmapFrom hw ha hlt.le fun va hva h₁ h₂ hv hnone => ?_
      have := h.kernel va hva hv hnone
      have := hcut va h₁ (hc ▸ h₂)
      omega
    rw [unmapFrom_add, hrun, Kernel.ok_bind, ← hc] at hok
    have hv : isValid (s₁.leaf root c) := by
      rw [hunmaps.outside c hlt (by omega)]
      exact htop c hlt hle
    obtain ⟨m, hm⟩ := node_of_valid hv
    rw [unmapFrom_of_valid hunmaps.acts.space hunmaps.acts.moves.wf true hlt hv hm, if_pos rfl]
      at hok
    cases hfree : s₁.free (pte2pa (s₁.leaf root c)) with
    | error e =>
      rw [hfree] at hok
      cases hok
    | ok s₂ =>
      rw [hfree] at hok
      have hsuf : pte2pa (s₁.leaf root c) :: s₁.freeList <:+ s'.freeList := by
        rw [← free_ok hfree]
        exact unmapFrom_suffix (s := s₂.setPte (pteAddr m (px 0 c)) 0) true hok
      have hsame : s₁.leaf root c = s.leaf root c := hunmaps.outside c hlt (by omega)
      rw [hsame] at hsuf
      refine ⟨c, hlt, hle, hsuf.subset List.mem_cons_self, fun hfree => ?_⟩
      -- the frame was free already when its page was reached
      apply (List.nodup_cons.mp (hw'.nodup.sublist hsuf.sublist)).1
      refine (hback₁ _).mpr (hfree.imp_right ?_)
      rintro ⟨va, hva, h₁, h₂, hq⟩
      exact ⟨va, hva, h₁, by omega, hq⟩

end MemAllocator

namespace Vma

variable {v : Vma} {addr : ℕ}

def Has (v : Vma) (addr : ℕ) : Prop := v.addr ≤ addr ∧ addr < v.stop

instance (v : Vma) (addr : ℕ) : Decidable (v.Has addr) :=
  inferInstanceAs (Decidable (v.addr ≤ addr ∧ addr < v.stop))

/-- What `sys_mmap` gives to a mapping. -/
structure Placed (v : Vma) : Prop where
  aligned : v.addr % pgSize = 0
  lo : 2 ^ 37 ≤ v.addr
  hi : v.addr < 2 ^ 39
  length_lo : -2 ^ 31 ≤ v.length
  length_hi : v.length < 2 ^ 31

def userEnd (v : Vma) : ℕ := min (pgRoundUp v.stop) userTop

def npages (v : Vma) : ℕ := toU64 (pgRoundUpInt v.length / pgSize)

theorem npages_eq (hlo : -2 ^ 31 ≤ v.length) (hl : v.length ≤ 2 ^ 31 - 4096) :
    v.npages = toU64 ((v.length + 4095) / 4096) := by
  have hround : pgRoundUpInt v.length = (v.length + 4095) / 4096 * 4096 := by
    unfold pgRoundUpInt
    rw [toInt32_of_lt (by omega) (by omega)]
  unfold npages
  rw [hround, show (pgSize : ℤ) = 4096 from rfl, Int.mul_ediv_cancel _ (by decide)]

namespace Placed

variable (h : v.Placed) (hhas : v.Has addr)
include h hhas

theorem stop_eq : 0 < v.length ∧ (v.stop : ℤ) = v.addr + v.length := by
  obtain ⟨h₁, h₂⟩ := hhas
  have := h.lo
  have := h.hi
  have := h.length_lo
  have := h.length_hi
  unfold stop toU64 at *
  omega

theorem unmapCount_eq (hl : v.length ≤ 2 ^ 31 - 4096) :
    0 < unmapCount v.addr v.npages ∧
      v.addr + unmapCount v.addr v.npages * pgSize = pgRoundUp v.stop := by
  obtain ⟨h0, hstop⟩ := h.stop_eq hhas
  have ha := h.aligned
  have := h.hi
  have hn : (v.npages : ℤ) = (v.length + 4095) / 4096 := by
    rw [npages_eq (by omega) hl, toU64]
    omega
  unfold unmapCount pgRoundUp
  rw [show pgSize = 4096 from rfl] at *
  omega

omit hhas in
theorem unmapCount_eq_zero (hl : 2 ^ 31 - 4096 < v.length) : unmapCount v.addr v.npages = 0 := by
  have := h.lo
  have := h.hi
  have := h.length_hi
  have hround : pgRoundUpInt v.length = -2 ^ 31 := by
    unfold pgRoundUpInt toInt32
    rw [Int.bmod_def]
    split <;> omega
  have hn : v.npages = 2 ^ 64 - 2 ^ 19 := by
    unfold npages toU64
    rw [hround, show (pgSize : ℤ) = 4096 from rfl]
    rfl
  unfold unmapCount
  rw [hn, show pgSize = 4096 from rfl]
  omega

end Placed

end Vma

namespace Machine

variable {m m' : Machine} {addr i j p q : ℕ}

/-- Different slots have different mappings, and `sys_mmap` has placed those without a file. -/
structure Placed (m : Machine) : Prop where
  inj : ∀ i j p, i < nommapfile → j < nommapfile → m.task.vma i = some p →
    m.task.vma j = some p → i = j
  placed : ∀ i p, m.Mapped i p → (m.vmaTable p).Placed

theorem OnlySegments.placed (h : OnlySegments m) : m.Placed :=
  ⟨h.inj, fun i p hm => absurd hm.ip (h.ip i p hm.lt hm.slot)⟩

theorem Placed.mapVma (h : m.Placed) {length flags fd : ℤ} {prot a : ℕ} (hl : -2 ^ 31 ≤ length)
    (hl' : length < 2 ^ 31) (hok : mapVma length prot flags fd m = .ok (a, m')) : m'.Placed := by
  have hused : ∀ j q, m.Mapped j q → ¬((m.vmaTable q).addr = 0 ∧ (m.vmaTable q).length = 0) := by
    rintro j q hm ⟨h0, -⟩
    have := (h.placed j q hm).lo
    omega
  obtain ⟨i, p, v, hi, -, hp, -, hv, rfl, -, -, haddr, rfl, -⟩ := mapVma_ok hused hok
  refine ⟨inj_addMap hp h.inj, forall_mapped_addMap hi hp hv ?_ h.placed⟩
  have hsum := m.vmaSum_bounds
  have hr := toInt32_bounds (v.length + 4095)
  simp only [mapTop_eq, Machine.roundUp, pgRoundUpInt] at haddr
  refine ⟨?_, by omega, by omega, hl, hl'⟩
  rw [show pgSize = 4096 from rfl]
  omega

theorem Placed.unmapVma (h : m.Placed) {z : ℤ} (hok : unmapVma addr m = .ok (z, m')) :
    m'.Placed := by
  rcases unmapVma_ok hok with rfl | ⟨i, p, ram, hm, -, rfl⟩
  · exact h
  · refine ⟨inj_removeMap h.inj i p ram, fun j q hq => ?_⟩
    obtain ⟨hq', hv⟩ := mapped_removeMap h.inj hm hq
    rw [hv]
    exact h.placed j q hq'

/-- Slot `i` has a mapping, at `p` in the pool, with the address. -/
structure Holds (m : Machine) (i p addr : ℕ) : Prop where
  lt : i < nommapfile
  slot : m.task.vma i = some p
  has : (m.vmaTable p).Has addr

theorem slotOf_eq_none : m.slotOf addr = none ↔ ∀ i p, ¬m.Holds i p addr := by
  unfold slotOf
  rw [List.find?_eq_none]
  constructor
  · rintro h i p ⟨hi, hs, hhas⟩
    apply h i (List.mem_range.mpr hi)
    rw [hs]
    exact decide_eq_true hhas
  · intro h i hi hc
    cases hs : m.task.vma i with
    | none =>
      rw [hs] at hc
      cases hc
    | some p =>
      rw [hs] at hc
      exact h i p ⟨List.mem_range.mp hi, hs, of_decide_eq_true hc⟩

theorem slotOf_some (h : m.slotOf addr = some i) : ∃ p, m.Holds i p addr := by
  unfold slotOf at h
  have hc := List.find?_some h
  cases hs : m.task.vma i with
  | none =>
    rw [hs] at hc
    cases hc
  | some p =>
    rw [hs] at hc
    exact ⟨p, List.mem_range.mp (List.mem_of_find?_eq_some h), hs, of_decide_eq_true hc⟩

theorem unmapVma_of_none (h : ∀ i p, ¬m.Holds i p addr) : unmapVma addr m = .error .fault := by
  rw [StartOS.unmapVma, get_bind, slotOf_eq_none.mpr h]
  rfl

theorem unmapVma_of_file (h : m.slotOf addr = some i) (hs : m.task.vma i = some p)
    (hip : (m.vmaTable p).ip ≠ none) : unmapVma addr m = .ok (-1, m) := by
  rw [StartOS.unmapVma, get_bind, h]
  simp only [hs]
  rw [if_pos (Option.isSome_iff_ne_none.mpr hip)]
  rfl

theorem unmapVma_of_mapped (h : m.slotOf addr = some i) (hm : m.Mapped i p) :
    unmapVma addr m =
      match m.ram.userUnmap m.task.pagetable (m.vmaTable p).addr (m.vmaTable p).npages true with
      | .ok ram => .ok (0, m.removeMap i p ram)
      | .error e => .error e := by
  rw [StartOS.unmapVma, get_bind, h]
  simp only [hm.slot]
  rw [hm.ip, if_neg (by simp)]
  unfold Vma.npages
  cases m.ram.userUnmap m.task.pagetable (m.vmaTable p).addr
    (toU64 (pgRoundUpInt (m.vmaTable p).length / pgSize)) true with
  | error e => rfl
  | ok ram => rfl

theorem Mapped.holds (hm : m.Mapped i p) (hhas : (m.vmaTable p).Has addr) : m.Holds i p addr :=
  ⟨hm.lt, hm.slot, hhas⟩

theorem slotOf_eq (h : m.Holds i p addr) (hone : ∀ j q, m.Holds j q addr → j = i) :
    m.slotOf addr = some i := by
  cases hs : m.slotOf addr with
  | none => exact absurd h (slotOf_eq_none.mp hs i p)
  | some j =>
    obtain ⟨q, hq⟩ := slotOf_some hs
    rw [hone j q hq]

section Unmap

variable (hp : m.Placed) (hm : m.Mapped i p) (hhas : (m.vmaTable p).Has addr)
  (hs : m.slotOf addr = some i) (h : Space m.ram m.task.pagetable) (hw : m.ram.WellFormed)
include hp hm hhas hs h hw

/-- A mapping of user pages whose length rounds up in an `int` is removed. -/
theorem unmapVma_removes (hl : (m.vmaTable p).length ≤ 2 ^ 31 - 4096)
    (htop : pgRoundUp (m.vmaTable p).stop ≤ userTop) :
    ∃ ram, unmapVma addr m = .ok (0, m.removeMap i p ram) ∧
      Unmaps m.ram ram m.task.pagetable (m.vmaTable p).addr (m.vmaTable p).userEnd ∧
      GivesBack m.ram ram m.task.pagetable (m.vmaTable p).addr (m.vmaTable p).userEnd := by
  have hv := hp.placed i p hm
  obtain ⟨-, hcount⟩ := hv.unmapCount_eq hhas hl
  have hend : (m.vmaTable p).userEnd = pgRoundUp (m.vmaTable p).stop := min_eq_left htop
  have hvals : userTop < maxVa := by decide
  rw [unmapVma_of_mapped hs hm]
  rcases h.userUnmap hw hv.aligned (fun a ha h₁ h₂ hval hnone => by
      have := h.kernel a ha hval hnone
      rw [hcount] at h₂
      omega) with ⟨ram, hrun, hun, hback⟩ | ⟨hover, -⟩
  · rw [hcount, ← hend] at hun hback
    rw [hrun]
    exact ⟨ram, rfl, hun, hback⟩
  · rw [hcount] at hover
    omega

omit hhas h hw in
theorem unmapVma_keeps (hl : 2 ^ 31 - 4096 < (m.vmaTable p).length)
    (hok : unmapVma addr m = .ok (0, m')) : m'.ram = m.ram := by
  have hv := hp.placed i p hm
  rw [unmapVma_of_mapped hs hm, userUnmap_eq hv.aligned, hv.unmapCount_eq_zero hl] at hok
  cases hok
  rfl

/-- A mapping that comes to the pages of the kernel: the frame of one of them is freed. -/
theorem unmapVma_kernel (htop : Top m.ram m.task.pagetable)
    (hl : (m.vmaTable p).length ≤ 2 ^ 31 - 4096) (hgt : userTop < pgRoundUp (m.vmaTable p).stop)
    (hok : unmapVma addr m = .ok (0, m')) (hw' : m'.ram.WellFormed) :
    ∃ c < maxVa, userTop ≤ c ∧ pte2pa (m.ram.leaf m.task.pagetable c) ∈ m'.ram.freeList ∧
      ¬(pte2pa (m.ram.leaf m.task.pagetable c) ∈ m.ram.freeList ∨
        ∃ va < maxVa, (m.vmaTable p).addr ≤ va ∧ va < userTop ∧
          m.ram.userFrame m.task.pagetable va = some (pte2pa (m.ram.leaf m.task.pagetable c))) := by
  have hv := hp.placed i p hm
  obtain ⟨hpos, hcount⟩ := hv.unmapCount_eq hhas hl
  rw [unmapVma_of_mapped hs hm, userUnmap_eq hv.aligned] at hok
  cases hloop : unmapFrom m.task.pagetable true
      (unmapCount (m.vmaTable p).addr (m.vmaTable p).npages) m.ram (m.vmaTable p).addr with
  | error e =>
    rw [hloop] at hok
    cases hok
  | ok ram =>
    rw [hloop] at hok
    obtain rfl : m.removeMap i p ram = m' := by
      cases hok
      rfl
    exact h.frees_kernel hw htop hv.aligned hpos (by omega) hloop hw'

end Unmap

end Machine

def MemAllocator.Frees (s s' : MemAllocator) (root a b : ℕ) : Prop :=
  ∀ q, q ∉ s.freeList → (q ∈ s'.freeList ↔
    ∃ va < maxVa, a ≤ va ∧ va < b ∧ s.userFrame root va = some q)

theorem Vma.Placed.contains {v : Vma} {addr : ℕ} (h : v.Placed) (hhas : v.Has addr) :
    v.Contains addr := by
  obtain ⟨h0, hstop⟩ := h.stop_eq hhas
  have := h.hi
  have := h.length_hi
  obtain ⟨h₁, h₂⟩ := hhas
  unfold Vma.Contains pgRoundDown pgRoundUp
  omega

theorem Vma.Placed.page_mem {v : Vma} {addr va : ℕ} (h : v.Placed) (hhas : v.Has addr)
    (hend : pgRoundUp v.stop ≤ userTop) (hpage : va / pgSize = addr / pgSize) :
    v.addr ≤ va ∧ va < v.userEnd := by
  obtain ⟨h0, hstop⟩ := h.stop_eq hhas
  have ha := h.aligned
  have := h.hi
  have := h.length_hi
  obtain ⟨h₁, h₂⟩ := hhas
  unfold Vma.userEnd
  rw [min_eq_left hend]
  unfold pgRoundUp
  rw [show pgSize = 4096 from rfl] at *
  omega

namespace System

variable {s s' s₁ : System} {addr i j p q : ℕ}

/-- The running process in its memory: `sys_mmap` has placed the mappings without a file, and the
frames of the pages of the kernel are not free. -/
structure Unmappable (s : System) : Prop extends s.Faultable where
  placed : s.machine.Placed
  taken : ∀ va < maxVa, userTop ≤ va → pte2pa (s.ram.leaf s.myTask.task.pagetable va) ∉ s.ram.freeList

/-- The mapping in slot `i`, at `p` in the pool, is gone: its entry is cleared, its user pages are
unmapped, their frames are freed and no others, and all else is as it was. -/
structure Removes (s s' : System) (i p : ℕ) : Prop where
  eq : s' = s.setMachine (s.machine.removeMap i p s'.ram)
  unmaps : Unmaps s.ram s'.ram s.myTask.task.pagetable (s.vmaTable p).addr (s.vmaTable p).userEnd
  frees : Frees s.ram s'.ram s.myTask.task.pagetable (s.vmaTable p).addr (s.vmaTable p).userEnd

/-- What `sys_munmap` is to do with an address. -/
structure MunmapExact (s : System) (addr : ℕ) : Prop where
  removes : ∀ i p, s.machine.Mapped i p → (s.vmaTable p).Has addr →
    ∃ s', sysMunmap addr s = .ok (0, s') ∧ s.Removes s' i p
  refuses : ((∀ i p, ¬s.machine.Holds i p addr) ∨
      ∃ i p, s.machine.Holds i p addr ∧ (s.vmaTable p).ip ≠ none) →
    sysMunmap addr s = .ok (-1, s)

/-- `argaddr` finds the page of the address loaded, or does not know it. -/
def Untouched (s : System) (addr : ℕ) : Prop :=
  s.ram.Unloaded s.myTask.task.pagetable addr →
    s.myTask.task.faultPage s.contents s.vmaTable addr = none

def RoomFor (s : System) (addr : ℕ) : Prop :=
  s.ram.missing (pgRoundDown addr) 2 s.myTask.task.pagetable + 1 ≤ s.ram.freeList.length

/-- The length of the mapping rounds up in an `int`, its pages are pages of the user, and the page
of the address is loaded or can be. -/
def Removable (s : System) (p addr : ℕ) : Prop :=
  (s.vmaTable p).length ≤ 2 ^ 31 - 4096 ∧ pgRoundUp (s.vmaTable p).stop ≤ userTop ∧
    (¬s.ram.Unloaded s.myTask.task.pagetable addr ∨ s.RoomFor addr)

theorem sysMunmap_of_load {b : Bool} (hload : loadIfValid addr s = .ok (b, s₁)) :
    sysMunmap addr s = onMachine (unmapVma addr) s₁ := bind_of_ok hload

theorem sysMunmap_ok {z : ℤ} (hok : sysMunmap addr s = .ok (z, s')) : ∃ b s₁ m,
    loadIfValid addr s = .ok (b, s₁) ∧ unmapVma addr s₁.machine = .ok (z, m) ∧
      s' = s₁.setMachine m := by
  obtain ⟨b, s₁, hload, hrest⟩ := bind_eq_ok.mp hok
  obtain ⟨m, hrun, rfl⟩ := onMachine_eq_ok.mp hrest
  exact ⟨b, s₁, m, hload, hrun, rfl⟩

theorem MunmapExact.unique (h : s.MunmapExact addr) (hm : s.machine.Mapped i p)
    (hhas : (s.vmaTable p).Has addr) (hq : s.machine.Holds j q addr) : j = i := by
  obtain ⟨s', hrun, hrem⟩ := h.removes i p hm hhas
  cases hip : (s.vmaTable q).ip with
  | some f =>
    have hrun' := h.refuses (Or.inr ⟨j, q, hq, by rw [hip]; exact Option.some_ne_none f⟩)
    rw [hrun] at hrun'
    cases hrun'
  | none =>
    obtain ⟨s'', hrun', hrem'⟩ := h.removes j q ⟨hq.lt, hq.slot, hip⟩ hq.has
    obtain rfl : s' = s'' := by
      rw [hrun] at hrun'
      cases hrun'
      rfl
    have hvma : ∀ {k r}, s.Removes s' k r →
        s'.myTask.task.vma = Function.update s.myTask.task.vma k none := by
      intro k r hr
      rw [hr.eq]
      exact congrArg Task.vma (congrArg Proc.task setProc_self)
    by_contra hne
    have hnone : s'.myTask.task.vma j = none := by
      rw [hvma hrem']
      exact Function.update_self ..
    have hsome : s'.myTask.task.vma j = some q := by
      rw [hvma hrem]
      exact (Function.update_of_ne hne ..).trans hq.slot
    rw [hnone] at hsome
    cases hsome

section Exact

variable (h : s.Unmappable) (hm : s.machine.Mapped i p) (hhas : (s.vmaTable p).Has addr)
include h hm hhas

/-- The pages of the mapping are unmapped at once, or after the page of the address was loaded. -/
theorem Unmappable.removes_of_unmap {ram₁ ram : MemAllocator}
    (hload : ram₁ = s.ram ∨ s.ram.Unloaded s.myTask.task.pagetable addr ∧
    ram₁.freeList <:+ s.ram.freeList ∧
      ∃ q perm, MapsPage s.ram ram₁ s.myTask.task.pagetable (pgRoundDown addr) q perm ∧ UserPerm perm)
    (hend : pgRoundUp (s.vmaTable p).stop ≤ userTop)
    (hun : Unmaps ram₁ ram s.myTask.task.pagetable (s.vmaTable p).addr (s.vmaTable p).userEnd)
    (hback : GivesBack ram₁ ram s.myTask.task.pagetable (s.vmaTable p).addr (s.vmaTable p).userEnd) :
    s.Removes (s.setMachine (s.machine.removeMap i p ram)) i p := by
  have hplaced := h.placed.placed i p hm
  rcases hload with rfl | ⟨hu, hsuf, q, perm, hmap, hperm⟩
  · refine ⟨rfl, hun, fun x hx => ?_⟩
    change x ∈ ram.freeList ↔ _
    rw [hback x, or_iff_right hx]
  · have hvals : userTop = 274877898752 ∧ maxVa = 274877906944 ∧ pgSize = 4096 := by decide
    have hpage : ∀ va, va / pgSize = pgRoundDown addr / pgSize → 
        (s.vmaTable p).addr ≤ va ∧ va < (s.vmaTable p).userEnd := by
      intro va hva
      refine hplaced.page_mem hhas hend (hva.trans ?_)
      rw [hvals.2.2]
      unfold pgRoundDown
      omega
    have hleaf : ∀ va < maxVa, ¬((s.vmaTable p).addr ≤ va ∧ va < (s.vmaTable p).userEnd) →
        ram₁.leaf s.myTask.task.pagetable va = s.ram.leaf s.myTask.task.pagetable va := by
      intro va hva hout
      rw [hmap.leaf va hva, if_neg (mt (hpage va) hout)]
    refine ⟨rfl, ⟨hmap.acts.trans hun.acts, hmap.kept.trans hun.kept, hun.inside,
      fun va hva hout => (hun.outside va hva hout).trans (hleaf va hva hout), ?_⟩, ?_⟩
    · intro va hva hout x hx y h₁ h₂
      have hx₁ := (userFrame_congr (hleaf va hva hout)).trans hx
      exact (hun.pages va hva hout x hx₁ y h₁ h₂).trans (hmap.pages va hva x hx y h₁ h₂)
    · intro x hx
      change x ∈ ram.freeList ↔ _
      rw [hback x, or_iff_right (fun hc => hx (hsuf.subset hc))]
      refine exists_congr fun va => and_congr_right fun hva => and_congr_right fun _ =>
        and_congr_right fun _ => ?_
      by_cases hpg : va / pgSize = pgRoundDown addr / pgSize
      · have hq : ram₁.userFrame s.myTask.task.pagetable va = some q :=
          userFrame_of_leaf hperm (h.wellFormed.isPage q hmap.fresh)
            ((hmap.leaf va hva).trans (if_pos hpg))
        have hnone : s.ram.userFrame s.myTask.task.pagetable va = none := by
          refine (hu.page ?_) hva
          rw [hvals.2.2] at hpg
          unfold pgRoundDown at hpg ⊢
          omega
        rw [hq, hnone]
        refine iff_of_false ?_ nofun
        rintro he
        cases he
        exact hx hmap.fresh
      · rw [userFrame_congr ((hmap.leaf va hva).trans (if_neg hpg))]

/-- A removable mapping that is the first with the address is removed. -/
theorem Unmappable.removes (hs : s.machine.slotOf addr = some i) (hr : s.Removable p addr) :
    ∃ s', sysMunmap addr s = .ok (0, s') ∧ s.Removes s' i p := by
  obtain ⟨hl, hend, hroom⟩ := hr
  by_cases hu : s.ram.Unloaded s.myTask.task.pagetable addr
  · have hv := h.placed.placed i p hm
    have hva : addr < userTop := by
      have := (hv.page_mem hhas hend rfl).2
      unfold Vma.userEnd at this
      omega
    obtain ⟨ram₁, q, perm, hload, hsuf, hperm, hmap⟩ := h.load_of_room hu hva
      (Task.faultPage_ne_none hm.lt hm.slot (hv.contains hhas)) (hroom.resolve_left (not_not.mpr hu))
    have hm₁ : ({ s with ram := ram₁ } : System).machine.Mapped i p := ⟨hm.lt, hm.slot, hm.ip⟩
    have hp₁ : ({ s with ram := ram₁ } : System).machine.Placed :=
      ⟨h.placed.inj, fun j r hr => h.placed.placed j r ⟨hr.lt, hr.slot, hr.ip⟩⟩
    obtain ⟨ram, hrun, hun, hback⟩ := Machine.unmapVma_removes hp₁ hm₁ hhas hs hmap.acts.space
      hmap.acts.moves.wf hl hend
    refine ⟨s.setMachine (s.machine.removeMap i p ram), ?_, h.removes_of_unmap hm hhas
      (.inr ⟨hu, hsuf, q, perm, hmap, hperm⟩) hend hun hback⟩
    rw [sysMunmap_of_load hload]
    exact onMachine_eq_ok.mpr ⟨_, hrun, rfl⟩
  · obtain ⟨ram, hrun, hun, hback⟩ := Machine.unmapVma_removes h.placed hm hhas hs h.space
      h.wellFormed hl hend
    refine ⟨s.setMachine (s.machine.removeMap i p ram), ?_, h.removes_of_unmap hm hhas (.inl rfl) hend
      hun hback⟩
    rw [sysMunmap_of_load (h.load_of_loaded hu)]
    exact onMachine_eq_ok.mpr ⟨_, hrun, rfl⟩

omit h hm hhas in
theorem lost_absurd {ram₁ ram : MemAllocator} {root : ℕ} (hlost : LosesFrame s.ram ram₁ root q)
    (hmoves : ∀ x, x ∈ ram.footprint root ∨ x ∈ ram.freeList →
      x ∈ ram₁.footprint root ∨ x ∈ ram₁.freeList) : ¬KeptIn s.ram ram root := fun hkept =>
  (hmoves q (hkept q (.inr hlost.fresh))).elim hlost.notOwned hlost.notFree

section Removed

variable {ram₁ : MemAllocator} {m : Machine}
  (hs : s.machine.slotOf addr = some i)
  (hload : (ram₁ = s.ram ∧ ¬s.ram.Unloaded s.myTask.task.pagetable addr) ∨ addr < userTop ∧
    s.ram.Unloaded s.myTask.task.pagetable addr ∧ ∃ perm byte, UserPerm perm ∧
      Loads s.ram ram₁ s.myTask.task.pagetable addr perm byte)
  (hrun : unmapVma addr { s.machine with ram := ram₁ } = .ok (0, m))
  (hun : Unmaps s.ram m.ram s.myTask.task.pagetable (s.vmaTable p).addr (s.vmaTable p).userEnd)
include hs hload hrun hun

/-- The page of the address is loaded when the mapping is removed, so it has to be unmapped. -/
theorem Unmappable.length_le : (s.vmaTable p).length ≤ 2 ^ 31 - 4096 := by
  by_contra hl
  have hkeep : m.ram = ram₁ := Machine.unmapVma_keeps (m := { s.machine with ram := ram₁ })
    ⟨h.placed.inj, fun j r hr => h.placed.placed j r ⟨hr.lt, hr.slot, hr.ip⟩⟩
    ⟨hm.lt, hm.slot, hm.ip⟩ hs (not_le.mp hl) hrun
  have hgone : addr < userTop → ¬isValid (ram₁.leaf s.myTask.task.pagetable addr) := by
    intro hlt
    have hvals : userTop < maxVa := by decide
    rw [← hkeep]
    exact hun.inside addr (hlt.trans hvals) hhas.1
      (lt_min ((h.placed.placed i p hm).contains hhas).2 hlt)
  rcases hload with ⟨rfl, hl⟩ | ⟨hva, -, perm, byte, -, q, ⟨hmap, -⟩ | ⟨-, hlost⟩⟩
  · apply hl
    intro hlt
    cases hq : s.ram.userFrame s.myTask.task.pagetable addr with
    | none => rfl
    | some q => exact absurd (pte2pa_of_userFrame hq).1 (hgone (h.space.below addr hlt q hq))
  · refine hgone hva ?_
    have hvals : userTop < maxVa := by decide
    rw [hmap.leaf addr (hva.trans hvals), if_pos]
    · exact isValid_or _
    · rw [show pgSize = 4096 from rfl]
      unfold pgRoundDown
      omega
  · exact lost_absurd hlost (fun x hx => hkeep ▸ hx) hun.kept

theorem Unmappable.stop_le (h₁ : Space ram₁ s.myTask.task.pagetable) (hw₁ : ram₁.WellFormed)
    (ht₁ : Top ram₁ s.myTask.task.pagetable)
    (hfrees : Frees s.ram m.ram s.myTask.task.pagetable (s.vmaTable p).addr (s.vmaTable p).userEnd) :
    pgRoundUp (s.vmaTable p).stop ≤ userTop := by
  by_contra hgt
  have hl := h.length_le hm hhas hs hload hrun hun
  obtain ⟨c, hc, hle, hfree, hnot⟩ := Machine.unmapVma_kernel (m := { s.machine with ram := ram₁ })
    ⟨h.placed.inj, fun j r hr => h.placed.placed j r ⟨hr.lt, hr.slot, hr.ip⟩⟩
    ⟨hm.lt, hm.slot, hm.ip⟩ hhas hs h₁ hw₁ ht₁ hl (not_le.mp hgt) hrun hun.acts.moves.wf
  have hleaf : ram₁.leaf s.myTask.task.pagetable c = s.ram.leaf s.myTask.task.pagetable c := by
    rcases hload with ⟨rfl, -⟩ | ⟨hva, -, perm, byte, -, hl⟩
    · rfl
    · refine hl.leaf_eq hc fun he => ?_
      have hvals : userTop = 274877898752 := by decide
      unfold pgRoundDown at he
      omega
  change pte2pa (ram₁.leaf s.myTask.task.pagetable c) ∈ m.ram.freeList at hfree
  apply hnot
  rw [hleaf] at hfree
  change pte2pa (ram₁.leaf s.myTask.task.pagetable c) ∈ ram₁.freeList ∨ ∃ va < maxVa,
    (s.vmaTable p).addr ≤ va ∧ va < userTop ∧ ram₁.userFrame s.myTask.task.pagetable va =
      some (pte2pa (ram₁.leaf s.myTask.task.pagetable c))
  rw [hleaf]
  obtain ⟨va, hva, h₂, h₃, hq⟩ := (hfrees _ (h.taken c hc hle)).mp hfree
  refine .inr ⟨va, hva, h₂, lt_of_lt_of_le h₃ (min_le_right ..), ?_⟩
  rcases hload with ⟨rfl, -⟩ | ⟨-, hu, perm, byte, -, hl⟩
  · exact hq
  · exact hl.userFrame_of hu hva hq

/-- The page of the address was loaded with the frames that there were. -/
theorem Unmappable.room (h₁ : Space ram₁ s.myTask.task.pagetable) (hw₁ : ram₁.WellFormed)
    (hend : pgRoundUp (s.vmaTable p).stop ≤ userTop) :
    ¬s.ram.Unloaded s.myTask.task.pagetable addr ∨ s.RoomFor addr := by
  have hl := h.length_le hm hhas hs hload hrun hun
  obtain ⟨ram, hrun', hun', -⟩ := Machine.unmapVma_removes (m := { s.machine with ram := ram₁ })
    ⟨h.placed.inj, fun j r hr => h.placed.placed j r ⟨hr.lt, hr.slot, hr.ip⟩⟩
    ⟨hm.lt, hm.slot, hm.ip⟩ hhas hs h₁ hw₁ hl hend
  have hram : m.ram = ram := by
    rw [hrun] at hrun'
    cases hrun'
    rfl
  rcases hload with ⟨-, hl⟩ | ⟨-, -, perm, byte, -, q, ⟨hmap, -⟩ | ⟨-, hlost⟩⟩
  · exact .inl hl
  · right
    have := hmap.cost
    unfold RoomFor
    omega
  · exact absurd hun.kept (lost_absurd hlost (hram ▸ hun'.acts.moves.frames))

end Removed

theorem Unmappable.removable (hs : s.machine.slotOf addr = some i)
    (hok : sysMunmap addr s = .ok (0, s')) (hrem : s.Removes s' i p) : s.Removable p addr := by
  obtain ⟨b, s₁, m, hl, hrun, hs'⟩ := sysMunmap_ok hok
  obtain ⟨heq, h₁, hwhat⟩ := h.load hl
  have hram : s'.ram = m.ram := by rw [hs']; rfl
  have hroot : s₁.myTask = s.myTask := by rw [heq]; rfl
  have hmach : s₁.machine = { s.machine with ram := s₁.ram } := by rw [heq]; rfl
  have hknown : s.myTask.task.faultPage s.contents s.vmaTable addr ≠ none :=
    Task.faultPage_ne_none hm.lt hm.slot ((h.placed.placed i p hm).contains hhas)
  rw [hmach] at hrun
  have hload := hwhat.imp_left fun hc => (⟨hc.1, fun hu => hknown (hc.2 hu)⟩ :
    s₁.ram = s.ram ∧ ¬s.ram.Unloaded s.myTask.task.pagetable addr)
  have hun := hrem.unmaps
  have hfrees := hrem.frees
  rw [hram] at hun hfrees
  obtain ⟨hspace, hw, htop, -, -⟩ := h₁
  rw [hroot] at hspace htop
  have hend := h.stop_le hm hhas hs hload hrun hun hspace hw htop hfrees
  exact ⟨h.length_le hm hhas hs hload hrun hun, hend,
    h.room hm hhas hs hload hrun hun hspace hw hend⟩

end Exact

theorem Unmappable.refuses (h : s.Unmappable) (hs : s.machine.slotOf addr = some i)
    (hi : s.myTask.task.vma i = some p) (hip : (s.vmaTable p).ip ≠ none) :
    sysMunmap addr s = .ok (-1, s) ↔ s.Untouched addr := by
  constructor
  · intro hok hu
    obtain ⟨b, s₁, m, hl, hrun, hs'⟩ := sysMunmap_ok hok
    obtain ⟨heq, -, ⟨-, hnone⟩ | ⟨-, -, perm, byte, -, q, hq⟩⟩ := h.load hl
    · exact hnone hu
    · have hmach : s₁.machine = { s.machine with ram := s₁.ram } := by rw [heq]; rfl
      have hsame : unmapVma addr s₁.machine = .ok (-1, s₁.machine) := Machine.unmapVma_of_file
        (i := i) (p := p) (by rw [hmach]; exact hs) (by rw [hmach]; exact hi)
        (by rw [hmach]; exact hip)
      have hm : m = s₁.machine := congrArg Prod.snd (Except.ok.inj (hrun.symm.trans hsame))
      have hram : s.ram = s₁.ram := by rw [hs', hm, s₁.setMachine_machine]
      rcases hq with ⟨hmap, -⟩ | ⟨-, hlost⟩
      · have := hmap.cost
        rw [hram] at this
        omega
      · exact absurd (hram ▸ hlost.fresh) hlost.notFree
  · intro hsame
    have hload : loadIfValid addr s = .ok (false, s) := by
      by_cases hu : s.ram.Unloaded s.myTask.task.pagetable addr
      · exact h.load_of_none (hsame hu)
      · exact h.load_of_loaded hu
    rw [sysMunmap_of_load hload]
    exact onMachine_eq_ok.mpr ⟨_, Machine.unmapVma_of_file hs hi hip, s.setMachine_machine.symm⟩

theorem Unmappable.sysMunmap_of_none (h : s.Unmappable) (hno : ∀ i p, ¬s.machine.Holds i p addr) :
    ∃ e, sysMunmap addr s = .error e := by
  cases hok : sysMunmap addr s with
  | error e => exact ⟨e, rfl⟩
  | ok q =>
    obtain ⟨z, s'⟩ := q
    obtain ⟨b, s₁, m, hl, hrun, -⟩ := sysMunmap_ok hok
    obtain ⟨heq, -, -⟩ := h.load hl
    have hno₁ : ∀ i p, ¬s₁.machine.Holds i p addr := by
      intro i p hh
      rw [heq] at hh
      exact hno i p ⟨hh.lt, hh.slot, hh.has⟩
    rw [Machine.unmapVma_of_none hno₁] at hrun
    cases hrun

/-- `sys_munmap` is exact when some mapping has the address, the page of an address in a mapping of
a file is loaded, and a mapping without a file that has the address is the only one and can be
removed. -/
theorem munmapExact_iff (h : s.Unmappable) (addr : ℕ) : s.MunmapExact addr ↔
    (∃ i p, s.machine.Holds i p addr) ∧
    (∀ i p, s.machine.Holds i p addr → (s.vmaTable p).ip ≠ none → s.Untouched addr) ∧
    ∀ i p, s.machine.Mapped i p → (s.vmaTable p).Has addr →
      (∀ j q, s.machine.Holds j q addr → j = i) ∧ s.Removable p addr := by
  constructor
  · intro hex
    refine ⟨?_, fun i p hh hip => ?_, fun i p hm hhas => ?_⟩
    · by_contra hno
      have hnone : ∀ i p, ¬s.machine.Holds i p addr := fun i p hh => hno ⟨i, p, hh⟩
      have hrun := hex.refuses (Or.inl hnone)
      obtain ⟨e, he⟩ := h.sysMunmap_of_none hnone
      rw [he] at hrun
      cases hrun
    · have hrun := hex.refuses (Or.inr ⟨i, p, hh, hip⟩)
      cases hs : s.machine.slotOf addr with
      | none => exact absurd hh (Machine.slotOf_eq_none.mp hs i p)
      | some k =>
        obtain ⟨r, hr⟩ := Machine.slotOf_some hs
        by_cases hnone : (s.vmaTable r).ip = none
        · obtain ⟨s', hrun', -⟩ := hex.removes k r ⟨hr.lt, hr.slot, hnone⟩ hr.has
          rw [hrun'] at hrun
          cases hrun
        · exact (h.refuses hs hr.slot hnone).mp hrun
    · have hone : ∀ j q, s.machine.Holds j q addr → j = i := fun j q => hex.unique hm hhas
      obtain ⟨s', hrun, hrem⟩ := hex.removes i p hm hhas
      exact ⟨hone, h.removable hm hhas (Machine.slotOf_eq (hm.holds hhas) hone) hrun hrem⟩
  · rintro ⟨⟨i₀, p₀, hsome⟩, hfile, hall⟩
    constructor
    · intro i p hm hhas
      obtain ⟨hone, hr⟩ := hall i p hm hhas
      exact h.removes hm hhas (Machine.slotOf_eq (hm.holds hhas) hone) hr
    · rintro (hno | ⟨j, q, hq, hip⟩)
      · exact absurd hsome (hno i₀ p₀)
      · cases hs : s.machine.slotOf addr with
        | none => exact absurd hsome (Machine.slotOf_eq_none.mp hs i₀ p₀)
        | some k =>
          obtain ⟨r, hr⟩ := Machine.slotOf_some hs
          refine (h.refuses hs hr.slot fun hnone => ?_).mpr (hfile j q hq hip)
          obtain rfl := (hall k r ⟨hr.lt, hr.slot, hnone⟩ hr.has).1 j q hq
          have hqr := hq.slot.symm.trans hr.slot
          cases hqr
          exact hip hnone

theorem machine_setMachine (m : Machine) : (s.setMachine m).machine = m :=
  congrArg (fun q : Proc => (⟨m.ram, m.vmaTable, q.task⟩ : Machine)) setProc_self

def oneMap : Machine where
  ram := (oneProcess []).ram
  vmaTable := Function.update (fun _ => .zero) 0 ⟨274873708544, .prog, 4096, 7, 0x22, none, 0⟩
  task := { Task.twoPages with vma := fun i => if i = 0 then some 0 else none }

theorem oneMap_slot (hs : oneMap.task.vma i = some p) : i = 0 ∧ p = 0 := by
  unfold oneMap at hs
  dsimp only at hs
  split at hs
  · cases hs
    exact ⟨‹_›, rfl⟩
  · cases hs

def mappedProcess : System := (oneProcess []).setMachine oneMap

theorem mappedProcess_machine : mappedProcess.machine = oneMap := machine_setMachine oneMap

theorem mappedProcess_task : mappedProcess.myTask.task = oneMap.task :=
  congrArg Machine.task mappedProcess_machine

theorem mappedProcess_taken {va : ℕ} (hva : va < maxVa) (htop : userTop ≤ va) :
    pte2pa (oneMap.ram.leaf oneMap.task.pagetable va) ∉ oneMap.ram.freeList := by
  have hvals : userTop = 274877898752 ∧ maxVa = 274877906944 ∧ pgSize = 4096 := by decide
  have htaken : pte2pa (oneMap.ram.leaf oneMap.task.pagetable 274877898752) ∉ oneMap.ram.freeList ∧
      pte2pa (oneMap.ram.leaf oneMap.task.pagetable 274877902848) ∉ oneMap.ram.freeList := by
    decide +kernel
  by_cases hlow : va < 274877902848
  · rw [leaf_page oneMap.ram oneMap.task.pagetable (show 274877898752 < maxVa by decide) hva
      (by rw [hvals.2.2]; omega)]
    exact htaken.1
  · rw [leaf_page oneMap.ram oneMap.task.pagetable (show 274877902848 < maxVa by decide) hva
      (by rw [hvals.2.2]; omega)]
    exact htaken.2

theorem mappedProcess_unmappable : mappedProcess.Unmappable := by
  have hready := Task.twoPages_ready.1
  have hv : (⟨274873708544, .prog, 4096, 7, 0x22, none, 0⟩ : Vma).Placed :=
    ⟨by decide, by norm_num, by norm_num, by norm_num, by norm_num⟩
  have hpt : mappedProcess.myTask.task.pagetable = Task.twoPages.pagetable := by
    rw [mappedProcess_task]
    rfl
  refine ⟨⟨?_, hready.wellFormed, ?_, fun i p hp => ?_, fun i p hp => ?_⟩, ?_, fun va hva htop => ?_⟩
  · rw [hpt]
    exact hready.space
  · rw [hpt]
    exact hready.top
  · rw [mappedProcess_task] at hp
    obtain ⟨-, rfl⟩ := oneMap_slot hp
    exact hv.aligned
  · rw [mappedProcess_task] at hp
    obtain ⟨-, rfl⟩ := oneMap_slot hp
    change 7 &&& 7 ≠ 0
    decide
  · rw [mappedProcess_machine]
    refine ⟨fun i j p _ _ hi hj => (oneMap_slot hi).1.trans (oneMap_slot hj).1.symm, fun i p hm => ?_⟩
    obtain ⟨-, rfl⟩ := oneMap_slot hm.slot
    exact hv
  · rw [mappedProcess_task]
    exact mappedProcess_taken hva htop

theorem munmapExact_iff_onePage : mappedProcess.MunmapExact 274873708544 := by
  refine (munmapExact_iff mappedProcess_unmappable 274873708544).mpr ⟨⟨0, 0, ?_⟩, ?_, ?_⟩
  · rw [mappedProcess_machine]
    exact ⟨by decide, rfl, by decide⟩
  · intro i p hh hip
    rw [mappedProcess_machine] at hh
    obtain ⟨-, rfl⟩ := oneMap_slot hh.slot
    exact absurd rfl hip
  · intro i p hm _
    rw [mappedProcess_machine] at hm ⊢
    obtain ⟨rfl, rfl⟩ := oneMap_slot hm.slot
    refine ⟨fun j q hq => (oneMap_slot hq.slot).1, by decide, by decide, .inr ?_⟩
    have hlen := Task.twoPages_ready.2
    unfold RoomFor
    rw [mappedProcess_task]
    exact le_trans (Nat.succ_le_succ (missing_le _ _ _)) hlen

/-- An address in no mapping ends in the null pointer. -/
theorem not_munmapExact_zero : mappedProcess.Unmappable ∧
    (∃ e, sysMunmap 0 mappedProcess = .error e) ∧ ¬mappedProcess.MunmapExact 0 := by
  have hnone : ∀ i p, ¬mappedProcess.machine.Holds i p 0 := by
    intro i p hh
    rw [mappedProcess_machine] at hh
    obtain ⟨rfl, rfl⟩ := oneMap_slot hh.slot
    exact absurd hh.has (by decide)
  obtain ⟨e, he⟩ := mappedProcess_unmappable.sysMunmap_of_none hnone
  refine ⟨mappedProcess_unmappable, ⟨e, he⟩, fun hex => ?_⟩
  have hrun := hex.refuses (Or.inl hnone)
  rw [he] at hrun
  cases hrun

end System

end StartOS
