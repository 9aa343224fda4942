import StartOS.Memory.MemAllocator

/-! # The buddy allocator

`BuddyAllocator` hands out blocks of `2 ^ 4` to `2 ^ 12` bytes. The free blocks
of one level are threaded through their own first word from `freelist[level]`;
a block in use keeps its level in its first byte and the caller gets the
address 8 bytes further on.
-/

namespace StartOS

inductive PageCall
  | take (p : ℕ)
  | give (p : ℕ)
  deriving DecidableEq, Repr

/-- The buddy allocator over the page allocator. `calls` is a ghost record of the pages
taken and given back, latest first. -/
structure BuddyAllocator where
  freelist : ℕ → ℕ
  pages : MemAllocator
  calls : List PageCall

namespace BuddyAllocator

def minLevel : ℕ := 4

def maxLevel : ℕ := 12

/-- The loop of `_calc_level`. -/
def calcLevelFrom (size : ℕ) : ℕ → ℕ → ℕ → Kernel ℕ
  | 0, _, _ => .error .hang
  | n + 1, sz, lv => if size > sz then calcLevelFrom size n (sz * 2) (lv + 1) else .ok lv

/-- `_calc_level`. Past `2 ^ 63` the doubled size wraps to 0 and the loop does not end. -/
def calcLevel (size : ℕ) : Kernel ℕ := calcLevelFrom size 60 (2 ^ minLevel) minLevel

def getBuddy (block lv : ℕ) : ℕ := block ^^^ 2 ^ lv

variable (s : BuddyAllocator)

def next (block : ℕ) : ℕ := s.pages.mem.readLE block 8

def setMem (m : ByteMem) : BuddyAllocator := { s with pages := { s.pages with mem := m } }

def push (i block : ℕ) : BuddyAllocator :=
  { s.setMem (s.pages.mem.writeLE block 8 (s.freelist i)) with
    freelist := Function.update s.freelist i block }

def takeBlock : ℕ → ℕ → Kernel (ℕ × ℕ × BuddyAllocator)
  | 0, _ => .error .hang
  | n + 1, i =>
    if i > maxLevel then .error .fault
    else if s.freelist i ≠ 0 then
      .ok (i, s.freelist i,
        { s with freelist := Function.update s.freelist i (s.next (s.freelist i)) })
    else if i ≥ maxLevel then .ok (i, 0, s)
    else takeBlock n (i + 1)

def newPage : Kernel (ℕ × BuddyAllocator) :=
  match s.pages.alloc with
  | (0, _) => .error (.panic "buddy alloc")
  | (p, pages) => .ok (p, { s with pages := pages, calls := .take p :: s.calls })

/-- Split a block of level `lv + n` down to level `lv`, freeing the upper halves. -/
def split (s : BuddyAllocator) (block lv : ℕ) : ℕ → BuddyAllocator
  | 0 => s
  | n + 1 => split (s.push (lv + n) (getBuddy block (lv + n))) block lv n

def setLevel (block lv : ℕ) : BuddyAllocator :=
  s.setMem (s.pages.mem.blit block 1 fun _ => UInt8.ofNat lv)

def alloc (sz : ℕ) : Kernel (ℕ × BuddyAllocator) := do
  let lv ← calcLevel ((sz + 8) % 2 ^ 64)
  let (i, block, s) ← s.takeBlock (maxLevel + 1) lv
  let (block, s) ← if block = 0 then s.newPage else .ok (block, s)
  return (block + 8, (s.split block lv (i - lv)).setLevel block lv)

/-- The word a cursor into free list `i` points at: the list head, or the `next` word of a
block. -/
def deref (i : ℕ) : Option ℕ → ℕ
  | none => s.freelist i
  | some p => s.next p

def assign (i : ℕ) (cell : Option ℕ) (v : ℕ) : BuddyAllocator :=
  match cell with
  | none => { s with freelist := Function.update s.freelist i v }
  | some p => s.setMem (s.pages.mem.writeLE p 8 v)

/-- Move a cursor through free list `i` until it points at `buddy` or at the end. -/
def seek (i buddy : ℕ) : ℕ → Option ℕ → Kernel (Option ℕ)
  | 0, _ => .error .hang
  | n + 1, cell =>
    if s.deref i cell ≠ 0 ∧ s.deref i cell ≠ buddy then seek i buddy n (some (s.deref i cell))
    else .ok cell

/-- The merge loop of `BuddyAllocator::free`. -/
def mergeUp (s : BuddyAllocator) : ℕ → ℕ → ℕ → Kernel BuddyAllocator
  | 0, _, _ => .error .hang
  | n + 1, block, i =>
    if i = maxLevel then do
      let pages ← s.pages.free block
      return { s with pages := pages, calls := .give block :: s.calls }
    else if i > maxLevel then .error .fault
    else do
      let cell ← s.seek i (getBuddy block i) physTop none
      if s.deref i cell ≠ getBuddy block i then return s.push i block
      else
        let rest := s.assign i cell (s.next (s.deref i cell))
        rest.mergeUp n (min block (getBuddy block i)) (i + 1)

def free (pa : ℕ) : Kernel BuddyAllocator :=
  s.mergeUp (maxLevel + 1) (pa - 8) (s.pages.mem (pa - 8)).toNat

@[simp] theorem setMem_mem (m : ByteMem) : (s.setMem m).pages.mem = m := rfl
theorem calcLevelFrom_spec {size n sz lv : ℕ} (hs : sz = 2 ^ lv) (hn : size ≤ 2 ^ (lv + n)) :
    ∃ k, calcLevelFrom size (n + 1) sz lv = .ok k ∧ lv ≤ k ∧ k ≤ lv + n ∧ size ≤ 2 ^ k := by
  induction n generalizing sz lv with
  | zero =>
    have : ¬ size > sz := by simpa [hs] using hn
    exact ⟨lv, by rw [calcLevelFrom, if_neg this], le_rfl, le_rfl, hn⟩
  | succ n ih =>
    rw [calcLevelFrom]
    by_cases h : size > sz
    · rw [if_pos h]
      obtain ⟨k, hk, h₁, h₂, h₃⟩ := ih (show sz * 2 = 2 ^ (lv + 1) by rw [hs, pow_succ])
        (by rwa [show lv + 1 + n = lv + (n + 1) by omega])
      exact ⟨k, hk, by omega, by omega, h₃⟩
    · rw [if_neg h]
      exact ⟨lv, rfl, le_rfl, by omega, by omega⟩

theorem calcLevelFrom_mono {size n m sz lv k : ℕ} (h : calcLevelFrom size n sz lv = .ok k)
    (hm : n ≤ m) : calcLevelFrom size m sz lv = .ok k := by
  induction n generalizing m sz lv with
  | zero => cases h
  | succ n ih =>
    obtain ⟨m, rfl⟩ : ∃ j, m = j + 1 := ⟨m - 1, by omega⟩
    rw [calcLevelFrom] at h ⊢
    split at h
    · rw [if_pos ‹_›]; exact ih h (by omega)
    · rw [if_neg ‹_›]; exact h

theorem calcLevel_spec {sz : ℕ} (h : sz ≤ 4088) :
    ∃ k, calcLevel ((sz + 8) % 2 ^ 64) = .ok k ∧ minLevel ≤ k ∧ k ≤ maxLevel ∧
      sz + 8 ≤ 2 ^ k := by
  have hm : (sz + 8) % 2 ^ 64 = sz + 8 := Nat.mod_eq_of_lt (by omega)
  have hle : sz + 8 ≤ 2 ^ (minLevel + 8) := by
    norm_num [minLevel]
    omega
  obtain ⟨k, hk, h₁, h₂, h₃⟩ := calcLevelFrom_spec rfl hle
  rw [hm]
  exact ⟨k, calcLevelFrom_mono hk (by norm_num), h₁, h₂, h₃⟩

end BuddyAllocator

end StartOS
