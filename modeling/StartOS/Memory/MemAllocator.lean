import StartOS.Kernel.Basic
import StartOS.Lib.ByteMem

/-! # The page allocator

`MemAllocator` keeps the free pages on a stack. The stack is a list of page
addresses here; the link words inside free pages, which only the allocator
reads, are left out. Pages are filled with the byte 5 on either way through.
-/

namespace StartOS

/-- Physical memory and the free pages; `kend` is the linker symbol `end`. -/
structure MemAllocator where
  kend : ℕ
  mem : ByteMem
  freeList : List ℕ
  npage : ℤ

namespace MemAllocator

/-- `MemAllocator::alloc`, with 0 for the null pointer. -/
def alloc (s : MemAllocator) : ℕ × MemAllocator :=
  match s.freeList with
  | [] => (0, s)
  | r :: l => (r, { s with freeList := l, npage := s.npage - 1, mem := s.mem.fill r pgSize 5 })

def free (s : MemAllocator) (pa : ℕ) : Kernel MemAllocator :=
  if pa % pgSize ≠ 0 ∨ pa < s.kend ∨ pa ≥ physTop then .error (.panic "kfree")
  else .ok { s with freeList := pa :: s.freeList, npage := s.npage + 1,
                    mem := s.mem.fill pa pgSize 5 }

/-- A page `free` accepts. -/
structure IsPage (s : MemAllocator) (p : ℕ) : Prop where
  aligned : p % pgSize = 0
  kend_le : s.kend ≤ p
  lt_top : p < physTop

/-- The free list holds distinct pages, none of them at address 0. -/
structure WellFormed (s : MemAllocator) : Prop where
  kend_pos : 0 < s.kend
  nodup : s.freeList.Nodup
  isPage : ∀ p ∈ s.freeList, s.IsPage p

variable {s : MemAllocator} {p : ℕ}

theorem IsPage.free_eq (h : s.IsPage p) :
    s.free p = .ok { s with freeList := p :: s.freeList, npage := s.npage + 1,
                            mem := s.mem.fill p pgSize 5 } := by
  have hn : ¬ (p % pgSize ≠ 0 ∨ p < s.kend ∨ p ≥ physTop) := by
    have := h.aligned; have := h.kend_le; have := h.lt_top
    omega
  rw [free, if_neg hn]

end MemAllocator

end StartOS
