import Mathlib.Algebra.Order.Ring.Nat
import Mathlib.Data.Nat.Bitwise
import StartOS.Lib.RadixTree
import StartOS.Memory.MemAllocator

/-! # Page tables

Sv39 page tables live in raw frames: a node is a page of 512 little-endian words
of 8 bytes. `walk` follows two levels of links to the word for a virtual
address and, when asked, makes the missing nodes; `mappages` fills the words of
a range of pages.
-/

namespace StartOS

def maxVa : ℕ := 2 ^ 38

def px (level va : ℕ) : Fin 512 := ⟨va / 2 ^ (12 + 9 * level) % 512, Nat.mod_lt _ (by norm_num)⟩

def pa2pte (pa : ℕ) : ℕ := pa / 4096 * 1024

def pte2pa (pte : ℕ) : ℕ := pte / 1024 * 4096 % 2 ^ 64

def pteFlags (pte : ℕ) : ℕ := pte % 1024

def pteV : ℕ := 1
def pteR : ℕ := 2
def pteW : ℕ := 4
def pteX : ℕ := 8
def pteU : ℕ := 16

/-- `*pte & PTE_V`. -/
def isValid (pte : ℕ) : Bool := pte &&& pteV != 0

namespace MemAllocator

def pteAddr (n : ℕ) (i : Fin 512) : ℕ := n + 8 * i

variable (s : MemAllocator)

def pteAt (a : ℕ) : ℕ := s.mem.readLE a 8

/-- `*pte = v`. -/
def setPte (a v : ℕ) : MemAllocator := { s with mem := s.mem.writeLE a 8 v }

def zalloc : ℕ × MemAllocator :=
  match s.alloc with
  | (0, s) => (0, s)
  | (p, s) => (p, { s with mem := s.mem.fill p pgSize 0 })

/-- The loop of `walk` from `level` down, with `n` the table reached. -/
def walkFrom (s : MemAllocator) (va : ℕ) (alloc : Bool) : ℕ → ℕ → ℕ × MemAllocator
  | 0, n => (pteAddr n (px 0 va), s)
  | level + 1, n =>
    let pte := pteAddr n (px (level + 1) va)
    if isValid (s.pteAt pte) then walkFrom s va alloc level (pte2pa (s.pteAt pte))
    else if !alloc then (0, s)
    else
      match s.zalloc with
      | (0, s) => (0, s)
      | (p, s) => walkFrom (s.setPte pte (pa2pte p ||| pteV)) va alloc level p

/-- `walk`: the address of the entry for `va`, or 0. -/
def walk (pagetable va : ℕ) (alloc : Bool) : Kernel (ℕ × MemAllocator) :=
  if va ≥ maxVa then .error (.panic "walk") else .ok (s.walkFrom va alloc 2 pagetable)

/-- The loop of `mappages`. -/
def mapFrom (pagetable last perm : ℕ) : ℕ → MemAllocator → ℕ → ℕ → Kernel (ℤ × MemAllocator)
  | 0, _, _, _ => .error .hang
  | n + 1, s, a, pa => do
    let (pte, s) ← s.walk pagetable a true
    if pte = 0 then return (-1, s)
    if isValid (s.pteAt pte) then .error (.panic "remap")
    let s := s.setPte pte (pa2pte pa ||| perm ||| pteV)
    if a = last then return (0, s)
    mapFrom pagetable last perm n s ((a + pgSize) % 2 ^ 64) ((pa + pgSize) % 2 ^ 64)

/-- `mappages`. Past `MAXVA` the loop ends in `walk`, so the bound on its turns is never
met. -/
def mappages (pagetable va size pa perm : ℕ) : Kernel (ℤ × MemAllocator) :=
  mapFrom pagetable (pgRoundDown ((va + size + 2 ^ 64 - 1) % 2 ^ 64)) perm (maxVa / pgSize + 1) s
    (pgRoundDown va) pa

def walkAddr (pagetable va : ℕ) : Kernel ℕ :=
  if va ≥ maxVa then .ok 0
  else do
    let (pte, s) ← s.walk pagetable va false
    if pte = 0 then return 0
    if !isValid (s.pteAt pte) then return 0
    if s.pteAt pte &&& pteU = 0 then return 0
    return pte2pa (s.pteAt pte)

end MemAllocator

end StartOS
