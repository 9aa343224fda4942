import Mathlib.Logic.Function.Basic
import StartOS.Memory.PageTable

/-! # Processes and their mappings

The task table, the pool `vma_table_` that all processes share, and the user
part of the page-table code. A task refers to its mappings by their places in
the pool.
-/

namespace StartOS

def ntask : ℕ := 50

def nofile : ℕ := 120

def nommapfile : ℕ := 60

def nvma : ℕ := 60

/-- The tag of a `struct vma`. -/
inductive VmaType
  | prog
  | data
  deriving DecidableEq, Repr

/-- `struct vma`. The file pointer `f` is null in every mapping the kernel makes. -/
structure Vma where
  addr : ℕ
  type : VmaType
  length : ℤ
  prot : ℕ
  flag : ℤ
  ip : Option ℕ
  offset : ℕ
  deriving DecidableEq, Repr

def Vma.zero : Vma := ⟨0, .prog, 0, 0, 0, none, 0⟩

structure Task where
  pagetable : ℕ
  openFiles : ℕ → Option ℕ
  vma : ℕ → Option ℕ
  sz : ℤ

/-- The memory, the pool of mappings and the running task. -/
structure Machine where
  ram : MemAllocator
  vmaTable : ℕ → Vma
  task : Task

abbrev SysM := StateT Machine Kernel

namespace MemAllocator

/-- The loop of `userUnmap` over `n` pages. -/
def unmapFrom (pagetable : ℕ) (doFree : Bool) : ℕ → MemAllocator → ℕ → Kernel MemAllocator
  | 0, s, _ => return s
  | n + 1, s, a => do
    let (pte, s) ← s.walk pagetable a false
    if pte = 0 ∨ !isValid (s.pteAt pte) then unmapFrom pagetable doFree n s (a + pgSize)
    else if pteFlags (s.pteAt pte) = pteV then .error (.panic "uvmunmap: not a leaf")
    else
      let s ← if doFree then s.free (pte2pa (s.pteAt pte)) else pure s
      unmapFrom pagetable doFree n (s.setPte pte 0) (a + pgSize)

/-- `userUnmap`. The end of the range is computed in 64 bits. -/
def userUnmap (s : MemAllocator) (pagetable va npages : ℕ) (doFree : Bool) : Kernel MemAllocator :=
  if va % pgSize ≠ 0 then .error (.panic "uvmunmap: not aligned")
  else unmapFrom pagetable doFree (((va + npages * pgSize) % 2 ^ 64 - va) / pgSize) s va

end MemAllocator

def pgRoundUpInt (n : ℤ) : ℤ := toInt32 (n + 4095) / 4096 * 4096

def toU64 (n : ℤ) : ℕ := (n % 2 ^ 64).toNat

/-- `getFileByfd`. The slot behind the last descriptor is looked at as well. -/
def getFileByfd (fd : ℤ) : SysM (Option ℕ) := do
  if fd < 0 ∨ fd > nofile then return none
  return (← get).task.openFiles fd.toNat

def Machine.freeVma (m : Machine) : Option ℕ :=
  (List.range nvma).find? fun p =>
    (m.vmaTable p).ip = none ∧ (m.vmaTable p).addr = 0 ∧ (m.vmaTable p).length = 0

def allocVma : SysM ℕ := do
  match (← get).freeVma with
  | some p => return p
  | none => throw (.panic "not enough vma")

def setVma (p : ℕ) (v : Vma) : SysM Unit :=
  modify fun m => { m with vmaTable := Function.update m.vmaTable p v }

/-- `task->vma[i] = p`. -/
def setSlot (i : ℕ) (p : Option ℕ) : SysM Unit :=
  modify fun m => { m with task := { m.task with vma := Function.update m.task.vma i p } }

/-- The sum `vmasz` that `sys_mmap` takes over the mappings of the task, in an `int`. -/
def Machine.vmaSum (m : Machine) : ℤ :=
  (List.range nommapfile).foldl (fun acc i =>
    match m.task.vma i with
    | some p => toInt32 (acc + (m.vmaTable p).length)
    | none => acc) 0

def Machine.freeSlot (m : Machine) : Option ℕ :=
  (List.range nommapfile).find? fun i => (m.task.vma i).isNone

/-- `sys_mmap` behind its arguments. -/
def mapVma (length : ℤ) (prot : ℕ) (flags fd : ℤ) : SysM ℕ := do
  if (← getFileByfd fd).isSome then throw (.panic "sys_mmap")
  let p ← allocVma
  let m ← get
  let a := { m.vmaTable p with ip := none, length := length }
  setVma p a
  let vmasz := (← get).vmaSum
  let addr := (maxVa - pgSize * 1024 - vmasz - pgRoundUpInt length) / 4096 * 4096
  setVma p { a with addr := toU64 addr, prot := prot ||| 7, flag := flags }
  match (← get).freeSlot with
  | some i => do
    setSlot i (some p)
    return toU64 addr
  | none => throw (.panic "mmap: not enough vma im task")

def Machine.slotOf (m : Machine) (addr : ℕ) : Option ℕ :=
  (List.range nommapfile).find? fun i =>
    match m.task.vma i with
    | some p => (m.vmaTable p).addr ≤ addr ∧
        addr < ((m.vmaTable p).addr + toU64 (m.vmaTable p).length) % 2 ^ 64
    | none => false

/-- `sys_munmap` behind its arguments. An address in no mapping ends in a null pointer. -/
def unmapVma (addr : ℕ) : SysM ℤ := do
  let m ← get
  match m.slotOf addr with
  | none => throw .fault
  | some i =>
    match m.task.vma i with
    | none => throw .fault
    | some p =>
      let v := m.vmaTable p
      if v.ip.isSome then return -1
      let ram ← (m.ram.userUnmap m.task.pagetable v.addr
        (toU64 (pgRoundUpInt v.length / pgSize)) true : Kernel _)
      set { m with ram := ram }
      setVma p .zero
      setSlot i none
      return 0

end StartOS
