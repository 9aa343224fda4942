import StartOS.Os.System

/-! # User memory

The part of the page-table code that grows, shrinks and frees an address space,
and the loading of a page when it is first used.
-/

namespace StartOS

/-- `TRAMPOLINE`. -/
def trampolineVa : ℕ := maxVa - pgSize

/-- `TRAPFRAME`. -/
def trapframeVa : ℕ := trampolineVa - pgSize

namespace MemAllocator

def clearPage (s : MemAllocator) (p : ℕ) : MemAllocator :=
  { s with mem := s.mem.fill p pgSize 0 }

/-- `userDealloc`. The number of pages is an `int`. -/
def userDealloc (s : MemAllocator) (pagetable oldsz newsz : ℕ) : Kernel (ℕ × MemAllocator) :=
  if newsz ≥ oldsz then return (oldsz, s)
  else if pgRoundUp newsz < pgRoundUp oldsz then do
    let npages := toInt32 ((pgRoundUp oldsz - pgRoundUp newsz) / pgSize : ℕ)
    let s ← s.userUnmap pagetable (pgRoundUp newsz) (toU64 npages) true
    return (newsz, s)
  else return (newsz, s)

/-- The loop of `userAlloc` over `n` pages from `a` on. -/
def userAllocFrom (pagetable oldsz newsz : ℕ) : ℕ → MemAllocator → ℕ → Kernel (ℕ × MemAllocator)
  | 0, s, _ => return (newsz, s)
  | n + 1, s, a =>
    match s.alloc with
    | (0, s) => do
      let (_, s) ← s.userDealloc pagetable a oldsz
      return (0, s)
    | (mem, s) => do
      let (r, s) ← (s.clearPage mem).mappages pagetable a pgSize mem
        (pteW ||| pteX ||| pteR ||| pteU ||| pteV)
      if r ≠ 0 then
        let s ← s.free mem
        let (_, s) ← s.userDealloc pagetable a oldsz
        return (0, s)
      else userAllocFrom pagetable oldsz newsz n s (a + pgSize)

def userAlloc (s : MemAllocator) (pagetable oldsz newsz : ℕ) : Kernel (ℕ × MemAllocator) :=
  if newsz < oldsz then return (oldsz, s)
  else
    let start := pgRoundUp oldsz
    userAllocFrom pagetable start newsz ((newsz - start + 4095) / pgSize) s start

/-- `freewalk`, with a bound on the depth; a page table has three levels. -/
def freewalk : ℕ → MemAllocator → ℕ → Kernel MemAllocator
  | 0, _, _ => .error .hang
  | depth + 1, s, pagetable => do
    let s ← (List.finRange 512).foldlM (fun s i => do
      let pte := s.pteAt (pteAddr pagetable i)
      if isValid pte ∧ pte &&& (pteR ||| pteW ||| pteX) = 0 then
        let s ← freewalk depth s (pte2pa pte)
        return s.setPte (pteAddr pagetable i) 0
      else if isValid pte then .error (.panic "freewalk: leaf")
      else return s) s
    s.free pagetable

def freeUserPageTable (s : MemAllocator) (pagetable sz : ℕ) : Kernel MemAllocator := do
  let s ← if sz > 0 then s.userUnmap pagetable 0 (pgRoundUp sz / pgSize) true else pure s
  freewalk 64 s pagetable

def freeTaskPagetable (s : MemAllocator) (pagetable sz : ℕ) : Kernel MemAllocator := do
  let s ← s.userUnmap pagetable trampolineVa 1 false
  let s ← s.userUnmap pagetable trapframeVa 1 false
  s.freeUserPageTable pagetable sz

def userCreate (s : MemAllocator) : ℕ × MemAllocator := s.zalloc

/-- `taskPagetable`, with 0 for the null pointer. -/
def taskPagetable (s : MemAllocator) (trampoline trapframe : ℕ) : Kernel (ℕ × MemAllocator) :=
  match s.userCreate with
  | (0, s) => return (0, s)
  | (pagetable, s) => do
    let (r, s) ← s.mappages pagetable trampolineVa pgSize trampoline (pteR ||| pteX)
    if r < 0 then
      let s ← s.freeUserPageTable pagetable 0
      return (0, s)
    let (r, s) ← s.mappages pagetable trapframeVa pgSize trapframe (pteR ||| pteW)
    if r < 0 then
      let s ← s.userUnmap pagetable trampolineVa 1 false
      let s ← s.freeUserPageTable pagetable 0
      return (0, s)
    return (pagetable, s)

/-- The loop of `copyout`. -/
def copyoutFrom (pagetable : ℕ) (src : ByteMem) : ℕ → MemAllocator → ℕ → ℕ → ℕ →
    Kernel (ℤ × MemAllocator)
  | 0, _, _, _, _ => .error .hang
  | fuel + 1, s, vdst, i, len =>
    if len = 0 then return (0, s)
    else do
      let va0 := pgRoundDown vdst
      let pa0 ← s.walkAddr pagetable va0
      if pa0 = 0 then return (-1, s)
      let n := min (pgSize - (vdst - va0)) len
      copyoutFrom pagetable src fuel
        { s with mem := s.mem.blit (pa0 + (vdst - va0)) n fun j => src (i + j) }
        ((vdst + n) % 2 ^ 64) (i + n) (len - n)

/-- `copyout` of `len` bytes. -/
def copyout (s : MemAllocator) (pagetable vdst : ℕ) (src : ByteMem) (len : ℕ) :
    Kernel (ℤ × MemAllocator) :=
  copyoutFrom pagetable src (len + 1) s vdst 0 len

end MemAllocator

def protPerm (prot : ℕ) : ℕ :=
  pteV ||| pteU ||| (if prot &&& 1 ≠ 0 then pteR else 0) ||| (if prot &&& 2 ≠ 0 then pteW else 0) |||
    if prot &&& 4 ≠ 0 then pteX else 0

/-- The bytes that a read of `n` bytes at `off` finds in a file. -/
def inodeBytes (content : List UInt8) (off n : ℕ) : List UInt8 := (content.drop off).take n

namespace Vma

def stop (v : Vma) : ℕ := (v.addr + toU64 v.length) % 2 ^ 64

/-- The address `LoadIfContain` looks up for `va`. -/
def clamp (v : Vma) (va : ℕ) : ℕ :=
  let va := if va < v.addr then v.addr else va
  if va ≥ v.stop then (v.stop + 2 ^ 64 - 1) % 2 ^ 64 else va

/-- The bytes `LoadIfContain` reads into the page at `va` from byte `skip` of the page on. -/
def fileBytes (v : Vma) (content : List UInt8) (va : ℕ) : ℕ × List UInt8 :=
  let va := max v.addr va
  let high := min (pgRoundUp (va + 1)) v.stop
  let nread := min (toInt32 ((high : ℤ) - va)) pgSize
  let fileOff := (v.offset + (va - v.addr)) % 2 ^ 32
  (va - pgRoundDown va, inodeBytes content fileOff (nread % 2 ^ 32).toNat)

/-- `vma::LoadIfContain`. Without a frame the null page is cleared. -/
def loadIfContain (v : Vma) (contents : ℕ → List UInt8) (pagetable va : ℕ) (s : MemAllocator) :
    Kernel (Bool × MemAllocator) :=
  if va < pgRoundDown v.addr ∨ va ≥ pgRoundUp v.stop then return (false, s)
  else do
    let va := v.clamp va
    if (← s.walkAddr pagetable va) ≠ 0 then return (false, s)
    match s.alloc with
    | (0, _) => .error .fault
    | (mem, s) =>
      let va := pgRoundDown va
      let (_, s) ← (s.clearPage mem).mappages pagetable va pgSize mem (protPerm v.prot)
      match v.ip with
      | none => return (true, s)
      | some ip =>
        let (skip, bytes) := v.fileBytes (contents ip) va
        return (true, { s with mem := s.mem.blit (mem + skip) bytes.length fun j => bytes.getD j 0 })

end Vma

namespace Task

/-- The loop of `Task::LoadIfValid` over the mappings of the task. -/
def loadFrom (t : Task) (contents : ℕ → List UInt8) (vmaTable : ℕ → Vma) (va : ℕ) :
    List ℕ → MemAllocator → Kernel (Bool × MemAllocator)
  | [], s => return (false, s)
  | i :: is, s =>
    match t.vma i with
    | none => loadFrom t contents vmaTable va is s
    | some p => do
      let (b, s) ← (vmaTable p).loadIfContain contents t.pagetable va s
      if b then return (true, s) else loadFrom t contents vmaTable va is s

def loadIfValid (t : Task) (contents : ℕ → List UInt8) (vmaTable : ℕ → Vma) (va : ℕ)
    (s : MemAllocator) : Kernel (Bool × MemAllocator) := do
  if (← s.walkAddr t.pagetable va) ≠ 0 then return (false, s)
  let (b, s) ← t.loadFrom contents vmaTable va (List.range nommapfile) s
  if b then return (true, s)
  if va < toU64 t.sz then
    match s.alloc with
    | (0, _) => .error .fault
    | (mem, s) =>
      let (_, s) ← (s.clearPage mem).mappages t.pagetable (pgRoundDown va) pgSize mem
        (pteV ||| pteU ||| pteR ||| pteW)
      return (true, s)
  else return (false, s)

end Task

/-- A page fault at `va`, or the access `argaddr` makes for an argument. -/
def loadIfValid (va : ℕ) : OsM Bool := do
  let s ← get
  onRam (s.myTask.task.loadIfValid s.contents s.vmaTable va)

theorem loadIfValid_onRam {s s' : System} {va : ℕ} {b : Bool} (h : loadIfValid va s = .ok (b, s')) :
    onRam (s.myTask.task.loadIfValid s.contents s.vmaTable va) s = .ok (b, s') := by
  unfold loadIfValid at h
  rwa [Hoare.get_bind] at h

/-- A load changes the memory only. -/
theorem loadIfValid_eq {s s' : System} {va : ℕ} {b : Bool} (h : loadIfValid va s = .ok (b, s')) :
    s' = { s with ram := s'.ram } := by
  have hram := loadIfValid_onRam h
  cases hcall : s.myTask.task.loadIfValid s.contents s.vmaTable va s.ram with
  | error e =>
    rw [onRam_of_error hcall] at hram
    cases hram
  | ok r =>
    rw [onRam_of_ok hcall] at hram
    rw [← (Prod.mk.inj (Except.ok.inj hram)).2]

/-- A system call behind `argaddr`, which loads the page of the argument `va`. -/
def behindArgaddr {α : Type} (va : ℕ) (call : OsM α) : OsM α := do
  let _ ← loadIfValid va
  call

theorem behindArgaddr_eq_ok {α : Type} {s s' : System} {va : ℕ} {call : OsM α} {a : α} :
    behindArgaddr va call s = .ok (a, s') ↔
      ∃ b s₁, loadIfValid va s = .ok (b, s₁) ∧ call s₁ = .ok (a, s') :=
  Hoare.bind_eq_ok

/-- `sys_mmap`. The address that is asked for is not used. -/
def sysMmap (addr : ℕ) (length : ℤ) (prot : ℕ) (flags fd : ℤ) : OsM ℕ := do
  let _ ← loadIfValid addr
  onMachine (mapVma length prot flags fd)

/-- `sys_munmap`. The length is not used. -/
def sysMunmap (addr : ℕ) : OsM ℤ := do
  let _ ← loadIfValid addr
  onMachine (unmapVma addr)

end StartOS
