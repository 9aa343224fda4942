import StartOS.Os.UserMem

/-! # Fork

`fork` copies the pages below the size of the process with `userVmCopy` and
those of its mappings above with `CopyUserMem`, both with an `int` that runs
over addresses, and then the records of the process.
-/

namespace StartOS

namespace MemAllocator

/-- One turn of `userVmCopy` or `CopyUserMem`: the page at `va` of one table is copied for the
other, unless it is not loaded. A null table is written through. -/
def copyPage (caller : String) (oldPg newPg va : ℕ) (s : MemAllocator) : Kernel MemAllocator := do
  let (pte, s) ← s.walk oldPg va false
  if pte = 0 then .error (.panic (caller ++ ": pte not present"))
  else if !isValid (s.pteAt pte) then return s
  else
    let pa := pte2pa (s.pteAt pte)
    let flags := pteFlags (s.pteAt pte)
    match s.alloc with
    | (0, _) => .error (.panic (caller ++ ": alloc mem fail"))
    | (mem, s) =>
      if newPg = 0 then .error .fault
      let (r, s) ← { s with mem := s.mem.blit mem pgSize fun j => s.mem (pa + j) }.mappages
        newPg va pgSize mem flags
      if r < 0 then .error (.panic (caller ++ ": mappages fail"))
      else return s

/-- The loop of `userVmCopy`. -/
def userVmCopyFrom (oldPg newPg : ℕ) (sz : ℤ) : ℕ → ℤ → MemAllocator → Kernel MemAllocator
  | 0, _, _ => .error .hang
  | n + 1, i, s =>
    if i < sz then do
      let s ← s.copyPage "userVmCopy" oldPg newPg (toU64 i)
      userVmCopyFrom oldPg newPg sz n (toInt32 (i + pgSize)) s
    else return s

/-- `userVmCopy`. An `int` has no more than `2 ^ 19` page addresses below its top, and a
negative one ends the loop or the machine. -/
def userVmCopy (s : MemAllocator) (oldPg newPg : ℕ) (sz : ℤ) : Kernel MemAllocator :=
  userVmCopyFrom oldPg newPg sz (2 ^ 19 + 2) 0 s

/-- The loop of `CopyUserMem`; `i` is an `int` and the end an address. -/
def copyUserMemFrom (oldPg newPg stop : ℕ) : ℕ → ℤ → MemAllocator → Kernel MemAllocator
  | 0, _, _ => .error .hang
  | n + 1, i, s =>
    if toU64 i < stop then do
      let s ← s.copyPage "CopyUserMem" oldPg newPg (toU64 i)
      copyUserMemFrom oldPg newPg stop n (toInt32 (i + pgSize)) s
    else return s

def copyUserMem (s : MemAllocator) (oldPg newPg addr : ℕ) (sz : ℤ) : Kernel MemAllocator :=
  copyUserMemFrom oldPg newPg ((addr + toU64 sz) % 2 ^ 64) (2 ^ 19 + 2) (toInt32 addr) s

/-- `CopyVmaMem` over the slots of the parent. -/
def copyVmaMem (vmaTable : ℕ → Vma) (parent : Task) (newPg : ℕ) (s : MemAllocator) :
    Kernel MemAllocator :=
  (List.range nommapfile).foldlM (fun s i =>
    match parent.vma i with
    | none => return s
    | some p =>
      if (vmaTable p).addr < toU64 parent.sz then return s
      else s.copyUserMem parent.pagetable newPg (vmaTable p).addr (vmaTable p).length) s

end MemAllocator

def System.freeTaskSlot (s : System) : Option ℕ :=
  (List.range' 1 (ntask - 1)).find? fun i => (s.taskTable i).state = .unused

/-- `allocTask`. A slot without a page table is returned all the same. -/
def allocTask : OsM (Option ℕ) := do
  let s ← get
  match s.freeTaskSlot with
  | none => return none
  | some i =>
    match s.ram.alloc with
    | (0, _) =>
      modifyProc i fun p => { p with trapframe := 0 }
      return none
    | (trapframe, ram) => do
      set { s with ram := ram }
      let pagetable ← onRam fun ram => ram.taskPagetable s.trampoline trapframe
      modify fun s => { s with ram := { s.ram with mem := s.ram.mem.fill trapframe 288 0 } }
      modifyProc i fun p => { p with
        trapframe := trapframe
        sigTable := fun _ => 0
        task := { p.task with
          pagetable := pagetable
          vma := fun _ => none
          openFiles := fun _ => none } }
      return some i

/-- `VfsManager::dup`. -/
def fileDup (fp : ℕ) : OsM ℕ := do
  match (← get).handles fp with
  | none => throw .fault
  | some f =>
    if f.ref < 1 then throw (.panic "vfs::dup")
    modify fun s => { s with handles := Function.update s.handles fp (some { f with ref := f.ref + 1 }) }
    return fp

/-- The loop of `fork` over the open files. -/
def dupFiles (parent child : ℕ) : List ℕ → OsM Unit
  | [] => return ()
  | fd :: fds => do
    match ((← get).taskTable parent).task.openFiles fd with
    | none => dupFiles parent child fds
    | some fp =>
      let fp ← fileDup fp
      modifyProc child fun p => { p with task := { p.task with
        openFiles := Function.update p.task.openFiles fd (some fp) } }
      dupFiles parent child fds

/-- The loop of `fork` over the mappings. -/
def dupVmas (parent child : ℕ) : List ℕ → OsM Unit
  | [] => return ()
  | i :: is => do
    let s ← get
    match (s.taskTable parent).task.vma i with
    | none =>
      modifyProc child fun p => { p with task := { p.task with
        vma := Function.update p.task.vma i none } }
    | some p =>
      let q ← onMachine allocVma
      modify fun s => { s with vmaTable := Function.update s.vmaTable q (s.vmaTable p) }
      match (s.vmaTable p).ip with
      | none => pure ()
      | some ip =>
        let _ ← inodeDup ip
      modifyProc child fun pr => { pr with task := { pr.task with
        vma := Function.update pr.task.vma i (some q) } }
    dupVmas parent child is

def strnlen (str : ByteMem) : ℕ → ℕ
  | 0 => 0
  | n + 1 => if str 0 = 0 then 0 else strnlen (fun i => str (i + 1)) n + 1

/-- `safestrcpy`. A terminator that is copied gets a second one behind it. -/
def safestrcpy (dst src : ByteMem) (n : ℕ) : ByteMem :=
  let len := strnlen src (n - 1)
  (dst.blit 0 len src).fill len (if len < n - 1 then 2 else 1) 0

/-- `safestrcpy(child->name, task->name, sizeof(task->name) + 1)`: the byte behind the name is
the lowest byte of `sz`. -/
def copyName (old name : ByteMem) (sz : ℤ) : ByteMem × ℤ :=
  (safestrcpy old name 17, if strnlen name 16 < 15 then sz else sz - sz % 256)

/-- The pages of the running process are copied for `child`. -/
def copyMemory (child : ℕ) : OsM Unit := do
  let s ← get
  let task := s.myTask.task
  let newPg := (s.taskTable child).task.pagetable
  onRam fun ram => do
    let ram ← ram.userVmCopy task.pagetable newPg task.sz
    return ((), ← ram.copyVmaMem s.vmaTable task newPg)

/-- The size, the parent, the directory, the registers and the signals of the child. In the
trapframe of the child `a0` is 0. -/
def copyRecord (child : ℕ) : OsM Unit := do
  let s ← get
  let me := s.myTask
  match me.cwd with
  | none => throw .fault
  | some ip =>
    let _ ← inodeDup ip
    let tf := (s.taskTable child).trapframe
    modify fun s => { s with ram := { s.ram with
      mem := (s.ram.mem.blit tf 288 fun j => s.ram.mem (me.trapframe + j)).fill (tf + 112) 8 0 } }
    modifyProc child fun p => { p with
      parent := some s.current
      cwd := some ip
      sigTable := me.sigTable
      task := { p.task with sz := me.task.sz } }

def nameChild (child : ℕ) : OsM Unit := do
  let me := (← get).myTask
  modifyProc child fun p => { p with
    currentDir := safestrcpy p.currentDir me.currentDir (strnlen me.currentDir 64 + 1)
    name := (copyName p.name me.name p.task.sz).1
    state := .runnable
    task := { p.task with sz := (copyName p.name me.name p.task.sz).2 } }

def fork : OsM ℤ := do
  match ← allocTask with
  | none => return -1
  | some child =>
    copyMemory child
    copyRecord child
    let me := (← get).current
    dupFiles me child (List.range nofile)
    dupVmas me child (List.range nommapfile)
    nameChild child
    return child

end StartOS
