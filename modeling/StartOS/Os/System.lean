import StartOS.Fs.VfsFile
import StartOS.Lib.Hoare
import StartOS.Os.Task

/-! # The process table

All processes with the memory, the pool of mappings and the open files they
share. Inodes, open files and pipes are known by number; an inode is its
reference count and the bytes of its file.
-/

namespace StartOS

inductive ProcState
  | unused
  | sleeping
  | runnable
  | running
  | zombie
  deriving DecidableEq, Repr

/-- A slot of `taskTable`; its pid is its index. -/
structure Proc where
  task : Task
  state : ProcState
  parent : Option ℕ
  killed : Bool
  xstate : ℤ
  trapframe : ℕ
  sigTable : ByteMem
  currentDir : ByteMem
  cwd : Option ℕ
  name : ByteMem

/-- `struct file` as the descriptors of the processes refer to it. -/
structure FileHandle where
  ref : ℤ
  type : FileType
  readable : Bool
  writable : Bool
  inode : ℕ
  pipe : ℕ
  mode : ℕ
  size : ℕ
  offset : ℕ

/-- The ends of a `Pipe` that are open. -/
structure PipeEnds where
  readopen : Bool
  writeopen : Bool

/-- The kernel with the process `current` running. `trampoline` is the linker symbol. -/
structure System where
  ram : MemAllocator
  trampoline : ℕ
  vmaTable : ℕ → Vma
  taskTable : ℕ → Proc
  current : ℕ
  iref : ℕ → ℤ
  contents : ℕ → List UInt8
  handles : ℕ → Option FileHandle
  pipes : ℕ → Option PipeEnds

abbrev OsM := StateT System Kernel

/-- `initTask`, the first slot that `allocTask` gives out. -/
def initTask : ℕ := 1

namespace System

def myTask (s : System) : Proc := s.taskTable s.current

def setProc (s : System) (i : ℕ) (p : Proc) : System :=
  { s with taskTable := Function.update s.taskTable i p }

theorem setProc_of_ne {s : System} {i j : ℕ} {p : Proc} (h : j ≠ i) :
    (s.setProc i p).taskTable j = s.taskTable j := Function.update_of_ne h _ _

theorem setProc_self {s : System} {i : ℕ} {p : Proc} : (s.setProc i p).taskTable i = p :=
  Function.update_self ..

def machine (s : System) : Machine := ⟨s.ram, s.vmaTable, s.myTask.task⟩

def setMachine (s : System) (m : Machine) : System :=
  { s.setProc s.current { s.myTask with task := m.task } with
    ram := m.ram
    vmaTable := m.vmaTable }

theorem setMachine_machine (s : System) : s.setMachine s.machine = s := by
  simp only [setMachine, machine, setProc, myTask, Function.update_eq_self]

end System

def onMachine {α : Type} (call : SysM α) : OsM α := do
  let s ← get
  let (a, m) ← (call s.machine : Kernel _)
  set (s.setMachine m)
  return a

theorem onMachine_eq_ok {α : Type} {call : SysM α} {s s' : System} {a : α} :
    onMachine call s = .ok (a, s') ↔ ∃ m, call s.machine = .ok (a, m) ∧ s' = s.setMachine m := by
  rw [onMachine, Hoare.get_bind]
  cases call s.machine with
  | error e =>
    constructor
    · rintro ⟨⟩
    · rintro ⟨m, ⟨⟩, -⟩
  | ok q =>
    constructor
    · rintro ⟨⟩
      exact ⟨_, rfl, rfl⟩
    · rintro ⟨m, ⟨⟩, rfl⟩
      rfl

theorem onMachine_allocVma {s s' : System} {p : ℕ} (h : onMachine allocVma s = .ok (p, s')) :
    s' = s ∧ s.machine.freeVma = some p := by
  rw [onMachine, Hoare.get_bind, allocVma, Hoare.get_bind] at h
  cases hv : s.machine.freeVma with
  | none =>
    rw [hv] at h
    cases h
  | some q =>
    rw [hv] at h
    have hs : s' = s.setMachine s.machine ∧ p = q := by
      cases h
      exact ⟨rfl, rfl⟩
    rw [hs.1, hs.2, s.setMachine_machine]
    exact ⟨rfl, rfl⟩

def onRam {α : Type} (call : MemAllocator → Kernel (α × MemAllocator)) : OsM α := do
  let s ← get
  let (a, ram) ← (call s.ram : Kernel _)
  set { s with ram := ram }
  return a

theorem onRam_of_ok {α : Type} {call : MemAllocator → Kernel (α × MemAllocator)} {s : System}
    {a : α} {ram : MemAllocator} (h : call s.ram = .ok (a, ram)) :
    onRam call s = .ok (a, { s with ram := ram }) := by
  rw [onRam, Hoare.get_bind, h]
  rfl

theorem onRam_of_error {α : Type} {call : MemAllocator → Kernel (α × MemAllocator)} {s : System}
    {e : Halt} (h : call s.ram = .error e) : onRam call s = .error e := by
  rw [onRam, Hoare.get_bind, h]
  rfl

def modifyProc (i : ℕ) (f : Proc → Proc) : OsM Unit :=
  modify fun s => s.setProc i (f (s.taskTable i))

def inodeDup (ip : ℕ) : OsM ℕ := do
  modify fun s => { s with iref := Function.update s.iref ip (s.iref ip + 1) }
  return ip

/-- `inode::free`. With the last reference the inode leaves its file system. -/
def inodeFree (ip : ℕ) : OsM Unit := do
  if (← get).iref ip < 1 then throw (.panic "inode free")
  modify fun s => { s with iref := Function.update s.iref ip (s.iref ip - 1) }

/-- The first process runs, nothing is open and the frames of `freeList` are free. -/
def bootSystem (freeList : List ℕ) : System where
  ram := ⟨0x80200000, fun _ => 0, freeList, freeList.length⟩
  trampoline := 0x80020000
  vmaTable _ := .zero
  taskTable i :=
    { task := ⟨0, fun _ => none, fun _ => none, 0⟩
      state := if i = initTask then .running else .unused
      parent := none
      killed := false
      xstate := 0
      trapframe := 0
      sigTable := fun _ => 0
      currentDir := fun _ => 0
      cwd := none
      name := fun _ => 0 }
  current := initTask
  iref _ := 1
  contents _ := []
  handles _ := none
  pipes _ := none

end StartOS
