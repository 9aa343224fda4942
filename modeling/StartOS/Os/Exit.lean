import StartOS.Os.Fork

/-! # The end of a process

`exit` closes the files and the mappings of the process and leaves a zombie;
`wait` and `wait4` of its parent free the rest.
-/

namespace StartOS

/-- `Pipe::close` of one end. -/
def pipeClose (p : ℕ) (writeEnd : Bool) : OsM Unit := do
  match (← get).pipes p with
  | none => throw .fault
  | some e =>
    let e := if writeEnd then { e with writeopen := false } else { e with readopen := false }
    let e := if e.readopen ∨ e.writeopen then some e else none
    modify fun s => { s with pipes := Function.update s.pipes p e }

/-- What closing the last reference to a file of type `FD_PIPE` does. -/
def closeEnds (f : FileHandle) : OsM Unit := do
  if f.writable then pipeClose f.pipe true
  if f.readable then pipeClose f.pipe false

/-- `vfs::close`, the routine `exit` uses. The struct is cleared and not given back, and the
inode keeps its count. -/
def vfsClose (fp : ℕ) : OsM Unit := do
  match (← get).handles fp with
  | none => throw .fault
  | some f =>
    if f.ref < 1 then throw (.panic "vfs::close")
    if f.ref - 1 > 0 then
      modify fun s => { s with
        handles := Function.update s.handles fp (some { f with ref := f.ref - 1 }) }
    else
      modify fun s => { s with
        handles := Function.update s.handles fp (some ⟨0, .none, false, false, 0, 0, 0, 0, 0⟩) }
      if f.type = .pipe then closeEnds f

/-- The loop of `exit` over the open files of slot `me`. -/
def closeFiles (me : ℕ) : List ℕ → OsM Unit
  | [] => return ()
  | fd :: fds => do
    match ((← get).taskTable me).task.openFiles fd with
    | none => closeFiles me fds
    | some fp =>
      vfsClose fp
      modifyProc me fun p => { p with task := { p.task with
        openFiles := Function.update p.task.openFiles fd none } }
      closeFiles me fds

/-- `vma::free` of place `p` of the pool. -/
def vmaFree (p : ℕ) : OsM Unit := do
  match ((← get).vmaTable p).ip with
  | none => pure ()
  | some ip => inodeFree ip
  modify fun s => { s with vmaTable := Function.update s.vmaTable p .zero }

/-- The loop of `exit` over the mappings of slot `me`. A shared mapping is written back through
its null file pointer. -/
def closeVmas (me : ℕ) : List ℕ → OsM Unit
  | [] => return ()
  | i :: is => do
    let s ← get
    match (s.taskTable me).task.vma i with
    | none => closeVmas me is
    | some p =>
      let v := s.vmaTable p
      if v.flag % 2 = 1 then throw .fault
      onRam fun ram => do
        return ((), ← ram.userUnmap (s.taskTable me).task.pagetable (pgRoundDown v.addr)
          (toU64 (pgRoundUpInt v.length / pgSize)) true)
      vmaFree p
      modifyProc me fun p => { p with task := { p.task with
        vma := Function.update p.task.vma i none } }
      closeVmas me is

/-- `wakeup`, when the tasks that sleep on the channel are known. -/
def wakeup (onChan : ℕ → Bool) : OsM Unit :=
  modify fun s =>
    let woken := fun i =>
      if i < ntask ∧ (s.taskTable i).state = .sleeping ∧ onChan i then
        { s.taskTable i with state := .runnable }
      else s.taskTable i
    { s with taskTable := woken }

/-- `exit`, up to the switch to the scheduler. The status is forgotten. -/
def exit (onChan : ℕ → Bool) : OsM Unit := do
  let me := (← get).current
  if me = initTask then throw (.panic "init task exit")
  closeFiles me (List.range nofile)
  modifyProc me fun p => { p with currentDir := p.currentDir.fill 0 64 0 }
  modify fun s =>
    let adopted := fun i =>
      if i < ntask ∧ (s.taskTable i).parent = some me then
        { s.taskTable i with parent := some initTask }
      else s.taskTable i
    { s with taskTable := adopted }
  closeVmas me (List.range nommapfile)
  modifyProc me fun p => { p with state := .zombie, xstate := 0 }
  wakeup onChan

def freeTask (child : ℕ) : OsM Unit := do
  let p := (← get).taskTable child
  if p.trapframe ≠ 0 then
    onRam fun ram => do return ((), ← ram.free p.trapframe)
  if p.task.pagetable ≠ 0 then
    onRam fun ram => do return ((), ← ram.freeTaskPagetable p.task.pagetable (toU64 p.task.sz))
  modifyProc child fun p => { p with
    trapframe := 0
    state := .unused
    parent := none
    killed := false
    xstate := 0
    name := p.name.fill 0 1 0
    task := { p.task with
      pagetable := 0
      vma := fun _ => none
      sz := 0 } }

/-- The exit status as it is copied out: four bytes of an `int`. -/
def xstateBytes (x : ℤ) : ByteMem := fun i => UInt8.ofNat (toU64 x / 256 ^ i)

/-- Reap a zombie: copy its status to `vaddr` unless that is null, and free it. -/
def reap (child vaddr : ℕ) : OsM ℤ := do
  let s ← get
  let r ←
    if vaddr ≠ 0 then
      onRam fun ram => ram.copyout s.myTask.task.pagetable vaddr
        (xstateBytes (s.taskTable child).xstate) 4
    else pure 0
  if r < 0 then return -1
  freeTask child
  return child

/-- `wait` up to the point where it sleeps, which is `none`. -/
def wait (vaddr : ℕ) : OsM (Option ℤ) := do
  let s ← get
  match (List.range ntask).find? fun i =>
    (s.taskTable i).parent = some s.current ∧ (s.taskTable i).state = .zombie with
  | some child => return some (← reap child vaddr)
  | none =>
    if (List.range ntask).any fun i => (s.taskTable i).parent = some s.current then return none
    else return some (-1)

/-- `wait4` up to the point where it sleeps. A negative pid is an index before the table. -/
def wait4 (pid : ℤ) (vaddr : ℕ) : OsM (Option ℤ) := do
  if pid ≥ ntask then return some (-1)
  if pid < 0 then throw .fault
  let s ← get
  let child := pid.toNat
  if (s.taskTable child).parent ≠ some s.current then return some (-1)
  modifyProc child fun p => { p with xstate := toInt32 (p.xstate * 256) }
  if (s.taskTable child).state = .zombie then return some (← reap child vaddr)
  else return none

end StartOS
