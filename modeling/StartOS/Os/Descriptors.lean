import StartOS.Os.Exit

/-! # File descriptors

The system calls that open, copy and close descriptors. An open file is a
`struct file` on the heap; the block that `new` answers with and the inode that
a path search ends at are arguments.
-/

namespace StartOS

def nfile : ℤ := 100

/-- What `openat` reads of the inode that a path search ends at. -/
structure FoundInode where
  inode : ℕ
  sz : ℕ
  mode : ℕ

/-- `new struct file` at the block `fp`, which is not in use. -/
def newFile (fp : ℕ) (f : FileHandle) : OsM Unit := do
  if ((← get).handles fp).isSome then throw .fault
  modify fun s => { s with handles := Function.update s.handles fp (some f) }

/-- The descriptor that `getFileByfd` finds; behind the last one it reads `currentDir` as a
pointer. -/
def fileByfd (fd : ℤ) : OsM (Option ℕ) := do
  if fd = nofile then
    let dir := (← get).myTask.currentDir
    if dir.readLE 0 8 = 0 then return none else throw .fault
  else onMachine (getFileByfd fd)

/-- `task->openFiles[fd] = fp` of the running process. -/
def setDescriptor (fd : ℕ) (fp : Option ℕ) : OsM Unit := do
  modifyProc (← get).current fun p => { p with task := { p.task with
    openFiles := Function.update p.task.openFiles fd fp } }

def System.freeDescriptor (s : System) (lo : ℕ) : Option ℕ :=
  (List.range' lo (nofile - lo)).find? fun fd => (s.myTask.task.openFiles fd).isNone

/-- `registerFileHandle` of a file that is not null. -/
def registerFileHandle (fp : ℕ) (fd : ℤ) : OsM ℤ := do
  if fd > nfile then return -1
  if fd < 0 then
    match (← get).freeDescriptor 0 with
    | none => throw (.panic "register file handle")
    | some i =>
      setDescriptor i (some fp)
      return i
  else if ((← get).myTask.task.openFiles fd.toNat).isNone then
    setDescriptor fd.toNat (some fp)
    return fd
  else return -1

/-- `VfsManager::close`. -/
def fileClose (fp : ℕ) : OsM Unit := do
  match (← get).handles fp with
  | none => throw .fault
  | some f =>
    if f.ref < 1 then throw (.panic "vfs::close")
    if f.ref - 1 > 0 then
      modify fun s => { s with
        handles := Function.update s.handles fp (some { f with ref := f.ref - 1 }) }
    else
      modify fun s => { s with handles := Function.update s.handles fp none }
      match f.type with
      | .pipe => closeEnds f
      | .inode => inodeFree f.inode
      | _ => pure ()

/-- `VfsManager::openat` behind its path search. -/
def openat (fp : ℕ) (found : Option FoundInode) (flags : ℕ) : OsM (Option ℕ) := do
  match found with
  | none => return none
  | some ip =>
    newFile fp
      { ref := 1
        type := .inode
        readable := flags &&& 1 = 0
        writable := flags &&& 1 ≠ 0 ∨ flags &&& 2 ≠ 0
        inode := ip.inode
        pipe := 0
        mode := ip.mode
        size := ip.sz
        offset := if flags &&& 8 ≠ 0 ∨ flags &&& 0x400 ≠ 0 then ip.sz else 0 }
    return some fp

/-- `sys_open` and `sys_openat`. -/
def sysOpenat (fp : ℕ) (found : Option FoundInode) (flags : ℕ) : OsM ℤ := do
  match ← openat fp found flags with
  | none => return -1
  | some fp => registerFileHandle fp (-1)

def sysDup (fd : ℤ) : OsM ℤ := do
  match ← fileByfd fd with
  | none => return -1
  | some fp => registerFileHandle (← fileDup fp) (-1)

/-- `sys_dup3`. The new descriptor is not checked: outside of the array whatever is there is
taken for a pointer. -/
def sysDup3 (oldfd newfd : ℤ) : OsM ℤ := do
  match ← fileByfd oldfd with
  | none => throw .fault
  | some fp =>
    let fp ← fileDup fp
    if newfd < 0 ∨ newfd ≥ nofile then throw .fault
    match (← get).myTask.task.openFiles newfd.toNat with
    | none => pure ()
    | some old =>
      fileClose old
      setDescriptor newfd.toNat none
    let ansfd ← registerFileHandle fp newfd
    if ansfd < 0 then fileClose fp
    return ansfd

/-- `Task::AllocFd` with the upper bound left out. -/
def allocFd (lo : ℤ) : OsM ℕ := do
  match (← get).freeDescriptor (max 0 lo).toNat with
  | none => throw (.panic "alloc fd")
  | some fd => return fd

def sysFcntl (fd cmd newfd : ℤ) : OsM ℤ := do
  if cmd = 2 ∨ cmd = 4 then return 0
  match ← fileByfd fd with
  | none => throw .fault
  | some fp =>
    if cmd = 3 then
      match (← get).handles fp with
      | none => throw .fault
      | some f => return f.mode
    else
      let fp ← fileDup fp
      registerFileHandle fp (← allocFd newfd)

/-- `VfsManager::createPipe` with the blocks of the two files and the pipe. -/
def createPipe (f0 f1 pipe : ℕ) : OsM (ℤ × ℤ) := do
  newFile f0 ⟨1, .pipe, true, false, 0, pipe, 0, 0, 0⟩
  newFile f1 ⟨1, .pipe, false, true, 0, pipe, 0, 0, 0⟩
  modify fun s => { s with pipes := Function.update s.pipes pipe (some ⟨true, true⟩) }
  let fd0 ← registerFileHandle f0 (-1)
  let fd1 ← registerFileHandle f1 (-1)
  return (fd0, fd1)

/-- The copyouts of `sys_pipe`: both succeed, or -1. -/
def copyoutFds (ram : MemAllocator) (pagetable fdarray : ℕ) (fds : ℤ × ℤ) :
    Kernel (ℤ × MemAllocator) := do
  let (r, ram) ← ram.copyout pagetable fdarray (xstateBytes fds.1) 4
  if r < 0 then return (-1, ram)
  let (r, ram) ← ram.copyout pagetable ((fdarray + 4) % 2 ^ 64) (xstateBytes fds.2) 4
  return (if r < 0 then -1 else 0, ram)

/-- `VfsManager::close(getFileByfd(fd))`. -/
def closeByfd (fd : ℤ) : OsM Unit := do
  match ← fileByfd fd with
  | none => throw .fault
  | some fp => fileClose fp

/-- `sys_pipe` behind `argaddr`. -/
def sysPipe (f0 f1 pipe fdarray : ℕ) : OsM ℤ := do
  let fds ← createPipe f0 f1 pipe
  let s ← get
  let r ← onRam fun ram => copyoutFds ram s.myTask.task.pagetable fdarray fds
  if r < 0 then
    closeByfd fds.1
    closeByfd fds.2
    return -1
  return 0

def sysClose (fd : ℤ) : OsM ℤ := do
  if fd < 0 then return -1
  closeByfd fd
  setDescriptor fd.toNat none
  return 0

end StartOS
