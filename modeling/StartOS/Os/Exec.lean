import StartOS.Os.Exit

/-! # Starting a program

`exec` reads the program headers of a file, notes its segments as mappings that
are loaded later, and builds a page table with one page for the stack. The
inode that the path search ends at is an argument.
-/

namespace StartOS

def maxArg : ℕ := 64

def fieldAt (bytes : List UInt8) (off n : ℕ) : ℕ := ByteMem.readLE (fun i => bytes.getD i 0) off n

/-- The fields of `struct elfhdr` that are used. -/
structure ElfHdr where
  magic : ℕ
  entry : ℕ
  phoff : ℕ
  phnum : ℕ
  deriving DecidableEq, Repr

/-- `sizeof(struct elfhdr)`. -/
def elfHdrSize : ℕ := 64

def elfMagic : ℕ := 0x464C457F

def ElfHdr.ofBytes (bytes : List UInt8) : ElfHdr where
  magic := fieldAt bytes 0 4
  entry := fieldAt bytes 24 8
  phoff := fieldAt bytes 32 8
  phnum := fieldAt bytes 56 2

/-- The fields of `struct proghdr` that are used. -/
structure ProgHdr where
  type : ℕ
  flags : ℕ
  off : ℕ
  vaddr : ℕ
  filesz : ℕ
  memsz : ℕ
  deriving DecidableEq, Repr

/-- `sizeof(struct proghdr)`. -/
def progHdrSize : ℕ := 56

def ProgHdr.ofBytes (bytes : List UInt8) : ProgHdr where
  type := fieldAt bytes 0 4
  flags := fieldAt bytes 4 4
  off := fieldAt bytes 8 8
  vaddr := fieldAt bytes 16 8
  filesz := fieldAt bytes 32 8
  memsz := fieldAt bytes 40 8

namespace ProgHdr

/-- `ELF_PROG_LOAD`. -/
def IsLoad (ph : ProgHdr) : Prop := ph.type = 1

instance (ph : ProgHdr) : Decidable ph.IsLoad := inferInstanceAs (Decidable (_ = _))

def IsBad (ph : ProgHdr) : Prop := ph.memsz < ph.filesz ∨ (ph.vaddr + ph.memsz) % 2 ^ 64 < ph.vaddr

instance (ph : ProgHdr) : Decidable ph.IsBad := inferInstanceAs (Decidable (_ ∨ _))

/-- `ELF_PAGEOFFSET` of the address of the segment. -/
def pageOffset (ph : ProgHdr) : ℕ := ph.vaddr % pgSize

def prot (ph : ProgHdr) : ℕ :=
  (if ph.flags &&& 1 ≠ 0 then 4 else 0) ||| (if ph.flags &&& 4 ≠ 0 then 1 else 0) |||
    if ph.flags &&& 2 ≠ 0 then 2 else 0

/-- The mapping that `LazyLoadSeg` makes for the segment. The length is an `int` and the offset
an `uint32_t`. -/
def toVma (ph : ProgHdr) (ip : ℕ) : Vma where
  addr := pgRoundDown ph.vaddr
  type := .prog
  length := toInt32 ((ph.filesz + ph.pageOffset) % 2 ^ 64 : ℕ)
  prot := ph.prot
  flag := 2
  ip := some ip
  offset := (ph.off + 2 ^ 64 - ph.pageOffset) % 2 ^ 32

end ProgHdr

/-- The program header number `i`, if it can be read. The offset is an `int`. -/
def readProgHdr (content : List UInt8) (phoff i : ℕ) : Option ProgHdr :=
  let bytes := inodeBytes content ((phoff + i * progHdrSize) % 2 ^ 32) progHdrSize
  if bytes.length = progHdrSize then some (.ofBytes bytes) else none

def lazyLoadSeg (ip : ℕ) (ph : ProgHdr) : OsM Unit := do
  let p ← onMachine allocVma
  let _ ← inodeDup ip
  modify fun s => { s with vmaTable := Function.update s.vmaTable p (ph.toVma ip) }
  match (← get).machine.freeSlot with
  | none => throw (.panic "lazy load segment")
  | some i => onMachine (setSlot i (some p))

/-- The loop of `exec` over `n` program headers from number `i` on. It ends with the size of the
program; `false` says that a header is bad. -/
def loadSegments (ip : ℕ) (content : List UInt8) (phoff : ℕ) : ℕ → ℕ → ℕ → OsM (Bool × ℕ)
  | 0, _, sz => return (true, sz)
  | n + 1, i, sz =>
    match readProgHdr content phoff i with
    | none => return (false, sz)
    | some ph =>
      if ¬ph.IsLoad then loadSegments ip content phoff n (i + 1) sz
      else if ph.IsBad then return (false, sz)
      else do
        lazyLoadSeg ip ph
        loadSegments ip content phoff n (i + 1) ((ph.vaddr + ph.memsz) % 2 ^ 64)

/-- The loop of `exec` that frees the mappings of the old program. -/
def freeProgVmas (me : ℕ) : List ℕ → OsM Unit
  | [] => return ()
  | i :: is => do
    let s ← get
    match (s.taskTable me).task.vma i with
    | none => freeProgVmas me is
    | some p =>
      if (s.vmaTable p).type = .prog then
        vmaFree p
        modifyProc me fun pr => { pr with task := { pr.task with
          vma := Function.update pr.task.vma i none } }
      freeProgVmas me is

structure BinProgram where
  sp : ℕ
  stackbase : ℕ
  pagetable : ℕ
  ustack : ℕ → ℕ
  stackTop : ℕ

namespace BinProgram

def cstring (str : List UInt8) : ByteMem := fun i => str.getD i 0

def push (sp n : ℕ) : ℕ := (sp + 2 ^ 64 - n) % 2 ^ 64 / 16 * 16

/-- The loop of `BinProgram::CopyString2Stack`. `ustack` has `MAXARG + 1` entries. -/
def copyStrings (strs : ℕ → Option (List UInt8)) :
    ℕ → ℕ → BinProgram → MemAllocator → Kernel (ℤ × BinProgram × MemAllocator)
  | 0, _, _, _ => .error .hang
  | fuel + 1, i, b, s =>
    match strs i with
    | none =>
      if i > maxArg then .error .fault
      else return (i - b.stackTop, { b with
        ustack := Function.update b.ustack i 0
        stackTop := i + 1 }, s)
    | some str =>
      if i > maxArg then return (-1, b, s)
      else
        let b := { b with sp := push b.sp (str.length + 1) }
        if b.sp < b.stackbase then return (-1, b, s)
        else do
          let (r, s) ← s.copyout b.pagetable b.sp (cstring str) (str.length + 1)
          if r < 0 then return (-1, b, s)
          copyStrings strs fuel (i + 1) { b with ustack := Function.update b.ustack i b.sp } s

/-- `BinProgram::CopyString2Stack`, which starts at `strs[stack_top]`. -/
def copyString2Stack (strs : ℕ → Option (List UInt8)) (b : BinProgram) (s : MemAllocator) :
    Kernel (ℤ × BinProgram × MemAllocator) :=
  copyStrings strs (maxArg + 2) b.stackTop b s

def copyString (str : List UInt8) (b : BinProgram) (s : MemAllocator) :
    Kernel (ℕ × BinProgram × MemAllocator) := do
  let b := { b with sp := push b.sp (str.length + 1) }
  let (r, s) ← s.copyout b.pagetable b.sp (cstring str) (str.length + 1)
  return (if r < 0 then 2 ^ 64 - 1 else b.sp, b, s)

/-- Store words in `ustack` from `index` on. -/
def storeWords : List ℕ → ℕ → BinProgram → Kernel BinProgram
  | [], _, b => return b
  | w :: ws, index, b =>
    if index > maxArg then .error .fault
    else storeWords ws (index + 1) { b with ustack := Function.update b.ustack index w }

end BinProgram

/-- `env`: the strings and the null pointer behind them; `behind` is what follows the array. -/
def envAt (behind : ℕ → Option (List UInt8)) (i : ℕ) : Option (List UInt8) :=
  let env : List (Option String) := [some "SHELL=ash", some "PWD=/", some "HOME=/", some "USER=root",
    some "MOTD_SHOWN=pam", some "LANG=C.UTF-8",
    some "INVOCATION_ID=e9500a871cf044d9886a157f53826684", some "TERM=vt220", some "SHLVL=2",
    some "JOURNAL_STREAM=8:9265", some "PATH=/", some "OLDPWD=/root", some "_=busybox", none]
  if i < 14 then (env.getD i none).map fun str => str.toList.map fun ch => UInt8.ofNat ch.toNat
  else behind (i - 14)

/-- The auxiliary vector of `CreateUserStack`. -/
def auxv (elf : ElfHdr) (filename : ℕ) : List ℕ :=
  [0x28, 0, 0x29, 0, 0x2a, 0, 0x2b, 0, 0x2c, 0, 0x2d, 0, 3, elf.phoff, 4, progHdrSize, 5, elf.phnum,
    6, 0x1000, 7, 0, 8, 0, 9, elf.entry, 11, 0, 12, 0, 13, 0, 14, 0, 16, 0x112d, 17, 64, 31, filename,
    0, 0]

def wordBytes (w : ℕ → ℕ) : ByteMem := fun j => UInt8.ofNat (w (j / 8) / 256 ^ (j % 8))

/-- `CreateUserStack`. The result is not looked at. -/
def createUserStack (elf : ElfHdr) (argc envc : ℤ) (b : BinProgram) (s : MemAllocator) :
    Kernel (BinProgram × MemAllocator) := do
  let index := (argc + envc + 2).toNat
  let (filename, b, s) ← b.copyString ("./busybox".toList.map fun ch => UInt8.ofNat ch.toNat) s
  let b ← BinProgram.storeWords (auxv elf filename) index b
  let index := index + (auxv elf filename).length
  let b := { b with sp := (b.sp + 2 ^ 64 - 8 * index) % 2 ^ 64 }
  let (r, s) ← s.copyout b.pagetable b.sp (wordBytes b.ustack) (8 * index)
  if r ≠ 0 then return (b, s)
  let b := { b with sp := (b.sp + 2 ^ 64 - 8) % 2 ^ 64 }
  let (_, s) ← s.copyout b.pagetable b.sp (wordBytes fun _ => toU64 argc) 8
  return (b, s)

/-- The stack of the new program: its strings, the vectors and the number of arguments. -/
def fillStack (elf : ElfHdr) (argv : ℕ → Option (List UInt8)) (behind : ℕ → Option (List UInt8))
    (b : BinProgram) (s : MemAllocator) : Kernel (ℕ × MemAllocator) := do
  let (argc, b, s) ← b.copyString2Stack argv s
  let (envc, b, s) ← b.copyString2Stack (envAt behind) s
  let (b, s) ← createUserStack elf argc envc b s
  return (b.sp, s)

def lastComponent (path : List UInt8) : List UInt8 :=
  (path.reverse.takeWhile fun b => b ≠ 47).reverse

/-- The end of `exec` when the program cannot be started. -/
def execBad (ip pagetable sz : ℕ) : OsM ℤ := do
  inodeFree ip
  onRam fun ram => do return ((), ← ram.freeTaskPagetable pagetable sz)
  return 0

/-- The end of `exec` when the program starts with `sz` bytes and the stack pointer `sp`. -/
def execStart (ip pagetable sz sp : ℕ) (elf : ElfHdr) (path : List UInt8) : OsM ℤ := do
  let me := (← get).myTask
  let current := (← get).current
  modify fun s => { s with ram := { s.ram with
    mem := (((s.ram.mem.writeLE (me.trapframe + 120) 8 sp).writeLE (me.trapframe + 40) 8 0).writeLE
      (me.trapframe + 24) 8 elf.entry).writeLE (me.trapframe + 48) 8 sp } }
  modifyProc current fun p => { p with
    name := safestrcpy p.name (BinProgram.cstring (lastComponent path)) 17
    task := { p.task with
      pagetable := pagetable
      sz := toInt32 sz } }
  onRam fun ram => do return ((), ← ram.freeTaskPagetable me.task.pagetable (toU64 me.task.sz))
  inodeFree ip
  return 0

/-- `exec` from the reading of the header on. `junk` is what `ustack` holds at the start. -/
def execFile (ip pagetable : ℕ) (path : List UInt8) (argv behind : ℕ → Option (List UInt8))
    (junk : ℕ → ℕ) : OsM ℤ := do
  let content := (← get).contents ip
  let header := inodeBytes content 0 elfHdrSize
  if header.length ≠ elfHdrSize then execBad ip pagetable 0
  else do
    freeProgVmas (← get).current (List.range nommapfile)
    let elf := ElfHdr.ofBytes header
    if elf.magic ≠ elfMagic then execBad ip pagetable 0
    else do
      let (fine, sz) ← loadSegments ip content elf.phoff elf.phnum 0 0
      if !fine then execBad ip pagetable sz
      else do
        let sz := pgRoundUp sz
        let sz1 ← onRam fun ram => ram.userAlloc pagetable sz ((sz + pgSize) % 2 ^ 64)
        if sz1 = 0 then execBad ip pagetable sz
        else do
          let sp := (sz1 + 2 ^ 64 - 8) % 2 ^ 64
          let stackbase := (sz1 + 2 ^ 64 - pgSize) % 2 ^ 64
          let sp ← onRam (fillStack elf argv behind ⟨sp, stackbase, pagetable, junk, 0⟩)
          execStart ip pagetable sz1 sp elf path

/-- `exec` of the file that `namei` finds, whose reference the search has taken. -/
def exec (found : Option ℕ) (path : List UInt8) (argv behind : ℕ → Option (List UInt8))
    (junk : ℕ → ℕ) : OsM ℤ := do
  let s ← get
  let pagetable ← onRam fun ram => ram.taskPagetable s.trampoline s.myTask.trapframe
  if pagetable = 0 then return 0
  match found with
  | none => return 0
  | some ip =>
    let _ ← inodeDup ip
    execFile ip pagetable path argv behind junk

end StartOS
