import StartOS.Kernel.Basic
import StartOS.Lib.Riscv

/-! # Traps

The code of `trampoline.S` and `kernelvec.S` and the C functions between, on the hart that takes the
trap. What system calls, page faults and devices do to the machine is a parameter.
-/

namespace StartOS

open Riscv

section Code

/-- The registers that `uservec` saves one after another, with their places in `struct trapframe`. -/
def userSlots : List (Reg × ℕ) :=
  [(.ra, 40), (.sp, 48), (.gp, 56), (.tp, 64), (.t0, 72), (.t1, 80), (.t2, 88), (.s0, 96), (.s1, 104),
    (.a1, 120), (.a2, 128), (.a3, 136), (.a4, 144), (.a5, 152), (.a6, 160), (.a7, 168), (.s2, 176),
    (.s3, 184), (.s4, 192), (.s5, 200), (.s6, 208), (.s7, 216), (.s8, 224), (.s9, 232), (.s10, 240),
    (.s11, 248), (.t3, 256), (.t4, 264), (.t5, 272), (.t6, 280)]

def uservec : List Instr :=
  [.csrrw .a0 .sscratch .a0] ++ saves .a0 userSlots ++
    [.csrr .t0 .sscratch, .sd .t0 .a0 112, .ld .sp .a0 8, .ld .tp .a0 32, .ld .t0 .a0 16, .ld .t1 .a0 0,
      .csrw .satp .t1, .fence, .fence, .jr .t0]

end Code

structure TrapTask where
  trapframe : ℕ
  kstack : Word

/-- The hart and how the tables translate, and what of the hart's task may change during a trap. -/
structure TrapState where
  hart : Hart
  mmu : Mmu
  killed : Bool
  pagetable : Word

inductive TrapEnd
  | panic (msg : String)
  | exit (status : ℤ)
  deriving DecidableEq, Repr

abbrev TrapM := StateT TrapState (Except TrapEnd)

/-- What the kernel does on a trap, and where its code is. -/
structure TrapCalls where
  syscalls : ℕ → TrapM Word
  loadIfValid : Word → TrapM Bool
  external : TrapM Unit
  timer : TrapM Unit
  yield : TrapM Unit
  kernelvec : Word
  usertrap : Word
  uservec : Word

namespace TrapM

def csr (c : Csr) : TrapM Word := return (← get).hart.csrs c

def setCsr (c : Csr) (w : Word) : TrapM Unit := modify fun s => { s with hart := s.hart.setCsr c w }

def setStatus (f : Status → Status) : TrapM Unit :=
  modify fun s => { s with hart := { s.hart with status := f s.hart.status } }

def intrOn : TrapM Unit := setStatus fun x => { x with sie := true }

def intrOff : TrapM Unit := setStatus fun x => { x with sie := false }

def field (t : TrapTask) (off : ℕ) : TrapM Word := return word (← get).hart.mem (t.trapframe + off)

def setField (t : TrapTask) (off : ℕ) (w : Word) : TrapM Unit :=
  modify fun s => { s with hart := { s.hart with mem := setWord s.hart.mem (t.trapframe + off) w } }

end TrapM

section Handlers

open TrapM

/-- The numbers `syscall_init` gives a function. -/
def syscallNumbers : List ℕ :=
  [221, 2, 64, 65, 66, 78, 63, 23, 24, 25, 29, 17, 154, 155, 172, 173, 174, 175, 178, 1, 220, 93, 94, 3, 260,
    48, 49, 57, 34, 56, 124, 214, 4, 160, 59, 61, 62, 40, 39, 129, 134, 135, 153, 169, 179, 222, 215, 79, 80,
    88, 35, 101, 115, 113, 71, 73, 96, 226, 261, 116]

def nsyscalls : ℕ := 400

def syscall (t : TrapTask) (calls : TrapCalls) : TrapM Unit := do
  let num := toInt32 (← field t 168).toNat
  if 0 < num ∧ num < nsyscalls ∧ num.toNat ∈ syscallNumbers then
    setField t 112 (← calls.syscalls num.toNat)
  else
    setField t 112 0
    throw (.panic "syscall error")

/-- `device_intr` on QEMU. -/
def deviceIntr (calls : TrapCalls) : TrapM ℕ := do
  let scause ← csr .scause
  if 0x8000000000000000 &&& scause ≠ 0 ∧ scause &&& 0xff = 9 then
    calls.external
    return 1
  else if scause = 0x8000000000000005 then
    calls.timer
    return 2
  else return 0

/-- `PGSIZE`. -/
def pageWord : Word := 4096

/-- `TRAPFRAME`. -/
def trapframeWord : Word := 0x3fffffe000

def makeSatp (pagetable : Word) : Word := (8 : Word) <<< 60 ||| pagetable >>> 12

/-- `usertrapret` up to the jump to `userret`, which gets `TRAPFRAME` and the table. -/
def usertrapret (t : TrapTask) (calls : TrapCalls) : TrapM Unit := do
  intrOff
  setCsr .stvec calls.uservec
  setField t 0 (← csr .satp)
  setField t 8 (t.kstack + pageWord)
  setField t 16 calls.usertrap
  setField t 32 ((← get).hart.regs .tp)
  setStatus fun x => { x with spp := .user, spie := true }
  setCsr .sepc (← field t 24)
  let satp := makeSatp (← get).pagetable
  modify fun s => { s with hart := (s.hart.setReg .a0 trapframeWord).setReg .a1 satp }

/-- The causes that `usertrap` takes for page faults. -/
def faultCauses : List Word := [1, 13, 5, 12, 15, 7]

/-- What `usertrap` does about the cause: which device it was, if any. -/
def usertrapCause (t : TrapTask) (calls : TrapCalls) : TrapM ℕ := do
  let scause ← csr .scause
  if scause = 8 then
    if (← get).killed then throw (.exit (-1))
    setField t 24 ((← field t 24) + 4)
    intrOn
    syscall t calls
    return 0
  else if scause ∈ faultCauses then
    if !(← calls.loadIfValid (← csr .stval)) then modify fun s => { s with killed := true }
    return 0
  else
    let whichDev ← deviceIntr calls
    if whichDev ≠ 0 then return whichDev
    else if (← csr .scause) = 3 then
      setField t 24 ((← field t 24) + 4)
      return 0
    else
      modify fun s => { s with killed := true }
      return 0

def usertrap (t : TrapTask) (calls : TrapCalls) : TrapM Unit := do
  if (← get).hart.status.spp ≠ .user then throw (.panic "usertrap: not from user mode")
  setCsr .stvec calls.kernelvec
  setField t 24 (← csr .sepc)
  let whichDev ← usertrapCause t calls
  if (← get).killed then throw (.exit (-1))
  if whichDev = 2 then calls.yield
  usertrapret t calls

end Handlers

end StartOS
