import Mathlib.Data.List.Nodup
import Mathlib.Logic.Function.Basic
import StartOS.Lib.LabelledRun

/-! # The spinlock

`SpinLock` with the `push_off` and `pop_off` of `Intr`, one step for each access to what the harts share
and for each point where an interrupt may come between. Harts take their steps in any order, interrupts
nest on a hart and a hart that holds one lock may switch to another thread.
-/

namespace StartOS

open LabelledRun (Run)

inductive SpinPanic (ι : Type*)
  | reacquire (l : ι)
  | unlock (l : ι)
  | interruptible
  | popOff
  deriving DecidableEq

/-- The next thing a hart does in `lock`, `unlock`, `push_off` or `pop_off`. -/
inductive SpinPc (ι : Type*)
  /-- In none of them. -/
  | idle
  /-- `int old = intr_get()`, in `lock` where there is a lock. -/
  | pushGet (l : Option ι)
  /-- `intr_off()`. -/
  | pushOff (l : Option ι) (old : Bool)
  /-- The rest of `push_off`. -/
  | pushCount (l : Option ι) (old : Bool)
  /-- `this->locked` of `holding` in `lock`. -/
  | testLocked (l : ι)
  /-- `this->cpuid` of `holding` in `lock`. -/
  | testCpuid (l : ι)
  /-- `__sync_lock_test_and_set`. -/
  | swap (l : ι)
  /-- `cpuid = Cpu::cpuid()`. -/
  | record (l : ι)
  /-- `this->locked` of `holding` in `unlock`. -/
  | checkLocked (l : ι)
  /-- `this->cpuid` of `holding` in `unlock`. -/
  | checkCpuid (l : ι)
  /-- `this->cpuid = -1`. -/
  | clear (l : ι)
  /-- `__sync_lock_release`. -/
  | release (l : ι)
  /-- `pop_off`, in `unlock` where there is a lock. -/
  | popOff (l : Option ι)
  | halted (why : SpinPanic ι)
  deriving DecidableEq

/-- Code that runs on a hart until it returns from its interrupt. `locks` are the locks it has been given
and not yet released, `pushes` counts its own calls of `push_off`, and `enabled` tells if interrupts are on
for it when it has neither. -/
structure Activation (ι : Type*) where
  pc : SpinPc ι
  locks : List ι
  pushes : ℕ
  enabled : Bool

/-- A `Cpu`, with its `sstatus` bit and the code that it runs above what was interrupted. -/
structure SpinHart (ι : Type*) where
  sie : Bool
  noff : ℕ
  intrEnable : Bool
  top : Activation ι
  below : List (Activation ι)

/-- The harts and the locks. `used` tells that a hart has once recorded itself in the lock. -/
structure SpinState (κ ι : Type*) where
  hart : κ → SpinHart ι
  locked : ι → Bool
  cpuid : ι → Option κ
  used : ι → Bool

section Model

variable {κ ι : Type*} [DecidableEq κ] [DecidableEq ι]

def Activation.Resting (a : Activation ι) : Prop :=
  a.locks = [] ∧ a.pushes = 0 ∧ a.enabled = true ∧
    (a.pc = .idle ∨ (∃ l, a.pc = .pushGet l) ∨ ∃ l, a.pc = .pushOff l true)

def SpinHart.goto (h : SpinHart ι) (pc : SpinPc ι) : SpinHart ι := { h with top := { h.top with pc } }

def SpinState.put (s : SpinState κ ι) (k : κ) (h : SpinHart ι) : SpinState κ ι :=
  { s with hart := Function.update s.hart k h }

/-- The end of `push_off`. -/
def SpinHart.count (h : SpinHart ι) (l : Option ι) (old : Bool) : SpinHart ι where
  sie := h.sie
  noff := h.noff + 1
  intrEnable := if h.noff = 0 then old else h.intrEnable
  top := match l with
    | none => { h.top with pc := .idle, pushes := h.top.pushes + 1 }
    | some l => { h.top with pc := .testLocked l }
  below := h.below

/-- `pop_off`. -/
def SpinHart.pop (h : SpinHart ι) (l : Option ι) : SpinHart ι :=
  if h.sie then h.goto (.halted .interruptible)
  else if h.noff < 1 then h.goto (.halted .popOff)
  else
    { h with
      sie := h.noff - 1 = 0 ∧ h.intrEnable
      noff := h.noff - 1
      top := { h.top with pc := .idle, pushes :=
        if l.isNone then h.top.pushes - 1 else h.top.pushes } }

def SpinState.next (s : SpinState κ ι) (k : κ) : Option (SpinState κ ι) :=
  let h := s.hart k
  match h.top.pc with
  | .idle | .halted _ => none
  | .pushGet l => some (s.put k (h.goto (.pushOff l h.sie)))
  | .pushOff l old => some (s.put k { h.goto (.pushCount l old) with sie := false })
  | .pushCount l old => some (s.put k (h.count l old))
  | .testLocked l => some (s.put k (h.goto (if s.locked l then .testCpuid l else .swap l)))
  | .testCpuid l => some (s.put k
    (h.goto (if s.cpuid l = some k then .halted (.reacquire l) else .swap l)))
  | .swap l =>
    if s.locked l then some s
    else some { s.put k (h.goto (.record l)) with locked := Function.update s.locked l true }
  | .record l => some { s.put k { h with top :=
    { h.top with pc := .idle, locks := l :: h.top.locks } } with
      cpuid := Function.update s.cpuid l (some k)
      used := Function.update s.used l true }
  | .checkLocked l => some (s.put k
    (h.goto (if s.locked l then .checkCpuid l else .halted (.unlock l))))
  | .checkCpuid l => some (s.put k
    (h.goto (if s.cpuid l = some k then .clear l else .halted (.unlock l))))
  | .clear l => some { s.put k (h.goto (.release l)) with cpuid := Function.update s.cpuid l none }
  | .release l => some { s.put k { h with
        top := { h.top with pc := .popOff (some l), locks := h.top.locks.erase l } } with
      locked := Function.update s.locked l false }
  | .popOff l => some (s.put k (h.pop l))

/-- What the code on a hart does next where it is in none of the functions, or what happens to it. -/
inductive SpinCall (ι : Type*)
  | lock (l : ι)
  | unlock (l : ι)
  | push
  | pop
  | intr (on : Bool)
  /-- An interrupt. -/
  | trap
  /-- The return from one. -/
  | sret
  /-- The return of `pswitch`, to a thread that saved `enable` and runs above `below`. -/
  | switch (enable : Bool) (below : List (Activation ι))

/-- What the callers see to: that a lock is released by its holder, pops have their pushes, and a thread
switches with one lock held. -/
def SpinHart.Calls (h : SpinHart ι) : SpinCall ι → SpinHart ι → Prop
  | .lock l, h' => h.top.pc = .idle ∧ h' = h.goto (.pushGet (some l))
  | .unlock l, h' => h.top.pc = .idle ∧ l ∈ h.top.locks ∧ h' = h.goto (.checkLocked l)
  | .push, h' => h.top.pc = .idle ∧ h' = h.goto (.pushGet none)
  | .pop, h' => h.top.pc = .idle ∧ 0 < h.top.pushes ∧ h' = h.goto (.popOff none)
  | .intr on, h' => h.top.pc = .idle ∧ h.noff = 0 ∧
    h' = { h with sie := on, top := { h.top with enabled := on } }
  | .trap, h' => h.sie = true ∧
      h' = { h with sie := false, top := ⟨.idle, [], 0, false⟩, below := h.top :: h.below }
  | .sret, h' => h.top.pc = .idle ∧ h.noff = 0 ∧ ∃ a below, h.below = a :: below ∧
      h' = { h with sie := true, top := a, below }
  | .switch enable below, h' => h.top.pc = .idle ∧ h.noff = 1 ∧ (∀ a ∈ below, a.Resting) ∧
      h' = { h with intrEnable := enable, top := { h.top with enabled := enable }, below }

inductive SpinEvent (κ ι : Type*)
  | next (k : κ)
  | call (k : κ) (c : SpinCall ι)

def SpinStep : SpinEvent κ ι → SpinState κ ι → SpinState κ ι → Prop
  | .next k, s, s' => s.next k = some s'
  | .call k c, s, s' => ∃ h, (s.hart k).Calls c h ∧ s' = s.put k h

/-- Each lock has been made by the hart `init` gives it. -/
structure SpinState.Initial (init : ι → κ) (s : SpinState κ ι) : Prop where
  hart : ∀ k, (s.hart k).noff = 0 ∧ (s.hart k).top = ⟨.idle, [], 0, (s.hart k).sie⟩ ∧
    (s.hart k).below = []
  locked : ∀ l, s.locked l = false
  cpuid : ∀ l, s.cpuid l = some (init l)
  used : ∀ l, s.used l = false

end Model

end StartOS
