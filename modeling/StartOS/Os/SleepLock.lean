import Mathlib.Data.List.FinRange
import Mathlib.Logic.Relation
import StartOS.Os.System

/-! # The sleep lock

`SleepLock::lock`, `SleepLock::unlock` and the parts of `sleep`, `wakeup` and
the scheduler they meet, one step for each access to what the tasks share. Any
number of tasks take their steps in any order; a task that has taken a spinlock
is not interrupted.
-/

namespace StartOS

inductive Chan
  | none
  | lock
  | other (c : ℕ)
  deriving DecidableEq

/-- The next thing a task does in `lock`, in the `sleep` it calls, or in `unlock`. -/
inductive LockPc (n : ℕ)
  /-- Not in a call on this lock. -/
  | outside
  /-- `spinlock.lock()` of `lock`, or at the end of `sleep`. -/
  | acquire
  /-- `while (locked)`. -/
  | test
  /-- `spinlock.unlock()` of `lock`. -/
  | leave
  /-- `task->lock.lock()` of `sleep`. -/
  | lockTask
  /-- `lock->unlock()` of `sleep`. -/
  | releaseSpin
  /-- `task->chan = chan`. -/
  | setChan
  /-- `task->state = SLEEPING`. -/
  | setState
  /-- `prepareSched()`. -/
  | switch
  /-- Switched away in `prepareSched()`. -/
  | away
  /-- `task->chan = 0`. -/
  | resetChan
  /-- `task->lock.unlock()` of `sleep`. -/
  | unlockTask
  /-- `spinlock.lock()` of `unlock`. -/
  | acquireUnlock
  /-- `locked = 0`. -/
  | clear
  /-- The loop of `wakeup` with the tasks still to look at, then `spinlock.unlock()`. -/
  | wake (rest : List (Fin n))
  deriving DecidableEq

namespace LockPc

variable {n : ℕ}

def holdsSpin : LockPc n → Bool
  | test | leave | lockTask | releaseSpin | clear | wake _ => true
  | _ => false

def holdsTask : LockPc n → Bool
  | releaseSpin | setChan | setState | switch | resetChan | unlockTask => true
  | _ => false

def onChan : LockPc n → Bool
  | setState | switch | away | resetChan => true
  | _ => false

def interruptible : LockPc n → Bool
  | outside | acquire | acquireUnlock => true
  | _ => false

end LockPc

/-- What `sleep`, `wakeup` and the scheduler see of a task. `on` tells that a hart executes it
and `holds` that it has returned from `lock` and not yet given the lock back. -/
structure LockTask (n : ℕ) where
  pc : LockPc n
  state : ProcState
  chan : Chan
  taskLock : Bool
  on : Bool
  holds : Bool

/-- A `SleepLock` and the tasks of the system. -/
structure LockState (n : ℕ) where
  spin : Option (Fin n)
  locked : Bool
  pid : ℕ
  task : Fin n → LockTask n

namespace LockTask

variable {n : ℕ}

def woken (x : LockTask n) : LockTask n :=
  if x.state = .sleeping ∧ x.chan = .lock then { x with state := .runnable } else x

/-- The task when the scheduler has given it a hart. It comes back from `prepareSched` with its
own lock in `sleep`; in `yield` it gives the lock back at once. -/
def resumed (x : LockTask n) : LockTask n :=
  if x.pc = .away then
    { x with pc := .resetChan, state := .running, on := true, taskLock := true }
  else { x with state := .running, on := true, chan := .none }

end LockTask

namespace LockState

variable {n : ℕ}

def set (s : LockState n) (t : Fin n) (x : LockTask n) : LockState n :=
  { s with task := Function.update s.task t x }

theorem set_self {s : LockState n} {t : Fin n} {x : LockTask n} : (s.set t x).task t = x :=
  Function.update_self ..

theorem set_of_ne {s : LockState n} {t u : Fin n} {x : LockTask n} (h : u ≠ t) :
    (s.set t x).task u = s.task u := Function.update_of_ne h ..

def goto (s : LockState n) (t : Fin n) (pc : LockPc n) : LockState n :=
  s.set t { s.task t with pc := pc }

/-- One step of one task, of the scheduler or of the rest of the kernel. -/
inductive Step (init : Fin n) : LockState n → LockState n → Prop
  /-- `lock` is called. -/
  | callLock (s : LockState n) (t : Fin n) (hon : (s.task t).on)
      (hpc : (s.task t).pc = .outside) :
      Step init s (s.goto t .acquire)
  | acquire (s : LockState n) (t : Fin n) (hon : (s.task t).on)
      (hpc : (s.task t).pc = .acquire) (hfree : s.spin = none) :
      Step init s { s.goto t .test with spin := some t }
  | testFree (s : LockState n) (t : Fin n) (hon : (s.task t).on) (hpc : (s.task t).pc = .test)
      (hl : s.locked = false) :
      Step init s { s.goto t .leave with locked := true, pid := t }
  | testLocked (s : LockState n) (t : Fin n) (hon : (s.task t).on) (hpc : (s.task t).pc = .test)
      (hl : s.locked = true) :
      Step init s (s.goto t .lockTask)
  /-- `lock` returns. -/
  | leave (s : LockState n) (t : Fin n) (hon : (s.task t).on) (hpc : (s.task t).pc = .leave) :
      Step init s { s.set t { s.task t with pc := .outside, holds := true } with spin := none }
  | lockTask (s : LockState n) (t : Fin n) (hon : (s.task t).on)
      (hpc : (s.task t).pc = .lockTask) (hfree : (s.task t).taskLock = false) :
      Step init s (s.set t { s.task t with pc := .releaseSpin, taskLock := true })
  | releaseSpin (s : LockState n) (t : Fin n) (hon : (s.task t).on)
      (hpc : (s.task t).pc = .releaseSpin) :
      Step init s { s.goto t .setChan with spin := none }
  | setChan (s : LockState n) (t : Fin n) (hon : (s.task t).on)
      (hpc : (s.task t).pc = .setChan) :
      Step init s (s.set t { s.task t with pc := .setState, chan := .lock })
  | setState (s : LockState n) (t : Fin n) (hon : (s.task t).on)
      (hpc : (s.task t).pc = .setState) :
      Step init s (s.set t { s.task t with pc := .switch, state := .sleeping })
  /-- The hart goes to the scheduler, which releases the lock of the task. -/
  | switch (s : LockState n) (t : Fin n) (hon : (s.task t).on) (hpc : (s.task t).pc = .switch) :
      Step init s (s.set t { s.task t with pc := .away, on := false, taskLock := false })
  | resetChan (s : LockState n) (t : Fin n) (hon : (s.task t).on)
      (hpc : (s.task t).pc = .resetChan) :
      Step init s (s.set t { s.task t with pc := .unlockTask, chan := .none })
  | unlockTask (s : LockState n) (t : Fin n) (hon : (s.task t).on)
      (hpc : (s.task t).pc = .unlockTask) :
      Step init s (s.set t { s.task t with pc := .acquire, taskLock := false })
  /-- `unlock` is called by the holder. -/
  | callUnlock (s : LockState n) (t : Fin n) (hon : (s.task t).on)
      (hpc : (s.task t).pc = .outside) (hholds : (s.task t).holds) :
      Step init s (s.goto t .acquireUnlock)
  | acquireUnlock (s : LockState n) (t : Fin n) (hon : (s.task t).on)
      (hpc : (s.task t).pc = .acquireUnlock) (hfree : s.spin = none) :
      Step init s { s.goto t .clear with spin := some t }
  | clear (s : LockState n) (t : Fin n) (hon : (s.task t).on) (hpc : (s.task t).pc = .clear) :
      Step init s { s.set t { s.task t with pc := .wake (List.finRange n), holds := false } with
        locked := false
        pid := 0 }
  | wake (s : LockState n) (t : Fin n) {u : Fin n} {rest : List (Fin n)} (hon : (s.task t).on)
      (hpc : (s.task t).pc = .wake (u :: rest)) (hfree : (s.task u).taskLock = false) :
      Step init s ((s.set u (s.task u).woken).goto t (.wake rest))
  /-- `unlock` returns. -/
  | wakeDone (s : LockState n) (t : Fin n) (hon : (s.task t).on)
      (hpc : (s.task t).pc = .wake []) :
      Step init s { s.goto t .outside with spin := none }
  /-- The scheduler finds a task `RUNNABLE`. -/
  | schedule (s : LockState n) (t : Fin n) (hoff : (s.task t).on = false)
      (hrun : (s.task t).state = .runnable) (hfree : (s.task t).taskLock = false) :
      Step init s (s.set t (s.task t).resumed)
  /-- A timer interrupt makes a task `yield`. -/
  | yield (s : LockState n) (t : Fin n) (hon : (s.task t).on) (hpc : (s.task t).pc.interruptible)
      (hfree : (s.task t).taskLock = false) :
      Step init s (s.set t { s.task t with state := .runnable, on := false })
  /-- A task sleeps on something else. -/
  | sleepOther (s : LockState n) (t : Fin n) (c : ℕ) (hon : (s.task t).on)
      (hpc : (s.task t).pc = .outside) (hfree : (s.task t).taskLock = false) :
      Step init s (s.set t { s.task t with state := .sleeping, on := false, chan := .other c })
  /-- A task that sleeps on something else is woken. -/
  | wakeOther (s : LockState n) (t : Fin n) (hs : (s.task t).state = .sleeping)
      (hc : (s.task t).chan ≠ .lock) (hfree : (s.task t).taskLock = false) :
      Step init s (s.set t { s.task t with state := .runnable })
  /-- The scheduler has seen a zombie. It runs on one hart only, so `initTask` is on none. -/
  | wakeInit (s : LockState n) (hoff : (s.task init).on = false) :
      Step init s (s.set init { s.task init with state := .runnable })
  /-- A task exits. -/
  | exit (s : LockState n) (t : Fin n) (hon : (s.task t).on) (hpc : (s.task t).pc = .outside) :
      Step init s (s.set t { s.task t with state := .zombie, on := false })
  /-- A zombie is freed, or a free slot gets a new task. -/
  | reuse (s : LockState n) (t : Fin n) (st : ProcState) (hoff : (s.task t).on = false)
      (hpc : (s.task t).pc = .outside)
      (hz : (s.task t).state = .zombie ∨ (s.task t).state = .unused)
      (hst : st = .unused ∨ st = .runnable) :
      Step init s (s.set t { s.task t with state := st, chan := .none })

/-- Nobody has called and the lock is free; tasks may run or sleep elsewhere. -/
structure Initial (s : LockState n) : Prop where
  spin : s.spin = none
  locked : s.locked = false
  pc : ∀ t, (s.task t).pc = .outside
  chan : ∀ t, (s.task t).chan ≠ .lock
  taskLock : ∀ t, (s.task t).taskLock = false
  on : ∀ t, (s.task t).on → (s.task t).state = .running
  holds : ∀ t, (s.task t).holds = false

end LockState

end StartOS
