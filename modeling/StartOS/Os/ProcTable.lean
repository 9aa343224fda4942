import Mathlib.Logic.Relation
import StartOS.Os.Task
import StartOS.Os.System

/-! # The process table, step by step

`fork`, `clone`, `exit`, `wait` and `wait4` as far as they touch the state, the
parent and the exit status of the slots of `taskTable`. Each region under a
spinlock is one step, and between two steps of a task any other task may run.
-/

namespace StartOS

/-- A slot of `taskTable`. -/
structure Entry where
  state : ProcState
  parent : Option ℕ
  xstate : ℤ

inductive CallPos
  | user
  /-- `allocTask` looks at slot `k` next. -/
  | scanning (k : ℕ)
  /-- `allocTask` has returned `child` and its parent is not stored. -/
  | copying (child : ℕ)
  /-- The parent of `child` is stored and its state is not. -/
  | linked (child : ℕ)
  /-- `exit` has given its children away. -/
  | exiting (status : ℤ)
  /-- In the loop of `wait`. -/
  | waiting
  /-- In the loop of `wait4`. -/
  | waiting4 (pid : ℕ)
  deriving DecidableEq

/-- What happens to the slots, with the task that does it. -/
inductive ProcEvent
  /-- `allocTask` returns slot `k`. -/
  | given (i k : ℕ)
  /-- `fork` or `clone` makes slot `k` `RUNNABLE`. -/
  | born (i k : ℕ)
  | exited (i : ℕ) (status : ℤ)
  /-- `wait` or `wait4` stores the word `x`, frees slot `k` and returns its pid. -/
  | reaped (i k : ℕ) (x : ℤ)
  /-- `wait` returns -1 as it has found no child. -/
  | noChild (i : ℕ)
  deriving DecidableEq

/-- The slots, the calls the tasks are in and what has happened. -/
structure ProcTable where
  entry : ℕ → Entry
  pos : ℕ → CallPos
  log : List ProcEvent

def ProcState.Live (st : ProcState) : Prop := st ≠ .unused ∧ st ≠ .zombie

instance (st : ProcState) : Decidable st.Live := inferInstanceAs (Decidable (_ ∧ _))

theorem ProcState.live_running : ProcState.running.Live := by decide

theorem ProcState.live_runnable : ProcState.runnable.Live := by decide

namespace ProcTable

def goto (s : ProcTable) (i : ℕ) (p : CallPos) : ProcTable :=
  { s with pos := Function.update s.pos i p }

theorem goto_goto {s : ProcTable} {i : ℕ} {p q : CallPos} : (s.goto i p).goto i q = s.goto i q := by
  simp only [goto, Function.update_idem]

def set (s : ProcTable) (k : ℕ) (e : Entry) : ProcTable :=
  { s with entry := Function.update s.entry k e }

def note (s : ProcTable) (e : ProcEvent) : ProcTable := { s with log := s.log ++ [e] }

/-- The loop of `exit` over the children of `i`. -/
def adopt (s : ProcTable) (i : ℕ) : ProcTable :=
  { s with entry := fun k =>
      if k < ntask ∧ (s.entry k).parent = some i then { s.entry k with parent := some initTask }
      else s.entry k }

/-- `freeTask`. -/
def free (s : ProcTable) (k : ℕ) : ProcTable := s.set k ⟨.unused, none, 0⟩

def deadChild (s : ProcTable) (i : ℕ) : Option ℕ :=
  (List.range ntask).find? fun k => (s.entry k).parent = some i ∧ (s.entry k).state = .zombie

/-- `child->xstate << 8`. -/
def shift (s : ProcTable) (k : ℕ) : ProcTable :=
  s.set k { s.entry k with xstate := toInt32 ((s.entry k).xstate * 256) }

/-- Some tasks are scheduled, preempted, put to sleep or woken. -/
structure Rescheduled (s s' : ProcTable) : Prop where
  pos : s'.pos = s.pos
  log : s'.log = s.log
  parent : ∀ k, (s'.entry k).parent = (s.entry k).parent
  xstate : ∀ k, (s'.entry k).xstate = (s.entry k).xstate
  state : ∀ k, (s'.entry k).state = (s.entry k).state ∨
    (s.entry k).state.Live ∧ (s'.entry k).state.Live

inductive Step : ProcTable → ProcTable → Prop
  /-- `fork` or `clone` is called. -/
  | callFork (s : ProcTable) (i : ℕ) (hi : (s.entry i).state = .running) (hp : s.pos i = .user) :
      Step s (s.goto i (.scanning 1))
  | scanNext (s : ProcTable) (i : ℕ) {k : ℕ} (hi : (s.entry i).state = .running)
      (hp : s.pos i = .scanning k) (hk : k < ntask) (hused : (s.entry k).state ≠ .unused) :
      Step s (s.goto i (.scanning (k + 1)))
  /-- `allocTask` returns null, as no slot is free or there is no frame for the trapframe. -/
  | scanFail (s : ProcTable) (i : ℕ) {k : ℕ} (hi : (s.entry i).state = .running)
      (hp : s.pos i = .scanning k) (hk : k < ntask → (s.entry k).state = .unused) :
      Step s (s.goto i .user)
  /-- `allocTask` returns slot `k`, which stays `UNUSED`. -/
  | scanFound (s : ProcTable) (i : ℕ) {k : ℕ} (hi : (s.entry i).state = .running)
      (hp : s.pos i = .scanning k) (hk : k < ntask) (hfree : (s.entry k).state = .unused) :
      Step s ((s.goto i (.copying k)).note (.given i k))
  | link (s : ProcTable) (i : ℕ) {k : ℕ} (hi : (s.entry i).state = .running)
      (hp : s.pos i = .copying k) :
      Step s ((s.goto i (.linked k)).set k { s.entry k with parent := some i })
  /-- `child->state = RUNNABLE`, at the end of the call. -/
  | start (s : ProcTable) (i : ℕ) {k : ℕ} (hi : (s.entry i).state = .running)
      (hp : s.pos i = .linked k) :
      Step s (((s.goto i .user).set k { s.entry k with state := .runnable }).note (.born i k))
  | exitBegin (s : ProcTable) (i : ℕ) (status : ℤ) (hi : (s.entry i).state = .running)
      (hp : s.pos i = .user) (hinit : i ≠ initTask) :
      Step s ((s.adopt i).goto i (.exiting status))
  /-- The status that was passed is replaced by 0. -/
  | exitEnd (s : ProcTable) (i : ℕ) {status : ℤ} (hi : (s.entry i).state = .running)
      (hp : s.pos i = .exiting status) :
      Step s (((s.goto i .user).set i { s.entry i with state := .zombie, xstate := 0 }).note
        (.exited i status))
  /-- `wait` finds a child that has exited. -/
  | waitReap (s : ProcTable) (i : ℕ) {k : ℕ} (hi : (s.entry i).state = .running)
      (hp : s.pos i = .user ∨ s.pos i = .waiting) (hk : s.deadChild i = some k) :
      Step s (((s.goto i .user).free k).note (.reaped i k (s.entry k).xstate))
  /-- The status cannot be copied out, and `wait` returns -1. -/
  | waitFault (s : ProcTable) (i : ℕ) {k : ℕ} (hi : (s.entry i).state = .running)
      (hp : s.pos i = .user ∨ s.pos i = .waiting) (hk : s.deadChild i = some k) :
      Step s (s.goto i .user)
  | waitSleep (s : ProcTable) (i : ℕ) (hi : (s.entry i).state = .running)
      (hp : s.pos i = .user ∨ s.pos i = .waiting) (hk : s.deadChild i = none)
      (hchild : ∃ k < ntask, (s.entry k).parent = some i) :
      Step s (s.goto i .waiting)
  | waitNone (s : ProcTable) (i : ℕ) (hi : (s.entry i).state = .running)
      (hp : s.pos i = .user ∨ s.pos i = .waiting) (hk : s.deadChild i = none)
      (hchild : ¬∃ k < ntask, (s.entry k).parent = some i) :
      Step s ((s.goto i .user).note (.noChild i))
  /-- `wait4` finds that `pid` is a child; else it returns at once. -/
  | wait4Call (s : ProcTable) (i pid : ℕ) (hi : (s.entry i).state = .running)
      (hp : s.pos i = .user) (hpid : pid < ntask) (hchild : (s.entry pid).parent = some i) :
      Step s (s.goto i (.waiting4 pid))
  | wait4Sleep (s : ProcTable) (i : ℕ) {pid : ℕ} (hi : (s.entry i).state = .running)
      (hp : s.pos i = .waiting4 pid) (hz : (s.entry pid).state ≠ .zombie) :
      Step s (s.shift pid)
  | wait4Reap (s : ProcTable) (i : ℕ) {pid : ℕ} (hi : (s.entry i).state = .running)
      (hp : s.pos i = .waiting4 pid) (hz : (s.entry pid).state = .zombie) :
      Step s (((s.goto i .user).free pid).note
        (.reaped i pid (toInt32 ((s.entry pid).xstate * 256))))
  | wait4Fault (s : ProcTable) (i : ℕ) {pid : ℕ} (hi : (s.entry i).state = .running)
      (hp : s.pos i = .waiting4 pid) (hz : (s.entry pid).state = .zombie) :
      Step s ((s.shift pid).goto i .user)
  | other (s s' : ProcTable) (h : s.Rescheduled s') : Step s s'

def boot : ProcTable where
  entry k := ⟨if k = initTask then .running else .unused, none, 0⟩
  pos _ := .user
  log := []

/-- Task `i` has been given slot `k` and has not made it `RUNNABLE`. -/
def Fills (s : ProcTable) (i k : ℕ) : Prop := s.pos i = .copying k ∨ s.pos i = .linked k

/-- No `allocTask` comes to a slot that another task fills. -/
inductive CalmStep (s s' : ProcTable) : Prop
  | step (h : Step s s') (hcalm : ∀ i k, s.pos i = .scanning k → s'.pos i = .copying k →
      ∀ j, ¬s.Fills j k)

end ProcTable

inductive Life
  | free
  | alive
  | dead
  deriving DecidableEq

namespace ProcEvent

/-- What an event means for the process in slot `k`: it is born in a free slot, exits once and is
reaped once; anything else is a fault. -/
def life (k : ℕ) (l : Option Life) : ProcEvent → Option Life
  | born _ j => if j = k then if l = some .free then some .alive else none else l
  | exited j _ => if j = k then if l = some .alive then some .dead else none else l
  | reaped _ j _ => if j = k then if l = some .dead then some .free else none else l
  | _ => l

/-- What an event means for who may use slot `k`: it is given once and then released; to give it
again before that is a fault. -/
def taken (k : ℕ) (b : Option Bool) : ProcEvent → Option Bool
  | given _ j => if j = k then if b = some false then some true else none else b
  | reaped _ j _ => if j = k then b.map fun _ => false else b
  | _ => b

end ProcEvent

def lifeAfter (k : ℕ) (log : List ProcEvent) : Option Life :=
  log.foldl (ProcEvent.life k) (some (if k = initTask then .alive else .free))

/-- Whether slot `k` is given out after the events of a log, if it was never given twice. -/
def takenAfter (k : ℕ) (log : List ProcEvent) : Option Bool :=
  log.foldl (ProcEvent.taken k) (some (k = initTask))

end StartOS
