import StartOS.Os.TidySlots

/-! # Slots that are used again

A slot of the task table is given to one process after another. `freeTask` clears
some of its fields, `allocTask` and `fork` store others; the ticks that the timer
has charged to the processes before stay.
-/

namespace StartOS

open Hoare

/-- The kernel with what the timer counts: all ticks, and those of each slot in user mode and in the
kernel. -/
structure Timed where
  sys : System
  ticks : ℤ
  uticks : ℕ → ℤ
  sticks : ℕ → ℤ

abbrev TimedM := StateT Timed Kernel

def onSystem {α : Type} (call : OsM α) : TimedM α := do
  let t ← get
  let (a, sys) ← (call t.sys : Kernel _)
  set { t with sys := sys }
  return a

/-- `timer::handleIntr` for the task of the hart, which is null in the scheduler; `user` is the mode
that was interrupted. -/
def handleIntr (task : Option ℕ) (user : Bool) (onChan : ℕ → Bool) : TimedM Unit := do
  modify fun t => { t with ticks := toInt32 (t.ticks + 1) }
  if (← get).ticks = 10 * 60 then throw (.panic "run out of time")
  onSystem (wakeup onChan)
  match task with
  | none => return ()
  | some i =>
    if user then
      modify fun t => { t with uticks := Function.update t.uticks i (toInt32 (t.uticks i + 1)) }
    else
      modify fun t => { t with sticks := Function.update t.sticks i (toInt32 (t.sticks i + 1)) }

structure Tms where
  utime : ℤ
  stime : ℤ
  cutime : ℤ
  cstime : ℤ
  deriving DecidableEq

/-- What `taskTimes` reports to the process in slot `i`. -/
def Timed.times (t : Timed) (i : ℕ) : Tms :=
  let children := (List.range ntask).filter fun k => (t.sys.taskTable k).parent = some i
  ⟨t.uticks i, t.sticks i, (children.map t.uticks).sum, (children.map t.sticks).sum⟩

def taskTimes : TimedM Tms := do
  let t ← get
  return t.times t.sys.current

namespace System

variable {s s' : System} {p : Proc}

/-- The task table after `initTaskTable` with the first process running. -/
structure Initial (s : System) : Prop where
  init : s.Live initTask
  unused : ∀ i, i ≠ initTask → (s.taskTable i).state = .unused
  parent : ∀ i, (s.taskTable i).parent = none
  xstate : ∀ i, (s.taskTable i).xstate = 0
  killed : ∀ i, (s.taskTable i).killed = false

theorem Initial.tidy (h : s.Initial) : s.Tidy :=
  ⟨fun i _ => h.killed i, h.xstate, fun k _ _ hj => absurd ((h.parent k).symm.trans hj) nofun, h.init⟩

end System

/-- The states that a history of the task table leads to, with the ticks that were charged on the
way: the slot and whether it was in user mode. -/
inductive History : Timed → List (ℕ × Bool) → Prop
  | boot (s : System) (hs : s.Initial) : History ⟨s, 0, fun _ => 0, fun _ => 0⟩ []
  | call {t : Timed} {log : List (ℕ × Bool)} (h : History t log) (c : SlotCall) {s : System}
      (hrun : t.sys.myTask.state = .running) (hc : c.run t.sys = .ok ((), s)) :
      History { t with sys := s } log
  | tick {t t' : Timed} {log : List (ℕ × Bool)} (h : History t log) (user : Bool) (onChan : ℕ → Bool)
      (hrun : t.sys.myTask.state = .running)
      (ht : handleIntr (some t.sys.current) user onChan t = .ok ((), t')) :
      History t' ((t.sys.current, user) :: log)
  | idle {t t' : Timed} {log : List (ℕ × Bool)} (h : History t log) (user : Bool) (onChan : ℕ → Bool)
      (ht : handleIntr none user onChan t = .ok ((), t')) : History t' log
  | elsewhere {t : Timed} {log : List (ℕ × Bool)} (h : History t log) {s : System}
      (hs : t.sys.Elsewhere s) : History { t with sys := s } log

namespace Timed

variable {t t' : Timed} {task : Option ℕ} {user : Bool} {onChan : ℕ → Bool} {i k : ℕ}
  {log : List (ℕ × Bool)}

theorem handleIntr_eq_ok (h : handleIntr task user onChan t = .ok ((), t')) :
    t'.ticks = toInt32 (t.ticks + 1) ∧ t'.ticks ≠ 600 ∧ t.sys.Elsewhere t'.sys ∧
      (∀ i, t'.uticks i =
        if task = some i ∧ user = true then toInt32 (t.uticks i + 1) else t.uticks i) ∧
      ∀ i, t'.sticks i =
        if task = some i ∧ user = false then toInt32 (t.sticks i + 1) else t.sticks i := by
  unfold handleIntr at h
  rw [modify_bind, get_bind] at h
  split at h
  · cases h
  rename_i hticks
  obtain ⟨⟨⟩, t₁, hwake, h₁⟩ := bind_eq_ok.mp h
  rw [onSystem, get_bind] at hwake
  cases hsys : wakeup onChan t.sys with
  | error e =>
    rw [hsys] at hwake
    cases hwake
  | ok r =>
    rw [hsys] at hwake
    cases hwake
    have he := System.elsewhere_wakeup hsys
    cases task with
    | none =>
      cases h₁
      exact ⟨rfl, hticks, he, fun i => rfl, fun i => rfl⟩
    | some k =>
      cases user with
      | true =>
        cases h₁
        refine ⟨rfl, hticks, he, fun i => ?_, fun i => by simp⟩
        by_cases hi : i = k
        · subst hi
          simp
        · simp [hi, Ne.symm hi]
      | false =>
        cases h₁
        refine ⟨rfl, hticks, he, fun i => by simp, fun i => ?_⟩
        by_cases hi : i = k
        · subst hi
          simp
        · simp [hi, Ne.symm hi]

/-- The counters are the numbers of ticks that were charged. -/
structure Counted (t : Timed) (log : List (ℕ × Bool)) : Prop where
  ticks : (log.length : ℤ) ≤ t.ticks
  few : t.ticks < 600
  uticks : ∀ i, t.uticks i = log.count (i, true)
  sticks : ∀ i, t.sticks i = log.count (i, false)

def charged (task : Option ℕ) (user : Bool) (log : List (ℕ × Bool)) : List (ℕ × Bool) :=
  match task with
  | none => log
  | some i => (i, user) :: log

theorem count_charged (k : ℕ) (b : Bool) : (charged task user log).count (k, b) =
    if task = some k ∧ user = b then log.count (k, b) + 1 else log.count (k, b) := by
  cases task with
  | none => simp [charged]
  | some i =>
    rw [charged, List.count_cons]
    by_cases hc : i = k ∧ user = b
    · simp [hc.1, hc.2]
    · have hne : ¬(i, user) = (k, b) := fun he => hc (Prod.mk.inj he)
      simp only [beq_iff_eq, if_neg hne, Option.some.injEq, if_neg hc, Nat.add_zero]

theorem length_charged (task : Option ℕ) (user : Bool) (log : List (ℕ × Bool)) :
    (charged task user log).length ≤ log.length + 1 := by
  cases task with
  | none => exact Nat.le_succ _
  | some i => exact le_rfl

theorem Counted.handleIntr (h : t.Counted log) (ht : handleIntr task user onChan t = .ok ((), t')) :
    t'.Counted (charged task user log) := by
  obtain ⟨hticks, hne, -, huticks, hsticks⟩ := handleIntr_eq_ok ht
  have hlen := h.ticks
  have hfew := h.few
  have hsum : t'.ticks = t.ticks + 1 := by rw [hticks, toInt32_of_lt (by omega) (by omega)]
  have hcount : ∀ p, toInt32 ((log.count p : ℤ) + 1) = ((log.count p + 1 : ℕ) : ℤ) := by
    intro p
    have := List.count_le_length (a := p) (l := log)
    rw [toInt32_of_lt (by omega) (by omega), Nat.cast_succ]
  have hle := length_charged task user log
  refine ⟨by omega, by omega, fun i => ?_, fun i => ?_⟩
  · rw [huticks, h.uticks, hcount, count_charged, apply_ite Nat.cast]
  · rw [hsticks, h.sticks, hcount, count_charged, apply_ite Nat.cast]

end Timed

theorem History.tidy_and_counted {t : Timed} {log : List (ℕ × Bool)} (h : History t log) :
    t.sys.Tidy ∧ t.Counted log := by
  induction h with
  | boot s hs => exact ⟨hs.tidy, by simp, by norm_num, fun _ => rfl, fun _ => rfl⟩
  | call h c hrun hc ih => exact ⟨System.tidy_call ih.1 hrun c hc, ih.2.1, ih.2.2, ih.2.3, ih.2.4⟩
  | tick h user onChan hrun ht ih =>
    exact ⟨ih.1.elsewhere (Timed.handleIntr_eq_ok ht).2.2.1, ih.2.handleIntr ht⟩
  | idle h user onChan ht ih =>
    exact ⟨ih.1.elsewhere (Timed.handleIntr_eq_ok ht).2.2.1, ih.2.handleIntr ht⟩
  | elsewhere h hs ih => exact ⟨ih.1.elsewhere hs, ih.2.1, ih.2.2, ih.2.3, ih.2.4⟩

structure View where
  times : Tms
  killed : Bool
  xstate : ℤ
  inherited : System.Inherited

def Timed.view (t : Timed) (i : ℕ) : View :=
  ⟨t.times i, (t.sys.taskTable i).killed, (t.sys.taskTable i).xstate, t.sys.inherited i⟩

/-- A new process has the ticks of its slot, no children, and is neither killed nor dead. -/
theorem History.view_child {t : Timed} {log : List (ℕ × Bool)} {child : ℕ} {s' : System}
    (h : History t log) (hrun : t.sys.myTask.state = .running)
    (hf : fork t.sys = .ok ((child : ℤ), s')) :
    ({ t with sys := s' } : Timed).view child =
      ⟨⟨log.count (child, true), log.count (child, false), 0, 0⟩, false, 0, s'.inherited child⟩ := by
  obtain ⟨htidy, hcount⟩ := h.tidy_and_counted
  obtain ⟨hslot, hne, -, hothers, hchild, -⟩ := System.fork_spec hrun hf
  have hunused := (System.freeTaskSlot_some hslot).2
  have hnone : (List.range ntask).filter (fun k => (s'.taskTable k).parent = some child) = [] := by
    rw [List.filter_eq_nil_iff]
    intro k hk hp
    have hp := of_decide_eq_true hp
    by_cases he : k = child
    · rw [he, hchild.parent, Option.some.injEq] at hp
      exact hne hp.symm
    · rw [hothers k he] at hp
      exact (htidy.parent k (List.mem_range.mp hk) child hp).1 hunused
  have htimes : ({ t with sys := s' } : Timed).times child =
      ⟨log.count (child, true), log.count (child, false), 0, 0⟩ := by
    simp only [Timed.times, hnone, List.map_nil, List.sum_nil, hcount.uticks, hcount.sticks]
  rw [Timed.view, htimes, View.mk.injEq]
  exact ⟨rfl, hchild.killed.trans (htidy.killed child hunused),
    hchild.xstate.trans (htidy.xstate child), rfl⟩

namespace MemAllocator

variable {s : MemAllocator} {p : ℕ}

theorem IsPage.free_moves (hp : s.IsPage p) (hw : s.WellFormed) (hf : p ∉ s.freeList) :
    ∃ s', s.free p = .ok s' ∧ Moves s s' {p} ∅ := by
  refine ⟨_, hp.free_eq, ⟨hw.kend_pos, List.nodup_cons.mpr ⟨hf, hw.nodup⟩, ?_⟩, rfl, ?_, ?_, ?_⟩
  · intro q hq
    rcases List.mem_cons.mp hq with rfl | hq
    · exact hp.of_kend rfl
    · exact (hw.isPage q hq).of_kend rfl
  · rintro q (hq | hq)
    · exact absurd hq (Set.notMem_empty q)
    · rcases List.mem_cons.mp hq with rfl | hq
      · exact .inl rfl
      · exact .inr hq
  · exact fun q hq => absurd hq (Set.notMem_empty q)
  · intro x hx
    have := hx p (.inl rfl)
    exact ByteMem.fill_of_not_mem (by omega)

end MemAllocator

namespace System

variable {s s' : System} {me child frame : ℕ}

theorem closeFiles_of_none {fds : List ℕ} (h : ∀ fd, (s.taskTable me).task.openFiles fd = none) :
    closeFiles me fds s = .ok ((), s) := by
  induction fds with
  | nil => rfl
  | cons fd fds ih =>
    rw [closeFiles, get_bind, h fd]
    exact ih

theorem closeVmas_of_none {is : List ℕ} (h : ∀ k, (s.taskTable me).task.vma k = none) :
    closeVmas me is s = .ok ((), s) := by
  induction is with
  | nil => rfl
  | cons i is ih =>
    rw [closeVmas, get_bind, h i]
    exact ih

theorem wakeup_none : wakeup (fun _ => false) s = .ok ((), s) := by
  have hwoken : (fun i => if i < ntask ∧ (s.taskTable i).state = .sleeping ∧ false then
      { s.taskTable i with state := .runnable } else s.taskTable i) = s.taskTable := by
    funext i
    exact if_neg fun hc => Bool.noConfusion hc.2.2
  exact congrArg (fun table => Except.ok ((), { s with taskTable := table })) hwoken

theorem exit_of_none (hme : s.current ≠ initTask) (hfiles : ∀ fd, s.myTask.task.openFiles fd = none)
    (hvmas : ∀ k, s.myTask.task.vma k = none) (hno : ∀ k, (s.taskTable k).parent ≠ some s.current) :
    exit (fun _ => false) s = .ok ((), s.setProc s.current
      { s.myTask with currentDir := s.myTask.currentDir.fill 0 64 0, state := .zombie, xstate := 0 }) := by
  obtain ⟨s₁, hs₁⟩ : ∃ s₁, s₁ = s.setProc s.current
      { s.myTask with currentDir := s.myTask.currentDir.fill 0 64 0 } := ⟨_, rfl⟩
  have hslot : s₁.taskTable s.current =
      { s.myTask with currentDir := s.myTask.currentDir.fill 0 64 0 } := by rw [hs₁, setProc_self]
  have hparent : ∀ k, (s₁.taskTable k).parent ≠ some s.current := by
    intro k
    by_cases hk : k = s.current
    · rw [hk, hslot]
      exact hno s.current
    · rw [hs₁, setProc_of_ne hk]
      exact hno k
  have hadopted : (fun i => if i < ntask ∧ (s₁.taskTable i).parent = some s.current then
      { s₁.taskTable i with parent := some initTask } else s₁.taskTable i) = s₁.taskTable := by
    funext i
    exact if_neg fun hc => hparent i hc.2
  rw [exit, get_bind, if_neg hme]
  dsimp only
  rw [bind_of_ok (closeFiles_of_none hfiles), modifyProc, modify_bind]
  refine (bind_of_ok (show _ = Except.ok ((), s₁) from ?_)).trans ?_
  · subst hs₁
    exact congrArg (fun table => Except.ok ((), { (_ : System) with taskTable := table })) hadopted
  · rw [bind_of_ok (closeVmas_of_none fun k => by rw [hslot]; exact hvmas k), modifyProc, modify_bind,
      wakeup_none, hslot, hs₁, setProc, setProc, setProc, Function.update_idem]


/-- `freeTask` returns when the trapframe and the table can be freed. -/
theorem freeTask_of_free (child : ℕ) {ram ram' : MemAllocator}
    (hframe : (s.taskTable child).trapframe ≠ 0)
    (hroot : (s.taskTable child).task.pagetable ≠ 0)
    (hfree : s.ram.free (s.taskTable child).trapframe = .ok ram)
    (htable : ram.freeTaskPagetable (s.taskTable child).task.pagetable
      (toU64 (s.taskTable child).task.sz) = .ok ram') :
    ∃ s', freeTask child s = .ok ((), s') := by
  apply Exists.intro
  rw [freeTask, get_bind]
  dsimp only
  have hframed : onRam (fun ram => do return ((), ← ram.free (s.taskTable child).trapframe)) s =
      .ok ((), { s with ram := ram }) := onRam_of_ok (by rw [hfree]; rfl)
  have hfreed : onRam (fun ram => do
        return ((), ← ram.freeTaskPagetable (s.taskTable child).task.pagetable
          (toU64 (s.taskTable child).task.sz))) { s with ram := ram } =
      .ok ((), { s with ram := ram' }) := onRam_of_ok (by dsimp only; rw [htable]; rfl)
  rw [if_pos hframe, bind_of_ok hframed, if_pos hroot, bind_of_ok hfreed]
  rfl

def lone : System :=
  let s := bootSystem ((List.range 5).map fun i => 0x80301000 + 4096 * i)
  s.setProc initTask { s.taskTable initTask with
    cwd := some 1
    task := ⟨0x80300000, fun _ => none, fun _ => none, 0⟩ }

theorem lone_wellFormed : lone.ram.WellFormed := by
  have hpages : ∀ p ∈ lone.ram.freeList, p % pgSize = 0 ∧ lone.ram.kend ≤ p ∧ p < physTop := by
    decide
  exact ⟨by decide, by decide, fun p hp => ⟨(hpages p hp).1, (hpages p hp).2.1, (hpages p hp).2.2⟩⟩

theorem lone_ready : lone.Ready where
  wf := lone_wellFormed
  trampoline := by decide
  space := by
    refine (MemAllocator.Space.of_zero ⟨by decide, by decide, by decide⟩ (by decide) fun i => ?_).1
    have hzero : lone.ram.pteAt (MemAllocator.pteAddr (lone.root lone.current) i) = 0 :=
      ByteMem.readLE_eq_zero fun _ _ _ => rfl
    rw [hzero]
    rfl
  aligned := nofun
  mapped := nofun

theorem lone_slot (i : ℕ) : (lone.taskTable i).state = (if i = initTask then .running else .unused) ∧
    (lone.taskTable i).parent = none ∧ (lone.taskTable i).killed = false ∧
      (lone.taskTable i).xstate = 0 := by
  by_cases hi : i = initTask
  · subst hi
    exact ⟨rfl, rfl, rfl, rfl⟩
  · rw [lone, setProc_of_ne hi]
    exact ⟨rfl, rfl, rfl, rfl⟩

theorem lone_initial : lone.Initial where
  init := ProcState.live_running
  unused i hi := (lone_slot i).1.trans (if_neg hi)
  parent i := (lone_slot i).2.1
  xstate i := (lone_slot i).2.2.2
  killed i := (lone_slot i).2.2.1

theorem fork_lone : ∃ s', fork lone = .ok (2, s') := by
  have hret : (match fork lone with
      | .ok (r, _) => decide (r = 2)
      | .error _ => false) = true := by decide +kernel
  split at hret
  · rename_i r s' h
    exact ⟨s', by rw [h, of_decide_eq_true hret]⟩
  · cases hret

def withChild (ram : MemAllocator) (root : ℕ) : System :=
  let s := lone.setProc initTask { lone.taskTable initTask with state := .runnable }
  { s.setProc 2 { s.taskTable 2 with
      state := .running
      parent := some initTask
      trapframe := 0x80301000
      task := ⟨root, fun _ => none, fun _ => none, 0⟩ } with
    ram := ram
    current := 2 }

variable {ram : MemAllocator} {root : ℕ}

theorem withChild_of_ne {i : ℕ} (h₁ : i ≠ initTask) (h₂ : i ≠ 2) :
    (withChild ram root).taskTable i = lone.taskTable i := by
  rw [withChild]
  dsimp only
  rw [setProc_of_ne h₂, setProc_of_ne h₁]

theorem elsewhere_withChild (ram : MemAllocator) (root : ℕ) (h : fork lone = .ok (2, s')) :
    s'.Elsewhere (withChild ram root) := by
  obtain ⟨-, -, -, hothers, hchild, -⟩ := fork_spec (show lone.myTask.state = .running by decide)
    (show fork lone = .ok (((2 : ℕ) : ℤ), s') from h)
  have hcases : ∀ i, i = initTask ∨ i = 2 ∨ i ≠ initTask ∧ i ≠ 2 := by omega
  have hinit := hothers initTask (by decide)
  refine ⟨fun i => ?_, fun i => ?_, fun i => ?_, fun i => ?_⟩ <;>
    rcases hcases i with rfl | rfl | ⟨h₁, h₂⟩
  · rw [hinit]
    rfl
  · exact hchild.parent.symm
  · rw [withChild_of_ne h₁ h₂, hothers i h₂]
  · rw [hinit]
    rfl
  · exact hchild.xstate.symm
  · rw [withChild_of_ne h₁ h₂, hothers i h₂]
  · right
    rw [Live, Live, hinit]
    exact ⟨ProcState.live_running, ProcState.live_runnable⟩
  · right
    rw [Live, Live, hchild.state]
    exact ⟨ProcState.live_runnable, ProcState.live_running⟩
  · left
    rw [withChild_of_ne h₁ h₂, hothers i h₂]
  · left
    rw [hinit]
    rfl
  · left
    rw [hchild.killed]
    rfl
  · left
    rw [withChild_of_ne h₁ h₂, hothers i h₂]


theorem elsewhere_setProc {i : ℕ} {p : Proc} (hparent : p.parent = (s.taskTable i).parent)
    (hxstate : p.xstate = (s.taskTable i).xstate)
    (hstate : p.state = (s.taskTable i).state ∨ s.Live i ∧ p.state.Live)
    (hkilled : p.killed = (s.taskTable i).killed ∨ s.Live i) : s.Elsewhere (s.setProc i p) := by
  have hcases : ∀ j, j = i ∧ (s.setProc i p).taskTable j = p ∨
      (s.setProc i p).taskTable j = s.taskTable j := by
    intro j
    by_cases hj : j = i
    · left
      exact ⟨hj, by rw [hj, setProc_self]⟩
    · right
      exact setProc_of_ne hj
  refine ⟨fun j => ?_, fun j => ?_, fun j => ?_, fun j => ?_⟩ <;>
    rcases hcases j with ⟨rfl, he⟩ | he
  · rw [he, hparent]
  · rw [he]
  · rw [he, hxstate]
  · rw [he]
  · rw [Live, Live, he]
    exact hstate
  · rw [he]
    exact .inl rfl
  · rw [he]
    exact hkilled
  · rw [he]
    exact .inl rfl

def withZombie (ram : MemAllocator) (root : ℕ) : System :=
  let s := withChild ram root
  s.setProc s.current
    { s.myTask with currentDir := s.myTask.currentDir.fill 0 64 0, state := .zombie, xstate := 0 }

theorem exit_withChild :
    exit (fun _ => false) (withChild ram root) = .ok ((), withZombie ram root) := by
  have hme : (withChild ram root).current = 2 := rfl
  refine exit_of_none (by rw [hme]; decide) (fun fd => rfl) (fun k => rfl) fun k => ?_
  rw [hme]
  by_cases h₂ : k = 2
  · subst h₂
    exact nofun
  · by_cases h₁ : k = initTask
    · subst h₁
      exact nofun
    · rw [withChild_of_ne h₁ h₂, (lone_slot k).2.1]
      exact nofun

def waiting (ram : MemAllocator) (root : ℕ) : System :=
  let s := withZombie ram root
  { s.setProc initTask { s.taskTable initTask with state := .running } with current := initTask }

theorem elsewhere_waiting : (withZombie ram root).Elsewhere (waiting ram root) := by
  obtain ⟨hparent, hxstate, hstate, hkilled⟩ := elsewhere_setProc (s := withZombie ram root)
    (i := initTask) (p := { (withZombie ram root).taskTable initTask with state := .running }) rfl rfl
    (.inr ⟨ProcState.live_runnable, ProcState.live_running⟩) (.inl rfl)
  exact ⟨hparent, hxstate, hstate, hkilled⟩

theorem waiting_of_ne {i : ℕ} (h₁ : i ≠ initTask) (h₂ : i ≠ 2) :
    (waiting ram root).taskTable i = lone.taskTable i := by
  rw [waiting]
  dsimp only
  rw [setProc_of_ne h₁, withZombie]
  exact (setProc_of_ne h₂).trans (withChild_of_ne h₁ h₂)

/-- The first process waits for it, and no slot is different from what it was before. -/
theorem wait_waiting {ram' ram'' : MemAllocator} (hroot : root ≠ 0)
    (hfree : ram.free 0x80301000 = .ok ram') (htable : ram'.freeTaskPagetable root 0 = .ok ram'') :
    ∃ s, (SlotCall.wait4 2 0).run (waiting ram root) = .ok ((), s) ∧ s.Elsewhere lone := by
  obtain ⟨s, hs⟩ := freeTask_of_free (s := (waiting ram root).setProc 2
    { (waiting ram root).taskTable 2 with xstate := toInt32 (0 * 256) }) 2
    (show (0x80301000 : ℕ) ≠ 0 by decide) hroot hfree htable
  refine ⟨s, ?_, ?_⟩
  · have hreap : reap 2 0 ((waiting ram root).setProc 2
        { (waiting ram root).taskTable 2 with xstate := toInt32 (0 * 256) }) = .ok (2, s) := by
      rw [reap, get_bind]
      dsimp only
      rw [if_neg (by decide), pure_bind, if_neg (by decide), bind_of_ok hs]
      rfl
    refine bind_of_ok (a := some 2) ?_
    rw [wait4, if_neg (by decide), if_neg (by decide)]
    dsimp only
    rw [get_bind, if_neg (fun h => h rfl), modifyProc, modify_bind, if_pos (by rfl)]
    exact bind_of_ok hreap
  · obtain ⟨s₁, ha, rfl⟩ := freeTask_eq_ok slotView hs
    have hview : ∀ i, slotView ((s₁.setProc 2 (freed (s₁.taskTable 2))).taskTable i) =
        slotView (lone.taskTable i) := by
      intro i
      by_cases h₂ : i = 2
      · subst h₂
        rw [setProc_self]
        rfl
      · rw [setProc_of_ne h₂]
        refine (ha.slots i).trans ?_
        rw [setProc_of_ne h₂]
        by_cases h₁ : i = initTask
        · subst h₁
          rfl
        · rw [waiting_of_ne h₁ h₂]
    have hinj := fun i => slotView_inj.mp (hview i).symm
    exact ⟨fun i => (hinj i).2.1, fun i => (hinj i).2.2.2, fun i => .inl (hinj i).1,
      fun i => .inl (hinj i).2.2.1⟩

theorem exists_table : ∃ (ram : MemAllocator) (root : ℕ) (ram' ram'' : MemAllocator),
    root ≠ 0 ∧ ram.free 0x80301000 = .ok ram' ∧
    ram'.freeTaskPagetable root 0 = .ok ram'' := by
  have hw := lone_wellFormed
  obtain ⟨ram, halloc, ht⟩ : ∃ ram, lone.ram.alloc = (0x80301000, ram) ∧
      MemAllocator.Taken lone.ram ram 0x80301000 := by
    rcases MemAllocator.alloc_cases hw with ⟨hnil, -⟩ | ⟨p, ram, halloc, -, ht⟩
    · cases hnil
    · have hp : 0x80301000 = p := congrArg Prod.fst halloc
      exact ⟨ram, by rw [halloc, hp], by rwa [hp]⟩
  have hlen : ram.freeList.length = 4 := by
    have := congrArg List.length ht.freeList
    exact Nat.succ.inj this.symm
  have hlt : lone.trampoline < 2 ^ 64 := by decide
  have hframe : 0x80301000 < 2 ^ 64 := by decide
  rcases MemAllocator.taskPagetable_spec
    (ht.wellFormed hw) hlt hframe with ⟨hlt, -⟩ | ⟨root, r, -, hroot, hnew⟩
  · omega
  · have hpage : r.IsPage 0x80301000 := (ht.isPage hw).of_kend (hnew.moves.kend.trans ht.kend)
    have hfree : ∀ p, p ∈ r.footprint root ∨ p ∈ r.freeList → p ≠ 0x80301000 := by
      rintro p hp rfl
      exact ht.notMem hw ((hnew.moves.frames _ hp).resolve_left (Set.notMem_empty _))
    obtain ⟨r', he, hm⟩ := hpage.free_moves hnew.moves.wf fun hf => hfree _ (.inr hf) rfl
    obtain ⟨hs, -, hleaf, -⟩ := hm.frame (by rintro q rfl; exact hpage) hnew.moves.wf hnew.space
      fun p hp => hfree p (.inl hp)
    rcases hs.freeTaskPagetable hm.wf 0 with ⟨-, r'', he', -⟩ | ⟨⟨va, hva, hne, -⟩, -⟩ | ⟨hlt, -⟩
    · exact ⟨r, root, r', r'', hroot, he, he'⟩
    · rw [MemAllocator.userFrame_congr (hleaf va)] at hne
      exact absurd (hnew.user va hva) hne
    · exact absurd hlt (by decide)

theorem history_lone : History ⟨lone, 1, Function.update (fun _ => 0) 2 1, fun _ => 0⟩
    [(2, true)] := by
  obtain ⟨s₁, hfork⟩ := fork_lone
  obtain ⟨ram, root, ram', ram'', hroot, hfree, htable⟩ := exists_table
  obtain ⟨s₂, hwait, hlone⟩ := wait_waiting hroot hfree htable
  have h₁ : History ⟨s₁, 0, fun _ => 0, fun _ => 0⟩ [] :=
    .call (.boot lone lone_initial) .fork rfl (bind_of_ok hfork)
  have h₂ := h₁.elsewhere (elsewhere_withChild ram root hfork)
  have htick : handleIntr (some 2) true (fun _ => false)
      ⟨withChild ram root, 0, fun _ => 0, fun _ => 0⟩ =
      .ok ((), ⟨withChild ram root, 1, Function.update (fun _ => 0) 2 1, fun _ => 0⟩) := by
    have hone : toInt32 (0 + 1) = 1 := by decide
    rw [handleIntr, modify_bind, get_bind]
    dsimp only
    rw [hone, if_neg (by decide)]
    have hwoken : onSystem (wakeup fun _ => false) ⟨withChild ram root, 1, fun _ => 0, fun _ => 0⟩ =
        .ok ((), ⟨withChild ram root, 1, fun _ => 0, fun _ => 0⟩) := by
      rw [onSystem, get_bind, wakeup_none]
      rfl
    rw [bind_of_ok hwoken, ← hone]
    rfl
  have h₃ := h₂.tick true (fun _ => false) rfl htick
  have h₄ := h₃.call (.exit fun _ => false) rfl exit_withChild
  have h₅ := (h₄.elsewhere elsewhere_waiting).call (.wait4 2 0) rfl hwait
  exact h₅.elsewhere hlone

end System

/-- Two children of the same parent in the same slot see the same exactly when the timer has charged
the same to the slot. -/
theorem fork_view_eq_iff {t₁ t₂ : Timed} {log₁ log₂ : List (ℕ × Bool)} {child : ℕ} {s₁ s₂ : System}
    (h₁ : History t₁ log₁) (h₂ : History t₂ log₂) (hrun₁ : t₁.sys.myTask.state = .running)
    (hrun₂ : t₂.sys.myTask.state = .running) (hs₁ : t₁.sys.Ready) (hs₂ : t₂.sys.Ready)
    (hsame : t₁.sys.inherited t₁.sys.current = t₂.sys.inherited t₂.sys.current)
    (hf₁ : fork t₁.sys = .ok ((child : ℤ), s₁)) (hf₂ : fork t₂.sys = .ok ((child : ℤ), s₂)) :
    ({ t₁ with sys := s₁ } : Timed).view child = ({ t₂ with sys := s₂ } : Timed).view child ↔
      ∀ user, log₁.count (child, user) = log₂.count (child, user) := by
  rw [h₁.view_child hrun₁ hf₁, h₂.view_child hrun₂ hf₂,
    System.fork_inherited hrun₁ hrun₂ hs₁ hs₂ hsame hf₁ hf₂]
  constructor
  · intro he
    obtain ⟨htimes, -⟩ := View.mk.inj he
    obtain ⟨huser, hkernel, -⟩ := Tms.mk.inj htimes
    rintro (_ | _)
    · exact_mod_cast hkernel
    · exact_mod_cast huser
  · intro hcount
    rw [hcount true, hcount false]

theorem fork_view_eq_iff_lone : ∃ s, fork System.lone = .ok (2, s) ∧
    ((⟨s, 0, fun _ => 0, fun _ => 0⟩ : Timed).view 2 =
        (⟨s, 1, Function.update (fun _ => 0) 2 1, fun _ => 0⟩ : Timed).view 2 ↔
      ∀ user, ([] : List (ℕ × Bool)).count (2, user) = [(2, true)].count (2, user)) := by
  obtain ⟨s, hs⟩ := System.fork_lone
  exact ⟨s, hs, fork_view_eq_iff (.boot System.lone System.lone_initial) System.history_lone rfl rfl
    System.lone_ready System.lone_ready rfl hs hs⟩

/-- The child has the ticks of the process that had its slot before. -/
theorem recycled_slot_keeps_ticks : ¬∀ (t₁ t₂ : Timed) (log₁ log₂ : List (ℕ × Bool)) (child : ℕ)
    (s₁ s₂ : System), History t₁ log₁ → History t₂ log₂ → t₁.sys.myTask.state = .running →
      t₂.sys.myTask.state = .running → t₁.sys.Ready → t₂.sys.Ready →
      t₁.sys.inherited t₁.sys.current = t₂.sys.inherited t₂.sys.current →
      fork t₁.sys = .ok ((child : ℤ), s₁) → fork t₂.sys = .ok ((child : ℤ), s₂) →
      ({ t₁ with sys := s₁ } : Timed).view child = ({ t₂ with sys := s₂ } : Timed).view child := by
  intro hall
  obtain ⟨s, hs⟩ := System.fork_lone
  have h := hall _ _ _ _ 2 s s (.boot System.lone System.lone_initial) System.history_lone rfl rfl
    System.lone_ready System.lone_ready rfl hs hs
  have hticks : (0 : ℤ) = Function.update (fun _ => 0) 2 1 2 :=
    congrArg (fun v : View => v.times.utime) h
  rw [Function.update_self] at hticks
  exact absurd hticks (by decide)

end StartOS
