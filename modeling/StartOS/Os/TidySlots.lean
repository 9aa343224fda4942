import StartOS.Os.ForkChild
import StartOS.Os.ProcCalls

/-! # Slots that are not in use

What the calls that make, end and reap processes leave in a slot: a slot that is not
in use is not killed and nobody's parent, and the exit status is always 0.
-/

namespace StartOS

open Hoare

/-- `kill`. The signal is not looked at; a pid that is no index is a fault. -/
def kill (pid _sig : ℤ) : OsM ℤ := do
  if pid < 0 ∨ pid ≥ ntask then throw .fault
  let p := (← get).taskTable pid.toNat
  if p.state = .zombie ∨ p.state = .unused then return -1
  modifyProc pid.toNat fun p => { p with killed := true }
  return 0

/-- The calls that store a parent or an exit status or clear `killed`, and `kill`. -/
inductive SlotCall
  | fork
  | clone (stack : ℕ) (flags : ℤ)
  | exit (onChan : ℕ → Bool)
  | wait (vaddr : ℕ)
  | wait4 (pid : ℤ) (vaddr : ℕ)
  | kill (pid sig : ℤ)

def SlotCall.run : SlotCall → OsM Unit
  | .fork => do let _ ← StartOS.fork
  | .clone stack flags => do let _ ← StartOS.clone stack flags
  | .exit onChan => StartOS.exit onChan
  | .wait vaddr => do let _ ← StartOS.wait vaddr
  | .wait4 pid vaddr => do let _ ← StartOS.wait4 pid vaddr
  | .kill pid sig => do let _ ← StartOS.kill pid sig

namespace System

variable {s s' s₀ : System} {c i j k : ℕ} {p : Proc}

/-- Anything else that happens: processes are scheduled, sleep and run, any memory and any file may
change, and a process that is in use may be marked as killed. -/
structure Elsewhere (s s' : System) : Prop where
  parent : ∀ i, (s'.taskTable i).parent = (s.taskTable i).parent
  xstate : ∀ i, (s'.taskTable i).xstate = (s.taskTable i).xstate
  state : ∀ i, (s'.taskTable i).state = (s.taskTable i).state ∨ s.Live i ∧ s'.Live i
  killed : ∀ i, (s'.taskTable i).killed = (s.taskTable i).killed ∨ s.Live i

/-- What the slots that are not in use have in common: nobody has killed them, they have no children,
and no exit status is ever but 0. -/
structure Tidy (s : System) : Prop where
  killed : ∀ i, (s.taskTable i).state = .unused → (s.taskTable i).killed = false
  xstate : ∀ i, (s.taskTable i).xstate = 0
  parent : ∀ k < ntask, ∀ j, (s.taskTable k).parent = some j → s.Live j
  init : s.Live initTask

def slotView (p : Proc) : ProcState × Option ℕ × Bool × ℤ := (p.state, p.parent, p.killed, p.xstate)

theorem blind_slotView : Blind slotView := fun _ _ _ _ => rfl

theorem slotView_inj {q : Proc} : slotView q = slotView p ↔
    q.state = p.state ∧ q.parent = p.parent ∧ q.killed = p.killed ∧ q.xstate = p.xstate := by
  rw [slotView, slotView, Prod.mk.injEq, Prod.mk.injEq, Prod.mk.injEq]

theorem Alike.live_iff (ha : Alike slotView s s') : s'.Live i ↔ s.Live i := by
  rw [Live, Live, (slotView_inj.mp (ha.slots i)).1]

theorem Tidy.alike (h : s.Tidy) (ha : Alike slotView s s') : s'.Tidy where
  killed i hi := by
    obtain ⟨hstate, -, hkilled, -⟩ := slotView_inj.mp (ha.slots i)
    rw [hkilled]
    exact h.killed i (hstate ▸ hi)
  xstate i := by rw [(slotView_inj.mp (ha.slots i)).2.2.2, h.xstate]
  parent k hk j hj := by
    rw [(slotView_inj.mp (ha.slots k)).2.1] at hj
    exact ha.live_iff.mpr (h.parent k hk j hj)
  init := ha.live_iff.mpr h.init

theorem live_setProc (hl : s.Live i → p.state.Live) (hj : s.Live j) : (s.setProc i p).Live j := by
  by_cases he : j = i
  · subst he
    rw [Live, setProc_self]
    exact hl hj
  · rwa [Live, setProc_of_ne he]

theorem Tidy.setProc (h : s.Tidy) (hx : p.xstate = 0) (hk : p.state = .unused → p.killed = false)
    (hp : ∀ j, p.parent = some j → s.Live j) (hl : s.Live i → p.state.Live) :
    (s.setProc i p).Tidy where
  killed j := by
    by_cases he : j = i
    · subst he
      rw [setProc_self]
      exact hk
    · rw [setProc_of_ne he]
      exact h.killed j
  xstate j := by
    by_cases he : j = i
    · subst he
      rw [setProc_self, hx]
    · rw [setProc_of_ne he, h.xstate]
  parent k hlt j hj := by
    refine live_setProc hl ?_
    by_cases he : k = i
    · subst he
      rw [setProc_self] at hj
      exact hp j hj
    · rw [setProc_of_ne he] at hj
      exact h.parent k hlt j hj
  init := live_setProc hl h.init

def TidyAt (c : ℕ) (s : System) : Prop := s.Tidy ∧ s.current = c ∧ s.Live c

theorem tidyAt_of_alike {α : Type} {m : OsM α} (h : ∀ s₀, Keeps (Alike slotView s₀) m) :
    Keeps (TidyAt c) m := by
  rintro s a s' ⟨ht, hc, hl⟩ hok
  have ha := h s .refl hok
  exact ⟨ht.alike ha, ha.current.trans hc, ha.live_iff.mpr hl⟩

/-- A slot gets another parent, which is in use, or begins to run. -/
theorem tidyAt_setProc (h : TidyAt c s) (hx : p.xstate = (s.taskTable i).xstate)
    (hk : p.killed = (s.taskTable i).killed)
    (hs : p.state = (s.taskTable i).state ∨ p.state = .runnable)
    (hp : p.parent = (s.taskTable i).parent ∨ p.parent = some c) (hi : i < ntask) :
    TidyAt c (s.setProc i p) := by
  obtain ⟨ht, hc, hl⟩ := h
  have hlive : s.Live i → p.state.Live := by
    intro hl
    rcases hs with hs | hs
    · rw [hs]
      exact hl
    · rw [hs]
      exact ProcState.live_runnable
  refine ⟨ht.setProc (hx.trans (ht.xstate i)) (fun hu => ?_) (fun j hj => ?_) hlive, hc,
    live_setProc hlive hl⟩
  · rcases hs with hs | hs
    · rw [hk]
      exact ht.killed i (hs ▸ hu)
    · rw [hs] at hu
      cases hu
  · rcases hp with hp | hp
    · exact ht.parent i hi j (hp ▸ hj)
    · rw [hp, Option.some.injEq] at hj
      exact hj ▸ hl

section Fork

variable {child parent : ℕ}

theorem tidyAt_copyRecord (hc : child < ntask) : Keeps (TidyAt c) (copyRecord child) := by
  intro s a s' hs h
  obtain ⟨-, hcur, -, htable, -⟩ := copyRecord_fills h
  have hset : TidyAt c (s.setProc child (recorded s.current s.myTask (s.taskTable child))) :=
    tidyAt_setProc hs rfl rfl (.inl rfl) (.inr (congrArg some hs.2.1)) hc
  have ha : Alike slotView (s.setProc child (recorded s.current s.myTask (s.taskTable child))) s' :=
    ⟨hcur, fun i => by rw [htable]; rfl⟩
  exact ⟨hset.1.alike ha, hcur.trans hs.2.1, ha.live_iff.mpr hset.2.2⟩

theorem tidyAt_nameChild (hc : child < ntask) : Keeps (TidyAt c) (nameChild child) := by
  intro s a s' hs h
  cases h
  exact tidyAt_setProc hs rfl rfl (.inr rfl) (.inl rfl) hc

theorem tidyAt_cloneRecord (hc : child < ntask) : Keeps (TidyAt c) (cloneRecord child) := by
  intro s a s' hs h
  rw [cloneRecord, get_bind] at h
  cases hcwd : s.myTask.cwd with
  | none =>
    simp only [hcwd] at h
    cases h
  | some ip =>
    simp only [hcwd] at h
    cases h
    refine tidyAt_setProc ?_ rfl rfl (.inl rfl) (.inr (congrArg some hs.2.1)) hc
    exact ⟨hs.1.alike ⟨rfl, fun _ => rfl⟩, hs.2.1, hs.2.2⟩

theorem alike_cloneVmas (is : List ℕ) : Keeps (Alike slotView s₀) (cloneVmas parent child is) := by
  induction is with
  | nil => exact .pure ()
  | cons i is ih =>
    refine Keeps.bind .get fun s => ?_
    cases (s.taskTable parent).task.vma i with
    | none => exact .bind (alike_modifyProc fun _ => rfl) fun _ => ih
    | some p =>
      exact .bind (alike_onMachine blind_slotView) fun _ =>
        .bind (alike_modify fun _ => ⟨rfl, fun _ => rfl⟩) fun _ => .bind (.throw _) fun _ => ih

/-- The two ways to make a process keep the invariant when what follows `allocTask` does. -/
theorem tidyAt_allocTask {rest : ℕ → OsM ℤ} (hrest : ∀ k < ntask, Keeps (TidyAt c) (rest k)) :
    Keeps (TidyAt c) (do
      match ← allocTask with
      | none => return -1
      | some k => rest k) := by
  intro s a s' hs h
  obtain ⟨v, s₁, halloc, h₁⟩ := bind_eq_ok.mp h
  have hs₁ : TidyAt c s₁ := tidyAt_of_alike (m := allocTask)
    (fun s₀ s v s' h₀ hok => h₀.trans (allocTask_alike blind_slotView hok).1) hs halloc
  cases v with
  | none =>
    cases h₁
    exact hs₁
  | some k =>
    obtain ⟨-, -, -, -, hslot, -⟩ := allocTask_eq_some halloc
    exact hrest k (freeTaskSlot_some hslot).1 hs₁ h₁

theorem tidyAt_fork : Keeps (TidyAt c) fork := by
  refine tidyAt_allocTask fun k hk => ?_
  refine .bind (tidyAt_of_alike fun _ => alike_copyMemory k) fun _ =>
    .bind (tidyAt_copyRecord hk) fun _ => .bind .get fun s => ?_
  refine .bind (tidyAt_of_alike fun _ => alike_dupFiles blind_slotView _ k _) fun _ =>
    .bind (tidyAt_of_alike fun _ => alike_dupVmas blind_slotView _ k _) fun _ =>
    .bind (tidyAt_nameChild hk) fun _ => .pure _

theorem tidyAt_clone {stack : ℕ} {flags : ℤ} : Keeps (TidyAt c) (clone stack flags) := by
  refine tidyAt_allocTask fun k hk => ?_
  refine .bind (tidyAt_of_alike fun _ => Keeps.bind .get fun _ => alike_onRam) fun _ =>
    .bind (tidyAt_cloneRecord hk) fun _ => .bind .get fun s => ?_
  refine .bind (tidyAt_of_alike fun _ => alike_dupFiles blind_slotView _ k _) fun _ =>
    .bind (tidyAt_of_alike fun _ => alike_cloneVmas _) fun _ =>
    .bind (tidyAt_of_alike fun _ => alike_modify fun _ => ⟨rfl, fun _ => rfl⟩) fun _ =>
    .bind (tidyAt_nameChild hk) fun _ => .pure _

end Fork

section Exit

variable {child vaddr : ℕ} {r : ℤ} {onChan : ℕ → Bool}

/-- Processes are scheduled, sleep and run, and some that are in use are killed. -/
theorem Tidy.elsewhere (h : s.Tidy) (he : s.Elsewhere s') : s'.Tidy := by
  have hlive : ∀ i, s.Live i → s'.Live i := by
    intro i hi
    rcases he.state i with hs | hs
    · rw [Live, hs]
      exact hi
    · exact hs.2
  refine ⟨fun i hi => ?_, fun i => (he.xstate i).trans (h.xstate i), fun k hk j hj => ?_,
    hlive _ h.init⟩
  · have hunused : (s.taskTable i).state = .unused := by
      rcases he.state i with hs | hs
      · rw [← hs, hi]
      · exact absurd hi hs.2.1
    rcases he.killed i with hk | hk
    · rw [hk]
      exact h.killed i hunused
    · exact absurd hunused hk.1
  · rw [he.parent] at hj
    exact hlive j (h.parent k hk j hj)

theorem elsewhere_wakeup (h : wakeup onChan s = .ok ((), s')) : s.Elsewhere s' := by
  cases h
  refine ⟨fun i => ?_, fun i => ?_, fun i => ?_, fun i => ?_⟩
  · dsimp only
    split <;> rfl
  · dsimp only
    split <;> rfl
  · by_cases hi : i < ntask ∧ (s.taskTable i).state = .sleeping ∧ onChan i
    · right
      refine ⟨⟨by rw [hi.2.1]; decide, by rw [hi.2.1]; decide⟩, ?_⟩
      simp only [Live, if_pos hi]
      decide
    · exact .inl (by simp only [if_neg hi])
  · left
    dsimp only
    split <;> rfl

/-- A process that has given its children away becomes a zombie. -/
theorem Tidy.bury (h : s.Tidy) (hi : i ≠ initTask)
    (hno : ∀ k < ntask, (s.taskTable k).parent ≠ some i) :
    (s.setProc i { s.taskTable i with state := .zombie, xstate := 0 }).Tidy := by
  have hlive : ∀ {j}, j ≠ i → s.Live j →
      (s.setProc i { s.taskTable i with state := .zombie, xstate := 0 }).Live j := by
    intro j hj hl
    rwa [Live, setProc_of_ne hj]
  refine ⟨fun j hj => ?_, fun j => ?_, fun k hk j hj => ?_, hlive hi.symm h.init⟩
  · by_cases he : j = i
    · subst he
      rw [setProc_self] at hj
      cases hj
    · rw [setProc_of_ne he] at hj ⊢
      exact h.killed j hj
  · by_cases he : j = i
    · subst he
      rw [setProc_self]
    · rw [setProc_of_ne he, h.xstate]
  · have hparent : (s.taskTable k).parent = some j := by
      by_cases he : k = i
      · subst he
        rwa [setProc_self] at hj
      · rwa [setProc_of_ne he] at hj
    exact hlive (fun he => hno k hk (he ▸ hparent)) (h.parent k hk j hparent)

theorem tidy_exit (hs : TidyAt c s) (h : exit onChan s = .ok ((), s')) : s'.Tidy := by
  rw [exit, get_bind] at h
  split at h
  · cases h
  rename_i hinit
  obtain ⟨⟨⟩, s₁, hclose, h₁⟩ := bind_eq_ok.mp h
  have hs₁ := tidyAt_of_alike (fun _ => alike_closeFiles blind_slotView _ _) hs hclose
  obtain ⟨⟨⟩, s₂, hdir, h₂⟩ := bind_eq_ok.mp h₁
  have hs₂ : TidyAt c s₂ := by
    cases hdir
    have ha : Alike slotView s₁ (s₁.setProc s.current { s₁.taskTable s.current with
        currentDir := (s₁.taskTable s.current).currentDir.fill 0 64 0 }) := .setProc rfl
    exact ⟨hs₁.1.alike ha, hs₁.2.1, ha.live_iff.mpr hs₁.2.2⟩
  obtain ⟨⟨⟩, s₃, hadopt, h₃⟩ := bind_eq_ok.mp h₂
  obtain ⟨⟨⟩, s₄, hvmas, h₄⟩ := bind_eq_ok.mp h₃
  obtain ⟨⟨⟩, s₅, hzombie, h₅⟩ := bind_eq_ok.mp h₄
  refine Tidy.elsewhere ?_ (elsewhere_wakeup h₅)
  have hs₃ : s₃.Tidy ∧ ∀ k < ntask, (s₃.taskTable k).parent ≠ some s.current := by
    cases hadopt
    obtain ⟨ht, -, -⟩ := hs₂
    have hlive : ∀ {j}, s₂.Live j → (if j < ntask ∧ (s₂.taskTable j).parent = some s.current then
        { s₂.taskTable j with parent := some initTask } else s₂.taskTable j).state.Live := by
      intro j hj
      split
      · exact hj
      · exact hj
    refine ⟨⟨fun i => ?_, fun i => ?_, fun k hk j hj => hlive ?_, hlive ht.init⟩, fun k hk hj => ?_⟩
    · dsimp only
      split
      · exact ht.killed i
      · exact ht.killed i
    · dsimp only
      split
      · exact ht.xstate i
      · exact ht.xstate i
    · dsimp only at hj
      split at hj
      · cases hj
        exact ht.init
      · exact ht.parent k hk j hj
    · dsimp only at hj
      split at hj
      · exact hinit (Option.some.inj hj).symm
      · rename_i hno
        exact hno ⟨hk, hj⟩
  have ha : Alike slotView s₃ s₄ := alike_closeVmas blind_slotView _ _ .refl hvmas
  cases hzombie
  refine (hs₃.1.alike ha).bury hinit fun k hk => ?_
  rw [(slotView_inj.mp (ha.slots k)).2.1]
  exact hs₃.2 k hk

theorem tidy_freeTask (hs : s.Tidy) (hz : ¬s.Live child) (h : freeTask child s = .ok ((), s')) :
    s'.Tidy := by
  obtain ⟨s₁, ha, rfl⟩ := freeTask_eq_ok slotView h
  refine (hs.alike ha).setProc rfl (fun _ => rfl) (fun j hj => ?_) fun hl => ?_
  · cases hj
  · exact absurd (ha.live_iff.mp hl) hz

theorem tidy_reap (hs : s.Tidy) (hz : (s.taskTable child).state = .zombie)
    (h : reap child vaddr s = .ok (r, s')) : s'.Tidy := by
  rcases reap_eq_ok slotView h with ⟨-, ha⟩ | ⟨-, s₁, ha, hfree⟩
  · exact hs.alike ha
  · exact tidy_freeTask (hs.alike ha) (fun hl => (ha.live_iff.mp hl).2 hz) hfree

theorem tidy_wait {r : Option ℤ} (hs : s.Tidy) (h : wait vaddr s = .ok (r, s')) : s'.Tidy := by
  rw [wait, get_bind] at h
  cases hfind : (List.range ntask).find? fun i => decide ((s.taskTable i).parent = some s.current ∧
      (s.taskTable i).state = .zombie) with
  | some child =>
    rw [hfind] at h
    obtain ⟨v, s₁, hreap, hret⟩ := bind_eq_ok.mp h
    cases hret
    have hz := List.find?_some hfind
    exact tidy_reap hs (of_decide_eq_true hz).2 hreap
  | none =>
    rw [hfind] at h
    dsimp only at h
    split at h
    · cases h
      exact hs
    · cases h
      exact hs

theorem tidy_wait4 {pid : ℤ} {r : Option ℤ} (hs : s.Tidy) (h : wait4 pid vaddr s = .ok (r, s')) :
    s'.Tidy := by
  rw [wait4] at h
  split at h
  · cases h
    exact hs
  split at h
  · cases h
  dsimp only at h
  rw [get_bind] at h
  split at h
  · cases h
    exact hs
  obtain ⟨⟨⟩, s₁, hset, h₁⟩ := bind_eq_ok.mp h
  have hs₁ : s₁.Tidy ∧ (s₁.taskTable pid.toNat).state = (s.taskTable pid.toNat).state := by
    cases hset
    refine ⟨hs.setProc ?_ (hs.killed _) (hs.parent _ (by omega)) fun hl => hl, ?_⟩
    · simp only [hs.xstate]
      rfl
    · rw [setProc_self]
  split at h₁
  · rename_i hz
    obtain ⟨v, s₂, hreap, hret⟩ := bind_eq_ok.mp h₁
    cases hret
    exact tidy_reap hs₁.1 (hs₁.2.trans hz) hreap
  · cases h₁
    exact hs₁.1

theorem tidy_kill {pid sig r : ℤ} (hs : s.Tidy) (h : kill pid sig s = .ok (r, s')) : s'.Tidy := by
  rw [kill] at h
  split at h
  · cases h
  dsimp only at h
  rw [get_bind] at h
  split at h
  · cases h
    exact hs
  · rename_i hin hlive
    obtain ⟨⟨⟩, s₁, hset, hret⟩ := bind_eq_ok.mp h
    cases hset
    cases hret
    refine hs.setProc (hs.xstate _) (fun hu => ?_) (hs.parent _ (by omega)) fun hl => hl
    exact absurd (Or.inr hu) hlive

end Exit

theorem tidy_call (hs : s.Tidy) (hrun : s.myTask.state = .running) (c : SlotCall)
    (h : c.run s = .ok ((), s')) : s'.Tidy := by
  have hat : TidyAt s.current s :=
    ⟨hs, rfl, by change s.myTask.state.Live; rw [hrun]; exact ProcState.live_running⟩
  cases c with
  | fork =>
    obtain ⟨r, s₁, hok, hret⟩ := bind_eq_ok.mp h
    cases hret
    exact (tidyAt_fork hat hok).1
  | clone stack flags =>
    obtain ⟨r, s₁, hok, hret⟩ := bind_eq_ok.mp h
    cases hret
    exact (tidyAt_clone hat hok).1
  | exit onChan => exact tidy_exit hat h
  | wait vaddr =>
    obtain ⟨r, s₁, hok, hret⟩ := bind_eq_ok.mp h
    cases hret
    exact tidy_wait hs hok
  | wait4 pid vaddr =>
    obtain ⟨r, s₁, hok, hret⟩ := bind_eq_ok.mp h
    cases hret
    exact tidy_wait4 hs hok
  | kill pid sig =>
    obtain ⟨r, s₁, hok, hret⟩ := bind_eq_ok.mp h
    cases hret
    exact tidy_kill hs hok

end System

end StartOS
