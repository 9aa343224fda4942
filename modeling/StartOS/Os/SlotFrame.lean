import StartOS.Os.Exec

/-! # What a call leaves alone in the task table

Most parts of a system call store fields of a slot that have to do with its
memory. A view of the slots that does not see those fields is the same before
and after.
-/

namespace StartOS

open Hoare

namespace System

variable {β : Type} {π : Proc → β} {s s' s'' s₀ : System} {i : ℕ}

structure Alike (π : Proc → β) (s s' : System) : Prop where
  current : s'.current = s.current
  slots : ∀ i, π (s'.taskTable i) = π (s.taskTable i)

def Blind (π : Proc → β) : Prop :=
  ∀ p task trapframe sigTable,
    π { p with task := task, trapframe := trapframe, sigTable := sigTable } = π p

theorem Blind.task (hπ : Blind π) (p : Proc) (t : Task) : π { p with task := t } = π p :=
  hπ p t p.trapframe p.sigTable

theorem Alike.refl : Alike π s s := ⟨rfl, fun _ => rfl⟩

theorem Alike.trans (h : Alike π s s') (h' : Alike π s' s'') : Alike π s s'' :=
  ⟨h'.current.trans h.current, fun i => (h'.slots i).trans (h.slots i)⟩

theorem Alike.setProc {p : Proc} (hp : π p = π (s.taskTable i)) : Alike π s (s.setProc i p) := by
  refine ⟨rfl, fun j => ?_⟩
  by_cases hj : j = i
  · subst hj
    rw [setProc_self, hp]
  · rw [setProc_of_ne hj]

theorem Alike.setMachine (hπ : Blind π) (m : Machine) : Alike π s (s.setMachine m) := by
  have h : Alike π s (s.setProc s.current { s.myTask with task := m.task }) :=
    .setProc (hπ.task _ _)
  exact ⟨rfl, h.slots⟩

theorem alike_modify {g : System → System} (hg : ∀ s, Alike π s (g s)) :
    Keeps (Alike π s₀) (modify g : OsM Unit) := .modify fun s h => h.trans (hg s)

theorem alike_modifyProc {f : Proc → Proc} (hf : ∀ p, π (f p) = π p) :
    Keeps (Alike π s₀) (modifyProc i f) := alike_modify fun _ => .setProc (hf _)

theorem alike_onRam {α : Type} {call : MemAllocator → Kernel (α × MemAllocator)} :
    Keeps (Alike π s₀) (onRam call) := by
  intro s a s' hs h
  rw [onRam, get_bind] at h
  cases hc : call s.ram with
  | error e =>
    rw [hc] at h
    cases h
  | ok r =>
    rw [hc] at h
    cases h
    exact hs.trans ⟨rfl, fun _ => rfl⟩

theorem alike_onMachine (hπ : Blind π) {α : Type} {call : SysM α} :
    Keeps (Alike π s₀) (onMachine call) := by
  intro s a s' hs h
  rw [onMachine, get_bind] at h
  cases hc : call s.machine with
  | error e =>
    rw [hc] at h
    cases h
  | ok r =>
    rw [hc] at h
    cases h
    exact hs.trans (.setMachine hπ _)

theorem alike_inodeDup (ip : ℕ) : Keeps (Alike π s₀) (inodeDup ip) :=
  .bind (alike_modify fun _ => ⟨rfl, fun _ => rfl⟩) fun _ => .pure _

theorem alike_inodeFree (ip : ℕ) : Keeps (Alike π s₀) (inodeFree ip) := by
  refine Keeps.bind .get fun s => ?_
  dsimp only
  split
  · exact .bind (.throw _) fun _ => alike_modify fun s => ⟨rfl, fun _ => rfl⟩
  · exact alike_modify fun s => ⟨rfl, fun _ => rfl⟩

theorem alike_pipeClose (p : ℕ) (b : Bool) : Keeps (Alike π s₀) (pipeClose p b) := by
  refine Keeps.bind .get fun s => ?_
  cases s.pipes p with
  | none => exact .throw _
  | some e => exact alike_modify fun s => ⟨rfl, fun _ => rfl⟩

theorem alike_closeEnds (f : FileHandle) : Keeps (Alike π s₀) (closeEnds f) := by
  have hread : Keeps (Alike π s₀) (if f.readable then pipeClose f.pipe false else pure ()) :=
    .ite (alike_pipeClose _ _) (.pure _)
  rw [closeEnds]
  dsimp only
  split
  · exact .bind (alike_pipeClose _ _) fun _ => hread
  · exact hread

theorem alike_vfsClose (fp : ℕ) : Keeps (Alike π s₀) (vfsClose fp) := by
  refine Keeps.bind .get fun s => ?_
  cases s.handles fp with
  | none => exact .throw _
  | some f =>
    dsimp only
    split
    · intro _ _ _ _ h
      cases h
    · split
      · exact alike_modify fun s => ⟨rfl, fun _ => rfl⟩
      · refine .bind (alike_modify fun s => ⟨rfl, fun _ => rfl⟩) fun _ => ?_
        exact .ite (alike_closeEnds f) (.pure _)

theorem alike_vmaFree (p : ℕ) : Keeps (Alike π s₀) (vmaFree p) := by
  refine Keeps.bind .get fun s => ?_
  cases (s.vmaTable p).ip with
  | none => exact alike_modify fun s => ⟨rfl, fun _ => rfl⟩
  | some ip => exact .bind (alike_inodeFree ip) fun _ => alike_modify fun s => ⟨rfl, fun _ => rfl⟩

theorem alike_fileDup (fp : ℕ) : Keeps (Alike π s₀) (fileDup fp) := by
  refine Keeps.bind .get fun s => ?_
  cases s.handles fp with
  | none => exact .throw _
  | some f =>
    dsimp only
    split
    · intro _ _ _ _ h
      cases h
    · exact .bind (alike_modify fun s => ⟨rfl, fun _ => rfl⟩) fun _ => .pure _

theorem alike_copyMemory (child : ℕ) : Keeps (Alike π s₀) (copyMemory child) :=
  Keeps.bind .get fun _ => alike_onRam

theorem alike_execBad (ip pagetable sz : ℕ) : Keeps (Alike π s₀) (execBad ip pagetable sz) :=
  .bind (alike_inodeFree ip) fun _ => .bind alike_onRam fun _ => .pure _

section Blind

variable (hπ : Blind π)

include hπ

theorem alike_closeFiles (me : ℕ) (fds : List ℕ) : Keeps (Alike π s₀) (closeFiles me fds) := by
  induction fds with
  | nil => exact .pure ()
  | cons fd fds ih =>
    refine Keeps.bind .get fun s => ?_
    cases (s.taskTable me).task.openFiles fd with
    | none => exact ih
    | some fp =>
      exact .bind (alike_vfsClose fp) fun _ =>
        .bind (alike_modifyProc fun _ => hπ.task _ _) fun _ => ih

theorem alike_closeVmas (me : ℕ) (is : List ℕ) : Keeps (Alike π s₀) (closeVmas me is) := by
  induction is with
  | nil => exact .pure ()
  | cons i is ih =>
    refine Keeps.bind .get fun s => ?_
    cases (s.taskTable me).task.vma i with
    | none => exact ih
    | some p =>
      dsimp only
      split
      · intro _ _ _ _ h
        cases h
      · exact .bind alike_onRam fun _ => .bind (alike_vmaFree p) fun _ =>
          .bind (alike_modifyProc fun _ => hπ.task _ _) fun _ => ih

theorem alike_dupFiles (parent child : ℕ) (fds : List ℕ) :
    Keeps (Alike π s₀) (dupFiles parent child fds) := by
  induction fds with
  | nil => exact .pure ()
  | cons fd fds ih =>
    refine Keeps.bind .get fun s => ?_
    cases (s.taskTable parent).task.openFiles fd with
    | none => exact ih
    | some fp =>
      exact .bind (alike_fileDup fp) fun _ =>
        .bind (alike_modifyProc fun _ => hπ.task _ _) fun _ => ih

theorem alike_dupVmas (parent child : ℕ) (is : List ℕ) :
    Keeps (Alike π s₀) (dupVmas parent child is) := by
  induction is with
  | nil => exact .pure ()
  | cons i is ih =>
    refine Keeps.bind .get fun s => ?_
    cases (s.taskTable parent).task.vma i with
    | none => exact .bind (alike_modifyProc fun _ => hπ.task _ _) fun _ => ih
    | some p =>
      refine .bind (alike_onMachine hπ) fun q =>
        .bind (alike_modify fun s => ⟨rfl, fun _ => rfl⟩) fun _ => ?_
      cases (s.vmaTable p).ip with
      | none => exact .bind (alike_modifyProc fun _ => hπ.task _ _) fun _ => ih
      | some ip =>
        exact .bind (alike_inodeDup ip) fun _ =>
          .bind (alike_modifyProc fun _ => hπ.task _ _) fun _ => ih

/-- A slot is found and keeps its record, or the table is full or there is no frame. -/
theorem allocTask_alike {r : Option ℕ} (h : allocTask s = .ok (r, s')) :
    Alike π s s' ∧ (r = s.freeTaskSlot ∨ r = none) := by
  rw [allocTask, get_bind] at h
  cases hi : s.freeTaskSlot with
  | none =>
    rw [hi] at h
    cases h
    exact ⟨.refl, .inr rfl⟩
  | some i =>
    rw [hi] at h
    cases ha : s.ram.alloc with
    | mk a ram =>
      rw [ha] at h
      cases a with
      | zero =>
        cases h
        exact ⟨.setProc (hπ _ (s.taskTable i).task 0 (s.taskTable i).sigTable), .inr rfl⟩
      | succ n =>
        obtain ⟨⟨⟩, s₁, hset, h₁⟩ := bind_eq_ok.mp h
        cases hset
        obtain ⟨pagetable, s₂, hpage, h₂⟩ := bind_eq_ok.mp h₁
        have hs₁ : Alike π s { s with ram := ram } := ⟨rfl, fun _ => rfl⟩
        have hs₂ : Alike π s s₂ := alike_onRam hs₁ hpage
        obtain ⟨⟨⟩, s₃, hfill, h₃⟩ := bind_eq_ok.mp h₂
        have hs₃ : Alike π s s₃ := by
          cases hfill
          exact hs₂.trans ⟨rfl, fun _ => rfl⟩
        obtain ⟨⟨⟩, s₄, hproc, h₄⟩ := bind_eq_ok.mp h₃
        have hs₄ : Alike π s s₄ := by
          cases hproc
          exact hs₃.trans (.setProc (hπ _ _ _ _))
        cases h₄
        exact ⟨hs₄, .inl rfl⟩

theorem alike_freeProgVmas (me : ℕ) (is : List ℕ) : Keeps (Alike π s₀) (freeProgVmas me is) := by
  induction is with
  | nil => exact .pure ()
  | cons i is ih =>
    refine Keeps.bind .get fun s => ?_
    cases (s.taskTable me).task.vma i with
    | none => exact ih
    | some p =>
      dsimp only
      split
      · exact .bind (alike_vmaFree p) fun _ =>
          .bind (alike_modifyProc fun _ => hπ.task _ _) fun _ => ih
      · exact ih

theorem alike_lazyLoadSeg (ip : ℕ) (ph : ProgHdr) : Keeps (Alike π s₀) (lazyLoadSeg ip ph) := by
  refine .bind (alike_onMachine hπ) fun p => .bind (alike_inodeDup ip) fun _ =>
    .bind (alike_modify fun s => ⟨rfl, fun _ => rfl⟩) fun _ => .bind .get fun s => ?_
  cases s.machine.freeSlot with
  | none => exact .throw _
  | some i => exact alike_onMachine hπ

theorem alike_loadSegments (ip : ℕ) (content : List UInt8) (phoff n i sz : ℕ) :
    Keeps (Alike π s₀) (loadSegments ip content phoff n i sz) := by
  induction n generalizing i sz with
  | zero => exact .pure _
  | succ n ih =>
    rw [loadSegments]
    cases readProgHdr content phoff i with
    | none => exact .pure _
    | some ph =>
      refine .ite (ih _ _) (.ite (.pure _) ?_)
      exact .bind (alike_lazyLoadSeg hπ ip ph) fun _ => ih _ _

theorem alike_exec (hname : ∀ p task name, π { p with task := task, name := name } = π p)
    (found : Option ℕ)
    (path : List UInt8) (argv behind : ℕ → Option (List UInt8)) (junk : ℕ → ℕ) :
    Keeps (Alike π s₀) (exec found path argv behind junk) := by
  have hstart : ∀ ip pagetable sz sp elf,
      Keeps (Alike π s₀) (execStart ip pagetable sz sp elf path) := by
    intro ip pagetable sz sp elf
    refine .bind .get fun s => .bind .get fun s => .bind (alike_modify fun s => ⟨rfl, fun _ => rfl⟩)
      fun _ => .bind (alike_modifyProc fun p => ?_) fun _ => .bind alike_onRam fun _ =>
      .bind (alike_inodeFree ip) fun _ => .pure _
    exact hname _ _ _
  refine Keeps.bind .get fun s => .bind alike_onRam fun pagetable => .ite (.pure _) ?_
  cases found with
  | none => exact .pure _
  | some ip =>
    refine .bind (alike_inodeDup ip) fun _ => .bind .get fun s => .ite (alike_execBad _ _ _) ?_
    refine .bind .get fun s => .bind (alike_freeProgVmas hπ _ _) fun _ =>
      .ite (alike_execBad _ _ _) (.bind (alike_loadSegments hπ _ _ _ _ _ _) fun r => ?_)
    refine .ite (alike_execBad _ _ _) (.bind alike_onRam fun sz1 => ?_)
    exact .ite (alike_execBad _ _ _) (.bind alike_onRam fun sp => hstart _ _ _ _ _)

end Blind

end System

end StartOS
