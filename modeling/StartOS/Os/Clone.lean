import StartOS.Os.DescriptorRun

/-! # Clone

`clone` is `fork` written out a second time, for a child with a stack of its own.
It leaves out the pages of the mappings and the signals, and takes a further
reference to the file of a mapping where `fork` takes one to its inode.
-/

namespace StartOS

open Hoare

/-- The pages of the running process below its size are copied for `child`. -/
def cloneMemory (child : ℕ) : OsM Unit := do
  let s ← get
  let task := s.myTask.task
  let newPg := (s.taskTable child).task.pagetable
  onRam fun ram => do return ((), ← ram.userVmCopy task.pagetable newPg task.sz)

def cloneRecord (child : ℕ) : OsM Unit := do
  let s ← get
  let me := s.myTask
  match me.cwd with
  | none => throw .fault
  | some ip =>
    let _ ← inodeDup ip
    let tf := (s.taskTable child).trapframe
    modify fun s => { s with ram := { s.ram with
      mem := (s.ram.mem.blit tf 288 fun j => s.ram.mem (me.trapframe + j)).fill (tf + 112) 8 0 } }
    modifyProc child fun p => { p with
      parent := some s.current
      cwd := some ip
      task := { p.task with sz := me.task.sz } }

/-- The loop of `clone` over the mappings. `VfsManager::dup` gets the file of the mapping, which is
null. -/
def cloneVmas (parent child : ℕ) : List ℕ → OsM Unit
  | [] => return ()
  | i :: is => do
    let s ← get
    match (s.taskTable parent).task.vma i with
    | none => modifyProc child fun p => { p with task := { p.task with
        vma := Function.update p.task.vma i none } }
    | some p =>
      let q ← onMachine allocVma
      modify fun s => { s with vmaTable := Function.update s.vmaTable q (s.vmaTable p) }
      throw .fault
    cloneVmas parent child is

/-- `child->trapframe->sp = stack`. -/
def System.withSp (s : System) (child stack : ℕ) : System :=
  { s with ram := { s.ram with
    mem := s.ram.mem.writeLE ((s.taskTable child).trapframe + 48) 8 stack } }

/-- `clone`. The flags are not looked at. -/
def clone (stack : ℕ) (_flags : ℤ) : OsM ℤ := do
  match ← allocTask with
  | none => return -1
  | some child =>
    cloneMemory child
    cloneRecord child
    let me := (← get).current
    dupFiles me child (List.range nofile)
    cloneVmas me child (List.range nommapfile)
    modify fun s => s.withSp child stack
    nameChild child
    return child

def sysClone (flags : ℤ) (stack : ℕ) : OsM ℤ := if stack = 0 then fork else clone stack flags

namespace System

variable {s s' s₀ : System} {child parent i : ℕ} {sig : ByteMem} {is : List ℕ} {stack : ℕ} {flags : ℤ}

/-- Since `s₀` no slot but that of the child has changed, and its signals are `sig`. -/
structure ChildOnly (s₀ : System) (child : ℕ) (sig : ByteMem) (s : System) : Prop where
  current : s.current = s₀.current
  others : ∀ i, i ≠ child → s.taskTable i = s₀.taskTable i
  sigTable : (s.taskTable child).sigTable = sig

namespace ChildOnly

theorem congr (h : ChildOnly s₀ child sig s) (hc : s'.current = s.current)
    (ht : s'.taskTable = s.taskTable) : ChildOnly s₀ child sig s' :=
  ⟨hc.trans h.current, fun i hi => ht ▸ h.others i hi, ht ▸ h.sigTable⟩

theorem setProc {sig' : ByteMem} {p : Proc} (h : ChildOnly s₀ child sig s)
    (hp : p.sigTable = sig') : ChildOnly s₀ child sig' (s.setProc child p) :=
  ⟨h.current, fun i hi => (setProc_of_ne hi).trans (h.others i hi), by rw [setProc_self, hp]⟩

theorem modifyProc {f : Proc → Proc} (hf : ∀ p, (f p).sigTable = p.sigTable) :
    Keeps (ChildOnly s₀ child sig) (modifyProc child f) := by
  exact .modify fun s h => h.setProc ((hf _).trans h.sigTable)

theorem onRam {α : Type} {call : MemAllocator → Kernel (α × MemAllocator)} :
    Keeps (ChildOnly s₀ child sig) (onRam call) := by
  intro s a s' hs h
  rw [StartOS.onRam, get_bind] at h
  cases hc : call s.ram with
  | error e =>
    rw [hc] at h
    cases h
  | ok r =>
    rw [hc] at h
    cases h
    exact hs.congr rfl rfl

theorem inodeDup (ip : ℕ) : Keeps (ChildOnly s₀ child sig) (inodeDup ip) :=
  .bind (.modify fun _ h => h.congr rfl rfl) fun _ => .pure _

theorem fileDup (fp : ℕ) : Keeps (ChildOnly s₀ child sig) (fileDup fp) := by
  refine Keeps.bind .get fun s => ?_
  cases s.handles fp with
  | none => exact .throw _
  | some f =>
    dsimp only
    split
    · intro _ _ _ _ h
      cases h
    · exact .bind (.modify fun _ h => h.congr rfl rfl) fun _ => .pure _

theorem dupFiles (fds : List ℕ) : Keeps (ChildOnly s₀ child sig) (dupFiles parent child fds) := by
  induction fds with
  | nil => exact .pure ()
  | cons fd fds ih =>
    refine Keeps.bind .get fun s => ?_
    cases (s.taskTable parent).task.openFiles fd with
    | none => exact ih
    | some fp => exact .bind (fileDup fp) fun _ => .bind (modifyProc fun _ => rfl) fun _ => ih

theorem dupVmas : Keeps (ChildOnly s₀ child sig) (dupVmas parent child is) := by
  induction is with
  | nil => exact .pure ()
  | cons i is ih =>
    refine Keeps.bind .get fun s => ?_
    cases (s.taskTable parent).task.vma i with
    | none => exact .bind (modifyProc fun _ => rfl) fun _ => ih
    | some p =>
      have halloc : Keeps (ChildOnly s₀ child sig) (onMachine allocVma) := by
        intro s q s' hs h
        rw [(onMachine_allocVma h).1]
        exact hs
      refine .bind halloc fun q => .bind (.modify fun _ h => h.congr rfl rfl) fun _ => ?_
      cases (s.vmaTable p).ip with
      | none => exact .bind (modifyProc fun _ => rfl) fun _ => ih
      | some ip => exact .bind (inodeDup ip) fun _ => .bind (modifyProc fun _ => rfl) fun _ => ih

theorem nameChild : Keeps (ChildOnly s₀ child sig) (nameChild child) :=
  Keeps.bind .get fun _ => modifyProc fun _ => rfl

theorem copyMemory : Keeps (ChildOnly s₀ child sig) (copyMemory child) :=
    Keeps.bind .get fun _ => onRam

theorem cloneMemory : Keeps (ChildOnly s₀ child sig) (cloneMemory child) :=
  Keeps.bind .get fun _ => onRam

theorem cloneRecord : Keeps (ChildOnly s₀ child sig) (cloneRecord child) := by
  refine Keeps.bind .get fun s => ?_
  dsimp only
  split
  · exact .throw _
  · exact .bind (inodeDup _) fun _ => .bind (.modify fun _ h => h.congr rfl rfl) fun _ =>
      modifyProc fun _ => rfl

end ChildOnly

theorem allocTask_childOnly (h : allocTask s = .ok (some child, s')) :
    ChildOnly s child (fun _ => 0) s' ∧ (s.taskTable child).state = .unused := by
  rw [allocTask, get_bind] at h
  cases hi : s.freeTaskSlot with
  | none =>
    rw [hi] at h
    cases h
  | some i =>
    rw [hi] at h
    cases ha : s.ram.alloc with
    | mk a ram =>
      rw [ha] at h
      cases a with
      | zero => cases h
      | succ n =>
        obtain ⟨⟨⟩, s₀, hset, h₀⟩ := bind_eq_ok.mp h
        cases hset
        obtain ⟨pagetable, s₁, hpage, h₁⟩ := bind_eq_ok.mp h₀
        have hs₀ : ChildOnly s i (s.taskTable i).sigTable { s with ram := ram } :=
          ⟨rfl, fun _ _ => rfl, rfl⟩
        have hs₁ := ChildOnly.onRam hs₀ hpage
        cases h₁
        exact ⟨.setProc (by exact hs₁.congr rfl rfl) rfl, (freeTaskSlot_some hi).2⟩

/-- `allocTask` finds no slot or no frame for the trapframe. -/
def NoTask (s : System) : Prop := s.freeTaskSlot = none ∨ s.ram.alloc.1 = 0

theorem allocTask_eq_none_iff {r : Option ℕ} (h : allocTask s = .ok (r, s')) :
    r = none ↔ s.NoTask := by
  rw [allocTask, get_bind] at h
  cases hi : s.freeTaskSlot with
  | none =>
    rw [hi] at h
    cases h
    exact iff_of_true rfl (.inl hi)
  | some i =>
    rw [hi] at h
    cases ha : s.ram.alloc with
    | mk a ram =>
      rw [ha] at h
      cases a with
      | zero =>
        cases h
        exact iff_of_true rfl (.inr (by rw [ha]))
      | succ n =>
        obtain ⟨⟨⟩, s₀, hset, h₀⟩ := bind_eq_ok.mp h
        obtain ⟨pagetable, s₁, hpage, h₁⟩ := bind_eq_ok.mp h₀
        cases h₁
        simp [NoTask, hi, ha]

def Unmapped (s : System) (i : ℕ) : Prop := ∀ k < nommapfile, (s.taskTable i).task.vma k = none

theorem copyVmaMem_of_unmapped {ram : MemAllocator} {newPg : ℕ} (h : s.Unmapped i) :
    ram.copyVmaMem s.vmaTable (s.taskTable i).task newPg = .ok ram := by
  have hfold : ∀ l : List ℕ, (∀ k ∈ l, k < nommapfile) → l.foldlM (fun (ram : MemAllocator) k =>
      match (s.taskTable i).task.vma k with
      | none => (return ram : Kernel MemAllocator)
      | some p =>
        if (s.vmaTable p).addr < toU64 (s.taskTable i).task.sz then return ram
        else ram.copyUserMem (s.taskTable i).task.pagetable newPg (s.vmaTable p).addr
          (s.vmaTable p).length) ram = .ok ram := by
    intro l hl
    induction l with
    | nil => rfl
    | cons k l ih =>
      rw [List.foldlM_cons, h k (hl k List.mem_cons_self)]
      exact ih fun j hj => hl j (List.mem_cons_of_mem k hj)
  exact hfold _ fun k hk => List.mem_range.mp hk

theorem cloneMemory_eq (h : s.Unmapped s.current) : cloneMemory child s = copyMemory child s := by
  rw [cloneMemory, copyMemory, get_bind, get_bind]
  refine congrArg (fun call => onRam call s) (funext fun ram => ?_)
  cases ram.userVmCopy s.myTask.task.pagetable (s.taskTable child).task.pagetable
      s.myTask.task.sz with
  | error e => rfl
  | ok ram =>
    simp only [Kernel.ok_bind, myTask, copyVmaMem_of_unmapped h]

theorem cloneRecord_eq (h : (s.taskTable child).sigTable = s.myTask.sigTable) :
    cloneRecord child s = copyRecord child s := by
  rw [cloneRecord, copyRecord, get_bind, get_bind]
  cases s.myTask.cwd with
  | none => rfl
  | some ip =>
    change Except.ok ((), System.setProc _ child _) = Except.ok ((), System.setProc _ child _)
    rw [← h]

theorem cloneVmas_eq (hp : parent ≠ child) (h : ∀ k ∈ is, (s.taskTable parent).task.vma k = none) :
    cloneVmas parent child is s = dupVmas parent child is s := by
  induction is generalizing s with
  | nil => rfl
  | cons i is ih =>
    rw [cloneVmas, dupVmas, get_bind, get_bind, h i List.mem_cons_self]
    refine ih fun k hk => ?_
    rw [setProc_of_ne hp]
    exact h k (List.mem_cons_of_mem i hk)

theorem unmapped_of_cloneVmas (hp : parent ≠ child)
    (h : cloneVmas parent child is s = .ok ((), s')) :
    ∀ k ∈ is, (s.taskTable parent).task.vma k = none := by
  induction is generalizing s with
  | nil => exact fun k hk => absurd hk List.not_mem_nil
  | cons i is ih =>
    rw [cloneVmas, get_bind] at h
    cases hv : (s.taskTable parent).task.vma i with
    | some p =>
      rw [hv] at h
      obtain ⟨q, s₁, -, h₁⟩ := bind_eq_ok.mp h
      obtain ⟨⟨⟩, s₂, -, h₂⟩ := bind_eq_ok.mp h₁
      obtain ⟨_, s₃, hthrow, -⟩ := bind_eq_ok.mp h₂
      cases hthrow
    | none =>
      rw [hv] at h
      have hrest := ih h
      rw [setProc_of_ne hp] at hrest
      exact List.forall_mem_cons.mpr ⟨hv, hrest⟩

theorem nameChild_withSp (h : nameChild child s = .ok ((), s')) :
    nameChild child (s.withSp child stack) = .ok ((), s'.withSp child stack) := by
  cases h
  have htf : ((s.setProc child ((fun p : Proc => { p with
      currentDir := safestrcpy p.currentDir s.myTask.currentDir (strnlen s.myTask.currentDir 64 + 1)
      name := (copyName p.name s.myTask.name p.task.sz).1
      state := .runnable
      task := { p.task with sz := (copyName p.name s.myTask.name p.task.sz).2 } })
        (s.taskTable child))).taskTable child).trapframe = (s.taskTable child).trapframe := by
    rw [setProc_self]
  rw [withSp, withSp, htf]
  rfl

/-- Where `fork` has got a slot, its child has the signals of the process. -/
theorem fork_some (hrun : s.myTask.state = .running) {r : ℤ} {s₁ : System}
    (halloc : allocTask s = .ok (some child, s₁)) (h : fork s = .ok (r, s')) :
    r = child ∧ (s'.taskTable child).sigTable = s.myTask.sigTable := by
  obtain ⟨hs₁, hfree⟩ := allocTask_childOnly halloc
  have hne : s.current ≠ child := by
    intro he
    rw [← he] at hfree
    exact absurd (hrun.symm.trans hfree) (by decide)
  rw [fork, bind_of_ok halloc] at h
  obtain ⟨⟨⟩, s₂, hmem, h₂⟩ := bind_eq_ok.mp h
  have hs₂ := ChildOnly.copyMemory hs₁ hmem
  obtain ⟨⟨⟩, s₃, hrec, h₃⟩ := bind_eq_ok.mp h₂
  have hs₃ : ChildOnly s child s.myTask.sigTable s₃ := by
    have hme : s₂.myTask = s.myTask := by
      rw [myTask, hs₂.current, hs₂.others _ hne]
      rfl
    rw [copyRecord, get_bind] at hrec
    cases hcwd : s₂.myTask.cwd with
    | none =>
      simp only [hcwd] at hrec
      cases hrec
    | some ip =>
      simp only [hcwd] at hrec
      cases hrec
      rw [← hme]
      exact .setProc (by exact hs₂.congr rfl rfl) rfl
  rw [get_bind] at h₃
  obtain ⟨⟨⟩, s₄, hfiles, h₄⟩ := bind_eq_ok.mp h₃
  obtain ⟨⟨⟩, s₅, hvmas, h₅⟩ := bind_eq_ok.mp h₄
  obtain ⟨⟨⟩, s₆, hname, h₆⟩ := bind_eq_ok.mp h₅
  have hs₆ := ChildOnly.nameChild (ChildOnly.dupVmas (ChildOnly.dupFiles _ hs₃ hfiles) hvmas) hname
  cases h₆
  exact ⟨rfl, hs₆.sigTable⟩

/-- Where `clone` has got a slot and returns, the process has no mapping and the child no signals. -/
theorem clone_some (hrun : s.myTask.state = .running) {r : ℤ} {s₁ : System}
    (halloc : allocTask s = .ok (some child, s₁)) (h : clone stack flags s = .ok (r, s')) :
    s.Unmapped s.current ∧ (s'.taskTable child).sigTable = fun _ => 0 := by
  obtain ⟨hs₁, hfree⟩ := allocTask_childOnly halloc
  have hne : s.current ≠ child := by
    intro he
    rw [← he] at hfree
    exact absurd (hrun.symm.trans hfree) (by decide)
  rw [clone, bind_of_ok halloc] at h
  obtain ⟨⟨⟩, s₂, hmem, h₂⟩ := bind_eq_ok.mp h
  obtain ⟨⟨⟩, s₃, hrec, h₃⟩ := bind_eq_ok.mp h₂
  have hs₃ := ChildOnly.cloneRecord (ChildOnly.cloneMemory hs₁ hmem) hrec
  rw [get_bind, hs₃.current] at h₃
  obtain ⟨⟨⟩, s₄, hfiles, h₄⟩ := bind_eq_ok.mp h₃
  have hs₄ := ChildOnly.dupFiles _ hs₃ hfiles
  obtain ⟨⟨⟩, s₅, hvmas, h₅⟩ := bind_eq_ok.mp h₄
  have hnone : s.Unmapped s.current := by
    intro k hk
    rw [← hs₄.others _ hne]
    exact unmapped_of_cloneVmas hne hvmas k (List.mem_range.mpr hk)
  rw [cloneVmas_eq hne fun k hk => by rw [hs₄.others _ hne]; exact hnone k (List.mem_range.mp hk)]
    at hvmas
  have hs₅ := ChildOnly.dupVmas hs₄ hvmas
  rw [modify_bind] at h₅
  obtain ⟨⟨⟩, s₆, hname, h₆⟩ := bind_eq_ok.mp h₅
  have hs₆ := ChildOnly.nameChild (s := s₅.withSp child stack) (hs₅.congr rfl rfl) hname
  cases h₆
  exact ⟨hnone, hs₆.sigTable⟩

/-- Without mappings and signals `clone` does what `fork` does, and sets the stack pointer. -/
theorem clone_of_fork (hrun : s.myTask.state = .running) {r : ℤ} {s₁ : System}
    (halloc : allocTask s = .ok (some child, s₁)) (h : fork s = .ok (r, s'))
    (hnone : s.Unmapped s.current) (hsig : s.myTask.sigTable = fun _ => 0) :
    clone stack flags s = .ok (r, s'.withSp child stack) := by
  obtain ⟨hs₁, hfree⟩ := allocTask_childOnly halloc
  have hne : s.current ≠ child := by
    intro he
    rw [← he] at hfree
    exact absurd (hrun.symm.trans hfree) (by decide)
  have hunmapped : ∀ {sig t}, ChildOnly s child sig t → t.Unmapped s.current := by
    intro sig t ht k hk
    rw [ht.others _ hne]
    exact hnone k hk
  rw [fork, bind_of_ok halloc] at h
  rw [clone, bind_of_ok halloc]
  obtain ⟨⟨⟩, s₂, hmem, h₂⟩ := bind_eq_ok.mp h
  have hs₂ := ChildOnly.copyMemory hs₁ hmem
  rw [← cloneMemory_eq (hs₁.current ▸ hunmapped hs₁)] at hmem
  obtain ⟨⟨⟩, s₃, hrec, h₃⟩ := bind_eq_ok.mp h₂
  have hsig₂ : (s₂.taskTable child).sigTable = s₂.myTask.sigTable := by
    rw [hs₂.sigTable, myTask, hs₂.current, hs₂.others _ hne, ← hsig]
    rfl
  rw [← cloneRecord_eq hsig₂] at hrec
  have hs₃ := ChildOnly.cloneRecord hs₂ hrec
  rw [get_bind, hs₃.current] at h₃
  obtain ⟨⟨⟩, s₄, hfiles, h₄⟩ := bind_eq_ok.mp h₃
  have hs₄ := ChildOnly.dupFiles _ hs₃ hfiles
  obtain ⟨⟨⟩, s₅, hvmas, h₅⟩ := bind_eq_ok.mp h₄
  rw [← cloneVmas_eq hne fun k hk => hunmapped hs₄ k (List.mem_range.mp hk)] at hvmas
  obtain ⟨⟨⟩, s₆, hname, h₆⟩ := bind_eq_ok.mp h₅
  cases h₆
  dsimp only
  rw [bind_of_ok hmem, bind_of_ok hrec, get_bind, hs₃.current, bind_of_ok hfiles, bind_of_ok hvmas,
    modify_bind, bind_of_ok (nameChild_withSp hname)]
  rfl

/-- Where `fork` returns, `clone` leaves the same kernel but for the stack pointer of the child
exactly when there is no child, or the process has neither mappings nor signals. -/
theorem clone_eq_fork_iff (hrun : s.myTask.state = .running) {r : ℤ} (h : fork s = .ok (r, s'))
    (stack : ℕ) (flags : ℤ) :
    clone stack flags s = .ok (r, if r = -1 then s' else s'.withSp r.toNat stack) ↔
      s.NoTask ∨ s.Unmapped s.current ∧ s.myTask.sigTable = fun _ => 0 := by
  obtain ⟨v, s₁, halloc, hrest⟩ := bind_eq_ok.mp h
  cases v with
  | none =>
    cases hrest
    refine iff_of_true ?_ (.inl ((allocTask_eq_none_iff halloc).mp rfl))
    rw [clone, bind_of_ok halloc, if_pos rfl]
    rfl
  | some child =>
    obtain ⟨rfl, hsig⟩ := fork_some hrun halloc h
    have htask : ¬s.NoTask := fun hno => by cases (allocTask_eq_none_iff halloc).mpr hno
    rw [or_iff_right htask, if_neg (by omega), Int.toNat_natCast]
    constructor
    · intro hclone
      obtain ⟨hnone, hzero⟩ := clone_some hrun halloc hclone
      exact ⟨hnone, hsig.symm.trans hzero⟩
    · rintro ⟨hnone, hzero⟩
      exact clone_of_fork hrun halloc h hnone hzero

/-- A process whose slots of mappings are `vma`. -/
def parentOf (vma : ℕ → Option ℕ) : System :=
  let s := bootSystem ((List.range 5).map fun i => 0x80300000 + 4096 * i)
  { s.setProc initTask { s.taskTable initTask with
      cwd := some 1
      task := ⟨0, fun _ => none, vma, 0⟩ } with
    vmaTable := fun p => if p = 0 then ⟨maxVa - 4096 * 1024, .data, 0, 7, 0, none, 0⟩ else .zero }

theorem clone_eq_fork_unmapped : ∃ s', fork (parentOf fun _ => none) = .ok (2, s') ∧
    clone 8192 0 (parentOf fun _ => none) = .ok (2, s'.withSp 2 8192) := by
  have hret : (match fork (parentOf fun _ => none) with
      | .ok (r, _) => decide (r = 2)
      | .error _ => false) = true := by decide +kernel
  cases h : fork (parentOf fun _ => none) with
  | error e =>
    rw [h] at hret
    cases hret
  | ok q =>
    obtain ⟨r, s'⟩ := q
    rw [h] at hret
    obtain rfl : r = 2 := of_decide_eq_true hret
    exact ⟨s', rfl, (clone_eq_fork_iff (by decide) h 8192 0).mpr (.inr ⟨fun _ _ => rfl, rfl⟩)⟩

/-- With one mapping `fork` makes a child and `clone` reads through a null pointer. -/
theorem clone_faults :
    (∃ s', fork (parentOf fun k => if k = 0 then some 0 else none) = .ok (2, s')) ∧
      clone 8192 0 (parentOf fun k => if k = 0 then some 0 else none) = .error .fault := by
  constructor
  · have hret : (match fork (parentOf fun k => if k = 0 then some 0 else none) with
        | .ok (r, _) => decide (r = 2)
        | .error _ => false) = true := by decide +kernel
    split at hret
    · rename_i r s' h
      exact ⟨s', by rw [h, of_decide_eq_true hret]⟩
    · cases hret
  · have hret : (match clone 8192 0 (parentOf fun k => if k = 0 then some 0 else none) with
        | .ok _ => false
        | .error e => decide (e = .fault)) = true := by decide +kernel
    split at hret
    · cases hret
    · rename_i e h
      rw [h, of_decide_eq_true hret]

end System

end StartOS
