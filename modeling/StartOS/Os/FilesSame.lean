import StartOS.Os.CloseFiles
import StartOS.Os.ExecRun
import StartOS.Os.VmaPool

/-! # Calls about memory

`mmap`, `munmap`, `exec` and page faults store nothing in files, pipes and
descriptors, and no process changes its state. `exec` keeps the pool of mappings.
-/

namespace StartOS

open Hoare

namespace System

variable {s s' s'' s₀ : System} {c i ip p : ℕ} {extra : ℕ → ℕ}

/-- Files, descriptors, pipes and states are as they were. -/
structure FilesSame (s s' : System) : Prop extends Quiet s s' where
  pipes : s'.pipes = s.pipes
  trampoline : s'.trampoline = s.trampoline

namespace FilesSame

theorem refl : FilesSame s s := ⟨.refl, rfl, rfl⟩

theorem trans (h : FilesSame s s') (h' : FilesSame s' s'') : FilesSame s s'' :=
  ⟨h.toQuiet.trans h'.toQuiet, h'.pipes.trans h.pipes, h'.trampoline.trans h.trampoline⟩

theorem setProc (q : Proc) (hs : q.state = (s.taskTable i).state)
    (hf : q.task.openFiles = (s.taskTable i).task.openFiles) : FilesSame s (s.setProc i q) :=
  ⟨.setProc q hs hf, rfl, rfl⟩

theorem setMachine (m : Machine) (hf : m.task.openFiles = s.myTask.task.openFiles) :
    FilesSame s (s.setMachine m) := by
  have h : FilesSame s (s.setProc s.current { s.myTask with task := m.task }) := .setProc _ rfl hf
  exact ⟨⟨rfl, rfl, h.state, h.openFiles⟩, rfl, rfl⟩

theorem onRam {α : Type} {call : MemAllocator → Kernel (α × MemAllocator)} {a : α}
    (h : onRam call s = .ok (a, s')) : FilesSame s s' := by
  obtain ⟨-, hcall⟩ := onRam_sameTables h
  rw [onRam_of_ok hcall, Except.ok.injEq, Prod.mk.injEq] at h
  rw [← h.2]
  exact ⟨⟨rfl, rfl, fun _ => rfl, fun _ => rfl⟩, rfl, rfl⟩

theorem keeps_onRam {α : Type} (call : MemAllocator → Kernel (α × MemAllocator)) :
    Keeps (FilesSame s₀) (StartOS.onRam call) := fun _ _ _ hs h => hs.trans (.onRam h)

theorem keeps_modify {g : System → System} (hg : ∀ s, FilesSame s (g s)) :
    Keeps (FilesSame s₀) (modify g : OsM Unit) := .modify fun s h => h.trans (hg s)

theorem keeps_modifyProc {f : Proc → Proc} (hs : ∀ q, (f q).state = q.state)
    (hf : ∀ q, (f q).task.openFiles = q.task.openFiles) : Keeps (FilesSame s₀) (modifyProc i f) :=
  keeps_modify fun _ => .setProc _ (hs _) (hf _)

theorem keeps_inodeDup (ip : ℕ) : Keeps (FilesSame s₀) (inodeDup ip) :=
  .bind (keeps_modify fun _ => ⟨⟨rfl, rfl, fun _ => rfl, fun _ => rfl⟩, rfl, rfl⟩) fun _ => .pure _

theorem keeps_inodeFree (ip : ℕ) : Keeps (FilesSame s₀) (inodeFree ip) := by
  have hlast : Keeps (FilesSame s₀) (modify fun s => { s with
      iref := Function.update s.iref ip (s.iref ip - 1) } : OsM Unit) :=
    keeps_modify fun _ => ⟨⟨rfl, rfl, fun _ => rfl, fun _ => rfl⟩, rfl, rfl⟩
  refine Keeps.bind .get fun s => ?_
  dsimp only
  split
  · exact .bind (.throw _) fun _ => hlast
  · exact hlast

theorem keeps_vmaFree (p : ℕ) : Keeps (FilesSame s₀) (vmaFree p) := by
  have hlast : Keeps (FilesSame s₀) (modify fun s => { s with
      vmaTable := Function.update s.vmaTable p .zero } : OsM Unit) :=
    keeps_modify fun _ => ⟨⟨rfl, rfl, fun _ => rfl, fun _ => rfl⟩, rfl, rfl⟩
  refine Keeps.bind .get fun s => ?_
  cases (s.vmaTable p).ip with
  | none => exact hlast
  | some ip => exact .bind (keeps_inodeFree ip) fun _ => hlast

theorem keeps_freeProgVmas (me : ℕ) (is : List ℕ) :
    Keeps (FilesSame s₀) (freeProgVmas me is) := by
  induction is with
  | nil => exact .pure ()
  | cons i is ih =>
    refine Keeps.bind .get fun s => ?_
    cases (s.taskTable me).task.vma i with
    | none => exact ih
    | some p =>
      dsimp only
      split
      · exact .bind (keeps_vmaFree p) fun _ =>
          .bind (keeps_modifyProc (fun _ => rfl) fun _ => rfl) fun _ => ih
      · exact ih

theorem keeps_lazyLoadSeg (ip : ℕ) (ph : ProgHdr) : Keeps (FilesSame s₀) (lazyLoadSeg ip ph) := by
  rintro s ⟨⟩ s' hs h
  obtain ⟨p, i, -, -, rfl⟩ := lazyLoadSeg_ok h
  apply hs.trans
  have hslot : FilesSame s (s.setProc s.current { s.myTask with task := { s.myTask.task with
      vma := Function.update s.myTask.task.vma i (some p) } }) := .setProc _ rfl rfl
  exact ⟨⟨rfl, rfl, hslot.state, hslot.openFiles⟩, rfl, rfl⟩

theorem keeps_loadSegments (ip : ℕ) (content : List UInt8) (phoff n i sz : ℕ) :
    Keeps (FilesSame s₀) (loadSegments ip content phoff n i sz) := by
  induction n generalizing i sz with
  | zero => exact .pure _
  | succ n ih =>
    rw [loadSegments]
    cases readProgHdr content phoff i with
    | none => exact .pure _
    | some ph =>
      refine Keeps.ite (ih _ _) (.ite (.pure _) ?_)
      exact .bind (keeps_lazyLoadSeg ip ph) fun _ => ih _ _

theorem keeps_execBad (ip pagetable sz : ℕ) : Keeps (FilesSame s₀) (execBad ip pagetable sz) :=
  .bind (keeps_inodeFree ip) fun _ => .bind (keeps_onRam _) fun _ => .pure _

theorem keeps_execStart (ip pagetable sz sp : ℕ) (elf : ElfHdr) (path : List UInt8) :
    Keeps (FilesSame s₀) (execStart ip pagetable sz sp elf path) :=
  .bind .get fun _ => .bind .get fun _ =>
    .bind (keeps_modify fun _ => ⟨⟨rfl, rfl, fun _ => rfl, fun _ => rfl⟩, rfl, rfl⟩) fun _ =>
    .bind (keeps_modifyProc (fun _ => rfl) fun _ => rfl) fun _ =>
    .bind (keeps_onRam _) fun _ => .bind (keeps_inodeFree ip) fun _ => .pure _

theorem keeps_exec (found : Option ℕ) (path : List UInt8) (argv behind : ℕ → Option (List UInt8))
    (junk : ℕ → ℕ) : Keeps (FilesSame s₀) (exec found path argv behind junk) := by
  refine Keeps.bind .get fun s => ?_
  refine Keeps.bind (keeps_onRam _) fun pagetable => ?_
  refine Keeps.ite (.pure _) ?_
  cases found with
  | none => exact .pure _
  | some ip =>
    refine Keeps.bind (keeps_inodeDup ip) fun _ => ?_
    unfold execFile
    refine Keeps.bind .get fun s => ?_
    refine Keeps.ite (keeps_execBad ..) ?_
    refine Keeps.bind .get fun s => ?_
    refine Keeps.bind (keeps_freeProgVmas _ _) fun _ => ?_
    refine Keeps.ite (keeps_execBad ..) ?_
    refine Keeps.bind (keeps_loadSegments ..) fun ⟨fine, sz⟩ => ?_
    refine Keeps.ite (keeps_execBad ..) ?_
    refine Keeps.bind (keeps_onRam _) fun sz1 => ?_
    refine Keeps.ite (keeps_execBad ..) ?_
    exact .bind (keeps_onRam _) fun sp => keeps_execStart ..

theorem keeps_allocVma : Keeps (FilesSame s₀) (onMachine allocVma) := by
  intro s q s' hs h
  rwa [(onMachine_allocVma h).1]

theorem keeps_dupVmas (parent child : ℕ) (is : List ℕ) :
    Keeps (FilesSame s₀) (dupVmas parent child is) := by
  induction is with
  | nil => exact .pure ()
  | cons i is ih =>
    refine Keeps.bind .get fun s => ?_
    cases (s.taskTable parent).task.vma i with
    | none => exact .bind (keeps_modifyProc (fun _ => rfl) fun _ => rfl) fun _ => ih
    | some p =>
      refine Keeps.bind keeps_allocVma fun q => ?_
      refine Keeps.bind (keeps_modify fun _ => ⟨⟨rfl, rfl, fun _ => rfl, fun _ => rfl⟩, rfl, rfl⟩)
        fun _ => ?_
      have hset : Keeps (FilesSame s₀) (modifyProc child fun pr => { pr with task := { pr.task with
        vma := Function.update pr.task.vma i (some q) } }) := keeps_modifyProc (fun _ => rfl) fun _ => rfl
      have hlast := Keeps.bind hset fun _ => ih
      cases (s.vmaTable p).ip with
      | none => exact hlast
      | some ip => exact .bind (keeps_inodeDup ip) fun _ => hlast

theorem mapVma {length flags fd : ℤ} {prot a : ℕ} (hp : s.Pool extra)
    (h : onMachine (mapVma length prot flags fd) s = .ok (a, s')) : FilesSame s s' := by
  obtain ⟨m', hrun, rfl⟩ := onMachine_eq_ok.mp h
  obtain ⟨i, p, v, hm⟩ := Machine.mapVma_ok hp.mapped_used hrun
  have heq := hm.eq
  subst heq
  exact .setMachine _ rfl

theorem unmapVma {addr : ℕ} {z : ℤ} (h : onMachine (unmapVma addr) s = .ok (z, s')) :
    FilesSame s s' := by
  obtain ⟨m', hrun, rfl⟩ := onMachine_eq_ok.mp h
  rcases Machine.unmapVma_ok hrun with rfl | ⟨i, p, ram, -, -, rfl⟩
  · rw [setMachine_machine]
    exact .refl
  · exact .setMachine _ rfl

end FilesSame

section Pool

theorem Pool.inodeDup (h : s.Pool extra) {a : ℕ} (hok : inodeDup ip s = .ok (a, s')) :
    s'.Pool (Function.update extra ip (extra ip + 1)) := by
  cases hok
  refine ⟨h.inside, h.inj, h.closable, h.aligned, fun x => ?_⟩
  have hx : (s.inodeRefs x + extra x : ℤ) ≤ s.iref x := h.refs x
  change (s.inodeRefs x + (Function.update extra ip (extra ip + 1) x : ℕ) : ℤ) ≤
    Function.update s.iref ip (s.iref ip + 1) x
  by_cases hip : x = ip
  · subst hip
    rw [Function.update_self, Function.update_self]
    push_cast
    omega
  · rwa [Function.update_of_ne hip, Function.update_of_ne hip]

theorem Pool.inodeFree (h : s.Pool (Function.update extra ip (extra ip + 1)))
    (hok : inodeFree ip s = .ok ((), s')) : s'.Pool extra := by
  have hpos : 1 ≤ s.iref ip := by
    have := h.refs ip
    rw [Function.update_self] at this
    omega
  cases hok.symm.trans (inodeFree_of_pos hpos)
  refine ⟨h.inside, h.inj, h.closable, h.aligned, fun x => ?_⟩
  have hx := h.refs x
  change (s.inodeRefs x + extra x : ℤ) ≤ Function.update s.iref ip (s.iref ip - 1) x
  by_cases hip : x = ip
  · subst hip
    rw [Function.update_self] at hx ⊢
    push_cast at hx
    omega
  · rw [Function.update_of_ne hip] at hx ⊢
    exact hx

theorem Pool.execBad {pagetable sz : ℕ} {r : ℤ} (h : s.Pool (Function.update extra ip (extra ip + 1)))
    (hok : execBad ip pagetable sz s = .ok (r, s')) : s'.Pool extra := by
  obtain ⟨⟨⟩, s₁, hfree, h₁⟩ := bind_eq_ok.mp hok
  obtain ⟨⟨⟩, s₂, hram, h₂⟩ := bind_eq_ok.mp h₁
  cases h₂
  exact (h.inodeFree hfree).same (.onRam hram)

theorem Pool.execStart {pagetable sz sp : ℕ} {elf : ElfHdr} {path : List UInt8} {r : ℤ}
    (h : s.Pool (Function.update extra ip (extra ip + 1)))
    (hok : execStart ip pagetable sz sp elf path s = .ok (r, s')) : s'.Pool extra := by
  unfold StartOS.execStart at hok
  rw [get_bind, get_bind, modify_bind] at hok
  obtain ⟨⟨⟩, s₁, hset, h₁⟩ := bind_eq_ok.mp hok
  obtain ⟨⟨⟩, s₂, hram, h₂⟩ := bind_eq_ok.mp h₁
  obtain ⟨⟨⟩, s₃, hfree, h₃⟩ := bind_eq_ok.mp h₂
  cases h₃
  have hsame : SamePool s s₁ := by
    refine SamePool.trans ?_ (.modifyProc hset fun _ => rfl)
    exact ⟨rfl, rfl, rfl, rfl⟩
  exact ((h.same hsame).same (.onRam hram)).inodeFree hfree

theorem Pool.exec (h : s.Pool extra) (hc : s.current < ntask) {found : Option ℕ} {path : List UInt8}
    {argv behind : ℕ → Option (List UInt8)} {junk : ℕ → ℕ} {r : ℤ}
    (hfit : ∀ ip, found = some ip → SegmentsFit (s.contents ip))
    (hok : exec found path argv behind junk s = .ok (r, s')) : s'.Pool extra := by
  unfold StartOS.exec at hok
  rw [get_bind] at hok
  obtain ⟨pagetable, s₁, hpage, h₁⟩ := bind_eq_ok.mp hok
  have hp₁ : s₁.Pool extra := h.same (.onRam hpage)
  have hcur₁ : s₁.current = s.current := (FilesSame.onRam hpage).current
  have hcontents₁ : s₁.contents = s.contents := (onRam_sameSpaces hpage s.ram).contents
  split at h₁
  · cases h₁
    exact hp₁
  cases found with
  | none =>
    cases h₁
    exact hp₁
  | some ip =>
    obtain ⟨v, s₂, hdup, h₂⟩ := bind_eq_ok.mp h₁
    have hp₂ := hp₁.inodeDup hdup
    have hcur₂ : s₂.current = s.current :=
      (FilesSame.keeps_inodeDup ip .refl hdup).current.trans hcur₁
    have hcontents₂ : s₂.contents = s.contents :=
      (SameSpaces.keeps_inodeDup ip .refl hdup).contents.trans hcontents₁
    unfold execFile at h₂
    rw [get_bind] at h₂
    split at h₂
    · exact hp₂.execBad h₂
    rw [get_bind] at h₂
    obtain ⟨⟨⟩, s₃, hprog, h₃⟩ := bind_eq_ok.mp h₂
    obtain ⟨hp₃, hcur₃⟩ := Pool.freeProgVmas _ _ ⟨hp₂, hcur₂⟩ hprog
    split at h₃
    · exact hp₃.execBad h₃
    obtain ⟨⟨fine, sz⟩, s₄, hload, h₄⟩ := bind_eq_ok.mp h₃
    have hsegs := hfit ip rfl
    rw [← hcontents₂] at hsegs
    obtain ⟨hp₄, -⟩ := Pool.loadSegments hc _ 0 0
      (fun j _ hj => hsegs j (by omega)) ⟨hp₃, hcur₃⟩ hload
    dsimp only at h₄
    split at h₄
    · exact hp₄.execBad h₄
    obtain ⟨sz1, s₅, halloc, h₅⟩ := bind_eq_ok.mp h₄
    have hp₅ := hp₄.same (.onRam halloc)
    split at h₅
    · exact hp₅.execBad h₅
    obtain ⟨sp, s₆, hfill, h₆⟩ := bind_eq_ok.mp h₅
    exact (hp₅.same (.onRam hfill)).execStart h₆

theorem FilesOnly.samePool (h : FilesOnly s s') : SamePool s s' := by
  refine ⟨h.current, funext fun k => ?_, h.vmaTable, h.iref⟩
  unfold place
  exact congrFun (h.proc (π := fun q => q.task.vma) (fun _ _ => rfl) k.1) k.2

end Pool

end System

end StartOS
