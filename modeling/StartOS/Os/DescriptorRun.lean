import StartOS.Os.FileRefs

/-! # Descriptors over whole runs

`fork` copies the descriptors of its caller to a slot that has none, `exit`
leaves a zombie without descriptors, and a reaped slot has none when it is
given out again. Any interleaving of the calls of any processes keeps the
counts, as long as no call takes one of the two branches that lose a reference.
-/

namespace StartOS

open Hoare Relation

namespace System

variable {s s' s'' : System} {t fp fd i : ℕ}

def Live (s : System) (i : ℕ) : Prop :=
  (s.taskTable i).state ≠ .unused ∧ (s.taskTable i).state ≠ .zombie

/-- The counts are right, the running process is one that can run, and a slot that is not in use
holds no file. -/
structure Sound (s : System) : Prop where
  current : s.current < ntask
  excess : ∀ fp, s.excess fp = 0
  idle : ∀ i < ntask, ¬s.Live i → ∀ fd < nofile, s.slot (i, fd) = none

/-- Files and descriptors are as they were, and the same slots are in use. -/
structure Calm (s s' : System) : Prop where
  handles : s'.handles = s.handles
  openFiles : ∀ i, (s'.taskTable i).task.openFiles = (s.taskTable i).task.openFiles
  live : ∀ i, s.Live i → s'.Live i

theorem Quiet.calm (h : Quiet s s') : Calm s s' := by
  refine ⟨h.handles, h.openFiles, fun i hi => ?_⟩
  unfold Live
  rw [h.state]
  exact hi

theorem Calm.excess (h : Calm s s') (fp : ℕ) : s'.excess fp = s.excess fp := by
  have hslot : s'.slot = s.slot := funext fun k => congrFun (h.openFiles k.1) k.2
  unfold System.excess refOf refs
  rw [h.handles, hslot]

theorem Sound.calm (h : s.Sound) (hs : Calm s s') (hc : s'.current < ntask) : s'.Sound where
  current := hc
  excess fp := (hs.excess fp).trans (h.excess fp)
  idle i hi hdead fd hfd := by
    change (s'.taskTable i).task.openFiles fd = none
    rw [hs.openFiles]
    exact h.idle i hi (fun hl => hdead (hs.live i hl)) fd hfd

theorem Sound.moved (h : s.Sound) (hlive : s.Live s.current) (hm : Moved s.current s s' 0) :
    s'.Sound where
  current := hm.current ▸ h.current
  excess fp := by rw [hm.excess, Pi.zero_apply, add_zero, h.excess]
  idle i hi hdead fd hfd := by
    have hdead' : ¬s.Live i := by
      unfold Live at hdead ⊢
      rwa [hm.state] at hdead
    have hne : i ≠ s.current := fun he => hdead' (he ▸ hlive)
    change (s'.taskTable i).task.openFiles fd = none
    rw [hm.other i hne]
    exact h.idle i hi hdead' fd hfd

theorem slot_setProc {p : Proc} : (s.setProc i p).slot (i, fd) = p.task.openFiles fd := by
  unfold slot
  rw [setProc_self]

theorem Moved.clear {p : Proc} (h : ∀ fd < nofile, s.slot (i, fd) = none)
    (hstate : p.state = (s.taskTable i).state) (hp : p.task.openFiles = fun _ => none) :
    Moved i s (s.setProc i p) 0 := by
  refine ⟨rfl, fun j => ?_, fun j hj => by rw [setProc_of_ne hj], fun fp => ?_⟩
  · by_cases hj : j = i
    · subst hj
      rw [setProc_self, hstate]
    · rw [setProc_of_ne hj]
  · have hslot : ∀ k ∈ descriptors, (s.setProc i p).slot k = s.slot k := by
      rintro ⟨j, fd⟩ hk
      by_cases hj : j = i
      · subst hj
        unfold descriptors at hk
        rw [Finset.mem_product, Finset.mem_range, Finset.mem_range] at hk
        rw [slot_setProc, hp, h fd hk.2]
      · unfold slot
        rw [setProc_of_ne hj]
    unfold System.excess refs
    rw [Slots.count_congr hslot, Pi.zero_apply, add_zero]
    rfl

section Fork

theorem freeTaskSlot_some (h : s.freeTaskSlot = some i) :
    i < ntask ∧ (s.taskTable i).state = .unused := by
  have hmem := List.mem_of_find?_eq_some h
  rw [List.mem_range'_1] at hmem
  have hstate := List.find?_some h
  exact ⟨by omega, by simpa using hstate⟩

theorem allocTask_moved {r : Option ℕ} (hs : s.Sound) (h : allocTask s = .ok (r, s')) :
    match r with
    | none => Calm s s' ∧ s'.current = s.current
    | some child => Moved child s s' 0 ∧ child < ntask ∧ (s.taskTable child).state = .unused ∧
        ∀ fd, s'.slot (child, fd) = none := by
  rw [allocTask, get_bind] at h
  cases hi : s.freeTaskSlot with
  | none =>
    rw [hi] at h
    cases h
    exact ⟨Quiet.refl.calm, rfl⟩
  | some i =>
    rw [hi] at h
    obtain ⟨hlt, hstate⟩ := freeTaskSlot_some hi
    cases ha : s.ram.alloc with
    | mk a ram =>
      rw [ha] at h
      cases a with
      | zero =>
        cases h
        exact ⟨(Quiet.setProc { s.taskTable i with trapframe := 0 } rfl rfl).calm, rfl⟩
      | succ n =>
        obtain ⟨⟨⟩, s₀, hset, h₀⟩ := bind_eq_ok.mp h
        cases hset
        obtain ⟨pagetable, s₁, hpage, h₁⟩ := bind_eq_ok.mp h₀
        have hq : Quiet s s₁ :=
          have h := (onRam_quiet hpage).1
          ⟨h.handles, h.current, h.state, h.openFiles⟩
        have hdead : ¬s.Live i := fun hl => hl.1 hstate
        have hclear : ∀ fd < nofile, s₁.slot (i, fd) = none := fun fd hfd =>
          (hq.slot (i, fd)).trans (hs.idle i hlt hdead fd hfd)
        have hram : Quiet s₁ { s₁ with ram := { s₁.ram with
            mem := s₁.ram.mem.fill (n + 1) 288 0 } } := ⟨rfl, rfl, fun _ => rfl, fun _ => rfl⟩
        cases h₁
        refine ⟨?_, hlt, hstate, fun fd => by rw [slot_setProc]⟩
        apply hq.moved.trans_zero
        apply hram.moved.trans_zero
        exact .clear hclear rfl rfl

theorem copyMemory_quiet {child : ℕ} (h : copyMemory child s = .ok ((), s')) : Quiet s s' := by
  rw [copyMemory, get_bind] at h
  exact (onRam_quiet h).1

theorem copyRecord_quiet {child : ℕ} (h : copyRecord child s = .ok ((), s')) : Quiet s s' := by
  rw [copyRecord, get_bind] at h
  cases hcwd : s.myTask.cwd with
  | none =>
    simp only [hcwd] at h
    cases h
  | some ip =>
    simp only [hcwd] at h
    cases h
    have hram : Quiet s { s with
        iref := Function.update s.iref ip (s.iref ip + 1)
        ram := { s.ram with
          mem := (s.ram.mem.blit (s.taskTable child).trapframe 288 fun j =>
            s.ram.mem (s.myTask.trapframe + j)).fill ((s.taskTable child).trapframe + 112) 8 0 } } :=
      ⟨rfl, rfl, fun _ => rfl, fun _ => rfl⟩
    apply hram.trans
    apply Quiet.setProc
    · rfl
    · rfl

theorem fileDup_slot {r : ℕ} (h : fileDup fp s = .ok (r, s')) (k : ℕ × ℕ) : s'.slot k = s.slot k :=
  congrFun ((fileDup_moved (t := k.1 + 1) h).2.other k.1 (by omega)) k.2

/-- The child gets what its parent holds, one reference more for each descriptor. -/
theorem dupFiles_moved {parent child : ℕ} (hc : child < ntask) :
    ∀ (fds : List ℕ) {s : System}, fds.Nodup → (∀ fd ∈ fds, fd < nofile) →
      (∀ fd ∈ fds, s.slot (child, fd) = none) → dupFiles parent child fds s = .ok ((), s') →
      Moved child s s' 0 := by
  intro fds
  induction fds with
  | nil =>
    intro s _ _ _ h
    cases h
    exact .refl
  | cons fd fds ih =>
    intro s hnodup hlt hnone h
    have hmem : ∀ x ∈ fds, x ∈ fd :: fds := fun x hx => List.mem_cons_of_mem fd hx
    rw [dupFiles, get_bind] at h
    cases hp : (s.taskTable parent).task.openFiles fd with
    | none =>
      rw [hp] at h
      exact ih hnodup.of_cons (fun x hx => hlt x (hmem x hx)) (fun x hx => hnone x (hmem x hx)) h
    | some fp =>
      rw [hp] at h
      obtain ⟨fp', s₁, hdup, h₁⟩ := bind_eq_ok.mp h
      obtain ⟨rfl, hm⟩ := fileDup_moved (t := child) hdup
      obtain ⟨⟨⟩, s₂, hset, h₂⟩ := bind_eq_ok.mp h₁
      have hs₂ : s₂ = s₁.setFd child fd (some fp') := by
        cases hset
        rfl
      have hfree : s₁.slot (child, fd) = none :=
        (fileDup_slot hdup _).trans (hnone fd List.mem_cons_self)
      have hfill := hm.trans (.fill fp' hc (hlt fd List.mem_cons_self) hfree)
      rw [add_neg_cancel, ← hs₂] at hfill
      refine hfill.trans_zero (ih hnodup.of_cons (fun x hx => hlt x (hmem x hx)) ?_ h₂)
      intro x hx
      have hxfd : (child, x) ≠ (child, fd) := by
        rintro ⟨⟩
        exact (List.nodup_cons.mp hnodup).1 hx
      rw [hs₂, slot_setFd, Function.update_of_ne hxfd, fileDup_slot hdup]
      exact hnone x (hmem x hx)

theorem modifyProc_keeps (s₀ : System) {f : Proc → Proc} (hs : ∀ p, (f p).state = p.state)
    (hf : ∀ p, (f p).task.openFiles = p.task.openFiles) : Keeps (Quiet s₀) (modifyProc i f) :=
  .modify fun _ h => h.trans (.setProc _ (hs _) (hf _))

theorem allocVma_keeps (s₀ : System) : Keeps (Quiet s₀) (onMachine allocVma) := by
  intro s r s' hs h
  rwa [(onMachine_allocVma h).1]

theorem dupVmas_keeps (s₀ : System) (parent child : ℕ) (is : List ℕ) :
    Keeps (Quiet s₀) (dupVmas parent child is) := by
  induction is with
  | nil => exact .pure ()
  | cons i is ih =>
    refine Keeps.bind .get fun s => ?_
    cases (s.taskTable parent).task.vma i with
    | none => exact .bind (modifyProc_keeps s₀ (fun _ => rfl) fun _ => rfl) fun _ => ih
    | some p =>
      refine .bind (allocVma_keeps s₀) fun q => ?_
      refine .bind (.modify fun s h => ⟨h.handles, h.current, h.state, h.openFiles⟩) fun _ => ?_
      have hlast := Keeps.bind (modifyProc_keeps s₀ (f := fun pr => { pr with task := { pr.task with
        vma := Function.update pr.task.vma i (some q) } }) (i := child) (fun _ => rfl) fun _ => rfl)
        fun _ => ih
      cases (s.vmaTable p).ip with
      | none => exact hlast
      | some ip =>
        refine .bind ?_ fun _ => hlast
        exact .bind (.modify fun s h => ⟨h.handles, h.current, h.state, h.openFiles⟩) fun _ => .pure _

theorem nameChild_calm {child : ℕ} (h : nameChild child s = .ok ((), s')) :
    Calm s s' ∧ s'.current = s.current ∧ s'.Live child := by
  rw [nameChild, get_bind] at h
  cases h
  have hlive : ∀ p : Proc, p.state = .runnable → (s.setProc child p).Live child := by
    intro p hp
    unfold Live
    rw [setProc_self, hp]
    decide
  refine ⟨⟨rfl, fun j => ?_, fun j hj => ?_⟩, rfl, hlive _ rfl⟩
  · by_cases hjc : j = child
    · subst hjc
      rw [setProc_self]
    · rw [setProc_of_ne hjc]
  · by_cases hjc : j = child
    · subst hjc
      exact hlive _ rfl
    · unfold Live
      rw [setProc_of_ne hjc]
      exact hj

theorem fork_sound {r : ℤ} (hs : s.Sound) (h : fork s = .ok (r, s')) :
    s'.Sound := by
  rw [fork] at h
  obtain ⟨v, s₁, halloc, h₁⟩ := bind_eq_ok.mp h
  have ha := allocTask_moved hs halloc
  cases v with
  | none =>
    cases h₁
    exact hs.calm ha.1 (ha.2 ▸ hs.current)
  | some child =>
    obtain ⟨hm₁, hlt, hunused, hnone⟩ := ha
    obtain ⟨⟨⟩, s₂, hmem, h₂⟩ := bind_eq_ok.mp h₁
    obtain ⟨⟨⟩, s₃, hrec, h₃⟩ := bind_eq_ok.mp h₂
    rw [get_bind] at h₃
    obtain ⟨⟨⟩, s₄, hfiles, h₄⟩ := bind_eq_ok.mp h₃
    obtain ⟨⟨⟩, s₅, hvmas, h₅⟩ := bind_eq_ok.mp h₄
    obtain ⟨⟨⟩, s₆, hname, h₆⟩ := bind_eq_ok.mp h₅
    cases h₆
    have hq := (copyMemory_quiet hmem).trans (copyRecord_quiet hrec)
    have hdup : Moved child s₃ s₄ 0 := by
      apply dupFiles_moved hlt _ List.nodup_range _ _ hfiles
      · intro fd hfd
        exact List.mem_range.mp hfd
      · intro fd _
        exact (hq.slot _).trans (hnone fd)
    have hm : Moved child s s₅ 0 :=
      ((hm₁.trans_zero hq.moved).trans_zero hdup).trans_zero
        (dupVmas_keeps s₄ _ _ _ .refl hvmas).moved
    obtain ⟨hcalm, hcur, hchild⟩ := nameChild_calm hname
    refine ⟨?_, fun fp => ?_, fun i hi hdead fd hfd => ?_⟩
    · rw [hcur, hm.current]
      exact hs.current
    · rw [hcalm.excess, hm.excess, hs.excess]
      rfl
    · have hne : i ≠ child := fun he => hdead (he ▸ hchild)
      have hdead' : ¬s.Live i := by
        intro hl
        unfold Live at hl
        rw [← hm.state] at hl
        exact hdead (hcalm.live i hl)
      change (s'.taskTable i).task.openFiles fd = none
      rw [hcalm.openFiles, hm.other i hne]
      exact hs.idle i hi hdead' fd hfd

end Fork

section Exit

theorem closeFiles_moved {me : ℕ} (hme : me < ntask) :
    ∀ (fds : List ℕ) {s : System}, (∀ fd ∈ fds, fd < nofile) →
      closeFiles me fds s = .ok ((), s') → Moved me s s' 0 ∧ (∀ fd ∈ fds, s'.slot (me, fd) = none) ∧
        ∀ fd, s.slot (me, fd) = none → s'.slot (me, fd) = none := by
  intro fds
  induction fds with
  | nil =>
    intro s _ h
    cases h
    exact ⟨.refl, fun fd hfd => absurd hfd List.not_mem_nil, fun fd hfd => hfd⟩
  | cons fd fds ih =>
    intro s hlt h
    have hlt' : ∀ x ∈ fds, x < nofile := fun x hx => hlt x (List.mem_cons_of_mem fd hx)
    rw [closeFiles, get_bind] at h
    cases hp : (s.taskTable me).task.openFiles fd with
    | none =>
      rw [hp] at h
      obtain ⟨hm, hnone, hstay⟩ := ih hlt' h
      refine ⟨hm, fun x hx => ?_, hstay⟩
      rcases List.mem_cons.mp hx with rfl | hx
      · exact hstay x hp
      · exact hnone x hx
    | some fp =>
      rw [hp] at h
      obtain ⟨⟨⟩, s₁, hclose, h₁⟩ := bind_eq_ok.mp h
      obtain ⟨⟨⟩, s₂, hset, h₂⟩ := bind_eq_ok.mp h₁
      have hs₂ : s₂ = s₁.setFd me fd none := by
        cases hset
        rfl
      have hslot : ∀ x, s₁.slot (me, x) = s.slot (me, x) := fun x =>
        congrFun ((vfsClose_moved (t := me + 1) hclose).other me (by omega)) x
      have hempty := (vfsClose_moved (t := me) hclose).trans
        (.empty hme (hlt fd List.mem_cons_self) ((hslot fd).trans hp))
      rw [neg_add_cancel, ← hs₂] at hempty
      obtain ⟨hm, hnone, hstay⟩ := ih hlt' h₂
      have hclear : ∀ x, x = fd ∨ s.slot (me, x) = none → s'.slot (me, x) = none := by
        intro x hx
        apply hstay
        rw [hs₂, slot_setFd]
        rcases hx with rfl | hx
        · rw [Function.update_self]
        · by_cases hxfd : x = fd
          · rw [hxfd, Function.update_self]
          · rw [Function.update_of_ne (fun he => hxfd (congrArg Prod.snd he)), hslot, hx]
      refine ⟨hempty.trans_zero hm, fun x hx => ?_, fun x hx => hclear x (Or.inr hx)⟩
      rcases List.mem_cons.mp hx with rfl | hx
      · exact hclear x (Or.inl rfl)
      · exact hnone x hx

theorem onRam_keeps (s₀ : System) {α : Type} (call : MemAllocator → Kernel (α × MemAllocator)) :
    Keeps (Quiet s₀) (onRam call) := fun _ _ _ hs h => hs.trans (onRam_quiet h).1

theorem vmaFree_keeps (s₀ : System) (p : ℕ) : Keeps (Quiet s₀) (vmaFree p) := by
  refine Keeps.bind .get fun s => ?_
  have hlast : Keeps (Quiet s₀) (modify fun s => { s with
      vmaTable := Function.update s.vmaTable p .zero } : OsM Unit) :=
    .modify fun s h => ⟨h.handles, h.current, h.state, h.openFiles⟩
  cases (s.vmaTable p).ip with
  | none => exact hlast
  | some ip => exact .bind (inodeFree_keeps s₀ ip) fun _ => hlast

theorem closeVmas_keeps (s₀ : System) (me : ℕ) (is : List ℕ) :
    Keeps (Quiet s₀) (closeVmas me is) := by
  induction is with
  | nil => exact .pure ()
  | cons i is ih =>
    refine Keeps.bind .get fun s => ?_
    cases (s.taskTable me).task.vma i with
    | none => exact ih
    | some p =>
      have hlast := Keeps.bind (onRam_keeps s₀ fun ram => do
          return ((), ← ram.userUnmap (s.taskTable me).task.pagetable
            (pgRoundDown (s.vmaTable p).addr)
            (toU64 (pgRoundUpInt (s.vmaTable p).length / pgSize)) true)) fun _ =>
        .bind (vmaFree_keeps s₀ p) fun _ =>
          .bind (modifyProc_keeps s₀ (f := fun p => { p with task := { p.task with
            vma := Function.update p.task.vma i none } }) (i := me) (fun _ => rfl) fun _ => rfl)
              fun _ => ih
      dsimp only
      split
      · exact .bind (.throw _) fun _ => hlast
      · exact hlast

theorem adopt_keeps (s₀ : System) (me : ℕ) : Keeps (Quiet s₀) (modify fun s =>
    { s with taskTable := fun i =>
      if i < ntask ∧ (s.taskTable i).parent = some me then
        { s.taskTable i with parent := some initTask }
      else s.taskTable i } : OsM Unit) := by
  refine .modify fun s h => h.trans ⟨rfl, rfl, fun i => ?_, fun i => ?_⟩
  · dsimp only
    split <;> rfl
  · dsimp only
    split <;> rfl

theorem wakeup_calm {onChan : ℕ → Bool} (h : wakeup onChan s = .ok ((), s')) :
    Calm s s' ∧ s'.current = s.current := by
  cases h
  refine ⟨⟨rfl, fun i => ?_, fun i hi => ?_⟩, rfl⟩
  · dsimp only
    split <;> rfl
  · unfold Live
    dsimp only
    split
    · constructor
      · rintro ⟨⟩
      · rintro ⟨⟩
    · exact hi

theorem Sound.retire (h : s.Sound) (p : Proc) (hp : p.task.openFiles = (s.taskTable i).task.openFiles)
    (hnone : ∀ fd < nofile, s.slot (i, fd) = none) : (s.setProc i p).Sound := by
  have hslot : (s.setProc i p).slot = s.slot := by
    funext k
    obtain ⟨j, fd⟩ := k
    by_cases hj : j = i
    · subst hj
      rw [slot_setProc, hp]
      rfl
    · unfold slot
      rw [setProc_of_ne hj]
  refine ⟨h.current, fun fp => ?_, fun j hj hdead fd hfd => ?_⟩
  · unfold System.excess refs
    rw [hslot]
    exact h.excess fp
  · rw [hslot]
    by_cases hji : j = i
    · exact hji ▸ hnone fd hfd
    · unfold Live at hdead
      rw [setProc_of_ne hji] at hdead
      exact h.idle j hj hdead fd hfd

theorem exit_sound {onChan : ℕ → Bool} (hs : s.Sound) (hlive : s.Live s.current)
    (h : exit onChan s = .ok ((), s')) : s'.Sound := by
  rw [exit, get_bind] at h
  split at h
  · cases h
  obtain ⟨⟨⟩, s₁, hclose, h₁⟩ := bind_eq_ok.mp h
  obtain ⟨⟨⟩, s₂, hdir, h₂⟩ := bind_eq_ok.mp h₁
  obtain ⟨⟨⟩, s₃, hadopt, h₃⟩ := bind_eq_ok.mp h₂
  obtain ⟨⟨⟩, s₄, hvmas, h₄⟩ := bind_eq_ok.mp h₃
  obtain ⟨⟨⟩, s₅, hzombie, h₅⟩ := bind_eq_ok.mp h₄
  obtain ⟨hm, hnone, -⟩ := closeFiles_moved hs.current _ (fun fd hfd => List.mem_range.mp hfd) hclose
  have hq₂ : Quiet s₁ s₂ := by
    cases hdir
    exact .setProc _ rfl rfl
  have hq₃ : Quiet s₁ s₃ := adopt_keeps s₁ s.current hq₂ hadopt
  have hq₄ : Quiet s₁ s₄ := closeVmas_keeps s₁ _ _ hq₃ hvmas
  have hs₄ : s₄.Sound := hs.moved hlive (hm.trans_zero hq₄.moved)
  have hs₅ : s₅.Sound := by
    cases hzombie
    refine hs₄.retire _ rfl fun fd hfd => ?_
    rw [hq₄.slot]
    exact hnone fd (List.mem_range.mpr hfd)
  obtain ⟨hcalm, hcur⟩ := wakeup_calm h₅
  exact hs₅.calm hcalm (hcur ▸ hs₅.current)

theorem freeTask_sound {child : ℕ} (hs : s.Sound) (hlt : child < ntask) (hdead : ¬s.Live child)
    (h : freeTask child s = .ok ((), s')) : s'.Sound := by
  rw [freeTask, get_bind] at h
  have hidle : ∀ s₁, Quiet s s₁ → s₁.Sound ∧ ∀ fd < nofile, s₁.slot (child, fd) = none := by
    intro s₁ hq
    refine ⟨hs.calm hq.calm (hq.current ▸ hs.current), fun fd hfd => ?_⟩
    rw [hq.slot]
    exact hs.idle child hlt hdead fd hfd
  have hlast : ∀ s₁, Quiet s s₁ → (modifyProc child fun p => { p with
      trapframe := 0
      state := .unused
      parent := none
      killed := false
      xstate := 0
      name := p.name.fill 0 1 0
      task := { p.task with pagetable := 0, vma := fun _ => none, sz := 0 } } : OsM Unit) s₁ =
        .ok ((), s') → s'.Sound := by
    intro s₁ hq hset
    cases hset
    exact (hidle s₁ hq).1.retire _ rfl (hidle s₁ hq).2
  -- what the two calls before that do is a matter of the memory only
  have hpages : ∀ s₁, Quiet s s₁ → (do
      if (s.taskTable child).task.pagetable ≠ 0 then
        onRam fun ram => do
          return ((), ← ram.freeTaskPagetable (s.taskTable child).task.pagetable
            (toU64 (s.taskTable child).task.sz))
      modifyProc child fun p => { p with
        trapframe := 0
        state := .unused
        parent := none
        killed := false
        xstate := 0
        name := p.name.fill 0 1 0
        task := { p.task with pagetable := 0, vma := fun _ => none, sz := 0 } } : OsM Unit) s₁ =
        .ok ((), s') → s'.Sound := by
    intro s₁ hq hrest
    split at hrest
    · obtain ⟨⟨⟩, s₂, hram, hset⟩ := bind_eq_ok.mp hrest
      exact hlast s₂ (hq.trans (onRam_quiet hram).1) hset
    · exact hlast s₁ hq hrest
  split at h
  · obtain ⟨⟨⟩, s₁, hram, hrest⟩ := bind_eq_ok.mp h
    exact hpages s₁ (onRam_quiet hram).1 hrest
  · exact hpages s .refl h

theorem reap_sound {child vaddr : ℕ} {r : ℤ} (hs : s.Sound) (hlt : child < ntask)
    (hdead : ¬s.Live child) (h : reap child vaddr s = .ok (r, s')) : s'.Sound := by
  rw [reap, get_bind] at h
  have hfree : ∀ s₁, Quiet s s₁ → ∀ v : ℤ, (do
      if v < 0 then return -1
      freeTask child
      return ↑child : OsM ℤ) s₁ = .ok (r, s') → s'.Sound := by
    intro s₁ hq v hrest
    have hs₁ : s₁.Sound := hs.calm hq.calm (hq.current ▸ hs.current)
    split at hrest
    · cases hrest
      exact hs₁
    · obtain ⟨⟨⟩, s₂, hfree, hret⟩ := bind_eq_ok.mp hrest
      cases hret
      refine freeTask_sound hs₁ hlt ?_ hfree
      unfold Live at hdead ⊢
      rwa [hq.state]
  split at h
  · obtain ⟨v, s₁, hram, hrest⟩ := bind_eq_ok.mp h
    exact hfree s₁ (onRam_quiet hram).1 v hrest
  · exact hfree s .refl 0 h

theorem wait_sound {vaddr : ℕ} {r : Option ℤ} (hs : s.Sound) (h : wait vaddr s = .ok (r, s')) :
    s'.Sound := by
  rw [wait, get_bind] at h
  generalize hfind : List.find? _ (List.range ntask) = v at h
  cases v with
  | some child =>
    have hmem := List.mem_range.mp (List.mem_of_find?_eq_some hfind)
    have hstate := List.find?_some hfind
    rw [decide_eq_true_iff] at hstate
    obtain ⟨v, s₁, hreap, hret⟩ := bind_eq_ok.mp h
    cases hret
    exact reap_sound hs hmem (fun hl => hl.2 hstate.2) hreap
  | none =>
    dsimp only at h
    split at h
    · cases h
      exact hs
    · cases h
      exact hs

theorem wait4_sound {pid : ℤ} {vaddr : ℕ} {r : Option ℤ} (hs : s.Sound)
    (h : wait4 pid vaddr s = .ok (r, s')) : s'.Sound := by
  rw [wait4] at h
  split at h
  · cases h
    exact hs
  split at h
  · cases h
  rename_i hge hneg
  dsimp only at h
  rw [get_bind] at h
  split at h
  · cases h
    exact hs
  obtain ⟨⟨⟩, s₁, hset, h₁⟩ := bind_eq_ok.mp h
  have hq : Quiet s s₁ := by
    cases hset
    exact .setProc _ rfl rfl
  have hs₁ : s₁.Sound := hs.calm hq.calm (hq.current ▸ hs.current)
  split at h₁
  · rename_i hstate
    obtain ⟨v, s₂, hreap, hret⟩ := bind_eq_ok.mp h₁
    cases hret
    refine reap_sound hs₁ (by omega) (fun hl => hl.2 ?_) hreap
    rw [hq.state, hstate]
  · cases h₁
    exact hs₁

end Exit

/-- `fcntl` above the last descriptor that can be registered takes a reference that no descriptor
holds. -/
theorem sysFcntl_lost {x cmd y r : ℤ} (hs : s.Sound) (h : sysFcntl x cmd y s = .ok (r, s'))
    (hcmd : cmd ≠ 2 ∧ cmd ≠ 3 ∧ cmd ≠ 4) (hfd : s.freeDescriptor (max 0 y).toNat = some fd)
    (hlt : nfile < (fd : ℤ)) : ¬s'.Counted := by
  unfold sysFcntl at h
  rw [if_neg (by rintro (h2 | h4) <;> tauto)] at h
  obtain ⟨v, s₁, hv, h₁⟩ := bind_eq_ok.mp h
  obtain ⟨rfl, -⟩ := fileByfd_ok hv
  cases v with
  | none => cases h₁
  | some fp =>
    dsimp only at h₁
    rw [if_neg hcmd.2.1] at h₁
    obtain ⟨fp', s₂, hdup, h₂⟩ := bind_eq_ok.mp h₁
    obtain ⟨rfl, hm⟩ := fileDup_moved (t := s₁.current + 1) hdup
    obtain ⟨z, s₃, halloc, hreg⟩ := bind_eq_ok.mp h₂
    have hfd' : s₂.freeDescriptor (max 0 y).toNat = some fd := by
      rw [← hfd, freeDescriptor, freeDescriptor, myTask, myTask, hm.current,
        hm.other s₁.current (by omega)]
    rw [allocFd, get_bind, hfd'] at halloc
    cases halloc
    unfold registerFileHandle at hreg
    rw [if_pos hlt] at hreg
    cases hreg
    intro hcount
    have hzero := hcount.excess_eq_zero fp'
    rw [hm.excess, hs.excess, Pi.single_eq_same] at hzero
    cases hzero

def Booted (s : System) : Prop :=
  s.current < ntask ∧ (∀ fp, s.handles fp = none) ∧ ∀ i fd, (s.taskTable i).task.openFiles fd = none

theorem Booted.sound (h : s.Booted) : s.Sound where
  current := h.1
  excess fp := by
    have hrefs : s.refs fp = 0 := by
      apply Slots.count_eq_zero
      rintro ⟨i, fd⟩ - hs
      unfold slot at hs
      rw [h.2.2] at hs
      cases hs
    unfold System.excess refOf
    rw [h.2.1, hrefs]
    rfl
  idle i _ _ fd _ := h.2.2 i fd

end System

def forget {α : Type} (call : OsM α) : OsM Unit := do
  let _ ← call

theorem forget_ok {α : Type} {call : OsM α} {s s' : System} :
    forget call s = .ok ((), s') ↔ ∃ a, call s = .ok (a, s') := by
  constructor
  · intro h
    obtain ⟨a, s₁, hcall, hret⟩ := bind_eq_ok.mp h
    cases hret
    exact ⟨a, hcall⟩
  · rintro ⟨a, hcall⟩
    exact bind_of_ok hcall

/-- The calls that make, copy or drop references to open files. -/
inductive FileCall
  | openat (fp : ℕ) (found : Option FoundInode) (flags : ℕ)
  | dup (fd : ℤ)
  | dup3 (oldfd newfd : ℤ)
  | fcntl (fd cmd newfd : ℤ)
  | pipe (f0 f1 pipe fdarray : ℕ)
  | fork
  | close (fd : ℤ)
  | exit (onChan : ℕ → Bool)
  | wait (vaddr : ℕ)
  | wait4 (pid : ℤ) (vaddr : ℕ)

namespace FileCall

def run : FileCall → OsM Unit
  | openat fp found flags => forget (sysOpenat fp found flags)
  | dup fd => forget (sysDup fd)
  | dup3 oldfd newfd => forget (sysDup3 oldfd newfd)
  | fcntl fd cmd newfd => forget (sysFcntl fd cmd newfd)
  | pipe f0 f1 p fdarray => forget (sysPipe f0 f1 p fdarray)
  | fork => forget StartOS.fork
  | close fd => forget (sysClose fd)
  | exit onChan => StartOS.exit onChan
  | wait vaddr => forget (StartOS.wait vaddr)
  | wait4 pid vaddr => forget (StartOS.wait4 pid vaddr)

/-- `fcntl` finds a descriptor that `registerFileHandle` takes, and the descriptors of a pipe can
be copied to the caller. -/
def Safe (s : System) : FileCall → Prop
  | fcntl _ cmd newfd => ∀ fd, cmd ≠ 2 → cmd ≠ 3 → cmd ≠ 4 →
      s.freeDescriptor (max 0 newfd).toNat = some fd → (fd : ℤ) ≤ nfile
  | pipe f0 _ _ fdarray => ∀ a b, s.freeDescriptor 0 = some a →
      (s.setFd s.current a (some f0)).freeDescriptor 0 = some b →
      ∃ ram, copyoutFds s.ram s.myTask.task.pagetable fdarray (a, b) = .ok (0, ram)
  | _ => True

variable {s s' : System}

theorem run_sound {c : FileCall} (hs : s.Sound) (hlive : s.Live s.current) (hsafe : c.Safe s)
    (h : c.run s = .ok ((), s')) : s'.Sound := by
  cases c with
  | openat fp found flags =>
    obtain ⟨r, hcall⟩ := forget_ok.mp h
    exact hs.moved hlive (System.sysOpenat_moved hs.current hcall)
  | dup fd =>
    obtain ⟨r, hcall⟩ := forget_ok.mp h
    exact hs.moved hlive (System.sysDup_moved hs.current hcall)
  | dup3 oldfd newfd =>
    obtain ⟨r, hcall⟩ := forget_ok.mp h
    exact hs.moved hlive (System.sysDup3_moved hs.current hcall)
  | fcntl fd cmd newfd =>
    obtain ⟨r, hcall⟩ := forget_ok.mp h
    exact hs.moved hlive (System.sysFcntl_moved hs.current hcall hsafe)
  | pipe f0 f1 p fdarray =>
    obtain ⟨r, hcall⟩ := forget_ok.mp h
    exact hs.moved hlive (System.sysPipe_moved hs.current hcall hsafe)
  | fork =>
    obtain ⟨r, hcall⟩ := forget_ok.mp h
    exact System.fork_sound hs hcall
  | close fd =>
    obtain ⟨r, hcall⟩ := forget_ok.mp h
    exact hs.moved hlive (System.sysClose_moved hs.current hcall)
  | exit onChan => exact System.exit_sound hs hlive h
  | wait vaddr =>
    obtain ⟨r, hcall⟩ := forget_ok.mp h
    exact System.wait_sound hs hcall
  | wait4 pid vaddr =>
    obtain ⟨r, hcall⟩ := forget_ok.mp h
    exact System.wait4_sound hs hcall

end FileCall

/-- A step of the whole system: the running process makes a call that `ok` allows, or something
else happens (a switch to another process, a page fault, any other call) that leaves open files
and descriptors alone. -/
inductive FileStep (ok : System → FileCall → Prop) (s s' : System) : Prop
  | call (c : FileCall) (hlive : s.Live s.current) (hok : ok s c) (h : c.run s = .ok ((), s'))
  | other (h : s.Calm s') (hc : s'.current < ntask)

theorem FileStep.sound {s s' : System} (h : FileStep (fun s c => c.Safe s) s s') (hs : s.Sound) :
    s'.Sound := by
  cases h with
  | call c hlive hok h => exact c.run_sound hs hlive hok h
  | other h hc => exact hs.calm h hc

/-- A call behind `argaddr` is two steps, of which the first loads a page. -/
theorem FileStep.behindArgaddr {ok : System → FileCall → Prop} {s s' : System} {c : FileCall} {va : ℕ}
    (hc : s.current < ntask) (hlive : s.Live s.current)
    (hok : ∀ b s₁, loadIfValid va s = .ok (b, s₁) → ok s₁ c)
    (h : StartOS.behindArgaddr va c.run s = .ok ((), s')) : ReflTransGen (FileStep ok) s s' := by
  obtain ⟨b, s₁, hload, hcall⟩ := behindArgaddr_eq_ok.mp h
  have heq := loadIfValid_eq hload
  have hcalm := (System.onRam_quiet (loadIfValid_onRam hload)).1.calm
  have hcur : s₁.current = s.current := by rw [heq]
  refine .tail (.single (.other hcalm (hcur ▸ hc))) (.call c ?_ (hok b s₁ hload) hcall)
  rw [hcur]
  exact hcalm.live _ hlive

/-- Along every run of any number of processes the counts of open files are right. -/
theorem counted_of_run {s s' : System} (hs : s.Booted)
    (h : ReflTransGen (FileStep fun s c => c.Safe s) s s') : s'.Counted := by
  have hsound : s'.Sound := by
    induction h with
    | refl => exact hs.sound
    | tail _ hstep ih => exact hstep.sound ih
  exact System.counted_of_excess hsound.excess

theorem bootSystem_booted : (bootSystem []).Booted := ⟨by decide, fun _ => rfl, fun _ _ => rfl⟩

theorem bootSystem_opened : ∃ s,
    (FileCall.openat 0 (some ⟨1, 0, 0⟩) 0).run (bootSystem []) = .ok ((), s) ∧
    s.Live s.current ∧ s.freeDescriptor 101 = some 101 ∧
    (∃ s', sysDup 0 s = .ok (1, s') ∧ (s'.handles 0).map FileHandle.ref = some 2) ∧
    ∃ s', sysFcntl 0 0 101 s = .ok (-1, s') :=
  ⟨_, rfl, ⟨by decide, by decide⟩, rfl, ⟨_, rfl, rfl⟩, _, rfl⟩

theorem counted_of_open_dup : ∃ s', ReflTransGen (FileStep fun s c => c.Safe s) (bootSystem []) s' ∧
    (s'.handles 0).map FileHandle.ref = some 2 ∧ s'.Counted := by
  obtain ⟨s, hopen, hlive, -, ⟨s', hdup, href⟩, -⟩ := bootSystem_opened
  have hrun : ReflTransGen (FileStep fun s c => c.Safe s) (bootSystem []) s' := by
    apply ReflTransGen.tail (.single
      (.call (.openat 0 (some ⟨1, 0, 0⟩) 0) ⟨by decide, by decide⟩ trivial hopen))
    exact .call (.dup 0) hlive trivial (forget_ok.mpr ⟨1, hdup⟩)
  exact ⟨s', hrun, href, counted_of_run bootSystem_booted hrun⟩

/-- A file opened by the first process and duplicated from descriptor 101 on has the count 2 and
one descriptor. -/
theorem open_fcntl_not_counted : (bootSystem []).Booted ∧
    ∃ s', ReflTransGen (FileStep fun _ _ => True) (bootSystem []) s' ∧ ¬s'.Counted := by
  obtain ⟨s, hopen, hlive, hfree, -, s', hfcntl⟩ := bootSystem_opened
  have hs : s.Sound :=
    FileStep.sound (.call (.openat 0 (some ⟨1, 0, 0⟩) 0) ⟨by decide, by decide⟩ trivial hopen)
      bootSystem_booted.sound
  refine ⟨bootSystem_booted, s', ?_, System.sysFcntl_lost hs hfcntl (by decide) hfree (by decide)⟩
  apply ReflTransGen.tail (.single
    (.call (.openat 0 (some ⟨1, 0, 0⟩) 0) ⟨by decide, by decide⟩ trivial hopen))
  exact .call (.fcntl 0 0 101) hlive trivial (forget_ok.mpr ⟨-1, hfcntl⟩)

end StartOS
