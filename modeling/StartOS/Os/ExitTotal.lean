import StartOS.Os.CallTurns
import StartOS.Os.FilesSame
import StartOS.Os.SlotFrame

/-! # When exit can finish

`exit` takes down whatever the other calls have stored in the descriptors and
the mappings of the process. With the ends of all pipes open and with mappings
that can be taken down, none of its steps fails.
-/

namespace StartOS

open Hoare MemAllocator

namespace System

variable {s s' : System} {me i j p : ℕ} {is : List ℕ} {extra : ℕ → ℕ}

structure CanUnmap (s : System) (me : ℕ) (extra : ℕ → ℕ) : Prop where
  pool : s.Pool extra
  wf : s.ram.WellFormed
  space : Space s.ram (s.root me)
  top : Top s.ram (s.root me)

/-- The mappings of slot `me` in the places `is` are unmapped and released; what was is not mapped
again. -/
structure VmasClosed (s s' : System) (me : ℕ) (is : List ℕ) : Prop where
  slot : ∀ i, i ∈ is ∨ s.place (me, i) = none → s'.place (me, i) = none
  released : ∀ i ∈ is, ∀ p, s.place (me, i) = some p → s'.vmaTable p = .zero
  unmapped : ∀ i ∈ is, ∀ p, s.place (me, i) = some p → ∀ va < maxVa, (s.vmaTable p).Contains va →
    ¬isValid (s'.ram.leaf (s.root me) va)
  zero : ∀ p, s.vmaTable p = .zero → s'.vmaTable p = .zero
  invalid : ∀ va < maxVa, ¬isValid (s.ram.leaf (s.root me) va) → ¬isValid (s'.ram.leaf (s.root me) va)

theorem VmasClosed.nil : VmasClosed s s me [] where
  slot _ hi := hi.resolve_left List.not_mem_nil
  released _ hi := absurd hi List.not_mem_nil
  unmapped _ hi := absurd hi List.not_mem_nil
  zero _ hp := hp
  invalid _ _ hva := hva

theorem VmasClosed.skip (h : VmasClosed s s' me is) (hi : s.place (me, i) = none) :
    VmasClosed s s' me (i :: is) where
  slot j hj := by
    apply h.slot
    rcases hj with hj | hj
    · rcases List.mem_cons.mp hj with rfl | hj
      · exact Or.inr hi
      · exact Or.inl hj
    · exact Or.inr hj
  released j hj p hp := by
    rcases List.mem_cons.mp hj with rfl | hj
    · rw [hi] at hp
      cases hp
    · exact h.released j hj p hp
  unmapped j hj p hp := by
    rcases List.mem_cons.mp hj with rfl | hj
    · rw [hi] at hp
      cases hp
    · exact h.unmapped j hj p hp
  zero := h.zero
  invalid := h.invalid

section Turn

variable {ram : MemAllocator} {iref : ℕ → ℤ}

theorem root_dropMap (k : ℕ) : (s.dropMap me i p iref).root k = s.root k := by
  refine (root_setProc : (s.setProc me { s.taskTable me with task := { (s.taskTable me).task with
    vma := Function.update (s.taskTable me).task.vma i none } }).root k = _).trans ?_
  split
  · rename_i hk
    rw [hk]
    rfl
  · rfl

theorem VmasClosed.cons (hp : s.Pool extra) (hi : s.place (me, i) = some p)
    (hu : Unmaps s.ram ram (s.root me) (s.vmaTable p).addr
      ((s.vmaTable p).addr + (s.vmaTable p).pageCount * pgSize))
    (h : VmasClosed (dropMap { s with ram := ram } me i p iref) s' me is) :
    VmasClosed s s' me (i :: is) := by
  have hroot : (dropMap { s with ram := ram } me i p iref).root me = s.root me := root_dropMap me
  have hplace : (dropMap { s with ram := ram } me i p iref).place = Function.update s.place
    (me, i) none :=
    place_setVma (s := s) rfl
  have hvma : (dropMap { s with ram := ram } me i p iref).vmaTable =
    Function.update s.vmaTable p .zero := rfl
  have hram : (dropMap { s with ram := ram } me i p iref).ram = ram := rfl
  have hunmapped := h.unmapped
  have hinvalid := h.invalid
  rw [hroot] at hunmapped hinvalid
  rw [hram] at hinvalid
  have hother : ∀ j ≠ i, ∀ q, s.place (me, j) = some q →
      (dropMap { s with ram := ram } me i p iref).place (me, j) = some q ∧
      (dropMap { s with ram := ram } me i p iref).vmaTable q = s.vmaTable q := by
    intro j hj q hq
    have hne : (me, j) ≠ (me, i) := fun he => hj (congrArg Prod.snd he)
    refine ⟨?_, ?_⟩
    · rw [hplace, Function.update_of_ne hne]
      exact hq
    · have hqp : q ≠ p := by
        rintro rfl
        exact hne (hp.inj _ _ q hq hi)
      rw [hvma, Function.update_of_ne hqp]
  have hclosable := hp.closable (me, i) p hi
  constructor
  · intro j hj
    apply h.slot
    by_cases hji : j = i
    · right
      rw [hji, hplace, Function.update_self]
    · have hne : (me, j) ≠ (me, i) := fun he => hji (congrArg Prod.snd he)
      rw [hplace, Function.update_of_ne hne]
      exact hj.imp_left fun hj => (List.mem_cons.mp hj).resolve_left hji
  · intro j hj q hq
    by_cases hji : j = i
    · subst hji
      cases hi.symm.trans hq
      apply h.zero
      rw [hvma, Function.update_self]
    · exact h.released j ((List.mem_cons.mp hj).resolve_left hji) q (hother j hji q hq).1
  · intro j hj q hq va hva hc
    by_cases hji : j = i
    · subst hji
      cases hi.symm.trans hq
      apply hinvalid va hva
      apply hu.inside va hva
      · have hle := hc.1
        rwa [hclosable.aligned.pgRoundDown_eq] at hle
      · exact hclosable.pages va hc
    · obtain ⟨hq', hvma'⟩ := hother j hji q hq
      apply hunmapped j ((List.mem_cons.mp hj).resolve_left hji) q hq' va hva
      rwa [hvma']
  · intro q hq
    apply h.zero
    rw [hvma]
    by_cases hqp : q = p
    · rw [hqp, Function.update_self]
    · rwa [Function.update_of_ne hqp]
  · intro va hva hinv
    apply hinvalid va hva
    by_cases hin : (s.vmaTable p).addr ≤ va ∧
      va < (s.vmaTable p).addr + (s.vmaTable p).pageCount * pgSize
    · exact hu.inside va hva hin.1 hin.2
    · rwa [hu.outside va hva hin]

theorem CanUnmap.closeVma (h : s.CanUnmap me extra) (hi : s.place (me, i) = some p) (is : List ℕ) :
    ∃ ram iref, closeVmas me (i :: is) s =
      closeVmas me is (dropMap { s with ram := ram } me i p iref) ∧
      (dropMap { s with ram := ram } me i p iref).CanUnmap me extra ∧
      Unmaps s.ram ram (s.root me) (s.vmaTable p).addr
        ((s.vmaTable p).addr + (s.vmaTable p).pageCount * pgSize) := by
  have hclosable := h.pool.closable (me, i) p hi
  obtain ⟨ram, hrun, hunmaps, htop⟩ := hclosable.unmaps h.space h.wf h.top
  have hpool : ({ s with ram := ram } : System).Pool extra := h.pool.same ⟨rfl, rfl, rfl, rfl⟩
  obtain ⟨iref, hdrop, hpool'⟩ := hpool.vmaFree (show _ = some p from hi)
  obtain ⟨⟨⟩, s₁, hfree, hset⟩ := bind_eq_ok.mp hdrop
  have hunmap : onRam (fun ram => do
      return ((), ← ram.userUnmap (s.taskTable me).task.pagetable (pgRoundDown (s.vmaTable p).addr)
        (toU64 (pgRoundUpInt (s.vmaTable p).length / pgSize)) true)) s =
        .ok ((), { s with ram := ram }) := by
    refine onRam_of_ok ?_
    change s.ram.userUnmap (s.root me) _ (s.vmaTable p).npages true >>= _ = _
    rw [hclosable.aligned.pgRoundDown_eq, hrun]
    rfl
  refine ⟨ram, iref, ?_, ⟨hpool', hunmaps.acts.moves.wf, ?_, ?_⟩, hunmaps⟩
  · have hi' : (s.taskTable me).task.vma i = some p := hi
    rw [closeVmas, get_bind, hi']
    dsimp only
    rw [if_neg hclosable.notShared, bind_of_ok hunmap, bind_of_ok hfree, bind_of_ok hset]
  · rw [root_dropMap]
    exact hunmaps.acts.space
  · rw [root_dropMap]
    exact htop

end Turn

theorem closeVmas_total (is : List ℕ) :
    ∀ {s : System}, s.CanUnmap me extra →
      ∃ s', closeVmas me is s = .ok ((), s') ∧ s'.CanUnmap me extra ∧ VmasClosed s s' me is := by
  induction is with
  | nil => exact fun h => ⟨_, rfl, h, .nil⟩
  | cons i is ih =>
    intro s h
    cases hi : s.place (me, i) with
    | none =>
      obtain ⟨s', hrun, h', hclosed⟩ := ih h
      refine ⟨s', ?_, h', hclosed.skip hi⟩
      have hi' : (s.taskTable me).task.vma i = none := hi
      rw [closeVmas, get_bind, hi']
      exact hrun
    | some p =>
      obtain ⟨ram, iref, hturn, hcan, hunmaps⟩ := h.closeVma hi is
      obtain ⟨s', hrun, h', hclosed⟩ := ih hcan
      exact ⟨s', hturn.trans hrun, h', hclosed.cons h.pool hi hunmaps⟩

/-- The process that called `exit` is a zombie. Its descriptors are closed, with the references they
had; its mappings are unmapped and released; its children are those of the first process. -/
structure Exited (s s' : System) : Prop where
  current : s'.current = s.current
  zombie : (s'.taskTable s.current).state = .zombie
  counted : s'.Counted
  files : ∀ fd < nofile, s'.slot (s.current, fd) = none
  slots : ∀ j, s'.place (s.current, j) = none
  released : ∀ j p, s.place (s.current, j) = some p → s'.vmaTable p = .zero
  unmapped : ∀ j p, s.place (s.current, j) = some p → ∀ va < maxVa, (s.vmaTable p).Contains va →
    ¬isValid (s'.ram.leaf (s.root s.current) va)
  children : ∀ i < ntask, (s.taskTable i).parent = some s.current →
    (s'.taskTable i).parent = some initTask

theorem place_of_task (h : Alike Proc.task s s') : s'.place = s.place :=
  funext fun k => congrFun (congrArg Task.vma (h.slots k.1)) k.2

theorem slot_of_task (h : Alike Proc.task s s') : s'.slot = s.slot :=
  funext fun k => congrFun (congrArg Task.openFiles (h.slots k.1)) k.2

/-- The steps between the descriptors and the mappings: the directory is cleared and the children
are given away. -/
theorem giveAway (s : System) (me : ℕ) : ∃ s', (do
      modifyProc me fun p => { p with currentDir := p.currentDir.fill 0 64 0 }
      modify fun s =>
        let adopted := fun i =>
          if i < ntask ∧ (s.taskTable i).parent = some me then
            { s.taskTable i with parent := some initTask }
          else s.taskTable i
        { s with taskTable := adopted } : OsM Unit) s = .ok ((), s') ∧
    Alike Proc.task s s' ∧ s'.ram = s.ram ∧ s'.vmaTable = s.vmaTable ∧ s'.iref = s.iref ∧
    ∀ i < ntask, (s.taskTable i).parent = some me → (s'.taskTable i).parent = some initTask := by
  have hdir : Alike (fun p => (p.task, p.parent)) s (s.setProc me { s.taskTable me with
    currentDir := (s.taskTable me).currentDir.fill 0 64 0 }) := .setProc rfl
  refine ⟨_, rfl, ⟨rfl, fun i => ?_⟩, rfl, rfl, rfl, fun i hi hp => ?_⟩
  · refine Eq.trans ?_ (congrArg Prod.fst (hdir.slots i))
    dsimp only
    split <;> rfl
  · exact congrArg Proc.parent (if_pos ⟨hi, (congrArg Prod.snd (hdir.slots i)).trans hp⟩)

/-- The last steps: the process is a zombie and whoever waits for it is woken up. -/
theorem retires (s : System) (me : ℕ) (onChan : ℕ → Bool) : ∃ s', (do
      modifyProc me fun p => { p with state := .zombie, xstate := 0 }
      wakeup onChan : OsM Unit) s = .ok ((), s') ∧
    Alike (fun p => (p.task, p.parent)) s s' ∧ s'.ram = s.ram ∧ s'.vmaTable = s.vmaTable ∧
    (s'.taskTable me).state = .zombie := by
  have hset : Alike (fun p => (p.task, p.parent)) s
    (s.setProc me { s.taskTable me with state := .zombie, xstate := 0 }) := .setProc rfl
  have hstate : ((s.setProc me { s.taskTable me with state := .zombie, xstate := 0 }).taskTable
    me).state =
      .zombie := by rw [setProc_self]
  refine ⟨_, rfl, ⟨rfl, fun i => ?_⟩, rfl, rfl, ?_⟩
  · refine Eq.trans ?_ (hset.slots i)
    dsimp only
    split <;> rfl
  · refine (congrArg Proc.state (if_neg ?_)).trans hstate
    rintro ⟨-, hsleep, -⟩
    cases hstate.symm.trans hsleep

/-- `exit` of a process with open files and mappings that can be taken down. -/
theorem exit_total (onChan : ℕ → Bool) (hme : s.current ≠ initTask) (hs : s.Sound)
    (hlive : s.Live s.current) (he : s.EndsOpen) (hcan : s.CanUnmap s.current extra) :
    ∃ s', exit onChan s = .ok ((), s') ∧ Exited s s' := by
  obtain ⟨s₁, hclose⟩ := he.closeFiles hs.current (List.range nofile) hs.excess
    fun fd hfd => List.mem_range.mp hfd
  obtain ⟨hmoved, hnone, -⟩ := closeFiles_moved hs.current _
    (fun fd hfd => List.mem_range.mp hfd) hclose
  have honly : FilesOnly s s₁ := FilesOnly.keeps_closeFiles _ _ .refl hclose
  obtain ⟨s₃, hgive, htask₃, hram₃, hvma₃, hiref₃, hparent₃⟩ := giveAway s₁ s.current
  have hplace₃ : s₃.place = s.place := (place_of_task htask₃).trans honly.samePool.place
  have hvma : s₃.vmaTable = s.vmaTable := hvma₃.trans honly.vmaTable
  have hram : s₃.ram = s.ram := hram₃.trans honly.ram
  have hroot : s₃.root s.current = s.root s.current :=
    (congrArg Task.pagetable (htask₃.slots s.current)).trans
      (honly.proc (π := fun p => p.task.pagetable) (fun _ _ => rfl) s.current)
  have hcan₃ : s₃.CanUnmap s.current extra := by
    refine ⟨hcan.pool.same ⟨?_, hplace₃, hvma, hiref₃.trans honly.iref⟩, ?_, ?_, ?_⟩
    · exact htask₃.current.trans honly.current
    · rw [hram]
      exact hcan.wf
    · rw [hram, hroot]
      exact hcan.space
    · rw [hram, hroot]
      exact hcan.top
  obtain ⟨s₄, hvmas, -, hclosed⟩ := closeVmas_total (List.range nommapfile) hcan₃
  obtain ⟨s', hretire, htask, hram', hvma', hzombie⟩ := retires s₄ s.current onChan
  have hrun : exit onChan s = .ok ((), s') := by
    obtain ⟨⟨⟩, s₂, hdir, hadopt⟩ := bind_eq_ok.mp hgive
    rw [exit, get_bind]
    dsimp only
    rw [if_neg hme, bind_of_ok hclose, bind_of_ok hdir, bind_of_ok hadopt, bind_of_ok hvmas]
    exact hretire
  have hq₄ : Quiet s₃ s₄ := closeVmas_keeps _ _ _ .refl hvmas
  have hparent₄ : Alike Proc.parent s₃ s₄ := alike_closeVmas (fun _ _ _ _ => rfl) _ _ .refl hvmas
  have htask' : Alike Proc.task s₄ s' := ⟨htask.current, fun i => congrArg Prod.fst (htask.slots i)⟩
  have hlt : ∀ j p, s.place (s.current, j) = some p → j ∈ List.range nommapfile ∧
      s₃.place (s.current, j) = some p := by
    intro j p hp
    refine ⟨?_, by rw [hplace₃]; exact hp⟩
    exact (Finset.mem_product.mp (hcan.pool.inside _ p hp)).2 |> Finset.mem_range.mp |>
      List.mem_range.mpr
  refine ⟨s', hrun, ?_, hzombie, ?_, fun fd hfd => ?_, fun j => ?_, fun j p hp => ?_,
    fun j p hp va hva hc => ?_, fun i hi hp => ?_⟩
  · exact ((htask.current.trans hq₄.current).trans htask₃.current).trans honly.current
  · exact counted_of_excess (exit_sound hs hlive hrun).excess
  · rw [slot_of_task htask', hq₄.slot, slot_of_task htask₃]
    exact hnone fd (List.mem_range.mpr hfd)
  · rw [place_of_task htask']
    apply hclosed.slot
    rw [hplace₃]
    cases hj : s.place (s.current, j) with
    | none => exact Or.inr rfl
    | some p => exact Or.inl (hlt j p hj).1
  · rw [hvma']
    exact hclosed.released j (hlt j p hp).1 p (hlt j p hp).2
  · rw [hram', ← hroot]
    exact hclosed.unmapped j (hlt j p hp).1 p (hlt j p hp).2 va hva (by rwa [hvma])
  · have hp₁ : (s₁.taskTable i).parent = some s.current :=
      (honly.proc (π := Proc.parent) (fun _ _ => rfl) i).trans hp
    exact ((congrArg Prod.snd (htask.slots i)).trans (hparent₄.slots i)).trans (hparent₃ i hi hp₁)

end System

end StartOS
