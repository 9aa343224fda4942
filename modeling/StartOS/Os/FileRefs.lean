import Mathlib.Algebra.Group.Pi.Lemmas
import Mathlib.Data.Finset.Prod
import Mathlib.Logic.Relation
import StartOS.Lib.Hoare
import StartOS.Lib.Slots
import StartOS.Os.Descriptors

/-! # Reference counts of open files

The count of an open file less the number of descriptors that hold it is its
excess. Every part of a system call moves the excess by a known amount, and a
call that returns has moved it by nothing unless it takes a wrong branch.
-/

namespace StartOS

open Hoare Relation

namespace System

variable {s s' s'' : System} {t fp fd i : ℕ} {d d' : ℕ → ℤ}

def descriptors : Finset (ℕ × ℕ) := Finset.range ntask ×ˢ Finset.range nofile

def slot (s : System) (k : ℕ × ℕ) : Option ℕ := (s.taskTable k.1).task.openFiles k.2

def refs (s : System) (fp : ℕ) : ℕ := Slots.count descriptors s.slot fp

def refOf (s : System) (fp : ℕ) : ℤ := (s.handles fp).elim 0 FileHandle.ref

def excess (s : System) (fp : ℕ) : ℤ := s.refOf fp - s.refs fp

/-- Every descriptor holds an open file that is not released, and the count of such a file is
the number of descriptors that hold it. -/
def Counted (s : System) : Prop :=
  (∀ k ∈ descriptors, ∀ fp, s.slot k = some fp → (s.handles fp).isSome) ∧
    ∀ fp f, s.handles fp = some f → f.ref = s.refs fp

theorem counted_of_excess (h : ∀ fp, s.excess fp = 0) : s.Counted := by
  refine ⟨fun k hk fp hs => ?_, fun fp f hf => ?_⟩
  · have hpos : 0 < s.refs fp := Slots.count_pos hk hs
    have := h fp
    rw [Option.isSome_iff_ne_none]
    intro hnone
    simp only [excess, refOf, hnone, Option.elim_none] at this
    omega
  · have := h fp
    simp only [excess, refOf, hf, Option.elim_some] at this
    omega

theorem Counted.excess_eq_zero (h : s.Counted) (fp : ℕ) : s.excess fp = 0 := by
  cases hf : s.handles fp with
  | some f => simp only [excess, refOf, hf, Option.elim_some, h.2 fp f hf, sub_self]
  | none =>
    have hzero : s.refs fp = 0 := Slots.count_eq_zero fun k hk hs => by
      have := h.1 k hk fp hs
      rw [hf] at this
      cases this
    simp only [excess, refOf, hf, Option.elim_none, hzero, Nat.cast_zero, sub_self]

/-- Only the descriptors of process `t` have changed, and the excess has moved by `d`. -/
structure Moved (t : ℕ) (s s' : System) (d : ℕ → ℤ) : Prop where
  current : s'.current = s.current
  state : ∀ i, (s'.taskTable i).state = (s.taskTable i).state
  other : ∀ i, i ≠ t → (s'.taskTable i).task.openFiles = (s.taskTable i).task.openFiles
  excess : ∀ fp, s'.excess fp = s.excess fp + d fp

namespace Moved

theorem trans (h : Moved t s s' d) (h' : Moved t s' s'' d') : Moved t s s'' (d + d') where
  current := h'.current.trans h.current
  state i := (h'.state i).trans (h.state i)
  other i hi := (h'.other i hi).trans (h.other i hi)
  excess fp := by rw [h'.excess, h.excess, Pi.add_apply, add_assoc]

theorem trans_zero (h : Moved t s s' d) (h' : Moved t s' s'' 0) : Moved t s s'' d := by
  have := h.trans h'
  rwa [add_zero] at this

theorem of_same (hc : s'.current = s.current)
    (hs : ∀ i, (s'.taskTable i).state = (s.taskTable i).state)
    (ht : ∀ i, (s'.taskTable i).task.openFiles = (s.taskTable i).task.openFiles)
    (hh : s'.handles = s.handles) : Moved t s s' 0 := by
  refine ⟨hc, hs, fun i _ => ht i, fun fp => ?_⟩
  have hslot : s'.slot = s.slot := funext fun k => by rw [slot, slot, ht]
  rw [System.excess, refOf, refs, hh, hslot, Pi.zero_apply, add_zero]
  rfl

theorem refl : Moved t s s 0 := of_same rfl (fun _ => rfl) (fun _ => rfl) rfl

theorem handle (fp : ℕ) (f : Option FileHandle) :
    Moved t s { s with handles := Function.update s.handles fp f }
      (Pi.single fp (f.elim 0 FileHandle.ref - s.refOf fp)) := by
  refine ⟨rfl, fun _ => rfl, fun _ _ => rfl, fun x => ?_⟩
  change (Function.update s.handles fp f x).elim 0 FileHandle.ref - (s.refs x : ℤ) = _
  by_cases hx : x = fp
  · subst hx
    rw [Function.update_self, Pi.single_eq_same, System.excess]
    omega
  · rw [Function.update_of_ne hx, Pi.single_eq_of_ne hx, System.excess, refOf, add_zero]

end Moved

def setFd (s : System) (i fd : ℕ) (v : Option ℕ) : System :=
  s.setProc i { s.taskTable i with task := { (s.taskTable i).task with
    openFiles := Function.update (s.taskTable i).task.openFiles fd v } }

theorem slot_setFd (s : System) (i fd : ℕ) (v : Option ℕ) :
    (s.setFd i fd v).slot = Function.update s.slot (i, fd) v := by
  funext k
  obtain ⟨j, x⟩ := k
  change ((Function.update s.taskTable i _) j).task.openFiles x = _
  by_cases hj : j = i
  · subst hj
    rw [Function.update_self]
    change Function.update (s.taskTable j).task.openFiles fd v x = _
    by_cases hx : x = fd
    · subst hx
      rw [Function.update_self, Function.update_self]
    · have hne : (j, x) ≠ (j, fd) := fun he => hx (congrArg Prod.snd he)
      rw [Function.update_of_ne hx, Function.update_of_ne hne]
      rfl
  · have hne : (j, x) ≠ (i, fd) := fun he => hj (congrArg Prod.fst he)
    rw [Function.update_of_ne hj, Function.update_of_ne hne]
    rfl

theorem state_setFd (s : System) (i fd : ℕ) (v : Option ℕ) (j : ℕ) :
    ((s.setFd i fd v).taskTable j).state = (s.taskTable j).state := by
  by_cases hj : j = i
  · subst hj
    rw [setFd, setProc_self]
  · rw [setFd, setProc_of_ne hj]

theorem mem_descriptors (hi : i < ntask) (hfd : fd < nofile) : (i, fd) ∈ descriptors :=
  Finset.mem_product.mpr ⟨Finset.mem_range.mpr hi, Finset.mem_range.mpr hfd⟩

theorem Moved.fill (fp : ℕ) (hi : i < ntask) (hfd : fd < nofile) (h : s.slot (i, fd) = none) :
    Moved i s (s.setFd i fd (some fp)) (-Pi.single fp 1) := by
  refine ⟨rfl, s.state_setFd i fd _, fun j hj => by rw [setFd, setProc_of_ne hj], fun x => ?_⟩
  have hc := Slots.count_fill (a := fp) (b := x) (mem_descriptors hi hfd) h
  have hr : (s.setFd i fd (some fp)).refOf x = s.refOf x := rfl
  rw [System.excess, System.excess, hr, refs, slot_setFd, hc, Pi.neg_apply, Pi.single_apply, refs]
  push_cast
  omega

theorem Moved.empty (hi : i < ntask) (hfd : fd < nofile) (h : s.slot (i, fd) = some fp) :
    Moved i s (s.setFd i fd none) (Pi.single fp 1) := by
  refine ⟨rfl, s.state_setFd i fd _, fun j hj => by rw [setFd, setProc_of_ne hj], fun x => ?_⟩
  have hc := Slots.count_empty (b := x) (mem_descriptors hi hfd) h
  have hr : (s.setFd i fd none).refOf x = s.refOf x := rfl
  rw [System.excess, System.excess, hr, refs, slot_setFd, Pi.single_apply, refs, ← hc]
  push_cast
  omega

structure Quiet (s s' : System) : Prop where
  handles : s'.handles = s.handles
  current : s'.current = s.current
  state : ∀ i, (s'.taskTable i).state = (s.taskTable i).state
  openFiles : ∀ i, (s'.taskTable i).task.openFiles = (s.taskTable i).task.openFiles

namespace Quiet

theorem refl : Quiet s s := ⟨rfl, rfl, fun _ => rfl, fun _ => rfl⟩

theorem trans (h : Quiet s s') (h' : Quiet s' s'') : Quiet s s'' :=
  ⟨h'.handles.trans h.handles, h'.current.trans h.current, fun i => (h'.state i).trans (h.state i),
    fun i => (h'.openFiles i).trans (h.openFiles i)⟩

theorem moved (h : Quiet s s') : Moved t s s' 0 := .of_same h.current h.state h.openFiles h.handles

theorem slot (h : Quiet s s') (k : ℕ × ℕ) : s'.slot k = s.slot k := congrFun (h.openFiles k.1) k.2

theorem setProc (p : Proc) (hs : p.state = (s.taskTable i).state)
    (hf : p.task.openFiles = (s.taskTable i).task.openFiles) : Quiet s (s.setProc i p) := by
  refine ⟨rfl, rfl, fun j => ?_, fun j => ?_⟩
  · by_cases hj : j = i
    · subst hj
      rw [setProc_self, hs]
    · rw [setProc_of_ne hj]
  · by_cases hj : j = i
    · subst hj
      rw [setProc_self, hf]
    · rw [setProc_of_ne hj]

end Quiet

theorem onRam_quiet {α : Type} {call : MemAllocator → Kernel (α × MemAllocator)} {a : α}
    (h : onRam call s = .ok (a, s')) : Quiet s s' ∧ ∃ ram, call s.ram = .ok (a, ram) := by
  rw [onRam, get_bind] at h
  cases hc : call s.ram with
  | error e =>
    rw [hc] at h
    cases h
  | ok r =>
    rw [hc] at h
    cases h
    exact ⟨⟨rfl, rfl, fun _ => rfl, fun _ => rfl⟩, _, rfl⟩

theorem inodeFree_keeps (s₀ : System) (ip : ℕ) : Keeps (Quiet s₀) (inodeFree ip) := by
  refine Keeps.bind .get fun s => ?_
  dsimp only
  split
  · exact .bind (.throw _) fun _ => .modify fun s h => ⟨h.handles, h.current, h.state, h.openFiles⟩
  · exact .modify fun s h => ⟨h.handles, h.current, h.state, h.openFiles⟩

theorem pipeClose_keeps (s₀ : System) (p : ℕ) (b : Bool) : Keeps (Quiet s₀) (pipeClose p b) := by
  refine Keeps.bind .get fun s => ?_
  cases s.pipes p with
  | none => exact .throw _
  | some e => exact .modify fun s h => ⟨h.handles, h.current, h.state, h.openFiles⟩

theorem closeEnds_keeps (s₀ : System) (f : FileHandle) : Keeps (Quiet s₀) (closeEnds f) := by
  have hread : Keeps (Quiet s₀) (if f.readable then pipeClose f.pipe false else pure ()) :=
    .ite (pipeClose_keeps s₀ _ _) (.pure _)
  rw [closeEnds]
  dsimp only
  split
  · exact .bind (pipeClose_keeps s₀ _ _) fun _ => hread
  · exact hread

theorem fileDup_moved {r : ℕ} (h : fileDup fp s = .ok (r, s')) :
    r = fp ∧ Moved t s s' (Pi.single fp 1) := by
  rw [fileDup, get_bind] at h
  cases hf : s.handles fp with
  | none =>
    rw [hf] at h
    cases h
  | some f =>
    rw [hf] at h
    dsimp only at h
    split at h
    · cases h
    · cases h
      refine ⟨rfl, ?_⟩
      have := Moved.handle (t := t) (s := s) fp (some { f with ref := f.ref + 1 })
      simpa [refOf, hf] using this

theorem newFile_ok {f : FileHandle} (h : newFile fp f s = .ok ((), s')) :
    s.handles fp = none ∧ s' = { s with handles := Function.update s.handles fp (some f) } := by
  rw [newFile, get_bind] at h
  split at h
  · cases h
  · rename_i hn
    cases h
    exact ⟨by simpa using hn, rfl⟩

theorem newFile_moved {f : FileHandle} (h : newFile fp f s = .ok ((), s')) (hf : f.ref = 1) :
    Moved t s s' (Pi.single fp 1) := by
  obtain ⟨hnone, rfl⟩ := newFile_ok h
  have := Moved.handle (t := t) (s := s) fp (some f)
  simpa [refOf, hnone, hf] using this

/-- Closing a file takes one from its count, by whichever routine. -/
theorem fileClose_moved (h : fileClose fp s = .ok ((), s')) : Moved t s s' (-Pi.single fp 1) := by
  rw [fileClose, get_bind] at h
  cases hf : s.handles fp with
  | none =>
    rw [hf] at h
    cases h
  | some f =>
    rw [hf] at h
    dsimp only at h
    split at h
    · cases h
    rename_i hlt
    split at h
    · cases h
      have := Moved.handle (t := t) (s := s) fp (some { f with ref := f.ref - 1 })
      simpa [refOf, hf, ← Pi.single_neg] using this
    · have hone : f.ref = 1 := by omega
      have hdrop := Moved.handle (t := t) (s := s) fp none
      rw [show (Option.elim (none : Option FileHandle) 0 FileHandle.ref - s.refOf fp) = -1 by
        simp [refOf, hf, hone], Pi.single_neg] at hdrop
      rw [modify_bind] at h
      set s₁ : System := { s with handles := Function.update s.handles fp none } with hs₁
      have hsame : Quiet s₁ s' := by
        have hrefl : Quiet s₁ s₁ := .refl
        cases htype : f.type with
        | pipe =>
          rw [htype] at h
          exact closeEnds_keeps s₁ f hrefl h
        | inode =>
          rw [htype] at h
          exact inodeFree_keeps s₁ f.inode hrefl h
        | _ =>
          rw [htype] at h
          exact Keeps.pure () hrefl h
      exact hdrop.trans_zero hsame.moved

theorem vfsClose_moved (h : vfsClose fp s = .ok ((), s')) : Moved t s s' (-Pi.single fp 1) := by
  rw [vfsClose, get_bind] at h
  cases hf : s.handles fp with
  | none =>
    rw [hf] at h
    cases h
  | some f =>
    rw [hf] at h
    dsimp only at h
    split at h
    · cases h
    rename_i hlt
    split at h
    · cases h
      have := Moved.handle (t := t) (s := s) fp (some { f with ref := f.ref - 1 })
      simpa [refOf, hf, ← Pi.single_neg] using this
    · have hone : f.ref = 1 := by omega
      have hdrop := Moved.handle (t := t) (s := s) fp
        (some ⟨0, .none, false, false, 0, 0, 0, 0, 0⟩)
      rw [show (Option.elim (some (⟨0, .none, false, false, 0, 0, 0, 0, 0⟩ : FileHandle)) 0
        FileHandle.ref - s.refOf fp) = -1 by simp [refOf, hf, hone], Pi.single_neg] at hdrop
      rw [modify_bind] at h
      split at h
      · exact hdrop.trans_zero (closeEnds_keeps _ f .refl h).moved
      · cases h
        exact hdrop

theorem freeDescriptor_some {lo : ℕ} (h : s.freeDescriptor lo = some fd) :
    lo ≤ fd ∧ fd < nofile ∧ s.slot (s.current, fd) = none := by
  have hmem := List.mem_of_find?_eq_some h
  rw [List.mem_range'_1] at hmem
  have hnone := List.find?_some h
  exact ⟨hmem.1, by omega, by simpa [slot, myTask] using hnone⟩

theorem registerFileHandle_any {r : ℤ} (h : registerFileHandle fp (-1) s = .ok (r, s')) :
    ∃ fd, s.freeDescriptor 0 = some fd ∧ r = fd ∧ s' = s.setFd s.current fd (some fp) := by
  rw [registerFileHandle, if_neg (by decide), if_pos (by decide), get_bind] at h
  cases hi : s.freeDescriptor 0 with
  | none =>
    rw [hi] at h
    cases h
  | some i =>
    rw [hi] at h
    cases h
    exact ⟨i, rfl, rfl, rfl⟩

/-- A file is registered, or the descriptor asked for is too large or taken. -/
theorem registerFileHandle_moved (hc : s.current < ntask) {x r : ℤ}
    (h : registerFileHandle fp x s = .ok (r, s')) :
    (0 ≤ r ∧ Moved s.current s s' (-Pi.single fp 1)) ∨
      (r = -1 ∧ s' = s ∧ (nfile < x ∨ 0 ≤ x ∧ s.slot (s.current, x.toNat) ≠ none)) := by
  rw [registerFileHandle] at h
  split at h
  · rename_i hlt
    cases h
    exact Or.inr ⟨rfl, rfl, Or.inl hlt⟩
  rename_i hle
  split at h
  · rw [get_bind] at h
    cases hi : s.freeDescriptor 0 with
    | none =>
      rw [hi] at h
      cases h
    | some i =>
      rw [hi] at h
      cases h
      obtain ⟨-, hlt, hnone⟩ := freeDescriptor_some hi
      exact Or.inl ⟨Int.natCast_nonneg i, .fill _ hc hlt hnone⟩
  · rename_i hx
    rw [get_bind] at h
    split at h
    · rename_i hnone
      have hlt : x.toNat < nofile := by
        simp only [nfile, nofile] at *
        omega
      cases h
      exact Or.inl ⟨by omega, .fill _ hc hlt (by simpa [slot, myTask] using hnone)⟩
    · rename_i hsome
      cases h
      exact Or.inr ⟨rfl, rfl, Or.inr ⟨by omega, by simpa [slot, myTask] using hsome⟩⟩

theorem fileByfd_ok {x : ℤ} {r : Option ℕ} (h : fileByfd x s = .ok (r, s')) :
    s' = s ∧ ∀ fp, r = some fp → 0 ≤ x ∧ x.toNat < nofile ∧
      s.slot (s.current, x.toNat) = some fp := by
  rw [fileByfd] at h
  split at h
  · rw [get_bind] at h
    split at h
    · cases h
      exact ⟨rfl, fun fp hfp => by cases hfp⟩
    · cases h
  · rename_i hne
    have hm : onMachine (getFileByfd x) s = .ok (if x < 0 ∨ x > nofile then none
        else s.slot (s.current, x.toNat), s.setMachine s.machine) := by
      rw [onMachine, get_bind, getFileByfd]
      split <;> rfl
    rw [hm, setMachine_machine] at h
    cases h
    refine ⟨rfl, fun fp hfp => ?_⟩
    split at hfp
    · cases hfp
    · rename_i hx
      exact ⟨by omega, by omega, hfp⟩

theorem slot_of_fileClose (h : fileClose fp s = .ok ((), s')) (fd : ℕ) :
    s'.slot (s.current, fd) = s.slot (s.current, fd) :=
  congrFun ((fileClose_moved h).other s.current (Nat.ne_of_lt (Nat.lt_succ_self _))) fd

section Calls

variable (hc : s.current < ntask)

include hc

theorem Moved.register {x r : ℤ} (h : Moved s.current s s' (Pi.single fp 1))
    (hr : registerFileHandle fp x s' = .ok (r, s'')) (hx : x ≤ nfile)
    (hfree : 0 ≤ x → s'.slot (s'.current, x.toNat) = none) : Moved s.current s s'' 0 := by
  rcases registerFileHandle_moved (h.current ▸ hc) hr with ⟨-, h'⟩ | ⟨-, -, h' | h'⟩
  · rw [h.current] at h'
    have := h.trans h'
    rwa [add_neg_cancel] at this
  · exact absurd hx (not_le.mpr h')
  · exact absurd (hfree h'.1) h'.2

theorem sysOpenat_moved {found : Option FoundInode} {flags : ℕ} {r : ℤ}
    (h : sysOpenat fp found flags s = .ok (r, s')) : Moved s.current s s' 0 := by
  rw [sysOpenat] at h
  obtain ⟨v, s₁, hopen, hreg⟩ := bind_eq_ok.mp h
  cases found with
  | none =>
    cases hopen
    cases hreg
    exact .refl
  | some ip =>
    obtain ⟨⟨⟩, s₂, hnew, hopen⟩ := bind_eq_ok.mp hopen
    cases hopen
    exact (newFile_moved hnew rfl).register hc hreg (by decide) fun hx => absurd hx (by decide)

theorem sysDup_moved {x r : ℤ} (h : sysDup x s = .ok (r, s')) : Moved s.current s s' 0 := by
  rw [sysDup] at h
  obtain ⟨v, s₁, hv, h₁⟩ := bind_eq_ok.mp h
  obtain ⟨rfl, -⟩ := fileByfd_ok hv
  cases v with
  | none =>
    cases h₁
    exact .refl
  | some fp =>
    obtain ⟨fp', s₂, hdup, hreg⟩ := bind_eq_ok.mp h₁
    obtain ⟨rfl, hm⟩ := fileDup_moved hdup
    exact hm.register hc hreg (by decide) fun hx => absurd hx (by decide)

theorem sysDup3_moved {x y r : ℤ} (h : sysDup3 x y s = .ok (r, s')) : Moved s.current s s' 0 := by
  rw [sysDup3] at h
  obtain ⟨v, s₁, hv, h₁⟩ := bind_eq_ok.mp h
  obtain ⟨rfl, -⟩ := fileByfd_ok hv
  cases v with
  | none => cases h₁
  | some fp =>
    obtain ⟨fp', s₂, hdup, h₂⟩ := bind_eq_ok.mp h₁
    obtain ⟨rfl, hm⟩ := fileDup_moved (t := s₁.current) hdup
    clear h h₁
    have hreg : ∀ s₃, Moved s₁.current s₁ s₃ (Pi.single fp' 1) → (do
          let ansfd ← registerFileHandle fp' y
          if ansfd < 0 then fileClose fp'
          return ansfd : OsM ℤ) s₃ = .ok (r, s') → Moved s₁.current s₁ s' 0 := by
      intro s₃ h₃ hlast
      obtain ⟨z, s₄, hreg, hz⟩ := bind_eq_ok.mp hlast
      rcases registerFileHandle_moved (h₃.current ▸ hc) hreg with ⟨hpos, h'⟩ | ⟨rfl, rfl, -⟩
      · rw [if_neg (not_lt.mpr hpos)] at hz
        cases hz
        have := h₃.trans (h₃.current ▸ h')
        rwa [add_neg_cancel] at this
      · rw [if_pos (by decide)] at hz
        obtain ⟨⟨⟩, s₅, hclose, hz⟩ := bind_eq_ok.mp hz
        cases hz
        have := h₃.trans (fileClose_moved hclose)
        rwa [add_neg_cancel] at this
    split at h₂
    · cases h₂
    rename_i hy
    dsimp only at h₂
    rw [get_bind] at h₂
    -- the old file is closed and its slot cleared before the new one is registered
    cases hold : s₂.myTask.task.openFiles y.toNat with
    | none =>
      rw [hold] at h₂
      exact hreg s₂ hm h₂
    | some old =>
      rw [hold] at h₂
      obtain ⟨⟨⟩, s₃, hclose, h₃⟩ := bind_eq_ok.mp h₂
      have hm₃ := fileClose_moved (t := s₁.current) hclose
      have hcur : s₃.current = s₁.current := hm₃.current.trans hm.current
      have hslot : s₃.slot (s₁.current, y.toNat) = some old := by
        rw [← hm.current, slot_of_fileClose hclose]
        exact hold
      have hm₄ := hm.trans (hm₃.trans (Moved.empty hc (by omega) hslot))
      rw [neg_add_cancel, add_zero, ← hcur] at hm₄
      exact hreg _ (hcur ▸ hm₄) h₃

theorem sysFcntl_moved {x cmd y r : ℤ} (h : sysFcntl x cmd y s = .ok (r, s'))
    (hy : ∀ fd, cmd ≠ 2 → cmd ≠ 3 → cmd ≠ 4 → s.freeDescriptor (max 0 y).toNat = some fd →
      (fd : ℤ) ≤ nfile) : Moved s.current s s' 0 := by
  rw [sysFcntl] at h
  split at h
  · cases h
    exact .refl
  rename_i hcmd
  obtain ⟨v, s₁, hv, h₁⟩ := bind_eq_ok.mp h
  obtain ⟨rfl, -⟩ := fileByfd_ok hv
  cases v with
  | none => cases h₁
  | some fp =>
    dsimp only at h₁
    split at h₁
    · rw [get_bind] at h₁
      cases hf : s₁.handles fp with
      | none =>
        rw [hf] at h₁
        cases h₁
      | some f =>
        rw [hf] at h₁
        cases h₁
        exact .refl
    · rename_i h3
      obtain ⟨fp', s₂, hdup, h₂⟩ := bind_eq_ok.mp h₁
      obtain ⟨rfl, hm⟩ := fileDup_moved (t := s₁.current + 1) hdup
      obtain ⟨fd, s₃, halloc, hreg⟩ := bind_eq_ok.mp h₂
      rw [allocFd, get_bind] at halloc
      cases hfd : s₂.freeDescriptor (max 0 y).toNat with
      | none =>
        rw [hfd] at halloc
        cases halloc
      | some x =>
        rw [hfd] at halloc
        cases halloc
        have hfd' : s₁.freeDescriptor (max 0 y).toNat = some fd := by
          rw [← hfd, freeDescriptor, freeDescriptor, myTask, myTask, hm.current,
            hm.other s₁.current (by omega)]
        refine (fileDup_moved hdup).2.register hc hreg ?_ fun _ => (freeDescriptor_some hfd).2.2
        exact hy fd (fun he => hcmd (Or.inl he)) h3 (fun he => hcmd (Or.inr he)) hfd'

theorem createPipe_ok {f0 f1 pipe : ℕ} {v : ℤ × ℤ} (h : createPipe f0 f1 pipe s = .ok (v, s')) :
    Moved s.current s s' 0 ∧ s'.ram = s.ram ∧
      s'.myTask.task.pagetable = s.myTask.task.pagetable ∧
      ∃ a b : ℕ, v = (↑a, ↑b) ∧ s.freeDescriptor 0 = some a ∧
        (s.setFd s.current a (some f0)).freeDescriptor 0 = some b := by
  rw [createPipe] at h
  obtain ⟨⟨⟩, s₁, hnew₀, h₁⟩ := bind_eq_ok.mp h
  obtain ⟨⟨⟩, s₂, hnew₁, h₂⟩ := bind_eq_ok.mp h₁
  rw [modify_bind] at h₂
  obtain ⟨fd0, s₄, hreg₀, h₄⟩ := bind_eq_ok.mp h₂
  obtain ⟨fd1, s₅, hreg₁, h₅⟩ := bind_eq_ok.mp h₄
  cases h₅
  have hm₀ := newFile_moved (t := s.current) hnew₀ rfl
  have hm₁ := newFile_moved (t := s.current) hnew₁ rfl
  have hpipes : Quiet s₂ { s₂ with pipes := Function.update s₂.pipes pipe (some ⟨true, true⟩) } :=
    ⟨rfl, rfl, fun _ => rfl, fun _ => rfl⟩
  obtain ⟨-, rfl⟩ := newFile_ok hnew₀
  obtain ⟨-, rfl⟩ := newFile_ok hnew₁
  obtain ⟨a, ha, rfl, rfl⟩ := registerFileHandle_any hreg₀
  obtain ⟨b, hb, rfl, rfl⟩ := registerFileHandle_any hreg₁
  refine ⟨?_, rfl, ?_, a, b, rfl, ha, hb⟩
  · have hq := hm₀.trans (hm₁.trans_zero hpipes.moved)
    have hfill₀ := hq.trans
      (.fill f0 hc (freeDescriptor_some ha).2.1 (freeDescriptor_some ha).2.2)
    have hfill₁ := hfill₀.trans
      (.fill f1 hc (freeDescriptor_some hb).2.1 (freeDescriptor_some hb).2.2)
    rw [add_comm (Pi.single f0 1), add_neg_cancel_right, add_neg_cancel] at hfill₁
    exact hfill₁
  · simp only [myTask, setFd, setProc, Function.update_self]

theorem sysPipe_ok {f0 f1 pipe fdarray : ℕ} {r : ℤ}
    (h : sysPipe f0 f1 pipe fdarray s = .ok (r, s'))
    (hout : ∀ a b, s.freeDescriptor 0 = some a →
      (s.setFd s.current a (some f0)).freeDescriptor 0 = some b →
      ∃ ram, copyoutFds s.ram s.myTask.task.pagetable fdarray (a, b) = .ok (0, ram)) :
    ∃ fds s₁ ram, createPipe f0 f1 pipe s = .ok (fds, s₁) ∧
      copyoutFds s.ram s.myTask.task.pagetable fdarray fds = .ok (0, ram) ∧
      s' = { s₁ with ram := ram } := by
  rw [sysPipe] at h
  obtain ⟨fds, s₁, hpipe, h₁⟩ := bind_eq_ok.mp h
  obtain ⟨-, hram, hpt, a, b, rfl, ha, hb⟩ := createPipe_ok hc hpipe
  obtain ⟨ram, hcopy⟩ := hout a b ha hb
  refine ⟨_, s₁, ram, hpipe, hcopy, ?_⟩
  have hcall : copyoutFds s₁.ram s₁.myTask.task.pagetable fdarray (a, b) = .ok (0, ram) := by
    rw [hram, hpt, hcopy]
  rw [get_bind, bind_of_ok (onRam_of_ok hcall)] at h₁
  cases h₁
  rfl

theorem sysPipe_moved {f0 f1 pipe fdarray : ℕ} {r : ℤ}
    (h : sysPipe f0 f1 pipe fdarray s = .ok (r, s'))
    (hout : ∀ a b, s.freeDescriptor 0 = some a →
      (s.setFd s.current a (some f0)).freeDescriptor 0 = some b →
      ∃ ram, copyoutFds s.ram s.myTask.task.pagetable fdarray (a, b) = .ok (0, ram)) :
    Moved s.current s s' 0 := by
  obtain ⟨fds, s₁, ram, hpipe, -, rfl⟩ := sysPipe_ok hc h hout
  exact (createPipe_ok hc hpipe).1.trans_zero (.of_same rfl (fun _ => rfl) (fun _ => rfl) rfl)

theorem sysClose_moved {x r : ℤ} (h : sysClose x s = .ok (r, s')) : Moved s.current s s' 0 := by
  rw [sysClose] at h
  split at h
  · cases h
    exact .refl
  obtain ⟨⟨⟩, s₁, hclose, h₁⟩ := bind_eq_ok.mp h
  rw [closeByfd] at hclose
  obtain ⟨v, s₂, hv, hclose'⟩ := bind_eq_ok.mp hclose
  obtain ⟨rfl, hslot⟩ := fileByfd_ok hv
  cases v with
  | none => cases hclose'
  | some fp =>
    obtain ⟨-, hlt, hs⟩ := hslot fp rfl
    have hm := fileClose_moved (t := s₂.current) hclose'
    have hfin : s' = s₁.setFd s₁.current x.toNat none := by
      cases h₁
      rfl
    rw [← slot_of_fileClose hclose', ← hm.current] at hs
    have hempty := Moved.empty (hm.current ▸ hc) hlt hs
    rw [← hfin, hm.current] at hempty
    have := hm.trans hempty
    rwa [neg_add_cancel] at this

end Calls

end System

end StartOS
