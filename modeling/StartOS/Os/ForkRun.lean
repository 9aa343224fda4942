import StartOS.Os.CallTurns
import StartOS.Os.FilesSame
import StartOS.Os.ForkFailure

/-! # What fork keeps

A call of `fork` that returns -1 changes nothing. Otherwise it is a turn of the
child, whose mappings and descriptors are counted as those of its parent are.
-/

namespace StartOS

open Hoare MemAllocator

namespace System

variable {s s' s₀ : System} {child : ℕ} {extra : ℕ → ℕ}

/-- A slot that is not in use has no trapframe that could be lost. -/
theorem Owned.allocTask_none (hs : s.Owned) (h : allocTask s = .ok (none, s')) : s' = s := by
  rw [allocTask, get_bind] at h
  cases hi : s.freeTaskSlot with
  | none =>
    rw [hi] at h
    cases h
    rfl
  | some i =>
    rw [hi] at h
    have hframe : (s.taskTable i).trapframe = 0 := (hs.unused i (freeTaskSlot_some hi).2).2
    cases ha : s.ram.alloc with
    | mk a ram =>
      rw [ha] at h
      cases a with
      | zero =>
        cases h
        have hsame : { s.taskTable i with trapframe := 0 } = s.taskTable i := by rw [← hframe]
        change s.setProc i { s.taskTable i with trapframe := 0 } = s
        rw [hsame]
        unfold System.setProc
        rw [Function.update_eq_self]
      | succ n =>
        obtain ⟨⟨⟩, s₁, hset, h₁⟩ := bind_eq_ok.mp h
        obtain ⟨pagetable, s₂, hpage, h₂⟩ := bind_eq_ok.mp h₁
        cases h₂

theorem Owned.fork_cases (hs : s.Owned) {r : ℤ} (h : fork s = .ok (r, s')) :
    s' = s ∨ ∃ child : ℕ, fork s = .ok ((child : ℤ), s') := by
  have hfork := h
  obtain ⟨v, s₁, halloc, h₁⟩ := bind_eq_ok.mp h
  cases v with
  | none =>
    cases h₁
    exact Or.inl (hs.allocTask_none halloc)
  | some child =>
    right
    obtain ⟨⟨⟩, s₂, -, h₂⟩ := bind_eq_ok.mp h₁
    obtain ⟨⟨⟩, s₃, -, h₃⟩ := bind_eq_ok.mp h₂
    rw [get_bind] at h₃
    obtain ⟨⟨⟩, s₄, -, h₄⟩ := bind_eq_ok.mp h₃
    obtain ⟨⟨⟩, s₅, -, h₅⟩ := bind_eq_ok.mp h₄
    obtain ⟨⟨⟩, s₆, -, h₆⟩ := bind_eq_ok.mp h₅
    cases h₆
    exact ⟨child, hfork⟩

theorem FilesOnly.keeps_dupFiles (parent child : ℕ) (fds : List ℕ) :
    Keeps (FilesOnly s₀) (dupFiles parent child fds) := by
  induction fds with
  | nil => exact .pure ()
  | cons fd fds ih =>
    refine Keeps.bind .get fun s => ?_
    cases (s.taskTable parent).task.openFiles fd with
    | none => exact ih
    | some fp =>
      exact .bind (keeps_fileDup fp) fun fp' =>
        .bind (keeps_modify fun s => .setFd (some fp')) fun _ => ih

theorem EndsOpen.keeps_dupFiles (parent child : ℕ) (fds : List ℕ) :
    Keeps EndsOpen (dupFiles parent child fds) := by
  induction fds with
  | nil => exact .pure ()
  | cons fd fds ih =>
    refine Keeps.bind .get fun s => ?_
    cases (s.taskTable parent).task.openFiles fd with
    | none => exact ih
    | some fp =>
      refine .bind (keeps_fileDup fp) fun fp' => .bind (.modify fun s h => ?_) fun _ => ih
      exact h.congr rfl rfl

/-- The places of the slot that `allocTask` returns are given up. -/
theorem Pool.allocTask (h : s.Pool extra) (hok : allocTask s = .ok (some child, s')) :
    s'.Pool extra ∧ ∀ j, s'.place (child, j) = none := by
  obtain ⟨trapframe, ram, pagetable, ram', -, -, -, -, rfl⟩ := allocTask_eq_ok hok
  have hplace : ∀ k, (s.setProc child (allocated (s.taskTable child) trapframe pagetable)).place k =
      if k.1 = child then none else s.place k := by
    intro k
    unfold place
    split
    · rename_i hk
      rw [hk, setProc_self]
      rfl
    · rw [setProc_of_ne ‹_›]
  refine ⟨h.of_le (fun k p hk => ?_) rfl fun _ => le_rfl, fun j => ?_⟩
  · have hk' := (hplace k).symm.trans hk
    split at hk'
    · cases hk'
    · exact hk'
  · exact (hplace (child, j)).trans (if_pos rfl)

theorem Pool.copyRecord (h : s.Pool extra) (hok : copyRecord child s = .ok ((), s')) :
    s'.Pool extra ∧ s'.place = s.place := by
  obtain ⟨ip, m, -, rfl, -⟩ := copyRecord_eq_ok hok
  have hsame : SamePool s (s.setProc child (recorded s.current s.myTask (s.taskTable child))) :=
    .setProc rfl
  refine ⟨h.of_le (fun k p hk => ?_) rfl fun x => ?_, hsame.place⟩
  · rwa [← hsame.place]
  · change s.iref x ≤ Function.update s.iref ip (s.iref ip + 1) x
    rw [← inodeDup_refs]
    split
    · omega
    · omega

theorem fork_keeps (hp : s.Pool extra) (he : s.EndsOpen) (hok : fork s = .ok ((child : ℤ), s')) :
    s'.Pool extra ∧ s'.EndsOpen ∧ s'.trampoline = s.trampoline := by
  obtain ⟨s₁, s₂, s₃, s₄, s₅, halloc, hmem, hrec, hfiles, hvmas, hname⟩ := fork_eq_some hok
  have hfiles' := FilesOnly.keeps_dupFiles _ _ _ .refl hfiles
  have hvmas' := FilesSame.keeps_dupVmas _ _ _ .refl hvmas
  obtain ⟨hp₁, hnone⟩ := hp.allocTask halloc
  obtain ⟨ram₂, ram₃, -, -, rfl⟩ := copyMemory_eq_ok hmem
  obtain ⟨hp₃, hplace₃⟩ := Pool.copyRecord (s := { s₁ with ram := ram₃ })
    (hp₁.same ⟨rfl, rfl, rfl, rfl⟩) hrec
  obtain ⟨trapframe, ram, pagetable, ram', hslot, -, -, -, rfl⟩ := allocTask_eq_ok halloc
  obtain ⟨ip, m, -, rfl, -⟩ := copyRecord_eq_ok hrec
  have hp₅ := (hp₃.same hfiles'.samePool).dupVmas (freeTaskSlot_some hslot).1 _
    List.nodup_range (fun j hj => List.mem_range.mp hj) (fun j _ => by
      rw [hfiles'.samePool.place, hplace₃]
      exact hnone j) hvmas
  have he₄ := EndsOpen.keeps_dupFiles _ _ _ (he.congr (by rfl) (by rfl)) hfiles
  have he₅ := he₄.congr hvmas'.handles hvmas'.pipes
  have ht : s₅.trampoline = s.trampoline := hvmas'.trampoline.trans hfiles'.trampoline
  cases hname
  exact ⟨hp₅.same (.setProc rfl), he₅.congr rfl rfl, ht⟩

theorem Owned.ready (hs : s.Owned) (hp : s.Pool extra) (hroot : s.root s.current ≠ 0) : s.Ready where
  wf := hs.wf
  trampoline := hs.trampoline
  space := (hs.alive s.current).space hroot
  aligned _ _ _ := hs.aligned _
  mapped := by
    intro k v hv
    obtain ⟨p, hk, rfl⟩ := Option.map_eq_some_iff.mp hv
    exact (hp.closable (s.current, k) p hk).used

theorem Owned.fork_turn (hs : s.Owned) (hp : s.Pool extra) (hroot : s.root s.current ≠ 0)
    (hrun : s.myTask.state = .running) (hroom : 4 ≤ s.ram.freeList.length)
    (hok : fork s = .ok ((child : ℤ), s')) :
    Turn child s s' ∧ s'.Housed child := by
  obtain ⟨hslot, -, -, hother, -, -, frame, ram, ram₁, ram₂, ram₃, hframe, hcopy⟩ :=
    fork_spec hrun hok
  obtain ⟨hturn, hne⟩ := hcopy.turn hs (hs.ready hp hroot)
    (freeTaskSlot_some hslot).2 hframe hother hroom
  refine ⟨hturn, hne, ?_⟩
  rw [hframe]
  exact hcopy.frame_ne

end System

end StartOS
