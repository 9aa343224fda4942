import StartOS.Os.Clone
import StartOS.Os.CopyOut
import StartOS.Os.Ownership
import StartOS.Os.Segments

/-! # What a child has

`fork` fills a slot of the task table from the process that calls it. Every part
of the child is described by what the parent has, so nothing else in the kernel
decides it, except for the fields that `fork` leaves alone.
-/

namespace StartOS

open Hoare MemAllocator

namespace MemAllocator

variable {s s' : MemAllocator} {root va p q : ℕ} {m : ByteMem}

def cell (s : MemAllocator) (root va : ℕ) : Option (UInt8 × ℕ) :=
  if root ≠ 0 ∧ va < maxVa then
    (s.userFrame root va).map fun p => (s.mem (p + va % pgSize), pteFlags (s.leaf root va))
  else none

theorem cell_eq_none (h : va < maxVa → s.userFrame root va = none) : s.cell root va = none := by
  unfold cell
  split
  · rename_i hc
    rw [h hc.2]
    rfl
  · rfl

theorem Space.elsewhere (h : Space s root) (s' : MemAllocator) (hq : s.IsPage q)
    (hnot : q ∉ s.footprint root)
    (hk : s'.kend = s.kend) (hf : s'.freeList = s.freeList)
    (hm : ∀ x, x < q ∨ q + pgSize ≤ x → s'.mem x = s.mem x) :
    Space s' root ∧ s'.footprint root = s.footprint root ∧
      (∀ va, s'.leaf root va = s.leaf root va) ∧
      ∀ p ∈ s.footprint root, ∀ x, p ≤ x → x < p + pgSize → s'.mem x = s.mem x := by
  have hmem : ∀ p ∈ s.footprint root, ∀ x, p ≤ x → x < p + pgSize → s'.mem x = s.mem x := by
    intro p hp x hx hx'
    exact hm x ((h.footprint_isPage hp).disjoint hq (fun he => hnot (he ▸ hp)) hx hx')
  obtain ⟨hs, hfoot, hleaf⟩ := h.of_agree hk (fun p hp => hf ▸ h.footprint_taken hp)
    fun l n hl hn => hmem n (Or.inl ⟨l, hl, hn⟩)
  exact ⟨hs, hfoot, hleaf, hmem⟩

theorem cell_congr (hleaf : ∀ va, s'.leaf root va = s.leaf root va)
    (hmem : ∀ p ∈ s.footprint root, ∀ x, p ≤ x → x < p + pgSize → s'.mem x = s.mem x) :
    s'.cell root va = s.cell root va := by
  unfold cell
  split
  · rename_i hc
    rw [userFrame_congr (hleaf va), hleaf]
    cases hf : s.userFrame root va with
    | none => rfl
    | some p =>
      have hlt : va % pgSize < pgSize := Nat.mod_lt _ (by decide)
      rw [Option.map_some, Option.map_some, hmem p (Or.inr ⟨va, hc.2, hf⟩) _ (by omega) (by omega)]
  · rfl

/-- The pages that are copied have the same bytes and flags, and there are no others. -/
theorem Copies.cell {old new : ℕ} {V : Set ℕ} (h : Copies s s' old new V) (hold : old ≠ 0)
    (hnew : new ≠ 0) (hempty : ∀ va < maxVa, s.userFrame new va = none) :
    (va / pgSize ∈ V → s'.cell new va = s.cell old va) ∧
      (va / pgSize ∉ V → s'.cell new va = none) := by
  have hnone : va < maxVa → ¬(va / pgSize ∈ V ∧ s.userFrame old va ≠ none) →
      s'.userFrame new va = none := fun hva hn =>
    (userFrame_congr (h.only va hva hn)).trans (hempty va hva)
  constructor
  · intro hV
    by_cases hva : va < maxVa
    · cases hf : s.userFrame old va with
      | none => rw [cell_eq_none fun _ => hf, cell_eq_none fun hva => hnone hva fun hn => hn.2 hf]
      | some q =>
        obtain ⟨-, hflags, p, hp, hbytes⟩ := h.copied va hva hV q hf
        unfold MemAllocator.cell
        rw [if_pos ⟨hnew, hva⟩, if_pos ⟨hold, hva⟩, hp, hf, Option.map_some, Option.map_some, hflags,
          hbytes _ (Nat.mod_lt _ (by decide))]
    · rw [cell_eq_none fun hva' => absurd hva' hva, cell_eq_none fun hva' => absurd hva' hva]
  · exact fun hV => cell_eq_none fun hva => hnone hva fun hn => hV hn.1

end MemAllocator

def cstring (str : ByteMem) (n : ℕ) : List UInt8 := (List.range (strnlen str n)).map str

theorem length_cstring (str : ByteMem) (n : ℕ) : (cstring str n).length = strnlen str n := by
  rw [cstring, List.length_map, List.length_range]

theorem strnlen_strnlen (str : ByteMem) (n : ℕ) : strnlen str (strnlen str n) = strnlen str n := by
  induction n generalizing str with
  | zero => rfl
  | succ n ih =>
    by_cases h : str 0 = 0
    · rw [strnlen, if_pos h]
      rfl
    · have hsucc : strnlen str (n + 1) = strnlen (fun i => str (i + 1)) n + 1 := by
        rw [strnlen, if_neg h]
      rw [hsucc, strnlen, if_neg h, ih]

theorem strnlen_congr {dst src : ByteMem} {n : ℕ} (h : ∀ i < strnlen src n, dst i = src i)
    (hend : strnlen src n < n → dst (strnlen src n) = 0) : strnlen dst n = strnlen src n := by
  induction n generalizing dst src with
  | zero => rfl
  | succ n ih =>
    by_cases hz : src 0 = 0
    · have hsrc : strnlen src (n + 1) = 0 := by rw [strnlen, if_pos hz]
      rw [hsrc] at hend ⊢
      rw [strnlen, if_pos (hend (Nat.succ_pos n))]
    · have hsrc : strnlen src (n + 1) = strnlen (fun i => src (i + 1)) n + 1 := by
        rw [strnlen, if_neg hz]
      rw [hsrc] at h hend ⊢
      rw [strnlen, if_neg (by rw [h 0 (Nat.succ_pos _)]; exact hz)]
      rw [ih (fun i hi => h (i + 1) (Nat.succ_lt_succ hi)) fun hlt => hend (Nat.succ_lt_succ hlt)]

theorem cstring_safestrcpy {old src : ByteMem} {n k : ℕ} (hk : strnlen src (k - 1) = strnlen src n) :
    cstring (safestrcpy old src k) n = cstring src n := by
  have hcopy : ∀ i < strnlen src n, safestrcpy old src k i = src i := by
    intro i hi
    rw [safestrcpy, hk, ByteMem.fill_of_not_mem (by omega), ByteMem.blit_of_mem (by omega) (by omega),
      Nat.sub_zero]
  have hlen : strnlen (safestrcpy old src k) n = strnlen src n := by
    refine strnlen_congr hcopy fun _ => ?_
    rw [safestrcpy, hk]
    exact ByteMem.fill_of_mem le_rfl (by split <;> omega)
  rw [cstring, hlen, cstring]
  exact List.map_congr_left fun i hi => hcopy i (List.mem_range.mp hi)

namespace System

variable {s s' : System} {child i k va : ℕ} {r : ℤ}

/-- The slot that `allocTask` returns. -/
def allocated (p : Proc) (trapframe pagetable : ℕ) : Proc :=
  { p with
    trapframe := trapframe
    sigTable := fun _ => 0
    task := { p.task with
      pagetable := pagetable
      vma := fun _ => none
      openFiles := fun _ => none } }

theorem allocTask_eq_ok (h : allocTask s = .ok (some child, s')) :
    ∃ trapframe ram pagetable ram', s.freeTaskSlot = some child ∧ s.ram.alloc = (trapframe, ram) ∧
      trapframe ≠ 0 ∧ ram.taskPagetable s.trampoline trapframe = .ok (pagetable, ram') ∧
      s' = { s.setProc child (allocated (s.taskTable child) trapframe pagetable) with
        ram := { ram' with mem := ram'.mem.fill trapframe 288 0 } } := by
  rw [allocTask, get_bind] at h
  cases hi : s.freeTaskSlot with
  | none =>
    rw [hi] at h
    cases h
  | some i =>
    rw [hi] at h
    cases ha : s.ram.alloc with
    | mk a ram =>
      rw [ha] at h
      cases a with
      | zero => cases h
      | succ n =>
        obtain ⟨⟨⟩, s₀, hset, h₀⟩ := bind_eq_ok.mp h
        cases hset
        obtain ⟨pagetable, s₁, hpage, h₁⟩ := bind_eq_ok.mp h₀
        rw [onRam, get_bind] at hpage
        cases hc : ram.taskPagetable s.trampoline (n + 1) with
        | error e =>
          rw [hc] at hpage
          cases hpage
        | ok q =>
          rw [hc] at hpage
          cases hpage
          cases h₁
          exact ⟨n + 1, ram, q.1, q.2, rfl, rfl, Nat.succ_ne_zero n, hc, rfl⟩

theorem allocTask_eq_some (h : allocTask s = .ok (some child, s')) :
    ∃ trapframe ram pagetable ram', s.freeTaskSlot = some child ∧ s.ram.alloc = (trapframe, ram) ∧
      trapframe ≠ 0 ∧ ram.taskPagetable s.trampoline trapframe = .ok (pagetable, ram') ∧
      s'.current = s.current ∧ s'.vmaTable = s.vmaTable ∧
      s'.ram = { ram' with mem := ram'.mem.fill trapframe 288 0 } ∧
      s'.taskTable = Function.update s.taskTable child
        (allocated (s.taskTable child) trapframe pagetable) := by
  obtain ⟨trapframe, ram, pagetable, ram', hslot, halloc, hne, htable, rfl⟩ := allocTask_eq_ok h
  exact ⟨trapframe, ram, pagetable, ram', hslot, halloc, hne, htable, rfl, rfl, rfl, rfl⟩

theorem copyMemory_eq_ok (h : copyMemory child s = .ok ((), s')) :
    ∃ ram ram', s.ram.userVmCopy s.myTask.task.pagetable (s.root child) s.myTask.task.sz = .ok ram ∧
      ram.copyVmaMem s.vmaTable s.myTask.task (s.root child) = .ok ram' ∧
      s' = { s with ram := ram' } := by
  rw [copyMemory, get_bind, onRam, get_bind] at h
  cases h₁ : s.ram.userVmCopy s.myTask.task.pagetable (s.root child) s.myTask.task.sz with
  | error e =>
    rw [root] at h₁
    rw [h₁] at h
    cases h
  | ok ram =>
    cases h₂ : ram.copyVmaMem s.vmaTable s.myTask.task (s.root child) with
    | error e =>
      rw [root] at h₁ h₂
      rw [h₁, Kernel.ok_bind, h₂] at h
      cases h
    | ok ram' =>
      refine ⟨ram, ram', rfl, h₂, ?_⟩
      rw [root] at h₁ h₂
      rw [h₁, Kernel.ok_bind, h₂] at h
      cases h
      rfl

theorem fork_eq_some (h : fork s = .ok ((child : ℤ), s')) :
    ∃ s₁ s₂ s₃ s₄ s₅, allocTask s = .ok (some child, s₁) ∧ copyMemory child s₁ = .ok ((), s₂) ∧
      copyRecord child s₂ = .ok ((), s₃) ∧
      dupFiles s₃.current child (List.range nofile) s₃ = .ok ((), s₄) ∧
      dupVmas s₃.current child (List.range nommapfile) s₄ = .ok ((), s₅) ∧
      nameChild child s₅ = .ok ((), s') := by
  obtain ⟨v, s₁, halloc, h₁⟩ := bind_eq_ok.mp h
  cases v with
  | none =>
    cases h₁
  | some child' =>
    obtain ⟨⟨⟩, s₂, hmem, h₂⟩ := bind_eq_ok.mp h₁
    obtain ⟨⟨⟩, s₃, hrec, h₃⟩ := bind_eq_ok.mp h₂
    rw [get_bind] at h₃
    obtain ⟨⟨⟩, s₄, hfiles, h₄⟩ := bind_eq_ok.mp h₃
    obtain ⟨⟨⟩, s₅, hvmas, h₅⟩ := bind_eq_ok.mp h₄
    obtain ⟨⟨⟩, s₆, hname, h₆⟩ := bind_eq_ok.mp h₅
    rw [pure_apply, Except.ok.injEq, Prod.mk.injEq, Int.natCast_inj] at h₆
    obtain ⟨rfl, rfl⟩ := h₆
    exact ⟨s₁, s₂, s₃, s₄, s₅, halloc, hmem, hrec, hfiles, hvmas, hname⟩

/-- Slot `child` holds `p`; the memory, the pool and the other slots are as they were. -/
structure Fills (s s' : System) (child : ℕ) (p : Proc) : Prop where
  current : s'.current = s.current
  ram : s'.ram = s.ram
  taskTable : s'.taskTable = Function.update s.taskTable child p

namespace Fills

variable {p : Proc}

theorem slot (h : Fills s s' child p) : s'.taskTable child = p := by
  rw [h.taskTable, Function.update_self]

theorem other (h : Fills s s' child p) (hi : i ≠ child) : s'.taskTable i = s.taskTable i := by
  rw [h.taskTable, Function.update_of_ne hi]

theorem trans {s'' : System} {p' : Proc} (h : Fills s s' child p) (h' : Fills s' s'' child p') :
    Fills s s'' child p' :=
  ⟨h'.current.trans h.current, h'.ram.trans h.ram, by
    rw [h'.taskTable, h.taskTable, Function.update_idem]⟩

end Fills

theorem fileDup_eq_ok {fp a : ℕ} (h : fileDup fp s = .ok (a, s')) :
    a = fp ∧ s'.vmaTable = s.vmaTable ∧ s'.current = s.current ∧ s'.ram = s.ram ∧
      s'.taskTable = s.taskTable := by
  rw [fileDup, get_bind] at h
  cases hf : s.handles fp with
  | none =>
    rw [hf] at h
    cases h
  | some f =>
    rw [hf] at h
    dsimp only at h
    split at h
    · cases h
    · cases h
      exact ⟨rfl, rfl, rfl, rfl, rfl⟩

theorem dupFiles_fills {parent : ℕ} {fds : List ℕ} (hne : parent ≠ child)
    (h : dupFiles parent child fds s = .ok ((), s')) :
    ∃ g : ℕ → Option ℕ, Fills s s' child { s.taskTable child with
        task := { (s.taskTable child).task with openFiles := g } } ∧
      s'.vmaTable = s.vmaTable ∧
      ∀ fd, g fd = if fd ∈ fds then
        ((s.taskTable parent).task.openFiles fd).or ((s.taskTable child).task.openFiles fd)
        else (s.taskTable child).task.openFiles fd := by
  induction fds generalizing s with
  | nil =>
    cases h
    exact ⟨(s'.taskTable child).task.openFiles, ⟨rfl, rfl, (Function.update_eq_self ..).symm⟩, rfl,
      fun fd => rfl⟩
  | cons fd fds ih =>
    rw [dupFiles, get_bind] at h
    cases hfd : (s.taskTable parent).task.openFiles fd with
    | none =>
      rw [hfd] at h
      obtain ⟨g, hfill, hvma, hg⟩ := ih h
      refine ⟨g, hfill, hvma, fun fd' => ?_⟩
      rw [hg]
      by_cases he : fd' = fd
      · subst he
        simp [hfd]
      · simp [he]
    | some fp =>
      rw [hfd] at h
      obtain ⟨fp', s₁, hdup, h₁⟩ := bind_eq_ok.mp h
      obtain ⟨rfl, hvma₁, hcur₁, hram₁, htable₁⟩ := fileDup_eq_ok hdup
      rw [modifyProc, modify_bind] at h₁
      obtain ⟨g, hfill, hvma, hg⟩ := ih h₁
      refine ⟨g, ⟨hfill.current.trans hcur₁, hfill.ram.trans hram₁, ?_⟩, hvma.trans hvma₁,
        fun fd' => ?_⟩
      · rw [hfill.taskTable, setProc_self]
        change Function.update (Function.update s₁.taskTable child _) child _ = _
        rw [Function.update_idem, htable₁]
      · rw [hg, setProc_of_ne hne, setProc_self, htable₁]
        by_cases he : fd' = fd
        · subst he
          simp [hfd]
        · simp [he]

def mapping (s : System) (i k : ℕ) : Option Vma := ((s.taskTable i).task.vma k).map s.vmaTable

def Mapped (s : System) (i : ℕ) : Prop := ∀ k v, s.mapping i k = some v → ¬v.IsUnused

theorem mapping_update {q : ℕ} {v : Vma} (hs : s.Mapped i) (hq : (s.vmaTable q).IsUnused)
    (htable : s'.taskTable i = s.taskTable i) (hvma : s'.vmaTable = Function.update s.vmaTable q v) :
    s'.mapping i k = s.mapping i k := by
  unfold mapping
  rw [htable, hvma]
  cases hk : (s.taskTable i).task.vma k with
  | none => rfl
  | some p =>
    have hne : p ≠ q := by
      rintro rfl
      exact hs k _ (by rw [mapping, hk]; rfl) hq
    rw [Option.map_some, Option.map_some, Function.update_of_ne hne]

theorem inodeDup_eq_ok {ip a : ℕ} (h : inodeDup ip s = .ok (a, s')) :
    s'.vmaTable = s.vmaTable ∧ s'.current = s.current ∧ s'.ram = s.ram ∧
      s'.taskTable = s.taskTable := by
  cases h
  exact ⟨rfl, rfl, rfl, rfl⟩

/-- `child->vma[j] = x`. -/
def withVma (p : Proc) (j : ℕ) (x : Option ℕ) : Proc :=
  { p with task := { p.task with vma := Function.update p.task.vma j x } }

theorem mapping_withVma {p : Proc} {j : ℕ} {x : Option ℕ} :
    (s.setProc child (withVma p j x)).mapping child k =
      if k = j then x.map s.vmaTable else (p.task.vma k).map s.vmaTable := by
  rw [mapping, setProc_self]
  change (Function.update p.task.vma j x k).map s.vmaTable = _
  split
  · rename_i hk
    rw [hk, Function.update_self]
  · rw [Function.update_of_ne ‹_›]

theorem dupVmas_cons {parent j : ℕ} {is : List ℕ} (hne : parent ≠ child)
    (h : dupVmas parent child (j :: is) s = .ok ((), s')) :
    ∃ s₁ x, Fills s s₁ child (withVma (s.taskTable child) j x) ∧
      dupVmas parent child is s₁ = .ok ((), s') ∧
      (s.Mapped parent → s.Mapped child → ∀ k, s₁.mapping parent k = s.mapping parent k ∧
        s₁.mapping child k = if k = j then s.mapping parent j else s.mapping child k) := by
  rw [dupVmas, get_bind] at h
  cases hj : (s.taskTable parent).task.vma j with
  | none =>
    rw [hj] at h
    obtain ⟨⟨⟩, s₁, hset, hrest⟩ := bind_eq_ok.mp h
    cases hset
    refine ⟨s.setProc child (withVma (s.taskTable child) j none), none, ⟨rfl, rfl, rfl⟩, hrest,
      fun hp hc k => ⟨?_, ?_⟩⟩
    · unfold mapping
      rw [setProc_of_ne hne]
      rfl
    · rw [mapping_withVma, mapping, hj]
      rfl
  | some p =>
    rw [hj] at h
    obtain ⟨q, s₁, halloc, h₁⟩ := bind_eq_ok.mp h
    obtain ⟨rfl, hq⟩ := onMachine_allocVma halloc
    have hunused := (Finset.mem_filter.mp (mem_of_freeVma hq)).2
    obtain ⟨⟨⟩, s₂, hset, h₂⟩ := bind_eq_ok.mp h₁
    cases hset
    have hrest : ∀ s₃ : System, s₃.vmaTable = Function.update s₁.vmaTable q (s₁.vmaTable p) →
        s₃.current = s₁.current → s₃.ram = s₁.ram → s₃.taskTable = s₁.taskTable →
        (do modifyProc child fun pr => { pr with task := { pr.task with
              vma := Function.update pr.task.vma j (some q) } }
            dupVmas parent child is : OsM Unit) s₃ = .ok ((), s') →
        ∃ s₄ x, Fills s₁ s₄ child (withVma (s₁.taskTable child) j x) ∧
          dupVmas parent child is s₄ = .ok ((), s') ∧
          (s₁.Mapped parent → s₁.Mapped child → ∀ k, s₄.mapping parent k = s₁.mapping parent k ∧
            s₄.mapping child k = if k = j then s₁.mapping parent j else s₁.mapping child k) := by
      intro s₃ hvma hcur hram htable h₃
      rw [modifyProc, modify_bind, htable] at h₃
      refine ⟨s₃.setProc child (withVma (s₁.taskTable child) j (some q)), some q, ⟨hcur, hram, ?_⟩, h₃,
        fun hp hc k => ⟨?_, ?_⟩⟩
      · rw [← htable]
        rfl
      · refine mapping_update hp hunused ?_ hvma
        rw [setProc_of_ne hne, htable]
      · rw [mapping_withVma]
        split
        · rw [Option.map_some, hvma, Function.update_self, mapping, hj]
          rfl
        · have hkept : s₃.mapping child k = s₁.mapping child k :=
            mapping_update hc hunused (by rw [htable]) hvma
          rw [← hkept, mapping, htable]
    cases hip : (s₁.vmaTable p).ip with
    | none =>
      rw [hip] at h₂
      exact hrest { s₁ with vmaTable := Function.update s₁.vmaTable q (s₁.vmaTable p) } rfl rfl rfl rfl
        h₂
    | some ip =>
      rw [hip] at h₂
      obtain ⟨x, s₃, hdup, h₃⟩ := bind_eq_ok.mp h₂
      obtain ⟨hvma, hcur, hram, htable⟩ := inodeDup_eq_ok hdup
      exact hrest s₃ hvma hcur hram htable h₃

theorem dupVmas_fills {parent : ℕ} {is : List ℕ} (hne : parent ≠ child)
    (h : dupVmas parent child is s = .ok ((), s')) :
    ∃ g : ℕ → Option ℕ, Fills s s' child { s.taskTable child with
        task := { (s.taskTable child).task with vma := g } } ∧
      (s.Mapped parent → s.Mapped child → ∀ k, s'.mapping parent k = s.mapping parent k ∧
        s'.mapping child k = if k ∈ is then s.mapping parent k else s.mapping child k) := by
  induction is generalizing s with
  | nil =>
    cases h
    exact ⟨(s'.taskTable child).task.vma, ⟨rfl, rfl, (Function.update_eq_self ..).symm⟩,
      fun _ _ _ => ⟨rfl, rfl⟩⟩
  | cons j is ih =>
    obtain ⟨s₁, x, hfill₁, hrest, hmaps₁⟩ := dupVmas_cons hne h
    obtain ⟨g, hfill, hmaps⟩ := ih hrest
    refine ⟨g, ?_, fun hp hc k => ?_⟩
    · have := hfill₁.trans hfill
      rw [hfill₁.slot] at this
      exact this
    · have hp₁ : s₁.Mapped parent := fun k v hv => hp k v (by rw [← (hmaps₁ hp hc k).1, hv])
      have hc₁ : s₁.Mapped child := by
        intro k v hv
        rw [(hmaps₁ hp hc k).2] at hv
        split at hv
        · exact hp j v hv
        · exact hc k v hv
      obtain ⟨hpar, hchild⟩ := hmaps hp₁ hc₁ k
      rw [hpar, hchild, (hmaps₁ hp hc k).1, (hmaps₁ hp hc k).2]
      refine ⟨rfl, ?_⟩
      by_cases he : k = j
      · subst he
        simp
      · simp [he]

/-- The slot of a child: the fields that `fork` stores come from the parent `me`, the others from
the process before it. -/
structure ChildOf (parent : ℕ) (me old new : Proc) : Prop where
  state : new.state = .runnable
  parent : new.parent = some parent
  killed : new.killed = old.killed
  xstate : new.xstate = old.xstate
  sigTable : new.sigTable = me.sigTable
  cwd : new.cwd = me.cwd
  currentDir : new.currentDir =
    safestrcpy old.currentDir me.currentDir (strnlen me.currentDir 64 + 1)
  name : new.name = (copyName old.name me.name me.task.sz).1
  sz : new.task.sz = (copyName old.name me.name me.task.sz).2
  openFiles : ∀ fd, new.task.openFiles fd = if fd < nofile then me.task.openFiles fd else none

/-- The memory of a child: the frame of its trapframe, its table, the pages that are copied and
the registers. -/
structure CopiesMemory (s s' : System) (child frame : ℕ) (ram ram₁ ram₂ ram₃ : MemAllocator) :
    Prop where
  alloc : s.ram.alloc = (frame, ram)
  frame_ne : frame ≠ 0
  table : ram.taskPagetable s.trampoline frame = .ok (s'.root child, ram₁)
  pages : ({ ram₁ with mem := ram₁.mem.fill frame 288 0 } : MemAllocator).userVmCopy
    s.myTask.task.pagetable (s'.root child) s.myTask.task.sz = .ok ram₂
  mappings : ram₂.copyVmaMem s.vmaTable s.myTask.task (s'.root child) = .ok ram₃
  registers : ∃ m : ByteMem, s'.ram = { ram₃ with mem := m } ∧
    ∀ x, x < frame ∨ frame + pgSize ≤ x → m x = ram₃.mem x

/-- The slot of the child after `copyRecord`. -/
def recorded (parent : ℕ) (me p : Proc) : Proc :=
  { p with
    parent := some parent
    cwd := me.cwd
    sigTable := me.sigTable
    task := { p.task with sz := me.task.sz } }

/-- `copyRecord` stores the fields of the child and its registers, and takes a reference to the
directory. -/
theorem copyRecord_eq_ok (h : copyRecord child s = .ok ((), s')) :
    ∃ (ip : ℕ) (m : ByteMem), s.myTask.cwd = some ip ∧
      s' = { s.setProc child (recorded s.current s.myTask (s.taskTable child)) with
        ram := { s.ram with mem := m }
        iref := Function.update s.iref ip (s.iref ip + 1) } ∧
      ∀ x, x < (s.taskTable child).trapframe ∨ (s.taskTable child).trapframe + pgSize ≤ x →
        m x = s.ram.mem x := by
  rw [copyRecord, get_bind] at h
  cases hcwd : s.myTask.cwd with
  | none =>
    simp only [hcwd] at h
    cases h
  | some ip =>
    simp only [hcwd] at h
    cases h
    refine ⟨ip, _, rfl, by rw [recorded, hcwd]; rfl, fun x hx => ?_⟩
    have hsize : pgSize = 4096 := rfl
    rw [ByteMem.fill_of_not_mem (by omega), ByteMem.blit_of_not_mem (by omega)]

theorem copyRecord_fills (h : copyRecord child s = .ok ((), s')) :
    s.myTask.cwd ≠ none ∧ s'.current = s.current ∧ s'.vmaTable = s.vmaTable ∧
      s'.taskTable = Function.update s.taskTable child
        (recorded s.current s.myTask (s.taskTable child)) ∧
      ∃ m : ByteMem, s'.ram = { s.ram with mem := m } ∧
        ∀ x, x < (s.taskTable child).trapframe ∨ (s.taskTable child).trapframe + pgSize ≤ x →
          m x = s.ram.mem x := by
  obtain ⟨ip, m, hcwd, rfl, hm⟩ := copyRecord_eq_ok h
  exact ⟨by rw [hcwd]; exact Option.some_ne_none ip, rfl, rfl, rfl, m, rfl, hm⟩

/-- The slot of the child after `nameChild`. -/
def named (me p : Proc) : Proc :=
  { p with
    currentDir := safestrcpy p.currentDir me.currentDir (strnlen me.currentDir 64 + 1)
    name := (copyName p.name me.name p.task.sz).1
    state := .runnable
    task := { p.task with sz := (copyName p.name me.name p.task.sz).2 } }

theorem nameChild_fills (h : nameChild child s = .ok ((), s')) :
    Fills s s' child (named s.myTask (s.taskTable child)) ∧ s'.vmaTable = s.vmaTable := by
  cases h
  exact ⟨⟨rfl, rfl, rfl⟩, rfl⟩

/-- What `fork` does to the slots, to the mappings and to the memory. -/
theorem fork_spec (hrun : s.myTask.state = .running) (h : fork s = .ok ((child : ℤ), s')) :
    s.freeTaskSlot = some child ∧ child ≠ s.current ∧ s'.current = s.current ∧
      (∀ i, i ≠ child → s'.taskTable i = s.taskTable i) ∧
      ChildOf s.current s.myTask (s.taskTable child) (s'.taskTable child) ∧
      (s.Mapped s.current → ∀ k,
        s'.mapping child k = if k < nommapfile then s.mapping s.current k else none) ∧
      ∃ frame ram ram₁ ram₂ ram₃, s'.frame child = frame ∧
        CopiesMemory s s' child frame ram ram₁ ram₂ ram₃ := by
  obtain ⟨s₁, s₂, s₃, s₄, s₅, halloc, hmem, hrec, hfiles, hvmas, hname⟩ := fork_eq_some h
  obtain ⟨frame, ram, pagetable, ram₁, hslot, hframe, hzero, htable, hcur₁, hvma₁, hram₁, htable₁⟩ :=
    allocTask_eq_some halloc
  have hne : child ≠ s.current := by
    rintro rfl
    exact absurd (hrun.symm.trans (freeTaskSlot_some hslot).2) (by decide)
  obtain ⟨ram₂, ram₃, hpages, hmaps, rfl⟩ := copyMemory_eq_ok hmem
  obtain ⟨hcwd, hcur₃, hvma₃, htable₃, m, hram₃, hm⟩ := copyRecord_fills hrec
  have hme₁ : s₁.myTask = s.myTask := by
    rw [myTask, hcur₁, htable₁, Function.update_of_ne hne.symm]
    rfl
  have hslot₁ : s₁.taskTable child = allocated (s.taskTable child) frame pagetable := by
    rw [htable₁, Function.update_self]
  have hroot₁ : s₁.root child = pagetable := by rw [root, hslot₁]; rfl
  have hcur : s₃.current = s.current := hcur₃.trans hcur₁
  rw [hcur] at hfiles hvmas
  obtain ⟨g, hfill₄, hvma₄, hg⟩ := dupFiles_fills hne.symm hfiles
  obtain ⟨v, hfill₅, hmaps₅⟩ := dupVmas_fills hne.symm hvmas
  obtain ⟨hfill₆, hvma₆⟩ := nameChild_fills hname
  have hfill := (hfill₄.trans hfill₅).trans hfill₆
  have hother : ∀ i, i ≠ child → s₃.taskTable i = s.taskTable i := by
    intro i hi
    rw [htable₃, Function.update_of_ne hi]
    change s₁.taskTable i = _
    rw [htable₁, Function.update_of_ne hi]
  have hslot₃ : s₃.taskTable child =
      recorded s.current s.myTask (allocated (s.taskTable child) frame pagetable) := by
    rw [htable₃, Function.update_self]
    change recorded s₁.current s₁.myTask (s₁.taskTable child) = _
    rw [hcur₁, hme₁, hslot₁]
  have hme₅ : s₅.myTask = s.myTask := by
    rw [myTask, (hfill₄.trans hfill₅).current, hcur, (hfill₄.trans hfill₅).other hne.symm,
      hother _ hne.symm]
    rfl
  have hnew : s'.taskTable child = named s.myTask { recorded s.current s.myTask
      (allocated (s.taskTable child) frame pagetable) with
        task := ⟨pagetable, g, v, s.myTask.task.sz⟩ } := by
    rw [hfill₆.slot, hme₅, hfill₅.slot, hfill₄.slot, hslot₃]
    rfl
  refine ⟨hslot, hne, ?_, fun i hi => ?_, ?_, fun hp k => ?_, frame, ram, ram₁, ram₂, ram₃, ?_, ?_⟩
  · exact hfill.current.trans hcur
  · rw [hfill.other hi, hother i hi]
  · rw [hnew]
    refine ⟨rfl, rfl, rfl, rfl, rfl, rfl, rfl, rfl, rfl, fun fd => ?_⟩
    change g fd = _
    rw [hg, hother _ hne.symm, hslot₃]
    change (if fd ∈ List.range nofile then (s.myTask.task.openFiles fd).or none else none) = _
    simp only [List.mem_range, Option.or_none]
  · have hvma : s₄.vmaTable = s.vmaTable := (hvma₄.trans hvma₃).trans hvma₁
    have hpar : ∀ k, s₄.mapping s.current k = s.mapping s.current k := by
      intro k
      rw [mapping, mapping, hvma, hfill₄.other hne.symm, hother _ hne.symm]
    have hchild : ∀ k, s₄.mapping child k = none := by
      intro k
      rw [mapping, hfill₄.slot, hslot₃]
      rfl
    have hp₄ : s₄.Mapped s.current := fun k v hv => hp k v (by rw [← hpar, hv])
    have hc₄ : s₄.Mapped child := fun k v hv => by rw [hchild] at hv; cases hv
    have hlast : s'.mapping child k = s₅.mapping child k := by
      rw [mapping, mapping, hvma₆, hfill₆.slot]
      rfl
    rw [hlast, (hmaps₅ hp₄ hc₄ k).2, hpar, hchild]
    simp only [List.mem_range]
  · rw [System.frame, hnew]
    rfl
  · have hroot : s'.root child = pagetable := by
      rw [root, hnew]
      rfl
    refine ⟨hframe, hzero, hroot ▸ htable, ?_, ?_, m, ?_, fun x hx => hm x ?_⟩
    · rw [hroot, ← hram₁, ← hme₁, ← hroot₁]
      exact hpages
    · rw [hroot, ← hvma₁, ← hme₁, ← hroot₁]
      exact hmaps
    · rw [hfill.ram, hram₃]
    · have hframe₂ : (s₁.taskTable child).trapframe = frame := by
        rw [hslot₁]
        rfl
      change x < (s₁.taskTable child).trapframe ∨ (s₁.taskTable child).trapframe + pgSize ≤ x
      rwa [hframe₂]

/-- The memory of the running process is as it should be. -/
structure Ready (s : System) : Prop where
  wf : s.ram.WellFormed
  trampoline : s.trampoline < 2 ^ 64
  space : Space s.ram (s.root s.current)
  aligned : s.myTask.task.Aligned s.vmaTable
  mapped : s.Mapped s.current

theorem Ready.root_ne (h : s.Ready) : s.root s.current ≠ 0 := by
  have := h.space.table.pos h.wf (l := []) (by simp) rfl
  omega

namespace CopiesMemory

variable {frame : ℕ} {ram ram₁ ram₂ ram₃ : MemAllocator} {O : Set ℕ}
  (h : CopiesMemory s s' child frame ram ram₁ ram₂ ram₃) (hs : s.Ready)

def before (frame : ℕ) (ram₁ : MemAllocator) : MemAllocator :=
  { ram₁ with mem := ram₁.mem.fill frame 288 0 }

theorem before_mem {x : ℕ} (hx : x < frame ∨ frame + pgSize ≤ x) :
    (before frame ram₁).mem x = ram₁.mem x :=
  ByteMem.fill_of_not_mem (by simp only [pgSize] at hx; omega)

include h hs

theorem taken : Taken s.ram ram frame := by
  rcases alloc_cases hs.wf with ⟨-, he⟩ | ⟨p, r, he, -, ht⟩
  · rw [h.alloc, Prod.mk.injEq] at he
    exact absurd he.1 h.frame_ne
  · rw [h.alloc, Prod.mk.injEq] at he
    obtain ⟨rfl, rfl⟩ := he
    exact ht

theorem parent_space (hm : Moves ram ram₁ ∅ O) :
    Space (before frame ram₁) (s.root s.current) ∧
      (before frame ram₁).footprint (s.root s.current) = s.ram.footprint (s.root s.current) ∧
      ∀ va, (before frame ram₁).cell (s.root s.current) va = s.ram.cell (s.root s.current) va := by
  have ht := h.taken hs
  have hpage := ht.isPage hs.wf
  obtain ⟨hs₁, hfoot₁, hnot, hleaf₁⟩ := ht.space hs.wf hs.space
  obtain ⟨hs₂, hfoot₂, hleaf₂, hmem₂⟩ := hm.frame (fun q hq => absurd hq (Set.notMem_empty q))
    (ht.wellFormed hs.wf) hs₁ fun p _ => Set.notMem_empty p
  have hpage₂ : ram₁.IsPage frame := hpage.of_kend (hm.kend.trans ht.kend)
  obtain ⟨hs₃, hfoot₃, hleaf₃, hmem₃⟩ := hs₂.elsewhere (before frame ram₁) hpage₂
    (by rwa [hfoot₂, hfoot₁]) rfl rfl fun _ => before_mem
  refine ⟨hs₃, (hfoot₃.trans hfoot₂).trans hfoot₁, fun va => cell_congr (fun va => ?_) ?_⟩
  · rw [hleaf₃, hleaf₂, hleaf₁]
  · intro p hp x hx hx'
    have hp₁ : p ∈ ram.footprint (s.root s.current) := by rwa [hfoot₁]
    have hp₂ : p ∈ ram₁.footprint (s.root s.current) := by rwa [hfoot₂]
    rw [hmem₃ p hp₂ x hx hx', hmem₂ p hp₁ x hx hx']
    exact ht.mem x ((hs.space.footprint_isPage hp).disjoint hpage (fun he => hnot (he ▸ hp)) hx hx')

theorem apart (hnew : NewTable ram ram₁ (s'.root child)) :
    Apart (before frame ram₁) (s.root s.current) (s'.root child) ∧
      (∀ va < maxVa, (before frame ram₁).userFrame (s'.root child) va = none) ∧
      frame ∉ (before frame ram₁).footprint (s'.root child) ∧ frame ∉ ram₁.freeList := by
  have ht := h.taken hs
  have hfree : ∀ p, p ∈ ram₁.footprint (s'.root child) ∨ p ∈ ram₁.freeList → p ∈ ram.freeList :=
    fun p hp => (hnew.moves.frames p hp).resolve_left (Set.notMem_empty p)
  have hnot : frame ∉ ram₁.footprint (s'.root child) := fun hp =>
    ht.notMem hs.wf (hfree frame (Or.inl hp))
  have hpage₁ : ram₁.IsPage frame := (ht.isPage hs.wf).of_kend (hnew.moves.kend.trans ht.kend)
  obtain ⟨hs₁, hfoot₁, hleaf₁, -⟩ := hnew.space.elsewhere (before frame ram₁) hpage₁ hnot rfl
    rfl fun _ => before_mem
  obtain ⟨hp, hfoot, -⟩ := h.parent_space hs hnew.moves
  have hwf := hnew.moves.wf
  refine ⟨⟨⟨hwf.kend_pos, hwf.nodup, fun p hp => (hwf.isPage p hp).of_kend rfl⟩, hp, hs₁, ?_⟩,
    fun va hva => (userFrame_congr (hleaf₁ va)).trans (hnew.user va hva), by rwa [hfoot₁],
    fun hf => ht.notMem hs.wf (hfree frame (Or.inr hf))⟩
  intro p hp hp'
  rw [hfoot] at hp
  rw [hfoot₁] at hp'
  exact hs.space.footprint_taken hp (ht.sub (hfree p (Or.inl hp')))

theorem copies (hroot : s'.root child ≠ 0) (hnew : NewTable ram ram₁ (s'.root child)) :
    Copies (before frame ram₁) ram₃ (s.root s.current) (s'.root child)
      (forkPages s.vmaTable s.myTask.task) := by
  obtain ⟨hapart, hempty, -⟩ := h.apart hs hnew
  rcases copyTask_spec hroot hs.aligned hapart hempty with ⟨r₂, r₃, he₂, he₃, hc⟩ | ⟨e, herr, -⟩
  · obtain rfl : r₂ = ram₂ := Except.ok.inj (he₂.symm.trans h.pages)
    obtain rfl : r₃ = ram₃ := Except.ok.inj (he₃.symm.trans h.mappings)
    exact hc
  · have hpages : (before frame ram₁).userVmCopy _ _ _ = _ := h.pages
    rw [hpages, Kernel.ok_bind, h.mappings] at herr
    cases herr

theorem registers_space (hroot : s'.root child ≠ 0) (hnew : NewTable ram ram₁ (s'.root child)) :
    Space s'.ram (s'.root child) ∧ s'.ram.footprint (s'.root child) = ram₃.footprint (s'.root child) ∧
      (∀ va, s'.ram.leaf (s'.root child) va = ram₃.leaf (s'.root child) va) ∧
      ∀ p ∈ ram₃.footprint (s'.root child), ∀ x, p ≤ x → x < p + pgSize →
        s'.ram.mem x = ram₃.mem x := by
  have ht := h.taken hs
  obtain ⟨-, -, hnot, hfree⟩ := h.apart hs hnew
  have hc := h.copies hs hroot hnew
  obtain ⟨m, hram, hm⟩ := h.registers
  rw [hram]
  have hnot₃ : frame ∉ ram₃.footprint (s'.root child) := fun hp =>
    (hc.acts.moves.frames frame (Or.inl hp)).elim hnot hfree
  have hpage₃ : ram₃.IsPage frame := (ht.isPage hs.wf).of_kend
    ((hc.acts.moves.kend.trans hnew.moves.kend).trans ht.kend)
  exact hc.acts.space.elsewhere { ram₃ with mem := m } hpage₃ hnot₃ rfl rfl hm

/-- The pages that `fork` visits are the same in the child, and it has no others. -/
theorem cell (va : ℕ) :
    (va / pgSize ∈ forkPages s.vmaTable s.myTask.task →
        s'.ram.cell (s'.root child) va = s.ram.cell (s.root s.current) va) ∧
      (va / pgSize ∉ forkPages s.vmaTable s.myTask.task →
        s'.ram.cell (s'.root child) va = none) := by
  have ht := h.taken hs
  have hpage := ht.isPage hs.wf
  have hlt : frame < 2 ^ 64 := hpage.lt_top.trans (by decide)
  rcases taskPagetable_spec (ht.wellFormed hs.wf) hs.trampoline hlt with
    ⟨-, r, he, hm, -⟩ | ⟨root, r, he, hroot, hnew⟩
  · rw [h.table, Except.ok.injEq, Prod.mk.injEq] at he
    obtain ⟨hroot, rfl⟩ := he
    have hpages := h.pages
    have hmaps := h.mappings
    rw [hroot] at hpages hmaps ⊢
    obtain ⟨-, hnone⟩ := copyTask_null hs.aligned hpages hmaps
    obtain ⟨-, -, hcell⟩ := h.parent_space hs hm
    have hzero : s'.ram.cell 0 va = none := if_neg fun hc => hc.1 rfl
    refine ⟨fun hV => ?_, fun _ => hzero⟩
    rw [hzero, ← hcell]
    exact (cell_eq_none fun _ => hnone va hV).symm
  · rw [h.table, Except.ok.injEq, Prod.mk.injEq] at he
    obtain ⟨rfl, rfl⟩ := he
    obtain ⟨-, hempty, -⟩ := h.apart hs hnew
    obtain ⟨-, -, hcell⟩ := h.parent_space hs hnew.moves
    obtain ⟨-, -, hleaf, hmem⟩ := h.registers_space hs hroot hnew
    rw [cell_congr hleaf hmem, ← hcell]
    exact (h.copies hs hroot hnew).cell hs.root_ne hroot hempty

end CopiesMemory

/-- What a process can see of itself that a child gets from its parent. -/
structure Inherited where
  sigTable : ByteMem
  openFiles : ℕ → Option ℕ
  mappings : ℕ → Option Vma
  name : List UInt8
  currentDir : List UInt8
  cwd : Option ℕ
  sz : ℤ
  memory : ℕ → Option (UInt8 × ℕ)

def inherited (s : System) (i : ℕ) : Inherited where
  sigTable := (s.taskTable i).sigTable
  openFiles fd := if fd < nofile then (s.taskTable i).task.openFiles fd else none
  mappings k := if k < nommapfile then s.mapping i k else none
  name := cstring (s.taskTable i).name 16
  currentDir := cstring (s.taskTable i).currentDir 64
  cwd := (s.taskTable i).cwd
  sz := (s.taskTable i).task.sz
  memory va := s.ram.cell (s.root i) va

namespace ChildOf

variable {p : ℕ} {me old new : Proc} (h : ChildOf p me old new)

include h

theorem cstring_name : cstring new.name 16 = cstring me.name 16 := by
  rw [h.name]
  exact cstring_safestrcpy rfl

theorem cstring_currentDir : cstring new.currentDir 64 = cstring me.currentDir 64 := by
  rw [h.currentDir]
  exact cstring_safestrcpy (strnlen_strnlen me.currentDir 64)

theorem sz_eq : new.task.sz =
    if (cstring me.name 16).length < 15 then me.task.sz else me.task.sz - me.task.sz % 256 := by
  rw [h.sz, length_cstring]
  rfl

end ChildOf

theorem mem_forkPages_inherited {j : ℕ} : j ∈ forkPages s.vmaTable s.myTask.task ↔
    (j < 2 ^ 19 ∧ ((j * 4096 : ℕ) : ℤ) < (s.inherited s.current).sz) ∨
      ∃ k v, (s.inherited s.current).mappings k = some v ∧
        toU64 (s.inherited s.current).sz ≤ v.addr ∧ j ∈ vmaPages v := by
  rw [mem_forkPages]
  refine or_congr_right ?_
  constructor
  · rintro ⟨k, hk, v, hv, hrest⟩
    exact ⟨k, v, (if_pos hk).trans hv, hrest⟩
  · rintro ⟨k, v, hv, hrest⟩
    have hk : k < nommapfile := by
      by_contra hk
      rw [show (s.inherited s.current).mappings k = none from if_neg hk] at hv
      cases hv
    exact ⟨k, hk, v, (if_pos hk).symm.trans hv, hrest⟩

/-- What a child gets does not depend on the rest of the kernel. -/
theorem fork_inherited {s₁ s₂ s₁' s₂' : System} (hrun₁ : s₁.myTask.state = .running)
    (hrun₂ : s₂.myTask.state = .running) (hs₁ : s₁.Ready) (hs₂ : s₂.Ready)
    (hsame : s₁.inherited s₁.current = s₂.inherited s₂.current)
    (h₁ : fork s₁ = .ok ((child : ℤ), s₁')) (h₂ : fork s₂ = .ok ((child : ℤ), s₂')) :
    s₁'.inherited child = s₂'.inherited child := by
  obtain ⟨-, -, -, -, hc₁, hm₁, _, _, _, _, _, -, hmem₁⟩ := fork_spec hrun₁ h₁
  obtain ⟨-, -, -, -, hc₂, hm₂, _, _, _, _, _, -, hmem₂⟩ := fork_spec hrun₂ h₂
  have hpages : ∀ j, j ∈ forkPages s₁.vmaTable s₁.myTask.task ↔
      j ∈ forkPages s₂.vmaTable s₂.myTask.task := fun j => by
    rw [mem_forkPages_inherited, mem_forkPages_inherited, hsame]
  obtain ⟨hsig, hfiles, hmaps, hname, hdir, hcwd, hsz, hmemory⟩ := Inherited.mk.inj hsame
  have hmyTask : ∀ s : System, s.taskTable s.current = s.myTask := fun _ => rfl
  simp only [hmyTask] at hsig hfiles hname hdir hcwd hsz
  rw [inherited, inherited, Inherited.mk.injEq]
  refine ⟨?_, ?_, ?_, ?_, ?_, ?_, ?_, ?_⟩
  · rw [hc₁.sigTable, hc₂.sigTable, hsig]
  · funext fd
    have := congrFun hfiles fd
    by_cases hfd : fd < nofile
    · simp only [if_pos hfd, hc₁.openFiles, hc₂.openFiles] at this ⊢
      exact this
    · rw [if_neg hfd, if_neg hfd]
  · funext k
    have := congrFun hmaps k
    by_cases hk : k < nommapfile
    · simp only [if_pos hk, hm₁ hs₁.mapped, hm₂ hs₂.mapped] at this ⊢
      exact this
    · rw [if_neg hk, if_neg hk]
  · rw [hc₁.cstring_name, hc₂.cstring_name, hname]
  · rw [hc₁.cstring_currentDir, hc₂.cstring_currentDir, hdir]
  · rw [hc₁.cwd, hc₂.cwd, hcwd]
  · rw [hc₁.sz_eq, hc₂.sz_eq, hname, hsz]
  · funext va
    obtain ⟨hin₁, hout₁⟩ := hmem₁.cell hs₁ va
    obtain ⟨hin₂, hout₂⟩ := hmem₂.cell hs₂ va
    by_cases hV : va / pgSize ∈ forkPages s₁.vmaTable s₁.myTask.task
    · rw [hin₁ hV, hin₂ ((hpages _).mp hV)]
      exact congrFun hmemory va
    · rw [hout₁ hV, hout₂ fun hV' => hV ((hpages _).mpr hV')]

end System

end StartOS
