import StartOS.Os.Recycle

/-! # Fork without memory

What `fork` makes of an allocation that fails. The first one, for the trapframe, is looked
at; a page table that could not be made is stored as null, and a page that cannot be
copied ends the kernel.
-/

namespace StartOS

open Hoare MemAllocator

/-- The ends of the copying loops after `MemAllocator::alloc` has returned null, for a page or for a
node of the table that it is mapped in. -/
def copyPanics (caller : String) : List Halt :=
  [.panic (caller ++ ": alloc mem fail"), .panic (caller ++ ": mappages fail")]

namespace MemAllocator

variable {s : MemAllocator} {old new va : ℕ} {caller : String}

theorem mem_copyPanics {e : Halt} : e ∈ copyPanics caller ↔
    e = .panic (caller ++ ": alloc mem fail") ∨ e = .panic (caller ++ ": mappages fail") := by
  simp [copyPanics]

theorem not_mem_copyPanics {str : String} (h : 16 < str.length) :
    Halt.panic (caller ++ str) ∉ copyPanics caller := by
  rw [mem_copyPanics]
  rintro (he | he)
  · have hlen := congrArg String.length (Halt.panic.inj he)
    rw [String.length_append, String.length_append] at hlen
    have : ": alloc mem fail".length = 16 := by decide
    omega
  · have hlen := congrArg String.length (Halt.panic.inj he)
    rw [String.length_append, String.length_append] at hlen
    have : ": mappages fail".length = 15 := by decide
    omega

theorem remap_not_mem_copyPanics : Halt.panic "remap" ∉ copyPanics caller := by
  rw [mem_copyPanics]
  rintro (he | he)
  · exact panic_append_ne (by decide) he.symm
  · exact panic_append_ne (by decide) he.symm

/-- A turn of the loops ends so exactly when its page is loaded and there are too few frames for the
copy and the nodes on the way to it. -/
theorem copyPage_starves_iff (h : Apart s old new) (hva : va < userTop) (ha : va % pgSize = 0)
    (hnew : new ≠ 0) :
    (∃ e ∈ copyPanics caller, s.copyPage caller old new va = .error e) ↔
      s.userFrame old va ≠ none ∧
        (s.freeList = [] ∨ ¬isValid (s.leaf new va) ∧
        s.freeList.length < s.missing va 2 new + 1) := by
  have hlt : va < maxVa := hva.trans (by decide)
  have hend : ∀ e, s.copyPage caller old new va = .error e →
      ((∃ e ∈ copyPanics caller, s.copyPage caller old new va = .error e) ↔
        e ∈ copyPanics caller) := by
    intro e he
    rw [he]
    constructor
    · rintro ⟨e', hmem, heq⟩
      cases heq
      exact hmem
    · exact fun hmem => ⟨e, hmem, rfl⟩
  have hok : ∀ s', s.copyPage caller old new va = .ok s' →
      ¬∃ e ∈ copyPanics caller, s.copyPage caller old new va = .error e := by
    rintro s' he ⟨e, -, he'⟩
    rw [he] at he'
    cases he'
  rcases (copyPage_cases h hva ha hnew : (_ ∧ s.copyPage caller old new va = _) ∨ _) with
    ⟨hn, he⟩ | ⟨-, hnone, he⟩ | ⟨-, hsome, ⟨hnil, he⟩ | ⟨hv, he⟩ | ⟨hlen, he⟩ | ⟨s', he, -, hcost⟩⟩
  · rw [hend _ he]
    refine iff_of_false (not_mem_copyPanics (by decide)) fun hc => hc.1 ?_
    refine if_neg fun hc => ?_
    rw [leaf_of_none hn] at hc
    cases hc.1
  · exact iff_of_false (hok s he) fun hc => hc.1 hnone
  · rw [hend _ he]
    exact iff_of_true (mem_copyPanics.mpr (Or.inl rfl)) ⟨hsome, Or.inl hnil⟩
  · rw [hend _ he]
    refine iff_of_false remap_not_mem_copyPanics ?_
    rintro ⟨-, hnil | ⟨hv', -⟩⟩
    · obtain ⟨q, hq⟩ := Option.ne_none_iff_exists'.mp hsome
      rcases (copyPage_of_valid h hlt (pte2pa_of_userFrame hq).1 hnew :
          (_ ∧ s.copyPage caller old new va = _) ∨ _) with ⟨-, he'⟩ | ⟨p, s₁, ht, -⟩
      · rw [he] at he'
        exact panic_append_ne (by decide) (Except.error.inj he').symm
      · have := ht.mem_freeList
        rw [hnil] at this
        cases this
    · exact hv' hv
  · rw [hend _ he]
    refine iff_of_true (mem_copyPanics.mpr (Or.inr rfl)) ⟨hsome, ?_⟩
    by_cases hv : isValid (s.leaf new va)
    · obtain ⟨m, hm⟩ := node_of_valid hv
      rw [missing_of_node hm, Nat.zero_add, Nat.lt_one_iff] at hlen
      exact Or.inl (List.length_eq_zero_iff.mp hlen)
    · exact Or.inr ⟨hv, hlen⟩
  · refine iff_of_false (hok s' he) ?_
    rintro ⟨-, hnil | ⟨-, hlen⟩⟩
    · rw [hnil] at hcost
      simp at hcost
    · omega

end MemAllocator

namespace System

variable {s s' : System} {child i : ℕ}

/-- `MemAllocator::alloc` returns null in `fork`: for the trapframe, for a node of the new table, for
the copy of a page or for a node on the way to it. -/
inductive RunsOut (s : System) : Prop
  | trapframe {i : ℕ} (slot : s.freeTaskSlot = some i) (null : s.ram.alloc.1 = 0)
  | pagetable {child : ℕ} {s₁ : System} (alloc : allocTask s = .ok (some child, s₁))
      (null : s₁.root child = 0)
  | page {child : ℕ} {s₁ : System} {caller : String} {e : Halt}
      (alloc : allocTask s = .ok (some child, s₁)) (hcaller : caller ∈ ["userVmCopy", "CopyUserMem"])
      (he : e ∈ copyPanics caller) (copy : copyMemory child s₁ = .error e)

/-- A call has left nothing behind: the slot it chose is not in use and has no trapframe and no page
table, the same frames are free, and the files, the inodes, the mappings and the other processes are
as they were. -/
structure LeavesNothing (s s' : System) : Prop where
  slot : ∀ i, s.freeTaskSlot = some i →
    (s'.taskTable i).state = .unused ∧ (s'.taskTable i).trapframe = 0 ∧ s'.root i = 0
  others : ∀ i, s.freeTaskSlot ≠ some i → s'.taskTable i = s.taskTable i
  frames : ∀ p, p ∈ s'.ram.freeList ↔ p ∈ s.ram.freeList
  handles : s'.handles = s.handles
  iref : s'.iref = s.iref
  vmaTable : s'.vmaTable = s.vmaTable
  pipes : s'.pipes = s.pipes

def ForkRecovers (s : System) : Prop := ∃ s', fork s = .ok (-1, s') ∧ s.LeavesNothing s'

theorem RunsOut.slot (h : s.RunsOut) : ∃ i, s.freeTaskSlot = some i := by
  cases h with
  | trapframe slot => exact ⟨_, slot⟩
  | pagetable alloc =>
    obtain ⟨-, -, -, -, slot, -⟩ := allocTask_eq_some alloc
    exact ⟨_, slot⟩
  | page alloc =>
    obtain ⟨-, -, -, -, slot, -⟩ := allocTask_eq_some alloc
    exact ⟨_, slot⟩

theorem alloc_eq_zero_iff {ram : MemAllocator} (hw : ram.WellFormed) :
    ram.alloc.1 = 0 ↔ ram.freeList = [] := by
  rcases alloc_cases hw with ⟨hnil, he⟩ | ⟨p, r, he, hp, ht⟩
  · rw [he]
    exact iff_of_true rfl hnil
  · rw [he]
    exact iff_of_false hp fun hnil => by
      have := ht.mem_freeList
      rw [hnil] at this
      cases this

theorem fork_of_nil (hslot : s.freeTaskSlot = some i) (hnil : s.ram.freeList = []) :
    fork s = .ok (-1, s.setProc i { s.taskTable i with trapframe := 0 }) := by
  have halloc : s.ram.alloc = (0, s.ram) := by
    unfold MemAllocator.alloc
    rw [hnil]
  have hnone : allocTask s = .ok (none, s.setProc i { s.taskTable i with trapframe := 0 }) := by
    rw [allocTask, get_bind, hslot]
    dsimp only
    rw [halloc]
    rfl
  rw [fork, bind_of_ok hnone]
  rfl

theorem noTask_of_fork (hrun : s.myTask.state = .running) (h : fork s = .ok (-1, s')) : s.NoTask := by
  obtain ⟨v, s₁, halloc, -⟩ := bind_eq_ok.mp h
  apply (allocTask_eq_none_iff halloc).mp
  cases v with
  | none => rfl
  | some child =>
    have hr := (fork_some hrun halloc h).1
    omega

theorem ForkRecovers.freeList (hrun : s.myTask.state = .running) (hw : s.ram.WellFormed)
    (hslot : s.freeTaskSlot = some i) (h : s.ForkRecovers) : s.ram.freeList = [] := by
  obtain ⟨s', hfork, -⟩ := h
  rcases noTask_of_fork hrun hfork with hnone | hnull
  · rw [hslot] at hnone
    cases hnone
  · exact (alloc_eq_zero_iff hw).mp hnull

def NoTables (s : System) : Prop := ∀ i, (s.taskTable i).state = .unused → s.root i = 0

theorem NoTables.freeTask (h : s.NoTables) (hfree : freeTask child s = .ok ((), s')) :
    s'.NoTables := by
  obtain ⟨s₁, ha, rfl⟩ := freeTask_eq_ok (fun p => (p.state, p.task.pagetable)) hfree
  intro i hi
  by_cases hc : i = child
  · subst hc
    rw [root, setProc_self]
    rfl
  · rw [setProc_of_ne hc] at hi
    rw [root, setProc_of_ne hc]
    obtain ⟨hstate, htable⟩ := Prod.mk.inj (ha.slots i)
    exact htable.trans (h i (hstate.symm.trans hi))

theorem NoTables.forkRecovers (h : s.NoTables) (hslot : s.freeTaskSlot = some i)
    (hnil : s.ram.freeList = []) : s.ForkRecovers := by
  have hunused := (freeTaskSlot_some hslot).2
  refine ⟨_, fork_of_nil hslot hnil, fun j hj => ?_, fun j hj => ?_, fun p => Iff.rfl, rfl, rfl, rfl,
    rfl⟩
  · obtain rfl : i = j := Option.some.inj (hslot.symm.trans hj)
    rw [root, setProc_self]
    exact ⟨hunused, rfl, h i hunused⟩
  · exact setProc_of_ne fun he => hj (he ▸ hslot)

/-- When an allocation in `fork` returns null the call is undone exactly when it is the first one,
with no free frame at all. -/
theorem forkRecovers_iff (hrun : s.myTask.state = .running) (hw : s.ram.WellFormed) (h : s.NoTables)
    (hout : s.RunsOut) : s.ForkRecovers ↔ s.ram.freeList = [] := by
  obtain ⟨i, hslot⟩ := hout.slot
  constructor
  · exact ForkRecovers.freeList hrun hw hslot
  · exact h.forkRecovers hslot

/-- Every other allocation that returns null ends the kernel or leaves a child without a page table. -/
theorem RunsOut.outcome (hrun : s.myTask.state = .running) (hout : s.RunsOut)
    (hnull : s.ram.alloc.1 ≠ 0) : (∃ e, fork s = .error e) ∨
      ∃ (child : ℕ) (s' : System), fork s = .ok ((child : ℤ), s') ∧ s'.root child = 0 := by
  cases hout with
  | trapframe slot null => exact absurd null hnull
  | page alloc hcaller he copy =>
    left
    rw [fork, bind_of_ok alloc]
    exact ⟨_, bind_of_error copy⟩
  | @pagetable child s₁ alloc null =>
    cases hfork : fork s with
    | error e => exact Or.inl ⟨e, rfl⟩
    | ok q =>
      obtain ⟨r, s'⟩ := q
      obtain ⟨rfl, -⟩ := fork_some hrun alloc hfork
      obtain ⟨-, -, -, -, -, -, frame, ram, ram₁, ram₂, ram₃, -, hmem⟩ := fork_spec hrun hfork
      obtain ⟨frame', ram', pagetable, ram₁', -, halloc, -, htable, -, -, -, hslots⟩ :=
        allocTask_eq_some alloc
      rw [hmem.alloc, Prod.mk.injEq] at halloc
      obtain ⟨rfl, rfl⟩ := halloc
      rw [hmem.table, Except.ok.injEq, Prod.mk.injEq] at htable
      refine Or.inr ⟨child, s', rfl, htable.1.trans ?_⟩
      rw [root, hslots, Function.update_self] at null
      exact null

theorem allocTask_of_table {frame pagetable : ℕ} {ram ram' : MemAllocator}
    (hslot : s.freeTaskSlot = some i) (halloc : s.ram.alloc = (frame, ram)) (hframe : frame ≠ 0)
    (htable : ram.taskPagetable s.trampoline frame = .ok (pagetable, ram')) :
    ∃ s', allocTask s = .ok (some i, s') ∧ s'.root i = pagetable := by
  obtain ⟨k, rfl⟩ := Nat.exists_eq_succ_of_ne_zero hframe
  have hpage : onRam (fun ram => ram.taskPagetable s.trampoline k.succ) { s with ram := ram } =
      .ok (pagetable, { s with ram := ram' }) := onRam_of_ok htable
  obtain ⟨s', hs'⟩ : ∃ s', allocTask s = .ok (some i, s') := by
    rw [allocTask, get_bind, hslot]
    dsimp only
    rw [halloc]
    exact ⟨_, set_bind.trans ((bind_of_ok hpage).trans rfl)⟩
  obtain ⟨_, _, pagetable', _, -, halloc', -, htable', -, -, -, hslots⟩ := allocTask_eq_some hs'
  rw [halloc, Prod.mk.injEq] at halloc'
  obtain ⟨rfl, rfl⟩ := halloc'
  rw [htable, Except.ok.injEq, Prod.mk.injEq] at htable'
  refine ⟨s', hs', ?_⟩
  rw [root, hslots, Function.update_self]
  exact htable'.1.symm

theorem Ready.runsOut (h : s.Ready) (hslot : s.freeTaskSlot = some i)
    (hfew : s.ram.freeList.length < 4) : s.RunsOut := by
  rcases alloc_cases h.wf with ⟨-, he⟩ | ⟨frame, ram, he, hframe, ht⟩
  · exact .trapframe hslot (by rw [he])
  · have hlt : frame < 2 ^ 64 := (ht.isPage h.wf).lt_top.trans (by decide)
    rcases taskPagetable_spec (ht.wellFormed h.wf) h.trampoline hlt with
      ⟨-, ram', htable, -⟩ | ⟨root, ram', -, -, hnew⟩
    · obtain ⟨s', halloc, hroot⟩ := allocTask_of_table hslot he hframe htable
      exact .pagetable halloc hroot
    · have hcost := hnew.cost
      rw [ht.freeList, List.length_cons] at hfew
      omega

def loneWith (n : ℕ) : System :=
  { lone with ram := { lone.ram with freeList := lone.ram.freeList.take n } }

theorem loneWith_ready (n : ℕ) : (loneWith n).Ready where
  wf := ⟨lone_wellFormed.kend_pos, lone_wellFormed.nodup.sublist (List.take_sublist ..), fun p hp =>
    (lone_wellFormed.isPage p (List.mem_of_mem_take hp)).of_kend rfl⟩
  trampoline := lone_ready.trampoline
  space := (lone_ready.space.of_agree (show (loneWith n).ram.kend = lone.ram.kend from rfl)
    (fun _ hp hf => lone_ready.space.footprint_taken hp (List.mem_of_mem_take hf))
    fun _ _ _ _ _ _ _ => rfl).1
  aligned := lone_ready.aligned
  mapped := lone_ready.mapped

theorem loneWith_noTables (n : ℕ) : (loneWith n).NoTables := by
  intro i hi
  by_cases hinit : i = initTask
  · subst hinit
    cases hi
  · change (lone.taskTable i).task.pagetable = 0
    rw [lone, setProc_of_ne hinit]
    rfl

theorem forkRecovers_iff_lone : (loneWith 0).ForkRecovers :=
  (forkRecovers_iff rfl (loneWith_ready 0).wf (loneWith_noTables 0)
    ((loneWith_ready 0).runsOut (i := 2) rfl (by decide))).mpr rfl

/-- With two free frames there is one for the trapframe and one for the root of the page table, and
`fork` returns the number of a child without a page table. -/
theorem not_forkRecovers_lone : (loneWith 2).Ready ∧ (loneWith 2).NoTables ∧ (loneWith 2).RunsOut ∧
    (∃ s', fork (loneWith 2) = .ok (2, s') ∧ s'.root 2 = 0) ∧ ¬(loneWith 2).ForkRecovers := by
  have hout : (loneWith 2).RunsOut := (loneWith_ready 2).runsOut (i := 2) rfl (by decide)
  refine ⟨loneWith_ready 2, loneWith_noTables 2, hout, ?_, fun h => ?_⟩
  · have hret : (match fork (loneWith 2) with
        | .ok (r, s') => decide (r = 2 ∧ s'.root 2 = 0)
        | .error _ => false) = true := by decide +kernel
    split at hret
    · rename_i r s' h
      obtain ⟨rfl, hroot⟩ := of_decide_eq_true hret
      exact ⟨s', h, hroot⟩
    · cases hret
  · have hnil := h.freeList (i := 2) rfl (loneWith_ready 2).wf rfl
    exact absurd hnil (by decide)

end System

end StartOS
