import StartOS.Os.CloseFiles
import StartOS.Os.ExecStack
import StartOS.Os.ForkChild
import StartOS.Os.VmaPool

/-! # What a call does to the frames of its process

Every call about memory is a turn of one process: of the process that calls, and
for `fork` of the child. The frames of all others stay with their owners.
-/

namespace StartOS

open Hoare MemAllocator

theorem Vma.Closable.unmaps {v : Vma} {m : MemAllocator} {root : ℕ} (h : v.Closable)
    (hs : Space m root) (hw : m.WellFormed) (ht : Top m root) :
    ∃ m', m.userUnmap root v.addr v.npages true = .ok m' ∧
      Unmaps m m' root v.addr (v.addr + v.pageCount * pgSize) ∧ Top m' root := by
  rcases h.user with hzero | hend
  · have hcount : unmapCount v.addr v.npages = 0 := hzero
    rw [userUnmap_eq h.aligned, hcount, hzero]
    exact ⟨m, rfl, .refl hs hw (by omega), ht⟩
  · have hvals : userTop ≤ maxVa := by decide
    have huser : ∀ a < maxVa, v.addr ≤ a → a < v.addr + unmapCount v.addr v.npages * pgSize →
        isValid (m.leaf root a) → m.userFrame root a ≠ none := fun a hlt _ hlast =>
      hs.user_of_valid hlt (hlast.trans_le hend)
    rcases hs.userUnmap hw h.aligned huser with ⟨m', hrun, hunmaps, -⟩ | ⟨hover, -⟩
    · refine ⟨m', hrun, hunmaps, fun va hva hge => ?_⟩
      have hend' : v.addr + unmapCount v.addr v.npages * pgSize ≤ userTop := hend
      rw [hunmaps.outside va hva (by omega)]
      exact ht va hva hge
    · have hend' : v.addr + unmapCount v.addr v.npages * pgSize ≤ userTop := hend
      omega

theorem MemAllocator.Taken.moves {m m' : MemAllocator} {p : ℕ} (h : Taken m m' p)
    (hw : m.WellFormed) : Moves m m' ∅ {p} where
  wf := h.wellFormed hw
  kend := h.kend
  frames q hq := by
    rcases hq with rfl | hq
    · exact Or.inr h.mem_freeList
    · exact Or.inr (h.sub hq)
  apart q hq := hq ▸ h.notMem hw
  mem x hx := h.mem x (hx p (Or.inr h.mem_freeList))

theorem copyoutFds_writes {m m' : MemAllocator} {root fdarray : ℕ} {fds : ℤ × ℤ} {z : ℤ}
    (h : Space m root) (hw : m.WellFormed) (hok : copyoutFds m root fdarray fds = .ok (z, m')) :
    Writes m m' root := by
  unfold copyoutFds at hok
  obtain ⟨⟨r₁, m₁⟩, h₁, hok⟩ := Kernel.bind_ok.mp hok
  obtain ⟨r, m₁', hrun, hwrites, -⟩ := h.copyout (xstateBytes fds.1) fdarray 4 hw
  cases h₁.symm.trans hrun
  dsimp only at hok
  split at hok
  · cases hok
    exact hwrites
  · obtain ⟨⟨r₂, m₂⟩, h₂, hok⟩ := Kernel.bind_ok.mp hok
    obtain ⟨r', m₂', hrun', hwrites', -⟩ := hwrites.acts.space.copyout (xstateBytes fds.2)
      ((fdarray + 4) % 2 ^ 64) 4 hwrites.acts.moves.wf
    cases h₂.symm.trans hrun'
    cases hok
    exact hwrites.trans hwrites'

namespace System

variable {s s' : System} {c i p : ℕ}

theorem root_setMachine {m : Machine} (hm : m.task.pagetable = s.myTask.task.pagetable) (i : ℕ) :
    (s.setMachine m).root i = s.root i := by
  refine (root_setProc : (s.setProc s.current { s.myTask with task := m.task }).root i = _).trans ?_
  split
  · rename_i hi
    rw [hi]
    exact hm
  · rfl

theorem frame_setMachine (m : Machine) (i : ℕ) : (s.setMachine m).frame i = s.frame i := by
  refine (frame_setProc : (s.setProc s.current { s.myTask with task := m.task }).frame i = _).trans ?_
  split
  · rename_i hi
    rw [hi]
    rfl
  · rfl

def Housed (s : System) (i : ℕ) : Prop := s.root i ≠ 0 ∧ s.frame i ≠ 0

theorem Housed.of_eq (h : s.Housed i) (hroot : s'.root i = s.root i)
    (hframe : s'.frame i = s.frame i) :
    s'.Housed i := by
  unfold Housed
  rw [hroot, hframe]
  exact h

/-- Frames that were free have been used and are given back or lost. -/
theorem Turn.of_free (hs : s.Owned) (hm : Moves s.ram s'.ram ∅ ∅) (hroot : ∀ i, s'.root i = s.root i)
    (hframe : ∀ i, s'.frame i = s.frame i) (c : ℕ) : Turn c s s' := by
  have hspace := fun hr => hm.frame (fun q hq => absurd hq (Set.notMem_empty q)) hs.wf
    ((hs.alive c).space hr) fun p _ => Set.notMem_empty p
  have hfree : ∀ p, p ∈ s'.ram.freeList → p ∈ s.ram.freeList := fun p hp =>
    (hm.frames p (Or.inr hp)).resolve_left (Set.notMem_empty p)
  have hof : s'.spaceOf c = s.spaceOf c := by
    unfold spaceOf
    rw [hroot]
    ext p
    constructor
    · rintro ⟨hr, hp⟩
      exact ⟨hr, (hspace hr).2.1 ▸ hp⟩
    · rintro ⟨hr, hp⟩
      exact ⟨hr, (hspace hr).2.1.symm ▸ hp⟩
  have howned : s'.owned c = s.owned c := by
    unfold System.owned
    rw [hof, hframe]
  refine ⟨⟨fun hr => ?_, fun hr => ?_, fun hf => ?_, fun hf hp => ?_, fun hf => ?_⟩, ?_,
    fun i _ => hroot i, fun i _ => hframe i⟩
  · rw [hroot] at hr ⊢
    exact (hspace hr).1
  · rw [hroot] at hr ⊢
    intro va hva hge
    rw [(hspace hr).2.2.1]
    exact (hs.alive c).top hr va hva hge
  · rw [hframe] at hf ⊢
    exact ((hs.alive c).isPage hf).of_kend hm.kend
  · rw [hframe] at hf hp
    exact (hs.alive c).taken hf (hfree _ hp)
  · rw [hframe] at hf ⊢
    rw [hof]
    exact (hs.alive c).apart hf
  · have hunion := hm.union (T := s.owned c) fun p hp =>
      ⟨Set.notMem_empty p, (hs.alive c).owned_taken hp⟩
    rw [howned]
    rwa [Set.empty_union] at hunion

theorem mapVma_sameFrames {length flags fd : ℤ} {prot a : ℕ} {extra : ℕ → ℕ} (hp : s.Pool extra)
    (hok : onMachine (mapVma length prot flags fd) s = .ok (a, s')) : SameFrames s s' := by
  obtain ⟨m', hrun, rfl⟩ := onMachine_eq_ok.mp hok
  obtain ⟨i, p, v, hm⟩ := Machine.mapVma_ok hp.mapped_used hrun
  have heq := hm.eq
  subst heq
  exact ⟨rfl, root_setMachine rfl, frame_setMachine _⟩

section Calls

variable (hs : s.Owned) (hh : s.Housed s.current)

include hs hh

theorem unmapVma_turn {addr : ℕ} {z : ℤ} {extra : ℕ → ℕ} (hp : s.Pool extra)
    (hok : onMachine (unmapVma addr) s = .ok (z, s')) :
    Turn s.current s s' ∧ s'.Housed s.current := by
  obtain ⟨m', hrun, rfl⟩ := onMachine_eq_ok.mp hok
  rcases Machine.unmapVma_ok hrun with rfl | ⟨i, p, ram, hm, hunmap, rfl⟩
  · rw [setMachine_machine]
    exact ⟨.refl hs _, hh⟩
  · have hclosable := hp.closable (s.current, i) p hm.slot
    obtain ⟨ram', hrun', hunmaps, htop⟩ := hclosable.unmaps ((hs.alive s.current).space hh.1) hs.wf
      ((hs.alive s.current).top hh.1)
    obtain rfl : ram = ram' := Except.ok.inj (hunmap.symm.trans hrun')
    refine ⟨.of_acts hs hh.1 hunmaps.acts htop (root_setMachine rfl) (frame_setMachine _), ?_⟩
    exact hh.of_eq (root_setMachine rfl _) (frame_setMachine _ _)

theorem loadIfValid_turn {va : ℕ} {b : Bool} {extra : ℕ → ℕ} (hp : s.Pool extra)
    (hok : loadIfValid va s = .ok (b, s')) : Turn s.current s s' ∧ s'.Housed s.current := by
  obtain ⟨-, hcall⟩ := onRam_sameTables (loadIfValid_onRam hok)
  have hs' := loadIfValid_eq hok
  have hsame : (∀ i, s'.root i = s.root i) ∧ ∀ i, s'.frame i = s.frame i := by
    rw [hs']
    exact ⟨fun _ => rfl, fun _ => rfl⟩
  have hperm : ∀ perm byte, s.myTask.task.faultPage s.contents s.vmaTable va = some (perm, byte) →
      UserPerm perm := by
    intro perm byte hpage
    unfold Task.faultPage at hpage
    split at hpage
    · rename_i v hv
      obtain ⟨i, -, p, hi, rfl, -⟩ := Task.loaderIn_some hv
      cases hpage
      exact userPerm_prot (hp.closable (s.current, i) p hi).access
    · split at hpage
      · cases hpage
        exact ⟨by decide, by decide, by decide⟩
      · cases hpage
  refine ⟨?_, hh.of_eq (hsame.1 _) (hsame.2 _)⟩
  rcases Task.loadIfValid_spec ((hs.alive s.current).space hh.1) hs.wf ((hs.alive s.current).top hh.1)
    (fun i p _ => hs.aligned p) hperm with ⟨-, he⟩ | ⟨-, perm, byte, -, ⟨e, he, -⟩ | ⟨hva, m, he, hl⟩⟩
  · have hm : s'.ram = s.ram := congrArg Prod.snd (Except.ok.inj (hcall.symm.trans he))
    exact SameFrames.turn ⟨hm, hsame.1, hsame.2⟩ hs _
  · cases hcall.symm.trans he
  · have hm : s'.ram = m := congrArg Prod.snd (Except.ok.inj (hcall.symm.trans he))
    subst hm
    exact .of_acts hs hh.1 hl.acts (hl.top hva ((hs.alive s.current).top hh.1)) hsame.1 hsame.2

theorem exec_turn {found : Option ℕ} {path : List UInt8} {argv behind : ℕ → Option (List UInt8)}
    {junk : ℕ → ℕ} {r : ℤ} (hok : exec found path argv behind junk s = .ok (r, s')) :
    Turn s.current s s' ∧ s'.Housed s.current := by
  obtain ⟨hr, hf⟩ := hh
  have hcaller : s.Caller := ⟨hs.wf, hs.trampoline, hs.alive s.current, hr, hf⟩
  rcases exec_cases hs.wf hs.trampoline hcaller.trapframe_lt hok with
    hsame | ⟨ip, -, pagetable, sz, sz1, sp, ram₁, ram₂, ram₃, sys, h⟩
  · have hroot : ∀ i, s'.root i = s.root i := hsame.same.root
    have hframe : ∀ i, s'.frame i = s.frame i := hsame.same.frame
    exact ⟨.of_free hs hsame.moves hroot hframe _, Housed.of_eq ⟨hr, hf⟩ (hroot _) (hframe _)⟩
  have hfresh := h.fresh hs.wf hs.trampoline hcaller.trapframe_lt
  have hfilled : FreshTable s.ram ram₃ pagetable :=
    hfresh.writes (fillStack_writes h.fill hfresh.space hfresh.moves.wf).1
  obtain ⟨hready, hleaf⟩ := ReadyToStart.of_moves hs.wf (hs.alive s.current) hr hf hfilled.moves
    hfilled.space h.same
  have hcur : sys.current = s.current := h.same.current
  have hram : sys.ram = ram₃ := h.same.ram
  have hroot : sys.root s.current = s.root s.current := h.same.root s.current
  have hframe : sys.frame s.current = s.frame s.current := h.same.frame s.current
  obtain ⟨hmoves, hspace, hfoot⟩ := hready.moves h.start
  obtain ⟨-, hroot', hframe', -, hleaf', -⟩ := hready.started h.start
  obtain ⟨-, -, hroots, hframes, -⟩ := execStart_cases h.start
  rw [hcur, hroot, hframe, hram] at hmoves
  rw [hcur] at hroot' hframe' hroots
  rw [hram] at hfoot hleaf'
  have hframe'' : s'.frame s.current = s.frame s.current := hframe'.trans hframe
  have hold : s.owned s.current = s.ram.footprint (s.root s.current) ∪ {s.frame s.current} := by
    ext p
    constructor
    · rintro (⟨-, hp⟩ | ⟨-, hp⟩)
      · exact Or.inl hp
      · exact Or.inr hp
    · rintro (hp | hp)
      · exact Or.inl ⟨hr, hp⟩
      · exact Or.inr ⟨hf, hp⟩
  have hnew : s'.owned s.current = ram₃.footprint pagetable ∪ {s.frame s.current} := by
    unfold System.owned spaceOf
    rw [hroot', hframe'', hfoot]
    ext p
    constructor
    · rintro (⟨-, hp⟩ | ⟨-, hp⟩)
      · exact Or.inl hp
      · exact Or.inr hp
    · rintro (hp | hp)
      · exact Or.inl ⟨h.notNull, hp⟩
      · exact Or.inr ⟨hf, hp⟩
  have hbuilt := hfilled.moves.union (T := s.owned s.current) fun p hp =>
    ⟨Set.notMem_empty p, (hs.alive s.current).owned_taken hp⟩
  obtain ⟨-, hkept, -⟩ := hfilled.moves.frame (fun q hq => absurd hq (Set.notMem_empty q)) hs.wf
    ((hs.alive s.current).space hr) fun p _ => Set.notMem_empty p
  have hall : Moves s.ram s'.ram (s.owned s.current) (s'.owned s.current) := by
    rw [Set.empty_union, hold] at hbuilt
    rw [hold, hnew]
    refine hbuilt.trans ?_
    rwa [hkept, ← Set.union_assoc, Set.union_comm, Set.union_comm {_}] at hmoves
  refine ⟨⟨⟨fun _ => ?_, fun _ => ?_, fun _ => ?_, fun _ hp => ?_, fun _ hp => ?_⟩, hall,
    fun i hi => ?_, fun i _ => ?_⟩, ?_, ?_⟩
  · rw [hroot']
    exact hspace
  · rw [hroot']
    intro va hva hge
    rw [hleaf']
    exact hfilled.top va hva hge
  · rw [hframe'']
    exact ((hs.alive s.current).isPage hf).of_kend hall.kend
  · rw [hframe''] at hp
    exact hall.apart _ (by rw [hnew]; exact Or.inr rfl) hp
  · rw [hframe''] at hp
    unfold spaceOf at hp
    rw [hroot', hfoot] at hp
    exact (hs.alive s.current).taken hf
      ((hfilled.moves.frames _ (Or.inl hp.2)).resolve_left (Set.notMem_empty _))
  · rw [hroots, if_neg hi]
    exact h.same.root i
  · rw [hframes]
    exact h.same.frame i
  · rw [hroot']
    exact h.notNull
  · rwa [hframe'']

theorem sysPipe_turn {f0 f1 pipe fdarray : ℕ} {r : ℤ} (hc : s.current < ntask)
    (hsafe : (FileCall.pipe f0 f1 pipe fdarray).Safe s)
    (hok : sysPipe f0 f1 pipe fdarray s = .ok (r, s')) :
    Turn s.current s s' ∧ s'.Housed s.current := by
  obtain ⟨fds, s₁, ram, hpipe, hcopy, rfl⟩ := sysPipe_ok hc hok hsafe
  have honly := FilesOnly.createPipe hpipe
  have hwrites := copyoutFds_writes ((hs.alive s.current).space hh.1) hs.wf hcopy
  have hroot : ∀ i, s₁.root i = s.root i := honly.proc (π := fun p => p.task.pagetable) fun _ _ => rfl
  have hframe : ∀ i, s₁.frame i = s.frame i := honly.proc (π := Proc.trapframe) fun _ _ => rfl
  refine ⟨.of_acts hs hh.1 hwrites.acts (fun va hva hge => ?_) hroot hframe,
    hh.of_eq (hroot _) (hframe _)⟩
  rw [hwrites.leaf]
  exact (hs.alive s.current).top hh.1 va hva hge

end Calls

section Fork

variable {child frame : ℕ} {ram ram₁ ram₂ ram₃ : MemAllocator}

/-- The frame is taken, the table made, the frame cleared, the pages copied, the registers
stored. -/
theorem CopiesMemory.moves (h : CopiesMemory s s' child frame ram ram₁ ram₂ ram₃)
    (hready : s.Ready) (hroot : s'.root child ≠ 0) (hnew : NewTable ram ram₁ (s'.root child)) :
    Moves s.ram s'.ram ∅ (ram₃.footprint (s'.root child) ∪ {frame}) := by
  have ht := h.taken hready
  have hw := hready.wf
  have hpage := ht.isPage hw
  obtain ⟨-, -, hnot, hfree⟩ := h.apart hready hnew
  have hcopies := h.copies hready hroot hnew
  obtain ⟨-, hfoot₁, -, -⟩ := hnew.space.elsewhere (CopiesMemory.before frame ram₁)
    (hpage.of_kend (hnew.moves.kend.trans ht.kend)) (fun hp => ht.notMem hw
      ((hnew.moves.frames frame (Or.inl hp)).resolve_left (Set.notMem_empty _)))
    rfl rfl fun _ => CopiesMemory.before_mem
  have htable := hnew.moves.union (T := {frame}) <| by
    rintro p rfl
    exact ⟨Set.notMem_empty _, ht.notMem hw⟩
  rw [Set.empty_union] at htable
  have hclear : Moves ram₁ (CopiesMemory.before frame ram₁) (ram₁.footprint (s'.root child) ∪ {frame})
      (ram₁.footprint (s'.root child) ∪ {frame}) :=
    .write htable.wf (Or.inr rfl) htable.apart fun _ => CopiesMemory.before_mem
  have hpages := hcopies.acts.moves.union (T := {frame}) <| by
    rintro p rfl
    exact ⟨hnot, hfree⟩
  rw [hfoot₁] at hpages
  obtain ⟨m, hram, hm⟩ := h.registers
  rw [hram]
  exact (ht.moves hw).trans (htable.trans (hclear.trans (hpages.trans
    (.write hpages.wf (Or.inr rfl) hpages.apart hm))))

theorem Owned.owned_unused (hs : s.Owned) (h : (s.taskTable child).state = .unused) :
    s.owned child = ∅ := by
  obtain ⟨hroot, hframe⟩ := hs.unused child h
  ext p
  constructor
  · rintro (⟨hr, -⟩ | ⟨hf, -⟩)
    · exact absurd hroot hr
    · exact absurd hframe hf
  · exact False.elim

theorem CopiesMemory.turn (h : CopiesMemory s s' child frame ram ram₁ ram₂ ram₃) (hs : s.Owned)
    (hready : s.Ready) (hunused : (s.taskTable child).state = .unused)
    (hframe : s'.frame child = frame) (hother : ∀ i, i ≠ child → s'.taskTable i = s.taskTable i)
    (hroom : 4 ≤ s.ram.freeList.length) : Turn child s s' ∧ s'.root child ≠ 0 := by
  have ht := h.taken hready
  have hpage := ht.isPage hs.wf
  have hlen : s.ram.freeList.length = ram.freeList.length + 1 := by
    rw [ht.freeList, List.length_cons]
  obtain ⟨hroot, hnew⟩ : s'.root child ≠ 0 ∧ NewTable ram ram₁ (s'.root child) := by
    rcases taskPagetable_spec (ht.wellFormed hs.wf) hs.trampoline
      (hpage.lt_top.trans (by norm_num [physTop])) with ⟨hfew, -⟩ | ⟨root, r, he, hne, hnew⟩
    · omega
    · cases h.table.symm.trans he
      exact ⟨hne, hnew⟩
  obtain ⟨hapart, -, hnot, hfree⟩ := h.apart hready hnew
  have hcopies := h.copies hready hroot hnew
  obtain ⟨hspace, hfoot, hleaf, -⟩ := h.registers_space hready hroot hnew
  obtain ⟨-, -, hleaf₁, -⟩ := hnew.space.elsewhere (CopiesMemory.before frame ram₁)
    (hpage.of_kend (hnew.moves.kend.trans ht.kend)) (fun hp => ht.notMem hs.wf
      ((hnew.moves.frames frame (Or.inl hp)).resolve_left (Set.notMem_empty _)))
    rfl rfl fun _ => CopiesMemory.before_mem
  have hmoves := h.moves hready hroot hnew
  have hown : s'.owned child = ram₃.footprint (s'.root child) ∪ {frame} := by
    unfold System.owned spaceOf
    rw [hframe, hfoot]
    ext p
    constructor
    · rintro (⟨-, hp⟩ | ⟨-, hp⟩)
      · exact Or.inl hp
      · exact Or.inr hp
    · rintro (hp | hp)
      · exact Or.inl ⟨hroot, hp⟩
      · exact Or.inr ⟨h.frame_ne, hp⟩
  refine ⟨⟨⟨fun _ => hspace, fun _ va hva hge => ?_, fun _ => ?_, fun _ hp => ?_, fun _ hp => ?_⟩, ?_,
    fun i hi => ?_, fun i hi => ?_⟩, hroot⟩
  · rw [hleaf, hcopies.only va hva]
    · rw [hleaf₁]
      exact hnew.top va hva hge
    · rintro ⟨-, hne⟩
      obtain ⟨q, hq⟩ := Option.ne_none_iff_exists'.mp hne
      have := hapart.source.below va hva q hq
      omega
  · rw [hframe]
    exact (hpage.of_kend hmoves.kend)
  · rw [hframe] at hp
    exact hmoves.apart frame (Or.inr rfl) hp
  · rw [hframe] at hp
    unfold spaceOf at hp
    rw [hfoot] at hp
    exact (hcopies.acts.moves.frames frame (Or.inl hp.2)).elim hnot hfree
  · rw [hs.owned_unused hunused, hown]
    exact hmoves
  · unfold root
    rw [hother i hi]
  · unfold System.frame
    rw [hother i hi]

end Fork

end System

end StartOS
