import StartOS.Os.CopyPages
import StartOS.Os.Exit
import StartOS.Os.NewTable

/-! # Who owns a frame

Every frame in use belongs to one process: to its page table, to one of its
pages, or it is its trapframe. A call changes what one process owns and takes
what it needs from the free list.
-/

namespace StartOS

open MemAllocator

namespace MemAllocator

variable {s s' : MemAllocator} {root : ℕ} {O O' T : Set ℕ}

theorem Moves.union (h : Moves s s' O O') (hT : ∀ p ∈ T, p ∉ O ∧ p ∉ s.freeList) :
    Moves s s' (O ∪ T) (O' ∪ T) where
  wf := h.wf
  kend := h.kend
  frames p hp := by
    rcases hp with (hp | hp) | hp
    · rcases h.frames p (Or.inl hp) with hp | hp
      · exact Or.inl (Or.inl hp)
      · exact Or.inr hp
    · exact Or.inl (Or.inr hp)
    · rcases h.frames p (Or.inr hp) with hp | hp
      · exact Or.inl (Or.inl hp)
      · exact Or.inr hp
  apart p hp hf := by
    rcases hp with hp | hp
    · exact h.apart p hp hf
    · rcases h.frames p (Or.inr hf) with hf | hf
      · exact (hT p hp).1 hf
      · exact (hT p hp).2 hf
  mem x hx := h.mem x fun p hp => hx p (hp.imp_left Or.inl)

end MemAllocator

namespace System

variable {s s' s'' : System} {c i j p x : ℕ}

def root (s : System) (i : ℕ) : ℕ := (s.taskTable i).task.pagetable

def frame (s : System) (i : ℕ) : ℕ := (s.taskTable i).trapframe

theorem root_setProc {q : Proc} :
    (s.setProc c q).root i = if i = c then q.task.pagetable else s.root i := by
  unfold root
  split
  · rename_i hi
    rw [hi, setProc_self]
  · rw [setProc_of_ne ‹_›]

theorem frame_setProc {q : Proc} :
    (s.setProc c q).frame i = if i = c then q.trapframe else s.frame i := by
  unfold frame
  split
  · rename_i hi
    rw [hi, setProc_self]
  · rw [setProc_of_ne ‹_›]

def spaceOf (s : System) (i : ℕ) : Set ℕ := {p | s.root i ≠ 0 ∧ p ∈ s.ram.footprint (s.root i)}

def owned (s : System) (i : ℕ) : Set ℕ := s.spaceOf i ∪ {p | s.frame i ≠ 0 ∧ p = s.frame i}

structure Alive (s : System) (i : ℕ) : Prop where
  space : s.root i ≠ 0 → Space s.ram (s.root i)
  top : s.root i ≠ 0 → Top s.ram (s.root i)
  isPage : s.frame i ≠ 0 → s.ram.IsPage (s.frame i)
  taken : s.frame i ≠ 0 → s.frame i ∉ s.ram.freeList
  apart : s.frame i ≠ 0 → s.frame i ∉ s.spaceOf i

/-- Every frame has at most one owner, and a slot that is not in use owns nothing. -/
structure Owned (s : System) : Prop where
  wf : s.ram.WellFormed
  trampoline : s.trampoline < 2 ^ 64
  alive : ∀ i, s.Alive i
  apart : ∀ i j, i ≠ j → ∀ p ∈ s.owned i, p ∉ s.owned j
  unused : ∀ i, (s.taskTable i).state = .unused → s.root i = 0 ∧ s.frame i = 0
  aligned : ∀ p, (s.vmaTable p).Aligned

theorem Alive.owned_isPage (h : s.Alive i) (hp : p ∈ s.owned i) : s.ram.IsPage p := by
  rcases hp with ⟨hr, hp⟩ | ⟨hf, rfl⟩
  · exact (h.space hr).footprint_isPage hp
  · exact h.isPage hf

theorem Alive.owned_taken (h : s.Alive i) (hp : p ∈ s.owned i) : p ∉ s.ram.freeList := by
  rcases hp with ⟨hr, hp⟩ | ⟨hf, rfl⟩
  · exact (h.space hr).footprint_taken hp
  · exact h.taken hf

structure Turn (c : ℕ) (s s' : System) : Prop where
  alive : s'.Alive c
  moves : Moves s.ram s'.ram (s.owned c) (s'.owned c)
  root : ∀ i, i ≠ c → s'.root i = s.root i
  frame : ∀ i, i ≠ c → s'.frame i = s.frame i

namespace Turn

theorem refl (h : s.Owned) (c : ℕ) : Turn c s s :=
  ⟨h.alive c, .refl h.wf fun _ hp => (h.alive c).owned_taken hp, fun _ _ => rfl, fun _ _ => rfl⟩

theorem other (h : Turn c s s') (hs : s.Owned) (hi : i ≠ c) (hr : s.root i ≠ 0) :
    Space s'.ram (s.root i) ∧ s'.ram.footprint (s.root i) = s.ram.footprint (s.root i) ∧
      (∀ va, s'.ram.leaf (s.root i) va = s.ram.leaf (s.root i) va) ∧
      ∀ p ∈ s.ram.footprint (s.root i), ∀ x, p ≤ x → x < p + pgSize → s'.ram.mem x = s.ram.mem x :=
  h.moves.frame (fun _ hq => (hs.alive c).owned_isPage hq) hs.wf ((hs.alive i).space hr)
    fun p hp => hs.apart i c hi p (Or.inl ⟨hr, hp⟩)

theorem spaceOf_other (h : Turn c s s') (hs : s.Owned) (hi : i ≠ c) :
    s'.spaceOf i = s.spaceOf i := by
  unfold spaceOf
  rw [h.root i hi]
  ext p
  constructor
  · rintro ⟨hr, hp⟩
    rw [(h.other hs hi hr).2.1] at hp
    exact ⟨hr, hp⟩
  · rintro ⟨hr, hp⟩
    refine ⟨hr, ?_⟩
    rw [(h.other hs hi hr).2.1]
    exact hp

theorem owned_other (h : Turn c s s') (hs : s.Owned) (hi : i ≠ c) : s'.owned i = s.owned i := by
  unfold System.owned
  rw [h.spaceOf_other hs hi, h.frame i hi]

theorem alive_other (h : Turn c s s') (hs : s.Owned) (hi : i ≠ c) : s'.Alive i := by
  have hfree : ∀ p ∈ s.owned i, p ∉ s'.ram.freeList := by
    intro p hp hf
    rcases h.moves.frames p (Or.inr hf) with hf | hf
    · exact hs.apart i c hi p hp hf
    · exact (hs.alive i).owned_taken hp hf
  refine ⟨fun hr => ?_, fun hr => ?_, fun hf => ?_, fun hf => ?_, fun hf => ?_⟩
  · rw [h.root i hi] at hr ⊢
    exact (h.other hs hi hr).1
  · rw [h.root i hi] at hr ⊢
    intro va hva htop
    rw [(h.other hs hi hr).2.2.1]
    exact (hs.alive i).top hr va hva htop
  · rw [h.frame i hi] at hf ⊢
    exact ((hs.alive i).isPage hf).of_kend h.moves.kend
  · rw [h.frame i hi] at hf ⊢
    exact hfree _ (Or.inr ⟨hf, rfl⟩)
  · rw [h.frame i hi] at hf ⊢
    rw [h.spaceOf_other hs hi]
    exact (hs.alive i).apart hf

theorem owned (h : Turn c s s') (hs : s.Owned) (ht : s'.trampoline = s.trampoline)
    (hu : ∀ i, (s'.taskTable i).state = .unused → s'.root i = 0 ∧ s'.frame i = 0)
    (ha : ∀ p, (s'.vmaTable p).Aligned) : s'.Owned where
  wf := h.moves.wf
  trampoline := ht ▸ hs.trampoline
  alive i := by
    by_cases hi : i = c
    · exact hi ▸ h.alive
    · exact h.alive_other hs hi
  apart i j hij p hp hp' := by
    have hcross : ∀ k, k ≠ c → p ∈ s'.owned k → p ∉ s'.owned c := by
      intro k hk hpk hpc
      rw [h.owned_other hs hk] at hpk
      rcases h.moves.frames p (Or.inl hpc) with hpc | hpc
      · exact hs.apart k c hk p hpk hpc
      · exact (hs.alive k).owned_taken hpk hpc
    by_cases hi : i = c
    · subst hi
      exact hcross j (Ne.symm hij) hp' hp
    · by_cases hj : j = c
      · subst hj
        exact hcross i hi hp hp'
      · rw [h.owned_other hs hi] at hp
        rw [h.owned_other hs hj] at hp'
        exact hs.apart i j hij p hp hp'
  unused := hu
  aligned := ha

end Turn

structure SameFrames (s s' : System) : Prop where
  ram : s'.ram = s.ram
  root : ∀ i, s'.root i = s.root i
  frame : ∀ i, s'.frame i = s.frame i

namespace SameFrames

theorem spaceOf (h : SameFrames s s') (i : ℕ) : s'.spaceOf i = s.spaceOf i := by
  unfold System.spaceOf
  rw [h.ram, h.root]

theorem owned (h : SameFrames s s') (i : ℕ) : s'.owned i = s.owned i := by
  unfold System.owned
  rw [h.spaceOf, h.frame]

theorem alive (h : SameFrames s s') (ha : s.Alive i) : s'.Alive i := by
  constructor
  · rw [h.root, h.ram]
    exact ha.space
  · rw [h.root, h.ram]
    exact ha.top
  · rw [h.frame, h.ram]
    exact ha.isPage
  · rw [h.frame, h.ram]
    exact ha.taken
  · rw [h.frame, h.spaceOf]
    exact ha.apart

theorem turn (h : SameFrames s s') (hs : s.Owned) (c : ℕ) : Turn c s s' where
  alive := h.alive (hs.alive c)
  moves := by
    rw [h.owned, h.ram]
    exact .refl hs.wf fun p hp => (hs.alive c).owned_taken hp
  root i _ := h.root i
  frame i _ := h.frame i

end SameFrames

theorem Turn.of_acts (hs : s.Owned) (hr : s.root c ≠ 0) (ha : Acts s.ram s'.ram (s.root c))
    (ht : Top s'.ram (s.root c)) (hroot : ∀ i, s'.root i = s.root i)
    (hframe : ∀ i, s'.frame i = s.frame i) : Turn c s s' := by
  have hT : ∀ p ∈ {p | s.frame c ≠ 0 ∧ p = s.frame c},
      p ∉ s.ram.footprint (s.root c) ∧ p ∉ s.ram.freeList := by
    rintro p ⟨hf, rfl⟩
    exact ⟨fun hp => (hs.alive c).apart hf ⟨hr, hp⟩, (hs.alive c).taken hf⟩
  have hspace : s.spaceOf c = s.ram.footprint (s.root c) := by
    ext p
    exact ⟨fun hp => hp.2, fun hp => ⟨hr, hp⟩⟩
  have hspace' : s'.spaceOf c = s'.ram.footprint (s.root c) := by
    unfold System.spaceOf
    rw [hroot]
    ext p
    exact ⟨fun hp => hp.2, fun hp => ⟨hr, hp⟩⟩
  have hm := ha.moves.union hT
  have hown : s'.owned c = s'.ram.footprint (s.root c) ∪ {p | s.frame c ≠ 0 ∧ p = s.frame c} := by
    unfold System.owned
    rw [hspace', hframe]
  refine ⟨⟨fun _ => ?_, fun _ => ?_, fun hf => ?_, fun hf hp => ?_, fun hf hp => ?_⟩, ?_,
    fun i _ => hroot i, fun i _ => hframe i⟩
  · rw [hroot]
    exact ha.space
  · rw [hroot]
    exact ht
  · rw [hframe] at hf ⊢
    exact ((hs.alive c).isPage hf).of_kend ha.moves.kend
  · rw [hframe] at hf hp
    exact hm.apart _ (Or.inr ⟨hf, rfl⟩) hp
  · rw [hframe] at hf hp
    rw [hspace'] at hp
    rcases ha.moves.frames _ (Or.inl hp) with hp | hp
    · exact (hT _ ⟨hf, rfl⟩).1 hp
    · exact (hT _ ⟨hf, rfl⟩).2 hp
  · rw [hown]
    unfold System.owned
    rw [hspace]
    exact hm

end System

end StartOS
