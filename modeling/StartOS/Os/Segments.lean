import Mathlib.Data.Finset.Card
import StartOS.Os.ExecRun

/-! # The segments of a program

`exec` frees the mappings of the old program and takes an entry of the pool and
a slot of the process for every segment of the new one. It stops at the first
program header that is bad.
-/

namespace StartOS

open MemAllocator Hoare

variable {s s' : System} {ip phoff i k n sz x : ℕ} {content : List UInt8} {ph : ProgHdr}

def Vma.IsUnused (v : Vma) : Prop := v.ip = none ∧ v.addr = 0 ∧ v.length = 0

instance (v : Vma) : Decidable v.IsUnused := inferInstanceAs (Decidable (_ ∧ _))

namespace System

/-- Slot `i` of the running process holds a mapping that `exec` frees. -/
def IsProgSlot (s : System) (i : ℕ) : Prop :=
  ∃ p, s.myTask.task.vma i = some p ∧ (s.vmaTable p).type = .prog

def unusedVmas (s : System) : Finset ℕ := (Finset.range nvma).filter fun p => (s.vmaTable p).IsUnused

def emptySlots (s : System) : Finset ℕ :=
  (Finset.range nommapfile).filter fun i => s.myTask.task.vma i = none

open Classical in
/-- The entries of the pool that are unused once the mappings of the old program are freed. -/
noncomputable def vmaRoom (s : System) : ℕ :=
  ((Finset.range nvma).filter fun p => (s.vmaTable p).IsUnused ∨
    ∃ i < nommapfile, s.myTask.task.vma i = some p ∧ (s.vmaTable p).type = .prog).card

open Classical in
noncomputable def slotRoom (s : System) : ℕ :=
  ((Finset.range nommapfile).filter fun i => s.myTask.task.vma i = none ∨ s.IsProgSlot i).card

def refsIn (s : System) (is : List ℕ) (x : ℕ) : ℕ :=
  is.countP fun i => ((s.myTask.task.vma i).bind fun p => (s.vmaTable p).ip) = some x

end System

theorem inodeFree_of_pos (h : 1 ≤ s.iref ip) : inodeFree ip s = .ok ((), { s with
    iref := Function.update s.iref ip (s.iref ip - 1) }) := by
  unfold inodeFree
  rw [get_bind, if_neg (by omega)]
  rfl

/-- What is left of the mappings when those of the old program are freed. -/
structure FreesProg (s s' : System) (is : List ℕ) : Prop where
  same : SameSpaces s s'
  slots : ∀ j, s'.myTask.task.vma j = none ↔
    s.myTask.task.vma j = none ∨ (j ∈ is ∧ s.IsProgSlot j)
  pool : ∀ p, (s'.vmaTable p).IsUnused ↔ (s.vmaTable p).IsUnused ∨
    ∃ j ∈ is, s.myTask.task.vma j = some p ∧ (s.vmaTable p).type = .prog
  refs : ∀ x, s.iref x ≤ s'.iref x + s.refsIn is x

structure FreesSlot (s s' : System) (i p : ℕ) : Prop where
  same : SameSpaces s s'
  slots : s'.myTask.task.vma = Function.update s.myTask.task.vma i none
  pool : s'.vmaTable = Function.update s.vmaTable p .zero
  refs : ∀ x, s.iref x ≤ s'.iref x + if (s.vmaTable p).ip = some x then 1 else 0

/-- `vma::free` gives the reference to the inode back and clears the entry. -/
theorem vmaFree_of_refs {p : ℕ} (href : ∀ x, (s.vmaTable p).ip = some x → 1 ≤ s.iref x) :
    ∃ iref, vmaFree p s = .ok ((), { s with
        iref := iref
        vmaTable := Function.update s.vmaTable p .zero }) ∧
      ∀ x, s.iref x ≤ iref x + if (s.vmaTable p).ip = some x then 1 else 0 := by
  unfold vmaFree
  rw [get_bind]
  cases hip : (s.vmaTable p).ip with
  | none =>
    refine ⟨s.iref, rfl, fun x => ?_⟩
    rw [if_neg (by simp)]
    omega
  | some y =>
    refine ⟨Function.update s.iref y (s.iref y - 1), ?_, fun x => ?_⟩
    · dsimp only
      rw [bind_of_ok (inodeFree_of_pos (href y hip))]
      rfl
    · by_cases hx : x = y
      · subst hx
        rw [Function.update_self, if_pos rfl]
        omega
      · rw [Function.update_of_ne hx]
        split <;> omega

theorem freesSlot {p : ℕ} (href : ∀ x, (s.vmaTable p).ip = some x → 1 ≤ s.iref x) :
    ∃ s', (do
      vmaFree p
      modifyProc s.current fun pr => { pr with task := { pr.task with
        vma := Function.update pr.task.vma i none } } : OsM Unit) s = .ok ((), s') ∧
      FreesSlot s s' i p := by
  obtain ⟨iref, hrun, hiref⟩ := vmaFree_of_refs href
  rw [bind_of_ok hrun]
  refine ⟨_, rfl, ?_, ?_, rfl, hiref⟩
  · have hpool : SameSpaces s { s with
        iref := iref
        vmaTable := Function.update s.vmaTable p .zero } :=
      ⟨rfl, rfl, rfl, fun _ => rfl, fun _ => rfl, fun _ => rfl⟩
    refine hpool.trans ?_
    apply SameSpaces.setProc
    · rfl
    · rfl
    · rfl
  · exact congrArg (fun q => q.task.vma) System.setProc_self

namespace FreesSlot

variable {s₁ : System} {p : ℕ} {is : List ℕ}

theorem type_iff (h : FreesSlot s s₁ i p) (ht : (s.vmaTable p).type = .prog) (q : ℕ) :
    (s₁.vmaTable q).type = .prog ↔ (s.vmaTable q).type = .prog := by
  rw [h.pool]
  by_cases hq : q = p
  · subst hq
    rw [Function.update_self, ht]
    rfl
  · rw [Function.update_of_ne hq]

theorem slot_iff (h : FreesSlot s s₁ i p) (j q : ℕ) :
    s₁.myTask.task.vma j = some q ↔ j ≠ i ∧ s.myTask.task.vma j = some q := by
  rw [h.slots]
  by_cases hj : j = i
  · subst hj
    rw [Function.update_self]
    simp
  · rw [Function.update_of_ne hj]
    simp [hj]

theorem refsIn_le (h : FreesSlot s s₁ i p) (is : List ℕ) (x : ℕ) :
    s₁.refsIn is x ≤ s.refsIn is x := by
  apply List.countP_mono_left
  intro j _ hj
  simp only [decide_eq_true_eq, Option.bind_eq_some_iff] at hj ⊢
  obtain ⟨q, hq, hip⟩ := hj
  refine ⟨q, ((h.slot_iff j q).mp hq).2, ?_⟩
  rw [h.pool] at hip
  by_cases hqp : q = p
  · rw [hqp, Function.update_self] at hip
    cases hip
  · rw [Function.update_of_ne hqp] at hip
    exact hip

theorem cons (h : FreesSlot s s₁ i p) (hslot : s.myTask.task.vma i = some p)
    (ht : (s.vmaTable p).type = .prog) (h' : FreesProg s₁ s' is) : FreesProg s s' (i :: is) where
  same := h.same.trans h'.same
  slots j := by
    have hprog : s.IsProgSlot i := ⟨p, hslot, ht⟩
    rw [h'.slots, h.slots, List.mem_cons]
    by_cases hj : j = i
    · subst hj
      simp [hprog]
    · have hiff : s₁.IsProgSlot j ↔ s.IsProgSlot j := by
        apply exists_congr
        intro q
        rw [h.slot_iff, h.type_iff ht]
        simp [hj]
      rw [Function.update_of_ne hj, hiff]
      simp [hj]
  pool q := by
    rw [h'.pool, h.pool]
    by_cases hq : q = p
    · subst hq
      rw [Function.update_self]
      constructor
      · exact fun _ => Or.inr ⟨i, List.mem_cons_self, hslot, ht⟩
      · exact fun _ => Or.inl ⟨rfl, rfl, rfl⟩
    · rw [Function.update_of_ne hq]
      apply or_congr_right
      constructor
      · rintro ⟨j, hj, hjq, hjt⟩
        exact ⟨j, List.mem_cons_of_mem i hj, ((h.slot_iff j q).mp hjq).2, hjt⟩
      · rintro ⟨j, hj, hjq, hjt⟩
        rcases List.mem_cons.mp hj with rfl | hj
        · rw [hslot] at hjq
          exact absurd (Option.some.inj hjq).symm hq
        · by_cases hji : j = i
          · rw [hji, hslot] at hjq
            exact absurd (Option.some.inj hjq).symm hq
          · exact ⟨j, hj, (h.slot_iff j q).mpr ⟨hji, hjq⟩, hjt⟩
  refs x := by
    have hcons : s.refsIn (i :: is) x = s.refsIn is x +
        if (s.vmaTable p).ip = some x then 1 else 0 := by
      unfold System.refsIn
      rw [List.countP_cons]
      simp only [decide_eq_true_eq, hslot, Option.bind_some]
    have h₁ := h.refs x
    have h₂ := h'.refs x
    have h₃ := h.refsIn_le is x
    rw [hcons]
    by_cases hx : (s.vmaTable p).ip = some x
    · rw [if_pos hx] at h₁ ⊢
      omega
    · rw [if_neg hx] at h₁ ⊢
      omega

end FreesSlot

theorem freeProgVmas_spec (is : List ℕ) (hrefs : ∀ x, (s.refsIn is x : ℤ) ≤ s.iref x) :
    ∃ s', freeProgVmas s.current is s = .ok ((), s') ∧ FreesProg s s' is := by
  induction is generalizing s with
  | nil =>
    refine ⟨s, rfl, .refl, fun j => ?_, fun p => ?_, fun x => ?_⟩
    · simp
    · simp
    · simp [System.refsIn]
  | cons i is ih =>
    rw [freeProgVmas, get_bind]
    have hcons : ∀ x, s.refsIn (i :: is) x = s.refsIn is x +
        if ((s.myTask.task.vma i).bind fun p => (s.vmaTable p).ip) = some x then 1 else 0 := by
      intro x
      unfold System.refsIn
      rw [List.countP_cons]
      simp only [decide_eq_true_eq]
    have htail : ∀ x, s.refsIn is x ≤ s.refsIn (i :: is) x := fun x => by
      rw [hcons]
      exact Nat.le_add_right _ _
    have hskip : ¬s.IsProgSlot i → ∃ s', freeProgVmas s.current is s = .ok ((), s') ∧
        FreesProg s s' (i :: is) := by
      intro hi
      obtain ⟨s', hrun, hf⟩ := ih fun x => (Nat.cast_le.mpr (htail x)).trans (hrefs x)
      refine ⟨s', hrun, hf.same, fun j => ?_, fun p => ?_, fun x => ?_⟩
      · rw [hf.slots, List.mem_cons]
        constructor
        · exact Or.imp_right fun h => ⟨Or.inr h.1, h.2⟩
        · rintro (h | ⟨rfl | h, hj⟩)
          · exact Or.inl h
          · exact absurd hj hi
          · exact Or.inr ⟨h, hj⟩
      · rw [hf.pool]
        apply or_congr_right
        constructor
        · rintro ⟨j, hj, h⟩
          exact ⟨j, List.mem_cons_of_mem i hj, h⟩
        · rintro ⟨j, hj, h⟩
          rcases List.mem_cons.mp hj with rfl | hj
          · exact absurd ⟨p, h⟩ hi
          · exact ⟨j, hj, h⟩
      · have := hf.refs x
        have := htail x
        omega
    cases hslot : (s.taskTable s.current).task.vma i with
    | none =>
      apply hskip
      rintro ⟨p, hp, -⟩
      rw [System.myTask, hslot] at hp
      cases hp
    | some p =>
      dsimp only
      by_cases htype : (s.vmaTable p).type = .prog
      · rw [if_pos htype]
        have hbind : ((s.myTask.task.vma i).bind fun p => (s.vmaTable p).ip) = (s.vmaTable p).ip := by
          rw [System.myTask, hslot]
          rfl
        rw [hbind] at hcons
        obtain ⟨s₁, hrun, hf⟩ := freesSlot (i := i) (p := p) (s := s) fun x hx => by
          have := hrefs x
          rw [hcons, if_pos hx] at this
          omega
        obtain ⟨⟨⟩, s₀, h₀, h₁⟩ := bind_eq_ok.mp hrun
        rw [bind_of_ok h₀, bind_of_ok h₁, ← hf.same.current]
        obtain ⟨s', hrest, hfrees⟩ := ih (s := s₁) fun x => by
          have h₂ := hrefs x
          have h₃ := hf.refs x
          have h₄ := hf.refsIn_le is x
          rw [hcons] at h₂
          by_cases hx : (s.vmaTable p).ip = some x
          · rw [if_pos hx] at h₂ h₃
            omega
          · rw [if_neg hx] at h₂ h₃
            omega
        exact ⟨s', hrest, hf.cons hslot htype hfrees⟩
      · rw [if_neg htype]
        apply hskip
        rintro ⟨q, hq, h⟩
        rw [System.myTask, hslot] at hq
        cases hq
        exact htype h

theorem freeVma_eq_none_iff : s.machine.freeVma = none ↔ s.unusedVmas = ∅ := by
  unfold Machine.freeVma System.unusedVmas
  rw [List.find?_eq_none, Finset.filter_eq_empty_iff]
  simp only [List.mem_range, Finset.mem_range, decide_eq_true_eq]
  rfl

theorem mem_of_freeVma {p : ℕ} (h : s.machine.freeVma = some p) : p ∈ s.unusedVmas := by
  have hfound := List.find?_some h
  have hmem := List.mem_of_find?_eq_some h
  exact Finset.mem_filter.mpr ⟨Finset.mem_range.mpr (List.mem_range.mp hmem),
    of_decide_eq_true hfound⟩

theorem freeSlot_eq_none_iff : s.machine.freeSlot = none ↔ s.emptySlots = ∅ := by
  unfold Machine.freeSlot System.emptySlots
  rw [List.find?_eq_none, Finset.filter_eq_empty_iff]
  simp only [List.mem_range, Finset.mem_range, Option.isNone_iff_eq_none]
  rfl

theorem mem_of_freeSlot (h : s.machine.freeSlot = some i) : i ∈ s.emptySlots := by
  have hfound := List.find?_some h
  have hmem := List.mem_of_find?_eq_some h
  exact Finset.mem_filter.mpr ⟨Finset.mem_range.mpr (List.mem_range.mp hmem),
    Option.isNone_iff_eq_none.mp hfound⟩

structure NotesSegment (s s' : System) (ip : ℕ) : Prop where
  same : SameSpaces s s'
  pool : s'.unusedVmas.card + 1 = s.unusedVmas.card
  slots : s'.emptySlots.card + 1 = s.emptySlots.card
  refs : s.iref ip ≤ s'.iref ip

def noteSegment (s : System) (ip : ℕ) (ph : ProgHdr) (p i : ℕ) : System :=
  { s.setProc s.current { s.myTask with task := { s.myTask.task with
      vma := Function.update s.myTask.task.vma i (some p) } } with
    iref := Function.update s.iref ip (s.iref ip + 1)
    vmaTable := Function.update s.vmaTable p (ph.toVma ip) }

theorem noteSegment_spec {p : ℕ} (hp : p ∈ s.unusedVmas) (hi : i ∈ s.emptySlots) :
    NotesSegment s (noteSegment s ip ph p i) ip where
  same := by
    have h : SameSpaces s (s.setProc s.current { s.myTask with task := { s.myTask.task with
        vma := Function.update s.myTask.task.vma i (some p) } }) := .setProc rfl rfl rfl
    exact ⟨h.current, h.contents, h.ram, h.frame, h.root, h.sz⟩
  pool := by
    have heq : (noteSegment s ip ph p i).unusedVmas = s.unusedVmas.erase p := by
      ext q
      rw [Finset.mem_erase]
      unfold System.unusedVmas
      rw [Finset.mem_filter, Finset.mem_filter]
      change _ ∧ (Function.update s.vmaTable p (ph.toVma ip) q).IsUnused ↔ _
      by_cases hq : q = p
      · subst hq
        rw [Function.update_self]
        simp [Vma.IsUnused, ProgHdr.toVma]
      · rw [Function.update_of_ne hq]
        simp [hq]
    have hpos := Finset.card_pos.mpr ⟨p, hp⟩
    rw [heq, Finset.card_erase_of_mem hp]
    omega
  slots := by
    have heq : (noteSegment s ip ph p i).emptySlots = s.emptySlots.erase i := by
      ext j
      rw [Finset.mem_erase]
      unfold System.emptySlots
      rw [Finset.mem_filter, Finset.mem_filter]
      have hslot : (noteSegment s ip ph p i).myTask.task.vma =
          Function.update s.myTask.task.vma i (some p) :=
        congrArg (fun q => q.task.vma) System.setProc_self
      rw [hslot]
      by_cases hj : j = i
      · subst hj
        rw [Function.update_self]
        simp
      · rw [Function.update_of_ne hj]
        simp [hj]
    have hpos := Finset.card_pos.mpr ⟨i, hi⟩
    rw [heq, Finset.card_erase_of_mem hi]
    omega
  refs := by
    change _ ≤ Function.update s.iref ip (s.iref ip + 1) ip
    rw [Function.update_self]
    omega

theorem lazyLoadSeg_spec (s : System) (ip : ℕ) (ph : ProgHdr) :
    (0 < s.unusedVmas.card ∧ 0 < s.emptySlots.card ∧
        ∃ s', lazyLoadSeg ip ph s = .ok ((), s') ∧ NotesSegment s s' ip) ∨
      ((s.unusedVmas.card = 0 ∨ s.emptySlots.card = 0) ∧
        ∃ msg, lazyLoadSeg ip ph s = .error (.panic msg)) := by
  unfold lazyLoadSeg
  cases hv : s.machine.freeVma with
  | none =>
    refine .inr ⟨.inl ?_, "not enough vma", ?_⟩
    · rw [freeVma_eq_none_iff.mp hv, Finset.card_empty]
    · apply bind_of_error
      rw [onMachine, get_bind, allocVma, get_bind, hv]
      rfl
  | some p =>
    have halloc : onMachine allocVma s = .ok (p, s) := by
      rw [onMachine, get_bind, allocVma, get_bind, hv]
      exact congrArg (fun s => Except.ok (p, s)) s.setMachine_machine
    have hp := mem_of_freeVma hv
    rw [bind_of_ok halloc]
    unfold inodeDup
    rw [bind_assoc, modify_bind, pure_bind, modify_bind, get_bind]
    have hslot : ∀ vmas refs, ({ s with vmaTable := vmas, iref := refs } : System).machine.freeSlot =
      s.machine.freeSlot := fun _ _ => rfl
    cases hi : s.machine.freeSlot with
    | none =>
      refine .inr ⟨.inr ?_, "lazy load segment", ?_⟩
      · rw [freeSlot_eq_none_iff.mp hi, Finset.card_empty]
      · simp only [hslot, hi]
        rfl
    | some i =>
      have hempty := mem_of_freeSlot hi
      refine .inl ⟨Finset.card_pos.mpr ⟨p, hp⟩, Finset.card_pos.mpr ⟨i, hempty⟩,
        noteSegment s ip ph p i, ?_, noteSegment_spec hp hempty⟩
      simp only [hslot, hi]
      rfl

def loadCount (content : List UInt8) (phoff i n : ℕ) : ℕ :=
  (List.range' i n).countP fun j => (readProgHdr content phoff j).any fun ph => ph.IsLoad

/-- Of the `n` program headers from number `i` on, the first `k` are good, and they are all or a bad
one follows. -/
structure StopsAt (content : List UInt8) (phoff i n k : ℕ) : Prop where
  le : k ≤ n
  good : ∀ j < k, ¬IsBadHeader content phoff (i + j)
  bad : k < n → IsBadHeader content phoff (i + k)

theorem StopsAt.tail (h : StopsAt content phoff i (n + 1) (k + 1)) :
    StopsAt content phoff (i + 1) n k where
  le := Nat.le_of_succ_le_succ h.le
  good j hj := by
    rw [Nat.add_assoc, Nat.add_comm 1]
    exact h.good (j + 1) (Nat.succ_lt_succ hj)
  bad hk := by
    rw [Nat.add_assoc, Nat.add_comm 1]
    exact h.bad (Nat.succ_lt_succ hk)

theorem StopsAt.exists (content : List UInt8) (phoff i n : ℕ) :
    ∃ k, StopsAt content phoff i n k := by
  induction n with
  | zero => exact ⟨0, le_rfl, fun _ h => absurd h (Nat.not_lt_zero _), fun h => absurd h (lt_irrefl 0)⟩
  | succ n ih =>
    obtain ⟨k, hk⟩ := ih
    rcases hk.le.lt_or_eq with hlt | rfl
    · exact ⟨k, hk.le.trans (Nat.le_succ n), hk.good, fun _ => hk.bad hlt⟩
    · by_cases hb : IsBadHeader content phoff (i + k)
      · exact ⟨k, Nat.le_succ k, hk.good, fun _ => hb⟩
      · refine ⟨k + 1, le_rfl, fun j hj => ?_, fun h => absurd h (lt_irrefl _)⟩
        rcases Nat.lt_succ_iff_lt_or_eq.mp hj with hj | rfl
        · exact hk.good j hj
        · exact hb

theorem StopsAt.unique {k' : ℕ} (h : StopsAt content phoff i n k)
    (h' : StopsAt content phoff i n k') : k = k' := by
  by_contra hne
  rcases Nat.lt_or_gt_of_ne hne with hlt | hlt
  · exact h'.good k hlt (h.bad (hlt.trans_le h'.le))
  · exact h.good k' hlt (h'.bad (hlt.trans_le h.le))

/-- The loop of `exec` over the program headers: it stops at the first bad one, or the room for
mappings is used up before. -/
theorem loadSegments_spec (hk : StopsAt content phoff i n k) :
    (loadCount content phoff i k ≤ s.unusedVmas.card ∧
        loadCount content phoff i k ≤ s.emptySlots.card ∧
        ∃ s', loadSegments ip content phoff n i sz s = .ok ((decide (k = n),
          (List.range' i k).foldl (fun sz i => endOf content phoff i sz) sz), s') ∧
          SameSpaces s s' ∧ s.iref ip ≤ s'.iref ip) ∨
      ((s.unusedVmas.card < loadCount content phoff i k ∨
          s.emptySlots.card < loadCount content phoff i k) ∧
        ∃ msg, loadSegments ip content phoff n i sz s = .error (.panic msg)) := by
  induction n generalizing i k sz s with
  | zero =>
    obtain rfl : k = 0 := Nat.le_zero.mp hk.le
    exact .inl ⟨Nat.zero_le _, Nat.zero_le _, s, rfl, .refl, le_rfl⟩
  | succ n ih =>
    rw [loadSegments]
    cases k with
    | zero =>
      refine .inl ⟨Nat.zero_le _, Nat.zero_le _, s, ?_, .refl, le_rfl⟩
      have hbad := hk.bad (Nat.succ_pos n)
      rw [Nat.add_zero] at hbad
      cases hph : readProgHdr content phoff i with
      | none => rfl
      | some ph =>
        obtain ⟨hload, hb⟩ := hbad ph hph
        dsimp only
        rw [if_neg (not_not.mpr hload), if_pos hb]
        rfl
    | succ k =>
      have hgood := hk.good 0 (Nat.succ_pos k)
      rw [Nat.add_zero] at hgood
      have hdec : decide (k + 1 = n + 1) = decide (k = n) := decide_eq_decide.mpr (by omega)
      cases hph : readProgHdr content phoff i with
      | none =>
        exfalso
        apply hgood
        intro ph hc
        rw [hph] at hc
        cases hc
      | some ph =>
        dsimp only
        rw [hdec, List.range'_succ, List.foldl_cons, loadCount, List.range'_succ, List.countP_cons,
          hph]
        have hend : endOf content phoff i sz =
            if ph.IsLoad then (ph.vaddr + ph.memsz) % 2 ^ 64 else sz := by
          rw [endOf, hph]
        rw [hend]
        have hany : (some ph).any (fun ph => decide ph.IsLoad) = decide ph.IsLoad := rfl
        rw [hany]
        by_cases hload : ph.IsLoad
        · have hnot : ¬ph.IsBad := fun hb => hgood fun ph' hph' => by
            rw [hph] at hph'
            cases hph'
            exact ⟨hload, hb⟩
          rw [if_neg (not_not.mpr hload), if_neg hnot, if_pos hload]
          simp only [hload, decide_true, if_true]
          rcases lazyLoadSeg_spec s ip ph with ⟨hv, hs, s₁, hrun, hn⟩ | ⟨hnone, msg, herr⟩
          · rw [bind_of_ok hrun]
            have hpool := hn.pool
            have hslots := hn.slots
            rcases ih hk.tail (s := s₁) with ⟨h₁, h₂, s', hrest, hsame, href⟩ | ⟨hroom, herr⟩
            · unfold loadCount at h₁ h₂
              exact .inl ⟨by omega, by omega, s', hrest, hn.same.trans hsame, hn.refs.trans href⟩
            · unfold loadCount at hroom
              exact .inr ⟨by omega, herr⟩
          · exact .inr ⟨by omega, msg, bind_of_error herr⟩
        · rw [if_pos hload, if_neg hload]
          simp only [hload, decide_false, Bool.false_eq_true, if_false, Nat.add_zero]
          exact ih hk.tail

end StartOS
