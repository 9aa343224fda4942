import Mathlib.Data.List.Nodup
import Mathlib.Data.List.Perm.Subperm
import StartOS.Device.Virtio

/-! # The descriptors of the virtio disk

Who holds `vdiskLock`, which call holds which descriptor, and what the descriptors
of a call contain while it builds its chain, waits and frees it again.
-/

namespace StartOS

namespace RwPc

variable {p q : RwPc} {x : DescTriple} {i : ℕ}

/-- The call holds `vdiskLock`. -/
def locked : RwPc → Bool
  | alloc _ | undo _ | fill _ _ | ring _ | publish _ | test _ | clear _ | freeChain _ _ | release
  | panic _ => true
  | _ => false

def submitted : RwPc → Bool
  | test _ | asleep _ | relock _ | clear _ | freeChain _ _ | release | returned => true
  | _ => false

def finished : RwPc → Bool
  | clear _ | freeChain _ _ | release | returned => true
  | _ => false

def Stays (p q : RwPc) : Prop :=
  q = p ∨ p = asleepFree ∧ q = acquire ∨ ∃ x, p = asleep x ∧ q = relock x

theorem Stays.rfl : p.Stays p := .inl (Eq.refl p)

theorem woken_stays (chan : VirtioChan) (buf : ℕ) (p : RwPc) : p.Stays (p.woken chan buf) := by
  cases p with
  | asleepFree =>
    by_cases hc : chan = .free
    · exact .inr (.inl ⟨.refl _, if_pos hc⟩)
    · exact .inl (if_neg hc)
  | asleep x =>
    by_cases hc : chan = .data buf
    · exact .inr (.inr ⟨x, .refl _, if_pos hc⟩)
    · exact .inl (if_neg hc)
  | _ => exact .rfl

theorem Stays.held (h : p.Stays q) : q.held = p.held := by
  obtain rfl | ⟨rfl, rfl⟩ | ⟨x, rfl, rfl⟩ := h
  · exact .refl _
  · exact .refl _
  · exact .refl _

theorem Stays.locked (h : p.Stays q) : q.locked = p.locked := by
  obtain rfl | ⟨rfl, rfl⟩ | ⟨x, rfl, rfl⟩ := h
  · exact .refl _
  · exact .refl _
  · exact .refl _

theorem Stays.waits (h : p.Stays q) : q.waits = p.waits := by
  obtain rfl | ⟨rfl, rfl⟩ | ⟨x, rfl, rfl⟩ := h
  · exact .refl _
  · exact .refl _
  · exact .refl _

theorem Stays.submitted (h : p.Stays q) : q.submitted = p.submitted := by
  obtain rfl | ⟨rfl, rfl⟩ | ⟨x, rfl, rfl⟩ := h
  · exact .refl _
  · exact .refl _
  · exact .refl _

theorem Stays.finished (h : p.Stays q) : q.finished = p.finished := by
  obtain rfl | ⟨rfl, rfl⟩ | ⟨x, rfl, rfl⟩ := h
  · exact .refl _
  · exact .refl _
  · exact .refl _

theorem Stays.eq_of_locked (h : p.Stays q) (hq : q.locked) : q = p := by
  obtain rfl | ⟨rfl, rfl⟩ | ⟨x, rfl, rfl⟩ := h
  · exact .refl _
  · cases hq
  · cases hq

theorem Stays.of_asleep (h : p.Stays (asleep x)) : p = asleep x := by
  obtain h | ⟨-, h⟩ | ⟨y, -, h⟩ := h
  · exact h.symm
  · cases h
  · cases h

theorem allocated_cases (got : List ℕ) :
    allocated got = alloc got ∨ ∃ x, allocated got = fill .header x := by
  unfold allocated
  split
  · exact .inr ⟨_, .refl _⟩
  · exact .inl (.refl _)

theorem filled_cases (k : FillStep) (x : DescTriple) :
    filled k x = ring x ∨ ∃ k', filled k x = fill k' x := by
  unfold filled
  split
  · exact .inr ⟨_, .refl _⟩
  · exact .inl (.refl _)

theorem held_allocated (got : List ℕ) : (allocated got).held = got := by
  unfold allocated
  split
  · exact .refl _
  · exact .refl _

theorem locked_allocated (got : List ℕ) : (allocated got).locked := by
  unfold allocated
  split
  · exact .refl _
  · exact .refl _

theorem held_of_waits (h : p.waits = some x) : p.held = x.list := by
  cases p with
  | test y | asleep y | relock y =>
    cases h
    exact .refl _
  | _ => cases h

end RwPc

namespace FillStep

variable {c : RwArgs} {x : DescTriple} {d : VirtioDisk} {j : FillStep}

def rank : FillStep → ℕ
  | header => 0
  | first => 1
  | second => 2
  | third => 3
  | record => 4

def Stored (c : RwArgs) (x : DescTriple) (d : VirtioDisk) : FillStep → Prop
  | header => d.ops x.a = c.header
  | first => d.desc x.a = x.first
  | second => d.desc x.b = c.second x
  | third => d.desc x.c = x.third
  | record => (d.info x.a).data = c.buf ∧ (d.info x.a).finish = false

theorem store_self (k : FillStep) : k.Stored c x (k.store c x d) := by
  cases k <;> simp [Stored, store]

theorem Stored.store (h : j.Stored c x d) (hx : x.list.Nodup) (hne : j ≠ k) :
    j.Stored c x (k.store c x d) := by
  have hab : x.a ≠ x.b ∧ x.a ≠ x.c ∧ x.b ≠ x.c := by
    simpa [DescTriple.list, and_assoc] using hx
  obtain ⟨hab, hac, hbc⟩ := hab
  cases j <;> cases k <;> simp_all [Stored, FillStep.store, Function.update_of_ne, Ne.symm]

theorem store_of_not_mem {k : FillStep} {i : ℕ} (hi : i ∉ x.list) :
    (k.store c x d).desc i = d.desc i ∧ (k.store c x d).ops i = d.ops i ∧
      (k.store c x d).info i = d.info i := by
  have hne : i ≠ x.a ∧ i ≠ x.b ∧ i ≠ x.c := by
    simpa [DescTriple.list] using hi
  obtain ⟨ha, hb, hc⟩ := hne
  cases k <;> simp [store, ha, hb, hc]

theorem Stored.congr {d' : VirtioDisk} (h : j.Stored c x d)
    (hmem : ∀ i ∈ x.list, d'.desc i = d.desc i ∧ d'.ops i = d.ops i ∧
      (d'.info i).data = (d.info i).data)
    (hfin : ∀ i ∈ x.list, (d'.info i).finish = (d.info i).finish) : j.Stored c x d' := by
  obtain ⟨ha, ha', ha''⟩ := hmem x.a (by simp [DescTriple.list])
  obtain ⟨hb, -⟩ := hmem x.b (by simp [DescTriple.list])
  obtain ⟨hc, -⟩ := hmem x.c (by simp [DescTriple.list])
  have hf := hfin x.a (by simp [DescTriple.list])
  cases j with
  | header => exact ha'.trans h
  | first => exact ha.trans h
  | second => exact hb.trans h
  | third => exact hc.trans h
  | record => exact ⟨ha''.trans h.1, hf.trans h.2⟩

end FillStep

theorem DescTriple.first_goes (x : DescTriple) : x.first.flags &&& VirtioDisk.descNext ≠ 0 := by
  change 1 &&& 1 ≠ 0
  decide

theorem RwArgs.second_goes (c : RwArgs) (x : DescTriple) :
    (c.second x).flags &&& VirtioDisk.descNext ≠ 0 := by
  change ((if c.write then 0 else 2) ||| 1) &&& 1 ≠ 0
  cases c.write
  · decide
  · decide

theorem DescTriple.third_ends (x : DescTriple) : ¬x.third.flags &&& VirtioDisk.descNext ≠ 0 := by
  change ¬2 &&& 1 ≠ 0
  decide

def RwArgs.content (c : RwArgs) (x : DescTriple) (i : ℕ) : VirtqDesc :=
  if i = x.a then x.first else if i = x.b then c.second x else x.third

structure RwArgs.Linked (c : RwArgs) (x : DescTriple) (d : VirtioDisk) : Prop where
  ops : d.ops x.a = c.header
  desc : ∀ i ∈ x.list, d.desc i = c.content x i
  data : (d.info x.a).data = c.buf

namespace RwPc

variable {c : RwArgs} {d d' : VirtioDisk} {p q : RwPc} {x : DescTriple} {i : ℕ}

def Filled (c : RwArgs) (d : VirtioDisk) : RwPc → Prop
  | fill k x => ∀ j : FillStep, j.rank < k.rank → j.Stored c x d
  | ring x | publish x => ∀ j : FillStep, j.Stored c x d
  | test x | asleep x | relock x | clear x => c.Linked x d
  | freeChain x i =>
    x.list.Nodup ∧ i ∈ x.list ∧ ∀ j ∈ x.list.dropWhile (· ≠ i), d.desc j = c.content x j
  | _ => True

theorem Stays.filled (h : p.Stays q) (hp : p.Filled c d) : q.Filled c d := by
  obtain rfl | ⟨rfl, rfl⟩ | ⟨x, rfl, rfl⟩ := h
  · exact hp
  · exact hp
  · exact hp

theorem Filled.congr (h : p.Filled c d)
    (hmem : ∀ i ∈ p.held, d'.desc i = d.desc i ∧ d'.ops i = d.ops i ∧
      (d'.info i).data = (d.info i).data)
    (hfin : p.locked → ∀ i ∈ p.held, (d'.info i).finish = (d.info i).finish) :
    p.Filled c d' := by
  have hlinked : ∀ x : DescTriple, p.held = x.list → c.Linked x d → c.Linked x d' := by
    rintro x hx ⟨h₁, h₂, h₃⟩
    rw [hx] at hmem
    obtain ⟨-, ha, ha'⟩ := hmem x.a List.mem_cons_self
    exact ⟨ha.trans h₁, fun i hi => (hmem i hi).1.trans (h₂ i hi), ha'.trans h₃⟩
  cases p with
  | fill k x => exact fun j hj => (h j hj).congr hmem (hfin rfl)
  | ring x => exact fun j => (h j).congr hmem (hfin rfl)
  | publish x => exact fun j => (h j).congr hmem (hfin rfl)
  | test x => exact hlinked x rfl h
  | asleep x => exact hlinked x rfl h
  | relock x => exact hlinked x rfl h
  | clear x => exact hlinked x rfl h
  | freeChain x i => exact ⟨h.1, h.2.1, fun j hj => (hmem j hj).1.trans (h.2.2 j hj)⟩
  | _ => trivial

theorem linked_of_stored (hx : x.list.Nodup) (h : ∀ j : FillStep, j.Stored c x d) :
    c.Linked x d := by
  refine ⟨h .header, ?_, (h .record).1⟩
  have hab : x.b ≠ x.a ∧ x.c ≠ x.a ∧ x.c ≠ x.b := by
    simp only [DescTriple.list, List.nodup_cons, List.mem_cons, List.not_mem_nil, not_or] at hx
    exact ⟨Ne.symm hx.1.1, Ne.symm hx.1.2.1, Ne.symm hx.2.1.1⟩
  obtain ⟨hba, hca, hcb⟩ := hab
  intro i hi
  simp only [DescTriple.list, List.mem_cons, List.not_mem_nil, or_false] at hi
  unfold RwArgs.content
  obtain rfl | rfl | rfl := hi
  · rw [if_pos rfl]
    exact h .first
  · rw [if_neg hba, if_pos rfl]
    exact h .second
  · rw [if_neg hca, if_neg hcb]
    exact h .third

theorem Filled.linked (h : p.Filled c d) (hx : p.waits = some x) : c.Linked x d := by
  cases p with
  | test y | asleep y | relock y =>
    cases hx
    exact h
  | _ => cases hx

theorem Filled.next_cases (h : (freeChain x i).Filled c d) :
    i = x.a ∧ (freeChain x i).held = [i, x.b, x.c] ∧ (freeChain x x.b).held = [x.b, x.c] ∧
        d.desc i = x.first ∨
      i = x.b ∧ (freeChain x i).held = [i, x.c] ∧ (freeChain x x.c).held = [x.c] ∧
        d.desc i = c.second x ∨
      i = x.c ∧ (freeChain x i).held = [i] ∧ d.desc i = x.third := by
  obtain ⟨hx, hi, hdesc⟩ := h
  have hab : x.a ≠ x.b ∧ x.a ≠ x.c ∧ x.b ≠ x.c := by
    simpa [DescTriple.list, and_assoc] using hx
  obtain ⟨hab, hac, hbc⟩ := hab
  have hfirst : i ∈ (freeChain x i).held := by
    have hmem : i ∈ x.list := hi
    simp only [DescTriple.list, List.mem_cons, List.not_mem_nil, or_false] at hmem
    obtain rfl | rfl | rfl := hmem
    · simp [held, DescTriple.list]
    · simp [held, DescTriple.list, hab]
    · simp [held, DescTriple.list, hac, hbc]
  have hd := hdesc i hfirst
  simp only [DescTriple.list, List.mem_cons, List.not_mem_nil, or_false] at hi
  obtain rfl | rfl | rfl := hi
  · refine .inl ⟨rfl, ?_, ?_, ?_⟩
    · simp [held, DescTriple.list]
    · simp [held, DescTriple.list, hab]
    · rw [hd, RwArgs.content, if_pos rfl]
  · refine .inr (.inl ⟨rfl, ?_, ?_, ?_⟩)
    · simp [held, DescTriple.list, hab]
    · simp [held, DescTriple.list, hac, hbc]
    · rw [hd, RwArgs.content, if_neg hab.symm, if_pos rfl]
  · refine .inr (.inr ⟨rfl, ?_, ?_⟩)
    · simp [held, DescTriple.list, hac, hbc]
    · rw [hd, RwArgs.content, if_neg hac.symm, if_neg hbc.symm]

/-- `free_chain` goes on at the next descriptor of the chain, and is over after the last. -/
theorem Filled.next (h : (freeChain x i).Filled c d) {q : RwPc}
    (hq : q = if (d.desc i).flags &&& VirtioDisk.descNext ≠ 0 then freeChain x (d.desc i).next
      else release) :
    (freeChain x i).held = i :: q.held ∧ q.locked ∧ q.Filled c d := by
  have hcases := h.next_cases
  obtain ⟨hx, -, hdesc⟩ := h
  obtain ⟨rfl, hheld, hrest, hd⟩ | ⟨rfl, hheld, hrest, hd⟩ | ⟨rfl, hheld, hd⟩ := hcases
  · rw [hd, if_pos x.first_goes] at hq
    subst hq
    refine ⟨hheld.trans (congrArg _ hrest.symm), rfl, hx, ?_, ?_⟩
    · simp [DescTriple.list, DescTriple.first]
    · intro j hj
      change j ∈ (freeChain x x.b).held at hj
      rw [hrest] at hj
      refine hdesc j ?_
      change j ∈ (freeChain x x.a).held
      rw [hheld]
      exact List.mem_cons_of_mem _ hj
  · rw [hd, if_pos (c.second_goes x)] at hq
    subst hq
    refine ⟨hheld.trans (congrArg _ hrest.symm), rfl, hx, ?_, ?_⟩
    · simp [DescTriple.list, RwArgs.second]
    · intro j hj
      change j ∈ (freeChain x x.c).held at hj
      rw [hrest] at hj
      refine hdesc j ?_
      change j ∈ (freeChain x x.b).held
      rw [hheld]
      exact List.mem_cons_of_mem _ hj
  · rw [hd, if_neg x.third_ends] at hq
    subst hq
    exact ⟨hheld, rfl, trivial⟩

theorem filled_allocated (got : List ℕ) : (allocated got).Filled c d := by
  unfold allocated
  split
  · intro j hj
    exact absurd hj (Nat.not_lt_zero _)
  · trivial

theorem Filled.store {k : FillStep} (h : (fill k x).Filled c d) (hx : x.list.Nodup) :
    (filled k x).Filled c (k.store c x d) := by
  have hstored : ∀ j : FillStep, j.rank < k.rank + 1 → j.Stored c x (k.store c x d) := by
    intro j hj
    by_cases hjk : j = k
    · rw [hjk]
      exact k.store_self
    · refine (h j ?_).store hx hjk
      have hne : j.rank ≠ k.rank := by
        cases j <;> cases k <;> simp_all [FillStep.rank]
      omega
  cases k with
  | record =>
    intro j
    refine hstored j ?_
    cases j <;> decide
  | _ => exact fun j hj => hstored j hj

end RwPc

namespace TakenChain

variable (e : TakenChain) (d : VirtioDisk)

theorem complete_eq : ∃ info, e.complete d = { d with info := info } ∧
    ∀ i, (info i).data = (d.info i).data ∧ (info i).finish = (d.info i).finish := by
  unfold complete
  split
  · rename_i j _ _ _ _
    refine ⟨_, rfl, fun i => ?_⟩
    by_cases hij : i = j
    · simp [hij]
    · simp [hij]
  · exact ⟨_, rfl, fun i => ⟨rfl, rfl⟩⟩

end TakenChain

/-- The interrupt holds `vdiskLock`. -/
def IntrPc.locked : IntrPc → Bool
  | test | read | check _ | mark _ | release | panic _ => true
  | _ => false

namespace VirtioState

open VirtioDisk

variable {ι κ : Type*} {s s' : VirtioState ι κ} {t u : ι} {k : κ} {a : ι ⊕ κ} {i : ℕ}
  {calls : ι → RwArgs} {p q : RwPc}

/-- Call `t` goes from `p` to `q`, and the others stay where they are or are woken. -/
structure Moved (s s' : VirtioState ι κ) (t : ι) (p q : RwPc) : Prop where
  before : s.rw t = p
  after : s'.rw t = q
  others : ∀ u, u ≠ t → (s.rw u).Stays (s'.rw u)

section

variable [DecidableEq ι]

theorem Moved.of_goto (hp : s.rw t = p) (h : s'.rw = Function.update s.rw t q) :
    s.Moved s' t p q where
  before := hp
  after := by rw [h, Function.update_self]
  others u hu := by
    rw [h, Function.update_of_ne hu]
    exact .rfl

theorem Moved.of_wakeup {chan : VirtioChan} (hp : s.rw t = p)
    (h : s'.rw = Function.update (s.wakeup calls chan).rw t q) : s.Moved s' t p q where
  before := hp
  after := by rw [h, Function.update_self]
  others u hu := by
    rw [h, Function.update_of_ne hu]
    exact RwPc.woken_stays ..

end

structure MovedIntr (s s' : VirtioState ι κ) (k : κ) (p q : IntrPc) : Prop where
  before : s.intr k = p
  after : s'.intr k = q
  others : ∀ k', k' ≠ k → s'.intr k' = s.intr k'

theorem MovedIntr.of_goto [DecidableEq κ] {p q : IntrPc} (hp : s.intr k = p)
    (h : s'.intr = Function.update s.intr k q) : s.MovedIntr s' k p q where
  before := hp
  after := by rw [h, Function.update_self]
  others k' hk := by rw [h, Function.update_of_ne hk]

theorem Moved.waits (h : s.Moved s' t p q) (hq : q.waits = p.waits) (u : ι) :
    (s'.rw u).waits = (s.rw u).waits := by
  by_cases hu : u = t
  · rw [hu, h.before, h.after, hq]
  · exact (h.others u hu).waits

theorem Moved.submitted (h : s.Moved s' t p q) (hq : p.submitted → q.submitted) (u : ι)
    (hsub : (s.rw u).submitted) : (s'.rw u).submitted := by
  by_cases hu : u = t
  · rw [hu, h.before] at hsub
    rw [hu, h.after]
    exact hq hsub
  · rwa [(h.others u hu).submitted]

theorem Moved.finished (h : s.Moved s' t p q) (hq : q.finished → p.finished) (u : ι)
    (hf : (s'.rw u).finished) : (s.rw u).finished := by
  by_cases hu : u = t
  · rw [hu, h.after] at hf
    rw [hu, h.before]
    exact hq hf
  · rwa [(h.others u hu).finished] at hf

theorem Moved.eq_of_locked {r : RwPc} (h : s.Moved s' t p q) (hq : q ≠ r) (hr : r.locked)
    (hu : s'.rw u = r) : s.rw u = r := by
  by_cases hut : u = t
  · rw [hut, h.after] at hu
    exact absurd hu hq
  · rw [← (h.others u hut).eq_of_locked (by rw [hu, hr]), hu]

theorem Moved.asleep {x : DescTriple} (h : s.Moved s' t p q) (hu : s'.rw u = .asleep x) :
    s.rw u = .asleep x ∨ u = t ∧ q = .asleep x := by
  by_cases hut : u = t
  · rw [hut, h.after] at hu
    exact .inr ⟨hut, hu⟩
  · have hstay := h.others u hut
    rw [hu] at hstay
    exact .inl hstay.of_asleep

theorem Moved.held (h : s.Moved s' t p q) (hq : q.held = p.held) (u : ι) :
    (s'.rw u).held = (s.rw u).held := by
  by_cases hu : u = t
  · rw [hu, h.before, h.after, hq]
  · exact (h.others u hu).held

/-! ## The lock -/

/-- A call or an interrupt is where it holds `vdiskLock`. -/
def inside (s : VirtioState ι κ) : ι ⊕ κ → Bool
  | .inl t => (s.rw t).locked
  | .inr k => (s.intr k).locked

/-- `vdiskLock` is held by the one who is inside. -/
def Locked (s : VirtioState ι κ) : Prop := ∀ a, s.lock = some a ↔ s.inside a

theorem Locked.unique {b : ι ⊕ κ} (h : s.Locked) (ha : s.inside a) (hb : s.inside b) : a = b :=
  Option.some.inj (((h a).mpr ha).symm.trans ((h b).mpr hb))

theorem Locked.call_unique (h : s.Locked) (ht : (s.rw t).locked) (hu : (s.rw u).locked) : t = u :=
  Sum.inl.inj (h.unique (a := .inl t) (b := .inl u) ht hu)

theorem Locked.intr_unique {k' : κ} (h : s.Locked) (hk : (s.intr k).locked)
    (hk' : (s.intr k').locked) : k = k' :=
  Sum.inr.inj (h.unique (a := .inr k) (b := .inr k') hk hk')

theorem Locked.not_call (h : s.Locked) (hk : (s.intr k).locked) : ¬(s.rw t).locked := by
  intro ht
  have heq := h.unique (a := .inr k) (b := .inl t) hk ht
  cases heq

theorem Locked.only (h : s.Locked) (hm : s.Moved s' t p q) (hp : p.locked)
    (hu : (s'.rw u).locked) : u = t := by
  by_contra hne
  rw [(hm.others u hne).locked] at hu
  refine hne (h.call_unique hu ?_)
  rw [hm.before]
  exact hp

theorem Locked.step (h : s.Locked) (hother : ∀ b, b ≠ a → s'.inside b = s.inside b)
    (hself : s'.lock = s.lock ∧ s'.inside a = s.inside a ∨
      s.lock = none ∧ s'.lock = some a ∧ s'.inside a = true ∨
      s.inside a = true ∧ s'.lock = none ∧ s'.inside a = false) : s'.Locked := by
  intro b
  by_cases hb : b = a
  · subst hb
    obtain ⟨h₁, h₂⟩ | ⟨-, h₁, h₂⟩ | ⟨-, h₁, h₂⟩ := hself
    · rw [h₁, h₂]
      exact h b
    · rw [h₁, h₂]
      exact iff_of_true rfl rfl
    · rw [h₁, h₂]
      exact iff_of_false (by nofun) (by nofun)
  · rw [hother b hb, ← h b]
    obtain ⟨h₁, -⟩ | ⟨h₁, h₂, -⟩ | ⟨h₁, h₂, -⟩ := hself
    · rw [h₁]
    · simp [h₁, h₂, Ne.symm hb]
    · simp [h₂, (h a).mpr h₁, Ne.symm hb]

theorem Locked.call (h : s.Locked) (hm : s.Moved s' t p q) (hintr : s'.intr = s.intr)
    (hself : s'.lock = s.lock ∧ q.locked = p.locked ∨
      s.lock = none ∧ s'.lock = some (.inl t) ∧ q.locked = true ∨
      p.locked = true ∧ s'.lock = none ∧ q.locked = false) : s'.Locked := by
  obtain ⟨rfl, rfl, hothers⟩ := hm
  refine h.step (a := .inl t) ?_ hself
  rintro (u | k) hb
  · exact (hothers u fun hu => hb (congrArg _ hu)).locked
  · exact congrArg (fun f => (f k).locked) hintr

theorem Locked.ofIntr {p q : IntrPc} (h : s.Locked) (hm : s.MovedIntr s' k p q)
    (hrw : ∀ u, (s.rw u).Stays (s'.rw u))
    (hself : s'.lock = s.lock ∧ q.locked = p.locked ∨
      s.lock = none ∧ s'.lock = some (.inr k) ∧ q.locked = true ∨
      p.locked = true ∧ s'.lock = none ∧ q.locked = false) : s'.Locked := by
  obtain ⟨rfl, rfl, hothers⟩ := hm
  refine h.step (a := .inr k) ?_ hself
  rintro (u | k') hb
  · exact (hrw u).locked
  · exact congrArg IntrPc.locked (hothers k' fun hk => hb (congrArg _ hk))

/-! ## Who holds what -/

structure Owned (s : VirtioState ι κ) : Prop where
  nodup : ∀ t, (s.rw t).held.Nodup
  used : ∀ t, ∀ i ∈ (s.rw t).held, i < num ∧ s.disk.free i = false
  disjoint : ∀ t u i, i ∈ (s.rw t).held → i ∈ (s.rw u).held → t = u
  owner : ∀ i < num, s.disk.free i = false → ∃ t, i ∈ (s.rw t).held

theorem Owned.frame (h : s.Owned) (hheld : ∀ t, (s'.rw t).held = (s.rw t).held)
    (hfree : s'.disk.free = s.disk.free) : s'.Owned where
  nodup t := by
    rw [hheld]
    exact h.nodup t
  used t i hi := by
    rw [hheld] at hi
    rw [hfree]
    exact h.used t i hi
  disjoint t u i ht hu := by
    rw [hheld] at ht hu
    exact h.disjoint t u i ht hu
  owner i hi hf := by
    rw [hfree] at hf
    obtain ⟨t, ht⟩ := h.owner i hi hf
    exact ⟨t, by rwa [hheld]⟩

theorem Owned.call (h : s.Owned) (hm : s.Moved s' t p q) (hq : q.held = p.held)
    (hfree : s'.disk.free = s.disk.free) : s'.Owned := h.frame (hm.held hq) hfree

theorem allocDesc_some {d d' : VirtioDisk} (h : d.allocDesc = some (i, d')) :
    i < num ∧ d.free i = true ∧ d' = { d with free := Function.update d.free i false } := by
  obtain ⟨j, hj, heq⟩ := Option.map_eq_some_iff.mp h
  cases heq
  exact ⟨List.mem_range.mp (List.mem_of_find?_eq_some hj), List.find?_some hj, rfl⟩

theorem freeDesc_ok {d d' : VirtioDisk} (h : d.freeDesc i = .ok d') :
    d' = { d with
      desc := Function.update d.desc i ⟨.null, 0, 0, 0⟩
      free := Function.update d.free i true } := by
  unfold freeDesc at h
  split at h
  · cases h
  · split at h
    · cases h
    · cases h
      rfl

theorem Owned.freeDesc_ne (h : s.Owned) (hi : i ∈ (s.rw t).held) (p : VirtioPanic) :
    s.disk.freeDesc i ≠ .error p := by
  obtain ⟨hlt, hf⟩ := h.used t i hi
  unfold freeDesc
  rw [if_neg (by omega), hf]
  nofun

theorem Owned.alloc {d : VirtioDisk} (h : s.Owned) (hm : s.Moved s' t p q)
    (hd : s.disk.allocDesc = some (i, d)) (hdisk : s'.disk = d)
    (ht : q.held = p.held ++ [i]) : s'.Owned := by
  obtain ⟨hlt, hf, rfl⟩ := allocDesc_some hd
  obtain ⟨rfl, rfl, hothers⟩ := hm
  have hnew : ∀ u, i ∉ (s.rw u).held := by
    intro u hu
    rw [(h.used u i hu).2] at hf
    cases hf
  have hmem : ∀ u j, j ∈ (s'.rw u).held ↔ j ∈ (s.rw u).held ∨ u = t ∧ j = i := by
    intro u j
    by_cases hu : u = t
    · subst hu
      rw [ht, List.mem_append, List.mem_singleton]
      simp
    · rw [(hothers u hu).held]
      simp [hu]
  refine ⟨?_, ?_, ?_, ?_⟩
  · intro u
    by_cases hu : u = t
    · rw [hu, ht]
      exact (h.nodup t).append (List.nodup_singleton i) (by simpa using hnew t)
    · rw [(hothers u hu).held]
      exact h.nodup u
  · intro u j hj
    rw [hdisk]
    obtain hj | ⟨-, rfl⟩ := (hmem u j).mp hj
    · have hne : j ≠ i := fun he => hnew u (he ▸ hj)
      change j < num ∧ Function.update s.disk.free i false j = false
      rw [Function.update_of_ne hne]
      exact h.used u j hj
    · exact ⟨hlt, Function.update_self ..⟩
  · intro u v j hu hv
    obtain hu | ⟨rfl, rfl⟩ := (hmem u j).mp hu
    · obtain hv | ⟨rfl, rfl⟩ := (hmem v j).mp hv
      · exact h.disjoint u v j hu hv
      · exact absurd hu (hnew u)
    · obtain hv | ⟨rfl, -⟩ := (hmem v j).mp hv
      · exact absurd hv (hnew v)
      · rfl
  · intro j hj hfj
    by_cases hji : j = i
    · exact ⟨t, (hmem t j).mpr (.inr ⟨rfl, hji⟩)⟩
    · rw [hdisk] at hfj
      change Function.update s.disk.free i false j = false at hfj
      rw [Function.update_of_ne hji] at hfj
      obtain ⟨u, hu⟩ := h.owner j hj hfj
      exact ⟨u, (hmem u j).mpr (.inl hu)⟩

theorem Owned.free {d : VirtioDisk} (h : s.Owned) (hm : s.Moved s' t p q)
    (hd : s.disk.freeDesc i = .ok d) (hdisk : s'.disk = d)
    (ht : p.held = i :: q.held) : s'.Owned := by
  obtain rfl := freeDesc_ok hd
  obtain ⟨rfl, rfl, hothers⟩ := hm
  have hnot : i ∉ (s'.rw t).held := by
    have hnodup := h.nodup t
    rw [ht] at hnodup
    exact (List.nodup_cons.mp hnodup).1
  have hmem : ∀ u j, j ∈ (s'.rw u).held ↔ j ∈ (s.rw u).held ∧ j ≠ i := by
    intro u j
    by_cases hu : u = t
    · subst hu
      rw [ht, List.mem_cons]
      constructor
      · intro hj
        exact ⟨.inr hj, fun he => hnot (he ▸ hj)⟩
      · rintro ⟨hj | hj, hne⟩
        · exact absurd hj hne
        · exact hj
    · rw [(hothers u hu).held]
      constructor
      · intro hj
        refine ⟨hj, ?_⟩
        rintro rfl
        exact hu (h.disjoint u t j hj (by simp [ht]))
      · exact And.left
  refine ⟨?_, ?_, ?_, ?_⟩
  · intro u
    by_cases hu : u = t
    · have hnodup := h.nodup t
      rw [ht] at hnodup
      rw [hu]
      exact hnodup.of_cons
    · rw [(hothers u hu).held]
      exact h.nodup u
  · intro u j hj
    obtain ⟨hj, hne⟩ := (hmem u j).mp hj
    rw [hdisk]
    change j < num ∧ Function.update s.disk.free i true j = false
    rw [Function.update_of_ne hne]
    exact h.used u j hj
  · intro u v j hu hv
    exact h.disjoint u v j ((hmem u j).mp hu).1 ((hmem v j).mp hv).1
  · intro j hj hfj
    rw [hdisk] at hfj
    change Function.update s.disk.free i true j = false at hfj
    have hne : j ≠ i := by
      rintro rfl
      rw [Function.update_self] at hfj
      cases hfj
    rw [Function.update_of_ne hne] at hfj
    obtain ⟨u, hu⟩ := h.owner j hj hfj
    exact ⟨u, (hmem u j).mpr ⟨hu, hne⟩⟩

theorem Owned.head_ne {x : DescTriple} (h : s.Owned) (hx : (s.rw t).waits = some x)
    (hi : i ∈ (s.rw u).held) (hne : t ≠ u) : x.a ≠ i := by
  rintro rfl
  refine hne (h.disjoint t u x.a ?_ hi)
  rw [RwPc.held_of_waits hx]
  exact List.mem_cons_self

theorem Owned.few {P : List ι} {ps : List ℕ} (h : s.Owned) (hP : P.Nodup) (hps : ps.Nodup)
    (hheld : ∀ p ∈ ps, ∃ i t, P[p]? = some t ∧ i ∈ (s.rw t).held) : ps.length ≤ num := by
  choose! f hf using hheld
  have hinj : (ps.map f).Nodup := by
    refine hps.map_on fun p hp q hq heq => ?_
    obtain ⟨t, hPp, ht⟩ := hf p hp
    obtain ⟨u, hPq, hu⟩ := hf q hq
    obtain rfl : t = u := h.disjoint t u (f p) ht (heq ▸ hu)
    obtain ⟨hlt, -⟩ := List.getElem?_eq_some_iff.mp hPp
    exact (List.getElem?_inj hlt hP).mp (hPp.trans hPq.symm)
  have hsub : ps.map f ⊆ List.range num := by
    intro i hi
    obtain ⟨p, hp, rfl⟩ := List.mem_map.mp hi
    obtain ⟨t, -, ht⟩ := hf p hp
    exact List.mem_range.mpr (h.used t _ ht).1
  have hle := (List.subperm_of_subset hinj hsub).length_le
  rwa [List.length_map, List.length_range] at hle

/-! ## What the descriptors contain -/

def Contents (calls : ι → RwArgs) (s : VirtioState ι κ) : Prop :=
  ∀ t, (s.rw t).Filled (calls t) s.disk

theorem Contents.call (h : s.Contents calls) (hown : s.Owned) (hm : s.Moved s' t p q)
    (hq : q.Filled (calls t) s'.disk)
    (hdisk : ∀ i, i ∉ p.held → s'.disk.desc i = s.disk.desc i ∧ s'.disk.ops i = s.disk.ops i ∧
      s'.disk.info i = s.disk.info i) : s'.Contents calls := by
  obtain ⟨rfl, rfl, hothers⟩ := hm
  intro u
  by_cases hu : u = t
  · rw [hu]
    exact hq
  · have hsame : ∀ i ∈ (s.rw u).held, s'.disk.desc i = s.disk.desc i ∧
        s'.disk.ops i = s.disk.ops i ∧ s'.disk.info i = s.disk.info i := fun i hi =>
      hdisk i fun ht => hu (hown.disjoint u t i hi ht)
    refine (hothers u hu).filled ((h u).congr ?_ ?_)
    · intro i hi
      obtain ⟨h₁, h₂, h₃⟩ := hsame i hi
      exact ⟨h₁, h₂, by rw [h₃]⟩
    · intro _ i hi
      rw [(hsame i hi).2.2]

/-- A call goes on with the descriptors as they are. -/
theorem Contents.pass (h : s.Contents calls) (hown : s.Owned) (hm : s.Moved s' t p q)
    (hq : p.Filled (calls t) s.disk → q.Filled (calls t) s'.disk)
    (hdisk : s'.disk.desc = s.disk.desc ∧ s'.disk.ops = s.disk.ops ∧ s'.disk.info = s.disk.info) :
    s'.Contents calls := by
  refine h.call hown hm (hq (hm.before ▸ h t)) fun i _ => ?_
  rw [hdisk.1, hdisk.2.1, hdisk.2.2]
  exact ⟨rfl, rfl, rfl⟩

theorem Contents.clear (h : s.Contents calls) (hown : s.Owned)
    (hm : s.Moved s' t (.clear x) (.freeChain x x.a)) (hdisk : s'.disk = { s.disk with
      info := Function.update s.disk.info x.a { s.disk.info x.a with data := 0 } }) :
    s'.Contents calls := by
  have hfilled := h t
  have hx := hown.nodup t
  rw [hm.before] at hfilled hx
  have hmem : x.a ∈ x.list := List.mem_cons_self
  refine h.call hown hm ?_ fun j hj => ?_
  · rw [hdisk]
    exact ⟨hx, hmem, fun j hj => hfilled.desc j ((List.dropWhile_suffix _).subset hj)⟩
  · have hne : j ≠ x.a := by
      rintro rfl
      exact hj hmem
    rw [hdisk]
    exact ⟨rfl, rfl, Function.update_of_ne hne _ _⟩

theorem Contents.freeChain {d : VirtioDisk} (h : s.Contents calls) (hown : s.Owned)
    (hm : s.Moved s' t (.freeChain x i) q)
    (hq : q = if (s.disk.desc i).flags &&& VirtioDisk.descNext ≠ 0
      then .freeChain x (s.disk.desc i).next else .release)
    (hd : s.disk.freeDesc i = .ok d) (hdisk : s'.disk = d) : s'.Contents calls := by
  have hfilled := h t
  have hnodup := hown.nodup t
  rw [hm.before] at hfilled hnodup
  obtain ⟨hheld, -, hnext⟩ := hfilled.next hq
  obtain rfl := freeDesc_ok hd
  rw [hheld] at hnodup
  have hne : ∀ j, j ≠ i → Function.update s.disk.desc i ⟨.null, 0, 0, 0⟩ j = s.disk.desc j :=
    fun j hj => Function.update_of_ne hj _ _
  refine h.call hown hm ?_ fun j hj => ?_
  · rw [hdisk]
    refine hnext.congr (fun j hj => ⟨hne j ?_, rfl, rfl⟩) fun _ _ _ => rfl
    rintro rfl
    exact (List.nodup_cons.mp hnodup).1 hj
  · rw [hdisk]
    refine ⟨hne j ?_, rfl, rfl⟩
    rintro rfl
    exact hj (hheld ▸ List.mem_cons_self)

theorem Owned.undo_ne {left : List ℕ} (h : s.Owned) (hpc : s.rw t = .undo (i :: left))
    (p : VirtioPanic) : s.disk.freeDesc i ≠ .error p := by
  refine h.freeDesc_ne (t := t) ?_ p
  rw [hpc]
  exact List.mem_cons_self

theorem Owned.freeChain_ne {x : DescTriple} (h : s.Owned) (hcont : s.Contents calls)
    (hpc : s.rw t = .freeChain x i) (p : VirtioPanic) : s.disk.freeDesc i ≠ .error p := by
  have hfilled := hcont t
  rw [hpc] at hfilled
  refine h.freeDesc_ne (t := t) ?_ p
  rw [hpc, (hfilled.next rfl).1]
  exact List.mem_cons_self

variable [DecidableEq ι] [DecidableEq κ]

theorem Step.locked (h : Step calls s s') (hcont : s.Contents calls) (hs : s.Locked) :
    s'.Locked := by
  cases h with
  | call t hpc => exact hs.call (.of_goto hpc rfl) rfl (.inl ⟨rfl, rfl⟩)
  | acquire t hpc hfree =>
    exact hs.call (.of_goto hpc rfl) rfl (.inr (.inl ⟨hfree, rfl, rfl⟩))
  | alloc t hpc hd =>
    exact hs.call (.of_goto hpc rfl) rfl (.inl ⟨rfl, RwPc.locked_allocated _⟩)
  | allocFails t hpc hd => exact hs.call (.of_goto hpc rfl) rfl (.inl ⟨rfl, rfl⟩)
  | undo t hpc hd => exact hs.call (.of_wakeup hpc rfl) rfl (.inl ⟨rfl, rfl⟩)
  | undoPanics t hpc hd => exact hs.call (.of_goto hpc rfl) rfl (.inl ⟨rfl, rfl⟩)
  | sleepFree t hpc => exact hs.call (.of_goto hpc rfl) rfl (.inr (.inr ⟨rfl, rfl, rfl⟩))
  | @fill t k x hpc =>
    refine hs.call (.of_goto hpc rfl) rfl (.inl ⟨rfl, ?_⟩)
    cases k <;> rfl
  | ring t hpc => exact hs.call (.of_goto hpc rfl) rfl (.inl ⟨rfl, rfl⟩)
  | publish t hpc => exact hs.call (.of_goto hpc rfl) rfl (.inl ⟨rfl, rfl⟩)
  | testFinish t hpc hf => exact hs.call (.of_goto hpc rfl) rfl (.inl ⟨rfl, rfl⟩)
  | testSleep t hpc hf => exact hs.call (.of_goto hpc rfl) rfl (.inr (.inr ⟨rfl, rfl, rfl⟩))
  | relock t hpc hfree =>
    exact hs.call (.of_goto hpc rfl) rfl (.inr (.inl ⟨hfree, rfl, rfl⟩))
  | clear t hpc => exact hs.call (.of_goto hpc rfl) rfl (.inl ⟨rfl, rfl⟩)
  | freeChain t hpc hd =>
    have hfilled := hcont t
    rw [hpc] at hfilled
    exact hs.call (.of_wakeup hpc rfl) rfl (.inl ⟨rfl, (hfilled.next rfl).2.1⟩)
  | freePanics t hpc hd => exact hs.call (.of_goto hpc rfl) rfl (.inl ⟨rfl, rfl⟩)
  | release t hpc => exact hs.call (.of_goto hpc rfl) rfl (.inr (.inr ⟨rfl, rfl, rfl⟩))
  | wakeOther t chan =>
    exact hs.call (.of_goto rfl rfl) rfl (.inl ⟨rfl, (RwPc.woken_stays ..).locked⟩)
  | interrupt k hpc => exact hs.ofIntr (.of_goto hpc rfl) (fun _ => .rfl) (.inl ⟨rfl, rfl⟩)
  | acquireIntr k hpc hfree =>
    exact hs.ofIntr (.of_goto hpc rfl) (fun _ => .rfl) (.inr (.inl ⟨hfree, rfl, rfl⟩))
  | testUsed k hpc hne => exact hs.ofIntr (.of_goto hpc rfl) (fun _ => .rfl) (.inl ⟨rfl, rfl⟩)
  | testEmpty k hpc heq => exact hs.ofIntr (.of_goto hpc rfl) (fun _ => .rfl) (.inl ⟨rfl, rfl⟩)
  | read k hpc => exact hs.ofIntr (.of_goto hpc rfl) (fun _ => .rfl) (.inl ⟨rfl, rfl⟩)
  | check k hpc hst => exact hs.ofIntr (.of_goto hpc rfl) (fun _ => .rfl) (.inl ⟨rfl, rfl⟩)
  | checkPanics k hpc hst =>
    exact hs.ofIntr (.of_goto hpc rfl) (fun _ => .rfl) (.inl ⟨rfl, rfl⟩)
  | mark k hpc =>
    exact hs.ofIntr (.of_goto hpc rfl) (fun _ => RwPc.woken_stays ..) (.inl ⟨rfl, rfl⟩)
  | releaseIntr k hpc =>
    exact hs.ofIntr (.of_goto hpc rfl) (fun _ => .rfl) (.inr (.inr ⟨rfl, rfl, rfl⟩))
  | take hne => exact hs
  | complete ht => exact hs
  | post hw hp => exact hs
  | posted hp => exact hs

theorem Step.owned (h : Step calls s s') (hcont : s.Contents calls) (hs : s.Owned) : s'.Owned := by
  cases h with
  | call t hpc => exact hs.call (.of_goto hpc rfl) rfl rfl
  | acquire t hpc hfree => exact hs.call (.of_goto hpc rfl) rfl rfl
  | alloc t hpc hd => exact hs.alloc (.of_goto hpc rfl) hd rfl (RwPc.held_allocated _)
  | allocFails t hpc hd => exact hs.call (.of_goto hpc rfl) rfl rfl
  | undo t hpc hd => exact hs.free (.of_wakeup hpc rfl) hd rfl rfl
  | undoPanics t hpc hd => exact absurd hd (hs.undo_ne hpc _)
  | sleepFree t hpc => exact hs.call (.of_goto hpc rfl) rfl rfl
  | @fill t k x hpc =>
    cases k with
    | _ => exact hs.call (.of_goto hpc rfl) rfl rfl
  | ring t hpc => exact hs.call (.of_goto hpc rfl) rfl rfl
  | publish t hpc => exact hs.call (.of_goto hpc rfl) rfl rfl
  | testFinish t hpc hf => exact hs.call (.of_goto hpc rfl) rfl rfl
  | testSleep t hpc hf => exact hs.call (.of_goto hpc rfl) rfl rfl
  | relock t hpc hfree => exact hs.call (.of_goto hpc rfl) rfl rfl
  | @clear t x hpc =>
    refine hs.call (.of_goto hpc rfl) ?_ rfl
    simp [RwPc.held, DescTriple.list]
  | freeChain t hpc hd =>
    have hfilled := hcont t
    rw [hpc] at hfilled
    exact hs.free (.of_wakeup hpc rfl) hd rfl (hfilled.next rfl).1
  | freePanics t hpc hd => exact absurd hd (hs.freeChain_ne hcont hpc _)
  | release t hpc => exact hs.call (.of_goto hpc rfl) rfl rfl
  | wakeOther t chan => exact hs.call (.of_goto rfl rfl) (RwPc.woken_stays ..).held rfl
  | mark k hpc => exact hs.frame (fun _ => (RwPc.woken_stays ..).held) rfl
  | @complete l l' e ht =>
    obtain ⟨info, heq, -⟩ := e.complete_eq s.disk
    refine hs.frame (fun _ => rfl) ?_
    change (e.complete s.disk).free = s.disk.free
    rw [heq]
  | _ => exact hs.frame (fun _ => rfl) rfl

theorem Step.contents (h : Step calls s s') (hlock : s.Locked) (hown : s.Owned)
    (hs : s.Contents calls) : s'.Contents calls := by
  cases h with
  | call t hpc => exact hs.call hown (.of_goto hpc rfl) trivial fun _ _ => ⟨rfl, rfl, rfl⟩
  | acquire t hpc hfree => exact hs.call hown (.of_goto hpc rfl) trivial fun _ _ => ⟨rfl, rfl, rfl⟩
  | @alloc t got i d hpc hd =>
    obtain ⟨-, -, rfl⟩ := allocDesc_some hd
    exact hs.call hown (.of_goto hpc rfl) (RwPc.filled_allocated _) fun _ _ => ⟨rfl, rfl, rfl⟩
  | allocFails t hpc hd => exact hs.call hown (.of_goto hpc rfl) trivial fun _ _ => ⟨rfl, rfl, rfl⟩
  | @undo t i left d hpc hd =>
    obtain rfl := freeDesc_ok hd
    refine hs.call hown (.of_wakeup hpc rfl) trivial fun j hj => ⟨?_, rfl, rfl⟩
    have hne : j ≠ i := by
      rintro rfl
      exact hj List.mem_cons_self
    exact Function.update_of_ne hne _ _
  | undoPanics t hpc hd => exact hs.call hown (.of_goto hpc rfl) trivial fun _ _ => ⟨rfl, rfl, rfl⟩
  | sleepFree t hpc => exact hs.call hown (.of_goto hpc rfl) trivial fun _ _ => ⟨rfl, rfl, rfl⟩
  | @fill t k x hpc =>
    have hfilled := hs t
    have hx := hown.nodup t
    rw [hpc] at hfilled hx
    exact hs.call hown (.of_goto hpc rfl) (hfilled.store hx) fun j hj => FillStep.store_of_not_mem hj
  | ring t hpc => exact hs.pass hown (.of_goto hpc rfl) id ⟨rfl, rfl, rfl⟩
  | publish t hpc =>
    have hx := hown.nodup t
    rw [hpc] at hx
    exact hs.pass hown (.of_goto hpc rfl) (fun hq => RwPc.linked_of_stored hx hq) ⟨rfl, rfl, rfl⟩
  | testFinish t hpc hf => exact hs.pass hown (.of_goto hpc rfl) id ⟨rfl, rfl, rfl⟩
  | testSleep t hpc hf => exact hs.pass hown (.of_goto hpc rfl) id ⟨rfl, rfl, rfl⟩
  | relock t hpc hfree => exact hs.pass hown (.of_goto hpc rfl) id ⟨rfl, rfl, rfl⟩
  | clear t hpc => exact hs.clear hown (.of_goto hpc rfl) rfl
  | freeChain t hpc hd => exact hs.freeChain hown (.of_wakeup hpc rfl) rfl hd rfl
  | freePanics t hpc hd => exact hs.call hown (.of_goto hpc rfl) trivial fun _ _ => ⟨rfl, rfl, rfl⟩
  | release t hpc => exact hs.call hown (.of_goto hpc rfl) trivial fun _ _ => ⟨rfl, rfl, rfl⟩
  | wakeOther t chan =>
    exact hs.call hown (.of_goto rfl rfl) ((RwPc.woken_stays ..).filled (hs t))
      fun _ _ => ⟨rfl, rfl, rfl⟩
  | @mark k id hpc =>
    intro t
    have hout : ¬(s.rw t).locked := hlock.not_call (k := k) (by rw [hpc]; rfl)
    refine (RwPc.woken_stays ..).filled ((hs t).congr ?_ fun hin => absurd hin hout)
    refine fun i _ => ⟨rfl, rfl, ?_⟩
    by_cases hi : i = id
    · simp [hi]
    · simp [hi]
  | @complete l l' e ht =>
    intro t
    obtain ⟨info, heq, hinfo⟩ := e.complete_eq s.disk
    change (s.rw t).Filled (calls t) (e.complete s.disk)
    rw [heq]
    exact (hs t).congr (fun i _ => ⟨rfl, rfl, (hinfo i).1⟩) fun _ i _ => (hinfo i).2
  | _ => exact fun t => (hs t).congr (fun _ _ => ⟨rfl, rfl, rfl⟩) fun _ _ _ => rfl

end VirtioState

end StartOS
