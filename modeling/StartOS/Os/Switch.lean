import Mathlib.Logic.Function.Basic
import StartOS.Lib.LabelledRun
import StartOS.Lib.Riscv

/-! # Switching threads

`pswitch` leaves the registers of one thread in its context and takes those of another from its
own, so threads that switch among any number of harts do not see each other's registers.
-/

namespace StartOS

open Riscv
open LabelledRun (Run)

section Code

/-- `struct context`. -/
def contextSlots : List (Reg × ℕ) :=
  [(.ra, 0), (.sp, 8), (.s0, 16), (.s1, 24), (.s2, 32), (.s3, 40), (.s4, 48), (.s5, 56), (.s6, 64),
    (.s7, 72), (.s8, 80), (.s9, 88), (.s10, 96), (.s11, 104)]

def pswitch : List Instr := saves .a0 contextSlots ++ loads .a1 contextSlots ++ [.jr .ra]

variable {mmu : Mmu} {h h' : Hart} {pa pb : ℕ} {r : Reg} {off : ℕ}

theorem nodup_contextSlots : (contextSlots.map Prod.fst).Nodup := by decide

theorem contextSlots_le : ∀ p ∈ contextSlots, p.2 + 8 ≤ 112 := by decide

theorem apart_contextSlots (f : Reg → Word) :
    (contextSlots.map fun p => (p.2, f p.1)).Pairwise fun p q => Apart p.1 q.1 := by
  have h : contextSlots.Pairwise fun p q => Apart p.2 q.2 := by decide
  exact List.pairwise_map.mpr h

/-- What `pswitch` does with contexts that are apart. -/
structure Switched (h h' : Hart) (pa pb : ℕ) : Prop where
  saved : ∀ r off, (r, off) ∈ contextSlots → word h'.mem (pa + off) = h.regs r
  loaded : ∀ r off, (r, off) ∈ contextSlots → h'.regs r = word h.mem (pb + off)
  pc : h'.pc = word h.mem (pb + 0)
  csrs : h'.csrs = h.csrs
  mem : ∀ a, a + 8 ≤ pa ∨ pa + 112 ≤ a → word h'.mem a = word h.mem a

theorem pswitch_spec (ha : Maps mmu (h.csrs .satp) (h.regs .a0) pa 112)
    (hb : Maps mmu (h.csrs .satp) (h.regs .a1) pb 112) (hapart : pa + 112 ≤ pb ∨ pb + 112 ≤ pa) :
    Switched h (h.run mmu pswitch) pa pb := by
  have hlt : ∀ p ∈ contextSlots, p.2 < 112 := fun p hp => by have := contextSlots_le p hp; omega
  have hsave := run_saves ha hlt
  set m := storeAll h.mem pa (contextSlots.map fun p => (p.2, h.regs p.1)) with hm
  have hmem : ∀ a, a + 8 ≤ pa ∨ pa + 112 ≤ a → word m a = word h.mem a := fun a hout =>
    word_storeAll_of_apart fun p hp => by
      obtain ⟨q, hq, rfl⟩ := List.mem_map.mp hp
      have := contextSlots_le q hq
      rw [Apart]
      dsimp only
      omega
  have hload := run_loads (h := { h with mem := m }) hb hlt nodup_contextSlots fun off hoff => by
    simp [contextSlots] at hoff
  have hrun : h.run mmu pswitch =
      ((h.run mmu (saves .a0 contextSlots)).run mmu (loads .a1 contextSlots)).run
      mmu [.jr .ra] := by
    rw [pswitch, run_append, run_append]
  rw [hrun, hsave, hload]
  have hloaded : ∀ q off, (q, off) ∈ contextSlots →
      loaded (fun off => word m (pb + off)) contextSlots h.regs q = word h.mem (pb + off) :=
        fun q off hq => by
    rw [loaded_of_mem (f := fun off => word m (pb + off)) nodup_contextSlots hq]
    have := contextSlots_le _ hq
    exact hmem _ (by dsimp only at this; omega)
  refine ⟨fun q off hq => ?_, hloaded, hloaded .ra 0 (by decide), rfl, hmem⟩
  exact word_storeAll (p := (off, h.regs q)) (apart_contextSlots h.regs)
    (List.mem_map.mpr ⟨_, hq, rfl⟩)

end Code

/-- The contexts of the kernel, which its table maps to places that are apart. -/
structure Contexts (ι : Type*) where
  mmu : Mmu
  table : Word
  addr : ι → Word
  pa : ι → ℕ
  maps : ∀ i, Maps mmu table (addr i) (pa i) 112
  apart : ∀ i j, i ≠ j → pa i + 112 ≤ pa j ∨ pa j + 112 ≤ pa i

/-- Harts that share their memory, each with the thread that it runs. -/
structure Harts (κ ι : Type*) where
  core : κ → Hart
  mem : ByteMem
  thread : κ → ι

namespace Harts

variable {κ ι : Type*}

def hart (s : Harts κ ι) (k : κ) : Hart := { s.core k with mem := s.mem }

variable [DecidableEq κ]

def put (s : Harts κ ι) (k : κ) (h : Hart) : Harts κ ι :=
  { s with core := Function.update s.core k h, mem := h.mem }

theorem hart_put (s : Harts κ ι) (k : κ) (h : Hart) (thread : κ → ι) :
    ({ s.put k h with thread } : Harts κ ι).hart k = h := by
  simp [hart, put]

end Harts

/-- What a hart does: an instruction of its thread, or a call of `pswitch` that gives it another. -/
inductive ThreadEvent (κ ι : Type*)
  | own (k : κ)
  | switch (k : κ) (i : ι) (ret : Word)

structure Thread where
  regs : Reg → Word
  pc : Word

namespace Thread

/-- The same thread to a function that called another: the registers that are not for its caller may
differ. -/
structure Same (x y : Thread) : Prop where
  pc : y.pc = x.pc
  regs : ∀ r off, (r, off) ∈ contextSlots → y.regs r = x.regs r

structure Called (ret : Word) (x y : Thread) : Prop where
  pc : y.pc = ret
  ra : y.regs .ra = ret
  regs : ∀ r off, (r, off) ∈ contextSlots → r ≠ .ra → y.regs r = x.regs r

end Thread

section Harts

variable {κ ι : Type*} [DecidableEq κ]

/-- A hart calls `pswitch` with the context of its thread and that of another. -/
def Harts.switch (cs : Contexts ι) (s : Harts κ ι) (k : κ) (i : ι) (ret : Word) : Harts κ ι :=
  let called := (((s.hart k).setReg .ra ret).setReg .a0 (cs.addr (s.thread k))).setReg .a1 (cs.addr i)
  { s.put k (called.run cs.mmu pswitch) with thread := Function.update s.thread k i }

def Harts.running (s : Harts κ ι) (k : κ) : Thread := ⟨(s.core k).regs, (s.core k).pc⟩

/-- A thread that runs goes on by `instr`, and leaves the contexts of those that do not run. -/
structure ThreadOwn (instr : Thread → Thread → Prop) (cs : Contexts ι) (k : κ) (s s' : Harts κ ι) :
    Prop where
  running : instr (s.running k) (s'.running k)
  table : (s'.core k).csrs .satp = (s.core k).csrs .satp
  others : ∀ j, j ≠ k → s'.core j = s.core j
  thread : s'.thread = s.thread
  contexts : ∀ i, (∀ j, s.thread j ≠ i) → ∀ off, off + 8 ≤ 112 →
    word s'.mem (cs.pa i + off) = word s.mem (cs.pa i + off)

def HartStep (instr : Thread → Thread → Prop) (cs : Contexts ι) :
    ThreadEvent κ ι → Harts κ ι → Harts κ ι → Prop
  | .own k, s, s' => ThreadOwn instr cs k s s'
  | .switch k i ret, s, s' => (∀ j, s.thread j ≠ i) ∧ s' = s.switch cs k i ret

structure Threads (κ ι : Type*) where
  thread : ι → Thread
  on : κ → ι

def ThreadStep (instr : Thread → Thread → Prop) : ThreadEvent κ ι → Threads κ ι → Threads κ ι → Prop
  | .own k, t, t' => t'.on = t.on ∧ instr (t.thread (t.on k)) (t'.thread (t.on k)) ∧
      ∀ i, i ≠ t.on k → t'.thread i = t.thread i
  | .switch k i ret, t, t' => (∀ j, t.on j ≠ i) ∧ t'.on = Function.update t.on k i ∧
      (t.thread (t.on k)).Called ret (t'.thread (t.on k)) ∧
      ∀ j, j ≠ t.on k → (t.thread j).Same (t'.thread j)

/-- The threads that run are in the harts and the others in their contexts. -/
structure Holds (cs : Contexts ι) (s : Harts κ ι) (t : Threads κ ι) : Prop where
  on : s.thread = t.on
  once : Function.Injective s.thread
  table : ∀ k, (s.core k).csrs .satp = cs.table
  running : ∀ k, s.running k = t.thread (t.on k)
  regs : ∀ i, (∀ k, s.thread k ≠ i) → ∀ r off, (r, off) ∈ contextSlots →
    word s.mem (cs.pa i + off) = (t.thread i).regs r
  pc : ∀ i, (∀ k, s.thread k ≠ i) → (t.thread i).pc = (t.thread i).regs .ra

variable {cs : Contexts ι} {s s' : Harts κ ι} {t : Threads κ ι} {k : κ} {i : ι} {ret : Word}
  {instr : Thread → Thread → Prop}

theorem Holds.own [DecidableEq ι] (h : Holds cs s t) (hown : ThreadOwn instr cs k s s') :
    ∃ t', ThreadStep instr (.own k) t t' ∧ Holds cs s' t' := by
  refine ⟨⟨Function.update t.thread (t.on k) (s'.running k), t.on⟩, ⟨rfl, ?_, fun i hi => ?_⟩, ?_⟩
  · have := hown.running
    rw [h.running k] at this
    simpa using this
  · exact Function.update_of_ne hi _ _
  · have hoff : ∀ i, (∀ j, s.thread j ≠ i) → i ≠ t.on k := fun i hi he => hi k (by rw [h.on, he])
    refine ⟨hown.thread.trans h.on, by rw [hown.thread]; exact h.once, fun j => ?_, fun j => ?_,
      fun i hi r off hr => ?_, fun i hi => ?_⟩ <;> try dsimp only
    · by_cases hj : j = k
      · rw [hj, hown.table, h.table]
      · rw [hown.others j hj, h.table]
    · by_cases hj : j = k
      · rw [hj, Function.update_self]
      · have hne : t.on j ≠ t.on k := fun he => hj (h.once (by rw [h.on, he]))
        rw [Function.update_of_ne hne, ← h.running j, Harts.running, hown.others j hj]
        rfl
    · rw [hown.thread] at hi
      rw [hown.contexts i hi off (contextSlots_le _ hr), Function.update_of_ne (hoff i hi)]
      exact h.regs i hi r off hr
    · rw [hown.thread] at hi
      rw [Function.update_of_ne (hoff i hi)]
      exact h.pc i hi

theorem Holds.switched (h : Holds cs s t) (hi : ∀ j, s.thread j ≠ i) :
    Switched ((s.hart k).setReg .ra ret) ((s.switch cs k i ret).hart k) (cs.pa (s.thread k))
      (cs.pa i) := by
  set ready := (s.hart k).setReg .ra ret with hready
  set called := (ready.setReg .a0 (cs.addr (s.thread k))).setReg .a1 (cs.addr i) with hc
  have hcsrs : called.csrs = ready.csrs := rfl
  have hmem : called.mem = ready.mem := rfl
  have htable : called.csrs .satp = cs.table := h.table k
  have ha0 : called.regs .a0 = cs.addr (s.thread k) := by simp [hc, Hart.setReg]
  have ha1 : called.regs .a1 = cs.addr i := by simp [hc, Hart.setReg]
  have hkeep : ∀ r off, (r, off) ∈ contextSlots → called.regs r = ready.regs r := by
    intro r off hr
    have hne : r ≠ .a0 ∧ r ≠ .a1 := by
      constructor <;> rintro rfl <;> simp [contextSlots] at hr
    simp [hc, Hart.setReg, hne.1, hne.2]
  have hhart : (s.switch cs k i ret).hart k = called.run cs.mmu pswitch := Harts.hart_put ..
  clear_value ready called
  have hfrom : Maps cs.mmu (called.csrs .satp) (called.regs .a0) (cs.pa (s.thread k)) 112 := by
    rw [htable, ha0]
    exact cs.maps _
  have hto : Maps cs.mmu (called.csrs .satp) (called.regs .a1) (cs.pa i) 112 := by
    rw [htable, ha1]
    exact cs.maps i
  have hsw := pswitch_spec hfrom hto (cs.apart _ _ (hi k))
  rw [hhart]
  refine ⟨fun r off hr => (hsw.saved r off hr).trans (hkeep r off hr), ?_, ?_, ?_, ?_⟩
  · rw [← hmem]
    exact hsw.loaded
  · rw [← hmem]
    exact hsw.pc
  · rw [← hcsrs]
    exact hsw.csrs
  · rw [← hmem]
    exact hsw.mem

theorem Holds.switch [DecidableEq ι] (h : Holds cs s t) (hi : ∀ j, s.thread j ≠ i) :
    ∃ t', ThreadStep instr (.switch k i ret) t t' ∧ Holds cs (s.switch cs k i ret) t' := by
  have hsw : Switched ((s.hart k).setReg .ra ret) ((s.switch cs k i ret).hart k) (cs.pa (s.thread k))
      (cs.pa i) := h.switched hi
  set s' := s.switch cs k i ret with hs'
  have hcore : ∀ j, j ≠ k → s'.core j = s.core j := fun j hj => Function.update_of_ne hj _ _
  have hthread : s'.thread = Function.update s.thread k i := rfl
  clear_value s'
  have hrun := h.running k
  have hik : i ≠ t.on k := fun he => hi k (by rw [h.on, he])
  -- the thread that called will find its registers as they are in its context
  let left : Thread := ⟨((s.hart k).setReg .ra ret).regs, ret⟩
  have hra : left.regs .ra = ret := by simp [left, Hart.setReg]
  have hsaved : ∀ r off, (r, off) ∈ contextSlots →
      word s'.mem (cs.pa (s.thread k) + off) = left.regs r := hsw.saved
  have hleft : ∀ r, r ≠ .ra → left.regs r = (t.thread (t.on k)).regs r := fun r hr => by
    rw [← hrun]
    simp [left, Hart.setReg, hr, Harts.hart, Harts.running]
  refine ⟨⟨Function.update (Function.update t.thread (t.on k) left) i (s'.running k),
    Function.update t.on k i⟩, ⟨fun j => by rw [← h.on]; exact hi j, rfl, ?_, fun j hj => ?_⟩, ?_⟩
  · dsimp only
    rw [Function.update_of_ne hik.symm, Function.update_self]
    exact ⟨rfl, hra, fun r off _ hr => hleft r hr⟩
  · dsimp only
    by_cases hji : j = i
    · rw [hji, Function.update_self]
      refine ⟨?_, fun r off hr => ?_⟩
      · rw [h.pc i hi, ← h.regs i hi .ra 0 (by decide)]
        exact hsw.pc
      · rw [← h.regs i hi r off hr]
        exact hsw.loaded r off hr
    · rw [Function.update_of_ne hji, Function.update_of_ne hj]
      exact ⟨rfl, fun _ _ _ => rfl⟩
  · have hcases : ∀ j, (∀ k', s'.thread k' ≠ j) →
        j ≠ i ∧ (j = t.on k ∨ j ≠ t.on k ∧ ∀ k', s.thread k' ≠ j) := by
      intro j hj
      have hji : j ≠ i := fun he => hj k (by rw [hthread, Function.update_self, he])
      refine ⟨hji, (eq_or_ne j (t.on k)).imp_right fun hne => ⟨hne, fun k' he => ?_⟩⟩
      by_cases hk : k' = k
      · exact hne (by rw [← he, hk, h.on])
      · exact hj k' (by rw [hthread, Function.update_of_ne hk, he])
    refine ⟨by rw [hthread, h.on], fun j j' he => ?_, fun j => ?_, fun j => ?_, fun j hj r off hr => ?_,
      fun j hj => ?_⟩ <;> try dsimp only
    · rw [hthread] at he
      by_cases hj : j = k <;> by_cases hj' : j' = k
      · rw [hj, hj']
      · rw [hj, Function.update_self, Function.update_of_ne hj'] at he
        exact absurd he.symm (hi j')
      · rw [hj', Function.update_self, Function.update_of_ne hj] at he
        exact absurd he (hi j)
      · rw [Function.update_of_ne hj, Function.update_of_ne hj'] at he
        exact h.once he
    · by_cases hj : j = k
      · rw [hj]
        exact (congrFun hsw.csrs .satp).trans (h.table k)
      · rw [hcore j hj, h.table]
    · by_cases hj : j = k
      · rw [hj, Function.update_self, Function.update_self]
      · have hne : t.on j ≠ t.on k := fun he => hj (h.once (by rw [h.on, he]))
        have hni : t.on j ≠ i := fun he => hi j (by rw [h.on, he])
        rw [Function.update_of_ne hj, Function.update_of_ne hni, Function.update_of_ne hne, ← h.running j,
          Harts.running, hcore j hj]
        rfl
    · obtain ⟨hji, rfl | ⟨hne, hoff⟩⟩ := hcases j hj
      · rw [Function.update_of_ne hji, Function.update_self, ← hsaved r off hr, h.on]
      · rw [Function.update_of_ne hji, Function.update_of_ne hne, ← h.regs j hoff r off hr]
        have hapart := cs.apart j (s.thread k) fun he => hoff k he.symm
        have hle := contextSlots_le _ hr
        exact hsw.mem _ (by dsimp only at hle; omega)
    · obtain ⟨hji, rfl | ⟨hne, hoff⟩⟩ := hcases j hj
      · rw [Function.update_of_ne hji, Function.update_self, hra]
      · rw [Function.update_of_ne hji, Function.update_of_ne hne, h.pc j hoff]

/-- Threads that share harts run as if each had one. -/
theorem threads_run [DecidableEq ι] {es : List (ThreadEvent κ ι)} (h : Holds cs s t)
    (hrun : Run (HartStep instr cs) es s s') :
    ∃ t', Run (ThreadStep instr) es t t' ∧ Holds cs s' t' := by
  refine hrun.simulates (fun e s s' t hR hstep => ?_) h
  cases e with
  | own k => exact hR.own hstep
  | switch k i ret =>
    obtain ⟨hi, rfl⟩ := hstep
    exact hR.switch hi

def twoContexts : Contexts Bool where
  mmu _ va := va.toNat
  table := 0x8000000000080400
  addr i := if i then 0x80300100 else 0x80300000
  pa i := if i then 0x80300100 else 0x80300000
  maps i off hoff := by cases i <;> simp <;> omega
  apart i j hij := by cases i <;> cases j <;> simp_all

def twoThreads : Harts Unit Bool where
  core _ :=
    ⟨fun _ => 7, fun _ => 0x8000000000080400, ⟨false, false, .supervisor⟩, .supervisor, 0x80020000,
      fun _ => 0⟩
  mem _ := 0
  thread _ := false

theorem word_zero (a : ℕ) : word (fun _ => 0) a = 0 := by
  rw [word, ByteMem.readLE_eq_zero fun _ _ _ => rfl]
  rfl

theorem threads_run_there_and_back : ∃ s' t', Run (HartStep (fun _ _ => True) twoContexts)
      [.switch () true 0x80021000, .switch () false 0x80022000] twoThreads s' ∧
    Run (ThreadStep fun _ _ => True) [.switch () true 0x80021000, .switch () false 0x80022000]
      ⟨fun i => if i then ⟨fun _ => 0, 0⟩ else ⟨fun _ => 7, 0x80020000⟩, fun _ => false⟩ t' ∧
    Holds twoContexts s' t' := by
  have hholds : Holds twoContexts twoThreads
      ⟨fun i => if i then ⟨fun _ => 0, 0⟩ else ⟨fun _ => 7, 0x80020000⟩, fun _ => false⟩ := by
    refine ⟨rfl, fun _ _ _ => rfl, fun _ => rfl, fun _ => rfl, fun i hi r off _ => ?_, fun i hi => ?_⟩
    · cases i
      · exact absurd rfl (hi ())
      · exact word_zero _
    · cases i
      · exact absurd rfl (hi ())
      · rfl
  have hrun : Run (HartStep (fun _ _ => True) twoContexts)
      [.switch () true 0x80021000, .switch () false 0x80022000] twoThreads _ :=
    ⟨_, ⟨fun _ => by simp [twoThreads], rfl⟩, _, ⟨fun _ => by simp [Harts.switch], rfl⟩, rfl⟩
  obtain ⟨t', ht', hholds'⟩ := threads_run hholds hrun
  exact ⟨_, t', hrun, ht', hholds'⟩

end Harts

end StartOS
