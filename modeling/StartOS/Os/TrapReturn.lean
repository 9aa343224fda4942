import StartOS.Lib.Hoare
import StartOS.Lib.LabelledRun
import StartOS.Os.Trap

/-! # Traps and the registers of a process

`uservec` leaves each register in its field of the trapframe and `userret` loads it from
there, so a trap that keeps the trapframe is not seen by the process.
-/

namespace StartOS

open Riscv Hoare
open LabelledRun (Run)

variable {mmu : Mmu} {t : TrapTask} {calls : TrapCalls} {h h' : Hart} {s s' : TrapState}
  {cause val satp : Word} {pa : ℕ} {r : Reg}

section Code

/-- The place of a register in `struct trapframe`. -/
def slot (r : Reg) : ℕ := (userSlots.lookup r).getD 112

theorem userSlots_mem (hr : r ≠ .a0) : (r, slot r) ∈ userSlots := by
  cases r <;> first | exact absurd rfl hr | decide

theorem userSlots_lt : ∀ p ∈ userSlots, p.2 < 288 := by decide

theorem apart_userSlots (f : Reg → Word) :
    (userSlots.map fun p => (p.2, f p.1)).Pairwise fun p q => Apart p.1 q.1 := by
  have h : userSlots.Pairwise fun p q => Apart p.2 q.2 := by decide
  exact List.pairwise_map.mpr h

/-- What `uservec` leaves when it jumps to the kernel. -/
structure Entered (h h' : Hart) (pa : ℕ) : Prop where
  saved : ∀ r, word h'.mem (pa + slot r) = h.regs r
  epc : word h'.mem (pa + 24) = word h.mem (pa + 24)
  stack : h'.regs .sp = word h.mem (pa + 8)
  hart : h'.regs .tp = word h.mem (pa + 32)
  jump : h'.pc = word h.mem (pa + 16)
  table : h'.csrs .satp = word h.mem (pa + 0)
  csrs : ∀ c, c ≠ .satp → c ≠ .sscratch → h'.csrs c = h.csrs c
  status : h'.status = h.status
  mode : h'.mode = h.mode

theorem uservec_spec (hm : Maps mmu (h.csrs .satp) (h.csrs .sscratch) pa 288) :
    Entered h (h.run mmu uservec) pa := by
  set h₁ := h.step mmu (.csrrw .a0 .sscratch .a0) with hh₁
  have hregs₁ : h₁.regs .a0 = h.csrs .sscratch := by simp [hh₁, Hart.step, Hart.setReg]
  have hother₁ : ∀ q, q ≠ .a0 → h₁.regs q = h.regs q := fun q hq => by
    simp [hh₁, Hart.step, Hart.setReg, Hart.setCsr, Function.update_of_ne hq]
  have hcsr₁ : ∀ c, c ≠ .sscratch → h₁.csrs c = h.csrs c := fun c hc => by
    simp [hh₁, Hart.step, Hart.setReg, Hart.setCsr, Function.update_of_ne hc]
  have hscratch₁ : h₁.csrs .sscratch = h.regs .a0 := by
    simp [hh₁, Hart.step, Hart.setReg, Hart.setCsr]
  have hm₁ : Maps mmu (h₁.csrs .satp) (h₁.regs .a0) pa 288 := by
    rw [hcsr₁ _ (by decide), hregs₁]
    exact hm
  have hsave := run_saves hm₁ userSlots_lt
  set m := storeAll h₁.mem pa (userSlots.map fun p => (p.2, h₁.regs p.1)) with hmdef
  have hrun : h.run mmu uservec = (h₁.run mmu (saves .a0 userSlots)).run mmu
      [.csrr .t0 .sscratch, .sd .t0 .a0 112, .ld .sp .a0 8, .ld .tp .a0 32, .ld .t0 .a0 16, .ld .t1 .a0 0,
        .csrw .satp .t1, .fence, .fence, .jr .t0] := by
    rw [uservec, List.append_assoc, run_append, run_append]
    rfl
  rw [hrun, hsave]
  have hat : ∀ off < 288, mmu (h₁.csrs .satp) (h₁.regs .a0 + BitVec.ofNat 64 off) = pa + off := hm₁
  have hsaved : ∀ q, q ≠ .a0 → word m (pa + slot q) = h.regs q := fun q hq => by
    rw [← hother₁ q hq]
    exact word_storeAll (p := (slot q, h₁.regs q)) (apart_userSlots h₁.regs)
      (List.mem_map.mpr ⟨_, userSlots_mem hq, rfl⟩)
  have hfield : ∀ off, off + 8 ≤ 40 → word m (pa + off) = word h.mem (pa + off) := fun off hoff => by
    refine word_storeAll_of_apart fun p hp => ?_
    obtain ⟨q, hq, rfl⟩ := List.mem_map.mp hp
    have hle : ∀ p ∈ userSlots, 40 ≤ p.2 := by decide
    have := hle q hq
    exact .inl (by dsimp only; omega)
  set m' := setWord m (pa + 112) (h.regs .a0) with hm'
  have hkeep : ∀ off, off + 8 ≤ 40 → word m' (pa + off) = word h.mem (pa + off) := fun off hoff => by
    rw [hm', word_setWord_of_disjoint (by omega), hfield off hoff]
  have hstep : ∀ off < 288, Hart.addr mmu { h₁ with mem := m } .a0 off = pa + off := hat
  simp only [Hart.run, List.foldl_cons, List.foldl_nil, Hart.step, Hart.setReg, Hart.setCsr, Hart.addr,
    Function.update_self, ne_eq, reduceCtorEq, not_false_eq_true, Function.update_of_ne]
  simp only [hat 112 (by norm_num), hat 8 (by norm_num), hat 32 (by norm_num), hat 16 (by norm_num),
    hat 0 (by norm_num), hscratch₁, ← hm']
  refine ⟨fun q => ?_, hkeep 24 (by norm_num), ?_, ?_, ?_, ?_, fun c hc hc' => ?_, rfl, rfl⟩
  · by_cases hq : q = .a0
    · subst hq
      exact word_setWord m _ _
    · have hne : Apart (slot q) 112 := by cases q <;> first | exact absurd rfl hq | decide
      rw [hm', word_setWord_of_disjoint (by rw [Apart] at hne; omega), hsaved q hq]
  · simp [hkeep 8 (by norm_num)]
  · simp [hkeep 32 (by norm_num)]
  · exact hkeep 16 (by norm_num)
  · exact hkeep 0 (by norm_num)
  · dsimp only
    rw [Function.update_of_ne hc, hcsr₁ c hc']

end Code

/-- The registers of a process. The hart has them while the process runs and the trapframe while the
kernel works for it. -/
@[ext] structure Context where
  regs : Reg → Word
  pc : Word
  pagetable : Word

namespace Context

def set (c : Context) (r : Reg) (w : Word) : Context := { c with regs := Function.update c.regs r w }

def skip (c : Context) : Context := { c with pc := c.pc + 4 }

end Context

namespace TrapState

def running (s : TrapState) : Context := ⟨s.hart.regs, s.hart.pc, s.pagetable⟩

def saved (t : TrapTask) (s : TrapState) : Context :=
  ⟨fun r => word s.hart.mem (t.trapframe + slot r), word s.hart.mem (t.trapframe + 24), s.pagetable⟩

/-- The process has its trapframe at `TRAPFRAME`. -/
def Mapped (t : TrapTask) (s : TrapState) : Prop :=
  Maps s.mmu (makeSatp s.pagetable) trapframeWord t.trapframe 288

def put (t : TrapTask) (off : ℕ) (w : Word) (s : TrapState) : TrapState :=
  { s with hart := { s.hart with mem := setWord s.hart.mem (t.trapframe + off) w } }

variable {off : ℕ} {w : Word}

end TrapState

namespace TrapM

variable {α : Type} {c : Csr} {w : Word} {off : ℕ}

end TrapM

section Handlers

/-- What the kernel leaves as it is while it works for a process. -/
structure Kept (t : TrapTask) (u u' : TrapState) : Prop where
  table : u'.hart.csrs .satp = u.hart.csrs .satp
  mode : u'.hart.mode = u.hart.mode
  mapped : u.Mapped t → u'.Mapped t

theorem Kept.rfl {u : TrapState} : Kept t u u := ⟨Eq.refl _, Eq.refl _, id⟩

theorem Kept.trans {u u' u'' : TrapState} (h : Kept t u u') (h' : Kept t u' u'') : Kept t u u'' :=
  ⟨h'.table.trans h.table, h'.mode.trans h.mode, h'.mapped ∘ h.mapped⟩

theorem Kept.put {u : TrapState} {off : ℕ} {w : Word} : Kept t u (u.put t off w) :=
  ⟨Eq.refl _, Eq.refl _, id⟩

def Context.number (c : Context) : ℤ := toInt32 (c.regs .a7).toNat

variable {fx : Effects} {u u' : TrapState} {d : ℕ} {a : Unit}

def kernelFields (t : TrapTask) (calls : TrapCalls) (table hartid : Word) : List (ℕ × Word) :=
  [(0, table), (8, t.kstack + pageWord), (16, calls.usertrap), (32, hartid)]

end Handlers

section Process

structure Ready (t : TrapTask) (calls : TrapCalls) (table : Word) (s : TrapState) : Prop where
  mode : s.hart.mode = .user
  sie : s.hart.status.sie = true
  stvec : s.hart.csrs .stvec = calls.uservec
  sscratch : s.hart.csrs .sscratch = trapframeWord
  satp : s.hart.csrs .satp = makeSatp s.pagetable
  mapped : s.Mapped t
  fields : ∃ hartid, ∀ p ∈ kernelFields t calls table hartid,
    word s.hart.mem (t.trapframe + p.1) = p.2

variable {table : Word} {fx : Effects}

/-- What a trap from the running process finds in the kernel: its stack and table, and the registers in
the trapframe. -/
structure Found (t : TrapTask) (calls : TrapCalls) (table cause val : Word) (s u : TrapState) :
    Prop where
  pc : u.hart.pc = calls.usertrap
  sp : u.hart.regs .sp = t.kstack + pageWord
  satp : u.hart.csrs .satp = table
  mode : u.hart.mode = .supervisor
  sie : u.hart.status = ⟨false, true, .user⟩
  scause : u.hart.csrs .scause = cause
  stval : u.hart.csrs .stval = val
  saved : { u.saved t with pc := u.hart.csrs .sepc } = s.running
  mapped : u.Mapped t

theorem Ready.found (cause val : Word) (h : Ready t calls table s) :
    Found t calls table cause val s { s with hart := (s.hart.trap cause val).run s.mmu uservec } := by
  have hmap : Maps s.mmu ((s.hart.trap cause val).csrs .satp) ((s.hart.trap cause val).csrs .sscratch)
      t.trapframe 288 := by
    have htable : (s.hart.trap cause val).csrs .satp =
        makeSatp s.pagetable := by simp [Hart.trap, h.satp]
    have hframe : (s.hart.trap cause val).csrs .sscratch =
        trapframeWord := by simp [Hart.trap, h.sscratch]
    rw [htable, hframe]
    exact h.mapped
  have hvec := uservec_spec hmap
  obtain ⟨hartid, hfields⟩ := h.fields
  refine ⟨?_, ?_, ?_, ?_, ?_, ?_, ?_, ?_, h.mapped⟩
  · rw [hvec.jump]
    exact hfields (16, calls.usertrap) (by simp [kernelFields])
  · rw [hvec.stack]
    exact hfields (8, t.kstack + pageWord) (by simp [kernelFields])
  · rw [hvec.table]
    exact hfields (0, table) (by simp [kernelFields])
  · rw [hvec.mode]
    rfl
  · rw [hvec.status, Hart.trap, h.mode, h.sie]
  · rw [hvec.csrs _ (by decide) (by decide)]
    simp [Hart.trap]
  · rw [hvec.csrs _ (by decide) (by decide)]
    simp [Hart.trap]
  · refine Context.ext (funext hvec.saved) ?_ rfl
    rw [hvec.csrs _ (by decide) (by decide)]
    simp [Hart.trap, TrapState.running]

/-- An instruction of the process: its registers change by `instr`, and the kernel's do not. -/
structure Own (instr : Context → Context → Prop) (t : TrapTask) (s s' : TrapState) : Prop where
  running : instr s.running s'.running
  mode : s'.hart.mode = s.hart.mode
  status : s'.hart.status = s.hart.status
  csrs : s'.hart.csrs = s.hart.csrs
  pagetable : s'.pagetable = s.pagetable
  mapped : s.Mapped t → s'.Mapped t
  fields : ∀ off ∈ [0, 8, 16, 32],
    word s'.hart.mem (t.trapframe + off) = word s.hart.mem (t.trapframe + off)

variable {instr : Context → Context → Prop}

theorem Own.ready (h : Own instr t s s') (hs : Ready t calls table s) : Ready t calls table s' := by
  obtain ⟨hartid, hfields⟩ := hs.fields
  refine ⟨by rw [h.mode, hs.mode], by rw [h.status, hs.sie], by rw [h.csrs, hs.stvec],
    by rw [h.csrs, hs.sscratch],
    by rw [h.csrs, h.pagetable, hs.satp], h.mapped hs.mapped, hartid, fun p hp => ?_⟩
  rw [← hfields p hp]
  refine h.fields p.1 ?_
  simp only [kernelFields, List.mem_cons, List.not_mem_nil, or_false] at hp
  rcases hp with rfl | rfl | rfl | rfl <;> simp

end Process

end StartOS
