import Mathlib.Data.List.Nodup
import StartOS.Lib.ByteMem

/-! # Straight-line RISC-V code

A hart with 64-bit registers over a byte memory, and the instructions that save and
load registers. A run of stores to a save area and a run of loads from one each have a
closed form.
-/

namespace Riscv

abbrev Word := BitVec 64

/-- The integer registers but `zero`. -/
inductive Reg
  | ra | sp | gp | tp | t0 | t1 | t2 | s0 | s1 | a0 | a1 | a2 | a3 | a4 | a5 | a6 | a7
  | s2 | s3 | s4 | s5 | s6 | s7 | s8 | s9 | s10 | s11 | t3 | t4 | t5 | t6
  deriving DecidableEq, Repr

inductive Csr
  | stvec | sscratch | sepc | scause | stval | satp
  deriving DecidableEq, Repr

inductive Mode
  | user | supervisor
  deriving DecidableEq, Repr

/-- The bits of `sstatus` that traps change. -/
structure Status where
  sie : Bool
  spie : Bool
  spp : Mode
  deriving DecidableEq, Repr

structure Hart where
  regs : Reg → Word
  csrs : Csr → Word
  status : Status
  mode : Mode
  pc : Word
  mem : ByteMem

inductive Instr
  | sd (src base : Reg) (off : ℕ)
  | ld (dst base : Reg) (off : ℕ)
  | addi (dst src : Reg) (imm : Word)
  | csrr (dst : Reg) (csr : Csr)
  | csrw (csr : Csr) (src : Reg)
  | csrrw (dst : Reg) (csr : Csr) (src : Reg)
  | fence
  | jr (src : Reg)
  | sret
  deriving DecidableEq, Repr

def word (m : ByteMem) (a : ℕ) : Word := BitVec.ofNat 64 (m.readLE a 8)

def setWord (m : ByteMem) (a : ℕ) (w : Word) : ByteMem := m.writeLE a 8 w.toNat

/-- From `satp` and a virtual address to a physical address. -/
abbrev Mmu := Word → Word → ℕ

namespace Hart

def setReg (h : Hart) (r : Reg) (w : Word) : Hart := { h with regs := Function.update h.regs r w }

def setCsr (h : Hart) (c : Csr) (w : Word) : Hart := { h with csrs := Function.update h.csrs c w }

def addr (mmu : Mmu) (h : Hart) (base : Reg) (off : ℕ) : ℕ :=
  mmu (h.csrs .satp) (h.regs base + BitVec.ofNat 64 off)

def step (mmu : Mmu) (h : Hart) : Instr → Hart
  | .sd src base off => { h with mem := setWord h.mem (h.addr mmu base off) (h.regs src) }
  | .ld dst base off => h.setReg dst (word h.mem (h.addr mmu base off))
  | .addi dst src imm => h.setReg dst (h.regs src + imm)
  | .csrr dst csr => h.setReg dst (h.csrs csr)
  | .csrw csr src => h.setCsr csr (h.regs src)
  | .csrrw dst csr src => (h.setCsr csr (h.regs src)).setReg dst (h.csrs csr)
  | .fence => h
  | .jr src => { h with pc := h.regs src }
  | .sret => { h with
      pc := h.csrs .sepc
      mode := h.status.spp
      status := ⟨h.status.spie, true, .user⟩ }

def run (mmu : Mmu) (h : Hart) (is : List Instr) : Hart := is.foldl (step mmu) h

def trap (h : Hart) (cause val : Word) : Hart where
  regs := h.regs
  csrs := Function.update (Function.update (Function.update h.csrs .sepc h.pc) .scause cause)
    .stval val
  status := ⟨false, h.status.sie, h.mode⟩
  mode := .supervisor
  pc := h.csrs .stvec
  mem := h.mem

end Hart

section Memory

variable {m : ByteMem} {a b : ℕ} {v w : Word}

theorem word_setWord (m : ByteMem) (a : ℕ) (w : Word) : word (setWord m a w) a = w := by
  rw [word, setWord, ByteMem.readLE_writeLE_of_lt (by have := w.isLt; omega), BitVec.ofNat_toNat,
    BitVec.setWidth_eq]

theorem word_setWord_of_disjoint (h : b + 8 ≤ a ∨ a + 8 ≤ b) : word (setWord m a w) b = word m b := by
  rw [word, setWord, ByteMem.readLE_writeLE_disjoint h, word]

def storeAll (m : ByteMem) (pa : ℕ) (slots : List (ℕ × Word)) : ByteMem :=
  slots.foldl (fun m p => setWord m (pa + p.1) p.2) m

def Apart (a b : ℕ) : Prop := a + 8 ≤ b ∨ b + 8 ≤ a

instance (a b : ℕ) : Decidable (Apart a b) := inferInstanceAs (Decidable (_ ∨ _))

theorem word_storeAll_of_apart {pa : ℕ} {slots : List (ℕ × Word)}
    (h : ∀ p ∈ slots, Apart b (pa + p.1)) :
    word (storeAll m pa slots) b = word m b := by
  induction slots generalizing m with
  | nil => rfl
  | cons p slots ih =>
    rw [storeAll, List.foldl_cons]
    refine (ih fun q hq => h q (List.mem_cons_of_mem _ hq)).trans ?_
    exact word_setWord_of_disjoint (h p List.mem_cons_self)

theorem word_storeAll {pa : ℕ} {slots : List (ℕ × Word)}
    (h : slots.Pairwise fun p q => Apart p.1 q.1) {p : ℕ × Word} (hp : p ∈ slots) :
    word (storeAll m pa slots) (pa + p.1) = p.2 := by
  induction slots generalizing m with
  | nil => cases hp
  | cons q slots ih =>
    rw [List.pairwise_cons] at h
    rw [storeAll, List.foldl_cons]
    rcases List.mem_cons.mp hp with rfl | hp
    · refine (word_storeAll_of_apart fun r hr => ?_).trans (word_setWord m _ _)
      have := h.1 r hr
      rw [Apart] at this ⊢
      omega
    · exact ih h.2 hp

end Memory

section Runs

variable {mmu : Mmu} {h : Hart} {base : Reg} {pa n : ℕ} {slots : List (Reg × ℕ)}

def Maps (mmu : Mmu) (satp va : Word) (pa n : ℕ) : Prop :=
  ∀ off < n, mmu satp (va + BitVec.ofNat 64 off) = pa + off

theorem run_append (mmu : Mmu) (h : Hart) (is js : List Instr) :
    h.run mmu (is ++ js) = (h.run mmu is).run mmu js := List.foldl_append

theorem run_cons (mmu : Mmu) (h : Hart) (i : Instr) (is : List Instr) :
    h.run mmu (i :: is) = (h.step mmu i).run mmu is := rfl

def saves (base : Reg) (slots : List (Reg × ℕ)) : List Instr := slots.map fun p => .sd p.1 base p.2

def loads (base : Reg) (slots : List (Reg × ℕ)) : List Instr := slots.map fun p => .ld p.1 base p.2

theorem run_saves (hm : Maps mmu (h.csrs .satp) (h.regs base) pa n) (hin : ∀ p ∈ slots, p.2 < n) :
    h.run mmu (saves base slots) =
      { h with mem := storeAll h.mem pa (slots.map fun p => (p.2, h.regs p.1)) } := by
  induction slots generalizing h with
  | nil => rfl
  | cons p slots ih =>
    rw [saves, List.map_cons, run_cons]
    have hrest := ih (h := h.step mmu (.sd p.1 base p.2)) hm fun q hq =>
      hin q (List.mem_cons_of_mem _ hq)
    refine hrest.trans ?_
    have haddr : h.addr mmu base p.2 = pa + p.2 := hm p.2 (hin p List.mem_cons_self)
    simp only [Hart.step, haddr, List.map_cons, storeAll, List.foldl_cons]

def loaded (f : ℕ → Word) (slots : List (Reg × ℕ)) (regs : Reg → Word) : Reg → Word :=
  fun r => (slots.lookup r).elim (regs r) f

theorem loaded_of_mem {f : ℕ → Word} {regs : Reg → Word} {r : Reg} {off : ℕ}
    (hnd : (slots.map Prod.fst).Nodup) (h : (r, off) ∈ slots) : loaded f slots regs r = f off := by
  have hl : slots.lookup r = some off := by
    induction slots with
    | nil => cases h
    | cons p slots ih =>
      rw [List.map_cons, List.nodup_cons] at hnd
      rcases List.mem_cons.mp h with rfl | h
      · exact List.lookup_cons_self
      · have hne : r ≠ p.1 := fun he => hnd.1 (he ▸ List.mem_map_of_mem h)
        rw [List.lookup_cons, beq_eq_false_iff_ne.mpr hne]
        exact ih hnd.2 h
  rw [loaded, hl]
  rfl

theorem loaded_of_not_mem {f : ℕ → Word} {regs : Reg → Word} {r : Reg}
    (h : ∀ off, (r, off) ∉ slots) : loaded f slots regs r = regs r := by
  have hl : slots.lookup r = none := by
    rw [List.lookup_eq_none_iff]
    rintro ⟨q, off⟩ hq
    rw [bne_iff_ne]
    rintro rfl
    exact h off hq
  rw [loaded, hl]
  rfl

theorem run_loads (hm : Maps mmu (h.csrs .satp) (h.regs base) pa n) (hin : ∀ p ∈ slots, p.2 < n)
    (hnd : (slots.map Prod.fst).Nodup)
    (hbase : ∀ off, (base, off) ∈ slots → word h.mem (pa + off) = h.regs base) :
    h.run mmu (loads base slots) =
      { h with regs := loaded (fun off => word h.mem (pa + off)) slots h.regs } := by
  induction slots generalizing h with
  | nil => rfl
  | cons p slots ih =>
    rw [List.map_cons, List.nodup_cons] at hnd
    have haddr : h.addr mmu base p.2 = pa + p.2 := hm p.2 (hin p List.mem_cons_self)
    have hsame : (h.step mmu (.ld p.1 base p.2)).regs base = h.regs base := by
      simp only [Hart.step, Hart.setReg, haddr]
      by_cases hb : base = p.1
      · rw [hb, Function.update_self, ← hb]
        exact hbase p.2 (by rw [hb]; exact List.mem_cons_self)
      · rw [Function.update_of_ne hb]
    rw [loads, List.map_cons, run_cons]
    refine (ih (h := h.step mmu (.ld p.1 base p.2)) ?_
      (fun q hq => hin q (List.mem_cons_of_mem _ hq)) hnd.2
      fun off hoff => ?_).trans ?_
    · rw [hsame]
      exact hm
    · rw [hsame]
      exact hbase off (List.mem_cons_of_mem _ hoff)
    · simp only [Hart.step, Hart.setReg, haddr]
      congr 1
      funext r
      by_cases hr : r = p.1
      · subst hr
        rw [loaded_of_not_mem fun off hoff => hnd.1 (List.mem_map.mpr ⟨_, hoff, rfl⟩),
          Function.update_self, loaded, List.lookup_cons_self]
        rfl
      · rw [loaded, loaded, List.lookup_cons, beq_eq_false_iff_ne.mpr hr, Function.update_of_ne hr]

end Runs

end Riscv
