import StartOS.Os.TrapReturn

/-! # Traps in the kernel

`kernelvec` has its frame below the stack pointer, so code of the kernel that is interrupted goes on
with all its registers but `tp`, which is the hart's.
-/

namespace StartOS

open Riscv Hoare

variable {calls : TrapCalls} {s s' u u' : TrapState} {pa : ℕ} {h h' : Hart}
  {mmu : Mmu} {r : Reg}

section Code

end Code

section Handlers

/-- What a function of the kernel keeps of its caller: the stack pointer, the table and the frame at `pa`. -/
structure Calm (pa : ℕ) (u u' : TrapState) : Prop where
  sp : u'.hart.regs .sp = u.hart.regs .sp
  satp : u'.hart.csrs .satp = u.hart.csrs .satp
  mapped : Maps u.mmu (u.hart.csrs .satp) (u.hart.regs .sp) pa 256 →
    Maps u'.mmu (u.hart.csrs .satp) (u.hart.regs .sp) pa 256
  frame : ∀ off, off + 8 ≤ 256 → word u'.hart.mem (pa + off) = word u.hart.mem (pa + off)

theorem Calm.rfl : Calm pa u u := ⟨Eq.refl _, Eq.refl _, id, fun _ _ => Eq.refl _⟩

theorem Calm.trans {u'' : TrapState} (h : Calm pa u u') (h' : Calm pa u' u'') : Calm pa u u'' where
  sp := h'.sp.trans h.sp
  satp := h'.satp.trans h.satp
  mapped hm := by
    have hm' := h'.mapped (by rw [h.satp, h.sp]; exact h.mapped hm)
    rw [h.satp, h.sp] at hm'
    exact hm'
  frame off hoff := (h'.frame off hoff).trans (h.frame off hoff)

end Handlers

end StartOS
