import Mathlib.Algebra.Group.Int.Defs
import Mathlib.Algebra.Group.Nat.Defs
import Mathlib.Data.Nat.Basic
import Mathlib.Tactic.Common

/-! # Calls that may not return

A kernel function either returns or stops the machine: `panic` prints its
message and spins, a wild access traps, an endless loop never leaves. Machine
integers are kept as naturals or integers with the width of the C type written
out where a value can leave it.
-/

namespace StartOS

inductive Halt
  | panic (msg : String)
  | fault
  | hang
  deriving DecidableEq, Repr

abbrev Kernel := Except Halt

theorem Kernel.bind_ok {α β : Type} {x : Kernel α} {f : α → Kernel β} {b : β} :
    (x >>= f) = .ok b ↔ ∃ a, x = .ok a ∧ f a = .ok b := by
  cases x with
  | error e => simp [bind, Except.bind]
  | ok a => simp [bind, Except.bind]

@[simp] theorem Kernel.ok_bind {α β : Type} (a : α) (f : α → Kernel β) :
    ((Except.ok a : Kernel α) >>= f) = f a := rfl

@[simp] theorem Kernel.error_bind {α β : Type} (e : Halt) (f : α → Kernel β) :
    ((Except.error e : Kernel α) >>= f) = .error e := rfl

@[simp] theorem Kernel.pure_eq {α : Type} (a : α) : (pure a : Kernel α) = .ok a := rfl

def toInt32 (x : ℤ) : ℤ := Int.bmod x (2 ^ 32)

theorem toInt32_of_lt {x : ℤ} (h : -2 ^ 31 ≤ x) (h' : x < 2 ^ 31) : toInt32 x = x := by
  rw [toInt32, Int.bmod_eq_of_le] <;> omega

theorem toInt32_bounds (x : ℤ) : -2 ^ 31 ≤ toInt32 x ∧ toInt32 x < 2 ^ 31 := by
  rw [toInt32, Int.bmod_def]
  split <;> omega

def pgSize : ℕ := 4096

def pgRoundDown (a : ℕ) : ℕ := a / 4096 * 4096

def pgRoundUp (a : ℕ) : ℕ := (a + 4095) % 2 ^ 64 / 4096 * 4096

def physTop : ℕ := 0x80600000

end StartOS
