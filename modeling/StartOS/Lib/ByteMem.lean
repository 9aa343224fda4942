import Mathlib.Data.Nat.Basic
import Mathlib.Algebra.Order.Group.Nat
import Mathlib.Tactic.Ring
import Mathlib.Tactic.Linarith

/-! # Byte-addressed memories

A memory is a total function from addresses to bytes. Every store is a `blit`
of a run of bytes; little-endian words are read from and written to such runs.
-/

abbrev ByteMem := ℕ → UInt8

namespace ByteMem

/-- Overwrite the `n` bytes from `a` on by the bytes `f 0, …, f (n - 1)`. -/
def blit (m : ByteMem) (a n : ℕ) (f : ℕ → UInt8) : ByteMem :=
  fun x => if a ≤ x ∧ x < a + n then f (x - a) else m x

def fill (m : ByteMem) (a n : ℕ) (b : UInt8) : ByteMem :=
  m.blit a n fun _ => b

def readLE (m : ByteMem) (a : ℕ) : ℕ → ℕ
  | 0 => 0
  | n + 1 => (m a).toNat + 256 * readLE m (a + 1) n

def writeLE (m : ByteMem) (a n v : ℕ) : ByteMem :=
  m.blit a n fun i => UInt8.ofNat (v / 256 ^ i)

variable {m m' : ByteMem} {a b n k x v : ℕ} {f : ℕ → UInt8}

theorem blit_of_mem (h : a ≤ x) (h' : x < a + n) : m.blit a n f x = f (x - a) := by
  simp [blit, h, h']

theorem blit_of_not_mem (h : x < a ∨ a + n ≤ x) : m.blit a n f x = m x := by
  have : ¬ (a ≤ x ∧ x < a + n) := by omega
  simp [blit, this]

@[simp] theorem blit_zero (m : ByteMem) (a : ℕ) (f : ℕ → UInt8) : m.blit a 0 f = m :=
  funext fun _ => blit_of_not_mem (by omega)

theorem blit_congr {g : ℕ → UInt8} (h : ∀ i < n, f i = g i) : m.blit a n f = m.blit a n g := by
  funext x
  rw [blit, blit]
  split
  · exact h _ (by omega)
  · rfl

theorem blit_append {g : ℕ → UInt8} (h : ∀ i < k, g i = f (n + i)) :
    (m.blit a n f).blit (a + n) k g = m.blit a (n + k) f := by
  funext x
  by_cases hk : a + n ≤ x ∧ x < a + n + k
  · rw [blit_of_mem hk.1 hk.2, blit_of_mem (by omega) (by omega), h _ (by omega)]
    exact congrArg f (by omega)
  · rw [blit_of_not_mem (by omega), blit, blit]
    exact if_congr (by omega) rfl rfl

theorem blit_blit (m : ByteMem) (a n k : ℕ) (f g : ℕ → UInt8) :
    (m.blit a n f).blit (a + n) k g = m.blit a (n + k) fun i => if i < n then f i else g (i - n) := by
  have hleft : m.blit a n f = m.blit a n fun i => if i < n then f i else g (i - n) :=
    blit_congr fun i hi => (if_pos hi).symm
  rw [hleft]
  apply blit_append
  intro i _
  rw [if_neg (by omega), Nat.add_sub_cancel_left]

theorem blit_prepend {g : ℕ → UInt8} (h : ∀ i < k, g i = f (n + i)) :
    (m.blit (a + n) k g).blit a n f = m.blit a (n + k) f := by
  funext x
  by_cases hn : a ≤ x ∧ x < a + n
  · rw [blit_of_mem hn.1 hn.2, blit_of_mem (by omega) (by omega)]
  rw [blit_of_not_mem (by omega)]
  by_cases hk : a + n ≤ x ∧ x < a + n + k
  · rw [blit_of_mem hk.1 hk.2, blit_of_mem (by omega) (by omega), h _ (by omega)]
    exact congrArg f (by omega)
  · rw [blit_of_not_mem (by omega), blit_of_not_mem (by omega)]

theorem blit_eq_iff {P : ℕ → Prop} :
    (∀ x, P x → m.blit a n f x = m x) ↔ ∀ k < n, P (a + k) → f k = m (a + k) := by
  constructor
  · intro h k hk hP
    have := h (a + k) hP
    rwa [blit_of_mem (by omega) (by omega), Nat.add_sub_cancel_left] at this
  · intro h x hP
    by_cases hx : a ≤ x ∧ x < a + n
    · have hk := h (x - a) (by omega) (by rwa [Nat.add_sub_cancel' hx.1])
      rw [blit_of_mem hx.1 hx.2, hk, Nat.add_sub_cancel' hx.1]
    · exact blit_of_not_mem (by omega)

theorem fill_of_mem {c : UInt8} (h : a ≤ x) (h' : x < a + n) : m.fill a n c x = c :=
  blit_of_mem h h'

theorem fill_of_not_mem {c : UInt8} (h : x < a ∨ a + n ≤ x) : m.fill a n c x = m x :=
  blit_of_not_mem h

theorem writeLE_of_not_mem (h : x < a ∨ a + n ≤ x) : m.writeLE a n v x = m x :=
  blit_of_not_mem h

theorem readLE_congr (h : ∀ x, a ≤ x → x < a + n → m x = m' x) :
    m.readLE a n = m'.readLE a n := by
  induction n generalizing a with
  | zero => rfl
  | succ n ih =>
    rw [readLE, readLE, h a le_rfl (by omega), ih fun x hx hx' => h x (by omega) (by omega)]

theorem readLE_lt (m : ByteMem) (a n : ℕ) : m.readLE a n < 256 ^ n := by
  induction n generalizing a with
  | zero => simp [readLE]
  | succ n ih =>
    have hb : (m a).toNat < 256 := (m a).toNat_lt
    have := ih (a + 1)
    rw [readLE, pow_succ]
    omega

theorem readLE_blit_disjoint (h : b + k ≤ a ∨ a + n ≤ b) :
    (m.blit a n f).readLE b k = m.readLE b k :=
  readLE_congr fun _ _ _ => blit_of_not_mem (by omega)

theorem readLE_writeLE_disjoint (h : b + k ≤ a ∨ a + n ≤ b) :
    (m.writeLE a n v).readLE b k = m.readLE b k :=
  readLE_blit_disjoint h

theorem readLE_eq_zero (h : ∀ x, a ≤ x → x < a + n → m x = 0) : m.readLE a n = 0 := by
  induction n generalizing a with
  | zero => rfl
  | succ n ih =>
    rw [readLE, ih fun x hx hx' => h x (by omega) (by omega), h a le_rfl (by omega)]
    rfl

/-- A word has the same value exactly when its bytes are the same. -/
theorem readLE_eq_iff : m.readLE a n = m'.readLE a n ↔ ∀ x, a ≤ x → x < a + n → m x = m' x := by
  constructor
  · intro h
    induction n generalizing a with
    | zero =>
      intro x hx hx'
      omega
    | succ n ih =>
      have hb : (m a).toNat < 256 := (m a).toNat_lt
      have hb' : (m' a).toNat < 256 := (m' a).toNat_lt
      rw [readLE, readLE] at h
      intro x hx hx'
      rcases Nat.eq_or_lt_of_le hx with rfl | hlt
      · exact UInt8.toNat_inj.mp (by omega)
      · exact ih (a := a + 1) (by omega) x hlt (by omega)
  · exact readLE_congr

theorem readLE_eq_zero_iff : m.readLE a n = 0 ↔ ∀ x, a ≤ x → x < a + n → m x = 0 := by
  rw [← readLE_eq_zero (m := fun _ => 0) (a := a) (n := n) fun _ _ _ => rfl, readLE_eq_iff]

theorem readLE_writeLE (m : ByteMem) (a n v : ℕ) :
    (m.writeLE a n v).readLE a n = v % 256 ^ n := by
  induction n generalizing a v with
  | zero => simp [readLE, Nat.mod_one]
  | succ n ih =>
    have hb : (m.writeLE a (n + 1) v a).toNat = v % 256 := by
      simp [writeLE, blit]
    have ht : (m.writeLE a (n + 1) v).readLE (a + 1) n =
        (m.writeLE (a + 1) n (v / 256)).readLE (a + 1) n := by
      refine readLE_congr fun x hx hx' => ?_
      rw [writeLE, writeLE, blit_of_mem (by omega) (by omega), blit_of_mem hx hx',
        Nat.div_div_eq_div_mul, show x - a = x - (a + 1) + 1 by omega, pow_succ,
        mul_comm 256]
    rw [readLE, hb, ht, ih, pow_succ, mul_comm (256 ^ n), Nat.mod_mul]

theorem readLE_writeLE_of_lt (h : v < 256 ^ n) : (m.writeLE a n v).readLE a n = v := by
  rw [readLE_writeLE, Nat.mod_eq_of_lt h]

end ByteMem
