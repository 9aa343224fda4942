import Mathlib.Logic.Relation
import StartOS.Kernel.Basic
import StartOS.Lib.Ring

/-! # Pipes

A pipe is a ring of `PIPESIZE` bytes between two counters that only grow, modulo
the width of an `uint_t`. Everything `Pipe::read` and `Pipe::write` do between
taking the lock of the pipe and giving it back, at their end or inside `sleep`,
is one turn.
-/

namespace StartOS

def pipeSize : ℕ := 512

structure Pipe where
  readopen : Bool
  writeopen : Bool
  nwrite : ℕ
  nread : ℕ
  data : ℕ → UInt8

/-- The memory of a task as the kernel reaches it, with a byte where a user page is mapped. -/
abbrev UserBytes := ℕ → Option UInt8

namespace UserBytes

variable {mem mem' : UserBytes} {addr : ℕ}

def copyin (mem : UserBytes) (va : ℕ) : Option UInt8 := mem (va % 2 ^ 64)

def copyout (mem : UserBytes) (va : ℕ) (ch : UInt8) : Option UserBytes :=
  if (mem (va % 2 ^ 64)).isSome then some (Function.update mem (va % 2 ^ 64) (some ch)) else none

/-- The bytes of the buffer of length `n` at `addr`. -/
def bytesAt (mem : UserBytes) (addr n : ℕ) : List UInt8 :=
  (List.range n).map fun j => (mem.copyin (addr + j)).getD 0

/-- A buffer of `n` bytes at `addr` that is mapped. -/
def Valid (mem : UserBytes) (addr n : ℕ) : Prop := ∀ j < n, (mem.copyin (addr + j)).isSome

theorem Valid.copyout {n : ℕ} {ch : UInt8} (h : mem.Valid addr (n + 1)) :
    mem.copyout addr ch = some (Function.update mem (addr % 2 ^ 64) (some ch)) :=
  if_pos (h 0 (Nat.succ_pos n))

theorem Valid.tail {n : ℕ} (h : mem.Valid addr (n + 1)) : mem.Valid (addr + 1) n := by
  intro j hj
  rw [Nat.add_assoc, Nat.add_comm 1 j]
  exact h (j + 1) (Nat.succ_lt_succ hj)

theorem Valid.update {n va : ℕ} {ch : UInt8} (h : mem.Valid addr n) :
    Valid (Function.update mem va (some ch)) addr n := by
  intro j hj
  unfold copyin
  by_cases hva : (addr + j) % 2 ^ 64 = va
  · rw [hva, Function.update_self]
    rfl
  · rw [Function.update_of_ne hva]
    exact h j hj

theorem bytesAt_succ {n : ℕ} :
    mem.bytesAt addr (n + 1) = (mem.copyin addr).getD 0 :: mem.bytesAt (addr + 1) n := by
  unfold bytesAt
  rw [List.range_succ_eq_map, List.map_cons, List.map_map, Nat.add_zero]
  congr 1
  apply List.map_congr_left
  intro j _
  rw [Function.comp_apply, Nat.succ_eq_add_one, Nat.add_assoc, Nat.add_comm 1 j]

end UserBytes

namespace Pipe

def create (data : ℕ → UInt8) : Pipe := ⟨true, true, 0, 0, data⟩

/-- The loop of `Pipe::read` over the bytes from `i` on. -/
def readFrom (addr : ℕ) : ℕ → ℕ → Pipe → UserBytes → ℕ × Pipe × UserBytes
  | 0, i, p, mem => (i, p, mem)
  | k + 1, i, p, mem =>
    if p.nread = p.nwrite then (i, p, mem)
    else
      -- the byte has left the pipe even when it cannot be stored
      match mem.copyout (addr + i) (p.data (p.nread % pipeSize)) with
      | none => (i, { p with nread := (p.nread + 1) % 2 ^ 32 }, mem)
      | some mem => readFrom addr k (i + 1) { p with nread := (p.nread + 1) % 2 ^ 32 } mem

/-- `Pipe::read` from the moment it has the lock; the result is `none` when it sleeps. -/
def read (killed : Bool) (addr : ℕ) (n : ℤ) (p : Pipe) (mem : UserBytes) :
    Option ℤ × Pipe × UserBytes :=
  if p.nread = p.nwrite ∧ p.writeopen then
    if killed then (some (-1), p, mem) else (none, p, mem)
  else
    match readFrom addr n.toNat 0 p mem with
    | (i, p, mem) => (some i, p, mem)

/-- The loop of `Pipe::write` over the bytes from `i` on, with the byte it stopped at. -/
def writeFrom (killed : Bool) (addr : ℕ) (mem : UserBytes) : ℕ → ℕ → Pipe → ℕ × Option ℤ × Pipe
  | 0, i, p => (i, some i, p)
  | k + 1, i, p =>
    if p.nwrite = (p.nread + pipeSize) % 2 ^ 32 then
      if p.readopen = false ∨ killed then (i, some (-1), p) else (i, none, p)
    else
      match mem.copyin (addr + i) with
      | none => (i, some i, p)
      | some ch => writeFrom killed addr mem k (i + 1)
          { p with
            data := Function.update p.data (p.nwrite % pipeSize) ch
            nwrite := (p.nwrite + 1) % 2 ^ 32 }

/-- `Pipe::write` from the moment it has the lock and is at byte `i`. -/
def write (killed : Bool) (addr : ℕ) (n : ℤ) (i : ℕ) (p : Pipe) (mem : UserBytes) :
    ℕ × Option ℤ × Pipe :=
  writeFrom killed addr mem (n.toNat - i) i p

def closeEnd (writeEnd : Bool) (p : Pipe) : Pipe :=
  if writeEnd then { p with writeopen := false } else { p with readopen := false }

/-- `Pipe::close`, with `none` for the pipe that is deleted. -/
def close (writeEnd : Bool) (p : Pipe) : Option Pipe :=
  if (p.closeEnd writeEnd).readopen ∨ (p.closeEnd writeEnd).writeopen then some (p.closeEnd writeEnd)
  else none

structure Holds (p : Pipe) (q : List UInt8) : Prop where
  nread_lt : p.nread < 2 ^ 32
  nwrite_eq : p.nwrite = (p.nread + q.length) % 2 ^ 32
  length_le : q.length ≤ pipeSize
  window_eq : Ring.window p.data pipeSize p.nread q.length = q

section Holds

variable {p p' : Pipe} {q : List UInt8} {c : UInt8}

theorem pipeSize_dvd : pipeSize ∣ 2 ^ 32 := by decide

theorem holds_create (data : ℕ → UInt8) : (create data).Holds [] :=
  ⟨Nat.two_pow_pos 32, rfl, Nat.zero_le _, rfl⟩

theorem Holds.pending (h : p.Holds q) : (p.nwrite + 2 ^ 32 - p.nread) % 2 ^ 32 = q.length := by
  have hle : q.length ≤ 512 := h.length_le
  have hlt := h.nread_lt
  have hw := h.nwrite_eq
  omega

theorem Holds.empty_iff (h : p.Holds q) : p.nread = p.nwrite ↔ q = [] := by
  have hpend := h.pending
  have hlt := h.nread_lt
  rw [← List.length_eq_zero_iff, h.nwrite_eq]
  have hle : q.length ≤ 512 := h.length_le
  omega

theorem Holds.full_iff (h : p.Holds q) :
    p.nwrite = (p.nread + pipeSize) % 2 ^ 32 ↔ q.length = pipeSize := by
  have hle : q.length ≤ 512 := h.length_le
  have hlt := h.nread_lt
  rw [h.nwrite_eq, show pipeSize = 512 from rfl]
  omega

theorem Holds.pop (h : p.Holds (c :: q)) : p.data (p.nread % pipeSize) = c ∧
    { p with nread := (p.nread + 1) % 2 ^ 32 }.Holds q := by
  have hw := h.window_eq
  rw [List.length_cons, Ring.window_succ, List.cons.injEq] at hw
  have hle := h.length_le
  rw [List.length_cons] at hle
  refine ⟨hw.1, ⟨Nat.mod_lt _ (by decide), ?_, Nat.le_of_succ_le hle, ?_⟩⟩
  · change p.nwrite = ((p.nread + 1) % 2 ^ 32 + q.length) % 2 ^ 32
    rw [h.nwrite_eq, List.length_cons, Nat.mod_add_mod, Nat.add_right_comm, Nat.add_assoc]
  · rw [← hw.2, Ring.length_window, Ring.window_mod pipeSize_dvd]

theorem Holds.push (h : p.Holds q) (hq : q.length < pipeSize) :
    { p with
      data := Function.update p.data (p.nwrite % pipeSize) c
      nwrite := (p.nwrite + 1) % 2 ^ 32 }.Holds (q ++ [c]) := by
  have hcell : p.nwrite % pipeSize = (p.nread + q.length) % pipeSize := by
    rw [h.nwrite_eq, Nat.mod_mod_of_dvd _ pipeSize_dvd]
  refine ⟨h.nread_lt, ?_, ?_, ?_⟩
  · change (p.nwrite + 1) % 2 ^ 32 = _
    rw [h.nwrite_eq, Nat.mod_add_mod, List.length_append, List.length_singleton, Nat.add_assoc]
  · rw [List.length_append, List.length_singleton]
    exact hq
  · change Ring.window (Function.update p.data (p.nwrite % pipeSize) c) pipeSize p.nread _ = _
    rw [hcell, List.length_append, List.length_singleton, Ring.window_push hq, h.window_eq]

theorem Holds.close {writeEnd : Bool} (h : p.Holds q) (hc : p.close writeEnd = some p') :
    p'.Holds q := by
  obtain ⟨hlt, hw, hle, hwin⟩ := h
  unfold Pipe.close at hc
  split at hc
  · cases hc
    cases writeEnd <;> exact ⟨hlt, hw, hle, hwin⟩
  · cases hc

end Holds

section Loops

variable {p p' : Pipe} {q : List UInt8} {mem mem' : UserBytes} {addr k : ℕ}

/-- The loop of `read` takes bytes out in front until `k` are read or none is left, and stores
them in the buffer and nowhere else. -/
theorem Holds.readFrom (i : ℕ) (h : p.Holds q) (hv : mem.Valid (addr + i) k) (hk : k < 2 ^ 31) :
    ∃ d r, q = d ++ r ∧ d.length ≤ k ∧ (d.length < k → r = []) ∧
      ∃ p' mem', Pipe.readFrom addr k i p mem = (i + d.length, p', mem') ∧ p'.Holds r ∧
        mem'.bytesAt (addr + i) d.length = d ∧
        ∀ a, (∀ j < k, a ≠ (addr + i + j) % 2 ^ 64) → mem' a = mem a := by
  induction k generalizing i p q mem with
  | zero => exact ⟨[], q, rfl, le_rfl, fun hlt => absurd hlt (lt_irrefl 0), p, mem, rfl, h, rfl,
      fun a _ => rfl⟩
  | succ k ih =>
    rw [Pipe.readFrom]
    cases q with
    | nil =>
      rw [if_pos (h.empty_iff.mpr rfl)]
      exact ⟨[], [], rfl, Nat.zero_le _, fun _ => rfl, p, mem, rfl, h, rfl, fun a _ => rfl⟩
    | cons c q =>
      obtain ⟨hc, hpop⟩ := h.pop
      rw [if_neg fun he => absurd (h.empty_iff.mp he) (List.cons_ne_nil c q), hc, hv.copyout]
      obtain ⟨d, r, rfl, hd, hr, p', mem', hrun, hp', hbytes, hframe⟩ :=
        ih (i + 1) hpop hv.tail.update (Nat.lt_of_succ_lt hk)
      have hhead : mem' ((addr + i) % 2 ^ 64) = some c := by
        rw [hframe _ fun j hj => by omega, Function.update_self]
      refine ⟨c :: d, r, rfl, Nat.succ_le_succ hd, ?_, p', mem', ?_, hp', ?_, ?_⟩
      · intro hlt
        exact hr (Nat.lt_of_succ_lt_succ hlt)
      · change Pipe.readFrom addr k (i + 1) _ _ = _
        rw [hrun, List.length_cons, Nat.add_assoc, Nat.add_comm 1]
      · rw [List.length_cons, UserBytes.bytesAt_succ, UserBytes.copyin, hhead]
        congr 1
      · intro a ha
        rw [hframe a fun j hj => ?_, Function.update_of_ne]
        · exact ha 0 (Nat.succ_pos k)
        · have := ha (j + 1) (Nat.succ_lt_succ hj)
          rwa [show addr + (i + 1) + j = addr + i + (j + 1) by omega]

/-- The loop of `write` puts bytes of the buffer behind the others. -/
theorem Holds.writeFrom (killed : Bool) (i : ℕ) (h : p.Holds q) (hv : mem.Valid (addr + i) k) :
    ∃ m out p', Pipe.writeFrom killed addr mem k i p = (i + m, out, p') ∧
      p'.Holds (q ++ mem.bytesAt (addr + i) m) := by
  induction k generalizing i p q with
  | zero => exact ⟨0, some i, p, rfl, by rwa [show mem.bytesAt (addr + i) 0 = [] from rfl,
      List.append_nil]⟩
  | succ k ih =>
    have hstop : p.Holds (q ++ mem.bytesAt (addr + i) 0) := by
      rwa [show mem.bytesAt (addr + i) 0 = [] from rfl, List.append_nil]
    rw [Pipe.writeFrom]
    split
    · split
      · exact ⟨0, some (-1), p, rfl, hstop⟩
      · exact ⟨0, none, p, rfl, hstop⟩
    · rename_i hfull
      have hlen : q.length < pipeSize := lt_of_le_of_ne h.length_le fun he =>
        hfull (h.full_iff.mpr he)
      obtain ⟨ch, hch⟩ := Option.isSome_iff_exists.mp (hv 0 (Nat.succ_pos k))
      rw [Nat.add_zero] at hch
      obtain ⟨m, out, p', hrun, hp'⟩ := ih (i + 1) (h.push hlen) hv.tail
      rw [hch]
      refine ⟨m + 1, out, p', ?_, ?_⟩
      · change Pipe.writeFrom killed addr mem k (i + 1) _ = _
        rw [hrun, Nat.add_assoc, Nat.add_comm 1]
      · rw [UserBytes.bytesAt_succ, hch]
        rwa [List.append_assoc] at hp'

end Loops

end Pipe

end StartOS
