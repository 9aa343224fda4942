import StartOS.Fs.PipeRun

/-! # The console

Characters from the keyboard go through a ring of `INPUT_BUF` cells to the tasks
that call `Console::read`. The lock of the console keeps the calls of `read`
apart. `console_intr` does not take it and runs on the hart that the interrupt
goes to, so its accesses to the ring fall between those of `read`.
-/

namespace StartOS

def inputBuf : ℕ := 128

/-- `Console`. Both indices are an `int` that starts at 0; `read_index` only goes up. -/
structure Console where
  buf : ℕ → UInt8
  readIndex : ℕ
  writeIndex : ℤ

/-- A call of `read`: where the next character goes and how many are to go. -/
structure ReadCall where
  user : Bool
  dst : ℕ
  n : ℕ

namespace Console

/-- `init`. The memory of the ring is as it was found. -/
def init (buf : ℕ → UInt8) : Console := ⟨buf, 0, 0⟩

def incr (i : ℤ) : Kernel ℤ := if i + 1 < 2 ^ 31 then .ok (i + 1) else .error .fault

/-- `i % INPUT_BUF` as the number of a cell. A negative one is outside of the ring. -/
def cell (i : ℤ) : Kernel ℕ :=
  if i.tmod inputBuf < 0 then .error .fault else .ok (i.tmod inputBuf).toNat

/-- `putc`, as the characters sent to the screen, with `none` for `BACKSPACE`. -/
def putc : Option UInt8 → List UInt8
  | none => [8, 32, 8]
  | some c => [c]

/-- `either_copyout` of one character to the memory `mem` that `dst` points into, with `none` for
a negative result. -/
def eitherCopyout (user : Bool) (dst : ℕ) (c : UInt8) (mem : UserBytes) : Option UserBytes :=
  if user then mem.copyout dst c else some (Function.update mem (dst % 2 ^ 64) (some c))

/-- Where a call of `read` that has the lock is: before the tests of the loops, behind them, with
`read_index` moved past the cell `i` that is still to be read, with the cell read and `read_index`
still to be moved, or with a character to be stored. -/
inductive ReadPhase
  | test
  | take
  | counted (i : ℕ)
  | fetched (c : UInt8)
  | hold (c : UInt8)

/-- What one access of `read` leaves: its phase, or `none` when it has given back the lock, the
call, or `none` when it has returned, and the characters it has stored. -/
structure Turn where
  phase : Option ReadPhase
  call : Option ReadCall
  console : Console
  mem : UserBytes
  stored : List UInt8

/-- The next access of `read` to what it shares. C++ leaves open whether `buf[read_index++ % ..]`
moves the index first. -/
def read (countFirst : Bool) (rc : ReadCall) (con : Console) (mem : UserBytes) :
    ReadPhase → Kernel Turn
  | .test =>
    if rc.n = 0 then .ok ⟨none, none, con, mem, []⟩
    -- `sleep` gives back the lock and takes it again before the next test
    else if con.readIndex = con.writeIndex then .ok ⟨none, some rc, con, mem, []⟩
    else .ok ⟨some .take, some rc, con, mem, []⟩
  | .take =>
    if countFirst then do
      let i ← incr con.readIndex
      return ⟨some (.counted con.readIndex), some rc, { con with readIndex := i.toNat }, mem, []⟩
    else .ok ⟨some (.fetched (con.buf (con.readIndex % inputBuf))), some rc, con, mem, []⟩
  | .counted i => .ok ⟨some (.hold (con.buf (i % inputBuf))), some rc, con, mem, []⟩
  | .fetched c => do
    let i ← incr con.readIndex
    return ⟨some (.hold c), some rc, { con with readIndex := i.toNat }, mem, []⟩
  | .hold c =>
    -- the character has left the ring even when it cannot be stored
    match eitherCopyout rc.user rc.dst c mem with
    | none => .ok ⟨none, none, con, mem, []⟩
    | some mem =>
      if c = 10 then .ok ⟨none, none, con, mem, [c]⟩
      else .ok ⟨some .test, some ⟨rc.user, rc.dst + 1, rc.n - 1⟩, con, mem, [c]⟩

/-- Where `console_intr` is: not running, with a character seen that it will erase, with
`write_index` moved past the cell `i` that is still to be written, or with the cell written and
`write_index` still to be moved. -/
inductive IntrPhase
  | idle
  | erase
  | counted (i : ℤ) (c : UInt8)
  | filled (c : UInt8)

/-- `console_intr` up to its first access, with what is sent to the screen. The debugging keys only
print. -/
def consoleIntr (k210 countFirst : Bool) (c : UInt8) (con : Console) :
    Kernel (List UInt8 × IntrPhase × Console) :=
  if c = 8 ∨ c = 0x7f then .ok ([], if con.readIndex ≠ con.writeIndex then .erase else .idle, con)
  -- `CTRL('P')`, `~`, `$` and `#`
  else if c = 16 ∨ c = 126 ∨ c = 36 ∨ c = 35 then .ok ([], .idle, con)
  else if k210 ∧ c = 13 then .ok ([], .idle, con)
  else
    let c := if c = 13 then 10 else c
    if countFirst then do
      let i ← incr con.writeIndex
      return (putc (some c), .counted con.writeIndex c, { con with writeIndex := i })
    else do
      let k ← cell con.writeIndex
      return (putc (some c), .filled c, { con with buf := Function.update con.buf k c })

/-- The second access of `console_intr`. -/
def finishIntr (con : Console) : IntrPhase → Kernel (List UInt8 × Console)
  | .idle => .ok ([], con)
  | .erase => .ok (putc none ++ putc (some 7), { con with writeIndex := con.writeIndex - 1 })
  | .counted i c => do
    let k ← cell i
    return ([], { con with buf := Function.update con.buf k c })
  | .filled _ => do
    let i ← incr con.writeIndex
    return ([], { con with writeIndex := i })

def Saves (k210 : Bool) (c : UInt8) : Prop :=
  ¬(c = 8 ∨ c = 0x7f) ∧ ¬(c = 16 ∨ c = 126 ∨ c = 36 ∨ c = 35) ∧ ¬(k210 ∧ c = 13)

structure Holds (con : Console) (q : List UInt8) : Prop where
  writeIndex_eq : con.writeIndex = con.readIndex + q.length
  writeIndex_lt : con.writeIndex < 2 ^ 31
  length_le : q.length ≤ inputBuf
  window_eq : Ring.window con.buf inputBuf con.readIndex q.length = q

def unread (con : Console) : List UInt8 :=
  Ring.window con.buf inputBuf con.readIndex (con.writeIndex - con.readIndex).toNat

section Holds

variable {con con' : Console} {q : List UInt8} {c : UInt8} {k210 : Bool} {out : List UInt8}

theorem incr_of_lt {i : ℤ} (h : i + 1 < 2 ^ 31) : incr i = .ok (i + 1) := if_pos h

theorem incr_eq_ok {i j : ℤ} (h : incr i = .ok j) : j = i + 1 := by
  unfold incr at h
  split at h
  · cases h
    rfl
  · cases h

theorem cell_natCast (i : ℕ) : cell i = .ok (i % inputBuf) := by
  have hmod : (i : ℤ).tmod inputBuf = (i % inputBuf : ℕ) := by
    rw [Int.tmod_eq_emod_of_nonneg (Int.natCast_nonneg i), Int.natCast_mod]
  rw [cell, hmod, if_neg (by omega), Int.toNat_natCast]

theorem holds_init (buf : ℕ → UInt8) : (init buf).Holds [] :=
  ⟨rfl, Int.pow_pos (by decide), Nat.zero_le _, rfl⟩

namespace Holds

theorem unread_eq (h : con.Holds q) : con.unread = q := by
  rw [unread, h.writeIndex_eq, add_sub_cancel_left, Int.toNat_natCast, h.window_eq]

theorem pop (h : con.Holds (c :: q)) :
    con.buf (con.readIndex % inputBuf) = c ∧ (con.readIndex : ℤ) + 1 < 2 ^ 31 ∧
      { con with readIndex := con.readIndex + 1 }.Holds q := by
  obtain ⟨hw, hlt, hle, hwin⟩ := h
  rw [List.length_cons] at hw hle
  rw [List.length_cons, Ring.window_succ, List.cons.injEq] at hwin
  refine ⟨hwin.1, by omega, ?_, hlt, Nat.le_of_succ_le hle, hwin.2⟩
  change con.writeIndex = (con.readIndex + 1 : ℕ) + q.length
  omega

theorem pop_last (h : con.Holds (q ++ [c])) :
    { con with writeIndex := con.writeIndex - 1 }.Holds q := by
  obtain ⟨hw, hlt, hle, hwin⟩ := h
  rw [List.length_append, List.length_singleton] at hw hle
  rw [List.length_append, List.length_singleton, Ring.window_succ_last, List.append_singleton_inj]
    at hwin
  refine ⟨?_, ?_, Nat.le_of_succ_le hle, hwin.1⟩
  · change con.writeIndex - 1 = (con.readIndex : ℤ) + q.length
    omega
  · change con.writeIndex - 1 < 2 ^ 31
    omega

theorem push (h : con.Holds q) (hq : q.length < inputBuf) (hi : con.writeIndex + 1 < 2 ^ 31) :
    { con with
      buf := Function.update con.buf (con.writeIndex.toNat % inputBuf) c
      writeIndex := con.writeIndex + 1 }.Holds (q ++ [c]) := by
  obtain ⟨hw, hlt, hle, hwin⟩ := h
  have hnat : con.writeIndex.toNat = con.readIndex + q.length := by omega
  refine ⟨?_, hi, ?_, ?_⟩
  · rw [List.length_append, List.length_singleton]
    change con.writeIndex + 1 = con.readIndex + ((q.length + 1 : ℕ) : ℤ)
    omega
  · rw [List.length_append, List.length_singleton]
    exact hq
  · rw [List.length_append, List.length_singleton, hnat]
    change Ring.window (Function.update con.buf _ c) inputBuf con.readIndex _ = _
    rw [Ring.window_push hq, hwin]

end Holds

end Holds

end Console

/-- The console and the tasks that read from it. `lock` is the task that has the lock and where it
is. The characters that were saved and not erased, those that were erased and those that were stored
in the buffers of readers are kept in order. -/
structure ConsoleUse (ι : Type) where
  console : Console
  lock : Option (ι × Console.ReadPhase)
  call : ι → Option ReadCall
  intr : Console.IntrPhase
  mem : ι → UserBytes
  kept : List UInt8
  erased : List UInt8
  delivered : List UInt8

namespace ConsoleUse

variable {ι : Type}

def start (buf : ℕ → UInt8) (mem : ι → UserBytes) : ConsoleUse ι :=
  ⟨.init buf, none, fun _ => none, .idle, mem, [], [], []⟩

/-- `console_intr` has begun with a character. -/
def afterPress (s : ConsoleUse ι) (ph : Console.IntrPhase) (con : Console) : ConsoleUse ι :=
  { s with
    console := con
    intr := ph
    kept :=
      match ph with
      | .counted _ c => s.kept ++ [c]
      | _ => s.kept }

/-- `console_intr` has returned. -/
def afterFinish (s : ConsoleUse ι) (con : Console) : ConsoleUse ι :=
  { s with
    console := con
    intr := .idle
    kept :=
      match s.intr with
      | .filled c => s.kept ++ [c]
      | .erase => s.kept.dropLast
      | _ => s.kept
    erased :=
      match s.intr with
      | .erase => s.erased ++ s.kept.getLast?.toList
      | _ => s.erased }

variable [DecidableEq ι]

/-- Task `t` has made an access of `read`. -/
def afterRead (s : ConsoleUse ι) (t : ι) (r : Console.Turn) : ConsoleUse ι :=
  { s with
    console := r.console
    lock := r.phase.map fun ph => (t, ph)
    call := Function.update s.call t r.call
    mem := Function.update s.mem t r.mem
    delivered := s.delivered ++ r.stored }

inductive Event (ι : Type)
  | call (t : ι) (user : Bool) (dst : ℕ) (n : ℤ)
  | lock (t : ι)
  | read (t : ι) (countFirst : Bool)
  | press (c : UInt8) (countFirst : Bool)
  | finish
  | user (mem : ι → UserBytes)

/-- One access of `read` or `console_intr`, or a step outside of them. A task that sleeps takes the
lock again at any later moment. The interrupt controller does not pass on an interrupt of the
keyboard before the last one is done. -/
inductive Step (k210 : Bool) : Event ι → ConsoleUse ι → ConsoleUse ι → Prop
  | call {s : ConsoleUse ι} {t : ι} {user : Bool} {dst : ℕ} {n : ℤ} :
      s.call t = none → n < 2 ^ 31 →
      Step k210 (.call t user dst n)
        s { s with call := Function.update s.call t (some ⟨user, dst, n.toNat⟩) }
  | lock {s : ConsoleUse ι} {t : ι} {rc : ReadCall} :
      s.call t = some rc → s.lock = none → Step k210 (.lock t) s { s with lock := some (t, .test) }
  | read {s : ConsoleUse ι} {t : ι} {rc : ReadCall} {ph : Console.ReadPhase} {countFirst : Bool}
      {r : Console.Turn} :
      s.call t = some rc → s.lock = some (t, ph) →
      Console.read countFirst rc s.console (s.mem t) ph = .ok r →
      Step k210 (.read t countFirst) s (s.afterRead t r)
  | press {s : ConsoleUse ι} {c : UInt8} {countFirst : Bool} {out : List UInt8}
      {ph : Console.IntrPhase} {con : Console} :
      s.intr = .idle → Console.consoleIntr k210 countFirst c s.console = .ok (out, ph, con) →
      Step k210 (.press c countFirst) s (s.afterPress ph con)
  | finish {s : ConsoleUse ι} {out : List UInt8} {con : Console} :
      Console.finishIntr s.console s.intr = .ok (out, con) →
      Step k210 .finish s (s.afterFinish con)
  | user {s : ConsoleUse ι} {mem : ι → UserBytes} :
      Step k210 (.user mem) s { s with mem := mem }

/-- The ring with the character that `console_intr` has counted and still has to write. -/
def ring (s : ConsoleUse ι) : ℕ → UInt8 :=
  match s.intr with
  | .counted i c => Function.update s.console.buf (i.toNat % inputBuf) c
  | _ => s.console.buf

def unread (s : ConsoleUse ι) : List UInt8 := { s.console with buf := s.ring }.unread

def inHand (s : ConsoleUse ι) : List UInt8 :=
  match s.lock with
  | some (_, .counted i) => [s.console.buf (i % inputBuf)]
  | some (_, .hold c) => [c]
  | _ => []

def counted (s : ConsoleUse ι) : ℕ :=
  match s.lock with
  | some (_, .counted _) => 1
  | _ => 0

def Written (s : ConsoleUse ι) : Prop := ∀ c, s.intr ≠ .counted s.console.readIndex c

/-- The character that `read` has seen is still unread when it takes it, and has been written; the
one it has taken can be stored. -/
def Takes (s : ConsoleUse ι) (rc : ReadCall) (mem : UserBytes) : Console.ReadPhase → Prop
  | .take => s.unread ≠ [] ∧ s.Written
  | .fetched c => s.unread.head? = some c ∧ s.Written
  | .hold c => Console.eitherCopyout rc.user rc.dst c mem ≠ none
  | _ => True

/-- The access does not run into what the console leaves out: a character that is read has not been
erased since it was seen and can be stored, one that is erased is not the end of a line and has not
been read since it was seen, and one that is saved finds room in the ring and an index that is an
`int`. -/
def Clean (k210 : Bool) (s : ConsoleUse ι) : Event ι → Prop
  | .read t _ => ∀ rc ph, s.call t = some rc → s.lock = some (t, ph) → s.Takes rc (s.mem t) ph
  | .press c _ => Console.Saves k210 c →
    s.unread.length + s.counted < inputBuf ∧ s.console.writeIndex + 1 < 2 ^ 31
  | .finish => s.intr = .erase → ∃ c ≠ 10, s.unread.getLast? = some c
  | _ => True

def CleanStep (k210 : Bool) (s s' : ConsoleUse ι) : Prop :=
  ∃ e, s.Clean k210 e ∧ Step k210 e s s'

/-- What was typed and not erased was delivered, is in the hand of a reader or waits in the ring, in
order, and no end of a line was erased. -/
structure LineQueue (s : ConsoleUse ι) : Prop where
  kept_eq : s.kept = s.delivered ++ s.inHand ++ s.unread
  length_le : s.unread.length ≤ inputBuf
  newline_kept : 10 ∉ s.erased

structure Invariant (s : ConsoleUse ι) (q : List UInt8) : Prop where
  kept_eq : s.kept = s.delivered ++ s.inHand ++ q
  holds : { s.console with buf := s.ring }.Holds q
  newline_kept : 10 ∉ s.erased
  reading : ∀ t i, s.lock = some (t, .counted i) → i + 1 = s.console.readIndex ∧
    q.length < inputBuf
  writing : ∀ i c, s.intr = .counted i c → i + 1 = s.console.writeIndex ∧ q ≠ []
  filled : ∀ c, s.intr = .filled c →
    s.console.buf (s.console.writeIndex.toNat % inputBuf) = c ∧ q.length + s.counted < inputBuf ∧
      s.console.writeIndex + 1 < 2 ^ 31

variable {s s' : ConsoleUse ι} {q : List UInt8} {k210 : Bool} {e : Event ι}

omit [DecidableEq ι] in
theorem Invariant.unread_eq (h : s.Invariant q) : s.unread = q := h.holds.unread_eq

omit [DecidableEq ι] in
theorem Invariant.lineQueue (h : s.Invariant q) : s.LineQueue :=
  ⟨h.unread_eq.symm ▸ h.kept_eq, h.unread_eq.symm ▸ h.holds.length_le, h.newline_kept⟩

omit [DecidableEq ι] in
theorem invariant_start (buf : ℕ → UInt8) (mem : ι → UserBytes) : (start buf mem).Invariant [] :=
  ⟨rfl, Console.holds_init buf, List.not_mem_nil, nofun, nofun, nofun⟩

def Edits (s s' : ConsoleUse ι) : Prop :=
  s'.kept = s.kept ∨ (∃ c, s'.kept = s.kept ++ [c]) ∨
    ∃ c ≠ 10, s.unread = s'.unread ++ [c] ∧ s.kept = s'.kept ++ [c]

section Ring

omit [DecidableEq ι]

theorem ring_of_not_counted (h : ∀ i c, s.intr ≠ .counted i c) : s.ring = s.console.buf := by
  unfold ring
  split
  · rename_i i c hi
    exact absurd hi (h i c)
  · rfl

theorem counted_le_one (s : ConsoleUse ι) : s.counted ≤ 1 := by
  unfold counted
  split <;> decide

theorem counted_of_lock (h : ∀ t i, s.lock ≠ some (t, .counted i)) : s.counted = 0 := by
  unfold counted
  split
  · rename_i t i hl
    exact absurd hl (h t i)
  · rfl

theorem Invariant.writeIndex_eq (h : s.Invariant q) :
    s.console.writeIndex = s.console.readIndex + q.length := h.holds.writeIndex_eq

theorem ring_of_counted {i : ℤ} {c : UInt8} (h : s.intr = .counted i c) :
    s.ring = Function.update s.console.buf (i.toNat % inputBuf) c := by
  unfold ring
  rw [h]

/-- The first unread character stands in the ring when it has been written. -/
theorem Invariant.first_written {c : UInt8} (h : s.Invariant (c :: q)) (hw : s.Written) :
    s.console.buf (s.console.readIndex % inputBuf) = c := by
  have hfirst : s.ring (s.console.readIndex % inputBuf) = c := h.holds.pop.1
  by_cases hcounted : ∃ i d, s.intr = .counted i d
  · obtain ⟨i, d, hi⟩ := hcounted
    obtain ⟨hiw, -⟩ := h.writing i d hi
    have hne : i ≠ s.console.readIndex := by
      rintro rfl
      exact hw d hi
    have hlen := h.holds.length_le
    have heq := h.writeIndex_eq
    rw [List.length_cons] at hlen heq
    have hnat : i.toNat = s.console.readIndex + q.length := by omega
    rw [ring_of_counted hi, hnat, Function.update_of_ne] at hfirst
    · exact hfirst
    · exact Ring.index_ne (j := 0) (by omega) (by omega)
  · rwa [ring_of_not_counted fun i d hi => hcounted ⟨i, d, hi⟩] at hfirst

end Ring

section Read

omit [DecidableEq ι]

/-- An access of `read` that leaves the ring as it is and does not count a character. -/
theorem Invariant.relock (h : s.Invariant q) (hcon : s'.console = s.console)
    (hintr : s'.intr = s.intr) (hkept : s'.kept = s.kept) (herased : s'.erased = s.erased)
    (hdel : s'.delivered ++ s'.inHand = s.delivered ++ s.inHand)
    (hlock : ∀ t i, s'.lock ≠ some (t, .counted i)) : s'.Invariant q := by
  have hring : s'.ring = s.ring := by
    unfold ring
    rw [hcon, hintr]
  refine ⟨?_, ?_, herased ▸ h.newline_kept, fun t i hl => absurd hl (hlock t i), ?_, ?_⟩
  · rw [hkept, hdel, h.kept_eq]
  · rw [hring, hcon]
    exact h.holds
  · rw [hintr, hcon]
    exact h.writing
  · rw [hintr, hcon, counted_of_lock hlock]
    intro c hc
    obtain ⟨hbuf, hlen, hi⟩ := h.filled c hc
    exact ⟨hbuf, by omega, hi⟩

/-- A reader that has nothing in its hand moves `read_index` past a character. -/
theorem Invariant.take {c : UInt8} (h : s.Invariant (c :: q)) (hw : s.Written)
    (hcon : s'.console = { s.console with readIndex := s.console.readIndex + 1 })
    (hintr : s'.intr = s.intr) (hkept : s'.kept = s.kept) (herased : s'.erased = s.erased)
    (hdel : s'.delivered = s.delivered) (hempty : s.inHand = []) (hhand : s'.inHand = [c])
    (hlock : ∀ t i, s'.lock = some (t, .counted i) → i = s.console.readIndex) :
    s'.Invariant q := by
  have hlen := h.holds.length_le
  have heq := h.writeIndex_eq
  rw [List.length_cons] at hlen heq
  have hring : s'.ring = s.ring := by
    unfold ring
    rw [hcon, hintr]
  refine ⟨?_, ?_, herased ▸ h.newline_kept, fun t i hl => ?_, fun i d hi => ?_, fun d hd => ?_⟩
  · rw [hkept, hdel, hhand, h.kept_eq, hempty, List.append_nil, List.append_assoc]
    rfl
  · rw [hring, hcon]
    exact h.holds.pop.2.2
  · rw [hcon, hlock t i hl]
    exact ⟨rfl, by omega⟩
  · rw [hintr] at hi
    obtain ⟨hiw, -⟩ := h.writing i d hi
    rw [hcon]
    refine ⟨hiw, ?_⟩
    rintro rfl
    refine hw d ?_
    rw [hi]
    congr 1
    rw [List.length_nil] at heq
    omega
  · rw [hintr] at hd
    obtain ⟨hbuf, hroom, hi⟩ := h.filled d hd
    rw [List.length_cons] at hroom
    have := s'.counted_le_one
    rw [hcon]
    exact ⟨hbuf, by omega, hi⟩

end Read

/-- A clean access that reads `read_index`: it counts the character that is there, or fetches it. -/
theorem Invariant.readTake {t : ι} {rc : ReadCall} {countFirst : Bool} {r : Console.Turn}
    (h : s.Invariant q) (hl : s.lock = some (t, .take)) (hne : s.unread ≠ []) (hw : s.Written)
    (hrun : Console.read countFirst rc s.console (s.mem t) .take = .ok r) :
    ∃ q', (s.afterRead t r).Invariant q' := by
  rw [h.unread_eq] at hne
  obtain ⟨c, q, rfl⟩ := List.exists_cons_of_ne_nil hne
  have hhand : s.inHand = [] := by
    unfold inHand
    rw [hl]
  cases countFirst with
  | true =>
    rw [Console.read, if_pos rfl, Console.incr_of_lt h.holds.pop.2.1] at hrun
    cases hrun
    refine ⟨q, h.take hw rfl rfl rfl rfl (List.append_nil _) hhand ?_ ?_⟩
    · exact congrArg (fun c => [c]) (h.first_written hw)
    · intro u i hu
      cases hu
      rfl
  | false =>
    rw [Console.read, if_neg (by simp)] at hrun
    cases hrun
    refine ⟨_, h.relock rfl rfl rfl rfl ?_ ?_⟩
    · rw [hhand]
      simp [afterRead, inHand]
    · intro u i hu
      cases hu

theorem Invariant.read {t : ι} {rc : ReadCall} {ph : Console.ReadPhase} {countFirst : Bool}
    {r : Console.Turn} (h : s.Invariant q) (hclean : s.Clean k210 (.read t countFirst))
    (ht : s.call t = some rc) (hl : s.lock = some (t, ph))
    (hrun : Console.read countFirst rc s.console (s.mem t) ph = .ok r) :
    ∃ q', (s.afterRead t r).Invariant q' := by
  have hc := hclean rc ph ht hl
  cases ph with
  | test =>
    have hhand : s.inHand = [] := by
      unfold inHand
      rw [hl]
    have hkeep : r.console = s.console ∧ r.stored = [] ∧ (r.phase = none ∨ r.phase = some .take) := by
      rw [Console.read] at hrun
      split at hrun
      · cases hrun
        exact ⟨rfl, rfl, .inl rfl⟩
      · split at hrun <;> cases hrun
        · exact ⟨rfl, rfl, .inl rfl⟩
        · exact ⟨rfl, rfl, .inr rfl⟩
    obtain ⟨hcon, hstored, hph⟩ := hkeep
    refine ⟨q, h.relock hcon rfl rfl rfl ?_ ?_⟩
    · rw [hhand]
      rcases hph with hph | hph <;> simp [afterRead, inHand, hph, hstored]
    · intro u i hu
      rcases hph with hph | hph <;> simp [afterRead, hph] at hu
  | take => exact h.readTake hl hc.1 hc.2 hrun
  | counted i =>
    rw [Console.read] at hrun
    cases hrun
    refine ⟨q, h.relock rfl rfl rfl rfl ?_ ?_⟩
    · simp [afterRead, inHand, hl]
    · intro u j hu
      cases hu
  | fetched c =>
    obtain ⟨hhead, hw⟩ := hc
    rw [h.unread_eq] at hhead
    obtain ⟨q, rfl⟩ := List.head?_eq_some_iff.mp hhead
    have hhand : s.inHand = [] := by
      unfold inHand
      rw [hl]
    rw [Console.read, Console.incr_of_lt h.holds.pop.2.1] at hrun
    cases hrun
    refine ⟨q, h.take hw rfl rfl rfl rfl (List.append_nil _) hhand rfl ?_⟩
    intro u i hu
    cases hu
  | hold c =>
    obtain ⟨mem, hmem⟩ := Option.ne_none_iff_exists'.mp hc
    have hhand : s.inHand = [c] := by
      unfold inHand
      rw [hl]
    rw [Console.read, hmem] at hrun
    dsimp only at hrun
    split at hrun
    · cases hrun
      refine ⟨q, h.relock rfl rfl rfl rfl ?_ ?_⟩
      · rw [hhand]
        simp [afterRead, inHand]
      · intro u i hu
        cases hu
    · cases hrun
      refine ⟨q, h.relock rfl rfl rfl rfl ?_ ?_⟩
      · rw [hhand]
        simp [afterRead, inHand]
      · intro u i hu
        cases hu

section Intr

omit [DecidableEq ι]

theorem inHand_update (hlock : s'.lock = s.lock) {k : ℕ} {c : UInt8}
    (hcon : s'.console.buf = Function.update s.console.buf k c)
    (hk : ∀ t i, s.lock = some (t, .counted i) → i % inputBuf ≠ k) : s'.inHand = s.inHand := by
  unfold inHand
  rw [hlock, hcon]
  split
  · rename_i t i hl
    rw [Function.update_of_ne (hk t i hl)]
  · rfl
  · rfl

theorem one_le_counted {t : ι} {i : ℕ} (hl : s.lock = some (t, .counted i)) : s.counted = 1 := by
  unfold counted
  rw [hl]

/-- The ways `console_intr` begins: it saves nothing, or it counts or writes a character. -/
theorem consoleIntr_cases {c : UInt8} {countFirst : Bool} {con con' : Console} {out : List UInt8}
    {ph : Console.IntrPhase}
    (h : Console.consoleIntr k210 countFirst c con = .ok (out, ph, con')) :
    (con' = con ∧ (ph = .idle ∨ ph = .erase)) ∨ (Console.Saves k210 c ∧ ∃ d,
      (ph = .counted con.writeIndex d ∧ con' = { con with writeIndex := con.writeIndex + 1 }) ∨
      ∃ k, Console.cell con.writeIndex = .ok k ∧ ph = .filled d ∧
        con' = { con with buf := Function.update con.buf k d }) := by
  unfold Console.consoleIntr at h
  split at h
  · cases h
    refine .inl ⟨rfl, ?_⟩
    split
    · exact .inr rfl
    · exact .inl rfl
  · rename_i hback
    split at h
    · cases h
      exact .inl ⟨rfl, .inl rfl⟩
    · rename_i hdebug
      split at h
      · cases h
        exact .inl ⟨rfl, .inl rfl⟩
      · rename_i hreturn
        refine .inr ⟨⟨hback, hdebug, hreturn⟩, if c = 13 then 10 else c, ?_⟩
        dsimp only at h
        split at h
        · obtain ⟨i, hi, hok⟩ := Kernel.bind_ok.mp h
          cases hok
          rw [Console.incr_eq_ok hi]
          exact .inl ⟨rfl, rfl⟩
        · obtain ⟨k, hk, hok⟩ := Kernel.bind_ok.mp h
          cases hok
          exact .inr ⟨k, hk, rfl, rfl⟩

theorem Invariant.press {c : UInt8} {countFirst : Bool} {con : Console} {out : List UInt8}
    {ph : Console.IntrPhase} (h : s.Invariant q) (hclean : s.Clean k210 (.press c countFirst))
    (hidle : s.intr = .idle)
    (hc : Console.consoleIntr k210 countFirst c s.console = .ok (out, ph, con)) :
    (∃ q', (s.afterPress ph con).Invariant q') ∧
      ((s.afterPress ph con).kept = s.kept ∨ ∃ c, (s.afterPress ph con).kept = s.kept ++ [c]) := by
  have hring : s.ring = s.console.buf := ring_of_not_counted fun i d hi => by
    rw [hidle] at hi
    cases hi
  have hholds : s.console.Holds q := by
    have := h.holds
    rwa [hring] at this
  have heq := h.writeIndex_eq
  have hnat : s.console.writeIndex.toNat = s.console.readIndex + q.length := by omega
  rcases consoleIntr_cases hc with ⟨rfl, hph⟩ | ⟨hsaves, d, hsave⟩
  · refine ⟨⟨q, ?_⟩, .inl ?_⟩
    · rcases hph with rfl | rfl
      · exact ⟨h.kept_eq, hholds, h.newline_kept, h.reading, nofun, nofun⟩
      · exact ⟨h.kept_eq, hholds, h.newline_kept, h.reading, nofun, nofun⟩
    · rcases hph with rfl | rfl <;> rfl
  obtain ⟨hlen, hi⟩ := hclean hsaves
  rw [h.unread_eq] at hlen
  rcases hsave with ⟨rfl, rfl⟩ | ⟨k, hk, rfl, rfl⟩
  · refine ⟨⟨q ++ [d], ?_, ?_, h.newline_kept, fun t i hl => ?_, fun i e he => ?_, nofun⟩,
      .inr ⟨d, rfl⟩⟩
    · change s.kept ++ [d] = s.delivered ++ s.inHand ++ (q ++ [d])
      rw [h.kept_eq, List.append_assoc]
    · exact hholds.push (by omega) hi
    · have hone := one_le_counted (s := s) hl
      rw [List.length_append, List.length_singleton]
      exact ⟨(h.reading t i hl).1, by omega⟩
    · cases he
      exact ⟨rfl, by simp⟩
  · have hcast : s.console.writeIndex = (s.console.readIndex + q.length : ℕ) := by omega
    rw [hcast, Console.cell_natCast] at hk
    cases hk
    have hhand : (s.afterPress (.filled d) ⟨Function.update s.console.buf
        ((s.console.readIndex + q.length) % inputBuf) d, s.console.readIndex,
          s.console.writeIndex⟩).inHand = s.inHand := by
      refine inHand_update rfl rfl fun t i hl => ?_
      have hone := one_le_counted hl
      rw [← (h.reading t i hl).1, Nat.add_assoc]
      exact Ring.index_ne (j := 0) (by omega) (by omega)
    refine ⟨⟨q, ?_, ?_, h.newline_kept, h.reading, nofun, fun e he => ?_⟩, .inl rfl⟩
    · change s.kept = s.delivered ++ _ ++ q
      rw [hhand, h.kept_eq]
    · refine ⟨hholds.writeIndex_eq, hholds.writeIndex_lt, hholds.length_le, ?_⟩
      exact (Ring.window_update (by omega)).trans hholds.window_eq
    · cases he
      refine ⟨?_, hlen, hi⟩
      change Function.update s.console.buf _ d (s.console.writeIndex.toNat % inputBuf) = d
      rw [hnat, Function.update_self]

theorem Invariant.erase (h : s.Invariant q) (hclean : s.Clean k210 .finish)
    (hintr : s.intr = .erase) :
    (∃ q', (s.afterFinish { s.console with
      writeIndex := s.console.writeIndex - 1 }).Invariant q') ∧
      s.Edits (s.afterFinish { s.console with writeIndex := s.console.writeIndex - 1 }) := by
  obtain ⟨c, hc10, hlast⟩ := hclean hintr
  rw [h.unread_eq] at hlast
  obtain ⟨q, rfl⟩ := List.getLast?_eq_some_iff.mp hlast
  have hring : s.ring = s.console.buf := ring_of_not_counted fun i d hi => by
    rw [hintr] at hi
    cases hi
  have hholds : ({ s.console with writeIndex := s.console.writeIndex - 1 } : Console).Holds q := by
    have := h.holds.pop_last
    rwa [hring] at this
  have hkept : s.kept = (s.delivered ++ s.inHand ++ q) ++ [c] := by
    rw [h.kept_eq, ← List.append_assoc]
  have hkept' : (s.afterFinish { s.console with writeIndex := s.console.writeIndex - 1 }).kept =
      s.delivered ++ s.inHand ++ q := by
    unfold afterFinish
    rw [hintr, hkept]
    exact List.dropLast_concat
  have herased : (s.afterFinish { s.console with
      writeIndex := s.console.writeIndex - 1 }).erased = s.erased ++ [c] := by
    unfold afterFinish
    rw [hintr, hkept, List.getLast?_concat]
    rfl
  refine ⟨⟨q, hkept', hholds, ?_, fun t i hl => ?_, nofun, nofun⟩,
    .inr (.inr ⟨c, hc10, ?_, ?_⟩)⟩
  · rw [herased]
    simpa using ⟨h.newline_kept, hc10.symm⟩
  · obtain ⟨hi, hlen⟩ := h.reading t i hl
    rw [List.length_append, List.length_singleton] at hlen
    exact ⟨hi, by omega⟩
  · rw [h.unread_eq]
    exact congrArg (· ++ [c]) hholds.unread_eq.symm
  · rw [hkept', hkept]

theorem Invariant.writeCounted {i : ℤ} {c : UInt8} {con : Console} {out : List UInt8}
    (h : s.Invariant q) (hintr : s.intr = .counted i c)
    (hc : Console.finishIntr s.console (.counted i c) = .ok (out, con)) :
    (s.afterFinish con).Invariant q ∧ (s.afterFinish con).kept = s.kept := by
  have heq := h.writeIndex_eq
  obtain ⟨hiw, hne⟩ := h.writing i c hintr
  have hpos : 0 < q.length := List.length_pos_iff.mpr hne
  have hinat : i = (s.console.readIndex + (q.length - 1) : ℕ) := by omega
  rw [Console.finishIntr, hinat, Console.cell_natCast] at hc
  cases hc
  have hring := ring_of_counted hintr
  rw [hinat, Int.toNat_natCast] at hring
  have hhand : (s.afterFinish ⟨Function.update s.console.buf
      ((s.console.readIndex + (q.length - 1)) % inputBuf) c, s.console.readIndex,
        s.console.writeIndex⟩).inHand = s.inHand := by
    refine inHand_update rfl rfl fun t k hl => ?_
    obtain ⟨hk, hlen⟩ := h.reading t k hl
    rw [← hk, Nat.add_assoc]
    exact Ring.index_ne (j := 0) (by omega) (by omega)
  have hsame : (s.afterFinish ⟨Function.update s.console.buf
      ((s.console.readIndex + (q.length - 1)) % inputBuf) c, s.console.readIndex,
        s.console.writeIndex⟩).kept = s.kept ∧
      (s.afterFinish ⟨Function.update s.console.buf
        ((s.console.readIndex + (q.length - 1)) % inputBuf) c, s.console.readIndex,
          s.console.writeIndex⟩).erased = s.erased := by
    unfold afterFinish
    rw [hintr]
    exact ⟨rfl, rfl⟩
  refine ⟨⟨?_, ?_, hsame.2 ▸ h.newline_kept, h.reading, nofun, nofun⟩, hsame.1⟩
  · rw [hsame.1, hhand]
    exact h.kept_eq
  · have := h.holds
    rwa [hring] at this

theorem Invariant.countFilled {c : UInt8} {con : Console} {out : List UInt8} (h : s.Invariant q)
    (hintr : s.intr = .filled c)
    (hc : Console.finishIntr s.console (.filled c) = .ok (out, con)) :
    (s.afterFinish con).Invariant (q ++ [c]) ∧ (s.afterFinish con).kept = s.kept ++ [c] := by
  obtain ⟨hbuf, hlen, hi⟩ := h.filled c hintr
  rw [Console.finishIntr, Console.incr_of_lt hi] at hc
  cases hc
  have hring : s.ring = s.console.buf := ring_of_not_counted fun i d hi => by
    rw [hintr] at hi
    cases hi
  have hholds : ({ s.console with writeIndex := s.console.writeIndex + 1 } : Console).Holds
      (q ++ [c]) := by
    have hold := h.holds
    rw [hring] at hold
    have hpush := hold.push (c := c) (by omega) hi
    have hself : Function.update s.console.buf (s.console.writeIndex.toNat % inputBuf) c =
        s.console.buf := by
      rw [← hbuf, Function.update_eq_self]
    rwa [hself] at hpush
  have hsame : (s.afterFinish { s.console with writeIndex := s.console.writeIndex + 1 }).kept =
      s.kept ++ [c] ∧
      (s.afterFinish { s.console with
        writeIndex := s.console.writeIndex + 1 }).erased = s.erased := by
    unfold afterFinish
    rw [hintr]
    exact ⟨rfl, rfl⟩
  refine ⟨⟨?_, hholds, hsame.2 ▸ h.newline_kept, fun t i hl => ?_, nofun, nofun⟩, hsame.1⟩
  · rw [hsame.1, h.kept_eq, List.append_assoc]
    rfl
  · have hone := one_le_counted (s := s) hl
    rw [List.length_append, List.length_singleton]
    exact ⟨(h.reading t i hl).1, by omega⟩

theorem Invariant.finish {con : Console} {out : List UInt8} (h : s.Invariant q)
    (hclean : s.Clean k210 .finish)
    (hc : Console.finishIntr s.console s.intr = .ok (out, con)) :
    (∃ q', (s.afterFinish con).Invariant q') ∧ s.Edits (s.afterFinish con) := by
  cases hintr : s.intr with
  | idle =>
    rw [hintr] at hc
    cases hc
    have hsame : s.afterFinish s.console = s := by
      unfold afterFinish
      rw [hintr]
      simp only [← hintr]
    rw [hsame]
    exact ⟨⟨q, h⟩, .inl rfl⟩
  | erase =>
    rw [hintr] at hc
    cases hc
    exact h.erase hclean hintr
  | counted i c =>
    rw [hintr] at hc
    obtain ⟨hinv, hkept⟩ := h.writeCounted hintr hc
    exact ⟨⟨q, hinv⟩, .inl hkept⟩
  | filled c =>
    rw [hintr] at hc
    obtain ⟨hinv, hkept⟩ := h.countFilled hintr hc
    exact ⟨⟨q ++ [c], hinv⟩, .inr (.inl ⟨c, hkept⟩)⟩

end Intr

theorem Invariant.step (h : s.Invariant q) (hclean : s.Clean k210 e) (hstep : Step k210 e s s') :
    (∃ q', s'.Invariant q') ∧ s.Edits s' := by
  cases hstep with
  | call => exact ⟨⟨q, h.kept_eq, h.holds, h.newline_kept, h.reading, h.writing, h.filled⟩, .inl rfl⟩
  | lock ht hl =>
    refine ⟨⟨q, h.relock rfl rfl rfl rfl ?_ ?_⟩, .inl rfl⟩
    · simp [inHand, hl]
    · intro t i hu
      cases hu
  | read ht hl hrun => exact ⟨h.read hclean ht hl hrun, .inl rfl⟩
  | press hidle hc =>
    obtain ⟨hinv, hkept⟩ := h.press hclean hidle hc
    exact ⟨hinv, hkept.imp_right .inl⟩
  | finish hc => exact h.finish hclean hc
  | user => exact ⟨⟨q, h.kept_eq, h.holds, h.newline_kept, h.reading, h.writing, h.filled⟩, .inl rfl⟩

theorem Invariant.run (h : s.Invariant q) (hr : Relation.ReflTransGen (CleanStep k210) s s') :
    ∃ q', s'.Invariant q' := by
  induction hr with
  | refl => exact ⟨q, h⟩
  | tail _ hstep ih =>
    obtain ⟨q₁, h₁⟩ := ih
    obtain ⟨e, hclean, hstep⟩ := hstep
    exact (h₁.step hclean hstep).1

omit [DecidableEq ι] in
theorem Invariant.read_returns {t : ι} {rc : ReadCall} {ph : Console.ReadPhase} (h : s.Invariant q)
    (hclean : s.Takes rc (s.mem t) ph) (countFirst : Bool) :
    ∃ r, Console.read countFirst rc s.console (s.mem t) ph = .ok r := by
  cases ph with
  | test =>
    rw [Console.read]
    split
    · exact ⟨_, rfl⟩
    · split <;> exact ⟨_, rfl⟩
  | take =>
    obtain ⟨hne, -⟩ := hclean
    rw [h.unread_eq] at hne
    obtain ⟨c, q, rfl⟩ := List.exists_cons_of_ne_nil hne
    rw [Console.read]
    split
    · rw [Console.incr_of_lt h.holds.pop.2.1]
      exact ⟨_, rfl⟩
    · exact ⟨_, rfl⟩
  | counted i => exact ⟨_, rfl⟩
  | fetched c =>
    obtain ⟨hhead, -⟩ := hclean
    rw [h.unread_eq] at hhead
    obtain ⟨q, rfl⟩ := List.head?_eq_some_iff.mp hhead
    rw [Console.read, Console.incr_of_lt h.holds.pop.2.1]
    exact ⟨_, rfl⟩
  | hold c =>
    obtain ⟨mem, hmem⟩ := Option.ne_none_iff_exists'.mp hclean
    rw [Console.read, hmem]
    dsimp only
    split <;> exact ⟨_, rfl⟩

omit [DecidableEq ι] in
theorem Invariant.press_returns {c : UInt8} (h : s.Invariant q) (countFirst : Bool)
    (hclean : s.Clean k210 (.press c countFirst)) :
    ∃ r, Console.consoleIntr k210 countFirst c s.console = .ok r := by
  have hcast : s.console.writeIndex = (s.console.readIndex + q.length : ℕ) := by
    have := h.writeIndex_eq
    omega
  unfold Console.consoleIntr
  split
  · exact ⟨_, rfl⟩
  · rename_i hback
    split
    · exact ⟨_, rfl⟩
    · rename_i hdebug
      split
      · exact ⟨_, rfl⟩
      · rename_i hreturn
        obtain ⟨-, hi⟩ := hclean ⟨hback, hdebug, hreturn⟩
        dsimp only
        split
        · rw [Console.incr_of_lt hi]
          exact ⟨_, rfl⟩
        · rw [hcast, Console.cell_natCast]
          exact ⟨_, rfl⟩

omit [DecidableEq ι] in
theorem Invariant.finish_returns (h : s.Invariant q) :
    ∃ r, Console.finishIntr s.console s.intr = .ok r := by
  cases hintr : s.intr with
  | idle => exact ⟨_, rfl⟩
  | erase => exact ⟨_, rfl⟩
  | counted i c =>
    obtain ⟨hiw, hne⟩ := h.writing i c hintr
    have heq := h.writeIndex_eq
    have hpos : 0 < q.length := List.length_pos_iff.mpr hne
    have hinat : i = (s.console.readIndex + (q.length - 1) : ℕ) := by omega
    rw [Console.finishIntr, hinat, Console.cell_natCast]
    exact ⟨_, rfl⟩
  | filled c =>
    rw [Console.finishIntr, Console.incr_of_lt (h.filled c hintr).2.2]
    exact ⟨_, rfl⟩

/-- While no access runs into what the console leaves out, it is a line-edited queue, and every
access of its functions is made. -/
theorem lineQueue_of_clean (buf : ℕ → UInt8) (mem : ι → UserBytes)
    (hr : Relation.ReflTransGen (CleanStep k210) (start buf mem) s) :
    s.LineQueue ∧ (∀ e s', s.Clean k210 e → Step k210 e s s' → s.Edits s') ∧
      (∀ c b, s.Clean k210 (.press c b) → ∃ r, Console.consoleIntr k210 b c s.console = .ok r) ∧
      (∃ r, Console.finishIntr s.console s.intr = .ok r) ∧
      ∀ t rc ph b, s.call t = some rc → s.lock = some (t, ph) → s.Clean k210 (.read t b) →
        ∃ r, Console.read b rc s.console (s.mem t) ph = .ok r := by
  obtain ⟨q, hq⟩ := (invariant_start buf mem).run hr
  exact ⟨hq.lineQueue, fun e s' hclean hstep => (hq.step hclean hstep).2,
    fun c b hclean => hq.press_returns b hclean, hq.finish_returns,
    fun t rc ph b ht hl hclean => hq.read_returns (hclean rc ph ht hl) b⟩

omit [DecidableEq ι] in
theorem clean_read {t : ι} {rc : ReadCall} {ph : Console.ReadPhase} {b : Bool}
    (ht : s.call t = some rc) (hl : s.lock = some (t, ph)) (h : s.Takes rc (s.mem t) ph) :
    s.Clean k210 (.read t b) := by
  intro rc' ph' ht' hl'
  rw [ht] at ht'
  rw [hl] at hl'
  cases ht'
  cases hl'
  exact h

theorem Step.count {t : ι} {rc : ReadCall} (ht : s.call t = some rc)
    (hl : s.lock = some (t, .take)) (hi : (s.console.readIndex : ℤ) + 1 < 2 ^ 31) :
    Step k210 (.read t true) s (s.afterRead t ⟨some (.counted s.console.readIndex), some rc,
      { s.console with readIndex := s.console.readIndex + 1 }, s.mem t, []⟩) := by
  refine .read ht hl ?_
  rw [Console.read, if_pos rfl, Console.incr_of_lt hi]
  rfl

theorem Step.countLast {t : ι} {rc : ReadCall} {c : UInt8} {b : Bool} (ht : s.call t = some rc)
    (hl : s.lock = some (t, .fetched c)) (hi : (s.console.readIndex : ℤ) + 1 < 2 ^ 31) :
    Step k210 (.read t b) s (s.afterRead t ⟨some (.hold c), some rc,
      { s.console with readIndex := s.console.readIndex + 1 }, s.mem t, []⟩) := by
  refine .read ht hl ?_
  rw [Console.read, Console.incr_of_lt hi]
  rfl

theorem lineQueue_of_clean_line : ∃ s : ConsoleUse Unit,
    Relation.ReflTransGen (CleanStep false) (start (fun _ => 0) fun _ _ => some 0) s ∧
      s.delivered = [97, 10] ∧ s.LineQueue := by
  obtain ⟨s, hs, hd⟩ : ∃ s : ConsoleUse Unit,
      Relation.ReflTransGen (CleanStep false) (start (fun _ => 0) fun _ _ => some 0) s ∧
        s.delivered = [97, 10] := by
    refine ⟨_, .tail (.tail (.tail (.tail (.tail (.tail (.tail (.tail (.tail (.tail (.tail (.tail
      (.tail (.tail .refl
      ⟨.call () true 4096 80, trivial, .call rfl (by decide)⟩)
      ⟨.lock (), trivial, .lock rfl rfl⟩)
      ⟨.press 97 true, fun _ => by decide, .press rfl rfl⟩)
      -- the reader sees the character before its cell is written
      ⟨.read () true, clean_read rfl rfl trivial, .read rfl rfl rfl⟩)
      ⟨.finish, nofun, .finish rfl⟩)
      ⟨.read () true, clean_read rfl rfl ⟨by decide, nofun⟩, .count rfl rfl (by decide)⟩)
      ⟨.press 10 false, fun _ => by decide, .press rfl rfl⟩)
      ⟨.read () true, clean_read rfl rfl trivial, .read rfl rfl rfl⟩)
      ⟨.finish, nofun, .finish rfl⟩)
      ⟨.read () true, clean_read rfl rfl (Option.some_ne_none _), .read rfl rfl rfl⟩)
      ⟨.read () true, clean_read rfl rfl trivial, .read rfl rfl rfl⟩)
      ⟨.read () false, clean_read rfl rfl ⟨by decide, nofun⟩, .read rfl rfl rfl⟩)
      ⟨.read () true, clean_read rfl rfl ⟨by decide, nofun⟩, .countLast rfl rfl (by decide)⟩)
      ⟨.read () true, clean_read rfl rfl (Option.some_ne_none _), .read rfl rfl rfl⟩, rfl⟩
  exact ⟨s, hs, hd, (lineQueue_of_clean _ _ hs).1⟩

def typed (k210 : Bool) : List UInt8 → ConsoleUse ι → Kernel (ConsoleUse ι)
  | [], s => .ok s
  | c :: cs, s => do
    let (_, ph, con) ← Console.consoleIntr k210 true c s.console
    let (_, con') ← Console.finishIntr con ph
    typed k210 cs ((s.afterPress ph con).afterFinish con')

theorem run_of_typed {cs : List UInt8} (hidle : s.intr = .idle) (h : typed k210 cs s = .ok s') :
    Relation.ReflTransGen (fun s s' => ∃ e, Step k210 e s s') s s' := by
  induction cs generalizing s with
  | nil =>
    cases h
    exact .refl
  | cons c cs ih =>
    obtain ⟨⟨out, ph, con⟩, hc, hrest⟩ := Kernel.bind_ok.mp h
    obtain ⟨⟨out', con'⟩, hf, hrest⟩ := Kernel.bind_ok.mp hrest
    exact .head ⟨_, .press hidle hc⟩ (.head ⟨.finish, .finish hf⟩ (ih rfl hrest))

omit [DecidableEq ι] in
theorem typed_replicate {n i : ℕ} (hw : s.console.writeIndex = i) (h : i + n < 2 ^ 31) :
    ∃ s' : ConsoleUse ι, typed k210 (List.replicate n 97) s = .ok s' ∧
      s'.console.writeIndex = (i + n : ℕ) ∧ s'.console.readIndex = s.console.readIndex ∧
      (s.intr = .idle → s'.intr = .idle) := by
  induction n generalizing s i with
  | zero => exact ⟨s, rfl, hw, rfl, id⟩
  | succ n ih =>
    have hc : Console.consoleIntr k210 true 97 s.console = .ok ([97], .counted i 97,
        { s.console with writeIndex := i + 1 }) := by
      simp [Console.consoleIntr, hw, Console.incr_of_lt (i := i) (by omega), Console.putc]
    have hf : Console.finishIntr { s.console with writeIndex := i + 1 } (.counted i 97) =
        .ok ([], { s.console with
          buf := Function.update s.console.buf (i % inputBuf) 97
          writeIndex := i + 1 }) := by
      rw [Console.finishIntr, Console.cell_natCast]
      rfl
    rw [List.replicate_succ, typed, hc, Kernel.ok_bind]
    dsimp only
    rw [hf, Kernel.ok_bind]
    obtain ⟨s', hs', hw', hr', hidle⟩ := ih (i := i + 1)
      (s := (s.afterPress (.counted i 97) { s.console with writeIndex := i + 1 }).afterFinish
        { s.console with
          buf := Function.update s.console.buf (i % inputBuf) 97
          writeIndex := i + 1 }) rfl (by omega)
    exact ⟨s', hs', hw'.trans (by omega), hr', fun _ => hidle rfl⟩

/-- A DEL erases the end of the line before it, 129 characters overrun the ring, and a DEL on
another hart erases the character that `read` has seen, which `read` then delivers. -/
theorem newline_erased_and_ring_overrun :
    (∃ s : ConsoleUse Unit,
      Relation.ReflTransGen (fun s s' => ∃ e, Step false e s s')
        (start (fun _ => 0) fun _ _ => none) s ∧ s.erased = [10] ∧ ¬s.LineQueue) ∧
    (∃ s : ConsoleUse Unit,
      Relation.ReflTransGen (fun s s' => ∃ e, Step false e s s')
        (start (fun _ => 0) fun _ _ => none) s ∧ inputBuf < s.unread.length ∧ ¬s.LineQueue) ∧
    ∃ s : ConsoleUse Unit,
      Relation.ReflTransGen (fun s s' => ∃ e, Step false e s s')
        (start (fun _ => 0) fun _ _ => some 0) s ∧
        s.erased = [97] ∧ s.delivered = [97] ∧ ¬s.LineQueue := by
  refine ⟨?_, ?_, ?_⟩
  · obtain ⟨s, hs, he⟩ : ∃ s : ConsoleUse Unit,
        typed false [108, 115, 10, 0x7f] (start (fun _ => 0) fun _ _ => none) = .ok s ∧
          s.erased = [10] := ⟨_, rfl, rfl⟩
    exact ⟨s, run_of_typed rfl hs, he, fun h => h.newline_kept (by simp [he])⟩
  · obtain ⟨s, hs, hw, hr, hidle⟩ : ∃ s : ConsoleUse Unit,
        typed false (List.replicate 129 97) (start (fun _ => 0) fun _ _ => none) = .ok s ∧
          s.console.writeIndex = (0 + 129 : ℕ) ∧ s.console.readIndex = 0 ∧ (_ → s.intr = .idle) :=
      typed_replicate rfl (by decide)
    have hlen : inputBuf < s.unread.length := by
      rw [unread, Console.unread, Ring.length_window, hw, hr]
      decide
    exact ⟨s, run_of_typed rfl hs, hlen, fun h => absurd h.length_le (by omega)⟩
  · obtain ⟨s, hs, he, hd, hk⟩ : ∃ s : ConsoleUse Unit,
        Relation.ReflTransGen (fun s s' => ∃ e, Step false e s s')
          (start (fun _ => 0) fun _ _ => some 0) s ∧
          s.erased = [97] ∧ s.delivered = [97] ∧ s.kept = [] := by
      refine ⟨_, .tail (.tail (.tail (.tail (.tail (.tail (.tail (.tail (.tail (.tail .refl
        ⟨.press 97 true, .press rfl rfl⟩)
        ⟨.finish, .finish rfl⟩)
        ⟨.call () true 4096 80, .call rfl (by decide)⟩)
        ⟨.lock (), .lock rfl rfl⟩)
        ⟨.read () true, .read rfl rfl rfl⟩)
        ⟨.press 0x7f true, .press rfl rfl⟩)
        ⟨.finish, .finish rfl⟩)
        ⟨.read () true, .count rfl rfl (by decide)⟩)
        ⟨.read () true, .read rfl rfl rfl⟩)
        ⟨.read () true, .read rfl rfl rfl⟩, rfl, rfl, rfl⟩
    exact ⟨s, hs, he, hd, fun h => by simpa [hk, hd] using h.kept_eq⟩

end ConsoleUse

end StartOS
