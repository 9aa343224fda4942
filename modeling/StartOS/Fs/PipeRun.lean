import StartOS.Fs.Pipe

/-! # Readers and writers of one pipe

Any number of tasks call `Pipe::read` and `Pipe::write`. Between two turns the
lock is free and any other task may take its turn; a task that sleeps inside a
call goes on at any later moment, as a wakeup may come for any reason.
-/

namespace StartOS

variable {ι : Type}

/-- The call a task is in, waiting for the lock of the pipe. -/
inductive PipeCall
  | none
  | read (addr : ℕ) (n : ℤ)
  | write (addr : ℕ) (n : ℤ) (i : ℕ)

/-- A pipe, until it is deleted, and the tasks that use it. The bytes that were put into the
pipe and those that were stored in the buffers of readers are kept in order. -/
structure PipeUse (ι : Type) where
  pipe : Option Pipe
  call : ι → PipeCall
  mem : ι → UserBytes
  accepted : List UInt8
  delivered : List UInt8

namespace PipeUse

def start (data : ℕ → UInt8) (mem : ι → UserBytes) : PipeUse ι :=
  ⟨some (.create data), fun _ => .none, mem, [], []⟩

variable [DecidableEq ι]

/-- A turn of `read` of task `t` has ended with `out`, the pipe `p` and the memory `mem`. -/
def afterRead (s : PipeUse ι) (t : ι) (addr : ℕ) (out : Option ℤ) (p : Pipe) (mem : UserBytes) :
    PipeUse ι where
  pipe := some p
  call := if out.isSome then Function.update s.call t .none else s.call
  mem := Function.update s.mem t mem
  accepted := s.accepted
  delivered := s.delivered ++ mem.bytesAt addr (out.getD 0).toNat

/-- A turn of `write` of task `t` has gone from byte `i` to byte `i'` and ended with `out`. -/
def afterWrite (s : PipeUse ι) (t : ι) (addr : ℕ) (n : ℤ) (i i' : ℕ) (out : Option ℤ) (p : Pipe) :
    PipeUse ι where
  pipe := some p
  call := Function.update s.call t (if out.isSome then .none else .write addr n i')
  mem := s.mem
  accepted := s.accepted ++ (s.mem t).bytesAt (addr + i) (i' - i)
  delivered := s.delivered

/-- One turn of one task. The buffers are valid; a task may be killed at any time, and between
its turns its memory is its own. -/
inductive Step : PipeUse ι → PipeUse ι → Prop
  | callRead (s : PipeUse ι) (t : ι) (addr : ℕ) (n : ℤ) (hn : n < 2 ^ 31)
      (ht : s.call t = .none) :
      Step s { s with call := Function.update s.call t (.read addr n) }
  | callWrite (s : PipeUse ι) (t : ι) (addr : ℕ) (n : ℤ) (hn : n < 2 ^ 31)
      (ht : s.call t = .none) :
      Step s { s with call := Function.update s.call t (.write addr n 0) }
  | read (s : PipeUse ι) (t : ι) (killed : Bool) {p p' : Pipe} {addr : ℕ} {n : ℤ}
      {out : Option ℤ} {mem : UserBytes} (hp : s.pipe = some p) (ht : s.call t = .read addr n)
      (hv : (s.mem t).Valid addr n.toNat)
      (hr : p.read killed addr n (s.mem t) = (out, p', mem)) :
      Step s (s.afterRead t addr out p' mem)
  | write (s : PipeUse ι) (t : ι) (killed : Bool) {p p' : Pipe} {addr i i' : ℕ} {n : ℤ}
      {out : Option ℤ} (hp : s.pipe = some p) (ht : s.call t = .write addr n i)
      (hv : (s.mem t).Valid addr n.toNat)
      (hw : p.write killed addr n i (s.mem t) = (i', out, p')) :
      Step s (s.afterWrite t addr n i i' out p')
  | close (s : PipeUse ι) (writeEnd : Bool) {p : Pipe} (hp : s.pipe = some p) :
      Step s { s with pipe := p.close writeEnd }
  | user (s : PipeUse ι) (mem : ι → UserBytes) : Step s { s with mem := mem }

/-- What is in the pipe was accepted and is not delivered, and every reader asks for an `int`. -/
structure Fifo (s : PipeUse ι) (q : List UInt8) : Prop where
  accepted_eq : s.accepted = s.delivered ++ q
  holds : ∀ p, s.pipe = some p → p.Holds q
  read_lt : ∀ t addr n, s.call t = .read addr n → n < 2 ^ 31

omit [DecidableEq ι] in
theorem fifo_start (data : ℕ → UInt8) (mem : ι → UserBytes) : (start data mem).Fifo [] where
  accepted_eq := rfl
  holds p hp := by
    cases hp
    exact Pipe.holds_create data
  read_lt t addr n ht := by cases ht

theorem Fifo.call {s : PipeUse ι} {q : List UInt8} (h : s.Fifo q) {t : ι} {c : PipeCall}
    (hc : ∀ addr n, c = .read addr n → n < 2 ^ 31) :
    ∀ u addr n, Function.update s.call t c u = .read addr n → n < 2 ^ 31 := by
  intro u addr n hu
  by_cases hut : u = t
  · rw [hut, Function.update_self] at hu
    exact hc addr n hu
  · rw [Function.update_of_ne hut] at hu
    exact h.read_lt u addr n hu

end PipeUse

namespace Pipe

variable {p p' : Pipe} {q : List UInt8} {mem mem' : UserBytes} {addr i i' : ℕ} {n : ℤ}
  {killed : Bool} {out : Option ℤ}

/-- A turn of `read` delivers the bytes in front. It returns 0 only from an empty pipe that
nobody can write to, unless it was asked for nothing. -/
theorem Holds.read (h : p.Holds q) (hv : mem.Valid addr n.toNat) (hn : n < 2 ^ 31)
    (hr : p.read killed addr n mem = (out, p', mem')) :
    (∃ r, q = mem'.bytesAt addr (out.getD 0).toNat ++ r ∧ p'.Holds r) ∧
      (out = some 0 → n ≤ 0 ∨ q = [] ∧ p.writeopen = false) := by
  unfold Pipe.read at hr
  by_cases hwait : p.nread = p.nwrite ∧ p.writeopen
  · rw [if_pos hwait] at hr
    cases killed
    · cases hr
      exact ⟨⟨q, rfl, h⟩, fun h0 => by cases h0⟩
    · cases hr
      exact ⟨⟨q, rfl, h⟩, fun h0 => by cases h0⟩
  · rw [if_neg hwait] at hr
    obtain ⟨d, r, rfl, hd, hrest, p₁, mem₁, hrun, hp₁, hbytes, -⟩ :=
      h.readFrom 0 (by rwa [Nat.add_zero]) (by omega : n.toNat < 2 ^ 31)
    rw [hrun] at hr
    obtain ⟨rfl, rfl, rfl⟩ : out = some ((0 + d.length : ℕ) : ℤ) ∧ p' = p₁ ∧ mem' = mem₁ := by
      cases hr
      exact ⟨rfl, rfl, rfl⟩
    rw [Nat.add_zero] at hbytes
    refine ⟨⟨r, ?_, hp₁⟩, ?_⟩
    · rw [Option.getD_some, Int.toNat_natCast, Nat.zero_add, hbytes]
    · intro h0
      have hd0 : d = [] := by
        rw [Option.some.injEq, Nat.zero_add] at h0
        exact List.length_eq_zero_iff.mp (by exact_mod_cast h0)
      subst hd0
      by_cases hpos : 0 < n.toNat
      · obtain rfl := hrest hpos
        refine Or.inr ⟨rfl, ?_⟩
        exact eq_false_of_ne_true fun hw => hwait ⟨h.empty_iff.mpr rfl, hw⟩
      · exact Or.inl (by omega)

theorem Holds.write (h : p.Holds q) (hv : mem.Valid addr n.toNat)
    (hw : p.write killed addr n i mem = (i', out, p')) :
    p'.Holds (q ++ mem.bytesAt (addr + i) (i' - i)) := by
  have hrest : mem.Valid (addr + i) (n.toNat - i) := by
    intro j hj
    rw [Nat.add_assoc]
    exact hv (i + j) (by omega)
  obtain ⟨m, out', p₁, hrun, hp₁⟩ := h.writeFrom killed i hrest
  unfold Pipe.write at hw
  rw [hrun, Prod.mk.injEq, Prod.mk.injEq] at hw
  obtain ⟨rfl, -, rfl⟩ := hw
  rwa [Nat.add_sub_cancel_left]

end Pipe

namespace PipeUse

variable [DecidableEq ι]

theorem Step.fifo {s s' : PipeUse ι} {q : List UInt8} (h : Step s s') (hs : s.Fifo q) :
    ∃ q', s'.Fifo q' := by
  cases h with
  | callRead t addr n hn ht =>
    refine ⟨q, hs.accepted_eq, hs.holds, hs.call ?_⟩
    intro addr' n' hc
    cases hc
    exact hn
  | callWrite t addr n hn ht =>
    refine ⟨q, hs.accepted_eq, hs.holds, hs.call ?_⟩
    intro addr' n' hc
    cases hc
  | @read t killed p p' addr n out mem hp ht hv hr =>
    obtain ⟨⟨r, hq, hp'⟩, -⟩ := (hs.holds p hp).read hv (hs.read_lt t addr n ht) hr
    refine ⟨r, ?_, ?_, ?_⟩
    · change s.accepted = (s.delivered ++ mem.bytesAt addr (out.getD 0).toNat) ++ r
      rw [List.append_assoc, ← hq, hs.accepted_eq]
    · intro p₁ hp₁
      cases hp₁
      exact hp'
    · intro u addr' n' hu
      change (if out.isSome then Function.update s.call t .none else s.call) u = _ at hu
      split at hu
      · exact hs.call (fun _ _ hc => by cases hc) u addr' n' hu
      · exact hs.read_lt u addr' n' hu
  | @write t killed p p' addr i i' n out hp ht hv hw =>
    refine ⟨q ++ (s.mem t).bytesAt (addr + i) (i' - i), ?_, ?_, hs.call ?_⟩
    · change s.accepted ++ _ = s.delivered ++ _
      rw [hs.accepted_eq, List.append_assoc]
    · intro p₁ hp₁
      cases hp₁
      exact (hs.holds p hp).write hv hw
    · intro addr' n' hc
      split at hc
      · cases hc
      · cases hc
  | @close writeEnd p hp =>
    exact ⟨q, hs.accepted_eq, fun p' hp' => (hs.holds p hp).close hp', hs.read_lt⟩
  | user mem => exact ⟨q, hs.accepted_eq, hs.holds, hs.read_lt⟩

theorem fifo_of_reachable {s s' : PipeUse ι} {q : List UInt8} (hs : s.Fifo q)
    (h : Relation.ReflTransGen Step s s') : ∃ q', s'.Fifo q' := by
  induction h with
  | refl => exact ⟨q, hs⟩
  | tail _ hstep ih =>
    obtain ⟨q₁, h₁⟩ := ih
    exact hstep.fifo h₁

/-- However the turns follow each other, readers get a first part of the bytes that were accepted,
in order. The counters give the number of bytes in between, at most `PIPESIZE`, also when they
have wrapped, and a read returns 0 only at the end of the data. -/
theorem pipe_isFifo (data : ℕ → UInt8) (mem : ι → UserBytes) (s : PipeUse ι)
    (h : Relation.ReflTransGen Step (start data mem) s) :
    s.delivered <+: s.accepted ∧
      ∀ p, s.pipe = some p →
        s.accepted.length - s.delivered.length = (p.nwrite + 2 ^ 32 - p.nread) % 2 ^ 32 ∧
        s.accepted.length - s.delivered.length ≤ 512 ∧
        ∀ t killed addr n p' mem', s.call t = .read addr n → (s.mem t).Valid addr n.toNat →
          p.read killed addr n (s.mem t) = (some 0, p', mem') →
          n ≤ 0 ∨ s.delivered = s.accepted ∧ p.nread = p.nwrite ∧ p.writeopen = false := by
  obtain ⟨q, hq⟩ := fifo_of_reachable (fifo_start data mem) h
  refine ⟨⟨q, hq.accepted_eq.symm⟩, ?_⟩
  intro p hp
  have hholds := hq.holds p hp
  have hlen : s.accepted.length - s.delivered.length = q.length := by
    rw [hq.accepted_eq, List.length_append, Nat.add_sub_cancel_left]
  refine ⟨hlen.trans hholds.pending.symm, hlen.trans_le hholds.length_le, ?_⟩
  intro t killed addr n p' mem' ht hv hr
  obtain hn | ⟨rfl, hw⟩ := (hholds.read hv (hq.read_lt t addr n ht) hr).2 rfl
  · exact Or.inl hn
  · exact Or.inr ⟨by rw [hq.accepted_eq, List.append_nil], hholds.empty_iff.mpr rfl, hw⟩

theorem pipe_isFifo_one : ∃ s : PipeUse Bool,
    Relation.ReflTransGen Step (start (fun _ => 0) fun _ _ => some 65) s ∧
      s.accepted = [65] ∧ s.delivered = [65] ∧ s.delivered <+: s.accepted := by
  have hrun : ∃ s : PipeUse Bool,
      Relation.ReflTransGen Step (start (fun _ => 0) fun _ _ => some 65) s ∧
        s.accepted = [65] ∧ s.delivered = [65] := by
    refine ⟨_, .tail (.tail (.tail (.tail .refl
      (.callWrite _ true 0 1 (by decide) rfl)) (.write _ true false rfl rfl (fun _ _ => rfl) rfl))
      (.callRead _ false 0 1 (by decide) rfl)) (.read _ false false rfl rfl (fun _ _ => rfl) rfl),
      rfl, rfl⟩
  obtain ⟨s, hs, ha, hd⟩ := hrun
  exact ⟨s, hs, ha, hd, (pipe_isFifo _ _ s hs).1⟩

end PipeUse

end StartOS
