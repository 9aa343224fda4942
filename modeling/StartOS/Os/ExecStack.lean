import StartOS.Os.ExecTotal

/-! # What a program finds on its stack

Nothing is written to the new address space after the stack has been filled, so
the program finds what `exec` has put there: never what it expects.
-/

namespace StartOS

open MemAllocator Hoare

variable {s s' : System} {ip pagetable sz sz1 sp : ℕ} {path : List UInt8}
  {behind : ℕ → Option (List UInt8)} {junk : ℕ → ℕ} {r : ℤ} {argv : List (List UInt8)}
  {ram₁ ram₂ ram₃ : MemAllocator} {sys : System}

theorem MemAllocator.IsUserStack.congr {m m' : MemAllocator} {root base : ℕ} {elf : ElfHdr}
    (h : ∀ va, m'.userByte root va = m.userByte root va) :
    m'.IsUserStack root base sp argv elf ↔ m.IsUserStack root base sp argv elf := by
  simp only [IsUserStack, WordsAt, WordAt, StringAt, h]

/-- The stack pointer of a program that was started does not point to the stack it expects. -/
theorem Started.not_isUserStack
    (h : Started s ip path (fun i => argv[i]?) behind junk s' pagetable sz sz1 sp ram₁ ram₂ ram₃ sys)
    (hs : s.Caller) (hlen : argv.length ≤ maxArg) (base : ℕ) :
    s'.root s.current = pagetable ∧ ¬s'.ram.IsUserStack pagetable base
      (s'.ram.mem.readLE (s.frame s.current + 48) 8) argv (s.elfHdr ip) := by
  have hfresh := h.fresh hs.wf hs.trampoline hs.trapframe_lt
  obtain ⟨hwr, hnever⟩ := (fillStack_never h.fill hfresh.space hfresh.moves.wf rfl hlen :
    _ ∧ ¬MemAllocator.IsUserStack _ _ base _ _ _)
  obtain ⟨-, hlt⟩ := fillStack_writes h.fill hfresh.space hfresh.moves.wf
  obtain ⟨hready, -⟩ := ReadyToStart.of_moves hs.wf hs.alive hs.root hs.frame
    (hfresh.writes hwr).moves hwr.acts.space h.same
  obtain ⟨-, hroot, -, -, -, hbyte, hsp⟩ := hready.started h.start
  have hcur : sys.current = s.current := h.same.current
  have hframe : sys.frame s.current = s.frame s.current := h.same.frame s.current
  have hram : sys.ram = ram₃ := h.same.ram
  rw [hcur] at hroot hsp
  rw [hframe, Nat.mod_eq_of_lt hlt] at hsp
  rw [hram] at hbyte
  refine ⟨hroot, ?_⟩
  rw [hsp, IsUserStack.congr hbyte]
  exact hnever

/-- The stack of a program that `exec` has started is never the one it expects. -/
theorem exec_not_isUserStack (hs : s.Caller) (hlen : argv.length ≤ maxArg)
    (hrun : exec (some ip) path (fun i => argv[i]?) behind junk s = .ok (r, s'))
    (hstart : s'.root s.current ≠ s.root s.current) (base : ℕ) :
    ¬s'.ram.IsUserStack (s'.root s.current) base (s'.ram.mem.readLE (s.frame s.current + 48) 8) argv
      (s.elfHdr ip) := by
  rcases exec_cases hs.wf hs.trampoline hs.trapframe_lt hrun with
    hsame | ⟨ip', heq, pagetable, sz, sz1, sp, ram₁, ram₂, ram₃, sys, hst⟩
  · exact absurd (hsame.same.root s.current) hstart
  · obtain rfl := Option.some.inj heq
    obtain ⟨hroot, hnot⟩ := hst.not_isUserStack hs hlen base
    rw [hroot]
    exact hnot

theorem smallProgram_starts : ∃ s', exec (some 0) [47, 97] (fun i => ([] : List (List UInt8))[i]?)
    (fun _ => none) (fun _ => 0) (oneProcess smallProgram) = .ok (0, s') ∧
      s'.root (oneProcess smallProgram).current ≠
        (oneProcess smallProgram).root (oneProcess smallProgram).current := by
  have hprog : (oneProcess smallProgram).IsProgram 0 := by
    have hc := oneProcess_contents smallProgram 0
    have hhdr := smallProgram_elfHdr.1
    rw [isProgram_iff (k := 1) (by rw [hc]; exact smallProgram_length) (by rw [hhdr])
      (by rw [hc, hhdr]; exact smallProgram_stopsAt), hhdr]
  rcases exec_total (oneProcess_ready smallProgram) 0 [47, 97]
    (fun i => ([] : List (List UInt8))[i]?) (fun _ => none) (fun _ => 0) with
    ⟨-, s', hrun, hgood⟩ | ⟨hkeeps, -⟩
  · rcases hgood with ⟨hnot, -⟩ | ⟨-, hne, -⟩
    · exact absurd hprog hnot
    · exact ⟨s', hrun, hne⟩
  · exact absurd smallProgram_keepsBounds hkeeps

theorem exec_not_isUserStack_smallProgram : ∃ s', exec (some 0) [47, 97]
    (fun i => ([] : List (List UInt8))[i]?) (fun _ => none) (fun _ => 0)
      (oneProcess smallProgram) = .ok (0, s') ∧
    ¬s'.ram.IsUserStack (s'.root (oneProcess smallProgram).current) 4096
      (s'.ram.mem.readLE ((oneProcess smallProgram).frame (oneProcess smallProgram).current + 48) 8)
      [] ((oneProcess smallProgram).elfHdr 0) := by
  obtain ⟨s', hrun, hne⟩ := smallProgram_starts
  exact ⟨s', hrun, exec_not_isUserStack (oneProcess_ready smallProgram).toCaller (Nat.zero_le _) hrun
    hne 4096⟩

/-- A program without arguments: the first string of `env` is left out. -/
theorem smallProgram_stack : (oneProcess smallProgram).Caller ∧ ∃ s', exec (some 0) [47, 97]
    (fun i => ([] : List (List UInt8))[i]?) (fun _ => none) (fun _ => 0)
      (oneProcess smallProgram) = .ok (0, s') ∧
    s'.root (oneProcess smallProgram).current ≠
      (oneProcess smallProgram).root (oneProcess smallProgram).current ∧
    ¬s'.ram.IsUserStack (s'.root (oneProcess smallProgram).current) 4096
      (s'.ram.mem.readLE ((oneProcess smallProgram).frame (oneProcess smallProgram).current + 48) 8)
      [] ((oneProcess smallProgram).elfHdr 0) := by
  have hcaller := (oneProcess_ready smallProgram).toCaller
  obtain ⟨s', hrun, hne⟩ := smallProgram_starts
  refine ⟨hcaller, s', hrun, hne, ?_⟩
  rcases exec_cases hcaller.wf hcaller.trampoline hcaller.trapframe_lt hrun with
    hsame | ⟨ip, heq, pagetable, sz, sz1, sp, ram₁, ram₂, ram₃, sys, hst⟩
  · exact absurd (hsame.same.root _) hne
  · obtain rfl := Option.some.inj heq
    obtain ⟨hroot, hnot⟩ := hst.not_isUserStack hcaller (Nat.zero_le _) 4096
    rw [hroot]
    exact hnot

end StartOS
