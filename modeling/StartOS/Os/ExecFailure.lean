import StartOS.Os.Exec

/-! # Programs that cannot be started

`exec` leaves by six ways when it cannot start the program. All of them return
what a start returns, and the process goes on with its old page table.
-/

namespace StartOS

open Hoare

variable {s s' : System} {ip pagetable sz sp : ℕ} {elf : ElfHdr} {path : List UInt8}
  {argv behind : ℕ → Option (List UInt8)} {junk : ℕ → ℕ} {r : ℤ}

theorem execBad_returns (h : execBad ip pagetable sz s = .ok (r, s')) : r = 0 := by
  unfold execBad at h
  obtain ⟨⟨⟩, s₁, -, h₁⟩ := bind_eq_ok.mp h
  obtain ⟨⟨⟩, s₂, -, h₂⟩ := bind_eq_ok.mp h₁
  cases h₂
  rfl

theorem execStart_returns (h : execStart ip pagetable sz sp elf path s = .ok (r, s')) : r = 0 := by
  unfold execStart at h
  rw [get_bind, get_bind, modify_bind] at h
  obtain ⟨⟨⟩, s₁, -, h₁⟩ := bind_eq_ok.mp h
  obtain ⟨⟨⟩, s₂, -, h₂⟩ := bind_eq_ok.mp h₁
  obtain ⟨⟨⟩, s₃, -, h₃⟩ := bind_eq_ok.mp h₂
  cases h₃
  rfl

theorem execFile_returns (h : execFile ip pagetable path argv behind junk s = .ok (r, s')) :
    r = 0 := by
  unfold execFile at h
  rw [get_bind] at h
  split at h
  · exact execBad_returns h
  rw [get_bind] at h
  obtain ⟨⟨⟩, s₁, -, h₁⟩ := bind_eq_ok.mp h
  split at h₁
  · exact execBad_returns h₁
  obtain ⟨⟨fine, sz⟩, s₂, -, h₂⟩ := bind_eq_ok.mp h₁
  dsimp only at h₂
  split at h₂
  · exact execBad_returns h₂
  obtain ⟨sz1, s₃, -, h₃⟩ := bind_eq_ok.mp h₂
  split at h₃
  · exact execBad_returns h₃
  obtain ⟨sp, s₄, -, h₄⟩ := bind_eq_ok.mp h₃
  exact execStart_returns h₄

theorem exec_returns {found : Option ℕ} (h : exec found path argv behind junk s = .ok (r, s')) :
    r = 0 := by
  unfold exec at h
  rw [get_bind] at h
  obtain ⟨pagetable, s₁, -, h₁⟩ := bind_eq_ok.mp h
  split at h₁
  · cases h₁
    rfl
  cases found with
  | none =>
    cases h₁
    rfl
  | some ip =>
    obtain ⟨v, s₂, -, h₂⟩ := bind_eq_ok.mp h₁
    exact execFile_returns h₂

def endOf (content : List UInt8) (phoff i sz : ℕ) : ℕ :=
  match readProgHdr content phoff i with
  | some ph => if ph.IsLoad then (ph.vaddr + ph.memsz) % 2 ^ 64 else sz
  | none => sz

def programSize (content : List UInt8) (phoff n : ℕ) : ℕ :=
  (List.range' 0 n).foldl (fun sz i => endOf content phoff i sz) 0

def IsBadHeader (content : List UInt8) (phoff i : ℕ) : Prop :=
  ∀ ph, readProgHdr content phoff i = some ph → ph.IsLoad ∧ ph.IsBad

/-- The program cannot be started: the path is not found, the file is shorter than an ELF header,
has the wrong magic or a bad program header, or there is no memory for the page table or the
stack. -/
def CannotStart (s : System) (found : Option ℕ) : Prop :=
  match s.ram.taskPagetable s.trampoline s.myTask.trapframe, found with
  | .error _, _ => False
  | .ok (0, _), _ => True
  | .ok _, none => True
  | .ok (pagetable, ram), some ip =>
    let content := s.contents ip
    let elf := ElfHdr.ofBytes (inodeBytes content 0 elfHdrSize)
    let sz := pgRoundUp (programSize content elf.phoff elf.phnum)
    content.length < elfHdrSize ∨ elf.magic ≠ elfMagic ∨
      (∃ i < elf.phnum, IsBadHeader content elf.phoff i) ∨
      ∃ ram', ram.userAlloc pagetable sz ((sz + pgSize) % 2 ^ 64) = .ok (0, ram')

/-- The mappings, the page table, the size and the trapframe of the running process, the counts of
the inodes and the free frames are the same. -/
def ExecUnchanged (s s' : System) : Prop :=
  s'.myTask.task.vma = s.myTask.task.vma ∧ s'.vmaTable = s.vmaTable ∧
    s'.myTask.task.pagetable = s.myTask.task.pagetable ∧ s'.myTask.task.sz = s.myTask.task.sz ∧
    s'.myTask.trapframe = s.myTask.trapframe ∧
    (∀ j < 288, s'.ram.mem (s.myTask.trapframe + j) = s.ram.mem (s.myTask.trapframe + j)) ∧
    s'.iref = s.iref ∧ ∀ p, p ∈ s'.ram.freeList ↔ p ∈ s.ram.freeList

structure SameTables (s s' : System) : Prop where
  current : s'.current = s.current
  contents : s'.contents = s.contents
  pagetable : ∀ i, (s'.taskTable i).task.pagetable = (s.taskTable i).task.pagetable

namespace SameTables

theorem refl : SameTables s s := ⟨rfl, rfl, fun _ => rfl⟩

theorem trans {s'' : System} (h : SameTables s s') (h' : SameTables s' s'') : SameTables s s'' :=
  ⟨h'.current.trans h.current, h'.contents.trans h.contents,
    fun i => (h'.pagetable i).trans (h.pagetable i)⟩

theorem setProc {i : ℕ} {p : Proc} (hp : p.task.pagetable = (s.taskTable i).task.pagetable) :
    SameTables s (s.setProc i p) := by
  refine ⟨rfl, rfl, fun j => ?_⟩
  unfold System.setProc
  by_cases hj : j = i
  · subst hj
    simp only [Function.update_self, hp]
  · simp only [Function.update_of_ne hj]

theorem myTask (h : SameTables s s') :
    s'.myTask.task.pagetable = s.myTask.task.pagetable := by
  unfold System.myTask
  rw [h.current, h.pagetable]

end SameTables

def SameRam (s s' : System) : Prop := SameTables s s' ∧ s'.ram = s.ram

theorem SameRam.trans {s'' : System} (h : SameRam s s') (h' : SameRam s' s'') : SameRam s s'' :=
  ⟨h.1.trans h'.1, h'.2.trans h.2⟩

theorem inodeFree_sameRam (s₀ : System) (ip : ℕ) : Keeps (SameRam s₀) (inodeFree ip) := by
  refine Keeps.bind .get fun s => ?_
  dsimp only
  split
  · exact .bind (.throw _) fun _ => .modify fun s h => h.trans ⟨⟨rfl, rfl, fun _ => rfl⟩, rfl⟩
  · exact .modify fun s h => h.trans ⟨⟨rfl, rfl, fun _ => rfl⟩, rfl⟩

theorem vmaFree_sameRam (s₀ : System) (p : ℕ) : Keeps (SameRam s₀) (vmaFree p) := by
  refine Keeps.bind .get fun s => ?_
  have hlast : Keeps (SameRam s₀) (modify fun s => { s with
      vmaTable := Function.update s.vmaTable p .zero } : OsM Unit) :=
    .modify fun s h => h.trans ⟨⟨rfl, rfl, fun _ => rfl⟩, rfl⟩
  cases (s.vmaTable p).ip with
  | none => exact hlast
  | some ip => exact .bind (inodeFree_sameRam s₀ ip) fun _ => hlast

theorem freeProgVmas_sameRam (s₀ : System) (me : ℕ) (is : List ℕ) :
    Keeps (SameRam s₀) (freeProgVmas me is) := by
  induction is with
  | nil => exact .pure ()
  | cons i is ih =>
    refine Keeps.bind .get fun s => ?_
    cases (s.taskTable me).task.vma i with
    | none => exact ih
    | some p =>
      dsimp only
      split
      · refine .bind (vmaFree_sameRam s₀ p) fun _ => .bind (.modify fun s h => ?_) fun _ => ih
        exact h.trans ⟨.setProc rfl, rfl⟩
      · exact ih

/-- A mapping for a segment is noted; the memory is not touched. -/
theorem lazyLoadSeg_sameRam (s₀ : System) (ip : ℕ) (ph : ProgHdr) :
    Keeps (SameRam s₀) (lazyLoadSeg ip ph) := by
  intro s r s' hs h
  unfold lazyLoadSeg at h
  obtain ⟨p, s₁, halloc, h₁⟩ := bind_eq_ok.mp h
  obtain ⟨rfl, -⟩ := onMachine_allocVma halloc
  obtain ⟨v, s₂, hdup, h₂⟩ := bind_eq_ok.mp h₁
  cases hdup
  rw [modify_bind, get_bind] at h₂
  generalize hslot : Machine.freeSlot _ = v at h₂
  cases v with
  | none => cases h₂
  | some i =>
    cases h₂
    apply hs.trans
    refine ⟨⟨rfl, rfl, fun j => ?_⟩, rfl⟩
    by_cases hj : j = s₁.current
    · subst hj
      simp only [System.setMachine, System.setProc, Function.update_self]
      rfl
    · simp only [System.setMachine, System.setProc, Function.update_of_ne hj]

/-- The loop over the program headers: what it returns, and that the memory is not touched. -/
theorem loadSegments_ok {ip phoff : ℕ} {content : List UInt8} {fine : Bool} :
    ∀ (n i sz : ℕ) {sz' : ℕ} {s : System},
      loadSegments ip content phoff n i sz s = .ok ((fine, sz'), s') →
      SameRam s s' ∧ (fine = true → sz' =
        (List.range' i n).foldl (fun sz i => endOf content phoff i sz) sz ∧
        ∀ j, i ≤ j → j < i + n → ¬IsBadHeader content phoff j) := by
  intro n
  induction n with
  | zero =>
    intro i sz sz' s h
    cases h
    exact ⟨⟨.refl, rfl⟩, fun _ => ⟨rfl, fun j hj hj' => absurd hj' (by omega)⟩⟩
  | succ n ih =>
    intro i sz sz' s h
    unfold loadSegments at h
    cases hph : readProgHdr content phoff i with
    | none =>
      rw [hph] at h
      cases h
      exact ⟨⟨.refl, rfl⟩, fun hf => by cases hf⟩
    | some ph =>
      rw [hph] at h
      dsimp only at h
      have hgood : ¬(ph.IsLoad ∧ ph.IsBad) → (∀ j, i + 1 ≤ j → j < i + 1 + n →
          ¬IsBadHeader content phoff j) → ∀ j, i ≤ j → j < i + (n + 1) →
          ¬IsBadHeader content phoff j := by
        intro hi hrest j hj hj' hbad
        by_cases hji : j = i
        · subst hji
          exact hi (hbad ph hph)
        · exact hrest j (by omega) (by omega) hbad
      split at h
      · rename_i hload
        obtain ⟨hsame, hres⟩ := ih (i + 1) sz h
        refine ⟨hsame, fun hf => ?_⟩
        obtain ⟨hsz, hrest⟩ := hres hf
        refine ⟨?_, hgood (fun hc => hload hc.1) hrest⟩
        rw [hsz, List.range'_succ, List.foldl_cons, endOf, hph]
        simp only [if_neg hload]
      · rename_i hload
        split at h
        · cases h
          exact ⟨⟨.refl, rfl⟩, fun hf => by cases hf⟩
        · rename_i hbad
          obtain ⟨⟨⟩, s₁, hlazy, h₁⟩ := bind_eq_ok.mp h
          obtain ⟨hsame, hres⟩ := ih (i + 1) _ h₁
          refine ⟨(lazyLoadSeg_sameRam s ip ph ⟨.refl, rfl⟩ hlazy).trans hsame, fun hf => ?_⟩
          obtain ⟨hsz, hrest⟩ := hres hf
          refine ⟨?_, hgood (fun hc => hbad hc.2) hrest⟩
          rw [hsz, List.range'_succ, List.foldl_cons, endOf, hph]
          simp only [if_pos (not_not.mp hload)]

theorem onRam_sameTables {α : Type} {call : MemAllocator → Kernel (α × MemAllocator)} {a : α}
    (h : onRam call s = .ok (a, s')) : SameTables s s' ∧ call s.ram = .ok (a, s'.ram) := by
  unfold onRam at h
  rw [get_bind] at h
  cases hc : call s.ram with
  | error e =>
    rw [hc] at h
    cases h
  | ok r =>
    rw [hc] at h
    cases h
    exact ⟨⟨rfl, rfl, fun _ => rfl⟩, rfl⟩

theorem execBad_sameTables (h : execBad ip pagetable sz s = .ok (r, s')) : SameTables s s' := by
  unfold execBad at h
  obtain ⟨⟨⟩, s₁, hfree, h₁⟩ := bind_eq_ok.mp h
  obtain ⟨⟨⟩, s₂, hram, h₂⟩ := bind_eq_ok.mp h₁
  cases h₂
  exact (inodeFree_sameRam s ip ⟨.refl, rfl⟩ hfree).1.trans (onRam_sameTables hram).1

/-- A program that cannot be started leaves the process with the page table of the old one. -/
theorem exec_sameTables {found : Option ℕ} (hfail : CannotStart s found)
    (h : exec found path argv behind junk s = .ok (r, s')) : SameTables s s' := by
  unfold exec at h
  rw [get_bind] at h
  obtain ⟨pagetable, s₁, hpage, h₁⟩ := bind_eq_ok.mp h
  obtain ⟨hsame, hcall⟩ := onRam_sameTables hpage
  unfold CannotStart at hfail
  rw [hcall] at hfail
  split at h₁
  · cases h₁
    exact hsame
  rename_i hne
  cases found with
  | none =>
    cases h₁
    exact hsame
  | some ip =>
    obtain ⟨v, s₂, hdup, h₂⟩ := bind_eq_ok.mp h₁
    have hs₂ : SameRam s₁ s₂ := by
      cases hdup
      exact ⟨⟨rfl, rfl, fun _ => rfl⟩, rfl⟩
    apply (hsame.trans hs₂.1).trans
    unfold execFile at h₂
    rw [get_bind] at h₂
    split at h₂
    · exact execBad_sameTables h₂
    rename_i hlen
    rw [get_bind] at h₂
    obtain ⟨⟨⟩, s₃, hprog, h₃⟩ := bind_eq_ok.mp h₂
    have hs₃ : SameRam s₂ s₃ := freeProgVmas_sameRam s₂ _ _ ⟨.refl, rfl⟩ hprog
    split at h₃
    · exact hs₃.1.trans (execBad_sameTables h₃)
    rename_i hmagic
    obtain ⟨⟨fine, sz⟩, s₄, hload, h₄⟩ := bind_eq_ok.mp h₃
    obtain ⟨hs₄, hfine⟩ := loadSegments_ok _ _ _ hload
    dsimp only at h₄
    split at h₄
    · exact (hs₃.trans hs₄).1.trans (execBad_sameTables h₄)
    rename_i hf
    obtain ⟨sz1, s₅, halloc, h₅⟩ := bind_eq_ok.mp h₄
    obtain ⟨hs₅, hcall₅⟩ := onRam_sameTables halloc
    split at h₅
    · exact (hs₃.trans hs₄).1.trans (hs₅.trans (execBad_sameTables h₅))
    rename_i hsz
    have hcontents : s₂.contents = s.contents := hs₂.1.contents.trans hsame.contents
    have hram : s₄.ram = s₁.ram := hs₄.2.trans (hs₃.2.trans hs₂.2)
    obtain ⟨rfl, hgood⟩ := hfine (by simpa using hf)
    rw [hcontents] at hlen hmagic hgood hcall₅
    rw [hram] at hcall₅
    obtain ⟨n, rfl⟩ : ∃ n, pagetable = n + 1 := ⟨pagetable - 1, by omega⟩
    rcases hfail with hshort | hwrong | ⟨i, hi, hbad⟩ | ⟨ram', hnone⟩
    · rw [inodeBytes, List.drop_zero, List.length_take] at hlen
      omega
    · exact absurd hwrong hmagic
    · exact absurd hbad (hgood i (Nat.zero_le i) (by omega))
    · have hres := hcall₅.symm.trans hnone
      cases hres
      exact absurd rfl hsz

/-- A failed `exec` goes on with the old program and does not report it. -/
theorem exec_failure_not_reported {found : Option ℕ} (hfail : CannotStart s found)
    (h : exec found path argv behind junk s = .ok (r, s')) :
    s'.myTask.task.pagetable = s.myTask.task.pagetable ∧ ¬(r < 0 ∧ ExecUnchanged s s') := by
  refine ⟨(exec_sameTables hfail h).myTask, ?_⟩
  rintro ⟨hr, -⟩
  rw [exec_returns h] at hr
  cases hr

/-- A kernel with three free frames, enough for the page table of `exec`. -/
def threeFrames : System := bootSystem [0x80300000, 0x80301000, 0x80302000]

theorem threeFrames_exec : ∃ s', exec none [47, 120] (fun _ => none) (fun _ => none) (fun _ => 0)
    threeFrames = .ok (0, s') ∧ s'.ram.freeList = [] := by
  have hrun : (match exec none [47, 120] (fun _ => none) (fun _ => none) (fun _ => 0) threeFrames with
      | .ok (r, s') => decide (r = 0 ∧ s'.ram.freeList = [])
      | .error _ => false) = true := by decide +kernel
  split at hrun
  · rename_i r s' he
    obtain ⟨rfl, hfree⟩ := of_decide_eq_true hrun
    exact ⟨s', he, hfree⟩
  · cases hrun

theorem threeFrames_cannotStart : CannotStart threeFrames none := by
  have hrun : (match threeFrames.ram.taskPagetable threeFrames.trampoline
      threeFrames.myTask.trapframe with
      | .ok _ => true
      | .error _ => false) = true := by decide +kernel
  unfold CannotStart
  generalize threeFrames.ram.taskPagetable _ _ = page at hrun ⊢
  match page, hrun with
  | .ok (0, _), _ => trivial
  | .ok (_ + 1, _), _ => trivial

theorem exec_failure_at_missing_path : CannotStart threeFrames none ∧ ∃ s',
    exec none [47, 120] (fun _ => none) (fun _ => none) (fun _ => 0) threeFrames = .ok (0, s') ∧
      s'.myTask.task.pagetable = threeFrames.myTask.task.pagetable := by
  obtain ⟨s', he, -⟩ := threeFrames_exec
  exact ⟨threeFrames_cannotStart, s', he, (exec_failure_not_reported threeFrames_cannotStart he).1⟩

/-- The call returns 0 and three frames are gone. -/
theorem exec_missing_path_leaks : CannotStart threeFrames none ∧ ∃ s',
    exec none [47, 120] (fun _ => none) (fun _ => none) (fun _ => 0) threeFrames = .ok (0, s') ∧
      ¬(0 : ℤ) < 0 ∧ ¬ExecUnchanged threeFrames s' := by
  obtain ⟨s', he, hfree⟩ := threeFrames_exec
  refine ⟨threeFrames_cannotStart, s', he, by decide, ?_⟩
  rintro ⟨-, -, -, -, -, -, -, hframes⟩
  have hmem : 0x80300000 ∈ s'.ram.freeList := (hframes _).mpr List.mem_cons_self
  rw [hfree] at hmem
  cases hmem

end StartOS
