import StartOS.Os.Segments
import StartOS.Os.UserStack

/-! # Programs that make the kernel panic

The program headers of a file are not checked against the address space or
against the room for mappings. `exec` ends for exactly the files that keep to
these bounds.
-/

namespace StartOS

open MemAllocator Hoare

variable {s s' : System} {ip pagetable sz root base phoff n : ℕ} {content path : List UInt8}
  {argv behind : ℕ → Option (List UInt8)} {junk : ℕ → ℕ} {r : ℤ} {elf : ElfHdr}

namespace MemAllocator

variable {m m' : MemAllocator} {a z : ℕ} {doFree : Bool}

theorem unmapFrom_lt (h : unmapFrom root doFree (n + 1) m a = .ok m') :
    a + n * pgSize < maxVa := by
  induction n generalizing m a with
  | zero =>
    by_contra hge
    rw [unmapFrom, walk, if_pos (by omega)] at h
    cases h
  | succ n ih =>
    rw [unmapFrom] at h
    obtain ⟨⟨pte, m₁⟩, -, h⟩ := Kernel.bind_ok.mp h
    dsimp only at h
    have hrest : ∀ m₂, unmapFrom root doFree (n + 1) m₂ (a + pgSize) = .ok m' →
        a + (n + 1) * pgSize < maxVa := by
      intro m₂ h₂
      have := ih h₂
      rw [add_mul, one_mul]
      omega
    split at h
    · exact hrest _ h
    split at h
    · cases h
    split at h
    · obtain ⟨m₂, -, h⟩ := Kernel.bind_ok.mp h
      exact hrest _ h
    · obtain ⟨m₂, -, h⟩ := Kernel.bind_ok.mp h
      exact hrest _ h

/-- `FreeTaskPagetable` returns for exactly the sizes that cover the user pages and not more than
the address space. -/
theorem Space.freeTaskPagetable_total (h : Space m root) (hw : m.WellFormed) (sz : ℕ) :
    ((∀ va < maxVa, m.userFrame root va ≠ none → va < pgRoundUp sz) ∧ pgRoundUp sz ≤ maxVa ∧
        ∃ m', m.freeTaskPagetable root sz = .ok m' ∧ Moves m m' (m.footprint root) ∅) ∨
      (((∃ va < maxVa, m.userFrame root va ≠ none ∧ pgRoundUp sz ≤ va) ∨ maxVa < pgRoundUp sz) ∧
        ∃ e, m.freeTaskPagetable root sz = .error e) := by
  rcases h.freeTaskPagetable hw sz with ⟨hall, m', he, hm, -⟩ | ⟨hany, he⟩ | ⟨hlt, he⟩
  · refine .inl ⟨hall, ?_, m', he, hm⟩
    have hpg : pgSize = 4096 := rfl
    have hmax : maxVa = 274877906944 := rfl
    unfold MemAllocator.freeTaskPagetable MemAllocator.freeUserPageTable at he
    obtain ⟨m₁, -, he⟩ := Kernel.bind_ok.mp he
    obtain ⟨m₂, -, he⟩ := Kernel.bind_ok.mp he
    split at he
    · rename_i hpos
      obtain ⟨m₃, hun, -⟩ := Kernel.bind_ok.mp he
      unfold MemAllocator.userUnmap at hun
      rw [if_neg (by decide)] at hun
      obtain ⟨k, hk⟩ : ∃ k, k = ((0 + pgRoundUp sz / pgSize * pgSize) % 2 ^ 64 - 0) / pgSize :=
        ⟨_, rfl⟩
      rw [← hk] at hun
      rw [hpg] at hk
      cases k with
      | zero =>
        unfold pgRoundUp at hk ⊢
        omega
      | succ k =>
        have hlt := unmapFrom_lt hun
        rw [hpg] at hlt
        unfold pgRoundUp at hk ⊢
        omega
    · unfold pgRoundUp
      omega
  · exact .inr ⟨.inl hany, _, he⟩
  · exact .inr ⟨.inr hlt, _, he⟩

/-- A page for the stack, with three frames to take it and its nodes from. -/
theorem Space.userAlloc_page (h : Space m root) (hw : m.WellFormed) (hz : z % pgSize = 0)
    (hle : z + pgSize ≤ userTop) (hv : ¬isValid (m.leaf root z)) (hroom : 3 ≤ m.freeList.length) :
    ∃ m', m.userAlloc root z (z + pgSize) = .ok (z + pgSize, m') ∧
      MapsZero m m' root z (z + pgSize) := by
  have hvals : userTop = 274877898752 ∧ maxVa = 274877906944 ∧ pgSize = 4096 := by decide
  have hround : pgRoundUp z = z ∧ pgRoundUp (z + pgSize) = z + pgSize := by
    rw [hvals.2.2] at hz hle ⊢
    unfold pgRoundUp
    omega
  have hspec := h.userAlloc hw hle (Nat.le_add_right z pgSize)
  rw [hround.1, hround.2] at hspec
  rcases hspec with ⟨m', he, hfresh⟩ | ⟨m', he, -⟩ | ⟨⟨va, hva, hlo, hhi, hvalid⟩, -⟩
  · exact ⟨m', he, hfresh.toMapsZero⟩
  · exfalso
    have hone : (z + pgSize - z + 4095) / pgSize = 1 := by
      rw [hvals.2.2]
      omega
    rw [MemAllocator.userAlloc, if_neg (by omega)] at he
    simp only [hround.1, hone] at he
    rcases alloc_cases hw with ⟨hnil, -⟩ | ⟨p, m₁, halloc, hp, ht⟩
    · rw [hnil] at hroom
      cases hroom
    rw [userAllocFrom_of_alloc halloc hp] at he
    rcases h.mapUser hw ht.clearPage (show z < userTop by omega) hz userPerm_all with
      ⟨hc, -⟩ | ⟨-, m₂, ⟨hm, -, -⟩ | ⟨-, hlen, -⟩⟩
    · exact hv hc
    · rw [hm] at he
      simp only [Kernel.ok_bind, ne_eq, not_true_eq_false, if_false] at he
      have := (Prod.mk.inj (Except.ok.inj he)).1
      omega
    · have := missing_le m root z
      omega
  · exfalso
    have hsame : va / pgSize = z / pgSize := by
      rw [hvals.2.2] at hz hhi ⊢
      omega
    rw [leaf_page m root (by omega) hva hsame] at hvalid
    exact hv hvalid

end MemAllocator

/-- No address of a segment is above `MAXVA` or in the page at `z`. -/
def SegmentsApart (content : List UInt8) (phoff phnum z : ℕ) : Prop :=
  ∀ i < phnum, ∀ ph, readProgHdr content phoff i = some ph → ph.IsLoad →
    ∀ va, ph.vaddr ≤ va → va < ph.vaddr + ph.memsz → va < maxVa ∧ ¬(z ≤ va ∧ va < z + pgSize)

def System.elfHdr (s : System) (ip : ℕ) : ElfHdr := .ofBytes (inodeBytes (s.contents ip) 0 elfHdrSize)

/-- Process `i` runs the program of the file `ip`: one page is loaded, for the stack; it is below
`MAXVA`, as are the segments, and no segment overlaps it. -/
def System.RunsProgram (s : System) (i ip : ℕ) : Prop :=
  ∃ z, z + pgSize ≤ maxVa ∧ s.ram.OnlyPage (s.root i) z ∧
    SegmentsApart (s.contents ip) (s.elfHdr ip).phoff (s.elfHdr ip).phnum z

/-- `exec` returns: it has rejected the file or started the program. -/
def ExecEnds (s : System) (ip : ℕ) (path : List UInt8) (argv behind : ℕ → Option (List UInt8))
    (junk : ℕ → ℕ) : Prop :=
  ∃ r s', exec (some ip) path argv behind junk s = .ok (r, s') ∧
    (s'.root s.current = s.root s.current ∨ s'.RunsProgram s.current ip)

def System.SizeCovers (s : System) (i : ℕ) : Prop :=
  (∀ va < maxVa, s.ram.userFrame (s.root i) va ≠ none →
      va < pgRoundUp (toU64 (s.taskTable i).task.sz)) ∧
    pgRoundUp (toU64 (s.taskTable i).task.sz) ≤ maxVa

def System.StackRoom (s : System) (ip : ℕ) (argv behind : ℕ → Option (List UInt8)) (z : ℕ) : Prop :=
  z + pgSize ≤ userTop ∧
    SegmentsApart (s.contents ip) (s.elfHdr ip).phoff (s.elfHdr ip).phnum z ∧
    (∃ n ≤ maxArg + 1, stackWords argv behind z = some n) ∧ s.SizeCovers s.current

/-- The bounds that `exec` does not check. With a header that is not one of an ELF file nothing is
asked. There is room for the segments up to the first bad program header; if there is one, the
last segment before it ends in the address space, and if there is none, the stack has its place. -/
def System.KeepsBounds (s : System) (ip : ℕ) (argv behind : ℕ → Option (List UInt8)) : Prop :=
  elfHdrSize ≤ (s.contents ip).length → (s.elfHdr ip).magic = elfMagic →
    ∀ k, StopsAt (s.contents ip) (s.elfHdr ip).phoff 0 (s.elfHdr ip).phnum k →
      loadCount (s.contents ip) (s.elfHdr ip).phoff 0 k ≤ s.vmaRoom ∧
      loadCount (s.contents ip) (s.elfHdr ip).phoff 0 k ≤ s.slotRoom ∧
      if k < (s.elfHdr ip).phnum then
        pgRoundUp (programSize (s.contents ip) (s.elfHdr ip).phoff k) ≤ maxVa
      else s.StackRoom ip argv behind (pgRoundUp (programSize (s.contents ip) (s.elfHdr ip).phoff k))

/-- The running process has an address space and a trapframe. -/
structure System.Caller (s : System) : Prop where
  wf : s.ram.WellFormed
  trampoline : s.trampoline < 2 ^ 64
  alive : s.Alive s.current
  root : s.root s.current ≠ 0
  frame : s.frame s.current ≠ 0

theorem System.Caller.trapframe_lt (hs : s.Caller) : s.myTask.trapframe < 2 ^ 64 :=
  (hs.alive.isPage hs.frame).lt_top.trans (by norm_num [physTop])

/-- A process that calls `exec`, with frames for the new page table and the stack. Its mappings hold
references to their files. -/
structure System.ExecReady (s : System) : Prop extends s.Caller where
  frames : 6 ≤ s.ram.freeList.length
  refs : ∀ x, (s.refsIn (List.range nommapfile) x : ℤ) ≤ s.iref x

theorem FreesProg.unusedVmas (h : FreesProg s s' (List.range nommapfile)) :
    s'.unusedVmas.card = s.vmaRoom := by
  classical
  unfold System.unusedVmas System.vmaRoom
  congr 1
  apply Finset.filter_congr
  intro p _
  rw [h.pool]
  simp only [List.mem_range]

theorem FreesProg.emptySlots (h : FreesProg s s' (List.range nommapfile)) :
    s'.emptySlots.card = s.slotRoom := by
  classical
  unfold System.emptySlots System.slotRoom
  congr 1
  apply Finset.filter_congr
  intro i hi
  rw [h.slots]
  simp only [List.mem_range, Finset.mem_range.mp hi, true_and]

theorem onRam_free_ok {ram m : MemAllocator} (hr : s.ram = ram)
    (h : ram.freeTaskPagetable root sz = .ok m) :
    onRam (fun ram => do return ((), ← ram.freeTaskPagetable root sz)) s =
      .ok ((), { s with ram := m }) := by
  apply onRam_of_ok
  rw [hr, h]
  rfl

theorem onRam_free_error {ram : MemAllocator} {e : Halt} (hr : s.ram = ram)
    (h : ram.freeTaskPagetable root sz = .error e) :
    onRam (fun ram => do return ((), ← ram.freeTaskPagetable root sz)) s = .error e := by
  apply onRam_of_error
  rw [hr, h]
  rfl

theorem execBad_total {m : MemAllocator} (hnew : NewTable m s.ram pagetable) (href : 1 ≤ s.iref ip)
    (sz : ℕ) :
    (pgRoundUp sz ≤ maxVa ∧ ∃ s', execBad ip pagetable sz s = .ok (0, s') ∧ SameTables s s') ∨
      (maxVa < pgRoundUp sz ∧ ∃ e, execBad ip pagetable sz s = .error e) := by
  unfold execBad
  rw [bind_of_ok (inodeFree_of_pos href)]
  rcases hnew.space.freeTaskPagetable_total hnew.moves.wf sz with
    ⟨-, hle, m', he, -⟩ | ⟨hwhy, e, he⟩
  · refine .inl ⟨hle, _, bind_eq_ok.mpr ⟨(), _, onRam_free_ok rfl he, rfl⟩, ?_⟩
    exact ⟨rfl, rfl, fun _ => rfl⟩
  · refine .inr ⟨?_, e, bind_of_error (onRam_free_error rfl he)⟩
    rcases hwhy with ⟨va, hva, hne, -⟩ | hlt
    · exact absurd (hnew.user va hva) hne
    · exact hlt

/-- The end of `exec` with a start: the old address space is given back, or `exec` panics. -/
theorem execStart_total (h : ReadyToStart s pagetable) (href : 1 ≤ s.iref ip) (sz sp : ℕ)
    (elf : ElfHdr) (path : List UInt8) :
    (s.SizeCovers s.current ∧ ∃ s', execStart ip pagetable sz sp elf path s = .ok (0, s')) ∨
      (¬s.SizeCovers s.current ∧ ∃ e, execStart ip pagetable sz sp elf path s = .error e) := by
  obtain ⟨hset, hleaf, -, -⟩ := h.setFrame sp elf.entry
  have hframe : ∀ va, MemAllocator.userFrame { s.ram with
      mem := execFrame s.ram.mem (s.frame s.current) sp elf.entry } (s.root s.current) va =
      s.ram.userFrame (s.root s.current) va := fun va => userFrame_congr (hleaf va)
  have htotal := hset.old.freeTaskPagetable_total hset.wf (toU64 s.myTask.task.sz)
  change (∀ va < maxVa, MemAllocator.userFrame _ (s.root s.current) va ≠ none → _) ∧ _ ∨
    ((∃ va < maxVa, MemAllocator.userFrame _ (s.root s.current) va ≠ none ∧ _) ∨ _) ∧ _ at htotal
  simp only [hframe] at htotal
  unfold execStart
  rw [get_bind, get_bind, modify_bind, modifyProc, modify_bind]
  rcases htotal with ⟨hall, hle, m', he, -⟩ | ⟨hwhy, e, he⟩
  · refine .inl ⟨⟨hall, hle⟩, bind_returns (onRam_free_ok rfl he) ?_⟩
    exact bind_returns (inodeFree_of_pos href) ⟨_, rfl⟩
  · refine .inr ⟨?_, e, bind_of_error (onRam_free_error rfl he)⟩
    rintro ⟨hall, hle⟩
    rcases hwhy with ⟨va, hva, hne, hge⟩ | hlt
    · have := hall va hva hne
      unfold System.myTask at hge
      omega
    · unfold System.myTask at hlt
      omega

/-- `exec` from the allocation of the stack on, for a program of `sz` bytes. -/
def execStack (ip pagetable : ℕ) (path : List UInt8) (argv behind : ℕ → Option (List UInt8))
    (junk : ℕ → ℕ) (elf : ElfHdr) (sz : ℕ) : OsM ℤ := do
  let sz1 ← onRam fun ram => ram.userAlloc pagetable sz ((sz + pgSize) % 2 ^ 64)
  if sz1 = 0 then execBad ip pagetable sz
  else do
    let sp := (sz1 + 2 ^ 64 - 8) % 2 ^ 64
    let stackbase := (sz1 + 2 ^ 64 - pgSize) % 2 ^ 64
    let sp ← onRam (fillStack elf argv behind ⟨sp, stackbase, pagetable, junk, 0⟩)
    execStart ip pagetable sz1 sp elf path

section Stack

variable {ram₁ : MemAllocator} {t : System} {z : ℕ}

theorem MemAllocator.NewTable.userAlloc (hnew : NewTable s.ram ram₁ pagetable) (hz : z % pgSize = 0)
    (hle : z + pgSize ≤ userTop) (hroom : 3 ≤ ram₁.freeList.length) :
    ∃ ram₂, ram₁.userAlloc pagetable z (z + pgSize) = .ok (z + pgSize, ram₂) ∧
      Acts ram₁ ram₂ pagetable ∧ ram₂.OnlyPage pagetable z := by
  have hvals : userTop = 274877898752 ∧ maxVa = 274877906944 ∧ pgSize = 4096 := by decide
  have hv : ¬isValid (ram₁.leaf pagetable z) := by
    intro hv
    have := hnew.space.kernel z (by omega) hv (hnew.user z (by omega))
    omega
  obtain ⟨ram₂, he, hmaps⟩ := hnew.space.userAlloc_page hnew.moves.wf hz hle hv hroom
  refine ⟨ram₂, he, hmaps.acts, fun va => ⟨fun hl => ?_, fun hin hun => ?_⟩⟩
  · by_contra hout
    apply hl
    intro hva
    rw [userFrame_congr (hmaps.outside va hva (by omega))]
    exact hnew.user va hva
  · have hva : va < maxVa := by omega
    obtain ⟨p, hp, -⟩ := hmaps.frame va hva hin.1 hin.2
    rw [hun hva] at hp
    cases hp

theorem ReadyToStart.root_ne (h : ReadyToStart s pagetable) : pagetable ≠ s.root s.current := by
  intro heq
  have hmem : pagetable ∈ s.ram.footprint pagetable := Or.inl ⟨[], Nat.zero_le 2, rfl⟩
  exact h.apart pagetable hmem (heq ▸ hmem)

/-- The stack has been filled: the program starts with the table that was built, or `exec`
panics. -/
theorem startProgram (hs : s.ExecReady) {ram₂ ram₃ : MemAllocator} {b : BinProgram} {sp : ℕ}
    (hspace : Space ram₂ pagetable) (hm : Moves s.ram ram₂ ∅ (ram₂.footprint pagetable))
    (ht : SameSpaces { s with ram := ram₂ } t) (href : 1 ≤ t.iref ip) (hb : b.pagetable = pagetable)
    (hfill : fillStack elf argv behind b ram₂ = .ok (sp, ram₃)) (sz1 : ℕ) (path : List UInt8) :
    (s.SizeCovers s.current ∧ ∃ s', (do
        let sp ← onRam (fillStack elf argv behind b)
        execStart ip pagetable sz1 sp elf path : OsM ℤ) t = .ok (0, s') ∧
        s'.root s.current = pagetable ∧ s'.contents = s.contents ∧ pagetable ≠ s.root s.current ∧
        ∀ va, s'.ram.leaf pagetable va = ram₂.leaf pagetable va) ∨
      (¬s.SizeCovers s.current ∧ ∃ e, (do
        let sp ← onRam (fillStack elf argv behind b)
        execStart ip pagetable sz1 sp elf path : OsM ℤ) t = .error e) := by
  have hspace' : Space ram₂ b.pagetable := hb ▸ hspace
  obtain ⟨hwr, -⟩ := fillStack_writes hfill hspace' hm.wf
  rw [hb] at hwr
  have hram : t.ram = ram₂ := ht.ram
  rw [← hram] at hfill
  rw [bind_of_ok (onRam_of_ok hfill)]
  obtain ⟨sys, hsys, href', hsame⟩ : ∃ sys, sys = { t with ram := ram₃ } ∧ 1 ≤ sys.iref ip ∧
      SameSpaces { s with ram := ram₃ } sys := ⟨_, rfl, href, ht.setRam ram₃⟩
  rw [← hsys]
  obtain ⟨hready, hold⟩ := ReadyToStart.of_moves hs.wf hs.alive hs.root hs.frame
    (hm.trans hwr.acts.moves) hwr.acts.space hsame
  have hcur : sys.current = s.current := hsame.current
  have hroot : sys.root s.current = s.root s.current := hsame.root s.current
  have hcovers : sys.SizeCovers sys.current ↔ s.SizeCovers s.current := by
    have hsz : (sys.taskTable s.current).task.sz = (s.taskTable s.current).task.sz :=
      hsame.sz s.current
    have hframe : ∀ va, sys.ram.userFrame (s.root s.current) va =
        s.ram.userFrame (s.root s.current) va := fun va => userFrame_congr (hold va)
    unfold System.SizeCovers
    rw [hcur, hroot, hsz]
    simp only [hframe]
  rcases execStart_total hready href' sz1 sp elf path with ⟨hc, s', hrun⟩ | ⟨hc, herr⟩
  · obtain ⟨-, hroot', -, hcontents, hleaf, -⟩ := hready.started hrun
    have hne := hready.root_ne
    rw [hcur] at hroot' hne
    rw [hroot] at hne
    refine .inl ⟨hcovers.mp hc, s', hrun, hroot', hcontents.trans hsame.contents, hne, fun va => ?_⟩
    rw [hleaf va, hsame.ram]
    exact hwr.leaf va
  · exact .inr ⟨fun h => hc (hcovers.mpr h), herr⟩

/-- There is no page for the stack: the program starts without one, or `exec` panics. -/
theorem execStack_above (hs : s.ExecReady) (hnew : NewTable s.ram ram₁ pagetable)
    (ht : SameSpaces { s with ram := ram₁ } t) (href : 1 ≤ t.iref ip) (hz : z % pgSize = 0)
    (htop : z + pgSize ≤ 2 ^ 64) (hge : userTop < z + pgSize)
    (hrun : execStack ip pagetable path argv behind junk elf z t = .ok (r, s')) :
    s'.root s.current ≠ s.root s.current ∧ ¬s'.RunsProgram s.current ip := by
  have hvals : userTop = 274877898752 ∧ pgSize = 4096 := by decide
  have hram : t.ram = ram₁ := ht.ram
  have hcost := hnew.cost
  have hframes := hs.frames
  unfold execStack at hrun
  by_cases hwrap : z + pgSize < 2 ^ 64
  · exfalso
    have hlow : userTop ≤ z := by
      rw [hvals.2] at hz hge
      omega
    rcases hnew.space.userAlloc_top hnew.moves.wf hnew.top hz hlow hwrap with ⟨hnil, -⟩ | ⟨msg, he⟩
    · rw [hnil, List.length_nil] at hcost
      omega
    · rw [← hram] at he
      have halloc : onRam (fun ram => ram.userAlloc pagetable z ((z + pgSize) % 2 ^ 64)) t =
          .error (.panic msg) := onRam_of_error he
      rw [bind_of_error halloc] at hrun
      cases hrun
  · -- the size wraps to 0 and `userAlloc` has nothing to do
    have he : ram₁.userAlloc pagetable z ((z + pgSize) % 2 ^ 64) = .ok (z, ram₁) := by
      rw [show z + pgSize = 2 ^ 64 by omega, Nat.mod_self, MemAllocator.userAlloc, if_pos (by omega)]
      rfl
    rw [← hram] at he
    have halloc : onRam (fun ram => ram.userAlloc pagetable z ((z + pgSize) % 2 ^ 64)) t =
        .ok (z, t) := onRam_of_ok he
    rw [bind_of_ok halloc, if_neg (by omega)] at hrun
    obtain ⟨b, hb⟩ : ∃ b : BinProgram, b = ⟨(z + 2 ^ 64 - 8) % 2 ^ 64,
      (z + 2 ^ 64 - pgSize) % 2 ^ 64, pagetable, junk, 0⟩ := ⟨_, rfl⟩
    rw [← hb] at hrun
    cases hfill : fillStack elf argv behind b ram₁ with
    | error e =>
      rw [← hram] at hfill
      rw [bind_of_error (onRam_of_error hfill)] at hrun
      cases hrun
    | ok res =>
      have hbp : b.pagetable = pagetable := by rw [hb]
      rcases startProgram hs hnew.space hnew.moves ht href hbp hfill z path with
        ⟨-, s'', hok, hroot, -, hne, hleaf⟩ | ⟨-, e, herr⟩
      · have heq := hrun.symm.trans hok
        obtain ⟨-, rfl⟩ := Prod.mk.inj (Except.ok.inj heq)
        refine ⟨hroot ▸ hne, ?_⟩
        rintro ⟨y, -, honly, -⟩
        rw [hroot, OnlyPage.congr hleaf] at honly
        exact (honly y).mpr ⟨le_rfl, by omega⟩ fun hy => hnew.user y hy
      · cases hrun.symm.trans herr

/-- `exec` from the allocation of the stack on: the program starts, or a bound does not hold and
`exec` panics or starts what it should not. -/
theorem execStack_total (hs : s.ExecReady) (hnew : NewTable s.ram ram₁ pagetable)
    (ht : SameSpaces { s with ram := ram₁ } t) (href : 1 ≤ t.iref ip) (hz : z % pgSize = 0)
    (htop : z + pgSize ≤ 2 ^ 64) (path : List UInt8) (argv behind : ℕ → Option (List UInt8))
    (junk : ℕ → ℕ) (elf : ElfHdr) :
    (s.StackRoom ip argv behind z ∧
        ∃ s', execStack ip pagetable path argv behind junk elf z t = .ok (0, s') ∧
          s'.root s.current ≠ s.root s.current ∧ s'.RunsProgram s.current ip) ∨
      (¬s.StackRoom ip argv behind z ∧
        ∀ r s', execStack ip pagetable path argv behind junk elf z t = .ok (r, s') →
          s'.root s.current ≠ s.root s.current ∧ ¬s'.RunsProgram s.current ip) := by
  have hvals : userTop = 274877898752 ∧ maxVa = 274877906944 ∧ pgSize = 4096 := by decide
  by_cases hle : z + pgSize ≤ userTop
  · have hcost := hnew.cost
    have hframes := hs.frames
    have hram : t.ram = ram₁ := ht.ram
    obtain ⟨ram₂, he, hacts, honly⟩ := hnew.userAlloc hz hle (by omega)
    have hmod : (z + pgSize) % 2 ^ 64 = z + pgSize := Nat.mod_eq_of_lt (by omega)
    rw [← hmod, ← hram] at he
    have halloc : onRam (fun ram => ram.userAlloc pagetable z ((z + pgSize) % 2 ^ 64)) t =
        .ok ((z + pgSize) % 2 ^ 64, { t with ram := ram₂ }) := onRam_of_ok he
    have hsp : (z + pgSize + 2 ^ 64 - 8) % 2 ^ 64 = z + pgSize - 8 := by omega
    have hbase : (z + pgSize + 2 ^ 64 - pgSize) % 2 ^ 64 = z := by omega
    unfold execStack
    rw [bind_of_ok halloc, hmod, if_neg (by omega), hsp, hbase]
    have hm := hnew.moves.trans hacts.moves
    have ht₂ : SameSpaces { s with ram := ram₂ } { t with ram := ram₂ } := ht.setRam ram₂
    rcases fillStack_total elf argv behind junk honly hacts.space
      hm.wf with ⟨hfits, sp, ram₃, hfill, -⟩ | ⟨hover, e, hfill⟩
    · rcases startProgram hs hacts.space hm ht₂ href rfl hfill (z + pgSize) path with
        ⟨hcovers, s', hok, hroot, hcontents, hne, hleaf⟩ | ⟨hcovers, e, herr⟩
      · have hpage : s'.ram.OnlyPage (s'.root s.current) z := by
          rw [hroot, OnlyPage.congr hleaf]
          exact honly
        have hruns : s'.RunsProgram s.current ip ↔ SegmentsApart (s.contents ip)
            (s.elfHdr ip).phoff (s.elfHdr ip).phnum z := by
          unfold System.RunsProgram System.elfHdr
          rw [hcontents]
          constructor
          · rintro ⟨y, -, hy, hsegs⟩
            rw [hpage.unique hy]
            exact hsegs
          · exact fun hsegs => ⟨z, by omega, hpage, hsegs⟩
        rw [← hroot] at hne
        by_cases hsegs : SegmentsApart (s.contents ip) (s.elfHdr ip).phoff (s.elfHdr ip).phnum z
        · exact .inl ⟨⟨hle, hsegs, hfits, hcovers⟩, s', hok, hne, hruns.mpr hsegs⟩
        · refine .inr ⟨fun h => hsegs h.2.1, fun r s'' hrun => ?_⟩
          have heq := hrun.symm.trans hok
          obtain ⟨-, rfl⟩ := Prod.mk.inj (Except.ok.inj heq)
          exact ⟨hne, fun h => hsegs (hruns.mp h)⟩
      · refine .inr ⟨fun h => hcovers h.2.2.2, fun r s'' hrun => ?_⟩
        cases hrun.symm.trans herr
    · refine .inr ⟨?_, fun r s'' hrun => ?_⟩
      · rintro ⟨-, -, ⟨n, hn, hwords⟩, -⟩
        have := hover n hwords
        omega
      · have hfill' : onRam (fillStack elf argv behind ⟨z + pgSize - 8, z, pagetable, junk, 0⟩)
            { t with ram := ram₂ } = .error e := onRam_of_error hfill
        rw [bind_of_error hfill'] at hrun
        cases hrun
  · refine .inr ⟨fun h => hle h.1, fun r s' hrun => ?_⟩
    exact execStack_above hs hnew ht href hz htop (by omega) hrun

end Stack

/-- The file is one that `exec` accepts. -/
def System.IsProgram (s : System) (ip : ℕ) : Prop :=
  elfHdrSize ≤ (s.contents ip).length ∧ (s.elfHdr ip).magic = elfMagic ∧
    ∀ i < (s.elfHdr ip).phnum, ¬IsBadHeader (s.contents ip) (s.elfHdr ip).phoff i

/-- What `exec` ends with when it ends as it should. -/
def System.ExecGood (s : System) (ip : ℕ) (s' : System) : Prop :=
  (¬s.IsProgram ip ∧ s'.root s.current = s.root s.current) ∨
    (s.IsProgram ip ∧ s'.root s.current ≠ s.root s.current ∧ s'.RunsProgram s.current ip)

section File

variable {k : ℕ}

theorem keepsBounds_iff (hlen : elfHdrSize ≤ (s.contents ip).length)
    (hmagic : (s.elfHdr ip).magic = elfMagic)
    (hk : StopsAt (s.contents ip) (s.elfHdr ip).phoff 0 (s.elfHdr ip).phnum k) :
    s.KeepsBounds ip argv behind ↔
      loadCount (s.contents ip) (s.elfHdr ip).phoff 0 k ≤ s.vmaRoom ∧
      loadCount (s.contents ip) (s.elfHdr ip).phoff 0 k ≤ s.slotRoom ∧
      if k < (s.elfHdr ip).phnum then
        pgRoundUp (programSize (s.contents ip) (s.elfHdr ip).phoff k) ≤ maxVa
      else s.StackRoom ip argv behind
        (pgRoundUp (programSize (s.contents ip) (s.elfHdr ip).phoff k)) := by
  constructor
  · exact fun h => h hlen hmagic k hk
  · intro h _ _ k' hk'
    rw [hk'.unique hk]
    exact h

theorem isProgram_iff (hlen : elfHdrSize ≤ (s.contents ip).length)
    (hmagic : (s.elfHdr ip).magic = elfMagic)
    (hk : StopsAt (s.contents ip) (s.elfHdr ip).phoff 0 (s.elfHdr ip).phnum k) :
    s.IsProgram ip ↔ k = (s.elfHdr ip).phnum := by
  constructor
  · rintro ⟨-, -, hgood⟩
    by_contra hne
    have hlt : k < (s.elfHdr ip).phnum := lt_of_le_of_ne hk.le hne
    have hbad := hk.bad hlt
    rw [Nat.zero_add] at hbad
    exact hgood k hlt hbad
  · intro h
    refine ⟨hlen, hmagic, fun i hi => ?_⟩
    have hgood := hk.good i (h ▸ hi)
    rw [Nat.zero_add] at hgood
    exact hgood

theorem execBad_keeps (hnew : NewTable s.ram ram₁ pagetable)
    (ht : SameSpaces { s with ram := ram₁ } t) (href : 1 ≤ t.iref ip) (sz : ℕ) :
    (pgRoundUp sz ≤ maxVa ∧ ∃ s', execBad ip pagetable sz t = .ok (0, s') ∧
        s'.root s.current = s.root s.current) ∨
      (maxVa < pgRoundUp sz ∧ ∃ e, execBad ip pagetable sz t = .error e) := by
  have hram : t.ram = ram₁ := ht.ram
  rcases execBad_total (hram ▸ hnew) href sz with ⟨hle, s', hrun, htables⟩ | herr
  · refine .inl ⟨hle, s', hrun, ?_⟩
    exact (htables.pagetable s.current).trans (ht.root s.current)
  · exact .inr herr

theorem execSegments_total (hs : s.ExecReady) (hnew : NewTable s.ram ram₁ pagetable)
    (ht : SameSpaces { s with ram := ram₁ } t) (href : 1 ≤ t.iref ip)
    (hk : StopsAt (s.contents ip) (s.elfHdr ip).phoff 0 (s.elfHdr ip).phnum k)
    (path : List UInt8) (argv behind : ℕ → Option (List UInt8)) (junk : ℕ → ℕ) :
    ((loadCount (s.contents ip) (s.elfHdr ip).phoff 0 k ≤ t.unusedVmas.card ∧
        loadCount (s.contents ip) (s.elfHdr ip).phoff 0 k ≤ t.emptySlots.card ∧
        if k < (s.elfHdr ip).phnum then
          pgRoundUp (programSize (s.contents ip) (s.elfHdr ip).phoff k) ≤ maxVa
        else s.StackRoom ip argv behind
          (pgRoundUp (programSize (s.contents ip) (s.elfHdr ip).phoff k))) ∧
      ∃ s', ((loadSegments ip (s.contents ip) (s.elfHdr ip).phoff (s.elfHdr ip).phnum 0 0
          >>= fun res => if !res.1 then execBad ip pagetable res.2 else execStack ip pagetable
            path argv
            behind junk (s.elfHdr ip) (pgRoundUp res.2)) : OsM ℤ) t = .ok (0, s') ∧
        ((¬k = (s.elfHdr ip).phnum ∧ s'.root s.current = s.root s.current) ∨
          (k = (s.elfHdr ip).phnum ∧ s'.root s.current ≠ s.root s.current ∧
            s'.RunsProgram s.current ip))) ∨
    (¬(loadCount (s.contents ip) (s.elfHdr ip).phoff 0 k ≤ t.unusedVmas.card ∧
        loadCount (s.contents ip) (s.elfHdr ip).phoff 0 k ≤ t.emptySlots.card ∧
        if k < (s.elfHdr ip).phnum then
          pgRoundUp (programSize (s.contents ip) (s.elfHdr ip).phoff k) ≤ maxVa
        else s.StackRoom ip argv behind
          (pgRoundUp (programSize (s.contents ip) (s.elfHdr ip).phoff k))) ∧
      ∀ r s', ((loadSegments ip (s.contents ip) (s.elfHdr ip).phoff (s.elfHdr ip).phnum 0 0
          >>= fun res => if !res.1 then execBad ip pagetable res.2 else execStack ip pagetable
            path argv
            behind junk (s.elfHdr ip) (pgRoundUp res.2)) : OsM ℤ) t = .ok (r, s') →
        s'.root s.current ≠ s.root s.current ∧ ¬s'.RunsProgram s.current ip) := by
  rcases loadSegments_spec (s := t) hk with ⟨h₁, h₂, t', hload, hsame, href'⟩ | ⟨hover, msg, herr⟩
  swap
  · refine .inr ⟨fun h => ?_, fun r s' hrun => ?_⟩
    · omega
    · rw [bind_of_error herr] at hrun
      cases hrun
  rw [bind_of_ok hload]
  have hsize : (List.range' 0 k).foldl
      (fun sz i => endOf (s.contents ip) (s.elfHdr ip).phoff i sz) 0 =
      programSize (s.contents ip) (s.elfHdr ip).phoff k := rfl
  rw [hsize]
  have ht' := ht.trans hsame
  have hone : 1 ≤ t'.iref ip := href.trans href'
  by_cases hlt : k < (s.elfHdr ip).phnum
  · have hne : k ≠ (s.elfHdr ip).phnum := by omega
    rw [if_pos hlt]
    simp only [hne, decide_false, Bool.not_false, if_true]
    rcases execBad_keeps hnew ht' hone (programSize (s.contents ip) (s.elfHdr ip).phoff k) with
      ⟨hle, s', hrun, hroot⟩ | ⟨hgt, e, herr⟩
    · exact .inl ⟨⟨h₁, h₂, hle⟩, s', hrun, .inl ⟨not_false, hroot⟩⟩
    · refine .inr ⟨fun h => ?_, fun r s' hrun => ?_⟩
      · have := h.2.2
        omega
      · cases hrun.symm.trans herr
  · have heq : k = (s.elfHdr ip).phnum := by
      have := hk.le
      omega
    rw [if_neg hlt]
    simp only [heq, decide_true, Bool.not_true, Bool.false_eq_true, if_false]
    have hpg : pgSize = 4096 := rfl
    obtain ⟨z, hz⟩ : ∃ z, z = pgRoundUp (programSize (s.contents ip) (s.elfHdr ip).phoff
      (s.elfHdr ip).phnum) := ⟨_, rfl⟩
    have hal : z % pgSize = 0 ∧ z + pgSize ≤ 2 ^ 64 := by
      rw [hz, hpg]
      unfold pgRoundUp
      omega
    rw [← hz]
    rw [heq] at h₁ h₂
    rcases execStack_total hs hnew ht' hone hal.1 hal.2 path argv behind junk
      (s.elfHdr ip) with ⟨hstack, s', hrun, hne, hruns⟩ | ⟨hstack, hbad⟩
    · exact .inl ⟨⟨h₁, h₂, hstack⟩, s', hrun, .inr ⟨trivial, hne, hruns⟩⟩
    · exact .inr ⟨fun h => hstack h.2.2, hbad⟩

end File

theorem execFile_total (hs : s.ExecReady) {ram₁ : MemAllocator} {iref : ℕ → ℤ}
    (hnew : NewTable s.ram ram₁ pagetable)
    (hiref : ∀ x, (s.refsIn (List.range nommapfile) x : ℤ) ≤ iref x)
    (href : (s.refsIn (List.range nommapfile) ip : ℤ) < iref ip) :
    (s.KeepsBounds ip argv behind ∧ ∃ s', execFile ip pagetable path argv behind junk { s with
        ram := ram₁
        iref := iref } = .ok (0, s') ∧ s.ExecGood ip s') ∨
      (¬s.KeepsBounds ip argv behind ∧ ∀ r s', execFile ip pagetable path argv behind junk { s with
        ram := ram₁
        iref := iref } = .ok (r, s') →
          s'.root s.current ≠ s.root s.current ∧ ¬s'.RunsProgram s.current ip) := by
  obtain ⟨t, ht, hsame, hrefs, htref, hroom⟩ : ∃ t : System, t = { s with
      ram := ram₁
      iref := iref } ∧ SameSpaces { s with ram := ram₁ } t ∧
      (∀ x, (t.refsIn (List.range nommapfile) x : ℤ) ≤ t.iref x) ∧
      (t.refsIn (List.range nommapfile) ip : ℤ) < t.iref ip ∧
      t.vmaRoom = s.vmaRoom ∧ t.slotRoom = s.slotRoom :=
    ⟨_, rfl, ⟨rfl, rfl, rfl, fun _ => rfl, fun _ => rfl, fun _ => rfl⟩, hiref, href, rfl, rfl⟩
  rw [← ht]
  have hcontents : t.contents = s.contents := hsame.contents
  have hzero : pgRoundUp 0 ≤ maxVa := by decide
  have hlen : (inodeBytes (s.contents ip) 0 elfHdrSize).length = elfHdrSize ↔
      elfHdrSize ≤ (s.contents ip).length := by
    rw [inodeBytes, List.drop_zero, List.length_take]
    omega
  unfold execFile
  rw [get_bind, hcontents]
  dsimp only
  by_cases hshort : elfHdrSize ≤ (s.contents ip).length
  swap
  · rw [if_pos fun h => hshort (hlen.mp h)]
    rcases execBad_keeps hnew hsame (show 1 ≤ t.iref ip by omega) 0 with
      ⟨-, s', hrun, hroot⟩ | ⟨hlt, -⟩
    · exact .inl ⟨fun h => absurd h hshort, s', hrun, .inl ⟨fun h => hshort h.1, hroot⟩⟩
    · omega
  rw [if_neg (not_not.mpr (hlen.mpr hshort)), get_bind]
  obtain ⟨t₁, hfree, hfrees⟩ := freeProgVmas_spec (List.range nommapfile) hrefs
  have hsame₁ := hsame.trans hfrees.same
  have href₁ : 1 ≤ t₁.iref ip := by
    have := hfrees.refs ip
    omega
  rw [bind_of_ok hfree]
  change (_ ∧ ∃ s', (if (s.elfHdr ip).magic ≠ elfMagic then _ else _ : OsM ℤ) _ = _ ∧ _) ∨
    (_ ∧ ∀ r s', (if (s.elfHdr ip).magic ≠ elfMagic then _ else _ : OsM ℤ) _ = _ → _)
  by_cases hmagic : (s.elfHdr ip).magic = elfMagic
  swap
  · rw [if_pos hmagic]
    rcases execBad_keeps hnew hsame₁ href₁ 0 with ⟨-, s', hrun, hroot⟩ | ⟨hlt, -⟩
    · exact .inl ⟨fun _ h => absurd h hmagic, s', hrun, .inl ⟨fun h => hmagic h.2.1, hroot⟩⟩
    · omega
  rw [if_neg (not_not.mpr hmagic)]
  obtain ⟨k, hk⟩ := StopsAt.exists (s.contents ip) (s.elfHdr ip).phoff 0 (s.elfHdr ip).phnum
  unfold System.ExecGood
  rw [keepsBounds_iff hshort hmagic hk, isProgram_iff hshort hmagic hk, ← hroom.1, ← hroom.2,
    ← hfrees.unusedVmas, ← hfrees.emptySlots]
  exact execSegments_total hs hnew hsame₁ href₁ hk path argv behind junk

theorem exec_total (hs : s.ExecReady) (ip : ℕ) (path : List UInt8)
    (argv behind : ℕ → Option (List UInt8)) (junk : ℕ → ℕ) :
    (s.KeepsBounds ip argv behind ∧
        ∃ s', exec (some ip) path argv behind junk s = .ok (0, s') ∧ s.ExecGood ip s') ∨
      (¬s.KeepsBounds ip argv behind ∧
        ∀ r s', exec (some ip) path argv behind junk s = .ok (r, s') →
          s'.root s.current ≠ s.root s.current ∧ ¬s'.RunsProgram s.current ip) := by
  rcases taskPagetable_spec hs.wf hs.trampoline hs.trapframe_lt with
    ⟨hfew, -⟩ | ⟨root, ram₁, he, hne, hnew⟩
  · have := hs.frames
    omega
  have hpage : onRam (fun ram => ram.taskPagetable s.trampoline s.myTask.trapframe) s =
      .ok (root, { s with ram := ram₁ }) := onRam_of_ok he
  unfold exec
  rw [get_bind, bind_of_ok hpage, if_neg hne]
  have hself : (s.refsIn (List.range nommapfile) ip : ℤ) <
      Function.update s.iref ip (s.iref ip + 1) ip := by
    have := hs.refs ip
    rw [Function.update_self]
    omega
  have hall : ∀ x, (s.refsIn (List.range nommapfile) x : ℤ) ≤
      Function.update s.iref ip (s.iref ip + 1) x := by
    intro x
    by_cases hx : x = ip
    · rw [hx]
      exact hself.le
    · rw [Function.update_of_ne hx]
      exact hs.refs x
  exact execFile_total hs hnew hall hself

/-- `exec` ends for exactly the files that keep to the bounds. -/
theorem execEnds_iff (hs : s.ExecReady) :
    ExecEnds s ip path argv behind junk ↔ s.KeepsBounds ip argv behind := by
  rcases exec_total hs ip path argv behind junk with ⟨hkeeps, s', hrun, hgood⟩ | ⟨hkeeps, hbad⟩
  · refine ⟨fun _ => hkeeps, fun _ => ⟨0, s', hrun, ?_⟩⟩
    exact hgood.imp (fun h => h.2) fun h => h.2.2
  · refine ⟨?_, fun h => absurd h hkeeps⟩
    rintro ⟨r, s', hrun, hend⟩
    obtain ⟨hne, hnot⟩ := hbad r s' hrun
    exact (hend.elim hne hnot).elim

def oneProcess (content : List UInt8) : System :=
  let s := bootSystem ((List.range 9).map fun i => 0x80300000 + 4096 * i)
  match s.ram.taskPagetable s.trampoline 0x80400000 with
  | .ok (root, ram) => { s with
    ram := ram
    contents := fun _ => content
    taskTable := fun i => { s.taskTable i with
      trapframe := 0x80400000
      task := { (s.taskTable i).task with pagetable := root } } }
  | .error _ => s

theorem oneProcess_eq (content : List UInt8) : ∃ root ram,
    NewTable (bootSystem ((List.range 9).map fun i => 0x80300000 + 4096 * i)).ram ram root ∧
      root ≠ 0 ∧ oneProcess content = { bootSystem [] with
        ram := ram
        contents := fun _ => content
        taskTable := fun i => { (bootSystem []).taskTable i with
          trapframe := 0x80400000
          task := { ((bootSystem []).taskTable i).task with pagetable := root } } } := by
  have hw : (bootSystem ((List.range 9).map fun i => 0x80300000 + 4096 * i)).ram.WellFormed := by
    refine ⟨by decide, by decide, fun p hp => ?_⟩
    have hall : ∀ p ∈ (List.range 9).map fun i => 0x80300000 + 4096 * i,
        p % pgSize = 0 ∧ 0x80200000 ≤ p ∧ p < physTop := by decide
    obtain ⟨h₁, h₂, h₃⟩ := hall p hp
    exact ⟨h₁, h₂, h₃⟩
  rcases taskPagetable_spec hw (show 0x80020000 < 2 ^ 64 by norm_num)
    (show 0x80400000 < 2 ^ 64 by norm_num) with ⟨hfew, -⟩ | ⟨root, ram, he, hne, hnew⟩
  · exact absurd hfew (by decide)
  · refine ⟨root, ram, hnew, hne, ?_⟩
    unfold oneProcess
    dsimp only
    have htramp : (bootSystem ((List.range 9).map fun i => 0x80300000 + 4096 * i)).trampoline =
      0x80020000 := rfl
    rw [htramp, he]
    rfl

theorem oneProcess_ready (content : List UInt8) : (oneProcess content).ExecReady := by
  obtain ⟨root, ram, hnew, hne, heq⟩ := oneProcess_eq content
  have hfree : ∀ p, p ∈ ram.footprint root ∨ p ∈ ram.freeList →
      p ∈ (List.range 9).map fun i => 0x80300000 + 4096 * i := fun p hp =>
    (hnew.moves.frames p hp).resolve_left (Set.notMem_empty p)
  have hframe : 0x80400000 ∉ (List.range 9).map fun i => 0x80300000 + 4096 * i := by decide
  have hpage : ram.IsPage 0x80400000 := by
    have hkend : ram.kend = 0x80200000 := hnew.moves.kend
    exact ⟨by decide, by rw [hkend]; norm_num, by decide⟩
  rw [heq]
  refine ⟨⟨hnew.moves.wf, (by norm_num : 0x80020000 < 2 ^ 64), ⟨fun _ => hnew.space,
    fun _ => hnew.top, fun _ => hpage, fun _ hp => hframe (hfree _ (Or.inr hp)),
    fun _ hp => hframe (hfree _ (Or.inl hp.2))⟩, hne, (by norm_num : 0x80400000 ≠ 0)⟩, ?_,
    fun x => ?_⟩
  · have := hnew.cost
    have hlen : (bootSystem ((List.range 9).map fun i => 0x80300000 + 4096 * i)).ram.freeList.length =
      9 := by decide
    change 6 ≤ ram.freeList.length
    omega
  · have hzero : (List.range nommapfile).countP (fun _ => decide ((none : Option ℕ) = some x)) = 0 :=
      List.countP_eq_zero.mpr fun i _ => by simp
    change ((List.range nommapfile).countP (fun _ => decide ((none : Option ℕ) = some x)) : ℤ) ≤ 1
    rw [hzero]
    decide

/-- An ELF file with one segment of 16 bytes at `vaddr`. -/
def oneSegment (vaddr : List UInt8) : List UInt8 :=
  [0x7f, 0x45, 0x4c, 0x46] ++ List.replicate 28 0 ++ [64, 0, 0, 0, 0, 0, 0, 0] ++
    List.replicate 16 0 ++ [1, 0, 0, 0, 0, 0, 0, 0] ++ [1, 0, 0, 0, 5, 0, 0, 0] ++
    List.replicate 8 0 ++ vaddr ++ List.replicate 8 0 ++ [16, 0, 0, 0, 0, 0, 0, 0] ++
    [16, 0, 0, 0, 0, 0, 0, 0] ++ List.replicate 8 0

def smallProgram : List UInt8 := oneSegment (List.replicate 8 0)

def highProgram : List UInt8 := oneSegment [0, 0xf0, 0xff, 0xff, 0x3f, 0, 0, 0]

theorem smallProgram_elfHdr :
    (oneProcess smallProgram).elfHdr 0 = ⟨elfMagic, 0, 64, 1⟩ ∧
      readProgHdr smallProgram 64 0 = some ⟨1, 5, 0, 0, 16, 16⟩ := by
  obtain ⟨root, ram, -, -, heq⟩ := oneProcess_eq smallProgram
  rw [heq]
  constructor
  · change ElfHdr.ofBytes (inodeBytes smallProgram 0 elfHdrSize) = _
    decide +kernel
  · decide +kernel

theorem smallProgram_length : elfHdrSize ≤ smallProgram.length := by decide +kernel

theorem smallProgram_stopsAt : StopsAt smallProgram 64 0 1 1 := by
  refine ⟨le_rfl, fun j hj hbad => ?_, fun h => absurd h (lt_irrefl 1)⟩
  obtain rfl : j = 0 := by omega
  exact absurd (hbad _ smallProgram_elfHdr.2).2 (by decide)

theorem oneProcess_room (content : List UInt8) :
    1 ≤ (oneProcess content).vmaRoom ∧ 1 ≤ (oneProcess content).slotRoom := by
  classical
  obtain ⟨root, ram, -, -, heq⟩ := oneProcess_eq content
  rw [heq]
  constructor
  · refine Finset.card_pos.mpr ⟨0, Finset.mem_filter.mpr ⟨by decide, Or.inl ?_⟩⟩
    exact ⟨rfl, rfl, rfl⟩
  · exact Finset.card_pos.mpr ⟨0, Finset.mem_filter.mpr ⟨by decide, Or.inl rfl⟩⟩

theorem oneProcess_contents (content : List UInt8) (ip : ℕ) :
    (oneProcess content).contents ip = content := by
  obtain ⟨root, ram, -, -, heq⟩ := oneProcess_eq content
  rw [heq]

theorem smallProgram_keepsBounds :
    (oneProcess smallProgram).KeepsBounds 0 (fun _ => none) fun _ => none := by
  have hhdr := smallProgram_elfHdr.1
  have hc := oneProcess_contents smallProgram 0
  obtain ⟨hvma, hslot⟩ := oneProcess_room smallProgram
  have hload : loadCount smallProgram 64 0 1 = 1 := by decide +kernel
  have hsize : programSize smallProgram 64 1 = 16 := by decide +kernel
  rw [keepsBounds_iff (by rw [hc]; exact smallProgram_length) (by rw [hhdr])
    (by rw [hc, hhdr]; exact smallProgram_stopsAt), hc, hhdr, hload, hsize, if_neg (lt_irrefl 1)]
  have hround : pgRoundUp 16 = 4096 := by decide
  have hwords : stackWords (fun _ => none) (fun _ => none) 4096 = some 56 := by decide +kernel
  rw [hround]
  refine ⟨hvma, hslot, by decide, ?_, ⟨56, by decide, hwords⟩, ?_⟩
  · rw [hc, hhdr]
    intro i hi ph hph _ va hlo hhi
    obtain rfl : i = 0 := Nat.lt_one_iff.mp hi
    obtain rfl := Option.some.inj (smallProgram_elfHdr.2.symm.trans hph)
    have hmax : maxVa = 274877906944 := rfl
    dsimp only at hhi
    omega
  · obtain ⟨root, ram, hnew, -, heq⟩ := oneProcess_eq smallProgram
    rw [heq]
    exact ⟨fun va hva hne => absurd (hnew.user va hva) hne, (by decide : pgRoundUp (toU64 0) ≤ maxVa)⟩

theorem smallProgram_execEnds : (oneProcess smallProgram).ExecReady ∧
    ExecEnds (oneProcess smallProgram) 0 [47, 97] (fun _ => none) (fun _ => none) fun _ => 0 :=
  ⟨oneProcess_ready smallProgram, (execEnds_iff (oneProcess_ready smallProgram)).mpr
    smallProgram_keepsBounds⟩

theorem highProgram_keepsBounds :
    ¬(oneProcess highProgram).KeepsBounds 0 (fun _ => none) fun _ => none := by
  have hc := oneProcess_contents highProgram 0
  have hhdr : (oneProcess highProgram).elfHdr 0 = ⟨elfMagic, 0, 64, 1⟩ := by
    unfold System.elfHdr
    rw [hc]
    decide +kernel
  have hph : readProgHdr highProgram 64 0 = some ⟨1, 5, 0, 0x3ffffff000, 16, 16⟩ := by decide +kernel
  have hstops : StopsAt highProgram 64 0 1 1 := by
    refine ⟨le_rfl, fun j hj hbad => ?_, fun h => absurd h (lt_irrefl 1)⟩
    obtain rfl : j = 0 := by omega
    exact absurd (hbad _ hph).2 (by decide)
  have hlen : elfHdrSize ≤ highProgram.length := by decide +kernel
  have hsize : programSize highProgram 64 1 = 0x3ffffff010 := by decide +kernel
  rw [keepsBounds_iff (by rw [hc]; exact hlen) (by rw [hhdr]) (by rw [hc, hhdr]; exact hstops), hc,
    hhdr, hsize, if_neg (lt_irrefl 1)]
  rintro ⟨-, -, hle, -⟩
  exact absurd hle (by decide)

/-- The page for the stack of a program below `MAXVA` is not in the address space. -/
theorem highProgram_not_execEnds : (oneProcess highProgram).ExecReady ∧
    ¬ExecEnds (oneProcess highProgram) 0 [47, 97] (fun _ => none) (fun _ => none) fun _ => 0 := by
  refine ⟨oneProcess_ready highProgram, ?_⟩
  rintro ⟨r, s', hrun, hend⟩
  rcases exec_total (oneProcess_ready highProgram) 0 [47, 97] (fun _ => none) (fun _ => none)
    (fun _ => 0) with ⟨hkeeps, -⟩ | ⟨-, hbad⟩
  · exact highProgram_keepsBounds hkeeps
  · obtain ⟨hne, hnot⟩ := hbad r s' hrun
    exact (hend.elim hne hnot).elim

end StartOS
