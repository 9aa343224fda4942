import StartOS.Os.CopyOut
import StartOS.Os.ExecFailure
import StartOS.Os.FreeTable
import StartOS.Os.Ownership

/-! # A run of `exec`

Up to the allocation of the stack `exec` only notes mappings. Then it writes to
its new page table, and at the end to the trapframe; the old page table is
given back. The new address space shares no frame with the old one.
-/

namespace StartOS

open MemAllocator Hoare

variable {s s' s'' s₀ : System} {ip pagetable sz sp i root va p x : ℕ} {elf : ElfHdr}
  {path : List UInt8} {argv behind : ℕ → Option (List UInt8)} {junk : ℕ → ℕ} {r : ℤ}

/-- The memory and the address spaces of all processes are the same. -/
structure SameSpaces (s s' : System) : Prop where
  current : s'.current = s.current
  contents : s'.contents = s.contents
  ram : s'.ram = s.ram
  frame : ∀ i, s'.frame i = s.frame i
  root : ∀ i, s'.root i = s.root i
  sz : ∀ i, (s'.taskTable i).task.sz = (s.taskTable i).task.sz

namespace SameSpaces

theorem refl : SameSpaces s s := ⟨rfl, rfl, rfl, fun _ => rfl, fun _ => rfl, fun _ => rfl⟩

theorem trans (h : SameSpaces s s') (h' : SameSpaces s' s'') : SameSpaces s s'' where
  current := h'.current.trans h.current
  contents := h'.contents.trans h.contents
  ram := h'.ram.trans h.ram
  frame i := (h'.frame i).trans (h.frame i)
  root i := (h'.root i).trans (h.root i)
  sz i := (h'.sz i).trans (h.sz i)

theorem setProc {q : Proc} (hf : q.trapframe = (s.taskTable i).trapframe)
    (hr : q.task.pagetable = (s.taskTable i).task.pagetable)
    (hz : q.task.sz = (s.taskTable i).task.sz) : SameSpaces s (s.setProc i q) := by
  have hslot : ∀ j, ((s.setProc i q).taskTable j).trapframe = (s.taskTable j).trapframe ∧
      ((s.setProc i q).taskTable j).task.pagetable = (s.taskTable j).task.pagetable ∧
      ((s.setProc i q).taskTable j).task.sz = (s.taskTable j).task.sz := by
    intro j
    by_cases hj : j = i
    · subst hj
      rw [System.setProc_self]
      exact ⟨hf, hr, hz⟩
    · rw [System.setProc_of_ne hj]
      exact ⟨rfl, rfl, rfl⟩
  exact ⟨rfl, rfl, rfl, fun j => (hslot j).1, fun j => (hslot j).2.1, fun j => (hslot j).2.2⟩

theorem setMachine {m : Machine} (hm : m.ram = s.ram)
    (hr : m.task.pagetable = s.myTask.task.pagetable) (hz : m.task.sz = s.myTask.task.sz) :
    SameSpaces s (s.setMachine m) := by
  have h : SameSpaces s (s.setProc s.current { s.myTask with task := m.task }) :=
    .setProc rfl hr hz
  exact ⟨rfl, rfl, hm, h.frame, h.root, h.sz⟩

theorem keeps_inodeDup (ip : ℕ) : Keeps (SameSpaces s₀) (inodeDup ip) :=
  .bind (.modify fun _ h => h.trans ⟨rfl, rfl, rfl, fun _ => rfl, fun _ => rfl, fun _ => rfl⟩)
    fun _ => .pure _

theorem keeps_inodeFree (ip : ℕ) : Keeps (SameSpaces s₀) (inodeFree ip) := by
  have hlast : Keeps (SameSpaces s₀) (modify fun s => { s with
      iref := Function.update s.iref ip (s.iref ip - 1) } : OsM Unit) :=
    .modify fun _ h => h.trans ⟨rfl, rfl, rfl, fun _ => rfl, fun _ => rfl, fun _ => rfl⟩
  refine Keeps.bind .get fun s => ?_
  dsimp only
  split
  · exact .bind (.throw _) fun _ => hlast
  · exact hlast

theorem keeps_freeProgVmas (me : ℕ) (is : List ℕ) :
    Keeps (SameSpaces s₀) (freeProgVmas me is) := by
  have hfree : ∀ p, Keeps (SameSpaces s₀) (vmaFree p) := by
    intro p
    refine Keeps.bind .get fun s => ?_
    have hlast : Keeps (SameSpaces s₀) (modify fun s => { s with
        vmaTable := Function.update s.vmaTable p .zero } : OsM Unit) :=
      .modify fun _ h => h.trans ⟨rfl, rfl, rfl, fun _ => rfl, fun _ => rfl, fun _ => rfl⟩
    cases (s.vmaTable p).ip with
    | none => exact hlast
    | some ip => exact .bind (keeps_inodeFree ip) fun _ => hlast
  induction is with
  | nil => exact .pure ()
  | cons i is ih =>
    refine Keeps.bind .get fun s => ?_
    cases (s.taskTable me).task.vma i with
    | none => exact ih
    | some p =>
      dsimp only
      split
      · refine .bind (hfree p) fun _ => .bind (.modify fun s h => ?_) fun _ => ih
        exact h.trans (.setProc rfl rfl rfl)
      · exact ih

theorem keeps_lazyLoadSeg (ip : ℕ) (ph : ProgHdr) : Keeps (SameSpaces s₀) (lazyLoadSeg ip ph) := by
  intro s r s' hs h
  unfold lazyLoadSeg at h
  obtain ⟨p, s₁, halloc, h₁⟩ := bind_eq_ok.mp h
  obtain ⟨rfl, -⟩ := onMachine_allocVma halloc
  obtain ⟨v, s₂, hdup, h₂⟩ := bind_eq_ok.mp h₁
  have hs₂ := keeps_inodeDup ip hs hdup
  rw [modify_bind, get_bind] at h₂
  generalize hslot : Machine.freeSlot _ = v at h₂
  cases v with
  | none => cases h₂
  | some i =>
    cases h₂
    have hvma : SameSpaces s₂ { s₂ with
        vmaTable := Function.update s₂.vmaTable p (ph.toVma ip) } :=
      ⟨rfl, rfl, rfl, fun _ => rfl, fun _ => rfl, fun _ => rfl⟩
    exact hs₂.trans (hvma.trans (.setMachine rfl rfl rfl))

theorem keeps_loadSegments (ip : ℕ) (content : List UInt8) (phoff n i sz : ℕ) :
    Keeps (SameSpaces s₀) (loadSegments ip content phoff n i sz) := by
  induction n generalizing i sz with
  | zero => exact .pure _
  | succ n ih =>
    rw [loadSegments]
    cases readProgHdr content phoff i with
    | none => exact .pure _
    | some ph =>
      refine .ite (ih _ _) (.ite (.pure _) ?_)
      exact .bind (keeps_lazyLoadSeg ip ph) fun _ => ih _ _

end SameSpaces

section StackPage

variable {m m' m₁ : MemAllocator} {z : ℕ}

/-- There is no place for a stack page above the program: the page is taken by the kernel or lies
above `MAXVA`. -/
theorem MemAllocator.Space.userAlloc_top (h : Space m root) (hw : m.WellFormed) (htop : Top m root)
    (hz : z % pgSize = 0) (hlo : userTop ≤ z) (hhi : z + pgSize < 2 ^ 64) :
    (m.freeList = [] ∧ m.userAlloc root z ((z + pgSize) % 2 ^ 64) = .ok (0, m)) ∨
      ∃ msg, m.userAlloc root z ((z + pgSize) % 2 ^ 64) = .error (.panic msg) := by
  have hvals : userTop = 274877898752 ∧ maxVa = 274877906944 ∧ pgSize = 4096 := by decide
  have hround : pgRoundUp z = z := by
    rw [hvals.2.2] at hz hhi
    unfold pgRoundUp
    omega
  have hone : (z + pgSize - z + 4095) / pgSize = 1 := by
    rw [hvals.2.2]
    omega
  rw [Nat.mod_eq_of_lt hhi, MemAllocator.userAlloc, if_neg (by omega)]
  simp only [hround, hone]
  rcases alloc_cases hw with ⟨hnil, he⟩ | ⟨p, m₁, he, hp, ht⟩
  · refine .inl ⟨hnil, ?_⟩
    unfold MemAllocator.userAllocFrom
    rw [he]
    simp only [MemAllocator.userDealloc, ge_iff_le, le_refl, if_true, Kernel.ok_bind, Kernel.pure_eq]
  · right
    rw [userAllocFrom_of_alloc he hp]
    by_cases hmax : z < maxVa
    · obtain ⟨h₁, -, -, hleaf⟩ := ht.clearPage.space hw h
      have hpage := ht.isPage hw
      have hlt : p < 2 ^ 64 := hpage.lt_top.trans (by norm_num [physTop])
      rcases h₁.table.mapPage (ht.clearPage.wellFormed hw) hmax hz hlt userPerm_all.lt with
        ⟨-, herr⟩ | ⟨hv, -⟩
      · exact ⟨"remap", by rw [herr]; rfl⟩
      · rw [hleaf] at hv
        exact absurd (htop z hmax hlo) hv
    · have hdown : maxVa ≤ pgRoundDown z := by
        rw [hvals.2.2] at hz
        unfold pgRoundDown
        omega
      exact ⟨"walk", by rw [mappages_of_ge hdown]; rfl⟩

theorem MemAllocator.ActsIn.top {a b : ℕ} (h : ActsIn m m' root a b) (hb : b ≤ userTop)
    (ht : Top m root) : Top m' root := by
  intro va hva hge
  rw [h.outside va hva (by omega)]
  exact ht va hva hge

/-- The page for the stack is mapped or the address space stays. -/
theorem MemAllocator.Space.userAlloc_ok {z₁ : ℕ} (h : Space m root) (hw : m.WellFormed)
    (htop : Top m root) (hz : z % pgSize = 0) (hle : z + pgSize ≤ 2 ^ 64)
    (hok : m.userAlloc root z ((z + pgSize) % 2 ^ 64) = .ok (z₁, m')) :
    Acts m m' root ∧ Top m' root := by
  have hvals : userTop = 274877898752 ∧ pgSize = 4096 := by decide
  have hsame : m' = m → Acts m m' root ∧ Top m' root := by
    rintro rfl
    exact ⟨.refl hw h, htop⟩
  by_cases hlow : z + pgSize ≤ userTop
  · have hend : pgRoundUp (z + pgSize) ≤ userTop := by
      rw [hvals.2] at hz hlow ⊢
      unfold pgRoundUp
      omega
    rw [Nat.mod_eq_of_lt (by omega)] at hok
    rcases h.userAlloc hw hlow (Nat.le_add_right z pgSize) with
      ⟨m₁, he, hmaps⟩ | ⟨m₁, he, hin, -⟩ | ⟨-, he⟩
    · cases hok.symm.trans he
      exact ⟨hmaps.acts, hmaps.toActsIn.top hend htop⟩
    · cases hok.symm.trans he
      exact ⟨hin.acts, hin.top hend htop⟩
    · cases hok.symm.trans he
  · by_cases hwrap : z + pgSize < 2 ^ 64
    · have hge : userTop ≤ z := by
        rw [hvals.2] at hz hlow
        omega
      rcases h.userAlloc_top hw htop hz hge hwrap with ⟨-, he⟩ | ⟨msg, he⟩
      · apply hsame
        cases hok.symm.trans he
        rfl
      · cases hok.symm.trans he
    · have hzero : (z + pgSize) % 2 ^ 64 = 0 := by
        rw [show z + pgSize = 2 ^ 64 by omega, Nat.mod_self]
      apply hsame
      rw [hzero, MemAllocator.userAlloc, if_pos (by omega)] at hok
      cases hok
      rfl

end StackPage

structure MemAllocator.FreshTable (s m : MemAllocator) (root : ℕ) : Prop where
  space : Space m root
  top : Top m root
  moves : Moves s m ∅ (m.footprint root)

namespace MemAllocator

variable {s m m' : MemAllocator} {O O' T : Set ℕ}

theorem Moves.mono (h : Moves s m O O') (hT : ∀ p ∈ T, p ∈ O') : Moves s m O T where
  wf := h.wf
  kend := h.kend
  frames p hp := h.frames p (hp.imp_left (hT p))
  apart p hp := h.apart p (hT p hp)
  mem := h.mem

theorem NewTable.fresh (h : NewTable s m root) : FreshTable s m root := ⟨h.space, h.top, h.moves⟩

namespace FreshTable

theorem acts (h : FreshTable s m root) (ha : Acts m m' root) (ht : Top m' root) :
    FreshTable s m' root := ⟨ha.space, ht, h.moves.trans ha.moves⟩

theorem writes (h : FreshTable s m root) (hw : Writes m m' root) : FreshTable s m' root := by
  refine h.acts hw.acts fun va hva hge => ?_
  rw [hw.leaf]
  exact h.top va hva hge

theorem lost (h : FreshTable s m root) :
    Moves s m ∅ ∅ := h.moves.mono fun _ hp => absurd hp (Set.notMem_empty _)

theorem free (h : FreshTable s m root) (hok : m.freeTaskPagetable root sz = .ok m') :
    Moves s m' ∅ ∅ := by
  rcases h.space.freeTaskPagetable h.moves.wf sz with ⟨-, m₁, he, hm, -⟩ | ⟨-, he⟩ | ⟨-, he⟩
  · cases hok.symm.trans he
    exact h.moves.trans hm
  · cases hok.symm.trans he
  · cases hok.symm.trans he

end FreshTable

end MemAllocator

theorem pgRoundUp_mod (n : ℕ) : pgRoundUp n % pgSize = 0 := by
  unfold pgRoundUp pgSize
  omega

theorem pgRoundUp_add_le (n : ℕ) : pgRoundUp n + pgSize ≤ 2 ^ 64 := by
  unfold pgRoundUp pgSize
  omega

/-- A program that was started: the new table, its stack page and what was written to it. -/
structure Started (s : System) (ip : ℕ) (path : List UInt8) (argv behind : ℕ → Option (List UInt8))
    (junk : ℕ → ℕ) (s' : System) (pagetable sz sz1 sp : ℕ) (ram₁ ram₂ ram₃ : MemAllocator)
    (sys : System) : Prop where
  table : s.ram.taskPagetable s.trampoline s.myTask.trapframe = .ok (pagetable, ram₁)
  notNull : pagetable ≠ 0
  stack : ram₁.userAlloc pagetable (pgRoundUp sz) ((pgRoundUp sz + pgSize) % 2 ^ 64) =
    .ok (sz1, ram₂)
  size : sz1 ≠ 0
  fill : fillStack (.ofBytes (inodeBytes (s.contents ip) 0 elfHdrSize)) argv behind
    ⟨(sz1 + 2 ^ 64 - 8) % 2 ^ 64, (sz1 + 2 ^ 64 - pgSize) % 2 ^ 64, pagetable, junk, 0⟩ ram₂ =
      .ok (sp, ram₃)
  same : SameSpaces { s with ram := ram₃ } sys
  start : execStart ip pagetable sz1 sp (.ofBytes (inodeBytes (s.contents ip) 0 elfHdrSize)) path
    sys = .ok (0, s')

theorem SameSpaces.setRam (h : SameSpaces s s') (ram : MemAllocator) :
    SameSpaces { s with ram := ram } { s' with ram := ram } :=
  ⟨h.current, h.contents, rfl, h.frame, h.root, h.sz⟩

theorem onRam_sameSpaces {α : Type} {call : MemAllocator → Kernel (α × MemAllocator)} {a : α}
    (h : onRam call s = .ok (a, s')) (ram : MemAllocator) :
    SameSpaces { s with ram := ram } { s' with ram := ram } := by
  obtain ⟨-, hcall⟩ := onRam_sameTables h
  rw [onRam_of_ok hcall] at h
  have hs' : s' = { s with ram := s'.ram } := (Prod.mk.inj (Except.ok.inj h)).2.symm
  rw [hs']
  exact ⟨rfl, rfl, rfl, fun _ => rfl, fun _ => rfl, fun _ => rfl⟩

/-- Memory has been taken, used and given back; the address spaces are as they were. -/
structure SameOwners (s s' : System) : Prop where
  same : SameSpaces { s with ram := s'.ram } s'
  moves : Moves s.ram s'.ram ∅ ∅

theorem execBad_sameOwners {ram : MemAllocator} (hsame : SameSpaces { s₀ with ram := ram } s)
    (hfresh : FreshTable s₀.ram ram pagetable) (h : execBad ip pagetable sz s = .ok (r, s')) :
    SameOwners s₀ s' := by
  unfold execBad at h
  obtain ⟨⟨⟩, s₁, hfree, h₁⟩ := bind_eq_ok.mp h
  obtain ⟨⟨⟩, s₂, hram, h₂⟩ := bind_eq_ok.mp h₁
  cases h₂
  have hs₁ : SameSpaces { s₀ with ram := ram } s₁ := SameSpaces.keeps_inodeFree ip hsame hfree
  obtain ⟨-, hcall⟩ := onRam_sameTables hram
  obtain ⟨m, hm, hret⟩ := Kernel.bind_ok.mp hcall
  cases hret
  have hram₁ : s₁.ram = ram := hs₁.ram
  rw [hram₁] at hm
  exact ⟨(hs₁.setRam s'.ram).trans (onRam_sameSpaces hram s'.ram), hfresh.free hm⟩

theorem exec_cases {found : Option ℕ} (hw : s.ram.WellFormed) (ht : s.trampoline < 2 ^ 64)
    (hf : s.myTask.trapframe < 2 ^ 64) (h : exec found path argv behind junk s = .ok (r, s')) :
    SameOwners s s' ∨ ∃ ip, found = some ip ∧ ∃ pagetable sz sz1 sp ram₁ ram₂ ram₃ sys,
      Started s ip path argv behind junk s' pagetable sz sz1 sp ram₁ ram₂ ram₃ sys := by
  have hr := exec_returns h
  subst hr
  unfold exec at h
  rw [get_bind] at h
  obtain ⟨pagetable, s₁, hpage, h₁⟩ := bind_eq_ok.mp h
  obtain ⟨-, hcall⟩ := onRam_sameTables hpage
  have hsame : SameSpaces { s with ram := s₁.ram } s₁ := onRam_sameSpaces hpage s₁.ram
  split at h₁
  · rename_i hzero
    cases h₁
    refine .inl ⟨hsame, ?_⟩
    rcases taskPagetable_spec hw ht hf with ⟨-, m, he, hm, -⟩ | ⟨root, m, he, hne, -⟩
    · cases hcall.symm.trans he
      exact hm
    · cases hcall.symm.trans he
      exact absurd hzero hne
  rename_i hne
  have hfresh : FreshTable s.ram s₁.ram pagetable := by
    rcases taskPagetable_spec hw ht hf with ⟨-, m, he, -⟩ | ⟨root, m, he, -, hnew⟩
    · cases hcall.symm.trans he
      exact absurd rfl hne
    · cases hcall.symm.trans he
      exact hnew.fresh
  cases found with
  | none =>
    cases h₁
    exact .inl ⟨hsame, hfresh.lost⟩
  | some ip =>
    obtain ⟨v, s₂, hdup, h₂⟩ := bind_eq_ok.mp h₁
    have hs₂ : SameSpaces s₁ s₂ := SameSpaces.keeps_inodeDup ip .refl hdup
    unfold execFile at h₂
    rw [get_bind] at h₂
    split at h₂
    · exact .inl (execBad_sameOwners (hsame.trans hs₂) hfresh h₂)
    rw [get_bind] at h₂
    obtain ⟨⟨⟩, s₃, hprog, h₃⟩ := bind_eq_ok.mp h₂
    have hs₃ : SameSpaces s₁ s₃ := SameSpaces.keeps_freeProgVmas _ _ hs₂ hprog
    split at h₃
    · exact .inl (execBad_sameOwners (hsame.trans hs₃) hfresh h₃)
    obtain ⟨⟨fine, sz⟩, s₄, hload, h₄⟩ := bind_eq_ok.mp h₃
    have hs₄ : SameSpaces s₁ s₄ := SameSpaces.keeps_loadSegments _ _ _ _ _ _ hs₃ hload
    dsimp only at h₄
    split at h₄
    · exact .inl (execBad_sameOwners (hsame.trans hs₄) hfresh h₄)
    obtain ⟨sz1, s₅, halloc, h₅⟩ := bind_eq_ok.mp h₄
    obtain ⟨-, hcall₅⟩ := onRam_sameTables halloc
    rw [hs₄.ram] at hcall₅
    split at h₅
    · have hfresh₅ : FreshTable s.ram s₅.ram pagetable := by
        obtain ⟨hacts, htop⟩ := hfresh.space.userAlloc_ok hfresh.moves.wf hfresh.top
          (pgRoundUp_mod sz) (pgRoundUp_add_le sz) hcall₅
        exact hfresh.acts hacts htop
      have hs₅ : SameSpaces { s with ram := s₅.ram } s₅ := (hsame.setRam s₅.ram).trans
        ((hs₄.setRam s₅.ram).trans (onRam_sameSpaces halloc s₅.ram))
      exact .inl (execBad_sameOwners hs₅ hfresh₅ h₅)
    rename_i hsz
    obtain ⟨sp, s₆, hfill, h₆⟩ := bind_eq_ok.mp h₅
    obtain ⟨-, hcall₆⟩ := onRam_sameTables hfill
    have hcontents : s₂.contents = s.contents := hs₂.contents.trans hsame.contents
    have hsys : SameSpaces { s with ram := s₆.ram } s₆ :=
      (onRam_sameSpaces hpage s₆.ram).trans ((hs₄.setRam s₆.ram).trans
        ((onRam_sameSpaces halloc s₆.ram).trans (onRam_sameSpaces hfill s₆.ram)))
    rw [hcontents] at hcall₆ h₆
    exact .inr ⟨ip, rfl, pagetable, sz, sz1, sp, s₁.ram, s₅.ram, s₆.ram, s₆, hcall, hne, hcall₅, hsz,
      hcall₆, hsys, h₆⟩

namespace Started

variable {sz1 : ℕ} {ram₁ ram₂ ram₃ : MemAllocator} {sys : System}

theorem fresh (h : Started s ip path argv behind junk s' pagetable sz sz1 sp ram₁ ram₂ ram₃ sys)
    (hw : s.ram.WellFormed) (ht : s.trampoline < 2 ^ 64) (hf : s.myTask.trapframe < 2 ^ 64) :
    FreshTable s.ram ram₂ pagetable := by
  rcases taskPagetable_spec hw ht hf with ⟨-, m, he, -⟩ | ⟨root, m, he, -, hnew⟩
  · cases h.table.symm.trans he
    exact absurd rfl h.notNull
  · cases h.table.symm.trans he
    obtain ⟨hacts, htop⟩ := hnew.space.userAlloc_ok hnew.moves.wf hnew.top (pgRoundUp_mod sz)
      (pgRoundUp_add_le sz) h.stack
    exact hnew.fresh.acts hacts htop

end Started

theorem MemAllocator.Moves.write {m : MemAllocator} {f : ℕ} {mem : ByteMem} {O : Set ℕ}
    (hw : m.WellFormed) (hf : f ∈ O) (hO : ∀ p ∈ O, p ∉ m.freeList)
    (hmem : ∀ x, x < f ∨ f + pgSize ≤ x → mem x = m.mem x) : Moves m { m with mem := mem } O O where
  wf := ⟨hw.kend_pos, hw.nodup, fun q hq => (hw.isPage q hq).of_kend rfl⟩
  kend := rfl
  frames _ hp := hp
  apart := hO
  mem x hx := hmem x (hx f (Or.inl hf))

theorem MemAllocator.Moves.userByte {m m' : MemAllocator} {O O' : Set ℕ} (h : Moves m m' O O')
    (hO : ∀ q ∈ O, m.IsPage q) (hw : m.WellFormed) (hs : Space m root)
    (hd : ∀ p ∈ m.footprint root, p ∉ O) (va : ℕ) : m'.userByte root va = m.userByte root va := by
  obtain ⟨-, -, hleaf, hmem⟩ := h.frame hO hw hs hd
  unfold MemAllocator.userByte
  split
  · rename_i hva
    rw [userFrame_congr (hleaf va)]
    cases hp : m.userFrame root va with
    | none => rfl
    | some p =>
      have hmod : va % pgSize < pgSize := Nat.mod_lt _ (by decide)
      exact congrArg some (hmem p (Or.inr ⟨va, hva, hp⟩) _ (Nat.le_add_right p _) (by omega))
  · rfl

/-- The registers that `exec` sets. -/
def execFrame (mem : ByteMem) (f sp entry : ℕ) : ByteMem :=
  (((mem.writeLE (f + 120) 8 sp).writeLE (f + 40) 8 0).writeLE (f + 24) 8 entry).writeLE
    (f + 48) 8 sp

theorem execFrame_of_not_mem {mem : ByteMem} {f entry : ℕ} (h : x < f ∨ f + pgSize ≤ x) :
    execFrame mem f sp entry x = mem x := by
  have hpg : pgSize = 4096 := rfl
  unfold execFrame
  rw [ByteMem.writeLE_of_not_mem (by omega), ByteMem.writeLE_of_not_mem (by omega),
    ByteMem.writeLE_of_not_mem (by omega), ByteMem.writeLE_of_not_mem (by omega)]

theorem execStart_cases (h : execStart ip pagetable sz sp elf path s = .ok (r, s')) :
    ({ s.ram with mem := execFrame s.ram.mem (s.frame s.current) sp elf.entry } :
        MemAllocator).freeTaskPagetable (s.root s.current) (toU64 s.myTask.task.sz) = .ok s'.ram ∧
      s'.current = s.current ∧ (∀ i, s'.root i = if i = s.current then pagetable else s.root i) ∧
      (∀ i, s'.frame i = s.frame i) ∧ s'.contents = s.contents := by
  unfold execStart at h
  rw [get_bind, get_bind, modify_bind] at h
  obtain ⟨⟨⟩, s₁, hproc, h₁⟩ := bind_eq_ok.mp h
  obtain ⟨⟨⟩, s₂, hfree, h₂⟩ := bind_eq_ok.mp h₁
  obtain ⟨⟨⟩, s₃, hinode, h₃⟩ := bind_eq_ok.mp h₂
  cases h₃
  have hend : SameSpaces s₂ s' := SameSpaces.keeps_inodeFree ip .refl hinode
  cases hproc
  obtain ⟨-, hcall⟩ := onRam_sameTables hfree
  have hs₂ := onRam_sameSpaces hfree s₂.ram
  obtain ⟨ram, hram, hret⟩ := Kernel.bind_ok.mp hcall
  cases hret
  refine ⟨?_, hend.current.trans hs₂.current, fun i => ?_, fun i => ?_,
    hend.contents.trans hs₂.contents⟩
  · rw [hend.ram]
    unfold execFrame System.frame System.root
    exact hram
  · rw [hend.root, hs₂.root]
    exact System.root_setProc
  · rw [hend.frame, hs₂.frame]
    refine System.frame_setProc.trans ?_
    split
    · rename_i hi
      rw [hi]
      rfl
    · rfl

/-- The new address space is built: it shares no frame with the old one, and the trapframe is in
none of them. -/
structure ReadyToStart (s : System) (pagetable : ℕ) : Prop where
  wf : s.ram.WellFormed
  old : Space s.ram (s.root s.current)
  new : Space s.ram pagetable
  apart : ∀ p ∈ s.ram.footprint pagetable, p ∉ s.ram.footprint (s.root s.current)
  isPage : s.ram.IsPage (s.frame s.current)
  taken : s.frame s.current ∉ s.ram.freeList
  notOld : s.frame s.current ∉ s.ram.footprint (s.root s.current)
  notNew : s.frame s.current ∉ s.ram.footprint pagetable

theorem ReadyToStart.of_moves {ram : MemAllocator} {sys : System} (hw : s.ram.WellFormed)
    (ha : s.Alive s.current) (hr : s.root s.current ≠ 0) (hf : s.frame s.current ≠ 0)
    (hm : Moves s.ram ram ∅ (ram.footprint pagetable)) (hnew : Space ram pagetable)
    (hsame : SameSpaces { s with ram := ram } sys) :
    ReadyToStart sys pagetable ∧ ∀ va, sys.ram.leaf (s.root s.current) va =
      s.ram.leaf (s.root s.current) va := by
  have hfree : ∀ p, p ∈ ram.footprint pagetable ∨ p ∈ ram.freeList → p ∈ s.ram.freeList :=
    fun p hp => (hm.frames p hp).resolve_left (Set.notMem_empty p)
  obtain ⟨hold, hfoot, hleaf, -⟩ := hm.frame (fun q hq => absurd hq (Set.notMem_empty q)) hw
    (ha.space hr) fun p _ => Set.notMem_empty p
  have hcur : sys.current = s.current := hsame.current
  have hram : sys.ram = ram := hsame.ram
  have hroot : sys.root s.current = s.root s.current := hsame.root s.current
  have hframe : sys.frame s.current = s.frame s.current := hsame.frame s.current
  refine ⟨⟨?_, ?_, ?_, ?_, ?_, ?_, ?_, ?_⟩, ?_⟩
  · rw [hram]
    exact hm.wf
  · rw [hram, hcur, hroot]
    exact hold
  · rw [hram]
    exact hnew
  · rw [hram, hcur, hroot, hfoot]
    exact fun p hp hp' => (ha.space hr).footprint_taken hp' (hfree p (Or.inl hp))
  · rw [hram, hcur, hframe]
    exact (ha.isPage hf).of_kend hm.kend
  · rw [hram, hcur, hframe]
    exact fun hp => ha.taken hf (hfree _ (Or.inr hp))
  · rw [hram, hcur, hroot, hframe, hfoot]
    exact fun hp => ha.apart hf ⟨hr, hp⟩
  · rw [hram, hcur, hframe]
    exact fun hp => ha.taken hf (hfree _ (Or.inl hp))
  · rw [hram]
    exact hleaf

namespace ReadyToStart

theorem setFrame (h : ReadyToStart s pagetable) (sp entry : ℕ) :
    ReadyToStart { s with ram := { s.ram with
      mem := execFrame s.ram.mem (s.frame s.current) sp entry } } pagetable ∧
    (∀ va, ({ s.ram with mem := execFrame s.ram.mem (s.frame s.current) sp entry } :
      MemAllocator).leaf (s.root s.current) va = s.ram.leaf (s.root s.current) va) ∧
    (∀ va, ({ s.ram with mem := execFrame s.ram.mem (s.frame s.current) sp entry } :
      MemAllocator).leaf pagetable va = s.ram.leaf pagetable va) ∧
    ∀ va, ({ s.ram with mem := execFrame s.ram.mem (s.frame s.current) sp entry } :
      MemAllocator).userByte pagetable va = s.ram.userByte pagetable va := by
  have hm : Moves s.ram { s.ram with mem := execFrame s.ram.mem (s.frame s.current) sp entry }
      {s.frame s.current} {s.frame s.current} :=
    .write h.wf rfl (fun p hp => hp ▸ h.taken) fun x hx => execFrame_of_not_mem hx
  have hO : ∀ q ∈ ({s.frame s.current} : Set ℕ), s.ram.IsPage q := by
    rintro q rfl
    exact h.isPage
  have hdOld : ∀ p ∈ s.ram.footprint (s.root s.current), p ∉ ({s.frame s.current} : Set ℕ) := by
    rintro p hp rfl
    exact h.notOld hp
  have hdNew : ∀ p ∈ s.ram.footprint pagetable, p ∉ ({s.frame s.current} : Set ℕ) := by
    rintro p hp rfl
    exact h.notNew hp
  obtain ⟨hold, hfoot, hleaf, -⟩ := hm.frame hO h.wf h.old hdOld
  obtain ⟨hnew, hfoot', hleaf', -⟩ := hm.frame hO h.wf h.new hdNew
  refine ⟨⟨hm.wf, hold, hnew, ?_, h.isPage.of_kend rfl, h.taken, ?_, ?_⟩, hleaf, hleaf',
    hm.userByte hO h.wf h.new hdNew⟩
  · intro p hp hp'
    change p ∈ MemAllocator.footprint _ pagetable at hp
    change p ∈ MemAllocator.footprint _ (s.root s.current) at hp'
    rw [hfoot'] at hp
    rw [hfoot] at hp'
    exact h.apart p hp hp'
  · change s.frame s.current ∉ MemAllocator.footprint _ (s.root s.current)
    rw [hfoot]
    exact h.notOld
  · change s.frame s.current ∉ MemAllocator.footprint _ pagetable
    rw [hfoot']
    exact h.notNew

theorem freesOld (h : ReadyToStart s pagetable)
    (hrun : execStart ip pagetable sz sp elf path s = .ok (r, s')) :
    let m : MemAllocator := { s.ram with
      mem := execFrame s.ram.mem (s.frame s.current) sp elf.entry }
    Moves m s'.ram (m.footprint (s.root s.current)) ∅ := by
  obtain ⟨hcall, -⟩ := execStart_cases hrun
  obtain ⟨hset, -⟩ := h.setFrame sp elf.entry
  rcases hset.old.freeTaskPagetable hset.wf (toU64 s.myTask.task.sz) with
    ⟨-, m', he, hm, -⟩ | ⟨-, he⟩ | ⟨-, he⟩
  · have heq := hcall.symm.trans he
    rw [Except.ok.inj heq]
    exact hm
  · cases hcall.symm.trans he
  · cases hcall.symm.trans he

/-- The frames when the program starts: those of the old address space are not among them. -/
theorem moves (h : ReadyToStart s pagetable)
    (hrun : execStart ip pagetable sz sp elf path s = .ok (r, s')) :
    Moves s.ram s'.ram
        ({s.frame s.current} ∪ (s.ram.footprint (s.root s.current) ∪ s.ram.footprint pagetable))
        (s.ram.footprint pagetable ∪ {s.frame s.current}) ∧
      Space s'.ram pagetable ∧ s'.ram.footprint pagetable = s.ram.footprint pagetable := by
  obtain ⟨hset, -⟩ := h.setFrame sp elf.entry
  have hfree := h.freesOld hrun
  dsimp only at hfree
  have hset' : Moves s.ram { s.ram with mem := execFrame s.ram.mem (s.frame s.current) sp elf.entry }
      {s.frame s.current} {s.frame s.current} :=
    .write h.wf rfl (fun p hp => hp ▸ h.taken) fun x hx => execFrame_of_not_mem hx
  have hO : ∀ q ∈ ({s.frame s.current} : Set ℕ), s.ram.IsPage q := by
    rintro q rfl
    exact h.isPage
  have hOld : ∀ p ∈ s.ram.footprint (s.root s.current), p ∉ ({s.frame s.current} : Set ℕ) := by
    rintro p hp rfl
    exact h.notOld hp
  have hNew : ∀ p ∈ s.ram.footprint pagetable, p ∉ ({s.frame s.current} : Set ℕ) := by
    rintro p hp rfl
    exact h.notNew hp
  obtain ⟨-, hfoot, -⟩ := hset'.frame hO h.wf h.old hOld
  obtain ⟨-, hfoot', -⟩ := hset'.frame hO h.wf h.new hNew
  obtain ⟨hspace, hfoot'', -⟩ := hfree.frame (fun q hq => hset.old.footprint_isPage hq) hset.wf
    hset.new hset.apart
  have h₁ : Moves s.ram { s.ram with mem := execFrame s.ram.mem (s.frame s.current) sp elf.entry }
      ({s.frame s.current} ∪ (s.ram.footprint (s.root s.current) ∪ s.ram.footprint pagetable))
      ({s.frame s.current} ∪ (s.ram.footprint (s.root s.current) ∪ s.ram.footprint pagetable)) := by
    refine .write h.wf (Or.inl rfl) ?_ fun x hx => execFrame_of_not_mem hx
    rintro p (rfl | hp | hp)
    · exact h.taken
    · exact h.old.footprint_taken hp
    · exact h.new.footprint_taken hp
  have h₂ := hfree.union (T := s.ram.footprint pagetable ∪ {s.frame s.current}) <| by
    rintro p (hp | rfl)
    · rw [← hfoot'] at hp
      exact ⟨hset.apart p hp, hset.new.footprint_taken hp⟩
    · exact ⟨hset.notOld, hset.taken⟩
  rw [Set.empty_union, hfoot] at h₂
  refine ⟨h₁.trans ?_, hspace, hfoot''.trans hfoot'⟩
  rwa [Set.union_comm, Set.union_assoc]

/-- The program starts: its address space is as it was built, and the old one is given back. -/
theorem started (h : ReadyToStart s pagetable)
    (hrun : execStart ip pagetable sz sp elf path s = .ok (r, s')) :
    s'.current = s.current ∧ s'.root s.current = pagetable ∧
      s'.frame s.current = s.frame s.current ∧ s'.contents = s.contents ∧
      (∀ va, s'.ram.leaf pagetable va = s.ram.leaf pagetable va) ∧
      (∀ va, s'.ram.userByte pagetable va = s.ram.userByte pagetable va) ∧
      s'.ram.mem.readLE (s.frame s.current + 48) 8 = sp % 2 ^ 64 := by
  obtain ⟨-, hcur, hroot, hframe, hcontents⟩ := execStart_cases hrun
  obtain ⟨hset, -, hleaf, hbyte⟩ := h.setFrame sp elf.entry
  have hm := h.freesOld hrun
  have hO := fun q hq => hset.old.footprint_isPage (p := q) hq
  obtain ⟨-, -, hleaf', -⟩ := hm.frame hO hset.wf hset.new hset.apart
  refine ⟨hcur, (hroot _).trans (if_pos rfl), hframe _, hcontents,
    fun va => (hleaf' va).trans (hleaf va), fun va => ?_, ?_⟩
  · exact (hm.userByte hO hset.wf hset.new hset.apart va).trans (hbyte va)
  · have hpg : pgSize = 4096 := rfl
    have hread : s'.ram.mem.readLE (s.frame s.current + 48) 8 =
        (execFrame s.ram.mem (s.frame s.current) sp elf.entry).readLE (s.frame s.current + 48) 8 := by
      apply ByteMem.readLE_congr
      intro x hx hx'
      have hin : s.frame s.current ≤ x ∧ x < s.frame s.current + pgSize := by omega
      exact hm.mem_frame hO hset.wf hset.isPage hset.notOld hset.taken hin.1 hin.2
    rw [hread, execFrame, ByteMem.readLE_writeLE, show (256 : ℕ) ^ 8 = 2 ^ 64 by norm_num]

end ReadyToStart

end StartOS
