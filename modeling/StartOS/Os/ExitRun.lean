import StartOS.Os.ExecTotal
import StartOS.Os.ExitTotal
import StartOS.Os.ForkRun

/-! # Exit after any run

Processes open, copy and map, fork and start programs in any order, and are
switched at any moment. As long as no call stores what `exit` cannot take down,
whichever process runs can exit.
-/

namespace StartOS

open Hoare Relation

/-- What a process does before it exits: system calls with the registers of their arguments, and
page faults. The block that `new` answers with and the inode that a path search ends at are
arguments. -/
inductive UserCall
  | openat (fp : ℕ) (found : Option FoundInode) (flags : ℕ)
  | dup (fd : ℤ)
  | pipe (f0 f1 pipe fdarray : ℕ)
  | mmap (addr : ℕ) (length : ℤ) (prot : ℕ) (flags fd : ℤ)
  | munmap (addr : ℕ)
  | exec (found : Option ℕ) (path : List UInt8) (argv behind : ℕ → Option (List UInt8)) (junk : ℕ → ℕ)
  | fork
  | fault (va : ℕ)

namespace UserCall

/-- The call of the running process, without its result. `argint` takes an `int`. -/
def run : UserCall → OsM Unit
  | openat fp found flags => forget (sysOpenat fp found flags)
  | dup fd => forget (sysDup fd)
  | pipe f0 f1 p fdarray => forget (sysPipe f0 f1 p fdarray)
  | mmap addr length prot flags fd =>
    forget (sysMmap addr (toInt32 length) prot (toInt32 flags) (toInt32 fd))
  | munmap addr => forget (sysMunmap addr)
  | exec found path argv behind junk => forget (StartOS.exec found path argv behind junk)
  | fork => forget StartOS.fork
  | fault va => forget (loadIfValid va)

/-- `new` answers with a block that is not in use. -/
def Fresh (s : System) : UserCall → Prop
  | pipe _ _ p _ => s.pipes p = none
  | _ => True

/-- The call stores only what `exit` can take down: the descriptors of a pipe can be copied to the
caller, a mapping is private and ends below the pages of the kernel, the segments of a program do
so too, and a child that is made gets a page table. -/
def Tame (s : System) : UserCall → Prop
  | pipe f0 f1 p fdarray => (FileCall.pipe f0 f1 p fdarray).Safe s
  | mmap _ length _ flags _ => s.machine.MayMap (toInt32 length) (toInt32 flags)
  | exec found _ _ _ _ => ∀ ip, found = some ip → System.SegmentsFit (s.contents ip)
  | fork => s.freeTaskSlot = none ∨ s.ram.freeList = [] ∨ 4 ≤ s.ram.freeList.length
  | _ => True

end UserCall

namespace System

variable {s s' : System} {c j : ℕ}

def dispatch (s : System) (j : ℕ) (σ : ℕ → ProcState) : System :=
  { s with
    current := j
    taskTable := fun i => { s.taskTable i with state := σ i } }

/-- What holds between the steps of a run: the counts of files and inodes are right, every frame has
one owner, the ends of pipes are open, all mappings can be taken down, and the process that runs is
one that may. -/
structure Orderly (s : System) : Prop where
  sound : s.Sound
  running : s.myTask.state = .running
  ends : s.EndsOpen
  owned : s.Owned
  housed : ∀ i, s.Live i → s.Housed i
  pool : s.Pool fun _ => 0

namespace Orderly

theorem live (h : s.Orderly) : s.Live s.current := by
  unfold Live
  change s.myTask.state ≠ _ ∧ s.myTask.state ≠ _
  rw [h.running]
  decide

theorem turn (h : s.Orderly) (ht : Turn c s s') (hc : s'.Live c) (hh : s'.Housed c)
    (hstate : ∀ i, i ≠ c → (s'.taskTable i).state = (s.taskTable i).state)
    (hrun : s'.myTask.state = .running) (htramp : s'.trampoline = s.trampoline) (hs : s'.Sound)
    (he : s'.EndsOpen) (hp : s'.Pool fun _ => 0) : s'.Orderly where
  sound := hs
  running := hrun
  ends := he
  owned := by
    refine ht.owned h.owned htramp (fun i hi => ?_) hp.aligned
    have hic : i ≠ c := by
      rintro rfl
      exact hc.1 hi
    rw [ht.root i hic, ht.frame i hic]
    exact h.owned.unused i ((hstate i hic).symm.trans hi)
  housed i hi := by
    by_cases hic : i = c
    · rw [hic]
      exact hh
    · refine (h.housed i ?_).of_eq (ht.root i hic) (ht.frame i hic)
      unfold Live at hi ⊢
      rwa [hstate i hic] at hi
  pool := hp

theorem call (h : s.Orderly) (ht : Turn s.current s s') (hh : s'.Housed s.current)
    (hcur : s'.current = s.current) (hstate : ∀ i, (s'.taskTable i).state = (s.taskTable i).state)
    (htramp : s'.trampoline = s.trampoline) (hs : s'.Sound) (he : s'.EndsOpen)
    (hp : s'.Pool fun _ => 0) : s'.Orderly := by
  refine h.turn ht ?_ hh (fun i _ => hstate i) ?_ htramp hs he hp
  · unfold Live
    rw [hstate]
    exact h.live
  · unfold myTask
    rw [hcur, hstate]
    exact h.running

theorem files (h : s.Orderly) (ho : FilesOnly s s') (hs : s'.Sound) (he : s'.EndsOpen) :
    s'.Orderly := by
  have hroot : ∀ i, s'.root i = s.root i := ho.proc (π := fun q => q.task.pagetable) fun _ _ => rfl
  have hframe : ∀ i, s'.frame i = s.frame i := ho.proc (π := Proc.trapframe) fun _ _ => rfl
  have hsame : SameFrames s s' := ⟨ho.ram, hroot, hframe⟩
  apply h.call (hsame.turn h.owned _) ((h.housed _ h.live).of_eq (hroot _) (hframe _)) ho.current
  · exact ho.proc (π := Proc.state) fun _ _ => rfl
  · exact ho.trampoline
  · exact hs
  · exact he
  · exact h.pool.same ho.samePool

theorem memory (h : s.Orderly) (hq : FilesSame s s') (ht : Turn s.current s s')
    (hh : s'.Housed s.current) (hp : s'.Pool fun _ => 0) : s'.Orderly := by
  apply h.call ht hh hq.current hq.state hq.trampoline
  · exact h.sound.calm hq.toQuiet.calm (hq.current ▸ h.sound.current)
  · exact h.ends.congr hq.handles hq.pipes
  · exact hp

theorem pipe (h : s.Orderly) {f0 f1 p fdarray : ℕ} {r : ℤ} (hfresh : s.pipes p = none)
    (hsafe : (FileCall.pipe f0 f1 p fdarray).Safe s)
    (hok : sysPipe f0 f1 p fdarray s = .ok (r, s')) : s'.Orderly := by
  have hs : s'.Sound := FileCall.run_sound (c := .pipe f0 f1 p fdarray) h.sound h.live hsafe
    (forget_ok.mpr ⟨r, hok⟩)
  obtain ⟨ht, hh⟩ := sysPipe_turn h.owned (h.housed _ h.live) h.sound.current hsafe hok
  obtain ⟨fds, s₁, ram, hpipe, -, rfl⟩ := sysPipe_ok h.sound.current hok hsafe
  have ho := FilesOnly.createPipe hpipe
  apply h.call ht hh ho.current
  · exact ho.proc (π := Proc.state) fun _ _ => rfl
  · exact ho.trampoline
  · exact hs
  · exact (h.ends.createPipe hfresh hpipe).congr rfl rfl
  · exact (h.pool.same ho.samePool).same ⟨rfl, rfl, rfl, rfl⟩

theorem fork (h : s.Orderly) {r : ℤ}
    (hroom : s.freeTaskSlot = none ∨ s.ram.freeList = [] ∨ 4 ≤ s.ram.freeList.length)
    (hok : fork s = .ok (r, s')) : s'.Orderly := by
  rcases h.owned.fork_cases hok with rfl | ⟨child, hfork⟩
  · exact h
  obtain ⟨hslot, hne, hcur, hother, hchild, -, frame, ram, ram₁, ram₂, ram₃, -, hcopy⟩ :=
    fork_spec h.running hfork
  have hlen : 4 ≤ s.ram.freeList.length := by
    rcases hroom with hnone | hnil | hlen
    · rw [hslot] at hnone
      cases hnone
    · have hzero := (alloc_eq_zero_iff h.owned.wf).mpr hnil
      rw [hcopy.alloc] at hzero
      exact absurd hzero hcopy.frame_ne
    · exact hlen
  obtain ⟨ht, hh⟩ := h.owned.fork_turn h.pool (h.housed _ h.live).1 h.running hlen hfork
  obtain ⟨hp, he, htramp⟩ := fork_keeps h.pool h.ends hfork
  apply h.turn ht _ hh (fun i hi => by rw [hother i hi]) _ htramp (fork_sound h.sound hok) he hp
  · unfold Live
    rw [hchild.state]
    decide
  · unfold myTask
    rw [hcur, hother _ hne.symm]
    exact h.running

theorem load (h : s.Orderly) {va : ℕ} {b : Bool} (hok : loadIfValid va s = .ok (b, s')) :
    s'.Orderly := by
  obtain ⟨ht, hh⟩ := loadIfValid_turn h.owned (h.housed _ h.live) h.pool hok
  have hram := loadIfValid_onRam hok
  exact h.memory (.onRam hram) ht hh (h.pool.same (.onRam hram))

theorem run (h : s.Orderly) {u : UserCall} (hfresh : u.Fresh s) (htame : u.Tame s)
    (hok : u.run s = .ok ((), s')) : s'.Orderly := by
  have hh := h.housed _ h.live
  cases u with
  | openat fp found flags =>
    obtain ⟨r, hcall⟩ := forget_ok.mp hok
    exact h.files (.sysOpenat hcall) (h.sound.moved h.live (sysOpenat_moved h.sound.current hcall))
      (h.ends.sysOpenat hcall)
  | dup fd =>
    obtain ⟨r, hcall⟩ := forget_ok.mp hok
    exact h.files (.sysDup hcall) (h.sound.moved h.live (sysDup_moved h.sound.current hcall))
      (h.ends.sysDup hcall)
  | pipe f0 f1 p fdarray =>
    obtain ⟨r, hcall⟩ := forget_ok.mp hok
    exact h.pipe hfresh htame hcall
  | mmap addr length prot flags fd =>
    obtain ⟨a, hcall⟩ := forget_ok.mp hok
    obtain ⟨b, s₁, hload, hcall⟩ := bind_eq_ok.mp hcall
    have h₁ := h.load hload
    have hmay : s₁.machine.MayMap (toInt32 length) (toInt32 flags) := by
      rw [loadIfValid_eq hload]
      exact htame
    have hsame := mapVma_sameFrames h₁.pool hcall
    exact h₁.memory (.mapVma h₁.pool hcall) (hsame.turn h₁.owned _)
      ((h₁.housed _ h₁.live).of_eq (hsame.root _) (hsame.frame _))
      (h₁.pool.mapVma h₁.sound.current (toInt32_bounds _).1 hmay hcall)
  | munmap addr =>
    obtain ⟨z, hcall⟩ := forget_ok.mp hok
    obtain ⟨b, s₁, hload, hcall⟩ := bind_eq_ok.mp hcall
    have h₁ := h.load hload
    obtain ⟨ht, hh'⟩ := unmapVma_turn h₁.owned (h₁.housed _ h₁.live) h₁.pool hcall
    exact h₁.memory (.unmapVma hcall) ht hh' (h₁.pool.unmapVma hcall)
  | exec found path argv behind junk =>
    obtain ⟨r, hcall⟩ := forget_ok.mp hok
    obtain ⟨ht, hh'⟩ := exec_turn h.owned hh hcall
    exact h.memory (FilesSame.keeps_exec _ _ _ _ _ .refl hcall) ht hh'
      (h.pool.exec h.sound.current htame hcall)
  | fork =>
    obtain ⟨r, hcall⟩ := forget_ok.mp hok
    exact h.fork htame hcall
  | fault va =>
    obtain ⟨b, hcall⟩ := forget_ok.mp hok
    exact h.load hcall

theorem dispatch (h : s.Orderly) {σ : ℕ → ProcState} (hj : j < ntask) (hrun : σ j = .running)
    (hσ : ∀ i, σ i = (s.taskTable i).state ∨ s.Live i ∧ (σ i).Live) : (s.dispatch j σ).Orderly := by
  have hlive : ∀ i, (s.dispatch j σ).Live i ↔ s.Live i := by
    intro i
    change (σ i ≠ _ ∧ σ i ≠ _) ↔ _
    rcases hσ i with he | ⟨hl, hl'⟩
    · rw [he]
      rfl
    · exact iff_of_true hl' hl
  have hsame : SameFrames s (s.dispatch j σ) := ⟨rfl, fun _ => rfl, fun _ => rfl⟩
  constructor
  · exact h.sound.calm ⟨rfl, fun _ => rfl, fun i => (hlive i).mpr⟩ hj
  · exact hrun
  · exact h.ends.congr rfl rfl
  · refine (hsame.turn h.owned s.current).owned h.owned rfl (fun i hi => ?_) h.owned.aligned
    apply h.owned.unused i
    rcases hσ i with he | ⟨-, hl⟩
    · exact he.symm.trans hi
    · exact absurd hi hl.1
  · exact fun i hi => h.housed i ((hlive i).mp hi)
  · exact h.pool.of_le (fun _ _ hk => hk) rfl fun _ => le_rfl

theorem exit (h : s.Orderly) (hne : s.current ≠ initTask) (onChan : ℕ → Bool) :
    ∃ s', exit onChan s = .ok ((), s') ∧ Exited s s' := by
  have hroot := (h.housed _ h.live).1
  exact exit_total onChan hne h.sound h.live h.ends
    ⟨h.pool, h.owned.wf, (h.owned.alive _).space hroot, (h.owned.alive _).top hroot⟩

end Orderly

/-- The kernel when the first process starts: it has its memory and nothing is open or mapped. -/
structure Startup (s : System) : Prop where
  booted : s.Booted
  running : s.myTask.state = .running
  owned : s.Owned
  housed : ∀ i, s.Live i → s.Housed i
  unmapped : ∀ i k, (s.taskTable i).task.vma k = none
  iref : ∀ ip, 0 ≤ s.iref ip

theorem Startup.orderly (h : s.Startup) : s.Orderly where
  sound := h.booted.sound
  running := h.running
  ends := by
    constructor
    · intro fp f p b hf
      rw [h.booted.2.1] at hf
      cases hf
    · intro fp f p hf
      rw [h.booted.2.1] at hf
      cases hf
    · intro fp fq f g p b hf
      rw [h.booted.2.1] at hf
      cases hf
  owned := h.owned
  housed := h.housed
  pool := by
    have hnone : ∀ k p, s.place k ≠ some p := by
      intro k p hk
      unfold place at hk
      rw [h.unmapped] at hk
      cases hk
    refine ⟨fun k p hk => absurd hk (hnone k p), fun k l p hk => absurd hk (hnone k p),
      fun k p hk => absurd hk (hnone k p), h.owned.aligned, fun x => ?_⟩
    have hzero : s.inodeRefs x = 0 := by
      apply Slots.count_eq_zero
      intro k _ hk
      unfold inodeAt at hk
      obtain ⟨p, hp, -⟩ := Option.bind_eq_some_iff.mp hk
      exact hnone k p hp
    rw [hzero]
    exact h.iref x

end System

/-- A step of the whole system: the running process makes a call that `ok` allows, or the scheduler
switches to a process of its choice. -/
inductive UserStep (ok : System → UserCall → Prop) (s s' : System) : Prop
  | call (u : UserCall) (hfresh : u.Fresh s) (hok : ok s u) (h : u.run s = .ok ((), s'))
  | switch (j : ℕ) (σ : ℕ → ProcState) (hj : j < ntask) (hrun : σ j = .running)
      (hσ : ∀ i, σ i = (s.taskTable i).state ∨ s.Live i ∧ (σ i).Live) (h : s' = s.dispatch j σ)

/-- A call behind `argaddr` is two steps, of which the first loads a page. -/
theorem UserStep.behindArgaddr {ok : System → UserCall → Prop} {s s' : System} {u : UserCall} {va : ℕ}
    (hfault : ok s (.fault va)) (hfresh : ∀ ram, u.Fresh { s with ram := ram })
    (hok : ∀ b s₁, loadIfValid va s = .ok (b, s₁) → ok s₁ u)
    (h : StartOS.behindArgaddr va u.run s = .ok ((), s')) : ReflTransGen (UserStep ok) s s' := by
  obtain ⟨b, s₁, hload, hcall⟩ := behindArgaddr_eq_ok.mp h
  have hfresh₁ : u.Fresh s₁ := by
    rw [loadIfValid_eq hload]
    exact hfresh _
  exact .tail (.single (.call (.fault va) trivial hfault (forget_ok.mpr ⟨b, hload⟩)))
    (.call u hfresh₁ (hok b s₁ hload) hcall)

theorem UserStep.orderly {s s' : System} (h : UserStep (fun s u => u.Tame s) s s') (hs : s.Orderly) :
    s'.Orderly := by
  cases h with
  | call u hfresh hok h => exact hs.run hfresh hok h
  | switch j σ hj hrun hσ h =>
    subst h
    exact hs.dispatch hj hrun hσ

theorem System.Startup.orderly_of_run {s s' : System} (hs : s.Startup)
    (h : ReflTransGen (UserStep fun s u => u.Tame s) s s') : s'.Orderly := by
  induction h with
  | refl => exact hs.orderly
  | tail _ hstep ih => exact hstep.orderly ih

/-- After every run of calls that `exit` can cope with, every process but the first can exit. -/
theorem exit_completes {s s' : System} (hs : s.Startup)
    (h : ReflTransGen (UserStep fun s u => u.Tame s) s s') (hne : s'.current ≠ initTask)
    (onChan : ℕ → Bool) : ∃ s'', exit onChan s' = .ok ((), s'') ∧ s'.Exited s'' :=
  (hs.orderly_of_run h).exit hne onChan

section FirstProcess

open MemAllocator

variable {s₁ : System} {root : ℕ} {ram : MemAllocator}

def firstProcess : System :=
  let s := oneProcess []
  { s with taskTable := fun i =>
      if i = initTask then { s.taskTable i with cwd := some 1 } else (bootSystem []).taskTable i }

/-- It has the page table `root` in the memory `ram`. -/
def firstWith (ram : MemAllocator) (root : ℕ) : System :=
  { bootSystem [] with
    ram := ram
    taskTable := fun i => if i = initTask then
      { (bootSystem []).taskTable i with
        cwd := some 1
        trapframe := 0x80400000
        task := { ((bootSystem []).taskTable i).task with pagetable := root } }
      else (bootSystem []).taskTable i }

theorem firstProcess_eq : ∃ root ram,
    NewTable (bootSystem ((List.range 9).map fun i => 0x80300000 + 4096 * i)).ram ram root ∧
      root ≠ 0 ∧ firstProcess = firstWith ram root := by
  obtain ⟨root, ram, hnew, hne, heq⟩ := oneProcess_eq []
  refine ⟨root, ram, hnew, hne, ?_⟩
  unfold firstProcess
  rw [heq]
  rfl

theorem firstWith_of_ne {i : ℕ} (hi : i ≠ initTask) :
    (firstWith ram root).taskTable i = (bootSystem []).taskTable i := if_neg hi

theorem firstWith_state (i : ℕ) :
    ((firstWith ram root).taskTable i).state = if i = initTask then .running else .unused := by
  by_cases hi : i = initTask
  · subst hi
    rfl
  · rw [firstWith_of_ne hi]
    rfl

theorem firstWith_startup
    (hnew : NewTable (bootSystem ((List.range 9).map fun i => 0x80300000 + 4096 * i)).ram ram root)
    (hne : root ≠ 0) : (firstWith ram root).Startup := by
  have hfree : ∀ p, p ∈ ram.footprint root ∨ p ∈ ram.freeList →
      p ∈ (List.range 9).map fun i => 0x80300000 + 4096 * i := fun p hp =>
    (hnew.moves.frames p hp).resolve_left (Set.notMem_empty p)
  have hframe : 0x80400000 ∉ (List.range 9).map fun i => 0x80300000 + 4096 * i := by decide
  have hpage : ram.IsPage 0x80400000 := by
    have hkend : ram.kend = 0x80200000 := hnew.moves.kend
    exact ⟨by decide, by rw [hkend]; norm_num, by decide⟩
  have hnone : ∀ i, i ≠ initTask →
      (firstWith ram root).root i = 0 ∧ (firstWith ram root).frame i = 0 := by
    intro i hi
    unfold System.root System.frame
    rw [firstWith_of_ne hi]
    exact ⟨rfl, rfl⟩
  have hempty : ∀ i, i ≠ initTask → ∀ p, p ∉ (firstWith ram root).owned i := by
    rintro i hi p (⟨hr, -⟩ | ⟨hf, -⟩)
    · exact hr (hnone i hi).1
    · exact hf (hnone i hi).2
  have hlive : ∀ i, (firstWith ram root).Live i → i = initTask := by
    rintro i ⟨hstate, -⟩
    by_contra hi
    exact hstate ((firstWith_state i).trans (if_neg hi))
  have hslot : ∀ i, ((firstWith ram root).taskTable i).task.vma = fun _ => none := by
    intro i
    by_cases hi : i = initTask
    · subst hi
      rfl
    · rw [firstWith_of_ne hi]
      rfl
  have hfiles : ∀ i, ((firstWith ram root).taskTable i).task.openFiles = fun _ => none := by
    intro i
    by_cases hi : i = initTask
    · subst hi
      rfl
    · rw [firstWith_of_ne hi]
      rfl
  refine ⟨⟨(by decide : initTask < ntask), fun _ => rfl, fun i fd => by rw [hfiles]⟩, rfl,
    ⟨hnew.moves.wf, ?_, fun i => ?_,
    fun i j hij p hp hp' => ?_, fun i hi => ?_, fun _ => rfl⟩, fun i hi => ?_, fun i k => by rw [hslot],
    fun _ => Int.one_nonneg⟩
  · exact (by norm_num : 0x80020000 < 2 ^ 64)
  · by_cases hi : i = initTask
    · subst hi
      exact ⟨fun _ => hnew.space, fun _ => hnew.top, fun _ => hpage,
        fun _ hp => hframe (hfree _ (Or.inr hp)), fun _ hp => hframe (hfree _ (Or.inl hp.2))⟩
    · obtain ⟨hr, hf⟩ := hnone i hi
      exact ⟨fun h => absurd hr h, fun h => absurd hr h, fun h => absurd hf h, fun h => absurd hf h,
        fun h => absurd hf h⟩
  · by_cases hi : i = initTask
    · exact hempty j (fun hj => hij (hi.trans hj.symm)) p hp'
    · exact hempty i hi p hp
  · apply hnone i
    rintro rfl
    cases hi
  · rw [hlive i hi]
    exact ⟨hne, (by norm_num : 0x80400000 ≠ 0)⟩

theorem firstProcess_startup : firstProcess.Startup := by
  obtain ⟨root, ram, hnew, hne, heq⟩ := firstProcess_eq
  rw [heq]
  exact firstWith_startup hnew hne

def childRuns (i : ℕ) : ProcState :=
  if i = 2 then .running else if i = initTask then .runnable else .unused

theorem firstProcess_fork {ok : System → UserCall → Prop} (hok : ok firstProcess .fork)
    (hfork : fork firstProcess = .ok (2, s₁)) :
    ReflTransGen (UserStep ok) firstProcess (s₁.dispatch 2 childRuns) := by
  obtain ⟨-, -, -, hother, hchild, -⟩ := System.fork_spec firstProcess_startup.running
    (show fork firstProcess = .ok (((2 : ℕ) : ℤ), s₁) from hfork)
  obtain ⟨root, ram, -, -, heq⟩ := firstProcess_eq
  have hstate : ∀ i, i ≠ 2 → (s₁.taskTable i).state = if i = initTask then .running else .unused := by
    intro i hi
    rw [hother i hi, heq, firstWith_state]
  refine .tail (.single (.call .fork trivial hok (forget_ok.mpr ⟨2, hfork⟩))) ?_
  refine .switch 2 childRuns (by decide) rfl (fun i => ?_) rfl
  by_cases hi : i = 2
  · subst hi
    right
    unfold System.Live
    rw [hchild.state]
    decide
  · by_cases hinit : i = initTask
    · subst hinit
      right
      unfold System.Live
      rw [hstate _ hi]
      decide
    · left
      rw [hstate i hi, if_neg hinit]
      unfold childRuns
      rw [if_neg hi, if_neg hinit]

theorem exit_completes_firstProcess :
    ∃ s', ReflTransGen (UserStep fun s u => u.Tame s) firstProcess s' ∧
    s'.current = 2 ∧ (∃ p, s'.place (2, 0) = some p) ∧
    ∃ s'', exit (fun _ => false) s' = .ok ((), s'') ∧ s'.Exited s'' := by
  have hrun : (match fork firstProcess with
      | .ok (r, s₁) =>
        let s := s₁.dispatch 2 childRuns
        match (UserCall.mmap 0 4096 3 2 (-1)).run s with
        | .ok (_, s') => decide (r = 2 ∧ s.machine.vmaSum = 0 ∧ s'.current = 2 ∧
          s'.place (2, 0) = some 0)
        | .error _ => false
      | .error _ => false) = true := by decide +kernel
  split at hrun
  · rename_i r s₁ hfork
    dsimp only at hrun
    split at hrun
    · rename_i s' hmap
      obtain ⟨rfl, hsum, hcur, hplace⟩ := of_decide_eq_true hrun
      have htame : (UserCall.mmap 0 4096 3 2 (-1)).Tame (s₁.dispatch 2 childRuns) := by
        change Machine.MayMap _ _ _
        refine ⟨by decide, by decide, fun _ => ?_⟩
        rw [hsum]
        decide
      have hroom : UserCall.fork.Tame firstProcess := Or.inr (Or.inr (by decide +kernel))
      have hreach : ReflTransGen (UserStep fun s u => u.Tame s) firstProcess s' :=
        (firstProcess_fork hroom hfork).tail (.call (.mmap 0 4096 3 2 (-1)) trivial htame hmap)
      refine ⟨s', hreach, hcur, ⟨0, hplace⟩, exit_completes firstProcess_startup hreach ?_ _⟩
      rw [hcur]
      decide
    · cases hrun
  · cases hrun

/-- A child that has mapped a shared page cannot exit: the file of the mapping is null. -/
theorem exit_faults : firstProcess.Startup ∧ ∃ s',
    ReflTransGen (UserStep fun _ _ => True) firstProcess s' ∧
    s'.current ≠ initTask ∧ exit (fun _ => false) s' = .error .fault := by
  refine ⟨firstProcess_startup, ?_⟩
  have hrun : (match fork firstProcess with
      | .ok (r, s₁) =>
        match (UserCall.mmap 0 4096 3 1 (-1)).run (s₁.dispatch 2 childRuns) with
        | .ok (_, s') =>
          match exit (fun _ => false) s' with
          | .ok _ => false
          | .error e => decide (r = 2 ∧ s'.current = 2 ∧ e = .fault)
        | .error _ => false
      | .error _ => false) = true := by decide +kernel
  split at hrun
  · rename_i r s₁ hfork
    split at hrun
    · rename_i s' hmap
      split at hrun
      · cases hrun
      · rename_i e hexit
        obtain ⟨rfl, hcur, rfl⟩ := of_decide_eq_true hrun
        refine ⟨s', (firstProcess_fork trivial hfork).tail
          (.call (.mmap 0 4096 3 1 (-1)) trivial trivial hmap), ?_, hexit⟩
        rw [hcur]
        decide
    · cases hrun
  · cases hrun

end FirstProcess

end StartOS
