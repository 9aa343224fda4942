import StartOS.Os.ExecArgs

/-! # Gathering the arguments of `exec`

The limit test lets `argv` be filled to its end. The loops that free the strings
then read on behind it, or the null pointer is written there. With fewer pages
than places everything stays inside, and each page is given back.
-/

namespace StartOS

open MemAllocator Hoare Logged

variable {s s' s₁ : System} {k : ExecSurroundings} {ram : MemAllocator} {t : Task}
  {path : List UInt8} {uargv i n : ℕ} {a : ArgState}

namespace ArgM

theorem exec_release {β : Type} (g : ArgState → β) :
    (do
      releaseArgs n i
      return g (← get) : ArgM β).exec a =
      (((releaseArgs n i).exec a).1.map fun _ => g ((releaseArgs n i).exec a).2,
        ((releaseArgs n i).exec a).2) := by
  rw [exec_bind]
  rcases (releaseArgs n i).exec a with ⟨_ | _, a'⟩ <;> rfl

end ArgM

open ArgM

/-- With a null pointer in `argv` the loop that frees the strings stays inside and gives back what
was taken. -/
theorem Gathered.release_safe {m : ℕ} (h : Gathered ram m a) (hm : m < maxArg) (ram' : MemAllocator) :
    ∃ r a', (releaseArgs (maxArg + 1) 0).exec { a with ram := ram' } = (r, a') ∧
      (∀ j ∈ a'.touched, j < maxArg) ∧ ∀ v, r = .ok v → a'.released.Perm a'.taken := by
  obtain ⟨r, a', hrun, htouched, htaken, hreleased⟩ := releaseArgs_stops (i := 0) (k := m)
    (a := { a with ram := ram' }) (n := maxArg + 1) (fun j _ hj => (h.pages j hj).1)
    (h.rest m le_rfl hm) (Nat.zero_le m) (by omega)
  refine ⟨r, a', hrun, fun j hj => ?_, fun v hv => ?_⟩
  · rcases htouched j hj with hj | hj
    · exact (h.touched j hj).elim id fun hj => hj.trans_lt hm
    · exact hj.trans_lt hm
  · rw [hreleased v hv, htaken, Nat.sub_zero, ← List.range_eq_range']
    dsimp only
    rw [h.released, List.append_nil, h.taken]

theorem Gathered.release_reads {m : ℕ} (h : Gathered ram m a) (hm : maxArg ≤ m) :
    maxArg ∈ ((releaseArgs (maxArg + 1) 0).exec a).2.touched := by
  apply releaseArgs_reads
  · intro j _ hj
    obtain ⟨hne, hp⟩ := h.pages j (by omega)
    exact ⟨hne, hp.of_kend h.took.kend⟩
  · exact Nat.zero_le _
  · omega

/-- From its two parameters on, `sys_exec` stays inside `argv` and gives back what it took, or it
fills `argv` and goes beyond. -/
theorem execGathered_spec (hs : Space s.ram s.myTask.task.pagetable) (hw : s.ram.WellFormed)
    (path : List UInt8) (uargv : ℕ) :
    ∃ r a, (execGathered k path uargv s).exec (.start k s.ram) = (r, a) ∧
      ((¬s.myTask.task.FillsArgv s.ram uargv ∧ (∀ j ∈ a.touched, j < maxArg) ∧
          ∀ v, r = .ok v → a.released.Perm a.taken) ∨
        (s.myTask.task.FillsArgv s.ram uargv ∧ ∃ j ∈ a.touched, maxArg ≤ j)) := by
  obtain ⟨done, b, m, hrun, hg, hdone, -, hiff⟩ := gather_run hs hw (gathered_start k s.ram) uargv
    (show 0 + (maxArg + 1) = maxArg + 1 by omega)
  have hfills : s.myTask.task.FillsArgv s.ram uargv ↔ maxArg ≤ m :=
    ⟨fun h => hiff.mpr fun j _ => h j, fun h j => hiff.mp h j (Nat.zero_le j)⟩
  rw [hfills, execGathered, exec_bind_of_ok hrun]
  cases done with
  | false =>
    rw [if_neg (by decide)]
    refine ⟨_, _, exec_release _, ?_⟩
    rcases lt_or_ge m maxArg with hlt | hge
    · left
      obtain ⟨r, a', hrel, hin, hperm⟩ := hg.release_safe hlt b.ram
      rw [show (releaseArgs (maxArg + 1) 0).exec b = (r, a') from hrel]
      refine ⟨not_le.mpr hlt, hin, fun v hv => ?_⟩
      cases r with
      | error e => cases hv
      | ok u => exact hperm u rfl
    · exact .inr ⟨hge, maxArg, hg.release_reads hge, le_rfl⟩
  | true =>
    rw [if_pos rfl, exec_get_bind]
    have hbehind := hdone rfl
    cases hexec : execAbsolute k path b.strings { s with ram := b.ram } with
    | error e =>
      rw [exec_bind_of_error exec_ofExcept]
      refine ⟨_, _, rfl, ?_⟩
      rcases lt_or_ge m maxArg with hlt | hge
      · refine .inl ⟨not_le.mpr hlt, fun j hj => ?_, fun v hv => nomatch hv⟩
        exact (hg.touched j hj).elim id fun hj => hj.trans_lt hlt
      · exact .inr ⟨hge, m, hbehind, hge⟩
    | ok out =>
      obtain ⟨r, s'⟩ := out
      rw [exec_bind_of_ok exec_ofExcept, exec_set_bind]
      refine ⟨_, _, exec_release _, ?_⟩
      rcases lt_or_ge m maxArg with hlt | hge
      · left
        obtain ⟨r, a', hrel, hin, hperm⟩ := hg.release_safe hlt s'.ram
        rw [hrel]
        refine ⟨not_le.mpr hlt, hin, fun v hv => ?_⟩
        cases r with
        | error e => cases hv
        | ok u => exact hperm u rfl
      · exact .inr ⟨hge, m, steps_releaseArgs _ m hbehind, hge⟩

/-- A load keeps the address space of the process, whatever comes of it. -/
theorem Task.Ready.load {ram' : MemAllocator} {contents : ℕ → List UInt8} {vmaTable : ℕ → Vma}
    {va : ℕ} {b : Bool} (h : t.Ready vmaTable ram)
    (hrun : t.loadIfValid contents vmaTable va ram = .ok (b, ram')) : t.Ready vmaTable ram' := by
  rcases loadIfValid_spec h.space h.wellFormed h.top h.aligned
      (fun perm b hf => (h.faultPage_some hf).1) with
    ⟨-, he⟩ | ⟨-, perm, byte, hf, ⟨e, he, -⟩ | ⟨hva, s', he, hload⟩⟩
  · rw [he] at hrun
    cases hrun
    exact h
  · rw [he] at hrun
    cases hrun
  · rw [he] at hrun
    cases hrun
    exact { h with
      space := hload.acts.space
      wellFormed := hload.acts.moves.wf
      top := hload.top hva h.top }

def System.CopyReady (s : System) : Prop := s.myTask.task.Ready s.vmaTable s.ram

theorem argaddr_ready {v : ℕ} (h : s.CopyReady) (hrun : argaddr n s = .ok (v, s')) :
    s'.CopyReady := by
  unfold argaddr at hrun
  rw [get_bind] at hrun
  obtain ⟨b, s₁, hload, hrest⟩ := bind_eq_ok.mp hrun
  obtain rfl : s₁ = s' := by
    rw [pure_apply] at hrest
    exact congrArg Prod.snd (Except.ok.inj hrest)
  unfold loadIfValid at hload
  rw [get_bind] at hload
  obtain ⟨-, hcall⟩ := onRam_sameTables hload
  rw [onRam_of_ok hcall] at hload
  have heq : { s with ram := s₁.ram } = s₁ := congrArg Prod.snd (Except.ok.inj hload)
  rw [← heq]
  exact h.load hcall

theorem execParams_ready (h : s.CopyReady) (hrun : execParams k s = .ok (some (path, uargv), s₁)) :
    s₁.CopyReady := by
  unfold execParams at hrun
  obtain ⟨addr, s₂, harg, hrest⟩ := bind_eq_ok.mp hrun
  rw [get_bind] at hrest
  obtain ⟨⟨m, buf⟩, s₃, hfetch, hgoes⟩ := bind_eq_ok.mp hrest
  obtain rfl : s₃ = s₂ := by
    cases hstr : s₂.myTask.task.fetchstr s₂.ram addr k.path maxPath with
    | error e =>
      rw [hstr] at hfetch
      cases hfetch
    | ok out =>
      rw [hstr] at hfetch
      cases hfetch
      rfl
  dsimp only at hgoes
  split at hgoes
  · cases hgoes
  · obtain ⟨v, s₄, harg', hends⟩ := bind_eq_ok.mp hgoes
    have hready := argaddr_ready (argaddr_ready h harg) harg'
    split at hends
    · cases hends
    · cases hends
      exact hready

/-- Once `sys_exec` has its parameters, gathering is safe if and only if `argv` is not filled. -/
theorem gathersSafely_of_params (h : s.CopyReady)
    (hparams : execParams k s = .ok (some (path, uargv), s₁)) :
    GathersSafely k s ↔ ¬s₁.myTask.task.FillsArgv s₁.ram uargv := by
  have hready := execParams_ready h hparams
  obtain ⟨r, a, hrun, hspec⟩ := execGathered_spec (k := k) hready.space hready.wellFormed path uargv
  unfold GathersSafely sysExec
  simp only [hparams, hrun, Prod.map, Option.some.injEq, forall_eq']
  constructor
  · rintro ⟨hin, -⟩ hfills
    rcases hspec with ⟨hnot, -⟩ | ⟨-, j, hj, hle⟩
    · exact hnot hfills
    · exact absurd (hin j hj) (not_lt.mpr hle)
  · intro hnot
    rcases hspec with ⟨-, hin, hperm⟩ | ⟨hfills, -⟩
    · exact ⟨hin, hperm⟩
    · exact absurd hfills hnot

/-- Gathering the arguments of `exec` is safe if and only if, when it begins, they are fewer than
`argv` has places. -/
theorem gathersSafely_iff (k : ExecSurroundings) (s : System) (h : s.CopyReady) :
    GathersSafely k s ↔ ∀ path uargv s₁, execParams k s = .ok (some (path, uargv), s₁) →
      ¬s₁.myTask.task.FillsArgv s₁.ram uargv := by
  constructor
  · intro hsafe path uargv s₁ hparams
    exact (gathersSafely_of_params h hparams).mp hsafe
  · intro hall
    cases hparams : execParams k s with
    | error e =>
      intro a ha
      rw [sysExec, hparams] at ha
      cases ha
    | ok out =>
      obtain ⟨_ | ⟨path, uargv⟩, s₁⟩ := out
      · intro a ha
        rw [sysExec, hparams] at ha
        cases ha
      · exact (gathersSafely_of_params h hparams).mpr (hall path uargv s₁ hparams)

/-- A page of a process: the path `/a` at 16, the empty string at 24, and from 32 on an array of 64
pointers to that string. -/
def argsPage (j : ℕ) : UInt8 :=
  if j = 16 then slash
  else if j = 17 then 0x61
  else if 32 ≤ j ∧ j < 544 ∧ j % 8 = 0 then 24
  else 0

/-- The memory with 80 free frames and the arguments of `exec` in the trapframe. -/
def argsRam (uargv : ℕ) : MemAllocator where
  kend := 0x80200000
  mem := (ByteMem.writeLE (fun _ => 0) 0x80400070 8 16).writeLE 0x80400078 8 uargv
  freeList := (List.range 80).map fun i => 0x80300000 + 4096 * i
  npage := 80

def argsProcess (uargv : ℕ) : System :=
  match (argsRam uargv).taskPagetable 0x80020000 0x80400000 with
  | .error _ => bootSystem []
  | .ok (root, ram) =>
    match ram.userAlloc root 0 4096 with
    | .error _ => bootSystem []
    | .ok (_, ram) => { bootSystem [] with
      ram := { ram with mem := ram.mem.blit ((ram.userFrame root 0).getD 0) pgSize argsPage }
      taskTable := fun i => { (bootSystem []).taskTable i with
        trapframe := 0x80400000
        task := ⟨root, fun _ => none, fun _ => none, 4096⟩ } }

theorem argsProcess_ready (uargv : ℕ) : (argsProcess uargv).CopyReady := by
  have hw : (argsRam uargv).WellFormed := by
    refine ⟨(by decide : 0 < 0x80200000),
      List.nodup_range.map fun i j h => by omega, fun p hp => ?_⟩
    have hall : ∀ p ∈ (List.range 80).map fun i => 0x80300000 + 4096 * i,
        p % pgSize = 0 ∧ 0x80200000 ≤ p ∧ p < physTop := by decide
    obtain ⟨h₁, h₂, h₃⟩ := hall p hp
    exact ⟨h₁, h₂, h₃⟩
  have hvals : userTop = 274877898752 ∧ maxVa = 274877906944 ∧ pgSize = 4096 := by decide
  rcases taskPagetable_spec hw (show 0x80020000 < 2 ^ 64 by norm_num)
    (show 0x80400000 < 2 ^ 64 by norm_num) with ⟨hfew, -⟩ | ⟨root, ram, he, -, hnew⟩
  · exact absurd hfew (by simp [argsRam])
  have hv : ¬isValid (ram.leaf root 0) := by
    intro hv
    have := hnew.space.kernel 0 (by omega) hv (hnew.user 0 (by omega))
    omega
  have hroom : 3 ≤ ram.freeList.length := by
    have hcost := hnew.cost
    have hlen : (argsRam uargv).freeList.length = 80 := by simp [argsRam]
    omega
  obtain ⟨ram', he', hmaps⟩ := hnew.space.userAlloc_page (z := 0) hnew.moves.wf (by decide) (by omega)
    hv hroom
  have he₀ : ram.userAlloc root 0 4096 = .ok (0 + pgSize, ram') := he'
  obtain ⟨p, hp, -⟩ := hmaps.frame 0 (by omega) le_rfl (by omega)
  have hs := hmaps.acts.space
  have hmem : ∀ l n, l.length ≤ 2 → ram'.node root l = some n → ∀ x, n ≤ x → x < n + pgSize →
      ram'.mem.blit p pgSize argsPage x = ram'.mem x := by
    intro l n hl hn x hx hx'
    have hne : n ≠ p := by
      rintro rfl
      exact hs.notNode 0 (by omega) n hp l hl hn
    exact ByteMem.blit_of_not_mem ((hs.table.isPage l n hl hn).disjoint
      (hs.isPage 0 (by omega) p hp) hne hx hx')
  obtain ⟨hspace, -, hleaf⟩ := hs.of_agree
    (show ({ ram' with mem := ram'.mem.blit p pgSize argsPage } : MemAllocator).kend = ram'.kend
      from rfl) (fun q hq => hs.footprint_taken hq) hmem
  unfold argsProcess
  rw [he]
  dsimp only
  rw [he₀]
  dsimp only
  rw [hp, Option.getD_some]
  constructor
  · exact hspace
  · exact ⟨hmaps.acts.moves.wf.kend_pos, hmaps.acts.moves.wf.nodup, fun q hq =>
      (hmaps.acts.moves.wf.isPage q hq).of_kend rfl⟩
  · intro va hva htop
    change isValid (MemAllocator.leaf { ram' with mem := _ } root va)
    rw [hleaf, hmaps.outside va hva (by omega)]
    exact hnew.top va hva htop
  · rintro j p ⟨⟩
  · rintro j p ⟨⟩
  · rintro j p ⟨⟩
  · exact (by decide : (0 : ℤ) ≤ 4096)
  · exact (by decide : (4096 : ℤ) < 2 ^ 31)

/-- The array at `uargv` has `m` pointers to empty strings and then a null pointer. -/
def emptyArgs (t : Task) (ram : MemAllocator) (uargv m : ℕ) : Bool :=
  decide (m ≤ ram.freeList.length) && ((List.range m).all fun j =>
    match t.execArg ram uargv j with
    | .ok (some p) => decide (p ≠ 0 ∧ ram.userChar t.pagetable p = some 0)
    | _ => false) && match t.execArg ram uargv m with
    | .ok (some 0) => true
    | _ => false

theorem fillsArgv_of_emptyArgs {m : ℕ} (h : emptyArgs t ram uargv m = true) :
    t.FillsArgv ram uargv ↔ maxArg ≤ m := by
  unfold emptyArgs at h
  simp only [Bool.and_eq_true, decide_eq_true_eq, List.all_eq_true, List.mem_range] at h
  obtain ⟨⟨hroom, hall⟩, hnull⟩ := h
  constructor
  · intro hfills
    by_contra hlt
    obtain ⟨-, p, hp, harg, -⟩ := hfills m (not_le.mp hlt)
    rw [harg] at hnull
    split at hnull
    · rename_i heq
      cases heq
      exact hp rfl
    · cases hnull
  · intro hle j hj
    have hj' := hall j (by omega)
    split at hj'
    · rename_i p harg
      obtain ⟨hp, hnul⟩ := of_decide_eq_true hj'
      exact ⟨by omega, p, hp, harg, fun _ => ⟨0, by decide, fun i hi => absurd hi (Nat.not_lt_zero i),
        hnul⟩⟩
    · cases hj'

def nothingFound : ExecSurroundings where
  found _ := none
  env _ := none
  path _ := 0
  ustack _ := 0
  behind _ := 0

/-- The process has `m` empty strings as arguments when `sys_exec` begins to gather them. -/
def hasArgs (uargv m : ℕ) : Bool :=
  match execParams nothingFound (argsProcess uargv) with
  | .ok (some (_, u), s₁) => decide (u = uargv) && emptyArgs s₁.myTask.task s₁.ram uargv m
  | _ => false

theorem execParams_of_hasArgs {m : ℕ} (h : hasArgs uargv m = true) : ∃ path s₁,
    execParams nothingFound (argsProcess uargv) = .ok (some (path, uargv), s₁) ∧
      (s₁.myTask.task.FillsArgv s₁.ram uargv ↔ maxArg ≤ m) := by
  unfold hasArgs at h
  split at h
  · rename_i path u s₁ hparams
    rw [Bool.and_eq_true, decide_eq_true_eq] at h
    obtain ⟨rfl, hargs⟩ := h
    exact ⟨path, s₁, hparams, fillsArgv_of_emptyArgs hargs⟩
  · cases h

theorem gathersSafely_one : GathersSafely nothingFound (argsProcess 536) := by
  refine (gathersSafely_iff nothingFound _ (argsProcess_ready 536)).mpr fun path uargv s₁ hrun => ?_
  obtain ⟨path', s₂, hparams, hiff⟩ :=
    execParams_of_hasArgs (show hasArgs 536 1 = true by decide +kernel)
  rw [hparams] at hrun
  cases hrun
  rw [hiff]
  decide

/-- With 64 arguments the null pointer behind them is written behind `argv`. -/
theorem not_gathersSafely_sixtyFour : (argsProcess 32).CopyReady ∧
    ¬GathersSafely nothingFound (argsProcess 32) := by
  have hready := argsProcess_ready 32
  obtain ⟨path, s₁, hparams, hiff⟩ :=
    execParams_of_hasArgs (show hasArgs 32 64 = true by decide +kernel)
  refine ⟨hready, ?_⟩
  rw [gathersSafely_of_params hready hparams, hiff]
  decide

end StartOS
