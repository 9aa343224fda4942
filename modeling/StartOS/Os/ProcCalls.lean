import StartOS.Os.ProcTable
import StartOS.Os.SlotFrame

/-! # The calls as steps of the process table

`fork`, `exit`, `wait` and `wait4` of the whole kernel, run without interruption,
do to the slots of `taskTable` what steps of the process table do.
-/

namespace StartOS

open Hoare Relation

namespace ProcTable

variable {t : ProcTable} {i k : ℕ}

theorem state_adopt : ((t.adopt i).entry k).state = (t.entry k).state := by
  simp only [adopt]
  split <;> rfl

theorem scan_run (hi : (t.entry i).state = .running) {k : ℕ} (hk : k + 1 ≤ ntask)
    (hused : ∀ j, 1 ≤ j → j < k + 1 → (t.entry j).state ≠ .unused) :
    ReflTransGen Step (t.goto i (.scanning 1)) (t.goto i (.scanning (k + 1))) := by
  induction k with
  | zero => exact .refl
  | succ k ih =>
    refine (ih (Nat.le_of_succ_le hk) fun j h₁ h₂ => hused j h₁ (Nat.lt_succ_of_lt h₂)).tail ?_
    have hstep := Step.scanNext (t.goto i (.scanning (k + 1))) i hi
      (Function.update_self ..) hk
      (hused (k + 1) (Nat.succ_le_succ (Nat.zero_le k)) (Nat.lt_succ_self (k + 1)))
    rwa [goto_goto] at hstep

theorem fork_run (hi : (t.entry i).state = .running) (hp : t.pos i = .user)
    (hfree : (t.entry k).state = .unused) (hk₁ : 1 ≤ k) (hk : k < ntask)
    (hused : ∀ j, 1 ≤ j → j < k → (t.entry j).state ≠ .unused) :
    ReflTransGen Step t ⟨Function.update t.entry k ⟨.runnable, some i, (t.entry k).xstate⟩, t.pos,
      t.log ++ [.given i k, .born i k]⟩ := by
  have hne : i ≠ k := by
    rintro rfl
    rw [hfree] at hi
    cases hi
  have hscan : ReflTransGen Step t (t.goto i (.scanning k)) := by
    obtain ⟨k, rfl⟩ : ∃ k', k = k' + 1 := ⟨k - 1, by omega⟩
    exact .trans (.single (.callFork t i hi hp)) (scan_run hi (Nat.le_of_lt hk) hused)
  have hfound := Step.scanFound (t.goto i (.scanning k)) i hi (Function.update_self ..) hk hfree
  rw [goto_goto] at hfound
  have hlink := Step.link ((t.goto i (.copying k)).note (.given i k)) i hi (Function.update_self ..)
  have hi' : (Function.update t.entry k { t.entry k with parent := some i } i).state = .running := by
    rwa [Function.update_of_ne hne]
  have hstart := Step.start ((((t.goto i (.copying k)).note (.given i k)).goto i (.linked k)).set k
    { t.entry k with parent := some i }) i hi' (Function.update_self ..)
  have hpos : Function.update t.pos i .user = t.pos := by rw [← hp, Function.update_eq_self]
  have hend := ((hscan.tail hfound).tail hlink).tail hstart
  simp only [goto, set, note, Function.update_idem, Function.update_self, hpos,
    List.append_assoc] at hend
  exact hend

end ProcTable

namespace System

variable {s s' s'' s₀ : System} {i : ℕ}

def entries (s : System) (i : ℕ) : Entry :=
  ⟨(s.taskTable i).state, (s.taskTable i).parent, (s.taskTable i).xstate⟩

abbrev Still (s s' : System) : Prop :=
  Alike (fun p : Proc => (⟨p.state, p.parent, p.xstate⟩ : Entry)) s s'

theorem Alike.entries (h : Still s s') : s'.entries = s.entries := funext h.slots

theorem blind_entry : Blind fun p : Proc => (⟨p.state, p.parent, p.xstate⟩ : Entry) :=
  fun _ _ _ _ => rfl

theorem entries_setProc {p : Proc} :
    (s.setProc i p).entries = Function.update s.entries i ⟨p.state, p.parent, p.xstate⟩ := by
  funext j
  by_cases hj : j = i
  · subst hj
    rw [Function.update_self, System.entries, setProc_self]
  · rw [Function.update_of_ne hj, System.entries, setProc_of_ne hj]
    rfl

def table (s : System) (pos : ℕ → CallPos) (log : List ProcEvent) : ProcTable := ⟨s.entries, pos, log⟩

variable {pos : ℕ → CallPos} {log : List ProcEvent}

theorem Alike.table (h : Still s s') : s'.table pos log = s.table pos log := by
  rw [System.table, Alike.entries h]
  rfl

/-- The table behind `argaddr` is the one in front of it. -/
theorem table_of_load {va : ℕ} {b : Bool} (h : loadIfValid va s = .ok (b, s')) :
    s'.table pos log = s.table pos log := by
  rw [loadIfValid_eq h]
  rfl

section Fork

theorem freeTaskSlot_eq_some {k : ℕ} (h : s.freeTaskSlot = some k) :
    (s.entries k).state = .unused ∧ 1 ≤ k ∧ k < ntask ∧
      ∀ j, 1 ≤ j → j < k → (s.entries j).state ≠ .unused := by
  rw [freeTaskSlot, List.find?_range'_eq_some, List.mem_range'_1, decide_eq_true_iff] at h
  obtain ⟨hk, hmem, hbefore⟩ := h
  have hn : ntask = 50 := rfl
  refine ⟨hk, hmem.1, by omega, fun j h₁ h₂ hj => ?_⟩
  have hno := hbefore j h₁ h₂
  rw [Bool.not_eq_true', decide_eq_false_iff_not] at hno
  exact hno hj

theorem copyRecord_entries {child : ℕ} (h : copyRecord child s = .ok ((), s')) :
    s'.current = s.current ∧ s'.entries =
      Function.update s.entries child { s.entries child with parent := some s.current } := by
  rw [copyRecord, get_bind] at h
  cases hcwd : s.myTask.cwd with
  | none =>
    simp only [hcwd] at h
    cases h
  | some ip =>
    simp only [hcwd] at h
    cases h
    exact ⟨rfl, entries_setProc⟩

theorem nameChild_entries {child : ℕ} (h : nameChild child s = .ok ((), s')) :
    s'.current = s.current ∧ s'.entries =
      Function.update s.entries child { s.entries child with state := .runnable } := by
  rw [nameChild, get_bind] at h
  cases h
  exact ⟨rfl, entries_setProc⟩

/-- `fork` gives the first free slot to the child, or changes nothing. -/
theorem fork_run {r : ℤ} (hrun : (s.entries s.current).state = .running)
    (hpos : pos s.current = .user) (h : fork s = .ok (r, s')) :
    (r = -1 ∧ s'.table pos log = s.table pos log) ∨
      ∃ k : ℕ, r = k ∧ ReflTransGen ProcTable.Step (s.table pos log)
        (s'.table pos (log ++ [.given s.current k, .born s.current k])) := by
  rw [fork] at h
  obtain ⟨r', s₁, halloc, h₁⟩ := bind_eq_ok.mp h
  obtain ⟨hs₁, hr'⟩ := allocTask_alike blind_entry halloc
  cases r' with
  | none =>
    cases h₁
    exact .inl ⟨rfl, hs₁.table⟩
  | some k =>
    have hk : s.freeTaskSlot = some k := by
      rcases hr' with hr' | hr'
      · exact hr'.symm
      · cases hr'
    obtain ⟨hfree, hk₁, hkn, hbefore⟩ := freeTaskSlot_eq_some hk
    obtain ⟨⟨⟩, s₂, hmem, h₂⟩ := bind_eq_ok.mp h₁
    have hs₂ : Still s s₂ := alike_copyMemory k hs₁ hmem
    obtain ⟨⟨⟩, s₃, hrec, h₃⟩ := bind_eq_ok.mp h₂
    obtain ⟨hcur, hent⟩ := copyRecord_entries hrec
    rw [get_bind] at h₃
    obtain ⟨⟨⟩, s₄, hfiles, h₄⟩ := bind_eq_ok.mp h₃
    obtain ⟨⟨⟩, s₅, hvmas, h₅⟩ := bind_eq_ok.mp h₄
    have hs₅ : Still s₃ s₅ := alike_dupVmas blind_entry _ k _
      (alike_dupFiles blind_entry _ k _ .refl hfiles) hvmas
    obtain ⟨⟨⟩, s₆, hname, h₆⟩ := bind_eq_ok.mp h₅
    obtain ⟨-, hent'⟩ := nameChild_entries hname
    cases h₆
    refine .inr ⟨k, rfl, ?_⟩
    have hend : s'.entries = Function.update s.entries k
        ⟨.runnable, some s.current, (s.entries k).xstate⟩ := by
      rw [hent', hs₅.entries, hent, hs₂.entries, hs₂.current, Function.update_idem,
        Function.update_self]
    unfold System.table
    rw [hend]
    exact ProcTable.fork_run (t := s.table pos log) hrun hpos hfree hk₁ hkn hbefore

end Fork

section Exit

theorem wakeup_entries {p : ℕ → CallPos} {l : List ProcEvent} {onChan : ℕ → Bool}
    (h : wakeup onChan s = .ok ((), s')) :
    s'.current = s.current ∧ (s.table p l).Rescheduled (s'.table p l) := by
  cases h
  refine ⟨rfl, rfl, rfl, fun k => ?_, fun k => ?_, fun k => ?_⟩ <;>
    simp only [System.table, entries] <;> split
  · rfl
  · rfl
  · rfl
  · rfl
  · rename_i hk
    rw [hk.2.1]
    exact .inr ⟨by decide, ProcState.live_runnable⟩
  · exact .inl rfl

/-- `exit` gives the children away and leaves a zombie with status 0. -/
theorem exit_run {onChan : ℕ → Bool} {status : ℤ} (hrun : (s.entries s.current).state = .running)
    (hpos : pos s.current = .user) (h : exit onChan s = .ok ((), s')) :
    ReflTransGen ProcTable.Step (s.table pos log)
      (s'.table pos (log ++ [.exited s.current status])) := by
  rw [exit, get_bind] at h
  split at h
  · cases h
  rename_i hinit
  obtain ⟨⟨⟩, s₁, hclose, h₁⟩ := bind_eq_ok.mp h
  have hs₁ : Still s s₁ := alike_closeFiles blind_entry _ _ .refl hclose
  obtain ⟨⟨⟩, s₂, hdir, h₂⟩ := bind_eq_ok.mp h₁
  have hs₂ : Still s s₂ := by
    cases hdir
    exact hs₁.trans (.setProc rfl)
  obtain ⟨⟨⟩, s₃, hadopt, h₃⟩ := bind_eq_ok.mp h₂
  obtain ⟨⟨⟩, s₄, hvmas, h₄⟩ := bind_eq_ok.mp h₃
  obtain ⟨⟨⟩, s₅, hzombie, h₅⟩ := bind_eq_ok.mp h₄
  have hs₃ : s₃.entries = ((s.table pos log).adopt s.current).entry := by
    cases hadopt
    funext k
    have hk := congrFun hs₂.entries k
    simp only [entries, Entry.mk.injEq] at hk
    simp only [System.table, entries, ProcTable.adopt]
    rw [hk.2.1]
    by_cases hc : k < ntask ∧ (s.taskTable k).parent = some s.current
    · simp only [if_pos hc, hk]
      exact (if_pos hc).symm
    · simp only [if_neg hc, hk]
      exact (if_neg hc).symm
  have hs₄ : s₄.entries = s₃.entries := Alike.entries (alike_closeVmas blind_entry _ _ .refl hvmas)
  have hs₅ : s₅.entries = Function.update s₄.entries s.current
      { s₄.entries s.current with state := .zombie, xstate := 0 } := by
    cases hzombie
    exact entries_setProc
  obtain ⟨-, hwake⟩ := wakeup_entries (p := pos) (l := log ++ [.exited s.current status]) h₅
  have hbegin := ProcTable.Step.exitBegin (s.table pos log) s.current status hrun hpos hinit
  have hi : (((s.table pos log).adopt s.current).entry s.current).state = .running := by
    rw [ProcTable.state_adopt]
    exact hrun
  have hend := ProcTable.Step.exitEnd (((s.table pos log).adopt s.current).goto s.current
    (.exiting status)) s.current hi (Function.update_self ..)
  have hpos' : Function.update pos s.current .user = pos := by rw [← hpos, Function.update_eq_self]
  refine .tail (.tail (.single hbegin) hend) (.other _ _ ?_)
  have heq : s₅.table pos (log ++ [.exited s.current status]) = _ := rfl
  simp only [ProcTable.goto, ProcTable.set, ProcTable.note, Function.update_idem]
  unfold System.table at heq hwake ⊢
  rw [hs₅, hs₄, hs₃] at hwake
  change (ProcTable.mk _ (Function.update pos s.current .user) _).Rescheduled _
  rw [hpos']
  exact hwake

/-- The slot after `freeTask`. -/
def freed (p : Proc) : Proc :=
  { p with
    trapframe := 0
    state := .unused
    parent := none
    killed := false
    xstate := 0
    name := p.name.fill 0 1 0
    task := { p.task with pagetable := 0, vma := fun _ => none, sz := 0 } }

/-- `freeTask` gives the frames back, which leaves the slots alone, and clears the slot. -/
theorem freeTask_eq_ok {β : Type} (π : Proc → β) {child : ℕ} (h : freeTask child s = .ok ((), s')) :
    ∃ s₁, Alike π s s₁ ∧ s' = s₁.setProc child (freed (s₁.taskTable child)) := by
  rw [freeTask, get_bind] at h
  have hlast : ∀ s₁, Alike π s s₁ → modifyProc child freed s₁ = .ok ((), s') →
      ∃ s₁, Alike π s s₁ ∧ s' = s₁.setProc child (freed (s₁.taskTable child)) := by
    intro s₁ hs₁ hset
    cases hset
    exact ⟨s₁, hs₁, rfl⟩
  have hpages : ∀ s₁, Alike π s s₁ → (do
      if (s.taskTable child).task.pagetable ≠ 0 then
        onRam fun ram => do
          return ((), ← ram.freeTaskPagetable (s.taskTable child).task.pagetable
            (toU64 (s.taskTable child).task.sz))
      modifyProc child freed : OsM Unit) s₁ = .ok ((), s') →
        ∃ s₁, Alike π s s₁ ∧ s' = s₁.setProc child (freed (s₁.taskTable child)) := by
    intro s₁ hs₁ hrest
    split at hrest
    · obtain ⟨⟨⟩, s₂, hram, hset⟩ := bind_eq_ok.mp hrest
      exact hlast s₂ (alike_onRam hs₁ hram) hset
    · exact hlast s₁ hs₁ hrest
  split at h
  · obtain ⟨⟨⟩, s₁, hram, hrest⟩ := bind_eq_ok.mp h
    exact hpages s₁ (alike_onRam .refl hram) hrest
  · exact hpages s .refl h

theorem freeTask_entries {child : ℕ} (h : freeTask child s = .ok ((), s')) :
    s'.entries = Function.update s.entries child ⟨.unused, none, 0⟩ := by
  obtain ⟨s₁, hs₁, rfl⟩ : ∃ s₁, Still s s₁ ∧ s' = s₁.setProc child (freed (s₁.taskTable child)) :=
    freeTask_eq_ok _ h
  rw [← Alike.entries hs₁]
  exact entries_setProc

theorem reap_eq_ok {β : Type} (π : Proc → β) {child vaddr : ℕ} {r : ℤ}
    (h : reap child vaddr s = .ok (r, s')) : r = -1 ∧ Alike π s s' ∨
      r = child ∧ ∃ s₁, Alike π s s₁ ∧ freeTask child s₁ = .ok ((), s') := by
  rw [reap, get_bind] at h
  have hfree : ∀ s₁, Alike π s s₁ → ∀ v : ℤ, (do
      if v < 0 then return -1
      freeTask child
      return ↑child : OsM ℤ) s₁ = .ok (r, s') → r = -1 ∧ Alike π s s' ∨
        r = child ∧ ∃ s₁, Alike π s s₁ ∧ freeTask child s₁ = .ok ((), s') := by
    intro s₁ hs₁ v hrest
    split at hrest
    · cases hrest
      exact .inl ⟨rfl, hs₁⟩
    · obtain ⟨⟨⟩, s₂, hfree, hret⟩ := bind_eq_ok.mp hrest
      cases hret
      exact .inr ⟨rfl, s₁, hs₁, hfree⟩
  split at h
  · obtain ⟨v, s₁, hram, hrest⟩ := bind_eq_ok.mp h
    exact hfree s₁ (alike_onRam .refl hram) v hrest
  · exact hfree s .refl 0 h

theorem reap_entries {child vaddr : ℕ} {r : ℤ} (h : reap child vaddr s = .ok (r, s')) :
    r = -1 ∧ s'.entries = s.entries ∨
      r = child ∧ s'.entries = Function.update s.entries child ⟨.unused, none, 0⟩ := by
  have hcases : r = -1 ∧ Still s s' ∨
      r = child ∧ ∃ s₁, Still s s₁ ∧ freeTask child s₁ = .ok ((), s') := reap_eq_ok _ h
  rcases hcases with ⟨hr, ha⟩ | ⟨hr, s₁, ha, hfree⟩
  · exact .inl ⟨hr, Alike.entries ha⟩
  · exact .inr ⟨hr, by rw [freeTask_entries hfree, Alike.entries ha]⟩

theorem wait_run {vaddr : ℕ} {r : Option ℤ} (hrun : (s.entries s.current).state = .running)
    (hpos : pos s.current = .user ∨ pos s.current = .waiting) (h : wait vaddr s = .ok (r, s')) :
    ∃ p l, ProcTable.Step (s.table pos log) (s'.table (Function.update pos s.current p) l) ∧
      (p = .user ↔ r ≠ none) ∧
      (∀ k : ℕ, r = some (k : ℤ) → l = log ++ [.reaped s.current k (s.entries k).xstate]) := by
  rw [wait, get_bind] at h
  cases hdead : (s.table pos log).deadChild s.current with
  | some child =>
    have hdead' := hdead
    change List.find? _ _ = _ at hdead'
    rw [show (List.range ntask).find? (fun i => decide ((s.taskTable i).parent = some s.current ∧
      (s.taskTable i).state = .zombie)) = some child from hdead'] at h
    obtain ⟨v, s₁, hreap, hret⟩ := bind_eq_ok.mp h
    cases hret
    rcases reap_entries hreap with ⟨rfl, hent⟩ | ⟨rfl, hent⟩
    · refine ⟨.user, log, ?_, by simp, fun k hk => absurd hk (by simp)⟩
      unfold System.table
      rw [hent]
      exact .waitFault (s.table pos log) s.current hrun hpos hdead
    · refine ⟨.user, log ++ [.reaped s.current child (s.entries child).xstate], ?_, by simp,
        fun k hk => ?_⟩
      · unfold System.table
        rw [hent]
        exact .waitReap (s.table pos log) s.current hrun hpos hdead
      · have hk' : child = k := by simpa using hk
        rw [hk']
  | none =>
    have hdead' := hdead
    change List.find? _ _ = _ at hdead'
    rw [show (List.range ntask).find? (fun i => decide ((s.taskTable i).parent = some s.current ∧
      (s.taskTable i).state = .zombie)) = none from hdead'] at h
    dsimp only at h
    split at h
    · rename_i hany
      cases h
      refine ⟨.waiting, log, ?_, by simp, fun k hk => by cases hk⟩
      refine .waitSleep (s.table pos log) s.current hrun hpos hdead ?_
      obtain ⟨k, hk, hp⟩ := List.any_eq_true.mp hany
      exact ⟨k, List.mem_range.mp hk, of_decide_eq_true hp⟩
    · rename_i hany
      cases h
      refine ⟨.user, log ++ [.noChild s.current], ?_, by simp, fun k hk => absurd hk (by simp)⟩
      refine .waitNone (s.table pos log) s.current hrun hpos hdead ?_
      rintro ⟨k, hk, hp⟩
      exact hany (List.any_eq_true.mpr ⟨k, List.mem_range.mpr hk, decide_eq_true hp⟩)

/-- `sys_wait` with its `argaddr`. -/
theorem wait_behindArgaddr_run {vaddr : ℕ} {r : Option ℤ}
    (hrun : (s.entries s.current).state = .running)
    (hpos : pos s.current = .user ∨ pos s.current = .waiting)
    (h : behindArgaddr vaddr (wait vaddr) s = .ok (r, s')) :
    ∃ p l, ProcTable.Step (s.table pos log) (s'.table (Function.update pos s.current p) l) ∧
      (p = .user ↔ r ≠ none) ∧
      (∀ k : ℕ, r = some (k : ℤ) → l = log ++ [.reaped s.current k (s.entries k).xstate]) := by
  obtain ⟨b, s₁, hload, hwait⟩ := behindArgaddr_eq_ok.mp h
  have htable : s₁.table pos log = s.table pos log := table_of_load hload
  have hentries : s₁.entries = s.entries := congrArg ProcTable.entry htable
  have hcurrent : s₁.current = s.current := by rw [loadIfValid_eq hload]
  rw [← hcurrent] at hrun hpos
  rw [← hentries] at hrun
  rw [← htable, ← hentries, ← hcurrent]
  exact wait_run hrun hpos hwait

/-- `wait4` up to the point where it sleeps, for a child of the caller; else it returns -1. -/
theorem wait4_run {pid : ℤ} {vaddr : ℕ} {r : Option ℤ}
    (hrun : (s.entries s.current).state = .running) (hpos : pos s.current = .user)
    (h : wait4 pid vaddr s = .ok (r, s')) :
    (r = some (-1) ∧ s'.table pos log = s.table pos log) ∨
      ∃ p l, ReflTransGen ProcTable.Step (s.table pos log)
          (s'.table (Function.update pos s.current p) l) ∧ (p = .user ↔ r ≠ none) := by
  rw [wait4] at h
  split at h
  · cases h
    exact .inl ⟨rfl, rfl⟩
  split at h
  · cases h
  rename_i hge hneg
  obtain ⟨k, rfl⟩ : ∃ k : ℕ, pid = k := ⟨pid.toNat, by omega⟩
  rw [Int.toNat_natCast] at h
  dsimp only at h
  rw [get_bind] at h
  split at h
  · cases h
    exact .inl ⟨rfl, rfl⟩
  rename_i hparent
  rw [ne_eq, not_not] at hparent
  right
  have hk : k < ntask := by omega
  obtain ⟨⟨⟩, s₁, hset, h₁⟩ := bind_eq_ok.mp h
  have hs₁ : s₁.entries = ((s.table pos log).shift k).entry := by
    cases hset
    exact entries_setProc
  have hcall := ProcTable.Step.wait4Call (s.table pos log) s.current k hrun hpos hk hparent
  have hat : ((s.table pos log).goto s.current (.waiting4 k)).pos s.current = .waiting4 k :=
    Function.update_self ..
  split at h₁
  · rename_i hz
    obtain ⟨v, s₂, hreap, hret⟩ := bind_eq_ok.mp h₁
    cases hret
    rcases reap_entries hreap with ⟨rfl, hent⟩ | ⟨rfl, hent⟩
    · refine ⟨.user, log, .tail (.single hcall) ?_, by simp⟩
      have hstep := ProcTable.Step.wait4Fault _ s.current hrun hat hz
      have heq : (((s.table pos log).goto s.current (.waiting4 k)).shift k).goto s.current .user =
          ⟨((s.table pos log).shift k).entry, Function.update pos s.current .user, log⟩ := by
        simp only [ProcTable.goto, ProcTable.shift, ProcTable.set, System.table,
          Function.update_idem]
      unfold System.table at heq hstep ⊢
      rw [hent, hs₁]
      rwa [heq] at hstep
    · refine ⟨.user, log ++ [.reaped s.current k (toInt32 ((s.entries k).xstate * 256))],
        .tail (.single hcall) ?_, by simp⟩
      have hstep := ProcTable.Step.wait4Reap _ s.current hrun hat hz
      have heq : ((((s.table pos log).goto s.current (.waiting4 k)).goto s.current .user).free k) =
          ⟨Function.update s.entries k ⟨.unused, none, 0⟩, Function.update pos s.current .user,
            log⟩ := by
        simp only [ProcTable.goto, ProcTable.free, ProcTable.set, System.table,
          Function.update_idem]
      have hend : s'.entries = Function.update s.entries k ⟨.unused, none, 0⟩ := by
        rw [hent, hs₁]
        exact Function.update_idem ..
      unfold System.table at heq hstep ⊢
      rw [hend]
      rwa [heq] at hstep
  · rename_i hz
    cases h₁
    refine ⟨.waiting4 k, log, .tail (.single hcall) ?_, by simp⟩
    have hstep := ProcTable.Step.wait4Sleep _ s.current hrun hat hz
    unfold System.table
    rw [hs₁]
    exact hstep

end Exit

end System

end StartOS
