import StartOS.Os.ProcTree

/-! # Runs of the process table

What the events of a run say about each slot: who was given it, and which
processes lived in it with what status.
-/

namespace StartOS

namespace ProcTable

variable {s s' : ProcTable} {i j k : ℕ}

def Lives (s : ProcTable) : Prop := ∀ k, lifeAfter k s.log = some (s.entry k).state.phase

theorem lifeAfter_note {ev : ProcEvent} :
    lifeAfter k (s.note ev).log = ProcEvent.life k (lifeAfter k s.log) ev := by
  rw [log_note, lifeAfter, List.foldl_append]
  rfl

theorem Lives.same (h : s.Lives) (hlog : s'.log = s.log)
    (hphase : ∀ k, (s'.entry k).state.phase = (s.entry k).state.phase) : s'.Lives := by
  intro k
  rw [hlog, h k, hphase k]

theorem Lives.free {x : ℤ} (hl : s.Lives) (hz : (s.entry k).state = .zombie) :
    (((s.goto i .user).free k).note (.reaped i k x)).Lives := by
  intro m
  rw [lifeAfter_note, ProcTable.free, log_set, log_goto, hl m, entry_note, entry_set, entry_goto]
  by_cases hm : m = k
  · subst hm
    rw [if_pos rfl, hz]
    exact if_pos rfl
  · rw [if_neg hm]
    exact if_neg (Ne.symm hm)

theorem CalmStep.lives (h : CalmStep s s') (hs : s.Tree) (hl : s.Lives) : s'.Lives := by
  obtain ⟨hstep, -⟩ := h
  cases hstep with
  | callFork i hi hp => exact hl
  | scanNext i hi hp hk hused => exact hl
  | scanFail i hi hp hk => exact hl
  | scanFound i hi hp hk hfree =>
    intro m
    rw [lifeAfter_note]
    exact hl m
  | @link i k hi hp =>
    refine hl.same rfl fun m => ?_
    rw [entry_set]
    split
    · rename_i hm
      rw [hm]
    · rfl
  | @start i k hi hp =>
    have hfree := (hs.fills i k (.inr hp)).1
    intro m
    rw [lifeAfter_note, log_set, log_goto, hl m, entry_note, entry_set, entry_goto]
    by_cases hm : m = k
    · subst hm
      rw [if_pos rfl, hfree]
      exact if_pos rfl
    · rw [if_neg hm]
      exact if_neg (Ne.symm hm)
  | exitBegin i status hi hp hinit =>
    refine hl.same rfl fun m => ?_
    change (if _ then _ else _ : Entry).state.phase = _
    split
    · rfl
    · rfl
  | exitEnd i hi hp =>
    intro m
    rw [lifeAfter_note, log_set, log_goto, hl m, entry_note, entry_set, entry_goto]
    by_cases hm : m = i
    · subst hm
      rw [if_pos rfl, hi]
      exact if_pos rfl
    · rw [if_neg hm]
      exact if_neg (Ne.symm hm)
  | waitReap i hi hp hk => exact hl.free (deadChild_some hk).2.2
  | waitFault i hi hp hk => exact hl
  | waitSleep i hi hp hk hchild => exact hl
  | waitNone i hi hp hk hchild =>
    intro m
    rw [lifeAfter_note]
    exact hl m
  | wait4Call i pid hi hp hpid hchild => exact hl
  | wait4Sleep i hi hp hz => exact hl.same rfl fun m => by rw [state_shift]
  | wait4Reap i hi hp hz => exact hl.free hz
  | wait4Fault i hi hp hz => exact hl.same rfl fun m => by rw [entry_goto, state_shift]
  | other _ h =>
    refine hl.same h.log fun m => ?_
    obtain he | ⟨h₁, h₂⟩ := h.state m
    · rw [he]
    · rw [h₁.phase_eq, h₂.phase_eq]

/-- A slot that `allocTask` has returned is in use or filled. -/
def Guarded (s : ProcTable) : Prop := ∀ k, takenAfter k s.log = some false ∨
  takenAfter k s.log = some true ∧ ((s.entry k).state ≠ .unused ∨ ∃ i, s.Fills i k)

theorem takenAfter_note {ev : ProcEvent} :
    takenAfter k (s.note ev).log = ProcEvent.taken k (takenAfter k s.log) ev := by
  rw [log_note, takenAfter, List.foldl_append]
  rfl

theorem Guarded.same (h : s.Guarded) (hlog : ∀ k, takenAfter k s'.log = takenAfter k s.log)
    (hkeep : ∀ k, ((s.entry k).state ≠ .unused ∨ ∃ i, s.Fills i k) →
      (s'.entry k).state ≠ .unused ∨ ∃ i, s'.Fills i k) : s'.Guarded := by
  intro k
  rw [hlog k]
  obtain hk | ⟨hk, hf⟩ := h k
  · exact .inl hk
  · exact .inr ⟨hk, hkeep k hf⟩

theorem Guarded.quiet (h : s.Guarded) (hlog : ∀ k, takenAfter k s'.log = takenAfter k s.log)
    (hi : ∀ k, ¬s.Fills i k) (hpos : ∀ j, j ≠ i → s'.pos j = s.pos j)
    (hstate : ∀ k, (s.entry k).state ≠ .unused → (s'.entry k).state ≠ .unused) : s'.Guarded := by
  refine h.same hlog fun k hk => ?_
  obtain hk | ⟨j, hj⟩ := hk
  · exact .inl (hstate k hk)
  · have hji : j ≠ i := by
      rintro rfl
      exact hi k hj
    refine .inr ⟨j, ?_⟩
    unfold Fills
    rw [hpos j hji]
    exact hj

theorem Guarded.goto {p : CallPos} (h : s.Guarded) (hi : ∀ k, ¬s.Fills i k) :
    (s.goto i p).Guarded :=
  h.quiet (fun _ => rfl) hi (fun _ hj => by rw [pos_goto, if_neg hj]) fun _ hk => hk

theorem Guarded.free {x : ℤ} (h : s.Guarded) (hi : ∀ k, ¬s.Fills i k) :
    (((s.goto i .user).free k).note (.reaped i k x)).Guarded := by
  intro m
  rw [takenAfter_note, ProcTable.free, log_set, log_goto, entry_note, entry_set, entry_goto]
  have hm := h.goto (p := .user) hi m
  rw [log_goto, entry_goto] at hm
  by_cases hmk : m = k
  · subst hmk
    left
    have hb : ∃ b, takenAfter m s.log = some b := hm.elim (⟨_, ·⟩) (⟨_, ·.1⟩)
    obtain ⟨b, hb⟩ := hb
    rw [hb]
    exact if_pos rfl
  · rw [if_neg hmk]
    have hskip : ProcEvent.taken m (takenAfter m s.log) (.reaped i k x) = takenAfter m s.log :=
      if_neg (Ne.symm hmk)
    rw [hskip]
    exact hm

theorem not_fills {p : CallPos} (hp : s.pos i = p) (h : ∀ k, p ≠ .copying k ∧ p ≠ .linked k) (k : ℕ) :
    ¬s.Fills i k := by
  unfold Fills
  rw [hp]
  exact fun hk => hk.elim (h k).1 (h k).2

theorem CalmStep.guarded (h : CalmStep s s') (hg : s.Guarded) : s'.Guarded := by
  obtain ⟨hstep, hcalm⟩ := h
  cases hstep with
  | callFork i hi hp => exact hg.goto (not_fills hp (by simp))
  | scanNext i hi hp hk hused => exact hg.goto (not_fills hp (by simp))
  | scanFail i hi hp hk => exact hg.goto (not_fills hp (by simp))
  | @scanFound i k hi hp hk hfree =>
    have hno := hcalm i k hp (by simp)
    have hgoto := hg.goto (p := .copying k) (not_fills hp (by simp))
    intro m
    rw [takenAfter_note, log_goto, entry_note, entry_goto]
    by_cases hmk : m = k
    · subst hmk
      have hfalse : takenAfter m s.log = some false := by
        obtain hm | ⟨-, hm | ⟨j, hj⟩⟩ := hg m
        · exact hm
        · exact absurd hfree hm
        · exact absurd hj (hno j)
      rw [hfalse]
      exact .inr ⟨(if_pos rfl).trans (if_pos rfl), .inr ⟨i, .inl (by simp)⟩⟩
    · have hskip : ProcEvent.taken m (takenAfter m s.log) (.given i k) = takenAfter m s.log :=
        if_neg (Ne.symm hmk)
      rw [hskip]
      exact hgoto m
  | @link i k hi hp =>
    refine hg.same (fun _ => rfl) fun m hm => ?_
    simp only [Fills, entry_set, pos_set, entry_goto, pos_goto] at hm ⊢
    grind
  | @start i k hi hp =>
    refine hg.same (fun m => ?_) fun m hm => ?_
    · rw [takenAfter_note]
      rfl
    · simp only [Fills, entry_note, pos_note, entry_set, pos_set, entry_goto, pos_goto] at hm ⊢
      grind
  | exitBegin i status hi hp hinit =>
    refine hg.quiet (i := i) (fun _ => rfl) (not_fills hp (by simp)) (fun j hj => ?_) fun m hm => ?_
    · rw [pos_goto, if_neg hj]
      rfl
    · simp only [entry_goto, ProcTable.adopt]
      split <;> exact hm
  | exitEnd i hi hp =>
    refine hg.quiet (i := i) (fun m => ?_) (not_fills hp (by simp)) (fun j hj => ?_) fun m hm => ?_
    · rw [takenAfter_note]
      rfl
    · rw [pos_note, pos_set, pos_goto, if_neg hj]
    · rw [entry_note, entry_set]
      split
      · exact fun hz => by cases hz
      · exact hm
  | waitReap i hi hp hk => exact hg.free (hp.elim (not_fills · (by simp)) (not_fills · (by simp)))
  | waitFault i hi hp hk => exact hg.goto (hp.elim (not_fills · (by simp)) (not_fills · (by simp)))
  | waitSleep i hi hp hk hchild =>
    exact hg.goto (hp.elim (not_fills · (by simp)) (not_fills · (by simp)))
  | waitNone i hi hp hk hchild =>
    refine Guarded.same (s := s.goto i .user)
      (hg.goto (hp.elim (not_fills · (by simp)) (not_fills · (by simp)))) (fun m => ?_) fun m hm => hm
    rw [takenAfter_note]
    rfl
  | wait4Call i pid hi hp hpid hchild => exact hg.goto (not_fills hp (by simp))
  | wait4Sleep i hi hp hz =>
    exact hg.same (fun _ => rfl) fun m hm => by rwa [state_shift]
  | wait4Reap i hi hp hz => exact hg.free (not_fills hp (by simp))
  | wait4Fault i hi hp hz =>
    refine Guarded.goto (hg.same (fun _ => rfl) fun m hm => ?_) (not_fills hp (by simp))
    rwa [state_shift]
  | other _ h =>
    refine hg.same (fun m => by rw [h.log]) fun m hm => ?_
    simp only [Fills, h.pos] at hm ⊢
    refine hm.imp_left fun hm => ?_
    obtain he | he := h.state m
    · rwa [he]
    · exact he.2.1

theorem boot_lives : boot.Lives := by
  intro k
  change some _ = some (ite _ _ _ : ProcState).phase
  split <;> rfl

theorem boot_guarded : boot.Guarded := by
  intro k
  change some (decide _) = _ ∨ some (decide _) = _ ∧ _
  by_cases hk : k = initTask
  · refine .inr ⟨by rw [decide_eq_true hk], .inl ?_⟩
    rw [hk]
    decide
  · exact .inl (by rw [decide_eq_false hk])

theorem lives_of_run (h : Relation.ReflTransGen CalmStep boot s) : s.Lives := by
  induction h with
  | refl => exact boot_lives
  | tail hrun hstep ih => exact hstep.lives (tree_of_run hrun) ih

theorem guarded_of_run (h : Relation.ReflTransGen CalmStep boot s) : s.Guarded := by
  induction h with
  | refl => exact boot_guarded
  | tail _ hstep ih => exact hstep.guarded ih

theorem Step.reaped {x : ℤ} (h : Step s s') (hs : s.Tree)
    (hlog : s'.log = s.log ++ [.reaped i k x]) :
    (s.entry k).parent = some i ∧ (s.entry k).state = .zombie ∧ (s'.entry k).state = .unused := by
  cases h with
  | waitReap i' hi hp hk =>
    simp only [ProcTable.free, log_note, log_set, log_goto, List.append_cancel_left_eq,
      List.cons.injEq, ProcEvent.reaped.injEq, and_true] at hlog
    obtain ⟨rfl, rfl, -⟩ := hlog
    obtain ⟨-, hparent, hz⟩ := deadChild_some hk
    exact ⟨hparent, hz, by simp [ProcTable.free]⟩
  | wait4Reap i' hi hp hz =>
    simp only [ProcTable.free, log_note, log_set, log_goto, List.append_cancel_left_eq,
      List.cons.injEq, ProcEvent.reaped.injEq, and_true] at hlog
    obtain ⟨rfl, rfl, -⟩ := hlog
    exact ⟨(hs.waited _ _ hp).1, hz, by simp [ProcTable.free]⟩
  | other _ h =>
    rw [h.log] at hlog
    simp at hlog
  | _ => simp [adopt, shift] at hlog

theorem Step.noChild (h : Step s s') (hs : s.Tree) (hlog : s'.log = s.log ++ [.noChild i]) (k : ℕ) :
    (s.entry k).parent ≠ some i := by
  cases h with
  | waitNone i' hi hp hk hchild =>
    obtain rfl : i' = i := by simpa using hlog
    intro hparent
    refine hchild ⟨k, ?_, hparent⟩
    by_cases hstate : (s.entry k).state = .unused
    · exact (hs.fills i' k (.inr (hs.spare k i' hstate hparent))).2
    · exact hs.bound k hstate
  | other _ h =>
    rw [h.log] at hlog
    simp at hlog
  | _ => simp [adopt, shift] at hlog

/-- While no `allocTask` comes to a slot that another task fills, every process but the first has
a parent that can run, the processes of each slot are born, exit and are reaped in turn, a child
is reaped by its parent, and `wait` misses no child. -/
theorem processTree_of_run (s : ProcTable) (h : Relation.ReflTransGen CalmStep boot s) :
    (∀ k, (s.entry k).state ≠ .unused → k ≠ initTask →
      ∃ p, (s.entry k).parent = some p ∧ (s.entry p).state ≠ .unused ∧
        (s.entry p).state ≠ .zombie) ∧
    (∀ k, lifeAfter k s.log = some (s.entry k).state.phase) ∧
    (∀ s' i k x, CalmStep s s' → s'.log = s.log ++ [.reaped i k x] →
      (s.entry k).parent = some i ∧ (s.entry k).state = .zombie ∧
        (s'.entry k).state = .unused) ∧
    ∀ s' i, CalmStep s s' → s'.log = s.log ++ [.noChild i] → ∀ k, (s.entry k).parent ≠ some i := by
  have hs := tree_of_run h
  exact ⟨hs.parent, lives_of_run h, fun s' i k x hstep => hstep.1.reaped hs,
    fun s' i hstep => hstep.1.noChild hs⟩

theorem Step.reschedule (s : ProcTable) (i : ℕ) (st : ProcState) (h : (s.entry i).state.Live)
    (h' : st.Live) : Step s (s.set i { s.entry i with state := st }) := by
  refine .other _ _ ⟨rfl, rfl, ?_, ?_, ?_⟩ <;>
  · intro k
    rw [entry_set]
    by_cases hk : k = i
    · simp [hk, h, h']
    · simp [hk]

theorem Step.calm (h : Step s s') (hlog : ∀ i k, s'.log ≠ s.log ++ [.given i k]) :
    CalmStep s s' := by
  refine ⟨h, fun i k hi hi' => ?_⟩
  cases h with
  | @scanFound i k hi hp hk hfree => exact absurd rfl (hlog i k)
  | other _ h =>
    rw [h.pos, hi] at hi'
    cases hi'
  | _ =>
    simp [adopt, shift, ProcTable.free] at hi'
    grind

/-- The first process forks, its child runs and exits with `status`, and the first process runs
again. -/
theorem run_forkExit (status : ℤ) : ∃ s, Relation.ReflTransGen CalmStep boot s ∧
    s.log = [.given 1 2, .born 1 2, .exited 2 status] ∧ (s.entry 1).state = .running ∧
      s.pos 1 = .user ∧ s.deadChild 1 = some 2 ∧ (s.entry 2).xstate = 0 := by
  have hfound : Relation.ReflTransGen CalmStep boot
      ((((boot.goto 1 (.scanning 1)).goto 1 (.scanning 2)).goto 1 (.copying 2)).note (.given 1 2)) := by
    refine .tail (.tail (.tail .refl ((Step.callFork _ 1 rfl rfl).calm (by simp)))
      ((Step.scanNext _ 1 rfl rfl (by decide) (by decide)).calm (by simp)))
      ⟨.scanFound _ 1 rfl rfl (by decide) rfl, fun i k _ _ j => ?_⟩
    simp only [Fills, pos_goto]
    split
    · simp
    · simp [boot]
  exact ⟨_, .tail (.tail (.tail (.tail (.tail (.tail (.tail hfound
    ((Step.link _ 1 rfl rfl).calm (by simp))) ((Step.start _ 1 rfl rfl).calm (by simp)))
    ((Step.reschedule _ 1 .runnable ProcState.live_running ProcState.live_runnable).calm (by simp)))
    ((Step.reschedule _ 2 .running ProcState.live_runnable ProcState.live_running).calm (by simp)))
    ((Step.exitBegin _ 2 status rfl rfl (by decide)).calm (by simp [adopt])))
    ((Step.exitEnd _ 2 rfl rfl).calm (by simp)))
    ((Step.reschedule _ 1 .running ProcState.live_runnable ProcState.live_running).calm (by simp)),
    rfl, rfl, rfl, rfl, rfl⟩

theorem run_forkExitWait (status : ℤ) : ∃ s, Relation.ReflTransGen CalmStep boot s ∧
    s.log = [.given 1 2, .born 1 2, .exited 2 status, .reaped 1 2 0] := by
  obtain ⟨s, hrun, hlog, hstate, hpos, hdead, hx⟩ := run_forkExit status
  refine ⟨_, hrun.tail ((Step.waitReap s 1 hstate (.inl hpos) hdead).calm (by simp [ProcTable.free])), ?_⟩
  rw [log_note, ProcTable.free, log_set, log_goto, hlog, hx]
  rfl

theorem processTree_of_forkExitWait : ∃ s, Relation.ReflTransGen CalmStep boot s ∧
    s.log = [.given 1 2, .born 1 2, .exited 2 7, .reaped 1 2 0] ∧
      lifeAfter 2 s.log = some (s.entry 2).state.phase := by
  obtain ⟨s, hrun, hlog⟩ := run_forkExitWait 7
  exact ⟨s, hrun, hlog, (processTree_of_run s hrun).2.1 2⟩

/-- The first process sleeps in `fork`, at `cwd->dup()`. Its first child is given the same slot,
the process in it runs and exits, and then `fork` of the first process makes the zombie run. -/
theorem zombie_runs_again : ∃ s, Relation.ReflTransGen Step boot s ∧
    s.log = [.given 1 2, .born 1 2, .given 1 3, .given 2 3, .born 2 3, .exited 3 0, .born 1 3] ∧
      lifeAfter 3 s.log = none := by
  exact ⟨_, .tail (.tail (.tail (.tail (.tail (.tail (.tail (.tail (.tail (.tail (.tail (.tail (.tail
    (.tail (.tail (.tail (.tail (.tail (.tail (.tail (.tail (.tail (.tail (.tail .refl
      (.callFork _ 1 rfl rfl)) (.scanNext _ 1 rfl rfl (by decide) (by decide)))
      (.scanFound _ 1 rfl rfl (by decide) rfl)) (.link _ 1 rfl rfl)) (.start _ 1 rfl rfl))
      (.callFork _ 1 rfl rfl)) (.scanNext _ 1 rfl rfl (by decide) (by decide)))
      (.scanNext _ 1 rfl rfl (by decide) (by decide))) (.scanFound _ 1 rfl rfl (by decide) rfl))
      (.link _ 1 rfl rfl))
      (.reschedule _ 1 .sleeping ProcState.live_running (by decide)))
      (.reschedule _ 2 .running ProcState.live_runnable ProcState.live_running))
      (.callFork _ 2 rfl rfl)) (.scanNext _ 2 rfl rfl (by decide) (by decide)))
      (.scanNext _ 2 rfl rfl (by decide) (by decide))) (.scanFound _ 2 rfl rfl (by decide) rfl))
      (.link _ 2 rfl rfl)) (.start _ 2 rfl rfl))
      (.reschedule _ 2 .runnable ProcState.live_running ProcState.live_runnable))
      (.reschedule _ 3 .running ProcState.live_runnable ProcState.live_running))
      (.exitBegin _ 3 0 rfl rfl (by decide))) (.exitEnd _ 3 rfl rfl))
      (.reschedule _ 1 .running (by decide) ProcState.live_running)) (.start _ 1 rfl rfl),
    rfl, rfl⟩

section Status

/-- A child has exited with `status`, and the call that reaped it has stored the word `x`. -/
def Stores (s : ProcTable) (status x : ℤ) : Prop :=
  ∃ l₁ l₂ l₃ i k, s.log = l₁ ++ .exited k status :: (l₂ ++ .reaped i k x :: l₃) ∧
    ∀ n, .exited k n ∉ l₂

/-- The word that is stored for a status is `enc` of it, in every run. -/
def Delivers (enc : ℤ → ℤ) : Prop :=
  ∀ s, Relation.ReflTransGen Step boot s → ∀ status x, s.Stores status x → x = enc status

/-- All statuses are 0, those of the slots and those that were stored. -/
structure Zeroed (s : ProcTable) : Prop where
  xstate : ∀ k, (s.entry k).xstate = 0
  reaped : ∀ i k x, .reaped i k x ∈ s.log → x = 0

theorem Zeroed.same (h : s.Zeroed) (hx : ∀ k, (s'.entry k).xstate = 0) (hlog : s'.log = s.log) :
    s'.Zeroed :=
  ⟨hx, fun i k x => by rw [hlog]; exact h.reaped i k x⟩

theorem Zeroed.note {ev : ProcEvent} (h : s.Zeroed) (hev : ∀ i k x, ev = .reaped i k x → x = 0) :
    (s.note ev).Zeroed := by
  refine ⟨h.xstate, fun i k x hx => ?_⟩
  rw [log_note, List.mem_append, List.mem_singleton] at hx
  exact hx.elim (h.reaped i k x) fun he => hev i k x he.symm

theorem Zeroed.set {e : Entry} (h : s.Zeroed) (he : e.xstate = 0) : (s.set k e).Zeroed := by
  refine h.same (fun j => ?_) rfl
  rw [entry_set]
  split
  · exact he
  · exact h.xstate j

theorem Step.zeroed (h : Step s s') (hs : s.Zeroed) : s'.Zeroed := by
  -- a status that is shifted stays 0
  have hshift : ∀ k, toInt32 ((s.entry k).xstate * 256) = 0 := by
    intro k
    rw [hs.xstate k]
    rfl
  cases h with
  | callFork i hi hp => exact hs.same hs.xstate rfl
  | scanNext i hi hp hk hused => exact hs.same hs.xstate rfl
  | scanFail i hi hp hk => exact hs.same hs.xstate rfl
  | @scanFound i k hi hp hk hfree =>
    exact Zeroed.note (hs.same hs.xstate rfl) (fun _ _ _ he => by cases he)
  | @link i k hi hp => exact Zeroed.set (hs.same hs.xstate rfl) (hs.xstate k)
  | @start i k hi hp =>
    exact Zeroed.note (Zeroed.set (hs.same hs.xstate rfl) (hs.xstate k)) (fun _ _ _ he => by cases he)
  | exitBegin i status hi hp hinit =>
    refine hs.same (fun k => ?_) rfl
    rw [entry_goto, adopt]
    dsimp only
    split <;> exact hs.xstate k
  | exitEnd i hi hp => exact Zeroed.note (Zeroed.set (hs.same hs.xstate rfl) rfl) (fun _ _ _ he => by cases he)
  | @waitReap i k hi hp hk =>
    refine Zeroed.note (Zeroed.set (hs.same hs.xstate rfl) rfl) ?_
    rintro i' k' x he
    cases he
    exact hs.xstate k
  | waitFault i hi hp hk => exact hs.same hs.xstate rfl
  | waitSleep i hi hp hk hchild => exact hs.same hs.xstate rfl
  | waitNone i hi hp hk hchild => exact Zeroed.note (hs.same hs.xstate rfl) (fun _ _ _ he => by cases he)
  | wait4Call i pid hi hp hpid hchild => exact hs.same hs.xstate rfl
  | @wait4Sleep i pid hi hp hz => exact hs.set (hshift pid)
  | @wait4Reap i pid hi hp hz =>
    refine Zeroed.note (Zeroed.set (hs.same hs.xstate rfl) rfl) ?_
    rintro i' k' x he
    cases he
    exact hshift pid
  | @wait4Fault i pid hi hp hz =>
    have hpid : (s.shift pid).Zeroed := hs.set (hshift pid)
    exact hpid.same hpid.xstate rfl
  | other _ h => exact hs.same (fun k => by rw [h.xstate, hs.xstate]) h.log

theorem zeroed_of_run (h : Relation.ReflTransGen Step boot s) : s.Zeroed := by
  induction h with
  | refl => exact ⟨fun _ => rfl, fun _ _ _ hx => by cases hx⟩
  | tail _ hstep ih => exact hstep.zeroed ih

theorem Zeroed.stores {status x : ℤ} (h : s.Zeroed) (hx : s.Stores status x) : x = 0 := by
  obtain ⟨l₁, l₂, l₃, i, k, hlog, -⟩ := hx
  apply h.reaped i k x
  rw [hlog]
  simp

theorem run_of_calm (h : Relation.ReflTransGen CalmStep s s') : Relation.ReflTransGen Step s s' := by
  induction h with
  | refl => exact .refl
  | tail _ hstep ih => exact ih.tail hstep.1

theorem run_stores (status : ℤ) : ∃ s, Relation.ReflTransGen Step boot s ∧ s.Stores status 0 := by
  obtain ⟨s, hrun, hlog⟩ := run_forkExitWait status
  refine ⟨s, run_of_calm hrun, [.given 1 2, .born 1 2], [], [], 1, 2, hlog, fun n hn => ?_⟩
  cases hn

/-- `exit` forgets its status: the word that `wait` or `wait4` stores is 0 for every child in every
run, so an encoding of the statuses that the two calls follow has one value only. -/
theorem status_lost {s : ProcTable} (hrun : Relation.ReflTransGen Step boot s) :
    (∀ status x, s.Stores status x → x = 0) ∧ ∀ enc, Delivers enc → ∀ m n, enc m = enc n := by
  refine ⟨fun status x hx => (zeroed_of_run hrun).stores hx, fun enc henc m n => ?_⟩
  obtain ⟨s, hs, hm⟩ := run_stores m
  obtain ⟨t, ht, hn⟩ := run_stores n
  rw [← henc s hs m 0 hm, ← henc t ht n 0 hn]

theorem status_lost_seven : ∃ s, Relation.ReflTransGen Step boot s ∧ s.Stores 7 0 ∧
    ∀ x, s.Stores 7 x → x = 0 := by
  obtain ⟨s, hrun, hs⟩ := run_stores 7
  exact ⟨s, hrun, hs, fun x hx => (status_lost hrun).1 7 x hx⟩

/-- The words for `exit(1)` and `exit(0)` are the same. -/
theorem exit_one_as_zero : ¬∃ enc, Delivers enc ∧ enc 1 ≠ enc 0 := by
  rintro ⟨enc, henc, hne⟩
  obtain ⟨s, hs, h1⟩ := run_stores 1
  obtain ⟨t, ht, h0⟩ := run_stores 0
  exact hne (by rw [← henc s hs 1 0 h1, ← henc t ht 0 0 h0])

end Status

end ProcTable

end StartOS
