import StartOS.Os.SleepLock

/-! # Mutual exclusion and wakeups of the sleep lock

A task that has found the lock taken is looked at by a later `wakeup`: while the
lock is taken one is still to come, and once it is given back one is on its way,
which cannot pass the task before it sleeps as `sleep` holds the lock of the task.
-/

namespace StartOS

/-- Where a task is tells which spinlocks it holds, what its channel is and whether it runs;
`spin` is that it holds the spinlock of the sleep lock. -/
structure LockTask.Located {n : ℕ} (spin : Prop) (x : LockTask n) : Prop where
  spin_iff : spin ↔ x.pc.holdsSpin
  taskLock_eq : x.taskLock = x.pc.holdsTask
  chan_iff : x.chan = .lock ↔ x.pc.onChan
  off : x.on = false → x.pc.interruptible ∨ x.pc = .away
  on : x.on → x.pc ≠ .away ∧ (x.pc ≠ .switch → x.state = .running)

namespace LockTask

variable {n : ℕ} {x : LockTask n} {pc : LockPc n} {spin : Prop}

theorem Located.at (h : x.Located spin) (hon : x.on) (hpc : x.pc = pc) (hne : pc ≠ .switch) :
    (spin ↔ pc.holdsSpin) ∧ x.taskLock = pc.holdsTask ∧ (x.chan = .lock ↔ pc.onChan) ∧
      x.state = .running := by
  subst hpc
  exact ⟨h.spin_iff, h.taskLock_eq, h.chan_iff, (h.on hon).2 hne⟩

theorem Located.of_on (hon : x.on) (hspin : spin ↔ x.pc.holdsSpin)
    (hlock : x.taskLock = x.pc.holdsTask) (hchan : x.chan = .lock ↔ x.pc.onChan)
    (haway : x.pc ≠ .away) (hstate : x.state = .running) : x.Located spin where
  spin_iff := hspin
  taskLock_eq := hlock
  chan_iff := hchan
  off h := by rw [hon] at h; cases h
  on _ := ⟨haway, fun _ => hstate⟩

theorem Located.chan_ne (h : x.Located spin) (hpc : x.pc.interruptible) : x.chan ≠ .lock := by
  rw [Ne, h.chan_iff]
  cases hx : x.pc <;> simp_all [LockPc.interruptible, LockPc.onChan]

theorem Located.parked (h : x.Located spin) (hpc : x.pc.interruptible) (st : ProcState) {c : Chan}
    (hc : c ≠ .lock) : { x with state := st, on := false, chan := c }.Located spin where
  spin_iff := h.spin_iff
  taskLock_eq := h.taskLock_eq
  chan_iff := iff_of_false hc fun hon => h.chan_ne hpc (h.chan_iff.mpr hon)
  off _ := .inl hpc
  on h := by cases h

theorem Located.state (h : x.Located spin) (hoff : x.on = false) (st : ProcState) :
    { x with state := st }.Located spin where
  spin_iff := h.spin_iff
  taskLock_eq := h.taskLock_eq
  chan_iff := h.chan_iff
  off := h.off
  on hon := absurd (hon.symm.trans hoff) (by nofun)

theorem woken_eq (x : LockTask n) : ∃ st, x.woken = { x with state := st } := by
  unfold woken
  split
  · exact ⟨_, rfl⟩
  · exact ⟨_, rfl⟩

theorem Located.woken (h : x.Located spin) : x.woken.Located spin := by
  unfold LockTask.woken
  split
  · rename_i hx
    refine ⟨h.spin_iff, h.taskLock_eq, h.chan_iff, h.off, fun hon => ⟨(h.on hon).1, ?_⟩⟩
    intro hne
    have := (h.on hon).2 hne
    rw [hx.1] at this
    cases this
  · exact h

theorem Located.resumed (h : x.Located spin) (hoff : x.on = false) : x.resumed.Located spin := by
  unfold LockTask.resumed
  split
  · rename_i hx
    have hspin := h.spin_iff
    have hchan := h.chan_iff
    rw [hx] at hspin hchan
    exact .of_on rfl hspin rfl hchan (by nofun) rfl
  · rename_i hx
    have hpc := (h.off hoff).resolve_right hx
    exact .of_on rfl h.spin_iff h.taskLock_eq
      (iff_of_false (by nofun) fun hon => h.chan_ne hpc (h.chan_iff.mpr hon)) hx rfl

def Has (x : LockTask n) : Prop := x.pc = .leave ∨ x.holds

def Waits (x : LockTask n) : Prop :=
  x.pc = .lockTask ∨ x.pc = .releaseSpin ∨ x.pc = .setChan ∨ x.pc = .setState ∨
    (x.pc = .switch ∨ x.pc = .away) ∧ x.state = .sleeping

theorem Located.waits (h : x.Located spin) (hst : x.state = .sleeping) (hchan : x.chan = .lock) :
    x.Waits := by
  have hon := h.chan_iff.mp hchan
  cases hpc : x.pc with
  | setState => exact .inr (.inr (.inr (.inl hpc)))
  | switch => exact .inr (.inr (.inr (.inr ⟨.inl hpc, hst⟩)))
  | away => exact .inr (.inr (.inr (.inr ⟨.inr hpc, hst⟩)))
  | resetChan =>
    -- a hart executes the task, so it is not asleep
    cases hx : x.on with
    | false =>
      have hoff := h.off hx
      rw [hpc] at hoff
      rcases hoff with hoff | hoff <;> cases hoff
    | true =>
      have hrun := (h.on hx).2 (by rw [hpc]; nofun)
      rw [hst] at hrun
      cases hrun
  | _ =>
    rw [hpc] at hon
    cases hon

theorem Located.off_of_sleeping (h : x.Located spin) (hst : x.state = .sleeping)
    (hc : x.chan ≠ .lock) : x.on = false := by
  rw [← Bool.not_eq_true]
  intro hon
  by_cases hsw : x.pc = .switch
  · exact hc (h.chan_iff.mpr (by rw [hsw]; rfl))
  · have hrun := (h.on hon).2 hsw
    rw [hst] at hrun
    cases hrun

theorem Located.pc_ne_wake (h : x.Located spin) (hoff : x.on = false) (rest : List (Fin n)) :
    x.pc ≠ .wake rest := by
  intro hpc
  have hx := h.off hoff
  rw [hpc] at hx
  rcases hx with hx | hx <;> cases hx

theorem not_waits_of_interruptible (hpc : x.pc.interruptible) : ¬x.Waits := by
  unfold Waits
  cases hx : x.pc <;> simp_all [LockPc.interruptible]

theorem Waits.of_awake {st : ProcState} (hst : st ≠ .sleeping) (h : { x with state := st }.Waits) :
    x.Waits := by
  obtain h | h | h | h | ⟨-, h⟩ := h
  · exact .inl h
  · exact .inr (.inl h)
  · exact .inr (.inr (.inl h))
  · exact .inr (.inr (.inr (.inl h)))
  · exact absurd h hst

/-- After its turn of `wakeup` a task waits no more: before its lock is free it cannot be looked
at, and then it sleeps. -/
theorem Located.not_waits_woken (h : x.Located spin) (hspin : ¬spin) (hfree : x.taskLock = false) :
    ¬x.woken.Waits := by
  have htask := h.taskLock_eq.symm.trans hfree
  have hno : x.pc ≠ .lockTask := by
    intro hpc
    exact hspin (h.spin_iff.mpr (by rw [hpc]; rfl))
  obtain ⟨st, hst⟩ := x.woken_eq
  intro hw
  rw [hst] at hw
  obtain hpc | hpc | hpc | hpc | ⟨hpc | hpc, hsl⟩ := hw
  · exact hno hpc
  all_goals change x.pc = _ at hpc
  · rw [hpc] at htask
    cases htask
  · rw [hpc] at htask
    cases htask
  · rw [hpc] at htask
    cases htask
  · rw [hpc] at htask
    cases htask
  · have hchan : x.chan = .lock := h.chan_iff.mpr (by rw [hpc]; rfl)
    have hrun : x.woken.state ≠ .sleeping := by
      unfold LockTask.woken
      split
      · nofun
      · rename_i hx
        exact fun hs => hx ⟨hs, hchan⟩
    rw [hst] at hrun
    exact hrun hsl

end LockTask

namespace LockState

variable {n : ℕ} {s s' : LockState n} {t u init : Fin n} {x : LockTask n}

def Located (s : LockState n) : Prop := ∀ t, (s.task t).Located (s.spin = some t)

/-- A step of `t` leaves the others where they are, as the spinlock passes only from or to `t`. -/
theorem Located.step (h : s.Located) (htask : s'.task = Function.update s.task t x)
    (hspin : s'.spin = s.spin ∨ s.spin = none ∧ s'.spin = some t ∨ s.spin = some t ∧ s'.spin = none)
    (hx : x.Located (s'.spin = some t)) : s'.Located := by
  intro u
  rw [htask]
  by_cases hut : u = t
  · rw [hut, Function.update_self]
    exact hx
  · rw [Function.update_of_ne hut]
    have hiff : s'.spin = some u ↔ s.spin = some u := by
      obtain h' | ⟨h₁, h₂⟩ | ⟨h₁, h₂⟩ := hspin
      · rw [h']
      · simp [h₁, h₂, Ne.symm hut]
      · simp [h₁, h₂, Ne.symm hut]
    rw [hiff]
    exact h u

theorem task_woken : ∃ st, (s.set u (s.task u).woken).task t = { s.task t with state := st } := by
  by_cases htu : t = u
  · subst htu
    rw [set_self]
    exact (s.task t).woken_eq
  · rw [set_of_ne htu]
    exact ⟨_, rfl⟩

theorem Located.set (h : s.Located) (hx : x.Located (s.spin = some t)) : (s.set t x).Located :=
  h.step rfl (.inl rfl) hx

theorem Step.located (h : Step init s s') (hs : s.Located) : s'.Located := by
  cases h with
  | callLock t hon hpc =>
    obtain ⟨h₁, h₂, h₃, h₄⟩ := (hs t).at hon hpc (by nofun)
    exact hs.set (.of_on hon h₁ h₂ h₃ (by nofun) h₄)
  | acquire t hon hpc hfree =>
    obtain ⟨h₁, h₂, h₃, h₄⟩ := (hs t).at hon hpc (by nofun)
    exact hs.step rfl (.inr (.inl ⟨hfree, rfl⟩))
      (.of_on hon (iff_of_true rfl rfl) h₂ h₃ (by nofun) h₄)
  | testFree t hon hpc hl =>
    obtain ⟨h₁, h₂, h₃, h₄⟩ := (hs t).at hon hpc (by nofun)
    exact hs.step rfl (.inl rfl) (.of_on hon h₁ h₂ h₃ (by nofun) h₄)
  | testLocked t hon hpc hl =>
    obtain ⟨h₁, h₂, h₃, h₄⟩ := (hs t).at hon hpc (by nofun)
    exact hs.set (.of_on hon h₁ h₂ h₃ (by nofun) h₄)
  | leave t hon hpc =>
    obtain ⟨h₁, h₂, h₃, h₄⟩ := (hs t).at hon hpc (by nofun)
    exact hs.step rfl (.inr (.inr ⟨h₁.mpr rfl, rfl⟩))
      (.of_on hon (iff_of_false (by nofun) (by nofun)) h₂ h₃ (by nofun) h₄)
  | lockTask t hon hpc hfree =>
    obtain ⟨h₁, h₂, h₃, h₄⟩ := (hs t).at hon hpc (by nofun)
    exact hs.set (.of_on hon h₁ rfl h₃ (by nofun) h₄)
  | releaseSpin t hon hpc =>
    obtain ⟨h₁, h₂, h₃, h₄⟩ := (hs t).at hon hpc (by nofun)
    exact hs.step rfl (.inr (.inr ⟨h₁.mpr rfl, rfl⟩))
      (.of_on hon (iff_of_false (by nofun) (by nofun)) h₂ h₃ (by nofun) h₄)
  | setChan t hon hpc =>
    obtain ⟨h₁, h₂, h₃, h₄⟩ := (hs t).at hon hpc (by nofun)
    exact hs.set (.of_on hon h₁ h₂ (iff_of_true rfl rfl) (by nofun) h₄)
  | setState t hon hpc =>
    obtain ⟨h₁, h₂, h₃, h₄⟩ := (hs t).at hon hpc (by nofun)
    exact hs.set ⟨h₁, h₂, h₃, fun hoff => absurd (hon.symm.trans hoff) (by nofun),
      fun _ => ⟨by nofun, fun hne => absurd rfl hne⟩⟩
  | switch t hon hpc =>
    have ht := hs t
    have hspin := ht.spin_iff
    have hchan := ht.chan_iff
    rw [hpc] at hspin hchan
    exact hs.set ⟨hspin, rfl, hchan, fun _ => .inr rfl, by nofun⟩
  | resetChan t hon hpc =>
    obtain ⟨h₁, h₂, h₃, h₄⟩ := (hs t).at hon hpc (by nofun)
    exact hs.set (.of_on hon h₁ h₂ (iff_of_false (by nofun) (by nofun)) (by nofun) h₄)
  | unlockTask t hon hpc =>
    obtain ⟨h₁, h₂, h₃, h₄⟩ := (hs t).at hon hpc (by nofun)
    exact hs.set (.of_on hon h₁ rfl h₃ (by nofun) h₄)
  | callUnlock t hon hpc hholds =>
    obtain ⟨h₁, h₂, h₃, h₄⟩ := (hs t).at hon hpc (by nofun)
    exact hs.set (.of_on hon h₁ h₂ h₃ (by nofun) h₄)
  | acquireUnlock t hon hpc hfree =>
    obtain ⟨h₁, h₂, h₃, h₄⟩ := (hs t).at hon hpc (by nofun)
    exact hs.step rfl (.inr (.inl ⟨hfree, rfl⟩))
      (.of_on hon (iff_of_true rfl rfl) h₂ h₃ (by nofun) h₄)
  | clear t hon hpc =>
    obtain ⟨h₁, h₂, h₃, h₄⟩ := (hs t).at hon hpc (by nofun)
    exact hs.step rfl (.inl rfl) (.of_on hon h₁ h₂ h₃ (by nofun) h₄)
  | @wake t u rest hon hpc hfree =>
    have hw : (s.set u (s.task u).woken).Located := hs.set (hs u).woken
    obtain ⟨st, hst⟩ := task_woken (s := s) (t := t) (u := u)
    have ht := hw t
    rw [hst] at ht
    obtain ⟨h₁, h₂, h₃, h₄⟩ := ht.at hon hpc (by nofun)
    refine hw.set ?_
    rw [hst]
    exact .of_on hon h₁ h₂ h₃ (by nofun) h₄
  | wakeDone t hon hpc =>
    obtain ⟨h₁, h₂, h₃, h₄⟩ := (hs t).at hon hpc (by nofun)
    exact hs.step rfl (.inr (.inr ⟨h₁.mpr rfl, rfl⟩))
      (.of_on hon (iff_of_false (by nofun) (by nofun)) h₂ h₃ (by nofun) h₄)
  | schedule t hoff hrun hfree => exact hs.set ((hs t).resumed hoff)
  | yield t hon hpc hfree =>
    exact hs.set ((hs t).parked hpc _ ((hs t).chan_ne hpc))
  | sleepOther t c hon hpc hfree =>
    exact hs.set ((hs t).parked (by rw [hpc]; rfl) _ (by nofun))
  | wakeOther t hst hc hfree =>
    exact hs.set ((hs t).state ((hs t).off_of_sleeping hst hc) _)
  | wakeInit hoff => exact hs.set ((hs init).state hoff _)
  | exit t hon hpc =>
    have hint : (s.task t).pc.interruptible := by rw [hpc]; rfl
    exact hs.set ((hs t).parked hint _ ((hs t).chan_ne hint))
  | reuse t st hoff hpc hz hst =>
    have hint : (s.task t).pc.interruptible := by rw [hpc]; rfl
    have hx := (hs t).parked hint st (c := .none) (by nofun)
    refine hs.set ?_
    rwa [← hoff] at hx

/-- The lock is taken while one task has it, and only that task calls `unlock`. -/
structure Exclusive (s : LockState n) : Prop where
  unique : ∀ t u, (s.task t).Has → (s.task u).Has → t = u
  locked_iff : s.locked ↔ ∃ t, (s.task t).Has
  holds_of_unlock : ∀ t, (s.task t).pc = .acquireUnlock ∨ (s.task t).pc = .clear → (s.task t).holds

theorem Exclusive.unlock (h : s.Exclusive) (htask : s'.task = Function.update s.task t x)
    (hx : x.pc = .acquireUnlock ∨ x.pc = .clear → x.holds) :
    ∀ u, (s'.task u).pc = .acquireUnlock ∨ (s'.task u).pc = .clear → (s'.task u).holds := by
  intro u
  rw [htask]
  by_cases hut : u = t
  · rw [hut, Function.update_self]
    exact hx
  · rw [Function.update_of_ne hut]
    exact h.holds_of_unlock u

theorem Exclusive.step (h : s.Exclusive) (htask : s'.task = Function.update s.task t x)
    (hlocked : s'.locked = s.locked) (hhas : x.Has ↔ (s.task t).Has)
    (hx : x.pc = .acquireUnlock ∨ x.pc = .clear → x.holds) : s'.Exclusive := by
  have hiff : ∀ u, (s'.task u).Has ↔ (s.task u).Has := by
    intro u
    rw [htask]
    by_cases hut : u = t
    · rw [hut, Function.update_self]
      exact hhas
    · rw [Function.update_of_ne hut]
  refine ⟨?_, ?_, ?_⟩
  · intro u v hu hv
    exact h.unique u v ((hiff u).mp hu) ((hiff v).mp hv)
  · rw [hlocked, h.locked_iff]
    exact exists_congr fun u => (hiff u).symm
  · exact h.unlock htask hx

theorem Exclusive.goto (h : s.Exclusive) (htask : s'.task = Function.update s.task t x)
    (hlocked : s'.locked = s.locked) (hpc : (s.task t).pc ≠ .leave) (hx : x.pc ≠ .leave)
    (hholds : x.holds = (s.task t).holds) (hu : x.pc ≠ .acquireUnlock) (hc : x.pc ≠ .clear) :
    s'.Exclusive := by
  refine h.step htask hlocked ?_ fun h => (h.elim hu hc).elim
  unfold LockTask.Has
  rw [hholds]
  exact or_congr (iff_of_false hx hpc) Iff.rfl

theorem Exclusive.same (h : s.Exclusive) (hpc : x.pc = (s.task t).pc)
    (hholds : x.holds = (s.task t).holds) : (s.set t x).Exclusive := by
  refine h.step rfl rfl ?_ ?_
  · unfold LockTask.Has
    rw [hpc, hholds]
  · rw [hpc, hholds]
    exact h.holds_of_unlock t

theorem Exclusive.take (h : s.Exclusive) (hl : s.locked = false) :
    { s.goto t .leave with locked := true, pid := t }.Exclusive := by
  have hnone : ∀ u, ¬(s.task u).Has := by
    intro u hu
    have hlocked := h.locked_iff.mpr ⟨u, hu⟩
    rw [hl] at hlocked
    cases hlocked
  have hself : ∀ u, ((s.goto t .leave).task u).Has → u = t := by
    intro u hu
    by_contra hut
    rw [LockState.goto, set_of_ne hut] at hu
    exact hnone u hu
  refine ⟨fun u v hu hv => (hself u hu).trans (hself v hv).symm, iff_of_true rfl ⟨t, ?_⟩,
    h.unlock rfl (by rintro (hu | hu) <;> cases hu)⟩
  change ((s.goto t .leave).task t).Has
  rw [LockState.goto, set_self]
  exact .inl rfl

theorem Exclusive.give (h : s.Exclusive) (hholds : (s.task t).holds) {rest : List (Fin n)} :
    { s.set t { s.task t with pc := .wake rest, holds := false } with
      locked := false, pid := 0 }.Exclusive := by
  have hnone : ∀ u,
      ¬((s.set t { s.task t with pc := .wake rest, holds := false }).task u).Has := by
    intro u hu
    by_cases hut : u = t
    · rw [hut, set_self] at hu
      rcases hu with hu | hu <;> cases hu
    · rw [set_of_ne hut] at hu
      exact hut (h.unique u t hu (.inr hholds))
  exact ⟨fun u v hu => absurd hu (hnone u), iff_of_false (by nofun) fun ⟨u, hu⟩ => hnone u hu,
    h.unlock rfl (by rintro (hu | hu) <;> cases hu)⟩

theorem Step.exclusive (h : Step init s s') (hs : s.Exclusive) : s'.Exclusive := by
  cases h with
  | callLock t hon hpc =>
    exact hs.goto rfl rfl (by rw [hpc]; nofun) (by nofun) rfl (by nofun) (by nofun)
  | acquire t hon hpc hfree =>
    exact hs.goto rfl rfl (by rw [hpc]; nofun) (by nofun) rfl (by nofun) (by nofun)
  | testFree t hon hpc hl => exact hs.take hl
  | testLocked t hon hpc hl =>
    exact hs.goto rfl rfl (by rw [hpc]; nofun) (by nofun) rfl (by nofun) (by nofun)
  | leave t hon hpc =>
    exact hs.step rfl rfl (iff_of_true (.inr rfl) (.inl hpc)) fun _ => rfl
  | lockTask t hon hpc hfree =>
    exact hs.goto rfl rfl (by rw [hpc]; nofun) (by nofun) rfl (by nofun) (by nofun)
  | releaseSpin t hon hpc =>
    exact hs.goto rfl rfl (by rw [hpc]; nofun) (by nofun) rfl (by nofun) (by nofun)
  | setChan t hon hpc =>
    exact hs.goto rfl rfl (by rw [hpc]; nofun) (by nofun) rfl (by nofun) (by nofun)
  | setState t hon hpc =>
    exact hs.goto rfl rfl (by rw [hpc]; nofun) (by nofun) rfl (by nofun) (by nofun)
  | switch t hon hpc =>
    exact hs.goto rfl rfl (by rw [hpc]; nofun) (by nofun) rfl (by nofun) (by nofun)
  | resetChan t hon hpc =>
    exact hs.goto rfl rfl (by rw [hpc]; nofun) (by nofun) rfl (by nofun) (by nofun)
  | unlockTask t hon hpc =>
    exact hs.goto rfl rfl (by rw [hpc]; nofun) (by nofun) rfl (by nofun) (by nofun)
  | callUnlock t hon hpc hholds =>
    exact hs.step rfl rfl (iff_of_true (.inr hholds) (.inr hholds)) fun _ => hholds
  | acquireUnlock t hon hpc hfree =>
    have hholds := hs.holds_of_unlock t (.inl hpc)
    exact hs.step rfl rfl (iff_of_true (.inr hholds) (.inr hholds)) fun _ => hholds
  | clear t hon hpc => exact hs.give (hs.holds_of_unlock t (.inr hpc))
  | @wake t u rest hon hpc hfree =>
    have hw : (s.set u (s.task u).woken).Exclusive := by
      obtain ⟨st, hst⟩ := (s.task u).woken_eq
      rw [hst]
      exact hs.same rfl rfl
    obtain ⟨st, hst⟩ := task_woken (s := s) (t := t) (u := u)
    refine hw.goto rfl rfl ?_ (by nofun) rfl (by nofun) (by nofun)
    rw [hst, hpc]
    nofun
  | wakeDone t hon hpc =>
    exact hs.goto rfl rfl (by rw [hpc]; nofun) (by nofun) rfl (by nofun) (by nofun)
  | schedule t hoff hrun hfree =>
    unfold LockTask.resumed
    split
    · rename_i hpc
      exact hs.goto rfl rfl (by rw [hpc]; nofun) (by nofun) rfl (by nofun) (by nofun)
    · exact hs.same rfl rfl
  | yield t hon hpc hfree => exact hs.same rfl rfl
  | sleepOther t c hon hpc hfree => exact hs.same rfl rfl
  | wakeOther t hst hc hfree => exact hs.same rfl rfl
  | wakeInit hoff => exact hs.same rfl rfl
  | exit t hon hpc => exact hs.same rfl rfl
  | reuse t st hoff hpc hz hst => exact hs.same rfl rfl

/-- Every task that waits will be looked at by a `wakeup`: one is still to come, as the lock is
taken, or one is on its way to the task. -/
def Attended (s : LockState n) : Prop :=
  ∀ u, (s.task u).Waits → s.locked ∨ ∃ w rest, (s.task w).pc = .wake rest ∧ u ∈ rest

theorem Attended.step (h : s.Attended) (htask : s'.task = Function.update s.task t x)
    (hlocked : s.locked → s'.locked) (hwake : ∀ rest, (s.task t).pc ≠ .wake rest)
    (hx : x.Waits → s.locked ∨ (s.task t).Waits) : s'.Attended := by
  have hother : ∀ u, (s.task u).Waits →
      s'.locked ∨ ∃ w rest, (s'.task w).pc = .wake rest ∧ u ∈ rest := by
    intro u hu
    obtain hl | ⟨w, rest, hw, hmem⟩ := h u hu
    · exact .inl (hlocked hl)
    · refine .inr ⟨w, rest, ?_, hmem⟩
      rw [htask, Function.update_of_ne]
      · exact hw
      · rintro rfl
        exact hwake rest hw
  intro u hu
  rw [htask] at hu
  by_cases hut : u = t
  · rw [hut, Function.update_self] at hu
    obtain hl | ht := hx hu
    · exact .inl (hlocked hl)
    · rw [hut]
      exact hother t ht
  · rw [Function.update_of_ne hut] at hu
    exact hother u hu

theorem Located.waker_unique {w : Fin n} {l l' : List (Fin n)} (h : s.Located)
    (ht : (s.task t).pc = .wake l) (hw : (s.task w).pc = .wake l') : w = t := by
  have h₁ := (h t).spin_iff.mpr (by rw [ht]; rfl)
  have h₂ := (h w).spin_iff.mpr (by rw [hw]; rfl)
  exact Option.some.inj (h₂.symm.trans h₁)

/-- A turn of `wakeup`: the task that was looked at waits no more, and for the others the waker
goes on. -/
theorem Attended.wake {rest : List (Fin n)} (h : s.Attended) (hloc : s.Located)
    (hpc : (s.task t).pc = .wake (u :: rest)) (hfree : (s.task u).taskLock = false) :
    ((s.set u (s.task u).woken).goto t (.wake rest)).Attended := by
  intro v hv
  by_cases hvt : v = t
  · rw [hvt, goto, set_self] at hv
    simp [LockTask.Waits] at hv
  · rw [goto, set_of_ne hvt] at hv
    by_cases hvu : v = u
    · subst hvu
      rw [set_self] at hv
      have hspin : ¬s.spin = some v := by
        rw [(hloc t).spin_iff.mpr (by rw [hpc]; rfl)]
        exact fun he => hvt (Option.some.inj he).symm
      exact absurd hv ((hloc v).not_waits_woken hspin hfree)
    · rw [set_of_ne hvu] at hv
      obtain hl | ⟨w, rest', hw, hmem⟩ := h v hv
      · exact .inl hl
      · obtain rfl := hloc.waker_unique hpc hw
        obtain rfl : rest' = u :: rest := by
          rw [hpc] at hw
          cases hw
          rfl
        refine .inr ⟨w, rest, ?_, List.mem_of_ne_of_mem hvu hmem⟩
        rw [goto, set_self]

theorem Step.attended (h : Step init s s') (hloc : s.Located) (hs : s.Attended) : s'.Attended := by
  cases h with
  | callLock t hon hpc => exact hs.step rfl id (by rw [hpc]; nofun) (by simp [LockTask.Waits])
  | acquire t hon hpc hfree => exact hs.step rfl id (by rw [hpc]; nofun) (by simp [LockTask.Waits])
  | testFree t hon hpc hl =>
    exact hs.step rfl (fun _ => rfl) (by rw [hpc]; nofun) (by simp [LockTask.Waits])
  | testLocked t hon hpc hl => exact hs.step rfl id (by rw [hpc]; nofun) fun _ => .inl hl
  | leave t hon hpc => exact hs.step rfl id (by rw [hpc]; nofun) (by simp [LockTask.Waits])
  | lockTask t hon hpc hfree =>
    exact hs.step rfl id (by rw [hpc]; nofun) fun _ => .inr (.inl hpc)
  | releaseSpin t hon hpc =>
    exact hs.step rfl id (by rw [hpc]; nofun) fun _ => .inr (.inr (.inl hpc))
  | setChan t hon hpc =>
    exact hs.step rfl id (by rw [hpc]; nofun) fun _ => .inr (.inr (.inr (.inl hpc)))
  | setState t hon hpc =>
    exact hs.step rfl id (by rw [hpc]; nofun) fun _ => .inr (.inr (.inr (.inr (.inl hpc))))
  | switch t hon hpc =>
    refine hs.step rfl id (by rw [hpc]; nofun) fun hx => .inr (.inr (.inr (.inr (.inr ?_))))
    obtain h | h | h | h | ⟨-, h⟩ := hx
    · cases h
    · cases h
    · cases h
    · cases h
    · exact ⟨.inl hpc, h⟩
  | resetChan t hon hpc => exact hs.step rfl id (by rw [hpc]; nofun) (by simp [LockTask.Waits])
  | unlockTask t hon hpc => exact hs.step rfl id (by rw [hpc]; nofun) (by simp [LockTask.Waits])
  | callUnlock t hon hpc hholds =>
    exact hs.step rfl id (by rw [hpc]; nofun) (by simp [LockTask.Waits])
  | acquireUnlock t hon hpc hfree =>
    exact hs.step rfl id (by rw [hpc]; nofun) (by simp [LockTask.Waits])
  | clear t hon hpc =>
    intro u hu
    refine .inr ⟨t, List.finRange n, ?_, List.mem_finRange u⟩
    change ((s.set t _).task t).pc = _
    rw [set_self]
  | @wake t u rest hon hpc hfree => exact hs.wake hloc hpc hfree
  | wakeDone t hon hpc =>
    intro v hv
    change ((s.goto t .outside).task v).Waits at hv
    by_cases hvt : v = t
    · rw [hvt, goto, set_self] at hv
      exact absurd hv (LockTask.not_waits_of_interruptible rfl)
    · rw [goto, set_of_ne hvt] at hv
      obtain hl | ⟨w, rest, hw, hmem⟩ := hs v hv
      · exact .inl hl
      · obtain rfl := hloc.waker_unique hpc hw
        rw [hpc] at hw
        cases hw
        cases hmem
  | schedule t hoff hrun hfree =>
    refine hs.step rfl id ((hloc t).pc_ne_wake hoff) fun hx => ?_
    unfold LockTask.resumed at hx
    split at hx
    · simp [LockTask.Waits] at hx
    · rename_i hpc
      exact absurd hx (LockTask.not_waits_of_interruptible (((hloc t).off hoff).resolve_right hpc))
  | yield t hon hpc hfree =>
    refine hs.step rfl id ?_ fun hx => absurd hx (LockTask.not_waits_of_interruptible hpc)
    intro rest hw
    rw [hw] at hpc
    cases hpc
  | sleepOther t c hon hpc hfree =>
    exact hs.step rfl id (by rw [hpc]; nofun) (by simp [LockTask.Waits, hpc])
  | wakeOther t hst hc hfree =>
    exact hs.step rfl id ((hloc t).pc_ne_wake ((hloc t).off_of_sleeping hst hc))
      fun hx => .inr (hx.of_awake (by nofun))
  | wakeInit hoff =>
    exact hs.step rfl id ((hloc init).pc_ne_wake hoff) fun hx => .inr (hx.of_awake (by nofun))
  | exit t hon hpc => exact hs.step rfl id (by rw [hpc]; nofun) (by simp [LockTask.Waits, hpc])
  | reuse t st hoff hpc hz hst =>
    exact hs.step rfl id (by rw [hpc]; nofun) (by simp [LockTask.Waits, hpc])

structure Inv (s : LockState n) : Prop where
  located : s.Located
  exclusive : s.Exclusive
  attended : s.Attended

theorem Initial.inv (h : s.Initial) : s.Inv where
  located t := by
    have hpc := h.pc t
    refine ⟨?_, ?_, ?_, ?_, ?_⟩
    · rw [h.spin, hpc]
      exact iff_of_false (by nofun) (by nofun)
    · rw [h.taskLock, hpc]
      rfl
    · rw [hpc]
      exact iff_of_false (h.chan t) (by nofun)
    · intro _
      rw [hpc]
      exact .inl rfl
    · intro hon
      rw [hpc]
      exact ⟨by nofun, fun _ => h.on t hon⟩
  exclusive := by
    have hnone : ∀ t, ¬(s.task t).Has := by
      rintro t (hpc | hholds)
      · rw [h.pc t] at hpc
        cases hpc
      · rw [h.holds t] at hholds
        cases hholds
    refine ⟨fun t u ht => absurd ht (hnone t), ?_, ?_⟩
    · rw [h.locked]
      exact iff_of_false (by nofun) fun ⟨t, ht⟩ => hnone t ht
    · intro t ht
      rw [h.pc t] at ht
      rcases ht with ht | ht <;> cases ht
  attended u hu := by
    refine absurd hu (LockTask.not_waits_of_interruptible ?_)
    rw [h.pc u]
    rfl

theorem Step.inv (h : Step init s s') (hs : s.Inv) : s'.Inv :=
  ⟨h.located hs.located, h.exclusive hs.exclusive, h.attended hs.located hs.attended⟩

theorem inv_of_reachable (h₀ : s.Inv) (h : Relation.ReflTransGen (Step init) s s') : s'.Inv := by
  induction h with
  | refl => exact h₀
  | tail _ hstep ih => exact hstep.inv ih

/-- However the tasks follow each other, at most one of them is between the return of `lock` and
the end of its `unlock`, and no task sleeps on a lock that is free. -/
theorem sleepLock_safe (init : Fin n) (s₀ s : LockState n) (h₀ : s₀.Initial)
    (h : Relation.ReflTransGen (Step init) s₀ s) :
    (∀ t u, (s.task t).holds → (s.task u).holds → t = u) ∧
      (s.spin = none → s.locked = false →
        ∀ t, ¬((s.task t).state = .sleeping ∧ (s.task t).chan = .lock)) := by
  have hs := inv_of_reachable h₀.inv h
  refine ⟨fun t u ht hu => hs.exclusive.unique t u (.inr ht) (.inr hu), ?_⟩
  rintro hspin hlocked t ⟨hst, hchan⟩
  obtain hl | ⟨w, rest, hw, -⟩ := hs.attended t ((hs.located t).waits hst hchan)
  · rw [hlocked] at hl
    cases hl
  · have hheld := (hs.located w).spin_iff.mpr (by rw [hw]; rfl)
    rw [hspin] at hheld
    cases hheld

def contended : LockState 2 where
  spin := none
  locked := false
  pid := 0
  task _ := ⟨.outside, .running, .none, false, true, false⟩

theorem sleepLock_safe_contended : ∃ s : LockState 2,
    Relation.ReflTransGen (Step 0) contended s ∧ (s.task 0).holds ∧
      (s.task 1).state = .sleeping ∧ (s.task 1).chan = .lock ∧ ¬(s.task 1).holds := by
  have hinit : contended.Initial :=
    ⟨rfl, rfl, fun _ => rfl, fun _ => by nofun, fun _ => rfl, fun _ _ => rfl, fun _ => rfl⟩
  have hrun : ∃ s : LockState 2, Relation.ReflTransGen (Step 0) contended s ∧
      (s.task 0).holds ∧ (s.task 1).state = .sleeping ∧ (s.task 1).chan = .lock := by
    refine ⟨_, .tail (.tail (.tail (.tail (.tail (.tail (.tail (.tail (.tail (.tail (.tail (.tail
      .refl (.callLock _ 0 rfl rfl)) (.acquire _ 0 rfl rfl rfl)) (.testFree _ 0 rfl rfl rfl))
      (.leave _ 0 rfl rfl)) (.callLock _ 1 rfl rfl)) (.acquire _ 1 rfl rfl rfl))
      (.testLocked _ 1 rfl rfl rfl)) (.lockTask _ 1 rfl rfl rfl)) (.releaseSpin _ 1 rfl rfl))
      (.setChan _ 1 rfl rfl)) (.setState _ 1 rfl rfl)) (.switch _ 1 rfl rfl), rfl, rfl, rfl⟩
  obtain ⟨s, hs, h0, h1, h2⟩ := hrun
  refine ⟨s, hs, h0, h1, h2, fun hholds => ?_⟩
  have heq := (sleepLock_safe 0 contended s hinit hs).1 0 1 h0 hholds
  cases heq

end LockState

end StartOS
