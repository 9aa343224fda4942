import StartOS.Os.ProcTable

/-! # The tree of processes

Every process but the first has a parent that can run, and the processes of a
slot follow each other: born, exited, reaped. Both rest on one thing that the
code does not enforce: a slot that `allocTask` has returned stays `UNUSED` until
the end of `fork`, and must not be found by another `allocTask` in the meantime.
-/

namespace StartOS

def CallPos.Plain : CallPos → Prop
  | .user | .scanning _ | .waiting => True
  | _ => False

def ProcState.phase : ProcState → Life
  | .unused => .free
  | .zombie => .dead
  | _ => .alive

theorem ProcState.Live.phase_eq {st : ProcState} (h : st.Live) : st.phase = .alive := by
  cases st with
  | unused => exact absurd rfl h.1
  | zombie => exact absurd rfl h.2
  | _ => rfl

namespace ProcTable

variable {s s' : ProcTable} {i j k : ℕ}

section Fields

variable {p : CallPos} {e : Entry} {ev : ProcEvent}

@[simp] theorem entry_goto : (s.goto i p).entry = s.entry := rfl

@[simp] theorem pos_goto : (s.goto i p).pos j = if j = i then p else s.pos j :=
  Function.update_apply ..

@[simp] theorem log_goto : (s.goto i p).log = s.log := rfl

@[simp] theorem entry_set : (s.set k e).entry j = if j = k then e else s.entry j :=
  Function.update_apply ..

@[simp] theorem pos_set : (s.set k e).pos = s.pos := rfl

@[simp] theorem log_set : (s.set k e).log = s.log := rfl

@[simp] theorem entry_note : (s.note ev).entry = s.entry := rfl

@[simp] theorem pos_note : (s.note ev).pos = s.pos := rfl

@[simp] theorem log_note : (s.note ev).log = s.log ++ [ev] := rfl

end Fields

/-- A task that is not in use is filled by one task or by none, and every other task but the first
has a parent that can run. -/
structure Tree (s : ProcTable) : Prop where
  bound : ∀ k, (s.entry k).state ≠ .unused → k < ntask
  init : (s.entry initTask).state.Live
  parent : ∀ k, (s.entry k).state ≠ .unused → k ≠ initTask →
    ∃ p, (s.entry k).parent = some p ∧ (s.entry p).state.Live
  spare : ∀ k p, (s.entry k).state = .unused → (s.entry k).parent = some p → s.pos p = .linked k
  busy : ∀ i, s.pos i ≠ .user → (s.entry i).state.Live
  fills : ∀ i k, s.Fills i k → (s.entry k).state = .unused ∧ k < ntask
  unique : ∀ i j k, s.Fills i k → s.Fills j k → i = j
  linked : ∀ i k, s.pos i = .linked k → (s.entry k).parent = some i
  childless : ∀ i n, s.pos i = .exiting n → i ≠ initTask ∧ ∀ k, (s.entry k).parent ≠ some i
  waited : ∀ i k, s.pos i = .waiting4 k → (s.entry k).parent = some i ∧ (s.entry k).state ≠ .unused

/-- A task goes to a position that says nothing about other slots. -/
theorem Tree.goto {p : CallPos} (hs : s.Tree) (hi : (s.entry i).state.Live)
    (hfrom : ∀ k, s.pos i ≠ .linked k) (hp : p.Plain) : (s.goto i p).Tree := by
  have hfills : ∀ j k, (s.goto i p).Fills j k → s.Fills j k := by
    intro j k hj
    simp only [Fills, pos_goto] at hj ⊢
    by_cases hji : j = i
    · rw [if_pos hji] at hj
      rcases hj with rfl | rfl <;> cases hp
    · rwa [if_neg hji] at hj
  refine ⟨hs.bound, hs.init, hs.parent, ?_, ?_, ?_, ?_, ?_, ?_, ?_⟩
  · intro k q hk hq
    have hpos := hs.spare k q hk hq
    rw [pos_goto, if_neg]
    · exact hpos
    · rintro rfl
      exact hfrom k hpos
  · intro j hj
    rw [pos_goto] at hj
    by_cases hji : j = i
    · exact hji ▸ hi
    · rw [if_neg hji] at hj
      exact hs.busy j hj
  · exact fun j k hj => hs.fills j k (hfills j k hj)
  · exact fun j j' k hj hj' => hs.unique j j' k (hfills j k hj) (hfills j' k hj')
  · intro j x hj
    rw [pos_goto] at hj
    split at hj
    · cases hj
      cases hp
    · exact hs.linked j x hj
  · intro j x hj
    rw [pos_goto] at hj
    split at hj
    · cases hj
      cases hp
    · exact hs.childless j x hj
  · intro j x hj
    rw [pos_goto] at hj
    split at hj
    · cases hj
      cases hp
    · exact hs.waited j x hj

theorem Tree.ne_of_fills (hs : s.Tree) (hi : (s.entry i).state.Live) (h : s.Fills j k) : i ≠ k := by
  rintro rfl
  exact hi.1 (hs.fills j i h).1

theorem Tree.given (hs : s.Tree) (hi : (s.entry i).state.Live) (hp : s.pos i = .scanning k)
    (hk : k < ntask) (hfree : (s.entry k).state = .unused) (hno : ∀ j, ¬s.Fills j k) :
    (s.goto i (.copying k)).Tree := by
  simp only [Fills] at hno
  refine ⟨hs.bound, hs.init, hs.parent, ?_, ?_, ?_, ?_, ?_, ?_, ?_⟩ <;>
    simp only [Fills, entry_goto, pos_goto]
  · have := hs.spare
    grind
  · have := hs.busy
    grind
  · have h := hs.fills
    simp only [Fills] at h
    grind
  · have h := hs.unique
    simp only [Fills] at h
    grind
  · have := hs.linked
    grind
  · have := hs.childless
    grind
  · have := hs.waited
    grind

theorem Tree.link (hs : s.Tree) (hi : (s.entry i).state.Live) (hp : s.pos i = .copying k) :
    ((s.goto i (.linked k)).set k { s.entry k with parent := some i }).Tree := by
  obtain ⟨hfree, hk⟩ := hs.fills i k (.inl hp)
  have hone : ∀ j, s.pos j ≠ .linked k := by
    intro j hj
    obtain rfl := hs.unique i j k (.inl hp) (.inr hj)
    rw [hp] at hj
    cases hj
  have hinit := hs.init
  refine ⟨?_, ?_, ?_, ?_, ?_, ?_, ?_, ?_, ?_, ?_⟩ <;>
    simp only [Fills, entry_set, pos_set, entry_goto, pos_goto]
  · have := hs.bound
    grind
  · grind
  · have := hs.parent
    grind
  · have := hs.spare
    grind
  · have := hs.busy
    grind
  · have h := hs.fills
    simp only [Fills] at h
    grind
  · have h := hs.unique
    simp only [Fills] at h
    grind
  · have := hs.linked
    grind
  · have := hs.childless
    grind
  · have := hs.waited
    grind

theorem Tree.start (hs : s.Tree) (hi : (s.entry i).state.Live) (hp : s.pos i = .linked k) :
    ((s.goto i .user).set k { s.entry k with state := .runnable }).Tree := by
  obtain ⟨hfree, hk⟩ := hs.fills i k (.inr hp)
  have hparent := hs.linked i k hp
  have hlive : ProcState.runnable.Live := by decide
  have hne := hs.ne_of_fills hi (.inr hp)
  have hbusy := hs.busy
  refine ⟨?_, ?_, ?_, ?_, ?_, ?_, ?_, ?_, ?_, ?_⟩ <;>
    simp only [Fills, entry_set, pos_set, entry_goto, pos_goto]
  · have := hs.bound
    grind
  · have := hs.init
    grind
  · have := hs.parent
    grind
  · have := hs.spare
    grind
  · grind
  · have h₁ := hs.fills
    have h₂ := hs.unique
    simp only [Fills] at h₁ h₂
    grind
  · have h := hs.unique
    simp only [Fills] at h
    grind
  · have := hs.linked
    grind
  · have := hs.childless
    grind
  · have := hs.waited
    grind

/-- The children of a task that exits are given to the first process. -/
theorem Tree.adopt (hs : s.Tree) (hi : (s.entry i).state.Live) (hp : s.pos i = .user)
    (hinit : i ≠ initTask) (status : ℤ) : ((s.adopt i).goto i (.exiting status)).Tree := by
  have hbound := hs.bound
  have hlive := hs.init
  have hspare := hs.spare
  have hfills := hs.fills
  have hlinked := hs.linked
  simp only [Fills] at hfills
  refine ⟨?_, ?_, ?_, ?_, ?_, ?_, ?_, ?_, ?_, ?_⟩ <;>
    simp only [Fills, entry_goto, pos_goto, ProcTable.adopt]
  · grind
  · grind
  · have := hs.parent
    grind
  · grind
  · have := hs.busy
    grind
  · grind
  · have h := hs.unique
    simp only [Fills] at h
    grind
  · grind
  · have := hs.childless
    grind
  · have := hs.waited
    grind

theorem Tree.exit (hs : s.Tree) {status : ℤ} (hi : (s.entry i).state.Live)
    (hp : s.pos i = .exiting status) :
    ((s.goto i .user).set i { s.entry i with state := .zombie, xstate := 0 }).Tree := by
  obtain ⟨hinit, hchildless⟩ := hs.childless i status hp
  have hbound := hs.bound i hi.1
  have hfills := hs.fills
  simp only [Fills] at hfills
  have hused : (s.entry i).state ≠ .unused := hi.1
  refine ⟨?_, ?_, ?_, ?_, ?_, ?_, ?_, ?_, ?_, ?_⟩ <;>
    simp only [Fills, entry_set, pos_set, entry_goto, pos_goto]
  · have := hs.bound
    grind
  · have := hs.init
    grind
  · have := hs.parent
    grind
  · have := hs.spare
    grind
  · have := hs.busy
    grind
  · grind
  · have h := hs.unique
    simp only [Fills] at h
    grind
  · have := hs.linked
    grind
  · have := hs.childless
    grind
  · have := hs.waited
    grind

theorem Tree.free (hs : s.Tree) (hi : (s.entry i).state.Live)
    (hp : s.pos i = .user ∨ s.pos i = .waiting ∨ s.pos i = .waiting4 k)
    (hparent : (s.entry k).parent = some i) (hz : (s.entry k).state = .zombie) :
    ((s.goto i .user).free k).Tree := by
  have hki : i ≠ k := by
    rintro rfl
    exact hi.2 hz
  have hdead : ∀ j, (s.entry j).state.Live → j ≠ k := by
    rintro j hj rfl
    exact hj.2 hz
  refine ⟨?_, ?_, ?_, ?_, ?_, ?_, ?_, ?_, ?_, ?_⟩ <;>
    simp only [Fills, ProcTable.free, entry_set, pos_set, entry_goto, pos_goto]
  · have := hs.bound
    grind
  · have := hs.init
    grind
  · have := hs.parent
    grind
  · have := hs.spare
    grind
  · have := hs.busy
    grind
  · have h := hs.fills
    simp only [Fills] at h
    grind
  · have h := hs.unique
    simp only [Fills] at h
    grind
  · have h := hs.fills
    simp only [Fills] at h
    have := hs.linked
    grind
  · have := hs.childless
    grind
  · have := hs.waited
    grind

theorem Tree.wait4 (hs : s.Tree) (hi : (s.entry i).state.Live) (hp : s.pos i = .user)
    (hparent : (s.entry k).parent = some i) : (s.goto i (.waiting4 k)).Tree := by
  refine ⟨hs.bound, hs.init, hs.parent, ?_, ?_, ?_, ?_, ?_, ?_, ?_⟩ <;>
    simp only [Fills, entry_goto, pos_goto]
  · have := hs.spare
    grind
  · have := hs.busy
    grind
  · have h := hs.fills
    simp only [Fills] at h
    grind
  · have h := hs.unique
    simp only [Fills] at h
    grind
  · have := hs.linked
    grind
  · have := hs.childless
    grind
  · have := hs.waited
    have := hs.spare
    grind

theorem Tree.same (hs : s.Tree) (hpos : s'.pos = s.pos)
    (hparent : ∀ k, (s'.entry k).parent = (s.entry k).parent)
    (hstate : ∀ k, (s'.entry k).state = (s.entry k).state ∨
      (s.entry k).state.Live ∧ (s'.entry k).state.Live) : s'.Tree := by
  have hlive : ∀ k, (s.entry k).state.Live → (s'.entry k).state.Live := by
    intro k hk
    obtain h | h := hstate k
    · rwa [h]
    · exact h.2
  have hunused : ∀ k, (s'.entry k).state = .unused ↔ (s.entry k).state = .unused := by
    intro k
    obtain h | h := hstate k
    · rw [h]
    · exact iff_of_false h.2.1 h.1.1
  refine ⟨?_, hlive _ hs.init, ?_, ?_, ?_, ?_, ?_, ?_, ?_, ?_⟩ <;>
    simp only [Fills, hpos, hparent, ne_eq, hunused]
  · exact hs.bound
  · intro k hk hne
    obtain ⟨p, hp, hl⟩ := hs.parent k hk hne
    exact ⟨p, hp, hlive p hl⟩
  · exact hs.spare
  · exact fun i hi => hlive i (hs.busy i hi)
  · exact hs.fills
  · exact hs.unique
  · exact hs.linked
  · exact hs.childless
  · exact hs.waited

theorem state_shift : ((s.shift k).entry j).state = (s.entry j).state := by
  rw [shift, entry_set]
  split
  · rename_i h
    rw [h]
  · rfl

theorem parent_shift : ((s.shift k).entry j).parent = (s.entry j).parent := by
  rw [shift, entry_set]
  split
  · rename_i h
    rw [h]
  · rfl

theorem Tree.shift (hs : s.Tree) (k : ℕ) : (s.shift k).Tree :=
  hs.same rfl (fun _ => parent_shift) fun _ => .inl state_shift

theorem Tree.note (hs : s.Tree) (ev : ProcEvent) : (s.note ev).Tree :=
  hs.same rfl (fun _ => rfl) fun _ => .inl rfl

theorem deadChild_some (h : s.deadChild i = some k) :
    k < ntask ∧ (s.entry k).parent = some i ∧ (s.entry k).state = .zombie := by
  have hk := List.find?_some h
  rw [decide_eq_true_iff] at hk
  exact ⟨List.mem_range.mp (List.mem_of_find?_eq_some h), hk⟩

theorem boot_tree : boot.Tree := by
  have hunused : ∀ k, (boot.entry k).state ≠ .unused → k = initTask := by
    intro k hk
    by_contra hne
    exact hk (if_neg hne)
  refine ⟨?_, by decide, ?_, ?_, ?_, ?_, ?_, ?_, ?_, ?_⟩
  · intro k hk
    rw [hunused k hk]
    decide
  · exact fun k hk hne => absurd (hunused k hk) hne
  · exact fun k p _ hp => by cases hp
  · exact fun i hi => absurd rfl hi
  · exact fun i k h => by rcases h with h | h <;> cases h
  · exact fun i j k h => by rcases h with h | h <;> cases h
  · exact fun i k h => by cases h
  · exact fun i n h => by cases h
  · exact fun i k h => by cases h

theorem CalmStep.tree (h : CalmStep s s') (hs : s.Tree) : s'.Tree := by
  obtain ⟨hstep, hcalm⟩ := h
  cases hstep with
  | callFork i hi hp => exact hs.goto (hi ▸ ProcState.live_running) (by rw [hp]; nofun) trivial
  | scanNext i hi hp hk hused =>
    exact hs.goto (hi ▸ ProcState.live_running) (by rw [hp]; nofun) trivial
  | scanFail i hi hp hk => exact hs.goto (hi ▸ ProcState.live_running) (by rw [hp]; nofun) trivial
  | @scanFound i k hi hp hk hfree =>
    have hno := hcalm i k hp (by simp)
    exact (hs.given (hi ▸ ProcState.live_running) hp hk hfree hno).note _
  | link i hi hp => exact hs.link (hi ▸ ProcState.live_running) hp
  | start i hi hp => exact (hs.start (hi ▸ ProcState.live_running) hp).note _
  | exitBegin i status hi hp hinit => exact hs.adopt (hi ▸ ProcState.live_running) hp hinit status
  | exitEnd i hi hp => exact (hs.exit (hi ▸ ProcState.live_running) hp).note _
  | waitReap i hi hp hk =>
    obtain ⟨-, hparent, hz⟩ := deadChild_some hk
    exact (hs.free (hi ▸ ProcState.live_running) (hp.imp id .inl) hparent hz).note _
  | waitFault i hi hp hk =>
    exact hs.goto (hi ▸ ProcState.live_running)
      (by rcases hp with hp | hp <;> rw [hp] <;> nofun) trivial
  | waitSleep i hi hp hk hchild =>
    exact hs.goto (hi ▸ ProcState.live_running)
      (by rcases hp with hp | hp <;> rw [hp] <;> nofun) trivial
  | waitNone i hi hp hk hchild =>
    have hgoto : (s.goto i .user).Tree :=
      hs.goto (hi ▸ ProcState.live_running) (by rcases hp with hp | hp <;> rw [hp] <;> nofun) trivial
    exact hgoto.note _
  | wait4Call i pid hi hp hpid hchild => exact hs.wait4 (hi ▸ ProcState.live_running) hp hchild
  | @wait4Sleep i pid hi hp hz => exact hs.shift pid
  | @wait4Reap i pid hi hp hz =>
    exact (hs.free (hi ▸ ProcState.live_running) (.inr (.inr hp)) (hs.waited i pid hp).1 hz).note _
  | @wait4Fault i pid hi hp hz =>
    refine (hs.shift pid).goto ?_ (by rw [shift, pos_set, hp]; nofun) trivial
    rw [state_shift, hi]
    exact ProcState.live_running
  | other _ h => exact hs.same h.pos h.parent h.state

theorem tree_of_run (h : Relation.ReflTransGen CalmStep boot s) : s.Tree := by
  induction h with
  | refl => exact boot_tree
  | tail _ hstep ih => exact hstep.tree ih

end ProcTable

end StartOS
