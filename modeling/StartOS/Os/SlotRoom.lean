import StartOS.Os.ProcRun

/-! # Forks that overlap

`allocTask` goes up from slot 1 to the first slot that looks free. A slot that
another call fills looks free too, and so does one that another `allocTask` is
about to take. A call that finds a slot to spare below all of these stops before
it comes to any of them, whatever the tasks do meanwhile.
-/

namespace StartOS

namespace ProcTable

variable {s s' : ProcTable} {i j k l m : ℕ}

def Spare (s : ProcTable) (l : ℕ) : Prop := (s.entry l).state = .unused ∧ ∀ j, ¬s.Fills j l

def Room (s : ProcTable) (k m : ℕ) : Prop := ∃ l, k ≤ l ∧ l < m ∧ s.Spare l

/-- `fork` and `clone` are called only while there is a slot to spare below every slot that a call
fills and every slot that an `allocTask` has come to. -/
inductive RoomyStep (s s' : ProcTable) : Prop
  | step (h : Step s s') (hroom : ∀ i, s.pos i = .user → s'.pos i = .scanning 1 →
      ∀ j m, s.Fills j m ∨ s.pos j = .scanning m → s.Room 1 m)

theorem Room.mono (h : s.Room k m) (hs : ∀ l, s.Spare l → s'.Spare l) : s'.Room k m := by
  obtain ⟨l, hkl, hlm, hl⟩ := h
  exact ⟨l, hkl, hlm, hs l hl⟩

theorem Room.lt (h : s.Room k m) : k < m := by
  obtain ⟨l, hkl, hlm, -⟩ := h
  omega

theorem Room.le (h : s.Room k l) (hm : l ≤ m) : s.Room k m := by
  obtain ⟨n, hkn, hnl, hn⟩ := h
  exact ⟨n, hkn, by omega, hn⟩

theorem Room.succ (h : s.Room k m) (hused : (s.entry k).state ≠ .unused) : s.Room (k + 1) m := by
  obtain ⟨l, hkl, hlm, hl⟩ := h
  have hne : k ≠ l := by
    rintro rfl
    exact hused hl.1
  exact ⟨l, by omega, hlm, hl⟩

/-- No `allocTask` will come to a slot that is filled, and no two of them to the same slot. -/
structure Apart (s : ProcTable) : Prop where
  fills : ∀ i j k m, s.pos i = .scanning k → s.Fills j m → m < k ∨ s.Room k m
  scans : ∀ i j k m, i ≠ j → s.pos i = .scanning k → s.pos j = .scanning m →
    s.Room k m ∨ s.Room m k

theorem Apart.not_fills (hs : s.Apart) (hp : s.pos i = .scanning k) (j : ℕ) : ¬s.Fills j k := by
  intro hj
  obtain h | h := hs.fills i j k k hp hj
  · exact lt_irrefl k h
  · exact lt_irrefl k h.lt

theorem Apart.of_le (hs : s.Apart) (hunused : ∀ l, s.Spare l → (s'.entry l).state = .unused)
    (hfills : ∀ j m, s'.Fills j m → s.Fills j m)
    (hscan : ∀ j m, s'.pos j = .scanning m → s.pos j = .scanning m) : s'.Apart := by
  have hspare : ∀ l, s.Spare l → s'.Spare l := fun l hl =>
    ⟨hunused l hl, fun j hj => hl.2 j (hfills j l hj)⟩
  refine ⟨fun i j k m hi hj => ?_, fun i j k m hij hi hj => ?_⟩
  · exact (hs.fills i j k m (hscan i k hi) (hfills j m hj)).imp_right fun h => h.mono hspare
  · exact (hs.scans i j k m hij (hscan i k hi) (hscan j m hj)).imp
      (fun h => h.mono hspare) fun h => h.mono hspare

/-- A task goes to a place where it neither fills a slot nor looks for one. -/
theorem Apart.leave {p : CallPos} (hs : s.Apart)
    (hp : ∀ m, p ≠ .copying m ∧ p ≠ .linked m ∧ p ≠ .scanning m) (hpos : s'.pos = (s.goto i p).pos)
    (hunused : ∀ l, s.Spare l → (s'.entry l).state = .unused) : s'.Apart := by
  have hpos : ∀ j, s'.pos j = if j = i then p else s.pos j := fun j => by rw [hpos, pos_goto]
  refine hs.of_le hunused ?_ ?_
  · intro j m hj
    unfold Fills at hj ⊢
    rw [hpos j] at hj
    split at hj
    · exact absurd hj (not_or.mpr ⟨(hp m).1, (hp m).2.1⟩)
    · exact hj
  · intro j m hj
    rw [hpos j] at hj
    split at hj
    · exact absurd hj (hp m).2.2
    · exact hj

theorem Apart.call (hs : s.Apart)
    (hroom : ∀ j m, s.Fills j m ∨ s.pos j = .scanning m → s.Room 1 m) :
    (s.goto i (.scanning 1)).Apart := by
  have hback : ∀ j m, (s.goto i (.scanning 1)).Fills j m → s.Fills j m := by
    intro j m hj
    simp only [Fills, pos_goto] at hj ⊢
    grind
  have hmono : ∀ k m, s.Room k m → (s.goto i (.scanning 1)).Room k m := fun k m h =>
    h.mono fun l hl => ⟨hl.1, fun j hj => hl.2 j (hback j l hj)⟩
  refine ⟨fun a j k m ha hj => ?_, fun a j k m haj ha hj => ?_⟩
  · rw [pos_goto] at ha
    split at ha
    · cases ha
      exact .inr (hmono 1 m (hroom j m (.inl (hback j m hj))))
    · exact (hs.fills a j k m ha (hback j m hj)).imp_right (hmono k m)
  · rw [pos_goto] at ha hj
    split at ha
    · rename_i hai
      cases ha
      rw [if_neg (fun h => haj (hai.trans h.symm))] at hj
      exact .inl (hmono 1 m (hroom j m (.inr hj)))
    · split at hj
      · cases hj
        exact .inr (hmono 1 k (hroom a k (.inr ha)))
      · exact (hs.scans a j k m haj ha hj).imp (hmono k m) (hmono m k)

theorem Apart.next (hs : s.Apart) (hp : s.pos i = .scanning k)
    (hused : (s.entry k).state ≠ .unused) : (s.goto i (.scanning (k + 1))).Apart := by
  have hback : ∀ j m, (s.goto i (.scanning (k + 1))).Fills j m → s.Fills j m := by
    intro j m hj
    simp only [Fills, pos_goto] at hj ⊢
    grind
  have hmono : ∀ k' m, s.Room k' m → (s.goto i (.scanning (k + 1))).Room k' m := fun k' m h =>
    h.mono fun l hl => ⟨hl.1, fun j hj => hl.2 j (hback j l hj)⟩
  refine ⟨fun a j a' m ha hj => ?_, fun a j a' m haj ha hj => ?_⟩
  · rw [pos_goto] at ha
    split at ha
    · cases ha
      obtain h | h := hs.fills i j k m hp (hback j m hj)
      · exact .inl (by omega)
      · exact .inr (hmono _ m (h.succ hused))
    · exact (hs.fills a j a' m ha (hback j m hj)).imp_right (hmono a' m)
  · rw [pos_goto] at ha hj
    split at ha
    · rename_i hai
      cases ha
      have hji : j ≠ i := fun h => haj (hai.trans h.symm)
      rw [if_neg hji] at hj
      obtain h | h := hs.scans i j k m hji.symm hp hj
      · exact .inl (hmono _ m (h.succ hused))
      · exact .inr (hmono m _ (h.le (Nat.le_succ k)))
    · rename_i hai
      split at hj
      · cases hj
        obtain h | h := hs.scans a i a' k hai ha hp
        · exact .inl (hmono a' _ (h.le (Nat.le_succ k)))
        · exact .inr (hmono _ a' (h.succ hused))
      · exact (hs.scans a j a' m haj ha hj).imp (hmono a' m) (hmono m a')

/-- `allocTask` takes slot `k`. What it took it from has room below it. -/
theorem Apart.take (hs : s.Apart) (hp : s.pos i = .scanning k) : (s.goto i (.copying k)).Apart := by
  have hback : ∀ j m, (s.goto i (.copying k)).Fills j m → m = k ∨ s.Fills j m := by
    intro j m hj
    simp only [Fills, pos_goto] at hj ⊢
    grind
  have hbelow : ∀ a m, m ≤ k → s.Room a m → (s.goto i (.copying k)).Room a m := by
    rintro a m hm ⟨l, hal, hlm, hl⟩
    refine ⟨l, hal, hlm, hl.1, fun j hj => ?_⟩
    obtain h | h := hback j l hj
    · omega
    · exact hl.2 j h
  -- an `allocTask` that has not passed `k` has room below `k`
  have hroom : ∀ a a', a ≠ i → s.pos a = .scanning a' → a' ≤ k →
      (s.goto i (.copying k)).Room a' k := by
    intro a a' hai ha hle
    obtain h | h := hs.scans a i a' k hai ha hp
    · exact hbelow a' k le_rfl h
    · exact absurd h.lt (by omega)
  have hkeep : ∀ a a' m, a ≠ i → s.pos a = .scanning a' → s.Room a' m →
      (s.goto i (.copying k)).Room a' m := by
    intro a a' m hai ha hr
    by_cases hm : m ≤ k
    · exact hbelow a' m hm hr
    · by_cases hle : a' ≤ k
      · exact (hroom a a' hai ha hle).le (by omega)
      · obtain ⟨l, hal, hlm, hl⟩ := hr
        refine ⟨l, hal, hlm, hl.1, fun j hj => ?_⟩
        obtain h | h := hback j l hj
        · omega
        · exact hl.2 j h
  have hscan : ∀ a a', (s.goto i (.copying k)).pos a = .scanning a' →
      a ≠ i ∧ s.pos a = .scanning a' := by
    intro a a' ha
    rw [pos_goto] at ha
    split at ha
    · cases ha
    · exact ⟨‹_›, ha⟩
  refine ⟨fun a j a' m ha hj => ?_, fun a j a' m haj ha hj => ?_⟩
  · obtain ⟨hai, ha'⟩ := hscan a a' ha
    obtain rfl | hj := hback j m hj
    · by_cases hle : a' ≤ m
      · exact .inr (hroom a a' hai ha' hle)
      · exact .inl (by omega)
    · exact (hs.fills a j a' m ha' hj).imp_right (hkeep a a' m hai ha')
  · obtain ⟨hai, ha⟩ := hscan a a' ha
    obtain ⟨hji, hj⟩ := hscan j m hj
    exact (hs.scans a j a' m haj ha hj).imp (hkeep a a' m hai ha) (hkeep j m a' hji hj)

theorem unused_free {p : CallPos} (hl : (s.entry l).state = .unused) :
    (((s.goto i p).free k).entry l).state = .unused := by
  rw [ProcTable.free, entry_set, entry_goto]
  split
  · rfl
  · exact hl

theorem RoomyStep.apart (h : RoomyStep s s') (hs : s.Apart) : s'.Apart := by
  obtain ⟨hstep, hroom⟩ := h
  cases hstep with
  | callFork i hi hp => exact hs.call (hroom i hp (by simp))
  | scanNext i hi hp hk hused => exact hs.next hp hused
  | scanFail i hi hp hk => exact hs.leave (i := i) (by simp) rfl fun l hl => hl.1
  | @scanFound i k hi hp hk hfree =>
    exact (hs.take hp).of_le (fun l hl => hl.1) (fun _ _ => id) fun _ _ => id
  | @link i k hi hp =>
    refine hs.of_le (fun l hl => ?_) (fun j m hj => ?_) fun j m hj => ?_
    · rw [entry_set, apply_ite Entry.state, ite_eq_iff']
      exact ⟨fun h => h ▸ hl.1, fun _ => hl.1⟩
    · simp only [Fills, pos_set, pos_goto] at hj ⊢
      grind
    · rw [pos_set, pos_goto] at hj
      grind
  | @start i k hi hp =>
    refine hs.leave (i := i) (p := .user) (by simp) rfl fun l hl => ?_
    have hne : l ≠ k := by
      rintro rfl
      exact hl.2 i (.inr hp)
    rw [entry_note, entry_set, if_neg hne]
    exact hl.1
  | exitBegin i status hi hp hinit =>
    refine hs.leave (i := i) (p := .exiting status) (by simp) rfl fun l hl => ?_
    rw [entry_goto, adopt, apply_ite Entry.state, ite_self]
    exact hl.1
  | @exitEnd i status hi hp =>
    refine hs.leave (i := i) (p := .user) (by simp) rfl fun l hl => ?_
    have hne : l ≠ i := by
      rintro rfl
      rw [hl.1] at hi
      cases hi
    rw [entry_note, entry_set, if_neg hne]
    exact hl.1
  | @waitReap i k hi hp hk =>
    exact hs.leave (i := i) (p := .user) (by simp) rfl fun l hl => unused_free hl.1
  | waitFault i hi hp hk => exact hs.leave (i := i) (by simp) rfl fun l hl => hl.1
  | waitSleep i hi hp hk hchild => exact hs.leave (i := i) (by simp) rfl fun l hl => hl.1
  | waitNone i hi hp hk hchild =>
    exact hs.leave (i := i) (p := .user) (by simp) rfl fun l hl => hl.1
  | wait4Call i pid hi hp hpid hchild => exact hs.leave (i := i) (by simp) rfl fun l hl => hl.1
  | @wait4Sleep i pid hi hp hz =>
    exact hs.of_le (fun l hl => state_shift.trans hl.1) (fun _ _ => id) fun _ _ => id
  | @wait4Reap i pid hi hp hz =>
    exact hs.leave (i := i) (p := .user) (by simp) rfl fun l hl => unused_free hl.1
  | @wait4Fault i pid hi hp hz =>
    exact hs.leave (i := i) (p := .user) (by simp) rfl fun l hl => state_shift.trans hl.1
  | other _ h =>
    refine hs.of_le (fun l hl => ?_) (fun j m hj => ?_) fun j m hj => ?_
    · obtain he | he := h.state l
      · rw [he, hl.1]
      · exact absurd hl.1 he.1.1
    · rwa [Fills, h.pos] at hj
    · rwa [h.pos] at hj

theorem RoomyStep.calm (h : RoomyStep s s') (hs : s.Apart) : CalmStep s s' :=
  ⟨h.1, fun _ _ hi _ => hs.not_fills hi⟩

theorem apart_of_run (h : Relation.ReflTransGen RoomyStep boot s) :
    s.Apart ∧ Relation.ReflTransGen CalmStep boot s := by
  induction h with
  | refl => exact ⟨⟨nofun, nofun⟩, .refl⟩
  | tail _ hstep ih => exact ⟨hstep.apart ih.1, ih.2.tail (hstep.calm ih.1)⟩

theorem Step.roomy {p : CallPos} (h : Step s s') (i : ℕ) (hpos : s'.pos = (s.goto i p).pos)
    (hp : s.pos i = .user → p ≠ .scanning 1) : RoomyStep s s' := by
  refine ⟨h, fun j hj hj' => ?_⟩
  rw [hpos, pos_goto] at hj'
  split at hj'
  · rename_i hji
    exact absurd hj' (hp (hji ▸ hj))
  · rw [hj] at hj'
    cases hj'

/-- Task `i` calls `fork` with room, and `allocTask` returns slot `k`. -/
theorem run_alloc (hp : s.pos i = .user) (hi : (s.entry i).state = .running)
    (hroom : ∀ j m, s.Fills j m ∨ s.pos j = .scanning m → s.Room 1 m) (hk : 1 ≤ k)
    (hntask : k < ntask) (hused : ∀ l < k, 1 ≤ l → (s.entry l).state ≠ .unused)
    (hfree : (s.entry k).state = .unused) :
    Relation.ReflTransGen RoomyStep s ((s.goto i (.copying k)).note (.given i k)) := by
  have hscan : ∀ l, 1 ≤ l → l ≤ k →
      Relation.ReflTransGen RoomyStep s (s.goto i (.scanning l)) := by
    intro l hl hlk
    induction l, hl using Nat.le_induction with
    | base => exact .single ⟨.callFork s i hi hp, fun _ _ _ => hroom⟩
    | succ l hl ih =>
      have hstep := Step.scanNext (s.goto i (.scanning l)) i hi (by simp) (by omega)
        (hused l hlk hl)
      rw [goto_goto] at hstep
      have hpos : (s.goto i (.scanning (l + 1))).pos =
          ((s.goto i (.scanning l)).goto i (.scanning (l + 1))).pos := by rw [goto_goto]
      exact (ih (by omega)).tail (hstep.roomy i hpos (by simp))
  have hstep := Step.scanFound (s.goto i (.scanning k)) i hi (by simp) hntask hfree
  have hfound := hstep.roomy i rfl (by simp)
  rw [goto_goto] at hfound
  exact (hscan k hk le_rfl).tail hfound

theorem run_fill (hp : s.pos i = .copying k) (hi : (s.entry i).state = .running) (hik : i ≠ k) :
    Relation.ReflTransGen RoomyStep s (((s.goto i .user).set k
      { s.entry k with state := .runnable, parent := some i }).note (.born i k)) := by
  have hlink := (Step.link s i hi hp).roomy i rfl (by simp)
  have hstart := Step.start ((s.goto i (.linked k)).set k { s.entry k with parent := some i }) i
    (k := k) (by simp [hik, hi]) (by simp)
  refine .tail (.single hlink) ?_
  have heq : (((s.goto i (.linked k)).set k { s.entry k with parent := some i }).goto i .user).set k
      { ((s.goto i (.linked k)).set k { s.entry k with parent := some i }).entry k with
        state := .runnable } = (s.goto i .user).set k
      { s.entry k with state := .runnable, parent := some i } := by
    simp [goto, set]
  have := hstart.roomy i rfl (by simp)
  rwa [heq] at this

theorem goto_self {p : CallPos} (hp : s.pos i = p) : s.goto i p = s := by
  rw [goto, ← hp, Function.update_eq_self]

theorem run_fork (hp : ∀ j, s.pos j = .user) (hi : (s.entry i).state = .running) (hk : 1 ≤ k)
    (hntask : k < ntask) (hused : ∀ l < k, 1 ≤ l → (s.entry l).state ≠ .unused)
    (hfree : (s.entry k).state = .unused) :
    Relation.ReflTransGen RoomyStep s (((s.note (.given i k)).set k
      { s.entry k with state := .runnable, parent := some i }).note (.born i k)) := by
  have hik : i ≠ k := by
    rintro rfl
    rw [hi] at hfree
    cases hfree
  have halloc := run_alloc (hp i) hi (fun j m hj => by simp [Fills, hp] at hj) hk hntask hused hfree
  have hfill := run_fill (s := (s.goto i (.copying k)).note (.given i k)) (i := i) (k := k)
    (by simp) hi hik
  have hback : ((s.goto i (.copying k)).note (.given i k)).goto i .user = s.note (.given i k) := by
    change ((s.goto i (.copying k)).goto i .user).note (.given i k) = _
    rw [goto_goto, goto_self (hp i)]
  rw [hback] at hfill
  exact halloc.trans hfill

theorem RoomyStep.reschedule (s : ProcTable) (i : ℕ) (st : ProcState)
    (h : (s.entry i).state.Live) (h' : st.Live) :
    RoomyStep s (s.set i { s.entry i with state := st }) := by
  refine (Step.reschedule s i st h h').roomy i
    (congrArg pos (goto_self (s := s) rfl)).symm fun hi => ?_
  rw [hi]
  nofun

/-- The first process forks twice, and its second child calls `fork` and is given slot 4. Meanwhile
the first child exits and is reaped. -/
theorem run_slotFreed : ∃ s, Relation.ReflTransGen RoomyStep boot s ∧
    s.log = [.given 1 2, .born 1 2, .given 1 3, .born 1 3, .given 3 4, .exited 2 0,
      .reaped 1 2 0] ∧
    (∀ j, s.pos j = if j = 3 then .copying 4 else .user) ∧ (s.entry 1).state = .running ∧
      (s.entry 2).state = .unused ∧ (s.entry 3).state = .running := by
  have htwo := (run_fork (s := boot) (i := 1) (k := 2) (fun _ => rfl) rfl (by decide) (by decide)
    (by decide) rfl).trans (run_fork (i := 1) (k := 3) (fun _ => rfl) rfl (by decide) (by decide)
    (by decide) rfl)
  have hrun := (htwo.tail (.reschedule _ 2 .running ProcState.live_runnable
    ProcState.live_running)).tail (.reschedule _ 3 .running ProcState.live_runnable
    ProcState.live_running)
  have hgiven := hrun.trans (run_alloc (i := 3) (k := 4) rfl rfl (by simp [Fills, boot])
    (by decide) (by decide) (by decide) rfl)
  have hfreed := ((hgiven.tail ((Step.exitBegin _ 2 0 rfl rfl (by decide)).roomy 2 rfl
    (by simp))).tail ((Step.exitEnd _ 2 rfl rfl).roomy 2 rfl (by simp))).tail
    ((Step.waitReap _ 1 (k := 2) rfl (.inl rfl) rfl).roomy 1 rfl (by simp))
  refine ⟨_, hfreed, rfl, fun j => ?_, rfl, rfl, rfl⟩
  simp only [ProcTable.free, pos_goto, pos_set, pos_note, adopt, boot]
  grind

/-- The first process is given slot 2 again while slot 4 is filled. -/
theorem run_overlap : ∃ s, Relation.ReflTransGen RoomyStep boot s ∧
    s.log = [.given 1 2, .born 1 2, .given 1 3, .born 1 3, .given 3 4, .exited 2 0, .reaped 1 2 0,
      .given 1 2, .born 1 2, .born 3 4] := by
  obtain ⟨s, hrun, hlog, hpos, h1, h2, h3⟩ := run_slotFreed
  have hroom : ∀ j m, s.Fills j m ∨ s.pos j = .scanning m → s.Room 1 m := by
    intro j m hj
    simp only [Fills, hpos] at hj
    obtain rfl : m = 4 := by grind
    refine ⟨2, by decide, by decide, h2, fun a ha => ?_⟩
    simp only [Fills, hpos] at ha
    grind
  have hused : ∀ l < 2, 1 ≤ l → (s.entry l).state ≠ .unused := by
    intro l hl hl'
    obtain rfl : l = 1 := by omega
    simp [h1]
  have halloc := run_alloc (by rw [hpos]; rfl) h1 hroom (by decide) (by decide) hused h2
  have hfill := (hrun.trans halloc).trans (run_fill (i := 1) (k := 2) (by simp) h1 (by decide))
  have hend := hfill.trans (run_fill (i := 3) (k := 4) (by simp [hpos]) (by simp [h3]) (by decide))
  exact ⟨_, hend, by simp [hlog]⟩

/-- While `fork` and `clone` are called only with a slot to spare below the slots that other calls
fill or look at, no slot is given twice before it is released. -/
theorem slots_exclusive (s : ProcTable) (h : Relation.ReflTransGen RoomyStep boot s) (k : ℕ) :
    takenAfter k s.log ≠ none := by
  obtain hk | ⟨hk, -⟩ := guarded_of_run (apart_of_run h).2 k
  · rw [hk]
    nofun
  · rw [hk]
    nofun

theorem slots_exclusive_overlap : ∃ s, Relation.ReflTransGen RoomyStep boot s ∧
    s.log = [.given 1 2, .born 1 2, .given 1 3, .born 1 3, .given 3 4, .exited 2 0, .reaped 1 2 0,
      .given 1 2, .born 1 2, .born 3 4] ∧ takenAfter 2 s.log ≠ none := by
  obtain ⟨s, hrun, hlog⟩ := run_overlap
  exact ⟨s, hrun, hlog, slots_exclusive s hrun 2⟩

/-- The first process forks again. Before the second child may run it is preempted, and its first
child is given the same slot. -/
theorem slot_given_twice : ∃ s, Relation.ReflTransGen Step boot s ∧
    s.log = [.given 1 2, .born 1 2, .given 1 3, .given 2 3] ∧ takenAfter 3 s.log = none := by
  exact ⟨_, .tail (.tail (.tail (.tail (.tail (.tail (.tail (.tail (.tail (.tail (.tail (.tail (.tail
    (.tail (.tail .refl
      (.callFork _ 1 rfl rfl)) (.scanNext _ 1 rfl rfl (by decide) (by decide)))
      (.scanFound _ 1 rfl rfl (by decide) rfl)) (.link _ 1 rfl rfl)) (.start _ 1 rfl rfl))
      (.callFork _ 1 rfl rfl)) (.scanNext _ 1 rfl rfl (by decide) (by decide)))
      (.scanNext _ 1 rfl rfl (by decide) (by decide))) (.scanFound _ 1 rfl rfl (by decide) rfl))
      (.reschedule _ 1 .runnable ProcState.live_running ProcState.live_runnable))
      (.reschedule _ 2 .running ProcState.live_runnable ProcState.live_running))
      (.callFork _ 2 rfl rfl)) (.scanNext _ 2 rfl rfl (by decide) (by decide)))
      (.scanNext _ 2 rfl rfl (by decide) (by decide))) (.scanFound _ 2 rfl rfl (by decide) rfl),
    rfl, rfl⟩

end ProcTable

end StartOS
