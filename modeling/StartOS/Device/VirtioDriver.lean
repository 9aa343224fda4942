import StartOS.Device.VirtioRings

/-! # The driver at the rings

The steps of `VirtioRw` and `VirtioIntr` that move a chain from one place to the
next: it is put into the available ring, its element of the used ring is handled,
and its call goes on.
-/

namespace StartOS

namespace VirtioState

open VirtioDisk

variable {ι κ : Type*} {s s' : VirtioState ι κ} {t u : ι} {k : κ} {i j n : ℕ}
  {calls : ι → RwArgs} {p q : RwPc} {x y : DescTriple} {e : TakenChain}

/-! ## Indices of 16 bits -/

theorem mod_num (n : ℕ) : n % 2 ^ 16 % num = n % num := by
  unfold num
  omega

theorem incr_mod (n : ℕ) : incr (n % 2 ^ 16) = (n + 1) % 2 ^ 16 := by
  unfold incr
  omega

theorem mod_num_ne (hij : i < j) (hj : j < i + num) : i % num ≠ j % num := by
  unfold num at hj ⊢
  omega

/-! ## Offering a chain -/

/-- While a call has a chain to offer, there is room in the available ring. -/
theorem Offered.room (h : s.Offered) (hown : s.Owned) (ht : ¬(s.rw t).submitted)
    (hheld : i ∈ (s.rw t).held) : s.published.length < s.dev.count + num := by
  have hnew : t ∉ s.published := fun hp => ht (h.submitted t hp)
  have hP : (s.published ++ [t]).Nodup :=
    h.nodup.append (List.nodup_singleton t) (by simpa using hnew)
  have hps : (List.range' s.dev.count (s.published.length + 1 - s.dev.count)).Nodup :=
    List.nodup_range'
  have hfew := hown.few hP hps ?_
  · rw [List.length_range'] at hfew
    have hle := h.count_le
    omega
  · intro j hj
    rw [List.mem_range'_1] at hj
    rcases Nat.lt_or_ge j s.published.length with hlt | hge
    · obtain ⟨x, hx, -⟩ := h.pending j _ hj.1 (List.getElem?_eq_getElem hlt)
      refine ⟨x.a, _, (List.getElem?_append_left hlt).trans (List.getElem?_eq_getElem hlt), ?_⟩
      rw [RwPc.held_of_waits hx]
      exact List.mem_cons_self
    · obtain rfl : j = s.published.length := by omega
      exact ⟨i, t, List.getElem?_concat_length, hheld⟩

theorem Offered.slot_ne (h : s.Offered) (hown : s.Owned) (ht : ¬(s.rw t).submitted)
    (hheld : i ∈ (s.rw t).held) (hj : s.dev.count ≤ j) (hj' : j < s.published.length) :
    j % num ≠ s.disk.avail.idx % num := by
  have hroom := h.room hown ht hheld
  rw [h.idx, mod_num]
  exact mod_num_ne hj' (by omega)

theorem Offered.not_published (h : s.Offered) (hpc : s.rw t = .publish x) : t ∉ s.published := by
  intro hp
  have hsub := h.submitted t hp
  rw [hpc] at hsub
  cases hsub

theorem Moved.waits_publish (hm : s.Moved s' t (.publish x) q) {u : ι} {y : DescTriple}
    (hy : (s.rw u).waits = some y) : (s'.rw u).waits = some y := by
  have hne : u ≠ t := by
    rintro rfl
    rw [hm.before] at hy
    cases hy
  rw [(hm.others u hne).waits, hy]

section

variable [DecidableEq ι]

theorem Queue.ring (h : s.Queue calls) (hlock : s.Locked) (hown : s.Owned)
    (hpc : s.rw t = .ring x)
    (hs' : s' = { s.goto t (.publish x) with
      disk := { s.disk with avail := { s.disk.avail with
        ring := Function.update s.disk.avail.ring (s.disk.avail.idx % num) x.a } } }) :
    s'.Queue calls := by
  have hm : s.Moved s' t (.ring x) (.publish x) := .of_goto hpc (by rw [hs']; rfl)
  have hsub : ¬(s.rw t).submitted := by rw [hpc]; nofun
  have hheld : x.a ∈ (s.rw t).held := by rw [hpc]; exact List.mem_cons_self
  have hring : s'.disk.avail.ring =
      Function.update s.disk.avail.ring (s.disk.avail.idx % num) x.a := by rw [hs']
  have hinfo : s'.disk.info = s.disk.info := by rw [hs']
  have hdev : s'.dev = s.dev ∧ s'.published = s.published := by rw [hs']; exact ⟨rfl, rfl⟩
  have hwaits := hm.waits rfl
  refine ⟨⟨?_, ?_, ?_, ?_, ?_, ?_⟩, ?_, ?_, ?_⟩
  · rw [hs']
    exact h.offered.idx
  · rw [hdev.1, hdev.2]
    exact h.offered.count_le
  · rw [hdev.2]
    exact h.offered.nodup
  · rw [hdev.2]
    exact fun u hu => hm.submitted nofun u (h.offered.submitted u hu)
  · rw [hdev.1, hdev.2, hring, hinfo]
    intro j u hj hu
    obtain ⟨y, hy, hslot, hf⟩ := h.offered.pending j u hj hu
    refine ⟨y, (hwaits u).trans hy, ?_, hf⟩
    have hlt := (List.getElem?_eq_some_iff.mp hu).1
    rw [Function.update_of_ne (h.offered.slot_ne hown hsub hheld hj hlt), hslot]
  · rw [hdev.2, hring]
    intro u y hu
    have hut : u = t := hlock.only hm rfl (by rw [hu]; rfl)
    rw [hut, hm.after] at hu
    cases hu
    rw [h.offered.idx, mod_num, Function.update_self]
  · subst hs'
    exact h.inFlight.frame rfl (fun _ _ => id) (.refl _) (fun _ => id)
      (fun _ _ u y _ hy hf => ⟨(hwaits u).trans hy, hf⟩) h.inFlight.status
  · subst hs'
    exact h.usedRing.frame rfl rfl rfl rfl rfl h.usedRing.read h.usedRing.current
  · subst hs'
    refine h.waiting.frame (fun _ => id) (fun u y hy hf => ⟨(hwaits u).symm.trans hy, hf⟩)
      (hm.finished nofun) fun u y hu => ?_
    rcases hm.asleep hu with hu | ⟨-, hu⟩
    · exact h.waiting.asleep u y hu
    · cases hu

/-- The call is the last of the published ones, in the slot that it has filled. -/
theorem Offered.publish (h : s.Offered) (hlock : s.Locked) (hpc : s.rw t = .publish x)
    (hfin : (s.disk.info x.a).finish = false)
    (hs' : s' = { s.goto t (.test x) with
      disk := { s.disk with avail := { s.disk.avail with idx := incr s.disk.avail.idx } }
      published := s.published ++ [t] }) : s'.Offered := by
  have hm : s.Moved s' t (.publish x) (.test x) := .of_goto hpc (by rw [hs']; rfl)
  have hpub : s'.published = s.published ++ [t] := by rw [hs']
  have hdev : s'.dev = s.dev := by rw [hs']; rfl
  refine ⟨?_, ?_, ?_, ?_, ?_, ?_⟩
  · rw [hpub, List.length_append, hs']
    change incr s.disk.avail.idx = _
    rw [h.idx, incr_mod, List.length_singleton]
  · rw [hdev, hpub, List.length_append]
    exact h.count_le.trans (Nat.le_add_right _ _)
  · rw [hpub]
    exact h.nodup.append (List.nodup_singleton t) (by simpa using h.not_published hpc)
  · rw [hpub]
    intro u hu
    rcases List.mem_append.mp hu with hu | hu
    · exact hm.submitted (fun _ => rfl) u (h.submitted u hu)
    · rw [List.mem_singleton.mp hu, hm.after]
      rfl
  · rw [hdev, hpub]
    intro j u hj hu
    rcases Nat.lt_or_ge j s.published.length with hlt | hge
    · rw [List.getElem?_append_left hlt] at hu
      obtain ⟨y, hy, hslot, hf⟩ := h.pending j u hj hu
      subst hs'
      exact ⟨y, hm.waits_publish hy, hslot, hf⟩
    · have hlt := (List.getElem?_eq_some_iff.mp hu).1
      rw [List.length_append, List.length_singleton] at hlt
      obtain rfl : j = s.published.length := by omega
      rw [List.getElem?_concat_length] at hu
      cases hu
      subst hs'
      exact ⟨x, by rw [hm.after]; rfl, h.ringed t x hpc, hfin⟩
  · intro u y hu
    have hut : u = t := hlock.only hm rfl (by rw [hu]; rfl)
    rw [hut, hm.after] at hu
    cases hu

theorem Queue.publish (h : s.Queue calls) (hlock : s.Locked) (hcont : s.Contents calls)
    (hpc : s.rw t = .publish x)
    (hs' : s' = { s.goto t (.test x) with
      disk := { s.disk with avail := { s.disk.avail with idx := incr s.disk.avail.idx } }
      published := s.published ++ [t] }) : s'.Queue calls := by
  have hm : s.Moved s' t (.publish x) (.test x) := .of_goto hpc (by rw [hs']; rfl)
  have hfin : (s.disk.info x.a).finish = false := by
    have hfilled := hcont t
    rw [hpc] at hfilled
    exact (hfilled .record).2
  have hinfo : s'.disk.info = s.disk.info := by rw [hs']
  have hdev : s'.dev = s.dev := by rw [hs']; rfl
  have hmono : ∀ (i : ℕ) u, s.published[i]? = some u → s'.published[i]? = some u := by
    intro i u hu
    rw [hs', List.getElem?_append_left (List.getElem?_eq_some_iff.mp hu).1, hu]
  refine ⟨h.offered.publish hlock hpc hfin hs', ?_, ?_, ?_⟩
  · refine h.inFlight.frame (by rw [hdev]) hmono (.of_eq ?_) ?_ ?_ ?_
    · rw [hs']
      rfl
    · rw [hs']
      exact fun e he => he
    · rw [hinfo]
      exact fun e _ u y _ hy hf => ⟨hm.waits_publish hy, hf⟩
    · rw [hs']
      exact h.inFlight.status
  · subst hs'
    exact h.usedRing.frame rfl rfl rfl rfl rfl h.usedRing.read h.usedRing.current
  · refine h.waiting.frame ?_ ?_ (hm.finished nofun) ?_
    · rintro u ⟨e, he, hu, hreq⟩
      exact ⟨e, by rwa [hdev], hmono e.pos u hu, hreq⟩
    · rw [hinfo]
      intro u y hy hf
      by_cases hut : u = t
      · rw [hut, hm.after] at hy
        cases hy
        rw [hfin] at hf
        cases hf
      · exact ⟨(hm.others u hut).waits.symm.trans hy, hf⟩
    · rw [hinfo]
      intro u y hu
      rcases hm.asleep hu with hu | ⟨-, hu⟩
      · exact h.waiting.asleep u y hu
      · cases hu

theorem Queue.testFinish (h : s.Queue calls) (hpc : s.rw t = .test x)
    (hf : (s.disk.info x.a).finish = true) (hs' : s' = s.goto t (.clear x)) : s'.Queue calls := by
  have hm : s.Moved s' t (.test x) (.clear x) := .of_goto hpc (by rw [hs']; rfl)
  have hwx : (s.rw t).waits = some x := by rw [hpc]; rfl
  have hothers : ∀ u y, (s.rw u).waits = some y → (s.disk.info y.a).finish = false →
      (s'.rw u).waits = some y := by
    intro u y hy hfy
    have hne : u ≠ t := by
      rintro rfl
      rw [hwx] at hy
      cases hy
      rw [hf] at hfy
      cases hfy
    rw [(hm.others u hne).waits, hy]
  have hserved := h.waiting.served t x hwx hf
  have hdisk : s'.disk = s.disk := by rw [hs']; rfl
  refine ⟨?_, ?_, ?_, ?_⟩
  · refine h.offered.frame (by rw [hdisk]) (by rw [hs']; rfl) (by rw [hs']; rfl)
      (hm.submitted fun _ => rfl) (fun u y => hm.eq_of_locked nofun rfl) ?_
    rw [hdisk]
    exact fun _ u y _ _ hy hfy => ⟨hothers u y hy hfy, hfy⟩
  · refine h.inFlight.frame (by rw [hs']; rfl) ?_ (.of_eq (by rw [hs']; rfl)) ?_ ?_ ?_
    · rw [hs']
      exact fun _ _ hu => hu
    · rw [hs']
      exact fun _ he => he
    · rw [hdisk]
      exact fun _ _ u y _ hy hfy => ⟨hothers u y hy hfy, hfy⟩
    · rw [hs']
      exact h.inFlight.status
  · subst hs'
    exact h.usedRing.frame rfl rfl rfl rfl rfl h.usedRing.read h.usedRing.current
  · have hsame : ∀ u, s.Served calls u → s'.Served calls u := by
      rw [hs']
      exact fun u hu => hu
    refine ⟨?_, ?_, ?_⟩
    · rw [hdisk]
      intro u y hy hfy
      by_cases hut : u = t
      · rw [hut]
        exact hsame t hserved
      · exact hsame u (h.waiting.served u y ((hm.others u hut).waits.symm.trans hy) hfy)
    · intro u hu
      by_cases hut : u = t
      · rw [hut]
        exact hsame t hserved
      · rw [(hm.others u hut).finished] at hu
        exact hsame u (h.waiting.finished u hu)
    · rw [hdisk]
      intro u y hu
      rcases hm.asleep hu with hu | ⟨-, hu⟩
      · exact h.waiting.asleep u y hu
      · cases hu

end

/-! ## Handling the used ring -/

theorem mem_answered (hj : s.handled ≤ j) (he : s.dev.posted[j]? = some e) : e ∈ s.answered := by
  refine List.mem_append_right _ (List.mem_append_right _ ?_)
  refine List.mem_of_getElem? (i := j - s.handled) ?_
  rw [List.getElem?_drop, Nat.add_sub_cancel' hj, he]

theorem Queue.current (h : s.Queue calls) (hlt : s.handled < s.dev.posted.length) :
    ∃ e, s.dev.posted[s.handled]? = some e ∧
      e.head = s.disk.used.ring (s.disk.usedIdx % num) := by
  have he : s.dev.posted[s.handled]? = some s.dev.posted[s.handled] := List.getElem?_eq_getElem hlt
  refine ⟨_, he, ?_⟩
  rw [h.usedRing.usedIdx, mod_num, h.usedRing.posted _ _ le_rfl he]

theorem Queue.status (h : s.Queue calls) (hk : s.intr k = .check i) :
    (s.disk.info i).status = 0 := by
  obtain ⟨e, he, rfl⟩ := h.usedRing.current k i (.inl hk)
  exact h.inFlight.status e (mem_answered le_rfl he)

theorem InFlight.pos_lt (h : s.InFlight calls) (he : e ∈ s.everTaken) : e.pos < s.dev.count :=
  List.mem_range.mp (h.pos.mem_iff.mp (List.mem_map_of_mem he))

theorem perm_append_middle {α : Type*} (l l₁ l₂ : List α) (a : α) :
    (l ++ (l₁ ++ a :: l₂)).Perm (a :: (l₁ ++ (l ++ l₂))) := by
  rw [← List.append_assoc]
  refine List.perm_middle.trans (.cons a ?_)
  rw [List.append_assoc]
  exact List.perm_append_comm_assoc l l₁ l₂

theorem InFlight.pos_ne (h : s.InFlight calls) {l : List TakenChain}
    (hl : s.everTaken.Perm (e :: l)) {e' : TakenChain} (he' : e' ∈ l) : e'.pos ≠ e.pos := by
  have hnodup : ((e :: l).map TakenChain.pos).Nodup :=
    ((hl.map _).symm.trans h.pos).nodup_iff.mpr List.nodup_range
  rw [List.map_cons, List.nodup_cons] at hnodup
  exact fun heq => hnodup.1 (heq ▸ List.mem_map_of_mem he')

section

variable [DecidableEq κ]

/-- The chain `e`, of the call `t` with the descriptors `x`, is handled on the way to `s'`. -/
structure Marked (calls : ι → RwArgs) (s s' : VirtioState ι κ) (k : κ) (e : TakenChain) (t : ι)
    (x : DescTriple) : Prop where
  eq : s' = { (s.wakeup calls (.data (s.disk.info e.head).data)).gotoIntr k .test with
    disk := { s.disk with
      info := Function.update s.disk.info e.head { s.disk.info e.head with finish := true }
      usedIdx := incr s.disk.usedIdx }
    handled := s.handled + 1 }
  posted : s.dev.posted[s.handled]? = some e
  published : s.published[e.pos]? = some t
  waits : (s.rw t).waits = some x
  head : e.head = x.a
  head_ne : ∀ u y, u ≠ t → (s.rw u).waits = some y → y.a ≠ e.head

namespace Marked

variable (hm : Marked calls s s' k e t x)

include hm

theorem rw_eq (u : ι) : s'.rw u = (s.rw u).woken (.data (s.disk.info e.head).data) (calls u).buf := by
  rw [hm.eq]
  rfl

theorem stays (u : ι) : (s.rw u).Stays (s'.rw u) := hm.rw_eq u ▸ RwPc.woken_stays ..

theorem info : s'.disk.info =
    Function.update s.disk.info e.head { s.disk.info e.head with finish := true } := by rw [hm.eq]

theorem dev : s'.dev = s.dev ∧ s'.published = s.published ∧ s'.handled = s.handled + 1 := by
  rw [hm.eq]
  exact ⟨rfl, rfl, rfl⟩

theorem waits_of_ne {u : ι} (hne : u ≠ t) (hy : (s.rw u).waits = some y)
    (hf : (s.disk.info y.a).finish = false) :
    (s'.rw u).waits = some y ∧ (s'.disk.info y.a).finish = false := by
  refine ⟨(hm.stays u).waits.trans hy, ?_⟩
  rw [hm.info, Function.update_of_ne (hm.head_ne u y hne hy), hf]

theorem mem_everTaken : e ∈ s.everTaken :=
  List.mem_append_right _ (List.mem_append_right _ (List.mem_append_right _
    (List.mem_of_getElem? hm.posted)))

theorem call_ne (h : s.Offered) {u : ι} (hj : j ≠ e.pos) (hu : s.published[j]? = some u) :
    u ≠ t := by
  rintro rfl
  exact hj ((List.getElem?_inj (List.getElem?_eq_some_iff.mp hu).1 h.nodup).mp
    (hu.trans hm.published.symm))

theorem drop_handled : s.dev.posted.drop s.handled = e :: s.dev.posted.drop (s.handled + 1) := by
  obtain ⟨hlt, he⟩ := List.getElem?_eq_some_iff.mp hm.posted
  rw [List.drop_eq_getElem_cons hlt, he]

theorem answered_eq : s'.answered = s.dev.written ++ (s.dev.posting.toList ++
    s.dev.posted.drop (s.handled + 1)) := by
  rw [answered, hm.dev.1, hm.dev.2.2]

theorem answered_subset {e' : TakenChain} (he' : e' ∈ s'.answered) : e' ∈ s.answered := by
  rw [hm.answered_eq] at he'
  rw [answered, hm.drop_handled]
  simp only [List.mem_append, List.mem_cons] at he' ⊢
  tauto

theorem pos_ne (h : s.InFlight calls) {e' : TakenChain} (he' : e' ∈ s'.dev.taken ++ s'.answered) :
    e'.pos ≠ e.pos := by
  have hperm : s.everTaken.Perm (e :: (s.dev.posted.take s.handled ++
      (s.dev.taken ++ s'.answered))) := by
    have hposted : s.dev.posted = s.dev.posted.take s.handled ++ e ::
        s.dev.posted.drop (s.handled + 1) := by
      rw [← hm.drop_handled, List.take_append_drop]
    rw [everTaken, hm.answered_eq]
    nth_rewrite 1 [hposted]
    simpa only [List.append_assoc] using perm_append_middle
      (s.dev.taken ++ (s.dev.written ++ s.dev.posting.toList)) (s.dev.posted.take s.handled)
      (s.dev.posted.drop (s.handled + 1)) e
  rw [hm.dev.1] at he'
  exact h.pos_ne hperm (List.mem_append_right _ he')

theorem offered (h : s.Queue calls) : s'.Offered := by
  refine h.offered.frame (by rw [hm.eq]) hm.dev.2.1 (by rw [hm.dev.1])
    (fun u hu => (hm.stays u).submitted.trans hu) ?_ fun j u y hj hu hy hf => ?_
  · intro u y hu
    have hstay := hm.stays u
    rw [hu] at hstay
    exact hstay.eq_of_locked rfl ▸ rfl
  · have hlt := h.inFlight.pos_lt hm.mem_everTaken
    exact hm.waits_of_ne (hm.call_ne h.offered (by omega) hu) hy hf

theorem inFlight (h : s.Queue calls) : s'.InFlight calls := by
  refine h.inFlight.frame (by rw [hm.dev.1]) ?_ (.of_eq ?_) ?_ ?_ ?_
  · rw [hm.dev.2.1]
    exact fun _ _ hu => hu
  · rw [everTaken, everTaken, hm.dev.1]
  · rw [hm.dev.1]
    intro e' he'
    rcases List.mem_append.mp he' with he' | he'
    · exact List.mem_append_left _ he'
    · exact List.mem_append_right _ (hm.answered_subset he')
  · exact fun e' he' u y hu hy hf =>
      hm.waits_of_ne (hm.call_ne h.offered (hm.pos_ne h.inFlight he') hu) hy hf
  · intro e' he'
    have hst := h.inFlight.status e' (hm.answered_subset he')
    rw [hm.info]
    by_cases heq : e'.head = e.head
    · rw [heq, Function.update_self]
      rwa [heq] at hst
    · rw [Function.update_of_ne heq, hst]

theorem usedRing (h : s.Queue calls) (hlock : s.Locked) (hpc : s.intr k = .mark i) :
    s'.UsedRing := by
  have hmoved : s.MovedIntr s' k (.mark i) .test := .of_goto hpc (by rw [hm.eq]; rfl)
  have houtside : ∀ k', (s'.intr k').locked → k' = k ∧ s'.intr k' = .test := by
    intro k' hk'
    by_cases hkk : k' = k
    · rw [hkk, hmoved.after]
      exact ⟨rfl, rfl⟩
    · rw [hmoved.others k' hkk] at hk'
      exact absurd (hlock.intr_unique hk' (by rw [hpc]; rfl)) hkk
  refine ⟨?_, ?_, ?_, ?_, ?_, ?_, ?_⟩
  · rw [hm.dev.2.2, hm.eq]
    change incr s.disk.usedIdx = _
    rw [h.usedRing.usedIdx, incr_mod]
  · rw [hm.dev.1, hm.eq]
    exact h.usedRing.idx
  · rw [hm.dev.1, hm.dev.2.2]
    exact (List.getElem?_eq_some_iff.mp hm.posted).1
  · rw [hm.dev.1, hm.dev.2.2, hm.eq]
    exact fun j e' hj he' => h.usedRing.posted j e' (by omega) he'
  · rw [hm.dev.1, hm.eq]
    exact h.usedRing.posting
  · intro k' hk'
    have htest := (houtside k' (by rw [hk']; rfl)).2
    rw [hk'] at htest
    cases htest
  · rintro k' id hk'
    have htest := (houtside k' (by rcases hk' with hk' | hk' <;> rw [hk'] <;> rfl)).2
    rcases hk' with hk' | hk' <;> rw [hk'] at htest <;> cases htest

/-- A call that sleeps afterwards slept before, and it is not the one of the chain. -/
theorem asleep (hcont : s.Contents calls) {u : ι} (hu : s'.rw u = .asleep y) :
    s.rw u = .asleep y ∧ u ≠ t := by
  have hold : s.rw u = .asleep y := by
    have hstay := hm.stays u
    rw [hu] at hstay
    exact hstay.of_asleep
  refine ⟨hold, ?_⟩
  rintro rfl
  -- the call of the chain sleeps on the buffer that is woken
  have hx := hm.waits
  have hwake := hm.rw_eq u
  rw [hold] at hx hwake
  cases hx
  have hdata : (s.disk.info e.head).data = (calls u).buf := by
    rw [hm.head]
    have hfilled := hcont u
    rw [hold] at hfilled
    exact hfilled.data
  rw [hu, hdata] at hwake
  rw [RwPc.woken, if_pos rfl] at hwake
  cases hwake

theorem waiting (h : s.Queue calls) (hcont : s.Contents calls) : s'.Waiting calls := by
  have hserved : ∀ u, s.Served calls u → s'.Served calls u := by
    rw [hm.eq]
    exact fun u hu => hu
  have hst : s.Served calls t := by
    obtain ⟨t', ht', hreq⟩ := h.inFlight.asked e hm.mem_everTaken
    obtain rfl : t = t' := Option.some.inj (hm.published.symm.trans ht')
    exact ⟨e, List.mem_of_getElem? hm.posted, hm.published, hreq⟩
  refine ⟨?_, ?_, ?_⟩
  · intro u y hy hf
    rw [(hm.stays u).waits] at hy
    by_cases hut : u = t
    · rw [hut]
      exact hserved t hst
    · rw [hm.info, Function.update_of_ne (hm.head_ne u y hut hy)] at hf
      exact hserved u (h.waiting.served u y hy hf)
  · intro u hu
    rw [(hm.stays u).finished] at hu
    exact hserved u (h.waiting.finished u hu)
  · intro u y hu
    obtain ⟨hold, hut⟩ := hm.asleep hcont hu
    rw [hm.info, Function.update_of_ne (hm.head_ne u y hut (by rw [hold]; rfl))]
    exact h.waiting.asleep u y hold

end Marked

/-- An interrupt tells the call of the next chain, and no other one, that it is finished. -/
theorem Queue.mark (h : s.Queue calls) (hlock : s.Locked) (hown : s.Owned)
    (hcont : s.Contents calls) (hpc : s.intr k = .mark i)
    (hs' : s' = { (s.wakeup calls (.data (s.disk.info i).data)).gotoIntr k .test with
      disk := { s.disk with
        info := Function.update s.disk.info i { s.disk.info i with finish := true }
        usedIdx := incr s.disk.usedIdx }
      handled := s.handled + 1 }) : s'.Queue calls := by
  obtain ⟨e, he, rfl⟩ := h.usedRing.current k i (.inr hpc)
  obtain ⟨t, x, ht, hx, hhead, -, -⟩ :=
    h.inFlight.live e (List.mem_append_right _ (mem_answered le_rfl he))
  have hm : Marked calls s s' k e t x := by
    refine ⟨hs', he, ht, hx, hhead, fun u y hne hy => ?_⟩
    rw [hhead]
    refine hown.head_ne hy ?_ hne
    rw [RwPc.held_of_waits hx]
    exact List.mem_cons_self
  exact ⟨hm.offered h, hm.inFlight h, hm.usedRing h hlock hpc, hm.waiting h hcont⟩

end

end VirtioState

end StartOS
