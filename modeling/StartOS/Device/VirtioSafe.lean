import StartOS.Device.VirtioDriver

/-! # Requests of the virtio disk

The steps of the device, and what holds in every state that calls, interrupts and
the device reach together.
-/

namespace StartOS

open VirtioDisk

variable {c : RwArgs} {x : DescTriple} {d : VirtioDisk} {e : TakenChain}

/-! ## What the device reads -/

theorem RwArgs.Linked.descs (h : c.Linked x d) (hx : x.list.Nodup) :
    d.desc x.a = x.first ∧ d.desc x.b = c.second x ∧ d.desc x.c = x.third := by
  have hab : x.a ≠ x.b ∧ x.a ≠ x.c ∧ x.b ≠ x.c := by
    simpa [DescTriple.list, and_assoc] using hx
  obtain ⟨hab, hac, hbc⟩ := hab
  refine ⟨?_, ?_, ?_⟩
  · rw [h.desc x.a (by simp [DescTriple.list]), RwArgs.content, if_pos rfl]
  · rw [h.desc x.b (by simp [DescTriple.list]), RwArgs.content, if_neg hab.symm, if_pos rfl]
  · rw [h.desc x.c (by simp [DescTriple.list]), RwArgs.content, if_neg hac.symm, if_neg hbc.symm]

theorem RwArgs.Linked.chainFrom (h : c.Linked x d) (hx : x.list.Nodup) :
    d.chainFrom num x.a = [x.first, c.second x, x.third] := by
  obtain ⟨ha, hb, hc⟩ := h.descs hx
  have hsucc : ∀ n i, d.chainFrom (n + 1) i = d.desc i ::
      if (d.desc i).flags &&& descNext ≠ 0 then d.chainFrom n (d.desc i).next else [] :=
    fun _ _ => rfl
  have hfirst : x.first.next = x.b := rfl
  have hsecond : (c.second x).next = x.c := rfl
  rw [num, hsucc, ha, if_pos x.first_goes, hfirst, hsucc, hb, if_pos (c.second_goes x), hsecond,
    hsucc, hc, if_neg x.third_ends]

theorem TakenChain.request_read (h : c.Linked x d) (hx : x.list.Nodup) (pos : ℕ) :
    (TakenChain.read d pos x.a).request = some c.request := by
  have hop : (TakenChain.read d pos x.a).op = some c.header := by
    unfold read
    rw [(h.descs hx).1]
    exact congrArg some h.ops
  have hchain : (TakenChain.read d pos x.a).chain = [x.first, c.second x, x.third] := h.chainFrom hx
  unfold request
  rw [hop, hchain]
  unfold RwArgs.second RwArgs.request RwArgs.header
  cases c.write
  · rfl
  · rfl

theorem TakenChain.complete_of_chain {y z : VirtqDesc} (h : e.chain = [y, z, x.third]) :
    e.complete d = { d with info := Function.update d.info x.a { d.info x.a with status := 0 } } := by
  unfold complete
  rw [h]
  rfl

namespace VirtioState

variable {ι κ : Type*} {s s' : VirtioState ι κ} {t u : ι} {k : κ} {i j n : ℕ}
  {calls : ι → RwArgs} {l l' : List TakenChain}

/-! ## The steps of the device -/

theorem perm_move {α : Type*} (l l' m r : List α) (a : α) :
    (l ++ l' ++ (m ++ a :: r)).Perm (l ++ a :: l' ++ (m ++ r)) := by
  have hback : (l ++ l' ++ (m ++ a :: r)).Perm (a :: (l ++ l' ++ (m ++ r))) := by
    rw [← List.append_assoc, ← List.append_assoc (l ++ l')]
    exact List.perm_middle
  exact hback.trans (List.perm_middle.append_right _).symm

/-- While the device has a chain to post, there is room in the used ring. -/
theorem Queue.room (h : s.Queue calls) (hown : s.Owned) (he : e ∈ s.dev.written) :
    s.dev.posted.length < s.handled + num := by
  have hmem : ∀ e' ∈ e :: s.dev.posted.drop s.handled, e' ∈ s.answered := by
    intro e' he'
    rcases List.mem_cons.mp he' with rfl | he'
    · exact List.mem_append_left _ he
    · exact List.mem_append_right _ (List.mem_append_right _ he')
  have hnodup : ((e :: s.dev.posted.drop s.handled).map TakenChain.pos).Nodup := by
    have hall := h.inFlight.pos.nodup_iff.mpr List.nodup_range
    obtain ⟨w, w', hw⟩ := List.append_of_mem he
    have hsub : (e :: s.dev.posted.drop s.handled).Sublist s.everTaken := by
      rw [everTaken, hw]
      refine List.Sublist.trans ?_ (List.sublist_append_right _ _)
      rw [List.append_assoc]
      refine List.Sublist.trans ?_ (List.sublist_append_right _ _)
      refine List.Sublist.cons_cons e ?_
      refine List.Sublist.trans ?_ (List.sublist_append_right _ _)
      exact (List.drop_sublist _ _).trans (List.sublist_append_right _ _)
    exact (hsub.map _).nodup hall
  have hfew := hown.few h.offered.nodup hnodup ?_
  · rw [List.length_map, List.length_cons, List.length_drop] at hfew
    have hle := h.usedRing.handled_le
    omega
  · intro p hp
    obtain ⟨e', he', rfl⟩ := List.mem_map.mp hp
    obtain ⟨t, x, ht, hx, -⟩ := h.inFlight.live e' (List.mem_append_right _ (hmem e' he'))
    refine ⟨x.a, t, ht, ?_⟩
    rw [RwPc.held_of_waits hx]
    exact List.mem_cons_self

theorem Queue.take (h : s.Queue calls) (hown : s.Owned) (hcont : s.Contents calls)
    (hne : s.disk.avail.idx ≠ s.dev.count % 2 ^ 16)
    (hs' : s' = { s with dev := { s.dev with
      count := s.dev.count + 1
      taken := s.dev.taken ++ [.read s.disk s.dev.count
        (s.disk.avail.ring (s.dev.count % 2 ^ 16 % num))] } }) : s'.Queue calls := by
  have hlt : s.dev.count < s.published.length := by
    refine lt_of_le_of_ne h.offered.count_le fun heq => hne ?_
    rw [h.offered.idx, heq]
  have ht := List.getElem?_eq_getElem hlt
  obtain ⟨x, hx, hring, hf⟩ := h.offered.pending _ _ le_rfl ht
  have hlinked := (hcont _).linked hx
  have hnodup := hown.nodup s.published[s.dev.count]
  rw [RwPc.held_of_waits hx] at hnodup
  rw [mod_num, hring] at hs'
  have hpub : s'.published = s.published := by rw [hs']
  have hcount : s'.dev.count = s.dev.count + 1 := by rw [hs']
  have hans : s'.answered = s.answered := by rw [hs']; rfl
  have htaken : s'.dev.taken = s.dev.taken ++ [.read s.disk s.dev.count x.a] := by rw [hs']
  have hever : s'.everTaken.Perm (.read s.disk s.dev.count x.a :: s.everTaken) := by
    rw [hs', everTaken, List.append_assoc]
    exact List.perm_middle
  refine ⟨⟨?_, ?_, ?_, ?_, ?_, ?_⟩, ⟨?_, ?_, ?_, ?_⟩, ?_, ?_⟩
  · rw [hs']
    exact h.offered.idx
  · rw [hcount, hpub]
    exact hlt
  · rw [hpub]
    exact h.offered.nodup
  · rw [hs']
    exact h.offered.submitted
  · rw [hcount, hs']
    exact fun j u hj hu => h.offered.pending j u (Nat.le_of_succ_le hj) hu
  · rw [hs']
    exact h.offered.ringed
  · refine (hever.map _).trans ?_
    rw [hcount, List.range_succ]
    exact (h.inFlight.pos.cons _).trans (List.perm_append_singleton _ _).symm
  · intro e he
    rcases List.mem_cons.mp (hever.mem_iff.mp he) with rfl | he
    · refine ⟨_, ?_, TakenChain.request_read hlinked hnodup s.dev.count⟩
      rw [hpub]
      exact ht
    · rw [hs']
      exact h.inFlight.asked e he
  · rw [hans, htaken]
    intro e he
    rcases List.mem_append.mp he with he | he
    · rcases List.mem_append.mp he with he | he
      · rw [hs']
        exact h.inFlight.live e (List.mem_append_left _ he)
      · rw [List.mem_singleton.mp he, hs']
        exact ⟨_, x, ht, hx, rfl, hlinked.chainFrom hnodup, hf⟩
    · rw [hs']
      exact h.inFlight.live e (List.mem_append_right _ he)
  · rw [hans, hs']
    exact h.inFlight.status
  · subst hs'
    exact h.usedRing.frame rfl rfl rfl rfl rfl h.usedRing.read h.usedRing.current
  · subst hs'
    exact h.waiting.frame (fun _ => id) (fun _ _ hy hf => ⟨hy, hf⟩) (fun _ => id) h.waiting.asleep

theorem Queue.complete (h : s.Queue calls) (ht : s.dev.taken = l ++ e :: l')
    (hs' : s' = { s with
      disk := e.complete s.disk
      dev := { s.dev with taken := l ++ l', written := s.dev.written ++ [e] } }) :
    s'.Queue calls := by
  have hmem : e ∈ s.dev.taken ++ s.answered := by
    rw [ht]
    simp
  obtain ⟨t, x, -, -, hhead, hchain, -⟩ := h.inFlight.live e hmem
  rw [TakenChain.complete_of_chain hchain] at hs'
  have hinfo : s'.disk.info =
      Function.update s.disk.info x.a { s.disk.info x.a with status := 0 } := by rw [hs']
  have hfin : ∀ i, (s'.disk.info i).finish = (s.disk.info i).finish := by
    intro i
    rw [hinfo]
    by_cases hi : i = x.a
    · rw [hi, Function.update_self]
    · rw [Function.update_of_ne hi]
  have hans : ∀ e', e' ∈ s'.answered ↔ e' ∈ s.answered ∨ e' = e := by
    intro e'
    rw [hs']
    unfold answered
    simp only [List.mem_append, List.mem_singleton]
    tauto
  refine ⟨?_, ?_, ?_, ?_⟩
  · refine h.offered.frame (by rw [hs']) (by rw [hs']) (by rw [hs']) ?_ ?_ ?_
    · rw [hs']
      exact fun _ hu => hu
    · rw [hs']
      exact fun _ _ hu => hu
    · intro j u y _ _ hy hf
      rw [hfin, hs']
      exact ⟨hy, hf⟩
  · refine h.inFlight.frame (by rw [hs']) (by rw [hs']; exact fun _ _ hu => hu) ?_ ?_ ?_ ?_
    · rw [hs', everTaken, everTaken, ht, List.append_assoc s.dev.written]
      exact perm_move l l' s.dev.written _ e
    · intro e' he'
      rw [List.mem_append, hans, hs'] at he'
      rw [ht]
      simp only [List.mem_append, List.mem_cons] at he' ⊢
      tauto
    · intro e' _ u y _ hy hf
      rw [hfin, hs']
      exact ⟨hy, hf⟩
    · intro e' he'
      rw [hinfo]
      by_cases heq : e'.head = x.a
      · rw [heq, Function.update_self]
      · rw [Function.update_of_ne heq]
        rcases (hans e').mp he' with he' | rfl
        · exact h.inFlight.status e' he'
        · exact absurd hhead heq
  · subst hs'
    exact h.usedRing.frame rfl rfl rfl rfl rfl h.usedRing.read h.usedRing.current
  · refine h.waiting.frame ?_ ?_ ?_ ?_
    · rw [hs']
      exact fun _ hu => hu
    · intro u y hy hf
      rw [hfin] at hf
      rw [hs'] at hy
      exact ⟨hy, hf⟩
    · rw [hs']
      exact fun _ hu => hu
    · intro u y hu
      rw [hfin]
      rw [hs'] at hu
      exact h.waiting.asleep u y hu

/-- A head goes into a slot of the used ring that was handled before. -/
theorem Queue.post (h : s.Queue calls) (hown : s.Owned) (hw : s.dev.written = l ++ e :: l')
    (hp : s.dev.posting = none)
    (hs' : s' = { s with
      disk := { s.disk with used := { s.disk.used with
        ring := Function.update s.disk.used.ring (s.disk.used.idx % num) e.head } }
      dev := { s.dev with written := l ++ l', posting := some e } }) : s'.Queue calls := by
  have hmem : e ∈ s.dev.written := by
    rw [hw]
    simp
  have hroom := h.room hown hmem
  have hring : s'.disk.used.ring =
      Function.update s.disk.used.ring (s.dev.posted.length % num) e.head := by
    rw [hs', h.usedRing.idx, mod_num]
  have hinfo : s'.disk.info = s.disk.info := by rw [hs']
  have hrw : s'.rw = s.rw := by rw [hs']
  have hdev : s'.dev.posted = s.dev.posted ∧ s'.handled = s.handled := by
    rw [hs']
    exact ⟨rfl, rfl⟩
  have hans : ∀ e', e' ∈ s'.answered → e' ∈ s.answered := by
    intro e'
    rw [hs']
    unfold answered
    rw [hw, hp]
    simp only [List.mem_append, List.mem_cons, Option.toList_some]
    tauto
  refine ⟨?_, ?_, ⟨?_, ?_, ?_, ?_, ?_, ?_, ?_⟩, ?_⟩
  · refine h.offered.frame (by rw [hs']) (by rw [hs']) (by rw [hs']) ?_ ?_ ?_
    · rw [hrw]
      exact fun _ hu => hu
    · rw [hrw]
      exact fun _ _ hu => hu
    · rw [hrw, hinfo]
      exact fun _ _ _ _ _ hy hf => ⟨hy, hf⟩
  · refine h.inFlight.frame (by rw [hs']) (by rw [hs']; exact fun _ _ hu => hu) ?_ ?_ ?_ ?_
    · rw [hs', everTaken, everTaken, hw, hp]
      exact (perm_move l l' [] _ e).append_left _
    · intro e' he'
      rcases List.mem_append.mp he' with he' | he'
      · rw [hs'] at he'
        exact List.mem_append_left _ he'
      · exact List.mem_append_right _ (hans e' he')
    · rw [hrw, hinfo]
      exact fun _ _ _ _ _ hy hf => ⟨hy, hf⟩
    · rw [hinfo]
      exact fun e' he' => h.inFlight.status e' (hans e' he')
  · rw [hdev.2, hs']
    exact h.usedRing.usedIdx
  · rw [hdev.1, hs']
    exact h.usedRing.idx
  · rw [hdev.1, hdev.2]
    exact h.usedRing.handled_le
  · rw [hdev.1, hdev.2, hring]
    intro j e' hj he'
    have hlt := (List.getElem?_eq_some_iff.mp he').1
    rw [Function.update_of_ne (mod_num_ne hlt (by omega))]
    exact h.usedRing.posted j e' hj he'
  · rw [hdev.1, hring, hs']
    rintro e' he'
    cases he'
    rw [Function.update_self]
  · rw [hdev.1, hdev.2, hs']
    exact h.usedRing.read
  · rw [hdev.1, hdev.2, hs']
    exact h.usedRing.current
  · refine h.waiting.frame ?_ ?_ ?_ ?_
    · rw [hs']
      exact fun _ hu => hu
    · rw [hrw, hinfo]
      exact fun _ _ hy hf => ⟨hy, hf⟩
    · rw [hrw]
      exact fun _ hu => hu
    · rw [hrw, hinfo]
      exact h.waiting.asleep

theorem Queue.posted (h : s.Queue calls) (hp : s.dev.posting = some e)
    (hs' : s' = { s with
      disk := { s.disk with used := { s.disk.used with idx := incr s.disk.used.idx } }
      dev := { s.dev with posting := none, posted := s.dev.posted ++ [e] } }) :
    s'.Queue calls := by
  have hposted : s'.dev.posted = s.dev.posted ++ [e] := by rw [hs']
  have hinfo : s'.disk.info = s.disk.info := by rw [hs']
  have hrw : s'.rw = s.rw := by rw [hs']
  have hans : ∀ e', e' ∈ s'.answered → e' ∈ s.answered := by
    intro e'
    rw [hs']
    unfold answered
    rw [hp, List.drop_append_of_le_length h.usedRing.handled_le]
    simp only [List.mem_append, List.mem_singleton, Option.toList_some, Option.toList_none,
      List.not_mem_nil]
    tauto
  refine ⟨?_, ?_, ⟨?_, ?_, ?_, ?_, ?_, ?_, ?_⟩, ?_⟩
  · refine h.offered.frame (by rw [hs']) (by rw [hs']) (by rw [hs']) ?_ ?_ ?_
    · rw [hrw]
      exact fun _ hu => hu
    · rw [hrw]
      exact fun _ _ hu => hu
    · rw [hrw, hinfo]
      exact fun _ _ _ _ _ hy hf => ⟨hy, hf⟩
  · refine h.inFlight.frame (by rw [hs']) (by rw [hs']; exact fun _ _ hu => hu) ?_ ?_ ?_ ?_
    · rw [hs', everTaken, everTaken, hp]
      exact ((List.perm_append_singleton e s.dev.posted).append_left _).append_left _
    · intro e' he'
      rcases List.mem_append.mp he' with he' | he'
      · rw [hs'] at he'
        exact List.mem_append_left _ he'
      · exact List.mem_append_right _ (hans e' he')
    · rw [hrw, hinfo]
      exact fun _ _ _ _ _ hy hf => ⟨hy, hf⟩
    · rw [hinfo]
      exact fun e' he' => h.inFlight.status e' (hans e' he')
  · rw [hs']
    exact h.usedRing.usedIdx
  · rw [hposted, List.length_append, List.length_singleton, ← incr_mod, ← h.usedRing.idx, hs']
  · rw [hposted, List.length_append, hs']
    exact h.usedRing.handled_le.trans (Nat.le_add_right _ _)
  · rw [hposted, hs']
    intro j e' hj he'
    rcases Nat.lt_or_ge j s.dev.posted.length with hlt | hge
    · rw [List.getElem?_append_left hlt] at he'
      exact h.usedRing.posted j e' hj he'
    · have hlt := (List.getElem?_eq_some_iff.mp he').1
      rw [List.length_append, List.length_singleton] at hlt
      obtain rfl : j = s.dev.posted.length := by omega
      rw [List.getElem?_concat_length] at he'
      cases he'
      exact h.usedRing.posting e hp
  · rw [hs']
    rintro e' he'
    cases he'
  · rw [hposted, List.length_append, hs']
    exact fun k hk => (h.usedRing.read k hk).trans_le (Nat.le_add_right _ _)
  · rw [hposted, hs']
    intro k id hk
    obtain ⟨e', he', hid⟩ := h.usedRing.current k id hk
    refine ⟨e', ?_, hid⟩
    rw [List.getElem?_append_left (List.getElem?_eq_some_iff.mp he').1, he']
  · refine h.waiting.frame ?_ ?_ ?_ ?_
    · rintro u ⟨e', he', hu, hreq⟩
      refine ⟨e', ?_, ?_, hreq⟩
      · rw [hposted]
        exact List.mem_append_left _ he'
      · rw [hs']
        exact hu
    · rw [hrw, hinfo]
      exact fun _ _ hy hf => ⟨hy, hf⟩
    · rw [hrw]
      exact fun _ hu => hu
    · rw [hrw, hinfo]
      exact h.waiting.asleep

/-! ## Every step -/

theorem Queue.call (h : s.Queue calls) (hq : s.Quiet s') (hintr : s'.intr = s.intr) :
    s'.Queue calls := by
  refine h.quiet hq ?_ ?_
  · rw [hintr]
    exact h.usedRing.read
  · rw [hintr]
    exact h.usedRing.current

/-- An interrupt goes on to a place where it has read nothing, and the rings are left alone. -/
theorem Queue.ofIntr {p q : IntrPc} (h : s.Queue calls) (hq : s.Quiet s')
    (hm : s.MovedIntr s' k p q) (hread : q = .read → s.handled < s.dev.posted.length)
    (hcurrent : ∀ id, q = .check id ∨ q = .mark id →
      ∃ e, s.dev.posted[s.handled]? = some e ∧ e.head = id) : s'.Queue calls := by
  refine h.quiet hq ?_ ?_
  · intro k' hk'
    by_cases hkk : k' = k
    · rw [hkk, hm.after] at hk'
      exact hread hk'
    · rw [hm.others k' hkk] at hk'
      exact h.usedRing.read k' hk'
  · intro k' id hk'
    by_cases hkk : k' = k
    · rw [hkk, hm.after] at hk'
      exact hcurrent id hk'
    · rw [hm.others k' hkk] at hk'
      exact h.usedRing.current k' id hk'

section

variable [DecidableEq ι]

theorem Queue.alloc {got : List ℕ} {d : VirtioDisk} (hs : s.Queue calls) (hown : s.Owned)
    (hpc : s.rw t = .alloc got) (hd : s.disk.allocDesc = some (i, d)) :
    VirtioState.Queue calls { s.goto t (.allocated (got ++ [i])) with disk := d } := by
  obtain ⟨-, -, rfl⟩ := allocDesc_some hd
  rcases RwPc.allocated_cases (got ++ [i]) with hq | ⟨x, hq⟩
  · rw [hq]
    exact hs.call (.call hown (.of_goto hpc rfl) ⟨rfl, rfl, rfl⟩ ⟨rfl, rfl, rfl⟩ rfl nofun nofun
      nofun nofun (.inl rfl)) rfl
  · rw [hq]
    exact hs.call (.call hown (.of_goto hpc rfl) ⟨rfl, rfl, rfl⟩ ⟨rfl, rfl, rfl⟩ rfl nofun nofun
      nofun nofun (.inl rfl)) rfl

theorem Queue.fill {f : FillStep} (hs : s.Queue calls) (hown : s.Owned)
    (hpc : s.rw t = .fill f x) :
    VirtioState.Queue calls
      { s.goto t (.filled f x) with disk := f.store (calls t) x s.disk } := by
  have hsame : (f.store (calls t) x s.disk).avail = s.disk.avail ∧
      (f.store (calls t) x s.disk).used = s.disk.used ∧
      (f.store (calls t) x s.disk).usedIdx = s.disk.usedIdx := by
    cases f <;> exact ⟨rfl, rfl, rfl⟩
  have hinfo : ∀ i, i ∉ (RwPc.fill f x).held →
      (f.store (calls t) x s.disk).info i = s.disk.info i := fun i hi =>
    (FillStep.store_of_not_mem hi).2.2
  rcases RwPc.filled_cases f x with hq | ⟨f', hq⟩
  · rw [hq]
    exact hs.call (.call hown (.of_goto hpc rfl) hsame ⟨rfl, rfl, rfl⟩ rfl nofun nofun nofun nofun
      (.inr ⟨rfl, hinfo⟩)) rfl
  · rw [hq]
    exact hs.call (.call hown (.of_goto hpc rfl) hsame ⟨rfl, rfl, rfl⟩ rfl nofun nofun nofun nofun
      (.inr ⟨rfl, hinfo⟩)) rfl

theorem Queue.clear (hs : s.Queue calls) (hown : s.Owned) (hpc : s.rw t = .clear x) :
    VirtioState.Queue calls { s.goto t (.freeChain x x.a) with
      disk := { s.disk with
        info := Function.update s.disk.info x.a { s.disk.info x.a with data := 0 } } } := by
  refine hs.call (.call hown (.of_goto hpc rfl) ⟨rfl, rfl, rfl⟩ ⟨rfl, rfl, rfl⟩ rfl (fun _ => rfl)
    nofun (fun _ => rfl) nofun (.inr ⟨rfl, fun i hi => ?_⟩)) rfl
  have hne : i ≠ x.a := by
    rintro rfl
    exact hi List.mem_cons_self
  exact Function.update_of_ne hne _ _

theorem Queue.freeChain {d : VirtioDisk} (hs : s.Queue calls) (hown : s.Owned)
    (hpc : s.rw t = .freeChain x i) (hd : s.disk.freeDesc i = .ok d) :
    VirtioState.Queue calls { (s.wakeup calls .free).goto t
        (if (s.disk.desc i).flags &&& descNext ≠ 0 then .freeChain x (s.disk.desc i).next
          else .release) with disk := d } := by
  obtain rfl := freeDesc_ok hd
  by_cases hgo : (s.disk.desc i).flags &&& descNext ≠ 0
  · rw [if_pos hgo]
    exact hs.call (.call hown (.of_wakeup hpc rfl) ⟨rfl, rfl, rfl⟩ ⟨rfl, rfl, rfl⟩ rfl
      (fun _ => rfl) nofun (fun _ => rfl) nofun (.inl rfl)) rfl
  · rw [if_neg hgo]
    exact hs.call (.call hown (.of_wakeup hpc rfl) ⟨rfl, rfl, rfl⟩ ⟨rfl, rfl, rfl⟩ rfl
      (fun _ => rfl) nofun (fun _ => rfl) nofun (.inl rfl)) rfl

theorem Queue.wakeOther (hs : s.Queue calls) (t : ι) (chan : VirtioChan) :
    (s.goto t ((s.rw t).woken chan (calls t).buf)).Queue calls := by
  have hm : s.Moved (s.goto t ((s.rw t).woken chan (calls t).buf)) t _ _ := .of_goto rfl rfl
  refine hs.call (.of_stays (fun u => ?_) rfl ⟨rfl, rfl, rfl⟩) rfl
  by_cases hut : u = t
  · rw [hut, hm.after]
    exact RwPc.woken_stays ..
  · exact hm.others u hut

end

theorem Step.queue [DecidableEq ι] [DecidableEq κ] (h : Step calls s s') (hlock : s.Locked)
    (hown : s.Owned) (hcont : s.Contents calls) (hs : s.Queue calls) : s'.Queue calls := by
  cases h with
  | call t hpc =>
    exact hs.call (.call hown (.of_goto hpc rfl) ⟨rfl, rfl, rfl⟩ ⟨rfl, rfl, rfl⟩ rfl nofun nofun
      nofun nofun (.inl rfl)) rfl
  | acquire t hpc hfree =>
    exact hs.call (.call hown (.of_goto hpc rfl) ⟨rfl, rfl, rfl⟩ ⟨rfl, rfl, rfl⟩ rfl nofun nofun
      nofun nofun (.inl rfl)) rfl
  | alloc t hpc hd => exact hs.alloc hown hpc hd
  | allocFails t hpc hd =>
    exact hs.call (.call hown (.of_goto hpc rfl) ⟨rfl, rfl, rfl⟩ ⟨rfl, rfl, rfl⟩ rfl nofun nofun
      nofun nofun (.inl rfl)) rfl
  | @undo t i left d hpc hd =>
    obtain rfl := freeDesc_ok hd
    exact hs.call (.call hown (.of_wakeup hpc rfl) ⟨rfl, rfl, rfl⟩ ⟨rfl, rfl, rfl⟩ rfl nofun nofun
      nofun nofun (.inl rfl)) rfl
  | undoPanics t hpc hd => exact absurd hd (hown.undo_ne hpc _)
  | sleepFree t hpc =>
    exact hs.call (.call hown (.of_goto hpc rfl) ⟨rfl, rfl, rfl⟩ ⟨rfl, rfl, rfl⟩ rfl nofun nofun
      nofun nofun (.inl rfl)) rfl
  | fill t hpc => exact hs.fill hown hpc
  | ring t hpc => exact hs.ring hlock hown hpc rfl
  | publish t hpc => exact hs.publish hlock hcont hpc rfl
  | testFinish t hpc hf => exact hs.testFinish hpc hf rfl
  | @testSleep t x hpc hf =>
    refine hs.call (.call hown (.of_goto hpc rfl) ⟨rfl, rfl, rfl⟩ ⟨rfl, rfl, rfl⟩ rfl (fun _ => rfl)
      nofun nofun ?_ (.inl rfl)) rfl
    rintro y hy
    cases hy
    exact .inr hf
  | relock t hpc hfree =>
    exact hs.call (.call hown (.of_goto hpc rfl) ⟨rfl, rfl, rfl⟩ ⟨rfl, rfl, rfl⟩ rfl (fun _ => rfl)
      nofun nofun nofun (.inl rfl)) rfl
  | clear t hpc => exact hs.clear hown hpc
  | freeChain t hpc hd => exact hs.freeChain hown hpc hd
  | freePanics t hpc hd => exact absurd hd (hown.freeChain_ne hcont hpc _)
  | release t hpc =>
    exact hs.call (.call hown (.of_goto hpc rfl) ⟨rfl, rfl, rfl⟩ ⟨rfl, rfl, rfl⟩ rfl (fun _ => rfl)
      nofun (fun _ => rfl) nofun (.inl rfl)) rfl
  | wakeOther t chan => exact hs.wakeOther t chan
  | interrupt k hpc =>
    exact hs.ofIntr (.of_stays (fun _ => .rfl) rfl ⟨rfl, rfl, rfl⟩) (.of_goto hpc rfl) nofun nofun
  | acquireIntr k hpc hfree =>
    exact hs.ofIntr (.of_stays (fun _ => .rfl) rfl ⟨rfl, rfl, rfl⟩) (.of_goto hpc rfl) nofun nofun
  | testUsed k hpc hne =>
    refine hs.ofIntr (.of_stays (fun _ => .rfl) rfl ⟨rfl, rfl, rfl⟩) (.of_goto hpc rfl)
      (fun _ => ?_) nofun
    refine lt_of_le_of_ne hs.usedRing.handled_le fun heq => hne ?_
    rw [hs.usedRing.usedIdx, hs.usedRing.idx, heq]
  | testEmpty k hpc heq =>
    exact hs.ofIntr (.of_stays (fun _ => .rfl) rfl ⟨rfl, rfl, rfl⟩) (.of_goto hpc rfl) nofun nofun
  | read k hpc =>
    refine hs.ofIntr (.of_stays (fun _ => .rfl) rfl ⟨rfl, rfl, rfl⟩) (.of_goto hpc rfl) nofun ?_
    rintro id (hid | hid) <;> cases hid
    exact hs.current (hs.usedRing.read k hpc)
  | @check k id hpc hst =>
    refine hs.ofIntr (.of_stays (fun _ => .rfl) rfl ⟨rfl, rfl, rfl⟩) (.of_goto hpc rfl) nofun ?_
    rintro id' (hid | hid) <;> cases hid
    exact hs.usedRing.current k id (.inl hpc)
  | checkPanics k hpc hst => exact absurd (hs.status hpc) hst
  | mark k hpc => exact hs.mark hlock hown hcont hpc rfl
  | releaseIntr k hpc =>
    exact hs.ofIntr (.of_stays (fun _ => .rfl) rfl ⟨rfl, rfl, rfl⟩) (.of_goto hpc rfl) nofun nofun
  | take hne => exact hs.take hown hcont hne rfl
  | complete ht => exact hs.complete ht rfl
  | post hw hp => exact hs.post hown hw hp rfl
  | posted hp => exact hs.posted hp rfl

structure Calm (s : VirtioState ι κ) : Prop where
  calls : ∀ t p, s.rw t ≠ .panic p
  intrs : ∀ k p, s.intr k ≠ .panic p

theorem Calm.call {p q : RwPc} (h : s.Calm) (hm : s.Moved s' t p q) (hq : ∀ r, q ≠ .panic r)
    (hintr : s'.intr = s.intr) : s'.Calm where
  calls u r hu := h.calls u r (hm.eq_of_locked (hq r) rfl hu)
  intrs := by
    rw [hintr]
    exact h.intrs

theorem Calm.ofIntr {p q : IntrPc} (h : s.Calm) (hm : s.MovedIntr s' k p q)
    (hq : ∀ r, q ≠ .panic r) (hstay : ∀ u, (s.rw u).Stays (s'.rw u)) : s'.Calm where
  calls u r hu := by
    have hold := hstay u
    rw [hu] at hold
    exact h.calls u r (hold.eq_of_locked rfl).symm
  intrs k' r hk' := by
    by_cases hkk : k' = k
    · rw [hkk, hm.after] at hk'
      exact hq r hk'
    · rw [hm.others k' hkk] at hk'
      exact h.intrs k' r hk'

theorem Step.calm [DecidableEq ι] [DecidableEq κ] (h : Step calls s s') (hown : s.Owned)
    (hcont : s.Contents calls) (hqueue : s.Queue calls) (hs : s.Calm) : s'.Calm := by
  cases h with
  | call t hpc => exact hs.call (.of_goto hpc rfl) nofun rfl
  | acquire t hpc hfree => exact hs.call (.of_goto hpc rfl) nofun rfl
  | @alloc t got i d hpc hd =>
    refine hs.call (.of_goto hpc rfl) ?_ rfl
    rcases RwPc.allocated_cases (got ++ [i]) with hq | ⟨x, hq⟩
    · rw [hq]
      nofun
    · rw [hq]
      nofun
  | allocFails t hpc hd => exact hs.call (.of_goto hpc rfl) nofun rfl
  | undo t hpc hd => exact hs.call (.of_wakeup hpc rfl) nofun rfl
  | undoPanics t hpc hd => exact absurd hd (hown.undo_ne hpc _)
  | sleepFree t hpc => exact hs.call (.of_goto hpc rfl) nofun rfl
  | @fill t k x hpc =>
    refine hs.call (.of_goto hpc rfl) ?_ rfl
    rcases RwPc.filled_cases k x with hq | ⟨k', hq⟩
    · rw [hq]
      nofun
    · rw [hq]
      nofun
  | ring t hpc => exact hs.call (.of_goto hpc rfl) nofun rfl
  | publish t hpc => exact hs.call (.of_goto hpc rfl) nofun rfl
  | testFinish t hpc hf => exact hs.call (.of_goto hpc rfl) nofun rfl
  | testSleep t hpc hf => exact hs.call (.of_goto hpc rfl) nofun rfl
  | relock t hpc hfree => exact hs.call (.of_goto hpc rfl) nofun rfl
  | clear t hpc => exact hs.call (.of_goto hpc rfl) nofun rfl
  | freeChain t hpc hd =>
    refine hs.call (.of_wakeup hpc rfl) (fun r => ?_) rfl
    split
    · nofun
    · nofun
  | freePanics t hpc hd => exact absurd hd (hown.freeChain_ne hcont hpc _)
  | release t hpc => exact hs.call (.of_goto hpc rfl) nofun rfl
  | wakeOther t chan =>
    refine hs.call (.of_goto rfl rfl) (fun r hr => ?_) rfl
    have hstay := RwPc.woken_stays chan (calls t).buf (s.rw t)
    rw [hr] at hstay
    exact hs.calls t r (hstay.eq_of_locked rfl).symm
  | interrupt k hpc => exact hs.ofIntr (.of_goto hpc rfl) nofun fun _ => .rfl
  | acquireIntr k hpc hfree => exact hs.ofIntr (.of_goto hpc rfl) nofun fun _ => .rfl
  | testUsed k hpc hne => exact hs.ofIntr (.of_goto hpc rfl) nofun fun _ => .rfl
  | testEmpty k hpc heq => exact hs.ofIntr (.of_goto hpc rfl) nofun fun _ => .rfl
  | read k hpc => exact hs.ofIntr (.of_goto hpc rfl) nofun fun _ => .rfl
  | check k hpc hst => exact hs.ofIntr (.of_goto hpc rfl) nofun fun _ => .rfl
  | checkPanics k hpc hst => exact absurd (hqueue.status hpc) hst
  | mark k hpc => exact hs.ofIntr (.of_goto hpc rfl) nofun fun _ => RwPc.woken_stays ..
  | releaseIntr k hpc => exact hs.ofIntr (.of_goto hpc rfl) nofun fun _ => .rfl
  | take hne => exact ⟨hs.calls, hs.intrs⟩
  | complete ht => exact ⟨hs.calls, hs.intrs⟩
  | post hw hp => exact ⟨hs.calls, hs.intrs⟩
  | posted hp => exact ⟨hs.calls, hs.intrs⟩

/-! ## Every run -/

structure Sound (calls : ι → RwArgs) (s : VirtioState ι κ) : Prop where
  locked : s.Locked
  owned : s.Owned
  contents : s.Contents calls
  queue : s.Queue calls
  calm : s.Calm

theorem Initial.queue (h : s.Initial) : s.Queue calls where
  offered := by
    refine ⟨?_, ?_, ?_, ?_, ?_, ?_⟩
    · simp [h.avail, h.published]
    · rw [h.dev, h.published]
      exact le_rfl
    · rw [h.published]
      exact List.nodup_nil
    · rw [h.published]
      simp
    · rw [h.published]
      simp
    · intro t x ht
      rw [h.rw] at ht
      cases ht
  inFlight := by
    refine ⟨?_, ?_, ?_, ?_⟩
    · rw [everTaken, h.dev]
      exact .refl _
    · rw [everTaken, h.dev]
      simp
    · rw [answered, h.dev, h.handled]
      simp
    · rw [answered, h.dev, h.handled]
      simp
  usedRing := by
    refine ⟨?_, ?_, ?_, ?_, ?_, ?_, ?_⟩
    · simp [h.usedIdx, h.handled]
    · simp [h.used, h.dev]
    · rw [h.handled]
      exact Nat.zero_le _
    · rw [h.dev]
      simp
    · rw [h.dev]
      simp
    · intro k hk
      rw [h.intr] at hk
      cases hk
    · rintro k id hk
      rw [h.intr] at hk
      rcases hk with hk | hk <;> cases hk
  waiting := by
    refine ⟨?_, ?_, ?_⟩
    · intro t x hx
      rw [h.rw] at hx
      cases hx
    · intro t ht
      rw [h.rw] at ht
      cases ht
    · intro t x ht
      rw [h.rw] at ht
      cases ht

theorem Initial.sound (h : s.Initial) : s.Sound calls where
  locked a := by
    rw [h.lock]
    refine iff_of_false nofun ?_
    cases a with
    | inl t =>
      change ¬(s.rw t).locked
      rw [h.rw]
      nofun
    | inr k =>
      change ¬(s.intr k).locked
      rw [h.intr]
      nofun
  owned := by
    refine ⟨fun t => ?_, fun t i hi => ?_, fun t u i hi => ?_, fun i hi hf => ?_⟩
    · rw [h.rw]
      exact List.nodup_nil
    · rw [h.rw] at hi
      cases hi
    · rw [h.rw] at hi
      cases hi
    · rw [h.free i hi] at hf
      cases hf
  contents t := by
    rw [h.rw]
    trivial
  queue := h.queue
  calm := by
    refine ⟨fun t p => ?_, fun k p => ?_⟩
    · rw [h.rw]
      nofun
    · rw [h.intr]
      nofun

theorem Step.sound [DecidableEq ι] [DecidableEq κ] (h : Step calls s s') (hs : s.Sound calls) :
    s'.Sound calls where
  locked := h.locked hs.contents hs.locked
  owned := h.owned hs.contents hs.owned
  contents := h.contents hs.locked hs.owned hs.contents
  queue := h.queue hs.locked hs.owned hs.contents hs.queue
  calm := h.calm hs.owned hs.contents hs.queue hs.calm

structure Safe (calls : ι → RwArgs) (s : VirtioState ι κ) : Prop where
  /-- A descriptor is free, or one call has it. -/
  owner : ∀ i < num, s.disk.free i = true ∧ (∀ t, i ∉ (s.rw t).held) ∨
    s.disk.free i = false ∧ ∃! t, i ∈ (s.rw t).held
  /-- A call has none or three descriptors, but for the one inside `vdiskLock` that takes them or
  gives them back. -/
  three : ∀ t, (s.rw t).held = [] ∨ (∃ x : DescTriple, (s.rw t).held = x.list ∧ x.list.Nodup) ∨
    (s.rw t).moving ∧ s.lock = some (.inl t)
  /-- The chain of a call that waits has just its three descriptors. -/
  chain : ∀ t x, (s.rw t).waits = some x →
    s.disk.chainFrom num x.a = [x.first, (calls t).second x, x.third]
  calm : s.Calm
  /-- The slot that is written next is not one that the device has yet to take. -/
  slot : ∀ t x, s.rw t = .ring x → ∀ j, s.dev.count ≤ j → j < s.published.length →
    j % num ≠ s.disk.avail.idx % num
  /-- A call that has returned had one chain, and the device has done what it asks for. -/
  returned : ∀ t, s.rw t = .returned → ∃ e ∈ s.dev.posted, s.published[e.pos]? = some t ∧
    e.request = some (calls t).request ∧
    ∀ e' ∈ s.everTaken, s.published[e'.pos]? = some t → e' = e

theorem held_cases (p : RwPc) :
    p.held = [] ∨ (∃ x : DescTriple, p.held = x.list) ∨ p.moving := by
  cases p with
  | alloc | undo | freeChain => exact .inr (.inr rfl)
  | fill k x | ring x | publish x | test x | asleep x | relock x | clear x =>
    exact .inr (.inl ⟨x, rfl⟩)
  | _ => exact .inl rfl

theorem locked_of_moving {p : RwPc} (h : p.moving) : p.locked := by
  cases p with
  | alloc | undo | freeChain => rfl
  | _ => cases h

theorem Sound.safe (h : s.Sound calls) : s.Safe calls where
  owner i hi := by
    cases hf : s.disk.free i with
    | true =>
      refine .inl ⟨rfl, fun t ht => ?_⟩
      rw [(h.owned.used t i ht).2] at hf
      cases hf
    | false =>
      obtain ⟨t, ht⟩ := h.owned.owner i hi hf
      exact .inr ⟨rfl, t, ht, fun u hu => h.owned.disjoint u t i hu ht⟩
  three t := by
    rcases held_cases (s.rw t) with hnil | ⟨x, hx⟩ | hmoving
    · exact .inl hnil
    · refine .inr (.inl ⟨x, hx, ?_⟩)
      rw [← hx]
      exact h.owned.nodup t
    · exact .inr (.inr ⟨hmoving, (h.locked (.inl t)).mpr (locked_of_moving hmoving)⟩)
  chain t x hx := by
    refine ((h.contents t).linked hx).chainFrom ?_
    rw [← RwPc.held_of_waits hx]
    exact h.owned.nodup t
  calm := h.calm
  slot t x ht j hj hj' := by
    refine h.queue.offered.slot_ne h.owned (t := t) (i := x.a) ?_ ?_ hj hj'
    · rw [ht]
      nofun
    · rw [ht]
      exact List.mem_cons_self
  returned t ht := by
    obtain ⟨e, he, hpub, hreq⟩ := h.queue.waiting.finished t (by rw [ht]; rfl)
    refine ⟨e, he, hpub, hreq, fun e' he' hpub' => ?_⟩
    have hever : e ∈ s.everTaken :=
      List.mem_append_right _ (List.mem_append_right _ (List.mem_append_right _ he))
    have hlt := (List.getElem?_eq_some_iff.mp hpub').1
    have hpos := (List.getElem?_inj hlt h.queue.offered.nodup).mp (hpub'.trans hpub.symm)
    have hnodup := h.queue.inFlight.pos.nodup_iff.mpr List.nodup_range
    exact List.inj_on_of_nodup_map hnodup he' hever hpos

/-- In every state that calls, interrupts and the device reach together the driver keeps its
promises. -/
theorem safe_of_run [DecidableEq ι] [DecidableEq κ] {s₀ : VirtioState ι κ} (h₀ : s₀.Initial)
    (hrun : Relation.ReflTransGen (Step calls) s₀ s) : s.Safe calls := by
  have h : s.Sound calls := by
    induction hrun with
    | refl => exact h₀.sound
    | tail _ hstep ih => exact hstep.sound ih
  exact h.safe

/-- The disk after `VirtioInit`. -/
def bootDisk : VirtioDisk where
  desc _ := ⟨.null, 0, 0, 0⟩
  avail := ⟨0, fun _ => 0⟩
  used := ⟨0, fun _ => 0⟩
  free _ := true
  usedIdx := 0
  info _ := ⟨0, false, 0⟩
  ops _ := ⟨0, 0, 0⟩

def boot : VirtioState Unit Unit :=
  ⟨bootDisk, none, fun _ => .idle, fun _ => .idle, ⟨0, [], [], none, []⟩, [], 0⟩

theorem initial_boot : boot.Initial where
  free _ _ := rfl
  avail := rfl
  used := rfl
  usedIdx := rfl
  lock := rfl
  rw _ := rfl
  intr _ := rfl
  dev := rfl
  published := rfl
  handled := rfl

/-- A call that reads sector 3 returns, and the device has read it. -/
theorem safe_of_run_read :
    ∃ s : VirtioState Unit Unit, s.rw () = .returned ∧ s.Safe fun _ => ⟨7, 3, false⟩ := by
  have h := Relation.ReflTransGen.refl (r := Step fun _ => ⟨7, 3, false⟩) (a := boot)
  have h := h.tail (.call _ () rfl)
  have h := h.tail (.acquire _ () rfl rfl)
  have h := h.tail (.alloc _ () rfl rfl)
  have h := h.tail (.alloc _ () rfl rfl)
  have h := h.tail (.alloc _ () rfl rfl)
  have h := h.tail (.fill _ () rfl)
  have h := h.tail (.fill _ () rfl)
  have h := h.tail (.fill _ () rfl)
  have h := h.tail (.fill _ () rfl)
  have h := h.tail (.fill _ () rfl)
  have h := h.tail (.ring _ () rfl)
  have h := h.tail (.publish _ () rfl)
  have h := h.tail (.testSleep _ () rfl rfl)
  have h := h.tail (.take _ (by decide))
  have h := h.tail (.complete _ (List.nil_append [_]).symm)
  have h := h.tail (.post _ (List.nil_append [_]).symm rfl)
  have h := h.tail (.posted _ rfl)
  have h := h.tail (.interrupt _ () rfl)
  have h := h.tail (.acquireIntr _ () rfl rfl)
  have h := h.tail (.testUsed _ () rfl (by decide))
  have h := h.tail (.read _ () rfl)
  have h := h.tail (.check _ () rfl rfl)
  have h := h.tail (.mark _ () rfl)
  have h := h.tail (.testEmpty _ () rfl rfl)
  have h := h.tail (.releaseIntr _ () rfl)
  have h := h.tail (.relock _ () rfl rfl)
  have h := h.tail (.testFinish _ () rfl rfl)
  have h := h.tail (.clear _ () rfl)
  have h := h.tail (.freeChain _ () rfl rfl)
  have h := h.tail (.freeChain _ () rfl rfl)
  have h := h.tail (.freeChain _ () rfl rfl)
  have h := h.tail (.release _ () rfl)
  exact ⟨_, rfl, safe_of_run initial_boot h⟩

end VirtioState

end StartOS
