import StartOS.Device.VirtioOwned

/-! # The rings of the virtio disk

A chain that the device has been told about goes through the available ring, the
hands of the device and the used ring, and its call waits until an interrupt has
seen it there. At every moment it is in one of these places only.
-/

namespace StartOS

namespace VirtioState

open VirtioDisk

variable {ι κ : Type*} {s s' : VirtioState ι κ} {t u : ι} {k : κ} {i j : ℕ}
  {calls : ι → RwArgs} {p q : RwPc} {x : DescTriple} {e : TakenChain}

def answered (s : VirtioState ι κ) : List TakenChain :=
  s.dev.written ++ (s.dev.posting.toList ++ s.dev.posted.drop s.handled)

def everTaken (s : VirtioState ι κ) : List TakenChain :=
  s.dev.taken ++ (s.dev.written ++ (s.dev.posting.toList ++ s.dev.posted))

def Live (calls : ι → RwArgs) (s : VirtioState ι κ) (e : TakenChain) : Prop :=
  ∃ t x, s.published[e.pos]? = some t ∧ (s.rw t).waits = some x ∧ e.head = x.a ∧
    e.chain = [x.first, (calls t).second x, x.third] ∧ (s.disk.info x.a).finish = false

def Asked (calls : ι → RwArgs) (s : VirtioState ι κ) (e : TakenChain) : Prop :=
  ∃ t, s.published[e.pos]? = some t ∧ e.request = some (calls t).request

def Served (calls : ι → RwArgs) (s : VirtioState ι κ) (t : ι) : Prop :=
  ∃ e ∈ s.dev.posted, s.published[e.pos]? = some t ∧ e.request = some (calls t).request

/-- The chains in the available ring that the device has not taken. -/
structure Offered (s : VirtioState ι κ) : Prop where
  idx : s.disk.avail.idx = s.published.length % 2 ^ 16
  count_le : s.dev.count ≤ s.published.length
  nodup : s.published.Nodup
  submitted : ∀ t ∈ s.published, (s.rw t).submitted
  pending : ∀ j t, s.dev.count ≤ j → s.published[j]? = some t → ∃ x, (s.rw t).waits = some x ∧
    s.disk.avail.ring (j % num) = x.a ∧ (s.disk.info x.a).finish = false
  ringed : ∀ t x, s.rw t = .publish x → s.disk.avail.ring (s.published.length % num) = x.a

structure InFlight (calls : ι → RwArgs) (s : VirtioState ι κ) : Prop where
  pos : (s.everTaken.map TakenChain.pos).Perm (List.range s.dev.count)
  asked : ∀ e ∈ s.everTaken, s.Asked calls e
  live : ∀ e ∈ s.dev.taken ++ s.answered, s.Live calls e
  status : ∀ e ∈ s.answered, (s.disk.info e.head).status = 0

structure UsedRing (s : VirtioState ι κ) : Prop where
  usedIdx : s.disk.usedIdx = s.handled % 2 ^ 16
  idx : s.disk.used.idx = s.dev.posted.length % 2 ^ 16
  handled_le : s.handled ≤ s.dev.posted.length
  posted : ∀ j e, s.handled ≤ j → s.dev.posted[j]? = some e → s.disk.used.ring (j % num) = e.head
  posting : ∀ e, s.dev.posting = some e →
    s.disk.used.ring (s.dev.posted.length % num) = e.head
  read : ∀ k, s.intr k = .read → s.handled < s.dev.posted.length
  current : ∀ k id, s.intr k = .check id ∨ s.intr k = .mark id →
    ∃ e, s.dev.posted[s.handled]? = some e ∧ e.head = id

/-- A call that has seen its request finished was served, and none sleeps on a finished one. -/
structure Waiting (calls : ι → RwArgs) (s : VirtioState ι κ) : Prop where
  served : ∀ t x, (s.rw t).waits = some x → (s.disk.info x.a).finish = true → s.Served calls t
  finished : ∀ t, (s.rw t).finished → s.Served calls t
  asleep : ∀ t x, s.rw t = .asleep x → (s.disk.info x.a).finish = false

/-! ## What a step may touch -/

theorem Offered.frame (h : s.Offered) (havail : s'.disk.avail = s.disk.avail)
    (hpublished : s'.published = s.published) (hcount : s'.dev.count = s.dev.count)
    (hsubmitted : ∀ t, (s.rw t).submitted → (s'.rw t).submitted)
    (hpublish : ∀ t x, s'.rw t = .publish x → s.rw t = .publish x)
    (hwaits : ∀ j t x, s.dev.count ≤ j → s.published[j]? = some t → (s.rw t).waits = some x →
      (s.disk.info x.a).finish = false →
      (s'.rw t).waits = some x ∧ (s'.disk.info x.a).finish = false) : s'.Offered where
  idx := by
    rw [havail, hpublished]
    exact h.idx
  count_le := by
    rw [hcount, hpublished]
    exact h.count_le
  nodup := by
    rw [hpublished]
    exact h.nodup
  submitted t ht := by
    rw [hpublished] at ht
    exact hsubmitted t (h.submitted t ht)
  pending j t hj ht := by
    rw [hcount] at hj
    rw [hpublished] at ht
    obtain ⟨x, hx, hring, hf⟩ := h.pending j t hj ht
    obtain ⟨hx', hf'⟩ := hwaits j t x hj ht hx hf
    exact ⟨x, hx', by rw [havail, hring], hf'⟩
  ringed t x ht := by
    rw [havail, hpublished]
    exact h.ringed t x (hpublish t x ht)

/-- The device moves chains on, and the calls that wait for them are left alone. -/
theorem InFlight.frame (h : s.InFlight calls) (hcount : s'.dev.count = s.dev.count)
    (hpublished : ∀ (i : ℕ) t, s.published[i]? = some t → s'.published[i]? = some t)
    (hever : s'.everTaken.Perm s.everTaken)
    (hopen : ∀ e ∈ s'.dev.taken ++ s'.answered, e ∈ s.dev.taken ++ s.answered)
    (hwaits : ∀ e ∈ s'.dev.taken ++ s'.answered, ∀ t x, s.published[e.pos]? = some t →
      (s.rw t).waits = some x → (s.disk.info x.a).finish = false →
      (s'.rw t).waits = some x ∧ (s'.disk.info x.a).finish = false)
    (hstatus : ∀ e ∈ s'.answered, (s'.disk.info e.head).status = 0) : s'.InFlight calls where
  pos := by
    rw [hcount]
    exact (hever.map _).trans h.pos
  asked e he := by
    obtain ⟨t, ht, hreq⟩ := h.asked e (hever.mem_iff.mp he)
    exact ⟨t, hpublished e.pos t ht, hreq⟩
  live e he := by
    obtain ⟨t, x, ht, hx, hhead, hchain, hf⟩ := h.live e (hopen e he)
    obtain ⟨hx', hf'⟩ := hwaits e he t x ht hx hf
    exact ⟨t, x, hpublished e.pos t ht, hx', hhead, hchain, hf'⟩
  status := hstatus

theorem UsedRing.frame (h : s.UsedRing) (hused : s'.disk.used = s.disk.used)
    (husedIdx : s'.disk.usedIdx = s.disk.usedIdx) (hposted : s'.dev.posted = s.dev.posted)
    (hposting : s'.dev.posting = s.dev.posting) (hhandled : s'.handled = s.handled)
    (hread : ∀ k, s'.intr k = .read → s.handled < s.dev.posted.length)
    (hcurrent : ∀ k id, s'.intr k = .check id ∨ s'.intr k = .mark id →
      ∃ e, s.dev.posted[s.handled]? = some e ∧ e.head = id) : s'.UsedRing where
  usedIdx := by
    rw [husedIdx, hhandled]
    exact h.usedIdx
  idx := by
    rw [hused, hposted]
    exact h.idx
  handled_le := by
    rw [hhandled, hposted]
    exact h.handled_le
  posted j e hj he := by
    rw [hhandled] at hj
    rw [hposted] at he
    rw [hused]
    exact h.posted j e hj he
  posting e he := by
    rw [hposting] at he
    rw [hused, hposted]
    exact h.posting e he
  read k hk := by
    rw [hhandled, hposted]
    exact hread k hk
  current k id hk := by
    rw [hposted, hhandled]
    exact hcurrent k id hk

theorem Waiting.frame (h : s.Waiting calls) (hserved : ∀ t, s.Served calls t → s'.Served calls t)
    (hwaits : ∀ t x, (s'.rw t).waits = some x → (s'.disk.info x.a).finish = true →
      (s.rw t).waits = some x ∧ (s.disk.info x.a).finish = true)
    (hfinished : ∀ t, (s'.rw t).finished → (s.rw t).finished)
    (hasleep : ∀ t x, s'.rw t = .asleep x → (s'.disk.info x.a).finish = false) :
    s'.Waiting calls where
  served t x hx hf := by
    obtain ⟨hx', hf'⟩ := hwaits t x hx hf
    exact hserved t (h.served t x hx' hf')
  finished t ht := hserved t (h.finished t (hfinished t ht))
  asleep := hasleep

structure Queue (calls : ι → RwArgs) (s : VirtioState ι κ) : Prop where
  offered : s.Offered
  inFlight : s.InFlight calls
  usedRing : s.UsedRing
  waiting : s.Waiting calls

/-- The step does not touch the rings, and calls neither begin nor end to wait. -/
structure Quiet (s s' : VirtioState ι κ) : Prop where
  avail : s'.disk.avail = s.disk.avail
  used : s'.disk.used = s.disk.used
  usedIdx : s'.disk.usedIdx = s.disk.usedIdx
  dev : s'.dev = s.dev
  published : s'.published = s.published
  handled : s'.handled = s.handled
  waits : ∀ t, (s'.rw t).waits = (s.rw t).waits
  submitted : ∀ t, (s.rw t).submitted → (s'.rw t).submitted
  publish : ∀ t x, s'.rw t = .publish x → s.rw t = .publish x
  finished : ∀ t, (s'.rw t).finished → (s.rw t).finished
  asleep : ∀ t x, s'.rw t = .asleep x → s.rw t = .asleep x ∨ (s.disk.info x.a).finish = false
  info : ∀ t x, (s.rw t).waits = some x →
    (s'.disk.info x.a).finish = (s.disk.info x.a).finish ∧
      (s'.disk.info x.a).status = (s.disk.info x.a).status

theorem Quiet.answered (h : s.Quiet s') : s'.answered = s.answered := by
  unfold VirtioState.answered
  rw [h.dev, h.handled]

theorem Quiet.served (h : s.Quiet s') (ht : s.Served calls t) : s'.Served calls t := by
  unfold Served
  rwa [h.dev, h.published]

theorem Queue.quiet (h : s.Queue calls) (hq : s.Quiet s')
    (hread : ∀ k, s'.intr k = .read → s.handled < s.dev.posted.length)
    (hcurrent : ∀ k id, s'.intr k = .check id ∨ s'.intr k = .mark id →
      ∃ e, s.dev.posted[s.handled]? = some e ∧ e.head = id) : s'.Queue calls where
  offered := by
    refine h.offered.frame hq.avail hq.published (congrArg VirtioDevice.count hq.dev) hq.submitted
      hq.publish fun j t x _ _ hx hf => ?_
    exact ⟨(hq.waits t).trans hx, (hq.info t x hx).1.trans hf⟩
  inFlight := by
    have hopen : s'.dev.taken ++ s'.answered = s.dev.taken ++ s.answered := by
      rw [hq.dev, hq.answered]
    have hever : s'.everTaken = s.everTaken := by
      unfold everTaken
      rw [hq.dev]
    refine h.inFlight.frame (congrArg VirtioDevice.count hq.dev) ?_ (.of_eq hever) ?_ ?_ ?_
    · intro i t ht
      rwa [hq.published]
    · intro e he
      rwa [hopen] at he
    · exact fun e _ t x _ hx hf => ⟨(hq.waits t).trans hx, (hq.info t x hx).1.trans hf⟩
    · intro e he
      rw [hq.answered] at he
      obtain ⟨t, x, -, hx, hhead, -⟩ := h.inFlight.live e (List.mem_append_right _ he)
      have hst := h.inFlight.status e he
      rw [hhead] at hst ⊢
      exact (hq.info t x hx).2.trans hst
  usedRing := h.usedRing.frame hq.used hq.usedIdx (congrArg VirtioDevice.posted hq.dev)
    (congrArg VirtioDevice.posting hq.dev) hq.handled hread hcurrent
  waiting := by
    refine h.waiting.frame (fun t => hq.served) ?_ hq.finished ?_
    · intro t x hx hf
      rw [hq.waits] at hx
      exact ⟨hx, (hq.info t x hx).1.symm.trans hf⟩
    · intro t x ht
      have hx : (s.rw t).waits = some x := by
        rw [← hq.waits, ht]
        rfl
      rw [(hq.info t x hx).1]
      exact (hq.asleep t x ht).elim (h.waiting.asleep t x) id

/-- A step of a call that touches nothing but its own descriptors. -/
theorem Quiet.call (hown : s.Owned) (hm : s.Moved s' t p q)
    (hdisk : s'.disk.avail = s.disk.avail ∧ s'.disk.used = s.disk.used ∧
      s'.disk.usedIdx = s.disk.usedIdx)
    (hrest : s'.dev = s.dev ∧ s'.published = s.published ∧ s'.handled = s.handled)
    (hwaits : q.waits = p.waits) (hsubmitted : p.submitted → q.submitted)
    (hpublish : ∀ x, q ≠ .publish x) (hfinished : q.finished → p.finished)
    (hasleep : ∀ x, q = .asleep x → p = .asleep x ∨ (s.disk.info x.a).finish = false)
    (hinfo : s'.disk.info = s.disk.info ∨
      p.waits = none ∧ ∀ i, i ∉ p.held → s'.disk.info i = s.disk.info i) : s.Quiet s' := by
  refine ⟨hdisk.1, hdisk.2.1, hdisk.2.2, hrest.1, hrest.2.1, hrest.2.2, hm.waits hwaits,
    hm.submitted hsubmitted, fun u x => hm.eq_of_locked (hpublish x) rfl, hm.finished hfinished,
    ?_, ?_⟩
  · intro u x hx
    obtain hx | ⟨rfl, hx⟩ := hm.asleep hx
    · exact .inl hx
    · rw [hm.before]
      exact hasleep x hx
  · intro u x hx
    obtain hsame | ⟨hnone, hsame⟩ := hinfo
    · rw [hsame]
      exact ⟨rfl, rfl⟩
    · have hne : u ≠ t := by
        rintro rfl
        rw [hm.before, hnone] at hx
        cases hx
      have hout : x.a ∉ p.held := by
        rw [← hm.before]
        exact fun ht => hown.head_ne hx ht hne rfl
      rw [hsame x.a hout]
      exact ⟨rfl, rfl⟩

/-- A step of an interrupt that only reads, or one that only wakes calls. -/
theorem Quiet.of_stays (hstay : ∀ u, (s.rw u).Stays (s'.rw u)) (hdisk : s'.disk = s.disk)
    (hrest : s'.dev = s.dev ∧ s'.published = s.published ∧ s'.handled = s.handled) :
    s.Quiet s' := by
  refine ⟨by rw [hdisk], by rw [hdisk], by rw [hdisk], hrest.1, hrest.2.1, hrest.2.2,
    fun t => (hstay t).waits, fun t ht => (hstay t).submitted.trans ht, ?_,
    fun t ht => (hstay t).finished.symm.trans ht, ?_, fun t x _ => ?_⟩
  · intro t x ht
    have hold := hstay t
    rw [ht] at hold
    exact (hold.eq_of_locked rfl).symm
  · intro t x ht
    have hold := hstay t
    rw [ht] at hold
    exact .inl hold.of_asleep
  · rw [hdisk]
    exact ⟨rfl, rfl⟩

end VirtioState

end StartOS
