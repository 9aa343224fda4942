import StartOS.Fs.BufferLayer

/-! # What the buffer cache returns

Between two operations no buffer is in use and no cluster is held twice. Then
`read` always finds a buffer: the one that holds the cluster already, or one
that gives up what it held.
-/

namespace StartOS.BufferLayer

variable {s : BufferLayer} {blockno : ℤ} {i j c n : ℕ} {e : Option ℕ}

structure Holds (s : BufferLayer) (i c : ℕ) : Prop where
  lt : i < bufferNum
  valid : (s.bufCache i).valid = true
  blockno : (s.bufCache i).blockno = c

def Distinct (s : BufferLayer) : Prop :=
  ∀ i j, i < bufferNum → j < bufferNum → (s.bufCache i).blockno = (s.bufCache j).blockno →
    (s.bufCache i).blockno ≠ 0 → i = j

/-- No buffer is in use and no cluster but 0 has two buffers. -/
structure Idle (s : BufferLayer) : Prop where
  refcnt : ∀ i < bufferNum, (s.bufCache i).refcnt = 0
  unlocked : ∀ i < bufferNum, (s.bufCache i).locked = false
  distinct : s.Distinct

theorem earlier_isSome (h : (s.bufCache i).refcnt = 0) : ∃ k, s.earlier i e = some k := by
  cases e with
  | none => exact ⟨i, if_pos h⟩
  | some k =>
    rw [earlier]
    split
    · exact ⟨i, rfl⟩
    · exact ⟨k, rfl⟩

theorem earlier_lt {k : ℕ} (he : ∀ k, e = some k → k < bufferNum) (hi : i < bufferNum)
    (h : s.earlier i e = some k) : k < bufferNum := by
  cases e with
  | none =>
    rw [earlier] at h
    split at h
    · cases h; exact hi
    · cases h
  | some m =>
    rw [earlier] at h
    split at h
    · cases h; exact hi
    · cases h; exact he _ rfl

theorem bufferNum_sub_lt (n : ℕ) : bufferNum - (n + 1) < bufferNum := by
  have : 0 < bufferNum := by decide
  omega

/-- The scan stops at a buffer of the block, or ends with one to evict when none has it. -/
theorem scan_sound (blockno : ℤ) (hn : n ≤ bufferNum) (he : ∀ k, e = some k → k < bufferNum) :
    match s.scan blockno n e with
    | .hit i => i < bufferNum ∧ (s.bufCache i).blockno = blockno
    | .evict i => i < bufferNum ∧
      ∀ j, bufferNum - n ≤ j → j < bufferNum → (s.bufCache j).blockno ≠ blockno
    | .full => True := by
  induction n generalizing e with
  | zero =>
    cases e with
    | none => trivial
    | some k => exact ⟨he k rfl, fun j h₁ h₂ => by omega⟩
  | succ n ih =>
    have hlt := bufferNum_sub_lt n
    rw [scan]
    by_cases hb : (s.bufCache (bufferNum - (n + 1))).blockno = blockno
    · simp only [if_pos hb]
      exact ⟨hlt, hb⟩
    · simp only [if_neg hb]
      have := ih (e := s.earlier (bufferNum - (n + 1)) e) (by omega)
        fun m hm => earlier_lt he hlt hm
      cases hs : s.scan blockno n (s.earlier (bufferNum - (n + 1)) e) with
      | hit i => rw [hs] at this; exact this
      | full => trivial
      | evict i =>
        rw [hs] at this
        refine ⟨this.1, fun j h₁ h₂ => ?_⟩
        by_cases hj : j = bufferNum - (n + 1)
        · rw [hj]; exact hb
        · exact this.2 j (by omega) h₂

theorem earlier_some (i k : ℕ) : ∃ m, s.earlier i (some k) = some m := by
  rw [earlier]
  split
  · exact ⟨i, rfl⟩
  · exact ⟨k, rfl⟩

theorem scan_ne_full (blockno : ℤ)
    (h : (∃ j, bufferNum - n ≤ j ∧ j < bufferNum ∧ (s.bufCache j).refcnt = 0) ∨ ∃ k, e = some k) :
    s.scan blockno n e ≠ .full := by
  induction n generalizing e with
  | zero =>
    obtain ⟨j, h₁, h₂, -⟩ | ⟨k, rfl⟩ := h
    · omega
    · rw [scan]
      nofun
  | succ n ih =>
    rw [scan]
    split
    · nofun
    · apply ih
      obtain ⟨j, h₁, h₂, hr⟩ | ⟨k, rfl⟩ := h
      · by_cases hj : j = bufferNum - (n + 1)
        · subst hj
          exact .inr (earlier_isSome hr)
        · exact .inl ⟨j, by omega, h₂, hr⟩
      · exact .inr (earlier_some _ k)

/-- The state after `read` has returned buffer `i` for cluster `c`. -/
structure ReadDone (s : BufferLayer) (disk : ByteMem) (c i : ℕ) (s' : BufferLayer) : Prop where
  lt : i < bufferNum
  other : ∀ j, j ≠ i → s'.bufCache j = s.bufCache j
  valid : (s'.bufCache i).valid = true
  blockno : (s'.bufCache i).blockno = c
  data : (s.Holds i c ∧ (s'.bufCache i).data = (s.bufCache i).data) ∨
    ((∀ j, ¬ s.Holds j c) ∧
      ∃ old, (s'.bufCache i).data = rwDevRead disk (s.offsetOf c) bsize old)
  alone : ∀ j < bufferNum, j ≠ i → (s.bufCache j).blockno ≠ c
  firstDataSector : s'.firstDataSector = s.firstDataSector
  sectorsPerCluster : s'.sectorsPerCluster = s.sectorsPerCluster

theorem setBuf_self (s : BufferLayer) (i : ℕ) (b : Buf) : (s.setBuf i b).bufCache i = b :=
  Function.update_self ..

theorem setBuf_of_ne (s : BufferLayer) (b : Buf) (h : j ≠ i) :
    (s.setBuf i b).bufCache j = s.bufCache j :=
  Function.update_of_ne h ..

theorem read_of_alloc {disk : ByteMem} {dev : ℤ} {s₁ : BufferLayer}
    (h : s.allocBuffer dev (toInt32 c) = .ok (i, s₁)) :
    s.read disk dev c = .ok (i, s₁.setBuf i { s₁.bufCache i with
      valid := true
      data := if (s₁.bufCache i).valid then (s₁.bufCache i).data
        else rwDevRead disk (s₁.offsetOf c) bsize (s₁.bufCache i).data }) := by
  rw [read, h]
  rfl

/-- The two ways `allocBuffer` returns: with the buffer of the block, or with one that no
longer holds anything. -/
theorem allocBuffer_cases {dev : ℤ} {s₁ : BufferLayer} (h : s.allocBuffer dev blockno = .ok (i, s₁)) :
    (i < bufferNum ∧ (s.bufCache i).blockno = blockno ∧ s₁ = s.tick.2.setBuf i { s.bufCache i with
      refcnt := ((s.bufCache i).refcnt + 1) % 2 ^ 32
      lastUseTick := s.tick.1
      locked := true }) ∨
    (i < bufferNum ∧ (∀ j < bufferNum, (s.bufCache j).blockno ≠ blockno) ∧
      s₁ = s.tick.2.setBuf i { s.bufCache i with
        valid := false
        refcnt := 1
        blockno := blockno
        dev := dev
        lastUseTick := s.tick.1
        locked := true }) := by
  have hs := scan_sound (s := s) (e := none) blockno (le_refl bufferNum) (by simp)
  unfold allocBuffer at h
  cases hsc : s.scan blockno bufferNum none with
  | full => rw [hsc] at h; cases h
  | hit k =>
    rw [hsc] at h hs
    simp only at h hs
    split at h
    · cases h
    · cases h
      exact Or.inl ⟨hs.1, hs.2, rfl⟩
  | evict k =>
    rw [hsc] at h hs
    simp only at h hs
    split at h
    · cases h
    · cases h
      exact Or.inr ⟨hs.1, fun j hj => hs.2 j (by omega) hj, rfl⟩

theorem read_eq_ok {disk : ByteMem} {dev : ℤ} {s' : BufferLayer}
    (h : s.read disk dev c = .ok (i, s')) :
    ∃ s₁, s.allocBuffer dev (toInt32 c) = .ok (i, s₁) := by
  cases ha : s.allocBuffer dev (toInt32 c) with
  | error e => rw [read, ha] at h; cases h
  | ok r =>
    rw [read_of_alloc (i := r.1) ha] at h
    cases h
    exact ⟨_, rfl⟩

theorem Distinct.read_done {disk : ByteMem} {dev : ℤ} {s' : BufferLayer} (h : s.Distinct)
    (hc : 0 < c) (hc' : c < 2 ^ 31) (hr : s.read disk dev c = .ok (i, s')) :
    ReadDone s disk c i s' := by
  have hint : toInt32 c = c := toInt32_of_lt (by omega) (by omega)
  obtain ⟨s₁, ha⟩ := read_eq_ok hr
  rw [read_of_alloc ha, Except.ok.injEq, Prod.mk.injEq] at hr
  obtain ⟨-, rfl⟩ := hr
  rw [hint] at ha
  rcases allocBuffer_cases ha with ⟨hi, hb, rfl⟩ | ⟨hi, hno, rfl⟩
  · have halone : ∀ j < bufferNum, j ≠ i → (s.bufCache j).blockno ≠ c := fun j hj hji he =>
      hji (h j i hj hi (he.trans hb.symm) (by rw [he]; omega))
    refine ⟨hi, fun j hj => ?_, ?_, ?_, ?_, halone, rfl, rfl⟩
    · rw [setBuf_of_ne _ _ hj, setBuf_of_ne _ _ hj]
      rfl
    · rw [setBuf_self]
    · rw [setBuf_self, setBuf_self]
      exact hb
    · rw [setBuf_self, setBuf_self]
      by_cases hv : (s.bufCache i).valid
      · exact Or.inl ⟨⟨hi, hv, hb⟩, if_pos hv⟩
      · refine Or.inr ⟨fun j hj => ?_, _, if_neg hv⟩
        by_cases hji : j = i
        · exact hv (hji ▸ hj.valid)
        · exact halone j hj.lt hji hj.blockno
  · refine ⟨hi, fun j hj => ?_, ?_, ?_, Or.inr ⟨fun j hj => hno j hj.lt hj.blockno, ?_⟩,
      fun j hj _ => hno j hj, rfl, rfl⟩
    · rw [setBuf_of_ne _ _ hj, setBuf_of_ne _ _ hj]
      rfl
    · rw [setBuf_self]
    · rw [setBuf_self, setBuf_self]
    · rw [setBuf_self, setBuf_self]
      refine ⟨(s.bufCache i).data, ?_⟩
      simp only [Bool.false_eq_true, if_false]
      rfl

theorem Idle.read_spec (h : Idle s) (disk : ByteMem) (dev : ℤ) (hc : 0 < c) (hc' : c < 2 ^ 31) :
    ∃ i s', s.read disk dev c = .ok (i, s') ∧ ReadDone s disk c i s' ∧
      (s'.bufCache i).refcnt = 1 := by
  obtain ⟨i, s₁, ha⟩ : ∃ i s₁, s.allocBuffer dev (toInt32 c) = .ok (i, s₁) := by
    have hs := scan_sound (s := s) (e := none) (toInt32 c) (le_refl bufferNum) (by simp)
    have hne := scan_ne_full (s := s) (e := none) (n := bufferNum) (toInt32 c)
      (.inl ⟨0, Nat.zero_le 0, by decide, h.refcnt 0 (by decide)⟩)
    cases ha : s.allocBuffer dev (toInt32 c) with
    | ok r => exact ⟨r.1, r.2, rfl⟩
    | error e =>
      cases hsc : s.scan (toInt32 c) bufferNum none with
      | full => exact absurd hsc hne
      | hit k =>
        rw [hsc] at hs
        simp [allocBuffer, hsc, h.unlocked k hs.1] at ha
      | evict k =>
        rw [hsc] at hs
        simp [allocBuffer, hsc, h.unlocked k hs.1] at ha
  refine ⟨i, _, read_of_alloc ha, h.distinct.read_done hc hc' (read_of_alloc ha), ?_⟩
  rw [setBuf_self]
  rcases allocBuffer_cases ha with ⟨hi, -, rfl⟩ | ⟨hi, -, rfl⟩
  · rw [setBuf_self, h.refcnt i hi]
    exact (by norm_num : (0 + 1) % 2 ^ 32 = 1)
  · rw [setBuf_self]

end StartOS.BufferLayer
