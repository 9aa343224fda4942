import StartOS.Fs.FatEntry

/-! # Which buffers a transfer gives back

`ReadInode` and `WriteInode` take one buffer a turn and give it back at the end of
the turn. A copy that fails leaves the loop before that, with the buffer still
counted and its lock still held.
-/

namespace StartOS

namespace BufferLayer

variable {s s₁ s' : BufferLayer} {i j n c : ℕ} {e : Option ℕ} {dev blockno : ℤ} {disk : ByteMem}

/-- Who uses a buffer: the value of `refcnt` as the field has it, and the lock. -/
def usage (s : BufferLayer) (i : ℕ) : ℕ × Bool :=
  ((s.bufCache i).refcnt % 2 ^ 32, (s.bufCache i).locked)

def Released (s s' : BufferLayer) : Prop := ∀ i, s'.usage i = s.usage i

theorem Released.trans_iff (h : Released s s₁) : Released s s' ↔ Released s₁ s' :=
  forall_congr' fun i => by rw [h i]

/-- Buffer `i` was free of its lock and is used once more; the others are used as before. -/
structure Acquired (s : BufferLayer) (i : ℕ) (s' : BufferLayer) : Prop where
  unlocked : (s.bufCache i).locked = false
  self : s'.usage i = (((s.bufCache i).refcnt + 1) % 2 ^ 32, true)
  other : ∀ j, j ≠ i → s'.usage j = s.usage j

theorem earlier_refcnt {k : ℕ} (he : ∀ k, e = some k → (s.bufCache k).refcnt = 0)
    (h : s.earlier i e = some k) : (s.bufCache k).refcnt = 0 := by
  cases e with
  | none =>
    rw [earlier] at h
    split at h
    · cases h
      assumption
    · cases h
  | some m =>
    rw [earlier] at h
    split at h
    · cases h
      exact And.left ‹_›
    · cases h
      exact he _ rfl

theorem scan_evict (he : ∀ k, e = some k → (s.bufCache k).refcnt = 0)
    (h : s.scan blockno n e = .evict i) : (s.bufCache i).refcnt = 0 := by
  induction n generalizing e with
  | zero =>
    cases e with
    | none => cases h
    | some k =>
      cases h
      exact he _ rfl
  | succ n ih =>
    rw [scan] at h
    split at h
    · cases h
    · exact ih (fun k hk => earlier_refcnt he hk) h

theorem usage_setBuf_of_ne {b : Buf} (h : j ≠ i) : (s.setBuf i b).usage j = s.usage j := by
  rw [usage, usage, setBuf_of_ne _ _ h]

theorem usage_setBuf_self {b : Buf} : (s.setBuf i b).usage i = (b.refcnt % 2 ^ 32, b.locked) := by
  rw [usage, setBuf_self]

theorem usage_setBuf {b : Buf} (hr : b.refcnt = (s.bufCache i).refcnt)
    (hl : b.locked = (s.bufCache i).locked) : (s.setBuf i b).usage j = s.usage j := by
  by_cases hj : j = i
  · rw [hj, usage_setBuf_self, hr, hl]
    rfl
  · exact usage_setBuf_of_ne hj

theorem allocBuffer_acquired (h : s.allocBuffer dev blockno = .ok (i, s')) : Acquired s i s' := by
  unfold allocBuffer at h
  cases hsc : s.scan blockno bufferNum none with
  | full => rw [hsc] at h; cases h
  | hit k =>
    rw [hsc] at h
    simp only at h
    split at h
    · cases h
    · rename_i hlock
      cases h
      constructor
      · simpa using hlock
      · rw [usage_setBuf_self, Nat.mod_mod]
      · intro j hj
        exact usage_setBuf_of_ne hj
  | evict k =>
    have hzero := scan_evict (by simp) hsc
    rw [hsc] at h
    simp only at h
    split at h
    · cases h
    · rename_i hlock
      cases h
      constructor
      · simpa using hlock
      · rw [usage_setBuf_self, hzero]
      · intro j hj
        exact usage_setBuf_of_ne hj

theorem read_acquired (h : s.read disk dev c = .ok (i, s')) : Acquired s i s' := by
  obtain ⟨s₁, ha⟩ := read_eq_ok h
  rw [read_of_alloc ha, Except.ok.injEq, Prod.mk.injEq] at h
  obtain ⟨-, rfl⟩ := h
  have hacq := allocBuffer_acquired ha
  constructor
  · exact hacq.unlocked
  · refine Eq.trans (usage_setBuf ?_ ?_) hacq.self
    · rfl
    · rfl
  · intro j hj
    refine Eq.trans (usage_setBuf ?_ ?_) (hacq.other j hj)
    · rfl
    · rfl

namespace Acquired

variable (h : Acquired s i s')
include h

theorem not_released : ¬Released s s' := by
  intro hr
  have hl : (s.usage i).2 = true := by rw [← hr i, h.self]
  exact absurd (h.unlocked.symm.trans hl) Bool.false_ne_true

theorem congr {s₂ : BufferLayer} (hs : ∀ j, s₂.usage j = s'.usage j) : Acquired s i s₂ :=
  ⟨h.unlocked, (hs i).trans h.self, fun j hj => (hs j).trans (h.other j hj)⟩

theorem freeBuffer : Released s (s'.freeBuffer i) := by
  intro j
  by_cases hj : j = i
  · have hcount : (s'.bufCache i).refcnt % 2 ^ 32 = ((s.bufCache i).refcnt + 1) % 2 ^ 32 :=
      congrArg Prod.fst h.self
    subst hj
    rw [BufferLayer.freeBuffer, usage_setBuf_self, usage, h.unlocked]
    refine Prod.ext ?_ rfl
    simp only
    omega
  · rw [BufferLayer.freeBuffer, usage_setBuf_of_ne hj]
    exact h.other j hj

end Acquired

end BufferLayer

namespace Fat32FileSystem

open Hoare BufferLayer

variable {s s' : Fat32FileSystem} {r : InodeRef} {ip : Inode} {b : BufferLayer}
    {i n off total fuel : ℕ}
  {dst : ℕ → Bool} {src : ℕ → Option UInt8}

theorem bmap_buffers (k : ℕ) : Keeps (fun s => s.buffers = b) (bmap r k) :=
  bmap_keeps_of (fun _ _ _ h => h) (fun s _ _ _ _ h => (buffers_setInode s r _).trans h) k

/-! ## The loops -/

theorem prefixLen_lt_iff {ok : ℕ → Bool} : prefixLen ok n < n ↔ ¬∀ j < n, ok j = true := by
  constructor
  · intro h hall
    exact absurd (prefixLen_eq hall) h.ne
  · intro h
    induction n generalizing ok with
    | zero => exact absurd (fun j hj => absurd hj (Nat.not_lt_zero j)) h
    | succ n ih =>
      rw [prefixLen]
      split
      · rename_i h0
        refine Nat.succ_lt_succ (ih fun hall => h fun j hj => ?_)
        cases j with
        | zero => exact h0
        | succ j => exact hall j (Nat.lt_of_succ_lt_succ hj)
      · exact Nat.succ_pos n

theorem bufRead_acquired {c : ℕ} (hok : bufRead c s = .ok (i, s')) :
    Acquired s.buffers i s'.buffers := by
  rw [bufRead, get_bind] at hok
  obtain ⟨⟨j, l⟩, s₁, hread, hok⟩ := bind_eq_ok.mp hok
  cases hb : s.buffers.read s.disk s.dev c with
  | error e => rw [hb] at hread; cases hread
  | ok p =>
    rw [hb] at hread
    cases hread
    cases hok
    exact read_acquired hb

theorem forall_range_iff (ok : ℕ → Bool) {m : ℕ} (h : ∀ j < m, ok (total + j) = true) :
    (∀ j, total ≤ j → j < n → ok j = true) ↔ ∀ j, total + m ≤ j → j < n → ok j = true := by
  constructor
  · intro hall j hj hn
    exact hall j (by omega) hn
  · intro hall j hj hn
    by_cases hm : j < total + m
    · have hj' := h (j - total) (by omega)
      rwa [Nat.add_sub_cancel' hj] at hj'
    · exact hall j (by omega) hn

theorem readLoop_released {out : List UInt8} {v : ℤ × List UInt8}
    (hok : readLoop r dst n fuel total off out s = .ok (v, s')) :
    Released s.buffers s'.buffers ↔ ∀ j, total ≤ j → j < n → dst j = true := by
  induction fuel generalizing total off out s with
  | zero => cases hok
  | succ fuel ih =>
    rw [readLoop] at hok
    by_cases hlt : total < n
    · rw [if_pos hlt, get_bind] at hok
      obtain ⟨c, s₁, hb, hok⟩ := bind_eq_ok.mp hok
      obtain ⟨i, s₂, hread, hok⟩ := bind_eq_ok.mp hok
      have hacq := bufRead_acquired hread
      rw [bmap_buffers _ rfl hb] at hacq
      rw [get_bind] at hok
      generalize hm : min (n - total)
        (s.info.bytesPerCluster - off % s.info.bytesPerCluster) = m at hok
      split at hok
      · rename_i hbad
        cases hok
        refine iff_of_false hacq.not_released fun hall => prefixLen_lt_iff.mp hbad fun j hj => ?_
        exact hall (total + j) (by omega) (by omega)
      · rename_i hgood
        have hgood := not_not.mp (fun h => hgood (prefixLen_lt_iff.mpr h))
        rw [hacq.freeBuffer.trans_iff, forall_range_iff dst hgood]
        exact ih hok
    · rw [if_neg hlt, pure_apply, Except.ok.injEq, Prod.mk.injEq] at hok
      obtain ⟨-, rfl⟩ := hok
      exact iff_of_true (fun _ => rfl) fun j hj hn => absurd (hj.trans_lt hn) hlt

theorem writeLoop_released {v : ℤ × ℕ} (hok : writeLoop r src n fuel total off s = .ok (v, s')) :
    Released s.buffers s'.buffers ↔ ∀ j, total ≤ j → j < n → (src j).isSome = true := by
  induction fuel generalizing total off s with
  | zero => cases hok
  | succ fuel ih =>
    rw [writeLoop] at hok
    by_cases hlt : total < n
    · rw [if_pos hlt, get_bind] at hok
      obtain ⟨c, s₁, hb, hok⟩ := bind_eq_ok.mp hok
      obtain ⟨i, s₂, hread, hok⟩ := bind_eq_ok.mp hok
      have hacq := bufRead_acquired hread
      rw [bmap_buffers _ rfl hb] at hacq
      rw [get_bind] at hok
      generalize hm : min (n - total)
        (s.info.bytesPerCluster - off % s.info.bytesPerCluster) = m at hok
      rw [modify_bind] at hok
      have hstored := hacq.congr fun j => usage_setBuf (j := j)
        (b := { s₂.buffers.bufCache i with
          data := (s₂.buffers.bufCache i).data.blit (off % s.info.bytesPerCluster)
            (prefixLen (fun j => (src (total + j)).isSome) m) fun j => (src (total + j)).getD 0 })
        rfl rfl
      split at hok
      · rename_i hbad
        cases hok
        refine iff_of_false hstored.not_released fun hall => prefixLen_lt_iff.mp hbad fun j hj => ?_
        exact hall (total + j) (by omega) (by omega)
      · rename_i hgood
        have hgood := not_not.mp (fun h => hgood (prefixLen_lt_iff.mpr h))
        rw [hstored.freeBuffer.trans_iff, forall_range_iff (fun j => (src j).isSome) hgood]
        exact ih hok
    · rw [if_neg hlt, pure_apply, Except.ok.injEq, Prod.mk.injEq] at hok
      obtain ⟨-, rfl⟩ := hok
      exact iff_of_true (fun _ => rfl) fun j hj hn => absurd (hj.trans_lt hn) hlt

/-! ## The calls -/

/-- The bytes `ReadInode` copies out when nothing goes wrong. -/
def readLength (ip : Inode) (off n : ℕ) : ℕ :=
  if off > ip.sz ∨ (off + n) % 2 ^ 64 < off then 0
  else if off + n > ip.sz then ip.sz - off else n

/-- The bytes `WriteInode` copies in when nothing goes wrong. -/
def writeLength (ip : Inode) (off n : ℕ) : ℕ :=
  if off > ip.sz ∨ (off + n) % 2 ^ 64 < off then 0 else n

theorem readInode_released {v : ℤ × List UInt8} (hip : s.inode? r = some ip)
    (hok : readInode r dst off n s = .ok (v, s')) :
    Released s.buffers s'.buffers ↔ ∀ j < readLength ip off n, dst j = true := by
  rw [readInode, bind_of_ok (inode_eq hip)] at hok
  rw [readLength]
  split at hok
  · rename_i hrej
    cases hok
    rw [if_pos hrej]
    exact iff_of_true (fun _ => rfl) fun j hj => absurd hj (Nat.not_lt_zero j)
  · rename_i hacc
    rw [if_neg hacc, readLoop_released hok]
    exact forall_congr' fun j => forall_prop_of_true (Nat.zero_le j)

theorem writeInode_released {v : ℤ} (hip : s.inode? r = some ip)
    (hok : writeInode r src off n s = .ok (v, s')) :
    Released s.buffers s'.buffers ↔ ∀ j < writeLength ip off n, (src j).isSome = true := by
  rw [writeInode, bind_of_ok (inode_eq hip)] at hok
  rw [writeLength]
  split at hok
  · rename_i hrej
    cases hok
    rw [if_pos hrej]
    exact iff_of_true (fun _ => rfl) fun j hj => absurd hj (Nat.not_lt_zero j)
  · rename_i hacc
    obtain ⟨⟨total, off'⟩, s₁, hloop, hok⟩ := bind_eq_ok.mp hok
    have hrest : Keeps (fun t : Fat32FileSystem => t.buffers = s₁.buffers) (do
        let ip ← inode r
        if off' > ip.sz then updateInodeWith r fun ip => { ip with sz := off' % 2 ^ 32 }
        updateInode r
        return total) := by
      refine (inode_keeps r).bind fun ip' => ?_
      have htail := (updateInode_keeps (r := r) (I := fun t => t.buffers = s₁.buffers)
        fun _ _ _ h => h).bind fun _ => Keeps.pure total
      refine Keeps.ite (Keeps.bind ?_ fun _ => htail) htail
      exact (inode_keeps r).bind fun _ => Keeps.modify fun t h => (buffers_setInode t r _).trans h
    rw [if_neg hacc, hrest rfl hok, writeLoop_released hloop]
    exact forall_congr' fun j => forall_prop_of_true (Nat.zero_le j)

/-- A call gives every buffer back exactly when it can access all the bytes it transfers. -/
theorem buffers_released_iff (hip : s.inode? r = some ip) :
    (∀ v s', readInode r dst off n s = .ok (v, s') →
      (Released s.buffers s'.buffers ↔ ∀ j < readLength ip off n, dst j = true)) ∧
    ∀ v s', writeInode r src off n s = .ok (v, s') →
      (Released s.buffers s'.buffers ↔ ∀ j < writeLength ip off n, (src j).isSome = true) :=
  ⟨fun _ _ => readInode_released hip, fun _ _ => writeInode_released hip⟩

theorem buffers_released_iff_smallVolume :
    (∀ v s', readInode (.pos 59392) (fun j => j < 4096) 0 8192 smallVolume = .ok (v, s') →
      (Released smallVolume.buffers s'.buffers ↔ ∀ j < 8192, decide (j < 4096) = true)) ∧
    ∀ v s', writeInode (.pos 59392) (fun _ => some 7) 0 8192 smallVolume = .ok (v, s') →
      (Released smallVolume.buffers s'.buffers ↔ ∀ j < 8192, (some (7 : UInt8)).isSome = true) := by
  have hip : smallVolume.inode? (.pos 59392) = some (freshInode 2 59392 8192) := rfl
  exact buffers_released_iff hip

/-- Reading one byte to a page that is not there returns, and the next read of the cluster
waits for ever. -/
theorem readInode_keeps_buffer : ∃ s', readInode (.pos 59392) (fun _ => false) 0 1 smallVolume =
      .ok ((-1, []), s') ∧ ¬Released smallVolume.buffers s'.buffers ∧
    readInode (.pos 59392) (fun _ => true) 0 1 s' = .error .hang := by
  refine ⟨_, rfl, fun h => ?_, rfl⟩
  exact absurd (h 0) (by decide)

end Fat32FileSystem

end StartOS
