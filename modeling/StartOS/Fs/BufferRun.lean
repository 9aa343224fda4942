import Mathlib.Data.List.Perm.Subperm
import Mathlib.Logic.Relation
import StartOS.Fs.BufferRelease

/-! # Runs of the buffer cache

Clusters are read and buffers given back in any order. As long as no cluster is
asked for while it is in use, a read finds the buffer that has the cluster, or
takes the one of those not in use whose last use lies furthest back.
-/

namespace StartOS

/-- A buffer after `memset`. -/
def Buf.cleared : Buf where
  valid := false
  dev := 0
  blockno := 0
  lastUseTick := 0
  locked := false
  refcnt := 0
  data _ := 0

namespace BufferLayer

variable {s s' : BufferLayer} {i j n c : ℕ} {e : Option ℕ} {dev blockno : ℤ} {disk : ByteMem}

def Cleared (s : BufferLayer) : Prop := ∀ i < bufferNum, s.bufCache i = .cleared

def Oldest (s : BufferLayer) (i : ℕ) : Prop :=
  (s.bufCache i).refcnt = 0 ∧ ∀ j < bufferNum, (s.bufCache j).refcnt = 0 →
    (s.bufCache i).lastUseTick ≤ (s.bufCache j).lastUseTick

/-- `read` has returned buffer `i` for cluster `c`. A buffer that has the cluster is returned
without the disk, and on a miss the oldest one is taken. -/
structure Returns (s : BufferLayer) (disk : ByteMem) (dev : ℤ) (c i : ℕ) (s' : BufferLayer) :
    Prop where
  read : s.read disk dev c = .ok (i, s')
  holds : s'.Holds i c
  once : (s'.bufCache i).refcnt = 1
  others : ∀ j, j ≠ i → s'.bufCache j = s.bufCache j
  cached : ∀ j, s.Holds j c → i = j ∧ (s'.bufCache i).data = (s.bufCache i).data ∧
    ∀ disk', s.read disk' dev c = .ok (i, s')
  victim : (∀ j, ¬s.Holds j c) → s.Oldest i

/-! ## The scan -/

/-- The candidate is no newer than buffer `i` if this is not in use, nor than the one before. -/
theorem earlier_le {k : ℕ} (h : s.earlier i e = some k) :
    ((s.bufCache i).refcnt = 0 → (s.bufCache k).lastUseTick ≤ (s.bufCache i).lastUseTick) ∧
      ∀ m, e = some m → (s.bufCache k).lastUseTick ≤ (s.bufCache m).lastUseTick := by
  cases e with
  | none =>
    rw [earlier] at h
    split at h
    · cases h
      exact ⟨fun _ => le_rfl, fun _ hm => by cases hm⟩
    · cases h
  | some m =>
    rw [earlier] at h
    split at h
    · rename_i hlt
      cases h
      refine ⟨fun _ => le_rfl, ?_⟩
      rintro _ ⟨⟩
      exact hlt.2.le
    · rename_i hnot
      cases h
      refine ⟨fun hr => not_lt.mp fun hlt => hnot ⟨hr, hlt⟩, ?_⟩
      rintro _ ⟨⟩
      exact le_rfl

/-- What the scan ends with is no newer than the buffers it looked at, nor than its candidate. -/
theorem scan_evict_le (hn : n ≤ bufferNum) (h : s.scan blockno n e = .evict i) :
    (∀ j, bufferNum - n ≤ j → j < bufferNum → (s.bufCache j).refcnt = 0 →
        (s.bufCache i).lastUseTick ≤ (s.bufCache j).lastUseTick) ∧
      ∀ m, e = some m → (s.bufCache i).lastUseTick ≤ (s.bufCache m).lastUseTick := by
  induction n generalizing e with
  | zero =>
    cases e with
    | none => cases h
    | some k =>
      cases h
      refine ⟨fun j h₁ h₂ => by omega, ?_⟩
      rintro _ ⟨⟩
      exact le_rfl
  | succ n ih =>
    rw [scan] at h
    split at h
    · cases h
    · obtain ⟨hrest, hcand⟩ := ih (by omega) h
      constructor
      · intro j hj hlt hr
        by_cases hje : j = bufferNum - (n + 1)
        · subst hje
          obtain ⟨k, hk⟩ := earlier_isSome (e := e) hr
          exact (hcand k hk).trans ((earlier_le hk).1 hr)
        · exact hrest j (by omega) hlt hr
      · rintro m rfl
        obtain ⟨k, hk⟩ := earlier_some (s := s) (bufferNum - (n + 1)) m
        exact (hcand k hk).trans ((earlier_le hk).2 m rfl)

theorem scan_oldest (h : s.scan blockno bufferNum none = .evict i) : s.Oldest i :=
  ⟨scan_evict (by simp) h, fun j hj =>
    (scan_evict_le le_rfl h).1 j (by rw [Nat.sub_self]; exact Nat.zero_le j) hj⟩

/-! ## One read -/

theorem setBuf_setBuf (b b' : Buf) : (s.setBuf i b).setBuf i b' = s.setBuf i b' := by
  rw [setBuf, setBuf, Function.update_idem]
  rfl

theorem read_of_hit (h : s.scan (toInt32 c) bufferNum none = .hit i)
    (hfree : (s.bufCache i).locked = false) (hvalid : (s.bufCache i).valid = true) :
    s.read disk dev c = .ok (i, s.tick.2.setBuf i { s.bufCache i with
      refcnt := ((s.bufCache i).refcnt + 1) % 2 ^ 32
      lastUseTick := s.tick.1
      locked := true }) := by
  have ha : s.allocBuffer dev (toInt32 c) = .ok (i, s.tick.2.setBuf i { s.bufCache i with
      refcnt := ((s.bufCache i).refcnt + 1) % 2 ^ 32
      lastUseTick := s.tick.1
      locked := true }) := by
    unfold allocBuffer
    rw [h]
    simp only [hfree]
    rfl
  rw [read_of_alloc ha, setBuf_self, setBuf_setBuf]
  simp only [hvalid, if_true]

theorem read_of_evict (h : s.scan (toInt32 c) bufferNum none = .evict i)
    (hfree : (s.bufCache i).locked = false) :
    s.read disk dev c = .ok (i, s.tick.2.setBuf i
      { valid := true
        dev := dev
        blockno := toInt32 c
        lastUseTick := s.tick.1
        locked := true
        refcnt := 1
        data := rwDevRead disk (s.offsetOf c) bsize (s.bufCache i).data }) := by
  have ha : s.allocBuffer dev (toInt32 c) = .ok (i, s.tick.2.setBuf i { s.bufCache i with
      valid := false
      refcnt := 1
      blockno := toInt32 c
      dev := dev
      lastUseTick := s.tick.1
      locked := true }) := by
    unfold allocBuffer
    rw [h]
    simp only [hfree]
    rfl
  have hoffset : ∀ b : Buf, (s.tick.2.setBuf i b).offsetOf c = s.offsetOf c := fun _ => rfl
  rw [read_of_alloc ha, setBuf_self, setBuf_setBuf, hoffset]
  simp only [Bool.false_eq_true, if_false]

/-- Every cluster but 0 has at most one buffer, and the buffers that have one are valid. -/
structure Filed (s : BufferLayer) : Prop where
  distinct : s.Distinct
  valid : ∀ i < bufferNum, (s.bufCache i).blockno ≠ 0 ↔ (s.bufCache i).valid = true

theorem Filed.holds_unique (h : s.Filed) (hi : s.Holds i c) (hj : s.Holds j c) : i = j :=
  h.distinct i j hi.lt hj.lt (hi.blockno.trans hj.blockno.symm) ((h.valid i hi.lt).mpr hi.valid)

/-- A read of a cluster that no buffer in use has returns, as long as some buffer is not in use. -/
theorem Filed.read_returns (h : s.Filed) (disk : ByteMem) (dev : ℤ) (hc : 2 ≤ c) (hc' : c < 2 ^ 31)
    (hroom : ∃ i < bufferNum, (s.bufCache i).refcnt = 0)
    (hfree : ∀ i < bufferNum, (s.bufCache i).refcnt = 0 → (s.bufCache i).locked = false)
    (hnew : ∀ i < bufferNum, (s.bufCache i).blockno = c → (s.bufCache i).refcnt = 0) :
    ∃ i s', s.Returns disk dev c i s' ∧ (s.bufCache i).refcnt = 0 := by
  have hint : toInt32 c = c := toInt32_of_lt (by omega) (by omega)
  have hsound := scan_sound (s := s) (e := none) (toInt32 c) (le_refl bufferNum) (by simp)
  cases hscan : s.scan (toInt32 c) bufferNum none with
  | full =>
    obtain ⟨i, hi, hr⟩ := hroom
    exact absurd hscan (scan_ne_full _ (.inl ⟨i, by rw [Nat.sub_self]; exact Nat.zero_le i, hi, hr⟩))
  | hit i =>
    rw [hscan, hint] at hsound
    obtain ⟨hi, hb⟩ := hsound
    have hr := hnew i hi hb
    have hvalid : (s.bufCache i).valid = true := (h.valid i hi).mp (by rw [hb]; omega)
    have hread : ∀ disk, s.read disk dev c = _ := fun disk =>
      read_of_hit hscan (hfree i hi hr) hvalid
    refine ⟨i, _, ⟨hread disk, ⟨hi, ?_, ?_⟩, ?_, fun j hj => setBuf_of_ne _ _ hj, ?_, ?_⟩, hr⟩
    · rw [setBuf_self]
      exact hvalid
    · rw [setBuf_self]
      exact hb
    · rw [setBuf_self, hr]
      rfl
    · intro j hj
      refine ⟨h.holds_unique ⟨hi, hvalid, hb⟩ hj, ?_, hread⟩
      rw [setBuf_self]
    · intro hno
      exact absurd ⟨hi, hvalid, hb⟩ (hno i)
  | evict i =>
    rw [hscan, hint] at hsound
    obtain ⟨hi, hno⟩ := hsound
    have hold := scan_oldest hscan
    have hread : s.read disk dev c = _ := read_of_evict hscan (hfree i hi hold.1)
    refine ⟨i, _, ⟨hread, ⟨hi, ?_, ?_⟩, ?_, fun j hj => setBuf_of_ne _ _ hj, ?_, fun _ => hold⟩,
      hold.1⟩
    · rw [setBuf_self]
    · rw [setBuf_self]
      dsimp only
      rw [hint]
    · rw [setBuf_self]
    · intro j hj
      exact absurd hj.blockno (hno j (by rw [Nat.sub_self]; exact Nat.zero_le j) hj.lt)

theorem Filed.read (h : s.Filed) (hr : s.Returns disk dev c i s') (hc : 2 ≤ c)
    (halone : ∀ j < bufferNum, j ≠ i → (s.bufCache j).blockno ≠ c) : s'.Filed := by
  have hself := hr.holds.blockno
  refine ⟨fun j k hj hk heq hne => ?_, fun j hj => ?_⟩
  · by_cases hji : j = i
    · by_cases hki : k = i
      · rw [hji, hki]
      · rw [hji, hself, hr.others k hki] at heq
        exact absurd heq.symm (halone k hk hki)
    · rw [hr.others j hji] at heq hne
      by_cases hki : k = i
      · rw [hki, hself] at heq
        exact absurd heq (halone j hj hji)
      · rw [hr.others k hki] at heq
        exact h.distinct j k hj hk heq hne
  · by_cases hji : j = i
    · rw [hji, hself]
      exact iff_of_true (by omega) hr.holds.valid
    · rw [hr.others j hji]
      exact h.valid j hj

end BufferLayer

/-! ## Runs -/

/-- The cache and who uses it: the buffers that `read` has returned and that were not given back,
each with the cluster that was asked for. -/
structure CacheUse where
  layer : BufferLayer
  held : List (ℕ × ℕ)

namespace CacheUse

open BufferLayer

/-- A cluster that is not in use is read while fewer than `BUFFER_NUM` buffers are, or a buffer in
use is given back. -/
inductive Step (dev : ℤ) : CacheUse → CacheUse → Prop
  | read (u : CacheUse) {disk : ByteMem} {c i : ℕ} {s' : BufferLayer} (hc : 2 ≤ c)
      (hc' : c < 2 ^ 31) (hroom : u.held.length < bufferNum) (hnew : c ∉ u.held.map Prod.snd)
      (h : u.layer.read disk dev c = .ok (i, s')) :
      Step dev u ⟨s', (i, c) :: u.held⟩
  | free (u : CacheUse) {l l' : List (ℕ × ℕ)} {i c : ℕ} (h : u.held = l ++ (i, c) :: l') :
      Step dev u ⟨u.layer.freeBuffer i, l ++ l'⟩

/-- The buffers in use hold what was asked for, once each, and the others are free. -/
structure Tidy (u : CacheUse) : Prop where
  nodup : (u.held.map Prod.fst).Nodup
  held : ∀ i c, (i, c) ∈ u.held → u.layer.Holds i c ∧ (u.layer.bufCache i).refcnt = 1
  free : ∀ i < bufferNum, i ∉ u.held.map Prod.fst →
    (u.layer.bufCache i).refcnt = 0 ∧ (u.layer.bufCache i).locked = false
  filed : u.layer.Filed

variable {u u' : CacheUse} {dev : ℤ} {c i : ℕ}

theorem Tidy.not_mem_iff (h : u.Tidy) (hi : i < bufferNum) :
    i ∉ u.held.map Prod.fst ↔ (u.layer.bufCache i).refcnt = 0 := by
  constructor
  · exact fun hnot => (h.free i hi hnot).1
  · intro hr hmem
    obtain ⟨⟨j, c⟩, hjc, rfl⟩ := List.mem_map.mp hmem
    have hone := (h.held j c hjc).2
    rw [hr] at hone
    cases hone

theorem Tidy.read_returns (h : u.Tidy) (disk : ByteMem) (dev : ℤ) (hc : 2 ≤ c) (hc' : c < 2 ^ 31)
    (hroom : u.held.length < bufferNum) (hnew : c ∉ u.held.map Prod.snd) :
    ∃ i s', u.layer.Returns disk dev c i s' ∧ i ∉ u.held.map Prod.fst := by
  have hspare : ∃ i < bufferNum, (u.layer.bufCache i).refcnt = 0 := by
    by_contra hnone
    have hsub : List.range bufferNum ⊆ u.held.map Prod.fst := by
      intro i hi
      have hi := List.mem_range.mp hi
      by_contra hnot
      exact hnone ⟨i, hi, (h.not_mem_iff hi).mp hnot⟩
    have hle := (List.subperm_of_subset List.nodup_range hsub).length_le
    rw [List.length_range, List.length_map] at hle
    omega
  have hfree : ∀ i < bufferNum, (u.layer.bufCache i).refcnt = 0 →
      (u.layer.bufCache i).locked = false := fun i hi hr =>
    (h.free i hi ((h.not_mem_iff hi).mpr hr)).2
  have hother : ∀ i < bufferNum, (u.layer.bufCache i).blockno = c →
      (u.layer.bufCache i).refcnt = 0 := by
    intro i hi hb
    refine (h.not_mem_iff hi).mp fun hmem => hnew ?_
    obtain ⟨⟨j, c'⟩, hjc, rfl⟩ := List.mem_map.mp hmem
    have hblock := (h.held j c' hjc).1.blockno
    obtain rfl : c' = c := by
      dsimp only at hb
      omega
    exact List.mem_map_of_mem hjc
  obtain ⟨i, s', hret, hr⟩ := h.filed.read_returns disk dev hc hc' hspare hfree hother
  exact ⟨i, s', hret, (h.not_mem_iff hret.holds.lt).mpr hr⟩

theorem Step.tidy (h : Step dev u u') (hu : u.Tidy) : u'.Tidy := by
  cases h with
  | @read disk c i s' hc hc' hroom hnew hread =>
    obtain ⟨j, s'', hret, hnot⟩ := hu.read_returns disk dev hc hc' hroom hnew
    have heq := hret.read.symm.trans hread
    cases heq
    have hother : ∀ j, j ∈ u.held.map Prod.fst → j ≠ i := by
      rintro j hj rfl
      exact hnot hj
    refine ⟨?_, ?_, ?_, ?_⟩
    · rw [List.map_cons]
      exact List.nodup_cons.mpr ⟨hnot, hu.nodup⟩
    · intro j c' hmem
      obtain heq | hmem := List.mem_cons.mp hmem
      · cases heq
        exact ⟨hret.holds, hret.once⟩
      · obtain ⟨⟨hlt, hvalid, hblock⟩, hone⟩ := hu.held j c' hmem
        have hj := hret.others j (hother j (List.mem_map_of_mem hmem))
        exact ⟨⟨hlt, by rw [hj, hvalid], by rw [hj, hblock]⟩, by rw [hj, hone]⟩
    · intro j hj hmem
      rw [List.map_cons, List.mem_cons, not_or] at hmem
      rw [hret.others j hmem.1]
      exact hu.free j hj hmem.2
    · refine hu.filed.read hret hc fun j hj hji hb => ?_
      -- a buffer with the cluster would have been returned
      have hvalid := (hu.filed.valid j hj).mp (by rw [hb]; omega)
      exact hji (hret.cached j ⟨hj, hvalid, hb⟩).1.symm
  | @free l l' i c hheld =>
    have hmem : (i, c) ∈ u.held := by
      rw [hheld]
      exact List.mem_append_right l List.mem_cons_self
    obtain ⟨hholds, hone⟩ := hu.held i c hmem
    have hnodup := hu.nodup
    rw [hheld, List.map_append, List.map_cons, List.nodup_middle, ← List.map_append,
      List.nodup_cons] at hnodup
    have hself : (u.layer.freeBuffer i).bufCache i =
        { u.layer.bufCache i with
          refcnt := ((u.layer.bufCache i).refcnt + 2 ^ 32 - 1) % 2 ^ 32
          locked := false } := setBuf_self ..
    have hothers : ∀ j, j ≠ i → (u.layer.freeBuffer i).bufCache j = u.layer.bufCache j :=
      fun j hj => setBuf_of_ne _ _ hj
    have hblock : ∀ j, ((u.layer.freeBuffer i).bufCache j).blockno = (u.layer.bufCache j).blockno ∧
        ((u.layer.freeBuffer i).bufCache j).valid = (u.layer.bufCache j).valid := by
      intro j
      by_cases hj : j = i
      · rw [hj, hself]
        exact ⟨rfl, rfl⟩
      · rw [hothers j hj]
        exact ⟨rfl, rfl⟩
    refine ⟨hnodup.2, ?_, ?_, ?_⟩
    · intro j c' hjc
      have hj : j ≠ i := by
        rintro rfl
        exact hnodup.1 (List.mem_map.mpr ⟨_, hjc, rfl⟩)
      have hjc' : (j, c') ∈ u.held := by
        rw [hheld]
        exact (List.append_sublist_append_left l).mpr (List.sublist_cons_self _ _) |>.subset hjc
      obtain ⟨⟨hlt, hvalid, hb⟩, hone'⟩ := hu.held j c' hjc'
      exact ⟨⟨hlt, by rw [hothers j hj, hvalid], by rw [hothers j hj, hb]⟩,
        by rw [hothers j hj, hone']⟩
    · intro j hj hnot
      by_cases hji : j = i
      · rw [hji, hself, hone]
        exact ⟨by norm_num, rfl⟩
      · rw [hothers j hji]
        refine hu.free j hj fun hin => hnot ?_
        rw [hheld, List.map_append, List.map_cons, List.mem_append, List.mem_cons] at hin
        rw [List.map_append, List.mem_append]
        obtain hin | rfl | hin := hin
        · exact .inl hin
        · exact absurd rfl hji
        · exact .inr hin
    · refine ⟨fun j k hj hk heq hne => ?_, fun j hj => ?_⟩
      · rw [(hblock j).1, (hblock k).1] at heq
        rw [(hblock j).1] at hne
        exact hu.filed.distinct j k hj hk heq hne
      · rw [(hblock j).1, (hblock j).2]
        exact hu.filed.valid j hj

theorem tidy_of_cleared {s : BufferLayer} (h : s.Cleared) : Tidy ⟨s, []⟩ where
  nodup := List.nodup_nil
  held := by nofun
  free i hi _ := by
    rw [h i hi]
    exact ⟨rfl, rfl⟩
  filed := by
    refine ⟨fun i j hi hj heq hne => ?_, fun i hi => ?_⟩
    · rw [h i hi] at hne
      exact absurd rfl hne
    · rw [h i hi]
      exact iff_of_false (fun hne => hne rfl) (by nofun)

theorem tidy_of_run (h : Relation.ReflTransGen (Step dev) u u') (hu : u.Tidy) : u'.Tidy := by
  induction h with
  | refl => exact hu
  | tail _ hstep ih => exact hstep.tidy ih

/-- However reads and frees follow each other, a buffer in use holds its cluster and is counted
once, no cluster has two valid buffers, and the next read returns a buffer that was not in use. -/
theorem cache_of_run (dev : ℤ) {s : BufferLayer} (h₀ : s.Cleared) (u : CacheUse)
    (h : Relation.ReflTransGen (Step dev) ⟨s, []⟩ u) :
    (∀ i c, (i, c) ∈ u.held → u.layer.Holds i c ∧ (u.layer.bufCache i).refcnt = 1) ∧
      (∀ i j c, u.layer.Holds i c → u.layer.Holds j c → i = j) ∧
      ∀ (disk : ByteMem) (c : ℕ), 2 ≤ c → c < 2 ^ 31 → u.held.length < bufferNum →
        c ∉ u.held.map Prod.snd →
        ∃ i s', u.layer.Returns disk dev c i s' ∧ i ∉ u.held.map Prod.fst := by
  have hu := tidy_of_run h (tidy_of_cleared h₀)
  exact ⟨hu.held, fun i j c hi hj => hu.filed.holds_unique hi hj,
    fun disk c hc hc' hroom hnew => hu.read_returns disk dev hc hc' hroom hnew⟩

def fresh : BufferLayer where
  bufCache _ := .cleared
  firstDataSector := 0
  sectorsPerCluster := 8
  ticks _ := 0
  now := 0

theorem cache_of_run_twice : ∃ i s' j s'', fresh.Returns (fun _ => 0) 0 2 i s' ∧
    s'.Returns (fun _ => 0) 0 3 j s'' ∧ j ≠ i := by
  have hfresh : fresh.Cleared := fun _ _ => rfl
  obtain ⟨i, s', hret, -⟩ := (cache_of_run 0 hfresh ⟨fresh, []⟩ .refl).2.2 (fun _ => 0) 2 (by decide)
    (by decide) (by decide) (by decide)
  have hstep : Step 0 ⟨fresh, []⟩ ⟨s', [(i, 2)]⟩ :=
    .read ⟨fresh, []⟩ (by decide) (by decide) (by decide) (by decide) hret.read
  obtain ⟨j, s'', hret', hnot⟩ := (cache_of_run 0 hfresh ⟨s', [(i, 2)]⟩ (.single hstep)).2.2
    (fun _ => 0) 3 (by decide) (by decide) (show 1 < bufferNum by decide) (by simp)
  exact ⟨i, s', j, s'', hret, hret', by simpa using hnot⟩

end CacheUse

end StartOS
