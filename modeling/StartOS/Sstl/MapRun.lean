import Mathlib.Logic.Relation
import StartOS.Sstl.MapSpec

/-! # Runs of the hash map

A map that only puts keys that are not there and only polls keys that are
behaves as a partial map, and the iterator sees each of its keys once. A poll
of any other key stops the machine or takes a pair out.
-/

namespace StartOS.HashMap

open Linked Hoare

variable {K : Type} {m m' : HashMap K} {p q i n : ℕ} {nd : HashMapNode K} {conv : K → UInt64}
  {key k : K} {v w : ℕ} {ch : ℕ → List ℕ}

section Iterator

variable (h : Holds conv m ch)
include h

/-- The nodes of the `n` buckets from number `i` on, in the order of the iterator. -/
theorem Holds.beginFrom_eq (hi : i + n = m.numBucket) :
    beginFrom n i m = .ok ((((List.range' i n).flatMap ch).head?).getD 0, m) := by
  induction n generalizing i with
  | zero => rfl
  | succ n ih =>
    have hlt : i < m.numBucket := by omega
    have hc := h.chain i hlt
    rw [beginFrom, bind_of_ok (bucket_eq hlt), List.range'_succ, List.flatMap_cons]
    cases hl : ch i with
    | nil =>
      rw [hl] at hc
      rw [if_neg (by simpa using hc)]
      exact ih (by omega)
    | cons p l =>
      rw [hl] at hc
      obtain ⟨hp, hp₀, -⟩ := hc
      rw [hp, if_pos hp₀]
      rfl

theorem Holds.next_eq {l₁ l₂ : List ℕ} (hi : i < m.numBucket) (hl : ch i = l₁ ++ p :: l₂) :
    next conv p m =
      .ok (((l₂ ++ (List.range' (i + 1) (m.numBucket - (i + 1))).flatMap ch).head?).getD 0, m) := by
  obtain ⟨k, v, he, hk⟩ := h.home i hi p (by simp [hl])
  obtain ⟨nd, hnd, rfl, rfl⟩ := exists_node he
  have hc := h.chain i hi
  rw [hl] at hc
  obtain ⟨-, hc⟩ := hc.of_append_cons
  rw [nextOf_of_some hnd] at hc
  rw [next, bind_of_ok (node_eq hnd)]
  cases l₂ with
  | nil =>
    rw [if_neg (by simpa using hc), get_bind, hk]
    exact h.beginFrom_eq (by omega)
  | cons q l₂ =>
    obtain ⟨hq, hq₀, -⟩ := hc
    rw [hq, if_pos hq₀]
    rfl

end Iterator

theorem exists_first {N : ℕ} {l : List ℕ} (hl : (List.range' i (N - i)).flatMap ch = p :: l) :
    ∃ j < N, ∃ l', ch j = p :: l' ∧ l = l' ++ (List.range' (j + 1) (N - (j + 1))).flatMap ch := by
  generalize hn : N - i = n at hl
  induction n generalizing i with
  | zero => simp at hl
  | succ n ih =>
    rw [List.range'_succ, List.flatMap_cons] at hl
    cases hc : ch i with
    | nil =>
      rw [hc, List.nil_append] at hl
      exact ih (by omega) hl
    | cons q l' =>
      rw [hc, List.cons_append, List.cons.injEq] at hl
      obtain ⟨rfl, rfl⟩ := hl
      refine ⟨i, by omega, l', hc, ?_⟩
      rw [show N - (i + 1) = n by omega]

theorem exists_place {N : ℕ} {l₁ l₂ l : List ℕ} (hi : i < N) (hch : ch i = l₁ ++ l₂)
    (hl : l₂ ++ (List.range' (i + 1) (N - (i + 1))).flatMap ch = p :: l) :
    ∃ j < N, ∃ l₁ l₂, ch j = l₁ ++ p :: l₂ ∧
      l = l₂ ++ (List.range' (j + 1) (N - (j + 1))).flatMap ch := by
  cases l₂ with
  | nil =>
    obtain ⟨j, hj, l', hcj, rfl⟩ := exists_first hl
    exact ⟨j, hj, [], l', hcj, rfl⟩
  | cons q l₂ =>
    rw [List.cons_append, List.cons.injEq] at hl
    obtain ⟨rfl, rfl⟩ := hl
    exact ⟨i, hi, l₁, l₂, hch, rfl⟩

def keyOf (m : HashMap K) (p : ℕ) : Option K := (m.entryOf p).map Prod.fst

def allNodes (m : HashMap K) (ch : ℕ → List ℕ) : List ℕ := (List.range' 0 m.numBucket).flatMap ch

theorem mem_allNodes : p ∈ m.allNodes ch ↔ ∃ i < m.numBucket, p ∈ ch i := by
  simp [allNodes, List.mem_range'_1]

section Iterator

variable (h : Holds conv m ch)
include h

theorem Holds.keysFrom_eq {l₁ l₂ : List ℕ} (hi : i < m.numBucket) (hl : ch i = l₁ ++ l₂)
    (hn : (l₂ ++ (List.range' (i + 1) (m.numBucket - (i + 1))).flatMap ch).length < n) :
    keysFrom conv n
        (((l₂ ++ (List.range' (i + 1) (m.numBucket - (i + 1))).flatMap ch).head?).getD 0) m =
      .ok ((l₂ ++ (List.range' (i + 1) (m.numBucket - (i + 1))).flatMap ch).filterMap m.keyOf, m) := by
  induction n generalizing i l₁ l₂ with
  | zero => omega
  | succ n ih =>
    cases hs : l₂ ++ (List.range' (i + 1) (m.numBucket - (i + 1))).flatMap ch with
    | nil => rfl
    | cons p l =>
      obtain ⟨j, hj, l₁', l₂', hcj, rfl⟩ := exists_place hi hl hs
      have hp : p ∈ ch j := by simp [hcj]
      obtain ⟨nd, hnd⟩ := Option.ne_none_iff_exists'.mp (h.node_ne_none hj hp)
      have hkey : m.keyOf p = some nd.key := by simp [keyOf, entryOf_of_some hnd]
      have hp₀ : p ≠ 0 := (h.chain j hj).ne_of_mem hp
      rw [List.head?_cons, Option.getD_some, keysFrom, if_neg hp₀, bind_of_ok (node_eq hnd),
        bind_of_ok (h.next_eq hj hcj), List.filterMap_cons_some hkey]
      have hlen : (l₂' ++ (List.range' (j + 1) (m.numBucket - (j + 1))).flatMap ch).length < n := by
        rw [hs, List.length_cons] at hn
        omega
      rw [bind_of_ok (ih hj (show ch j = (l₁' ++ [p]) ++ l₂' by simp [hcj]) hlen)]
      rfl

theorem Holds.disjoint {j : ℕ} (hi : i < m.numBucket) (hj : j < m.numBucket) (hp : p ∈ ch i)
    (hp' : p ∈ ch j) : i = j := by
  obtain ⟨k, v, he, hk⟩ := h.home i hi p hp
  obtain ⟨k', v', he', hk'⟩ := h.home j hj p hp'
  rw [he] at he'
  cases he'
  exact hk.symm.trans hk'

theorem Holds.allNodes_nodup : (m.allNodes ch).Nodup := by
  refine List.nodup_flatMap.mpr ⟨fun i hi => ?_, ?_⟩
  · exact (h.chain i (by simpa [List.mem_range'_1] using hi)).nodup
  · refine List.Pairwise.imp_of_mem (R := (· ≠ ·)) (fun {i j} hi hj hne => ?_)
      (List.nodup_range' ..)
    intro p hp hp'
    rw [List.mem_range'_1] at hi hj
    exact hne (h.disjoint (by omega) (by omega) hp hp')

theorem Holds.hasKey_iff : m.HasKey k p ∧ p ∈ m.allNodes ch ↔
    ∃ v, p ∈ ch (m.hash conv k) ∧ m.entryOf p = some (k, v) := by
  constructor
  · rintro ⟨hk, hp⟩
    obtain ⟨i, hi, hp⟩ := mem_allNodes.mp hp
    obtain ⟨k', v, he, rfl⟩ := h.home i hi p hp
    have hkk : k' = k := by simpa [HasKey, he] using hk
    exact ⟨v, hkk ▸ hp, hkk ▸ he⟩
  · rintro ⟨v, hp, he⟩
    exact ⟨hasKey_of_entry he, mem_allNodes.mpr ⟨_, h.hash_lt k, hp⟩⟩

theorem Holds.keys_eq : keys conv m = .ok ((m.allNodes ch).filterMap m.keyOf, m) := by
  have hpos : 0 < m.numBucket := by
    rw [h.numBucket]
    exact Nat.two_pow_pos _
  have hall : m.allNodes ch = ch 0 ++ (List.range' 1 (m.numBucket - 1)).flatMap ch := by
    rw [allNodes, ← List.flatMap_cons, show m.numBucket = m.numBucket - 1 + 1 by omega,
      List.range'_succ]
    rfl
  have hlen : (m.allNodes ch).length < physTop := by
    refine length_lt_of_nodup h.allNodes_nodup (by decide) fun p hp => ?_
    obtain ⟨i, hi, hp⟩ := mem_allNodes.mp hp
    exact h.inHeap p (h.node_ne_none hi hp)
  have hbegin : begin' m = .ok (((m.allNodes ch).head?).getD 0, m) := h.beginFrom_eq (Nat.zero_add _)
  rw [keys, bind_of_ok hbegin, hall]
  rw [hall] at hlen
  exact h.keysFrom_eq hpos (List.nil_append _).symm hlen

theorem Holds.keys_nodup : ((m.allNodes ch).filterMap m.keyOf).Nodup := by
  refine List.pairwise_filterMap.mpr (List.Pairwise.imp_of_mem ?_ h.allNodes_nodup)
  rintro p q hp hq hne k hk k' hk' rfl
  obtain ⟨v, hpc, -⟩ := h.hasKey_iff.mp ⟨hk, hp⟩
  obtain ⟨w, hqc, -⟩ := h.hasKey_iff.mp ⟨hk', hq⟩
  exact hne (h.unique _ (h.hash_lt k) p hpc q hqc k hk hk')

theorem Holds.mem_keys : k ∈ (m.allNodes ch).filterMap m.keyOf ↔ ∃ v, m.Stored conv k v := by
  rw [List.mem_filterMap]
  constructor
  · rintro ⟨p, hp, hk⟩
    obtain ⟨v, hpc, he⟩ := h.hasKey_iff.mp ⟨hk, hp⟩
    exact ⟨v, h.stored_iff.mpr ⟨p, hpc, he⟩⟩
  · rintro ⟨v, hs⟩
    obtain ⟨p, hpc, he⟩ := h.stored_iff.mp hs
    obtain ⟨hk, hp⟩ := h.hasKey_iff.mpr ⟨v, hpc, he⟩
    exact ⟨p, hp, hk⟩

end Iterator

section Poll

variable {d : ℕ} {junk : HashMapNode K}

/-- The pairs after `poll` are those of the nodes that are left. -/
theorem Holds.stored_poll {l₁ l₂ : List ℕ} (h : Holds conv m ch) (hd : m.Fresh d)
    (hl : ch (m.hash conv key) = l₁ ++ p :: l₂)
    (h' : Holds conv m' (Function.update ch (m.hash conv key) (l₁ ++ l₂)))
    (hbits : m'.bits = m.bits) (he : ∀ q, q ≠ p → q ≠ d → m'.entryOf q = m.entryOf q) :
    m'.Stored conv k v ↔ ∃ q ∈ ch (m.hash conv k), q ≠ p ∧ m.entryOf q = some (k, v) := by
  have hi := h.hash_lt key
  have hhash : m'.hash conv k = m.hash conv k := by rw [hash, hbits, hash]
  have hnodup := List.nodup_middle.mp (hl ▸ (h.chain _ hi).nodup)
  have hmem : ∀ q, q ∈ Function.update ch (m.hash conv key) (l₁ ++ l₂) (m.hash conv k) ↔
      q ∈ ch (m.hash conv k) ∧ q ≠ p := by
    intro q
    by_cases hki : m.hash conv k = m.hash conv key
    · rw [hki, Function.update_self, hl]
      constructor
      · intro hq
        refine ⟨by simp only [List.mem_append, List.mem_cons] at hq ⊢; tauto, ?_⟩
        rintro rfl
        exact hnodup.notMem hq
      · rintro ⟨hq, hne⟩
        simp only [List.mem_append, List.mem_cons] at hq ⊢
        tauto
    · rw [Function.update_of_ne hki]
      refine ⟨fun hq => ⟨hq, ?_⟩, And.left⟩
      rintro rfl
      exact hki (h.disjoint (h.hash_lt k) hi hq (by simp [hl]))
  rw [h'.stored_iff, hhash]
  constructor
  · rintro ⟨q, hq, heq⟩
    obtain ⟨hq, hne⟩ := (hmem q).mp hq
    exact ⟨q, hq, hne, he q hne (h.ne_of_fresh hd (h.hash_lt k) hq) ▸ heq⟩
  · rintro ⟨q, hq, hne, heq⟩
    exact ⟨q, (hmem q).mpr ⟨hq, hne⟩, (he q hne (h.ne_of_fresh hd (h.hash_lt k) hq)).trans heq⟩

variable [DecidableEq K]

theorem Holds.poll_of_stored (h : Holds conv m ch) (hd : m.Fresh d) (hs : m.Stored conv key v) :
    ∃ m' ch', poll conv (some d) junk key m = .ok (v, m') ∧ Holds conv m' ch' ∧
      ∀ k w, m'.Stored conv k w ↔ k ≠ key ∧ m.Stored conv k w := by
  obtain ⟨r, hr, her⟩ := h.stored_iff.mp hs
  obtain ⟨l₁, p, l₂, nd, m', hl, hbefore, hat, hnd, hrun, h', hbits, he⟩ :=
    h.poll_spec hd junk (List.ne_nil_of_mem hr)
  have hi := h.hash_lt key
  have hp : p ∈ ch (m.hash conv key) := by simp [hl]
  -- the node with the key is not before the place where the loop stops
  have hpr : r = p := by
    have hrk := hasKey_of_entry her
    rcases hat with hpk | rfl
    · exact h.unique _ hi r hr p hp key hrk hpk
    · have hr' := hr
      rw [hl] at hr'
      rcases List.mem_append.mp hr' with hr₁ | hr₂
      · exact absurd hrk (hbefore r hr₁)
      · simpa using hr₂
  subst hpr
  obtain rfl : nd.val = v := by
    rw [entryOf_of_some hnd] at her
    simpa using congrArg Prod.snd (Option.some.inj her)
  refine ⟨m', _, hrun, h', fun k w => ?_⟩
  rw [h.stored_poll hd hl h' hbits he, h.stored_iff]
  constructor
  · rintro ⟨q, hq, hne, heq⟩
    refine ⟨?_, q, hq, heq⟩
    rintro rfl
    exact hne (h.unique _ hi q hq r hr k (hasKey_of_entry heq) (hasKey_of_entry her))
  · rintro ⟨hne, q, hq, heq⟩
    refine ⟨q, hq, ?_, heq⟩
    rintro rfl
    rw [her] at heq
    exact hne (congrArg Prod.fst (Option.some.inj heq)).symm

/-- `poll` stops the machine when the bucket is empty, and else takes out the pair of a node of
the bucket, whatever key was asked for. -/
theorem Holds.poll_panic_or_removes (h : Holds conv m ch) (key : K) (junk : HashMapNode K)
    (hd : m.Fresh d) :
    poll conv (some d) junk key m = .error (.panic "poll") ∨
      ∃ k w m', m.Stored conv k w ∧ poll conv (some d) junk key m = .ok (w, m') ∧
        ¬m'.Stored conv k w := by
  have hi := h.hash_lt key
  by_cases hne : ch (m.hash conv key) = []
  · have hc := h.chain _ hi
    rw [hne] at hc
    have hzero : m.hashtable (m.hash conv key) = 0 := hc
    left
    rw [poll, get_bind, bind_of_ok newNode_some, setNode, modify_bind,
      bind_of_ok (bucket_eq (show _ < HashMap.numBucket
        { m with nodes := Function.update m.nodes d (some junk) } from hi)), if_pos hzero]
    rfl
  · obtain ⟨l₁, p, l₂, nd, m', hl, -, -, hnd, hrun, h', hbits, he⟩ := h.poll_spec hd junk hne
    have hp : p ∈ ch (m.hash conv key) := by simp [hl]
    have hentry := entryOf_of_some hnd
    obtain ⟨k, v, he', hk⟩ := h.home _ hi p hp
    obtain ⟨rfl, rfl⟩ : nd.key = k ∧ nd.val = v := by
      rw [hentry] at he'
      simpa using he'
    refine Or.inr ⟨nd.key, nd.val, m', h.stored_iff.mpr ⟨p, hk.symm ▸ hp, hentry⟩, hrun, ?_⟩
    rw [h.stored_poll hd hl h' hbits he]
    rintro ⟨q, hq, hqp, heq⟩
    rw [hk] at hq
    exact hqp (h.unique _ hi q hq p hp nd.key (hasKey_of_entry heq) (hasKey_of_entry hentry))

end Poll

section Run

def Represents (conv : K → UInt64) (m : HashMap K) (f : K → Option ℕ) : Prop :=
  (∃ ch, Holds conv m ch) ∧ ∀ k v, m.Stored conv k v ↔ f k = some v

theorem create_cases {heap heap' : BuddyAllocator} {order : UInt32}
    (h : create heap order = .ok (m, heap')) :
    2 ^ order.toNat * 8 ≤ 4088 ∧ m = ⟨fun _ => 0, order, 2 ^ order.toNat, fun _ => none⟩ := by
  unfold create at h
  split at h
  · cases h
  obtain ⟨⟨q, heap''⟩, hnew, h⟩ := Kernel.bind_ok.mp h
  cases h
  refine ⟨?_, rfl⟩
  rw [BuddyAllocator.operatorNewArray, BuddyAllocator.newChecked] at hnew
  split at hnew
  · cases hnew
  rename_i hpage
  by_contra hbig
  rw [BuddyAllocator.alloc_of_gt (by omega) (by omega)] at hnew
  cases hnew

/-- With a free page left, the constructor returns up to order 8. From the next one on the header
of the table does not fit into a page. -/
theorem create_iff {sys : BuddyAllocator.Sys} (hsys : BuddyAllocator.Sys.Reachable sys)
    (hp : sys.alloc.pages.freeList ≠ []) (order : UInt32) :
    (∃ (m : HashMap K) (heap : BuddyAllocator), create sys.alloc order = .ok (m, heap)) ↔
      order ≤ 8 := by
  rw [UInt32.le_iff_toNat_le, show UInt32.toNat 8 = 8 from rfl]
  constructor
  · rintro ⟨m, heap, h⟩
    obtain ⟨hsize, -⟩ := create_cases h
    by_contra hgt
    have : 2 ^ 9 ≤ 2 ^ order.toNat := Nat.pow_le_pow_right (by decide) (by omega)
    omega
  · intro ho
    have hpow : 2 ^ order.toNat ≤ 2 ^ 8 := Nat.pow_le_pow_right (by decide) ho
    have hlt : ¬order ≥ 31 := by
      rw [ge_iff_le, UInt32.le_iff_toNat_le, show UInt32.toNat 31 = 31 from rfl]
      omega
    obtain ⟨fl, hi⟩ := hsys.inv
    obtain ⟨-, q, heap, hnew, -⟩ :=
      hi.core.served hp (show 2 ^ order.toNat * 8 ≤ 4088 by omega) "operator new[]"
    exact ⟨_, heap, (if_neg hlt).trans (Kernel.bind_ok.mpr ⟨_, hnew, rfl⟩)⟩

theorem create_represents {heap heap' : BuddyAllocator} {order : UInt32} (ho : 2 ≤ order)
    (h : create heap order = .ok (m, heap')) : Represents conv m fun _ => none := by
  obtain ⟨hsize, rfl⟩ := create_cases h
  have hle : order.toNat ≤ 9 := by
    by_contra hgt
    have : 2 ^ 10 ≤ 2 ^ order.toNat := Nat.pow_le_pow_right (by decide) (by omega)
    omega
  have hshape : Holds conv (⟨fun _ => 0, order, 2 ^ order.toNat, fun _ => none⟩ : HashMap K)
      fun _ => [] :=
    ⟨⟨by simpa [UInt32.le_iff_toNat_le] using ho, hle⟩, rfl, fun p hp => absurd rfl hp,
      fun _ _ => rfl, fun _ _ p hp => absurd hp List.not_mem_nil,
      fun _ _ p hp => absurd hp List.not_mem_nil⟩
  refine ⟨⟨_, hshape⟩, fun k v => ?_⟩
  rw [hshape.stored_iff]
  simp

variable [DecidableEq K]

theorem put_of_none (key : K) (val : ℕ) : ∀ m', put conv none key val m ≠ .ok ((), m') := by
  intro m' h
  rw [put, get_bind] at h
  obtain ⟨a, s, -, h⟩ := bind_eq_ok.mp h
  obtain ⟨a, s, -, h⟩ := bind_eq_ok.mp h
  dsimp only at h
  split at h <;> cases h

theorem poll_of_none (junk : HashMapNode K) (key : K) :
    poll conv none junk key m = .error (.panic "buddy alloc") := rfl

/-- A call on a map, and on the partial map it stands for. -/
inductive Step (conv : K → UInt64) :
    HashMap K × (K → Option ℕ) → HashMap K × (K → Option ℕ) → Prop
  | put {m m' : HashMap K} {f : K → Option ℕ} {blk : Option ℕ} {val : ℕ} {key : K} :
      f key = none → m.Answer blk → put conv blk key val m = .ok ((), m') →
      Step conv (m, f) (m', Function.update f key (some val))
  | get {m m' : HashMap K} {f : K → Option ℕ} {v : ℕ} {key : K} :
      get' conv key m = .ok (v, m') → Step conv (m, f) (m', f)
  | poll {m m' : HashMap K} {f : K → Option ℕ} {blk : Option ℕ} {v : ℕ} {junk : HashMapNode K}
      {key : K} : f key ≠ none → m.Answer blk → poll conv blk junk key m = .ok (v, m') →
      Step conv (m, f) (m', Function.update f key none)

variable {f : K → Option ℕ}

namespace Represents

variable (h : Represents conv m f)
include h

theorem put_ok (hf : f key = none) (hp : m.Fresh p) (val : ℕ) :
    ∃ m', put conv (some p) key val m = .ok ((), m') ∧
      Represents conv m' (Function.update f key (some val)) := by
  obtain ⟨⟨ch, hh⟩, hs⟩ := h
  have hno : ∀ v, ¬m.Stored conv key v := fun v hv => by simp [(hs key v).mp hv] at hf
  refine ⟨_, hh.put_eq hno val, ⟨_, hh.link hno hp val⟩, fun k v => ?_⟩
  rw [hh.stored_link hno hp val, Function.update_apply]
  split
  · simp [eq_comm]
  · exact hs k v

theorem get'_ok (key : K) : get' conv key m = .ok ((f key).getD 0, m) := by
  obtain ⟨⟨ch, hh⟩, hs⟩ := h
  cases hf : f key with
  | none => exact hh.get'_of_absent fun v hv => by simp [(hs key v).mp hv] at hf
  | some v => exact hh.get'_of_stored ((hs key v).mpr hf)

theorem poll_ok {d : ℕ} {junk : HashMapNode K} (hf : f key = some v) (hd : m.Fresh d) :
    ∃ m', poll conv (some d) junk key m = .ok (v, m') ∧
      Represents conv m' (Function.update f key none) := by
  obtain ⟨⟨ch, hh⟩, hs⟩ := h
  obtain ⟨m', ch', hrun, hh', hs'⟩ := hh.poll_of_stored hd ((hs key v).mpr hf)
  refine ⟨m', hrun, ⟨ch', hh'⟩, fun k w => ?_⟩
  rw [hs', hs, Function.update_apply]
  split
  · simp [*]
  · simp [*]

theorem step {m' : HashMap K} {f' : K → Option ℕ} (hstep : Step conv (m, f) (m', f')) :
    Represents conv m' f' := by
  cases hstep with
  | put hf hblk hrun =>
    rename_i blk _ _
    cases blk with
    | none => exact absurd hrun (put_of_none _ _ _)
    | some p =>
      obtain ⟨m'', hrun', h'⟩ := h.put_ok hf (hblk p rfl) _
      rw [hrun] at hrun'
      cases hrun'
      exact h'
  | get hrun =>
    rw [h.get'_ok] at hrun
    cases hrun
    exact h
  | poll hf hblk hrun =>
    rename_i blk _ _ _
    cases blk with
    | none => simp [poll_of_none] at hrun
    | some d =>
      obtain ⟨v, hv⟩ := Option.ne_none_iff_exists'.mp hf
      obtain ⟨m'', hrun', h'⟩ := h.poll_ok hv (hblk d rfl)
      rw [hrun] at hrun'
      cases hrun'
      exact h'

theorem run {r : HashMap K × (K → Option ℕ)} (hr : Relation.ReflTransGen (Step conv) (m, f) r) :
    Represents conv r.1 r.2 := by
  induction hr with
  | refl => exact h
  | tail _ hstep ih => exact ih.step hstep

end Represents

/-- The map acts as the partial map: it has its shape, `get` gives the value put and not polled, a
`put` of a new key and a `poll` of a stored one return as long as there is memory for a node, and
the iterator sees each key once. -/
structure ActsAs (conv : K → UInt64) (m : HashMap K) (f : K → Option ℕ) : Prop where
  shape : ∃ ch, Holds conv m ch
  get_eq : ∀ key, get' conv key m = .ok ((f key).getD 0, m)
  put_iff : ∀ key val blk, f key = none → m.Answer blk →
    ((∃ m', put conv blk key val m = .ok ((), m')) ↔ blk ≠ none)
  poll_iff : ∀ key v blk junk, f key = some v → m.Answer blk →
    ((∃ m', poll conv blk junk key m = .ok (v, m')) ↔ blk ≠ none)
  keys_eq : ∃ l, keys conv m = .ok (l, m) ∧ l.Nodup ∧ ∀ key, key ∈ l ↔ f key ≠ none

theorem Represents.actsAs (h : Represents conv m f) : ActsAs conv m f := by
  obtain ⟨⟨ch, hh⟩, hs⟩ := id h
  refine ⟨⟨ch, hh⟩, h.get'_ok, fun key val blk hf hblk => ?_, fun key v blk junk hf hblk => ?_,
    _, hh.keys_eq, hh.keys_nodup, fun key => ?_⟩
  · cases blk with
    | none => simp [put_of_none]
    | some p =>
      obtain ⟨m', hrun, -⟩ := h.put_ok hf (hblk p rfl) val
      simp [hrun]
  · cases blk with
    | none => simp [poll_of_none]
    | some d =>
      obtain ⟨m', hrun, -⟩ := h.poll_ok hf (hblk d rfl)
      exact iff_of_true ⟨m', hrun⟩ (Option.some_ne_none d)
  · rw [hh.mem_keys, Option.ne_none_iff_exists']
    exact exists_congr fun v => hs key v

/-- The orders whose constructor returns a map that acts as a partial map in every state of every
run are those up to 8. -/
theorem refines_partialMap_iff {sys : BuddyAllocator.Sys} (hsys : BuddyAllocator.Sys.Reachable sys)
    (hp : sys.alloc.pages.freeList ≠ []) {order : UInt32} (ho : 2 ≤ order) :
    (∃ (m₀ : HashMap K) (heap : BuddyAllocator), create sys.alloc order = .ok (m₀, heap) ∧
      ∀ m f, Relation.ReflTransGen (Step conv) (m₀, fun _ => none) (m, f) → ActsAs conv m f) ↔
    order ≤ 8 := by
  rw [← create_iff (K := K) hsys hp]
  constructor
  · rintro ⟨m₀, heap, h₀, -⟩
    exact ⟨m₀, heap, h₀⟩
  · rintro ⟨m₀, heap, h₀⟩
    exact ⟨m₀, heap, h₀, fun m f hr => ((create_represents ho h₀).run hr).actsAs⟩

/-- A `poll` of a key that is not there never comes back with the null pointer and every pair in
place. -/
theorem poll_absent_harms {heap heap' : BuddyAllocator} {order : UInt32} (ho : 2 ≤ order)
    {m₀ : HashMap K} (h₀ : create heap order = .ok (m₀, heap'))
    (hr : Relation.ReflTransGen (Step conv) (m₀, fun _ => none) (m, f)) :
    ∀ key blk junk, f key = none → m.Answer blk →
      ¬∃ m', poll conv blk junk key m = .ok (0, m') ∧
        ∀ k w, m.Stored conv k w → m'.Stored conv k w := by
  obtain ⟨⟨ch, hh⟩, -⟩ := (create_represents ho h₀).run hr
  rintro key blk junk - hblk ⟨m', hrun, hkept⟩
  cases blk with
  | none => simp [poll_of_none] at hrun
  | some d =>
    rcases hh.poll_panic_or_removes key junk (hblk d rfl) with hpanic | ⟨k, w, m'', hs, hrun', hgone⟩
    · simp [hpanic] at hrun
    · rw [hrun'] at hrun
      cases hrun
      exact hgone (hkept k 0 hs)

end Run

section Example

def empty5 : HashMap UInt64 := ⟨fun _ => 0, 5, 32, fun _ => none⟩

def one5 : HashMap UInt64 :=
  ⟨Function.update (fun _ => 0) 1 4096, 5, 32,
    Function.update (Function.update (fun _ => none) 4096 (some ⟨0, 5, 7⟩)) 4096 (some ⟨0, 5, 7⟩)⟩

theorem create_empty5 : ∃ heap, create BuddyAllocator.Sys.onePage.alloc 5 = .ok (empty5, heap) :=
  ⟨_, rfl⟩

theorem one5_reached :
    Relation.ReflTransGen (Step id) (empty5, fun _ => none)
      (one5, Function.update (fun _ => none) 5 (some 7)) := by
  have hblk : empty5.Answer (some 4096) := fun p hp => by
    cases hp
    decide
  exact .single (.put rfl hblk rfl)

theorem one5_actsAs : ActsAs id one5 (Function.update (fun _ => none) 5 (some 7)) := by
  obtain ⟨m₀, heap, h₀, hrun⟩ : ∃ (m₀ : HashMap UInt64) (heap : BuddyAllocator),
      create BuddyAllocator.Sys.onePage.alloc 5 = .ok (m₀, heap) ∧
        ∀ m f, Relation.ReflTransGen (Step id) (m₀, fun _ => none) (m, f) → ActsAs id m f :=
    (refines_partialMap_iff ⟨_, BuddyAllocator.Sys.init_onePage, .refl⟩ (by decide)
      (by decide)).mpr (by decide)
  obtain ⟨heap', h₅⟩ := create_empty5
  rw [h₅] at h₀
  cases h₀
  exact hrun _ _ one5_reached

/-- The table of order 9 is a page, and the allocator looks behind its last free list for it. -/
theorem create_nine_faults : ∃ sys, BuddyAllocator.Sys.Reachable sys ∧
    sys.alloc.pages.freeList ≠ [] ∧
      create (K := UInt64) sys.alloc 9 = .error .fault ∧
      ¬∃ (m₀ : HashMap UInt64) (heap : BuddyAllocator), create sys.alloc 9 = .ok (m₀, heap) ∧
        ∀ m f, Relation.ReflTransGen (Step id) (m₀, fun _ => none) (m, f) → ActsAs id m f := by
  have hfault : create (K := UInt64) BuddyAllocator.Sys.onePage.alloc 9 = .error .fault := rfl
  refine ⟨_, ⟨_, BuddyAllocator.Sys.init_onePage, .refl⟩, by decide, hfault, ?_⟩
  rintro ⟨m₀, heap, h₀, -⟩
  rw [hfault] at h₀
  cases h₀

theorem one5_poll_harms :
    ¬∃ m', poll id (some 8192) ⟨0, 0, 0⟩ 18 one5 = .ok (0, m') ∧
      ∀ k w, one5.Stored id k w → m'.Stored id k w := by
  obtain ⟨heap, h₅⟩ := create_empty5
  refine poll_absent_harms (show (2 : UInt32) ≤ 5 by decide) h₅ one5_reached 18 (some 8192)
    ⟨0, 0, 0⟩ rfl fun p hp => ?_
  cases hp
  decide

/-- The keys 5 and 18 share a bucket: `poll` of 18 gives the value of 5 and takes 5 out. -/
theorem poll_absent_removes_other :
    Relation.ReflTransGen (Step id) (empty5, fun _ => none)
      (one5, Function.update (fun _ => none) 5 (some 7)) ∧
    get' id 18 one5 = .ok (0, one5) ∧ get' id 5 one5 = .ok (7, one5) ∧
      ∃ m', poll id (some 8192) ⟨0, 0, 0⟩ 18 one5 = .ok (7, m') ∧ get' id 5 m' = .ok (0, m') :=
  ⟨one5_reached, rfl, rfl, _, rfl, rfl⟩

end Example

end StartOS.HashMap
