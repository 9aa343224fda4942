import StartOS.Sstl.Map

/-! # What the calls of the hash map do

The nodes of each bucket form a list that ends in the null pointer, every node
is in the bucket of its key and no key is there twice. A map in this shape
stores pairs, and `put`, `get` and `poll` change and read these.
-/

namespace StartOS.HashMap

open Linked Hoare

variable {K : Type} {m m' : HashMap K} {p q i n : ℕ} {nd : HashMapNode K}

theorem node_eq (h : m.nodes p = some nd) : node p m = .ok (nd, m) := by
  rw [node, get_bind, h]
  rfl

theorem bucket_eq (h : i < m.numBucket) : bucket i m = .ok (m.hashtable i, m) := by
  rw [bucket, get_bind, if_pos h]
  rfl

theorem setBucket_eq (h : i < m.numBucket) :
    setBucket i p m = .ok ((), { m with hashtable := Function.update m.hashtable i p }) := by
  rw [setBucket, get_bind, if_pos h]
  rfl

@[simp] theorem newNode_some : newNode (some p) m = .ok (p, m) := rfl

theorem setNext_eq (h : m.nodes p = some nd) :
    setNext p q m =
      .ok ((), { m with nodes := Function.update m.nodes p (some { nd with next := q }) }) := by
  rw [setNext, bind_of_ok (node_eq h)]
  rfl

def nextOf (m : HashMap K) (p : ℕ) : ℕ := (m.nodes p).elim 0 HashMapNode.next

def entryOf (m : HashMap K) (p : ℕ) : Option (K × ℕ) :=
  (m.nodes p).map fun nd => (nd.key, nd.val)

@[simp] theorem nextOf_of_some (h : m.nodes p = some nd) : m.nextOf p = nd.next := by
  simp [nextOf, h]

@[simp] theorem entryOf_of_some (h : m.nodes p = some nd) :
    m.entryOf p = some (nd.key, nd.val) := by simp [entryOf, h]

theorem entryOf_eq_none : m.entryOf p = none ↔ m.nodes p = none := by simp [entryOf]

theorem exists_node {k : K} {v : ℕ} (h : m.entryOf p = some (k, v)) :
    ∃ nd, m.nodes p = some nd ∧ nd.key = k ∧ nd.val = v := by
  simpa [entryOf] using h

variable {conv : K → UInt64} {key k : K} {v w : ℕ}

def link (m : HashMap K) (i p : ℕ) (key : K) (val : ℕ) : HashMap K :=
  { m with
    hashtable := Function.update m.hashtable i p
    nodes := Function.update m.nodes p (some ⟨m.hashtable i, key, val⟩) }

theorem link_self {val : ℕ} : (m.link i p key val).nodes p = some ⟨m.hashtable i, key, val⟩ :=
  Function.update_self ..

theorem link_of_ne {val : ℕ} (h : q ≠ p) : (m.link i p key val).nodes q = m.nodes q :=
  Function.update_of_ne h _ _

theorem entryOf_link {val : ℕ} (h : q ≠ p) : (m.link i p key val).entryOf q = m.entryOf q := by
  rw [entryOf, link_of_ne h, entryOf]

/-- The map with the node `dummy` of `poll` before a bucket. -/
def withDummy (m : HashMap K) (i d : ℕ) (junk : HashMapNode K) : HashMap K :=
  let nodes := Function.update m.nodes d (some junk)
  { m with nodes := Function.update nodes d (some { junk with next := m.hashtable i }) }

def unlink (m : HashMap K) (i b p : ℕ) (nb nd : HashMapNode K) : HashMap K :=
  { m with
    hashtable := if m.hashtable i = p then Function.update m.hashtable i nd.next else m.hashtable
    nodes := Function.update (Function.update m.nodes b (some { nb with next := nd.next })) p none }

def HasKey (m : HashMap K) (key : K) (p : ℕ) : Prop := (m.entryOf p).map Prod.fst = some key

instance [DecidableEq K] : DecidablePred (m.HasKey key) :=
    fun _ => inferInstanceAs (Decidable (_ = _))

theorem hasKey_of_some (h : m.nodes p = some nd) : m.HasKey key p ↔ nd.key = key := by
  simp [HasKey, h]

theorem hasKey_of_entry (h : m.entryOf p = some (k, v)) : m.HasKey k p := by
  rw [HasKey, h]
  rfl

section Search

variable [DecidableEq K] {a : ℕ} {l : List ℕ} (hc : Chain m.nextOf 0 a l)
    (hl : ∀ p ∈ l, m.nodes p ≠ none)
  (hn : l.length < n)
include hc hl hn

/-- The search ends at the first node with the key or at the null pointer. -/
theorem find_eq : find key n a m = .ok ((l.find? (m.HasKey key ·)).getD 0, m) := by
  induction l generalizing a n with
  | nil =>
    obtain ⟨n, rfl⟩ : ∃ k, n = k + 1 := ⟨n - 1, by omega⟩
    obtain rfl : a = 0 := hc
    rfl
  | cons b l ih =>
    obtain ⟨n, rfl⟩ : ∃ k, n = k + 1 := ⟨n - 1, by simp at hn; omega⟩
    obtain ⟨rfl, hb, hc⟩ := hc
    obtain ⟨nd, hnd⟩ := Option.ne_none_iff_exists'.mp (hl a (by simp))
    rw [find, if_neg hb, bind_of_ok (node_eq hnd), List.find?_cons]
    by_cases hk : nd.key = key
    · simp [hk, (hasKey_of_some hnd).mpr hk]
    · rw [nextOf_of_some hnd] at hc
      simp only [if_neg hk, mt (hasKey_of_some hnd).mp hk, decide_false]
      exact ih hc (fun p hp => hl p (by simp [hp])) (by simpa using hn)

/-- The loop of `poll` ends at the first node with the key, or else at the last node, with the
node before it. -/
theorem pollLoop_eq (key : K) (hne : l ≠ []) (d : ℕ) :
    ∃ l₁ p l₂, l = l₁ ++ p :: l₂ ∧ (∀ q ∈ l₁, ¬m.HasKey key q) ∧ (m.HasKey key p ∨ l₂ = []) ∧
      pollLoop key n d a m = .ok ((l₁.getLastD d, p), m) := by
  induction l generalizing a n d with
  | nil => exact absurd rfl hne
  | cons b l ih =>
    obtain ⟨n, rfl⟩ : ∃ k, n = k + 1 := ⟨n - 1, by simp at hn; omega⟩
    obtain ⟨rfl, hb, hc⟩ := hc
    obtain ⟨nd, hnd⟩ := Option.ne_none_iff_exists'.mp (hl a (by simp))
    rw [nextOf_of_some hnd] at hc
    rw [pollLoop, bind_of_ok (node_eq hnd)]
    by_cases hgo : nd.next ≠ 0 ∧ nd.key ≠ key
    · have hne' : l ≠ [] := by
        rintro rfl
        exact hgo.1 hc
      obtain ⟨l₁, p, l₂, rfl, hbefore, hat, hrun⟩ :=
        ih hc (fun p hp => hl p (by simp [hp])) (by simpa using hn) hne' a
      refine ⟨a :: l₁, p, l₂, rfl, ?_, hat, ?_⟩
      · intro q hq
        rcases List.mem_cons.mp hq with rfl | hq
        · rw [hasKey_of_some hnd]
          exact hgo.2
        · exact hbefore q hq
      · rw [if_pos hgo, hrun]
        cases l₁ <;> rfl
    · refine ⟨[], a, l, rfl, by simp, ?_, by rw [if_neg hgo]; rfl⟩
      rw [hasKey_of_some hnd]
      by_cases hk : nd.key = key
      · exact Or.inl hk
      · have hz : nd.next = 0 := by
          by_contra hz
          exact hgo ⟨hz, hk⟩
        rw [hz] at hc
        exact Or.inr (chain_nil_iff.mp hc)

end Search

structure Holds (conv : K → UInt64) (m : HashMap K) (ch : ℕ → List ℕ) : Prop where
  order : 2 ≤ m.bits.toNat ∧ m.bits.toNat ≤ 9
  numBucket : m.numBucket = 2 ^ m.bits.toNat
  inHeap : ∀ p, m.nodes p ≠ none → 0 < p ∧ p < physTop
  chain : ∀ i < m.numBucket, Chain m.nextOf 0 (m.hashtable i) (ch i)
  home : ∀ i < m.numBucket, ∀ p ∈ ch i, ∃ k v, m.entryOf p = some (k, v) ∧ m.hash conv k = i
  unique : ∀ i < m.numBucket, ∀ p ∈ ch i, ∀ q ∈ ch i, ∀ k, m.HasKey k p → m.HasKey k q → p = q

def Stored (conv : K → UInt64) (m : HashMap K) (k : K) (v : ℕ) : Prop :=
  ∃ l, Chain m.nextOf 0 (m.hashtable (m.hash conv k)) l ∧ ∃ p ∈ l, m.entryOf p = some (k, v)

theorem hash64_lt (val : UInt64) (bits : UInt32) (h : 1 ≤ bits.toNat) (h' : bits.toNat ≤ 31) :
    (hash64 val bits).toUInt32.toNat < 2 ^ bits.toNat := by
  have hshift : (64 - bits).toUInt64.toNat % 64 = 64 - bits.toNat := by
    rw [UInt32.toNat_toUInt64, UInt32.toNat_sub, show UInt32.toNat 64 = 64 from rfl]
    omega
  have hdiv : ∀ x : UInt64, (x >>> (64 - bits).toUInt64).toNat < 2 ^ bits.toNat := by
    intro x
    rw [UInt64.toNat_shiftRight, hshift, Nat.shiftRight_eq_div_pow]
    apply Nat.div_lt_of_lt_mul
    rw [← Nat.pow_add, Nat.sub_add_cancel (by omega)]
    exact x.toNat_lt
  rw [UInt64.toNat_toUInt32]
  exact (Nat.mod_le _ _).trans_lt (hdiv _)

section Poll

variable {junk nb : HashMapNode K} {a b d : ℕ} {l₁ l₂ : List ℕ}

theorem nodes_withDummy (hq : q ≠ d) : (m.withDummy i d junk).nodes q = m.nodes q := by
  change Function.update (Function.update _ _ _) _ _ q = _
  rw [Function.update_of_ne hq, Function.update_of_ne hq]

theorem nodes_unlink (hb : q ≠ b) (hp : q ≠ p) : (m.unlink i b p nb nd).nodes q = m.nodes q := by
  change Function.update (Function.update _ _ _) _ _ q = _
  rw [Function.update_of_ne hp, Function.update_of_ne hb]

theorem nodes_unlink_before (hb : b ≠ p) :
    (m.unlink i b p nb nd).nodes b = some { nb with next := nd.next } := by
  change Function.update (Function.update _ _ _) _ _ b = _
  rw [Function.update_of_ne hb, Function.update_self]

theorem entryOf_unlink (hb : m.nodes b = some nb) (hp : q ≠ p) :
    (m.unlink i b p nb nd).entryOf q = m.entryOf q := by
  by_cases hqb : q = b
  · subst hqb
    rw [entryOf_of_some hb, entryOf_of_some (nodes_unlink_before hp)]
  · rw [entryOf, nodes_unlink hqb hp, entryOf]

theorem entryOf_withDummy_unlink (hb : (m.withDummy i d junk).nodes b = some nb) (hp : q ≠ p)
    (hq : q ≠ d) : ((m.withDummy i d junk).unlink i b p nb nd).entryOf q = m.entryOf q := by
  rw [entryOf_unlink hb hp, entryOf, nodes_withDummy hq, entryOf]

/-- Taking a node out of a chain, with the node before it or `d` when it is the first. -/
theorem chain_unlink (hc : Chain m.nextOf 0 (m.hashtable i) (l₁ ++ p :: l₂))
    (hnd : m.nodes p = some nd) (hnb : m.nodes (l₁.getLastD d) = some nb) (hd : d ∉ l₁ ++ p :: l₂) :
    Chain (m.unlink i (l₁.getLastD d) p nb nd).nextOf 0
      ((m.unlink i (l₁.getLastD d) p nb nd).hashtable i) (l₁ ++ l₂) := by
  have hnodup := hc.nodup
  have hother : ∀ b, ∀ q ∈ l₁ ++ l₂, q ≠ b → (m.unlink i b p nb nd).nextOf q = m.nextOf q := by
    intro b q hq hqb
    have hqp : q ≠ p := by
      rintro rfl
      exact (List.nodup_middle.mp hnodup).notMem hq
    rw [nextOf, nodes_unlink hqb hqp, nextOf]
  rcases List.eq_nil_or_concat' l₁ with rfl | ⟨l₀, b, rfl⟩
  · obtain ⟨hhead, -, hc⟩ := hc
    have htable : (m.unlink i d p nb nd).hashtable i = nd.next := by
      rw [unlink, if_pos hhead]
      exact Function.update_self ..
    change Chain _ 0 ((m.unlink i d p nb nd).hashtable i) l₂
    rw [nextOf_of_some hnd] at hc
    rw [htable]
    refine hc.congr fun q hq => hother d q hq ?_
    rintro rfl
    exact hd (by simp [hq])
  · have hlast : (l₀ ++ [b]).getLastD d = b := by simp
    rw [hlast] at hnb ⊢
    rw [List.append_assoc] at hc
    have hne : m.hashtable i ≠ p := by
      intro he
      cases l₀ with
      | nil =>
        obtain ⟨hb, -⟩ := hc
        simp [← he, ← hb] at hnodup
      | cons c l₀ =>
        obtain ⟨hb, -⟩ := hc
        simp [← he, ← hb] at hnodup
    have htable : (m.unlink i b p nb nd).hashtable i = m.hashtable i := by
      rw [unlink, if_neg hne]
    have hbp : b ≠ p := by
      rintro rfl
      simp [List.nodup_append] at hnodup
    have hb : (m.unlink i b p nb nd).nextOf b = m.nextOf p := by
      rw [nextOf_of_some hnd, nextOf_of_some (nodes_unlink_before hbp)]
    rw [htable, List.append_assoc]
    refine hc.unlink hb fun q hq => hother b q (by simp at hq ⊢; tauto) ?_
    rintro rfl
    rw [List.append_assoc] at hnodup
    have := List.nodup_middle.mp hnodup
    simp at this hq
    tauto

theorem poll_eq [DecidableEq K] (hi : m.hash conv key = i) (hlt : i < m.numBucket)
    (hhead : m.hashtable i ≠ 0)
    (hloop : pollLoop key physTop d (m.hashtable i) (m.withDummy i d junk) =
      .ok ((b, p), m.withDummy i d junk)) (hp : p ≠ 0)
    (hnd : (m.withDummy i d junk).nodes p = some nd)
    (hnb : (m.withDummy i d junk).nodes b = some nb) :
    poll conv (some d) junk key m = .ok (nd.val, (m.withDummy i d junk).unlink i b p nb nd) := by
  subst hi
  rw [poll, get_bind, bind_of_ok newNode_some, setNode, modify_bind,
    bind_of_ok (bucket_eq (show _ < HashMap.numBucket
    { m with nodes := Function.update m.nodes d (some junk) } from hlt)), if_neg hhead]
  dsimp only
  rw [bind_of_ok (setNext_eq (Function.update_self ..))]
  refine (bind_of_ok hloop).trans ?_
  rw [if_neg hp]
  rw [bind_of_ok (node_eq hnd), bind_of_ok (setNext_eq hnb)]
  by_cases he : (m.withDummy (m.hash conv key) d junk).hashtable (m.hash conv key) = p
  · refine (if_pos he).symm ▸ ?_
    rw [unlink, if_pos he]
    exact bind_of_ok (setBucket_eq (by exact hlt))
  · refine (if_neg he).symm ▸ ?_
    rw [unlink, if_neg he]
    rfl

end Poll

namespace Holds

variable {ch : ℕ → List ℕ} (h : Holds conv m ch)
include h

theorem hash_lt (key : K) : m.hash conv key < m.numBucket := by
  obtain ⟨h₁, h₂⟩ := h.order
  have hb : (m.bits - 1).toNat = m.bits.toNat - 1 := by
    rw [UInt32.toNat_sub, show UInt32.toNat 1 = 1 from rfl]
    omega
  have hlt := hash64_lt (conv key) (m.bits - 1) (by omega) (by omega)
  rw [hb] at hlt
  rw [h.numBucket]
  exact hlt.trans_le (Nat.pow_le_pow_right (by decide) (by omega))

theorem node_ne_none (hi : i < m.numBucket) (hp : p ∈ ch i) : m.nodes p ≠ none := by
  obtain ⟨k, v, he, -⟩ := h.home i hi p hp
  obtain ⟨nd, hnd, -⟩ := exists_node he
  simp [hnd]

theorem length_lt (hi : i < m.numBucket) : (ch i).length < physTop :=
  length_lt_of_nodup (h.chain i hi).nodup (by decide) fun p hp =>
    h.inHeap p (h.node_ne_none hi hp)

theorem stored_iff : m.Stored conv k v ↔ ∃ p ∈ ch (m.hash conv k), m.entryOf p = some (k, v) := by
  constructor
  · rintro ⟨l, hl, hp⟩
    rwa [chain_unique hl (h.chain _ (h.hash_lt k))] at hp
  · intro hp
    exact ⟨_, h.chain _ (h.hash_lt k), hp⟩

theorem stored_unique (hv : m.Stored conv k v) (hw : m.Stored conv k w) : v = w := by
  obtain ⟨p, hp, hev⟩ := h.stored_iff.mp hv
  obtain ⟨q, hq, hew⟩ := h.stored_iff.mp hw
  obtain rfl : p = q :=
    h.unique _ (h.hash_lt k) p hp q hq k (hasKey_of_entry hev) (hasKey_of_entry hew)
  simpa [hev] using hew

theorem stored_of_hasKey (hp : p ∈ ch (m.hash conv k)) (hk : m.HasKey k p) :
    ∃ nd, m.nodes p = some nd ∧ m.Stored conv k nd.val := by
  obtain ⟨nd, hnd⟩ := Option.ne_none_iff_exists'.mp (h.node_ne_none (h.hash_lt k) hp)
  refine ⟨nd, hnd, h.stored_iff.mpr ⟨p, hp, ?_⟩⟩
  rw [entryOf_of_some hnd, (hasKey_of_some hnd).mp hk]

/-- One bucket gets a new chain and the nodes of the others stay as they are. -/
theorem relink {l : List ℕ} (hi : i < m.numBucket) (hbits : m'.bits = m.bits)
    (hnum : m'.numBucket = m.numBucket)
    (hheap : ∀ p, m'.nodes p ≠ none → 0 < p ∧ p < physTop)
    (htable : ∀ j ≠ i, m'.hashtable j = m.hashtable j)
    (hnodes : ∀ j < m.numBucket, j ≠ i → ∀ p ∈ ch j, m'.nodes p = m.nodes p)
    (hchain : Chain m'.nextOf 0 (m'.hashtable i) l)
    (hhome : ∀ p ∈ l, ∃ k v, m'.entryOf p = some (k, v) ∧ m.hash conv k = i)
    (huniq : ∀ p ∈ l, ∀ q ∈ l, ∀ k, m'.HasKey k p → m'.HasKey k q → p = q) :
    Holds conv m' (Function.update ch i l) := by
  have hhash : ∀ k, m'.hash conv k = m.hash conv k := fun k => by rw [hash, hbits]; rfl
  refine ⟨hbits ▸ h.order, by rw [hnum, hbits, h.numBucket], hheap, fun j hj => ?_,
    fun j hj p hp => ?_, fun j hj p hp q hq k hkp hkq => ?_⟩ <;> rw [hnum] at hj
  · by_cases hji : j = i
    · subst hji
      rwa [Function.update_self]
    · rw [Function.update_of_ne hji, htable j hji]
      exact (h.chain j hj).congr fun p hp => by rw [nextOf, hnodes j hj hji p hp]; rfl
  · by_cases hji : j = i
    · subst hji
      rw [Function.update_self] at hp
      obtain ⟨k, v, he, hk⟩ := hhome p hp
      exact ⟨k, v, he, (hhash k).trans hk⟩
    · rw [Function.update_of_ne hji] at hp
      obtain ⟨k, v, he, hk⟩ := h.home j hj p hp
      exact ⟨k, v, by rw [entryOf, hnodes j hj hji p hp]; exact he, (hhash k).trans hk⟩
  · by_cases hji : j = i
    · subst hji
      rw [Function.update_self] at hp hq
      exact huniq p hp q hq k hkp hkq
    · rw [Function.update_of_ne hji] at hp hq
      simp only [HasKey, entryOf, hnodes j hj hji p hp, hnodes j hj hji q hq] at hkp hkq
      exact h.unique j hj p hp q hq k hkp hkq

section

variable [DecidableEq K]

theorem find_cases (key : K) :
    (∃ p nd, find key physTop (m.hashtable (m.hash conv key)) m = .ok (p, m) ∧ p ≠ 0 ∧
        m.nodes p = some nd ∧ m.Stored conv key nd.val) ∨
      find key physTop (m.hashtable (m.hash conv key)) m = .ok (0, m) ∧
        ∀ v, ¬m.Stored conv key v := by
  have hi := h.hash_lt key
  rw [find_eq (h.chain _ hi) (fun p hp => h.node_ne_none hi hp) (h.length_lt hi)]
  cases hf : (ch (m.hash conv key)).find? (m.HasKey key ·) with
  | some p =>
    have hp := List.mem_of_find?_eq_some hf
    obtain ⟨nd, hnd, hs⟩ := h.stored_of_hasKey hp (by simpa using List.find?_some hf)
    exact Or.inl ⟨p, nd, rfl, (h.chain _ hi).ne_of_mem hp, hnd, hs⟩
  | none =>
    refine Or.inr ⟨rfl, fun v hs => ?_⟩
    obtain ⟨p, hp, he⟩ := h.stored_iff.mp hs
    exact absurd (hasKey_of_entry he) (by simpa using List.find?_eq_none.mp hf p hp)

theorem get'_of_stored (hs : m.Stored conv key v) : get' conv key m = .ok (v, m) := by
  rw [get', get_bind, bind_of_ok (bucket_eq (h.hash_lt key))]
  rcases h.find_cases key with ⟨p, nd, he, hp, hnd, hs'⟩ | ⟨-, hno⟩
  · rw [bind_of_ok he, if_neg hp, bind_of_ok (node_eq hnd), h.stored_unique hs hs']
    rfl
  · exact absurd hs (hno v)

theorem get'_of_absent (hno : ∀ v, ¬m.Stored conv key v) : get' conv key m = .ok (0, m) := by
  rw [get', get_bind, bind_of_ok (bucket_eq (h.hash_lt key))]
  rcases h.find_cases key with ⟨p, nd, -, -, -, hs⟩ | ⟨he, -⟩
  · exact absurd hs (hno _)
  · rw [bind_of_ok he, if_pos rfl]
    rfl

theorem put_eq (hno : ∀ v, ¬m.Stored conv key v) (val : ℕ) :
    put conv (some p) key val m = .ok ((), m.link (m.hash conv key) p key val) := by
  have hi := h.hash_lt key
  rcases h.find_cases key with ⟨q, nd, -, -, -, hs⟩ | ⟨he, -⟩
  · exact absurd hs (hno _)
  · rw [put, get_bind, bind_of_ok (bucket_eq hi), bind_of_ok he, if_neg (by simp)]
    dsimp only
    rw [bind_of_ok newNode_some, setNode, modify_bind,
      bind_of_ok (bucket_eq (show _ < HashMap.numBucket
        { m with nodes := Function.update m.nodes p (some ⟨0, key, val⟩) } from hi)),
      bind_of_ok (setNext_eq (Function.update_self ..))]
    refine (setBucket_eq (by exact hi)).trans ?_
    rw [Function.update_idem]
    rfl

end

theorem ne_of_fresh (hp : m.Fresh p) (hi : i < m.numBucket) (hq : q ∈ ch i) : q ≠ p := by
  rintro rfl
  exact h.node_ne_none hi hq hp.2.2

section Link

variable (hno : ∀ v, ¬m.Stored conv key v) (hp : m.Fresh p) (val : ℕ)
include hno hp

theorem not_hasKey_link (hq : q ∈ ch (m.hash conv key)) :
    ¬(m.link (m.hash conv key) p key val).HasKey key q := by
  intro hk
  rw [HasKey, entryOf_link (h.ne_of_fresh hp (h.hash_lt key) hq)] at hk
  obtain ⟨nd, -, hs⟩ := h.stored_of_hasKey hq hk
  exact hno _ hs

theorem link : Holds conv (m.link (m.hash conv key) p key val)
    (Function.update ch (m.hash conv key) (p :: ch (m.hash conv key))) := by
  have hi := h.hash_lt key
  have hin : ∀ j < m.numBucket, ∀ q ∈ ch j, q ≠ p := fun j hj q hq => h.ne_of_fresh hp hj hq
  have hchain : Chain (m.link (m.hash conv key) p key val).nextOf 0 p
      (p :: ch (m.hash conv key)) := by
    refine (h.chain _ hi).push hp.1.ne' (nextOf_of_some link_self) fun q hq => ?_
    rw [nextOf, link_of_ne (hin _ hi q hq), nextOf]
  refine h.relink hi rfl rfl ?_ (fun j hj => Function.update_of_ne hj _ _)
    (fun j hj _ q hq => link_of_ne (hin j hj q hq)) ?_ ?_ ?_
  · intro q hq
    by_cases hqp : q = p
    · exact hqp ▸ ⟨hp.1, hp.2.1⟩
    · rw [link_of_ne hqp] at hq
      exact h.inHeap q hq
  · rw [show (m.link (m.hash conv key) p key val).hashtable (m.hash conv key) = p from
      Function.update_self ..]
    exact hchain
  · intro q hq
    rcases List.mem_cons.mp hq with rfl | hq'
    · exact ⟨key, val, entryOf_of_some link_self, rfl⟩
    · rw [entryOf_link (hin _ hi q hq')]
      exact h.home _ hi q hq'
  · intro q hq r hr k hkq hkr
    have hnew : ∀ q ∈ ch (m.hash conv key), (m.link (m.hash conv key) p key val).HasKey k p →
        ¬(m.link (m.hash conv key) p key val).HasKey k q := by
      intro q hq hk
      rw [hasKey_of_some link_self] at hk
      exact hk ▸ h.not_hasKey_link hno hp val hq
    rcases List.mem_cons.mp hq with rfl | hq' <;> rcases List.mem_cons.mp hr with rfl | hr'
    · rfl
    · exact absurd hkr (hnew r hr' hkq)
    · exact absurd hkq (hnew q hq' hkr)
    · rw [HasKey, entryOf_link (hin _ hi _ hq')] at hkq
      rw [HasKey, entryOf_link (hin _ hi _ hr')] at hkr
      exact h.unique _ hi q hq' r hr' k hkq hkr

/-- The pairs after `put` are the new one and those of the other keys. -/
theorem stored_link [DecidableEq K] : (m.link (m.hash conv key) p key val).Stored conv k v ↔
    if k = key then v = val else m.Stored conv k v := by
  set i := m.hash conv key with hidef
  have hiff := (h.link hno hp val).stored_iff (k := k) (v := v)
  rw [← hidef, show (m.link i p key val).hash conv k = m.hash conv k from rfl] at hiff
  rw [hiff]
  split
  · rename_i hk
    subst hk
    rw [← hidef, Function.update_self]
    constructor
    · rintro ⟨q, hq, he⟩
      rcases List.mem_cons.mp hq with rfl | hq'
      · rw [entryOf_of_some link_self] at he
        simpa using he.symm
      · exact absurd (hasKey_of_entry he) (h.not_hasKey_link hno hp val hq')
    · rintro rfl
      exact ⟨p, by simp, entryOf_of_some link_self⟩
  · rename_i hk
    have hsame : (∃ q ∈ Function.update ch i (p :: ch i) (m.hash conv k),
        (m.link i p key val).entryOf q = some (k, v)) ↔
        ∃ q ∈ ch (m.hash conv k), (m.link i p key val).entryOf q = some (k, v) := by
      by_cases hki : m.hash conv k = i
      · rw [hki, Function.update_self]
        simp [entryOf_of_some link_self, Ne.symm hk]
      · rw [Function.update_of_ne hki]
    rw [hsame, h.stored_iff]
    constructor
    · rintro ⟨q, hq, he⟩
      exact ⟨q, hq, entryOf_link (h.ne_of_fresh hp (h.hash_lt k) hq) ▸ he⟩
    · rintro ⟨q, hq, he⟩
      exact ⟨q, hq, (entryOf_link (h.ne_of_fresh hp (h.hash_lt k) hq)).trans he⟩

end Link

section Unlink

variable {d : ℕ} (hd : m.Fresh d) (junk : HashMapNode K) (hi : i < m.numBucket)
include hd hi

theorem chain_withDummy : Chain (m.withDummy i d junk).nextOf 0 (m.hashtable i) (ch i) := by
  refine (h.chain i hi).congr fun q hq => ?_
  rw [nextOf, nodes_withDummy (h.ne_of_fresh hd hi hq), nextOf]

theorem hasKey_withDummy (hq : q ∈ ch i) : (m.withDummy i d junk).HasKey key q ↔ m.HasKey key q := by
  rw [HasKey, entryOf, nodes_withDummy (h.ne_of_fresh hd hi hq), HasKey, entryOf]

theorem exists_before {l₁ l₂ : List ℕ} (hl : ch i = l₁ ++ p :: l₂) :
    ∃ nb, (m.withDummy i d junk).nodes (l₁.getLastD d) = some nb := by
  rcases List.eq_nil_or_concat' l₁ with rfl | ⟨l₀, b, rfl⟩
  · exact ⟨{ junk with next := m.hashtable i }, Function.update_self ..⟩
  · have hb : b ∈ ch i := by simp [hl]
    rw [show (l₀ ++ [b]).getLastD d = b by simp, nodes_withDummy (h.ne_of_fresh hd hi hb)]
    exact Option.ne_none_iff_exists'.mp (h.node_ne_none hi hb)

theorem unlink {l₁ l₂ : List ℕ} {nb : HashMapNode K} (hl : ch i = l₁ ++ p :: l₂)
    (hnd : m.nodes p = some nd) (hnb : (m.withDummy i d junk).nodes (l₁.getLastD d) = some nb) :
    Holds conv ((m.withDummy i d junk).unlink i (l₁.getLastD d) p nb nd)
      (Function.update ch i (l₁ ++ l₂)) := by
  have hin : ∀ j < m.numBucket, ∀ q ∈ ch j, q ≠ d := fun j hj q hq => h.ne_of_fresh hd hj hq
  have hp : p ∈ ch i := by simp [hl]
  have hmem : ∀ q ∈ l₁ ++ l₂, q ∈ ch i := by
    intro q hq
    rw [hl]
    simp only [List.mem_append, List.mem_cons] at hq ⊢
    tauto
  have hne : ∀ q ∈ l₁ ++ l₂, q ≠ p := by
    rintro q hq rfl
    exact (List.nodup_middle.mp (hl ▸ (h.chain i hi).nodup)).notMem hq
  have hentry : ∀ q ∈ l₁ ++ l₂,
      ((m.withDummy i d junk).unlink i (l₁.getLastD d) p nb nd).entryOf q = m.entryOf q := fun q hq =>
    entryOf_withDummy_unlink hnb (hne q hq) (hin i hi q (hmem q hq))
  refine h.relink hi rfl rfl ?_ ?_ ?_ ?_ ?_ ?_
  · intro q hq
    by_cases hqd : q = d
    · exact hqd ▸ ⟨hd.1, hd.2.1⟩
    by_cases hqp : q = p
    · exact hqp ▸ h.inHeap p (h.node_ne_none hi hp)
    rw [ne_eq, ← entryOf_eq_none, entryOf_withDummy_unlink hnb hqp hqd, entryOf_eq_none] at hq
    exact h.inHeap q hq
  · intro j hj
    change (if _ then Function.update m.hashtable i _ else m.hashtable) j = _
    split
    · exact Function.update_of_ne hj _ _
    · rfl
  · intro j hj hji q hq
    have hother : q ∉ ch i := by
      intro hqi
      obtain ⟨k, v, he, hk⟩ := h.home j hj q hq
      obtain ⟨k', v', he', hk'⟩ := h.home i hi q hqi
      rw [he] at he'
      cases he'
      exact hji (hk.symm.trans hk')
    have hqb : q ≠ l₁.getLastD d := by
      rcases List.eq_nil_or_concat' l₁ with rfl | ⟨l₀, b, rfl⟩
      · exact hin j hj q hq
      · rw [show (l₀ ++ [b]).getLastD d = b by simp]
        rintro rfl
        exact hother (by simp [hl])
    have hqp : q ≠ p := by
      rintro rfl
      exact hother hp
    rw [nodes_unlink hqb hqp, nodes_withDummy (hin j hj q hq)]
  · refine chain_unlink ?_ ?_ hnb fun hm => hin i hi d (hl ▸ hm) rfl
    · rw [← hl]
      exact h.chain_withDummy hd junk hi
    · rw [nodes_withDummy (hin i hi p hp)]
      exact hnd
  · intro q hq
    rw [hentry q hq]
    exact h.home i hi q (hmem q hq)
  · intro q hq r hr k hkq hkr
    rw [HasKey, hentry q hq] at hkq
    rw [HasKey, hentry r hr] at hkr
    exact h.unique i hi q (hmem q hq) r (hmem r hr) k hkq hkr

end Unlink

/-- `poll` of a key whose bucket is not empty takes out the node with the key, or else the last
node. -/
theorem poll_spec [DecidableEq K] {d : ℕ} (hd : m.Fresh d) (junk : HashMapNode K)
    (hne : ch (m.hash conv key) ≠ []) :
    ∃ l₁ p l₂ nd m', ch (m.hash conv key) = l₁ ++ p :: l₂ ∧ (∀ q ∈ l₁, ¬m.HasKey key q) ∧
      (m.HasKey key p ∨ l₂ = []) ∧ m.nodes p = some nd ∧
      poll conv (some d) junk key m = .ok (nd.val, m') ∧
      Holds conv m' (Function.update ch (m.hash conv key) (l₁ ++ l₂)) ∧ m'.bits = m.bits ∧
      ∀ q, q ≠ p → q ≠ d → m'.entryOf q = m.entryOf q := by
  have hi := h.hash_lt key
  have hchain := h.chain_withDummy hd junk hi
  have hheap : ∀ q ∈ ch (m.hash conv key), (m.withDummy (m.hash conv key) d junk).nodes q ≠ none := by
    intro q hq
    rw [nodes_withDummy (h.ne_of_fresh hd hi hq)]
    exact h.node_ne_none hi hq
  obtain ⟨l₁, p, l₂, hl, hbefore, hat, hloop⟩ :=
    pollLoop_eq hchain hheap (h.length_lt hi) key hne d
  have hp : p ∈ ch (m.hash conv key) := by simp [hl]
  obtain ⟨nd, hnd⟩ := Option.ne_none_iff_exists'.mp (h.node_ne_none hi hp)
  obtain ⟨nb, hnb⟩ := h.exists_before hd junk hi hl
  have hhead : m.hashtable (m.hash conv key) ≠ 0 := by
    intro h0
    rw [h0] at hchain
    exact hne (chain_nil_iff.mp hchain)
  refine ⟨l₁, p, l₂, nd, _, hl, fun q hq => ?_, ?_, hnd,
    poll_eq rfl hi hhead hloop (hchain.ne_of_mem hp) ?_ hnb, h.unlink hd junk hi hl hnd hnb, rfl,
    fun q hqp hqd => entryOf_withDummy_unlink hnb hqp hqd⟩
  · exact mt (h.hasKey_withDummy hd junk hi (by simp [hl, hq])).mpr (hbefore q hq)
  · exact hat.imp (h.hasKey_withDummy hd junk hi hp).mp id
  · rw [nodes_withDummy (h.ne_of_fresh hd hi hp)]
    exact hnd

end Holds

end StartOS.HashMap
