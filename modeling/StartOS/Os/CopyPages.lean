import StartOS.Kernel.Memmove
import StartOS.Os.Fork
import StartOS.Os.Mmap
import StartOS.Os.PageFault

/-! # Copying an address space

The loops of `userVmCopy` and `CopyUserMem` copy the pages they visit that are
loaded. Nothing is shared between the two address spaces, so the old one does
not change.
-/

namespace StartOS.MemAllocator

open RadixTree

variable {s s₁ s₂ s' s'' : MemAllocator} {old new va va' p q x n perm : ℕ} {caller : String}
  {V V' : Set ℕ}

theorem or_pteV {e : ℕ} (h : e % 2 = 1) : e ||| pteV = e := by
  apply Nat.eq_of_testBit_eq
  intro i
  rw [Nat.testBit_or, pteV]
  cases i with
  | zero => simp [h]
  | succ i => simp [Nat.testBit_succ]

structure Apart (s : MemAllocator) (old new : ℕ) : Prop where
  wf : s.WellFormed
  source : Space s old
  target : Space s new
  disjoint : ∀ p ∈ s.footprint old, p ∉ s.footprint new

namespace Apart

theorem acts (h : Apart s old new) (ha : Acts s s' new) :
    Apart s' old new ∧ s'.footprint old = s.footprint old ∧
      (∀ va, s'.leaf old va = s.leaf old va) ∧
      ∀ p ∈ s.footprint old, ∀ x, p ≤ x → x < p + pgSize → s'.mem x = s.mem x := by
  obtain ⟨hs, hfoot, hleaf, hmem⟩ := ha.moves.frame (fun q hq => h.target.footprint_isPage hq) h.wf
    h.source h.disjoint
  refine ⟨⟨ha.moves.wf, hs, ha.space, ?_⟩, hfoot, hleaf, hmem⟩
  intro p hp hp'
  rw [hfoot] at hp
  rcases ha.moves.frames p (Or.inl hp') with hp' | hp'
  · exact h.disjoint p hp hp'
  · exact h.source.footprint_taken hp hp'

end Apart

/-- The pages of `old` with numbers in `V` that are loaded have been copied to `new`. -/
structure Copies (s s' : MemAllocator) (old new : ℕ) (V : Set ℕ) : Prop where
  acts : Acts s s' new
  kept : KeptIn s s' new
  pages : SamePages s s' new
  copied : ∀ va < maxVa, va / pgSize ∈ V → ∀ q, s.userFrame old va = some q →
    ¬isValid (s.leaf new va) ∧ pteFlags (s'.leaf new va) = pteFlags (s.leaf old va) ∧
      ∃ p, s'.userFrame new va = some p ∧ ∀ j < pgSize, s'.mem (p + j) = s.mem (q + j)
  only : ∀ va < maxVa, ¬(va / pgSize ∈ V ∧ s.userFrame old va ≠ none) →
    s'.leaf new va = s.leaf new va

namespace Copies

theorem refl (h : Apart s old new) (hV : ∀ va < maxVa, va / pgSize ∈ V → s.userFrame old va = none) :
    Copies s s old new V where
  acts := .refl h.wf h.target
  kept _ hp := hp
  pages _ _ _ _ _ _ _ := rfl
  copied va hva hV' q hq := by
    rw [hV va hva hV'] at hq
    cases hq
  only _ _ _ := rfl

theorem trans (h : Apart s old new) (h₁ : Copies s s' old new V) (h₂ : Copies s' s'' old new V') :
    Copies s s'' old new (V ∪ V') := by
  obtain ⟨-, -, hleaf, hmem⟩ := h.acts h₁.acts
  have hframe : ∀ va, s'.userFrame old va = s.userFrame old va := fun va =>
    userFrame_congr (hleaf va)
  refine ⟨h₁.acts.trans h₂.acts, h₁.kept.trans h₂.kept, ?_, ?_, ?_⟩
  · intro va hva p hp x hx hx'
    by_cases hc : va / pgSize ∈ V ∧ s.userFrame old va ≠ none
    · obtain ⟨q, hq⟩ := Option.ne_none_iff_exists'.mp hc.2
      exact absurd (pte2pa_of_userFrame hp).1 (h₁.copied va hva hc.1 q hq).1
    · rw [← h₁.pages va hva p hp x hx hx']
      exact h₂.pages va hva p ((userFrame_congr (h₁.only va hva hc)).trans hp) x hx hx'
  · intro va hva hV q hq
    have hq' : s'.userFrame old va = some q := (hframe va).trans hq
    by_cases hc : va / pgSize ∈ V
    · obtain ⟨hv, hflags, p, hp, hbytes⟩ := h₁.copied va hva hc q hq
      have hnot : ¬(va / pgSize ∈ V' ∧ s'.userFrame old va ≠ none) := by
        rintro ⟨hV', -⟩
        exact (h₂.copied va hva hV' q hq').1 (pte2pa_of_userFrame hp).1
      have hsame := h₂.only va hva hnot
      refine ⟨hv, by rw [hsame, hflags], p, (userFrame_congr hsame).trans hp, fun j hj => ?_⟩
      rw [h₂.pages va hva p hp _ (by omega) (by omega), hbytes j hj]
    · obtain ⟨hv, hflags, p, hp, hbytes⟩ := h₂.copied va hva (hV.resolve_left hc) q hq'
      rw [h₁.only va hva fun hn => hc hn.1] at hv
      refine ⟨hv, by rw [hflags, hleaf], p, hp, fun j hj => ?_⟩
      rw [hbytes j hj]
      exact hmem q (Or.inr ⟨va, hva, hq⟩) _ (by omega) (by omega)
  · intro va hva hnot
    rw [h₂.only va hva, h₁.only va hva]
    · exact fun hc => hnot ⟨Or.inl hc.1, hc.2⟩
    · rw [hframe]
      exact fun hc => hnot ⟨Or.inr hc.1, hc.2⟩

theorem single (h : Apart s old new) (hm : MapsPage s s' new va p (pteFlags (s.leaf old va)))
    (hva : va < maxVa) (hq : s.userFrame old va = some q) (hv : ¬isValid (s.leaf new va))
    (hbytes : ∀ j < pgSize, s'.mem (p + j) = s.mem (q + j))
    (hperm : UserPerm (pteFlags (s.leaf old va))) :
    Copies s s' old new {va / pgSize} where
  acts := hm.acts
  kept := hm.kept
  pages := hm.pages
  copied va' hva' hV q' hq' := by
    have hsame : va' / pgSize = va / pgSize := hV
    rw [userFrame_page s old hva hva' hsame, hq] at hq'
    cases hq'
    rw [leaf_page s new hva hva' hsame, leaf_page s old hva hva' hsame]
    have hleaf : s'.leaf new va' = pa2pte p ||| pteFlags (s.leaf old va) ||| pteV :=
      (hm.leaf va' hva').trans (if_pos hsame)
    refine ⟨hv, ?_, p, userFrame_of_leaf hperm (h.wf.isPage p hm.fresh) hleaf, hbytes⟩
    have hodd := isValid_iff.mp (pte2pa_of_userFrame hq).1
    rw [hleaf, pteFlags_or hperm.lt, or_pteV]
    unfold pteFlags
    omega
  only va' hva' hnot := by
    by_cases hsame : va' / pgSize = va / pgSize
    · rw [← userFrame_page s old hva hva' hsame] at hq
      exact absurd ⟨hsame, by rw [hq]; exact Option.some_ne_none q⟩ hnot
    · exact (hm.leaf va' hva').trans (if_neg hsame)

end Copies

theorem userPerm_flags (h : Space s old) (hva : va < maxVa) (hq : s.userFrame old va = some q) :
    UserPerm (pteFlags (s.leaf old va)) := by
  have hand : ∀ bits < 1024, s.leaf old va &&& bits ≠ 0 → pteFlags (s.leaf old va) &&& bits ≠ 0 := by
    intro bits hbits hne hz
    apply hne
    have hmod := Nat.and_mod_two_pow (a := s.leaf old va) (b := bits) (n := 10)
    have hle : s.leaf old va &&& bits ≤ bits := Nat.and_le_right
    rw [Nat.mod_eq_of_lt (a := _ &&& bits) (by omega), Nat.mod_eq_of_lt (a := bits) (by omega)] at hmod
    rw [hmod]
    exact hz
  have hv := (pte2pa_of_userFrame hq).1
  refine ⟨Nat.mod_lt _ (by norm_num), hand _ (by decide) ?_, hand _ (by decide) (h.access va hva hv)⟩
  unfold userFrame at hq
  split at hq
  · rename_i hc
    exact hc.2
  · cases hq

def copyFrame (s : MemAllocator) (p q : ℕ) : MemAllocator :=
  { s with mem := s.mem.blit p pgSize fun j => s.mem (q + j) }

theorem copyFrame_eq_memmove (s : MemAllocator) {p q : ℕ} (hp : p + pgSize ≤ 2 ^ 64)
    (hq : q + pgSize ≤ 2 ^ 64) :
    s.copyFrame p q = { s with mem := (memmove s.mem p q pgSize).2 } := by
  rw [copyFrame, memmove_eq_blit s.mem hq hp]

theorem copyPage_of_none (hva : va < maxVa) (hn : s.node old (path va 2) = none) :
    s.copyPage caller old new va = .error (.panic (caller ++ ": pte not present")) := by
  have hn' : follow s.child old (path va 2) = none := hn
  unfold copyPage walk
  rw [if_neg (by omega), walkFrom_false, hn']
  rfl

section CopyPage

variable (h : Apart s old new) (hva : va < maxVa)

include h hva

theorem copyPage_of_invalid (hn : s.node old (path va 2) ≠ none) (hv : ¬isValid (s.leaf old va)) :
    s.copyPage caller old new va = .ok s := by
  obtain ⟨m, hm⟩ := Option.ne_none_iff_exists'.mp hn
  have hm' : follow s.child old (path va 2) = some m := hm
  have hpos := h.source.table.pos h.wf (by simp [path]) hm
  rw [leaf_of_node hm] at hv
  unfold copyPage walk
  rw [if_neg (by omega), walkFrom_false, hm', Kernel.ok_bind]
  dsimp only
  rw [if_neg (show pteAddr m (px 0 va) ≠ 0 by unfold pteAddr; omega), if_pos (by simpa using hv)]
  rfl

theorem copyPage_of_valid (hv : isValid (s.leaf old va)) (hnew : new ≠ 0) :
    (s.freeList = [] ∧
        s.copyPage caller old new va = .error (.panic (caller ++ ": alloc mem fail"))) ∨
      ∃ p s₁, Taken s s₁ p ∧ s.copyPage caller old new va = (do
        let (r, s) ← (s₁.copyFrame p (pte2pa (s.leaf old va))).mappages new va pgSize p
          (pteFlags (s.leaf old va))
        if r < 0 then .error (.panic (caller ++ ": mappages fail")) else return s) := by
  obtain ⟨m, hm⟩ := node_of_valid hv
  have hm' : follow s.child old (path va 2) = some m := hm
  have hpos := h.source.table.pos h.wf (by simp [path]) hm
  rw [leaf_of_node hm] at hv ⊢
  unfold copyPage walk
  rw [if_neg (by omega), walkFrom_false, hm', Kernel.ok_bind]
  dsimp only
  rw [if_neg (show pteAddr m (px 0 va) ≠ 0 by unfold pteAddr; omega), if_neg (by simpa using hv)]
  rcases alloc_cases h.wf with ⟨hnil, he⟩ | ⟨p, s₁, he, hp, ht⟩
  · left
    rw [he]
    exact ⟨hnil, rfl⟩
  · right
    obtain ⟨r, rfl⟩ := Nat.exists_eq_succ_of_ne_zero hp
    refine ⟨r.succ, s₁, ht, ?_⟩
    rw [he]
    exact if_neg hnew

end CopyPage

theorem copyPage_cases (h : Apart s old new) (hva : va < userTop) (ha : va % pgSize = 0)
    (hnew : new ≠ 0) :
    (s.node old (path va 2) = none ∧
        s.copyPage caller old new va = .error (.panic (caller ++ ": pte not present"))) ∨
      (s.node old (path va 2) ≠ none ∧ s.userFrame old va = none ∧
        s.copyPage caller old new va = .ok s) ∨
      s.node old (path va 2) ≠ none ∧ s.userFrame old va ≠ none ∧
        ((s.freeList = [] ∧
            s.copyPage caller old new va = .error (.panic (caller ++ ": alloc mem fail"))) ∨
          (isValid (s.leaf new va) ∧ s.copyPage caller old new va = .error (.panic "remap")) ∨
          (s.freeList.length < s.missing va 2 new + 1 ∧
            s.copyPage caller old new va = .error (.panic (caller ++ ": mappages fail"))) ∨
          ∃ s', s.copyPage caller old new va = .ok s' ∧ Copies s s' old new {va / pgSize} ∧
            s'.freeList.length + s.missing va 2 new + 1 = s.freeList.length) := by
  have hlt : va < maxVa := hva.trans (by decide)
  by_cases hn : s.node old (path va 2) = none
  · exact Or.inl ⟨hn, copyPage_of_none hlt hn⟩
  by_cases hv : isValid (s.leaf old va)
  · obtain ⟨q, hq⟩ := Option.ne_none_iff_exists'.mp (h.source.user_of_valid hlt hva hv)
    have hperm := userPerm_flags h.source hlt hq
    have hqp := h.source.isPage va hlt q hq
    refine Or.inr (Or.inr ⟨hn, by rw [hq]; exact Option.some_ne_none q, ?_⟩)
    rcases (copyPage_of_valid h hlt hv hnew :
        (s.freeList = [] ∧ s.copyPage caller old new va = _) ∨ _) with hnil | ⟨p, s₁, ht, hrun⟩
    · exact Or.inl hnil
    · right
      rw [hrun, (pte2pa_of_userFrame hq).2]
      have ht' : Taken s (s₁.copyFrame p q) p :=
        ht.fill fun x hx => ByteMem.blit_of_not_mem hx
      rcases h.target.mapUser h.wf ht' hva ha hperm with
        ⟨hv', he⟩ | ⟨hv', s', ⟨he, hmap, hmem⟩ | ⟨he, hlen, -⟩⟩
      · rw [he]
        exact Or.inl ⟨hv', rfl⟩
      · rw [he]
        refine Or.inr (Or.inr ⟨s', rfl, ?_, hmap.cost⟩)
        refine .single h hmap hlt hq hv' (fun j hj => ?_) hperm
        rw [hmem _ (by omega) (by omega)]
        dsimp only [copyFrame]
        rw [ByteMem.blit_of_mem (by omega) (by omega), Nat.add_sub_cancel_left]
        refine ht.mem _ (hqp.disjoint (ht.isPage h.wf) ?_ (by omega) (by omega))
        rintro rfl
        exact h.source.taken va hlt q hq ht.mem_freeList
      · rw [he]
        exact Or.inr (Or.inl ⟨hlen, rfl⟩)
  · refine Or.inr (Or.inl ⟨hn, ?_, copyPage_of_invalid h hlt hn hv⟩)
    exact if_neg fun hc => hv hc.1

/-- Both loops: `more` is the test on the `int` that runs over the addresses. -/
def copyLoop (caller : String) (old new : ℕ) (more : ℤ → Bool) :
    ℕ → ℤ → MemAllocator → Kernel MemAllocator
  | 0, _, _ => .error .hang
  | n + 1, i, s =>
    if more i then do
      let s ← s.copyPage caller old new (toU64 i)
      copyLoop caller old new more n (toInt32 (i + pgSize)) s
    else return s

theorem userVmCopyFrom_eq (sz : ℤ) (n : ℕ) (i : ℤ) (s : MemAllocator) :
    userVmCopyFrom old new sz n i s = copyLoop "userVmCopy" old new (fun i => i < sz) n i s := by
  induction n generalizing i s with
  | zero => rfl
  | succ n ih =>
    unfold userVmCopyFrom copyLoop
    simp only [decide_eq_true_eq, ih]

theorem copyUserMemFrom_eq (stop n : ℕ) (i : ℤ) (s : MemAllocator) :
    copyUserMemFrom old new stop n i s =
      copyLoop "CopyUserMem" old new (fun i => toU64 i < stop) n i s := by
  induction n generalizing i s with
  | zero => rfl
  | succ n ih =>
    unfold copyUserMemFrom copyLoop
    simp only [decide_eq_true_eq, ih]

def visited (more : ℤ → Bool) (k : ℕ) : Set ℕ :=
  {j | k ≤ j ∧ j < 2 ^ 19 ∧ ∀ i, k ≤ i → i ≤ j → more (i * 4096 : ℕ)}

theorem visited_of_more {more : ℤ → Bool} {k : ℕ} (hk : k < 2 ^ 19) (hm : more (k * 4096 : ℕ)) :
    visited more k = {k} ∪ visited more (k + 1) := by
  ext j
  constructor
  · rintro ⟨h₁, h₂, h₃⟩
    rcases Nat.eq_or_lt_of_le h₁ with rfl | hlt
    · exact Or.inl rfl
    · exact Or.inr ⟨hlt, h₂, fun i hi hij => h₃ i (by omega) hij⟩
  · rintro (rfl | ⟨h₁, h₂, h₃⟩)
    · refine ⟨le_rfl, hk, fun i hi hij => ?_⟩
      obtain rfl : i = j := by omega
      exact hm
    · refine ⟨by omega, h₂, fun i hi hij => ?_⟩
      rcases Nat.eq_or_lt_of_le hi with rfl | hlt
      · exact hm
      · exact h₃ i hlt hij

theorem visited_of_stop {more : ℤ → Bool} {k : ℕ} (h : k < 2 ^ 19 → ¬more (k * 4096 : ℕ)) :
    visited more k = ∅ := by
  ext j
  constructor
  · rintro ⟨h₁, h₂, h₃⟩
    exact absurd (h₃ k le_rfl h₁) (h (by omega))
  · exact False.elim

theorem loopAddr {k : ℕ} (hk : k < 2 ^ 19) :
    toInt32 (k * 4096 : ℕ) = (k * 4096 : ℕ) ∧ toU64 (toInt32 (k * 4096 : ℕ)) = k * 4096 ∧
      toInt32 (toInt32 (k * 4096 : ℕ) + pgSize) = toInt32 ((k + 1) * 4096 : ℕ) := by
  have hi : toInt32 (k * 4096 : ℕ) = (k * 4096 : ℕ) := toInt32_of_lt (by omega) (by omega)
  refine ⟨hi, ?_, ?_⟩
  · rw [hi, toU64]
    omega
  · rw [hi]
    simp only [pgSize]
    push_cast
    ring_nf

theorem walk_of_ge (h : maxVa ≤ va) (alloc : Bool) :
    s.walk old va alloc = .error (.panic "walk") := by
  unfold walk
  rw [if_pos h]

theorem panic_append_ne {str : String} (h : 5 < str.length) :
    Halt.panic (caller ++ str) ≠ .panic "remap" := by
  intro he
  have hlen := congrArg String.length (Halt.panic.inj he)
  rw [String.length_append] at hlen
  have : "remap".length = 5 := by decide
  omega

/-- The loop stops with the pages copied, or with an error; a page is mapped twice only when it is
in both address spaces. -/
theorem copyLoop_spec {more : ℤ → Bool} {k : ℕ} (hnew : new ≠ 0) (hk : k ≤ 2 ^ 19)
    (h : Apart s old new) :
    (∃ s', copyLoop caller old new more n (toInt32 (k * 4096 : ℕ)) s = .ok s' ∧
        Copies s s' old new (visited more k)) ∨
      ∃ e, copyLoop caller old new more n (toInt32 (k * 4096 : ℕ)) s = .error e ∧
        (e = .panic "remap" → ∃ va < maxVa, va / pgSize ∈ visited more k ∧
          s.userFrame old va ≠ none ∧ isValid (s.leaf new va)) := by
  induction n generalizing s k with
  | zero => exact Or.inr ⟨.hang, rfl, fun he => by cases he⟩
  | succ n ih =>
    have hvals : userTop = 274877898752 ∧ maxVa = 274877906944 ∧ pgSize = 4096 := by decide
    unfold copyLoop
    by_cases hm : more (toInt32 (k * 4096 : ℕ))
    · rw [if_pos hm]
      rcases Nat.eq_or_lt_of_le hk with rfl | hlt
      · -- the `int` has become negative
        have hwrap : maxVa ≤ toU64 (toInt32 (2 ^ 19 * 4096 : ℕ)) := by decide
        refine Or.inr ⟨.panic "walk", ?_, fun he => absurd he (by decide)⟩
        unfold copyPage
        rw [walk_of_ge hwrap]
        rfl
      obtain ⟨hi, haddr, hnext⟩ := loopAddr hlt
      rw [hi] at hm
      rw [haddr, hnext, visited_of_more hlt hm]
      have hdiv : k * 4096 / pgSize = k := by
        rw [hvals.2.2]
        omega
      have hrest : ∀ s₁, Copies s s₁ old new {k} →
          (∃ s', copyLoop caller old new more n (toInt32 ((k + 1) * 4096 : ℕ)) s₁ = .ok s' ∧
              Copies s s' old new ({k} ∪ visited more (k + 1))) ∨
            ∃ e, copyLoop caller old new more n (toInt32 ((k + 1) * 4096 : ℕ)) s₁ = .error e ∧
              (e = .panic "remap" → ∃ va < maxVa, va / pgSize ∈ {k} ∪ visited more (k + 1) ∧
                s.userFrame old va ≠ none ∧ isValid (s.leaf new va)) := by
        intro s₁ hc
        obtain ⟨h₁, -, hleaf, -⟩ := h.acts hc.acts
        rcases ih (k := k + 1) (by omega) h₁ with ⟨s', he, hc'⟩ | ⟨e, he, hwhy⟩
        · exact Or.inl ⟨s', he, hc.trans h hc'⟩
        · refine Or.inr ⟨e, he, fun heq => ?_⟩
          obtain ⟨va, hva, hV, hframe, hv⟩ := hwhy heq
          rw [userFrame_congr (hleaf va)] at hframe
          have hne : ¬(va / pgSize ∈ ({k} : Set ℕ) ∧ s.userFrame old va ≠ none) := by
            rintro ⟨hk', -⟩
            have := hV.1
            rw [Set.mem_singleton_iff] at hk'
            omega
          rw [hc.only va hva hne] at hv
          exact ⟨va, hva, Or.inr hV, hframe, hv⟩
      have hmem : k * 4096 / pgSize ∈ ({k} ∪ visited more (k + 1) : Set ℕ) := Or.inl hdiv
      rcases (copyPage_cases h (show k * 4096 < userTop by omega) (by rw [hvals.2.2]; omega) hnew :
          (_ ∧ s.copyPage caller old new (k * 4096) = _) ∨ _) with
        ⟨-, he⟩ | ⟨-, hnone, he⟩ | ⟨-, hsome, ⟨-, he⟩ | ⟨hv, he⟩ | ⟨-, he⟩ | ⟨s₁, he, hc, -⟩⟩
      · rw [he]
        exact Or.inr ⟨_, rfl, fun heq => absurd heq (panic_append_ne (by decide))⟩
      · rw [he]
        refine hrest s (.refl h fun va hva hV => ?_)
        rw [Set.mem_singleton_iff, ← hdiv] at hV
        rw [userFrame_page s old (by omega) hva hV, hnone]
      · rw [he]
        exact Or.inr ⟨_, rfl, fun heq => absurd heq (panic_append_ne (by decide))⟩
      · rw [he]
        exact Or.inr ⟨_, rfl, fun _ => ⟨k * 4096, by omega, hmem, hsome, hv⟩⟩
      · rw [he]
        exact Or.inr ⟨_, rfl, fun heq => absurd heq (panic_append_ne (by decide))⟩
      · rw [he]
        rw [hdiv] at hc
        exact hrest s₁ hc
    · rw [if_neg hm]
      have hV : visited more k = ∅ := visited_of_stop fun hlt hm' => by
        rw [(loopAddr hlt).1] at hm
        exact hm hm'
      rw [hV]
      exact Or.inl ⟨s, rfl, .refl h fun va hva hV => absurd hV (Set.notMem_empty _)⟩

theorem visited_lt (sz : ℤ) :
    visited (fun i => i < sz) 0 = {j | j < 2 ^ 19 ∧ ((j * 4096 : ℕ) : ℤ) < sz} := by
  ext j
  constructor
  · rintro ⟨-, h₂, h₃⟩
    exact ⟨h₂, by simpa using h₃ j (Nat.zero_le j) le_rfl⟩
  · rintro ⟨h₁, h₂⟩
    refine ⟨Nat.zero_le j, h₁, fun i _ hi => decide_eq_true ?_⟩
    have hle : ((i * 4096 : ℕ) : ℤ) ≤ (j * 4096 : ℕ) := by
      exact_mod_cast Nat.mul_le_mul_right 4096 hi
    exact hle.trans_lt h₂

theorem userVmCopy_spec (hnew : new ≠ 0) (sz : ℤ) (h : Apart s old new) :
    (∃ s', s.userVmCopy old new sz = .ok s' ∧
        Copies s s' old new {j | j < 2 ^ 19 ∧ ((j * 4096 : ℕ) : ℤ) < sz}) ∨
      ∃ e, s.userVmCopy old new sz = .error e ∧ (e = .panic "remap" → ∃ va < maxVa,
        s.userFrame old va ≠ none ∧ isValid (s.leaf new va)) := by
  unfold userVmCopy
  generalize 2 ^ 19 + 2 = n
  rw [userVmCopyFrom_eq, ← visited_lt]
  rcases copyLoop_spec (k := 0) (n := n) hnew (by norm_num) h with hok | ⟨e, he, hwhy⟩
  · exact Or.inl hok
  · refine Or.inr ⟨e, he, fun heq => ?_⟩
    obtain ⟨va, hva, -, hres⟩ := hwhy heq
    exact ⟨va, hva, hres⟩

/-- The numbers of the pages that `CopyUserMem` visits for a mapping. -/
def vmaPages (v : Vma) : Set ℕ :=
  {j | 0 ≤ toInt32 v.addr ∧ toInt32 v.addr ≤ (j * 4096 : ℕ) ∧ j < 2 ^ 19 ∧ j * 4096 < v.stop}

/-- The first address of `CopyUserMem` is negative as an `int`, or the address of a page. -/
theorem vmaPages_cases {v : Vma} (ha : v.Aligned) :
    maxVa ≤ toU64 (toInt32 v.addr) ∧ vmaPages v = ∅ ∨
      ∃ k < 2 ^ 19, toInt32 v.addr = toInt32 (k * 4096 : ℕ) ∧
        visited (fun i => toU64 i < v.stop) k = vmaPages v := by
  by_cases hneg : toInt32 v.addr < 0
  · left
    have hbig : maxVa ≤ toU64 (toInt32 v.addr) := by
      have hlow := (toInt32_bounds v.addr).1
      have : maxVa = 274877906944 := by decide
      unfold toU64
      omega
    refine ⟨hbig, Set.eq_empty_of_forall_notMem fun j hj => ?_⟩
    have := hj.1
    omega
  · right
    obtain ⟨k, hk, hlt⟩ : ∃ k : ℕ, toInt32 v.addr = toInt32 (k * 4096 : ℕ) ∧ k < 2 ^ 19 := by
      have hhigh := (toInt32_bounds v.addr).2
      have hmod : toInt32 v.addr % 4096 = 0 := by
        unfold Vma.Aligned at ha
        simp only [pgSize] at ha
        unfold toInt32 at *
        rw [Int.bmod_def] at *
        split
        · omega
        · omega
      refine ⟨(toInt32 v.addr / 4096).toNat, ?_, by omega⟩
      rw [(loopAddr (k := (toInt32 v.addr / 4096).toNat) (by omega)).1]
      omega
    refine ⟨k, hlt, hk, ?_⟩
    have hi := (loopAddr hlt).1
    have hnat : ∀ j : ℕ, j < 2 ^ 19 → toU64 (j * 4096 : ℕ) = j * 4096 := by
      intro j hj
      unfold toU64
      omega
    ext j
    constructor
    · rintro ⟨h₁, h₂, h₃⟩
      have hj := h₃ j h₁ le_rfl
      rw [decide_eq_true_eq, hnat j h₂] at hj
      exact ⟨by omega, by omega, h₂, hj⟩
    · rintro ⟨-, h₂, h₃, h₄⟩
      refine ⟨by omega, h₃, fun i _ hij => decide_eq_true ?_⟩
      rw [hnat i (hij.trans_lt h₃)]
      exact (Nat.mul_le_mul_right 4096 hij).trans_lt h₄

theorem copyUserMem_eq (v : Vma) : s.copyUserMem old new v.addr v.length =
    copyLoop "CopyUserMem" old new (fun i => toU64 i < v.stop) (2 ^ 19 + 2) (toInt32 v.addr) s :=
  copyUserMemFrom_eq ..

theorem copyLoop_of_ge {more : ℤ → Bool} {i : ℤ} (hbig : maxVa ≤ toU64 i) :
    copyLoop caller old new more n i s = .ok s ∨
      ∃ e, copyLoop caller old new more n i s = .error e ∧ e ≠ .panic "remap" := by
  cases n with
  | zero => exact Or.inr ⟨.hang, rfl, by decide⟩
  | succ n =>
    unfold copyLoop
    split
    · refine Or.inr ⟨.panic "walk", ?_, by decide⟩
      unfold copyPage
      rw [walk_of_ge hbig]
      rfl
    · exact Or.inl rfl

theorem copyUserMem_spec {v : Vma} (hnew : new ≠ 0) (ha : v.Aligned) (h : Apart s old new) :
    (∃ s', s.copyUserMem old new v.addr v.length = .ok s' ∧ Copies s s' old new (vmaPages v)) ∨
      ∃ e, s.copyUserMem old new v.addr v.length = .error e ∧ (e = .panic "remap" → ∃ va < maxVa,
        va / pgSize ∈ vmaPages v ∧ s.userFrame old va ≠ none) := by
  rw [copyUserMem_eq]
  generalize 2 ^ 19 + 2 = n
  rcases vmaPages_cases ha with ⟨hbig, hV⟩ | ⟨k, hlt, hk, hV⟩
  · rw [hV]
    rcases (copyLoop_of_ge hbig :
      copyLoop "CopyUserMem" old new _ n _ s = .ok s ∨ _) with he | ⟨e, he, hne⟩
    · exact Or.inl ⟨s, he, .refl h fun va hva hV => absurd hV (Set.notMem_empty _)⟩
    · exact Or.inr ⟨e, he, fun heq => absurd heq hne⟩
  · rw [hk, ← hV]
    rcases (copyLoop_spec hnew hlt.le h :
      (∃ s', copyLoop "CopyUserMem" old new _ n _ s = .ok s' ∧ _) ∨ _) with hok | ⟨e, he, hwhy⟩
    · exact Or.inl hok
    · refine Or.inr ⟨e, he, fun heq => ?_⟩
      obtain ⟨va, hva, hmem, hres, -⟩ := hwhy heq
      exact ⟨va, hva, hmem, hres⟩

/-- The numbers of the pages that `CopyVmaMem` visits for some slots of a task. -/
def slotPages (vmaTable : ℕ → Vma) (t : Task) (is : List ℕ) : Set ℕ :=
  {j | ∃ i ∈ is, ∃ p, t.vma i = some p ∧ toU64 t.sz ≤ (vmaTable p).addr ∧ j ∈ vmaPages (vmaTable p)}

/-- One turn of `CopyVmaMem`. -/
def copySlot (vmaTable : ℕ → Vma) (t : Task) (new : ℕ) (s : MemAllocator) (i : ℕ) :
    Kernel MemAllocator :=
  match t.vma i with
  | none => return s
  | some p =>
    if (vmaTable p).addr < toU64 t.sz then return s
    else s.copyUserMem t.pagetable new (vmaTable p).addr (vmaTable p).length

section Slots

variable {vmaTable : ℕ → Vma} {t : Task}

theorem slotPages_cons (i : ℕ) (is : List ℕ) : slotPages vmaTable t (i :: is) =
    slotPages vmaTable t [i] ∪ slotPages vmaTable t is := by
  ext j
  constructor
  · rintro ⟨i', hi', hres⟩
    rcases List.mem_cons.mp hi' with rfl | hi'
    · exact Or.inl ⟨i', List.mem_singleton_self i', hres⟩
    · exact Or.inr ⟨i', hi', hres⟩
  · rintro (⟨i', hi', hres⟩ | ⟨i', hi', hres⟩)
    · exact ⟨i', List.mem_cons.mpr (Or.inl (List.mem_singleton.mp hi')), hres⟩
    · exact ⟨i', List.mem_cons_of_mem i hi', hres⟩

/-- The pages of one slot: none, unless its mapping begins above the size. -/
theorem slotPages_singleton (i : ℕ) : slotPages vmaTable t [i] =
    match t.vma i with
    | none => ∅
    | some p => if (vmaTable p).addr < toU64 t.sz then ∅ else vmaPages (vmaTable p) := by
  cases hi : t.vma i with
  | none =>
    refine Set.eq_empty_of_forall_notMem ?_
    rintro j ⟨i', hi', p, hp, -⟩
    obtain rfl := List.mem_singleton.mp hi'
    rw [hi] at hp
    cases hp
  | some p =>
    dsimp only
    split
    · refine Set.eq_empty_of_forall_notMem ?_
      rintro j ⟨i', hi', p', hp, hle, -⟩
      obtain rfl := List.mem_singleton.mp hi'
      rw [hi] at hp
      cases hp
      omega
    · ext j
      constructor
      · rintro ⟨i', hi', p', hp, -, hres⟩
        obtain rfl := List.mem_singleton.mp hi'
        rw [hi] at hp
        cases hp
        exact hres
      · intro hres
        exact ⟨i, List.mem_singleton_self i, p, hi, by omega, hres⟩

theorem copySlot_spec (i : ℕ) (hnew : new ≠ 0) (ha : t.Aligned vmaTable)
    (h : Apart s t.pagetable new) :
    (∃ s', copySlot vmaTable t new s i = .ok s' ∧
        Copies s s' t.pagetable new (slotPages vmaTable t [i])) ∨
      ∃ e, copySlot vmaTable t new s i = .error e ∧ (e = .panic "remap" → ∃ va < maxVa,
        va / pgSize ∈ slotPages vmaTable t [i] ∧ s.userFrame t.pagetable va ≠ none) := by
  rw [slotPages_singleton]
  unfold copySlot
  cases hi : t.vma i with
  | none => exact Or.inl ⟨s, rfl, .refl h fun va hva hV => absurd hV (Set.notMem_empty _)⟩
  | some p =>
    dsimp only
    split
    · exact Or.inl ⟨s, rfl, .refl h fun va hva hV => absurd hV (Set.notMem_empty _)⟩
    · exact copyUserMem_spec hnew (ha i p hi) h

theorem copySlots_spec (is : List ℕ) (hnew : new ≠ 0) (ha : t.Aligned vmaTable)
    (h : Apart s t.pagetable new) :
    (∃ s', is.foldlM (copySlot vmaTable t new) s = .ok s' ∧
        Copies s s' t.pagetable new (slotPages vmaTable t is)) ∨
      ∃ e, is.foldlM (copySlot vmaTable t new) s = .error e ∧ (e = .panic "remap" → ∃ va < maxVa,
        va / pgSize ∈ slotPages vmaTable t is ∧ s.userFrame t.pagetable va ≠ none) := by
  induction is generalizing s with
  | nil =>
    refine Or.inl ⟨s, rfl, .refl h fun va hva hV => ?_⟩
    obtain ⟨i, hi, -⟩ := hV
    cases hi
  | cons i is ih =>
    rw [List.foldlM_cons, slotPages_cons]
    rcases copySlot_spec i hnew ha h with ⟨s₁, he, hc⟩ | ⟨e, he, hwhy⟩
    · obtain ⟨h₁, -, hleaf, -⟩ := h.acts hc.acts
      rw [he, Kernel.ok_bind]
      rcases ih h₁ with ⟨s', he', hc'⟩ | ⟨e, he', hwhy⟩
      · exact Or.inl ⟨s', he', hc.trans h hc'⟩
      · refine Or.inr ⟨e, he', fun heq => ?_⟩
        obtain ⟨va, hva, hV, hframe⟩ := hwhy heq
        rw [userFrame_congr (hleaf va)] at hframe
        exact ⟨va, hva, Or.inr hV, hframe⟩
    · rw [he]
      refine Or.inr ⟨e, rfl, fun heq => ?_⟩
      obtain ⟨va, hva, hV, hframe⟩ := hwhy heq
      exact ⟨va, hva, Or.inl hV, hframe⟩

def forkPages (vmaTable : ℕ → Vma) (t : Task) : Set ℕ :=
  {j | j < 2 ^ 19 ∧ ((j * 4096 : ℕ) : ℤ) < t.sz} ∪ slotPages vmaTable t (List.range nommapfile)

/-- The pages of a task are copied to a table without user pages. -/
theorem copyTask_spec (hnew : new ≠ 0) (ha : t.Aligned vmaTable) (h : Apart s t.pagetable new)
    (hempty : ∀ va < maxVa, s.userFrame new va = none) :
    (∃ s₁ s', s.userVmCopy t.pagetable new t.sz = .ok s₁ ∧ s₁.copyVmaMem vmaTable t new = .ok s' ∧
        Copies s s' t.pagetable new (forkPages vmaTable t)) ∨
      ∃ e, (s.userVmCopy t.pagetable new t.sz >>= fun s₁ => s₁.copyVmaMem vmaTable t new) = .error e ∧
        (e = .panic "remap" → ∃ va < maxVa,
          va / pgSize ∈ slotPages vmaTable t (List.range nommapfile) ∧
            s.userFrame t.pagetable va ≠ none) := by
  rcases userVmCopy_spec hnew t.sz h with ⟨s₁, he, hc⟩ | ⟨e, he, hwhy⟩
  · obtain ⟨h₁, -, hleaf, -⟩ := h.acts hc.acts
    rcases copySlots_spec (List.range nommapfile) hnew ha h₁ with ⟨s', he', hc'⟩ | ⟨e, he', hwhy⟩
    · exact Or.inl ⟨s₁, s', he, he', hc.trans h hc'⟩
    · refine Or.inr ⟨e, ?_, fun heq => ?_⟩
      · rw [he]
        exact he'
      · obtain ⟨va, hva, hV, hframe⟩ := hwhy heq
        rw [userFrame_congr (hleaf va)] at hframe
        exact ⟨va, hva, hV, hframe⟩
  · refine Or.inr ⟨e, ?_, fun heq => ?_⟩
    · rw [he]
      rfl
    · obtain ⟨va, hva, hframe, hv⟩ := hwhy heq
      obtain ⟨q, hq⟩ := Option.ne_none_iff_exists'.mp hframe
      exact absurd (hempty va hva) (h.target.user_of_valid hva (h.source.below va hva q hq) hv)

theorem mem_forkPages {j : ℕ} : j ∈ forkPages vmaTable t ↔
    (j < 2 ^ 19 ∧ ((j * 4096 : ℕ) : ℤ) < t.sz) ∨
      ∃ i < nommapfile, ∃ v, (t.vma i).map vmaTable = some v ∧ toU64 t.sz ≤ v.addr ∧
        j ∈ vmaPages v := by
  refine or_congr_right ?_
  constructor
  · rintro ⟨i, hi, p, hp, haddr, hj⟩
    exact ⟨i, List.mem_range.mp hi, vmaTable p, by rw [hp]; rfl, haddr, hj⟩
  · rintro ⟨i, hi, v, hv, haddr, hj⟩
    obtain ⟨p, hp, rfl⟩ := Option.map_eq_some_iff.mp hv
    exact ⟨i, List.mem_range.mpr hi, p, hp, haddr, hj⟩

section Null

/-- Without a table to copy to, a turn of the loops can only pass a page that is not loaded. -/
theorem copyPage_null (h : s.copyPage caller old 0 va = .ok s') :
    s' = s ∧ s.userFrame old va = none := by
  by_cases hva : va < maxVa
  swap
  · unfold copyPage at h
    rw [walk_of_ge (Nat.le_of_not_lt hva)] at h
    cases h
  cases hn : s.node old (path va 2) with
  | none =>
    rw [copyPage_of_none hva hn] at h
    cases h
  | some m =>
    have hm : follow s.child old (path va 2) = some m := hn
    have hleaf := leaf_of_node hn
    unfold copyPage walk at h
    rw [if_neg (by omega), walkFrom_false, hm, Kernel.ok_bind] at h
    dsimp only at h
    split at h
    · cases h
    · split at h
      · rename_i hv
        cases h
        exact ⟨rfl, if_neg fun hc => by rw [hleaf] at hc; simp [hc.1] at hv⟩
      · split at h
        · cases h
        · cases h

theorem copyLoop_null {more : ℤ → Bool} {k : ℕ} (hk : k ≤ 2 ^ 19)
    (h : copyLoop caller old 0 more n (toInt32 (k * 4096 : ℕ)) s = .ok s') :
    s' = s ∧ ∀ va, va / pgSize ∈ visited more k → s.userFrame old va = none := by
  induction n generalizing k s with
  | zero => cases h
  | succ n ih =>
    unfold copyLoop at h
    split at h
    · rename_i hm
      rcases Nat.eq_or_lt_of_le hk with rfl | hlt
      · have hwrap : maxVa ≤ toU64 (toInt32 (2 ^ 19 * 4096 : ℕ)) := by decide
        unfold copyPage at h
        rw [walk_of_ge hwrap] at h
        cases h
      obtain ⟨hi, haddr, hnext⟩ := loopAddr hlt
      rw [haddr, hnext] at h
      cases hc : s.copyPage caller old 0 (k * 4096) with
      | error e =>
        rw [hc] at h
        cases h
      | ok s₁ =>
        rw [hc] at h
        obtain ⟨rfl, hnone⟩ := copyPage_null hc
        obtain ⟨rfl, hrest⟩ := ih (k := k + 1) hlt h
        refine ⟨rfl, fun va hV => ?_⟩
        rw [visited_of_more hlt (hi ▸ hm)] at hV
        rcases hV with hV | hV
        · have hdiv : va / pgSize = k := hV
          have hvals : maxVa = 274877906944 ∧ pgSize = 4096 := by decide
          rw [hvals.2] at hdiv
          rw [userFrame_page _ old (show k * 4096 < maxVa by omega) (by omega), hnone]
          rw [hvals.2]
          omega
        · exact hrest va hV
    · rename_i hm
      cases h
      refine ⟨rfl, fun va hV => ?_⟩
      rw [visited_of_stop fun hlt hm' => hm (by rw [(loopAddr hlt).1]; exact hm')] at hV
      exact absurd hV (Set.notMem_empty _)

theorem copyUserMem_null {v : Vma} (ha : v.Aligned)
    (h : s.copyUserMem old 0 v.addr v.length = .ok s') :
    s' = s ∧ ∀ va, va / pgSize ∈ vmaPages v → s.userFrame old va = none := by
  rw [copyUserMem_eq] at h
  generalize 2 ^ 19 + 2 = n at h
  rcases vmaPages_cases ha with ⟨hbig, hV⟩ | ⟨k, hlt, hk, hV⟩
  · rw [hV]
    rcases (copyLoop_of_ge hbig :
      copyLoop "CopyUserMem" old 0 _ n _ s = .ok s ∨ _) with he | ⟨e, he, -⟩
    · rw [he] at h
      cases h
      exact ⟨rfl, fun va hV => absurd hV (Set.notMem_empty _)⟩
    · rw [he] at h
      cases h
  · rw [hk] at h
    rw [← hV]
    exact copyLoop_null hlt.le h

theorem copySlots_null (is : List ℕ) (ha : t.Aligned vmaTable)
    (h : is.foldlM (copySlot vmaTable t 0) s = .ok s') :
    s' = s ∧ ∀ va, va / pgSize ∈ slotPages vmaTable t is → s.userFrame t.pagetable va = none := by
  induction is generalizing s with
  | nil =>
    cases h
    refine ⟨rfl, ?_⟩
    rintro va ⟨i, hi, -⟩
    cases hi
  | cons i is ih =>
    rw [List.foldlM_cons] at h
    cases hc : copySlot vmaTable t 0 s i with
    | error e =>
      rw [hc] at h
      cases h
    | ok s₁ =>
      rw [hc] at h
      have hone : s₁ = s ∧ ∀ va, va / pgSize ∈ slotPages vmaTable t [i] →
          s.userFrame t.pagetable va = none := by
        rw [slotPages_singleton]
        unfold copySlot at hc
        cases hi : t.vma i with
        | none =>
          rw [hi] at hc
          cases hc
          exact ⟨rfl, fun va hV => absurd hV (Set.notMem_empty _)⟩
        | some p =>
          rw [hi] at hc
          dsimp only at hc ⊢
          split at hc
          · cases hc
            rw [if_pos ‹_›]
            exact ⟨rfl, fun va hV => absurd hV (Set.notMem_empty _)⟩
          · rw [if_neg ‹_›]
            exact copyUserMem_null (ha i p hi) hc
      obtain ⟨rfl, hone⟩ := hone
      obtain ⟨rfl, hrest⟩ := ih h
      refine ⟨rfl, fun va hV => ?_⟩
      rw [slotPages_cons] at hV
      exact hV.elim (hone va) (hrest va)

theorem copyTask_null {s₁ : MemAllocator} (ha : t.Aligned vmaTable)
    (h : s.userVmCopy t.pagetable 0 t.sz = .ok s₁) (h' : s₁.copyVmaMem vmaTable t 0 = .ok s') :
    s' = s ∧ ∀ va, va / pgSize ∈ forkPages vmaTable t → s.userFrame t.pagetable va = none := by
  unfold userVmCopy at h
  generalize 2 ^ 19 + 2 = n at h
  rw [userVmCopyFrom_eq] at h
  obtain ⟨rfl, hsize⟩ := copyLoop_null (k := 0) (by norm_num) h
  obtain ⟨rfl, hslots⟩ := copySlots_null (List.range nommapfile) ha h'
  rw [visited_lt] at hsize
  exact ⟨rfl, fun va hV => hV.elim (hsize va) (hslots va)⟩

end Null

end Slots

end StartOS.MemAllocator
