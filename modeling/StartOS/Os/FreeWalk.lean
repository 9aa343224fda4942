import Mathlib.Data.List.Flatten
import StartOS.Os.Unmap

/-! # Freeing a page table

`freewalk` frees the nodes of a table below its root and then the root. It
stops the kernel when it meets a page that is still mapped; otherwise every
node is freed once.
-/

namespace StartOS.MemAllocator

open RadixTree

variable {s s' s'' : MemAllocator} {root n m p x L : ℕ} {i j : Fin 512}

/-- The nodes from `n` on with `L` levels of links, in the order in which they are freed. -/
def nodesBelow (s : MemAllocator) : ℕ → ℕ → List ℕ
  | 0, n => [n]
  | L + 1, n => (List.finRange 512).flatMap (fun i => (s.child n i).elim [] (nodesBelow s L)) ++ [n]

theorem nodesBelow_succ (s : MemAllocator) (L n : ℕ) : s.nodesBelow (L + 1) n =
    (List.finRange 512).flatMap (fun i => (s.child n i).elim [] (nodesBelow s L)) ++ [n] := rfl

def Clean (s : MemAllocator) : ℕ → ℕ → Prop
  | 0, n => ∀ i, ¬isValid (s.pteAt (pteAddr n i))
  | L + 1, n => ∀ i m, s.child n i = some m → Clean s L m

/-- Below `n` there are links on the upper levels and pages with some access on the last. -/
def Proper (s : MemAllocator) : ℕ → ℕ → Prop
  | 0, n => ∀ i, isValid (s.pteAt (pteAddr n i)) →
      s.pteAt (pteAddr n i) &&& (pteR ||| pteW ||| pteX) ≠ 0
  | L + 1, n => ∀ i m, s.child n i = some m →
      s.pteAt (pteAddr n i) &&& (pteR ||| pteW ||| pteX) = 0 ∧ Proper s L m

theorem mem_nodesBelow_self (s : MemAllocator) (L n : ℕ) : n ∈ s.nodesBelow L n := by
  cases L with
  | zero => exact List.mem_singleton_self n
  | succ L => exact List.mem_append_right _ (List.mem_singleton_self n)

theorem mem_nodesBelow_child (h : s.child n i = some m) (hp : p ∈ s.nodesBelow L m) :
    p ∈ s.nodesBelow (L + 1) n := by
  apply List.mem_append_left
  rw [List.mem_flatMap]
  refine ⟨i, List.mem_finRange i, ?_⟩
  rw [h]
  exact hp

def AgreeOn (s s' : MemAllocator) (ns : List ℕ) : Prop :=
  ∀ p ∈ ns, ∀ x, p ≤ x → x < p + pgSize → s'.mem x = s.mem x

theorem AgreeOn.pteAt {ns : List ℕ} (h : AgreeOn s s' ns) (hn : n ∈ ns) (i : Fin 512) :
    s'.pteAt (pteAddr n i) = s.pteAt (pteAddr n i) := by
  apply ByteMem.readLE_congr
  intro x hx hx'
  obtain ⟨h₁, h₂⟩ := pteAddr_mem i hx hx'
  exact h n hn x h₁ h₂

theorem AgreeOn.child {ns : List ℕ} (h : AgreeOn s s' ns) (hn : n ∈ ns) (i : Fin 512) :
    s'.child n i = s.child n i := by
  unfold MemAllocator.child
  rw [h.pteAt hn]

theorem AgreeOn.below (h : AgreeOn s s' (s.nodesBelow L n)) :
    s'.nodesBelow L n = s.nodesBelow L n ∧ (Clean s' L n ↔ Clean s L n) ∧
      (Proper s' L n ↔ Proper s L n) := by
  induction L generalizing n with
  | zero =>
    have hat := fun i => h.pteAt (mem_nodesBelow_self s 0 n) i
    refine ⟨rfl, ?_, ?_⟩
    · unfold Clean
      simp only [hat]
    · unfold Proper
      simp only [hat]
  | succ L ih =>
    have hat := fun i => h.pteAt (mem_nodesBelow_self s (L + 1) n) i
    have hchild := fun i => h.child (mem_nodesBelow_self s (L + 1) n) i
    have hsub : ∀ i m, s.child n i = some m → AgreeOn s s' (s.nodesBelow L m) := by
      intro i m hm p hp
      exact h p (mem_nodesBelow_child hm hp)
    refine ⟨?_, ?_, ?_⟩
    · have hflat : ∀ i, (s'.child n i).elim [] (nodesBelow s' L) =
          (s.child n i).elim [] (nodesBelow s L) := by
        intro i
        rw [hchild]
        cases hm : s.child n i with
        | none => rw [Option.elim_none, Option.elim_none]
        | some m => exact (ih (hsub i m hm)).1
      rw [nodesBelow_succ, nodesBelow_succ, funext hflat]
    · unfold Clean
      simp only [hchild]
      constructor
      · intro hc i m hm
        exact (ih (hsub i m hm)).2.1.mp (hc i m hm)
      · intro hc i m hm
        exact (ih (hsub i m hm)).2.1.mpr (hc i m hm)
    · unfold Proper
      simp only [hchild, hat]
      constructor
      · intro hc i m hm
        exact ⟨(hc i m hm).1, (ih (hsub i m hm)).2.2.mp (hc i m hm).2⟩
      · intro hc i m hm
        exact ⟨(hc i m hm).1, (ih (hsub i m hm)).2.2.mpr (hc i m hm).2⟩

structure Freed (s s' : MemAllocator) (ns : List ℕ) : Prop where
  freeList : s'.freeList = ns.reverse ++ s.freeList
  kend : s'.kend = s.kend
  mem : ∀ x, (∀ p ∈ ns, x < p ∨ p + pgSize ≤ x) → s'.mem x = s.mem x

/-- One turn of the loop of `freewalk`. -/
def freewalkEntry (depth n : ℕ) (s : MemAllocator) (i : Fin 512) : Kernel MemAllocator := do
  let pte := s.pteAt (pteAddr n i)
  if isValid pte ∧ pte &&& (pteR ||| pteW ||| pteX) = 0 then
    let s ← freewalk depth s (pte2pa pte)
    return s.setPte (pteAddr n i) 0
  else if isValid pte then .error (.panic "freewalk: leaf")
  else return s

theorem freewalk_succ (depth n : ℕ) (s : MemAllocator) : freewalk (depth + 1) s n =
    ((List.finRange 512).foldlM (freewalkEntry depth n) s >>= fun s => s.free n) := by
  rw [freewalk]
  rfl

/-- The loop on the last level finds that nothing is mapped, or stops the kernel. -/
theorem freewalk_last (depth : ℕ) (is : List (Fin 512)) (h : Proper s 0 n) :
    ((∀ i ∈ is, ¬isValid (s.pteAt (pteAddr n i))) ∧ is.foldlM (freewalkEntry depth n) s = .ok s) ∨
      ((∃ i ∈ is, isValid (s.pteAt (pteAddr n i))) ∧
        is.foldlM (freewalkEntry depth n) s = .error (.panic "freewalk: leaf")) := by
  induction is with
  | nil => exact Or.inl ⟨fun i hi => absurd hi List.not_mem_nil, rfl⟩
  | cons i is ih =>
    rw [List.foldlM_cons]
    by_cases hv : isValid (s.pteAt (pteAddr n i))
    · have hentry : freewalkEntry depth n s i = .error (.panic "freewalk: leaf") := by
        unfold freewalkEntry
        dsimp only
        rw [if_neg fun hc => h i hv hc.2, if_pos hv]
      rw [hentry]
      exact Or.inr ⟨⟨i, List.mem_cons_self, hv⟩, rfl⟩
    · have hentry : freewalkEntry depth n s i = .ok s := by
        unfold freewalkEntry
        dsimp only
        rw [if_neg fun hc => hv hc.1, if_neg hv]
        rfl
      rw [hentry, Kernel.ok_bind]
      rcases ih with ⟨hall, he⟩ | ⟨⟨j, hj, hvj⟩, he⟩
      · refine Or.inl ⟨fun j hj => ?_, he⟩
        rcases List.mem_cons.mp hj with rfl | hj
        · exact hv
        · exact hall j hj
      · exact Or.inr ⟨⟨j, List.mem_cons_of_mem i hj, hvj⟩, he⟩

/-- What `freewalk` does at a node with `L` levels of links. -/
def FreesBelow (L : ℕ) : Prop :=
  ∀ (depth : ℕ) (s : MemAllocator) (n : ℕ), L < depth → Proper s L n →
    (s.nodesBelow L n).Nodup → (∀ p ∈ s.nodesBelow L n, s.IsPage p) →
    (Clean s L n ∧ ∃ s', freewalk depth s n = .ok s' ∧ Freed s s' (s.nodesBelow L n)) ∨
      (¬Clean s L n ∧ freewalk depth s n = .error (.panic "freewalk: leaf"))

theorem Freed.of_free {ns : List ℕ} (hn : s.IsPage n) (hfree : s'.freeList = ns.reverse ++ s.freeList)
    (hk : s'.kend = s.kend)
    (hmem : ∀ x, (∀ p ∈ ns ++ [n], x < p ∨ p + pgSize ≤ x) → s'.mem x = s.mem x) :
    ∃ s'', s'.free n = .ok s'' ∧ Freed s s'' (ns ++ [n]) := by
  refine ⟨_, (hn.of_kend hk).free_eq, ?_, hk, ?_⟩
  · rw [List.reverse_append, hfree]
    rfl
  · intro x hx
    have hout := hx n (List.mem_append_right _ (List.mem_singleton_self n))
    exact (ByteMem.fill_of_not_mem hout).trans (hmem x hx)

theorem freesBelow_zero : FreesBelow 0 := by
  intro depth s n hd hproper hnodup hpage
  obtain ⟨d, rfl⟩ : ∃ d, depth = d + 1 := ⟨depth - 1, by omega⟩
  rw [freewalk_succ]
  rcases freewalk_last d (List.finRange 512) hproper with ⟨hall, he⟩ | ⟨⟨i, -, hv⟩, he⟩
  · left
    obtain ⟨s', hfree, hs'⟩ := Freed.of_free (hpage n (mem_nodesBelow_self s 0 n))
      (show s.freeList = [].reverse ++ s.freeList from rfl) rfl fun _ _ => rfl
    refine ⟨fun i => hall i (List.mem_finRange i), s', ?_, hs'⟩
    rw [he, Kernel.ok_bind, hfree]
  · right
    refine ⟨fun hc => hc i hv, ?_⟩
    rw [he]
    rfl

def entryBelow (s : MemAllocator) (L n : ℕ) (i : Fin 512) : List ℕ :=
  (s.child n i).elim [] (nodesBelow s L)

theorem entryBelow_of_some (h : s.child n i = some m) :
    s.entryBelow L n i = s.nodesBelow L m := by
  unfold entryBelow
  rw [h, Option.elim_some]

theorem entryBelow_of_none (h : s.child n i = none) : s.entryBelow L n i = [] := by
  unfold entryBelow
  rw [h, Option.elim_none]

theorem child_eq_some (h : s.child n i = some m) :
    isValid (s.pteAt (pteAddr n i)) ∧ pte2pa (s.pteAt (pteAddr n i)) = m := by
  unfold child at h
  split at h
  · rename_i hv
    exact ⟨hv, Option.some.inj h⟩
  · cases h

theorem child_eq_none (h : s.child n i = none) : ¬isValid (s.pteAt (pteAddr n i)) := by
  intro hv
  unfold child at h
  rw [if_pos hv] at h
  cases h

theorem Freed.setPte_mem {ns : List ℕ} (h : Freed s s' ns)
    (hx : ∀ p ∈ ns, x < p ∨ p + pgSize ≤ x) (hn : x < n ∨ n + pgSize ≤ x) :
    (s'.setPte (pteAddr n i) 0).mem x = s.mem x := by
  refine (ByteMem.writeLE_of_not_mem ?_).trans (h.mem x hx)
  have := i.isLt
  simp only [pteAddr, pgSize] at *
  omega

theorem Freed.setPte_entry {ns : List ℕ} (h : Freed s s' ns) (hn : s.IsPage n)
    (hns : ∀ p ∈ ns, s.IsPage p) (hnot : n ∉ ns) (hij : j ≠ i) :
    (s'.setPte (pteAddr n i) 0).pteAt (pteAddr n j) = s.pteAt (pteAddr n j) := by
  rw [pteAt_setPte hn.aligned hn.aligned (by norm_num), if_neg fun hc => hij hc.2]
  apply ByteMem.readLE_congr
  intro x hx hx'
  obtain ⟨h₁, h₂⟩ := pteAddr_mem j hx hx'
  refine h.mem x fun p hp => hn.disjoint (hns p hp) ?_ h₁ h₂
  rintro rfl
  exact hnot hp

/-- The entries `is` of `n`, with what is below them, are in `s'` as they were in `s`. -/
structure EntriesKept (s s' : MemAllocator) (L n : ℕ) (is : List (Fin 512)) : Prop where
  entry : ∀ j ∈ is, s'.pteAt (pteAddr n j) = s.pteAt (pteAddr n j)
  agree : ∀ j ∈ is, ∀ m, s.child n j = some m → AgreeOn s s' (s.nodesBelow L m)
  kend : s'.kend = s.kend

namespace EntriesKept

variable {is : List (Fin 512)} (h : EntriesKept s s' L n is)

include h

theorem child (hj : j ∈ is) : s'.child n j = s.child n j := by
  unfold MemAllocator.child
  rw [h.entry j hj]

theorem flatMap : is.flatMap (s'.entryBelow L n) = is.flatMap (s.entryBelow L n) := by
  apply List.flatMap_congr
  intro j hj
  cases hm : s.child n j with
  | none => rw [entryBelow_of_none hm, entryBelow_of_none ((h.child hj).trans hm)]
  | some m =>
    rw [entryBelow_of_some hm, entryBelow_of_some ((h.child hj).trans hm)]
    exact (h.agree j hj m hm).below.1

theorem proper (hj : j ∈ is) (hm : s.child n j = some m)
    (hp : s.pteAt (pteAddr n j) &&& (pteR ||| pteW ||| pteX) = 0 ∧ Proper s L m) :
    s'.pteAt (pteAddr n j) &&& (pteR ||| pteW ||| pteX) = 0 ∧ Proper s' L m := by
  rw [h.entry j hj]
  exact ⟨hp.1, (h.agree j hj m hm).below.2.2.mpr hp.2⟩

theorem clean_iff (hj : j ∈ is) (hm : s.child n j = some m) : Clean s' L m ↔ Clean s L m :=
  (h.agree j hj m hm).below.2.1

theorem isPage {p : ℕ} (hp : s.IsPage p) : s'.IsPage p := hp.of_kend h.kend

end EntriesKept

/-- The other entries keep what is below them when the frames below entry `i` are freed. -/
theorem Freed.entriesKept {is : List (Fin 512)} (hfreed : Freed s s' (s.nodesBelow L m))
    (hn : s.IsPage n) (hi : i ∉ is) (hm : s.child n i = some m)
    (hnodup : ((i :: is).flatMap (s.entryBelow L n) ++ [n]).Nodup)
    (hpage : ∀ p ∈ (i :: is).flatMap (s.entryBelow L n), s.IsPage p) :
    EntriesKept s (s'.setPte (pteAddr n i) 0) L n is := by
  rw [List.flatMap_cons, entryBelow_of_some hm] at hnodup hpage
  have hnot : n ∉ s.nodesBelow L m := by
    intro hc
    exact List.disjoint_of_nodup_append hnodup (List.mem_append_left _ hc) (List.mem_singleton_self n)
  have hpm : ∀ p ∈ s.nodesBelow L m, s.IsPage p := fun p hp => hpage p (List.mem_append_left _ hp)
  refine ⟨fun j hj => hfreed.setPte_entry hn hpm hnot ?_, ?_, hfreed.kend⟩
  · rintro rfl
    exact hi hj
  · intro j hj k hk p hp x hx hx'
    have hpf : p ∈ is.flatMap (s.entryBelow L n) := by
      rw [List.mem_flatMap]
      refine ⟨j, hj, ?_⟩
      rwa [entryBelow_of_some hk]
    have hpp := hpage p (List.mem_append_right _ hpf)
    apply hfreed.setPte_mem
    · intro q hq
      refine hpp.disjoint (hpm q hq) ?_ hx hx'
      rintro rfl
      exact List.disjoint_of_nodup_append hnodup.of_append_left hq hpf
    · refine hpp.disjoint hn ?_ hx hx'
      rintro rfl
      exact List.disjoint_of_nodup_append hnodup (List.mem_append_right _ hpf)
        (List.mem_singleton_self p)

theorem freewalkEntry_of_none (depth : ℕ) (h : s.child n i = none) :
    freewalkEntry depth n s i = .ok s := by
  unfold freewalkEntry
  dsimp only
  rw [if_neg fun hc => child_eq_none h hc.1, if_neg (child_eq_none h)]
  rfl

theorem freewalkEntry_of_some (depth : ℕ) (h : s.child n i = some m)
    (hlink : s.pteAt (pteAddr n i) &&& (pteR ||| pteW ||| pteX) = 0) :
    freewalkEntry depth n s i = (do
      let s ← freewalk depth s m
      return s.setPte (pteAddr n i) 0) := by
  obtain ⟨hv, hpa⟩ := child_eq_some h
  unfold freewalkEntry
  dsimp only
  rw [if_pos ⟨hv, hlink⟩, hpa]

theorem freewalk_upper {depth : ℕ} (ih : FreesBelow L) (hd : L < depth) (hn : s.IsPage n)
    (is : List (Fin 512)) (his : is.Nodup)
    (hproper : ∀ i ∈ is, ∀ m, s.child n i = some m →
      s.pteAt (pteAddr n i) &&& (pteR ||| pteW ||| pteX) = 0 ∧ Proper s L m)
    (hnodup : (is.flatMap (s.entryBelow L n) ++ [n]).Nodup)
    (hpage : ∀ p ∈ is.flatMap (s.entryBelow L n), s.IsPage p) :
    ((∀ i ∈ is, ∀ m, s.child n i = some m → Clean s L m) ∧ ∃ s',
        is.foldlM (freewalkEntry depth n) s = .ok s' ∧
          s'.freeList = (is.flatMap (s.entryBelow L n)).reverse ++ s.freeList ∧ s'.kend = s.kend ∧
          ∀ x, (∀ p ∈ is.flatMap (s.entryBelow L n) ++ [n], x < p ∨ p + pgSize ≤ x) →
            s'.mem x = s.mem x) ∨
      ((∃ i ∈ is, ∃ m, s.child n i = some m ∧ ¬Clean s L m) ∧
        is.foldlM (freewalkEntry depth n) s = .error (.panic "freewalk: leaf")) := by
  induction is generalizing s with
  | nil =>
    exact Or.inl ⟨fun i hi => absurd hi List.not_mem_nil, s, rfl, rfl, rfl, fun _ _ => rfl⟩
  | cons i is ihl =>
    obtain ⟨hi, his⟩ := List.nodup_cons.mp his
    have hmem : ∀ j ∈ is, j ∈ i :: is := fun j hj => List.mem_cons_of_mem i hj
    cases hm : s.child n i with
    | none =>
      rw [List.foldlM_cons, List.flatMap_cons, entryBelow_of_none hm, List.nil_append] at *
      rw [freewalkEntry_of_none depth hm, Kernel.ok_bind]
      rcases ihl hn his (fun j hj => hproper j (hmem j hj)) hnodup hpage with
        ⟨hall, hres⟩ | ⟨⟨j, hj, hbad⟩, he⟩
      · refine Or.inl ⟨fun j hj m hjm => ?_, hres⟩
        rcases List.mem_cons.mp hj with rfl | hj
        · rw [hm] at hjm
          cases hjm
        · exact hall j hj m hjm
      · exact Or.inr ⟨⟨j, hmem j hj, hbad⟩, he⟩
    | some m =>
      obtain ⟨hlink, hprop⟩ := hproper i List.mem_cons_self m hm
      have hkept := fun s₁ (hfreed : Freed s s₁ (s.nodesBelow L m)) =>
        hfreed.entriesKept hn hi hm hnodup hpage
      rw [List.foldlM_cons, List.flatMap_cons, entryBelow_of_some hm] at *
      rw [freewalkEntry_of_some depth hm hlink]
      rcases ih depth s m hd hprop hnodup.of_append_left.of_append_left
        (fun p hp => hpage p (List.mem_append_left _ hp)) with ⟨hclean, s₁, he, hfreed⟩ | ⟨hdirty, he⟩
      · rw [he, Kernel.ok_bind, Kernel.pure_eq, Kernel.ok_bind]
        have hkept := hkept s₁ hfreed
        rcases ihl (s := s₁.setPte (pteAddr n i) 0) (hkept.isPage hn) his (by
            intro j hj k hk
            rw [hkept.child hj] at hk
            exact hkept.proper hj hk (hproper j (hmem j hj) k hk)) (by
            rw [hkept.flatMap]
            rw [List.append_assoc] at hnodup
            exact hnodup.of_append_right) (by
            intro p hp
            rw [hkept.flatMap] at hp
            exact hkept.isPage (hpage p (List.mem_append_right _ hp))) with
          ⟨hall, s', he', hfl', hk', hmem'⟩ | ⟨⟨j, hj, k, hk, hbad⟩, he'⟩
        · refine Or.inl ⟨fun j hj k hk => ?_, s', he', ?_, hk'.trans hfreed.kend, ?_⟩
          · rcases List.mem_cons.mp hj with rfl | hj
            · rw [hm] at hk
              cases hk
              exact hclean
            · exact (hkept.clean_iff hj hk).mp (hall j hj k ((hkept.child hj).trans hk))
          · rw [hfl', hkept.flatMap, List.reverse_append, List.append_assoc]
            exact congrArg _ hfreed.freeList
          · intro x hx
            rw [hkept.flatMap] at hmem'
            rw [hmem' x fun p hp => hx p (by
              rw [List.append_assoc]
              exact List.mem_append_right _ hp)]
            apply hfreed.setPte_mem
            · intro p hp
              exact hx p (List.mem_append_left _ (List.mem_append_left _ hp))
            · exact hx n (List.mem_append_right _ (List.mem_singleton_self n))
        · right
          rw [hkept.child hj] at hk
          exact ⟨⟨j, hmem j hj, k, hk, fun hc => hbad ((hkept.clean_iff hj hk).mpr hc)⟩, he'⟩
      · right
        refine ⟨⟨i, List.mem_cons_self, m, hm, hdirty⟩, ?_⟩
        rw [he]
        rfl

theorem freesBelow (L : ℕ) : FreesBelow L := by
  induction L with
  | zero => exact freesBelow_zero
  | succ L ih =>
    intro depth s n hd hproper hnodup hpage
    obtain ⟨d, rfl⟩ : ∃ d, depth = d + 1 := ⟨depth - 1, by omega⟩
    have hn := hpage n (mem_nodesBelow_self s (L + 1) n)
    rw [freewalk_succ]
    rw [nodesBelow_succ] at hnodup hpage ⊢
    rcases freewalk_upper ih (show L < d by omega) hn (List.finRange 512) (List.nodup_finRange 512)
        (fun i _ => hproper i) hnodup (fun p hp => hpage p (List.mem_append_left _ hp)) with
      ⟨hall, s', he, hfl, hk, hmem⟩ | ⟨⟨i, -, m, hm, hbad⟩, he⟩
    · left
      obtain ⟨s'', hfree, hfreed⟩ := Freed.of_free hn hfl hk hmem
      refine ⟨fun i => hall i (List.mem_finRange i), s'', ?_, hfreed⟩
      rw [he, Kernel.ok_bind, hfree]
    · right
      refine ⟨fun hc => hbad (hc i m hm), ?_⟩
      rw [he]
      rfl

end StartOS.MemAllocator
