import StartOS.Memory.PageTable

/-! # Page tables as trees

The frames of a page table form a tree of depth 2 in which no frame is shared.
`walk` reads the tree or adds nodes to it without changing any translation.
-/

namespace StartOS

variable {e p pa perm : ℕ}

theorem isValid_iff : isValid e = true ↔ e % 2 = 1 := by
  rw [isValid, pteV, Nat.and_one_is_mod, bne_iff_ne]
  omega

theorem pa2pte_or (hp : perm < 1024) :
    pa2pte pa ||| perm ||| pteV = 1024 * (pa / 4096) + (perm ||| pteV) ∧ perm ||| pteV < 1024 := by
  have hlt : perm ||| pteV < 2 ^ 10 := Nat.or_lt_two_pow hp (by norm_num [pteV])
  rw [Nat.or_assoc, pa2pte, mul_comm]
  exact ⟨(Nat.two_pow_add_eq_or_of_lt hlt (pa / 4096)).symm, hlt⟩

theorem isValid_or (e : ℕ) : isValid (e ||| pteV) = true := by
  rw [isValid, bne_iff_ne, Nat.and_or_distrib_right, pteV]
  intro h
  have := (Nat.or_eq_zero_iff.mp h).2
  simp at this

theorem pte2pa_or (hp : perm < 1024) (ha : pa % 4096 = 0) (hl : pa < 2 ^ 64) :
    pte2pa (pa2pte pa ||| perm ||| pteV) = pa := by
  obtain ⟨h, hlt⟩ := pa2pte_or hp
  rw [h, pte2pa]
  omega

theorem pteFlags_or (hp : perm < 1024) :
    pteFlags (pa2pte pa ||| perm ||| pteV) = perm ||| pteV := by
  obtain ⟨h, hlt⟩ := pa2pte_or hp
  rw [h, pteFlags]
  omega

theorem pte_lt (hp : perm < 1024) (hl : pa < 2 ^ 64) :
    pa2pte pa ||| perm ||| pteV < 2 ^ 64 := by
  obtain ⟨h, hlt⟩ := pa2pte_or hp
  rw [h]
  omega

theorem link_eq (p : ℕ) : pa2pte p ||| pteV = pa2pte p ||| 0 ||| pteV := by rw [Nat.or_zero]

theorem link_interior (p : ℕ) : (pa2pte p ||| pteV) &&& (pteR ||| pteW ||| pteX) = 0 := by
  have hz : (0 : ℕ) < 1024 := by norm_num
  obtain ⟨h, -⟩ := pa2pte_or hz
  rw [link_eq, h, show 0 ||| pteV = 1 from rfl, show pteR ||| pteW ||| pteX = 14 from rfl]
  have hmod := Nat.and_mod_two_pow (a := 1024 * (p / 4096) + 1) (b := 14) (n := 4)
  have hle : (1024 * (p / 4096) + 1) &&& 14 ≤ 14 := Nat.and_le_right
  rw [Nat.mod_eq_of_lt (a := _ &&& 14) (by omega),
    show (1024 * (p / 4096) + 1) % 2 ^ 4 = 1 by omega] at hmod
  exact hmod

namespace MemAllocator

open RadixTree

def child (s : MemAllocator) (n : ℕ) (i : Fin 512) : Option ℕ :=
  if isValid (s.pteAt (pteAddr n i)) then some (pte2pa (s.pteAt (pteAddr n i))) else none

/-- The indices `walk` uses from `level` down. -/
def path (va : ℕ) : ℕ → List (Fin 512)
  | 0 => []
  | level + 1 => px (level + 1) va :: path va level

def node (s : MemAllocator) (root : ℕ) (l : List (Fin 512)) : Option ℕ := follow s.child root l

/-- The entry `walk` finds for `va`, 0 when there is none. -/
def walkPte (s : MemAllocator) (root va : ℕ) : ℕ :=
  match s.walk root va false with
  | .ok (a, s) => if a = 0 then 0 else s.pteAt a
  | .error _ => 0

/-- A page table: distinct frames in use, with links only at the upper two levels. -/
structure Table (s : MemAllocator) (root : ℕ) : Prop where
  unshared : Unshared s.child root 2
  isPage : ∀ l n, l.length ≤ 2 → s.node root l = some n → s.IsPage n
  taken : ∀ l n, l.length ≤ 2 → s.node root l = some n → n ∉ s.freeList
  interior : ∀ l n i, l.length < 2 → s.node root l = some n →
    isValid (s.pteAt (pteAddr n i)) → s.pteAt (pteAddr n i) &&& (pteR ||| pteW ||| pteX) = 0

variable {s s' s'' : MemAllocator} {root va n m v : ℕ} {i j : Fin 512} {l k : List (Fin 512)}

theorem pteAt_setPte (hn : n % pgSize = 0) (hm : m % pgSize = 0) (hv : v < 2 ^ 64) :
    (s.setPte (pteAddr n i) v).pteAt (pteAddr m j) =
      if m = n ∧ j = i then v else s.pteAt (pteAddr m j) := by
  simp only [pgSize] at hn hm
  split
  · rename_i h
    obtain ⟨rfl, rfl⟩ := h
    exact ByteMem.readLE_writeLE_of_lt hv
  · rename_i h
    refine ByteMem.readLE_writeLE_disjoint ?_
    have hij : m = n → (j : ℕ) ≠ i := fun he hj => h ⟨he, Fin.ext hj⟩
    have := i.isLt
    have := j.isLt
    simp only [pteAddr]
    by_cases hmn : m = n
    · have := hij hmn
      omega
    · omega

theorem walkFrom_false (s : MemAllocator) (va level n : ℕ) :
    s.walkFrom va false level n =
      (match follow s.child n (path va level) with
        | none => 0
        | some m => pteAddr m (px 0 va), s) := by
  induction level generalizing n with
  | zero => rfl
  | succ level ih =>
    rw [walkFrom, path, follow_cons, child]
    by_cases hv : isValid (s.pteAt (pteAddr n (px (level + 1) va)))
    · rw [if_pos hv, if_pos hv]
      exact ih _
    · rw [if_neg hv, if_neg hv]
      rfl

def leaf (s : MemAllocator) (root va : ℕ) : ℕ :=
  match s.node root (path va 2) with
  | none => 0
  | some n => s.pteAt (pteAddr n (px 0 va))

theorem leaf_of_node (h : s.node root (path va 2) = some n) :
    s.leaf root va = s.pteAt (pteAddr n (px 0 va)) := by
  rw [leaf, h]

theorem leaf_of_none (h : s.node root (path va 2) = none) : s.leaf root va = 0 := by
  rw [leaf, h]

namespace Table

theorem pos (h : Table s root) (hw : s.WellFormed) (hl : l.length ≤ 2)
    (hn : s.node root l = some n) : 0 < n := by
  have := (h.isPage l n hl hn).kend_le
  have := hw.kend_pos
  omega

theorem walkPte_eq (h : Table s root) (hw : s.WellFormed) (hva : va < maxVa) :
    s.walkPte root va = s.leaf root va := by
  rw [walkPte, walk, if_neg (by omega), walkFrom_false]
  change _ = match follow s.child root (path va 2) with | none => 0 | some n => _
  cases hn : follow s.child root (path va 2) with
  | none => rfl
  | some n =>
    have := h.pos hw (by simp [path]) hn
    exact if_neg (by simp only [pteAddr]; omega)

end Table

end MemAllocator

end StartOS
